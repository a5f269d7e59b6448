/-
  Storage/DiskArrayCheckpoint.lean --- checkpoint and rollback of a disk array.

  Both write or clear shadow pages of PIPs only (`SameAt`), so the array pages are as
  before.  A checkpoint makes the list of the checkpoint the list of all readers.  A
  rollback drops the pending PIPs, but neither the shadow pages of the array pages nor
  the cached last page; it goes back to the checkpointed list if these do not matter.
-/
import Lbug.Storage.DiskArrayList

namespace Lbug.Storage

open Foundation List

namespace ShadowFile

variable {V : Type}

/-- The two shadow files do not differ at the page. -/
structure SameAt (s s' : ShadowFile V) (p : Nat) : Prop where
  wf : s.WF → s'.WF
  page : s.WF → s'.getShadowPage p = s.getShadowPage p
  map : s'.shadowPagesMap p = none ↔ s.shadowPagesMap p = none
  records : s.WF → (p ∈ s'.shadowPageRecords.map Prod.fst ↔ p ∈ s.shadowPageRecords.map Prod.fst)

variable {s s' s'' : ShadowFile V} {p : Nat} {q : Nat}

theorem SameAt.refl (s : ShadowFile V) (p : Nat) : SameAt s s p :=
  ⟨id, fun _ => rfl, Iff.rfl, fun _ => Iff.rfl⟩

theorem SameAt.trans (h : SameAt s s' p) (h' : SameAt s' s'' p) : SameAt s s'' p where
  wf hwf := h'.wf (h.wf hwf)
  page hwf := (h'.page (h.wf hwf)).trans (h.page hwf)
  map := h'.map.trans h.map
  records hwf := (h'.records (h.wf hwf)).trans (h.records hwf)

theorem sameAt_clearShadowPage (s : ShadowFile V) (hne : p ≠ q) :
    SameAt s (s.clearShadowPage q) p where
  wf hwf := hwf.clearShadowPage q
  page _ := by rw [getShadowPage_clearShadowPage, if_neg hne]
  map := by
    simp only [clearShadowPage, Function.update_of_ne hne]
  records _ := Iff.rfl

theorem sameAt_updatePage (s : ShadowFile V) (hne : p ≠ q) (original : DiskPage V)
    (f : DiskPage V → DiskPage V) : SameAt s (s.updatePage q original f) p where
  wf hwf := hwf.updatePage q original f
  page hwf := by rw [getShadowPage_updatePage hwf, if_neg hne]
  map := by
    cases hq : s.shadowPagesMap q with
    | none => simp only [updatePage_of_none hq, Function.update_of_ne hne]
    | some => rw [updatePage_of_some hq]
  records hwf := by rw [mem_records_updatePage hwf, or_iff_left hne]

/-- A loop over PIPs that changes the shadow file at their pages only. -/
theorem sameAt_foldl (op : ShadowFile V → PIPWrapper → ShadowFile V)
    (hop : ∀ s pip, p ≠ pip.pipPageIdx → SameAt s (op s pip) p) (pips : List PIPWrapper)
    (hpips : ∀ pip ∈ pips, p ≠ pip.pipPageIdx) (s : ShadowFile V) :
    SameAt s (pips.foldl op s) p := by
  induction pips generalizing s with
  | nil => exact .refl s p
  | cons pip _ ih =>
    rw [forall_mem_cons] at hpips
    exact (hop s pip hpips.1).trans (ih hpips.2 (op s pip))

theorem WF.foldl {op : ShadowFile V → PIPWrapper → ShadowFile V}
    (hop : ∀ s pip, s.WF → (op s pip).WF) (h : s.WF) (pips : List PIPWrapper) :
    (pips.foldl op s).WF := by
  induction pips generalizing s with
  | nil => exact h
  | cons pip _ ih => exact ih (hop s pip h)

end ShadowFile

namespace DiskArray

variable {V : Type} {info : PageStorageInfo} {s s' : DiskArray V} {saved current : List V}
  {n p : Nat} {pip : PIPWrapper}

open ShadowFile (SameAt)

/-! ## The PIPs -/

/-- The PIPs that the checkpoint changed are PIPs of its table. -/
theorem mem_pipPages_of_changed
    (hpip : pip ∈ s.pipUpdates.updatedLastPIP.toList ++ s.pipUpdates.newPIPs) :
    pip.pipPageIdx ∈ pipPages s.writeTable := by
  rw [pipPages, writeTable, map_map]
  refine mem_map.mpr ⟨pip, ?_, rfl⟩
  rcases mem_append.mp hpip with hlast | hnew
  · rw [Option.mem_toList] at hlast
    rw [writePIPs_of_some hlast]
    simp
  · exact mem_append_right _ hnew

/-- The pages of the existing PIPs are pages of the checkpoint's PIPs. -/
theorem mem_pipPages_of_mem_pips (h : s.PIPsWF) (hpip : pip ∈ s.pips) :
    pip.pipPageIdx ∈ pipPages s.writeTable := by
  rw [pipPages, writeTable, map_map]
  cases hu : s.pipUpdates.updatedLastPIP with
  | none =>
    rw [writePIPs_of_none hu]
    exact mem_map.mpr ⟨pip, mem_append_left _ hpip, rfl⟩
  | some u =>
    obtain ⟨l, hl, hpage⟩ := h.last u hu
    have hsplit : s.pips = s.pips.dropLast ++ [l] := (dropLast_append_getLast? l hl).symm
    rw [writePIPs_of_some hu]
    rw [hsplit, mem_append, mem_singleton] at hpip
    rcases hpip with hinit | rfl
    · exact mem_map.mpr ⟨pip, by simp [hinit], rfl⟩
    · exact mem_map.mpr ⟨u, by simp, hpage⟩

theorem mem_writeTable_of_mem_readTable (h : s.PIPsWF) (hp : p ∈ pipPages s.readTable) :
    p ∈ pipPages s.writeTable := by
  rw [pipPages, readTable, map_map, mem_map] at hp
  obtain ⟨_, hpip, rfl⟩ := hp
  exact mem_pipPages_of_mem_pips h hpip

/-- A checkpoint writes shadow pages of PIPs only. -/
theorem sameAt_checkpoint (hp : p ∉ pipPages s.writeTable) :
    SameAt s.shadowFile s.checkpoint.shadowFile p := by
  refine ShadowFile.sameAt_foldl _ (fun shadow pip hne => ?_) _ (fun pip hpip heq => ?_) _
  · exact ShadowFile.sameAt_updatePage shadow hne _ _
  · exact hp (heq ▸ mem_pipPages_of_changed hpip)

theorem checkpoint_shadow_wf (h : s.shadowFile.WF) : s.checkpoint.shadowFile.WF :=
  h.foldl (fun _ pip hwf => hwf.updatePage pip.pipPageIdx _ _) _

/-- A checkpoint of the array leaves the PIPs in memory alone. -/
theorem PIPsWF.checkpoint (h : s.PIPsWF) : s.checkpoint.PIPsWF := ⟨h.last, h.linked⟩

theorem pipsWF_of_noUpdates (h : s.pipUpdates = {}) : s.PIPsWF where
  last u hu := by
    rw [h] at hu
    cases hu
  linked _ hnew := by
    rw [h] at hnew
    exact absurd rfl hnew

/-- Without updates of PIPs, both accesses see the same array pages. -/
theorem writeTable_of_noUpdates (h : s.pipUpdates = {}) : s.writeTable = s.readTable := by
  rw [writeTable, writePIPs, h, basePIPs, append_nil, readTable]

/-- Nothing is pending if nothing was written. -/
def Quiet (s : DiskArray V) : Prop :=
  s.hasTransactionalUpdates = false → s.pipUpdates = {}

/-- `updateLastPageOnDisk` changes no other field. -/
theorem updateLastPageOnDisk_eq (info : PageStorageInfo) (s : DiskArray V) :
    ∃ last, s.updateLastPageOnDisk info = { s with lastPageOnDisk := last } := by
  unfold updateLastPageOnDisk
  dsimp only
  split
  · exact ⟨_, rfl⟩
  · exact ⟨_, rfl⟩

/-- The PIPs whose shadow pages are cleared. -/
def clearedPIPs (s : DiskArray V) (isCheckpoint : Bool) : List PIPWrapper :=
  (if s.pipUpdates.updatedLastPIP.isSome then
    (if isCheckpoint then basePIPs s.pips s.pipUpdates else s.pips).getLast?.toList else []) ++
  s.pipUpdates.newPIPs

/-- The shadow pages that are cleared are those of the PIPs of the array. -/
theorem mem_pipPages_of_cleared (h : s.PIPsWF) (isCheckpoint : Bool)
    (hpip : pip ∈ s.clearedPIPs isCheckpoint) : pip.pipPageIdx ∈ pipPages s.writeTable := by
  rcases mem_append.mp hpip with hlast | hnew
  · split at hlast
    · rw [Option.mem_toList] at hlast
      have hmem := mem_of_getLast? hlast
      split at hmem
      · rw [pipPages, writeTable, map_map]
        exact mem_map.mpr ⟨pip, mem_append_left _ hmem, rfl⟩
      · exact mem_pipPages_of_mem_pips h hmem
    · cases hlast
  · exact mem_pipPages_of_changed (mem_append_right _ hnew)

/-- The state in memory after a checkpoint or a rollback, except `lastPageOnDisk`. -/
def cleared (s : DiskArray V) (isCheckpoint : Bool) : DiskArray V := { s with
  pips := if isCheckpoint then s.writePIPs else s.pips
  pipUpdates := {}
  hasTransactionalUpdates := false
  shadowFile := (s.clearedPIPs isCheckpoint).foldl
    (fun shadow pip => shadow.clearShadowPage pip.pipPageIdx) s.shadowFile }

theorem inMemory_of_active (hactive : s.hasTransactionalUpdates = true) (isCheckpoint : Bool) :
    s.checkpointOrRollbackInMemory info isCheckpoint =
      if isCheckpoint ∧ s.lastPageOnDisk ≠ none then
        (s.cleared isCheckpoint).updateLastPageOnDisk info
      else s.cleared isCheckpoint := by
  unfold checkpointOrRollbackInMemory cleared clearedPIPs writePIPs basePIPs
  rw [if_neg (by simp [hactive])]
  cases s.pipUpdates.updatedLastPIP <;> cases isCheckpoint <;> rfl

/-- Without transactional updates there is nothing to clear. -/
theorem inMemory_of_quiet (hquiet : s.Quiet) (hactive : s.hasTransactionalUpdates = false)
    (isCheckpoint : Bool) :
    s.checkpointOrRollbackInMemory info isCheckpoint = s.cleared isCheckpoint := by
  have hcleared : s.clearedPIPs isCheckpoint = [] := by
    rw [clearedPIPs, hquiet hactive]
    rfl
  have hpips : s.writePIPs = s.pips := by
    rw [writePIPs, hquiet hactive]
    exact append_nil _
  rw [checkpointOrRollbackInMemory, if_pos hactive, cleared, hcleared, hpips, ite_self,
    ← hquiet hactive, ← hactive]
  rfl

theorem cleared_shadow_wf (h : s.shadowFile.WF) (isCheckpoint : Bool) :
    (s.cleared isCheckpoint).shadowFile.WF :=
  h.foldl (fun _ pip hwf => hwf.clearShadowPage pip.pipPageIdx) _

/-- What `checkpointOrRollbackInMemory` does. -/
theorem inMemory_spec (info : PageStorageInfo) (hquiet : s.Quiet) (isCheckpoint : Bool) :
    ∃ last, s.checkpointOrRollbackInMemory info isCheckpoint =
        { s.cleared isCheckpoint with lastPageOnDisk := last } ∧
      (isCheckpoint = false → last = s.lastPageOnDisk) := by
  cases hactive : s.hasTransactionalUpdates with
  | false => exact ⟨s.lastPageOnDisk, inMemory_of_quiet hquiet hactive _, fun _ => rfl⟩
  | true =>
    rw [inMemory_of_active hactive]
    split_ifs with hcheckpoint
    · obtain ⟨last, hlast⟩ := updateLastPageOnDisk_eq info (s.cleared isCheckpoint)
      exact ⟨last, hlast, fun hnot => by simp [hnot] at hcheckpoint⟩
    · exact ⟨s.lastPageOnDisk, rfl, fun _ => rfl⟩

/-- The shadow pages of array pages stay as they are. -/
theorem sameAt_cleared (h : s.PIPsWF) (hp : p ∉ pipPages s.writeTable) (isCheckpoint : Bool) :
    SameAt s.shadowFile (s.cleared isCheckpoint).shadowFile p := by
  refine ShadowFile.sameAt_foldl _ (fun shadow pip hne => ?_) _ (fun pip hpip heq => ?_) _
  · exact ShadowFile.sameAt_clearShadowPage shadow hne
  · exact hp (heq ▸ mem_pipPages_of_cleared h isCheckpoint hpip)

theorem Represents.isQuiet [Inhabited V] (h : Represents info s saved current) : s.Quiet := by
  intro hquiet
  obtain ⟨hlast, hnew, -⟩ := h.quiet hquiet
  cases hupdates : s.pipUpdates with
  | mk =>
    rw [hupdates] at hlast hnew
    subst hlast hnew
    rfl

variable [Inhabited V] {i : Nat}

/-! ## Checkpoint -/

/-- An array with nothing pending and no shadow pages is its checkpointed list. -/
theorem represents_of_saved {values : List V} (hupdates : s.pipUpdates = {})
    (hshadow : s.shadowFile = {}) (hread : s.header.numElements = values.length)
    (hwrite : s.headerForWriteTrx.numElements = values.length)
    (hcovers : Covers info.numPageIdxsPerPIP s.readTable (numAPs info values.length))
    (hpages : ∀ a < numAPs info values.length, ∃ p,
      info.apPage s.readTable a = some p ∧ p ∉ pipPages s.readTable)
    (hinj : ∀ a < numAPs info values.length, ∀ b < numAPs info values.length, ∀ p,
      info.apPage s.readTable a = some p →
      info.apPage s.readTable b = some p → a = b)
    (hvalue : ∀ i < values.length, ∀ p,
      info.apPage s.readTable (i / info.numElementsPerPage) = some p →
      values[i]? = some ((s.file p).elements (i % info.numElementsPerPage)))
    (hlast : ∀ q, s.lastAPPageIdx = some q → values.length % info.numElementsPerPage ≠ 0 →
      info.apPage s.readTable (values.length / info.numElementsPerPage) = some q) :
    Represents info s values values := by
  have htable : s.writeTable = s.readTable := writeTable_of_noUpdates hupdates
  have hcontent : s.content = s.file := by
    funext p
    rw [content, hshadow]
    rfl
  rw [← htable] at hcovers hpages hinj hlast
  exact {
    holds := {
      wf := pipsWF_of_noUpdates hupdates
      shadow := hshadow ▸ ShadowFile.wf_empty
      mapped := {
        covers := hcovers
        pages := hpages
        inj := hinj
        records := fun a ha p hp hmem => by
          rw [hshadow] at hmem
          cases hmem }
      le := Nat.le_refl _
      numAPs_le := Nat.le_refl _
      readSize := hread
      readCovers := htable ▸ hcovers
      agree := fun a _ => by rw [htable]
      current_eq := by
        rw [htable, hcontent]
        exact hvalue
      saved_eq := hvalue }
    writeSize := hwrite
    quiet := fun _ => by
      rw [hupdates]
      exact ⟨rfl, rfl, rfl⟩
    lastAP := hlast }

/-- The state after a checkpoint has the pages and the elements of the checkpoint. -/
theorem Represents.flush (h : Represents info s saved current)
    (hheader : s'.header = s.headerForWriteTrx)
    (hwrite : s'.headerForWriteTrx = s.headerForWriteTrx)
    (hpips : s'.pips = s.writePIPs) (hupdates : s'.pipUpdates = {}) (hshadow : s'.shadowFile = {})
    (hlast : s'.lastAPPageIdx = s.lastAPPageIdx)
    (hfile : ∀ p, p ∉ pipPages s.writeTable →
      (p ∈ s.shadowFile.shadowPageRecords.map Prod.fst → s.shadowFile.shadowPagesMap p ≠ none) →
        s'.file p = s.content p) :
    Represents info s' current current := by
  have hread : s'.readTable = s.writeTable := by rw [readTable, hpips, writeTable]
  refine represents_of_saved hupdates hshadow (by rw [hheader, h.writeSize])
    (by rw [hwrite, h.writeSize]) ?_ ?_ ?_ ?_ ?_
  · exact hread ▸ h.holds.mapped.covers
  · exact hread ▸ h.holds.mapped.pages
  · exact hread ▸ h.holds.mapped.inj
  · intro i hi p hp
    rw [hread] at hp
    have hap : i / info.numElementsPerPage < numAPs info current.length := div_lt_numAPs hi
    obtain ⟨_, hq, hnot⟩ := h.holds.mapped.pages _ hap
    rw [hp] at hq
    cases hq
    rw [hfile p hnot fun hmem => (h.holds.mapped.records _ hap p hp hmem).1]
    exact h.holds.current_eq i hi p hp
  · intro q hq
    rw [hlast] at hq
    rw [hread]
    exact h.lastAP q hq

/-- After a checkpoint, both accesses read what the checkpoint saw. -/
theorem Represents.completeCheckpoint (h : Represents info s saved current) :
    Represents info (s.completeCheckpoint info) current current := by
  obtain ⟨last, heq, -⟩ := inMemory_spec (s := s.checkpoint) info h.isQuiet true
  have hwf := h.holds.wf
  have hstate : s.completeCheckpoint info = { s.checkpoint.cleared true with
      lastPageOnDisk := last
      header := s.headerForWriteTrx
      file := (s.checkpoint.cleared true).shadowFile.applyShadowPages s.file
      shadowFile := {} } := by
    rw [DiskArray.completeCheckpoint, heq]
    rfl
  rw [hstate]
  refine h.flush rfl rfl rfl rfl rfl rfl fun p hp hrecord => ?_
  have hsame : SameAt s.shadowFile (s.checkpoint.cleared true).shadowFile p :=
    (sameAt_checkpoint hp).trans (sameAt_cleared hwf.checkpoint hp true)
  show (s.checkpoint.cleared true).shadowFile.applyShadowPages s.file p = s.content p
  rw [ShadowFile.applyShadowPages_eq (hsame.wf h.holds.shadow), hsame.page h.holds.shadow, content]
  rw [hsame.records h.holds.shadow, Ne, hsame.map]
  exact hrecord

/-! ## Rollback -/

/-- The elements of the checkpointed array are unchanged and the cached last page, if it
will be used, is the last page of the checkpointed array. -/
def Undoable (info : PageStorageInfo) (s : DiskArray V) : Prop :=
  (∀ i < s.header.numElements, s.get info i .checkpoint = s.get info i .read) ∧
    (s.header.numElements % info.numElementsPerPage = 0 ∨ s.lastAPPageIdx = none ∨ s.lastAPPageIdx =
        s.getAPPageIdx info (s.header.numElements / info.numElementsPerPage) .read)

instance [DecidableEq V] (s : DiskArray V) : Decidable (Undoable info s) :=
  inferInstanceAs (Decidable (_ ∧ _))

theorem get_of_page {access : ArrayAccess}
    (hp : s.getAPPageIdx info (i / info.numElementsPerPage) access = some p) :
    s.get info i access = some ((s.readPage access p).elements (i % info.numElementsPerPage)) := by
  rw [get, hp]
  rfl

variable (h : Represents info s saved current)

include h

/-- Each element that other transactions read has a page, the same for the
checkpoint. -/
theorem Represents.exists_page (hi : i < saved.length) :
    ∃ p, info.apPage s.readTable (i / info.numElementsPerPage) = some p ∧
      info.apPage s.writeTable (i / info.numElementsPerPage) = some p := by
  have hap : i / info.numElementsPerPage < numAPs info saved.length := div_lt_numAPs hi
  obtain ⟨p, hp, -⟩ := h.holds.mapped.pages _ (Nat.lt_of_lt_of_le hap (numAPs_mono h.holds.le))
  exact ⟨p, (h.holds.agree _ hap).trans hp, hp⟩

/-- The read access finds the elements of the last checkpoint. -/
theorem Represents.get_read (hi : i < saved.length) : s.get info i .read = saved[i]? := by
  obtain ⟨p, hread, -⟩ := h.exists_page hi
  rw [get_of_page ((getAPPageIdx_read s _).trans hread), h.holds.saved_eq i hi p hread]
  rfl

/-- The checkpoint access finds the elements as they are now. -/
theorem Represents.get_checkpoint (hi : i < current.length) :
    s.get info i .checkpoint = current[i]? := by
  have hap : i / info.numElementsPerPage < numAPs info current.length := div_lt_numAPs hi
  obtain ⟨p, hp, -⟩ := h.holds.mapped.pages _ hap
  rw [get_of_page ((getAPPageIdx_checkpoint h.holds.wf _).trans hp), readPage]
  split_ifs with hcase
  · rcases hcase with hnot | hquiet | hplace
    · exact absurd rfl hnot
    · -- nothing was written: the two lists and their pages are the same
      obtain ⟨-, -, rfl⟩ := h.quiet hquiet
      obtain ⟨_, hread, hwrite⟩ := h.exists_page hi
      rw [hp] at hwrite
      cases hwrite
      exact (h.holds.saved_eq i hi p hread).symm
    · have hnone := h.holds.mapped.map_eq_none h.holds.shadow hap hp hplace
      rw [h.holds.current_eq i hi p hp, content, ShadowFile.getShadowPage, hnone]
      rfl
  · exact (h.holds.current_eq i hi p hp).symm

theorem Represents.undo (hundo : Undoable info s) (hheader : s'.header = s.header)
    (hwrite : s'.headerForWriteTrx = s.header) (hpips : s'.pips = s.pips)
    (hupdates : s'.pipUpdates = {}) (hlast : s'.lastAPPageIdx = s.lastAPPageIdx)
    (hfile : s'.file = s.file) (hdisk : s'.lastPageOnDisk = s.lastPageOnDisk)
    (hsame : ∀ p, p ∉ pipPages s.writeTable → SameAt s.shadowFile s'.shadowFile p)
    (hwf : s'.shadowFile.WF) : Represents info s' saved saved := by
  have hread : s'.readTable = s.readTable := by rw [readTable, hpips, readTable]
  have htable : s'.writeTable = s.readTable := (writeTable_of_noUpdates hupdates).trans hread
  have hpage : ∀ a < numAPs info saved.length, ∀ p,
      info.apPage s.readTable a = some p →
      info.apPage s.writeTable a = some p ∧ p ∉ pipPages s.writeTable ∧
        a < numAPs info current.length := by
    intro a ha p hp
    have hlt := Nat.lt_of_lt_of_le ha (numAPs_mono h.holds.le)
    obtain ⟨_, hq, hnot⟩ := h.holds.mapped.pages a hlt
    have hwrite := (h.holds.agree a ha).symm.trans hp
    rw [hwrite] at hq
    cases hq
    exact ⟨hwrite, hnot, hlt⟩
  have hshadow := h.holds.shadow
  exact {
    holds := {
      wf := pipsWF_of_noUpdates hupdates
      shadow := hwf
      mapped := {
        covers := htable ▸ h.holds.readCovers
        pages := fun a ha => by
          obtain ⟨p, hp, hnot⟩ := h.holds.mapped.pages a
            (Nat.lt_of_lt_of_le ha (numAPs_mono h.holds.le))
          rw [htable, h.holds.agree a ha]
          exact ⟨p, hp, fun hmem => hnot (mem_writeTable_of_mem_readTable h.holds.wf hmem)⟩
        inj := fun a ha b hb p hpa hpb => by
          rw [htable] at hpa hpb
          obtain ⟨hpa', -, hlt⟩ := hpage a ha p hpa
          obtain ⟨hpb', -, hlt'⟩ := hpage b hb p hpb
          exact h.holds.mapped.inj a hlt b hlt' p hpa' hpb'
        records := fun a ha p hp hmem => by
          rw [htable] at hp
          obtain ⟨hp', hnot, hlt⟩ := hpage a ha p hp
          rw [(hsame p hnot).records hshadow] at hmem
          rw [Ne, (hsame p hnot).map, shadows, hdisk]
          exact h.holds.mapped.records a hlt p hp' hmem }
      le := Nat.le_refl _
      numAPs_le := Nat.le_refl _
      readSize := by rw [hheader, h.holds.readSize]
      readCovers := hread ▸ h.holds.readCovers
      agree := fun a _ => by rw [hread, htable]
      current_eq := fun i hi p hp => by
        rw [htable] at hp
        obtain ⟨hp', hnot, -⟩ := hpage _ (div_lt_numAPs hi) p hp
        have hi' := Nat.lt_of_lt_of_le hi h.holds.le
        have hold := hundo.1 i (by rw [h.holds.readSize]; exact hi)
        rw [h.get_checkpoint hi', h.get_read hi] at hold
        rw [← hold, h.holds.current_eq i hi' p hp', content, content, (hsame p hnot).page hshadow,
          hfile]
      saved_eq := by
        rw [hread, hfile]
        exact h.holds.saved_eq }
    writeSize := by rw [hwrite, h.holds.readSize]
    quiet := fun _ => by
      rw [hupdates]
      exact ⟨rfl, rfl, rfl⟩
    lastAP := fun q hq hmod => by
      rw [hlast] at hq
      rw [← h.holds.readSize] at hmod
      have hcached := (hundo.2.resolve_left hmod).resolve_left (by simp [hq])
      rw [getAPPageIdx_read, h.holds.readSize, ← htable, hq] at hcached
      exact hcached.symm }

/-- After a rollback both accesses read what the last checkpoint saved. -/
theorem Represents.rollbackCheckpoint (hundo : Undoable info s) (wrotePIPs : Bool) :
    Represents info (s.rollbackCheckpoint info wrotePIPs) saved saved := by
  -- the shadow file is the only difference that the PIPs make
  obtain ⟨s₁, hs₁, shadowFile, hstate, hwf, hsame⟩ : ∃ s₁,
      s₁ = (if wrotePIPs then s.checkpoint else s) ∧ ∃ shadowFile,
      s₁ = { s with shadowFile := shadowFile } ∧ shadowFile.WF ∧
      ∀ p, p ∉ pipPages s.writeTable → SameAt s.shadowFile shadowFile p := by
    refine ⟨_, rfl, ?_⟩
    cases wrotePIPs with
    | false => exact ⟨s.shadowFile, rfl, h.holds.shadow, fun p _ => .refl _ p⟩
    | true => exact ⟨s.checkpoint.shadowFile, rfl, checkpoint_shadow_wf h.holds.shadow,
        fun p hp => sameAt_checkpoint hp⟩
  have hquiet : s₁.Quiet := by
    rw [hstate]
    exact h.isQuiet
  have hpipsWF : s₁.PIPsWF := by
    rw [hstate]
    exact ⟨h.holds.wf.last, h.holds.wf.linked⟩
  obtain ⟨_, heq, hlast⟩ := inMemory_spec info hquiet false
  have hdisk := hlast rfl
  rw [DiskArray.rollbackCheckpoint, ← hs₁, heq]
  subst hstate
  refine h.undo hundo rfl rfl rfl rfl rfl rfl hdisk (fun p hp => ?_) ?_
  · exact (hsame p hp).trans (sameAt_cleared hpipsWF hp false)
  · exact cleared_shadow_wf hwf false

end DiskArray

end Lbug.Storage
