/-
  Storage/DiskArrayHistory.lean --- histories of a disk array.

  A history serves the calls of the writers of a disk array and keeps, next to it, the
  list that the calls describe: its checkpointed and its current version, and the number of
  elements before the last checkpoint.

  A checkpoint is one call: what other calls would find between the switch of the state in
  memory and the application of the shadow pages is not modelled.

  The array is not that list in all histories: pages of the checkpointed array can be
  written in place, and a rollback leaves shadow pages and the cached last page behind.
  It is in every history whose calls meet `Sound`.
-/
import Lbug.Storage.DiskArrayCalls

namespace Lbug.Storage

open Foundation List

/-- A growable list with its last checkpoint. -/
structure SavedList (V : Type) where
  saved : List V
  current : List V
  deriving DecidableEq, Repr

def SavedList.step {V : Type} [Inhabited V] (l : SavedList V) : ArrayCall V → SavedList V
  | .pushBack values _ => { l with current := l.current ++ values }
  | .update idx value => { l with current := l.current.set idx value }
  | .resize n _ => { l with current := l.current ++ List.replicate (n - l.current.length) default }
  | .checkpoint => { l with saved := l.current }
  | .rollback _ => { l with current := l.saved }

namespace DiskArray

variable {V : Type} (info : PageStorageInfo) (s : DiskArray V)

variable [Inhabited V]

/-- The condition under which the array serves a call as a list does. -/
def Sound (previousSize : Nat) (call : ArrayCall V) : Prop :=
  s.WritesOldPages info previousSize call ∧ match call with
    | .pushBack _ pages => ∀ p ∈ pages, p ∉ s.shadowFile.shadowPageRecords.map Prod.fst
    | .resize _ pages => ∀ p ∈ pages, p ∉ s.shadowFile.shadowPageRecords.map Prod.fst
    | .rollback _ => Undoable info s
    | .update _ _ => True
    | .checkpoint => True

instance [DecidableEq V] (previousSize : Nat) : ∀ call, Decidable (s.Sound info previousSize call)
  | .pushBack .. | .resize .. => inferInstanceAs (Decidable (_ ∧ _))
  | .update .. | .checkpoint => inferInstanceAs (Decidable (_ ∧ True))
  | .rollback _ => inferInstanceAs (Decidable (_ ∧ Undoable _ _))

/-! ## Calls on the array and on the list -/

variable {info s} {s' : DiskArray V} {saved current : List V} {p : Nat}

omit [Inhabited V] in
theorem mem_arrayPages_checkpoint (h : s.PIPsWF) :
    p ∈ s.arrayPages info .checkpoint ↔ p ∈ pipPages s.writeTable ∨
      ∃ a < numAPs info s.headerForWriteTrx.numElements,
        info.apPage s.writeTable a = some p := by
  rw [arrayPages, mem_append, pipPages, writeTable, map_map, mem_filterMap]
  simp only [mem_range, getAPPageIdx_checkpoint h]
  rfl

omit [Inhabited V] in
theorem mem_arrayPages_read : p ∈ s.arrayPages info .read ↔ p ∈ pipPages s.readTable ∨
      ∃ a < numAPs info s.header.numElements,
        info.apPage s.readTable a = some p := by
  rw [arrayPages, mem_append, pipPages, readTable, map_map, mem_filterMap]
  simp only [mem_range, getAPPageIdx_read]
  rfl

omit [Inhabited V] in
theorem safe_of_arrayPages (h : p ∈ s.arrayPages info .read → s.shadows p = true) : Safe info s p :=
  fun a ha hp => h (mem_arrayPages_read.mpr (.inr ⟨a, ha, hp⟩))

theorem Represents.allocates (h : Represents info s saved current) {pages : List Nat} {k : Nat}
    (hpages : s.CanAllocate info pages k)
    (hrecords : ∀ p ∈ pages, p ∉ s.shadowFile.shadowPageRecords.map Prod.fst) :
    Allocates info s current.length pages k where
  fresh p hp := by
    have hnot := (hpages.2.2 p hp).2
    rw [mem_arrayPages_checkpoint h.holds.wf, h.writeSize, not_or] at hnot
    exact ⟨fun a ha heq => hnot.2 ⟨a, ha, heq⟩, hnot.1, hrecords p hp⟩
  nodup := hpages.1
  room := hpages.2.1

theorem Represents.tailSafe (h : Represents info s saved current)
    (hsafe : ∀ p ∈ (s.tailPage info).toList, p ∈ s.arrayPages info .read → s.shadows p = true) :
    TailSafe info s current.length := by
  intro hmod p hp
  refine safe_of_arrayPages (hsafe p ?_)
  rw [Option.mem_toList, tailPage,
    show s.getNumElements .checkpoint = current.length from h.writeSize,
    if_neg hmod, getAPPageIdx_checkpoint h.holds.wf, hp]
  cases hlast : s.lastAPPageIdx with
  | none => rfl
  | some q =>
    have hq := h.lastAP q hlast hmod
    rw [hp] at hq
    exact hq.symm

theorem Represents.step {l : SavedList V} (h : Represents info s l.saved l.current) {n : Nat}
    (hlast : s.LastPage info n) {call : ArrayCall V} (hvalid : s.Valid info call)
    (hsound : s.Sound info n call) :
    ∃ s', s.step info call = some s' ∧
      Represents info s' (l.step call).saved (l.step call).current := by
  have hsafe := hlast.writesSafely hsound.1
  have hsize : s.getNumElements .checkpoint = l.current.length := h.writeSize
  cases call with
  | pushBack values =>
    exact h.pushBackAll values (h.allocates hvalid hsound.2) (h.tailSafe hsafe)
  | update _ value =>
    simp only [Valid, hsize] at hvalid
    refine h.update hvalid value fun p hp => safe_of_arrayPages (hsafe p ?_)
    rw [Option.mem_toList, writtenPage, getAPPageIdx_checkpoint h.holds.wf, hp]
  | resize n =>
    simp only [Valid, hsize] at hvalid
    obtain ⟨s', heq, hrep⟩ := h.resize n (h.allocates hvalid hsound.2) (h.tailSafe hsafe)
    exact ⟨s', by rw [DiskArray.step, heq, Option.map_some], hrep⟩
  | checkpoint => exact ⟨_, rfl, h.completeCheckpoint⟩
  | rollback wrotePIPs => exact ⟨_, rfl, h.rollbackCheckpoint hsound.2 wrotePIPs⟩

/-! ## Loading -/

/-- The elements that an access reads. -/
def elements (info : PageStorageInfo) (s : DiskArray V) (access : ArrayAccess) : List V :=
  (List.range (s.getNumElements access)).map fun i => (s.get info i access).getD default

/-- An array that was loaded from a file in which all its pages are different pages. -/
structure Loaded (info : PageStorageInfo) (s : DiskArray V) : Prop where
  load_eq : ∃ file header bypassShadowing numPIPs,
    load info file header bypassShadowing numPIPs = some s
  covers : Covers info.numPageIdxsPerPIP s.readTable (numAPs info s.header.numElements)
  pages : ∀ a < numAPs info s.header.numElements, ∃ p,
    info.apPage s.readTable a = some p ∧ p ∉ pipPages s.readTable
  inj : ∀ a < numAPs info s.header.numElements, ∀ b < numAPs info s.header.numElements, ∀ p,
    info.apPage s.readTable a = some p →
    info.apPage s.readTable b = some p → a = b

omit [Inhabited V] in
theorem load_fields {file : Nat → DiskPage V} {header : DiskArrayHeader} {bypassShadowing : Bool}
    {numPIPs : Nat} (h : load info file header bypassShadowing numPIPs = some s) :
    s.headerForWriteTrx = s.header ∧ s.pipUpdates = {} ∧ s.lastAPPageIdx = none ∧
      s.shadowFile = {} := by
  obtain ⟨pips, -, rfl⟩ := Option.map_eq_some_iff.mp h
  split
  · obtain ⟨_, heq⟩ := updateLastPageOnDisk_eq info
      { header := header, headerForWriteTrx := header, pips := pips, file := file }
    rw [heq]
    exact ⟨rfl, rfl, rfl, rfl⟩
  · exact ⟨rfl, rfl, rfl, rfl⟩

theorem Loaded.represents (h : Loaded info s) :
    Represents info s (s.elements info .read) (s.elements info .read) := by
  obtain ⟨file, header, _, _, hload⟩ := h.load_eq
  obtain ⟨hheader, hupdates, hlast, hshadow⟩ := load_fields hload
  have hlength : s.header.numElements = (s.elements info .read).length := by
    rw [elements, length_map, length_range]
    rfl
  refine represents_of_saved hupdates hshadow hlength (by rw [hheader, hlength])
    (hlength ▸ h.covers) (hlength ▸ h.pages) (hlength ▸ h.inj) (fun i hi p hp => ?_)
    (fun q hq => by rw [hlast] at hq; cases hq)
  have hget : s.get info i .read = some ((s.file p).elements (i % info.numElementsPerPage)) :=
    get_of_page ((getAPPageIdx_read s _).trans hp)
  rw [← hlength] at hi
  have hi' : i < s.getNumElements .read := hi
  simp [elements, hget, hi']

end DiskArray

/-! ## Histories -/

/-- A disk array and the list of the calls so far. -/
structure ArrayHistory (V : Type) where
  array : DiskArray V
  list : SavedList V
  /-- the number of elements before the last checkpoint, all of a loaded array -/
  previousSize : Nat

namespace ArrayHistory

variable {V : Type} [Inhabited V] {info : PageStorageInfo}

def step (info : PageStorageInfo) (h : ArrayHistory V) (call : ArrayCall V) :
    Option (ArrayHistory V) :=
  (h.array.step info call).map fun array =>
    ⟨array, h.list.step call, h.array.sizeBefore h.previousSize call⟩

/-- A history starts with an array that was loaded. -/
def start (info : PageStorageInfo) (s : DiskArray V) : ArrayHistory V :=
  ⟨s, ⟨s.elements info .read, s.elements info .read⟩, s.getNumElements .read⟩

/-- The calls of a history that are valid and sound. -/
def Permitted (info : PageStorageInfo) (h : ArrayHistory V) (call : ArrayCall V) : Prop :=
  h.array.Valid info call ∧ h.array.Sound info h.previousSize call

instance [DecidableEq V] (h : ArrayHistory V) (call : ArrayCall V) :
    Decidable (h.Permitted info call) :=
  inferInstanceAs (Decidable (_ ∧ _))

/-- The two accesses see the two versions of the list. -/
structure ListSeen (info : PageStorageInfo) (h : ArrayHistory V) : Prop where
  current_length : h.array.getNumElements .checkpoint = h.list.current.length
  saved_length : h.array.getNumElements .read = h.list.saved.length
  current : ∀ i < h.list.current.length, h.array.get info i .checkpoint = h.list.current[i]?
  saved : ∀ i < h.list.saved.length, h.array.get info i .read = h.list.saved[i]?

/-- The invariant of a history. -/
structure Inv (info : PageStorageInfo) (h : ArrayHistory V) : Prop where
  represents : DiskArray.Represents info h.array h.list.saved h.list.current
  lastPage : h.array.LastPage info h.previousSize

theorem Inv.step {h h' : ArrayHistory V} (hinv : h.Inv info) {call : ArrayCall V}
    (hok : h.Permitted info call) (hstep : h.step info call = some h') : h'.Inv info := by
  obtain ⟨_, heq, hrep⟩ := hinv.represents.step hinv.lastPage hok.1 hok.2
  rw [ArrayHistory.step, heq] at hstep
  cases hstep
  exact ⟨hrep, hinv.lastPage.step heq⟩

theorem listSeen_of_represents {h : ArrayHistory V}
    (hrep : DiskArray.Represents info h.array h.list.saved h.list.current) : h.ListSeen info where
  current_length := hrep.writeSize
  saved_length := hrep.holds.readSize
  current _ hi := hrep.get_checkpoint hi
  saved _ hi := hrep.get_read hi

/-- Two elements a page and three page indices a PIP. -/
def smallPages : PageStorageInfo := ⟨2, 3, by decide, by decide⟩

/-- A new array of numbers, with `bypassShadowing` set. -/
def newArray : DiskArray Nat where
  header := {}
  headerForWriteTrx := {}
  pips := []
  lastPageOnDisk := some 0
  file := fun _ => .array fun _ => 0

theorem loaded_newArray : DiskArray.Loaded smallPages newArray where
  load_eq := ⟨newArray.file, {}, true, 0, rfl⟩
  covers := ⟨Nat.zero_le _, .inl rfl⟩
  pages a ha := absurd ha (Nat.not_lt_zero a)
  inj a ha := absurd ha (Nat.not_lt_zero a)

/-- A history with new pages, a rollback and a shadowed page. -/
def sampleCalls : List (ArrayCall Nat) :=
  [.pushBack [1, 2] [5, 6, 7, 8], .checkpoint, .pushBack [3, 4] [9, 10, 11, 12], .checkpoint,
    .resize 5 [13, 14], .rollback true, .update 0 7, .pushBack [5] [15, 16], .checkpoint]

/-- The end of a history of valid calls. -/
def ValidHistory (h : ArrayHistory Nat) : Prop :=
  Reachable (step smallPages) (start smallPages newArray)
    (fun h call => h.array.Valid smallPages call) h

/-- One element, checkpointed twice: its page is shadowed from then on. -/
def prepare : List (ArrayCall Nat) :=
  [.pushBack [1] [5, 6], .checkpoint, .update 0 1, .checkpoint]

end ArrayHistory

end Lbug.Storage
