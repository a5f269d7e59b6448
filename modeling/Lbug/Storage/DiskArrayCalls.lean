/-
  Storage/DiskArrayCalls.lean --- the calls to a disk array and the pages they write.

  `Valid` says what the callers guarantee: indices are in range, and the page allocator
  returns pages that the array does not use.  A call writes to the pages that it allocates
  and to at most one page more; above `lastPageOnDisk` it writes in place.

  `lastPageOnDisk` does not tell the pages of the last checkpoint: it is the page of the
  last element of the checkpoint before (`LastPage`), and the page indices of an array need
  not grow.  `WritesOldPages` is a condition on the history under which it does.
-/
import Lbug.Foundation.Transition
import Lbug.Storage.DiskArrayCheckpoint

namespace Lbug.Storage

open Foundation List Option

/-! ## Calls -/

inductive ArrayCall (V : Type) where
  | pushBack (values : List V) (pages : List Nat)
  | update (idx : Nat) (value : V)
  | resize (newNumElements : Nat) (pages : List Nat)
  | checkpoint
  | rollback (wrotePIPs : Bool)

namespace DiskArray

section

variable {V : Type} (info : PageStorageInfo) (s : DiskArray V)

def step [Inhabited V] : ArrayCall V → Option (DiskArray V)
  | .pushBack values pages => s.pushBackAll info pages values
  | .update idx value => s.update info idx value
  | .resize n pages => (s.resize info pages n).map Prod.fst
  | .checkpoint => some (s.completeCheckpoint info)
  | .rollback wrotePIPs => some (s.rollbackCheckpoint info wrotePIPs)

/-- The pages of the array: its PIPs and its array pages. -/
def arrayPages (access : ArrayAccess) : List Nat :=
  let pips := match access with
    | .read => s.pips
    | .checkpoint => s.writePIPs
  pips.map PIPWrapper.pipPageIdx ++
    (List.range (getNumAPs info (s.getDiskArrayHeader access))).filterMap
      (s.getAPPageIdx info · access)

/-- `pages` are enough for `k` elements and the array uses none of them. -/
def CanAllocate (pages : List Nat) (k : Nat) : Prop :=
  pages.Nodup ∧ 2 * k ≤ pages.length ∧
    ∀ p ∈ pages, p ∉ s.arrayPages info .read ∧ p ∉ s.arrayPages info .checkpoint
  deriving Decidable

/-- What the callers of the array guarantee. -/
def Valid : ArrayCall V → Prop
  | .pushBack values pages => s.CanAllocate info pages values.length
  | .update idx _ => idx < s.getNumElements .checkpoint
  | .resize n pages => s.CanAllocate info pages (n - s.getNumElements .checkpoint)
  | .checkpoint => True
  | .rollback _ => True

instance : ∀ call, Decidable (s.Valid info call)
  | .pushBack .. | .resize .. => inferInstanceAs (Decidable (CanAllocate _ _ _ _))
  | .update .. => inferInstanceAs (Decidable (_ < _))
  | .checkpoint | .rollback _ => inferInstanceAs (Decidable True)

/-- The page that the next element goes to, unless a new one is allocated. -/
def tailPage : Option Nat :=
  let numElements := s.getNumElements .checkpoint
  if numElements % info.numElementsPerPage = 0 then none
  else s.lastAPPageIdx.or (s.getAPPageIdx info (numElements / info.numElementsPerPage) .checkpoint)

/-- The existing page that a call writes to first. -/
def writtenPage : ArrayCall V → Option Nat
  | .pushBack _ _ => s.tailPage info
  | .update idx _ => s.getAPPageIdx info (idx / info.numElementsPerPage) .checkpoint
  | .resize _ _ => s.tailPage info
  | .checkpoint => none
  | .rollback _ => none

/-- The array pages of the first `numElements` elements that other transactions read. -/
def firstPages (numElements : Nat) : List Nat :=
  (List.range (numAPs info numElements)).filterMap (s.getAPPageIdx info · .read)

/-- With `bypassShadowing`, a call that writes to a page of the checkpointed array writes to
one that was checkpointed before the last checkpoint, when there were `previousSize`
elements, and the indices of these pages grow. -/
def WritesOldPages (previousSize : Nat) (call : ArrayCall V) : Prop :=
  s.lastPageOnDisk = none ∨
    ∀ p ∈ (s.writtenPage info call).toList, p ∈ s.arrayPages info .read →
      p ∈ s.firstPages info previousSize ∧ (s.firstPages info previousSize).Pairwise (· < ·)
  deriving Decidable

/-- The number of elements before the last checkpoint, after a call. -/
def sizeBefore (previousSize : Nat) : ArrayCall V → Nat
  | .checkpoint =>
    if s.hasTransactionalUpdates then s.getNumElements .read else previousSize
  | .pushBack .. | .update .. | .resize .. | .rollback _ => previousSize

/-- `lastPageOnDisk` is one checkpoint behind. -/
def LastPage (previousSize : Nat) : Prop :=
  s.lastPageOnDisk = none ∨ s.lastPageOnDisk =
    if 0 < previousSize then
      s.getAPPageIdx info ((previousSize - 1) / info.numElementsPerPage) .read
    else some 0

end

/-! ## The pages that a call writes -/

variable {V : Type} {info : PageStorageInfo} {s s' : DiskArray V} {p page : Nat}
  {written : Nat → Prop}
  {pages pages' : List Nat} {written' : Nat → Prop} {isNew : Bool} {v : V}

/-- What a call keeps of the checkpointed array: its header, its PIPs and the bound for
writes in place.  The file may differ at the pages of `written` that are not shadowed. -/
structure Keeps (s s' : DiskArray V) (written : Nat → Prop) : Prop where
  header : s'.header = s.header
  pips : s'.pips = s.pips
  lastPageOnDisk : s'.lastPageOnDisk = s.lastPageOnDisk
  file : ∀ p, (written p → s.shadows p = true) → s'.file p = s.file p

theorem Keeps.shadows (h : Keeps s s' written) (p : Nat) : s'.shadows p = s.shadows p := by
  rw [DiskArray.shadows, h.lastPageOnDisk, DiskArray.shadows]

theorem Keeps.mono (h : Keeps s s' written) (himp : ∀ p, written p → written' p) :
    Keeps s s' written' :=
  ⟨h.header, h.pips, h.lastPageOnDisk, fun p hp => h.file p fun hw => hp (himp p hw)⟩

theorem Keeps.trans {s'' : DiskArray V} (h : Keeps s s' written) (h' : Keeps s' s'' written')
    (himp : ∀ p, written' p → written p) : Keeps s s'' written where
  header := h'.header.trans h.header
  pips := h'.pips.trans h.pips
  lastPageOnDisk := h'.lastPageOnDisk.trans h.lastPageOnDisk
  file p hp := (h'.file p fun hw => (h.shadows p).trans (hp (himp p hw))).trans (h.file p hp)

section Write

variable [Inhabited V]

theorem keeps_updatePage (s : DiskArray V) (page : Nat) (isNew : Bool)
    (f : DiskPage V → DiskPage V) : Keeps s (s.updatePage page isNew f) (· = page) where
  header := header_updatePage s page isNew f
  pips := by
    unfold updatePage
    split <;> rfl
  lastPageOnDisk := by
    unfold updatePage
    split <;> rfl
  file p hp := file_updatePage s page f isNew fun heq => heq ▸ hp heq

theorem keeps_pushAt (info : PageStorageInfo) (s : DiskArray V) (page : Nat) (isNew : Bool)
    (idx : Nat) (v : V) : Keeps s (s.pushAt info page isNew idx v) (· = page) := by
  have hkeeps := keeps_updatePage { s with
    lastAPPageIdx := some page
    headerForWriteTrx := { s.headerForWriteTrx with
      numElements := s.headerForWriteTrx.numElements + 1 } } page isNew
    (·.set (idx % info.numElementsPerPage) v)
  exact { hkeeps with }

theorem keeps_update {idx : Nat} (h : s.update info idx v = some s') :
    Keeps s s' (s.getAPPageIdx info (idx / info.numElementsPerPage) .checkpoint = some ·) := by
  obtain ⟨page, hpage, rfl⟩ := map_eq_some_iff.mp h
  have hkeeps := keeps_updatePage { s with hasTransactionalUpdates := true } page false
    (·.set (idx % info.numElementsPerPage) v)
  refine ⟨hkeeps.header, hkeeps.pips, hkeeps.lastPageOnDisk, fun p hp => hkeeps.file p ?_⟩
  rintro rfl
  exact hp hpage

end Write

/-! ## Adding elements -/

/-- Only the pending PIPs and the first PIP of the written header differ. -/
def SamePages (s s' : DiskArray V) : Prop :=
  ∃ updates first, s' = { s with
    pipUpdates := updates
    headerForWriteTrx := { s.headerForWriteTrx with firstPIPPageIdx := first } }

theorem samePages_setNext {previous : Option Nat}
    (h : s.setNextPIPPageIdxOfPIP previous page = some s') : SamePages s s' := by
  unfold setNextPIPPageIdxOfPIP at h
  cases previous with
  | none =>
    cases h
    exact ⟨_, _, rfl⟩
  | some =>
    dsimp only at h
    split at h
    · cases h
      exact ⟨_, _, rfl⟩
    · obtain ⟨_, -, rfl⟩ := map_eq_some_iff.mp h
      split
      · exact ⟨_, _, rfl⟩
      · exact ⟨_, _, rfl⟩

/-- A page that is added is the next page of the allocator. -/
theorem existingOrNew_cases {apIdx numAPs : Nat}
    (h : getAPPageIdxAndAddAPToPIPIfNecessary.existingOrNew info s pages apIdx numAPs =
      some (s', page, isNew, pages')) :
    SamePages s s' ∧ (∀ p ∈ pages', p ∈ pages) ∧
    ((isNew = true ∧ page ∈ pages) ∨
      (isNew = false ∧ apIdx < numAPs ∧ s.getAPPageIdx info apIdx .checkpoint = some page)) := by
  unfold getAPPageIdxAndAddAPToPIPIfNecessary.existingOrNew at h
  split at h
  · obtain ⟨_, hq, heq⟩ := map_eq_some_iff.mp h
    cases heq
    exact ⟨⟨_, _, rfl⟩, fun p hp => hp, .inr ⟨rfl, by assumption, hq⟩⟩
  cases pages with
  | nil => cases h
  | cons _ rest =>
    dsimp only at h
    split at h
    · obtain ⟨_, -, heq⟩ := map_eq_some_iff.mp h
      cases heq
      exact ⟨⟨_, _, rfl⟩, fun p hp => mem_cons_of_mem _ hp, .inl ⟨rfl, mem_cons_self⟩⟩
    split at h
    · cases h
      exact ⟨⟨_, _, rfl⟩, fun p hp => mem_cons_of_mem _ hp, .inl ⟨rfl, mem_cons_self⟩⟩
    cases rest with
    | nil => cases h
    | cons =>
      obtain ⟨_, hnext, heq⟩ := map_eq_some_iff.mp h
      cases heq
      obtain ⟨_, _, rfl⟩ := samePages_setNext hnext
      exact ⟨⟨_, _, rfl⟩, fun p hp => mem_cons_of_mem _ (mem_cons_of_mem _ hp),
        .inl ⟨rfl, mem_cons_self⟩⟩

/-- There is a page for the next element if the last one is not full. -/
theorem mod_ne_zero_of_lt_getNumAPs {header : DiskArrayHeader}
    (h : header.numElements / info.numElementsPerPage < getNumAPs info header) :
    header.numElements % info.numElementsPerPage ≠ 0 := by
  intro hfull
  rw [show getNumAPs info header = numAPs info header.numElements from rfl,
    numAPs_of_full hfull] at h
  exact Nat.lt_irrefl _ h

/-- The next element goes to the page of the last element or to the next page of the
allocator. -/
theorem getAPPageIdxAndAdd_cases (h : s.getAPPageIdxAndAddAPToPIPIfNecessary info pages
      (s.headerForWriteTrx.numElements / info.numElementsPerPage) =
        some (s', page, isNew, pages')) :
    SamePages s s' ∧ (∀ p ∈ pages', p ∈ pages) ∧
    ((isNew = true ∧ page ∈ pages) ∨ (isNew = false ∧ s.tailPage info = some page)) := by
  have htail : ∀ q, s.headerForWriteTrx.numElements / info.numElementsPerPage <
      getNumAPs info s.headerForWriteTrx →
      s.lastAPPageIdx.or (s.getAPPageIdx info
        (s.headerForWriteTrx.numElements / info.numElementsPerPage) .checkpoint) = some q →
      s.tailPage info = some q := by
    intro q hlt hq
    exact (if_neg (mod_ne_zero_of_lt_getNumAPs hlt)).trans hq
  unfold getAPPageIdxAndAddAPToPIPIfNecessary at h
  cases hlast : s.lastAPPageIdx with
  | none =>
    rw [hlast] at h htail
    obtain ⟨hsame, hpages, hcase⟩ := existingOrNew_cases h
    exact ⟨hsame, hpages, hcase.imp_right fun ⟨hold, hlt, hq⟩ => ⟨hold, htail page hlt hq⟩⟩
  | some =>
    rw [hlast] at h htail
    dsimp only at h
    split_ifs at h with heq
    · cases h
      exact ⟨⟨_, _, rfl⟩, fun p hp => hp, .inr ⟨rfl, htail _ (by omega) rfl⟩⟩
    · obtain ⟨hsame, hpages, hcase⟩ := existingOrNew_cases h
      refine ⟨hsame, hpages, hcase.imp_right fun ⟨_, hlt, _⟩ => absurd ?_ heq⟩
      exact (numAPs_of_not_dvd (mod_ne_zero_of_lt_getNumAPs hlt)).symm

variable [Inhabited V] {call : ArrayCall V}

/-- A push writes to one page, which the array and the iterator remember. -/
theorem keeps_pushBack {it it' : WriteIterator}
    (hit : ∀ p, it.originalPage = some p → s.lastAPPageIdx = some p)
    (h : s.pushBack info it pages v = some (s', it', pages')) :
    ∃ page, Keeps s s' (· = page) ∧ (page ∈ pages ∨ s.tailPage info = some page) ∧
      s'.lastAPPageIdx = some page ∧ it'.originalPage = some page ∧ ∀ p ∈ pages', p ∈ pages := by
  obtain ⟨⟨_, page, isNew, _⟩, hap, -⟩ := map_eq_some_iff.mp h
  obtain ⟨⟨updates, first, rfl⟩, hpages, hcase⟩ := getAPPageIdxAndAdd_cases hap
  -- the pinned page is the page of the last element
  have hpinned : ∀ q, it.originalPage = some q → isNew = false →
      s.headerForWriteTrx.numElements / info.numElementsPerPage = it.apIdx → q = page := by
    intro q hq hold _
    obtain ⟨-, htail⟩ := hcase.resolve_left fun hnew => by simp [hold] at hnew
    rw [tailPage, hit q hq] at htail
    split at htail
    · cases htail
    · exact some.inj htail
  rw [pushBack_of_page rfl hap hpinned] at h
  cases h
  have hkeeps := keeps_pushAt info { s with
    pipUpdates := updates
    headerForWriteTrx := { s.headerForWriteTrx with firstPIPPageIdx := first } } page isNew
    s.headerForWriteTrx.numElements v
  exact ⟨page, { hkeeps with },
    hcase.imp And.right And.right, (pushAt_fields info _ page isNew _ v).2.1, rfl, hpages⟩

theorem keeps_pushAll {it : WriteIterator} (values : List V)
    (hit : ∀ p, it.originalPage = some p → s.lastAPPageIdx = some p)
    (h : pushAll info s it pages values = some s') :
    Keeps s s' fun p => p ∈ pages ∨ s.tailPage info = some p := by
  induction values generalizing s it pages with
  | nil =>
    cases h
    exact ⟨rfl, rfl, rfl, fun _ _ => rfl⟩
  | cons _ _ ih =>
    simp only [pushAll] at h
    split at h
    · cases h
    rename_i s₁ _ _ hpush
    obtain ⟨page, hkeeps, hpage, hlast, hpinned, hpages⟩ := keeps_pushBack hit hpush
    have hrest := ih (fun p hp => by rw [hlast, ← hpinned, hp]) h
    have htail : ∀ p, s₁.tailPage info = some p → p = page := by
      intro p hp
      rw [tailPage, hlast] at hp
      split at hp
      · cases hp
      · exact (some.inj hp).symm
    refine (hkeeps.mono ?_).trans hrest ?_
    · rintro p rfl
      exact hpage
    · rintro p (hp | hp)
      · exact .inl (hpages p hp)
      · rw [htail p hp]
        exact hpage

theorem keeps_pushBackAll {values : List V} (h : s.pushBackAll info pages values = some s') :
    Keeps s s' fun p => p ∈ pages ∨ s.tailPage info = some p := by
  have hkeeps := keeps_pushAll values (fun p hp => by cases hp) h
  exact { hkeeps with }

omit [Inhabited V] in
theorem keeps_inMemory_rollback (info : PageStorageInfo) (s : DiskArray V) :
    Keeps s (s.checkpointOrRollbackInMemory info false) fun _ => False := by
  cases hactive : s.hasTransactionalUpdates with
  | false =>
    rw [checkpointOrRollbackInMemory, if_pos hactive]
    exact ⟨rfl, rfl, rfl, fun _ _ => rfl⟩
  | true =>
    rw [inMemory_of_active hactive]
    exact ⟨rfl, rfl, rfl, fun _ _ => rfl⟩

omit [Inhabited V] in
/-- A rollback writes to no page. -/
theorem keeps_rollbackCheckpoint (s : DiskArray V) (wrotePIPs : Bool) :
    Keeps s (s.rollbackCheckpoint info wrotePIPs) fun _ => False := by
  cases wrotePIPs with
  | false =>
    have hkeeps := keeps_inMemory_rollback info s
    exact { hkeeps with }
  | true =>
    have hkeeps := keeps_inMemory_rollback info s.checkpoint
    exact { hkeeps with }

/-- The pages that the allocator returns for a call. -/
def allocated : ArrayCall V → List Nat
  | .pushBack _ pages => pages
  | .resize _ pages => pages
  | .update _ _ => []
  | .checkpoint => []
  | .rollback _ => []

/-- Between checkpoints a call writes to the pages that it allocates and to one page
more. -/
theorem keeps_step (hcall : call ≠ .checkpoint) (h : s.step info call = some s') :
    Keeps s s' fun p => p ∈ allocated call ∨ s.writtenPage info call = some p := by
  cases call with
  | pushBack => exact keeps_pushBackAll h
  | update => exact (keeps_update h).mono fun p hp => .inr hp
  | resize =>
    obtain ⟨⟨_, _⟩, hresize, rfl⟩ := map_eq_some_iff.mp h
    obtain ⟨_, hpush, heq⟩ := map_eq_some_iff.mp hresize
    cases heq
    exact keeps_pushBackAll hpush
  | checkpoint => exact absurd rfl hcall
  | rollback wrotePIPs =>
    cases h
    exact (keeps_rollbackCheckpoint s wrotePIPs).mono fun p hp => hp.elim

omit [Inhabited V] in
theorem notMem_allocated (hvalid : s.Valid info call) (hp : p ∈ s.arrayPages info .read) :
    p ∉ allocated call := by
  cases call with
  | pushBack | resize => exact fun hmem => (hvalid.2.2 p hmem).1 hp
  | update | checkpoint | rollback => exact not_mem_nil

/-! ## The bound for writes in place -/

omit [Inhabited V] in
theorem lastPage_load {file : Nat → DiskPage V} {header : DiskArrayHeader} {bypassShadowing : Bool}
    {numPIPs : Nat} (h : load info file header bypassShadowing numPIPs = some s) :
    s.LastPage info (s.getNumElements .read) := by
  obtain ⟨pips, -, rfl⟩ := map_eq_some_iff.mp h
  cases bypassShadowing with
  | false => exact .inl rfl
  | true =>
    right
    rw [if_pos rfl, updateLastPageOnDisk]
    split
    · rename_i hpos
      exact (if_pos hpos).symm
    · rename_i hpos
      exact (if_neg hpos).symm

omit [Inhabited V] in
/-- A checkpoint takes the bound from the header that it replaces. -/
theorem LastPage.completeCheckpoint {n : Nat} (h : s.LastPage info n) :
    (s.completeCheckpoint info).LastPage info (s.sizeBefore n .checkpoint) := by
  rw [DiskArray.completeCheckpoint, sizeBefore]
  cases hactive : s.hasTransactionalUpdates with
  | false =>
    rw [checkpointOrRollbackInMemory, if_pos (show s.checkpoint.hasTransactionalUpdates = false
      from hactive)]
    exact h
  | true =>
    rw [inMemory_of_active (show s.checkpoint.hasTransactionalUpdates = true from hactive)]
    split
    · right
      rw [updateLastPageOnDisk]
      split
      · rename_i hpos
        exact (if_pos hpos).symm
      · rename_i hpos
        exact (if_neg hpos).symm
    · rename_i hnone
      exact .inl (of_not_not fun hsome => hnone ⟨rfl, hsome⟩)

theorem LastPage.step {n : Nat} (h : s.LastPage info n) (hstep : s.step info call = some s') :
    s'.LastPage info (s.sizeBefore n call) := by
  by_cases hcall : call = .checkpoint
  · subst hcall
    cases hstep
    exact h.completeCheckpoint
  · have hkeeps := keeps_step hcall hstep
    have hsize : s.sizeBefore n call = n := by
      cases call with
      | checkpoint => exact absurd rfl hcall
      | pushBack | update | resize | rollback => rfl
    have hpages : ∀ a, s'.getAPPageIdx info a .read = s.getAPPageIdx info a .read := by
      intro a
      simp [getAPPageIdx, hkeeps.pips]
    rw [LastPage, hsize, hkeeps.lastPageOnDisk, hpages]
    exact h

omit [Inhabited V] in
/-- The pages below the bound are shadowed. -/
theorem LastPage.shadows {n : Nat} (h : s.LastPage info n) (hsorted : (s.firstPages info n).Pairwise
    (· < ·)) (hp : p ∈ s.firstPages info n) : s.shadows p = true := by
  rcases h with hnone | hlast
  · simp [DiskArray.shadows, hnone]
  obtain ⟨a, ha, hpage⟩ := mem_filterMap.mp hp
  rw [mem_range] at ha
  rw [firstPages, pairwise_filterMap] at hsorted
  cases n with
  | zero =>
    rw [numAPs_of_full (Nat.zero_mod _), Nat.zero_div] at ha
    exact absurd ha (Nat.not_lt_zero a)
  | succ m =>
    rw [numAPs_succ] at ha hsorted
    rw [DiskArray.shadows, hlast, if_pos (Nat.succ_pos m), Nat.add_sub_cancel]
    cases hq : s.getAPPageIdx info (m / info.numElementsPerPage) .read with
    | none => rfl
    | some q =>
      refine decide_eq_true ?_
      rcases Nat.eq_or_lt_of_le (Nat.le_of_lt_succ ha) with rfl | hlt
      · exact Nat.le_of_eq (some.inj (hpage.symm.trans hq))
      · have hrel := pairwise_iff_getElem.mp hsorted a (m / info.numElementsPerPage)
          (by simpa using ha) (by simp) hlt
        rw [getElem_range, getElem_range] at hrel
        exact Nat.le_of_lt (hrel p hpage q hq)

omit [Inhabited V] in
/-- A call that meets the condition changes pages of the checkpointed array in the shadow
file. -/
theorem LastPage.writesSafely {n : Nat} (h : s.LastPage info n)
    (hwrites : s.WritesOldPages info n call) :
    ∀ p ∈ (s.writtenPage info call).toList, p ∈ s.arrayPages info .read → s.shadows p = true := by
  intro p hp hread
  rcases hwrites with hnone | hold
  · simp [DiskArray.shadows, hnone]
  · exact h.shadows (hold p hp hread).2 (hold p hp hread).1

end DiskArray

end Lbug.Storage
