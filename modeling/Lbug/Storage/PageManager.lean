/-
  Storage/PageManager.lean --- allocation of pages of the data file.

  Source: `storage/page_manager.cpp`, `storage/file_handle.cpp` (`addNewPages`,
  `removePageIdxAndTruncateIfNecessary`), `storage/optimistic_allocator.cpp`,
  `storage/local_storage/local_storage.cpp` (`rollback`).

  Callers own the ranges that they have allocated and not freed; `Owners` is the page
  manager together with these ranges.  In every run in which callers free only what they
  own, no page has two owners or is owned and free (`owned_ranges_disjoint`).

  `version` and the mutex of the page manager are left out: each call is one step.
-/
import Lbug.Foundation.Transition
import Lbug.Storage.FreeSpaceManager
import Mathlib.Data.List.Flatten

namespace Lbug.Storage

open Foundation List Option FreeSpaceManager PageRange

/-- The page manager and the number of pages of its file. -/
structure PageManager where
  freeSpaceManager : FreeSpaceManager := {}
  numPages : Nat
  deriving DecidableEq, Repr

namespace PageManager

section

variable (pm : PageManager)

/-- Free pages if there are enough in one range, else new pages at the end of the file. -/
def allocatePageRange (numPages : Nat) : PageManager × PageRange :=
  match pm.freeSpaceManager.popFreePages numPages with
  | (freeSpaceManager, some allocatedFreeChunk) =>
      ({ pm with freeSpaceManager }, allocatedFreeChunk)
  | (freeSpaceManager, none) =>
    ({ freeSpaceManager, numPages := pm.numPages + numPages }, ⟨pm.numPages, numPages⟩)

def freePageRange (entry : PageRange) : PageManager :=
  { pm with freeSpaceManager := pm.freeSpaceManager.addUncheckpointedFreePages entry }

def freeImmediatelyRewritablePageRange (entry : PageRange) : PageManager :=
  { pm with freeSpaceManager := pm.freeSpaceManager.addFreePages entry }

def mergeFreePages : PageManager :=
  let (freeSpaceManager, numPages) := pm.freeSpaceManager.mergeFreePages pm.numPages
  { freeSpaceManager, numPages }

def finalizeCheckpoint : PageManager :=
  let (freeSpaceManager, numPages) := pm.freeSpaceManager.finalizeCheckpoint pm.numPages
  { freeSpaceManager, numPages }

def rollbackCheckpoint : PageManager :=
  { pm with freeSpaceManager := pm.freeSpaceManager.rollbackCheckpoint }

def reclaimTailPagesIfNeeded (checkpointNumPages : Nat) : PageManager :=
  if checkpointNumPages = 0 then pm
  else if pm.numPages ≤ checkpointNumPages then pm
  else
    let tail := ⟨checkpointNumPages, pm.numPages - checkpointNumPages⟩
    (pm.freePageRange tail).mergeFreePages

/-- Allocated pages were free or are behind the end of the file, and the ranges that wait
for a checkpoint are not touched. -/
theorem mem_allocatePageRange (hnodup : pm.freeSpaceManager.freePages.Nodup) {numPages p : Nat}
    (hp : p ∈ (pm.allocatePageRange numPages).2.pages) :
    p ∈ pm.freeSpaceManager.freePages ∨ pm.numPages ≤ p := by
  rw [allocatePageRange] at hp
  split at hp
  · rename_i hpop
    have hperm := pages_popFreePages hnodup hpop
    exact .inl (hperm.mem_iff.mpr (mem_append_left _ hp))
  · exact .inr (mem_pages.mp hp).1

theorem uncheckpointed_allocatePageRange (numPages : Nat) :
    (pm.allocatePageRange numPages).1.freeSpaceManager.uncheckpointedFreePageRanges =
      pm.freeSpaceManager.uncheckpointedFreePageRanges := by
  rw [allocatePageRange]
  split
  · rename_i hpop
    exact uncheckpointed_popFreePages hpop
  · rename_i hpop
    rw [(popFreePages_none hpop).1]

end

end PageManager

/-! ## Owners -/

/-- The page manager and the ranges that its callers own. -/
structure Owners where
  pageManager : PageManager
  owned : List PageRange
  deriving DecidableEq, Repr

inductive PageCall
  | allocatePageRange (numPages : Nat)
  | freePageRange (entry : PageRange)
  | freeImmediatelyRewritablePageRange (entry : PageRange)
  | mergeFreePages
  | finalizeCheckpoint
  | rollbackCheckpoint
  | reclaimTailPagesIfNeeded (checkpointNumPages : Nat)
  /-- The callers see the pages that they own as other ranges. -/
  | regroup (owned : List PageRange)
  deriving DecidableEq, Repr

namespace Owners

/-- One call; callers free only ranges that they own.  Ranges whose release is rolled back
belong to their owners again.  Reclaiming the tail of the file frees the ranges in it. -/
def step (s : Owners) : PageCall → Option Owners
  | .allocatePageRange numPages =>
    let (pageManager, range) := s.pageManager.allocatePageRange numPages
    some { pageManager, owned := range :: s.owned }
  | .freePageRange entry =>
    if entry ∈ s.owned then
      some { pageManager := s.pageManager.freePageRange entry, owned := s.owned.erase entry }
    else none
  | .freeImmediatelyRewritablePageRange entry =>
    if entry ∈ s.owned then
      some {
        pageManager := s.pageManager.freeImmediatelyRewritablePageRange entry
        owned := s.owned.erase entry }
    else none
  | .mergeFreePages => some { s with pageManager := s.pageManager.mergeFreePages }
  | .finalizeCheckpoint => some { s with pageManager := s.pageManager.finalizeCheckpoint }
  | .rollbackCheckpoint =>
    some {
      pageManager := s.pageManager.rollbackCheckpoint
      owned := s.pageManager.freeSpaceManager.uncheckpointedFreePageRanges ++ s.owned }
  | .reclaimTailPagesIfNeeded checkpointNumPages =>
    if checkpointNumPages = 0 ∨ s.pageManager.numPages ≤ checkpointNumPages then some s
    else if ∀ r ∈ s.owned, r.endPageIdx ≤ checkpointNumPages ∨
      checkpointNumPages ≤ r.startPageIdx then
      some {
        pageManager := s.pageManager.reclaimTailPagesIfNeeded checkpointNumPages
        owned := s.owned.filter fun r => r.endPageIdx ≤ checkpointNumPages }
    else none
  | .regroup owned => if (pagesOf owned).Perm (pagesOf s.owned) then some { s with owned } else none

/-- All pages that belong to a caller, wait for a checkpoint or are free. -/
def pages (s : Owners) : List Nat :=
  pagesOf s.owned ++ (pagesOf s.pageManager.freeSpaceManager.uncheckpointedFreePageRanges ++
    s.pageManager.freeSpaceManager.freePages)

/-- No page is used twice, and all are in the file. -/
structure Valid (s : Owners) : Prop where
  nodup : s.pages.Nodup
  below : ∀ p ∈ s.pages, p < s.pageManager.numPages

/-- A new page manager for a file whose pages belong to callers or to nobody. -/
structure Initial (s : Owners) : Prop where
  freeLists : s.pageManager.freeSpaceManager = {}
  nodup : (pagesOf s.owned).Nodup
  below : ∀ p ∈ pagesOf s.owned, p < s.pageManager.numPages

variable {s : Owners}

theorem Initial.valid (h : s.Initial) : s.Valid := by
  have hpages : s.pages = pagesOf s.owned := by
    rw [pages, h.freeLists]
    simp [pagesOf, freePages, freeEntries]
  exact ⟨hpages ▸ h.nodup, hpages ▸ h.below⟩

variable {s' : Owners} {entry : PageRange}

section

variable (h : s.Valid)

include h

/-- The pages change places. -/
theorem Valid.of_perm (hperm : s'.pages.Perm s.pages)
    (hnum : s'.pageManager.numPages = s.pageManager.numPages) : s'.Valid :=
  ⟨hperm.nodup_iff.mpr h.nodup, fun p hp => hnum ▸ h.below p (hperm.mem_iff.mp hp)⟩

theorem Valid.nodup_freePages : s.pageManager.freeSpaceManager.freePages.Nodup :=
  (nodup_append'.mp (nodup_append'.mp h.nodup).2.1).2.1

/-- Which pages are used, where and how often, decides. -/
theorem Valid.of_count (hcount : ∀ p, s'.pages.count p = s.pages.count p)
    (hnum : s'.pageManager.numPages = s.pageManager.numPages) : s'.Valid :=
  h.of_perm (perm_iff_count.mpr hcount) hnum

theorem Valid.allocatePageRange (numPages : Nat) :
    ({ pageManager := (s.pageManager.allocatePageRange numPages).1
       owned := (s.pageManager.allocatePageRange numPages).2 :: s.owned } : Owners).Valid := by
  cases hpop : s.pageManager.freeSpaceManager.popFreePages numPages with
  | mk freeSpaceManager ret =>
    cases ret with
    | some =>
      have hperm := pages_popFreePages h.nodup_freePages hpop
      have hsame := uncheckpointed_popFreePages hpop
      simp only [PageManager.allocatePageRange, hpop]
      refine h.of_count (fun p => ?_) rfl
      have hfree := hperm.count_eq p
      simp only [pages, hsame, pagesOf_cons, count_append] at hfree ⊢
      omega
    | none =>
      have hsame := (popFreePages_none hpop).1
      simp only [PageManager.allocatePageRange, hpop, hsame]
      -- the new pages are behind all others
      have hpages : ({
          pageManager := ⟨s.pageManager.freeSpaceManager, s.pageManager.numPages + numPages⟩
          owned := ⟨s.pageManager.numPages, numPages⟩ :: s.owned } : Owners).pages =
          (⟨s.pageManager.numPages, numPages⟩ : PageRange).pages ++ s.pages := by
        simp [pages, pagesOf_cons]
      refine ⟨?_, fun p hp => ?_⟩
      · rw [hpages, nodup_append']
        refine ⟨nodup_pages _, h.nodup, fun p hnew hold => ?_⟩
        have := (mem_pages.mp hnew).1
        have := h.below p hold
        dsimp only at *
        omega
      · rw [hpages] at hp
        dsimp only
        rcases mem_append.mp hp with hnew | hold
        · exact (mem_pages.mp hnew).2
        · have := h.below p hold
          omega

omit h in
theorem count_pagesOf_erase {ranges : List PageRange} {r : PageRange} (hr : r ∈ ranges) (p : Nat) :
    (pagesOf ranges).count p = r.pages.count p + (pagesOf (ranges.erase r)).count p := by
  rw [(pagesOf_perm (perm_cons_erase hr)).count_eq, pagesOf_cons, count_append]

theorem Valid.freePageRange (hentry : entry ∈ s.owned) :
    ({ pageManager := s.pageManager.freePageRange entry
       owned := s.owned.erase entry } : Owners).Valid := by
  refine h.of_count (fun p => ?_) rfl
  have howned := count_pagesOf_erase hentry p
  simp only [pages, PageManager.freePageRange, addUncheckpointedFreePages,
    pagesOf_append, pagesOf_singleton, count_append]
  change _ + (_ + count p s.pageManager.freeSpaceManager.freePages) = _
  omega

theorem Valid.freeImmediatelyRewritablePageRange (hentry : entry ∈ s.owned) :
    ({ pageManager := s.pageManager.freeImmediatelyRewritablePageRange entry
       owned := s.owned.erase entry } : Owners).Valid := by
  have hdisjoint : List.Disjoint entry.pages s.pageManager.freeSpaceManager.freePages := by
    intro p hp hfree
    exact List.disjoint_of_nodup_append h.nodup (mem_pagesOf.mpr ⟨entry, hentry, hp⟩)
      (mem_append_right _ hfree)
  refine h.of_count (fun p => ?_) rfl
  have howned := count_pagesOf_erase hentry p
  have hfree := (pages_addFreePages hdisjoint).count_eq p
  simp only [pages, PageManager.freeImmediatelyRewritablePageRange, uncheckpointed_addFreePages,
    count_append] at hfree ⊢
  omega

end

/-- Merging keeps the owned pages apart from the free ones, even if ranges that wait for
a checkpoint overlap free ones. -/
theorem valid_mergeFreePages {pm : PageManager} {owned : List PageRange}
    (hnodup : (pagesOf owned).Nodup)
    (hdisjoint : List.Disjoint (pagesOf owned)
      (pagesOf pm.freeSpaceManager.uncheckpointedFreePageRanges ++ pm.freeSpaceManager.freePages))
    (howned : ∀ p ∈ pagesOf owned, p < pm.numPages)
    (hfree : ∀ p ∈ pagesOf pm.freeSpaceManager.uncheckpointedFreePageRanges ++
      pm.freeSpaceManager.freePages, p < pm.numPages) :
    ({ pageManager := pm.mergeFreePages, owned } : Owners).Valid := by
  have hmerged := merged_mergeFreePages hfree
  have hpages : ({ pageManager := pm.mergeFreePages, owned } : Owners).pages =
      pagesOf owned ++ (pm.freeSpaceManager.mergeFreePages pm.numPages).1.freePages := rfl
  refine ⟨?_, fun p hp => ?_⟩
  · rw [hpages, nodup_append']
    exact ⟨hnodup, hmerged.nodup, fun p hp hp' => hdisjoint hp ((hmerged.mem p).mp hp').1⟩
  rcases mem_append.mp hp with hp | hp
  · -- only free pages are cut off
    by_contra hcut
    exact hdisjoint hp (hmerged.cut p (Nat.le_of_not_lt hcut) (howned p hp))
  · exact ((hmerged.mem p).mp hp).2

section

variable (h : s.Valid)

include h

theorem Valid.mergeFreePages :
    ({ s with pageManager := s.pageManager.mergeFreePages } : Owners).Valid := by
  obtain ⟨hnodup, -, hdisjoint⟩ := nodup_append'.mp h.nodup
  exact valid_mergeFreePages hnodup hdisjoint (fun p hp => h.below p (mem_append_left _ hp))
    fun p hp => h.below p (mem_append_right _ hp)

theorem Valid.rollbackCheckpoint :
    ({ pageManager := s.pageManager.rollbackCheckpoint
       owned := s.pageManager.freeSpaceManager.uncheckpointedFreePageRanges ++ s.owned } :
      Owners).Valid := by
  refine h.of_count (fun p => ?_) rfl
  simp only [pages, pagesOf_append, count_append]
  change _ + (0 + count p s.pageManager.freeSpaceManager.freePages) = _
  omega

/-- The tail of the file becomes free; the ranges that stay owned are before it. -/
theorem Valid.reclaimTailPagesIfNeeded {checkpointNumPages : Nat} (hne : checkpointNumPages ≠ 0)
    (hlt : checkpointNumPages < s.pageManager.numPages) :
    ({ pageManager := s.pageManager.reclaimTailPagesIfNeeded checkpointNumPages
       owned := s.owned.filter fun r => r.endPageIdx ≤ checkpointNumPages } : Owners).Valid := by
  obtain ⟨hnodup, -, hdisjoint⟩ := nodup_append'.mp h.nodup
  have hkept : ∀ p ∈ pagesOf (s.owned.filter fun r => r.endPageIdx ≤ checkpointNumPages),
      p ∈ pagesOf s.owned ∧ p < checkpointNumPages := by
    intro p hp
    obtain ⟨r, hr, hpr⟩ := mem_pagesOf.mp hp
    obtain ⟨hrmem, hend⟩ := mem_filter.mp hr
    have := (mem_pages.mp hpr).2
    exact ⟨mem_pagesOf.mpr ⟨r, hrmem, hpr⟩, lt_of_lt_of_le this (of_decide_eq_true hend)⟩
  rw [PageManager.reclaimTailPagesIfNeeded, if_neg hne, if_neg (not_le.mpr hlt)]
  have htail : ∀ p, p ∈ pagesOf ((s.pageManager.freePageRange ⟨checkpointNumPages,
        s.pageManager.numPages -
          checkpointNumPages⟩).freeSpaceManager.uncheckpointedFreePageRanges) ++
      s.pageManager.freeSpaceManager.freePages ↔
      p ∈ pagesOf s.pageManager.freeSpaceManager.uncheckpointedFreePageRanges ++
        s.pageManager.freeSpaceManager.freePages ∨
      checkpointNumPages ≤ p ∧ p < s.pageManager.numPages := by
    intro p
    simp only [PageManager.freePageRange, addUncheckpointedFreePages,
      pagesOf_append, pagesOf_singleton, mem_append, mem_pages,
      endPageIdx, Nat.add_sub_cancel' (le_of_lt hlt)]
    tauto
  apply valid_mergeFreePages
  · exact (filter_sublist.flatMap _).nodup hnodup
  · intro p hp hfree
    obtain ⟨howned, hbefore⟩ := hkept p hp
    rcases (htail p).mp hfree with hold | hnew
    · exact hdisjoint howned hold
    · omega
  · intro p hp
    exact lt_trans (hkept p hp).2 hlt
  · intro p hp
    rcases (htail p).mp hp with hold | hnew
    · exact h.below p (mem_append_right _ hold)
    · exact hnew.2

theorem Valid.step (call : PageCall) (hstep : s.step call = some s') : s'.Valid := by
  cases call with
  | allocatePageRange numPages =>
    cases hstep
    exact h.allocatePageRange numPages
  | freePageRange =>
    obtain ⟨hentry, ⟨⟩⟩ := ite_none_right_eq_some.mp hstep
    exact h.freePageRange hentry
  | freeImmediatelyRewritablePageRange =>
    obtain ⟨hentry, ⟨⟩⟩ := ite_none_right_eq_some.mp hstep
    exact h.freeImmediatelyRewritablePageRange hentry
  | mergeFreePages | finalizeCheckpoint =>
    cases hstep
    exact h.mergeFreePages
  | rollbackCheckpoint =>
    cases hstep
    exact h.rollbackCheckpoint
  | reclaimTailPagesIfNeeded =>
    rw [Owners.step] at hstep
    split at hstep
    · cases hstep
      exact h
    rename_i hneeded
    rw [not_or] at hneeded
    split at hstep
    · cases hstep
      exact h.reclaimTailPagesIfNeeded hneeded.1 (Nat.lt_of_not_le hneeded.2)
    · cases hstep
  | regroup =>
    obtain ⟨hperm, ⟨⟩⟩ := ite_none_right_eq_some.mp hstep
    exact h.of_perm (hperm.append_right _) rfl

theorem Valid.serve {calls : List PageCall} (hcalls : calls.foldlM Owners.step s = some s') :
    s'.Valid := by
  induction calls generalizing s with
  | nil =>
    cases hcalls
    exact h
  | cons call _ ih =>
    obtain ⟨_, hstep, hrest⟩ := bind_eq_some_iff.mp hcalls
    exact ih (h.step call hstep) hrest

end

/-- In every run, no page has two owners, is owned and free, or is free twice, and the
pages that are owned or free are pages of the file. -/
theorem owned_ranges_disjoint {init s : Owners} (hinit : init.Initial)
    (hrun : Reachable Owners.step init Always s) :
    s.owned.Pairwise PageRange.Disjoint ∧
      (∀ r ∈ s.owned, ∀ f ∈ s.pageManager.freeSpaceManager.freeEntries ++
        s.pageManager.freeSpaceManager.uncheckpointedFreePageRanges, r.Disjoint f) ∧
      (∀ r ∈ s.owned, ∀ p ∈ r.pages, p < s.pageManager.numPages) ∧
      (∀ f ∈ s.pageManager.freeSpaceManager.freeEntries ++
        s.pageManager.freeSpaceManager.uncheckpointedFreePageRanges,
        ∀ p ∈ f.pages, p < s.pageManager.numPages) ∧
      (s.pageManager.freeSpaceManager.freeEntries ++
        s.pageManager.freeSpaceManager.uncheckpointedFreePageRanges).Pairwise
          PageRange.Disjoint := by
  have hvalid : s.Valid :=
    hrun.invariant Valid hinit.valid fun s call s' h _ hstep => h.step call hstep
  -- the free ranges in the order of the statement
  have hnodup : (pagesOf s.owned ++ pagesOf (s.pageManager.freeSpaceManager.freeEntries ++
      s.pageManager.freeSpaceManager.uncheckpointedFreePageRanges)).Nodup := by
    refine List.Perm.nodup_iff ?_ |>.mpr hvalid.nodup
    rw [pagesOf_append]
    exact perm_append_comm.append_left _
  have hbelow : ∀ p ∈ pagesOf s.owned ++ pagesOf (s.pageManager.freeSpaceManager.freeEntries ++
      s.pageManager.freeSpaceManager.uncheckpointedFreePageRanges), p < s.pageManager.numPages := by
    intro p hp
    refine hvalid.below p ?_
    rw [pagesOf_append] at hp
    exact (perm_append_comm.append_left _).mem_iff.mp hp
  obtain ⟨howned, hfree, -⟩ := nodup_append'.mp hnodup
  refine ⟨pairwise_disjoint_of_nodup howned, disjoint_of_nodup_append hnodup, ?_, ?_,
    pairwise_disjoint_of_nodup hfree⟩
  · intro r hr p hp
    exact hbelow p (mem_append_left _ (mem_pagesOf.mpr ⟨r, hr, hp⟩))
  · intro f hf p hp
    exact hbelow p (mem_append_right _ (mem_pagesOf.mpr ⟨f, hf, hp⟩))

/-- A file of four pages with one owner. -/
def fourPages : Owners := { pageManager := { numPages := 4 }, owned := [⟨0, 4⟩] }

theorem initial_fourPages : fourPages.Initial := ⟨rfl, by decide, by decide⟩

/-- The pages are freed, two pages are allocated, a checkpoint makes the first four pages
free, and three of them are allocated again. -/
theorem owned_ranges_disjoint_sample : [(⟨0, 3⟩ : PageRange), ⟨4, 2⟩].Pairwise PageRange.Disjoint :=
  have hrun : run step Always fourPages
      [.freePageRange ⟨0, 4⟩, .allocatePageRange 2, .finalizeCheckpoint, .allocatePageRange 3] =
      some {
        pageManager := {
          freeSpaceManager := { freeLists := [[⟨3, 1⟩], [], []], numEntries := 1 }
          numPages := 6 }
        owned := [⟨0, 3⟩, ⟨4, 2⟩] } := by
    decide +kernel
  (owned_ranges_disjoint initial_fourPages (Reachable.init.run _ hrun)).1

end Owners

end Lbug.Storage
