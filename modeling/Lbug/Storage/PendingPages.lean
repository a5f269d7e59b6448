/-
  Storage/PendingPages.lean --- pages that wait for a checkpoint.

  Source: `storage/page_manager.cpp`, `storage/optimistic_allocator.cpp`,
  `storage/local_storage/local_storage.cpp` (`rollback`).

  A freed page may still be read by recovery until the next checkpoint is finished, so it
  has to wait in the list of uncheckpointed ranges.  Transactions allocate pages
  optimistically and give them back when they roll back; the rollback then merges the free
  pages, the waiting ones included.  As long as no transaction rolls back, a freed page is
  neither allocated again nor cut off (`freed_page_waits`).
-/
import Lbug.Storage.PageManager

namespace Lbug.Storage

open Foundation List Option

/-- The callers of the page manager and the pages that each transaction has allocated
optimistically. -/
structure PageUse where
  owners : Owners
  optimisticallyAllocatedPages : List (Nat × PageRange) := []
  deriving DecidableEq, Repr

inductive PageUseCall
  | page (call : PageCall)
  /-- `OptimisticAllocator::allocatePageRange`. -/
  | allocateOptimistically (tx numPages : Nat)
  /-- `OptimisticAllocator::commit`. -/
  | commit (tx : Nat)
  /-- `LocalStorage::rollback`. -/
  | rollback (tx : Nat)
  deriving DecidableEq, Repr

/-- The call does not touch the ranges that wait for a checkpoint. -/
def PageCall.leavesPending : PageCall → Bool
  | .mergeFreePages => false
  | .finalizeCheckpoint => false
  | .rollbackCheckpoint => false
  | .reclaimTailPagesIfNeeded _ => false
  | _ => true

theorem Owners.uncheckpointed_subset {s s' : Owners} {call : PageCall}
    (hcall : call.leavesPending = true) (hstep : s.step call = some s') :
    s.pageManager.freeSpaceManager.uncheckpointedFreePageRanges ⊆
      s'.pageManager.freeSpaceManager.uncheckpointedFreePageRanges := by
  cases call with
  | allocatePageRange numPages =>
    cases hstep
    exact (s.pageManager.uncheckpointed_allocatePageRange numPages).symm ▸ List.Subset.refl _
  | freePageRange =>
    obtain ⟨-, ⟨⟩⟩ := ite_none_right_eq_some.mp hstep
    exact subset_append_left _ _
  | freeImmediatelyRewritablePageRange entry =>
    obtain ⟨-, ⟨⟩⟩ := ite_none_right_eq_some.mp hstep
    exact (FreeSpaceManager.uncheckpointed_addFreePages _ entry).symm ▸ List.Subset.refl _
  | regroup =>
    obtain ⟨-, ⟨⟩⟩ := ite_none_right_eq_some.mp hstep
    exact List.Subset.refl _
  | mergeFreePages | finalizeCheckpoint | rollbackCheckpoint | reclaimTailPagesIfNeeded =>
    cases hcall

theorem Owners.mem_uncheckpointed {s s' : Owners} {entry : PageRange}
    (hstep : s.step (.freePageRange entry) = some s') :
    entry ∈ s'.pageManager.freeSpaceManager.uncheckpointedFreePageRanges := by
  obtain ⟨-, ⟨⟩⟩ := ite_none_right_eq_some.mp hstep
  exact mem_append_right _ mem_cons_self

namespace PageUse

variable (s : PageUse)

def pageManager : PageManager := s.owners.pageManager

/-- The ranges that are freed and wait for the next checkpoint. -/
def pending : List PageRange :=
  s.pageManager.freeSpaceManager.uncheckpointedFreePageRanges

/-- The pages of a transaction, in the order of their allocation. -/
def pagesOfTx (tx : Nat) : List PageRange :=
  (s.optimisticallyAllocatedPages.filter fun p => p.1 == tx).map Prod.snd

def clear (tx : Nat) : List (Nat × PageRange) :=
  s.optimisticallyAllocatedPages.filter fun p => p.1 != tx

/-- What a call asks of the page manager. -/
def pageCalls : PageUseCall → List PageCall
  | .page call => [call]
  | .allocateOptimistically _ numPages => [.allocatePageRange numPages]
  | .commit _ => []
  | .rollback tx => (s.pagesOfTx tx).map .freeImmediatelyRewritablePageRange ++ [.mergeFreePages]

def optimisticAfter : PageUseCall → List (Nat × PageRange)
  | .page _ => s.optimisticallyAllocatedPages
  | .allocateOptimistically tx numPages =>
    if 0 < numPages then
      s.optimisticallyAllocatedPages ++ [(tx, (s.pageManager.allocatePageRange numPages).2)]
    else s.optimisticallyAllocatedPages
  | .commit tx => s.clear tx
  | .rollback tx => s.clear tx

def step (call : PageUseCall) : Option PageUse :=
  ((s.pageCalls call).foldlM Owners.step s.owners).map fun owners =>
    { owners, optimisticallyAllocatedPages := s.optimisticAfter call }

structure Initial : Prop where
  owners : s.owners.Initial
  optimistic : s.optimisticallyAllocatedPages = []

/-- Every call is a sequence of calls to the page manager. -/
theorem owners_step {s s' : PageUse} {call : PageUseCall} (h : s.step call = some s') :
    (s.pageCalls call).foldlM Owners.step s.owners = some s'.owners := by
  obtain ⟨_, howners, rfl⟩ := map_eq_some_iff.mp h
  exact howners

theorem valid_of_reachable {init s : PageUse} (hinit : init.Initial)
    {ok : PageUse → PageUseCall → Prop}
    (hrun : Reachable PageUse.step init ok s) : s.owners.Valid := by
  refine hrun.invariant (fun s => s.owners.Valid) hinit.owners.valid ?_
  intro s call s' hvalid _ hstep
  exact hvalid.serve (owners_step hstep)

/-! ## Waiting for the checkpoint -/

/-- The call neither ends the wait, as a checkpoint that is finished or rolled back does,
nor merges the free pages, as the rollback of a transaction does. -/
def Waits (call : PageUseCall) : Prop :=
  ∀ c ∈ s.pageCalls call, c.leavesPending = true
  deriving Decidable

/-- While a page waits, its range stays in the list. -/
theorem Waits.pending_subset {s s' : PageUse} {call : PageUseCall} (hwaits : s.Waits call)
    (hstep : s.step call = some s') : s.pending ⊆ s'.pending := by
  have howners := owners_step hstep
  unfold pending pageManager
  generalize s.owners = owners at howners
  generalize hcalls : s.pageCalls call = calls at howners
  rw [Waits, hcalls] at hwaits
  clear hcalls hstep
  induction calls generalizing owners with
  | nil =>
    cases howners
    exact List.Subset.refl _
  | cons c _ ih =>
    obtain ⟨owners₁, hfirst, hrest⟩ := bind_eq_some_iff.mp howners
    have hc := Owners.uncheckpointed_subset (hwaits c mem_cons_self) hfirst
    exact List.Subset.trans hc (ih owners₁ (fun c hc => hwaits c (mem_cons_of_mem _ hc)) hrest)

/-- A page that waits is not free, is a page of the file, and no allocation returns it. -/
theorem protected_of_pending {s : PageUse} (hvalid : s.owners.Valid) {p : Nat}
    (hp : p ∈ pagesOf s.pending) :
    p ∉ s.pageManager.freeSpaceManager.freePages ∧ p < s.pageManager.numPages ∧
      ∀ numPages, p ∉ (s.pageManager.allocatePageRange numPages).2.pages := by
  have hfree : p ∉ s.pageManager.freeSpaceManager.freePages := by
    intro hfree
    exact List.disjoint_of_nodup_append (nodup_append'.mp hvalid.nodup).2.1 hp hfree
  have hbelow : p < s.pageManager.numPages :=
    hvalid.below p (mem_append_right _ (mem_append_left _ hp))
  refine ⟨hfree, hbelow, fun numPages hret => ?_⟩
  rcases s.pageManager.mem_allocatePageRange hvalid.nodup_freePages hret with hpop | hnew
  · exact hfree hpop
  · omega

/-- A freed page waits: until the next checkpoint is finished or rolled back, if no
transaction rolls back meanwhile, no allocation returns the page and it is not cut off;
after a rollback of the checkpoint it is not free. -/
theorem freed_page_waits {init s s₁ s₂ : PageUse} (hinit : init.Initial)
    (hrun : Reachable PageUse.step init Always s) {entry : PageRange}
    (hfree : s.step (.page (.freePageRange entry)) = some s₁)
    (hwait : Reachable PageUse.step s₁ Waits s₂) {p : Nat} (hp : p ∈ entry.pages) :
    (∀ numPages, p ∉ (s₂.pageManager.allocatePageRange numPages).2.pages) ∧
      p < s₂.pageManager.numPages ∧
      p ∉ s₂.pageManager.rollbackCheckpoint.freeSpaceManager.freePages := by
  have hinv : s₂.owners.Valid ∧ entry ∈ s₂.pending := by
    refine hwait.invariant (fun s => s.owners.Valid ∧ entry ∈ s.pending) ?_ ?_
    · have howners := owners_step hfree
      refine ⟨(valid_of_reachable hinit hrun).serve howners, ?_⟩
      obtain ⟨_, hstep, hdone⟩ := bind_eq_some_iff.mp howners
      cases hdone
      exact Owners.mem_uncheckpointed hstep
    · intro s call s' ⟨hvalid, hentry⟩ hwaits hstep
      exact ⟨hvalid.serve (owners_step hstep), hwaits.pending_subset hstep hentry⟩
  obtain ⟨hnotFree, hbelow, halloc⟩ :=
    protected_of_pending hinv.1 (mem_pagesOf.mpr ⟨entry, hinv.2, hp⟩)
  exact ⟨halloc, hbelow, hnotFree⟩

/-- A file of six pages with two owners. -/
def sixPages : PageUse where
  owners := { pageManager := { numPages := 6 }, owned := [⟨0, 2⟩, ⟨2, 4⟩] }

theorem initial_sixPages : sixPages.Initial := ⟨⟨rfl, by decide, by decide⟩, rfl⟩

/-- The first two pages are freed; another transaction allocates a page and commits. -/
theorem freed_page_waits_sample : ∃ s₂ : PageUse, s₂.pending = [⟨0, 2⟩] ∧
      ∀ numPages, 1 ∉ (s₂.pageManager.allocatePageRange numPages).2.pages := by
  have hfree : sixPages.step (.page (.freePageRange ⟨0, 2⟩)) = some
      { owners := { pageManager := {
                      freeSpaceManager := { uncheckpointedFreePageRanges := [⟨0, 2⟩] }
                      numPages := 6 }
                    owned := [⟨2, 4⟩] } } := by
    decide +kernel
  have hwait : run step Waits
      { owners := { pageManager := {
                      freeSpaceManager := { uncheckpointedFreePageRanges := [⟨0, 2⟩] }
                      numPages := 6 }
                    owned := [⟨2, 4⟩] } }
      [.allocateOptimistically 7 1, .commit 7] = some
      { owners := { pageManager := {
                      freeSpaceManager := { uncheckpointedFreePageRanges := [⟨0, 2⟩] }
                      numPages := 7 }
                    owned := [⟨6, 1⟩, ⟨2, 4⟩] } } := by
    decide +kernel
  exact ⟨_, rfl, (freed_page_waits initial_sixPages .init hfree (Reachable.init.run _ hwait)
    (by decide)).1⟩

/-- The first two pages are freed and another transaction rolls back: the pages are
allocated again although no checkpoint was finished. -/
theorem freed_page_reused : sixPages.Initial ∧ (run step Always sixPages
      [.page (.freePageRange ⟨0, 2⟩), .allocateOptimistically 7 1, .rollback 7]).any (fun s =>
        (s.pageManager.allocatePageRange 2).2 = ⟨0, 2⟩ ∧
          s.pageManager.rollbackCheckpoint.freeSpaceManager.freePages = [0, 1]) = true :=
  ⟨initial_sixPages, by decide +kernel⟩

end PageUse

end Lbug.Storage
