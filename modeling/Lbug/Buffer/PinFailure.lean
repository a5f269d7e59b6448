/-
  Buffer/PinFailure.lean --- what a `pin` that throws leaves behind.

  Source: `storage/buffer_manager/buffer_manager.cpp` (`pin`, `claimAFrame`,
  `cachePageIntoFrame`, `optimisticRead`).

  `pin` locks an evicted page and reserves memory for it before the page is read and put into
  the queue.  It gives both back only if `reserve` fails: if the read throws, or the queue is
  full, the page stays locked and its memory stays reserved.
-/
import Lbug.Buffer.MemoryBalance

namespace Lbug.Buffer

open Foundation List Function

inductive PinError where
  | noMemory
  | readFailed
  | queueFull
  deriving DecidableEq

namespace State

variable {Page Thread Buf : Type} [DecidableEq Page] [DecidableEq Thread] [DecidableEq Buf]
  (cfg : Config Page) (s : State Page Thread Buf) (i : Thread)

/-- The step with which `pin` throws, and its page. -/
def throwPin (error : PinError) : Option (State Page Thread Buf × Page) :=
  match error, s.activity i with
  | .noMemory, .failed X => (s.stepOf cfg i .resetFailed).map (·, X)
  -- the dirty bit is cleared and the frame may be written in part
  | .readFailed, .granted (.pin X) => some ((s.setWord X (s.word X).clearDirty).changeFrame X, X)
  | .queueFull, .loaded X => (s.stepOf cfg i .insertFull).map (·, X)
  | _, _ => none

/-- Nothing is left of the `pin` of thread `i`.  `optimisticRead` pins an evicted page. -/
structure Undone [Fintype Page] [Fintype Thread] [Fintype Buf] (X : Page) : Prop where
  evicted : (s.word X).state = .evicted
  /-- no memory is used for the page or for the call -/
  released : s.usedMemory = cfg.queueMemory + residentMemory cfg (update s.resident X false) +
    mallocedMemory s.buffers + usedByCalls cfg (update s.activity i .idle)
  pin : ∀ j, s.activity j = .idle → (s.stepOf cfg j (.pinEvicted X)).isSome = true
  evict : ∀ j call claimed n slot, s.activity j = .reserving call claimed n .claiming →
    (s.stepOf cfg j (.lockStale slot X)).isSome = true

variable {cfg s i} {s' : State Page Thread Buf} {X : Page} {error : PinError}

theorem state_resetToEvicted (w : PageState) : w.resetToEvicted.state = .evicted := by
  rw [PageState.resetToEvicted, PageState.updateStateAndIncrementVersion]
  split_ifs <;> rfl

section

variable [Fintype Page] [Fintype Thread] [Fintype Buf] (h : s.MemoryInv cfg)

include h

theorem MemoryInv.undone_resetFailed (hfailed : s.activity i = .failed X) :
    Undone cfg ((s.setWord X (s.word X).resetToEvicted).goto i .idle) i X := by
  have hstate : (((s.setWord X (s.word X).resetToEvicted).goto i .idle).word X).state =
      .evicted := by
    simp [goto, setWord, state_resetToEvicted]
  have habsent : s.resident X = false :=
    h.locks.fits i X .absent (by rw [hfailed]; exact mem_cons_self)
  refine ⟨hstate, ?_, fun j hj => ?_, fun j _ _ _ _ hj => ?_⟩
  · have hcalls := usedByCalls_update .idle s.activity i cfg
    rw [hfailed] at hcalls
    simp only [goto, setWord, update_idem, ← habsent, update_eq_self, hcalls, h.balanced.used]
    simp [Activity.used]
  · simp only [stepOf, hj, hstate]
    rfl
  · simp only [stepOf, hj, hstate]
    rfl

/-- A page that is locked when `pin` throws, and stays so. -/
theorem MemoryInv.not_undone (hold : Hold) (hheld : (X, hold) ∈ (s.activity i).held)
    (hword : (s'.word X).state = (s.word X).state) : ¬ s'.Undone cfg i X := by
  intro hundone
  have hlocked := h.locks.locked i X hold hheld
  rw [← hword, hundone.evicted] at hlocked
  cases hlocked

end

end State

/-- In every run in which the counters are balanced: nothing is left of a `pin` that throws
exactly if it throws because `reserve` has failed. -/
theorem undone_of_throwPin_iff {Page Thread Buf : Type} [DecidableEq Page] [DecidableEq Thread]
    [DecidableEq Buf] [Fintype Page] [Fintype Thread] [Fintype Buf] {cfg : Config Page}
    {s s' : State Page Thread Buf} {i : Thread} {X : Page} {error : PinError}
    (h : Reachable (State.step cfg) (State.init cfg) State.MemoryFree s)
    (hthrow : s.throwPin cfg i error = some (s', X)) :
    s'.Undone cfg i X ↔ error = .noMemory := by
  have hinv := State.memoryInv_of_reachable h
  unfold State.throwPin at hthrow
  split at hthrow
  · rename_i hfailed
    simp only [State.stepOf, hfailed] at hthrow
    cases hthrow
    exact iff_of_true (hinv.undone_resetFailed hfailed) rfl
  · rename_i hgranted
    cases hthrow
    refine iff_of_false (hinv.not_undone .absent ?_ ?_) fun heq => by cases heq
    · rw [hgranted]
      exact mem_cons_self
    · simp [State.setWord, State.changeFrame, PageState.clearDirty]
  · rename_i hloaded
    simp only [State.stepOf, hloaded] at hthrow
    split at hthrow
    · cases hthrow
    cases hthrow
    refine iff_of_false (hinv.not_undone .present ?_ rfl) fun heq => by cases heq
    rw [hloaded]
    exact mem_cons_self
  · cases hthrow

/-- The pool is full, and the second page cannot be pinned. -/
theorem undone_of_throwPin_sample : ∃ s : State (Fin 2) (Fin 2) (Fin 1),
    Reachable (State.step smallPool) (State.init smallPool) State.MemoryFree s ∧
      ∃ s', s.throwPin smallPool 1 .noMemory = some (s', 1) ∧ s'.Undone smallPool 1 1 := by
  refine exists_reachable_of_run (pinSteps 0 0 0 (reserveSteps 0) ++
    [(1, .pinEvicted 1), (1, .startPin), (1, .checkMemory), (1, .giveUp), (1, .reserveFail),
      (1, .creditNonEvictable)]) (fun s => s.activity 1 = .failed 1) (by decide +kernel) ?_
  intro s hs hfailed
  have hthrow : s.throwPin smallPool 1 .noMemory =
      some ((s.setWord 1 (s.word 1).resetToEvicted).goto 1 .idle, 1) := by
    simp only [State.throwPin, State.stepOf, hfailed]
    rfl
  exact ⟨_, hthrow, (undone_of_throwPin_iff hs hthrow).mpr rfl⟩

/-- The read of the first page fails: the page is locked, its memory is in use, and no thread
can pin it again. -/
theorem failed_read_leaves_lock : ∃ s : State (Fin 2) (Fin 2) (Fin 1),
    Reachable (State.step smallPool) (State.init smallPool) State.MemoryFree s ∧
      (s.throwPin smallPool 0 .readFailed).any (fun (s', X) => X = 0 ∧
        (s'.word 0).state = .locked ∧ s'.usedMemory = smallPool.queueMemory + 4096 ∧
        (s'.stepOf smallPool 1 (.pinCached 0)).isNone ∧
        (s'.stepOf smallPool 1 (.pinEvicted 0)).isNone) = true :=
  reachable_of_run ([(0, .pinEvicted 0), (0, .startPin)] ++ reserveSteps 0) (by decide +kernel)

end Lbug.Buffer
