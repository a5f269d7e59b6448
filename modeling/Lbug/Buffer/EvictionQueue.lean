/-
  Buffer/EvictionQueue.lean --- the entries of the eviction queue.

  In the runs of `QueueFree` every resident page has an entry in the queue or is about to
  get one, `clear` finds the entry it was called for, and the queue never fills up.  The
  condition says that `removeEvictedCandidates` works on a slot whose page is still
  evicted, and that a page is removed only while the entries that earlier removals have left
  in the queue (`State.stale`) fit beside those of all pages that the pool has room for.
-/
import Mathlib.Algebra.BigOperators.Ring.Finset
import Lbug.Buffer.MemoryBalance

namespace Lbug.Buffer

open Foundation Function Finset

section

variable {Page Thread Buf : Type}

/-! ## The pool is large enough -/

section

variable (cfg : Config Page)

theorem Activity.taken_nonneg (a : Activity Page Buf) : 0 ≤ a.taken cfg := by
  cases a with
  | reserving _ _ _ phase =>
    cases phase <;> simp only [taken] <;> omega
  | evicting _ _ _ _ Y phase =>
    have hphase := phase.memory_nonneg cfg Y
    simp only [taken]
    omega
  | _ => simp only [taken]; omega

/-- A call accounts for what it has taken. -/
theorem Activity.taken_le_used (a : Activity Page Buf) : a.taken cfg ≤ a.used cfg := by
  cases a with
  | reserving _ _ _ phase =>
    cases phase <;> simp only [taken, used, ReservePhase.memory] <;> omega
  | evicting =>
    simp only [taken, used]
    omega
  | removing _ phase => cases phase <;> simp only [taken, used] <;> omega
  | _ => simp only [taken, used]; omega

def takenByCalls [Fintype Thread] (cfg : Config Page) (activity : Thread → Activity Page Buf) :
    Int :=
  ∑ i, (activity i).taken cfg

def entriesOfCalls [Fintype Thread] (activity : Thread → Activity Page Buf) : Int :=
  ∑ i, (activity i).entries

/-- The counted entries that do not belong to a resident page or to a call. -/
def State.stale [Fintype Page] [Fintype Thread] (s : State Page Thread Buf) : Int :=
  s.queueSize + entriesOfCalls s.activity - residentPages s.resident

/-- The entries that fit into the queue beside those of the pages in the pool. -/
def Config.slack : Int :=
  cfg.queueCapacity - ((cfg.bufferPoolSize - cfg.queueMemory) / 4096 : Nat)

section

variable [Fintype Thread] [DecidableEq Thread] (activity : Thread → Activity Page Buf) (i : Thread)
  (a : Activity Page Buf)

theorem takenByCalls_update : takenByCalls cfg (update activity i a) =
    takenByCalls cfg activity - (activity i).taken cfg + a.taken cfg :=
  sum_update (fun _ => Activity.taken cfg) activity i a

theorem entriesOfCalls_update : entriesOfCalls (update activity i a) =
    entriesOfCalls activity - (activity i).entries + a.entries :=
  sum_update (fun _ => Activity.entries) activity i a

end

/-- The call has ended in `UNREACHABLE_CODE`, or because the queue was full. -/
def Activity.throws : Activity Page Buf → Bool
  | .queueFull _ => true
  | .unreachable _ => true
  | _ => false

/-- `removeEvictedCandidates` works on a slot whose page is evicted, and a page is removed
while there is room for the entry that it leaves. -/
def State.keepsQueue [DecidableEq Page] [Fintype Page] [Fintype Thread] (cfg : Config Page)
    (s : State Page Thread Buf) (i : Thread) : Action Page Buf → Bool
  | .loadFound =>
    match s.activity i with
    | .found slot =>
      match s.slots slot with
      | some Z => (s.word Z).state = .evicted
      | none => false
    | _ => true
  | .clearFound =>
    match s.activity i with
    | .clearing slot Z => s.slots slot = some Z ∧ (s.word Z).state = .evicted
    | _ => true
  | .releaseRemove => s.stale < cfg.slack
  | _ => true

def State.QueueFree [DecidableEq Page] [Fintype Page] [Fintype Thread] (cfg : Config Page)
    (s : State Page Thread Buf) (call : Thread × Action Page Buf) : Prop :=
  s.MemoryFree call ∧ s.keepsQueue cfg call.1 call.2 = true
  deriving Decidable

theorem Config.le_pageSize (X : Page) : 4096 ≤ cfg.pageSize X := by
  unfold pageSize
  cases cfg.sizeClass X <;> decide

/-- An entry whose page is evicted stands for the memory of the page. -/
theorem Activity.entries_taken_nonneg (a : Activity Page Buf) :
    0 ≤ 4096 * a.entries + a.taken cfg := by
  cases a with
  | evicting _ _ _ _ Y phase =>
    have hsize := cfg.le_pageSize Y
    cases phase <;> simp only [entries, EvictPhase.leaving, taken, EvictPhase.memory,
      EvictPhase.isReleased, if_true] <;> omega
  | loaded | inserted =>
    simp only [entries, taken]
    omega
  | reserving call c n phase =>
    have htaken := Activity.taken_nonneg cfg (.reserving call c n phase)
    simp only [entries]
    omega
  | _ => simp only [entries, taken]; omega

theorem Config.queueMemory_le : cfg.queueMemory ≤ cfg.bufferPoolSize := by
  have hsize := cfg.pageSize_le
  unfold queueMemory queueCapacity batchSize
  omega

end

namespace State

section

variable [Fintype Page] [Fintype Thread] [Fintype Buf]

/-- The memory in use fits into the pool. -/
def Fits (cfg : Config Page) (s : State Page Thread Buf) : Prop :=
  cfg.queueMemory + residentMemory cfg s.resident + mallocedMemory s.buffers +
    takenByCalls cfg s.activity ≤ cfg.bufferPoolSize

variable {cfg : Config Page} {s s' : State Page Thread Buf} {i : Thread}

theorem fits_init : (init cfg : State Page Thread Buf).Fits cfg := by
  have hqueue := cfg.queueMemory_le
  simp [Fits, init, residentMemory, mallocedMemory, takenByCalls, BufferState.mallocedSize,
    Activity.taken, hqueue]

variable [DecidableEq Page] [DecidableEq Thread] [DecidableEq Buf] {a a' : Activity Page Buf}
  {act : Action Page Buf} {X : Page}

omit [DecidableEq Page] [DecidableEq Buf] in
/-- A call that takes no more memory than before. -/
theorem Fits.goto (h : s.Fits cfg) (hold : s.activity i = a) (htaken : a'.taken cfg ≤ a.taken cfg) :
    (s.goto i a').Fits cfg := by
  unfold Fits at h ⊢
  simp only [State.goto, takenByCalls_update, hold]
  omega

omit [DecidableEq Page] [DecidableEq Buf] in
/-- `reserve` returns true: it claimed what it needs, or found it free. -/
theorem Fits.enough (h : s.Fits cfg) (hbalanced : s.Balanced cfg)
    {call : ReserveCall Page Buf} {c n : Nat}
    (hold : s.activity i = .reserving call c n .checking)
    (hneed : ¬s.needMoreMemory cfg call c = true) :
    (s.goto i (.reserving call c n .crediting)).Fits cfg := by
  by_cases hclaimed : cfg.callSize call ≤ c
  · refine h.goto hold ?_
    simp only [Activity.taken, if_pos hclaimed]
    exact le_rfl
  -- the memory of all calls, with the size of this one, is in `usedMemory`
  have hused := hbalanced.used
  have hothers : takenByCalls cfg (update s.activity i
      (.reserving call c n .crediting)) ≤ usedByCalls cfg (update s.activity i
      (.reserving call c n .crediting)) :=
    sum_le_sum fun j _ => Activity.taken_le_used cfg _
  have hsame : usedByCalls cfg (update s.activity i (.reserving call c n .crediting)) =
      usedByCalls cfg s.activity := by
    rw [usedByCalls_update, hold]
    simp only [Activity.used, ReservePhase.memory]
    omega
  have hpool : c ≤ cfg.bufferPoolSize := by
    have hresident := residentMemory_nonneg cfg s.resident
    have hmalloced := mallocedMemory_nonneg s.buffers
    have hc : (c : Int) ≤ takenByCalls cfg s.activity := by
      have hle := single_le_sum
        (fun j (_ : j ∈ univ) => (s.activity j).taken_nonneg cfg) (mem_univ i)
      rw [hold] at hle
      exact hle
    unfold Fits at h
    omega
  simp only [needMoreMemory, Bool.and_eq_true, decide_eq_true_eq, not_and] at hneed
  have hfree := hneed ⟨by omega, hpool⟩
  show (cfg.queueMemory : Int) + residentMemory cfg s.resident + mallocedMemory s.buffers +
    takenByCalls cfg (update s.activity i (.reserving call c n .crediting)) ≤ cfg.bufferPoolSize
  omega

theorem Fits.transition (h : s.Fits cfg) (ht : Transition cfg s i act s')
    (hfree : s.MemoryFree (i, act)) (hinv : s.MemoryInv cfg) : s'.Fits cfg := by
  rcases eq_or_ne act .checkMemory with rfl | hact
  · cases ht with
    | needMemory hold => exact h.goto hold le_rfl
    | enoughMemory hold hneed => exact h.enough hinv.balanced hold hneed
  · obtain ⟨a, a', r, m, d, he⟩ :=
      counterEffect_of_transition ht hfree hinv.toLocksInv (hinv.sound i)
    have htaken := he.taken hact
    unfold Fits at h ⊢
    rw [he.activity, takenByCalls_update, he.old, he.resident, he.buffers]
    omega

/-- In every run in which the counters are balanced, the queue, the resident pages and the
buffers fit into the pool, and so does `usedMemory` whenever no call is in progress. -/
theorem memory_fits_pool (h : Reachable (step cfg) (init cfg) MemoryFree s) :
    cfg.queueMemory + residentMemory cfg s.resident + mallocedMemory s.buffers ≤
        cfg.bufferPoolSize ∧
      ((∀ j, (s.activity j).atRest = true) → s.usedMemory ≤ cfg.bufferPoolSize) := by
  have hfits : s.Fits cfg := by
    induction h with
    | init => exact fits_init
    | step _ hrun hfree hs ih =>
      exact ih.transition (transition_of_stepOf hs) hfree (memoryInv_of_reachable hrun)
  have htaken : 0 ≤ takenByCalls cfg s.activity :=
    sum_nonneg fun j _ => (s.activity j).taken_nonneg cfg
  unfold Fits at hfits
  refine ⟨by omega, fun hrest => ?_⟩
  rw [((memoryInv_of_reachable h).balanced.at_rest hrest).1]
  omega

/-- A page is loaded, and a buffer takes what is left of the pool. -/
theorem memory_fits_pool_sample : ∃ s : State (Fin 2) (Fin 2) (Fin 1),
    Reachable (step smallPool) (init smallPool) MemoryFree s ∧
      s.usedMemory = 8192 ∧ s.usedMemory ≤ smallPool.bufferPoolSize := by
  refine exists_reachable_of_run (pinSteps 0 0 0 (reserveSteps 0) ++ [(1, .startMalloc 0 3584)] ++
    reserveSteps 1 ++ [(1, .finishMalloc)])
    (fun s => s.usedMemory = 8192 ∧ ∀ j, (s.activity j).atRest = true) (by decide +kernel) ?_
  rintro s hs ⟨hused, hrest⟩
  exact ⟨hused, (memory_fits_pool hs).2 hrest⟩

/-! ## The number of entries -/

/-- Only a page that is removed leaves an entry. -/
theorem stale_transition (ht : Transition cfg s i act s') (hfree : s.MemoryFree (i, act))
    (hinv : s.PlacesInv) :
    s'.stale ≤ s.stale ∨ act = .releaseRemove ∧ s'.stale ≤ s.stale + 1 := by
  obtain ⟨a, a', r, m, d, he⟩ :=
    counterEffect_of_transition ht hfree hinv.toLocksInv (hinv.sound i)
  unfold stale
  rw [he.activity, entriesOfCalls_update, he.old, he.pages]
  rcases he.entries with hentries | ⟨hact, hentries⟩
  · left
    omega
  · exact .inr ⟨hact, by omega⟩

omit [DecidableEq Page] [DecidableEq Thread] [DecidableEq Buf] in
/-- A thread that has loaded a page finds room for its entry. -/
theorem queueSize_lt_of_loaded (hfits : s.Fits cfg) (hstale : s.stale ≤ cfg.slack)
    (hloaded : s.activity i = .loaded X) : s.queueSize < cfg.queueCapacity := by
  have hpages : 4096 * residentPages s.resident ≤ residentMemory cfg s.resident := by
    unfold residentPages residentMemory
    rw [mul_sum]
    apply sum_le_sum
    intro Y _
    have hsize := cfg.le_pageSize Y
    split <;> omega
  have hcalls : 4096 ≤ 4096 * entriesOfCalls s.activity + takenByCalls cfg s.activity := by
    unfold entriesOfCalls takenByCalls
    rw [mul_sum, ← sum_add_distrib]
    have hle := single_le_sum
      (fun j (_ : j ∈ univ) => (s.activity j).entries_taken_nonneg cfg) (mem_univ i)
    rw [hloaded] at hle
    exact hle
  have hmalloced := mallocedMemory_nonneg s.buffers
  unfold Fits at hfits
  unfold stale Config.slack at hstale
  omega

/-! ## Coverage -/

/-- A resident page has an entry in the queue, or is about to get it. -/
def Covered (cfg : Config Page) (s : State Page Thread Buf) : Prop :=
  ∀ X, s.resident X = true →
    (∃ i, s.activity i = .loaded X) ∨ ∃ slot < cfg.queueCapacity, s.slots slot = some X

section

omit [Fintype Page] [Fintype Thread] [Fintype Buf]

omit [DecidableEq Buf] in
/-- A step of a thread that has no loaded page. -/
theorem Covered.quiet (h : s.Covered cfg) (hl : s.Locks) (he : PageEffect s s' i)
    (hs : SlotEffect s s' i) (hresident : ∀ X, s'.resident X = true → s.resident X = true)
    (hloaded : ∀ X, s.activity i ≠ .loaded X) : s'.Covered cfg := by
  intro X hX
  rcases h X (hresident X hX) with ⟨j, hj⟩ | ⟨slot, hslot, hentry⟩
  · have hne : j ≠ i := by
      rintro rfl
      exact hloaded X hj
    exact .inl ⟨j, by rw [activity_of_ne he hne, hj]⟩
  refine .inr ⟨slot, hslot, hs.keeps hentry fun hgone => ?_⟩
  -- a page that is gone is not resident
  have habsent : s.resident X = false := by
    rcases hgone with hheld | hevicted
    · exact hl.fits i X .absent hheld
    · exact hl.evicted X hevicted
  rw [hresident X hX] at habsent
  cases habsent

theorem resident_of_transition (ht : Transition cfg s i act s') (hfree : s.LocksFree (i, act))
    (hlost : ∀ b, ¬(s.buffers b).LostPage) (hload : act ≠ .load) :
    ∀ X, s'.resident X = true → s.resident X = true := by
  have hrelease : ∀ Y X, update s.resident Y false X = true → s.resident X = true := by
    intro Y X h
    rw [update_apply] at h
    split at h
    · cases h
    · exact h
  cases ht with
  | load => exact absurd rfl hload
  | releaseRemove | releaseVictim => exact hrelease _
  | spill =>
    obtain ⟨_, hgroup, -⟩ := spillGroup_of_not_paged cfg hfree hlost
    rw [hgroup]
    exact fun _ h => h
  | _ => exact fun _ h => h

/-- A loaded page is inserted next. -/
theorem insert_of_loaded (ht : Transition cfg s i act s') (hloaded : s.activity i = .loaded X) :
    (∃ slot, act = .insert slot) ∨ act = .insertFull := by
  cases ht <;> simp_all

omit [DecidableEq Buf] in
theorem Covered.load (h : s.Covered cfg) (hgranted : s.activity i = .granted (.pin X)) :
    ((((s.setWord X (s.word X).clearDirty).changeFrame X).setResident X true).goto i
      (.loaded X)).Covered cfg := by
  intro Y hY
  by_cases hYX : Y = X
  · subst Y
    exact .inl ⟨i, update_self ..⟩
  have hresident : s.resident Y = true := (update_of_ne hYX ..).symm.trans hY
  rcases h Y hresident with ⟨j, hj⟩ | hentry
  · have hne : j ≠ i := by
      rintro rfl
      rw [hj] at hgranted
      cases hgranted
    exact .inl ⟨j, (update_of_ne hne ..).trans hj⟩
  · exact .inr hentry

omit [DecidableEq Buf] in
theorem Covered.insert (h : s.Covered cfg) {slot : Nat} (hloaded : s.activity i = .loaded X)
    (hempty : s.slots slot = none) (hslot : slot < cfg.queueCapacity) :
    ((s.setSlot slot (some X)).goto i (.inserted X)).Covered cfg := by
  intro Y hY
  by_cases hYX : Y = X
  · subst Y
    exact .inr ⟨slot, hslot, update_self ..⟩
  rcases h Y hY with ⟨j, hj⟩ | ⟨slot', hslot', hentry⟩
  · have hne : j ≠ i := by
      rintro rfl
      rw [hj] at hloaded
      cases hloaded
      exact hYX rfl
    exact .inl ⟨j, (update_of_ne hne ..).trans hj⟩
  · have hne : slot' ≠ slot := by
      rintro rfl
      rw [hentry] at hempty
      cases hempty
    exact .inr ⟨slot', hslot', (update_of_ne hne ..).trans hentry⟩

end

theorem Covered.transition (h : s.Covered cfg) (ht : Transition cfg s i act s')
    (hfree : s.MemoryFree (i, act)) (hinv : s.MemoryInv cfg)
    (hroom : ∀ X, s.activity i = .loaded X → s.queueSize < cfg.queueCapacity) :
    s'.Covered cfg := by
  rcases eq_or_ne act .load with rfl | hload
  · cases ht with
    | load hgranted => exact h.load hgranted
  by_cases hloaded : ∃ X, s.activity i = .loaded X
  · obtain ⟨X, hX⟩ := hloaded
    rcases insert_of_loaded ht hX with ⟨_, rfl⟩ | rfl
    · cases ht with
      | insert hloaded hempty hslot => exact h.insert hloaded hempty hslot
    · cases ht with
      | insertFull _ hfull => exact absurd (hroom X hX) hfull
  · exact h.quiet hinv.locks (pageEffect_of_transition ht hfree.1 hinv.lost)
      (slotEffect_of_transition ht hfree hinv.lost (hinv.sound i))
      (resident_of_transition ht hfree.1 hinv.lost hload) (fun X hX => hloaded ⟨X, hX⟩)

/-! ## Runs -/

/-- Everything that a run keeps about the queue. -/
structure QueueInv (cfg : Config Page) (s : State Page Thread Buf) : Prop extends
    s.MemoryInv cfg where
  fits : s.Fits cfg
  stale : s.stale ≤ cfg.slack
  covered : s.Covered cfg
  returns : ∀ i, (s.activity i).throws = false

omit [Fintype Page] [Fintype Thread] [Fintype Buf] [DecidableEq Page] [DecidableEq Buf] in
theorem returns_goto (h : a.throws = false) : ((s.goto i a).activity i).throws = false := by
  have hself : (s.goto i a).activity i = a := update_self ..
  rw [hself, h]

section

variable (h : s.QueueInv cfg) (ht : Transition cfg s i act s') (hfree : s.QueueFree cfg (i, act))

include h ht hfree

theorem QueueInv.returns_self : (s'.activity i).throws = false := by
  have hsound := h.sound i
  have hkeeps := hfree.2
  cases ht with
  | writePinned hpinned | writeBuffered hbuffered | clearMark hidle | copyUpdate hupdating
  | mark | freeReloaded => exact h.returns i
  | insertFull hloaded hfull =>
    exact absurd (queueSize_lt_of_loaded h.fits h.stale hloaded) hfull
  | loadVictimEmpty hreleased hslot =>
    rw [hreleased] at hsound
    cases hslot.symm.trans hsound.2
  | clearVictimOther hclearing hslot =>
    rw [hclearing] at hsound
    obtain ⟨-, hkeeps, rfl⟩ := hsound
    exact absurd hkeeps hslot
  | loadFoundEmpty hfound hslot =>
    simp only [keepsQueue, hfound, hslot] at hkeeps
    cases hkeeps
  | clearFoundOther hclearing hslot =>
    simp only [keepsQueue, hclearing, decide_eq_true_eq] at hkeeps
    exact absurd hkeeps.1 hslot
  | _ => exact returns_goto rfl

theorem QueueInv.transition : s'.QueueInv cfg := by
  have hmemory := h.toMemoryInv
  refine ⟨⟨hmemory.toPlacesInv.transition ht hfree.1,
    hmemory.balanced.transition ht hfree.1 hmemory.toLocksInv (hmemory.sound i)⟩,
    h.fits.transition ht hfree.1 hmemory, ?_, ?_, ?_⟩
  · rcases stale_transition ht hfree.1 hmemory.toPlacesInv with hstale | ⟨rfl, hstale⟩
    · exact hstale.trans h.stale
    · have hroom : s.stale < cfg.slack := of_decide_eq_true hfree.2
      omega
  · exact h.covered.transition ht hfree.1 hmemory (fun X => queueSize_lt_of_loaded h.fits h.stale)
  · intro j
    by_cases hj : j = i
    · subst j
      exact h.returns_self ht hfree
    · rw [activity_of_ne (pageEffect_of_transition ht hfree.1.1 h.lost) hj]
      exact h.returns j

end

omit [DecidableEq Page] [DecidableEq Thread] [DecidableEq Buf] in
theorem queueInv_init : (init cfg : State Page Thread Buf).QueueInv cfg where
  toMemoryInv := ⟨placesInv_init, balanced_init⟩
  fits := fits_init
  stale := by
    have hqueue := cfg.queueMemory_le
    have hslack : 0 ≤ cfg.slack := by
      unfold Config.slack Config.queueCapacity Config.batchSize
      omega
    simpa [stale, init, entriesOfCalls, residentPages, Activity.entries] using hslack
  covered := fun X h => (by cases h)
  returns := fun _ => rfl

end

end State

/-- In every run whose steps all meet the condition, every resident page that no thread is
just pinning has an entry in the queue, no call reaches the unreachable branch of `clear`,
and no pin fails because the queue is full. -/
theorem eviction_queue_covers [Fintype Page] [Fintype Thread] [Fintype Buf] [DecidableEq Page]
    [DecidableEq Thread] [DecidableEq Buf] (cfg : Config Page) (s : State Page Thread Buf)
    (h : Reachable (State.step cfg) (State.init cfg) (State.QueueFree cfg) s) :
    (∀ X, s.resident X = true → (∀ i, s.activity i ≠ .loaded X) →
      ∃ slot < cfg.queueCapacity, s.slots slot = some X) ∧
    (∀ i pages, s.activity i ≠ .unreachable pages) ∧ ∀ i X, s.activity i ≠ .queueFull X := by
  have hinv : s.QueueInv cfg := by
    refine h.invariant (State.QueueInv cfg) State.queueInv_init ?_
    intro s call s' h hfree hs
    exact h.transition (transition_of_stepOf hs) hfree
  refine ⟨?_, ?_, ?_⟩
  · intro X hX hpinning
    rcases hinv.covered X hX with ⟨i, hi⟩ | hentry
    · exact absurd hi (hpinning i)
    · exact hentry
  · intro i pages hi
    have hreturns := hinv.returns i
    rw [hi] at hreturns
    cases hreturns
  · intro i X hi
    have hreturns := hinv.returns i
    rw [hi] at hreturns
    cases hreturns

end

/-- A page is evicted for another one, which is removed; the entry it leaves is cleared by
`removeEvictedCandidates`, and the first page is pinned again. -/
theorem eviction_queue_covers_sample : ∃ s : State (Fin 2) (Fin 2) (Fin 1),
      Reachable (State.step smallPool) (State.init smallPool) (State.QueueFree smallPool) s ∧
        s.resident 0 = true ∧ s.queueSize = 1 ∧
        ∃ slot < smallPool.queueCapacity, s.slots slot = some 0 := by
  refine exists_reachable_of_run
    (pinSteps 0 0 0 (reserveSteps 0) ++ [(0, .unpin)] ++ pinSteps 0 1 1 (reserveEvictSteps 0 0 0) ++
      [(0, .unpin), (0, .checkRemove 1)] ++ removeSteps 0 ++
      [(1, .findEvicted 1 1), (1, .loadFound), (1, .clearFound), (1, .countCleared)] ++
      pinSteps 0 0 2 (reserveSteps 0))
    (fun s => s.resident 0 = true ∧ s.queueSize = 1 ∧ ∀ i, s.activity i ≠ .loaded 0)
    (by decide +kernel) ?_
  rintro s hs ⟨hresident, hsize, hpinning⟩
  exact ⟨hresident, hsize, (eviction_queue_covers smallPool s hs).1 0 hresident hpinning⟩

/-- An allocation that is too large clears the slot of the page `Y`, which is evicted. -/
def clearStaleSteps {Page Thread : Type} (i : Thread) (Y : Page) (slot : Nat) :
    List (Thread × Action Page (Fin 1)) :=
  [(i, .startMalloc 0 9000), (i, .checkMemory), (i, .lockStale slot Y), (i, .clearStale),
    (i, .countStale), (i, .resetStale), (i, .giveUp), (i, .reserveFail), (i, .creditNonEvictable)]

/-- A page is pinned into the slot and removed, so that its entry stays. -/
def staleSteps {Page Thread Buf : Type} (i : Thread) (X : Page) (slot : Nat) :
    List (Thread × Action Page Buf) :=
  pinSteps i X slot (reserveSteps i) ++ [(i, .unpin), (i, .checkRemove X)] ++ removeSteps i

/-- A removed page has left an entry, which `removeEvictedCandidates` is about to clear.
(1) The page is pinned again and evicted through that entry: `tryEvictPage` reaches the
unreachable branch.  (2) The entry is cleared by `evictPages`: `removeEvictedCandidates`
reaches it.  (3) The slot is taken by another page, which is then resident without an entry.
(4) A page that is pinned and removed again and again fills the queue. -/
theorem eviction_queue_breaks : (∃ s : State (Fin 2) (Fin 3) (Fin 1),
      Reachable (State.step smallPool) (State.init smallPool) Always s ∧
        s.activity 2 = .unreachable [0, 1]) ∧
    (∃ s : State (Fin 2) (Fin 3) (Fin 1),
      Reachable (State.step smallPool) (State.init smallPool) Always s ∧
        s.activity 1 = .unreachable []) ∧
    (∃ s : State (Fin 2) (Fin 3) (Fin 1),
      Reachable (State.step smallPool) (State.init smallPool) Always s ∧
        (∀ i, s.activity i = .idle) ∧ s.resident 1 = true ∧
        ∀ slot < smallPool.queueCapacity, s.slots slot ≠ some 1) ∧
    ∃ s : State (Fin 2) (Fin 3) (Fin 1),
      Reachable (State.step smallPool) (State.init smallPool) Always s ∧
        s.activity 0 = .queueFull 0 := by
  refine ⟨?_, ?_, ?_, ?_⟩
  · exact reachable_of_run
      (staleSteps 0 0 0 ++ [(1, .findEvicted 0 0)] ++ pinSteps 0 0 1 (reserveSteps 0) ++
        [(0, .unpin), (2, .pinEvicted 1), (2, .startPin), (2, .checkMemory), (2, .mark 0),
          (2, .lockVictim 0 0), (2, .releaseVictim), (1, .loadFound), (1, .clearFound),
          (2, .loadVictim)]) (by decide +kernel)
  · exact reachable_of_run
      (staleSteps 0 0 0 ++ [(1, .findEvicted 0 0)] ++ clearStaleSteps 2 0 0 ++ [(1, .loadFound)])
      (by decide +kernel)
  · -- the queue goes round once before its first slot is taken again
    exact reachable_of_run
      (staleSteps 0 0 0 ++ [(1, .findEvicted 0 0)] ++ clearStaleSteps 2 0 0 ++
        (List.range' 1 63).flatMap (staleSteps 0 0) ++ pinSteps 0 1 0 (reserveSteps 0) ++
        [(0, .unpin), (1, .loadFound), (1, .clearFound), (1, .countCleared)]) (by decide +kernel)
  · exact reachable_of_run
      ((List.range 64).flatMap (staleSteps 0 0) ++ [(0, .pinEvicted 0), (0, .startPin)] ++
        reserveSteps 0 ++ [(0, .load), (0, .insertFull)]) (by decide +kernel)

end Lbug.Buffer
