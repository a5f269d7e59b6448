/-
  Buffer/MemoryBalance.lean --- the memory counters against the memory.

  Every call in progress accounts for a part of the counters (`Activity.used`,
  `Activity.nonEvictable`).  In the runs of `MemoryFree` the counters are the sum of these
  parts and of the memory of the queue, of the resident pages and of the buffers, so they
  never fall below zero and are exact whenever no call is in progress.  The condition says
  that a page is removed only while it is cached, that `removeEvictedCandidates` clears the
  slot of an evicted page only, and that no buffer with a page is spilled.
-/
import Lbug.Foundation.Sums
import Lbug.Buffer.PageLocks

namespace Lbug.Buffer

open Foundation List Function Finset

section

variable {Page Thread Buf : Type} {a : Activity Page Buf}

/-! ## The memory of a call -/

/-- What an eviction has released and not claimed yet. -/
def EvictPhase.isReleased : EvictPhase Page → Bool
  | .stale => false
  | .staleCleared _ => false
  | .staleCounted => false
  | .victim => false
  | .released => true
  | .clearing _ => true
  | .cleared => true
  | .counted => true

section

variable (cfg : Config Page)

def EvictPhase.memory (Y : Page) (phase : EvictPhase Page) : Int :=
  if phase.isReleased then cfg.pageSize Y else 0

/-- The part of `usedMemory` that a call in its loop accounts for. -/
def ReservePhase.memory (size claimed : Nat) : ReservePhase → Int
  | .checking => size + claimed
  | .claiming => size + claimed
  | .spilled _ => size + claimed
  | .crediting => size + claimed
  | .credited => size
  | .failing => size + claimed
  | .refunded => 0

def Activity.used : Activity Page Buf → Int
  | .reserving call c _ phase => phase.memory (cfg.callSize call) c
  | .evicting call c _ _ Y phase => cfg.callSize call + c + phase.memory cfg Y
  | .granted call => cfg.callSize call
  | .freeing size => size
  | .removing X .released => cfg.pageSize X
  | _ => 0

def Activity.nonEvictable : Activity Page Buf → Int
  | .reserving _ _ n _ => n
  | .evicting _ _ n _ _ _ => n
  | .freeing size => size
  | .freed size => size
  | _ => 0

/-- The memory that a call has taken, or claimed and not given back. -/
def Activity.taken : Activity Page Buf → Int
  | .reserving call c _ .crediting =>
    if cfg.callSize call ≤ c then c else cfg.callSize call + c
  | .reserving call _ _ .credited => cfg.callSize call
  | .reserving _ _ _ .refunded => 0
  | .reserving _ c _ _ => c
  | .evicting _ c _ _ Y phase => c + phase.memory cfg Y
  | .granted call => cfg.callSize call
  | _ => 0

def EvictPhase.leaving : EvictPhase Page → Int
  | .released => 1
  | .clearing _ => 1
  | .cleared => 1
  | _ => 0

/-- The entries that are not counted yet, less those that are and whose page is evicted. -/
def Activity.entries : Activity Page Buf → Int
  | .loaded _ => 1
  | .inserted _ => 1
  | .evicting _ _ _ _ _ phase => -phase.leaving
  | _ => 0

/-- No call is in progress; a page may be pinned. -/
def Activity.atRest : Activity Page Buf → Bool
  | .idle => true
  | .pinned _ => true
  | .buffered _ _ => true
  | .queueFull _ => true
  | .unreachable _ => true
  | _ => false

theorem Activity.used_of_atRest (h : a.atRest = true) : a.used cfg = 0 ∧ a.nonEvictable = 0 := by
  cases a <;> first | exact ⟨rfl, rfl⟩ | cases h

theorem EvictPhase.memory_nonneg (Y : Page) (phase : EvictPhase Page) : 0 ≤ phase.memory cfg Y := by
  unfold EvictPhase.memory
  split <;> omega

theorem Activity.used_nonneg (a : Activity Page Buf) : 0 ≤ a.used cfg := by
  cases a with
  | reserving _ _ _ phase => cases phase <;> simp only [used, ReservePhase.memory] <;> omega
  | evicting _ _ _ _ Y phase =>
    have hphase := phase.memory_nonneg cfg Y
    simp only [used]
    omega
  | removing _ phase => cases phase <;> simp only [used] <;> omega
  | _ => simp only [used]; omega

end

theorem Activity.nonEvictable_nonneg (a : Activity Page Buf) : 0 ≤ a.nonEvictable := by
  cases a <;> simp only [nonEvictable] <;> omega

/-- The memory of a buffer of `malloc` that is not spilled. -/
def BufferState.mallocedSize : BufferState Page Thread → Nat
  | .malloced size => size
  | _ => 0

/-- What an eviction that has released its page finds in the slot. -/
def EvictPhase.Keeps (Y : Page) (candidate : Option Page) : EvictPhase Page → Prop
  | .released => candidate = some Y
  | .clearing Z => candidate = some Y ∧ Z = Y
  | _ => True

/-- A call of thread `i` is where it should be: what it claimed from buffers is part of what
it claimed, and the page, slot or buffer it works on is in the state it left it in. -/
def Activity.Sound (s : State Page Thread Buf) (i : Thread) : Activity Page Buf → Prop
  | .reserving _ c n phase => n ≤ c ∧ ∀ evictable, phase = .spilled evictable → evictable = 0
  | .evicting _ c n slot Y phase => n ≤ c ∧ phase.Keeps Y (s.slots slot)
  | .removing X .locked => s.resident X = true
  | .buffered b X => s.buffers b = .paged i X
  | .unreachable pages => pages = []
  | _ => True

/-! ## Totals -/

def residentMemory [Fintype Page] (cfg : Config Page) (resident : Page → Bool) : Int :=
  ∑ X, if resident X then (cfg.pageSize X : Int) else 0

def residentPages [Fintype Page] (resident : Page → Bool) : Int :=
  ∑ X, if resident X then 1 else 0

def mallocedMemory [Fintype Buf] (buffers : Buf → BufferState Page Thread) : Int :=
  ∑ b, ((buffers b).mallocedSize : Int)

def usedByCalls [Fintype Thread] (cfg : Config Page)
    (activity : Thread → Activity Page Buf) : Int :=
  ∑ i, (activity i).used cfg

def nonEvictableOfCalls [Fintype Thread] (activity : Thread → Activity Page Buf) : Int :=
  ∑ i, (activity i).nonEvictable

theorem residentMemory_nonneg [Fintype Page] (cfg : Config Page) (resident : Page → Bool) :
    0 ≤ residentMemory cfg resident := by
  apply Finset.sum_nonneg
  intro X _
  split <;> omega

theorem mallocedMemory_nonneg [Fintype Buf] (buffers : Buf → BufferState Page Thread) :
    0 ≤ mallocedMemory buffers :=
  sum_nonneg fun _ _ => Int.natCast_nonneg _

variable [DecidableEq Page] [DecidableEq Thread] [DecidableEq Buf]

theorem residentMemory_update [Fintype Page] (cfg : Config Page) (resident : Page → Bool) (X : Page)
    (r : Bool) : residentMemory cfg (update resident X r) = residentMemory cfg resident -
      (if resident X then (cfg.pageSize X : Int) else 0) +
        if r then (cfg.pageSize X : Int) else 0 :=
  sum_update (fun X (r : Bool) => if r then (cfg.pageSize X : Int) else 0) resident X r

theorem residentPages_update [Fintype Page] (resident : Page → Bool) (X : Page)
    (r : Bool) : residentPages (update resident X r) =
      residentPages resident - (if resident X then 1 else 0) + if r then 1 else 0 :=
  sum_update (fun _ (r : Bool) => if r then 1 else 0) resident X r

omit [DecidableEq Page] [DecidableEq Thread] in
theorem mallocedMemory_update [Fintype Buf] (buffers : Buf → BufferState Page Thread) (b : Buf)
    (buffer : BufferState Page Thread) : mallocedMemory (update buffers b buffer) =
      mallocedMemory buffers - (buffers b).mallocedSize + buffer.mallocedSize :=
  sum_update (fun _ buffer => (BufferState.mallocedSize buffer : Int)) buffers b buffer

section

variable [Fintype Thread] (activity : Thread → Activity Page Buf) (i : Thread) (a)

omit [DecidableEq Page] [DecidableEq Buf] in
theorem usedByCalls_update (cfg : Config Page) : usedByCalls cfg (update activity i a) =
    usedByCalls cfg activity - (activity i).used cfg + a.used cfg :=
  sum_update (fun _ => Activity.used cfg) activity i a

omit [DecidableEq Page] [DecidableEq Buf] in
theorem nonEvictableOfCalls_update : nonEvictableOfCalls (update activity i a) =
    nonEvictableOfCalls activity - (activity i).nonEvictable + a.nonEvictable :=
  sum_update (fun _ => Activity.nonEvictable) activity i a

end

/-! ## The condition -/

/-- A page is removed while it is cached, and a slot is cleared while its page is evicted. -/
def State.keepsMemory (s : State Page Thread Buf) (i : Thread) : Action Page Buf → Bool
  | .lockRemove =>
    match s.activity i with
    | .removing X _ => (s.word X).state = .unlocked ∨ (s.word X).state = .marked
    | _ => true
  | .clearFound =>
    match s.activity i with
    | .clearing slot Z => s.slots slot = some Z → (s.word Z).state = .evicted
    | _ => true
  | _ => true

def State.MemoryFree (s : State Page Thread Buf) (call : Thread × Action Page Buf) : Prop :=
  s.LocksFree call ∧ s.keepsMemory call.1 call.2 = true

instance [Fintype Page] (s : State Page Thread Buf) (call : Thread × Action Page Buf) :
    Decidable (s.MemoryFree call) :=
  inferInstanceAs (Decidable (_ ∧ _))

namespace State

variable {cfg : Config Page} {s s' : State Page Thread Buf} {i j : Thread} {X : Page}
  {act : Action Page Buf} {slot : Nat} {b : Buf}

/-! ## Places of pages, slots and buffers -/

omit [DecidableEq Buf] in
/-- A step of another thread leaves a held page where it is. -/
theorem Locks.resident_of_held (hl : s.Locks) (he : PageEffect s s' i) (hj : j ≠ i) {h : Hold}
    (hheld : (X, h) ∈ (s.activity j).held) : s'.resident X = s.resident X := by
  cases he with
  | change Y k k' rest a w resident hstate hversion hfits htouched hheldY hheldY' hword hframe
      hresident hactivity =>
    have hY : X ≠ Y := by
      rintro rfl
      have hmem : (X, k) ∈ (s.activity i).held := by rw [hheldY]; exact mem_cons_self
      exact hj (hl.unique j i X h k hheld hmem)
    rw [hresident, update_of_ne hY]
  | quiet _ _ _ hresident | lock _ _ _ _ _ _ _ hresident
  | release _ _ _ _ _ _ _ _ _ _ hresident | abort _ _ _ _ _ _ hresident
  | remark _ _ _ _ _ _ _ hresident | read _ _ _ _ hresident => rw [hresident]

/-- The effect of a step of thread `i` on the slots of the queue. -/
inductive SlotEffect (s s' : State Page Thread Buf) (i : Thread) : Prop
  | same (hslots : s'.slots = s.slots)
  | fill (slot : Nat) (X : Page) (hempty : s.slots slot = none)
      (hslots : s'.slots = update s.slots slot (some X))
  /-- the page is not resident, and no other thread holds it -/
  | clear (slot : Nat) (Y : Page) (hslot : s.slots slot = some Y)
      (hgone : (Y, .absent) ∈ (s.activity i).held ∨ (s.word Y).state = .evicted)
      (hslots : s'.slots = update s.slots slot none)

theorem slotEffect_of_transition (ht : Transition cfg s i act s') (hfree : s.MemoryFree (i, act))
    (hlost : ∀ b, ¬(s.buffers b).LostPage) (hsound : (s.activity i).Sound s i) :
    SlotEffect s s' i := by
  cases ht with
  | insert _ hempty => exact .fill _ _ hempty rfl
  | clearStale hstale hslot =>
    refine .clear _ _ hslot (.inl ?_) rfl
    rw [hstale]
    exact mem_cons_self
  | @clearVictim _ _ _ _ _ _ hclearing hslot =>
    rw [hclearing] at hsound
    obtain ⟨-, hkeeps, rfl⟩ := hsound
    refine .clear _ _ hslot (.inl ?_) rfl
    rw [hclearing]
    exact mem_cons_self
  | clearFound hclearing hslot =>
    have hevicted := hfree.2
    simp only [keepsMemory, hclearing, decide_eq_true_eq] at hevicted
    exact .clear _ _ hslot (.inr (hevicted hslot)) rfl
  | spill =>
    obtain ⟨_, hgroup, -, -⟩ := spillGroup_of_not_paged cfg hfree.1 hlost
    rw [hgroup]
    exact .same rfl
  | _ => exact .same rfl

omit [DecidableEq Page] [DecidableEq Thread] [DecidableEq Buf] in
/-- A slot keeps its page unless the page is gone. -/
theorem SlotEffect.keeps (he : SlotEffect s s' i) (hslot : s.slots slot = some X)
    (hkept : ¬((X, .absent) ∈ (s.activity i).held ∨ (s.word X).state = .evicted)) :
    s'.slots slot = some X := by
  cases he with
  | same hslots => rw [hslots, hslot]
  | fill slot' _ hempty hslots =>
    have hne : slot ≠ slot' := by
      rintro rfl
      rw [hslot] at hempty
      cases hempty
    rw [hslots, update_of_ne hne, hslot]
  | clear slot' _ hslot' hgone hslots =>
    have hne : slot ≠ slot' := by
      rintro rfl
      cases hslot.symm.trans hslot'
      exact hkept hgone
    rw [hslots, update_of_ne hne, hslot]

omit [DecidableEq Page] [DecidableEq Thread] [DecidableEq Buf] in
/-- The slot of a page that thread `j` holds is left alone by the others. -/
theorem Locks.keeps (hl : s.Locks) (he : SlotEffect s s' i) (hj : j ≠ i) {Y : Page} {h : Hold}
    (hheld : (Y, h) ∈ (s.activity j).held) (hslot : s.slots slot = some Y) :
    s'.slots slot = some Y := by
  refine he.keeps hslot ?_
  rintro (hheld' | hevicted)
  · exact hj (hl.unique j i Y h .absent hheld hheld')
  · exact hl.not_held (by rw [hevicted]; decide) j h hheld

/-- The buffer of a page that thread `j` holds is left alone by the others. -/
theorem paged_of_transition (ht : Transition cfg s i act s') (hfree : s.LocksFree (i, act))
    (hlost : ∀ b, ¬(s.buffers b).LostPage) (hsound : (s.activity i).Sound s i) (hj : j ≠ i)
    (hpaged : s.buffers b = .paged j X) : s'.buffers b = .paged j X := by
  have hset : ∀ (b' : Buf) (buffer : BufferState Page Thread), s.buffers b' ≠ .paged j X →
      update s.buffers b' buffer b = .paged j X := by
    intro b' buffer hother
    have hne : b ≠ b' := by
      rintro rfl
      exact hother hpaged
    rw [update_of_ne hne, hpaged]
  cases ht with
  | finishMalloc hgranted hbuffer | allocPaged hgranted hbuffer | finishReload hgranted hbuffer
  | finishReloadPage hgranted hbuffer | freeMalloced hgranted hbuffer
  | freeReloaded _ hbuffer => exact hset _ _ (by rw [hbuffer]; nofun)
  | freePaged hbuffered =>
    rw [hbuffered] at hsound
    refine hset _ _ ?_
    rw [show s.buffers _ = _ from hsound]
    intro heq
    cases heq
    exact hj rfl
  | spill =>
    obtain ⟨_, hgroup, -, -, hsame⟩ := spillGroup_of_not_paged cfg hfree hlost
    rw [hgroup]
    exact (hsame b (by rw [hpaged]; rfl)).trans hpaged
  | _ => exact hpaged

theorem claimedBySpill_zero (freed : Nat) : claimedBySpill freed 0 = freed := by
  unfold claimedBySpill
  split <;> omega

omit [DecidableEq Page] [DecidableEq Buf] in
theorem sound_goto (h : a.Sound (s.goto i a) i) :
    ((s.goto i a).activity i).Sound (s.goto i a) i := by
  have hself : (s.goto i a).activity i = a := update_self ..
  rw [hself]
  exact h

section

variable (ht : Transition cfg s i act s') (hfree : s.MemoryFree (i, act)) (hinv : s.LocksInv)
  (hsound : (s.activity i).Sound s i)

include ht hfree hinv hsound

/-- The thread that takes the step. -/
theorem sound_self : (s'.activity i).Sound s' i := by
  cases ht with
  | lockRemove hchecked =>
    have hcached := hfree.2
    simp only [keepsMemory, hchecked, decide_eq_true_eq] at hcached
    exact sound_goto (hinv.locks.cached _ hcached)
  | writePinned hold | clearMark hold | copyUpdate hold | freeReloaded hold =>
    show (s.activity i).Sound _ i
    rw [hold]
    trivial
  | writeBuffered hold | mark hold =>
    rw [hold] at hsound
    show (s.activity i).Sound _ i
    rw [hold]
    exact hsound
  | allocPaged => exact sound_goto (update_self ..)
  | needMemory hold | enoughMemory hold | checkAgain hold | giveUp hold | reserveDone hold
  | reserveFail hold | countEvictable hold | resetStale hold | abortVictim hold =>
    rw [hold] at hsound
    exact sound_goto ⟨hsound.1, nofun⟩
  | startPin | startMalloc | startReload | startReloadPage =>
    exact sound_goto ⟨le_rfl, nofun⟩
  | lockStale hold | lockVictim hold | clearStale hold | keepStale hold | countStale hold
  | clearVictim hold | countVictim hold =>
    rw [hold] at hsound
    exact sound_goto ⟨hsound.1, trivial⟩
  | resetVictim hcounted =>
    rw [hcounted] at hsound
    exact sound_goto ⟨hsound.1.trans (Nat.le_add_right ..), nofun⟩
  | releaseVictim hvictim hslot =>
    rw [hvictim] at hsound
    exact sound_goto ⟨hsound.1, hslot.1⟩
  | @loadVictim slot Y Z _ _ _ hreleased hslot =>
    rw [hreleased] at hsound
    have hkeeps : s.slots slot = some Y := hsound.2
    have hZ : Z = Y := Option.some.inj (hslot.symm.trans hkeeps)
    exact sound_goto ⟨hsound.1, hkeeps, hZ⟩
  | @loadVictimEmpty slot Y _ _ _ hreleased hslot =>
    rw [hreleased] at hsound
    cases hslot.symm.trans (show s.slots slot = some Y from hsound.2)
  | clearVictimOther hclearing hslot =>
    rw [hclearing] at hsound
    obtain ⟨-, hkeeps, rfl⟩ := hsound
    exact absurd hkeeps hslot
  | @spill group _ _ _ hreserving =>
    rw [hreserving] at hsound
    obtain ⟨_, -, hzero, -, -⟩ := spillGroup_of_not_paged cfg hfree.1 hinv.lost
    refine sound_goto ⟨?_, ?_⟩
    · have hclaimed := claimedBySpill_zero (s.spillGroup cfg group).2.1
      rw [hzero, hclaimed]
      exact Nat.add_le_add_right hsound.1 _
    · intro evictable heq
      cases heq
      exact hzero
  | loadFoundEmpty | clearFoundOther => exact sound_goto rfl
  | _ => exact sound_goto trivial

/-- The other threads. -/
theorem sound_other (hj : j ≠ i) (h : (s.activity j).Sound s j) : (s.activity j).Sound s' j := by
  have he := pageEffect_of_transition ht hfree.1 hinv.lost
  have hs := slotEffect_of_transition ht hfree hinv.lost hsound
  cases hactivity : s.activity j with
  | reserving | unreachable =>
    rw [hactivity] at h
    exact h
  | evicting _ _ _ _ Y phase =>
    rw [hactivity] at h
    have hheld : (Y, phase.hold) ∈ (s.activity j).held := by
      rw [hactivity]
      exact mem_cons_self
    refine ⟨h.1, ?_⟩
    cases phase with
    | released => exact hinv.locks.keeps hs hj hheld h.2
    | clearing => exact ⟨hinv.locks.keeps hs hj hheld h.2.1, h.2.2⟩
    | _ => trivial
  | removing X phase =>
    rw [hactivity] at h
    cases phase with
    | locked =>
      have hheld : (X, Hold.unknown) ∈ (s.activity j).held := by
        rw [hactivity]
        exact mem_cons_self
      exact (hinv.locks.resident_of_held he hj hheld).trans h
    | _ => trivial
  | buffered =>
    rw [hactivity] at h
    exact paged_of_transition ht hfree.1 hinv.lost hsound hj h
  | _ => trivial

end

omit [DecidableEq Buf] in
/-- The other threads are where they were. -/
theorem activity_of_ne (he : PageEffect s s' i) (hj : j ≠ i) : s'.activity j = s.activity j := by
  cases he with
  | remark _ _ _ _ _ _ _ _ hactivity => rw [hactivity]
  | quiet _ _ _ _ hactivity | lock _ _ _ _ _ _ _ _ hactivity
  | change _ _ _ _ _ _ _ _ _ _ _ _ _ _ _ _ hactivity | release _ _ _ _ _ _ _ _ _ _ _ hactivity
  | abort _ _ _ _ _ _ _ hactivity | read _ _ _ _ _ hactivity =>
    rw [hactivity, update_of_ne hj]

/-- The places of all threads. -/
structure PlacesInv (s : State Page Thread Buf) : Prop extends s.LocksInv where
  sound : ∀ i, (s.activity i).Sound s i

omit [DecidableEq Page] [DecidableEq Thread] [DecidableEq Buf] in
theorem placesInv_init : (init cfg : State Page Thread Buf).PlacesInv :=
  ⟨locksInv_init, fun _ => trivial⟩

theorem PlacesInv.transition (h : s.PlacesInv) (ht : Transition cfg s i act s')
    (hfree : s.MemoryFree (i, act)) : s'.PlacesInv := by
  refine ⟨h.toLocksInv.transition ht hfree.1, fun j => ?_⟩
  by_cases hj : j = i
  · subst j
    exact sound_self ht hfree h.toLocksInv (h.sound i)
  · rw [activity_of_ne (pageEffect_of_transition ht hfree.1 h.lost) hj]
    exact sound_other ht hfree h.toLocksInv (h.sound i) hj (h.sound j)

/-! ## The balance -/

section

variable [Fintype Page] [Fintype Thread] [Fintype Buf] {a' : Activity Page Buf}

/-- The counters are the sums of what they count. -/
structure Balanced (cfg : Config Page) (s : State Page Thread Buf) : Prop where
  used : s.usedMemory = cfg.queueMemory + residentMemory cfg s.resident +
    mallocedMemory s.buffers + usedByCalls cfg s.activity
  nonEvictable : s.nonEvictableMemory = mallocedMemory s.buffers + nonEvictableOfCalls s.activity

omit [DecidableEq Page] [DecidableEq Thread] [DecidableEq Buf] in
theorem balanced_init : (init cfg : State Page Thread Buf).Balanced cfg where
  used := by
    simp [init, residentMemory, mallocedMemory, usedByCalls, BufferState.mallocedSize,
      Activity.used]
  nonEvictable := by
    simp [init, mallocedMemory, nonEvictableOfCalls, BufferState.mallocedSize,
      Activity.nonEvictable]

/-- What a step of thread `i` does to what the counters count: the memory changes by `r` in
pages and by `m` in buffers, and `d` pages are loaded. -/
structure CounterEffect (cfg : Config Page) (act : Action Page Buf) (s s' : State Page Thread Buf)
    (i : Thread) (a a' : Activity Page Buf) (r m d : Int) : Prop where
  old : s.activity i = a
  activity : s'.activity = update s.activity i a'
  resident : residentMemory cfg s'.resident = residentMemory cfg s.resident + r
  pages : residentPages s'.resident = residentPages s.resident + d
  buffers : mallocedMemory s'.buffers = mallocedMemory s.buffers + m
  used : s'.usedMemory + a.used cfg = s.usedMemory + r + m + a'.used cfg
  nonEvictable : s'.nonEvictableMemory + a.nonEvictable =
    s.nonEvictableMemory + m + a'.nonEvictable
  /-- `reserve` may also find memory that is free -/
  taken : act ≠ .checkMemory → r + m + a'.taken cfg ≤ a.taken cfg
  /-- a page that is removed leaves its entry -/
  entries : s'.queueSize + a'.entries ≤ s.queueSize + a.entries + d ∨
    act = .releaseRemove ∧ s'.queueSize + a'.entries ≤ s.queueSize + a.entries + d + 1

section

variable (hold : s.activity i = a) (hactivity : s'.activity = update s.activity i a')

include hold hactivity

omit [DecidableEq Page] [DecidableEq Buf] [Fintype Thread] in
/-- A step that changes neither pages nor buffers. -/
theorem counterEffect_call (hresident : s'.resident = s.resident)
    (hbuffers : s'.buffers = s.buffers)
    (hused : s'.usedMemory + a.used cfg = s.usedMemory + a'.used cfg)
    (hnonEvictable : s'.nonEvictableMemory + a.nonEvictable =
      s.nonEvictableMemory + a'.nonEvictable)
    (htaken : act ≠ .checkMemory → a'.taken cfg ≤ a.taken cfg)
    (hentries : s'.queueSize + a'.entries ≤ s.queueSize + a.entries) :
    ∃ a a' r m d, CounterEffect cfg act s s' i a a' r m d := by
  refine ⟨a, a', 0, 0, 0, hold, hactivity, ?_, ?_, ?_, ?_, ?_, fun hact => ?_, .inl ?_⟩
  · rw [hresident, add_zero]
  · rw [hresident, add_zero]
  · rw [hbuffers, add_zero]
  · rw [add_zero, add_zero, hused]
  · rw [add_zero, hnonEvictable]
  · rw [add_zero, zero_add]
    exact htaken hact
  · rw [add_zero]
    exact hentries

omit [DecidableEq Buf] [Fintype Thread] in
/-- A step that loads or releases the page `X`. -/
theorem counterEffect_page {r : Bool} (hresident : s'.resident = update s.resident X r)
    (hbuffers : s'.buffers = s.buffers)
    (hused : s'.usedMemory + (if s.resident X then (cfg.pageSize X : Int) else 0) + a.used cfg =
      s.usedMemory + (if r then (cfg.pageSize X : Int) else 0) + a'.used cfg)
    (hnonEvictable : s'.nonEvictableMemory + a.nonEvictable =
      s.nonEvictableMemory + a'.nonEvictable)
    (htaken : (if r then (cfg.pageSize X : Int) else 0) + a'.taken cfg ≤
      (if s.resident X then (cfg.pageSize X : Int) else 0) + a.taken cfg)
    (hentries : s'.queueSize + a'.entries ≤
        s.queueSize + a.entries + ((if r then 1 else 0) - if s.resident X then 1 else 0) ∨
      act = .releaseRemove ∧ s'.queueSize + a'.entries ≤
        s.queueSize + a.entries + ((if r then 1 else 0) - if s.resident X then 1 else 0) + 1) :
    ∃ a a' r m d, CounterEffect cfg act s s' i a a' r m d := by
  refine ⟨a, a', (if r then (cfg.pageSize X : Int) else 0) -
    if s.resident X then (cfg.pageSize X : Int) else 0, 0, (if r then 1 else 0) -
    if s.resident X then 1 else 0, hold, hactivity, ?_, ?_, ?_, ?_, ?_, fun _ => ?_, ?_⟩
  · rw [hresident, residentMemory_update]
    omega
  · rw [hresident, residentPages_update]
    omega
  · rw [hbuffers, add_zero]
  · omega
  · rw [add_zero, hnonEvictable]
  · omega
  · exact hentries

omit [Fintype Thread] [DecidableEq Page] in
/-- A step that changes the buffer `b`. -/
theorem counterEffect_buffer {old new : BufferState Page Thread} (hb : s.buffers b = old)
    (hresident : s'.resident = s.resident) (hbuffers : s'.buffers = update s.buffers b new)
    (hused : s'.usedMemory + old.mallocedSize + a.used cfg =
      s.usedMemory + new.mallocedSize + a'.used cfg)
    (hnonEvictable : s'.nonEvictableMemory + old.mallocedSize + a.nonEvictable =
      s.nonEvictableMemory + new.mallocedSize + a'.nonEvictable)
    (htaken : new.mallocedSize + a'.taken cfg ≤ old.mallocedSize + a.taken cfg)
    (hentries : s'.queueSize + a'.entries ≤ s.queueSize + a.entries) :
    ∃ a a' r m d, CounterEffect cfg act s s' i a a' r m d := by
  refine ⟨a, a', 0, (new.mallocedSize : Int) - old.mallocedSize, 0, hold, hactivity, ?_, ?_, ?_,
    ?_, ?_, fun _ => ?_, .inl (by omega)⟩
  · rw [hresident, add_zero]
  · rw [hresident, add_zero]
  · rw [hbuffers, mallocedMemory_update, hb]
    omega
  · omega
  · omega
  · omega

end

section

omit [Fintype Page] [Fintype Thread]

theorem mallocedMemory_foldl_spillBuffer (cfg : Config Page) (group : List Buf)
    (x : State Page Thread Buf × Nat × Nat) :
    mallocedMemory (group.foldl (spillBuffer cfg) x).1.buffers +
      ((group.foldl (spillBuffer cfg) x).2.1 : Int) = mallocedMemory x.1.buffers + x.2.1 := by
  induction group generalizing x with
  | nil => rfl
  | cons b _ ih =>
    rw [foldl_cons, ih]
    cases hbuffer : x.1.buffers b with
    | malloced =>
      simp only [spillBuffer, hbuffer, setBuffer, mallocedMemory_update, BufferState.mallocedSize]
      omega
    | paged =>
      simp only [spillBuffer, hbuffer, setBuffer, goto, setWord, mallocedMemory_update,
        BufferState.mallocedSize]
      omega
    | unallocated | spilled | spilledPage | reloadedPage => simp only [spillBuffer, hbuffer]

/-- Memory that is spilled is memory that is claimed. -/
theorem mallocedMemory_spillGroup (cfg : Config Page) (s : State Page Thread Buf)
    (group : List Buf) :
    mallocedMemory (s.spillGroup cfg group).1.buffers + (s.spillGroup cfg group).2.1 =
      mallocedMemory s.buffers :=
  (mallocedMemory_foldl_spillBuffer cfg group (s, 0, 0)).trans (add_zero _)

end

section

variable (ht : Transition cfg s i act s') (hfree : s.MemoryFree (i, act)) (hinv : s.LocksInv)
  (hsound : (s.activity i).Sound s i)

include ht hfree hinv hsound

omit [Fintype Thread] in
/-- The effect of each step. -/
theorem counterEffect_of_transition : ∃ a a' r m d, CounterEffect cfg act s s' i a a' r m d := by
  cases ht with
  | @load X hgranted =>
    have habsent : s.resident X = false :=
      hinv.locks.fits i X .absent (by rw [hgranted]; exact mem_cons_self)
    refine counterEffect_page hgranted rfl rfl rfl ?_ rfl ?_ (.inl ?_) <;> rw [habsent]
    · simp [goto, setResident, changeFrame, setWord, Activity.used, Config.callSize]
    · simp [Activity.taken, Config.callSize]
    · simp [goto, setResident, changeFrame, setWord, Activity.entries]
  | @releaseRemove X hlocked =>
    rw [hlocked] at hsound
    have hpresent : s.resident X = true := hsound
    refine counterEffect_page hlocked rfl rfl rfl ?_ rfl ?_ (.inr ⟨rfl, ?_⟩) <;> rw [hpresent]
    · simp [goto, releaseFrame, setResident, changeFrame, Activity.used]
    · simp [Activity.taken]
    · simp [goto, releaseFrame, setResident, changeFrame, Activity.entries]
  | @releaseVictim _ Y _ _ _ hvictim =>
    have hpresent : s.resident Y = true :=
      hinv.locks.fits i Y .untouched (by rw [hvictim]; exact mem_cons_self)
    refine counterEffect_page hvictim rfl rfl rfl ?_ rfl ?_ (.inl ?_) <;> rw [hpresent] <;>
      simp only [goto, releaseFrame, setResident, changeFrame, Activity.used, Activity.taken,
        Activity.entries, EvictPhase.leaving, EvictPhase.memory, EvictPhase.isReleased,
        Bool.false_eq_true] <;> omega
  | finishMalloc hgranted hb | finishReload hgranted hb =>
    refine counterEffect_buffer hgranted rfl hb rfl rfl ?_ ?_ ?_ le_rfl
    · simp [goto, setBuffer, addNonEvictable, Activity.used, BufferState.mallocedSize,
        Config.callSize]
    · simp [goto, setBuffer, addNonEvictable, Activity.nonEvictable, BufferState.mallocedSize]
    · simp [Activity.taken, BufferState.mallocedSize, Config.callSize]
  | @finishReloadPage b _ _ _ hb | @freeReloaded b _ _ hb =>
    have hlost := hinv.lost b
    rw [hb] at hlost
    exact absurd trivial hlost
  | freeMalloced hidle hb =>
    refine counterEffect_buffer hidle rfl hb rfl rfl ?_ ?_ ?_ le_rfl
    · simp [goto, setBuffer, Activity.used, BufferState.mallocedSize]
    · simp [goto, setBuffer, Activity.nonEvictable, BufferState.mallocedSize]
    · simp [Activity.taken, BufferState.mallocedSize]
  | allocPaged hpinned hb => exact counterEffect_buffer hpinned rfl hb rfl rfl rfl rfl le_rfl le_rfl
  | freePaged hbuffered =>
    rw [hbuffered] at hsound
    exact counterEffect_buffer hbuffered rfl hsound rfl rfl rfl rfl le_rfl le_rfl
  | @spill group _ _ _ hreserving =>
    obtain ⟨buffers, hgroup, hzero, -, -⟩ := spillGroup_of_not_paged cfg hfree.1 hinv.lost
    have hmalloced := mallocedMemory_spillGroup cfg s group
    rw [hgroup] at hmalloced ⊢
    dsimp only at hmalloced
    rw [hzero, claimedBySpill_zero]
    refine ⟨_, _, 0, -((s.spillGroup cfg group).2.1 : Int), 0, hreserving, rfl, (add_zero _).symm,
      (add_zero _).symm, ?_, ?_, ?_, fun _ => ?_, .inl (add_zero _).symm.le⟩
    · show mallocedMemory buffers = _
      omega
    · simp only [goto, Activity.used, ReservePhase.memory]
      omega
    · simp only [goto, Activity.nonEvictable]
      omega
    · simp only [Activity.taken]
      omega
  | writePinned hpinned | writeBuffered hbuffered | clearMark hidle | copyUpdate hupdating
  | mark =>
    exact counterEffect_call rfl (update_eq_self i s.activity).symm rfl rfl rfl rfl
      (fun _ => le_rfl)
      le_rfl
  | loadVictimEmpty hreleased hslot =>
    rw [hreleased] at hsound
    cases hslot.symm.trans hsound.2
  | clearVictimOther hclearing hslot =>
    rw [hclearing] at hsound
    obtain ⟨-, hkeeps, rfl⟩ := hsound
    exact absurd hkeeps hslot
  | @reserveAtOnce call n hold =>
    rw [hold] at hsound
    have hn : n = 0 := Nat.le_zero.mp hsound.1
    subst n
    refine counterEffect_call hold rfl rfl rfl ?_ rfl (fun _ => ?_) le_rfl
    · simp only [goto, Activity.used, ReservePhase.memory]
      omega
    · simp only [Activity.taken]
      split <;> omega
  | @countEvictable call _ _ evictable hold =>
    rw [hold] at hsound
    obtain rfl := hsound.2 evictable rfl
    refine counterEffect_call hold rfl rfl rfl rfl ?_ (fun _ => le_rfl) le_rfl
    simp only [goto, addNonEvictable, Activity.nonEvictable]
    omega
  | enoughMemory hold =>
    exact counterEffect_call hold rfl rfl rfl rfl rfl (fun hact => absurd rfl hact) le_rfl
  | startPin hold | startMalloc hold | startReload hold | startReloadPage hold | reserveDone hold
  | reserveFail hold | freeUsed hold | freeRemove hold | resetVictim hold =>
    refine counterEffect_call hold rfl rfl rfl ?_ rfl (fun _ => ?_) le_rfl
    · simp only [goto, setWord, addUsed, Activity.used, ReservePhase.memory, EvictPhase.memory,
        EvictPhase.isReleased, Config.callSize, if_true]
      omega
    · simp only [Activity.taken, EvictPhase.memory, EvictPhase.isReleased, if_true]
      omega
  | credit hold | failPin hold | failOther hold | freeNonEvictable hold =>
    refine counterEffect_call hold rfl rfl rfl rfl ?_ (fun _ => le_rfl) le_rfl
    simp only [goto, addNonEvictable, Activity.nonEvictable]
    omega
  | abortVictim hold | resetStale hold =>
    refine counterEffect_call hold rfl rfl rfl rfl rfl (fun _ => ?_) le_rfl
    simp only [Activity.taken, EvictPhase.memory, EvictPhase.isReleased]
    omega
  | @countStale _ _ _ _ _ cleared hold =>
    refine counterEffect_call hold rfl rfl rfl rfl rfl (fun _ => le_rfl) ?_
    cases cleared <;> simp only [goto, addQueueSize, sizeChange, Activity.entries,
      EvictPhase.leaving] <;> omega
  | insertFull hold | countInserted hold | countVictim hold | countCleared hold =>
    refine counterEffect_call hold rfl rfl rfl rfl rfl (fun _ => le_rfl) ?_
    simp only [goto, addQueueSize, Activity.entries, EvictPhase.leaving]
    omega
  | _ =>
    have hold : s.activity i = _ := ‹_›
    exact counterEffect_call hold rfl rfl rfl rfl rfl (fun _ => le_rfl) le_rfl

theorem Balanced.transition (h : s.Balanced cfg) : s'.Balanced cfg := by
  obtain ⟨a, a', r, m, d, he⟩ := counterEffect_of_transition ht hfree hinv hsound
  have hu := h.used
  have hn := h.nonEvictable
  have hused := he.used
  have hnonEvictable := he.nonEvictable
  constructor
  · rw [he.activity, usedByCalls_update, he.old, he.resident, he.buffers]
    omega
  · rw [he.activity, nonEvictableOfCalls_update, he.old, he.buffers]
    omega

end

/-- Everything that a run keeps about memory. -/
structure MemoryInv (cfg : Config Page) (s : State Page Thread Buf) : Prop extends s.PlacesInv where
  balanced : s.Balanced cfg

theorem memoryInv_of_reachable (h : Reachable (step cfg) (init cfg) MemoryFree s) :
    s.MemoryInv cfg := by
  refine h.invariant (MemoryInv cfg) ⟨placesInv_init, balanced_init⟩ ?_
  intro s call s' h hfree hs
  have ht := transition_of_stepOf hs
  exact ⟨h.toPlacesInv.transition ht hfree,
    h.balanced.transition ht hfree h.toLocksInv (h.sound call.1)⟩

omit [DecidableEq Page] [DecidableEq Thread] [DecidableEq Buf] in
theorem Balanced.nonneg (h : s.Balanced cfg) : 0 ≤ s.usedMemory ∧ 0 ≤ s.nonEvictableMemory := by
  have hresident := residentMemory_nonneg cfg s.resident
  have hmalloced := mallocedMemory_nonneg s.buffers
  have hcalls : 0 ≤ usedByCalls cfg s.activity :=
    sum_nonneg fun j _ => (s.activity j).used_nonneg cfg
  have hnonEvictable : 0 ≤ nonEvictableOfCalls s.activity :=
    sum_nonneg fun j _ => (s.activity j).nonEvictable_nonneg
  have hu := h.used
  have hn := h.nonEvictable
  omega

omit [DecidableEq Page] [DecidableEq Thread] [DecidableEq Buf] in
theorem Balanced.at_rest (h : s.Balanced cfg) (hrest : ∀ i, (s.activity i).atRest = true) :
    s.usedMemory = cfg.queueMemory + residentMemory cfg s.resident + mallocedMemory s.buffers ∧
      s.nonEvictableMemory = mallocedMemory s.buffers := by
  have hused : usedByCalls cfg s.activity = 0 :=
    sum_eq_zero fun j _ => (Activity.used_of_atRest cfg (hrest j)).1
  have hnonEvictable : nonEvictableOfCalls s.activity = 0 :=
    sum_eq_zero fun j _ => (Activity.used_of_atRest cfg (hrest j)).2
  exact ⟨by rw [h.used, hused, add_zero], by rw [h.nonEvictable, hnonEvictable, add_zero]⟩

end

end State

/-- In every run whose steps all meet the condition, the counters never fall below zero, and
whenever no call is in progress they are the memory of the queue, of the resident pages and
of the buffers. -/
theorem memory_counters_balanced [Fintype Page] [Fintype Thread] [Fintype Buf] (cfg : Config Page)
    (s : State Page Thread Buf)
    (h : Reachable (State.step cfg) (State.init cfg) State.MemoryFree s) :
    0 ≤ s.usedMemory ∧ 0 ≤ s.nonEvictableMemory ∧ ((∀ i, (s.activity i).atRest = true) →
        s.usedMemory = cfg.queueMemory + residentMemory cfg s.resident + mallocedMemory s.buffers ∧
          s.nonEvictableMemory = mallocedMemory s.buffers) := by
  have hbalanced := (State.memoryInv_of_reachable h).balanced
  exact ⟨hbalanced.nonneg.1, hbalanced.nonneg.2, hbalanced.at_rest⟩

end

/-- `removePageFromFrame` once its page was looked at. -/
def removeSteps {Page Thread Buf : Type} (i : Thread) : List (Thread × Action Page Buf) :=
  [(i, .lockRemove), (i, .releaseRemove), (i, .freeRemove), (i, .resetRemove)]

/-- A pin that spills the buffer 0 and evicts the page 0; its page is removed again. -/
def spillSteps : List (Fin 2 × Action (Fin 2) (Fin 2)) :=
  pinSteps 1 1 1 ([(1, .checkMemory), (1, .spill [0]), (1, .countEvictable)] ++
    evictSteps 1 0 0 ++ reserveSteps 1 ++ [(1, .creditNonEvictable)]) ++
  [(1, .unpin), (0, .checkRemove 1)] ++ removeSteps 0

/-- The buffer is reloaded, and an allocation fails. -/
def reloadSteps : List (Fin 2 × Action (Fin 2) (Fin 2)) :=
  [(0, .startReload 0)] ++ reserveSteps 0 ++
  [(0, .finishMalloc), (1, .startMalloc 1 9000), (1, .checkMemory), (1, .giveUp),
    (1, .reserveFail), (1, .creditNonEvictable)]

/-- A pin spills a buffer and evicts a page; the page it loads is removed again, the buffer
is reloaded, and an allocation fails. -/
theorem memory_counters_balanced_sample : ∃ s : State (Fin 2) (Fin 2) (Fin 2),
      Reachable (State.step smallPool) (State.init smallPool) State.MemoryFree s ∧
        s.buffers 0 = .malloced 3000 ∧ s.resident = (fun _ => false) ∧
        s.usedMemory = smallPool.queueMemory + residentMemory smallPool s.resident +
          mallocedMemory s.buffers ∧
        s.nonEvictableMemory = mallocedMemory s.buffers := by
  refine exists_reachable_of_run
    ([(0, .startMalloc 0 3000)] ++ reserveSteps 0 ++ [(0, .finishMalloc)] ++
      pinSteps 0 0 0 (reserveSteps 0) ++ [(0, .unpin)] ++ spillSteps ++ reloadSteps)
    (fun s => s.buffers 0 = .malloced 3000 ∧ s.resident = (fun _ => false) ∧
      ∀ i, (s.activity i).atRest = true) (by decide +kernel) ?_
  rintro s hs ⟨hbuffer, hresident, hrest⟩
  exact ⟨hbuffer, hresident, (memory_counters_balanced smallPool s hs).2.2 hrest⟩

/-- A pool with temporary pages, of which two fit beside a large buffer only at first. -/
def tempPool : Config (Fin 2) := ⟨1064960, by decide, fun _ => .temp, fun _ => false, true⟩

/-- (1) A page is evicted after `removePageFromFrame` has looked at it and before it locks
it: its memory is given back twice.  (2) Two threads remove one page: `usedMemory` falls
below zero.  (3) A buffer with a page is spilled: `nonEvictableMemory` loses the size of a
page that was never added to it. -/
theorem memory_counters_unbalanced : (∃ s : State (Fin 2) (Fin 3) (Fin 2),
      Reachable (State.step smallPool) (State.init smallPool) Always s ∧
        (∀ i, (s.activity i).atRest = true) ∧ residentMemory smallPool s.resident = 4096 ∧
        s.usedMemory = smallPool.queueMemory) ∧
    (∃ s : State (Fin 2) (Fin 3) (Fin 2),
      Reachable (State.step smallPool) (State.init smallPool) Always s ∧ s.usedMemory = -3584) ∧
    ∃ s : State (Fin 2) (Fin 3) (Fin 2),
      Reachable (State.step tempPool) (State.init tempPool) Always s ∧
        (∀ i, (s.activity i).atRest = true) ∧ mallocedMemory s.buffers = 700000 ∧
        s.nonEvictableMemory = 437856 := by
  refine ⟨?_, ?_, ?_⟩
  · exact reachable_of_run
      (pinSteps 0 0 0 (reserveSteps 0) ++ [(0, .unpin), (1, .checkRemove 0)] ++
        pinSteps 0 1 1 (reserveEvictSteps 0 0 0) ++ [(0, .unpin)] ++ removeSteps 1)
      (by decide +kernel)
  · exact reachable_of_run
      (pinSteps 0 0 0 (reserveSteps 0) ++ [(0, .unpin), (1, .checkRemove 0), (2, .checkRemove 0)] ++
        removeSteps 1 ++ removeSteps 2) (by decide +kernel)
  · exact reachable_of_run
      ([(0, .startMalloc 0 700000)] ++ reserveSteps 0 ++ [(0, .finishMalloc)] ++
        pinSteps 0 0 0 (reserveSteps 0) ++ [(0, .allocPaged 1)] ++
        pinSteps 1 1 1 ([(1, .checkMemory), (1, .spill [1]), (1, .countEvictable)] ++
          evictSteps 1 0 0 ++ reserveSteps 1 ++ [(1, .creditNonEvictable)])) (by decide +kernel)

end Lbug.Buffer
