/-
  Buffer/PageLocks.lean --- who holds the lock of a page.

  In every run in which no thread locks a page that is locked (as `spinLock` and
  `updateFrameIfPageIsInFrame` do), no buffer with a page is spilled and no version runs
  over its 55 bits, a page is held by at most one thread, and an optimistic read that finds
  the word as it was has read a frame that nobody changed.  What a step does to pages is
  said once (`PageEffect`), and the invariant follows from that.
-/
import Lbug.Buffer.Transitions

namespace Lbug.Buffer

open Foundation List Function

/-- What a thread that holds a page knows of its frame. -/
inductive Hold where
  | absent
  | present
  /-- present, and not changed since the page was locked -/
  | untouched
  | unknown
  deriving DecidableEq

/-- A page that is held so is in its frame, or is not. -/
def Hold.Fits (h : Hold) (resident : Bool) : Prop :=
  match h with
  | .absent => resident = false
  | .present => resident = true
  | .untouched => resident = true
  | .unknown => True

section

variable {Page Thread Buf : Type}

def ReserveCall.held (call : ReserveCall Page Buf) : List (Page × Hold) :=
  call.locked.map fun X => (X, .absent)

def EvictPhase.hold : EvictPhase Page → Hold
  | .stale => .absent
  | .staleCleared _ => .absent
  | .staleCounted => .absent
  | .victim => .untouched
  | .released => .absent
  | .clearing _ => .absent
  | .cleared => .absent
  | .counted => .absent

/-- The pages a thread holds, the last one first. -/
def Activity.held : Activity Page Buf → List (Page × Hold)
  | .idle => []
  | .locked X => [(X, .absent)]
  | .reserving call _ _ _ => call.held
  | .evicting call _ _ _ Y phase => (Y, phase.hold) :: call.held
  | .granted call => call.held
  | .failed X => [(X, .absent)]
  | .loaded X => [(X, .present)]
  | .inserted X => [(X, .present)]
  | .pinned X => [(X, .present)]
  | .buffered _ X => [(X, .present)]
  | .freeing _ => []
  | .freed _ => []
  | .removing _ .checked => []
  | .removing X .locked => [(X, .unknown)]
  | .removing X .released => [(X, .absent)]
  | .removing X .freed => [(X, .absent)]
  | .updating X => [(X, .present)]
  | .reading _ _ _ => []
  | .found _ => []
  | .clearing _ _ => []
  | .cleared => []
  | .queueFull X => [(X, .present)]
  | .unreachable pages => pages.map fun X => (X, .absent)

@[simp] def Activity.IsReading : Activity Page Buf → Prop
  | .reading _ _ _ => True
  | _ => False

/-- A buffer that had a page and was spilled. -/
def BufferState.LostPage : BufferState Page Thread → Prop
  | .spilledPage _ => True
  | .reloadedPage _ => True
  | _ => False

def BufferState.isPaged : BufferState Page Thread → Bool
  | .paged _ _ => true
  | _ => false

variable [DecidableEq Page] [DecidableEq Thread] [DecidableEq Buf]

/-! ## What a step does to pages -/

/-- The effect of a step of thread `i` on the pages. -/
inductive PageEffect (s s' : State Page Thread Buf) (i : Thread) : Prop
  /-- nothing but the place of the thread -/
  | quiet (a : Activity Page Buf) (hword : s'.word = s.word) (hframe : s'.frame = s.frame)
      (hresident : s'.resident = s.resident)
      (hactivity : s'.activity = update s.activity i a)
      (hheld : a.held = (s.activity i).held) (hreading : ¬a.IsReading)
  | lock (X : Page) (h : Hold) (a : Activity Page Buf) (hfree : (s.word X).state ≠ .locked)
      (hfits : h = .unknown ∨ ((s.word X).state = .evicted ↔ h = .absent))
      (hword : s'.word = update s.word X (s.word X).lock) (hframe : s'.frame = s.frame)
      (hresident : s'.resident = s.resident)
      (hactivity : s'.activity = update s.activity i a)
      (hheld : a.held = (X, h) :: (s.activity i).held)
  | change (X : Page) (h h' : Hold) (rest : List (Page × Hold)) (a : Activity Page Buf)
      (w : PageState) (resident : Bool) (hstate : w.state = (s.word X).state)
      (hversion : w.version = (s.word X).version)
      (hfits : h'.Fits resident ∨ h' = h ∧ resident = s.resident X) (htouched : h' ≠ .untouched)
      (hheld : (s.activity i).held = (X, h) :: rest) (hheld' : a.held = (X, h') :: rest)
      (hword : s'.word = update s.word X w)
      (hframe : s'.frame = update s.frame X (s.frame X + 1))
      (hresident : s'.resident = update s.resident X resident)
      (hactivity : s'.activity = update s.activity i a)
  /-- the version goes up -/
  | release (X : Page) (h : Hold) (a : Activity Page Buf) (w : PageState)
      (hversion : w.version = (s.word X).version + 1)
      (hfits : w.state = .unlocked ∧ h = .present ∨ w.state = .evicted ∧ h = .absent)
      (hheld : (s.activity i).held = (X, h) :: a.held) (hreading : ¬a.IsReading)
      (hword : s'.word = update s.word X w) (hframe : s'.frame = s.frame)
      (hresident : s'.resident = s.resident)
      (hactivity : s'.activity = update s.activity i a)
  | abort (X : Page) (a : Activity Page Buf)
      (hheld : (s.activity i).held = (X, .untouched) :: a.held) (hreading : ¬a.IsReading)
      (hword : s'.word = update s.word X (s.word X).unlockUnchanged)
      (hframe : s'.frame = s.frame) (hresident : s'.resident = s.resident)
      (hactivity : s'.activity = update s.activity i a)
  /-- a page that is not locked is marked, or its mark is cleared -/
  | remark (X : Page) (w : PageState)
      (hfree : (s.word X).state = .unlocked ∨ (s.word X).state = .marked)
      (hstate : w.state = .unlocked ∨ w.state = .marked) (hversion : w.version = (s.word X).version)
      (hword : s'.word = update s.word X w) (hframe : s'.frame = s.frame)
      (hresident : s'.resident = s.resident) (hactivity : s'.activity = s.activity)
  | read (X : Page) (hstate : (s.word X).state = .unlocked) (hword : s'.word = s.word)
      (hframe : s'.frame = s.frame) (hresident : s'.resident = s.resident)
      (hactivity : s'.activity = update s.activity i (.reading X (s.word X) (s.frame X)))
      (hheld : (s.activity i).held = [])

/-- No thread locks a locked page, and no buffer with a page is spilled. -/
def State.keepsLocks (s : State Page Thread Buf) (i : Thread) : Action Page Buf → Bool
  | .lockRemove =>
    match s.activity i with
    | .removing X _ => (s.word X).state ≠ .locked
    | _ => true
  | .lockUpdate X => (s.word X).state ≠ .locked
  | .spill group => ∀ b ∈ group, (s.buffers b).isPaged = false
  | _ => true

/-- The condition on a step; the versions fit in their bits. -/
def State.LocksFree (s : State Page Thread Buf) (call : Thread × Action Page Buf) : Prop :=
  (∀ X, (s.word X).version + 1 < 2 ^ 55) ∧ s.keepsLocks call.1 call.2 = true

instance [Fintype Page] (s : State Page Thread Buf) (call : Thread × Action Page Buf) :
    Decidable (s.LocksFree call) :=
  inferInstanceAs (Decidable (_ ∧ _))

namespace State

variable {cfg : Config Page} {s s' : State Page Thread Buf} {i : Thread} {w : PageState} {X : Page}
  {a : Activity Page Buf} {h : Hold} {act : Action Page Buf} {rest : List (Page × Hold)}
  {group : List Buf} {f : Nat}

theorem foldl_spillBuffer_of_not_paged (cfg : Config Page) (x : State Page Thread Buf × Nat × Nat)
    (h : ∀ b ∈ group, (x.1.buffers b).isPaged = false) (hlost : ∀ b, ¬(x.1.buffers b).LostPage) :
    ∃ buffers, (group.foldl (spillBuffer cfg) x).1 = { x.1 with buffers } ∧
      (group.foldl (spillBuffer cfg) x).2.2 = x.2.2 ∧ (∀ b, ¬(buffers b).LostPage) ∧
      ∀ b, (x.1.buffers b).isPaged = true → buffers b = x.1.buffers b := by
  induction group generalizing x with
  | nil => exact ⟨x.1.buffers, rfl, rfl, hlost, fun _ _ => rfl⟩
  | cons b _ ih =>
    have hb := h b mem_cons_self
    rw [foldl_cons]
    cases hbuffer : x.1.buffers b with
    | malloced size =>
      have hspill : spillBuffer cfg x b =
          (x.1.setBuffer b (.spilled size), x.2.1 + size, x.2.2) := by
        rw [spillBuffer, hbuffer]
      have hbuffers : ∀ b', (spillBuffer cfg x b).1.buffers b' =
          if b' = b then .spilled size else x.1.buffers b' := by
        intro b'
        rw [hspill]
        exact update_apply ..
      obtain ⟨buffers, hstate, hevictable, hlost', hpaged⟩ := ih (spillBuffer cfg x b)
        (fun b' hb' => by
          rw [hbuffers]
          split
          · rfl
          · exact h b' (mem_cons_of_mem _ hb'))
        (fun b' => by
          rw [hbuffers]
          split
          · exact id
          · exact hlost b')
      rw [hspill] at hstate hevictable ⊢
      refine ⟨buffers, hstate, hevictable, hlost', ?_⟩
      intro b' hb'
      have hne : b' ≠ b := by
        rintro rfl
        rw [hbuffer] at hb'
        cases hb'
      have hsame : (spillBuffer cfg x b).1.buffers b' = x.1.buffers b' := by
        rw [hbuffers, if_neg hne]
      rw [← hsame]
      exact hpaged b' (by rw [hsame, hb'])
    | paged =>
      rw [hbuffer] at hb
      cases hb
    | unallocated | spilled | spilledPage | reloadedPage =>
      have hspill : spillBuffer cfg x b = x := by rw [spillBuffer, hbuffer]
      rw [hspill]
      exact ih x (fun b' hb' => h b' (mem_cons_of_mem _ hb')) hlost

/-- A group without pages is spilled: nothing but its buffers changes. -/
theorem spillGroup_of_not_paged (cfg : Config Page) (hfree : s.LocksFree (i, .spill group))
    (hlost : ∀ b, ¬(s.buffers b).LostPage) :
    ∃ buffers, (s.spillGroup cfg group).1 = { s with buffers } ∧
      (s.spillGroup cfg group).2.2 = 0 ∧ (∀ b, ¬(buffers b).LostPage) ∧
      ∀ b, (s.buffers b).isPaged = true → buffers b = s.buffers b :=
  foldl_spillBuffer_of_not_paged cfg (s, 0, 0) (of_decide_eq_true hfree.2) hlost

omit [DecidableEq Buf] in
/-- A thread changes a page that it holds. -/
theorem pageEffect_write (hstate : w.state = (s.word X).state)
    (hversion : w.version = (s.word X).version) (hheld : (s.activity i).held = [(X, .present)]) :
    PageEffect s ((s.setWord X w).changeFrame X) i :=
  .change X .present .present [] (s.activity i) w (s.resident X) hstate hversion
    (.inr ⟨rfl, rfl⟩) (by decide) hheld hheld rfl rfl (update_eq_self X s.resident).symm
    (update_eq_self i s.activity).symm

omit [DecidableEq Buf] in
/-- A page is unlocked, or evicted, with the next version. -/
theorem pageEffect_release {state : LockState} (hversion : (s.word X).version + 1 < 2 ^ 55)
    (hfits : state = .unlocked ∧ h = .present ∨ state = .evicted ∧ h = .absent)
    (hheld : (s.activity i).held = (X, h) :: a.held) (hreading : ¬a.IsReading)
    (hword : s'.word = update s.word X ((s.word X).updateStateAndIncrementVersion state))
    (hframe : s'.frame = s.frame) (hresident : s'.resident = s.resident)
    (hactivity : s'.activity = update s.activity i a) : PageEffect s s' i := by
  rw [PageState.updateStateAndIncrementVersion, if_pos hversion] at hword
  exact .release X h a _ rfl hfits hheld hreading hword hframe hresident hactivity

section

variable (hs : Transition cfg s i act s') (hfree : s.LocksFree (i, act))
  (hlost : ∀ b, ¬(s.buffers b).LostPage)

include hs hfree hlost

/-- The effect of each step. -/
theorem pageEffect_of_transition : PageEffect s s' i := by
  have hversion := hfree.1
  cases hs with
  | pinUnlocked hidle hstate | pinMarked hidle hstate =>
    exact .lock _ .present _ (by rw [hstate]; decide) (.inr (by simp [hstate])) rfl rfl rfl rfl
      (by rw [hidle]; rfl)
  | pinEvicted hold hstate | lockStale hold hstate =>
    exact .lock _ .absent _ (by rw [hstate]; decide) (.inr (by simp [hstate])) rfl rfl rfl rfl
      (by rw [hold]; rfl)
  | @load X hgranted =>
    exact .change X .absent .present [] _ (s.word X).clearDirty true rfl rfl (.inl rfl) (by decide)
      (by rw [hgranted]; rfl) rfl rfl rfl rfl rfl
  | writePinned hold | writeBuffered hold => exact pageEffect_write rfl rfl (by rw [hold]; rfl)
  | startRead hidle hstate => exact .read _ hstate rfl rfl rfl rfl (by rw [hidle]; rfl)
  | @clearMark X _ hstate =>
    exact .remark X (s.word X).unlockUnchanged (.inr hstate) (.inl rfl) rfl rfl rfl rfl rfl
  | lockRemove hchecked =>
    have hunlocked := hfree.2
    simp only [keepsLocks, hchecked] at hunlocked
    exact .lock _ .unknown _ (of_decide_eq_true hunlocked) (.inl rfl) rfl rfl rfl rfl
      (by rw [hchecked]; rfl)
  | @releaseRemove X hlocked =>
    exact .change X .unknown .absent [] _ (s.word X) false rfl rfl (.inl rfl) (by decide)
      (by rw [hlocked]; rfl) rfl (update_eq_self X s.word).symm rfl rfl rfl
  | lockUpdate hidle hcached =>
    exact .lock _ .present _ (of_decide_eq_true hfree.2)
      (.inr ⟨fun h => absurd h hcached, fun h => (by cases h)⟩)
      rfl rfl rfl rfl (by rw [hidle]; rfl)
  | @copyUpdate X hupdating =>
    exact .change X .present .present [] (s.activity i) (s.word X) (s.resident X) rfl rfl
      (.inr ⟨rfl, rfl⟩) (by decide) (by rw [hupdating]; rfl) (by rw [hupdating]; rfl)
      (update_eq_self X s.word).symm rfl (update_eq_self X s.resident).symm
      (update_eq_self i s.activity).symm
  | @freeReloaded b _ _ hbuffer =>
    have hb := hlost b
    rw [hbuffer] at hb
    exact absurd trivial hb
  | @mark Y _ _ _ _ hstate =>
    exact .remark Y ((s.word Y).updateStateWithSameVersion .marked) (.inl hstate) (.inr rfl) rfl
      rfl rfl rfl rfl
  | lockVictim hreserving hstate =>
    exact .lock _ .untouched _ (by rw [hstate]; decide) (.inr (by simp [hstate])) rfl rfl rfl rfl
      (by rw [hreserving]; rfl)
  | abortVictim hvictim =>
    exact .abort _ _ (by rw [hvictim]; rfl) (by simp) rfl rfl rfl rfl
  | @releaseVictim _ Y call _ _ hvictim =>
    exact .change Y .untouched .absent call.held _ (s.word Y) false rfl rfl (.inl rfl) (by decide)
      (by rw [hvictim]; rfl) rfl (update_eq_self Y s.word).symm rfl rfl rfl
  | @spill _ _ _ _ hreserving =>
    obtain ⟨_, hgroup, -, -⟩ := spillGroup_of_not_paged cfg hfree hlost
    rw [hgroup]
    exact .quiet _ rfl rfl rfl rfl (by rw [hreserving]; rfl) (by simp)
  | @failOther call _ _ hreserving hother =>
    have hheld : call.held = [] := by
      cases call with
      | pin X => exact (hother X rfl).elim
      | malloc => rfl
      | reload => rfl
    exact .quiet _ rfl rfl rfl rfl (by rw [hreserving]; exact hheld.symm) (by simp)
  -- the places whose word is given back, with and without a new version
  | unpin h | unlockUpdate h | freePaged h =>
    exact pageEffect_release (hversion _) (.inl ⟨rfl, rfl⟩) (by rw [h]; rfl) (by simp)
      rfl rfl rfl rfl
  | resetFailed h | resetRemove h | resetStale h | resetVictim h =>
    exact pageEffect_release (hversion _) (.inr ⟨rfl, rfl⟩) (by rw [h]; rfl) (by simp)
      rfl rfl rfl rfl
  -- the steps that touch no page
  | _ => exact .quiet _ rfl rfl rfl rfl (by rw [‹s.activity i = _›]; rfl) (by simp)

/-- Only a spilled page makes a buffer lose its page. -/
theorem not_lostPage_of_transition : ∀ b, ¬(s'.buffers b).LostPage := by
  have hset : ∀ (b : Buf) (buffer : BufferState Page Thread), ¬buffer.LostPage →
      ∀ b', ¬(update s.buffers b buffer b').LostPage := by
    intro b buffer hbuffer b'
    rw [update_apply]
    split
    · exact hbuffer
    · exact hlost b'
  cases hs with
  | @finishReloadPage b _ _ _ hbuffer =>
    have hb := hlost b
    rw [hbuffer] at hb
    exact absurd trivial hb
  | finishMalloc hold | finishReload hold | freeMalloced hold | allocPaged hold | freePaged hold
  | freeReloaded => exact hset _ _ id
  | spill =>
    obtain ⟨_, hgroup, -, hlost', -⟩ := spillGroup_of_not_paged cfg hfree hlost
    rw [hgroup]
    exact hlost'
  | _ => exact hlost

end

/-! ## Who holds a page -/

/-- A held page is locked, by one thread only, and what its holder knows of the frame is
true; a page that is not locked says itself whether it is resident. -/
structure Locks (s : State Page Thread Buf) : Prop where
  locked : ∀ i X h, (X, h) ∈ (s.activity i).held → (s.word X).state = .locked
  unique : ∀ i j X h h', (X, h) ∈ (s.activity i).held → (X, h') ∈ (s.activity j).held → i = j
  nodup : ∀ i, ((s.activity i).held.map Prod.fst).Nodup
  fits : ∀ i X h, (X, h) ∈ (s.activity i).held → h.Fits (s.resident X)
  cached : ∀ X, (s.word X).state = .unlocked ∨ (s.word X).state = .marked → s.resident X = true
  evicted : ∀ X, (s.word X).state = .evicted → s.resident X = false

omit [DecidableEq Page] [DecidableEq Thread] [DecidableEq Buf] in
theorem locks_init : (init cfg : State Page Thread Buf).Locks where
  locked := fun i X h hheld => (by cases hheld)
  unique := fun i j X h h' hheld => (by cases hheld)
  nodup := fun i => nodup_nil
  fits := fun i X h hheld => (by cases hheld)
  cached := fun X hstate => (by rcases hstate with h | h <;> cases h)
  evicted := fun X hstate => rfl

section

variable (hl : s.Locks) {resident : Bool}

include hl

omit [DecidableEq Page] [DecidableEq Buf] in
/-- A thread that holds the same pages afterwards. -/
theorem Locks.sameHeld (hword : s'.word = s.word) (hresident : s'.resident = s.resident)
    (hactivity : s'.activity = update s.activity i a)
    (hheld : a.held = (s.activity i).held) : s'.Locks := by
  have hall : ∀ j, (s'.activity j).held = (s.activity j).held := by
    intro j
    rw [hactivity, update_apply]
    split
    · subst j
      exact hheld
    · rfl
  constructor <;> simp only [hword, hresident, hall]
  exacts [hl.locked, hl.unique, hl.nodup, hl.fits, hl.cached, hl.evicted]

omit [DecidableEq Page] [DecidableEq Thread] [DecidableEq Buf] in
theorem Locks.not_held (hfree : (s.word X).state ≠ .locked) (j : Thread) (h : Hold) :
    (X, h) ∉ (s.activity j).held :=
  fun hheld => hfree (hl.locked j X h hheld)

omit [DecidableEq Page] [DecidableEq Thread] [DecidableEq Buf] in
theorem Locks.not_held_of_held (hheld : (X, h) ∈ (s.activity i).held) (j : Thread) (h' : Hold)
    (hj : j ≠ i) :
    (X, h') ∉ (s.activity j).held :=
  fun hheld' => hj (hl.unique j i X h' h hheld' hheld)

omit [DecidableEq Page] [DecidableEq Thread] [DecidableEq Buf] in
/-- A page is held once in the list of its holder. -/
theorem Locks.not_mem_rest (hheld : (s.activity i).held = (X, h) :: rest) (h' : Hold) :
    (X, h') ∉ rest := by
  intro hmem
  have hnodup := hl.nodup i
  rw [hheld, map_cons, nodup_cons] at hnodup
  exact hnodup.1 (mem_map.mpr ⟨(X, h'), hmem, rfl⟩)

section

variable (hword : s'.word = update s.word X w)
  (hresident : s'.resident = update s.resident X resident)
  (hactivity : s'.activity = update s.activity i a)
  (hcached : w.state = .unlocked ∨ w.state = .marked → resident = true)
  (hevicted : w.state = .evicted → resident = false)

include hword hresident hactivity

include hcached hevicted in
omit [DecidableEq Buf] in
/-- A thread changes the page `X`, which no other thread holds. -/
theorem Locks.changePage (hothers : ∀ j h, j ≠ i → (X, h) ∉ (s.activity j).held)
    (hrest : ∀ Y h, (Y, h) ∈ a.held → Y ≠ X → (Y, h) ∈ (s.activity i).held)
    (hX : ∀ h, (X, h) ∈ a.held → w.state = .locked ∧ h.Fits resident)
    (hnodup : (a.held.map Prod.fst).Nodup) : s'.Locks := by
  have hself : s'.activity i = a := by rw [hactivity, update_self]
  have hother : ∀ j, j ≠ i → s'.activity j = s.activity j := by
    intro j hj
    rw [hactivity, update_of_ne hj]
  -- what was held before is still held by the same thread, except for `X`
  have hbefore : ∀ j Y h, (Y, h) ∈ (s'.activity j).held → Y ≠ X → (Y, h) ∈ (s.activity j).held := by
    intro j Y h hheld hY
    by_cases hj : j = i
    · subst j
      rw [hself] at hheld
      exact hrest Y h hheld hY
    · rwa [hother j hj] at hheld
  have honly : ∀ j h, (X, h) ∈ (s'.activity j).held → j = i := by
    intro j h hheld
    by_contra hj
    rw [hother j hj] at hheld
    exact hothers j h hj hheld
  have hpage : ∀ Y, Y = X ∧ s'.word Y = w ∧ s'.resident Y = resident ∨
      Y ≠ X ∧ s'.word Y = s.word Y ∧ s'.resident Y = s.resident Y := by
    intro Y
    rw [hword, hresident]
    by_cases hY : Y = X
    · subst Y
      exact .inl ⟨rfl, update_self .., update_self ..⟩
    · exact .inr ⟨hY, update_of_ne hY .., update_of_ne hY ..⟩
  have hheldX : ∀ j h, (X, h) ∈ (s'.activity j).held → w.state = .locked ∧ h.Fits resident := by
    intro j h hheld
    rw [honly j h hheld, hself] at hheld
    exact hX h hheld
  refine ⟨?_, ?_, ?_, ?_, ?_, ?_⟩
  · intro j Y h hheld
    rcases hpage Y with ⟨rfl, hw, -⟩ | ⟨hY, hw, -⟩
    · rw [hw]
      exact (hheldX j h hheld).1
    · rw [hw]
      exact hl.locked j Y h (hbefore j Y h hheld hY)
  · intro j k Y h h' hheld hheld'
    by_cases hY : Y = X
    · subst Y
      rw [honly j h hheld, honly k h' hheld']
    · exact hl.unique j k Y h h' (hbefore j Y h hheld hY) (hbefore k Y h' hheld' hY)
  · intro j
    by_cases hj : j = i
    · subst j
      rwa [hself]
    · rw [hother j hj]
      exact hl.nodup j
  · intro j Y h hheld
    rcases hpage Y with ⟨rfl, -, hr⟩ | ⟨hY, -, hr⟩
    · rw [hr]
      exact (hheldX j h hheld).2
    · rw [hr]
      exact hl.fits j Y h (hbefore j Y h hheld hY)
  · intro Y
    rcases hpage Y with ⟨rfl, hw, hr⟩ | ⟨-, hw, hr⟩
    · rw [hw, hr]
      exact hcached
    · rw [hw, hr]
      exact hl.cached Y
  · intro Y
    rcases hpage Y with ⟨rfl, hw, hr⟩ | ⟨-, hw, hr⟩
    · rw [hw, hr]
      exact hevicted
    · rw [hw, hr]
      exact hl.evicted Y

omit [DecidableEq Buf] in
/-- A thread holds the page `X`, and otherwise pages that it held before. -/
theorem Locks.holdPage (hheld : a.held = (X, h) :: rest)
    (hothers : ∀ j h, j ≠ i → (X, h) ∉ (s.activity j).held)
    (hrest : ∀ x ∈ rest, x ∈ (s.activity i).held) (hnot : ∀ k, (X, k) ∉ rest)
    (hnodup : (rest.map Prod.fst).Nodup) (hlocked : w.state = .locked)
    (hfits : h.Fits resident) : s'.Locks := by
  refine hl.changePage hword hresident hactivity ?_ ?_ hothers ?_ ?_ ?_
  · rintro (hw | hw) <;> rw [hlocked] at hw <;> cases hw
  · intro hw
    rw [hlocked] at hw
    cases hw
  · intro Y k hmem hY
    rw [hheld] at hmem
    rcases mem_cons.mp hmem with heq | hmem
    · cases heq
      exact absurd rfl hY
    · exact hrest _ hmem
  · intro k hmem
    rw [hheld] at hmem
    rcases mem_cons.mp hmem with heq | hmem
    · cases heq
      exact ⟨hlocked, hfits⟩
    · exact absurd hmem (hnot k)
  · rw [hheld, map_cons, nodup_cons]
    refine ⟨?_, hnodup⟩
    intro hmem
    obtain ⟨y, hy, hX⟩ := mem_map.mp hmem
    apply hnot y.2
    rwa [← show y.1 = X from hX]

include hcached hevicted in
omit [DecidableEq Buf] in
/-- A thread gives up the page it locked last. -/
theorem Locks.leavePage (hheld : (s.activity i).held = (X, h) :: a.held) : s'.Locks := by
  have hmem : (X, h) ∈ (s.activity i).held := by rw [hheld]; exact mem_cons_self
  have hnodup := hl.nodup i
  rw [hheld, map_cons, nodup_cons] at hnodup
  refine hl.changePage hword hresident hactivity hcached hevicted (hl.not_held_of_held hmem) ?_ ?_
    hnodup.2
  · intro Y k hmem _
    rw [hheld]
    exact mem_cons_of_mem _ hmem
  · intro k hmem
    exact absurd hmem (hl.not_mem_rest hheld k)

end

omit [DecidableEq Page] [DecidableEq Thread] [DecidableEq Buf] in
/-- What a thread learns from the state of a page that it locks. -/
theorem Locks.fits_of_lock (hfree : (s.word X).state ≠ .locked)
    (hfits : h = .unknown ∨ ((s.word X).state = .evicted ↔ h = .absent)) :
    h.Fits (s.resident X) := by
  have hpresent : (s.word X).state ≠ .evicted → s.resident X = true := by
    intro hcached
    apply hl.cached
    cases hstate : (s.word X).state with
    | unlocked => exact .inl rfl
    | marked => exact .inr rfl
    | locked => exact absurd hstate hfree
    | evicted => exact absurd hstate hcached
  rcases hfits with rfl | hfits
  · trivial
  · cases h with
    | absent => exact hl.evicted X (hfits.mpr rfl)
    | present | untouched => exact hpresent (fun hstate => (by cases hfits.mp hstate))
    | unknown => trivial

omit [DecidableEq Buf] in
theorem Locks.of_pageEffect (he : PageEffect s s' i) : s'.Locks := by
  have hsame : ∀ X, s.resident = update s.resident X (s.resident X) :=
    fun X => (update_eq_self X s.resident).symm
  cases he with
  | quiet _ hword _ hresident hactivity hheld =>
    exact hl.sameHeld hword hresident hactivity hheld
  | read _ _ hword _ hresident hactivity hheld =>
    exact hl.sameHeld hword hresident hactivity hheld.symm
  | lock X _ _ hfree hfits hword _ hresident hactivity hheld =>
    have hnone := hl.not_held hfree
    exact hl.holdPage hword (hresident.trans (hsame X)) hactivity hheld (fun j h' _ => hnone j h')
      (fun _ hx => hx) (hnone i) (hl.nodup i) rfl (hl.fits_of_lock hfree hfits)
  | change X h h' rest a w resident hstate hversion hfits htouched hheld hheld' hword hframe
      hresident hactivity =>
    have hmem : (X, h) ∈ (s.activity i).held := by rw [hheld]; exact mem_cons_self
    have hnodup := hl.nodup i
    rw [hheld, map_cons, nodup_cons] at hnodup
    refine hl.holdPage hword hresident hactivity hheld' (hl.not_held_of_held hmem) ?_
      (hl.not_mem_rest hheld) hnodup.2 (hstate.trans (hl.locked i X h hmem)) ?_
    · intro x hx
      rw [hheld]
      exact mem_cons_of_mem _ hx
    · rcases hfits with hfits | ⟨rfl, rfl⟩
      · exact hfits
      · exact hl.fits i X _ hmem
  | release X h _ _ _ hfits hheld _ hword _ hresident hactivity =>
    have hmem : (X, h) ∈ (s.activity i).held := by rw [hheld]; exact mem_cons_self
    have hknown := hl.fits i X h hmem
    refine hl.leavePage hword (hresident.trans (hsame X)) hactivity ?_ ?_ hheld
    · rintro hstate
      rcases hfits with ⟨-, rfl⟩ | ⟨hw, -⟩
      · exact hknown
      · rw [hw] at hstate
        rcases hstate with h | h <;> cases h
    · intro hstate
      rcases hfits with ⟨hw, -⟩ | ⟨-, rfl⟩
      · rw [hw] at hstate
        cases hstate
      · exact hknown
  | abort X _ hheld _ hword _ hresident hactivity =>
    have hmem : (X, Hold.untouched) ∈ (s.activity i).held := by rw [hheld]; exact mem_cons_self
    refine hl.leavePage hword (hresident.trans (hsame X)) hactivity ?_ ?_ hheld
    · intro _
      exact hl.fits i X _ hmem
    · intro hstate
      cases hstate
  | remark X _ hfree hstate _ hword _ hresident hactivity =>
    have hnone : ∀ j h, (X, h) ∉ (s.activity j).held := by
      apply hl.not_held
      rcases hfree with h | h <;> rw [h] <;> decide
    refine hl.changePage hword (hresident.trans (hsame X))
      (hactivity.trans (update_eq_self i s.activity).symm) (fun _ => hl.cached X hfree) ?_
      (fun j h _ => hnone j h) (fun Y h hmem _ => hmem) (fun h hmem => absurd hmem (hnone i h))
      (hl.nodup i)
    intro hw
    rcases hstate with h | h <;> rw [h] at hw <;> cases hw

end

/-! ## Optimistic reads -/

/-- The page `X` is held by a thread that may have changed its frame. -/
def Touched (s : State Page Thread Buf) (X : Page) : Prop :=
  ∃ j h, (X, h) ∈ (s.activity j).held ∧ h ≠ .untouched

/-- While the version of the page is the one a reader started with, the frame is as it was,
or the page is still held by the thread that changed it. -/
def Readers (s : State Page Thread Buf) : Prop :=
  ∀ i X w f, s.activity i = .reading X w f → w.state = .unlocked ∧ w.version ≤ (s.word X).version ∧
      ((s.word X).version = w.version → s.frame X = f ∧ s.resident X = true ∨ s.Touched X)

section

omit [DecidableEq Page] [DecidableEq Buf]

/-- A page that is held and touched stays so while its holder keeps it. -/
theorem Touched.mono (ht : s.Touched X) (hactivity : s'.activity = update s.activity i a)
    (hheld : ∀ h, (X, h) ∈ (s.activity i).held → h ≠ .untouched → (X, h) ∈ a.held) :
    s'.Touched X := by
  obtain ⟨j, h, hmem, htouched⟩ := ht
  refine ⟨j, h, ?_, htouched⟩
  rw [hactivity, update_apply]
  split
  · subst j
    exact hheld h hmem htouched
  · exact hmem

/-- A reader that goes on. -/
theorem reading_of_update {j : Thread} (hactivity : s'.activity = update s.activity i a)
    (hreading : ¬a.IsReading) (h : s'.activity j = .reading X w f) :
    s.activity j = .reading X w f := by
  rw [hactivity, update_apply] at h
  split at h
  · rw [h] at hreading
    exact absurd trivial hreading
  · exact h

theorem not_isReading_of_held {x : Page × Hold} (hheld : a.held = x :: rest) : ¬a.IsReading := by
  intro h
  cases a with
  | reading => cases hheld
  | _ => exact h

/-- A step of a thread that does not start to read.  Of every page it keeps the version and
the frame, and what the thread holds and has touched; or it touches the page; or it takes the
next version. -/
theorem Readers.step (hr : s.Readers) (hactivity : s'.activity = update s.activity i a)
    (hreading : ¬a.IsReading) (hpage : ∀ X,
      ((s'.word X).version = (s.word X).version ∧ s'.frame X = s.frame X ∧
        s'.resident X = s.resident X ∧
        ∀ h, (X, h) ∈ (s.activity i).held → h ≠ .untouched → (X, h) ∈ a.held) ∨
      ((s'.word X).version = (s.word X).version ∧ s'.Touched X) ∨
      (s'.word X).version = (s.word X).version + 1) : s'.Readers := by
  intro j X w f hj
  obtain ⟨hstate, hle, hsame⟩ := hr j X w f (reading_of_update hactivity hreading hj)
  rcases hpage X with ⟨hversion, hframe, hresident, hheld⟩ | ⟨hversion, htouched⟩ | hversion
  · rw [hversion, hframe, hresident]
    exact ⟨hstate, hle, fun heq => (hsame heq).imp_right fun ht => ht.mono hactivity hheld⟩
  · rw [hversion]
    exact ⟨hstate, hle, fun _ => .inr htouched⟩
  · -- no reader started with the new version
    rw [hversion]
    exact ⟨hstate, hle.trans (Nat.le_succ _), fun heq => absurd hle (heq ▸ Nat.not_succ_le_self _)⟩

end

omit [DecidableEq Thread] [DecidableEq Buf] in
theorem version_of_update (hword : s'.word = update s.word X w)
    (hversion : w.version = (s.word X).version) (Y : Page) :
    (s'.word Y).version = (s.word Y).version := by
  rw [hword, update_apply]
  split
  · subst Y
    exact hversion
  · rfl

omit [DecidableEq Buf] in
theorem Readers.of_pageEffect (hr : s.Readers) (hl : s.Locks) (he : PageEffect s s' i) :
    s'.Readers := by
  cases he with
  | quiet _ hword hframe hresident hactivity hheld hreading =>
    refine hr.step hactivity hreading fun X => .inl ?_
    rw [hword, hframe, hresident, hheld]
    exact ⟨rfl, rfl, rfl, fun h hmem _ => hmem⟩
  | lock _ h _ _ _ hword hframe hresident hactivity hheld =>
    refine hr.step hactivity (not_isReading_of_held hheld) fun Y => .inl ?_
    rw [version_of_update hword rfl, hframe, hresident, hheld]
    exact ⟨rfl, rfl, rfl, fun h hmem _ => mem_cons_of_mem _ hmem⟩
  | change X h h' rest a w resident hstate hversion hfits htouched hheld hheld' hword hframe
      hresident hactivity =>
    refine hr.step hactivity (not_isReading_of_held hheld') fun Y => ?_
    rw [version_of_update hword hversion]
    by_cases hY : Y = X
    · -- whoever changes the frame of `X` holds it
      subst Y
      refine .inr (.inl ⟨rfl, i, h', ?_, htouched⟩)
      rw [hactivity, update_self, hheld']
      exact mem_cons_self
    · rw [hframe, hresident, update_of_ne hY, update_of_ne hY, hheld, hheld']
      refine .inl ⟨rfl, rfl, rfl, fun k hmem _ => mem_cons_of_mem _ ?_⟩
      exact (mem_cons.mp hmem).resolve_left fun heq => hY (congrArg Prod.fst heq)
  | release X _ _ _ hversion _ hheld hreading hword hframe hresident hactivity =>
    refine hr.step hactivity hreading fun Y => ?_
    rw [hword]
    by_cases hY : Y = X
    · subst Y
      rw [update_self]
      exact .inr (.inr hversion)
    · rw [update_of_ne hY, hframe, hresident, hheld]
      refine .inl ⟨rfl, rfl, rfl, fun k hmem _ => ?_⟩
      exact (mem_cons.mp hmem).resolve_left fun heq => hY (congrArg Prod.fst heq)
  | abort _ _ hheld hreading hword hframe hresident hactivity =>
    refine hr.step hactivity hreading fun Y => .inl ?_
    rw [version_of_update hword rfl, hframe, hresident, hheld]
    -- what is given up was not touched
    refine ⟨rfl, rfl, rfl, fun k hmem htouched => ?_⟩
    exact (mem_cons.mp hmem).resolve_left fun heq => htouched (congrArg Prod.snd heq)
  | remark _ _ _ _ hversion hword hframe hresident hactivity =>
    intro j Y v f hj
    rw [hactivity] at hj
    rw [version_of_update hword hversion, hframe, hresident, Touched, hactivity]
    exact hr j Y v f hj
  | read _ hstate hword hframe hresident hactivity hheld =>
    intro j Y v f hj
    rw [hactivity, update_apply] at hj
    rw [hword, hframe, hresident]
    split at hj
    · -- the reader that starts
      cases hj
      exact ⟨hstate, le_rfl, fun _ => .inl ⟨rfl, hl.cached _ (.inl hstate)⟩⟩
    · obtain ⟨hv, hle, hsame⟩ := hr j Y v f hj
      refine ⟨hv, hle, fun heq => (hsame heq).imp_right fun ht => ?_⟩
      refine ht.mono hactivity (fun k hmem _ => ?_)
      rw [hheld] at hmem
      cases hmem

/-! ## Runs -/

/-- Everything that a run keeps about pages. -/
structure LocksInv (s : State Page Thread Buf) : Prop where
  locks : s.Locks
  readers : s.Readers
  lost : ∀ b, ¬(s.buffers b).LostPage

theorem LocksInv.transition (h : s.LocksInv) (ht : Transition cfg s i act s')
    (hfree : s.LocksFree (i, act)) : s'.LocksInv := by
  have he := pageEffect_of_transition ht hfree h.lost
  exact ⟨h.locks.of_pageEffect he, h.readers.of_pageEffect h.locks he,
    not_lostPage_of_transition ht hfree h.lost⟩

omit [DecidableEq Page] [DecidableEq Thread] [DecidableEq Buf] in
theorem locksInv_init : (init cfg : State Page Thread Buf).LocksInv :=
  ⟨locks_init, fun _ _ _ _ h => (by cases h), fun _ => id⟩

theorem locksInv_of_reachable (h : Reachable (step cfg) (init cfg) LocksFree s) : s.LocksInv :=
  h.invariant LocksInv locksInv_init
    (fun _ _ _ h hfree hs => h.transition (transition_of_stepOf hs) hfree)

/-- The threads that hold `X`. -/
def Holds (s : State Page Thread Buf) (i : Thread) (X : Page) : Prop :=
  X ∈ (s.activity i).held.map Prod.fst

instance (s : State Page Thread Buf) (i : Thread) (X : Page) : Decidable (s.Holds i X) :=
  inferInstanceAs (Decidable (X ∈ (s.activity i).held.map Prod.fst))

omit [DecidableEq Page] [DecidableEq Thread] [DecidableEq Buf] in
theorem Holds.exists_hold (h : s.Holds i X) : ∃ k, (X, k) ∈ (s.activity i).held := by
  obtain ⟨x, hx, hX⟩ := mem_map.mp h
  exact ⟨x.2, by rwa [← show x.1 = X from hX]⟩

omit [DecidableEq Page] [DecidableEq Thread] [DecidableEq Buf] in
/-- A reader that finds its word again: the page is not locked, so nobody has touched it. -/
theorem LocksInv.read (h : s.LocksInv) (hreading : s.activity i = .reading X w f)
    (hword : s.word X = w) :
    s.frame X = f ∧ s.resident X = true := by
  obtain ⟨hstate, -, hsame⟩ := h.readers i X w f hreading
  subst w
  rcases hsame rfl with hframe | ⟨j, k, hmem, -⟩
  · exact hframe
  · have hlocked := h.locks.locked j X k hmem
    rw [hstate] at hlocked
    cases hlocked

end State

/-- In every run whose steps all meet the condition, at most one thread holds a page, a held
page is locked, and a reader that finds the word it started with has read a frame that was
resident and unchanged. -/
theorem page_locks_exclusive (cfg : Config Page) (s : State Page Thread Buf)
    (h : Reachable (State.step cfg) (State.init cfg) State.LocksFree s) :
    (∀ i j X, s.Holds i X → s.Holds j X → i = j ∧ (s.word X).state = .locked) ∧
      ∀ i X w f, s.activity i = .reading X w f → s.word X = w →
        s.frame X = f ∧ s.resident X = true := by
  have hinv := State.locksInv_of_reachable h
  refine ⟨?_, fun i X w f => hinv.read⟩
  intro i j X hi hj
  obtain ⟨k, hi⟩ := hi.exists_hold
  obtain ⟨k', hj⟩ := hj.exists_hold
  exact ⟨hinv.locks.unique i j X k k' hi hj, hinv.locks.locked i X k hi⟩

end

/-- A pool of two pages' size, of which the queue takes a part. -/
def smallPool : Config (Fin 2) := ⟨8192, by decide, fun _ => .regular, fun _ => false, true⟩

section

variable {Page Thread Buf : Type}

/-- `reserve` finds enough memory. -/
def reserveSteps (i : Thread) : List (Thread × Action Page Buf) :=
  [(i, .checkMemory), (i, .reserveDone)]

/-- `evictPages` evicts the page `Y` of the slot. -/
def evictSteps (i : Thread) (Y : Page) (slot : Nat) : List (Thread × Action Page Buf) :=
  [(i, .mark Y), (i, .lockVictim slot Y), (i, .releaseVictim), (i, .loadVictim), (i, .clearVictim),
    (i, .countVictim), (i, .resetVictim), (i, .checkAgain)]

/-- `reserve` evicts the page `Y` of the slot. -/
def reserveEvictSteps (i : Thread) (Y : Page) (slot : Nat) : List (Thread × Action Page Buf) :=
  [(i, .checkMemory)] ++ evictSteps i Y slot ++ reserveSteps i ++ [(i, .creditNonEvictable)]

/-- Thread `i` brings the page `X` into the slot, after the steps of its `reserve`. -/
def pinSteps (i : Thread) (X : Page) (slot : Nat) (reserve : List (Thread × Action Page Buf)) :
    List (Thread × Action Page Buf) :=
  [(i, .pinEvicted X), (i, .startPin)] ++ reserve ++
    [(i, .load), (i, .insert slot), (i, .countInserted)]

end

/-- A page is pinned, evicted for another one and pinned again; a reader that started before
finds its word changed, and one that started after has read the frame as it is. -/
theorem page_locks_exclusive_sample : ∃ s : State (Fin 2) (Fin 3) (Fin 1),
      Reachable (State.step smallPool) (State.init smallPool) State.LocksFree s ∧
        s.activity 1 = .reading 0 ⟨.unlocked, 1, true⟩ 2 ∧ s.word 0 = ⟨.unlocked, 3, false⟩ ∧
        s.activity 2 = .reading 0 ⟨.unlocked, 3, false⟩ 4 ∧
        s.frame 0 = 4 ∧ s.resident 0 = true := by
  refine exists_reachable_of_run
    (pinSteps 0 0 0 (reserveSteps 0) ++ [(0, .write), (0, .unpin), (1, .startRead 0)] ++
      pinSteps 0 1 1 (reserveEvictSteps 0 0 0) ++ [(0, .unpin)] ++
        pinSteps 0 0 2 (reserveEvictSteps 0 1 1) ++
      [(0, .unpin), (2, .startRead 0)])
    (fun s => s.activity 1 = .reading 0 ⟨.unlocked, 1, true⟩ 2 ∧
      s.word 0 = ⟨.unlocked, 3, false⟩ ∧ s.activity 2 = .reading 0 ⟨.unlocked, 3, false⟩ 4)
    (by decide +kernel) ?_
  rintro s hs ⟨hearly, hword, hlate⟩
  exact ⟨hearly, hword, hlate, (page_locks_exclusive smallPool s hs).2 2 0 _ 4 hlate hword⟩

/-- (1) `updateFrameIfPageIsInFrame` locks a page that another thread has pinned, and
`removePageFromFrame` locks it once more.  (2) The update has unlocked the page, so it is
read while it is written, and the reader finds the word it started with. -/
theorem page_locks_shared : (∃ s : State (Fin 2) (Fin 3) (Fin 1),
      Reachable (State.step smallPool) (State.init smallPool) Always s ∧
        s.Holds 0 0 ∧ s.Holds 1 0 ∧ s.Holds 2 0) ∧
    ∃ s : State (Fin 2) (Fin 3) (Fin 1),
      Reachable (State.step smallPool) (State.init smallPool) Always s ∧
        s.activity 2 = .reading 0 (s.word 0) 2 ∧ s.frame 0 = 3 := by
  constructor
  · exact reachable_of_run
      (pinSteps 0 0 0 (reserveSteps 0) ++ [(1, .lockUpdate 0), (2, .checkRemove 0),
        (2, .lockRemove)]) (by decide +kernel)
  · exact reachable_of_run
      (pinSteps 0 0 0 (reserveSteps 0) ++ [(0, .write), (1, .lockUpdate 0),
        (1, .unlockUpdate), (2, .startRead 0), (0, .write)]) (by decide +kernel)

end Lbug.Buffer
