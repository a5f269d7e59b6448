/-
  Transaction/Deadlock.lean --- which interleavings of the manager's calls deadlock.

  `beginTransaction` of a write or recovery transaction takes the public lock and then
  the write gate; a checkpoint takes the write gate, drains the writers and then takes
  the public lock to read `lastTimestamp`.  The two orders cross: a begin that holds
  the public lock and waits for the gate, next to a checkpoint that holds the gate and
  waits for the public lock (`Crossed`).

  The scopes of the three mutexes are tables on the places of the threads
  (`holdsPublic`, `holdsGate`, `holdsCheckpoint`); every step keeps each mutex owned
  by the thread its table names (`Scoped`).  From this, a blocked call always leaves
  another one that can move unless the state is crossed, and a crossed state stays so
  forever.
-/
import Lbug.Foundation.Mutex
import Lbug.Transaction.Manager
import Mathlib.Data.Fintype.Basic

namespace Lbug.Transaction

open Foundation Function Option

/-! ## Scopes of the mutexes -/

/-- The three mutexes of the manager. -/
inductive Mutex
  | publicFunctionCalls
  | startingNewTransactions
  | checkpoint
  deriving DecidableEq, Repr

/-- Places inside a scope of `mtxForSerializingPublicFunctionCalls`. -/
def holdsPublic : Place → Bool
  | .beginWantGate _ | .beginBody _ | .commitBody _ | .rollbackBody _ | .snapshot => true
  | _ => false

/-- Places inside a scope of `mtxForStartingNewTransactions`. -/
def holdsGate : Place → Bool
  | .beginBody type => type ≠ .readOnly
  | .drain _ | .checkpointWantPublic | .snapshot | .beginCheckpoint _ => true
  | .storagePhase walRotated | .finishCheckpoint walRotated => !walRotated
  | _ => false

/-- Places inside a scope of `mtxForCheckpoint`. -/
def holdsCheckpoint : Place → Bool
  | .checkpointWantGate | .drain _ | .checkpointWantPublic | .snapshot | .beginCheckpoint _
  | .storagePhase _ | .finishCheckpoint _ | .postCheckpointCleanup => true
  | _ => false

theorem holdsGate_beginBody {type : TransactionType} (hne : type ≠ .readOnly) :
    holdsGate (.beginBody type) = true :=
  decide_eq_true hne

/-- The mutex a place is about to lock.  `try_to_lock` never waits. -/
def waitsFor : Place → Option Mutex
  | .beginWantPublic _ | .commitWantPublic _ | .rollbackWantPublic _ | .checkpointWantPublic =>
    some .publicFunctionCalls
  | .beginWantGate _ | .checkpointWantGate => some .startingNewTransactions
  | .checkpointWantCheckpoint => some .checkpoint
  | _ => none

/-- A begin that holds the public lock and waits for the write gate. -/
def Place.atGate : Place → Bool
  | .beginWantGate _ => true
  | _ => false

variable {place : Place}

/-- A place inside a scope of the public lock waits, if at all, for the gate. -/
theorem atGate_or_of_holdsPublic (h : holdsPublic place = true) :
    place.atGate = true ∨ waitsFor place = none := by
  cases place <;> first | exact .inl rfl | exact .inr rfl | cases h

/-- A place inside a scope of the gate waits, if at all, for the public lock. -/
theorem wantPublic_or_of_holdsGate (h : holdsGate place = true) :
    place = .checkpointWantPublic ∨ waitsFor place = none := by
  cases place <;> first | exact .inl rfl | exact .inr rfl | cases h

theorem holdsGate_or_of_holdsCheckpoint (h : holdsCheckpoint place = true) :
    place = .checkpointWantGate ∨ holdsGate place = true ∨ waitsFor place = none := by
  cases place <;> first | exact .inl rfl | exact .inr (.inr rfl) | exact .inr (.inl rfl) | cases h

theorem atGate_iff : place.atGate = true ↔ ∃ type, place = .beginWantGate type := by
  cases place <;> simp [Place.atGate]

namespace Manager

variable {ι : Type} (s : Manager ι)

def owner : Mutex → Option ι
  | .publicFunctionCalls => s.publicLock
  | .startingNewTransactions => s.gate
  | .checkpoint => s.checkpointLock

/-- The call of thread `t` is blocked: it stands at a mutex that is locked. -/
def Blocked (t : ι) : Prop :=
  ∃ m, waitsFor (s.pc t) = some m ∧ (s.owner m).isSome = true

/-- Each mutex is owned by the thread that is inside its scope; a read-only begin does
not wait for the gate. -/
structure Scoped : Prop where
  publicLock : Owned s.publicLock s.pc holdsPublic
  gate : Owned s.gate s.pc holdsGate
  checkpointLock : Owned s.checkpointLock s.pc holdsCheckpoint
  atGate : ∀ t, s.pc t ≠ .beginWantGate .readOnly

/-- The lock orders cross: a begin holds the public lock and waits for the gate, a
checkpoint holds the gate and waits for the public lock. -/
def Crossed : Prop :=
  ∃ b c, (s.pc b).atGate = true ∧ s.pc c = .checkpointWantPublic

variable [DecidableEq ι] {s} {s' : Manager ι} {t b c : ι} {cfg : ManagerConfig} {a : ι × Choice}
  {ok : Manager ι → ι × Choice → Prop} {place' : Place}

/-- Thread `t` has a step. -/
def CanMove (cfg : ManagerConfig) (s : Manager ι) (t : ι) : Prop :=
  ∃ choice s', s.step cfg (t, choice) = some s'

/-- What any step of thread `t` does to the places and the mutexes: `t` moves from
`place` to `place'`, and each mutex is taken, kept or given up as its table says.  The
last two fields say where the two places of a crossing are entered from. -/
structure Moves (s s' : Manager ι) (t : ι) (place place' : Place) : Prop where
  source : s.pc t = place
  pc : s'.pc = update s.pc t place'
  publicLock : Shifts s.publicLock s'.publicLock t (holdsPublic place) (holdsPublic place')
  gate : Shifts s.gate s'.gate t (holdsGate place) (holdsGate place')
  checkpointLock :
    Shifts s.checkpointLock s'.checkpointLock t (holdsCheckpoint place) (holdsCheckpoint place')
  fromDrain : place' = .checkpointWantPublic →
    (∃ n, place = .drain n) ∧ s.hasActiveWriteTransactionNoLock = false
  fromBegin : ∀ type, place' = .beginWantGate type →
    place = .beginWantPublic type ∧ type ≠ .readOnly

theorem Moves.scoped (h : Moves s s' t place place') (hs : Scoped s) : Scoped s' := by
  obtain ⟨rfl, hpc, hpublic, hgate, hcheckpoint, -, hbegin⟩ := h
  refine ⟨?_, ?_, ?_, ?_⟩ <;> rw [hpc]
  · exact hs.publicLock.shift hpublic
  · exact hs.gate.shift hgate
  · exact hs.checkpointLock.shift hcheckpoint
  · intro u hu
    rcases eq_or_ne u t with rfl | hne
    · rw [update_self] at hu
      exact (hbegin .readOnly hu).2 rfl
    · rw [update_of_ne hne] at hu
      exact hs.atGate u hu

section

omit [DecidableEq ι]

theorem scoped_init : Scoped (init : Manager ι) where
  publicLock := by intro t; simp [init, holdsPublic]
  gate := by intro t; simp [init, holdsGate]
  checkpointLock := by intro t; simp [init, holdsCheckpoint]
  atGate := nofun

/-! ## The switches leave the mutexes and the places alone -/

/-- Two states agree on the mutexes and on the places. -/
structure SameLocks (s s' : Manager ι) : Prop where
  publicLock : s'.publicLock = s.publicLock
  gate : s'.gate = s.gate
  checkpointLock : s'.checkpointLock = s.checkpointLock
  pc : s'.pc = s.pc

theorem sameLocks_beginSwitch (cfg : ManagerConfig) (s : Manager ι) (type : TransactionType) :
    SameLocks s (s.beginSwitch cfg type) := by
  cases type with
  | readOnly | checkpoint | dummy => exact ⟨rfl, rfl, rfl, rfl⟩
  | write | recovery =>
    simp only [beginSwitch]
    split <;> exact ⟨rfl, rfl, rfl, rfl⟩

section

variable (s : Manager ι) (txn : TransactionEntry)

theorem sameLocks_commitSwitch : SameLocks s (s.commitSwitch txn) := by
  simp only [commitSwitch]
  split
  · exact ⟨rfl, rfl, rfl, rfl⟩
  · split <;> exact ⟨rfl, rfl, rfl, rfl⟩

theorem sameLocks_commitThrow : SameLocks s (s.commitThrow txn) := by
  simp only [commitThrow]
  split <;> exact ⟨rfl, rfl, rfl, rfl⟩

theorem sameLocks_rollbackSwitch : SameLocks s (s.rollbackSwitch txn) := by
  simp only [rollbackSwitch]
  split
  · exact ⟨rfl, rfl, rfl, rfl⟩
  · split <;> exact ⟨rfl, rfl, rfl, rfl⟩

end

theorem lockPublic_eq_some :
    s.lockPublic t = some s' ↔ s.publicLock = none ∧ s' = { s with publicLock := some t } := by
  unfold lockPublic
  split <;> simp_all [eq_comm]

theorem lockGate_eq_some :
    s.lockGate t = some s' ↔ s.gate = none ∧ s' = { s with gate := some t } := by
  unfold lockGate
  split <;> simp_all [eq_comm]

theorem lockCheckpoint_eq_some : s.lockCheckpoint t = some s' ↔
      s.checkpointLock = none ∧ s' = { s with checkpointLock := some t } := by
  unfold lockCheckpoint
  split <;> simp_all [eq_comm]

end

theorem call_moves {c : ManagerCall} (hpc : s.pc t = .idle) (h : s.call cfg t c = some s') :
    ∃ place', Moves s s' t .idle place' := by
  have hstay : Moves s s t .idle .idle := by
    refine ⟨hpc, ?_, rfl, rfl, rfl, nofun, nofun⟩
    rw [← hpc, update_eq_self]
  cases c with
  | beginTransaction =>
    cases h
    exact ⟨_, hpc, rfl, rfl, rfl, rfl, nofun, nofun⟩
  | commit | rollback =>
    simp only [call, ite_none_right_eq_some, some.injEq] at h
    obtain ⟨-, rfl⟩ := h
    exact ⟨_, hpc, rfl, rfl, rfl, rfl, nofun, nofun⟩
  | checkpoint | tryCheckpoint =>
    simp only [call] at h
    split at h
    · cases h
      exact ⟨_, hstay⟩
    · cases h
      exact ⟨_, hpc, rfl, rfl, rfl, rfl, nofun, nofun⟩

theorem drainStep_moves (cfg : ManagerConfig) {n : Nat} (hpc : s.pc t = .drain n) :
    ∃ place', Moves s (s.drainStep cfg t n) t (.drain n) place' := by
  simp only [drainStep]
  split
  · rename_i hnone
    refine ⟨_, hpc, rfl, rfl, rfl, rfl, fun _ => ⟨⟨n, rfl⟩, ?_⟩, nofun⟩
    exact Bool.not_eq_true' _ |>.mp hnone
  · split
    · exact ⟨_, hpc, rfl, rfl, rfl, rfl, nofun, nofun⟩
    · exact ⟨_, hpc, rfl, rfl, rfl, rfl, nofun, nofun⟩

/-- A commit or rollback leaves the scope of the public lock after its switch. -/
theorem leave_moves {s₁ : Manager ι} (hsame : SameLocks s s₁) (hpc : s.pc t = place)
    (hpublic : holdsPublic place = true) (hgate : holdsGate place = false)
    (hcheckpoint : holdsCheckpoint place = false)
    (hplace' : place' = .idle ∨ place' = .tryCheckpoint) :
    Moves s (s₁.unlockPublic.goto t place') t place place' := by
  have hpc' : (s₁.unlockPublic.goto t place').pc = update s.pc t place' := by
    rw [← hsame.pc]
    rfl
  rcases hplace' with rfl | rfl
  all_goals
    refine ⟨hpc, hpc', ?_, ?_, ?_, nofun, nofun⟩
    · rw [hpublic]; rfl
    · rw [hgate]; exact hsame.gate
    · rw [hcheckpoint]; exact hsame.checkpointLock

/-- The end of `beginTransaction` leaves the scope of the public lock, and that of the
gate for the types that took it. -/
theorem beginBody_moves (cfg : ManagerConfig) {type : TransactionType}
    (hpc : s.pc t = .beginBody type) :
    Moves s ((if type = .readOnly then s.beginSwitch cfg type
      else (s.beginSwitch cfg type).unlockGate).unlockPublic.goto t .idle) t
      (.beginBody type) .idle := by
  have hsame := sameLocks_beginSwitch cfg s type
  have hpc' := congrArg (update · t Place.idle) hsame.pc
  split_ifs with hne
  · subst type
    exact ⟨hpc, hpc', rfl, hsame.gate, hsame.checkpointLock, nofun, nofun⟩
  · refine ⟨hpc, hpc', rfl, ?_, hsame.checkpointLock, nofun, nofun⟩
    rw [holdsGate_beginBody hne]
    rfl

/-- A checkpoint phase that throws, or the end of the cleanup, leaves the scopes. -/
theorem checkpointThrow_moves (hpc : s.pc t = place) (hpublic : holdsPublic place = false)
    (hcheckpoint : holdsCheckpoint place = true) :
    Moves s (s.checkpointThrow t (holdsGate place)) t place .idle := by
  cases hgate : holdsGate place with
  | true | false =>
    refine ⟨hpc, rfl, ?_, ?_, ?_, nofun, nofun⟩
    · rw [hpublic]; rfl
    · rw [hgate]; rfl
    · rw [hcheckpoint]; rfl

/-- Every step moves one thread and takes or gives up the mutexes as the tables say. -/
theorem step_moves {choice : Choice} (hs : Scoped s) (h : s.step cfg (t, choice) = some s') :
    ∃ place place', Moves s s' t place place' := by
  simp only [step] at h
  split at h
  case h_1 c hpc => exact ⟨_, call_moves hpc h⟩
  case h_2 type _ hpc =>
    obtain ⟨_, hlock, rfl⟩ := map_eq_some_iff.mp h
    obtain ⟨hfree, rfl⟩ := lockPublic_eq_some.mp hlock
    split_ifs with hne
    · subst type
      exact ⟨_, _, hpc, rfl, ⟨hfree, rfl⟩, rfl, rfl, nofun, nofun⟩
    · refine ⟨_, _, hpc, rfl, ⟨hfree, rfl⟩, rfl, rfl, nofun, ?_⟩
      rintro _ ⟨⟩
      exact ⟨rfl, hne⟩
  case h_3 type _ hpc =>
    obtain ⟨_, hlock, rfl⟩ := map_eq_some_iff.mp h
    obtain ⟨hfree, rfl⟩ := lockGate_eq_some.mp hlock
    have hne : type ≠ .readOnly := fun heq => hs.atGate t (heq ▸ hpc)
    refine ⟨_, _, hpc, rfl, rfl, ?_, rfl, nofun, nofun⟩
    rw [holdsGate_beginBody hne]
    exact ⟨hfree, rfl⟩
  case h_4 type _ hpc =>
    cases h
    exact ⟨_, _, beginBody_moves cfg hpc⟩
  case h_5 _ _ hpc | h_9 _ _ hpc | h_16 hpc =>
    obtain ⟨_, hlock, rfl⟩ := map_eq_some_iff.mp h
    obtain ⟨hfree, rfl⟩ := lockPublic_eq_some.mp hlock
    exact ⟨_, _, hpc, rfl, ⟨hfree, rfl⟩, rfl, rfl, nofun, nofun⟩
  case h_6 txn _ hpc =>
    cases h
    exact ⟨_, _, leave_moves (sameLocks_commitSwitch s txn) hpc rfl rfl rfl (.inl rfl)⟩
  case h_7 txn hpc =>
    cases h
    refine ⟨_, _, leave_moves (sameLocks_commitSwitch s txn) hpc rfl rfl rfl ?_⟩
    split
    · exact .inr rfl
    · exact .inl rfl
  case h_8 txn hpc =>
    cases h
    exact ⟨_, _, leave_moves (sameLocks_commitThrow s txn) hpc rfl rfl rfl (.inl rfl)⟩
  case h_10 txn _ hpc =>
    cases h
    exact ⟨_, _, leave_moves (sameLocks_rollbackSwitch s txn) hpc rfl rfl rfl (.inl rfl)⟩
  case h_11 txn hpc =>
    cases h
    exact ⟨_, _, leave_moves ⟨rfl, rfl, rfl, rfl⟩ hpc rfl rfl rfl (.inl rfl)⟩
  case h_12 hpc =>
    obtain ⟨_, hlock, rfl⟩ := map_eq_some_iff.mp h
    obtain ⟨hfree, rfl⟩ := lockCheckpoint_eq_some.mp hlock
    exact ⟨_, _, hpc, rfl, rfl, rfl, ⟨hfree, rfl⟩, nofun, nofun⟩
  case h_13 hpc =>
    split at h
    · rename_i _ hlock
      cases h
      obtain ⟨hfree, rfl⟩ := lockCheckpoint_eq_some.mp hlock
      exact ⟨_, _, hpc, rfl, rfl, rfl, ⟨hfree, rfl⟩, nofun, nofun⟩
    · cases h
      exact ⟨_, _, hpc, rfl, rfl, rfl, rfl, nofun, nofun⟩
  case h_14 hpc =>
    obtain ⟨_, hlock, rfl⟩ := map_eq_some_iff.mp h
    obtain ⟨hfree, rfl⟩ := lockGate_eq_some.mp hlock
    exact ⟨_, _, hpc, rfl, rfl, ⟨hfree, rfl⟩, rfl, nofun, nofun⟩
  case h_15 n _ hpc =>
    cases h
    exact ⟨_, drainStep_moves cfg hpc⟩
  case h_17 hpc =>
    cases h
    exact ⟨_, _, hpc, rfl, rfl, rfl, rfl, nofun, nofun⟩
  case h_18 _ walRotated hpc | h_20 walRotated _ hpc | h_22 walRotated _ hpc =>
    cases h
    cases walRotated with
    | true | false => exact ⟨_, _, hpc, rfl, rfl, rfl, rfl, nofun, nofun⟩
  case h_19 _ hpc | h_21 _ hpc | h_23 _ hpc | h_24 hpc | h_25 hpc =>
    cases h
    exact ⟨_, _, checkpointThrow_moves hpc rfl rfl⟩
  case h_26 => cases h

theorem Scoped.step (hs : Scoped s) (h : s.step cfg a = some s') : Scoped s' := by
  obtain ⟨_, _, hmove⟩ := step_moves hs h
  exact hmove.scoped hs

theorem scoped_of_reachable (h : Reachable (step cfg) init ok s) : Scoped s :=
  h.invariant Scoped scoped_init fun _ _ _ hs _ hstep => hs.step hstep

/-- In every interleaving, two threads are never in the scope of one mutex: no two calls are
at their switches, no write transaction begins while a checkpoint has the gate, and no two
checkpoints run at a time. -/
theorem scopes_exclusive (h : Reachable (step cfg) init Always s) (hne : b ≠ c) :
    ¬(holdsPublic (s.pc b) ∧ holdsPublic (s.pc c)) ∧ ¬(holdsGate (s.pc b) ∧ holdsGate (s.pc c)) ∧
      ¬(holdsCheckpoint (s.pc b) ∧ holdsCheckpoint (s.pc c)) := by
  have hs := scoped_of_reachable h
  refine ⟨?_, ?_, ?_⟩ <;> rintro ⟨hb, hc⟩ <;> apply hne
  · exact hs.publicLock.unique hb hc
  · exact hs.gate.unique hb hc
  · exact hs.checkpointLock.unique hb hc

/-- A checkpoint drains the writers, and the begin of a writer has the public lock. -/
theorem scopes_exclusive_sample : ∃ s : Manager (Fin 2), Reachable (step {}) init Always s ∧
    s.pc 0 = .drain 0 ∧ s.pc 1 = .beginWantGate .write ∧
      ¬(holdsGate (s.pc 0) ∧ holdsGate (s.pc 1)) :=
  exists_reachable_of_run
    [(0, .call .checkpoint), (0, .go false), (0, .go false), (1, .call (.beginTransaction .write)),
      (1, .go false)]
    (fun s => s.pc 0 = .drain 0 ∧ s.pc 1 = .beginWantGate .write) (by decide +kernel)
    fun _ hs hpc => ⟨hpc.1, hpc.2, (scopes_exclusive hs (by decide)).2.1⟩

/-! ## Which calls can move -/

/-- A thread at a locked mutex has no step. -/
theorem Blocked.not_canMove (h : s.Blocked t) : ¬ s.CanMove cfg t := by
  rintro ⟨choice, s', hstep⟩
  obtain ⟨m, hwait, hlocked⟩ := h
  have hne : s.owner m ≠ none := isSome_iff_ne_none.mp hlocked
  cases hplace : s.pc t <;> rw [hplace] at hwait <;> cases hwait <;> cases choice <;>
    simp_all [step, owner, lockPublic, lockGate, lockCheckpoint]

/-- A thread inside a call that does not stand at a locked mutex has a step. -/
theorem canMove_of_not_blocked (cfg : ManagerConfig) (hcall : s.pc t ≠ .idle) (h : ¬ s.Blocked t) :
    s.CanMove cfg t := by
  have hfree : ∀ m, waitsFor (s.pc t) = some m → s.owner m = none := by
    intro m hwait
    by_contra hne
    exact h ⟨m, hwait, isSome_iff_ne_none.mpr hne⟩
  refine ⟨.go false, isSome_iff_exists.mp ?_⟩
  cases hplace : s.pc t <;>
    simp_all [step, waitsFor, owner, lockPublic, lockGate, lockCheckpoint]
  split <;> rfl

/-! ## Uncrossed states leave a call that can move -/

section Progress

variable {s : Manager ι} {u : ι}

section

omit [DecidableEq ι]

theorem not_blocked_of_waitsFor (h : waitsFor (s.pc t) = none) : ¬ s.Blocked t := by
  rintro ⟨m, hwait, -⟩
  cases h.symm.trans hwait

/-- A thread inside a call that is not blocked. -/
def Unblocked (s : Manager ι) (t : ι) : Prop := s.pc t ≠ .idle ∧ ¬ s.Blocked t

/-- A thread inside a scope that waits for no mutex is not blocked. -/
theorem unblocked_of_scope {holds : Place → Bool} (hidle : holds .idle = false)
    (hin : holds (s.pc t) = true) (h : waitsFor (s.pc t) = none) : s.Unblocked t := by
  refine ⟨fun heq => ?_, not_blocked_of_waitsFor h⟩
  rw [heq, hidle] at hin
  cases hin

/-- A thread that waits for a free mutex is not blocked. -/
theorem unblocked_of_free {m : Mutex} (hwait : waitsFor (s.pc t) = some m)
    (hfree : s.owner m = none) : s.Unblocked t := by
  refine ⟨fun hidle => ?_, ?_⟩
  · rw [hidle] at hwait
    cases hwait
  · rintro ⟨m', hwait', hlocked⟩
    cases hwait.symm.trans hwait'
    rw [hfree] at hlocked
    cases hlocked

end

section

variable (hs : Scoped s) (hnot : ¬ s.Crossed)

include hs hnot
omit [DecidableEq ι]

/-- While the gate is locked, its owner or the owner of the public lock can move. -/
theorem Scoped.unblocked_of_gate (hgate : s.gate = some u) : ∃ v, s.Unblocked v := by
  have hu := (hs.gate u).mp hgate
  rcases wantPublic_or_of_holdsGate hu with hwant | hnone
  · cases hpublic : s.publicLock with
    | none => exact ⟨u, unblocked_of_free (m := .publicFunctionCalls) (by rw [hwant]; rfl) hpublic⟩
    | some v =>
      have hv := (hs.publicLock v).mp hpublic
      rcases atGate_or_of_holdsPublic hv with hat | hnone
      · exact absurd ⟨v, u, hat, hwant⟩ hnot
      · exact ⟨v, unblocked_of_scope rfl hv hnone⟩
  · exact ⟨u, unblocked_of_scope rfl hu hnone⟩

theorem Scoped.unblocked_of_public (hpublic : s.publicLock = some u) : ∃ v, s.Unblocked v := by
  have hu := (hs.publicLock u).mp hpublic
  rcases atGate_or_of_holdsPublic hu with hat | hnone
  · obtain ⟨_, hpc⟩ := atGate_iff.mp hat
    cases hgate : s.gate with
    | none =>
      exact ⟨u, unblocked_of_free (m := .startingNewTransactions) (by rw [hpc]; rfl) hgate⟩
    | some => exact hs.unblocked_of_gate hnot hgate
  · exact ⟨u, unblocked_of_scope rfl hu hnone⟩

theorem Scoped.unblocked_of_checkpoint (hcheckpoint : s.checkpointLock = some u) :
    ∃ v, s.Unblocked v := by
  have hu := (hs.checkpointLock u).mp hcheckpoint
  rcases holdsGate_or_of_holdsCheckpoint hu with hwant | hgate | hnone
  · cases hgate : s.gate with
    | none =>
      exact ⟨u, unblocked_of_free (m := .startingNewTransactions) (by rw [hwant]; rfl) hgate⟩
    | some => exact hs.unblocked_of_gate hnot hgate
  · exact hs.unblocked_of_gate hnot ((hs.gate u).mpr hgate)
  · exact ⟨u, unblocked_of_scope rfl hu hnone⟩

end

/-- In an uncrossed state, a blocked call leaves another call that can move. -/
theorem Scoped.other_moves (cfg : ManagerConfig) (hs : Scoped s) (hnot : ¬ s.Crossed)
    (hblocked : s.Blocked t) : ∃ u, u ≠ t ∧ s.pc u ≠ .idle ∧ s.CanMove cfg u := by
  have hother : ∃ u, s.Unblocked u := by
    obtain ⟨m, -, hlocked⟩ := hblocked
    obtain ⟨_, hu⟩ := isSome_iff_exists.mp hlocked
    cases m with
    | publicFunctionCalls => exact hs.unblocked_of_public hnot hu
    | startingNewTransactions => exact hs.unblocked_of_gate hnot hu
    | checkpoint => exact hs.unblocked_of_checkpoint hnot hu
  obtain ⟨u, hcall, hfree⟩ := hother
  refine ⟨u, ?_, hcall, canMove_of_not_blocked cfg hcall hfree⟩
  rintro rfl
  exact hfree hblocked

end Progress

/-! ## Crossed states -/

section

variable (hs : Scoped s) (hb : (s.pc b).atGate = true) (hc : s.pc c = .checkpointWantPublic)

include hs hb hc

omit [DecidableEq ι] in
theorem Scoped.blocked_of_crossed : s.Blocked b ∧ s.Blocked c := by
  obtain ⟨_, hpc⟩ := atGate_iff.mp hb
  have hpublic : s.publicLock = some b := (hs.publicLock b).mpr (by rw [hpc]; rfl)
  have hgate : s.gate = some c := (hs.gate c).mpr (by rw [hc]; rfl)
  constructor
  · exact ⟨.startingNewTransactions, by rw [hpc]; rfl, by rw [owner, hgate]; rfl⟩
  · exact ⟨.publicFunctionCalls, by rw [hc]; rfl, by rw [owner, hpublic]; rfl⟩

/-- A crossed state has only crossed successors: neither of the two calls can move. -/
theorem Scoped.crossed_step (h : s.step cfg a = some s') :
    (s'.pc b).atGate = true ∧ s'.pc c = .checkpointWantPublic := by
  obtain ⟨t, choice⟩ := a
  obtain ⟨hblockedB, hblockedC⟩ := hs.blocked_of_crossed hb hc
  have hneB : b ≠ t := by
    rintro rfl
    exact hblockedB.not_canMove ⟨choice, s', h⟩
  have hneC : c ≠ t := by
    rintro rfl
    exact hblockedC.not_canMove ⟨choice, s', h⟩
  obtain ⟨_, _, hmove⟩ := step_moves hs h
  rw [hmove.pc, update_of_ne hneB, update_of_ne hneC]
  exact ⟨hb, hc⟩

/-- Whatever is called after the lock orders crossed, the begin and the checkpoint
stay blocked. -/
theorem Scoped.crossed_forever (h : Reachable (Manager.step cfg) s ok s') :
    s'.Blocked b ∧ s'.Blocked c := by
  have hinv := h.invariant
    (fun s => Scoped s ∧ (s.pc b).atGate = true ∧ s.pc c = .checkpointWantPublic) ⟨hs, hb, hc⟩ <| by
      rintro s a s' ⟨hs, hb, hc⟩ - hstep
      exact ⟨hs.step hstep, hs.crossed_step hb hc hstep⟩
  exact hinv.1.blocked_of_crossed hinv.2.1 hinv.2.2

end

/-- The steps that do not cross the lock orders: a begin takes the public lock on its
way to the gate only while no checkpoint stands between its drain loop and the public
lock, and a checkpoint leaves its drain loop only while no begin waits for the gate. -/
def KeepsOrder (s : Manager ι) (a : ι × Choice) : Prop :=
  match s.pc a.1 with
  | .beginWantPublic type => type ≠ .readOnly → ∀ u, s.pc u ≠ .checkpointWantPublic
  | .drain _ => s.hasActiveWriteTransactionNoLock = false → ∀ u, (s.pc u).atGate = false
  | _ => True

instance [Fintype ι] (s : Manager ι) (a : ι × Choice) : Decidable (s.KeepsOrder a) := by
  unfold KeepsOrder
  split <;> infer_instance

/-- A permitted step does not cross the lock orders. -/
theorem Scoped.not_crossed_step (hs : Scoped s) (hnot : ¬ s.Crossed) (hok : s.KeepsOrder a)
    (h : s.step cfg a = some s') :
    ¬ s'.Crossed := by
  obtain ⟨t, _⟩ := a
  obtain ⟨_, _, rfl, hpc, -, -, -, hdrain, hbegin⟩ := step_moves hs h
  rintro ⟨b, c, hb, hc⟩
  rw [hpc] at hb hc
  rcases eq_or_ne b t with rfl | hneB
  · -- the begin has just taken the public lock
    rw [update_self] at hb
    obtain ⟨type, rfl⟩ := atGate_iff.mp hb
    obtain ⟨hplace, hne⟩ := hbegin type rfl
    rcases eq_or_ne c b with rfl | hneC
    · rw [update_self] at hc
      cases hc
    · rw [update_of_ne hneC] at hc
      simp only [KeepsOrder, hplace] at hok
      exact hok hne c hc
  · rw [update_of_ne hneB] at hb
    rcases eq_or_ne c t with rfl | hneC
    · -- the checkpoint has just left its drain loop
      rw [update_self] at hc
      obtain ⟨⟨_, hplace⟩, hnone⟩ := hdrain hc
      simp only [KeepsOrder, hplace] at hok
      rw [hok hnone b] at hb
      cases hb
    · rw [update_of_ne hneC] at hc
      exact hnot ⟨b, c, hb, hc⟩

/-- A step that is not permitted crosses the lock orders. -/
theorem Scoped.crossed_of_not_keepsOrder (hs : Scoped s) (hbad : ¬ s.KeepsOrder a)
    (h : s.step cfg a = some s') :
    s'.Crossed := by
  obtain ⟨t, choice⟩ := a
  obtain ⟨_, _, hmove⟩ := step_moves hs h
  cases hplace : s.pc t <;> simp only [KeepsOrder, hplace, not_true_eq_false] at hbad
  case beginWantPublic type =>
    push Not at hbad
    obtain ⟨hne, c, hc⟩ := hbad
    have hneC : c ≠ t := by
      rintro rfl
      cases hc.symm.trans hplace
    cases choice <;> simp only [Manager.step, hplace, reduceCtorEq] at h
    obtain ⟨_, hlock, rfl⟩ := map_eq_some_iff.mp h
    obtain ⟨-, rfl⟩ := lockPublic_eq_some.mp hlock
    refine ⟨t, c, ?_, ?_⟩
    · simp [goto, hne, Place.atGate]
    · simp [goto, hneC, hc]
  case drain n =>
    push Not at hbad
    obtain ⟨hnone, b, hb⟩ := hbad
    have hneB : b ≠ t := by
      rintro rfl
      rw [hplace] at hb
      exact hb rfl
    cases choice <;> simp only [Manager.step, hplace, reduceCtorEq, some.injEq] at h
    subst h
    refine ⟨b, t, ?_, ?_⟩
    · simpa [drainStep, hnone, goto, hneB] using hb
    · simp [drainStep, hnone, goto]

theorem not_crossed_of_reachable (h : Reachable (step cfg) init KeepsOrder s) : ¬ s.Crossed := by
  have hinv := h.invariant (fun s => Scoped s ∧ ¬ s.Crossed)
    ⟨scoped_init, fun ⟨_, _, _, hc⟩ => nomatch hc⟩ <| by
      rintro s a s' ⟨hs, hnot⟩ hok hstep
      exact ⟨hs.step hstep, hs.not_crossed_step hnot hok hstep⟩
  exact hinv.2

/-- In every run that keeps the lock order, a blocked call leaves another call that can
move.  The condition is exact: any step of any run that breaks it leaves a begin and a
checkpoint blocked forever. -/
theorem blocked_other_moves (cfg : ManagerConfig) :
    (∀ s : Manager ι, Reachable (step cfg) init KeepsOrder s → ∀ t, s.Blocked t →
      ∃ u, u ≠ t ∧ s.pc u ≠ .idle ∧ s.CanMove cfg u) ∧
    (∀ (s s' : Manager ι) (a : ι × Choice), Reachable (step cfg) init Always s →
      ¬ s.KeepsOrder a → s.step cfg a = some s' →
      ∃ b c, b ≠ c ∧ ∀ s'', Reachable (step cfg) s' Always s'' → s''.Blocked b ∧
        s''.Blocked c) := by
  constructor
  · intro s h t hblocked
    exact (scoped_of_reachable h).other_moves cfg (not_crossed_of_reachable h) hblocked
  intro s s' a h hbad hstep
  have hs := scoped_of_reachable h
  obtain ⟨b, c, hb, hc⟩ := hs.crossed_of_not_keepsOrder hbad hstep
  refine ⟨b, c, ?_, fun s'' hrun => (hs.step hstep).crossed_forever hb hc hrun⟩
  rintro rfl
  rw [hc] at hb
  cases hb

/-- A read-only begin waits behind a write begin that holds the public lock. -/
theorem blocked_other_moves_sample :
    ∃ s : Manager (Fin 2), Reachable (step {}) init KeepsOrder s ∧ s.Blocked 1 ∧
      ∃ u, u ≠ 1 ∧ s.pc u ≠ .idle ∧ s.CanMove {} u := by
  refine exists_reachable_of_run
    [(0, .call (.beginTransaction .write)), (0, .go false),
      (1, .call (.beginTransaction .readOnly))]
    (fun s => s.pc 1 = .beginWantPublic .readOnly ∧ s.publicLock.isSome) (by decide +kernel) ?_
  rintro s hrun ⟨hpc, hlock⟩
  have hblocked : s.Blocked 1 := ⟨.publicFunctionCalls, by rw [hpc]; rfl, hlock⟩
  exact ⟨hblocked, (blocked_other_moves {}).1 s hrun 1 hblocked⟩

/-- A checkpoint that has drained the writers and a write begin that has taken the
public lock wait for each other: no thread of the system has a step. -/
theorem begin_checkpoint_deadlock :
    ∃ s : Manager (Fin 2), Reachable (step {}) init Always s ∧ s.Blocked 0 ∧
      ∀ u, ¬ s.CanMove {} u := by
  refine exists_reachable_of_run
    [(1, .call .checkpoint), (1, .go false), (1, .go false), (1, .go false),
      (0, .call (.beginTransaction .write)), (0, .go false)]
    (fun s => (s.pc 0).atGate ∧ s.pc 1 = .checkpointWantPublic) (by decide +kernel) ?_
  rintro s hrun ⟨hgate, hpc⟩
  obtain ⟨hb, hc⟩ := (scoped_of_reachable hrun).blocked_of_crossed hgate hpc
  refine ⟨hb, ?_⟩
  rw [Fin.forall_fin_two]
  exact ⟨hb.not_canMove, hc.not_canMove⟩

end Manager

end Lbug.Transaction
