/-
  Transaction/History.lean --- the life of transactions.

  Source: `transaction/transaction_manager.cpp` (`beginTransaction`, `commit`,
  `rollback`), `transaction/transaction.cpp` and `storage/undo_buffer.cpp`
  (`UndoBuffer::commit`, `UndoBuffer::rollback`).

  A transaction gets the next ID and the last commit timestamp as its start timestamp.
  While it is active, its changes push records to its undo buffer.  A commit takes a
  timestamp above all earlier ones and visits the records in the order in which they
  were pushed; a rollback visits them in reverse order.  The changes and reads of other
  transactions come between the records.  The transaction manager serialises begins,
  commits and rollbacks; here at most one commit is under way, and a begin or a rollback
  may also come in the middle of it or of another rollback, so there are more runs than
  the program has.

  The type `ρ` of undo records is a parameter: each versioned structure instantiates it
  with its own records.  `VersionOf` and `Sees` are the two sides of snapshot
  isolation: the numbers with which a transaction's changes may be marked, and the
  transactions whose changes a snapshot contains.
-/
import Lbug.Transaction.Timestamp
import Mathlib.Logic.Function.Basic
import Mathlib.Tactic.Simps.Basic

namespace Lbug.Transaction

open List Function Option

inductive Phase where
  | notStarted
  | active
  | committing (commitTS : Nat)
  | committed (commitTS : Nat)
  | rollingBack
  | rolledBack
  deriving DecidableEq, Repr

/-- The versions that may mark a change of transaction `id` in this phase. -/
def Phase.Marks (id version : Nat) : Phase → Prop
  | .notStarted => False
  | .committed cts => version = cts
  | .committing cts => version = id ∨ version = cts
  | _ => version = id

/-- One transaction: `undo` is its undo buffer, newest record first, and `pending` the
records that a commit under way has not visited yet. -/
structure Txn (ρ : Type) where
  startTS : Nat := 0
  phase : Phase := .notStarted
  undo : List ρ := []
  pending : List ρ := []

/-- The transactions by ID, with the two counters of the transaction manager and the
transaction whose commit holds its lock. -/
structure TxnTable (ρ : Type) where
  lastTransactionID : Nat := startTransactionID
  lastTimestamp : Nat := 1
  committer : Option Nat := none
  txn : Nat → Txn ρ := fun _ => {}

namespace TxnTable

variable {ρ : Type}

section

variable (tb : TxnTable ρ)

section

variable (id : Nat)

def snapshot : Snapshot := ⟨id, (tb.txn id).startTS⟩

@[simps -fullyApplied]
def put (t : Txn ρ) : TxnTable ρ :=
  { tb with txn := update tb.txn id t }

/-- `beginTransaction`; `none` when the IDs are used up. -/
def begin : Option (TxnTable ρ) :=
  if tb.lastTransactionID + 1 < invalidTransaction then
    some { tb with
      lastTransactionID := tb.lastTransactionID + 1
      txn := update tb.txn (tb.lastTransactionID + 1)
        { startTS := tb.lastTimestamp, phase := .active } }
  else none

def setUndo (undo : List ρ) : TxnTable ρ :=
  tb.put id { tb.txn id with undo }

def setPending (pending : List ρ) : TxnTable ρ :=
  tb.put id { tb.txn id with pending }

/-- Push an undo record of an active transaction. -/
def push (record : ρ) : TxnTable ρ :=
  tb.setUndo id (record :: (tb.txn id).undo)

/-- The commit of `id` has begun. -/
def CommitBegun : Bool :=
  match (tb.txn id).phase with
  | .committing _ | .committed _ => true
  | _ => false

/-- Take a commit timestamp; the range of timestamps ends where the IDs begin. -/
def startCommit (id commitTS : Nat) : Option (TxnTable ρ) :=
  if (tb.txn id).phase = .active ∧ tb.committer = none ∧ tb.lastTimestamp < commitTS ∧
      commitTS < startTransactionID then
    some { tb.put id { tb.txn id with
      phase := .committing commitTS, pending := (tb.txn id).undo.reverse } with
        committer := some id }
  else none

/-- The next record that the commit of `id` visits, with its timestamp. -/
def nextPending : Option (ρ × Nat × TxnTable ρ) :=
  match (tb.txn id).phase, (tb.txn id).pending with
  | .committing cts, record :: rest =>
    some (record, cts, tb.setPending id rest)
  | _, _ => none

def finishCommit : Option (TxnTable ρ) :=
  match (tb.txn id).phase, (tb.txn id).pending with
  | .committing cts, [] =>
    some { tb.put id { tb.txn id with phase := .committed cts, undo := [] } with
      lastTimestamp := cts, committer := none }
  | _, _ => none

def startRollback : Option (TxnTable ρ) :=
  if (tb.txn id).phase = .active then
    some (tb.put id { tb.txn id with phase := .rollingBack })
  else none

/-- The next record that the rollback of `id` visits. -/
def nextUndo : Option (ρ × TxnTable ρ) :=
  match (tb.txn id).phase, (tb.txn id).undo with
  | .rollingBack, record :: rest => some (record, tb.setUndo id rest)
  | _, _ => none

def finishRollback : Option (TxnTable ρ) :=
  if (tb.txn id).phase = .rollingBack ∧ (tb.txn id).undo.isEmpty then
    some (tb.put id { tb.txn id with phase := .rolledBack })
  else none

/-- The timestamp of a finished commit. -/
def commitTS : Option Nat :=
  match (tb.txn id).phase with
  | .committed cts => some cts
  | _ => none

end

/-- `other` committed no later than `id` started. -/
def CommittedBefore (other id : Nat) : Prop :=
  ∃ cts, tb.commitTS other = some cts ∧ cts ≤ (tb.txn id).startTS

end

instance (tb : TxnTable ρ) (other id : Nat) : Decidable (tb.CommittedBefore other id) :=
  decidable_of_iff ((tb.commitTS other).any (· ≤ (tb.txn id).startTS) = true) (by
    unfold CommittedBefore
    cases tb.commitTS other <;> simp)

/-- The changes of `other` belong to the snapshot of `id`. -/
def Sees (tb : TxnTable ρ) (id other : Nat) : Prop :=
  other = id ∨ tb.CommittedBefore other id
  deriving Decidable

/-! ## What the counters guarantee -/

/-- IDs and timestamps lie in disjoint ranges and are handed out in increasing order. -/
structure WellFormed (tb : TxnTable ρ) : Prop where
  id_ge : startTransactionID ≤ tb.lastTransactionID
  id_lt : tb.lastTransactionID < invalidTransaction
  timestamp_lt : tb.lastTimestamp < startTransactionID
  started : ∀ id, (tb.txn id).phase ≠ .notStarted →
    startTransactionID < id ∧ id ≤ tb.lastTransactionID
  unused : ∀ id, (tb.txn id).phase = .notStarted → (tb.txn id).undo = []
  startTS_le : ∀ id, (tb.txn id).startTS ≤ tb.lastTimestamp
  committing : ∀ id cts, (tb.txn id).phase = .committing cts →
    tb.committer = some id ∧ tb.lastTimestamp < cts ∧ cts < startTransactionID
  committed : ∀ id cts, (tb.txn id).phase = .committed cts →
    (tb.txn id).startTS < cts ∧ cts ≤ tb.lastTimestamp
  commitTS_inj : ∀ a b cts, (tb.txn a).phase = .committed cts →
    (tb.txn b).phase = .committed cts → a = b

/-- `version` may mark a change of transaction `id`: its ID until the commit has
visited the change, the commit timestamp from then on. -/
def VersionOf (tb : TxnTable ρ) (id version : Nat) : Prop := (tb.txn id).phase.Marks id version

theorem wellFormed_init : ({} : TxnTable ρ).WellFormed where
  id_ge := Nat.le_refl _
  id_lt := by
    show startTransactionID < invalidTransaction
    decide
  timestamp_lt := by
    show 1 < startTransactionID
    decide
  started := fun _ h => absurd rfl h
  unused := fun _ _ => rfl
  startTS_le := fun _ => Nat.zero_le _
  committing := fun _ _ h => by cases h
  committed := fun _ _ h => by cases h
  commitTS_inj := fun _ _ _ h => by cases h

variable {tb tb' : TxnTable ρ} {id a b v cts : Nat} {t : Txn ρ} {r record : ρ} {records : List ρ}

theorem startTransactionID_lt_invalid : startTransactionID < invalidTransaction := by decide

theorem commitTS_eq_some : tb.commitTS id = some cts ↔ (tb.txn id).phase = .committed cts := by
  unfold commitTS
  cases (tb.txn id).phase <;> simp

theorem VersionOf.started (h : tb.VersionOf a v) : (tb.txn a).phase ≠ .notStarted := by
  intro hp
  simp [VersionOf, hp, Phase.Marks] at h

section

variable (hwf : tb.WellFormed)

include hwf

theorem WellFormed.version_cases (h : tb.VersionOf a v) :
    (v = a ∧ startTransactionID < v ∧ v < invalidTransaction ∧ tb.commitTS a = none) ∨
    (v < startTransactionID ∧ ((tb.txn a).phase = .committing v ∨
      (tb.txn a).phase = .committed v)) := by
  have hstarted := hwf.started a h.started
  have hlast := hwf.id_lt
  have htime := hwf.timestamp_lt
  cases hp : (tb.txn a).phase with
  | notStarted => exact absurd hp h.started
  | committed cts =>
    have hcts := hwf.committed a cts hp
    simp only [VersionOf, hp] at h
    subst h
    exact .inr ⟨by omega, .inr rfl⟩
  | committing cts =>
    have hcts := hwf.committing a cts hp
    simp only [VersionOf, hp] at h
    rcases h with rfl | rfl
    · exact .inl ⟨rfl, hstarted.1, by omega, by simp [commitTS, hp]⟩
    · exact .inr ⟨hcts.2.2, .inl rfl⟩
  | active | rollingBack | rolledBack =>
    simp only [VersionOf, hp] at h
    subst h
    exact .inl ⟨rfl, hstarted.1, by omega, by simp [commitTS, hp]⟩

theorem WellFormed.version_ne_invalid (h : tb.VersionOf a v) : v ≠ invalidTransaction := by
  have hlt := startTransactionID_lt_invalid
  rcases hwf.version_cases h with ⟨_, _, hv, _⟩ | ⟨hv, _⟩ <;> omega

/-- A version marks the changes of one transaction only. -/
theorem WellFormed.version_inj (ha : tb.VersionOf a v) (hb : tb.VersionOf b v) : a = b := by
  rcases hwf.version_cases ha with ⟨ha1, ha2, _⟩ | ⟨ha1, ha2⟩
  · rcases hwf.version_cases hb with ⟨hb1, _⟩ | ⟨hb1, _⟩ <;> omega
  rcases hwf.version_cases hb with ⟨hb1, _⟩ | ⟨_, hb2⟩
  · omega
  rcases ha2 with ha2 | ha2 <;> rcases hb2 with hb2 | hb2
  · have h1 := (hwf.committing a v ha2).1
    have h2 := (hwf.committing b v hb2).1
    rw [h1] at h2
    exact some.inj h2
  · have := (hwf.committing a v ha2).2.1
    have := (hwf.committed b v hb2).2
    omega
  · have := (hwf.committed a v ha2).2
    have := (hwf.committing b v hb2).2.1
    omega
  · exact hwf.commitTS_inj a b v ha2 hb2

theorem WellFormed.snapshot_inRange (h : (tb.txn id).phase ≠ .notStarted) :
    (tb.snapshot id).InRange where
  id_ne := by
    have h1 := hwf.started id h
    have h2 := hwf.id_lt
    show id ≠ invalidTransaction
    omega
  startTS_lt := by
    have h1 := hwf.startTS_le id
    have h2 := hwf.timestamp_lt
    have h3 := startTransactionID_lt_invalid
    show (tb.txn id).startTS < invalidTransaction
    omega

/-- Comparing versions decides visibility: the version of a change of `a` passes the
check of a transaction `id`, whose own commit has not begun, exactly when `id` sees
`a`. -/
theorem WellFormed.visible_iff_sees (hstarted : (tb.txn id).phase ≠ .notStarted)
    (hid : tb.CommitBegun id = false) (h : tb.VersionOf a v) :
    visible (tb.snapshot id).startTS (tb.snapshot id).id v = true ↔ tb.Sees id a := by
  have hstart : (tb.txn id).startTS ≤ tb.lastTimestamp := hwf.startTS_le id
  have htime := hwf.timestamp_lt
  have hrange := hwf.started id hstarted
  rw [visible_iff]
  show v = id ∨ v ≤ (tb.txn id).startTS ↔ a = id ∨ tb.CommittedBefore a id
  unfold CommittedBefore
  rcases hwf.version_cases h with ⟨hva, hlt, _, hnone⟩ | ⟨hlt, hphase⟩
  · simp only [hnone, reduceCtorEq, false_and, exists_false, or_false]
    omega
  have hne : a ≠ id := by
    rintro rfl
    rcases hphase with hp | hp <;> simp [CommitBegun, hp] at hid
  have hv : v ≠ id := by omega
  rcases hphase with hp | hp
  · have := (hwf.committing a v hp).2.1
    simp only [hne, false_or, commitTS_eq_some, hp, reduceCtorEq, false_and, exists_false,
      iff_false]
    omega
  · simp [hv, hne, commitTS_eq_some, hp]

end

/-! ## What a step of a transaction keeps -/

/-- A later table: still well formed, with every version and every commit of before. -/
structure Advance (tb tb' : TxnTable ρ) : Prop where
  wf : tb'.WellFormed
  version : ∀ a v, tb.VersionOf a v → tb'.VersionOf a v
  committed : ∀ a cts, (tb.txn a).phase = .committed cts → (tb'.txn a).phase = .committed cts
  startTS : ∀ a, (tb.txn a).phase ≠ .notStarted → (tb'.txn a).startTS = (tb.txn a).startTS

/-- What the new transaction has in common with the old one stays for everybody. -/
theorem put_apply {β : Type*} (f : Txn ρ → β) (h : f t = f (tb.txn id)) (a : Nat) :
    f ((tb.put id t).txn a) = f (tb.txn a) := by
  rcases eq_or_ne a id with rfl | ha
  · simpa using h
  · simp [ha]

/-- The changes of phase that touch neither versions nor commits. -/
inductive QuietChange : Phase → Phase → Prop
  | same (p : Phase) : QuietChange p p
  | startRollback : QuietChange .active .rollingBack
  | finishRollback : QuietChange .rollingBack .rolledBack

namespace QuietChange

variable {p q : Phase}

variable (h : QuietChange p q)

include h

theorem notStarted_iff : q = .notStarted ↔ p = .notStarted := by
  cases h <;> simp

theorem committing (hq : q = .committing cts) : p = .committing cts := by
  cases h with
  | same => exact hq
  | startRollback | finishRollback => cases hq

theorem committed_iff : q = .committed cts ↔ p = .committed cts := by
  cases h <;> simp

theorem marks (hv : p.Marks a v) : q.Marks a v := by
  cases h <;> exact hv

end QuietChange

/-- A step that changes the transaction `id` only: the counters stay in order if they go up
and the transaction fits them. -/
theorem WellFormed.of_update (hwf : tb.WellFormed) (htxn : tb'.txn = update tb.txn id t)
    (hlast : tb.lastTransactionID ≤ tb'.lastTransactionID ∧
      tb'.lastTransactionID < invalidTransaction)
    (htime : tb.lastTimestamp ≤ tb'.lastTimestamp ∧ tb'.lastTimestamp < startTransactionID)
    (hid : startTransactionID < id ∧ id ≤ tb'.lastTransactionID)
    (ht : t.phase ≠ .notStarted ∧ t.startTS ≤ tb'.lastTimestamp)
    (hcommitting : ∀ a cts, (tb'.txn a).phase = .committing cts →
      tb'.committer = some a ∧ tb'.lastTimestamp < cts ∧ cts < startTransactionID)
    (hcommitted : ∀ cts, t.phase = .committed cts → t.startTS < cts ∧ cts ≤ tb'.lastTimestamp ∧
      ((tb.txn id).phase = .committed cts ∨ tb.lastTimestamp < cts)) : tb'.WellFormed := by
  have hself : tb'.txn id = t := by rw [htxn, update_self]
  have hother : ∀ a, a ≠ id → tb'.txn a = tb.txn a := fun a ha => by
    rw [htxn, update_of_ne ha]
  -- no other transaction has the commit timestamp of `id`
  have hinj : ∀ a cts, a ≠ id → (tb.txn a).phase = .committed cts → t.phase ≠ .committed cts := by
    intro a cts ha hp hq
    rcases (hcommitted cts hq).2.2 with hsame | hlt
    · exact ha (hwf.commitTS_inj a id cts hp hsame)
    · have := (hwf.committed a cts hp).2
      omega
  refine ⟨Nat.le_trans hwf.id_ge hlast.1, hlast.2, htime.2, fun a h => ?_, fun a h => ?_,
    fun a => ?_, hcommitting, fun a cts h => ?_, fun a b cts h1 h2 => ?_⟩
  · by_cases ha : a = id
    · exact ha ▸ hid
    · rw [hother a ha] at h
      have := hwf.started a h
      omega
  · have ha : a ≠ id := by
      rintro rfl
      exact ht.1 (hself ▸ h)
    rw [hother a ha] at h ⊢
    exact hwf.unused a h
  · rcases eq_or_ne a id with rfl | ha
    · exact hself ▸ ht.2
    · rw [hother a ha]
      exact Nat.le_trans (hwf.startTS_le a) htime.1
  · rcases eq_or_ne a id with rfl | ha
    · rw [hself] at h ⊢
      exact ⟨(hcommitted cts h).1, (hcommitted cts h).2.1⟩
    · rw [hother a ha] at h ⊢
      have := hwf.committed a cts h
      omega
  · by_cases ha : a = id <;> by_cases hb : b = id
    · rw [ha, hb]
    · rw [hother b hb] at h2
      rw [ha, hself] at h1
      exact absurd h1 (hinj b cts hb h2)
    · rw [hother a ha] at h1
      rw [hb, hself] at h2
      exact absurd h2 (hinj a cts ha h1)
    · rw [hother a ha] at h1
      rw [hother b hb] at h2
      exact hwf.commitTS_inj a b cts h1 h2

theorem versionOf_congr (h : (tb'.txn a).phase = (tb.txn a).phase) :
    tb'.VersionOf a v ↔ tb.VersionOf a v := by
  unfold VersionOf
  rw [h]

theorem advance_put (hwf : tb.WellFormed) (hid : (tb.txn id).phase ≠ .notStarted)
    (hstart : t.startTS = (tb.txn id).startTS) (hphase : QuietChange (tb.txn id).phase t.phase) :
    tb.Advance (tb.put id t) := by
  -- only `id` may change its phase
  have hchange : ∀ a, QuietChange (tb.txn a).phase ((tb.put id t).txn a).phase := by
    intro a
    rcases eq_or_ne a id with rfl | ha
    · simpa using hphase
    · simpa [ha] using QuietChange.same _
  constructor
  · refine hwf.of_update rfl ⟨Nat.le_refl _, hwf.id_lt⟩ ⟨Nat.le_refl _, hwf.timestamp_lt⟩
      (hwf.started id hid) ⟨fun h => hid (hphase.notStarted_iff.mp h), ?_⟩
      (fun a cts h => hwf.committing a cts ((hchange a).committing h)) fun cts h => ?_
    · rw [hstart]
      exact hwf.startTS_le id
    · have hp := hphase.committed_iff.mp h
      rw [hstart]
      exact ⟨(hwf.committed id cts hp).1, (hwf.committed id cts hp).2, .inl hp⟩
  · exact fun a v h => (hchange a).marks h
  · exact fun a cts => (hchange a).committed_iff.mpr
  · exact fun a _ => put_apply Txn.startTS hstart a

section Records

variable (tb : TxnTable ρ) (id : Nat) (records : List ρ) (a : Nat)

@[simp] theorem setUndo_phase : ((tb.setUndo id records).txn a).phase = (tb.txn a).phase :=
  put_apply Txn.phase (by rfl) a

@[simp] theorem setUndo_pending : ((tb.setUndo id records).txn a).pending = (tb.txn a).pending :=
  put_apply Txn.pending (by rfl) a

theorem setUndo_undo : ((tb.setUndo id records).txn a).undo =
    if a = id then records else (tb.txn a).undo := by
  by_cases h : a = id
  · subst h; simp [setUndo]
  · simp [setUndo, h]

@[simp] theorem setUndo_commitBegun : (tb.setUndo id records).CommitBegun a = tb.CommitBegun a := by
  simp [CommitBegun]

@[simp] theorem setPending_phase : ((tb.setPending id records).txn a).phase = (tb.txn a).phase :=
  put_apply Txn.phase (by rfl) a

@[simp] theorem setPending_undo : ((tb.setPending id records).txn a).undo = (tb.txn a).undo :=
  put_apply Txn.undo (by rfl) a

theorem setPending_pending : ((tb.setPending id records).txn a).pending =
    if a = id then records else (tb.txn a).pending := by
  by_cases h : a = id
  · subst h; simp [setPending]
  · simp [setPending, h]

@[simp] theorem setPending_commitBegun :
    (tb.setPending id records).CommitBegun a = tb.CommitBegun a := by
  simp [CommitBegun]

variable {tb id a}

theorem mem_push_undo :
    r ∈ ((tb.push id record).txn a).undo ↔ (a = id ∧ r = record) ∨ r ∈ (tb.txn a).undo := by
  rw [push, setUndo_undo]
  split
  · rename_i heq
    subst heq
    simp
  · rename_i hne
    simp [hne]

variable (hwf : tb.WellFormed) (hid : (tb.txn id).phase ≠ .notStarted)

include hwf hid

theorem advance_setUndo : tb.Advance (tb.setUndo id records) := advance_put hwf hid rfl (.same _)

theorem advance_setPending : tb.Advance (tb.setPending id records) :=
  advance_put hwf hid rfl (.same _)

end Records

theorem begin_eq_some (h : tb.begin = some tb') : tb.lastTransactionID + 1 < invalidTransaction ∧
    tb' = { tb with
      lastTransactionID := tb.lastTransactionID + 1
      txn := update tb.txn (tb.lastTransactionID + 1)
        { startTS := tb.lastTimestamp, phase := .active } } := by
  obtain ⟨hlt, heq⟩ := ite_none_right_eq_some.mp h
  exact ⟨hlt, (some.inj heq).symm⟩

/-- The next ID has not been used. -/
theorem WellFormed.fresh (hwf : tb.WellFormed) :
    (tb.txn (tb.lastTransactionID + 1)).phase = .notStarted := by
  by_contra h
  have := (hwf.started _ h).2
  omega

theorem advance_begin (hwf : tb.WellFormed) (h : tb.begin = some tb') : tb.Advance tb' := by
  obtain ⟨hlt, rfl⟩ := begin_eq_some h
  have hother : ∀ a, (tb.txn a).phase ≠ .notStarted → a ≠ tb.lastTransactionID + 1 := by
    rintro a ha rfl
    exact ha hwf.fresh
  constructor
  · refine hwf.of_update rfl ⟨Nat.le_succ _, hlt⟩ ⟨Nat.le_refl _, hwf.timestamp_lt⟩
      ⟨Nat.lt_succ_of_le hwf.id_ge, Nat.le_refl _⟩ ⟨nofun, Nat.le_refl _⟩ (fun a cts hp => ?_) nofun
    have heq : a ≠ tb.lastTransactionID + 1 := by
      rintro rfl
      simp at hp
    simp only [update_of_ne heq] at hp
    exact hwf.committing a cts hp
  · intro a v hv
    have heq := hother a hv.started
    exact (versionOf_congr (by simp [heq])).mpr hv
  · intro a cts hp
    have heq := hother a (by simp [hp])
    simpa [heq] using hp
  · intro a ha
    simp [hother a ha]

theorem startCommit_eq_some (h : tb.startCommit id cts = some tb') :
    (tb.txn id).phase = .active ∧ tb.committer = none ∧ tb.lastTimestamp < cts ∧
      cts < startTransactionID ∧
      tb' = { tb.put id { tb.txn id with
        phase := .committing cts, pending := (tb.txn id).undo.reverse } with
          committer := some id } := by
  obtain ⟨⟨hactive, hnone, hlt, hrange⟩, heq⟩ := ite_none_right_eq_some.mp h
  exact ⟨hactive, hnone, hlt, hrange, (some.inj heq).symm⟩

theorem advance_startCommit (hwf : tb.WellFormed) (h : tb.startCommit id cts = some tb') :
    tb.Advance tb' := by
  obtain ⟨hactive, hnone, hlt, hrange, rfl⟩ := startCommit_eq_some h
  constructor
  · refine hwf.of_update rfl ⟨Nat.le_refl _, hwf.id_lt⟩ ⟨Nat.le_refl _, hwf.timestamp_lt⟩
      (hwf.started id (by simp [hactive])) ⟨nofun, hwf.startTS_le id⟩
      (fun a c hp => ?_) nofun
    rcases eq_or_ne a id with rfl | heq
    · simp only [put_txn, update_self, Phase.committing.injEq] at hp
      subst hp
      exact ⟨rfl, hlt, hrange⟩
    · -- nobody else is committing
      have hother := (hwf.committing a c (by simpa [heq] using hp)).1
      rw [hnone] at hother
      cases hother
  · intro a v hv
    rcases eq_or_ne a id with rfl | heq
    · simp only [VersionOf, hactive, Phase.Marks] at hv
      simp [VersionOf, Phase.Marks, hv]
    · exact (versionOf_congr (by simp [heq])).mpr hv
  · intro a c hp
    have heq : a ≠ id := by
      rintro rfl
      rw [hactive] at hp
      cases hp
    simpa [heq] using hp
  · exact fun a _ => put_apply Txn.startTS (by rfl) a

theorem nextPending_eq_some (h : tb.nextPending id = some (record, cts, tb')) :
    (tb.txn id).phase = .committing cts ∧ ∃ rest, (tb.txn id).pending = record :: rest ∧
      tb' = tb.setPending id rest := by
  unfold nextPending at h
  split at h
  · rename_i c r rest hp hq
    simp only [some.injEq] at h
    obtain ⟨rfl, rfl, rfl⟩ := h
    exact ⟨hp, rest, hq, rfl⟩
  · cases h

theorem finishCommit_eq_some (h : tb.finishCommit id = some tb') :
    ∃ cts, (tb.txn id).phase = .committing cts ∧ (tb.txn id).pending = [] ∧
      tb' = { tb.put id { tb.txn id with phase := .committed cts, undo := [] } with
        lastTimestamp := cts, committer := none } := by
  unfold finishCommit at h
  split at h
  · rename_i cts hp hq
    exact ⟨cts, hp, hq, (some.inj h).symm⟩
  · cases h

theorem startRollback_eq_some (h : tb.startRollback id = some tb') :
    (tb.txn id).phase = .active ∧ tb' = tb.put id { tb.txn id with phase := .rollingBack } := by
  obtain ⟨hp, heq⟩ := ite_none_right_eq_some.mp h
  exact ⟨hp, (some.inj heq).symm⟩

theorem nextUndo_eq_some (h : tb.nextUndo id = some (record, tb')) :
    (tb.txn id).phase = .rollingBack ∧ ∃ rest, (tb.txn id).undo = record :: rest ∧
      tb' = tb.setUndo id rest := by
  unfold nextUndo at h
  split at h
  · rename_i r rest hp hq
    simp only [some.injEq] at h
    obtain ⟨rfl, rfl⟩ := h
    exact ⟨hp, rest, hq, rfl⟩
  · cases h

theorem finishRollback_eq_some (h : tb.finishRollback id = some tb') :
    (tb.txn id).phase = .rollingBack ∧ (tb.txn id).undo = [] ∧
      tb' = tb.put id { tb.txn id with phase := .rolledBack } := by
  obtain ⟨⟨hp, hempty⟩, heq⟩ := ite_none_right_eq_some.mp h
  exact ⟨hp, isEmpty_iff.mp hempty, (some.inj heq).symm⟩

/-- The end of a commit makes its timestamp the last one.  The versions of the other
transactions stay, and those of `id` that already are the timestamp. -/
theorem wellFormed_finishCommit (hwf : tb.WellFormed) (h : tb.finishCommit id = some tb') :
    tb'.WellFormed ∧
    (∀ a v, tb.VersionOf a v → (∀ cts, a = id → (tb.txn id).phase = .committing cts → v = cts) →
      tb'.VersionOf a v) ∧
    ∀ a cts, (tb.txn a).phase = .committed cts → (tb'.txn a).phase = .committed cts := by
  obtain ⟨cts, hphase, -, rfl⟩ := finishCommit_eq_some h
  obtain ⟨hcommitter, hlt, hrange⟩ := hwf.committing id cts hphase
  refine ⟨?_, ?_, ?_⟩
  · refine hwf.of_update rfl ⟨Nat.le_refl _, hwf.id_lt⟩ ⟨Nat.le_of_lt hlt, hrange⟩
      (hwf.started id (by simp [hphase]))
      ⟨nofun, Nat.le_trans (hwf.startTS_le id) (Nat.le_of_lt hlt)⟩ (fun a c hp => ?_) fun c hp => ?_
    · -- the commit under way was the only one
      have heq : a ≠ id := by
        rintro rfl
        simp at hp
      have hother := (hwf.committing a c (by simpa [heq] using hp)).1
      rw [hcommitter] at hother
      exact absurd (some.inj hother).symm heq
    · cases hp
      exact ⟨Nat.lt_of_le_of_lt (hwf.startTS_le id) hlt, Nat.le_refl _, .inr hlt⟩
  · intro a v hv hmoved
    rcases eq_or_ne a id with rfl | heq
    · simp [VersionOf, Phase.Marks, hmoved cts rfl hphase]
    · exact (versionOf_congr (by simp [heq])).mpr hv
  · intro a c hp
    have heq : a ≠ id := by
      rintro rfl
      rw [hphase] at hp
      cases hp
    simpa [heq] using hp

/-- A step in the life of a transaction that leaves the records where they are: a
begin, the start of a commit, and the start and the end of a rollback. -/
structure LifeStep (tb tb' : TxnTable ρ) : Prop where
  advance : tb.Advance tb'
  committed_old : ∀ a cts, (tb'.txn a).phase = .committed cts → (tb.txn a).phase = .committed cts
  undo : ∀ a, (tb'.txn a).undo = (tb.txn a).undo
  begun : ∀ a, tb'.CommitBegun a = false → tb.CommitBegun a = false
  pending : ∀ a cts, (tb'.txn a).phase = .committing cts →
    ((tb.txn a).phase = .committing cts ∧ (tb'.txn a).pending = (tb.txn a).pending) ∨
    (tb.CommitBegun a = false ∧ (tb'.txn a).pending = (tb.txn a).undo.reverse)
  rolling : ∀ a, (tb'.txn a).phase ≠ .rollingBack →
    (tb.txn a).phase ≠ .rollingBack ∨ (tb.txn a).undo = []

/-- It is enough to look at the one transaction that takes the step. -/
theorem LifeStep.of_update (hadv : tb.Advance tb') (htxn : tb'.txn = update tb.txn id t)
    (hundo : t.undo = (tb.txn id).undo) (hbegun : tb.CommitBegun id = false)
    (hnot : ∀ cts, t.phase ≠ .committed cts)
    (hpending : ∀ cts, t.phase = .committing cts → t.pending = (tb.txn id).undo.reverse)
    (hrolling : t.phase ≠ .rollingBack → (tb.txn id).phase ≠ .rollingBack ∨ (tb.txn id).undo = []) :
    tb.LifeStep tb' := by
  refine ⟨hadv, fun a cts => ?_, fun a => ?_, fun a => ?_, fun a cts => ?_, fun a => ?_⟩ <;>
    by_cases heq : a = id
  · subst heq
    intro hp
    rw [htxn, update_self] at hp
    exact absurd hp (hnot cts)
  · simp [htxn, heq]
  · subst heq
    simpa [htxn] using hundo
  · simp [htxn, heq]
  · subst heq
    exact fun _ => hbegun
  · simp [CommitBegun, htxn, heq]
  · subst heq
    simpa [htxn] using fun hp => Or.inr ⟨hbegun, hpending cts hp⟩
  · simpa [htxn, heq] using Or.inl
  · subst heq
    simpa [htxn] using hrolling
  · simpa [htxn, heq] using Or.inl

section

variable (hwf : tb.WellFormed)

include hwf

theorem lifeStep_begin (h : tb.begin = some tb') : tb.LifeStep tb' := by
  have hadv := advance_begin hwf h
  obtain ⟨-, rfl⟩ := begin_eq_some h
  refine .of_update hadv rfl (hwf.unused _ hwf.fresh).symm ?_ nofun nofun fun _ => .inl ?_
  · simp [CommitBegun, hwf.fresh]
  · simp [hwf.fresh]

theorem lifeStep_startCommit (h : tb.startCommit id cts = some tb') : tb.LifeStep tb' := by
  have hadv := advance_startCommit hwf h
  obtain ⟨hactive, -, -, -, rfl⟩ := startCommit_eq_some h
  refine .of_update hadv rfl rfl ?_ nofun (fun _ _ => rfl) fun _ => .inl ?_
  · simp [CommitBegun, hactive]
  · simp [hactive]

theorem lifeStep_startRollback (h : tb.startRollback id = some tb') : tb.LifeStep tb' := by
  obtain ⟨hactive, rfl⟩ := startRollback_eq_some h
  have hadv := advance_put hwf (by simp [hactive])
    (t := { tb.txn id with phase := .rollingBack }) rfl (by rw [hactive]; exact .startRollback)
  refine .of_update hadv rfl rfl ?_ nofun nofun fun hne => absurd rfl hne
  simp [CommitBegun, hactive]

theorem lifeStep_finishRollback (h : tb.finishRollback id = some tb') : tb.LifeStep tb' := by
  obtain ⟨hrolling, hnil, rfl⟩ := finishRollback_eq_some h
  have hadv := advance_put hwf (by simp [hrolling])
    (t := { tb.txn id with phase := .rolledBack }) rfl (by rw [hrolling]; exact .finishRollback)
  refine .of_update hadv rfl rfl ?_ nofun nofun fun _ => .inr hnil
  simp [CommitBegun, hrolling]

end

/-! ## Who committed before whom -/

theorem committedBefore_congr (hphase : ∀ cts, (tb'.txn a).phase = .committed cts ↔
      (tb.txn a).phase = .committed cts)
    (hstart : (tb'.txn b).startTS = (tb.txn b).startTS) :
    tb'.CommittedBefore a b ↔ tb.CommittedBefore a b := by
  unfold CommittedBefore
  simp only [commitTS_eq_some, hphase, hstart]

theorem LifeStep.committedBefore_iff (h : tb.LifeStep tb') (hb : (tb.txn b).phase ≠ .notStarted) :
    tb'.CommittedBefore a b ↔ tb.CommittedBefore a b :=
  committedBefore_congr (fun cts => ⟨h.committed_old a cts, h.advance.committed a cts⟩)
    (h.advance.startTS b hb)

/-- A commit that ends now is later than every start. -/
theorem finishCommit_committedBefore_iff (hwf : tb.WellFormed) (h : tb.finishCommit id = some tb') :
    tb'.CommittedBefore a b ↔ tb.CommittedBefore a b := by
  obtain ⟨cts, hphase, -, rfl⟩ := finishCommit_eq_some h
  have hlt := (hwf.committing id cts hphase).2.1
  have hstart : (update tb.txn id { tb.txn id with phase := .committed cts, undo := [] }
      b).startTS = (tb.txn b).startTS := put_apply Txn.startTS (by rfl) b
  rcases eq_or_ne a id with rfl | ha
  · have hle := hwf.startTS_le b
    constructor
    · rintro ⟨c, hc, hcle⟩
      simp only [commitTS_eq_some, put_txn, update_self, Phase.committed.injEq] at hc
      simp only [put_txn, hstart] at hcle
      omega
    · rintro ⟨c, hc, _⟩
      rw [commitTS_eq_some, hphase] at hc
      cases hc
  · exact committedBefore_congr (fun c => by simp [ha]) hstart

theorem setUndo_committedBefore_iff :
    (tb.setUndo id records).CommittedBefore a b ↔ tb.CommittedBefore a b :=
  committedBefore_congr (fun _ => by simp) (put_apply Txn.startTS (by rfl) b)

theorem setPending_committedBefore_iff :
    (tb.setPending id records).CommittedBefore a b ↔ tb.CommittedBefore a b :=
  committedBefore_congr (fun _ => by simp) (put_apply Txn.startTS (by rfl) b)

/-! ## Changes and their records -/

/-- A change of `owner` that carries the version `v`, with undo records of the kind `p`: one is
in the undo buffer until the commit begins, and a commit under way has moved the change to
its timestamp or is still to visit one. -/
structure Recorded (tb : TxnTable ρ) (owner v : Nat) (p : ρ → Prop) : Prop where
  version : tb.VersionOf owner v
  undo : tb.CommitBegun owner = false → ∃ r ∈ (tb.txn owner).undo, p r
  pending : ∀ cts, (tb.txn owner).phase = .committing cts →
    v = cts ∨ ∃ r ∈ (tb.txn owner).pending, p r

/-- A commit visits records of the undo buffer. -/
def VisitsUndo (tb : TxnTable ρ) : Prop :=
  ∀ id cts, (tb.txn id).phase = .committing cts →
    ∀ record ∈ (tb.txn id).pending, record ∈ (tb.txn id).undo

/-- A step that visits no record: what it keeps of the changes and their records. -/
structure Keeps (tb tb' : TxnTable ρ) : Prop where
  wf : tb'.WellFormed
  recorded : ∀ {owner v p}, tb.Recorded owner v p → tb'.Recorded owner v p
  visits : tb.VisitsUndo → tb'.VisitsUndo
  committed : ∀ a cts, (tb.txn a).phase = .committed cts → (tb'.txn a).phase = .committed cts
  before : ∀ {a b}, (tb.txn b).phase ≠ .notStarted →
    (tb'.CommittedBefore a b ↔ tb.CommittedBefore a b)
  undo : ∀ a, (tb'.txn a).undo = (tb.txn a).undo ∨ (tb'.txn a).undo = [] ∧ tb'.commitTS a ≠ none
  rolling : ∀ a, (tb'.txn a).phase ≠ .rollingBack →
    (tb.txn a).phase ≠ .rollingBack ∨ (tb'.txn a).undo = []

theorem Keeps.mem_undo (h : tb.Keeps tb') (hr : r ∈ (tb'.txn a).undo) : r ∈ (tb.txn a).undo := by
  rcases h.undo a with heq | ⟨hnil, -⟩
  · exact heq ▸ hr
  · rw [hnil] at hr
    cases hr

theorem LifeStep.keeps (h : tb.LifeStep tb') : tb.Keeps tb' where
  wf := h.advance.wf
  recorded := by
    intro owner v p hrec
    refine ⟨h.advance.version _ _ hrec.version, fun hb => ?_, fun cts hp => ?_⟩
    · rw [h.undo]
      exact hrec.undo (h.begun _ hb)
    · rcases h.pending _ cts hp with ⟨hphase, heq⟩ | ⟨hb, heq⟩
      · rw [heq]
        exact hrec.pending cts hphase
      · obtain ⟨r, hr, hpr⟩ := hrec.undo hb
        exact .inr ⟨r, heq ▸ mem_reverse.mpr hr, hpr⟩
  visits := by
    intro hvisits a cts hp record hmem
    rw [h.undo]
    rcases h.pending a cts hp with ⟨hphase, heq⟩ | ⟨-, heq⟩
    · exact hvisits a cts hphase record (heq ▸ hmem)
    · exact mem_reverse.mp (heq ▸ hmem)
  committed := h.advance.committed
  before := h.committedBefore_iff
  undo := fun a => .inl (h.undo a)
  rolling := fun a hp => (h.rolling a hp).imp_right fun hnil => (h.undo a).trans hnil

/-- When a commit ends, all of its changes carry its timestamp. -/
theorem keeps_finishCommit (hwf : tb.WellFormed) (h : tb.finishCommit id = some tb') :
    tb.Keeps tb' := by
  obtain ⟨hwf', hversion, hcommitted⟩ := wellFormed_finishCommit hwf h
  have hbefore := @finishCommit_committedBefore_iff _ tb tb' id
  obtain ⟨cts, hphase, hnil, htb'⟩ := finishCommit_eq_some h
  have hself : (tb'.txn id).phase = .committed cts := by simp [htb']
  have hother : ∀ a, a ≠ id → tb'.txn a = tb.txn a := fun a ha => by simp [htb', ha]
  have hne : ∀ a c, (tb'.txn a).phase = .committing c → a ≠ id := by
    rintro a c hp rfl
    rw [hself] at hp
    cases hp
  refine ⟨hwf', @fun owner v p hrec => ⟨?_, fun hb => ?_, fun c hp => ?_⟩,
    fun hvisits a c hp => ?_, hcommitted, fun _ => hbefore hwf h, fun a => ?_, fun a _ => ?_⟩
  · refine hversion _ _ hrec.version fun c heq hp => ?_
    rcases hrec.pending c (heq ▸ hp) with hc | ⟨_, hr, -⟩
    · exact hc
    · rw [heq, hnil] at hr
      cases hr
  · have ha : owner ≠ id := by
      rintro rfl
      simp [CommitBegun, hself] at hb
    rw [hother _ ha]
    exact hrec.undo (by simpa [CommitBegun, hother _ ha] using hb)
  · have ha := hother _ (hne _ _ hp)
    rw [ha] at hp ⊢
    exact hrec.pending c hp
  · have ha := hother _ (hne _ _ hp)
    rw [ha] at hp ⊢
    exact hvisits a c hp
  · rcases eq_or_ne a id with rfl | ha
    · exact .inr ⟨by simp [htb'], by simp [commitTS, hself]⟩
    · exact .inl (by rw [hother a ha])
  · rcases eq_or_ne a id with rfl | ha
    · exact .inr (by simp [htb'])
    · exact .inl (by rwa [← hother a ha])

/-- A call that only moves a transaction on visits no record. -/
theorem keeps_of_life (hwf : tb.WellFormed) (h : tb.begin = some tb' ∨ ∃ id,
    (∃ cts, tb.startCommit id cts = some tb') ∨ tb.finishCommit id = some tb' ∨
      tb.startRollback id = some tb' ∨ tb.finishRollback id = some tb') : tb.Keeps tb' := by
  obtain h | ⟨_, ⟨_, h⟩ | h | h | h⟩ := h
  · exact (lifeStep_begin hwf h).keeps
  · exact (lifeStep_startCommit hwf h).keeps
  · exact keeps_finishCommit hwf h
  · exact (lifeStep_startRollback hwf h).keeps
  · exact (lifeStep_finishRollback hwf h).keeps

section Visit

variable {owner : Nat} {p : ρ → Prop} {rest : List ρ}

theorem versionOf_self (h : (tb.txn id).phase = .active ∨ (tb.txn id).phase = .rollingBack) :
    tb.VersionOf id id := by
  rcases h with h | h <;> simp [VersionOf, h, Phase.Marks]

theorem Recorded.push (h : tb.Recorded owner v p) (hwf : tb.WellFormed)
    (hid : (tb.txn id).phase ≠ .notStarted) : (tb.push id record).Recorded owner v p where
  version := (advance_setUndo _ hwf hid).version _ _ h.version
  undo := fun hb => by
    obtain ⟨r, hr, hp⟩ := h.undo (by simpa [TxnTable.push] using hb)
    exact ⟨r, mem_push_undo.mpr (.inr hr), hp⟩
  pending := by simpa [TxnTable.push] using h.pending

/-- A change that is made now. -/
theorem recorded_push (hwf : tb.WellFormed) (hactive : (tb.txn id).phase = .active)
    (hp : p record) : (tb.push id record).Recorded id id p where
  version := (advance_setUndo _ hwf (by simp [hactive])).version _ _
    (versionOf_self (.inl hactive))
  undo := fun _ => ⟨record, mem_push_undo.mpr (.inl ⟨rfl, rfl⟩), hp⟩
  pending := fun c hc => by simp [push, hactive] at hc

theorem VisitsUndo.push (h : tb.VisitsUndo) : (tb.push id record).VisitsUndo := by
  intro a c hp r hr
  simp only [TxnTable.push, setUndo_phase, setUndo_pending] at hp hr
  exact mem_push_undo.mpr (.inr (h a c hp r hr))

/-- A change that the commit under way has moved to its timestamp. -/
theorem recorded_commitTS (hphase : (tb.txn id).phase = .committing cts) :
    tb.Recorded id cts p where
  version := by simp [VersionOf, hphase, Phase.Marks]
  undo := fun hb => by simp [CommitBegun, hphase] at hb
  pending := fun c hc => .inl (Phase.committing.inj (hphase.symm.trans hc))

/-- A commit has visited a record. -/
theorem Recorded.setPending (h : tb.Recorded owner v p) (hwf : tb.WellFormed)
    (hphase : (tb.txn id).phase = .committing cts)
    (hpending : (tb.txn id).pending = record :: rest)
    (hdone : owner = id → p record → v = cts) :
    (tb.setPending id rest).Recorded owner v p where
  version := (advance_setPending _ hwf (by simp [hphase])).version _ _ h.version
  undo := by simpa using h.undo
  pending := by
    intro c hc
    rw [setPending_phase] at hc
    rw [setPending_pending]
    rcases h.pending c hc with hv | ⟨r, hr, hpr⟩
    · exact .inl hv
    split
    · rename_i heq
      subst heq
      cases hphase.symm.trans hc
      rw [hpending] at hr
      rcases mem_cons.mp hr with rfl | hr
      · exact .inl (hdone rfl hpr)
      · exact .inr ⟨r, hr, hpr⟩
    · exact .inr ⟨r, hr, hpr⟩

theorem VisitsUndo.setPending (h : tb.VisitsUndo)
    (hpending : (tb.txn id).pending = record :: rest) : (tb.setPending id rest).VisitsUndo := by
  intro a c hp r hr
  simp only [setPending_phase, setPending_pending, setPending_undo] at hp hr ⊢
  refine h a c hp r ?_
  split at hr
  · rename_i heq
    rw [heq, hpending]
    exact mem_cons_of_mem _ hr
  · exact hr

/-- A record that is visited leaves the undo buffer. -/
theorem mem_undo_of_rest (hundo : (tb.txn id).undo = record :: rest)
    (hr : r ∈ ((tb.setUndo id rest).txn a).undo) : r ∈ (tb.txn a).undo := by
  rw [setUndo_undo] at hr
  split at hr
  · rename_i heq
    rw [heq, hundo]
    exact mem_cons_of_mem _ hr
  · exact hr

theorem mem_rest_of_undo (hundo : (tb.txn id).undo = record :: rest) (hr : r ∈ (tb.txn a).undo) :
    r ∈ ((tb.setUndo id rest).txn a).undo ∨ (a = id ∧ r = record) := by
  rw [setUndo_undo]
  split
  · rename_i heq
    rw [heq, hundo] at hr
    exact (mem_cons.mp hr).symm.imp_right fun h => ⟨heq, h⟩
  · exact .inl hr

/-- A rollback has undone a record. -/
theorem Recorded.setUndo (h : tb.Recorded owner v p) (hwf : tb.WellFormed)
    (hphase : (tb.txn id).phase = .rollingBack) (hundo : (tb.txn id).undo = record :: rest)
    (hother : owner = id → ¬ p record) : (tb.setUndo id rest).Recorded owner v p where
  version := (advance_setUndo _ hwf (by simp [hphase])).version _ _ h.version
  undo := fun hb => by
    obtain ⟨r, hr, hpr⟩ := h.undo (by simpa using hb)
    rcases mem_rest_of_undo hundo hr with hr | ⟨heq, rfl⟩
    · exact ⟨r, hr, hpr⟩
    · exact absurd hpr (hother heq)
  pending := by simpa using h.pending

theorem VisitsUndo.setUndo (h : tb.VisitsUndo) (hphase : (tb.txn id).phase = .rollingBack)
    (hundo : (tb.txn id).undo = record :: rest) : (tb.setUndo id rest).VisitsUndo := by
  intro a c hp r hr
  simp only [setUndo_phase, setUndo_pending] at hp hr
  rcases mem_rest_of_undo hundo (h a c hp r hr) with hr | ⟨heq, -⟩
  · exact hr
  · rw [heq, hphase] at hp
    cases hp

end Visit

end TxnTable

end Lbug.Transaction
