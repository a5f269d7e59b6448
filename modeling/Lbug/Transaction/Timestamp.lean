/-
  Transaction/Timestamp.lean --- transaction numbers and snapshot visibility.

  Source: `include/common/types/types.h`, `include/transaction/transaction.h` and
  `include/transaction/transaction_manager.h`.

  A `transaction_t` is a 64-bit number that is used in two ways: as the ID of a
  transaction, at or above `START_TRANSACTION_ID`, and as a commit timestamp, below
  it.  No operation of the version chains computes with these numbers, it only
  compares them, so a `transaction_t` is modelled as a `Nat`.
-/
import Mathlib.Algebra.GroupWithZero.Nat

namespace Lbug.Transaction

/-- `common::INVALID_TRANSACTION`, the largest 64-bit number. -/
def invalidTransaction : Nat := 2 ^ 64 - 1

/-- `Transaction::START_TRANSACTION_ID`. -/
def startTransactionID : Nat := 2 ^ 63

/-- `Transaction::DUMMY_TRANSACTION_ID`. -/
def dummyTransactionID : Nat := 0

/-- The part of `transaction::Transaction` that visibility checks read. -/
structure Snapshot where
  id : Nat
  startTS : Nat
  deriving DecidableEq, Repr

/-- A version is seen by the transaction that wrote it and by every transaction
that started at or after the version's commit timestamp. -/
def visible (startTS transactionID version : Nat) : Bool :=
  version == transactionID || decide (version ≤ startTS)

theorem visible_iff {startTS transactionID version : Nat} :
    visible startTS transactionID version = true ↔ version = transactionID ∨ version ≤ startTS := by
  simp [visible]

/-- A snapshot whose numbers are in the range that the transaction manager hands
out: `INVALID_TRANSACTION` is neither an ID nor a start timestamp. -/
structure Snapshot.InRange (t : Snapshot) : Prop where
  id_ne : t.id ≠ invalidTransaction
  startTS_lt : t.startTS < invalidTransaction

theorem Snapshot.InRange.not_visible_invalid {t : Snapshot} (h : t.InRange) :
    visible t.startTS t.id invalidTransaction = false := by
  have h1 := h.id_ne
  have h2 := h.startTS_lt
  simp only [visible, Bool.or_eq_false_iff, beq_eq_false_iff_ne, decide_eq_false_iff_not]
  exact ⟨fun heq => h1 heq.symm, by omega⟩

end Lbug.Transaction
