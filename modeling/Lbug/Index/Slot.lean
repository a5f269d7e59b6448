/-
  Index/Slot.lean --- slots, slot chains and the header of a hash index.

  Source: `include/storage/index/hash_index_slot.h`,
  `include/storage/index/hash_index_header.h` and
  `include/storage/index/hash_index_utils.h`.

  A slot has `slotCapacity` positions, a validity bit and a fingerprint for each of
  them, and the ID of the next overflow slot.  An entry and its fingerprint are always
  set together, so a position holds `some` entry with its fingerprint when its bit is
  set and `none` otherwise.  A slot chain starts with a primary slot and goes on through
  overflow slots.

  The key type fixes the hash function and the capacity.  The hash masks of the header
  are those of its level, so `hash & levelHashMask` is written as a remainder.
-/
import Mathlib.Algebra.GroupWithZero.Nat
import Mathlib.Data.List.Basic
import Mathlib.Data.List.Nodup
import Mathlib.Logic.Function.Basic

namespace Lbug.Index

/-- What the key type of an index fixes: `HashIndexUtils::hash`, `SLOT_CAPACITY` of the
in-memory index, `PERSISTENT_SLOT_CAPACITY` and the number of slots of one page.  The two
capacities differ for strings, which a persistent slot holds as `string_t`. -/
structure KeyType (K : Type) where
  hash : K → Nat
  slotCapacity : Nat
  persistentSlotCapacity : Nat
  slotsPerPage : Nat
  slotCapacity_pos : 0 < slotCapacity
  persistentSlotCapacity_pos : 0 < persistentSlotCapacity
  two_le_slotsPerPage : 2 ≤ slotsPerPage

/-- The key type with the slots of the persistent index. -/
def KeyType.persistent {K : Type} (T : KeyType K) : KeyType K :=
  { T with
    slotCapacity := T.persistentSlotCapacity
    slotCapacity_pos := T.persistentSlotCapacity_pos }

structure SlotEntry (K : Type) where
  key : K
  value : Nat
  fingerprint : Nat
  deriving DecidableEq, Repr

/-- Where a slot is: `SlotInfo` with its `SlotType`. -/
inductive SlotInfo where
  | primary (slotId : Nat)
  | ovf (slotId : Nat)
  deriving DecidableEq, Repr

def SlotInfo.isPrimary : SlotInfo → Bool
  | .primary _ => true
  | .ovf _ => false

structure Slot (K : Type) where
  entries : Nat → Option (SlotEntry K) := fun _ => none
  nextOvfSlotId : Option Nat := none

structure HashIndexHeader where
  currentLevel : Nat := 1
  nextSplitSlotId : Nat := 0
  numEntries : Nat := 0
  firstFreeOverflowSlotId : Option Nat := none
  deriving DecidableEq, Repr

namespace HashIndexHeader

def incrementLevel (h : HashIndexHeader) : HashIndexHeader :=
  { h with currentLevel := h.currentLevel + 1, nextSplitSlotId := 0 }

def incrementNextSplitSlotId (h : HashIndexHeader) : HashIndexHeader :=
  if h.nextSplitSlotId < 2 ^ h.currentLevel - 1 then
    { h with nextSplitSlotId := h.nextSplitSlotId + 1 }
  else h.incrementLevel

/-- `HashIndexUtils::getPrimarySlotIdForHash`. -/
def getPrimarySlotIdForHash (h : HashIndexHeader) (hash : Nat) : Nat :=
  if hash % 2 ^ h.currentLevel < h.nextSplitSlotId then hash % 2 ^ (h.currentLevel + 1)
  else hash % 2 ^ h.currentLevel

end HashIndexHeader

/-- Two headers that differ at most in the first free overflow slot. -/
structure HashIndexHeader.Agrees (h h' : HashIndexHeader) : Prop where
  currentLevel : h'.currentLevel = h.currentLevel
  nextSplitSlotId : h'.nextSplitSlotId = h.nextSplitSlotId
  numEntries : h'.numEntries = h.numEntries

/-- `HashIndexUtils::getFingerprintForHash`. -/
def getFingerprintForHash (hash : Nat) : Nat := hash / 2 ^ 48 % 256

/-- `HashIndexUtils::getNumRequiredEntries`: `numEntries` times the load factor 1.5,
rounded up. -/
def getNumRequiredEntries (numEntries : Nat) : Nat := (3 * numEntries + 1) / 2

/-- The number of slots of capacity `capacity` for `numEntries` entries at the load
factor. -/
def numRequiredSlots (capacity numEntries : Nat) : Nat :=
  (getNumRequiredEntries numEntries + capacity - 1) / capacity

/-! ## The levels of linear hashing -/

/-- `2 ^ currentLevel + nextSplitSlotId` primary slots are in use. -/
structure HashIndexHeader.Covers (h : HashIndexHeader) (numSlots : Nat) : Prop where
  size : numSlots = 2 ^ h.currentLevel + h.nextSplitSlotId
  split_lt : h.nextSplitSlotId < 2 ^ h.currentLevel

namespace HashIndexHeader

variable {h : HashIndexHeader} {n hash : Nat} {h' : HashIndexHeader}

theorem Agrees.refl (h : HashIndexHeader) : h.Agrees h := ⟨rfl, rfl, rfl⟩

theorem Agrees.trans {h₁ h₂ h₃ : HashIndexHeader} (h : h₁.Agrees h₂) (h' : h₂.Agrees h₃) :
    h₁.Agrees h₃ :=
  ⟨h'.currentLevel.trans h.currentLevel, h'.nextSplitSlotId.trans h.nextSplitSlotId,
    h'.numEntries.trans h.numEntries⟩

theorem Agrees.slot (hagree : h.Agrees h') (hash : Nat) :
    h'.getPrimarySlotIdForHash hash = h.getPrimarySlotIdForHash hash := by
  simp [getPrimarySlotIdForHash, hagree.currentLevel, hagree.nextSplitSlotId]

theorem Agrees.covers (hagree : h.Agrees h') (hc : h.Covers n) : h'.Covers n :=
  ⟨by rw [hagree.currentLevel, hagree.nextSplitSlotId]; exact hc.size,
    by rw [hagree.currentLevel, hagree.nextSplitSlotId]; exact hc.split_lt⟩

theorem mod_two_pow_succ (hash level : Nat) : hash % 2 ^ (level + 1) = hash % 2 ^ level ∨
      hash % 2 ^ (level + 1) = hash % 2 ^ level + 2 ^ level := by
  rw [Nat.pow_succ, Nat.mod_mul]
  rcases Nat.mod_two_eq_zero_or_one (hash / 2 ^ level) with hbit | hbit
  · exact .inl (by rw [hbit, Nat.mul_zero, Nat.add_zero])
  · exact .inr (by rw [hbit, Nat.mul_one])

variable (hc : h.Covers n)

include hc

theorem Covers.slot_lt (hash : Nat) : h.getPrimarySlotIdForHash hash < n := by
  have hlt := Nat.mod_lt hash (Nat.two_pow_pos h.currentLevel)
  have hsize := hc.size
  unfold getPrimarySlotIdForHash
  split
  · rcases mod_two_pow_succ hash h.currentLevel with heq | heq <;> omega
  · omega

theorem Covers.split_lt_size : h.nextSplitSlotId < n := by
  have := hc.size
  have := hc.split_lt
  omega

theorem incrementLevel_covers (hlast : h.nextSplitSlotId + 1 = 2 ^ h.currentLevel) :
    h.incrementLevel.Covers (n + 1) := by
  have hsize := hc.size
  constructor
  · simp only [incrementLevel]
    omega
  · exact Nat.two_pow_pos _

theorem Covers.increment : h.incrementNextSplitSlotId.Covers (n + 1) := by
  have hlt := hc.split_lt
  have hsize := hc.size
  unfold incrementNextSplitSlotId
  split
  · exact ⟨by simp only; omega, by simp only; omega⟩
  · exact incrementLevel_covers hc (by omega)

/-- A split moves a hash from the slot that is split to the new last slot, or leaves it
where it is. -/
theorem Covers.slot_increment (hash : Nat) :
    h.incrementNextSplitSlotId.getPrimarySlotIdForHash hash =
      if h.getPrimarySlotIdForHash hash = h.nextSplitSlotId ∧
          hash % 2 ^ (h.currentLevel + 1) ≠ h.nextSplitSlotId then n
      else h.getPrimarySlotIdForHash hash := by
  have hlt := hc.split_lt
  have hsize := hc.size
  have hmod := mod_two_pow_succ hash h.currentLevel
  have hbound := Nat.mod_lt hash (Nat.two_pow_pos h.currentLevel)
  unfold incrementNextSplitSlotId
  by_cases hlast : h.nextSplitSlotId < 2 ^ h.currentLevel - 1
  · simp only [hlast, if_true, getPrimarySlotIdForHash]
    split <;> split <;> split <;> omega
  · simp only [hlast, if_false, getPrimarySlotIdForHash, incrementLevel, Nat.not_lt_zero]
    split <;> split <;> omega

end HashIndexHeader

namespace Slot

variable {K : Type}

def isEntryValid (slot : Slot K) (entryPos : Nat) : Bool := (slot.entries entryPos).isSome

/-- `setEntryValid` of a position that gets an entry, `setEntryInvalid` of one that loses
it. -/
def setEntry (slot : Slot K) (entryPos : Nat) (entry : Option (SlotEntry K)) : Slot K :=
  { slot with entries := Function.update slot.entries entryPos entry }

/-- The number of validity bits that are set. -/
def numEntries (capacity : Nat) (slot : Slot K) : Nat :=
  (List.range capacity).countP fun entryPos => slot.isEntryValid entryPos

variable (slot : Slot K) (entryPos : Nat) (entry : Option (SlotEntry K))

@[simp] theorem setEntry_next :
    (slot.setEntry entryPos entry).nextOvfSlotId = slot.nextOvfSlotId := rfl

theorem setEntry_entries (j : Nat) :
    (slot.setEntry entryPos entry).entries j = if j = entryPos then entry else slot.entries j := by
  rcases eq_or_ne j entryPos with rfl | h
  · simp [setEntry]
  · simp [setEntry, h]

end Slot

/-! ## Chains -/

section Chain

variable {K : Type} {slots : SlotInfo → Slot K} {chain : List SlotInfo} {i : SlotInfo}

/-- The slots of a chain: the primary slot and the overflow slots in order. -/
def chainSlots (slotId : Nat) (overflow : List Nat) : List SlotInfo :=
  .primary slotId :: overflow.map .ovf

/-- Each slot points to the one after it and the last one to none. -/
def Linked (slots : SlotInfo → Slot K) (chain : List SlotInfo) : Prop :=
  ∀ k i, chain[k]? = some i → (slots i).nextOvfSlotId.map .ovf = chain[k + 1]?

theorem Linked.congr {slots' : SlotInfo → Slot K} (h : Linked slots chain)
    (hnext : ∀ i ∈ chain, (slots' i).nextOvfSlotId = (slots i).nextOvfSlotId) :
    Linked slots' chain := by
  intro k i hi
  rw [hnext i (List.mem_of_getElem? hi)]
  exact h k i hi

theorem Linked.tail (h : Linked slots (i :: chain)) : Linked slots chain := by
  intro k j hj
  have := h (k + 1) j (by simpa using hj)
  simpa using this

theorem Linked.next_head (h : Linked slots (i :: chain)) :
    (slots i).nextOvfSlotId.map SlotInfo.ovf = chain.head? := by
  have := h 0 i rfl
  rw [this]
  cases chain <;> rfl

end Chain

end Lbug.Index
