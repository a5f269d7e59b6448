/-
  Index/SlotChain.lean --- chains of slots as one sequence of positions.

  The slots of a chain, one after the other, are read as one sequence of positions:
  position `x` is position `x % capacity` of the slot `x / capacity`.  A chain without
  gaps holds a list `L` of entries when position `x` holds `L[x]?`.  The writes of the
  index change one position (`entryAt_setEntry`), so what a chain holds is computed with
  lists.
-/
import Lbug.Index.Slot

namespace Lbug.Index

open List Option

variable {K : Type} {capacity : Nat} {slots slots' : SlotInfo → Slot K} {chain : List SlotInfo}
  {L : List (SlotEntry K)} {i : SlotInfo} {k j x : Nat}

/-- The entry at position `x` of a chain. -/
def entryAt (capacity : Nat) (slots : SlotInfo → Slot K) (chain : List SlotInfo) (x : Nat) :
    Option (SlotEntry K) :=
  chain[x / capacity]?.bind fun i => (slots i).entries (x % capacity)

/-- The positions of the chain hold exactly the entries of `L`, without a gap. -/
def Holds (capacity : Nat) (slots : SlotInfo → Slot K) (chain : List SlotInfo)
    (L : List (SlotEntry K)) : Prop :=
  ∀ x, entryAt capacity slots chain x = L[x]?

/-- No slot but the first one of a chain is empty. -/
def Tight (capacity : Nat) (chain : List SlotInfo) (L : List (SlotEntry K)) : Prop :=
  chain.length = 1 ∨ (chain.length - 1) * capacity < L.length

theorem div_mod_of_lt (hj : j < capacity) :
    (k * capacity + j) / capacity = k ∧ (k * capacity + j) % capacity = j := by
  have hpos : 0 < capacity := by omega
  constructor
  · rw [Nat.mul_comm, Nat.mul_add_div hpos, Nat.div_eq_of_lt hj, Nat.add_zero]
  · rw [Nat.mul_comm, Nat.mul_add_mod, Nat.mod_eq_of_lt hj]

theorem entryAt_eq (hj : j < capacity) (hi : chain[k]? = some i) :
    entryAt capacity slots chain (k * capacity + j) = (slots i).entries j := by
  obtain ⟨hdiv, hmod⟩ := div_mod_of_lt hj
  rw [entryAt, hdiv, hmod, hi]
  rfl

theorem entryAt_congr (h : ∀ i ∈ chain, (slots' i).entries = (slots i).entries) (x : Nat) :
    entryAt capacity slots' chain x = entryAt capacity slots chain x := by
  unfold entryAt
  cases hi : chain[x / capacity]? with
  | none => rfl
  | some i =>
    simp only [bind_some]
    rw [h i (mem_of_getElem? hi)]

variable (h : Holds capacity slots chain L)

include h

/-- Slots with the same entries hold the same list. -/
theorem Holds.congr (hslots : ∀ i ∈ chain, (slots' i).entries = (slots i).entries) :
    Holds capacity slots' chain L :=
  fun x => (entryAt_congr hslots x).trans (h x)

omit h in
/-- Two positions of a chain without repetition are the same only if they are at the
same place. -/
theorem getElem?_inj_of_nodup {k' : Nat} (hnodup : chain.Nodup) (hi : chain[k]? = some i)
    (hi' : chain[k']? = some i) : k = k' := by
  obtain ⟨hk, hki⟩ := List.getElem?_eq_some_iff.mp hi
  obtain ⟨hk', hki'⟩ := List.getElem?_eq_some_iff.mp hi'
  exact (List.Nodup.getElem_inj_iff hnodup).mp (hki.trans hki'.symm)

omit h in
theorem entryAt_setEntry (hnodup : chain.Nodup) (hi : chain[k]? = some i) (hj : j < capacity)
    (entry : Option (SlotEntry K)) (x : Nat) :
    entryAt capacity (Function.update slots i ((slots i).setEntry j entry)) chain x =
      if x = k * capacity + j then entry else entryAt capacity slots chain x := by
  by_cases hx : x = k * capacity + j
  · rw [hx, if_pos rfl, entryAt_eq hj hi, Function.update_self, Slot.setEntry_entries, if_pos rfl]
  rw [if_neg hx]
  unfold entryAt
  cases hi' : chain[x / capacity]? with
  | none => rfl
  | some i' =>
    simp only [bind_some]
    by_cases heq : i' = i
    · -- the same slot, so another position of it
      subst heq
      have hk := getElem?_inj_of_nodup hnodup hi hi'
      have hmod : x % capacity ≠ j := by
        intro hmod
        apply hx
        rw [hk, ← hmod]
        exact (Nat.div_add_mod' x capacity).symm
      rw [Function.update_self, Slot.setEntry_entries, if_neg hmod]
    · rw [Function.update_of_ne heq]

omit h in
theorem Holds.length_le (hcap : 0 < capacity) (h : Holds capacity slots chain L) :
    L.length ≤ chain.length * capacity := by
  by_contra hlt
  have hx := h (chain.length * capacity)
  rw [entryAt, Nat.mul_div_cancel _ hcap, getElem?_eq_none (Nat.le_refl _)] at hx
  rw [bind_none, eq_comm, getElem?_eq_none_iff] at hx
  omega

theorem Holds.entries (hj : j < capacity) (hi : chain[k]? = some i) :
    (slots i).entries j = L[k * capacity + j]? := by
  rw [← entryAt_eq hj hi]
  exact h _

omit h in
theorem countP_range_lt (n m : Nat) : (range n).countP (fun j => decide (j < m)) = min n m := by
  induction n with
  | zero => simp
  | succ =>
    rw [range_succ, countP_append]
    simp only [countP_singleton, decide_eq_true_eq]
    split <;> omega

/-- The slots of a chain are filled from its start. -/
theorem Holds.numEntries (hi : chain[k]? = some i) :
    (slots i).numEntries capacity = min capacity (L.length - k * capacity) := by
  rw [← countP_range_lt]
  apply countP_congr
  intro j hj
  rw [mem_range] at hj
  rw [Slot.isEntryValid, h.entries hj hi, isSome_iff_ne_none, ne_eq,
    getElem?_eq_none_iff, decide_eq_true_eq]
  omega

/-- A slot that is not full is the last one. -/
theorem Holds.last_of_not_full (htight : Tight capacity chain L) (hi : chain[k]? = some i)
    (hlt : (slots i).numEntries capacity < capacity) :
    k = chain.length - 1 := by
  have hk := (List.getElem?_eq_some_iff.mp hi).1
  rw [h.numEntries hi] at hlt
  rcases htight with hone | hlast
  · omega
  · by_contra hne
    have hle : (k + 1) * capacity ≤ (chain.length - 1) * capacity :=
      Nat.mul_le_mul_right capacity (by omega)
    rw [Nat.add_mul] at hle
    omega

end Lbug.Index
