/-
  Index/InMemWalk.lean --- what the loops of the in-memory index find on a chain.

  Each loop of `InMemHashIndex` follows a chain of slots.  On a chain that is linked and
  holds a list without gaps it ends within its number of steps, and what it finds is a
  statement about the list.
-/
import Lbug.Index.InMemHashIndex
import Lbug.Index.SlotChain

namespace Lbug.Index

open List

namespace InMemHashIndex

variable {K : Type} {T : KeyType K} {idx : InMemHashIndex K} {chain : List SlotInfo}
  {L : List (SlotEntry K)} {i : SlotInfo} {k fuel : Nat} {found : SlotEntry K → Bool}
  {slot : Slot K}

theorem nextChainedSlot_eq (hlinked : Linked idx.slots chain) (hi : chain[k]? = some i) :
    idx.nextChainedSlot i = chain[k + 1]? := hlinked k i hi

theorem lt_length_of_getElem? {α : Type} {l : List α} {a : α} {n : Nat} (h : l[n]? = some a) :
    n < l.length := (List.getElem?_eq_some_iff.mp h).1

theorem findInSlot_eq_some {bound pos : Nat} (h : findInSlot slot bound found = some pos) :
    pos < bound ∧ ∃ e, slot.entries pos = some e ∧ found e = true := by
  have hfound := find?_some h
  exact ⟨mem_range.mp (mem_of_find?_eq_some h), (Option.any_eq_true _ _).mp hfound⟩

theorem findInSlot_eq_none {bound : Nat} (h : findInSlot slot bound found = none) {pos : Nat}
    (hpos : pos < bound) {e : SlotEntry K} (he : slot.entries pos = some e) : found e = false := by
  have hnot := find?_eq_none.mp h pos (mem_range.mpr hpos)
  rw [he] at hnot
  simpa using hnot

/-- No entry of the slot at `k` is accepted when none of its first `numEntries`
positions is. -/
theorem Holds.not_found (h : Holds T.slotCapacity idx.slots chain L) (hi : chain[k]? = some i)
    (hnone : findInSlot (idx.slots i) ((idx.slots i).numEntries T.slotCapacity) found = none)
    {x : Nat} (hle : k * T.slotCapacity ≤ x) (hlt : x < (k + 1) * T.slotCapacity)
    {e : SlotEntry K} (he : L[x]? = some e) : found e = false := by
  have hx := lt_length_of_getElem? he
  rw [Nat.add_mul] at hlt
  have hj : x - k * T.slotCapacity < T.slotCapacity := by omega
  have hbound : x - k * T.slotCapacity < (idx.slots i).numEntries T.slotCapacity := by
    rw [h.numEntries hi]
    omega
  refine findInSlot_eq_none hnone hbound ?_
  rw [h.entries hj hi, ← he]
  congr 1
  omega

section

variable (found : SlotEntry K → Bool)

variable (hlinked : Linked idx.slots chain) (hholds : Holds T.slotCapacity idx.slots chain L)

include hlinked hholds

/-- What `findEntry` returns from the slot at `k` on: a position with an accepted entry
or, if there is none, the last slot of the chain. -/
theorem findEntry_spec (htight : Tight T.slotCapacity chain L) (hi : chain[k]? = some i)
    (hfuel : chain.length ≤ k + fuel) :
    (∃ k' i' j e, chain[k']? = some i' ∧ j < T.slotCapacity ∧
      L[k' * T.slotCapacity + j]? = some e ∧ found e = true ∧
      findEntry T idx found fuel i = some (i', some j)) ∨
    ((∀ x e, k * T.slotCapacity ≤ x → L[x]? = some e → found e = false) ∧
      ∃ last, chain[chain.length - 1]? = some last ∧
        findEntry T idx found fuel i = some (last, none)) := by
  induction fuel generalizing k i with
  | zero =>
    have := lt_length_of_getElem? hi
    omega
  | succ _ ih =>
    have hk := lt_length_of_getElem? hi
    have hnum := hholds.numEntries hi
    simp only [findEntry]
    cases hfind : findInSlot (idx.slots i) ((idx.slots i).numEntries T.slotCapacity) found with
    | some j =>
      obtain ⟨hj, e, he, hfe⟩ := findInSlot_eq_some hfind
      have hj' : j < T.slotCapacity := by omega
      exact .inl ⟨k, i, j, e, hi, hj', by rw [← hholds.entries hj' hi, he], hfe, rfl⟩
    | none =>
      have hslot := fun x => Holds.not_found (x := x) hholds hi hfind
      -- when the walk stops here, the entries of this slot are the last ones
      have hstop : k = chain.length - 1 →
          (∀ x e, k * T.slotCapacity ≤ x → L[x]? = some e → found e = false) ∧
            chain[chain.length - 1]? = some i := by
        intro hlast
        refine ⟨fun x e hle he => hslot x hle ?_ he, hlast ▸ hi⟩
        have hlen := hholds.length_le T.slotCapacity_pos
        have hx := lt_length_of_getElem? he
        rw [show chain.length = k + 1 by omega] at hlen
        omega
      by_cases hfull : (idx.slots i).numEntries T.slotCapacity < T.slotCapacity
      · obtain ⟨hnone, hlast⟩ := hstop (hholds.last_of_not_full htight hi hfull)
        exact .inr ⟨hnone, i, hlast, by simp [hfull]⟩
      simp only [hfull, nextChainedSlot_eq hlinked hi]
      cases hnext : chain[k + 1]? with
      | none =>
        have hlen := getElem?_eq_none_iff.mp hnext
        obtain ⟨hnone, hlast⟩ := hstop (by omega)
        exact .inr ⟨hnone, i, hlast, rfl⟩
      | some =>
        rcases ih hnext (by omega) with hfound | ⟨hnone, hlast⟩
        · exact .inl hfound
        · refine .inr ⟨fun x e hle he => ?_, hlast⟩
          rcases Nat.lt_or_ge x ((k + 1) * T.slotCapacity) with hlt | hge
          · exact hslot x hle hlt he
          · exact hnone x e hge he

omit hlinked hholds in
/-- The search for an entry from the slot at `k` on finds one, if there is one. -/
theorem findKey_of_gaps (fuel : Nat) (hlinked : Linked idx.slots chain) (hi : chain[k]? = some i)
    (hfuel : chain.length ≤ k + fuel) :
    (∃ (k' : Nat) (i' : SlotInfo) (j : Nat) (e : SlotEntry K), chain[k']? = some i' ∧
      j < T.slotCapacity ∧ (idx.slots i').entries j = some e ∧ found e = true ∧
      findKey T idx found fuel i = some (some (i', j))) ∨
    ((∀ (k' : Nat) (i' : SlotInfo) (j : Nat) (e : SlotEntry K), k ≤ k' → chain[k']? = some i' →
        j < T.slotCapacity → (idx.slots i').entries j = some e → found e = false) ∧
      findKey T idx found fuel i = some none) := by
  induction fuel generalizing k i with
  | zero =>
    have := lt_length_of_getElem? hi
    omega
  | succ _ ih =>
    simp only [findKey]
    cases hfind : findInSlot (idx.slots i) T.slotCapacity found with
    | some j =>
      obtain ⟨hj, e, he, hfe⟩ := findInSlot_eq_some hfind
      exact .inl ⟨k, i, j, e, hi, hj, he, hfe, rfl⟩
    | none =>
      have hslot : ∀ j e, j < T.slotCapacity → (idx.slots i).entries j = some e →
          found e = false := fun j e hj he => findInSlot_eq_none hfind hj he
      simp only [nextChainedSlot_eq hlinked hi]
      cases hnext : chain[k + 1]? with
      | none =>
        have hlen := getElem?_eq_none_iff.mp hnext
        refine .inr ⟨fun k' i' j e hle hi' hj he => ?_, rfl⟩
        have hk' := lt_length_of_getElem? hi'
        obtain rfl : k' = k := by omega
        rw [hi] at hi'
        cases hi'
        exact hslot j e hj he
      | some =>
        rcases ih hnext (by omega) with hfound | ⟨hnone, heq⟩
        · exact .inl hfound
        refine .inr ⟨fun k' i' j e hle hi' hj he => ?_, heq⟩
        rcases Nat.eq_or_lt_of_le hle with rfl | hlt
        · rw [hi] at hi'
          cases hi'
          exact hslot j e hj he
        · exact hnone k' i' j e hlt hi' hj he

/-- What the search of `deleteKey` returns from the slot at `k` on. -/
theorem findKey_spec (hi : chain[k]? = some i) (hfuel : chain.length ≤ k + fuel) :
    (∃ k' i' j e, chain[k']? = some i' ∧ j < T.slotCapacity ∧
      L[k' * T.slotCapacity + j]? = some e ∧ found e = true ∧
      findKey T idx found fuel i = some (some (i', j))) ∨
    ((∀ x e, k * T.slotCapacity ≤ x → L[x]? = some e → found e = false) ∧
      findKey T idx found fuel i = some none) := by
  rcases findKey_of_gaps found fuel hlinked hi hfuel with
    ⟨k', i', j, e, hi', hj, he, hfe, heq⟩ | ⟨hnone, heq⟩
  · exact .inl ⟨k', i', j, e, hi', hj, by rw [← hholds.entries hj hi', he], hfe, heq⟩
  refine .inr ⟨fun x e hle he => ?_, heq⟩
  -- the slot of the entry is one that the search has seen
  have hcap := T.slotCapacity_pos
  have hx := Nat.lt_of_lt_of_le (lt_length_of_getElem? he) (hholds.length_le hcap)
  have hslot := getElem?_eq_getElem ((Nat.div_lt_iff_lt_mul hcap).mpr hx)
  refine hnone _ _ _ e ((Nat.le_div_iff_mul_le hcap).mpr hle) hslot (Nat.mod_lt x hcap) ?_
  rw [hholds.entries (Nat.mod_lt x hcap) hslot, Nat.div_add_mod', he]

end

variable (hlinked : Linked idx.slots chain)

include hlinked

section

variable (hi : chain[k]? = some i) (hfuel : chain.length ≤ k + fuel)

include hi hfuel

theorem lastChainedSlot_spec : lastChainedSlot idx fuel i = chain[chain.length - 1]? := by
  induction fuel generalizing k i with
  | zero =>
    have := lt_length_of_getElem? hi
    omega
  | succ _ ih =>
    have hk := lt_length_of_getElem? hi
    simp only [lastChainedSlot, nextChainedSlot_eq hlinked hi]
    cases hnext : chain[k + 1]? with
    | none =>
      have hlen := getElem?_eq_none_iff.mp hnext
      rw [show chain.length - 1 = k by omega, hi]
    | some => exact ih hnext (by omega)

theorem countSlots_isSome : ∃ n, countSlots idx fuel i = some n := by
  induction fuel generalizing k i with
  | zero =>
    have := lt_length_of_getElem? hi
    omega
  | succ _ ih =>
    simp only [countSlots, nextChainedSlot_eq hlinked hi]
    cases hnext : chain[k + 1]? with
    | none => exact ⟨1, rfl⟩
    | some =>
      obtain ⟨n, hn⟩ := ih hnext (by omega)
      exact ⟨n + 1, by simp [hn]⟩

end

/-- From a slot that is kept on, the first loop of `reclaimOverflowSlots` finds how many
slots the entries of the chain need. -/
theorem skipNonEmptySlots_spec (hholds : Holds T.slotCapacity idx.slots chain L)
    (hprimary : ∀ k i, chain[k]? = some i → (i.isPrimary = true ↔ k = 0)) (hi : chain[k]? = some i)
    (hkeep : k = 0 ∨ k * T.slotCapacity < L.length) (hfuel : chain.length ≤ k + fuel)
    (last₀ : SlotInfo) :
    ∃ m last, k < m ∧ m ≤ chain.length ∧ chain[m - 1]? = some last ∧
      skipNonEmptySlots T idx fuel last₀ i = some (last, chain[m]?) ∧
      L.length ≤ m * T.slotCapacity ∧ (m = 1 ∨ (m - 1) * T.slotCapacity < L.length) := by
  induction fuel generalizing k i last₀ with
  | zero =>
    have := lt_length_of_getElem? hi
    omega
  | succ fuel ih =>
    have hk := lt_length_of_getElem? hi
    have hcap := T.slotCapacity_pos
    have hgo : 0 < (idx.slots i).numEntries T.slotCapacity ∨ i.isPrimary = true := by
      rw [hholds.numEntries hi, hprimary k i hi]
      omega
    simp only [skipNonEmptySlots, hgo, if_true, nextChainedSlot_eq hlinked hi]
    cases hnext : chain[k + 1]? with
    | none =>
      have hlen := getElem?_eq_none_iff.mp hnext
      have hle := hholds.length_le hcap
      rw [show chain.length = k + 1 by omega] at hle
      refine ⟨k + 1, i, by omega, by omega, by simpa using hi, by rw [hnext], hle, ?_⟩
      rcases hkeep with hzero | hlt
      · exact .inl (by omega)
      · exact .inr (by simpa using hlt)
    | some next =>
      by_cases hmore : (k + 1) * T.slotCapacity < L.length
      · obtain ⟨m, last, hm, hrest⟩ := ih hnext (.inr hmore) (by omega) i
        exact ⟨m, last, by omega, hrest⟩
      -- the next slot is empty, and so are all after it
      have hstop : ¬ (0 < (idx.slots next).numEntries T.slotCapacity ∨ next.isPrimary = true) := by
        rw [hholds.numEntries hnext, hprimary (k + 1) next hnext]
        omega
      have hfuel' : 0 < fuel := by
        have := lt_length_of_getElem? hnext
        omega
      refine ⟨k + 1, i, by omega, by omega, by simpa using hi, ?_, by omega, ?_⟩
      · obtain ⟨fuel', rfl⟩ : ∃ fuel', fuel = fuel' + 1 := ⟨fuel - 1, by omega⟩
        simp only [skipNonEmptySlots, hstop, if_false, hnext]
      · rcases hkeep with hzero | hlt
        · exact .inl (by omega)
        · exact .inr (by simpa using hlt)

/-- When all positions from `x` up to `gap` are taken and `gap` is not, `findGap` ends at
`gap`. -/
theorem findGap_spec {j gap : Nat} (hi : chain[k]? = some i) (hj : j < T.slotCapacity)
    (hle : k * T.slotCapacity + j ≤ gap) (hgap : gap < chain.length * T.slotCapacity)
    (htaken : ∀ x, k * T.slotCapacity + j ≤ x → x < gap →
      (entryAt T.slotCapacity idx.slots chain x).isSome)
    (hfree : entryAt T.slotCapacity idx.slots chain gap = none)
    (hfuel : gap < k * T.slotCapacity + j + fuel) :
    ∃ i', chain[gap / T.slotCapacity]? = some i' ∧
      findGap T idx fuel i j = some (i', gap % T.slotCapacity) := by
  induction fuel generalizing k i j with
  | zero => omega
  | succ _ ih =>
    have hentry : entryAt T.slotCapacity idx.slots chain (k * T.slotCapacity + j) =
        (idx.slots i).entries j := entryAt_eq hj hi
    have hvalid : (idx.slots i).isEntryValid j =
        (entryAt T.slotCapacity idx.slots chain (k * T.slotCapacity + j)).isSome := by
      rw [hentry]
      rfl
    simp only [findGap]
    rcases Nat.lt_or_ge (k * T.slotCapacity + j) gap with hlt | hge
    · have htaken' := hvalid.trans (htaken _ (Nat.le_refl _) hlt)
      simp only [htaken']
      by_cases hlast : j + 1 < T.slotCapacity
      · simp only [hlast]
        exact ih hi hlast (by omega) (fun x hx => htaken x (by omega)) (by omega)
      have hpos : (k + 1) * T.slotCapacity = k * T.slotCapacity + j + 1 := by
        rw [Nat.add_mul]
        omega
      have hk : k + 1 < chain.length := by
        by_contra hlen
        have : chain.length * T.slotCapacity ≤ (k + 1) * T.slotCapacity :=
          Nat.mul_le_mul_right _ (by omega)
        omega
      have hnext : chain[k + 1]? = some chain[k + 1] := getElem?_eq_getElem hk
      simp only [hlast, nextChainedSlot_eq hlinked hi, hnext]
      exact ih hnext T.slotCapacity_pos (by omega) (fun x hx => htaken x (by omega)) (by omega)
    · have heq : gap = k * T.slotCapacity + j := by omega
      obtain ⟨hdiv, hmod⟩ := div_mod_of_lt hj
      rw [heq] at hfree
      rw [hfree] at hvalid
      rw [heq, hdiv, hmod]
      exact ⟨i, hi, by simp [hvalid]⟩

end InMemHashIndex

end Lbug.Index
