/-
  Foundation/Segments.lean --- sequences stored in segments.

  A sequence is often kept as a list of segments of different lengths.  `entries` reads
  the segments one after the other, `locate` finds the segment of a position by walking
  over them, and `getElem?_entries` connects the two.  If all segments but the last are
  full, the position can be computed by a division (`locate_of_fullButLast`).

  Nothing here mentions a particular component.
-/
import Mathlib.Algebra.GroupWithZero.Nat

namespace Lbug.Foundation

open List

universe u v

variable {α : Type u} {β : Type v}

/-- The entries `f a 0, f a 1, ...` of each segment `a`, one segment after the other. -/
def entries (len : α → Nat) (f : α → Nat → β) (segments : List α) : List β :=
  segments.flatMap fun a => (List.range (len a)).map (f a)

/-- The segment of a position, and the position in it. -/
def locate (len : α → Nat) : List α → Nat → Option (Nat × Nat)
  | [], _ => none
  | a :: rest, j =>
    if j < len a then some (0, j)
    else (locate len rest (j - len a)).map fun p => (p.1 + 1, p.2)

/-- Every segment but the last one is full. -/
def FullButLast (len : α → Nat) (capacity : Nat) : List α → Prop
  | [] => True
  | [a] => len a ≤ capacity
  | a :: b :: rest => len a = capacity ∧ FullButLast len capacity (b :: rest)

variable {len : α → Nat} {f : α → Nat → β} {segments : List α} {j capacity : Nat} {a : α}
  {i r : Nat} {b : α}

@[simp] theorem entries_nil : entries len f [] = [] := rfl

theorem entries_cons (a : α) (rest : List α) :
    entries len f (a :: rest) = (range (len a)).map (f a) ++ entries len f rest := rfl

theorem length_entries : (entries len f segments).length = (segments.map len).sum := by
  induction segments with
  | nil => rfl
  | cons _ _ ih =>
    rw [entries_cons, length_append, length_map, length_range, ih, map_cons, sum_cons]

theorem locate_spec (h : locate len segments j = some (i, r)) :
    ∃ a, segments[i]? = some a ∧ r < len a := by
  induction segments generalizing j i r with
  | nil => cases h
  | cons a _ ih =>
    rw [locate] at h
    split at h
    · rename_i hlt
      cases h
      exact ⟨a, rfl, hlt⟩
    · obtain ⟨⟨_, _⟩, hrest, heq⟩ := Option.map_eq_some_iff.mp h
      cases heq
      exact ih hrest

/-- Every entry of a segment has a position. -/
theorem exists_locate (ha : segments[i]? = some a) (hr : r < len a) :
    ∃ j, locate len segments j = some (i, r) := by
  induction segments generalizing i with
  | nil => cases ha
  | cons b _ ih =>
    cases i with
    | zero =>
      cases ha
      exact ⟨r, if_pos hr⟩
    | succ =>
      obtain ⟨j, hj⟩ := ih ha
      refine ⟨len b + j, ?_⟩
      rw [locate, if_neg (by omega), Nat.add_sub_cancel_left, hj]
      rfl

/-- Segments given as lists of the right length. -/
theorem getElem?_flatMap_segments {l : α → List β} (hlen : ∀ a ∈ segments, (l a).length = len a)
    (j : Nat) :
    (segments.flatMap l)[j]? =
      (locate len segments j).bind fun p => segments[p.1]?.bind fun a => (l a)[p.2]? := by
  induction segments generalizing j with
  | nil => rfl
  | cons a rest ih =>
    have ha := hlen a mem_cons_self
    rw [flatMap_cons, locate]
    split
    · rename_i hlt
      rw [getElem?_append_left (by omega)]
      rfl
    rw [getElem?_append_right (by omega), ha, ih fun b hb => hlen b (mem_cons_of_mem _ hb)]
    cases locate len rest (j - len a) with
    | none => rfl
    | some => rfl

theorem getElem?_entries (j : Nat) : (entries len f segments)[j]? =
      (locate len segments j).bind fun p => segments[p.1]?.map fun a => f a p.2 := by
  have hlen : ∀ a ∈ segments, ((range (len a)).map (f a)).length = len a := by simp
  rw [entries, getElem?_flatMap_segments hlen]
  cases hloc : locate len segments j with
  | none => rfl
  | some =>
    obtain ⟨_, ha, hlt⟩ := locate_spec hloc
    simp [ha, hlt]

theorem locate_isSome_iff : (locate len segments j).isSome = true ↔ j < (segments.map len).sum := by
  induction segments generalizing j with
  | nil => simp [locate]
  | cons _ _ ih =>
    rw [locate, map_cons, sum_cons]
    split
    · rename_i hlt
      simp only [Option.isSome_some, true_iff]
      omega
    · rw [Option.isSome_map, ih]
      omega

theorem locate_of_fullButLast (hcapacity : 0 < capacity) (hfull : FullButLast len capacity segments)
    (hj : j < (segments.map len).sum) :
    locate len segments j = some (j / capacity, j % capacity) := by
  induction segments generalizing j with
  | nil => cases hj
  | cons a rest ih =>
    rw [map_cons, sum_cons] at hj
    rw [locate]
    split
    · rename_i hlt
      have hle : len a ≤ capacity := by
        cases rest with
        | nil => exact hfull
        | cons => exact Nat.le_of_eq hfull.1
      rw [Nat.div_eq_of_lt (by omega), Nat.mod_eq_of_lt (by omega)]
    · rename_i hge
      cases rest with
      | nil =>
        simp only [map_nil, sum_nil] at hj
        omega
      | cons =>
        have hlen := hfull.1
        obtain ⟨j, rfl⟩ : ∃ j', j = j' + capacity := ⟨j - capacity, by omega⟩
        rw [hlen, Nat.add_sub_cancel, ih hfull.2 (by omega), Nat.add_div_right _ hcapacity,
          Nat.add_mod_right]
        rfl

/-! ## Cutting a list into segments -/

/-- Segment `i` of a list that is cut into segments of length `c`. -/
def segment (c : Nat) (l : List α) (i : Nat) : List α := (l.drop (c * i)).take c

section Segment

variable {c i : Nat} {l m : List α}

theorem getElem?_segment (j : Nat) :
    (segment c l i)[j]? = if j < c then l[c * i + j]? else none := by
  rw [segment, getElem?_take, getElem?_drop]

theorem length_segment : (segment c l i).length = min c (l.length - c * i) := by
  rw [segment, length_take, length_drop]

theorem take_append_segment (l : List α) (c i : Nat) :
    l.take (c * i) ++ (segment c l i ++ l.drop (c * (i + 1))) = l := by
  rw [Nat.mul_succ, ← drop_drop, segment, take_append_drop, take_append_drop]

end Segment

/-! ## Lists that are stored in segments -/

/-- The entries of a list are stored in containers, `c` in each but the last one; `P i a`
says which entries container `a` with number `i` stores. -/
def Segmented (c : Nat) (P : Nat → α → List β → Prop) : Nat → List α → List β → Prop
  | _, [], l => l = []
  | i, a :: as, l => l ≠ [] ∧ P i a (l.take c) ∧ Segmented c P (i + 1) as (l.drop c)

namespace Segmented

variable {c i : Nat} {P P' : Nat → α → List β → Prop} {as as' : List α} {l l' : List β}

theorem of_singleton (hne : l ≠ []) (hle : l.length ≤ c) (ha : P i a l) :
    Segmented c P i [a] l := by
  refine ⟨hne, ?_, drop_of_length_le hle⟩
  rw [take_of_length_le hle]
  exact ha

/-- A container before others: it is full if there are any. -/
theorem cons_append (hne : l ≠ []) (hlen : l.length = min c (l.length + l'.length)) (ha : P i a l)
    (has : Segmented c P (i + 1) as l') : Segmented c P i (a :: as) (l ++ l') := by
  refine ⟨append_ne_nil_of_left_ne_nil hne l', ?_⟩
  rcases eq_or_ne l' [] with rfl | hmore
  · rw [append_nil, take_of_length_le (by omega), drop_of_length_le (by omega)]
    exact ⟨ha, has⟩
  · have hpos := length_pos_iff.mpr hmore
    have hfull : l.length = c := by omega
    rw [take_left' hfull, drop_left' hfull]
    exact ⟨ha, has⟩

section

variable (h : Segmented c P i as l)

include h

theorem imp (himp : ∀ j a m, m.Sublist l → P j a m → P' j a m) : Segmented c P' i as l := by
  induction as generalizing i l with
  | nil => exact h
  | cons a _ ih =>
    obtain ⟨hne, ha, has⟩ := h
    exact ⟨hne, himp i a _ (take_sublist _ _) ha,
      ih has fun j b m hm => himp j b m (hm.trans (drop_sublist _ _))⟩

theorem length_iff (j : Nat) : j < as.length ↔ c * j < l.length := by
  induction as generalizing i l j with
  | nil =>
    obtain rfl : l = [] := h
    simp
  | cons _ _ ih =>
    obtain ⟨hne, -, has⟩ := h
    have hpos := length_pos_iff.mpr hne
    cases j with
    | zero => simpa using hpos
    | succ j =>
      have hj := ih has j
      rw [length_drop] at hj
      rw [length_cons, Nat.mul_add]
      omega

theorem getElem? (ha : as[j]? = some a) : P (i + j) a (segment c l j) := by
  induction as generalizing i l j with
  | nil => cases ha
  | cons _ _ ih =>
    obtain ⟨-, hb, has⟩ := h
    cases j with
    | zero =>
      cases ha
      exact hb
    | succ j =>
      have hj := ih has ha
      rw [segment, drop_drop] at hj
      rw [segment, Nat.mul_add, Nat.mul_one, Nat.add_comm (c * j), ← Nat.add_assoc,
        Nat.add_right_comm]
      exact hj

omit h in
theorem take (hc : 0 < c) (h : Segmented c P i as l) (j : Nat) :
    Segmented c P i (as.take j) (l.take (c * j)) := by
  induction as generalizing i l j with
  | nil =>
    obtain rfl : l = [] := h
    rw [take_nil, take_nil]
    rfl
  | cons _ _ ih =>
    cases j with
    | zero => exact take_zero
    | succ j =>
      obtain ⟨hne, ha, has⟩ := h
      have hrest := ih has j
      rw [take_drop, Nat.add_comm c] at hrest
      rw [Nat.mul_add, Nat.mul_one]
      refine ⟨fun hnil => ?_, by rwa [take_take, Nat.min_eq_left (Nat.le_add_left _ _)], hrest⟩
      rcases take_eq_nil_iff.mp hnil with hzero | hnil
      · omega
      · exact hne hnil

theorem drop (j : Nat) : Segmented c P (i + j) (as.drop j) (l.drop (c * j)) := by
  induction as generalizing i l j with
  | nil =>
    obtain rfl : l = [] := h
    rw [drop_nil, drop_nil]
    rfl
  | cons _ _ ih =>
    cases j with
    | zero => exact h
    | succ j =>
      have hrest := ih h.2.2 j
      rw [drop_drop, Nat.add_right_comm, Nat.add_comm c] at hrest
      rw [Nat.mul_add, Nat.mul_one]
      exact hrest

theorem append (hfull : l.length = c * as.length) (h' : Segmented c P (i + as.length) as' l') :
    Segmented c P i (as ++ as') (l ++ l') := by
  induction as generalizing i l with
  | nil =>
    obtain rfl : l = [] := h
    exact h'
  | cons _ as ih =>
    obtain ⟨hne, ha, has⟩ := h
    rw [length_cons, Nat.mul_add] at hfull
    have hle : c ≤ l.length := by omega
    refine ⟨by simp [hne], by rwa [take_append_of_le_length hle], ?_⟩
    rw [drop_append_of_le_length hle]
    refine ih has (by rw [length_drop]; omega) ?_
    rw [length_cons, Nat.add_comm as.length, ← Nat.add_assoc] at h'
    exact h'

/-- All containers but the last one are full. -/
theorem length_take_eq (hj : j < as.length) : (l.take (c * j)).length = c * j := by
  rw [length_take]
  exact Nat.min_eq_left (Nat.le_of_lt ((h.length_iff j).mp hj))

end

variable (hc : 0 < c)

include hc

theorem exists_of_mem (h : Segmented c P i as l) (ha : a ∈ as) : ∃ j m, m ≠ [] ∧ P j a m := by
  induction as generalizing i l with
  | nil => cases ha
  | cons _ _ ih =>
    rcases mem_cons.mp ha with rfl | ha
    · exact ⟨i, _, by simp [h.1, Nat.ne_of_gt hc], h.2.1⟩
    · exact ih h.2.2 ha

/-- Other containers from one of them on. -/
theorem replaceFrom (h : Segmented c P i as l) (hj : j < as.length)
    (h' : Segmented c P (i + j) as' l') :
    Segmented c P i (as.take j ++ as') (l.take (c * j) ++ l') := by
  have hlen : (as.take j).length = j := length_take_of_le (Nat.le_of_lt hj)
  exact (h.take hc j).append (by rw [h.length_take_eq hj, hlen]) (by rwa [hlen])

/-- The containers before the last one, and the last one. -/
theorem concat_iff : Segmented c P i (as ++ [a]) l ↔
      Segmented c P i as (l.take (c * as.length)) ∧ c * as.length < l.length ∧
        l.length ≤ c * (as.length + 1) ∧ P (i + as.length) a (l.drop (c * as.length)) := by
  constructor
  · intro h
    have hlt := (h.length_iff as.length).mp (by simp)
    have hge : l.length ≤ c * (as.length + 1) := by
      have hnot := (not_congr (h.length_iff (as.length + 1))).mp (by simp)
      omega
    have hlast := h.drop as.length
    rw [drop_left] at hlast
    have htake := h.take hc as.length
    rw [take_left] at htake
    refine ⟨htake, hlt, hge, ?_⟩
    have ha := hlast.2.1
    rwa [take_of_length_le] at ha
    rw [length_drop]
    rw [Nat.mul_add] at hge
    omega
  · rintro ⟨has, hlt, hge, ha⟩
    have hlen : (l.take (c * as.length)).length = c * as.length := by
      rw [length_take]
      omega
    have hlast : Segmented c P (i + as.length) [a] (l.drop (c * as.length)) := by
      refine of_singleton ?_ ?_ ha
      · exact ne_nil_of_length_pos (by rw [length_drop]; omega)
      · rw [length_drop]
        rw [Nat.mul_add] at hge
        omega
    have happend := has.append hlen hlast
    rwa [take_append_drop] at happend

variable (h : Segmented c P i as l)

include h

/-- The container that takes the next entries: a new one behind full ones, or the last one,
which is not full. -/
theorem next (hnext :
    as' = as ∧ l.length = c * as.length ∧ P (i + as.length) a [] ∨
      as = as' ++ [a] ∧ l.length < c * as.length) :
    Segmented c P i as' (l.take (c * as'.length)) ∧ c * as'.length ≤ l.length ∧
      l.length < c * (as'.length + 1) ∧ P (i + as'.length) a (l.drop (c * as'.length)) := by
  rcases hnext with ⟨rfl, hlen, ha⟩ | ⟨rfl, hlt⟩
  · rw [← hlen, take_length, drop_length]
    exact ⟨h, Nat.le_refl _, by rw [Nat.mul_add]; omega, ha⟩
  · obtain ⟨has, hle, -, ha⟩ := (concat_iff hc).mp h
    rw [length_append] at hlt
    exact ⟨has, Nat.le_of_lt hle, hlt, ha⟩

omit h in
/-- The last container takes more entries. -/
theorem extend (has : Segmented c P i as (l.take (c * as.length))) (hle : c * as.length ≤ l.length)
    (hpos : 0 < l'.length) (hroom : l.length + l'.length ≤ c * as.length + c)
    (ha : P (i + as.length) a (l.drop (c * as.length) ++ l')) :
    Segmented c P i (as ++ [a]) (l ++ l') := by
  refine (concat_iff hc).mpr ⟨?_, ?_, ?_, ?_⟩
  · rwa [take_append_of_le_length hle]
  · rw [length_append]
    omega
  · rwa [length_append, Nat.mul_add, Nat.mul_one]
  · rwa [drop_append_of_le_length hle]

/-- A container gets other entries, as many as before. -/
theorem set (hj : j < as.length) {m : List β} (hlen : m.length = (segment c l j).length)
    (ha : P (i + j) a m) :
    Segmented c P i (as.set j a) (l.take (c * j) ++ (m ++ l.drop (c * (j + 1)))) := by
  have hlow := (h.length_iff j).mp hj
  rw [length_segment] at hlen
  rw [set_eq_take_append_cons_drop, if_pos hj]
  refine h.replaceFrom hc hj (cons_append (ne_nil_of_length_pos (by omega)) ?_ ha
    (Nat.add_assoc .. ▸ h.drop (j + 1)))
  rw [length_drop, Nat.mul_succ]
  omega

/-- The container of an entry. -/
theorem exists_getElem? {b : β} (hb : l[j]? = some b) :
    ∃ a, as[j / c]? = some a ∧ P (i + j / c) a (segment c l (j / c)) ∧
      (segment c l (j / c))[j % c]? = some b := by
  have hj : j < l.length := (List.getElem?_eq_some_iff.mp hb).1
  have hlt : j / c < as.length := (h.length_iff _).mpr (Nat.lt_of_le_of_lt (Nat.mul_div_le j c) hj)
  refine ⟨as[j / c], List.getElem?_eq_getElem hlt, h.getElem? (List.getElem?_eq_getElem hlt), ?_⟩
  rw [getElem?_segment, if_pos (Nat.mod_lt _ hc), Nat.div_add_mod]
  exact hb

end Segmented

end Lbug.Foundation
