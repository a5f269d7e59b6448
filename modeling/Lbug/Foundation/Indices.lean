/-
  Foundation/Indices.lean --- the positions of a list at which a predicate holds.

  Nothing here mentions a particular component.
-/
import Mathlib.Data.List.Induction

namespace Lbug.Foundation

open List

universe u v

variable {α : Type u} {β : Type v} {p q : α → Prop} [DecidablePred p] [DecidablePred q]
  {l m : List α}

/-- The positions of the elements with `p`, in increasing order. -/
def indicesWhere (p : α → Prop) [DecidablePred p] (l : List α) : List Nat :=
  (List.range l.length).filter fun i => (l[i]?).any fun a => p a

theorem mem_indicesWhere {i : Nat} : i ∈ indicesWhere p l ↔ ∃ a, l[i]? = some a ∧ p a := by
  rw [indicesWhere, mem_filter, mem_range, Option.any_eq_true]
  constructor
  · rintro ⟨-, a, ha, hp⟩
    exact ⟨a, ha, of_decide_eq_true hp⟩
  · rintro ⟨a, ha, hp⟩
    exact ⟨(List.getElem?_eq_some_iff.mp ha).1, a, ha, decide_eq_true hp⟩

theorem pairwise_indicesWhere : (indicesWhere p l).Pairwise (· < ·) := pairwise_lt_range.filter _

theorem indicesWhere_append :
    indicesWhere p (l ++ m) = indicesWhere p l ++ (indicesWhere p m).map (l.length + ·) := by
  rw [indicesWhere, length_append, range_add, filter_append, filter_map]
  refine congrArg₂ _ (filter_congr fun i hi => ?_) (congrArg _ (filter_congr fun i _ => ?_))
  · rw [getElem?_append_left (mem_range.mp hi)]
  · rw [Function.comp_apply, getElem?_append_right (Nat.le_add_right _ _), Nat.add_sub_cancel_left]

theorem indicesWhere_of_forall (h : ∀ a ∈ l, p a) : indicesWhere p l = range l.length := by
  refine filter_eq_self.mpr fun i hi => ?_
  rw [getElem?_eq_getElem (mem_range.mp hi)]
  exact decide_eq_true (h _ (getElem_mem _))

theorem indicesWhere_of_forall_not (h : ∀ a ∈ l, ¬p a) : indicesWhere p l = [] := by
  refine eq_nil_iff_forall_not_mem.mpr fun i hi => ?_
  obtain ⟨a, ha, hp⟩ := mem_indicesWhere.mp hi
  exact h a (mem_of_getElem? ha) hp

theorem indicesWhere_congr (h : ∀ a ∈ l, p a ↔ q a) : indicesWhere p l = indicesWhere q l := by
  refine filter_congr fun i hi => ?_
  have hget := getElem?_eq_getElem (mem_range.mp hi)
  rw [hget, Option.any_some, Option.any_some, decide_eq_decide]
  exact h _ (getElem_mem _)

theorem indicesWhere_map {p : β → Prop} [DecidablePred p] (f : α → β) :
    indicesWhere p (l.map f) = indicesWhere (fun a => p (f a)) l := by
  rw [indicesWhere, length_map]
  refine filter_congr fun i _ => ?_
  rw [getElem?_map, Option.any_map]

/-- Elements with `p` that come behind. -/
theorem indicesWhere_append_of_forall (h : ∀ a ∈ m, p a) :
    indicesWhere p (l ++ m) = indicesWhere p l ++ range' l.length m.length := by
  rw [indicesWhere_append, indicesWhere_of_forall h, range'_eq_map_range]

theorem indicesWhere_append_of_forall_not (h : ∀ a ∈ m, ¬p a) :
    indicesWhere p (l ++ m) = indicesWhere p l := by
  rw [indicesWhere_append, indicesWhere_of_forall_not h, map_nil, append_nil]

/-- Reading the elements at the positions is reading the elements. -/
theorem filterMap_indicesWhere {f : Nat → Option β} {g : α → Option β}
    (h : ∀ i a, l[i]? = some a → f i = g a) :
    (indicesWhere p l).filterMap f = (l.filter fun a => p a).filterMap g := by
  induction l using reverseRecOn with
  | nil => rfl
  | append_singleton l a ih =>
    have hfront := ih fun i b hb => h i b (by
      rw [getElem?_append_left (List.getElem?_eq_some_iff.mp hb).1, hb])
    have hlast : f l.length = g a := h l.length a getElem?_concat_length
    by_cases ha : p a
    · rw [indicesWhere_append_of_forall (by simpa using ha), filterMap_append, hfront]
      simp [ha, filterMap_cons, hlast]
    · rw [indicesWhere_append_of_forall_not (by simpa using ha), hfront]
      simp [ha]

/-- The elements at the positions below `n`. -/
theorem filterMap_range_getElem? (l : List α) (n : Nat) :
    (range n).filterMap (l[·]?) = l.take n := by
  induction n with
  | zero => rfl
  | succ n ih =>
    rw [range_succ, filterMap_append, ih, take_add_one]
    cases hn : l[n]? <;> simp [hn]

end Lbug.Foundation
