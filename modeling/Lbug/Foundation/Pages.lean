/-
  Foundation/Pages.lean --- files as maps from page numbers, written page by page.

  A file of pages is a function `f : α → β`; `writeAll ws f` performs the writes of the
  list `ws` in order.  The lemmas say what a reader of the file can tell about a list
  of writes: pages outside of the list keep their contents, pages of the list do not
  depend on the file below, and writing a list again after any part of it was already
  written gives the same file.
-/
import Mathlib.Logic.Function.Basic
import Mathlib.Data.List.Basic

namespace Lbug.Foundation

open List Function

variable {α β : Type} [DecidableEq α] {ws : List (α × β)} {i : α}

/-- Perform a list of page writes in order. -/
def writeAll (ws : List (α × β)) (f : α → β) : α → β :=
  ws.foldl (fun f w => update f w.1 w.2) f

@[simp] theorem writeAll_nil (f : α → β) : writeAll [] f = f := rfl

theorem writeAll_cons (w : α × β) (ws : List (α × β)) (f : α → β) :
    writeAll (w :: ws) f = writeAll ws (update f w.1 w.2) := rfl

theorem writeAll_append (ws ws' : List (α × β)) (f : α → β) :
    writeAll (ws ++ ws') f = writeAll ws' (writeAll ws f) :=
  foldl_append

/-- A page that is not written keeps its contents. -/
theorem writeAll_of_notMem (h : i ∉ ws.map Prod.fst) (f : α → β) : writeAll ws f i = f i := by
  induction ws generalizing f with
  | nil => rfl
  | cons _ _ ih =>
    rw [map_cons, mem_cons, not_or] at h
    rw [writeAll_cons, ih h.2, update_of_ne h.1]

/-- A page that is written does not depend on the file below. -/
theorem writeAll_of_mem (h : i ∈ ws.map Prod.fst) (f g : α → β) :
    writeAll ws f i = writeAll ws g i := by
  induction ws generalizing f g with
  | nil => cases h
  | cons _ ws ih =>
    rw [writeAll_cons, writeAll_cons]
    by_cases hin : i ∈ ws.map Prod.fst
    · exact ih hin _ _
    · rw [map_cons, mem_cons, or_iff_left hin] at h
      rw [writeAll_of_notMem hin, writeAll_of_notMem hin, h, update_self, update_self]

/-- The contents of a written page are one of the values written to it. -/
theorem writeAll_mem (h : i ∈ ws.map Prod.fst) (f : α → β) : (i, writeAll ws f i) ∈ ws := by
  induction ws generalizing f with
  | nil => cases h
  | cons _ ws ih =>
    rw [writeAll_cons]
    by_cases hin : i ∈ ws.map Prod.fst
    · exact mem_cons_of_mem _ (ih hin _)
    · rw [map_cons, mem_cons, or_iff_left hin] at h
      rw [writeAll_of_notMem hin, h, update_self]
      exact mem_cons_self

/-- The last write of a page is the one that stays. -/
theorem writeAll_of_last {b : β} {k : Nat} (hk : ws[k]? = some (i, b))
    (hlast : ∀ j b', ws[j]? = some (i, b') → j ≤ k) (f : α → β) : writeAll ws f i = b := by
  have hrest : i ∉ (ws.drop (k + 1)).map Prod.fst := by
    intro hmem
    obtain ⟨⟨_, b'⟩, hmem', rfl⟩ := mem_map.mp hmem
    obtain ⟨_, hn⟩ := getElem?_of_mem hmem'
    rw [getElem?_drop] at hn
    have := hlast _ b' hn
    omega
  rw [← take_append_drop (k + 1) ws, writeAll_append, writeAll_of_notMem hrest, take_add_one, hk]
  simp [writeAll]

/-- Writes that are all overwritten leave no trace. -/
theorem writeAll_redo {ws' : List (α × β)} (h : ∀ i ∈ ws'.map Prod.fst, i ∈ ws.map Prod.fst)
    (f : α → β) :
    writeAll ws (writeAll ws' f) = writeAll ws f := by
  funext i
  by_cases hin : i ∈ ws.map Prod.fst
  · exact writeAll_of_mem hin _ _
  · rw [writeAll_of_notMem hin, writeAll_of_notMem hin,
      writeAll_of_notMem fun hmem => hin (h i hmem)]

/-- Writing a list again after a part of it gives the same file. -/
theorem writeAll_take_redo (ws : List (α × β)) (k : Nat) (f : α → β) :
    writeAll ws (writeAll (ws.take k) f) = writeAll ws f := by
  apply writeAll_redo
  intro i hi
  rw [map_take] at hi
  exact mem_of_mem_take hi

end Lbug.Foundation
