/-
  Foundation/LinearProbing.lean --- open addressing with linear probing.

  A table of `cap` slots holds an element at the first slot that was free when it was
  put in, counted from its home slot.  `Probed` is the invariant: between the home slot
  of an element and its own there is no free slot.  It is kept by putting an element
  into the first free slot of its walk (`Probed.insert`), and it is why a walk that
  meets a free slot has passed the element if it is there at all (`Probed.found`).  A
  walk over a table that is not full meets a free slot (`exists_probe_none`).

  Nothing here mentions a particular component.
-/
import Mathlib.Data.Fintype.Card
import Mathlib.Data.Nat.ModEq
import Mathlib.Logic.Function.Basic

namespace Lbug.Foundation

open Function

universe u

variable {α : Type u}

/-- The slot that a walk from `home` looks at in step `d`. -/
def probe (cap home d : Nat) : Nat := (home + d) % cap

theorem probe_succ (cap home d : Nat) : (probe cap home d + 1) % cap = probe cap home (d + 1) := by
  rw [probe, probe, Nat.mod_add_mod, add_assoc]

theorem probe_zero {cap home : Nat} (h : home < cap) : probe cap home 0 = home := Nat.mod_eq_of_lt h

theorem probe_injective {cap home d d' : Nat} (hd : d < cap) (hd' : d' < cap)
    (h : probe cap home d = probe cap home d') : d = d' := by
  have hmod : Nat.ModEq cap d d' := Nat.ModEq.add_left_cancel' home h
  exact Nat.ModEq.eq_of_lt_of_lt hmod hd hd'

/-- Between the home slot of an element and the slot it is in, no slot is free. -/
def Probed (cap : Nat) (home : α → Nat) (slots : Nat → Option α) : Prop :=
  ∀ s a, slots s = some a → ∃ d, s = probe cap (home a) d ∧
    ∀ j < d, (slots (probe cap (home a) j)).isSome

namespace Probed

variable {cap : Nat} {home : α → Nat} {slots : Nat → Option α}

variable (h : Probed cap home slots) {d : Nat} {a : α}

include h

/-- The home slots matter for the elements in the table only. -/
theorem congr {home' : α → Nat} (hhome : ∀ s a, slots s = some a → home' a = home a) :
    Probed cap home' slots := by
  intro s a hs
  rw [hhome s a hs]
  exact h s a hs

theorem insert (hbefore : ∀ j < d, (slots (probe cap (home a) j)).isSome) :
    Probed cap home (update slots (probe cap (home a) d) (some a)) := by
  have hocc : ∀ {t : Nat}, (slots t).isSome →
      (update slots (probe cap (home a) d) (some a) t).isSome := by
    intro t ht
    rcases eq_or_ne t (probe cap (home a) d) with rfl | hne
    · rw [update_self]
      rfl
    · rw [update_of_ne hne]
      exact ht
  intro s b hs
  rcases eq_or_ne s (probe cap (home a) d) with rfl | hne
  · rw [update_self] at hs
    cases hs
    exact ⟨d, rfl, fun j hj => hocc (hbefore j hj)⟩
  · rw [update_of_ne hne] at hs
    obtain ⟨e, he, hall⟩ := h s b hs
    exact ⟨e, he, fun j hj => hocc (hall j hj)⟩

/-- A walk that meets a free slot has passed the element, if it is in the table. -/
theorem found {s : Nat} (hs : slots s = some a) (hfree : slots (probe cap (home a) d) = none) :
    ∃ j < d, slots (probe cap (home a) j) = some a := by
  obtain ⟨e, rfl, hall⟩ := h s a hs
  rcases lt_trichotomy e d with hlt | rfl | hgt
  · exact ⟨e, hlt, hs⟩
  · rw [hfree] at hs
    cases hs
  · have := hall d hgt
    rw [hfree] at this
    cases this

end Probed

/-- A table with fewer elements than slots has a free slot on every walk. -/
theorem exists_probe_none {cap n : Nat} {slots : Nat → Option α} (index : α → Nat)
    (hindex : ∀ s a, slots s = some a → index a < n)
    (hinj : ∀ s s' a b, slots s = some a → slots s' = some b → index a = index b → s = s')
    (hn : n < cap) (home : Nat) : ∃ d < cap, slots (probe cap home d) = none := by
  by_contra hfull
  push Not at hfull
  -- otherwise the walk gives `cap` different elements with indices below `n`
  have helem : ∀ d : Fin cap, ∃ a, slots (probe cap home d) = some a := fun d =>
    Option.ne_none_iff_exists'.mp (hfull d d.isLt)
  choose f hf using helem
  let g : Fin cap → Fin n := fun d => ⟨index (f d), hindex _ _ (hf d)⟩
  have hg : Function.Injective g := by
    intro d e hde
    have hidx : index (f d) = index (f e) := congrArg Fin.val hde
    exact Fin.ext (probe_injective d.isLt e.isLt (hinj _ _ _ _ (hf d) (hf e) hidx))
  have hcard := Fintype.card_le_of_injective g hg
  rw [Fintype.card_fin, Fintype.card_fin] at hcard
  omega

end Lbug.Foundation
