/-
  Foundation/Mutex.lean --- mutexes held for the length of a scope.

  A program in which every lock is taken and released by scopes is described by a
  place `pc t` for each thread `t` and, for each mutex, a table `holds` that says at
  which places the mutex is held.  `Owned m pc holds` relates the mutex itself (its
  owner, if it is locked) to the places of the threads.  `Owned.shift` is the only
  rule needed: a thread moves and takes, keeps, releases or ignores the mutex as the
  table says.
-/
import Mathlib.Logic.Function.Basic

namespace Lbug.Foundation

variable {ι π : Type}

/-- The mutex `m` is owned by exactly the threads whose place lies in its scope. -/
def Owned (m : Option ι) (pc : ι → π) (holds : π → Bool) : Prop :=
  ∀ t, m = some t ↔ holds (pc t) = true

/-- The mutex before and after a move of thread `t`: taken when `t` enters the scope
(then it was free), given up when `t` leaves the scope, untouched otherwise. -/
def Shifts (m m' : Option ι) (t : ι) : (held held' : Bool) → Prop
  | false, true => m = none ∧ m' = some t
  | true, false => m' = none
  | _, _ => m' = m

section Owned

variable {m : Option ι} {pc : ι → π} {holds : π → Bool} {t u : ι}

theorem Owned.unique (h : Owned m pc holds) (ht : holds (pc t) = true) (hu : holds (pc u) = true) :
    t = u :=
  Option.some.inj (((h t).mpr ht).symm.trans ((h u).mpr hu))

theorem Owned.not_holds_of_free (h : Owned none pc holds) (t : ι) : holds (pc t) = false := by
  cases hplace : holds (pc t) with
  | false => rfl
  | true => cases (h t).mpr hplace

/-- Outside the place of the only thread in the scope, the table is false. -/
theorem Owned.not_holds_of_ne (h : Owned m pc holds) (ht : holds (pc t) = true) (hne : u ≠ t) :
    holds (pc u) = false := by
  cases hu : holds (pc u) with
  | false => rfl
  | true => exact absurd (h.unique hu ht) hne

/-- A thread that moves from place to place and takes or gives up the mutex as its
table says keeps the mutex owned. -/
theorem Owned.shift [DecidableEq ι] (h : Owned m pc holds) {m' : Option ι} {t : ι} {place' : π}
    (hshift : Shifts m m' t (holds (pc t)) (holds place')) :
    Owned m' (Function.update pc t place') holds := by
  intro u
  rcases eq_or_ne u t with rfl | hne
  · rw [Function.update_self]
    cases hold : holds (pc u) <;> cases hnew : holds place' <;>
      simp only [hold, hnew, Shifts] at hshift
    · simp [hshift, h u, hold]
    · simp [hshift.2]
    · simp [hshift]
    · simp [hshift, h u, hold]
  · rw [Function.update_of_ne hne]
    cases hold : holds (pc t) <;> cases hnew : holds place' <;>
      simp only [hold, hnew, Shifts] at hshift
    · rw [hshift, h u]
    · -- the mutex was free, so `u` is not in the scope either
      obtain ⟨rfl, rfl⟩ := hshift
      simp [h.not_holds_of_free u, Ne.symm hne]
    · simp [hshift, h.not_holds_of_ne hold hne]
    · rw [hshift, h u]

end Owned

end Lbug.Foundation
