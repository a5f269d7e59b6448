/-
  Foundation/Transition.lean --- executable transition systems.

  A component that serves calls is given by a partial, executable step function
  `step : σ → α → Option σ`.  `Reachable step init ok s` says that `s` ends a run
  from `init` in which every call `a`, made in a state `s`, met the side condition
  `ok s a`.  Taking `ok` to be always true gives the plain runs; an invariant of every
  permitted step holds in every reachable state (`Reachable.invariant`), and a
  concrete run is replayed by evaluation (`exists_reachable_of_run`).

  Nothing here mentions a particular component.
-/
import Mathlib.Algebra.GroupWithZero.Nat

namespace Lbug.Foundation

universe u v

variable {σ : Type u} {α : Type v}

/-- The states at the end of a run whose every call met `ok`. -/
inductive Reachable (step : σ → α → Option σ) (init : σ) (ok : σ → α → Prop) : σ → Prop
  | init : Reachable step init ok init
  | step {s s' : σ} (a : α) : Reachable step init ok s → ok s a → step s a = some s' →
      Reachable step init ok s'

/-- The side condition that permits every call. -/
def Always : σ → α → Prop := fun _ _ => True
  deriving Decidable

variable {step : σ → α → Option σ} {init s : σ} {ok : σ → α → Prop}

/-- An invariant of the initial state and of every permitted step holds in every
reachable state. -/
theorem Reachable.invariant (Inv : σ → Prop) (hinit : Inv init)
    (hstep : ∀ s a s', Inv s → ok s a → step s a = some s' → Inv s')
    (h : Reachable step init ok s) : Inv s := by
  induction h with
  | init => exact hinit
  | step a _ hok hs ih => exact hstep _ a _ ih hok hs

/-- Serve a list of calls in order, as long as each one meets the side condition. -/
def run (step : σ → α → Option σ) (ok : σ → α → Prop) [∀ s a, Decidable (ok s a)] :
    σ → List α → Option σ
  | s, [] => some s
  | s, a :: rest => if ok s a then (step s a).bind fun s' => run step ok s' rest else none

theorem Reachable.run [∀ s a, Decidable (ok s a)] :
    ∀ (calls : List α) {s s' : σ}, Reachable step init ok s →
      run step ok s calls = some s' → Reachable step init ok s' := by
  intro calls
  induction calls with
  | nil =>
    intro s s' h hrun
    cases hrun
    exact h
  | cons a _ ih =>
    intro s s' h hrun
    simp only [Foundation.run] at hrun
    split at hrun
    · rename_i hok
      obtain ⟨_, hs, hrest⟩ := Option.bind_eq_some_iff.mp hrun
      exact ih (.step a h hok hs) hrest
    · cases hrun

/-- Calls that are permitted in every state extend a run. -/
theorem Reachable.serve (calls : List α) {s' : σ} (h : Reachable step init ok s)
    (hok : ∀ a ∈ calls, ∀ s, ok s a) (hcalls : calls.foldlM step s = some s') :
    Reachable step init ok s' := by
  induction calls generalizing s with
  | nil =>
    cases hcalls
    exact h
  | cons a _ ih =>
    obtain ⟨_, hs, hrest⟩ := Option.bind_eq_some_iff.mp hcalls
    exact ih (.step a h (hok a List.mem_cons_self s) hs)
      (fun b hb => hok b (List.mem_cons_of_mem _ hb)) hrest

/-- A run that evaluates to a state with a property makes a state with what follows from it
reachable. -/
theorem exists_reachable_of_run [∀ s a, Decidable (ok s a)] (calls : List α) (p : σ → Prop)
    [DecidablePred p] {q : σ → Prop} (h : (run step ok init calls).any (p ·) = true)
    (hq : ∀ s, Reachable step init ok s → p s → q s) : ∃ s, Reachable step init ok s ∧ q s := by
  obtain ⟨s, hrun, hp⟩ := (Option.any_eq_true _ _).mp h
  have hs := Reachable.init.run calls hrun
  exact ⟨s, hs, hq s hs (of_decide_eq_true hp)⟩

/-- A run that evaluates to a state with a property makes such a state reachable. -/
theorem reachable_of_run [∀ s a, Decidable (ok s a)] (calls : List α) {p : σ → Prop}
    [DecidablePred p] (h : (run step ok init calls).any (p ·) = true) :
    ∃ s, Reachable step init ok s ∧ p s :=
  exists_reachable_of_run calls p h fun _ _ hp => hp

end Lbug.Foundation
