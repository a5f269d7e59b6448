/-
  Foundation/Simulation.lean --- components that serve calls, and what they refine.

  A component is an executable, partial function `step : σ → α → Option (σ × β)` from a
  state and a call to the next state and the outcome of the call.  A specification is a
  relation `spec : τ → α → β → τ → Prop` that says which outcomes and next states a call
  may have.  `serve` makes a list of calls; `Allows spec` relates lists of calls and
  outcomes.  A relation between the two kinds of states that every call preserves
  (`Simulates`) makes every list of calls succeed with outcomes that the specification
  allows (`Simulates.serve`).

  Nothing here mentions a particular component.
-/
import Mathlib.Logic.Basic

namespace Lbug.Foundation

universe u v w x

variable {σ : Type u} {τ : Type v} {α : Type w} {β : Type x}

/-- Make the calls one after the other. -/
def serve (step : σ → α → Option (σ × β)) : σ → List α → Option (σ × List β)
  | s, [] => some (s, [])
  | s, a :: rest =>
    match step s a with
    | none => none
    | some (s, b) => (serve step s rest).map fun (s, outcomes) => (s, b :: outcomes)

/-- The specification allows these outcomes of the calls. -/
inductive Allows (spec : τ → α → β → τ → Prop) : τ → List α → List β → τ → Prop
  | nil (t : τ) : Allows spec t [] [] t
  | cons {t t' t'' : τ} {a : α} {b : β} {calls : List α} {outcomes : List β} :
      spec t a b t' → Allows spec t' calls outcomes t'' →
      Allows spec t (a :: calls) (b :: outcomes) t''

/-- Every call succeeds, with an outcome and a next state that match the
specification. -/
def Simulates (step : σ → α → Option (σ × β)) (spec : τ → α → β → τ → Prop)
    (R : σ → τ → Prop) : Prop :=
  ∀ s t, R s t → ∀ a, ∃ s' b t', step s a = some (s', b) ∧ spec t a b t' ∧ R s' t'

theorem Simulates.serve {step : σ → α → Option (σ × β)} {spec : τ → α → β → τ → Prop}
    {R : σ → τ → Prop} (h : Simulates step spec R) (calls : List α) {s : σ} {t : τ} (hR : R s t) :
    ∃ s' outcomes t', serve step s calls = some (s', outcomes) ∧
      Allows spec t calls outcomes t' ∧ R s' t' := by
  induction calls generalizing s t with
  | nil => exact ⟨s, [], t, rfl, .nil t, hR⟩
  | cons a _ ih =>
    obtain ⟨_, b, _, hstep, hspec, hR₁⟩ := h s t hR a
    obtain ⟨s', outcomes, t', hserve, hallows, hR'⟩ := ih hR₁
    refine ⟨s', b :: outcomes, t', ?_, .cons hspec hallows, hR'⟩
    simp only [Foundation.serve, hstep, hserve, Option.map_some]

end Lbug.Foundation
