import Vmir.CodePieces

set_option autoImplicit false

/-!
# Runs under a condition

Runs of a partial step function whose steps all start in states of a given kind, and what they
preserve.
-/
namespace Vmir.GuardedRuns
open CodePieces

variable {σ τ : Type} {step : σ → Option σ} {P : σ → Prop}

/-- A run in which every step starts from a state in `P`. -/
inductive RunsIn (step : σ → Option σ) (P : σ → Prop) : σ → σ → Prop
  | refl (s : σ) : RunsIn step P s s
  | tail {s u v : σ} (h : RunsIn step P s u) (hu : P u) (hstep : step u = some v) :
    RunsIn step P s v

theorem RunsIn.trans {s u v : σ} (h : RunsIn step P s u) (h' : RunsIn step P u v) :
    RunsIn step P s v := by
  induction h' with
  | refl => exact h
  | tail _ hu hstep ih => exact ih.tail hu hstep

theorem RunsIn.invariant {I : σ → Prop} (hI : ∀ s u, I s → P s → step s = some u → I u) {s u : σ}
    (h : RunsIn step P s u) (hs : I s) : I u := by
  induction h with
  | refl => exact hs
  | tail _ hu hstep ih => exact hI _ _ ih hu hstep

theorem RunsIn.map {step' : τ → Option τ} {f : σ → τ} {I : σ → Prop}
    (hI : ∀ s u, I s → P s → step s = some u → I u)
    (hf : ∀ s, I s → P s → (step s).map f = step' (f s)) {s u : σ} (h : RunsIn step P s u)
    (hs : I s) : Reaches step' (f s) (f u) := by
  induction h with
  | refl => exact Reaches.refl _
  | tail h hu hstep ih =>
    have hmap := hf _ (h.invariant hI hs) hu
    rw [hstep, Option.map_some] at hmap
    exact ih.trans (Reaches.single hmap.symm)

end Vmir.GuardedRuns
