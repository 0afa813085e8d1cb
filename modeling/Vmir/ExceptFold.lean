import Mathlib.Init

set_option autoImplicit false

/-!
# Loops that may fail

What holds of a loop over a list whose body may end with an error.
-/
namespace Vmir.ExceptFold

universe u v w
variable {ε : Type u} {α : Type v} {β : Type w} {f : β → α → Except ε β}

theorem foldlM_cons_ok {a : α} {as : List α} {b b' : β} (h : f b a = .ok b') :
    (a :: as).foldlM f b = as.foldlM f b' := by
  rw [List.foldlM_cons, h]
  rfl

theorem foldlM_ok {P : β → Prop} {Q : α → Prop} {as : List α} {b b' : β}
    (hstep : ∀ b a b', P b → a ∈ as → f b a = .ok b' → P b' ∧ Q a) (hb : P b)
    (h : as.foldlM f b = .ok b') : P b' ∧ ∀ a ∈ as, Q a := by
  induction as generalizing b with
  | nil =>
    cases h
    exact ⟨hb, fun a ha => nomatch ha⟩
  | cons a as ih =>
    cases hf : f b a with
    | error e =>
      rw [List.foldlM_cons, hf] at h
      cases h
    | ok c =>
      rw [foldlM_cons_ok hf] at h
      obtain ⟨hc, ha⟩ := hstep b a c hb List.mem_cons_self hf
      obtain ⟨hb', hall⟩ :=
        ih (fun b x b' hP hx => hstep b x b' hP (List.mem_cons_of_mem a hx)) hc h
      refine ⟨hb', fun x hx => ?_⟩
      rcases List.mem_cons.mp hx with rfl | hx
      · exact ha
      · exact hall x hx

theorem foldlM_gathers {P : β → Prop} {Q : α → β → Prop} {as : List α} {b b' : β}
    (hstep : ∀ b a b', P b → a ∈ as → f b a = .ok b' →
      P b' ∧ Q a b' ∧ ∀ x, Q x b → Q x b')
    (hb : P b) (h : as.foldlM f b = .ok b') : P b' ∧ ∀ a ∈ as, Q a b' := by
  suffices hall : P b' ∧ (∀ a ∈ as, Q a b') ∧ ∀ x, Q x b → Q x b' from ⟨hall.1, hall.2.1⟩
  induction as generalizing b with
  | nil =>
    cases h
    exact ⟨hb, fun a ha => absurd ha List.not_mem_nil, fun x hx => hx⟩
  | cons a as ih =>
    cases hf : f b a with
    | error e =>
      rw [List.foldlM_cons, hf] at h
      cases h
    | ok c =>
      rw [foldlM_cons_ok hf] at h
      obtain ⟨hc, ha, hkeep⟩ := hstep b a c hb List.mem_cons_self hf
      obtain ⟨hb', hall, hkeep'⟩ :=
        ih (fun b x b' hP hx => hstep b x b' hP (List.mem_cons_of_mem a hx)) hc h
      refine ⟨hb', fun x hx => ?_, fun x hx => hkeep' x (hkeep x hx)⟩
      rcases List.mem_cons.mp hx with rfl | hx
      · exact hkeep' x ha
      · exact hall x hx

theorem foldlM_error {as : List α} {b : β} {e : ε} (h : as.foldlM f b = .error e) :
    ∃ before a after c, as = before ++ a :: after ∧ before.foldlM f b = .ok c
      ∧ f c a = .error e := by
  induction as generalizing b with
  | nil => cases h
  | cons a as ih =>
    cases hf : f b a with
    | error e' =>
      rw [List.foldlM_cons, hf] at h
      cases h
      exact ⟨[], a, as, b, rfl, rfl, hf⟩
    | ok c =>
      rw [foldlM_cons_ok hf] at h
      obtain ⟨before, x, after, d, rfl, hbefore, hx⟩ := ih h
      refine ⟨a :: before, x, after, d, rfl, ?_, hx⟩
      rw [foldlM_cons_ok hf]
      exact hbefore

theorem foldlM_ends {P : β → Prop} {as : List α} {b : β}
    (hstep : ∀ b a, P b → a ∈ as → ∃ b', f b a = .ok b' ∧ P b') (hb : P b) :
    ∃ b', as.foldlM f b = .ok b' ∧ P b' := by
  induction as generalizing b with
  | nil => exact ⟨b, rfl, hb⟩
  | cons a as ih =>
    obtain ⟨c, hf, hc⟩ := hstep b a hb List.mem_cons_self
    obtain ⟨b', hrest, hb'⟩ := ih (fun b x hP hx => hstep b x hP (List.mem_cons_of_mem a hx)) hc
    refine ⟨b', ?_, hb'⟩
    rw [foldlM_cons_ok hf]
    exact hrest

end Vmir.ExceptFold
