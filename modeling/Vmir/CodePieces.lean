import Mathlib.Data.List.Basic
import Mathlib.Logic.Relation

set_option autoImplicit false

/-!
# Pieces of code and runs

A text is a list of cells; `CodeAt t pos l` says that the cells `l` stand in it from `pos` on. A
deterministic machine is a partial step function, and `Reaches` is its run.
-/
namespace Vmir.CodePieces

section Code
variable {α : Type} {t : List α} {pos : ℕ}

def CodeAt (t : List α) (pos : ℕ) (l : List α) : Prop :=
  ∀ i < l.length, t[pos + i]? = l[i]?

theorem codeAt_self (pre l post : List α) : CodeAt (pre ++ l ++ post) pre.length l := by
  intro i hi
  rw [List.append_assoc, List.getElem?_append_right (Nat.le_add_right _ _),
    Nat.add_sub_cancel_left, List.getElem?_append_left hi]

theorem codeAt_end (pre l : List α) : CodeAt (pre ++ l) pre.length l := by
  have h := codeAt_self pre l []
  rwa [List.append_nil] at h

theorem CodeAt.left {l₁ l₂ : List α} (h : CodeAt t pos (l₁ ++ l₂)) : CodeAt t pos l₁ := by
  intro i hi
  rw [h i (by rw [List.length_append]; omega), List.getElem?_append_left hi]

theorem CodeAt.right {l₁ l₂ : List α} (h : CodeAt t pos (l₁ ++ l₂)) :
    CodeAt t (pos + l₁.length) l₂ := by
  intro i hi
  rw [Nat.add_assoc, h (l₁.length + i) (by rw [List.length_append]; omega),
    List.getElem?_append_right (Nat.le_add_right _ _), Nat.add_sub_cancel_left]

theorem CodeAt.head {c : α} {l : List α} (h : CodeAt t pos (c :: l)) : t[pos]? = some c := by
  have := h 0 (Nat.succ_pos _)
  rwa [Nat.add_zero, List.getElem?_cons_zero] at this

theorem CodeAt.tail {c : α} {l : List α} (h : CodeAt t pos (c :: l)) :
    CodeAt t (pos + 1) l := by
  intro i hi
  have := h (i + 1) (by rw [List.length_cons]; omega)
  rwa [List.getElem?_cons_succ, show pos + (i + 1) = pos + 1 + i by omega] at this

theorem CodeAt.behind {l : List α} (h : CodeAt t pos l) (pre : List α) :
    CodeAt (pre ++ t) (pre.length + pos) l := by
  intro i hi
  rw [List.getElem?_append_right (by omega),
    show pre.length + pos + i - pre.length = pos + i by omega, h i hi]

end Code

section Runs
variable {σ : Type} {step : σ → Option σ} {a b c : σ}

/-- Some number of steps leads from one state to the other. -/
def Reaches (step : σ → Option σ) : σ → σ → Prop :=
  Relation.ReflTransGen fun a b => step a = some b

theorem Reaches.refl (a : σ) : Reaches step a a := Relation.ReflTransGen.refl

theorem Reaches.single (h : step a = some b) : Reaches step a b := Relation.ReflTransGen.single h

theorem Reaches.trans (h : Reaches step a b) (h' : Reaches step b c) : Reaches step a c :=
  Relation.ReflTransGen.trans h h'

theorem Reaches.of_step (h : Reaches step a c) (hb : step a = some b) (hac : a ≠ c) :
    Reaches step b c := by
  rcases Relation.ReflTransGen.cases_head h with rfl | ⟨b', hb', hbc⟩
  · exact absurd rfl hac
  · have hbb : b = b' := Option.some.inj (hb.symm.trans hb')
    rw [hbb]
    exact hbc

theorem Reaches.eq_of_stuck (h : Reaches step a b) (ha : step a = none) : a = b := by
  rcases Relation.ReflTransGen.cases_head h with h | ⟨b', hb', _⟩
  · exact h
  · rw [ha] at hb'
    cases hb'

theorem Reaches.rest (hb : Reaches step a b) (hc : Reaches step a c) (hcs : step c = none) :
    Reaches step b c := by
  induction hb using Relation.ReflTransGen.head_induction_on with
  | refl => exact hc
  | head hstep _ ih =>
    refine ih (hc.of_step hstep ?_)
    rintro rfl
    rw [hcs] at hstep
    cases hstep

theorem Reaches.unique (hb : Reaches step a b) (hc : Reaches step a c) (hbs : step b = none)
    (hcs : step c = none) : b = c :=
  (hb.rest hc hcs).eq_of_stuck hbs

end Runs

end Vmir.CodePieces
