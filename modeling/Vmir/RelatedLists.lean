import Mathlib.Data.List.Perm.Basic

set_option autoImplicit false

/-!
# Related lists

Two lists whose elements are related one by one.
-/
namespace Vmir.RelatedLists

universe u v
variable {α : Type u} {β : Type v} {R : α → β → Prop} {as : List α} {bs : List β}

theorem forall₂_mem {b : β} (h : List.Forall₂ R as bs) (hb : b ∈ bs) : ∃ a ∈ as, R a b := by
  induction h with
  | nil => exact absurd hb List.not_mem_nil
  | cons hR _ ih =>
    rcases List.mem_cons.mp hb with rfl | hb
    · exact ⟨_, List.mem_cons_self, hR⟩
    · obtain ⟨a, ha, hR⟩ := ih hb
      exact ⟨a, List.mem_cons_of_mem _ ha, hR⟩

theorem mem_forall₂ {a : α} (h : List.Forall₂ R as bs) (ha : a ∈ as) : ∃ b ∈ bs, R a b := by
  obtain ⟨b, hb, hR⟩ := forall₂_mem h.flip ha
  exact ⟨b, hb, hR⟩

theorem forall₂_mapM {ε : Type u} {f : α → Except ε β} (h : as.mapM f = .ok bs) :
    List.Forall₂ (fun a b => f a = .ok b) as bs := by
  induction as generalizing bs with
  | nil =>
    cases h
    exact .nil
  | cons a as ih =>
    rw [List.mapM_cons] at h
    cases ha : f a with
    | error e =>
      rw [ha] at h
      cases h
    | ok b =>
      rw [ha] at h
      cases hrest : as.mapM f with
      | error e =>
        rw [hrest] at h
        cases h
      | ok rest =>
        rw [hrest] at h
        cases h
        exact .cons ha (ih hrest)

theorem exists_mapM {ε : Type u} {f : α → Except ε β} (h : ∀ a ∈ as, ∃ b, f a = .ok b) :
    ∃ bs, as.mapM f = .ok bs := by
  induction as with
  | nil => exact ⟨[], rfl⟩
  | cons a as ih =>
    obtain ⟨b, hb⟩ := h a List.mem_cons_self
    obtain ⟨bs, hbs⟩ := ih fun x hx => h x (List.mem_cons_of_mem a hx)
    refine ⟨b :: bs, ?_⟩
    rw [List.mapM_cons, hb]
    change (as.mapM f >>= fun bs => pure (b :: bs)) = _
    rw [hbs]
    rfl

theorem forall₂_of_getElem? (hlength : as.length = bs.length)
    (h : ∀ (k : ℕ) a b, as[k]? = some a → bs[k]? = some b → R a b) : List.Forall₂ R as bs := by
  rw [List.forall₂_iff_get]
  refine ⟨hlength, fun k ha hb => ?_⟩
  exact h k _ _ (List.getElem?_eq_getElem ha) (List.getElem?_eq_getElem hb)

theorem forall₂_perm {bs' : List β} (h : List.Forall₂ R as bs) (hperm : bs.Perm bs') :
    ∃ as', as.Perm as' ∧ List.Forall₂ R as' bs' := by
  have hcomp : Relation.Comp (List.Forall₂ R) List.Perm as bs' := ⟨bs, h, hperm⟩
  rw [List.forall₂_comp_perm_eq_perm_comp_forall₂] at hcomp
  exact hcomp

theorem forall₂_append {as' : List α} : List.Forall₂ R (as ++ as') bs ↔
    ∃ cs cs', bs = cs ++ cs' ∧ List.Forall₂ R as cs ∧ List.Forall₂ R as' cs' := by
  constructor
  · intro h
    have hcut := (List.take_append_drop as.length bs).symm
    exact ⟨_, _, hcut, (List.forall₂_take_append bs as as' h.flip).flip,
      (List.forall₂_drop_append bs as as' h.flip).flip⟩
  · rintro ⟨cs, cs', rfl, hcs, hcs'⟩
    exact List.rel_append hcs hcs'

theorem forall₂_filter {P : α → Bool} {Q : β → Bool} (h : List.Forall₂ R as bs)
    (hiff : ∀ a ∈ as, ∀ b ∈ bs, R a b → (P a = true ↔ Q b = true)) :
    List.Forall₂ R (as.filter P) (bs.filter Q) := by
  induction h with
  | nil => exact .nil
  | @cons a b as bs hab _ ih =>
    have hrest := ih fun a' ha b' hb =>
      hiff a' (List.mem_cons_of_mem _ ha) b' (List.mem_cons_of_mem _ hb)
    have hhead := hiff a List.mem_cons_self b List.mem_cons_self hab
    by_cases hp : P a = true
    · rw [List.filter_cons_of_pos hp, List.filter_cons_of_pos (hhead.mp hp)]
      exact .cons hab hrest
    · rw [List.filter_cons_of_neg hp, List.filter_cons_of_neg (mt hhead.mpr hp)]
      exact hrest

end Vmir.RelatedLists
