import Mathlib.Data.Finset.Basic
import Mathlib.Logic.Relation

set_option autoImplicit false

/-!
# Values in places

A program computes contents for names. It is carried out on a store in which every name has its
place, and names that are not needed at the same time may have one place together. A copy between
two names that have one place is left out.
-/
namespace Vmir.PlacedValues

/-- What fits into a place is read back from it, and from places apart what was there before. -/
structure Store (M L D : Type) where
  get : M → L → D
  set : M → L → D → M
  Fits : L → D → Prop
  Apart : L → L → Prop
  get_set : ∀ m l d, Fits l d → get (set m l d) l = d
  get_set_apart : ∀ m l l' d, Apart l l' → get (set m l d) l' = get m l'

/-- `effect a e s r s' b`: where the names have the contents `e`, the instruction `a` takes the state
from `s` to `s'`, has the results `r` and is followed by `b`. -/
structure Program (α V D σ : Type) where
  uses : α → Finset V
  defs : α → List V
  effect : α → (V → D) → σ → (V → D) → σ → α → Prop
  reads : ∀ a e e' s r s' b, (∀ x ∈ uses a, e x = e' x) → effect a e s r s' b →
    effect a e' s r s' b

section
variable {α V D σ M L : Type}

def Program.Step [DecidableEq V] (P : Program α V D σ) (c c' : α × (V → D) × σ) : Prop :=
  ∃ r, P.effect c.1 c.2.1 c.2.2 r c'.2.2 c'.1
    ∧ c'.2.1 = fun x => if x ∈ P.defs c.1 then r x else c.2.1 x

/-- The instruction gives the content of `y` to every name that it defines. -/
def Program.Copies (P : Program α V D σ) (a : α) (y : V) : Prop :=
  y ∈ P.uses a ∧ ∀ e s r s' b, P.effect a e s r s' b → ∀ x ∈ P.defs a, r x = e y

variable (S : Store M L D) (place : V → L)

/-- The results are written one after the other. -/
def Store.write (r : V → D) (m : M) (xs : List V) : M :=
  xs.foldl (fun m x => S.set m (place x) (r x)) m

def Store.Step (P : Program α V D σ) (removed : α → Bool) (c c' : α × M × σ) : Prop :=
  ∃ r, P.effect c.1 (fun x => S.get c.2.1 (place x)) c.2.2 r c'.2.2 c'.1
    ∧ c'.2.1 = if removed c.1 then c.2.1 else S.write place r c.2.1 (P.defs c.1)

/-- The names in `into a` are needed in front of `a`, those in `out a` behind it. What `a` defines has
a place apart from all that is needed behind it, but for the name that it copies. -/
structure Sound (P : Program α V D σ) (removed : α → Bool) (into out : α → Finset V) : Prop where
  uses : ∀ a, P.uses a ⊆ into a
  through : ∀ a, ∀ y ∈ out a, y ∉ P.defs a → y ∈ into a
  next : ∀ a e s r s' b, P.effect a e s r s' b → into b ⊆ out a
  fits : ∀ a e s r s' b, P.effect a e s r s' b → ∀ x ∈ P.defs a, S.Fits (place x) (r x)
  kept : ∀ a, ∀ x ∈ P.defs a, ∀ y ∈ out a, y ≠ x →
    S.Apart (place x) (place y) ∨ P.Copies a y ∧ place x = place y
  gone : ∀ a, removed a = true → ∃ x y, P.defs a = [x] ∧ P.Copies a y ∧ place x = place y

/-- The places of the names that are needed have their contents. -/
def Agrees (into : α → Finset V) (a : α) (e : V → D) (m : M) : Prop :=
  ∀ x ∈ into a, S.get m (place x) = e x

variable {S place}

theorem write_get {r : V → D} {y : V} {d : D} (xs : List V) {m : M}
    (hfits : ∀ x ∈ xs, S.Fits (place x) (r x))
    (hkept : ∀ x ∈ xs, S.Apart (place x) (place y) ∨ place x = place y ∧ r x = d)
    (hd : S.get m (place y) = d ∨ ∃ x ∈ xs, place x = place y ∧ r x = d) :
    S.get (S.write place r m xs) (place y) = d := by
  induction xs generalizing m with
  | nil =>
    rcases hd with hd | ⟨x, hx, -⟩
    · exact hd
    · exact absurd hx List.not_mem_nil
  | cons x xs ih =>
    have hx := hfits x List.mem_cons_self
    change S.get (S.write place r (S.set m (place x) (r x)) xs) (place y) = d
    refine ih (fun x hx => hfits x (List.mem_cons_of_mem _ hx))
      (fun x hx => hkept x (List.mem_cons_of_mem _ hx)) ?_
    have hsame : place x = place y ∧ r x = d → S.get (S.set m (place x) (r x)) (place y) = d := by
      rintro ⟨hplace, hr⟩
      rw [← hplace, S.get_set _ _ _ hx, hr]
    rcases hkept x List.mem_cons_self with hapart | h
    · rcases hd with hd | ⟨z, hz, hplace, hr⟩
      · exact Or.inl ((S.get_set_apart _ _ _ _ hapart).trans hd)
      · rcases List.mem_cons.mp hz with rfl | hz
        · exact Or.inl (hsame ⟨hplace, hr⟩)
        · exact Or.inr ⟨z, hz, hplace, hr⟩
    · exact Or.inl (hsame h)

variable [DecidableEq V] {P : Program α V D σ} {removed : α → Bool} {into out : α → Finset V}

section
variable (h : Sound S place P removed into out) {a b : α} {e r : V → D} {s s' : σ} {m : M}
include h

theorem Sound.written (hagrees : Agrees S place into a e m) (heffect : P.effect a e s r s' b) :
    Agrees S place into b (fun x => if x ∈ P.defs a then r x else e x)
      (if removed a then m else S.write place r m (P.defs a)) := by
  intro y hy
  have hout := h.next _ _ _ _ _ _ heffect hy
  have hcopied {z : V} (hcopies : P.Copies a z) : S.get m (place z) = e z :=
    hagrees z (h.uses a hcopies.1)
  change S.get _ (place y) = if y ∈ P.defs a then r y else e y
  by_cases hgone : removed a = true
  · -- nothing is written, and the name has the place of the one that is copied
    obtain ⟨x, z, hdefs, hcopies, hplace⟩ := h.gone a hgone
    rw [if_pos hgone]
    by_cases hyx : y ∈ P.defs a
    · rw [if_pos hyx, hcopies.2 _ _ _ _ _ heffect y hyx]
      obtain rfl : y = x := by
        rw [hdefs] at hyx
        exact List.mem_singleton.mp hyx
      rw [hplace, hcopied hcopies]
    · rw [if_neg hyx]
      exact hagrees y (h.through a y hout hyx)
  · rw [if_neg hgone]
    refine write_get _ (h.fits _ _ _ _ _ _ heffect) (fun x hx => ?_) ?_
    · by_cases hyx : y = x
      · subst hyx
        exact Or.inr ⟨rfl, (if_pos hx).symm⟩
      · refine (h.kept a x hx y hout hyx).imp_right ?_
        rintro ⟨hcopies, hplace⟩
        refine ⟨hplace, ?_⟩
        have hr := hcopies.2 _ _ _ _ _ heffect
        by_cases hydefs : y ∈ P.defs a
        · rw [if_pos hydefs, hr x hx, hr y hydefs]
        · rw [if_neg hydefs, hr x hx]
    · by_cases hydefs : y ∈ P.defs a
      · exact Or.inr ⟨y, hydefs, rfl, (if_pos hydefs).symm⟩
      · rw [if_neg hydefs]
        exact Or.inl (hagrees y (h.through a y hout hydefs))

theorem Sound.forth {e' : V → D} (hagrees : Agrees S place into a e m)
    (hstep : P.Step (a, e, s) (b, e', s')) :
    ∃ m', S.Step place P removed (a, m, s) (b, m', s') ∧ Agrees S place into b e' m' := by
  obtain ⟨r, heffect, rfl⟩ := hstep
  have hread := P.reads a e (fun x => S.get m (place x)) s r s' b
    (fun x hx => (hagrees x (h.uses a hx)).symm) heffect
  exact ⟨_, ⟨r, hread, rfl⟩, h.written hagrees heffect⟩

theorem Sound.back {m' : M} (hagrees : Agrees S place into a e m)
    (hstep : S.Step place P removed (a, m, s) (b, m', s')) :
    ∃ e', P.Step (a, e, s) (b, e', s') ∧ Agrees S place into b e' m' := by
  obtain ⟨r, heffect, rfl⟩ := hstep
  have hread := P.reads a (fun x => S.get m (place x)) e s r s' b
    (fun x hx => hagrees x (h.uses a hx)) heffect
  exact ⟨_, ⟨r, hread, rfl⟩, h.written hagrees hread⟩

end

open Relation

theorem Sound.run_forth (h : Sound S place P removed into out) {c c' : α × (V → D) × σ} {m : M}
    (hagrees : Agrees S place into c.1 c.2.1 m) (hrun : ReflTransGen P.Step c c') :
    ∃ m', ReflTransGen (S.Step place P removed) (c.1, m, c.2.2) (c'.1, m', c'.2.2)
      ∧ Agrees S place into c'.1 c'.2.1 m' := by
  induction hrun with
  | refl => exact ⟨m, ReflTransGen.refl, hagrees⟩
  | tail _ hstep ih =>
    obtain ⟨m₁, hrun₁, hagrees₁⟩ := ih
    obtain ⟨m₂, hstep₂, hagrees₂⟩ := h.forth hagrees₁ hstep
    exact ⟨m₂, hrun₁.tail hstep₂, hagrees₂⟩

theorem Sound.run_back (h : Sound S place P removed into out) {c c' : α × M × σ} {e : V → D}
    (hagrees : Agrees S place into c.1 e c.2.1)
    (hrun : ReflTransGen (S.Step place P removed) c c') :
    ∃ e', ReflTransGen P.Step (c.1, e, c.2.2) (c'.1, e', c'.2.2)
      ∧ Agrees S place into c'.1 e' c'.2.1 := by
  induction hrun with
  | refl => exact ⟨e, ReflTransGen.refl, hagrees⟩
  | tail _ hstep ih =>
    obtain ⟨e₁, hrun₁, hagrees₁⟩ := ih
    obtain ⟨e₂, hstep₂, hagrees₂⟩ := h.back hagrees₁ hstep
    exact ⟨e₂, hrun₁.tail hstep₂, hagrees₂⟩

end

end Vmir.PlacedValues
