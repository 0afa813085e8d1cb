import Mathlib.Data.List.Basic
import Mathlib.Algebra.Order.Group.Int

set_option autoImplicit false

/-!
# Tilings

Things that lie one behind the other, from one place to another, without a gap.
-/
namespace Vmir.Tiling

variable {β : Type} {lo len : β → ℤ}

/-- The things `bs` fill the space from `a` to `c`, each of some length. -/
def Tiles (lo len : β → ℤ) : ℤ → List β → ℤ → Prop
  | a, [], c => a = c
  | a, b :: bs, c => lo b = a ∧ 0 < len b ∧ Tiles lo len (a + len b) bs c

/-- The place `p` is in the thing. -/
def Within (lo len : β → ℤ) (b : β) (p : ℤ) : Prop := lo b ≤ p ∧ p < lo b + len b

variable {a c : ℤ} {bs cs : List β}

theorem Tiles.le (h : Tiles lo len a bs c) : a ≤ c := by
  induction bs generalizing a with
  | nil => exact le_of_eq h
  | cons b bs ih =>
    obtain ⟨-, hlen, hrest⟩ := h
    have := ih hrest
    omega

theorem Tiles.bounds (h : Tiles lo len a bs c) {b : β} (hb : b ∈ bs) :
    a ≤ lo b ∧ 0 < len b ∧ lo b + len b ≤ c := by
  induction bs generalizing a with
  | nil => exact absurd hb List.not_mem_nil
  | cons d bs ih =>
    obtain ⟨hlo, hlen, hrest⟩ := h
    rcases List.mem_cons.mp hb with rfl | hmem
    · have := hrest.le
      omega
    · have := ih hrest hmem
      omega

theorem Tiles.pairwise (h : Tiles lo len a bs c) :
    bs.Pairwise fun x y => lo x + len x ≤ lo y := by
  induction bs generalizing a with
  | nil => exact List.Pairwise.nil
  | cons b bs ih =>
    obtain ⟨hlo, hlen, hrest⟩ := h
    refine List.pairwise_cons.mpr ⟨fun y hy => ?_, ih hrest⟩
    have := hrest.bounds hy
    omega

theorem Tiles.eq_of_lo (h : Tiles lo len a bs c) {x y : β} (hx : x ∈ bs) (hy : y ∈ bs)
    (heq : lo x = lo y) : x = y := by
  induction bs generalizing a with
  | nil => exact absurd hx List.not_mem_nil
  | cons b bs ih =>
    obtain ⟨hlo, hlen, hrest⟩ := h
    rcases List.mem_cons.mp hx with rfl | hxs
    · rcases List.mem_cons.mp hy with rfl | hys
      · rfl
      · have := hrest.bounds hys
        omega
    · rcases List.mem_cons.mp hy with rfl | hys
      · have := hrest.bounds hxs
        omega
      · exact ih hrest hxs hys

theorem Tiles.eq_of_within (h : Tiles lo len a bs c) {x y : β} (hx : x ∈ bs) (hy : y ∈ bs) {p : ℤ}
    (hpx : Within lo len x p) (hpy : Within lo len y p) : x = y := by
  induction bs generalizing a with
  | nil => exact absurd hx List.not_mem_nil
  | cons b bs ih =>
    obtain ⟨hlo, hlen, hrest⟩ := h
    obtain ⟨hpx1, hpx2⟩ := hpx
    obtain ⟨hpy1, hpy2⟩ := hpy
    rcases List.mem_cons.mp hx with rfl | hxs
    · rcases List.mem_cons.mp hy with rfl | hys
      · rfl
      · have := hrest.bounds hys
        omega
    · rcases List.mem_cons.mp hy with rfl | hys
      · have := hrest.bounds hxs
        omega
      · exact ih hrest hxs hys

theorem Tiles.exists_within (h : Tiles lo len a bs c) {p : ℤ} (hp : a ≤ p ∧ p < c) :
    ∃ b ∈ bs, Within lo len b p := by
  induction bs generalizing a with
  | nil =>
    have : a = c := h
    omega
  | cons b bs ih =>
    obtain ⟨hlo, hlen, hrest⟩ := h
    by_cases hin : p < a + len b
    · exact ⟨b, List.mem_cons_self, by omega, by omega⟩
    · obtain ⟨d, hd, hwithin⟩ := ih hrest ⟨by omega, hp.2⟩
      exact ⟨d, List.mem_cons_of_mem b hd, hwithin⟩

end Vmir.Tiling
