import Mathlib.Data.Nat.Choose.Basic
import Mathlib.Order.Monotone.Basic

set_option autoImplicit false

/-!
# Unordered pairs as numbers

The pairs `x ≤ y` are numbered row by row: row `y` starts at the triangular number of `y`.
-/
namespace Vmir.TriangularPairs

/-- Where the row of `y` starts. -/
def row (y : ℕ) : ℕ := (y + 1).choose 2

def pairNumber (x y : ℕ) : ℕ := if x ≤ y then row y + x else row x + y

theorem row_succ (y : ℕ) : row (y + 1) = row y + (y + 1) := by
  unfold row
  rw [Nat.choose_succ_succ' (y + 1) 1, Nat.choose_one_right, Nat.add_comm]

theorem row_eq (y : ℕ) : row y = (y * y + y) / 2 := by
  unfold row
  rw [Nat.choose_two_right, Nat.add_sub_cancel, Nat.add_mul, Nat.one_mul]

theorem two_mul_row (y : ℕ) : 2 * row y = y * y + y := by
  induction y with
  | zero => rfl
  | succ y ih =>
    have hsquare : (y + 1) * (y + 1) = y * y + y + (y + 1) := by rw [Nat.succ_mul, Nat.mul_succ]
    rw [row_succ, Nat.mul_add, ih, hsquare]
    omega

theorem row_mono : Monotone row :=
  monotone_nat_of_le_succ fun y => by
    rw [row_succ]
    exact Nat.le_add_right _ _

theorem pairNumber_comm (x y : ℕ) : pairNumber x y = pairNumber y x := by
  unfold pairNumber
  split
  · split
    · rw [Nat.le_antisymm ‹x ≤ y› ‹y ≤ x›]
    · rfl
  · rw [if_pos (by omega)]

theorem pairNumber_of_le {x y : ℕ} (h : x ≤ y) : pairNumber x y = row y + x := if_pos h

theorem pairNumber_of_ge {x y : ℕ} (h : y ≤ x) : pairNumber x y = row x + y := by
  rw [pairNumber_comm, pairNumber_of_le h]

theorem row_lt {x y z : ℕ} (hx : x ≤ y) (hy : y < z) : row y + x < row z := by
  have hnext : row (y + 1) ≤ row z := row_mono hy
  rw [row_succ] at hnext
  omega

theorem eq_of_row {x y x' y' : ℕ} (hx : x ≤ y) (hx' : x' ≤ y')
    (h : row y + x = row y' + x') : x = x' ∧ y = y' := by
  rcases Nat.lt_trichotomy y y' with hlt | rfl | hlt
  · have := row_lt hx hlt
    omega
  · exact ⟨Nat.add_left_cancel h, rfl⟩
  · have := row_lt hx' hlt
    omega

theorem eq_of_pairNumber {x y x' y' : ℕ} (h : pairNumber x y = pairNumber x' y') :
    (x = x' ∧ y = y') ∨ (x = y' ∧ y = x') := by
  unfold pairNumber at h
  split at h <;> split at h
  · exact Or.inl (eq_of_row ‹_› ‹_› h)
  · have := eq_of_row ‹x ≤ y› (by omega : y' ≤ x') h
    omega
  · have := eq_of_row (by omega : y ≤ x) ‹x' ≤ y'› h
    omega
  · have := eq_of_row (by omega : y ≤ x) (by omega : y' ≤ x') h
    omega

/-- The pairs of the numbers below `n` come before row `n`. -/
theorem pairNumber_lt {x y n : ℕ} (hx : x < n) (hy : y < n) : pairNumber x y < row n := by
  unfold pairNumber
  split
  · exact row_lt ‹_› hy
  · exact row_lt (by omega) hx

end Vmir.TriangularPairs
