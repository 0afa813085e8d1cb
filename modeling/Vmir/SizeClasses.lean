import Mathlib.Data.Nat.Log
import Mathlib.Tactic.Ring

set_option autoImplicit false

/-!
# Size classes

Sizes are divided like floating-point numbers with `k` bits behind the leading one: each power of two
is the start of `2 ^ k` classes of one width. Below `2 ^ k` each size has its own class. The classes
are numbered in the order of their sizes.
-/
namespace Vmir.SizeClasses

def exponent (k n : ℕ) : ℕ := Nat.log2 n - k

def index (k n : ℕ) : ℕ := exponent k n * 2 ^ k + n / 2 ^ exponent k n

/-- Every size of the class of the result is at least `n`. -/
def roundUp (k n : ℕ) : ℕ := n + (2 ^ exponent k n - 1)

variable {k n m : ℕ}

theorem log2_bounds (h : n ≠ 0) : 2 ^ Nat.log2 n ≤ n ∧ n < 2 ^ (Nat.log2 n + 1) :=
  ⟨Nat.log2_self_le h, Nat.lt_log2_self⟩

theorem exponent_mono (h : n ≤ m) : exponent k n ≤ exponent k m := by
  unfold exponent
  have hlog : Nat.log2 n ≤ Nat.log2 m := by
    rw [Nat.log2_eq_log_two, Nat.log2_eq_log_two]
    exact Nat.log_mono_right h
  omega

theorem mantissa_bounds (h : exponent k n ≠ 0) :
    2 ^ k ≤ n / 2 ^ exponent k n ∧ n / 2 ^ exponent k n < 2 ^ (k + 1) := by
  have hne : n ≠ 0 := by
    rintro rfl
    exact h (Nat.zero_sub k)
  obtain ⟨hlo, hhi⟩ := log2_bounds hne
  have hlog : Nat.log2 n = k + exponent k n := by
    unfold exponent at h ⊢
    omega
  rw [hlog, pow_add] at hlo
  rw [hlog, show k + exponent k n + 1 = k + 1 + exponent k n by omega, pow_add] at hhi
  exact ⟨(Nat.le_div_iff_mul_le (Nat.two_pow_pos _)).mpr hlo,
    Nat.div_lt_of_lt_mul (by rwa [Nat.mul_comm])⟩

theorem index_of_small (h : exponent k n = 0) : index k n = n := by
  rw [index, h, Nat.zero_mul, Nat.zero_add, Nat.pow_zero, Nat.div_one]

theorem lt_of_small (h : exponent k n = 0) : n < 2 ^ (k + 1) := by
  by_cases hne : n = 0
  · rw [hne]
    exact Nat.two_pow_pos _
  · refine lt_of_lt_of_le (log2_bounds hne).2 (Nat.pow_le_pow_right (by decide) ?_)
    unfold exponent at h
    omega

theorem index_lt (k n : ℕ) : index k n < (exponent k n + 2) * 2 ^ k := by
  have hmul : (exponent k n + 2) * 2 ^ k = exponent k n * 2 ^ k + 2 ^ (k + 1) := by ring
  rw [hmul]
  refine Nat.add_lt_add_left ?_ _
  by_cases h : exponent k n = 0
  · rw [h, Nat.pow_zero, Nat.div_one]
    exact lt_of_small h
  · exact (mantissa_bounds h).2

theorem le_index (h : exponent k n ≠ 0) : (exponent k n + 1) * 2 ^ k ≤ index k n := by
  have hmul : (exponent k n + 1) * 2 ^ k = exponent k n * 2 ^ k + 2 ^ k := by ring
  rw [hmul]
  exact Nat.add_le_add_left (mantissa_bounds h).1 _

theorem index_lt_of_exponent (h : exponent k n < exponent k m) : index k n < index k m := by
  refine lt_of_lt_of_le (index_lt k n) (le_trans ?_ (le_index (by omega)))
  exact Nat.mul_le_mul_right _ (by omega)

theorem index_mono (h : n ≤ m) : index k n ≤ index k m := by
  rcases Nat.lt_or_ge (exponent k n) (exponent k m) with hlt | hge
  · exact le_of_lt (index_lt_of_exponent hlt)
  · have heq : exponent k m = exponent k n := le_antisymm hge (exponent_mono h)
    unfold index
    rw [heq]
    exact Nat.add_le_add_left (Nat.div_le_div_right h) _

theorem le_roundUp (k n : ℕ) : n ≤ roundUp k n := Nat.le_add_right _ _

/-- A size below `n` is in a class below the one of the rounded size. -/
theorem index_lt_roundUp (h : m < n) : index k m < index k (roundUp k n) := by
  rcases Nat.lt_or_ge (exponent k n) (exponent k (roundUp k n)) with hlt | hge
  · exact index_lt_of_exponent (lt_of_le_of_lt (exponent_mono (le_of_lt h)) hlt)
  · have heq : exponent k (roundUp k n) = exponent k n := le_antisymm hge (exponent_mono (le_roundUp k n))
    rcases Nat.lt_or_ge (exponent k m) (exponent k n) with hlt' | hge'
    · exact index_lt_of_exponent (by rw [heq]; exact hlt')
    · have hm : exponent k m = exponent k n := le_antisymm (exponent_mono (le_of_lt h)) hge'
      unfold index
      rw [heq, hm]
      refine Nat.add_lt_add_left ?_ _
      have hpos := Nat.two_pow_pos (exponent k n)
      -- Rounding up passes the next multiple of the width.
      have hup : m + 2 ^ exponent k n ≤ roundUp k n := by
        unfold roundUp
        omega
      calc m / 2 ^ exponent k n < m / 2 ^ exponent k n + 1 := Nat.lt_succ_self _
        _ = (m + 2 ^ exponent k n) / 2 ^ exponent k n := (Nat.add_div_right m hpos).symm
        _ ≤ roundUp k n / 2 ^ exponent k n := Nat.div_le_div_right hup

/-- The classes from the one of the rounded size on have no smaller sizes than `n`. -/
theorem le_of_index_roundUp (h : index k (roundUp k n) ≤ index k m) : n ≤ m := by
  by_contra hlt
  exact absurd h (Nat.not_le.mpr (index_lt_roundUp (Nat.not_le.mp hlt)))

/-- Rounding adds less than one part in `2 ^ k`. -/
theorem roundUp_le (k n : ℕ) : roundUp k n ≤ n + n / 2 ^ k := by
  unfold roundUp
  refine Nat.add_le_add_left ?_ _
  by_cases h : exponent k n = 0
  · rw [h]
    exact Nat.zero_le _
  · have hle : 2 ^ k * 2 ^ exponent k n ≤ n :=
      (Nat.le_div_iff_mul_le (Nat.two_pow_pos _)).mp (mantissa_bounds h).1
    have hwidth : 2 ^ exponent k n ≤ n / 2 ^ k := by
      rw [Nat.le_div_iff_mul_le (Nat.two_pow_pos k), Nat.mul_comm]
      exact hle
    exact le_trans (Nat.sub_le _ _) hwidth

end Vmir.SizeClasses
