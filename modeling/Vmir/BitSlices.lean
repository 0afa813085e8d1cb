import Mathlib.Data.Nat.Bitwise
import Mathlib.Tactic.Ring.RingNF

set_option autoImplicit false

/-!
# Slices of a bit string

A byte string is the number whose binary digits are its bits, the first byte lowest; `slice N p n`
is the number in the `n` bits from bit `p` on.
-/
namespace Vmir.BitSlices

def ofBytes : List (BitVec 8) → ℕ
  | [] => 0
  | b :: bs => b.toNat + 256 * ofBytes bs

def slice (N p n : ℕ) : ℕ := N / 2 ^ p % 2 ^ n

theorem slice_zero (N p : ℕ) : slice N p 0 = 0 := Nat.mod_one _

theorem slice_lt (N p n : ℕ) : slice N p n < 2 ^ n := Nat.mod_lt _ (Nat.two_pow_pos n)

theorem slice_add (N p m n : ℕ) :
    slice N p (m + n) = slice N p m + 2 ^ m * slice N (p + m) n := by
  rw [slice, slice, slice, pow_add, Nat.mod_mul, Nat.div_div_eq_div_mul, pow_add]

theorem slice_mod (N p : ℕ) {m n : ℕ} (h : m ≤ n) : slice N p n % 2 ^ m = slice N p m :=
  Nat.mod_mod_of_dvd _ (pow_dvd_pow 2 h)

theorem slice_div (N p m n : ℕ) : slice N p (m + n) / 2 ^ m = slice N (p + m) n := by
  rw [slice_add, Nat.add_mul_div_left _ _ (Nat.two_pow_pos m),
    Nat.div_eq_of_lt (slice_lt N p m), Nat.zero_add]

theorem slice_byte {data : List (BitVec 8)} {i : ℕ} {b : BitVec 8} (h : data[i]? = some b) :
    slice (ofBytes data) (8 * i) 8 = b.toNat := by
  induction data generalizing i with
  | nil => simp at h
  | cons a data ih =>
    have ha := a.isLt
    cases i with
    | zero =>
      obtain rfl : a = b := by simpa using h
      rw [slice, ofBytes]
      omega
    | succ i =>
      rw [← ih (by simpa using h), slice, slice, ofBytes,
        show 2 ^ (8 * (i + 1)) = 256 * 2 ^ (8 * i) by rw [Nat.mul_succ, pow_add, Nat.mul_comm]; rfl,
        ← Nat.div_div_eq_div_mul, Nat.add_mul_div_left _ _ (by omega), Nat.div_eq_of_lt ha,
        Nat.zero_add]

end Vmir.BitSlices
