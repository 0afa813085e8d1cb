import Mathlib.Data.BitVec
import Mathlib.Data.Nat.Bitwise

set_option autoImplicit false

/-!
# Alignment

Rounding up to a multiple, in numbers and by masks in 32-bit words.
-/
namespace Vmir.Alignment

/-- The least multiple of `a` that is not below `n`. -/
def roundUp (n a : ℕ) : ℕ := (n + a - 1) / a * a

theorem dvd_roundUp (n a : ℕ) : a ∣ roundUp n a := Nat.dvd_mul_left ..

theorem le_roundUp (n : ℕ) {a : ℕ} (ha : 0 < a) : n ≤ roundUp n a := by
  have hmod := Nat.mod_lt (n + a - 1) ha
  have hdiv := Nat.div_add_mod (n + a - 1) a
  unfold roundUp
  rw [Nat.mul_comm]
  omega

theorem roundUp_lt (n : ℕ) {a : ℕ} (ha : 0 < a) : roundUp n a < n + a := by
  have hle : (n + a - 1) / a * a ≤ n + a - 1 := Nat.div_mul_le_self ..
  unfold roundUp
  omega

theorem add_le_of_lt_of_dvd {m n a : ℕ} (hlt : m < n) (hm : a ∣ m) (hn : a ∣ n) : m + a ≤ n :=
  Nat.le_of_lt_add_of_dvd (Nat.add_lt_add_right hlt a) (Nat.dvd_add hm (Nat.dvd_refl a)) hn

/-- `(a + b - 1) & ~(b - 1)` -/
def alignWord (p b : BitVec 32) : BitVec 32 := (p + b - 1) &&& ~~~(b - 1)

theorem toNat_and_not (x : BitVec 32) {k : ℕ} (hk : k < 32) :
    (x &&& ~~~(BitVec.ofNat 32 (2 ^ k) - 1)).toNat = x.toNat / 2 ^ k * 2 ^ k := by
  have hlow : ∀ i, (BitVec.ofNat 32 (2 ^ k) - 1).getLsbD i = decide (i < k) := by
    intro i
    have hpow : 2 ^ k < 2 ^ 32 := Nat.pow_lt_pow_right (by decide) hk
    have hpos : 0 < 2 ^ k := Nat.two_pow_pos k
    have hval : (BitVec.ofNat 32 (2 ^ k) - 1).toNat = 2 ^ k - 1 := by
      have hone : (1 : BitVec 32).toNat = 1 := rfl
      rw [BitVec.toNat_sub, BitVec.toNat_ofNat, Nat.mod_eq_of_lt hpow, hone]
      omega
    rw [BitVec.getLsbD, hval, Nat.testBit_two_pow_sub_one]
  have hshift : x &&& ~~~(BitVec.ofNat 32 (2 ^ k) - 1) = x >>> k <<< k := by
    apply BitVec.eq_of_getLsbD_eq
    intro i hi
    rw [BitVec.getLsbD_and, BitVec.getLsbD_not, hlow, BitVec.getLsbD_shiftLeft,
      BitVec.getLsbD_ushiftRight]
    by_cases h : i < k
    · simp [h]
    · have hik : k + (i - k) = i := by omega
      simp [h, hi, hik]
  have hle : x.toNat / 2 ^ k * 2 ^ k ≤ x.toNat := Nat.div_mul_le_self ..
  have := x.isLt
  rw [hshift, BitVec.toNat_shiftLeft, BitVec.toNat_ushiftRight, Nat.shiftRight_eq_div_pow,
    Nat.shiftLeft_eq, Nat.mod_eq_of_lt (by omega)]

section
variable {p : BitVec 32} {k : ℕ}

theorem alignWord_eq (p : BitVec 32) (hk : k < 32) :
    (alignWord p (BitVec.ofNat 32 (2 ^ k))).toNat
      = (p.toNat + 2 ^ k - 1) % 2 ^ 32 / 2 ^ k * 2 ^ k := by
  have hpow : 2 ^ k < 2 ^ 32 := Nat.pow_lt_pow_right (by decide) hk
  have hpos : 0 < 2 ^ k := Nat.two_pow_pos k
  have hone : (1 : BitVec 32).toNat = 1 := rfl
  unfold alignWord
  rw [toNat_and_not _ hk, BitVec.toNat_sub, BitVec.toNat_add, BitVec.toNat_ofNat,
    Nat.mod_eq_of_lt hpow, hone]
  congr 2
  omega

theorem alignWord_of_lt (hk : k < 32) (h : roundUp p.toNat (2 ^ k) < 2 ^ 32) :
    (alignWord p (BitVec.ofNat 32 (2 ^ k))).toNat = roundUp p.toNat (2 ^ k) := by
  have hpos : 0 < 2 ^ k := Nat.two_pow_pos k
  have hle := le_roundUp p.toNat hpos
  have hroom := add_le_of_lt_of_dvd h (dvd_roundUp ..) (pow_dvd_pow 2 hk.le)
  rw [alignWord_eq p hk, Nat.mod_eq_of_lt (by omega)]
  rfl

theorem alignWord_of_le (hk : k < 32) (h : 2 ^ 32 ≤ roundUp p.toNat (2 ^ k)) :
    (alignWord p (BitVec.ofNat 32 (2 ^ k))).toNat = 0 := by
  have hpow : 2 ^ k < 2 ^ 32 := Nat.pow_lt_pow_right (by decide) hk
  have hp := p.isLt
  have hlt := roundUp_lt p.toNat (Nat.two_pow_pos k)
  have hsmall : (p.toNat + 2 ^ k - 1) % 2 ^ 32 = p.toNat + 2 ^ k - 1 - 2 ^ 32 := by
    rw [Nat.mod_eq_sub_mod (by omega), Nat.mod_eq_of_lt (by omega)]
  rw [alignWord_eq p hk, hsmall, Nat.div_eq_of_lt (by omega), Nat.zero_mul]

end

end Vmir.Alignment
