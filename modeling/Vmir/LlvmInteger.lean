import Vmir.VmOps

set_option autoImplicit false

/-!
# Integer arithmetic of LLVM

The binary operations on `w`-bit integers as numbers: `none` where the result is undefined or
poison. On the widths of C the operators of the host agree with it, and on narrower numbers that
are extended to such a width.
-/
namespace Vmir.LlvmInteger
open Ir VmOps

def llvmBinop {w : ℕ} (b : Binop) (x y : BitVec w) : Option (BitVec w) :=
  match b with
  | .add => some (BitVec.ofInt w (x.toInt + y.toInt))
  | .sub => some (BitVec.ofInt w (x.toInt - y.toInt))
  | .mul => some (BitVec.ofInt w (x.toInt * y.toInt))
  | .udiv => if y.toNat = 0 then none else some (BitVec.ofNat w (x.toNat / y.toNat))
  | .sdiv =>
    if y.toInt = 0 ∨ 2 ^ w ≤ 2 * x.toInt.tdiv y.toInt then none
    else some (BitVec.ofInt w (x.toInt.tdiv y.toInt))
  | .urem => if y.toNat = 0 then none else some (BitVec.ofNat w (x.toNat % y.toNat))
  | .srem =>
    if y.toInt = 0 ∨ 2 ^ w ≤ 2 * x.toInt.tdiv y.toInt then none
    else some (BitVec.ofInt w (x.toInt.tmod y.toInt))
  | .shl => if w ≤ y.toNat then none else some (BitVec.ofNat w (x.toNat * 2 ^ y.toNat))
  | .lshr => if w ≤ y.toNat then none else some (BitVec.ofNat w (x.toNat / 2 ^ y.toNat))
  | .ashr => if w ≤ y.toNat then none else some (BitVec.ofInt w (x.toInt / 2 ^ y.toNat))
  | .and => some (x &&& y)
  | .or => some (x ||| y)
  | .xor => some (x ^^^ y)

section
variable {w : ℕ} (x y : BitVec w)

theorem sdiv_eq_ofInt : x.sdiv y = BitVec.ofInt w (x.toInt.tdiv y.toInt) := by
  apply BitVec.eq_of_toInt_eq
  rw [BitVec.toInt_sdiv, BitVec.toInt_ofInt]

theorem srem_eq_ofInt : x.srem y = BitVec.ofInt w (x.toInt.tmod y.toInt) := by
  rw [← BitVec.toInt_srem, BitVec.ofInt_toInt]

theorem sdiv_overflow_iff (hy : y ≠ 0) :
    (x = BitVec.intMin w ∧ y = -1) ↔ (2 : ℤ) ^ w ≤ 2 * x.toInt.tdiv y.toInt := by
  have hw : 0 < w := by
    rcases Nat.eq_zero_or_pos w with rfl | h
    · exact absurd (Subsingleton.elim y 0) hy
    · exact h
  constructor
  · rintro ⟨rfl, rfl⟩
    have hpow : (2 : ℤ) ^ w = 2 * 2 ^ (w - 1) := by
      rw [← pow_succ', Nat.sub_add_cancel hw]
    rw [BitVec.toInt_intMin_of_pos hw,
      show (-1 : BitVec w) = BitVec.allOnes w from BitVec.neg_one_eq_allOnes, BitVec.toInt_allOnes,
      if_pos hw, Int.tdiv_neg, Int.tdiv_one, neg_neg, hpow]
  · intro h
    by_contra hne
    have hdiv := BitVec.toInt_sdiv_of_ne_or_ne x y (by
      by_cases hx : x = BitVec.intMin w
      · exact Or.inr fun hy => hne ⟨hx, hy⟩
      · exact Or.inl hx)
    rw [← hdiv] at h
    have := @BitVec.two_mul_toInt_lt w (x.sdiv y)
    omega

theorem cArith_eq_llvmBinop (b : Binop) : cArith b x y = llvmBinop b x y := by
  have hnat : y = 0 ↔ y.toNat = 0 := by
    rw [← BitVec.toNat_inj]
    rfl
  have hint : y = 0 ↔ y.toInt = 0 := by
    rw [← BitVec.toInt_inj]
    simp
  have hover : (y = 0 ∨ x = BitVec.intMin w ∧ y = -1)
      ↔ (y.toInt = 0 ∨ 2 ^ w ≤ 2 * x.toInt.tdiv y.toInt) := by
    by_cases hy : y = 0
    · exact iff_of_true (Or.inl hy) (Or.inl (hint.mp hy))
    · rw [sdiv_overflow_iff x y hy, hint]
  cases b with
  | add => rw [cArith, llvmBinop, BitVec.ofInt_add, BitVec.ofInt_toInt, BitVec.ofInt_toInt]
  | sub =>
    rw [cArith, llvmBinop, Int.sub_eq_add_neg, BitVec.ofInt_add, BitVec.ofInt_neg,
      BitVec.ofInt_toInt, BitVec.ofInt_toInt, BitVec.sub_eq_add_neg]
  | mul => rw [cArith, llvmBinop, BitVec.ofInt_mul, BitVec.ofInt_toInt, BitVec.ofInt_toInt]
  | udiv => simp only [cArith, llvmBinop, hnat, BitVec.udiv_def]
  | sdiv => simp only [cArith, llvmBinop, hover, sdiv_eq_ofInt]
  | urem => simp only [cArith, llvmBinop, hnat, BitVec.umod_def]
  | srem => simp only [cArith, llvmBinop, hover, srem_eq_ofInt]
  | shl =>
    have h : x <<< y.toNat = BitVec.ofNat w (x.toNat * 2 ^ y.toNat) := by
      apply BitVec.eq_of_toNat_eq
      rw [BitVec.toNat_shiftLeft, Nat.shiftLeft_eq, BitVec.toNat_ofNat]
    simp only [cArith, llvmBinop, h]
  | lshr =>
    have h : x >>> y.toNat = BitVec.ofNat w (x.toNat / 2 ^ y.toNat) := by
      apply BitVec.eq_of_toNat_eq
      rw [← Nat.shiftRight_eq_div_pow, ← BitVec.toNat_ushiftRight, BitVec.ofNat_toNat,
        BitVec.setWidth_eq]
    simp only [cArith, llvmBinop, h]
  | ashr =>
    have h : x.sshiftRight y.toNat = BitVec.ofInt w (x.toInt / 2 ^ y.toNat) := by
      rw [BitVec.sshiftRight, Int.shiftRight_eq_div_pow]
      rfl
    simp only [cArith, llvmBinop, h]
  | and => rfl
  | or => rfl
  | xor => rfl

end
end Vmir.LlvmInteger
