import Vmir.LlvmInteger

set_option autoImplicit false

/-!
# Narrow numbers in wide registers

How the operators act on the low `w` bits of wider operands: some need only those bits, the others
need operands that are extended the way the operator reads them.
-/
namespace Vmir.NarrowArith
open Ir VmOps

/-- The operators whose low bits depend on the low bits of the operands only. -/
def lowOp (b : Binop) : Bool :=
  match b with
  | .add | .sub | .mul | .and | .or | .xor => true
  | _ => false

section
variable {w n : ℕ}

theorem setWidth_ofInt (h : w ≤ n) (i : ℤ) : (BitVec.ofInt n i).setWidth w = BitVec.ofInt w i := by
  apply BitVec.eq_of_toInt_eq
  rw [← BitVec.signExtend_eq_setWidth_of_le _ h, BitVec.toInt_signExtend_eq_toInt_bmod_of_le _ h,
    BitVec.toInt_ofInt, BitVec.toInt_ofInt, Int.bmod_bmod_of_dvd (Nat.pow_dvd_pow 2 h)]

theorem signExtend_setWidth {k : ℕ} (x : BitVec k) (h : w ≤ n) :
    (x.signExtend n).setWidth w = x.signExtend w := by
  apply BitVec.eq_of_getLsbD_eq
  intro i hi
  have hin : i < n := by omega
  simp only [BitVec.getLsbD_setWidth, BitVec.getLsbD_signExtend, hi, hin, decide_true,
    Bool.true_and]

theorem setWidth_signExtend (h : w ≤ n) (x : BitVec w) : (x.signExtend n).setWidth w = x := by
  rw [signExtend_setWidth x h, BitVec.signExtend_eq]

theorem setWidth_sub (x y : BitVec n) (h : w ≤ n) :
    (x - y).setWidth w = x.setWidth w - y.setWidth w := by
  have hxy := BitVec.setWidth_add (x - y) y h
  rw [BitVec.sub_add_cancel] at hxy
  rw [hxy, BitVec.add_sub_cancel]

theorem cArith_low (h : w ≤ n) {b : Binop} (hb : lowOp b = true) (x y : BitVec n) :
    cArith b (x.setWidth w) (y.setWidth w) = (cArith b x y).map (·.setWidth w) := by
  cases b with
  | add => rw [cArith, cArith, Option.map_some, BitVec.setWidth_add _ _ h]
  | sub => rw [cArith, cArith, Option.map_some, setWidth_sub _ _ h]
  | mul => rw [cArith, cArith, Option.map_some, BitVec.setWidth_mul _ _ h]
  | and => rw [cArith, cArith, Option.map_some, BitVec.setWidth_and]
  | or => rw [cArith, cArith, Option.map_some, BitVec.setWidth_or]
  | xor => rw [cArith, cArith, Option.map_some, BitVec.setWidth_xor]
  | _ => cases hb

theorem cArith_shl (h : w ≤ n) (x y : BitVec n) (hy : y.toNat < w) :
    cArith .shl x y = some (x <<< y.toNat)
      ∧ (x <<< y.toNat).setWidth w = x.setWidth w <<< y.toNat := by
  refine ⟨if_neg (by omega), BitVec.setWidth_shiftLeft_of_le h⟩

theorem ite_eq_some {α : Type} {p : Prop} [Decidable p] {a r : α}
    (h : (if p then none else some a) = some r) : ¬ p ∧ a = r := by
  split at h
  · cases h
  · next hp => exact ⟨hp, Option.some.inj h⟩

def extendLeft (b : Binop) (n : ℕ) (x : BitVec w) : BitVec n :=
  if signedLeft b then x.signExtend n else x.setWidth n

def extendRight (b : Binop) (n : ℕ) (x : BitVec w) : BitVec n :=
  if signedRight b then x.signExtend n else x.setWidth n

theorem signExtend_ne_zero (h : w ≤ n) {y : BitVec w} (hy : y ≠ 0) : y.signExtend n ≠ 0 := by
  intro hzero
  apply hy
  rw [← setWidth_signExtend h y, hzero]
  exact BitVec.setWidth_zero _ _

theorem setWidth_ne_zero (h : w ≤ n) {y : BitVec w} (hy : y ≠ 0) : y.setWidth n ≠ 0 := by
  intro hzero
  apply hy
  have hy' := BitVec.setWidth_setWidth_of_le y h (k := w)
  rw [hzero, BitVec.setWidth_eq] at hy'
  rw [← hy']
  exact BitVec.setWidth_zero _ _

theorem signExtend_ne_intMin (h : w < n) (x : BitVec w) : x.signExtend n ≠ BitVec.intMin n := by
  intro hmin
  have hx := congrArg BitVec.toInt hmin
  rw [BitVec.toInt_signExtend_of_le (Nat.le_of_lt h), BitVec.toInt_intMin_of_pos (by omega)] at hx
  have hle := @BitVec.le_two_mul_toInt w x
  have hpow : (2 : ℤ) ^ w ≤ 2 ^ (n - 1) := by
    exact_mod_cast Nat.pow_le_pow_right (by omega) (by omega)
  have hpos : (0 : ℤ) < 2 ^ (n - 1) := Int.pow_pos (by omega)
  omega

theorem not_overflow (h : w < n) (x : BitVec w) {y : BitVec w} (hy : y ≠ 0) :
    ¬ (y.signExtend n = 0 ∨ x.signExtend n = BitVec.intMin n ∧ y.signExtend n = -1) := by
  rintro (hzero | ⟨hmin, -⟩)
  · exact signExtend_ne_zero (Nat.le_of_lt h) hy hzero
  · exact signExtend_ne_intMin h x hmin

theorem cArith_extend (h : w < n) (b : Binop) (x y : BitVec w) {r : BitVec w}
    (hr : cArith b x y = some r) :
    ∃ v, cArith b (extendLeft b n x) (extendRight b n y) = some v ∧ v.setWidth w = r := by
  have hle : w ≤ n := Nat.le_of_lt h
  have hlow (hb : lowOp b = true) (hl : signedLeft b = false) (hs : signedRight b = false) :
      ∃ v, cArith b (extendLeft b n x) (extendRight b n y) = some v ∧ v.setWidth w = r := by
    have hmap := cArith_low hle hb (x.setWidth n) (y.setWidth n)
    rw [BitVec.setWidth_setWidth_of_le _ hle, BitVec.setWidth_setWidth_of_le _ hle,
      BitVec.setWidth_eq, BitVec.setWidth_eq, hr] at hmap
    rw [extendLeft, extendRight, hl, hs, if_neg Bool.false_ne_true, if_neg Bool.false_ne_true]
    exact (Option.map_eq_some_iff.mp hmap.symm)
  cases b with
  | add => exact hlow rfl rfl rfl
  | sub => exact hlow rfl rfl rfl
  | mul => exact hlow rfl rfl rfl
  | and => exact hlow rfl rfl rfl
  | or => exact hlow rfl rfl rfl
  | xor => exact hlow rfl rfl rfl
  | udiv =>
    obtain ⟨hy, rfl⟩ := ite_eq_some hr
    refine ⟨_, if_neg (setWidth_ne_zero hle hy), BitVec.eq_of_toNat_eq ?_⟩
    rw [BitVec.toNat_setWidth]
    change (BitVec.setWidth n x / BitVec.setWidth n y).toNat % _ = _
    rw [BitVec.toNat_udiv, BitVec.toNat_setWidth_of_le hle, BitVec.toNat_setWidth_of_le hle,
      ← BitVec.toNat_udiv, Nat.mod_eq_of_lt (BitVec.isLt _)]
  | urem =>
    obtain ⟨hy, rfl⟩ := ite_eq_some hr
    refine ⟨_, if_neg (setWidth_ne_zero hle hy), BitVec.eq_of_toNat_eq ?_⟩
    rw [BitVec.toNat_setWidth]
    change (BitVec.setWidth n x % BitVec.setWidth n y).toNat % _ = _
    rw [BitVec.toNat_umod, BitVec.toNat_setWidth_of_le hle, BitVec.toNat_setWidth_of_le hle,
      ← BitVec.toNat_umod, Nat.mod_eq_of_lt (BitVec.isLt _)]
  | sdiv =>
    obtain ⟨hy, rfl⟩ := ite_eq_some hr
    refine ⟨_, if_neg (not_overflow h x fun hz => hy (Or.inl hz)), ?_⟩
    change ((x.signExtend n).sdiv (y.signExtend n)).setWidth w = _
    rw [LlvmInteger.sdiv_eq_ofInt, LlvmInteger.sdiv_eq_ofInt, setWidth_ofInt hle,
      BitVec.toInt_signExtend_of_le hle, BitVec.toInt_signExtend_of_le hle]
  | srem =>
    obtain ⟨hy, rfl⟩ := ite_eq_some hr
    refine ⟨_, if_neg (not_overflow h x fun hz => hy (Or.inl hz)), ?_⟩
    change ((x.signExtend n).srem (y.signExtend n)).setWidth w = _
    rw [LlvmInteger.srem_eq_ofInt, LlvmInteger.srem_eq_ofInt, setWidth_ofInt hle,
      BitVec.toInt_signExtend_of_le hle, BitVec.toInt_signExtend_of_le hle]
  | shl =>
    obtain ⟨hy, rfl⟩ := ite_eq_some hr
    have hyn : (y.setWidth n).toNat = y.toNat := BitVec.toNat_setWidth_of_le hle
    obtain ⟨hshl, hlow⟩ := cArith_shl hle (x.setWidth n) (y.setWidth n) (by omega)
    rw [hyn, BitVec.setWidth_setWidth_of_le _ hle, BitVec.setWidth_eq] at hlow
    exact ⟨_, hshl, hyn ▸ hlow⟩
  | lshr =>
    obtain ⟨hy, rfl⟩ := ite_eq_some hr
    have hyn : (y.setWidth n).toNat = y.toNat := BitVec.toNat_setWidth_of_le hle
    refine ⟨(x.setWidth n) >>> (y.setWidth n).toNat, if_neg ?_, BitVec.eq_of_toNat_eq ?_⟩
    · change ¬ n ≤ (y.setWidth n).toNat
      omega
    · rw [BitVec.toNat_setWidth, BitVec.toNat_ushiftRight, hyn, BitVec.toNat_setWidth_of_le hle,
        ← BitVec.toNat_ushiftRight, Nat.mod_eq_of_lt (BitVec.isLt _)]
  | ashr =>
    obtain ⟨hy, rfl⟩ := ite_eq_some hr
    have hyn : (y.setWidth n).toNat = y.toNat := BitVec.toNat_setWidth_of_le hle
    refine ⟨(x.signExtend n).sshiftRight (y.setWidth n).toNat, if_neg ?_, ?_⟩
    · change ¬ n ≤ (y.setWidth n).toNat
      omega
    · rw [hyn, BitVec.sshiftRight, BitVec.sshiftRight, setWidth_ofInt hle,
        BitVec.toInt_signExtend_of_le hle]

end
end Vmir.NarrowArith
