import Vmir.BinopRuns

set_option autoImplicit false

/-!
# Which binary operations are exact

The combinations of width, operator and placement of the operands for which the chosen code has
LLVM's result in the low bits whatever stands above the operands, and for each of the others
operands for which it has not.
-/
namespace Vmir.BinopExact
open Ir VmOps LlvmInteger NarrowArith IntegerRegisters BinopRuns

inductive Form
  | regs | const
deriving DecidableEq, Repr

def exact (w : ℕ) (b : Binop) (form : Form) : Bool :=
  lowOp b || w == 32 || w == 64 ||
  match form with
  | .regs => (w == 8 || w == 16) && signedLeft b
  | .const => w == 1 || w == 16 || b == .shl || (w == 8 && signedLeft b)

theorem signed_of_lowOp {b : Binop} (h : lowOp b = true) :
    signedLeft b = false ∧ signedRight b = false := by
  cases b <;> first | exact ⟨rfl, rfl⟩ | cases h

theorem low_of_word {w : ℕ} (hw : w ≤ 32) (v : Option (BitVec 32)) :
    (v.map (·.setWidth 64)).map (·.setWidth w) = v.map (·.setWidth w) := by
  rw [Option.map_map]
  exact congrArg (fun g => v.map g)
    (funext fun a => BitVec.setWidth_setWidth_of_le a (show w ≤ 64 by omega))

section
variable {w : ℕ} {b : Binop} {x y : BitVec 64} {r : BitVec w}

theorem regs_word (hw : w ≤ 32)
    (h : (regs32 w b (x.setWidth 32) (y.setWidth 32)).map (·.setWidth w) = some r) :
    (regsResult w b x y).map (·.setWidth w) = some r := by
  rw [regsResult, if_pos hw, low_of_word hw, h]

theorem regs_exact_low (hw : w ≤ 64) (hb : lowOp b = true)
    (h : cArith b (x.setWidth w) (y.setWidth w) = some r) :
    (regsResult w b x y).map (·.setWidth w) = some r := by
  obtain ⟨hl, -⟩ := signed_of_lowOp hb
  by_cases hn : w ≤ 32
  · refine regs_word hn ?_
    rw [regs32, hl, if_neg (fun h => Bool.false_ne_true h.1),
      if_neg (fun h => Bool.false_ne_true h.1), ← cArith_low hn hb,
      BitVec.setWidth_setWidth_of_le _ hn, BitVec.setWidth_setWidth_of_le _ hn, h]
  · rw [regsResult, if_neg hn, ← cArith_low hw hb, h]

theorem regs32_extend (hw : w = 8 ∨ w = 16) (hb : signedLeft b = true) (x y : BitVec 32) :
    regs32 w b x y
      = cArith b (extendLeft b 32 (x.setWidth w)) (extendRight b 32 (y.setWidth w)) := by
  rw [regs32, extendLeft, extendRight, if_pos hb]
  rcases hw with rfl | rfl
  · rw [if_pos ⟨hb, by omega, le_rfl⟩]
    rfl
  · rw [if_neg (by omega), if_pos ⟨hb, by omega, le_rfl⟩]
    rfl

theorem regs_exact_signed (hw : w = 8 ∨ w = 16) (hb : signedLeft b = true)
    (h : cArith b (x.setWidth w) (y.setWidth w) = some r) :
    (regsResult w b x y).map (·.setWidth w) = some r := by
  have hn : w ≤ 32 := by omega
  obtain ⟨v, hv, rfl⟩ := cArith_extend (show w < 32 by omega) b _ _ h
  refine regs_word hn ?_
  rw [regs32_extend hw hb, BitVec.setWidth_setWidth_of_le x hn, BitVec.setWidth_setWidth_of_le y hn,
    hv]
  rfl

theorem regs_exact_word {r : BitVec 32} (h : cArith b (x.setWidth 32) (y.setWidth 32) = some r) :
    (regsResult 32 b x y).map (·.setWidth 32) = some r := by
  refine regs_word le_rfl ?_
  rw [regs32_of_wide (by omega), h, Option.map_some, BitVec.setWidth_eq]

theorem regs_exact_double {r : BitVec 64} (h : cArith b (x.setWidth 64) (y.setWidth 64) = some r) :
    (regsResult 64 b x y).map (·.setWidth 64) = some r := by
  rw [BitVec.setWidth_eq, BitVec.setWidth_eq] at h
  rw [regsResult, if_neg (by omega), h, Option.map_some, BitVec.setWidth_eq]

theorem regs_exact (hw : w ≤ 64) (hex : exact w b .regs = true)
    (h : llvmBinop b (x.setWidth w) (y.setWidth w) = some r) :
    (regsResult w b x y).map (·.setWidth w) = some r := by
  rw [← cArith_eq_llvmBinop] at h
  simp only [exact, Bool.or_eq_true, Bool.and_eq_true, beq_iff_eq] at hex
  obtain ((hb | rfl) | rfl) | ⟨h8, hb⟩ := hex
  · exact regs_exact_low hw hb h
  · exact regs_exact_word h
  · exact regs_exact_double h
  · exact regs_exact_signed h8 hb h

/-! ## A constant on the right -/

variable {c : BitVec w}

theorem const_word (hw : w ≤ 32)
    (h : (const32 w b (x.setWidth 32) (constant32 c)).map (·.setWidth w) = some r) :
    (constResult w b x c).map (·.setWidth w) = some r := by
  rw [constResult, if_pos hw, low_of_word hw, h]

theorem constant32_low (hw : w ≤ 32) (c : BitVec w) : (constant32 c).setWidth w = c := by
  unfold constant32
  split
  · next h1 =>
    subst h1
    rcases BitVec.eq_zero_or_eq_one c with rfl | rfl
    · rfl
    · rfl
  · exact setWidth_signExtend hw c

theorem low_signed {m : ℕ} (hw : w ≤ m) (hm : m ≤ 32) (x : BitVec 32) :
    ((x.setWidth m).signExtend 32).setWidth w = x.setWidth w := by
  rw [signExtend_setWidth _ (show w ≤ 32 by omega), BitVec.signExtend_eq_setWidth_of_le _ hw,
    BitVec.setWidth_setWidth_of_le _ hw]

theorem low_unsigned {m : ℕ} (hw : w ≤ m) (hm : m ≤ 32) (x : BitVec 32) :
    ((x.setWidth m).setWidth 32).setWidth w = x.setWidth w := by
  rw [BitVec.setWidth_setWidth_of_le _ (show w ≤ 32 by omega), BitVec.setWidth_setWidth_of_le _ hw]

theorem const32_eq (w : ℕ) (b : Binop) (x k : BitVec 32) :
    ∃ x' k' : BitVec 32, const32 w b x k = cArith b x' k' ∧ x'.setWidth w = x.setWidth w
      ∧ k'.setWidth w = k.setWidth w := by
  unfold const32
  split_ifs with h8 hl hr h16 hl hr hr
  · exact ⟨s8 x, s8 k, rfl, low_signed h8.2 (by omega) x, low_signed h8.2 (by omega) k⟩
  · exact ⟨s8 x, r8 k, rfl, low_signed h8.2 (by omega) x, low_unsigned h8.2 (by omega) k⟩
  · exact ⟨r16 x, r8 k, rfl, low_unsigned (by omega) (by omega) x,
      low_unsigned h8.2 (by omega) k⟩
  · exact ⟨s16 x, s16 k, rfl, low_signed h16.2 (by omega) x, low_signed h16.2 (by omega) k⟩
  · exact ⟨s16 x, r16 k, rfl, low_signed h16.2 (by omega) x, low_unsigned h16.2 (by omega) k⟩
  · exact ⟨r16 x, s16 k, rfl, low_unsigned h16.2 (by omega) x, low_signed h16.2 (by omega) k⟩
  · exact ⟨r16 x, r16 k, rfl, low_unsigned h16.2 (by omega) x, low_unsigned h16.2 (by omega) k⟩
  · exact ⟨x, k, rfl, rfl, rfl⟩

theorem const_exact_low (hw : w ≤ 64) (hb : lowOp b = true)
    (h : cArith b (x.setWidth w) c = some r) :
    (constResult w b x c).map (·.setWidth w) = some r := by
  by_cases hn : w ≤ 32
  · obtain ⟨x', k', heq, hx, hk⟩ := const32_eq w b (x.setWidth 32) (constant32 c)
    refine const_word hn ?_
    rw [heq, ← cArith_low hn hb, hx, hk, constant32_low hn, BitVec.setWidth_setWidth_of_le x hn, h]
  · rw [constResult, if_neg hn, ← cArith_low hw hb, setWidth_signExtend hw, h]

theorem const32_extend (hw : w = 16 ∨ w = 8 ∧ signedLeft b = true) (x k : BitVec 32) :
    const32 w b x k
      = cArith b (extendLeft b 32 (x.setWidth w)) (extendRight b 32 (k.setWidth w)) := by
  rw [const32, extendLeft, extendRight]
  rcases hw with rfl | ⟨rfl, hb⟩
  · rw [if_neg (by omega), if_pos (by omega)]
    rfl
  · rw [if_pos (by omega), if_pos hb, if_pos hb]
    rfl

theorem const_exact_extend (hw : w = 16 ∨ w = 8 ∧ signedLeft b = true)
    (h : cArith b (x.setWidth w) c = some r) :
    (constResult w b x c).map (·.setWidth w) = some r := by
  have hn : w ≤ 32 := by omega
  obtain ⟨v, hv, rfl⟩ := cArith_extend (show w < 32 by omega) b _ _ h
  refine const_word hn ?_
  rw [const32_extend hw, constant32_low hn, BitVec.setWidth_setWidth_of_le x hn, hv]
  rfl

theorem const_exact_word {c r : BitVec 32} (h : cArith b (x.setWidth 32) c = some r) :
    (constResult 32 b x c).map (·.setWidth 32) = some r := by
  refine const_word le_rfl ?_
  rw [const32_of_wide (by omega), constant32, if_neg (by omega), BitVec.signExtend_eq, h,
    Option.map_some, BitVec.setWidth_eq]

theorem const_exact_double {c r : BitVec 64} (h : cArith b (x.setWidth 64) c = some r) :
    (constResult 64 b x c).map (·.setWidth 64) = some r := by
  rw [BitVec.setWidth_eq] at h
  rw [constResult, if_neg (by omega), BitVec.signExtend_eq, h, Option.map_some, BitVec.setWidth_eq]

theorem signExtend_count {n : ℕ} (hn : w ≤ n) {c : BitVec w} (hc : c.toNat < w) (h1 : w ≠ 1) :
    (c.signExtend n).toNat = c.toNat := by
  have hmsb : c.msb = false := by
    rw [BitVec.msb_eq_false_iff_two_mul_lt]
    obtain ⟨m, rfl⟩ := Nat.exists_eq_add_of_le' (show 1 ≤ w by omega)
    have := Nat.lt_two_pow_self (n := m)
    rw [pow_succ]
    omega
  rw [BitVec.signExtend_eq_setWidth_of_msb_false hmsb, BitVec.toNat_setWidth_of_le hn]

theorem constant32_count (hn : w ≤ 32) {c : BitVec w} (hc : c.toNat < w) :
    (constant32 c).toNat = c.toNat := by
  unfold constant32
  split
  · next h1 =>
    subst h1
    have hzero : c = 0 := by
      apply BitVec.eq_of_toNat_eq
      change c.toNat = 0
      omega
    rw [hzero]
    rfl
  · next h1 => exact signExtend_count hn hc h1

theorem const32_shl (hw : w ≤ 32) (x k : BitVec 32) (hk : k.toNat < w) :
    ∃ x' : BitVec 32, const32 w .shl x k = some (x' <<< k.toNat) ∧ x'.setWidth w = x.setWidth w := by
  have h8 : (r8 k).toNat = k.toNat := by
    simp only [r8, BitVec.toNat_setWidth]
    omega
  have h16 : (r16 k).toNat = k.toNat := by
    simp only [r16, BitVec.toNat_setWidth]
    omega
  unfold const32
  split_ifs with hw8 hl hr hw16 hl hr hr
  · cases hl
  · cases hl
  · refine ⟨r16 x, ?_, low_unsigned (by omega) (by omega) x⟩
    rw [(cArith_shl hw (r16 x) (r8 k) (by omega)).1, h8]
  · cases hl
  · cases hl
  · cases hr
  · refine ⟨r16 x, ?_, low_unsigned hw16.2 (by omega) x⟩
    rw [(cArith_shl hw (r16 x) (r16 k) (by omega)).1, h16]
  · exact ⟨x, (cArith_shl hw x k hk).1, rfl⟩

theorem const_exact_shl (hw : w ≤ 64) (h : cArith .shl (x.setWidth w) c = some r) :
    (constResult w .shl x c).map (·.setWidth w) = some r := by
  obtain ⟨hc, rfl⟩ := ite_eq_some h
  have hlt : c.toNat < w := by omega
  by_cases hn : w ≤ 32
  · have hk := constant32_count hn hlt
    obtain ⟨x', heq, hx⟩ := const32_shl hn (x.setWidth 32) (constant32 c) (by omega)
    refine const_word hn ?_
    rw [heq, hk, Option.map_some, BitVec.setWidth_shiftLeft_of_le hn, hx,
      BitVec.setWidth_setWidth_of_le x hn]
  · have hk := signExtend_count hw hlt (by omega)
    rw [constResult, if_neg hn, (cArith_shl hw x (c.signExtend 64) (by omega)).1, hk,
      Option.map_some, BitVec.setWidth_shiftLeft_of_le hw]

theorem const_exact_bit {c r : BitVec 1} (h : cArith b (x.setWidth 1) c = some r) :
    (constResult 1 b x c).map (·.setWidth 1) = some r := by
  by_cases hlow : lowOp b = true
  · exact const_exact_low (by omega) hlow h
  refine const_word (by omega) ?_
  rw [const32_of_wide (Or.inl rfl)]
  rw [← BitVec.setWidth_setWidth_of_le x (show 1 ≤ 32 by omega)] at h
  generalize x.setWidth 32 = X at h ⊢
  rcases BitVec.eq_zero_or_eq_one c with rfl | rfl
  · change (cArith b X 0).map _ = _
    cases b with
    | shl | lshr | ashr => simpa [cArith] using h
    | udiv | urem | sdiv | srem => simp [cArith] at h
    | _ => exact absurd rfl hlow
  · change (cArith b X 1).map _ = _
    cases b with
    | shl | lshr | ashr => simp [cArith] at h
    | udiv | urem => simpa [cArith] using h
    | sdiv | srem =>
      have hzero : X.setWidth 1 = 0 := by
        rcases BitVec.eq_zero_or_eq_one (X.setWidth 1) with h0 | h1
        · exact h0
        · rw [h1] at h
          cases h
      rw [hzero] at h
      simpa [cArith, hzero] using Option.some.inj h
    | _ => exact absurd rfl hlow

theorem const_exact (hw : w ≤ 64) (hex : exact w b .const = true)
    (h : llvmBinop b (x.setWidth w) c = some r) :
    (constResult w b x c).map (·.setWidth w) = some r := by
  rw [← cArith_eq_llvmBinop] at h
  simp only [exact, Bool.or_eq_true, Bool.and_eq_true, beq_iff_eq] at hex
  obtain ((hb | rfl) | rfl) | ((rfl | h16) | rfl) | h8 := hex
  · exact const_exact_low hw hb h
  · exact const_exact_word h
  · exact const_exact_double h
  · exact const_exact_bit h
  · exact const_exact_extend (Or.inl h16) h
  · exact const_exact_shl hw h
  · exact const_exact_extend (Or.inr h8) h

end

/-! ## Operands that go wrong -/

/-- Contents of two registers for which an operation that is not exact goes wrong: the bits above
the operand decide the quotient, the remainder or the shift count. -/
def strayRegs (w : ℕ) (b : Binop) : BitVec 64 × BitVec 64 :=
  match b with
  | .sdiv | .srem => if w = 1 then (6, 5) else (1, BitVec.ofNat 64 (2 ^ w + 1))
  | .udiv | .urem => (1, BitVec.ofNat 64 (2 ^ w + 1))
  | _ => (1, BitVec.ofNat 64 (2 ^ w))

def strayConst (w : ℕ) (b : Binop) : BitVec 64 × BitVec w :=
  match b with
  | .udiv => if w = 8 then (256, 2) else (BitVec.ofNat 64 (2 ^ w - 2), -2)
  | .urem => if w = 8 then (256, 3) else (BitVec.ofNat 64 (2 ^ w - 2), -2)
  | .sdiv => (BitVec.ofNat 64 (2 ^ w), -2)
  | .srem => (1 - BitVec.ofNat 64 (2 ^ w), -2)
  | _ => (BitVec.ofNat 64 (2 ^ w), 1)

/-- LLVM has a result and the code has another or none. -/
def wrong {w : ℕ} (want : Option (BitVec w)) (got : Option (BitVec 64)) : Bool :=
  want.isSome && got.map (·.setWidth w) != want

theorem strayRegs_wrong (b : Binop) : ∀ w < 65, w = 0 ∨ exact w b .regs = true ∨
    wrong (llvmBinop b ((strayRegs w b).1.setWidth w) ((strayRegs w b).2.setWidth w))
      (regsResult w b (strayRegs w b).1 (strayRegs w b).2) = true := by
  cases b <;> decide +kernel

theorem strayConst_wrong (b : Binop) : ∀ w < 65, w = 0 ∨ exact w b .const = true ∨
    wrong (llvmBinop b ((strayConst w b).1.setWidth w) (strayConst w b).2)
      (constResult w b (strayConst w b).1 (strayConst w b).2) = true := by
  cases b <;> decide +kernel

theorem wrong_spec {w : ℕ} {want : Option (BitVec w)} {got : Option (BitVec 64)}
    (h : wrong want got = true) : ∃ r, want = some r ∧ got.map (·.setWidth w) ≠ some r := by
  simp only [wrong, Bool.and_eq_true, bne_iff_ne, ne_eq] at h
  obtain ⟨r, hr⟩ := Option.isSome_iff_exists.mp h.1
  exact ⟨r, hr, hr ▸ h.2⟩

end Vmir.BinopExact
