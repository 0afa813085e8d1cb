import Vmir.EmitBinop
import Vmir.IntegerRegisters

set_option autoImplicit false

/-!
# What an emitted binary operation computes

The result of the code that `emit_binop` chooses, as a function of the contents of the operand
registers: `none` where the host leaves it undefined.
-/
namespace Vmir.BinopRuns
open ByteStore RegisterProgram Ir VmOps IrTypes ProgramText IntegerRegisters EmitBinop

def regs32 (w : ℕ) (b : Binop) (x y : BitVec 32) : Option (BitVec 32) :=
  if signedLeft b ∧ w ≠ 1 ∧ w ≤ 8 then cArith b (s8 x) (if signedRight b then s8 y else r8 y)
  else if signedLeft b ∧ 8 < w ∧ w ≤ 16 then
    cArith b (s16 x) (if signedRight b then s16 y else r16 y)
  else cArith b x y

def const32 (w : ℕ) (b : Binop) (x k : BitVec 32) : Option (BitVec 32) :=
  if w ≠ 1 ∧ w ≤ 8 then
    if signedLeft b then cArith b (s8 x) (if signedRight b then s8 k else r8 k)
    else cArith b (r16 x) (r8 k)
  else if 8 < w ∧ w ≤ 16 then
    cArith b (if signedLeft b then s16 x else r16 x) (if signedRight b then s16 k else r16 k)
  else cArith b x k

/-- What an operation on two registers with contents `x` and `y` writes. -/
def regsResult (w : ℕ) (b : Binop) (x y : BitVec 64) : Option (BitVec 64) :=
  if w ≤ 32 then (regs32 w b (x.setWidth 32) (y.setWidth 32)).map (·.setWidth 64)
  else cArith b x y

def constResult (w : ℕ) (b : Binop) (x : BitVec 64) (c : BitVec w) : Option (BitVec 64) :=
  if w ≤ 32 then (const32 w b (x.setWidth 32) (constant32 c)).map (·.setWidth 64)
  else cArith b x (c.signExtend 64)

theorem regs32_of_wide {w : ℕ} (hw : w = 1 ∨ 16 < w) (b : Binop) (x y : BitVec 32) :
    regs32 w b x y = cArith b x y := by
  rw [regs32, if_neg (by omega), if_neg (by omega)]

theorem const32_of_wide {w : ℕ} (hw : w = 1 ∨ 16 < w) (b : Binop) (x k : BitVec 32) :
    const32 w b x k = cArith b x k := by
  rw [const32, if_neg (by omega), if_neg (by omega)]

section
variable (h : Host) (t : Text) (s : Bytes × Vm) (w : IntWidth) (b : Binop)
variable (ret lhs rhs : BitVec 32) {retV : Value}

/-! ## Two registers -/

theorem regs_yields32 {op : Op} (g k : BitVec 32 → BitVec 32) (hw : w.bits ≤ 32)
    (hskip : skip op = 3) (hbody : ∀ I, body h op I = arith32 I b g k) {v : Option (BitVec 32)}
    (hv : v = cArith b (g ((content s.1 lhs).setWidth 32)) (k ((content s.1 rhs).setWidth 32))) :
    Yields h t (emitOp3 t op ret lhs rhs) s (frame32 w.bits s.1 ret v) := by
  rw [emitOp3_eq]
  refine yields_code32 hw (by rw [hskip]; rfl) ?_
  rw [hbody, exec_arith32, hv, content_setWidth, content_setWidth]
  rfl

theorem regs_yields8 (h1 : w.bits ≠ 1) (hw : w.bits ≤ 8) :
    Yields h t (emitOp3 t (op8 b) ret lhs rhs) s
      ((regsResult w.bits b (content s.1 lhs) (content s.1 rhs)).map (writeSlot w.bits s.1 ret)) := by
  rw [regsResult, if_pos (by omega), regs32]
  cases hb : signedLeft b with
  | true =>
    rw [if_pos ⟨rfl, h1, hw⟩]
    refine regs_yields32 h t s w b ret lhs rhs s8 (if signedRight b then s8 else r8) (by omega)
      ?_ ?_ (by rw [ite_apply])
    · cases b <;> rfl
    · cases b <;> first | exact fun _ => rfl | cases hb
  | false =>
    rw [if_neg (fun h => Bool.false_ne_true h.1), if_neg (fun h => Bool.false_ne_true h.1)]
    refine regs_yields32 h t s w b ret lhs rhs id id (by omega) ?_ ?_ rfl
    · cases b <;> rfl
    · cases b <;> first | exact fun _ => rfl | cases hb

theorem regs_yields16 (h8 : 8 < w.bits) (hw : w.bits ≤ 16) :
    Yields h t (emitOp3 t (op16 b) ret lhs rhs) s
      ((regsResult w.bits b (content s.1 lhs) (content s.1 rhs)).map (writeSlot w.bits s.1 ret)) := by
  rw [regsResult, if_pos (by omega), regs32, if_neg (by omega)]
  cases hb : signedLeft b with
  | true =>
    rw [if_pos ⟨rfl, h8, hw⟩]
    refine regs_yields32 h t s w b ret lhs rhs s16 (if signedRight b then s16 else r16) (by omega)
      ?_ ?_ (by rw [ite_apply])
    · cases b <;> rfl
    · cases b <;> first | exact fun _ => rfl | cases hb
  | false =>
    rw [if_neg fun h => Bool.false_ne_true h.1]
    refine regs_yields32 h t s w b ret lhs rhs id id (by omega) ?_ ?_ rfl
    · cases b <;> rfl
    · cases b <;> first | exact fun _ => rfl | cases hb

theorem emitBinopRegs_yields (hret : valueReg retV = .ok ret) :
    Yields h t (emitBinopRegs t w.type b retV lhs rhs) s
      ((regsResult w.bits b (content s.1 lhs) (content s.1 rhs)).map (writeSlot w.bits s.1 ret)) := by
  unfold emitBinopRegs
  obtain ⟨hw, hcode⟩ | ⟨h1, hw, hcode⟩ | ⟨h8, hw, hcode⟩ | ⟨h16, hw, hcode⟩ | ⟨hw, hcode⟩ :=
    legalizeType_cases w
  · rw [hcode, hret, regsResult, if_pos (by omega), regs32_of_wide (Or.inl hw)]
    exact regs_yields32 h t s w b ret lhs rhs id id (by omega) rfl (fun _ => rfl) rfl
  · rw [hcode, hret]
    exact regs_yields8 h t s w b ret lhs rhs h1 hw
  · rw [hcode, hret]
    exact regs_yields16 h t s w b ret lhs rhs h8 hw
  · rw [hcode, hret, regsResult, if_pos (by omega), regs32_of_wide (Or.inr h16)]
    exact regs_yields32 h t s w b ret lhs rhs id id (by omega) rfl (fun _ => rfl) rfl
  · rw [hcode, hret, regsResult, if_neg (by omega)]
    change Yields h t (emitOp3 t (.r64 b) ret lhs rhs) s _
    rw [emitOp3_eq]
    refine yields_code64 hw [] (Or.inl rfl) rfl ?_
    rw [body, exec_arith64]
    rfl

/-! ## A register and a constant -/

theorem const_yields32 (op : Op) (us : List (BitVec 16)) (g : BitVec 32 → BitVec 32)
    (imm : Units → BitVec 32) {k : BitVec 32} (hw : w.bits ≤ 32) (hskip : skip op = 2 + us.length)
    (hbody : ∀ I, body h op I = arith32C I b g (imm I))
    (himm : imm (operands ([ret.setWidth 16, lhs.setWidth 16] ++ us)) = k)
    {v : Option (BitVec 32)} (hv : v = cArith b (g ((content s.1 lhs).setWidth 32)) k) :
    Yields h t (emitOp2 t op ret lhs >>= fun t => emit t (us.map .half)) s
      (frame32 w.bits s.1 ret v) := by
  rw [emitOp2_eq, emit_units]
  refine yields_code32 hw (by rw [hskip, List.length_append]; rfl) ?_
  rw [hbody, exec_arith32C, himm, hv, content_setWidth]
  rfl

theorem const_yieldsByte (iu : IrUnit) (op : Op) (imm : Units → BitVec 32) {k : BitVec 32}
    (u : BitVec 8) (hw : w.bits ≤ 32) (hskip : skip op = 3)
    (hbody : ∀ I, body h op I = arith32C I b s8 (imm I))
    (himm : ∀ hi : BitVec 8, imm (operands ([ret.setWidth 16, lhs.setWidth 16] ++ [hi ++ u])) = k)
    {v : Option (BitVec 32)} (hv : v = cArith b (s8 ((content s.1 lhs).setWidth 32)) k) :
    Yields h t (emitOp2 t op ret lhs >>= fun t => emitI8 iu t u) s
      (frame32 w.bits s.1 ret v) := by
  rw [emitOp2_eq, emit_unit8, ← emitOp2_eq]
  exact const_yields32 h t s w b ret lhs op [_] s8 imm hw hskip hbody (himm _) hv

theorem low8_unit (k : BitVec 32) : ((k &&& 0xff).setWidth 16).setWidth 32 = r8 k := by
  apply BitVec.eq_of_toNat_eq
  have hand : (k &&& 0xff).toNat = k.toNat % 2 ^ 8 := by
    rw [← Nat.and_two_pow_sub_one_eq_mod]
    rfl
  simp only [r8, BitVec.toNat_setWidth, hand]
  omega

theorem const_yields8u {k : BitVec 32} (hle : w.bits ≤ 32) (hl : signedLeft b = false)
    (hr : signedRight b = false) :
    Yields h t (emitOp2 t (.r16C b) ret lhs >>= fun t => emitI16 t ((k &&& 0xff).setWidth 16)) s
      (frame32 w.bits s.1 ret (cArith b (r16 ((content s.1 lhs).setWidth 32)) (r8 k))) := by
  refine const_yields32 h t s w b ret lhs (.r16C b) [_] r16 (uimm16 · 2) hle rfl (fun I => ?_)
    (low8_unit k) rfl
  rw [body, hl, hr, if_neg Bool.false_ne_true, if_neg Bool.false_ne_true]

theorem const_yields8 (iu : IrUnit) {rhsV : Value} {k : BitVec 32} (h1 : w.bits ≠ 1)
    (hw : w.bits ≤ 8) (hret : valueReg retV = .ok ret) (hk : valueGetConst32 iu rhsV = .ok k) :
    Yields h t (emitBinopConst8 iu t b retV lhs rhsV) s
      (frame32 w.bits s.1 ret (const32 w.bits b ((content s.1 lhs).setWidth 32) k)) := by
  unfold emitBinopConst8
  rw [const32, if_pos ⟨h1, hw⟩]
  have hle : w.bits ≤ 32 := by omega
  cases b with
  | sdiv =>
    simp only [hret, hk, ok_bind]
    exact const_yieldsByte h t s w .sdiv ret lhs iu .sdivR8C (simm8 · 2) _ hle rfl (fun _ => rfl)
      (fun hi => simm8_last [_, _] hi _) (if_pos rfl)
  | srem =>
    simp only [hret, hk, ok_bind]
    exact const_yieldsByte h t s w .srem ret lhs iu .sremR8C (simm8 · 2) _ hle rfl (fun _ => rfl)
      (fun hi => simm8_last [_, _] hi _) (if_pos rfl)
  | ashr =>
    simp only [hret, hk, ok_bind]
    exact const_yieldsByte h t s w .ashr ret lhs iu .ashrR8C (uimm8 · 2) _ hle rfl (fun _ => rfl)
      (fun hi => uimm8_last [_, _] hi _) (if_pos rfl)
  | add | sub | mul | udiv | urem | shl | lshr | and | or | xor =>
    simp only [hret, hk, ok_bind]
    rw [if_neg (by decide)]
    exact const_yields8u h t s w _ ret lhs hle rfl rfl

theorem const_yields16 (k : BitVec 32) (h8 : 8 < w.bits) (hw : w.bits ≤ 16) :
    Yields h t (emitOp2 t (.r16C b) ret lhs >>= fun t => emitI16 t (k.setWidth 16)) s
      (frame32 w.bits s.1 ret (const32 w.bits b ((content s.1 lhs).setWidth 32) k)) := by
  rw [const32, if_neg (by omega), if_pos ⟨h8, hw⟩]
  exact const_yields32 h t s w b ret lhs (.r16C b) [_] (if signedLeft b then s16 else r16)
    (fun I => if signedRight b then simm16 I 2 else uimm16 I 2) (by omega) rfl (fun _ => rfl) rfl
    (by rw [ite_apply]; rfl)

theorem const_yieldsWide (iu : IrUnit) {rhsV : Value} {k : BitVec 32}
    (hw : w.bits = 1 ∨ 16 < w.bits) (hle : w.bits ≤ 32)
    (hcode : legalizeType w.type = .int1 ∨ legalizeType w.type = .int32)
    (hret : valueReg retV = .ok ret) (hk : valueGetConst32 iu rhsV = .ok k) :
    Yields h t (emitBinopConst iu t w.type b retV lhs rhsV) s
      (frame32 w.bits s.1 ret (const32 w.bits b ((content s.1 lhs).setWidth 32) k)) := by
  rw [const32_of_wide hw]
  have hemit : emitBinopConst iu t w.type b retV lhs rhsV =
      if (b = .add ∧ k = 1) ∨ (b = .sub ∧ k = -1) then emitOp2 t .incR32 ret lhs
      else if (b = .add ∧ k = -1) ∨ (b = .sub ∧ k = 1) then emitOp2 t .decR32 ret lhs
      else emitOp2 t (.r32C b) ret lhs >>= fun t => emitI32 t k := by
    unfold emitBinopConst
    rcases hcode with hcode | hcode
    all_goals
      rw [hcode]
      simp only [hret, hk, ok_bind]
  rw [hemit]
  split_ifs with hinc hdec
  · have hstep : cArith b ((content s.1 lhs).setWidth 32) k
        = some ((content s.1 lhs).setWidth 32 + 1) := by
      rcases hinc with ⟨rfl, rfl⟩ | ⟨rfl, rfl⟩
      · rfl
      · rw [cArith, BitVec.sub_eq_add_neg, BitVec.neg_neg]
    rw [hstep]
    exact yields_set32Of32 (g := (· + 1)) hle rfl (fun _ => rfl)
  · have hstep : cArith b ((content s.1 lhs).setWidth 32) k
        = some ((content s.1 lhs).setWidth 32 - 1) := by
      rcases hdec with ⟨rfl, rfl⟩ | ⟨rfl, rfl⟩
      · rw [cArith, BitVec.sub_eq_add_neg]
      · rfl
    rw [hstep]
    exact yields_set32Of32 (g := (· - 1)) hle rfl (fun _ => rfl)
  · have himm := imm32_last [ret.setWidth 16, lhs.setWidth 16] k
    exact const_yields32 h t s w b ret lhs (.r32C b) (units32 k) id (imm32 · 2) hle rfl
      (fun _ => rfl) himm rfl

theorem const_yields64 (k : BitVec 64) (hw : 32 < w.bits) :
    Yields h t (vmAlign32 t true >>= fun t => emitOp2 t (.r64C b) ret lhs >>= fun t => emitI64 t k)
      s ((cArith b (content s.1 lhs) k).map (writeSlot w.bits s.1 ret)) := by
  have hemit (t : Text) : (emitOp2 t (.r64C b) ret lhs >>= fun t => emitI64 t k)
      = emit t (code (.r64C b) ([ret.setWidth 16, lhs.setWidth 16] ++ units64 k)) := by
    rw [emitOp2_eq]
    exact emit_units t _ _ _
  simp only [hemit]
  rw [vmAlign32_bind]
  refine yields_code64 hw _ (Or.inr ⟨true, rfl⟩) rfl ?_
  rw [body, exec_arith64C, show imm64 (operands _) 2 = k from imm64_last [_, _] k]
  rfl

theorem emitBinopConst_yields {iu : IrUnit} {index : ℕ} {c : BitVec w.bits}
    (hc : IsConstant iu index w c) {rhsV : Value} (hrhs : valueGet iu index = .ok rhsV)
    (hret : valueReg retV = .ok ret) :
    Yields h t (emitBinopConst iu t w.type b retV lhs rhsV) s
      ((constResult w.bits b (content s.1 lhs) c).map (writeSlot w.bits s.1 ret)) := by
  unfold constResult
  obtain ⟨hw, hcode⟩ | ⟨h1, hw, hcode⟩ | ⟨h8, hw, hcode⟩ | ⟨h16, hw, hcode⟩ | ⟨hw, hcode⟩ :=
    legalizeType_cases w
  · have hk := hc.get32 hrhs (by omega)
    rw [if_pos (by omega)]
    exact const_yieldsWide h t s w b ret lhs iu (Or.inl hw) (by omega) (Or.inl hcode) hret hk
  · have hk := hc.get32 hrhs (by omega)
    rw [if_pos (by omega)]
    rw [emitBinopConst, hcode]
    exact const_yields8 h t s w b ret lhs iu h1 hw hret hk
  · have hk := hc.get32 hrhs (by omega)
    rw [if_pos (by omega), emitBinopConst, hcode]
    simp only [hret, hk, ok_bind]
    exact const_yields16 h t s w b ret lhs _ h8 hw
  · have hk := hc.get32 hrhs (by omega)
    rw [if_pos (by omega)]
    exact const_yieldsWide h t s w b ret lhs iu (Or.inr h16) (by omega) (Or.inr hcode) hret hk
  · have hk := hc.get64 hrhs hw
    rw [if_neg (by omega), emitBinopConst, hcode]
    simp only [hret, hk, ok_bind]
    exact const_yields64 h t s w b ret lhs _ hw

end
end Vmir.BinopRuns
