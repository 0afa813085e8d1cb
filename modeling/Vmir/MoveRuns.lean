import Vmir.EmitMove
import Vmir.IntegerRegisters

set_option autoImplicit false

/-!
# What an emitted move does

The code that `emit_move` chooses for an integer constant and for an integer register.
-/
namespace Vmir.MoveRuns
open ByteStore RegisterProgram Ir VmOps IrTypes ProgramText IntegerRegisters EmitMove

/-- What a move of the constant `c` writes. -/
def movedConstant (w : ℕ) (c : BitVec w) : BitVec 64 :=
  if w ≤ 32 then
    (if w ≠ 1 ∧ w ≤ 8 then r8 (constant32 c)
      else if 8 < w ∧ w ≤ 16 then r16 (constant32 c) else constant32 c).setWidth 64
  else c.signExtend 64

section
variable (h : Host) (t : Text) (s : Bytes × Vm) {w : IntWidth} {iu : IrUnit}
variable {ret value : ValueType} {retV : Value} {d : BitVec 32}

theorem move_yields32 (op : Op) (us : List (BitVec 16)) (imm : Units → BitVec 32) {k : BitVec 32}
    (hw : w.bits ≤ 32) (hskip : skip op = 1 + us.length)
    (hbody : ∀ I, body h op I = .wr32 (reg I 0) (imm I) .done)
    (himm : imm (operands ([d.setWidth 16] ++ us)) = k) :
    Yields h t (emitOp1 t op d >>= fun t => emit t (us.map .half)) s
      (some (writeSlot w.bits s.1 d (k.setWidth 64))) := by
  rw [emitOp1_eq, emit_units]
  refine yields_code32 (v := some k) hw (by rw [hskip, List.length_append]; rfl) ?_
  rw [hbody, himm]
  rfl

theorem move_yields64 {k : BitVec 64} (hw : 32 < w.bits) :
    Yields h t (vmAlign32 t false >>= fun t => emitOp1 t .mov64C d >>= fun t => emitI64 t k) s
      (some (writeSlot w.bits s.1 d k)) := by
  have hemit (t : Text) : (emitOp1 t .mov64C d >>= fun t => emitI64 t k)
      = emit t (code .mov64C ([d.setWidth 16] ++ units64 k)) := by
    rw [emitOp1_eq]
    exact emit_units t _ _ _
  simp only [hemit]
  rw [vmAlign32_bind]
  refine yields_code64 (v := some k) hw _ (Or.inr ⟨false, rfl⟩) rfl ?_
  rw [body, show imm64 (operands _) 1 = k from imm64_last [_] k]
  rfl

theorem emitMove_const {c : BitVec w.bits} (hret : valueGet iu ret.value = .ok retV)
    (hreg : valueReg retV = .ok d) (htype : typeGet iu ret.type = .ok w.type)
    (hc : IsConstant iu value.value w c) :
    Yields h t (emitMove iu t [ret] value) s
      (some (writeSlot w.bits s.1 d (movedConstant w.bits c))) := by
  obtain ⟨iv, u64, hiv, hcls⟩ := hc.cls
  unfold emitMove moveTarget movedConstant
  simp only [hiv, hret, htype, hreg, ok_bind, hcls, pure, Except.pure]
  obtain ⟨hw, hcode⟩ | ⟨h1, hw, hcode⟩ | ⟨h8, hw, hcode⟩ | ⟨h16, hw, hcode⟩ | ⟨hw, hcode⟩ :=
    legalizeType_cases w
  · have himm := imm32_last [d.setWidth 16] (constant32 c)
    rw [hcode, if_pos (by omega), if_neg (by omega), if_neg (by omega)]
    simp only [hc.get32 hiv (show w.bits ≤ 32 by omega), ok_bind]
    exact move_yields32 h t s .mov32C (units32 _) (imm32 · 1) (by omega) rfl (fun _ => rfl) himm
  · have himm := uimm8_last [d.setWidth 16] (iu.textAlloc (t.length + 2))
      ((constant32 c).setWidth 8)
    rw [hcode, if_pos (by omega), if_pos ⟨h1, hw⟩]
    simp only [hc.get32 hiv (show w.bits ≤ 32 by omega), ok_bind]
    rw [emitOp1_eq, emit_unit8, ← emitOp1_eq]
    exact move_yields32 h t s .mov8C [_] (uimm8 · 1) (by omega) rfl (fun _ => rfl) himm
  · rw [hcode, if_pos (by omega), if_neg (by omega), if_pos ⟨h8, hw⟩]
    simp only [hc.get32 hiv (show w.bits ≤ 32 by omega), ok_bind]
    exact move_yields32 h t s .mov16C [_] (uimm16 · 1) (by omega) rfl (fun _ => rfl) rfl
  · have himm := imm32_last [d.setWidth 16] (constant32 c)
    rw [hcode, if_pos (by omega), if_neg (by omega), if_neg (by omega)]
    simp only [hc.get32 hiv (show w.bits ≤ 32 by omega), ok_bind]
    exact move_yields32 h t s .mov32C (units32 _) (imm32 · 1) (by omega) rfl (fun _ => rfl) himm
  · rw [hcode, if_neg (by omega)]
    simp only [hc.get64 hiv hw, ok_bind]
    exact move_yields64 h t s hw

theorem emitMove_reg32 {ty : IrType} {iv : Value} {a : BitVec 32} {bits : ℕ} (hw : bits ≤ 32)
    (hret : valueGet iu ret.value = .ok retV) (hreg : valueReg retV = .ok d)
    (htype : typeGet iu ret.type = .ok ty) (hiv : valueGet iu value.value = .ok iv)
    (hcls : iv.cls = .regframe a)
    (hcode : legalizeType ty = .int1 ∨ legalizeType ty = .int8 ∨ legalizeType ty = .int16
      ∨ legalizeType ty = .int32 ∨ legalizeType ty = .pointer) :
    Yields h t (emitMove iu t [ret] value) s (some (writeSlot bits s.1 d (content s.1 a))) := by
  have hemit : emitMove iu t [ret] value = emitOp2 t .mov32 d a := by
    unfold emitMove moveTarget
    simp only [hiv, hret, htype, hreg, ok_bind, hcls, pure, Except.pure]
    rcases hcode with hcode | hcode | hcode | hcode | hcode
    all_goals rw [hcode]
  rw [hemit, ← writeSlot_word hw]
  exact yields_set32Of32 (g := id) hw rfl fun _ => rfl

theorem emitMove_reg64 {ty : IrType} {iv : Value} {a : BitVec 32} {bits : ℕ} (hw : 32 < bits)
    (hret : valueGet iu ret.value = .ok retV) (hreg : valueReg retV = .ok d)
    (htype : typeGet iu ret.type = .ok ty) (hiv : valueGet iu value.value = .ok iv)
    (hcls : iv.cls = .regframe a) (hcode : legalizeType ty = .int64) :
    Yields h t (emitMove iu t [ret] value) s (some (writeSlot bits s.1 d (content s.1 a))) := by
  have hemit : emitMove iu t [ret] value = emitOp2 t .mov64 d a := by
    unfold emitMove moveTarget
    simp only [hiv, hret, htype, hreg, ok_bind, hcls, pure, Except.pure]
    rw [hcode]
  rw [hemit]
  exact yields_set64Of64 (g := id) hw rfl fun _ => rfl

end
end Vmir.MoveRuns
