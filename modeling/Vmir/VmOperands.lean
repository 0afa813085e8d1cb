import Vmir.VmOps

set_option autoImplicit false

/-!
# The operand units of an operation

An operation reads no unit beyond the ones that its `NEXT` skips, and the wide constants among them
are the ones that were written.
-/
namespace Vmir.VmOps
open ByteStore RegisterProgram Ir

theorem body_congr (h : Host) (op : Op) {I I' : Units} (hI : ∀ i < skip op, I i = I' i) :
    body h op I = body h op I' := by
  cases op with
  | sel32C p =>
    change ∀ i < 6, I i = I' i at hI
    have h4 : imm32 I 4 = imm32 I' 4 := by
      rw [imm32, imm32, hI 4 (by omega), hI 5 (by omega)]
    simp only [body, reg, h4, hI 0 (by omega), hI 1 (by omega), hI 2 (by omega), hI 3 (by omega)]
  | _ =>
    simp only [skip, Nat.forall_lt_succ_right, Nat.not_lt_zero, false_implies, implies_true,
      true_and] at hI
    simp only [body, arith32, arith32C, arith64, arith64C, set32, set64, set32Of32, set32Of64,
      set64Of32, set64Of64, set32Of32And32, set32Of64And64, set64Of64And64, load8At, load16At,
      load32At, load64At, withPtr, withOff, withRoff, storeAt, storeG, storeCOff, storePtr,
      storeOff, memResult2, memResult3, memQuery2, memQuery3, reg, imm32, imm64, uimm8, simm8,
      uimm16, simm16, hI, Nat.zero_add, Nat.reduceAdd]

theorem skip_le (op : Op) : skip op ≤ 10 := by
  cases op <;> simp [skip]

def operands (args : List (BitVec 16)) : Units := fun i => args.getD i 0

def units32 (v : BitVec 32) : List (BitVec 16) := [v.setWidth 16, (v >>> 16).setWidth 16]

def units64 (v : BitVec 64) : List (BitVec 16) :=
  units32 (v.setWidth 32) ++ units32 ((v >>> 32).setWidth 32)

theorem append_halves32 (v : BitVec 32) :
    ((v >>> 16).setWidth 16 ++ v.setWidth 16 : BitVec 32) = v := by
  ext i hi
  rw [BitVec.getElem_append]
  split
  · rw [BitVec.getElem_setWidth, BitVec.getLsbD_eq_getElem]
  · simp only [BitVec.getElem_setWidth, BitVec.getLsbD_ushiftRight]
    rw [show 16 + (i - 16) = i by omega, BitVec.getLsbD_eq_getElem]

theorem append_halves64 (v : BitVec 64) :
    ((v >>> 32).setWidth 32 ++ v.setWidth 32 : BitVec 64) = v := by
  ext i hi
  rw [BitVec.getElem_append]
  split
  · rw [BitVec.getElem_setWidth, BitVec.getLsbD_eq_getElem]
  · simp only [BitVec.getElem_setWidth, BitVec.getLsbD_ushiftRight]
    rw [show 32 + (i - 32) = i by omega, BitVec.getLsbD_eq_getElem]

theorem imm32_operands (pre post : List (BitVec 16)) (v : BitVec 32) :
    imm32 (operands (pre ++ (units32 v ++ post))) pre.length = v := by
  have hlo : operands (pre ++ (units32 v ++ post)) pre.length = v.setWidth 16 := by
    simp [operands, units32, List.getD]
  have hhi : operands (pre ++ (units32 v ++ post)) (pre.length + 1) = (v >>> 16).setWidth 16 := by
    simp [operands, units32, List.getD]
  rw [imm32, hlo, hhi, append_halves32]

theorem imm64_operands (pre post : List (BitVec 16)) (v : BitVec 64) :
    imm64 (operands (pre ++ (units64 v ++ post))) pre.length = v := by
  have hlo := imm32_operands pre (units32 ((v >>> 32).setWidth 32) ++ post) (v.setWidth 32)
  have hhi := imm32_operands (pre ++ units32 (v.setWidth 32)) post ((v >>> 32).setWidth 32)
  rw [List.append_assoc, List.length_append] at hhi
  rw [imm64, units64, List.append_assoc, hlo]
  change (imm32 _ (pre.length + (units32 (v.setWidth 32)).length) ++ _ : BitVec 64) = _
  rw [hhi, append_halves64]

theorem imm32_last (pre : List (BitVec 16)) (v : BitVec 32) :
    imm32 (operands (pre ++ units32 v)) pre.length = v := by
  have h := imm32_operands pre [] v
  rwa [List.append_nil] at h

theorem imm64_last (pre : List (BitVec 16)) (v : BitVec 64) :
    imm64 (operands (pre ++ units64 v)) pre.length = v := by
  have h := imm64_operands pre [] v
  rwa [List.append_nil] at h

theorem operands_last (pre : List (BitVec 16)) (u : BitVec 16) :
    operands (pre ++ [u]) pre.length = u := by
  simp [operands, List.getD]

theorem uimm8_last (pre : List (BitVec 16)) (hi v : BitVec 8) :
    uimm8 (operands (pre ++ [hi ++ v])) pre.length = v.setWidth 32 := by
  rw [uimm8, operands_last, BitVec.setWidth_append_eq_right]

theorem simm8_last (pre : List (BitVec 16)) (hi v : BitVec 8) :
    simm8 (operands (pre ++ [hi ++ v])) pre.length = v.signExtend 32 := by
  rw [simm8, operands_last, BitVec.setWidth_append_eq_right]

/-! ## The effect of an arithmetic operation -/

section
variable (I : Units) (f : Bytes) (vm : Vm)

theorem exec_set32 (r : ℕ) (v : Option (BitVec 32)) :
    exec (set32 I r v) f vm = v.map fun v => (write32 f (reg I r) v, vm) := by
  cases v <;> rfl

theorem exec_set64 (r : ℕ) (v : Option (BitVec 64)) :
    exec (set64 I r v) f vm = v.map fun v => (write64 f (reg I r) v, vm) := by
  cases v <;> rfl

theorem exec_arith32 (b : Binop) (g k : BitVec 32 → BitVec 32) :
    exec (arith32 I b g k) f vm =
      (cArith b (g (read32 f (reg I 1))) (k (read32 f (reg I 2)))).map fun v =>
        (write32 f (reg I 0) v, vm) :=
  exec_set32 I f vm 0 _

theorem exec_arith32C (b : Binop) (g : BitVec 32 → BitVec 32) (c : BitVec 32) :
    exec (arith32C I b g c) f vm =
      (cArith b (g (read32 f (reg I 1))) c).map fun v => (write32 f (reg I 0) v, vm) :=
  exec_set32 I f vm 0 _

theorem exec_arith64 (b : Binop) :
    exec (arith64 I b) f vm =
      (cArith b (read64 f (reg I 1)) (read64 f (reg I 2))).map fun v =>
        (write64 f (reg I 0) v, vm) :=
  exec_set64 I f vm 0 _

theorem exec_arith64C (b : Binop) (c : BitVec 64) :
    exec (arith64C I b c) f vm =
      (cArith b (read64 f (reg I 1)) c).map fun v => (write64 f (reg I 0) v, vm) :=
  exec_set64 I f vm 0 _

end

end Vmir.VmOps
