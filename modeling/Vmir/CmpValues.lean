import Vmir.CmpRuns

set_option autoImplicit false

/-!
# Integer compares that give a value

The code of an integer compare decides the predicate, as LLVM defines it on the integers that the
operands hold.
-/
namespace Vmir.CmpValues
open ByteStore Ir VmOps IrTypes ProgramText IntegerRegisters
open EmitCmp CmpRuns

/-! ## Predicates -/

def llvmIcmp {w : ℕ} (p : IcmpPred) (x y : BitVec w) : Bool :=
  match p with
  | .eq => decide (x.toNat = y.toNat)
  | .ne => decide (x.toNat ≠ y.toNat)
  | .ugt => decide (x.toNat > y.toNat)
  | .uge => decide (x.toNat ≥ y.toNat)
  | .ult => decide (x.toNat < y.toNat)
  | .ule => decide (x.toNat ≤ y.toNat)
  | .sgt => decide (x.toInt > y.toInt)
  | .sge => decide (x.toInt ≥ y.toInt)
  | .slt => decide (x.toInt < y.toInt)
  | .sle => decide (x.toInt ≤ y.toInt)

theorem icmp_eq_llvmIcmp {w : ℕ} (p : IcmpPred) (x y : BitVec w) : icmp p x y = llvmIcmp p x y := by
  cases p with
  | eq => rw [Bool.eq_iff_iff, icmp, llvmIcmp, beq_iff_eq, decide_eq_true_iff, BitVec.toNat_inj]
  | ne => rw [Bool.eq_iff_iff, icmp, llvmIcmp, bne_iff_ne, decide_eq_true_iff, ne_eq, ne_eq,
      BitVec.toNat_inj]
  | ugt | uge | ult | ule | sgt | sge | slt | sle => rfl

theorem llvmIcmp_swap {w : ℕ} (p : IcmpPred) (x y : BitVec w) :
    llvmIcmp (swapIcmp p) y x = llvmIcmp p x y := by
  cases p with
  | eq | ne => simp only [swapIcmp, llvmIcmp, eq_comm, ne_comm]
  | ugt | uge | ult | ule | sgt | sge | slt | sle => rfl

/-! ## Operands -/

/-- The types whose values `emit_cmp2` compares as integers. -/
inductive CmpType
  | int8 | int16 | int32 | int64
  | pointer (pointee : Option ℕ)
deriving DecidableEq

def CmpType.bits (k : CmpType) : ℕ :=
  match k with
  | .int8 => 8
  | .int16 => 16
  | .int32 | .pointer _ => 32
  | .int64 => 64

def CmpType.type (k : CmpType) : IrType :=
  match k with
  | .int8 => .int8
  | .int16 => .int16
  | .int32 => .int32
  | .int64 => .int64
  | .pointer pointee => .pointer pointee

inductive CmpOperand (k : CmpType)
  | reg (r : BitVec 32)
  | const (c : BitVec k.bits)
  | globalvar (addr : BitVec 32)

def CmpOperand.value {k : CmpType} (x : CmpOperand k) (f : Bytes) : BitVec k.bits :=
  match x with
  | .reg r => lowBits k.bits f r
  | .const c => c
  | .globalvar addr => addr.setWidth k.bits

/-- Value `index` of the unit is the operand; only pointers are addresses of globals. -/
def CmpOperand.At {k : CmpType} (iu : IrUnit) (index : ℕ) (x : CmpOperand k) : Prop :=
  match x with
  | .reg r => ∃ iv, valueGet iu index = .ok iv ∧ iv.cls = .regframe r
  | .const c => ∃ iv u64, valueGet iu index = .ok iv ∧ iv.cls = .constant u64
      ∧ u64.setWidth k.bits = c ∧ typeGet iu iv.type = .ok k.type
  | .globalvar addr => ∃ iv it pointee, valueGet iu index = .ok iv ∧ iv.cls = .globalvar addr
      ∧ typeGet iu iv.type = .ok it ∧ k = .pointer pointee

inductive Compared {k : CmpType} : CmpOperand k → CmpOperand k → Prop
  | regs (l r : BitVec 32) : Compared (.reg l) (.reg r)
  | const (l : BitVec 32) (c : BitVec k.bits) : Compared (.reg l) (.const c)
  | constSwapped (c : BitVec k.bits) (r : BitVec 32) : Compared (.const c) (.reg r)
  | globalvar (l addr : BitVec 32) : Compared (.reg l) (.globalvar addr)
  | globalvarSwapped (addr r : BitVec 32) : Compared (.globalvar addr) (.reg r)

structure CmpPlaced (iu : IrUnit) (k : CmpType) (lhs rhs : ValueType) (x y : CmpOperand k) :
    Prop where
  compared : Compared x y
  lhsAt : x.At iu lhs.value
  rhsAt : y.At iu rhs.value
  lhsType : typeGet iu lhs.type = .ok k.type

/-! ## Compares that give a value -/

section
variable {h : Host} {k : CmpType} {iu : IrUnit} {t : Text} {s : Bytes × Vm} {retV : Value}
variable {d : BitVec 32} {p : IcmpPred}

theorem emitCmp2Regs_yields (hret : valueReg retV = .ok d) (l r : BitVec 32) :
    Yields h t (emitCmp2Regs t k.type retV (.icmp p) l r) s (some (boolFrame s.1 d
      (icmp p (lowBits k.bits s.1 l) (lowBits k.bits s.1 r)))) := by
  have hlow (b : ℕ) (hb : b ≤ 32) (x : BitVec 32) :
      (lowBits 32 s.1 x).setWidth b = lowBits b s.1 x :=
    BitVec.setWidth_setWidth_of_le _ hb
  unfold emitCmp2Regs
  cases k with
  | int8 =>
    change Yields h t (valueReg retV >>= fun d => emitOp3 t (.cmp8 p) d l r) s _
    have hrun := regs_compare32 (h := h) (t := t) (s := s) (o := .cmp8 p) (d := d) l r rfl
      (g := fun x y => icmp p (x.setWidth 8) (y.setWidth 8)) fun _ => rfl
    rw [hlow 8 (by omega), hlow 8 (by omega)] at hrun
    rw [hret]
    exact hrun
  | int16 =>
    change Yields h t (valueReg retV >>= fun d => emitOp3 t (.cmp16 p) d l r) s _
    have hrun := regs_compare32 (h := h) (t := t) (s := s) (o := .cmp16 p) (d := d) l r rfl
      (g := fun x y => icmp p (x.setWidth 16) (y.setWidth 16)) fun _ => rfl
    rw [hlow 16 (by omega), hlow 16 (by omega)] at hrun
    rw [hret]
    exact hrun
  | int32 | pointer =>
    change Yields h t (valueReg retV >>= fun d => emitOp3 t (.cmp32 p) d l r) s _
    rw [hret]
    exact regs_compare32 l r rfl fun _ => rfl
  | int64 =>
    change Yields h t (valueReg retV >>= fun d => emitOp3 t (.cmp64 p) d l r) s _
    have hrun := regs_compare64 (h := h) (t := t) (s := s) (o := .cmp64 p) (d := d) l r rfl
      (g := icmp p) fun _ => rfl
    have hcontent (x : BitVec 32) : content s.1 x = lowBits 64 s.1 x := (BitVec.setWidth_eq _).symm
    rw [hcontent, hcontent] at hrun
    rw [hret]
    exact hrun

theorem valueGetConst32_const {iv : Value} {u64 : BitVec 64} (hcls : iv.cls = .constant u64)
    (htype : typeGet iu iv.type = .ok k.type) (hk : k.bits ≤ 32) :
    valueGetConst32 iu iv = .ok (u64.setWidth 32) := by
  rw [valueGetConst32, htype, hcls]
  cases k with
  | int8 | int16 | int32 | pointer => rfl
  | int64 => exact absurd hk (by decide)

theorem emitCmp2Const_yields (hret : valueReg retV = .ok d) (l : BitVec 32) {iv : Value}
    {u64 : BitVec 64} (hcls : iv.cls = .constant u64) (htype : typeGet iu iv.type = .ok k.type) :
    Yields h t (emitCmp2Const h iu t k.type retV (.icmp p) l iv) s (some (boolFrame s.1 d
      (icmp p (lowBits k.bits s.1 l) (u64.setWidth k.bits)))) := by
  have hlow (b : ℕ) (hb : b ≤ 32) (x : BitVec 32) :
      (lowBits 32 s.1 x).setWidth b = lowBits b s.1 x :=
    BitVec.setWidth_setWidth_of_le _ hb
  have hconst (b : ℕ) (hb : b ≤ 32) : (u64.setWidth 32).setWidth b = u64.setWidth b :=
    BitVec.setWidth_setWidth_of_le _ hb
  have hget (hk : k.bits ≤ 32) := valueGetConst32_const hcls htype hk
  unfold emitCmp2Const
  cases k with
  | int8 =>
    simp only [CmpType.type, legalizeType, IrType.code, hret, hget (by decide), ok_bind]
    rw [hconst 8 (by omega)]
    have hrun := const_compare8 (h := h) (t := t) (s := s) (d := d) l iu (p := p)
      (u64.setWidth 8)
    rw [hlow 8 (by omega)] at hrun
    exact hrun
  | int16 =>
    simp only [CmpType.type, legalizeType, IrType.code, hret, hget (by decide), ok_bind]
    rw [hconst 16 (by omega)]
    have hrun := const_compare32 (h := h) (t := t) (s := s) (o := .cmp16C p) (d := d) l
      (g := fun x I => icmp p (x.setWidth 16) (I 2)) [u64.setWidth 16] rfl fun _ => rfl
    rw [hlow 16 (by omega)] at hrun
    exact hrun
  | int32 | pointer =>
    simp only [CmpType.type, legalizeType, IrType.code, hret, hget (le_refl 32), ok_bind]
    have himm : imm32 (operands ([d.setWidth 16, l.setWidth 16] ++ units32 (u64.setWidth 32))) 2
        = u64.setWidth 32 := imm32_last [_, _] _
    have hrun := const_compare32 (h := h) (t := t) (s := s) (o := .cmp32C p) (d := d) l
      (g := fun x I => icmp p x (imm32 I 2)) (units32 (u64.setWidth 32)) rfl fun _ => rfl
    rw [himm] at hrun
    exact hrun
  | int64 =>
    have hget64 : valueGetConst64 iu iv = .ok u64 := by
      simp only [valueGetConst64, hcls, htype, ok_bind]
      rfl
    simp only [CmpType.type, legalizeType, IrType.code, hret, hget64, ok_bind]
    have himm : imm64 (operands ([d.setWidth 16, l.setWidth 16] ++ units64 u64)) 2 = u64 :=
      imm64_last [_, _] _
    have hrun := padded_compare64 (h := h) (t := t) (s := s) (o := .cmp64C p) (d := d) l
      (g := fun x I => icmp p x (imm64 I 2)) (units64 u64) true rfl fun _ => rfl
    rw [himm] at hrun
    change Yields h t _ s (some (boolFrame s.1 d
      (icmp p ((content s.1 l).setWidth 64) (u64.setWidth 64))))
    rw [BitVec.setWidth_eq, BitVec.setWidth_eq]
    exact hrun

theorem valueGetConst32_globalvar {iv : Value} {addr : BitVec 32} {it : IrType}
    (hcls : iv.cls = .globalvar addr) (htype : typeGet iu iv.type = .ok it) :
    valueGetConst32 iu iv = .ok addr := by
  rw [valueGetConst32, htype, hcls]
  rfl

theorem emitCmp2Global_yields (hret : valueReg retV = .ok d) (l : BitVec 32) {iv : Value}
    {addr : BitVec 32} {it : IrType} {pointee : Option ℕ} (hcls : iv.cls = .globalvar addr)
    (htype : typeGet iu iv.type = .ok it) :
    Yields h t (emitCmp2Global iu t (.pointer pointee) retV (.icmp p) l iv) s
      (some (boolFrame s.1 d (icmp p (lowBits 32 s.1 l) addr))) := by
  have hget := valueGetConst32_globalvar hcls htype
  unfold emitCmp2Global
  simp only [legalizeType, IrType.code, hret, hget, ok_bind]
  have himm : imm32 (operands ([d.setWidth 16, l.setWidth 16] ++ units32 addr)) 2 = addr :=
    imm32_last [_, _] _
  have hrun := const_compare32 (h := h) (t := t) (s := s) (o := .cmp32C p) (d := d) l
    (g := fun x I => icmp p x (imm32 I 2)) (units32 addr) rfl fun _ => rfl
  rw [himm] at hrun
  exact hrun

theorem emitCmp2_yields {ret lhs rhs : ValueType} {x y : CmpOperand k}
    (hp : CmpPlaced iu k lhs rhs x y) (hretV : valueGet iu ret.value = .ok retV)
    (hret : valueReg retV = .ok d) :
    Yields h t (emitCmp2 h iu t ret (.icmp p) lhs rhs) s
      (some (boolFrame s.1 d (llvmIcmp p (x.value s.1) (y.value s.1)))) := by
  have hx := hp.lhsAt
  have hy := hp.rhsAt
  unfold emitCmp2
  cases hp.compared with
  | regs l r =>
    obtain ⟨lhsV, hlhs, hlcls⟩ := hx
    obtain ⟨rhsV, hrhs, hrcls⟩ := hy
    simp only [hlhs, hrhs, hretV, hp.lhsType, ok_bind, hlcls, hrcls]
    rw [← icmp_eq_llvmIcmp]
    exact emitCmp2Regs_yields hret l r
  | const l c =>
    obtain ⟨lhsV, hlhs, hlcls⟩ := hx
    obtain ⟨rhsV, u64, hrhs, hrcls, rfl, htype⟩ := hy
    simp only [hlhs, hrhs, hretV, hp.lhsType, ok_bind, hlcls, hrcls]
    rw [← icmp_eq_llvmIcmp]
    exact emitCmp2Const_yields hret l hrcls htype
  | constSwapped c r =>
    obtain ⟨lhsV, u64, hlhs, hlcls, rfl, htype⟩ := hx
    obtain ⟨rhsV, hrhs, hrcls⟩ := hy
    simp only [hlhs, hrhs, hretV, hp.lhsType, ok_bind, hlcls, hrcls, swapPred]
    rw [← llvmIcmp_swap, ← icmp_eq_llvmIcmp]
    exact emitCmp2Const_yields hret r hlcls htype
  | globalvar l addr =>
    obtain ⟨lhsV, hlhs, hlcls⟩ := hx
    obtain ⟨rhsV, it, pointee, hrhs, hrcls, htype, rfl⟩ := hy
    simp only [hlhs, hrhs, hretV, hp.lhsType, ok_bind, hlcls, hrcls]
    rw [← icmp_eq_llvmIcmp, CmpOperand.value, CmpOperand.value]
    change Yields h t _ s (some (boolFrame s.1 d (icmp p (lowBits 32 s.1 l) (addr.setWidth 32))))
    rw [BitVec.setWidth_eq]
    exact emitCmp2Global_yields hret l hrcls htype
  | globalvarSwapped addr r =>
    obtain ⟨lhsV, it, pointee, hlhs, hlcls, htype, rfl⟩ := hx
    obtain ⟨rhsV, hrhs, hrcls⟩ := hy
    simp only [hlhs, hrhs, hretV, hp.lhsType, ok_bind, hlcls, hrcls, swapPred]
    rw [← llvmIcmp_swap, ← icmp_eq_llvmIcmp, CmpOperand.value, CmpOperand.value]
    change Yields h t _ s
      (some (boolFrame s.1 d (icmp (swapIcmp p) (lowBits 32 s.1 r) (addr.setWidth 32))))
    rw [BitVec.setWidth_eq]
    exact emitCmp2Global_yields hret r hlcls htype

end
end Vmir.CmpValues
