import Vmir.CmpRuns
import Vmir.RegisterContents

set_option autoImplicit false

/-!
# Compares of floating-point numbers

A floating-point type is a linear order with one more element, which is not ordered: `num` gives the
number of a bit pattern, `none` for NaN. LLVM's predicates are relations on this order.
-/
namespace Vmir.FloatCompare
open ByteStore Ir VmOps IrTypes ProgramText IntegerRegisters EmitCmp CmpRuns RegisterContents

section Order
variable {α : Type} [LinearOrder α]

/-- A relation of numbers, which does not hold of NaN. -/
def rel (r : α → α → Bool) (a b : Option α) : Bool :=
  match a, b with
  | some a, some b => r a b
  | _, _ => false

def unordered (a b : Option α) : Bool := a.isNone || b.isNone

def llvmFcmp (p : FcmpPred) (a b : Option α) : Bool :=
  match p with
  | .false => false
  | .oeq => rel (fun a b => a = b) a b
  | .ogt => rel (fun a b => b < a) a b
  | .oge => rel (fun a b => b ≤ a) a b
  | .olt => rel (fun a b => a < b) a b
  | .ole => rel (fun a b => a ≤ b) a b
  | .one => rel (fun a b => a ≠ b) a b
  | .ord => !unordered a b
  | .uno => unordered a b
  | .ueq => unordered a b || rel (fun a b => a = b) a b
  | .ugt => unordered a b || rel (fun a b => b < a) a b
  | .uge => unordered a b || rel (fun a b => b ≤ a) a b
  | .ult => unordered a b || rel (fun a b => a < b) a b
  | .ule => unordered a b || rel (fun a b => a ≤ b) a b
  | .une => unordered a b || rel (fun a b => a ≠ b) a b
  | .true => true

theorem llvmFcmp_swap (p : FcmpPred) (a b : Option α) :
    llvmFcmp (swapFcmp p) b a = llvmFcmp p a b := by
  cases a with
  | none =>
    cases b with
    | none => cases p <;> rfl
    | some b => cases p <;> rfl
  | some a =>
    cases b with
    | none => cases p <;> rfl
    | some b =>
      cases p with
      | oeq | ueq | one | une => simp [swapFcmp, llvmFcmp, rel, unordered, eq_comm]
      | _ => rfl

structure Ordered {w : ℕ} (F : HostFloat w) (num : BitVec w → Option α) : Prop where
  isnan : ∀ x, F.isnan x = (num x).isNone
  eq : ∀ x y, F.eq x y = rel (fun a b => a = b) (num x) (num y)
  lt : ∀ x y, F.lt x y = rel (fun a b => a < b) (num x) (num y)
  le : ∀ x y, F.le x y = rel (fun a b => a ≤ b) (num x) (num y)

variable {w : ℕ} {F : HostFloat w} {num : BitVec w → Option α}

/-- Where the compares are right: `UGE` is compared the wrong way around, and `UNO` looks at the
first operand only. -/
def right (p : FcmpPred) (a b : Option α) : Prop :=
  match p with
  | .uge => a = none ∨ b = none ∨ a = b
  | .uno => a = none ∨ b ≠ none
  | _ => True

theorem fcmp_iff (hF : Ordered F num) {p : FcmpPred} {o : FcmpOp} (hp : fcmpOp p = some o)
    (x y : BitVec w) :
    fcmp F o x y = llvmFcmp p (num x) (num y) ↔ right p (num x) (num y) := by
  cases hx : num x with
  | none =>
    cases hy : num y with
    | none =>
      cases p <;> cases hp <;>
        simp [fcmp, llvmFcmp, right, hF.isnan, hF.eq, hF.lt, hF.le, hx, hy, rel, unordered]
    | some b =>
      cases p <;> cases hp <;>
        simp [fcmp, llvmFcmp, right, hF.isnan, hF.eq, hF.lt, hF.le, hx, hy, rel, unordered]
  | some a =>
    cases hy : num y with
    | none =>
      cases p <;> cases hp <;>
        simp [fcmp, llvmFcmp, right, hF.isnan, hF.eq, hF.lt, hF.le, hx, hy, rel, unordered]
    | some b =>
      cases p with
      | uge =>
        cases hp
        simp only [fcmp, llvmFcmp, right, hF.isnan, hF.le, hx, hy, rel, unordered,
          Option.isNone_some, Bool.false_or, decide_eq_decide, Option.some.injEq, reduceCtorEq,
          false_or]
        exact ⟨fun h => (le_total a b).elim (fun hab => hab.antisymm (h.mp hab))
          fun hba => (h.mpr hba).antisymm hba, fun h => by rw [h]⟩
      | _ =>
        cases hp <;>
          simp [fcmp, llvmFcmp, right, hF.isnan, hF.eq, hF.lt, hF.le, hx, hy, rel, unordered]

theorem fcmpC_eq_fcmp (o : FcmpOp) (x : BitVec w) {c : BitVec w} (hc : F.isnan c = false) :
    fcmpC F o x c = fcmp F o x c := by
  cases o <;> simp [fcmpC, fcmp, hc]

end Order

/-! ## Emitted code -/

inductive FloatKind
  | float | double
deriving DecidableEq

def FloatKind.bits (k : FloatKind) : ℕ :=
  match k with
  | .float => 32
  | .double => 64

def FloatKind.type (k : FloatKind) : IrType :=
  match k with
  | .float => .float
  | .double => .double

def FloatKind.host (k : FloatKind) (h : Host) : HostFloat k.bits :=
  match k with
  | .float => h.flt
  | .double => h.dbl

inductive FloatOperand (k : FloatKind)
  | reg (r : BitVec 32)
  | const (c : BitVec k.bits)

def FloatOperand.value {k : FloatKind} (x : FloatOperand k) (f : Bytes) : BitVec k.bits :=
  match x with
  | .reg r => lowBits k.bits f r
  | .const c => c

/-- Value `index` of the unit is the operand. -/
def FloatOperand.At {k : FloatKind} (iu : IrUnit) (index : ℕ) (x : FloatOperand k) : Prop :=
  match x with
  | .reg r => ∃ iv, valueGet iu index = .ok iv ∧ iv.cls = .regframe r
  | .const c => ∃ iv u64, valueGet iu index = .ok iv ∧ iv.cls = .constant u64
      ∧ u64.setWidth k.bits = c ∧ typeGet iu iv.type = .ok k.type

inductive OperandForm
  | regReg | regConst | constReg
deriving DecidableEq

def HasForm {k : FloatKind} (form : OperandForm) (x y : FloatOperand k) : Prop :=
  match form with
  | .regReg => ∃ l r, x = .reg l ∧ y = .reg r
  | .regConst => ∃ l c, x = .reg l ∧ y = .const c
  | .constReg => ∃ c r, x = .const c ∧ y = .reg r

/-- Where there is code for a compare and it is right: the loader takes neither the predicates
`false` and `true` nor a NaN constant. -/
def Right {α : Type} [LinearOrder α] (p : FcmpPred) (form : OperandForm) (a b : Option α) : Prop :=
  (p ≠ .false ∧ p ≠ .true) ∧
    match form with
    | .regReg => right p a b
    | .regConst => b ≠ none ∧ right p a b
    | .constReg => a ≠ none ∧ right (swapFcmp p) b a

/-- Where the operands and the result of a compare are. -/
structure FcmpPlaced (iu : IrUnit) (k : FloatKind) (ret lhs rhs : ValueType) (d : BitVec 32)
    (x y : FloatOperand k) : Prop where
  retReg : ∃ iv, valueGet iu ret.value = .ok iv ∧ valueReg iv = .ok d
  lhsAt : x.At iu lhs.value
  rhsAt : y.At iu rhs.value
  lhsType : typeGet iu lhs.type = .ok k.type

section
variable {h : Host} {k : FloatKind} {iu : IrUnit} {t : Text} {s : Bytes × Vm} {retV : Value}
variable {d : BitVec 32} {p : FcmpPred} {o : FcmpOp}

theorem emitCmp2Regs_yields (hp : fcmpOp p = some o) (hret : valueReg retV = .ok d)
    (l r : BitVec 32) :
    Yields h t (emitCmp2Regs t k.type retV (.fcmp p) l r) s (some (boolFrame s.1 d
      (fcmp (k.host h) o (lowBits k.bits s.1 l) (lowBits k.bits s.1 r)))) := by
  unfold emitCmp2Regs
  simp only [hp]
  cases k with
  | float =>
    change Yields h t (valueReg retV >>= fun d => emitOp3 t (.fcmpFlt o) d l r) s _
    rw [hret]
    exact regs_compare32 l r rfl fun _ => rfl
  | double =>
    change Yields h t (valueReg retV >>= fun d => emitOp3 t (.fcmpDbl o) d l r) s _
    rw [hret]
    have hrun := regs_compare64 (h := h) (t := t) (s := s) (o := .fcmpDbl o) (d := d) l r rfl
      (g := fcmp h.dbl o) fun _ => rfl
    change Yields h t _ s (some (boolFrame s.1 d (fcmp h.dbl o ((content s.1 l).setWidth 64)
      ((content s.1 r).setWidth 64))))
    rw [BitVec.setWidth_eq, BitVec.setWidth_eq]
    exact hrun

theorem emitCmp2Const_yields (hp : fcmpOp p = some o) (hret : valueReg retV = .ok d)
    (l : BitVec 32) {rhs : Value} {u64 : BitVec 64} (hcls : rhs.cls = .constant u64)
    (htype : typeGet iu rhs.type = .ok k.type) :
    if (k.host h).isnan (u64.setWidth k.bits) then
      emitCmp2Const h iu t k.type retV (.fcmp p) l rhs
        = .error (.parserError "Ugh, immediate is nan in fcmp")
    else
      Yields h t (emitCmp2Const h iu t k.type retV (.fcmp p) l rhs) s (some (boolFrame s.1 d
        (fcmpC (k.host h) o (lowBits k.bits s.1 l) (u64.setWidth k.bits)))) := by
  unfold emitCmp2Const
  have hbits : constantBits rhs = u64 := by rw [constantBits, hcls]
  simp only [hp]
  cases k with
  | float =>
    change if h.flt.isnan (u64.setWidth 32) then _ else _
    split
    · next hnan =>
      simp only [FloatKind.type, legalizeType, IrType.code, hbits, hnan, if_true]
      rfl
    · next hnan =>
      have hget : valueGetConst32 iu rhs = .ok (u64.setWidth 32) := by
        rw [valueGetConst32, htype, hcls]
        rfl
      simp only [FloatKind.type, legalizeType, IrType.code, hbits, hnan, hret, hget, ok_bind]
      have himm : imm32 (operands ([d.setWidth 16, l.setWidth 16] ++ units32 (u64.setWidth 32))) 2
          = u64.setWidth 32 := imm32_last [_, _] _
      have hrun := padded_compare32 (h := h) (t := t) (s := s) (o := .fcmpFltC o) (d := d) l
        (g := fun x I => fcmpC h.flt o x (imm32 I 2)) (units32 (u64.setWidth 32)) true rfl
        fun _ => rfl
      rw [himm] at hrun
      exact hrun
  | double =>
    change if h.dbl.isnan (u64.setWidth 64) then _ else _
    rw [BitVec.setWidth_eq]
    split
    · next hnan =>
      simp only [FloatKind.type, legalizeType, IrType.code, hbits, hnan, if_true]
      rfl
    · next hnan =>
      have hget : valueGetConst64 iu rhs = .ok u64 := by
        rw [valueGetConst64, hcls]
        simp only [htype, ok_bind]
        rfl
      simp only [FloatKind.type, legalizeType, IrType.code, hbits, hnan, hret, hget, ok_bind]
      have himm : imm64 (operands ([d.setWidth 16, l.setWidth 16] ++ units64 u64)) 2 = u64 :=
        imm64_last [_, _] _
      have hrun := padded_compare64 (h := h) (t := t) (s := s) (o := .fcmpDblC o) (d := d) l
        (g := fun x I => fcmpC h.dbl o x (imm64 I 2)) (units64 u64) true rfl fun _ => rfl
      rw [himm] at hrun
      change Yields h t _ s (some (boolFrame s.1 d (fcmpC h.dbl o ((content s.1 l).setWidth 64)
        (u64.setWidth 64))))
      rw [BitVec.setWidth_eq, BitVec.setWidth_eq]
      exact hrun

theorem fcmpOp_none (hp : fcmpOp p = none) : swapFcmp p = p ∧ (p = .false ∨ p = .true) := by
  cases p <;> simp_all [fcmpOp, swapFcmp]

theorem fcmpOp_swap (hp : fcmpOp p = some o) : ∃ o', fcmpOp (swapFcmp p) = some o' := by
  cases p <;> first | exact ⟨_, rfl⟩ | cases hp

variable {α : Type} [LinearOrder α] {num : BitVec k.bits → Option α}

theorem emitCmp2_rejects {ret lhs rhs : ValueType} {x y : FloatOperand k} {form : OperandForm}
    (hp : FcmpPlaced iu k ret lhs rhs d x y) (hform : HasForm form x y) (hnone : fcmpOp p = none) :
    ∃ msg, emitCmp2 h iu t ret (.fcmp p) lhs rhs = .error (.parserError msg) := by
  obtain ⟨retV, hret, -⟩ := hp.retReg
  have hx := hp.lhsAt
  have hy := hp.rhsAt
  have hswap := (fcmpOp_none hnone).1
  unfold emitCmp2
  cases form with
  | regReg =>
    obtain ⟨l, r, rfl, rfl⟩ := hform
    obtain ⟨lhsV, hlhs, hlcls⟩ := hx
    obtain ⟨rhsV, hrhs, hrcls⟩ := hy
    simp only [hlhs, hrhs, hret, hp.lhsType, ok_bind, hlcls, hrcls, emitCmp2Regs, hnone]
    exact ⟨_, rfl⟩
  | regConst =>
    obtain ⟨l, c, rfl, rfl⟩ := hform
    obtain ⟨lhsV, hlhs, hlcls⟩ := hx
    obtain ⟨rhsV, u64, hrhs, hrcls, -⟩ := hy
    simp only [hlhs, hrhs, hret, hp.lhsType, ok_bind, hlcls, hrcls, emitCmp2Const, hnone]
    exact ⟨_, rfl⟩
  | constReg =>
    obtain ⟨c, r, rfl, rfl⟩ := hform
    obtain ⟨lhsV, u64, hlhs, hlcls, -⟩ := hx
    obtain ⟨rhsV, hrhs, hrcls⟩ := hy
    simp only [hlhs, hrhs, hret, hp.lhsType, ok_bind, hlcls, hrcls, emitCmp2Const, swapPred, hswap,
      hnone]
    exact ⟨_, rfl⟩

theorem ne_of_fcmpOp (hp : fcmpOp p = some o) : p ≠ .false ∧ p ≠ .true := by
  constructor <;> rintro rfl <;> cases hp

theorem emitCmp2_cases (hF : Ordered (k.host h) num) {ret lhs rhs : ValueType}
    {x y : FloatOperand k} {form : OperandForm} (hp : FcmpPlaced iu k ret lhs rhs d x y)
    (hform : HasForm form x y) (hop : fcmpOp p = some o) :
    ((∃ msg, emitCmp2 h iu t ret (.fcmp p) lhs rhs = .error (.parserError msg))
        ∧ ¬ Right p form (num (x.value s.1)) (num (y.value s.1)))
    ∨ ∃ b, Yields h t (emitCmp2 h iu t ret (.fcmp p) lhs rhs) s (some (boolFrame s.1 d b))
        ∧ (b = llvmFcmp p (num (x.value s.1)) (num (y.value s.1))
          ↔ Right p form (num (x.value s.1)) (num (y.value s.1))) := by
  obtain ⟨retV, hret, hreg⟩ := hp.retReg
  have hx := hp.lhsAt
  have hy := hp.rhsAt
  have hpred := ne_of_fcmpOp hop
  unfold emitCmp2
  cases form with
  | regReg =>
    obtain ⟨l, r, rfl, rfl⟩ := hform
    obtain ⟨lhsV, hlhs, hlcls⟩ := hx
    obtain ⟨rhsV, hrhs, hrcls⟩ := hy
    simp only [hlhs, hrhs, hret, hp.lhsType, ok_bind, hlcls, hrcls]
    refine Or.inr ⟨_, emitCmp2Regs_yields hop hreg l r, (fcmp_iff hF hop _ _).trans ?_⟩
    exact ⟨fun h => ⟨hpred, h⟩, fun h => h.2⟩
  | regConst =>
    obtain ⟨l, c, rfl, rfl⟩ := hform
    obtain ⟨lhsV, hlhs, hlcls⟩ := hx
    obtain ⟨rhsV, u64, hrhs, hrcls, rfl, htype⟩ := hy
    simp only [hlhs, hrhs, hret, hp.lhsType, ok_bind, hlcls, hrcls]
    have hy := emitCmp2Const_yields (h := h) (t := t) (s := s) hop hreg l hrcls htype
    have hnum := hF.isnan (u64.setWidth k.bits)
    split at hy
    · next hnan =>
      refine Or.inl ⟨⟨_, hy⟩, fun hright => hright.2.1 ?_⟩
      rw [hnan] at hnum
      exact Option.isNone_iff_eq_none.mp hnum.symm
    · next hnan =>
      have hnan' := Bool.eq_false_iff.mpr hnan
      have hsome : num (u64.setWidth k.bits) ≠ none := by
        rw [hnan'] at hnum
        intro h
        rw [h] at hnum
        cases hnum
      rw [fcmpC_eq_fcmp o _ hnan'] at hy
      refine Or.inr ⟨_, hy, (fcmp_iff hF hop _ _).trans ?_⟩
      exact ⟨fun h => ⟨hpred, hsome, h⟩, fun h => h.2.2⟩
  | constReg =>
    obtain ⟨c, r, rfl, rfl⟩ := hform
    obtain ⟨lhsV, u64, hlhs, hlcls, rfl, htype⟩ := hx
    obtain ⟨rhsV, hrhs, hrcls⟩ := hy
    obtain ⟨o', hop'⟩ := fcmpOp_swap hop
    simp only [hlhs, hrhs, hret, hp.lhsType, ok_bind, hlcls, hrcls, swapPred]
    have hy := emitCmp2Const_yields (h := h) (t := t) (s := s) hop' hreg r hlcls htype
    have hnum := hF.isnan (u64.setWidth k.bits)
    split at hy
    · next hnan =>
      refine Or.inl ⟨⟨_, hy⟩, fun hright => hright.2.1 ?_⟩
      rw [hnan] at hnum
      exact Option.isNone_iff_eq_none.mp hnum.symm
    · next hnan =>
      have hnan' := Bool.eq_false_iff.mpr hnan
      have hsome : num (u64.setWidth k.bits) ≠ none := by
        rw [hnan'] at hnum
        intro h
        rw [h] at hnum
        cases hnum
      rw [fcmpC_eq_fcmp o' _ hnan'] at hy
      have hiff := fcmp_iff hF hop' (lowBits k.bits s.1 r) (u64.setWidth k.bits)
      rw [llvmFcmp_swap] at hiff
      refine Or.inr ⟨_, hy, hiff.trans ?_⟩
      exact ⟨fun h => ⟨hpred, hsome, h⟩, fun h => h.2.2⟩

end

/-! ## The theorem -/

/-- The compare is accepted, and its code decides the predicate on the two operands. Only where the
buffer has not 32 bytes left may the emitter stop. -/
def FcmpCompiles {α : Type} [LinearOrder α] (h : Host) (k : FloatKind)
    (num : BitVec k.bits → Option α) (p : FcmpPred) (form : OperandForm) (vx vy : BitVec k.bits) :
    Prop :=
  ∀ (iu : IrUnit) (t : Text) (ret lhs rhs : ValueType) (d : BitVec 32) (x y : FloatOperand k)
    (s : Bytes × Vm), FcmpPlaced iu k ret lhs rhs d x y → HasForm form x y →
    x.value s.1 = vx → y.value s.1 = vy →
    (emitCmp2 h iu t ret (.fcmp p) lhs rhs = .error functionTooBig
      ∧ textAllocMemsize ≤ 2 * t.length + 32) ∨
      ∃ t' s', emitCmp2 h iu t ret (.fcmp p) lhs rhs = .ok t' ∧ Runs h t t' s s'
        ∧ lowBits 32 s'.1 d = ofBool (llvmFcmp p (num vx) (num vy))

def FloatOperand.cls {k : FloatKind} (x : FloatOperand k) : ValueClass :=
  match x with
  | .reg r => .regframe r
  | .const c => .constant (c.setWidth 64)

def floatUnit (k : FloatKind) (d : BitVec 32) (x y : FloatOperand k) : IrUnit where
  types := [k.type]
  values := [⟨.regframe d, 0⟩, ⟨x.cls, 0⟩, ⟨y.cls, 0⟩]
  textAlloc := fun _ => 0

theorem FloatKind.bits_le (k : FloatKind) : k.bits ≤ 64 := by
  cases k <;> decide

theorem FloatOperand.at_of_cls {k : FloatKind} {iu : IrUnit} {index : ℕ} (x : FloatOperand k)
    (hget : valueGet iu index = .ok ⟨x.cls, 0⟩) (htype : typeGet iu 0 = .ok k.type) :
    x.At iu index := by
  cases x with
  | reg r => exact ⟨_, hget, rfl⟩
  | const c =>
    refine ⟨_, _, hget, rfl, ?_, htype⟩
    rw [BitVec.setWidth_setWidth (by have := k.bits_le; omega), BitVec.setWidth_eq]

theorem floatUnit_placed (k : FloatKind) (d : BitVec 32) (x y : FloatOperand k) :
    FcmpPlaced (floatUnit k d x y) k ⟨0, 0⟩ ⟨1, 0⟩ ⟨2, 0⟩ d x y :=
  ⟨⟨_, rfl, rfl⟩, x.at_of_cls rfl rfl, y.at_of_cls rfl rfl, rfl⟩

theorem exists_operands (k : FloatKind) (form : OperandForm) (vx vy : BitVec k.bits) :
    ∃ x y : FloatOperand k, HasForm form x y
      ∧ x.value (operandFrame (vx.setWidth 64) (vy.setWidth 64)) = vx
      ∧ y.value (operandFrame (vx.setWidth 64) (vy.setWidth 64)) = vy := by
  obtain ⟨hx, hy⟩ := content_operandFrame (vx.setWidth 64) (vy.setWidth 64)
  have hback (v : BitVec k.bits) : (v.setWidth 64).setWidth k.bits = v := by
    rw [BitVec.setWidth_setWidth (by have := k.bits_le; omega), BitVec.setWidth_eq]
  have hvx : (FloatOperand.reg 0 : FloatOperand k).value
      (operandFrame (vx.setWidth 64) (vy.setWidth 64)) = vx := by
    rw [FloatOperand.value, lowBits, hx, hback]
  have hvy : (FloatOperand.reg 8 : FloatOperand k).value
      (operandFrame (vx.setWidth 64) (vy.setWidth 64)) = vy := by
    rw [FloatOperand.value, lowBits, hy, hback]
  cases form with
  | regReg => exact ⟨.reg 0, .reg 8, ⟨_, _, rfl, rfl⟩, hvx, hvy⟩
  | regConst => exact ⟨.reg 0, .const vy, ⟨_, _, rfl, rfl⟩, hvx, rfl⟩
  | constReg => exact ⟨.const vx, .reg 8, ⟨_, _, rfl, rfl⟩, rfl, hvy⟩

theorem ofBool_inj {a b : Bool} (h : ofBool a = ofBool b) : a = b := by
  cases a <;> cases b <;> first | rfl | cases h

section
variable {α : Type} [LinearOrder α] {h : Host} {k : FloatKind} {num : BitVec k.bits → Option α}
variable {p : FcmpPred} {form : OperandForm} {vx vy : BitVec k.bits}

theorem fcmpCompiles_of_right (hF : Ordered (k.host h) num)
    (hright : Right p form (num vx) (num vy)) : FcmpCompiles h k num p form vx vy := by
  intro iu t ret lhs rhs d x y s hp hform hx hy
  cases hop : fcmpOp p with
  | none => exact absurd (fcmpOp_none hop).2 (by simp [hright.1])
  | some o =>
    obtain ⟨-, hwrong⟩ | ⟨b, hyields, hiff⟩ := emitCmp2_cases (t := t) (s := s) hF hp hform hop
    · rw [hx, hy] at hwrong
      exact absurd hright hwrong
    · rw [hx, hy] at hiff
      obtain hfull | ⟨t', hemit, hrun⟩ := hyields
      · exact Or.inl hfull
      · exact Or.inr ⟨t', _, hemit, hrun, by rw [lowBits_boolFrame, hiff.mpr hright]⟩

theorem right_of_fcmpCompiles (hF : Ordered (k.host h) num)
    (hc : FcmpCompiles h k num p form vx vy) : Right p form (num vx) (num vy) := by
  obtain ⟨x, y, hform, hx, hy⟩ := exists_operands k form vx vy
  have hp := floatUnit_placed k 16 x y
  -- the empty buffer has room, so the compare is accepted there
  obtain ⟨-, hfull⟩ | ⟨t', s', ht, hrun', hlow⟩ := hc _ [] _ _ _ 16 x y (_, zeroVm) hp hform hx hy
  · exact absurd hfull (by decide)
  cases hop : fcmpOp p with
  | none =>
    obtain ⟨msg, hfail⟩ := emitCmp2_rejects (h := h) (t := []) hp hform hop
    rw [hfail] at ht
    cases ht
  | some o =>
    obtain ⟨⟨msg, hfail⟩, -⟩ | ⟨b, hyields, hiff⟩ := emitCmp2_cases (t := [])
        (s := (operandFrame (vx.setWidth 64) (vy.setWidth 64), zeroVm)) hF hp hform hop
    · rw [hfail] at ht
      cases ht
    · rw [hx, hy] at hiff
      obtain ⟨t'', hemit, hrun⟩ := hyields.empty
      obtain rfl := Except.ok.inj (hemit.symm.trans ht)
      obtain rfl := Runs.unique hrun' hrun
      rw [lowBits_boolFrame] at hlow
      exact hiff.mp (ofBool_inj hlow)

end

/-- The number of an IEEE bit pattern, up to scale; `inf` is the pattern of infinity. -/
def ieeeNum {w : ℕ} (inf : ℕ) (x : BitVec w) : Option ℤ :=
  let magnitude := x.toNat % 2 ^ (w - 1)
  if inf < magnitude then none else some (if x.msb then -magnitude else magnitude)

def ieeeFloat (w inf : ℕ) : HostFloat w :=
  { zeroFloat w with
    isnan := fun x => (ieeeNum inf x).isNone
    eq := fun x y => rel (fun a b => a = b) (ieeeNum inf x) (ieeeNum inf y)
    lt := fun x y => rel (fun a b => a < b) (ieeeNum inf x) (ieeeNum inf y)
    le := fun x y => rel (fun a b => a ≤ b) (ieeeNum inf x) (ieeeNum inf y) }

def ieeeHost : Host :=
  { zeroHost with flt := ieeeFloat 32 0x7f800000, dbl := ieeeFloat 64 0x7ff0000000000000 }

theorem ieee_ordered : Ordered (FloatKind.float.host ieeeHost) (ieeeNum 0x7f800000) :=
  ⟨fun _ => rfl, fun _ _ => rfl, fun _ _ => rfl, fun _ _ => rfl⟩

/-- `fcmp uge float 2.0, 1.0` in two registers. -/
theorem not_fcmpCompiles_uge : ¬ FcmpCompiles ieeeHost .float (ieeeNum 0x7f800000) .uge .regReg
    (0x40000000 : BitVec 32) (0x3f800000 : BitVec 32) := by
  intro hc
  have hright := (right_of_fcmpCompiles ieee_ordered hc).2
  change _ = none ∨ _ = none ∨ _ = _ at hright
  revert hright
  decide

theorem fcmpCompiles_iff {α : Type} [LinearOrder α] {h : Host} {k : FloatKind}
    {num : BitVec k.bits → Option α} (hF : Ordered (k.host h) num) (p : FcmpPred)
    (form : OperandForm) (vx vy : BitVec k.bits) :
    FcmpCompiles h k num p form vx vy ↔ Right p form (num vx) (num vy) :=
  ⟨right_of_fcmpCompiles hF, fcmpCompiles_of_right hF⟩

theorem fcmpCompiles_iff_olt :
    FcmpCompiles ieeeHost .float (ieeeNum 0x7f800000) .olt .regReg (0x3f800000 : BitVec 32)
        (0x40000000 : BitVec 32)
      ↔ Right .olt .regReg (ieeeNum 0x7f800000 (0x3f800000 : BitVec 32))
        (ieeeNum 0x7f800000 (0x40000000 : BitVec 32)) :=
  fcmpCompiles_iff ieee_ordered .olt .regReg 0x3f800000 0x40000000

end Vmir.FloatCompare
