import Vmir.ProgramText

set_option autoImplicit false

/-!
# Compares

The emitters of `vmir_vm.c` for a compare that gives a value, for one that is fused into a branch
and for one that is fused into a select.
-/
namespace Vmir.EmitCmp
open Ir VmOps VmControl IrTypes ProgramText

def swapIcmp (p : IcmpPred) : IcmpPred :=
  match p with
  | .eq | .ne => p
  | .sgt => .slt
  | .slt => .sgt
  | .sge => .sle
  | .sle => .sge
  | .ugt => .ult
  | .ult => .ugt
  | .uge => .ule
  | .ule => .uge

def swapFcmp (p : FcmpPred) : FcmpPred :=
  match p with
  | .false | .true | .oeq | .one | .ueq | .une | .ord | .uno => p
  | .ogt => .olt
  | .olt => .ogt
  | .oge => .ole
  | .ole => .oge
  | .ugt => .ult
  | .ult => .ugt
  | .uge => .ule
  | .ule => .uge

def swapPred (p : Pred) : Pred :=
  match p with
  | .icmp p => .icmp (swapIcmp p)
  | .fcmp p => .fcmp (swapFcmp p)

/-- The operation of a predicate from `FCMP_OEQ` to `FCMP_UNE`. -/
def fcmpOp (p : FcmpPred) : Option FcmpOp :=
  match p with
  | .false | .true => none
  | .oeq => some .oeq
  | .ogt => some .ogt
  | .oge => some .oge
  | .olt => some .olt
  | .ole => some .ole
  | .one => some .one
  | .ord => some .ord
  | .uno => some .uno
  | .ueq => some .ueq
  | .ugt => some .ugt
  | .uge => some .uge
  | .ult => some .ult
  | .ule => some .ule
  | .une => some .une

/-- The bits of a constant, as `iv_double` or `iv_float` reads them. -/
def constantBits (iv : Value) : BitVec 64 :=
  match iv.cls with
  | .constant u64 => u64
  | _ => 0

/-! ## Compares that give a value -/

def emitCmp2Regs (t : Text) (it : IrType) (ret : Value) (op : Pred) (lhs rhs : BitVec 32) :
    Except Fault Text :=
  match op with
  | .fcmp p =>
    match fcmpOp p with
    | none => .error (.parserError "Can't compare pred %d")
    | some p =>
      match legalizeType it with
      | .float => do emitOp3 t (.fcmpFlt p) (← valueReg ret) lhs rhs
      | .double => do emitOp3 t (.fcmpDbl p) (← valueReg ret) lhs rhs
      | _ => .error (.parserError "Can't fcmp type %s class %d/%d op %d")
  | .icmp p =>
    match legalizeType it with
    | .int8 => do emitOp3 t (.cmp8 p) (← valueReg ret) lhs rhs
    | .int16 => do emitOp3 t (.cmp16 p) (← valueReg ret) lhs rhs
    | .int32 | .pointer => do emitOp3 t (.cmp32 p) (← valueReg ret) lhs rhs
    | .int64 => do emitOp3 t (.cmp64 p) (← valueReg ret) lhs rhs
    | _ => .error (.parserError "Can't icmp type %s class %d/%d op %d")

def emitCmp2Const (h : Host) (iu : IrUnit) (t : Text) (it : IrType) (ret : Value) (op : Pred)
    (lhs : BitVec 32) (rhs : Value) : Except Fault Text :=
  match op with
  | .fcmp p =>
    match fcmpOp p with
    | none => .error (.parserError "Can't compare pred %d (const)")
    | some p =>
      match legalizeType it with
      | .double => do
        if h.dbl.isnan (constantBits rhs) then
          throw (.parserError "Ugh, immediate is nan in fcmp")
        let t ← vmAlign32 t true
        let t ← emitOp2 t (.fcmpDblC p) (← valueReg ret) lhs
        emitI64 t (← valueGetConst64 iu rhs)
      | .float => do
        if h.flt.isnan ((constantBits rhs).setWidth 32) then
          throw (.parserError "Ugh, immediate is nan in fcmp")
        let t ← vmAlign32 t true
        let t ← emitOp2 t (.fcmpFltC p) (← valueReg ret) lhs
        emitI32 t (← valueGetConst32 iu rhs)
      | _ => .error (.parserError "Can't fcmp type %s class %d/%d op %d")
  | .icmp p =>
    match legalizeType it with
    | .int8 => do
      let t ← emitOp2 t (.cmp8C p) (← valueReg ret) lhs
      emitI8 iu t ((← valueGetConst32 iu rhs).setWidth 8)
    | .int16 => do
      let t ← emitOp2 t (.cmp16C p) (← valueReg ret) lhs
      emitI16 t ((← valueGetConst32 iu rhs).setWidth 16)
    | .int32 | .pointer => do
      let t ← emitOp2 t (.cmp32C p) (← valueReg ret) lhs
      emitI32 t (← valueGetConst32 iu rhs)
    | .int64 => do
      let t ← vmAlign32 t true
      let t ← emitOp2 t (.cmp64C p) (← valueReg ret) lhs
      emitI64 t (← valueGetConst64 iu rhs)
    | _ => .error (.parserError "Can't icmp type %s class %d/%d op %d")

def emitCmp2Global (iu : IrUnit) (t : Text) (it : IrType) (ret : Value) (op : Pred)
    (lhs : BitVec 32) (rhs : Value) : Except Fault Text :=
  match op with
  | .icmp p =>
    match legalizeType it with
    | .pointer => do
      let t ← emitOp2 t (.cmp32C p) (← valueReg ret) lhs
      emitI32 t (← valueGetConst32 iu rhs)
    | _ => .error (.parserError "Can't icmp type %s class %d/%d op %d")
  | .fcmp _ => .error (.parserError "Can't compare pred %d (const)")

def emitCmp2 (h : Host) (iu : IrUnit) (t : Text) (ret : ValueType) (pred : Pred)
    (lhsValue rhsValue : ValueType) : Except Fault Text := do
  let lhs ← valueGet iu lhsValue.value
  let rhs ← valueGet iu rhsValue.value
  let retV ← valueGet iu ret.value
  let it ← typeGet iu lhsValue.type
  match lhs.cls, rhs.cls with
  | .regframe l, .regframe r => emitCmp2Regs t it retV pred l r
  | .regframe l, .constant _ => emitCmp2Const h iu t it retV pred l rhs
  | .constant _, .regframe r => emitCmp2Const h iu t it retV (swapPred pred) r lhs
  | .regframe l, .globalvar _ => emitCmp2Global iu t it retV pred l rhs
  | .globalvar _, .regframe r => emitCmp2Global iu t it retV (swapPred pred) r lhs
  | _, _ => throw (.parserError "Can't icmp value class %d and %d")

/-! ## Compares in branches -/

/-- `iu_text_alloc` with `iu_branch_fixups`. -/
structure Emission where
  text : Text
  branchFixups : List ℕ

/-- A branching operation, which `branch_fixup` comes back to. -/
def emitFixup (e : Emission) (o : Opcode) (args : List (BitVec 16)) : Except Fault Emission := do
  let t ← emit e.text (.op o :: args.map .half)
  return ⟨t, e.branchFixups ++ [e.text.length]⟩

/-- A block is named by the low bits of its id until `branch_fixup`. -/
def blockUnit (bb : ℕ) : BitVec 16 := BitVec.ofNat 16 bb

def emitCmpBranchRegs (e : Emission) (it : IrType) (op : Pred) (lhs rhs : BitVec 32)
    (trueBranch falseBranch : ℕ) : Except Fault Emission :=
  match op with
  | .icmp p => do
    let c ← match legalizeType it with
      | .int8 => pure (Control.cmpBr8 p)
      | .int32 | .pointer => pure (Control.cmpBr32 p)
      | _ => throw (.parserError "Can't cmpbr type %s class %d/%d op %d")
    emitFixup e (.control c)
      [blockUnit trueBranch, blockUnit falseBranch, lhs.setWidth 16, rhs.setWidth 16]
  | .fcmp _ => .error (.parserError "Can't compare pred %d")

def emitCmpBranchConst (iu : IrUnit) (e : Emission) (it : IrType) (op : Pred) (lhs : BitVec 32)
    (rhs : Value) (trueBranch falseBranch : ℕ) : Except Fault Emission :=
  match op with
  | .icmp p =>
    match legalizeType it with
    | .int8 => do
      let e ← emitFixup e (.control (.cmpBr8C p))
        [blockUnit trueBranch, blockUnit falseBranch, lhs.setWidth 16]
      let t ← emitI8 iu e.text ((← valueGetConst32 iu rhs).setWidth 8)
      return ⟨t, e.branchFixups⟩
    | .int32 | .pointer => do
      let e ← emitFixup e (.control (.cmpBr32C p))
        [blockUnit trueBranch, blockUnit falseBranch, lhs.setWidth 16]
      let t ← emitI32 e.text (← valueGetConst32 iu rhs)
      return ⟨t, e.branchFixups⟩
    | _ => .error (.parserError "Can't cmpbr type %s class %d/%d op %d")
  | .fcmp _ => .error (.parserError "Can't brcmp pred %d (const)")

/-- A compare with the address of a function, whose predicate is not tested. -/
def emitCmpBranchFunction (e : Emission) (op : Pred) (lhs : BitVec 32) (gfid : BitVec 32)
    (trueBranch falseBranch : ℕ) : Except Fault Emission :=
  match op with
  | .icmp p => do
    let e ← emitFixup e (.control (.cmpBr32C p))
      [blockUnit trueBranch, blockUnit falseBranch, lhs.setWidth 16]
    let t ← emitI32 e.text gfid
    return ⟨t, e.branchFixups⟩
  | .fcmp _ => .error .abort

def emitCmpBranch (iu : IrUnit) (e : Emission) (pred : Pred) (lhsValue rhsValue : ValueType)
    (trueBranch falseBranch : ℕ) : Except Fault Emission := do
  let lhs ← valueGet iu lhsValue.value
  let rhs ← valueGet iu rhsValue.value
  let it ← typeGet iu lhsValue.type
  match lhs.cls, rhs.cls with
  | .regframe l, .regframe r => emitCmpBranchRegs e it pred l r trueBranch falseBranch
  | .regframe l, .constant _ | .regframe l, .globalvar _ =>
    emitCmpBranchConst iu e it pred l rhs trueBranch falseBranch
  | .constant _, .regframe r | .globalvar _, .regframe r =>
    emitCmpBranchConst iu e it (swapPred pred) r lhs trueBranch falseBranch
  | .regframe l, .function gfid => emitCmpBranchFunction e pred l gfid trueBranch falseBranch
  | .function gfid, .regframe r =>
    emitCmpBranchFunction e (swapPred pred) r gfid trueBranch falseBranch
  | _, _ => throw (.parserError "Can't brcmp value class %d and %d")

/-! ## Compares in selects -/

/-- The register of an operand of a select; a constant is put into a register that is kept free. -/
def selectOperand (iu : IrUnit) (t : Text) (iv : Value) (scratch : BitVec 32) :
    Except Fault (Text × BitVec 32) :=
  match iv.cls with
  | .regframe reg => .ok (t, reg)
  | .constant _ | .globalvar _ => do
    let t ← emitOp1 t .mov32C scratch
    let t ← emitI32 t (← valueGetConst32 iu iv)
    return (t, scratch)
  | _ => .error (.parserError "Can't cmpselect value %s")

def emitCmpSelectRegs (t : Text) (it : IrType) (op : Pred) (ret : Value)
    (truereg falsereg lhs rhs : BitVec 32) : Except Fault Text :=
  match op with
  | .icmp p => do
    let t ← match legalizeType it with
      | .int32 | .pointer => emitOp t (.sel32 p)
      | _ => throw (.parserError "Can't cmpselect type %s class %d/%d op %d")
    let t ← emitI16 t ((← valueReg ret).setWidth 16)
    let t ← emitI16 t (truereg.setWidth 16)
    let t ← emitI16 t (falsereg.setWidth 16)
    let t ← emitI16 t (lhs.setWidth 16)
    emitI16 t (rhs.setWidth 16)
  | .fcmp _ => .error (.parserError "Can't compare pred %d")

def emitCmpSelectConst (iu : IrUnit) (t : Text) (it : IrType) (op : Pred) (ret : Value)
    (truereg falsereg lhs : BitVec 32) (rhs : Value) : Except Fault Text :=
  match op with
  | .icmp p => do
    let t ← match legalizeType it with
      | .int32 | .pointer => emitOp t (.sel32C p)
      | _ => throw (.parserError "Can't cmpsel type %s class %d/%d op %d")
    let t ← emitI16 t ((← valueReg ret).setWidth 16)
    let t ← emitI16 t (truereg.setWidth 16)
    let t ← emitI16 t (falsereg.setWidth 16)
    let t ← emitI16 t (lhs.setWidth 16)
    emitI32 t (← valueGetConst32 iu rhs)
  | .fcmp _ => .error (.parserError "Can't cmpsel pred %d (const)")

def emitCmpSelect (iu : IrUnit) (t : Text) (ret : ValueType) (pred : Pred)
    (lhsValue rhsValue trueValue falseValue : ValueType) : Except Fault Text := do
  let retV ← valueGet iu ret.value
  let lhs ← valueGet iu lhsValue.value
  let rhs ← valueGet iu rhsValue.value
  let trueval ← valueGet iu trueValue.value
  let falseval ← valueGet iu falseValue.value
  let it ← typeGet iu lhsValue.type
  let (t, truereg) ← selectOperand iu t trueval 0
  let (t, falsereg) ← selectOperand iu t falseval 4
  match lhs.cls, rhs.cls with
  | .regframe l, .regframe r => emitCmpSelectRegs t it pred retV truereg falsereg l r
  | .regframe l, .constant _ | .regframe l, .globalvar _ =>
    emitCmpSelectConst iu t it pred retV truereg falsereg l rhs
  | .constant _, .regframe r | .globalvar _, .regframe r =>
    emitCmpSelectConst iu t it (swapPred pred) retV truereg falsereg r lhs
  | _, _ => throw (.parserError "Can't cmpsel value class %d and %d")

end Vmir.EmitCmp
