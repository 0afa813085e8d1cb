import Vmir.ProgramText

set_option autoImplicit false

namespace Vmir.EmitBinop
open Ir VmOps IrTypes ProgramText

/-- The operator on floating-point numbers; both divisions are the same. -/
def floatOp (binop : Binop) (err : Fault) : Except Fault FloatOp :=
  match binop with
  | .add => .ok .add
  | .sub => .ok .sub
  | .mul => .ok .mul
  | .sdiv | .udiv => .ok .div
  | _ => .error err

def cantDouble : Fault := .parserError "Can't binop %d for double"
def cantFloat : Fault := .parserError "Can't binop %d for float"

def op8 (binop : Binop) : Op :=
  match binop with
  | .sdiv => .sdivR8
  | .srem => .sremR8
  | .ashr => .ashrR8
  | _ => .r32 binop

def op16 (binop : Binop) : Op :=
  match binop with
  | .sdiv => .sdivR16
  | .srem => .sremR16
  | .ashr => .ashrR16
  | _ => .r32 binop

/-- `emit_binop` with both operands in registers. -/
def emitBinopRegs (t : Text) (it : IrType) (binop : Binop) (ret : Value) (lhs rhs : BitVec 32) :
    Except Fault Text := do
  match legalizeType it with
  | .int1 | .int32 => emitOp3 t (.r32 binop) (← valueReg ret) lhs rhs
  | .int8 => emitOp3 t (op8 binop) (← valueReg ret) lhs rhs
  | .int16 => emitOp3 t (op16 binop) (← valueReg ret) lhs rhs
  | .int64 => emitOp3 t (.r64 binop) (← valueReg ret) lhs rhs
  | .double =>
    let op ← floatOp binop cantDouble
    emitOp3 t (.dbl op) (← valueReg ret) lhs rhs
  | .float =>
    let op ← floatOp binop cantFloat
    emitOp3 t (.flt op) (← valueReg ret) lhs rhs
  | _ => throw (.parserError "Can't binop types %s")

def emitBinopConst8 (iu : IrUnit) (t : Text) (binop : Binop) (ret : Value) (lhs : BitVec 32)
    (rhs : Value) : Except Fault Text := do
  match binop with
  | .sdiv =>
    let t ← emitOp2 t .sdivR8C (← valueReg ret) lhs
    emitI8 iu t ((← valueGetConst32 iu rhs).setWidth 8)
  | .srem =>
    let t ← emitOp2 t .sremR8C (← valueReg ret) lhs
    emitI8 iu t ((← valueGetConst32 iu rhs).setWidth 8)
  | .ashr =>
    let t ← emitOp2 t .ashrR8C (← valueReg ret) lhs
    emitI8 iu t ((← valueGetConst32 iu rhs).setWidth 8)
  | _ =>
    let t ← emitOp2 t (.r16C binop) (← valueReg ret) lhs
    emitI16 t (((← valueGetConst32 iu rhs) &&& 0xff).setWidth 16)

/-- `emit_binop` with a constant on the right. -/
def emitBinopConst (iu : IrUnit) (t : Text) (it : IrType) (binop : Binop) (ret : Value)
    (lhs : BitVec 32) (rhs : Value) : Except Fault Text := do
  match legalizeType it with
  | .int8 => emitBinopConst8 iu t binop ret lhs rhs
  | .int16 =>
    let t ← emitOp2 t (.r16C binop) (← valueReg ret) lhs
    emitI16 t ((← valueGetConst32 iu rhs).setWidth 16)
  | .int1 | .int32 =>
    let u32 ← valueGetConst32 iu rhs
    if (binop = .add ∧ u32 = 1) ∨ (binop = .sub ∧ u32 = -1) then
      emitOp2 t .incR32 (← valueReg ret) lhs
    else if (binop = .add ∧ u32 = -1) ∨ (binop = .sub ∧ u32 = 1) then
      emitOp2 t .decR32 (← valueReg ret) lhs
    else
      let t ← emitOp2 t (.r32C binop) (← valueReg ret) lhs
      emitI32 t (← valueGetConst32 iu rhs)
  | .int64 =>
    let t ← vmAlign32 t true
    let t ← emitOp2 t (.r64C binop) (← valueReg ret) lhs
    emitI64 t (← valueGetConst64 iu rhs)
  | .double =>
    let op ← floatOp binop cantDouble
    let t ← vmAlign32 t true
    let t ← emitOp2 t (.dblC op) (← valueReg ret) lhs
    emitI64 t (← valueGetConst64 iu rhs)
  | .float =>
    let op ← floatOp binop cantFloat
    let t ← vmAlign32 t true
    let t ← emitOp2 t (.fltC op) (← valueReg ret) lhs
    emitI32 t (← valueGetConst32 iu rhs)
  | _ => throw (.parserError "Can't binop types %s")

def emitBinop (iu : IrUnit) (t : Text) (iiRet : ValueType) (binop : Binop)
    (lhsValue rhsValue : ValueType) : Except Fault Text := do
  let lhs ← valueGet iu lhsValue.value
  let rhs ← valueGet iu rhsValue.value
  let ret ← valueGet iu iiRet.value
  let it ← typeGet iu lhsValue.type
  match lhs.cls, rhs.cls with
  | .regframe lhsreg, .regframe rhsreg => emitBinopRegs t it binop ret lhsreg rhsreg
  | .regframe lhsreg, .constant _ => emitBinopConst iu t it binop ret lhsreg rhs
  | _, _ => throw (.parserError "Can't binop value class %d and %d")

end Vmir.EmitBinop
