import Vmir.ProgramText

set_option autoImplicit false

namespace Vmir.EmitMove
open Ir VmOps IrTypes ProgramText

/-- The register and the type code that `emit_move` moves to; two results are one 64-bit register. -/
def moveTarget (iu : IrUnit) (rets : List ValueType) : Except Fault (BitVec 32 × TypeCode) :=
  match rets with
  | r1 :: r2 :: _ => do
    let v1 ← valueGet iu r1.value
    let v2 ← valueGet iu r2.value
    let reg1 ← valueReg v1
    let reg2 ← valueReg v2
    if reg1 + 4 ≠ reg2 ∨ r1.type ≠ r2.type then
      throw (.parserError "Bad aggregate destionation for move")
    let ty ← typeGet iu r1.type
    if legalizeType ty ≠ .int32 then
      throw (.parserError "Bad aggregate destionation type for move")
    return (reg1, .int64)
  | [r] => do
    let ret ← valueGet iu r.value
    let ty ← typeGet iu r.type
    return (← valueReg ret, legalizeType ty)
  | [] => throw (.parserError "Bad value index %d")

def emitMove (iu : IrUnit) (t : Text) (rets : List ValueType) (value : ValueType) :
    Except Fault Text := do
  let src ← valueGet iu value.value
  let (retreg, typecode) ← moveTarget iu rets
  match src.cls, typecode with
  | .constant _, .int8 =>
    let t ← emitOp1 t .mov8C retreg
    emitI8 iu t ((← valueGetConst32 iu src).setWidth 8)
  | .constant _, .int16 =>
    let t ← emitOp1 t .mov16C retreg
    emitI16 t ((← valueGetConst32 iu src).setWidth 16)
  | .constant _, .int1 | .constant _, .int32 | .constant _, .pointer | .constant _, .float =>
    let t ← emitOp1 t .mov32C retreg
    emitI32 t (← valueGetConst32 iu src)
  | .constant _, .int64 | .constant _, .double =>
    let t ← vmAlign32 t false
    let t ← emitOp1 t .mov64C retreg
    emitI64 t (← valueGetConst64 iu src)
  | .globalvar _, .pointer =>
    let t ← emitOp1 t .mov32C retreg
    emitI32 t (← valueGetConst32 iu src)
  | .regframe reg, .int1 | .regframe reg, .int8 | .regframe reg, .int16 | .regframe reg, .int32
  | .regframe reg, .pointer | .regframe reg, .float =>
    emitOp2 t .mov32 retreg reg
  | .regframe reg, .int64 | .regframe reg, .double =>
    emitOp2 t .mov64 retreg reg
  | .function gfid, .function | .function gfid, .pointer =>
    let t ← emitOp1 t .mov32C retreg
    emitI32 t gfid
  | _, _ => throw (.parserError "Can't emit %s")

end Vmir.EmitMove
