import Vmir.ProgramText

set_option autoImplicit false

/-!
# Emission of loads

`emit_load1` and `emit_load`: the address of a load is a register, a register with an immediate
offset and a scaled index register, or known.
-/
namespace Vmir.EmitLoad
open Ir VmOps IrTypes ProgramText

/-- The operations of a load: from a register, with an immediate offset, with an index register, and
from a known address. -/
structure LoadOps where
  plain : Op
  off : Op
  roff : Op
  global : Op

def loadOps (code : TypeCode) : Option LoadOps :=
  match code with
  | .int8 => some ⟨.load8, .load8Off .none, .load8Roff .none, .load8G⟩
  | .int16 => some ⟨.load16, .load16Off .none, .load16Roff .none, .load16G⟩
  | .int32 | .pointer | .float => some ⟨.load32, .load32Off, .load32Roff, .load32G⟩
  | .int64 | .double => some ⟨.load64, .load64Off, .load64Roff, .load64G⟩
  | _ => none

/-- The operands of an access with an offset: the immediate and, behind it, index and multiplier. -/
def emitOffset (t : Text) (immediateOffset : ℤ) (roff : Option Value) (valueOffsetMultiply : ℤ) :
    Except Fault Text := do
  let t ← emitI16 t (BitVec.ofInt 16 immediateOffset)
  match roff with
  | none => .ok t
  | some roff => do
    let r ← valueReg roff
    let t ← emitI16 t (r.setWidth 16)
    emitI16 t (BitVec.ofInt 16 valueOffsetMultiply)

def cantLoad : Fault := .parserError "Can't load from class %d %s immediate-offset:%d (%s)"

def emitLoad1 (iu : IrUnit) (t : Text) (src ret : Value) (retty : IrType) (roff : Option Value)
    (immediateOffset valueOffsetMultiply : ℤ) : Except Fault Text :=
  if immediateOffset < -2 ^ 15 ∨ 2 ^ 15 ≤ immediateOffset then .error .abort
  else
    let hasOffset := immediateOffset ≠ 0 ∨ roff.isSome
    match src.cls, legalizeType retty with
    | .regframe src, .int1 => if hasOffset then .error cantLoad else do
      emitOp2 t .load8 (← valueReg ret) src
    | .constant _, .int1 | .globalvar _, .int1 => if hasOffset then .error cantLoad else do
      let t ← emitOp1 t .load8G 0
      let t ← emitI32 t (← valueGetConst32 iu src)
      emitOp2 t .cast1Trunc8 (← valueReg ret) 0
    | .regframe src, code =>
      match loadOps code with
      | some ops =>
        if hasOffset then do
          let t ← emitOp2 t (if roff.isSome then ops.roff else ops.off) (← valueReg ret) src
          emitOffset t immediateOffset roff valueOffsetMultiply
        else do
          emitOp2 t ops.plain (← valueReg ret) src
      | none => .error cantLoad
    | .constant _, code | .globalvar _, code =>
      match loadOps code with
      | some ops => if hasOffset then .error cantLoad else do
        let t ← emitOp1 t ops.global (← valueReg ret)
        emitI32 t (← valueGetConst32 iu src)
      | none => .error cantLoad
    | _, _ => .error cantLoad

def castOps (retty pointee : TypeCode) (cast : CastOp) : Option (Op × Op) :=
  match retty, pointee, cast with
  | .int32, .int8, .zext => some (.load8Off .zext, .load8Roff .zext)
  | .int32, .int8, .sext => some (.load8Off .sext, .load8Roff .sext)
  | .int32, .int16, .zext => some (.load16Off .zext, .load16Roff .zext)
  | .int32, .int16, .sext => some (.load16Off .sext, .load16Roff .sext)
  | _, _, _ => none

def emitLoad (iu : IrUnit) (t : Text) (ret ptr : ValueType) (immediateOffset : ℤ)
    (valueOffset : Option ValueType) (valueOffsetMultiply : ℤ) (cast : Option CastOp)
    (loadType : BitVec 8) : Except Fault Text := do
  let src ← valueGet iu ptr.value
  let roff ← valueOffset.mapM fun o => valueGet iu o.value
  let retV ← valueGet iu ret.value
  let retty ← typeGet iu ret.type
  match cast with
  | none => emitLoad1 iu t src retV retty roff immediateOffset valueOffsetMultiply
  | some cast => do
    let pointee ← typeGet iu loadType.toNat
    let src ← valueReg src
    match castOps (legalizeType retty) (legalizeType pointee) cast with
    | some (off, roffOp) => do
      let t ← emitOp2 t (if roff.isSome then roffOp else off) (← valueReg retV) src
      emitOffset t immediateOffset roff valueOffsetMultiply
    | none => .error (.parserError "Can't load+cast to %s from %s cast:%d")

end Vmir.EmitLoad
