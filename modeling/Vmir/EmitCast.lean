import Vmir.EmitMove

set_option autoImplicit false

namespace Vmir.EmitCast
open Ir VmOps IrTypes ProgramText EmitMove

/-- `binop_transform_cast`: whether the cast becomes a move. -/
def binopTransformCast (castop : CastOp) (srcty dstty : IrType) : Bool :=
  match castop with
  | .bitcast => srcty.code = .pointer ∧ dstty.code = .pointer
  | .inttoptr => srcty.code = .int32
  | .ptrtoint => dstty.code = .int32
  | .trunc => legalizeType dstty = legalizeType srcty
  | _ => false

/-- The operation that `emit_cast` chooses, or `none` where it returns before it emits one. -/
def castOp (dstcode : TypeCode) (castop : CastOp) (srccode : TypeCode) :
    Except Fault (Option Op) :=
  match dstcode, castop, srccode with
  | .int1, .trunc, .int8 => .ok (some .cast1Trunc8)
  | .int1, .trunc, .int16 => .ok (some .cast1Trunc16)
  | .int8, .sext, .int1 => .ok (some .cast8Sext1)
  | .int8, .trunc, .int16 => .ok (some .cast8Trunc16)
  | .int8, .trunc, .int32 | .int8, .zext, .int1 => .ok (some .cast8Trunc32)
  | .int8, .trunc, .int64 => .ok (some .cast8Trunc64)
  | .int16, .zext, .int1 => .ok (some .cast16Zext1)
  | .int16, .zext, .int8 => .ok (some .cast16Zext8)
  | .int16, .sext, .int8 => .ok (some .cast16Sext8)
  | .int16, .trunc, .int32 => .ok (some .cast16Trunc32)
  | .int16, .trunc, .int64 => .ok (some .cast16Trunc64)
  | .int16, .fptosi, .float => .ok (some .cast16FptosiFlt)
  | .int16, .fptoui, .float => .ok (some .cast16FptouiFlt)
  | .int16, .fptosi, .double => .ok (some .cast16FptosiDbl)
  | .int16, .fptoui, .double => .ok (some .cast16FptouiDbl)
  | .int32, .trunc, .int64 => .ok (some .cast32Trunc64)
  | .int32, .sext, .int1 => .ok (some .cast32Sext1)
  | .int32, .zext, .int8 => .ok (some .cast32Zext8)
  | .int32, .sext, .int8 => .ok (some .cast32Sext8)
  | .int32, .zext, .int16 => .ok (some .cast32Zext16)
  | .int32, .sext, .int16 => .ok (some .cast32Sext16)
  | .int32, .fptosi, .float => .ok (some .cast32FptosiFlt)
  | .int32, .fptoui, .float => .ok (some .cast32FptouiFlt)
  | .int32, .fptosi, .double => .ok (some .cast32FptosiDbl)
  | .int32, .fptoui, .double => .ok (some .cast32FptouiDbl)
  | .int64, .zext, .int1 => .ok (some .cast64Zext1)
  | .int64, .sext, .int1 => .ok (some .cast64Sext1)
  | .int64, .zext, .int8 => .ok (some .cast64Zext8)
  | .int64, .sext, .int8 => .ok (some .cast64Sext8)
  | .int64, .zext, .int16 => .ok (some .cast64Zext16)
  | .int64, .sext, .int16 => .ok (some .cast64Sext16)
  | .int64, .zext, .int32 => .ok (some .cast64Zext32)
  | .int64, .sext, .int32 => .ok (some .cast64Sext32)
  | .int64, .fptosi, .float => .ok (some .cast64FptosiFlt)
  | .int64, .fptoui, .float => .ok (some .cast64FptouiFlt)
  | .int64, .fptosi, .double => .ok (some .cast64FptosiDbl)
  | .int64, .fptoui, .double => .ok (some .cast64FptouiDbl)
  | .float, .fptrunc, .double => .ok (some .castFltFptruncDbl)
  | .float, .sitofp, .int8 => .ok (some .castFltSitofp8)
  | .float, .uitofp, .int8 => .ok (some .castFltUitofp8)
  | .float, .sitofp, .int16 => .ok (some .castFltSitofp16)
  | .float, .uitofp, .int16 => .ok (some .castFltUitofp16)
  | .float, .sitofp, .int32 => .ok (some .castFltSitofp32)
  | .float, .uitofp, .int32 => .ok (some .castFltUitofp32)
  | .float, .sitofp, .int64 => .ok (some .castFltSitofp64)
  | .float, .uitofp, .int64 => .ok (some .castFltUitofp64)
  | .double, .sitofp, .int8 => .ok (some .castDblSitofp8)
  | .double, .uitofp, .int8 => .ok (some .castDblUitofp8)
  | .double, .sitofp, .int16 => .ok (some .castDblSitofp16)
  | .double, .uitofp, .int16 => .ok (some .castDblUitofp16)
  | .double, .sitofp, .int32 => .ok (some .castDblSitofp32)
  | .double, .uitofp, .int32 => .ok (some .castDblUitofp32)
  | .double, .sitofp, .int64 => .ok (some .castDblSitofp64)
  | .double, .uitofp, .int64 => .ok (some .castDblUitofp64)
  | .double, .fpext, .float => .ok (some .castDblFpextFlt)
  | .int32, .zext, .int1 | .int32, .bitcast, .float | .float, .bitcast, .int32 =>
    .ok (some .mov32)
  | .double, .bitcast, .int64 | .int64, .bitcast, .double => .ok (some .mov64)
  -- `op` is set and the function returns.
  | .int64, .ptrtoint, .pointer => .ok none
  | _, _, _ => .error (.parserError "Unable to convert to %s from %s using castop %d")

def emitCast (iu : IrUnit) (t : Text) (ret : ValueType) (castop : CastOp) (value : ValueType) :
    Except Fault Text := do
  let src ← valueGet iu value.value
  let retV ← valueGet iu ret.value
  let srcty ← typeGet iu value.type
  let dstty ← typeGet iu ret.type
  match ← castOp (legalizeType dstty) castop (legalizeType srcty) with
  | some op => emitOp2 t op (← valueReg retV) (← valueReg src)
  | none => return t

/-- A cast after `binop_transform`: a move, or the cast itself. -/
def emitTransformedCast (iu : IrUnit) (t : Text) (ret : ValueType) (castop : CastOp)
    (value : ValueType) : Except Fault Text := do
  let srcty ← typeGet iu value.type
  let dstty ← typeGet iu ret.type
  if binopTransformCast castop srcty dstty then emitMove iu t [ret] value
  else emitCast iu t ret castop value

end Vmir.EmitCast
