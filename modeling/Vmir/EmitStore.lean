import Vmir.ProgramText

set_option autoImplicit false

/-!
# Emission of stores

`emit_store`: the value is in a register or known, and so is the address. A known value is stored
through a register with the operation that has it as an operand; for a known address it is first
moved to the scratch register.
-/
namespace Vmir.EmitStore
open Ir VmOps IrTypes ProgramText

/-- The operations of a store: of a register, with an immediate offset, of a constant, to a known
address, and the move of a constant in front of the latter. -/
structure StoreOps where
  plain : Op
  off : Op
  constOff : Op
  global : Op
  movC : Op

def storeOps (code : TypeCode) : Option StoreOps :=
  match code with
  | .int1 | .int8 => some ⟨.store8, .store8Off, .store8COff, .store8G, .mov8C⟩
  | .int16 => some ⟨.store16, .store16Off, .store16COff, .store16G, .mov16C⟩
  | .int32 | .pointer | .float | .function =>
    some ⟨.store32, .store32Off, .store32COff, .store32G, .mov32C⟩
  | .int64 | .double => some ⟨.store64, .store64Off, .store64COff, .store64G, .mov64C⟩
  | _ => none

def valueFunctionAddr (iv : Value) : Except Fault (BitVec 32) :=
  match iv.cls with
  | .function gfid => .ok gfid
  | _ => .error .abort

def emitStored (iu : IrUnit) (t : Text) (code : TypeCode) (val : Value) : Except Fault Text :=
  match code with
  | .int1 | .int8 => do emitI8 iu t ((← valueGetConst32 iu val).setWidth 8)
  | .int16 => do emitI16 t ((← valueGetConst32 iu val).setWidth 16)
  | .int64 | .double => do emitI64 t (← valueGetConst64 iu val)
  | .function => do emitI32 t (← valueFunctionAddr val)
  | _ => do emitI32 t (← valueGetConst32 iu val)

def alignStored (t : Text) (code : TypeCode) (immAtOdd : Bool) : Except Fault Text :=
  match code with
  | .int64 | .double => vmAlign32 t immAtOdd
  | _ => .ok t

/-- The known values that can be stored through a register. -/
def storesConst (code : TypeCode) (cls : ValueClass) : Bool :=
  match cls with
  | .constant _ => code != .function
  | .globalvar _ => code == .int32 || code == .pointer || code == .float
  | .function _ => code == .function
  | _ => false

/-- The known values that can be stored to a known address. -/
def storesConstTo (code : TypeCode) (cls ptr : ValueClass) : Bool :=
  match cls, ptr with
  | .constant _, .globalvar _ => code != .function
  | .constant _, .constant _ => code != .function && code != .int1
  | .globalvar _, .globalvar _ | .globalvar _, .constant _ => code == .pointer
  | .function _, .globalvar _ | .function _, .constant _ => code == .function
  | _, _ => false

/-- The types of the registers that can be stored to a known address. -/
def storesRegisterTo (code : TypeCode) (ptr : ValueClass) : Bool :=
  match ptr with
  | .globalvar _ => code != .function
  | .constant _ => code != .function && code != .int1
  | _ => false

def cantStore : Fault :=
  .parserError "Can't store (type %s class %d) ptr class %d off:%d (%s)"

def emitStore (iu : IrUnit) (t : Text) (ptr value : ValueType) (immediateOffset : ℤ) :
    Except Fault Text := do
  let p ← valueGet iu ptr.value
  let val ← valueGet iu value.value
  if immediateOffset < -2 ^ 15 ∨ 2 ^ 15 ≤ immediateOffset then throw .abort
  let it ← typeGet iu value.type
  let code := legalizeType it
  match storeOps code with
  | none => throw cantStore
  | some ops =>
    match val.cls, p.cls with
    | .regframe v, .regframe p =>
      if code = .int1 ∨ code = .function then throw cantStore
      if immediateOffset ≠ 0 then do
        let t ← emitOp2 t ops.off p v
        emitI16 t (BitVec.ofInt 16 immediateOffset)
      else emitOp2 t ops.plain p v
    | .regframe v, cls =>
      if immediateOffset = 0 ∧ storesRegisterTo code cls then do
        let t ← emitOp1 t ops.global v
        emitI32 t (← valueGetConst32 iu p)
      else throw cantStore
    | cls, .regframe p =>
      if storesConst code cls then do
        let t ← alignStored t code true
        let t ← emitOp1 t ops.constOff p
        let t ← emitI16 t (BitVec.ofInt 16 immediateOffset)
        emitStored iu t code val
      else throw cantStore
    | cls, ptrCls =>
      if immediateOffset = 0 ∧ storesConstTo code cls ptrCls then do
        let t ← alignStored t code false
        let t ← emitOp1 t ops.movC 0
        let t ← emitStored iu t code val
        let t ← emitOp1 t ops.global 0
        emitI32 t (← valueGetConst32 iu p)
      else throw cantStore

end Vmir.EmitStore
