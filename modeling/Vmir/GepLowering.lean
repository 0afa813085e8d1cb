import Vmir.ConstExprs
import Vmir.EmitMove

set_option autoImplicit false

/-!
# Lowering of address computations

`parse_gep` notes the type that each index of a `getelementptr` is an index into.
`replace_gep_with_lea` turns it into a chain of LEA instructions, one for each index that is in a
register, and `emit_lea` chooses the operations for them.
-/
namespace Vmir.GepLowering
open Ir IrTypes TypeLayout ConstExprs VmOps ProgramText EmitMove

/-! ## The instruction -/

/-- The pointee of a pointer to nothing is -1, which is no index of a type. -/
def pointeeIndex (pointee : Option ℕ) : ℕ := pointee.getD 0xffffffff

/-- The type that an index leads to. There is no element in front of a struct. -/
def innerType (iu : IrUnit) (type : ℕ) (index : ValueType) : Except Fault ℕ := do
  let op ← valueGet iu index.value
  let ct ← typeGet iu type
  match ct with
  | .pointer pointee => .ok (pointeeIndex pointee)
  | .struct s =>
    match op.cls with
    | .constant _ => do
      let x ← valueGetConst32 iu op
      if x.msb then .error .nullDeref
      else
        match s.elements[x.toNat]? with
        | none => .error (.parserError "Bad index %d into struct %s")
        | some e => .ok e.type
    | _ => .error (.parserError "Bad value class %d for struct index")
  | .array _ elementType => .ok elementType
  | _ => .error (.parserError "gep unable to index %s")

/-- The loop of `parse_gep`, and the type behind the last index. -/
def parseGepIndicies (iu : IrUnit) (type : ℕ) (values : List ValueType) :
    Except Fault (List GepIndex × ℕ) :=
  match values with
  | [] => .ok ([], type)
  | v :: values => do
    let inner ← innerType iu type v
    let (indicies, last) ← parseGepIndicies iu inner values
    .ok (⟨v, type⟩ :: indicies, last)

/-! ## The transformation -/

/-- The unit, and the instructions that were added in front of the one that is replaced. -/
structure Lowering where
  iu : IrUnit
  before : List Instr

/-- `value_alloc_instr_ret`: a new temporary for the result of an instruction. -/
def valueAllocInstrRet (iu : IrUnit) (type : ℕ) : IrUnit × ValueType :=
  ({ iu with values := iu.values ++ [⟨.temporary, type⟩] }, ⟨iu.values.length, type⟩)

def registerify (s : Lowering) (vt : ValueType) : Except Fault (Lowering × ValueType) := do
  let v ← valueGet s.iu vt.value
  match v.cls with
  | .temporary | .regframe _ => .ok (s, vt)
  | .globalvar _ | .constant _ =>
    let (iu, ret) := valueAllocInstrRet s.iu v.type
    .ok (⟨iu, s.before ++ [⟨[ret], .move vt⟩]⟩, ret)
  | _ => .error (.parserError "Unable convert %s (class %d) into register")

/-- The LEA itself, behind the move that its base may need. -/
def addLea (s : Lowering) (ret baseptr : ValueType) (immediateOffset : BitVec 32)
    (valueOffset : Option ValueType) (valueOffsetMultiply : BitVec 32) : Except Fault Lowering := do
  let (s, baseptr) ← registerify s baseptr
  .ok ⟨s.iu, s.before ++ [⟨[ret],
    .lea baseptr immediateOffset.toInt valueOffset valueOffsetMultiply.toInt⟩]⟩

def emitInterimLea (s : Lowering) (baseptr valueOffset : ValueType)
    (valueOffsetMultiply : BitVec 32) (type : ℕ) : Except Fault (Lowering × ValueType) := do
  let (iu, type) := makePointer s.iu type
  let (iu, ret) := valueAllocInstrRet iu type
  let s ← addLea ⟨iu, s.before⟩ ret baseptr 0 (some valueOffset) valueOffsetMultiply
  .ok (s, ret)

structure LeaLoop where
  lowering : Lowering
  baseptr : ValueType
  immediateOffset : BitVec 32
  valueOffset : Option ValueType
  valueOffsetMultiply : BitVec 32

/-- An index into things of the type `inner`; `interim` handles an index register before it. -/
def scaledIndex (depth : ℕ) (g : LeaLoop) (index : ValueType) (inner : ℕ)
    (interim : ValueType → Except Fault LeaLoop) (unsupported : Fault) : Except Fault LeaLoop := do
  let op ← valueGet g.lowering.iu index.value
  match op.cls with
  | .constant _ => do
    let x ← valueGetConst32 g.lowering.iu op
    let size ← typeSizeof g.lowering.iu depth inner
    .ok { g with immediateOffset := g.immediateOffset + x * size }
  | .temporary | .regframe _ => do
    let g ← (match g.valueOffset with
      | none => .ok g
      | some offset => interim offset)
    let size ← typeSizeof g.lowering.iu depth inner
    .ok { g with valueOffset := some index, valueOffsetMultiply := size }
  | _ => .error unsupported

/-- The LEA for the index register before, and the loop behind it. -/
def interimLea (g : LeaLoop) (type : ℕ) (offset : ValueType) : Except Fault LeaLoop := do
  let (s, ret) ← emitInterimLea g.lowering g.baseptr offset g.valueOffsetMultiply type
  .ok { g with lowering := s, baseptr := ret }

def structIndex (g : LeaLoop) (index : ValueType) (s : StructType) : Except Fault LeaLoop := do
  let op ← valueGet g.lowering.iu index.value
  match op.cls with
  | .constant _ => do
    let x ← valueGetConst32 g.lowering.iu op
    if x.msb then .error .nullDeref
    else
      match s.elements[x.toNat]? with
      | none => .error (.parserError "Bad index %d info struct")
      | some e => .ok { g with immediateOffset := g.immediateOffset + e.offset }
  | _ => .error (.parserError "Bad index class %d for struct")

def leaIndex (depth : ℕ) (g : LeaLoop) (i : GepIndex) : Except Fault LeaLoop := do
  let cur ← typeGet g.lowering.iu i.type
  match cur with
  | .pointer pointee =>
    scaledIndex depth g i.value (pointeeIndex pointee) (fun _ => .error .abort)
      (.parserError "GEP: Can't handle class %d as pointee")
  | .struct s => structIndex g i.value s
  | .array _ elementType =>
    scaledIndex depth g i.value elementType (interimLea g i.type)
      (.parserError "GEP: Can't handle class %d as array index")
  | _ => .error (.parserError "Unable to GEP for value type %d")

def replaceGepWithLea (iu : IrUnit) (depth : ℕ) (ret baseptr : ValueType)
    (indicies : List GepIndex) : Except Fault Lowering := do
  let g ← indicies.foldlM (leaIndex depth) ⟨⟨iu, []⟩, baseptr, 0, none, 0⟩
  addLea g.lowering ret g.baseptr g.immediateOffset g.valueOffset g.valueOffsetMultiply

/-! ## Emission -/

/-- The position of the lowest bit that is set, counted from 1; 0 if there is none. -/
def ffs (x : BitVec 32) : ℕ :=
  match (List.range 32).find? fun i => x.getLsbD i with
  | some i => i + 1
  | none => 0

def emitScaledLea (t : Text) (ret baseptr off : BitVec 32) (immediateOffset : BitVec 32)
    (valueOffsetMultiply : BitVec 32) : Except Fault Text :=
  if valueOffsetMultiply = 0 then .error .abort
  else
    let fb := ffs valueOffsetMultiply - 1
    if (1 : BitVec 32) <<< fb = valueOffsetMultiply then
      if immediateOffset ≠ 0 then do
        let t ← emitOp4 t .leaR32ShlOff ret baseptr off (BitVec.ofNat 32 fb)
        emitI32 t immediateOffset
      else if fb = 2 then emitOp3 t .leaR32Shl2 ret baseptr off
      else emitOp4 t .leaR32Shl ret baseptr off (BitVec.ofNat 32 fb)
    else do
      let t ← emitOp3 t .leaR32MulOff ret baseptr off
      let t ← emitI32 t valueOffsetMultiply
      emitI32 t immediateOffset

def emitLea (iu : IrUnit) (t : Text) (ret baseptr : ValueType) (immediateOffset : ℤ)
    (valueOffset : Option ValueType) (valueOffsetMultiply : ℤ) : Except Fault Text := do
  let retV ← valueGet iu ret.value
  let baseptrV ← valueGet iu baseptr.value
  match valueOffset with
  | none => do
    let ret ← valueReg retV
    let base ← valueReg baseptrV
    let t ← emitOp2 t (.r32C .add) ret base
    emitI32 t (BitVec.ofInt 32 immediateOffset)
  | some offset => do
    let off ← valueGet iu offset.value
    let ty ← typeGet iu offset.type
    if legalizeType ty ≠ .int32 then
      .error (.parserError "LEA: Can't handle %s as offset register")
    else do
      let ret ← valueReg retV
      let base ← valueReg baseptrV
      let off ← valueReg off
      emitScaledLea t ret base off (BitVec.ofInt 32 immediateOffset)
        (BitVec.ofInt 32 valueOffsetMultiply)

/-- The two instructions that the chain consists of, in `instr_emit`. -/
def emitInstr (iu : IrUnit) (t : Text) (i : Instr) : Except Fault Text :=
  match i.rets, i.cls with
  | rets, .move value => emitMove iu t rets value
  | [ret], .lea baseptr immediateOffset valueOffset valueOffsetMultiply =>
    emitLea iu t ret baseptr immediateOffset valueOffset valueOffsetMultiply
  | _, _ => .error (.parserError "Unable to emit instruction %d")

def emitChain (iu : IrUnit) (t : Text) (is : List Instr) : Except Fault Text :=
  is.foldlM (emitInstr iu) t

end Vmir.GepLowering
