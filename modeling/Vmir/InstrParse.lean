import Mathlib.Data.List.Sort
import Vmir.GlobalInit
import Vmir.GlobalPlacement
import Vmir.OperandReads

set_option autoImplicit false

/-!
# Instruction records

`function_rec_handler` and the parse functions of `vmir_instr_parse.c`. An instruction has the numbers
of its record; what they mean is asked later.
-/
namespace Vmir.InstrParse
open Ir IrTypes TypeLayout GlobalInit GlobalPlacement OperandReads

/-- The instructions that a record makes, with the members that the record gives. -/
inductive ParsedInstr
  | unreachable
  | ret (value : Option ValueType)
  | binop (op : BitVec 32) (lhsValue rhsValue : ValueType)
  | cast (op : BitVec 32) (value : ValueType)
  | load (ptr : ValueType)
  | store (ptr value : ValueType)
  | insertval (src replacement : ValueType) (indicies : List (BitVec 32))
  | gep (baseptr : ValueType) (indicies : List GepIndex)
  | cmp2 (op : BitVec 32) (lhsValue rhsValue : ValueType)
  | br (trueBranch : BitVec 32) (rest : Option (BitVec 32 × ValueType))
  | phi (nodes : List PhiNode)
  | call (callee : ValueType) (argv : List Arg)
  | invoke (callee : ValueType) (normalDest unwindDest : BitVec 32) (argv : List Arg)
  | landingpad (type isCleanUp : BitVec 32) (clauses : List LandingpadClause)
  | resume (value : ValueType)
  | switch (value : ValueType) (defblock : BitVec 32) (paths : List Path)
  | alloca (size : BitVec 32) (numItemsValue : ValueType) (alignment : BitVec 32)
  | select (trueValue falseValue pred : ValueType)
  | vaarg (value : ValueType)
  | extractval (value : ValueType) (indicies : List ℕ)
deriving DecidableEq

/-- `ir_attr_t` -/
structure IrAttr where
  groupId : BitVec 32
  index : BitVec 32
  flags : BitVec 64
deriving DecidableEq, Repr

/-- `ir_function_t`: the name, if it has one yet, and the type. -/
structure IrFunction where
  name : Option String
  type : ℕ
  isproto : Bool
deriving DecidableEq, Repr

/-- The unit while a function is parsed. The values of `iu` are those below `iu_next_value`; in
`ahead` are the others, null where none was mentioned. The functions are those that values stand for,
and the blocks hold each instruction with its result. -/
structure FunctionUnit where
  iu : IrUnit
  ahead : List (Option Value)
  aliasReg : ℕ → ℕ
  functions : List IrFunction
  attrsets : List (List IrAttr)
  bbs : List (List (Option ValueType × ParsedInstr))
  currentBb : Option ℕ

abbrev Handler := Parse Fault FunctionUnit

section
variable (u : FunctionUnit)

/-- `iu_next_value` -/
def FunctionUnit.nextValue : BitVec 32 := BitVec.ofNat 32 u.iu.values.length

/-- The length of `iu_values`. -/
def FunctionUnit.numValues : ℕ := u.iu.values.length + u.ahead.length

/-- `value_get`, for a value that is looked at. -/
def FunctionUnit.valueGet (index : ℕ) : Except Fault Value :=
  if index < u.iu.values.length then IrTypes.valueGet u.iu index
  else
    match u.ahead[index - u.iu.values.length]? with
    | none => .error (.parserError "Bad value index %d")
    | some none => .error .nullDeref
    | some (some iv) => .ok iv

/-- A value that was not defined yet gets its type. -/
def FunctionUnit.declareValue (val type : ℕ) : FunctionUnit :=
  let k := val - u.iu.values.length
  let ahead := u.ahead ++ List.replicate (k + 1 - u.ahead.length) none
  let cls :=
    match ahead[k]? with
    | some (some iv) => iv.cls
    | _ => .undef
  { u with ahead := ahead.set k (some ⟨cls, type⟩) }

/-- `value_append`, for a value of this class and type. -/
def FunctionUnit.valueAppend (iv : Value) : FunctionUnit :=
  { u with iu := { u.iu with values := u.iu.values ++ [iv] }, ahead := u.ahead.tail }

/-- `type_make_pointer` that may create the type. A pointee of -1 is that of a void pointer. -/
def FunctionUnit.makePointer (type : ℕ) : FunctionUnit × ℕ :=
  match typeMakePointer u.iu (BitVec.ofNat 32 type) with
  | some i => (u, i)
  | none =>
    let pointee := if BitVec.ofNat 32 type = -1 then none else some type
    ({ u with iu := { u.iu with types := u.iu.types ++ [.pointer pointee] } }, u.iu.types.length)

/-- `type_make`, for `IR_TYPE_INT1`. -/
def FunctionUnit.makeInt1 : FunctionUnit × ℕ :=
  match u.iu.types.findIdx? fun it => it.code = .int1 with
  | some i => (u, i)
  | none => ({ u with iu := { u.iu with types := u.iu.types ++ [.int1] } }, u.iu.types.length)

def FunctionUnit.put (i : Option ValueType × ParsedInstr) : FunctionUnit :=
  match u.currentBb with
  | some k => { u with bbs := u.bbs.modify k fun is => is ++ [i] }
  | none => u

end

/-! ## Operands -/

/-- A value below `iu_next_value`, or any other with its type. -/
def instrGetVtp : Handler ValueType := do
  let c ← argc
  if c.toInt < 1 then fail (.parserError "Missing value code")
  else do
    let a ← arg 0
    let u ← getUnit
    let val := (u.nextValue - a.setWidth 32).toNat
    if val < u.nextValue.toNat then do
      advance 1
      let iv ← lift (u.valueGet val)
      pure ⟨val, iv.type⟩
    else do
      let type ← arg 1
      -- Room for twice as many values is asked for, in 32 bits; no table has so many.
      if 2 ^ 31 ≤ val + 1 then fail .nullDeref
      else do
        modifyUnit fun u => u.declareValue val (indexOf type)
        advance 2
        pure ⟨val, indexOf type⟩

def instrGetValue (type : ℕ) : Handler ValueType := do
  let c ← argc
  if c.toInt < 1 then fail (.parserError "Missing value code")
  else do
    let a ← arg 0
    advance 1
    let u ← getUnit
    pure ⟨(u.nextValue - a.setWidth 32).toNat, type⟩

def instrGetValueSigned (type : ℕ) : Handler ValueType := do
  let c ← argc
  if c.toInt < 1 then fail (.parserError "Missing value code")
  else do
    let a ← arg 0
    advance 1
    let u ← getUnit
    pure ⟨(u.nextValue - (readSignRotated a).setWidth 32).toNat, type⟩

def instrGetUint : Handler (BitVec 32) := do
  let c ← argc
  if c.toInt < 1 then fail (.parserError "Missing argument")
  else do
    let a ← arg 0
    advance 1
    pure (a.setWidth 32)

/-- `printargs` -/
def printargs {υ : Type} : Parse Fault υ Unit := do
  let c ← argc
  let _ ← forArgs (fun _ => forArgs arg c.toNat 0) 2 0
  pure ()

/-- `instr_add`, which needs a block. The members of the instruction are set later. -/
def instrAdd : Handler Unit := do
  let u ← getUnit
  match u.currentBb with
  | some _ => pure ()
  | none => fail .nullDeref

def instrSet (i : ParsedInstr) : Handler Unit := modifyUnit fun u => u.put (none, i)

/-- `value_alloc_instr_ret`, with the members of the instruction. -/
def valueAllocInstrRet (type : ℕ) (i : ParsedInstr) : Handler Unit := modifyUnit fun u =>
  (u.put (some ⟨u.iu.values.length, type⟩, i)).valueAppend ⟨.temporary, type⟩

/-- `iu_current_bb = TAILQ_NEXT(iu_current_bb, ib_link)` -/
def nextBb : Handler Unit := do
  let u ← getUnit
  match u.currentBb with
  | some k => modifyUnit fun u =>
    { u with currentBb := if k + 1 < u.bbs.length then some (k + 1) else none }
  | none => fail .nullDeref

/-! ## Instructions -/

def parseRet : Handler Unit := do
  instrAdd
  let c ← argc
  if c = 0 then instrSet (.ret none)
  else do
    let value ← instrGetVtp
    instrSet (.ret (some value))

def parseUnreachable : Handler Unit := do
  instrAdd
  instrSet .unreachable

def parseBinop : Handler Unit := do
  instrAdd
  let lhsValue ← instrGetVtp
  let rhsValue ← instrGetValue lhsValue.type
  let op ← instrGetUint
  valueAllocInstrRet lhsValue.type (.binop op lhsValue rhsValue)

def parseCast : Handler Unit := do
  instrAdd
  let value ← instrGetVtp
  let type ← instrGetUint
  let op ← instrGetUint
  valueAllocInstrRet type.toNat (.cast op value)

def parseLoad : Handler Unit := do
  instrAdd
  let ptr ← instrGetVtp
  let c ← argc
  if c = 3 then do
    let type ← arg 0
    valueAllocInstrRet (indexOf type) (.load ptr)
  else do
    let u ← getUnit
    let type ← lift (typeGetPointee u.iu ptr.type)
    valueAllocInstrRet type (.load ptr)

def parseStore (old : Bool) : Handler Unit := do
  instrAdd
  let ptr ← instrGetVtp
  if old then do
    let u ← getUnit
    let type ← lift (typeGetPointee u.iu ptr.type)
    let value ← instrGetValue type
    instrSet (.store ptr value)
  else do
    let value ← instrGetVtp
    instrSet (.store ptr value)

def parseInsertval : Handler Unit := do
  let src ← instrGetVtp
  let replacement ← instrGetVtp
  let numIndices ← argc
  instrAdd
  let indicies ← forArgs (fun _ => instrGetUint) numIndices.toInt.toNat 0
  valueAllocInstrRet src.type (.insertval src replacement indicies)

def gepElement (u : FunctionUnit) (ct : IrType) (iv : Value) : Except Fault ℕ :=
  match ct with
  | .pointer (some pointee) => .ok pointee
  | .pointer none => .ok (-1 : BitVec 32).toNat
  | .struct s =>
    match iv.cls with
    | .constant _ => do
      let element ← valueGetConst32 u.iu iv
      if (s.elements.length : ℤ) ≤ element.toInt then
        .error (.parserError "Bad index %d into struct %s")
      else
        match s.elements[element.toNat]? with
        | some e => .ok e.type
        | none => .error .nullDeref
    | _ => .error (.parserError "Bad value class %d for struct index")
  | .array _ elementType => .ok elementType
  | _ => .error (.parserError "gep unable to index %s")

/-- The indices with their types, and the type that they lead to. -/
def gepIndicies (u : FunctionUnit) : ℕ → List ValueType → Except Fault (List GepIndex × ℕ)
  | type, [] => .ok ([], type)
  | type, value :: values => do
    let iv ← u.valueGet value.value
    let ct ← typeGet u.iu type
    let inner ← gepElement u ct iv
    let (indicies, last) ← gepIndicies u inner values
    .ok (⟨value, type⟩ :: indicies, last)

/-- `FUNC_CODE_INST_GEP` has two operands in front of the base pointer. -/
def parseGep (isGep : Bool) : Handler Unit := do
  if isGep then advance 2 else pure ()
  let baseptr ← instrGetVtp
  let c ← argc
  let values ← whileArgs .outOfFuel (fun _ => instrGetVtp) (c.toNat + 1) 0
  instrAdd
  let u ← getUnit
  let (indicies, type) ← lift (gepIndicies u baseptr.type values)
  modifyUnit fun u => (u.makePointer type).1
  valueAllocInstrRet (u.makePointer type).2 (.gep baseptr indicies)

def parseCmp2 : Handler Unit := do
  instrAdd
  let lhsValue ← instrGetVtp
  let rhsValue ← instrGetValue lhsValue.type
  let op ← instrGetUint
  let u ← getUnit
  match u.iu.types.findIdx? fun it => it.code = .int1 with
  | some type => valueAllocInstrRet type (.cmp2 op lhsValue rhsValue)
  | none => fail (.parserError "Unable to find type class %d")

def parseBr : Handler Unit := do
  instrAdd
  let trueBranch ← instrGetUint
  let c ← argc
  if c = 0 then instrSet (.br trueBranch none)
  else do
    let falseBranch ← instrGetUint
    let u ← getUnit
    modifyUnit fun u => u.makeInt1.1
    let condition ← instrGetValue u.makeInt1.2
    instrSet (.br trueBranch (some (falseBranch, condition)))

/-- `phi_sort` -/
def phiSort (nodes : List PhiNode) : List PhiNode :=
  nodes.mergeSort fun a b =>
    (BitVec.ofNat 32 a.predecessor - BitVec.ofNat 32 b.predecessor).toInt ≤ 0

def parsePhi : Handler Unit := do
  let type ← instrGetUint
  let c ← argc
  instrAdd
  let nodes ← forArgs (fun _ => do
    let value ← instrGetValueSigned type.toNat
    let predecessor ← instrGetUint
    pure (⟨predecessor.toNat, value⟩ : PhiNode)) (c.toNat / 2) 0
  match phiSort nodes with
  | [] => fail .nullDeref -- The node that is counted was never made.
  | n :: ns => valueAllocInstrRet type.toNat (.phi (n :: dropRepeatedPredecessors n ns))

def resolveAlias (u : FunctionUnit) : ℕ → ℕ → Except Fault (ℕ × Value)
  | 0, _ => .error .outOfFuel
  | fuel + 1, value => do
    let fn ← u.valueGet value
    if fn.cls = .alias then resolveAlias u fuel (u.aliasReg value) else .ok (value, fn)

def droppedFunctions : List String :=
  ["llvm.lifetime.start", "llvm.lifetime.end", "llvm.prefetch", "llvm.va_end"]

/-- The type of the function that is called, none if the call is dropped. -/
def calleeType (u : FunctionUnit) (fn : Value) : Except Fault (Option IrType) :=
  match fn.cls with
  | .function gfid =>
    match u.functions[gfid.toNat]?.bind IrFunction.name with
    | none => .error .nullDeref
    | some name =>
      if name ∈ droppedFunctions then .ok none
      else do
        let fnty ← typeGet u.iu fn.type
        .ok (some fnty)
  | .temporary | .regframe _ => do
    let pointee ← typeGetPointee u.iu fn.type
    let fnty ← typeGet u.iu pointee
    .ok (some fnty)
  | _ => .error (.parserError "Funcation call via value '%s' not supported")

/-- What is known of a call before its arguments are read: the callee, the type of the result, and the
types of the parameters; none if the call is dropped. -/
def calleeOf (u : FunctionUnit) (fnidx : ValueType) (cc : BitVec 32) :
    Except Fault (Option (ValueType × ℕ × List ℕ)) := do
  let (value, fn) ← resolveAlias u (u.numValues + 1) fnidx.value
  match ← calleeType u fn with
  | none => .ok none
  | some (.function _ returnType parameters) =>
    if cc &&& (1 <<< 14) ≠ 0 then .error (.parserError "Can't handle must-tail call to %s")
    else .ok (some (⟨value, fnidx.type⟩, returnType, parameters))
  | some _ => .error (.parserError "Call to non-function type %s")

/-- An argument: behind the parameters it has its type. -/
def callArg (parameters : List ℕ) (n : ℕ) : Handler ValueType :=
  match parameters[n]? with
  | some type => instrGetValue type
  | none => instrGetVtp

/-- `copy_size` by the attributes of an argument. -/
def applyAttr (u : FunctionUnit) (depth : ℕ) (args : List Arg) (ia : IrAttr) :
    Except Fault (List Arg) :=
  let i := (ia.index - 1).toInt
  if ia.index = 0 then .ok args
  else if (args.length : ℤ) ≤ i then .ok args
  else if ia.flags &&& (1 <<< 3) = 0 then .ok args
  else
    match args[i.toNat]? with
    | none => .error .nullDeref
    | some a => do
      if i < 0 then .error .nullDeref
      else do
        let ty ← typeGet u.iu a.value.type
        match ty with
        | .pointer pointee => do
          let size ← typeSizeof u.iu depth (pointee.getD (-1 : BitVec 32).toNat)
          .ok (args.set i.toNat ⟨a.value, size.toNat⟩)
        | _ => .error (.parserError "Copy-by-value on non-pointer %s")

def applyAttrs (u : FunctionUnit) (depth : ℕ) (attributeSet : BitVec 32) (args : List Arg) :
    Except Fault (List Arg) :=
  match u.attrsets[attributeSet.toNat]? with
  | some ias => ias.foldlM (applyAttr u depth) args
  | none => .ok args

/-- The destinations, and the operand that an explicit type takes. -/
def callHeader (invoke : Bool) (cc : BitVec 32) : Handler (BitVec 32 × BitVec 32) :=
  if invoke then do
    let normalDest ← instrGetUint
    let unwindDest ← instrGetUint
    if cc &&& 0x2000 ≠ 0 then advance 1 else pure ()
    pure (normalDest, unwindDest)
  else do
    if cc &&& 0x8000 ≠ 0 then advance 1 else pure ()
    pure (-1, -1)

/-- The callee and the arguments, and what is made of them unless the call is dropped. -/
def callFrom (cc : BitVec 32) (make : ValueType → ℕ → List ValueType → Handler Unit) :
    Handler Unit := do
  let fnidx ← instrGetVtp
  let u ← getUnit
  match ← lift (calleeOf u fnidx cc) with
  | none => pure ()
  | some (callee, returnType, parameters) => do
    let c ← argc
    let values ← whileArgs .outOfFuel (callArg parameters) (c.toNat + 1) 0
    make callee returnType values

/-- The instruction, with the attributes of its arguments. -/
def makeCall (depth : ℕ) (attributeSet : BitVec 32) (cls : ValueType → List Arg → ParsedInstr)
    (callee : ValueType) (returnType : ℕ) (values : List ValueType) : Handler Unit := do
  instrAdd
  let u ← getUnit
  let argv ← lift (applyAttrs u depth attributeSet (values.map fun v => ⟨v, 0⟩))
  let rety ← lift (typeGet u.iu returnType)
  if rety = .void then instrSet (cls callee argv)
  else valueAllocInstrRet returnType (cls callee argv)

def parseCallOrInvoke (depth : ℕ) (invoke : Bool) : Handler Unit := do
  let attributeSet ← instrGetUint
  let cc ← instrGetUint
  let (normalDest, unwindDest) ← callHeader invoke cc
  callFrom cc (makeCall depth (attributeSet - 1) fun callee argv =>
    if invoke then .invoke callee normalDest unwindDest argv else .call callee argv)

def parseLandingpad (old : Bool) : Handler Unit := do
  let type ← instrGetUint
  if old then do
    let _ ← instrGetVtp
    pure ()
  else pure ()
  let isCleanUp ← instrGetUint
  let numClauses ← instrGetUint
  instrAdd
  let clauses ← forArgs (fun _ => do
    let clause ← instrGetUint
    let isCatch ← instrGetUint
    pure (⟨isCatch.toNat, clause.toNat⟩ : LandingpadClause)) numClauses.toNat 0
  valueAllocInstrRet type.toNat (.landingpad type isCleanUp clauses)

def parseResume : Handler Unit := do
  instrAdd
  let value ← instrGetVtp
  instrSet (.resume value)

def switchMask (width : ℕ) : BitVec 64 := if width = 64 then ~~~1 else (1 <<< width) - 1

def switchValue (u : FunctionUnit) (typeid : BitVec 32) (mask : BitVec 64) (val : BitVec 32) :
    Except Fault (BitVec 64) := do
  let iv ← u.valueGet val.toNat
  match iv.cls with
  | .constant _ =>
    if iv.type ≠ typeid.toNat then
      .error (.parserError "Type mismatch for switch/case values")
    else do
      let v64 ← valueGetConst64 u.iu iv
      .ok (v64 &&& mask)
  | _ => .error (.parserError "Switch on non-constant value")

def parseSwitch : Handler Unit := do
  let typeid ← instrGetUint
  let value ← instrGetValue typeid.toNat
  let defblock ← instrGetUint
  let c ← argc
  instrAdd
  let u ← getUnit
  let it ← lift (typeGet u.iu typeid.toNat)
  let width ← lift (typeBitwidth it)
  let paths ← forArgs (fun _ => do
    let val ← instrGetUint
    let block ← instrGetUint
    let v64 ← lift (switchValue u typeid (switchMask width) val)
    pure (⟨v64, block.toNat⟩ : Path)) (c.toNat / 2) 0
  instrSet (.switch value defblock (paths.mergeSort fun a b => a.v64.toNat ≤ b.v64.toNat))

def parseAlloca (depth : ℕ) : Handler Unit := do
  let c ← argc
  if c ≠ 4 then fail (.parserError "Invalid number of args to alloca")
  else do
    let flags ← arg 3
    instrAdd
    let rtype ← arg 0
    let u ← getUnit
    let explicitType := flags.setWidth 32 &&& (1 <<< 6) ≠ (0 : BitVec 32)
    let pointee ← lift
      (if explicitType then .ok (indexOf rtype) else typeGetPointee u.iu (indexOf rtype))
    let size ← lift (typeSizeof u.iu depth pointee)
    let made := if explicitType then u.makePointer (indexOf rtype) else (u, indexOf rtype)
    modifyUnit fun _ => made.1
    let numItems ← arg 2
    let numItemsType ← arg 1
    valueAllocInstrRet made.2 (.alloca size ⟨indexOf numItems, indexOf numItemsType⟩
      (vmirLlvmAlignment (flags.setWidth 32 &&& 0x1f) 4))

def parseVselect : Handler Unit := do
  instrAdd
  let trueValue ← instrGetVtp
  let falseValue ← instrGetValue trueValue.type
  let pred ← instrGetVtp
  valueAllocInstrRet trueValue.type (.select trueValue falseValue pred)

def parseVaarg : Handler Unit := do
  instrAdd
  let type ← arg 0
  advance 1
  let value ← instrGetValue (indexOf type)
  let rtype ← instrGetUint
  valueAllocInstrRet rtype.toNat (.vaarg value)

def extractElement (ty : IrType) (idx : BitVec 32) : Except Fault ℕ :=
  match ty with
  | .struct s =>
    if (s.elements.length : ℤ) ≤ idx.toInt then
      .error (.parserError "Bad index %d into struct in extractval")
    else
      match s.elements[idx.toNat]? with
      | some e => .ok e.type
      | none => .error .nullDeref
  | .array _ elementType => .ok elementType
  | _ => .error (.parserError "Bad type %s into struct in extractval")

/-- The indices from `i` on, and the type that they lead to. -/
def extractIndicies : ℕ → ℕ → ℕ → Handler (List ℕ × ℕ)
  | 0, _, type => pure ([], type)
  | n + 1, i, type => do
    let u ← getUnit
    let ty ← lift (typeGet u.iu type)
    let idx ← arg i
    let inner ← lift (extractElement ty (idx.setWidth 32))
    let (indicies, last) ← extractIndicies n (i + 1) inner
    pure (indexOf idx :: indicies, last)

def parseExtractval : Handler Unit := do
  let base ← instrGetVtp
  let numIndicies ← argc
  instrAdd
  let (indicies, type) ← extractIndicies numIndicies.toInt.toNat 0 base.type
  valueAllocInstrRet type (.extractval base indicies)

/-! ## Records -/

/-- `FUNC_CODE_*` -/
inductive FunctionCode
  | declareblocks | instBinop | instCast | instGepOld | instRet | instBr | instSwitch | instInvoke
  | instUnreachable | instPhi | instAlloca | instLoad | instVaarg | instStoreOld | instExtractval
  | instInsertval | instCmp2 | instVselect | instInboundsGepOld | instCall | instResume
  | instLandingpadOld | instLoadatomic | instStoreatomicOld | instGep | instStore | instStoreatomic
  | instLandingpad
deriving DecidableEq, Repr

def functionCodeOf (op : BitVec 32) : Option FunctionCode :=
  [(1, .declareblocks), (2, .instBinop), (3, .instCast), (4, .instGepOld), (10, .instRet),
    (11, .instBr), (12, .instSwitch), (13, .instInvoke), (15, .instUnreachable), (16, .instPhi),
    (19, .instAlloca), (20, .instLoad), (23, .instVaarg), (24, .instStoreOld), (26, .instExtractval),
    (27, .instInsertval), (28, .instCmp2), (29, .instVselect), (30, .instInboundsGepOld),
    (34, .instCall), (39, .instResume), (40, .instLandingpadOld), (41, .instLoadatomic),
    (42, .instStoreatomicOld), (43, .instGep), (44, .instStore), (45, .instStoreatomic),
    (47, .instLandingpad)].lookup op.toNat

def declareBlocks : Handler Unit := do
  let u ← getUnit
  if u.bbs ≠ [] then fail (.parserError "Multiple BB decl in function")
  else do
    let a ← arg 0
    let numbbs := indexOf a
    if numbbs = 0 then fail (.parserError "Declareblocks: Zero basic blocks")
    else if 65535 < numbbs then
      fail (.parserError "Declareblocks: Too many basic blocks: %d")
    else modifyUnit fun u => { u with bbs := List.replicate numbbs [], currentBb := some 0 }

def functionRec (depth : ℕ) : FunctionCode → Handler Unit
  | .declareblocks => declareBlocks
  | .instRet => do
    parseRet
    nextBb
  | .instBinop => parseBinop
  | .instCast => parseCast
  | .instLoad | .instLoadatomic => parseLoad
  | .instStoreOld | .instStoreatomicOld => parseStore true
  | .instStore | .instStoreatomic => parseStore false
  | .instInboundsGepOld | .instGepOld => parseGep false
  | .instGep => parseGep true
  | .instCmp2 => parseCmp2
  | .instBr => do
    parseBr
    nextBb
  | .instPhi => parsePhi
  | .instInvoke => do
    parseCallOrInvoke depth true
    nextBb
  | .instCall => parseCallOrInvoke depth false
  | .instSwitch => do
    parseSwitch
    nextBb
  | .instAlloca => parseAlloca depth
  | .instUnreachable => do
    parseUnreachable
    nextBb
  | .instVselect => parseVselect
  | .instVaarg => parseVaarg
  | .instExtractval => parseExtractval
  | .instLandingpadOld => parseLandingpad true
  | .instLandingpad => parseLandingpad false
  | .instInsertval => parseInsertval
  | .instResume => do
    parseResume
    nextBb

def functionRecHandler (depth : ℕ) (op : BitVec 32) : Handler Unit :=
  match functionCodeOf op with
  | some code => functionRec depth code
  | none => do
    printargs
    fail (.parserError "Can't handle functioncode %d")

end Vmir.InstrParse
