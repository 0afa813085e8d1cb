import Vmir.DefUse
import Vmir.GepLowering

set_option autoImplicit false

/-!
# Replacing instructions

`replace_instructions` walks over the instructions of each block. What it does with one returns the
instruction from which the walk goes on.
-/
namespace Vmir.ReplaceInstructions
open Ir IrTypes ConstExprs GepLowering
open DefUse (Linked Block)

/-- `if_vmop`, 0 if there is none, and `if_vmop_args`. -/
structure FunctionInfo where
  vmop : ℕ
  vmopArgs : ℕ

/-- `VM_NOP` -/
def vmNop : ℕ := 488

/-- `VM_VASTART` -/
def vmVastart : ℕ := 458

/-- What the pass reads and does not change: the functions of the unit, `if_callarg_size`, the
`iv_data` of aggregates, and how deep types are nested. -/
structure Env where
  functions : BitVec 32 → FunctionInfo
  callargSize : BitVec 32
  data : ℕ → List ValueType
  depth : ℕ

/-- The unit, the values with the instructions that they are the result of, the last one bound
first, and the address of the next instruction. A LEA is not changed after it was bound. The
addresses of the instructions to which their rule was applied are noted. -/
structure Pass where
  iu : IrUnit
  outputs : List (ℕ × Linked)
  nextRef : ℕ
  examined : List ℕ

def addInstr (p : Pass) (i : Instr) : Pass :=
  { p with
    outputs := (i.rets.map fun ret => (ret.value, ⟨p.nextRef, i⟩)) ++ p.outputs
    nextRef := p.nextRef + 1 }

def addInstrs : Pass → List Instr → Pass × List Linked
  | p, [] => (p, [])
  | p, i :: is =>
    let r := addInstrs (addInstr p i) is
    (r.1, ⟨p.nextRef, i⟩ :: r.2)

section
variable (p : Pass)

def examine (l : Linked) : Pass := { p with examined := p.examined ++ [l.ref] }

def instrDestroy (l : Linked) : Pass :=
  { p with outputs := p.outputs.filter fun o => o.2.ref ≠ l.ref }

/-- `value_get_assigning_instr`, if it is a LEA. -/
def assigningLea (v : ℕ) : Option InstrClass :=
  let a : Option InstrClass := (p.outputs.find? fun o => o.1 = v).map fun o => o.2.instr.cls
  match a with
  | some (.lea baseptr immediateOffset valueOffset valueOffsetMultiply) =>
    some (.lea baseptr immediateOffset valueOffset valueOffsetMultiply)
  | _ => none

/-- `value_function`, for values that exist. -/
def valueFunction (env : Env) (iu : IrUnit) (v : ℕ) : Option FunctionInfo :=
  match (iu.values[v]?).map Value.cls with
  | some (.function gfid) => some (env.functions gfid)
  | _ => none

/-- The VM operation of the function that is called, 0 if there is none. -/
def vmopOf (env : Env) (iu : IrUnit) (v : ℕ) : ℕ :=
  match valueFunction env iu v with
  | some f => f.vmop
  | none => 0

/-- The instructions that a walk leaves behind, or that the instruction is gone. -/
inductive Visited
  | kept (p : Pass) (instrs : List Linked)
  | removed (p : Pass)

/-! ## The rules -/

def visitGep (env : Env) (l : Linked) (baseptr : ValueType) (indicies : List GepIndex) :
    Except Fault Visited :=
  match l.instr.rets with
  | [ret] => do
    let s ← replaceGepWithLea p.iu env.depth ret baseptr indicies
    let r := addInstrs { p with iu := s.iu } s.before
    .ok (.kept (instrDestroy r.1 l) r.2)
  | _ => .error .abort

def mergeLeaIntoStore (ptr : ValueType) (immediateOffset : ℤ) :
    Except Fault (ValueType × ℤ) := do
  let _ ← valueGet p.iu ptr.value
  match assigningLea p ptr.value with
  | some (.lea baseptr off none _) =>
    if immediateOffset ≠ 0 then .error .abort
    else if off < -32768 ∨ 32767 < off then .ok (ptr, immediateOffset)
    else .ok (⟨baseptr.value, ptr.type⟩, off)
  | _ => .ok (ptr, immediateOffset)

def aggregateElements (env : Env) (iu : IrUnit) (value : ValueType) (s : StructType) :
    Except Fault (Option (IrUnit × List ValueType)) := do
  let iv ← valueGet iu value.value
  match iv.cls with
  | .aggregate =>
    if (env.data value.value).length < s.elements.length then .error .nullDeref
    else .ok (some (iu, (env.data value.value).take s.elements.length))
  | .zeroInitializer =>
    .ok (some ({ iu with values := iu.values ++ s.elements.map fun e => ⟨.constant 0, e.type⟩ },
      s.elements.mapIdx fun i e => ⟨iu.values.length + i, e.type⟩))
  | _ => .ok none

def makePointers (iu : IrUnit) : List StructElement → IrUnit × List ℕ
  | [] => (iu, [])
  | e :: es =>
    let r := makePointer iu e.type
    let rs := makePointers r.1 es
    (rs.1, r.2 :: rs.2)

/-- The stores of the elements: the first is the instruction itself. The layout of an array is read
as that of a struct, which is no memory of the program's. -/
def splitConstStoreAggregate (env : Env) (l : Linked) (ptr value : ValueType)
    (immediateOffset : ℤ) : Except Fault Visited := do
  let iv ← valueGet p.iu value.value
  if iv.cls ≠ .aggregate ∧ iv.cls ≠ .zeroInitializer then
    .ok (.kept p [⟨l.ref, ⟨l.instr.rets, .store ptr value immediateOffset⟩⟩])
  else
    match ← typeGet p.iu value.type with
    | .struct s => do
      match ← aggregateElements env p.iu value s with
      | none => .ok (.kept p [⟨l.ref, ⟨l.instr.rets, .store ptr value immediateOffset⟩⟩])
      | some (iu, values) =>
        let (iu, types) := makePointers iu s.elements
        match (s.elements.zip (values.zip types)).map fun e =>
            InstrClass.store ⟨ptr.value, e.2.2⟩ e.2.1 (immediateOffset + e.1.offset.toInt) with
        | [] => .error .nullDeref
        | first :: rest =>
          let r := addInstrs { p with iu := iu } (rest.map fun store => ⟨[], store⟩)
          .ok (.kept r.1 (⟨l.ref, ⟨l.instr.rets, first⟩⟩ :: r.2))
    | _ => .error .nullDeref

def mergeLeaIntoLoad (l : Linked) (ptr : ValueType) (immediateOffset : ℤ)
    (valueOffset : Option ValueType) (valueOffsetMultiply : ℤ) (cast : Option CastOp)
    (loadType : BitVec 8) : Except Fault Linked := do
  let _ ← valueGet p.iu ptr.value
  match assigningLea p ptr.value with
  | some (.lea baseptr off valueOffset' valueOffsetMultiply') =>
    if immediateOffset ≠ 0 then .error .abort
    else if off < -32768 ∨ 32767 < off then .ok l
    else if valueOffset ≠ none then .error .abort
    else .ok ⟨l.ref, ⟨l.instr.rets, .load ⟨baseptr.value, ptr.type⟩ (immediateOffset + off)
      valueOffset' valueOffsetMultiply' cast loadType⟩⟩
  | _ => .ok ⟨l.ref, ⟨l.instr.rets, .load ptr immediateOffset valueOffset valueOffsetMultiply cast
      loadType⟩⟩

def replaceSinglePathPhi (l : Linked) (nodes : PhiNodes) : Visited :=
  match nodes.nodes with
  | [node] =>
    let r := addInstrs p [⟨l.instr.rets, .move node.value⟩]
    .kept (instrDestroy r.1 l) r.2
  | _ => .kept p [l]

/-- The loop over the arguments of an operation. -/
def registerifyArgs (s : Lowering) : List Arg → Except Fault (Lowering × List Arg)
  | [] => .ok (s, [])
  | a :: argv =>
    if a.copySize ≠ 0 then .error (.parserError "help with vmop registerify")
    else do
      let (s, value) ← registerify s a.value
      let (s, argv) ← registerifyArgs s argv
      .ok (s, ⟨value, a.copySize⟩ :: argv)

def callToVmop (l : Linked) (f : FunctionInfo) (callee : ValueType) (argv : List Arg)
    (normalDest : Option ℕ) : Except Fault Visited :=
  if argv.length < f.vmopArgs then .error (.parserError "Too few arguments for vmop %s")
  else do
    let (s, argv) ← registerifyArgs ⟨p.iu, []⟩ (argv.take f.vmopArgs)
    let moves := addInstrs { p with iu := s.iu } s.before
    let vmop : Linked := ⟨l.ref, ⟨l.instr.rets, .vmop f.vmop callee argv⟩⟩
    match normalDest with
    | none => .ok (.kept moves.1 (moves.2 ++ [vmop]))
    | some dest =>
      -- the walk goes on with the branch, for which there is no rule
      let br := addInstrs moves.1 [⟨[], .br none dest 0⟩]
      .ok (.kept br.1 (moves.2 ++ (vmop :: br.2)))

/-- `replace_call`, where `normal_dest` is that of an INVOKE. -/
def replaceCall (env : Env) (l : Linked) (callee : ValueType) (argv : List Arg)
    (normalDest : Option ℕ) : Except Fault Visited :=
  match valueFunction env p.iu callee.value with
  | none => .ok (.kept p [l])
  | some f =>
    if f.vmop = 0 then .ok (.kept p [l])
    else if f.vmop = vmNop then .ok (.removed (instrDestroy p l))
    else if f.vmop = vmVastart then
      match argv with
      | [] => .error .nullDeref
      | a :: _ =>
        match p.iu.types.findIdx? fun it => it = .int32 with
        | none => .error (.parserError "Unable to find type class %d")
        | some int32 =>
          let size : ValueType := ⟨p.iu.values.length, int32⟩
          let iu := { p.iu with
            values := p.iu.values ++ [⟨.constant (env.callargSize.setWidth 64), int32⟩] }
          let c : Linked := ⟨p.nextRef, ⟨[], .call callee [a, ⟨size, 0⟩]⟩⟩
          callToVmop (instrDestroy { p with iu := iu, nextRef := p.nextRef + 1 } l) c f callee
            [a, ⟨size, 0⟩] none
    else callToVmop p l f callee argv normalDest

def binopPrepArgs (l : Linked) (op : Binop) (lhsValue rhsValue : ValueType) :
    Except Fault Visited := do
  let (s, lhsValue) ← registerify ⟨p.iu, []⟩ lhsValue
  let r := addInstrs { p with iu := s.iu } s.before
  .ok (.kept r.1 (r.2 ++ [⟨l.ref, ⟨l.instr.rets, .binop op lhsValue rhsValue⟩⟩]))

/-- A cast between types of the same representation is a move. -/
def isMove (op : CastOp) (srcty dstty : IrType) : Bool :=
  match op with
  | .bitcast => srcty.code = .pointer ∧ dstty.code = .pointer
  | .inttoptr => srcty.code = .int32
  | .ptrtoint => dstty.code = .int32
  | .trunc => legalizeType dstty = legalizeType srcty
  | _ => false

def binopTransformCast (l : Linked) (op : CastOp) (value : ValueType) : Except Fault Visited :=
  match l.instr.rets with
  | [ret] => do
    let srcty ← typeGet p.iu value.type
    let dstty ← typeGet p.iu ret.type
    if isMove op srcty dstty then .ok (.kept p [⟨l.ref, ⟨l.instr.rets, .move value⟩⟩])
    else .ok (.kept p [l])
  | _ => .error .abort

/-! ## The walk -/

/-- The last two rules, which are the ones for the instruction behind a call that was removed. -/
def visitRest (l : Linked) : Except Fault Visited :=
  match l.instr.cls with
  | .binop op lhsValue rhsValue => binopPrepArgs (examine p l) l op lhsValue rhsValue
  | .cast op value => binopTransformCast (examine p l) l op value
  | _ => .ok (.kept p [l])

/-- The body of the loop. No rule makes an instruction that a later rule is for. -/
def visit (env : Env) (l : Linked) : Except Fault Visited :=
  match l.instr.cls with
  | .gep baseptr indicies => visitGep (examine p l) env l baseptr indicies
  | .store ptr value immediateOffset => do
    let (ptr, immediateOffset) ← mergeLeaIntoStore (examine p l) ptr immediateOffset
    splitConstStoreAggregate (examine p l) env l ptr value immediateOffset
  | .load ptr immediateOffset valueOffset valueOffsetMultiply cast loadType => do
    let merged ← mergeLeaIntoLoad (examine p l) l ptr immediateOffset valueOffset
      valueOffsetMultiply cast loadType
    .ok (.kept (examine p l) [merged])
  | .phi nodes => .ok (replaceSinglePathPhi (examine p l) l nodes)
  | .call callee argv => replaceCall (examine p l) env l callee argv none
  | .invoke callee normalDest _ argv => replaceCall (examine p l) env l callee argv (some normalDest)
  | _ => visitRest p l

/-- The walk over a block, which appends to the instructions that are done. The instruction behind
one that was removed is used in the same round. -/
def replaceInBlock (env : Env) : Pass → List Linked → List Linked →
    Except Fault (Pass × List Linked)
  | p, done, [] => .ok (p, done)
  | p, done, l :: after => do
    match ← visit p env l with
    | .kept p instrs => replaceInBlock env p (done ++ instrs) after
    | .removed p =>
      match after with
      | [] => .error .nullDeref
      | next :: after => do
        match ← visitRest p next with
        | .kept p instrs => replaceInBlock env p (done ++ instrs) after
        | .removed _ => .error .abort

def replaceInBlocks (env : Env) : Pass → List Block → Except Fault (Pass × List Block)
  | p, [] => .ok (p, [])
  | p, b :: bbs => do
    let (p, instrs) ← replaceInBlock env p [] b.instrs
    let (p, bbs) ← replaceInBlocks env p bbs
    .ok (p, ⟨b.id, instrs⟩ :: bbs)

end

structure Parsed where
  iu : IrUnit
  bbs : List Block
  nextRef : ℕ

def Parsed.instrs (f : Parsed) : List Linked := f.bbs.flatMap Block.instrs

def Parsed.outputs (f : Parsed) : List (ℕ × Linked) :=
  (f.instrs.flatMap fun l => l.instr.rets.map fun ret => (ret.value, l)).reverse

def replaceInstructions (env : Env) (f : Parsed) : Except Fault (Pass × List Block) :=
  replaceInBlocks env ⟨f.iu, f.outputs, f.nextRef, []⟩ f.bbs

/-! ## What is asked of it -/

def hasRule : InstrClass → Bool
  | .gep _ _ | .store _ _ _ | .load _ _ _ _ _ _ | .phi _ | .call _ _ | .invoke _ _ _ _
  | .binop _ _ _ | .cast _ _ => true
  | _ => false

/-- The instructions that only the rules in front of the last two are for. -/
def hasEarlyRule : InstrClass → Bool
  | .binop _ _ _ | .cast _ _ => false
  | cls => hasRule cls

def calleeOf : InstrClass → Option ValueType
  | .call callee _ => some callee
  | .invoke callee _ _ _ => some callee
  | _ => none

def inRegister (iu : IrUnit) (v : ℕ) : Prop :=
  ∃ iv, iu.values[v]? = some iv ∧ (iv.cls = .temporary ∨ ∃ reg, iv.cls = .regframe reg)

/-- An instruction as it should be after the pass. -/
def Replaced (env : Env) (iu : IrUnit) (cls : InstrClass) : Prop :=
  match cls with
  | .gep _ _ => False
  | .phi nodes => nodes.nodes.length ≠ 1
  | .call callee _ => vmopOf env iu callee.value = 0
  | .invoke callee _ _ _ => vmopOf env iu callee.value = 0
  | .binop _ lhsValue _ => inRegister iu lhsValue.value
  | _ => True

/-- The pass has left nothing of what it replaces, and has looked at every instruction. -/
structure Complete (env : Env) (f : Parsed) (r : Pass × List Block) : Prop where
  replaced : ∀ b ∈ r.2, ∀ l ∈ b.instrs, Replaced env r.1.iu l.instr.cls
  examined : ∀ l ∈ f.instrs, hasRule l.instr.cls = true → l.ref ∈ r.1.examined

/-- Behind a call that is removed there is an instruction that the first rules are not for. -/
def NoSkips (env : Env) (iu : IrUnit) : List Linked → Prop
  | [] => True
  | l :: ls =>
    ((∃ callee, calleeOf l.instr.cls = some callee ∧ vmopOf env iu callee.value = vmNop) →
      ∃ next rest, ls = next :: rest ∧ hasEarlyRule next.instr.cls = false)
    ∧ NoSkips env iu ls

end Vmir.ReplaceInstructions
