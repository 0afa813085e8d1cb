import Vmir.DeadCode
import Vmir.IrTypes

set_option autoImplicit false

/-!
# Def-use lists

A function as its transformations see it: instructions that are named by their address, and the
links between instructions and values that stand on `ii_values` of the one and on `iv_instructions`
of the other. The functions that make, bind and destroy instructions are the same in all passes.
-/
namespace Vmir.DefUse
open Ir IrTypes
open DeadCode (operands)

structure Linked where
  ref : ℕ
  instr : Instr
deriving DecidableEq

/-- `IVI_INPUT` and `IVI_OUTPUT` -/
inductive Relation
  | input | output
deriving DecidableEq

/-- `ir_value_instr_t` -/
structure Link where
  value : ℕ
  instr : ℕ
  relation : Relation
deriving DecidableEq

/-- `ir_bb_t` -/
structure Block where
  id : ℕ
  instrs : List Linked
deriving DecidableEq

/-- `ir_function_t` with the unit's values and the links, the last one made first; the address of
the next instruction; and the values that `legalize_temporary_values` has made for the elements of a
struct (`iv_data`). -/
structure Function where
  iu : IrUnit
  bbs : List Block
  links : List Link
  nextRef : ℕ
  elements : List (ℕ × List ValueType)

section
variable (f : Function)

def instrs : List Linked := f.bbs.flatMap Block.instrs

def instrAt (r : ℕ) : Except Fault Linked :=
  match (instrs f).find? fun l => l.ref = r with
  | some l => .ok l
  | none => .error .nullDeref

def classOf (v : ℕ) : Option ValueClass := (f.iu.values[v]?).map Value.cls

def isTemporary (v : ℕ) : Bool := decide (classOf f v = some .temporary)

/-- `value_get(iu, v)->iv_class = cls` -/
def setClass (v : ℕ) (cls : ValueClass) : Function :=
  { f with iu := { f.iu with values := f.iu.values.modify v fun iv => { iv with cls := cls } } }

def valueAllocTemporary (type : ℕ) : Function × ValueType :=
  ({ f with iu := { f.iu with values := f.iu.values ++ [⟨.temporary, type⟩] } },
    ⟨f.iu.values.length, type⟩)

def valueBindInstr (v r : ℕ) (relation : Relation) : Function :=
  { f with links := ⟨v, r, relation⟩ :: f.links }

def instrBindInput (vt : ValueType) (r : ℕ) : Function :=
  if isTemporary f vt.value then valueBindInstr f vt.value r .input else f

def instrBindClear (r : ℕ) : Function :=
  { f with links := f.links.filter fun l => l.instr ≠ r }

def instrBindClearInputs (r : ℕ) : Function :=
  { f with links := f.links.filter fun l => ¬ (l.instr = r ∧ l.relation = .input) }

def instrDestroy (r : ℕ) : Function :=
  { f with
    bbs := f.bbs.map fun b => { b with instrs := b.instrs.filter fun l => l.ref ≠ r }
    links := f.links.filter fun l => l.instr ≠ r }

def setInstr (r : ℕ) (i : Instr) : Function :=
  { f with
    bbs := f.bbs.map fun b =>
      { b with instrs := b.instrs.map fun l => if l.ref = r then { l with instr := i } else l } }

inductive Place
  | before | after
deriving DecidableEq

/-- `instr_add_before` and `instr_add_after`: the new instruction has the address `f.nextRef`. -/
def instrAdd (place : Place) (anchor : ℕ) (i : Instr) : Function :=
  { f with
    bbs := f.bbs.map fun b =>
      { b with
        instrs := b.instrs.flatMap fun l =>
          if l.ref = anchor then
            match place with
            | .before => [⟨f.nextRef, i⟩, l]
            | .after => [l, ⟨f.nextRef, i⟩]
          else [l] }
    nextRef := f.nextRef + 1 }

end

/-- One of the calls that bind a value to an instruction: `value_bind_instr` or
`value_bind_return_value` for a result, `instr_bind_input` for an operand. -/
def bindValue (r : ℕ) (f : Function) (b : Relation × ValueType) : Function :=
  match b.1 with
  | .output => valueBindInstr f b.2.value r .output
  | .input => instrBindInput f b.2 r

/-- A new instruction, and the calls that bind values to it in their order. -/
def create (f : Function) (place : Place) (anchor : ℕ) (i : Instr)
    (binds : List (Relation × ValueType)) : Function :=
  binds.foldl (bindValue f.nextRef) (instrAdd f place anchor i)

def outputs (vts : List ValueType) : List (Relation × ValueType) := vts.map fun vt => (.output, vt)

def inputs (vts : List ValueType) : List (Relation × ValueType) := vts.map fun vt => (.input, vt)

def insertMove (f : Function) (dest source : ValueType) (before : ℕ) : Function :=
  create f .before before ⟨[dest], .move source⟩ [(.output, dest), (.input, source)]

/-! ## The first bindings -/

/-- The links of an instruction as the parser has left them: one output if it has a result. -/
def instrVerifyOutput (f : Function) (l : Linked) : Except Fault Unit :=
  let outs := f.links.filter fun k => k.instr = l.ref ∧ k.relation = .output
  if outs.length = (if l.instr.rets = [] then 0 else 1) then .ok ()
  else .error (.parserError "Instruction output mismatch for %s")

/-- The operands that `function_bind_instr_inputs` binds. -/
def boundOperands : InstrClass → Except Fault (List ValueType)
  | .unreachable => .ok []
  | .ret value => .ok value.toList
  | .cast _ value => .ok [value]
  | .vaarg value => .ok [value]
  | .load ptr _ valueOffset _ _ _ => .ok (ptr :: valueOffset.toList)
  | .binop _ lhsValue rhsValue => .ok [lhsValue, rhsValue]
  | .cmp2 _ lhsValue rhsValue => .ok [lhsValue, rhsValue]
  | .store ptr value _ => .ok [value, ptr]
  | .br condition _ _ => .ok condition.toList
  | .alloca _ numItemsValue _ => .ok [numItemsValue]
  | .select trueValue falseValue pred => .ok [pred, trueValue, falseValue]
  | .lea baseptr _ valueOffset _ => .ok (baseptr :: valueOffset.toList)
  | .call callee argv => .ok (callee :: argv.map Arg.value)
  | .vmop _ callee argv => .ok (callee :: argv.map Arg.value)
  | .invoke callee _ _ argv => .ok (callee :: argv.map Arg.value)
  | .switch value _ _ => .ok [value]
  | .phi nodes => .ok (nodes.nodes.map PhiNode.value)
  | .move value => .ok [value]
  | .extractval value _ => .ok [value]
  | .resume values => .ok values
  | .insertval src replacement _ => .ok [src, replacement]
  | .landingpad .. => .ok []
  | _ => .error (.parserError "Unable to bind input values on instr-class %d")

def bindInstrInputs (f : Function) (l : Linked) : Except Fault Function := do
  instrVerifyOutput f l
  let vts ← boundOperands l.instr.cls
  .ok ((inputs vts).foldl (bindValue l.ref) f)

def functionBindInstrInputs (f : Function) : Except Fault Function :=
  (instrs f).foldlM bindInstrInputs f

/-! ## The control flow graph -/

def changeTarget (bb nb target : ℕ) : ℕ := if target = bb then nb else target

/-- `bb_change_branch`, for the last instruction of the block the edge leaves. -/
def bbChangeBranch (bb nb : ℕ) : InstrClass → Except Fault InstrClass
  | .br none t e => .ok (.br none (changeTarget bb nb t) e)
  | .br (some condition) t e =>
    .ok (.br (some condition) (changeTarget bb nb t) (changeTarget bb nb e))
  | .cmpBranch op lhs rhs t e =>
    .ok (.cmpBranch op lhs rhs (changeTarget bb nb t) (changeTarget bb nb e))
  | .switch value defblock paths =>
    .ok (.switch value (changeTarget bb nb defblock)
      (paths.map fun p => { p with block := changeTarget bb nb p.block }))
  | .invoke callee normalDest unwindDest argv =>
    .ok (.invoke callee (changeTarget bb nb normalDest) (changeTarget bb nb unwindDest) argv)
  | .ret value => .ok (.ret value)
  | _ => .error .abort

/-- The nodes of a PHI with the new predecessor. As `nb` is a new block, the predecessors stay
distinct. -/
def changePredecessor (source nb : ℕ) (nodes : PhiNodes) : PhiNodes :=
  let renamed := nodes.nodes.map fun n =>
    { n with predecessor := changeTarget source nb n.predecessor }
  if h : (renamed.map PhiNode.predecessor).Nodup then ⟨renamed, h⟩ else nodes

def changePhis (source nb : ℕ) : List Linked → List Linked
  | [] => []
  | l :: ls =>
    match l.instr.cls with
    | .phi nodes =>
      ⟨l.ref, l.instr.rets, .phi (changePredecessor source nb nodes)⟩ :: changePhis source nb ls
    | _ => l :: ls

/-- `break_critical_edge` for the edge from `source` to `dest`: a new block `nb` before `dest`. -/
def breakCriticalEdge (f : Function) (source dest nb : ℕ) : Except Fault Function :=
  match (f.bbs.find? fun b => b.id = source).bind fun b => b.instrs.getLast? with
  | none => .error .nullDeref
  | some last => do
    let cls ← bbChangeBranch dest nb last.instr.cls
    let f := setInstr f last.ref ⟨last.instr.rets, cls⟩
    .ok { f with
      bbs := f.bbs.flatMap fun b =>
        if b.id = dest then
          [⟨nb, [⟨f.nextRef, [], .br none dest 0⟩]⟩, { b with instrs := changePhis source nb b.instrs }]
        else [b]
      nextRef := f.nextRef + 1 }

/-! ## Combined instructions -/

/-- The loop over `iv_instructions`. -/
def upstreamLoop (target : ℕ) : Option ℕ → List Link → Except Fault (Option ℕ)
  | upstream, [] => .ok upstream
  | upstream, ivi :: ivis =>
    match ivi.relation with
    | .output =>
      if upstream.isSome then
        .error (.parserError "Multiplte writes to temporary in instr-combine")
      else upstreamLoop target (some ivi.instr) ivis
    | .input => if ivi.instr ≠ target then .ok none else upstreamLoop target upstream ivis

def ivInstructions (f : Function) (v : ℕ) : List Link := f.links.filter fun k => k.value = v

def combineGetUpstreamInstruction (f : Function) (vt : ValueType) (target : ℕ) :
    Except Fault (Option Linked) := do
  if isTemporary f vt.value then
    match ← upstreamLoop target none (ivInstructions f vt.value) with
    | none => .ok none
    | some r => do
      let l ← instrAt f r
      .ok (some l)
  else .ok none

def typeCode (f : Function) (type : ℕ) : Except Fault TypeCode := do
  let ty ← typeGet f.iu type
  .ok ty.code

/-- A compare that the combined instructions take: `cmp->op` is an integer predicate. -/
def integerCompare (l : Linked) : Option (List ValueType × IcmpPred × ValueType × ValueType) :=
  match l.instr.cls with
  | .cmp2 (.icmp op) lhs rhs => some (l.instr.rets, op, lhs, rhs)
  | _ => none

/-- `assert(iip->ii_ret.value == ..)` -/
def assertRet (rets : List ValueType) (vt : ValueType) : Except Fault Unit :=
  if rets.map ValueType.value = [vt.value] then .ok () else .error .abort

def combineBranchWithCompare (f : Function) (br : Linked) : Except Fault Function :=
  match br.instr.cls with
  | .br (some condition) trueBranch falseBranch => do
    match ← combineGetUpstreamInstruction f condition br.ref with
    | none => .ok f
    | some iip =>
      match integerCompare iip with
      | none => .ok f
      | some (rets, op, lhs, rhs) => do
        let code ← typeCode f lhs.type
        if code = .int8 ∨ code = .int32 ∨ code = .pointer then do
          assertRet rets condition
          let f := create f .after br.ref ⟨[], .cmpBranch (.icmp op) lhs rhs trueBranch falseBranch⟩
            (inputs [lhs, rhs])
          let f := setClass f condition.value .dead
          .ok (instrDestroy (instrDestroy f br.ref) iip.ref)
        else .ok f
  | _ => .ok f

def combineSelectWithCompare (f : Function) (sel : Linked) : Except Fault Function :=
  match sel.instr.rets, sel.instr.cls with
  | [ret], .select trueValue falseValue pred => do
    match ← combineGetUpstreamInstruction f pred sel.ref with
    | none => .ok f
    | some iip =>
      match integerCompare iip with
      | none => .ok f
      | some (rets, op, lhs, rhs) => do
        let cmpty ← typeCode f lhs.type
        let opty ← typeCode f ret.type
        if (cmpty = .int32 ∨ cmpty = .pointer)
            ∧ (opty = .int8 ∨ opty = .int16 ∨ opty = .int32 ∨ opty = .pointer) then do
          assertRet rets pred
          let f := create f .after sel.ref ⟨[ret], .cmpSelect (.icmp op) lhs rhs trueValue falseValue⟩
            (inputs [lhs, rhs, trueValue, falseValue] ++ outputs [ret])
          let f := setClass f pred.value .dead
          .ok (instrDestroy (instrDestroy f sel.ref) iip.ref)
        else .ok f
  | _, _ => .ok f

/-- The class of an operand of `mla`. -/
def inRegister (f : Function) (v : ℕ) : Bool :=
  match classOf f v with
  | some .temporary | some (.regframe _) => true
  | _ => false

def valueType (f : Function) (v : ℕ) : Option ℕ := (f.iu.values[v]?).map Value.type

/-- `combine_binop_add_mul`, where `arg3` is the operand of the add besides the product. -/
def combineBinopAddMul (f : Function) (add mul : Linked) (ret product lhs rhs arg3 : ValueType) :
    Except Fault Function := do
  let code ← typeCode f lhs.type
  if code ≠ .int32 then .ok f
  else if valueType f lhs.value ≠ valueType f rhs.value
      ∨ valueType f lhs.value ≠ valueType f arg3.value then .error .abort
  else if inRegister f lhs.value ∧ inRegister f rhs.value ∧ inRegister f arg3.value then
    let arg3 : ValueType := ⟨arg3.value, rhs.type⟩
    let f := create f .after add.ref ⟨[ret], .mla lhs rhs arg3⟩
      (inputs [lhs, rhs, arg3] ++ outputs [ret])
    let f := setClass f product.value .dead
    .ok (instrDestroy (instrDestroy f add.ref) mul.ref)
  else .ok f

/-- The result and the operands, if the instruction is a multiplication. -/
def productOf (l : Linked) : Option (ValueType × ValueType × ValueType) :=
  match l.instr.rets, l.instr.cls with
  | [product], .binop .mul lhs rhs => some (product, lhs, rhs)
  | _, _ => none

def upstreamProduct (f : Function) (vt : ValueType) (add : ℕ) :
    Except Fault (Option (Linked × ValueType × ValueType × ValueType)) := do
  match ← combineGetUpstreamInstruction f vt add with
  | none => .ok none
  | some l => .ok ((productOf l).map fun p => (l, p))

def combineBinopAdd (f : Function) (ii : Linked) : Except Fault Function :=
  match ii.instr.rets, ii.instr.cls with
  | [ret], .binop .add lhsValue rhsValue => do
    match ← upstreamProduct f lhsValue ii.ref with
    | some (mul, product, lhs, rhs) => combineBinopAddMul f ii mul ret product lhs rhs rhsValue
    | none =>
      match ← upstreamProduct f rhsValue ii.ref with
      | some (mul, product, lhs, rhs) => combineBinopAddMul f ii mul ret product lhs rhs lhsValue
      | none => .ok f
  | _, _ => .ok f

/-- `combine_binop_load_cast` -/
def combineBinopLoadCast (f : Function) (cast load : Linked) (ret : ValueType) (op : CastOp)
    (killed ptr : ValueType) (immediateOffset : ℤ) (valueOffset : Option ValueType)
    (valueOffsetMultiply : ℤ) (killType : ℕ) : Function :=
  let f := setInstr f load.ref ⟨[ret], .load ptr immediateOffset valueOffset valueOffsetMultiply
    (some op) (BitVec.ofNat 8 killType)⟩
  let f := instrBindClear f load.ref
  let f := (inputs (ptr :: valueOffset.toList) ++ outputs [ret]).foldl (bindValue load.ref) f
  let f := setClass f killed.value .dead
  instrDestroy f cast.ref

def combineBinopCast (f : Function) (ii : Linked) : Except Fault Function :=
  match ii.instr.rets, ii.instr.cls with
  | [ret], .cast op value => do
    if op ≠ .zext ∧ op ≠ .sext then .ok f
    else do
      let v ← valueGet f.iu ret.value
      let code ← typeCode f v.type
      if code ≠ .int32 then .ok f
      else
        match ← combineGetUpstreamInstruction f value ii.ref with
        | none => .ok f
        | some u =>
          match u.instr.rets, u.instr.cls with
          | [killed], .load ptr immediateOffset valueOffset valueOffsetMultiply _ _ =>
            if inRegister f ptr.value then do
              let kill ← valueGet f.iu killed.value
              .ok (combineBinopLoadCast f ii u ret op killed ptr immediateOffset valueOffset
                valueOffsetMultiply kill.type)
            else .ok f
          | _, _ => .ok f
  | _, _ => .ok f

/-- The turn of the loop of `combine_instructions` for an instruction. -/
def combineInstruction (f : Function) (ii : Linked) : Except Fault Function :=
  match ii.instr.cls with
  | .br .. => combineBranchWithCompare f ii
  | .binop .. => combineBinopAdd f ii
  | .cast .. => combineBinopCast f ii
  | .select .. => combineSelectWithCompare f ii
  | _ => .ok f

end Vmir.DefUse
