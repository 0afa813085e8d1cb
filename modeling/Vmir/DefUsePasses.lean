import Vmir.DefUse
import Vmir.PrepareCall
import Vmir.TypeLayout

set_option autoImplicit false

/-!
# The passes between the binding and the merging of registers

Each rewriting of `transform_function` as one action, with the bindings that it makes, and the
merging of two values by `coalesce`. The order in which a pass comes to the instructions, and which
pairs of values do not interfere, is left open: a run is any sequence of actions that takes the
passes in their order.
-/
namespace Vmir.DefUsePasses
open Ir IrTypes DefUse PrepareCall

/-! ## Calls -/

/-- The loop of `prepare_call`. -/
structure CallLoop where
  f : Function
  totalSlots : ℕ
  numCallArgs : ℕ
  stackgrowth : BitVec 32
  argv : List Arg

def allocCallArgs (callargtype : ℕ) : ℕ → Function → Function
  | 0, f => f
  | n + 1, f => allocCallArgs callargtype n (valueAllocTemporary f callargtype).1

def argInstr : ArgInstr → Instr
  | .stackcopy ret value size => ⟨[ret], .stackcopy value size.toNat⟩
  | .move rets value => ⟨rets, .move value⟩

def prepareArg (call callArgBase callargtype : ℕ) (s : CallLoop) (a : Arg) :
    Except Fault CallLoop := do
  let slots ← valueRegframeSlots s.f.iu a.value.type
  let arg := callArgBase + s.totalSlots
  let totalSlots := s.totalSlots + slots
  let f := allocCallArgs callargtype (totalSlots - s.numCallArgs) s.f
  let copySize := BitVec.ofNat 32 a.copySize
  let before ← PrepareCall.prepareArg callargtype slots arg ⟨a.value, copySize⟩
  let f := create f .before call (argInstr before)
    (inputs [a.value] ++ outputs (argInstr before).rets)
  let value : ValueType := ⟨arg, a.value.type⟩
  .ok
    { f := instrBindInput f value call
      totalSlots := totalSlots
      numCallArgs := max s.numCallArgs totalSlots
      stackgrowth := s.stackgrowth + copySize
      argv := s.argv ++ [{ a with value := value }] }

/-- The callee and the arguments of a call or an invoke, and the instruction with others. -/
def callParts : InstrClass → Option (ValueType × List Arg × (List Arg → InstrClass))
  | .call callee argv => some (callee, argv, .call callee)
  | .invoke callee normalDest unwindDest argv =>
    some (callee, argv, .invoke callee normalDest unwindDest)
  | _ => none

def prepareCall (callArgBase callargtype : ℕ) (state : Function × ℕ) (l : Linked) :
    Except Fault (Function × ℕ) :=
  match callParts l.instr.cls with
  | none => .ok state
  | some (callee, argv, withArgs) => do
    let f := instrBindInput (instrBindClearInputs state.1 l.ref) callee l.ref
    let s ← argv.foldlM (prepareArg l.ref callArgBase callargtype) ⟨f, 0, state.2, 0, []⟩
    let f := setInstr s.f l.ref ⟨l.instr.rets, withArgs s.argv⟩
    if (0 : BitVec 32).slt s.stackgrowth then
      .ok (create f .after l.ref ⟨[], .stackshrink s.stackgrowth.toNat⟩ [], s.numCallArgs)
    else .ok (f, s.numCallArgs)

def prepareCalls (callargtype : ℕ) (f : Function) : Except Fault Function := do
  let s ← (instrs f).foldlM (prepareCall f.iu.values.length callargtype) (f, 0)
  .ok s.1

/-! ## Aggregates -/

/-- `iv_data` of an aggregate. -/
def elementsOf (f : Function) (v : ℕ) : List ValueType :=
  ((f.elements.find? fun e => e.1 = v).map Prod.snd).getD []

def allocTemporaries : List StructElement → Function → Function × List ValueType
  | [], f => (f, [])
  | e :: es, f =>
    let (f, v) := valueAllocTemporary f e.type
    let (f, vs) := allocTemporaries es f
    (f, v :: vs)

/-- The first loop of `legalize_temporary_values`, from the value `i`. -/
def allocElements : ℕ → ℕ → Function → Except Fault Function
  | 0, _, _ => .error .outOfFuel
  | fuel + 1, i, f =>
    match f.iu.values[i]? with
    | none => .ok f
    | some iv =>
      if iv.cls = .temporary then do
        match ← typeGet f.iu iv.type with
        | .struct s =>
          let (f, values) := allocTemporaries s.elements f
          allocElements fuel (i + 1) { f with elements := (i, values) :: f.elements }
        | _ => allocElements fuel (i + 1) f
      else allocElements fuel (i + 1) f

/-- `insert_move` for each pair. -/
def insertMoves (f : Function) (moves : List (ValueType × ValueType)) (before : ℕ) : Function :=
  moves.foldl (fun f m => insertMove f m.1 m.2 before) f

/-- `value_get(iu, ii->ii_ret.value)`, for an instruction with one result. -/
def resultOf (ii : Linked) : Except Fault ValueType :=
  match ii.instr.rets with
  | [ret] => .ok ret
  | _ => .error (.parserError "Bad value index %d")

def legalizeAggregateMove (f : Function) (ii : Linked) (value : ValueType) :
    Except Fault Function := do
  let ret ← resultOf ii
  let sv := elementsOf f value.value
  let dv := elementsOf f ret.value
  if sv.length = dv.length then .ok (instrDestroy (insertMoves f (dv.zip sv) ii.ref) ii.ref)
  else .error .abort

def selectElement (ii : ℕ) (pred : ValueType) (f : Function)
    (e : ValueType × ValueType × ValueType) : Function :=
  create f .before ii ⟨[e.1], .select e.2.1 e.2.2 pred⟩
    (outputs [e.1] ++ inputs [pred, e.2.1, e.2.2])

def legalizeAggregateSelect (f : Function) (ii : Linked)
    (trueValue falseValue pred : ValueType) : Except Fault Function := do
  let ret ← resultOf ii
  let tv := elementsOf f trueValue.value
  let fv := elementsOf f falseValue.value
  let dv := elementsOf f ret.value
  if tv.length = dv.length ∧ fv.length = dv.length then
    .ok (instrDestroy ((dv.zip (tv.zip fv)).foldl (selectElement ii.ref pred) f) ii.ref)
  else .error .abort

/-- `value_create_zero`, as a new constant. -/
def valueCreateZero (f : Function) (type : ℕ) : Function × ValueType :=
  ({ f with iu := { f.iu with values := f.iu.values ++ [⟨.constant 0, type⟩] } },
    ⟨f.iu.values.length, type⟩)

/-- One turn of the loop of `legalize_aggregate_insertval`, for the element `n`. -/
def insertElement (ins : ℕ) (index : ℕ) (replacement : ValueType) (sv : List ValueType)
    (f : Function) (n : ℕ) (d : ValueType) : Function :=
  if n = index then insertMove f d replacement ins
  else
    match sv[n]? with
    | some s => insertMove f d s ins
    | none =>
      let (f, z) := valueCreateZero f d.type
      insertMove f d z ins

def insertElements (ins index : ℕ) (replacement : ValueType) (sv : List ValueType) :
    ℕ → List ValueType → Function → Function
  | _, [], f => f
  | n, d :: dv, f =>
    insertElements ins index replacement sv (n + 1) dv
      (insertElement ins index replacement sv f n d)

def legalizeAggregateInsertval (f : Function) (ins : Linked) (src replacement : ValueType)
    (indicies : List ℕ) : Except Fault Function :=
  match indicies with
  | [index] => do
    let ret ← resultOf ins
    let sv := elementsOf f src.value
    let dv := elementsOf f ret.value
    if sv = [] ∨ sv.length = dv.length then
      .ok (instrDestroy (insertElements ins.ref index replacement sv 0 dv f) ins.ref)
    else .error .abort
  | _ => .error (.parserError "Unable to legalize insertval with %d indicies")

/-- `value_bind_instr` for each of the values. -/
def bindAll (f : Function) (values : List ValueType) (r : ℕ) (relation : Relation) : Function :=
  values.foldl (fun f v => valueBindInstr f v.value r relation) f

/-- The stores behind the first: the value is bound to the first one, and nothing to the new. -/
def splitStore (st : ℕ) (ptr : ValueType) (immediateOffset : ℤ) (f : Function)
    (e : ValueType × StructElement) : Function :=
  valueBindInstr
    (instrAdd f .after st ⟨[], .store ptr e.1 (immediateOffset + e.2.offset.toInt)⟩)
    e.1.value st .input

def legalizeAggregateStore (f : Function) (ii : Linked) (ptr value : ValueType)
    (immediateOffset : ℤ) (values : List ValueType) : Except Fault Function := do
  match ← typeGet f.iu value.type with
  | .struct s =>
    match values, s.elements with
    | v :: vs, _ :: es =>
      if vs.length = es.length then
        let f := setInstr f ii.ref ⟨ii.instr.rets, .store ptr v immediateOffset⟩
        let f := valueBindInstr f v.value ii.ref .input
        .ok ((vs.zip es).foldl (splitStore ii.ref ptr immediateOffset) f)
      else .error .abort
    | _, _ => .error .abort
  | _ => .error .abort

def maxResumeValues : ℕ := 8

def legalizeInput (f : Function) (ii : Linked) (values : List ValueType) :
    Except Fault Function :=
  match ii.instr.cls with
  | .extractval _ indicies =>
    match indicies with
    | [index] =>
      match values[index]? with
      | some v => .ok (valueBindInstr (setInstr f ii.ref ⟨ii.instr.rets, .move v⟩) v.value ii.ref
          .input)
      | none => .error .nullDeref
    | _ => .error (.parserError "Unable to legalize extractval with %d indicies")
  | .store ptr value immediateOffset =>
    legalizeAggregateStore f ii ptr value immediateOffset values
  | .resume _ =>
    if values.length < maxResumeValues then
      .ok (bindAll (setInstr f ii.ref ⟨ii.instr.rets, .resume values⟩) values ii.ref .input)
    else .error .abort
  | _ => .error (.parserError "Unable to legalize aggregate value as input to %s")

/-- One turn of the loop of `legalize_aggregate`, for the first link of the value. -/
def legalizeAggregate (f : Function) (iv : ℕ) : Except Fault Function :=
  let values := elementsOf f iv
  if values.length ≤ 1 then .error .abort
  else
    match ivInstructions f iv with
    | [] => .ok f
    | ivi :: _ => do
      let f := { f with links := f.links.erase ivi }
      let ii ← instrAt f ivi.instr
      match ii.instr.cls, ivi.relation with
      | .move value, _ => legalizeAggregateMove f ii value
      | .insertval src replacement indicies, _ =>
        legalizeAggregateInsertval f ii src replacement indicies
      | .select trueValue falseValue pred, _ =>
        legalizeAggregateSelect f ii trueValue falseValue pred
      | cls, .output =>
        .ok (bindAll (setInstr f ii.ref ⟨values, cls⟩) values ii.ref .output)
      | _, .input => legalizeInput f ii values

/-- The last loop of `legalize_temporary_values`. -/
def killAggregates (f : Function) : Function :=
  { f with
    iu := { f.iu with
      values := f.iu.values.mapIdx fun v iv =>
        if iv.cls = .temporary ∧ (elementsOf f v) ≠ [] then { iv with cls := .dead } else iv } }

/-! ## Loads -/

structure LoadFields where
  ptr : ValueType
  immediateOffset : ℤ
  valueOffset : Option ValueType
  valueOffsetMultiply : ℤ

/-- `emit_partial_load`, which returns the new load. -/
def emitPartialLoad (orig : LoadFields) (state : Function × ℕ) (e : ℤ × ValueType) :
    Function × ℕ :=
  (create state.1 .after state.2
    ⟨[e.2], .load orig.ptr (orig.immediateOffset + e.1) orig.valueOffset orig.valueOffsetMultiply
      none 0⟩
    (outputs [e.2] ++ inputs (orig.ptr :: orig.valueOffset.toList)), state.1.nextRef)

def typeGetPointee (iu : IrUnit) (id : ℕ) : Except Fault ℕ := do
  match ← typeGet iu id with
  | .pointer (some pointee) => .ok pointee
  | .pointer none => .error (.parserError "Attempting to dereference void pointer")
  | _ => .error (.parserError "Type (%s) (index:%d) is not a pointer")

/-- Where the elements of an aggregate are; `depth` bounds the nesting of types. -/
def elementOffsets (f : Function) (depth count : ℕ) (type : ℕ) : Except Fault (List ℤ) := do
  match ← typeGet f.iu type with
  | .struct s =>
    if s.elements.length = count then .ok (s.elements.map fun e => e.offset.toInt)
    else .error .abort
  | .array _ elementType => do
    let esize ← TypeLayout.typeSizeof f.iu depth elementType
    .ok ((List.range count).map fun i => esize.toInt * i)
  | _ => .error .abort

def splitAggregatedLoad (f : Function) (depth : ℕ) (ii : Linked) : Except Fault Function :=
  match ii.instr.cls with
  | .load ptr immediateOffset valueOffset valueOffsetMultiply cast _ =>
    if ii.instr.rets.length < 2 then .ok f
    else do
      let aggty ← typeGetPointee f.iu ptr.type
      let offsets ← elementOffsets f depth ii.instr.rets.length aggty
      if cast ≠ none then .error .abort
      else
        let s := (offsets.zip ii.instr.rets).foldl
          (emitPartialLoad ⟨ptr, immediateOffset, valueOffset, valueOffsetMultiply⟩) (f, ii.ref)
        .ok (instrDestroy s.1 ii.ref)
  | _ => .ok f

/-! ## Dead code -/

/-- One turn of the loop of `eliminate_dead_code_in_bb`. -/
def visitInstr (f : Function) (ii : Linked) : Function :=
  match DeadCode.output ⟨ii.instr, []⟩ with
  | none => f
  | some v =>
    if (ivInstructions f v).any fun ivi => ivi.relation = .input then f
    else setClass (instrDestroy f ii.ref) v .dead

def bbDestroy (f : Function) (id : ℕ) : Function :=
  let gone := (f.bbs.filter fun b => b.id = id).flatMap fun b => b.instrs.map Linked.ref
  let f := gone.foldl instrDestroy f
  { f with bbs := f.bbs.filter fun b => b.id ≠ id }

/-- The instructions of `ib` are moved behind those of `source`, the branch to it destroyed. -/
def mergeBlocks (f : Function) (ib source : ℕ) : Except Fault Function :=
  match (f.bbs.find? fun b => b.id = source).bind fun b => b.instrs.getLast? with
  | none => .error .nullDeref
  | some last =>
    match last.instr.cls with
    | .br none _ _ =>
      let f := instrDestroy f last.ref
      let moved := (f.bbs.filter fun b => b.id = ib).flatMap Block.instrs
      .ok { f with
        bbs := (f.bbs.filter fun b => b.id ≠ ib).map fun b =>
          if b.id = source then { b with instrs := b.instrs ++ moved } else b }
    | _ => .ok f

/-! ## Merging values -/

/-- `instr_replace_value` -/
def replaceValue (killed saved : ℕ) (vt : ValueType) : ValueType :=
  if vt.value = killed then { vt with value := saved } else vt

/-- `instr_replace_values`, for the operands. -/
def replaceOperands (rename : ValueType → ValueType) : InstrClass → Except Fault InstrClass
  | .unreachable => .ok .unreachable
  | .stackshrink size => .ok (.stackshrink size)
  | .landingpad type isCleanUp clauses => .ok (.landingpad type isCleanUp clauses)
  | .ret value => .ok (.ret (value.map rename))
  | .cast op value => .ok (.cast op (rename value))
  | .vaarg value => .ok (.vaarg (rename value))
  | .load ptr immediateOffset valueOffset valueOffsetMultiply cast loadType =>
    .ok (.load (rename ptr) immediateOffset (valueOffset.map rename) valueOffsetMultiply cast
      loadType)
  | .binop op lhsValue rhsValue => .ok (.binop op (rename lhsValue) (rename rhsValue))
  | .cmp2 op lhsValue rhsValue => .ok (.cmp2 op (rename lhsValue) (rename rhsValue))
  | .cmpBranch op lhsValue rhsValue t e => .ok (.cmpBranch op (rename lhsValue) (rename rhsValue) t e)
  | .store ptr value immediateOffset => .ok (.store (rename ptr) (rename value) immediateOffset)
  | .br condition t e => .ok (.br (condition.map rename) t e)
  | .alloca size numItemsValue alignment => .ok (.alloca size (rename numItemsValue) alignment)
  | .select trueValue falseValue pred =>
    .ok (.select (rename trueValue) (rename falseValue) (rename pred))
  | .lea baseptr immediateOffset valueOffset valueOffsetMultiply =>
    .ok (.lea (rename baseptr) immediateOffset (valueOffset.map rename) valueOffsetMultiply)
  | .call callee argv =>
    .ok (.call (rename callee) (argv.map fun a => { a with value := rename a.value }))
  | .vmop op callee argv =>
    .ok (.vmop op (rename callee) (argv.map fun a => { a with value := rename a.value }))
  | .invoke callee n u argv =>
    .ok (.invoke (rename callee) n u (argv.map fun a => { a with value := rename a.value }))
  | .switch value defblock paths => .ok (.switch (rename value) defblock paths)
  | .move value => .ok (.move (rename value))
  | .stackcopy value size => .ok (.stackcopy (rename value) size)
  | .mla arg1 arg2 arg3 => .ok (.mla (rename arg1) (rename arg2) (rename arg3))
  | .cmpSelect op lhsValue rhsValue trueValue falseValue =>
    .ok (.cmpSelect op (rename lhsValue) (rename rhsValue) (rename trueValue) (rename falseValue))
  | .resume values => .ok (.resume (values.map rename))
  | _ => .error .abort

/-- The turn of the renaming loop for one link of the killed value. -/
def replaceLinked (killed saved : ℕ) (f : Function) (ivi : Link) : Except Fault Function := do
  let ii ← instrAt f ivi.instr
  let cls ← replaceOperands (replaceValue killed saved) ii.instr.cls
  .ok (setInstr f ii.ref ⟨ii.instr.rets.map (replaceValue killed saved), cls⟩)

/-- Two values are merged, because of the move `ii` from the one to the other. -/
def mergeValues (f : Function) (ii killed saved : ℕ) : Except Fault Function := do
  let ivis := ivInstructions f killed
  let f ← ivis.foldlM (replaceLinked killed saved) f
  let f := { f with
    links := (ivis.map fun ivi => { ivi with value := saved }).reverse
      ++ f.links.filter fun l => l.value ≠ killed }
  .ok (instrDestroy (setClass f killed .dead) ii)

/-- The turn of the loop of `coalesce` for a move whose values do not interfere. The source is
killed, unless it is precolored. -/
def coalesceMove (f : Function) (ii : Linked) (killSource : Bool) : Except Fault Function :=
  match ii.instr.rets, ii.instr.cls with
  | [ret], .move value =>
    if !isTemporary f value.value then .ok f
    else if ret.value = value.value then .ok (instrDestroy f ii.ref)
    else if !isTemporary f ret.value then .error .abort
    else if killSource then mergeValues f ii.ref value.value ret.value
    else mergeValues f ii.ref ret.value value.value
  | _, _ => .ok f

/-! ## Runs -/

/-- A rewriting of `transform_function`; the instructions are given by their addresses. -/
inductive Action
  | breakCriticalEdge (source dest nb : ℕ)
  | combineInstruction (ii : ℕ)
  | exitMove (dest source : ValueType) (before : ℕ)
  | exitTmpreg (source : ValueType) (before : ℕ)
  | destroyPhi (ii : ℕ)
  | prepareCalls (callargtype : ℕ)
  | allocElements (fuel firstFuncValue : ℕ)
  | legalizeAggregate (iv : ℕ)
  | killAggregates
  | splitAggregatedLoad (depth ii : ℕ)
  | visitInstr (ii : ℕ)
  | bbDestroy (id : ℕ)
  | mergeBlocks (ib source : ℕ)
  | coalesceMove (ii : ℕ) (killSource : Bool)

/-- The place of the pass in `transform_function`. -/
def phase : Action → ℕ
  | .breakCriticalEdge .. => 0
  | .combineInstruction .. => 1
  | .exitMove .. | .exitTmpreg .. | .destroyPhi .. => 2
  | .prepareCalls .. => 3
  | .allocElements .. => 4
  | .legalizeAggregate .. => 5
  | .killAggregates => 6
  | .splitAggregatedLoad .. => 7
  | .visitInstr .. | .bbDestroy .. | .mergeBlocks .. => 8
  | .coalesceMove .. => 9

/-- An instruction of the function reads or writes the value. -/
def namesValue (f : Function) (v : ℕ) : Bool :=
  (instrs f).any fun l => decide (v ∈ (l.instr.rets ++ DeadCode.operands l.instr.cls).map
    ValueType.value)

/-- One action. The moves of `exit_ssa_edge` are between the values of PHIs and the temporaries that
have been made for cycles. -/
def step (f : Function) : Action → Except Fault Function
  | .breakCriticalEdge source dest nb => breakCriticalEdge f source dest nb
  | .combineInstruction r => do
    let ii ← instrAt f r
    combineInstruction f ii
  | .exitMove dest source before =>
    if namesValue f dest.value ∧ namesValue f source.value then
      .ok (insertMove f dest source before)
    else .error .abort
  | .exitTmpreg source before =>
    if namesValue f source.value then
      let (f, tmpreg) := valueAllocTemporary f source.type
      .ok (insertMove f tmpreg source before)
    else .error .abort
  | .destroyPhi r => .ok (instrDestroy f r)
  | .prepareCalls callargtype => prepareCalls callargtype f
  | .allocElements fuel firstFuncValue => allocElements fuel firstFuncValue f
  | .legalizeAggregate iv => legalizeAggregate f iv
  | .killAggregates => .ok (killAggregates f)
  | .splitAggregatedLoad depth r => do
    let ii ← instrAt f r
    splitAggregatedLoad f depth ii
  | .visitInstr r => do
    let ii ← instrAt f r
    .ok (visitInstr f ii)
  | .bbDestroy id => .ok (bbDestroy f id)
  | .mergeBlocks ib source => mergeBlocks f ib source
  | .coalesceMove r killSource => do
    let ii ← instrAt f r
    coalesceMove f ii killSource

/-- What the passes reach after `function_bind_instr_inputs`, with actions that are `allowed`. -/
inductive Reach (allowed : Function → Action → Prop) (f₀ : Function) : ℕ → Function → Prop
  | start {f : Function} : functionBindInstrInputs f₀ = .ok f → Reach allowed f₀ 0 f
  | step {p : ℕ} {f g : Function} {a : Action} : Reach allowed f₀ p f → p ≤ phase a →
    allowed f a → step f a = .ok g → Reach allowed f₀ (phase a) g

end Vmir.DefUsePasses
