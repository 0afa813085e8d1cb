import Vmir.DeadCode
import Vmir.ClusterSearch
import Mathlib.Data.List.SplitBy

set_option autoImplicit false

/-!
# The split into JIT-compiled and interpreted blocks

`jit_analyze`, which the ARM builds run just before register allocation: it marks the instructions
that can be compiled, cuts each block where the mark changes, and gives `iv_jit` to the values that
may live in machine registers, one cluster of JIT blocks after the other.
-/
namespace Vmir.JitAnalyze
open Ir
open DeadCode (Edge)

/-- `ir_instr_t` after the liveness analysis: the values of the def-use links in `ii_values`, the
mark `ii_jit`, and the `out` and `in` sets of `ii_liveness` (as sets of values, without the offset
`ffv` of the bits). -/
structure JitInstr where
  instr : Instr
  values : List ℕ
  jit : Bool
  out : Finset ℕ
  into : Finset ℕ

/-- `ir_bb_t` -/
structure Block where
  id : ℕ
  instrs : List JitInstr
  jit : Bool

/-- `ir_function_t`; the edges are those of `ib_outgoing_edges` and `ib_incoming_edges`. -/
structure Function where
  bbs : List Block
  edges : List Edge
  numBbs : ℕ
  fullJit : Bool

def isRet (ii : JitInstr) : Bool :=
  match ii.instr.cls with
  | .ret _ => true
  | _ => false

/-- `ii_ret.value`, if it is the index of a value. -/
def result (ii : JitInstr) : Option ℕ :=
  match ii.instr.rets with
  | [ret] => some ret.value
  | _ => none

def checkBb (jitCheck : Instr → Bool) (ib : Block) : Block :=
  { ib with instrs := ib.instrs.map fun ii => { ii with jit := jitCheck ii.instr } }

/-- A return stays with the interpreter unless the whole function is compiled. -/
def clearRet (ib : Block) : Except Fault Block :=
  match ib.instrs.getLast? with
  | none => .error .nullDeref
  | some last =>
    .ok (if isRet last then { ib with instrs := ib.instrs.dropLast ++ [{ last with jit := false }] }
      else ib)

/-- The marks of the instructions, and whether all of them are set. -/
def markJit (jitCheck : Instr → Bool) (bbs : List Block) : Except Fault (List Block × Bool) :=
  let bbs := bbs.map (checkBb jitCheck)
  if bbs.all fun ib => ib.instrs.all JitInstr.jit then .ok (bbs, true)
  else do
    let bbs ← bbs.mapM clearRet
    .ok (bbs, false)

/-- The branch that ends a piece of a block, with the liveness of the instruction before it. -/
def pieceBranch (newbb : ℕ) (jit : Bool) (prev : JitInstr) : JitInstr where
  instr := ⟨[], .br none newbb 0⟩
  values := []
  jit := jit
  out := prev.out
  into := prev.into

/-- The blocks that are through, and what the splitting has made of the function besides. -/
structure Split where
  bbs : List Block
  edges : List Edge
  numBbs : ℕ
  jitbbs : List ℕ

/-- `LIST_INSERT_HEAD(&jitbbs, ..)` for a block that is to be compiled. -/
def listJitbb (jitbbs : List ℕ) (ib : Block) : List ℕ :=
  if ib.jit then ib.id :: jitbbs else jitbbs

/-- The edges out of `curbb` are moved to `newbb`, and `curbb` gets one to `newbb`. -/
def handOver (edges : List Edge) (curbb newbb : ℕ) : List Edge :=
  ⟨curbb, newbb⟩ :: edges.map fun e => if e.ibeFrom = curbb then { e with ibeFrom := newbb } else e

/-- The loop over the instructions of a block behind the first. -/
def splitInstrs (st : Split) (curbb : Block) (prev : JitInstr) : List JitInstr → Split
  | [] => { st with bbs := st.bbs ++ [curbb] }
  | ii :: rest =>
    if ii.jit ≠ curbb.jit then
      let newbb : Block := ⟨st.numBbs, [ii], ii.jit⟩
      splitInstrs
        { bbs := st.bbs ++
            [{ curbb with instrs := curbb.instrs ++ [pieceBranch newbb.id curbb.jit prev] }]
          edges := handOver st.edges curbb.id newbb.id
          numBbs := st.numBbs + 1
          jitbbs := listJitbb st.jitbbs newbb } newbb ii rest
    else splitInstrs st { curbb with instrs := curbb.instrs ++ [ii] } ii rest

def splitBb (st : Split) (ib : Block) : Except Fault Split :=
  match ib.instrs with
  | [] => .error .nullDeref
  | ii :: rest =>
    let curbb : Block := ⟨ib.id, [ii], ii.jit⟩
    .ok (splitInstrs { st with jitbbs := listJitbb st.jitbbs curbb } curbb ii rest)

def splitBbs (bbs : List Block) (edges : List Edge) (numBbs : ℕ) : Except Fault Split :=
  bbs.foldlM splitBb ⟨[], edges, numBbs, []⟩

section
variable (bbs : List Block) (edges : List Edge)

def bbOf (id : ℕ) : Option Block := bbs.find? fun ib => ib.id = id

/-- `ib_jit` of the block. -/
def isJit (id : ℕ) : Bool := (bbOf bbs id).elim false Block.jit

def outgoing (id : ℕ) : List Edge := edges.filter fun e => e.ibeFrom = id

def incoming (id : ℕ) : List Edge := edges.filter fun e => e.ibeTo = id

/-- The list of JIT blocks that are in no cluster yet, the cluster, and the blocks with
`ib_mark`. -/
structure Search where
  jitbbs : List ℕ
  cluster : List ℕ
  marked : List ℕ
deriving DecidableEq

def Search.take (s : Search) (ib : ℕ) : Search :=
  ⟨s.jitbbs.erase ib, ib :: s.cluster, ib :: s.marked⟩

/-- `fuel` bounds the depth of the recursion. -/
def jitBbDfs : ℕ → Search → ℕ → Option Search
  | 0, _, _ => none
  | fuel + 1, s, ib => do
    let s ← (outgoing edges ib).foldlM (fun s e =>
      if isJit bbs e.ibeTo ∧ e.ibeTo ∉ s.marked then jitBbDfs fuel s e.ibeTo else some s) (s.take ib)
    (incoming edges ib).foldlM (fun s e =>
      if isJit bbs e.ibeFrom ∧ e.ibeFrom ∉ s.marked then jitBbDfs fuel s e.ibeFrom else some s) s

/-- The `in` set of the first instruction. -/
def liveInto (id : ℕ) : Finset ℕ :=
  ((bbOf bbs id).bind fun ib => ib.instrs.head?).elim ∅ JitInstr.into

/-- The `out` set of the last instruction. -/
def liveOut (id : ℕ) : Finset ℕ :=
  ((bbOf bbs id).bind fun ib => ib.instrs.getLast?).elim ∅ JitInstr.out

/-- What a block adds to the mask of values that cannot be put in machine registers. -/
def blockMask (ib : ℕ) : Finset ℕ :=
  (((outgoing edges ib).filter fun e => !isJit bbs e.ibeTo).map fun e => liveInto bbs e.ibeTo).foldr
      (· ∪ ·) ∅
    ∪ (((incoming edges ib).filter fun e => !isJit bbs e.ibeFrom).map
        fun e => liveOut bbs e.ibeFrom).foldr (· ∪ ·) ∅

def clusterMask (cluster : List ℕ) : Finset ℕ :=
  (cluster.map (blockMask bbs edges)).foldr (· ∪ ·) ∅

/-- All instructions that the value's def-use list names are to be compiled. -/
def allJit (v : ℕ) : Bool :=
  bbs.all fun ib => ib.instrs.all fun ii => decide (v ∉ ii.values) || ii.jit

/-- One turn of the loop that gives out `iv_jit`; `ivJit` are the values that have it. -/
def giveMachineReg (isTemporary : ℕ → Bool) (mask : Finset ℕ) (ivJit : List ℕ) (ii : JitInstr) :
    Except Fault (List ℕ) :=
  match result ii with
  | none => .ok ivJit
  | some v =>
    if v ∈ mask then .ok ivJit
    else if isTemporary v then .ok (if allJit bbs v then v :: ivJit else ivJit)
    else .error .abort

def clusterInstrs (cluster : List ℕ) : List JitInstr :=
  cluster.flatMap fun id => (bbOf bbs id).elim [] Block.instrs

def visitClusters (isTemporary : ℕ → Bool) :
    ℕ → List ℕ → List ℕ → List ℕ → Except Fault (List ℕ)
  | _, [], _, ivJit => .ok ivJit
  | 0, _ :: _, _, _ => .error .outOfFuel
  | fuel + 1, start :: rest, marked, ivJit =>
    match jitBbDfs bbs edges bbs.length ⟨start :: rest, [], marked⟩ start with
    | none => .error .outOfFuel
    | some s => do
      let ivJit ← (clusterInstrs bbs s.cluster).foldlM
        (giveMachineReg bbs isTemporary (clusterMask bbs edges s.cluster)) ivJit
      visitClusters isTemporary fuel s.jitbbs s.marked ivJit

end

/-- What `jit_analyze` leaves: the function, and the values with `iv_jit`. -/
structure Analysis where
  function : Function
  ivJit : List ℕ

/-- Every result of a function that is compiled as a whole. -/
def giveAll (isTemporary : ℕ → Bool) (ivJit : List ℕ) (ii : JitInstr) : Except Fault (List ℕ) :=
  match result ii with
  | none => .ok ivJit
  | some v => if isTemporary v then .ok (v :: ivJit) else .error .abort

def jitAnalyze (jitCheck : Instr → Bool) (isTemporary : ℕ → Bool) (f : Function) :
    Except Fault Analysis := do
  let (bbs, fulljit) ← markJit jitCheck f.bbs
  if fulljit then
    let ivJit ← (bbs.flatMap Block.instrs).foldlM (giveAll isTemporary) []
    .ok ⟨{ f with bbs := bbs.map fun ib => { ib with jit := true }, fullJit := true }, ivJit⟩
  else
    let st ← splitBbs bbs f.edges f.numBbs
    let ivJit ← visitClusters st.bbs st.edges isTemporary (st.bbs.length + 1) st.jitbbs [] []
    .ok ⟨{ f with bbs := st.bbs, edges := st.edges, numBbs := st.numBbs }, ivJit⟩

end Vmir.JitAnalyze
