import Vmir.DefUse

set_option autoImplicit false

/-!
# Critical edges

An edge from a block with several successors into a block that starts with a PHI gets a block of its
own. The edges are taken from the last instructions of the blocks.
-/
namespace Vmir.CriticalEdges
open Ir
open DefUse (bbChangeBranch changePredecessor)

/-- `ir_bb_edge_t` -/
structure Edge where
  source : ℕ
  dest : ℕ
deriving DecidableEq

/-- `if_bbs`, `if_num_bbs` and `if_edges`, the last edge made first. The edges that leave a block
stand on a list of the block in the same order. -/
structure Function where
  bbs : List Bb
  numBbs : ℕ
  edges : List Edge

def bbFind (bbs : List Bb) (id : ℕ) : Option Bb := bbs.find? fun ib => ib.id = id

/-- `ib_outgoing_edges` -/
def outgoingEdges (edges : List Edge) (id : ℕ) : List Edge := edges.filter fun e => e.source = id

/-! ## The parser -/

/-- What `parse_phi` may leave of the nodes in the record: `qsort` says nothing of the order of
nodes with one predecessor. -/
def ParsesPhi (nodes : List PhiNode) (phi : PhiNodes) : Prop :=
  ∃ first rest h, (first :: rest).Perm nodes ∧ phi = PhiNodes.ofSorted first rest h

/-! ## The control flow graph -/

/-- The blocks that `construct_cfg` makes edges to. -/
def cfgTargets : InstrClass → Except Fault (List ℕ)
  | .br none trueBranch _ => .ok [trueBranch]
  | .br (some _) trueBranch falseBranch => .ok [trueBranch, falseBranch]
  | .switch _ defblock paths => .ok (defblock :: paths.map Path.block)
  | .invoke _ normalDest unwindDest _ => .ok [normalDest, unwindDest]
  | .ret _ => .ok []
  | .unreachable => .ok []
  | .resume _ => .ok []
  | _ => .error .abort

/-- `cfg_add_edge` with the mark, where the blocks that are marked are listed. -/
def cfgAddEdge (source : ℕ) (s : Function × List ℕ) (bb : ℕ) :
    Except Fault (Function × List ℕ) :=
  match bbFind s.1.bbs bb with
  | none => .error .nullDeref
  | some _ =>
    if bb ∈ s.2 then .ok s
    else .ok ({ s.1 with edges := ⟨source, bb⟩ :: s.1.edges }, bb :: s.2)

def unmark (marks : List ℕ) (c : Edge) : Except Fault (List ℕ) :=
  if c.dest ∈ marks then .ok (marks.filter fun bb => bb ≠ c.dest) else .error .abort

def unmarkOutgoingBlocks (f : Function) (marks : List ℕ) (bb : ℕ) : Except Fault (List ℕ) :=
  (outgoingEdges f.edges bb).foldlM unmark marks

/-- The body of the loop in `construct_cfg`. -/
def constructBb (s : Function × List ℕ) (bb : Bb) : Except Fault (Function × List ℕ) :=
  match bb.instrs.getLast? with
  | none => .error .nullDeref
  | some ii => do
    let targets ← cfgTargets ii.cls
    let s ← targets.foldlM (cfgAddEdge bb.id) s
    let marks ← unmarkOutgoingBlocks s.1 s.2 bb.id
    .ok (s.1, marks)

def constructCfg (f : Function) : Except Fault Function := do
  let s ← f.bbs.foldlM constructBb (f, [])
  .ok s.1

/-! ## New blocks -/

def setLast (cls : InstrClass) : List Instr → List Instr
  | [] => []
  | [ii] => [{ ii with cls := cls }]
  | ii :: iis => ii :: setLast cls iis

def changePhis (source nb : ℕ) : List Instr → List Instr
  | [] => []
  | ii :: iis =>
    match ii.cls with
    | .phi nodes => ⟨ii.rets, .phi (changePredecessor source nb nodes)⟩ :: changePhis source nb iis
    | _ => ii :: iis

def mapBlock (id : ℕ) (change : List Instr → List Instr) (bbs : List Bb) : List Bb :=
  bbs.map fun ib => if ib.id = id then { ib with instrs := change ib.instrs } else ib

/-- `bb_add_before` -/
def bbAddBefore (before : ℕ) (nb : Bb) (bbs : List Bb) : List Bb :=
  bbs.flatMap fun ib => if ib.id = before then [nb, ib] else [ib]

/-- The blocks after `break_critical_edge`, where `nb` is the number of the new one. -/
def breakCriticalEdge (bbs : List Bb) (nb : ℕ) (ibe : Edge) : Except Fault (List Bb) :=
  match (bbFind bbs ibe.source).bind fun ib => ib.instrs.getLast? with
  | none => .error .nullDeref
  | some ii => do
    let cls ← bbChangeBranch ibe.dest nb ii.cls
    .ok (mapBlock ibe.dest (changePhis ibe.source nb) (mapBlock ibe.source (setLast cls)
      (bbAddBefore ibe.dest ⟨nb, [⟨[], .br none ibe.dest 0⟩]⟩ bbs)))

def startsWithPhi (ib : Bb) : Bool :=
  match ib.instrs with
  | ⟨_, .phi _⟩ :: _ => true
  | _ => false

/-- The loop of `break_crtitical_edges`, where `f.edges` are the edges in front of the one that it
has reached. A new edge is at the head, and is not visited. -/
def breakEdges : Function → List Edge → Except Fault Function
  | f, [] => .ok f
  | f, ibe :: todo =>
    match bbFind f.bbs ibe.dest with
    | none => .error .nullDeref
    | some dest =>
      if startsWithPhi dest ∧ 2 ≤ (outgoingEdges (f.edges ++ ibe :: todo) ibe.source).length then do
        let bbs ← breakCriticalEdge f.bbs f.numBbs ibe
        breakEdges ⟨bbs, f.numBbs + 1, ⟨f.numBbs, ibe.dest⟩ :: (f.edges ++ [⟨ibe.source, f.numBbs⟩])⟩
          todo
      else breakEdges { f with edges := f.edges ++ [ibe] } todo

def breakCrtiticalEdges (f : Function) : Except Fault Function :=
  breakEdges { f with edges := [] } f.edges

/-! ## Paths

A path leaves each block by one of its branches. What is seen of it are the blocks where it arrives
and the values that their PHIs select.
-/

/-- The results of the PHIs of a block, each with the value that is selected. -/
abbrev Selection := List (List ValueType × Option ValueType)

@[ext] structure Graph where
  target : ℕ → ℕ → Option ℕ
  selected : ℕ → ℕ → Selection

section
variable (g : Graph) (numBbs : ℕ)

/-- Where the branch `k` of a block leads to, behind the blocks that were inserted. -/
def Graph.arrive (b k : ℕ) : Option (ℕ × Selection) :=
  (g.target b k).bind fun bb =>
    if bb < numBbs then some (bb, g.selected b bb)
    else (g.target bb 0).map fun dest => (dest, g.selected bb dest)

def Graph.follow : ℕ → List ℕ → Option (List (ℕ × Selection))
  | _, [] => some []
  | b, k :: ks =>
    (g.arrive numBbs b k).bind fun r => (Graph.follow r.1 ks).map fun rs => r :: rs

end

def targets (cls : InstrClass) : List ℕ :=
  match cfgTargets cls with
  | .ok bbs => bbs
  | .error _ => []

def lastTargets (instrs : List Instr) : List ℕ :=
  match instrs.getLast? with
  | some ii => targets ii.cls
  | none => []

def phis : List Instr → List (List ValueType × PhiNodes)
  | [] => []
  | ii :: iis =>
    match ii.cls with
    | .phi nodes => (ii.rets, nodes) :: phis iis
    | _ => []

def instrsAt (bbs : List Bb) (b : ℕ) : List Instr :=
  match bbFind bbs b with
  | some ib => ib.instrs
  | none => []

def outgoing (bbs : List Bb) (b : ℕ) : List ℕ := lastTargets (instrsAt bbs b)

def phisAt (bbs : List Bb) (b : ℕ) : List (List ValueType × PhiNodes) := phis (instrsAt bbs b)

def selects (nodes : List PhiNode) (source : ℕ) : Option ValueType :=
  (nodes.find? fun n => n.predecessor = source).map PhiNode.value

def graph (bbs : List Bb) : Graph where
  target b k := (outgoing bbs b)[k]?
  selected source dest := (phisAt bbs dest).map fun phi => (phi.1, selects phi.2.nodes source)

/-! ## The function as it comes -/

/-- A block with its PHIs as they are in the records. -/
structure LlvmBb where
  id : ℕ
  phis : List (List ValueType × List PhiNode)
  instrs : List Instr

structure ParsesBb (raw : LlvmBb) (ib : Bb) : Prop where
  id : ib.id = raw.id
  instrs : ∃ parsed : List Instr, ib.instrs = parsed ++ raw.instrs ∧
    List.Forall₂ (fun phi ii => ii.rets = phi.1 ∧ ∃ nodes, ParsesPhi phi.2 nodes
      ∧ ii.cls = .phi nodes) raw.phis parsed

structure Parses (raw : List LlvmBb) (f : Function) : Prop where
  bbs : List.Forall₂ ParsesBb raw f.bbs
  numBbs : f.numBbs = raw.length
  edges : f.edges = []

/-- The blocks are numbered, and end with a branch within the function. A PHI has an entry for each
branch to its block, from a block of the function, and one value for each predecessor. -/
structure WellFormed (raw : List LlvmBb) : Prop where
  ids : raw.map LlvmBb.id = List.range raw.length
  terminated : ∀ b ∈ raw, ∃ init ii bbs, b.instrs = init ++ [ii] ∧ cfgTargets ii.cls = .ok bbs
    ∧ ∀ bb ∈ bbs, bb < raw.length
  noPhi : ∀ b ∈ raw, ∀ ii ∈ b.instrs, ∀ nodes, ii.cls ≠ .phi nodes
  entries : ∀ b ∈ raw, ∀ phi ∈ b.phis, ∀ source ∈ raw,
    (lastTargets source.instrs).count b.id ≤ (phi.2.map PhiNode.predecessor).count source.id
  predecessors : ∀ b ∈ raw, ∀ phi ∈ b.phis, ∀ n ∈ phi.2, n.predecessor < raw.length
  values : ∀ b ∈ raw, ∀ phi ∈ b.phis, ∀ n ∈ phi.2, ∀ n' ∈ phi.2,
    n.predecessor = n'.predecessor → n.value = n'.value

def llvmFind (raw : List LlvmBb) (id : ℕ) : Option LlvmBb := raw.find? fun b => b.id = id

def llvmGraph (raw : List LlvmBb) : Graph where
  target b k := ((llvmFind raw b).bind fun b => (lastTargets b.instrs)[k]?)
  selected source dest :=
    match llvmFind raw dest with
    | some b => b.phis.map fun phi => (phi.1, selects phi.2 source)
    | none => []

/-! ## What is asked of the passes -/

structure Broken (raw : List LlvmBb) (f : Function) : Prop where
  /-- The edges are the branches, each once. -/
  nodup : f.edges.Nodup
  edges : ∀ e, e ∈ f.edges ↔ e.dest ∈ outgoing f.bbs e.source
  /-- No edge into a block that starts with a PHI is critical. -/
  single : ∀ e ∈ f.edges, phisAt f.bbs e.dest ≠ [] →
    (outgoingEdges f.edges e.source).length = 1
  entries : ∀ e ∈ f.edges, ∀ phi ∈ phisAt f.bbs e.dest,
    (phi.2.nodes.map PhiNode.predecessor).count e.source = 1
  /-- The blocks that were inserted are empty. -/
  inserted : ∀ ib ∈ f.bbs, raw.length ≤ ib.id → ∃ bb, ib.instrs = [⟨[], .br none bb 0⟩]
  paths : ∀ b < raw.length, ∀ ks,
    (graph f.bbs).follow raw.length b ks = (llvmGraph raw).follow raw.length b ks

end Vmir.CriticalEdges
