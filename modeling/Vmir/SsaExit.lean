import Vmir.IntrusiveList
import Vmir.Ir
import Vmir.ParallelCopy

set_option autoImplicit false

/-!
# Leaving SSA form

`exit_ssa_edge` replaces the PHIs of a block, for one incoming edge, by moves at the end of the
predecessor. The copy graph it builds has a node for every value and an edge for every copy; an
edge is named by its two values and a node by its one.
-/
namespace Vmir.SsaExit
open IntrusiveList ParallelCopy Ir

/-- `phi_lift_edge_t` -/
abbrev PhiLiftEdge := Copy ℕ

/-- The nodes and edges of one call, the moves inserted so far, and `iu_next_value`. A node is a
value that `vt` knows; `src` and `dst` are its `pln_src` and `pln_dst`. Unlike the nodes, an edge
is unlinked only once, so that its two lists are plain ones. -/
structure PhiLift where
  nodes : Links ℕ
  vt : ℕ → Option ValueType
  src : ℕ → List PhiLiftEdge
  dst : ℕ → Option PhiLiftEdge
  edges : List PhiLiftEdge
  moves : List (Copy ValueType)
  nextValue : ℕ

def PhiLift.start (nextValue : ℕ) : PhiLift where
  nodes := init
  vt := fun _ => none
  src := fun _ => []
  dst := fun _ => none
  edges := []
  moves := []
  nextValue := nextValue

/-- The `pln_vt` of the node of a value; every end of an edge has a node. -/
def PhiLift.plnVt (g : PhiLift) (value : ℕ) : ValueType :=
  (g.vt value).getD ⟨value, 0⟩

def phiLiftNodeInit (g : PhiLift) (vt : ValueType) : PhiLift :=
  { g with
    vt := Function.update g.vt vt.value (some vt)
    nodes := insertHead g.nodes vt.value
    src := Function.update g.src vt.value []
    dst := Function.update g.dst vt.value none }

/-- `phi_lift_node_find`, and `phi_lift_node_init` when nothing is found. -/
def phiLiftNode (g : PhiLift) (vt : ValueType) : PhiLift :=
  match g.vt vt.value with
  | some _ => g
  | none => phiLiftNodeInit g vt

/-- A new edge, in the list of its source, as the one of its destination and in `edges`. -/
def phiLiftEdge (g : PhiLift) (ple : PhiLiftEdge) : PhiLift :=
  { g with
    src := Function.update g.src ple.src (ple :: g.src ple.src)
    dst := Function.update g.dst ple.dst (some ple)
    edges := ple :: g.edges }

def addEdge (g : PhiLift) (ret value : ValueType) : Except Fault PhiLift :=
  if ret.value = value.value then .ok g
  else
    let g := phiLiftNode (phiLiftNode g ret) value
    if (g.dst ret.value).isSome then
      .error (.parserError "Multiple PHI entries point to same register")
    else .ok (phiLiftEdge g ⟨ret.value, value.value⟩)

def addPhi (g : PhiLift) (predecessor : ℕ) (ret : ValueType) :
    List PhiNode → Except Fault PhiLift
  | [] => .ok g
  | n :: ns => do
    let g ← if n.predecessor = predecessor then addEdge g ret n.value else .ok g
    addPhi g predecessor ret ns

/-- The loop over the leading PHIs of the block. -/
def addPhis (g : PhiLift) (predecessor : ℕ) : List Instr → Except Fault PhiLift
  | ⟨ret :: _, .phi ns⟩ :: is => do
    let g ← addPhi g predecessor ret ns.nodes
    addPhis g predecessor is
  | _ => .ok g

/-- `insert_move`, before the last instruction of the predecessor. -/
def insertMove (g : PhiLift) (ret value : ValueType) : PhiLift :=
  { g with moves := g.moves ++ [⟨ret, value⟩] }

/-- One edge whose destination is not a source. The node of the destination is unlinked, and so is
the node of the source once nothing reads it. -/
def leafMove (g : PhiLift) (ple : PhiLiftEdge) : PhiLift :=
  let g := insertMove g (g.plnVt ple.dst) (g.plnVt ple.src)
  let src := Function.update g.src ple.src ((g.src ple.src).filter (· ≠ ple))
  let nodes := remove g.nodes ple.dst
  { g with
    edges := g.edges.filter (· ≠ ple)
    src := src
    nodes := if src ple.src = [] then remove nodes ple.src else nodes }

/-- One pass over the edges, and whether it made progress. -/
def leafPass : List PhiLiftEdge → PhiLift → PhiLift × Bool
  | [], g => (g, false)
  | ple :: rest, g =>
    if g.src ple.dst ≠ [] then leafPass rest g
    else ((leafPass rest (leafMove g ple)).1, true)

/-- "First moves where destination is not also a source": passes until no edge is left or a pass
makes no progress. -/
def leafPhase : ℕ → PhiLift → Except Fault PhiLift
  | 0, _ => .error .outOfFuel
  | n + 1, g =>
    let r := leafPass g.edges g
    if r.1.edges = [] then .ok r.1
    else if r.2 then leafPhase n r.1
    else .ok r.1

/-- A move into the node `cur` of a cycle, which is then unlinked. -/
def cycleMove (g : PhiLift) (cur : ℕ) (value : ValueType) : PhiLift :=
  { insertMove g (g.plnVt cur) value with nodes := remove g.nodes cur }

/-- The inner loop of the second phase, from `start` against the copies; returns the last node. -/
def cycleWalk : ℕ → ℕ → ℕ → PhiLift → Except Fault (PhiLift × ℕ)
  | 0, _, _, _ => .error .outOfFuel
  | n + 1, start, cur, g =>
    match g.dst cur with
    | none => .error .nullDeref
    | some ple =>
      if ple.src = start then .ok (g, cur)
      else cycleWalk n start ple.src (cycleMove g cur (g.plnVt ple.src))

/-- `value_alloc_temporary`: the next value of the unit. -/
def tmpreg (g : PhiLift) (start : ℕ) : ValueType :=
  ⟨g.nextValue, (g.plnVt start).type⟩

/-- "Add a move to temporary register to resolve cycle" -/
def saveStart (g : PhiLift) (start : ℕ) : PhiLift :=
  insertMove { g with nextValue := g.nextValue + 1 } (tmpreg g start) (g.plnVt start)

/-- The second phase: as long as a node is listed, break the cycle it is on with a temporary. -/
def cyclePhase : ℕ → PhiLift → Except Fault PhiLift
  | 0, _ => .error .outOfFuel
  | n + 1, g =>
    match g.nodes.first with
    | none => .ok g
    | some start => do
      let (g', cur) ← cycleWalk n start start (saveStart g start)
      cyclePhase n (cycleMove g' cur (tmpreg g start))

def liftMoves (fuel : ℕ) (g : PhiLift) : Except Fault PhiLift := do
  let g ← leafPhase fuel g
  if g.edges = [] then .ok g else cyclePhase fuel g

theorem leafPhase_mono {n m : ℕ} {g r : PhiLift} (hnm : n ≤ m) (h : leafPhase n g = .ok r) :
    leafPhase m g = .ok r := by
  induction n generalizing m g with
  | zero => simp [leafPhase] at h
  | succ n ih =>
    obtain ⟨m, rfl⟩ := Nat.exists_eq_add_of_le' (show 1 ≤ m by omega)
    simp only [leafPhase] at h ⊢
    split at h
    · next hnil => rw [if_pos hnil]; exact h
    · next hnil =>
      rw [if_neg hnil]
      split at h
      · next hp => rw [if_pos hp]; exact ih (by omega) h
      · next hp => rw [if_neg hp]; exact h

theorem cycleWalk_mono {n m start cur : ℕ} {g : PhiLift} {r : PhiLift × ℕ} (hnm : n ≤ m)
    (h : cycleWalk n start cur g = .ok r) : cycleWalk m start cur g = .ok r := by
  induction n generalizing m cur g with
  | zero => simp [cycleWalk] at h
  | succ n ih =>
    obtain ⟨m, rfl⟩ := Nat.exists_eq_add_of_le' (show 1 ≤ m by omega)
    simp only [cycleWalk] at h ⊢
    cases hd : g.dst cur with
    | none => simp [hd] at h
    | some ple =>
      simp only [hd] at h ⊢
      split at h
      · next hs => rw [if_pos hs]; exact h
      · next hs => rw [if_neg hs]; exact ih (by omega) h

theorem cyclePhase_mono {n m : ℕ} {g r : PhiLift} (hnm : n ≤ m) (h : cyclePhase n g = .ok r) :
    cyclePhase m g = .ok r := by
  induction n generalizing m g with
  | zero => simp [cyclePhase] at h
  | succ n ih =>
    obtain ⟨m, rfl⟩ := Nat.exists_eq_add_of_le' (show 1 ≤ m by omega)
    simp only [cyclePhase] at h ⊢
    cases hf : g.nodes.first with
    | none => simpa [hf] using h
    | some start =>
      simp only [hf] at h ⊢
      cases hw : cycleWalk n start start (saveStart g start) with
      | error e => simp [hw, Bind.bind, Except.bind] at h
      | ok w =>
        rw [cycleWalk_mono (by omega) hw]
        rw [hw] at h
        exact ih (by omega) h

theorem liftMoves_mono {n m : ℕ} {g r : PhiLift} (hnm : n ≤ m) (h : liftMoves n g = .ok r) :
    liftMoves m g = .ok r := by
  unfold liftMoves at h ⊢
  cases hl : leafPhase n g with
  | error e => simp [hl, Bind.bind, Except.bind] at h
  | ok g₁ =>
    rw [leafPhase_mono hnm hl]
    rw [hl] at h
    change (if g₁.edges = [] then _ else _) = _ at h
    change (if g₁.edges = [] then _ else _) = _
    split at h
    · next hnil => rw [if_pos hnil]; exact h
    · next hnil => rw [if_neg hnil]; exact cyclePhase_mono hnm h

def moveInstr (m : Copy ValueType) : Instr := ⟨[m.dst], .move m.src⟩

/-- `exit_ssa_edge`: the predecessor with the moves before its last instruction, and the next free
value. -/
def exitSsaEdge (fuel nextValue : ℕ) (bb prebb : Bb) : Except Fault (Bb × ℕ) := do
  let g ← addPhis (.start nextValue) prebb.id bb.instrs
  if g.edges = [] then .ok (prebb, nextValue)
  else
    match prebb.instrs.getLast? with
    | none => .error .nullDeref
    | some last => do
      let g ← liftMoves fuel g
      let moves := g.moves.map moveInstr
      .ok (⟨prebb.id, prebb.instrs.dropLast ++ moves ++ [last]⟩, g.nextValue)

end Vmir.SsaExit
