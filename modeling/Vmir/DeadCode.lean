import Vmir.Ir
import Mathlib.Data.List.Infix
import Mathlib.Algebra.BigOperators.Group.Finset.Basic
import Mathlib.Algebra.Order.BigOperators.Group.Finset

set_option autoImplicit false

/-!
# Dead code elimination

`eliminate_dead_code` goes once through the blocks of a function: it deletes a block that no edge
enters, deletes instructions whose result nobody has for input, and merges a block into its only
predecessor.
-/
namespace Vmir.DeadCode
open Ir

/-- `ir_instr_t` with the temporaries that `ii_values` binds to it as `IVI_INPUT`. -/
structure BoundInstr where
  instr : Instr
  inputs : List ℕ
deriving DecidableEq

def operands : InstrClass → List ValueType
  | .unreachable | .landingpad .. | .stackshrink _ => []
  | .ret value => value.toList
  | .binop _ lhsValue rhsValue | .cmp2 _ lhsValue rhsValue => [lhsValue, rhsValue]
  | .cmpBranch _ lhsValue rhsValue _ _ => [lhsValue, rhsValue]
  | .cast _ value | .vaarg value | .extractval value _ => [value]
  | .load ptr _ valueOffset _ _ _ => ptr :: valueOffset.toList
  | .store ptr value _ => [ptr, value]
  | .gep baseptr indicies => baseptr :: indicies.map GepIndex.value
  | .br condition _ _ => condition.toList
  | .phi nodes => nodes.nodes.map PhiNode.value
  | .call callee argv | .vmop _ callee argv | .invoke callee _ _ argv =>
    callee :: argv.map Arg.value
  | .switch value _ _ => [value]
  | .alloca _ numItemsValue _ => [numItemsValue]
  | .select trueValue falseValue pred => [trueValue, falseValue, pred]
  | .insertval src replacement _ => [src, replacement]
  | .resume values => values
  | .lea baseptr _ valueOffset _ => baseptr :: valueOffset.toList
  | .move value => [value]
  | .stackcopy value _ => [value]
  | .cmpSelect _ lhsValue rhsValue trueValue falseValue =>
    [lhsValue, rhsValue, trueValue, falseValue]
  | .mla arg1 arg2 arg3 => [arg1, arg2, arg3]

/-- `ir_bb_t` -/
structure Block where
  id : ℕ
  instrs : List BoundInstr
deriving DecidableEq

/-- `ir_bb_edge_t` -/
structure Edge where
  ibeFrom : ℕ
  ibeTo : ℕ
deriving DecidableEq

/-- `ir_function_t`, and the values that the pass has given the class `IR_VC_DEAD`. -/
structure Function where
  bbs : List Block
  edges : List Edge
  dead : List ℕ
deriving DecidableEq

section
variable (f : Function)

def ids : List ℕ := f.bbs.map Block.id

def instrsOf (id : ℕ) : List BoundInstr :=
  (f.bbs.find? fun b => b.id = id).elim [] Block.instrs

def setInstrs (id : ℕ) (is : List BoundInstr) : Function :=
  { f with bbs := f.bbs.map fun b => if b.id = id then { b with instrs := is } else b }

/-- `ib_incoming_edges` -/
def incoming (id : ℕ) : List Edge := f.edges.filter fun e => e.ibeTo = id

/-- `ib_outgoing_edges` -/
def outgoing (id : ℕ) : List Edge := f.edges.filter fun e => e.ibeFrom = id

def bbDestroy (id : ℕ) : Function :=
  { f with
    bbs := f.bbs.filter fun b => b.id ≠ id
    edges := f.edges.filter fun e => e.ibeFrom ≠ id ∧ e.ibeTo ≠ id }

/-- `iv_instructions` of the value has an `IVI_INPUT`. -/
def isInput (v : ℕ) : Bool :=
  f.bbs.any fun b => b.instrs.any fun i => decide (v ∈ i.inputs)

/-- The result that decides whether the instruction may go; there is none if it has to stay. -/
def output (i : BoundInstr) : Option ℕ :=
  match i.instr.cls with
  | .vmop .. | .vaarg _ | .call .. | .invoke .. => none
  | _ =>
    match i.instr.rets with
    | [ret] => if ret.value < 1 then none else some ret.value
    | _ => none

/-- One turn of the loop over the instructions of a block, for the one at position `n`. -/
def visitInstr (id n : ℕ) : Function :=
  match (instrsOf f id)[n]?.bind output with
  | none => f
  | some v =>
    if isInput f v then f
    else { setInstrs f id ((instrsOf f id).eraseIdx n) with dead := v :: f.dead }

end

/-- The instructions below position `n`, from the last to the first. -/
def visitInstrs (f : Function) (id : ℕ) : ℕ → Function
  | 0 => f
  | n + 1 => visitInstrs (visitInstr f id n) id n

def eliminateDeadCodeInBb (f : Function) (id : ℕ) : Function :=
  visitInstrs f id (instrsOf f id).length

/-- The loop that moves the instructions, which goes on while the first queue has some. -/
def moveInstrs (ib fromBb : ℕ) : ℕ → Function → Except Fault Function
  | 0, _ => .error .outOfFuel
  | fuel + 1, f =>
    match instrsOf f ib with
    | [] => .ok f
    | i :: rest =>
      let f := setInstrs f ib rest
      moveInstrs ib fromBb fuel (setInstrs f fromBb (instrsOf f fromBb ++ [i]))

def moveEdges (f : Function) (ib fromBb : ℕ) : Function :=
  { f with
    edges := f.edges.map fun e => if e.ibeFrom = ib then { e with ibeFrom := fromBb } else e }

def isBr (i : BoundInstr) : Bool :=
  match i.instr.cls with
  | .br none _ _ => true
  | _ => false

/-- What is done where `in` is the only edge into a block. -/
def mergeIntoPredecessor (fuel : ℕ) (f : Function) (ib : ℕ) (edge : Edge) :
    Except Fault Function :=
  match (instrsOf f edge.ibeFrom).getLast? with
  | none => .error .nullDeref
  | some last =>
    if isBr last then do
      let f := setInstrs f edge.ibeFrom (instrsOf f edge.ibeFrom).dropLast
      let f := { f with edges := f.edges.erase edge }
      if outgoing f edge.ibeFrom ≠ [] then .error .abort
      else
        let f ← moveInstrs ib edge.ibeFrom fuel f
        .ok (bbDestroy (moveEdges f ib edge.ibeFrom) ib)
    else .ok f

def visitBb (fuel : ℕ) (f : Function) (ib : ℕ) : Except Fault Function :=
  match incoming f ib with
  | [] => .ok (bbDestroy f ib)
  | [edge] => mergeIntoPredecessor fuel (eliminateDeadCodeInBb f ib) ib edge
  | _ => .ok (eliminateDeadCodeInBb f ib)

/-- `fuel` bounds the turns of each loop that moves instructions. -/
def eliminateDeadCode (fuel : ℕ) (f : Function) : Except Fault Function :=
  match f.bbs with
  | [] => .ok f
  | first :: rest =>
    (rest.map Block.id).foldlM (visitBb fuel) (eliminateDeadCodeInBb f first.id)

section
variable {f : Function} {id : ℕ}

@[simp] theorem ids_setInstrs (is : List BoundInstr) : ids (setInstrs f id is) = ids f := by
  unfold ids setInstrs
  rw [List.map_map]
  apply List.map_congr_left
  intro b _
  change (if b.id = id then _ else b : Block).id = b.id
  split <;> rfl

@[simp] theorem edges_setInstrs (is : List BoundInstr) : (setInstrs f id is).edges = f.edges := rfl

@[simp] theorem dead_setInstrs (is : List BoundInstr) : (setInstrs f id is).dead = f.dead := rfl

theorem find_map_instrs (bbs : List Block) (is : List BoundInstr) (id' : ℕ) :
    (bbs.map fun b => if b.id = id then { b with instrs := is } else b).find?
        (fun b => b.id = id')
      = (bbs.find? fun b => b.id = id').map
        fun b => if b.id = id then { b with instrs := is } else b := by
  induction bbs with
  | nil => rfl
  | cons b bbs ih =>
    have hid : (if b.id = id then { b with instrs := is } else b : Block).id = b.id := by
      split <;> rfl
    rw [List.map_cons, List.find?_cons, List.find?_cons, hid, ih]
    by_cases hb : b.id = id'
    · simp only [hb, decide_true, Option.map_some]
    · simp only [hb, decide_false]

theorem instrsOf_setInstrs (is : List BoundInstr) (id' : ℕ) : instrsOf (setInstrs f id is) id'
    = if id' = id ∧ id ∈ ids f then is else instrsOf f id' := by
  unfold instrsOf setInstrs
  simp only [find_map_instrs]
  cases hfind : f.bbs.find? fun b => b.id = id' with
  | none =>
    rw [Option.map_none, if_neg]
    rintro ⟨rfl, hmem⟩
    obtain ⟨b, hb, rfl⟩ := List.mem_map.mp hmem
    have hne := List.find?_eq_none.mp hfind b hb
    exact hne (decide_eq_true rfl)
  | some b =>
    have hb : b.id = id' := by simpa using List.find?_some hfind
    have hmem : b ∈ f.bbs := List.mem_of_find?_eq_some hfind
    rw [Option.map_some]
    by_cases hid : id' = id
    · subst hid
      rw [if_pos hb, if_pos ⟨rfl, List.mem_map.mpr ⟨b, hmem, hb⟩⟩]
      rfl
    · rw [if_neg (hb ▸ hid), if_neg fun h => hid h.1]

theorem instrsOf_setInstrs_self (h : id ∈ ids f) (is : List BoundInstr) :
    instrsOf (setInstrs f id is) id = is := by
  rw [instrsOf_setInstrs, if_pos ⟨rfl, h⟩]

theorem instrsOf_setInstrs_of_ne {id' : ℕ} (h : id' ≠ id) (is : List BoundInstr) :
    instrsOf (setInstrs f id is) id' = instrsOf f id' := by
  rw [instrsOf_setInstrs, if_neg fun h' => h h'.1]

theorem instrsOf_of_notMem (h : id ∉ ids f) : instrsOf f id = [] := by
  unfold instrsOf
  cases hfind : f.bbs.find? fun b => b.id = id with
  | none => rfl
  | some b =>
    have hb : b.id = id := by simpa using List.find?_some hfind
    exact absurd (List.mem_map.mpr ⟨b, List.mem_of_find?_eq_some hfind, hb⟩) h

theorem instrsOf_of_mem (hnodup : (ids f).Nodup) {b : Block} (hb : b ∈ f.bbs) :
    instrsOf f b.id = b.instrs := by
  unfold instrsOf
  unfold ids at hnodup
  generalize f.bbs = bbs at hnodup hb
  induction bbs with
  | nil => exact nomatch hb
  | cons a bbs ih =>
    obtain ⟨ha, hnodup⟩ := List.nodup_cons.mp hnodup
    rw [List.find?_cons]
    rcases List.mem_cons.mp hb with rfl | hb
    · simp
    · have hne : ¬ a.id = b.id := fun h => ha (h ▸ List.mem_map.mpr ⟨b, hb, rfl⟩)
      simp only [hne, decide_false]
      exact ih hnodup hb

@[simp] theorem ids_bbDestroy : ids (bbDestroy f id) = (ids f).filter (· ≠ id) := by
  unfold ids bbDestroy
  rw [List.filter_map]
  rfl

theorem instrsOf_bbDestroy {id' : ℕ} (h : id' ≠ id) :
    instrsOf (bbDestroy f id) id' = instrsOf f id' := by
  unfold instrsOf bbDestroy
  rw [List.find?_filter]
  congr 2
  apply funext
  intro b
  by_cases hb : b.id = id'
  · simp [hb, h]
  · simp [hb]

end

end Vmir.DeadCode
