import Mathlib.Data.List.FinRange
import Mathlib.Logic.Function.Basic
import Vmir.PrepareCall
import Vmir.TriangularMatrix

set_option autoImplicit false

/-!
# Coalescing and colouring

`coalesce` and the colouring in `reg_alloc` of `vmir_transform.c`, on the `n` values of a function:
the interference matrix, the merges of the operands of a move, and the colours. A value is named by
its place behind the first value of the function. An access outside a table stops the run.
-/
namespace Vmir.Colouring
open Ir IrTypes PrepareCall TriangularMatrix

inductive Stop
  | outside
  | fault (f : Fault)
deriving DecidableEq, Repr

structure Bits where
  size : ℕ
  bit : ℤ → Bool

def bitchk (bs : Bits) (v : ℤ) : Except Stop Bool :=
  if 0 ≤ v ∧ v < bs.size then .ok (bs.bit v) else .error .outside

def bitassign (on : Bool) (bs : Bits) (v : ℤ) : Except Stop Bits :=
  if 0 ≤ v ∧ v < bs.size then .ok { bs with bit := Function.update bs.bit v on }
  else .error .outside

def bitset : Bits → ℤ → Except Stop Bits := bitassign true
def bitclr : Bits → ℤ → Except Stop Bits := bitassign false

def emptyMatrix (tempValues : ℕ) : Bits := ⟨32 * tribitmtxAlloc tempValues, fun _ => false⟩

section
variable {n : ℕ}

def tribitmtxGet (mtx : Bits) (x y : Fin n) : Except Stop Bool := bitchk mtx (tribitmtxPos x y)
def tribitmtxSet (mtx : Bits) (x y : Fin n) : Except Stop Bits := bitset mtx (tribitmtxPos x y)
def tribitmtxClr (mtx : Bits) (x y : Fin n) : Except Stop Bits := bitclr mtx (tribitmtxPos x y)

end

/-- `ir_value_t`, of a value of the function -/
structure TempValue where
  cls : ValueClass
  type : ℕ
  precolored : ℤ
  edges : ℤ

structure State (n : ℕ) where
  mtx : Bits
  values : Fin n → TempValue

section
variable {n : ℕ}

def State.addEdges (s : State n) (x : Fin n) (k : ℤ) : State n :=
  { s with values :=
      Function.update s.values x { s.values x with edges := (s.values x).edges + k } }

/-- An instruction with results: they, the operand of a move (`-1` otherwise), and what is live
behind it. -/
structure Definition (n : ℕ) where
  rets : List (Fin n)
  moved : ℤ
  out : Fin n → Bool

/-! ## The matrix -/

/-- One live value `y`; the second component is `edges`. -/
def addEdge (x : Fin n) (moved : ℤ) (s : State n × ℤ) (y : Fin n) : Except Stop (State n × ℤ) :=
  if y ≠ x ∧ (y : ℤ) ≠ moved then do
    let known ← tribitmtxGet s.1.mtx x y
    if known then return s
    let mtx ← tribitmtxSet s.1.mtx x y
    return (State.addEdges { s.1 with mtx := mtx } y 1, s.2 + 1)
  else return s

def addRet (d : Definition n) (s : State n) (x : Fin n) : Except Stop (State n) := do
  let (s, edges) ← ((List.finRange n).filter d.out).foldlM (addEdge x d.moved) (s, 0)
  return s.addEdges x edges

def addDefinition (s : State n) (d : Definition n) : Except Stop (State n) :=
  d.rets.foldlM (addRet d) s

/-- The values of a function, which have no edges yet. -/
structure Fresh (n : ℕ) where
  values : Fin n → TempValue
  edges_zero : ∀ x, (values x).edges = 0

def buildMatrix (f : Fresh n) (ds : List (Definition n)) : Except Stop (State n) :=
  ds.foldlM addDefinition ⟨emptyMatrix n, f.values⟩

/-! ## The merges -/

/-- A move as it stands when `coalesce` comes to it: the operand is none when it is no value of the
function, the result is none when there are several. -/
structure Move (n : ℕ) where
  src : Option (Fin n)
  dst : Option (Fin n)

def mergeNeighbour (killed saved : Fin n) (s : State n) (i : Fin n) : Except Stop (State n) := do
  if ← tribitmtxGet s.mtx killed i then
    let mtx ← tribitmtxClr s.mtx killed i
    if ← tribitmtxGet mtx saved i then
      return State.addEdges { s with mtx := mtx } i (-1)
    else
      let mtx ← tribitmtxSet mtx saved i
      return State.addEdges { s with mtx := mtx } saved 1
  else return s

def State.kill (s : State n) (x : Fin n) : State n :=
  { s with values := Function.update s.values x { s.values x with edges := 0, cls := .dead } }

def merge (s : State n) (killed saved : Fin n) : Except Stop (State n) := do
  let s ← (List.finRange n).foldlM (mergeNeighbour killed saved) s
  return s.kill killed

def coalesceMove (s : State n) (m : Move n) : Except Stop (State n) :=
  match m.src with
  | none => .ok s
  | some src =>
    if (s.values src).cls ≠ .temporary then .ok s
    else match m.dst with
    | none => .ok s
    | some dst =>
      if dst = src then .ok s
      else if (s.values dst).cls ≠ .temporary then .error (.fault .abort)
      else if (s.values dst).precolored ≠ -1 ∧ (s.values src).precolored ≠ -1 then .ok s
      else do
        if ← tribitmtxGet s.mtx dst src then return s
        else if (s.values src).precolored ≠ -1 then merge s dst src
        else merge s src dst

def coalesce (s : State n) (ms : List (Move n)) : Except Stop (State n) := ms.foldlM coalesceMove s

/-! ## The colours -/

inductive RaClass
  | machinereg32 | regframe32 | regframe64
deriving DecidableEq, Repr

/-- `value_info_t` -/
structure ValueInfo (n : ℕ) where
  value : Fin n
  score : ℤ
  cls : RaClass

/-- `jit` is `iv_jit`, as `jit_analyze` left it. -/
def valueInfo (iu : IrUnit) (jit : Fin n → Bool) (s : State n) (x : Fin n) :
    Except Stop (ValueInfo n) :=
  match valueRegframeSlots iu (s.values x).type with
  | .error f => .error (.fault f)
  | .ok slots =>
    if slots = 2 then .ok ⟨x, (s.values x).edges, .regframe64⟩
    else if slots = 1 then
      .ok ⟨x, (s.values x).edges, if jit x then .machinereg32 else .regframe32⟩
    else .error (.fault .abort)

def IsVertex (s : State n) (x : Fin n) : Prop :=
  (s.values x).cls = .temporary ∧ (s.values x).precolored = -1

instance (s : State n) (x : Fin n) : Decidable (IsVertex s x) :=
  inferInstanceAs (Decidable (_ ∧ _))

def vertices (iu : IrUnit) (jit : Fin n → Bool) (s : State n) :
    Except Stop (List (ValueInfo n)) :=
  ((List.finRange n).filter fun x => IsVertex s x).mapM (valueInfo iu jit s)

def graphDegree (vi : List (ValueInfo n)) : ℤ := vi.foldl (fun d v => max d v.score) 0

def degreeWords (vi : List (ValueInfo n)) : ℕ := ((graphDegree vi + 32).tdiv 32).toNat

/-- The colour of the neighbour `x`, at the bit `pos` of the matrix, is no longer free. -/
def takeColour (mtx : Bits) (colors : ℕ → ℤ) (colortab : Bits) (x : ℕ × ℤ) : Except Stop Bits := do
  if ← bitchk mtx x.2 then
    if 0 ≤ colors x.1 then bitclr colortab (colors x.1) else return colortab
  else return colortab

/-- The first word that is not zero, and its lowest bit. -/
def ffs (colortab : Bits) : Option ℕ := (List.range colortab.size).find? fun c => colortab.bit c

def colourVertex (mtx : Bits) (words : ℕ) (colors : ℕ → ℤ) (v : ValueInfo n) :
    Except Stop (ℕ → ℤ) := do
  let colortab ← (regAllocScan n v.value).foldlM (takeColour mtx colors) ⟨32 * words, fun _ => true⟩
  match ffs colortab with
  | none => return colors
  | some c => return Function.update colors v.value c

/-- The colours after the loop over the sorted vertices. -/
def colour (mtx : Bits) (vi : List (ValueInfo n)) : Except Stop (ℕ → ℤ) :=
  vi.foldlM (colourVertex mtx (degreeWords vi)) fun _ => -1

end

end Vmir.Colouring
