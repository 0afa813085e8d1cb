import Mathlib.Algebra.Group.Nat.Defs
import Mathlib.Data.List.Basic
import Mathlib.Logic.Function.Basic
import Vmir.IrTypes

set_option autoImplicit false

/-!
# The value table

The vector of pointers to values. Definitions take the next index, operands may refer to values
behind it, and the end of a function removes the values that it has added.
-/
namespace Vmir.ValueTable
open Ir IrTypes

/-- The class and the type of an `ir_value_t`. -/
structure Object where
  cls : ValueClass
  type : BitVec 32
deriving DecidableEq

/-- `iu_values` and `iu_next_value`. The pointers are addresses of objects, NULL is `none`; `fresh`
is the address of the next object. -/
structure Values where
  items : List (Option ℕ)
  next : ℕ
  objects : ℕ → Object
  fresh : ℕ

/-- `calloc` -/
def zeroed : Object := ⟨.undef, 0⟩

/-- The table after a new object has been stored at the index. -/
def create (s : Values) (index : ℕ) : Values :=
  { s with
    items := s.items.set index (some s.fresh)
    objects := Function.update s.objects s.fresh zeroed
    fresh := s.fresh + 1 }

/-- `value_append`, which returns the index. An index has 31 bits. -/
def valueAppend (s : Values) : Except Fault (Values × ℕ) :=
  if 2 ^ 31 ≤ s.next + 1 then .error .abort
  else if s.next = s.items.length then
    .ok ({ create { s with items := s.items ++ [none] } s.next with next := s.next + 1 }, s.next)
  else
    match s.items[s.next]? with
    | none => .error .abort
    | some none => .ok ({ create s s.next with next := s.next + 1 }, s.next)
    | some (some _) => .ok ({ s with next := s.next + 1 }, s.next)

/-- The pointer that is stored at an index within the vector. -/
def item (s : Values) (index : ℕ) : Except Fault ℕ :=
  match s.items[index]? with
  | some (some a) => .ok a
  | _ => .error .nullDeref

/-- `value_append`, and what the caller makes of the value. -/
def define (s : Values) (cls : ValueClass) (type : BitVec 32) : Except Fault (Values × ℕ) := do
  let (s, index) ← valueAppend s
  let a ← item s index
  .ok ({ s with objects := Function.update s.objects a ⟨cls, type⟩ }, a)

def relative (s : Values) (code : BitVec 64) : ℕ :=
  ((BitVec.ofNat 64 s.next - code).setWidth 32).toNat

/-- `VECTOR_RESIZE` to hold the index, and NULL in the new places. From 2^31 - 1 on the new capacity
or the counter of the loop wraps around and memory outside the vector is written. -/
def grow (s : Values) (index : ℕ) : Except Fault Values :=
  if index < s.items.length then .ok s
  else if 2 ^ 31 ≤ index + 1 then .error .abort
  else .ok { s with items := s.items ++ List.replicate (index + 1 - s.items.length) none }

/-- The object at the index, a new one if there is none. -/
def materialize (s : Values) (index : ℕ) : Values :=
  match s.items[index]? with
  | some none => create s index
  | _ => s

/-- `instr_get_vtp`: a value that is defined, or one that is referred to with its type. -/
def instrGetVtp (s : Values) (code type : BitVec 64) : Except Fault (Values × ℕ) :=
  if relative s code < s.next then do
    let a ← item s (relative s code)
    .ok (s, a)
  else do
    let s' ← grow s (relative s code)
    let s' := materialize s' (relative s code)
    let a ← item s' (relative s code)
    .ok ({ s' with
      objects := Function.update s'.objects a { s'.objects a with type := type.setWidth 32 } }, a)

/-- `value_resize`, which leaves the length of the vector. -/
def valueResize (s : Values) (newsize : ℕ) : Except Fault Values :=
  if s.items.length < newsize then .error .abort
  else .ok { s with
    items := s.items.take newsize ++ List.replicate (s.items.length - newsize) none
    next := newsize }

def valueGet (s : Values) (index : BitVec 32) : Except Fault (Option ℕ) :=
  match s.items[index.toNat]? with
  | some p => .ok p
  | none => .error (.parserError "Bad value index %d")

/-- `value_function`: no index is negative. -/
def valueFunction (s : Values) (id : BitVec 32) : Except Fault (Option ℕ) :=
  if id.msb then .ok none
  else
    match s.items[id.toNat]? with
    | none => .ok none
    | some none => .error .nullDeref
    | some (some a) =>
      match (s.objects a).cls with
      | .function _ => .ok (some a)
      | _ => .ok none

/-! ## Runs -/

inductive Call
  | define (cls : ValueClass) (type : BitVec 32)
  | instrGetVtp (code type : BitVec 64)
  | valueResize (newsize : ℕ)
  | valueGet (index : BitVec 32)
  | valueFunction (id : BitVec 32)

/-- The table after the call, and the object that it returns. -/
def step (s : Values) : Call → Except Fault (Values × Option ℕ)
  | .define cls type => do
    let (s, a) ← define s cls type
    .ok (s, some a)
  | .instrGetVtp code type => do
    let (s, a) ← instrGetVtp s code type
    .ok (s, some a)
  | .valueResize newsize => do
    let s ← valueResize s newsize
    .ok (s, none)
  | .valueGet index => do
    let p ← valueGet s index
    .ok (s, p)
  | .valueFunction id => do
    let p ← valueFunction s id
    .ok (s, p)

/-- The indices that have been referred to before their definition, and not been removed since. -/
def forwards (s : Values) (fs : List ℕ) : Call → List ℕ
  | .instrGetVtp code _ => if relative s code < s.next then fs else relative s code :: fs
  | .valueResize newsize => fs.filter (· < newsize)
  | _ => fs

def empty : Values := ⟨[], 0, fun _ => zeroed, 0⟩

/-- The parser resizes the table to a size that it had. -/
def Parses (s : Values) : Call → Prop
  | .valueResize newsize => newsize ≤ s.next
  | _ => True

/-- Indices fit 31 bits, and an index behind the next one is looked up only if it has been referred
to. -/
def Meets (s : Values) (fs : List ℕ) : Call → Prop
  | .define _ _ => s.next + 1 < 2 ^ 31
  | .instrGetVtp code _ => relative s code < s.next ∨ relative s code + 1 < 2 ^ 31
  | .valueResize _ => True
  | .valueGet index => index.toNat < s.next ∨ index.toNat ∈ fs ∨ s.items.length ≤ index.toNat
  | .valueFunction id => id.toNat < s.next ∨ id.toNat ∈ fs ∨ s.items.length ≤ id.toNat

/-- Runs from an empty table, with the forward references. -/
inductive Reach (allowed : Values → List ℕ → Call → Prop) : Values → List ℕ → Prop
  | start : Reach allowed empty []
  | step {s s' : Values} {fs : List ℕ} {c : Call} {p : Option ℕ} : Reach allowed s fs →
    Parses s c → allowed s fs c → step s c = .ok (s', p) → Reach allowed s' (forwards s fs c)

end Vmir.ValueTable
