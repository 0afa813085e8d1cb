import Vmir.Alignment
import Vmir.TypePrint

set_option autoImplicit false

/-!
# Sizes and layouts of types

The functions of `vmir_type.c` that compute them. Element types are indices into the table, so each
function takes the depth to which it follows them.
-/
namespace Vmir.TypeLayout
open Ir IrTypes TypePrint Vmir.Alignment

/-- The `parser_error` about a type that has no size; its text comes first. -/
def unsizedError (iu : IrUnit) (it : IrType) (msg : String) : Except Fault (BitVec 32) := do
  let _ ← typeStr iu it
  .error (.parserError msg)

theorem unsizedError_ne_ok (iu : IrUnit) (it : IrType) (msg : String) (size : BitVec 32) :
    unsizedError iu it msg ≠ .ok size := by
  unfold unsizedError
  cases typeStr iu it <;> exact nofun

def typeSizeofPtr (iu : IrUnit) : ℕ → IrType → Except Fault (BitVec 32)
  | _, .void => .ok 0
  | _, .int1 => .ok 1
  | _, .int8 => .ok 1
  | _, .int16 => .ok 2
  | _, .int32 => .ok 4
  | _, .float => .ok 4
  | _, .int64 => .ok 8
  | _, .double => .ok 8
  | _, .intx bits =>
    if bits ≤ 32 then .ok 4
    else if bits ≤ 64 then .ok 8
    else unsizedError iu (.intx bits) "Unable to compute size of type %s\n"
  | _, .pointer _ => .ok 4
  | _, .struct s => .ok s.size
  | depth + 1, .array numElements elementType => do
    let it ← typeGet iu elementType
    let size ← typeSizeofPtr iu depth it
    .ok (size * BitVec.ofNat 32 numElements)
  | 0, .array _ _ => .error .outOfFuel
  | _, .function varargs returnType parameters =>
    unsizedError iu (.function varargs returnType parameters) "Unable to compute size of type %s\n"
  | _, .metadata => unsizedError iu .metadata "Unable to compute size of type %s\n"
  | _, .label => unsizedError iu .label "Unable to compute size of type %s\n"
  | _, .opaqueType => unsizedError iu .opaqueType "Unable to compute size of type %s\n"

def typeSizeof (iu : IrUnit) (depth index : ℕ) : Except Fault (BitVec 32) := do
  let it ← typeGet iu index
  typeSizeofPtr iu depth it

def typeAlignmentPtr (iu : IrUnit) : ℕ → IrType → Except Fault (BitVec 32)
  | _, .void => .ok 0
  | _, .int1 => .ok 1
  | _, .int8 => .ok 1
  | _, .int16 => .ok 2
  | _, .int32 => .ok 4
  | _, .float => .ok 4
  | _, .int64 => .ok 8
  | _, .double => .ok 8
  | _, .intx bits =>
    if bits ≤ 32 then .ok 4
    else if bits ≤ 64 then .ok 8
    else unsizedError iu (.intx bits) "Unable to compute alignment for type %s\n"
  | _, .pointer _ => .ok 4
  | _, .struct s => .ok s.alignment
  | depth + 1, .array _ elementType => do
    let it ← typeGet iu elementType
    typeAlignmentPtr iu depth it
  | 0, .array _ _ => .error .outOfFuel
  | _, .function varargs returnType parameters =>
    unsizedError iu (.function varargs returnType parameters) "Unable to compute alignment for type %s\n"
  | _, .metadata => unsizedError iu .metadata "Unable to compute alignment for type %s\n"
  | _, .label => unsizedError iu .label "Unable to compute alignment for type %s\n"
  | _, .opaqueType => unsizedError iu .opaqueType "Unable to compute alignment for type %s\n"

def typeAlignment (iu : IrUnit) (depth index : ℕ) : Except Fault (BitVec 32) := do
  let it ← typeGet iu index
  typeAlignmentPtr iu depth it

/-! ## Structs -/

/-- The unit while the structs are laid out, with those whose `computed` is set. The sizes,
alignments and offsets of the others are whatever was in memory. -/
structure Finalizing where
  iu : IrUnit
  computed : List ℕ

/-- The variables of `type_struct_layout`, and the elements behind it. -/
structure LayoutLoop where
  state : Finalizing
  offset : BitVec 32
  ba : BitVec 32
  elements : List StructElement

/-- A struct that was not laid out yet is, by `layout`. -/
def layoutIfStruct (layout : Finalizing → ℕ → Except Fault Finalizing) (st : Finalizing)
    (ty : IrType) (index : ℕ) : Except Fault Finalizing :=
  if ty.code = .struct ∧ index ∉ st.computed then layout st index else .ok st

/-- The body of the loop; `layout` is the call of the function itself. -/
def layoutElement (layout : Finalizing → ℕ → Except Fault Finalizing) (depth : ℕ) (packed : Bool)
    (s : LayoutLoop) (e : StructElement) : Except Fault LayoutLoop := do
  let ty ← typeGet s.state.iu e.type
  let state ← layoutIfStruct layout s.state ty e.type
  let ty ← typeGet state.iu e.type
  let size ← typeSizeofPtr state.iu depth ty
  if packed then
    .ok ⟨state, s.offset + size, s.ba, s.elements ++ [⟨e.type, s.offset⟩]⟩
  else do
    let a ← typeAlignmentPtr state.iu depth ty
    let offset := alignWord s.offset a
    let ba := if a.slt s.ba then s.ba else a
    .ok ⟨state, offset + size, ba, s.elements ++ [⟨e.type, offset⟩]⟩

def typeStructLayout : ℕ → Finalizing → ℕ → Except Fault Finalizing
  | 0, _, _ => .error .outOfFuel
  | depth + 1, st, index => do
    let it ← typeGet st.iu index
    match it with
    | .struct s => do
      let l ← s.elements.foldlM (layoutElement (typeStructLayout depth) depth s.packed) ⟨st, 0, 1, []⟩
      let size := if s.packed then l.offset else alignWord l.offset l.ba
      .ok ⟨{ l.state.iu with
        types := l.state.iu.types.set index (.struct ⟨l.elements, size, l.ba, s.packed, s.name⟩) },
        index :: l.state.computed⟩
    | _ => .error .abort

def finalizeType (depth : ℕ) (st : Finalizing) (index : ℕ) : Except Fault Finalizing := do
  let it ← typeGet st.iu index
  layoutIfStruct (typeStructLayout depth) st it index

def typesFinalize (depth : ℕ) (iu : IrUnit) : Except Fault IrUnit := do
  let st ← (List.range iu.types.length).foldlM (finalizeType depth) ⟨iu, []⟩
  .ok st.iu

/-! ## Pointers -/

def typeGetPointee (iu : IrUnit) (id : ℕ) : Except Fault ℕ := do
  let it ← typeGet iu id
  match it with
  | .pointer (some pointee) => .ok pointee
  | .pointer none => .error (.parserError "Attempting to dereference void pointer")
  | _ => .error (.parserError "Type (%s) (index:%d) is not a pointer")

/-- `type_make_pointer` that may not create the type. A pointee of -1 is that of a void pointer. -/
def typeMakePointer (iu : IrUnit) (type : BitVec 32) : Option ℕ :=
  iu.types.findIdx? fun it => it = .pointer (if type = -1 then none else some type.toNat)

end Vmir.TypeLayout
