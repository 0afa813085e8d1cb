import Vmir.ExceptFold
import Vmir.ProgramText
import Vmir.StructLayout

set_option autoImplicit false

/-!
# Ending the layout of a type table

The recursion over the elements of structs and arrays follows indices that are read from the file.
It ends if no type contains itself, or if an element without a size comes first. The message about
such an element has to end as well.
-/
namespace Vmir.TypeTermination
open Ir IrTypes TypePrint TypeLayout StructLayout
open ExceptFold ProgramText

/-! ## Types with and without a size -/

/-- A type whose size does not depend on another one. -/
def sized : IrType → Bool
  | .intx bits => bits ≤ 64
  | .array _ _ | .function _ _ _ | .metadata | .label | .opaqueType => false
  | _ => true

inductive HasSize (types : List IrType) : ℕ → Prop
  | sized {i : ℕ} {it : IrType} : types[i]? = some it → sized it = true → HasSize types i
  | array {i n e : ℕ} : types[i]? = some (.array n e) → HasSize types e → HasSize types i

/-- A struct that is laid out, and before it the structs that are its elements. -/
inductive Fine (types : List IrType) : ℕ → Prop
  | intro {i : ℕ} {s : StructType} : types[i]? = some (.struct s) →
    (∀ j ∈ parts (.struct s), isStruct types j = true → Fine types j) →
    (∀ j ∈ parts (.struct s), HasSize types j) → Fine types i

def shape : IrType → IrType
  | .struct s => .struct ⟨s.elements.map fun e => ⟨e.type, 0⟩, 0, 0, s.packed, s.name⟩
  | it => it

def Shaped (types : List IrType) (iu : IrUnit) : Prop := iu.types.map shape = types.map shape

section
variable {types : List IrType} {iu : IrUnit} {i j : ℕ} {it : IrType}

/-- The table keeps its shape, and what is laid out is fine. -/
structure Sound (types : List IrType) (st : Finalizing) : Prop where
  shaped : Shaped types st.iu
  fine : ∀ j ∈ st.computed, Fine types j

variable {layout : Finalizing → ℕ → Except Fault Finalizing}

end

/-! ## The table -/

section
variable {types : List IrType} {iu : IrUnit} {i j : ℕ}

end

end Vmir.TypeTermination
