import Mathlib.Data.List.Infix
import Vmir.ConstExprs
import Vmir.GepLowering

set_option autoImplicit false

/-!
# Growing tables

A pass appends types and values to the tables of the unit. What was read from them before is read
from them afterwards.
-/
namespace Vmir.UnitGrowth
open Ir IrTypes TypeLayout ConstExprs GepLowering

structure Extends (iu iu' : IrUnit) : Prop where
  types : iu.types <+: iu'.types
  values : iu.values <+: iu'.values

theorem Extends.refl (iu : IrUnit) : Extends iu iu := ⟨List.prefix_rfl, List.prefix_rfl⟩

theorem Extends.trans {iu iu' iu'' : IrUnit} (h : Extends iu iu') (h' : Extends iu' iu'') :
    Extends iu iu'' :=
  ⟨h.types.trans h'.types, h.values.trans h'.values⟩

theorem getElem_of_extends {α : Type} {l l' : List α} (h : l <+: l') {i : ℕ} {x : α}
    (hx : l[i]? = some x) : l'[i]? = some x := by
  obtain ⟨extra, rfl⟩ := h
  rw [List.getElem?_append_left (List.getElem?_eq_some_iff.mp hx).1]
  exact hx

section
variable {iu iu' : IrUnit} (h : Extends iu iu')
include h

theorem Extends.typeGet {i : ℕ} {it : IrType} (hi : IrTypes.typeGet iu i = .ok it) :
    IrTypes.typeGet iu' i = .ok it := by
  unfold IrTypes.typeGet at hi ⊢
  cases ht : iu.types[i]? with
  | none =>
    rw [ht] at hi
    exact nomatch hi
  | some it' =>
    rw [ht] at hi
    rw [getElem_of_extends h.types ht]
    exact hi

theorem Extends.valueGet {i : ℕ} {iv : Value} (hi : IrTypes.valueGet iu i = .ok iv) :
    IrTypes.valueGet iu' i = .ok iv := by
  unfold IrTypes.valueGet at hi ⊢
  cases ht : iu.values[i]? with
  | none =>
    rw [ht] at hi
    exact nomatch hi
  | some iv' =>
    rw [ht] at hi
    rw [getElem_of_extends h.values ht]
    exact hi

theorem Extends.valueGetConst32 {iv : Value} {x : BitVec 32}
    (hx : IrTypes.valueGetConst32 iu iv = .ok x) : IrTypes.valueGetConst32 iu' iv = .ok x := by
  unfold IrTypes.valueGetConst32 at hx ⊢
  cases ht : IrTypes.typeGet iu iv.type with
  | error e =>
    rw [ht] at hx
    exact nomatch hx
  | ok it =>
    rw [ht] at hx
    rw [h.typeGet ht]
    exact hx

theorem Extends.typeSizeofPtr {depth : ℕ} {it : IrType} {size : BitVec 32}
    (hsize : TypeLayout.typeSizeofPtr iu depth it = .ok size) :
    TypeLayout.typeSizeofPtr iu' depth it = .ok size := by
  induction depth generalizing it size with
  | zero =>
    cases it with
    | function v r ps => exact absurd hsize (TypeLayout.unsizedError_ne_ok iu _ _ size)
    | _ => exact hsize
  | succ depth ih =>
    cases it with
    | array n e =>
      unfold TypeLayout.typeSizeofPtr at hsize ⊢
      cases ht : IrTypes.typeGet iu e with
      | error f =>
        rw [ht] at hsize
        exact nomatch hsize
      | ok element =>
        rw [ht] at hsize
        rw [h.typeGet ht]
        change (TypeLayout.typeSizeofPtr iu depth element >>= _) = _ at hsize
        change (TypeLayout.typeSizeofPtr iu' depth element >>= _) = _
        cases hs : TypeLayout.typeSizeofPtr iu depth element with
        | error f =>
          rw [hs] at hsize
          exact nomatch hsize
        | ok s =>
          rw [hs] at hsize
          rw [ih hs]
          exact hsize
    | function v r ps => exact absurd hsize (TypeLayout.unsizedError_ne_ok iu _ _ size)
    | _ => exact hsize

theorem Extends.typeSizeof {depth i : ℕ} {size : BitVec 32}
    (hsize : TypeLayout.typeSizeof iu depth i = .ok size) :
    TypeLayout.typeSizeof iu' depth i = .ok size := by
  unfold TypeLayout.typeSizeof at hsize ⊢
  cases ht : IrTypes.typeGet iu i with
  | error e =>
    rw [ht] at hsize
    exact nomatch hsize
  | ok it =>
    rw [ht] at hsize
    rw [h.typeGet ht]
    exact h.typeSizeofPtr hsize

end

/-! ## The functions that append -/

theorem extends_valueAllocInstrRet (iu : IrUnit) (type : ℕ) :
    Extends iu (valueAllocInstrRet iu type).1 :=
  ⟨List.prefix_rfl, List.prefix_append _ _⟩

theorem extends_makePointer (iu : IrUnit) (type : ℕ) : Extends iu (makePointer iu type).1 := by
  unfold makePointer
  split
  · exact Extends.refl iu
  · exact ⟨List.prefix_append _ _, List.prefix_rfl⟩

theorem typeGet_makePointer (iu : IrUnit) (type : ℕ) :
    typeGet (makePointer iu type).1 (makePointer iu type).2 = .ok (.pointer (some type)) := by
  unfold makePointer
  cases hfind : iu.types.findIdx? fun it => it = .pointer (some type) with
  | some i =>
    obtain ⟨hlt, hit, -⟩ := List.findIdx?_eq_some_iff_getElem.mp hfind
    change typeGet iu i = _
    unfold typeGet
    rw [List.getElem?_eq_getElem hlt, of_decide_eq_true hit]
  | none =>
    change typeGet { iu with types := iu.types ++ [.pointer (some type)] } iu.types.length = _
    unfold typeGet
    rw [List.getElem?_concat_length]

theorem valueGet_valueAllocInstrRet (iu : IrUnit) (type : ℕ) :
    valueGet (valueAllocInstrRet iu type).1 (valueAllocInstrRet iu type).2.value
      = .ok ⟨.temporary, type⟩ := by
  change valueGet { iu with values := iu.values ++ [⟨.temporary, type⟩] } iu.values.length = _
  unfold valueGet
  rw [List.getElem?_concat_length]

end Vmir.UnitGrowth
