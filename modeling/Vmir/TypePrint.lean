import Mathlib.Data.Finset.Card
import Mathlib.Logic.Relation
import Vmir.IrTypes

set_option autoImplicit false

/-!
# The texts of types

`type_print` of `vmir_type.c` writes a type for a message. It follows the types that a type refers
to, also through pointers, and stops at the name of a struct only.
-/
namespace Vmir.TypePrint
open Ir IrTypes

def nameText (name : List (BitVec 8)) : String :=
  String.ofList ((name.takeWhile (· ≠ 0)).map fun b => Char.ofNat b.toNat)

def typePrintId (types : List IrType) (print : IrType → Option String) (id : ℕ) : Option String :=
  match types[id]? with
  | some it => print it
  | none => some s!"[TypeId-{(BitVec.ofNat 32 id).toInt}]"

/-- There is no text if the recursion goes deeper than `depth`. -/
def typePrint (types : List IrType) : ℕ → IrType → Option String
  | 0, _ => none
  | depth + 1, it =>
    let printId := typePrintId types (typePrint types depth)
    match it with
    | .void => some "void"
    | .int1 => some "i1"
    | .int8 => some "i8"
    | .int16 => some "i16"
    | .int32 => some "i32"
    | .int64 => some "i64"
    | .float => some "float"
    | .double => some "double"
    | .metadata => some "metadata"
    | .label => some "label"
    | .opaqueType => some "opaque"
    | .intx bits => some s!"i{bits}"
    | .struct s =>
      match s.name with
      | some name => some (nameText name)
      | none =>
        let elements := s.elements.mapM fun e =>
          (printId e.type).map fun text =>
            s!"{text} @ {String.ofList (Nat.toDigits 16 e.offset.toNat)}"
        elements.map fun texts => "struct \x7b" ++ " ".intercalate texts ++ "\x7d"
    | .array numElements elementType =>
      (printId elementType).map fun text => s!"[ {text} x {(BitVec.ofNat 32 numElements).toInt} ]"
    | .pointer none => some "void*"
    | .pointer (some pointee) => (printId pointee).map fun text => s!"{text}*"
    | .function _ returnType parameters => do
      let text ← printId returnType
      (parameters.mapM printId).map fun texts => text ++ " (*)(" ++ ", ".intercalate texts ++ ")"

/-- A recursion that goes deeper than there are types does not end. -/
def typeStr (iu : IrUnit) (it : IrType) : Except Fault String :=
  match typePrint iu.types (iu.types.length + 1) it with
  | some text => .ok text
  | none => .error .outOfFuel

/-! ## The types that are printed on the way -/

def printed : IrType → List ℕ
  | .struct s => if s.name = none then s.elements.map StructElement.type else []
  | .array _ elementType => [elementType]
  | .pointer pointee => pointee.toList
  | .function _ returnType parameters => returnType :: parameters
  | _ => []

def Shows (types : List IrType) (i j : ℕ) : Prop := ∃ it, types[i]? = some it ∧ j ∈ printed it

/-- The text of the type is finite: the types that it shows, and those that they show, come to an
end. -/
def Prints (types : List IrType) (i : ℕ) : Prop := Acc (fun j i => Shows types i j) i

/-- The functions of the table have finite texts. -/
def Printable (types : List IrType) : Prop :=
  ∀ (i : ℕ) (varargs : Bool) (returnType : ℕ) (parameters : List ℕ),
    types[i]? = some (.function varargs returnType parameters) → Prints types i

section
variable {α β : Type} {types : List IrType} {i : ℕ} {it : IrType}

theorem isSome_mapM {f : α → Option β} {as : List α} :
    (as.mapM f).isSome ↔ ∀ a ∈ as, (f a).isSome := by
  induction as with
  | nil => simp
  | cons a as ih =>
    rw [List.mapM_cons, List.forall_mem_cons, ← ih]
    cases f a with
    | none => simp
    | some b => cases as.mapM f <;> simp

theorem isSome_typePrint (types : List IrType) (d : ℕ) (it : IrType) :
    (typePrint types (d + 1) it).isSome
      ↔ ∀ j ∈ printed it, (typePrintId types (typePrint types d) j).isSome := by
  cases it with
  | struct s =>
    obtain ⟨es, size, a, packed, name⟩ := s
    cases name with
    | some name => simp [typePrint, printed]
    | none => simp [typePrint, printed, isSome_mapM]
  | pointer p => cases p <;> simp [typePrint, printed]
  | function v r ps =>
    unfold typePrint printed
    rw [List.forall_mem_cons, ← isSome_mapM]
    cases hr : typePrintId types (typePrint types d) r <;> simp [hr]
  | _ => simp [typePrint, printed]

theorem typePrintId_outside {print : IrType → Option String} (h : types[i]? = none) :
    (typePrintId types print i).isSome := by
  unfold typePrintId
  rw [h]
  rfl

theorem typePrintId_inside {print : IrType → Option String} (h : types[i]? = some it) :
    typePrintId types print i = print it := by
  unfold typePrintId
  rw [h]

/-! ## Texts that are finite -/

theorem Prints.not_self (h : Prints types i) : ¬ Relation.TransGen (Shows types) i i := by
  have hacc : Acc (Relation.TransGen fun j i => Shows types i j) i := h.transGen
  intro hself
  have hback := Relation.transGen_swap.mpr hself
  clear hself h
  induction hacc with
  | intro i _ ih => exact ih i hback hback

/-- As many calls are enough as there are types that the type shows, directly or not. -/
theorem typePrint_within {S : Finset ℕ} (h : Prints types i) (ht : types[i]? = some it)
    (hS : ∀ j, Relation.TransGen (Shows types) i j → j < types.length → j ∈ S) :
    (typePrint types (S.card + 1) it).isSome := by
  induction hn : S.card generalizing S i it with
  | zero =>
    rw [isSome_typePrint]
    intro j hj
    refine typePrintId_outside (List.getElem?_eq_none (Nat.le_of_not_lt fun hlt => ?_))
    have hmem := hS j (.single ⟨it, ht, hj⟩) hlt
    rw [Finset.card_eq_zero.mp hn] at hmem
    exact Finset.notMem_empty j hmem
  | succ n ih =>
    rw [isSome_typePrint]
    intro j hj
    have hshows : Shows types i j := ⟨it, ht, hj⟩
    cases hjt : types[j]? with
    | none => exact typePrintId_outside hjt
    | some jt =>
      rw [typePrintId_inside hjt]
      have hprints : Prints types j := h.inv hshows
      have hmem : j ∈ S := hS j (.single hshows) (List.getElem?_eq_some_iff.mp hjt).1
      have hcard : (S.erase j).card = n := by
        rw [Finset.card_erase_of_mem hmem, hn, Nat.add_sub_cancel]
      refine ih hprints hjt (fun k hk hlt => ?_) hcard
      have hne : k ≠ j := fun heq => hprints.not_self (heq ▸ hk)
      exact Finset.mem_erase.mpr ⟨hne, hS k (.head hshows hk) hlt⟩

theorem prints_of_typePrint {d : ℕ} (ht : types[i]? = some it)
    (h : (typePrint types d it).isSome) : Prints types i := by
  induction d generalizing i it with
  | zero => exact nomatch h
  | succ d ih =>
    rw [isSome_typePrint] at h
    refine Acc.intro i fun j ⟨it', ht', hj⟩ => ?_
    obtain rfl := Option.some.inj (ht.symm.trans ht')
    cases hjt : types[j]? with
    | none => exact Acc.intro j fun k ⟨jt, hjt', _⟩ => nomatch hjt.symm.trans hjt'
    | some jt =>
      have hprint := h j hj
      rw [typePrintId_inside hjt] at hprint
      exact ih hjt hprint

theorem isSome_typePrint_iff (ht : types[i]? = some it) :
    (typePrint types (types.length + 1) it).isSome ↔ Prints types i := by
  refine ⟨prints_of_typePrint ht, fun h => ?_⟩
  have hbound := typePrint_within (S := Finset.range types.length) h ht fun j _ hlt =>
    Finset.mem_range.mpr hlt
  rwa [Finset.card_range] at hbound

theorem typeStr_ok {iu : IrUnit} (ht : iu.types[i]? = some it) (h : Prints iu.types i) :
    ∃ text, typeStr iu it = .ok text := by
  have hsome := (isSome_typePrint_iff ht).mpr h
  unfold typeStr
  cases htext : typePrint iu.types (iu.types.length + 1) it with
  | some text => exact ⟨text, rfl⟩
  | none =>
    rw [htext] at hsome
    cases hsome

theorem typeStr_endless {iu : IrUnit} (ht : iu.types[i]? = some it) (h : ¬ Prints iu.types i) :
    typeStr iu it = .error .outOfFuel := by
  unfold typeStr
  cases htext : typePrint iu.types (iu.types.length + 1) it with
  | none => rfl
  | some text =>
    refine absurd ((isSome_typePrint_iff ht).mp ?_) h
    rw [htext]
    rfl

theorem prints_congr {types' : List IrType}
    (h : ∀ i : ℕ, Option.map printed (types'[i]?) = Option.map printed (types[i]?)) :
    Prints types' i ↔ Prints types i := by
  have hshows : Shows types' = Shows types := by
    funext i j
    have hmem : ∀ ts : List IrType, Shows ts i j ↔ ∃ js ∈ Option.map printed (ts[i]?), j ∈ js := by
      intro ts
      constructor
      · rintro ⟨it, hit, hj⟩
        exact ⟨printed it, Option.mem_map.mpr ⟨it, hit, rfl⟩, hj⟩
      · rintro ⟨js, hjs, hj⟩
        obtain ⟨it, hit, rfl⟩ := Option.mem_map.mp hjs
        exact ⟨it, hit, hj⟩
    exact propext (by rw [hmem, hmem, h i])
  unfold Prints
  rw [hshows]

end

/-- A function that returns a struct of itself has no end. -/
example : typeStr ⟨[.function false 1 [], .struct ⟨[⟨0, 0⟩], 0, 0, false, none⟩], [], fun _ => 0⟩
    (.function false 1 []) = .error .outOfFuel := by
  rfl

end Vmir.TypePrint
