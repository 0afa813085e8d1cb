import Mathlib.Data.List.OfFn
import Vmir.RecordLayout
import Vmir.TypeLayout

set_option autoImplicit false

/-!
# The layout of structs

The structs of a type table are laid out in the order of the table, each after the structs that are
its elements. What `types_finalize` makes of the table is compared with the sizes and alignments that
the layout rules prescribe.
-/
namespace Vmir.StructLayout
open Ir IrTypes Vmir.Alignment RecordLayout TypePrint TypeLayout

/-! ## The layout rules -/

/-- Size and alignment of the types that have no parts, as `type_sizeof` and `type_alignment` count
them: an odd width takes a word or two. Of those without a size nothing is said. -/
def scalarLayout : IrType → ℕ × ℕ
  | .int1 => (1, 1)
  | .int8 => (1, 1)
  | .int16 => (2, 2)
  | .int32 => (4, 4)
  | .float => (4, 4)
  | .pointer _ => (4, 4)
  | .int64 => (8, 8)
  | .double => (8, 8)
  | .intx bits => if bits ≤ 32 then (4, 4) else (8, 8)
  | _ => (0, 0)

/-- The layout of a type, from those of the types in the table. -/
def layoutOf (L : ℕ → ℕ × ℕ) : IrType → ℕ × ℕ
  | .struct s => recordLayout s.packed (s.elements.map fun e => L e.type)
  | .array numElements elementType => (numElements * (L elementType).1, (L elementType).2)
  | it => scalarLayout it

/-- The layout of the type at an index, none outside the table. -/
def layoutAt (types : List IrType) (L : ℕ → ℕ × ℕ) (i : ℕ) : ℕ × ℕ :=
  match types[i]? with
  | some it => layoutOf L it
  | none => (0, 0)

def Solves (types : List IrType) (L : ℕ → ℕ × ℕ) : Prop := ∀ i, L i = layoutAt types L i

/-- The types that a value of the type contains. -/
def parts : IrType → List ℕ
  | .struct s => s.elements.map StructElement.type
  | .array _ elementType => [elementType]
  | _ => []

def Acyclic (types : List IrType) : Prop :=
  ∃ rank : ℕ → ℕ, ∀ (i : ℕ) (it : IrType), types[i]? = some it → ∀ j ∈ parts it, rank j < rank i

/-- Sizes are counted without overflow, and no element of a struct that is not packed is void. -/
structure Sized (types : List IrType) (L : ℕ → ℕ × ℕ) : Prop where
  structs : ∀ (i : ℕ) (s : StructType), types[i]? = some (.struct s) → (L i).1 < 2 ^ 31
  arrays : ∀ (i n e : ℕ), types[i]? = some (.array n e) → (L i).1 < 2 ^ 32
  elements : ∀ (i : ℕ) (s : StructType), types[i]? = some (.struct s) → s.packed = false →
    ∀ e ∈ s.elements, 0 < (L e.type).2

/-! ## The order -/

/-- The struct that the type is or, as an array, consists of was laid out. -/
def ready (types : List IrType) (computed : List ℕ) : ℕ → ℕ → Bool
  | depth, i =>
    match types[i]? with
    | some (.struct _) => decide (i ∈ computed)
    | some (.array _ e) =>
      match depth with
      | 0 => false
      | depth + 1 => ready types computed depth e
    | _ => true

def isStruct (types : List IrType) (i : ℕ) : Bool :=
  match types[i]? with
  | some (.struct _) => true
  | _ => false

/-- An element that is a struct is laid out first; of others it is asked that they are ready. -/
def visitElement (types : List IrType) (visit : List ℕ → ℕ → Option (List ℕ)) (depth : ℕ)
    (computed : List ℕ) (e : StructElement) : Option (List ℕ) :=
  if isStruct types e.type ∧ e.type ∉ computed then visit computed e.type
  else if ready types computed depth e.type then some computed
  else none

/-- The structs that are laid out when `i` is. -/
def visit (types : List IrType) : ℕ → List ℕ → ℕ → Option (List ℕ)
  | 0, _, _ => none
  | depth + 1, computed, i =>
    match types[i]? with
    | some (.struct s) =>
      (s.elements.foldlM (visitElement types (visit types depth) depth) computed).map (i :: ·)
    | _ => none

def visitType (types : List IrType) (depth : ℕ) (computed : List ℕ) (i : ℕ) :
    Option (List ℕ) :=
  if isStruct types i ∧ i ∉ computed then visit types depth computed i else some computed

/-- The order in which structs are laid out; none if an array is reached before the struct that it
consists of. -/
def walk (types : List IrType) (depth : ℕ) : Option (List ℕ) :=
  (List.range types.length).foldlM (visitType types depth) []

/-! ## What the table should become -/

def laidElements (L : ℕ → ℕ × ℕ) (packed : Bool) (es : List StructElement) : List StructElement :=
  es.zipWith (fun e o => ⟨e.type, BitVec.ofNat 32 o⟩) (offsets packed 0 (es.map fun e => L e.type))

def laid (L : ℕ → ℕ × ℕ) (i : ℕ) : IrType → IrType
  | .struct s => .struct ⟨laidElements L s.packed s.elements, BitVec.ofNat 32 (L i).1,
      BitVec.ofNat 32 (L i).2, s.packed, s.name⟩
  | it => it

def laidTypes (L : ℕ → ℕ × ℕ) (computed : List ℕ) (types : List IrType) : List IrType :=
  types.mapIdx fun i it => if i ∈ computed then laid L i it else it

/-- The fields of the struct are in order and apart, aligned or directly behind each other, within a
size that is a multiple of the alignment. -/
structure Consistent (iu : IrUnit) (s : StructType) : Prop where
  apart : s.elements.Pairwise fun x y => ∀ depth size, typeSizeof iu depth x.type = .ok size →
    x.offset.toNat + size.toNat ≤ y.offset.toNat
  aligned : s.packed = false → ∀ e ∈ s.elements, ∀ depth a,
    typeAlignment iu depth e.type = .ok a → a.toNat ∣ e.offset.toNat
  packed : s.packed = true → s.elements.IsChain fun x y => ∀ depth size,
    typeSizeof iu depth x.type = .ok size → y.offset.toNat = x.offset.toNat + size.toNat
  within : ∀ e ∈ s.elements, ∀ depth size, typeSizeof iu depth e.type = .ok size →
    e.offset.toNat + size.toNat ≤ s.size.toNat
  multiple : s.alignment.toNat ∣ s.size.toNat

/-- Every size and alignment is the prescribed one, and every struct is consistent. -/
structure LaidOut (iu : IrUnit) (L : ℕ → ℕ × ℕ) : Prop where
  sizes : ∀ depth i size, typeSizeof iu depth i = .ok size → size.toNat = (L i).1
  alignments : ∀ depth i a, typeAlignment iu depth i = .ok a → a.toNat = (L i).2
  structs : ∀ (i : ℕ) (s : StructType), iu.types[i]? = some (.struct s) → Consistent iu s

/-! ## The rules have a solution -/

/-- The rules to the depth `d`. -/
def solution (types : List IrType) : ℕ → ℕ → ℕ × ℕ
  | 0, _ => (0, 0)
  | d + 1, i => layoutAt types (solution types d) i

section
variable {types : List IrType} {L L' : ℕ → ℕ × ℕ} {rank : ℕ → ℕ}

theorem layoutOf_congr {it : IrType} (h : ∀ j ∈ parts it, L j = L' j) :
    layoutOf L it = layoutOf L' it := by
  cases it with
  | struct s =>
    have hmap : s.elements.map (fun e => L e.type) = s.elements.map fun e => L' e.type :=
      List.map_congr_left fun e he => h e.type (List.mem_map.mpr ⟨e, he, rfl⟩)
    exact congrArg (recordLayout s.packed) hmap
  | array n e =>
    exact congrArg (fun l : ℕ × ℕ => (n * l.1, l.2)) (h e List.mem_cons_self)
  | _ => rfl

theorem solution_stable
    (hrank : ∀ (i : ℕ) (it : IrType), types[i]? = some it → ∀ j ∈ parts it, rank j < rank i)
    {d i : ℕ} (h : rank i < d) : solution types d i = solution types (rank i + 1) i := by
  induction hr : rank i using Nat.strong_induction_on generalizing d i with
  | _ r ih =>
    obtain ⟨d, rfl⟩ := Nat.exists_eq_add_of_le' (Nat.succ_le_of_lt (Nat.lt_of_le_of_lt (Nat.zero_le _) h))
    change layoutAt types (solution types d) i = layoutAt types (solution types r) i
    unfold layoutAt
    cases ht : types[i]? with
    | none => rfl
    | some it =>
      refine layoutOf_congr fun j hj => ?_
      have hlt := hrank i it ht j hj
      have hd := ih (rank j) (hr ▸ hlt) (d := d) (by omega) rfl
      have hr' := ih (rank j) (hr ▸ hlt) (d := r) (by omega) rfl
      exact hd.trans hr'.symm

theorem exists_solution (h : Acyclic types) : ∃ L, Solves types L := by
  obtain ⟨rank, hrank⟩ := h
  refine ⟨fun i => solution types (rank i + 1) i, fun i => ?_⟩
  change layoutAt types (solution types (rank i)) i = _
  unfold layoutAt
  cases ht : types[i]? with
  | none => rfl
  | some it => exact layoutOf_congr fun j hj => solution_stable hrank (hrank i it ht j hj)

theorem alignment_pow (hacyclic : Acyclic types) (hsolves : Solves types L)
    (hsized : Sized types L) (i : ℕ) : (L i).2 = 0 ∨ ∃ k ≤ 3, (L i).2 = 2 ^ k := by
  obtain ⟨rank, hrank⟩ := hacyclic
  induction hr : rank i using Nat.strong_induction_on generalizing i with
  | _ r ih =>
    rw [hsolves i]
    unfold layoutAt
    cases ht : types[i]? with
    | none => exact Or.inl rfl
    | some it =>
      cases it with
      | struct s =>
        refine Or.inr (@alignFrom_induction _ _ _ (fun a => ∃ k ≤ 3, a = 2 ^ k)
          ⟨0, by decide, rfl⟩ fun hp f hf => ?_)
        obtain ⟨e, he, rfl⟩ := List.mem_map.mp hf
        have hpos := hsized.elements i s ht hp e he
        have hlt := hrank i _ ht e.type (List.mem_map.mpr ⟨e, he, rfl⟩)
        exact (ih _ (hr ▸ hlt) e.type rfl).resolve_left hpos.ne'
      | array n e => exact ih _ (hr ▸ hrank i _ ht e List.mem_cons_self) e rfl
      | void => exact Or.inl rfl
      | int1 => exact Or.inr ⟨0, by decide, rfl⟩
      | int8 => exact Or.inr ⟨0, by decide, rfl⟩
      | int16 => exact Or.inr ⟨1, by decide, rfl⟩
      | int32 => exact Or.inr ⟨2, by decide, rfl⟩
      | int64 => exact Or.inr ⟨3, by decide, rfl⟩
      | intx bits =>
        have hlayout : layoutOf L (.intx bits) = if bits ≤ 32 then (4, 4) else (8, 8) := rfl
        dsimp only
        rw [hlayout]
        split
        · exact Or.inr ⟨2, by decide, rfl⟩
        · exact Or.inr ⟨3, by decide, rfl⟩
      | float => exact Or.inr ⟨2, by decide, rfl⟩
      | double => exact Or.inr ⟨3, by decide, rfl⟩
      | pointer p => exact Or.inr ⟨2, by decide, rfl⟩
      | function v r ps => exact Or.inl rfl
      | metadata => exact Or.inl rfl
      | label => exact Or.inl rfl
      | opaqueType => exact Or.inl rfl

end

/-! ## Sizes and alignments in a table that is laid out in part -/

/-- The table after the structs in `computed` were laid out. -/
def stateOf (L : ℕ → ℕ × ℕ) (iu : IrUnit) (computed : List ℕ) : Finalizing :=
  ⟨{ iu with types := laidTypes L computed iu.types }, computed⟩

/-- The result is `x`, unless the types are rejected or the text of a function has no end. -/
def Outcome {α : Type} (types : List IrType) (r : Except Fault α) (x : α) : Prop :=
  r = .ok x ∨ (∃ msg, r = .error (.parserError msg)) ∨ r = .error .outOfFuel ∧ ¬ Printable types

section
variable {α β : Type} {types : List IrType}

theorem Outcome.ok (x : α) : Outcome types (.ok x) x := Or.inl rfl

theorem Outcome.rejected (msg : String) (x : α) :
    Outcome types (.error (.parserError msg)) x := Or.inr (Or.inl ⟨msg, rfl⟩)

theorem Outcome.bind {r : Except Fault α} {x : α} {f : α → Except Fault β} {y : β}
    (h : Outcome types r x) (hf : Outcome types (f x) y) : Outcome types (r >>= f) y := by
  rcases h with rfl | ⟨msg, rfl⟩ | ⟨rfl, hendless⟩
  · exact hf
  · exact Outcome.rejected msg y
  · exact Or.inr (Or.inr ⟨rfl, hendless⟩)

theorem Outcome.eq {r : Except Fault α} {x y : α} (h : Outcome types r x) (hr : r = .ok y) :
    y = x := by
  rcases h with hx | ⟨msg, hx⟩ | ⟨hx, -⟩
  · exact Except.ok.inj (hr.symm.trans hx)
  · exact nomatch hr.symm.trans hx
  · exact nomatch hr.symm.trans hx

end

section
variable {iu : IrUnit} {L : ℕ → ℕ × ℕ} {c : List ℕ} {depth i : ℕ} {it : IrType}

theorem getElem?_laidTypes (L : ℕ → ℕ × ℕ) (c : List ℕ) (types : List IrType) (i : ℕ) :
    (laidTypes L c types)[i]? = types[i]?.map fun it => if i ∈ c then laid L i it else it := by
  unfold laidTypes
  rw [List.getElem?_mapIdx]

theorem laid_code (L : ℕ → ℕ × ℕ) (i : ℕ) (it : IrType) : (laid L i it).code = it.code := by
  cases it <;> rfl

def entry (L : ℕ → ℕ × ℕ) (c : List ℕ) (i : ℕ) (it : IrType) : IrType :=
  if i ∈ c then laid L i it else it

theorem entry_code (L : ℕ → ℕ × ℕ) (c : List ℕ) (i : ℕ) (it : IrType) :
    (entry L c i it).code = it.code := by
  unfold entry
  split
  · exact laid_code L i it
  · rfl

theorem entry_of_not_struct (h : it.code ≠ .struct) : entry L c i it = it := by
  have hlaid : laid L i it = it := by
    cases it with
    | struct s => exact absurd rfl h
    | _ => rfl
  unfold entry
  rw [hlaid, ite_self]

theorem typeGet_stateOf (ht : iu.types[i]? = some it) :
    typeGet (stateOf L iu c).iu i = .ok (entry L c i it) := by
  have hget : (stateOf L iu c).iu.types[i]? = some (entry L c i it) := by
    change (laidTypes L c iu.types)[i]? = _
    rw [getElem?_laidTypes, ht]
    rfl
  unfold typeGet
  rw [hget]

theorem typeGet_outside (ht : iu.types[i]? = none) :
    typeGet (stateOf L iu c).iu i = .error (.parserError "Bad type index %d") := by
  have hget : (stateOf L iu c).iu.types[i]? = none := by
    change (laidTypes L c iu.types)[i]? = _
    rw [getElem?_laidTypes, ht]
    rfl
  unfold typeGet
  rw [hget]

theorem laidElements_eq (L : ℕ → ℕ × ℕ) (packed : Bool) (es : List StructElement) :
    laidElements L packed es = (es.zip (offsets packed 0 (es.map fun e => L e.type))).map
      fun eo => ⟨eo.1.type, BitVec.ofNat 32 eo.2⟩ := by
  unfold laidElements
  rw [List.zip_eq_zipWith, List.map_zipWith]

theorem laidElements_types (L : ℕ → ℕ × ℕ) (packed : Bool) (es : List StructElement) :
    (laidElements L packed es).map StructElement.type = es.map StructElement.type := by
  have hlength : es.length ≤ (offsets packed 0 (es.map fun e => L e.type)).length := by
    rw [offsets_length, List.length_map]
  rw [laidElements_eq, List.map_map]
  calc
    _ = ((es.zip _).map Prod.fst).map StructElement.type := List.map_map.symm
    _ = es.map StructElement.type := by rw [List.map_fst_zip hlength]

theorem prints_laidTypes (c : List ℕ) :
    Prints (laidTypes L c iu.types) i ↔ Prints iu.types i := by
  refine prints_congr fun j => ?_
  rw [getElem?_laidTypes, Option.map_map]
  refine congrArg (fun f => Option.map f iu.types[j]?) ?_
  funext it
  change printed (entry L c j it) = printed it
  unfold entry
  split
  · cases it with
    | struct s =>
      change (if s.name = none then (laidElements L s.packed s.elements).map _ else []) = _
      rw [laidElements_types]
      rfl
    | _ => rfl
  · rfl

theorem function_outcome (c : List ℕ) {v : Bool} {r : ℕ} {ps : List ℕ}
    (ht : iu.types[i]? = some (.function v r ps)) (msg : String) (x : BitVec 32) :
    Outcome iu.types (unsizedError (stateOf L iu c).iu (.function v r ps) msg) x := by
  have hentry : (stateOf L iu c).iu.types[i]? = some (.function v r ps) := by
    change (laidTypes L c iu.types)[i]? = _
    rw [getElem?_laidTypes, ht]
    exact congrArg some (entry_of_not_struct nofun)
  unfold unsizedError
  by_cases hprints : Prints iu.types i
  · obtain ⟨text, htext⟩ := typeStr_ok hentry ((prints_laidTypes c).mpr hprints)
    rw [htext]
    exact Outcome.rejected msg x
  · rw [typeStr_endless hentry fun h => hprints ((prints_laidTypes c).mp h)]
    exact Or.inr (Or.inr ⟨rfl, fun hprintable => hprints (hprintable i v r ps ht)⟩)

theorem sizeof_scalar {types : List IrType} (iu : IrUnit) (depth : ℕ) (hstruct : it.code ≠ .struct)
    (harray : it.code ≠ .array)
    (hfunction : ∀ v r ps, it = .function v r ps → ∀ msg x,
      Outcome types (unsizedError iu it msg) x) :
    Outcome types (typeSizeofPtr iu depth it) (BitVec.ofNat 32 (scalarLayout it).1)
      ∧ Outcome types (typeAlignmentPtr iu depth it) (BitVec.ofNat 32 (scalarLayout it).2) := by
  cases it with
  | struct s => exact absurd rfl hstruct
  | array n e => exact absurd rfl harray
  | intx bits =>
    have hlayout : scalarLayout (.intx bits) = if bits ≤ 32 then (4, 4) else (8, 8) := rfl
    rw [hlayout]
    unfold typeSizeofPtr typeAlignmentPtr
    by_cases h32 : bits ≤ 32
    · rw [if_pos h32, if_pos h32, if_pos h32]
      exact ⟨Or.inl rfl, Or.inl rfl⟩
    · rw [if_neg h32, if_neg h32, if_neg h32]
      by_cases h64 : bits ≤ 64
      · rw [if_pos h64, if_pos h64]
        exact ⟨Or.inl rfl, Or.inl rfl⟩
      · rw [if_neg h64, if_neg h64]
        exact ⟨Outcome.rejected _ _, Outcome.rejected _ _⟩
  | function v r ps =>
    cases depth <;> exact ⟨hfunction v r ps rfl _ _, hfunction v r ps rfl _ _⟩
  | metadata => cases depth <;> exact ⟨Outcome.rejected _ _, Outcome.rejected _ _⟩
  | label => cases depth <;> exact ⟨Outcome.rejected _ _, Outcome.rejected _ _⟩
  | opaqueType => cases depth <;> exact ⟨Outcome.rejected _ _, Outcome.rejected _ _⟩
  | _ => cases depth <;> exact ⟨Or.inl rfl, Or.inl rfl⟩

theorem layoutOf_scalar (L : ℕ → ℕ × ℕ) (hstruct : it.code ≠ .struct)
    (harray : it.code ≠ .array) : layoutOf L it = scalarLayout it := by
  cases it with
  | struct s => exact absurd rfl hstruct
  | array n e => exact absurd rfl harray
  | _ => rfl

theorem Solves.at (hsolves : Solves iu.types L) (ht : iu.types[i]? = some it) :
    L i = layoutOf L it := by
  have hL := hsolves i
  unfold layoutAt at hL
  rwa [ht] at hL

theorem sizeof_entry (c : List ℕ) (depth : ℕ) (ht : iu.types[i]? = some it)
    (hL : L i = layoutOf L it) (hstruct : it.code ≠ .struct) (harray : it.code ≠ .array) :
    Outcome iu.types (typeSizeofPtr (stateOf L iu c).iu depth (entry L c i it)) (BitVec.ofNat 32 (L i).1)
      ∧ Outcome iu.types (typeAlignmentPtr (stateOf L iu c).iu depth (entry L c i it))
        (BitVec.ofNat 32 (L i).2) := by
  rw [entry_of_not_struct hstruct, hL, layoutOf_scalar L hstruct harray]
  refine sizeof_scalar _ _ hstruct harray fun v r ps heq => ?_
  rw [heq] at ht ⊢
  exact function_outcome c ht

theorem sizeof_ready (hsolves : Solves iu.types L) (ht : iu.types[i]? = some it)
    (hready : ready iu.types c depth i = true) :
    Outcome iu.types (typeSizeofPtr (stateOf L iu c).iu depth (entry L c i it))
        (BitVec.ofNat 32 (L i).1)
      ∧ Outcome iu.types (typeAlignmentPtr (stateOf L iu c).iu depth (entry L c i it))
        (BitVec.ofNat 32 (L i).2) := by
  have hL := hsolves.at ht
  induction depth generalizing i it with
  | zero =>
    unfold ready at hready
    rw [ht] at hready
    cases it with
    | struct s =>
      have hin : i ∈ c := of_decide_eq_true hready
      unfold entry
      rw [if_pos hin]
      exact ⟨Or.inl rfl, Or.inl rfl⟩
    | array n e => exact absurd hready nofun
    | _ => exact sizeof_entry c _ ht hL nofun nofun
  | succ depth ih =>
    unfold ready at hready
    rw [ht] at hready
    cases it with
    | struct s =>
      have hin : i ∈ c := of_decide_eq_true hready
      unfold entry
      rw [if_pos hin]
      exact ⟨Or.inl rfl, Or.inl rfl⟩
    | array n e =>
      have hready : ready iu.types c depth e = true := hready
      have hentry : entry L c i (.array n e) = .array n e := entry_of_not_struct nofun
      rw [hentry, hL]
      unfold typeSizeofPtr typeAlignmentPtr
      cases hte : iu.types[e]? with
      | none =>
        rw [typeGet_outside hte]
        exact ⟨Outcome.rejected _ _, Outcome.rejected _ _⟩
      | some et =>
        obtain ⟨hsize, halign⟩ := ih hte hready (hsolves.at hte)
        rw [typeGet_stateOf hte]
        refine ⟨hsize.bind ?_, halign⟩
        change Outcome iu.types (.ok (BitVec.ofNat 32 (L e).1 * BitVec.ofNat 32 n))
          (BitVec.ofNat 32 (n * (L e).1))
        rw [Nat.mul_comm, BitVec.ofNat_mul]
        exact Outcome.ok _
    | _ => exact sizeof_entry c _ ht hL nofun nofun

/-! ## The loop over the elements -/

theorem alignWord_ofNat {p k : ℕ} (hk : k < 32) (h : roundUp p (2 ^ k) < 2 ^ 32) :
    alignWord (BitVec.ofNat 32 p) (BitVec.ofNat 32 (2 ^ k))
      = BitVec.ofNat 32 (roundUp p (2 ^ k)) := by
  have hle := le_roundUp p (Nat.two_pow_pos k)
  have hp : (BitVec.ofNat 32 p).toNat = p := by
    rw [BitVec.toNat_ofNat, Nat.mod_eq_of_lt (by omega)]
  have hword := @alignWord_of_lt (BitVec.ofNat 32 p) k hk (by rwa [hp])
  apply BitVec.eq_of_toNat_eq
  rw [hword, hp, BitVec.toNat_ofNat, Nat.mod_eq_of_lt h]

theorem slt_pow : ∀ k l : Fin 4, (if (BitVec.ofNat 32 (2 ^ k.val)).slt (BitVec.ofNat 32 (2 ^ l.val))
    then BitVec.ofNat 32 (2 ^ l.val) else BitVec.ofNat 32 (2 ^ k.val))
      = BitVec.ofNat 32 (max (2 ^ l.val) (2 ^ k.val)) := by
  decide

theorem isStruct_iff {types : List IrType} (ht : types[i]? = some it) :
    isStruct types i = true ↔ it.code = .struct := by
  unfold isStruct
  rw [ht]
  cases it with
  | struct s => exact ⟨fun _ => rfl, fun _ => rfl⟩
  | _ => exact ⟨nofun, nofun⟩

theorem ready_struct {types : List IrType} (h : isStruct types i = true) (hin : i ∈ c)
    (depth : ℕ) : ready types c depth i = true := by
  unfold isStruct at h
  cases ht : types[i]? with
  | none =>
    rw [ht] at h
    exact nomatch h
  | some it =>
    rw [ht] at h
    cases it with
    | struct s =>
      unfold ready
      rw [ht]
      exact decide_eq_true hin
    | _ => exact nomatch h

/-- `layout` lays out what `visit` says. -/
def Simulates (iu : IrUnit) (L : ℕ → ℕ × ℕ) (visit : List ℕ → ℕ → Option (List ℕ))
    (layout : Finalizing → ℕ → Except Fault Finalizing) : Prop :=
  ∀ c j c', j ∉ c → visit c j = some c' →
    Outcome iu.types (layout (stateOf L iu c) j) (stateOf L iu c') ∧ j ∈ c'

variable {visit' : List ℕ → ℕ → Option (List ℕ)}
  {layout : Finalizing → ℕ → Except Fault Finalizing} {c' : List ℕ} {e : StructElement}

theorem visitElement_outcome (hsim : Simulates iu L visit' layout)
    (ht : iu.types[e.type]? = some it) (hv : visitElement iu.types visit' depth c e = some c') :
    Outcome iu.types (layoutIfStruct layout (stateOf L iu c) (entry L c e.type it) e.type)
        (stateOf L iu c')
      ∧ ready iu.types c' depth e.type = true := by
  have hfirst : (entry L c e.type it).code = .struct ∧ e.type ∉ (stateOf L iu c).computed
      ↔ isStruct iu.types e.type = true ∧ e.type ∉ c := by
    rw [entry_code, isStruct_iff ht]
    rfl
  unfold visitElement at hv
  unfold layoutIfStruct
  rw [if_congr hfirst rfl rfl]
  by_cases hnew : isStruct iu.types e.type ∧ e.type ∉ c
  · rw [if_pos hnew] at hv ⊢
    obtain ⟨hout, hin⟩ := hsim c e.type c' hnew.2 hv
    exact ⟨hout, ready_struct hnew.1 hin depth⟩
  · rw [if_neg hnew] at hv ⊢
    by_cases hready : ready iu.types c depth e.type = true
    · rw [if_pos hready] at hv
      obtain rfl := Option.some.inj hv
      exact ⟨Outcome.ok _, hready⟩
    · rw [if_neg hready] at hv
      exact nomatch hv

variable {packed : Bool} {p b : ℕ} {done : List StructElement}

theorem layoutElement_outcome (hsim : Simulates iu L visit' layout) (hsolves : Solves iu.types L)
    (hv : visitElement iu.types visit' depth c e = some c')
    (hb : ∃ k ≤ 3, b = 2 ^ k) (ha : packed = false → ∃ k ≤ 3, (L e.type).2 = 2 ^ k)
    (hfit : place packed p (L e.type).2 < 2 ^ 32) :
    Outcome iu.types (layoutElement layout depth packed ⟨stateOf L iu c, BitVec.ofNat 32 p,
        BitVec.ofNat 32 b, done⟩ e)
      ⟨stateOf L iu c', BitVec.ofNat 32 (place packed p (L e.type).2 + (L e.type).1),
        BitVec.ofNat 32 (if packed then b else max b (L e.type).2),
        done ++ [⟨e.type, BitVec.ofNat 32 (place packed p (L e.type).2)⟩]⟩ := by
  unfold layoutElement
  dsimp only
  cases ht : iu.types[e.type]? with
  | none =>
    rw [typeGet_outside ht]
    exact Outcome.rejected _ _
  | some it =>
    obtain ⟨hstate, hready⟩ := visitElement_outcome hsim ht hv
    obtain ⟨hsize, halign⟩ := sizeof_ready hsolves ht hready
    rw [typeGet_stateOf ht]
    refine Outcome.bind (Outcome.ok _) (hstate.bind ?_)
    rw [typeGet_stateOf ht]
    refine Outcome.bind (Outcome.ok _) (hsize.bind ?_)
    cases packed with
    | true =>
      have hsum : BitVec.ofNat 32 (p + (L e.type).1)
          = BitVec.ofNat 32 p + BitVec.ofNat 32 (L e.type).1 := BitVec.ofNat_add ..
      change Outcome iu.types (.ok _) (⟨_, BitVec.ofNat 32 (p + (L e.type).1), _, _⟩ : LayoutLoop)
      rw [hsum]
      exact Outcome.ok _
    | false =>
      refine halign.bind ?_
      obtain ⟨k, hk, hak⟩ := ha rfl
      obtain ⟨l, hl, rfl⟩ := hb
      have hmax := slt_pow ⟨k, by omega⟩ ⟨l, by omega⟩
      have hword := @alignWord_ofNat p k (by omega) (by rw [← hak]; exact hfit)
      have hsum : BitVec.ofNat 32 (roundUp p (2 ^ k) + (L e.type).1)
          = BitVec.ofNat 32 (roundUp p (2 ^ k)) + BitVec.ofNat 32 (L e.type).1 :=
        BitVec.ofNat_add ..
      dsimp only at hmax
      change Outcome iu.types (.ok _) (⟨_, BitVec.ofNat 32 (roundUp p (L e.type).2 + (L e.type).1), _, _⟩ :
        LayoutLoop)
      rw [hak, hmax, hword, hsum]
      exact Outcome.ok _

theorem pow_max {k l : ℕ} (hk : k ≤ 3) (hl : l ≤ 3) :
    ∃ m ≤ 3, max (2 ^ k) (2 ^ l) = 2 ^ m := by
  rcases Nat.le_total k l with hkl | hlk
  · exact ⟨l, hl, Nat.max_eq_right (Nat.pow_le_pow_right Nat.two_pos hkl)⟩
  · exact ⟨k, hk, Nat.max_eq_left (Nat.pow_le_pow_right Nat.two_pos hlk)⟩

theorem elements_outcome (hsim : Simulates iu L visit' layout) (hsolves : Solves iu.types L)
    {es : List StructElement}
    (hv : es.foldlM (visitElement iu.types visit' depth) c = some c')
    (hb : ∃ k ≤ 3, b = 2 ^ k)
    (ha : ∀ e ∈ es, packed = false → ∃ k ≤ 3, (L e.type).2 = 2 ^ k)
    (hfit : finish packed p (es.map fun e => L e.type) < 2 ^ 32) :
    Outcome iu.types (es.foldlM (layoutElement layout depth packed) ⟨stateOf L iu c, BitVec.ofNat 32 p,
        BitVec.ofNat 32 b, done⟩)
      ⟨stateOf L iu c', BitVec.ofNat 32 (finish packed p (es.map fun e => L e.type)),
        BitVec.ofNat 32 (alignFrom packed b (es.map fun e => L e.type)),
        done ++ es.zipWith (fun e o => ⟨e.type, BitVec.ofNat 32 o⟩)
          (offsets packed p (es.map fun e => L e.type))⟩ := by
  induction es generalizing c p b done with
  | nil =>
    obtain rfl := Option.some.inj hv
    rw [List.zipWith_nil_left, List.append_nil]
    exact Outcome.ok _
  | cons e es ih =>
    rw [List.foldlM_cons] at hv ⊢
    cases hv1 : visitElement iu.types visit' depth c e with
    | none =>
      rw [hv1] at hv
      exact nomatch hv
    | some c1 =>
      rw [hv1] at hv
      have hae := ha e List.mem_cons_self
      have hrest : ∀ e' ∈ es, packed = false → ∃ k ≤ 3, (L e'.type).2 = 2 ^ k :=
        fun e' he' => ha e' (List.mem_cons_of_mem _ he')
      have hpos : packed = false → ∀ f ∈ es.map fun e => L e.type, 0 < f.2 := by
        intro hp f hf
        obtain ⟨e', he', rfl⟩ := List.mem_map.mp hf
        obtain ⟨k, -, hk⟩ := hrest e' he' hp
        exact hk ▸ Nat.two_pow_pos k
      have hfit' : finish packed (place packed p (L e.type).2 + (L e.type).1)
          (es.map fun e => L e.type) < 2 ^ 32 := hfit
      have hle := le_finish (p := place packed p (L e.type).2 + (L e.type).1) hpos
      have hb' : ∃ k ≤ 3, (if packed then b else max b (L e.type).2) = 2 ^ k := by
        cases packed with
        | true => exact hb
        | false =>
          obtain ⟨k, hk, rfl⟩ := hb
          obtain ⟨l, hl, hal⟩ := hae rfl
          rw [hal]
          exact pow_max hk hl
      refine (layoutElement_outcome hsim hsolves hv1 hb hae
        (Nat.lt_of_le_of_lt ((Nat.le_add_right ..).trans hle) hfit')).bind ?_
      have hloop := @ih _ _ _ (done ++ [⟨e.type, BitVec.ofNat 32 (place packed p (L e.type).2)⟩])
        hv hb' hrest hfit'
      rw [List.append_assoc] at hloop
      exact hloop

/-! ## The structs -/

theorem laidTypes_cons {types : List IrType} (ht : types[i]? = some it) :
    (laidTypes L c types).set i (laid L i it) = laidTypes L (i :: c) types := by
  apply List.ext_getElem?
  intro j
  rw [List.getElem?_set, getElem?_laidTypes, getElem?_laidTypes]
  by_cases hij : i = j
  · subst hij
    have hlt : i < (laidTypes L c types).length := by
      unfold laidTypes
      rw [List.length_mapIdx]
      exact (List.getElem?_eq_some_iff.mp ht).1
    rw [if_pos rfl, if_pos hlt, ht]
    exact congrArg some (if_pos List.mem_cons_self).symm
  · rw [if_neg hij]
    congr 1
    funext it
    exact if_congr ⟨List.mem_cons_of_mem _,
      fun hj => (List.mem_cons.mp hj).resolve_left fun heq => hij heq.symm⟩ rfl rfl

/-- The last lines of `type_struct_layout`. -/
theorem size_word {fs : List (ℕ × ℕ)} (hpow : ∃ k ≤ 3, alignFrom packed 1 fs = 2 ^ k)
    (hlt : (recordLayout packed fs).1 < 2 ^ 32) :
    (if packed then BitVec.ofNat 32 (finish packed 0 fs)
      else alignWord (BitVec.ofNat 32 (finish packed 0 fs)) (BitVec.ofNat 32 (alignFrom packed 1 fs)))
      = BitVec.ofNat 32 (recordLayout packed fs).1 := by
  cases packed with
  | true => rfl
  | false =>
    obtain ⟨k, hk, hpow⟩ := hpow
    have hsize : (recordLayout false fs).1 = roundUp (finish false 0 fs) (2 ^ k) := by
      rw [← hpow]
      rfl
    rw [hsize] at hlt ⊢
    rw [hpow]
    exact alignWord_ofNat (by omega) hlt

theorem typeStructLayout_simulates (hacyclic : Acyclic iu.types) (hsolves : Solves iu.types L)
    (hsized : Sized iu.types L) (depth : ℕ) :
    Simulates iu L (visit iu.types depth) (typeStructLayout depth) := by
  induction depth with
  | zero => exact fun _ _ _ _ h => nomatch h
  | succ depth ih =>
    intro c j c' hj hv
    unfold visit at hv
    cases ht : iu.types[j]? with
    | none =>
      rw [ht] at hv
      exact nomatch hv
    | some it =>
    rw [ht] at hv
    cases it with
    | struct s =>
      obtain ⟨c1, hfold, rfl⟩ := Option.map_eq_some_iff.mp hv
      refine ⟨?_, List.mem_cons_self⟩
      have hL : L j = recordLayout s.packed (s.elements.map fun e => L e.type) := hsolves.at ht
      have hentry : entry L c j (.struct s) = .struct s := if_neg hj
      have ha : ∀ e ∈ s.elements, s.packed = false → ∃ k ≤ 3, (L e.type).2 = 2 ^ k := by
        intro e he hp
        exact (alignment_pow hacyclic hsolves hsized e.type).resolve_left
          (hsized.elements j s ht hp e he).ne'
      have hlt := hsized.structs j s ht
      have hsize : finish s.packed 0 (s.elements.map fun e => L e.type) ≤ (L j).1 :=
        hL ▸ finish_le_size
      have hone : ∃ k ≤ 3, 1 = 2 ^ k := ⟨0, by decide, rfl⟩
      have hloop := @elements_outcome iu L c depth _ _ _ s.packed 0 1 [] ih hsolves _ hfold hone ha
        (by omega)
      unfold typeStructLayout
      rw [typeGet_stateOf ht, hentry]
      refine Outcome.bind (Outcome.ok _) (hloop.bind ?_)
      have hpow : ∃ k ≤ 3, alignFrom s.packed 1 (s.elements.map fun e => L e.type) = 2 ^ k := by
        refine @alignFrom_induction _ _ _ (fun a => ∃ k ≤ 3, a = 2 ^ k) ⟨0, by decide, rfl⟩ ?_
        intro hp f hf
        obtain ⟨e, he, rfl⟩ := List.mem_map.mp hf
        exact ha e he hp
      have hword := size_word hpow (by rw [← hL]; omega)
      have hset := laidTypes_cons (L := L) (c := c1) ht
      have halign : alignFrom s.packed 1 (s.elements.map fun e => L e.type) = (L j).2 :=
        (congrArg Prod.snd hL).symm
      have hlaid : laid L j (.struct s) = .struct ⟨laidElements L s.packed s.elements,
          BitVec.ofNat 32 (L j).1, BitVec.ofNat 32 (L j).2, s.packed, s.name⟩ := rfl
      dsimp only
      rw [hword, ← hL, halign]
      unfold stateOf
      rw [← hset, hlaid]
      exact Outcome.ok _
    | _ => exact nomatch hv

/-! ## The table -/

theorem foldlM_subset {α : Type} {f : List ℕ → α → Option (List ℕ)} {l : List α}
    (hf : ∀ c x c', f c x = some c' → c ⊆ c') (h : l.foldlM f c = some c') : c ⊆ c' := by
  induction l generalizing c with
  | nil =>
    obtain rfl := Option.some.inj h
    exact List.Subset.refl c
  | cons x l ih =>
    rw [List.foldlM_cons] at h
    cases hx : f c x with
    | none =>
      rw [hx] at h
      exact nomatch h
    | some c1 =>
      rw [hx] at h
      exact fun y hy => ih h (hf c x c1 hx hy)

theorem visit_subset (types : List IrType) (depth : ℕ) :
    ∀ c j c', visit types depth c j = some c' → c ⊆ c' := by
  induction depth with
  | zero => exact fun _ _ _ h => nomatch h
  | succ depth ih =>
    intro c j c' h
    unfold visit at h
    split at h
    case h_2 => exact nomatch h
    case h_1 s _ =>
    obtain ⟨c1, hfold, rfl⟩ := Option.map_eq_some_iff.mp h
    refine List.Subset.trans (foldlM_subset (fun c e c' he => ?_) hfold) (List.subset_cons_self ..)
    unfold visitElement at he
    split at he
    · exact ih c e.type c' he
    · split at he
      · obtain rfl := Option.some.inj he
        exact List.Subset.refl c
      · exact nomatch he

theorem visitType_subset {types : List IrType} {c j c'}
    (h : visitType types depth c j = some c') : c ⊆ c' := by
  unfold visitType at h
  split at h
  · exact visit_subset types depth c j c' h
  · obtain rfl := Option.some.inj h
    exact List.Subset.refl c

/-- All structs of the indices in `l` are laid out. -/
theorem finalizeTypes_outcome (hsim : Simulates iu L (visit iu.types depth) (typeStructLayout depth))
    {l : List ℕ} (hv : l.foldlM (visitType iu.types depth) c = some c') :
    Outcome iu.types (l.foldlM (finalizeType depth) (stateOf L iu c)) (stateOf L iu c')
      ∧ ∀ j ∈ l, isStruct iu.types j = true → j ∈ c' := by
  induction l generalizing c with
  | nil =>
    obtain rfl := Option.some.inj hv
    exact ⟨Outcome.ok _, nofun⟩
  | cons j l ih =>
    rw [List.foldlM_cons] at hv ⊢
    cases hv1 : visitType iu.types depth c j with
    | none =>
      rw [hv1] at hv
      exact nomatch hv
    | some c1 =>
      rw [hv1] at hv
      obtain ⟨hout, hall⟩ := ih hv
      have hsub := foldlM_subset (fun c x c' => visitType_subset) hv
      have hfirst : Outcome iu.types (finalizeType depth (stateOf L iu c) j) (stateOf L iu c1)
          ∧ (isStruct iu.types j = true → j ∈ c1) := by
        unfold visitType at hv1
        unfold finalizeType
        cases ht : iu.types[j]? with
        | none =>
          rw [typeGet_outside ht]
          refine ⟨Outcome.rejected _ _, fun hs => ?_⟩
          unfold isStruct at hs
          rw [ht] at hs
          exact nomatch hs
        | some it =>
          rw [typeGet_stateOf ht]
          have hiff : (entry L c j it).code = .struct ∧ j ∉ (stateOf L iu c).computed
              ↔ isStruct iu.types j = true ∧ j ∉ c := by
            rw [entry_code, isStruct_iff ht]
            rfl
          change Outcome iu.types (layoutIfStruct _ _ (entry L c j it) j) _ ∧ _
          unfold layoutIfStruct
          rw [if_congr hiff rfl rfl]
          by_cases hnew : isStruct iu.types j = true ∧ j ∉ c
          · rw [if_pos hnew] at hv1 ⊢
            obtain ⟨hout, hin⟩ := hsim c j c1 hnew.2 hv1
            exact ⟨hout, fun _ => hin⟩
          · rw [if_neg hnew] at hv1 ⊢
            obtain rfl := Option.some.inj hv1
            exact ⟨Outcome.ok _, fun hs => not_not.mp fun hnot => hnew ⟨hs, hnot⟩⟩
      refine ⟨hfirst.1.bind hout, fun k hk hs => ?_⟩
      rcases List.mem_cons.mp hk with rfl | hk
      · exact hsub (hfirst.2 hs)
      · exact hall k hk hs

theorem ready_of_ok (hall : ∀ j, isStruct iu.types j = true → j ∈ c)
    (ht : iu.types[i]? = some it) {size : BitVec 32}
    (hok : typeSizeofPtr (stateOf L iu c).iu depth (entry L c i it) = .ok size
      ∨ typeAlignmentPtr (stateOf L iu c).iu depth (entry L c i it) = .ok size) :
    ready iu.types c depth i = true := by
  induction depth generalizing i it size with
  | zero =>
    unfold ready
    rw [ht]
    cases it with
    | struct s => exact decide_eq_true (hall i ((isStruct_iff ht).mpr rfl))
    | array n e =>
      have hentry : entry L c i (.array n e) = .array n e := entry_of_not_struct nofun
      rw [hentry] at hok
      exact hok.elim nofun nofun
    | _ => rfl
  | succ depth ih =>
    unfold ready
    rw [ht]
    cases it with
    | struct s => exact decide_eq_true (hall i ((isStruct_iff ht).mpr rfl))
    | array n e =>
      have hentry : entry L c i (.array n e) = .array n e := entry_of_not_struct nofun
      rw [hentry] at hok
      unfold typeSizeofPtr typeAlignmentPtr at hok
      change ready iu.types c depth e = true
      cases hte : iu.types[e]? with
      | none =>
        rw [typeGet_outside hte] at hok
        exact hok.elim nofun nofun
      | some et =>
        rw [typeGet_stateOf hte] at hok
        rcases hok with hok | hok
        · cases hsize : typeSizeofPtr (stateOf L iu c).iu depth (entry L c e et) with
          | ok size' => exact ih hte (Or.inl hsize)
          | error err =>
            change (typeSizeofPtr _ depth (entry L c e et) >>= _) = _ at hok
            rw [hsize] at hok
            exact nomatch hok
        · exact ih hte (Or.inr hok)
    | _ => rfl

theorem scalar_le (it : IrType) : (scalarLayout it).1 ≤ 8 := by
  cases it with
  | intx bits =>
    have hlayout : scalarLayout (.intx bits) = if bits ≤ 32 then (4, 4) else (8, 8) := rfl
    rw [hlayout]
    split <;> decide
  | _ => exact Nat.le_of_ble_eq_true rfl

theorem size_lt (hsolves : Solves iu.types L) (hsized : Sized iu.types L)
    (ht : iu.types[i]? = some it) : (L i).1 < 2 ^ 32 := by
  cases it with
  | struct s =>
    have := hsized.structs i s ht
    omega
  | array n e => exact hsized.arrays i n e ht
  | _ =>
    rw [hsolves.at ht]
    exact Nat.lt_of_le_of_lt (scalar_le _) (Nat.lt_of_sub_pos (by decide))

theorem alignment_lt (hacyclic : Acyclic iu.types) (hsolves : Solves iu.types L)
    (hsized : Sized iu.types L) (i : ℕ) : (L i).2 < 2 ^ 32 := by
  rcases alignment_pow hacyclic hsolves hsized i with h | ⟨k, hk, h⟩
  · omega
  · have := Nat.pow_le_pow_right Nat.two_pos hk
    omega

theorem laidOut_layouts (hacyclic : Acyclic iu.types) (hsolves : Solves iu.types L)
    (hsized : Sized iu.types L) (hall : ∀ j, isStruct iu.types j = true → j ∈ c) :
    (∀ depth i size, typeSizeof (stateOf L iu c).iu depth i = .ok size → size.toNat = (L i).1)
      ∧ ∀ depth i a, typeAlignment (stateOf L iu c).iu depth i = .ok a → a.toNat = (L i).2 := by
  constructor
  · intro depth i size hok
    unfold typeSizeof at hok
    cases ht : iu.types[i]? with
    | none =>
      rw [typeGet_outside ht] at hok
      exact nomatch hok
    | some it =>
      rw [typeGet_stateOf ht] at hok
      have hready := ready_of_ok hall ht (Or.inl hok)
      rw [(sizeof_ready hsolves ht hready).1.eq hok, BitVec.toNat_ofNat,
        Nat.mod_eq_of_lt (size_lt hsolves hsized ht)]
  · intro depth i a hok
    unfold typeAlignment at hok
    cases ht : iu.types[i]? with
    | none =>
      rw [typeGet_outside ht] at hok
      exact nomatch hok
    | some it =>
      rw [typeGet_stateOf ht] at hok
      have hready := ready_of_ok hall ht (Or.inr hok)
      rw [(sizeof_ready hsolves ht hready).2.eq hok, BitVec.toNat_ofNat,
        Nat.mod_eq_of_lt (alignment_lt hacyclic hsolves hsized i)]

theorem zip_layouts (L : ℕ → ℕ × ℕ) (es : List StructElement) (os : List ℕ) :
    (es.map fun e => L e.type).zip os = (es.zip os).map fun eo => (L eo.1.type, eo.2) := by
  rw [List.zip_map_left]
  rfl

theorem consistent (hacyclic : Acyclic iu.types) (hsolves : Solves iu.types L)
    (hsized : Sized iu.types L) (hall : ∀ j, isStruct iu.types j = true → j ∈ c)
    {s : StructType} (ht : (stateOf L iu c).iu.types[i]? = some (.struct s)) :
    Consistent (stateOf L iu c).iu s := by
  obtain ⟨hsizes, haligns⟩ := laidOut_layouts hacyclic hsolves hsized hall
  change (laidTypes L c iu.types)[i]? = _ at ht
  rw [getElem?_laidTypes] at ht
  obtain ⟨it, ht0, hit⟩ := Option.map_eq_some_iff.mp ht
  have hcode : it.code = .struct := by
    have h := entry_code L c i it
    unfold entry at h
    rw [hit] at h
    exact h.symm
  cases it with
  | struct s0 =>
    rw [if_pos (hall i ((isStruct_iff ht0).mpr rfl))] at hit
    obtain rfl := IrType.struct.inj hit
    have hL : L i = recordLayout s0.packed (s0.elements.map fun e => L e.type) := hsolves.at ht0
    have hlt := hsized.structs i s0 ht0
    have hpos : s0.packed = false → ∀ f ∈ s0.elements.map fun e => L e.type, 0 < f.2 := by
      intro hp f hf
      obtain ⟨e, he, rfl⟩ := List.mem_map.mp hf
      exact hsized.elements i s0 ht0 hp e he
    have hsize : finish s0.packed 0 (s0.elements.map fun e => L e.type) ≤ (L i).1 :=
      hL ▸ finish_le_size
    have hbounds := offsets_bounds (p := 0) hpos
    rw [zip_layouts] at hbounds
    have hoffset : ∀ eo ∈ s0.elements.zip (offsets s0.packed 0 (s0.elements.map fun e => L e.type)),
        (BitVec.ofNat 32 eo.2).toNat = eo.2 ∧ eo.2 + (L eo.1.type).1 ≤ (L i).1 := by
      intro eo heo
      have hle := (hbounds _ (List.mem_map.mpr ⟨eo, heo, rfl⟩)).2
      dsimp only at hle
      rw [BitVec.toNat_ofNat, Nat.mod_eq_of_lt (by omega)]
      exact ⟨rfl, by omega⟩
    have hpair := offsets_pairwise (p := 0) hpos
    rw [zip_layouts, List.pairwise_map] at hpair
    refine ⟨?_, ?_, ?_, ?_, ?_⟩
    · change (laidElements L s0.packed s0.elements).Pairwise _
      rw [laidElements_eq, List.pairwise_map]
      refine hpair.imp_of_mem fun {x y} hx hy hxy => ?_
      intro depth size hsz
      rw [(hoffset x hx).1, (hoffset y hy).1, hsizes depth _ size hsz]
      exact hxy
    · intro hp e he depth a ha
      have he : e ∈ laidElements L s0.packed s0.elements := he
      rw [laidElements_eq] at he
      obtain ⟨eo, heo, rfl⟩ := List.mem_map.mp he
      have haligned := @offsets_aligned s0.packed 0 (s0.elements.map fun e => L e.type) hp
      rw [zip_layouts] at haligned
      rw [(hoffset eo heo).1, haligns depth _ a ha]
      exact haligned _ (List.mem_map.mpr ⟨eo, heo, rfl⟩)
    · intro hp
      change (laidElements L s0.packed s0.elements).IsChain _
      have hchain := (@offsets_packed s0.packed 0 (s0.elements.map fun e => L e.type) hp).1
      rw [zip_layouts, List.isChain_map] at hchain
      rw [laidElements_eq, List.isChain_map]
      refine List.IsChain.imp_of_mem_imp (fun x y hx hy hxy => ?_) hchain
      intro depth size hsz
      rw [(hoffset x hx).1, (hoffset y hy).1, hsizes depth _ size hsz]
      exact hxy
    · intro e he depth size hsz
      have he : e ∈ laidElements L s0.packed s0.elements := he
      rw [laidElements_eq] at he
      obtain ⟨eo, heo, rfl⟩ := List.mem_map.mp he
      obtain ⟨hword, hle⟩ := hoffset eo heo
      rw [hword, hsizes depth _ size hsz]
      change _ ≤ (BitVec.ofNat 32 (L i).1).toNat
      rw [BitVec.toNat_ofNat, Nat.mod_eq_of_lt (by omega)]
      exact hle
    · change (BitVec.ofNat 32 (L i).2).toNat ∣ (BitVec.ofNat 32 (L i).1).toNat
      rw [BitVec.toNat_ofNat, BitVec.toNat_ofNat,
        Nat.mod_eq_of_lt (alignment_lt hacyclic hsolves hsized i), Nat.mod_eq_of_lt (by omega), hL]
      exact alignment_dvd_size
  | _ => exact nomatch hcode

theorem stateOf_nil (L : ℕ → ℕ × ℕ) (iu : IrUnit) : stateOf L iu [] = ⟨iu, []⟩ := by
  have hnil : laidTypes L [] iu.types = iu.types := by
    apply List.ext_getElem?
    intro i
    rw [getElem?_laidTypes]
    cases iu.types[i]? with
    | none => rfl
    | some it => exact congrArg some (if_neg List.not_mem_nil)
  unfold stateOf
  rw [hnil]

/-- A struct of an array, and behind it the struct that the array consists of. -/
def lateStruct : IrUnit :=
  ⟨[.struct ⟨[⟨1, 0⟩], 0, 0, false, none⟩, .array 2 2, .struct ⟨[⟨3, 0⟩], 0, 0, false, none⟩, .int32], [],
    fun _ => 0⟩

def lateLayout : ℕ → ℕ × ℕ
  | 0 => (8, 4)
  | 1 => (8, 4)
  | 2 => (4, 4)
  | 3 => (4, 4)
  | _ => (0, 0)

theorem lateStruct_solves : Solves lateStruct.types lateLayout
  | 0 => rfl
  | 1 => rfl
  | 2 => rfl
  | 3 => rfl
  | _ + 4 => rfl

theorem lateStruct_acyclic : Acyclic lateStruct.types := by
  refine ⟨fun i => 4 - i, fun i it ht j hj => ?_⟩
  have hparts : ∀ i < 4, ∀ j ∈ ((lateStruct.types[i]?).map parts).getD [], 4 - j < 4 - i := by decide
  have hlt : i < 4 := (List.getElem?_eq_some_iff.mp ht).1
  refine hparts i hlt j ?_
  rw [ht]
  exact hj

theorem lateStruct_sized : Sized lateStruct.types lateLayout := by
  have hsize : ∀ i, (lateLayout i).1 ≤ 8
    | 0 => by decide
    | 1 => by decide
    | 2 => by decide
    | 3 => by decide
    | _ + 4 => Nat.zero_le _
  refine ⟨fun i _ _ => ?_, fun i _ _ _ => ?_, fun i s ht _ e he => ?_⟩
  · have := hsize i
    omega
  · have := hsize i
    omega
  · have hparts : ∀ i < 4, ∀ j ∈ ((lateStruct.types[i]?).map parts).getD [],
        0 < (lateLayout j).2 := by decide
    have hlt : i < 4 := (List.getElem?_eq_some_iff.mp ht).1
    refine hparts i hlt e.type ?_
    rw [ht]
    exact List.mem_map.mpr ⟨e, he, rfl⟩

/-- The first struct gets the size that the other one has by then. -/
theorem lateStruct_inconsistent : ¬ ∀ (iu iu' : IrUnit) (L : ℕ → ℕ × ℕ) (depth : ℕ),
    Acyclic iu.types → Solves iu.types L → Sized iu.types L →
      typesFinalize depth iu = .ok iu' → LaidOut iu' L := by
  intro h
  have hfinalize : typesFinalize 3 lateStruct = .ok { lateStruct with
      types := [.struct ⟨[⟨1, 0⟩], 0, 1, false, none⟩, .array 2 2, .struct ⟨[⟨3, 0⟩], 4, 4, false, none⟩,
        .int32] } := rfl
  have hlaid := h lateStruct _ lateLayout 3 lateStruct_acyclic lateStruct_solves lateStruct_sized
    hfinalize
  have hsize := hlaid.sizes 1 0 0 rfl
  exact absurd hsize (by decide)

/-- If every array is reached after the struct that it consists of, the table is rejected or all
its types are laid out by the rules. The message of the rejection has no end if it is about a
function whose text has none. -/
theorem types_laid_out (hacyclic : Acyclic iu.types) : ∃ L, Solves iu.types L
    ∧ ∀ depth, (walk iu.types depth).isSome → Sized iu.types L →
      (∃ msg, typesFinalize depth iu = .error (.parserError msg))
        ∨ (typesFinalize depth iu = .error .outOfFuel ∧ ¬ Printable iu.types)
        ∨ ∃ iu', typesFinalize depth iu = .ok iu' ∧ LaidOut iu' L := by
  obtain ⟨L, hsolves⟩ := exists_solution hacyclic
  refine ⟨L, hsolves, fun depth hwalk hsized => ?_⟩
  obtain ⟨c, hc⟩ := Option.isSome_iff_exists.mp hwalk
  have hsim := typeStructLayout_simulates hacyclic hsolves hsized depth
  obtain ⟨hout, hin⟩ := finalizeTypes_outcome hsim hc
  rw [stateOf_nil] at hout
  have hall : ∀ j, isStruct iu.types j = true → j ∈ c := by
    intro j hj
    refine hin j (List.mem_range.mpr ?_) hj
    unfold isStruct at hj
    cases ht : iu.types[j]? with
    | none =>
      rw [ht] at hj
      exact nomatch hj
    | some it => exact (List.getElem?_eq_some_iff.mp ht).1
  obtain ⟨hsizes, haligns⟩ := laidOut_layouts hacyclic hsolves hsized hall
  unfold typesFinalize
  rcases hout with hok | ⟨msg, herror⟩ | ⟨herror, hendless⟩
  · rw [hok]
    refine Or.inr (Or.inr ⟨_, rfl, hsizes, haligns, ?_⟩)
    exact fun i s ht => consistent hacyclic hsolves hsized hall ht
  · rw [herror]
    exact Or.inl ⟨msg, rfl⟩
  · rw [herror]
    exact Or.inr (Or.inl ⟨rfl, hendless⟩)

def earlyStruct : IrUnit :=
  ⟨[.int32, .struct ⟨[⟨0, 0⟩], 0, 0, false, none⟩, .array 2 1, .struct ⟨[⟨2, 0⟩], 0, 0, false, none⟩], [],
    fun _ => 0⟩

theorem types_laid_out_early : ∃ L iu', typesFinalize 3 earlyStruct = .ok iu' ∧ LaidOut iu' L := by
  have hacyclic : Acyclic earlyStruct.types := by
    refine ⟨id, fun i it ht j hj => ?_⟩
    have hparts : ∀ i < 4, ∀ j ∈ ((earlyStruct.types[i]?).map parts).getD [], j < i := by decide
    refine hparts i (List.getElem?_eq_some_iff.mp ht).1 j ?_
    rw [ht]
    exact hj
  obtain ⟨L, hsolves, h⟩ := types_laid_out hacyclic
  have h0 : L 0 = (4, 4) := hsolves 0
  have h1 : L 1 = (4, 4) := (hsolves 1).trans (congrArg (fun l => recordLayout false [l]) h0)
  have h2 : L 2 = (8, 4) :=
    (hsolves 2).trans (congrArg (fun l : ℕ × ℕ => (2 * l.1, l.2)) h1)
  have h3 : L 3 = (8, 4) := (hsolves 3).trans (congrArg (fun l => recordLayout false [l]) h2)
  have hsize : ∀ i < 4, (L i).1 ≤ 8 ∧ 0 < (L i).2
    | 0, _ => h0 ▸ (by decide)
    | 1, _ => h1 ▸ (by decide)
    | 2, _ => h2 ▸ (by decide)
    | 3, _ => h3 ▸ (by decide)
  have hlt : ∀ {i : ℕ} {it : IrType}, earlyStruct.types[i]? = some it → i < 4 :=
    fun ht => (List.getElem?_eq_some_iff.mp ht).1
  have hsized : Sized earlyStruct.types L := by
    refine ⟨fun i s ht => ?_, fun i n e ht => ?_, fun i s ht _ e he => ?_⟩
    · have := hsize i (hlt ht)
      omega
    · have := hsize i (hlt ht)
      omega
    · have hparts : ∀ i < 4, ∀ j ∈ ((earlyStruct.types[i]?).map parts).getD [], j < 4 := by decide
      refine (hsize e.type (hparts i (hlt ht) e.type ?_)).2
      rw [ht]
      exact List.mem_map.mpr ⟨e, he, rfl⟩
  have hwalk : (walk earlyStruct.types 3).isSome := by decide
  rcases h 3 hwalk hsized with ⟨msg, herror⟩ | ⟨herror, -⟩ | ⟨iu', hok, hlaid⟩
  · exact nomatch herror
  · exact nomatch herror
  · exact ⟨L, iu', hok, hlaid⟩

end

end Vmir.StructLayout
