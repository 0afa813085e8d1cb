import Vmir.ByteStore
import Vmir.RelatedLists
import Vmir.StructLayout

set_option autoImplicit false

/-!
# The scalar parts of aggregates

A load or store of an aggregate accesses its scalar parts, each at its own place. What it means that
a sequence of loads or stores does the same.
-/
namespace Vmir.AggregateAccess
open Ir IrTypes TypeLayout ByteStore StructLayout
open RelatedLists (forall₂_mem forall₂_perm)

/-- The bytes that a load or store of the type accesses. -/
def scalarBytes (it : IrType) : Option ℕ :=
  match legalizeType it with
  | .int1 | .int8 => some 1
  | .int16 => some 2
  | .int32 | .pointer | .float => some 4
  | .int64 | .double => some 8
  | _ => none

/-- A scalar part: the elements that lead to it, where it is, and its type. -/
structure Leaf where
  path : List ℕ
  offset : ℤ
  type : ℕ
deriving DecidableEq

section
variable (iu : IrUnit) (depth : ℕ)

def IsScalar (type : ℕ) : Prop :=
  ∃ it n, iu.types[type]? = some it ∧ scalarBytes it = some n

def accessBytes (type : ℕ) : ℕ := ((iu.types[type]?).bind scalarBytes).getD 0

/-- The elements of a struct or an array, with offset and type. -/
def partsOf (type : ℕ) : Except Fault (List (ℤ × ℕ)) := do
  match ← typeGet iu type with
  | .struct s => .ok (s.elements.map fun e => (e.offset.toInt, e.type))
  | .array numElements elementType => do
    let esize ← typeSizeof iu depth elementType
    .ok ((List.range numElements).map fun i : ℕ => (esize.toInt * (i : ℤ), elementType))
  | _ => .error .abort

inductive LeafAt : ℕ → Leaf → Prop
  | scalar {type : ℕ} (h : IsScalar iu type) : LeafAt type ⟨[], 0, type⟩
  | part {type i ptype : ℕ} {parts : List (ℤ × ℕ)} {offset : ℤ} {l : Leaf}
      (hparts : partsOf iu depth type = .ok parts) (hi : parts[i]? = some (offset, ptype))
      (h : LeafAt ptype l) : LeafAt type ⟨i :: l.path, offset + l.offset, l.type⟩

/-- Each scalar part is accessed by one instruction, and no other instruction is there. -/
def Exact (type : ℕ) (R : Leaf → Instr → Prop) (is : List Instr) : Prop :=
  ∃ ls : List Leaf, ls.Nodup ∧ (∀ l, l ∈ ls ↔ LeafAt iu depth type l) ∧ List.Forall₂ R ls is

/-! ## The values of the parts -/

/-- An element of an aggregate: a value, or a zero. -/
inductive Content
  | value (vt : ValueType)
  | zero

/-- The elements of what is no zero initializer are in `iv_data`. -/
def Content.element (data : ℕ → List ValueType) : Content → ℕ → Option Content
  | .zero, _ => some .zero
  | .value vt, i =>
    match (iu.values[vt.value]?).map Value.cls with
    | some .zeroInitializer => some .zero
    | _ => ((data vt.value)[i]?).map .value

def Content.at (data : ℕ → List ValueType) : Content → List ℕ → Option Content
  | c, [] => some c
  | c, i :: path => (c.element iu data i).bind fun c => Content.at data c path

theorem content_zero {vt : ValueType} {data : ℕ → List ValueType}
    (h : (iu.values[vt.value]?).map Value.cls = some .zeroInitializer) (k : ℕ) :
    (Content.value vt).at iu data [k] = some .zero := by
  simp only [Content.at, Content.element, h, Option.bind_some]

theorem content_value {vt v : ValueType} {data : ℕ → List ValueType} {k : ℕ}
    (h : (iu.values[vt.value]?).map Value.cls ≠ some .zeroInitializer)
    (hv : (data vt.value)[k]? = some v) :
    (Content.value vt).at iu data [k] = some (.value v) := by
  unfold Content.at
  have helement : (Content.value vt).element iu data k = some (.value v) := by
    change (match (iu.values[vt.value]?).map Value.cls with
      | some .zeroInitializer => some Content.zero
      | _ => ((data vt.value)[k]?).map .value) = _
    split
    · rename_i hzero
      exact absurd hzero h
    · rw [hv]
      rfl
  rw [helement]
  rfl

/-! ## Stores -/

def runStores (number : ValueType → ℕ) (base : ℤ) (m : Bytes) (is : List Instr) : Bytes :=
  is.foldl (fun m i =>
    match i.cls with
    | .store _ value immediateOffset =>
      writeLe m (base + immediateOffset) (accessBytes iu value.type) (number value)
    | _ => m) m

/-- What a store of the whole aggregate does: the bytes of each part have its value, and the others
are as before. -/
structure Stored (type : ℕ) (content : List ℕ → ℕ) (addr : ℤ) (m m' : Bytes) : Prop where
  parts : ∀ l, LeafAt iu depth type l → readLe m' (addr + l.offset) (accessBytes iu l.type)
    = content l.path % 256 ^ accessBytes iu l.type
  others : ∀ x, (∀ l, LeafAt iu depth type l →
    x < addr + l.offset ∨ addr + l.offset + accessBytes iu l.type ≤ x) → m' x = m x

end

section
variable {iu : IrUnit} {depth type : ℕ} {parts : List (ℤ × ℕ)} {R : Leaf → Instr → Prop}
variable {is is' : List Instr}

theorem partsOf_not_scalar (hparts : partsOf iu depth type = .ok parts) : ¬ IsScalar iu type := by
  rintro ⟨it, n, hget, hbytes⟩
  unfold partsOf typeGet at hparts
  rw [hget] at hparts
  cases it with
  | struct s => cases hbytes
  | array n e => cases hbytes
  | _ => cases hparts

theorem leafAt_scalar {l : Leaf} (h : IsScalar iu type) :
    LeafAt iu depth type l ↔ l = ⟨[], 0, type⟩ := by
  constructor
  · intro hl
    cases hl with
    | scalar _ => rfl
    | part hparts _ _ => exact absurd h (partsOf_not_scalar hparts)
  · rintro rfl
    exact .scalar h

theorem leafAt_isScalar {l : Leaf} (h : LeafAt iu depth type l) : IsScalar iu l.type := by
  induction h with
  | scalar h => exact h
  | part _ _ _ ih => exact ih

theorem leafAt_parts {l : Leaf} (hparts : partsOf iu depth type = .ok parts)
    (hscalar : ∀ p ∈ parts, IsScalar iu p.2) : LeafAt iu depth type l
      ↔ ∃ i p, parts[i]? = some p ∧ l = ⟨[i], p.1, p.2⟩ := by
  constructor
  · intro hl
    cases hl with
    | scalar h => exact absurd h (partsOf_not_scalar hparts)
    | @part _ i ptype parts' offset l hparts' hi h =>
      rw [hparts] at hparts'
      cases hparts'
      have hp := hscalar _ (List.mem_of_getElem? hi)
      rw [(leafAt_scalar hp).mp h]
      exact ⟨i, _, hi, by rw [add_zero]⟩
  · rintro ⟨i, p, hi, rfl⟩
    have h := LeafAt.part hparts hi (.scalar (hscalar p (List.mem_of_getElem? hi)))
    rw [add_zero] at h
    exact h

/-- The leaves of an aggregate whose elements are scalars. -/
def flatLeaves (parts : List (ℤ × ℕ)) : List Leaf :=
  parts.zipIdx.map fun p => ⟨[p.2], p.1.1, p.1.2⟩

theorem getElem?_flatLeaves (k : ℕ) :
    (flatLeaves parts)[k]? = (parts[k]?).map fun p => ⟨[k], p.1, p.2⟩ := by
  unfold flatLeaves
  rw [List.getElem?_map, List.getElem?_zipIdx, Option.map_map, zero_add]
  rfl

theorem length_flatLeaves : (flatLeaves parts).length = parts.length := by
  unfold flatLeaves
  rw [List.length_map, List.length_zipIdx]

theorem mem_flatLeaves {l : Leaf} :
    l ∈ flatLeaves parts ↔ ∃ i p, parts[i]? = some p ∧ l = ⟨[i], p.1, p.2⟩ := by
  unfold flatLeaves
  rw [List.mem_map]
  constructor
  · rintro ⟨⟨p, i⟩, hmem, rfl⟩
    exact ⟨i, p, List.mem_zipIdx_iff_getElem?.mp hmem, rfl⟩
  · rintro ⟨i, p, hi, rfl⟩
    exact ⟨(p, i), List.mem_zipIdx_iff_getElem?.mpr hi, rfl⟩

theorem flatLeaves_nodup : (flatLeaves parts).Nodup := by
  have hpaths : ((flatLeaves parts).map Leaf.path).Nodup := by
    have heq : (flatLeaves parts).map Leaf.path = (List.range parts.length).map fun i => [i] := by
      unfold flatLeaves
      rw [List.map_map]
      change parts.zipIdx.map ((fun i => [i]) ∘ Prod.snd) = _
      rw [← List.map_map, List.zipIdx_map_snd, List.range_eq_range']
    rw [heq]
    exact List.nodup_range.map fun i j h => (List.cons.inj h).1
  exact hpaths.of_map

theorem Exact.perm (hperm : is.Perm is') (h : Exact iu depth type R is) :
    Exact iu depth type R is' := by
  obtain ⟨ls, hnodup, hmem, hall⟩ := h
  obtain ⟨ls', hls, hall'⟩ := forall₂_perm hall hperm
  exact ⟨ls', hls.nodup_iff.mp hnodup, fun l => hls.mem_iff.symm.trans (hmem l), hall'⟩

/-- One instruction for each element accesses the scalar parts exactly when the elements are
scalars. -/
theorem exact_iff (typeOf : Instr → ℕ) (hparts : partsOf iu depth type = .ok parts)
    (hR : ∀ l i, R l i → typeOf i = l.type) (htypes : is.map typeOf = parts.map Prod.snd)
    (hall : List.Forall₂ R (flatLeaves parts) is) :
    Exact iu depth type R is ↔ ∀ p ∈ parts, IsScalar iu p.2 := by
  constructor
  · rintro ⟨ls, -, hmem, hls⟩ p hp
    have htype : p.2 ∈ is.map typeOf := by
      rw [htypes]
      exact List.mem_map_of_mem hp
    obtain ⟨i, hi, htype⟩ := List.mem_map.mp htype
    obtain ⟨l, hl, hRl⟩ := forall₂_mem hls hi
    rw [← htype, hR l i hRl]
    exact leafAt_isScalar ((hmem l).mp hl)
  · intro hscalar
    refine ⟨flatLeaves parts, flatLeaves_nodup, fun l => ?_, hall⟩
    rw [mem_flatLeaves, leafAt_parts hparts hscalar]

/-! ## The memory behind the stores -/

variable {number : ValueType → ℕ} {content : List ℕ → ℕ} {base off : ℤ} {m : Bytes}

def StoresPart (iu : IrUnit) (number : ValueType → ℕ) (content : List ℕ → ℕ) (off : ℤ) (l : Leaf)
    (i : Instr) : Prop :=
  ∃ ptr value, i.cls = .store ptr value (off + l.offset) ∧ value.type = l.type
    ∧ number value % 256 ^ accessBytes iu l.type = content l.path % 256 ^ accessBytes iu l.type

/-- The parts of the aggregate do not overlap. -/
def Apart (iu : IrUnit) (l l' : Leaf) : Prop :=
  l.offset + accessBytes iu l.type ≤ l'.offset ∨ l'.offset + accessBytes iu l'.type ≤ l.offset

theorem runStores_cons (i : Instr) (is : List Instr) :
    runStores iu number base m (i :: is) = runStores iu number base
      (runStores iu number base m [i]) is := rfl

theorem runStores_store {ptr value : ValueType} {imm : ℤ} {i : Instr}
    (hi : i.cls = .store ptr value imm) : runStores iu number base m [i]
      = writeLe m (base + imm) (accessBytes iu value.type) (number value) := by
  unfold runStores
  rw [List.foldl_cons, List.foldl_nil, hi]

/-- Bytes that no part has are as before. -/
theorem runStores_others {ls : List Leaf} {x : ℤ}
    (hall : List.Forall₂ (StoresPart iu number content off) ls is)
    (hx : ∀ l ∈ ls, x < base + off + l.offset ∨ base + off + l.offset + accessBytes iu l.type ≤ x) :
    runStores iu number base m is x = m x := by
  induction hall generalizing m with
  | nil => rfl
  | @cons l i ls is hi _ ih =>
    obtain ⟨ptr, value, hcls, htype, -⟩ := hi
    rw [runStores_cons, runStores_store hcls,
      ih fun l' hl' => hx l' (List.mem_cons_of_mem l hl')]
    apply writeLe_of_not_mem
    rw [htype]
    have hout := hx l List.mem_cons_self
    omega

theorem runStores_parts {ls : List Leaf}
    (hall : List.Forall₂ (StoresPart iu number content off) ls is)
    (hapart : ls.Pairwise (Apart iu)) : ∀ l ∈ ls,
      readLe (runStores iu number base m is) (base + off + l.offset) (accessBytes iu l.type)
        = content l.path % 256 ^ accessBytes iu l.type := by
  induction hall generalizing m with
  | nil => exact fun l hl => absurd hl List.not_mem_nil
  | @cons l₀ i ls is hi hrest ih =>
    obtain ⟨hfirst, hlater⟩ := List.pairwise_cons.mp hapart
    intro l hl
    rw [runStores_cons]
    rcases List.mem_cons.mp hl with rfl | hl
    · obtain ⟨ptr, value, hcls, htype, hvalue⟩ := hi
      have hkeep : readLe (runStores iu number base (runStores iu number base m [i]) is)
          (base + off + l.offset) (accessBytes iu l.type)
          = readLe (runStores iu number base m [i]) (base + off + l.offset)
            (accessBytes iu l.type) := by
        apply readLe_congr
        intro x hlo hhi
        apply runStores_others hrest
        intro l' hl'
        rcases hfirst l' hl' with h | h
        · left; omega
        · right; omega
      rw [hkeep, runStores_store hcls, htype, ← add_assoc, readLe_writeLe_same, hvalue]
    · exact ih hlater l hl

theorem exact_stored (h : Exact iu depth type (StoresPart iu number content off) is)
    (hapart : ∀ l l', LeafAt iu depth type l → LeafAt iu depth type l' → l ≠ l' → Apart iu l l') :
    Stored iu depth type content (base + off) m (runStores iu number base m is) := by
  obtain ⟨ls, hnodup, hmem, hall⟩ := h
  constructor
  · intro l hl
    apply runStores_parts hall ?_ l ((hmem l).mpr hl)
    exact hnodup.pairwise_of_forall_ne fun l hl l' hl' hne =>
      hapart l l' ((hmem l).mp hl) ((hmem l').mp hl') hne
  · intro x hx
    exact runStores_others hall fun l hl => hx l ((hmem l).mp hl)

/-! ## Structs that were laid out -/

theorem scalarBytes_intx (bits : ℕ) : scalarBytes (.intx bits)
    = if bits ≤ 8 then some 1 else if bits ≤ 16 then some 2 else if bits ≤ 32 then some 4
      else if bits ≤ 64 then some 8 else none := by
  unfold scalarBytes legalizeType
  simp only
  split_ifs <;> rfl

theorem scalar_size (h : IsScalar iu type) :
    ∃ size, typeSizeof iu 0 type = .ok size ∧ accessBytes iu type ≤ size.toNat := by
  obtain ⟨it, n, hget, hbytes⟩ := h
  have hn : accessBytes iu type = n := by
    unfold accessBytes
    rw [hget, Option.bind_some, hbytes]
    rfl
  have hsize : typeSizeof iu 0 type = typeSizeofPtr iu 0 it := by
    unfold typeSizeof typeGet
    rw [hget]
    rfl
  rw [hn, hsize]
  cases it
  case intx bits =>
    rw [scalarBytes_intx] at hbytes
    by_cases h32 : bits ≤ 32
    · have hn4 : n ≤ 4 := by
        split at hbytes
        · cases hbytes
          decide
        · split at hbytes
          · cases hbytes
            decide
          · cases hbytes
            decide
      exact ⟨4, if_pos h32, hn4⟩
    · rw [if_neg (by omega), if_neg (by omega), if_neg h32] at hbytes
      split at hbytes
      · rename_i h64
        cases hbytes
        exact ⟨8, (if_neg h32).trans (if_pos h64), by decide⟩
      · cases hbytes
  all_goals
    first
      | cases hbytes; done
      | cases hbytes
        exact ⟨_, rfl, by decide⟩

theorem struct_apart {s : StructType} (hget : iu.types[type]? = some (.struct s))
    (hs : Consistent iu s) (hscalar : ∀ e ∈ s.elements, IsScalar iu e.type) {l l' : Leaf}
    (hl : LeafAt iu depth type l) (hl' : LeafAt iu depth type l') (hne : l ≠ l') :
    Apart iu l l' := by
  have hparts : partsOf iu depth type = .ok (s.elements.map fun e => (e.offset.toInt, e.type)) := by
    unfold partsOf typeGet
    rw [hget]
    rfl
  have hleaf : ∀ l, LeafAt iu depth type l →
      ∃ i e, s.elements[i]? = some e ∧ l = ⟨[i], e.offset.toInt, e.type⟩ := by
    intro l hl
    obtain ⟨i, p, hi, rfl⟩ := (leafAt_parts hparts fun p hp => by
      obtain ⟨e, he, rfl⟩ := List.mem_map.mp hp
      exact hscalar e he).mp hl
    rw [List.getElem?_map] at hi
    obtain ⟨e, he, rfl⟩ := Option.map_eq_some_iff.mp hi
    exact ⟨i, e, he, rfl⟩
  -- what is laid out in front does not reach the other
  have hbefore : ∀ i j e e', i < j → s.elements[i]? = some e → s.elements[j]? = some e' →
      Apart iu ⟨[i], e.offset.toInt, e.type⟩ ⟨[j], e'.offset.toInt, e'.type⟩ := by
    intro i j e e' hij he he'
    obtain ⟨size, hsize, hle⟩ := scalar_size (hscalar e (List.mem_of_getElem? he))
    obtain ⟨size', hsize', hle'⟩ := scalar_size (hscalar e' (List.mem_of_getElem? he'))
    obtain ⟨hilt, rfl⟩ := List.getElem?_eq_some_iff.mp he
    obtain ⟨hjlt, rfl⟩ := List.getElem?_eq_some_iff.mp he'
    have hapart := List.pairwise_iff_getElem.mp hs.apart i j hilt hjlt hij 0 size hsize
    have hwithin := hs.within _ (List.getElem_mem hjlt) 0 size' hsize'
    have hbound := s.size.isLt
    unfold Apart
    simp only [BitVec.toInt_eq_toNat_cond]
    split <;> split <;> omega
  obtain ⟨i, e, he, rfl⟩ := hleaf l hl
  obtain ⟨j, e', he', rfl⟩ := hleaf l' hl'
  rcases Nat.lt_trichotomy i j with hij | rfl | hij
  · exact hbefore i j e e' hij he he'
  · rw [he] at he'
    cases he'
    exact absurd rfl hne
  · exact (hbefore j i e' e hij he' he).symm

end

end Vmir.AggregateAccess
