import Vmir.AggregateAccess
import Vmir.DefUseBinding
import Vmir.DefUsePasses
import Vmir.ReplaceComplete

set_option autoImplicit false

/-!
# Splitting loads and stores of aggregates

The stores of constants, the stores of temporaries, and the loads are split by three functions. Each
makes one instruction for each element of the aggregate.
-/
namespace Vmir.AggregateSplit
open Ir IrTypes AggregateAccess StructLayout ByteStore
open DefUse (Linked Function instrs setInstr instrAdd instrDestroy valueBindInstr create)
open DefUse (isTemporary ivInstructions instrAt)
open DefUsePasses (elementsOf legalizeAggregate legalizeInput legalizeAggregateStore splitStore)
open DefUsePasses (LoadFields emitPartialLoad elementOffsets splitAggregatedLoad typeGetPointee)
open ReplaceInstructions (Env Pass addInstrs makePointers aggregateElements)
open ReplaceInstructions (splitConstStoreAggregate)
open ReplaceComplete (addInstrs_fst)
open RelatedLists (forall₂_of_getElem?)

/-! ## What is asked of them -/

def IsAggregate (iu : IrUnit) (type : ℕ) : Prop :=
  (∃ s, iu.types[type]? = some (.struct s)) ∨ ∃ n e, iu.types[type]? = some (.array n e)

/-- A struct with at least `n` elements, which are scalars. -/
def FlatStruct (iu : IrUnit) (n type : ℕ) : Prop :=
  ∃ s, iu.types[type]? = some (.struct s) ∧ n ≤ s.elements.length
    ∧ ∀ e ∈ s.elements, IsScalar iu e.type

section
variable (iu iu' : IrUnit) (depth : ℕ) (data : ℕ → List ValueType)
variable (ptr value : ValueType) (immediateOffset : ℤ)

/-- The value that is stored for a part: the value of the part, or a new zero. -/
def StoresContent (c : Option Content) (v : ValueType) : Prop :=
  match c with
  | some (.value w) => v = w
  | some .zero => iu'.values[v.value]? = some ⟨.constant 0, v.type⟩
  | none => False

def StoresLeaf (l : Leaf) (i : Instr) : Prop :=
  ∃ ptrType v, i.cls = .store ⟨ptr.value, ptrType⟩ v (immediateOffset + l.offset)
    ∧ v.type = l.type ∧ StoresContent iu' ((Content.value value).at iu data l.path) v

def contentNumber (number : ValueType → ℕ) (path : List ℕ) : ℕ :=
  match (Content.value value).at iu data path with
  | some (.value w) => number w
  | _ => 0

/-- The stores access each scalar part of the value, and, if the struct was laid out, do to memory
what one store of the whole would. -/
structure SplitsStore (is : List Instr) : Prop where
  exact : Exact iu depth value.type (StoresLeaf iu iu' data ptr value immediateOffset) is
  stored : (∀ s, iu.types[value.type]? = some (.struct s) → Consistent iu s) →
    ∀ (number : ValueType → ℕ) (base : ℤ) (m : Bytes),
      (∀ v, iu'.values[v.value]? = some ⟨.constant 0, v.type⟩ → number v = 0) →
      Stored iu depth value.type (contentNumber iu data value number) (base + immediateOffset) m
        (runStores iu number base m is)

end

/-- A constant aggregate: its values have the types of the elements. -/
structure ConstAggregate (env : Env) (iu : IrUnit) (value : ValueType) : Prop where
  cls : ∃ iv, iu.values[value.value]? = some iv ∧ (iv.cls = .zeroInitializer ∨ iv.cls = .aggregate
    ∧ ∀ s, iu.types[value.type]? = some (.struct s) →
      (env.data value.value).map ValueType.type = s.elements.map StructElement.type)
  type : IsAggregate iu value.type

def SplitsConst (env : Env) (depth : ℕ) (p : Pass) (l : Linked) (ptr value : ValueType)
    (immediateOffset : ℤ) : Prop :=
  ∃ p' ls, splitConstStoreAggregate p env l ptr value immediateOffset = .ok (.kept p' ls)
    ∧ SplitsStore p.iu p'.iu depth env.data ptr value immediateOffset (ls.map Linked.instr)

/-- A store of a temporary aggregate, which is the next instruction that reads it. Its elements are
temporaries if it is a struct, the first of them at the beginning. -/
structure TempStore (f : Function) (before after : List Linked) (ii : Linked)
    (ptr value : ValueType) (immediateOffset : ℤ) : Prop where
  place : instrs f = before ++ ii :: after
  refs : ((instrs f).map Linked.ref).Nodup
  fresh : ∀ l ∈ instrs f, l.ref < f.nextRef
  cls : ii.instr.cls = .store ptr value immediateOffset
  link : ∃ ivis, ivInstructions f value.value = ⟨value.value, ii.ref, .input⟩ :: ivis
  temporary : isTemporary f value.value = true
  type : IsAggregate f.iu value.type
  elements : ∀ it, f.iu.types[value.type]? = some it → (elementsOf f value.value).map ValueType.type
    = match it with
      | .struct s => s.elements.map StructElement.type
      | _ => []
  first : ∀ s e, f.iu.types[value.type]? = some (.struct s) → s.elements[0]? = some e → e.offset = 0

def SplitsTemp (f : Function) (depth : ℕ) (before after : List Linked) (ptr value : ValueType)
    (immediateOffset : ℤ) : Prop :=
  ∃ f' ls, legalizeAggregate f value.value = .ok f' ∧ instrs f' = before ++ ls ++ after
    ∧ SplitsStore f.iu f'.iu depth (elementsOf f) ptr value immediateOffset (ls.map Linked.instr)

/-- A load of an aggregate that has got several results, with the types of the elements. -/
structure AggregateLoad (f : Function) (depth : ℕ) (before after : List Linked) (ii : Linked)
    (fields : LoadFields) (type : ℕ) (parts : List (ℤ × ℕ)) : Prop where
  place : instrs f = before ++ ii :: after
  refs : ((instrs f).map Linked.ref).Nodup
  fresh : ∀ l ∈ instrs f, l.ref < f.nextRef
  cls : ∃ loadType, ii.instr.cls = .load fields.ptr fields.immediateOffset fields.valueOffset
    fields.valueOffsetMultiply none loadType
  pointee : typeGetPointee f.iu fields.ptr.type = .ok type
  elements : partsOf f.iu depth type = .ok parts
  rets : ii.instr.rets.map ValueType.type = parts.map Prod.snd
  several : 2 ≤ ii.instr.rets.length

/-- A load of an aggregate that still has one result, which is the aggregate: of an array, or of a
struct with less than two elements. -/
structure WholeLoad (f : Function) (before after : List Linked) (ii : Linked) (fields : LoadFields)
    (type : ℕ) : Prop where
  place : instrs f = before ++ ii :: after
  cls : ∃ loadType, ii.instr.cls = .load fields.ptr fields.immediateOffset fields.valueOffset
    fields.valueOffsetMultiply none loadType
  ret : ∃ value, ii.instr.rets = [⟨value, type⟩]
  type : IsAggregate f.iu type

/-- The load of a part into the result that is for it. -/
def LoadsLeaf (fields : LoadFields) (rets : List ValueType) (l : Leaf) (i : Instr) : Prop :=
  ∃ k ret loadType, l.path = [k] ∧ rets[k]? = some ret ∧ i.rets = [ret] ∧ ret.type = l.type
    ∧ i.cls = .load fields.ptr (fields.immediateOffset + l.offset) fields.valueOffset
      fields.valueOffsetMultiply none loadType

def SplitsLoad (f : Function) (depth : ℕ) (before after : List Linked) (ii : Linked)
    (fields : LoadFields) (type : ℕ) : Prop :=
  ∃ f' ls, splitAggregatedLoad f depth ii = .ok f' ∧ instrs f' = before ++ ls ++ after
    ∧ Exact f.iu depth type (LoadsLeaf fields ii.instr.rets) (ls.map Linked.instr)

/-! ## Parts with their instructions -/

section
variable {iu iu' : IrUnit} {depth : ℕ} {data : ℕ → List ValueType} {ptr value : ValueType}
variable {immediateOffset : ℤ} {is : List Instr} {s : StructType}

theorem partsOf_struct (hget : iu.types[value.type]? = some (.struct s)) :
    partsOf iu depth value.type = .ok (s.elements.map fun e => (e.offset.toInt, e.type)) := by
  unfold partsOf typeGet
  rw [hget]
  rfl

def storedType (i : Instr) : ℕ :=
  match i.cls with
  | .store _ value _ => value.type
  | _ => 0

theorem storesLeaf_type {l : Leaf} {i : Instr}
    (h : StoresLeaf iu iu' data ptr value immediateOffset l i) : storedType i = l.type := by
  obtain ⟨ptrType, v, hcls, htype, -⟩ := h
  unfold storedType
  rw [hcls]
  exact htype

theorem splitsStore_iff (hget : iu.types[value.type]? = some (.struct s))
    (htypes : is.map storedType = s.elements.map StructElement.type)
    (hall : List.Forall₂ (StoresLeaf iu iu' data ptr value immediateOffset)
      (flatLeaves (s.elements.map fun e => (e.offset.toInt, e.type))) is) {is' : List Instr}
    (hperm : is.Perm is') :
    SplitsStore iu iu' depth data ptr value immediateOffset is'
      ↔ ∀ e ∈ s.elements, IsScalar iu e.type := by
  have hparts := @partsOf_struct iu depth value s hget
  have hexact := exact_iff storedType hparts (fun l i => storesLeaf_type) (by
    rw [htypes, List.map_map]
    rfl) hall
  have hscalar : (∀ p ∈ s.elements.map fun e => (e.offset.toInt, e.type), IsScalar iu p.2)
      ↔ ∀ e ∈ s.elements, IsScalar iu e.type := List.forall_mem_map
  constructor
  · intro h
    exact hscalar.mp (hexact.mp (h.exact.perm hperm.symm))
  · intro hall'
    have hex := (hexact.mpr (hscalar.mpr hall')).perm hperm
    refine ⟨hex, fun hlaid number base m hzero => ?_⟩
    refine exact_stored ?_ ?_
    · obtain ⟨ls, hnodup, hmem, hrel⟩ := hex
      refine ⟨ls, hnodup, hmem, hrel.imp ?_⟩
      rintro l i ⟨ptrType, v, hcls, htype, hcontent⟩
      refine ⟨_, v, hcls, htype, ?_⟩
      unfold contentNumber
      unfold StoresContent at hcontent
      cases hc : (Content.value value).at iu data l.path with
      | none =>
        rw [hc] at hcontent
        exact absurd hcontent id
      | some c =>
        rw [hc] at hcontent
        cases c with
        | value w =>
          have hv : v = w := hcontent
          rw [hv]
        | zero =>
          have hv := hzero v hcontent
          rw [hv]
    · intro l l' hl hl' hne
      exact struct_apart hget (hlaid s hget) hall' hl hl' hne

def StoresEach (iu iu' : IrUnit) (data : ℕ → List ValueType) (ptr value : ValueType)
    (immediateOffset : ℤ) (es : List StructElement) (is : List Instr) : Prop :=
  is.length = es.length ∧ ∀ (k : ℕ) e i, es[k]? = some e → is[k]? = some i → ∃ ptrType v,
    i.cls = .store ⟨ptr.value, ptrType⟩ v (immediateOffset + e.offset.toInt) ∧ v.type = e.type
      ∧ StoresContent iu' ((Content.value value).at iu data [k]) v

theorem storesEach_iff (hget : iu.types[value.type]? = some (.struct s))
    (h : StoresEach iu iu' data ptr value immediateOffset s.elements is) {is' : List Instr}
    (hperm : is.Perm is') :
    SplitsStore iu iu' depth data ptr value immediateOffset is'
      ↔ ∀ e ∈ s.elements, IsScalar iu e.type := by
  obtain ⟨hlength, hstores⟩ := h
  apply splitsStore_iff hget ?_ ?_ hperm
  · apply List.ext_getElem
    · rw [List.length_map, List.length_map, hlength]
    · intro k hk hk'
      rw [List.length_map] at hk hk'
      obtain ⟨ptrType, v, hcls, htype, -⟩ := hstores k _ _ (List.getElem?_eq_getElem hk')
        (List.getElem?_eq_getElem hk)
      rw [List.getElem_map, List.getElem_map, ← htype]
      unfold storedType
      rw [hcls]
  · apply forall₂_of_getElem?
    · rw [length_flatLeaves, List.length_map, hlength]
    · intro k l i hl hi
      rw [getElem?_flatLeaves, List.getElem?_map, Option.map_map] at hl
      obtain ⟨e, he, rfl⟩ := Option.map_eq_some_iff.mp hl
      exact hstores k e i he hi

end

/-! ## Constants -/

section
variable {env : Env} {depth : ℕ} {p : Pass} {l : Linked} {ptr value : ValueType}
variable {immediateOffset : ℤ} {s : StructType}

theorem addInstrs_instrs (is : List Instr) (p : Pass) :
    (addInstrs p is).2.map Linked.instr = is := by
  induction is generalizing p with
  | nil => rfl
  | cons i is ih => exact congrArg (i :: ·) (ih _)

theorem makePointers_length (es : List StructElement) (iu : IrUnit) :
    (makePointers iu es).2.length = es.length := by
  induction es generalizing iu with
  | nil => rfl
  | cons e es ih => exact congrArg (· + 1) (ih _)

theorem makePointers_values (es : List StructElement) (iu : IrUnit) :
    (makePointers iu es).1.values = iu.values := by
  induction es generalizing iu with
  | nil => rfl
  | cons e es ih =>
    apply (ih _).trans
    unfold ConstExprs.makePointer
    split <;> rfl

theorem aggregateElements_spec (h : ConstAggregate env p.iu value)
    (hget : p.iu.types[value.type]? = some (.struct s)) :
    ∃ iu' vs, aggregateElements env p.iu value s = .ok (some (iu', vs))
      ∧ vs.length = s.elements.length
      ∧ ∀ k e v, s.elements[k]? = some e → vs[k]? = some v → v.type = e.type
        ∧ StoresContent iu' ((Content.value value).at p.iu env.data [k]) v := by
  obtain ⟨iv, hiv, hcls⟩ := h.cls
  have hvalue : valueGet p.iu value.value = .ok iv := by
    unfold valueGet
    rw [hiv]
  unfold aggregateElements
  rw [hvalue]
  rcases hcls with hcls | ⟨hcls, htypes⟩
  · have hzero : (p.iu.values[value.value]?).map Value.cls = some .zeroInitializer := by
      rw [hiv, Option.map_some, hcls]
    refine ⟨{ p.iu with values := p.iu.values ++ s.elements.map fun e => ⟨.constant 0, e.type⟩ },
      s.elements.mapIdx fun i e => ⟨p.iu.values.length + i, e.type⟩, ?_, ?_, ?_⟩
    · simp only [ProgramText.ok_bind, hcls]
    · rw [List.length_mapIdx]
    · intro k e v he hv
      rw [List.getElem?_mapIdx, he] at hv
      cases hv
      refine ⟨rfl, ?_⟩
      rw [content_zero p.iu hzero k]
      change (p.iu.values ++ _)[p.iu.values.length + k]? = some ⟨.constant 0, e.type⟩
      rw [List.getElem?_append_right (Nat.le_add_right ..), Nat.add_sub_cancel_left,
        List.getElem?_map, he]
      rfl
  · have hlength : (env.data value.value).length = s.elements.length := by
      have h := congrArg List.length (htypes s hget)
      rw [List.length_map, List.length_map] at h
      exact h
    refine ⟨p.iu, (env.data value.value).take s.elements.length, ?_, ?_, ?_⟩
    · simp only [ProgramText.ok_bind, hcls]
      rw [if_neg (by omega)]
    · rw [List.length_take]
      omega
    · intro k e v he hv
      rw [List.take_of_length_le (Nat.le_of_eq hlength)] at hv
      have htype := congrArg (fun types => types[k]?) (htypes s hget)
      simp only [List.getElem?_map, hv, he, Option.map_some, Option.some.injEq] at htype
      refine ⟨htype, ?_⟩
      have hnot : (p.iu.values[value.value]?).map Value.cls ≠ some .zeroInitializer := by
        rw [hiv, Option.map_some, hcls]
        exact nofun
      rw [content_value p.iu hnot hv]
      rfl

theorem constAggregate_get (h : ConstAggregate env p.iu value) :
    ∃ iv, valueGet p.iu value.value = .ok iv
      ∧ ¬ (iv.cls ≠ .aggregate ∧ iv.cls ≠ .zeroInitializer) := by
  obtain ⟨iv, hiv, hcls⟩ := h.cls
  refine ⟨iv, ?_, fun hne => ?_⟩
  · unfold valueGet
    rw [hiv]
  · rcases hcls with hcls | ⟨hcls, -⟩
    · exact hne.2 hcls
    · exact hne.1 hcls

variable (l ptr immediateOffset) in
theorem splitConst_struct (h : ConstAggregate env p.iu value)
    (hget : p.iu.types[value.type]? = some (.struct s)) (hne : s.elements ≠ []) :
    ∃ p' ls, splitConstStoreAggregate p env l ptr value immediateOffset = .ok (.kept p' ls)
      ∧ StoresEach p.iu p'.iu env.data ptr value immediateOffset s.elements
        (ls.map Linked.instr) := by
  obtain ⟨iv, hvalue, hcls⟩ := constAggregate_get h
  obtain ⟨iu', vs, helements, hlength, hcontent⟩ := aggregateElements_spec h hget
  have htype : typeGet p.iu value.type = .ok (.struct s) := by
    unfold typeGet
    rw [hget]
  have hptr := makePointers_length s.elements iu'
  cases hstores : (s.elements.zip (vs.zip (makePointers iu' s.elements).2)).map fun e =>
      InstrClass.store ⟨ptr.value, e.2.2⟩ e.2.1 (immediateOffset + e.1.offset.toInt) with
  | nil =>
    have hzero := congrArg List.length hstores
    rw [List.length_map, List.length_zip, List.length_zip, List.length_nil] at hzero
    have hpos := List.length_pos_of_ne_nil hne
    omega
  | cons first rest =>
    let r := addInstrs { p with iu := (makePointers iu' s.elements).1 }
      (rest.map fun store => ⟨[], store⟩)
    have hclasses : (⟨l.ref, ⟨l.instr.rets, first⟩⟩ :: r.2 : List Linked).map
        (fun l => l.instr.cls) = first :: rest := by
      have hrest := congrArg (List.map Instr.cls) (addInstrs_instrs
        (rest.map fun store => ⟨[], store⟩) { p with iu := (makePointers iu' s.elements).1 })
      rw [List.map_map, List.map_map] at hrest
      exact congrArg (first :: ·) (hrest.trans (List.map_id rest))
    have hvalues : r.1.iu.values = iu'.values := by
      rw [(addInstrs_fst _ _).1]
      exact makePointers_values s.elements iu'
    refine ⟨r.1, ⟨l.ref, ⟨l.instr.rets, first⟩⟩ :: r.2, ?_, ?_, ?_⟩
    · unfold splitConstStoreAggregate
      rw [hvalue]
      simp only [ProgramText.ok_bind, hcls, if_false, htype, helements, hstores]
      rfl
    · have hlen := congrArg List.length (hclasses.trans hstores.symm)
      rw [List.length_map, List.length_map, List.length_zip, List.length_zip] at hlen
      rw [List.length_map]
      omega
    · intro k e i he hi
      have hget' := congrArg (fun cs => cs[k]?) (hclasses.trans hstores.symm)
      rw [List.getElem?_map] at hget' hi
      obtain ⟨l', hl', rfl⟩ := Option.map_eq_some_iff.mp hi
      rw [hl', Option.map_some, List.getElem?_map] at hget'
      obtain ⟨z, hz, hcls'⟩ := Option.map_eq_some_iff.mp hget'.symm
      obtain ⟨hze, hzv⟩ := List.getElem?_zip_eq_some.mp hz
      have hv := (List.getElem?_zip_eq_some.mp hzv).1
      rw [he] at hze
      obtain ⟨htype', hstored⟩ := hcontent k e z.2.1 he hv
      refine ⟨z.2.2, z.2.1, ?_, htype', ?_⟩
      · rw [← hcls', Option.some.inj hze]
      · unfold StoresContent at hstored ⊢
        rw [hvalues]
        exact hstored

variable (l ptr immediateOffset) in
theorem splitConst_fails (h : ConstAggregate env p.iu value)
    (hnot : ∀ s, p.iu.types[value.type]? = some (.struct s) → s.elements = []) :
    ∃ e, splitConstStoreAggregate p env l ptr value immediateOffset = .error e := by
  obtain ⟨iv, hvalue, hcls⟩ := constAggregate_get h
  have hrun : ∀ it, p.iu.types[value.type]? = some it → typeGet p.iu value.type = .ok it := by
    intro it hit
    unfold typeGet
    rw [hit]
  rcases h.type with ⟨s, hs⟩ | ⟨n, e, ha⟩
  · obtain ⟨iu', vs, helements, -, -⟩ := aggregateElements_spec h hs
    refine ⟨.nullDeref, ?_⟩
    unfold splitConstStoreAggregate
    rw [hvalue]
    simp only [ProgramText.ok_bind, hcls, if_false, hrun _ hs, helements, hnot s hs,
      List.zip_nil_left, List.map_nil]
  · refine ⟨.nullDeref, ?_⟩
    unfold splitConstStoreAggregate
    rw [hvalue]
    simp only [ProgramText.ok_bind, hcls, if_false, hrun _ ha]

theorem splitsConst_iff (h : ConstAggregate env p.iu value) :
    SplitsConst env depth p l ptr value immediateOffset ↔ FlatStruct p.iu 1 value.type := by
  constructor
  · rintro ⟨p', ls, hrun, hsplits⟩
    by_cases hstruct : ∃ s, p.iu.types[value.type]? = some (.struct s) ∧ s.elements ≠ []
    · obtain ⟨s, hs, hne⟩ := hstruct
      obtain ⟨p'', ls', hrun', heach⟩ := splitConst_struct l ptr immediateOffset h hs hne
      rw [hrun] at hrun'
      cases hrun'
      exact ⟨s, hs, List.length_pos_of_ne_nil hne,
        (storesEach_iff hs heach (List.Perm.refl _)).mp hsplits⟩
    · obtain ⟨e, herror⟩ := splitConst_fails l ptr immediateOffset h fun s hs => by
        by_contra hne
        exact hstruct ⟨s, hs, hne⟩
      rw [herror] at hrun
      cases hrun
  · rintro ⟨s, hs, hpos, hscalar⟩
    obtain ⟨p', ls, hrun, heach⟩ := splitConst_struct l ptr immediateOffset h hs
      (List.ne_nil_of_length_pos hpos)
    exact ⟨p', ls, hrun, (storesEach_iff hs heach (List.Perm.refl _)).mpr hscalar⟩

end

/-! ## The instructions of a function -/

section
variable {f : Function} {before after : List Linked} {x : Linked} {r : ℕ}

def OnlyAt (before after : List Linked) (r : ℕ) : Prop :=
  (∀ l ∈ before, l.ref ≠ r) ∧ ∀ l ∈ after, l.ref ≠ r

theorem onlyAt_of_nodup (hrefs : ((before ++ x :: after).map Linked.ref).Nodup) :
    OnlyAt before after x.ref := by
  rw [List.map_append, List.map_cons, List.nodup_middle] at hrefs
  have hx := (List.nodup_cons.mp hrefs).1
  rw [← List.map_append] at hx
  constructor
  · intro l hl heq
    exact hx (heq ▸ List.mem_map_of_mem (List.mem_append_left after hl))
  · intro l hl heq
    exact hx (heq ▸ List.mem_map_of_mem (List.mem_append_right before hl))

theorem instrs_setInstr (hinstrs : instrs f = before ++ x :: after)
    (honly : OnlyAt before after x.ref) (i : Instr) :
    instrs (setInstr f x.ref i) = before ++ ⟨x.ref, i⟩ :: after := by
  have hmap : instrs (setInstr f x.ref i)
      = (instrs f).map fun l => if l.ref = x.ref then { l with instr := i } else l := by
    unfold instrs setInstr
    rw [List.flatMap_map, List.map_flatMap]
  have hkeep : ∀ ls : List Linked, (∀ l ∈ ls, l.ref ≠ x.ref) →
      ls.map (fun l => if l.ref = x.ref then { l with instr := i } else l) = ls :=
    fun ls h => (List.map_congr_left fun l hl => if_neg (h l hl)).trans (List.map_id ls)
  rw [hmap, hinstrs, List.map_append, List.map_cons, if_pos rfl, hkeep before honly.1,
    hkeep after honly.2]

theorem instrs_instrAdd (hinstrs : instrs f = before ++ x :: after)
    (honly : OnlyAt before after x.ref) (i : Instr) :
    instrs (instrAdd f .after x.ref i) = before ++ x :: ⟨f.nextRef, i⟩ :: after := by
  have hflat : instrs (instrAdd f .after x.ref i) = (instrs f).flatMap fun l =>
      if l.ref = x.ref then [l, ⟨f.nextRef, i⟩] else [l] := by
    unfold instrs instrAdd
    rw [List.flatMap_map, List.flatMap_assoc]
  have hkeep : ∀ ls : List Linked, (∀ l ∈ ls, l.ref ≠ x.ref) →
      ls.flatMap (fun l => if l.ref = x.ref then [l, ⟨f.nextRef, i⟩] else [l]) = ls := by
    intro ls h
    induction ls with
    | nil => rfl
    | cons l ls ih =>
      rw [List.flatMap_cons, if_neg (h l List.mem_cons_self),
        ih fun l' hl' => h l' (List.mem_cons_of_mem l hl')]
      rfl
  rw [hflat, hinstrs, List.flatMap_append, List.flatMap_cons, if_pos rfl, hkeep before honly.1,
    hkeep after honly.2]
  rfl

theorem instrs_instrDestroy (hinstrs : instrs f = before ++ x :: after)
    (honly : OnlyAt before after x.ref) : instrs (instrDestroy f x.ref) = before ++ after := by
  have hfilter : instrs (instrDestroy f x.ref) = (instrs f).filter fun l => l.ref ≠ x.ref := by
    unfold instrs instrDestroy
    rw [List.flatMap_map, List.filter_flatMap]
  have hkeep : ∀ ls : List Linked, (∀ l ∈ ls, l.ref ≠ x.ref) →
      ls.filter (fun l => l.ref ≠ x.ref) = ls :=
    fun ls h => List.filter_eq_self.mpr fun l hl => decide_eq_true (h l hl)
  rw [hfilter, hinstrs, List.filter_append, List.filter_cons_of_neg (by simp),
    hkeep before honly.1, hkeep after honly.2]

theorem OnlyAt.add (honly : OnlyAt before after r) {l : Linked} (hl : l.ref ≠ r) :
    OnlyAt before (l :: after) r :=
  ⟨honly.1, List.forall_mem_cons.mpr ⟨hl, honly.2⟩⟩

end

/-! ## Temporaries -/

section
variable {f : Function} {before after : List Linked} {ii x : Linked} {ptr value : ValueType}
variable {immediateOffset : ℤ} {depth : ℕ} {s : StructType}

theorem splitStores_run (ptr : ValueType) (immediateOffset : ℤ)
    (es : List (ValueType × StructElement)) (x : Linked) (r : ℕ) (hr : x.ref = r)
    (hinstrs : instrs f = before ++ x :: after) (honly : OnlyAt before after r)
    (hfresh : r < f.nextRef) :
    ∃ new : List Linked, instrs (es.foldl (splitStore r ptr immediateOffset) f)
        = before ++ x :: (new ++ after)
      ∧ new.map Linked.instr = (es.map fun e =>
        ⟨[], .store ptr e.1 (immediateOffset + e.2.offset.toInt)⟩).reverse
      ∧ (es.foldl (splitStore r ptr immediateOffset) f).iu = f.iu := by
  induction es generalizing f after with
  | nil => exact ⟨[], hinstrs, rfl, rfl⟩
  | cons e es ih =>
    subst hr
    let store : Instr := ⟨[], .store ptr e.1 (immediateOffset + e.2.offset.toInt)⟩
    have hadd : instrs (splitStore x.ref ptr immediateOffset f e)
        = before ++ x :: (⟨f.nextRef, store⟩ :: after) := instrs_instrAdd hinstrs honly store
    obtain ⟨new, hnew, hmap, hiu⟩ := ih hadd (honly.add (Nat.ne_of_gt hfresh))
      (Nat.lt_succ_of_lt hfresh)
    refine ⟨new ++ [⟨f.nextRef, store⟩], ?_, ?_, hiu⟩
    · rw [List.foldl_cons, hnew, List.append_assoc, List.singleton_append]
    · rw [List.map_append, hmap]
      change _ ++ [store] = (store :: es.map _).reverse
      rw [List.reverse_cons]

theorem TempStore.onlyAt (h : TempStore f before after ii ptr value immediateOffset) :
    OnlyAt before after ii.ref := onlyAt_of_nodup (h.place ▸ h.refs)

theorem TempStore.instrAt (h : TempStore f before after ii ptr value immediateOffset)
    (g : Function) (hg : g.bbs = f.bbs) : DefUse.instrAt g ii.ref = .ok ii := by
  have hinstrs : instrs g = instrs f := by
    unfold instrs
    rw [hg]
  have hfind : (instrs g).find? (fun l => l.ref = ii.ref) = some ii := by
    rw [hinstrs, h.place, List.find?_append, List.find?_eq_none.mpr fun l hl => by
      simpa using h.onlyAt.1 l hl, List.find?_cons, decide_eq_true rfl]
    rfl
  unfold DefUse.instrAt
  rw [hfind]

theorem legalizeAggregate_store (h : TempStore f before after ii ptr value immediateOffset)
    (hmany : 1 < (elementsOf f value.value).length) :
    ∃ g : Function, g.bbs = f.bbs ∧ g.iu = f.iu ∧ g.nextRef = f.nextRef
      ∧ legalizeAggregate f value.value
        = legalizeAggregateStore g ii ptr value immediateOffset (elementsOf f value.value) := by
  obtain ⟨ivis, hivis⟩ := h.link
  let g : Function := { f with links := f.links.erase ⟨value.value, ii.ref, .input⟩ }
  have hinstr : DefUse.instrAt g ii.ref = .ok ii := h.instrAt g rfl
  refine ⟨g, rfl, rfl, rfl, ?_⟩
  unfold legalizeAggregate
  simp only [hivis]
  rw [if_neg (by omega)]
  change (DefUse.instrAt g ii.ref >>= _) = _
  rw [hinstr]
  simp only [ProgramText.ok_bind, h.cls]
  unfold legalizeInput
  rw [h.cls]

theorem legalizeAggregate_few (hfew : (elementsOf f value.value).length ≤ 1) :
    legalizeAggregate f value.value = .error .abort := by
  unfold legalizeAggregate
  exact if_pos hfew

theorem TempStore.elements_struct (h : TempStore f before after ii ptr value immediateOffset)
    (hs : f.iu.types[value.type]? = some (.struct s)) :
    (elementsOf f value.value).map ValueType.type = s.elements.map StructElement.type :=
  h.elements _ hs

theorem splitTemp_struct (h : TempStore f before after ii ptr value immediateOffset)
    (hs : f.iu.types[value.type]? = some (.struct s)) (hmany : 2 ≤ s.elements.length) :
    ∃ f' ls, legalizeAggregate f value.value = .ok f' ∧ instrs f' = before ++ ls ++ after
      ∧ f'.iu = f.iu ∧ ∃ is, is.Perm (ls.map Linked.instr)
        ∧ StoresEach f.iu f.iu (elementsOf f) ptr value immediateOffset s.elements is := by
  have hlength := congrArg List.length (h.elements_struct hs)
  rw [List.length_map, List.length_map] at hlength
  obtain ⟨g, hbbs, hiu, hnext, hrun⟩ := legalizeAggregate_store h (by omega)
  have hinstrs : instrs g = before ++ ii :: after := by
    rw [← h.place]
    unfold instrs
    rw [hbbs]
  have htype : typeGet g.iu value.type = .ok (.struct s) := by
    unfold typeGet
    rw [hiu, hs]
  have hclass : (f.iu.values[value.value]?).map Value.cls ≠ some .zeroInitializer := by
    have htemp : (f.iu.values[value.value]?).map Value.cls = some .temporary :=
      DefUseBinding.isTemporary_iff.mp h.temporary
    rw [htemp]
    exact nofun
  cases hvs : elementsOf f value.value with
  | nil =>
    rw [hvs, List.length_nil] at hlength
    omega
  | cons v vs =>
    cases hes : s.elements with
    | nil =>
      rw [hes, List.length_nil] at hmany
      omega
    | cons e es =>
      rw [hvs, hes, List.length_cons, List.length_cons] at hlength
      let i₀ : Instr := ⟨ii.instr.rets, .store ptr v immediateOffset⟩
      let rest : List Instr := (vs.zip es).map fun e =>
        ⟨[], .store ptr e.1 (immediateOffset + e.2.offset.toInt)⟩
      let g' : Function := valueBindInstr (setInstr g ii.ref i₀) v.value ii.ref .input
      have hset : instrs g' = before ++ ⟨ii.ref, i₀⟩ :: after :=
        instrs_setInstr hinstrs h.onlyAt i₀
      have hfresh : ii.ref < g'.nextRef := by
        change ii.ref < g.nextRef
        rw [hnext]
        exact h.fresh ii (h.place ▸ List.mem_append_right _ List.mem_cons_self)
      obtain ⟨new, hnew, hmap, hiu'⟩ := splitStores_run ptr immediateOffset (vs.zip es)
        ⟨ii.ref, i₀⟩ ii.ref rfl hset h.onlyAt hfresh
      refine ⟨_, ⟨ii.ref, i₀⟩ :: new, ?_, ?_, hiu'.trans hiu, i₀ :: rest, ?_, ?_, ?_⟩
      · rw [hrun, hvs]
        unfold legalizeAggregateStore
        rw [htype]
        simp only [ProgramText.ok_bind, hes]
        rw [if_pos (Nat.succ.inj hlength)]
      · rw [hnew, List.append_assoc]
        rfl
      · rw [List.map_cons, hmap]
        exact List.Perm.cons _ (List.reverse_perm rest).symm
      · change rest.length + 1 = es.length + 1
        rw [List.length_map, List.length_zip]
        omega
      · intro k e' i he' hi
        have htypes := congrArg (fun types => types[k]?) (h.elements_struct hs)
        simp only [List.getElem?_map, hvs, hes, he', Option.map_some] at htypes
        obtain ⟨v', hv', htype'⟩ := Option.map_eq_some_iff.mp htypes
        have hcontent : StoresContent f.iu
            ((Content.value value).at f.iu (elementsOf f) [k]) v' := by
          rw [content_value f.iu hclass (hvs ▸ hv')]
          rfl
        refine ⟨ptr.type, v', ?_, htype', hcontent⟩
        cases k with
        | zero =>
          cases hi
          cases hv'
          have hoffset : e'.offset = 0 := h.first s e' hs (hes ▸ he')
          rw [hoffset]
          exact congrArg (InstrClass.store ptr v) (add_zero _).symm
        | succ k =>
          rw [List.getElem?_cons_succ] at hi he' hv'
          rw [List.getElem?_map] at hi
          obtain ⟨z, hz, rfl⟩ := Option.map_eq_some_iff.mp hi
          obtain ⟨hzv, hze⟩ := List.getElem?_zip_eq_some.mp hz
          rw [hv'] at hzv
          rw [he'] at hze
          change InstrClass.store ptr z.1 (immediateOffset + z.2.offset.toInt) = _
          rw [← Option.some.inj hzv, ← Option.some.inj hze]

theorem splitsTemp_iff (h : TempStore f before after ii ptr value immediateOffset) :
    SplitsTemp f depth before after ptr value immediateOffset ↔ FlatStruct f.iu 2 value.type := by
  constructor
  · rintro ⟨f', ls, hrun, hinstrs, hsplits⟩
    have hmany : 2 ≤ (elementsOf f value.value).length := by
      by_contra hfew
      rw [legalizeAggregate_few (by omega)] at hrun
      cases hrun
    rcases h.type with ⟨s, hs⟩ | ⟨n, e, ha⟩
    · have hlength := congrArg List.length (h.elements_struct hs)
      rw [List.length_map, List.length_map] at hlength
      rw [hlength] at hmany
      obtain ⟨f'', ls', hrun', hinstrs', hiu, is, hperm, heach⟩ := splitTemp_struct h hs hmany
      rw [hrun] at hrun'
      cases hrun'
      rw [hinstrs, List.append_cancel_right_eq, List.append_cancel_left_eq] at hinstrs'
      rw [hinstrs', hiu] at hsplits
      exact ⟨s, hs, hmany, (storesEach_iff hs heach hperm).mp hsplits⟩
    · have hnone : elementsOf f value.value = [] := List.map_eq_nil_iff.mp (h.elements _ ha)
      rw [hnone] at hmany
      cases hmany
  · rintro ⟨s, hs, hmany, hscalar⟩
    obtain ⟨f', ls, hrun, hinstrs, hiu, is, hperm, heach⟩ := splitTemp_struct h hs hmany
    refine ⟨f', ls, hrun, hinstrs, ?_⟩
    rw [hiu]
    exact (storesEach_iff hs heach hperm).mpr hscalar

end

/-! ## Loads -/

section
variable {f : Function} {before after : List Linked} {ii : Linked} {fields : LoadFields}
variable {depth type : ℕ} {parts : List (ℤ × ℕ)}

def partialLoad (fields : LoadFields) (e : ℤ × ValueType) : Instr :=
  ⟨[e.2], .load fields.ptr (fields.immediateOffset + e.1) fields.valueOffset
    fields.valueOffsetMultiply none 0⟩

theorem partialLoads_run (fields : LoadFields) (es : List (ℤ × ValueType)) (x : Linked)
    (hinstrs : instrs f = before ++ x :: after) (honly : OnlyAt before after x.ref)
    (hfresh : ∀ l ∈ instrs f, l.ref < f.nextRef) :
    ∃ new : List Linked, instrs (es.foldl (emitPartialLoad fields) (f, x.ref)).1
        = before ++ x :: (new ++ after)
      ∧ new.map Linked.instr = es.map (partialLoad fields) ∧ ∀ l ∈ new, f.nextRef ≤ l.ref := by
  induction es generalizing f before x with
  | nil => exact ⟨[], hinstrs, rfl, fun l hl => absurd hl List.not_mem_nil⟩
  | cons e es ih =>
    let y : Linked := ⟨f.nextRef, partialLoad fields e⟩
    let g : Function := (emitPartialLoad fields (f, x.ref) e).1
    have hnext : g.nextRef = f.nextRef + 1 := (DefUseBinding.create_eq ..).2.1
    have hadd : instrs g = (before ++ [x]) ++ y :: after := by
      rw [List.append_assoc]
      exact (DefUseBinding.instrs_create ..).trans (instrs_instrAdd hinstrs honly _)
    have honly' : OnlyAt (before ++ [x]) after y.ref := by
      constructor
      · intro l hl
        apply Nat.ne_of_lt (hfresh l _)
        rw [hinstrs]
        rcases List.mem_append.mp hl with hl | hl
        · exact List.mem_append_left _ hl
        · rw [List.mem_singleton.mp hl]
          exact List.mem_append_right _ List.mem_cons_self
      · intro l hl
        apply Nat.ne_of_lt (hfresh l _)
        rw [hinstrs]
        exact List.mem_append_right _ (List.mem_cons_of_mem x hl)
    have hfresh' : ∀ l ∈ instrs g, l.ref < g.nextRef := by
      intro l hl
      rw [hnext]
      rcases DefUseBinding.mem_instrs_create hl with rfl | hl
      · exact Nat.lt_succ_self _
      · exact Nat.lt_succ_of_lt (hfresh l hl)
    obtain ⟨new, hnew, hmap, hrefs⟩ := ih y hadd honly' hfresh'
    refine ⟨y :: new, ?_, ?_, ?_⟩
    · rw [List.foldl_cons]
      refine hnew.trans ?_
      rw [List.append_assoc]
      rfl
    · rw [List.map_cons, hmap]
      rfl
    · intro l hl
      rcases List.mem_cons.mp hl with rfl | hl
      · exact Nat.le_refl _
      · have hle := hrefs l hl
        rw [hnext] at hle
        exact Nat.le_of_succ_le hle

theorem AggregateLoad.offsets (h : AggregateLoad f depth before after ii fields type parts) :
    elementOffsets f depth ii.instr.rets.length type = .ok (parts.map Prod.fst) := by
  have hlength := congrArg List.length h.rets
  rw [List.length_map, List.length_map] at hlength
  have hparts := h.elements
  unfold partsOf at hparts
  unfold elementOffsets
  obtain ⟨it, hit, hparts⟩ := ProgramText.bind_ok.mp hparts
  rw [hit]
  cases it with
  | struct s =>
    cases hparts
    rw [List.length_map] at hlength
    change (if s.elements.length = _ then _ else _) = _
    rw [if_pos hlength.symm, List.map_map]
    rfl
  | array n e =>
    obtain ⟨esize, hsize, hparts⟩ := ProgramText.bind_ok.mp hparts
    cases hparts
    rw [List.length_map, List.length_range] at hlength
    change (TypeLayout.typeSizeof f.iu depth e >>= _) = _
    rw [hsize, hlength, List.map_map]
    change Except.ok ((List.flatMap (fun a : ℕ => [(a : ℤ)]) (List.range n)).map _) = _
    rw [← List.map_eq_flatMap, List.map_map]
    rfl
  | _ => cases hparts

theorem splitLoad_run (h : AggregateLoad f depth before after ii fields type parts) :
    ∃ f' ls, splitAggregatedLoad f depth ii = .ok f' ∧ instrs f' = before ++ ls ++ after
      ∧ ls.map Linked.instr
        = ((parts.map Prod.fst).zip ii.instr.rets).map (partialLoad fields) := by
  obtain ⟨loadType, hcls⟩ := h.cls
  have honly : OnlyAt before after ii.ref := onlyAt_of_nodup (h.place ▸ h.refs)
  obtain ⟨new, hnew, hmap, hrefs⟩ := partialLoads_run fields
    ((parts.map Prod.fst).zip ii.instr.rets) ii h.place honly h.fresh
  have hii : ii.ref < f.nextRef :=
    h.fresh ii (h.place ▸ List.mem_append_right _ List.mem_cons_self)
  have honly' : OnlyAt before (new ++ after) ii.ref := by
    refine ⟨honly.1, fun l hl => ?_⟩
    rcases List.mem_append.mp hl with hl | hl
    · exact Nat.ne_of_gt (Nat.lt_of_lt_of_le hii (hrefs l hl))
    · exact honly.2 l hl
  let loads := ((parts.map Prod.fst).zip ii.instr.rets).foldl (emitPartialLoad fields) (f, ii.ref)
  refine ⟨instrDestroy loads.1 ii.ref, new, ?_, ?_, hmap⟩
  · unfold splitAggregatedLoad
    simp only [hcls]
    rw [if_neg (Nat.not_lt.mpr h.several), h.pointee]
    simp only [ProgramText.ok_bind, h.offsets]
    rfl
  · rw [List.append_assoc]
    exact instrs_instrDestroy hnew honly'

def loadedType (i : Instr) : ℕ :=
  match i.rets with
  | [ret] => ret.type
  | _ => 0

theorem loadsLeaf_type {rets : List ValueType} {l : Leaf} {i : Instr}
    (h : LoadsLeaf fields rets l i) : loadedType i = l.type := by
  obtain ⟨k, ret, loadType, -, -, hrets, htype, -⟩ := h
  unfold loadedType
  rw [hrets]
  exact htype

theorem splitsLoad_iff (h : AggregateLoad f depth before after ii fields type parts) :
    SplitsLoad f depth before after ii fields type ↔ ∀ p ∈ parts, IsScalar f.iu p.2 := by
  obtain ⟨f', ls, hrun, hinstrs, hls⟩ := splitLoad_run h
  have hlength := congrArg List.length h.rets
  rw [List.length_map, List.length_map] at hlength
  have hget : ∀ (k : ℕ) (i : Instr), (ls.map Linked.instr)[k]? = some i →
      ∃ (p : ℤ × ℕ) (ret : ValueType), parts[k]? = some p
      ∧ ii.instr.rets[k]? = some ret ∧ ret.type = p.2 ∧ i = partialLoad fields (p.1, ret) := by
    intro k i hi
    rw [hls, List.getElem?_map] at hi
    obtain ⟨z, hz, rfl⟩ := Option.map_eq_some_iff.mp hi
    obtain ⟨hp, hret⟩ := List.getElem?_zip_eq_some.mp hz
    rw [List.getElem?_map] at hp
    obtain ⟨p, hp, hoffset⟩ := Option.map_eq_some_iff.mp hp
    have htypes := congrArg (fun types => types[k]?) h.rets
    simp only [List.getElem?_map, hret, hp, Option.map_some, Option.some.injEq] at htypes
    exact ⟨p, z.2, hp, hret, htypes, by rw [hoffset]⟩
  have hlen : (ls.map Linked.instr).length = parts.length := by
    rw [hls, List.length_map, List.length_zip, List.length_map]
    omega
  have hiff : Exact f.iu depth type (LoadsLeaf fields ii.instr.rets) (ls.map Linked.instr)
      ↔ ∀ p ∈ parts, IsScalar f.iu p.2 := by
    apply exact_iff loadedType h.elements (fun l i => loadsLeaf_type)
    · apply List.ext_getElem
      · rw [List.length_map, hlen, List.length_map]
      · intro k hk hk'
        rw [List.length_map loadedType] at hk
        rw [List.length_map Prod.snd] at hk'
        obtain ⟨p, ret, hp, hret, htype, hi⟩ := hget k _ (List.getElem?_eq_getElem hk)
        rw [List.getElem?_eq_getElem hk'] at hp
        rw [List.getElem_map loadedType, List.getElem_map Prod.snd, hi, Option.some.inj hp]
        exact htype
    · apply forall₂_of_getElem?
      · rw [length_flatLeaves, hlen]
      · intro k l i hl hi
        obtain ⟨p, ret, hp, hret, htype, rfl⟩ := hget k i hi
        rw [getElem?_flatLeaves, hp] at hl
        cases hl
        exact ⟨k, ret, 0, rfl, hret, rfl, htype, rfl⟩
  rw [← hiff]
  constructor
  · rintro ⟨f'', ls', hrun', hinstrs', hexact⟩
    rw [hrun] at hrun'
    cases hrun'
    rw [hinstrs, List.append_cancel_right_eq, List.append_cancel_left_eq] at hinstrs'
    rw [hinstrs']
    exact hexact
  · intro hexact
    exact ⟨f', ls, hrun, hinstrs, hexact⟩

theorem whole_not_split (h : WholeLoad f before after ii fields type) :
    ¬ SplitsLoad f depth before after ii fields type := by
  obtain ⟨loadType, hcls⟩ := h.cls
  obtain ⟨value, hrets⟩ := h.ret
  have hrun : splitAggregatedLoad f depth ii = .ok f := by
    unfold splitAggregatedLoad
    simp only [hcls]
    rw [hrets]
    rfl
  rintro ⟨f', ls, hrun', hinstrs, hexact⟩
  obtain rfl := Except.ok.inj (hrun.symm.trans hrun')
  have hls : [ii] = ls := by
    rw [h.place, ← List.singleton_append, ← List.append_assoc, List.append_cancel_right_eq,
      List.append_cancel_left_eq] at hinstrs
    exact hinstrs
  rw [← hls] at hexact
  obtain ⟨leaves, -, hmem, hall⟩ := hexact
  obtain ⟨l, hl, hloads⟩ := RelatedLists.forall₂_mem hall List.mem_cons_self
  obtain ⟨it, n, hit, hbytes⟩ := leafAt_isScalar ((hmem l).mp hl)
  have htype := loadsLeaf_type hloads
  unfold loadedType at htype
  rw [hrets] at htype
  rw [← htype] at hit
  rcases h.type with ⟨s, hs⟩ | ⟨n, e, harray⟩
  · obtain rfl := Option.some.inj (hs.symm.trans hit)
    cases hbytes
  · obtain rfl := Option.some.inj (harray.symm.trans hit)
    cases hbytes

end

/-! ## All of them -/

/-- The three functions split the aggregates that are structs of scalars: constants with an element,
temporaries with two. A load is split where it has several results, of an array, too. -/
theorem splits_iff (depth : ℕ) :
    (∀ (env : Env) (p : Pass) (l : Linked) (ptr value : ValueType) (immediateOffset : ℤ),
      ConstAggregate env p.iu value →
      (SplitsConst env depth p l ptr value immediateOffset ↔ FlatStruct p.iu 1 value.type))
    ∧ (∀ (f : Function) (before after : List Linked) (ii : Linked) (ptr value : ValueType)
      (immediateOffset : ℤ), TempStore f before after ii ptr value immediateOffset →
      (SplitsTemp f depth before after ptr value immediateOffset ↔ FlatStruct f.iu 2 value.type))
    ∧ (∀ (f : Function) (before after : List Linked) (ii : Linked) (fields : LoadFields) (type : ℕ)
      (parts : List (ℤ × ℕ)), AggregateLoad f depth before after ii fields type parts →
      (SplitsLoad f depth before after ii fields type ↔ ∀ p ∈ parts, IsScalar f.iu p.2))
    ∧ ∀ (f : Function) (before after : List Linked) (ii : Linked) (fields : LoadFields) (type : ℕ),
      WholeLoad f before after ii fields type →
      ¬ SplitsLoad f depth before after ii fields type :=
  ⟨fun _ _ _ _ _ _ h => splitsConst_iff h, fun _ _ _ _ _ _ _ h => splitsTemp_iff h,
    fun _ _ _ _ _ _ _ h => splitsLoad_iff h, fun _ _ _ _ _ _ h => whole_not_split h⟩

/-! ## A pair and an array -/

/-- A pair of an i32 and an i8, an array, pointers to both, and values of these types. -/
def pairUnit : IrUnit where
  types := [.int32, .int8, .struct ⟨[⟨0, 0⟩, ⟨1, 4⟩], 8, 4, false, none⟩, .array 2 0, .pointer (some 2),
    .pointer (some 3)]
  values := [⟨.temporary, 4⟩, ⟨.temporary, 5⟩, ⟨.zeroInitializer, 2⟩, ⟨.zeroInitializer, 3⟩,
    ⟨.temporary, 2⟩, ⟨.temporary, 0⟩, ⟨.temporary, 1⟩]
  textAlloc := fun _ => 0

def pairEnv : Env where
  functions := fun _ => ⟨0, 0⟩
  callargSize := 0
  data := fun _ => []
  depth := 2

def pairPass : Pass := ⟨pairUnit, [], 1, []⟩

def zeroStore (ptr value : ValueType) : Linked := ⟨0, ⟨[], .store ptr value 0⟩⟩

def tempStore : Linked := ⟨0, ⟨[], .store ⟨0, 4⟩ ⟨4, 2⟩ 12⟩⟩

def pairStore : Function :=
  ⟨pairUnit, [⟨0, [tempStore]⟩], [⟨4, 0, .input⟩], 1, [(4, [⟨5, 0⟩, ⟨6, 1⟩])]⟩

def pairFields : LoadFields := ⟨⟨0, 4⟩, 12, none, 0⟩

def pairLoads : Linked := ⟨0, ⟨[⟨5, 0⟩, ⟨6, 1⟩], .load ⟨0, 4⟩ 12 none 0 none 0⟩⟩

def pairLoad : Function := ⟨pairUnit, [⟨0, [pairLoads]⟩], [], 1, []⟩

def arrayLoads : Linked := ⟨0, ⟨[⟨7, 3⟩], .load ⟨1, 5⟩ 0 none 0 none 0⟩⟩

def arrayLoad : Function := ⟨pairUnit, [⟨0, [arrayLoads]⟩], [], 1, []⟩

theorem pairUnit_scalars : ∀ e ∈ [(⟨0, 0⟩ : StructElement), ⟨1, 4⟩], IsScalar pairUnit e.type :=
  List.forall_mem_cons.mpr ⟨⟨_, _, rfl, rfl⟩, List.forall_mem_singleton.mpr ⟨_, _, rfl, rfl⟩⟩

theorem pairUnit_flat (n : ℕ) (hn : n ≤ 2) : FlatStruct pairUnit n 2 :=
  ⟨_, rfl, hn, pairUnit_scalars⟩

theorem pairZero_aggregate : ConstAggregate pairEnv pairPass.iu ⟨2, 2⟩ :=
  ⟨⟨_, rfl, .inl rfl⟩, .inl ⟨_, rfl⟩⟩

theorem pairStore_temp : TempStore pairStore [] [] tempStore ⟨0, 4⟩ ⟨4, 2⟩ 12 where
  place := rfl
  refs := List.nodup_singleton _
  fresh := List.forall_mem_singleton.mpr Nat.zero_lt_one
  cls := rfl
  link := ⟨[], rfl⟩
  temporary := rfl
  type := .inl ⟨_, rfl⟩
  elements := by
    intro it hit
    cases hit
    rfl
  first := by
    intro s e hs he
    cases hs
    cases he
    rfl

theorem pairLoad_parts : [((0 : ℤ), 0), (4, 1)]
    = [(⟨0, 0⟩ : StructElement), ⟨1, 4⟩].map fun e => (e.offset.toInt, e.type) := rfl

theorem pairLoad_aggregate :
    AggregateLoad pairLoad 2 [] [] pairLoads pairFields 2 [(0, 0), (4, 1)] where
  place := rfl
  refs := List.nodup_singleton _
  fresh := List.forall_mem_singleton.mpr Nat.zero_lt_one
  cls := ⟨0, rfl⟩
  pointee := rfl
  elements := rfl
  rets := rfl
  several := Nat.le_refl 2

theorem arrayLoad_whole : WholeLoad arrayLoad [] [] arrayLoads ⟨⟨1, 5⟩, 0, none, 0⟩ 3 where
  place := rfl
  cls := ⟨0, rfl⟩
  ret := ⟨7, rfl⟩
  type := .inr ⟨2, 0, rfl⟩

/-- The zero initializer, the temporary and the load of the pair, and the load of an array. -/
theorem pair_splits : SplitsConst pairEnv 2 pairPass (zeroStore ⟨0, 4⟩ ⟨2, 2⟩) ⟨0, 4⟩ ⟨2, 2⟩ 0
    ∧ SplitsTemp pairStore 2 [] [] ⟨0, 4⟩ ⟨4, 2⟩ 12
    ∧ SplitsLoad pairLoad 2 [] [] pairLoads pairFields 2
    ∧ ¬ SplitsLoad arrayLoad 2 [] [] arrayLoads ⟨⟨1, 5⟩, 0, none, 0⟩ 3 := by
  obtain ⟨hconst, htemp, hload, hwhole⟩ := splits_iff 2
  refine ⟨?_, ?_, ?_, hwhole _ _ _ _ _ _ arrayLoad_whole⟩
  · exact (hconst _ _ _ _ _ _ pairZero_aggregate).mpr (pairUnit_flat 1 (by decide))
  · exact (htemp _ _ _ _ _ _ _ pairStore_temp).mpr (pairUnit_flat 2 (by decide))
  · apply (hload _ _ _ _ _ _ _ pairLoad_aggregate).mpr
    intro p hp
    obtain ⟨e, he, rfl⟩ := List.mem_map.mp (pairLoad_parts ▸ hp)
    exact pairUnit_scalars e he

/-- The zero initializer of the array is an aggregate constant, and its store is not split. -/
theorem arrayZero_not_split : ConstAggregate pairEnv pairPass.iu ⟨3, 3⟩
    ∧ splitConstStoreAggregate pairPass pairEnv (zeroStore ⟨1, 5⟩ ⟨3, 3⟩) ⟨1, 5⟩ ⟨3, 3⟩ 0
      = .error .nullDeref
    ∧ ¬ SplitsConst pairEnv 2 pairPass (zeroStore ⟨1, 5⟩ ⟨3, 3⟩) ⟨1, 5⟩ ⟨3, 3⟩ 0 := by
  have hrun : splitConstStoreAggregate pairPass pairEnv (zeroStore ⟨1, 5⟩ ⟨3, 3⟩) ⟨1, 5⟩ ⟨3, 3⟩ 0
      = .error .nullDeref := rfl
  refine ⟨⟨⟨_, rfl, .inl rfl⟩, .inr ⟨2, 0, rfl⟩⟩, hrun, ?_⟩
  rintro ⟨p', ls, hok, -⟩
  rw [hrun] at hok
  cases hok

end Vmir.AggregateSplit
