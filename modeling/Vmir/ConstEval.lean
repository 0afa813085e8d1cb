import Vmir.ConstMeaning

set_option autoImplicit false

/-!
# The pieces of the evaluation

What the evaluation of a constant expression computes from operands that have their meanings, while
the type table gets longer.
-/
namespace Vmir.ConstEval
open Ir IrTypes TypeLayout ConstExprs ConstMeaning

/-! ## Results of the code and of the meaning -/

/-- Both fail, or both succeed with related results. -/
def Agrees {α β : Type} (R : α → β → Prop) (x : Except Fault α) (y : Option β) : Prop :=
  match x, y with
  | .ok a, some b => R a b
  | .error _, none => True
  | _, _ => False

section
variable {α α' β β' : Type} {R : α → β → Prop} {S : α' → β' → Prop} {x : Except Fault α}
  {y : Option β} {f : α → Except Fault α'} {g : β → Option β'}

theorem Agrees.bind_of (h : Agrees R x y)
    (hf : ∀ a b, x = .ok a → R a b → Agrees S (f a) (g b)) : Agrees S (x >>= f) (y >>= g) := by
  cases x with
  | error e =>
    cases y with
    | none => trivial
    | some b => exact h.elim
  | ok a =>
    cases y with
    | none => exact h.elim
    | some b => exact hf a b rfl h

theorem Agrees.bind (h : Agrees R x y) (hf : ∀ a b, R a b → Agrees S (f a) (g b)) :
    Agrees S (x >>= f) (y >>= g) :=
  h.bind_of fun a b _ => hf a b

theorem Agrees.map {k : β → β'} (h : Agrees R x y) (hf : ∀ a b, R a b → Agrees S (f a) (some (k b))) :
    Agrees S (x >>= f) (y.map k) := by
  cases x with
  | error e =>
    cases y with
    | none => trivial
    | some b => exact h.elim
  | ok a =>
    cases y with
    | none => exact h.elim
    | some b => exact hf a b h

theorem ok_bind (a : α) (f : α → Except Fault α') : ((.ok a : Except Fault α) >>= f) = f a := rfl

theorem agrees_toOption (x : Except Fault α) : Agrees (· = ·) x x.toOption := by
  cases x with
  | error e => trivial
  | ok a => rfl

theorem toOption_bind {x : Except Fault α} {f : α → Except Fault α'} :
    (x >>= f).toOption = x.toOption >>= fun a => (f a).toOption := by
  cases x <;> rfl

theorem unsizedError_none (iu : IrUnit) (it : IrType) (msg : String) :
    (unsizedError iu it msg).toOption = none := by
  cases h : unsizedError iu it msg with
  | error f => rfl
  | ok size => exact absurd h (unsizedError_ne_ok iu it msg size)

theorem Agrees.foldlM {γ : Type} {f : α → γ → Except Fault α} {g : β → γ → Option β}
    {xs : List γ} (hf : ∀ c ∈ xs, ∀ a b, R a b → Agrees R (f a c) (g b c)) {a : α} {b : β}
    (h : R a b) : Agrees R (xs.foldlM f a) (xs.foldlM g b) := by
  induction xs generalizing a b with
  | nil => exact h
  | cons c xs ih =>
    rw [List.foldlM_cons, List.foldlM_cons]
    exact (hf c List.mem_cons_self a b h).bind fun a' b' h' =>
      ih (fun d hd => hf d (List.mem_cons_of_mem _ hd)) h'

end

/-! ## Types -/

/-- The type of an index into the table `T`, which `T0` became. -/
inductive Denotes (T0 T : List IrType) : ℕ → SemType → Prop
  | base {i : ℕ} (hi : i < T0.length) : Denotes T0 T i (.base i)
  | ptr {i p : ℕ} {s : SemType} (hi : T0.length ≤ i) (h : T[i]? = some (.pointer (some p)))
      (hp : Denotes T0 T p s) : Denotes T0 T i (.ptr s)

theorem prefix_get {T0 T : List IrType} (h : T0 <+: T) {i : ℕ} (hi : i < T0.length) :
    T[i]? = T0[i]? := by
  obtain ⟨extra, rfl⟩ := h
  exact List.getElem?_append_left hi

theorem Denotes.mono {T0 T T' : List IrType} (h : T <+: T') {i : ℕ} {s : SemType}
    (hd : Denotes T0 T i s) : Denotes T0 T' i s := by
  induction hd with
  | base hi => exact Denotes.base hi
  | @ptr i p s hi hget _ ih =>
    have hlt : i < T.length := (List.getElem?_eq_some_iff.mp hget).1
    exact Denotes.ptr hi ((prefix_get h hlt).trans hget) ih

section
variable {iu0 iu : IrUnit} (hT : iu0.types <+: iu.types)
include hT

theorem typeGet_eq {i : ℕ} (hi : i < iu0.types.length) : typeGet iu i = typeGet iu0 i := by
  unfold typeGet
  rw [prefix_get hT hi]

theorem typeGet_code {i : ℕ} {s : SemType} (h : Denotes iu0.types iu.types i s) :
    ∃ it, typeGet iu i = .ok it ∧ codeOf iu0 s = some it.code := by
  cases h with
  | base hi =>
    refine ⟨iu0.types.get ⟨i, hi⟩, ?_, ?_⟩
    · rw [typeGet_eq hT hi]
      unfold typeGet
      rw [List.getElem?_eq_getElem hi]
      rfl
    · rw [codeOf, List.getElem?_eq_getElem hi]
      rfl
  | @ptr _ p _ hi hget hp =>
    refine ⟨.pointer (some p), ?_, rfl⟩
    unfold typeGet
    rw [hget]

theorem typeSizeofPtr_eq (hclosed : ∀ it ∈ iu0.types, ∀ t ∈ typeRefs it, t < iu0.types.length)
    (depth : ℕ) {it : IrType} (hit : ∀ t ∈ typeRefs it, t < iu0.types.length) :
    (typeSizeofPtr iu depth it).toOption = (typeSizeofPtr iu0 depth it).toOption := by
  induction depth generalizing it with
  | zero =>
    cases it with
    | function v r ps => exact (unsizedError_none _ _ _).trans (unsizedError_none _ _ _).symm
    | _ => rfl
  | succ depth ih =>
    cases it with
    | array n e =>
      have he := hit e (List.mem_singleton_self e)
      change (typeGet iu e >>= _).toOption = (typeGet iu0 e >>= _).toOption
      rw [typeGet_eq hT he]
      unfold typeGet
      rw [List.getElem?_eq_getElem he]
      have hsize := ih (hclosed _ (List.getElem_mem he))
      change (typeSizeofPtr iu depth _ >>= _).toOption = (typeSizeofPtr iu0 depth _ >>= _).toOption
      rw [toOption_bind, toOption_bind, hsize]
    | function v r ps => exact (unsizedError_none _ _ _).trans (unsizedError_none _ _ _).symm
    | _ => rfl

theorem agrees_sizeSem (hclosed : ∀ it ∈ iu0.types, ∀ t ∈ typeRefs it, t < iu0.types.length)
    (depth : ℕ) {i : ℕ} {s : SemType} (h : Denotes iu0.types iu.types i s) :
    Agrees (· = ·) (typeSizeof iu depth i) (sizeSem iu0 depth s) := by
  cases h with
  | base hi =>
    have heq : (typeSizeof iu depth i).toOption = (typeSizeof iu0 depth i).toOption := by
      unfold typeSizeof
      rw [typeGet_eq hT hi]
      unfold typeGet
      rw [List.getElem?_eq_getElem hi]
      exact typeSizeofPtr_eq hT hclosed depth (hclosed _ (List.getElem_mem hi))
    rw [sizeSem, ← heq]
    exact agrees_toOption _
  | ptr hi hget hp =>
    have hsize : typeSizeof iu depth i = .ok 4 := by
      unfold typeSizeof typeGet
      rw [hget]
      cases depth <;> rfl
    rw [hsize]
    exact rfl

theorem makePointer_denotes
    (hclosed : ∀ it ∈ iu0.types, ∀ t ∈ typeRefs it, t < iu0.types.length) {p : ℕ} {s : SemType}
    (h : Denotes iu0.types iu.types p s) :
    iu.types <+: (makePointer iu p).1.types ∧ (makePointer iu p).1.values = iu.values
      ∧ Denotes iu0.types (makePointer iu p).1.types (makePointer iu p).2 (ptrTo iu0 s) := by
  obtain ⟨extra, hextra⟩ := hT
  -- A pointer to `p` in the first table says that `p` is in it.
  have hinside {j : ℕ} (hj : iu0.types.findIdx? (fun it => it = .pointer (some p)) = some j) :
      j < iu0.types.length ∧ s = .base p := by
    obtain ⟨hlt, hit, -⟩ := List.findIdx?_eq_some_iff_getElem.mp hj
    have hp : p < iu0.types.length := by
      refine hclosed _ (List.getElem_mem hlt) p ?_
      rw [of_decide_eq_true hit]
      exact List.mem_singleton_self p
    refine ⟨hlt, ?_⟩
    cases h with
    | base _ => rfl
    | ptr hi _ _ => exact absurd hp (Nat.not_lt.mpr hi)
  have hptr (hnone : iu0.types.findIdx? (fun it => it = .pointer (some p)) = none) :
      ptrTo iu0 s = .ptr s := by
    cases h with
    | base _ =>
      rw [ptrTo, hnone]
    | ptr _ _ _ => rfl
  unfold makePointer
  cases hfind : iu.types.findIdx? (fun it => it = .pointer (some p)) with
  | some i =>
    refine ⟨List.prefix_refl _, rfl, ?_⟩
    obtain ⟨hlt, hit, -⟩ := List.findIdx?_eq_some_iff_getElem.mp hfind
    rw [← hextra, List.findIdx?_append] at hfind
    cases hbase : iu0.types.findIdx? (fun it => it = .pointer (some p)) with
    | some j =>
      rw [hbase] at hfind
      obtain rfl := Option.some.inj hfind
      obtain ⟨hj, rfl⟩ := hinside hbase
      have hto : ptrTo iu0 (.base p) = .base j := by
        rw [ptrTo, hbase]
      rw [hto]
      exact Denotes.base hj
    | none =>
      rw [hbase, Option.none_or] at hfind
      obtain ⟨k, -, rfl⟩ := Option.map_eq_some_iff.mp hfind
      rw [hptr hbase]
      refine Denotes.ptr (Nat.le_add_left _ _) ?_ h
      rw [List.getElem?_eq_getElem hlt, of_decide_eq_true hit]
  | none =>
    have hbase : iu0.types.findIdx? (fun it => it = .pointer (some p)) = none := by
      rw [← hextra, List.findIdx?_append, Option.or_eq_none_iff] at hfind
      exact hfind.1
    refine ⟨List.prefix_append _ _, rfl, ?_⟩
    rw [hptr hbase]
    refine Denotes.ptr ?_ List.getElem?_concat_length (h.mono (List.prefix_append _ _))
    change iu0.types.length ≤ iu.types.length
    rw [← hextra, List.length_append]
    exact Nat.le_add_right _ _

end

/-! ## Values -/

structure Rel (T0 T : List IrType) (v : Value) (s : Sem) : Prop where
  cls : semClass v.cls = s.cls
  evaluated : v.cls ≠ .ce
  type : Denotes T0 T v.type s.type

theorem Rel.mono {T0 T T' : List IrType} (h : T <+: T') {v : Value} {s : Sem} (hr : Rel T0 T v s) :
    Rel T0 T' v s := ⟨hr.cls, hr.evaluated, hr.type.mono h⟩

section
variable {iu0 iu : IrUnit} (hT : iu0.types <+: iu.types)
include hT

theorem agrees_const32 {v : Value} {s : Sem} (h : Rel iu0.types iu.types v s) :
    Agrees (· = ·) (valueGetConst32 iu v) (const32 iu0 s) := by
  obtain ⟨it, hit, hcode⟩ := typeGet_code hT h.type
  have hcls := h.cls
  unfold valueGetConst32 const32
  rw [hit, hcode, ← hcls, ok_bind, Option.bind_eq_bind, Option.bind_some]
  cases v.cls with
  | globalvar addr => exact rfl
  | constant u64 =>
    dsimp only [semClass]
    cases it.code <;> first | exact rfl | exact True.intro
  | _ => exact True.intro

theorem agrees_gepStep (hclosed : ∀ it ∈ iu0.types, ∀ t ∈ typeRefs it, t < iu0.types.length)
    (depth : ℕ) {g : GepLoop} {loc : BitVec 32 × SemType} (x : BitVec 32) (haddr : g.addr = loc.1)
    (htype : Denotes iu0.types iu.types g.typeIndex loc.2) :
    Agrees (fun g loc => g.addr = loc.1 ∧ Denotes iu0.types iu.types g.typeIndex loc.2)
      (gepStep iu depth g x) (stepSem iu0 depth loc x) := by
  obtain ⟨addr, t⟩ := loc
  obtain ⟨addr', i⟩ := g
  obtain rfl : addr' = addr := haddr
  -- A step over elements of the type `e`.
  have hstride {e : ℕ} {s : SemType} (he : Denotes iu0.types iu.types e s) :
      Agrees (fun g loc => g.addr = loc.1 ∧ Denotes iu0.types iu.types g.typeIndex loc.2)
        (typeSizeof iu depth e >>= fun size => (.ok ⟨addr' + x * size, e⟩ : Except Fault GepLoop))
        ((sizeSem iu0 depth s).map fun size => (addr' + x * size, s)) :=
    (agrees_sizeSem hT hclosed depth he).map fun a b hab => ⟨congrArg (addr' + x * ·) hab, he⟩
  cases htype with
  | @ptr _ p s hi hget hp =>
    have hok : typeGet iu i = .ok (.pointer (some p)) := by
      unfold typeGet
      rw [hget]
    unfold gepStep stepSem
    rw [hok]
    exact hstride hp
  | base hi =>
    have hok : typeGet iu i = .ok (iu0.types.get ⟨i, hi⟩) := by
      rw [typeGet_eq hT hi]
      unfold typeGet
      rw [List.getElem?_eq_getElem hi]
      rfl
    have hrefs : ∀ t ∈ typeRefs (iu0.types.get ⟨i, hi⟩), t < iu0.types.length :=
      hclosed _ (List.get_mem ..)
    have hsome : iu0.types[i]? = some (iu0.types.get ⟨i, hi⟩) := List.getElem?_eq_getElem hi
    unfold gepStep stepSem
    dsimp only
    rw [hok, hsome]
    cases hit : iu0.types.get ⟨i, hi⟩ with
    | pointer pointee =>
      cases pointee with
      | none => exact True.intro
      | some p =>
        rw [hit] at hrefs
        exact hstride (Denotes.base (hrefs p (List.mem_singleton_self p)))
    | struct st =>
      rw [hit] at hrefs
      rw [ok_bind]
      dsimp only
      by_cases hneg : x.msb = true
      · rw [if_pos hneg, if_pos hneg]
        exact True.intro
      · rw [if_neg hneg, if_neg hneg]
        cases he : st.elements[x.toNat]? with
        | none => exact True.intro
        | some e =>
          exact ⟨rfl, Denotes.base (hrefs e.type
            (List.mem_map_of_mem (List.mem_of_getElem? he)))⟩
    | array n e =>
      rw [hit] at hrefs
      exact hstride (Denotes.base (hrefs e (List.mem_singleton_self e)))
    | _ => exact True.intro

/-- What becomes of a cast with the type `own` and the source `s`. -/
def CastRel (own : ℕ) (s : Sem) (r : CastResult) (t : Sem) : Prop :=
  match r with
  | .u32 x => t = ⟨.constant x, .base own⟩
  | .function gfid => t = ⟨.function gfid, s.type⟩

theorem agrees_foldCast {tc : TypeCode} {op : Option CastOp} {src : Value} {s : Sem} {own : ℕ}
    (h : Rel iu0.types iu.types src s) :
    Agrees (CastRel own s) (foldCast iu tc op src) (castSem iu0 tc op s own) := by
  have hread : Agrees (CastRel own s)
      (valueGetConst32 iu src >>= fun x => (.ok (.u32 x) : Except Fault CastResult))
      ((const32 iu0 s).map fun x => ⟨.constant x, .base own⟩) :=
    (agrees_const32 hT h).map fun a b hab =>
      congrArg (fun x => (⟨.constant x, .base own⟩ : Sem)) hab.symm
  have hcls := h.cls
  clear h
  obtain ⟨cls, type⟩ := src
  obtain ⟨scls, stype⟩ := s
  obtain rfl : semClass cls = scls := hcls
  unfold foldCast castSem
  cases op with
  | none => exact True.intro
  | some op =>
    cases op with
    | inttoptr =>
      cases cls with
      | constant u64 =>
        change Agrees _ (if _ then _ else _) (if _ then _ else _)
        split
        · exact rfl
        · exact True.intro
      | _ => exact True.intro
    | bitcast =>
      dsimp only
      split
      · cases cls with
        | constant u64 => exact hread
        | globalvar addr => exact hread
        | function gfid => exact rfl
        | _ => exact True.intro
      · exact True.intro
    | ptrtoint =>
      cases cls with
      | constant u64 =>
        change Agrees _ (if _ then _ else _) (if _ then _ else _)
        split
        · exact hread
        · exact True.intro
      | globalvar addr =>
        change Agrees _ (if _ then _ else _) (if _ then _ else _)
        split
        · exact hread
        · exact True.intro
      | function gfid =>
        change Agrees _ (if _ then _ else _) (if _ then _ else _)
        split
        · exact rfl
        · exact True.intro
      | _ => exact True.intro
    | _ => exact True.intro

end

end Vmir.ConstEval
