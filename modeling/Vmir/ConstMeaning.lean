import Vmir.ConstExprs

set_option autoImplicit false

/-!
# What constant expressions mean

The values of a graph of constant expressions from those of their operands, whatever the order in
which they stand in the table. A pointer type that the evaluation creates is named by what it points
to.
-/
namespace Vmir.ConstMeaning
open Ir IrTypes TypeLayout ConstExprs

inductive SemType
  | base (index : ℕ)
  | ptr (pointee : SemType)
deriving DecidableEq, Repr

inductive SemClass
  | constant (x : BitVec 32)
  | globalvar (addr : BitVec 32)
  | function (gfid : BitVec 32)
  | aliased
  | other
deriving DecidableEq, Repr

structure Sem where
  cls : SemClass
  type : SemType
deriving DecidableEq, Repr

def semClass : ValueClass → SemClass
  | .constant u64 => .constant (u64.setWidth 32)
  | .globalvar addr => .globalvar addr
  | .function gfid => .function gfid
  | .alias => .aliased
  | _ => .other

/-! ## Types -/

section
variable (iu : IrUnit)

def codeOf : SemType → Option TypeCode
  | .base i => iu.types[i]?.map IrType.code
  | .ptr _ => some .pointer

def sizeSem (depth : ℕ) : SemType → Option (BitVec 32)
  | .base i => (typeSizeof iu depth i).toOption
  | .ptr _ => some 4

def ptrTo : SemType → SemType
  | .base i =>
    match iu.types.findIdx? fun it => it = .pointer (some i) with
    | some j => .base j
    | none => .ptr (.base i)
  | .ptr s => .ptr (.ptr s)

/-! ## Expressions -/

def const32 (s : Sem) : Option (BitVec 32) := do
  let code ← codeOf iu s.type
  match s.cls with
  | .globalvar addr => some addr
  | .constant x =>
    match code with
    | .int1 => some (if x = 0 then 0 else 1)
    | .int8 | .int16 | .int32 | .pointer | .float => some x
    | .intx | .int64 | .double => some x
    | _ => none
  | _ => none

def castSem (tc : TypeCode) (op : Option CastOp) (src : Sem) (own : ℕ) : Option Sem :=
  match op with
  | some .inttoptr =>
    match src.cls with
    | .constant x => if tc = .pointer then some ⟨.constant x, .base own⟩ else none
    | _ => none
  | some .bitcast =>
    if tc = .pointer then
      match src.cls with
      | .globalvar _ | .constant _ => (const32 iu src).map fun x => ⟨.constant x, .base own⟩
      | .function gfid => some ⟨.function gfid, src.type⟩
      | _ => none
    else none
  | some .ptrtoint =>
    match src.cls with
    | .globalvar _ | .constant _ =>
      if tc = .int32 ∨ tc = .int8 then (const32 iu src).map fun x => ⟨.constant x, .base own⟩
      else none
    | .function gfid => if tc = .int32 then some ⟨.constant gfid, .base own⟩ else none
    | _ => none
  | _ => none

/-- An operation on two constants, for the types with `codes`. -/
def operandsSem (own type : ℕ) (codes : List TypeCode)
    (fold : BitVec 32 → BitVec 32 → Except Fault (BitVec 32)) (l r : Sem) : Option Sem := do
  let code ← codeOf iu (.base type)
  if code ∈ codes then do
    let l ← const32 iu l
    let r ← const32 iu r
    let x ← (fold l r).toOption
    some ⟨.constant x, .base own⟩
  else none

def stepSem (depth : ℕ) (loc : BitVec 32 × SemType) (x : BitVec 32) :
    Option (BitVec 32 × SemType) :=
  match loc.2 with
  | .ptr s => (sizeSem iu depth s).map fun size => (loc.1 + x * size, s)
  | .base i =>
    match iu.types[i]? with
    | some (.pointer (some p)) =>
      (sizeSem iu depth (.base p)).map fun size => (loc.1 + x * size, .base p)
    | some (.struct s) =>
      if x.msb then none else s.elements[x.toNat]?.map fun e => (loc.1 + e.offset, .base e.type)
    | some (.array _ e) =>
      (sizeSem iu depth (.base e)).map fun size => (loc.1 + x * size, .base e)
    | _ => none

/-- The indices, with the meanings of the values. -/
def indexSem (depth : ℕ) (means : ℕ → Option Sem) (loc : BitVec 32 × SemType) (index : ℕ) :
    Option (BitVec 32 × SemType) := do
  let s ← means index
  let x ← const32 iu s
  stepSem iu depth loc x

variable (P : Pool)

def aliasTarget (index : ℕ) : Option ℕ :=
  if iu.values[index]?.map Value.cls = some .alias then some (P.aliasReg index) else none

def dealiasSem (means : ℕ → Option Sem) (index : ℕ) (s : Sem) : Option Sem :=
  match aliasTarget iu P index with
  | some target => means target
  | none => some s

def exprSem (means : ℕ → Option Sem) (own : ℕ) : IrConstexpr → Option Sem
  | .cast op src => do
    let tc ← codeOf iu (.base own)
    let s ← means src
    let s ← dealiasSem iu P means src s
    castSem iu tc op s own
  | .binop op lhs rhs => do
    let l ← means lhs
    let r ← means rhs
    operandsSem iu own own [.int8, .int32, .pointer] (foldBinop op) l r
  | .cmp opty lhs rhs pred => do
    let l ← means lhs
    let r ← means rhs
    operandsSem iu own opty [.int32, .pointer] (foldCmp pred) l r
  | .gep [] => none
  | .gep (base :: indices) => do
    let s ← means base
    let addr ← const32 iu s
    let g ← indices.foldlM (indexSem iu P.depth means) (addr, s.type)
    some ⟨.constant g.1, ptrTo iu g.2⟩

def valueSem (means : ℕ → Option Sem) (i : ℕ) : Option Sem := do
  let iv ← iu.values[i]?
  if iv.cls = .ce then exprSem iu P means iv.type (P.ce i) else some ⟨semClass iv.cls, .base iv.type⟩

/-- The bottom-up evaluation, of graphs that are not deeper than `fuel`. -/
def meaning : ℕ → ℕ → Option Sem
  | 0, _ => none
  | fuel + 1, i => valueSem iu P (meaning fuel) i

/-! ## Graphs -/

def IsExpr (i : ℕ) : Prop := ∃ iv, iu.values[i]? = some iv ∧ iv.cls = .ce

instance (i : ℕ) : Decidable (IsExpr iu i) :=
  match h : iu.values[i]? with
  | none => isFalse fun ⟨_, hv, _⟩ => nomatch h.symm.trans hv
  | some iv =>
    if hc : iv.cls = .ce then isTrue ⟨iv, h, hc⟩
    else isFalse fun ⟨_, hv, hc'⟩ => hc (Option.some.inj (h.symm.trans hv) ▸ hc')

def operands : IrConstexpr → List ℕ
  | .cast _ src => src :: (aliasTarget iu P src).toList
  | .binop _ lhs rhs => [lhs, rhs]
  | .cmp _ lhs rhs _ => [lhs, rhs]
  | .gep values => values

def typeRefs : IrType → List ℕ
  | .pointer (some p) => [p]
  | .struct s => s.elements.map StructElement.type
  | .array _ e => [e]
  | _ => []

/-- A graph of constant expressions: all types are in the table, and no expression is an operand of
itself, directly or not. -/
structure Graph (rank : ℕ → ℕ) : Prop where
  types : ∀ it ∈ iu.types, ∀ t ∈ typeRefs it, t < iu.types.length
  valueTypes : ∀ iv ∈ iu.values, iv.type < iu.types.length
  compareTypes : ∀ i opty lhs rhs pred, P.ce i = .cmp opty lhs rhs pred → opty < iu.types.length
  acyclic : ∀ i, IsExpr iu i → ∀ v ∈ operands iu P (P.ce i), rank v < rank i

/-- The operand that is evaluated for its user: the source of a cast and the base of a GEP. -/
def inner (i : ℕ) : Option ℕ :=
  if IsExpr iu i then
    match P.ce i with
    | .cast _ src => if IsExpr iu src then some src else none
    | .gep (base :: _) => if IsExpr iu base then some base else none
    | _ => none
  else none

def plain (i : ℕ) : List ℕ :=
  if IsExpr iu i then
    match P.ce i with
    | .cast _ src => (aliasTarget iu P src).toList.filter fun v => IsExpr iu v
    | .binop _ lhs rhs => [lhs, rhs].filter fun v => IsExpr iu v
    | .cmp _ lhs rhs _ => [lhs, rhs].filter fun v => IsExpr iu v
    | .gep values => values.tail.filter fun v => IsExpr iu v
  else []

end

variable {iu : IrUnit} {P : Pool} {rank : ℕ → ℕ}

theorem foldlM_congr_mem {α β : Type} {f g : β → α → Option β} {xs : List α}
    (h : ∀ x ∈ xs, ∀ b, f b x = g b x) (b : β) : xs.foldlM f b = xs.foldlM g b := by
  induction xs generalizing b with
  | nil => rfl
  | cons x xs ih =>
    rw [List.foldlM_cons, List.foldlM_cons, h x List.mem_cons_self b]
    exact bind_congr fun c => ih (fun y hy => h y (List.mem_cons_of_mem _ hy)) c

theorem exprSem_congr {f g : ℕ → Option Sem} {own : ℕ} {ic : IrConstexpr}
    (h : ∀ v ∈ operands iu P ic, f v = g v) : exprSem iu P f own ic = exprSem iu P g own ic := by
  cases ic with
  | cast op src =>
    rw [exprSem, exprSem, h src List.mem_cons_self]
    refine bind_congr fun tc => bind_congr fun s => ?_
    have htarget (t : ℕ) (ht : aliasTarget iu P src = some t) : f t = g t :=
      h t (List.mem_cons_of_mem _ (by rw [ht]; exact List.mem_singleton_self t))
    unfold dealiasSem
    cases hal : aliasTarget iu P src with
    | none => rfl
    | some t => exact congrArg (· >>= _) (htarget t hal)
  | binop op lhs rhs =>
    rw [exprSem, exprSem, h lhs List.mem_cons_self,
      h rhs (List.mem_cons_of_mem _ List.mem_cons_self)]
  | cmp opty lhs rhs pred =>
    rw [exprSem, exprSem, h lhs List.mem_cons_self,
      h rhs (List.mem_cons_of_mem _ List.mem_cons_self)]
  | gep values =>
    cases values with
    | nil => rfl
    | cons base indices =>
      rw [exprSem, exprSem, h base List.mem_cons_self]
      refine bind_congr fun s => bind_congr fun addr => ?_
      rw [foldlM_congr_mem fun index hindex loc => ?_]
      unfold indexSem
      rw [h index (List.mem_cons_of_mem _ hindex)]

theorem meaning_succ (hg : Graph iu P rank) {k l i : ℕ} (hk : rank i < k) (hl : rank i < l) :
    meaning iu P k i = meaning iu P l i := by
  induction k generalizing l i with
  | zero => exact absurd hk (Nat.not_lt_zero _)
  | succ k ih =>
    cases l with
    | zero => exact absurd hl (Nat.not_lt_zero _)
    | succ l =>
      change valueSem iu P (meaning iu P k) i = valueSem iu P (meaning iu P l) i
      unfold valueSem
      cases hiv : iu.values[i]? with
      | none => rfl
      | some iv =>
        change (if _ then _ else _) = (if _ then _ else _)
        by_cases hce : iv.cls = .ce
        · rw [if_pos hce, if_pos hce]
          refine exprSem_congr fun v hv => ?_
          have hlt := hg.acyclic i ⟨iv, hiv, hce⟩ v hv
          exact ih (by omega) (by omega)
        · rw [if_neg hce, if_neg hce]

theorem meaning_eq (hg : Graph iu P rank) {fuel : ℕ} (hfuel : ∀ i, rank i < fuel) (i : ℕ) :
    meaning iu P fuel i = valueSem iu P (meaning iu P fuel) i := by
  rw [meaning_succ hg (hfuel i) (Nat.lt_succ_of_lt (hfuel i))]
  rfl

end Vmir.ConstMeaning
