import Mathlib.Logic.Equiv.Basic
import Vmir.ConstOrder

set_option autoImplicit false

/-!
# Numberings of a graph

One graph of constant expressions in two tables. The meanings are the same; whether the evaluation
comes to them depends on the numbers of the operands that are not evaluated for their users.
-/
namespace Vmir.ConstNumbering
open Ir IrTypes TypeLayout ConstExprs ConstMeaning ConstEval ConstOrder DemandOrder

def mapOperands (π : ℕ → ℕ) : IrConstexpr → IrConstexpr
  | .cast op src => .cast op (π src)
  | .gep values => .gep (values.map π)
  | .binop op lhs rhs => .binop op (π lhs) (π rhs)
  | .cmp opty lhs rhs pred => .cmp opty (π lhs) (π rhs) pred

/-- The value with the number `i` in the first table has the number `π i` in the second. -/
structure Renumbered (π : ℕ ≃ ℕ) (P : Pool) (iu : IrUnit) (P' : Pool) (iu' : IrUnit) : Prop where
  types : iu'.types = iu.types
  length : iu'.values.length = iu.values.length
  values : ∀ i, iu'.values[π i]? = iu.values[i]?
  ce : ∀ i, P'.ce (π i) = mapOperands π (P.ce i)
  aliasReg : ∀ i, P'.aliasReg (π i) = π (P.aliasReg i)
  depth : P'.depth = P.depth

/-- A table with all types, in which operands come before their users. -/
structure Ordered (P : Pool) (iu : IrUnit) : Prop where
  types : ∀ it ∈ iu.types, ∀ t ∈ typeRefs it, t < iu.types.length
  valueTypes : ∀ iv ∈ iu.values, iv.type < iu.types.length
  compareTypes : ∀ i opty lhs rhs pred, P.ce i = .cmp opty lhs rhs pred → opty < iu.types.length
  before : ∀ i, IsExpr iu i → ∀ v ∈ operands iu P (P.ce i), v < i

variable {P P' : Pool} {iu iu' : IrUnit} {π : ℕ ≃ ℕ} {rank : ℕ → ℕ} {fuel : ℕ}

/-! ## Meanings -/

section
variable (htypes : iu'.types = iu.types)
  (hclosed : ∀ it ∈ iu.types, ∀ t ∈ typeRefs it, t < iu.types.length)
include htypes

theorem codeOf_renumbered : codeOf iu' = codeOf iu := by
  funext s
  cases s with
  | base i => rw [codeOf, codeOf, htypes]
  | ptr s => rfl

theorem ptrTo_renumbered : ptrTo iu' = ptrTo iu := by
  funext s
  cases s with
  | base i => rw [ptrTo, ptrTo, htypes]
  | ptr s => rfl

theorem const32_renumbered : const32 iu' = const32 iu := by
  funext s
  unfold const32
  rw [codeOf_renumbered htypes]

theorem castSem_renumbered : castSem iu' = castSem iu := by
  funext tc op src own
  unfold castSem
  rw [const32_renumbered htypes]

theorem operandsSem_renumbered : operandsSem iu' = operandsSem iu := by
  funext own type codes fold l r
  unfold operandsSem
  rw [const32_renumbered htypes, codeOf_renumbered htypes]

include hclosed

theorem sizeSem_renumbered (depth : ℕ) : sizeSem iu' depth = sizeSem iu depth := by
  funext s
  cases s with
  | base i =>
    have hprefix : iu.types <+: iu'.types := htypes ▸ List.prefix_refl _
    rw [sizeSem, sizeSem]
    unfold typeSizeof typeGet
    rw [htypes]
    cases hit : iu.types[i]? with
    | none => rfl
    | some it =>
      exact typeSizeofPtr_eq hprefix hclosed depth (hclosed it (List.mem_of_getElem? hit))
  | ptr s => rfl

theorem stepSem_renumbered (depth : ℕ) : stepSem iu' depth = stepSem iu depth := by
  funext loc x
  unfold stepSem
  rw [sizeSem_renumbered htypes hclosed, htypes]

end

theorem aliasTarget_renumbered (h : Renumbered π P iu P' iu') (v : ℕ) :
    aliasTarget iu' P' (π v) = (aliasTarget iu P v).map π := by
  unfold aliasTarget
  rw [h.values, h.aliasReg]
  split
  · rfl
  · rfl

theorem exprSem_renumbered (h : Renumbered π P iu P' iu')
    (hclosed : ∀ it ∈ iu.types, ∀ t ∈ typeRefs it, t < iu.types.length)
    {means means' : ℕ → Option Sem} (hmeans : ∀ v, means' (π v) = means v) (own : ℕ)
    (ic : IrConstexpr) :
    exprSem iu' P' means' own (mapOperands π ic) = exprSem iu P means own ic := by
  cases ic with
  | cast op src =>
    rw [mapOperands, exprSem, exprSem, codeOf_renumbered h.types, hmeans,
      castSem_renumbered h.types]
    refine bind_congr fun tc => bind_congr fun s => ?_
    unfold dealiasSem
    rw [aliasTarget_renumbered h]
    cases aliasTarget iu P src with
    | none => rfl
    | some t => exact congrArg (· >>= _) (hmeans t)
  | binop op lhs rhs =>
    rw [mapOperands, exprSem, exprSem, hmeans, hmeans, operandsSem_renumbered h.types]
  | cmp opty lhs rhs pred =>
    rw [mapOperands, exprSem, exprSem, hmeans, hmeans, operandsSem_renumbered h.types]
  | gep values =>
    cases values with
    | nil => rfl
    | cons base indices =>
      have hindex : (fun loc index => indexSem iu' P'.depth means' loc (π index))
          = indexSem iu P.depth means := by
        funext loc index
        unfold indexSem
        rw [hmeans, const32_renumbered h.types, stepSem_renumbered h.types hclosed, h.depth]
      rw [mapOperands, List.map_cons, exprSem, exprSem, hmeans, const32_renumbered h.types,
        ptrTo_renumbered h.types]
      refine bind_congr fun s => bind_congr fun addr => ?_
      rw [List.foldlM_map, hindex]

theorem meaning_renumbered (h : Renumbered π P iu P' iu')
    (hclosed : ∀ it ∈ iu.types, ∀ t ∈ typeRefs it, t < iu.types.length) (i : ℕ) :
    meaning iu' P' fuel (π i) = meaning iu P fuel i := by
  induction fuel generalizing i with
  | zero => rfl
  | succ fuel ih =>
    change valueSem iu' P' (meaning iu' P' fuel) (π i) = valueSem iu P (meaning iu P fuel) i
    unfold valueSem
    rw [h.values]
    refine bind_congr fun iv => ?_
    split
    · rw [h.ce]
      exact exprSem_renumbered h hclosed ih iv.type (P.ce i)
    · rfl

/-! ## Graphs -/

theorem isExpr_renumbered (h : Renumbered π P iu P' iu') (i : ℕ) :
    IsExpr iu' (π i) ↔ IsExpr iu i := by
  unfold IsExpr
  rw [h.values]

theorem operands_renumbered (h : Renumbered π P iu P' iu') (ic : IrConstexpr) :
    operands iu' P' (mapOperands π ic) = (operands iu P ic).map π := by
  cases ic with
  | cast op src =>
    rw [mapOperands, operands, operands, aliasTarget_renumbered h]
    cases aliasTarget iu P src with
    | none => rfl
    | some t => rfl
  | binop op lhs rhs => rfl
  | cmp opty lhs rhs pred => rfl
  | gep values => rfl

theorem graph_renumbered (h : Renumbered π P iu P' iu') (hg : Graph iu P rank) :
    Graph iu' P' (rank ∘ π.symm) := by
  refine ⟨?_, fun iv hiv => ?_, fun i opty lhs rhs pred hce => ?_, fun i hi v hv => ?_⟩
  · rw [h.types]
    exact hg.types
  · obtain ⟨i, hi⟩ := List.mem_iff_getElem?.mp hiv
    rw [← π.apply_symm_apply i, h.values] at hi
    rw [h.types]
    exact hg.valueTypes iv (List.mem_of_getElem? hi)
  · rw [← π.apply_symm_apply i, h.ce] at hce
    rw [h.types]
    cases hexpr : P.ce (π.symm i) with
    | cmp opty' lhs' rhs' pred' =>
      rw [hexpr] at hce
      obtain ⟨rfl, -, -, -⟩ := IrConstexpr.cmp.inj hce
      exact hg.compareTypes _ _ _ _ _ hexpr
    | _ =>
      rw [hexpr] at hce
      cases hce
  · rw [← π.apply_symm_apply i] at hi hv
    rw [h.ce, operands_renumbered h] at hv
    obtain ⟨w, hw, rfl⟩ := List.mem_map.mp hv
    have hlt := hg.acyclic _ ((isExpr_renumbered h _).mp hi) w hw
    change rank (π.symm (π w)) < rank (π.symm i)
    rwa [π.symm_apply_apply]

def orderRank (iu : IrUnit) (i : ℕ) : ℕ := if i < iu.values.length then i else 0

theorem isExpr_lt {i : ℕ} (h : IsExpr iu i) : i < iu.values.length := by
  obtain ⟨iv, hiv, -⟩ := h
  exact (List.getElem?_eq_some_iff.mp hiv).1

theorem Ordered.graph (h : Ordered P iu) : Graph iu P (orderRank iu) := by
  refine ⟨h.types, h.valueTypes, h.compareTypes, fun i hi v hv => ?_⟩
  have hlt := h.before i hi v hv
  have hin := isExpr_lt hi
  unfold orderRank
  rwa [if_pos hin, if_pos (hlt.trans hin)]

theorem orderRank_le (i : ℕ) : orderRank iu i ≤ iu.values.length := by
  unfold orderRank
  split
  · omega
  · exact Nat.zero_le _

theorem Ordered.operandsFirst (h : Ordered P iu) : OperandsFirst P iu := by
  have hrank {i v : ℕ} (hi : IsExpr iu i) (hv : IsExpr iu v)
      (hlt : orderRank iu v < orderRank iu i) : v < i := by
    unfold orderRank at hlt
    rwa [if_pos (isExpr_lt hi), if_pos (isExpr_lt hv)] at hlt
  intro x v hv
  have hx : IsExpr iu x := by
    by_contra hnot
    unfold plain at hv
    rw [if_neg hnot] at hv
    exact List.not_mem_nil hv
  have hve : IsExpr iu v := by
    unfold plain at hv
    rw [if_pos hx] at hv
    split at hv <;> exact (mem_filter_expr.mp hv).2
  refine resolved_of_lt (fun u w huw => ?_) hve (hrank hx hve (plain_operand h.graph hv))
  have hu : IsExpr iu u := by
    by_contra hnot
    unfold ConstMeaning.inner at huw
    rw [if_neg hnot] at huw
    cases huw
  exact hrank hu (inner_expr huw) (inner_operand h.graph huw)

/-! ## Two numberings -/

/-- If the first table evaluates, so does the second, and every expression has the class and the
value of the bottom-up evaluation in both; if the first fails, the second does. -/
structure SameOutcome (π : ℕ ≃ ℕ) (P : Pool) (iu : IrUnit) (P' : Pool) (iu' : IrUnit) (fuel : ℕ) :
    Prop where
  succeeds : ∀ iu1, evalConstexprs P fuel iu iu.values.length = .ok iu1 →
    ∃ iu2, evalConstexprs P' fuel iu' iu'.values.length = .ok iu2
      ∧ ∀ i, IsExpr iu i → ∃ s, meaning iu P fuel i = some s
        ∧ HasValue iu1 i s ∧ HasValue iu2 (π i) s
  fails : (∀ iu1, evalConstexprs P fuel iu iu.values.length ≠ .ok iu1) →
    ∀ iu2, evalConstexprs P' fuel iu' iu'.values.length ≠ .ok iu2

/-- A graph that evaluates with its operands in front of their users evaluates the same under
another numbering exactly when that has the other operands early enough. -/
theorem same_outcome_iff (hordered : Ordered P iu) (hnum : Renumbered π P iu P' iu')
    (hfuel : iu.values.length < fuel) :
    SameOutcome π P iu P' iu' fuel
      ↔ ((∃ iu1, evalConstexprs P fuel iu iu.values.length = .ok iu1) → OperandsFirst P' iu') := by
  have hg := hordered.graph
  have hg' := graph_renumbered hnum hg
  have hrank (i : ℕ) : orderRank iu i < fuel := Nat.lt_of_le_of_lt (orderRank_le i) hfuel
  have hrank' (i : ℕ) : (orderRank iu ∘ π.symm) i < fuel := hrank _
  have hmeaning (i : ℕ) : meaning iu' P' fuel (π i) = meaning iu P fuel i :=
    meaning_renumbered hnum hordered.types i
  constructor
  · rintro hsame ⟨iu1, h1⟩
    obtain ⟨iu2, h2, -⟩ := hsame.succeeds iu1 h1
    exact (eval_ok hg' hrank' h2).1
  · intro hfirst
    constructor
    · intro iu1 h1
      have hvalues := (eval_ok hg hrank h1).2
      have hmeans : BottomUp P' iu' fuel := by
        intro i hi
        rw [← π.apply_symm_apply i] at hi ⊢
        obtain ⟨s, hs, -⟩ := hvalues _ ((isExpr_renumbered hnum _).mp hi)
        rw [hmeaning, hs]
        exact nofun
      obtain ⟨iu2, h2⟩ := eval_of_operandsFirst hg' hrank' hmeans (hfirst ⟨iu1, h1⟩)
      refine ⟨iu2, h2, fun i hi => ?_⟩
      obtain ⟨s, hs, hvalue⟩ := hvalues i hi
      obtain ⟨s', hs', hvalue'⟩ := (eval_ok hg' hrank' h2).2 (π i) ((isExpr_renumbered hnum i).mpr hi)
      obtain rfl := Option.some.inj (hs.symm.trans ((hmeaning i).symm.trans hs'))
      exact ⟨s, hs, hvalue, hvalue'⟩
    · intro hfails iu2 h2
      have hmeans : BottomUp P iu fuel := by
        intro i hi
        obtain ⟨s, hs, -⟩ := (eval_ok hg' hrank' h2).2 (π i) ((isExpr_renumbered hnum i).mpr hi)
        rw [← hmeaning, hs]
        exact nofun
      obtain ⟨iu1, h1⟩ := eval_of_operandsFirst hg hrank hmeans hordered.operandsFirst
      exact hfails iu1 h1

/-! ## Tables of two expressions -/

/-- The constant 16 and two expressions of the type `type`. -/
def pairTable (type : ℕ) : IrUnit :=
  ⟨[.int32, .pointer (some 0)], [⟨.constant 16, 0⟩, ⟨.ce, type⟩, ⟨.ce, type⟩], fun _ => 0⟩

/-- The second expression refers to the first. -/
def pairPool (first second : IrConstexpr) : Pool :=
  ⟨fun i => if i = 1 then first else second, id, fun _ => 0, 4⟩

def swapped (P : Pool) : Pool :=
  { P with ce := fun i => mapOperands (Equiv.swap 1 2) (P.ce (Equiv.swap 1 2 i)) }

theorem renumbered_swapped (first second : IrConstexpr) (type : ℕ) :
    Renumbered (Equiv.swap 1 2) (pairPool first second) (pairTable type)
      (swapped (pairPool first second)) (pairTable type) := by
  refine ⟨rfl, rfl, fun i => ?_, fun i => ?_, fun i => rfl, rfl⟩
  · by_cases h1 : i = 1
    · subst h1
      rfl
    · by_cases h2 : i = 2
      · subst h2
        rfl
      · rw [Equiv.swap_apply_of_ne_of_ne h1 h2]
  · change mapOperands _ ((pairPool first second).ce (Equiv.swap 1 2 (Equiv.swap 1 2 i))) = _
    rw [Equiv.swap_apply_self]

theorem isExpr_pair {type i : ℕ} (h : IsExpr (pairTable type) i) : i = 1 ∨ i = 2 := by
  have hlt := isExpr_lt h
  change i < 3 at hlt
  have hne : i ≠ 0 := by
    rintro rfl
    obtain ⟨iv, hiv, hce⟩ := h
    obtain rfl := Option.some.inj hiv
    cases hce
  omega

theorem ordered_pair {first second : IrConstexpr} {type : ℕ} (htype : type < 2)
    (hfirst : ∀ v ∈ operands (pairTable type) (pairPool first second) first, v < 1)
    (hsecond : ∀ v ∈ operands (pairTable type) (pairPool first second) second, v < 2)
    (hcmp : ∀ opty lhs rhs pred, first ≠ .cmp opty lhs rhs pred ∧ second ≠ .cmp opty lhs rhs pred) :
    Ordered (pairPool first second) (pairTable type) := by
  have hrefs : ∀ it ∈ [IrType.int32, .pointer (some 0)], ∀ t ∈ typeRefs it, t < 2 := by decide
  refine ⟨hrefs, fun iv hiv => ?_, fun i opty lhs rhs pred hce => ?_, fun i hi => ?_⟩
  · change iv.type < 2
    rcases List.mem_cons.mp hiv with rfl | hiv
    · decide
    · rcases List.mem_cons.mp hiv with rfl | hiv
      · exact htype
      · obtain rfl := List.mem_singleton.mp hiv
        exact htype
  · change (if i = 1 then first else second) = _ at hce
    split at hce
    · exact absurd hce (hcmp opty lhs rhs pred).1
    · exact absurd hce (hcmp opty lhs rhs pred).2
  · rcases isExpr_pair hi with rfl | rfl
    · exact hfirst
    · exact hsecond

/-- A cast of a cast is evaluated in any order. -/
theorem same_outcome_casts :
    SameOutcome (Equiv.swap 1 2) (pairPool (.cast (some .inttoptr) 0) (.cast (some .bitcast) 1))
      (pairTable 1) (swapped (pairPool (.cast (some .inttoptr) 0) (.cast (some .bitcast) 1)))
      (pairTable 1) 4 := by
  refine (same_outcome_iff (ordered_pair (by decide) (by decide) (by decide)
    fun _ _ _ _ => ⟨by nofun, by nofun⟩) (renumbered_swapped _ _ 1) (by decide)).mpr fun _ x v hv => ?_
  have hx : IsExpr (pairTable 1) x := by
    by_contra hnot
    unfold plain at hv
    rw [if_neg hnot] at hv
    exact List.not_mem_nil hv
  rcases isExpr_pair hx with rfl | rfl
  · exact absurd (show v ∈ [] from hv) List.not_mem_nil
  · exact absurd (show v ∈ [] from hv) List.not_mem_nil

/-- A sum whose operand is a sum with a higher number. -/
theorem forward_sum_differs :
    Ordered (pairPool (.binop (some .add) 0 0) (.binop (some .add) 1 0)) (pairTable 0)
      ∧ Renumbered (Equiv.swap 1 2) (pairPool (.binop (some .add) 0 0) (.binop (some .add) 1 0))
        (pairTable 0) (swapped (pairPool (.binop (some .add) 0 0) (.binop (some .add) 1 0)))
        (pairTable 0)
      ∧ ¬ SameOutcome (Equiv.swap 1 2)
        (pairPool (.binop (some .add) 0 0) (.binop (some .add) 1 0)) (pairTable 0)
        (swapped (pairPool (.binop (some .add) 0 0) (.binop (some .add) 1 0))) (pairTable 0) 4 := by
  refine ⟨ordered_pair (by decide) (by decide) (by decide) fun _ _ _ _ => ⟨by nofun, by nofun⟩,
    renumbered_swapped _ _ 0, fun hsame => ?_⟩
  obtain ⟨iu2, h2, -⟩ := hsame.succeeds _ rfl
  have hfails : (evalConstexprs (swapped (pairPool (.binop (some .add) 0 0)
      (.binop (some .add) 1 0))) 4 (pairTable 0) 3).toOption.isSome = false := by decide
  rw [show evalConstexprs _ 4 (pairTable 0) 3 = _ from h2] at hfails
  cases hfails

end Vmir.ConstNumbering
