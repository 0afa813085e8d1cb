import Mathlib.Data.Int.Notation
import Mathlib.Data.List.Basic
import Mathlib.Data.List.Nodup

set_option autoImplicit false

/-!
# The instructions of the intermediate representation

One constructor for every instruction class that the loader or a transformation creates. A value
is its index in the unit's value table, a block its `ib_id`.
-/
namespace Vmir.Ir

/-- `ir_valuetype_t` -/
structure ValueType where
  value : ℕ
  type : ℕ
deriving DecidableEq, Repr

/-- `BINOP_*` -/
inductive Binop
  | add | sub | mul | udiv | sdiv | urem | srem | shl | lshr | ashr | and | or | xor
deriving DecidableEq, Repr

/-- `CAST_*` -/
inductive CastOp
  | trunc | zext | sext | fptoui | fptosi | uitofp | sitofp | fptrunc | fpext
  | ptrtoint | inttoptr | bitcast
deriving DecidableEq, Repr

/-- `ICMP_*` -/
inductive IcmpPred
  | eq | ne | ugt | uge | ult | ule | sgt | sge | slt | sle
deriving DecidableEq, Repr

/-- `FCMP_*` -/
inductive FcmpPred
  | false | oeq | ogt | oge | olt | ole | one | ord
  | uno | ueq | ugt | uge | ult | ule | une | true
deriving DecidableEq, Repr

/-- The `op` of a compare. -/
inductive Pred
  | icmp (p : IcmpPred)
  | fcmp (p : FcmpPred)
deriving DecidableEq, Repr

/-- `ir_phi_node_t` -/
structure PhiNode where
  predecessor : ℕ
  value : ValueType
deriving DecidableEq, Repr

/-- The second loop of `parse_phi`, on the nodes sorted by predecessor: `last` was written last. -/
def dropRepeatedPredecessors (last : PhiNode) : List PhiNode → List PhiNode
  | [] => []
  | n :: ns =>
    if n.predecessor = last.predecessor then dropRepeatedPredecessors last ns
    else n :: dropRepeatedPredecessors n ns

/-- The incoming values of a PHI, at most one for each predecessor. -/
structure PhiNodes where
  nodes : List PhiNode
  distinct : (nodes.map PhiNode.predecessor).Nodup
deriving DecidableEq, Repr

theorem dropRepeatedPredecessors_sorted {last : PhiNode} {ns : List PhiNode}
    (h : ((last :: ns).map PhiNode.predecessor).Pairwise (· ≤ ·)) :
    ((last :: dropRepeatedPredecessors last ns).map PhiNode.predecessor).Pairwise (· < ·) := by
  induction ns generalizing last with
  | nil => simp [dropRepeatedPredecessors]
  | cons n ns ih =>
    simp only [List.map_cons, List.pairwise_cons] at h
    obtain ⟨hlast, hn, hns⟩ := h
    unfold dropRepeatedPredecessors
    split
    · refine ih ?_
      simp only [List.map_cons, List.pairwise_cons]
      exact ⟨fun p hp => hlast p (List.mem_cons_of_mem _ hp), hns⟩
    · next hne =>
      have hrest := @ih n (by simp [hns]; simpa using hn)
      have hlt : last.predecessor < n.predecessor := by
        have := hlast n.predecessor (by simp)
        omega
      rw [List.map_cons, List.pairwise_cons]
      refine ⟨fun p hp => ?_, hrest⟩
      rcases List.mem_cons.mp hp with rfl | hp
      · exact hlt
      · rw [List.map_cons, List.pairwise_cons] at hrest
        exact Nat.lt_trans hlt (hrest.1 p hp)

/-- What `parse_phi` leaves of nodes that are sorted by predecessor. -/
def PhiNodes.ofSorted (first : PhiNode) (rest : List PhiNode)
    (h : ((first :: rest).map PhiNode.predecessor).Pairwise (· ≤ ·)) : PhiNodes where
  nodes := first :: dropRepeatedPredecessors first rest
  distinct := (dropRepeatedPredecessors_sorted h).imp fun h => Nat.ne_of_lt h

/-- `ir_gep_index_t` -/
structure GepIndex where
  value : ValueType
  type : ℕ
deriving DecidableEq, Repr

/-- `ir_instr_arg_t` -/
structure Arg where
  value : ValueType
  copySize : ℕ
deriving DecidableEq, Repr

/-- `ir_instr_path_t` -/
structure Path where
  v64 : BitVec 64
  block : ℕ
deriving DecidableEq, Repr

/-- `ir_instr_landingpad_clause_t` -/
structure LandingpadClause where
  isCatch : ℕ
  clause : ℕ
deriving DecidableEq, Repr

/-- `instr_class_t`, each class with the members its `ir_instr_*_t` adds to `ir_instr_t`. -/
inductive InstrClass
  | unreachable
  | ret (value : Option ValueType)
  | binop (op : Binop) (lhsValue rhsValue : ValueType)
  | cast (op : CastOp) (value : ValueType)
  | load (ptr : ValueType) (immediateOffset : ℤ) (valueOffset : Option ValueType)
      (valueOffsetMultiply : ℤ) (cast : Option CastOp) (loadType : BitVec 8)
  | store (ptr value : ValueType) (immediateOffset : ℤ)
  | gep (baseptr : ValueType) (indicies : List GepIndex)
  | cmp2 (op : Pred) (lhsValue rhsValue : ValueType)
  | br (condition : Option ValueType) (trueBranch falseBranch : ℕ)
  | phi (nodes : PhiNodes)
  | call (callee : ValueType) (argv : List Arg)
  | invoke (callee : ValueType) (normalDest unwindDest : ℕ) (argv : List Arg)
  | switch (value : ValueType) (defblock : ℕ) (paths : List Path)
  | alloca (size : ℕ) (numItemsValue : ValueType) (alignment : ℕ)
  | select (trueValue falseValue pred : ValueType)
  | vaarg (value : ValueType)
  | extractval (value : ValueType) (indicies : List ℕ)
  | insertval (src replacement : ValueType) (indicies : List ℕ)
  | landingpad (type isCleanUp : ℕ) (clauses : List LandingpadClause)
  | resume (values : List ValueType)
  | lea (baseptr : ValueType) (immediateOffset : ℤ) (valueOffset : Option ValueType)
      (valueOffsetMultiply : ℤ)
  | move (value : ValueType)
  | vmop (vmop : ℕ) (callee : ValueType) (argv : List Arg)
  | stackcopy (value : ValueType) (size : ℕ)
  | stackshrink (size : ℕ)
  | cmpBranch (op : Pred) (lhsValue rhsValue : ValueType) (trueBranch falseBranch : ℕ)
  | cmpSelect (op : Pred) (lhsValue rhsValue trueValue falseValue : ValueType)
  | mla (arg1 arg2 arg3 : ValueType)
deriving DecidableEq, Repr

/-- `ir_instr_t`. `rets` holds `ii_ret`, or the values of `ii_rets` when there are several. -/
structure Instr where
  rets : List ValueType
  cls : InstrClass
deriving DecidableEq, Repr

/-- `ir_bb_t` -/
structure Bb where
  id : ℕ
  instrs : List Instr
deriving DecidableEq, Repr

/-- The faults a pass can end in: `parser_error`, a null pointer dereference, a failed assertion or
`abort`, and, for a loop that is given a bound, using up the bound. -/
inductive Fault
  | parserError (msg : String)
  | nullDeref
  | abort
  | outOfFuel
deriving DecidableEq, Repr

end Vmir.Ir
