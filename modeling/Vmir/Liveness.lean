import Vmir.BackwardDataflow
import Vmir.Ir
import Vmir.IrTypes

set_option autoImplicit false

/-!
# Liveness

`liveness_analysis` gives each instruction its successors and the values it uses, and
`liveness_update` solves for the values that are live before and behind it. A set holds the values
themselves where the source sets bit `value - ffv`.
-/
namespace Vmir.Liveness
open Ir IrTypes BackwardDataflow

/-- An instruction is found by the position of its block and its own position there. -/
abbrev Addr := ℕ × ℕ

/-- `ir_instr_t` with `ii_num_succ`, `ii_succ` and the middle one of the three sets of
`ii_liveness`; the outer two, which `liveness_update` writes, are apart. -/
structure LiveInstr where
  instr : Instr
  gen : Finset ℕ
  numSucc : ℤ
  succ : List (Option ℕ)
deriving DecidableEq

def bbFind (bbs : List Bb) (id : ℕ) : Option ℕ :=
  bbs.findIdx? fun ib => ib.id = id

/-- `ii_num_succ` has 16 bits, and as many blocks as it says are allocated. -/
def branchTo (bbs : List Bb) (blocks : List ℕ) : Except Fault (ℤ × List (Option ℕ)) :=
  let numSucc := (BitVec.ofNat 16 blocks.length).toInt
  if numSucc < blocks.length then .error .nullDeref
  else .ok (numSucc, blocks.map (bbFind bbs))

def livenessSetSucc (bbs : List Bb) : InstrClass → Except Fault (ℤ × List (Option ℕ))
  | .ret _ | .unreachable | .resume _ => .ok (0, [])
  | .cast .. | .vaarg _ | .load .. | .binop .. | .cmp2 .. | .store .. | .alloca .. | .select ..
  | .cmpSelect .. | .lea .. | .move _ | .vmop .. | .call .. | .stackcopy .. | .stackshrink _
  | .mla .. | .landingpad .. | .extractval .. => .ok (-1, [])
  | .switch _ defblock paths => branchTo bbs (defblock :: paths.map Path.block)
  | .br none trueBranch _ => branchTo bbs [trueBranch]
  | .br (some _) trueBranch falseBranch => branchTo bbs [trueBranch, falseBranch]
  | .cmpBranch _ _ _ trueBranch falseBranch => branchTo bbs [trueBranch, falseBranch]
  | .invoke _ normalDest unwindDest _ => branchTo bbs [normalDest, unwindDest]
  | .gep .. | .phi _ | .insertval .. => .error .abort

/-- `VECTOR_ITEM` does not check the index. -/
def livenessSetValue (iu : IrUnit) (ffv : ℕ) (bs : Finset ℕ) (vt : ValueType) :
    Except Fault (Finset ℕ) :=
  match iu.values[vt.value]? with
  | none => .error .nullDeref
  | some iv =>
    if iv.cls ≠ .temporary then .ok bs
    else if vt.value < ffv then .error .abort
    else .ok (insert vt.value bs)

/-- The operands in the order in which `liveness_set_gen` goes through them. -/
def genValues : InstrClass → Except Fault (List ValueType)
  | .unreachable | .stackshrink _ | .landingpad .. => .ok []
  | .ret value => .ok value.toList
  | .cast _ value | .vaarg value => .ok [value]
  | .load ptr _ valueOffset _ _ _ => .ok (ptr :: valueOffset.toList)
  | .binop _ lhsValue rhsValue | .cmp2 _ lhsValue rhsValue => .ok [lhsValue, rhsValue]
  | .cmpBranch _ lhsValue rhsValue _ _ => .ok [lhsValue, rhsValue]
  | .store ptr value _ => .ok [value, ptr]
  | .br condition _ _ => .ok condition.toList
  | .alloca _ numItemsValue _ => .ok [numItemsValue]
  | .select trueValue falseValue pred => .ok [pred, trueValue, falseValue]
  | .cmpSelect _ lhsValue rhsValue trueValue falseValue =>
    .ok [lhsValue, rhsValue, trueValue, falseValue]
  | .lea baseptr _ valueOffset _ => .ok (baseptr :: valueOffset.toList)
  | .call callee argv | .vmop _ callee argv | .invoke callee _ _ argv =>
    .ok (callee :: argv.map Arg.value)
  | .switch value _ _ => .ok [value]
  | .move value => .ok [value]
  | .stackcopy value _ => .ok [value]
  | .mla arg1 arg2 arg3 => .ok [arg1, arg2, arg3]
  | .resume values => .ok values
  | .gep .. | .phi _ | .extractval .. | .insertval .. => .error .abort

def livenessSetGen (iu : IrUnit) (ffv : ℕ) (cls : InstrClass) : Except Fault (Finset ℕ) := do
  let values ← genValues cls
  values.foldlM (livenessSetValue iu ffv) ∅

/-- The loop of `liveness_analysis`, but for the sets that `calloc` leaves empty. -/
def prepare (iu : IrUnit) (ffv : ℕ) (bbs : List Bb) : Except Fault (List (List LiveInstr)) :=
  bbs.mapM fun ib => ib.instrs.mapM fun ii => do
    let gen ← livenessSetGen iu ffv ii.cls
    let (numSucc, succ) ← livenessSetSucc bbs ii.cls
    .ok ⟨ii, gen, numSucc, succ⟩

/-- The sets `out` and `in` of every instruction. -/
abbrev LiveSets := Sets Addr ℕ

def callocSets : LiveSets := ⟨fun _ => ∅, fun _ => ∅⟩

section
variable (f : List (List LiveInstr))

def instrAt (a : Addr) : Option LiveInstr :=
  f[a.1]?.bind fun ib => ib[a.2]?

/-- `TAILQ_NEXT` -/
def nextInstr (a : Addr) : Option Addr :=
  if (instrAt f (a.1, a.2 + 1)).isSome then some (a.1, a.2 + 1) else none

/-- `TAILQ_FIRST` of a block, which is asserted to be there. -/
def firstInstr (ib : Option ℕ) : Except Fault Addr :=
  match ib with
  | none => .error .nullDeref
  | some b => if (instrAt f (b, 0)).isSome then .ok (b, 0) else .error .abort

def liveBehind (s : LiveSets) (a : Addr) (ii : LiveInstr) : Except Fault (Finset ℕ) :=
  let branches := (ii.succ.take ii.numSucc.toNat).foldlM (fun o ib => do
    let succ ← firstInstr f ib
    .ok (o ∪ s.into succ)) ∅
  match nextInstr f a with
  | some succ => if ii.numSucc = -1 then .ok (s.into succ) else branches
  | none => branches

def updateInstr (state : LiveSets × Bool) (a : Addr) : Except Fault (LiveSets × Bool) :=
  match instrAt f a with
  | none => .error .nullDeref
  | some ii => do
    let s := state.1
    let o ← liveBehind f s a ii
    let newIn := ii.instr.rets.foldl (fun newIn ret => newIn.erase ret.value) o ∪ ii.gen
    if s.out a = o ∧ s.into a = newIn then .ok state
    else .ok (⟨Function.update s.out a o, Function.update s.into a newIn⟩, false)

/-- The instructions in the order of the lists. -/
def addrs : List Addr :=
  f.zipIdx.flatMap fun ib => (List.range ib.1.length).map fun i => (ib.2, i)

/-- One turn of `while(1)`: both lists are gone through from their ends. -/
def updateRound (s : LiveSets) : Except Fault (LiveSets × Bool) :=
  (addrs f).reverse.foldlM (updateInstr f) (s, true)

def livenessUpdate : ℕ → LiveSets → Except Fault LiveSets
  | 0, _ => .error .outOfFuel
  | fuel + 1, s => do
    let (s, stable) ← updateRound f s
    if stable then .ok s else livenessUpdate fuel s

end

/-- Every block that a branch names is there and has an instruction. -/
def ControlFlow (f : List (List LiveInstr)) : Prop :=
  ∀ ib ∈ f, ∀ ii ∈ ib, ∀ succ ∈ ii.succ, succ.any fun b => (instrAt f (b, 0)).isSome

instance (f : List (List LiveInstr)) : Decidable (ControlFlow f) :=
  inferInstanceAs (Decidable (∀ ib ∈ f, ∀ ii ∈ ib, ∀ succ ∈ ii.succ, _))

def successors (f : List (List LiveInstr)) (a : Addr) : List Addr :=
  match instrAt f a with
  | none => []
  | some ii =>
    let branches := (ii.succ.take ii.numSucc.toNat).filterMap fun ib => ib.map fun b => (b, 0)
    match nextInstr f a with
    | some succ => if ii.numSucc = -1 then [succ] else branches
    | none => branches

section
variable {f : List (List LiveInstr)}

theorem ControlFlow.branch (h : ControlFlow f) {a : Addr} {ii : LiveInstr}
    (hii : instrAt f a = some ii) {ib : Option ℕ} (hib : ib ∈ ii.succ) :
    ∃ b, ib = some b ∧ (instrAt f (b, 0)).isSome := by
  obtain ⟨is, his, hget⟩ := Option.bind_eq_some_iff.mp hii
  have hany := h is (List.mem_of_getElem? his) ii (List.mem_of_getElem? hget) ib hib
  cases ib with
  | none => exact nomatch hany
  | some b => exact ⟨b, rfl, hany⟩

theorem mem_addrs {a : Addr} : a ∈ addrs f ↔ (instrAt f a).isSome := by
  obtain ⟨b, i⟩ := a
  unfold addrs instrAt
  rw [List.mem_flatMap]
  constructor
  · rintro ⟨⟨ib, b'⟩, hib, hi⟩
    obtain ⟨i', hi', heq⟩ := List.mem_map.mp hi
    cases heq
    have hget := (List.mk_mem_zipIdx_iff_getElem?).mp hib
    rw [hget, Option.bind_some, List.getElem?_eq_getElem (List.mem_range.mp hi')]
    rfl
  · intro h
    obtain ⟨ii, hii⟩ := Option.isSome_iff_exists.mp h
    obtain ⟨ib, hib, hi⟩ := Option.bind_eq_some_iff.mp hii
    refine ⟨(ib, b), List.mk_mem_zipIdx_iff_getElem?.mpr hib, List.mem_map.mpr ⟨i, ?_, rfl⟩⟩
    exact List.mem_range.mpr (List.getElem?_eq_some_iff.mp hi).1

theorem addrs_nodup (f : List (List LiveInstr)) : (addrs f).Nodup := by
  unfold addrs
  rw [List.nodup_flatMap]
  constructor
  · intro ib _
    exact List.nodup_range.map fun i j h => (Prod.mk.inj h).2
  · have hidx : (f.zipIdx.map Prod.snd).Nodup := by
      rw [List.zipIdx_map_snd]
      exact List.nodup_range'
    rw [List.Nodup, List.pairwise_map] at hidx
    apply hidx.imp
    intro ib ib' hne a ha ha'
    obtain ⟨i, -, rfl⟩ := List.mem_map.mp ha
    obtain ⟨i', -, heq⟩ := List.mem_map.mp ha'
    exact hne (Prod.mk.inj heq).1.symm

theorem successors_mem (hcfg : ControlFlow f) {a q : Addr} (hq : q ∈ successors f a) :
    q ∈ addrs f := by
  have hnext : ∀ {succ}, nextInstr f a = some succ → succ ∈ addrs f := by
    intro succ h
    unfold nextInstr at h
    split at h
    · next hsome =>
      cases Option.some.inj h
      exact mem_addrs.mpr hsome
    · exact nomatch h
  have hbranch : ∀ {ii}, instrAt f a = some ii → q ∈ (ii.succ.take ii.numSucc.toNat).filterMap
      (fun ib => ib.map fun b => (b, 0)) → q ∈ addrs f := by
    intro ii hii h
    obtain ⟨ib, hib, heq⟩ := List.mem_filterMap.mp h
    obtain ⟨b, rfl, hsome⟩ := hcfg.branch hii (List.mem_of_mem_take hib)
    cases Option.some.inj heq
    exact mem_addrs.mpr hsome
  unfold successors at hq
  split at hq
  · exact nomatch hq
  · next ii hii =>
    split at hq
    · next succ hsucc =>
      split at hq
      · cases List.mem_singleton.mp hq
        exact hnext hsucc
      · exact hbranch hii hq
    · exact hbranch hii hq

end

/-- The equations of liveness, with the instructions in the order of a round. -/
def problem (f : List (List LiveInstr)) (hcfg : ControlFlow f) : Problem Addr ℕ where
  nodes := (addrs f).reverse
  succ := successors f
  gen a := (instrAt f a).elim ∅ LiveInstr.gen
  kill a := (instrAt f a).elim ∅ fun ii => (ii.instr.rets.map ValueType.value).toFinset
  nodup := List.nodup_reverse.mpr (addrs_nodup f)
  closed _ _ _ hq := List.mem_reverse.mpr (successors_mem hcfg hq)

end Vmir.Liveness
