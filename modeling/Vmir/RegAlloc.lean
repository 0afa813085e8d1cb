import Vmir.ColourPlaces
import Vmir.LivenessExact

set_option autoImplicit false

/-!
# Register allocation

`liveness_analysis` with all that it calls, and `finalize_call_args`: from the instructions of a
function to the places of its values. The result of an instruction has a place apart from everything
else that is live behind the instruction.
-/
namespace Vmir.RegAlloc
open Ir IrTypes ProgramText BackwardDataflow Liveness LivenessExact NeighbourCounts Colouring
  Coalescing ColourSupply ColourPlaces

/-- A function as it comes to `liveness_analysis`, with `n` values from `iu_first_func_value` on.
The temporaries of call arguments are numbered from the first value of the function. Equal scores
come out of `qsort` in any order. In builds with the JIT, `jit` is what the second call of
`liveness_update` and `jit_analyze` come to after the merges. -/
structure Body (n : ℕ) where
  iu : IrUnit
  ffv : ℕ
  bbs : List Bb
  callArgBase : ℕ
  numCallArgs : ℕ
  regframeSize : ℤ
  jit : Option (Merges Addr n → Except Stop (Fin n → Bool))
  qsort : List (ValueInfo n) → List (ValueInfo n)
  qsort_perm : ∀ vi, (qsort vi).Perm vi

/-- What the values are called after the merges, the moves that are gone, and the places. -/
structure Allocation (n : ℕ) where
  names : Fin n → Fin n
  destroyed : List Addr
  place : Fin n → Option Place
  regframeSize : ℤ

/-- The place that the operand or the result has which was `x`. -/
def Allocation.placeOf {n : ℕ} (A : Allocation n) (x : Fin n) : Option Place := A.place (A.names x)

namespace Body
variable {n : ℕ} (F : Body n)

/-- The value of the function with that number in the table. -/
def tempOf (v : ℕ) : Option (Fin n) :=
  if h : F.ffv ≤ v ∧ v < F.ffv + n then some ⟨v - F.ffv, by omega⟩ else none

def IsArgument (x : Fin n) : Prop :=
  F.callArgBase ≤ (x : ℕ) ∧ (x : ℕ) < F.callArgBase + F.numCallArgs

instance (x : Fin n) : Decidable (F.IsArgument x) := inferInstanceAs (Decidable (_ ∧ _))

def precolored (x : Fin n) : ℤ := if F.IsArgument x then (x : ℕ) - F.callArgBase else -1

def valueOf (x : Fin n) : TempValue :=
  match F.iu.values[F.ffv + x]? with
  | none => ⟨.dead, 0, F.precolored x, 0⟩
  | some iv => ⟨iv.cls, iv.type, F.precolored x, 0⟩

theorem valueOf_edges (x : Fin n) : (F.valueOf x).edges = 0 := by
  unfold valueOf
  split <;> rfl

def fresh : Fresh n := ⟨F.valueOf, F.valueOf_edges⟩

def movedValue : InstrClass → Option ValueType
  | .move value => some value
  | _ => none

/-- `v` in the first loop of `coalesce` -/
def movedOperand (cls : InstrClass) : ℤ :=
  (movedValue cls).elim (-1) fun value => (value.value : ℤ) - F.ffv

def retOf (ret : ValueType) : Except Stop (Fin n) :=
  match F.tempOf ret.value with
  | none => .error .outside
  | some x => .ok x

def definitionAt (f : List (List LiveInstr)) (sets : LiveSets) (a : Addr) :
    Except Stop (Definition n) :=
  match instrAt f a with
  | none => .error (.fault .nullDeref)
  | some ii => do
    let rets ← ii.instr.rets.mapM F.retOf
    return ⟨rets, F.movedOperand ii.instr.cls, fun x => F.ffv + x ∈ sets.out a⟩

def singleRet : List ValueType → Option (Fin n)
  | [ret] => F.tempOf ret.value
  | _ => none

/-- What `coalesce` finds at a move, before any merge. -/
def moveAt (f : List (List LiveInstr)) (a : Addr) : Option (Addr × Move n) :=
  (instrAt f a).bind fun ii => (movedValue ii.instr.cls).map fun value =>
    (a, ⟨F.tempOf value.value, F.singleRet ii.instr.rets⟩)

def marked (p : Merges Addr n) : Except Stop (Fin n → Bool) :=
  match F.jit with
  | none => .ok fun _ => false
  | some analyze => analyze p

def coalesceAndColour (f : List (List LiveInstr)) (sets : LiveSets) :
    Except Stop (Allocation n) := do
  let ds ← (addrs f).mapM (F.definitionAt f sets)
  let s ← buildMatrix F.fresh ds
  let p ← coalesceFunction s ((addrs f).filterMap (F.moveAt f))
  let marks ← F.marked p
  let vi ← vertices F.iu marks p.state
  let colors ← colour p.state.mtx (F.qsort vi)
  let places := callArgPlaces F.callArgBase F.numCallArgs
    (regAllocPlaces (F.qsort vi) colors F.regframeSize)
  return ⟨p.names, p.destroyed, places.1, places.2⟩

/-- `liveness_analysis`, and `finalize_call_args` behind it. -/
def livenessAnalysis (fuel : ℕ) : Except Stop (Allocation n) := do
  let f ← (prepare F.iu F.ffv F.bbs).mapError Stop.fault
  let sets ← (livenessUpdate f fuel callocSets).mapError Stop.fault
  F.coalesceAndColour f sets

/-! ## What the passes before have seen to -/

def IsTemporary (x : Fin n) : Prop := (F.valueOf x).cls = .temporary

instance (x : Fin n) : Decidable (F.IsTemporary x) :=
  inferInstanceAs (Decidable ((F.valueOf x).cls = .temporary))

def slots (x : Fin n) : ℕ :=
  match PrepareCall.valueRegframeSlots F.iu (F.valueOf x).type with
  | .ok k => k
  | .error _ => 0

/-- `legalize_temporary_values` leaves temporaries that have slots, those that `prepare_calls` makes
for arguments have one each. A result is a temporary. A move is between values of the same slots, or
takes a value of two slots to the arguments of a call. -/
structure Legal : Prop where
  small : n ≤ 46341
  typed : ∀ x : Fin n, F.IsTemporary x → F.slots x ≠ 0
  arguments : ∀ x : Fin n, F.IsArgument x → F.IsTemporary x ∧ F.slots x = 1
  results : ∀ ib ∈ F.bbs, ∀ ii ∈ ib.instrs, ∀ ret ∈ ii.rets,
    ∃ x, F.tempOf ret.value = some x ∧ F.IsTemporary x
  moves : ∀ ib ∈ F.bbs, ∀ ii ∈ ib.instrs, ∀ value, ii.cls = .move value →
    ∀ y, F.tempOf value.value = some y →
      (∃ ret x, ii.rets = [ret] ∧ F.tempOf ret.value = some x ∧ F.slots x = F.slots y)
      ∨ F.slots y = 2 ∧ ii.rets.length ≠ 1
        ∧ ∀ ret ∈ ii.rets, ∀ x, F.tempOf ret.value = some x → F.IsArgument x

/-- The classes of instructions that the passes before leave. -/
def isLowered : InstrClass → Bool
  | .gep .. | .phi _ | .extractval .. | .insertval .. => false
  | _ => true

/-- What the first loop of `liveness_analysis` relies on: no `getelementptr`, phi or instruction on
aggregates is left, an operand is a value, and of the function if it is a temporary, and a branch
leads to blocks with instructions, fewer than an `int16_t` counts. -/
structure Lowered : Prop where
  classes : ∀ ib ∈ F.bbs, ∀ ii ∈ ib.instrs, isLowered ii.cls
  operands : ∀ ib ∈ F.bbs, ∀ ii ∈ ib.instrs, ∀ vt ∈ DeadCode.operands ii.cls,
    ∃ iv, F.iu.values[vt.value]? = some iv ∧ (iv.cls = .temporary → F.ffv ≤ vt.value)
  branches : ∀ ib ∈ F.bbs, ∀ ii ∈ ib.instrs, ∀ blocks ∈ branchTargets ii.cls,
    blocks.length < 2 ^ 15 ∧ ∀ id ∈ blocks, ∃ b succ,
      bbFind F.bbs id = some b ∧ F.bbs[b]? = some succ ∧ succ.instrs ≠ []

/-! ## The first loop -/

theorem genValues_lowered {cls : InstrClass} (h : isLowered cls) :
    ∃ values, genValues cls = .ok values ∧ ∀ vt ∈ values, vt ∈ DeadCode.operands cls := by
  cases cls with
  | gep | phi | extractval | insertval => cases h
  | store ptr value off => exact ⟨_, rfl, fun vt hvt => (List.Perm.swap ..).mem_iff.mp hvt⟩
  | select trueValue falseValue pred =>
    refine ⟨_, rfl, fun vt hvt => ?_⟩
    exact (@List.perm_append_comm _ [pred] [trueValue, falseValue]).mem_iff.mp hvt
  | _ => exact ⟨_, rfl, fun _ h => h⟩

theorem livenessSetSucc_lowered (bbs : List Bb) {cls : InstrClass} (h : isLowered cls)
    (hblocks : ∀ blocks ∈ branchTargets cls, blocks.length < 2 ^ 15) :
    ∃ r, livenessSetSucc bbs cls = .ok r := by
  have hbranch {blocks : List ℕ} (hlt : blocks.length < 2 ^ 15) :
      ∃ r, branchTo bbs blocks = .ok r := by
    unfold branchTo
    have hint : (BitVec.ofNat 16 blocks.length).toInt = blocks.length := by
      rw [BitVec.toInt_eq_toNat_of_lt, BitVec.toNat_ofNat, Nat.mod_eq_of_lt (by omega)]
      rw [BitVec.toNat_ofNat]
      omega
    rw [hint, if_neg (lt_irrefl _)]
    exact ⟨_, rfl⟩
  cases cls with
  | gep | phi | extractval | insertval => cases h
  | switch | cmpBranch | invoke => exact hbranch (hblocks _ rfl)
  | br condition _ _ => cases condition <;> exact hbranch (hblocks _ rfl)
  | _ => exact ⟨_, rfl⟩

variable {F} in
theorem setValues_ends {values : List ValueType} (hvalues : ∀ vt ∈ values, ∃ iv,
      F.iu.values[vt.value]? = some iv ∧ (iv.cls = .temporary → F.ffv ≤ vt.value))
    (bs : Finset ℕ) : ∃ gen, values.foldlM (livenessSetValue F.iu F.ffv) bs = .ok gen := by
  induction values generalizing bs with
  | nil => exact ⟨bs, rfl⟩
  | cons vt values ih =>
    obtain ⟨iv, hiv, htemp⟩ := hvalues vt List.mem_cons_self
    have hone : ∃ bs', livenessSetValue F.iu F.ffv bs vt = .ok bs' := by
      unfold livenessSetValue
      rw [hiv]
      dsimp only
      split
      · exact ⟨_, rfl⟩
      · next hcls =>
        rw [if_neg (not_lt.mpr (htemp (not_not.mp hcls)))]
        exact ⟨_, rfl⟩
    obtain ⟨bs', hbs'⟩ := hone
    rw [List.foldlM_cons, hbs']
    exact ih (fun v hv => hvalues v (List.mem_cons_of_mem vt hv)) bs'

variable {F} in
theorem Lowered.prepare_ends (h : F.Lowered) : ∃ f, prepare F.iu F.ffv F.bbs = .ok f := by
  refine RelatedLists.exists_mapM fun ib hib => RelatedLists.exists_mapM fun ii hii => ?_
  have hlowered := h.classes ib hib ii hii
  obtain ⟨values, hvalues, hsub⟩ := genValues_lowered hlowered
  obtain ⟨gen, hgen⟩ :=
    setValues_ends (fun vt hvt => h.operands ib hib ii hii vt (hsub vt hvt)) ∅
  obtain ⟨r, hr⟩ := livenessSetSucc_lowered F.bbs hlowered fun blocks hblocks =>
    (h.branches ib hib ii hii blocks hblocks).1
  refine ⟨⟨ii, gen, r.1, r.2⟩, ?_⟩
  rw [livenessSetGen, hvalues]
  change (values.foldlM (livenessSetValue F.iu F.ffv) ∅ >>= _) = _
  rw [hgen]
  change (livenessSetSucc F.bbs ii.cls >>= _) = _
  rw [hr]
  rfl

variable {F} in
theorem Lowered.controlFlow (h : F.Lowered) {f : List (List LiveInstr)}
    (hf : prepare F.iu F.ffv F.bbs = .ok f) : ControlFlow f := by
  intro is his li hli succ hsucc
  obtain ⟨b, hb⟩ := List.mem_iff_getElem?.mp his
  obtain ⟨i, hi⟩ := List.mem_iff_getElem?.mp hli
  have hat : instrAt f (b, i) = some li := by
    unfold instrAt
    rw [hb]
    exact hi
  rcases prepare_at hf (b, i) with ⟨-, hnone⟩ | ⟨ii, li', hsource, hli', -, -, hset⟩
  · cases hnone.symm.trans hat
  · obtain rfl := Option.some.inj (hat.symm.trans hli')
    obtain ⟨ib, hib, hii⟩ := Option.bind_eq_some_iff.mp hsource
    have htargets := livenessSetSucc_ok hset
    cases hbranch : branchTargets ii.cls with
    | none =>
      rw [hbranch] at htargets
      rw [htargets.2] at hsucc
      exact absurd hsucc List.not_mem_nil
    | some blocks =>
      rw [hbranch] at htargets
      rw [htargets.2] at hsucc
      obtain ⟨id, hid, rfl⟩ := List.mem_map.mp hsucc
      obtain ⟨-, hfound⟩ := h.branches ib (List.mem_of_getElem? hib) ii (List.mem_of_getElem? hii)
        blocks hbranch
      obtain ⟨c, succ, hfind, hget, hne⟩ := hfound id hid
      rw [hfind]
      refine (sourceInstr_isSome hf).mp ?_
      unfold sourceInstr
      rw [hget]
      cases hinstrs : succ.instrs with
      | nil => exact absurd hinstrs hne
      | cons ii _ =>
        change ((succ.instrs)[0]?).isSome
        rw [hinstrs]
        rfl

variable {F} in
theorem Lowered.prepared (h : F.Lowered) :
    ∃ f, prepare F.iu F.ffv F.bbs = .ok f ∧ ControlFlow f := by
  obtain ⟨f, hf⟩ := h.prepare_ends
  exact ⟨f, hf, h.controlFlow hf⟩

/-! ## The parts -/

def resultsOf (ii : LiveInstr) : List (Fin n) :=
  ii.instr.rets.filterMap fun ret => F.tempOf ret.value

def results (f : List (List LiveInstr)) (a : Addr) : List (Fin n) :=
  ((instrAt f a).map F.resultsOf).getD []

/-- The operand of a move, `-1` otherwise. -/
def moved (f : List (List LiveInstr)) (a : Addr) : ℤ :=
  ((instrAt f a).map fun ii => F.movedOperand ii.instr.cls).getD (-1)

theorem slots_ok {x : Fin n} (h : F.slots x ≠ 0) :
    PrepareCall.valueRegframeSlots F.iu (F.valueOf x).type = .ok (F.slots x) := by
  unfold slots at h ⊢
  cases hslots : PrepareCall.valueRegframeSlots F.iu (F.valueOf x).type with
  | error e =>
    rw [hslots] at h
    exact absurd rfl h
  | ok k => rfl

theorem valueOf_precolored (x : Fin n) : (F.valueOf x).precolored = F.precolored x := by
  unfold valueOf
  split <;> rfl

theorem precolored_iff (x : Fin n) : F.precolored x ≠ -1 ↔ F.IsArgument x := by
  unfold precolored
  split_ifs with h
  · refine iff_of_true ?_ h
    have hle := h.1
    omega
  · exact iff_of_false (fun hne => hne rfl) h

theorem mapM_retOf (rets : List ValueType) {xs : List (Fin n)}
    (h : rets.mapM F.retOf = .ok xs) : xs = rets.filterMap fun ret => F.tempOf ret.value := by
  have hpairs := RelatedLists.forall₂_mapM h
  clear h
  induction hpairs with
  | nil => rfl
  | @cons ret x rets xs hret _ ih =>
    unfold retOf at hret
    cases htemp : F.tempOf ret.value with
    | none =>
      rw [htemp] at hret
      cases hret
    | some y =>
      rw [htemp] at hret
      rw [List.filterMap_cons_some (f := fun ret : ValueType => F.tempOf ret.value) htemp, ← ih,
        Except.ok.inj hret]

section
variable {F} {f : List (List LiveInstr)}

theorem definitionAt_ok {sets : LiveSets} {a : Addr} {d : Definition n}
    (h : F.definitionAt f sets a = .ok d) :
    d = ⟨F.results f a, F.moved f a, fun x => decide (F.ffv + x ∈ sets.out a)⟩ := by
  unfold definitionAt at h
  unfold results moved
  cases hii : instrAt f a with
  | none =>
    rw [hii] at h
    cases h
  | some ii =>
    rw [hii] at h
    dsimp only at h
    cases hrets : ii.instr.rets.mapM F.retOf with
    | error e =>
      rw [hrets] at h
      cases h
    | ok xs =>
      rw [hrets] at h
      rw [← Except.ok.inj h, F.mapM_retOf _ hrets]
      rfl

theorem sourceInstr_mem {bbs : List Bb} {a : Addr} {ii : Instr} (h : sourceInstr bbs a = some ii) :
    ∃ ib ∈ bbs, ii ∈ ib.instrs := by
  unfold sourceInstr at h
  obtain ⟨ib, hib, hii⟩ := Option.bind_eq_some_iff.mp h
  exact ⟨ib, List.mem_of_getElem? hib, List.mem_of_getElem? hii⟩

theorem instrAt_mem (hf : prepare F.iu F.ffv F.bbs = .ok f) {a : Addr} {ii : LiveInstr}
    (h : instrAt f a = some ii) : ∃ ib ∈ F.bbs, ii.instr ∈ ib.instrs := by
  rcases prepare_at hf a with ⟨-, hnone⟩ | ⟨ii', li, hsource, hli, rfl, -⟩
  · rw [hnone] at h
    cases h
  · obtain rfl := Option.some.inj (hli.symm.trans h)
    exact sourceInstr_mem hsource

theorem results_eq {a : Addr} {ii : LiveInstr} (hii : instrAt f a = some ii) :
    F.results f a = F.resultsOf ii := by
  unfold results
  rw [hii]
  rfl

theorem results_single {a : Addr} {ii : LiveInstr} {ret : ValueType} {x : Fin n}
    (hii : instrAt f a = some ii) (hrets : ii.instr.rets = [ret])
    (hret : F.tempOf ret.value = some x) : F.results f a = [x] := by
  rw [results_eq hii]
  unfold resultsOf
  rw [hrets, List.filterMap_cons_some (f := fun ret : ValueType => F.tempOf ret.value) hret]
  rfl

theorem Legal.result (hlegal : F.Legal) (hf : prepare F.iu F.ffv F.bbs = .ok f) {a : Addr}
    {x : Fin n} (hx : x ∈ F.results f a) : F.IsTemporary x := by
  unfold Body.results at hx
  cases hii : instrAt f a with
  | none =>
    rw [hii] at hx
    exact absurd hx List.not_mem_nil
  | some ii =>
    rw [hii] at hx
    obtain ⟨ret, hret, htemp⟩ := List.mem_filterMap.mp hx
    obtain ⟨ib, hib, hmem⟩ := instrAt_mem hf hii
    obtain ⟨y, hy, hytemp⟩ := hlegal.results ib hib _ hmem ret hret
    rw [htemp] at hy
    rw [Option.some.inj hy]
    exact hytemp

theorem movedValue_some {cls : InstrClass} {value : ValueType} (h : movedValue cls = some value) :
    cls = .move value := by
  unfold movedValue at h
  split at h
  · rw [Option.some.inj h]
  · cases h

theorem moveAt_some {a : Addr} {m : Addr × Move n} (h : F.moveAt f a = some m) :
    m.1 = a ∧ ∃ ii value, instrAt f a = some ii ∧ ii.instr.cls = .move value
      ∧ m.2.src = F.tempOf value.value
      ∧ ∀ y, m.2.dst = some y → ∃ ret, ii.instr.rets = [ret] ∧ F.tempOf ret.value = some y := by
  obtain ⟨ii, hii, h⟩ := Option.bind_eq_some_iff.mp h
  obtain ⟨value, hvalue, rfl⟩ := Option.map_eq_some_iff.mp h
  refine ⟨rfl, ii, value, hii, movedValue_some hvalue, rfl, fun y hy => ?_⟩
  change F.singleRet ii.instr.rets = some y at hy
  unfold singleRet at hy
  split at hy
  · rename_i ret hrets
    exact ⟨ret, hrets, hy⟩
  · cases hy

theorem ok_bind {α β : Type} (x : α) (g : α → Except Stop β) :
    ((.ok x : Except Stop α) >>= g) = g x := rfl

end

/-! ## The places -/

/-- What the places of the values are good for. -/
structure Valid (f : List (List LiveInstr)) (sets : LiveSets) (A : Allocation n) : Prop where
  slots : ∀ x, F.slots (A.names x) = F.slots x
  total : ∀ x, F.IsTemporary x → ∃ p, A.placeOf x = some p ∧ p.words = F.slots x
    ∧ p.Within F.regframeSize A.regframeSize
  /-- A result is apart from what is live behind the instruction, but for the operand of a move. -/
  apart : ∀ a ∈ addrs f, ∀ x ∈ F.results f a, ∀ y, F.IsTemporary y → F.ffv + y ∈ sets.out a →
    y ≠ x → (y : ℤ) ≠ F.moved f a →
    ∀ p q, A.placeOf x = some p → A.placeOf y = some q → p.Apart q
  shared : ∀ x y, F.IsTemporary x → F.IsTemporary y →
    ∀ p q, A.placeOf x = some p → A.placeOf y = some q → p.Apart q ∨ p = q
  own : ∀ x, F.IsTemporary x → F.IsArgument x → A.names x = x
  /-- The argument of a call is apart from all that has not been merged with it. -/
  argument : ∀ x y, F.IsTemporary x → F.IsTemporary y → F.IsArgument x → A.names y ≠ x →
    ∀ p q, A.placeOf x = some p → A.placeOf y = some q → p.Apart q
  destroyed : ∀ a ∈ A.destroyed, ∃ ii value ret x y, instrAt f a = some ii
    ∧ ii.instr.cls = .move value ∧ ii.instr.rets = [ret] ∧ F.tempOf value.value = some x
    ∧ F.tempOf ret.value = some y ∧ F.IsTemporary x ∧ A.names x = A.names y

section
variable {F} {f : List (List LiveInstr)}

theorem definitions_ends (hlegal : F.Legal) (hf : prepare F.iu F.ffv F.bbs = .ok f)
    (sets : LiveSets) : ∃ ds, (addrs f).mapM (F.definitionAt f sets) = .ok ds
      ∧ ∀ a ∈ addrs f, (⟨F.results f a, F.moved f a,
        fun x => decide (F.ffv + x ∈ sets.out a)⟩ : Definition n) ∈ ds := by
  have hone : ∀ a ∈ addrs f, ∃ d, F.definitionAt f sets a = .ok d := by
    intro a ha
    obtain ⟨ii, hii⟩ := Option.isSome_iff_exists.mp (mem_addrs.mp ha)
    obtain ⟨ib, hib, hmem⟩ := instrAt_mem hf hii
    obtain ⟨xs, hxs⟩ : ∃ xs, ii.instr.rets.mapM F.retOf = .ok xs := by
      refine RelatedLists.exists_mapM fun ret hret => ?_
      obtain ⟨x, hx, -⟩ := hlegal.results ib hib _ hmem ret hret
      refine ⟨x, ?_⟩
      unfold retOf
      rw [hx]
    unfold definitionAt
    rw [hii]
    dsimp only
    rw [hxs]
    exact ⟨_, rfl⟩
  obtain ⟨ds, hds⟩ := RelatedLists.exists_mapM hone
  refine ⟨ds, hds, fun a ha => ?_⟩
  obtain ⟨d, hd, hrun⟩ := RelatedLists.mem_forall₂ (RelatedLists.forall₂_mapM hds) ha
  rw [← definitionAt_ok hrun]
  exact hd

theorem moves_alike (hlegal : F.Legal) (hf : prepare F.iu F.ffv F.bbs = .ok f) :
    ∀ m ∈ (addrs f).filterMap (F.moveAt f), ∀ x ∈ m.2.src, ∀ y ∈ m.2.dst,
      F.slots x = F.slots y := by
  intro m hm x hx y hy
  obtain ⟨a, -, hmove⟩ := List.mem_filterMap.mp hm
  obtain ⟨-, ii, value, hii, hcls, hsrc, hdst⟩ := moveAt_some hmove
  obtain ⟨ret, hrets, hret⟩ := hdst y hy
  obtain ⟨ib, hib, hmem⟩ := instrAt_mem hf hii
  have hresult : ret ∈ ii.instr.rets := hrets ▸ List.mem_singleton_self ret
  rcases hlegal.moves ib hib _ hmem value hcls x (hsrc ▸ hx) with
    ⟨ret', z, hrets', hz, hslots⟩ | ⟨-, hmany, -⟩
  · obtain rfl : ret = ret' := List.singleton_inj.mp (hrets.symm.trans hrets')
    rw [Option.some.inj (hret.symm.trans hz)]
    exact hslots.symm
  · rw [hrets] at hmany
    exact absurd rfl hmany

/-- Without the JIT the allocation comes to its end, and the places are good whatever the JIT has
marked. -/
theorem coalesceAndColour_valid (hlegal : F.Legal) (hf : prepare F.iu F.ffv F.bbs = .ok f)
    (sets : LiveSets) : (F.jit = none → ∃ A, F.coalesceAndColour f sets = .ok A)
      ∧ ∀ A, F.coalesceAndColour f sets = .ok A → F.Valid f sets A := by
  have hn := hlegal.small
  obtain ⟨ds, hds, hmem⟩ := definitions_ends hlegal hf sets
  obtain ⟨s, hbuild, -⟩ := buildMatrix_counted hn F.fresh ds
  obtain ⟨-, hedges⟩ := buildMatrix_grows hn hbuild
  have hstart := buildMatrix_keeps hn hbuild
  have hdst : ∀ m ∈ (addrs f).filterMap (F.moveAt f), ∀ y, m.2.dst = some y →
      (F.fresh.values y).cls = .temporary := by
    intro m hm y hy
    obtain ⟨a, -, hmove⟩ := List.mem_filterMap.mp hm
    obtain ⟨-, ii, value, hii, -, -, hrets⟩ := moveAt_some hmove
    obtain ⟨ret, hrets, hret⟩ := hrets y hy
    obtain ⟨ib, hib, hii⟩ := instrAt_mem hf hii
    obtain ⟨z, hz, htemp⟩ :=
      hlegal.results ib hib _ hii ret (hrets ▸ List.mem_singleton_self ret)
    rw [Option.some.inj (hret.symm.trans hz)]
    exact htemp
  obtain ⟨p, hmerges⟩ := coalesceFunction_ends hn hstart hdst
  obtain ⟨hkeeps, hkind, hgone⟩ :=
    coalesceFunction_keeps hn hstart (moves_alike hlegal hf) hmerges
  -- what is left is a temporary, of the type and the precolour that it had
  have hold : ∀ x, (p.state.values x).cls = .temporary → F.IsTemporary x :=
    fun x hx => (hkeeps.own x hx).1
  have hslots : ∀ x, (p.state.values x).cls = .temporary →
      PrepareCall.valueRegframeSlots F.iu (p.state.values x).type = .ok (F.slots x) := by
    intro x hx
    rw [hkeeps.type x]
    exact F.slots_ok (hlegal.typed x (hold x hx))
  have hpre : ∀ x, (p.state.values x).precolored ≠ -1 ↔ F.IsArgument x := by
    intro x
    rw [hkeeps.precolored x, ← F.precolored_iff x, ← F.valueOf_precolored x]
    rfl
  have halive : ∀ x, F.IsTemporary x → (p.state.values (p.names x)).cls = .temporary :=
    hkeeps.alive
  have hplaces (marks : Fin n → Bool) (hmarks : F.marked p = .ok marks) :
      ∃ A, F.coalesceAndColour f sets = .ok A ∧ F.Valid f sets A := by
    obtain ⟨vi, hvi⟩ := vertices_ends marks hslots
    obtain ⟨colors, hcolors, hplaced⟩ := callArgPlaces_placed hn hkeeps.merged hvi
      (F.qsort_perm vi) hslots hpre (fun x hx => (hlegal.arguments x ((hpre x).mp hx)).2)
      F.regframeSize
    let places := callArgPlaces F.callArgBase F.numCallArgs
      (regAllocPlaces (F.qsort vi) colors F.regframeSize)
    refine ⟨⟨p.names, p.destroyed, places.1, places.2⟩, ?_, ?_⟩
    · unfold coalesceAndColour
      rw [hds, ok_bind, hbuild, ok_bind, hmerges, ok_bind, hmarks, ok_bind, hvi, ok_bind,
        hcolors, ok_bind]
      rfl
    constructor
    · exact hkind
    · intro x hx
      obtain ⟨q, hq, hwords, hwithin⟩ := hplaced.total _ (halive x hx)
      exact ⟨q, hq, hwords.trans (hkind x), hwithin⟩
    · intro a ha x hx y hy hout hne hmoved q r hq hr
      have hadj := hedges _ (hmem a ha) x hx y (decide_eq_true hout) hne hmoved
      exact hplaced.apart _ _ q r (halive x (hlegal.result hf hx)) (halive y hy) hq hr
        (hkeeps.adj x y (hlegal.result hf hx) hy hadj)
    · intro x y hx hy q r hq hr
      exact hplaced.shared _ _ q r (halive x hx) (halive y hy) hq hr
    · intro x hx harg
      exact hkeeps.argument x hx (by rw [← hkeeps.precolored]; exact (hpre x).mpr harg)
    · intro x y hx hy harg hne q r hq hr
      have hown : p.names x = x :=
        hkeeps.argument x hx (by rw [← hkeeps.precolored]; exact (hpre x).mpr harg)
      refine hplaced.argument _ _ q r (halive x hx) (halive y hy) hq hr ?_ ?_
      · rw [hown]
        exact (hpre x).mpr harg
      · rw [hown]
        exact hne
    · intro a ha
      obtain ⟨m, hm, x, y, hsrc, hdst, htemp, hnames⟩ := hgone a ha
      obtain ⟨b, -, hmove⟩ := List.mem_filterMap.mp hm
      obtain ⟨hb, ii, value, hii, hcls, hvalue, hrets⟩ := moveAt_some hmove
      obtain rfl : a = b := hb
      obtain ⟨ret, hrets, hret⟩ := hrets y hdst
      exact ⟨ii, value, ret, x, y, hii, hcls, hrets, hvalue.symm.trans hsrc, hret, htemp, hnames⟩
  constructor
  · intro hjit
    obtain ⟨A, hA, -⟩ := hplaces (fun _ => false) (by rw [marked, hjit])
    exact ⟨A, hA⟩
  · intro A hA
    cases hmarks : F.marked p with
    | ok marks =>
      obtain ⟨A', hA', hvalid⟩ := hplaces marks hmarks
      rw [← Except.ok.inj (hA'.symm.trans hA)]
      exact hvalid
    | error stop =>
      unfold coalesceAndColour at hA
      rw [hds, ok_bind, hbuild, ok_bind, hmerges, ok_bind, hmarks] at hA
      cases hA

/-- What the first call of `liveness_update` has made when it ends. -/
theorem livenessUpdate_live (hcfg : ControlFlow f) {fuel : ℕ} {sets : LiveSets}
    (h : livenessUpdate f fuel callocSets = .ok sets) : Live (problem f hcfg) sets := by
  obtain ⟨k, hk, hround⟩ := run_some ((livenessUpdate_ok hcfg).mp h)
  have hsolution := solution_of_round _ hround
  have hnothing {v : ℕ} {m : ℕ} {p : Addr} (hcarried : Carried (problem f hcfg) callocSets v m p) :
      False := by
    induction hcarried with
    | start hv => exact absurd hv (Finset.notMem_empty v)
    | old _ _ _ ih => exact ih
    | new _ _ _ ih => exact ih
  have hinto : ∀ p ∈ (problem f hcfg).nodes, ∀ v,
      v ∈ sets.into p ↔ LiveIn (problem f hcfg) v p := by
    intro p hp v
    constructor
    · intro hv
      rw [hk] at hv
      exact (live_or_carried k hp hv).resolve_right hnothing
    · exact fun hlive => hlive.mem_of_solution hsolution hp
  refine fun p hp => ⟨fun v => ?_, hinto p hp⟩
  rw [(hsolution p hp).1, mem_join]
  exact exists_congr fun q => and_congr_right fun hq =>
    hinto q ((problem f hcfg).closed p hp q hq) v

theorem isTemporary_iff (x : Fin n) : F.IsTemporary x ↔
    ∃ iv, F.iu.values[F.ffv + x]? = some iv ∧ iv.cls = .temporary := by
  unfold IsTemporary valueOf
  cases hiv : F.iu.values[F.ffv + x]? with
  | none =>
    constructor
    · intro hcls
      cases hcls
    · rintro ⟨iv, hsome, -⟩
      cases hsome
  | some iv =>
    constructor
    · exact fun hcls => ⟨iv, rfl, hcls⟩
    · rintro ⟨iv', hsome, hcls⟩
      rw [Option.some.inj hsome]
      exact hcls

theorem isTemporary_of_wanted {x : Fin n} {a : Addr} (h : Wanted F.iu F.bbs (F.ffv + x) a) :
    F.IsTemporary x := by
  induction h with
  | use huses =>
    obtain ⟨-, -, -, iv, -, -, -, -, hiv, hcls⟩ := huses
    exact (isTemporary_iff x).mpr ⟨iv, hiv, hcls⟩
  | step _ _ _ ih => exact ih

theorem moved_value {a : Addr} {ii : LiveInstr} {y : Fin n} (hii : instrAt f a = some ii)
    (h : (y : ℤ) = F.moved f a) :
    ∃ value, ii.instr.cls = .move value ∧ F.tempOf value.value = some y := by
  unfold moved movedOperand at h
  rw [hii] at h
  change (y : ℤ) = (movedValue ii.instr.cls).elim (-1) _ at h
  cases hvalue : movedValue ii.instr.cls with
  | none =>
    rw [hvalue] at h
    change (y : ℤ) = -1 at h
    omega
  | some value =>
    rw [hvalue] at h
    change (y : ℤ) = (value.value : ℤ) - F.ffv at h
    have hy := y.isLt
    refine ⟨value, movedValue_some hvalue, ?_⟩
    unfold tempOf
    rw [dif_pos (by omega)]
    exact congrArg some (Fin.ext (by change value.value - F.ffv = y; omega))

theorem mem_results_of_kill {hcfg : ControlFlow f} {a : Addr} {y : Fin n}
    (h : F.ffv + y ∈ (problem f hcfg).kill a) : y ∈ F.results f a := by
  change F.ffv + (y : ℕ) ∈ (instrAt f a).elim ∅ _ at h
  unfold results
  cases hii : instrAt f a with
  | none =>
    rw [hii] at h
    exact absurd h (Finset.notMem_empty _)
  | some ii =>
    rw [hii] at h
    obtain ⟨ret, hret, hvalue⟩ := List.mem_map.mp (List.mem_toFinset.mp h)
    refine List.mem_filterMap.mpr ⟨ret, hret, ?_⟩
    have hy := y.isLt
    unfold tempOf
    rw [dif_pos (by omega)]
    exact congrArg some (Fin.ext (by change ret.value - F.ffv = y; omega))

theorem mem_addrs_of_liveIn {hcfg : ControlFlow f} {a : Addr} {v : ℕ}
    (h : LiveIn (problem f hcfg) v a) : a ∈ addrs f := by
  rw [mem_addrs]
  cases hii : instrAt f a with
  | some ii => rfl
  | none =>
    cases h with
    | use hgen =>
      change v ∈ (instrAt f a).elim ∅ LiveInstr.gen at hgen
      rw [hii] at hgen
      exact absurd hgen (Finset.notMem_empty v)
    | @step _ q hstep _ =>
      have hq : q ∈ successors f a := hstep.1
      unfold successors at hq
      rw [hii] at hq
      exact absurd hq List.not_mem_nil

theorem livenessAnalysis_ok (hf : prepare F.iu F.ffv F.bbs = .ok f) {fuel : ℕ} {A : Allocation n} :
    F.livenessAnalysis fuel = .ok A ↔
      ∃ sets, livenessUpdate f fuel callocSets = .ok sets ∧ F.coalesceAndColour f sets = .ok A := by
  unfold livenessAnalysis
  rw [hf]
  change ((livenessUpdate f fuel callocSets).mapError Stop.fault >>= _) = _ ↔ _
  cases livenessUpdate f fuel callocSets with
  | error e =>
    constructor
    · intro h
      cases h
    · rintro ⟨sets, h, -⟩
      cases h
  | ok sets =>
    constructor
    · exact fun h => ⟨sets, rfl, h⟩
    · rintro ⟨sets', h, hA⟩
      rw [Except.ok.inj h]
      exact hA

theorem livenessAnalysis_ends (hlegal : F.Legal) (hlowered : F.Lowered) (hjit : F.jit = none) :
    ∃ fuel A, F.livenessAnalysis fuel = .ok A := by
  obtain ⟨f, hf, hcfg⟩ := hlowered.prepared
  obtain ⟨fuel, sets, hsets, -⟩ := livenessUpdate_calloc hcfg
  obtain ⟨A, hA⟩ := (coalesceAndColour_valid hlegal hf sets).1 hjit
  exact ⟨fuel, A, (livenessAnalysis_ok hf).mpr ⟨sets, hsets, hA⟩⟩

end

end Body

/-! ### A function with two values at once -/

end Vmir.RegAlloc
