import Vmir.DeadCode
import Vmir.Liveness
import Vmir.ProgramText

set_option autoImplicit false

/-!
# What `liveness_update` computes

The loop is the round-by-round solution of the liveness equations, so what it makes of the sets that
it finds is the set of the live values exactly if nothing that is not live any more is left round a
loop of the function.
-/
namespace Vmir.LivenessExact
open Ir IrTypes BackwardDataflow Liveness ProgramText

theorem foldl_erase (rets : List ValueType) (o : Finset ℕ) :
    rets.foldl (fun newIn ret => newIn.erase ret.value) o
      = o \ (rets.map ValueType.value).toFinset := by
  induction rets generalizing o with
  | nil => exact Finset.sdiff_empty.symm
  | cons ret rets ih =>
    rw [List.foldl_cons, ih, List.map_cons, List.toFinset_cons]
    apply Finset.ext
    intro v
    simp only [Finset.mem_sdiff, Finset.mem_erase, Finset.mem_insert]
    tauto

section
variable {f : List (List LiveInstr)}

theorem branches_eq (s : LiveSets) {succ : List (Option ℕ)}
    (h : ∀ ib ∈ succ, ∃ b, ib = some b ∧ (instrAt f (b, 0)).isSome) :
    (succ.foldlM (fun o ib => do
      let succ ← firstInstr f ib
      .ok (o ∪ s.into succ)) ∅ : Except Fault (Finset ℕ))
    = .ok (join (succ.filterMap fun ib => ib.map fun b => (b, 0)) s.into) := by
  have hfold : ∀ o : Finset ℕ, (succ.foldlM (fun o ib => do
      let succ ← firstInstr f ib
      .ok (o ∪ s.into succ)) o : Except Fault (Finset ℕ))
      = .ok ((succ.filterMap fun ib => ib.map fun b => (b, 0)).foldl
        (fun o q => o ∪ s.into q) o) := by
    induction succ with
    | nil => exact fun _ => rfl
    | cons ib succ ih =>
      intro o
      obtain ⟨b, rfl, hsome⟩ := h ib List.mem_cons_self
      have hfirst : firstInstr f (some b) = .ok (b, 0) := if_pos hsome
      rw [List.foldlM_cons, hfirst]
      exact ih (fun ib hib => h ib (List.mem_cons_of_mem _ hib)) _
  exact hfold ∅

variable (hcfg : ControlFlow f)
include hcfg

theorem liveBehind_eq (s : LiveSets) {a : Addr} {ii : LiveInstr} (hii : instrAt f a = some ii) :
    liveBehind f s a ii = .ok (join (successors f a) s.into) := by
  have hbranches := branches_eq s fun ib (hib : ib ∈ ii.succ.take ii.numSucc.toNat) =>
    hcfg.branch hii (List.mem_of_mem_take hib)
  unfold liveBehind successors
  rw [hii]
  cases hnext : nextInstr f a with
  | none => exact hbranches
  | some succ =>
    by_cases hnum : ii.numSucc = -1
    · simp only [if_pos hnum]
      change Except.ok (s.into succ) = .ok (∅ ∪ s.into succ)
      rw [Finset.empty_union]
    · simp only [if_neg hnum]
      exact hbranches

theorem visit_eq (s : LiveSets) {a : Addr} {ii : LiveInstr} (hii : instrAt f a = some ii) :
    visit (problem f hcfg) s a = ⟨Function.update s.out a (join (successors f a) s.into),
      Function.update s.into a (ii.instr.rets.foldl (fun newIn ret => newIn.erase ret.value)
        (join (successors f a) s.into) ∪ ii.gen)⟩ := by
  rw [foldl_erase]
  unfold visit problem
  simp only [hii, Option.elim_some]

theorem updateInstr_eq (s : LiveSets) (stable : Bool) {a : Addr} (ha : a ∈ addrs f) :
    updateInstr f (s, stable) a = .ok (visit (problem f hcfg) s a,
      stable && decide ((visit (problem f hcfg) s a).out a = s.out a
        ∧ (visit (problem f hcfg) s a).into a = s.into a)) := by
  obtain ⟨ii, hii⟩ := Option.isSome_iff_exists.mp (mem_addrs.mp ha)
  unfold updateInstr
  rw [hii, visit_eq hcfg s hii]
  change (liveBehind f s a ii >>= fun o => _) = _
  rw [liveBehind_eq hcfg s hii, ok_bind]
  generalize join (successors f a) s.into = o
  generalize ii.instr.rets.foldl (fun newIn ret => newIn.erase ret.value) o ∪ ii.gen = i
  simp only [Function.update_self]
  by_cases hsame : s.out a = o ∧ s.into a = i
  · obtain ⟨rfl, rfl⟩ := hsame
    simp only [Function.update_eq_self, and_self, if_true, decide_true, Bool.and_true]
  · have hsame' : ¬ (o = s.out a ∧ i = s.into a) := fun h => hsame ⟨h.1.symm, h.2.symm⟩
    rw [if_neg hsame, decide_eq_false hsame', Bool.and_false]

theorem foldlM_updateInstr (s : LiveSets) (stable : Bool) {l : List Addr} (hl : l.Nodup)
    (hmem : ∀ a ∈ l, a ∈ addrs f) :
    l.foldlM (updateInstr f) (s, stable) = .ok (l.foldl (visit (problem f hcfg)) s,
      stable && decide (∀ a ∈ l, (l.foldl (visit (problem f hcfg)) s).out a = s.out a
        ∧ (l.foldl (visit (problem f hcfg)) s).into a = s.into a)) := by
  induction l generalizing s stable with
  | nil => simp [pure, Except.pure]
  | cons a l ih =>
    obtain ⟨ha, hl⟩ := List.nodup_cons.mp hl
    rw [List.foldlM_cons, updateInstr_eq hcfg s stable (hmem a List.mem_cons_self), ok_bind,
      ih _ _ hl fun b hb => hmem b (List.mem_cons_of_mem _ hb), List.foldl_cons]
    -- the rest of the round leaves `a` alone, and `a` the rest
    obtain ⟨hout, hinto⟩ := foldl_visit_of_notMem (problem f hcfg) ha (visit (problem f hcfg) s a)
    have hrest : ∀ b ∈ l, (visit (problem f hcfg) s a).out b = s.out b
        ∧ (visit (problem f hcfg) s a).into b = s.into b := by
      intro b hb
      have hne : b ≠ a := fun h => ha (h ▸ hb)
      exact ⟨Function.update_of_ne hne _ _, Function.update_of_ne hne _ _⟩
    rw [Bool.and_assoc, ← Bool.decide_and]
    congr 4
    rw [List.forall_mem_cons, hout, hinto]
    refine propext (and_congr_right fun _ => forall₂_congr fun b hb => ?_)
    rw [(hrest b hb).1, (hrest b hb).2]

theorem updateRound_eq (s : LiveSets) :
    updateRound f s = .ok (round (problem f hcfg) s, decide (Settled (problem f hcfg) s)) := by
  have hmem : ∀ a ∈ (addrs f).reverse, a ∈ addrs f := fun a ha => List.mem_reverse.mp ha
  have hfold := foldlM_updateInstr hcfg s true (problem f hcfg).nodup hmem
  rw [Bool.true_and] at hfold
  exact hfold

theorem livenessUpdate_eq (fuel : ℕ) (s : LiveSets) :
    livenessUpdate f fuel s = match run (problem f hcfg) fuel s with
      | some r => .ok r
      | none => .error .outOfFuel := by
  induction fuel generalizing s with
  | zero => rfl
  | succ fuel ih =>
    unfold livenessUpdate run
    rw [updateRound_eq hcfg, ok_bind]
    by_cases hsettled : Settled (problem f hcfg) s
    · simp only [hsettled, decide_true, if_true]
    · simp only [hsettled, decide_false, if_false]
      exact ih _

theorem livenessUpdate_ok {fuel : ℕ} {s r : LiveSets} :
    livenessUpdate f fuel s = .ok r ↔ run (problem f hcfg) fuel s = some r := by
  rw [livenessUpdate_eq hcfg]
  cases run (problem f hcfg) fuel s with
  | none =>
    constructor
    · exact fun h => nomatch h
    · exact fun h => nomatch h
  | some r' =>
    constructor
    · exact fun h => congrArg some (Except.ok.inj h)
    · exact fun h => congrArg Except.ok (Option.some.inj h)

end

/-! ### Uses, redefinitions and paths of a function -/

def sourceInstr (bbs : List Bb) (a : Addr) : Option Instr :=
  bbs[a.1]?.bind fun ib => ib.instrs[a.2]?

/-- The instruction has the temporary among the operands that it reads. -/
def Uses (iu : IrUnit) (bbs : List Bb) (v : ℕ) (a : Addr) : Prop :=
  ∃ ii values vt iv, sourceInstr bbs a = some ii ∧ genValues ii.cls = .ok values ∧ vt ∈ values
    ∧ vt.value = v ∧ iu.values[v]? = some iv ∧ iv.cls = .temporary

/-- The instruction has the value among its results, of which there may be several. -/
def Redefines (bbs : List Bb) (v : ℕ) (a : Addr) : Prop :=
  ∃ ii ret, sourceInstr bbs a = some ii ∧ ret ∈ ii.rets ∧ ret.value = v

/-- The blocks an instruction branches to; none where control goes on to the next instruction. -/
def branchTargets : InstrClass → Option (List ℕ)
  | .ret _ | .unreachable | .resume _ => some []
  | .switch _ defblock paths => some (defblock :: paths.map Path.block)
  | .br none trueBranch _ => some [trueBranch]
  | .br (some _) trueBranch falseBranch => some [trueBranch, falseBranch]
  | .cmpBranch _ _ _ trueBranch falseBranch => some [trueBranch, falseBranch]
  | .invoke _ normalDest unwindDest _ => some [normalDest, unwindDest]
  | _ => none

def Flows (bbs : List Bb) (a q : Addr) : Prop :=
  ∃ ii, sourceInstr bbs a = some ii ∧ match branchTargets ii.cls with
    | none => q = (a.1, a.2 + 1) ∧ (sourceInstr bbs q).isSome
    | some blocks => ∃ id ∈ blocks, ∃ b, bbFind bbs id = some b ∧ q = (b, 0)

/-- Some control-flow path from the instruction on reaches a use before a redefinition. -/
inductive Wanted (iu : IrUnit) (bbs : List Bb) (v : ℕ) : Addr → Prop
  | use {a : Addr} : Uses iu bbs v a → Wanted iu bbs v a
  | step {a q : Addr} : ¬ Redefines bbs v a → Flows bbs a q → Wanted iu bbs v q →
      Wanted iu bbs v a

theorem mapM_get {α β : Type} {g : α → Except Fault β} {l : List α} {l' : List β}
    (h : l.mapM g = .ok l') (i : ℕ) :
    (l[i]? = none ∧ l'[i]? = none) ∨ ∃ x y, l[i]? = some x ∧ l'[i]? = some y ∧ g x = .ok y := by
  induction l generalizing l' i with
  | nil =>
    cases Except.ok.inj h
    exact .inl ⟨rfl, rfl⟩
  | cons x l ih =>
    rw [List.mapM_cons, bind_ok] at h
    obtain ⟨y, hy, h⟩ := h
    obtain ⟨ys, hys, h⟩ := (bind_ok).mp h
    cases Except.ok.inj h
    cases i with
    | zero => exact .inr ⟨x, y, rfl, rfl, hy⟩
    | succ i => exact ih hys i

theorem livenessSetSucc_ok {bbs : List Bb} {cls : InstrClass} {n : ℤ} {succ : List (Option ℕ)}
    (h : livenessSetSucc bbs cls = .ok (n, succ)) :
    match branchTargets cls with
    | none => n = -1 ∧ succ = []
    | some blocks => n = blocks.length ∧ succ = blocks.map (bbFind bbs) := by
  have hbranch : ∀ {blocks}, branchTo bbs blocks = .ok (n, succ) →
      n = blocks.length ∧ succ = blocks.map (bbFind bbs) := by
    intro blocks h
    unfold branchTo at h
    simp only at h
    split at h
    · exact nomatch h
    · next hfits =>
      obtain ⟨rfl, rfl⟩ := Prod.mk.inj (Except.ok.inj h)
      have hle : (BitVec.ofNat 16 blocks.length).toInt ≤ (blocks.length % 2 ^ 16 : ℕ) := by
        rw [BitVec.toInt_eq_toNat_cond, BitVec.toNat_ofNat]
        split <;> omega
      have hmod := Nat.mod_le blocks.length (2 ^ 16)
      exact ⟨by omega, rfl⟩
  cases cls
  case br condition trueBranch falseBranch => cases condition <;> exact hbranch h
  case switch | cmpBranch | invoke => exact hbranch h
  case gep | phi | insertval => exact nomatch h
  all_goals
    obtain ⟨rfl, rfl⟩ := Prod.mk.inj (Except.ok.inj h)
    exact ⟨rfl, rfl⟩

theorem foldlM_livenessSetValue {iu : IrUnit} {ffv : ℕ} {values : List ValueType}
    {bs gen : Finset ℕ} (h : values.foldlM (livenessSetValue iu ffv) bs = .ok gen) (v : ℕ) :
    v ∈ gen ↔ v ∈ bs ∨ ∃ vt ∈ values, vt.value = v
      ∧ ∃ iv, iu.values[v]? = some iv ∧ iv.cls = .temporary := by
  induction values generalizing bs with
  | nil =>
    cases Except.ok.inj h
    simp
  | cons vt values ih =>
    rw [List.foldlM_cons, bind_ok] at h
    obtain ⟨bs', hbs', h⟩ := h
    rw [ih h]
    simp only [List.mem_cons, exists_eq_or_imp]
    rw [← or_assoc]
    apply or_congr_left
    unfold livenessSetValue at hbs'
    split at hbs'
    · exact nomatch hbs'
    · next iv hiv =>
      split at hbs'
      · next hcls =>
        cases Except.ok.inj hbs'
        refine (or_iff_left ?_).symm
        rintro ⟨rfl, iv', hiv', htemp⟩
        rw [hiv] at hiv'
        cases Option.some.inj hiv'
        exact hcls htemp
      · next hcls =>
        split at hbs'
        · exact nomatch hbs'
        · cases Except.ok.inj hbs'
          rw [Finset.mem_insert, or_comm, eq_comm]
          refine or_congr_right (iff_self_and.mpr ?_)
          rintro rfl
          exact ⟨iv, hiv, not_not.mp hcls⟩

section
variable {iu : IrUnit} {ffv : ℕ} {bbs : List Bb} {f : List (List LiveInstr)}

/-- What `liveness_analysis` has given the instruction at each address. -/
theorem prepare_at (h : prepare iu ffv bbs = .ok f) (a : Addr) :
    (sourceInstr bbs a = none ∧ instrAt f a = none) ∨ ∃ ii li, sourceInstr bbs a = some ii
      ∧ instrAt f a = some li ∧ li.instr = ii ∧ livenessSetGen iu ffv ii.cls = .ok li.gen
      ∧ livenessSetSucc bbs ii.cls = .ok (li.numSucc, li.succ) := by
  unfold sourceInstr instrAt
  rcases mapM_get h a.1 with ⟨hbb, hbb'⟩ | ⟨ib, is, hbb, hbb', his⟩
  · rw [hbb, hbb']
    exact .inl ⟨rfl, rfl⟩
  · rw [hbb, hbb', Option.bind_some, Option.bind_some]
    rcases mapM_get his a.2 with hnone | ⟨ii, li, hii, hli, hok⟩
    · exact .inl hnone
    · obtain ⟨gen, hgen, hok⟩ := bind_ok.mp hok
      obtain ⟨⟨numSucc, succ⟩, hsucc, hok⟩ := bind_ok.mp hok
      cases Except.ok.inj hok
      exact .inr ⟨ii, _, hii, hli, rfl, hgen, hsucc⟩

variable (h : prepare iu ffv bbs = .ok f)
include h

theorem sourceInstr_isSome {a : Addr} :
    (sourceInstr bbs a).isSome ↔ (instrAt f a).isSome := by
  rcases prepare_at h a with ⟨hii, hli⟩ | ⟨ii, li, hii, hli, -⟩
  all_goals
    rw [hii, hli]
    exact Iff.rfl

variable {hcfg : ControlFlow f}

theorem mem_gen {v : ℕ} {a : Addr} : v ∈ (problem f hcfg).gen a ↔ Uses iu bbs v a := by
  unfold problem Uses
  rcases prepare_at h a with ⟨hii, hli⟩ | ⟨ii, li, hii, hli, -, hgen, -⟩
  · simp [hii, hli]
  · obtain ⟨values, hvalues, hfold⟩ := bind_ok.mp hgen
    simp only [hli, Option.elim_some]
    rw [foldlM_livenessSetValue hfold v]
    constructor
    · rintro (hv | ⟨vt, hvt, heq, iv, hiv, htemp⟩)
      · exact absurd hv (Finset.notMem_empty v)
      · exact ⟨ii, values, vt, iv, hii, hvalues, hvt, heq, hiv, htemp⟩
    · rintro ⟨ii', values', vt, iv, hii', hvalues', hvt, heq, hiv, htemp⟩
      cases Option.some.inj (hii.symm.trans hii')
      cases Except.ok.inj (hvalues.symm.trans hvalues')
      exact .inr ⟨vt, hvt, heq, iv, hiv, htemp⟩

theorem mem_kill {v : ℕ} {a : Addr} : v ∈ (problem f hcfg).kill a ↔ Redefines bbs v a := by
  unfold problem Redefines
  rcases prepare_at h a with ⟨hii, hli⟩ | ⟨ii, li, hii, hli, rfl, -⟩
  all_goals simp [hii, hli]

theorem mem_succ {a q : Addr} : q ∈ (problem f hcfg).succ a ↔ Flows bbs a q := by
  change q ∈ successors f a ↔ _
  unfold successors Flows
  rcases prepare_at h a with ⟨hii, hli⟩ | ⟨ii, li, hii, hli, -, -, hsucc⟩
  · simp [hii, hli]
  · have hset := livenessSetSucc_ok hsucc
    simp only [hli, hii, Option.some.injEq, exists_eq_left']
    cases htargets : branchTargets ii.cls with
    | none =>
      rw [htargets] at hset
      obtain ⟨hnum, hempty⟩ := hset
      rw [hnum, hempty]
      unfold nextInstr
      by_cases hnext : (instrAt f (a.1, a.2 + 1)).isSome
      · rw [if_pos hnext]
        refine List.mem_singleton.trans (iff_self_and.mpr ?_)
        rintro rfl
        exact (sourceInstr_isSome h).mpr hnext
      · rw [if_neg hnext]
        refine iff_of_false (List.not_mem_nil) ?_
        rintro ⟨rfl, hsome⟩
        exact hnext ((sourceInstr_isSome h).mp hsome)
    | some blocks =>
      rw [htargets] at hset
      obtain ⟨hnum, hblocks⟩ := hset
      have hbranches : (li.succ.take li.numSucc.toNat).filterMap
          (fun ib => ib.map fun b => (b, 0)) = blocks.filterMap
          fun id => (bbFind bbs id).map fun b => (b, 0) := by
        rw [hnum, hblocks, Int.toNat_natCast, List.take_of_length_le (by rw [List.length_map]),
          List.filterMap_map]
        rfl
      have hne : ¬ li.numSucc = -1 := by omega
      have hmem : q ∈ blocks.filterMap (fun id => (bbFind bbs id).map fun b => (b, 0)) ↔
          ∃ id ∈ blocks, ∃ b, bbFind bbs id = some b ∧ q = (b, 0) := by
        rw [List.mem_filterMap]
        refine exists_congr fun id => and_congr_right fun _ => ?_
        rw [Option.map_eq_some_iff]
        exact exists_congr fun b => and_congr_right fun _ => eq_comm
      rw [hbranches]
      cases nextInstr f a with
      | none => exact hmem
      | some succ =>
        simp only [if_neg hne]
        exact hmem

theorem liveIn_iff_wanted {v : ℕ} {a : Addr} :
    LiveIn (problem f hcfg) v a ↔ Wanted iu bbs v a := by
  constructor
  · intro hlive
    induction hlive with
    | use hgen => exact .use ((mem_gen h).mp hgen)
    | step hstep _ ih =>
      exact .step (fun hdef => hstep.2 ((mem_kill h).mpr hdef)) ((mem_succ h).mp hstep.1) ih
  · intro hwanted
    induction hwanted with
    | use huses => exact .use ((mem_gen h).mpr huses)
    | step hdef hflows _ ih =>
      exact .step ⟨(mem_succ h).mpr hflows, fun hkill => hdef ((mem_kill h).mp hkill)⟩ ih

end

theorem livenessUpdate_live_iff {f : List (List LiveInstr)} (hcfg : ControlFlow f) (s : LiveSets) :
    (∃ fuel r, livenessUpdate f fuel s = .ok r ∧ Live (problem f hcfg) r)
      ↔ ¬ Leftover (problem f hcfg) s := by
  rw [← run_live_iff]
  refine exists_congr fun fuel => exists_congr fun r => ?_
  rw [livenessUpdate_ok hcfg]

theorem livenessUpdate_calloc {f : List (List LiveInstr)} (hcfg : ControlFlow f) :
    ∃ fuel r, livenessUpdate f fuel callocSets = .ok r ∧ Live (problem f hcfg) r :=
  (livenessUpdate_live_iff hcfg callocSets).mpr not_leftover_empty

/-- The loop ends, and has then made the sets of every instruction the least ones that satisfy the
equations: a value is in `out` exactly if a path from behind the instruction wants it. -/
theorem livenessUpdate_exact_iff {iu : IrUnit} {ffv : ℕ} {bbs : List Bb}
    {f : List (List LiveInstr)} (h : prepare iu ffv bbs = .ok f) (hcfg : ControlFlow f)
    (s : LiveSets) :
    (∃ fuel r, livenessUpdate f fuel s = .ok r ∧ LeastSolution (problem f hcfg) r
      ∧ ∀ a ∈ addrs f, (∀ v, v ∈ r.out a ↔ ∃ q, Flows bbs a q ∧ Wanted iu bbs v q)
        ∧ ∀ v, v ∈ r.into a ↔ Wanted iu bbs v a)
    ↔ ¬ Leftover (problem f hcfg) s := by
  have hlive : ∀ r, Live (problem f hcfg) r ↔ ∀ a ∈ addrs f,
      (∀ v, v ∈ r.out a ↔ ∃ q, Flows bbs a q ∧ Wanted iu bbs v q)
        ∧ ∀ v, v ∈ r.into a ↔ Wanted iu bbs v a := by
    intro r
    unfold Live LiveOut
    refine forall_congr' fun a => imp_congr List.mem_reverse ?_
    simp only [liveIn_iff_wanted h, mem_succ h]
  rw [← livenessUpdate_live_iff hcfg]
  refine exists_congr fun fuel => exists_congr fun r => and_congr_right fun _ => ?_
  rw [leastSolution_iff, ← hlive r, and_self]

/-! ### A loop whose blocks stand in reverse order -/

/-- The instruction at `a` has the value for a result or an operand. -/
def names (bbs : List Bb) (v : ℕ) (a : Addr) : Bool :=
  (bbs[a.1]?.bind fun ib => ib.instrs[a.2]?).any fun ii =>
    (ii.rets ++ DeadCode.operands ii.cls).any fun vt => vt.value = v

/-- What `coalesce` leaves of the sets when the move at `m` merges `killed` into another value: the
instructions that named the value have lost theirs, and the move is gone. -/
def coalescedSets (bbs : List Bb) (killed : ℕ) (m : Addr) (s : LiveSets) : LiveSets :=
  let before (a : Addr) : Addr := if a.1 = m.1 ∧ m.2 ≤ a.2 then (a.1, a.2 + 1) else a
  ⟨fun a => if names bbs killed (before a) then ∅ else s.out (before a),
    fun a => if names bbs killed (before a) then ∅ else s.into (before a)⟩

/-- A constant and two globals in front of the values of the function. -/
def loopUnit : IrUnit where
  types := [.int32, .pointer (some 0), .int1, .pointer (some 2)]
  values := [⟨.constant 7, 0⟩, ⟨.globalvar 4096, 1⟩, ⟨.globalvar 4100, 3⟩, ⟨.temporary, 0⟩,
    ⟨.temporary, 2⟩, ⟨.temporary, 0⟩]
  textAlloc _ := 0

/-- Value 5 is the PHI of the exit block for value 3, which the loop stores; the blocks of the loop
come one after the other in the order 3, 2, 1. -/
def reversedLoop : List Bb :=
  [⟨0, [⟨[⟨3, 0⟩], .load ⟨1, 1⟩ 0 none 0 none 0⟩, ⟨[⟨4, 2⟩], .load ⟨2, 3⟩ 0 none 0 none 2⟩,
      ⟨[], .br none 3 0⟩]⟩,
    ⟨1, [⟨[], .store ⟨1, 1⟩ ⟨3, 0⟩ 0⟩, ⟨[], .br none 3 0⟩]⟩,
    ⟨2, [⟨[], .br (some ⟨4, 2⟩) 1 4⟩]⟩,
    ⟨3, [⟨[⟨5, 0⟩], .move ⟨3, 0⟩⟩, ⟨[], .br (some ⟨4, 2⟩) 2 5⟩]⟩,
    ⟨4, [⟨[], .ret (some ⟨0, 0⟩)⟩]⟩,
    ⟨5, [⟨[], .ret (some ⟨5, 0⟩)⟩]⟩]

/-- The loop with its inputs and edges, as `eliminate_dead_code` finds it. -/
def boundLoop : DeadCode.Function where
  bbs := reversedLoop.map fun ib => ⟨ib.id, ib.instrs.map fun ii =>
    ⟨ii, ((DeadCode.operands ii.cls).map ValueType.value).filter (3 ≤ ·)⟩⟩
  edges := [⟨0, 3⟩, ⟨1, 3⟩, ⟨2, 1⟩, ⟨2, 4⟩, ⟨3, 2⟩, ⟨3, 5⟩]
  dead := []

def mergedUnit : IrUnit where
  types := loopUnit.types
  values := loopUnit.values.set 3 ⟨.dead, 0⟩
  textAlloc _ := 0

def mergedLoop : List Bb :=
  [⟨0, [⟨[⟨5, 0⟩], .load ⟨1, 1⟩ 0 none 0 none 0⟩, ⟨[⟨4, 2⟩], .load ⟨2, 3⟩ 0 none 0 none 2⟩,
      ⟨[], .br none 3 0⟩]⟩,
    ⟨1, [⟨[], .store ⟨1, 1⟩ ⟨5, 0⟩ 0⟩, ⟨[], .br none 3 0⟩]⟩,
    ⟨2, [⟨[], .br (some ⟨4, 2⟩) 1 4⟩]⟩,
    ⟨3, [⟨[], .br (some ⟨4, 2⟩) 2 5⟩]⟩,
    ⟨4, [⟨[], .ret (some ⟨0, 0⟩)⟩]⟩,
    ⟨5, [⟨[], .ret (some ⟨5, 0⟩)⟩]⟩]

def mergedLoopNodes : List (List LiveInstr) :=
  (mergedLoop.zip [[(∅, -1, []), (∅, -1, []), (∅, 1, [some 3])], [({5}, -1, []), (∅, 1, [some 3])],
    [({4}, 2, [some 1, some 4])], [({4}, 2, [some 2, some 5])], [(∅, 0, [])],
    [({5}, 0, [])]]).map fun (ib, ns) => (ib.instrs.zip ns).map fun (ii, gen, numSucc, succ) =>
      ⟨ii, gen, numSucc, succ⟩

def firstSets : LiveSets :=
  match prepare loopUnit 3 reversedLoop >>= fun f => livenessUpdate f 8 callocSets with
  | .ok s => s
  | .error _ => callocSets

/-- What the second call finds: value 3 is left in the sets of the branches of the loop. -/
def mergedSets : LiveSets := coalescedSets reversedLoop 3 (3, 0) firstSets

theorem reversedLoop_flow : ControlFlow mergedLoopNodes := by
  decide

theorem reversedLoop_prepared : prepare mergedUnit 3 mergedLoop = .ok mergedLoopNodes := by
  decide

abbrev reversedProblem : Problem Addr ℕ := problem mergedLoopNodes reversedLoop_flow

theorem mem_round_reversed (s : LiveSets) {p : Addr} (hp : p ∈ reversedProblem.nodes)
    (hgen : 3 ∉ reversedProblem.gen p) (hkill : 3 ∉ reversedProblem.kill p) :
    3 ∈ (round reversedProblem s).into p
      ↔ ∃ q ∈ successors mergedLoopNodes p, 3 ∈ seen reversedProblem s p q := by
  rw [mem_round_into _ s hp, or_iff_right hgen]
  exact exists_congr fun q => and_congr_left fun _ => and_iff_left hkill

theorem round_swaps (s : LiveSets) :
    (3 ∈ (round reversedProblem s).into (2, 0) ↔ 3 ∈ s.into (1, 0))
      ∧ (3 ∈ (round reversedProblem s).into (1, 0) ↔ 3 ∈ s.into (2, 0)) := by
  have hone : ∀ {p q}, p ∈ reversedProblem.nodes → 3 ∉ reversedProblem.gen p →
      3 ∉ reversedProblem.kill p → successors mergedLoopNodes p = [q] →
      (3 ∈ (round reversedProblem s).into p ↔ 3 ∈ seen reversedProblem s p q) := by
    intro p q hp hgen hkill hsucc
    rw [mem_round_reversed s hp hgen hkill, hsucc]
    simp
  have hexit : ∀ {p}, p ∈ reversedProblem.nodes → 3 ∉ reversedProblem.gen p →
      3 ∉ reversedProblem.kill p → successors mergedLoopNodes p = [] →
      3 ∉ (round reversedProblem s).into p := by
    intro p hp hgen hkill hsucc
    rw [mem_round_reversed s hp hgen hkill, hsucc]
    rintro ⟨q, hq, -⟩
    exact absurd hq (show q ∉ [] from List.not_mem_nil)
  have hreturn := hexit (p := (4, 0)) (by decide) (by decide) (by decide) (by decide)
  have hresult := hexit (p := (5, 0)) (by decide) (by decide) (by decide) (by decide)
  -- the two branches have an exit, which does not have the value
  have hbranch : ∀ {p q e}, p ∈ reversedProblem.nodes → 3 ∉ reversedProblem.gen p →
      3 ∉ reversedProblem.kill p → successors mergedLoopNodes p = [q, e] →
      ¬ Earlier reversedProblem q p → Earlier reversedProblem e p →
      3 ∉ (round reversedProblem s).into e →
      (3 ∈ (round reversedProblem s).into p ↔ 3 ∈ s.into q) := by
    intro p q e hp hgen hkill hsucc hq he hnot
    rw [mem_round_reversed s hp hgen hkill, hsucc]
    have hseenq : seen reversedProblem s p q = s.into q := if_neg hq
    have hseene : seen reversedProblem s p e = (round reversedProblem s).into e := if_pos he
    simp [hseenq, hseene, hnot]
  have hfirst : 3 ∈ (round reversedProblem s).into (3, 0) ↔ 3 ∈ s.into (2, 0) :=
    hbranch (by decide) (by decide) (by decide) (by decide) (by decide) (by decide) hresult
  constructor
  · exact hbranch (by decide) (by decide) (by decide) (by decide) (by decide) (by decide) hreturn
  · rw [hone (by decide) (by decide) (by decide) (q := (1, 1)) (by decide), seen,
      if_pos (by decide), hone (by decide) (by decide) (by decide) (q := (3, 0)) (by decide), seen,
      if_pos (by decide), hfirst]

/-- The value is in the sets of one of the two blocks. -/
def Swinging (s : LiveSets) : Prop :=
  (3 ∈ s.into (2, 0) ↔ 3 ∉ s.into (1, 0))

theorem Swinging.round {s : LiveSets} (h : Swinging s) :
    Swinging (round reversedProblem s) ∧ ¬ Settled reversedProblem s := by
  obtain ⟨hb, hc⟩ := round_swaps s
  unfold Swinging at h ⊢
  rw [hb, hc]
  refine ⟨by tauto, fun hsettled => ?_⟩
  rw [round_of_settled _ hsettled] at hb
  tauto

/-- `eliminate_dead_code` leaves the loop as it is and the first call ends on it; no block is empty
after the merging, and the call that follows does not end on the sets that are left. -/
theorem reversedLoop_never_ends :
    DeadCode.eliminateDeadCode 8 boundLoop = .ok boundLoop
    ∧ (∃ f, prepare loopUnit 3 reversedLoop = .ok f ∧ livenessUpdate f 8 callocSets = .ok firstSets)
    ∧ (∀ ib ∈ mergedLoop, ∀ ii ∈ ib.instrs.head?, DeadCode.isBr ⟨ii, []⟩ = false)
    ∧ prepare mergedUnit 3 mergedLoop = .ok mergedLoopNodes ∧ ControlFlow mergedLoopNodes
    ∧ ∀ fuel, livenessUpdate mergedLoopNodes fuel mergedSets = .error .outOfFuel := by
  refine ⟨by decide +kernel, ?_, by decide, reversedLoop_prepared, reversedLoop_flow, fun fuel => ?_⟩
  · have hends : (prepare loopUnit 3 reversedLoop >>= fun f =>
        livenessUpdate f 8 callocSets).isOk = true := by decide +kernel
    unfold firstSets
    cases hf : prepare loopUnit 3 reversedLoop with
    | error fault =>
      rw [hf] at hends
      cases hends
    | ok f =>
      rw [hf] at hends
      refine ⟨f, rfl, ?_⟩
      change (livenessUpdate f 8 callocSets).isOk = true at hends
      change _ = Except.ok (match livenessUpdate f 8 callocSets with | .ok s => s | .error _ => _)
      cases hrun : livenessUpdate f 8 callocSets with
      | error fault =>
        rw [hrun] at hends
        cases hends
      | ok s => rfl
  · have hswing : Swinging mergedSets := by
      unfold Swinging
      decide +kernel
    generalize mergedSets = s at hswing
    rw [livenessUpdate_eq reversedLoop_flow]
    induction fuel generalizing s with
    | zero => rfl
    | succ fuel ih =>
      obtain ⟨hnext, hunsettled⟩ := hswing.round
      unfold run
      rw [if_neg hunsettled]
      exact ih _ hnext

theorem livenessUpdate_exact_reversed : ∃ fuel r,
    livenessUpdate mergedLoopNodes fuel callocSets = .ok r
      ∧ LeastSolution (problem mergedLoopNodes reversedLoop_flow) r
      ∧ ∀ a ∈ addrs mergedLoopNodes,
        (∀ v, v ∈ r.out a ↔ ∃ q, Flows mergedLoop a q ∧ Wanted mergedUnit mergedLoop v q)
          ∧ ∀ v, v ∈ r.into a ↔ Wanted mergedUnit mergedLoop v a :=
  (livenessUpdate_exact_iff reversedLoop_prepared reversedLoop_flow callocSets).mpr
    not_leftover_empty

end Vmir.LivenessExact
