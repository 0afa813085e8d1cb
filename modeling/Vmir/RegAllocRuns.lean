import Vmir.ByteStore
import Vmir.PassedArguments
import Vmir.PlacedValues

set_option autoImplicit false

/-!
# Runs on the allocated places

A function runs on machine registers and its register frame as it does on its values, without the
moves that the merges have made needless. Liveness does not know of the second words of call
arguments; they are in their places from the moves in front of a call up to the call.
-/
namespace Vmir.RegAllocRuns
open Ir IrTypes ByteStore ProgramText BackwardDataflow Liveness LivenessExact Coalescing
  ColourPlaces RegAlloc PassedArguments PlacedValues

/-! ## Machine registers and the frame -/

abbrev Registers := (ℤ → BitVec 32) × Bytes

def getPlace (m : Registers) : Place → BitVec 64
  | .machine reg => (m.1 reg).setWidth 64
  | .frame reg words => BitVec.ofNat 64 (readLe m.2 reg (4 * words))

def setPlace (m : Registers) (p : Place) (d : BitVec 64) : Registers :=
  match p with
  | .machine reg => (Function.update m.1 reg (d.setWidth 32), m.2)
  | .frame reg words => (m.1, writeLe m.2 reg (4 * words) d.toNat)

theorem getPlace_set (m : Registers) (p : Place) (d : BitVec 64)
    (h : d.toNat < 256 ^ (4 * p.words)) : getPlace (setPlace m p d) p = d := by
  cases p with
  | machine reg =>
    have hlt : d.toNat < 2 ^ 32 := h
    apply BitVec.eq_of_toNat_eq
    simp only [getPlace, setPlace, Function.update_self, BitVec.toNat_setWidth]
    omega
  | frame reg words =>
    have hlt : d.toNat < 256 ^ (4 * words) := h
    simp only [getPlace, setPlace]
    rw [readLe_writeLe_same, Nat.mod_eq_of_lt hlt, BitVec.ofNat_toNat, BitVec.setWidth_eq]

theorem getPlace_set_apart (m : Registers) (p q : Place) (d : BitVec 64) (h : p.Apart q) :
    getPlace (setPlace m p d) q = getPlace m q := by
  cases p with
  | machine reg =>
    cases q with
    | machine reg' =>
      have hne : reg' ≠ reg := Ne.symm h
      simp only [getPlace, setPlace, Function.update_of_ne hne]
    | frame reg' words' => rfl
  | frame reg words =>
    cases q with
    | machine reg' => rfl
    | frame reg' words' =>
      have hdisjoint : reg + 4 * words ≤ reg' ∨ reg' + 4 * words' ≤ reg := h
      simp only [getPlace, setPlace]
      rw [readLe_writeLe_disjoint (by push_cast; omega)]

/-- A place takes contents of as many words as it has. -/
def registers : Store Registers Place (BitVec 64) where
  get := getPlace
  set := setPlace
  Fits p d := d.toNat < 256 ^ (4 * p.words)
  Apart := Place.Apart
  get_set := getPlace_set
  get_set_apart := getPlace_set_apart

variable {n : ℕ} (F : Body n)

/-- The temporaries that an instruction reads, with all words of the arguments that it passes. -/
def uses (f : List (List LiveInstr)) (a : Addr) : Finset (Fin n) :=
  ((instrAt f a).map fun ii =>
    Finset.univ.filter fun x : Fin n => F.ffv + x ∈ ii.gen ∨ IsPassed F ii.instr.cls x).getD ∅

/-- What the instructions do, as far as the allocation depends on it: each goes on to one of its
successors, the result of one slot is a word, and a move with one result copies. -/
structure Meaning {σ : Type} (f : List (List LiveInstr))
    (P : Program Addr (Fin n) (BitVec 64) σ) : Prop where
  uses_eq : ∀ a, P.uses a = uses F f a
  defs_eq : ∀ a, P.defs a = F.results f a
  flows : ∀ a e s r s' b, P.effect a e s r s' b → b ∈ successors f a
  word : ∀ a e s r s' b, P.effect a e s r s' b → ∀ x ∈ F.results f a, F.slots x = 1 →
    (r x).toNat < 2 ^ 32
  copy : ∀ a ii value ret x y, instrAt f a = some ii → ii.instr.cls = .move value →
    ii.instr.rets = [ret] → F.tempOf value.value = some x → F.IsTemporary x →
    F.tempOf ret.value = some y → ∀ e s r s' b, P.effect a e s r s' b → r y = e x

/-! ## The simulation -/

/-- What has to be in its place in front of an instruction. -/
def Needs (f : List (List LiveInstr)) (a : Addr) (x : Fin n) : Prop :=
  Wanted F.iu F.bbs (F.ffv + x) a ∨ x ∈ held F f a

def needed (f : List (List LiveInstr)) (sets : LiveSets) (a : Addr) : Finset (Fin n) :=
  Finset.univ.filter fun x =>
    (instrAt f a).isSome ∧ F.ffv + x ∈ sets.into a ∨ x ∈ held F f a

def neededBehind (f : List (List LiveInstr)) (sets : LiveSets) (a : Addr) : Finset (Fin n) :=
  Finset.univ.filter fun x =>
    (instrAt f a).isSome ∧ F.ffv + x ∈ sets.out a ∨ x ∈ heldBehind F f a

def placeAt (A : Allocation n) (x : Fin n) : Place := (A.placeOf x).getD (.machine 0)

def isDestroyed (A : Allocation n) (a : Addr) : Bool := A.destroyed.contains a

section
variable {F} {f : List (List LiveInstr)} {hcfg : ControlFlow f} {sets : LiveSets}
  {A : Allocation n} {σ : Type} {P : Program Addr (Fin n) (BitVec 64) σ}

theorem isTemporary_of_out (hf : prepare F.iu F.ffv F.bbs = .ok f)
    (hlive : Live (problem f hcfg) sets) {a : Addr} (ha : a ∈ addrs f) {x : Fin n}
    (h : F.ffv + x ∈ sets.out a) : F.IsTemporary x := by
  obtain ⟨q, -, hq⟩ := ((hlive a (List.mem_reverse.mpr ha)).1 _).mp h
  exact Body.isTemporary_of_wanted ((liveIn_iff_wanted hf).mp hq)

theorem uses_of_move (hf : prepare F.iu F.ffv F.bbs = .ok f) {a : Addr} {ii : LiveInstr}
    {value : ValueType} {x : Fin n} (hii : instrAt f a = some ii)
    (hcls : ii.instr.cls = .move value) (hx : F.tempOf value.value = some x)
    (htemp : F.IsTemporary x) : x ∈ uses F f a := by
  have hvalue : value.value = F.ffv + x := by
    unfold Body.tempOf at hx
    split at hx
    · rename_i hrange
      rw [← Option.some.inj hx]
      change value.value = F.ffv + (value.value - F.ffv)
      omega
    · cases hx
  obtain ⟨iv, hiv, hivcls⟩ := (Body.isTemporary_iff x).mp htemp
  have hgen : F.ffv + x ∈ ii.gen := by
    rcases prepare_at hf a with ⟨-, hnone⟩ | ⟨ii', li, -, hli, rfl, hgen, -⟩
    · rw [hnone] at hii
      cases hii
    · obtain rfl := Option.some.inj (hli.symm.trans hii)
      rw [hcls] at hgen
      obtain ⟨values, hvalues, hfold⟩ := bind_ok.mp hgen
      obtain rfl : [value] = values := Except.ok.inj hvalues
      exact (foldlM_livenessSetValue hfold _).mpr
        (Or.inr ⟨value, List.mem_singleton_self value, hvalue, iv, hiv, hivcls⟩)
  unfold uses
  rw [hii]
  exact Finset.mem_filter.mpr ⟨Finset.mem_univ x, Or.inl hgen⟩

theorem placeAt_words (hvalid : F.Valid f sets A) {x : Fin n} (hx : F.IsTemporary x) :
    A.placeOf x = some (placeAt A x) ∧ (placeAt A x).words = F.slots x := by
  obtain ⟨p, hp, hwords, -⟩ := hvalid.total x hx
  unfold placeAt
  rw [hp]
  exact ⟨rfl, hwords⟩

theorem results_kept (hlegal : F.Legal) (hf : prepare F.iu F.ffv F.bbs = .ok f)
    (hpassing : Passing F f) (hlive : Live (problem f hcfg) sets) (hvalid : F.Valid f sets A)
    (hP : Meaning F f P) {a : Addr} {x y : Fin n} (hx : x ∈ F.results f a)
    (hy : y ∈ neededBehind F f sets a) (hne : y ≠ x) :
    (placeAt A x).Apart (placeAt A y) ∨ P.Copies a y ∧ placeAt A x = placeAt A y := by
  have hxtemp := hlegal.result hf hx
  obtain ⟨hplace, -⟩ := placeAt_words hvalid hxtemp
  rcases (Finset.mem_filter.mp hy).2 with ⟨hsome, hout⟩ | hheld
  · have ha : a ∈ addrs f := mem_addrs.mpr hsome
    have hytemp := isTemporary_of_out hf hlive ha hout
    obtain ⟨hplace', -⟩ := placeAt_words hvalid hytemp
    by_cases hmoved : (y : ℤ) = F.moved f a
    · -- a move whose operand is live behind it
      obtain ⟨ii, hii⟩ := Option.isSome_iff_exists.mp (mem_addrs.mp ha)
      obtain ⟨value, hcls, hvalue⟩ := Body.moved_value hii hmoved
      obtain ⟨ib, hib, hmem⟩ := Body.instrAt_mem hf hii
      rcases hlegal.moves ib hib _ hmem value hcls y hvalue with
        ⟨ret, z, hrets, hz, -⟩ | ⟨htwo, -, harguments⟩
      · have hresults : F.results f a = [z] := Body.results_single hii hrets hz
        obtain rfl : x = z := by
          rw [hresults] at hx
          exact List.mem_singleton.mp hx
        refine (hvalid.shared x y hxtemp hytemp _ _ hplace hplace').imp_right fun hsame => ?_
        refine ⟨⟨?_, fun e s r s' b heffect w hw => ?_⟩, hsame⟩
        · rw [hP.uses_eq]
          exact uses_of_move hf hii hcls hvalue hytemp
        · rw [hP.defs_eq, hresults] at hw
          rw [List.mem_singleton.mp hw]
          exact hP.copy a ii value ret y x hii hcls hrets hvalue hytemp hz e s r s' b heffect
      · left
        rw [Body.results_eq hii] at hx
        obtain ⟨ret, hret, htemp⟩ := List.mem_filterMap.mp hx
        have harg := harguments ret hret x htemp
        refine hvalid.argument x y hxtemp hytemp harg (fun hname => ?_) _ _ hplace hplace'
        have hslots := hvalid.slots y
        rw [hname, htwo, (hlegal.arguments x harg).2] at hslots
        omega
    · exact Or.inl (hvalid.apart a ha x hx y hytemp hout hne hmoved _ _ hplace hplace')
  · left
    have hyarg := isArgument_of_heldFrom _ hheld
    have hytemp := (hlegal.arguments y hyarg).1
    obtain ⟨hplace', -⟩ := placeAt_words hvalid hytemp
    refine hvalid.argument x y hxtemp hytemp (hpassing.argument hheld hx) ?_ _ _ hplace hplace'
    rw [hvalid.own y hytemp hyarg]
    exact hne

/-- The allocation is sound for whatever the instructions mean. -/
theorem allocation_sound (hlegal : F.Legal) (hf : prepare F.iu F.ffv F.bbs = .ok f)
    (hpassing : Passing F f) (hlive : Live (problem f hcfg) sets) (hvalid : F.Valid f sets A)
    (hP : Meaning F f P) :
    Sound registers (placeAt A) P (isDestroyed A) (needed F f sets) (neededBehind F f sets) where
  uses a := by
    intro x hx
    rw [hP.uses_eq] at hx
    unfold uses at hx
    cases hii : instrAt f a with
    | none =>
      rw [hii] at hx
      exact absurd hx (Finset.notMem_empty x)
    | some ii =>
      have ha : a ∈ addrs f := mem_addrs.mpr (hii ▸ rfl)
      rw [hii] at hx
      refine Finset.mem_filter.mpr ⟨Finset.mem_univ x, ?_⟩
      rcases (Finset.mem_filter.mp hx).2 with hgen | hpassed
      · left
        refine ⟨mem_addrs.mp ha, ((hlive a (List.mem_reverse.mpr ha)).2 _).mpr (LiveIn.use ?_)⟩
        change F.ffv + (x : ℕ) ∈ (instrAt f a).elim ∅ LiveInstr.gen
        rw [hii]
        exact hgen
      · exact Or.inr ((mem_held hii).mpr (Or.inl hpassed))
  through a := by
    intro y hy hdefs
    rw [hP.defs_eq] at hdefs
    refine Finset.mem_filter.mpr ⟨Finset.mem_univ y, ?_⟩
    rcases (Finset.mem_filter.mp hy).2 with ⟨hsome, hout⟩ | hheld
    · left
      have ha : a ∈ addrs f := mem_addrs.mpr hsome
      refine ⟨hsome, ?_⟩
      obtain ⟨q, hq, hlivein⟩ := ((hlive a (List.mem_reverse.mpr ha)).1 _).mp hout
      refine ((hlive a (List.mem_reverse.mpr ha)).2 _).mpr
        (LiveIn.step ⟨hq, fun hkill => ?_⟩ hlivein)
      exact hdefs (Body.mem_results_of_kill hkill)
    · right
      cases hii : instrAt f a with
      | none =>
        rw [(held_none hii).2] at hheld
        exact absurd hheld (Finset.notMem_empty y)
      | some ii => exact (mem_held hii).mpr (Or.inr ⟨hheld, hdefs⟩)
  next a e s r s' b heffect := by
    have hb := hP.flows a e s r s' b heffect
    have hsome : (instrAt f a).isSome := by
      cases hii : instrAt f a with
      | none =>
        unfold successors at hb
        rw [hii] at hb
        exact absurd hb List.not_mem_nil
      | some ii => rfl
    intro x hx
    refine Finset.mem_filter.mpr ⟨Finset.mem_univ x, ?_⟩
    rcases (Finset.mem_filter.mp hx).2 with ⟨hsome', hinto⟩ | hheld
    · left
      have ha : a ∈ (problem f hcfg).nodes := List.mem_reverse.mpr (mem_addrs.mpr hsome)
      have hb' : b ∈ (problem f hcfg).nodes := List.mem_reverse.mpr (mem_addrs.mpr hsome')
      exact ⟨hsome, ((hlive a ha).1 _).mpr ⟨b, hb, ((hlive b hb').2 _).mp hinto⟩⟩
    · exact Or.inr (hpassing.next hb hheld)
  fits a e s r s' b heffect := by
    intro x hx
    rw [hP.defs_eq] at hx
    have hxtemp := hlegal.result hf hx
    have hwords := (placeAt_words hvalid hxtemp).2
    change (r x).toNat < 256 ^ (4 * (placeAt A x).words)
    rw [hwords]
    rcases CallingConvention.slots_cases (F.slots_ok (hlegal.typed x hxtemp)) with hone | htwo
    · rw [hone]
      exact hP.word a e s r s' b heffect x hx hone
    · rw [htwo]
      exact (r x).isLt
  kept a x hx y hy hne := by
    rw [hP.defs_eq] at hx
    exact results_kept hlegal hf hpassing hlive hvalid hP hx hy hne
  gone a hgone := by
    obtain ⟨ii, value, ret, x, y, hii, hcls, hrets, hx, hy, htemp, hnames⟩ :=
      hvalid.destroyed a (List.contains_iff_mem.mp hgone)
    have hresults : F.results f a = [y] := Body.results_single hii hrets hy
    refine ⟨y, x, (hP.defs_eq a).trans hresults, ⟨?_, fun e s r s' b heffect w hw => ?_⟩, ?_⟩
    · rw [hP.uses_eq]
      exact uses_of_move hf hii hcls hx htemp
    · rw [hP.defs_eq, hresults] at hw
      rw [List.mem_singleton.mp hw]
      exact hP.copy a ii value ret x y hii hcls hrets hx htemp hy e s r s' b heffect
    · unfold placeAt Allocation.placeOf
      rw [hnames]

theorem mem_needed (hf : prepare F.iu F.ffv F.bbs = .ok f) (hlive : Live (problem f hcfg) sets)
    {a : Addr} {x : Fin n} : x ∈ needed F f sets a ↔ Needs F f a x := by
  have hpaths : LiveIn (problem f hcfg) (F.ffv + x) a ↔ Wanted F.iu F.bbs (F.ffv + x) a :=
    liveIn_iff_wanted hf
  have hinto : (instrAt f a).isSome ∧ F.ffv + x ∈ sets.into a ↔
      Wanted F.iu F.bbs (F.ffv + x) a := by
    rw [← hpaths]
    constructor
    · rintro ⟨hsome, hmem⟩
      exact ((hlive a (List.mem_reverse.mpr (mem_addrs.mpr hsome))).2 _).mp hmem
    · intro hlivein
      have ha : a ∈ addrs f := Body.mem_addrs_of_liveIn hlivein
      exact ⟨mem_addrs.mp ha, ((hlive a (List.mem_reverse.mpr ha)).2 _).mpr hlivein⟩
  unfold needed Needs
  rw [Finset.mem_filter, hinto]
  exact and_iff_right (Finset.mem_univ x)

end

open Relation

/-- A function does on its places what it does on its values, and no more: from wherever the needed
values are in their places, the runs with contents for the values and those on machine registers and
the frame, without the moves that are gone, lead to the same instructions and the same states of all
else, and the needed values are in their places again. -/
theorem livenessAnalysis_runs {F : Body n} (hlegal : F.Legal) {f : List (List LiveInstr)}
    (hf : prepare F.iu F.ffv F.bbs = .ok f) (hcfg : ControlFlow f) (hpassing : Passing F f)
    {σ : Type} {P : Program Addr (Fin n) (BitVec 64) σ} (hP : Meaning F f P) {fuel : ℕ}
    {A : Allocation n} (hrun : F.livenessAnalysis fuel = .ok A) {a : Addr} {e : Fin n → BitVec 64}
    {m : Registers} {s : σ} (hagree : ∀ x, Needs F f a x → getPlace m (placeAt A x) = e x) :
    (∀ a' e' s', ReflTransGen P.Step (a, e, s) (a', e', s') →
      ∃ m', ReflTransGen (registers.Step (placeAt A) P (isDestroyed A)) (a, m, s) (a', m', s')
        ∧ ∀ x, Needs F f a' x → getPlace m' (placeAt A x) = e' x)
    ∧ ∀ a' m' s',
      ReflTransGen (registers.Step (placeAt A) P (isDestroyed A)) (a, m, s) (a', m', s') →
      ∃ e', ReflTransGen P.Step (a, e, s) (a', e', s')
        ∧ ∀ x, Needs F f a' x → getPlace m' (placeAt A x) = e' x := by
  obtain ⟨sets, hsets, hA⟩ := (Body.livenessAnalysis_ok hf).mp hrun
  have hvalid := (Body.coalesceAndColour_valid hlegal hf sets).2 A hA
  have hlive := Body.livenessUpdate_live hcfg hsets
  have hsound := allocation_sound hlegal hf hpassing hlive hvalid hP
  have hagrees : Agrees registers (placeAt A) (needed F f sets) a e m :=
    fun x hx => hagree x ((mem_needed hf hlive).mp hx)
  constructor
  · intro a' e' s' hsteps
    obtain ⟨m', hsteps', hagrees'⟩ := hsound.run_forth (c := (a, e, s)) hagrees hsteps
    exact ⟨m', hsteps', fun x hx => hagrees' x ((mem_needed hf hlive).mpr hx)⟩
  · intro a' m' s' hsteps
    obtain ⟨e', hsteps', hagrees'⟩ := hsound.run_back (c := (a, m, s)) hagrees hsteps
    exact ⟨e', hsteps', fun x hx => hagrees' x ((mem_needed hf hlive).mpr hx)⟩

/-! ### A function that passes a number on -/

/-- Value 1 is moved to the argument of a call, value 2. -/
def passOn : Body 2 where
  iu := ⟨[.int32], [⟨.constant 7, 0⟩, ⟨.temporary, 0⟩, ⟨.temporary, 0⟩], fun _ => 0⟩
  ffv := 1
  bbs := [⟨0, [⟨[⟨1, 0⟩], .move ⟨0, 0⟩⟩, ⟨[⟨2, 0⟩], .move ⟨1, 0⟩⟩,
    ⟨[], .call ⟨0, 0⟩ [⟨⟨2, 0⟩, 0⟩]⟩, ⟨[], .ret none⟩]⟩]
  callArgBase := 1
  numCallArgs := 1
  regframeSize := 8
  jit := none
  qsort vi := vi
  qsort_perm vi := List.Perm.refl vi

def passOnNodes : List (List LiveInstr) :=
  [[⟨⟨[⟨1, 0⟩], .move ⟨0, 0⟩⟩, ∅, -1, []⟩, ⟨⟨[⟨2, 0⟩], .move ⟨1, 0⟩⟩, {1}, -1, []⟩,
    ⟨⟨[], .call ⟨0, 0⟩ [⟨⟨2, 0⟩, 0⟩]⟩, {2}, -1, []⟩, ⟨⟨[], .ret none⟩, ∅, 0, []⟩]]

theorem passOn_prepared : prepare passOn.iu passOn.ffv passOn.bbs = .ok passOnNodes := by
  decide

theorem passOn_flow : ControlFlow passOnNodes := by
  decide

theorem passOn_legal : passOn.Legal where
  small := by decide
  typed := by decide
  arguments := by decide
  results := by decide
  moves := by
    have hall : ∀ ib ∈ passOn.bbs, ∀ ii ∈ ib.instrs, ∀ value ∈ Body.movedValue ii.cls,
        ∀ y, passOn.tempOf value.value = some y →
          ∃ ret ∈ ii.rets, ∃ x, ii.rets = [ret] ∧ passOn.tempOf ret.value = some x
            ∧ passOn.slots x = passOn.slots y := by
      decide
    intro ib hib ii hii value hcls y hy
    obtain ⟨ret, -, x, hx⟩ := hall ib hib ii hii value (by rw [hcls]; rfl) y hy
    exact Or.inl ⟨ret, x, hx⟩

theorem passOn_lowered : passOn.Lowered where
  classes := by decide
  operands := by
    have hall : ∀ ib ∈ passOn.bbs, ∀ ii ∈ ib.instrs, ∀ vt ∈ DeadCode.operands ii.cls,
        ∃ iv ∈ passOn.iu.values[vt.value]?, iv.cls = .temporary → passOn.ffv ≤ vt.value := by
      decide
    exact hall
  branches := by
    have hall : ∀ ib ∈ passOn.bbs, ∀ ii ∈ ib.instrs, ∀ blocks ∈ branchTargets ii.cls,
        blocks = [] := by
      decide
    intro ib hib ii hii blocks hblocks
    rw [hall ib hib ii hii blocks hblocks]
    exact ⟨by decide, fun id hid => absurd hid List.not_mem_nil⟩

/-- The function before `prepare_calls`. -/
def passOnCall : List Bb :=
  [⟨0, [⟨[⟨1, 0⟩], .move ⟨0, 0⟩⟩, ⟨[], .call ⟨0, 0⟩ [⟨⟨1, 0⟩, 0⟩]⟩, ⟨[], .ret none⟩]⟩]

theorem passOn_passing : Passing passOn passOnNodes := by
  have hbbs : passOnCall.mapM (prepareBb passOn.iu 2 0) = .ok passOn.bbs := rfl
  have hnum : PrepareCall.prepareCalls passOn.iu 2 0 (callsOf passOnCall) = .ok 1 := rfl
  exact prepareCalls_passing hbbs hnum passOn_prepared

/-- The constant is 7, and the move takes what fits into a word. -/
def passOnProgram : Program Addr (Fin 2) (BitVec 64) Unit where
  uses := uses passOn passOnNodes
  defs := passOn.results passOnNodes
  effect a e _ r _ b := b ∈ successors passOnNodes a
    ∧ (a = (0, 1) → (e 0).toNat < 2 ^ 32) ∧ r = fun _ => if a = (0, 1) then e 0 else 7
  reads a e e' s r s' b := by
    intro hagree heffect
    by_cases ha : a = (0, 1)
    · have huses : 0 ∈ uses passOn passOnNodes a := by
        rw [ha]
        decide
      rw [hagree 0 huses] at heffect
      exact heffect
    · simp only [ha, if_false, false_implies, true_and] at heffect ⊢
      exact heffect

theorem passOn_meaning : Meaning passOn passOnNodes passOnProgram where
  uses_eq _ := rfl
  defs_eq _ := rfl
  flows a e s r s' b heffect := heffect.1
  word a e s r s' b heffect x hx hslots := by
    obtain ⟨-, hword, rfl⟩ := heffect
    by_cases ha : a = (0, 1)
    · simp only [ha, if_true]
      exact hword ha
    · simp only [ha, if_false]
      decide
  copy a ii value ret x y hii hcls hrets hx htemp hy e s r s' b heffect := by
    have hall : ∀ a ∈ addrs passOnNodes, ∀ ii ∈ instrAt passOnNodes a,
        ∀ value ∈ Body.movedValue ii.instr.cls, ∀ x, passOn.tempOf value.value = some x →
          a = (0, 1) ∧ x = 0 := by
      decide
    obtain ⟨ha, rfl⟩ := hall a (mem_addrs.mpr (hii ▸ rfl)) ii hii value (by rw [hcls]; rfl) x hx
    obtain ⟨-, -, rfl⟩ := heffect
    simp only [ha, if_true]

/-- The argument of the call is 7, whatever the registers and the frame hold before. -/
theorem livenessAnalysis_runs_passOn : ∃ fuel A, passOn.livenessAnalysis fuel = .ok A
    ∧ ∀ m, ∃ m', ReflTransGen (registers.Step (placeAt A) passOnProgram (isDestroyed A))
      ((0, 0), m, ()) ((0, 2), m', ()) ∧ getPlace m' (placeAt A 1) = 7 := by
  obtain ⟨fuel, A, hA⟩ :=
    Body.livenessAnalysis_ends passOn_legal passOn_lowered rfl
  refine ⟨fuel, A, hA, fun m => ?_⟩
  let e : Fin 2 → BitVec 64 := fun x => getPlace m (placeAt A x)
  let e₁ : Fin 2 → BitVec 64 := fun x => if x ∈ passOn.results passOnNodes (0, 0) then 7 else e x
  let e₂ : Fin 2 → BitVec 64 := fun x =>
    if x ∈ passOn.results passOnNodes (0, 1) then e₁ 0 else e₁ x
  have hnext₁ : ((0, 1) : Addr) ∈ successors passOnNodes (0, 0) := by decide
  have hnext₂ : ((0, 2) : Addr) ∈ successors passOnNodes (0, 1) := by decide
  have hne : ((0, 0) : Addr) ≠ (0, 1) := by decide
  have hseven : e₁ 0 = 7 := if_pos (by decide)
  have hword : (e₁ 0).toNat < 2 ^ 32 := by
    rw [hseven]
    decide
  have hstep₁ : passOnProgram.Step ((0, 0), e, ()) ((0, 1), e₁, ()) :=
    ⟨fun _ => 7, ⟨hnext₁, fun h => absurd h hne, rfl⟩, rfl⟩
  have hstep₂ : passOnProgram.Step ((0, 1), e₁, ()) ((0, 2), e₂, ()) :=
    ⟨fun _ => e₁ 0, ⟨hnext₂, fun _ => hword, rfl⟩, rfl⟩
  obtain ⟨m', hrun, hplaces⟩ := (livenessAnalysis_runs passOn_legal passOn_prepared passOn_flow
    passOn_passing passOn_meaning hA (a := (0, 0)) (e := e) (m := m) (s := ()) fun x _ => rfl).1
      (0, 2) e₂ () ((ReflTransGen.single hstep₁).tail hstep₂)
  have hneeds : Needs passOn passOnNodes (0, 2) 1 := Or.inr (by decide)
  have hlast : e₂ 1 = e₁ 0 := if_pos (by decide)
  exact ⟨m', hrun, (hplaces 1 hneeds).trans (hlast.trans hseven)⟩

end Vmir.RegAllocRuns
