import Vmir.CallingConvention
import Vmir.RegAlloc

set_option autoImplicit false

/-!
# Arguments in front of their calls

Liveness does not know of the second words of call arguments. `prepare_calls` puts the moves of the
arguments right in front of each call, so that all words are in their places from there up to the
call, and nowhere else.
-/
namespace Vmir.PassedArguments
open Ir IrTypes ProgramText Liveness LivenessExact PrepareCall CallingConvention RegAlloc

variable {n : ℕ} (F : Body n)

def slotsOfType (type : ℕ) : ℕ :=
  match PrepareCall.valueRegframeSlots F.iu type with
  | .ok k => k
  | .error _ => 0

def passedArgs : InstrClass → List Arg
  | .call _ argv => argv
  | .invoke _ _ _ argv => argv
  | _ => []

def IsPassed (cls : InstrClass) (x : Fin n) : Prop :=
  F.IsArgument x ∧ ∃ a ∈ passedArgs cls, a.value.value ≤ F.ffv + x
    ∧ F.ffv + x < a.value.value + slotsOfType F a.value.type

instance (cls : InstrClass) (x : Fin n) : Decidable (IsPassed F cls x) :=
  inferInstanceAs (Decidable (_ ∧ _))

/-- The words of arguments that are in their places in front of the rest of a block. -/
def heldFrom : List LiveInstr → Finset (Fin n)
  | [] => ∅
  | ii :: rest => (Finset.univ.filter fun x => IsPassed F ii.instr.cls x)
      ∪ (heldFrom rest).filter fun x => x ∉ F.resultsOf ii

def blockAt (f : List (List LiveInstr)) (b : ℕ) : List LiveInstr := (f[b]?).getD []

/-- Arguments are put into their places by the instructions right in front of the call. -/
structure Passing (f : List (List LiveInstr)) : Prop where
  entry : ∀ b < f.length, heldFrom F (blockAt f b) = ∅
  between : ∀ b < f.length, ∀ i < (blockAt f b).length,
    heldFrom F ((blockAt f b).drop (i + 1)) = ∅ ∨ ∀ x ∈ F.results f (b, i), F.IsArgument x

def held (f : List (List LiveInstr)) (a : Addr) : Finset (Fin n) :=
  heldFrom F ((blockAt f a.1).drop a.2)

def heldBehind (f : List (List LiveInstr)) (a : Addr) : Finset (Fin n) :=
  heldFrom F ((blockAt f a.1).drop (a.2 + 1))

section
variable {F} {f : List (List LiveInstr)}

theorem instrAt_eq (f : List (List LiveInstr)) (a : Addr) :
    instrAt f a = (blockAt f a.1)[a.2]? := by
  unfold instrAt blockAt
  cases f[a.1]? with
  | none => rfl
  | some ib => rfl

theorem held_none {a : Addr} (h : instrAt f a = none) :
    held F f a = ∅ ∧ heldBehind F f a = ∅ := by
  rw [instrAt_eq, List.getElem?_eq_none_iff] at h
  unfold held heldBehind
  rw [List.drop_eq_nil_of_le h, List.drop_eq_nil_of_le (by omega)]
  exact ⟨rfl, rfl⟩

theorem mem_held {a : Addr} {ii : LiveInstr} (h : instrAt f a = some ii) {x : Fin n} :
    x ∈ held F f a ↔
      IsPassed F ii.instr.cls x ∨ x ∈ heldBehind F f a ∧ x ∉ F.results f a := by
  have hresults : F.results f a = F.resultsOf ii := Body.results_eq h
  rw [instrAt_eq, List.getElem?_eq_some_iff] at h
  obtain ⟨hlt, hget⟩ := h
  unfold held heldBehind
  rw [List.drop_eq_getElem_cons hlt, hget, hresults]
  simp [heldFrom]

theorem isArgument_of_heldFrom (l : List LiveInstr) {x : Fin n} (h : x ∈ heldFrom F l) :
    F.IsArgument x := by
  induction l with
  | nil => exact absurd h (Finset.notMem_empty x)
  | cons ii l ih =>
    rcases Finset.mem_union.mp h with hpassed | hrest
    · exact (Finset.mem_filter.mp hpassed).2.1
    · exact ih (Finset.mem_filter.mp hrest).1

theorem successors_cases {a b : Addr} (h : b ∈ successors f a) :
    b = (a.1, a.2 + 1) ∨ b.2 = 0 := by
  unfold successors at h
  split at h
  · exact absurd h List.not_mem_nil
  · rename_i ii hii
    have hbranch : b ∈ (ii.succ.take ii.numSucc.toNat).filterMap
        (fun ib => ib.map fun b => ((b, 0) : Addr)) → b.2 = 0 := by
      intro hb
      obtain ⟨ib, -, hib⟩ := List.mem_filterMap.mp hb
      obtain ⟨c, -, rfl⟩ := Option.map_eq_some_iff.mp hib
      rfl
    split at h
    · rename_i succ hnext
      split at h
      · left
        rw [List.mem_singleton.mp h]
        unfold nextInstr at hnext
        split at hnext
        · exact (Option.some.inj hnext).symm
        · cases hnext
      · exact Or.inr (hbranch h)
    · exact Or.inr (hbranch h)

theorem Passing.next (h : Passing F f) {a b : Addr} (hb : b ∈ successors f a) :
    held F f b ⊆ heldBehind F f a := by
  rcases successors_cases hb with rfl | hzero
  · exact Finset.Subset.refl _
  · have hempty : held F f b = ∅ := by
      unfold held
      rw [hzero, List.drop_zero]
      by_cases hlt : b.1 < f.length
      · exact h.entry b.1 hlt
      · unfold blockAt
        rw [List.getElem?_eq_none (by omega)]
        rfl
    rw [hempty]
    exact Finset.empty_subset _

theorem Passing.argument (h : Passing F f) {a : Addr} {x y : Fin n}
    (hy : y ∈ heldBehind F f a) (hx : x ∈ F.results f a) : F.IsArgument x := by
  have hsome : (instrAt f a).isSome := by
    unfold Body.results at hx
    cases hii : instrAt f a with
    | none =>
      rw [hii] at hx
      exact absurd hx List.not_mem_nil
    | some ii => rfl
  obtain ⟨ii, hii⟩ := Option.isSome_iff_exists.mp hsome
  have hblock : a.1 < f.length := by
    obtain ⟨ib, hib, -⟩ := Option.bind_eq_some_iff.mp hii
    exact (List.getElem?_eq_some_iff.mp hib).1
  have hinstr : a.2 < (blockAt f a.1).length := by
    rw [instrAt_eq] at hii
    exact (List.getElem?_eq_some_iff.mp hii).1
  rcases h.between a.1 hblock a.2 hinstr with hempty | hall
  · unfold heldBehind at hy
    rw [hempty] at hy
    exact absurd hy (Finset.notMem_empty y)
  · exact hall x hx

end

/-! ## What `prepare_calls` makes -/

def argInstr : ArgInstr → Instr
  | .stackcopy ret value size => ⟨[ret], .stackcopy value size.toNat⟩
  | .move rets value => ⟨rets, .move value⟩

def callArg (a : Arg) : CallArg := ⟨a.value, BitVec.ofNat 32 a.copySize⟩

/-- `ii->argv[i].value.value = arg`, for every argument. -/
def passArgs (iu : IrUnit) (arg : ℕ) : List Arg → Except Fault (List Arg)
  | [] => .ok []
  | a :: argv => do
    let slots ← valueRegframeSlots iu a.value.type
    let argv' ← passArgs iu (arg + slots) argv
    return { a with value := { a.value with value := arg } } :: argv'

def withArgs (argv : List Arg) : InstrClass → InstrClass
  | .call callee _ => .call callee argv
  | .invoke callee normalDest unwindDest _ => .invoke callee normalDest unwindDest argv
  | cls => cls

def isCall : InstrClass → Bool
  | .call .. | .invoke .. => true
  | _ => false

/-- What comes of an instruction in `prepare_calls`. -/
def prepareInstr (iu : IrUnit) (callArgBase callargtype : ℕ) (ii : Instr) :
    Except Fault (List Instr) :=
  if isCall ii.cls then do
    let argv := passedArgs ii.cls
    let p ← prepareCall iu callArgBase callargtype (argv.map callArg)
    let argv' ← passArgs iu callArgBase argv
    return p.before.map argInstr ++ { ii with cls := withArgs argv' ii.cls }
      :: p.stackshrink.toList.map fun size => ⟨[], .stackshrink size.toNat⟩
  else .ok [ii]

def prepareBb (iu : IrUnit) (callArgBase callargtype : ℕ) (ib : Bb) : Except Fault Bb := do
  let groups ← ib.instrs.mapM (prepareInstr iu callArgBase callargtype)
  return { ib with instrs := groups.flatten }

def callsOf (bbs : List Bb) : List (List CallArg) :=
  bbs.flatMap fun ib => (ib.instrs.filter fun ii => isCall ii.cls).map fun ii =>
    (passedArgs ii.cls).map callArg

/-- What `Passing` says of the rest of a block. -/
def Settled : List LiveInstr → Prop
  | [] => True
  | ii :: rest => (heldFrom F rest = ∅ ∨ ∀ x ∈ F.resultsOf ii, F.IsArgument x) ∧ Settled rest

section
variable {F}

theorem Settled.drop {l : List LiveInstr} (h : Settled F l) {i : ℕ} {ii : LiveInstr}
    (hii : l[i]? = some ii) :
    heldFrom F (l.drop (i + 1)) = ∅ ∨ ∀ x ∈ F.resultsOf ii, F.IsArgument x := by
  induction l generalizing i with
  | nil => cases hii
  | cons ii' l ih =>
    cases i with
    | zero =>
      rw [← Option.some.inj hii]
      exact h.1
    | succ i => exact ih h.2 hii

theorem mem_heldFrom_cons {ii : LiveInstr} {rest : List LiveInstr} {x : Fin n} :
    x ∈ heldFrom F (ii :: rest) ↔
      IsPassed F ii.instr.cls x ∨ x ∈ heldFrom F rest ∧ x ∉ F.resultsOf ii := by
  simp [heldFrom]

theorem not_isPassed {cls : InstrClass} (h : passedArgs cls = []) (x : Fin n) :
    ¬ IsPassed F cls x := by
  rintro ⟨-, a, ha, -⟩
  rw [h] at ha
  exact absurd ha List.not_mem_nil

theorem settled_cons {ii : LiveInstr} {rest : List LiveInstr}
    (hcls : passedArgs ii.instr.cls = []) (h : Settled F rest) (hnone : heldFrom F rest = ∅) :
    Settled F (ii :: rest) ∧ heldFrom F (ii :: rest) = ∅ := by
  refine ⟨⟨Or.inl hnone, h⟩, Finset.eq_empty_of_forall_notMem fun x hx => ?_⟩
  rcases mem_heldFrom_cons.mp hx with hpassed | ⟨hx, -⟩
  · exact not_isPassed hcls x hpassed
  · rw [hnone] at hx
    exact absurd hx (Finset.notMem_empty x)

theorem passedArgs_withArgs {cls : InstrClass} (h : isCall cls) (argv : List Arg) :
    passedArgs (withArgs argv cls) = argv := by
  cases cls with
  | call | invoke => rfl
  | _ => cases h

theorem passedArgs_nil {cls : InstrClass} (h : ¬ isCall cls) : passedArgs cls = [] := by
  cases cls with
  | call | invoke => exact absurd rfl h
  | _ => rfl

theorem tempOf_eq_some {v : ℕ} {x : Fin n} : F.tempOf v = some x ↔ F.ffv + x = v := by
  have hx := x.isLt
  unfold Body.tempOf
  split_ifs with h
  · rw [Option.some.injEq, Fin.ext_iff]
    change v - F.ffv = x ↔ _
    omega
  · exact iff_of_false (fun h => by cases h) (by omega)

variable {callargtype : ℕ}

theorem resultsOf_prepareArg {arg slots : ℕ} {a : CallArg} {i : ArgInstr}
    (hslots : slots = 1 ∨ slots = 2) (h : prepareArg callargtype slots arg a = .ok i)
    {li : LiveInstr} (hli : li.instr = argInstr i) (x : Fin n) :
    x ∈ F.resultsOf li ↔ arg ≤ F.ffv + x ∧ F.ffv + x < arg + slots := by
  have hmem : x ∈ F.resultsOf li ↔ ∃ ret ∈ (argInstr i).rets, F.ffv + x = ret.value := by
    unfold Body.resultsOf
    rw [hli, List.mem_filterMap]
    exact exists_congr fun ret => and_congr_right fun _ => tempOf_eq_some
  rw [hmem]
  clear hmem
  unfold prepareArg at h
  split_ifs at h with hcopy hslot htwo
  all_goals
    obtain rfl := Except.ok.inj h
    simp only [argInstr, List.mem_cons, List.not_mem_nil, or_false, exists_eq_or_imp,
      exists_eq_left]
    omega

theorem argInstr_passes (i : ArgInstr) : passedArgs (argInstr i).cls = [] := by
  cases i <;> rfl

/-- The words of the arguments from `totalSlots` on are put into their places by the instructions in
front of the call, so that only those before are held in front of them. -/
theorem settled_prepareArgs {totalSlots total : ℕ} {growth growth' : BitVec 32}
    {argv : List CallArg} {is : List ArgInstr}
    (h : prepareArgs F.iu (F.ffv + F.callArgBase) callargtype totalSlots growth argv
      = .ok (is, total, growth'))
    (htotal : total ≤ F.numCallArgs) {ls rest : List LiveInstr}
    (hls : ls.map LiveInstr.instr = is.map argInstr) (hrest : Settled F rest)
    (hheld : ∀ x ∈ heldFrom F rest, (x : ℕ) < F.callArgBase + total) :
    Settled F (ls ++ rest)
      ∧ ∀ x ∈ heldFrom F (ls ++ rest), (x : ℕ) < F.callArgBase + totalSlots := by
  induction argv generalizing totalSlots growth is ls with
  | nil =>
    obtain ⟨rfl, rfl, rfl⟩ : [] = is ∧ totalSlots = total ∧ growth = growth' := by
      simpa [prepareArgs] using h
    rw [List.map_eq_nil_iff.mp hls]
    exact ⟨hrest, hheld⟩
  | cons a argv ih =>
    obtain ⟨slots, hslots, h⟩ := bind_ok.mp h
    obtain ⟨i, hi, h⟩ := bind_ok.mp h
    obtain ⟨⟨is', total', growth''⟩, his, h⟩ := bind_ok.mp h
    obtain ⟨rfl, rfl, rfl⟩ : i :: is' = is ∧ total' = total ∧ growth'' = growth' := by
      simpa [pure, Except.pure] using h
    obtain ⟨li, ls', rfl, hli, hls'⟩ := List.map_eq_cons_iff.mp hls
    obtain ⟨hsettled, hbefore⟩ := ih his hls'
    obtain ⟨ss, -, -, -, hsum, -⟩ := prepareArgs_spec his
    have hresults := resultsOf_prepareArg (F := F) (slots_cases hslots) hi hli
    refine ⟨⟨Or.inr fun x hx => ?_, hsettled⟩, fun x hx => ?_⟩
    · obtain ⟨hlow, hhigh⟩ := (hresults x).mp hx
      exact ⟨by omega, by omega⟩
    · rcases mem_heldFrom_cons.mp hx with hpassed | ⟨hx, hnot⟩
      · rw [hli] at hpassed
        exact absurd hpassed (not_isPassed (argInstr_passes i) x)
      · have hlt := hbefore x hx
        rw [hresults x] at hnot
        omega

theorem passArgs_words {totalSlots total : ℕ} {growth growth' : BitVec 32} {argv argv' : List Arg}
    {is : List ArgInstr} {base : ℕ}
    (h : prepareArgs F.iu base callargtype totalSlots growth (argv.map callArg)
      = .ok (is, total, growth'))
    (hpass : passArgs F.iu (base + totalSlots) argv = .ok argv') :
    ∀ a ∈ argv', a.value.value + slotsOfType F a.value.type ≤ base + total := by
  induction argv generalizing totalSlots growth is argv' with
  | nil =>
    rw [← Except.ok.inj hpass]
    exact fun a ha => absurd ha List.not_mem_nil
  | cons a argv ih =>
    obtain ⟨slots, hslots, h⟩ := bind_ok.mp h
    obtain ⟨i, hi, h⟩ := bind_ok.mp h
    obtain ⟨⟨is', total', growth''⟩, his, h⟩ := bind_ok.mp h
    obtain ⟨rfl, rfl, rfl⟩ : i :: is' = is ∧ total' = total ∧ growth'' = growth' := by
      simpa [pure, Except.pure] using h
    obtain ⟨slots', hslots', hpass⟩ := bind_ok.mp hpass
    obtain rfl : slots = slots' := Except.ok.inj (hslots.symm.trans hslots')
    obtain ⟨argv'', hargv, hpass⟩ := bind_ok.mp hpass
    obtain ⟨ss, -, -, -, hsum, -⟩ := prepareArgs_spec his
    rw [← Except.ok.inj hpass]
    rw [Nat.add_assoc] at hargv
    intro b hb
    rcases List.mem_cons.mp hb with rfl | hb
    · change base + totalSlots + slotsOfType F a.value.type ≤ _
      unfold slotsOfType
      rw [hslots']
      dsimp only
      omega
    · exact ih his hargv b hb

theorem settled_prepareInstr {ii : Instr} {group : List Instr}
    (h : prepareInstr F.iu (F.ffv + F.callArgBase) callargtype ii = .ok group)
    (hnum : isCall ii.cls → ∀ p, prepareCall F.iu (F.ffv + F.callArgBase) callargtype
      ((passedArgs ii.cls).map callArg) = .ok p → p.totalSlots ≤ F.numCallArgs)
    {ls rest : List LiveInstr} (hls : ls.map LiveInstr.instr = group) (hrest : Settled F rest)
    (hnone : heldFrom F rest = ∅) : Settled F (ls ++ rest) ∧ heldFrom F (ls ++ rest) = ∅ := by
  unfold prepareInstr at h
  split_ifs at h with hcall
  · obtain ⟨p, hp, h⟩ := bind_ok.mp h
    obtain ⟨argv', hargv, h⟩ := bind_ok.mp h
    have htotal := hnum hcall p hp
    obtain ⟨⟨is, total, growth⟩, his, hp⟩ := bind_ok.mp hp
    rw [← Except.ok.inj hp] at h htotal
    rw [← Except.ok.inj h] at hls
    obtain ⟨before, behind, rfl, hbefore, hls⟩ := List.map_eq_append_iff.mp hls
    obtain ⟨call, shrink, rfl, hli, hshrink⟩ := List.map_eq_cons_iff.mp hls
    -- the words of the arguments are held in front of the call
    have hafter : Settled F (shrink ++ rest) ∧ heldFrom F (shrink ++ rest) = ∅ := by
      cases hgrowth : (if (0 : BitVec 32).slt growth then some growth else none) with
      | none =>
        rw [hgrowth] at hshrink
        rw [List.map_eq_nil_iff.mp hshrink]
        exact ⟨hrest, hnone⟩
      | some size =>
        rw [hgrowth] at hshrink
        obtain ⟨li, none, rfl, hli, hnil⟩ := List.map_eq_cons_iff.mp hshrink
        rw [List.map_eq_nil_iff.mp hnil]
        exact settled_cons (by rw [hli]; rfl) hrest hnone
    have hwords : ∀ x ∈ heldFrom F (call :: (shrink ++ rest)),
        (x : ℕ) < F.callArgBase + total := by
      intro x hx
      rcases mem_heldFrom_cons.mp hx with ⟨-, a, ha, hlow, hhigh⟩ | ⟨hx, -⟩
      · rw [hli, passedArgs_withArgs hcall] at ha
        have hle := passArgs_words his hargv a ha
        omega
      · rw [hafter.2] at hx
        exact absurd hx (Finset.notMem_empty x)
    have hsettle : Settled F (call :: (shrink ++ rest)) := ⟨Or.inl hafter.2, hafter.1⟩
    obtain ⟨hsettled, hheld⟩ := settled_prepareArgs his htotal hbefore hsettle hwords
    rw [List.append_assoc, List.cons_append]
    refine ⟨hsettled, Finset.eq_empty_of_forall_notMem fun x hx => ?_⟩
    have hlt := hheld x hx
    have hle := (isArgument_of_heldFrom _ hx).1
    omega
  · rw [← Except.ok.inj h] at hls
    obtain ⟨li, none, rfl, hli, hnil⟩ := List.map_eq_cons_iff.mp hls
    rw [List.map_eq_nil_iff.mp hnil]
    exact settled_cons (by rw [hli]; exact passedArgs_nil hcall) hrest hnone

theorem settled_prepareBb {is : List Instr} {groups : List (List Instr)}
    (h : is.mapM (prepareInstr F.iu (F.ffv + F.callArgBase) callargtype) = .ok groups)
    (hnum : ∀ ii ∈ is, isCall ii.cls → ∀ p, prepareCall F.iu (F.ffv + F.callArgBase) callargtype
      ((passedArgs ii.cls).map callArg) = .ok p → p.totalSlots ≤ F.numCallArgs)
    {ls : List LiveInstr} (hls : ls.map LiveInstr.instr = groups.flatten) :
    Settled F ls ∧ heldFrom F ls = ∅ := by
  induction is generalizing groups ls with
  | nil =>
    rw [← Except.ok.inj h] at hls
    rw [List.map_eq_nil_iff.mp hls]
    exact ⟨trivial, rfl⟩
  | cons ii is ih =>
    rw [List.mapM_cons] at h
    obtain ⟨group, hgroup, h⟩ := bind_ok.mp h
    obtain ⟨groups', hgroups, h⟩ := bind_ok.mp h
    rw [← Except.ok.inj h, List.flatten_cons] at hls
    obtain ⟨first, others, rfl, hfirst, hothers⟩ := List.map_eq_append_iff.mp hls
    obtain ⟨hsettled, hnone⟩ :=
      ih hgroups (fun ii hii => hnum ii (List.mem_cons_of_mem _ hii)) hothers
    exact settled_prepareInstr hgroup (hnum ii List.mem_cons_self) hfirst hsettled hnone

theorem instrs_mapM {g : Instr → Except Fault LiveInstr}
    (hg : ∀ ii li, g ii = .ok li → li.instr = ii) {is : List Instr} {ls : List LiveInstr}
    (h : is.mapM g = .ok ls) : ls.map LiveInstr.instr = is := by
  have hpairs := RelatedLists.forall₂_mapM h
  clear h
  induction hpairs with
  | nil => rfl
  | cons hli _ ih => rw [List.map_cons, ih, hg _ _ hli]

/-- A function as `prepare_calls` leaves it passes its arguments right in front of the calls. -/
theorem prepareCalls_passing {bbs : List Bb} {f : List (List LiveInstr)}
    (hbbs : bbs.mapM (prepareBb F.iu (F.ffv + F.callArgBase) callargtype) = .ok F.bbs)
    (hnum : prepareCalls F.iu (F.ffv + F.callArgBase) callargtype (callsOf bbs)
      = .ok F.numCallArgs)
    (hf : prepare F.iu F.ffv F.bbs = .ok f) : Passing F f := by
  have hblock : ∀ b < f.length, Settled F (blockAt f b) ∧ heldFrom F (blockAt f b) = ∅ := by
    intro b hb
    rcases mapM_get hf b with ⟨-, hnone⟩ | ⟨ib, ls, hib, hls, hprepare⟩
    · rw [List.getElem?_eq_getElem hb] at hnone
      cases hnone
    have heq : blockAt f b = ls := by
      unfold blockAt
      rw [hls]
      rfl
    rw [heq]
    have hinstrs : ls.map LiveInstr.instr = ib.instrs := by
      refine instrs_mapM (fun ii li hli => ?_) hprepare
      obtain ⟨gen, -, hli⟩ := bind_ok.mp hli
      obtain ⟨succ, -, hli⟩ := bind_ok.mp hli
      rw [← Except.ok.inj hli]
    rcases mapM_get hbbs b with ⟨-, hnone⟩ | ⟨ib', ib'', hib', hib'', hprepared⟩
    · rw [hib] at hnone
      cases hnone
    obtain rfl := Option.some.inj (hib.symm.trans hib'')
    obtain ⟨groups, hgroups, hib⟩ := bind_ok.mp hprepared
    refine settled_prepareBb hgroups (fun ii hii hcall p hp => ?_)
      (hinstrs.trans (congrArg Bb.instrs (Except.ok.inj hib)).symm)
    have hmem : (passedArgs ii.cls).map callArg ∈ callsOf bbs :=
      List.mem_flatMap.mpr ⟨ib', List.mem_of_getElem? hib', List.mem_map.mpr
        ⟨ii, List.mem_filter.mpr ⟨hii, hcall⟩, rfl⟩⟩
    obtain ⟨p', hp', hle⟩ := prepareCalls_spec hnum hmem
    rw [Except.ok.inj (hp.symm.trans hp')]
    exact hle
  refine ⟨fun b hb => (hblock b hb).2, fun b hb i hi => ?_⟩
  have hget : (blockAt f b)[i]? = some ((blockAt f b)[i]) := List.getElem?_eq_getElem hi
  have hat : instrAt f (b, i) = some ((blockAt f b)[i]) := by
    rw [instrAt_eq]
    exact hget
  rw [Body.results_eq hat]
  exact (hblock b hb).1.drop hget

end

end Vmir.PassedArguments
