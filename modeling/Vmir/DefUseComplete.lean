import Vmir.DefUseMerge

set_option autoImplicit false

/-!
# Def-use chains in a whole run

From the binding of the operands to the last merge, the links of each temporary lead to all
instructions that name it, as long as no store of an aggregate is split, no aggregate is given up
that is still named, no combined instruction reads what is given up for it, and no dead instruction
shares its result with another.
-/
namespace Vmir.DefUseComplete
open Ir IrTypes DefUse DefUseBinding DefUseCombine DefUsePasses DefUseStart DefUseRewrite
open DefUseAggregate DefUseMerge
open ProgramText (bind_ok)
open DeadCode (operands)

/-- The lists `iv_instructions` are complete, and no instruction refers to a dead value. -/
structure Complete (f : Function) : Prop where
  chains : ∀ l ∈ instrs f, Bound f l
  alive : ∀ l ∈ instrs f, ∀ v, Named l.instr v → classOf f v ≠ some .dead

/-- The action is not one of those that leave a link out. -/
def Meets (f : Function) : Action → Prop
  | .combineInstruction r => ∀ ii ∈ instrs f, ii.ref = r → CombinesOther f ii
  | .legalizeAggregate iv => StoresNot f iv
  | .killAggregates => AggregatesFree f
  | .visitInstr r => ∀ ii ∈ instrs f, ii.ref = r → WritesAlone f ii
  | _ => True

/-- What holds when the passes before `p` are over. -/
structure Invariant (p : ℕ) (f : Function) : Prop where
  sound : Sound ∅ f
  early : p ≤ 1 → Produced f ∧ ConstElements f
  elements : p ≤ 5 → LiveElements f

section
variable {f g : Function}

theorem invariant_early (h : Early f) (p : ℕ) : Invariant p f :=
  ⟨h.sound, fun _ => ⟨h.produced, h.consts⟩, fun _ e he vt hvt => (h.consts e he vt hvt).1⟩

theorem invariant_elements {p : ℕ} (hp : 2 ≤ p) (h : Sound ∅ f) (he : LiveElements f) :
    Invariant p f := ⟨h, fun hle => absurd (hp.trans hle) (by decide), fun _ => he⟩

theorem invariant_late {p : ℕ} (hp : 6 ≤ p) (h : Sound ∅ f) : Invariant p f :=
  ⟨h, fun hle => absurd (hp.trans hle) (by decide), fun hle => absurd (hp.trans hle) (by decide)⟩

theorem namesValue_alive (h : Sound ∅ f) {v : ℕ} (hv : namesValue f v = true) : Alive f v := by
  obtain ⟨l, hl, hmem⟩ := List.any_eq_true.mp hv
  have hnamed : v ∈ (l.instr.rets ++ operands l.instr.cls).map ValueType.value :=
    of_decide_eq_true hmem
  exact h.alive l hl v hnamed

theorem step_invariant {p : ℕ} {a : Action} (h : Invariant p f) (hp : p ≤ phase a)
    (hmeets : Meets f a) (hg : step f a = .ok g) : Invariant (phase a) g := by
  have hs := h.sound
  have hearly : p ≤ 1 → Early f := fun hle => ⟨hs, (h.early hle).1, (h.early hle).2⟩
  unfold step at hg
  cases a with
  | breakCriticalEdge source dest nb =>
    have hpre := hearly (hp.trans (Nat.zero_le 1))
    exact invariant_early (Early.criticalEdge hpre hg) _
  | combineInstruction r =>
    obtain ⟨ii, hii, hg⟩ := bind_ok.mp hg
    obtain ⟨hmem, href⟩ := instrAt_ok hii
    exact invariant_early (Early.combineInstruction (hearly hp) hmem (hmeets ii hmem href) hg) _
  | exitMove dest source before =>
    have he := h.elements (hp.trans (Nat.le_of_ble_eq_true rfl))
    dsimp only at hg
    split at hg
    · rename_i hnames
      cases hg
      have hmove := insertMove_sound hs (namesValue_alive hs hnames.1)
        (namesValue_alive hs hnames.2) before
      have hgrows : Grows f (insertMove f dest source before) := grows_create f _ _ _ _
      exact invariant_elements (Nat.le_refl 2) hmove (hgrows.liveElements he)
    · cases hg
  | exitTmpreg source before =>
    have he := h.elements (hp.trans (Nat.le_of_ble_eq_true rfl))
    dsimp only at hg
    split at hg
    · rename_i hname
      cases hg
      have hgrows := grows_append f ⟨.temporary, source.type⟩
      let tmpreg : ValueType := ⟨f.iu.values.length, source.type⟩
      have htemp : ValueClass.temporary ≠ .dead := nofun
      have halive : Alive (valueAllocTemporary f source.type).1 tmpreg.value := alive_new htemp
      have hmove := insertMove_sound (hs.append ⟨.temporary, source.type⟩) halive
        (hgrows.alive (namesValue_alive hs hname)) before
      have hgrows' := hgrows.trans (grows_create _ .before before ⟨[tmpreg], .move source⟩
        [(.output, tmpreg), (.input, source)])
      exact invariant_elements (Nat.le_refl 2) hmove (hgrows'.liveElements he)
    · cases hg
  | destroyPhi r =>
    have he := h.elements (hp.trans (Nat.le_of_ble_eq_true rfl))
    cases hg
    have hdestroy := hs.destroy r
    rw [Set.empty_sdiff] at hdestroy
    exact invariant_elements (Nat.le_refl 2) hdestroy he
  | prepareCalls callargtype =>
    have he := h.elements (hp.trans (Nat.le_of_ble_eq_true rfl))
    obtain ⟨hsound, hframe⟩ := prepareCalls_sound hs hg
    exact invariant_elements (Nat.le_of_ble_eq_true rfl) hsound (hframe.liveElements he)
  | allocElements fuel firstFuncValue =>
    have he := h.elements (hp.trans (Nat.le_of_ble_eq_true rfl))
    obtain ⟨hsound, helems⟩ := allocElements_sound hs he hg
    exact invariant_elements (Nat.le_of_ble_eq_true rfl) hsound helems
  | legalizeAggregate iv =>
    have he := h.elements hp
    obtain ⟨hsound, helems⟩ := legalizeAggregate_sound hs he hmeets hg
    exact invariant_elements (Nat.le_of_ble_eq_true rfl) hsound helems
  | killAggregates =>
    cases hg
    exact invariant_late (Nat.le_refl 6) (killAggregates_sound hs hmeets)
  | splitAggregatedLoad depth r =>
    obtain ⟨ii, hii, hg⟩ := bind_ok.mp hg
    exact invariant_late (Nat.le_of_ble_eq_true rfl) (splitAggregatedLoad_sound hs (instrAt_ok hii).1 hg)
  | visitInstr r =>
    obtain ⟨ii, hii, hg⟩ := bind_ok.mp hg
    cases hg
    obtain ⟨hmem, href⟩ := instrAt_ok hii
    exact invariant_late (Nat.le_of_ble_eq_true rfl) (visitInstr_sound hs (hmeets ii hmem href))
  | bbDestroy id =>
    cases hg
    exact invariant_late (Nat.le_of_ble_eq_true rfl) (bbDestroy_sound hs id)
  | mergeBlocks ib source => exact invariant_late (Nat.le_of_ble_eq_true rfl) (mergeBlocks_sound hs hg)
  | coalesceMove r killSource =>
    obtain ⟨ii, hii, hg⟩ := bind_ok.mp hg
    exact invariant_late (Nat.le_of_ble_eq_true rfl) (coalesceMove_sound hs (instrAt_ok hii).1 hg)

theorem reach_invariant {f₀ : Function} {p : ℕ} (h₀ : Parsed f₀) (h : Reach Meets f₀ p f) :
    Invariant p f := by
  induction h with
  | start hbind => exact invariant_early (h₀.early hbind) 0
  | step _ hp hmeets hg ih => exact step_invariant ih hp hmeets hg

theorem complete_of_meets {f₀ : Function} {p : ℕ} (h₀ : Parsed f₀) (h : Reach Meets f₀ p f) :
    Complete f := by
  have hs := (reach_invariant h₀ h).sound
  constructor
  · exact fun l hl => hs.bound l hl (Set.notMem_empty _)
  · exact fun l hl v hv => (hs.alive l hl v hv).2

end

/-! ## Runs that are tested -/

/-- The actions in their order, each of which passes the test. -/
def runWith (test : Function → Action → Bool) : List Action → Function → Except Fault Function
  | [], f => .ok f
  | a :: as, f => if test f a then step f a >>= runWith test as else .error .abort

def runFrom (test : Function → Action → Bool) (f₀ : Function) (as : List Action) :
    Except Fault Function := do
  let f ← functionBindInstrInputs f₀
  runWith test as f

section
variable {allowed : Function → Action → Prop} {test : Function → Action → Bool}
variable {f₀ f g : Function} {p : ℕ} {as : List Action}

theorem reach_runWith (htest : ∀ f a, test f a = true → allowed f a) (h : Reach allowed f₀ p f)
    (hphases : (p :: as.map phase).IsChain (· ≤ ·)) (hg : runWith test as f = .ok g) :
    Reach allowed f₀ ((as.map phase).getLastD p) g := by
  induction as generalizing p f with
  | nil =>
    cases hg
    exact h
  | cons a as ih =>
    rw [runWith] at hg
    split at hg
    · next hpass =>
      obtain ⟨f', hf', hg⟩ := bind_ok.mp hg
      rw [List.map_cons, List.isChain_cons_cons] at hphases
      rw [List.map_cons, List.getLastD_cons]
      exact ih (h.step hphases.1 (htest f a hpass) hf') hphases.2 hg
    · cases hg

theorem runFrom_reach (htest : ∀ f a, test f a = true → allowed f a)
    (hphases : (0 :: as.map phase).IsChain (· ≤ ·)) (hg : runFrom test f₀ as = .ok g) :
    Reach allowed f₀ ((as.map phase).getLastD 0) g := by
  obtain ⟨f, hf, hg⟩ := bind_ok.mp hg
  exact reach_runWith htest (.start hf) hphases hg

theorem run_holds {P : Function → Bool}
    (h : (match runFrom test f₀ as with | .ok f => P f | .error _ => false) = true) :
    ∃ f, runFrom test f₀ as = .ok f ∧ P f = true := by
  cases hrun : runFrom test f₀ as with
  | error e =>
    rw [hrun] at h
    cases h
  | ok f =>
    rw [hrun] at h
    exact ⟨f, rfl, h⟩

end

/-! ## Conditions that can be tested -/

instance (f : Function) (v : ℕ) : Decidable (Alive f v) := inferInstanceAs (Decidable (_ ∧ _))

instance (f : Function) : Decidable (Produced f) :=
  inferInstanceAs (Decidable (∀ k ∈ f.links, k.relation = .output → ∀ l ∈ instrs f,
    l.ref = k.instr → k.value ∈ l.instr.rets.map ValueType.value))

instance (f : Function) : Decidable (ConstElements f) :=
  inferInstanceAs (Decidable (∀ e ∈ f.elements, ∀ vt ∈ e.2,
    Alive f vt.value ∧ isTemporary f vt.value = false))

instance (f : Function) : Decidable (Parsed f) :=
  decidable_of_iff ((∀ l ∈ instrs f, ∀ v ∈ (l.instr.rets ++ operands l.instr.cls).map
      ValueType.value, Alive f v)
    ∧ (∀ l ∈ instrs f, ∀ l' ∈ instrs f, l.ref = l'.ref → l = l')
    ∧ (∀ l ∈ instrs f, l.ref < f.nextRef) ∧ (∀ k ∈ f.links, k.instr < f.nextRef)
    ∧ (∀ l ∈ instrs f, l.instr.rets.length ≤ 1) ∧ Produced f ∧ ConstElements f)
    ⟨fun h => ⟨h.1, h.2.1, h.2.2.1, h.2.2.2.1, h.2.2.2.2.1, h.2.2.2.2.2.1, h.2.2.2.2.2.2⟩,
      fun h => ⟨h.alive, h.refs, h.oldInstrs, h.oldLinks, h.single, h.produced, h.consts⟩⟩

def isStore : InstrClass → Bool
  | .store .. => true
  | _ => false

theorem isStore_eq_false {cls : InstrClass} :
    isStore cls = false ↔ ∀ ptr value immediateOffset, cls ≠ .store ptr value immediateOffset := by
  cases cls <;> simp [isStore]

instance (f : Function) (iv : ℕ) : Decidable (StoresNot f iv) :=
  decidable_of_iff (∀ ivi ∈ (ivInstructions f iv).head?, ∀ ii ∈ instrs f, ii.ref = ivi.instr →
    isStore ii.instr.cls = false)
    ⟨fun h ivi ii hivi hii href => isStore_eq_false.mp (h ivi hivi ii hii href),
      fun h ivi hivi ii hii href => isStore_eq_false.mpr (h ivi ii hivi hii href)⟩

theorem lt_of_isTemporary {f : Function} {v : ℕ} (h : isTemporary f v = true) :
    v < f.iu.values.length := by
  have hcls : classOf f v = some .temporary := of_decide_eq_true h
  obtain ⟨iv, hiv, -⟩ := Option.map_eq_some_iff.mp hcls
  exact (List.getElem?_eq_some_iff.mp hiv).1

instance (f : Function) : Decidable (AggregatesFree f) :=
  decidable_of_iff (∀ v < f.iu.values.length, isTemporary f v = true → elementsOf f v ≠ [] →
    ivInstructions f v = [])
    ⟨fun h v htemp => h v (lt_of_isTemporary htemp) htemp, fun h v _ => h v⟩

instance (f : Function) (ii : Linked) : Decidable (WritesAlone f ii) :=
  inferInstanceAs (Decidable (∀ v ∈ DeadCode.output ⟨ii.instr, []⟩,
    ((ivInstructions f v).any fun ivi => ivi.relation = .input) = false → isTemporary f v = true
      ∧ ∀ l ∈ instrs f, v ∈ l.instr.rets.map ValueType.value → l.ref = ii.ref))

/-- A test for `Meets`. Combined instructions do not pass it. -/
def meets (f : Function) : Action → Bool
  | .combineInstruction _ => false
  | .legalizeAggregate iv => decide (StoresNot f iv)
  | .killAggregates => decide (AggregatesFree f)
  | .visitInstr r => decide (∀ ii ∈ instrs f, ii.ref = r → WritesAlone f ii)
  | _ => true

theorem meets_of_test (f : Function) (a : Action) (h : meets f a = true) : Meets f a := by
  cases a with
  | combineInstruction r => cases h
  | legalizeAggregate iv =>
    have hstores : StoresNot f iv := of_decide_eq_true h
    exact hstores
  | killAggregates =>
    have hfree : AggregatesFree f := of_decide_eq_true h
    exact hfree
  | visitInstr r =>
    have halone : ∀ ii ∈ instrs f, ii.ref = r → WritesAlone f ii := of_decide_eq_true h
    exact halone
  | _ => exact trivial

/-! ## Pairs -/

/-- A pair is loaded, its second element is returned, and its first one is not used. -/
def pairLoad : Function where
  iu :=
    { types := [.int32, .struct ⟨[⟨0, 0⟩, ⟨0, 4⟩], 8, 4, false, none⟩, .pointer (some 1)]
      values := [⟨.regframe 0, 2⟩, ⟨.temporary, 0⟩, ⟨.temporary, 1⟩, ⟨.temporary, 0⟩]
      textAlloc := fun _ => 0 }
  bbs := [⟨0, [⟨0, [⟨2, 1⟩], .load ⟨0, 2⟩ 0 none 0 none 0⟩, ⟨1, [⟨1, 0⟩], .extractval ⟨2, 1⟩ [1]⟩,
    ⟨2, [⟨3, 0⟩], .extractval ⟨2, 1⟩ [0]⟩, ⟨3, [], .ret (some ⟨1, 0⟩)⟩]⟩]
  links := [⟨1, 1, .output⟩, ⟨2, 0, .output⟩, ⟨3, 2, .output⟩]
  nextRef := 4
  elements := []

/-- The load is split, the first element is given up, and the second one takes the place of what is
returned. -/
def pairLoadPasses : List Action :=
  [.allocElements 10 0, .legalizeAggregate 2, .legalizeAggregate 2, .legalizeAggregate 2,
    .killAggregates, .splitAggregatedLoad 0 0, .visitInstr 2, .coalesceMove 1 true]

theorem pairLoad_complete : ∃ f, runFrom meets pairLoad pairLoadPasses = .ok f
    ∧ (instrs f).map Linked.ref = [4, 5, 3] ∧ Complete f := by
  obtain ⟨f, hrun, hrefs⟩ : ∃ f, runFrom meets pairLoad pairLoadPasses = .ok f
      ∧ decide ((instrs f).map Linked.ref = [4, 5, 3]) = true := run_holds (by decide)
  have hreach : Reach Meets pairLoad 9 f := runFrom_reach meets_of_test (by decide) hrun
  exact ⟨f, hrun, of_decide_eq_true hrefs, complete_of_meets (by decide) hreach⟩

/-- A pair is loaded, stored, and its second element is returned. -/
def pairStore : Function where
  iu :=
    { types := [.int32, .struct ⟨[⟨0, 0⟩, ⟨0, 4⟩], 8, 4, false, none⟩, .pointer (some 1)]
      values := [⟨.regframe 0, 2⟩, ⟨.temporary, 0⟩, ⟨.temporary, 1⟩]
      textAlloc := fun _ => 0 }
  bbs := [⟨0, [⟨0, [⟨2, 1⟩], .load ⟨0, 2⟩ 0 none 0 none 0⟩, ⟨1, [], .store ⟨0, 2⟩ ⟨2, 1⟩ 0⟩,
    ⟨2, [⟨1, 0⟩], .extractval ⟨2, 1⟩ [1]⟩, ⟨3, [], .ret (some ⟨1, 0⟩)⟩]⟩]
  links := [⟨1, 2, .output⟩, ⟨2, 0, .output⟩]
  nextRef := 4
  elements := []

/-- The passes between the binding of the operands and the merging of values. -/
def pairPasses : List Action :=
  [.allocElements 10 0, .legalizeAggregate 2, .legalizeAggregate 2, .legalizeAggregate 2,
    .killAggregates, .splitAggregatedLoad 0 0, .visitInstr 2]

/-- An operand is a temporary without a link to the instruction. -/
def lacksLink (f : Function) : Bool :=
  (instrs f).any fun l => (operands l.instr.cls).any fun vt =>
    isTemporary f vt.value && decide (⟨vt.value, l.ref, .input⟩ ∉ f.links)

def namesDead (f : Function) : Bool :=
  (instrs f).any fun l => (operands l.instr.cls).any fun vt =>
    decide (classOf f vt.value = some .dead)

/-- The second store of the pair has no link from its value, and names it when it is dead. -/
theorem pairStore_incomplete : Parsed pairStore
    ∧ (∃ p f, Reach (fun _ _ => True) pairStore p f ∧ p ≤ 8 ∧ ¬ ∀ l ∈ instrs f, Bound f l)
    ∧ ∃ f, Reach (fun _ _ => True) pairStore 9 f
      ∧ ∃ l ∈ instrs f, ∃ v, Named l.instr v ∧ classOf f v = some .dead := by
  refine ⟨by decide, ?_, ?_⟩
  · obtain ⟨f, hrun, hlacks⟩ : ∃ f, runFrom (fun _ _ => true) pairStore pairPasses = .ok f
        ∧ lacksLink f = true := run_holds (by decide)
    have hreach := runFrom_reach (fun _ _ _ => trivial) (by decide) hrun
    refine ⟨8, f, hreach, Nat.le_refl 8, fun hall => ?_⟩
    obtain ⟨l, hl, hops⟩ := List.any_eq_true.mp hlacks
    obtain ⟨vt, hvt, hlink⟩ := List.any_eq_true.mp hops
    obtain ⟨htemp, hmissing⟩ := (Bool.and_eq_true _ _).mp hlink
    exact of_decide_eq_true hmissing ((hall l hl).inputs vt hvt htemp)
  · obtain ⟨f, hrun, hdead⟩ : ∃ f, runFrom (fun _ _ => true) pairStore
        (pairPasses ++ [.coalesceMove 2 true]) = .ok f
        ∧ namesDead f = true := run_holds (by decide)
    refine ⟨f, runFrom_reach (fun _ _ _ => trivial) (by decide) hrun, ?_⟩
    obtain ⟨l, hl, hops⟩ := List.any_eq_true.mp hdead
    obtain ⟨vt, hvt, hclass⟩ := List.any_eq_true.mp hops
    exact ⟨l, hl, vt.value, named_operand hvt, of_decide_eq_true hclass⟩

end Vmir.DefUseComplete
