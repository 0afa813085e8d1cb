import Vmir.ExceptFold
import Vmir.ProgramText
import Vmir.ReplaceInstructions

set_option autoImplicit false

/-!
# What the walk replaces

Each rule leaves instructions that no rule is for. The walk applies the rule of every instruction,
but for the one behind a call that it removes.
-/
namespace Vmir.ReplaceComplete
open Ir IrTypes ConstExprs GepLowering ReplaceInstructions
open DefUse (Linked Block)
open ExceptFold (foldlM_ok)
open ProgramText (bind_ok)

/-! ## Values that are added -/

/-- Values have been added that are no functions. -/
def Grew (iu iu' : IrUnit) : Prop :=
  ∃ extra, iu'.values = iu.values ++ extra ∧ ∀ v ∈ extra, ∀ gfid, v.cls ≠ .function gfid

section
variable {env : Env} {iu iu' iu'' : IrUnit}

theorem Grew.refl (iu : IrUnit) : Grew iu iu := ⟨[], (List.append_nil _).symm, nofun⟩

theorem Grew.trans (h : Grew iu iu') (h' : Grew iu' iu'') : Grew iu iu'' := by
  obtain ⟨extra, hvalues, hextra⟩ := h
  obtain ⟨extra', hvalues', hextra'⟩ := h'
  refine ⟨extra ++ extra', ?_, fun v hv => ?_⟩
  · rw [hvalues', hvalues, List.append_assoc]
  · rcases List.mem_append.mp hv with hv | hv
    · exact hextra v hv
    · exact hextra' v hv

theorem grew_of_values (h : iu'.values = iu.values) : Grew iu iu' :=
  ⟨[], by rw [h, List.append_nil], nofun⟩

theorem grew_temporary (iu : IrUnit) (type : ℕ) : Grew iu (valueAllocInstrRet iu type).1 := by
  refine ⟨[⟨.temporary, type⟩], rfl, fun v hv gfid => ?_⟩
  rw [List.mem_singleton.mp hv]
  exact nofun

theorem grew_makePointer (iu : IrUnit) (type : ℕ) : Grew iu (makePointer iu type).1 := by
  unfold makePointer
  split
  · exact Grew.refl iu
  · exact grew_of_values rfl

theorem grew_makePointers (es : List StructElement) (iu : IrUnit) : Grew iu (makePointers iu es).1 := by
  induction es generalizing iu with
  | nil => exact Grew.refl iu
  | cons e es ih => exact (grew_makePointer iu e.type).trans (ih _)

theorem vmopOf_grew (h : Grew iu iu') (v : ℕ) : vmopOf env iu' v = vmopOf env iu v := by
  obtain ⟨extra, hvalues, hextra⟩ := h
  have hfunction : valueFunction env iu' v = valueFunction env iu v := by
    unfold valueFunction
    rw [hvalues]
    by_cases hlt : v < iu.values.length
    · rw [List.getElem?_append_left hlt]
    · rw [List.getElem?_append_right (Nat.le_of_not_lt hlt),
        List.getElem?_eq_none (Nat.le_of_not_lt hlt)]
      cases hx : extra[v - iu.values.length]? with
      | none => rfl
      | some x =>
        have hne := hextra x (List.mem_of_getElem? hx)
        cases hcls : x.cls with
        | function gfid => exact absurd hcls (hne gfid)
        | _ => simp only [Option.map_some, Option.map_none, hcls]
  unfold vmopOf
  rw [hfunction]

theorem inRegister_grew (h : Grew iu iu') {v : ℕ} (hv : inRegister iu v) : inRegister iu' v := by
  obtain ⟨extra, hvalues, -⟩ := h
  obtain ⟨iv, hget, hcls⟩ := hv
  refine ⟨iv, ?_, hcls⟩
  rw [hvalues, List.getElem?_append_left (List.getElem?_eq_some_iff.mp hget).1]
  exact hget

theorem replaced_grew (h : Grew iu iu') {cls : InstrClass} (hr : Replaced env iu cls) :
    Replaced env iu' cls := by
  cases cls with
  | call callee argv => exact (vmopOf_grew h callee.value).trans hr
  | invoke callee n u argv => exact (vmopOf_grew h callee.value).trans hr
  | binop op lhs rhs => exact inRegister_grew h hr
  | _ => exact hr

theorem noSkips_grew (h : Grew iu iu') (ls : List Linked) :
    NoSkips env iu' ls ↔ NoSkips env iu ls := by
  induction ls with
  | nil => exact Iff.rfl
  | cons l ls ih =>
    unfold NoSkips
    rw [ih]
    simp only [vmopOf_grew h]

end

/-! ## The chain of a GEP -/

def MoveOrLea (i : Instr) : Prop :=
  match i.cls with
  | .move _ => True
  | .lea _ _ _ _ => True
  | _ => False

/-- What is added in front of an instruction. -/
structure Prepared (iu : IrUnit) (s : Lowering) : Prop where
  grew : Grew iu s.iu
  before : ∀ i ∈ s.before, MoveOrLea i

section
variable {iu : IrUnit} {s s' : Lowering} {vt vt' : ValueType}

theorem Prepared.add (h : Prepared iu s) {iu' : IrUnit} (hgrew : Grew s.iu iu') {i : Instr}
    (hi : MoveOrLea i) : Prepared iu ⟨iu', s.before ++ [i]⟩ := by
  constructor
  · exact h.grew.trans hgrew
  · intro j hj
    rcases List.mem_append.mp hj with hj | hj
    · exact h.before j hj
    · rw [List.mem_singleton.mp hj]
      exact hi

theorem prepared_start (iu : IrUnit) : Prepared iu ⟨iu, []⟩ :=
  ⟨Grew.refl iu, fun _ hi => absurd hi List.not_mem_nil⟩

theorem registerify_prepared (h : Prepared iu s) (hok : registerify s vt = .ok (s', vt')) :
    Prepared iu s' ∧ inRegister s'.iu vt'.value ∧ Grew s.iu s'.iu := by
  obtain ⟨v, hv, hok⟩ := bind_ok.mp hok
  have hget : s.iu.values[vt.value]? = some v := by
    unfold valueGet at hv
    split at hv
    · rename_i w hw
      cases hv
      exact hw
    · cases hv
  have hmove : ∀ s₁ vt₁, (.ok (⟨(valueAllocInstrRet s.iu v.type).1,
      s.before ++ [⟨[(valueAllocInstrRet s.iu v.type).2], .move vt⟩]⟩,
      (valueAllocInstrRet s.iu v.type).2) : Except Fault (Lowering × ValueType)) = .ok (s₁, vt₁) →
      Prepared iu s₁ ∧ inRegister s₁.iu vt₁.value ∧ Grew s.iu s₁.iu := by
    intro s₁ vt₁ heq
    cases heq
    refine ⟨h.add (grew_temporary _ _) trivial, ⟨⟨.temporary, v.type⟩, ?_, Or.inl rfl⟩,
      grew_temporary _ _⟩
    exact List.getElem?_concat_length
  cases hcls : v.cls
  case temporary =>
    simp only [hcls] at hok
    cases hok
    exact ⟨h, ⟨v, hget, Or.inl hcls⟩, Grew.refl _⟩
  case regframe reg =>
    simp only [hcls] at hok
    cases hok
    exact ⟨h, ⟨v, hget, Or.inr ⟨reg, hcls⟩⟩, Grew.refl _⟩
  case globalvar addr =>
    simp only [hcls] at hok
    exact hmove _ _ hok
  case constant x =>
    simp only [hcls] at hok
    exact hmove _ _ hok
  all_goals
    simp only [hcls] at hok
    cases hok

theorem addLea_prepared {ret baseptr : ValueType} {imm mult : BitVec 32} {offset : Option ValueType}
    (h : Prepared iu s) (hok : addLea s ret baseptr imm offset mult = .ok s') : Prepared iu s' := by
  obtain ⟨⟨s₁, base⟩, hreg, hok⟩ := bind_ok.mp hok
  cases hok
  exact (registerify_prepared h hreg).1.add (Grew.refl _) trivial

theorem interimLea_prepared {g g' : LeaLoop} {type : ℕ} {offset : ValueType}
    (h : Prepared iu g.lowering) (hok : interimLea g type offset = .ok g') :
    Prepared iu g'.lowering := by
  obtain ⟨⟨s₁, ret⟩, hinterim, hok⟩ := bind_ok.mp hok
  cases hok
  obtain ⟨s₂, hlea, hinterim⟩ := bind_ok.mp hinterim
  cases hinterim
  apply addLea_prepared ?_ hlea
  exact ⟨h.grew.trans ((grew_makePointer _ _).trans (grew_temporary _ _)), h.before⟩

theorem scaledIndex_prepared {depth inner : ℕ} {g g' : LeaLoop} {index : ValueType}
    {interim : ValueType → Except Fault LeaLoop} {unsupported : Fault}
    (h : Prepared iu g.lowering)
    (hinterim : ∀ o g', interim o = .ok g' → Prepared iu g'.lowering)
    (hok : scaledIndex depth g index inner interim unsupported = .ok g') :
    Prepared iu g'.lowering := by
  obtain ⟨op, -, hok⟩ := bind_ok.mp hok
  cases hcls : op.cls
  case constant x =>
    simp only [hcls] at hok
    obtain ⟨x, -, hok⟩ := bind_ok.mp hok
    obtain ⟨size, -, hok⟩ := bind_ok.mp hok
    cases hok
    exact h
  case temporary =>
    simp only [hcls] at hok
    obtain ⟨g₁, hg₁, hok⟩ := bind_ok.mp hok
    obtain ⟨size, -, hok⟩ := bind_ok.mp hok
    cases hok
    split at hg₁
    · cases hg₁
      exact h
    · exact hinterim _ g₁ hg₁
  case regframe reg =>
    simp only [hcls] at hok
    obtain ⟨g₁, hg₁, hok⟩ := bind_ok.mp hok
    obtain ⟨size, -, hok⟩ := bind_ok.mp hok
    cases hok
    split at hg₁
    · cases hg₁
      exact h
    · exact hinterim _ g₁ hg₁
  all_goals
    simp only [hcls] at hok
    cases hok

theorem structIndex_lowering {g g' : LeaLoop} {index : ValueType} {st : StructType}
    (hok : structIndex g index st = .ok g') : g'.lowering = g.lowering := by
  obtain ⟨op, -, hok⟩ := bind_ok.mp hok
  cases hcls : op.cls
  case constant x =>
    simp only [hcls] at hok
    obtain ⟨x, -, hok⟩ := bind_ok.mp hok
    split at hok
    · cases hok
    · split at hok
      · cases hok
      · cases hok
        rfl
  all_goals
    simp only [hcls] at hok
    cases hok

theorem leaIndex_prepared {depth : ℕ} {g g' : LeaLoop} {i : GepIndex}
    (h : Prepared iu g.lowering) (hok : leaIndex depth g i = .ok g') : Prepared iu g'.lowering := by
  obtain ⟨cur, -, hok⟩ := bind_ok.mp hok
  cases cur with
  | pointer pointee => exact scaledIndex_prepared h (fun _ _ h' => by cases h') hok
  | struct st =>
    rw [structIndex_lowering hok]
    exact h
  | array n e => exact scaledIndex_prepared h (fun _ _ h' => interimLea_prepared h h') hok
  | _ => cases hok

theorem replaceGep_prepared {depth : ℕ} {ret baseptr : ValueType} {indicies : List GepIndex}
    (hok : replaceGepWithLea iu depth ret baseptr indicies = .ok s) : Prepared iu s := by
  obtain ⟨g, hloop, hok⟩ := bind_ok.mp hok
  have hstart : Prepared iu (⟨⟨iu, []⟩, baseptr, 0, none, 0⟩ : LeaLoop).lowering :=
    prepared_start iu
  have hstep : ∀ (g : LeaLoop) (i : GepIndex) (g' : LeaLoop), Prepared iu g.lowering →
      i ∈ indicies → leaIndex depth g i = .ok g' → Prepared iu g'.lowering ∧ True :=
    fun g i g' hg _ hi => ⟨leaIndex_prepared hg hi, trivial⟩
  exact addLea_prepared (foldlM_ok hstep hstart hloop).1 hok

end

/-! ## What a rule does -/

theorem addInstrs_fst (is : List Instr) (p : Pass) :
    (addInstrs p is).1.iu = p.iu ∧ (addInstrs p is).1.examined = p.examined := by
  induction is generalizing p with
  | nil => exact ⟨rfl, rfl⟩
  | cons i is ih => exact ih (addInstr p i)

theorem addInstrs_snd (is : List Instr) (p : Pass) :
    ∀ l ∈ (addInstrs p is).2, l.instr ∈ is := by
  induction is generalizing p with
  | nil => exact nofun
  | cons i is ih =>
    intro l hl
    rcases List.mem_cons.mp hl with rfl | hl
    · exact List.mem_cons_self
    · exact List.mem_cons_of_mem i (ih _ l hl)

def IsNop (env : Env) (iu : IrUnit) (cls : InstrClass) : Prop :=
  ∃ callee, calleeOf cls = some callee ∧ vmopOf env iu callee.value = vmNop

/-- The instructions that are left, behind what was noted before. -/
structure Stepped (env : Env) (p p' : Pass) (instrs : List Linked) : Prop where
  grew : Grew p.iu p'.iu
  examined : p'.examined = p.examined
  replaced : ∀ l ∈ instrs, Replaced env p'.iu l.instr.cls

section
variable {env : Env} {p p' : Pass} {l : Linked} {instrs : List Linked}

theorem replaced_moveOrLea {iu : IrUnit} {i : Instr} (h : MoveOrLea i) : Replaced env iu i.cls := by
  unfold MoveOrLea at h
  cases hcls : i.cls <;> simp only [hcls] at h <;> exact trivial

theorem Stepped.refl (h : Replaced env p.iu l.instr.cls) : Stepped env p p [l] := by
  constructor
  · exact Grew.refl p.iu
  · rfl
  · intro l' hl'
    rw [List.mem_singleton.mp hl']
    exact h

theorem stepped_before {s : Lowering} {after : List Linked} (hs : Prepared p.iu s)
    (hafter : ∀ l ∈ after, Replaced env s.iu l.instr.cls) :
    Stepped env p (addInstrs { p with iu := s.iu } s.before).1
      ((addInstrs { p with iu := s.iu } s.before).2 ++ after) := by
  obtain ⟨hiu, hexamined⟩ := addInstrs_fst s.before { p with iu := s.iu }
  constructor
  · rw [hiu]
    exact hs.grew
  · exact hexamined
  · intro l hl
    rw [hiu]
    rcases List.mem_append.mp hl with hl | hl
    · exact replaced_moveOrLea (hs.before _ (addInstrs_snd _ _ l hl))
    · exact hafter l hl

theorem visitGep_stepped {baseptr : ValueType} {indicies : List GepIndex} {v : Visited}
    (hok : visitGep p env l baseptr indicies = .ok v) :
    ∃ p' instrs, v = .kept p' instrs ∧ Stepped env p p' instrs := by
  unfold visitGep at hok
  split at hok
  · obtain ⟨s, hs, hok⟩ := bind_ok.mp hok
    cases hok
    have h := @stepped_before env p s [] (replaceGep_prepared hs) nofun
    rw [List.append_nil] at h
    exact ⟨_, _, rfl, ⟨h.grew, h.examined, h.replaced⟩⟩
  · cases hok

theorem aggregateElements_grew {iu iu' : IrUnit} {value : ValueType} {s : StructType}
    {values : List ValueType} (hok : aggregateElements env iu value s = .ok (some (iu', values))) :
    Grew iu iu' := by
  obtain ⟨iv, -, hok⟩ := bind_ok.mp hok
  cases hcls : iv.cls
  case aggregate =>
    simp only [hcls] at hok
    split at hok
    · cases hok
    · cases hok
      exact Grew.refl iu
  case zeroInitializer =>
    simp only [hcls] at hok
    cases hok
    refine ⟨_, rfl, fun v hv gfid => ?_⟩
    obtain ⟨e, -, rfl⟩ := List.mem_map.mp hv
    exact nofun
  all_goals
    simp only [hcls] at hok
    cases hok

theorem splitConst_stepped {ptr value : ValueType} {immediateOffset : ℤ} {v : Visited}
    (hok : splitConstStoreAggregate p env l ptr value immediateOffset = .ok v) :
    ∃ p' instrs, v = .kept p' instrs ∧ Stepped env p p' instrs := by
  obtain ⟨iv, -, hok⟩ := bind_ok.mp hok
  split at hok
  · cases hok
    exact ⟨_, _, rfl, Stepped.refl trivial⟩
  · obtain ⟨it, -, hok⟩ := bind_ok.mp hok
    cases it with
    | struct s =>
      obtain ⟨elements, helements, hok⟩ := bind_ok.mp hok
      cases elements with
      | none =>
        cases hok
        exact ⟨_, _, rfl, Stepped.refl trivial⟩
      | some r =>
        obtain ⟨iu, values⟩ := r
        simp only at hok
        split at hok
        · cases hok
        · rename_i first rest hstores
          cases hok
          refine ⟨_, _, rfl, ?_, ?_, ?_⟩
          · rw [(addInstrs_fst _ _).1]
            exact (aggregateElements_grew helements).trans (grew_makePointers _ _)
          · exact (addInstrs_fst _ _).2
          · have hstore : ∀ cls ∈ first :: rest, ∀ iu', Replaced env iu' cls := by
              intro cls hcls iu'
              rw [← hstores] at hcls
              obtain ⟨e, -, rfl⟩ := List.mem_map.mp hcls
              exact trivial
            intro l' hl'
            rcases List.mem_cons.mp hl' with rfl | hl'
            · exact hstore first List.mem_cons_self _
            · obtain ⟨cls, hcls, hinstr⟩ := List.mem_map.mp (addInstrs_snd _ _ l' hl')
              rw [← hinstr]
              exact hstore cls (List.mem_cons_of_mem first hcls) _
    | _ => cases hok

theorem mergeLoad_cls {ptr : ValueType} {immediateOffset valueOffsetMultiply : ℤ}
    {valueOffset : Option ValueType} {cast : Option CastOp} {loadType : BitVec 8} {l' : Linked}
    (hl : l.instr.cls = .load ptr immediateOffset valueOffset valueOffsetMultiply cast loadType)
    (hok : mergeLeaIntoLoad p l ptr immediateOffset valueOffset valueOffsetMultiply cast loadType
      = .ok l') (iu : IrUnit) : Replaced env iu l'.instr.cls := by
  obtain ⟨iv, -, hok⟩ := bind_ok.mp hok
  split at hok
  · split at hok
    · cases hok
    · split at hok
      · cases hok
        rw [hl]
        exact trivial
      · split at hok
        · cases hok
        · cases hok
          exact trivial
  · cases hok
    exact trivial

theorem singlePath_stepped {nodes : PhiNodes} (hl : l.instr.cls = .phi nodes) :
    ∃ p' instrs, replaceSinglePathPhi p l nodes = .kept p' instrs ∧ Stepped env p p' instrs := by
  unfold replaceSinglePathPhi
  split
  · refine ⟨_, _, rfl, Grew.refl _, rfl, fun l' hl' => ?_⟩
    rw [List.mem_singleton.mp (addInstrs_snd _ _ l' hl' )]
    exact trivial
  · rename_i hne
    refine ⟨_, _, rfl, Stepped.refl ?_⟩
    rw [hl]
    intro hlength
    obtain ⟨node, hnode⟩ := List.length_eq_one_iff.mp hlength
    exact hne node hnode

end

/-! ## Calls -/

section
variable {env : Env} {p p' : Pass} {l : Linked} {instrs : List Linked}

theorem registerifyArgs_prepared {iu : IrUnit} (argv : List Arg) {s s' : Lowering}
    {argv' : List Arg} (h : Prepared iu s) (hok : registerifyArgs s argv = .ok (s', argv')) :
    Prepared iu s' := by
  induction argv generalizing s s' argv' with
  | nil =>
    cases hok
    exact h
  | cons a argv ih =>
    unfold registerifyArgs at hok
    split at hok
    · cases hok
    · obtain ⟨⟨s₁, value⟩, hreg, hok⟩ := bind_ok.mp hok
      obtain ⟨⟨s₂, rest⟩, hrest, hok⟩ := bind_ok.mp hok
      cases hok
      exact ih (registerify_prepared h hreg).1 hrest

theorem callToVmop_stepped {f : FunctionInfo} {callee : ValueType} {argv : List Arg}
    {normalDest : Option ℕ} {v : Visited} (hok : callToVmop p l f callee argv normalDest = .ok v) :
    ∃ p' instrs, v = .kept p' instrs ∧ Stepped env p p' instrs := by
  unfold callToVmop at hok
  split at hok
  · cases hok
  · obtain ⟨⟨s, argv'⟩, hargs, hok⟩ := bind_ok.mp hok
    have hs : Prepared p.iu s := registerifyArgs_prepared _ (prepared_start p.iu) hargs
    cases normalDest with
    | none =>
      cases hok
      refine ⟨_, _, rfl, stepped_before hs fun l' hl' => ?_⟩
      rw [List.mem_singleton.mp hl']
      exact trivial
    | some dest =>
      cases hok
      have h := @stepped_before env p s
        [⟨l.ref, ⟨l.instr.rets, .vmop f.vmop callee argv'⟩⟩,
          ⟨(addInstrs { p with iu := s.iu } s.before).1.nextRef, ⟨[], .br none dest 0⟩⟩] hs
        (fun l' hl' => by
          rcases List.mem_pair.mp hl' with rfl | rfl
          · exact trivial
          · exact trivial)
      exact ⟨_, _, rfl, h.grew, h.examined, h.replaced⟩

theorem vmopOf_function {iu : IrUnit} {v : ℕ} {f : FunctionInfo}
    (h : valueFunction env iu v = some f) : vmopOf env iu v = f.vmop := by
  unfold vmopOf
  rw [h]

theorem replaceCall_spec {callee : ValueType} {argv : List Arg} {normalDest : Option ℕ}
    {v : Visited} (hcallee : calleeOf l.instr.cls = some callee)
    (hok : replaceCall p env l callee argv normalDest = .ok v) :
    (¬ IsNop env p.iu l.instr.cls ∧ ∃ p' instrs, v = .kept p' instrs ∧ Stepped env p p' instrs)
    ∨ (IsNop env p.iu l.instr.cls ∧ v = .removed (instrDestroy p l)) := by
  have hnop : IsNop env p.iu l.instr.cls ↔ vmopOf env p.iu callee.value = vmNop := by
    unfold IsNop
    rw [hcallee]
    simp only [Option.some.injEq, exists_eq_left']
  have hkept : vmopOf env p.iu callee.value = 0 → Stepped env p p [l] := by
    intro h
    apply Stepped.refl
    cases hcls : l.instr.cls <;> rw [hcls] at hcallee <;> cases hcallee
    all_goals
      exact h
  rw [hnop]
  unfold replaceCall at hok
  cases hf : valueFunction env p.iu callee.value with
  | none =>
    have hzero : vmopOf env p.iu callee.value = 0 := by
      unfold vmopOf
      rw [hf]
    simp only [hf] at hok
    cases hok
    rw [hzero]
    exact Or.inl ⟨by decide, p, [l], rfl, hkept hzero⟩
  | some f =>
    have hvmop := vmopOf_function hf
    simp only [hf] at hok
    rw [hvmop] at hkept ⊢
    split at hok
    · rename_i hzero
      cases hok
      rw [hzero]
      exact Or.inl ⟨by decide, p, [l], rfl, hkept hzero⟩
    · split at hok
      · rename_i heq
        cases hok
        exact Or.inr ⟨heq, rfl⟩
      · rename_i hne
        refine Or.inl ⟨hne, ?_⟩
        split at hok
        · -- a call of its own, with the size of the arguments
          cases argv with
          | nil => cases hok
          | cons a rest =>
            simp only at hok
            split at hok
            · cases hok
            · obtain ⟨p', instrs, hv, h⟩ := callToVmop_stepped hok
              refine ⟨p', instrs, hv, Grew.trans ⟨_, rfl, fun v hv gfid => ?_⟩ h.grew,
                h.examined, h.replaced⟩
              rw [List.mem_singleton.mp hv]
              exact nofun
        · exact callToVmop_stepped hok

end

/-! ## One round of the walk -/

/-- The address of an instruction that there is a rule for. -/
def notedRef (l : Linked) : List ℕ := if hasRule l.instr.cls then [l.ref] else []

section
variable {env : Env} {p p' : Pass} {l : Linked} {instrs : List Linked} {v : Visited}

theorem noted_of_rule (h : hasRule l.instr.cls = true) : notedRef l = [l.ref] := if_pos h

theorem binopPrep_stepped {op : Binop} {lhs rhs : ValueType}
    (hok : binopPrepArgs p l op lhs rhs = .ok v) :
    ∃ p' instrs, v = .kept p' instrs ∧ Stepped env p p' instrs := by
  obtain ⟨⟨s, lhs'⟩, hreg, hok⟩ := bind_ok.mp hok
  cases hok
  obtain ⟨hs, hin, -⟩ := registerify_prepared (prepared_start p.iu) hreg
  refine ⟨_, _, rfl, stepped_before hs fun l' hl' => ?_⟩
  rw [List.mem_singleton.mp hl']
  exact hin

theorem transformCast_stepped {op : CastOp} {value : ValueType} (hl : l.instr.cls = .cast op value)
    (hok : binopTransformCast p l op value = .ok v) :
    ∃ p' instrs, v = .kept p' instrs ∧ Stepped env p p' instrs := by
  unfold binopTransformCast at hok
  split at hok
  · obtain ⟨srcty, -, hok⟩ := bind_ok.mp hok
    obtain ⟨dstty, -, hok⟩ := bind_ok.mp hok
    split at hok
    · cases hok
      exact ⟨_, _, rfl, Stepped.refl (l := ⟨l.ref, ⟨l.instr.rets, .move value⟩⟩) trivial⟩
    · cases hok
      refine ⟨_, _, rfl, Stepped.refl ?_⟩
      rw [hl]
      exact trivial
  · cases hok

theorem visitRest_late (hearly : hasEarlyRule l.instr.cls = false) (hok : visitRest p l = .ok v) :
    ∃ p' instrs, v = .kept p' instrs
      ∧ Stepped env { p with examined := p.examined ++ notedRef l } p' instrs := by
  unfold visitRest at hok
  cases hcls : l.instr.cls
  case binop op lhs rhs =>
    simp only [hcls] at hok
    rw [noted_of_rule (by rw [hcls]; rfl)]
    exact binopPrep_stepped hok
  case cast op value =>
    simp only [hcls] at hok
    rw [noted_of_rule (by rw [hcls]; rfl)]
    exact transformCast_stepped hcls hok
  all_goals
    rw [hcls] at hearly
    first
      | cases hearly; done
      | simp only [hcls] at hok
        cases hok
        have hnone : notedRef l = [] := by
          unfold notedRef
          rw [hcls]
          rfl
        rw [hnone, List.append_nil]
        refine ⟨_, _, rfl, Stepped.refl ?_⟩
        rw [hcls]
        exact trivial

theorem visitRest_early (hearly : hasEarlyRule l.instr.cls = true) (hok : visitRest p l = .ok v) :
    v = .kept p [l] := by
  unfold visitRest at hok
  cases hcls : l.instr.cls <;> rw [hcls] at hearly
  all_goals
    first
      | cases hearly; done
      | simp only [hcls] at hok
        cases hok
        rfl

theorem not_nop (h : calleeOf l.instr.cls = none) {iu : IrUnit} : ¬ IsNop env iu l.instr.cls := by
  rintro ⟨callee, hcallee, -⟩
  rw [h] at hcallee
  cases hcallee

theorem visit_spec (hok : visit p env l = .ok v) :
    (¬ IsNop env p.iu l.instr.cls ∧ ∃ p' instrs, v = .kept p' instrs
      ∧ Stepped env { p with examined := p.examined ++ notedRef l } p' instrs)
    ∨ (IsNop env p.iu l.instr.cls ∧ ∃ p', v = .removed p' ∧ p'.iu = p.iu
      ∧ p'.examined = p.examined ++ notedRef l) := by
  unfold visit at hok
  cases hcls : l.instr.cls
  case call callee argv =>
    simp only [hcls] at hok
    rw [noted_of_rule (by rw [hcls]; rfl), ← hcls]
    rcases replaceCall_spec (by rw [hcls]; rfl) hok with h | ⟨hnop, rfl⟩
    · exact Or.inl h
    · exact Or.inr ⟨hnop, _, rfl, rfl, rfl⟩
  case invoke callee normalDest unwindDest argv =>
    simp only [hcls] at hok
    rw [noted_of_rule (by rw [hcls]; rfl), ← hcls]
    rcases replaceCall_spec (by rw [hcls]; rfl) hok with h | ⟨hnop, rfl⟩
    · exact Or.inl h
    · exact Or.inr ⟨hnop, _, rfl, rfl, rfl⟩
  all_goals
    rw [← hcls]
    refine Or.inl ⟨not_nop (by rw [hcls]; rfl), ?_⟩
    simp only [hcls] at hok
  case gep baseptr indicies =>
    rw [noted_of_rule (by rw [hcls]; rfl)]
    exact visitGep_stepped hok
  case store ptr value immediateOffset =>
    rw [noted_of_rule (by rw [hcls]; rfl)]
    obtain ⟨⟨ptr', off⟩, -, hok⟩ := bind_ok.mp hok
    exact splitConst_stepped hok
  case load ptr immediateOffset valueOffset mult cast loadType =>
    rw [noted_of_rule (by rw [hcls]; rfl)]
    obtain ⟨l', hmerge, hok⟩ := bind_ok.mp hok
    cases hok
    exact ⟨_, _, rfl, Stepped.refl (mergeLoad_cls hcls hmerge _)⟩
  case phi nodes =>
    rw [noted_of_rule (by rw [hcls]; rfl)]
    cases hok
    exact singlePath_stepped hcls
  all_goals
    exact visitRest_late (by rw [hcls]; rfl) hok

end

/-! ## The walk over a block -/

/-- What a walk has noted of the instructions, and what it has left if it skips none. -/
structure Walked (env : Env) (p : Pass) (ls done : List Linked) (r : Pass × List Linked) : Prop where
  grew : Grew p.iu r.1.iu
  examined : ∃ ks, r.1.examined = p.examined ++ ks ∧ (∀ k ∈ ks, k ∈ ls.map Linked.ref)
    ∧ ((∀ l ∈ ls, hasRule l.instr.cls = true → l.ref ∈ ks) ↔ NoSkips env p.iu ls)
  replaced : NoSkips env p.iu ls → (∀ l ∈ done, Replaced env p.iu l.instr.cls) →
    ∀ l ∈ r.2, Replaced env r.1.iu l.instr.cls

section
variable {env : Env} {p p' : Pass} {l next : Linked} {ls done instrs : List Linked}
variable {r : Pass × List Linked}

theorem noSkips_cons_kept (hnop : ¬ IsNop env p.iu l.instr.cls) :
    NoSkips env p.iu (l :: ls) ↔ NoSkips env p.iu ls :=
  ⟨fun h => h.2, fun h => ⟨fun hcall => absurd hcall hnop, h⟩⟩

theorem noSkips_cons_removed (hnop : IsNop env p.iu l.instr.cls) :
    NoSkips env p.iu (l :: next :: ls)
      ↔ hasEarlyRule next.instr.cls = false ∧ NoSkips env p.iu (next :: ls) := by
  constructor
  · rintro ⟨hskip, hrest⟩
    obtain ⟨next', rest, heq, hearly⟩ := hskip hnop
    cases heq
    exact ⟨hearly, hrest⟩
  · rintro ⟨hearly, hrest⟩
    exact ⟨fun _ => ⟨next, ls, rfl, hearly⟩, hrest⟩

theorem not_nop_late (h : hasEarlyRule l.instr.cls = false) {iu : IrUnit} :
    ¬ IsNop env iu l.instr.cls := by
  apply not_nop
  cases hcls : l.instr.cls <;> rw [hcls] at h
  all_goals
    first
      | rfl
      | cases h

theorem mem_noted {k : ℕ} (h : k ∈ notedRef l) : k = l.ref := by
  unfold notedRef at h
  split at h
  · exact List.mem_singleton.mp h
  · exact absurd h List.not_mem_nil

theorem mem_refs {ks : List ℕ} (h : ∀ k ∈ ks, k ∈ ls.map Linked.ref) :
    ∀ k ∈ notedRef l ++ ks, k ∈ (l :: ls).map Linked.ref := by
  intro k hk
  rcases List.mem_append.mp hk with hk | hk
  · rw [mem_noted hk]
    exact List.mem_cons_self
  · exact List.mem_cons_of_mem _ (h k hk)

theorem noted_all {ks : List ℕ} (hfresh : l.ref ∉ ls.map Linked.ref) :
    (∀ l' ∈ l :: ls, hasRule l'.instr.cls = true → l'.ref ∈ notedRef l ++ ks)
      ↔ ∀ l' ∈ ls, hasRule l'.instr.cls = true → l'.ref ∈ ks := by
  constructor
  · intro hall l' hl' hrule
    rcases List.mem_append.mp (hall l' (List.mem_cons_of_mem l hl') hrule) with hk | hk
    · rw [← mem_noted hk] at hfresh
      exact absurd (List.mem_map_of_mem hl') hfresh
    · exact hk
  · intro hall l' hl' hrule
    apply List.mem_append.mpr
    rcases List.mem_cons.mp hl' with rfl | hl'
    · rw [notedRef, if_pos hrule]
      exact Or.inl List.mem_cons_self
    · exact Or.inr (hall l' hl' hrule)

theorem Walked.prepend (hstep : Stepped env { p with examined := p.examined ++ notedRef l } p' instrs)
    (hnop : ¬ IsNop env p.iu l.instr.cls) (hfresh : l.ref ∉ ls.map Linked.ref)
    (h : Walked env p' ls (done ++ instrs) r) : Walked env p (l :: ls) done r := by
  obtain ⟨ks, hks, hmem, hiff⟩ := h.examined
  have hskips : NoSkips env p'.iu ls ↔ NoSkips env p.iu (l :: ls) := by
    rw [noSkips_cons_kept hnop]
    exact noSkips_grew hstep.grew ls
  constructor
  · exact hstep.grew.trans h.grew
  · refine ⟨notedRef l ++ ks, ?_, mem_refs hmem, ?_⟩
    · rw [hks, hstep.examined, List.append_assoc]
    · rw [← hskips, ← hiff]
      exact noted_all hfresh
  · intro hno hdone
    apply h.replaced (hskips.mpr hno)
    intro l' hl'
    rcases List.mem_append.mp hl' with hl' | hl'
    · exact replaced_grew hstep.grew (hdone l' hl')
    · exact hstep.replaced l' hl'

section
variable (hnop : IsNop env p.iu l.instr.cls) (hiu : p'.iu = p.iu)
variable (hexamined : p'.examined = p.examined ++ notedRef l)
include hnop hiu hexamined

theorem Walked.prepend_removed (hearly : hasEarlyRule next.instr.cls = false)
    (hfresh : l.ref ∉ (next :: ls).map Linked.ref)
    (h : Walked env p' (next :: ls) done r) : Walked env p (l :: next :: ls) done r := by
  obtain ⟨ks, hks, hmem, hiff⟩ := h.examined
  have hskips : NoSkips env p'.iu (next :: ls) ↔ NoSkips env p.iu (l :: next :: ls) := by
    rw [noSkips_cons_removed hnop, hiu]
    exact ⟨fun h => ⟨hearly, h⟩, fun h => h.2⟩
  have hgrew := h.grew
  have hreplaced := h.replaced
  rw [hiu] at hgrew hreplaced hskips hiff
  constructor
  · exact hgrew
  · refine ⟨notedRef l ++ ks, ?_, mem_refs hmem, ?_⟩
    · rw [hks, hexamined, List.append_assoc]
    · rw [← hskips, ← hiff]
      exact noted_all hfresh
  · intro hno
    exact hreplaced (hskips.mpr hno)

theorem Walked.prepend_skipped (hearly : hasEarlyRule next.instr.cls = true)
    (hnodup : ((l :: next :: ls).map Linked.ref).Nodup)
    (h : Walked env p' ls (done ++ [next]) r) : Walked env p (l :: next :: ls) done r := by
  obtain ⟨ks, hks, hmem, -⟩ := h.examined
  obtain ⟨hl, hrest⟩ := List.nodup_cons.mp hnodup
  have hnext : next.ref ∉ ls.map Linked.ref := (List.nodup_cons.mp hrest).1
  have hskips : ¬ NoSkips env p.iu (l :: next :: ls) := by
    rw [noSkips_cons_removed hnop, hearly]
    exact fun h => Bool.noConfusion h.1
  have hgrew := h.grew
  rw [hiu] at hgrew
  constructor
  · exact hgrew
  · refine ⟨notedRef l ++ ks, ?_, ?_, ?_⟩
    · rw [hks, hexamined, List.append_assoc]
    · exact mem_refs fun k hk => List.mem_cons_of_mem _ (hmem k hk)
    · rw [noted_all hl]
      refine ⟨fun hall => ?_, fun hno => absurd hno hskips⟩
      have hrule : hasRule next.instr.cls = true := by
        cases hcls : next.instr.cls <;> rw [hcls] at hearly
        all_goals
          first
            | rfl
            | cases hearly
      exact absurd (hmem _ (hall next List.mem_cons_self hrule)) hnext
  · exact fun hno => absurd hno hskips

end

theorem replaceInBlock_walked (hnodup : (ls.map Linked.ref).Nodup)
    (hok : replaceInBlock env p done ls = .ok r) : Walked env p ls done r := by
  -- two instructions may go in one round
  induction hn : ls.length using Nat.strong_induction_on generalizing p done ls with
  | h n ih =>
    cases ls with
    | nil =>
      cases hok
      refine ⟨Grew.refl _, ⟨[], (List.append_nil _).symm, nofun, ?_⟩, fun _ h => h⟩
      exact ⟨fun _ => trivial, fun _ _ hl => absurd hl List.not_mem_nil⟩
    | cons l after =>
      obtain ⟨hfresh, hrest⟩ := List.nodup_cons.mp hnodup
      have hlength : after.length < n := hn ▸ Nat.lt_succ_self _
      unfold replaceInBlock at hok
      obtain ⟨v, hv, hok⟩ := bind_ok.mp hok
      rcases visit_spec hv with ⟨hnop, p', instrs, rfl, hstep⟩ | ⟨hnop, p', rfl, hiu, hexamined⟩
      · exact Walked.prepend hstep hnop hfresh (ih _ hlength hrest hok rfl)
      · cases after with
        | nil => cases hok
        | cons next after =>
          obtain ⟨hnext, hrest'⟩ := List.nodup_cons.mp hrest
          have hlength' : after.length < n := (Nat.lt_succ_self _).trans hlength
          obtain ⟨v', hv', hok⟩ := bind_ok.mp hok
          cases hearly : hasEarlyRule next.instr.cls with
          | true =>
            rw [visitRest_early hearly hv'] at hok
            exact Walked.prepend_skipped hnop hiu hexamined hearly hnodup
              (ih _ hlength' hrest' hok rfl)
          | false =>
            obtain ⟨p'', instrs, rfl, hstep⟩ := visitRest_late hearly hv'
            exact Walked.prepend_removed hnop hiu hexamined hearly hfresh
              (Walked.prepend hstep (not_nop_late hearly) hnext (ih _ hlength' hrest' hok rfl))

end

/-! ## The walk over a function -/

section
variable {env : Env} {p : Pass} {bbs : List Block} {r : Pass × List Block}

def refs (bbs : List Block) : List ℕ := (bbs.flatMap Block.instrs).map Linked.ref

structure WalkedBlocks (env : Env) (p : Pass) (bbs : List Block) (r : Pass × List Block) : Prop where
  grew : Grew p.iu r.1.iu
  examined : ∃ ks, r.1.examined = p.examined ++ ks ∧ (∀ k ∈ ks, k ∈ refs bbs)
    ∧ ((∀ b ∈ bbs, ∀ l ∈ b.instrs, hasRule l.instr.cls = true → l.ref ∈ ks)
      ↔ ∀ b ∈ bbs, NoSkips env p.iu b.instrs)
  replaced : (∀ b ∈ bbs, NoSkips env p.iu b.instrs) →
    ∀ b ∈ r.2, ∀ l ∈ b.instrs, Replaced env r.1.iu l.instr.cls

theorem mem_append_own {ks ks' : List ℕ} {k : ℕ} (h : k ∉ ks') : k ∈ ks ++ ks' ↔ k ∈ ks := by
  simp only [List.mem_append, h, or_false]

theorem mem_append_own' {ks ks' : List ℕ} {k : ℕ} (h : k ∉ ks) : k ∈ ks ++ ks' ↔ k ∈ ks' := by
  simp only [List.mem_append, h, false_or]

theorem replaceInBlocks_walked (hnodup : (refs bbs).Nodup)
    (hok : replaceInBlocks env p bbs = .ok r) : WalkedBlocks env p bbs r := by
  induction bbs generalizing p r with
  | nil =>
    cases hok
    refine ⟨Grew.refl _, ⟨[], (List.append_nil _).symm, nofun, ?_⟩, fun _ _ hb => ?_⟩
    · exact ⟨fun _ _ hb => absurd hb List.not_mem_nil, fun _ _ hb => absurd hb List.not_mem_nil⟩
    · exact absurd hb List.not_mem_nil
  | cons b bbs ih =>
    unfold refs at hnodup
    rw [List.flatMap_cons, List.map_append, List.nodup_append] at hnodup
    obtain ⟨hb, hrest, hdisjoint⟩ := hnodup
    unfold replaceInBlocks at hok
    obtain ⟨⟨p', instrs⟩, hblock, hok⟩ := bind_ok.mp hok
    obtain ⟨⟨p'', bbs'⟩, hblocks, hok⟩ := bind_ok.mp hok
    cases hok
    have h := replaceInBlock_walked hb hblock
    have h' := ih hrest hblocks
    obtain ⟨ks, hks, hmem, hiff⟩ := h.examined
    obtain ⟨ks', hks', hmem', hiff'⟩ := h'.examined
    have hskips : (∀ b ∈ bbs, NoSkips env p'.iu b.instrs) ↔ ∀ b ∈ bbs, NoSkips env p.iu b.instrs :=
      forall₂_congr fun b _ => noSkips_grew h.grew b.instrs
    constructor
    · exact h.grew.trans h'.grew
    · refine ⟨ks ++ ks', ?_, fun k hk => ?_, ?_⟩
      · rw [hks', hks, List.append_assoc]
      · unfold refs
        rw [List.flatMap_cons, List.map_append]
        exact (List.mem_append.mp hk).elim (fun hk => List.mem_append_left _ (hmem k hk))
          fun hk => List.mem_append_right _ (hmem' k hk)
      · rw [List.forall_mem_cons, List.forall_mem_cons, ← hskips, ← hiff, ← hiff']
        refine and_congr (forall₂_congr fun l hl => ?_)
          (forall₂_congr fun b' hb' => forall₂_congr fun l hl => ?_)
        · rw [mem_append_own fun hk => hdisjoint _ (List.mem_map_of_mem hl) _ (hmem' _ hk) rfl]
        · have hlater := List.mem_map_of_mem (f := Linked.ref) (List.mem_flatMap_of_mem hb' hl)
          rw [mem_append_own' fun hk => hdisjoint _ (hmem _ hk) _ hlater rfl]
    · intro hno b' hb' l hl
      rw [List.forall_mem_cons, ← hskips] at hno
      rcases List.mem_cons.mp hb' with rfl | hb'
      · exact replaced_grew h'.grew
          (h.replaced hno.1 (fun _ hl => absurd hl List.not_mem_nil) l hl)
      · exact h'.replaced hno.2 b' hb' l hl

end

/-- The pass is complete exactly when no instruction with a rule of its own among the first is
behind a call that is removed. -/
theorem complete_iff {env : Env} {f : Parsed} {r : Pass × List Block}
    (hrefs : (f.instrs.map Linked.ref).Nodup) (hrun : replaceInstructions env f = .ok r) :
    Complete env f r ↔ ∀ b ∈ f.bbs, NoSkips env f.iu b.instrs := by
  have h : WalkedBlocks env ⟨f.iu, f.outputs, f.nextRef, []⟩ f.bbs r :=
    replaceInBlocks_walked hrefs hrun
  obtain ⟨ks, hks, -, hiff⟩ := h.examined
  rw [List.nil_append] at hks
  constructor
  · intro hcomplete
    apply hiff.mp
    intro b hb l hl hrule
    rw [← hks]
    exact hcomplete.examined l (List.mem_flatMap_of_mem hb hl) hrule
  · intro hno
    constructor
    · exact h.replaced hno
    · intro l hl hrule
      obtain ⟨b, hb, hl⟩ := List.mem_flatMap.mp hl
      rw [hks]
      exact hiff.mpr hno b hb l hl hrule

/-! ## A GEP next to a call that is removed -/

/-- A pointer, a function that is no operation, an index, and the result of the GEP. -/
def smallUnit : IrUnit where
  types := [.int32, .int8, .pointer (some 1)]
  values := [⟨.temporary, 2⟩, ⟨.function 0, 2⟩, ⟨.constant 4, 0⟩, ⟨.temporary, 2⟩]
  textAlloc := fun _ => 0

def smallEnv : Env where
  functions := fun _ => ⟨vmNop, 0⟩
  callargSize := 0
  data := fun _ => []
  depth := 2

def smallCall : Linked := ⟨0, ⟨[], .call ⟨1, 2⟩ []⟩⟩

def smallGep : Linked := ⟨1, ⟨[⟨3, 2⟩], .gep ⟨0, 2⟩ [⟨⟨2, 0⟩, 2⟩]⟩⟩

def smallRet : Linked := ⟨2, ⟨[], .ret none⟩⟩

def smallLea : Linked := ⟨3, ⟨[⟨3, 2⟩], .lea ⟨0, 2⟩ 4 none 0⟩⟩

def callBehind : Parsed := ⟨smallUnit, [⟨0, [smallGep, smallCall, smallRet]⟩], 3⟩

def callInFront : Parsed := ⟨smallUnit, [⟨0, [smallCall, smallGep, smallRet]⟩], 3⟩

theorem callBehind_run : replaceInstructions smallEnv callBehind
    = .ok (⟨smallUnit, [(3, smallLea)], 4, [1, 0]⟩, [⟨0, [smallLea, smallRet]⟩]) := by
  simp only [replaceInstructions, replaceInBlocks, callBehind, replaceInBlock]
  rfl

theorem callInFront_run : replaceInstructions smallEnv callInFront
    = .ok (⟨smallUnit, [(3, smallGep)], 3, [0]⟩, [⟨0, [smallGep, smallRet]⟩]) := by
  simp only [replaceInstructions, replaceInBlocks, callInFront, replaceInBlock]
  rfl

/-- The LEA is all that is left of both. -/
theorem callBehind_complete : ∃ r, replaceInstructions smallEnv callBehind = .ok r
    ∧ r.2 = [⟨0, [smallLea, smallRet]⟩] ∧ Complete smallEnv callBehind r := by
  refine ⟨_, callBehind_run, rfl, ?_⟩
  rw [complete_iff (by decide) callBehind_run]
  intro b hb
  rw [List.mem_singleton.mp hb]
  refine ⟨?_, fun _ => ⟨smallRet, [], rfl, rfl⟩, ?_, trivial⟩
  · rintro ⟨callee, hcallee, -⟩
    cases hcallee
  · rintro ⟨callee, hcallee, -⟩
    cases hcallee

/-- The GEP behind the call is left in the function. -/
theorem callInFront_incomplete : ∃ r, replaceInstructions smallEnv callInFront = .ok r
    ∧ r.2 = [⟨0, [smallGep, smallRet]⟩] ∧ r.1.examined = [0] ∧ ¬ Complete smallEnv callInFront r := by
  refine ⟨_, callInFront_run, rfl, rfl, ?_⟩
  intro h
  exact h.replaced _ List.mem_cons_self smallGep List.mem_cons_self

end Vmir.ReplaceComplete
