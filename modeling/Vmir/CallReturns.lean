import Vmir.CallForms

set_option autoImplicit false

/-!
# Calls that come back

A call that has returned to the activation it was made from: the activation has its allocation
pointer again, and the code is what it was, up to the forms of the calls.
-/
namespace Vmir.CallReturns
open CodePieces GuardedRuns RegisterProgram Ir VmOps VmControl IrTypes ProgramText VmCalls CallForms

/-! ## The code -/

theorem plainCell_call {c : Cell} {o : CallOp} (h : plainCell c = .op (.call (plainForm o))) :
    ∃ o', c = .op (.call o') ∧ plainForm o' = plainForm o := by
  cases c with
  | half v => cases h
  | op oc =>
    cases oc with
    | call o' => exact ⟨o', rfl, Opcode.call.inj (Cell.op.inj h)⟩
    | straight op => cases h
    | control o => cases h
    | leave o => cases h

/-- The code of all functions, up to the forms of the calls. -/
def plainFuncs (m : Machine) : ℕ → Option Text := (plainMachine m).vmFuncs

def CodeIs (funcs : ℕ → Option Text) (s : State) : Prop :=
  match s with
  | .running m _ _ => plainFuncs m = funcs
  | .returning m _ _ => plainFuncs m = funcs
  | .stopped _ _ => True

section
variable {env : Env} {m : Machine} {a : Activation} {cs : List Caller} {funcs : ℕ → Option Text}

theorem textOf_plainFuncs : plainText (textOf m a) = ((plainFuncs m a.func).getD []) := by
  rw [← textOf_plain]
  rfl

theorem codeIs_enter {g : ℕ} {s : State} (hm : plainFuncs m = funcs) (h : enter m a cs g = some s) :
    CodeIs funcs s := by
  rw [enter] at h
  split at h
  · cases h
  · rw [← Option.some.inj h]
    exact hm

theorem codeIs_jsrResult {r : ResultCode} {s : State} (hm : plainFuncs m = funcs)
    (h : jsrResult a cs m r = some s) : CodeIs funcs s := by
  cases r with
  | normal =>
    rw [← Option.some.inj h]
    exact hm
  | exception =>
    rw [← Option.some.inj h]
    exact hm

theorem codeIs_resultOf {o : CallOp} {r : ResultCode} {s : State} (hm : plainFuncs m = funcs)
    (h : resultOf o a cs m r = some s) : CodeIs funcs s := by
  have hinvoke (h : invokeResult a cs m r = some s) : CodeIs funcs s := by
    obtain ⟨pc, -, hs⟩ := Option.map_eq_some_iff.mp h
    rw [← hs]
    exact hm
  cases o with
  | jsr | jsrVm | jsrExt | jsrR => exact codeIs_jsrResult hm h
  | invoke | invokeVm | invokeExt | invokeR => exact hinvoke h

theorem codeIs_external {fn : ExtFunction} {after : Machine → ResultCode → Option State} {s : State}
    (hm : plainFuncs m = funcs)
    (hafter : ∀ m' r s, plainFuncs m' = funcs → after m' r = some s → CodeIs funcs s)
    (h : external m a fn after = some s) : CodeIs funcs s := by
  rw [external] at h
  split at h
  · cases h
  · rw [← Option.some.inj h]
    trivial
  · refine hafter _ _ _ ?_ h
    exact hm

theorem plainFuncs_patch {o : CallOp} (hcell : (textOf m a)[a.pc]? = some (.op (.call .jsr)))
    (ho : plainForm o = .jsr) : plainFuncs (patch m a o) = plainFuncs m := by
  obtain ⟨t, ht, htext⟩ := textOf_call hcell
  rw [htext] at hcell
  rw [plainFuncs, patch_plain m a ht hcell ho]
  rfl

theorem execCall_cases {o : CallOp} {s : State}
    (hcell : (textOf m a)[a.pc]? = some (.op (.call o))) (h : execCall env m a cs o = some s) :
    ∃ m₁, m₁.vm = m.vm ∧ plainFuncs m₁ = plainFuncs m
      ∧ ((∃ g, enter m₁ a cs g = some s)
        ∨ (∃ fn, external m₁ a fn (resultOf o a cs) = some s)
        ∨ (o = .jsrR ∧ ∃ fn, external m₁ a fn (jsrRExternal a cs) = some s)
        ∨ ∃ reason code, s = .stopped reason code) := by
  have hstop {x : State} (hx : ∃ fid, x = badFunction fid) (h : some x = some s) :
      ∃ reason code, s = .stopped reason code := by
    obtain ⟨fid, rfl⟩ := hx
    exact ⟨_, _, (Option.some.inj h).symm⟩
  cases o with
  | jsr =>
    simp only [execCall] at h
    split at h
    · exact ⟨patch m a .jsrExt, rfl, plainFuncs_patch hcell rfl, Or.inr (Or.inl ⟨_, h⟩)⟩
    · exact ⟨patch m a .jsrVm, rfl, plainFuncs_patch hcell rfl, Or.inl ⟨_, h⟩⟩
  | jsrVm | invokeVm => exact ⟨m, rfl, rfl, Or.inl ⟨_, h⟩⟩
  | jsrExt | invokeExt =>
    obtain ⟨fn, -, h⟩ := Option.bind_eq_some_iff.mp h
    exact ⟨m, rfl, rfl, Or.inr (Or.inl ⟨_, h⟩)⟩
  | invoke =>
    simp only [execCall] at h
    split at h
    · exact ⟨m, rfl, rfl, Or.inr (Or.inl ⟨_, h⟩)⟩
    · exact ⟨m, rfl, rfl, Or.inl ⟨_, h⟩⟩
  | jsrR =>
    simp only [execCall] at h
    split at h
    · exact ⟨m, rfl, rfl, Or.inr (Or.inr (Or.inr (hstop ⟨_, rfl⟩ h)))⟩
    · split at h
      · exact ⟨m, rfl, rfl, Or.inl ⟨_, h⟩⟩
      · split at h
        · exact ⟨m, rfl, rfl, Or.inr (Or.inr (Or.inl ⟨rfl, _, h⟩))⟩
        · exact ⟨m, rfl, rfl, Or.inr (Or.inr (Or.inr (hstop ⟨_, rfl⟩ h)))⟩
  | invokeR =>
    simp only [execCall] at h
    split at h
    · exact ⟨m, rfl, rfl, Or.inr (Or.inr (Or.inr (hstop ⟨_, rfl⟩ h)))⟩
    · split at h
      · exact ⟨m, rfl, rfl, Or.inl ⟨_, h⟩⟩
      · split at h
        · exact ⟨m, rfl, rfl, Or.inr (Or.inl ⟨_, h⟩)⟩
        · exact ⟨m, rfl, rfl, Or.inr (Or.inr (Or.inr (hstop ⟨_, rfl⟩ h)))⟩

theorem codeIs_execCall {o : CallOp} {s : State} (hm : plainFuncs m = funcs)
    (hcell : (textOf m a)[a.pc]? = some (.op (.call o))) (h : execCall env m a cs o = some s) :
    CodeIs funcs s := by
  obtain ⟨m₁, -, hcode, ⟨g, h⟩ | ⟨fn, h⟩ | ⟨-, fn, h⟩ | ⟨reason, code, rfl⟩⟩ :=
    execCall_cases hcell h
  · exact codeIs_enter (hcode.trans hm) h
  · exact codeIs_external (hcode.trans hm) (fun _ _ _ hm' h => codeIs_resultOf hm' h) h
  · refine codeIs_external (hcode.trans hm) (fun m' r s hm' h => ?_) h
    rw [← Option.some.inj h]
    exact hm'
  · trivial

theorem codeIs_step {s u : State} (hs : CodeIs funcs s) (h : execStep env s = some u) :
    CodeIs funcs u := by
  cases s with
  | stopped reason code => cases h
  | returning m r cs =>
    cases cs with
    | nil => cases h
    | cons c cs =>
      simp only [execStep] at h
      split at h
      · refine codeIs_resultOf ?_ h
        exact hs
      · cases h
  | running m a cs =>
    simp only [execStep] at h
    split at h
    · next o hcell => exact codeIs_execCall hs hcell h
    · next o _ =>
      rw [← Option.some.inj h]
      cases o with
      | retVoid | retR32 | retR64 | retR32C | retR64C | resume => exact hs
      | unreachable => trivial
    · obtain ⟨c, -, hu⟩ := Option.map_eq_some_iff.mp h
      rw [← hu]
      exact hs

/-! ## The call that returns -/

/-- The callee of `c` is running, or something that it called. -/
def Inside (c : Caller) (cs : List Caller) (s : State) : Prop :=
  match s with
  | .running _ _ callers => ∃ deeper, callers = deeper ++ c :: cs
  | .returning _ _ callers => ∃ d deeper, callers = d :: deeper ++ c :: cs
  | .stopped _ _ => False

/-- The call that the first state is at comes back to the second. -/
inductive ComesBack (env : Env) : State → State → Prop
  | external {m m' : Machine} {a a' : Activation} {cs : List Caller}
    (h : execStep env (.running m a cs) = some (.running m' a' cs)) :
    ComesBack env (.running m a cs) (.running m' a' cs)
  | internal {m m₁ m₂ m' : Machine} {a a₁ a' : Activation} {cs : List Caller} {c : Caller}
    {r : ResultCode} (henter : execStep env (.running m a cs) = some (.running m₁ a₁ (c :: cs)))
    (hrun : RunsIn (execStep env) (Inside c cs) (.running m₁ a₁ (c :: cs))
      (.returning m₂ r (c :: cs)))
    (hreturn : execStep env (.returning m₂ r (c :: cs)) = some (.running m' a' cs)) :
    ComesBack env (.running m a cs) (.running m' a' cs)

/-- The operations behind which a call goes on. -/
def isJsr (o : CallOp) : Bool :=
  match o with
  | .jsr | .jsrVm | .jsrExt | .jsrR => true
  | .invoke | .invokeVm | .invokeExt | .invokeR => false

theorem isJsr_plainForm (o : CallOp) : isJsr (plainForm o) = isJsr o := by
  cases o <;> rfl

/-- Where the caller goes on after a call by `o`. -/
def GoesOn (o : CallOp) (a a' : Activation) : Prop :=
  ∃ pc, a' = { a with pc := pc } ∧ (isJsr o → pc = a.pc + 4)

theorem resultOf_running {o : CallOp} {r : ResultCode} {m' : Machine} {a' : Activation}
    {cs' : List Caller} (h : resultOf o a cs m r = some (.running m' a' cs')) :
    m' = m ∧ cs' = cs ∧ GoesOn o a a' := by
  have hjsr (h : jsrResult a cs m r = some (.running m' a' cs')) :
      m' = m ∧ cs' = cs ∧ a' = { a with pc := a.pc + 4 } := by
    cases r with
    | normal =>
      injection Option.some.inj h with hm ha hcs
      exact ⟨hm.symm, hcs.symm, ha.symm⟩
    | exception => cases h
  have hinvoke (h : invokeResult a cs m r = some (.running m' a' cs')) :
      m' = m ∧ cs' = cs ∧ ∃ pc, a' = { a with pc := pc } := by
    obtain ⟨pc, -, hs⟩ := Option.map_eq_some_iff.mp h
    injection hs with hm ha hcs
    exact ⟨hm.symm, hcs.symm, pc, ha.symm⟩
  cases o with
  | jsr | jsrVm | jsrExt | jsrR =>
    obtain ⟨hm, hcs, ha⟩ := hjsr h
    exact ⟨hm, hcs, _, ha, fun _ => rfl⟩
  | invoke | invokeVm | invokeExt | invokeR =>
    obtain ⟨hm, hcs, pc, ha⟩ := hinvoke h
    exact ⟨hm, hcs, pc, ha, fun h => by cases h⟩

theorem external_running {fn : ExtFunction} {after : Machine → ResultCode → Option State}
    {s : State} (h : external m a fn after = some s)
    (hs : ∀ reason code, s ≠ .stopped reason code) :
    ∃ m' r, m'.vm.allocaptr = m.vm.allocaptr ∧ after m' r = some s := by
  rw [external] at h
  split at h
  · cases h
  · exact absurd (Option.some.inj h).symm (hs _ _)
  · refine ⟨_, _, ?_, h⟩
    rfl

theorem execCall_running {o : CallOp} {m' : Machine} {a' : Activation} {cs' : List Caller}
    (hcell : (textOf m a)[a.pc]? = some (.op (.call o)))
    (h : execCall env m a cs o = some (.running m' a' cs')) :
    cs' = (a, m.vm.allocaptr) :: cs
      ∨ (cs' = cs ∧ m'.vm.allocaptr = m.vm.allocaptr ∧ GoesOn o a a') := by
  obtain ⟨m₁, hvm, -, ⟨g, h⟩ | ⟨fn, h⟩ | ⟨rfl, fn, h⟩ | ⟨reason, code, h⟩⟩ := execCall_cases hcell h
  · obtain ⟨m₂, a₂, heq⟩ := enter_depth h
    injection heq with _ _ hcs
    rw [hvm] at hcs
    exact Or.inl hcs
  · obtain ⟨m₂, r, hptr, h⟩ := external_running h fun _ _ h => by cases h
    obtain ⟨rfl, hcs, hgoes⟩ := resultOf_running h
    exact Or.inr ⟨hcs, by rw [hptr, hvm], hgoes⟩
  · obtain ⟨m₂, r, hptr, h⟩ := external_running h fun _ _ h => by cases h
    injection Option.some.inj h with hm ha hcs
    rw [← hm, ← ha]
    exact Or.inr ⟨hcs.symm, by rw [hptr, hvm], _, rfl, fun _ => rfl⟩
  · cases h

theorem ComesBack.spec {o : CallOp} {m' : Machine} {a' : Activation} {cs' : List Caller}
    (hcell : (textOf m a)[a.pc]? = some (.op (.call o)))
    (h : ComesBack env (.running m a cs) (.running m' a' cs')) :
    cs' = cs ∧ m'.vm.allocaptr = m.vm.allocaptr ∧ plainFuncs m' = plainFuncs m ∧ GoesOn o a a' := by
  have hcall {s : State} (h : execStep env (.running m a cs) = some s) :
      execCall env m a cs o = some s := by
    simp only [execStep, hcell] at h
    exact h
  have hstart : CodeIs (plainFuncs m) (.running m a cs) := rfl
  cases h with
  | external h =>
    have hcode := codeIs_step hstart h
    rcases execCall_running hcell (hcall h) with hcs | ⟨-, hptr, hgoes⟩
    · exact absurd hcs.symm (List.cons_ne_self _ _)
    · exact ⟨rfl, hptr, hcode, hgoes⟩
  | @internal _ m₁ m₂ _ _ a₁ _ _ c r henter hrun hreturn =>
    have hin := codeIs_step hstart henter
    have hout : CodeIs (plainFuncs m) (.returning m₂ r (c :: cs)) :=
      hrun.invariant (fun _ _ hs _ hstep => codeIs_step hs hstep) hin
    obtain rfl : c = (a, m.vm.allocaptr) := by
      rcases execCall_running hcell (hcall henter) with hcs | ⟨hcs, -⟩
      · exact (List.cons.inj hcs).1
      · exact absurd hcs (List.cons_ne_self _ _)
    -- The operation can have taken another form on the way.
    obtain ⟨o', ho', hform⟩ : ∃ o', (textOf m₂ a)[a.pc]? = some (.op (.call o'))
        ∧ plainForm o' = plainForm o := by
      have htext : (plainText (textOf m₂ a))[a.pc]? = some (.op (.call (plainForm o))) := by
        rw [textOf_plainFuncs, show plainFuncs m₂ = plainFuncs m from hout, ← textOf_plainFuncs,
          getElem?_plainText, hcell]
        rfl
      rw [getElem?_plainText] at htext
      obtain ⟨cell, hc, hplain⟩ := Option.map_eq_some_iff.mp htext
      obtain ⟨o', rfl, hform⟩ := plainCell_call hplain
      exact ⟨o', hc, hform⟩
    have hcode := codeIs_step hout hreturn
    simp only [execStep, ho'] at hreturn
    obtain ⟨rfl, hcs, pc, ha, hpc⟩ := resultOf_running hreturn
    refine ⟨hcs, rfl, hcode, pc, ha, fun h => hpc ?_⟩
    rw [← isJsr_plainForm, hform, isJsr_plainForm]
    exact h

end
end Vmir.CallReturns
