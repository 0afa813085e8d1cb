import Vmir.EmitBranch
import Vmir.GuardedRuns
import Vmir.VmCalls

set_option autoImplicit false

/-!
# The forms of a call

Eight operations call a function: directly or through a register, with a block for exceptions or
without, and in a form for one kind of callee that `JSR` puts in its own place. The form is not
meant to matter: the callee runs, and what the caller does next depends on its result alone.
-/
namespace Vmir.CallForms
open ByteStore RegisterProgram CodePieces GuardedRuns Ir VmOps VmControl IrTypes ProgramText VmCalls
open EmitCmp EmitBranch

/-! ## Calls without their forms -/

/-- The form before it was made for a kind of callee. -/
def plainForm (o : CallOp) : CallOp :=
  match o with
  | .jsr | .jsrVm | .jsrExt => .jsr
  | .jsrR => .jsrR
  | .invoke | .invokeVm | .invokeExt => .invoke
  | .invokeR => .invokeR

def plainCell (c : Cell) : Cell :=
  match c with
  | .op (.call o) => .op (.call (plainForm o))
  | .op (.straight op) => .op (.straight op)
  | .op (.control o) => .op (.control o)
  | .op (.leave o) => .op (.leave o)
  | .half v => .half v

def plainText (t : Text) : Text := t.map plainCell

def plainMachine (m : Machine) : Machine := { m with vmFuncs := fun g => (m.vmFuncs g).map plainText }

def plain (s : State) : State :=
  match s with
  | .running m a cs => .running (plainMachine m) a cs
  | .returning m r cs => .returning (plainMachine m) r cs
  | .stopped reason code => .stopped reason code

/-- The function runs, and its result decides what the caller does. -/
def callFunction (env : Env) (m : Machine) (a : Activation) (cs : List Caller) (o : CallOp)
    (g : ℕ) : Option State :=
  match env.functionTable g with
  | some fn => external m a fn (resultOf o a cs)
  | none => enter m a cs g

/-- A register must hold the number of a function. -/
def callIndirect (env : Env) (m : Machine) (a : Activation) (cs : List Caller) (o : CallOp)
    (fid : BitVec 32) : Option State :=
  if env.numFunctions ≤ fid.toNat
      ∨ ((m.vmFuncs fid.toNat).isNone ∧ (env.functionTable fid.toNat).isNone) then
    some (badFunction fid)
  else callFunction env m a cs o fid.toNat

def uniformCall (env : Env) (m : Machine) (a : Activation) (cs : List Caller) (o : CallOp) :
    Option State :=
  match o with
  | .jsrR | .invokeR => callIndirect env m a cs o (functionRegister m a)
  | .jsr | .jsrVm | .jsrExt | .invoke | .invokeVm | .invokeExt =>
    callFunction env m a cs o (operandsAt m a 0).toNat

def uniformStep (env : Env) (s : State) : Option State :=
  match s with
  | .running m a cs =>
    match (textOf m a)[a.pc]? with
    | some (.op (.call o)) => uniformCall env m a cs o
    | _ => execStep env (.running m a cs)
  | .returning m r cs => execStep env (.returning m r cs)
  | .stopped reason code => execStep env (.stopped reason code)

/-! ## The forms of a state -/

theorem getElem?_plainText (t : Text) (i : ℕ) : (plainText t)[i]? = (t[i]?).map plainCell :=
  List.getElem?_map ..

theorem unitsAt_plainText (t : Text) (pos : ℕ) : unitsAt (plainText t) pos = unitsAt t pos := by
  funext i
  rw [unitsAt, unitsAt, getElem?_plainText]
  cases t[pos + i]? with
  | none => rfl
  | some c =>
    cases c with
    | half v => rfl
    | op o => cases o <;> rfl

section
variable (m : Machine) (a : Activation) (cs : List Caller)

@[simp] theorem textOf_plain : textOf (plainMachine m) a = plainText (textOf m a) := by
  change ((m.vmFuncs a.func).map plainText).getD [] = plainText ((m.vmFuncs a.func).getD [])
  cases m.vmFuncs a.func with
  | none => rfl
  | some t => rfl

@[simp] theorem operandsAt_plain : operandsAt (plainMachine m) a = operandsAt m a := by
  rw [operandsAt, operandsAt, textOf_plain, unitsAt_plainText]

@[simp] theorem functionRegister_plain :
    functionRegister (plainMachine m) a = functionRegister m a := by
  rw [functionRegister, functionRegister, operandsAt_plain]
  rfl

@[simp] theorem calleeFrame_plain : calleeFrame (plainMachine m) a = calleeFrame m a := by
  rw [calleeFrame, calleeFrame, operandsAt_plain]

@[simp] theorem resultAddr_plain : resultAddr (plainMachine m) a = resultAddr m a := by
  rw [resultAddr, resultAddr, operandsAt_plain]

theorem enter_plain (g : ℕ) :
    (enter m a cs g).map plain = enter (plainMachine m) a cs g := by
  have hfuncs : (plainMachine m).vmFuncs g = (m.vmFuncs g).map plainText := rfl
  rw [enter, enter, hfuncs]
  cases m.vmFuncs g with
  | none => rfl
  | some t =>
    rw [calleeFrame_plain, resultAddr_plain]
    rfl

theorem external_plain (fn : ExtFunction) {after after' : Machine → ResultCode → Option State}
    (h : ∀ m r, (after m r).map plain = after' (plainMachine m) r) :
    (external m a fn after).map plain = external (plainMachine m) a fn after' := by
  have hregisters : (plainMachine m).registers = m.registers := rfl
  have hvm : (plainMachine m).vm = m.vm := rfl
  rw [external, external, calleeFrame_plain, resultAddr_plain, hregisters, hvm]
  cases fn (resultAddr m a) (calleeFrame m a) m.registers m.vm with
  | none => rfl
  | some out =>
    cases out with
    | stop reason code => rfl
    | result r registers vm => exact h _ r

theorem jsrResult_plain (r : ResultCode) :
    (jsrResult a cs m r).map plain = jsrResult a cs (plainMachine m) r := by
  cases r with
  | normal => rfl
  | exception => rfl

theorem invokeResult_plain (r : ResultCode) :
    (invokeResult a cs m r).map plain = invokeResult a cs (plainMachine m) r := by
  rw [invokeResult, invokeResult, operandsAt_plain, Option.map_map]
  rfl

theorem resultOf_plain (o : CallOp) (r : ResultCode) :
    (resultOf o a cs m r).map plain = resultOf (plainForm o) a cs (plainMachine m) r := by
  cases o with
  | jsr | jsrVm | jsrExt | jsrR => exact jsrResult_plain m a cs r
  | invoke | invokeVm | invokeExt | invokeR => exact invokeResult_plain m a cs r

theorem plainText_set {t : Text} {pc : ℕ} {o : CallOp} (hcell : t[pc]? = some (.op (.call .jsr)))
    (ho : plainForm o = .jsr) : plainText (t.set pc (.op (.call o))) = plainText t := by
  apply List.ext_getElem?
  intro i
  rw [getElem?_plainText, getElem?_plainText, List.getElem?_set]
  by_cases hi : pc = i
  · subst hi
    rw [if_pos rfl, if_pos (List.getElem?_eq_some_iff.mp hcell).1, hcell]
    change some (Cell.op (.call (plainForm o))) = _
    rw [ho]
    rfl
  · rw [if_neg hi]

theorem patch_plain {t : Text} {o : CallOp} (ht : m.vmFuncs a.func = some t)
    (hcell : t[a.pc]? = some (.op (.call .jsr))) (ho : plainForm o = .jsr) :
    plainMachine (patch m a o) = plainMachine m := by
  have hfuncs : (plainMachine (patch m a o)).vmFuncs = (plainMachine m).vmFuncs := by
    funext g
    simp only [plainMachine, patch]
    by_cases hg : g = a.func
    · rw [hg, if_pos rfl, ht]
      exact congrArg some (plainText_set hcell ho)
    · rw [if_neg hg]
  exact congrArg (fun f => Machine.mk f m.registers m.vm) hfuncs

end

/-! ## The condition -/

/-- `JSR_R` runs an external function that throws. -/
def DropsException (env : Env) (m : Machine) (a : Activation) (o : CallOp) : Prop :=
  let fid := functionRegister m a
  o = .jsrR ∧ fid.toNat < env.numFunctions ∧ m.vmFuncs fid.toNat = none
    ∧ ∃ fn registers vm, env.functionTable fid.toNat = some fn
      ∧ fn (resultAddr m a) (calleeFrame m a) m.registers m.vm
        = some (.result .exception registers vm)

/-- A call through a register of a function that the module defines and the host overrides: the
other calls take the host's. -/
def TwoBodies (env : Env) (m : Machine) (a : Activation) (o : CallOp) : Prop :=
  let fid := functionRegister m a
  (o = .jsrR ∨ o = .invokeR) ∧ fid.toNat < env.numFunctions
    ∧ (m.vmFuncs fid.toNat).isSome ∧ (env.functionTable fid.toNat).isSome

def Observed (env : Env) (s : State) : Prop :=
  match s with
  | .running m a _ => ∀ o, (textOf m a)[a.pc]? = some (.op (.call o)) →
    ¬ DropsException env m a o ∧ ¬ TwoBodies env m a o
  | .returning _ _ _ => True
  | .stopped _ _ => True

/-- The forms for a kind of callee stand at callees of that kind. -/
def RightForm (env : Env) (o : CallOp) (g : ℕ) : Prop :=
  match o with
  | .jsrVm | .invokeVm => env.functionTable g = none
  | .jsrExt | .invokeExt => (env.functionTable g).isSome
  | .jsr | .jsrR | .invoke | .invokeR => True

def RightForms (env : Env) (m : Machine) : Prop :=
  ∀ g t pc o, m.vmFuncs g = some t → t[pc]? = some (.op (.call o)) →
    RightForm env o (unitsAt t (pc + 1) 0).toNat

def Patched (env : Env) (s : State) : Prop :=
  match s with
  | .running m _ _ => RightForms env m
  | .returning m _ _ => RightForms env m
  | .stopped _ _ => True

/-- `emit_call` chooses the form for an external function where the function is one. -/
theorem emitCall_rightForm {env : Env} {iu : IrUnit} {extFunc : BitVec 32 → Bool} {t t' : Text}
    {rfOffset : BitVec 32} {ret : Option ValueType} {callee : ValueType}
    (htable : ∀ g, extFunc g → (env.functionTable (g.setWidth 16).toNat).isSome)
    (h : emitCall iu extFunc t rfOffset ret callee = .ok t') :
    ∃ o args, t' = t ++ .op (.call o) :: args.map .half
      ∧ RightForm env o (operands args 0).toNat := by
  obtain ⟨retReg, -, h⟩ := bind_ok.mp h
  cases hfunc : valueFunction iu callee.value with
  | some gfid =>
    simp only [hfunc] at h
    refine ⟨_, _, emit_ok h, ?_⟩
    split
    · next hext => exact htable gfid hext
    · trivial
  | none =>
    simp only [hfunc] at h
    obtain ⟨iv, -, h⟩ := bind_ok.mp h
    split at h
    · exact ⟨_, _, emit_ok h, trivial⟩
    · cases h

theorem emitInvoke_rightForm {env : Env} {iu : IrUnit} {extFunc : BitVec 32 → Bool}
    {e e' : Emission} {rfOffset : BitVec 32} {ret : Option ValueType} {callee : ValueType}
    {normalDest unwindDest : ℕ}
    (htable : ∀ g, extFunc g → (env.functionTable (g.setWidth 16).toNat).isSome)
    (h : emitInvoke iu extFunc e rfOffset ret callee normalDest unwindDest = .ok e') :
    ∃ o args, e'.text = e.text ++ .op (.call o) :: args.map .half
      ∧ RightForm env o (operands args 0).toNat := by
  have hfixup {o : CallOp} {args : List (BitVec 16)} (h : emitFixup e (.call o) args = .ok e') :
      e'.text = e.text ++ .op (.call o) :: args.map .half := by
    obtain ⟨t, ht, he⟩ := bind_ok.mp h
    rw [← Except.ok.inj he, emit_ok ht]
  obtain ⟨retReg, -, h⟩ := bind_ok.mp h
  cases hfunc : valueFunction iu callee.value with
  | some gfid =>
    simp only [hfunc] at h
    refine ⟨_, _, hfixup h, ?_⟩
    split
    · next hext => exact htable gfid hext
    · trivial
  | none =>
    simp only [hfunc] at h
    obtain ⟨iv, -, h⟩ := bind_ok.mp h
    split at h
    · exact ⟨_, _, hfixup h, trivial⟩
    · cases h

/-! ## One step -/

section
variable {env : Env} {m : Machine} {a : Activation} {cs : List Caller}

theorem callFunction_plain (o : CallOp) (g : ℕ) :
    callFunction env (plainMachine m) a cs (plainForm o) g
      = match env.functionTable g with
        | some fn => (external m a fn (resultOf o a cs)).map plain
        | none => (enter m a cs g).map plain := by
  rw [callFunction]
  cases env.functionTable g with
  | none => exact (enter_plain m a cs g).symm
  | some fn => exact (external_plain m a fn fun m r => resultOf_plain m a cs o r).symm

theorem textOf_call {o : CallOp} (hcell : (textOf m a)[a.pc]? = some (.op (.call o))) :
    ∃ t, m.vmFuncs a.func = some t ∧ textOf m a = t := by
  unfold textOf at hcell ⊢
  cases hfunc : m.vmFuncs a.func with
  | none =>
    rw [hfunc] at hcell
    cases hcell
  | some t => exact ⟨t, rfl, rfl⟩

theorem rightForm_at {o : CallOp} (hm : RightForms env m)
    (hcell : (textOf m a)[a.pc]? = some (.op (.call o))) :
    RightForm env o (operandsAt m a 0).toNat := by
  obtain ⟨t, ht, htext⟩ := textOf_call hcell
  rw [operandsAt, htext]
  rw [htext] at hcell
  exact hm a.func t a.pc o ht hcell

theorem execCall_direct {o : CallOp} (hext : ∀ fn, env.vmExecExt fn = fn) (hm : RightForms env m)
    (hcell : (textOf m a)[a.pc]? = some (.op (.call o))) (hdir : o ≠ .jsrR ∧ o ≠ .invokeR) :
    (execCall env m a cs o).map plain = uniformCall env (plainMachine m) a cs (plainForm o) := by
  have hform := rightForm_at hm hcell
  obtain ⟨t, ht, htext⟩ := textOf_call hcell
  rw [htext] at hcell
  have huniform : uniformCall env (plainMachine m) a cs (plainForm o)
      = callFunction env (plainMachine m) a cs (plainForm o) (operandsAt m a 0).toNat := by
    cases o with
    | jsrR => exact absurd rfl hdir.1
    | invokeR => exact absurd rfl hdir.2
    | jsr | jsrVm | jsrExt | invoke | invokeVm | invokeExt =>
      exact congrArg (fun I : Units => callFunction env _ a cs _ (I 0).toNat) (operandsAt_plain m a)
  rw [huniform, callFunction_plain]
  unfold execCall
  cases o with
  | jsrR => exact absurd rfl hdir.1
  | invokeR => exact absurd rfl hdir.2
  | jsr =>
    simp only
    cases env.functionTable (operandsAt m a 0).toNat with
    | none =>
      simp only
      rw [enter_plain, enter_plain, patch_plain m a ht hcell rfl]
    | some fn =>
      simp only
      rw [external_plain _ a fn fun m r => jsrResult_plain m a cs r, patch_plain m a ht hcell rfl,
        external_plain m a fn fun m r => resultOf_plain m a cs .jsr r]
      rfl
  | jsrVm =>
    rw [RightForm] at hform
    simp only [hform]
  | invokeVm =>
    rw [RightForm] at hform
    simp only [hform]
  | jsrExt =>
    obtain ⟨fn, hfn⟩ := Option.isSome_iff_exists.mp hform
    simp only [hfn, Option.bind_some, hext]
    rfl
  | invokeExt =>
    obtain ⟨fn, hfn⟩ := Option.isSome_iff_exists.mp hform
    simp only [hfn, Option.bind_some, hext]
    rfl
  | invoke =>
    simp only
    cases env.functionTable (operandsAt m a 0).toNat with
    | none => rfl
    | some fn => rfl

theorem enter_depth {g : ℕ} {s : State} (h : enter m a cs g = some s) :
    ∃ m' a', s = .running m' a' ((a, m.vm.allocaptr) :: cs) := by
  rw [enter] at h
  split at h
  · cases h
  · exact ⟨_, _, (Option.some.inj h).symm⟩

theorem resultOf_depth {o : CallOp} {r : ResultCode} {s : State} (h : resultOf o a cs m r = some s) :
    (∃ m' a', s = .running m' a' cs) ∨ ∃ m' r', s = .returning m' r' cs := by
  have hjsr (h : jsrResult a cs m r = some s) :
      (∃ m' a', s = .running m' a' cs) ∨ ∃ m' r', s = .returning m' r' cs := by
    cases r with
    | normal => exact Or.inl ⟨_, _, (Option.some.inj h).symm⟩
    | exception => exact Or.inr ⟨_, _, (Option.some.inj h).symm⟩
  have hinvoke (h : invokeResult a cs m r = some s) :
      (∃ m' a', s = .running m' a' cs) ∨ ∃ m' r', s = .returning m' r' cs := by
    obtain ⟨pc, -, hs⟩ := Option.map_eq_some_iff.mp h
    exact Or.inl ⟨_, _, hs.symm⟩
  cases o with
  | jsr | jsrVm | jsrExt | jsrR => exact hjsr h
  | invoke | invokeVm | invokeExt | invokeR => exact hinvoke h

theorem external_depth {fn : ExtFunction} {o : CallOp} {s : State}
    (h : external m a fn (resultOf o a cs) = some s) :
    (∃ m' a', s = .running m' a' cs) ∨ (∃ m' r', s = .returning m' r' cs)
      ∨ ∃ reason code, s = .stopped reason code := by
  rw [external] at h
  split at h
  · cases h
  · exact Or.inr (Or.inr ⟨_, _, (Option.some.inj h).symm⟩)
  · rcases resultOf_depth h with h | h
    · exact Or.inl h
    · exact Or.inr (Or.inl h)

theorem plain_depth_ne {s u : State} {c : Caller} (hs : ∃ m' a', s = .running m' a' (c :: cs))
    (hu : (∃ m' a', u = .running m' a' cs) ∨ (∃ m' r', u = .returning m' r' cs)
      ∨ ∃ reason code, u = .stopped reason code) : plain s ≠ plain u := by
  obtain ⟨m₁, a₁, rfl⟩ := hs
  intro heq
  rcases hu with ⟨m₂, a₂, rfl⟩ | ⟨m₂, r₂, rfl⟩ | ⟨reason, code, rfl⟩
  · simp only [plain, State.running.injEq] at heq
    exact List.cons_ne_self _ _ heq.2.2
  · cases heq
  · cases heq

/-- `JSR_R` and an external function. -/
theorem external_jsrR (fn : ExtFunction) :
    (external m a fn (jsrRExternal a cs)).map plain
        = (external m a fn (resultOf .jsrR a cs)).map plain
      ↔ ¬ ∃ registers vm, fn (resultAddr m a) (calleeFrame m a) m.registers m.vm
        = some (.result .exception registers vm) := by
  rw [external, external]
  cases fn (resultAddr m a) (calleeFrame m a) m.registers m.vm with
  | none => simp
  | some out =>
    cases out with
    | stop reason code => simp
    | result r registers vm =>
      cases r with
      | normal => simp [jsrRExternal, resultOf, jsrResult]
      | exception => simp [jsrRExternal, resultOf, jsrResult, plain]

/-- The code of `JSR_R` and of `INVOKE_R`. -/
theorem execCall_register {o : CallOp} (ho : o = .jsrR ∨ o = .invokeR) :
    execCall env m a cs o
      = if env.numFunctions ≤ (functionRegister m a).toNat then
          some (badFunction (functionRegister m a))
        else if (m.vmFuncs (functionRegister m a).toNat).isSome then
          enter m a cs (functionRegister m a).toNat
        else
          match env.functionTable (functionRegister m a).toNat with
          | some fn => external m a fn (if o = .jsrR then jsrRExternal a cs else resultOf o a cs)
          | none => some (badFunction (functionRegister m a)) := by
  rcases ho with rfl | rfl
  · rfl
  · rfl

theorem uniformCall_register {o : CallOp} (ho : o = .jsrR ∨ o = .invokeR) :
    uniformCall env (plainMachine m) a cs o
      = if env.numFunctions ≤ (functionRegister m a).toNat
            ∨ ((m.vmFuncs (functionRegister m a).toNat).isNone
              ∧ (env.functionTable (functionRegister m a).toNat).isNone) then
          some (badFunction (functionRegister m a))
        else
          match env.functionTable (functionRegister m a).toNat with
          | some fn => (external m a fn (resultOf o a cs)).map plain
          | none => (enter m a cs (functionRegister m a).toNat).map plain := by
  have hfuncs (g : ℕ) : ((plainMachine m).vmFuncs g).isNone = (m.vmFuncs g).isNone :=
    Option.isNone_map
  have hcall := @callFunction_plain env m a cs o
    (functionRegister m a).toNat
  rcases ho with rfl | rfl
  · rw [← hcall, uniformCall, functionRegister_plain, callIndirect, hfuncs]
    rfl
  · rw [← hcall, uniformCall, functionRegister_plain, callIndirect, hfuncs]
    rfl

/-- An indirect call agrees with the others, unless the function has two bodies or the exception of
an external one is dropped. -/
theorem execCall_indirect {o : CallOp} (ho : o = .jsrR ∨ o = .invokeR) :
    (execCall env m a cs o).map plain = uniformCall env (plainMachine m) a cs o
      ↔ ¬ DropsException env m a o ∧ ¬ TwoBodies env m a o := by
  rw [execCall_register ho, uniformCall_register ho, DropsException, TwoBodies]
  generalize functionRegister m a = fid
  by_cases hnum : env.numFunctions ≤ fid.toNat
  · have hlt : ¬ fid.toNat < env.numFunctions := Nat.not_lt.mpr hnum
    rw [if_pos hnum, if_pos (Or.inl hnum)]
    simp [hlt, badFunction, plain]
  have hlt : fid.toNat < env.numFunctions := Nat.lt_of_not_le hnum
  rw [if_neg hnum]
  cases hvm : m.vmFuncs fid.toNat with
  | some t =>
    cases hfn : env.functionTable fid.toNat with
    | none => simp [hnum]
    | some fn =>
      have hsome : enter m a cs fid.toNat = some (.running m ⟨fid.toNat, 0, calleeFrame m a,
          resultAddr m a⟩ ((a, m.vm.allocaptr) :: cs)) := by
        rw [enter, hvm]
      have hne : (enter m a cs fid.toNat).map plain
          ≠ (external m a fn (resultOf o a cs)).map plain := by
        intro heq
        rw [hsome, Option.map_some] at heq
        obtain ⟨u, hu, huplain⟩ := Option.map_eq_some_iff.mp heq.symm
        exact plain_depth_ne ⟨_, _, rfl⟩ (external_depth hu) huplain.symm
      simp [hnum, hlt, ho, hne]
  | none =>
    cases hfn : env.functionTable fid.toNat with
    | none => simp [hnum, badFunction, plain]
    | some fn =>
      rcases ho with rfl | rfl
      · have hiff := @external_jsrR m a cs fn
        simp only [Option.isSome_none, Bool.false_eq_true, if_false, if_true, hnum,
          Option.isNone_some, and_false, or_self, hiff]
        simp [hlt]
      · simp [hnum]

theorem plain_eq_call {t : Text} {i : ℕ} {o : CallOp} (h : t[i]? = some (.op (.call o))) :
    (plainText t)[i]? = some (.op (.call (plainForm o))) := by
  rw [getElem?_plainText, h]
  rfl

theorem progStep_plain (h : Host) (t : Text) (c : Cpu)
    (hcall : ∀ o, t[c.pc]? ≠ some (.op (.call o))) :
    ProgramText.step h (plainText t) c = ProgramText.step h t c := by
  rw [ProgramText.step, ProgramText.step, unitsAt_plainText, getElem?_plainText]
  cases hcell : t[c.pc]? with
  | none => rfl
  | some cell =>
    cases cell with
    | half v => rfl
    | op o =>
      cases o with
      | straight op => rfl
      | control o => rfl
      | leave o => rfl
      | call o => exact absurd hcell (hcall o)

theorem execLeave_plain (o : LeaveOp) :
    plain (execLeave m a cs o) = execLeave (plainMachine m) a cs o := by
  cases o with
  | retVoid => rfl
  | unreachable => rfl
  | retR32 | retR64 | retR32C | retR64C | resume =>
    rw [execLeave, execLeave, operandsAt_plain]
    rfl

theorem step_other (hcall : ∀ o, (textOf m a)[a.pc]? ≠ some (.op (.call o))) :
    (execStep env (.running m a cs)).map plain = execStep env (.running (plainMachine m) a cs) := by
  have hprog := progStep_plain (hostAt env a) (textOf m a) ⟨a.pc, frameAt a.rf m.registers, m.vm⟩ hcall
  have hplain : ProgramText.step (hostAt env a) (plainText (textOf m a))
      ⟨a.pc, frameAt a.rf (plainMachine m).registers, (plainMachine m).vm⟩ = _ := hprog
  simp only [execStep, textOf_plain, getElem?_plainText]
  rw [hplain]
  cases hcell : (textOf m a)[a.pc]? with
  | none =>
    simp only [Option.map_none, Option.map_map]
    rfl
  | some cell =>
    cases cell with
    | half v =>
      simp only [Option.map_some, plainCell, Option.map_map]
      rfl
    | op o =>
      cases o with
      | straight op =>
        simp only [Option.map_some, plainCell, Option.map_map]
        rfl
      | control o =>
        simp only [Option.map_some, plainCell, Option.map_map]
        rfl
      | leave o => exact congrArg some (execLeave_plain o)
      | call o => exact absurd hcell (hcall o)

theorem step_returning (r : ResultCode) :
    (execStep env (.returning m r cs)).map plain = execStep env (.returning (plainMachine m) r cs) := by
  cases cs with
  | nil => rfl
  | cons c cs =>
    obtain ⟨a, allocaptr⟩ := c
    simp only [execStep, textOf_plain, getElem?_plainText]
    cases hcell : (textOf m a)[a.pc]? with
    | none => rfl
    | some cell =>
      cases cell with
      | half v => rfl
      | op o =>
        cases o with
        | straight op => rfl
        | control o => rfl
        | leave o => rfl
        | call o => exact resultOf_plain _ a cs o r

theorem step_uniform_iff (hext : ∀ fn, env.vmExecExt fn = fn) {s : State} (hs : Patched env s) :
    (execStep env s).map plain = uniformStep env (plain s) ↔ Observed env s := by
  cases s with
  | stopped reason code => exact ⟨fun _ => trivial, fun _ => rfl⟩
  | returning m r cs => exact ⟨fun _ => trivial, fun _ => step_returning r⟩
  | running m a cs =>
    by_cases hcall : ∃ o, (textOf m a)[a.pc]? = some (.op (.call o))
    · obtain ⟨o, hcell⟩ := hcall
      have hstep : execStep env (.running m a cs) = execCall env m a cs o := by
        simp only [execStep, hcell]
      have huniform : uniformStep env (plain (.running m a cs))
          = uniformCall env (plainMachine m) a cs (plainForm o) := by
        have hplain := plain_eq_call hcell
        rw [← textOf_plain] at hplain
        simp only [uniformStep, plain, hplain]
      have hobs : Observed env (.running m a cs)
          ↔ ¬ DropsException env m a o ∧ ¬ TwoBodies env m a o := by
        refine ⟨fun h => h o hcell, fun h o' ho' => ?_⟩
        obtain rfl : o = o' := by simpa using hcell.symm.trans ho'
        exact h
      rw [hstep, huniform, hobs]
      by_cases ho : o = .jsrR ∨ o = .invokeR
      · rw [← execCall_indirect ho]
        rcases ho with rfl | rfl
        · rfl
        · rfl
      · rw [not_or] at ho
        refine ⟨fun _ => ⟨fun h => ho.1 h.1, fun h => ?_⟩, fun _ => execCall_direct hext hs hcell ho⟩
        rcases h.1 with h | h
        · exact ho.1 h
        · exact ho.2 h
    · have hnone : ∀ o, (textOf m a)[a.pc]? ≠ some (.op (.call o)) :=
        fun o ho => hcall ⟨o, ho⟩
      refine ⟨fun _ o ho => absurd ho (hnone o), fun _ => ?_⟩
      rw [step_other hnone]
      have hplain : ∀ o, (textOf (plainMachine m) a)[a.pc]? ≠ some (.op (.call o)) := by
        intro o ho
        rw [textOf_plain, getElem?_plainText] at ho
        obtain ⟨cell, hcell, hc⟩ := Option.map_eq_some_iff.mp ho
        cases cell with
        | half v => cases hc
        | op o' =>
          cases o' with
          | call o' => exact hnone o' hcell
          | straight op => cases hc
          | control o => cases hc
          | leave o => cases hc
      change _ = uniformStep env (.running (plainMachine m) a cs)
      rw [uniformStep]
      split
      · next o ho => exact absurd ho (hplain o)
      · rfl

/-! ## Runs -/

theorem patched_enter {g : ℕ} {s : State} (hm : RightForms env m) (h : enter m a cs g = some s) :
    Patched env s := by
  obtain ⟨m', a', rfl⟩ := enter_depth h
  rw [enter] at h
  split at h
  · cases h
  · simp only [Option.some.injEq, State.running.injEq] at h
    obtain ⟨rfl, -⟩ := h
    exact hm

theorem patched_jsrResult {r : ResultCode} {s : State} (hm : RightForms env m)
    (h : jsrResult a cs m r = some s) : Patched env s := by
  cases r with
  | normal =>
    rw [← Option.some.inj h]
    exact hm
  | exception =>
    rw [← Option.some.inj h]
    exact hm

theorem patched_invokeResult {r : ResultCode} {s : State} (hm : RightForms env m)
    (h : invokeResult a cs m r = some s) : Patched env s := by
  obtain ⟨pc, -, rfl⟩ := Option.map_eq_some_iff.mp h
  exact hm

theorem patched_resultOf {o : CallOp} {r : ResultCode} {s : State} (hm : RightForms env m)
    (h : resultOf o a cs m r = some s) : Patched env s := by
  cases o with
  | jsr | jsrVm | jsrExt | jsrR => exact patched_jsrResult hm h
  | invoke | invokeVm | invokeExt | invokeR => exact patched_invokeResult hm h

theorem patched_external {fn : ExtFunction} {after : Machine → ResultCode → Option State} {s : State}
    (hafter : ∀ m r, RightForms env m → after m r = some s → Patched env s)
    (hm : RightForms env m) (h : external m a fn after = some s) : Patched env s := by
  rw [external] at h
  split at h
  · cases h
  · rw [← Option.some.inj h]
    trivial
  · next r registers vm _ =>
    have hm' : RightForms env ⟨m.vmFuncs, registers, { vm with allocaptr := m.vm.allocaptr }⟩ := hm
    exact hafter _ r hm' h

/-- `JSR` puts the form for its callee in its place. -/
theorem rightForms_patch {t : Text} {o : CallOp} (hm : RightForms env m)
    (htext : m.vmFuncs a.func = some t) (hcell : t[a.pc]? = some (.op (.call .jsr)))
    (hplain : plainForm o = .jsr) (ho : RightForm env o (unitsAt t (a.pc + 1) 0).toNat) :
    RightForms env (patch m a o) := by
  intro g u pc o' hu hcall
  simp only [patch] at hu
  by_cases hg : g = a.func
  · rw [if_pos hg, hg, htext, Option.map_some] at hu
    obtain rfl := Option.some.inj hu
    have hunits : unitsAt (t.set a.pc (.op (.call o))) (pc + 1) = unitsAt t (pc + 1) := by
      rw [← unitsAt_plainText, plainText_set hcell hplain, unitsAt_plainText]
    rw [hunits]
    rw [List.getElem?_set] at hcall
    by_cases hpc : a.pc = pc
    · rw [if_pos hpc, if_pos (List.getElem?_eq_some_iff.mp hcell).1] at hcall
      simp only [Option.some.injEq, Cell.op.injEq, Opcode.call.injEq] at hcall
      rw [← hpc, ← hcall]
      exact ho
    · rw [if_neg hpc] at hcall
      exact hm a.func t pc o' htext hcall
  · rw [if_neg hg] at hu
    exact hm g u pc o' hu hcall

theorem patched_execCall {o : CallOp} {s : State} (hm : RightForms env m)
    (hcell : (textOf m a)[a.pc]? = some (.op (.call o))) (h : execCall env m a cs o = some s) :
    Patched env s := by
  obtain ⟨t, ht, htext⟩ := textOf_call hcell
  rw [htext] at hcell
  have hjsr (m : Machine) (r : ResultCode) : RightForms env m → jsrResult a cs m r = some s →
      Patched env s := fun hm h => patched_jsrResult hm h
  have hinvoke (m : Machine) (r : ResultCode) : RightForms env m →
      invokeResult a cs m r = some s → Patched env s := fun hm h => patched_invokeResult hm h
  by_cases ho : o = .jsrR ∨ o = .invokeR
  · rw [execCall_register ho] at h
    split at h
    · rw [← Option.some.inj h]
      trivial
    · split at h
      · exact patched_enter hm h
      · split at h
        · refine patched_external (fun m r hm h => ?_) hm h
          split at h
          · rw [← Option.some.inj h]
            exact hm
          · exact patched_resultOf hm h
        · rw [← Option.some.inj h]
          trivial
  unfold execCall at h
  cases o with
  | jsrR => exact absurd (Or.inl rfl) ho
  | invokeR => exact absurd (Or.inr rfl) ho
  | jsr =>
    simp only [operandsAt, htext] at h
    cases hfn : env.functionTable (unitsAt t (a.pc + 1) 0).toNat with
    | none =>
      rw [hfn] at h
      exact patched_enter (rightForms_patch (o := .jsrVm) hm ht hcell rfl hfn) h
    | some fn =>
      rw [hfn] at h
      have hform : RightForm env .jsrExt (unitsAt t (a.pc + 1) 0).toNat := by
        rw [RightForm, hfn]
        rfl
      exact patched_external hjsr (rightForms_patch hm ht hcell rfl hform) h
  | jsrVm | invokeVm => exact patched_enter hm h
  | jsrExt =>
    obtain ⟨fn, -, h⟩ := Option.bind_eq_some_iff.mp h
    exact patched_external hjsr hm h
  | invokeExt =>
    obtain ⟨fn, -, h⟩ := Option.bind_eq_some_iff.mp h
    exact patched_external hinvoke hm h
  | invoke =>
    simp only at h
    split at h
    · exact patched_external hinvoke hm h
    · exact patched_enter hm h

theorem patched_step {s u : State} (hs : Patched env s) (h : execStep env s = some u) :
    Patched env u := by
  cases s with
  | stopped reason code => cases h
  | returning m r cs =>
    cases cs with
    | nil => cases h
    | cons c cs =>
      rw [execStep] at h
      split at h
      · have hm' : RightForms env { m with vm := { m.vm with allocaptr := c.2 } } := hs
        exact patched_resultOf hm' h
      · cases h
  | running m a cs =>
    rw [execStep] at h
    split at h
    · next o hcell => exact patched_execCall hs hcell h
    · next o hcell =>
      rw [← Option.some.inj h]
      cases o with
      | unreachable => trivial
      | retVoid | retR32 | retR64 | retR32C | retR64C | resume => exact hs
    · obtain ⟨c, -, rfl⟩ := Option.map_eq_some_iff.mp h
      exact hs

/-- Calls agree in all their forms exactly where no exception is dropped and no function has two
bodies; a run that meets no such call is the run of the calls without their forms. -/
theorem call_forms_agree_iff (env : Env) (hext : ∀ fn, env.vmExecExt fn = fn) :
    (∀ s, Patched env s →
        ((execStep env s).map plain = uniformStep env (plain s) ↔ Observed env s))
      ∧ ∀ s u, Patched env s → RunsIn (execStep env) (Observed env) s u →
        Patched env u ∧ Reaches (uniformStep env) (plain s) (plain u) :=
  ⟨fun _ hs => step_uniform_iff hext hs, fun _ _ hs hrun =>
    ⟨hrun.invariant (fun _ _ hs _ h => patched_step hs h) hs,
      hrun.map (fun _ _ hs _ h => patched_step hs h)
        (fun _ hs ho => (step_uniform_iff hext hs).mpr ho) hs⟩⟩

end

/-! ## A dropped exception -/

def throwEnv : Env :=
  ⟨zeroHost, 2, fun g => if g = 1 then some fun _ _ registers vm => some (.result .exception registers vm)
    else none, id⟩

/-- Function 0 calls the function whose number is in register 8, and returns. -/
def throwMachine : Machine :=
  ⟨fun g => if g = 0 then some (.op (.call .jsrR) :: [8, 16, 0].map .half ++ [.op (.leave .retVoid)])
    else none, fun x => if x = 8 then 1 else 0, zeroVm⟩

/-- The function returns normally, although what it called threw. -/
theorem jsrR_drops_exception :
    Reaches (execStep throwEnv) (.running throwMachine ⟨0, 0, 0, 0⟩ [])
        (.returning throwMachine .normal [])
      ∧ uniformStep throwEnv (plain (.running throwMachine ⟨0, 0, 0, 0⟩ []))
        = some (.returning (plainMachine throwMachine) .exception []) := by
  have hcall : execStep throwEnv (.running throwMachine ⟨0, 0, 0, 0⟩ [])
      = some (.running throwMachine ⟨0, 4, 0, 0⟩ []) := rfl
  have hret : execStep throwEnv (.running throwMachine ⟨0, 4, 0, 0⟩ [])
      = some (.returning throwMachine .normal []) := rfl
  exact ⟨(Reaches.single hcall).trans (Reaches.single hret), rfl⟩

theorem call_forms_agree_iff_throw :
    (∀ s, Patched throwEnv s →
        ((execStep throwEnv s).map plain = uniformStep throwEnv (plain s) ↔ Observed throwEnv s))
      ∧ ∀ s u, Patched throwEnv s → RunsIn (execStep throwEnv) (Observed throwEnv) s u →
        Patched throwEnv u ∧ Reaches (uniformStep throwEnv) (plain s) (plain u) :=
  call_forms_agree_iff throwEnv fun _ => rfl

end Vmir.CallForms
