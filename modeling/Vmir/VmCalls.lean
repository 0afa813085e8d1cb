import Vmir.ProgramText

set_option autoImplicit false

/-!
# Calls

`vm_exec` calls itself for a function of the module and calls the host for an external one. Its
activations share one buffer of registers and the memory; each has its own position, its place in
the buffer and its allocation pointer.
-/
namespace Vmir.VmCalls
open ByteStore RegisterProgram Ir VmOps VmControl IrTypes ProgramText

/-- What a function returns: 0 is a normal return, 1 an exception. -/
inductive ResultCode
  | normal
  | exception
deriving DecidableEq, Repr

def ResultCode.code (r : ResultCode) : ℕ :=
  match r with
  | .normal => 0
  | .exception => 1

/-- The reasons of `vm_stop`. -/
inductive StopReason
  | exit | abort | unreachable | badInstruction | badFunction | uncaughtException
deriving DecidableEq, Repr

inductive ExtOutcome
  | result (r : ResultCode) (registers : Bytes) (vm : Vm)
  | stop (reason : StopReason) (code : BitVec 32)

/-- `vm_ext_function_t`: the addresses of the result and of the callee's registers, the registers,
and the rest. -/
abbrev ExtFunction := ℤ → ℤ → Bytes → Vm → Option ExtOutcome

structure Env where
  host : Host
  numFunctions : ℕ
  functionTable : ℕ → Option ExtFunction
  vmExecExt : ExtFunction → ExtFunction

/-- `iu_vm_funcs`, which the calls change in place, with the registers and the rest. -/
structure Machine where
  vmFuncs : ℕ → Option Text
  registers : Bytes
  vm : Vm

/-- One call of `vm_exec`. -/
structure Activation where
  func : ℕ
  pc : ℕ
  rf : ℤ
  ret : ℤ

/-- An activation that waits for its callee, with its allocation pointer. -/
abbrev Caller := Activation × BitVec 32

inductive State
  | running (m : Machine) (a : Activation) (callers : List Caller)
  | returning (m : Machine) (r : ResultCode) (callers : List Caller)
  | stopped (reason : StopReason) (code : BitVec 32)

def frameAt (rf : ℤ) (registers : Bytes) : Bytes := fun x => registers (rf + x)

def storeFrame (rf : ℤ) (f : Bytes) : Bytes := fun x => f (x - rf)

def hostAt (env : Env) (a : Activation) : Host :=
  { env.host with rf := env.host.rf + BitVec.ofInt 64 a.rf }

def textOf (m : Machine) (a : Activation) : Text := (m.vmFuncs a.func).getD []

def operandsAt (m : Machine) (a : Activation) : Units := unitsAt (textOf m a) (a.pc + 1)

/-- `R32(0)` -/
def functionRegister (m : Machine) (a : Activation) : BitVec 32 :=
  read32 (frameAt a.rf m.registers) (reg (operandsAt m a) 0)

/-! ## Callees -/

/-- `rf + I[1]`, an unsigned distance. -/
def calleeFrame (m : Machine) (a : Activation) : ℤ := a.rf + (operandsAt m a 1).toNat

/-- `rf + I[2]` -/
def resultAddr (m : Machine) (a : Activation) : ℤ := a.rf + (operandsAt m a 2).toNat

def enter (m : Machine) (a : Activation) (cs : List Caller) (g : ℕ) : Option State :=
  match m.vmFuncs g with
  | none => none
  | some _ =>
    some (.running m ⟨g, 0, calleeFrame m a, resultAddr m a⟩ ((a, m.vm.allocaptr) :: cs))

/-- The allocation pointer belongs to the caller. -/
def external (m : Machine) (a : Activation) (fn : ExtFunction)
    (after : Machine → ResultCode → Option State) : Option State :=
  match fn (resultAddr m a) (calleeFrame m a) m.registers m.vm with
  | none => none
  | some (.stop reason code) => some (.stopped reason code)
  | some (.result r registers vm) =>
    after ⟨m.vmFuncs, registers, { vm with allocaptr := m.vm.allocaptr }⟩ r

/-! ## What the caller does with the result -/

/-- `if(r) return r; NEXT(3);` -/
def jsrResult (a : Activation) (cs : List Caller) (m : Machine) (r : ResultCode) : Option State :=
  match r with
  | .normal => some (.running m { a with pc := a.pc + 4 } cs)
  | .exception => some (.returning m .exception cs)

/-- `I = (void *)I + (int16_t)I[3 + r]` -/
def invokeResult (a : Activation) (cs : List Caller) (m : Machine) (r : ResultCode) :
    Option State :=
  (target (a.pc + 1) (invokeBranch (operandsAt m a) r.code)).map fun pc =>
    .running m { a with pc := pc } cs

/-- The code behind the call of `vm_exec`. -/
def resultOf (o : CallOp) (a : Activation) (cs : List Caller) (m : Machine) (r : ResultCode) :
    Option State :=
  match o with
  | .jsr | .jsrVm | .jsrExt | .jsrR => jsrResult a cs m r
  | .invoke | .invokeVm | .invokeExt | .invokeR => invokeResult a cs m r

/-! ## The operations that call -/

/-- `I[-1] = vm_resolve(..)` -/
def patch (m : Machine) (a : Activation) (o : CallOp) : Machine :=
  { m with vmFuncs := fun g =>
      if g = a.func then (m.vmFuncs g).map (·.set a.pc (.op (.call o))) else m.vmFuncs g }

/-- `JSR_R` does not look at the result of an external function. -/
def jsrRExternal (a : Activation) (cs : List Caller) (m : Machine) (_ : ResultCode) :
    Option State :=
  some (.running m { a with pc := a.pc + 4 } cs)

/-- `vm_bad_function` -/
def badFunction (fid : BitVec 32) : State := .stopped .badFunction fid

def execCall (env : Env) (m : Machine) (a : Activation) (cs : List Caller) (o : CallOp) :
    Option State :=
  let g := (operandsAt m a 0).toNat
  let fid := functionRegister m a
  match o with
  | .jsr =>
    match env.functionTable g with
    | some fn => external (patch m a .jsrExt) a fn (jsrResult a cs)
    | none => enter (patch m a .jsrVm) a cs g
  | .jsrVm => enter m a cs g
  | .jsrExt =>
    (env.functionTable g).bind fun fn => external m a (env.vmExecExt fn) (jsrResult a cs)
  | .jsrR =>
    if env.numFunctions ≤ fid.toNat then some (badFunction fid)
    else if (m.vmFuncs fid.toNat).isSome then enter m a cs fid.toNat
    else
      match env.functionTable fid.toNat with
      | some fn => external m a fn (jsrRExternal a cs)
      | none => some (badFunction fid)
  | .invoke =>
    match env.functionTable g with
    | some fn => external m a fn (invokeResult a cs)
    | none => enter m a cs g
  | .invokeVm => enter m a cs g
  | .invokeExt =>
    (env.functionTable g).bind fun fn => external m a (env.vmExecExt fn) (invokeResult a cs)
  | .invokeR =>
    if env.numFunctions ≤ fid.toNat then some (badFunction fid)
    else if (m.vmFuncs fid.toNat).isSome then enter m a cs fid.toNat
    else
      match env.functionTable fid.toNat with
      | some fn => external m a fn (invokeResult a cs)
      | none => some (badFunction fid)

/-! ## The operations that leave -/

def execLeave (m : Machine) (a : Activation) (cs : List Caller) (o : LeaveOp) : State :=
  let I := operandsAt m a
  let f := frameAt a.rf m.registers
  match o with
  | .retVoid => .returning m .normal cs
  | .retR32 =>
    .returning { m with registers := write32 m.registers a.ret (read32 f (reg I 0)) } .normal cs
  | .retR64 =>
    .returning { m with registers := write64 m.registers a.ret (read64 f (reg I 0)) } .normal cs
  | .retR32C => .returning { m with registers := write32 m.registers a.ret (imm32 I 0) } .normal cs
  | .retR64C => .returning { m with registers := write64 m.registers a.ret (imm64 I 0) } .normal cs
  | .resume =>
    .returning { m with vm := { m.vm with
      exception := read32 f (reg I 0), typeInfo := read32 f (reg I 1) } } .exception cs
  | .unreachable => .stopped .unreachable 0

/-! ## Runs -/

def execStep (env : Env) (s : State) : Option State :=
  match s with
  | .running m a cs =>
    match (textOf m a)[a.pc]? with
    | some (.op (.call o)) => execCall env m a cs o
    | some (.op (.leave o)) => some (execLeave m a cs o)
    | _ =>
      (ProgramText.step (hostAt env a) (textOf m a) ⟨a.pc, frameAt a.rf m.registers, m.vm⟩).map fun c =>
        .running ⟨m.vmFuncs, storeFrame a.rf c.frame, c.vm⟩ { a with pc := c.pc } cs
  | .returning m r ((a, allocaptr) :: cs) =>
    match (textOf m a)[a.pc]? with
    | some (.op (.call o)) =>
      resultOf o a cs { m with vm := { m.vm with allocaptr := allocaptr } } r
    | _ => none
  | .returning _ _ [] => none
  | .stopped _ _ => none

end Vmir.VmCalls
