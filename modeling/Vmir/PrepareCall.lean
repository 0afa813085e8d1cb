import Vmir.EmitMove

set_option autoImplicit false

/-!
# Arguments of calls

`prepare_call` puts a move in front of the call for every argument, or a copy for an aggregate that
is passed by value, and takes the copies from the stack again behind the call. The temporaries of
the arguments are shared by all calls of a function; `finalize_call_args` puts them at the end of
its register frame, where the frame of the callee begins.
-/
namespace Vmir.PrepareCall
open ByteStore RegisterProgram Ir VmOps IrTypes ProgramText EmitMove

def valueRegframeSlots (iu : IrUnit) (type : ℕ) : Except Fault ℕ := do
  let it ← typeGet iu type
  match it with
  | .int1 | .int8 | .int16 | .int32 | .float | .pointer _ | .function _ _ _ => return 1
  | .int64 | .double => return 2
  | .intx bits => return if bits ≤ 32 then 1 else 2
  | _ => throw (.parserError "Can't determine regframe slots for type %s")

/-- `ir_instr_arg_t` -/
structure CallArg where
  value : ValueType
  copySize : BitVec 32

/-! ## The caller -/

inductive ArgInstr
  | stackcopy (ret value : ValueType) (size : BitVec 32)
  | move (rets : List ValueType) (value : ValueType)

/-- The instruction in front of the call for the argument in the temporary `arg`. -/
def prepareArg (callargtype slots arg : ℕ) (a : CallArg) : Except Fault ArgInstr :=
  if a.copySize ≠ 0 then
    if slots = 1 then .ok (.stackcopy ⟨arg, callargtype⟩ a.value a.copySize) else .error .abort
  else if slots = 2 then .ok (.move [⟨arg + 1, callargtype⟩, ⟨arg, callargtype⟩] a.value)
  else .ok (.move [⟨arg, a.value.type⟩] a.value)

/-- The loop of `prepare_call`, with `total_slots` and `stackgrowth`. -/
def prepareArgs (iu : IrUnit) (callArgBase callargtype : ℕ) (totalSlots : ℕ)
    (stackgrowth : BitVec 32) (argv : List CallArg) :
    Except Fault (List ArgInstr × ℕ × BitVec 32) :=
  match argv with
  | [] => .ok ([], totalSlots, stackgrowth)
  | a :: argv => do
    let slots ← valueRegframeSlots iu a.value.type
    let i ← prepareArg callargtype slots (callArgBase + totalSlots) a
    let (is, total, growth) ← prepareArgs iu callArgBase callargtype (totalSlots + slots)
      (stackgrowth + a.copySize) argv
    return (i :: is, total, growth)

/-- A call with what `prepare_call` adds in front of it and behind it. -/
structure PreparedCall where
  before : List ArgInstr
  totalSlots : ℕ
  stackshrink : Option (BitVec 32)

def prepareCall (iu : IrUnit) (callArgBase callargtype : ℕ) (argv : List CallArg) :
    Except Fault PreparedCall := do
  let (is, total, growth) ← prepareArgs iu callArgBase callargtype 0 0 argv
  return ⟨is, total, if (0 : BitVec 32).slt growth then some growth else none⟩

/-- `num_call_args` after `prepare_calls`: the most that one of the calls needs. -/
def prepareCalls (iu : IrUnit) (callArgBase callargtype : ℕ) (calls : List (List CallArg)) :
    Except Fault ℕ :=
  calls.foldlM (fun n argv => do
    let p ← prepareCall iu callArgBase callargtype argv
    return max n p.totalSlots) 0

/-- The registers of the temporaries: the first one is at the end of the frame. -/
def finalizeCallArgs (iu : IrUnit) (callArgBase numCallArgs : ℕ) (regframeSize : BitVec 32) :
    IrUnit × BitVec 32 :=
  let size := regframeSize + BitVec.ofNat 32 (numCallArgs * 4)
  ({ iu with values := iu.values.mapIdx fun v iv =>
      if callArgBase ≤ v ∧ v < callArgBase + numCallArgs then
        { iv with cls := .regframe (size - BitVec.ofNat 32 ((v - callArgBase + 1) * 4)) }
      else iv }, size)

/-! ## The callee -/

/-- `if_callarg_size` and the registers of the parameters so far. -/
def valueAllocFunctionArg (iu : IrUnit) (s : BitVec 32 × List (BitVec 32)) (type : ℕ) :
    Except Fault (BitVec 32 × List (BitVec 32)) := do
  let slots ← valueRegframeSlots iu type
  let callargSize := s.1 - BitVec.ofNat 32 (slots * 4)
  return (callargSize, s.2 ++ [callargSize])

def functionArgs (iu : IrUnit) (parameters : List ℕ) :
    Except Fault (BitVec 32 × List (BitVec 32)) :=
  parameters.foldlM (valueAllocFunctionArg iu) (0, [])

/-! ## Arguments at run time -/

inductive Actual
  | word (v : BitVec 32)
  | wide (v : BitVec 64)
deriving DecidableEq, Repr

def Actual.slots (v : Actual) : ℕ :=
  match v with
  | .word _ => 1
  | .wide _ => 2

def Actual.store (v : Actual) (m : Bytes) (addr : ℤ) : Bytes :=
  match v with
  | .word v => write32 m addr v
  | .wide v => write64 m addr v

def load (m : Bytes) (addr : ℤ) (slots : ℕ) : Actual :=
  if slots = 1 then .word (read32 m addr) else .wide (read64 m addr)

/-- `vmir_vm_arg32` and `vmir_vm_arg_flt` move the pointer and read. -/
def vmirVmArg32 (m : Bytes) (rfp : ℤ) : BitVec 32 × ℤ := (read32 m (rfp - 4), rfp - 4)

/-- `vmir_vm_arg64` and `vmir_vm_arg_dbl` -/
def vmirVmArg64 (m : Bytes) (rfp : ℤ) : BitVec 64 × ℤ := (read64 m (rfp - 8), rfp - 8)

/-- An external function takes its arguments in the order of its parameters. -/
def hostArgs (m : Bytes) (rfp : ℤ) (ss : List ℕ) : List Actual :=
  match ss with
  | [] => []
  | s :: ss =>
    if s = 1 then .word (vmirVmArg32 m rfp).1 :: hostArgs m (vmirVmArg32 m rfp).2 ss
    else .wide (vmirVmArg64 m rfp).1 :: hostArgs m (vmirVmArg64 m rfp).2 ss

def hostAddrs (m : Bytes) (rfp : ℤ) (ss : List ℕ) : List ℤ :=
  match ss with
  | [] => []
  | s :: ss =>
    if s = 1 then (vmirVmArg32 m rfp).2 :: hostAddrs m (vmirVmArg32 m rfp).2 ss
    else (vmirVmArg64 m rfp).2 :: hostAddrs m (vmirVmArg64 m rfp).2 ss

/-! ## Variable arguments -/

/-- `VASTART` with the constant that `replace_call` adds: the list begins below the parameters. -/
def vaStart (rf : BitVec 64) (hostmem : Bytes) (ap : ℤ) (callargSize : BitVec 32) : Bytes :=
  write64 hostmem ap (rf + callargSize.signExtend 64)

/-- `vm_vaarg32`; the registers are at the host address `rf`. -/
def vmVaarg32 (rf : BitVec 64) (registers hostmem : Bytes) (ap : ℤ) : BitVec 32 × Bytes :=
  let p := read64 hostmem ap - 4
  (read32 registers (p - rf).toInt, write64 hostmem ap p)

def vmVaarg64 (rf : BitVec 64) (registers hostmem : Bytes) (ap : ℤ) : BitVec 64 × Bytes :=
  let p := read64 hostmem ap - 8
  (read64 registers (p - rf).toInt, write64 hostmem ap p)

/-- Which operation `emit_vaarg` emits for the type. -/
def vaargOp (ty : IrType) : Except Fault Op :=
  match legalizeType ty with
  | .int32 | .pointer | .int1 => .ok .vaarg32
  | .double | .int64 => .ok .vaarg64
  | _ => .error (.parserError "Unable to emit vaarg() for type %s")

/-- A `va_arg` of that many slots. -/
def vaArg (rf : BitVec 64) (registers hostmem : Bytes) (ap : ℤ) (slots : ℕ) : Actual × Bytes :=
  if slots = 1 then
    (.word (vmVaarg32 rf registers hostmem ap).1, (vmVaarg32 rf registers hostmem ap).2)
  else (.wide (vmVaarg64 rf registers hostmem ap).1, (vmVaarg64 rf registers hostmem ap).2)

/-! The operations of the interpreter read and write so. -/

section
variable (h : Host) (I : Units) (f : Bytes) (vm : Vm)

theorem exec_vastart :
    exec (body h .vastart I) f vm
      = some (f, ⟨vaStart h.rf vm.hostmem (hostaddr (read32 f (reg I 0))) (read32 f (reg I 1)),
        vm.allocaptr, vm.allocapeak, vm.exception, vm.typeInfo, vm.counts⟩) := rfl

theorem exec_vaarg32 :
    exec (body h .vaarg32 I) f vm
      = some (write32 f (reg I 0)
          (vmVaarg32 h.rf f vm.hostmem (hostaddr (read32 f (reg I 1)))).1,
        ⟨(vmVaarg32 h.rf f vm.hostmem (hostaddr (read32 f (reg I 1)))).2,
          vm.allocaptr, vm.allocapeak, vm.exception, vm.typeInfo, vm.counts⟩) := rfl

theorem exec_vaarg64 :
    exec (body h .vaarg64 I) f vm
      = some (write64 f (reg I 0)
          (vmVaarg64 h.rf f vm.hostmem (hostaddr (read32 f (reg I 1)))).1,
        ⟨(vmVaarg64 h.rf f vm.hostmem (hostaddr (read32 f (reg I 1)))).2,
          vm.allocaptr, vm.allocapeak, vm.exception, vm.typeInfo, vm.counts⟩) := rfl

end
end Vmir.PrepareCall
