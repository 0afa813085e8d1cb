import Mathlib.Data.BitVec
import Vmir.IrTypes

set_option autoImplicit false

/-!
# The ARM code generator: values and the literal pool

The registers, the conditions, `make_imm12`, the code buffer with its literal pool, and the loads
and stores of values in `vmir_jit_arm.c`. An emitter is the list of what it appends to the buffer;
`perform` and `jitPushLiteralPool` are what that does to the buffer.
-/
namespace Vmir.JitArm
open Ir IrTypes

def armCondEq : BitVec 32 := 0x00000000
def armCondNe : BitVec 32 := 0x10000000
def armCondUgt : BitVec 32 := 0x80000000
def armCondUge : BitVec 32 := 0x20000000
def armCondUlt : BitVec 32 := 0x30000000
def armCondUle : BitVec 32 := 0x90000000
def armCondSgt : BitVec 32 := 0xc0000000
def armCondSge : BitVec 32 := 0xa0000000
def armCondSlt : BitVec 32 := 0xb0000000
def armCondSle : BitVec 32 := 0xd0000000
def armCondAl : BitVec 32 := 0xe0000000

def armcond (pred : IcmpPred) : BitVec 32 :=
  match pred with
  | .eq => armCondEq
  | .ne => armCondNe
  | .ugt => armCondUgt
  | .uge => armCondUge
  | .ult => armCondUlt
  | .ule => armCondUle
  | .sgt => armCondSgt
  | .sge => armCondSge
  | .slt => armCondSlt
  | .sle => armCondSle

/-- The other predicates abort in `armcond`. -/
def icmpOf (pred : Pred) : Except Fault IcmpPred :=
  match pred with
  | .icmp p => .ok p
  | .fcmp _ => .error .abort

def invertPred (pred : IcmpPred) : IcmpPred :=
  match pred with
  | .eq => .ne
  | .ne => .eq
  | .ugt => .ule
  | .ult => .uge
  | .uge => .ult
  | .ule => .ugt
  | .sgt => .sle
  | .slt => .sge
  | .sge => .slt
  | .sle => .sgt

/-- The number of a register, in its field of an instruction. -/
abbrev Reg := BitVec 4

def armMachinereg (reg : ℕ) : Reg :=
  if reg < 5 then BitVec.ofNat 4 (reg + 4) else BitVec.ofNat 4 (reg + 5)

def jitMachineRegs : ℕ := 7

def regSaveMask : BitVec 32 := 0x4ff0
def regRestoreMask : BitVec 32 := 0x8ff0

def rRet : Reg := 0
def rVmstack : Reg := 1
def rTmpc : Reg := 2
def rMem : Reg := 3
def rTmpb : Reg := 9
def rTmpa : Reg := 14

def literalPoolMaxSize : ℕ := 256

/-- `1 << n` -/
def bit (n : ℕ) : BitVec 32 := 1 <<< n

/-- A register in the field that starts at bit `n`. -/
def field (r : Reg) (n : ℕ) : BitVec 32 := r.setWidth 32 <<< n

def rotr32 (v : BitVec 32) (bits : ℕ) : BitVec 32 := v >>> bits ||| v <<< (32 - bits)

def rotl32 (v : BitVec 32) (bits : ℕ) : BitVec 32 := v <<< bits ||| v >>> (32 - bits)

/-- `-1` when there is no encoding. -/
def makeImm12 (v : BitVec 32) : BitVec 32 :=
  if v &&& 0xffffff00 = 0 then v
  else
    let rot := v.ctz.toNat / 2 * 2
    let v2 := rotr32 v rot
    if v2 &&& 0xffffff00 = 0 then
      let rot := 32 - rot
      rotl32 v rot ||| BitVec.ofNat 32 rot <<< 7
    else -1

/-! ## The buffer -/

/-- What an emitter appends: an instruction, a load from the literal pool, or the table of a jump
with the word that is skipped in front of it. -/
inductive Item
  | push (opcode : BitVec 32)
  | literal (imm : BitVec 32) (rd : Reg) (vmbb : Bool) (cond : BitVec 32)
  | table (entries : List (BitVec 32))
deriving DecidableEq, Repr

/-- An entry of `literal_pool`; `instr` is the number of the word of the load. -/
structure PoolEntry where
  value : BitVec 32
  instr : ℕ
  vmbb : Bool
deriving DecidableEq, Repr

inductive Stop
  | literalPoolFull
  | offsetTooLarge
  | jitMemory
deriving DecidableEq, Repr

/-- The words of `iu_jit_mem` in front of `iu_jit_ptr`, the pool of the context, and
`iu_jit_vmbb_fixups`. -/
structure Jit where
  mem : List (BitVec 32)
  pool : List PoolEntry
  vmbbFixups : List ℕ
deriving DecidableEq, Repr

def jitMemAlloced : ℕ := 1024 * 1024 * 16

/-- The buffer is allocated by the first push, which always has room, and does not grow. -/
def appendWords (s : Jit) (ws : List (BitVec 32)) : Except Stop Jit :=
  if jitMemAlloced ≤ 4 * (s.mem.length + ws.length) then .error .jitMemory
  else .ok { s with mem := s.mem ++ ws }

def loadLiteral (rd : Reg) (cond : BitVec 32) : BitVec 32 :=
  cond ||| bit 26 ||| bit 24 ||| bit 23 ||| 0x1f <<< 16 ||| field rd 12

def perform (s : Jit) (item : Item) : Except Stop Jit :=
  match item with
  | .push opcode => appendWords s [opcode]
  | .literal imm rd vmbb cond =>
    if s.pool.length = literalPoolMaxSize then .error .literalPoolFull
    else appendWords { s with pool := s.pool ++ [⟨imm, s.mem.length, vmbb⟩] } [loadLiteral rd cond]
  | .table entries => appendWords s (0 :: entries)

/-- The loop of `jit_push_literal_pool`: the load of the entry gets its offset, and the entry is
appended. -/
def placeLiteral (s : Jit) (e : PoolEntry) : Except Stop Jit :=
  let imm12 : ℤ := 4 * (s.mem.length : ℤ) - 4 * e.instr - 8
  if 4096 ≤ imm12 then .error .offsetTooLarge
  else appendWords
    { s with
      mem := s.mem.modify e.instr (· ||| BitVec.ofInt 32 imm12)
      vmbbFixups := if e.vmbb then s.vmbbFixups ++ [s.mem.length] else s.vmbbFixups }
    [e.value]

def jitPushLiteralPool (s : Jit) : Except Stop Jit := do
  let s ← s.pool.foldlM placeLiteral s
  return { s with pool := [] }

/-! ## Emitters -/

abbrev Emit (α : Type) := StateT (List Item) (Except Fault) α

def emitItem (i : Item) : Emit Unit := fun is => .ok ((), is ++ [i])

def jitPush (opcode : BitVec 32) : Emit Unit := emitItem (.push opcode)

def jitPushal (opcode : BitVec 32) : Emit Unit := jitPush (opcode ||| armCondAl)

def jitLoadimmFromLiteralPoolCond (imm : BitVec 32) (rd : Reg) (vmbb : Bool) (cond : BitVec 32) :
    Emit Unit := emitItem (.literal imm rd vmbb cond)

def jitLoadimmFromLiteralPool (imm : BitVec 32) (rd : Reg) (vmbb : Bool) : Emit Unit :=
  jitLoadimmFromLiteralPoolCond imm rd vmbb armCondAl

/-- The unit, with `iv_reg` of the values that the register allocator put in machine registers and
`iu_jit_cpuflags`. -/
structure JitUnit where
  iu : IrUnit
  ivReg : ℕ → Fin jitMachineRegs
  jitCpuflags : BitVec 32

section
variable (u : JitUnit)

/-- The processor has integer division, and with it `MOVW`. -/
def hasIdiv : Prop := u.jitCpuflags &&& bit 17 ≠ 0

instance : Decidable (hasIdiv u) := inferInstanceAs (Decidable (_ ≠ _))

def jitLoadimmCond (imm : BitVec 32) (rd : Reg) (cond : BitVec 32) : Emit Unit :=
  if makeImm12 imm ≠ -1 then
    -- MOV A1
    jitPush (cond ||| bit 25 ||| bit 24 ||| bit 23 ||| bit 21 ||| field rd 12 ||| makeImm12 imm)
  else if makeImm12 (~~~imm) ≠ -1 then
    -- MVN A1
    jitPush (cond ||| bit 25 ||| bit 24 ||| bit 23 ||| bit 22 ||| bit 21 ||| field rd 12 |||
      makeImm12 (~~~imm))
  else if imm ≤ 0xffff ∧ hasIdiv u then
    -- MOV A2
    jitPush (cond ||| bit 25 ||| bit 24 ||| (imm &&& 0xf000) <<< 4 ||| field rd 12 |||
      (imm &&& 0xfff))
  else jitLoadimmFromLiteralPoolCond imm rd false cond

def jitLoadimm (imm : BitVec 32) (rd : Reg) : Emit Unit := jitLoadimmCond u imm rd armCondAl

def jitPushAddImm (rd rn : Reg) (imm : BitVec 32) (tmpreg : Reg) : Emit Unit :=
  if makeImm12 imm ≠ -1 then
    jitPushal (bit 25 ||| bit 23 ||| field rn 16 ||| field rd 12 ||| makeImm12 imm)
  else do
    jitLoadimm u imm tmpreg
    jitPushal (bit 23 ||| field rn 16 ||| field rd 12 ||| tmpreg.setWidth 32)

/-- `assert(off < 4096 && off > -4096)` -/
def jitOffsetToImm12U (off : ℤ) : Except Fault (BitVec 32) :=
  if off < 4096 ∧ -4096 < off then
    .ok (if off < 0 then BitVec.ofInt 32 (-off) else BitVec.ofInt 32 off ||| bit 23)
  else .error .abort

/-- `none` for `-1` -/
def jitOffsetToImm8U (offset : ℤ) : Option (BitVec 32) :=
  if offset < 256 ∧ -256 < offset then
    let v := BitVec.ofInt 32 offset.natAbs
    some (v &&& 0xf ||| (v &&& 0xf0) <<< 4 ||| if offset < 0 then 0 else bit 23)
  else none

def typeCodeMask (code : TypeCode) : BitVec 32 :=
  match code with
  | .int1 | .int8 => 0xff
  | .int16 => 0xffff
  | _ => 0xffffffff

def valueGetConst (iu : IrUnit) (iv : Value) : Except Fault (BitVec 32) := do
  let it ← typeGet iu iv.type
  match iv.cls with
  | .globalvar addr => return addr
  | .constant u64 =>
    match it.code with
    | .int1 => return if u64.setWidth 32 = 0 then 0 else 1
    | .int8 | .int16 | .int32 | .pointer | .float => return u64.setWidth 32 &&& typeCodeMask it.code
    | .intx | .int64 | .double => return u64.setWidth 32
    | _ => throw notConst
  | _ => throw notConst

/-- `JIT_LOAD_EXT_*` -/
inductive Ext
  | none | unsigned | signed
deriving DecidableEq, Repr

def extendedConst (iu : IrUnit) (ext : Ext) (iv : Value) : Except Fault (BitVec 32) :=
  if ext = .signed then valueGetConst32 iu iv else valueGetConst iu iv

/-- A narrow value in a machine register is extended into `reg`: `SXTB`, `UXTB`, `SXTH`, `UXTH`. -/
def jitLoadMachinereg (mr reg : Reg) (code : TypeCode) (cond : BitVec 32) (ext : Ext) : Emit Reg :=
  match code, ext with
  | .int8, .signed => do
    jitPush (cond ||| bit 26 ||| bit 25 ||| bit 23 ||| bit 21 ||| 0xf0070 ||| field reg 12 |||
      mr.setWidth 32)
    return reg
  | .int8, .unsigned => do
    jitPush (cond ||| bit 26 ||| bit 25 ||| bit 23 ||| bit 22 ||| bit 21 ||| 0xf0070 |||
      field reg 12 ||| mr.setWidth 32)
    return reg
  | .int16, .signed => do
    jitPush (cond ||| bit 26 ||| bit 25 ||| bit 23 ||| bit 21 ||| bit 20 ||| 0xf0070 |||
      field reg 12 ||| mr.setWidth 32)
    return reg
  | .int16, .unsigned => do
    jitPush (cond ||| bit 26 ||| bit 25 ||| bit 23 ||| bit 22 ||| bit 21 ||| bit 20 ||| 0xf0070 |||
      field reg 12 ||| mr.setWidth 32)
    return reg
  | _, _ => return mr

/-- A load of a half or a signed byte, which has eight bits for the offset and aborts without. -/
def jitLoadImm8 (off : ℤ) (reg : Reg) (cond op : BitVec 32) : Emit Unit :=
  match jitOffsetToImm8U off with
  | some imm8 =>
    jitPush (cond ||| bit 24 ||| bit 22 ||| bit 20 ||| field rVmstack 16 ||| field reg 12 |||
      imm8 ||| op)
  | none => throw .abort

/-- `LDR`, or `LDRB` with bit 22 in `op`. -/
def jitLoadImm12 (off : ℤ) (reg : Reg) (cond op : BitVec 32) : Emit Unit := do
  let imm12 ← jitOffsetToImm12U off
  jitPush (cond ||| bit 26 ||| bit 24 ||| op ||| bit 20 ||| field rVmstack 16 ||| field reg 12 |||
    imm12)

def jitLoadRegframe (off : ℤ) (reg : Reg) (code : TypeCode) (cond : BitVec 32) (ext : Ext) :
    Emit Unit :=
  match code, ext with
  | .int8, .unsigned => jitLoadImm12 off reg cond (bit 22)
  | .int8, .signed => jitLoadImm8 off reg cond 0xd0
  | .int16, .unsigned => jitLoadImm8 off reg cond 0xb0
  | .int16, .signed => jitLoadImm8 off reg cond 0xf0
  | .int1, _ | .int8, _ | .int16, _ | .int32, _ | .float, _ | .pointer, _ =>
    jitLoadImm12 off reg cond 0
  | _, _ => throw (.parserError "JIT: Can't load value typecode %d")

def jitLoadvalueCond (vt : ValueType) (reg : Reg) (cond : BitVec 32) (ext : Ext) : Emit Reg := do
  let iv ← valueGet u.iu vt.value
  let it ← typeGet u.iu vt.type
  match iv.cls with
  | .machinereg =>
    jitLoadMachinereg (armMachinereg (u.ivReg vt.value)) reg (legalizeType it) cond ext
  | .regframe off =>
    jitLoadRegframe off.toInt reg (legalizeType it) cond ext
    return reg
  | .constant _ | .globalvar _ =>
    let imm ← extendedConst u.iu ext iv
    jitLoadimmCond u imm reg cond
    return reg
  | .function gfid =>
    jitLoadimmCond u gfid reg cond
    return reg
  | _ => throw (.parserError "JIT: Can't load value-class %d")

def jitLoadvalue (vt : ValueType) (reg : Reg) : Emit Reg :=
  jitLoadvalueCond u vt reg armCondAl .none

def jitStorevalueReg (vt : ValueType) (reg : Reg) : Emit Reg := do
  let iv ← valueGet u.iu vt.value
  match iv.cls with
  | .machinereg => return armMachinereg (u.ivReg vt.value)
  | _ => return reg

def jitStorevalueCond (vt : ValueType) (reg : Reg) (cond : BitVec 32) : Emit Unit := do
  let iv ← valueGet u.iu vt.value
  let it ← typeGet u.iu vt.type
  match iv.cls with
  | .machinereg =>
    let rd := armMachinereg (u.ivReg vt.value)
    if rd ≠ reg then
      jitPush (cond ||| bit 24 ||| bit 23 ||| bit 21 ||| field rd 12 ||| reg.setWidth 32)
  | .regframe off =>
    match legalizeType it with
    | .int1 | .int8 | .int16 | .int32 | .float | .pointer =>
      let imm12 ← jitOffsetToImm12U off.toInt
      jitPush (cond ||| bit 26 ||| bit 24 ||| field rVmstack 16 ||| field reg 12 ||| imm12)
    | _ => throw (.parserError "JIT: Can't store value typecode %d")
  | _ => throw (.parserError "JIT: Can't store value-class %d")

def jitStorevalue (vt : ValueType) (reg : Reg) : Emit Unit := jitStorevalueCond u vt reg armCondAl

end

end Vmir.JitArm
