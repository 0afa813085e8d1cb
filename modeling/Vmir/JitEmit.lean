import Vmir.JitArm

set_option autoImplicit false

/-!
# The ARM code generator: instructions and blocks

The emitters of `vmir_jit_arm.c` for the instructions that its checks accept, and the loop of
`vm_emit_function` over the blocks. The words of branches and tables still hold block numbers, as
they do before `jit_branch_fixup`.
-/
namespace Vmir.JitEmit
open Ir IrTypes JitArm

/-- `ib_jit`, `ib_only_jit_sucessors` and `ib_force_jit_entrypoint` are those that the analysis
left. -/
structure JitBb where
  id : ℕ
  instrs : List Instr
  jit : Bool
  onlyJitSucessors : Bool
  forceJitEntrypoint : Bool
deriving DecidableEq

/-- `ii_ret` -/
def iiRet (ii : Instr) : Except Fault ValueType :=
  match ii.rets with
  | [ret] => .ok ret
  | _ => .error .nullDeref

section
variable (u : JitUnit)

/-! ## Arithmetic -/

/-- `ADD` or `SUB` of an immediate. -/
def addImmediate (rd rn : Reg) (rc : BitVec 32) : Option (BitVec 32) :=
  if makeImm12 rc ≠ -1 then
    some (bit 25 ||| bit 23 ||| field rn 16 ||| field rd 12 ||| makeImm12 rc)
  else if makeImm12 (-rc) ≠ -1 then
    some (bit 25 ||| bit 22 ||| field rn 16 ||| field rd 12 ||| makeImm12 (-rc))
  else none

/-- The instruction of a binary operation with a constant, where there is one. -/
def binopImmediate (op : Binop) (rd rn : Reg) (rc : BitVec 32) : Option (BitVec 32) :=
  match op with
  | .sub => addImmediate rd rn (-rc)
  | .add => addImmediate rd rn rc
  | .or =>
    if makeImm12 rc ≠ -1 then
      some (bit 25 ||| bit 24 ||| bit 23 ||| field rn 16 ||| field rd 12 ||| makeImm12 rc)
    else none
  | .and =>
    if makeImm12 rc ≠ -1 then some (bit 25 ||| field rn 16 ||| field rd 12 ||| makeImm12 rc)
    else if makeImm12 (~~~rc) ≠ -1 then
      -- BIC
      some (bit 25 ||| bit 24 ||| bit 23 ||| bit 22 ||| field rn 16 ||| field rd 12 |||
        makeImm12 (~~~rc))
    else none
  | .xor =>
    if makeImm12 rc ≠ -1 then
      some (bit 25 ||| bit 21 ||| field rn 16 ||| field rd 12 ||| makeImm12 rc)
    else none
  | .shl =>
    some (bit 24 ||| bit 23 ||| bit 21 ||| field rd 12 ||| rn.setWidth 32 ||| (rc &&& 0x1f) <<< 7)
  | .lshr =>
    if rc ≠ 0 then
      some (bit 24 ||| bit 23 ||| bit 21 ||| field rd 12 ||| rn.setWidth 32 |||
        (rc &&& 0x1f) <<< 7 ||| bit 5)
    else none
  | .ashr =>
    if rc ≠ 0 then
      some (bit 24 ||| bit 23 ||| bit 21 ||| field rd 12 ||| rn.setWidth 32 |||
        (rc &&& 0x1f) <<< 7 ||| bit 6)
    else none
  | .mul | .udiv | .sdiv | .urem | .srem => none

def binopRegister (op : Binop) (rd rn rm : Reg) : Except Fault (BitVec 32) :=
  match op with
  | .add => .ok (bit 23 ||| field rn 16 ||| field rd 12 ||| rm.setWidth 32)
  | .sub => .ok (bit 22 ||| field rn 16 ||| field rd 12 ||| rm.setWidth 32)
  | .mul => .ok (0x90 ||| field rd 16 ||| field rm 8 ||| rn.setWidth 32)
  | .or => .ok (bit 24 ||| bit 23 ||| field rn 16 ||| field rd 12 ||| rm.setWidth 32)
  | .xor => .ok (bit 21 ||| field rn 16 ||| field rd 12 ||| rm.setWidth 32)
  | .and => .ok (field rn 16 ||| field rd 12 ||| rm.setWidth 32)
  | .shl =>
    .ok (bit 24 ||| bit 23 ||| bit 21 ||| bit 4 ||| field rm 8 ||| field rd 12 ||| rn.setWidth 32)
  | .lshr =>
    .ok (bit 24 ||| bit 23 ||| bit 21 ||| bit 5 ||| bit 4 ||| field rm 8 ||| field rd 12 |||
      rn.setWidth 32)
  | .ashr =>
    .ok (bit 24 ||| bit 23 ||| bit 21 ||| bit 6 ||| bit 4 ||| field rm 8 ||| field rd 12 |||
      rn.setWidth 32)
  | .sdiv =>
    .ok (bit 26 ||| bit 25 ||| bit 24 ||| bit 20 ||| 0xf000 ||| bit 4 ||| field rm 8 |||
      field rd 16 ||| rn.setWidth 32)
  | .udiv =>
    .ok (bit 26 ||| bit 25 ||| bit 24 ||| bit 20 ||| bit 21 ||| 0xf000 ||| bit 4 ||| field rm 8 |||
      field rd 16 ||| rn.setWidth 32)
  | .urem | .srem => .error .abort

/-- The instruction with the constant `rc`, if the operand is a constant. -/
def constantOperand (iv : Value) (rc : Except Fault (BitVec 32))
    (immediate : BitVec 32 → Option (BitVec 32)) : Except Fault (Option (BitVec 32)) :=
  match iv.cls with
  | .constant _ => immediate <$> rc
  | _ => .ok none

/-- The instruction with the immediate, or else the one with registers. -/
def jitOperate (immediate : Option (BitVec 32)) (register : Emit (BitVec 32)) : Emit Unit :=
  match immediate with
  | some opcode => jitPushal opcode
  | none => do
    let opcode ← register
    jitPushal opcode

def jitBinop (ret : ValueType) (op : Binop) (lhsValue rhsValue : ValueType) : Emit Unit := do
  let rhs ← valueGet u.iu rhsValue.value
  let rd ← jitStorevalueReg u ret rTmpa
  let rn ← jitLoadvalue u lhsValue rTmpa
  let immediate ← constantOperand rhs (valueGetConst u.iu rhs) (binopImmediate op rd rn)
  jitOperate immediate do
    let rm ← jitLoadvalue u rhsValue rTmpb
    binopRegister op rd rn rm
  jitStorevalue u ret rd

def jitMove (ret value : ValueType) : Emit Unit := do
  let rd ← jitStorevalueReg u ret rTmpa
  let rn ← jitLoadvalue u value rd
  jitStorevalue u ret rn

def jitMla (ret arg1 arg2 arg3 : ValueType) : Emit Unit := do
  let rd ← jitStorevalueReg u ret rTmpa
  let rn ← jitLoadvalue u arg1 rTmpa
  let rm ← jitLoadvalue u arg2 rTmpb
  let ra ← jitLoadvalue u arg3 (if rn ≠ rTmpa then rTmpa else if rm ≠ rTmpb then rTmpb else rTmpc)
  jitPushal (bit 21 ||| field rd 16 ||| field ra 12 ||| field rm 8 ||| 0x90 ||| rn.setWidth 32)
  jitStorevalue u ret rd

/-- `UXTB`, `SXTB`, `UXTH`, `SXTH` and `SBFX` -/
def castOpcode (dst : TypeCode) (op : CastOp) (src : TypeCode) (rd rm : Reg) :
    Except Fault (BitVec 32) :=
  let fields := field rd 12 ||| rm.setWidth 32
  match dst, op, src with
  | .int8, .trunc, .int32 | .int8, .trunc, .int16 | .int32, .zext, .int8 | .int16, .zext, .int8 =>
    .ok (bit 26 ||| bit 25 ||| bit 23 ||| bit 22 ||| bit 21 ||| 0xf0070 ||| fields)
  | .int32, .sext, .int8 | .int16, .sext, .int8 =>
    .ok (bit 26 ||| bit 25 ||| bit 23 ||| bit 21 ||| 0xf0070 ||| fields)
  | .int16, .trunc, .int32 | .int32, .zext, .int16 =>
    .ok (bit 26 ||| bit 25 ||| bit 23 ||| bit 22 ||| bit 21 ||| bit 20 ||| 0xf0070 ||| fields)
  | .int32, .sext, .int16 =>
    .ok (bit 26 ||| bit 25 ||| bit 23 ||| bit 21 ||| bit 20 ||| 0xf0070 ||| fields)
  | .int32, .sext, .int1 | .int16, .sext, .int1 =>
    .ok (bit 26 ||| bit 25 ||| bit 24 ||| bit 23 ||| bit 21 ||| 1 <<< 16 ||| field rd 12 |||
      bit 6 ||| bit 4 ||| rm.setWidth 32)
  | _, _, _ => .error .abort

def jitCast (ret : ValueType) (op : CastOp) (value : ValueType) : Emit Unit := do
  let srctype ← typeGet u.iu value.type
  let dsttype ← typeGet u.iu ret.type
  let rd ← jitStorevalueReg u ret rTmpa
  let rm ← jitLoadvalue u value rTmpa
  let opcode ← castOpcode (legalizeType dsttype) op (legalizeType srctype) rd rm
  jitPushal opcode
  jitStorevalue u ret rd

/-! ## Memory -/

/-- The scaled offset of an address: its register and its shift. A multiple of zero has no
`ffs`. -/
def jitOffsetReg (valueOffset : ValueType) (valueOffsetMultiply : BitVec 32) :
    Emit (Reg × ℕ) := do
  let regoff ← jitLoadvalue u valueOffset rTmpb
  if valueOffsetMultiply = 0 then throw .abort
  else
    let shift := valueOffsetMultiply.ctz.toNat
    if (1 : BitVec 32) <<< shift ≠ valueOffsetMultiply then do
      jitLoadimm u valueOffsetMultiply rTmpa
      jitPush (armCondAl ||| 0x90 ||| field rTmpb 16 ||| field regoff 8 ||| rTmpa.setWidth 32)
      return (rTmpb, 0)
    else return (regoff, shift)

def jitComputeEa (baseptr : ValueType) (valueOffset : Option ValueType)
    (valueOffsetMultiply immediateOffset : ℤ) (preferredReg : Reg) : Emit Reg := do
  if preferredReg = rTmpb then throw .abort
  let offset ← match valueOffset with
    | some vt => some <$> jitOffsetReg u vt (BitVec.ofInt 32 valueOffsetMultiply)
    | none => pure none
  let ea ← jitLoadvalue u baseptr preferredReg
  let ea ← match offset with
    | some (regoff, shift) => do
      jitPushal (bit 23 ||| field ea 16 ||| field preferredReg 12 |||
        BitVec.ofNat 32 shift <<< 7 ||| regoff.setWidth 32)
      pure preferredReg
    | none => pure ea
  if immediateOffset ≠ 0 then do
    jitPushAddImm u preferredReg ea (BitVec.ofInt 32 immediateOffset) rTmpb
    return preferredReg
  else return ea

def jitLea (ret baseptr : ValueType) (immediateOffset : ℤ) (valueOffset : Option ValueType)
    (valueOffsetMultiply : ℤ) : Emit Unit := do
  let ea ← jitComputeEa u baseptr valueOffset valueOffsetMultiply immediateOffset rTmpa
  jitStorevalue u ret ea

def ldr : BitVec 32 := bit 26 ||| bit 25 ||| bit 24 ||| bit 23 ||| bit 20
def ldrb : BitVec 32 := bit 26 ||| bit 25 ||| bit 24 ||| bit 23 ||| bit 22 ||| bit 20
def ldrExtra (op : BitVec 32) : BitVec 32 := bit 24 ||| bit 23 ||| bit 20 ||| op

/-- `none` for a load and cast that has no instruction. -/
def castLoad (ret pointee : TypeCode) (op : CastOp) : Option (BitVec 32) :=
  match ret, pointee, op with
  | .int32, .int8, .zext => some ldrb
  | .int32, .int8, .sext => some (ldrExtra 0xd0)
  | .int32, .int16, .zext => some (ldrExtra 0xb0)
  | .int32, .int16, .sext => some (ldrExtra 0xf0)
  | _, _, _ => none

def plainLoad (pointee : TypeCode) : Except Fault (BitVec 32) :=
  match pointee with
  | .int32 | .pointer | .float => .ok ldr
  | .int16 => .ok (ldrExtra 0xb0)
  | .int8 | .int1 => .ok ldrb
  | _ => .error .abort

def jitLoad (ret ptr : ValueType) (immediateOffset : ℤ) (valueOffset : Option ValueType)
    (valueOffsetMultiply : ℤ) (cast : Option CastOp) (loadType : BitVec 8) : Emit Unit := do
  let ea ← jitComputeEa u ptr valueOffset valueOffsetMultiply immediateOffset rTmpa
  let rt ← jitStorevalueReg u ret rTmpa
  let opcode ← match cast with
    | some op => do
      let pointee ← typeGet u.iu loadType.toNat
      let retty ← typeGet u.iu ret.type
      pure (castLoad (legalizeType retty) (legalizeType pointee) op)
    | none => do
      let pointee ← typeGet u.iu ret.type
      let opcode ← plainLoad (legalizeType pointee)
      pure (some opcode)
  match opcode with
  | some opcode => jitPushal (opcode ||| field rMem 16 ||| field rt 12 ||| ea.setWidth 32)
  | none => pure ()
  jitStorevalue u ret rt

def storeOpcode (code : TypeCode) : Except Fault (BitVec 32) :=
  match code with
  | .int32 | .pointer | .float => .ok (bit 26 ||| bit 25 ||| bit 24 ||| bit 23)
  | .int16 => .ok (bit 24 ||| bit 23 ||| 0xb0)
  | .int1 | .int8 => .ok (bit 26 ||| bit 25 ||| bit 24 ||| bit 23 ||| bit 22)
  | _ => .error .abort

def jitStore (ptr value : ValueType) (immediateOffset : ℤ) : Emit Unit := do
  let ea ← jitLoadvalue u ptr rTmpa
  let ea ← if immediateOffset ≠ 0 then do
      jitPushAddImm u rTmpa ea (BitVec.ofInt 32 immediateOffset) rTmpb
      pure rTmpa
    else pure ea
  let rt ← jitLoadvalue u value rTmpb
  let ty ← typeGet u.iu value.type
  let opcode ← storeOpcode (legalizeType ty)
  jitPushal (opcode ||| field rMem 16 ||| field rt 12 ||| ea.setWidth 32)

/-! ## Compares -/

def extOf (pred : Pred) : Ext :=
  match pred with
  | .icmp .sgt | .icmp .slt | .icmp .sge | .icmp .sle => .signed
  | _ => .unsigned

def cmpRegister (rn rm : Reg) : BitVec 32 :=
  bit 24 ||| bit 22 ||| bit 20 ||| field rn 16 ||| rm.setWidth 32

/-- `CMP` with the constant or `CMN` with its negation. -/
def cmpImmediate (rn : Reg) (rc : BitVec 32) : Option (BitVec 32) :=
  if makeImm12 rc ≠ -1 then
    some (bit 25 ||| bit 24 ||| bit 22 ||| bit 20 ||| field rn 16 ||| makeImm12 rc)
  else if makeImm12 (-rc) ≠ -1 then
    some (bit 25 ||| bit 24 ||| bit 22 ||| bit 21 ||| bit 20 ||| field rn 16 ||| makeImm12 (-rc))
  else none

def jitEmitCmp (lhs rhs : ValueType) (pred : Pred) : Emit Unit := do
  let ext := extOf pred
  let rn ← jitLoadvalueCond u lhs rTmpa armCondAl ext
  let rhsValue ← valueGet u.iu rhs.value
  let immediate ← constantOperand rhsValue (extendedConst u.iu ext rhsValue) (cmpImmediate rn)
  jitOperate immediate do
    let rm ← jitLoadvalueCond u rhs rTmpb armCondAl ext
    return cmpRegister rn rm

/-- `CMP` with zero. -/
def cmpZero (rn : Reg) : BitVec 32 := bit 25 ||| bit 24 ||| bit 22 ||| bit 20 ||| field rn 16

def jitEmitSelect (pred : IcmpPred) (ret trueValue falseValue : ValueType) : Emit Unit := do
  let trueCond := armcond pred
  let falseCond := armcond (invertPred pred)
  let rd ← jitStorevalueReg u ret rTmpa
  let rx ← jitLoadvalueCond u trueValue rd trueCond .none
  jitStorevalueCond u ret rx trueCond
  let rx ← jitLoadvalueCond u falseValue rd falseCond .none
  jitStorevalueCond u ret rx falseCond

def jitCmpSelect (ret : ValueType) (op : Pred)
    (lhsValue rhsValue trueValue falseValue : ValueType) : Emit Unit := do
  jitEmitCmp u lhsValue rhsValue op
  let pred ← icmpOf op
  jitEmitSelect u pred ret trueValue falseValue

def jitCmp (ret : ValueType) (op : Pred) (lhsValue rhsValue : ValueType) : Emit Unit := do
  jitEmitCmp u lhsValue rhsValue op
  let pred ← icmpOf op
  let trueCond := armcond pred
  let falseCond := armcond (invertPred pred)
  let rd ← jitStorevalueReg u ret rTmpa
  jitLoadimmCond u 1 rd trueCond
  jitStorevalueCond u ret rd trueCond
  jitLoadimmCond u 0 rd falseCond
  jitStorevalueCond u ret rd falseCond

def jitSelect (ret trueValue falseValue pred : ValueType) : Emit Unit := do
  let rn ← jitLoadvalue u pred rTmpa
  jitPushal (cmpZero rn)
  jitEmitSelect u .ne ret trueValue falseValue

/-! ## The ends of blocks

The result says whether the literal pool is pushed at the end. -/

def leave (cond : BitVec 32) : BitVec 32 := cond ||| 0x8bd <<< 16 ||| regRestoreMask

def jitExit (bb : ℕ) (cond : BitVec 32) : Emit Unit := do
  jitLoadimmFromLiteralPoolCond (BitVec.ofNat 32 bb) rRet true cond
  jitPush (leave cond)

def branchTo (bb : ℕ) (cond : BitVec 32) : BitVec 32 :=
  cond ||| bit 27 ||| bit 25 ||| BitVec.ofNat 32 bb

section
variable (bbs : List JitBb) (next : Option JitBb)

def bbFind (id : ℕ) : Except Fault JitBb :=
  match bbs.find? fun ib => ib.id = id with
  | some ib => .ok ib
  | none => .error .nullDeref

def skipsTo (ib : JitBb) : Bool := ib.onlyJitSucessors && decide (next = some ib)

/-- A jump to a block: false when it is skipped. -/
def jitJump (ib : JitBb) (bb : ℕ) (cond : BitVec 32) : Emit Bool :=
  if ib.jit then
    if skipsTo next ib then return false
    else do
      jitPush (branchTo bb cond)
      return true
  else do
    jitExit bb cond
    return true

def jitEmitConditionalBranch (trueBb falseBb : ℕ) (pred : IcmpPred) : Emit Bool := do
  let tib ← bbFind bbs trueBb
  let fib ← bbFind bbs falseBb
  let jumped ← jitJump next tib trueBb (armcond pred)
  let falseCond := if jumped then armCondAl else armcond (invertPred pred)
  let jumped' ← jitJump next fib falseBb falseCond
  return jumped && jumped'

def jitBr (condition : Option ValueType) (trueBranch falseBranch : ℕ) : Emit Bool :=
  match condition with
  | some vt => do
    let rn ← jitLoadvalue u vt rTmpa
    jitPushal (cmpZero rn)
    jitEmitConditionalBranch bbs next trueBranch falseBranch .ne
  | none => do
    let ib ← bbFind bbs trueBranch
    jitJump next ib trueBranch armCondAl

def jitCmpBr (op : Pred) (lhsValue rhsValue : ValueType) (trueBranch falseBranch : ℕ) :
    Emit Bool := do
  jitEmitCmp u lhsValue rhsValue op
  let pred ← icmpOf op
  jitEmitConditionalBranch bbs next trueBranch falseBranch pred

end

/-- The table of a switch: the default block but for the paths. -/
def jumptable (items defblock : ℕ) (paths : List Path) : List (BitVec 32) :=
  paths.foldl
    (fun table path => table.set (path.v64.toNat % items) (BitVec.ofNat 32 path.block))
    (List.replicate items (BitVec.ofNat 32 defblock))

def jitJumptable (value : ValueType) (defblock : ℕ) (paths : List Path) : Emit Bool := do
  let cty ← typeGet u.iu value.type
  let width ← typeBitwidth cty
  let items := 2 ^ width
  let rv ← jitLoadvalue u value rTmpa
  jitPushal (bit 25 ||| field rv 16 ||| field rTmpb 12 ||| BitVec.ofNat 32 (items - 1))
  -- LDR PC <- [PC + R_TMPB << 2]
  jitPush (armCondAl ||| ldr ||| 0xf <<< 16 ||| 0xf <<< 12 ||| 2 <<< 7 ||| rTmpb.setWidth 32)
  emitItem (.table (jumptable items defblock paths))
  return true

def jitRetValue (value : Option ValueType) : Emit Unit :=
  match value with
  | some vt => do
    let r ← jitLoadvalue u vt rTmpa
    jitPushal (bit 26 ||| bit 24 ||| field rRet 16 ||| field r 12)
  | none => return ()

def jitRet (value : Option ValueType) : Emit Bool := do
  jitRetValue u value
  jitPushal (bit 25 ||| bit 24 ||| bit 23 ||| bit 21)
  jitPushal (0x8bd <<< 16 ||| regRestoreMask)
  return true

/-! ## Blocks -/

section
variable (bbs : List JitBb) (next : Option JitBb)

/-- The loop of `jit_emit` over the instructions; what follows the end of the block is left. -/
def jitInstrs : List Instr → Emit Bool
  | [] => throw .abort
  | ii :: rest =>
    match ii.cls with
    | .binop op lhsValue rhsValue => do
      let ret ← iiRet ii
      jitBinop u ret op lhsValue rhsValue
      jitInstrs rest
    | .cast op value => do
      let ret ← iiRet ii
      jitCast u ret op value
      jitInstrs rest
    | .move value => do
      let ret ← iiRet ii
      jitMove u ret value
      jitInstrs rest
    | .load ptr immediateOffset valueOffset valueOffsetMultiply cast loadType => do
      let ret ← iiRet ii
      jitLoad u ret ptr immediateOffset valueOffset valueOffsetMultiply cast loadType
      jitInstrs rest
    | .store ptr value immediateOffset => do
      jitStore u ptr value immediateOffset
      jitInstrs rest
    | .lea baseptr immediateOffset valueOffset valueOffsetMultiply => do
      let ret ← iiRet ii
      jitLea u ret baseptr immediateOffset valueOffset valueOffsetMultiply
      jitInstrs rest
    | .mla arg1 arg2 arg3 => do
      let ret ← iiRet ii
      jitMla u ret arg1 arg2 arg3
      jitInstrs rest
    | .cmp2 op lhsValue rhsValue => do
      let ret ← iiRet ii
      jitCmp u ret op lhsValue rhsValue
      jitInstrs rest
    | .cmpSelect op lhsValue rhsValue trueValue falseValue => do
      let ret ← iiRet ii
      jitCmpSelect u ret op lhsValue rhsValue trueValue falseValue
      jitInstrs rest
    | .select trueValue falseValue pred => do
      let ret ← iiRet ii
      jitSelect u ret trueValue falseValue pred
      jitInstrs rest
    | .br condition trueBranch falseBranch => jitBr u bbs next condition trueBranch falseBranch
    | .cmpBranch op lhsValue rhsValue trueBranch falseBranch =>
      jitCmpBr u bbs next op lhsValue rhsValue trueBranch falseBranch
    | .switch value defblock paths => jitJumptable u value defblock paths
    | .ret value => jitRet u value
    | _ => throw .abort

def jitEntry (ib : JitBb) : Emit Unit :=
  if ib.onlyJitSucessors then return () else jitPushal (0x92d <<< 16 ||| regSaveMask)

def jitEmit (ib : JitBb) : Emit Bool := do
  jitEntry ib
  jitInstrs u bbs next ib.instrs

def jitEmitStub (ib : JitBb) : Emit Bool := do
  jitLoadimmFromLiteralPool (BitVec.ofNat 32 ib.id) rRet true
  jitPushal (0x8bd <<< 16 ||| regRestoreMask)
  return true

end

/-- What a block appends, and whether the literal pool is pushed then. -/
structure Chunk where
  items : List Item
  pushPool : Bool
deriving DecidableEq, Repr

def chunkOf (e : Emit Bool) : Except Fault Chunk := do
  let (pushPool, items) ← e.run []
  return ⟨items, pushPool⟩

/-- A block in the loop of `vm_emit_function`, in the part that concerns the code buffer. -/
def emitBb (bbs : List JitBb) (fullJit : Bool) (ib : JitBb) (next : Option JitBb) :
    Except Fault Chunk :=
  if fullJit || ib.jit then chunkOf (jitEmit u bbs next ib)
  else if ib.forceJitEntrypoint then chunkOf (jitEmitStub ib)
  else .ok ⟨[], false⟩

def emitBbs (bbs : List JitBb) (fullJit : Bool) : List JitBb → Except Fault (List Chunk)
  | [] => .ok []
  | ib :: rest => do
    let chunk ← emitBb u bbs fullJit ib rest.head?
    let chunks ← emitBbs bbs fullJit rest
    return chunk :: chunks

/-- `vm_emit_function`, up to `jitctx_done`. -/
def vmEmitFunction (bbs : List JitBb) (fullJit : Bool) : Except Fault (List Chunk) :=
  emitBbs u bbs fullJit bbs

end

def pushChunk (s : Jit) (chunk : Chunk) : Except Stop Jit := do
  let s ← chunk.items.foldlM perform s
  if chunk.pushPool then jitPushLiteralPool s else return s

/-- The chunks of a function, between `jitctx_init` and `jitctx_done`. -/
def pushFunction (s : Jit) (chunks : List Chunk) : Except Stop Jit := do
  let s ← chunks.foldlM pushChunk { s with pool := [], vmbbFixups := [] }
  jitPushLiteralPool s

end Vmir.JitEmit
