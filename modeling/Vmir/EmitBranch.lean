import Vmir.EmitCmp

set_option autoImplicit false

/-!
# Branches, switches and calls

The emitters of `vmir_vm.c` for the instructions that leave a block, and for calls. A branching
operation is emitted with the ids of its blocks and recorded for `branch_fixup`.
-/
namespace Vmir.EmitBranch
open Ir VmOps VmControl IrTypes ProgramText EmitCmp

/-- Code behind what is emitted, that is not recorded. -/
def continueWith (e : Emission) (emitter : Text → Except Fault Text) :
    Except Fault Emission := do
  let t ← emitter e.text
  return ⟨t, e.branchFixups⟩

/-! ## Branches -/

/-- A branch without condition to the block behind it is no code. -/
def emitBr (iu : IrUnit) (e : Emission) (condition : Option ValueType)
    (trueBranch falseBranch : ℕ) (next : Option ℕ) : Except Fault Emission :=
  match condition with
  | none =>
    if next = some trueBranch then .ok e
    else emitFixup e (.control .b) [blockUnit trueBranch]
  | some c => do
    let iv ← valueGet iu c.value
    match iv.cls with
    | .regframe reg =>
      emitFixup e (.control .bcond) [reg.setWidth 16, blockUnit trueBranch, blockUnit falseBranch]
    | .constant _ =>
      let e ← emitFixup e (.control .b) []
      let u ← valueGetConst32 iu iv
      continueWith e (emitI16 · (blockUnit (if u ≠ 0 then trueBranch else falseBranch)))
    | _ => throw (.parserError "Unable to branch on value class %d")

/-! ## Switches -/

/-- `ir_instr_path_t` -/
structure SwitchPath where
  v64 : BitVec 64
  block : ℕ
deriving DecidableEq, Repr

/-- The mask that `parse_switch` applies to the constants of a type of `width` bits. -/
def caseMask (width : ℕ) : BitVec 64 :=
  if width = 64 then ~~~1 else (1 <<< width) - 1

/-- One path of a switch of type `typeid`, before the paths are sorted. -/
def parseSwitchPath (iu : IrUnit) (typeid width : ℕ) (val block : ℕ) : Except Fault SwitchPath := do
  let iv ← valueGet iu val
  match iv.cls with
  | .constant _ => pure ()
  | _ => throw (.parserError "Switch on non-constant value")
  if iv.type ≠ typeid then
    throw (.parserError "Type mismatch for switch/case values")
  return ⟨(← valueGetConst64 iu iv) &&& caseMask width, block⟩

/-- The paths of a switch as they are handed to `qsort`. -/
def parseSwitchPaths (iu : IrUnit) (typeid : ℕ) (cases : List (ℕ × ℕ)) :
    Except Fault (List SwitchPath) := do
  let width ← typeBitwidth (← typeGet iu typeid)
  cases.mapM fun (val, block) => parseSwitchPath iu typeid width val block

/-- What `qsort` with `switch_sort64` can make of the paths. -/
def SwitchSorted (paths sorted : List SwitchPath) : Prop :=
  sorted.Perm paths ∧ sorted.Pairwise fun a b => a.v64.toNat ≤ b.v64.toNat

def emitJumptable (e : Emission) (reg : BitVec 32) (jumptableSize : ℕ) (paths : List SwitchPath)
    (defblock : ℕ) : Except Fault Emission := do
  let e ← emitFixup e (.control .jumptable) [reg.setWidth 16, BitVec.ofNat 16 jumptableSize]
  let mask := BitVec.ofNat 64 (jumptableSize - 1)
  let table := paths.foldl (fun table p => table.set (p.v64 &&& mask).toNat (blockUnit p.block))
    (List.replicate jumptableSize (blockUnit defblock))
  continueWith e (emit · (table.map .half))

/-- What the three tables share: `entry` emits a constant. -/
def emitSwitchTable (e : Emission) (c : Control) (reg : BitVec 32)
    (entry : Text → BitVec 64 → Except Fault Text) (paths : List SwitchPath) (defblock : ℕ) :
    Except Fault Emission := do
  let e ← emitFixup e (.control c) [reg.setWidth 16, BitVec.ofNat 16 paths.length]
  continueWith e fun t => do
    let t ← paths.foldlM (fun t p => entry t p.v64) t
    let t ← paths.foldlM (fun t p => emitI16 t (blockUnit p.block)) t
    emitI16 t (blockUnit defblock)

def emitSwitch8 (iu : IrUnit) (e : Emission) (reg : BitVec 32) (paths : List SwitchPath)
    (defblock : ℕ) : Except Fault Emission :=
  emitSwitchTable e .switch8Bs reg (fun t v => emitI8 iu t (v.setWidth 8)) paths defblock

def emitSwitch32 (e : Emission) (reg mask32 : BitVec 32) (paths : List SwitchPath)
    (defblock : ℕ) : Except Fault Emission :=
  emitSwitchTable e .switch32Bs reg (fun t v => emitI32 t ((v &&& mask32.setWidth 64).setWidth 32))
    paths defblock

def emitSwitch64 (e : Emission) (reg : BitVec 32) (paths : List SwitchPath) (defblock : ℕ) :
    Except Fault Emission :=
  emitSwitchTable e .switch64Bs reg emitI64 paths defblock

def emitSwitch (iu : IrUnit) (e : Emission) (value : ValueType) (paths : List SwitchPath)
    (defblock : ℕ) : Except Fault Emission := do
  let c ← valueGet iu value.value
  let cty ← typeGet iu value.type
  let reg ← valueReg c
  match cty with
  | .intx width =>
    if 32 ≤ width then throw .abort
    if width ≤ 4 then emitJumptable e reg (1 <<< width) paths defblock
    else
      let mask32 := BitVec.ofNat 32 ((1 <<< width) - 1)
      let e ← continueWith e fun t => do
        let t ← emitOp2 t (.r32C .and) 0 reg
        emitI32 t mask32
      emitSwitch32 e 0 mask32 paths defblock
  | .int1 | .int8 =>
    if 64 < paths.length then emitJumptable e reg 256 paths defblock
    else emitSwitch8 iu e reg paths defblock
  | .int16 =>
    let e ← continueWith e (emitOp2 · .cast16Trunc32 0 reg)
    emitSwitch32 e 0 0xffff paths defblock
  | .int32 => emitSwitch32 e reg 0xffffffff paths defblock
  | .int64 =>
    let e ← continueWith e (vmAlign32 · true)
    emitSwitch64 e reg paths defblock
  | _ => throw (.parserError "Bad type in switch (%d paths): %s")

/-! ## Calls -/

def valueFunction (iu : IrUnit) (id : ℕ) : Option (BitVec 32) :=
  match iu.values[id]? with
  | some iv =>
    match iv.cls with
    | .function gfid => some gfid
    | _ => none
  | none => none

/-- The register of the result of a call, 0 when there is none. -/
def returnReg (iu : IrUnit) (ret : Option ValueType) : Except Fault (BitVec 32) :=
  match ret with
  | some r => do valueReg (← valueGet iu r.value)
  | none => .ok 0

/-- A call; `extFunc` tells for which functions `if_ext_func` is set. -/
def emitCall (iu : IrUnit) (extFunc : BitVec 32 → Bool) (t : Text) (rfOffset : BitVec 32)
    (ret : Option ValueType) (callee : ValueType) : Except Fault Text := do
  let retReg ← returnReg iu ret
  match valueFunction iu callee.value with
  | some gfid =>
    let op := if extFunc gfid then CallOp.jsrExt else CallOp.jsr
    emit t (.op (.call op)
      :: [gfid.setWidth 16, rfOffset.setWidth 16, retReg.setWidth 16].map .half)
  | none =>
    let iv ← valueGet iu callee.value
    match iv.cls with
    | .regframe reg =>
      emit t (.op (.call .jsrR)
        :: [reg.setWidth 16, rfOffset.setWidth 16, retReg.setWidth 16].map .half)
    | _ => throw (.parserError "Call via incompatible value class %d")

def emitInvoke (iu : IrUnit) (extFunc : BitVec 32 → Bool) (e : Emission) (rfOffset : BitVec 32)
    (ret : Option ValueType) (callee : ValueType) (normalDest unwindDest : ℕ) :
    Except Fault Emission := do
  let retReg ← returnReg iu ret
  let rest := [rfOffset.setWidth 16, retReg.setWidth 16, blockUnit normalDest, blockUnit unwindDest]
  match valueFunction iu callee.value with
  | some gfid =>
    let op := if extFunc gfid then CallOp.invokeExt else CallOp.invoke
    emitFixup e (.call op) (gfid.setWidth 16 :: rest)
  | none =>
    let iv ← valueGet iu callee.value
    match iv.cls with
    | .regframe reg => emitFixup e (.call .invokeR) (reg.setWidth 16 :: rest)
    | _ => throw (.parserError "Invoke via incompatible value class %d")

end Vmir.EmitBranch
