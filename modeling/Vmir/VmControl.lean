import Vmir.VmOps

set_option autoImplicit false

/-!
# The operations that branch

The operations of `vm_exec` that compute the next position from their operands. A branch operand is
a signed distance in bytes from the unit behind the opcode.
-/
namespace Vmir.VmControl
open ByteStore Ir VmOps

inductive Control
  | b
  | bcond
  | cmpBr8 (p : IcmpPred) | cmpBr8C (p : IcmpPred) | cmpBr32 (p : IcmpPred) | cmpBr32C (p : IcmpPred)
  | jumptable
  | switch8Bs
  | switch32Bs
  | switch64Bs
deriving DecidableEq, Repr

inductive CallOp
  | jsr | jsrR | jsrVm | jsrExt
  | invoke | invokeR | invokeVm | invokeExt
deriving DecidableEq, Repr

/-- The operations that leave `vm_exec`. -/
inductive LeaveOp
  | retVoid | retR32 | retR64 | retR32C | retR64C
  | resume
  | unreachable
deriving DecidableEq, Repr

/-- The loop of the `SWITCH*_BS` operations; `below imid` compares entry `imid` with the value. -/
def bisect (below : ℤ → Bool) (imin imax : ℤ) : ℤ × ℤ :=
  if imin < imax then
    let imid := (imin + imax) / 2
    if below imid then bisect below (imid + 1) imax else bisect below imin imid
  else (imin, imax)
termination_by (imax - imin).toNat
decreasing_by all_goals omega

/-- The entry of a table of `p` values that is taken for a value, `p` when it has none. -/
def tableIndex (p : ℕ) (below equal : ℤ → Bool) : ℤ :=
  let (imin, imax) := bisect below 0 (p - 1)
  if imax = imin ∧ equal imin then imin else p

/-- The binary search in a table whose entries have `units` units: the branch operand it takes. -/
def switchBs {w : ℕ} (I : Units) (units : ℕ) (entry : ℕ → BitVec w) (v : BitVec w) : BitVec 16 :=
  let p := (I 1).toNat
  let i := tableIndex p (fun i => (entry (2 + units * i.toNat)).ult v)
    (fun i => entry (2 + units * i.toNat) == v)
  I (2 + units * p + i.toNat)

def branch (c : Control) (I : Units) (f : Bytes) : BitVec 16 :=
  match c with
  | .b => I 0
  | .bcond => if read32 f (reg I 0) != 0 then I 1 else I 2
  | .cmpBr8 p =>
    if icmp p ((read32 f (reg I 2)).setWidth 8) ((read32 f (reg I 3)).setWidth 8) then I 0 else I 1
  | .cmpBr8C p =>
    if icmp p ((read32 f (reg I 2)).setWidth 8) ((I 3).setWidth 8) then I 0 else I 1
  | .cmpBr32 p => if icmp p (read32 f (reg I 2)) (read32 f (reg I 3)) then I 0 else I 1
  | .cmpBr32C p => if icmp p (read32 f (reg I 2)) (imm32 I 3) then I 0 else I 1
  | .jumptable =>
    I (2 + (r8 (read32 f (reg I 0)) &&& ((I 1).setWidth 32 - 1)).toNat)
  | .switch8Bs => switchBs I 1 (fun i => (I i).setWidth 8) ((read32 f (reg I 0)).setWidth 8)
  | .switch32Bs => switchBs I 2 (imm32 I) (read32 f (reg I 0))
  | .switch64Bs => switchBs I 4 (imm64 I) (read64 f (reg I 0))

/-- The branch operand that an `INVOKE` operation takes when the callee has returned `r`. -/
def invokeBranch (I : Units) (r : ℕ) : BitVec 16 := I (3 + r)

/-- The position `d` bytes from the unit `pos`, when it lies on a unit of the text. -/
def target (pos : ℕ) (d : BitVec 16) : Option ℕ :=
  let o := 2 * (pos : ℤ) + d.toInt
  if 0 ≤ o ∧ o % 2 = 0 then some (o / 2).toNat else none

end Vmir.VmControl
