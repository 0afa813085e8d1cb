import Mathlib.Data.BitVec
import Vmir.SlotChain

set_option autoImplicit false

/-!
# The table of file descriptors

`vfd_create`, `vfd_get`, `vmir_fd_create`, `vmir_fd_get` and `vmir_fd_close` of `vmir_libc.c`. The
release functions are those of the type `ρ`. An operation that accesses an item outside of the
vector has no result.
-/
namespace Vmir.FdTable

variable {ρ : Type}

/-- `vmir_fd_t`. The union of `fh` and `freelist` is its 64 bits. -/
structure VmirFd (ρ : Type) where
  fh : BitVec 64
  release : Option ρ
  type : BitVec 8
deriving DecidableEq, Repr

def VmirFd.freelist (vfd : VmirFd ρ) : BitVec 32 := vfd.fh.setWidth 32

def VmirFd.setFreelist (vfd : VmirFd ρ) (fd : BitVec 32) : VmirFd ρ :=
  { vfd with fh := vfd.fh.extractLsb' 32 32 ++ fd }

/-- `iu_vfds` and `iu_vfd_free`. -/
structure VfdTable (ρ : Type) where
  vfds : List (VmirFd ρ)
  vfdFree : BitVec 32
deriving DecidableEq, Repr

/-- The table of a unit that `libc_initialize` has set up. -/
def start : VfdTable ρ := ⟨[], -1⟩

/-- `VECTOR_ITEM` at an `int`. -/
def vectorItem (vfds : List (VmirFd ρ)) (fd : BitVec 32) : Option (VmirFd ρ) :=
  if fd.toInt < 0 then none else vfds[fd.toNat]?

/-- An assignment to `VECTOR_ITEM` at an `int`. -/
def setVectorItem (vfds : List (VmirFd ρ)) (fd : BitVec 32) (f : VmirFd ρ → VmirFd ρ) :
    Option (List (VmirFd ρ)) := do
  let vfd ← vectorItem vfds fd
  some (vfds.set fd.toNat (f vfd))

def vfdCreate (t : VfdTable ρ) (type : BitVec 32) : Option (BitVec 32 × VfdTable ρ) :=
  if t.vfdFree ≠ -1 then do
    let vfd ← vectorItem t.vfds t.vfdFree
    let vfds ← setVectorItem t.vfds t.vfdFree fun v => { v with type := type.setWidth 8 }
    some (t.vfdFree, ⟨vfds, vfd.freelist⟩)
  else do
    let fd := BitVec.ofNat 32 t.vfds.length
    let vfds ← setVectorItem (t.vfds ++ [⟨0, none, 0⟩]) fd fun v =>
      { v with type := type.setWidth 8 }
    some (fd, ⟨vfds, t.vfdFree⟩)

/-- The descriptor is compared with the length as an unsigned number. -/
def vfdGet (t : VfdTable ρ) (fd type : BitVec 32) : Option (VmirFd ρ) :=
  match t.vfds[fd.toNat]? with
  | none => none
  | some vfd =>
    if vfd.type = 0 ∨ (type ≠ -1 ∧ vfd.type.setWidth 32 ≠ type) then none else some vfd

def vmirFdGet (t : VfdTable ρ) (fd type : BitVec 32) : BitVec 64 :=
  match vfdGet t fd type with
  | none => 0
  | some vfd => vfd.fh

def vmirFdCreate (t : VfdTable ρ) (handle : BitVec 64) (type : BitVec 32) (relfunc : Option ρ) :
    Option (BitVec 32 × VfdTable ρ) := do
  let (fd, t) ← vfdCreate t type
  let vfds ← setVectorItem t.vfds fd fun v => { v with fh := handle, release := relfunc }
  some (fd, ⟨vfds, t.vfdFree⟩)

/-- The table after `vmir_fd_close`, and the call of the release function. -/
def vmirFdClose (t : VfdTable ρ) (fd : BitVec 32) : VfdTable ρ × Option (ρ × BitVec 64) :=
  match vfdGet t fd (-1) with
  | none => (t, none)
  | some vfd =>
    (⟨t.vfds.set fd.toNat (VmirFd.setFreelist { vfd with type := 0 } t.vfdFree), fd⟩,
      vfd.release.map fun f => (f, vfd.fh))

inductive FdOp (ρ : Type)
  | create (handle : BitVec 64) (type : BitVec 32) (relfunc : Option ρ)
  | get (fd type : BitVec 32)
  | close (fd : BitVec 32)
deriving DecidableEq, Repr

inductive FdAnswer
  | created (fd : BitVec 32)
  | handle (found : Bool) (fh : BitVec 64)
  | closed
deriving DecidableEq, Repr

/-- An operation: its answer, the table after it and the release function that it calls. -/
def exec (t : VfdTable ρ) : FdOp ρ → Option (FdAnswer × VfdTable ρ × Option (ρ × BitVec 64))
  | .create handle type relfunc => do
    let (fd, t) ← vmirFdCreate t handle type relfunc
    some (.created fd, t, none)
  | .get fd type => some (.handle (vfdGet t fd type).isSome (vmirFdGet t fd type), t, none)
  | .close fd =>
    let (t, call) := vmirFdClose t fd
    some (.closed, t, call)

end Vmir.FdTable
