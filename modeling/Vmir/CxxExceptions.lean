import Mathlib.Logic.Function.Basic
import Vmir.FirstFitHeap

set_option autoImplicit false

/-!
# C++ exceptions

The entry points of `vmir_libc.c` that compiled programs call, and the two instructions of the
machine. The header of an exception stands right before it in guest memory.
-/
namespace Vmir.CxxExceptions
open Ir FirstFitHeap

/-- `vmir_cxx_exception_t` -/
structure CxxException where
  next : BitVec 32
  handlers : BitVec 32
  destructor : BitVec 32
deriving DecidableEq, Repr

def sizeofCxxException : BitVec 32 := 12

/-- `vmir_exception_t` -/
structure VmirException where
  exception : BitVec 32
  typeInfo : BitVec 32
  uncaught : BitVec 32
  caught : BitVec 32
deriving DecidableEq, Repr

/-- What the entry points use of the unit. `excAt` is the header at an offset of guest memory. -/
structure IrUnit where
  heap : Heap
  excAt : ℤ → CxxException
  iuException : VmirException

section
variable (heapStart : ℤ) (bookkeeping : List HeapBlock → ℤ → BitVec 8)

/-- The header of a block that could not be had is cleared, too. -/
def vmirCxaAllocateException (iu : IrUnit) (size : BitVec 32) :
    Except Fault (BitVec 32 × IrUnit) :=
  match vmirHeapMalloc heapStart bookkeeping iu.heap (size + sizeofCxxException) with
  | (none, _) => .error .nullDeref
  | (some p, heap) =>
    .ok (BitVec.ofInt 32 (p + sizeofCxxException.toNat),
      { iu with heap := heap, excAt := Function.update iu.excAt p ⟨0, 0, 0⟩ })

def vmirCxaFreeException (iu : IrUnit) (x : BitVec 32) : Except Fault IrUnit := do
  let heap ← vmirHeapFree heapStart bookkeeping iu.heap (x - sizeofCxxException).toNat
  .ok { iu with heap := heap }

def vmirCxaBeginCatch (iu : IrUnit) (x : BitVec 32) : BitVec 32 × IrUnit :=
  let x2 := x - sizeofCxxException
  let exc := iu.excAt x2.toNat
  let rethrown := exc.handlers.toInt < 0
  let handlers := if rethrown then -exc.handlers + 1 else exc.handlers + 1
  let uncaught :=
    if rethrown then iu.iuException.uncaught else iu.iuException.uncaught - 1
  (x, { iu with
    excAt := Function.update iu.excAt x2.toNat
      { exc with handlers := handlers, next := iu.iuException.caught }
    iuException := { iu.iuException with uncaught := uncaught, caught := x2 } })

def vmirCxaEndCatch (iu : IrUnit) : Except Fault (Option (BitVec 32) × IrUnit) :=
  let x2 := iu.iuException.caught
  let exc := iu.excAt x2.toNat
  let handlers := exc.handlers - 1
  let excAt := Function.update iu.excAt x2.toNat { exc with handlers := handlers }
  if handlers = 0 then do
    let heap ← vmirHeapFree heapStart bookkeeping iu.heap x2.toNat
    .ok (some x2, { iu with
      heap := heap, excAt := excAt
      iuException := { iu.iuException with caught := exc.next } })
  else .ok (none, { iu with excAt := excAt })

end

def vmirCxaThrow (iu : IrUnit) (exception typeInfo destructor : BitVec 32) :
    Except Fault IrUnit :=
  let p : ℤ := exception.toNat - sizeofCxxException.toNat
  let exc := iu.excAt p
  if destructor = 0 then
    .ok { iu with
      excAt := Function.update iu.excAt p { exc with destructor := destructor }
      iuException := { iu.iuException with
        exception := exception, typeInfo := typeInfo, uncaught := iu.iuException.uncaught + 1 } }
  else .error .abort

/-- The text of `__cxa_throw` again. The function has no arguments: what it reads as such is left
over below the caller's frame. -/
def vmirCxaRethrow (iu : IrUnit) (exception typeInfo destructor : BitVec 32) :
    Except Fault IrUnit :=
  vmirCxaThrow iu exception typeInfo destructor

/-- The two registers that `LANDINGPAD` sets. -/
def landingpad (iu : IrUnit) : BitVec 32 × BitVec 32 :=
  (iu.iuException.exception, iu.iuException.typeInfo)

def resume (iu : IrUnit) (exception typeInfo : BitVec 32) : IrUnit :=
  { iu with iuException := { iu.iuException with exception := exception, typeInfo := typeInfo } }

end Vmir.CxxExceptions
