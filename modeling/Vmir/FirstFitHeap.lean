import Mathlib.Data.BitVec
import Vmir.Ir
import Vmir.Tiling

set_option autoImplicit false

/-!
# The first-fit heap

The allocator of `vmir_libc.c` without TLSF, on a host with 64-bit pointers. Pointers are offsets
from the start of guest memory. The queue of the blocks is a list; what its links, sizes and magics
are as bytes of guest memory is the parameter `bookkeeping`.
-/
namespace Vmir.FirstFitHeap
open Ir

inductive HeapMagic
  | free
  | alloc
deriving DecidableEq, Repr

/-- `heap_block_t`, at `addr`. -/
structure HeapBlock where
  addr : ℤ
  hbSize : ℤ
  hbMagic : HeapMagic
deriving DecidableEq, Repr

def sizeofHeapBlock : ℤ := 24
def sizeofHeap : ℤ := 16

/-- The conversion to `int`. -/
def toInt (n : ℤ) : ℤ := Int.bmod n (2 ^ 32)

def vmirAlign16 (n : ℤ) : ℤ := toInt (n + 15) / 16 * 16

/-- What a request for `size` bytes asks of a block. -/
def blockSize (size : BitVec 32) : ℤ := vmirAlign16 (toInt (size.toInt + sizeofHeapBlock))

/-- `hb + 1` -/
def HeapBlock.payload (hb : HeapBlock) : ℤ := hb.addr + sizeofHeapBlock

/-! ## The blocks -/

/-- The block is taken, and what remains of it is split off if it is large enough. The remainder is
compared as an unsigned number. -/
def place (size : ℤ) (hb : HeapBlock) : List HeapBlock :=
  let remain := toInt (hb.hbSize - size)
  if 0 ≤ remain ∧ remain < sizeofHeapBlock * 2 then [⟨hb.addr, hb.hbSize, .alloc⟩]
  else [⟨hb.addr, size, .alloc⟩, ⟨hb.addr + size, remain, .free⟩]

/-- The loop of `vmir_heap_malloc`. -/
def mallocBlocks (size : ℤ) : List HeapBlock → Option (ℤ × List HeapBlock)
  | [] => none
  | hb :: rest =>
    if hb.hbMagic = .free ∧ size ≤ hb.hbSize then some (hb.payload, place size hb ++ rest)
    else (mallocBlocks size rest).map fun r => (r.1, hb :: r.2)

/-- `vmir_heap_merge_next` of the first block. -/
def mergeNext : List HeapBlock → Except Fault (List HeapBlock)
  | hb :: next :: rest =>
    if next.hbMagic = .free then
      if hb.addr < next.addr then
        .ok (⟨hb.addr, toInt (hb.hbSize + next.hbSize), hb.hbMagic⟩ :: rest)
      else .error .abort
    else .ok (hb :: next :: rest)
  | bs => .ok bs

/-- The first block is freed and merged with the next one. -/
def freeHead : List HeapBlock → Except Fault (List HeapBlock)
  | [] => .error .abort
  | hb :: rest =>
    if hb.hbMagic = .alloc then mergeNext (⟨hb.addr, hb.hbSize, .free⟩ :: rest) else .error .abort

/-- The block at `addr` is freed and merged with the next one, and the previous one with it. -/
def freeBlocks (addr : ℤ) : List HeapBlock → Except Fault (List HeapBlock)
  | [] => .error .abort
  | hb :: rest =>
    if hb.addr = addr then freeHead (hb :: rest)
    else if (rest.head?.map HeapBlock.addr) = some addr then do
      let rest ← freeHead rest
      mergeNext (hb :: rest)
    else do
      let rest ← freeBlocks addr rest
      .ok (hb :: rest)

/-! ## The heap -/

structure Heap where
  hBlocks : List HeapBlock
  mem : ℤ → BitVec 8

/-- The bytes of the queue head and of the block headers. -/
def InHeader (heapStart : ℤ) (bs : List HeapBlock) (p : ℤ) : Prop :=
  (heapStart ≤ p ∧ p < heapStart + sizeofHeap)
    ∨ ∃ hb ∈ bs, hb.addr ≤ p ∧ p < hb.addr + sizeofHeapBlock

instance (heapStart : ℤ) (bs : List HeapBlock) (p : ℤ) : Decidable (InHeader heapStart bs p) :=
  inferInstanceAs (Decidable (_ ∨ _))

section
variable (heapStart : ℤ) (bookkeeping : List HeapBlock → ℤ → BitVec 8)

def writeHeaders (bs : List HeapBlock) (mem : ℤ → BitVec 8) : ℤ → BitVec 8 := fun p =>
  if InHeader heapStart bs p then bookkeeping bs p else mem p

def vmirHeapInit (memsize : ℤ) (mem : ℤ → BitVec 8) : Heap :=
  let size := toInt (memsize - heapStart)
  let bs := [HeapBlock.mk (heapStart + sizeofHeap) (toInt (size - sizeofHeap)) .free]
  ⟨bs, writeHeaders heapStart bookkeeping bs mem⟩

def vmirHeapMalloc (h : Heap) (size : BitVec 32) : Option ℤ × Heap :=
  match mallocBlocks (blockSize size) h.hBlocks with
  | none => (none, h)
  | some (p, bs) => (some p, ⟨bs, writeHeaders heapStart bookkeeping bs h.mem⟩)

def vmirHeapFree (h : Heap) (ptr : ℤ) : Except Fault Heap := do
  let bs ← freeBlocks (ptr - sizeofHeapBlock) h.hBlocks
  .ok ⟨bs, writeHeaders heapStart bookkeeping bs h.mem⟩

/-- The size of the block of a pointer, less the header; the block must be allocated. -/
def vmirHeapUsableSize (h : Heap) (ptr : ℤ) : Except Fault ℤ :=
  match h.hBlocks.find? fun hb => hb.payload = ptr with
  | some hb => if hb.hbMagic = .alloc then .ok (toInt (hb.hbSize - sizeofHeapBlock))
    else .error .abort
  | none => .error .abort

def memset (mem : ℤ → BitVec 8) (p : ℤ) (v : BitVec 8) (n : ℤ) : ℤ → BitVec 8 := fun a =>
  if p ≤ a ∧ a < p + n then v else mem a

def memcpy (mem : ℤ → BitVec 8) (p q n : ℤ) : ℤ → BitVec 8 := fun a =>
  if p ≤ a ∧ a < p + n then mem (q + (a - p)) else mem a

def vmirCalloc (h : Heap) (nmemb size : BitVec 32) : Option ℤ × Heap :=
  match vmirHeapMalloc heapStart bookkeeping h (size * nmemb) with
  | (some p, h) => (some p, ⟨h.hBlocks, memset h.mem p 0 (size * nmemb).toNat⟩)
  | (none, h) => (none, h)

/-- `vmir_heap_free` of a pointer that may be null. -/
def vmirHeapFreePtr (h : Heap) : Option ℤ → Except Fault Heap
  | none => .ok h
  | some ptr => vmirHeapFree heapStart bookkeeping h ptr

/-- The header of a null pointer is read, too. -/
def vmirHeapRealloc (h : Heap) (ptr : Option ℤ) (size : BitVec 32) :
    Except Fault (Option ℤ × Heap) :=
  if size ≠ 0 then do
    let cursize ← match ptr with
      | none => .error .nullDeref
      | some ptr => vmirHeapUsableSize h ptr
    if size.toInt < cursize then .ok (ptr, h)
    else
      match vmirHeapMalloc heapStart bookkeeping h size with
      | (none, h) => .ok (none, h)
      | (some n, h) => do
        let mem := match ptr with
          | none => h.mem
          | some ptr => memcpy h.mem n ptr cursize
        let h ← vmirHeapFreePtr heapStart bookkeeping ⟨h.hBlocks, mem⟩ ptr
        .ok (some n, h)
  else do
    let h ← vmirHeapFreePtr heapStart bookkeeping h ptr
    .ok (none, h)

inductive HeapOp
  | malloc (size : BitVec 32)
  | calloc (nmemb size : BitVec 32)
  | realloc (ptr : ℤ) (size : BitVec 32)
  | free (ptr : ℤ)
deriving DecidableEq, Repr

def exec (h : Heap) : HeapOp → Except Fault (Option ℤ × Heap)
  | .malloc size => .ok (vmirHeapMalloc heapStart bookkeeping h size)
  | .calloc nmemb size => .ok (vmirCalloc heapStart bookkeeping h nmemb size)
  | .realloc ptr size =>
    vmirHeapRealloc heapStart bookkeeping h (if ptr = 0 then none else some ptr) size
  | .free ptr =>
    if ptr = 0 then .ok (none, h)
    else do
      let h ← vmirHeapFree heapStart bookkeeping h ptr
      .ok (none, h)

end

end Vmir.FirstFitHeap
