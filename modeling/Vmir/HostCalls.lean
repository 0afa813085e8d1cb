import Mathlib.Data.Set.Insert
import Vmir.HeapSafety
import Vmir.IrTypes

set_option autoImplicit false

/-!
# Calls from the host

`vmir_vm_function_call` up to its `setjmp` and after it, and `vm_stop`. What runs between the two is
any sequence of heap calls and of further calls from the host. The heap is that of the build.
-/
namespace Vmir.HostCalls
open Ir IrTypes FirstFitHeap HeapBlocks HeapSafety

/-- A heap with what its callers may rely on. Pointers are offsets from the start of guest memory. -/
structure Allocator where
  State : Type
  /-- The sizes that may be asked for. -/
  Request : Type
  malloc : State → Request → Option ℤ × State
  free : State → ℤ → Except Fault State
  /-- The pointers that were handed out and not freed. -/
  Holds : State → Set ℤ → Prop
  malloc_none : ∀ {h h' : State} {l : Set ℤ} {size : Request},
    Holds h l → malloc h size = (none, h') → Holds h' l
  malloc_some : ∀ {h h' : State} {l : Set ℤ} {size : Request} {p : ℤ},
    Holds h l → malloc h size = (some p, h') → Holds h' (insert p l) ∧ p ∉ l ∧ 0 < p ∧ p < 2 ^ 32
  free_held : ∀ {h : State} {l : Set ℤ} {p : ℤ},
    Holds h l → p ∈ l → ∃ h', free h p = .ok h' ∧ Holds h' (l \ {p})

/-! ## The first-fit heap is one -/

theorem Serves.pointer_bounds {first stop : ℤ} {bs : List HeapBlock} {l : List (ℤ × ℕ)} {p : ℤ}
    (h : Serves first stop bs l) (hp : p ∈ l.map Prod.fst) :
    first + sizeofHeapBlock ≤ p ∧ p ≤ stop := by
  obtain ⟨hb, hmem, rfl⟩ := (h.live p).mpr hp
  have hin := (mem_lives.mp hmem).1
  have hbounds := h.laid.tiles.bounds hin
  have hheader := h.laid.header hin
  unfold HeapBlock.payload
  omega

section
variable (heapStart memsize : ℤ) (bookkeeping : List HeapBlock → ℤ → BitVec 8)

def firstFit (hregion : Region heapStart memsize) (hmem : memsize < 2 ^ 32) : Allocator where
  State := Heap
  Request := { size : BitVec 32 // Requestable size.toNat }
  malloc h size := vmirHeapMalloc heapStart bookkeeping h size.val
  free h p := vmirHeapFree heapStart bookkeeping h p
  Holds h l := ∃ ledger, Serves (heapStart + sizeofHeap) memsize h.hBlocks ledger
    ∧ ∀ p, p ∈ l ↔ p ∈ ledger.map Prod.fst
  malloc_none := by
    rintro h h' l size ⟨ledger, hserves, hl⟩ hm
    have hstart := hregion.start
    have hint := hregion.int
    rcases malloc_spec heapStart bookkeeping hserves (by unfold sizeofHeap; omega) size.property with
      ⟨hm', -⟩ | ⟨p, bs, hm', -, -⟩
    · obtain rfl := congrArg Prod.snd (hm'.symm.trans hm)
      exact ⟨ledger, hserves, hl⟩
    · exact absurd (congrArg Prod.fst (hm'.symm.trans hm)) nofun
  malloc_some := by
    rintro h h' l size p ⟨ledger, hserves, hl⟩ hm
    have hstart := hregion.start
    have hint := hregion.int
    rcases malloc_spec heapStart bookkeeping hserves (by unfold sizeofHeap; omega) size.property with
      ⟨hm', -⟩ | ⟨q, bs, hm', hserves', hfresh⟩
    · exact absurd (congrArg Prod.fst (hm'.symm.trans hm)) nofun
    · obtain ⟨hp, rfl⟩ := Prod.ext_iff.mp (hm'.symm.trans hm)
      obtain rfl := Option.some.inj hp
      have hbounds := Serves.pointer_bounds hserves' (p := q) List.mem_cons_self
      unfold sizeofHeap sizeofHeapBlock at hbounds
      refine ⟨⟨_, hserves', fun r => ?_⟩, ?_, by omega, by omega⟩
      · rw [Set.mem_insert_iff, List.map_cons, List.mem_cons, hl r]
      · intro hin
        exact hfresh ((hserves.live q).mpr ((hl q).mp hin))
  free_held := by
    rintro h l p ⟨ledger, hserves, hl⟩ hp
    have hstart := hregion.start
    have hint := hregion.int
    obtain ⟨bs, hfree, hserves'⟩ := free_spec heapStart bookkeeping hserves
      (by unfold sizeofHeap; omega) ((hserves.live p).mpr ((hl p).mp hp))
    refine ⟨_, hfree, _, hserves', fun q => ?_⟩
    rw [Set.mem_sdiff, Set.mem_singleton_iff, mem_withdraw, hl q]

end

/-! ## The calls -/

def vmStopExit : ℤ := 1
def vmStopAbort : ℤ := 2
def vmStopUnreachable : ℤ := 3
def vmStopBadInstruction : ℤ := 4
def vmStopBadFunction : ℤ := 5
def vmStopUncaughtException : ℤ := 6
def vmStopAccessViolation : ℤ := 7
def vmStopBadArguments : ℤ := 8
def vmStopOutOfMemory : ℤ := 9

/-- An argument that `vmir_vm_function_call` can encode. -/
def encodes (arg : IrType) : Bool :=
  match legalizeType arg with
  | .int8 | .int16 | .int32 | .pointer | .int64 => true
  | _ => false

/-- An active `vmir_vm_function_call`: the address of its jump buffer and its locals. -/
structure Activation where
  jb : ℕ
  prevjb : Option ℕ
  allocaptr : BitVec 32
deriving DecidableEq, Repr

/-- The unit, the active calls from the innermost outwards, and three ledgers: the pointers that the
guest and the host hold, and the stack blocks that the calls allocated and freed. -/
structure State (A : Allocator) where
  heap : A.State
  iuStackStash : BitVec 32
  iuErrJmpbuf : Option ℕ
  iuExitCode : BitVec 32
  active : List Activation
  guest : List (BitVec 32)
  taken : List (BitVec 32)
  freed : List (BitVec 32)

section
variable {A : Allocator}

def vmirMemAlloc (h : A.State) (size : A.Request) : BitVec 32 × A.State :=
  match A.malloc h size with
  | (none, h) => (0, h)
  | (some p, h) => (BitVec.ofInt 32 p, h)

def vmirMemFree (h : A.State) (addr : BitVec 32) : Except Fault A.State := A.free h addr.toNat

/-- The jump buffer is installed and the body starts. -/
def setjmp (s : State A) (jb : ℕ) (allocaptr : BitVec 32) : State A :=
  { s with iuErrJmpbuf := some jb, active := ⟨jb, s.iuErrJmpbuf, allocaptr⟩ :: s.active }

/-- `vmir_vm_function_call` of a function with these parameters, up to its body. A result means that
it returned before. -/
def vmirVmFunctionCall (iuAsize : A.Request) (s : State A) (parameters : List IrType) (jb : ℕ) :
    State A × Option ℤ :=
  if parameters.all encodes then
    if s.iuStackStash ≠ 0 then
      (setjmp { s with iuStackStash := 0 } jb s.iuStackStash, none)
    else
      match vmirMemAlloc s.heap iuAsize with
      | (allocaptr, heap) =>
        if allocaptr = 0 then ({ s with heap := heap }, some vmStopOutOfMemory)
        else (setjmp { s with heap := heap, taken := allocaptr :: s.taken } jb allocaptr, none)
  else (s, some vmStopBadArguments)

/-- What `vmir_vm_function_call` does with the jump buffer and the stack block after its body. -/
def leaveStack (s : State A) (a : Activation) (active : List Activation) :
    Except Fault (State A) :=
  if s.iuStackStash = 0 then
    .ok { s with active := active, iuErrJmpbuf := a.prevjb, iuStackStash := a.allocaptr }
  else do
    let heap ← vmirMemFree s.heap a.allocaptr
    .ok { s with
      active := active, iuErrJmpbuf := a.prevjb, heap := heap, freed := a.allocaptr :: s.freed }

section
variable (hostString : BitVec 32 → Bool)

/-- What is logged of the result. The code of a bad function is formatted with `%s`: `hostString`
tells whether the host finds a string at the address that it makes of the number. -/
def logResult (r : ℤ) (iuExitCode : BitVec 32) : Except Fault (Option String) :=
  if r = vmStopExit then .ok (some "exit(0x%x) called")
  else if r = vmStopAbort then .ok (some "abort() called")
  else if r = vmStopUnreachable then .ok (some "Unreachable instruction")
  else if r = vmStopBadInstruction then .ok (some "Illegal instruction")
  else if r = vmStopBadFunction then
    if hostString iuExitCode then .ok (some "Bad function %s") else .error .nullDeref
  else if r = vmStopUncaughtException then .ok (some "Uncaught exception")
  else if r = vmStopAccessViolation then .ok (some "Access violation")
  else .ok none

/-- What `vmir_vm_function_call` does after its body, whichever way that ended. -/
def functionCallEnd (s : State A) (a : Activation) (active : List Activation) (r : ℤ) :
    Except Fault (State A × Option ℤ) := do
  let s ← leaveStack s a active
  let _ ← logResult hostString r s.iuExitCode
  .ok (s, some r)

/-- The body of the innermost call returns `r`. -/
def bodyReturn (s : State A) (r : ℤ) : Except Fault (State A × Option ℤ) :=
  match s.active with
  | [] => .error .abort
  | a :: active =>
    functionCallEnd hostString s a active (if r = 1 then vmStopUncaughtException else r)

/-- `vm_stop`: `longjmp` drops the calls above the one whose buffer is installed. -/
def vmStop (s : State A) (reason : ℤ) (code : BitVec 32) : Except Fault (State A × Option ℤ) :=
  match s.iuErrJmpbuf with
  | none => .error .nullDeref
  | some target =>
    match s.active.dropWhile fun a => a.jb ≠ target with
    | [] => .error .abort
    | a :: active =>
      functionCallEnd hostString { s with iuExitCode := code } a active
        (if reason = 0 then 1 else reason)

end

def guestMalloc (s : State A) (size : A.Request) : State A :=
  match vmirMemAlloc s.heap size with
  | (addr, heap) =>
    { s with heap := heap, guest := if addr = 0 then s.guest else addr :: s.guest }

def guestFree (s : State A) (addr : BitVec 32) : Except Fault (State A) := do
  let heap ← vmirMemFree s.heap addr
  .ok { s with heap := heap, guest := s.guest.erase addr }

end

/-- What the host, an external function or the guest does next. -/
inductive Action (A : Allocator)
  | call (parameters : List IrType) (jb : ℕ)
  | bodyReturn (r : ℤ)
  | vmStop (reason : ℤ) (code : BitVec 32)
  | malloc (size : A.Request)
  | free (addr : BitVec 32)

section
variable {A : Allocator} (iuAsize : A.Request) (hostString : BitVec 32 → Bool)

/-- A body that ends is that of an active call, and only pointers that are held are freed. -/
def Allowed (s : State A) : Action A → Prop
  | .call _ _ => True
  | .bodyReturn _ => s.active ≠ []
  | .vmStop _ _ => s.active ≠ []
  | .malloc _ => True
  | .free addr => addr ∈ s.guest

/-- One action, with the result of the call that it ends. -/
def step (s : State A) : Action A → Except Fault (State A × Option ℤ)
  | .call parameters jb => .ok (vmirVmFunctionCall iuAsize s parameters jb)
  | .bodyReturn r => bodyReturn hostString s r
  | .vmStop reason code => vmStop hostString s reason code
  | .malloc size => .ok (guestMalloc s size, none)
  | .free addr => do
    let s ← guestFree s addr
    .ok (s, none)

def offsets (l : List (BitVec 32)) : Set ℤ := { p | ∃ addr ∈ l, p = addr.toNat }

/-- The states of the runs of a unit from the end of its loading. -/
inductive Reach : State A → Prop
  | loaded {heap : A.State} {guest : List (BitVec 32)} (hheap : A.Holds heap (offsets guest))
    (hguest : guest.Nodup) : Reach ⟨heap, 0, none, 0, [], guest, [], []⟩
  | step {s s' : State A} (hs : Reach s) {act : Action A} (hallowed : Allowed s act) {r : Option ℤ}
    (hstep : step iuAsize hostString s act = .ok (s', r)) : Reach s'

/-- Runs in which more than `n` calls are active throughout. -/
inductive Inside (n : ℕ) : State A → State A → Prop
  | refl {s : State A} (h : n < s.active.length) : Inside n s s
  | step {s t u : State A} (hs : Inside n s t) {act : Action A} (hallowed : Allowed t act)
    {r : Option ℤ} (hstep : step iuAsize hostString t act = .ok (u, r)) (h : n < u.active.length) :
    Inside n s u

def Ending : Action A → Prop
  | .bodyReturn _ | .vmStop _ _ => True
  | _ => False

/-- A call that is made in `s` returns in `s'`: at once, or when its own body is left after a run
during which it was active. -/
def Returns (s s' : State A) (parameters : List IrType) (jb : ℕ) : Prop :=
  (∃ r, step iuAsize hostString s (.call parameters jb) = .ok (s', some r))
    ∨ ∃ t u act r, step iuAsize hostString s (.call parameters jb) = .ok (t, none)
      ∧ Inside iuAsize hostString s.active.length t u
      ∧ u.active.length = s.active.length + 1 ∧ Ending act
      ∧ step iuAsize hostString u act = .ok (s', some r)

end

end Vmir.HostCalls
