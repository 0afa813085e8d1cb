import Vmir.HeapSafety
import Vmir.CxxExceptions

set_option autoImplicit false

/-!
# The lifetime of exceptions

Runs of the calls that a well-formed program makes, with what the program is doing at each point:
the exceptions that it is unwinding, those whose cleanups it runs and those that it handles.
-/
namespace Vmir.ExceptionLifetime
open Ir FirstFitHeap HeapBlocks HeapSafety CxxExceptions

/-- What the program does with an exception. A landing pad keeps the exception it was handed. -/
inductive Ctx
  | unwinding (x : BitVec 32)
  | landed (x handed : BitVec 32)
  | handling (x : BitVec 32)
deriving DecidableEq, Repr

def Ctx.object : Ctx → BitVec 32
  | .unwinding x => x
  | .landed x _ => x
  | .handling x => x

def inFlight : List Ctx → List (BitVec 32)
  | [] => []
  | .handling _ :: cs => inFlight cs
  | .unwinding x :: cs => x :: inFlight cs
  | .landed x _ :: cs => x :: inFlight cs

/-- The exceptions of the handlers that are open, innermost first. -/
def handled : List Ctx → List (BitVec 32)
  | [] => []
  | .handling x :: cs => x :: handled cs
  | .unwinding _ :: cs => handled cs
  | .landed _ _ :: cs => handled cs

def objects (cs : List Ctx) : List (BitVec 32) := cs.map Ctx.object

def Running (cs : List Ctx) : Prop := ∀ x rest, cs ≠ .unwinding x :: rest

/-- The innermost handler is left, at its end or for an exception that came out of it. -/
inductive Leaves : List Ctx → List Ctx → Prop
  | finished {x : BitVec 32} {cs : List Ctx} : Leaves (.handling x :: cs) cs
  | thrown {y v x : BitVec 32} {cs : List Ctx} :
    Leaves (.landed y v :: .handling x :: cs) (.landed y v :: cs)

/-- The offset of an exception's block in guest memory. -/
def block (x : BitVec 32) : ℤ := x.toNat - sizeofCxxException.toNat

inductive Call
  | allocateException (size : BitVec 32)
  | freeException (x : BitVec 32)
  | throw (x typeInfo destructor : BitVec 32)
  | landingpad
  | resume (x typeInfo : BitVec 32)
  | beginCatch (x : BitVec 32)
  | endCatch
  | rethrow (x typeInfo destructor : BitVec 32)
  | heap (op : HeapOp)
deriving DecidableEq, Repr

/-- The block that a call of the heap is about. -/
def target : HeapOp → Option ℤ
  | .realloc ptr _ => some ptr
  | .free ptr => some ptr
  | _ => none

/-- `built` are the exceptions that were not thrown yet; `thrown` and `ended` are the throws and the
frees so far. -/
structure Session where
  iu : IrUnit
  built : List (BitVec 32)
  ctxs : List Ctx
  thrown : List (BitVec 32)
  ended : List (BitVec 32)

section
variable (heapStart memsize : ℤ) (bookkeeping : List HeapBlock → ℤ → BitVec 8)

/-- The calls that a well-formed program makes, with the session behind the call or the fault that
it ends with. -/
inductive Step (s : Session) : Call → Except Fault Session → Prop
  | allocateException {size : BitVec 32} (hrun : Running s.ctxs) :
    Step s (.allocateException size) ((vmirCxaAllocateException heapStart bookkeeping s.iu size).map
      fun r => { s with iu := r.2, built := r.1 :: s.built })
  | freeException {x : BitVec 32} (hrun : Running s.ctxs) (hx : x ∈ s.built) :
    Step s (.freeException x) ((vmirCxaFreeException heapStart bookkeeping s.iu x).map
      fun iu => { s with iu := iu, built := s.built.erase x })
  | throw {x typeInfo destructor : BitVec 32} (hrun : Running s.ctxs) (hx : x ∈ s.built) :
    Step s (.throw x typeInfo destructor) ((vmirCxaThrow s.iu x typeInfo destructor).map
      fun iu => { s with
        iu := iu, built := s.built.erase x, ctxs := .unwinding x :: s.ctxs, thrown := x :: s.thrown })
  | landingpad {x : BitVec 32} {cs : List Ctx} (hctxs : s.ctxs = .unwinding x :: cs) :
    Step s .landingpad (.ok { s with ctxs := .landed x (landingpad s.iu).1 :: cs })
  | resume {x v typeInfo : BitVec 32} {cs : List Ctx} (hctxs : s.ctxs = .landed x v :: cs) :
    Step s (.resume v typeInfo) (.ok { s with
      iu := resume s.iu v typeInfo, ctxs := .unwinding x :: cs })
  | beginCatch {x v : BitVec 32} {cs : List Ctx} (hctxs : s.ctxs = .landed x v :: cs) :
    Step s (.beginCatch v) (.ok { s with
      iu := (vmirCxaBeginCatch s.iu v).2, ctxs := .handling x :: cs })
  | endCatch {cs : List Ctx} (hleaves : Leaves s.ctxs cs) :
    Step s .endCatch ((vmirCxaEndCatch heapStart bookkeeping s.iu).map fun r => { s with
      iu := r.2, ctxs := cs
      ended := (r.1.map fun x2 => x2 + sizeofCxxException).toList ++ s.ended })
  | rethrow {x exception typeInfo destructor : BitVec 32} (hrun : Running s.ctxs)
    (hx : (handled s.ctxs).head? = some x) :
    Step s (.rethrow exception typeInfo destructor)
      ((vmirCxaRethrow s.iu exception typeInfo destructor).map fun iu => { s with
        iu := iu, ctxs := .unwinding x :: s.ctxs })
  | heap {op : HeapOp} (hrun : Running s.ctxs) (hallowed : Allowed s.iu.heap.hBlocks op)
    (hother : ∀ x ∈ s.built ++ objects s.ctxs, target op ≠ some (block x)) :
    Step s (.heap op) ((exec heapStart bookkeeping s.iu.heap op).map
      fun r => { s with iu := { s.iu with heap := r.2 } })

/-- The states of runs in which each call is `ok` in the state before it. The unit starts out
cleared. -/
inductive Reach (ok : Session → Call → Prop) : Session → Prop
  | init (mem : ℤ → BitVec 8) (excAt : ℤ → CxxException) :
    Reach ok ⟨⟨vmirHeapInit heapStart bookkeeping memsize mem, excAt, ⟨0, 0, 0, 0⟩⟩, [], [], [], []⟩
  | step {s s' : Session} {call : Call} (hs : Reach ok s) (hok : ok s call)
    (h : Step heapStart bookkeeping s call (.ok s')) : Reach ok s'

/-- The `next` links from `a` on spell out `l`. -/
def Links (excAt : ℤ → CxxException) : BitVec 32 → List (BitVec 32) → Prop
  | a, [] => a = 0
  | a, x :: l => a = x - sizeofCxxException ∧ Links excAt (excAt a.toNat).next l

/-- Every throw so far was followed by one free, or else its exception is in flight or handled and
its block live. The caught exceptions are those handled, the uncaught count is that of the exceptions
in flight, a landing pad is handed the exception that unwinds and keeps it, and every call that is
`ok` here comes back. -/
structure Safe (ok : Session → Call → Prop) (s : Session) : Prop where
  once : ∀ x, s.thrown.count x = s.ended.count x + if x ∈ objects s.ctxs then 1 else 0
  live : ∀ x ∈ objects s.ctxs, Live s.iu.heap.hBlocks (block x)
  caught : ∃ l, Links s.iu.excAt s.iu.iuException.caught l ∧ l.Nodup
    ∧ ∀ x, x ∈ l ↔ x ∈ handled s.ctxs
  uncaught : s.iu.iuException.uncaught.toNat = (inFlight s.ctxs).length
  handed : ∀ x cs, s.ctxs = .unwinding x :: cs → (landingpad s.iu).1 = x
  kept : ∀ x v, .landed x v ∈ s.ctxs → v = x
  answers : ∀ call r, ok s call → Step heapStart bookkeeping s call r → ∃ s', r = .ok s'

/-- What the entry points support: a throw has no destructor, which `__cxa_throw` asserts; the heap
has a free block for a new exception; and no more is asked of the heap than it can count. -/
def Supported (s : Session) (call : Call) : Prop :=
  match call with
  | .allocateException size => Requestable (size.toNat + sizeofCxxException.toNat)
    ∧ ∃ hb ∈ s.iu.heap.hBlocks, hb.hbMagic = .free ∧ blockSize (size + sizeofCxxException) ≤ hb.hbSize
  | .throw _ _ destructor | .rethrow _ _ destructor => destructor = 0
  | .heap op => Requestable (asked op)
  | _ => True

def Plain (s : Session) (call : Call) : Prop :=
  Supported s call ∧ ∀ exception typeInfo destructor, call ≠ .rethrow exception typeInfo destructor

end

/-! ## Calls that come back -/

theorem map_ok {α β : Type} {x : Except Fault α} {f : α → β} {b : β} (h : x.map f = .ok b) :
    ∃ a, x = .ok a ∧ f a = b := by
  cases x with
  | error e => exact nomatch h
  | ok a => exact ⟨a, rfl, Except.ok.inj h⟩

section
variable {heapStart : ℤ} {bookkeeping : List HeapBlock → ℤ → BitVec 8} {s : Session}

theorem Step.allocated {size x : BitVec 32} {iu : IrUnit} (hrun : Running s.ctxs)
    (h : vmirCxaAllocateException heapStart bookkeeping s.iu size = .ok (x, iu)) :
    Step heapStart bookkeeping s (.allocateException size)
      (.ok { s with iu := iu, built := x :: s.built }) := by
  have hstep : Step heapStart bookkeeping s (.allocateException size) _ := .allocateException hrun
  rw [h] at hstep
  exact hstep

theorem Step.left {freed : Option (BitVec 32)} {iu : IrUnit} {cs : List Ctx}
    (hleaves : Leaves s.ctxs cs)
    (h : vmirCxaEndCatch heapStart bookkeeping s.iu = .ok (freed, iu)) :
    Step heapStart bookkeeping s .endCatch (.ok { s with
      iu := iu, ctxs := cs
      ended := (freed.map fun x2 => x2 + sizeofCxxException).toList ++ s.ended }) := by
  have hstep : Step heapStart bookkeeping s .endCatch _ := .endCatch hleaves
  rw [h] at hstep
  exact hstep

theorem Step.rethrown {x exception typeInfo destructor : BitVec 32} {iu : IrUnit}
    (hrun : Running s.ctxs) (hx : (handled s.ctxs).head? = some x)
    (h : vmirCxaRethrow s.iu exception typeInfo destructor = .ok iu) :
    Step heapStart bookkeeping s (.rethrow exception typeInfo destructor)
      (.ok { s with iu := iu, ctxs := .unwinding x :: s.ctxs }) := by
  have hstep : Step heapStart bookkeeping s (.rethrow exception typeInfo destructor) _ :=
    .rethrow hrun hx
  rw [h] at hstep
  exact hstep

end

/-! ## Offsets -/

theorem block_eq (x : BitVec 32) : block x = x.toNat - 12 := rfl

theorem block_injective {x y : BitVec 32} (h : block x = block y) : x = y := by
  rw [block_eq, block_eq] at h
  exact BitVec.eq_of_toNat_eq (by omega)

theorem toNat_header {x : BitVec 32} (h : 0 ≤ block x) :
    ((x - sizeofCxxException).toNat : ℤ) = block x := by
  rw [block_eq] at h ⊢
  unfold sizeofCxxException
  have h12 : (12 : BitVec 32).toNat = 12 := rfl
  have := x.isLt
  rw [BitVec.toNat_sub, h12]
  omega

theorem block_ofInt {p : ℤ} (h : 0 ≤ p) (hlt : p + 12 < 2 ^ 32) :
    block (BitVec.ofInt 32 (p + sizeofCxxException.toNat)) = p := by
  have h12 : (sizeofCxxException.toNat : ℤ) = 12 := rfl
  rw [block_eq, BitVec.toNat_ofInt, h12]
  omega

/-! ## The contexts -/

variable {x y v : BitVec 32} {cs cs' : List Ctx}

theorem mem_objects : x ∈ objects cs ↔ x ∈ inFlight cs ∨ x ∈ handled cs := by
  induction cs with
  | nil => exact ⟨nofun, fun h => h.elim nofun nofun⟩
  | cons c cs ih =>
    have hcons : x ∈ objects (c :: cs) ↔ x = c.object ∨ x ∈ objects cs := List.mem_cons
    rw [hcons, ih]
    cases c with
    | unwinding y =>
      change x = y ∨ _ ↔ x ∈ y :: inFlight cs ∨ x ∈ handled cs
      rw [List.mem_cons, or_assoc]
    | landed y v =>
      change x = y ∨ _ ↔ x ∈ y :: inFlight cs ∨ x ∈ handled cs
      rw [List.mem_cons, or_assoc]
    | handling y =>
      change x = y ∨ _ ↔ x ∈ inFlight cs ∨ x ∈ y :: handled cs
      rw [List.mem_cons, or_left_comm]

theorem handled_mem (built : List (BitVec 32)) (hx : x ∈ handled cs) : x ∈ built ++ objects cs :=
  List.mem_append_right _ (mem_objects.mpr (Or.inr hx))

theorem idle_mem {built : List (BitVec 32)} (hx : x ∈ built ++ inFlight cs) :
    x ∈ built ++ objects cs := by
  rcases List.mem_append.mp hx with hx | hx
  · exact List.mem_append_left _ hx
  · exact List.mem_append_right _ (mem_objects.mpr (Or.inl hx))

theorem nodup_handled (h : (objects cs).Nodup) : (handled cs).Nodup := by
  induction cs with
  | nil => exact List.nodup_nil
  | cons c cs ih =>
    obtain ⟨hnot, hrest⟩ := List.nodup_cons.mp h
    cases c with
    | unwinding y => exact ih hrest
    | landed y v => exact ih hrest
    | handling y =>
      exact List.nodup_cons.mpr ⟨fun hy => hnot (mem_objects.mpr (Or.inr hy)), ih hrest⟩

theorem nodup_inFlight (h : (objects cs).Nodup) : (inFlight cs).Nodup := by
  induction cs with
  | nil => exact List.nodup_nil
  | cons c cs ih =>
    obtain ⟨hnot, hrest⟩ := List.nodup_cons.mp h
    cases c with
    | unwinding y =>
      exact List.nodup_cons.mpr ⟨fun hy => hnot (mem_objects.mpr (Or.inl hy)), ih hrest⟩
    | landed y v =>
      exact List.nodup_cons.mpr ⟨fun hy => hnot (mem_objects.mpr (Or.inl hy)), ih hrest⟩
    | handling y => exact ih hrest

theorem Leaves.spec (h : Leaves cs cs') : ∃ x, handled cs = x :: handled cs'
    ∧ inFlight cs = inFlight cs' ∧ (objects cs).Perm (x :: objects cs')
    ∧ ∀ c ∈ cs', c ∈ cs := by
  cases h with
  | @finished x cs => exact ⟨x, rfl, rfl, List.Perm.refl _, fun c hc => List.mem_cons_of_mem _ hc⟩
  | @thrown y v x cs =>
    refine ⟨x, rfl, rfl, List.Perm.swap .., fun c hc => ?_⟩
    rcases List.mem_cons.mp hc with rfl | hc
    · exact List.mem_cons_self
    · exact List.mem_cons_of_mem _ (List.mem_cons_of_mem _ hc)

theorem Leaves.running (h : Leaves cs cs') (htail : ∀ x, .unwinding x ∉ cs.tail) :
    Running cs' := by
  intro x rest heq
  subst heq
  cases h with
  | finished => exact htail x List.mem_cons_self

theorem Leaves.tail_mem (h : Leaves cs cs') {c : Ctx} (hc : c ∈ cs'.tail) : c ∈ cs.tail := by
  cases h with
  | finished => exact List.mem_of_mem_tail hc
  | thrown => exact List.mem_cons_of_mem _ hc

theorem Running.notMem (h : Running cs) (htail : ∀ x, .unwinding x ∉ cs.tail) (x : BitVec 32) :
    .unwinding x ∉ cs := by
  intro hx
  cases cs with
  | nil => exact absurd hx List.not_mem_nil
  | cons c cs =>
    rcases List.mem_cons.mp hx with rfl | hx
    · exact h x cs rfl
    · exact htail x hx

/-! ## The caught list -/

section
variable {excAt excAt' : ℤ → CxxException} {a : BitVec 32} {l : List (BitVec 32)}

theorem Links.congr (h : Links excAt a l) (hblock : ∀ x ∈ l, 0 ≤ block x)
    (hnext : ∀ x ∈ l, (excAt' (block x)).next = (excAt (block x)).next) : Links excAt' a l := by
  induction l generalizing a with
  | nil => exact h
  | cons x l ih =>
    obtain ⟨rfl, hrest⟩ := h
    have hx := List.mem_cons_self (a := x) (l := l)
    refine ⟨rfl, ?_⟩
    rw [toNat_header (hblock x hx)] at hrest ⊢
    rw [hnext x hx]
    exact ih hrest (fun y hy => hblock y (List.mem_cons_of_mem _ hy))
      fun y hy => hnext y (List.mem_cons_of_mem _ hy)

end

/-! ## The heap -/

def Serving (first stop : ℤ) (bs : List HeapBlock) : Prop := ∃ l, Serves first stop bs l

section
variable (heapStart : ℤ) (bookkeeping : List HeapBlock → ℤ → BitVec 8) {first stop : ℤ}
  {h h' : Heap} {p : ℤ}

theorem Serving.malloc (hs : Serving first stop h.hBlocks) (hregion : stop - first < 2 ^ 31)
    {size : BitVec 32} (hcount : Requestable size.toNat)
    (hm : vmirHeapMalloc heapStart bookkeeping h size = (some p, h')) :
    Serving first stop h'.hBlocks ∧ first ≤ p ∧ p + size.toNat ≤ stop ∧ ¬ Live h.hBlocks p
      ∧ ∀ q, Live h'.hBlocks q ↔ q = p ∨ Live h.hBlocks q := by
  obtain ⟨l, hserves⟩ := hs
  rcases malloc_spec heapStart bookkeeping hserves hregion hcount with
    ⟨hnone, -⟩ | ⟨q, bs, hsome, hserves', hfresh⟩
  · exact nomatch (Prod.ext_iff.mp (hm.symm.trans hnone)).1
  · obtain ⟨hq, rfl⟩ := Prod.ext_iff.mp (hm.symm.trans hsome)
    obtain rfl : p = q := Option.some.inj hq
    have hlive := hserves'.live
    have hmem : p ∈ ((p, size.toNat) :: l).map Prod.fst := List.mem_cons_self
    obtain ⟨hb, hhb, hpayload⟩ := (hlive p).mpr hmem
    have hlarge := hserves'.large (p, size.toNat) List.mem_cons_self hb hhb hpayload
    have hbounds := hserves'.laid.tiles.bounds (mem_lives.mp hhb).1
    unfold HeapBlock.payload at hpayload
    unfold sizeofHeapBlock at hpayload hlarge
    refine ⟨⟨_, hserves'⟩, by omega, by change p + (p, size.toNat).2 ≤ stop; omega, hfresh, ?_⟩
    intro q
    rw [hlive, List.map_cons, List.mem_cons, hserves.live]

theorem Serving.free (hs : Serving first stop h.hBlocks) (hregion : stop - first < 2 ^ 31)
    (hlive : Live h.hBlocks p) : ∃ h', vmirHeapFree heapStart bookkeeping h p = .ok h'
      ∧ Serving first stop h'.hBlocks
      ∧ ∀ q, Live h'.hBlocks q ↔ Live h.hBlocks q ∧ q ≠ p := by
  obtain ⟨l, hserves⟩ := hs
  obtain ⟨bs, hfree, hserves'⟩ := free_spec heapStart bookkeeping hserves hregion hlive
  refine ⟨_, hfree, ⟨_, hserves'⟩, fun q => ?_⟩
  rw [hserves'.live, mem_withdraw, hserves.live]

theorem ledgerAfter_mem {l : List (ℤ × ℕ)} {op : HeapOp} (r : Option ℤ) {q : ℤ}
    (hq : q ∈ l.map Prod.fst) (hop : target op ≠ some q) :
    q ∈ (ledgerAfter l op r).map Prod.fst := by
  have hkeep : ∀ {ptr : ℤ}, some ptr ≠ some q → q ∈ (withdraw ptr l).map Prod.fst :=
    fun hne => mem_withdraw.mpr ⟨hq, fun heq => hne (congrArg some heq.symm)⟩
  cases op with
  | malloc size =>
    cases r with
    | none => exact hq
    | some p => exact List.mem_cons_of_mem _ hq
  | calloc nmemb size =>
    cases r with
    | none => exact hq
    | some p => exact List.mem_cons_of_mem _ hq
  | realloc ptr size =>
    cases r with
    | none =>
      change q ∈ (if size = 0 then withdraw ptr l else l).map Prod.fst
      split
      · exact hkeep hop
      · exact hq
    | some p => exact List.mem_cons_of_mem _ (hkeep hop)
  | free ptr =>
    cases r with
    | none => exact hkeep hop
    | some p => exact hkeep hop

theorem Serving.exec (hs : Serving first stop h.hBlocks) (hregion : stop - first < 2 ^ 31)
    (hstart : 0 ≤ first) {op : HeapOp} (hallowed : Allowed h.hBlocks op)
    (hcount : Requestable (asked op)) {r : Option ℤ}
    (hexec : exec heapStart bookkeeping h op = .ok (r, h')) :
    Serving first stop h'.hBlocks
      ∧ ∀ q, Live h.hBlocks q → target op ≠ some q → Live h'.hBlocks q := by
  obtain ⟨l, hserves⟩ := hs
  obtain ⟨r', h'', hexec', hserves', -⟩ :=
    exec_spec heapStart bookkeeping hserves hregion hstart hallowed hcount
  obtain ⟨rfl, rfl⟩ := Prod.ext_iff.mp (Except.ok.inj (hexec.symm.trans hexec'))
  refine ⟨⟨_, hserves'⟩, fun q hq hop => ?_⟩
  exact (hserves'.live q).mpr (ledgerAfter_mem r ((hserves.live q).mp hq) hop)

theorem Serving.length_lt (hs : Serving first stop h.hBlocks) (hregion : stop - first < 2 ^ 31)
    {l : List (BitVec 32)} (hnodup : l.Nodup) (hlive : ∀ x ∈ l, Live h.hBlocks (block x)) :
    l.length < 2 ^ 32 := by
  obtain ⟨m, hserves⟩ := hs
  have hsub : l.map block ⊆ (lives h.hBlocks).map HeapBlock.payload := by
    intro q hq
    obtain ⟨x, hx, rfl⟩ := List.mem_map.mp hq
    obtain ⟨hb, hhb, hpayload⟩ := hlive x hx
    exact List.mem_map.mpr ⟨hb, hhb, hpayload⟩
  have hle := ((hnodup.map fun _ _ => block_injective).subperm hsub).length_le
  rw [List.length_map, List.length_map] at hle
  have hlives : (lives h.hBlocks).length ≤ h.hBlocks.length := List.length_filter_le ..
  have := hserves.laid.length_le
  omega

end

/-! ## The invariant -/

/-- An exception is in one place at a time; its handlers are counted from its catch on. -/
structure Inv (first stop : ℤ) (s : Session) : Prop where
  serving : Serving first stop s.iu.heap.hBlocks
  live : ∀ x ∈ s.built ++ objects s.ctxs, Live s.iu.heap.hBlocks (block x)
  nodup : (s.built ++ objects s.ctxs).Nodup
  idle : ∀ x ∈ s.built ++ inFlight s.ctxs, (s.iu.excAt (block x)).handlers = 0
  busy : ∀ x ∈ handled s.ctxs, (s.iu.excAt (block x)).handlers = 1
  caught : Links s.iu.excAt s.iu.iuException.caught (handled s.ctxs)
  uncaught : s.iu.iuException.uncaught = BitVec.ofNat 32 (inFlight s.ctxs).length
  handed : ∀ x cs, s.ctxs = .unwinding x :: cs → s.iu.iuException.exception = x
  tail : ∀ x, .unwinding x ∉ s.ctxs.tail
  landed : ∀ x v, .landed x v ∈ s.ctxs → v = x
  count : ∀ x, s.thrown.count x = s.ended.count x + (objects s.ctxs).count x

section
variable {heapStart memsize : ℤ} {bookkeeping : List HeapBlock → ℤ → BitVec 8}
  {first stop : ℤ} {s : Session} {iu : IrUnit}

theorem Inv.block_nonneg (h : Inv first stop s) (hfirst : 0 ≤ first) {x : BitVec 32}
    (hx : x ∈ s.built ++ objects s.ctxs) : 0 ≤ block x := by
  obtain ⟨l, hserves⟩ := h.serving
  obtain ⟨hb, hhb, hpayload⟩ := h.live x hx
  have := hserves.laid.tiles.bounds (mem_lives.mp hhb).1
  unfold HeapBlock.payload sizeofHeapBlock at hpayload
  omega

variable (heapStart bookkeeping) in
theorem Supported.allocates {size : BitVec 32} (hsupported : Supported s (.allocateException size)) :
    ∃ r, vmirCxaAllocateException heapStart bookkeeping s.iu size = .ok r := by
  obtain ⟨-, hb, hmem, hfree, hfits⟩ := hsupported
  unfold vmirCxaAllocateException vmirHeapMalloc
  cases hm : mallocBlocks (blockSize (size + sizeofCxxException)) s.iu.heap.hBlocks with
  | none => exact absurd (mallocBlocks_none hm hb hmem hfree) (not_lt.mpr hfits)
  | some r => exact ⟨_, rfl⟩

variable (heapStart bookkeeping) in
theorem Inv.frees (h : Inv first stop s) (hfirst : 0 ≤ first) (hregion : stop - first < 2 ^ 31)
    {x : BitVec 32} (hx : x ∈ s.built) :
    ∃ iu, vmirCxaFreeException heapStart bookkeeping s.iu x = .ok iu := by
  have hmem : x ∈ s.built ++ objects s.ctxs := List.mem_append_left _ hx
  obtain ⟨h', hfree, -⟩ := h.serving.free heapStart bookkeeping hregion (h.live x hmem)
  unfold vmirCxaFreeException
  rw [toNat_header (h.block_nonneg hfirst hmem), hfree]
  exact ⟨_, rfl⟩

variable (heapStart bookkeeping) in
theorem Inv.leaves (h : Inv first stop s) (hfirst : 0 ≤ first) (hregion : stop - first < 2 ^ 31)
    {cs : List Ctx} (hleaves : Leaves s.ctxs cs) :
    ∃ r, vmirCxaEndCatch heapStart bookkeeping s.iu = .ok r := by
  obtain ⟨x, hhandled, -, -, -⟩ := hleaves.spec
  have hx : x ∈ handled s.ctxs := hhandled ▸ List.mem_cons_self
  have hcaught := h.caught
  rw [hhandled] at hcaught
  have hblock := toNat_header (h.block_nonneg hfirst (handled_mem s.built hx))
  unfold vmirCxaEndCatch
  dsimp only
  rw [hcaught.1, hblock, h.busy x hx]
  obtain ⟨h', hfree, -⟩ := h.serving.free heapStart bookkeeping hregion
    (h.live x (handled_mem s.built hx))
  rw [hfree]
  exact ⟨_, rfl⟩

theorem Inv.answers (h : Inv first stop s) (hfirst : 0 ≤ first) (hregion : stop - first < 2 ^ 31)
    {call : Call} {r : Except Fault Session} (hok : Supported s call)
    (hstep : Step heapStart bookkeeping s call r) : ∃ s', r = .ok s' := by
  cases hstep with
  | allocateException _ =>
    obtain ⟨r, hr⟩ := Supported.allocates heapStart bookkeeping hok
    exact ⟨_, by rw [hr]; rfl⟩
  | freeException _ hx =>
    obtain ⟨iu, hiu⟩ := h.frees heapStart bookkeeping hfirst hregion hx
    exact ⟨_, by rw [hiu]; rfl⟩
  | throw =>
    obtain rfl : _ = 0 := hok
    exact ⟨_, rfl⟩
  | landingpad => exact ⟨_, rfl⟩
  | resume => exact ⟨_, rfl⟩
  | beginCatch => exact ⟨_, rfl⟩
  | endCatch hleaves =>
    obtain ⟨r, hr⟩ := h.leaves heapStart bookkeeping hfirst hregion hleaves
    exact ⟨_, by rw [hr]; rfl⟩
  | rethrow =>
    obtain rfl : _ = 0 := hok
    exact ⟨_, rfl⟩
  | heap _ hallowed _ =>
    obtain ⟨l, hserves⟩ := h.serving
    obtain ⟨r, h', hexec, -⟩ :=
      exec_spec heapStart bookkeeping hserves hregion hfirst hallowed hok
    exact ⟨_, by rw [hexec]; rfl⟩

theorem Inv.safe (h : Inv first stop s) (hfirst : 0 ≤ first) (hregion : stop - first < 2 ^ 31) :
    Safe heapStart bookkeeping Plain s := by
  have hobjects := (List.nodup_append.mp h.nodup).2.1
  refine ⟨?_, ?_, ?_, ?_, ?_, h.landed, fun call r hok => h.answers hfirst hregion hok.1⟩
  · intro x
    rw [h.count x]
    congr 1
    split
    case isTrue hx => exact List.count_eq_one_of_mem hobjects hx
    case isFalse hx => exact List.count_eq_zero_of_not_mem hx
  · exact fun x hx => h.live x (List.mem_append_right _ hx)
  · exact ⟨_, h.caught, nodup_handled hobjects, fun x => Iff.rfl⟩
  · rw [h.uncaught, BitVec.toNat_ofNat]
    refine Nat.mod_eq_of_lt (h.serving.length_lt hregion (nodup_inFlight hobjects) fun x hx => ?_)
    exact h.live x (List.mem_append_right _ (mem_objects.mpr (Or.inl hx)))
  · exact h.handed

theorem Inv.allocate (h : Inv first stop s) (hfirst : 0 ≤ first) (hregion : stop - first < 2 ^ 31)
    (hstop : stop < 2 ^ 32) {size x : BitVec 32}
    (hcount : Requestable (size.toNat + sizeofCxxException.toNat))
    (hok : vmirCxaAllocateException heapStart bookkeeping s.iu size = .ok (x, iu)) :
    Inv first stop { s with iu := iu, built := x :: s.built } := by
  have hcount' : size.toNat + 12 + 39 < 2 ^ 31 := hcount
  have hsize : (size + sizeofCxxException).toNat = size.toNat + 12 := by
    have h12 : sizeofCxxException.toNat = 12 := rfl
    rw [BitVec.toNat_add, h12, Nat.mod_eq_of_lt (by omega)]
  unfold vmirCxaAllocateException at hok
  cases hm : vmirHeapMalloc heapStart bookkeeping s.iu.heap (size + sizeofCxxException) with
  | mk p heap =>
  rw [hm] at hok
  cases p with
  | none => exact nomatch hok
  | some p =>
  obtain ⟨hserving, hlo, hhi, hfresh, hlive⟩ :=
    h.serving.malloc heapStart bookkeeping hregion (hsize ▸ hcount) hm
  rw [hsize] at hhi
  push_cast at hhi
  obtain ⟨hx, rfl⟩ := Prod.ext_iff.mp (Except.ok.inj hok)
  have hp : block x = p := (congrArg block hx).symm.trans (block_ofInt (by omega) (by omega))
  have hnew : x ∉ s.built ++ objects s.ctxs := fun hin => hfresh (hp ▸ h.live x hin)
  have hother : ∀ y ∈ s.built ++ objects s.ctxs,
      Function.update s.iu.excAt p ⟨0, 0, 0⟩ (block y) = s.iu.excAt (block y) := by
    intro y hy
    refine Function.update_of_ne (fun heq => hnew ?_) ..
    rwa [← block_injective (heq.trans hp.symm)]
  refine ⟨hserving, ?_, List.nodup_cons.mpr ⟨hnew, h.nodup⟩, ?_, ?_, ?_, h.uncaught, h.handed,
    h.tail, h.landed, h.count⟩
  · intro y hy
    rcases List.mem_cons.mp hy with rfl | hy
    · exact (hlive _).mpr (Or.inl hp)
    · exact (hlive _).mpr (Or.inr (h.live y hy))
  · intro y hy
    rcases List.mem_cons.mp hy with rfl | hy
    · change (Function.update s.iu.excAt p ⟨0, 0, 0⟩ (block y)).handlers = 0
      rw [hp, Function.update_self]
    · exact (congrArg CxxException.handlers (hother y (idle_mem hy))).trans (h.idle y hy)
  · intro y hy
    exact (congrArg CxxException.handlers (hother y (handled_mem s.built hy))).trans (h.busy y hy)
  · exact h.caught.congr (fun y hy => h.block_nonneg hfirst (handled_mem s.built hy))
      fun y hy => congrArg CxxException.next (hother y (handled_mem s.built hy))

theorem Inv.free (h : Inv first stop s) (hfirst : 0 ≤ first) (hregion : stop - first < 2 ^ 31)
    {x : BitVec 32} (hx : x ∈ s.built)
    (hok : vmirCxaFreeException heapStart bookkeeping s.iu x = .ok iu) :
    Inv first stop { s with iu := iu, built := s.built.erase x } := by
  have hmem : x ∈ s.built ++ objects s.ctxs := List.mem_append_left _ hx
  obtain ⟨h', hfree, hserving, hlive⟩ :=
    h.serving.free heapStart bookkeeping hregion (h.live x hmem)
  unfold vmirCxaFreeException at hok
  rw [toNat_header (h.block_nonneg hfirst hmem), hfree] at hok
  obtain rfl := Except.ok.inj hok
  have hperm : (s.built ++ objects s.ctxs).Perm (x :: (s.built.erase x ++ objects s.ctxs)) :=
    (List.perm_cons_erase hx).append_right _
  obtain ⟨hnot, hnodup⟩ := List.nodup_cons.mp (hperm.nodup_iff.mp h.nodup)
  refine ⟨hserving, ?_, hnodup, ?_, h.busy, h.caught, h.uncaught, h.handed, h.tail, h.landed,
    h.count⟩
  · intro y hy
    refine (hlive _).mpr ⟨h.live y (hperm.mem_iff.mpr (List.mem_cons_of_mem _ hy)), fun heq => ?_⟩
    exact hnot (block_injective heq ▸ hy)
  · intro y hy
    rcases List.mem_append.mp hy with hy | hy
    · exact h.idle y (List.mem_append_left _ (List.mem_of_mem_erase hy))
    · exact h.idle y (List.mem_append_right _ hy)

theorem Inv.throw (h : Inv first stop s) (hfirst : 0 ≤ first) {x typeInfo destructor : BitVec 32}
    (hrun : Running s.ctxs) (hx : x ∈ s.built)
    (hok : vmirCxaThrow s.iu x typeInfo destructor = .ok iu) :
    Inv first stop { s with
      iu := iu, built := s.built.erase x, ctxs := .unwinding x :: s.ctxs
      thrown := x :: s.thrown } := by
  unfold vmirCxaThrow at hok
  dsimp only at hok
  split at hok
  case isFalse => exact nomatch hok
  case isTrue =>
  obtain rfl := Except.ok.inj hok
  have hkept : ∀ p, (Function.update s.iu.excAt (block x)
      ⟨(s.iu.excAt (block x)).next, (s.iu.excAt (block x)).handlers, destructor⟩ p).next
        = (s.iu.excAt p).next ∧ (Function.update s.iu.excAt (block x)
      ⟨(s.iu.excAt (block x)).next, (s.iu.excAt (block x)).handlers, destructor⟩ p).handlers
        = (s.iu.excAt p).handlers := by
    intro p
    by_cases hp : p = block x
    · rw [hp, Function.update_self]
      exact ⟨rfl, rfl⟩
    · rw [Function.update_of_ne hp]
      exact ⟨rfl, rfl⟩
  have hperm : (s.built ++ objects s.ctxs).Perm (s.built.erase x ++ x :: objects s.ctxs) :=
    ((List.perm_cons_erase hx).append_right _).trans List.perm_middle.symm
  refine ⟨h.serving, ?_, hperm.nodup_iff.mp h.nodup, ?_, ?_, ?_, ?_, ?_, hrun.notMem h.tail, ?_, ?_⟩
  · exact fun y hy => h.live y (hperm.mem_iff.mpr hy)
  · intro y hy
    refine (hkept _).2.trans (h.idle y ?_)
    rcases List.mem_append.mp hy with hy | hy
    · exact List.mem_append_left _ (List.mem_of_mem_erase hy)
    · rcases List.mem_cons.mp hy with rfl | hy
      · exact List.mem_append_left _ hx
      · exact List.mem_append_right _ hy
  · exact fun y hy => (hkept _).2.trans (h.busy y hy)
  · exact h.caught.congr (fun y hy => h.block_nonneg hfirst (handled_mem s.built hy))
      fun y _ => (hkept (block y)).1
  · change s.iu.iuException.uncaught + 1 = BitVec.ofNat 32 ((inFlight s.ctxs).length + 1)
    rw [h.uncaught]
    exact (BitVec.ofNat_add ..).symm
  · intro y cs heq
    exact (Ctx.unwinding.inj (List.cons.inj heq).1)
  · intro y v hy
    rcases List.mem_cons.mp hy with heq | hy
    · exact nomatch heq
    · exact h.landed y v hy
  · intro y
    change (x :: s.thrown).count y = s.ended.count y + (x :: objects s.ctxs).count y
    rw [List.count_cons, List.count_cons, h.count y, Nat.add_assoc]

theorem Inv.land (h : Inv first stop s) {x : BitVec 32} {cs : List Ctx}
    (hctxs : s.ctxs = .unwinding x :: cs) :
    Inv first stop { s with ctxs := .landed x (landingpad s.iu).1 :: cs } := by
  obtain ⟨hserving, hlive, hnodup, hidle, hbusy, hcaught, huncaught, hhanded, htail, hlanded,
    hcount⟩ := h
  have hx := hhanded x cs hctxs
  rw [hctxs] at hlive hnodup hidle hbusy hcaught huncaught htail hlanded hcount
  refine ⟨hserving, hlive, hnodup, hidle, hbusy, hcaught, huncaught, nofun, htail, ?_, hcount⟩
  intro y v hy
  rcases List.mem_cons.mp hy with heq | hy
  · obtain ⟨rfl, rfl⟩ := Ctx.landed.inj heq
    exact hx
  · exact hlanded y v (List.mem_cons_of_mem _ hy)

theorem Inv.resume (h : Inv first stop s) {x v typeInfo : BitVec 32} {cs : List Ctx}
    (hctxs : s.ctxs = .landed x v :: cs) :
    Inv first stop { s with
      iu := CxxExceptions.resume s.iu v typeInfo, ctxs := .unwinding x :: cs } := by
  obtain ⟨hserving, hlive, hnodup, hidle, hbusy, hcaught, huncaught, -, htail, hlanded, hcount⟩ := h
  rw [hctxs] at hlive hnodup hidle hbusy hcaught huncaught htail hlanded hcount
  refine ⟨hserving, hlive, hnodup, hidle, hbusy, hcaught, huncaught, ?_, htail, ?_, hcount⟩
  · intro y cs' heq
    obtain ⟨heq, -⟩ := List.cons.inj heq
    obtain rfl := Ctx.unwinding.inj heq
    exact hlanded x v List.mem_cons_self
  · intro y w hy
    rcases List.mem_cons.mp hy with heq | hy
    · exact nomatch heq
    · exact hlanded y w (List.mem_cons_of_mem _ hy)

theorem Inv.catch (h : Inv first stop s) (hfirst : 0 ≤ first) {x v : BitVec 32} {cs : List Ctx}
    (hctxs : s.ctxs = .landed x v :: cs) :
    Inv first stop { s with
      iu := (vmirCxaBeginCatch s.iu v).2, ctxs := .handling x :: cs } := by
  have hblocks := fun y => @Inv.block_nonneg _ _ _ h hfirst y
  obtain ⟨hserving, hlive, hnodup, hidle, hbusy, hcaught, huncaught, -, htail, hlanded, hcount⟩ := h
  rw [hctxs] at hblocks hlive hnodup hidle hbusy hcaught huncaught htail hlanded hcount
  obtain rfl : v = x := hlanded x v List.mem_cons_self
  have hv : v ∈ s.built ++ objects (.landed v v :: cs) :=
    List.mem_append_right _ List.mem_cons_self
  have hheader := toNat_header (hblocks v hv)
  have hzero := hidle v (List.mem_append_right _ List.mem_cons_self)
  have hperm : (s.built ++ objects (.landed v v :: cs)).Perm (v :: (s.built ++ objects cs)) :=
    List.perm_middle
  obtain ⟨hnot, -⟩ := List.nodup_cons.mp (hperm.nodup_iff.mp hnodup)
  have hexc : (vmirCxaBeginCatch s.iu v).2
      = ⟨s.iu.heap, Function.update s.iu.excAt (block v)
          ⟨s.iu.iuException.caught, 1, (s.iu.excAt (block v)).destructor⟩,
        ⟨s.iu.iuException.exception, s.iu.iuException.typeInfo, s.iu.iuException.uncaught - 1,
          v - sizeofCxxException⟩⟩ := by
    unfold vmirCxaBeginCatch
    dsimp only
    rw [hheader, hzero]
    rfl
  rw [hexc]
  have hself := Function.update_self (block v) (⟨s.iu.iuException.caught, 1,
    (s.iu.excAt (block v)).destructor⟩ : CxxException) s.iu.excAt
  have hother : ∀ y ∈ s.built ++ objects cs, Function.update s.iu.excAt (block v)
      ⟨s.iu.iuException.caught, 1, (s.iu.excAt (block v)).destructor⟩ (block y)
        = s.iu.excAt (block y) := by
    intro y hy
    refine Function.update_of_ne (fun heq => hnot ?_) ..
    rwa [← block_injective heq]
  refine ⟨hserving, hlive, hnodup, ?_, ?_, ⟨rfl, ?_⟩, ?_, nofun, htail, ?_, hcount⟩
  · intro y hy
    refine (congrArg CxxException.handlers (hother y (idle_mem hy))).trans (hidle y ?_)
    rcases List.mem_append.mp hy with hy | hy
    · exact List.mem_append_left _ hy
    · exact List.mem_append_right _ (List.mem_cons_of_mem _ hy)
  · intro y hy
    rcases List.mem_cons.mp hy with rfl | hy
    · exact congrArg CxxException.handlers hself
    · exact (congrArg CxxException.handlers (hother y (handled_mem s.built hy))).trans (hbusy y hy)
  · rw [hheader, congrArg CxxException.next hself]
    exact Links.congr hcaught
      (fun y hy => hblocks y (hperm.mem_iff.mpr (List.mem_cons_of_mem _ (handled_mem _ hy))))
      fun y hy => congrArg CxxException.next (hother y (handled_mem s.built hy))
  · change s.iu.iuException.uncaught - 1 = BitVec.ofNat 32 (inFlight cs).length
    have hone : BitVec.ofNat 32 ((inFlight cs).length + 1)
        = BitVec.ofNat 32 (inFlight cs).length + 1 := BitVec.ofNat_add ..
    rw [huncaught]
    change BitVec.ofNat 32 ((inFlight cs).length + 1) - 1 = _
    rw [hone, BitVec.add_sub_cancel]
  · intro y w hy
    rcases List.mem_cons.mp hy with heq | hy
    · exact nomatch heq
    · exact hlanded y w (List.mem_cons_of_mem _ hy)

theorem Inv.endCatch (h : Inv first stop s) (hfirst : 0 ≤ first) (hregion : stop - first < 2 ^ 31)
    {cs : List Ctx} (hleaves : Leaves s.ctxs cs) {freed : Option (BitVec 32)}
    (hok : vmirCxaEndCatch heapStart bookkeeping s.iu = .ok (freed, iu)) :
    Inv first stop { s with
      iu := iu, ctxs := cs
      ended := (freed.map fun x2 => x2 + sizeofCxxException).toList ++ s.ended } := by
  obtain ⟨x, hhandled, hflight, hobjects, hsub⟩ := hleaves.spec
  have hperm : (s.built ++ objects s.ctxs).Perm (x :: (s.built ++ objects cs)) :=
    (hobjects.append_left _).trans List.perm_middle
  obtain ⟨hnot, hnodup⟩ := List.nodup_cons.mp (hperm.nodup_iff.mp h.nodup)
  have hin : x ∈ handled s.ctxs := hhandled ▸ List.mem_cons_self
  have hmem := handled_mem s.built hin
  have hheader := toNat_header (h.block_nonneg hfirst hmem)
  have hcaught := h.caught
  rw [hhandled] at hcaught
  obtain ⟨hx2, hrest⟩ := hcaught
  rw [hx2, hheader] at hrest
  obtain ⟨h', hfree, hserving, hlive⟩ :=
    h.serving.free heapStart bookkeeping hregion (h.live x hmem)
  unfold vmirCxaEndCatch at hok
  dsimp only at hok
  rw [hx2, hheader, h.busy x hin, hfree] at hok
  obtain ⟨rfl, rfl⟩ := Prod.ext_iff.mp (Except.ok.inj hok)
  have hother : ∀ y ∈ s.built ++ objects cs, Function.update s.iu.excAt (block x)
      ⟨(s.iu.excAt (block x)).next, 1 - 1, (s.iu.excAt (block x)).destructor⟩ (block y)
        = s.iu.excAt (block y) := by
    intro y hy
    refine Function.update_of_ne (fun heq => hnot ?_) ..
    rwa [← block_injective heq]
  refine ⟨hserving, ?_, hnodup, ?_, ?_, ?_, hflight ▸ h.uncaught, ?_, ?_, ?_, ?_⟩
  · intro y hy
    refine (hlive _).mpr ⟨h.live y (hperm.mem_iff.mpr (List.mem_cons_of_mem _ hy)), fun heq => ?_⟩
    exact hnot (block_injective heq ▸ hy)
  · intro y hy
    exact (congrArg CxxException.handlers (hother y (idle_mem hy))).trans (h.idle y (hflight ▸ hy))
  · intro y hy
    refine (congrArg CxxException.handlers (hother y (handled_mem _ hy))).trans (h.busy y ?_)
    exact hhandled ▸ List.mem_cons_of_mem _ hy
  · refine Links.congr hrest (fun y hy => ?_)
      fun y hy => congrArg CxxException.next (hother y (handled_mem _ hy))
    exact h.block_nonneg hfirst (hperm.mem_iff.mpr (List.mem_cons_of_mem _ (handled_mem _ hy)))
  · exact fun y rest heq => absurd heq (hleaves.running h.tail y rest)
  · exact fun y hy => h.tail y (hleaves.tail_mem hy)
  · exact fun y v hy => h.landed y v (hsub _ hy)
  · intro y
    change s.thrown.count y
      = ((x - sizeofCxxException + sizeofCxxException) :: s.ended).count y + (objects cs).count y
    rw [h.count y, hobjects.count_eq y, List.count_cons, List.count_cons, BitVec.sub_add_cancel]
    omega

theorem Inv.heap (h : Inv first stop s) (hfirst : 0 ≤ first) (hregion : stop - first < 2 ^ 31)
    {op : HeapOp} {r : Option ℤ} {h' : Heap} (hallowed : Allowed s.iu.heap.hBlocks op)
    (hother : ∀ x ∈ s.built ++ objects s.ctxs, target op ≠ some (block x))
    (hcount : Requestable (asked op))
    (hok : exec heapStart bookkeeping s.iu.heap op = .ok (r, h')) :
    Inv first stop { s with iu := { s.iu with heap := h' } } := by
  obtain ⟨hserving, hlive⟩ :=
    h.serving.exec heapStart bookkeeping hregion hfirst hallowed hcount hok
  exact ⟨hserving, fun x hx => hlive _ (h.live x hx) (hother x hx), h.nodup, h.idle, h.busy,
    h.caught, h.uncaught, h.handed, h.tail, h.landed, h.count⟩

theorem Inv.step (h : Inv first stop s) (hfirst : 0 ≤ first) (hregion : stop - first < 2 ^ 31)
    (hstop : stop < 2 ^ 32) {call : Call} {r : Except Fault Session} {s' : Session}
    (hplain : Plain s call) (hstep : Step heapStart bookkeeping s call r) (hr : r = .ok s') :
    Inv first stop s' := by
  cases hstep with
  | allocateException _ =>
    obtain ⟨⟨x, iu⟩, hok, rfl⟩ := map_ok hr
    exact h.allocate hfirst hregion hstop hplain.1.1 hok
  | freeException _ hx =>
    obtain ⟨iu, hok, rfl⟩ := map_ok hr
    exact h.free hfirst hregion hx hok
  | throw hrun hx =>
    obtain ⟨iu, hok, rfl⟩ := map_ok hr
    exact h.throw hfirst hrun hx hok
  | landingpad hctxs =>
    obtain rfl := Except.ok.inj hr
    exact h.land hctxs
  | resume hctxs =>
    obtain rfl := Except.ok.inj hr
    exact h.resume hctxs
  | beginCatch hctxs =>
    obtain rfl := Except.ok.inj hr
    exact h.catch hfirst hctxs
  | endCatch hleaves =>
    obtain ⟨⟨freed, iu⟩, hok, rfl⟩ := map_ok hr
    exact h.endCatch hfirst hregion hleaves hok
  | rethrow => exact absurd rfl (hplain.2 _ _ _)
  | heap _ hallowed hother =>
    obtain ⟨⟨p, heap⟩, hok, rfl⟩ := map_ok hr
    exact h.heap hfirst hregion hallowed hother hplain.1 hok

/-! ## Runs -/

theorem reach_inv (hregion : Region heapStart memsize) (hmemsize : memsize < 2 ^ 32)
    (hs : Reach heapStart memsize bookkeeping Plain s) :
    Inv (heapStart + sizeofHeap) memsize s := by
  have hstart := hregion.start
  have hint := hregion.int
  induction hs with
  | init mem excAt =>
    have hserving : Serving (heapStart + sizeofHeap) memsize
        (vmirHeapInit heapStart bookkeeping memsize mem).hBlocks := ⟨[], init_serves hregion mem⟩
    exact ⟨hserving, nofun, List.nodup_nil, nofun, nofun, rfl, rfl, nofun, nofun, nofun, fun _ => rfl⟩
  | step _ hplain hstep ih =>
    unfold sizeofHeap at ih ⊢
    exact ih.step (by omega) (by omega) hmemsize hplain hstep rfl

/-- The unit after the first exception, of 4 bytes, in a heap of 60 KiB was thrown and caught. -/
def firstCaught : IrUnit :=
  ⟨⟨[⟨4112, 48, .alloc⟩, ⟨4160, 61376, .free⟩], fun _ => 0⟩, fun _ => ⟨0, 1, 0⟩, ⟨4148, 7, 0, 4136⟩⟩

theorem smallHeap_throw (ok : Session → Call → Prop)
    (hok : ∀ s call, Supported s call → (∀ x t d, call ≠ .rethrow x t d) → ok s call) :
    ∃ excAt, excAt 4136 = ⟨0, 1, 0⟩ ∧ Reach 4096 65536 (fun _ _ => 0) ok
      ⟨{ firstCaught with excAt := excAt }, [], [.handling 4148], [4148], []⟩ := by
  have hinit : Reach 4096 65536 (fun _ _ => 0) ok ⟨⟨vmirHeapInit 4096 (fun _ _ => 0) 65536
    fun _ => 0, fun _ => ⟨0, 0, 0⟩, ⟨0, 0, 0, 0⟩⟩, [], [], [], []⟩ := Reach.init _ _
  rw [smallHeap_init] at hinit
  have hmalloc : vmirHeapMalloc 4096 (fun _ _ => 0) ⟨[⟨4112, 61424, .free⟩], fun _ => 0⟩
      (4 + sizeofCxxException)
        = (some 4136, ⟨[⟨4112, 48, .alloc⟩, ⟨4160, 61376, .free⟩], fun _ => 0⟩) := by
    have hm : mallocBlocks (blockSize (4 + sizeofCxxException)) [⟨4112, 61424, .free⟩]
        = some (4136, [⟨4112, 48, .alloc⟩, ⟨4160, 61376, .free⟩]) := by decide
    unfold vmirHeapMalloc
    dsimp only
    rw [hm]
    dsimp only
    rw [writeHeaders_zero]
  have hallocated : ∀ excAt exc, vmirCxaAllocateException 4096 (fun _ _ => 0)
      ⟨⟨[⟨4112, 61424, .free⟩], fun _ => 0⟩, excAt, exc⟩ 4
        = .ok (4148, ⟨⟨[⟨4112, 48, .alloc⟩, ⟨4160, 61376, .free⟩], fun _ => 0⟩,
          Function.update excAt 4136 ⟨0, 0, 0⟩, exc⟩) := by
    intro excAt exc
    unfold vmirCxaAllocateException
    dsimp only
    rw [hmalloc]
    rfl
  have hfits : Supported ⟨⟨⟨[⟨4112, 61424, .free⟩], fun _ => 0⟩, fun _ => ⟨0, 0, 0⟩, ⟨0, 0, 0, 0⟩⟩,
      [], [], [], []⟩ (.allocateException 4) :=
    ⟨Nat.lt_of_sub_pos (by decide), _, List.mem_cons_self, rfl, by decide⟩
  have hbuilt := hinit.step (hok _ _ hfits nofun) (Step.allocated nofun (hallocated _ _))
  have hthrown := hbuilt.step (hok _ (.throw 4148 7 0) rfl nofun) (.throw nofun List.mem_cons_self)
  have hlanded := hthrown.step (hok _ .landingpad trivial nofun) (.landingpad rfl)
  exact ⟨_, rfl, hlanded.step (hok _ (.beginCatch 4148) trivial nofun) (.beginCatch rfl)⟩

theorem firstCaught_end {iu : IrUnit} (hblocks : iu.heap.hBlocks = firstCaught.heap.hBlocks)
    (hcaught : iu.iuException.caught = 4136) (hexc : (iu.excAt 4136).handlers = 1) :
    ∃ iu', vmirCxaEndCatch 4096 (fun _ _ => 0) iu = .ok (some 4136, iu')
      ∧ iu'.heap.hBlocks = [⟨4112, 61424, .free⟩] := by
  have hx2 : ((4136 : BitVec 32).toNat : ℤ) = 4136 := rfl
  have hfree : freeBlocks (4136 - sizeofHeapBlock) firstCaught.heap.hBlocks
      = .ok [⟨4112, 61424, .free⟩] := by decide
  unfold vmirCxaEndCatch vmirHeapFree
  dsimp only
  rw [hcaught, hx2, hexc, hblocks, hfree]
  exact ⟨_, rfl, rfl⟩

/-- A handler that throws its exception again frees it on the way out. -/
theorem rethrow_unsafe : ¬ ∀ s, Reach 4096 65536 (fun _ _ => 0) Supported s →
    Safe 4096 (fun _ _ => 0) Supported s := by
  intro h
  obtain ⟨excAt, hexc, hcaught⟩ := smallHeap_throw Supported fun _ _ hok _ => hok
  have hagain : vmirCxaRethrow { firstCaught with excAt := excAt } 4148 7 0
      = .ok ⟨firstCaught.heap, Function.update excAt 4136 ⟨0, 1, 0⟩, ⟨4148, 7, 1, 4136⟩⟩ := by
    have hp : ((4148 : BitVec 32).toNat : ℤ) - sizeofCxxException.toNat = 4136 := rfl
    unfold vmirCxaRethrow vmirCxaThrow
    dsimp only
    rw [hp, hexc]
    rfl
  have hrethrown := hcaught.step (by exact rfl) (Step.rethrown nofun rfl hagain)
  have hlanded := hrethrown.step (by exact trivial) (Step.landingpad rfl)
  obtain ⟨iu, hend, hblocks⟩ := @firstCaught_end
    ⟨firstCaught.heap, Function.update excAt 4136 ⟨0, 1, 0⟩, ⟨4148, 7, 1, 4136⟩⟩ rfl rfl rfl
  have hended := hlanded.step (by exact trivial) (Step.left Leaves.thrown hend)
  obtain ⟨hb, hmem, -⟩ := (h _ hended).live 4148 List.mem_cons_self
  dsimp only at hmem
  rw [hblocks] at hmem
  exact absurd hmem List.not_mem_nil

/-- The exceptions are safe in every run in which no handler throws its exception again. -/
theorem exceptions_safe (hregion : Region heapStart memsize) (hmemsize : memsize < 2 ^ 32)
    (hs : Reach heapStart memsize bookkeeping Plain s) : Safe heapStart bookkeeping Plain s := by
  have hstart := hregion.start
  have hint := hregion.int
  have hinv := reach_inv hregion hmemsize hs
  unfold sizeofHeap at hinv
  exact hinv.safe (by omega) (by omega)

theorem exceptions_safe_first : ∃ excAt, Safe 4096 (fun _ _ => 0) Plain
    ⟨{ firstCaught with excAt := excAt }, [], [.handling 4148], [4148], []⟩ := by
  obtain ⟨excAt, -, hreach⟩ := smallHeap_throw Plain fun _ _ hok hplain => ⟨hok, hplain⟩
  exact ⟨excAt, exceptions_safe smallRegion (by decide) hreach⟩

end

end Vmir.ExceptionLifetime
