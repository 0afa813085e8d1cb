import Mathlib.Algebra.Order.BigOperators.Group.Finset
import Mathlib.Data.BitVec
import Mathlib.Data.Finset.Option
import Mathlib.Order.Lattice.Nat

set_option autoImplicit false

/-!
# Heap usage with TLSF

`vmir_heap_malloc`, `vmir_heap_free` and `vmir_heap_realloc` of `vmir_libc.c` as they are built with
TLSF. The allocator is a parameter.
-/
namespace Vmir.TlsfUsage

/-- The functions of `tlsf.h` on pools of the type `σ`; `none` is the null pointer. -/
structure Tlsf (σ : Type) where
  malloc : σ → BitVec 64 → Option ℕ × σ
  free : σ → Option ℕ → σ
  realloc : σ → Option ℕ → BitVec 64 → Option ℕ × σ
  blockSize : σ → Option ℕ → BitVec 64

/-- The heap of a unit. `had` are the values that `iu_heap_usage` was given. -/
structure HeapUnit (σ : Type) where
  heap : σ
  heapUsage : BitVec 32
  peakHeapSize : BitVec 32
  had : List (BitVec 32)

variable {σ : Type}

def HeapUnit.setHeapUsage (iu : HeapUnit σ) (v : BitVec 32) : HeapUnit σ :=
  { iu with heapUsage := v, had := v :: iu.had }

/-- `VMIR_MAX` compares the `int` with the `uint32_t` as an unsigned number. -/
def HeapUnit.updatePeak (iu : HeapUnit σ) : HeapUnit σ :=
  { iu with peakHeapSize :=
      if iu.peakHeapSize > iu.heapUsage then iu.peakHeapSize else iu.heapUsage }

section
variable (tlsf : Tlsf σ)

/-- `tlsf_block_size`, taken as a `uint32_t` -/
def Tlsf.usage (heap : σ) (p : Option ℕ) : BitVec 32 := (tlsf.blockSize heap p).setWidth 32

def discount (iu : HeapUnit σ) (p : Option ℕ) : HeapUnit σ :=
  if p ≠ none then iu.setHeapUsage (iu.heapUsage - tlsf.usage iu.heap p) else iu

def vmirHeapMalloc (iu : HeapUnit σ) (size : BitVec 32) : Option ℕ × HeapUnit σ :=
  let (p, heap) := tlsf.malloc iu.heap (size.signExtend 64)
  let iu := { iu with heap := heap }
  (p, (iu.setHeapUsage (iu.heapUsage + tlsf.usage heap p)).updatePeak)

def vmirHeapFree (iu : HeapUnit σ) (p : Option ℕ) : HeapUnit σ :=
  let iu := discount tlsf iu p
  { iu with heap := tlsf.free iu.heap p }

def vmirHeapRealloc (iu : HeapUnit σ) (p : Option ℕ) (size : BitVec 32) :
    Option ℕ × HeapUnit σ :=
  let iu := discount tlsf iu p
  let (q, heap) := tlsf.realloc iu.heap p (size.signExtend 64)
  let iu := { iu with heap := heap }
  if q ≠ none then (q, (iu.setHeapUsage (iu.heapUsage + tlsf.usage heap q)).updatePeak) else (q, iu)

inductive HeapCall
  | malloc (size : BitVec 32)
  | free (p : Option ℕ)
  | realloc (p : Option ℕ) (size : BitVec 32)
deriving DecidableEq, Repr

def exec (iu : HeapUnit σ) : HeapCall → Option ℕ × HeapUnit σ
  | .malloc size => vmirHeapMalloc tlsf iu size
  | .free p => (none, vmirHeapFree tlsf iu p)
  | .realloc p size => vmirHeapRealloc tlsf iu p size

end

/-! ## The allocator -/

section
variable (tlsf : Tlsf σ) (live : σ → Finset ℕ)

/-- The block `p` was given back and the block `q` was taken; the others are as they were. -/
structure Exchanges (p q : Option ℕ) (s s' : σ) : Prop where
  lives : live s' = live s \ p.toFinset ∪ q.toFinset
  sizes : ∀ x ∈ live s, p ≠ some x → tlsf.blockSize s' (some x) = tlsf.blockSize s (some x)
  fresh : ∀ x, q = some x → x ∈ live s → p = some x

/-- What `tlsf.h` promises. -/
structure Correct : Prop where
  null : ∀ s, tlsf.blockSize s none = 0
  sized : ∀ s, ∀ p ∈ live s, tlsf.blockSize s (some p) ≠ 0
  malloc : ∀ s n, Exchanges tlsf live none (tlsf.malloc s n).1 s (tlsf.malloc s n).2
  free_null : ∀ s, Exchanges tlsf live none none s (tlsf.free s none)
  free : ∀ s, ∀ p ∈ live s, Exchanges tlsf live (some p) none s (tlsf.free s (some p))
  realloc_null : ∀ s n,
    Exchanges tlsf live none (tlsf.realloc s none n).1 s (tlsf.realloc s none n).2
  realloc_zero : ∀ s, ∀ p ∈ live s, (tlsf.realloc s (some p) 0).1 = none
    ∧ Exchanges tlsf live (some p) none s (tlsf.realloc s (some p) 0).2
  realloc_fails : ∀ s, ∀ p ∈ live s, ∀ n, n ≠ 0 → (tlsf.realloc s (some p) n).1 = none →
    Exchanges tlsf live none none s (tlsf.realloc s (some p) n).2
  realloc : ∀ s, ∀ p ∈ live s, ∀ n q, (tlsf.realloc s (some p) n).1 = some q →
    Exchanges tlsf live (some p) (some q) s (tlsf.realloc s (some p) n).2

def total (s : σ) : ℕ := ∑ p ∈ live s, (tlsf.blockSize s (some p)).toNat

/-! ## Runs -/

/-- Only live blocks and null pointers are freed or reallocated. -/
def Allowed (s : σ) : HeapCall → Prop
  | .malloc _ => True
  | .free p => ∀ x, p = some x → x ∈ live s
  | .realloc p _ => ∀ x, p = some x → x ∈ live s

/-- A block is not reallocated in vain, and the live blocks stay below `2 ^ 31` bytes. -/
def Fits (s' : σ) (r : Option ℕ) : HeapCall → Prop
  | .realloc (some _) size => (size ≠ 0 → r ≠ none) ∧ total tlsf live s' < 2 ^ 31
  | _ => total tlsf live s' < 2 ^ 31

/-- The states of runs whose calls, each with its result, are `ok`. -/
inductive Reach (ok : σ → Option ℕ → HeapCall → Prop) : HeapUnit σ → Prop
  | start {heap : σ} (hheap : live heap = ∅) : Reach ok ⟨heap, 0, 0, [0]⟩
  | call {iu : HeapUnit σ} (hs : Reach ok iu) {c : HeapCall} (hallowed : Allowed live iu.heap c)
    (hok : ok (exec tlsf iu c).2.heap (exec tlsf iu c).1 c) : Reach ok (exec tlsf iu c).2

/-- The usage is the sum of the live blocks, and no value that it has had is above the peak. -/
def Accounted (iu : HeapUnit σ) : Prop :=
  iu.heapUsage.toNat = total tlsf live iu.heap
    ∧ ∀ v ∈ iu.had, (v.toNat : ℤ) ≤ iu.peakHeapSize.toInt

end

/-! ## Sums -/

section
variable {tlsf : Tlsf σ} {live : σ → Finset ℕ} {p q : Option ℕ} {s s' : σ}

theorem Exchanges.total (hc : Correct tlsf live) (h : Exchanges tlsf live p q s s')
    (hp : ∀ x, p = some x → x ∈ live s) :
    total tlsf live s' + (tlsf.blockSize s p).toNat
      = total tlsf live s + (tlsf.blockSize s' q).toNat := by
  have hnull : ∀ s, (tlsf.blockSize s none).toNat = 0 := fun s => by
    rw [hc.null]
    rfl
  have hgiven : ∑ x ∈ live s \ p.toFinset, (tlsf.blockSize s (some x)).toNat
      + (tlsf.blockSize s p).toNat = TlsfUsage.total tlsf live s := by
    cases p with
    | none => rw [Option.toFinset_none, Finset.sdiff_empty, hnull, Nat.add_zero]; rfl
    | some x =>
      rw [Option.toFinset_some, Finset.sdiff_singleton_eq_erase]
      exact Finset.sum_erase_add _ _ (hp x rfl)
  have hold : ∑ x ∈ live s \ p.toFinset, (tlsf.blockSize s' (some x)).toNat
      = ∑ x ∈ live s \ p.toFinset, (tlsf.blockSize s (some x)).toNat := by
    refine Finset.sum_congr rfl fun x hx => ?_
    obtain ⟨hx, hnot⟩ := Finset.mem_sdiff.mp hx
    rw [h.sizes x hx fun heq => hnot (Option.mem_toFinset.mpr heq)]
  have htaken : ∑ x ∈ live s \ p.toFinset, (tlsf.blockSize s' (some x)).toNat
      + (tlsf.blockSize s' q).toNat = TlsfUsage.total tlsf live s' := by
    unfold TlsfUsage.total
    rw [h.lives]
    cases q with
    | none => rw [Option.toFinset_none, Finset.union_empty, hnull, Nat.add_zero]
    | some x =>
      have hnot : x ∉ live s \ p.toFinset := fun hin => by
        obtain ⟨hx, hout⟩ := Finset.mem_sdiff.mp hin
        exact hout (Option.mem_toFinset.mpr (h.fresh x rfl hx))
      rw [Option.toFinset_some, Finset.sum_union (Finset.disjoint_singleton_right.mpr hnot),
        Finset.sum_singleton]
  omega

end

/-! ## The usage -/

/-- The usage counts `n` bytes, and no value that it has had is above the peak. -/
structure Counts (iu : HeapUnit σ) (n : ℕ) : Prop where
  small : n < 2 ^ 31
  usage : iu.heapUsage.toNat = n
  current : iu.heapUsage ∈ iu.had
  peak : ∀ v ∈ iu.had, v.toNat ≤ iu.peakHeapSize.toNat
  int : iu.peakHeapSize.toNat < 2 ^ 31

section
variable {iu : HeapUnit σ} {n : ℕ} {x : BitVec 64}

theorem Counts.withHeap (h : Counts iu n) (heap : σ) : Counts { iu with heap := heap } n :=
  ⟨h.small, h.usage, h.current, h.peak, h.int⟩

theorem toNat_usage (hx : x.toNat < 2 ^ 32) : (x.setWidth 32).toNat = x.toNat := by
  rw [BitVec.toNat_setWidth, Nat.mod_eq_of_lt hx]

theorem Counts.give (h : Counts iu n) (hx : x.toNat ≤ n) :
    Counts (iu.setHeapUsage (iu.heapUsage - x.setWidth 32)) (n - x.toNat) := by
  have hsmall := h.small
  have husage := h.usage
  have hword := toNat_usage (x := x) (by omega)
  have hle := h.peak _ h.current
  have hnew : (iu.heapUsage - x.setWidth 32).toNat = n - x.toNat := by
    rw [BitVec.toNat_sub_of_le (BitVec.le_def.mpr (by omega))]
    omega
  refine ⟨by omega, hnew, List.mem_cons_self, fun v hv => ?_, h.int⟩
  rcases List.mem_cons.mp hv with rfl | hv
  · change (iu.heapUsage - x.setWidth 32).toNat ≤ iu.peakHeapSize.toNat
    omega
  · exact h.peak v hv

theorem Counts.take (h : Counts iu n) (hx : n + x.toNat < 2 ^ 31) :
    Counts (iu.setHeapUsage (iu.heapUsage + x.setWidth 32)).updatePeak (n + x.toNat) := by
  have husage := h.usage
  have hint := h.int
  have hword := toNat_usage (x := x) (by omega)
  have hnew : (iu.heapUsage + x.setWidth 32).toNat = n + x.toNat := by
    rw [BitVec.toNat_add, hword, husage]
    omega
  have hpeak : iu.peakHeapSize.toNat
        ≤ (iu.setHeapUsage (iu.heapUsage + x.setWidth 32)).updatePeak.peakHeapSize.toNat
      ∧ n + x.toNat
        ≤ (iu.setHeapUsage (iu.heapUsage + x.setWidth 32)).updatePeak.peakHeapSize.toNat
      ∧ (iu.setHeapUsage (iu.heapUsage + x.setWidth 32)).updatePeak.peakHeapSize.toNat
        < 2 ^ 31 := by
    change _ ≤ (if iu.peakHeapSize > iu.heapUsage + x.setWidth 32 then iu.peakHeapSize
        else iu.heapUsage + x.setWidth 32).toNat
      ∧ _ ≤ (if iu.peakHeapSize > iu.heapUsage + x.setWidth 32 then iu.peakHeapSize
        else iu.heapUsage + x.setWidth 32).toNat
      ∧ (if iu.peakHeapSize > iu.heapUsage + x.setWidth 32 then iu.peakHeapSize
        else iu.heapUsage + x.setWidth 32).toNat < _
    split
    · rename_i hgt
      have := BitVec.lt_def.mp hgt
      omega
    · rename_i hle
      have := BitVec.le_def.mp (BitVec.not_lt.mp hle)
      omega
  refine ⟨hx, hnew, List.mem_cons_self, fun v hv => ?_, hpeak.2.2⟩
  rcases List.mem_cons.mp hv with rfl | hv
  · exact (Nat.le_of_eq hnew).trans hpeak.2.1
  · exact (h.peak v hv).trans hpeak.1

end

section
variable {tlsf : Tlsf σ} {live : σ → Finset ℕ} {iu : HeapUnit σ}

theorem discount_heap (p : Option ℕ) : (discount tlsf iu p).heap = iu.heap := by
  unfold discount
  split <;> rfl

theorem discount_current (h : iu.heapUsage ∈ iu.had) (p : Option ℕ) :
    (discount tlsf iu p).heapUsage ∈ (discount tlsf iu p).had := by
  unfold discount
  split
  · exact List.mem_cons_self
  · exact h

theorem realloc_none {p : Option ℕ} {size : BitVec 32}
    (h : (tlsf.realloc iu.heap p (size.signExtend 64)).1 = none) :
    exec tlsf iu (.realloc p size) = (none, { discount tlsf iu p with
      heap := (tlsf.realloc iu.heap p (size.signExtend 64)).2 }) := by
  rw [← @discount_heap σ tlsf iu p] at h ⊢
  simp only [exec, vmirHeapRealloc, h]
  rfl

theorem realloc_some {p : Option ℕ} {size : BitVec 32} {q : ℕ}
    (h : (tlsf.realloc iu.heap p (size.signExtend 64)).1 = some q) :
    exec tlsf iu (.realloc p size) = (some q, (HeapUnit.setHeapUsage { discount tlsf iu p with
        heap := (tlsf.realloc iu.heap p (size.signExtend 64)).2 }
      ((discount tlsf iu p).heapUsage
        + tlsf.usage (tlsf.realloc iu.heap p (size.signExtend 64)).2 (some q))).updatePeak) := by
  rw [← @discount_heap σ tlsf iu p] at h ⊢
  simp only [exec, vmirHeapRealloc, h]
  rfl

theorem exec_current (h : iu.heapUsage ∈ iu.had) (c : HeapCall) :
    (exec tlsf iu c).2.heapUsage ∈ (exec tlsf iu c).2.had := by
  cases c with
  | malloc size => exact List.mem_cons_self
  | free p => exact discount_current h p
  | realloc p size =>
    cases hr : (tlsf.realloc iu.heap p (size.signExtend 64)).1 with
    | none =>
      rw [realloc_none hr]
      exact discount_current h p
    | some q =>
      rw [realloc_some hr]
      exact List.mem_cons_self

theorem blockSize_le (s : σ) {p : ℕ} (hp : p ∈ live s) :
    (tlsf.blockSize s (some p)).toNat ≤ total tlsf live s :=
  Finset.single_le_sum (f := fun p => (tlsf.blockSize s (some p)).toNat)
    (fun _ _ => Nat.zero_le _) hp

theorem Correct.null_size (hc : Correct tlsf live) (s : σ) :
    (tlsf.blockSize s none).toNat = 0 := by
  rw [hc.null]
  rfl

theorem counts_discount (hc : Correct tlsf live) {p : Option ℕ}
    (h : Counts iu (total tlsf live iu.heap)) (hp : ∀ x, p = some x → x ∈ live iu.heap) :
    Counts (discount tlsf iu p)
      (total tlsf live iu.heap - (tlsf.blockSize iu.heap p).toNat) := by
  cases p with
  | none =>
    rw [hc.null_size]
    exact h
  | some x => exact h.give (blockSize_le _ (hp x rfl))

theorem counts_exchange (hc : Correct tlsf live) {p : Option ℕ} {q : ℕ} {s' : σ}
    (h : Counts iu (total tlsf live iu.heap)) (hp : ∀ x, p = some x → x ∈ live iu.heap)
    (hex : Exchanges tlsf live p (some q) iu.heap s') (hfits : total tlsf live s' < 2 ^ 31) :
    Counts (HeapUnit.setHeapUsage { discount tlsf iu p with heap := s' }
      ((discount tlsf iu p).heapUsage + tlsf.usage s' (some q))).updatePeak
      (total tlsf live s') := by
  have htotal := hex.total hc hp
  have hdiscount := (counts_discount hc h hp).withHeap s'
  have hle : (tlsf.blockSize iu.heap p).toNat ≤ total tlsf live iu.heap := by
    cases p with
    | none =>
      rw [hc.null_size]
      exact Nat.zero_le _
    | some x => exact blockSize_le _ (hp x rfl)
  have htake := hdiscount.take (x := tlsf.blockSize s' (some q)) (by omega)
  rwa [show total tlsf live iu.heap - (tlsf.blockSize iu.heap p).toNat
    + (tlsf.blockSize s' (some q)).toNat = total tlsf live s' by omega] at htake

theorem counts_release (hc : Correct tlsf live) {p : Option ℕ} {s' : σ}
    (h : Counts iu (total tlsf live iu.heap)) (hp : ∀ x, p = some x → x ∈ live iu.heap)
    (hex : Exchanges tlsf live p none iu.heap s') :
    Counts { discount tlsf iu p with heap := s' } (total tlsf live s') := by
  have htotal := hex.total hc hp
  rw [hc.null_size, Nat.add_zero] at htotal
  have hdiscount := (counts_discount hc h hp).withHeap s'
  rwa [← htotal, Nat.add_sub_cancel] at hdiscount

theorem exec_counts (hc : Correct tlsf live) (h : Counts iu (total tlsf live iu.heap))
    {c : HeapCall} (hallowed : Allowed live iu.heap c)
    (hfits : Fits tlsf live (exec tlsf iu c).2.heap (exec tlsf iu c).1 c) :
    Counts (exec tlsf iu c).2 (total tlsf live (exec tlsf iu c).2.heap) := by
  cases c with
  | malloc size =>
    have hex := hc.malloc iu.heap (size.signExtend 64)
    have htotal := hex.total hc nofun
    rw [hc.null_size, Nat.add_zero] at htotal
    change total tlsf live (tlsf.malloc iu.heap (size.signExtend 64)).2 < _ at hfits
    change Counts _ (total tlsf live (tlsf.malloc iu.heap (size.signExtend 64)).2)
    rw [htotal] at hfits ⊢
    exact (h.withHeap _).take hfits
  | free p =>
    cases p with
    | none => exact counts_release hc h nofun (hc.free_null iu.heap)
    | some x =>
      have hx : x ∈ live iu.heap := hallowed x rfl
      have hcounts := counts_release hc h hallowed (hc.free iu.heap x hx)
      change Counts { discount tlsf iu (some x) with
        heap := tlsf.free (discount tlsf iu (some x)).heap (some x) } (total tlsf live
          (tlsf.free (discount tlsf iu (some x)).heap (some x)))
      rwa [discount_heap]
  | realloc p size =>
    cases hr : (tlsf.realloc iu.heap p (size.signExtend 64)).1 with
    | none =>
      rw [realloc_none hr] at hfits ⊢
      refine counts_release hc h hallowed ?_
      cases p with
      | none =>
        have hex := hc.realloc_null iu.heap (size.signExtend 64)
        rwa [hr] at hex
      | some x =>
        have hzero : size = 0 := by
          by_contra hne
          exact hfits.1 hne rfl
        rw [hzero]
        exact (hc.realloc_zero iu.heap x (hallowed x rfl)).2
    | some q =>
      rw [realloc_some hr] at hfits ⊢
      cases p with
      | none =>
        have hex := hc.realloc_null iu.heap (size.signExtend 64)
        rw [hr] at hex
        exact counts_exchange hc h nofun hex hfits
      | some x =>
        exact counts_exchange hc h hallowed (hc.realloc iu.heap x (hallowed x rfl) _ q hr) hfits.2

def HeapCall.given : HeapCall → Option ℕ
  | .malloc _ => none
  | .free p => p
  | .realloc p _ => p

theorem exec_exchanges (hc : Correct tlsf live) {c : HeapCall} (hallowed : Allowed live iu.heap c) :
    ∃ p, (∀ x, p = some x → c.given = some x)
      ∧ Exchanges tlsf live p (exec tlsf iu c).1 iu.heap (exec tlsf iu c).2.heap := by
  cases c with
  | malloc size => exact ⟨none, nofun, hc.malloc iu.heap (size.signExtend 64)⟩
  | free p =>
    change ∃ q, _ ∧ Exchanges tlsf live q none iu.heap (tlsf.free (discount tlsf iu p).heap p)
    rw [discount_heap]
    cases p with
    | none => exact ⟨none, nofun, hc.free_null iu.heap⟩
    | some x => exact ⟨some x, fun _ h => h, hc.free iu.heap x (hallowed x rfl)⟩
  | realloc p size =>
    cases hr : (tlsf.realloc iu.heap p (size.signExtend 64)).1 with
    | none =>
      rw [realloc_none hr]
      cases p with
      | none =>
        have hex := hc.realloc_null iu.heap (size.signExtend 64)
        rw [hr] at hex
        exact ⟨none, nofun, hex⟩
      | some x =>
        by_cases hzero : size.signExtend 64 = 0
        · rw [hzero]
          exact ⟨some x, fun _ h => h, (hc.realloc_zero iu.heap x (hallowed x rfl)).2⟩
        · exact ⟨none, nofun, hc.realloc_fails iu.heap x (hallowed x rfl) _ hzero hr⟩
    | some q =>
      rw [realloc_some hr]
      cases p with
      | none =>
        have hex := hc.realloc_null iu.heap (size.signExtend 64)
        rw [hr] at hex
        exact ⟨none, nofun, hex⟩
      | some x => exact ⟨some x, fun _ h => h, hc.realloc iu.heap x (hallowed x rfl) _ q hr⟩

theorem reach_counts (hc : Correct tlsf live) (hs : Reach tlsf live (Fits tlsf live) iu) :
    Counts iu (total tlsf live iu.heap) := by
  induction hs with
  | @start heap hheap =>
    have hzero : total tlsf live heap = 0 := by
      unfold total
      rw [hheap]
      rfl
    rw [hzero]
    refine ⟨by decide, rfl, List.mem_cons_self, fun v hv => ?_,
      (by decide : (0 : BitVec 32).toNat < 2 ^ 31)⟩
    rw [List.mem_singleton.mp hv]
  | call _ hallowed hok ih => exact exec_counts hc ih hallowed hok

theorem Counts.accounted (h : Counts iu (total tlsf live iu.heap)) : Accounted tlsf live iu := by
  refine ⟨h.usage, fun v hv => ?_⟩
  have hint := h.int
  rw [BitVec.toInt_eq_toNat_of_lt (by omega)]
  exact Int.ofNat_le.mpr (h.peak v hv)

/-- A usage that is accounted for is an `int`. -/
theorem Accounted.small (h : Accounted tlsf live iu) (hcurrent : iu.heapUsage ∈ iu.had) :
    total tlsf live iu.heap < 2 ^ 31 := by
  have hpeak := h.2 _ hcurrent
  have hlt := @BitVec.toInt_lt 32 iu.peakHeapSize
  rw [h.1] at hpeak
  omega

/-- The usage is accounted for in every run whose calls fit, and then it is after a call if and only
if the call fits. -/
theorem accounting_iff (hc : Correct tlsf live) (hs : Reach tlsf live (Fits tlsf live) iu)
    {c : HeapCall} (hallowed : Allowed live iu.heap c) :
    Accounted tlsf live iu ∧ (Accounted tlsf live (exec tlsf iu c).2
      ↔ Fits tlsf live (exec tlsf iu c).2.heap (exec tlsf iu c).1 c) := by
  have h := reach_counts hc hs
  refine ⟨h.accounted, fun hafter => ?_, fun hfits => (exec_counts hc h hallowed hfits).accounted⟩
  have hsmall := hafter.small (exec_current h.current c)
  cases c with
  | malloc size => exact hsmall
  | free p => exact hsmall
  | realloc p size =>
    cases p with
    | none => exact hsmall
    | some x =>
      refine ⟨fun hne hnone => ?_, hsmall⟩
      have hx : x ∈ live iu.heap := hallowed x rfl
      have hr : (tlsf.realloc iu.heap (some x) (size.signExtend 64)).1 = none := by
        cases hr : (tlsf.realloc iu.heap (some x) (size.signExtend 64)).1 with
        | none => rfl
        | some q =>
          rw [realloc_some hr] at hnone
          exact absurd hnone nofun
      have hsize : size.signExtend 64 ≠ 0 := fun hzero => hne (BitVec.eq_of_toInt_eq (by
        rw [← BitVec.toInt_signExtend_of_le (by decide : 32 ≤ 64), hzero]
        rfl))
      -- the block is still there, but its size was taken off
      have htotal := (hc.realloc_fails iu.heap x hx _ hsize hr).total hc nofun
      have hdiscount := (counts_discount hc h hallowed).usage
      have hpos := hc.sized iu.heap x hx
      have hle : (tlsf.blockSize iu.heap (some x)).toNat ≤ total tlsf live iu.heap :=
        blockSize_le iu.heap hx
      have husage := hafter.1
      rw [realloc_none hr] at husage
      change (discount tlsf iu (some x)).heapUsage.toNat
        = total tlsf live (tlsf.realloc iu.heap (some x) (size.signExtend 64)).2 at husage
      have hnat : (tlsf.blockSize iu.heap (some x)).toNat ≠ 0 := fun heq =>
        hpos (BitVec.eq_of_toNat_eq heq)
      rw [hc.null_size, hc.null_size] at htotal
      omega

end

/-! ## A pool -/

/-- A pool that has blocks of 104 bytes, which is the size for requests of 97 to 104 bytes. -/
def equalBlocks : Tlsf (Finset ℕ) where
  malloc s n := if n = 0 ∨ 104 < n.toNat then (none, s)
    else (some (s.sup id + 1), insert (s.sup id + 1) s)
  free s p := s \ p.toFinset
  realloc s p n := match p with
    | none => if n = 0 ∨ 104 < n.toNat then (none, s)
      else (some (s.sup id + 1), insert (s.sup id + 1) s)
    | some x => if n = 0 then (none, s.erase x)
      else if 104 < n.toNat then (none, s)
      else (some x, s)
  blockSize _ p := if p = none then 0 else 104

section
variable {s : Finset ℕ}

theorem exchanges_nothing : Exchanges equalBlocks id none none s s where
  lives := by rw [Option.toFinset_none, Finset.sdiff_empty, Finset.union_empty]
  sizes _ _ _ := rfl
  fresh := nofun

theorem exchanges_fresh :
    Exchanges equalBlocks id none (some (s.sup id + 1)) s (insert (s.sup id + 1) s) where
  lives := by
    rw [Option.toFinset_none, Finset.sdiff_empty, Option.toFinset_some, Finset.union_comm]
    rfl
  sizes _ _ _ := rfl
  fresh x hx hmem := by
    cases hx
    exact absurd (Finset.le_sup (f := id) hmem) (Nat.not_succ_le_self _)

theorem exchanges_released (x : ℕ) : Exchanges equalBlocks id (some x) none s (s.erase x) where
  lives := by
    rw [Option.toFinset_none, Finset.union_empty, Option.toFinset_some,
      Finset.sdiff_singleton_eq_erase]
    rfl
  sizes _ _ _ := rfl
  fresh := nofun

theorem exchanges_malloc (n : BitVec 64) : Exchanges equalBlocks id none
    (if n = 0 ∨ 104 < n.toNat then (none, s)
      else (some (s.sup id + 1), insert (s.sup id + 1) s) : Option ℕ × Finset ℕ).1 s
    (if n = 0 ∨ 104 < n.toNat then (none, s)
      else (some (s.sup id + 1), insert (s.sup id + 1) s) : Option ℕ × Finset ℕ).2 := by
  split
  · exact exchanges_nothing
  · exact exchanges_fresh

theorem equalBlocks_correct : Correct equalBlocks id where
  null _ := rfl
  sized _ _ _ := (by decide : (104 : BitVec 64) ≠ 0)
  malloc _ n := exchanges_malloc n
  free_null s := by
    change Exchanges equalBlocks id none none s (s \ Option.toFinset none)
    rw [Option.toFinset_none, Finset.sdiff_empty]
    exact exchanges_nothing
  free s x _ := by
    change Exchanges equalBlocks id (some x) none s (s \ Option.toFinset (some x))
    rw [Option.toFinset_some, Finset.sdiff_singleton_eq_erase]
    exact exchanges_released x
  realloc_null _ n := exchanges_malloc n
  realloc_zero _ x _ := ⟨rfl, exchanges_released x⟩
  realloc_fails s x _ n hn hnone := by
    change (if n = 0 then _ else if 104 < n.toNat then _ else _ : Option ℕ × Finset ℕ).1 = none
      at hnone
    change Exchanges equalBlocks id none none s
      (if n = 0 then _ else if 104 < n.toNat then _ else _ : Option ℕ × Finset ℕ).2
    rw [if_neg hn] at hnone ⊢
    split at hnone
    · rw [if_pos ‹_›]
      exact exchanges_nothing
    · exact absurd hnone nofun
  realloc s x hx n q hq := by
    change (if n = 0 then _ else if 104 < n.toNat then _ else _ : Option ℕ × Finset ℕ).1 = some q
      at hq
    change Exchanges equalBlocks id (some x) (some q) s
      (if n = 0 then _ else if 104 < n.toNat then _ else _ : Option ℕ × Finset ℕ).2
    split at hq
    · exact absurd hq nofun
    · split at hq
      · exact absurd hq nofun
      · rw [if_neg ‹_›, if_neg ‹_›]
        cases hq
        refine ⟨?_, fun _ _ _ => rfl, fun _ h _ => h⟩
        rw [Option.toFinset_some]
        exact (Finset.sdiff_union_of_subset (Finset.singleton_subset_iff.mpr hx)).symm

end

/-- A block of 100 bytes was taken from the pool. -/
def oneBlock : HeapUnit (Finset ℕ) := (exec equalBlocks ⟨∅, 0, 0, [0]⟩ (.malloc 100)).2

theorem oneBlock_reached {ok : Finset ℕ → Option ℕ → HeapCall → Prop}
    (hok : ok {1} (some 1) (.malloc 100)) : Reach equalBlocks id ok oneBlock := by
  have hstart : Reach equalBlocks id ok ⟨∅, 0, 0, [0]⟩ := .start rfl
  exact .call hstart (c := .malloc 100) trivial hok

/-- The block is reallocated in vain, and is no longer counted. -/
theorem failed_realloc_drifts : ¬ ∀ iu, Reach equalBlocks id (fun _ _ _ => True) iu →
    Accounted equalBlocks id iu := by
  intro h
  have hone : Reach equalBlocks id (fun _ _ _ => True) oneBlock := oneBlock_reached trivial
  have hlive : ∀ x, some 1 = some x → x ∈ oneBlock.heap := fun x hx => by
    cases hx
    decide
  have hdrift := h _ (.call hone (c := .realloc (some 1) 0x10000000) hlive trivial)
  exact absurd hdrift.1 (by decide)

/-- The block was made smaller, which it has room for. -/
def resizedBlock : HeapUnit (Finset ℕ) := (exec equalBlocks oneBlock (.realloc (some 1) 50)).2

theorem accounting_iff_resized : Accounted equalBlocks id resizedBlock
    ∧ (Accounted equalBlocks id (exec equalBlocks resizedBlock (.realloc (some 1) 0x10000000)).2
      ↔ Fits equalBlocks id (exec equalBlocks resizedBlock (.realloc (some 1) 0x10000000)).2.heap none
        (.realloc (some 1) 0x10000000)) := by
  have hlive : ∀ x, some 1 = some x → x ∈ ({1} : Finset ℕ) := fun x hx => by
    cases hx
    decide
  have hone : Reach equalBlocks id (Fits equalBlocks id) oneBlock :=
    oneBlock_reached (by decide : total equalBlocks id {1} < 2 ^ 31)
  have hresized : Reach equalBlocks id (Fits equalBlocks id) resizedBlock :=
    .call hone (c := .realloc (some 1) 50) hlive ⟨nofun, by decide⟩
  exact accounting_iff equalBlocks_correct hresized (c := .realloc (some 1) 0x10000000) hlive

end Vmir.TlsfUsage
