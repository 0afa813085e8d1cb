import Vmir.HeapBlocks

set_option autoImplicit false

/-!
# What the guest gets from the heap

Runs of calls, with a ledger of the pointers that are live and of the sizes that were asked for.
-/
namespace Vmir.HeapSafety
open Ir Tiling FirstFitHeap HeapBlocks

/-- The region from the heap's start to the end of guest memory has room for the queue and a block,
and its size is an `int`. -/
structure Region (heapStart memsize : ℤ) : Prop where
  start : 0 ≤ heapStart
  room : heapStart + sizeofHeap + sizeofHeapBlock ≤ memsize
  int : memsize - heapStart < 2 ^ 31

def Live (bs : List HeapBlock) (p : ℤ) : Prop := ∃ hb ∈ lives bs, hb.payload = p

/-- Only live blocks are freed or reallocated. -/
def Allowed (bs : List HeapBlock) : HeapOp → Prop
  | .malloc _ => True
  | .calloc _ _ => True
  | .realloc ptr _ => Live bs ptr
  | .free ptr => Live bs ptr

/-- The number of bytes that a call asks for. -/
def asked : HeapOp → ℕ
  | .malloc size => size.toNat
  | .calloc nmemb size => nmemb.toNat * size.toNat
  | .realloc _ size => size.toNat
  | .free _ => 0

def Releases : HeapOp → Prop
  | .malloc _ => False
  | .calloc _ _ => False
  | .realloc _ size => size = 0
  | .free _ => True

def withdraw (p : ℤ) (l : List (ℤ × ℕ)) : List (ℤ × ℕ) := l.filter fun e => e.1 ≠ p

def ledgerAfter (l : List (ℤ × ℕ)) : HeapOp → Option ℤ → List (ℤ × ℕ)
  | .malloc size, some p => (p, size.toNat) :: l
  | .calloc nmemb size, some p => (p, nmemb.toNat * size.toNat) :: l
  | .realloc ptr size, some p => (p, size.toNat) :: withdraw ptr l
  | .realloc ptr size, none => if size = 0 then withdraw ptr l else l
  | .free ptr, _ => withdraw ptr l
  | _, none => l

structure Session where
  heap : Heap
  ledger : List (ℤ × ℕ)

section
variable (heapStart memsize : ℤ) (bookkeeping : List HeapBlock → ℤ → BitVec 8)

/-- The states of runs whose calls are all `ok`. Between the calls the guest writes to its blocks. -/
inductive Reach (ok : HeapOp → Prop) : Session → Prop
  | init (mem : ℤ → BitVec 8) :
    Reach ok ⟨vmirHeapInit heapStart bookkeeping memsize mem, []⟩
  | call {s : Session} (hs : Reach ok s) {op : HeapOp} (hallowed : Allowed s.heap.hBlocks op)
    (hok : ok op) {r : Option ℤ} {h' : Heap}
    (hexec : exec heapStart bookkeeping s.heap op = .ok (r, h')) :
    Reach ok ⟨h', ledgerAfter s.ledger op r⟩
  | guest {s : Session} (hs : Reach ok s) {mem : ℤ → BitVec 8}
    (hmem : ∀ p, mem p ≠ s.heap.mem p →
      ∃ hb ∈ lives s.heap.hBlocks, hb.payload ≤ p ∧ p < hb.addr + hb.hbSize) :
    Reach ok ⟨⟨s.heap.hBlocks, mem⟩, s.ledger⟩

/-- The blocks tile the region, the live ones are those of the ledger, each large enough, apart from
each other and inside guest memory, and a call that is `ok` is answered, with null only when it
releases a block or leaves the heap as it was for want of a block that is large enough. -/
structure Safe (ok : HeapOp → Prop) (s : Session) : Prop where
  tiles : Tiles HeapBlock.addr HeapBlock.hbSize (heapStart + sizeofHeap) s.heap.hBlocks memsize
  live : ∀ p, Live s.heap.hBlocks p ↔ p ∈ s.ledger.map Prod.fst
  once : (s.ledger.map Prod.fst).Nodup
  large : ∀ e ∈ s.ledger, ∀ hb ∈ lives s.heap.hBlocks, hb.payload = e.1 →
    hb.payload + e.2 ≤ hb.addr + hb.hbSize
  apart : (lives s.heap.hBlocks).Pairwise fun x y => x.addr + x.hbSize ≤ y.addr
  inside : ∀ hb ∈ lives s.heap.hBlocks, 0 ≤ hb.addr ∧ hb.addr + hb.hbSize ≤ memsize
  answers : ∀ op, Allowed s.heap.hBlocks op → ok op → ∃ r h',
    exec heapStart bookkeeping s.heap op = .ok (r, h')
      ∧ (r = none → Releases op ∨ h' = s.heap
        ∧ ∀ hb ∈ s.heap.hBlocks, hb.hbMagic = .free → hb.hbSize < asked op + 39)

end

/-! ## The invariant -/

structure Serves (first stop : ℤ) (bs : List HeapBlock) (l : List (ℤ × ℕ)) : Prop where
  laid : Laid false first bs stop
  live : ∀ p, Live bs p ↔ p ∈ l.map Prod.fst
  once : (l.map Prod.fst).Nodup
  large : ∀ e ∈ l, ∀ hb ∈ lives bs, hb.payload = e.1 → e.2 + sizeofHeapBlock ≤ hb.hbSize

variable {first stop : ℤ} {bs bs' : List HeapBlock} {l : List (ℤ × ℕ)} {hb : HeapBlock} {p : ℤ}

theorem Serves.take (h : Serves first stop bs l) (hregion : stop - first < 2 ^ 31) {size : ℤ} {n : ℕ}
    (hsize : 32 ≤ size) (hn : n + sizeofHeapBlock ≤ size)
    (hm : mallocBlocks size bs = some (p, bs')) :
    Serves first stop bs' ((p, n) :: l) ∧ ¬ Live bs p := by
  obtain ⟨hlaid, ⟨l1, l2, hb, hlives, hlives', hp, hle⟩, y, hy, hfree, hyp⟩ :=
    mallocBlocks_spec h.laid hregion hsize hm
  have hfresh : ¬ Live bs p := by
    rintro ⟨x, hx, hxp⟩
    obtain ⟨hxbs, halloc⟩ := mem_lives.mp hx
    obtain rfl := Laid.eq_of_payload h.laid hxbs hy (hxp.trans hyp.symm)
    exact absurd (halloc.symm.trans hfree) nofun
  have hmem : ∀ x, x ∈ lives bs' ↔ x = hb ∨ x ∈ lives bs := by
    intro x
    rw [hlives, hlives', List.mem_append, List.mem_append, List.mem_cons]
    tauto
  refine ⟨⟨hlaid, ?_, ?_, ?_⟩, hfresh⟩
  · intro q
    rw [List.map_cons, List.mem_cons, ← h.live q]
    constructor
    · rintro ⟨x, hx, rfl⟩
      rcases (hmem x).mp hx with rfl | hx
      · exact Or.inl hp
      · exact Or.inr ⟨x, hx, rfl⟩
    · rintro (rfl | ⟨x, hx, rfl⟩)
      · exact ⟨hb, (hmem hb).mpr (Or.inl rfl), hp⟩
      · exact ⟨x, (hmem x).mpr (Or.inr hx), rfl⟩
  · rw [List.map_cons]
    exact List.nodup_cons.mpr ⟨fun hin => hfresh ((h.live p).mpr hin), h.once⟩
  · intro e he x hx hxe
    rcases (hmem x).mp hx with rfl | hxold
    · rcases List.mem_cons.mp he with rfl | he
      · omega
      · have hin := (h.live p).mpr (List.mem_map.mpr ⟨e, he, (hxe.symm.trans hp)⟩)
        exact absurd hin hfresh
    · rcases List.mem_cons.mp he with rfl | he
      · exact absurd ⟨x, hxold, hxe⟩ hfresh
      · exact h.large e he x hxold hxe

theorem mem_withdraw {q : ℤ} :
    q ∈ (withdraw p l).map Prod.fst ↔ q ∈ l.map Prod.fst ∧ q ≠ p := by
  rw [List.mem_map, List.mem_map]
  constructor
  · rintro ⟨e, he, rfl⟩
    obtain ⟨hmem, hne⟩ := List.mem_filter.mp he
    exact ⟨⟨e, hmem, rfl⟩, of_decide_eq_true hne⟩
  · rintro ⟨⟨e, he, rfl⟩, hne⟩
    exact ⟨e, List.mem_filter.mpr ⟨he, decide_eq_true hne⟩, rfl⟩

theorem withdraw_nodup (h : (l.map Prod.fst).Nodup) (p : ℤ) :
    ((withdraw p l).map Prod.fst).Nodup :=
  h.sublist (List.filter_sublist.map Prod.fst)

theorem Serves.free (h : Serves first stop bs l) (hregion : stop - first < 2 ^ 31)
    (hlive : Live bs p) : ∃ bs', freeBlocks (p - sizeofHeapBlock) bs = .ok bs'
      ∧ Serves first stop bs' (withdraw p l) := by
  obtain ⟨hb, hhb, rfl⟩ := hlive
  obtain ⟨hmem, halloc⟩ := mem_lives.mp hhb
  obtain ⟨bs', hfree, hlaid, hfreed⟩ := freeBlocks_spec h.laid hregion hmem halloc nofun
  have hrel := hfreed.released h.laid
  have haddr : hb.payload - sizeofHeapBlock = hb.addr := add_sub_cancel_right _ _
  rw [haddr]
  refine ⟨bs', hfree, hlaid, ?_, withdraw_nodup h.once _, ?_⟩
  · intro q
    rw [mem_withdraw, ← h.live q]
    constructor
    · rintro ⟨x, hx, rfl⟩
      obtain ⟨y, hy, hyx, -, hne⟩ := hrel.old x hx
      exact ⟨⟨y, hy, congrArg (· + sizeofHeapBlock) hyx⟩, fun heq => hne (add_right_cancel heq)⟩
    · rintro ⟨⟨y, hy, rfl⟩, hne⟩
      obtain ⟨x, hx, hxy, -⟩ := hrel.kept y hy fun heq => hne (congrArg (· + sizeofHeapBlock) heq)
      exact ⟨x, hx, congrArg (· + sizeofHeapBlock) hxy⟩
  · intro e he x hx hxe
    obtain ⟨y, hy, hyx, hle, -⟩ := hrel.old x hx
    have := h.large e (List.mem_filter.mp he).1 y hy
      ((congrArg (· + sizeofHeapBlock) hyx).trans hxe)
    omega

/-! ## The calls -/

section
variable (heapStart : ℤ) (bookkeeping : List HeapBlock → ℤ → BitVec 8) {h : Heap}

theorem malloc_spec (hs : Serves first stop h.hBlocks l) (hregion : stop - first < 2 ^ 31)
    {size : BitVec 32} (hcount : Requestable size.toNat) :
    (vmirHeapMalloc heapStart bookkeeping h size = (none, h)
        ∧ ∀ hb ∈ h.hBlocks, hb.hbMagic = .free → hb.hbSize < size.toNat + 39)
      ∨ ∃ p bs, vmirHeapMalloc heapStart bookkeeping h size
          = (some p, ⟨bs, writeHeaders heapStart bookkeeping bs h.mem⟩)
        ∧ Serves first stop bs ((p, size.toNat) :: l) ∧ ¬ Live h.hBlocks p := by
  obtain ⟨hle, hmin⟩ := le_blockSize hcount
  unfold vmirHeapMalloc
  cases hm : mallocBlocks (blockSize size) h.hBlocks with
  | none =>
    refine Or.inl ⟨rfl, fun hb hmem hfree => ?_⟩
    have := mallocBlocks_none hm hb hmem hfree
    have := blockSize_eq hcount
    omega
  | some r => exact Or.inr ⟨r.1, r.2, rfl, hs.take hregion hmin hle hm⟩

theorem free_spec (hs : Serves first stop h.hBlocks l) (hregion : stop - first < 2 ^ 31)
    (hlive : Live h.hBlocks p) : ∃ bs, vmirHeapFree heapStart bookkeeping h p
        = .ok ⟨bs, writeHeaders heapStart bookkeeping bs h.mem⟩
      ∧ Serves first stop bs (withdraw p l) := by
  obtain ⟨bs, hfree, hserves⟩ := hs.free hregion hlive
  refine ⟨bs, ?_, hserves⟩
  unfold vmirHeapFree
  rw [hfree]
  rfl

theorem usable_spec (hs : Serves first stop h.hBlocks l) (hregion : stop - first < 2 ^ 31)
    {hb : HeapBlock} (hmem : hb ∈ lives h.hBlocks) :
    vmirHeapUsableSize h hb.payload = .ok (hb.hbSize - sizeofHeapBlock) := by
  obtain ⟨hbs, halloc⟩ := mem_lives.mp hmem
  have hheader := hs.laid.header hbs
  have hbounds := hs.laid.tiles.bounds hbs
  have hfind : (h.hBlocks.find? fun x => x.payload = hb.payload) = some hb := by
    cases hf : h.hBlocks.find? fun x => x.payload = hb.payload with
    | none =>
      have := List.find?_eq_none.mp hf hb hbs
      exact absurd (decide_eq_true rfl) this
    | some x =>
      have hx : x.payload = hb.payload := by simpa using List.find?_some hf
      rw [Laid.eq_of_payload hs.laid (List.mem_of_find?_eq_some hf) hbs hx]
  unfold vmirHeapUsableSize
  rw [hfind]
  unfold sizeofHeapBlock at hheader ⊢
  change (if hb.hbMagic = .alloc then _ else _) = _
  rw [if_pos halloc, toInt_eq (by omega) (by omega)]

theorem Serves.live_ne_zero (hs : Serves first stop bs l) (hstart : 0 ≤ first) (hlive : Live bs p) :
    p ≠ 0 := by
  obtain ⟨hb, hmem, rfl⟩ := hlive
  have hbounds := hs.laid.tiles.bounds (mem_lives.mp hmem).1
  unfold HeapBlock.payload sizeofHeapBlock
  omega

theorem Serves.resize (hs : Serves first stop bs l) {n : ℕ} {hb : HeapBlock} (hmem : hb ∈ lives bs)
    (hn : n + sizeofHeapBlock ≤ hb.hbSize) :
    Serves first stop bs ((hb.payload, n) :: withdraw hb.payload l) := by
  refine ⟨hs.laid, ?_, ?_, ?_⟩
  · intro q
    rw [List.map_cons, List.mem_cons, mem_withdraw, ← hs.live q]
    constructor
    · intro hq
      by_cases heq : q = hb.payload
      · exact Or.inl heq
      · exact Or.inr ⟨hq, heq⟩
    · rintro (rfl | ⟨hq, -⟩)
      · exact ⟨hb, hmem, rfl⟩
      · exact hq
  · rw [List.map_cons]
    exact List.nodup_cons.mpr ⟨fun hin => (mem_withdraw.mp hin).2 rfl, withdraw_nodup hs.once _⟩
  · intro e he x hx hxe
    rcases List.mem_cons.mp he with rfl | he
    · obtain rfl := Laid.eq_of_payload hs.laid (mem_lives.mp hx).1 (mem_lives.mp hmem).1 hxe
      exact hn
    · exact hs.large e (List.mem_filter.mp he).1 x hx hxe

theorem realloc_spec (hs : Serves first stop h.hBlocks l) (hregion : stop - first < 2 ^ 31)
    (hlive : Live h.hBlocks p) {size : BitVec 32} (hcount : Requestable size.toNat) :
    ∃ r h', vmirHeapRealloc heapStart bookkeeping h (some p) size = .ok (r, h')
      ∧ Serves first stop h'.hBlocks (ledgerAfter l (.realloc p size) r)
      ∧ (r = none → size = 0 ∨ h' = h
        ∧ ∀ hb ∈ h.hBlocks, hb.hbMagic = .free → hb.hbSize < size.toNat + 39) := by
  unfold vmirHeapRealloc
  by_cases hzero : size = 0
  · obtain ⟨bs, hfree, hserves⟩ := free_spec heapStart bookkeeping hs hregion hlive
    rw [if_neg (not_not.mpr hzero)]
    change ∃ r h', (vmirHeapFree heapStart bookkeeping h p >>= _) = _ ∧ _
    rw [hfree]
    refine ⟨none, _, rfl, ?_, fun _ => Or.inl hzero⟩
    change Serves first stop bs (if size = 0 then withdraw p l else l)
    rwa [if_pos hzero]
  · obtain ⟨hb, hmem, rfl⟩ := hlive
    have hsmall : size.toNat + 39 < 2 ^ 31 := hcount
    have hint : size.toInt = size.toNat := BitVec.toInt_eq_toNat_of_lt (by omega)
    rw [if_pos hzero]
    change ∃ r h', (vmirHeapUsableSize h hb.payload >>= _) = _ ∧ _
    rw [usable_spec hs hregion hmem]
    change ∃ r h', (if size.toInt < hb.hbSize - sizeofHeapBlock then _ else _) = _ ∧ _
    by_cases hfits : size.toInt < hb.hbSize - sizeofHeapBlock
    · rw [if_pos hfits]
      exact ⟨some hb.payload, h, rfl, hs.resize hmem (by omega), nofun⟩
    · rw [if_neg hfits]
      rcases malloc_spec heapStart bookkeeping hs hregion hcount with
        ⟨hm, hnone⟩ | ⟨n, bs, hm, hserves, hfresh⟩
      · rw [hm]
        refine ⟨none, h, rfl, ?_, fun _ => Or.inr ⟨rfl, hnone⟩⟩
        change Serves first stop h.hBlocks (if size = 0 then withdraw hb.payload l else l)
        rwa [if_neg hzero]
      · rw [hm]
        have hne : n ≠ hb.payload := fun heq => hfresh ⟨hb, hmem, heq.symm⟩
        have hlive' : Live bs hb.payload := (hserves.live _).mpr
          (List.mem_cons_of_mem _ ((hs.live _).mp ⟨hb, hmem, rfl⟩))
        obtain ⟨bs', hfree, hserves'⟩ := free_spec heapStart bookkeeping
          (h := ⟨bs, memcpy (writeHeaders heapStart bookkeeping bs h.mem)
            n hb.payload (hb.hbSize - sizeofHeapBlock)⟩) hserves hregion hlive'
        change ∃ r h', (vmirHeapFree heapStart bookkeeping _ hb.payload >>= _) = _ ∧ _
        rw [hfree]
        refine ⟨some n, _, rfl, ?_, nofun⟩
        have hw : withdraw hb.payload ((n, size.toNat) :: l)
            = (n, size.toNat) :: withdraw hb.payload l :=
          List.filter_cons_of_pos (decide_eq_true hne)
        rw [hw] at hserves'
        exact hserves'

theorem exec_spec (hs : Serves first stop h.hBlocks l) (hregion : stop - first < 2 ^ 31)
    (hstart : 0 ≤ first) {op : HeapOp} (hallowed : Allowed h.hBlocks op)
    (hcount : Requestable (asked op)) :
    ∃ r h', exec heapStart bookkeeping h op = .ok (r, h')
      ∧ Serves first stop h'.hBlocks (ledgerAfter l op r)
      ∧ (r = none → Releases op ∨ h' = h
        ∧ ∀ hb ∈ h.hBlocks, hb.hbMagic = .free → hb.hbSize < asked op + 39) := by
  cases op with
  | malloc size =>
    rcases malloc_spec heapStart bookkeeping hs hregion hcount with
      ⟨hm, hnone⟩ | ⟨p, bs, hm, hserves, -⟩
    · exact ⟨none, h, congrArg Except.ok hm, hs, fun _ => Or.inr ⟨rfl, hnone⟩⟩
    · exact ⟨some p, _, congrArg Except.ok hm, hserves, nofun⟩
  | calloc nmemb size =>
    have hsmall : nmemb.toNat * size.toNat + 39 < 2 ^ 31 := hcount
    have hprod : (size * nmemb).toNat = nmemb.toNat * size.toNat := by
      rw [BitVec.toNat_mul, Nat.mul_comm, Nat.mod_eq_of_lt (by omega)]
    have hcount' : Requestable (size * nmemb).toNat := hprod ▸ hcount
    unfold exec vmirCalloc
    rcases malloc_spec heapStart bookkeeping hs hregion hcount' with
      ⟨hm, hnone⟩ | ⟨p, bs, hm, hserves, -⟩
    · rw [hprod] at hnone
      simp only [hm]
      exact ⟨none, h, rfl, hs, fun _ => Or.inr ⟨rfl, hnone⟩⟩
    · rw [hprod] at hserves
      simp only [hm]
      exact ⟨some p, _, rfl, hserves, nofun⟩
  | realloc ptr size =>
    change ∃ r h', vmirHeapRealloc heapStart bookkeeping h (if ptr = 0 then none else some ptr) size
      = _ ∧ _
    rw [if_neg (hs.live_ne_zero hstart hallowed)]
    exact realloc_spec heapStart bookkeeping hs hregion hallowed hcount
  | free ptr =>
    obtain ⟨bs, hfree, hserves⟩ := free_spec heapStart bookkeeping hs hregion hallowed
    change ∃ r h', (if ptr = 0 then _ else _) = _ ∧ _
    rw [if_neg (hs.live_ne_zero hstart hallowed), hfree]
    exact ⟨none, _, rfl, hserves, fun _ => Or.inl trivial⟩

end

/-! ## Runs -/

section
variable {heapStart memsize : ℤ} {bookkeeping : List HeapBlock → ℤ → BitVec 8}

theorem init_serves (hregion : Region heapStart memsize) (mem : ℤ → BitVec 8) :
    Serves (heapStart + sizeofHeap) memsize
      (vmirHeapInit heapStart bookkeeping memsize mem).hBlocks [] := by
  obtain ⟨hstart, hroom, hint⟩ := hregion
  unfold sizeofHeap sizeofHeapBlock at hroom
  have hsize : toInt (toInt (memsize - heapStart) - sizeofHeap) = memsize - heapStart - 16 := by
    unfold sizeofHeap
    rw [toInt_eq (n := memsize - heapStart) (by omega) (by omega), toInt_eq (by omega) (by omega)]
  refine ⟨?_, fun p => ⟨fun ⟨hb, hmem, _⟩ => ?_, nofun⟩, List.nodup_nil, nofun⟩
  · refine ⟨rfl, ?_, nofun, ?_⟩
    · change (24 : ℤ) ≤ toInt (toInt (memsize - heapStart) - sizeofHeap)
      omega
    · change heapStart + 16 + toInt (toInt (memsize - heapStart) - sizeofHeap) = memsize
      omega
  · exact absurd hmem List.not_mem_nil

theorem reach_serves (hregion : Region heapStart memsize) {s : Session}
    (hs : Reach heapStart memsize bookkeeping (fun op => Requestable (asked op)) s) :
    Serves (heapStart + sizeofHeap) memsize s.heap.hBlocks s.ledger := by
  have hstart := hregion.start
  have hint := hregion.int
  unfold sizeofHeap
  induction hs with
  | init mem => exact init_serves hregion mem
  | call _ hallowed hok hexec ih =>
    obtain ⟨r, h', hexec', hserves, -⟩ :=
      exec_spec heapStart bookkeeping ih (by omega) (by omega) hallowed hok
    obtain ⟨rfl, rfl⟩ := Prod.ext_iff.mp (Except.ok.inj (hexec.symm.trans hexec'))
    exact hserves
  | guest _ _ ih => exact ⟨ih.laid, ih.live, ih.once, ih.large⟩

/-- A heap of 60 KiB in which the largest request was made. -/
def hugeRequest : Session :=
  ⟨⟨[⟨4112, 32, .alloc⟩, ⟨4144, 61392, .free⟩], fun _ => 0⟩, [(4136, 2 ^ 32 - 1)]⟩

theorem writeHeaders_zero (heapStart : ℤ) (bs : List HeapBlock) :
    writeHeaders heapStart (fun _ _ => 0) bs (fun _ => 0) = fun _ => 0 := by
  funext p
  exact ite_self 0

theorem smallRegion : Region 4096 65536 where
  start := by decide
  room := by decide
  int := by decide

theorem smallHeap_init : vmirHeapInit 4096 (fun _ _ => 0) 65536 (fun _ => 0)
    = ⟨[⟨4112, 61424, .free⟩], fun _ => 0⟩ := by
  have hsize : toInt (toInt (65536 - 4096) - sizeofHeap) = 61424 := by decide
  unfold vmirHeapInit
  simp only [hsize]
  rw [writeHeaders_zero]
  rfl

theorem smallHeap_malloc {ok : HeapOp → Prop} {size : BitVec 32} (hok : ok (.malloc size))
    {bs : List HeapBlock}
    (hm : mallocBlocks (blockSize size) [⟨4112, 61424, .free⟩] = some (4136, bs)) :
    Reach 4096 65536 (fun _ _ => 0) ok ⟨⟨bs, fun _ => 0⟩, [(4136, size.toNat)]⟩ := by
  have hinit : Reach 4096 65536 (fun _ _ => 0) ok
    ⟨vmirHeapInit 4096 (fun _ _ => 0) 65536 fun _ => 0, []⟩ := Reach.init _
  rw [smallHeap_init] at hinit
  refine @Reach.call 4096 65536 _ ok _ hinit (.malloc size) trivial hok (some 4136) _ ?_
  unfold exec vmirHeapMalloc
  simp only [hm]
  rw [writeHeaders_zero]

/-- A request for all but a byte of the address space gets a block of 32 bytes. -/
theorem huge_request_unsafe : ¬ ∀ s, Reach 4096 65536 (fun _ _ => 0) (fun _ => True) s →
    Safe 4096 65536 (fun _ _ => 0) (fun _ => True) s := by
  intro h
  have hreach : Reach 4096 65536 (fun _ _ => 0) (fun _ => True) hugeRequest :=
    @smallHeap_malloc _ 0xffffffff trivial _ (by decide)
  have hlarge := (h hugeRequest hreach).large (4136, 2 ^ 32 - 1) List.mem_cons_self
    ⟨4112, 32, .alloc⟩ List.mem_cons_self rfl
  exact absurd hlarge (by decide)

/-- The heap is safe in every run whose calls are countable. -/
theorem heap_safe (hregion : Region heapStart memsize) {s : Session}
    (hs : Reach heapStart memsize bookkeeping (fun op => Requestable (asked op)) s) :
    Safe heapStart memsize bookkeeping (fun op => Requestable (asked op)) s := by
  have hserves := reach_serves hregion hs
  have hstart := hregion.start
  have hint := hregion.int
  unfold sizeofHeap at hserves
  refine ⟨hserves.laid.tiles, hserves.live, hserves.once, ?_, hserves.laid.lives_pairwise, ?_, ?_⟩
  · intro e he hb hmem hpayload
    have := hserves.large e he hb hmem hpayload
    unfold HeapBlock.payload
    omega
  · intro hb hmem
    have := hserves.laid.tiles.bounds (mem_lives.mp hmem).1
    omega
  · intro op hallowed hok
    obtain ⟨r, h', hexec, -, hnone⟩ :=
      exec_spec heapStart bookkeeping hserves (by omega) (by omega) hallowed hok
    exact ⟨r, h', hexec, hnone⟩

theorem heap_safe_small : Safe 4096 65536 (fun _ _ => 0) (fun op => Requestable (asked op))
    ⟨⟨[⟨4112, 128, .alloc⟩, ⟨4240, 61296, .free⟩], fun _ => 0⟩, [(4136, 100)]⟩ :=
  heap_safe smallRegion (@smallHeap_malloc _ 100 (Nat.lt_of_sub_pos (by decide)) _ (by decide))

end

end Vmir.HeapSafety
