import Vmir.GlobalInit
import Vmir.HeapRealloc

set_option autoImplicit false

/-!
# The arguments of the program

`vmir_argv_copy` of `vmir.c`, with `vmir_mem_copy`, `vmir_mem_strdup` and `vmir_mem_alloc`, on the
first-fit heap, and what `vmir_run` starts the program with.
-/
namespace Vmir.ArgvCopy
open Ir ByteStore GlobalInit FirstFitHeap HeapBlocks HeapSafety HeapReclaim HeapRealloc

structure HostString where
  bytes : List (BitVec 8)
  nonzero : ∀ b ∈ bytes, b ≠ 0

/-- The `strlen(str) + 1` bytes at the string. -/
def HostString.stored (s : HostString) : List (BitVec 8) := s.bytes ++ [0]

section
variable (heapStart : ℤ) (bookkeeping : List HeapBlock → ℤ → BitVec 8)

/-- The address, the host's pointer to it, and the heap. -/
def vmirMemAlloc (h : Heap) (size : BitVec 32) : BitVec 32 × Option ℤ × Heap :=
  match vmirHeapMalloc heapStart bookkeeping h size with
  | (none, h) => (0, none, h)
  | (some p, h) => (BitVec.ofInt 32 p, some p, h)

def vmirMemCopy (h : Heap) (data : List (BitVec 8)) : BitVec 32 × Heap :=
  match vmirMemAlloc heapStart bookkeeping h (BitVec.ofNat 32 data.length) with
  | (addr, none, h) => (addr, h)
  | (addr, some p, h) => (addr, ⟨h.hBlocks, copyBytes h.mem p data⟩)

def vmirMemStrdup (h : Heap) (str : HostString) : BitVec 32 × Heap :=
  vmirMemCopy heapStart bookkeeping h str.stored

/-- The loop, from argument `i` on. The vector is written through the host's pointer to it. -/
def copyStrings (vmArgvHost : Option ℤ) : Heap → ℕ → List HostString → Except Fault Heap
  | h, _, [] => .ok h
  | h, i, s :: argv =>
    let (str, h) := vmirMemStrdup heapStart bookkeeping h s
    match vmArgvHost with
    | none => .error .nullDeref
    | some p => copyStrings vmArgvHost ⟨h.hBlocks, write32 h.mem (p + 4 * i) str⟩ (i + 1) argv

def vmirArgvCopy (h : Heap) (argv : List HostString) : Except Fault (BitVec 32 × Heap) :=
  let (vmArgv, vmArgvHost, h) :=
    vmirMemAlloc heapStart bookkeeping h (BitVec.ofNat 32 ((argv.length + 1) * 4))
  match copyStrings heapStart bookkeeping vmArgvHost h 0 argv with
  | .error e => .error e
  | .ok h => .ok (vmArgv, h)

end

/-! ## What the program gets -/

def Apart (p : ℤ) (n : ℕ) (q : ℤ) (m : ℕ) : Prop := p + n ≤ q ∨ q + m ≤ p

/-- The bytes can be the contents of a block. -/
def InHeap (heapStart memsize : ℤ) (p : ℤ) (n : ℕ) : Prop :=
  heapStart + sizeofHeap + sizeofHeapBlock ≤ p ∧ p + n ≤ memsize

/-- The word `i` of the vector. -/
def word (mem : Bytes) (vec : ℤ) (i : ℕ) : ℕ := readLe mem (vec + 4 * i) 4

/-- The vector at `vec` is that of the arguments. -/
structure ArgvAt (heapStart memsize : ℤ) (mem : Bytes) (vec : ℤ) (argv : List HostString) :
    Prop where
  vector : InHeap heapStart memsize vec ((argv.length + 1) * 4)
  strings : ∀ (i : ℕ) s, argv[i]? = some s →
    InHeap heapStart memsize (word mem vec i) s.stored.length ∧
      ∀ (j : ℕ) b, s.stored[j]? = some b → mem (word mem vec i + j) = b
  distinct : ∀ i k, i < k → k < argv.length → word mem vec i ≠ word mem vec k
  apart : ∀ (i k : ℕ) s t, argv[i]? = some s → argv[k]? = some t → i ≠ k →
    Apart (word mem vec i) s.stored.length (word mem vec k) t.stored.length
  clear : ∀ (i : ℕ) s, argv[i]? = some s →
    Apart (word mem vec i) s.stored.length vec ((argv.length + 1) * 4)
  sentinel : word mem vec argv.length = 0

/-- `vmir_run` starts the program whatever became of the copy, so that the copy has to be right. -/
def StartsRight (heapStart memsize : ℤ) (bookkeeping : List HeapBlock → ℤ → BitVec 8) (h : Heap)
    (argv : List HostString) : Prop :=
  ∃ vec h', vmirArgvCopy heapStart bookkeeping h argv = .ok (vec, h') ∧
    ArgvAt heapStart memsize h'.mem vec.toNat argv

/-- Where a request is placed; one that finds no block leaves the blocks as they are. -/
def placeOne (bs : List HeapBlock) (n : ℕ) : Option ℤ × List HeapBlock :=
  match mallocBlocks (blockSize (BitVec.ofNat 32 n)) bs with
  | none => (none, bs)
  | some (p, bs) => (some p, bs)

def places : List HeapBlock → List ℕ → List (Option ℤ)
  | _, [] => []
  | bs, n :: ns => (placeOne bs n).1 :: places (placeOne bs n).2 ns

def requests (argv : List HostString) : List ℕ :=
  (argv.length + 1) * 4 :: argv.map fun s => s.stored.length

/-- The requests can be counted and are all placed, and the word behind the arguments is zero in the
free memory that becomes the vector. -/
structure Prepared (h : Heap) (argv : List HostString) : Prop where
  countable : ∀ n ∈ requests argv, Requestable n
  placed : ∀ o ∈ places h.hBlocks (requests argv), o ≠ none
  zero : ∀ p, (places h.hBlocks (requests argv)).head? = some (some p) →
    word h.mem p argv.length = 0

/-! ## The ledger -/

section Ledger
variable {heapStart memsize : ℤ} {bookkeeping : List HeapBlock → ℤ → BitVec 8}
  {bs : List HeapBlock} {l : List (ℤ × ℕ)} {p q : ℤ} {n m : ℕ}

theorem entry_block (hs : Serves (heapStart + sizeofHeap) memsize bs l) (he : (p, n) ∈ l) :
    ∃ hb ∈ lives bs, hb.payload = p ∧ n + sizeofHeapBlock ≤ hb.hbSize := by
  obtain ⟨hb, hmem, hpayload⟩ := (hs.live p).mpr (List.mem_map_of_mem he)
  exact ⟨hb, hmem, hpayload, hs.large _ he hb hmem hpayload⟩

theorem entry_inHeap (hs : Serves (heapStart + sizeofHeap) memsize bs l) (he : (p, n) ∈ l) :
    InHeap heapStart memsize p n := by
  obtain ⟨hb, hmem, hpayload, hsize⟩ := entry_block hs he
  have hbounds := hs.laid.tiles.bounds (mem_lives.mp hmem).1
  unfold HeapBlock.payload at hpayload
  unfold InHeap
  omega

def Beside (x y : HeapBlock) : Prop :=
  x.addr + x.hbSize ≤ y.addr ∨ y.addr + y.hbSize ≤ x.addr

instance : Std.Symm Beside := ⟨fun _ _ h => Or.symm h⟩

theorem entry_apart (hs : Serves (heapStart + sizeofHeap) memsize bs l) (hp : (p, n) ∈ l)
    (hq : (q, m) ∈ l) (hne : p ≠ q) : Apart p n q m := by
  obtain ⟨x, hx, hxp, hxsize⟩ := entry_block hs hp
  obtain ⟨y, hy, hyq, hysize⟩ := entry_block hs hq
  have hxy : x ≠ y := by
    rintro rfl
    exact hne (hxp.symm.trans hyq)
  have hpair : (lives bs).Pairwise Beside := hs.laid.lives_pairwise.imp Or.inl
  have hbeside := hpair.forall hx hy hxy
  unfold Beside at hbeside
  unfold HeapBlock.payload at hxp hyq
  unfold Apart sizeofHeapBlock at *
  omega

theorem entry_kept (hs : Serves (heapStart + sizeofHeap) memsize bs l) (he : (p, n) ∈ l)
    (mem : Bytes) {a : ℤ} (ha1 : p ≤ a) (ha2 : a < p + n) :
    writeHeaders heapStart bookkeeping bs mem a = mem a := by
  obtain ⟨hb, hmem, hpayload, hsize⟩ := entry_block hs he
  apply writeHeaders_payload hs.laid (mem_lives.mp hmem).1
  · omega
  · unfold HeapBlock.payload at hpayload
    omega

end Ledger

/-! ## The loop -/

theorem copyBytes_inside (mem : Bytes) (a : ℤ) (bs : List (BitVec 8)) {j : ℕ} {b : BitVec 8}
    (hj : bs[j]? = some b) : copyBytes mem a bs (a + j) = b := by
  obtain ⟨hlt, hget⟩ := List.getElem?_eq_some_iff.mp hj
  unfold copyBytes
  rw [if_pos (by omega), add_sub_cancel_left, Int.toNat_natCast, List.getD_eq_getElem?_getD, hj]
  rfl

theorem copyBytes_outside (mem : Bytes) (a : ℤ) (bs : List (BitVec 8)) {x : ℤ}
    (hx : x < a ∨ a + bs.length ≤ x) : copyBytes mem a bs x = mem x :=
  if_neg (by omega)

/-- The number that is written for what a request gave. -/
def addressOf (o : Option ℤ) : ℤ := o.getD 0

/-- Some arguments are copied: what each request gave, with the string it was for. -/
structure Copying (heapStart memsize vec : ℤ) (argc : ℕ) (mem₀ : Bytes)
    (done : List (Option ℤ × HostString)) (h : Heap) (l : List (ℤ × ℕ)) : Prop where
  serves : Serves (heapStart + sizeofHeap) memsize h.hBlocks l
  vector : (vec, (argc + 1) * 4) ∈ l
  room : done.length ≤ argc
  entries : ∀ (i : ℕ) p s, done[i]? = some (some p, s) → (p, s.stored.length) ∈ l ∧ p ≠ vec
  distinct : ∀ (i k : ℕ) p q s t, done[i]? = some (some p, s) → done[k]? = some (some q, t) →
    i ≠ k → p ≠ q
  contents : ∀ (i : ℕ) p s, done[i]? = some (some p, s) → ∀ (j : ℕ) b, s.stored[j]? = some b →
    h.mem (p + j) = b
  words : ∀ (i : ℕ) o s, done[i]? = some (o, s) → (word h.mem vec i : ℤ) = addressOf o
  sentinel : word h.mem vec argc = word mem₀ vec argc

section Loop
variable {heapStart memsize : ℤ} {bookkeeping : List HeapBlock → ℤ → BitVec 8} {vec : ℤ} {argc : ℕ}
  {mem₀ : Bytes} {done : List (Option ℤ × HostString)} {h : Heap} {l : List (ℤ × ℕ)}

theorem getElem?_concat {α : Type} {xs : List α} {x y : α} {i : ℕ}
    (h : (xs ++ [x])[i]? = some y) : xs[i]? = some y ∨ i = xs.length ∧ y = x := by
  rcases Nat.lt_trichotomy i xs.length with hlt | heq | hgt
  · rw [List.getElem?_append_left hlt] at h
    exact .inl h
  · subst heq
    rw [List.getElem?_concat_length] at h
    exact .inr ⟨rfl, (Option.some.inj h).symm⟩
  · rw [List.getElem?_eq_none (by rw [List.length_append, List.length_singleton]; omega)] at h
    cases h

theorem word_write (mem : Bytes) (vec : ℤ) {i k : ℕ} (hne : i ≠ k) (v : BitVec 32) :
    word (write32 mem (vec + 4 * i) v) vec k = word mem vec k :=
  readLe_writeLe_disjoint (by omega)

theorem word_write_same (mem : Bytes) (vec : ℤ) (i : ℕ) (v : BitVec 32) :
    word (write32 mem (vec + 4 * i) v) vec i = v.toNat := by
  unfold word write32
  rw [readLe_writeLe_same]
  exact Nat.mod_eq_of_lt v.isLt

theorem Copying.write (hc : Copying heapStart memsize vec argc mem₀ done h l) {o : Option ℤ}
    {s : HostString} (hlt : done.length < argc)
    (hentry : ∀ p, o = some p → (p, s.stored.length) ∈ l ∧ p ≠ vec)
    (hfresh : ∀ p, o = some p → ∀ (i : ℕ) q t, done[i]? = some (some q, t) → q ≠ p)
    (hbytes : ∀ p, o = some p → ∀ (j : ℕ) b, s.stored[j]? = some b → h.mem (p + j) = b)
    {v : BitVec 32} (hv : (v.toNat : ℤ) = addressOf o) :
    Copying heapStart memsize vec argc mem₀ (done ++ [(o, s)])
      ⟨h.hBlocks, write32 h.mem (vec + 4 * done.length) v⟩ l := by
  have hentries : ∀ (i : ℕ) p t, (done ++ [(o, s)])[i]? = some (some p, t) →
      (p, t.stored.length) ∈ l ∧ p ≠ vec := by
    intro i p t hget
    cases getElem?_concat hget with
    | inl hold => exact hc.entries i p t hold
    | inr hnew =>
      obtain ⟨-, heq⟩ := hnew
      cases heq
      exact hentry p rfl
  -- the strings are apart from the vector
  have hkeep : ∀ p n, (p, n) ∈ l → p ≠ vec → ∀ a, p ≤ a → a < p + n →
      write32 h.mem (vec + 4 * done.length) v a = h.mem a := by
    intro p n hin hne a ha1 ha2
    have hapart := entry_apart hc.serves hin hc.vector hne
    unfold Apart at hapart
    exact writeLe_of_not_mem (by omega)
  refine ⟨hc.serves, hc.vector, ?_, hentries, ?_, ?_, ?_, ?_⟩
  · rw [List.length_append, List.length_singleton]
    exact hlt
  · intro i k p q t u hi hk hne
    cases getElem?_concat hi with
    | inl hold =>
      cases getElem?_concat hk with
      | inl hold' => exact hc.distinct i k p q t u hold hold' hne
      | inr hnew' =>
        obtain ⟨-, heq⟩ := hnew'
        cases heq
        exact hfresh q rfl i p t hold
    | inr hnew =>
      obtain ⟨hi', heq⟩ := hnew
      cases heq
      cases getElem?_concat hk with
      | inl hold' => exact (hfresh p rfl k q u hold').symm
      | inr hnew' => exact absurd (hi'.trans hnew'.1.symm) hne
  · intro i p t hget j b hb
    obtain ⟨hin, hne⟩ := hentries i p t hget
    have hj := (List.getElem?_eq_some_iff.mp hb).1
    change write32 h.mem (vec + 4 * done.length) v (p + j) = b
    rw [hkeep p _ hin hne _ (by omega) (by omega)]
    cases getElem?_concat hget with
    | inl hold => exact hc.contents i p t hold j b hb
    | inr hnew =>
      obtain ⟨-, heq⟩ := hnew
      cases heq
      exact hbytes p rfl j b hb
  · intro i o' t hget
    cases getElem?_concat hget with
    | inl hold =>
      have hi := (List.getElem?_eq_some_iff.mp hold).1
      rw [word_write h.mem vec (by omega) v]
      exact hc.words i o' t hold
    | inr hnew =>
      obtain ⟨hi, heq⟩ := hnew
      cases heq
      rw [hi, word_write_same]
      exact hv
  · rw [word_write h.mem vec (by omega) v]
    exact hc.sentinel

theorem Copying.keep (hc : Copying heapStart memsize vec argc mem₀ done h l) {h' : Heap}
    {l' : List (ℤ × ℕ)} (hs : Serves (heapStart + sizeofHeap) memsize h'.hBlocks l')
    (hsub : ∀ e ∈ l, e ∈ l')
    (hbytes : ∀ p n, (p, n) ∈ l → ∀ a, p ≤ a → a < p + n → h'.mem a = h.mem a) :
    Copying heapStart memsize vec argc mem₀ done h' l' := by
  have hwords : ∀ i, i < argc + 1 → word h'.mem vec i = word h.mem vec i := by
    intro i hi
    apply readLe_congr
    intro a ha1 ha2
    exact hbytes vec _ hc.vector a (by omega) (by push_cast; omega)
  refine ⟨hs, hsub _ hc.vector, hc.room, ?_, hc.distinct, ?_, ?_, ?_⟩
  · intro i p s hget
    obtain ⟨hin, hne⟩ := hc.entries i p s hget
    exact ⟨hsub _ hin, hne⟩
  · intro i p s hget j b hb
    have hj := (List.getElem?_eq_some_iff.mp hb).1
    rw [hbytes p _ (hc.entries i p s hget).1 _ (by omega) (by omega)]
    exact hc.contents i p s hget j b hb
  · intro i o s hget
    have hi := (List.getElem?_eq_some_iff.mp hget).1
    have hroom := hc.room
    rw [hwords i (by omega)]
    exact hc.words i o s hget
  · rw [hwords argc (by omega)]
    exact hc.sentinel

theorem mallocBlocks_placeOne (h : Heap) (n : ℕ) :
    vmirHeapMalloc heapStart bookkeeping h (BitVec.ofNat 32 n)
      = ((placeOne h.hBlocks n).1, ⟨(placeOne h.hBlocks n).2,
          if (placeOne h.hBlocks n).1 = none then h.mem
          else writeHeaders heapStart bookkeeping (placeOne h.hBlocks n).2 h.mem⟩) := by
  unfold vmirHeapMalloc placeOne
  cases mallocBlocks (blockSize (BitVec.ofNat 32 n)) h.hBlocks with
  | none => rfl
  | some r => rfl

theorem placeOne_serves (hregion : Region heapStart memsize)
    (hs : Serves (heapStart + sizeofHeap) memsize h.hBlocks l) {n : ℕ} (hn : Requestable n)
    {p : ℤ} (hp : (placeOne h.hBlocks n).1 = some p) :
    Serves (heapStart + sizeofHeap) memsize (placeOne h.hBlocks n).2 ((p, n) :: l) ∧
      ∀ e ∈ l, e.1 ≠ p := by
  have hstart := hregion.start
  have hint := hregion.int
  have hsize : (BitVec.ofNat 32 n).toNat = n := by
    unfold Requestable at hn
    rw [BitVec.toNat_ofNat]
    omega
  have hn' : Requestable (BitVec.ofNat 32 n).toNat := by rwa [hsize]
  have hlt : memsize - (heapStart + sizeofHeap) < 2 ^ 31 := by
    unfold sizeofHeap
    omega
  unfold placeOne at hp ⊢
  cases hm : mallocBlocks (blockSize (BitVec.ofNat 32 n)) h.hBlocks with
  | none =>
    rw [hm] at hp
    cases hp
  | some r =>
    rw [hm] at hp
    cases hp
    obtain ⟨hle, hmin⟩ := le_blockSize hn'
    rw [hsize] at hle
    obtain ⟨hserves, hfresh⟩ := hs.take hlt hmin hle hm
    refine ⟨hserves, fun e he heq => hfresh ?_⟩
    rw [← heq]
    exact (hs.live e.1).mpr (List.mem_map_of_mem he)

theorem toNat_address (hregion : Region heapStart memsize) (hmemsize : memsize < 2 ^ 32) {p : ℤ}
    {n : ℕ} (h : InHeap heapStart memsize p n) : ((BitVec.ofInt 32 p).toNat : ℤ) = p := by
  have hstart := hregion.start
  unfold InHeap sizeofHeap sizeofHeapBlock at h
  rw [BitVec.toNat_ofInt]
  change ((p % 2 ^ 32).toNat : ℤ) = p
  omega

variable (bookkeeping) in
theorem vmirMemStrdup_copying (hregion : Region heapStart memsize) (hmemsize : memsize < 2 ^ 32)
    (hc : Copying heapStart memsize vec argc mem₀ done h l) (s : HostString)
    (hn : Requestable s.stored.length) :
    ∃ v h' l', vmirMemStrdup heapStart bookkeeping h s = (v, h') ∧
      h'.hBlocks = (placeOne h.hBlocks s.stored.length).2 ∧
      Copying heapStart memsize vec argc mem₀ done h' l' ∧
      (v.toNat : ℤ) = addressOf (placeOne h.hBlocks s.stored.length).1 ∧
      ∀ p, (placeOne h.hBlocks s.stored.length).1 = some p →
        ((p, s.stored.length) ∈ l' ∧ p ≠ vec) ∧
        (∀ (i : ℕ) q t, done[i]? = some (some q, t) → q ≠ p) ∧
        ∀ (j : ℕ) b, s.stored[j]? = some b → h'.mem (p + j) = b := by
  unfold vmirMemStrdup vmirMemCopy vmirMemAlloc
  rw [mallocBlocks_placeOne]
  cases hp : (placeOne h.hBlocks s.stored.length).1 with
  | none =>
    have hblocks : (placeOne h.hBlocks s.stored.length).2 = h.hBlocks := by
      unfold placeOne at hp ⊢
      cases hm : mallocBlocks (blockSize (BitVec.ofNat 32 s.stored.length)) h.hBlocks with
      | none => rfl
      | some r =>
        rw [hm] at hp
        cases hp
    refine ⟨0, _, l, rfl, rfl, ?_, rfl, nofun⟩
    rw [hblocks]
    exact hc
  | some p =>
    obtain ⟨hserves, hfresh⟩ := placeOne_serves hregion hc.serves hn hp
    have hin : (p, s.stored.length) ∈ (p, s.stored.length) :: l := List.mem_cons_self
    refine ⟨BitVec.ofInt 32 p, _, (p, s.stored.length) :: l, rfl, rfl, ?_, ?_, ?_⟩
    · apply hc.keep hserves (fun e he => List.mem_cons_of_mem _ he)
      intro q n hq a ha1 ha2
      have hapart := entry_apart hserves (List.mem_cons_of_mem _ hq) hin (hfresh _ hq)
      unfold Apart at hapart
      change copyBytes _ p s.stored a = h.mem a
      rw [copyBytes_outside _ _ _ (by omega), if_neg nofun]
      exact entry_kept hserves (List.mem_cons_of_mem _ hq) h.mem ha1 ha2
    · exact toNat_address hregion hmemsize (entry_inHeap hserves hin)
    · intro q hq
      cases hq
      refine ⟨⟨hin, (hfresh _ hc.vector).symm⟩,
        fun i q t hget => hfresh _ (hc.entries i q t hget).1,
        fun j b hb => copyBytes_inside _ p s.stored hb⟩

variable (bookkeeping) in
theorem copyStrings_copying (hregion : Region heapStart memsize) (hmemsize : memsize < 2 ^ 32)
    (argv : List HostString) (hn : ∀ s ∈ argv, Requestable s.stored.length)
    (hc : Copying heapStart memsize vec argc mem₀ done h l)
    (hargc : done.length + argv.length = argc) :
    ∃ h' l', copyStrings heapStart bookkeeping (some vec) h done.length argv = .ok h' ∧
      Copying heapStart memsize vec argc mem₀
        (done ++ (places h.hBlocks (argv.map fun s => s.stored.length)).zip argv) h' l' := by
  induction argv generalizing done h l with
  | nil =>
    refine ⟨h, l, rfl, ?_⟩
    rw [List.zip_nil_right, List.append_nil]
    exact hc
  | cons s argv ih =>
    rw [List.length_cons] at hargc
    obtain ⟨v, h₁, l₁, hdup, hblocks, hc₁, hv, hplace⟩ :=
      vmirMemStrdup_copying bookkeeping hregion hmemsize hc s
        (hn s List.mem_cons_self)
    have hwrite := hc₁.write (by omega) (fun p hp => (hplace p hp).1)
      (fun p hp => (hplace p hp).2.1) (fun p hp => (hplace p hp).2.2) hv
    obtain ⟨h', l', hrest, hc'⟩ := ih (fun t ht => hn t (List.mem_cons_of_mem s ht)) hwrite (by
      rw [List.length_append, List.length_singleton]
      omega)
    refine ⟨h', l', ?_, ?_⟩
    · rw [List.length_append, List.length_singleton] at hrest
      unfold copyStrings
      rw [hdup]
      exact hrest
    · rw [List.map_cons]
      unfold places
      rw [List.zip_cons_cons, ← hblocks]
      rw [List.append_assoc] at hc'
      exact hc'

end Loop

/-! ## The copy -/

section Copy
variable {heapStart memsize : ℤ} {bookkeeping : List HeapBlock → ℤ → BitVec 8} {h : Heap}
  {l : List (ℤ × ℕ)} {argv : List HostString}

theorem length_places (bs : List HeapBlock) (ns : List ℕ) : (places bs ns).length = ns.length := by
  induction ns generalizing bs with
  | nil => rfl
  | cons n ns ih =>
    unfold places
    rw [List.length_cons, List.length_cons, ih]

def stringPlaces (h : Heap) (argv : List HostString) : List (Option ℤ) :=
  places (placeOne h.hBlocks ((argv.length + 1) * 4)).2 (argv.map fun s => s.stored.length)

theorem places_requests (h : Heap) (argv : List HostString) :
    places h.hBlocks (requests argv)
      = (placeOne h.hBlocks ((argv.length + 1) * 4)).1 :: stringPlaces h argv := rfl

variable (bookkeeping) in
theorem vmirArgvCopy_copying (hregion : Region heapStart memsize) (hmemsize : memsize < 2 ^ 32)
    (hs : Serves (heapStart + sizeofHeap) memsize h.hBlocks l)
    (hn : ∀ n ∈ requests argv, Requestable n) {vec : ℤ}
    (hvec : (placeOne h.hBlocks ((argv.length + 1) * 4)).1 = some vec) :
    ∃ h' l', vmirArgvCopy heapStart bookkeeping h argv = .ok (BitVec.ofInt 32 vec, h') ∧
      Copying heapStart memsize vec argv.length h.mem ((stringPlaces h argv).zip argv) h' l' := by
  obtain ⟨hserves, -⟩ := placeOne_serves hregion hs (hn _ List.mem_cons_self) hvec
  have hin : (vec, (argv.length + 1) * 4) ∈ (vec, (argv.length + 1) * 4) :: l :=
    List.mem_cons_self
  have hstart : Copying heapStart memsize vec argv.length h.mem []
      ⟨(placeOne h.hBlocks ((argv.length + 1) * 4)).2,
        writeHeaders heapStart bookkeeping (placeOne h.hBlocks ((argv.length + 1) * 4)).2 h.mem⟩
      ((vec, (argv.length + 1) * 4) :: l) := by
    refine ⟨hserves, hin, Nat.zero_le _, nofun, nofun, nofun, nofun, ?_⟩
    apply readLe_congr
    intro a ha1 ha2
    exact entry_kept hserves hin h.mem (by omega) (by push_cast; omega)
  obtain ⟨h', l', hrun, hc⟩ := copyStrings_copying bookkeeping hregion hmemsize
    argv (fun s hs => hn _ (List.mem_cons_of_mem _ (List.mem_map_of_mem hs))) hstart
    (Nat.zero_add _)
  refine ⟨h', l', ?_, hc⟩
  unfold vmirArgvCopy vmirMemAlloc
  rw [mallocBlocks_placeOne, hvec, if_neg nofun]
  change (match copyStrings heapStart bookkeeping (some vec) _ 0 argv with
    | .error e => Except.error e
    | .ok h => Except.ok (BitVec.ofInt 32 vec, h)) = _
  rw [show (0 : ℕ) = ([] : List (Option ℤ × HostString)).length from rfl, hrun]

/-- Without a block for the vector its words are written through a null pointer, and there is none
when there are no arguments. -/
theorem vmirArgvCopy_unplaced (hvec : (placeOne h.hBlocks ((argv.length + 1) * 4)).1 = none)
    {vec : BitVec 32} {h' : Heap}
    (hrun : vmirArgvCopy heapStart bookkeeping h argv = .ok (vec, h')) : vec = 0 := by
  unfold vmirArgvCopy vmirMemAlloc at hrun
  rw [mallocBlocks_placeOne, hvec] at hrun
  cases argv with
  | nil =>
    cases hrun
    rfl
  | cons s argv => cases hrun

theorem zip_get {i : ℕ} {s : HostString} (hi : argv[i]? = some s) :
    ∃ o, ((stringPlaces h argv).zip argv)[i]? = some (o, s) ∧ o ∈ stringPlaces h argv := by
  have hlt := (List.getElem?_eq_some_iff.mp hi).1
  have hlength : (stringPlaces h argv).length = argv.length := by
    unfold stringPlaces
    rw [length_places, List.length_map]
  have hget := List.getElem?_eq_getElem (l := stringPlaces h argv) (i := i) (by omega)
  exact ⟨_, List.getElem?_zip_eq_some.mpr ⟨hget, hi⟩, List.getElem_mem _⟩

theorem Copying.argvAt {vec : ℤ} {mem₀ : Bytes} {h' : Heap} {l' : List (ℤ × ℕ)}
    (hc : Copying heapStart memsize vec argv.length mem₀ ((stringPlaces h argv).zip argv) h' l')
    (hplaced : ∀ o ∈ stringPlaces h argv, o ≠ none) (hzero : word mem₀ vec argv.length = 0) :
    ArgvAt heapStart memsize h'.mem vec argv := by
  have hget : ∀ (i : ℕ) s, argv[i]? = some s → ∃ p,
      ((stringPlaces h argv).zip argv)[i]? = some (some p, s) ∧ (word h'.mem vec i : ℤ) = p := by
    intro i s hi
    obtain ⟨o, hzip, hmem⟩ := zip_get (h := h) hi
    obtain ⟨p, rfl⟩ := Option.ne_none_iff_exists'.mp (hplaced o hmem)
    exact ⟨p, hzip, hc.words i (some p) s hzip⟩
  refine ⟨entry_inHeap hc.serves hc.vector, ?_, ?_, ?_, ?_, hc.sentinel.trans hzero⟩
  · intro i s hi
    obtain ⟨p, hzip, hword⟩ := hget i s hi
    rw [hword]
    exact ⟨entry_inHeap hc.serves (hc.entries i p s hzip).1, hc.contents i p s hzip⟩
  · intro i k hik hk heq
    obtain ⟨p, hzip, hword⟩ := hget i _ (List.getElem?_eq_getElem (by omega))
    obtain ⟨q, hzip', hword'⟩ := hget k _ (List.getElem?_eq_getElem hk)
    apply hc.distinct i k p q _ _ hzip hzip' (by omega)
    omega
  · intro i k s t hi hk hne
    obtain ⟨p, hzip, hword⟩ := hget i s hi
    obtain ⟨q, hzip', hword'⟩ := hget k t hk
    rw [hword, hword']
    exact entry_apart hc.serves (hc.entries i p s hzip).1 (hc.entries k q t hzip').1
      (hc.distinct i k p q s t hzip hzip' hne)
  · intro i s hi
    obtain ⟨p, hzip, hword⟩ := hget i s hi
    rw [hword]
    obtain ⟨hin, hne⟩ := hc.entries i p s hzip
    exact entry_apart hc.serves hin hc.vector hne

theorem requestable_of_inHeap (hregion : Region heapStart memsize) {p : ℤ} {n : ℕ}
    (h : InHeap heapStart memsize p n) : Requestable n := by
  have hint := hregion.int
  unfold InHeap sizeofHeap sizeofHeapBlock at h
  unfold Requestable
  omega

theorem not_inHeap_zero (hregion : Region heapStart memsize) (n : ℕ) :
    ¬ InHeap heapStart memsize 0 n := by
  have hstart := hregion.start
  unfold InHeap sizeofHeap sizeofHeapBlock
  omega

theorem countable_of_argvAt (hregion : Region heapStart memsize) {mem : Bytes} {vec : ℤ}
    (ha : ArgvAt heapStart memsize mem vec argv) : ∀ n ∈ requests argv, Requestable n := by
  intro n hn
  cases List.mem_cons.mp hn with
  | inl heq =>
    rw [heq]
    exact requestable_of_inHeap hregion ha.vector
  | inr hmem =>
    obtain ⟨s, hs, rfl⟩ := List.mem_map.mp hmem
    obtain ⟨i, hi⟩ := List.mem_iff_getElem?.mp hs
    exact requestable_of_inHeap hregion (ha.strings i s hi).1

theorem startsRight_iff_of_serves (hregion : Region heapStart memsize) (hmemsize : memsize < 2 ^ 32)
    (hs : Serves (heapStart + sizeofHeap) memsize h.hBlocks l) (argv : List HostString) :
    StartsRight heapStart memsize bookkeeping h argv ↔ Prepared h argv := by
  constructor
  · rintro ⟨vec, h', hrun, ha⟩
    have hn := countable_of_argvAt hregion ha
    cases hvec : (placeOne h.hBlocks ((argv.length + 1) * 4)).1 with
    | none =>
      have hzero := vmirArgvCopy_unplaced hvec hrun
      rw [hzero] at ha
      exact absurd ha.vector (not_inHeap_zero hregion _)
    | some p =>
      obtain ⟨h'', l'', hrun', hc⟩ := vmirArgvCopy_copying bookkeeping hregion
        hmemsize hs hn hvec
      rw [hrun'] at hrun
      cases hrun
      have haddress := toNat_address hregion hmemsize (entry_inHeap hc.serves hc.vector)
      rw [haddress] at ha
      refine ⟨hn, ?_, ?_⟩
      · rw [places_requests, hvec]
        intro o ho
        cases List.mem_cons.mp ho with
        | inl heq =>
          rw [heq]
          exact nofun
        | inr hmem =>
          rintro rfl
          obtain ⟨i, hi⟩ := List.mem_iff_getElem?.mp hmem
          have hlt : i < argv.length := by
            have hlt := (List.getElem?_eq_some_iff.mp hi).1
            unfold stringPlaces at hlt
            rwa [length_places, List.length_map] at hlt
          have hget := List.getElem?_eq_getElem hlt
          have hword := hc.words i none _ (List.getElem?_zip_eq_some.mpr ⟨hi, hget⟩)
          have hin := (ha.strings i _ hget).1
          rw [hword] at hin
          exact not_inHeap_zero hregion _ hin
      · rw [places_requests, hvec]
        intro q hq
        cases hq
        exact hc.sentinel.symm.trans ha.sentinel
  · intro hp
    have hplaced := hp.placed
    have hzero := hp.zero
    rw [places_requests] at hplaced hzero
    obtain ⟨vec, hvec⟩ := Option.ne_none_iff_exists'.mp (hplaced _ List.mem_cons_self)
    rw [hvec] at hzero
    obtain ⟨h', l', hrun, hc⟩ := vmirArgvCopy_copying bookkeeping hregion hmemsize
      hs hp.countable hvec
    refine ⟨_, h', hrun, ?_⟩
    rw [toNat_address hregion hmemsize (entry_inHeap hc.serves hc.vector)]
    exact hc.argvAt (fun o ho => hplaced o (List.mem_cons_of_mem _ ho)) (hzero vec rfl)

/-- In a heap of 60 KiB whose free memory is not zero, the vector of no arguments is placed but does
not end. -/
theorem stale_word_ends_vector :
    Reach 4096 65536 (fun _ _ => 0) (fun op => Requestable (asked op))
        ⟨⟨[⟨4112, 61424, .free⟩], fun _ => 0⟩, []⟩ ∧
      (∀ o ∈ places [⟨4112, 61424, .free⟩] (requests []), o ≠ none) ∧
      ¬ StartsRight 4096 65536 (fun _ _ => 0) ⟨[⟨4112, 61424, .free⟩], fun _ => 1⟩ [] := by
  have hreach : Reach 4096 65536 (fun _ _ => 0) (fun op => Requestable (asked op))
      ⟨vmirHeapInit 4096 (fun _ _ => 0) 65536 fun _ => 0, []⟩ := Reach.init _
  rw [smallHeap_init] at hreach
  refine ⟨hreach, by decide, fun hright => ?_⟩
  have hserves := reach_serves smallRegion hreach
  have hprepared := (startsRight_iff_of_serves
    (h := ⟨[⟨4112, 61424, .free⟩], fun _ => 1⟩) smallRegion (by decide) hserves []).mp hright
  exact absurd (hprepared.zero 4136 (by decide)) (by decide)

/-- In every heap that was reached by requests that can be counted, with any contents of its free
memory and of its blocks, the program gets its arguments if and only if they are prepared for. -/
theorem startsRight_iff (hregion : Region heapStart memsize) (hmemsize : memsize < 2 ^ 32)
    {s : Session} (hs : Reach heapStart memsize bookkeeping (fun op => Requestable (asked op)) s)
    (mem : Bytes) (argv : List HostString) :
    StartsRight heapStart memsize bookkeeping ⟨s.heap.hBlocks, mem⟩ argv
      ↔ Prepared ⟨s.heap.hBlocks, mem⟩ argv :=
  startsRight_iff_of_serves (h := ⟨s.heap.hBlocks, mem⟩) hregion hmemsize (reach_serves hregion hs)
    argv

theorem startsRight_iff_letter :
    StartsRight 4096 65536 (fun _ _ => 0)
        ⟨(vmirHeapInit 4096 (fun _ _ => 0) 65536 fun _ => 0).hBlocks, fun _ => 0⟩
        [⟨[97], by decide⟩]
      ↔ Prepared ⟨(vmirHeapInit 4096 (fun _ _ => 0) 65536 fun _ => 0).hBlocks, fun _ => 0⟩
        [⟨[97], by decide⟩] :=
  startsRight_iff (s := ⟨vmirHeapInit 4096 (fun _ _ => 0) 65536 fun _ => 0, []⟩) smallRegion
    (by decide) (Reach.init _) (fun _ => 0) [⟨[97], by decide⟩]

end Copy

end Vmir.ArgvCopy
