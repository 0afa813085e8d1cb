import Vmir.TlsfRuns
import Vmir.TlsfUsage

set_option autoImplicit false

/-!
# The heap of a unit over TLSF

`tlsf.c` keeps what `TlsfUsage.Correct` asks of the allocator as long as no block is reallocated to more
than `2 ^ 32 - 2 ^ 26` bytes, which a negative `int` is. With it, `vmir_heap_malloc`, `vmir_heap_free` and
`vmir_heap_realloc` count what is live.
-/
namespace Vmir.TlsfHeapUsage
open Tlsf TlsfHeaders TlsfRows TlsfPool TlsfInterface TlsfCalls TlsfRealloc TlsfCreate TlsfRuns

/-! ## The row of a pool -/

section
variable {m : Mem} {p : Bool} {a : ℕ} {bs bs' : List Blk}

theorem tag_inj {n k : ℕ} {f g q r : Bool} (hn : n % 4 = 0) (hk : k % 4 = 0)
    (h : tag n f q = tag k g r) : n = k ∧ f = g := by
  have hsize := congrArg (fun w => 4 * (w / 4)) h
  have hflags := congrArg (· % 4) h
  rw [tag_div hn, tag_div hk] at hsize
  rw [tag_mod hn, tag_mod hk] at hflags
  refine ⟨hsize, ?_⟩
  revert hflags
  cases f <;> cases g <;> cases q <;> cases r <;> decide

theorem row_unique (h : Row m p a bs) (h' : Row m p a bs') : bs = bs' := by
  induction bs generalizing p a bs' with
  | nil =>
    cases bs' with
    | nil => rfl
    | cons b bs' =>
      obtain ⟨hword, ⟨hlarge, h8⟩, -⟩ := row_cons.mp h'
      have := (tag_inj rfl (by omega) (h.2.symm.trans hword)).1
      omega
  | cons b bs ih =>
    obtain ⟨hword, ⟨hlarge, h8⟩, -, hrest⟩ := row_cons.mp h
    cases bs' with
    | nil =>
      have := (tag_inj rfl (by omega) (h'.2.symm.trans hword)).1
      omega
    | cons b' bs' =>
      obtain ⟨hword', ⟨-, h8'⟩, -, hrest'⟩ := row_cons.mp h'
      obtain ⟨hsize, hfree⟩ := tag_inj (by omega) (by omega) (hword.symm.trans hword')
      rw [← hsize, ← hfree] at hrest'
      rw [ih hrest hrest', show b = b' from by
        cases b
        cases b'
        exact congrArg₂ Blk.mk hsize hfree]

end

def Good : Type := { s : Pool // ∃ bs, Inv s bs }

noncomputable def Good.row (s : Good) : List Blk := s.2.choose

theorem Good.inv (s : Good) : Inv s.1 s.row := s.2.choose_spec

noncomputable def Good.live (s : Good) : Finset ℕ := ((used s.1 s.row).map fun b => b.1 + 16).toFinset

theorem Good.row_eq {s : Good} {bs : List Blk} (h : Inv s.1 bs) : s.row = bs :=
  row_unique s.inv.mid.row h.mid.row

theorem mem_live {s : Good} {bs : List Blk} (h : Inv s.1 bs) {x : ℕ} :
    x ∈ s.live ↔ ∃ y n, (y, n) ∈ used s.1 bs ∧ x = y + 16 := by
  unfold Good.live
  rw [List.mem_toFinset, List.mem_map, Good.row_eq h]
  constructor
  · rintro ⟨⟨y, n⟩, hmem, rfl⟩
    exact ⟨y, n, hmem, rfl⟩
  · rintro ⟨y, n, hmem, rfl⟩
    exact ⟨(y, n), hmem, rfl⟩

/-! ## The allocator -/

def pointer (p : ℕ) : Option ℕ := if p = 0 then none else some p

def blockSizeOf (s : Pool) (p : Option ℕ) : BitVec 64 := BitVec.ofNat 64 (tlsfBlockSize s (p.getD 0))

def answer : Except Fault (Pool × ℕ) → Option ℕ × Except Fault Pool
  | .ok (s, p) => (pointer p, .ok s)
  | .error fault => (none, .error fault)

/-- The functions of `tlsf.c`; nothing is executed after a fault. -/
def pooled : TlsfUsage.Tlsf (Except Fault Pool) where
  malloc heap n := answer (heap >>= fun s => tlsfMalloc s n.toNat)
  free heap p := heap >>= fun s => tlsfFree s (p.getD 0)
  realloc heap p n := answer (heap >>= fun s => tlsfRealloc s (p.getD 0) n.toNat)
  blockSize heap p := match heap with
    | .ok s => blockSizeOf s p
    | .error _ => 0

open Classical in
noncomputable def settle (s : Good) : Except Fault (Pool × ℕ) → Option ℕ × Good
  | .ok (s', p) => if h : ∃ bs, Inv s' bs then (pointer p, ⟨s', h⟩) else (none, s)
  | .error _ => (none, s)

/-- The calls whose requests are searched in the tables, or not at all. -/
def Requested (p : Option ℕ) (n : BitVec 64) : Prop :=
  if p = none then Sized n.toNat else n.toNat ≤ 2 ^ 32 - 2 ^ 26

open Classical in
/-- The functions of `tlsf.c` on the pools between the calls. Other requests are refused. -/
noncomputable def guarded : TlsfUsage.Tlsf Good where
  malloc s n := if Requested none n then settle s (tlsfMalloc s.1 n.toNat) else (none, s)
  free s p := (settle s ((tlsfFree s.1 (p.getD 0)).map fun s' => (s', 0))).2
  realloc s p n := if Requested p n then settle s (tlsfRealloc s.1 (p.getD 0) n.toNat) else (none, s)
  blockSize s p := blockSizeOf s.1 p

theorem settle_ok {s : Good} {s' : Pool} {p : ℕ} (h : ∃ bs, Inv s' bs) :
    settle s (.ok (s', p)) = (pointer p, ⟨s', h⟩) := dif_pos h

theorem pointer_succ (y : ℕ) : pointer (y + 16) = some (y + 16) := if_neg (by omega)

/-! ## What is exchanged -/

section
variable {s s' : Good} {bs bs' : List Blk} {y n z k : ℕ} {R : List (ℕ × ℕ)}

theorem blockSizeOf_used (h : Inv s.1 bs) (hmem : (y, n) ∈ used s.1 bs) :
    blockSizeOf s.1 (some (y + 16)) = BitVec.ofNat 64 n := by
  unfold blockSizeOf tlsfBlockSize blockFromPtr
  rw [Option.getD_some, if_pos (by omega), Nat.add_sub_cancel, h.mid.blockSize hmem]

def ptr (b : ℕ × ℕ) : ℕ := b.1 + 16

theorem exchanges (given taken : Option (ℕ × ℕ)) (h : Inv s.1 bs) (h' : Inv s'.1 bs')
    (hgiven : (used s.1 bs).Perm (given.toList ++ R))
    (htaken : (used s'.1 bs').Perm (taken.toList ++ R)) :
    TlsfUsage.Exchanges guarded Good.live (given.map ptr) (taken.map ptr) s s' := by
  have hclear {b d : ℕ × ℕ} (hb : b ∈ given) (hd : d ∈ R) : Clear b d := by
    obtain rfl : given = some b := hb
    exact clear_of_perm hgiven hd
  have hclear' {b d : ℕ × ℕ} (hb : b ∈ taken) (hd : d ∈ R) : Clear b d := by
    obtain rfl : taken = some b := hb
    exact clear_of_perm htaken hd
  have hold {b : ℕ × ℕ} : b ∈ used s.1 bs ↔ b ∈ given ∨ b ∈ R := by
    rw [hgiven.mem_iff, List.mem_append, Option.mem_toList]
    rfl
  have hnew {b : ℕ × ℕ} : b ∈ used s'.1 bs' ↔ b ∈ taken ∨ b ∈ R := by
    rw [htaken.mem_iff, List.mem_append, Option.mem_toList]
    rfl
  refine ⟨?_, ?_, ?_⟩
  · ext x
    rw [Finset.mem_union, Finset.mem_sdiff, Option.mem_toFinset, Option.mem_toFinset, mem_live h,
      mem_live h']
    constructor
    · rintro ⟨y, n, hmem, rfl⟩
      rcases hnew.mp hmem with htake | hR
      · exact Or.inr (Option.mem_map_of_mem ptr htake)
      · refine Or.inl ⟨⟨y, n, hold.mpr (Or.inr hR), rfl⟩, fun hgive => ?_⟩
        obtain ⟨d, hd, heq⟩ := Option.mem_map.mp hgive
        have hc := hclear hd hR
        unfold Clear at hc
        unfold ptr at heq
        omega
    · rintro (⟨⟨y, n, hmem, rfl⟩, hnot⟩ | htake)
      · rcases hold.mp hmem with hgive | hR
        · exact absurd (Option.mem_map_of_mem ptr hgive) hnot
        · exact ⟨y, n, hnew.mpr (Or.inr hR), rfl⟩
      · obtain ⟨⟨z, k⟩, hd, rfl⟩ := Option.mem_map.mp htake
        exact ⟨z, k, hnew.mpr (Or.inl hd), rfl⟩
  · intro x hx hne
    obtain ⟨y, n, hmem, rfl⟩ := (mem_live h).mp hx
    rcases hold.mp hmem with hgive | hR
    · exact absurd (Option.mem_map_of_mem ptr hgive) hne
    · exact (blockSizeOf_used h' (hnew.mpr (Or.inr hR))).trans (blockSizeOf_used h hmem).symm
  · intro x hx hlive
    obtain ⟨⟨z, k⟩, hd, rfl⟩ := Option.mem_map.mp hx
    obtain ⟨y, n, hmem, heq⟩ := (mem_live h).mp hlive
    unfold ptr at heq
    obtain rfl : z = y := by omega
    rcases hold.mp hmem with hgive | hR
    · change given.map ptr = some (ptr (z, n))
      exact Option.mem_map_of_mem ptr hgive
    · have hc := hclear' hd hR
      unfold Clear at hc
      omega

theorem exchanges_same (s : Good) : TlsfUsage.Exchanges guarded Good.live none none s s :=
  exchanges none none s.inv s.inv (List.Perm.refl _) (List.Perm.refl _)

end

/-! ## The calls -/

section
variable {s : Good} {n : ℕ} {x : ℕ}

/-- `tlsf_malloc` fails or takes a block. -/
theorem malloc_settles (s : Good) {n : ℕ} (hn : Sized n) :
    ∃ s' : Good, ∃ r, tlsfMalloc s.1 n = .ok (s'.1, r)
      ∧ TlsfUsage.Exchanges guarded Good.live none (pointer r) s s' := by
  by_cases hnone : n = 0 ∨ 2 ^ 32 ≤ n
  · exact ⟨s, 0, tlsfMalloc_none s.1 hnone, exchanges_same s⟩
  · rcases malloc_spec s.inv (by omega) (hn.resolve_right fun h => hnone (Or.inr h)) with
      ⟨hfails, -⟩ | ⟨s', bs', y, k, hmalloc, hinv, -, hperm, -⟩
    · exact ⟨s, 0, hfails, exchanges_same s⟩
    · refine ⟨⟨s', bs', hinv⟩, y + 16, hmalloc, ?_⟩
      rw [pointer_succ]
      exact exchanges none (some (y, k)) s.inv hinv (List.Perm.refl _) hperm

theorem free_settles (hx : x ∈ s.live) :
    ∃ s' : Good, tlsfFree s.1 x = .ok s'.1
      ∧ TlsfUsage.Exchanges guarded Good.live (some x) none s s' := by
  obtain ⟨y, n, hmem, rfl⟩ := (mem_live s.inv).mp hx
  obtain ⟨s', bs', hfree, hinv, hperm, -⟩ := free_spec s.inv hmem
  exact ⟨⟨s', bs', hinv⟩, hfree, exchanges (some (y, n)) none s.inv hinv hperm
    (List.Perm.refl _)⟩

/-- `tlsf_realloc` gives the block back, fails, or exchanges it. -/
theorem realloc_settles (hx : x ∈ s.live) (hn : n ≤ 2 ^ 32 - 2 ^ 26) :
    ∃ s' : Good, ∃ r, tlsfRealloc s.1 x n = .ok (s'.1, r)
      ∧ (n = 0 → r = 0 ∧ TlsfUsage.Exchanges guarded Good.live (some x) none s s')
      ∧ (n ≠ 0 → r = 0 → s' = s)
      ∧ (r ≠ 0 → TlsfUsage.Exchanges guarded Good.live (some x) (some r) s s') := by
  obtain ⟨y, j, hmem, rfl⟩ := (mem_live s.inv).mp hx
  by_cases hzero : n = 0
  · subst hzero
    obtain ⟨s', hfree, hexchanges⟩ := free_settles hx
    refine ⟨s', 0, ?_, fun _ => ⟨rfl, hexchanges⟩, fun h => absurd rfl h, fun h => absurd rfl h⟩
    unfold tlsfRealloc
    rw [if_pos ⟨by omega, rfl⟩, hfree]
    rfl
  · rcases realloc_spec s.inv hmem (by omega) hn with
      ⟨hfails, -⟩ | ⟨s', bs', z, k, hrealloc, -, hresized⟩
    · exact ⟨s, 0, hfails, fun h => absurd h hzero, fun _ _ => rfl, fun h => absurd rfl h⟩
    · obtain ⟨R, hperm, hperm', -⟩ := hresized.rest
      refine ⟨⟨s', bs', hresized.inv⟩, z + 16, hrealloc, fun h => absurd h hzero,
        fun _ h => absurd h (by omega), fun _ => ?_⟩
      exact exchanges (some (y, j)) (some (z, k)) s.inv hresized.inv hperm hperm'

theorem guarded_malloc {n : BitVec 64} (hn : Sized n.toNat) {s' : Good} {r : ℕ}
    (h : tlsfMalloc s.1 n.toNat = .ok (s'.1, r)) : guarded.malloc s n = (pointer r, s') := by
  unfold guarded Requested
  dsimp only
  rw [if_pos (by rw [if_pos rfl]; exact hn), h]
  exact settle_ok s'.2

theorem guarded_free {s' : Good} {p : Option ℕ} (h : tlsfFree s.1 (p.getD 0) = .ok s'.1) :
    guarded.free s p = s' := by
  unfold guarded
  dsimp only
  rw [h]
  exact congrArg Prod.snd (settle_ok s'.2)

theorem guarded_realloc {p : Option ℕ} {n : BitVec 64} (hn : Requested p n) {s' : Good} {r : ℕ}
    (h : tlsfRealloc s.1 (p.getD 0) n.toNat = .ok (s'.1, r)) :
    guarded.realloc s p n = (pointer r, s') := by
  unfold guarded
  dsimp only
  rw [if_pos hn, h]
  exact settle_ok s'.2

theorem realloc_null (s : Good) (n : ℕ) : tlsfRealloc s.1 0 n = tlsfMalloc s.1 n := by
  unfold tlsfRealloc
  rw [if_neg fun h => h.1 rfl, if_pos rfl]

theorem pointer_none {r : ℕ} : pointer r = none ↔ r = 0 := by
  unfold pointer
  split <;> simp_all

theorem pointer_some {r q : ℕ} (h : pointer r = some q) : r ≠ 0 ∧ r = q := by
  unfold pointer at h
  split at h
  · cases h
  · exact ⟨by assumption, Option.some.inj h⟩

/-- `tlsf.c` is the allocator that `tlsf.h` promises, within its sizes. -/
theorem guarded_correct : TlsfUsage.Correct guarded Good.live where
  null s := rfl
  sized s p hp := by
    obtain ⟨y, n, hmem, rfl⟩ := (mem_live s.inv).mp hp
    have hgood := s.inv.mid.row.good hmem
    have hbounds := pick_bounds hmem
    have hbelow := s.inv.mid.arena.below
    rw [show guarded.blockSize s (some (y + 16)) = _ from blockSizeOf_used s.inv hmem]
    intro hzero
    have := congrArg BitVec.toNat hzero
    rw [BitVec.toNat_ofNat, Nat.mod_eq_of_lt (by omega)] at this
    change n = 0 at this
    omega
  malloc s n := by
    by_cases hn : Sized n.toNat
    · obtain ⟨s', r, hmalloc, hexchanges⟩ := malloc_settles s hn
      rwa [guarded_malloc hn hmalloc]
    · have hrefused : guarded.malloc s n = (none, s) := if_neg fun h => hn (by
        rwa [Requested, if_pos rfl] at h)
      rw [hrefused]
      exact exchanges_same s
  free_null s := by
    rw [show guarded.free s none = s from guarded_free rfl]
    exact exchanges_same s
  free s p hp := by
    obtain ⟨s', hfree, hexchanges⟩ := free_settles hp
    rwa [guarded_free (p := some p) hfree]
  realloc_null s n := by
    by_cases hn : Sized n.toNat
    · obtain ⟨s', r, hmalloc, hexchanges⟩ := malloc_settles s hn
      rwa [guarded_realloc (p := none) (by rwa [Requested, if_pos rfl])
        ((realloc_null s n.toNat).trans hmalloc)]
    · have hrefused : guarded.realloc s none n = (none, s) := if_neg fun h => hn (by
        rwa [Requested, if_pos rfl] at h)
      rw [hrefused]
      exact exchanges_same s
  realloc_zero s p hp := by
    obtain ⟨s', r, hrealloc, hzero, -⟩ := realloc_settles hp (n := 0) (by omega)
    obtain ⟨rfl, hexchanges⟩ := hzero rfl
    have hn : Requested (some p) 0 := by
      rw [Requested, if_neg (by simp)]
      decide
    rw [guarded_realloc hn hrealloc]
    exact ⟨rfl, hexchanges⟩
  realloc_fails s p hp n hne hnone := by
    by_cases hn : Requested (some p) n
    · obtain ⟨s', r, hrealloc, -, hfails, -⟩ := realloc_settles hp (n := n.toNat) (by
        rwa [Requested, if_neg (by simp)] at hn)
      rw [guarded_realloc hn hrealloc] at hnone ⊢
      rw [hfails (fun h => hne (BitVec.eq_of_toNat_eq h)) (pointer_none.mp hnone)]
      exact exchanges_same s
    · have hrefused : guarded.realloc s (some p) n = (none, s) := if_neg hn
      rw [hrefused]
      exact exchanges_same s
  realloc s p hp n q hq := by
    by_cases hn : Requested (some p) n
    · obtain ⟨s', r, hrealloc, -, -, hgives⟩ := realloc_settles hp (n := n.toNat) (by
        rwa [Requested, if_neg (by simp)] at hn)
      rw [guarded_realloc hn hrealloc] at hq ⊢
      obtain ⟨hne, rfl⟩ := pointer_some hq
      exact hgives hne
    · have hrefused : guarded.realloc s (some p) n = (none, s) := if_neg hn
      rw [hrefused] at hq
      cases hq

end

/-! ## Runs -/

open Classical in
/-- The pointers to the live blocks of a pool between the calls. -/
noncomputable def liveOf : Except Fault Pool → Finset ℕ
  | .ok s => if h : ∃ bs, Inv s bs then Good.live ⟨s, h⟩ else ∅
  | .error _ => ∅

/-- No block is reallocated to a negative size. -/
def Sensible : TlsfUsage.HeapCall → Prop
  | .realloc (some _) size => 0 ≤ size.toInt
  | _ => True

section
variable (address bytes : ℕ)

/-- Units that calls lead to, from `vmir_heap_init` on. -/
inductive HeapRun : TlsfUsage.HeapUnit (Except Fault Pool) → Prop
  | init {m : Mem} {s : Pool} (hcreate : tlsfCreate m address bytes = .ok (some s)) :
    HeapRun ⟨.ok s, 0, 0, [0]⟩
  | call {iu : TlsfUsage.HeapUnit (Except Fault Pool)} (hs : HeapRun iu) {c : TlsfUsage.HeapCall}
    (hallowed : TlsfUsage.Allowed liveOf iu.heap c) (hsensible : Sensible c)
    (hfits : TlsfUsage.Fits pooled liveOf (TlsfUsage.exec pooled iu c).2.heap
      (TlsfUsage.exec pooled iu c).1 c) : HeapRun (TlsfUsage.exec pooled iu c).2

end

def mapUnit (iu : TlsfUsage.HeapUnit Good) : TlsfUsage.HeapUnit (Except Fault Pool) :=
  ⟨.ok iu.heap.1, iu.heapUsage, iu.peakHeapSize, iu.had⟩

section
variable {iu : TlsfUsage.HeapUnit Good} {c : TlsfUsage.HeapCall}

theorem liveOf_ok (s : Good) : liveOf (.ok s.1) = s.live := dif_pos s.2

theorem total_pooled (s : Good) : TlsfUsage.total pooled liveOf (.ok s.1)
    = TlsfUsage.total guarded Good.live s := by
  unfold TlsfUsage.total
  rw [liveOf_ok]
  rfl

/-- An `int` as a `size_t`. -/
theorem signExtend_toNat (size : BitVec 32) : (size.signExtend 64).toNat
    = size.toNat + if 2 ^ 31 ≤ size.toNat then 2 ^ 64 - 2 ^ 32 else 0 := by
  have hlt := size.isLt
  rw [BitVec.toNat_signExtend, BitVec.toNat_setWidth, Nat.mod_eq_of_lt (by omega),
    BitVec.msb_eq_decide]
  simp only [decide_eq_true_eq, Nat.reduceSub]

theorem sized_signExtend (size : BitVec 32) : Sized (size.signExtend 64).toNat := by
  unfold Sized
  rw [signExtend_toNat]
  split <;> omega

theorem requested_signExtend {p : Option ℕ} {size : BitVec 32}
    (h : Sensible (.realloc p size)) : Requested p (size.signExtend 64) := by
  unfold Requested
  cases p with
  | none =>
    rw [if_pos rfl]
    exact sized_signExtend size
  | some x =>
    have hneg : ¬ 2 ^ 31 ≤ size.toNat := fun hle => by
      have hlt := BitVec.toInt_eq_toNat_cond size
      have hpos : 0 ≤ size.toInt := h
      have := size.isLt
      rw [if_neg (by omega)] at hlt
      omega
    rw [if_neg (by simp), signExtend_toNat, if_neg hneg]
    omega

theorem discount_pooled (p : Option ℕ) :
    TlsfUsage.discount pooled (mapUnit iu) p = mapUnit (TlsfUsage.discount guarded iu p) := by
  unfold TlsfUsage.discount
  split <;> rfl

theorem malloc_pooled (size : BitVec 32) : TlsfUsage.vmirHeapMalloc pooled (mapUnit iu) size
    = ((TlsfUsage.vmirHeapMalloc guarded iu size).1,
      mapUnit (TlsfUsage.vmirHeapMalloc guarded iu size).2) := by
  obtain ⟨s', r, hmalloc, -⟩ := malloc_settles iu.heap (sized_signExtend size)
  have hguarded := guarded_malloc (sized_signExtend size) hmalloc
  have hpooled : pooled.malloc (mapUnit iu).heap (size.signExtend 64) = (pointer r, .ok s'.1) :=
    congrArg answer hmalloc
  simp only [TlsfUsage.vmirHeapMalloc, hguarded, hpooled]
  rfl

theorem free_pooled {p : Option ℕ} (hlive : ∀ x, p = some x → x ∈ iu.heap.live) :
    TlsfUsage.vmirHeapFree pooled (mapUnit iu) p = mapUnit (TlsfUsage.vmirHeapFree guarded iu p) := by
  obtain ⟨s', hfree⟩ : ∃ s' : Good, tlsfFree iu.heap.1 (p.getD 0) = .ok s'.1 := by
    cases p with
    | none => exact ⟨iu.heap, rfl⟩
    | some x =>
      obtain ⟨s', hfree, -⟩ := free_settles (hlive x rfl)
      exact ⟨s', hfree⟩
  have hguarded := guarded_free hfree
  have hpooled : pooled.free (.ok iu.heap.1) p = .ok s'.1 := hfree
  have hheap : (mapUnit (TlsfUsage.discount guarded iu p)).heap = .ok iu.heap.1 := by
    rw [mapUnit, TlsfUsage.discount_heap]
  simp only [TlsfUsage.vmirHeapFree, discount_pooled, hheap, hpooled, TlsfUsage.discount_heap, hguarded]
  rfl

theorem realloc_pooled {p : Option ℕ} {size : BitVec 32} (hlive : ∀ x, p = some x → x ∈ iu.heap.live)
    (hsize : Requested p (size.signExtend 64)) :
    TlsfUsage.vmirHeapRealloc pooled (mapUnit iu) p size
      = ((TlsfUsage.vmirHeapRealloc guarded iu p size).1,
        mapUnit (TlsfUsage.vmirHeapRealloc guarded iu p size).2) := by
  obtain ⟨s', r, hrealloc⟩ : ∃ s' : Good, ∃ r,
      tlsfRealloc iu.heap.1 (p.getD 0) (size.signExtend 64).toNat = .ok (s'.1, r) := by
    cases p with
    | none =>
      obtain ⟨s', r, hmalloc, -⟩ := malloc_settles iu.heap (sized_signExtend size)
      exact ⟨s', r, (realloc_null ..).trans hmalloc⟩
    | some x =>
      rw [Requested, if_neg (by simp)] at hsize
      obtain ⟨s', r, hrealloc, -⟩ := realloc_settles (hlive x rfl) hsize
      exact ⟨s', r, hrealloc⟩
  have hguarded := guarded_realloc hsize hrealloc
  have hpooled : pooled.realloc (.ok iu.heap.1) p (size.signExtend 64) = (pointer r, .ok s'.1) :=
    congrArg answer hrealloc
  have hheap : (mapUnit (TlsfUsage.discount guarded iu p)).heap = .ok iu.heap.1 := by
    rw [mapUnit, TlsfUsage.discount_heap]
  simp only [TlsfUsage.vmirHeapRealloc, discount_pooled, hheap, hpooled, TlsfUsage.discount_heap,
    hguarded]
  split <;> rfl

theorem exec_pooled (hallowed : TlsfUsage.Allowed Good.live iu.heap c) (hsensible : Sensible c) :
    TlsfUsage.exec pooled (mapUnit iu) c
      = ((TlsfUsage.exec guarded iu c).1, mapUnit (TlsfUsage.exec guarded iu c).2) := by
  cases c with
  | malloc size => exact malloc_pooled size
  | free p => exact congrArg (Prod.mk none) (free_pooled hallowed)
  | realloc p size => exact realloc_pooled hallowed (requested_signExtend hsensible)

theorem fits_pooled {s : Good} {r : Option ℕ} : TlsfUsage.Fits pooled liveOf (.ok s.1) r c
    ↔ TlsfUsage.Fits guarded Good.live s r c := by
  cases c with
  | malloc size => exact iff_of_eq (congrArg (· < 2 ^ 31) (total_pooled s))
  | free p => exact iff_of_eq (congrArg (· < 2 ^ 31) (total_pooled s))
  | realloc p size =>
    cases p with
    | none => exact iff_of_eq (congrArg (· < 2 ^ 31) (total_pooled s))
    | some x => exact and_congr_right' (iff_of_eq (congrArg (· < 2 ^ 31) (total_pooled s)))

theorem allowed_pooled {s : Good} : TlsfUsage.Allowed liveOf (.ok s.1) c
    ↔ TlsfUsage.Allowed Good.live s c := by
  unfold TlsfUsage.Allowed
  rw [liveOf_ok]

end

section
variable {address bytes : ℕ} {iu : TlsfUsage.HeapUnit (Except Fault Pool)}

theorem heapRun_map (hr : Region address bytes) (hs : HeapRun address bytes iu) :
    ∃ iu', iu = mapUnit iu'
      ∧ TlsfUsage.Reach guarded Good.live (TlsfUsage.Fits guarded Good.live) iu' := by
  induction hs with
  | @init m s hcreate =>
    obtain ⟨s₀, hok, -, hinv, -⟩ := tlsfCreate_spec hr.pos hr.aligned hr.below hr.min hr.max m
    obtain rfl := Option.some.inj (Except.ok.inj (hcreate.symm.trans hok))
    refine ⟨⟨⟨s, _, hinv⟩, 0, 0, [0]⟩, rfl, TlsfUsage.Reach.start ?_⟩
    refine Finset.eq_empty_of_forall_notMem fun x hx => ?_
    obtain ⟨y, n, hmem, -⟩ := (mem_live (s := ⟨s, _, hinv⟩) hinv).mp hx
    exact absurd hmem List.not_mem_nil
  | @call iu hs c hallowed hsensible hfits ih =>
    obtain ⟨iu', rfl, hreach⟩ := ih
    have hallowed' := allowed_pooled.mp hallowed
    have hexec := exec_pooled hallowed' hsensible
    rw [hexec] at hfits ⊢
    exact ⟨_, rfl, hreach.call hallowed' (fits_pooled.mp hfits)⟩

/-- In every run in which no block is reallocated in vain or to a negative size, and the live blocks
stay below `2 ^ 31` bytes, no call faults, the usage is the sum of the live blocks, and no value that it
has had is above the peak. -/
theorem heapRun_accounted (hr : Region address bytes) (hs : HeapRun address bytes iu) :
    (∃ s bs, iu.heap = .ok s ∧ Inv s bs) ∧ TlsfUsage.Accounted pooled liveOf iu := by
  obtain ⟨iu', rfl, hreach⟩ := heapRun_map hr hs
  refine ⟨⟨_, _, rfl, iu'.heap.inv⟩, ?_⟩
  have haccounted := (TlsfUsage.reach_counts guarded_correct hreach).accounted
  exact ⟨haccounted.1.trans (total_pooled iu'.heap).symm, haccounted.2⟩

/-! ### Regions below `2 ^ 31` bytes -/

theorem nodup_pick (f : Bool) (a : ℕ) (bs : List Blk) :
    ((pick f a bs).map fun b => b.1 + 16).Nodup := by
  induction bs generalizing a with
  | nil => exact List.nodup_nil
  | cons b bs ih =>
    rw [pick]
    split
    · refine List.nodup_cons.mpr ⟨fun hmem => ?_, ih _⟩
      obtain ⟨⟨y, n⟩, hy, heq⟩ := List.mem_map.mp hmem
      have hbounds := (pick_bounds hy).1
      dsimp only at heq
      omega
    · exact ih _

theorem sum_pick (f : Bool) (a : ℕ) (bs : List Blk) :
    a + ((pick f a bs).map Prod.snd).sum ≤ stop a bs := by
  induction bs generalizing a with
  | nil => exact le_rfl
  | cons b bs ih =>
    have hrest := ih (a + 8 + b.size)
    rw [pick, stop]
    split
    · rw [List.map_cons, List.sum_cons]
      omega
    · omega

section
variable {s : Pool} {l : Ledger}

theorem mem_liveOf {bs : List Blk} (h : Backed address bytes s l bs) {x : ℕ} :
    x ∈ liveOf (.ok s) ↔ l.blocks x ≠ none := by
  rw [show liveOf (.ok s) = Good.live ⟨s, bs, h.inv⟩ from liveOf_ok ⟨s, bs, h.inv⟩,
    mem_live (s := ⟨s, bs, h.inv⟩) h.inv, Option.ne_none_iff_exists']
  constructor
  · rintro ⟨y, n, hmem, rfl⟩
    exact ⟨n, (h.holds _ _).mpr ⟨y, hmem, rfl⟩⟩
  · rintro ⟨n, hn⟩
    obtain ⟨y, hmem, rfl⟩ := (h.holds x n).mp hn
    exact ⟨y, n, hmem, rfl⟩

theorem total_lt (hr : Region address bytes) {bs : List Blk} (h : Backed address bytes s l bs) :
    TlsfUsage.total pooled liveOf (.ok s) < bytes := by
  have hsize : ∀ b ∈ used s bs, (blockSizeOf s (some (b.1 + 16))).toNat ≤ b.2 := by
    intro b hb
    rw [blockSizeOf_used (s := ⟨s, bs, h.inv⟩) h.inv hb, BitVec.toNat_ofNat]
    exact Nat.mod_le _ _
  have hlive : liveOf (.ok s) = ((used s bs).map fun b => b.1 + 16).toFinset := by
    rw [show liveOf (.ok s) = Good.live ⟨s, bs, h.inv⟩ from liveOf_ok ⟨s, bs, h.inv⟩]
    unfold Good.live
    rw [Good.row_eq (s := ⟨s, bs, h.inv⟩) h.inv]
  have hsum : TlsfUsage.total pooled liveOf (.ok s) ≤ ((used s bs).map Prod.snd).sum := by
    unfold TlsfUsage.total
    have hnodup : ((used s bs).map fun b => b.1 + 16).Nodup := nodup_pick false (first s) bs
    rw [hlive, List.sum_toFinset _ hnodup, List.map_map]
    exact List.sum_le_sum hsize
  have hfits := hr.fits
  have hends := h.ends
  have hrow := sum_pick false (first s) bs
  have hplace : first s = firstBlock address := congrArg firstBlock h.place
  unfold firstBlock sizeofPool blockHeaderOverhead at hplace hfits hends
  change _ ≤ ((pick false (first s) bs).map Prod.snd).sum at hsum
  omega

theorem exec_reach (hr : Region address bytes) (hs : TlsfRuns.Reach address bytes s l)
    (hiu : iu.heap = .ok s) {c : TlsfUsage.HeapCall} (hallowed : TlsfUsage.Allowed liveOf iu.heap c)
    (hsensible : Sensible c) : ∃ s' l', (TlsfUsage.exec pooled iu c).2.heap = .ok s'
      ∧ TlsfRuns.Reach address bytes s' l' := by
  obtain ⟨bs, hbacked⟩ := reach_backed hr hs
  rw [hiu] at hallowed
  have hlive {p : Option ℕ} (hp : ∀ x, p = some x → x ∈ liveOf (.ok s)) :
      p.getD 0 = 0 ∨ l.blocks (p.getD 0) ≠ none := by
    cases p with
    | none => exact Or.inl rfl
    | some x => exact Or.inr ((mem_liveOf hbacked).mp (hp x rfl))
  cases c with
  | malloc size =>
    have hc : TlsfRuns.Allowed address bytes l (.malloc (size.signExtend 64).toNat) :=
      sized_signExtend size
    obtain ⟨s', r, hexec, -⟩ := reach_returns hr hs hc
    refine ⟨s', _, ?_, hs.call hc hexec⟩
    have hmalloc : pooled.malloc iu.heap (size.signExtend 64) = (pointer r, .ok s') := by
      rw [hiu]
      exact congrArg answer hexec
    change (pooled.malloc iu.heap (size.signExtend 64)).2 = _
    rw [hmalloc]
  | free p =>
    have hc : TlsfRuns.Allowed address bytes l (.free (p.getD 0)) := hlive hallowed
    obtain ⟨s', r, hexec, -⟩ := reach_returns hr hs hc
    refine ⟨s', _, ?_, hs.call hc hexec⟩
    change pooled.free (TlsfUsage.discount pooled iu p).heap p = _
    rw [TlsfUsage.discount_heap, hiu]
    change tlsfFree s (p.getD 0) = _
    rw [TlsfRuns.exec] at hexec
    cases hfree : tlsfFree s (p.getD 0) with
    | error fault =>
      rw [hfree] at hexec
      cases hexec
    | ok s₁ =>
      rw [hfree] at hexec
      rw [(Prod.mk.inj (Except.ok.inj hexec)).1]
  | realloc p size =>
    have hrequested := requested_signExtend hsensible
    have hc : TlsfRuns.Allowed address bytes l (.realloc (p.getD 0) (size.signExtend 64).toNat) := by
      cases p with
      | none => exact sized_signExtend size
      | some x =>
        have hx : l.blocks x ≠ none := (mem_liveOf hbacked).mp (hallowed x rfl)
        have hnull : x ≠ 0 := fun heq => hx (heq ▸ null_blocks hbacked)
        rw [Requested, if_neg (by simp)] at hrequested
        change if x = 0 then _ else _
        rw [if_neg hnull]
        exact ⟨hx, hrequested⟩
    obtain ⟨s', r, hexec, -⟩ := reach_returns hr hs hc
    refine ⟨s', _, ?_, hs.call hc hexec⟩
    have hrealloc : pooled.realloc (TlsfUsage.discount pooled iu p).heap p (size.signExtend 64)
        = (pointer r, .ok s') := by
      rw [TlsfUsage.discount_heap, hiu]
      exact congrArg answer hexec
    unfold TlsfUsage.exec TlsfUsage.vmirHeapRealloc
    simp only [hrealloc]
    split <;> rfl

end

theorem heapRun_pool (hr : Region address bytes) (hs : HeapRun address bytes iu) :
    ∃ s l, iu.heap = .ok s ∧ TlsfRuns.Reach address bytes s l := by
  induction hs with
  | init hcreate => exact ⟨_, _, rfl, .start hcreate⟩
  | call hs hallowed hsensible hfits ih =>
    obtain ⟨s, l, hiu, hreach⟩ := ih
    exact exec_reach hr hreach hiu hallowed hsensible

/-- In a region below `2 ^ 31` bytes, every call is counted that is not a `realloc` in vain. -/
theorem HeapRun.small (hr : Region address bytes) (hbytes : bytes ≤ 2 ^ 31)
    (hs : HeapRun address bytes iu) {c : TlsfUsage.HeapCall}
    (hallowed : TlsfUsage.Allowed liveOf iu.heap c) (hsensible : Sensible c)
    (hvain : ∀ x size, c = .realloc (some x) size → size ≠ 0 →
      (TlsfUsage.exec pooled iu c).1 ≠ none) :
    HeapRun address bytes (TlsfUsage.exec pooled iu c).2 := by
  obtain ⟨s, l, hiu, hreach⟩ := heapRun_pool hr hs
  obtain ⟨s', l', hiu', hreach'⟩ := exec_reach hr hreach hiu hallowed hsensible
  obtain ⟨bs, hbacked⟩ := reach_backed hr hreach'
  have htotal := (total_lt hr hbacked).trans_le hbytes
  refine hs.call hallowed hsensible ?_
  rw [hiu']
  cases c with
  | malloc size => exact htotal
  | free p => exact htotal
  | realloc p size =>
    cases p with
    | none => exact htotal
    | some x => exact ⟨fun hsize => hvain x size rfl hsize, htotal⟩

theorem heapRun_exchanges (hr : Region address bytes) (hs : HeapRun address bytes iu)
    {c : TlsfUsage.HeapCall} (hallowed : TlsfUsage.Allowed liveOf iu.heap c)
    (hsensible : Sensible c) : ∃ p : Option ℕ, (∀ x, p = some x → c.given = some x)
      ∧ liveOf (TlsfUsage.exec pooled iu c).2.heap
        = liveOf iu.heap \ p.toFinset ∪ (TlsfUsage.exec pooled iu c).1.toFinset := by
  obtain ⟨iu', rfl, -⟩ := heapRun_map hr hs
  have hallowed' := allowed_pooled.mp hallowed
  obtain ⟨p, hp, hexchanges⟩ := TlsfUsage.exec_exchanges guarded_correct hallowed'
  refine ⟨p, hp, ?_⟩
  rw [exec_pooled hallowed' hsensible]
  change liveOf (.ok (TlsfUsage.exec guarded iu' c).2.heap.1) = liveOf (.ok iu'.heap.1) \ _ ∪ _
  rw [liveOf_ok, liveOf_ok]
  exact hexchanges.lives

theorem live_returned (hr : Region address bytes) (hs : HeapRun address bytes iu)
    {c : TlsfUsage.HeapCall} (hallowed : TlsfUsage.Allowed liveOf iu.heap c)
    (hsensible : Sensible c) {x : ℕ} (hx : (TlsfUsage.exec pooled iu c).1 = some x) :
    x ∈ liveOf (TlsfUsage.exec pooled iu c).2.heap := by
  obtain ⟨p, -, hlive⟩ := heapRun_exchanges hr hs hallowed hsensible
  rw [hlive, hx]
  exact Finset.mem_union_right _ (Option.mem_toFinset.mpr rfl)

theorem live_kept (hr : Region address bytes) (hs : HeapRun address bytes iu)
    {c : TlsfUsage.HeapCall} (hallowed : TlsfUsage.Allowed liveOf iu.heap c)
    (hsensible : Sensible c) {x : ℕ} (hx : x ∈ liveOf iu.heap) (hne : c.given ≠ some x) :
    x ∈ liveOf (TlsfUsage.exec pooled iu c).2.heap := by
  obtain ⟨p, hp, hlive⟩ := heapRun_exchanges hr hs hallowed hsensible
  rw [hlive]
  refine Finset.mem_union_left _ (Finset.mem_sdiff.mpr ⟨hx, fun hin => hne ?_⟩)
  exact hp x (Option.mem_toFinset.mp hin)

def newHeap : Except Fault Pool :=
  match tlsfCreate ⟨fun _ => 0⟩ 8 8192 with
  | .ok (some s) => .ok s
  | _ => .error .assertion

/-- The unit after two blocks were taken, the first made larger, and the second given back. -/
def after (n : ℕ) : TlsfUsage.HeapUnit (Except Fault Pool) :=
  ([.malloc 100, .malloc 200, .realloc (some 6552) 300, .free (some 6664)].take n).foldl
    (fun iu c => (TlsfUsage.exec pooled iu c).2) ⟨newHeap, 0, 0, [0]⟩

theorem heapRun_new : HeapRun 8 8192 (after 0) := by
  obtain ⟨s, hcreate, -⟩ := tlsfCreate_spec region_small.pos region_small.aligned region_small.below
    region_small.min region_small.max ⟨fun _ => 0⟩
  have hnew : newHeap = .ok s := by
    unfold newHeap
    rw [hcreate]
  have hinit := HeapRun.init hcreate
  rwa [← hnew] at hinit

theorem heapRun_accounted_resized : HeapRun 8 8192 (after 4) ∧ (after 4).heapUsage = 304
    ∧ TlsfUsage.Accounted pooled liveOf (after 4) := by
  have hbytes : 8192 ≤ 2 ^ 31 := by decide
  have h₁ : HeapRun 8 8192 (after 1) :=
    heapRun_new.small region_small hbytes (c := .malloc 100) trivial trivial nofun
  have hfirst : 6552 ∈ liveOf (after 1).heap :=
    live_returned region_small heapRun_new (c := .malloc 100) trivial trivial (by decide +kernel)
  have h₂ : HeapRun 8 8192 (after 2) :=
    h₁.small region_small hbytes (c := .malloc 200) trivial trivial nofun
  have hsecond : 6664 ∈ liveOf (after 2).heap :=
    live_returned region_small h₁ (c := .malloc 200) trivial trivial (by decide +kernel)
  have hgiven : ∀ x, some 6552 = some x → x ∈ liveOf (after 2).heap := by
    rintro x ⟨⟩
    exact live_kept region_small h₁ (c := .malloc 200) trivial trivial hfirst nofun
  have hsensible : Sensible (.realloc (some 6552) 300) :=
    (by decide : 0 ≤ (300 : BitVec 32).toInt)
  have h₃ : HeapRun 8 8192 (after 3) := by
    refine h₂.small region_small hbytes (c := .realloc (some 6552) 300) hgiven hsensible ?_
    rintro x size ⟨⟩ -
    decide +kernel
  have hfreed : ∀ x, some 6664 = some x → x ∈ liveOf (after 3).heap := by
    rintro x ⟨⟩
    exact live_kept region_small h₂ (c := .realloc (some 6552) 300) hgiven hsensible hsecond nofun
  have h₄ : HeapRun 8 8192 (after 4) :=
    h₃.small region_small hbytes (c := .free (some 6664)) hfreed trivial nofun
  exact ⟨h₄, by decide +kernel, (heapRun_accounted region_small h₄).2⟩

end

end Vmir.TlsfHeapUsage
