import Mathlib.Data.List.Chain
import Vmir.FirstFitHeap

set_option autoImplicit false

/-!
# The blocks of the heap

What the operations do to the row of blocks.
-/
namespace Vmir.HeapBlocks
open Ir Tiling FirstFitHeap

/-- The blocks fill the region from `first` to `stop`, none is smaller than its header, and no two
neighbours are free; a free block stands before the region if `f` holds. -/
def Laid : Bool → ℤ → List HeapBlock → ℤ → Prop
  | _, first, [], stop => first = stop
  | f, first, hb :: bs, stop => hb.addr = first ∧ sizeofHeapBlock ≤ hb.hbSize
      ∧ (f = true → hb.hbMagic = .alloc)
      ∧ Laid (hb.hbMagic = .free) (first + hb.hbSize) bs stop

def lives (bs : List HeapBlock) : List HeapBlock := bs.filter fun hb => hb.hbMagic = .alloc

theorem lives_alloc {hb : HeapBlock} (h : hb.hbMagic = .alloc) (bs : List HeapBlock) :
    lives (hb :: bs) = hb :: lives bs :=
  List.filter_cons_of_pos (decide_eq_true h)

theorem lives_free {hb : HeapBlock} (h : hb.hbMagic = .free) (bs : List HeapBlock) :
    lives (hb :: bs) = lives bs :=
  List.filter_cons_of_neg (by rw [h]; decide)

theorem mem_lives {hb : HeapBlock} {bs : List HeapBlock} :
    hb ∈ lives bs ↔ hb ∈ bs ∧ hb.hbMagic = .alloc := by
  rw [lives, List.mem_filter, decide_eq_true_iff]

theorem magic_cases (m : HeapMagic) : m = .free ∨ m = .alloc := by
  cases m with
  | free => exact Or.inl rfl
  | alloc => exact Or.inr rfl

theorem toInt_eq {n : ℤ} (h1 : -2 ^ 31 ≤ n) (h2 : n < 2 ^ 31) : toInt n = n :=
  Int.bmod_eq_of_le (by omega) (by omega)

/-- The bytes of a request can be counted together with the header and the rounding. -/
def Requestable (n : ℕ) : Prop := n + 39 < 2 ^ 31

theorem blockSize_eq {size : BitVec 32} (h : Requestable size.toNat) :
    blockSize size = (size.toNat + 39 : ℤ) / 16 * 16 := by
  have h : size.toNat + 39 < 2 ^ 31 := h
  have hsize : size.toInt = size.toNat := BitVec.toInt_eq_toNat_of_lt (by omega)
  unfold blockSize vmirAlign16 sizeofHeapBlock
  rw [hsize, toInt_eq (n := size.toNat + 24) (by omega) (by omega), toInt_eq (by omega) (by omega),
    show (size.toNat + 24 + 15 : ℤ) = size.toNat + 39 by omega]

theorem le_blockSize {size : BitVec 32} (h : Requestable size.toNat) :
    size.toNat + sizeofHeapBlock ≤ blockSize size ∧ 32 ≤ blockSize size := by
  rw [blockSize_eq h]
  unfold sizeofHeapBlock
  omega

variable {f : Bool} {first stop : ℤ} {bs : List HeapBlock} {hb : HeapBlock}

theorem Laid.tiles (h : Laid f first bs stop) :
    Tiles HeapBlock.addr HeapBlock.hbSize first bs stop := by
  induction bs generalizing f first with
  | nil => exact h
  | cons hb bs ih =>
    obtain ⟨haddr, hsize, -, hrest⟩ := h
    unfold sizeofHeapBlock at hsize
    exact ⟨haddr, by omega, ih hrest⟩

theorem Laid.length_le (h : Laid f first bs stop) : first + 24 * bs.length ≤ stop := by
  induction bs generalizing f first with
  | nil =>
    have h : first = stop := h
    rw [List.length_nil]
    omega
  | cons hb bs ih =>
    obtain ⟨-, hsize, -, hrest⟩ := h
    have := ih hrest
    unfold sizeofHeapBlock at hsize
    rw [List.length_cons]
    omega

theorem Laid.header (h : Laid f first bs stop) (hmem : hb ∈ bs) : sizeofHeapBlock ≤ hb.hbSize := by
  induction bs generalizing f first with
  | nil => exact absurd hmem List.not_mem_nil
  | cons x bs ih =>
    obtain ⟨-, hsize, -, hrest⟩ := h
    rcases List.mem_cons.mp hmem with rfl | hbs
    · exact hsize
    · exact ih hrest hbs

theorem Laid.apart (h : Laid f first bs stop) :
    bs.IsChain fun x y => ¬ (x.hbMagic = .free ∧ y.hbMagic = .free) := by
  induction bs generalizing f first with
  | nil => exact List.IsChain.nil
  | cons x bs ih =>
    obtain ⟨-, -, -, hrest⟩ := h
    cases bs with
    | nil => exact List.IsChain.singleton x
    | cons y bs =>
      refine List.IsChain.cons_cons ?_ (ih hrest)
      rintro ⟨hx, hy⟩
      have := hrest.2.2.1 (decide_eq_true hx)
      rw [hy] at this
      exact absurd this nofun

theorem Laid.weaken (h : Laid f first bs stop) : Laid false first bs stop := by
  cases bs with
  | nil => exact h
  | cons hb bs =>
    obtain ⟨haddr, hsize, -, hrest⟩ := h
    exact ⟨haddr, hsize, nofun, hrest⟩

theorem Laid.of_free (h : Laid (hb.hbMagic = .free) first bs stop) (m : HeapMagic)
    (hm : m = .free → hb.hbMagic = .free) : Laid (m = .free) first bs stop := by
  rcases magic_cases m with rfl | rfl
  · rw [hm rfl] at h
    exact h
  · exact h.weaken

/-! ## Taking a block -/

theorem place_eq {size : ℤ} (hle : size ≤ hb.hbSize) (hpos : 0 ≤ size) (hlt : hb.hbSize < 2 ^ 31) :
    place size hb = if hb.hbSize - size < 48 then [⟨hb.addr, hb.hbSize, .alloc⟩]
      else [⟨hb.addr, size, .alloc⟩, ⟨hb.addr + size, hb.hbSize - size, .free⟩] := by
  unfold place sizeofHeapBlock
  rw [toInt_eq (n := hb.hbSize - size) (by omega) (by omega)]
  exact if_congr (by omega) rfl rfl

/-- A request takes a free block, which is then at least as large as it asks. -/
structure Taken (bs bs' : List HeapBlock) (size p : ℤ) : Prop where
  lives : ∃ l r hb, lives bs = l ++ r ∧ lives bs' = l ++ hb :: r ∧ hb.payload = p ∧ size ≤ hb.hbSize
  free : ∃ hb ∈ bs, hb.hbMagic = .free ∧ hb.payload = p

theorem Taken.cons {bs' : List HeapBlock} {size p : ℤ} (h : Taken bs bs' size p) (x : HeapBlock) :
    Taken (x :: bs) (x :: bs') size p := by
  obtain ⟨⟨l, r, hb, hl, hl', hp, hsize⟩, y, hy, hfree⟩ := h
  refine ⟨?_, y, List.mem_cons_of_mem x hy, hfree⟩
  rcases magic_cases x.hbMagic with hx | hx
  · exact ⟨l, r, hb, by rw [lives_free hx, hl], by rw [lives_free hx, hl'], hp, hsize⟩
  · exact ⟨x :: l, r, hb, by rw [lives_alloc hx, hl]; rfl, by rw [lives_alloc hx, hl']; rfl, hp,
      hsize⟩

theorem mallocBlocks_spec {size p : ℤ} {bs' : List HeapBlock} (h : Laid f first bs stop)
    (hregion : stop - first < 2 ^ 31) (hsize : 32 ≤ size)
    (hm : mallocBlocks size bs = some (p, bs')) :
    Laid f first bs' stop ∧ Taken bs bs' size p := by
  induction bs generalizing f first bs' with
  | nil => exact absurd hm nofun
  | cons hb rest ih =>
    have hbounds := h.tiles.bounds List.mem_cons_self
    obtain ⟨haddr, hheader, hf, hrest⟩ := h
    unfold mallocBlocks at hm
    unfold sizeofHeapBlock at hheader
    split at hm
    · next hfits =>
      obtain ⟨hfree, hle⟩ := hfits
      obtain ⟨rfl, rfl⟩ := Prod.ext_iff.mp (Option.some.inj hm).symm
      have hf : f = false := by
        cases f with
        | false => rfl
        | true => exact absurd (hfree.symm.trans (hf rfl)) nofun
      subst hf
      rw [place_eq hle (by omega) (by omega)]
      split
      · refine ⟨⟨haddr, hheader, nofun, hrest.of_free .alloc nofun⟩, ?_, hb, List.mem_cons_self,
          hfree, rfl⟩
        exact ⟨[], lives rest, ⟨hb.addr, hb.hbSize, .alloc⟩, lives_free hfree rest,
          lives_alloc rfl rest, rfl, hle⟩
      · refine ⟨⟨haddr, show (24 : ℤ) ≤ size by omega, nofun, ?_⟩, ?_, hb, List.mem_cons_self,
          hfree, rfl⟩
        · refine ⟨by rw [← haddr], show (24 : ℤ) ≤ hb.hbSize - size by omega, nofun, ?_⟩
          have hend : first + size + (hb.hbSize - size) = first + hb.hbSize := by omega
          change Laid true (first + size + (hb.hbSize - size)) rest stop
          rw [hend]
          rw [hfree] at hrest
          exact hrest
        · refine ⟨[], lives rest, ⟨hb.addr, size, .alloc⟩, lives_free hfree rest, ?_, rfl, le_rfl⟩
          exact (lives_alloc rfl _).trans (congrArg _ (lives_free rfl rest))
    · obtain ⟨r, hr, hpair⟩ := Option.map_eq_some_iff.mp hm
      obtain ⟨rfl, rfl⟩ := Prod.ext_iff.mp hpair.symm
      obtain ⟨hlaid, htaken⟩ := ih hrest (by omega) hr
      exact ⟨⟨haddr, hheader, hf, hlaid⟩, htaken.cons hb⟩

theorem mallocBlocks_none {size : ℤ} (h : mallocBlocks size bs = none) (hb : HeapBlock)
    (hmem : hb ∈ bs) (hfree : hb.hbMagic = .free) : hb.hbSize < size := by
  induction bs with
  | nil => exact absurd hmem List.not_mem_nil
  | cons x bs ih =>
    unfold mallocBlocks at h
    split at h
    · exact absurd h nofun
    · next hfits =>
      rcases List.mem_cons.mp hmem with rfl | hbs
      · by_contra hle
        exact hfits ⟨hfree, by omega⟩
      · exact ih (Option.map_eq_none_iff.mp h) hbs

/-! ## Giving a block back -/

/-- The block `hb` has gone from the allocated ones, and its space is in a free block; or a block that
is allocated before it has grown by its space. -/
inductive Freed (hb : HeapBlock) (bs bs' : List HeapBlock) : Prop
  | reclaimed (before : ∀ p ∈ lives bs, p.addr + p.hbSize ≠ hb.addr)
      (lives : ∃ l r, lives bs = l ++ hb :: r ∧ lives bs' = l ++ r)
      (free : ∃ x ∈ bs', x.hbMagic = .free ∧ x.addr ≤ hb.addr
        ∧ hb.addr + hb.hbSize ≤ x.addr + x.hbSize)
  | absorbed (lives : ∃ l r p s, lives bs = l ++ p :: hb :: r ∧ p.addr + p.hbSize = hb.addr
        ∧ lives bs' = l ++ ⟨p.addr, s, .alloc⟩ :: r ∧ p.hbSize + hb.hbSize ≤ s)

theorem freeHead_alloc (h : hb.hbMagic = .alloc) (rest : List HeapBlock) :
    freeHead (hb :: rest) = mergeNext (⟨hb.addr, hb.hbSize, .free⟩ :: rest) := if_pos h

theorem mergeNext_free {next : HeapBlock} (h : next.hbMagic = .free) (hlt : hb.addr < next.addr)
    {n : ℤ} (hn : toInt (hb.hbSize + next.hbSize) = n) (rest : List HeapBlock) :
    mergeNext (hb :: next :: rest) = .ok (⟨hb.addr, n, hb.hbMagic⟩ :: rest) := by
  rw [← hn]
  exact (if_pos h).trans (if_pos hlt)

theorem mergeNext_alloc {next : HeapBlock} (h : next.hbMagic = .alloc) (rest : List HeapBlock) :
    mergeNext (hb :: next :: rest) = .ok (hb :: next :: rest) :=
  if_neg (by rw [h]; nofun)

theorem freeHead_spec {rest : List HeapBlock} (h : Laid f first (hb :: rest) stop)
    (hregion : stop - first < 2 ^ 31) (halloc : hb.hbMagic = .alloc) :
    ∃ s back, freeHead (hb :: rest) = .ok (⟨hb.addr, s, .free⟩ :: back) ∧ hb.hbSize ≤ s
      ∧ Laid true (first + s) back stop ∧ lives back = lives rest := by
  have hlive := h
  obtain ⟨haddr, hheader, -, hrest⟩ := h
  rw [freeHead_alloc halloc]
  cases rest with
  | nil => exact ⟨hb.hbSize, [], rfl, le_rfl, hrest, rfl⟩
  | cons next back =>
    obtain ⟨hnext, hnextHeader, -, hback⟩ := hrest
    unfold sizeofHeapBlock at hheader hnextHeader
    rcases magic_cases next.hbMagic with hm | hm
    · have hbounds := hlive.tiles.bounds (List.mem_cons_of_mem hb List.mem_cons_self)
      have hsum : toInt (hb.hbSize + next.hbSize) = hb.hbSize + next.hbSize :=
        toInt_eq (by omega) (by omega)
      refine ⟨hb.hbSize + next.hbSize, back, ?_, by omega, ?_, (lives_free hm back).symm⟩
      · exact @mergeNext_free ⟨hb.addr, hb.hbSize, .free⟩ next hm
          (show hb.addr < next.addr by omega) _ hsum back
      · rw [hm, add_assoc] at hback
        exact hback
    · exact ⟨hb.hbSize, next :: back, mergeNext_alloc hm back, le_rfl,
        ⟨hnext, hnextHeader, fun _ => hm, hback⟩, rfl⟩

theorem Freed.cons {hb : HeapBlock} {bs bs' : List HeapBlock} (h : Freed hb bs bs') {x : HeapBlock}
    (hx : x.hbMagic = .alloc → x.addr + x.hbSize ≠ hb.addr) : Freed hb (x :: bs) (x :: bs') := by
  rcases magic_cases x.hbMagic with hm | hm
  · cases h with
    | reclaimed before lives free =>
      obtain ⟨y, hy, hfree⟩ := free
      refine .reclaimed ?_ ?_ ⟨y, List.mem_cons_of_mem x hy, hfree⟩
      · rwa [lives_free hm]
      · rwa [lives_free hm, lives_free hm]
    | absorbed lives =>
      refine .absorbed ?_
      rwa [lives_free hm, lives_free hm]
  · cases h with
    | reclaimed before lives free =>
      obtain ⟨y, hy, hfree⟩ := free
      obtain ⟨l, r, hl, hl'⟩ := lives
      refine .reclaimed ?_ ⟨x :: l, r, ?_, ?_⟩ ⟨y, List.mem_cons_of_mem x hy, hfree⟩
      · rw [lives_alloc hm]
        exact List.forall_mem_cons.mpr ⟨hx hm, before⟩
      · rw [lives_alloc hm, hl]
        rfl
      · rw [lives_alloc hm, hl']
        rfl
    | absorbed lives =>
      obtain ⟨l, r, p, s, hl, hp, hl', hs⟩ := lives
      refine .absorbed ⟨x :: l, r, p, s, ?_, hp, ?_, hs⟩
      · rw [lives_alloc hm, hl]
        rfl
      · rw [lives_alloc hm, hl']
        rfl

theorem freeFirst_spec {rest : List HeapBlock} (h : Laid false first (hb :: rest) stop)
    (hregion : stop - first < 2 ^ 31) (halloc : hb.hbMagic = .alloc) :
    ∃ bs', freeHead (hb :: rest) = .ok bs' ∧ Laid false first bs' stop
      ∧ Freed hb (hb :: rest) bs' := by
  have hlive := h
  obtain ⟨s, back, hfree, hle, hback, hlives⟩ := freeHead_spec h hregion halloc
  obtain ⟨haddr, hheader, -, hrest⟩ := h
  refine ⟨_, hfree, ⟨haddr, le_trans hheader hle, nofun, hback⟩, .reclaimed ?_ ?_ ?_⟩
  · intro p hp
    have := hlive.tiles.bounds (mem_lives.mp hp).1
    omega
  · exact ⟨[], lives rest, lives_alloc halloc rest, (lives_free rfl back).trans hlives⟩
  · exact ⟨_, List.mem_cons_self, rfl, le_rfl, Int.add_le_add_left hle hb.addr⟩

theorem freeSecond_spec {p : HeapBlock} {rest : List HeapBlock}
    (h : Laid f first (p :: hb :: rest) stop) (hregion : stop - first < 2 ^ 31)
    (halloc : hb.hbMagic = .alloc) :
    ∃ bs', (freeHead (hb :: rest) >>= fun bs => mergeNext (p :: bs)) = .ok bs'
      ∧ Laid f first bs' stop ∧ Freed hb (p :: hb :: rest) bs' := by
  have hlive := h
  obtain ⟨haddr, hheader, hf, hrest⟩ := h
  have hbounds := hlive.tiles.bounds List.mem_cons_self
  have hboundsHb := hrest.tiles.bounds List.mem_cons_self
  obtain ⟨s, back, hfree, hle, hback, hlives⟩ := freeHead_spec hrest (by omega) halloc
  have hstart := hrest.1
  have hend := hback.tiles.le
  unfold sizeofHeapBlock at hheader
  have hsum : toInt (p.hbSize + s) = p.hbSize + s := toInt_eq (by omega) (by omega)
  refine ⟨⟨p.addr, p.hbSize + s, p.hbMagic⟩ :: back, ?_, ?_, ?_⟩
  · rw [hfree]
    exact @mergeNext_free p ⟨hb.addr, s, .free⟩ rfl (show p.addr < hb.addr by omega) _ hsum back
  · refine ⟨haddr, show (24 : ℤ) ≤ p.hbSize + s by omega, hf, ?_⟩
    rw [add_assoc] at hback
    rcases magic_cases p.hbMagic with hm | hm
    · rw [hm]
      exact hback
    · rw [hm]
      exact hback.weaken
  · rcases magic_cases p.hbMagic with hm | hm
    · refine .reclaimed ?_ ⟨[], lives rest, ?_, ?_⟩ ⟨_, List.mem_cons_self, hm, ?_, ?_⟩
      · intro q hq
        rw [lives_free hm] at hq
        have := hrest.tiles.bounds (mem_lives.mp hq).1
        omega
      · rw [lives_free hm, lives_alloc halloc]
        rfl
      · exact (@lives_free ⟨p.addr, p.hbSize + s, p.hbMagic⟩ hm back).trans hlives
      · change p.addr ≤ hb.addr
        omega
      · change hb.addr + hb.hbSize ≤ p.addr + (p.hbSize + s)
        omega
    · refine .absorbed ⟨[], lives rest, p, p.hbSize + s, ?_, by omega, ?_, by omega⟩
      · rw [lives_alloc hm, lives_alloc halloc]
        rfl
      · rw [hm, ← hlives]
        exact lives_alloc rfl back

theorem freeBlocks_spec (h : Laid f first bs stop) (hregion : stop - first < 2 ^ 31)
    (hmem : hb ∈ bs) (halloc : hb.hbMagic = .alloc) (hf : f = true → hb.addr ≠ first) :
    ∃ bs', freeBlocks hb.addr bs = .ok bs' ∧ Laid f first bs' stop ∧ Freed hb bs bs' := by
  induction bs generalizing f first with
  | nil => exact absurd hmem List.not_mem_nil
  | cons x rest ih =>
    have hlive := h
    obtain ⟨haddr, hheader, hfx, hrest⟩ := h
    have hbounds := hlive.tiles.bounds List.mem_cons_self
    unfold freeBlocks
    by_cases heq : x.addr = hb.addr
    · obtain rfl := hlive.tiles.eq_of_lo List.mem_cons_self hmem heq
      rw [if_pos rfl]
      have hfalse : f = false := by
        cases f with
        | false => rfl
        | true => exact absurd haddr (hf rfl)
      subst hfalse
      exact freeFirst_spec hlive hregion halloc
    · have hmemRest : hb ∈ rest := by
        rcases List.mem_cons.mp hmem with rfl | hr
        · exact absurd rfl heq
        · exact hr
      rw [if_neg heq]
      by_cases hnext : rest.head?.map HeapBlock.addr = some hb.addr
      · rw [if_pos hnext]
        obtain ⟨y, hy, haddry⟩ := Option.map_eq_some_iff.mp hnext
        obtain ⟨tail, rfl⟩ := List.head?_eq_some_iff.mp hy
        obtain rfl := hrest.tiles.eq_of_lo List.mem_cons_self hmemRest haddry
        exact freeSecond_spec hlive hregion halloc
      · rw [if_neg hnext]
        have hnot : hb.addr ≠ first + x.hbSize := by
          intro haddr'
          cases rest with
          | nil => exact absurd hmemRest List.not_mem_nil
          | cons y tail => exact hnext (congrArg some (hrest.1.trans haddr'.symm))
        obtain ⟨bs', hfree, hlaid, hfreed⟩ := ih hrest (by omega) hmemRest fun _ => hnot
        refine ⟨x :: bs', ?_, ⟨haddr, hheader, hfx, hlaid⟩, hfreed.cons fun _ => by omega⟩
        rw [hfree]
        rfl

/-! ## What is live after a block was freed -/

theorem Laid.lives_pairwise (h : Laid f first bs stop) :
    (lives bs).Pairwise fun x y => x.addr + x.hbSize ≤ y.addr :=
  h.tiles.pairwise.filter _

theorem Laid.eq_of_payload (h : Laid f first bs stop) {x y : HeapBlock} (hx : x ∈ bs)
    (hy : y ∈ bs) (heq : x.payload = y.payload) : x = y :=
  h.tiles.eq_of_lo hx hy (add_right_cancel heq)

theorem Laid.lives_pos (h : Laid f first bs stop) (x : HeapBlock) (hx : x ∈ lives bs) :
    0 < x.hbSize := (h.tiles.bounds (mem_lives.mp hx).1).2.1

theorem Laid.others (h : Laid f first bs stop) {l r : List HeapBlock}
    (hl : lives bs = l ++ hb :: r) (x : HeapBlock) (hx : x ∈ l ++ r) : x.addr ≠ hb.addr := by
  have hpair := h.lives_pairwise
  have hpos := h.lives_pos
  rw [hl] at hpair hpos
  obtain ⟨-, hpr, hcross⟩ := List.pairwise_append.mp hpair
  rcases List.mem_append.mp hx with hx | hx
  · have := hcross x hx hb List.mem_cons_self
    have := hpos x (List.mem_append_left _ hx)
    omega
  · have := (List.pairwise_cons.mp hpr).1 x hx
    have := hpos hb (List.mem_append_right _ List.mem_cons_self)
    omega

/-- The freed block is gone, and no other one is smaller. -/
structure Released (hb : HeapBlock) (bs bs' : List HeapBlock) : Prop where
  old : ∀ x ∈ lives bs', ∃ y ∈ lives bs, y.addr = x.addr ∧ y.hbSize ≤ x.hbSize ∧ x.addr ≠ hb.addr
  kept : ∀ y ∈ lives bs, y.addr ≠ hb.addr → ∃ x ∈ lives bs', x.addr = y.addr ∧ y.hbSize ≤ x.hbSize

theorem Freed.released {bs' : List HeapBlock} (h : Laid f first bs stop)
    (hfreed : Freed hb bs bs') : Released hb bs bs' := by
  cases hfreed with
  | reclaimed before hlives free =>
    obtain ⟨l, r, hl, hl'⟩ := hlives
    constructor
    · intro x hx
      rw [hl'] at hx
      refine ⟨x, ?_, rfl, le_rfl, h.others hl x hx⟩
      rw [hl]
      exact List.mem_append.mpr ((List.mem_append.mp hx).imp_right (List.mem_cons_of_mem hb))
    · intro y hy hne
      rw [hl] at hy
      refine ⟨y, ?_, rfl, le_rfl⟩
      rw [hl']
      rcases List.mem_append.mp hy with hy | hy
      · exact List.mem_append_left _ hy
      · rcases List.mem_cons.mp hy with rfl | hy
        · exact absurd rfl hne
        · exact List.mem_append_right _ hy
  | absorbed hlives =>
    obtain ⟨l, r, p, s, hl, hp, hl', hs⟩ := hlives
    have hpos := h.lives_pos
    have hl2 : lives bs = (l ++ [p]) ++ hb :: r := by rw [hl, List.append_assoc]; rfl
    have hothers := h.others hl2
    have hhb := hpos hb (hl2 ▸ List.mem_append_right _ List.mem_cons_self)
    constructor
    · intro x hx
      rw [hl'] at hx
      rw [hl]
      rcases List.mem_append.mp hx with hx | hx
      · exact ⟨x, List.mem_append_left _ hx, rfl, le_rfl,
          hothers x (List.mem_append_left _ (List.mem_append_left _ hx))⟩
      · rcases List.mem_cons.mp hx with rfl | hx
        · refine ⟨p, List.mem_append_right _ List.mem_cons_self, rfl, ?_, ?_⟩
          · change p.hbSize ≤ s
            omega
          · exact hothers p (List.mem_append_left _ (List.mem_append_right _ List.mem_cons_self))
        · exact ⟨x, List.mem_append_right _ (List.mem_cons_of_mem _ (List.mem_cons_of_mem _ hx)), rfl,
            le_rfl, hothers x (List.mem_append_right _ hx)⟩
    · intro y hy hne
      rw [hl] at hy
      rw [hl']
      rcases List.mem_append.mp hy with hy | hy
      · exact ⟨y, List.mem_append_left _ hy, rfl, le_rfl⟩
      · rcases List.mem_cons.mp hy with rfl | hy
        · refine ⟨_, List.mem_append_right _ List.mem_cons_self, rfl, ?_⟩
          change y.hbSize ≤ s
          omega
        · rcases List.mem_cons.mp hy with rfl | hy
          · exact absurd rfl hne
          · exact ⟨y, List.mem_append_right _ (List.mem_cons_of_mem _ hy), rfl, le_rfl⟩

end Vmir.HeapBlocks
