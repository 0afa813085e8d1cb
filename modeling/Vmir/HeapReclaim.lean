import Mathlib.Data.List.Perm.Basic
import Vmir.HeapSafety

set_option autoImplicit false

/-!
# What becomes of a freed block
-/
namespace Vmir.HeapReclaim
open Ir Tiling FirstFitHeap HeapBlocks HeapSafety

def FreeSpace (bs : List HeapBlock) (p : ℤ) : Prop :=
  ∃ x ∈ bs, x.hbMagic = .free ∧ Within HeapBlock.addr HeapBlock.hbSize x p

section
variable (heapStart : ℤ) (bookkeeping : List HeapBlock → ℤ → BitVec 8)

/-- Freeing `hb` makes its space free and nothing else: the other live blocks keep their sizes and
contents, no two neighbours are free, and a request that the block was large enough for is met. -/
structure Reclaims (h : Heap) (hb : HeapBlock) (h' : Heap) : Prop where
  others : ∀ x, x ∈ lives h'.hBlocks ↔ x ∈ lives h.hBlocks ∧ x ≠ hb
  contents : ∀ x ∈ lives h.hBlocks, x ≠ hb →
    ∀ p, x.payload ≤ p → p < x.addr + x.hbSize → h'.mem p = h.mem p
  space : ∀ p, FreeSpace h'.hBlocks p
    ↔ FreeSpace h.hBlocks p ∨ Within HeapBlock.addr HeapBlock.hbSize hb p
  apart : h'.hBlocks.IsChain fun x y => ¬ (x.hbMagic = .free ∧ y.hbMagic = .free)
  available : ∀ size, Requestable size.toNat → blockSize size ≤ hb.hbSize →
    (vmirHeapMalloc heapStart bookkeeping h' size).1 ≠ none

def freeAll (h : Heap) : List ℤ → Except Fault Heap
  | [] => .ok h
  | p :: ps => do
    let h ← vmirHeapFree heapStart bookkeeping h p
    freeAll h ps

/-- The block is reclaimed, and freeing all live blocks, in any order, leaves one free block. -/
structure FreesWell (memsize : ℤ) (h : Heap) (hb : HeapBlock) : Prop where
  reclaims : ∃ h', vmirHeapFree heapStart bookkeeping h hb.payload = .ok h'
    ∧ Reclaims heapStart bookkeeping h hb h'
  all : ∀ order, order.Perm ((lives h.hBlocks).map HeapBlock.payload) →
    ∃ h', freeAll heapStart bookkeeping h order = .ok h'
      ∧ h'.hBlocks = [⟨heapStart + sizeofHeap, memsize - (heapStart + sizeofHeap), .free⟩]

end

/-! ## All blocks -/

variable {first stop : ℤ} {bs bs' : List HeapBlock} {hb : HeapBlock}

theorem payloads_nodup {f : Bool} (h : Laid f first bs stop) :
    ((lives bs).map HeapBlock.payload).Nodup := by
  refine List.pairwise_map.mpr ?_
  have hpos := h.lives_pos
  refine h.lives_pairwise.imp_of_mem fun {x y} hx _ hxy heq => ?_
  have := hpos x hx
  have := add_right_cancel heq
  omega

theorem payloads_freed {f f' : Bool} (h : Laid f first bs stop) (h' : Laid f' first bs' stop)
    (hmem : hb ∈ lives bs) (hrel : Released hb bs bs') :
    ((lives bs).map HeapBlock.payload).Perm
      (hb.payload :: (lives bs').map HeapBlock.payload) := by
  have hnot : hb.payload ∉ (lives bs').map HeapBlock.payload := by
    intro hin
    obtain ⟨x, hx, heq⟩ := List.mem_map.mp hin
    obtain ⟨y, hy, hyx, -, hne⟩ := hrel.old x hx
    exact hne (add_right_cancel heq)
  refine (List.perm_ext_iff_of_nodup (payloads_nodup h)
    (List.nodup_cons.mpr ⟨hnot, payloads_nodup h'⟩)).mpr fun p => ?_
  rw [List.mem_cons]
  constructor
  · intro hp
    obtain ⟨y, hy, rfl⟩ := List.mem_map.mp hp
    by_cases heq : y.addr = hb.addr
    · exact Or.inl (congrArg (· + sizeofHeapBlock) heq)
    · obtain ⟨x, hx, hxy, -⟩ := hrel.kept y hy heq
      exact Or.inr (List.mem_map.mpr ⟨x, hx, congrArg (· + sizeofHeapBlock) hxy⟩)
  · rintro (rfl | hp)
    · exact List.mem_map.mpr ⟨hb, hmem, rfl⟩
    · obtain ⟨x, hx, rfl⟩ := List.mem_map.mp hp
      obtain ⟨y, hy, hyx, -⟩ := hrel.old x hx
      exact List.mem_map.mpr ⟨y, hy, congrArg (· + sizeofHeapBlock) hyx⟩

theorem single_of_no_lives (h : Laid false first bs stop) (hlt : first < stop)
    (hnone : lives bs = []) : bs = [⟨first, stop - first, .free⟩] := by
  cases bs with
  | nil =>
    have : first = stop := h
    omega
  | cons x bs =>
    have hx : x.hbMagic = .free := by
      rcases magic_cases x.hbMagic with hm | hm
      · exact hm
      · rw [lives_alloc hm] at hnone
        exact absurd hnone nofun
    obtain ⟨haddr, -, -, hrest⟩ := h
    cases bs with
    | nil =>
      have hend : first + x.hbSize = stop := hrest
      obtain ⟨addr, hbSize, hbMagic⟩ := x
      change addr = first at haddr
      change first + hbSize = stop at hend
      change hbMagic = .free at hx
      rw [haddr, hx, show hbSize = stop - first by omega]
    | cons y bs =>
      have hy := hrest.2.2.1 (decide_eq_true hx)
      rw [lives_free hx, lives_alloc hy] at hnone
      exact absurd hnone nofun

section
variable (heapStart : ℤ) (bookkeeping : List HeapBlock → ℤ → BitVec 8) {h : Heap}

theorem free_freed (hlaid : Laid false first h.hBlocks stop) (hregion : stop - first < 2 ^ 31)
    (hmem : hb ∈ lives h.hBlocks) : ∃ bs, vmirHeapFree heapStart bookkeeping h hb.payload
        = .ok ⟨bs, writeHeaders heapStart bookkeeping bs h.mem⟩
      ∧ Laid false first bs stop ∧ Freed hb h.hBlocks bs := by
  obtain ⟨hbs, halloc⟩ := mem_lives.mp hmem
  obtain ⟨bs, hfree, hspec⟩ := freeBlocks_spec hlaid hregion hbs halloc nofun
  refine ⟨bs, ?_, hspec⟩
  unfold vmirHeapFree
  rw [show hb.payload - sizeofHeapBlock = hb.addr from add_sub_cancel_right _ _, hfree]
  rfl

theorem freeAll_single (hlaid : Laid false first h.hBlocks stop) (hregion : stop - first < 2 ^ 31)
    (hlt : first < stop) {order : List ℤ}
    (horder : order.Perm ((lives h.hBlocks).map HeapBlock.payload)) :
    ∃ h', freeAll heapStart bookkeeping h order = .ok h'
      ∧ h'.hBlocks = [⟨first, stop - first, .free⟩] := by
  induction order generalizing h with
  | nil =>
    have hnone := List.map_eq_nil_iff.mp (List.perm_nil.mp horder.symm)
    exact ⟨h, rfl, single_of_no_lives hlaid hlt hnone⟩
  | cons p ps ih =>
    obtain ⟨hb, hmem, rfl⟩ := List.mem_map.mp (horder.subset List.mem_cons_self)
    obtain ⟨bs, hfree, hlaid', hfreed⟩ := free_freed heapStart bookkeeping hlaid hregion hmem
    have hperm := horder.trans (payloads_freed hlaid hlaid' hmem (hfreed.released hlaid))
    obtain ⟨h', hall, hsingle⟩ := ih (h := ⟨bs, writeHeaders heapStart bookkeeping bs h.mem⟩) hlaid'
      ((List.perm_cons _).mp hperm)
    refine ⟨h', ?_, hsingle⟩
    unfold freeAll
    rw [hfree]
    exact hall

end

/-! ## One block -/

theorem freeSpace_iff (h : Laid false first bs stop) (p : ℤ) : FreeSpace bs p
    ↔ (first ≤ p ∧ p < stop) ∧ ∀ x ∈ lives bs, ¬ Within HeapBlock.addr HeapBlock.hbSize x p := by
  constructor
  · rintro ⟨y, hy, hfree, hin⟩
    have hbounds := h.tiles.bounds hy
    have hwithin := hin
    obtain ⟨h1, h2⟩ := hwithin
    refine ⟨by omega, fun x hx hxp => ?_⟩
    obtain ⟨hxbs, halloc⟩ := mem_lives.mp hx
    obtain rfl := h.tiles.eq_of_within hxbs hy hxp hin
    exact absurd (halloc.symm.trans hfree) nofun
  · rintro ⟨hin, hnot⟩
    obtain ⟨y, hy, hyp⟩ := h.tiles.exists_within hin
    refine ⟨y, hy, ?_, hyp⟩
    rcases magic_cases y.hbMagic with hm | hm
    · exact hm
    · exact absurd hyp (hnot y (mem_lives.mpr ⟨hy, hm⟩))

theorem not_inHeader {heapStart : ℤ} (h : Laid false (heapStart + sizeofHeap) bs stop)
    {x : HeapBlock} (hx : x ∈ bs) {p : ℤ} (hp1 : x.payload ≤ p) (hp2 : p < x.addr + x.hbSize) :
    ¬ InHeader heapStart bs p := by
  have hbounds := h.tiles.bounds hx
  unfold HeapBlock.payload sizeofHeapBlock at hp1
  unfold sizeofHeap at hbounds
  rintro (⟨h1, h2⟩ | ⟨y, hy, h1, h2⟩)
  · unfold sizeofHeap at h2
    omega
  · have hheader := h.header hy
    unfold sizeofHeapBlock at h2 hheader
    obtain rfl := h.tiles.eq_of_within hx hy (p := p) ⟨by omega, hp2⟩ ⟨h1, by omega⟩
    omega

theorem mallocBlocks_ne_none {size : ℤ} (hmem : hb ∈ bs) (hfree : hb.hbMagic = .free)
    (hle : size ≤ hb.hbSize) : mallocBlocks size bs ≠ none := by
  intro hnone
  have := mallocBlocks_none hnone hb hmem hfree
  omega

theorem mem_others {f : Bool} (h : Laid f first bs stop) {l r : List HeapBlock}
    (hl : lives bs = l ++ hb :: r) (x : HeapBlock) :
    x ∈ l ++ r ↔ x ∈ lives bs ∧ x ≠ hb := by
  rw [hl]
  constructor
  · intro hx
    exact ⟨List.mem_append.mpr ((List.mem_append.mp hx).imp_right (List.mem_cons_of_mem hb)),
      fun heq => h.others hl x hx (congrArg HeapBlock.addr heq)⟩
  · rintro ⟨hx, hne⟩
    rcases List.mem_append.mp hx with hx | hx
    · exact List.mem_append_left _ hx
    · exact List.mem_append_right _ ((List.mem_cons.mp hx).resolve_left hne)

section
variable {heapStart : ℤ} {bookkeeping : List HeapBlock → ℤ → BitVec 8} {h : Heap}

theorem reclaims_of_freed (hlaid : Laid false (heapStart + sizeofHeap) h.hBlocks stop)
    (hlaid' : Laid false (heapStart + sizeofHeap) bs stop) (hmem : hb ∈ lives h.hBlocks)
    (hlives : ∃ l r, lives h.hBlocks = l ++ hb :: r ∧ lives bs = l ++ r)
    (hfree : ∃ x ∈ bs, x.hbMagic = .free ∧ x.addr ≤ hb.addr
      ∧ hb.addr + hb.hbSize ≤ x.addr + x.hbSize) :
    Reclaims heapStart bookkeeping h hb ⟨bs, writeHeaders heapStart bookkeeping bs h.mem⟩ := by
  obtain ⟨l, r, hl, hl'⟩ := hlives
  have hothers : ∀ x, x ∈ lives bs ↔ x ∈ lives h.hBlocks ∧ x ≠ hb := fun x => by
    rw [hl']
    exact mem_others hlaid hl x
  refine ⟨hothers, ?_, ?_, hlaid'.apart, ?_⟩
  · intro x hx hne p hp1 hp2
    have hxbs := (mem_lives.mp ((hothers x).mpr ⟨hx, hne⟩)).1
    exact if_neg (not_inHeader hlaid' hxbs hp1 hp2)
  · intro p
    change FreeSpace bs p ↔ _
    rw [freeSpace_iff hlaid', freeSpace_iff hlaid]
    have hbs := (mem_lives.mp hmem).1
    constructor
    · rintro ⟨hin, hnot⟩
      by_cases hp : Within HeapBlock.addr HeapBlock.hbSize hb p
      · exact Or.inr hp
      · refine Or.inl ⟨hin, fun x hx hxp => ?_⟩
        by_cases heq : x = hb
        · exact hp (heq ▸ hxp)
        · exact hnot x ((hothers x).mpr ⟨hx, heq⟩) hxp
    · rintro (⟨hin, hnot⟩ | hp)
      · exact ⟨hin, fun x hx => hnot x ((hothers x).mp hx).1⟩
      · have hbounds := hlaid.tiles.bounds hbs
        have hwithin := hp
        obtain ⟨h1, h2⟩ := hwithin
        refine ⟨by omega, fun x hx hxp => ?_⟩
        obtain ⟨hx, hne⟩ := (hothers x).mp hx
        exact hne (hlaid.tiles.eq_of_within (mem_lives.mp hx).1 hbs hxp hp)
  · intro size hcount hle hnone
    obtain ⟨x, hx, hxfree, h1, h2⟩ := hfree
    have hm : mallocBlocks (blockSize size) bs ≠ none :=
      mallocBlocks_ne_none hx hxfree (by omega)
    unfold vmirHeapMalloc at hnone
    cases hcase : mallocBlocks (blockSize size) bs with
    | none => exact hm hcase
    | some r =>
      simp only [hcase] at hnone
      exact absurd hnone nofun

theorem not_reclaims_of_absorbed {h' : Heap} {f : Bool} (hlaid : Laid f first h'.hBlocks stop)
    (hhb : 0 < hb.hbSize)
    (hlives : ∃ l r p s, lives h.hBlocks = l ++ p :: hb :: r ∧ p.addr + p.hbSize = hb.addr
      ∧ lives h'.hBlocks = l ++ ⟨p.addr, s, .alloc⟩ :: r ∧ p.hbSize + hb.hbSize ≤ s)
    (hpos : ∀ x ∈ lives h.hBlocks, 0 < x.hbSize) :
    ¬ Reclaims heapStart bookkeeping h hb h' := by
  obtain ⟨l, r, p, s, hl, hp, hl', hs⟩ := hlives
  intro hrec
  have hpmem : p ∈ lives h.hBlocks := hl ▸ List.mem_append_right _ List.mem_cons_self
  have := hpos p hpmem
  have hne : p ≠ hb := fun heq => by
    rw [heq] at hp this
    omega
  have hpkept := (hrec.others p).mpr ⟨hpmem, hne⟩
  have hgrown : (⟨p.addr, s, .alloc⟩ : HeapBlock) ∈ lives h'.hBlocks :=
    hl' ▸ List.mem_append_right _ List.mem_cons_self
  have heq := hlaid.tiles.eq_of_lo (mem_lives.mp hpkept).1 (mem_lives.mp hgrown).1 rfl
  have hsize : p.hbSize = s := congrArg HeapBlock.hbSize heq
  omega

variable {memsize : ℤ} {s : Session}

theorem before_of_reclaims (hregion : Region heapStart memsize)
    (hs : Reach heapStart memsize bookkeeping (fun op => Requestable (asked op)) s)
    (hmem : hb ∈ lives s.heap.hBlocks)
    (hwell : ∃ h', vmirHeapFree heapStart bookkeeping s.heap hb.payload = .ok h'
      ∧ Reclaims heapStart bookkeeping s.heap hb h') :
    ∀ p ∈ lives s.heap.hBlocks, p.addr + p.hbSize ≠ hb.addr := by
  have hserves := reach_serves hregion hs
  obtain ⟨hstart, hroom, hint⟩ := hregion
  obtain ⟨h', hexec, hrec⟩ := hwell
  have hlt : memsize - (heapStart + sizeofHeap) < 2 ^ 31 := by
    unfold sizeofHeap
    omega
  obtain ⟨bs, hfree, hlaid, hfreed⟩ := free_freed heapStart bookkeeping hserves.laid hlt hmem
  obtain rfl := Except.ok.inj (hexec.symm.trans hfree)
  cases hfreed with
  | reclaimed before hlives free => exact before
  | absorbed hlives =>
    exact absurd hrec (not_reclaims_of_absorbed hlaid (hserves.laid.lives_pos hb hmem) hlives
      hserves.laid.lives_pos)

def twoBlocks : Session :=
  ⟨⟨[⟨4112, 128, .alloc⟩, ⟨4240, 128, .alloc⟩, ⟨4368, 61168, .free⟩], fun _ => 0⟩,
    [(4264, 100), (4136, 100)]⟩

theorem twoBlocks_reached :
    Reach 4096 65536 (fun _ _ => 0) (fun op => Requestable (asked op)) twoBlocks := by
  have hcount : Requestable (asked (.malloc 100)) := Nat.lt_of_sub_pos (by decide)
  have hm : mallocBlocks (blockSize 100) [⟨4112, 128, .alloc⟩, ⟨4240, 61296, .free⟩]
      = some (4264, twoBlocks.heap.hBlocks) := by decide
  have hfirst := @smallHeap_malloc (fun op => Requestable (asked op)) 100 hcount
    [⟨4112, 128, .alloc⟩, ⟨4240, 61296, .free⟩] (by decide)
  refine @Reach.call 4096 65536 _ _ _ hfirst (.malloc 100) trivial hcount (some 4264) _ ?_
  unfold exec vmirHeapMalloc
  simp only [hm]
  rw [writeHeaders_zero]
  rfl

/-- The second block is freed while the first is live: the first one takes its space. -/
theorem neighbour_takes_space : ¬ ∀ s hb,
    Reach 4096 65536 (fun _ _ => 0) (fun op => Requestable (asked op)) s →
      hb ∈ lives s.heap.hBlocks → FreesWell 4096 (fun _ _ => 0) 65536 s.heap hb := by
  intro h
  have hmem : (⟨4240, 128, .alloc⟩ : HeapBlock) ∈ lives twoBlocks.heap.hBlocks := by decide
  have hwell := h twoBlocks ⟨4240, 128, .alloc⟩ twoBlocks_reached hmem
  exact before_of_reclaims smallRegion twoBlocks_reached hmem hwell.reclaims ⟨4112, 128, .alloc⟩
    (by decide) (by decide)

/-- In a heap that was reached, a block is freed well unless a live block stands right before it. -/
theorem freesWell_iff (hregion : Region heapStart memsize)
    (hs : Reach heapStart memsize bookkeeping (fun op => Requestable (asked op)) s)
    (hmem : hb ∈ lives s.heap.hBlocks) :
    FreesWell heapStart bookkeeping memsize s.heap hb
      ↔ ∀ p ∈ lives s.heap.hBlocks, p.addr + p.hbSize ≠ hb.addr := by
  constructor
  · intro hwell
    exact before_of_reclaims hregion hs hmem hwell.reclaims
  · intro hbefore
    have hserves := reach_serves hregion hs
    obtain ⟨hstart, hroom, hint⟩ := hregion
    unfold sizeofHeapBlock at hroom
    have hlt : memsize - (heapStart + sizeofHeap) < 2 ^ 31 := by
      unfold sizeofHeap
      omega
    obtain ⟨bs, hfree, hlaid, hfreed⟩ := free_freed heapStart bookkeeping hserves.laid hlt hmem
    refine ⟨⟨_, hfree, ?_⟩, fun order horder => ?_⟩
    · cases hfreed with
      | reclaimed before hlives free => exact reclaims_of_freed hserves.laid hlaid hmem hlives free
      | absorbed hlives =>
        obtain ⟨l, r, p, s', hl, hp, -⟩ := hlives
        exact absurd hp (hbefore p (hl ▸ List.mem_append_right _ List.mem_cons_self))
    · exact freeAll_single heapStart bookkeeping hserves.laid hlt (by omega) horder

theorem freesWell_iff_first :
    FreesWell 4096 (fun _ _ => 0) 65536 twoBlocks.heap ⟨4112, 128, .alloc⟩ :=
  (freesWell_iff smallRegion twoBlocks_reached (by decide)).mpr (by decide)

end

end Vmir.HeapReclaim
