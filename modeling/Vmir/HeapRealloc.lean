import Vmir.HeapReclaim

set_option autoImplicit false

/-!
# What realloc gives
-/
namespace Vmir.HeapRealloc
open Ir Tiling FirstFitHeap HeapBlocks HeapSafety HeapReclaim

section
variable (heapStart memsize : ℤ) (bookkeeping : List HeapBlock → ℤ → BitVec 8)

/-- The pointer `n` is a block in guest memory for `size` bytes that starts with the contents of
`hb`, and the other live blocks are as they were. -/
structure Moved (h h' : Heap) (hb : HeapBlock) (size : ℕ) (n : ℤ) : Prop where
  block : ∃ b ∈ lives h'.hBlocks, b.payload = n ∧ size + sizeofHeapBlock ≤ b.hbSize
    ∧ b.addr + b.hbSize ≤ memsize
  contents : ∀ i, 0 ≤ i → i < min (hb.hbSize - sizeofHeapBlock) size →
    h'.mem (n + i) = h.mem (hb.payload + i)
  fresh : ∀ x ∈ lives h.hBlocks, x ≠ hb → x.payload ≠ n
  others : ∀ x ∈ lives h.hBlocks, x ≠ hb → x ∈ lives h'.hBlocks
    ∧ ∀ p, x.payload ≤ p → p < x.addr + x.hbSize → h'.mem p = h.mem p

/-- `realloc` of a live block to a size other than zero gives null and leaves everything as it was,
or moves the block; of a null pointer it is `malloc`, and to the size zero it is `free`. -/
structure Contract (h : Heap) (ptr : ℤ) (size : BitVec 32) : Prop where
  null : ptr = 0 → size ≠ 0 → exec heapStart bookkeeping h (.realloc ptr size)
    = exec heapStart bookkeeping h (.malloc size)
  zero : size = 0 → exec heapStart bookkeeping h (.realloc ptr size)
    = exec heapStart bookkeeping h (.free ptr)
  live : size ≠ 0 → ∀ hb ∈ lives h.hBlocks, hb.payload = ptr →
    ∃ r h', exec heapStart bookkeeping h (.realloc ptr size) = .ok (r, h')
      ∧ (r = none → h' = h) ∧ ∀ n, r = some n → Moved memsize h h' hb size.toNat n

end

/-- A size that is an `int`, and the block is large enough, or no free block is, or the size can be
counted with the header and no live block stands right before the block. -/
def Meets (h : Heap) (hb : HeapBlock) (size : BitVec 32) : Prop :=
  size.toNat < 2 ^ 31 ∧ (size.toNat < hb.hbSize - sizeofHeapBlock
    ∨ (∀ x ∈ h.hBlocks, x.hbMagic = .free → x.hbSize < blockSize size)
    ∨ Requestable size.toNat ∧ ∀ q ∈ lives h.hBlocks, q.addr + q.hbSize ≠ hb.addr)

/-! ## The calls -/

theorem mallocBlocks_some {size p : ℤ} {bs bs' : List HeapBlock}
    (h : mallocBlocks size bs = some (p, bs')) :
    ∃ y ∈ bs, y.hbMagic = .free ∧ size ≤ y.hbSize ∧ y.payload = p := by
  induction bs generalizing bs' with
  | nil => exact absurd h nofun
  | cons hb rest ih =>
    unfold mallocBlocks at h
    split at h
    · rename_i hfits
      cases h
      exact ⟨hb, List.mem_cons_self, hfits.1, hfits.2, rfl⟩
    · obtain ⟨r, hr, heq⟩ := Option.map_eq_some_iff.mp h
      cases heq
      obtain ⟨y, hy, hfit⟩ := ih hr
      exact ⟨y, List.mem_cons_of_mem hb hy, hfit⟩

section
variable {heapStart memsize first stop : ℤ} {bookkeeping : List HeapBlock → ℤ → BitVec 8}
  {h : Heap} {hb : HeapBlock} {size : BitVec 32} {l : List (ℤ × ℕ)}

theorem exec_realloc_zero (ptr : ℤ) : exec heapStart bookkeeping h (.realloc ptr 0)
    = exec heapStart bookkeeping h (.free ptr) := by
  change vmirHeapRealloc heapStart bookkeeping h (if ptr = 0 then none else some ptr) 0
    = if ptr = 0 then .ok (none, h) else _
  unfold vmirHeapRealloc
  rw [if_neg (not_not.mpr rfl)]
  split
  · rfl
  · rfl

theorem exec_realloc_null (hsize : size ≠ 0) :
    exec heapStart bookkeeping h (.realloc 0 size) = .error .nullDeref := by
  change vmirHeapRealloc heapStart bookkeeping h none size = _
  unfold vmirHeapRealloc
  rw [if_pos hsize]
  rfl

theorem exec_realloc_live (hs : Serves first stop h.hBlocks l) (hregion : stop - first < 2 ^ 31)
    (hstart : 0 ≤ first) (hmem : hb ∈ lives h.hBlocks) (hsize : size ≠ 0) :
    exec heapStart bookkeeping h (.realloc hb.payload size)
      = if size.toInt < hb.hbSize - sizeofHeapBlock then .ok (some hb.payload, h)
        else match vmirHeapMalloc heapStart bookkeeping h size with
          | (none, h) => .ok (none, h)
          | (some n, h) => vmirHeapFree heapStart bookkeeping
              ⟨h.hBlocks, memcpy h.mem n hb.payload (hb.hbSize - sizeofHeapBlock)⟩ hb.payload
            >>= fun h => .ok (some n, h) := by
  change vmirHeapRealloc heapStart bookkeeping h
    (if hb.payload = 0 then none else some hb.payload) size = _
  rw [if_neg (hs.live_ne_zero hstart ⟨hb, hmem, rfl⟩)]
  unfold vmirHeapRealloc
  rw [if_pos hsize]
  change (vmirHeapUsableSize h hb.payload >>= _) = _
  rw [usable_spec hs hregion hmem]
  rfl

/-! ## The memory -/

theorem writeHeaders_payload {bs : List HeapBlock}
    (hlaid : Laid false (heapStart + sizeofHeap) bs stop) {x : HeapBlock} (hx : x ∈ bs)
    (mem : ℤ → BitVec 8) {p : ℤ} (hp1 : x.payload ≤ p) (hp2 : p < x.addr + x.hbSize) :
    writeHeaders heapStart bookkeeping bs mem p = mem p :=
  if_neg (not_inHeader hlaid hx hp1 hp2)

theorem memcpy_inside (mem : ℤ → BitVec 8) (p q n : ℤ) {i : ℤ} (hi : 0 ≤ i) (hin : i < n) :
    memcpy mem p q n (p + i) = mem (q + i) := by
  unfold memcpy
  rw [if_pos (by omega), add_sub_cancel_left]

theorem memcpy_outside (mem : ℤ → BitVec 8) (p q n : ℤ) {a : ℤ} (ha : a < p ∨ p + n ≤ a) :
    memcpy mem p q n a = mem a :=
  if_neg (by omega)

/-- The new block `nb` was taken, the old one was copied to it and given back. -/
theorem moved_of_kept {bs bs' : List HeapBlock} {nb : HeapBlock}
    (hlaid : Laid false (heapStart + sizeofHeap) bs memsize)
    (hlaid' : Laid false (heapStart + sizeofHeap) bs' memsize) (hmem : hb ∈ lives h.hBlocks)
    (hfresh : nb ∉ lives h.hBlocks) (hlives : ∀ x, x ∈ lives bs ↔ x = nb ∨ x ∈ lives h.hBlocks)
    (hle : size.toNat + sizeofHeapBlock ≤ nb.hbSize)
    (hcur : hb.hbSize - sizeofHeapBlock ≤ size.toNat)
    (hkept : ∀ x ∈ lives h.hBlocks, x ≠ hb → x ∈ lives bs')
    (hnew : ∃ b ∈ lives bs', b.addr = nb.addr ∧ nb.hbSize ≤ b.hbSize) :
    Moved memsize h ⟨bs', writeHeaders heapStart bookkeeping bs' (memcpy
      (writeHeaders heapStart bookkeeping bs h.mem) nb.payload hb.payload
      (hb.hbSize - sizeofHeapBlock))⟩ hb size.toNat nb.payload := by
  obtain ⟨b, hb', haddr, hgrown⟩ := hnew
  have hpayload : b.payload = nb.payload := congrArg (· + sizeofHeapBlock) haddr
  have hnb : nb ∈ bs := (mem_lives.mp ((hlives nb).mpr (Or.inl rfl))).1
  have hbounds := hlaid'.tiles.bounds (mem_lives.mp hb').1
  have hold : ∀ x ∈ lives h.hBlocks, x ∈ bs := fun x hx =>
    (mem_lives.mp ((hlives x).mpr (Or.inr hx))).1
  constructor
  · exact ⟨b, hb', hpayload, by omega, hbounds.2.2⟩
  · intro i hi hin
    have hlt := lt_min_iff.mp hin
    unfold HeapBlock.payload at hpayload
    change writeHeaders heapStart bookkeeping bs' _ (nb.payload + i) = _
    rw [writeHeaders_payload hlaid' (mem_lives.mp hb').1 _
        (by unfold HeapBlock.payload; omega) (by unfold HeapBlock.payload; omega),
      memcpy_inside _ _ _ _ hi hlt.1,
      writeHeaders_payload hlaid (hold hb hmem) _ (by omega)
        (by unfold HeapBlock.payload; omega)]
  · intro x hx hne heq
    exact hfresh (Laid.eq_of_payload hlaid (hold x hx) hnb heq ▸ hx)
  · intro x hx hne
    refine ⟨hkept x hx hne, fun p hp1 hp2 => ?_⟩
    have hapart : p < nb.payload ∨ nb.payload + (hb.hbSize - sizeofHeapBlock) ≤ p := by
      by_contra hin
      unfold HeapBlock.payload at hin hp1
      unfold sizeofHeapBlock at hin hp1 hle hcur
      have heq := hlaid.tiles.eq_of_within (hold x hx) hnb (p := p) ⟨by omega, hp2⟩
        ⟨by omega, by omega⟩
      exact hfresh (heq ▸ hx)
    change writeHeaders heapStart bookkeeping bs' _ p = _
    rw [writeHeaders_payload hlaid' (mem_lives.mp (hkept x hx hne)).1 _ hp1 hp2,
      memcpy_outside _ _ _ _ hapart, writeHeaders_payload hlaid (hold x hx) _ hp1 hp2]

theorem not_moved_of_large (hs : Serves (heapStart + sizeofHeap) memsize h.hBlocks l)
    (hregion : memsize - heapStart < 2 ^ 31) {y : HeapBlock} (hy : y ∈ h.hBlocks) {h' : Heap}
    {n : ℕ} (hn : ¬ Requestable n) : ¬ Moved memsize h h' hb n y.payload := by
  intro hmoved
  obtain ⟨b, -, hpayload, hle, hstop⟩ := hmoved.block
  have hbounds := hs.laid.tiles.bounds hy
  have hlarge : 2 ^ 31 ≤ n + 39 := Nat.le_of_not_lt hn
  unfold HeapBlock.payload at hpayload
  unfold sizeofHeapBlock at hpayload hle
  unfold sizeofHeap at hbounds
  omega

/-! ## The contract -/

/-- What a reallocation may do to a live block. -/
def Gives (heapStart memsize : ℤ) (bookkeeping : List HeapBlock → ℤ → BitVec 8) (h : Heap)
    (hb : HeapBlock) (size : BitVec 32) : Prop :=
  ∃ r h', exec heapStart bookkeeping h (.realloc hb.payload size) = .ok (r, h')
    ∧ (r = none → h' = h) ∧ ∀ n, r = some n → Moved memsize h h' hb size.toNat n

theorem moved_inPlace (hs : Serves first memsize h.hBlocks l) (hmem : hb ∈ lives h.hBlocks)
    (hfits : size.toNat < hb.hbSize - sizeofHeapBlock) :
    Moved memsize h h hb size.toNat hb.payload := by
  have hbs := (mem_lives.mp hmem).1
  have hbounds := hs.laid.tiles.bounds hbs
  refine ⟨⟨hb, hmem, rfl, by omega, hbounds.2.2⟩, fun _ _ _ => rfl, fun x hx hne heq => ?_,
    fun x hx _ => ⟨hx, fun _ _ _ => rfl⟩⟩
  exact hne (Laid.eq_of_payload hs.laid (mem_lives.mp hx).1 hbs heq)

/-- The size is negative as an `int`: the block is taken for large enough. -/
theorem not_gives_of_negative (hs : Serves first memsize h.hBlocks l)
    (hregion : memsize - first < 2 ^ 31) (hstart : 0 ≤ first) (hmem : hb ∈ lives h.hBlocks)
    (hsize : 2 ^ 31 ≤ size.toNat) : ¬ Gives heapStart memsize bookkeeping h hb size := by
  rintro ⟨r, h', hexec, -, hmoved⟩
  have hbs := (mem_lives.mp hmem).1
  have hheader := hs.laid.header hbs
  have hneg : size.toInt < 0 := by
    rw [BitVec.toInt_eq_toNat_cond, if_neg (by omega)]
    have := size.isLt
    omega
  have hne : size ≠ 0 := fun hzero => by
    rw [hzero] at hneg
    exact absurd hneg (by decide)
  rw [exec_realloc_live hs hregion hstart hmem hne, if_pos (by omega)] at hexec
  obtain ⟨rfl, rfl⟩ := Prod.ext_iff.mp (Except.ok.inj hexec)
  obtain ⟨b, hb', hpayload, hle, hstop⟩ := (hmoved _ rfl).block
  have hbounds := hs.laid.tiles.bounds (mem_lives.mp hb').1
  unfold sizeofHeapBlock at hle
  omega

/-- The block was reallocated to the new block `nb`, which ends up as large at least. -/
theorem gives_of_moved {n : ℤ} {h' : Heap} (hexec : exec heapStart bookkeeping h
      (.realloc hb.payload size) = .ok (some n, h'))
    (hmoved : Moved memsize h h' hb size.toNat n) :
    Gives heapStart memsize bookkeeping h hb size := by
  refine ⟨some n, h', hexec, nofun, fun m hm => ?_⟩
  cases hm
  exact hmoved

/-- The block is copied to a new one and freed: only a live block that stands right before it is
changed. -/
theorem gives_iff_before (hregion : Region heapStart memsize)
    (hs : Serves (heapStart + sizeofHeap) memsize h.hBlocks l) (hmem : hb ∈ lives h.hBlocks)
    (hsize : size ≠ 0) (hcount : Requestable size.toNat)
    (hcur : hb.hbSize - sizeofHeapBlock ≤ size.toNat) {n : ℤ} {bs : List HeapBlock}
    (hm : mallocBlocks (blockSize size) h.hBlocks = some (n, bs)) :
    Gives heapStart memsize bookkeeping h hb size
      ↔ ∀ q ∈ lives h.hBlocks, q.addr + q.hbSize ≠ hb.addr := by
  have hsmall : size.toNat + 39 < 2 ^ 31 := hcount
  have hint : size.toInt = size.toNat := BitVec.toInt_eq_toNat_of_lt (by omega)
  have hstart := hregion.start
  have hlt := hregion.int
  have hregion' : memsize - (heapStart + sizeofHeap) < 2 ^ 31 := by
    unfold sizeofHeap
    omega
  have hstart' : 0 ≤ heapStart + sizeofHeap := by
    unfold sizeofHeap
    omega
  obtain ⟨hrequest, hmin⟩ := le_blockSize hcount
  obtain ⟨-, hnotlive⟩ := hs.take hregion' hmin hrequest hm
  obtain ⟨hlaid, ⟨l1, l2, nb, hl1, hl2, rfl, hle⟩, -⟩ := mallocBlocks_spec hs.laid hregion' hmin hm
  have hfresh : nb ∉ lives h.hBlocks := fun hin => hnotlive ⟨nb, hin, rfl⟩
  have hlives : ∀ x, x ∈ lives bs ↔ x = nb ∨ x ∈ lives h.hBlocks := by
    intro x
    rw [hl1, hl2, List.mem_append, List.mem_append, List.mem_cons]
    tauto
  have hhb : hb ∈ lives bs := (hlives hb).mpr (Or.inr hmem)
  have hne : nb ≠ hb := fun heq => hfresh (heq ▸ hmem)
  obtain ⟨hbs, halloc⟩ := mem_lives.mp hhb
  obtain ⟨bs', hfree, hlaid', hfreed⟩ := freeBlocks_spec hlaid hregion' hbs halloc nofun
  have hexec : exec heapStart bookkeeping h (.realloc hb.payload size)
      = .ok (some nb.payload, ⟨bs', writeHeaders heapStart bookkeeping bs' (memcpy
        (writeHeaders heapStart bookkeeping bs h.mem) nb.payload hb.payload
        (hb.hbSize - sizeofHeapBlock))⟩) := by
    rw [exec_realloc_live hs hregion' hstart' hmem hsize, if_neg (by omega)]
    unfold vmirHeapMalloc
    rw [hm]
    change (vmirHeapFree heapStart bookkeeping ⟨bs, _⟩ hb.payload >>= _) = _
    unfold vmirHeapFree
    rw [show hb.payload - sizeofHeapBlock = hb.addr from add_sub_cancel_right _ _, hfree]
    rfl
  have hmoved := @moved_of_kept heapStart memsize bookkeeping h hb size bs bs' nb hlaid hlaid' hmem
    hfresh hlives (hrequest.trans hle) hcur
  cases hfreed with
  | reclaimed before hlist free =>
    obtain ⟨a, b, ha, hb'⟩ := hlist
    have hothers : ∀ x, x ∈ lives bs' ↔ x ∈ lives bs ∧ x ≠ hb := fun x => by
      rw [hb']
      exact mem_others hlaid ha x
    refine iff_of_true ?_ fun q hq => before q ((hlives q).mpr (Or.inr hq))
    exact gives_of_moved hexec (hmoved
      (fun x hx hxne => (hothers x).mpr ⟨(hlives x).mpr (Or.inr hx), hxne⟩)
      ⟨nb, (hothers nb).mpr ⟨(hlives nb).mpr (Or.inl rfl), hne⟩, rfl, le_refl _⟩)
  | absorbed hlist =>
    obtain ⟨a, b, p, s, ha, hend, hb', hgrown⟩ := hlist
    have hp : p ∈ lives bs := ha ▸ List.mem_append_right _ List.mem_cons_self
    have hpbs := (mem_lives.mp hp).1
    have hpbounds := hlaid.tiles.bounds hpbs
    have hbounds := hlaid.tiles.bounds hbs
    have hgrownin : (⟨p.addr, s, .alloc⟩ : HeapBlock) ∈ lives bs' :=
      hb' ▸ List.mem_append_right _ List.mem_cons_self
    by_cases hpold : p ∈ lives h.hBlocks
    · -- the live block before it has grown
      refine iff_of_false ?_ fun hbefore => hbefore p hpold hend
      rintro ⟨r, h', hexec', -, hgives⟩
      rw [hexec] at hexec'
      obtain ⟨rfl, rfl⟩ := Prod.ext_iff.mp (Except.ok.inj hexec')
      have hpne : p ≠ hb := fun heq => by
        rw [heq] at hend
        omega
      have hpkept := ((hgives _ rfl).others p hpold hpne).1
      have heq := hlaid'.tiles.eq_of_lo (mem_lives.mp hpkept).1 (mem_lives.mp hgrownin).1 rfl
      have hsame : p.hbSize = s := congrArg HeapBlock.hbSize heq
      omega
    · have hpnew : p = nb := ((hlives p).mp hp).resolve_right hpold
      refine iff_of_true ?_ fun q hq hqend => ?_
      · refine gives_of_moved hexec (hmoved (fun x hx hxne => ?_)
          ⟨_, hgrownin, (congrArg HeapBlock.addr hpnew : p.addr = nb.addr), ?_⟩)
        · have hxbs := (hlives x).mpr (Or.inr hx)
          have hxp : x ≠ p := fun heq => hpold (heq ▸ hx)
          rw [ha] at hxbs
          rw [hb']
          rcases List.mem_append.mp hxbs with hin | hin
          · exact List.mem_append_left _ hin
          · exact List.mem_append_right _ (List.mem_cons_of_mem _ ((List.mem_cons.mp
              ((List.mem_cons.mp hin).resolve_left hxp)).resolve_left hxne))
        · change nb.hbSize ≤ s
          rw [← hpnew]
          omega
      · -- the block that ends there is the new one
        have hqbs := (mem_lives.mp ((hlives q).mpr (Or.inr hq))).1
        have hqbounds := hlaid.tiles.bounds hqbs
        have heq := hlaid.tiles.eq_of_within hqbs hpbs (p := hb.addr - 1) ⟨by omega, by omega⟩
          ⟨by omega, by omega⟩
        exact hpold (heq ▸ hq)

theorem gives_iff (hregion : Region heapStart memsize)
    (hs : Serves (heapStart + sizeofHeap) memsize h.hBlocks l) (hmem : hb ∈ lives h.hBlocks)
    (hsize : size ≠ 0) : Gives heapStart memsize bookkeeping h hb size ↔ Meets h hb size := by
  have hstart := hregion.start
  have hlt := hregion.int
  have hregion' : memsize - (heapStart + sizeofHeap) < 2 ^ 31 := by
    unfold sizeofHeap
    omega
  have hstart' : 0 ≤ heapStart + sizeofHeap := by
    unfold sizeofHeap
    omega
  by_cases hneg : 2 ^ 31 ≤ size.toNat
  · exact iff_of_false (not_gives_of_negative hs hregion' hstart' hmem hneg)
      fun hmeets => absurd hmeets.1 (Nat.not_lt.mpr hneg)
  · have hint : size.toInt = size.toNat := BitVec.toInt_eq_toNat_of_lt (by omega)
    by_cases hfits : size.toNat < hb.hbSize - sizeofHeapBlock
    · refine iff_of_true (gives_of_moved ?_ (moved_inPlace hs hmem hfits))
        ⟨Nat.lt_of_not_le hneg, Or.inl hfits⟩
      rw [exec_realloc_live hs hregion' hstart' hmem hsize, if_pos (by omega)]
    · cases hm : mallocBlocks (blockSize size) h.hBlocks with
      | none =>
        refine iff_of_true ⟨none, h, ?_, fun _ => rfl, nofun⟩
          ⟨Nat.lt_of_not_le hneg, Or.inr (Or.inl (mallocBlocks_none hm))⟩
        rw [exec_realloc_live hs hregion' hstart' hmem hsize, if_neg (by omega)]
        unfold vmirHeapMalloc
        rw [hm]
      | some r =>
        obtain ⟨n, bs⟩ := r
        obtain ⟨y, hy, hyfree, hyle, hyp⟩ := mallocBlocks_some hm
        have hmeets : Meets h hb size ↔ Requestable size.toNat
            ∧ ∀ q ∈ lives h.hBlocks, q.addr + q.hbSize ≠ hb.addr := by
          constructor
          · rintro ⟨-, hin | hnone | hbefore⟩
            · exact absurd hin hfits
            · exact absurd (hnone y hy hyfree) (not_lt.mpr hyle)
            · exact hbefore
          · intro hbefore
            exact ⟨Nat.lt_of_not_le hneg, Or.inr (Or.inr hbefore)⟩
        rw [hmeets]
        by_cases hcount : Requestable size.toNat
        · rw [gives_iff_before hregion hs hmem hsize hcount (not_lt.mp hfits) hm]
          exact (and_iff_right hcount).symm
        · refine iff_of_false ?_ fun hbefore => hcount hbefore.1
          rintro ⟨r, h', hexec, -, hmoved⟩
          rw [exec_realloc_live hs hregion' hstart' hmem hsize, if_neg (by omega)] at hexec
          unfold vmirHeapMalloc at hexec
          rw [hm] at hexec
          change (vmirHeapFree heapStart bookkeeping _ hb.payload >>= fun h => _) = _ at hexec
          generalize vmirHeapFree heapStart bookkeeping _ hb.payload = freed at hexec
          cases freed with
          | error e => exact absurd hexec nofun
          | ok h'' =>
          obtain ⟨rfl, -⟩ := Prod.ext_iff.mp (Except.ok.inj hexec)
          exact not_moved_of_large hs hlt hy hcount (hyp ▸ hmoved n rfl)

/-- The size is zero, or the pointer is that of a live block which meets it. -/
def Fits (h : Heap) (ptr : ℤ) (size : BitVec 32) : Prop :=
  size = 0 ∨ ∃ hb ∈ lives h.hBlocks, hb.payload = ptr ∧ Meets h hb size

/-- A null pointer is reallocated in the heap of 60 KiB. -/
theorem null_realloc_faults : ¬ ∀ s ptr size,
    Reach 4096 65536 (fun _ _ => 0) (fun op => Requestable (asked op)) s →
      (ptr = 0 ∨ Live s.heap.hBlocks ptr) →
        Contract 4096 65536 (fun _ _ => 0) s.heap ptr size := by
  intro h
  have hnull := (h _ 0 100 (.init fun _ => 0) (Or.inl rfl)).null rfl (by decide)
  rw [exec_realloc_null (by decide)] at hnull
  exact absurd hnull nofun

/-- In a heap that was reached by requests that can be counted, `realloc` of a null pointer or a
live block meets its contract if and only if the call fits. -/
theorem realloc_contract_iff (hregion : Region heapStart memsize) {s : Session}
    (hs : Reach heapStart memsize bookkeeping (fun op => Requestable (asked op)) s) {ptr : ℤ}
    (hptr : ptr = 0 ∨ Live s.heap.hBlocks ptr) (size : BitVec 32) :
    Contract heapStart memsize bookkeeping s.heap ptr size ↔ Fits s.heap ptr size := by
  have hserves := reach_serves hregion hs
  have hstart := hregion.start
  have hstart' : 0 ≤ heapStart + sizeofHeap := by
    unfold sizeofHeap
    omega
  by_cases hsize : size = 0
  · refine iff_of_true ⟨fun _ hne => absurd hsize hne, fun _ => ?_, fun hne => absurd hsize hne⟩
      (Or.inl hsize)
    rw [hsize]
    exact exec_realloc_zero ptr
  · constructor
    · intro hcontract
      rcases hptr with rfl | ⟨hb, hmem, hpayload⟩
      · have hnull := hcontract.null rfl hsize
        rw [exec_realloc_null hsize] at hnull
        exact absurd hnull nofun
      · have hgives := hcontract.live hsize hb hmem hpayload
        rw [← hpayload] at hgives
        exact Or.inr ⟨hb, hmem, hpayload, (gives_iff hregion hserves hmem hsize).mp hgives⟩
    · rintro (hzero | ⟨hb, hmem, rfl, hmeets⟩)
      · exact absurd hzero hsize
      · have hne := hserves.live_ne_zero hstart' ⟨hb, hmem, rfl⟩
        refine ⟨fun hzero => absurd hzero hne, fun hzero => absurd hzero hsize,
          fun _ x hx hpayload => ?_⟩
        obtain rfl := Laid.eq_of_payload hserves.laid (mem_lives.mp hx).1 (mem_lives.mp hmem).1
          hpayload
        exact (gives_iff hregion hserves hmem hsize).mpr hmeets

theorem realloc_contract_iff_grow :
    Contract 4096 65536 (fun _ _ => 0)
        ⟨[⟨4112, 128, .alloc⟩, ⟨4240, 61296, .free⟩], fun _ => 0⟩ 4136 200
      ↔ Fits ⟨[⟨4112, 128, .alloc⟩, ⟨4240, 61296, .free⟩], fun _ => 0⟩ 4136 200 :=
  realloc_contract_iff smallRegion
    (@smallHeap_malloc _ 100 (Nat.lt_of_sub_pos (by decide)) _ (by decide))
    (Or.inr ⟨⟨4112, 128, .alloc⟩, by decide, rfl⟩) 200

end

end Vmir.HeapRealloc
