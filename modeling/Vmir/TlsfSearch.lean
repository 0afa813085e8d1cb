import Vmir.TlsfLists

set_option autoImplicit false

/-!
# Finding a free block

The bitmaps lead to the first list, in the order of the classes, that is not empty.
-/
namespace Vmir.TlsfSearch
open BitCounts Tlsf TlsfMapping TlsfHeaders TlsfLists

theorem tlsfFfs_set {w : BitVec 32} (hw : w ≠ 0) : w.getLsbD (tlsfFfs w) = true := by
  unfold tlsfFfs
  rw [trailingZeros_eq_ctz]
  exact BitVec.getLsbD_true_ctz_of_ne_zero hw

theorem getLsbD_from (bm : BitVec 32) (i j : ℕ) :
    (bm &&& (BitVec.allOnes 32 <<< i)).getLsbD j = true ↔ bm.getLsbD j = true ∧ i ≤ j := by
  rw [BitVec.getLsbD_and, Bool.and_eq_true, BitVec.getLsbD_shiftLeft, BitVec.getLsbD_allOnes]
  refine and_congr_right fun hj => ?_
  have hlt := BitVec.lt_of_getLsbD hj
  simp only [Bool.and_eq_true, decide_eq_true_iff, Bool.not_eq_true', decide_eq_false_iff_not]
  omega

section
variable {s : Pool} {G : List (ℕ × ℕ)} {L : ℕ × ℕ → List ℕ}

theorem inTable_of_bit (h : Listed s G L) {fl sl : ℕ} (hfl : fl < flIndexCount)
    (hsl : (s.slBitmap fl).getLsbD sl = true) : InTable (fl, sl) ∧ L (fl, sl) ≠ [] := by
  have hc : InTable (fl, sl) := ⟨hfl, BitVec.lt_of_getLsbD hsl⟩
  exact ⟨hc, (h.slBit _ hc).mp hsl⟩

theorem head_of_bit (h : Listed s G L) {fl sl : ℕ} (hfl : fl < flIndexCount)
    (hsl : (s.slBitmap fl).getLsbD sl = true) :
    InTable (fl, sl) ∧ ∃ l, L (fl, sl) = s.blocks fl sl :: l := by
  obtain ⟨hc, hne⟩ := inTable_of_bit h hfl hsl
  refine ⟨hc, ?_⟩
  rcases h.head_cases hc with ⟨hnil, -⟩ | ⟨l, hl, -⟩
  · exact absurd hnil hne
  · exact ⟨l, hl⟩

theorem searchSuitableBlock_spec (h : Listed s G L) {c : ℕ × ℕ} (hc : InTable c) :
    (searchSuitableBlock s c.1 c.2 = .ok none ∧ ∀ d, InTable d → Before c d → L d = [])
      ∨ ∃ d y l, searchSuitableBlock s c.1 c.2 = .ok (some (y, d.1, d.2)) ∧ InTable d ∧ Before c d
        ∧ L d = y :: l := by
  obtain ⟨fl, sl⟩ := c
  unfold searchSuitableBlock
  rw [inTable_ok hc, ok_bind]
  simp only
  by_cases hsl : s.slBitmap fl &&& (BitVec.allOnes 32 <<< sl) = 0
  · rw [if_neg (not_not.mpr hsl)]
    have hnone (j : ℕ) (hj : (s.slBitmap fl).getLsbD j = true) : j < sl := by
      by_contra hle
      exact ne_zero_iff.mpr ⟨j, (getLsbD_from _ sl j).mpr ⟨hj, Nat.not_lt.mp hle⟩⟩ hsl
    by_cases hfl : s.flBitmap &&& (BitVec.allOnes 32 <<< (fl + 1)) = 0
    · rw [if_pos hfl]
      refine Or.inl ⟨rfl, fun d hd hbefore => ?_⟩
      by_contra hne
      have hbit := (h.slBit d hd).mpr hne
      rcases hbefore with hlt | ⟨heq, hle⟩
      · have hflbit := (h.flBit d.1).mpr ⟨hd.1, ne_zero_iff.mpr ⟨d.2, hbit⟩⟩
        exact ne_zero_iff.mpr ⟨d.1, (getLsbD_from _ (fl + 1) d.1).mpr ⟨hflbit, hlt⟩⟩ hfl
      · rw [← (heq : fl = d.1)] at hbit
        exact absurd (hnone d.2 hbit) (Nat.not_lt.mpr hle)
    · rw [if_neg hfl]
      obtain ⟨hbit, hle⟩ := (getLsbD_from _ _ _).mp (tlsfFfs_set hfl)
      generalize tlsfFfs (s.flBitmap &&& (BitVec.allOnes 32 <<< (fl + 1))) = fl' at hbit hle
      obtain ⟨hlt, hne⟩ := (h.flBit fl').mp hbit
      obtain ⟨hd, l, hl⟩ := head_of_bit h hlt (tlsfFfs_set hne)
      rw [inTable_ok (c := (fl', 0)) ⟨hlt, show 0 < 32 by omega⟩, ok_bind, tlsfAssert_ok hne, ok_bind]
      exact Or.inr ⟨_, _, l, rfl, hd, Or.inl hle, hl⟩
  · rw [if_pos hsl]
    obtain ⟨hbit, hle⟩ := (getLsbD_from _ _ _).mp (tlsfFfs_set hsl)
    obtain ⟨hd, l, hl⟩ := head_of_bit h hc.1 hbit
    exact Or.inr ⟨_, _, l, rfl, hd, Or.inr ⟨rfl, hle⟩, hl⟩

/-- The requests whose search stays in the tables. -/
structure Request (k : ℕ) : Prop where
  aligned : k % 8 = 0
  min : 24 ≤ k
  max : k ≤ 2 ^ 32 - 2 ^ 26

theorem Request.inTable {k : ℕ} (hk : Request k) : InTable (mappingSearch k) := by
  have hmax := hk.max
  exact (mappingSearch_inTable hk.aligned hk.min (show k ≤ 2 ^ 32 by omega)).mpr hk.max

theorem Request.fits {k n : ℕ} (hk : Request k) (hn : n < 2 ^ 32)
    (hbefore : Before (mappingSearch k) (mappingInsert n)) : k ≤ n := by
  have hmax := hk.max
  exact le_of_before hk.aligned hk.min (show k ≤ 2 ^ 32 by omega) (by omega) hbefore

/-- `block_locate_free` takes a block that is large enough from its list, or leaves the pool as it
was if the lists from the class of the request on are empty. -/
theorem blockLocateFree_spec (h : Listed s G L) (hsize : ∀ y n, (y, n) ∈ G → blockSize s.mem y = n)
    {k : ℕ} (hk : Request k) :
    (blockLocateFree s k = .ok (s, none)
        ∧ ∀ y n, (y, n) ∈ G → ¬ Before (mappingSearch k) (mappingInsert n))
      ∨ ∃ y n G' s' L', G.Perm ((y, n) :: G') ∧ k ≤ n ∧ blockLocateFree s k = .ok (s', some y)
        ∧ s'.address = s.address ∧ Listed s' G' L'
        ∧ ∀ x, ¬ LinkWord s.address G' x → s'.mem.word x = s.mem.word x := by
  have hmin := hk.min
  unfold blockLocateFree
  rw [if_pos (by omega)]
  rcases searchSuitableBlock_spec h hk.inTable with ⟨hnone, hempty⟩ | ⟨d, y, l, hsome, hd, hbefore, hl⟩
  · left
    refine ⟨?_, fun y n hmem hbefore => ?_⟩
    · change (searchSuitableBlock s (mappingSearch k).1 (mappingSearch k).2 >>= _) = _
      rw [hnone]
      rfl
    · have hn : n < 2 ^ 32 := (h.listable _ hmem).small
      have hy := (h.mem_iff _ y).mpr ⟨n, hmem, rfl⟩
      rw [hempty _ (inTable_mapping hn) hbefore] at hy
      cases hy
  · right
    obtain ⟨n, hmem, hnd, hlist⟩ := h.of_mem (hl ▸ List.mem_cons_self : y ∈ L d)
    have hfits : k ≤ n := hk.fits hlist.small (hnd ▸ hbefore)
    have hperm := List.perm_cons_erase hmem
    obtain ⟨s', L', hremove, haddr, hlisted, hframe⟩ := removeFreeBlock_spec (h.perm hperm.symm)
    refine ⟨y, n, _, s', L', hperm, hfits, ?_, haddr, hlisted, hframe⟩
    change (searchSuitableBlock s (mappingSearch k).1 (mappingSearch k).2 >>= _) = _
    rw [hsome, ok_bind]
    simp only
    rw [hsize y n hmem, tlsfAssert_ok hfits, ok_bind, ← hnd, hremove]
    rfl

end

end Vmir.TlsfSearch
