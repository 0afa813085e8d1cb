import Vmir.TlsfMerge

set_option autoImplicit false

/-!
# Blocks that change hands

A block is marked as free or used, put into its list, or gives the rest behind its first bytes back.
-/
namespace Vmir.TlsfTrim
open Tlsf TlsfHeaders TlsfLists TlsfRows TlsfRowOps TlsfPool TlsfMerge

section
variable {a n k r x : ℕ} {f g : Bool} {xs ys : List Blk}

theorem others_behind (a : ℕ) (xs : List Blk) (k r : ℕ) (ys : List Blk) :
    others a (xs ++ [⟨k, false⟩]) r ys = others a xs (k + 8 + r) ys := by
  rw [others, others_used, stop_mid, others, others, pick, List.append_nil, stop,
    show stop a xs + 8 + (k + 8 + r) = stop a xs + 8 + k + 8 + r by omega]

end

section
variable {s : Pool} {xs ys : List Blk} {n k r : ℕ} {f : Bool}

theorem blockInsert_spec (h : Loose s xs n ys) :
    ∃ s', blockInsert s (stop (first s) xs) = .ok s'
      ∧ Mid s' (xs ++ ⟨n, true⟩ :: ys) (pick true (first s') (xs ++ ⟨n, true⟩ :: ys))
      ∧ Kept (xs ++ ⟨n, true⟩ :: ys) s s' := by
  have hperm := perm_others (first s) xs n ys
  obtain ⟨s', hinsert, hmid, hkept⟩ :=
    Mid.insert h (hperm.mem_iff.mpr List.mem_cons_self) not_mem_others
  rw [← first_congr hkept] at hperm
  refine ⟨s', hinsert, hmid.perm ?_, hkept⟩
  rwa [first_congr hkept] at hperm ⊢

theorem markAsFree_spec (h : Mid s (xs ++ ⟨n, false⟩ :: ys)
      (pick true (first s) (xs ++ ⟨n, false⟩ :: ys))) :
    ∃ m', blockMarkAsFree s.mem (stop (first s) xs) = .ok m' ∧ Loose { s with mem := m' } xs n ys
      ∧ Kept (xs ++ ⟨n, true⟩ :: ys) s { s with mem := m' } := by
  obtain ⟨m', hmark, hrow, hsame⟩ := blockMarkAsFree_spec (mid_ahead h)
  rw [others_used] at h
  obtain ⟨hmid, hkept⟩ := mid_lift h hrow rfl (fun b hb => others_sub hb true)
    (hsame.mono fun x hx => Or.inr hx)
  exact ⟨m', hmark, hmid, hkept _ (fewer_marked ..) (Fewer.refl ..)⟩

theorem markAsUsed_spec (h : Loose s xs n ys) :
    ∃ m', blockMarkAsUsed s.mem (stop (first s) xs) = .ok m'
      ∧ Mid { s with mem := m' } (xs ++ ⟨n, false⟩ :: ys)
        (pick true (first s) (xs ++ ⟨n, false⟩ :: ys))
      ∧ Kept (xs ++ ⟨n, true⟩ :: ys) s { s with mem := m' } := by
  obtain ⟨m', hmark, hrow, hsame⟩ := blockMarkAsUsed_spec (mid_ahead h)
  obtain ⟨hmid, hkept⟩ := mid_lift h hrow rfl (fun b hb => others_sub hb false)
    (hsame.mono fun x hx => Or.inr hx)
  rw [others_used]
  exact ⟨m', hmark, hmid, hkept _ (Fewer.refl ..) (fewer_marked ..)⟩

theorem split_spec {G : List (ℕ × ℕ)} (h : Mid s (xs ++ ⟨k + 8 + r, f⟩ :: ys) G)
    (hk : k % 8 = 0 ∧ 24 ≤ k) (hr : 24 ≤ r) :
    ∃ m' q, blockSplit s.mem (stop (first s) xs) k = .ok (m', stop (first s) xs + 8 + k)
      ∧ Ahead m' (stop (first s) xs) k f (lastFree false xs) q (⟨r, true⟩ :: ys)
      ∧ Same (RowWord (stop (first s) xs) (⟨k, f⟩ :: ⟨r, true⟩ :: ys)) s.mem m' := by
  have hahead := mid_ahead h
  have hfits := hahead.fits
  obtain ⟨m', q, hsplit, hword, hrow, hsame⟩ :=
    blockSplit_spec hahead (mid_aligned h) hk.1 (by omega)
  rw [show k + 8 + r - k - 8 = r by omega] at hrow hsame
  refine ⟨m', q, hsplit, ⟨hword, hk.1, hk.2, hrow, ?_⟩, hsame.mono fun x hx => ?_⟩
  · rwa [stop, show stop (first s) xs + 8 + k + 8 + r = stop (first s) xs + 8 + (k + 8 + r) by omega]
  · exact hx.elim Or.inl fun hx => Or.inr (Or.inr hx)

theorem canSplit_iff {G : List (ℕ × ℕ)} (h : Mid s (xs ++ ⟨n, f⟩ :: ys) G) :
    blockCanSplit s.mem (stop (first s) xs) k ↔ k + 32 ≤ n := by
  unfold blockCanSplit sizeofBlockHeader
  rw [(mid_ahead h).headed.size]
  omega

section
variable {m : Mem} {a : ℕ} {p q : Bool}

theorem tell_free (h : Ahead m a k true p q (⟨r, true⟩ :: ys)) :
    ∃ m', blockLinkNext m a = .ok (m.write (a + 8 + k) a, a + 8 + k)
      ∧ blockSetPrevFree (m.write (a + 8 + k) a) (a + 8 + k) = m'
      ∧ Row m' p a (⟨k, true⟩ :: ⟨r, true⟩ :: ys)
      ∧ Same (RowWord a (⟨k, true⟩ :: ⟨r, true⟩ :: ys)) m m' := by
  have hlarge := h.large
  have hrow := row_writeBefore h.row (x := a + 8 + k) (by omega) a
  refine ⟨(m.write (a + 8 + k) a).write (a + 8 + k + 8) (tag r true true), ?_,
    (row_headed hrow h.fits).setPrevFree, ?_, ?_⟩
  · unfold blockLinkNext
    rw [h.next, ok_bind]
  · refine row_mk.mpr ⟨?_, ⟨h.large, h.aligned⟩, fun _ => ?_, row_setPrev hrow true⟩
    · rw [word_write_ne (by omega), word_write_ne (by omega), h.word]
    · rw [word_write_ne (by omega), word_write_same]
  · exact (same_write _ _ (Or.inr (Or.inl ⟨rfl, rfl⟩))).trans
      (same_write _ _ (Or.inr (Or.inr (Or.inl rfl))))

theorem tell_used (h : Ahead m a k false p q (⟨r, true⟩ :: ys)) :
    ∃ m', blockSetPrevUsed m (a + 8 + k) = m' ∧ Row m' p a (⟨k, false⟩ :: ⟨r, true⟩ :: ys)
      ∧ Same (RowWord a (⟨k, false⟩ :: ⟨r, true⟩ :: ys)) m m' := by
  have hlarge := h.large
  refine ⟨m.write (a + 8 + k + 8) (tag r true false), (row_headed h.row h.fits).setPrevUsed, ?_,
    same_write _ _ (Or.inr (Or.inr (Or.inl rfl)))⟩
  refine row_mk.mpr ⟨?_, ⟨h.large, h.aligned⟩, (fun hf => by cases hf), row_setPrev h.row false⟩
  rw [word_write_ne (by omega), h.word]

end

/-- What is kept of a free block for a request, with the blocks behind it. -/
def cutFree (k n : ℕ) (ys : List Blk) : ℕ × List Blk :=
  if k + 32 ≤ n then (k, ⟨n - k - 8, true⟩ :: ys) else (n, ys)

/-- `block_trim_free` gives the end of a free block, which is in no list, back. -/
theorem blockTrimFree_spec (h : Loose s xs n ys) (hk : k % 8 = 0 ∧ 24 ≤ k) :
    ∃ s', blockTrimFree s (stop (first s) xs) k = .ok s'
      ∧ Loose s' xs (cutFree k n ys).1 (cutFree k n ys).2 ∧ Kept (xs ++ ⟨n, true⟩ :: ys) s s' := by
  unfold blockTrimFree cutFree
  rw [tlsfAssert_ok ((mid_ahead h).headed.isFree.mpr rfl), ok_bind]
  by_cases hcan : k + 32 ≤ n
  · rw [if_pos ((canSplit_iff h).mpr hcan), if_pos hcan]
    obtain ⟨r, rfl⟩ : ∃ r, n = k + 8 + r := ⟨n - k - 8, by omega⟩
    rw [show k + 8 + r - k - 8 = r by omega]
    have hjoin := others_join (first s) xs k r ys
    obtain ⟨m, q, hsplit, hahead, hsame⟩ := split_spec h hk (by omega)
    obtain ⟨m', hlink, htell, hrow, hsame'⟩ := tell_free hahead
    obtain ⟨hmid, hkept⟩ := mid_lift h hrow (stop_join _ [] k r true true true ys).symm
      (fun b hb => others_sub (hjoin.mem_iff.mpr (List.mem_cons_of_mem _ hb)) true)
      ((hsame.trans hsame').mono fun x hx => Or.inr hx)
    have hnew : (stop (first s) xs + 8 + k, r) ∉ others (first s) xs (k + 8 + r) ys := by
      have hstop : stop (first s) (xs ++ [⟨k, false⟩]) = stop (first s) xs + 8 + k := stop_mid ..
      rw [← others_behind, ← hstop]
      exact not_mem_others
    obtain ⟨s', hinsert, hmid', hkept'⟩ := Mid.insert hmid
      (others_sub (hjoin.mem_iff.mpr List.mem_cons_self) true) hnew
    refine ⟨s', ?_, ?_, (hkept _ (Fewer.refl ..) (fewer_split ..)).trans
      (hkept'.mono (fewer_split ..))⟩
    · rw [hsplit, ok_bind]
      dsimp only
      rw [hlink, ok_bind, htell, hinsert]
    · have hmid'' := hmid'.perm hjoin
      rwa [← show first s' = first s from congrArg firstBlock hkept'.address] at hmid''
  · rw [if_neg fun hs => hcan ((canSplit_iff h).mp hs), if_neg hcan]
    exact ⟨s, rfl, h, Kept.refl _ _⟩

/-- What a used block becomes if its size is reduced, with the blocks behind it. -/
def CutUsed (k n : ℕ) (ys zs : List Blk) : Prop :=
  (k + 32 ≤ n ∧ ∃ r ys', JoinsNext (n - k - 8) ys r ys' ∧ zs = ⟨k, false⟩ :: ⟨r, true⟩ :: ys')
    ∨ (n < k + 32 ∧ zs = ⟨n, false⟩ :: ys)

/-- `block_trim_used` gives the end of a used block back. -/
theorem blockTrimUsed_spec (h : Mid s (xs ++ ⟨n, false⟩ :: ys)
      (pick true (first s) (xs ++ ⟨n, false⟩ :: ys))) (hk : k % 8 = 0 ∧ 24 ≤ k) :
    ∃ s' zs, blockTrimUsed s (stop (first s) xs) k = .ok s' ∧ CutUsed k n ys zs
      ∧ Mid s' (xs ++ zs) (pick true (first s') (xs ++ zs)) ∧ Kept (xs ++ zs) s s' := by
  unfold blockTrimUsed
  have hused : ¬ blockIsFree s.mem (stop (first s) xs) := fun hf =>
    Bool.false_ne_true ((mid_ahead h).headed.isFree.mp hf)
  rw [tlsfAssert_ok hused, ok_bind]
  by_cases hcan : k + 32 ≤ n
  · rw [if_pos ((canSplit_iff h).mpr hcan)]
    obtain ⟨r, rfl⟩ : ∃ r, n = k + 8 + r := ⟨n - k - 8, by omega⟩
    have hbehind := others_behind (first s) xs k r ys
    have hassoc (r : ℕ) (ys : List Blk) : (xs ++ [⟨k, false⟩]) ++ ⟨r, true⟩ :: ys
        = xs ++ ⟨k, false⟩ :: ⟨r, true⟩ :: ys := List.append_assoc ..
    have hstop : stop (first s) (xs ++ [⟨k, false⟩]) = stop (first s) xs + 8 + k := stop_mid ..
    rw [others_used, ← hbehind] at h
    obtain ⟨m, q, hsplit, hahead, hsame⟩ := split_spec h hk (by omega)
    obtain ⟨m', htell, hrow, hsame'⟩ := tell_used hahead
    obtain ⟨hmid, hkept⟩ := mid_lift h hrow (stop_join _ [] k r false true false ys).symm
      (fun b hb => by
        rw [← hassoc]
        exact others_sub hb true) ((hsame.trans hsame').mono fun x hx => Or.inr hx)
    rw [← hassoc] at hmid
    obtain ⟨s₂, r', ys', hmerge, hloose, hjoins, hkept₂⟩ := blockMergeNext_spec hmid
    have hfirst₂ : first s₂ = first s := congrArg firstBlock hkept₂.address
    obtain ⟨s₃, hinsert, hmid₃, hkept₃⟩ := blockInsert_spec hloose
    rw [hfirst₂] at hinsert
    change blockMergeNext { s with mem := m' } (stop (first s) (xs ++ [⟨k, false⟩])) = _ at hmerge
    rw [hassoc] at hmid₃ hkept₃ hkept₂
    have hfewer : Fewer (first s) (xs ++ ⟨k, false⟩ :: ⟨r', true⟩ :: ys')
        (xs ++ ⟨k, false⟩ :: ⟨r, true⟩ :: ys) := by
      rw [← hassoc, ← hassoc]
      exact (fewer_joinsNext hjoins ..).2
    refine ⟨s₃, _, ?_, Or.inl ⟨hcan, r', ys', ?_, rfl⟩, hmid₃, ?_⟩
    · rw [hsplit, ok_bind]
      dsimp only
      rw [htell, ← hstop, hmerge, ok_bind]
      exact hinsert
    · rwa [show k + 8 + r - k - 8 = r by omega]
    · exact (hkept _ (hfewer.trans (fewer_join ..)) hfewer).trans ((hkept₂.mono hfewer).trans hkept₃)
  · rw [if_neg fun hs => hcan ((canSplit_iff h).mp hs)]
    exact ⟨s, _, rfl, Or.inr ⟨by omega, rfl⟩, h, Kept.refl _ _⟩

end

end Vmir.TlsfTrim
