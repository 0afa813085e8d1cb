import Vmir.TlsfTrim

set_option autoImplicit false

/-!
# `tlsf_malloc` and `tlsf_free`

Between the calls the blocks fill the pool, no two free blocks lie side by side, and the lists have
all the free blocks.
-/
namespace Vmir.TlsfInterface
open Tlsf TlsfMapping TlsfHeaders TlsfLists TlsfSearch TlsfRows TlsfRowOps TlsfPool TlsfMerge TlsfTrim

/-- No free block is behind another; `p` says whether the block before is free. -/
def Coalesced : Bool → List Blk → Prop
  | _, [] => True
  | p, b :: bs => ¬ (p = true ∧ b.free = true) ∧ Coalesced b.free bs

structure Inv (s : Pool) (bs : List Blk) : Prop where
  mid : Mid s bs (pick true (first s) bs)
  coalesced : Coalesced false bs

def rounded (size : ℕ) : ℕ := max ((size + 7) / 8 * 8) 24

section
variable {p q f : Bool} {xs ys xs' ys' : List Blk} {n n' : ℕ}

theorem coalesced_append : Coalesced p (xs ++ ys)
    ↔ Coalesced p xs ∧ Coalesced (lastFree p xs) ys := by
  induction xs generalizing p with
  | nil => exact (and_iff_right trivial).symm
  | cons b xs ih =>
    change _ ∧ Coalesced b.free (xs ++ ys) ↔ (_ ∧ Coalesced b.free xs) ∧ Coalesced (lastFree b.free xs) ys
    rw [ih, and_assoc]

theorem coalesced_head (h : headFree ys = false) : Coalesced p ys ↔ Coalesced q ys := by
  cases ys with
  | nil => exact Iff.rfl
  | cons b ys =>
    have hb : ¬ b.free = true := fun hb => Bool.false_ne_true (h.symm.trans hb)
    exact and_congr_left' ⟨fun _ h => hb h.2, fun _ h => hb h.2⟩

theorem Coalesced.head (h : Coalesced true ys) : headFree ys = false := by
  cases ys with
  | nil => rfl
  | cons b ys => exact Bool.eq_false_iff.mpr fun hb => h.1 ⟨rfl, hb⟩

theorem Coalesced.used (h : Coalesced true ys) : Coalesced false ys := (coalesced_head h.head).mp h

theorem coalesced_mid : Coalesced false (xs ++ ⟨n, f⟩ :: ys)
    ↔ Coalesced false xs ∧ ¬ (lastFree false xs = true ∧ f = true) ∧ Coalesced f ys := coalesced_append

theorem JoinsPrev.coalesced (h : JoinsPrev xs n xs' n') (hxs : Coalesced false xs) :
    Coalesced false xs' ∧ lastFree false xs' = false := by
  rcases h with ⟨hlast, rfl, -⟩ | ⟨k, rfl, -⟩
  · exact ⟨hxs, hlast⟩
  · obtain ⟨hxs', hlast, -⟩ := coalesced_mid.mp hxs
    exact ⟨hxs', Bool.eq_false_iff.mpr fun hl => hlast ⟨hl, rfl⟩⟩

theorem JoinsNext.coalesced (h : JoinsNext n ys n' ys') (hys : Coalesced false ys) :
    Coalesced true ys' := by
  rcases h with ⟨hhead, -, rfl⟩ | ⟨k, rfl, -⟩
  · exact (coalesced_head hhead).mp hys
  · exact hys.2

end

/-! ## Requests -/

theorem adjustRequestSize_eq {size : ℕ} (hpos : 0 < size) (hmax : size < 2 ^ 32) :
    adjustRequestSize size 8 = .ok (rounded size) := by
  unfold adjustRequestSize
  rw [if_pos ⟨by omega, hmax⟩, alignUp_eq (by omega), ok_bind]
  rfl

theorem adjustRequestSize_none {size : ℕ} (h : size = 0 ∨ 2 ^ 32 ≤ size) :
    adjustRequestSize size 8 = .ok 0 := by
  refine if_neg fun hs => ?_
  have hlt : size < 2 ^ 32 := hs.2
  omega

theorem rounded_good (size : ℕ) : rounded size % 8 = 0 ∧ 24 ≤ rounded size ∧ size ≤ rounded size := by
  unfold rounded
  omega

theorem request_rounded {size : ℕ} (hmax : size ≤ 2 ^ 32 - 2 ^ 26) : Request (rounded size) := by
  obtain ⟨h8, hmin, -⟩ := rounded_good size
  refine ⟨h8, hmin, ?_⟩
  unfold rounded
  omega

section
variable {s : Pool} {bs xs ys : List Blk} {n size : ℕ}

/-! ## `tlsf_malloc` -/

theorem tlsfMalloc_none (s : Pool) (h : size = 0 ∨ 2 ^ 32 ≤ size) :
    tlsfMalloc s size = .ok (s, 0) := by
  unfold tlsfMalloc
  rw [adjustRequestSize_none h, ok_bind]
  rfl

theorem tlsfMalloc_overrun (s : Pool) (hlo : 2 ^ 32 - 2 ^ 26 < size) (hhi : size < 2 ^ 32) :
    tlsfMalloc s size = .error .bounds := by
  obtain ⟨h8, hmin, hle⟩ := rounded_good size
  have hmax : rounded size ≤ 2 ^ 32 := by
    unfold rounded
    omega
  have hout : ¬ ((mappingSearch (rounded size)).1 < flIndexCount
      ∧ (mappingSearch (rounded size)).2 < slIndexCount) := fun h => by
    have := (mappingSearch_inTable h8 hmin hmax).mp h
    omega
  have hsearch : searchSuitableBlock s (mappingSearch (rounded size)).1
      (mappingSearch (rounded size)).2 = .error .bounds := by
    unfold searchSuitableBlock inTable
    rw [if_neg hout]
    rfl
  unfold tlsfMalloc blockLocateFree
  rw [adjustRequestSize_eq (by omega) hhi, ok_bind, if_pos (by omega)]
  dsimp only
  rw [hsearch]
  rfl

theorem blockPrepareUsed_spec (h : Loose s xs n ys) {k : ℕ} (hk : k % 8 = 0 ∧ 24 ≤ k) :
    ∃ s', blockPrepareUsed s (some (stop (first s) xs)) k = .ok (s', stop (first s) xs + 16)
      ∧ Mid s' (xs ++ ⟨(cutFree k n ys).1, false⟩ :: (cutFree k n ys).2)
        (pick true (first s') (xs ++ ⟨(cutFree k n ys).1, false⟩ :: (cutFree k n ys).2))
      ∧ Kept (xs ++ ⟨n, true⟩ :: ys) s s' := by
  obtain ⟨s₁, htrim, hloose, hkept⟩ := blockTrimFree_spec h hk
  obtain ⟨m', hmark, hmid, hkept'⟩ := markAsUsed_spec hloose
  have hfirst := first_congr hkept
  rw [hfirst] at hmark
  refine ⟨_, ?_, hmid, hkept.trans (hkept'.mono ?_)⟩
  · unfold blockPrepareUsed
    dsimp only
    rw [htrim, ok_bind, hmark]
    rfl
  · unfold cutFree
    by_cases hcan : k + 32 ≤ n
    · obtain ⟨r, rfl⟩ : ∃ r, n = k + 8 + r := ⟨n - k - 8, by omega⟩
      rw [if_pos hcan, show k + 8 + r - k - 8 = r by omega]
      exact fewer_split ..
    · rw [if_neg hcan]
      exact Fewer.refl ..

theorem cutFree_coalesced {k : ℕ} (h : Coalesced false (xs ++ ⟨n, true⟩ :: ys)) :
    Coalesced false (xs ++ ⟨(cutFree k n ys).1, false⟩ :: (cutFree k n ys).2) := by
  obtain ⟨hxs, -, hys⟩ := coalesced_mid.mp h
  refine coalesced_mid.mpr ⟨hxs, fun hf => Bool.false_ne_true hf.2, ?_⟩
  unfold cutFree
  split
  · exact ⟨fun hf => Bool.false_ne_true hf.1, hys⟩
  · exact hys.used

/-- `tlsf_malloc` takes a free block that is large enough and gives what it does not need back. It
fails, and changes nothing, only if no free block is larger than the request by one part in 32. -/
theorem tlsfMalloc_spec (h : Inv s bs) (hpos : 0 < size) (hmax : size ≤ 2 ^ 32 - 2 ^ 26) :
    (tlsfMalloc s size = .ok (s, 0)
        ∧ ∀ y n, (y, n) ∈ pick true (first s) bs → n < rounded size + rounded size / 32)
      ∨ ∃ s' xs n ys, bs = xs ++ ⟨n, true⟩ :: ys ∧ rounded size ≤ n
        ∧ tlsfMalloc s size = .ok (s', stop (first s) xs + 16)
        ∧ Inv s' (xs ++ ⟨(cutFree (rounded size) n ys).1, false⟩ :: (cutFree (rounded size) n ys).2)
        ∧ Kept bs s s' := by
  obtain ⟨L, hL⟩ := h.mid.listed
  have hk := request_rounded hmax
  unfold tlsfMalloc
  rw [adjustRequestSize_eq hpos (by omega), ok_bind]
  rcases blockLocateFree_spec hL (fun y n hmem => h.mid.blockSize hmem) hk with
    ⟨hnone, hbefore⟩ | ⟨y, n, G', s₁, L', hperm, hfits, hsome, haddr, hlisted, hframe⟩
  · left
    rw [hnone]
    refine ⟨rfl, fun y n hmem => ?_⟩
    by_contra hle
    have hsmall : n < 2 ^ 32 := (hL.listable _ hmem).small
    have hmax := hk.max
    exact hbefore y n hmem (before_of_le hk.aligned hk.min (show rounded size ≤ 2 ^ 32 by omega)
      (by omega) (Nat.not_lt.mp hle))
  · right
    obtain ⟨xs, ys, rfl, rfl⟩ := mem_pick.mp (hperm.mem_iff.mpr List.mem_cons_self)
    have hperm' : G'.Perm (others (first s) xs n ys) :=
      List.Perm.cons_inv (hperm.symm.trans (perm_others ..))
    obtain ⟨hmid, hkept⟩ := h.mid.relink (fun b hb => hperm.mem_iff.mpr (List.mem_cons_of_mem _ hb))
      hlisted haddr fun x hx => hframe x fun hlink => hx (linkWord_mono hlink fun b hb =>
        hperm.mem_iff.mpr (List.mem_cons_of_mem _ hb))
    have hfirst := first_congr hkept
    have hloose : Loose s₁ xs n ys := by
      refine hmid.perm ?_
      rw [hfirst]
      exact hperm'.symm
    obtain ⟨s', hprepare, hmid', hkept'⟩ := blockPrepareUsed_spec hloose ⟨hk.aligned, hk.min⟩
    rw [hfirst] at hprepare
    refine ⟨s', xs, n, ys, rfl, hfits, ?_, ⟨hmid', cutFree_coalesced h.coalesced⟩, hkept.trans hkept'⟩
    rw [hsome]
    exact hprepare

/-! ## `tlsf_free` -/

/-- `tlsf_free` joins the block with the free blocks on both sides of it. -/
theorem tlsfFree_spec (h : Inv s (xs ++ ⟨n, false⟩ :: ys)) :
    ∃ s' xs' n₁ n₂ ys', tlsfFree s (stop (first s) xs + 16) = .ok s'
      ∧ JoinsPrev xs n xs' n₁ ∧ JoinsNext n₁ ys n₂ ys' ∧ Inv s' (xs' ++ ⟨n₂, true⟩ :: ys')
      ∧ Kept (xs ++ ⟨n, true⟩ :: ys) s s' := by
  obtain ⟨m, hmark, hloose, hkept⟩ := markAsFree_spec h.mid
  obtain ⟨s₁, xs', n₁, hprev, hloose₁, hjprev, hkept₁⟩ := blockMergePrev_spec hloose
  obtain ⟨s₂, n₂, ys', hnext, hloose₂, hjnext, hkept₂⟩ := blockMergeNext_spec hloose₁
  obtain ⟨s₃, hinsert, hmid₃, hkept₃⟩ := blockInsert_spec hloose₂
  have hfirst₁ : first s₁ = first s := congrArg firstBlock hkept₁.address
  have hfirst₂ : first s₂ = first s := (first_congr hkept₂).trans hfirst₁
  obtain ⟨hxs, -, hys⟩ := coalesced_mid.mp h.coalesced
  obtain ⟨hxs', hlast⟩ := JoinsPrev.coalesced hjprev hxs
  refine ⟨s₃, xs', n₁, n₂, ys', ?_, hjprev, hjnext, ⟨hmid₃, coalesced_mid.mpr ⟨hxs', fun hf =>
    Bool.false_ne_true (hlast.symm.trans hf.1), JoinsNext.coalesced hjnext hys⟩⟩, ?_⟩
  · unfold tlsfFree blockFromPtr
    rw [if_pos (by omega), show stop (first s) xs + 16 - 16 = stop (first s) xs by omega]
    dsimp only
    rw [hmark, ok_bind, show blockMergePrev { s with mem := m } (stop (first s) xs)
      = .ok (s₁, stop (first s₁) xs') from hfirst₁ ▸ hprev, ok_bind]
    dsimp only
    rw [hnext, ok_bind]
    dsimp only
    rw [← first_congr hkept₂, hinsert]
  · have hfewer₂ := (fewer_joinsPrev hjprev (first s₁) ys).1
    have hfewer₃ := (fewer_joinsPrev hjprev (first s₂) ys).1.trans
      (fewer_joinsNext hjnext (first s₂) xs').1
    exact ((hkept.trans hkept₁).trans (hkept₂.mono hfewer₂)).trans (hkept₃.mono hfewer₃)

end

end Vmir.TlsfInterface
