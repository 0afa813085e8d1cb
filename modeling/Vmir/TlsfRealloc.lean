import Vmir.TlsfCalls

set_option autoImplicit false

/-!
# `tlsf_realloc`

A block stays where it is if it is large enough, or with the free block behind it; otherwise its words
are copied to a new one.
-/
namespace Vmir.TlsfRealloc
open Tlsf TlsfMapping TlsfHeaders TlsfLists TlsfSearch TlsfRows TlsfRowOps TlsfPool TlsfMerge TlsfTrim
open TlsfInterface TlsfCalls

def Clear (b d : ℕ × ℕ) : Prop := b.1 + 8 + b.2 ≤ d.1 ∨ d.1 + 8 + d.2 ≤ b.1

theorem Clear.symm {b d : ℕ × ℕ} (h : Clear b d) : Clear d b := Or.symm h

theorem Clear.not_inBlock {b d : ℕ × ℕ} {x : ℕ} (h : Clear b d) (hb : InBlock b x) : ¬ InBlock d x := by
  intro hd
  unfold Clear at h
  unfold InBlock at hb hd
  omega

theorem pick_clear (f : Bool) (a : ℕ) (bs : List Blk) : (pick f a bs).Pairwise Clear := by
  induction bs generalizing a with
  | nil => exact List.Pairwise.nil
  | cons b bs ih =>
    rw [pick]
    split
    · exact List.Pairwise.cons (fun d hd => Or.inl (pick_bounds hd).1) (ih _)
    · exact ih _

theorem clear_of_perm {a : ℕ} {bs : List Blk} {b : ℕ × ℕ} {R : List (ℕ × ℕ)}
    (h : (pick false a bs).Perm (b :: R)) {d : ℕ × ℕ} (hd : d ∈ R) : Clear b d :=
  List.rel_of_pairwise_cons ((pick_clear false a bs).perm h Clear.symm) hd

theorem memcpy_words {n : ℕ} (h8 : n % 8 = 0) (m : Mem) (dst src x : ℕ) :
    (memcpy m dst src n).word x
      = if dst ≤ x ∧ x < dst + n then m.word (x - dst + src) else m.word x := by
  have hdiv : n / 8 * 8 = n := by omega
  unfold memcpy
  dsimp only
  rw [hdiv, h8]
  split
  · rfl
  · split
    · rw [Nat.pow_zero, Nat.div_one, Nat.mul_one, Nat.mod_one, Nat.add_zero]
    · rfl

section
variable {s s' : Pool} {bs xs ys : List Blk} {y n k size : ℕ}

theorem Inv.write (h : Inv s bs) {m' : Mem} (hm : ∀ x, ¬ Payload (first s) bs x →
      s.address ≤ x ∧ x ≤ stop (first s) bs + 8 → m'.word x = s.mem.word x) :
    Inv { s with mem := m' } bs := by
  obtain ⟨L, hL⟩ := h.mid.listed
  have hrow {x : ℕ} (hx : RowWord (first s) bs x) : m'.word x = s.mem.word x := by
    have hbounds := rowWord_bounds hx
    have hnull := first_bounds s.address
    change s.address + 32 ≤ first s at hnull
    exact hm x (rowWord_not_payload hx) ⟨by omega, hbounds.2⟩
  have hlink {x : ℕ} (hx : LinkWord s.address (pick true (first s) bs) x) :
      m'.word x = s.mem.word x := by
    have hbounds := linkWord_bounds h.mid.row hx fun b hb => hb
    exact hm x (link_not_payload h.mid.row hx fun b hb => hb)
      ⟨hbounds.1, le_trans hbounds.2 (Nat.le_add_right _ 8)⟩
  refine ⟨⟨h.mid.arena, h.mid.row.congr fun x hx => hrow hx, ⟨L, ?_⟩, fun b hb => hb⟩, h.coalesced⟩
  exact hL.congr fun b hb => ⟨hlink ⟨b.1, Or.inr ⟨b.2, hb⟩, Or.inl rfl⟩,
    hlink ⟨b.1, Or.inr ⟨b.2, hb⟩, Or.inr rfl⟩⟩

theorem grow_spec {j : ℕ} (h : Mid s (xs ++ ⟨n, false⟩ :: ⟨j, true⟩ :: ys)
      (pick true (first s) (xs ++ ⟨n, false⟩ :: ⟨j, true⟩ :: ys))) :
    ∃ s₁ m', blockMergeNext s (stop (first s) xs) = .ok (s₁, stop (first s) xs)
      ∧ blockMarkAsUsed s₁.mem (stop (first s) xs) = .ok m'
      ∧ Mid { s₁ with mem := m' } (xs ++ ⟨n + 8 + j, false⟩ :: ys)
        (pick true (first s₁) (xs ++ ⟨n + 8 + j, false⟩ :: ys))
      ∧ Kept (xs ++ ⟨n, false⟩ :: ⟨j, true⟩ :: ys) s { s₁ with mem := m' } := by
  rw [others_used] at h
  obtain ⟨s₁, -, hmid₁, hkept₁, hmerge⟩ := mergeNext_free (h.perm (others_join ..).symm)
  have hfirst := first_congr hkept₁
  obtain ⟨m, habsorb, hahead, hlink, hsame⟩ := absorb_spec hmid₁
  obtain ⟨m', hmark, hrow, hsame'⟩ := blockMarkAsUsed_spec hahead
  have hbehind : stop (first s₁) xs + 8 + (n + 8 + j) = stop (first s₁) xs + 8 + n + 8 + j := by omega
  have hwords : Same (fun x => RowWord (stop (first s₁) xs) (⟨n, false⟩ :: ⟨j, true⟩ :: ys) x
      ∨ RowWord (stop (first s₁) xs) (⟨n + 8 + j, false⟩ :: ys) x) s₁.mem m' := by
    refine (hsame.mono fun x hx => Or.inl ?_).trans (hsame'.mono fun x hx => Or.inr hx)
    rcases hx with rfl | rfl
    · exact Or.inl rfl
    · exact Or.inr (Or.inr (Or.inr (Or.inl ⟨rfl, hbehind⟩)))
  obtain ⟨hmid, hkept⟩ := mid_lift hmid₁ hrow (stop_join _ [] n j false true false ys)
    (fun b hb => others_sub (hfirst.symm ▸ hb) false) hwords
  rw [hfirst] at habsorb hmark
  refine ⟨_, m', hmerge m habsorb, hmark, ?_, hkept₁.trans (hkept _ (Fewer.refl ..) (fewer_join ..))⟩
  rw [others_used]
  change Mid _ _ (others (first s₁) _ _ _)
  rwa [hfirst]

theorem cutUsed_spec {a : ℕ} {zs : List Blk} (h : CutUsed k n ys zs) (hk : k ≤ n)
    (hxs : Coalesced false (xs ++ ⟨n, false⟩ :: ys)) :
    ∃ k', k ≤ k' ∧ k' ≤ n
      ∧ (pick false a (xs ++ zs)).Perm ((stop a xs, k') :: pick false a (xs ++ ⟨n, true⟩ :: ys))
      ∧ stop a (xs ++ zs) = stop a (xs ++ ⟨n, false⟩ :: ys) ∧ Coalesced false (xs ++ zs) := by
  obtain ⟨hxs', -, hys⟩ := coalesced_mid.mp hxs
  rcases h with ⟨hcan, r, ys', hjoin, rfl⟩ | ⟨-, rfl⟩
  · have hassoc (f : Bool) (r : ℕ) (ys : List Blk) : xs ++ ⟨k, f⟩ :: ⟨r, true⟩ :: ys
        = (xs ++ [⟨k, f⟩]) ++ ⟨r, true⟩ :: ys := by
      rw [List.append_assoc]
      rfl
    have hsize : k + 8 + (n - k - 8) = n := by omega
    refine ⟨k, le_refl k, hk, ?_, ?_, coalesced_mid.mpr ⟨hxs', fun hf => Bool.false_ne_true hf.2,
      fun hf => Bool.false_ne_true hf.1, JoinsNext.coalesced hjoin hys⟩⟩
    · rw [← hsize, ← pick_join, hassoc true, ← pick_joinsNext hjoin, ← hassoc true]
      exact perm_used ..
    · rw [hassoc false, (fewer_joinsNext hjoin a _).1.stop, ← hassoc false,
        ← stop_join a xs k (n - k - 8) false true false, hsize]
  · exact ⟨n, hk, le_refl n, perm_used .., rfl, hxs⟩

theorem stay_spec (h : Inv s (xs ++ ⟨n, false⟩ :: ys)) (hk : k % 8 = 0 ∧ 24 ≤ k) (hle : k ≤ n) :
    ∃ s' bs' k', blockTrimUsed s (stop (first s) xs) k = .ok s' ∧ k ≤ k' ∧ k' ≤ n ∧ Inv s' bs'
      ∧ (used s' bs').Perm ((stop (first s) xs, k') :: pick false (first s) (xs ++ ⟨n, true⟩ :: ys))
      ∧ stop (first s) bs' = stop (first s) (xs ++ ⟨n, false⟩ :: ys) ∧ Kept bs' s s' := by
  obtain ⟨s', zs, htrim, hcut, hmid, hkept⟩ := blockTrimUsed_spec h.mid hk
  obtain ⟨k', hk', hn, hperm, hstop, hcoalesced⟩ := cutUsed_spec (a := first s) hcut hle h.coalesced
  refine ⟨s', xs ++ zs, k', htrim, hk', hn, ⟨hmid, hcoalesced⟩, ?_, hstop, hkept⟩
  unfold used
  rwa [first_congr hkept]

/-- A block became one of another size, perhaps at another place, and kept its words. -/
structure Resized (s s' : Pool) (bs bs' : List Blk) (b d : ℕ × ℕ) : Prop where
  inv : Inv s' bs'
  rest : ∃ R, (used s bs).Perm (b :: R) ∧ (used s' bs').Perm (d :: R) ∧ Moves s s' bs bs' R
  words : ∀ i < min b.2 d.2, s'.mem.word (d.1 + 16 + i) = s.mem.word (b.1 + 16 + i)

theorem shrink_spec (h : Inv s (xs ++ ⟨n, false⟩ :: ys)) (hk : k % 8 = 0 ∧ 24 ≤ k) (hle : k ≤ n) :
    ∃ s' bs' k', blockTrimUsed s (stop (first s) xs) k = .ok s' ∧ k ≤ k'
      ∧ Resized s s' (xs ++ ⟨n, false⟩ :: ys) bs' (stop (first s) xs, n) (stop (first s) xs, k') := by
  obtain ⟨s', bs', k', htrim, hk', hn, hinv, hperm, hstop, hkept⟩ := stay_spec h hk hle
  have hfirst := first_congr hkept
  have hin {b : ℕ × ℕ} (hb : b ∈ used s' bs') {x : ℕ} (hx : InBlock b x) :
      s'.mem.word x = s.mem.word x :=
    hkept.payload x ⟨b.1, b.2, hfirst ▸ hb, hx⟩
  refine ⟨s', bs', k', htrim, hk', hinv, ⟨_, perm_used .., hperm, ⟨hkept.address, hstop,
    fun b hb x hx => hin (hperm.mem_iff.mpr (List.mem_cons_of_mem _ hb)) hx, ?_⟩⟩, fun i hi => ?_⟩
  · rw [← hstop]
    exact hkept.outside
  · refine hin (hperm.mem_iff.mpr List.mem_cons_self) ⟨?_, ?_⟩
    · exact Nat.le_add_right ..
    · have := lt_min_iff.mp hi
      exact Nat.add_lt_add_left this.2 _

theorem growShrink_spec {j : ℕ} (h : Inv s (xs ++ ⟨n, false⟩ :: ⟨j, true⟩ :: ys))
    (hk : k % 8 = 0 ∧ 24 ≤ k) (hle : k ≤ n + 8 + j) :
    ∃ s₁ m s' bs' k', blockMergeNext s (stop (first s) xs) = .ok (s₁, stop (first s) xs)
      ∧ blockMarkAsUsed s₁.mem (stop (first s) xs) = .ok m
      ∧ blockTrimUsed { s₁ with mem := m } (stop (first s) xs) k = .ok s' ∧ k ≤ k'
      ∧ Resized s s' (xs ++ ⟨n, false⟩ :: ⟨j, true⟩ :: ys) bs' (stop (first s) xs, n)
        (stop (first s) xs, k') := by
  obtain ⟨s₁, m, hmerge, hmark, hmid, hkept⟩ := grow_spec h.mid
  obtain ⟨hxs, -, -, hys⟩ := coalesced_mid.mp h.coalesced
  have hinv : Inv { s₁ with mem := m } (xs ++ ⟨n + 8 + j, false⟩ :: ys) :=
    ⟨hmid, coalesced_mid.mpr ⟨hxs, fun hf => Bool.false_ne_true hf.2, hys.used⟩⟩
  have hfirst : first { s₁ with mem := m } = first s := first_congr hkept
  obtain ⟨s', bs', k', htrim, hk', hn, hinv', hperm, hstop, hkept'⟩ := stay_spec hinv hk hle
  rw [hfirst] at htrim hperm hstop
  rw [← pick_join] at hperm
  have hbound : stop (first s) bs' = stop (first s) (xs ++ ⟨n, false⟩ :: ⟨j, true⟩ :: ys) := by
    rw [hstop]
    exact stop_join ..
  have hin {b : ℕ × ℕ} (hb : b ∈ used s' bs') {x : ℕ} (hx : InBlock b x) :
      s'.mem.word x = m.word x :=
    hkept'.payload x ⟨b.1, b.2, (first_congr hkept') ▸ hb, hx⟩
  have hold := perm_used (first s) xs n (⟨j, true⟩ :: ys)
  refine ⟨s₁, m, s', bs', k', hmerge, hmark, htrim, hk', hinv', ⟨_, hold, hperm,
    ⟨hkept'.address.trans hkept.address, hbound, fun b hb x hx => ?_, fun x hx => ?_⟩⟩, fun i hi => ?_⟩
  · exact (hin (hperm.mem_iff.mpr (List.mem_cons_of_mem _ hb)) hx).trans
      (hkept.payload x ⟨b.1, b.2, hold.mem_iff.mpr (List.mem_cons_of_mem _ hb), hx⟩)
  · refine (hkept'.outside x ?_).trans (hkept.outside x hx)
    rw [hfirst, hbound]
    exact hx.imp_left fun h => hkept.address.symm ▸ h
  · obtain ⟨hi, hi'⟩ := lt_min_iff.mp hi
    exact (hin (hperm.mem_iff.mpr List.mem_cons_self) ⟨Nat.le_add_right .., Nat.add_lt_add_left hi' _⟩).trans
      (hkept.payload _ ⟨_, _, hold.mem_iff.mpr List.mem_cons_self, Nat.le_add_right ..,
        Nat.add_lt_add_left hi _⟩)

theorem move_spec (h : Inv s bs) (hmem : (y, n) ∈ used s bs) (hlt : n < rounded size)
    (hmax : size ≤ 2 ^ 32 - 2 ^ 26) :
    tlsfMalloc s size = .ok (s, 0) ∨ ∃ s₁ s' bs' z k, tlsfMalloc s size = .ok (s₁, z + 16)
      ∧ tlsfFree { s₁ with mem := memcpy s₁.mem (z + 16) (y + 16) (min n size) } (y + 16) = .ok s'
      ∧ rounded size ≤ k ∧ Resized s s' bs bs' (y, n) (z, k) := by
  have hgood := h.mid.row.good hmem
  have hsize : min n size = n := by
    unfold rounded at hlt
    omega
  rw [hsize]
  rcases malloc_spec h (by unfold rounded at hlt; omega) hmax with
    ⟨hnone, -⟩ | ⟨s₁, bs₁, z, k, hmalloc, hinv₁, hk, hperm₁, hmoves₁⟩
  · exact Or.inl hnone
  · right
    have hfirst₁ : first s₁ = first s := congrArg firstBlock hmoves₁.address
    have hcopy (x : ℕ) := memcpy_words hgood.2 s₁.mem (z + 16) (y + 16) x
    have hnew : (z, k) ∈ used s₁ bs₁ := hperm₁.mem_iff.mpr List.mem_cons_self
    have hinv₂ : Inv { s₁ with mem := memcpy s₁.mem (z + 16) (y + 16) n } bs₁ := by
      refine Inv.write hinv₁ fun x hx _ => ?_
      rw [hcopy, if_neg]
      rintro ⟨hlo, hhi⟩
      exact hx ⟨z, k, hnew, hlo, by omega⟩
    have hold : (y, n) ∈ used s₁ bs₁ := hperm₁.mem_iff.mpr (List.mem_cons_of_mem _ hmem)
    obtain ⟨s', bs', hfree, hinv', hperm', hmoves'⟩ := free_spec hinv₂ hold
    have hR := List.perm_cons_erase hmem
    have hrest : (used s' bs').Perm ((z, k) :: (used s bs).erase (y, n)) := by
      refine (List.Perm.cons_inv (a := (y, n)) ?_).symm
      refine List.Perm.trans ?_ (hperm₁.symm.trans hperm')
      exact (List.Perm.swap ..).trans (hR.symm.cons _)
    refine ⟨s₁, s', bs', z, k, hmalloc, hfree, hk, hinv', ⟨_, hR, hrest, ?_⟩, fun i hi => ?_⟩
    · have hstop₁ := hmoves₁.stop
      have hstop' : stop (first s) bs' = stop (first s) bs₁ := hfirst₁ ▸ hmoves'.stop
      refine ⟨hmoves'.address.trans hmoves₁.address, hstop'.trans hstop₁, fun b hb x hx => ?_,
        fun x hx => ?_⟩
      · have hb' : b ∈ used s bs := hR.mem_iff.mpr (List.mem_cons_of_mem _ hb)
        have hclear := (clear_of_perm hperm₁ hb').symm.not_inBlock hx
        refine (hmoves'.blocks b (hrest.mem_iff.mpr (List.mem_cons_of_mem _ hb)) x hx).trans
          (Eq.trans ?_ (hmoves₁.blocks b hb' x hx))
        exact (hcopy x).trans (if_neg fun hx => hclear ⟨hx.1, lt_of_lt_of_le hx.2 (by omega)⟩)
      · have hnull := first_bounds s.address
        have hbounds := pick_bounds hnew
        rw [hfirst₁, hstop₁] at hbounds
        change s.address + 32 ≤ first s at hnull
        refine (hmoves'.outside x ?_).trans (Eq.trans ?_ (hmoves₁.outside x hx))
        · change x < s₁.address ∨ stop (first s₁) bs₁ + 8 < x
          rwa [hmoves₁.address, hfirst₁, hstop₁]
        · exact (hcopy x).trans (if_neg fun h => by omega)
    · have hi' : i < n := (lt_min_iff.mp hi).1
      have hword : (memcpy s₁.mem (z + 16) (y + 16) n).word (z + 16 + i) = s₁.mem.word (y + 16 + i) := by
        rw [hcopy, if_pos ⟨by omega, by omega⟩]
        congr 1
        omega
      refine (hmoves'.blocks (z, k) (hrest.mem_iff.mpr List.mem_cons_self) _
        ⟨Nat.le_add_right .., Nat.add_lt_add_left (lt_min_iff.mp hi).2 _⟩).trans (hword.trans ?_)
      exact hmoves₁.blocks (y, n) hmem _ ⟨Nat.le_add_right .., Nat.add_lt_add_left hi' _⟩

/-- `tlsf_realloc` gives a block of the size that was asked for at least, with the words of the old
one, or leaves everything as it was. -/
theorem realloc_spec (h : Inv s bs) (hmem : (y, n) ∈ used s bs) (hpos : 0 < size)
    (hmax : size ≤ 2 ^ 32 - 2 ^ 26) :
    (tlsfRealloc s (y + 16) size = .ok (s, 0) ∧ n < rounded size)
      ∨ ∃ s' bs' z k, tlsfRealloc s (y + 16) size = .ok (s', z + 16) ∧ rounded size ≤ k
        ∧ Resized s s' bs bs' (y, n) (z, k) := by
  obtain ⟨hk8, hk24, -⟩ := rounded_good size
  obtain ⟨xs, ys, rfl, rfl⟩ := mem_pick.mp hmem
  have hahead := mid_ahead h.mid
  have hnext := row_headed hahead.row hahead.fits
  have hfree : blockIsFree s.mem (stop (first s) xs + 8 + n) ↔ headFree ys = true := hnext.isFree
  have hblock : blockFromPtr (stop (first s) xs + 16) = stop (first s) xs := Nat.add_sub_cancel ..
  unfold tlsfRealloc
  rw [if_neg (by omega), if_neg (by omega), hblock]
  dsimp only
  rw [hahead.next, ok_bind, hahead.headed.size, hnext.size, adjustRequestSize_eq hpos (by omega),
    ok_bind]
  by_cases hmove : n < rounded size ∧ (¬ blockIsFree s.mem (stop (first s) xs + 8 + n)
      ∨ n + headSize ys + blockHeaderOverhead < rounded size)
  · rw [if_pos hmove]
    rcases move_spec h hmem hmove.1 hmax with hnone | ⟨s₁, s', bs', z, k, hmalloc, hrel, hk, hresized⟩
    · left
      rw [hnone]
      exact ⟨rfl, hmove.1⟩
    · right
      refine ⟨s', bs', z, k, ?_, hk, hresized⟩
      rw [hmalloc, ok_bind]
      dsimp only
      rw [if_pos (by omega), hrel]
      rfl
  · right
    rw [if_neg hmove]
    by_cases hgrow : n < rounded size
    · have hstays : blockIsFree s.mem (stop (first s) xs + 8 + n)
          ∧ rounded size ≤ n + headSize ys + blockHeaderOverhead := by
        refine ⟨not_not.mp fun hf => hmove ⟨hgrow, Or.inl hf⟩, not_lt.mp fun hlt =>
          hmove ⟨hgrow, Or.inr hlt⟩⟩
      rcases ys with _ | ⟨⟨j, _ | _⟩, ys⟩
      · cases hfree.mp hstays.1
      · cases hfree.mp hstays.1
      · have hle : rounded size ≤ n + j + 8 := hstays.2
        obtain ⟨s₁, m, s', bs', k, hmerge, hmark, htrim, hk, hresized⟩ :=
          growShrink_spec h ⟨hk8, hk24⟩ (show rounded size ≤ n + 8 + j by omega)
        refine ⟨s', bs', _, k, ?_, hk, hresized⟩
        rw [if_pos hgrow, hmerge, ok_bind]
        dsimp only
        rw [hmark, ok_bind, ok_bind, htrim]
        rfl
    · obtain ⟨s', bs', k, htrim, hk, hresized⟩ :=
        shrink_spec h ⟨hk8, hk24⟩ (Nat.not_lt.mp hgrow)
      refine ⟨s', bs', _, k, ?_, hk, hresized⟩
      rw [if_neg hgrow, ok_bind, htrim]
      rfl

end

end Vmir.TlsfRealloc
