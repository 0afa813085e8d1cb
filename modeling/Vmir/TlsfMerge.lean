import Vmir.TlsfPool

set_option autoImplicit false

/-!
# Merging and trimming

A block that is in no list yet is joined with the free blocks beside it, or gives up its end.
-/
namespace Vmir.TlsfMerge
open Tlsf TlsfHeaders TlsfLists TlsfRows TlsfRowOps TlsfPool

/-- The free blocks beside a block of the size `n`. -/
def others (a : ℕ) (xs : List Blk) (n : ℕ) (ys : List Blk) : List (ℕ × ℕ) :=
  pick true a xs ++ pick true (stop a xs + 8 + n) ys

/-- The free block between `xs` and `ys` is in no list; all others are. -/
def Loose (s : Pool) (xs : List Blk) (n : ℕ) (ys : List Blk) : Prop :=
  Mid s (xs ++ ⟨n, true⟩ :: ys) (others (first s) xs n ys)

/-- A block with the one in front of it, if this is free. -/
def JoinsPrev (xs : List Blk) (n : ℕ) (xs' : List Blk) (n' : ℕ) : Prop :=
  (lastFree false xs = false ∧ xs' = xs ∧ n' = n) ∨ ∃ k, xs = xs' ++ [⟨k, true⟩] ∧ n' = k + 8 + n

/-- A block with the one behind it, if this is free. -/
def JoinsNext (n : ℕ) (ys : List Blk) (n' : ℕ) (ys' : List Blk) : Prop :=
  (headFree ys = false ∧ n' = n ∧ ys' = ys) ∨ ∃ k, ys = ⟨k, true⟩ :: ys' ∧ n' = n + 8 + k

section
variable {a n k r x : ℕ} {f g : Bool} {xs ys : List Blk}

theorem pick_mid (f : Bool) (a : ℕ) (xs : List Blk) (n : ℕ) (ys : List Blk) :
    pick f a (xs ++ ⟨n, f⟩ :: ys)
      = pick f a xs ++ (stop a xs, n) :: pick f (stop a xs + 8 + n) ys := by
  rw [pick_append, pick, if_pos rfl]

theorem perm_others (a : ℕ) (xs : List Blk) (n : ℕ) (ys : List Blk) :
    (pick true a (xs ++ ⟨n, true⟩ :: ys)).Perm ((stop a xs, n) :: others a xs n ys) := by
  rw [pick_mid]
  exact List.perm_middle

theorem others_used (a : ℕ) (xs : List Blk) (n : ℕ) (ys : List Blk) :
    pick true a (xs ++ ⟨n, false⟩ :: ys) = others a xs n ys := by
  rw [pick_append, pick, if_neg Bool.false_ne_true, others]

theorem others_sub {b : ℕ × ℕ} (h : b ∈ others a xs n ys) (f : Bool) :
    b ∈ pick true a (xs ++ ⟨n, f⟩ :: ys) := by
  cases f with
  | false => rwa [others_used]
  | true => exact (perm_others a xs n ys).mem_iff.mpr (List.mem_cons_of_mem _ h)

theorem not_mem_others : (stop a xs, n) ∉ others a xs n ys := by
  intro h
  rcases List.mem_append.mp h with h | h
  · have := (pick_bounds h).2
    omega
  · have := (pick_bounds h).1
    omega

theorem stop_mid (a : ℕ) (xs : List Blk) (n : ℕ) (f : Bool) (ys : List Blk) :
    stop a (xs ++ ⟨n, f⟩ :: ys) = stop (stop a xs + 8 + n) ys := stop_append ..

theorem stop_join (a : ℕ) (xs : List Blk) (n k : ℕ) (f g h : Bool) (ys : List Blk) :
    stop a (xs ++ ⟨n + 8 + k, h⟩ :: ys) = stop a (xs ++ ⟨n, f⟩ :: ⟨k, g⟩ :: ys) := by
  rw [stop_mid, stop_mid, stop, show stop a xs + 8 + (n + 8 + k) = stop a xs + 8 + n + 8 + k by omega]

theorem others_join (a : ℕ) (xs : List Blk) (n k : ℕ) (ys : List Blk) :
    (others a xs n (⟨k, true⟩ :: ys)).Perm
      ((stop a xs + 8 + n, k) :: others a xs (n + 8 + k) ys) := by
  rw [others, pick, if_pos rfl, others,
    show stop a xs + 8 + (n + 8 + k) = stop a xs + 8 + n + 8 + k by omega]
  exact List.perm_middle

theorem others_joined (a : ℕ) (xs : List Blk) (k n : ℕ) (ys : List Blk) :
    (others a (xs ++ [⟨k, true⟩]) n ys).Perm
      ((stop a xs, k) :: others a xs (k + 8 + n) ys) := by
  rw [others, pick_mid, stop_append, others,
    show stop a xs + 8 + (k + 8 + n) = stop a xs + 8 + k + 8 + n by omega]
  simp only [pick, stop, List.append_assoc, List.cons_append, List.nil_append]
  exact List.perm_middle

theorem payload_mid : Payload a (xs ++ ⟨n, f⟩ :: ys) x ↔ Payload a xs x
    ∨ (f = false ∧ stop a xs + 16 ≤ x ∧ x < stop a xs + 16 + n)
    ∨ Payload (stop a xs + 8 + n) ys x := by
  rw [payload_append, payload_cons]

theorem fewer_join (a : ℕ) (xs : List Blk) (n k : ℕ) (f : Bool) (ys : List Blk) :
    Fewer a (xs ++ ⟨n, f⟩ :: ⟨k, true⟩ :: ys) (xs ++ ⟨n + 8 + k, f⟩ :: ys) := by
  refine ⟨stop_join .., fun x h => ?_⟩
  rw [payload_mid, payload_cons] at h
  rw [payload_mid, show stop a xs + 8 + (n + 8 + k) = stop a xs + 8 + n + 8 + k by omega]
  rcases h with h | ⟨hf, hlo, hhi⟩ | ⟨hf, -⟩ | h
  · exact Or.inl h
  · exact Or.inr (Or.inl ⟨hf, hlo, by omega⟩)
  · cases hf
  · exact Or.inr (Or.inr h)

theorem fewer_split (a : ℕ) (xs : List Blk) (k r : ℕ) (g : Bool) (ys : List Blk) :
    Fewer a (xs ++ ⟨k + 8 + r, true⟩ :: ys) (xs ++ ⟨k, true⟩ :: ⟨r, g⟩ :: ys) := by
  refine ⟨(stop_join ..).symm, fun x h => ?_⟩
  rw [payload_mid] at h
  rw [payload_mid, payload_cons]
  rcases h with h | ⟨hf, -⟩ | h
  · exact Or.inl h
  · cases hf
  · rw [show stop a xs + 8 + (k + 8 + r) = stop a xs + 8 + k + 8 + r by omega] at h
    exact Or.inr (Or.inr (Or.inr h))

theorem fewer_marked (a : ℕ) (xs : List Blk) (n : ℕ) (f : Bool) (ys : List Blk) :
    Fewer a (xs ++ ⟨n, true⟩ :: ys) (xs ++ ⟨n, f⟩ :: ys) := by
  refine ⟨by rw [stop_mid, stop_mid], fun x h => ?_⟩
  rw [payload_mid] at h ⊢
  exact h.imp_right fun h => h.elim (fun h => Bool.noConfusion h.1) Or.inr

theorem fewer_joinsNext {n' : ℕ} {ys' : List Blk} (h : JoinsNext n ys n' ys') (a : ℕ)
    (xs : List Blk) : Fewer a (xs ++ ⟨n, true⟩ :: ys) (xs ++ ⟨n', true⟩ :: ys')
      ∧ Fewer a (xs ++ ⟨n', true⟩ :: ys') (xs ++ ⟨n, true⟩ :: ys) := by
  rcases h with ⟨-, rfl, rfl⟩ | ⟨k, rfl, rfl⟩
  · exact ⟨Fewer.refl .., Fewer.refl ..⟩
  · exact ⟨fewer_join .., fewer_split ..⟩

theorem fewer_joinsPrev {n' : ℕ} {xs' : List Blk} (h : JoinsPrev xs n xs' n') (a : ℕ)
    (ys : List Blk) : Fewer a (xs ++ ⟨n, true⟩ :: ys) (xs' ++ ⟨n', true⟩ :: ys)
      ∧ Fewer a (xs' ++ ⟨n', true⟩ :: ys) (xs ++ ⟨n, true⟩ :: ys) := by
  rcases h with ⟨-, rfl, rfl⟩ | ⟨k, rfl, rfl⟩
  · exact ⟨Fewer.refl .., Fewer.refl ..⟩
  · rw [List.append_assoc]
    exact ⟨fewer_join .., fewer_split ..⟩

theorem rowWord_inner (h : RowWord (stop a xs) ys x) : RowWord a (xs ++ ys) x :=
  rowWord_append.mpr (Or.inl h)

end

section
variable {s s' : Pool} {bs xs ys : List Blk} {G : List (ℕ × ℕ)} {f g : Bool} {n k : ℕ}

theorem mid_ahead (h : Mid s (xs ++ ⟨n, f⟩ :: ys) G) :
    Ahead s.mem (stop (first s) xs) n f (lastFree false xs) f ys := by
  have hbelow := h.arena.below
  rw [stop_append] at hbelow
  exact ahead_of_row (row_append.mp h.row).2 (by omega)

theorem mid_aligned (h : Mid s (xs ++ ys) G) : stop (first s) xs % 8 = 0 := by
  rw [stop_mod (row_append.mp h.row).1]
  exact h.first_mod

theorem first_pos (s : Pool) (xs : List Blk) : 0 < stop (first s) xs := by
  have hnull := first_bounds s.address
  have hle := le_stop (first s) xs
  change s.address + 32 ≤ first s at hnull
  omega

theorem first_congr (h : Kept bs s s') : first s' = first s := congrArg firstBlock h.address

/-- A block absorbs the one behind it. The header after the two is not told if this changes what it
has in front. -/
theorem absorb_spec (h : Mid s (xs ++ ⟨n, f⟩ :: ⟨k, g⟩ :: ys) G) :
    ∃ m', blockAbsorb s.mem (stop (first s) xs) (stop (first s) xs + 8 + n)
        = .ok (m', stop (first s) xs)
      ∧ Ahead m' (stop (first s) xs) (n + 8 + k) f (lastFree false xs) g ys
      ∧ m'.word (stop (first s) xs + 8 + (n + 8 + k)) = stop (first s) xs
      ∧ Same (fun x => x = stop (first s) xs + 8 ∨ x = stop (first s) xs + 8 + (n + 8 + k))
        s.mem m' := by
  have hahead := mid_ahead h
  exact blockAbsorb_spec hahead.word ⟨hahead.aligned, hahead.large⟩
    (ahead_of_row hahead.row hahead.fits)

theorem mid_lift {zs zs' : List Blk} {m' : Mem} (h : Mid s (xs ++ zs) G)
    (hrow : Row m' (lastFree false xs) (stop (first s) xs) zs')
    (hstop : stop (stop (first s) xs) zs' = stop (stop (first s) xs) zs)
    (hsub : ∀ b ∈ G, b ∈ pick true (first s) (xs ++ zs'))
    (hsame : Same (fun x => RowWord (stop (first s) xs) zs x ∨ RowWord (stop (first s) xs) zs' x)
      s.mem m') :
    Mid { s with mem := m' } (xs ++ zs') G
      ∧ ∀ cs, Fewer (first s) cs (xs ++ zs) → Fewer (first s) cs (xs ++ zs') →
        Kept cs s { s with mem := m' } := by
  have hrow' : Row m' false (first s) (xs ++ zs') := by
    refine row_lift h.row hrow fun x hx => hsame x ?_
    rintro (hw | hw)
    · have := (rowWord_bounds hw).1
      omega
    · have := (rowWord_bounds hw).1
      omega
  have hsame' : Same (fun x => RowWord (first s) (xs ++ zs) x ∨ RowWord (first s) (xs ++ zs') x)
      s.mem m' := hsame.mono fun x hx => hx.imp rowWord_inner rowWord_inner
  have hstop' : stop (first s) (xs ++ zs') = stop (first s) (xs ++ zs) := by
    rw [stop_append, stop_append, hstop]
  exact ⟨h.setMem hrow' hstop' hsub hsame', fun cs hcs hcs' => kept_setMem hsame' hcs hcs'⟩

theorem join_spec (h : Mid s (xs ++ ⟨n, true⟩ :: ⟨k, true⟩ :: ys)
      (others (first s) xs (n + 8 + k) ys)) :
    ∃ m', blockAbsorb s.mem (stop (first s) xs) (stop (first s) xs + 8 + n)
        = .ok (m', stop (first s) xs)
      ∧ Loose { s with mem := m' } xs (n + 8 + k) ys
      ∧ Kept (xs ++ ⟨n, true⟩ :: ⟨k, true⟩ :: ys) s { s with mem := m' } := by
  obtain ⟨m', habsorb, hahead, hlink, hsame⟩ := absorb_spec h
  obtain ⟨hmid, hkept⟩ := mid_lift h (hahead.cons fun _ => hlink) (stop_join (stop (first s) xs) [] ..)
    (fun b hb => others_sub hb true) (hsame.mono fun x hx => Or.inr
      (hx.elim Or.inl fun hx => Or.inr (Or.inl ⟨rfl, hx⟩)))
  exact ⟨m', habsorb, hmid, hkept _ (Fewer.refl ..) (fewer_join ..)⟩

/-- `block_merge_prev` joins a free block with the one in front of it, if this is free. -/
theorem blockMergePrev_spec (h : Loose s xs n ys) :
    ∃ s' xs' n', blockMergePrev s (stop (first s) xs) = .ok (s', stop (first s) xs')
      ∧ Loose s' xs' n' ys ∧ JoinsPrev xs n xs' n' ∧ Kept (xs ++ ⟨n, true⟩ :: ys) s s' := by
  have hahead := mid_ahead h
  unfold blockMergePrev
  rcases List.eq_nil_or_concat' xs with rfl | ⟨zs, ⟨k, _ | _⟩, rfl⟩
  · have hprev : ¬ blockIsPrevFree s.mem (stop (first s) []) :=
      fun hp => Bool.false_ne_true (hahead.headed.isPrevFree.mp hp)
    rw [if_neg hprev]
    exact ⟨s, [], n, rfl, h, Or.inl ⟨rfl, rfl, rfl⟩, Kept.refl _ _⟩
  · have hlast : lastFree false (zs ++ [⟨k, false⟩]) = false := lastFree_append ..
    have hprev : ¬ blockIsPrevFree s.mem (stop (first s) (zs ++ [⟨k, false⟩])) :=
      fun hp => Bool.false_ne_true (hlast.symm.trans (hahead.headed.isPrevFree.mp hp))
    rw [if_neg hprev]
    exact ⟨s, _, n, rfl, h, Or.inl ⟨hlast, rfl, rfl⟩, Kept.refl _ _⟩
  · have hlast : lastFree false (zs ++ [⟨k, true⟩]) = true := lastFree_append ..
    have hassoc : (zs ++ [⟨k, true⟩]) ++ ⟨n, true⟩ :: ys = zs ++ ⟨k, true⟩ :: ⟨n, true⟩ :: ys :=
      List.append_assoc ..
    have hstop : stop (first s) (zs ++ [⟨k, true⟩]) = stop (first s) zs + 8 + k := stop_mid ..
    have hmid : Mid s (zs ++ ⟨k, true⟩ :: ⟨n, true⟩ :: ys)
        ((stop (first s) zs, k) :: others (first s) zs (k + 8 + n) ys) := by
      rw [← hassoc]
      exact h.perm (others_joined ..).symm
    have hword : blockPrev s.mem (stop (first s) (zs ++ [⟨k, true⟩])) = stop (first s) zs := by
      rw [hstop]
      exact (row_mk.mp (row_append.mp hmid.row).2).2.2.1 rfl
    obtain ⟨s₁, hremove, hmid₁, hkept₁⟩ := hmid.remove
    have hfirst := first_congr hkept₁
    rw [← hfirst] at hmid₁
    obtain ⟨m', habsorb, hloose, hkept⟩ := join_spec hmid₁
    rw [hfirst] at habsorb
    rw [if_pos (hahead.headed.isPrevFree.mpr hlast), hword]
    dsimp only
    rw [tlsfAssert_ok (Nat.pos_iff_ne_zero.mp (first_pos s zs)), ok_bind,
      tlsfAssert_ok ((mid_ahead hmid).headed.isFree.mpr rfl), ok_bind, hremove, ok_bind, hstop,
      habsorb, hassoc]
    exact ⟨_, zs, k + 8 + n, rfl, hloose, Or.inr ⟨k, rfl, rfl⟩, hkept₁.trans hkept⟩

theorem mergeNext_used (h : Mid s (xs ++ ⟨n, f⟩ :: ys) G) (hused : headFree ys = false) :
    blockMergeNext s (stop (first s) xs) = .ok (s, stop (first s) xs) := by
  have hahead := mid_ahead h
  have hfree : ¬ blockIsFree s.mem (stop (first s) xs + 8 + n) := fun hf =>
    Bool.false_ne_true (hused.symm.trans ((row_headed hahead.row hahead.fits).isFree.mp hf))
  unfold blockMergeNext
  rw [hahead.next, ok_bind, tlsfAssert_ok (by omega), ok_bind, if_neg hfree]

theorem mergeNext_free (h : Mid s (xs ++ ⟨n, f⟩ :: ⟨k, true⟩ :: ys)
      ((stop (first s) xs + 8 + n, k) :: G)) :
    ∃ s₁, blockRemove s (stop (first s) xs + 8 + n) = .ok s₁
      ∧ Mid s₁ (xs ++ ⟨n, f⟩ :: ⟨k, true⟩ :: ys) G
      ∧ Kept (xs ++ ⟨n, f⟩ :: ⟨k, true⟩ :: ys) s s₁
      ∧ ∀ m', blockAbsorb s₁.mem (stop (first s) xs) (stop (first s) xs + 8 + n)
          = .ok (m', stop (first s) xs) →
        blockMergeNext s (stop (first s) xs) = .ok ({ s₁ with mem := m' }, stop (first s) xs) := by
  have hahead := mid_ahead h
  obtain ⟨s₁, hremove, hmid₁, hkept₁⟩ := h.remove
  refine ⟨s₁, hremove, hmid₁, hkept₁, fun m' habsorb => ?_⟩
  have hfree : blockIsFree s.mem (stop (first s) xs + 8 + n) :=
    (row_headed hahead.row hahead.fits).isFree.mpr rfl
  have hlast : ¬ blockIsLast s.mem (stop (first s) xs) := by
    have := hahead.large
    rw [blockIsLast, hahead.headed.size]
    omega
  unfold blockMergeNext
  rw [hahead.next, ok_bind, tlsfAssert_ok (by omega), ok_bind, if_pos hfree, tlsfAssert_ok hlast,
    ok_bind, hremove, ok_bind, habsorb]
  rfl

/-- `block_merge_next` joins a free block with the one behind it, if this is free. -/
theorem blockMergeNext_spec (h : Loose s xs n ys) :
    ∃ s' n' ys', blockMergeNext s (stop (first s) xs) = .ok (s', stop (first s) xs)
      ∧ Loose s' xs n' ys' ∧ JoinsNext n ys n' ys' ∧ Kept (xs ++ ⟨n, true⟩ :: ys) s s' := by
  rcases ys with _ | ⟨⟨k, _ | _⟩, ys⟩
  · exact ⟨s, n, [], mergeNext_used h rfl, h, Or.inl ⟨rfl, rfl, rfl⟩, Kept.refl _ _⟩
  · exact ⟨s, n, _, mergeNext_used h rfl, h, Or.inl ⟨rfl, rfl, rfl⟩, Kept.refl _ _⟩
  · obtain ⟨s₁, hremove, hmid₁, hkept₁, hmerge⟩ := mergeNext_free (h.perm (others_join ..).symm)
    have hfirst := first_congr hkept₁
    rw [← hfirst] at hmid₁
    obtain ⟨m', habsorb, hloose, hkept⟩ := join_spec hmid₁
    rw [hfirst] at habsorb
    exact ⟨_, n + 8 + k, ys, hmerge m' habsorb, hloose, Or.inr ⟨k, rfl, rfl⟩, hkept₁.trans hkept⟩

end

end Vmir.TlsfMerge
