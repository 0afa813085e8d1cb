import Vmir.TlsfInterface

set_option autoImplicit false

/-!
# The used blocks and the calls

What `tlsf_malloc`, `tlsf_free` and `tlsf_realloc` do to the used blocks, without the free ones.
-/
namespace Vmir.TlsfCalls
open Tlsf TlsfMapping TlsfHeaders TlsfLists TlsfSearch TlsfRows TlsfRowOps TlsfPool TlsfMerge TlsfTrim
open TlsfInterface

def used (s : Pool) (bs : List Blk) : List (ℕ × ℕ) := pick false (first s) bs

def InBlock (b : ℕ × ℕ) (x : ℕ) : Prop := b.1 + 16 ≤ x ∧ x < b.1 + 16 + b.2

/-- The pool is where it was, and nothing has happened to the used blocks `R` and to the memory outside
of the pool. -/
structure Moves (s s' : Pool) (bs bs' : List Blk) (R : List (ℕ × ℕ)) : Prop where
  address : s'.address = s.address
  stop : stop (first s) bs' = stop (first s) bs
  blocks : ∀ b ∈ R, ∀ x, InBlock b x → s'.mem.word x = s.mem.word x
  outside : ∀ x, x < s.address ∨ TlsfRows.stop (first s) bs + 8 < x → s'.mem.word x = s.mem.word x

/-! ## Used blocks of joined rows -/

section
variable {a n k : ℕ} {xs ys xs' ys' : List Blk} {n' : ℕ}

theorem pick_hidden (a : ℕ) (xs : List Blk) (n : ℕ) (ys : List Blk) :
    pick false a (xs ++ ⟨n, true⟩ :: ys)
      = pick false a xs ++ pick false (stop a xs + 8 + n) ys := by
  rw [pick_append, pick, if_neg Bool.noConfusion]

theorem pick_join (a : ℕ) (xs : List Blk) (n k : ℕ) (ys : List Blk) :
    pick false a (xs ++ ⟨n, true⟩ :: ⟨k, true⟩ :: ys)
      = pick false a (xs ++ ⟨n + 8 + k, true⟩ :: ys) := by
  rw [pick_hidden, pick_hidden, pick, if_neg Bool.noConfusion,
    show stop a xs + 8 + (n + 8 + k) = stop a xs + 8 + n + 8 + k by omega]

theorem pick_joinsNext (h : JoinsNext n ys n' ys') (a : ℕ) (xs : List Blk) :
    pick false a (xs ++ ⟨n', true⟩ :: ys') = pick false a (xs ++ ⟨n, true⟩ :: ys) := by
  rcases h with ⟨-, rfl, rfl⟩ | ⟨k, rfl, rfl⟩
  · rfl
  · exact (pick_join ..).symm

theorem pick_joinsPrev (h : JoinsPrev xs n xs' n') (a : ℕ) (ys : List Blk) :
    pick false a (xs' ++ ⟨n', true⟩ :: ys) = pick false a (xs ++ ⟨n, true⟩ :: ys) := by
  rcases h with ⟨-, rfl, rfl⟩ | ⟨k, rfl, rfl⟩
  · rfl
  · rw [List.append_assoc]
    exact (pick_join ..).symm

theorem pick_cutFree (a : ℕ) (xs : List Blk) (k n : ℕ) (ys : List Blk) :
    pick false a (xs ++ ⟨(cutFree k n ys).1, true⟩ :: (cutFree k n ys).2)
      = pick false a (xs ++ ⟨n, true⟩ :: ys) := by
  unfold cutFree
  split
  · rw [pick_join, show k + 8 + (n - k - 8) = n by omega]
  · rfl

theorem stop_cutFree (a : ℕ) (xs : List Blk) (k n : ℕ) (f : Bool) (ys : List Blk) :
    stop a (xs ++ ⟨(cutFree k n ys).1, f⟩ :: (cutFree k n ys).2)
      = stop a (xs ++ ⟨n, true⟩ :: ys) := by
  unfold cutFree
  split
  · rw [← stop_join a xs k (n - k - 8) f true true, show k + 8 + (n - k - 8) = n by omega]
  · rw [stop_mid, stop_mid]

theorem le_cutFree (h : k ≤ n) (ys : List Blk) : k ≤ (cutFree k n ys).1 := by
  unfold cutFree
  split
  · exact le_refl k
  · exact h

theorem perm_used (a : ℕ) (xs : List Blk) (n : ℕ) (ys : List Blk) :
    (pick false a (xs ++ ⟨n, false⟩ :: ys)).Perm
      ((stop a xs, n) :: pick false a (xs ++ ⟨n, true⟩ :: ys)) := by
  rw [pick_mid, pick_hidden]
  exact List.perm_middle

end

section
variable {s s' : Pool} {bs bs' xs ys : List Blk} {y n size : ℕ}

theorem Kept.moves (h : Kept bs s s') (hstop : stop (first s) bs' = stop (first s) bs) {R : List (ℕ × ℕ)}
    (hR : ∀ b ∈ R, b ∈ used s bs) : Moves s s' bs bs' R where
  address := h.address
  stop := hstop
  blocks b hb x hx := h.payload x ⟨b.1, b.2, hR b hb, hx⟩
  outside := h.outside

/-- `tlsf_malloc` gives one more used block, of the size that was asked for at least. -/
theorem malloc_spec (h : Inv s bs) (hpos : 0 < size) (hmax : size ≤ 2 ^ 32 - 2 ^ 26) :
    (tlsfMalloc s size = .ok (s, 0)
        ∧ ∀ y n, (y, n) ∈ pick true (first s) bs → n < rounded size + rounded size / 32)
      ∨ ∃ s' bs' y k, tlsfMalloc s size = .ok (s', y + 16) ∧ Inv s' bs' ∧ rounded size ≤ k
        ∧ (used s' bs').Perm ((y, k) :: used s bs) ∧ Moves s s' bs bs' (used s bs) := by
  refine (tlsfMalloc_spec h hpos hmax).imp_right ?_
  rintro ⟨s', xs, n, ys, rfl, hfits, hmalloc, hinv, hkept⟩
  refine ⟨s', _, _, _, hmalloc, hinv, le_cutFree hfits ys, ?_, Kept.moves hkept (stop_cutFree ..)
    fun b hb => hb⟩
  unfold used
  rw [first_congr hkept, ← pick_cutFree _ xs (rounded size) n ys]
  exact perm_used ..

/-- `tlsf_free` gives the block back. -/
theorem free_spec (h : Inv s bs) (hmem : (y, n) ∈ used s bs) :
    ∃ s' bs', tlsfFree s (y + 16) = .ok s' ∧ Inv s' bs'
      ∧ (used s bs).Perm ((y, n) :: used s' bs') ∧ Moves s s' bs bs' (used s' bs') := by
  obtain ⟨xs, ys, rfl, rfl⟩ := mem_pick.mp hmem
  obtain ⟨s', xs', n₁, n₂, ys', hfree, hprev, hnext, hinv, hkept⟩ := tlsfFree_spec h
  have hused : used s' (xs' ++ ⟨n₂, true⟩ :: ys') = pick false (first s) (xs ++ ⟨n, true⟩ :: ys) := by
    unfold used
    rw [first_congr hkept, pick_joinsNext hnext, pick_joinsPrev hprev]
  have hstop : stop (first s) (xs' ++ ⟨n₂, true⟩ :: ys')
      = stop (first s) (xs ++ ⟨n, true⟩ :: ys) :=
    (fewer_joinsNext hnext (first s) xs').1.stop.trans (fewer_joinsPrev hprev (first s) ys).1.stop
  have hmoves := Kept.moves hkept hstop (R := used s' (xs' ++ ⟨n₂, true⟩ :: ys')) fun b hb => by
    rwa [hused] at hb
  have hmark : stop (first s) (xs ++ ⟨n, true⟩ :: ys) = stop (first s) (xs ++ ⟨n, false⟩ :: ys) := by
    rw [stop_mid, stop_mid]
  refine ⟨s', _, hfree, hinv, ?_, hmoves.address, hstop.trans hmark, hmoves.blocks, ?_⟩
  · rw [hused]
    exact perm_used ..
  · rw [← hmark]
    exact hmoves.outside

end

end Vmir.TlsfCalls
