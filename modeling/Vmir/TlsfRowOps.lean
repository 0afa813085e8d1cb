import Vmir.TlsfRows

set_option autoImplicit false

/-!
# Operations on headers in a row

What the functions on block headers do to a block and the row of the blocks behind it.
-/
namespace Vmir.TlsfRowOps
open Tlsf TlsfHeaders TlsfRows

/-- The memory outside of `P` is as it was. -/
def Same (P : ℕ → Prop) (m m' : Mem) : Prop := ∀ x, ¬ P x → m'.word x = m.word x

theorem Same.refl (P : ℕ → Prop) (m : Mem) : Same P m m := fun _ _ => rfl

theorem Same.trans {P : ℕ → Prop} {m m' m'' : Mem} (h : Same P m m') (h' : Same P m' m'') :
    Same P m m'' := fun x hx => (h' x hx).trans (h x hx)

theorem Same.mono {P Q : ℕ → Prop} {m m' : Mem} (h : Same P m m') (hPQ : ∀ x, P x → Q x) :
    Same Q m m' := fun x hx => h x fun hp => hx (hPQ x hp)

theorem same_write {P : ℕ → Prop} {a : ℕ} (m : Mem) (v : ℕ) (ha : P a) : Same P m (m.write a v) := by
  intro x hx
  refine word_write_ne ?_
  rintro rfl
  exact hx ha

section
variable {m : Mem} {p q f g r : Bool} {a n k : ℕ} {bs ys : List Blk}

def headSize : List Blk → ℕ
  | [] => 0
  | b :: _ => b.size

def headFree : List Blk → Bool
  | [] => false
  | b :: _ => b.free

theorem rowWord_head (a : ℕ) (bs : List Blk) : RowWord a bs (a + 8) := by
  cases bs with
  | nil => exact rfl
  | cons b bs => exact Or.inl rfl

theorem row_headed (h : Row m p a bs) (hend : stop a bs < 2 ^ 64) :
    Headed m a (headSize bs) (headFree bs) p := by
  cases bs with
  | nil => exact ⟨h.2, rfl, by decide⟩
  | cons b bs =>
    obtain ⟨hword, ⟨-, h8⟩, -⟩ := row_cons.mp h
    have hle := le_stop (a + 8 + b.size) bs
    change stop (a + 8 + b.size) bs < 2 ^ 64 at hend
    exact ⟨hword, show b.size % 4 = 0 by omega, show b.size < 2 ^ 64 by omega⟩

theorem row_setPrev (h : Row m p a bs) (q : Bool) :
    Row (m.write (a + 8) (tag (headSize bs) (headFree bs) q)) q a bs := by
  cases bs with
  | nil => exact ⟨trivial, word_write_same ..⟩
  | cons b bs =>
    obtain ⟨-, hsize, hlink, hrest⟩ := row_cons.mp h
    refine row_cons.mpr ⟨word_write_same .., hsize, fun hfree => ?_, hrest.congr fun x hx => ?_⟩
    · rw [word_write_ne (by omega)]
      exact hlink hfree
    · have := (rowWord_bounds hx).1
      rw [word_write_ne (by omega)]

theorem row_writeBefore (h : Row m p a bs) {x : ℕ} (hx : x < a + 8) (v : ℕ) :
    Row (m.write x v) p a bs := by
  refine h.congr fun z hz => ?_
  have := (rowWord_bounds hz).1
  rw [word_write_ne (by omega)]

theorem row_mk : Row m p a (⟨n, f⟩ :: ys) ↔ m.word (a + 8) = tag n f p ∧ (24 ≤ n ∧ n % 8 = 0)
    ∧ (f = true → m.word (a + 8 + n) = a) ∧ Row m f (a + 8 + n) ys := row_cons

/-- A block in front of a row, whose first header may still have to be told about the block. -/
structure Ahead (m : Mem) (a n : ℕ) (f p q : Bool) (ys : List Blk) : Prop where
  word : m.word (a + 8) = tag n f p
  aligned : n % 8 = 0
  large : 24 ≤ n
  row : Row m q (a + 8 + n) ys
  fits : stop (a + 8 + n) ys < 2 ^ 64

theorem Ahead.headed (h : Ahead m a n f p q ys) : Headed m a n f p := by
  have h8 := h.aligned
  have hfits := h.fits
  have hle := le_stop (a + 8 + n) ys
  exact ⟨h.word, by omega, by omega⟩

theorem Ahead.next (h : Ahead m a n f p q ys) : blockNext m a = .ok (a + 8 + n) := by
  have hlarge := h.large
  exact h.headed.next (by omega)

theorem Ahead.cons (h : Ahead m a n f p f ys) (hlink : f = true → m.word (a + 8 + n) = a) :
    Row m p a (⟨n, f⟩ :: ys) :=
  row_cons.mpr ⟨h.word, ⟨h.large, h.aligned⟩, hlink, h.row⟩

theorem ahead_of_row (h : Row m p a (⟨n, f⟩ :: ys)) (hend : stop a (⟨n, f⟩ :: ys) < 2 ^ 64) :
    Ahead m a n f p f ys := by
  obtain ⟨hword, ⟨hlarge, h8⟩, -, hrest⟩ := row_cons.mp h
  exact ⟨hword, h8, hlarge, hrest, hend⟩

theorem blockMarkAsFree_spec (h : Ahead m a n f p q ys) :
    ∃ m', blockMarkAsFree m a = .ok m' ∧ Row m' p a (⟨n, true⟩ :: ys)
      ∧ Same (RowWord a (⟨n, true⟩ :: ys)) m m' := by
  have hlarge := h.large
  have hrow := row_writeBefore h.row (x := a + 8 + n) (by omega) a
  have hhead := (h.headed.write (a := a + 8 + n) (v := a) (by omega)).write
    (a := a + 8 + n + 8) (v := tag (headSize ys) (headFree ys) true) (by omega)
  refine ⟨((m.write (a + 8 + n) a).write (a + 8 + n + 8)
    (tag (headSize ys) (headFree ys) true)).write (a + 8) (tag n true p), ?_, ?_, ?_⟩
  · unfold blockMarkAsFree blockLinkNext
    rw [h.next, ok_bind, ok_bind]
    simp only
    rw [(row_headed hrow h.fits).setPrevFree, hhead.setFree]
  · refine row_mk.mpr ⟨word_write_same .., ⟨h.large, h.aligned⟩, fun _ => ?_, ?_⟩
    · rw [word_write_ne (by omega), word_write_ne (by omega), word_write_same]
    · exact row_writeBefore (row_setPrev hrow true) (by omega) _
  · refine ((same_write _ _ ?_).trans (same_write _ _ ?_)).trans (same_write _ _ ?_)
    · exact Or.inr (Or.inl ⟨rfl, rfl⟩)
    · exact Or.inr (Or.inr (rowWord_head _ ys))
    · exact Or.inl rfl

theorem blockMarkAsUsed_spec (h : Ahead m a n f p q ys) :
    ∃ m', blockMarkAsUsed m a = .ok m' ∧ Row m' p a (⟨n, false⟩ :: ys)
      ∧ Same (RowWord a (⟨n, false⟩ :: ys)) m m' := by
  have hlarge := h.large
  have hhead := h.headed.write (a := a + 8 + n + 8) (v := tag (headSize ys) (headFree ys) false)
    (by omega)
  refine ⟨(m.write (a + 8 + n + 8) (tag (headSize ys) (headFree ys) false)).write (a + 8)
    (tag n false p), ?_, ?_, ?_⟩
  · unfold blockMarkAsUsed
    rw [h.next, ok_bind, (row_headed h.row h.fits).setPrevUsed, hhead.setUsed]
  · refine row_mk.mpr ⟨word_write_same .., ⟨h.large, h.aligned⟩, (fun hf => by cases hf), ?_⟩
    exact row_writeBefore (row_setPrev h.row false) (by omega) _
  · refine (same_write _ _ ?_).trans (same_write _ _ ?_)
    · exact Or.inr (Or.inr (rowWord_head _ ys))
    · exact Or.inl rfl

/-- `block_absorb` adds the block behind to a block, without a look at the flags of either. -/
theorem blockAbsorb_spec (h : m.word (a + 8) = tag n f p) (hn : n % 8 = 0 ∧ 24 ≤ n)
    (hnext : Ahead m (a + 8 + n) k g q r ys) :
    ∃ m', blockAbsorb m a (a + 8 + n) = .ok (m', a) ∧ Ahead m' a (n + 8 + k) f p r ys
      ∧ m'.word (a + 8 + (n + 8 + k)) = a
      ∧ Same (fun x => x = a + 8 ∨ x = a + 8 + (n + 8 + k)) m m' := by
  have hlarge := hnext.large
  have h8 := hnext.aligned
  have hfits := hnext.fits
  have hle := le_stop (a + 8 + n + 8 + k) ys
  have hbehind : a + 8 + n + 8 + k = a + 8 + (n + 8 + k) := by omega
  have hrow := hnext.row
  have hfits' := hfits
  rw [hbehind] at hrow hfits'
  have hhead : Headed m a n f p := ⟨h, by omega, by omega⟩
  have hlast : ¬ blockIsLast m a := by
    rw [blockIsLast, hhead.size]
    omega
  have hword : m.word (a + 8) + (blockSize m (a + 8 + n) + blockHeaderOverhead)
      = tag (n + 8 + k) f p := by
    rw [h, hnext.headed.size, tag_add, show n + (k + blockHeaderOverhead) = n + 8 + k by
      unfold blockHeaderOverhead
      omega]
  have hahead : Ahead (m.write (a + 8) (tag (n + 8 + k) f p)) a (n + 8 + k) f p r ys :=
    ⟨word_write_same .., by omega, by omega, row_writeBefore hrow (by omega) _, hfits'⟩
  refine ⟨(m.write (a + 8) (tag (n + 8 + k) f p)).write (a + 8 + (n + 8 + k)) a, ?_, ?_,
    word_write_same .., (same_write _ _ (Or.inl rfl)).trans (same_write _ _ (Or.inr rfl))⟩
  · unfold blockAbsorb
    rw [tlsfAssert_ok hlast, ok_bind]
    simp only
    rw [hword]
    unfold blockLinkNext
    rw [hahead.next]
    rfl
  · refine ⟨?_, by omega, by omega, row_writeBefore hahead.row (by omega) _, hfits'⟩
    rw [word_write_ne (by omega)]
    exact hahead.word

/-- `block_split` makes two blocks of one. The second is free; whether the first one is free has
still to be told to it. -/
theorem blockSplit_spec (h : Ahead m a n f p g ys) (ha : a % 8 = 0) (hk : k % 8 = 0)
    (hsplit : k + 32 ≤ n) :
    ∃ m' q, blockSplit m a k = .ok (m', a + 8 + k) ∧ m'.word (a + 8) = tag k f p
      ∧ Row m' q (a + 8 + k) (⟨n - k - 8, true⟩ :: ys)
      ∧ Same (fun x => x = a + 8 ∨ RowWord (a + 8 + k) (⟨n - k - 8, true⟩ :: ys) x) m m' := by
  have h8 := h.aligned
  have hfits := h.fits
  have hle := le_stop (a + 8 + n) ys
  have hbehind : blockBehind a k = a + 8 + k := by
    unfold blockBehind blockToPtr blockHeaderOverhead
    omega
  have hend : a + 8 + k + 8 + (n - k - 8) = a + 8 + n := by omega
  obtain ⟨f', q, hset⟩ := exists_setSize m (a + 8 + k) (k := n - k - 8) (by omega)
  have hfirst := h.headed.write (a := a + 8 + k + 8) (v := tag (n - k - 8) f' q) (by omega)
  have hsecond := (headed_write m (a + 8 + k) (n := n - k - 8) (by omega) (by omega) f' q).size
  have hahead : Ahead ((m.write (a + 8 + k + 8) (tag (n - k - 8) f' q)).write (a + 8) (tag k f p))
      (a + 8 + k) (n - k - 8) f' q g ys := by
    refine ⟨?_, by omega, by omega, ?_, by rwa [hend]⟩
    · rw [word_write_ne (by omega), word_write_same]
    · rw [hend]
      exact row_writeBefore (row_writeBefore h.row (by omega) _) (by omega) _
  obtain ⟨m', hmark, hrow, hsame⟩ := blockMarkAsFree_spec hahead
  refine ⟨m', q, ?_, ?_, hrow, ?_⟩
  · unfold blockSplit
    simp only
    rw [hbehind, assertAligned_ok (by omega) (by omega), ok_bind, tlsfAssert_ok, ok_bind,
      h.headed.size, show n - (k + blockHeaderOverhead) = n - k - 8 by
        unfold blockHeaderOverhead
        omega, hset, hsecond, tlsfAssert_ok, ok_bind, hfirst.setSize (by omega), hmark]
    · rfl
    · unfold blockSizeMin
      omega
    · rw [h.headed.size]
      unfold blockHeaderOverhead
      omega
  · rw [hsame _ fun hx => ?_, word_write_same]
    have := (rowWord_bounds hx).1
    omega
  · have hsize := same_write (P := fun x => x = a + 8 ∨ RowWord (a + 8 + k) (⟨n - k - 8, true⟩ :: ys) x)
      m (tag (n - k - 8) f' q) (Or.inr (Or.inl rfl))
    exact (hsize.trans (same_write _ (tag k f p) (Or.inl rfl))).trans
      (hsame.mono fun x hx => Or.inr hx)

end

end Vmir.TlsfRowOps
