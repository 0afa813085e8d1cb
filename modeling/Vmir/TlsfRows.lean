import Mathlib.Data.List.Chain
import Mathlib.Data.List.Pairwise
import Vmir.TlsfHeaders

set_option autoImplicit false

/-!
# Rows of TLSF blocks

The blocks of a pool lie one behind the other, up to a sentinel of size 0. A block begins with the
last word of the one before it; its size counts neither this word nor the size word, but the first
word of the next block.
-/
namespace Vmir.TlsfRows
open Tlsf TlsfHeaders

structure Blk where
  size : ℕ
  free : Bool
deriving DecidableEq, Repr

def stop : ℕ → List Blk → ℕ
  | a, [] => a
  | a, b :: bs => stop (a + 8 + b.size) bs

def lastFree : Bool → List Blk → Bool
  | p, [] => p
  | _, b :: bs => lastFree b.free bs

/-- The headers of the blocks from the address `a` on; `p` says whether the block before is free. The
block behind a free block has a pointer to it. -/
def Seg (m : Mem) : Bool → ℕ → List Blk → Prop
  | _, _, [] => True
  | p, a, b :: bs => m.word (a + 8) = tag b.size b.free p ∧ (24 ≤ b.size ∧ b.size % 8 = 0)
      ∧ (b.free = true → m.word (a + 8 + b.size) = a) ∧ Seg m b.free (a + 8 + b.size) bs

def Row (m : Mem) (p : Bool) (a : ℕ) (bs : List Blk) : Prop :=
  Seg m p a bs ∧ m.word (stop a bs + 8) = tag 0 false (lastFree p bs)

/-- The blocks that are free, or used, with their addresses. -/
def pick (f : Bool) : ℕ → List Blk → List (ℕ × ℕ)
  | _, [] => []
  | a, b :: bs =>
    if b.free = f then (a, b.size) :: pick f (a + 8 + b.size) bs else pick f (a + 8 + b.size) bs

/-- The words that the headers of the blocks and the sentinel are kept in. -/
def RowWord : ℕ → List Blk → ℕ → Prop
  | a, [], x => x = a + 8
  | a, b :: bs, x => x = a + 8 ∨ b.free = true ∧ x = a + 8 + b.size ∨ RowWord (a + 8 + b.size) bs x

def Payload (a : ℕ) (bs : List Blk) (x : ℕ) : Prop :=
  ∃ y n, (y, n) ∈ pick false a bs ∧ y + 16 ≤ x ∧ x < y + 16 + n

section
variable {m m' : Mem} {p f : Bool} {a x : ℕ} {b : Blk} {bs xs ys : List Blk}

/-! ## Rows in two parts -/

theorem stop_append (a : ℕ) (xs ys : List Blk) : stop a (xs ++ ys) = stop (stop a xs) ys := by
  induction xs generalizing a with
  | nil => rfl
  | cons b xs ih => exact ih _

theorem lastFree_append (p : Bool) (xs ys : List Blk) :
    lastFree p (xs ++ ys) = lastFree (lastFree p xs) ys := by
  induction xs generalizing p with
  | nil => rfl
  | cons b xs ih => exact ih _

theorem pick_append (f : Bool) (a : ℕ) (xs ys : List Blk) :
    pick f a (xs ++ ys) = pick f a xs ++ pick f (stop a xs) ys := by
  induction xs generalizing a with
  | nil => rfl
  | cons b xs ih =>
    rw [List.cons_append, pick, pick, ih]
    split <;> rfl

theorem le_stop (a : ℕ) (bs : List Blk) : a ≤ stop a bs := by
  induction bs generalizing a with
  | nil => exact le_refl a
  | cons b bs ih => exact le_trans (by omega) (ih _)

theorem seg_append : Seg m p a (xs ++ ys)
    ↔ Seg m p a xs ∧ Seg m (lastFree p xs) (stop a xs) ys := by
  induction xs generalizing p a with
  | nil => exact (and_iff_right trivial).symm
  | cons b xs ih =>
    rw [List.cons_append, Seg, Seg, ih]
    exact ⟨fun ⟨h₁, h₂, h₃, h₄, h₅⟩ => ⟨⟨h₁, h₂, h₃, h₄⟩, h₅⟩,
      fun ⟨⟨h₁, h₂, h₃, h₄⟩, h₅⟩ => ⟨h₁, h₂, h₃, h₄, h₅⟩⟩

theorem row_append : Row m p a (xs ++ ys)
    ↔ Seg m p a xs ∧ Row m (lastFree p xs) (stop a xs) ys := by
  unfold Row
  rw [seg_append, stop_append, lastFree_append, and_assoc]

theorem row_cons : Row m p a (b :: bs) ↔ m.word (a + 8) = tag b.size b.free p
    ∧ (24 ≤ b.size ∧ b.size % 8 = 0) ∧ (b.free = true → m.word (a + 8 + b.size) = a)
    ∧ Row m b.free (a + 8 + b.size) bs := by
  unfold Row
  rw [Seg]
  exact ⟨fun ⟨⟨h₁, h₂, h₃, h₄⟩, h₅⟩ => ⟨h₁, h₂, h₃, h₄, h₅⟩,
    fun ⟨h₁, h₂, h₃, h₄, h₅⟩ => ⟨⟨h₁, h₂, h₃, h₄⟩, h₅⟩⟩

/-! ## What a row depends on -/

theorem rowWord_bounds (h : RowWord a bs x) : a + 8 ≤ x ∧ x ≤ stop a bs + 8 := by
  induction bs generalizing a with
  | nil => exact ⟨le_of_eq h.symm, le_of_eq h⟩
  | cons b bs ih =>
    have hle := le_stop (a + 8 + b.size) bs
    rcases h with rfl | ⟨-, rfl⟩ | h
    · exact ⟨le_refl _, show a + 8 ≤ stop (a + 8 + b.size) bs + 8 by omega⟩
    · exact ⟨by omega, show a + 8 + b.size ≤ stop (a + 8 + b.size) bs + 8 by omega⟩
    · have := ih h
      exact ⟨by omega, this.2⟩

theorem Row.congr (h : Row m p a bs) (hm : ∀ x, RowWord a bs x → m'.word x = m.word x) :
    Row m' p a bs := by
  induction bs generalizing p a with
  | nil => exact ⟨trivial, (hm _ rfl).trans h.2⟩
  | cons b bs ih =>
    obtain ⟨hword, hsize, hlink, hrest⟩ := row_cons.mp h
    refine row_cons.mpr ⟨(hm _ (Or.inl rfl)).trans hword, hsize, fun hfree => ?_,
      ih hrest fun x hx => hm x (Or.inr (Or.inr hx))⟩
    exact (hm _ (Or.inr (Or.inl ⟨hfree, rfl⟩))).trans (hlink hfree)

theorem Seg.congr (h : Seg m p a bs) (hm : ∀ x, x ≤ stop a bs → m'.word x = m.word x) :
    Seg m' p a bs := by
  induction bs generalizing p a with
  | nil => trivial
  | cons b bs ih =>
    obtain ⟨hword, hsize, hlink, hrest⟩ := h
    have hle := le_stop (a + 8 + b.size) bs
    change ∀ x, x ≤ stop (a + 8 + b.size) bs → _ at hm
    exact ⟨(hm _ (by omega)).trans hword, hsize, fun hfree => (hm _ hle).trans (hlink hfree),
      ih hrest hm⟩

theorem rowWord_append : RowWord a (xs ++ ys) x
    ↔ RowWord (stop a xs) ys x ∨ RowWord a xs x ∧ x ≤ stop a xs := by
  induction xs generalizing a with
  | nil =>
    refine ⟨Or.inl, fun h => h.elim id fun h => ?_⟩
    have h₁ : x = a + 8 := h.1
    have h₂ : x ≤ a := h.2
    omega
  | cons b xs ih =>
    have hle := le_stop (a + 8 + b.size) xs
    change x = a + 8 ∨ b.free = true ∧ x = a + 8 + b.size ∨ RowWord (a + 8 + b.size) (xs ++ ys) x
      ↔ RowWord (stop (a + 8 + b.size) xs) ys x ∨ (x = a + 8 ∨ b.free = true ∧ x = a + 8 + b.size
        ∨ RowWord (a + 8 + b.size) xs x) ∧ x ≤ stop (a + 8 + b.size) xs
    rw [ih]
    constructor
    · rintro (rfl | ⟨hf, rfl⟩ | h | h)
      · exact Or.inr ⟨Or.inl rfl, by omega⟩
      · exact Or.inr ⟨Or.inr (Or.inl ⟨hf, rfl⟩), hle⟩
      · exact Or.inl h
      · exact Or.inr ⟨Or.inr (Or.inr h.1), h.2⟩
    · rintro (h | ⟨rfl | h | h, hx⟩)
      · exact Or.inr (Or.inr (Or.inl h))
      · exact Or.inl rfl
      · exact Or.inr (Or.inl h)
      · exact Or.inr (Or.inr (Or.inr ⟨h, hx⟩))

end

/-! ## The places of the blocks -/

section
variable {m : Mem} {p f g : Bool} {a x y z n k : ℕ} {b : Blk} {bs xs ys : List Blk}

theorem mem_pick : (y, n) ∈ pick f a bs
    ↔ ∃ xs ys, bs = xs ++ ⟨n, f⟩ :: ys ∧ stop a xs = y := by
  induction bs generalizing a with
  | nil =>
    refine ⟨fun h => absurd h List.not_mem_nil, ?_⟩
    rintro ⟨xs, ys, heq, -⟩
    exact absurd heq (by simp)
  | cons b bs ih =>
    have hrest : (y, n) ∈ pick f (a + 8 + b.size) bs
        ↔ ∃ xs ys, b :: bs = (b :: xs) ++ ⟨n, f⟩ :: ys ∧ stop a (b :: xs) = y := by
      rw [ih]
      refine exists_congr fun xs => exists_congr fun ys => and_congr_left' ?_
      rw [List.cons_append, List.cons_inj_right]
    rw [pick]
    constructor
    · intro h
      split at h
      · next hf =>
        rcases List.mem_cons.mp h with heq | h
        · obtain ⟨rfl, rfl⟩ := Prod.mk.inj heq
          exact ⟨[], bs, by rw [← hf]; rfl, rfl⟩
        · obtain ⟨xs, ys, hbs, hy⟩ := hrest.mp h
          exact ⟨b :: xs, ys, hbs, hy⟩
      · obtain ⟨xs, ys, hbs, hy⟩ := hrest.mp h
        exact ⟨b :: xs, ys, hbs, hy⟩
    · rintro ⟨xs, ys, hbs, hy⟩
      cases xs with
      | nil =>
        obtain ⟨rfl, rfl⟩ := List.cons.inj hbs
        obtain rfl : a = y := hy
        rw [if_pos rfl]
        exact List.mem_cons_self
      | cons d xs =>
        obtain rfl : b = d := (List.cons.inj hbs).1
        have h := hrest.mpr ⟨xs, ys, hbs, hy⟩
        split
        · exact List.mem_cons_of_mem _ h
        · exact h

theorem pick_bounds (h : (y, n) ∈ pick f a bs) : a ≤ y ∧ y + 8 + n ≤ stop a bs := by
  obtain ⟨xs, ys, rfl, rfl⟩ := mem_pick.mp h
  rw [stop_append]
  exact ⟨le_stop a xs, le_stop (stop a xs + 8 + n) ys⟩

theorem Row.good (hrow : Row m p a bs) (h : (y, n) ∈ pick f a bs) : 24 ≤ n ∧ n % 8 = 0 := by
  obtain ⟨xs, ys, rfl, rfl⟩ := mem_pick.mp h
  exact (row_cons.mp (row_append.mp hrow).2).2.1

theorem Row.header (hrow : Row m p a bs) (h : (y, n) ∈ pick f a bs) :
    ∃ q, m.word (y + 8) = tag n f q := by
  obtain ⟨xs, ys, rfl, rfl⟩ := mem_pick.mp h
  exact ⟨_, (row_cons.mp (row_append.mp hrow).2).1⟩

theorem pick_apart (h : (y, n) ∈ pick f a bs) (h' : (z, k) ∈ pick g a bs) :
    (y = z ∧ n = k ∧ f = g) ∨ y + 8 + n ≤ z ∨ z + 8 + k ≤ y := by
  induction bs generalizing a with
  | nil => exact absurd h List.not_mem_nil
  | cons b bs ih =>
    rw [pick] at h h'
    have hcases {f : Bool} {y n : ℕ} (h : (y, n) ∈ if b.free = f then
        (a, b.size) :: pick f (a + 8 + b.size) bs else pick f (a + 8 + b.size) bs) :
        (b.free = f ∧ y = a ∧ n = b.size) ∨ (y, n) ∈ pick f (a + 8 + b.size) bs := by
      split at h
      · next hf =>
        rcases List.mem_cons.mp h with heq | h
        · exact Or.inl ⟨hf, congrArg Prod.fst heq, congrArg Prod.snd heq⟩
        · exact Or.inr h
      · exact Or.inr h
    rcases hcases h with ⟨rfl, rfl, rfl⟩ | hin <;> rcases hcases h' with ⟨rfl, rfl, rfl⟩ | hin'
    · exact Or.inl ⟨rfl, rfl, rfl⟩
    · have := (pick_bounds hin').1
      omega
    · have := (pick_bounds hin).1
      omega
    · exact ih hin hin'

theorem rowWord_apart (h : (y, n) ∈ pick f a bs) (hx : RowWord a bs x) :
    x ≤ y + 8 ∨ f = true ∧ x = y + 8 + n ∨ y + 16 + n ≤ x := by
  obtain ⟨xs, ys, rfl, rfl⟩ := mem_pick.mp h
  rcases rowWord_append.mp hx with hx | ⟨-, hle⟩
  · rcases hx with rfl | hx | hx
    · exact Or.inl (le_refl _)
    · exact Or.inr (Or.inl hx)
    · have := (rowWord_bounds hx).1
      change stop a xs + 8 + n + 8 ≤ x at this
      omega
  · omega

theorem rowWord_not_payload (hx : RowWord a bs x) : ¬ Payload a bs x := by
  rintro ⟨y, n, hmem, hlo, hhi⟩
  rcases rowWord_apart hmem hx with h | ⟨hf, -⟩ | h
  · omega
  · cases hf
  · omega

theorem free_not_payload (h : (y, n) ∈ pick true a bs) (hlo : y + 8 ≤ x) (hhi : x < y + 16 + n) :
    ¬ Payload a bs x := by
  rintro ⟨z, k, hmem, hlo', hhi'⟩
  rcases pick_apart h hmem with ⟨-, -, hf⟩ | h | h
  · cases hf
  · omega
  · omega

theorem payload_append : Payload a (xs ++ ys) x ↔ Payload a xs x ∨ Payload (stop a xs) ys x := by
  unfold Payload
  rw [pick_append]
  constructor
  · rintro ⟨y, n, hmem, h⟩
    exact (List.mem_append.mp hmem).imp (fun hmem => ⟨y, n, hmem, h⟩) fun hmem => ⟨y, n, hmem, h⟩
  · rintro (⟨y, n, hmem, h⟩ | ⟨y, n, hmem, h⟩)
    · exact ⟨y, n, List.mem_append_left _ hmem, h⟩
    · exact ⟨y, n, List.mem_append_right _ hmem, h⟩

theorem payload_cons : Payload a (⟨n, f⟩ :: bs) x
    ↔ (f = false ∧ a + 16 ≤ x ∧ x < a + 16 + n) ∨ Payload (a + 8 + n) bs x := by
  unfold Payload
  rw [pick]
  cases f with
  | true => exact (or_iff_right (by simp)).symm
  | false =>
    rw [if_pos rfl]
    constructor
    · rintro ⟨y, k, hmem, h⟩
      rcases List.mem_cons.mp hmem with heq | hmem
      · obtain ⟨rfl, rfl⟩ := Prod.mk.inj heq
        exact Or.inl ⟨rfl, h⟩
      · exact Or.inr ⟨y, k, hmem, h⟩
    · rintro (⟨-, h⟩ | ⟨y, k, hmem, h⟩)
      · exact ⟨a, n, List.mem_cons_self, h⟩
      · exact ⟨y, k, List.mem_cons_of_mem _ hmem, h⟩

/-- The rows end at one place, and what is used in the first is used in the second. -/
structure Fewer (a : ℕ) (bs bs' : List Blk) : Prop where
  stop : TlsfRows.stop a bs' = TlsfRows.stop a bs
  payload : ∀ x, Payload a bs x → Payload a bs' x

theorem Fewer.refl (a : ℕ) (bs : List Blk) : Fewer a bs bs := ⟨rfl, fun _ h => h⟩

theorem Fewer.trans {as cs : List Blk} (h : Fewer a as bs) (h' : Fewer a bs cs) : Fewer a as cs :=
  ⟨h'.stop.trans h.stop, fun x hx => h'.payload x (h.payload x hx)⟩

end

end Vmir.TlsfRows
