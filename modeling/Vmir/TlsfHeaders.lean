import Vmir.Tlsf

set_option autoImplicit false

/-!
# Headers of TLSF blocks

The size word of a block has the size, a multiple of 4, and in the two low bits whether the block and
the block before it are free.
-/
namespace Vmir.TlsfHeaders
open Tlsf

def tag (n : ℕ) (free prevFree : Bool) : ℕ := n + free.toNat + 2 * prevFree.toNat

/-! ## The two low bits -/

theorem and_split (x y : ℕ) : x &&& y = 4 * (x / 4 &&& y / 4) + (x % 4 &&& y % 4) := by
  have hdiv := Nat.and_div_two_pow (a := x) (b := y) (n := 2)
  have hmod := Nat.and_mod_two_pow (a := x) (b := y) (n := 2)
  rw [show 2 ^ 2 = 4 from rfl] at hdiv hmod
  rw [← hdiv, ← hmod]
  exact (Nat.div_add_mod _ 4).symm

theorem or_split (x y : ℕ) : x ||| y = 4 * (x / 4 ||| y / 4) + (x % 4 ||| y % 4) := by
  have hdiv := Nat.or_div_two_pow (a := x) (b := y) (n := 2)
  have hmod := Nat.or_mod_two_pow (a := x) (b := y) (n := 2)
  rw [show 2 ^ 2 = 4 from rfl] at hdiv hmod
  rw [← hdiv, ← hmod]
  exact (Nat.div_add_mod _ 4).symm

theorem and_lnot {x : ℕ} (hx : x < 2 ^ 64) (c : ℕ) (hc : c < 4) :
    x &&& lnot c = 4 * (x / 4) + (x % 4 &&& (3 - c)) := by
  rw [and_split]
  have hlow : lnot c % 4 = 3 - c := by
    unfold lnot
    omega
  have hhigh : lnot c / 4 = 2 ^ 62 - 1 := by
    unfold lnot
    omega
  rw [hlow, hhigh, Nat.and_two_pow_sub_one_eq_mod, Nat.mod_eq_of_lt (by omega)]

theorem and_low (x c : ℕ) (hc : c < 4) : x &&& c = x % 4 &&& c := by
  rw [and_split, Nat.div_eq_of_lt hc, Nat.mod_eq_of_lt hc, Nat.and_zero, Nat.mul_zero, Nat.zero_add]

theorem or_low (x c : ℕ) (hc : c < 4) : x ||| c = 4 * (x / 4) + (x % 4 ||| c) := by
  rw [or_split, Nat.div_eq_of_lt hc, Nat.mod_eq_of_lt hc, Nat.or_zero]

section
variable {n : ℕ} {f p : Bool}

theorem tag_mod (h4 : n % 4 = 0) : tag n f p % 4 = f.toNat + 2 * p.toNat := by
  have hf := Bool.toNat_lt f
  have hp := Bool.toNat_lt p
  unfold tag
  omega

theorem tag_div (h4 : n % 4 = 0) : 4 * (tag n f p / 4) = n := by
  have hf := Bool.toNat_lt f
  have hp := Bool.toNat_lt p
  unfold tag
  omega

theorem tag_lt (h4 : n % 4 = 0) (hn : n < 2 ^ 64) : tag n f p < 2 ^ 64 := by
  have hf := Bool.toNat_lt f
  have hp := Bool.toNat_lt p
  unfold tag
  omega

theorem tag_size (h4 : n % 4 = 0) (hn : n < 2 ^ 64) : tag n f p &&& lnot (1 ||| 2) = n := by
  rw [and_lnot (tag_lt h4 hn) (1 ||| 2) (by decide), tag_div h4]
  exact congrArg (n + ·) (Nat.and_zero _)

theorem tag_free (h4 : n % 4 = 0) : tag n f p &&& 1 ≠ 0 ↔ f = true := by
  rw [and_low _ 1 (by decide), tag_mod h4]
  cases f <;> cases p <;> decide

theorem tag_prevFree (h4 : n % 4 = 0) : tag n f p &&& 2 ≠ 0 ↔ p = true := by
  rw [and_low _ 2 (by decide), tag_mod h4]
  cases f <;> cases p <;> decide

theorem tag_setFree (h4 : n % 4 = 0) : tag n f p ||| 1 = tag n true p := by
  rw [or_low _ 1 (by decide), tag_mod h4, tag_div h4, tag, Nat.add_assoc]
  cases f <;> cases p <;> rfl

theorem tag_setPrevFree (h4 : n % 4 = 0) : tag n f p ||| 2 = tag n f true := by
  rw [or_low _ 2 (by decide), tag_mod h4, tag_div h4, tag, Nat.add_assoc]
  cases f <;> cases p <;> rfl

theorem tag_setUsed (h4 : n % 4 = 0) (hn : n < 2 ^ 64) : tag n f p &&& lnot 1 = tag n false p := by
  rw [and_lnot (tag_lt h4 hn) 1 (by decide), tag_mod h4, tag_div h4, tag, Nat.add_assoc]
  cases f <;> cases p <;> rfl

theorem tag_setPrevUsed (h4 : n % 4 = 0) (hn : n < 2 ^ 64) :
    tag n f p &&& lnot 2 = tag n f false := by
  rw [and_lnot (tag_lt h4 hn) 2 (by decide), tag_mod h4, tag_div h4, tag, Nat.add_assoc]
  cases f <;> cases p <;> rfl

theorem tag_add (m : ℕ) : tag n f p + m = tag (n + m) f p := by
  unfold tag
  omega

end

theorem exists_flags (w : ℕ) : ∃ f p : Bool, w &&& (1 ||| 2) = f.toNat + 2 * p.toNat := by
  have hlow : w &&& (1 ||| 2) < 4 := by
    have := Nat.and_le_right (n := w) (m := 1 ||| 2)
    change _ ≤ 3 at this
    omega
  generalize w &&& (1 ||| 2) = r at hlow
  have hr : ∀ r < 4, ∃ f p : Bool, r = f.toNat + 2 * p.toNat := by decide
  exact hr r hlow

theorem or_flags {n : ℕ} (h4 : n % 4 = 0) (f p : Bool) :
    n ||| (f.toNat + 2 * p.toNat) = tag n f p := by
  have hdiv : 4 * (n / 4) = n := by omega
  have hlt : f.toNat + 2 * p.toNat < 4 := by cases f <;> cases p <;> decide
  rw [or_low _ _ hlt, h4, Nat.zero_or, hdiv, tag, Nat.add_assoc]

/-! ## The functions on headers -/

theorem ok_bind {α β : Type} (a : α) (f : α → Except Fault β) : (Except.ok a >>= f) = f a := rfl

theorem tlsfAssert_ok {p : Prop} [Decidable p] (h : p) : tlsfAssert p = .ok () := if_pos h

theorem alignUp_eq {x : ℕ} (hx : x + 7 < 2 ^ 64) : alignUp x 8 = .ok ((x + 7) / 8 * 8) := by
  have hdiv := Nat.and_div_two_pow (a := x + 7) (b := lnot 7) (n := 3)
  have hmod := Nat.and_mod_two_pow (a := x + 7) (b := lnot 7) (n := 3)
  have hlow : lnot 7 % 2 ^ 3 = 0 := by decide
  have hhigh : lnot 7 / 2 ^ 3 = 2 ^ 61 - 1 := by decide
  rw [hhigh, Nat.and_two_pow_sub_one_eq_mod, Nat.mod_eq_of_lt (by omega)] at hdiv
  rw [hlow, Nat.and_zero] at hmod
  unfold alignUp
  rw [tlsfAssert_ok (by decide), ok_bind]
  change Except.ok ((x + 7) &&& lnot 7) = _
  congr 1
  omega

theorem assertAligned_ok {b : ℕ} (h8 : b % 8 = 0) (hb : b + 32 ≤ 2 ^ 64) :
    assertAligned b = .ok () := by
  unfold assertAligned blockToPtr
  rw [alignUp_eq (by omega), ok_bind, tlsfAssert_ok (by omega)]

@[simp] theorem word_write_same (m : Mem) (a v : ℕ) : (m.write a v).word a = v :=
  Function.update_self ..

theorem word_write_ne {m : Mem} {a b v : ℕ} (h : b ≠ a) : (m.write a v).word b = m.word b :=
  Function.update_of_ne h ..

def Headed (m : Mem) (block n : ℕ) (f p : Bool) : Prop :=
  m.word (block + 8) = tag n f p ∧ n % 4 = 0 ∧ n < 2 ^ 64

section
variable {m : Mem} {b n : ℕ} {f p : Bool} (h : Headed m b n f p)

include h

theorem Headed.size : blockSize m b = n := by
  rw [blockSize, h.1]
  exact tag_size h.2.1 h.2.2

theorem Headed.isFree : blockIsFree m b ↔ f = true := by
  rw [blockIsFree, h.1]
  exact tag_free h.2.1

theorem Headed.isPrevFree : blockIsPrevFree m b ↔ p = true := by
  rw [blockIsPrevFree, h.1]
  exact tag_prevFree h.2.1

theorem Headed.setFree : blockSetFree m b = m.write (b + 8) (tag n true p) := by
  rw [blockSetFree, h.1, tag_setFree h.2.1]

theorem Headed.setUsed : blockSetUsed m b = m.write (b + 8) (tag n false p) := by
  rw [blockSetUsed, h.1, tag_setUsed h.2.1 h.2.2]

theorem Headed.setPrevFree : blockSetPrevFree m b = m.write (b + 8) (tag n f true) := by
  rw [blockSetPrevFree, h.1, tag_setPrevFree h.2.1]

theorem Headed.setPrevUsed : blockSetPrevUsed m b = m.write (b + 8) (tag n f false) := by
  rw [blockSetPrevUsed, h.1, tag_setPrevUsed h.2.1 h.2.2]

theorem Headed.setSize {k : ℕ} (hk : k % 4 = 0) :
    blockSetSize m b k = m.write (b + 8) (tag k f p) := by
  have hlow : m.word (b + 8) &&& (1 ||| 2) = f.toNat + 2 * p.toNat := by
    rw [and_low _ _ (by decide), h.1, tag_mod h.2.1]
    cases f <;> cases p <;> rfl
  rw [blockSetSize, hlow, or_flags hk]

theorem Headed.next (hpos : 0 < n) : blockNext m b = .ok (b + 8 + n) := by
  have hlast : ¬ blockIsLast m b := by
    rw [blockIsLast, h.size]
    omega
  unfold blockNext blockBehind blockToPtr blockHeaderOverhead tlsfAssert
  rw [if_pos hlast, h.size]
  change Except.ok _ = _
  rw [show b + 16 + n - 8 = b + 8 + n by omega]

end

theorem exists_setSize (m : Mem) (b : ℕ) {k : ℕ} (hk : k % 4 = 0) :
    ∃ f p, blockSetSize m b k = m.write (b + 8) (tag k f p) := by
  obtain ⟨f, p, hflags⟩ := exists_flags (m.word (b + 8))
  exact ⟨f, p, by rw [blockSetSize, hflags, or_flags hk]⟩

theorem headed_write (m : Mem) (b : ℕ) {n : ℕ} (h4 : n % 4 = 0) (hn : n < 2 ^ 64) (f p : Bool) :
    Headed (m.write (b + 8) (tag n f p)) b n f p := ⟨word_write_same .., h4, hn⟩

theorem Headed.write {m : Mem} {b n : ℕ} {f p : Bool} (h : Headed m b n f p) {a v : ℕ}
    (hne : b + 8 ≠ a) : Headed (m.write a v) b n f p := ⟨(word_write_ne hne).trans h.1, h.2⟩

end Vmir.TlsfHeaders
