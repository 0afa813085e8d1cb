import Mathlib.Data.Int.Notation
import Mathlib.Logic.Basic
import Mathlib.Tactic.Ring.RingNF

set_option autoImplicit false

/-!
# Byte stores

A store of bytes at integer addresses, and little-endian numbers of `n` bytes in it.
-/
namespace Vmir.ByteStore

abbrev Bytes := ℤ → BitVec 8

/-- The number in the `n` bytes from `a` on, least significant first. -/
def readLe (m : Bytes) (a : ℤ) : ℕ → ℕ
  | 0 => 0
  | n + 1 => (m a).toNat + 256 * readLe m (a + 1) n

/-- The `n` bytes from `a` on replaced by the low bytes of `v`. -/
def writeLe (m : Bytes) (a : ℤ) (n v : ℕ) : Bytes := fun x =>
  if a ≤ x ∧ x < a + n then BitVec.ofNat 8 (v / 256 ^ (x - a).toNat) else m x

theorem readLe_congr {m m' : Bytes} {a : ℤ} {n : ℕ}
    (h : ∀ x, a ≤ x → x < a + n → m x = m' x) : readLe m a n = readLe m' a n := by
  induction n generalizing a with
  | zero => rfl
  | succ n ih =>
    have htail := ih (a := a + 1) fun x h1 h2 => h x (by omega) (by push_cast; omega)
    rw [readLe, readLe, htail, h a le_rfl (by push_cast; omega)]

theorem writeLe_of_not_mem {m : Bytes} {a : ℤ} {n v : ℕ} {x : ℤ} (h : x < a ∨ a + n ≤ x) :
    writeLe m a n v x = m x := by
  unfold writeLe
  rw [if_neg]
  omega

theorem writeLe_of_mem {m : Bytes} {a : ℤ} {n v : ℕ} {x : ℤ} (h1 : a ≤ x) (h2 : x < a + n) :
    writeLe m a n v x = BitVec.ofNat 8 (v / 256 ^ (x - a).toNat) :=
  if_pos ⟨h1, h2⟩

theorem readLe_writeLe_disjoint {m : Bytes} {a b : ℤ} {k n v : ℕ} (h : b + k ≤ a ∨ a + n ≤ b) :
    readLe (writeLe m a n v) b k = readLe m b k :=
  readLe_congr fun _ h1 h2 => writeLe_of_not_mem (by omega)

theorem readLe_byteStream {m : Bytes} {a : ℤ} {n v : ℕ}
    (h : ∀ i : ℕ, i < n → m (a + i) = BitVec.ofNat 8 (v / 256 ^ i)) :
    readLe m a n = v % 256 ^ n := by
  induction n generalizing a v with
  | zero => simp [readLe, Nat.mod_one]
  | succ n ih =>
    have htail : readLe m (a + 1) n = v / 256 % 256 ^ n := ih fun i hi => by
      have := h (i + 1) (by omega)
      rw [pow_succ', ← Nat.div_div_eq_div_mul] at this
      rw [← this]
      congr 1
      push_cast
      ring
    have hhead : (m a).toNat = v % 256 := by
      have := h 0 (by omega)
      simp only [Nat.cast_zero, add_zero, pow_zero, Nat.div_one] at this
      rw [this, BitVec.toNat_ofNat]
    rw [readLe, htail, hhead, pow_succ', Nat.mod_mul]

theorem readLe_writeLe_same (m : Bytes) (a : ℤ) (n v : ℕ) :
    readLe (writeLe m a n v) a n = v % 256 ^ n := by
  refine readLe_byteStream fun i hi => ?_
  rw [writeLe_of_mem (by omega) (by omega), show (a + i - a).toNat = i by omega]

theorem readLe_inj {m m' : Bytes} {a : ℤ} {n : ℕ} (h : readLe m a n = readLe m' a n) :
    ∀ x, a ≤ x → x < a + n → m x = m' x := by
  induction n generalizing a with
  | zero => intro x h1 h2; push_cast at h2; omega
  | succ n ih =>
    rw [readLe, readLe] at h
    have hm := (m a).isLt
    have hm' := (m' a).isLt
    have hhead : m a = m' a := BitVec.eq_of_toNat_eq (by omega)
    have htail := @ih (a + 1) (by omega)
    intro x h1 h2
    rcases eq_or_lt_of_le h1 with rfl | h1
    · exact hhead
    · exact htail x (by omega) (by push_cast at h2; omega)

theorem writeLe_mod (m : Bytes) (a : ℤ) {n k : ℕ} (h : n ≤ k) (v : ℕ) :
    writeLe m a n (v % 256 ^ k) = writeLe m a n v := by
  funext x
  unfold writeLe
  split
  case isTrue hx =>
    obtain ⟨i, hi⟩ : ∃ i, (x - a).toNat = i := ⟨_, rfl⟩
    obtain ⟨j, rfl⟩ := Nat.exists_eq_add_of_le (show i + 1 ≤ k by omega)
    rw [hi]
    apply BitVec.eq_of_toNat_eq
    rw [BitVec.toNat_ofNat, BitVec.toNat_ofNat, pow_add, pow_succ, mul_assoc,
      Nat.mod_mul_right_div_self, Nat.mod_mul_right_mod]
  case isFalse => rfl

theorem readLe_lt (m : Bytes) (a : ℤ) (n : ℕ) : readLe m a n < 256 ^ n := by
  induction n generalizing a with
  | zero => exact Nat.one_pos
  | succ n ih =>
    have h1 := (m a).isLt
    have h2 := ih (a + 1)
    rw [readLe, pow_succ']
    omega

theorem readLe_mod (m : Bytes) (a : ℤ) {k n : ℕ} (h : k ≤ n) :
    readLe m a n % 256 ^ k = readLe m a k := by
  induction k generalizing a n with
  | zero => simp [readLe, Nat.mod_one]
  | succ k ih =>
    obtain ⟨n, rfl⟩ := Nat.exists_eq_add_of_le' (show 1 ≤ n by omega)
    have htail := ih (a + 1) (n := n) (by omega)
    have h1 := (m a).isLt
    rw [readLe, readLe, pow_succ', Nat.mod_mul, Nat.add_mul_mod_self_left, Nat.mod_eq_of_lt h1,
      Nat.add_mul_div_left _ _ (by omega), Nat.div_eq_of_lt h1, Nat.zero_add, htail]

def read32 (m : Bytes) (a : ℤ) : BitVec 32 := BitVec.ofNat 32 (readLe m a 4)
def read64 (m : Bytes) (a : ℤ) : BitVec 64 := BitVec.ofNat 64 (readLe m a 8)
def write32 (m : Bytes) (a : ℤ) (v : BitVec 32) : Bytes := writeLe m a 4 v.toNat
def write64 (m : Bytes) (a : ℤ) (v : BitVec 64) : Bytes := writeLe m a 8 v.toNat

theorem read32_write32_same (m : Bytes) (a : ℤ) (v : BitVec 32) :
    read32 (write32 m a v) a = v := by
  unfold read32 write32
  rw [readLe_writeLe_same, Nat.mod_eq_of_lt (show v.toNat < 256 ^ 4 from v.isLt), BitVec.ofNat_toNat,
    BitVec.setWidth_eq]

theorem read64_write64_same (m : Bytes) (a : ℤ) (v : BitVec 64) :
    read64 (write64 m a v) a = v := by
  unfold read64 write64
  rw [readLe_writeLe_same, Nat.mod_eq_of_lt (show v.toNat < 256 ^ 8 from v.isLt), BitVec.ofNat_toNat,
    BitVec.setWidth_eq]

theorem read32_writeLe_disjoint {m : Bytes} {a b : ℤ} {n v : ℕ} (h : b + 4 ≤ a ∨ a + n ≤ b) :
    read32 (writeLe m a n v) b = read32 m b := by
  unfold read32
  rw [readLe_writeLe_disjoint (by push_cast; exact h)]

theorem read64_writeLe_disjoint {m : Bytes} {a b : ℤ} {n v : ℕ} (h : b + 8 ≤ a ∨ a + n ≤ b) :
    read64 (writeLe m a n v) b = read64 m b := by
  unfold read64
  rw [readLe_writeLe_disjoint (by push_cast; exact h)]

theorem writeLe_read32 (m f : Bytes) (a b : ℤ) {n : ℕ} (h : n ≤ 4) :
    writeLe m a n (read32 f b).toNat = writeLe m a n (readLe f b n) := by
  have hword : (read32 f b).toNat = readLe f b 4 := Nat.mod_eq_of_lt (readLe_lt f b 4)
  rw [hword, ← readLe_mod f b h, writeLe_mod m a (le_refl n)]

theorem writeLe_read64 (m f : Bytes) (a b : ℤ) {n : ℕ} (h : n ≤ 8) :
    writeLe m a n (read64 f b).toNat = writeLe m a n (readLe f b n) := by
  have hword : (read64 f b).toNat = readLe f b 8 := Nat.mod_eq_of_lt (readLe_lt f b 8)
  rw [hword, ← readLe_mod f b h, writeLe_mod m a (le_refl n)]

theorem read64_setWidth (m : Bytes) (a : ℤ) : (read64 m a).setWidth 32 = read32 m a := by
  apply BitVec.eq_of_toNat_eq
  have h8 := readLe_lt m a 8
  have h4 := readLe_lt m a 4
  have := readLe_mod m a (show 4 ≤ 8 by omega)
  simp only [read64, read32, BitVec.toNat_setWidth, BitVec.toNat_ofNat]
  omega

end Vmir.ByteStore
