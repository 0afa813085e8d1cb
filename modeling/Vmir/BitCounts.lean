import Mathlib.Data.BitVec
import Mathlib.Data.List.Range

set_option autoImplicit false

/-!
# Counting the bits of a word

The counts of trailing zeros, leading zeros and set bits as scans over the bits of the word, and
the operations of `BitVec` that compute them.
-/
namespace Vmir.BitCounts

variable {w : ℕ}

def trailingZeros (x : BitVec w) : ℕ :=
  ((List.range w).takeWhile fun i => !x.getLsbD i).length

def leadingZeros (x : BitVec w) : ℕ :=
  ((List.range w).takeWhile fun i => !x.getMsbD i).length

def population (x : BitVec w) : ℕ :=
  (List.range w).countP fun i => x.getLsbD i

theorem takeWhile_range_length (p : ℕ → Bool) (w n : ℕ) (hle : n ≤ w) (hbelow : ∀ i, i < n → p i)
    (hat : n < w → p n = false) : ((List.range w).takeWhile p).length = n := by
  induction w generalizing n p with
  | zero =>
    have hzero : n = 0 := by omega
    rw [hzero]
    rfl
  | succ w ih =>
    rw [List.range_succ_eq_map]
    cases n with
    | zero =>
      rw [List.takeWhile_cons_of_neg (by simp [hat (by omega)])]
      rfl
    | succ n =>
      rw [List.takeWhile_cons_of_pos (hbelow 0 (by omega)), List.takeWhile_map, List.length_cons,
        List.length_map]
      have hrest : ((List.range w).takeWhile (p ∘ Nat.succ)).length = n := by
        apply ih
        · omega
        · intro i hi
          exact hbelow (i + 1) (by omega)
        · intro h
          exact hat (by omega)
      rw [hrest]

theorem natCast_width_toNat : ((w : BitVec w)).toNat = w := by
  simp

theorem ctz_toNat_le (x : BitVec w) : x.ctz.toNat ≤ w := by
  have hle : x.ctz ≤ (w : BitVec w) := by
    rw [BitVec.ctz_eq_reverse_clz]
    exact BitVec.clz_le
  rw [BitVec.le_def, natCast_width_toNat] at hle
  exact hle

theorem trailingZeros_eq_ctz (x : BitVec w) : trailingZeros x = x.ctz.toNat := by
  apply takeWhile_range_length
  · exact ctz_toNat_le x
  · intro i hi
    simp [BitVec.getLsbD_false_of_lt_ctz hi]
  · intro hlt
    have hne : x ≠ 0 := by
      apply BitVec.ctz_lt_iff_ne_zero.mp
      rw [BitVec.lt_def, natCast_width_toNat]
      exact hlt
    simp [BitVec.getLsbD_true_ctz_of_ne_zero hne]

theorem leadingZeros_eq_trailingZeros_reverse (x : BitVec w) :
    leadingZeros x = trailingZeros x.reverse := by
  unfold leadingZeros trailingZeros
  congr 2
  funext i
  rw [BitVec.getLsbD_reverse]

theorem leadingZeros_eq_clz (x : BitVec w) : leadingZeros x = x.clz.toNat := by
  rw [leadingZeros_eq_trailingZeros_reverse, trailingZeros_eq_ctz, BitVec.ctz_eq_reverse_clz,
    BitVec.reverse_reverse_eq]

theorem countP_range_eq_cpopNatRec (x : BitVec w) (n : ℕ) :
    (List.range n).countP (fun i => x.getLsbD i) = x.cpopNatRec n 0 := by
  induction n with
  | zero => rfl
  | succ n ih =>
    rw [List.range_succ, List.countP_append, ih, BitVec.cpopNatRec_succ,
      BitVec.cpopNatRec_eq (0 + (x.getLsbD n).toNat)]
    cases h : x.getLsbD n <;> simp [h]

theorem population_eq_cpop (x : BitVec w) : population x = x.cpop.toNat := by
  rw [BitVec.toNat_cpop]
  exact countP_range_eq_cpopNatRec x w

end Vmir.BitCounts
