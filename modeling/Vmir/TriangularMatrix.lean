import Vmir.TriangularPairs
import Vmir.FirstFitHeap

set_option autoImplicit false

/-!
# The interference matrix

`tribitmtx_alloc` and `tribitmtx_pos` of `vmir_transform.c`, and the bits that `reg_alloc` looks at.
All of it is computed in `int`.
-/
namespace Vmir.TriangularMatrix
open TriangularPairs FirstFitHeap

/-- `(n * n + n) / 2` -/
def triangle (n : ℤ) : ℤ := (toInt (toInt (n * n) + n)).tdiv 2

/-- The number of words that `tribitmtx_alloc` gets: none for a null pointer, which is what `calloc`
returns for a negative number of words. -/
def tribitmtxAlloc (size : ℤ) : ℕ :=
  if size = 0 then 0
  else
    let size := toInt (size - 1)
    let bits := toInt (toInt (triangle size + size) + 1)
    let words := (toInt (bits + 31)).tdiv 32
    words.toNat

def tribitmtxPos (x y : ℤ) : ℤ :=
  let (x, y) := if x > y then (y, x) else (x, y)
  toInt (triangle y + x)

/-- The neighbours that `reg_alloc` asks for, each with its bit: those below `valIndex` and then the
others. -/
def regAllocScan (tempValues valIndex : ℕ) : List (ℕ × ℤ) :=
  let vivi := triangle valIndex
  ((List.range valIndex).map fun x : ℕ => (x, toInt (vivi + x)))
    ++ (List.range' valIndex (tempValues - valIndex)).map fun x : ℕ =>
      (x, toInt (valIndex + triangle x))

/-- The matrix of `size` temporaries has a bit of its own for each unordered pair, and the scan of a
vertex asks for those of its pairs. -/
structure Addresses (size : ℕ) : Prop where
  symmetric : ∀ x < size, ∀ y < size, tribitmtxPos x y = tribitmtxPos y x
  distinct : ∀ x < size, ∀ y < size, ∀ x' < size, ∀ y' < size,
    tribitmtxPos x y = tribitmtxPos x' y' → (x = x' ∧ y = y') ∨ (x = y' ∧ y = x')
  inside : ∀ x < size, ∀ y < size,
    0 ≤ tribitmtxPos x y ∧ tribitmtxPos x y < 32 * tribitmtxAlloc size
  scans : ∀ v < size, regAllocScan size v = (List.range size).map fun x : ℕ => (x, tribitmtxPos v x)

/-! ## Without overflow -/

theorem toInt_of_lt {n : ℕ} (h : n < 2 ^ 31) : toInt n = n :=
  Int.bmod_eq_of_le (by omega) (by omega)

theorem square_lt {n : ℕ} (h : n ≤ 46340) : n * n + n < 2 ^ 31 := by
  have := Nat.mul_le_mul h h
  omega

theorem row_lt_int {n : ℕ} (h : n ≤ 46340) : row n + n + 32 < 2 ^ 31 := by
  have := square_lt h
  have := two_mul_row n
  omega

theorem triangle_eq {n : ℕ} (h : n ≤ 46340) : triangle n = row n := by
  have hlt := square_lt h
  unfold triangle
  rw [← Nat.cast_mul, toInt_of_lt (by omega), ← Nat.cast_add, toInt_of_lt hlt, row_eq]
  exact Int.ofNat_tdiv _ 2

theorem tribitmtxPos_eq {x y : ℕ} (hx : x ≤ 46340) (hy : y ≤ 46340) :
    tribitmtxPos x y = pairNumber x y := by
  have hrowx := row_lt_int hx
  have hrowy := row_lt_int hy
  unfold tribitmtxPos
  by_cases hgt : (x : ℤ) > y
  · rw [if_pos hgt, pairNumber_of_ge (by omega)]
    change toInt (triangle x + y) = _
    rw [triangle_eq hx, ← Nat.cast_add, toInt_of_lt (by omega)]
  · rw [if_neg hgt, pairNumber_of_le (by omega)]
    change toInt (triangle y + x) = _
    rw [triangle_eq hy, ← Nat.cast_add, toInt_of_lt (by omega)]

theorem le_tribitmtxAlloc {size : ℕ} (h : size ≤ 46341) : row size ≤ 32 * tribitmtxAlloc size := by
  cases size with
  | zero => exact Nat.le_refl 0
  | succ n =>
    have hn : n ≤ 46340 := by omega
    have hrow := row_lt_int hn
    unfold tribitmtxAlloc
    rw [if_neg (by omega), row_succ]
    have hsize : toInt (((n + 1 : ℕ) : ℤ) - 1) = n := by
      rw [Nat.cast_add, Nat.cast_one, add_sub_cancel_right, toInt_of_lt (by omega)]
    simp only [hsize]
    rw [triangle_eq hn, ← Nat.cast_add, toInt_of_lt (by omega), ← Nat.cast_one (R := ℤ),
      ← Nat.cast_add, toInt_of_lt (by omega), ← Nat.cast_ofNat (R := ℤ) (n := 31), ← Nat.cast_add,
      toInt_of_lt (by omega)]
    change _ ≤ 32 * (Int.tdiv ((row n + n + 1 + 31 : ℕ) : ℤ) ((32 : ℕ) : ℤ)).toNat
    rw [← Int.ofNat_tdiv, Int.toNat_natCast]
    omega

theorem regAllocScan_eq {size v : ℕ} (h : size ≤ 46341) (hv : v < size) :
    regAllocScan size v = (List.range size).map fun x : ℕ => (x, tribitmtxPos v x) := by
  have hrowv := row_lt_int (by omega : v ≤ 46340)
  have hrange := @List.range'_append_1 0 v (size - v)
  rw [Nat.zero_add, Nat.add_sub_cancel' (Nat.le_of_lt hv), ← List.range_eq_range',
    ← List.range_eq_range'] at hrange
  rw [← hrange, List.map_append]
  unfold regAllocScan
  refine congrArg₂ (· ++ ·) (List.map_congr_left fun x hx => ?_)
    (List.map_congr_left fun x hx => ?_)
  · have hlt := List.mem_range.mp hx
    rw [tribitmtxPos_eq (by omega) (by omega), pairNumber_of_ge (Nat.le_of_lt hlt),
      triangle_eq (by omega), ← Nat.cast_add, toInt_of_lt (by omega)]
  · obtain ⟨hge, hlt⟩ := List.mem_range'_1.mp hx
    have hx' : x ≤ 46340 := by omega
    have hrowx := row_lt_int hx'
    rw [tribitmtxPos_eq (by omega) hx', pairNumber_of_le hge, triangle_eq hx', ← Nat.cast_add,
      toInt_of_lt (by omega), Nat.add_comm]

theorem addresses_of_le {size : ℕ} (h : size ≤ 46341) : Addresses size where
  symmetric x hx y hy := by
    rw [tribitmtxPos_eq (by omega) (by omega), tribitmtxPos_eq (by omega) (by omega),
      pairNumber_comm]
  distinct x hx y hy x' hx' y' hy' heq := by
    rw [tribitmtxPos_eq (by omega) (by omega), tribitmtxPos_eq (by omega) (by omega)] at heq
    exact eq_of_pairNumber (Int.natCast_inj.mp heq)
  inside x hx y hy := by
    have hlt := pairNumber_lt hx hy
    have hle := le_tribitmtxAlloc h
    rw [tribitmtxPos_eq (by omega) (by omega)]
    omega
  scans v hv := regAllocScan_eq h hv

/-! ## With overflow -/

/-- The first row that starts beyond the numbers of an `int`. -/
theorem tribitmtxPos_overflow : tribitmtxPos 0 46341 < 0 := by decide

/-- With one temporary more the first bit of the last row is in front of the matrix. -/
theorem many_temporaries_outside : ¬ Addresses 46342 := by
  intro h
  have hinside := (h.inside 0 (by decide) 46341 (by decide)).1
  exact absurd hinside (not_le.mpr tribitmtxPos_overflow)

/-- The matrix is addressed rightly up to 46341 temporaries and not beyond. -/
theorem addresses_iff (size : ℕ) : Addresses size ↔ size ≤ 46341 := by
  constructor
  · intro h
    by_contra hgt
    have hinside := (h.inside 0 (by omega) 46341 (by omega)).1
    exact absurd hinside (not_le.mpr tribitmtxPos_overflow)
  · exact addresses_of_le

end Vmir.TriangularMatrix
