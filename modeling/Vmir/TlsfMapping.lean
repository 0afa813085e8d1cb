import Vmir.SizeClasses
import Vmir.Tlsf

set_option autoImplicit false

/-!
# The size classes of TLSF

`mapping_insert` and `mapping_search` divide the sizes, counted in units of 8 bytes, into classes
with 5 bits behind the leading one.
-/
namespace Vmir.TlsfMapping
open BitCounts SizeClasses Tlsf

/-- The class of a size as a number: the lists stand in the order of their sizes. -/
def sizeClass (n : ℕ) : ℕ := index 5 (n / 8)

/-- The first class whose sizes are all large enough for a request. -/
def searchClass (n : ℕ) : ℕ := index 5 (roundUp 5 (n / 8))

theorem tlsfFls_eq {x : BitVec 32} (hx : x ≠ 0) : tlsfFls x = Nat.log2 x.toNat := by
  have hlo := BitVec.two_pow_sub_clz_le_toNat_of_ne_zero (by decide) hx
  have hhi := BitVec.toNat_lt_two_pow_sub_clz (x := x)
  have hclz : x.clz.toNat < 32 := by
    have hlt := BitVec.clz_lt_iff_ne_zero.mpr hx
    rwa [BitVec.lt_def, natCast_width_toNat] at hlt
  have hne : x.toNat ≠ 0 := fun h => hx (BitVec.eq_of_toNat_eq h)
  unfold tlsfFls
  rw [leadingZeros_eq_clz]
  refine ((Nat.log2_eq_iff hne).mpr ⟨?_, ?_⟩).symm
  · rwa [show 31 - x.clz.toNat = 32 - 1 - x.clz.toNat by omega]
  · rwa [show 31 - x.clz.toNat + 1 = 32 - x.clz.toNat by omega]

theorem tlsfFlsSizet_eq {n : ℕ} (hne : n ≠ 0) (hlt : n < 2 ^ 64) :
    tlsfFlsSizet n = Nat.log2 n := by
  have hhigh : (BitVec.ofNat 32 (n >>> 32)).toNat = n / 2 ^ 32 := by
    rw [BitVec.toNat_ofNat, Nat.shiftRight_eq_div_pow]
    exact Nat.mod_eq_of_lt (by omega)
  unfold tlsfFlsSizet
  by_cases hzero : n / 2 ^ 32 = 0
  · have hlow : (BitVec.ofNat 32 n).toNat = n := by
      rw [BitVec.toNat_ofNat]
      exact Nat.mod_eq_of_lt (by omega)
    have hx : BitVec.ofNat 32 (n >>> 32) = 0 := BitVec.eq_of_toNat_eq (hhigh.trans hzero)
    rw [if_neg (not_not.mpr hx), tlsfFls_eq, hlow]
    intro h
    rw [h] at hlow
    exact hne hlow.symm
  · have hx : BitVec.ofNat 32 (n >>> 32) ≠ 0 := by
      intro h
      rw [h] at hhigh
      exact hzero hhigh.symm
    rw [if_pos hx, tlsfFls_eq hx, hhigh]
    obtain ⟨hlo, hhi⟩ := log2_bounds hzero
    refine ((Nat.log2_eq_iff hne).mpr ⟨?_, ?_⟩).symm
    · rw [Nat.add_comm, Nat.pow_add]
      exact (Nat.le_div_iff_mul_le (Nat.two_pow_pos 32)).mp hlo
    · rw [show 32 + Nat.log2 (n / 2 ^ 32) + 1 = Nat.log2 (n / 2 ^ 32) + 1 + 32 by omega, Nat.pow_add]
      exact (Nat.div_lt_iff_lt_mul (Nat.two_pow_pos 32)).mp hhi

/-! ## Units of 8 bytes -/

theorem log2_units {n : ℕ} (h : 8 ≤ n) : Nat.log2 n = Nat.log2 (n / 8) + 3 := by
  have hne : n / 8 ≠ 0 := by omega
  obtain ⟨hlo, hhi⟩ := log2_bounds hne
  refine (Nat.log2_eq_iff (by omega)).mpr ⟨?_, ?_⟩
  · rw [Nat.pow_add]
    omega
  · rw [show Nat.log2 (n / 8) + 3 + 1 = Nat.log2 (n / 8) + 1 + 3 by omega, Nat.pow_add]
    omega

theorem exponent_units {n : ℕ} (h : 8 ≤ n) : exponent 5 (n / 8) = Nat.log2 n - 8 := by
  rw [log2_units h]
  unfold exponent
  omega

theorem exponent_small {n : ℕ} (h : n < 256) : exponent 5 (n / 8) = 0 := by
  unfold exponent
  by_cases hne : n / 8 = 0
  · rw [hne]
    rfl
  · have hlog : Nat.log2 (n / 8) < 5 := (Nat.log2_lt hne).mpr (show n / 8 < 32 by omega)
    omega

theorem xor_half : ∀ r < 32, (32 + r) ^^^ 32 = r := by decide

theorem mappingInsert_eq {n : ℕ} (hlt : n < 2 ^ 64) :
    mappingInsert n = (sizeClass n / 32, sizeClass n % 32) := by
  unfold mappingInsert sizeClass
  split
  · next hsmall =>
    rw [index_of_small (exponent_small hsmall)]
    refine Prod.ext ?_ ?_ <;> simp only <;> omega
  · next hlarge =>
    have hlog : 8 ≤ Nat.log2 n := (Nat.le_log2 (by omega)).mpr (by omega)
    have hexp := exponent_units (n := n) (by omega)
    have hquot : n / 8 / 2 ^ exponent 5 (n / 8) = n >>> (Nat.log2 n - 5) := by
      rw [hexp, Nat.div_div_eq_div_mul, Nat.shiftRight_eq_div_pow,
        show Nat.log2 n - 5 = 3 + (Nat.log2 n - 8) by omega, Nat.pow_add]
    have hbounds : 32 ≤ n >>> (Nat.log2 n - 5) ∧ n >>> (Nat.log2 n - 5) < 64 := by
      obtain ⟨hlo, hhi⟩ := log2_bounds (n := n) (by omega)
      rw [Nat.shiftRight_eq_div_pow]
      refine ⟨(Nat.le_div_iff_mul_le (Nat.two_pow_pos _)).mpr ?_, ?_⟩
      · rwa [show 32 = 2 ^ 5 from rfl, ← Nat.pow_add, show 5 + (Nat.log2 n - 5) = Nat.log2 n by omega]
      · refine (Nat.div_lt_iff_lt_mul (Nat.two_pow_pos _)).mpr ?_
        rwa [show 64 = 2 ^ 6 from rfl, ← Nat.pow_add,
          show 6 + (Nat.log2 n - 5) = Nat.log2 n + 1 by omega]
    have hxor := xor_half (n >>> (Nat.log2 n - 5) - 32) (by omega)
    rw [Nat.add_sub_cancel' hbounds.1] at hxor
    simp only [tlsfFlsSizet_eq (show n ≠ 0 by omega) hlt]
    rw [hxor]
    unfold index
    rw [hquot, hexp]
    refine Prod.ext ?_ ?_ <;> simp only <;> omega

theorem mappingSearch_eq {n : ℕ} (h8 : n % 8 = 0) (hne : n ≠ 0) (hlt : n < 2 ^ 63) :
    mappingSearch n = (searchClass n / 32, searchClass n % 32) := by
  unfold mappingSearch
  split
  · have hround : 1 <<< (Nat.log2 n - 5) ≤ n := by
      rw [Nat.shiftLeft_eq, Nat.one_mul]
      exact le_trans (Nat.pow_le_pow_right (by decide) (Nat.sub_le _ _)) (Nat.log2_self_le hne)
    rw [tlsfFlsSizet_eq hne (by omega), mappingInsert_eq (by omega)]
    have hunits : (n + (1 <<< (Nat.log2 n - 5) - 1)) / 8 = roundUp 5 (n / 8) := by
      unfold roundUp
      rw [Nat.shiftLeft_eq, Nat.one_mul]
      by_cases hsmall : n < 256
      · have hlog : Nat.log2 n < 8 := (Nat.log2_lt hne).mpr hsmall
        have hpow : 2 ^ (Nat.log2 n - 5) ≤ 2 ^ 2 := Nat.pow_le_pow_right (by decide) (by omega)
        rw [exponent_small hsmall]
        omega
      · have hlog : 8 ≤ Nat.log2 n := (Nat.le_log2 hne).mpr (by omega)
        rw [exponent_units (by omega), show Nat.log2 n - 5 = Nat.log2 n - 8 + 3 by omega,
          Nat.pow_add]
        have hpos := Nat.two_pow_pos (Nat.log2 n - 8)
        omega
    unfold sizeClass searchClass
    rw [hunits]
  · rw [mappingInsert_eq (by omega)]
    unfold sizeClass searchClass roundUp
    rw [exponent_small (by omega)]
    rfl

/-! ## What the classes are good for -/

theorem sizeClass_lt_iff (n : ℕ) : sizeClass n < 800 ↔ n < 2 ^ 32 := by
  have hexp (h : n / 8 ≠ 0) (e : ℕ) : exponent 5 (n / 8) ≤ e ↔ n / 8 < 2 ^ (e + 6) := by
    rw [← Nat.log2_lt h]
    unfold exponent
    omega
  unfold sizeClass
  by_cases hzero : n / 8 = 0
  · rw [hzero]
    exact iff_of_true (by decide) (by omega)
  · constructor
    · intro h
      by_contra hge
      have hlarge : ¬ exponent 5 (n / 8) ≤ 23 := fun h => by
        have := (hexp hzero 23).mp h
        omega
      have := le_index (k := 5) (n := n / 8) (by omega)
      omega
    · intro h
      have := (hexp hzero 23).mpr (by omega)
      have := index_lt 5 (n / 8)
      omega

theorem searchClass_lt_iff {n : ℕ} (h8 : n % 8 = 0) :
    searchClass n < 800 ↔ n ≤ 2 ^ 32 - 2 ^ 26 := by
  have hclass : searchClass n = sizeClass (8 * roundUp 5 (n / 8)) := by
    unfold searchClass sizeClass
    rw [Nat.mul_div_cancel_left _ (by decide)]
  rw [hclass, sizeClass_lt_iff]
  have hle := le_roundUp 5 (n / 8)
  have hup := roundUp_le 5 (n / 8)
  by_cases hlarge : 2 ^ 31 ≤ n ∧ n < 2 ^ 32
  · have hlog : Nat.log2 n = 31 := (Nat.log2_eq_iff (by omega)).mpr hlarge
    unfold roundUp
    rw [exponent_units (by omega), hlog]
    omega
  · omega

theorem le_of_searchClass {n m : ℕ} (h8 : n % 8 = 0) (h : searchClass n ≤ sizeClass m) : n ≤ m := by
  have := le_of_index_roundUp h
  omega

theorem searchClass_le {n m : ℕ} (h : n + n / 32 ≤ m) : searchClass n ≤ sizeClass m := by
  refine index_mono (le_trans (roundUp_le 5 (n / 8)) ?_)
  omega

/-- The order in which `search_suitable_block` goes through the lists. -/
def Before (c d : ℕ × ℕ) : Prop := c.1 < d.1 ∨ c.1 = d.1 ∧ c.2 ≤ d.2

theorem before_iff (i j : ℕ) : Before (i / 32, i % 32) (j / 32, j % 32) ↔ i ≤ j := by
  unfold Before
  simp only
  omega

section
variable {n m : ℕ} (h8 : n % 8 = 0) (hmin : blockSizeMin ≤ n) (hmax : n ≤ blockSizeMax)

include h8 hmin hmax

theorem mappingSearch_class : mappingSearch n = (searchClass n / 32, searchClass n % 32) := by
  unfold blockSizeMin at hmin
  unfold blockSizeMax at hmax
  exact mappingSearch_eq h8 (by omega) (by omega)

theorem mappingSearch_inTable :
    (mappingSearch n).1 < flIndexCount ∧ (mappingSearch n).2 < slIndexCount
      ↔ n ≤ 2 ^ 32 - 2 ^ 26 := by
  rw [mappingSearch_class h8 hmin hmax, ← searchClass_lt_iff h8]
  unfold flIndexCount slIndexCount
  omega

theorem le_of_before (hm : m < 2 ^ 64) (h : Before (mappingSearch n) (mappingInsert m)) : n ≤ m := by
  rw [mappingSearch_class h8 hmin hmax, mappingInsert_eq hm, before_iff] at h
  exact le_of_searchClass h8 h

theorem before_of_le (hm : m < 2 ^ 64) (h : n + n / 32 ≤ m) :
    Before (mappingSearch n) (mappingInsert m) := by
  rw [mappingSearch_class h8 hmin hmax, mappingInsert_eq hm, before_iff]
  exact searchClass_le h

end

/-- The search for a request, adjusted to `n` bytes, stays in the tables up to `2 ^ 32 - 2 ^ 26`
bytes. The lists it goes through have only blocks that are large enough, and all that are larger by
one part in 32. -/
theorem search_good_fit {n : ℕ} (h8 : n % 8 = 0) (hmin : blockSizeMin ≤ n) (hmax : n ≤ blockSizeMax) :
    ((mappingSearch n).1 < flIndexCount ∧ (mappingSearch n).2 < slIndexCount
        ↔ n ≤ 2 ^ 32 - 2 ^ 26)
      ∧ (∀ m < 2 ^ 64, Before (mappingSearch n) (mappingInsert m) → n ≤ m)
      ∧ ∀ m < 2 ^ 64, n + n / 32 ≤ m → Before (mappingSearch n) (mappingInsert m) :=
  ⟨mappingSearch_inTable h8 hmin hmax, fun _ hm h => le_of_before h8 hmin hmax hm h,
    fun _ hm h => before_of_le h8 hmin hmax hm h⟩

/-- The largest request that is searched in the tables, and the next one. -/
theorem search_good_fit_largest : (mappingSearch (2 ^ 32 - 2 ^ 26)).1 < flIndexCount
    ∧ ¬ ((mappingSearch (2 ^ 32 - 2 ^ 26 + 8)).1 < flIndexCount
      ∧ (mappingSearch (2 ^ 32 - 2 ^ 26 + 8)).2 < slIndexCount) := by
  have hlast := (search_good_fit (n := 2 ^ 32 - 2 ^ 26) (by decide) (by decide) (by decide)).1
  have hnext := (search_good_fit (n := 2 ^ 32 - 2 ^ 26 + 8) (by decide) (by decide) (by decide)).1
  exact ⟨(hlast.mpr (le_refl _)).1, fun h => absurd (hnext.mp h) (by decide)⟩

end Vmir.TlsfMapping
