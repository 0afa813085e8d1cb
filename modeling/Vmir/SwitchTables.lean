import Vmir.VmControl
import Mathlib.Data.List.Basic

set_option autoImplicit false

/-!
# The search in a switch table

The loop of the `SWITCH*_BS` operations finds the first entry that is not below the value.
-/
namespace Vmir.SwitchTables
open VmOps VmControl

section Bisect
variable {below below' : ℤ → Bool} {imin imax : ℤ}

theorem bisect_bounds (below : ℤ → Bool) (h : imin ≤ imax) :
    ∃ i, bisect below imin imax = (i, i) ∧ imin ≤ i ∧ i ≤ imax := by
  fun_induction bisect below imin imax with
  | case1 imin imax hlt imid hbelow ih =>
    obtain ⟨i, hi, hlo, hhi⟩ := ih (by omega)
    exact ⟨i, hi, by omega, hhi⟩
  | case2 imin imax hlt imid hbelow ih =>
    obtain ⟨i, hi, hlo, hhi⟩ := ih (by omega)
    exact ⟨i, hi, hlo, by omega⟩
  | case3 imin imax hlt =>
    obtain rfl : imin = imax := by omega
    exact ⟨imin, rfl, le_refl _, le_refl _⟩

theorem bisect_of_lt (below : ℤ → Bool) (h : imin < imax) :
    bisect below imin imax = if below ((imin + imax) / 2)
      then bisect below ((imin + imax) / 2 + 1) imax else bisect below imin ((imin + imax) / 2) := by
  rw [bisect, if_pos h]

theorem bisect_congr (h : ∀ i, imin ≤ i → i < imax → below i = below' i) :
    bisect below imin imax = bisect below' imin imax := by
  fun_induction bisect below imin imax with
  | case1 imin imax hlt imid hbelow ih =>
    have hbelow' := (h _ (by omega) (by omega)).symm.trans hbelow
    rw [bisect_of_lt below' hlt, if_pos hbelow']
    exact ih fun i hlo hhi => h i (by omega) hhi
  | case2 imin imax hlt imid hbelow ih =>
    have hbelow' : ¬ below' imid := fun hb => hbelow ((h _ (by omega) (by omega)).trans hb)
    rw [bisect_of_lt below' hlt, if_neg hbelow']
    exact ih fun i hlo hhi => h i hlo (by omega)
  | case3 imin imax hlt => rw [bisect, if_neg hlt]

theorem bisect_separates (hmono : ∀ i j, 0 ≤ i → i ≤ j → below j → below i) (hlo : 0 ≤ imin)
    (h : imin ≤ imax) :
    (∀ j, imin ≤ j → j < (bisect below imin imax).1 → below j)
      ∧ ∀ j, (bisect below imin imax).1 ≤ j → j < imax → ¬ below j := by
  fun_induction bisect below imin imax with
  | case1 imin imax hlt imid hbelow ih =>
    obtain ⟨hl, hr⟩ := ih (by omega) (by omega)
    refine ⟨fun j h1 h2 => ?_, hr⟩
    by_cases hj : j ≤ imid
    · exact hmono j imid (by omega) hj hbelow
    · exact hl j (by omega) h2
  | case2 imin imax hlt imid hbelow ih =>
    obtain ⟨hl, hr⟩ := ih hlo (by omega)
    refine ⟨hl, fun j h1 h2 => ?_⟩
    by_cases hj : imid ≤ j
    · exact fun hb => hbelow (hmono imid j (by omega) hj hb)
    · exact hr j h1 (by omega)
  | case3 imin imax hlt => exact ⟨fun j h1 h2 => absurd h2 (by omega), fun j h1 h2 => by omega⟩

end Bisect

section Table
variable {w : ℕ}

/-- A table with the entries `es` in order. -/
def Sorted (es : List (BitVec w)) : Prop := es.Pairwise fun a b => a.toNat ≤ b.toNat

theorem tableIndex_congr {p : ℕ} {below below' equal equal' : ℤ → Bool}
    (hb : ∀ i : ℕ, i < p → below i = below' i) (he : ∀ i : ℕ, i < p → equal i = equal' i) :
    tableIndex p below equal = tableIndex p below' equal' := by
  have hbis : bisect below 0 (p - 1) = bisect below' 0 (p - 1) := by
    refine bisect_congr fun i h1 h2 => ?_
    obtain ⟨n, rfl⟩ := Int.eq_ofNat_of_zero_le h1
    exact hb n (by omega)
  unfold tableIndex
  rw [hbis]
  rcases Nat.eq_zero_or_pos p with rfl | hp
  · rw [bisect, if_neg (by omega)]
    rfl
  · obtain ⟨i, hi, h1, h2⟩ := bisect_bounds below' (show (0 : ℤ) ≤ p - 1 by omega)
    obtain ⟨n, rfl⟩ := Int.eq_ofNat_of_zero_le h1
    rw [hi]
    simp only
    rw [he n (by omega)]

theorem tableIndex_range (p : ℕ) (below equal : ℤ → Bool) :
    ∃ n : ℕ, tableIndex p below equal = n ∧ n ≤ p := by
  unfold tableIndex
  rcases Nat.eq_zero_or_pos p with rfl | hp
  · rw [bisect, if_neg (by omega)]
    exact ⟨0, rfl, le_refl _⟩
  · obtain ⟨i, hi, h1, h2⟩ := bisect_bounds below (show (0 : ℤ) ≤ p - 1 by omega)
    obtain ⟨n, rfl⟩ := Int.eq_ofNat_of_zero_le h1
    rw [hi]
    simp only
    split
    · exact ⟨n, rfl, by omega⟩
    · exact ⟨p, rfl, le_refl _⟩

theorem tableIndex_eq_idxOf {es : List (BitVec w)} (hs : Sorted es) (v : BitVec w) :
    tableIndex es.length (fun i => (es.getD i.toNat 0).ult v) (fun i => es.getD i.toNat 0 == v)
      = es.idxOf v := by
  rcases Nat.eq_zero_or_pos es.length with hnil | hpos
  · obtain rfl := List.eq_nil_of_length_eq_zero hnil
    unfold tableIndex
    rw [List.length_nil, bisect, if_neg (by decide)]
    rfl
  have hgetD (n : ℕ) (hn : n < es.length) : es.getD n 0 = es[n] := by
    rw [List.getD_eq_getElem?_getD, List.getElem?_eq_getElem hn]
    rfl
  -- Behind the table nothing is below the value, so that the comparison is monotone.
  let below : ℤ → Bool := fun i => decide (i < es.length) && (es.getD i.toNat 0).ult v
  have hbelow (n : ℕ) (hn : n < es.length) : below n ↔ es[n].toNat < v.toNat := by
    simp only [below, Int.toNat_natCast, hgetD n hn, BitVec.ult, Bool.and_eq_true,
      decide_eq_true_eq]
    omega
  have hcongr : tableIndex es.length (fun i => (es.getD i.toNat 0).ult v)
      (fun i => es.getD i.toNat 0 == v)
      = tableIndex es.length below (fun i => es.getD i.toNat 0 == v) := by
    refine tableIndex_congr (fun i hi => ?_) fun i hi => rfl
    have : ((i : ℕ) : ℤ) < es.length := by omega
    simp only [below, this, decide_true, Bool.true_and]
  have hmono : ∀ i j, 0 ≤ i → i ≤ j → below j → below i := by
    intro i j h0 hij hj
    have hjlt : j < es.length := by
      simp only [below, Bool.and_eq_true, decide_eq_true_eq] at hj
      exact hj.1
    obtain ⟨a, rfl⟩ := Int.eq_ofNat_of_zero_le h0
    obtain ⟨b, rfl⟩ := Int.eq_ofNat_of_zero_le (h0.trans hij)
    refine (hbelow a (by omega)).mpr (Nat.lt_of_le_of_lt ?_ ((hbelow b (by omega)).mp hj))
    rcases Nat.lt_or_eq_of_le (show a ≤ b by omega) with hlt | rfl
    · exact List.pairwise_iff_getElem.mp hs a b (by omega) (by omega) hlt
    · exact le_refl _
  obtain ⟨i, hi, h0, hle⟩ := bisect_bounds below
    (show (0 : ℤ) ≤ es.length - 1 by omega)
  obtain ⟨hl, hr⟩ := bisect_separates hmono (le_refl 0)
    (show (0 : ℤ) ≤ es.length - 1 by omega)
  rw [hi] at hl hr
  obtain ⟨n, rfl⟩ := Int.eq_ofNat_of_zero_le h0
  have hn : n < es.length := by omega
  have hbefore : v ∉ es.take n := by
    intro hmem
    obtain ⟨m, hm, rfl⟩ := List.mem_take_iff_getElem.mp hmem
    have := (hbelow m (by omega)).mp (hl m (by omega) (by omega))
    omega
  have hsplit : es = es.take n ++ es[n] :: es.drop (n + 1) := by
    rw [List.getElem_cons_drop, List.take_append_drop]
  have htake : (es.take n).length = n := List.length_take_of_le hn.le
  rw [hcongr, tableIndex, hi]
  simp only [true_and, Int.toNat_natCast, hgetD n hn, beq_iff_eq]
  split
  · next heq =>
    have hidx : es.idxOf v = n := by
      rw [hsplit, List.idxOf_append_of_notMem hbefore, List.idxOf_cons_eq _ heq, htake]
      rfl
    rw [hidx]
  · next hne =>
    have hbehind : v ∉ es.drop (n + 1) := by
      intro hmem
      obtain ⟨m, hm, rfl⟩ := List.mem_drop_iff_getElem.mp hmem
      have hsorted := List.pairwise_iff_getElem.mp hs n (n + 1 + m) hn (by omega) (by omega)
      have hlast := hr n (le_refl _) (by omega)
      rw [hbelow n hn] at hlast
      exact hne (BitVec.eq_of_toNat_eq (by omega))
    rw [List.idxOf_of_notMem]
    rw [hsplit, List.mem_append, List.mem_cons, not_or, not_or]
    exact ⟨hbefore, Ne.symm hne, hbehind⟩

end Table
end Vmir.SwitchTables
