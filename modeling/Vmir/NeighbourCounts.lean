import Mathlib.Data.Finset.Card
import Mathlib.Data.Fintype.Basic

set_option autoImplicit false

/-!
# Counting neighbours

A simple graph as a table of pairs that is changed one pair at a time, and what that does to the
number of neighbours of each vertex. A vertex with fewer neighbours than there are colours has a
colour that none of them has.
-/
namespace Vmir.NeighbourCounts

universe u v
variable {V : Type u}

abbrev Adjacency (V : Type u) := V → V → Bool

structure Simple (adj : Adjacency V) : Prop where
  symm : ∀ x y, adj x y = adj y x
  irrefl : ∀ x, adj x x = false

theorem Simple.empty : Simple (fun _ _ : V => false) := ⟨fun _ _ => rfl, fun _ => rfl⟩

theorem Simple.ne_of_adj {adj : Adjacency V} (h : Simple adj) {x y : V} (hxy : adj x y = true) :
    x ≠ y := by
  intro heq
  rw [heq, h.irrefl] at hxy
  exact Bool.false_ne_true hxy

section
variable [Fintype V] {adj : Adjacency V}

def neighbours (adj : Adjacency V) (x : V) : Finset V := Finset.univ.filter fun y => adj x y

def degree (adj : Adjacency V) (x : V) : ℕ := (neighbours adj x).card

theorem mem_neighbours {x y : V} : y ∈ neighbours adj x ↔ adj x y = true := by
  simp [neighbours]

theorem degree_empty (x : V) : degree (fun _ _ => false) x = 0 := by
  simp [degree, neighbours]

theorem degree_of_none {x : V} (h : ∀ y, adj x y = false) : degree adj x = 0 := by
  unfold degree neighbours
  simp only [h, Bool.false_eq_true, Finset.filter_false, Finset.card_empty]

theorem degree_eq_zero {x : V} (h : degree adj x = 0) (y : V) : adj x y = false := by
  have hempty : neighbours adj x = ∅ := Finset.card_eq_zero.mp h
  have hy : y ∉ neighbours adj x := by
    rw [hempty]
    exact Finset.notMem_empty y
  rw [mem_neighbours] at hy
  exact Bool.eq_false_iff.mpr hy

theorem exists_unused {C : Type v} [DecidableEq C] (colour : V → C) (palette : Finset C) {x : V}
    (h : degree adj x < palette.card) : ∃ c ∈ palette, ∀ y, adj x y = true → colour y ≠ c := by
  have hcard : ((neighbours adj x).image colour).card < palette.card :=
    lt_of_le_of_lt Finset.card_image_le h
  obtain ⟨c, hc, hunused⟩ := Finset.exists_mem_notMem_of_card_lt_card hcard
  refine ⟨c, hc, fun y hy heq => hunused ?_⟩
  exact Finset.mem_image.mpr ⟨y, mem_neighbours.mpr hy, heq⟩

end

variable [DecidableEq V]

def setPair (adj : Adjacency V) (a b : V) (on : Bool) : Adjacency V := fun x y =>
  if (x = a ∧ y = b) ∨ (x = b ∧ y = a) then on else adj x y

variable {adj : Adjacency V} {a b : V} {on : Bool}

theorem setPair_comm : setPair adj a b on = setPair adj b a on := by
  funext x y
  unfold setPair
  simp only [Or.comm]

theorem setPair_left (y : V) : setPair adj a b on a y = if y = b then on else adj a y := by
  unfold setPair
  by_cases hy : y = b
  · simp [hy]
  · by_cases hab : a = b <;> simp_all

theorem setPair_other {x : V} (ha : x ≠ a) (hb : x ≠ b) (y : V) :
    setPair adj a b on x y = adj x y := by
  simp [setPair, ha, hb]

theorem Simple.setPair (h : Simple adj) (hab : a ≠ b) : Simple (setPair adj a b on) where
  symm x y := by
    unfold NeighbourCounts.setPair
    rw [h.symm x y]
    simp only [and_comm, Or.comm]
  irrefl x := by
    unfold NeighbourCounts.setPair
    rw [if_neg, h.irrefl]
    rintro (⟨rfl, rfl⟩ | ⟨rfl, rfl⟩)
    · exact hab rfl
    · exact hab rfl

variable [Fintype V]

theorem degree_setPair_other {x : V} (ha : x ≠ a) (hb : x ≠ b) :
    degree (setPair adj a b on) x = degree adj x := by
  unfold degree neighbours
  simp only [setPair_other ha hb]

theorem degree_link_left (hab : adj a b = false) :
    degree (setPair adj a b true) a = degree adj a + 1 := by
  have hnot : b ∉ neighbours adj a := by
    rw [mem_neighbours, hab]
    exact Bool.false_ne_true
  have hinsert : neighbours (setPair adj a b true) a = insert b (neighbours adj a) := by
    ext y
    rw [mem_neighbours, setPair_left, Finset.mem_insert, mem_neighbours]
    by_cases hy : y = b <;> simp [hy]
  unfold degree
  rw [hinsert, Finset.card_insert_of_notMem hnot]

theorem degree_link_right (hba : adj b a = false) :
    degree (setPair adj a b true) b = degree adj b + 1 := by
  rw [setPair_comm]
  exact degree_link_left hba

theorem degree_unlink_left (hab : adj a b = true) :
    degree (setPair adj a b false) a + 1 = degree adj a := by
  have hmem : b ∈ neighbours adj a := mem_neighbours.mpr hab
  have herase : neighbours (setPair adj a b false) a = (neighbours adj a).erase b := by
    ext y
    rw [mem_neighbours, setPair_left, Finset.mem_erase, mem_neighbours]
    by_cases hy : y = b <;> simp [hy]
  unfold degree
  rw [herase, Finset.card_erase_add_one hmem]

theorem degree_unlink_right (hba : adj b a = true) :
    degree (setPair adj a b false) b + 1 = degree adj b := by
  rw [setPair_comm]
  exact degree_unlink_left hba

end Vmir.NeighbourCounts
