import Mathlib.Data.List.Nodup

set_option autoImplicit false

/-!
# Chains of slots

Slots that are numbered and linked in one direction: `next i` is the slot behind slot `i`.
-/
namespace Vmir.SlotChain

variable {next next' : ℕ → Option ℕ}

/-- Following the links from `head` passes the slots `l` and ends. -/
def Chain (next : ℕ → Option ℕ) : Option ℕ → List ℕ → Prop
  | head, [] => head = none
  | head, i :: l => head = some i ∧ Chain next (next i) l

theorem chain_nil_iff {l : List ℕ} : Chain next none l ↔ l = [] := by
  cases l with
  | nil => exact iff_of_true rfl rfl
  | cons i l => exact iff_of_false (fun h => absurd h.1 nofun) nofun

theorem Chain.cons {i : ℕ} {l : List ℕ} (h : Chain next (some i) l) :
    ∃ l', l = i :: l' ∧ Chain next (next i) l' := by
  cases l with
  | nil => exact absurd h nofun
  | cons j l =>
    obtain ⟨heq, hrest⟩ := h
    cases heq
    exact ⟨l, rfl, hrest⟩

theorem Chain.congr {head : Option ℕ} {l : List ℕ} (h : Chain next head l)
    (heq : ∀ i ∈ l, next' i = next i) : Chain next' head l := by
  induction l generalizing head with
  | nil => exact h
  | cons i l ih =>
    obtain ⟨hhead, hrest⟩ := h
    refine ⟨hhead, ?_⟩
    rw [heq i List.mem_cons_self]
    exact ih hrest fun j hj => heq j (List.mem_cons_of_mem i hj)

theorem Chain.push {head : Option ℕ} {l : List ℕ} (h : Chain next head l) {i : ℕ} (hi : i ∉ l)
    (hlink : next' i = head) (heq : ∀ j, j ≠ i → next' j = next j) :
    Chain next' (some i) (i :: l) := by
  refine ⟨rfl, ?_⟩
  rw [hlink]
  exact h.congr fun j hj => heq j (fun hji => hi (hji ▸ hj))

theorem Chain.unique {head : Option ℕ} {l l' : List ℕ} (h : Chain next head l)
    (h' : Chain next head l') : l = l' := by
  induction l generalizing head l' with
  | nil =>
    have hhead : head = none := h
    rw [hhead] at h'
    exact (chain_nil_iff.mp h').symm
  | cons i l ih =>
    obtain ⟨hhead, hrest⟩ := h
    rw [hhead] at h'
    obtain ⟨l'', rfl, hrest'⟩ := h'.cons
    rw [ih hrest hrest']

end Vmir.SlotChain
