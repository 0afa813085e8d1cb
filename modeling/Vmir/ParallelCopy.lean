import Mathlib.Data.Finset.Card
import Mathlib.Data.Fintype.Pigeonhole
import Mathlib.Data.Set.Finite.Basic
import Mathlib.Logic.Function.Basic
import Mathlib.Logic.Relation

set_option autoImplicit false

/-!
# Sequentialising a parallel copy

A set of copies with distinct destinations is executed one copy at a time. `Progress` is the
invariant of every correct order: the source of a pending copy still holds what its destination
must receive, and everything that no pending copy writes is already right. A leaf copy keeps it,
and so does saving a source in a temporary that is then read in its place.
-/
namespace Vmir.ParallelCopy

structure Copy (α : Type) where
  dst : α
  src : α
deriving DecidableEq, Repr

variable {α β : Type} [DecidableEq α]

def Copy.run (c : Copy α) (env : α → β) : α → β :=
  Function.update env c.dst (env c.src)

def runCopies (cs : List (Copy α)) (env : α → β) : α → β :=
  cs.foldl (fun env c => c.run env) env

theorem runCopies_append (cs ds : List (Copy α)) (env : α → β) :
    runCopies (cs ++ ds) env = runCopies ds (runCopies cs env) :=
  List.foldl_append

theorem runCopies_concat (cs : List (Copy α)) (c : Copy α) (env : α → β) :
    runCopies (cs ++ [c]) env = c.run (runCopies cs env) := by
  rw [runCopies_append]
  rfl

/-- `goal` is the valuation to be reached, on the values that satisfy `old`. -/
structure Progress (old : α → Prop) (goal : α → β) (rest : Set (Copy α)) (env : α → β) : Prop where
  pending : ∀ c ∈ rest, env c.src = goal c.dst
  settled : ∀ v, old v → (∀ c ∈ rest, c.dst ≠ v) → env v = goal v

section Progress
variable {old : α → Prop} {goal env : α → β} {rest : Set (Copy α)}

omit [DecidableEq α] in
theorem Progress.finish (h : Progress old goal ∅ env) {v : α} (hv : old v) : env v = goal v :=
  h.settled v hv (by simp)

theorem Progress.leaf (h : Progress old goal rest env) {c : Copy α}
    (hc : c ∈ rest) (hleaf : ∀ d ∈ rest, d ≠ c → d.src ≠ c.dst) :
    Progress old goal (rest \ {c}) (c.run env) := by
  refine ⟨?_, ?_⟩
  · rintro d ⟨hd, hne⟩
    rw [Copy.run, Function.update_of_ne (hleaf d hd hne)]
    exact h.pending d hd
  · intro v hv hrest
    by_cases hvc : v = c.dst
    · rw [hvc, Copy.run, Function.update_self]
      exact h.pending c hc
    · rw [Copy.run, Function.update_of_ne hvc]
      refine h.settled v hv fun d hd hdv => ?_
      by_cases hdc : d = c
      · exact hvc (by rw [← hdv, hdc])
      · exact hrest d ⟨hd, hdc⟩ hdv

/-- Reading `t` wherever `s` was read. -/
def redirect (s t : α) (c : Copy α) : Copy α :=
  if c.src = s then ⟨c.dst, t⟩ else c

theorem redirect_dst (s t : α) (c : Copy α) : (redirect s t c).dst = c.dst := by
  unfold redirect
  split <;> rfl

theorem redirect_of_eq {s t : α} {c : Copy α} (h : c.src = s) : redirect s t c = ⟨c.dst, t⟩ :=
  if_pos h

theorem redirect_of_ne {s t : α} {c : Copy α} (h : c.src ≠ s) : redirect s t c = c :=
  if_neg h

/-- Saving the source `s` in the fresh `t` lets the pending copies read `t` instead. -/
theorem Progress.save (h : Progress old goal rest env) {s t : α} (ht : ¬ old t)
    (hsrc : ∀ c ∈ rest, c.src ≠ t) :
    Progress old goal (redirect s t '' rest) ((Copy.mk t s).run env) := by
  refine ⟨?_, ?_⟩
  · rintro d ⟨c, hc, rfl⟩
    rw [redirect_dst, ← h.pending c hc]
    by_cases hs : c.src = s
    · rw [redirect_of_eq hs, hs]
      exact Function.update_self ..
    · rw [redirect_of_ne hs]
      exact Function.update_of_ne (hsrc c hc) ..
  · intro v hv hrest
    have hvt : v ≠ t := fun hvt => ht (hvt ▸ hv)
    rw [Copy.run, Function.update_of_ne hvt]
    refine h.settled v hv fun c hc hcv => ?_
    exact hrest _ (Set.mem_image_of_mem _ hc) (by rw [redirect_dst, hcv])

end Progress

/-- `Flows cs u v`: some chain of the copies leads from `u` to `v`. -/
def Flows (cs : List (Copy α)) : α → α → Prop :=
  Relation.TransGen fun u v => ∃ c ∈ cs, c.src = u ∧ c.dst = v

section Graph
variable {cs : List (Copy α)}

omit [DecidableEq α] in
theorem flows_of_mem {c : Copy α} (hc : c ∈ cs) : Flows cs c.src c.dst :=
  .single ⟨c, hc, rfl, rfl⟩

omit [DecidableEq α] in
theorem flows_mono {ds : List (Copy α)} (h : ∀ c ∈ cs, c ∈ ds) {u v : α} (huv : Flows cs u v) :
    Flows ds u v := by
  refine Relation.TransGen.mono ?_ u v huv
  rintro a b ⟨c, hc, hcs⟩
  exact ⟨c, h c hc, hcs⟩

theorem sources_of_all_read (hd : (cs.map Copy.dst).Nodup)
    (hread : ∀ c ∈ cs, ∃ d ∈ cs, d.src = c.dst) :
    (cs.map Copy.src).Nodup ∧ ∀ c ∈ cs, ∃ d ∈ cs, d.dst = c.src := by
  have hsub : (cs.map Copy.dst).toFinset ⊆ (cs.map Copy.src).toFinset := by
    intro v hv
    obtain ⟨c, hc, rfl⟩ := List.mem_map.mp (List.mem_toFinset.mp hv)
    obtain ⟨d, hdc, hs⟩ := hread c hc
    exact List.mem_toFinset.mpr (List.mem_map.mpr ⟨d, hdc, hs⟩)
  have hcard : (cs.map Copy.dst).toFinset.card = cs.length := by
    rw [List.toFinset_card_of_nodup hd, List.length_map]
  have hle : (cs.map Copy.src).toFinset.card ≤ cs.length := by
    have := List.toFinset_card_le (cs.map Copy.src)
    rwa [List.length_map] at this
  have heq : (cs.map Copy.dst).toFinset = (cs.map Copy.src).toFinset :=
    Finset.eq_of_subset_of_card_le hsub (by omega)
  refine ⟨?_, ?_⟩
  · refine Multiset.coe_nodup.mp (Multiset.toFinset_card_eq_card_iff_nodup.mp ?_)
    change (cs.map Copy.src).toFinset.card = (cs.map Copy.src).length
    rw [← heq, hcard, List.length_map]
  · intro c hc
    have : c.src ∈ (cs.map Copy.dst).toFinset := by
      rw [heq]
      exact List.mem_toFinset.mpr (List.mem_map_of_mem hc)
    obtain ⟨d, hdc, hs⟩ := List.mem_map.mp (List.mem_toFinset.mp this)
    exact ⟨d, hdc, hs⟩

theorem exists_cycle (hne : cs ≠ []) (hread : ∀ c ∈ cs, ∃ d ∈ cs, d.src = c.dst) :
    ∃ v, Flows cs v v := by
  obtain ⟨c₀, hc₀⟩ := List.exists_mem_of_ne_nil cs hne
  choose! reader hmem hsrc using hread
  let walk : ℕ → Copy α := fun n => reader^[n] c₀
  have hwalk : ∀ n, walk n ∈ cs := by
    intro n
    induction n with
    | zero => exact hc₀
    | succ n ih =>
      change reader^[n + 1] c₀ ∈ cs
      rw [Function.iterate_succ_apply']
      exact hmem _ ih
  have hstep : ∀ n, (walk (n + 1)).src = (walk n).dst := by
    intro n
    change (reader^[n + 1] c₀).src = _
    rw [Function.iterate_succ_apply']
    exact hsrc _ (hwalk n)
  have hflow : ∀ i n, Flows cs (walk i).dst (walk (i + n + 1)).dst := by
    intro i n
    induction n with
    | zero =>
      have := flows_of_mem (hwalk (i + 1))
      rwa [hstep i] at this
    | succ n ih =>
      have := flows_of_mem (hwalk (i + n + 1 + 1))
      rw [hstep (i + n + 1)] at this
      exact ih.trans this
  -- Infinitely many steps through finitely many copies: two of them meet.
  have hfin : Set.Finite {c | c ∈ cs} := List.finite_toSet cs
  have := hfin.to_subtype
  obtain ⟨i, j, hij, heq⟩ :=
    Finite.exists_ne_map_eq_of_infinite fun n => (⟨walk n, hwalk n⟩ : {c // c ∈ cs})
  have heq' : walk i = walk j := congrArg Subtype.val heq
  rcases Nat.lt_or_gt_of_ne hij with hlt | hlt
  · have := hflow i (j - i - 1)
    rw [show i + (j - i - 1) + 1 = j by omega, ← heq'] at this
    exact ⟨_, this⟩
  · have := hflow j (i - j - 1)
    rw [show j + (i - j - 1) + 1 = i by omega, heq'] at this
    exact ⟨_, this⟩

end Graph

end Vmir.ParallelCopy
