import Vmir.SsaExit

set_option autoImplicit false

namespace Vmir.SsaExit
open IntrusiveList ParallelCopy Ir

def valueCopies (moves : List (Copy ValueType)) : List (Copy ℕ) :=
  moves.map fun m => ⟨m.dst.value, m.src.value⟩

/-- What the copies `all` must leave in every value. -/
def goal {β : Type} (all : List PhiLiftEdge) (env : ℕ → β) (v : ℕ) : β :=
  match all.find? (·.dst = v) with
  | some e => env e.src
  | none => env v

/-- The copies that one edge of the control flow graph needs. -/
structure CopyGraph (all : List PhiLiftEdge) (next : ℕ) : Prop where
  distinct : (all.map Copy.dst).Nodup
  noSelf : ∀ e ∈ all, e.src ≠ e.dst
  bound : ∀ e ∈ all, e.src < next ∧ e.dst < next

section CopyGraph
variable {all : List PhiLiftEdge} {next : ℕ}

theorem CopyGraph.eq_of_dst (h : CopyGraph all next) {c d : PhiLiftEdge} (hc : c ∈ all)
    (hd : d ∈ all) (hcd : c.dst = d.dst) : c = d :=
  List.inj_on_of_nodup_map h.distinct hc hd hcd

theorem CopyGraph.nodup (h : CopyGraph all next) : all.Nodup :=
  List.Nodup.of_map _ h.distinct

theorem goal_of_mem {β : Type} (h : CopyGraph all next) (env : ℕ → β) {e : PhiLiftEdge}
    (he : e ∈ all) : goal all env e.dst = env e.src := by
  unfold goal
  cases hf : all.find? (·.dst = e.dst) with
  | none =>
    have := List.find?_eq_none.mp hf e he
    simp at this
  | some d =>
    have hd : d.dst = e.dst := by simpa using List.find?_some hf
    rw [h.eq_of_dst (List.mem_of_find?_eq_some hf) he hd]

theorem goal_of_not_mem {β : Type} (env : ℕ → β) {v : ℕ} (h : ∀ e ∈ all, e.dst ≠ v) :
    goal all env v = env v := by
  unfold goal
  cases hf : all.find? (·.dst = v) with
  | none => rfl
  | some d =>
    have hd : d.dst = v := by simpa using List.find?_some hf
    exact absurd hd (h d (List.mem_of_find?_eq_some hf))

end CopyGraph

def edgeSet (es : List PhiLiftEdge) : Set (Copy ℕ) := {e | e ∈ es}

theorem edgeSet_filter (es : List PhiLiftEdge) (c : PhiLiftEdge) :
    edgeSet (es.filter (· ≠ c)) = edgeSet es \ {c} := by
  ext e
  simp [edgeSet]

/-- The part of a state that stands for the copies `all`: which of them are still to be made, and
that every value is on its way to its goal. -/
structure Lifting (all : List PhiLiftEdge) (next : ℕ) (g : PhiLift) : Prop where
  sub : g.edges.Sublist all
  src : ∀ v e, e ∈ g.src v ↔ e ∈ g.edges ∧ e.src = v
  dst : ∀ v e, g.dst v = some e ↔ e ∈ all ∧ e.dst = v
  vt : ∀ v t, g.vt v = some t → t.value = v
  closed : ∀ e ∈ all, e ∉ g.edges → ∀ d ∈ g.edges, d.src ≠ e.dst
  offCycle : ∀ e ∈ all, e ∉ g.edges → ¬ Flows all e.dst e.dst
  nextValue : g.nextValue = next
  progress : ∀ (β : Type) (env : ℕ → β), Progress (· < next) (goal all env) (edgeSet g.edges)
    (runCopies (valueCopies g.moves) env)

theorem plnVt_value {g : PhiLift} (h : ∀ v t, g.vt v = some t → t.value = v) (v : ℕ) :
    (g.plnVt v).value = v := by
  unfold PhiLift.plnVt
  cases hv : g.vt v with
  | none => rfl
  | some t => exact h v t hv

theorem valueCopies_insertMove (g : PhiLift) (ret value : ValueType) :
    valueCopies (insertMove g ret value).moves =
      valueCopies g.moves ++ [⟨ret.value, value.value⟩] := by
  simp [valueCopies, insertMove]

section Lifting
variable {all : List PhiLiftEdge} {next : ℕ} {g : PhiLift}

theorem Lifting.mem (h : Lifting all next g) {e : PhiLiftEdge} (he : e ∈ g.edges) : e ∈ all :=
  h.sub.subset he

/-- The empty `pln_src` of a node says that no pending copy reads it. -/
theorem Lifting.src_nil_iff (h : Lifting all next g) (v : ℕ) :
    g.src v = [] ↔ ∀ e ∈ g.edges, e.src ≠ v := by
  rw [List.eq_nil_iff_forall_not_mem]
  simp only [h.src, not_and, ne_eq]

theorem leafMove_edges (g : PhiLift) (ple : PhiLiftEdge) :
    (leafMove g ple).edges = g.edges.filter (· ≠ ple) := rfl

theorem leafMove_src (g : PhiLift) (ple : PhiLiftEdge) :
    (leafMove g ple).src = Function.update g.src ple.src ((g.src ple.src).filter (· ≠ ple)) := rfl

theorem Lifting.leaf_offCycle (h : Lifting all next g) {v : ℕ} (hleaf : ∀ d ∈ g.edges, d.src ≠ v) :
    ¬ Flows all v v := by
  intro hcyc
  obtain ⟨w, ⟨d, hd, hsrc, hdst⟩, hwv⟩ := Relation.TransGen.head'_iff.mp hcyc
  refine h.offCycle d hd (fun hd' => hleaf d hd' hsrc) ?_
  rw [hdst]
  exact Relation.TransGen.tail' hwv ⟨d, hd, hsrc, hdst⟩

theorem Lifting.leafMove (h : Lifting all next g) {ple : PhiLiftEdge}
    (hple : ple ∈ g.edges) (hleaf : g.src ple.dst = []) :
    Lifting all next (leafMove g ple) := by
  have hread := (h.src_nil_iff ple.dst).mp hleaf
  refine
    { sub := List.filter_sublist.trans h.sub
      src := ?_
      dst := h.dst
      vt := h.vt
      closed := ?_
      offCycle := ?_
      nextValue := h.nextValue
      progress := ?_ }
  · intro v e
    rw [leafMove_edges, leafMove_src]
    by_cases hv : v = ple.src
    · subst hv
      rw [Function.update_self, List.mem_filter, List.mem_filter, h.src]
      tauto
    · rw [Function.update_of_ne hv, h.src, List.mem_filter]
      refine ⟨fun ⟨he, hes⟩ => ⟨⟨he, ?_⟩, hes⟩, fun ⟨⟨he, _⟩, hes⟩ => ⟨he, hes⟩⟩
      have : e ≠ ple := fun h' => hv (by rw [← hes, h'])
      simpa using this
  · intro e he hne d hd
    rw [leafMove_edges] at hne hd
    have hd' := List.mem_of_mem_filter hd
    by_cases hep : e = ple
    · rw [hep]
      exact hread d hd'
    · refine h.closed e he (fun h' => hne (List.mem_filter.mpr ⟨h', by simpa using hep⟩)) d hd'
  · intro e he hne
    rw [leafMove_edges] at hne
    by_cases hep : e = ple
    · rw [hep]
      exact h.leaf_offCycle hread
    · exact h.offCycle e he fun h' => hne (List.mem_filter.mpr ⟨h', by simpa using hep⟩)
  · intro β env
    have hmoves : (SsaExit.leafMove g ple).moves =
        (insertMove g (g.plnVt ple.dst) (g.plnVt ple.src)).moves := rfl
    rw [hmoves, valueCopies_insertMove, runCopies_concat, plnVt_value h.vt, plnVt_value h.vt,
      leafMove_edges, edgeSet_filter]
    exact (h.progress β env).leaf hple fun d hd _ => hread d hd

theorem leafPass_preserves {P : PhiLift → Prop}
    (step : ∀ g ple, P g → ple ∈ g.edges → g.src ple.dst = [] → P (leafMove g ple))
    (l : List PhiLiftEdge) (hl : l.Nodup) (hsub : ∀ e ∈ l, e ∈ g.edges) (h : P g) :
    P (leafPass l g).1 := by
  induction l generalizing g with
  | nil => exact h
  | cons ple rest ih =>
    obtain ⟨hple, hrest⟩ := List.nodup_cons.mp hl
    rw [leafPass]
    split
    · exact ih hrest (fun e he => hsub e (List.mem_cons_of_mem _ he)) h
    · next hleaf =>
      refine ih hrest ?_ (step g ple h (hsub ple (by simp)) (by simpa using hleaf))
      intro e he
      have hne : e ≠ ple := fun h' => hple (h' ▸ he)
      rw [leafMove_edges]
      exact List.mem_filter.mpr ⟨hsub e (List.mem_cons_of_mem _ he), by simpa using hne⟩

theorem leafPass_edges_le (l : List PhiLiftEdge) (g : PhiLift) :
    (leafPass l g).1.edges.length ≤ g.edges.length := by
  induction l generalizing g with
  | nil => exact le_rfl
  | cons ple rest ih =>
    rw [leafPass]
    split
    · exact ih g
    · exact (ih _).trans (List.length_filter_le _ _)

theorem leafPass_progress (l : List PhiLiftEdge) (g : PhiLift) (hsub : ∀ e ∈ l, e ∈ g.edges)
    (h : (leafPass l g).2 = true) : (leafPass l g).1.edges.length < g.edges.length := by
  induction l generalizing g with
  | nil => simp [leafPass] at h
  | cons ple rest ih =>
    rw [leafPass] at h ⊢
    split at h
    · next hs =>
      rw [if_pos hs]
      exact ih g (fun e he => hsub e (List.mem_cons_of_mem _ he)) h
    · next hs =>
      rw [if_neg hs]
      refine lt_of_le_of_lt (leafPass_edges_le rest _) ?_
      refine List.length_filter_lt_length_iff_exists.mpr ⟨ple, hsub ple (by simp), by simp⟩

theorem leafPass_stuck (l : List PhiLiftEdge) (g : PhiLift) (h : (leafPass l g).2 = false) :
    (leafPass l g).1 = g ∧ ∀ e ∈ l, g.src e.dst ≠ [] := by
  induction l with
  | nil => exact ⟨rfl, by simp⟩
  | cons ple rest ih =>
    rw [leafPass] at h ⊢
    split at h
    · next hs =>
      rw [if_pos hs]
      obtain ⟨h1, h2⟩ := ih h
      exact ⟨h1, by simpa [hs] using h2⟩
    · simp at h

theorem leafPhase_ok {P : PhiLift → Prop} (nodup : ∀ g, P g → g.edges.Nodup)
    (step : ∀ g ple, P g → ple ∈ g.edges → g.src ple.dst = [] → P (leafMove g ple))
    {fuel : ℕ} (hf : g.edges.length < fuel) (h : P g) :
    ∃ g', leafPhase fuel g = .ok g' ∧ P g' ∧ g'.edges.length ≤ g.edges.length ∧
      ∀ e ∈ g'.edges, g'.src e.dst ≠ [] := by
  induction fuel generalizing g with
  | zero => omega
  | succ n ih =>
    have hP := leafPass_preserves step g.edges (nodup g h) (fun e he => he) h
    have hle := leafPass_edges_le g.edges g
    rw [leafPhase]
    by_cases hnil : (leafPass g.edges g).1.edges = []
    · exact ⟨_, by simp [hnil], hP, hle, by simp [hnil]⟩
    · cases hp : (leafPass g.edges g).2 with
      | true =>
        have hlt := leafPass_progress g.edges g (fun e he => he) hp
        obtain ⟨g', h1, h2, h3, h4⟩ := ih (by omega) hP
        exact ⟨g', by simpa [hnil] using h1, h2, by omega, h4⟩
      | false =>
        obtain ⟨hg, hs⟩ := leafPass_stuck g.edges g hp
        refine ⟨(leafPass g.edges g).1, by simp [hnil], hP, hle, ?_⟩
        rw [hg]
        exact hs

end Lifting

end Vmir.SsaExit
