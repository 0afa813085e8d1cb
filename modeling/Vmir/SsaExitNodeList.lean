import Vmir.SsaExitLeafPhase

set_option autoImplicit false

namespace Vmir.SsaExit
open IntrusiveList ParallelCopy Ir

/-- The copies off the cycles hang together: a destination that is also read is an ancestor or a
descendant of every other destination off the cycles. -/
def Chained (all : List PhiLiftEdge) : Prop :=
  ∀ b ∈ all, ∀ c ∈ all, (∃ e ∈ all, e.src = b.dst) → ¬ Flows all b.dst b.dst →
    ¬ Flows all c.dst c.dst → b.dst ≠ c.dst → Flows all b.dst c.dst ∨ Flows all c.dst b.dst

/-- The nodes that should be listed: those still read, and the leaves still to be written. -/
def Listed (all : List PhiLiftEdge) (g : PhiLift) (v : ℕ) : Prop :=
  (∃ e ∈ g.edges, e.src = v) ∨ ((∃ e ∈ g.edges, e.dst = v) ∧ ∀ e ∈ all, e.src ≠ v)

/-- The node was unlinked when its last reader was served, and is yet to be written and unlinked
once more. -/
def Waiting (all : List PhiLiftEdge) (g : PhiLift) (v : ℕ) : Prop :=
  (∃ e ∈ g.edges, e.dst = v) ∧ (∃ e ∈ all, e.src = v) ∧ ∀ e ∈ g.edges, e.src ≠ v

/-- The list holds what it should, and a waiting node still fits the gap it has left. -/
def NodeList (all : List PhiLiftEdge) (g : PhiLift) : Prop :=
  ∃ l, Linked g.nodes l ∧ (∀ v, v ∈ l ↔ Listed all g v) ∧
    ∀ b, Waiting all g b → ∃ l₁ l₂, l = l₁ ++ l₂ ∧ Gap g.nodes b l₁ l₂

section NodeList
variable {all : List PhiLiftEdge} {next : ℕ} {g : PhiLift}

theorem Lifting.written_of_flows (h : Lifting all next g) {u v : ℕ}
    (hu : ∀ d ∈ g.edges, d.src ≠ u) (huv : Flows all u v) :
    ∃ e ∈ all, e.dst = v ∧ e ∉ g.edges := by
  induction huv with
  | single he =>
    obtain ⟨e, he, hsrc, hdst⟩ := he
    exact ⟨e, he, hdst, fun h' => hu e h' hsrc⟩
  | tail _ he ih =>
    obtain ⟨e', he', hdst', hne'⟩ := ih
    obtain ⟨e, he, hsrc, hdst⟩ := he
    refine ⟨e, he, hdst, fun h' => h.closed e' he' hne' e h' ?_⟩
    rw [hsrc, hdst']

theorem Lifting.waiting_eq (hg : CopyGraph all next) (h : Lifting all next g)
    (hch : Chained all) {b : ℕ} (hb : Waiting all g b) {ple : PhiLiftEdge}
    (hple : ple ∈ g.edges) (hleaf : ∀ d ∈ g.edges, d.src ≠ ple.dst) : ple.dst = b := by
  obtain ⟨⟨e, he, rfl⟩, hread, hfree⟩ := hb
  by_contra hne
  have hwritten : ∀ d ∈ g.edges, ¬ ∃ c ∈ all, c.dst = d.dst ∧ c ∉ g.edges := by
    rintro d hd ⟨c, hc, hcd, hcg⟩
    exact hcg (hg.eq_of_dst hc (h.mem hd) hcd ▸ hd)
  rcases hch e (h.mem he) ple (h.mem hple) hread (h.leaf_offCycle hfree)
    (h.leaf_offCycle hleaf) (Ne.symm hne) with hflow | hflow
  · exact hwritten ple hple (h.written_of_flows hfree hflow)
  · exact hwritten e he (h.written_of_flows hleaf hflow)

theorem NodeList.unlink_dst (h : NodeList all g) {ple : PhiLiftEdge}
    (hple : ple ∈ g.edges) (hleaf : ∀ d ∈ g.edges, d.src ≠ ple.dst) :
    ∃ l, Linked (remove g.nodes ple.dst) l ∧ ∀ v, v ∈ l ↔ Listed all g v ∧ v ≠ ple.dst := by
  obtain ⟨l, hl, hmem, hgap⟩ := h
  by_cases hread : ∃ e ∈ all, e.src = ple.dst
  · -- The node was unlinked before.
    obtain ⟨l₁, l₂, rfl, hg⟩ := hgap ple.dst ⟨⟨ple, hple, rfl⟩, hread, hleaf⟩
    rw [remove_again hl hg]
    refine ⟨_, hl, fun v => ⟨fun hv => ⟨(hmem v).mp hv, ?_⟩, fun hv => (hmem v).mpr hv.1⟩⟩
    rintro rfl
    rcases (hmem ple.dst).mp hv with ⟨e, he, hs⟩ | ⟨_, hnone⟩
    · exact hleaf e he hs
    · obtain ⟨e, he, hs⟩ := hread
      exact hnone e he hs
  · have hlisted : ple.dst ∈ l :=
      (hmem _).mpr (Or.inr ⟨⟨ple, hple, rfl⟩, fun e he hs => hread ⟨e, he, hs⟩⟩)
    obtain ⟨l₁, l₂, rfl⟩ := List.append_of_mem hlisted
    refine ⟨_, remove_linked hl, fun v => ?_⟩
    have hnd := List.nodup_middle.mp hl.nodup
    rw [← hmem, List.mem_append, List.mem_append, List.mem_cons]
    constructor
    · intro hv
      refine ⟨by tauto, ?_⟩
      rintro rfl
      exact (List.nodup_cons.mp hnd).1 (List.mem_append.mpr hv)
    · tauto

theorem listed_leafMove_iff {ple : PhiLiftEdge} (hsub : ∀ e ∈ g.edges, e ∈ all)
    (hg : CopyGraph all next) (hple : ple ∈ g.edges) (hleaf : ∀ d ∈ g.edges, d.src ≠ ple.dst)
    (v : ℕ) : Listed all (leafMove g ple) v ↔ (Listed all g v ∧ v ≠ ple.dst) ∧
      (v = ple.src → ∃ e ∈ (leafMove g ple).edges, e.src = v) := by
  have hedges : ∀ e, e ∈ (leafMove g ple).edges ↔ e ∈ g.edges ∧ e ≠ ple := by
    intro e
    rw [leafMove_edges, List.mem_filter]
    simp
  constructor
  · rintro (⟨e, he, rfl⟩ | ⟨⟨e, he, rfl⟩, hnone⟩)
    · have he' := ((hedges e).mp he).1
      exact ⟨⟨Or.inl ⟨e, he', rfl⟩, hleaf e he'⟩, fun _ => ⟨e, he, rfl⟩⟩
    · obtain ⟨he', hne⟩ := (hedges e).mp he
      refine ⟨⟨Or.inr ⟨⟨e, he', rfl⟩, hnone⟩, ?_⟩, ?_⟩
      · exact fun hd => hne (hg.eq_of_dst (hsub e he') (hsub ple hple) hd)
      · exact fun hs => absurd hs.symm (hnone ple (hsub ple hple))
  · rintro ⟨⟨hl | ⟨⟨e, he, rfl⟩, hnone⟩, hv⟩, hsrc⟩
    · obtain ⟨e, he, rfl⟩ := hl
      by_cases hep : e = ple
      · exact Or.inl (hsrc (by rw [hep]))
      · exact Or.inl ⟨e, (hedges e).mpr ⟨he, hep⟩, rfl⟩
    · refine Or.inr ⟨⟨e, (hedges e).mpr ⟨he, ?_⟩, rfl⟩, hnone⟩
      rintro rfl
      exact hv rfl

theorem NodeList.leafMove (hg : CopyGraph all next) (h : Lifting all next g) (hch : Chained all)
    (hn : NodeList all g) {ple : PhiLiftEdge} (hple : ple ∈ g.edges)
    (hnil : g.src ple.dst = []) : NodeList all (leafMove g ple) := by
  have hleaf := (h.src_nil_iff ple.dst).mp hnil
  have h' := h.leafMove hple hnil
  have hlisted := listed_leafMove_iff (fun e he => h.mem he) hg hple hleaf
  -- Nothing but the source of the copy can be waiting now.
  have hwait : ∀ b, Waiting all (SsaExit.leafMove g ple) b → b = ple.src := by
    rintro b ⟨⟨e, he, rfl⟩, hread, hfree⟩
    by_contra hb
    rw [leafMove_edges, List.mem_filter] at he
    have hw : Waiting all g e.dst := by
      refine ⟨⟨e, he.1, rfl⟩, hread, fun d hd hs => ?_⟩
      have hdp : d ≠ ple := fun h' => hb (by rw [← hs, h'])
      exact hfree d (by rw [leafMove_edges, List.mem_filter]; exact ⟨hd, by simpa using hdp⟩) hs
    have := h.waiting_eq hg hch hw hple hleaf
    have := hg.eq_of_dst (h.mem he.1) (h.mem hple) this.symm
    simp [this] at he
  obtain ⟨l, hl, hmem⟩ := hn.unlink_dst hple hleaf
  have hsl : ple.src ∈ l :=
    (hmem _).mpr ⟨Or.inl ⟨ple, hple, rfl⟩, hg.noSelf ple (h.mem hple)⟩
  have hnodes : (SsaExit.leafMove g ple).nodes =
      if (SsaExit.leafMove g ple).src ple.src = [] then remove (remove g.nodes ple.dst) ple.src
      else remove g.nodes ple.dst := rfl
  by_cases hempty : (SsaExit.leafMove g ple).src ple.src = []
  · have hnone := (h'.src_nil_iff ple.src).mp hempty
    obtain ⟨l₁, l₂, rfl⟩ := List.append_of_mem hsl
    rw [if_pos hempty] at hnodes
    refine ⟨l₁ ++ l₂, by rw [hnodes]; exact remove_linked hl, fun v => ?_, fun b hb => ?_⟩
    · have hnd := List.nodup_cons.mp (List.nodup_middle.mp hl.nodup)
      rw [hlisted v, ← hmem v]
      constructor
      · intro hv
        have hne : v ≠ ple.src := fun h' => hnd.1 (h' ▸ hv)
        refine ⟨?_, fun h' => absurd h' hne⟩
        simp only [List.mem_append, List.mem_cons] at hv ⊢
        tauto
      · rintro ⟨hv, hs⟩
        have hne : v ≠ ple.src := by
          intro h'
          obtain ⟨e, he, hev⟩ := hs h'
          exact hnone e he (hev.trans h')
        simp only [List.mem_append, List.mem_cons] at hv ⊢
        tauto
    · obtain rfl := hwait b hb
      exact ⟨l₁, l₂, rfl, by rw [hnodes]; exact remove_gap hl⟩
  · have hsome : ∃ e ∈ (SsaExit.leafMove g ple).edges, e.src = ple.src := by
      by_contra hno
      exact hempty ((h'.src_nil_iff _).mpr fun e he hs => hno ⟨e, he, hs⟩)
    rw [if_neg hempty] at hnodes
    refine ⟨l, by rw [hnodes]; exact hl, fun v => ?_, fun b hb => ?_⟩
    · rw [hlisted v, ← hmem v]
      exact ⟨fun hv => ⟨hv, fun h' => h' ▸ hsome⟩, fun hv => hv.1⟩
    · obtain rfl := hwait b hb
      obtain ⟨e, he, hs⟩ := hsome
      exact absurd hs (hb.2.2 e he)

end NodeList

end Vmir.SsaExit
