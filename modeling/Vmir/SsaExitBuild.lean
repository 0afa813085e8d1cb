import Vmir.SsaExitCyclePhase

set_option autoImplicit false

namespace Vmir.SsaExit
open IntrusiveList ParallelCopy Ir

def leadingPhis : List Instr → List (ValueType × PhiNodes)
  | ⟨ret :: _, .phi ns⟩ :: is => (ret, ns) :: leadingPhis is
  | _ => []

/-- The copy that a PHI needs on the edge from a predecessor, unless it is a copy to itself. -/
def phiCopy (predecessor : ℕ) (ret : ValueType) (ns : List PhiNode) : Option (Copy ℕ) :=
  match ns.find? (·.predecessor = predecessor) with
  | some n => if ret.value = n.value.value then none else some ⟨ret.value, n.value.value⟩
  | none => none

/-- The copies that the PHIs of a block need on the edge from a predecessor. -/
def edgeCopies (predecessor : ℕ) (is : List Instr) : List (Copy ℕ) :=
  (leadingPhis is).filterMap fun p => phiCopy predecessor p.1 p.2.nodes

/-- A copy graph under construction, with the listed nodes `l`. -/
structure Building (next : ℕ) (l : List ℕ) (g : PhiLift) : Prop where
  linked : Linked g.nodes l
  known : ∀ v, (∃ t, g.vt v = some t) ↔ v ∈ l
  vt : ∀ v t, g.vt v = some t → t.value = v
  src : ∀ v e, e ∈ g.src v ↔ e ∈ g.edges ∧ e.src = v
  dst : ∀ v e, g.dst v = some e ↔ e ∈ g.edges ∧ e.dst = v
  ends : ∀ e ∈ g.edges, e.src ∈ l ∧ e.dst ∈ l
  moves : g.moves = []
  nextValue : g.nextValue = next

/-- The finished graph: the nodes are the ends of the edges. -/
def Built (next : ℕ) (g : PhiLift) : Prop :=
  ∃ l, Building next l g ∧ ∀ v, v ∈ l ↔ ∃ e ∈ g.edges, e.src = v ∨ e.dst = v

section Build
variable {next : ℕ} {l : List ℕ} {g : PhiLift}

theorem built_start (next : ℕ) : Built next (.start next) :=
  ⟨[], { linked := linked_init
         known := by simp [PhiLift.start]
         vt := by simp [PhiLift.start]
         src := by simp [PhiLift.start]
         dst := by simp [PhiLift.start]
         ends := by simp [PhiLift.start]
         moves := rfl
         nextValue := rfl }, by simp [PhiLift.start]⟩

theorem phiLiftNode_edges (g : PhiLift) (t : ValueType) : (phiLiftNode g t).edges = g.edges := by
  unfold phiLiftNode
  split <;> rfl

theorem Building.phiLiftNode (h : Building next l g) (t : ValueType) :
    ∃ l', Building next l' (phiLiftNode g t) ∧ ∀ v, v ∈ l' ↔ v = t.value ∨ v ∈ l := by
  unfold SsaExit.phiLiftNode
  cases hv : g.vt t.value with
  | some t' =>
    refine ⟨l, h, fun v => ⟨Or.inr, ?_⟩⟩
    rintro (rfl | hm)
    · exact (h.known _).mp ⟨t', hv⟩
    · exact hm
  | none =>
    have hnew : t.value ∉ l := fun hm => by
      obtain ⟨t', ht'⟩ := (h.known _).mpr hm
      simp [hv] at ht'
    refine ⟨t.value :: l, ?_, fun v => List.mem_cons⟩
    refine
      { linked := insertHead_linked h.linked hnew
        known := ?_
        vt := ?_
        src := ?_
        dst := ?_
        ends := fun e he => ⟨List.mem_cons_of_mem _ (h.ends e he).1,
          List.mem_cons_of_mem _ (h.ends e he).2⟩
        moves := h.moves
        nextValue := h.nextValue }
    · intro v
      change (∃ t', Function.update g.vt t.value (some t) v = some t') ↔ v ∈ t.value :: l
      by_cases hvt : v = t.value
      · simp [hvt]
      · rw [Function.update_of_ne hvt, h.known, List.mem_cons]
        tauto
    · intro v t' ht'
      change Function.update g.vt t.value (some t) v = some t' at ht'
      by_cases hvt : v = t.value
      · rw [hvt, Function.update_self] at ht'
        rw [hvt, ← Option.some.inj ht']
      · rw [Function.update_of_ne hvt] at ht'
        exact h.vt v t' ht'
    · intro v e
      change e ∈ Function.update g.src t.value [] v ↔ e ∈ g.edges ∧ e.src = v
      by_cases hvt : v = t.value
      · rw [hvt, Function.update_self]
        simp only [List.not_mem_nil, false_iff, not_and]
        exact fun he hs => hnew (hs ▸ (h.ends e he).1)
      · rw [Function.update_of_ne hvt]
        exact h.src v e
    · intro v e
      change Function.update g.dst t.value none v = some e ↔ e ∈ g.edges ∧ e.dst = v
      by_cases hvt : v = t.value
      · rw [hvt, Function.update_self]
        simp only [reduceCtorEq, false_iff, not_and]
        exact fun he hd => hnew (hd ▸ (h.ends e he).2)
      · rw [Function.update_of_ne hvt]
        exact h.dst v e

theorem Building.phiLiftEdge (h : Building next l g) (ple : PhiLiftEdge)
    (hnew : ∀ e ∈ g.edges, e.dst ≠ ple.dst) (hends : ple.src ∈ l ∧ ple.dst ∈ l) :
    Building next l (phiLiftEdge g ple) := by
  refine
    { linked := h.linked
      known := h.known
      vt := h.vt
      src := ?_
      dst := ?_
      ends := ?_
      moves := h.moves
      nextValue := h.nextValue }
  · intro v e
    change e ∈ Function.update g.src ple.src (ple :: g.src ple.src) v ↔
      e ∈ ple :: g.edges ∧ e.src = v
    by_cases hv : v = ple.src
    · rw [hv, Function.update_self, List.mem_cons, List.mem_cons, h.src]
      constructor
      · rintro (rfl | ⟨he, hs⟩)
        · exact ⟨Or.inl rfl, rfl⟩
        · exact ⟨Or.inr he, hs⟩
      · tauto
    · rw [Function.update_of_ne hv, h.src, List.mem_cons]
      refine ⟨fun ⟨he, hs⟩ => ⟨Or.inr he, hs⟩, ?_⟩
      rintro ⟨rfl | he, hs⟩
      · exact absurd hs.symm hv
      · exact ⟨he, hs⟩
  · intro v e
    change Function.update g.dst ple.dst (some ple) v = some e ↔ e ∈ ple :: g.edges ∧ e.dst = v
    by_cases hv : v = ple.dst
    · rw [hv, Function.update_self, Option.some.injEq, List.mem_cons]
      constructor
      · rintro rfl
        exact ⟨Or.inl rfl, rfl⟩
      · rintro ⟨rfl | he, hd⟩
        · rfl
        · exact absurd hd (hnew e he)
    · rw [Function.update_of_ne hv, h.dst, List.mem_cons]
      refine ⟨fun ⟨he, hd⟩ => ⟨Or.inr he, hd⟩, ?_⟩
      rintro ⟨rfl | he, hd⟩
      · exact absurd hd.symm hv
      · exact ⟨he, hd⟩
  · intro e he
    rcases List.mem_cons.mp he with rfl | he
    · exact hends
    · exact h.ends e he

theorem Built.addEdge (h : Built next g) {ret value : ValueType} (hne : ret.value ≠ value.value)
    (hnew : ∀ e ∈ g.edges, e.dst ≠ ret.value) :
    ∃ g', addEdge g ret value = .ok g' ∧ Built next g' ∧
      g'.edges = ⟨ret.value, value.value⟩ :: g.edges := by
  obtain ⟨l, hb, hl⟩ := h
  obtain ⟨l₁, hb₁, hl₁⟩ := hb.phiLiftNode ret
  obtain ⟨l₂, hb₂, hl₂⟩ := hb₁.phiLiftNode value
  have hedges : (phiLiftNode (phiLiftNode g ret) value).edges = g.edges := by
    rw [phiLiftNode_edges, phiLiftNode_edges]
  have hnone : (phiLiftNode (phiLiftNode g ret) value).dst ret.value = none := by
    rw [Option.eq_none_iff_forall_ne_some]
    intro e he
    have := (hb₂.dst ret.value e).mp he
    rw [hedges] at this
    exact hnew e this.1 this.2
  let ple : PhiLiftEdge := ⟨ret.value, value.value⟩
  have hedge := hb₂.phiLiftEdge ple (by rw [hedges]; exact hnew)
    ⟨(hl₂ _).mpr (Or.inl rfl), (hl₂ _).mpr (Or.inr ((hl₁ _).mpr (Or.inl rfl)))⟩
  have hcons : (phiLiftEdge (phiLiftNode (phiLiftNode g ret) value) ple).edges = ple :: g.edges :=
    congrArg (ple :: ·) hedges
  refine ⟨_, ?_, ⟨l₂, hedge, ?_⟩, hcons⟩
  · simp [SsaExit.addEdge, hne, hnone, ple]
  · intro v
    rw [hl₂, hl₁, hl, hcons]
    simp only [List.mem_cons, exists_eq_or_imp, ple]
    constructor
    · rintro (rfl | rfl | hv)
      · exact Or.inl (Or.inl rfl)
      · exact Or.inl (Or.inr rfl)
      · exact Or.inr hv
    · rintro ((rfl | rfl) | hv)
      · exact Or.inl rfl
      · exact Or.inr (Or.inl rfl)
      · exact Or.inr (Or.inr hv)

theorem addPhi_none {predecessor : ℕ} {ret : ValueType} {ns : List PhiNode}
    (h : ∀ n ∈ ns, n.predecessor ≠ predecessor) : addPhi g predecessor ret ns = .ok g := by
  induction ns with
  | nil => rfl
  | cons n ns ih =>
    rw [addPhi, if_neg (h n (by simp))]
    exact ih fun m hm => h m (List.mem_cons_of_mem _ hm)

theorem Built.addPhi (h : Built next g) (predecessor : ℕ) {ret : ValueType} {ns : List PhiNode}
    (hns : (ns.map PhiNode.predecessor).Nodup) (hnew : ∀ e ∈ g.edges, e.dst ≠ ret.value) :
    ∃ g', addPhi g predecessor ret ns = .ok g' ∧ Built next g' ∧
      g'.edges = (phiCopy predecessor ret ns).toList ++ g.edges := by
  induction ns with
  | nil => exact ⟨g, rfl, h, rfl⟩
  | cons n ns ih =>
    obtain ⟨hn, hns⟩ := List.nodup_cons.mp hns
    rw [SsaExit.addPhi]
    by_cases hp : n.predecessor = predecessor
    · have hrest : ∀ m ∈ ns, m.predecessor ≠ predecessor := fun m hm hmp =>
        hn (List.mem_map.mpr ⟨m, hm, hmp.trans hp.symm⟩)
      have hfind : phiCopy predecessor ret (n :: ns) =
          if ret.value = n.value.value then none else some ⟨ret.value, n.value.value⟩ := by
        simp [phiCopy, hp]
      rw [if_pos hp, hfind]
      by_cases hself : ret.value = n.value.value
      · refine ⟨g, ?_, h, by simp [hself]⟩
        rw [SsaExit.addEdge, if_pos hself]
        exact addPhi_none hrest
      · obtain ⟨g', h1, h2, h3⟩ := h.addEdge hself hnew
        refine ⟨g', ?_, h2, by simpa [hself] using h3⟩
        rw [h1]
        exact addPhi_none hrest
    · have hfind : phiCopy predecessor ret (n :: ns) = phiCopy predecessor ret ns := by
        simp [phiCopy, hp]
      rw [if_neg hp, hfind]
      exact ih hns

theorem phiCopy_dst {predecessor : ℕ} {ret : ValueType} {ns : List PhiNode} {c : Copy ℕ}
    (h : phiCopy predecessor ret ns = some c) : c.dst = ret.value := by
  unfold phiCopy at h
  split at h
  · split at h
    · simp at h
    · rw [← Option.some.inj h]
  · simp at h

theorem Built.addPhis (predecessor : ℕ) {is : List Instr} (h : Built next g)
    (hd : ((leadingPhis is).map (·.1.value)).Nodup)
    (hnew : ∀ e ∈ g.edges, ∀ p ∈ leadingPhis is, e.dst ≠ p.1.value) :
    ∃ g', addPhis g predecessor is = .ok g' ∧ Built next g' ∧
      g'.edges = (edgeCopies predecessor is).reverse ++ g.edges := by
  induction is using leadingPhis.induct generalizing g with
  | case1 ret _ ns is ih =>
    rw [leadingPhis, List.map_cons, List.nodup_cons] at hd
    obtain ⟨g₁, h1, h2, h3⟩ := h.addPhi predecessor ns.distinct
      (fun e he => hnew e he (ret, ns) (by simp [leadingPhis]))
    obtain ⟨g₂, h4, h5, h6⟩ := ih h2 hd.2 (by
      intro e he p hp
      rw [h3, List.mem_append, Option.mem_toList] at he
      rcases he with he | he
      · rw [phiCopy_dst he]
        exact fun h' => hd.1 (List.mem_map.mpr ⟨p, hp, h'.symm⟩)
      · exact hnew e he p (by rw [leadingPhis]; exact List.mem_cons_of_mem _ hp))
    refine ⟨g₂, ?_, h5, ?_⟩
    · rw [SsaExit.addPhis, h1]
      exact h4
    · rw [h6, h3]
      cases hc : phiCopy predecessor ret ns.nodes with
      | none => simp [edgeCopies, leadingPhis, hc]
      | some c => simp [edgeCopies, leadingPhis, hc]
  | case2 is hno =>
    have hphis : leadingPhis is = [] := leadingPhis.eq_2 is hno
    refine ⟨g, ?_, h, by simp [edgeCopies, hphis]⟩
    exact SsaExit.addPhis.eq_2 g predecessor is hno

end Build

end Vmir.SsaExit
