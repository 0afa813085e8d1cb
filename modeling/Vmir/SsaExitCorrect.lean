import Vmir.SsaExitBuild

set_option autoImplicit false

namespace Vmir.SsaExit
open IntrusiveList ParallelCopy Ir

/-- Executing MOVE instructions in order; `env` gives the content of every value. -/
def runMoves {β : Type} : List Instr → (ℕ → β) → ℕ → β
  | ⟨[ret], .move value⟩ :: is, env =>
    runMoves is (Function.update env ret.value (env value.value))
  | _, env => env

theorem runMoves_map {β : Type} (moves : List (Copy ValueType)) (env : ℕ → β) :
    runMoves (moves.map moveInstr) env = runCopies (valueCopies moves) env := by
  induction moves generalizing env with
  | nil => rfl
  | cons m moves ih => exact ih _

/-- The predecessor leaves the block with every PHI destination holding what its operand held, and
no other existing value changed: the inserted moves are a parallel copy. -/
structure IsParallelCopy (nextValue : ℕ) (bb prebb : Bb) (moves : List Instr) : Prop where
  phis : ∀ (β : Type) (env : ℕ → β), ∀ p ∈ leadingPhis bb.instrs, ∀ n ∈ p.2.nodes,
    n.predecessor = prebb.id → runMoves moves env p.1.value = env n.value.value
  others : ∀ (β : Type) (env : ℕ → β) (v : ℕ), v < nextValue →
    (∀ p ∈ leadingPhis bb.instrs, (∃ n ∈ p.2.nodes, n.predecessor = prebb.id) → p.1.value ≠ v) →
    runMoves moves env v = env v

/-- `exit_ssa_edge` returns, and what it has inserted before the terminator of the predecessor is a
sequence of moves that amounts to the parallel copy. -/
def ExitsSsa (nextValue : ℕ) (bb prebb : Bb) : Prop :=
  ∃ (bound : ℕ) (body : List Instr) (last : Instr) (next' : ℕ) (moves : List (Copy ValueType)),
    prebb.instrs = body ++ [last] ∧
    (∀ fuel, bound ≤ fuel → exitSsaEdge fuel nextValue bb prebb =
      .ok (⟨prebb.id, body ++ moves.map moveInstr ++ [last]⟩, next')) ∧
    IsParallelCopy nextValue bb prebb (moves.map moveInstr)

/-- The PHIs of a block define different values, every value they mention exists, and the
predecessor has a terminator. -/
structure EdgeReady (nextValue : ℕ) (bb prebb : Bb) : Prop where
  distinct : ((leadingPhis bb.instrs).map (·.1.value)).Nodup
  bound : ∀ p ∈ leadingPhis bb.instrs,
    p.1.value < nextValue ∧ ∀ n ∈ p.2.nodes, n.value.value < nextValue
  terminator : prebb.instrs ≠ []

section Correct
variable {nextValue : ℕ} {bb prebb : Bb}

theorem phiCopy_eq {predecessor : ℕ} {ret : ValueType} {ns : PhiNodes} {n : PhiNode}
    (hn : n ∈ ns.nodes) (hp : n.predecessor = predecessor) :
    phiCopy predecessor ret ns.nodes =
      if ret.value = n.value.value then none else some ⟨ret.value, n.value.value⟩ := by
  unfold phiCopy
  cases hf : ns.nodes.find? (·.predecessor = predecessor) with
  | none =>
    have := List.find?_eq_none.mp hf n hn
    simp [hp] at this
  | some m =>
    have hm : m.predecessor = predecessor := by simpa using List.find?_some hf
    rw [List.inj_on_of_nodup_map ns.distinct (List.mem_of_find?_eq_some hf) hn (hm.trans hp.symm)]

theorem mem_edgeCopies {predecessor : ℕ} {is : List Instr} {c : Copy ℕ}
    (h : c ∈ edgeCopies predecessor is) : ∃ p ∈ leadingPhis is, ∃ n ∈ p.2.nodes,
      n.predecessor = predecessor ∧ c = ⟨p.1.value, n.value.value⟩ ∧
      p.1.value ≠ n.value.value := by
  obtain ⟨p, hp, hc⟩ := List.mem_filterMap.mp h
  unfold phiCopy at hc
  cases hf : p.2.nodes.find? (·.predecessor = predecessor) with
  | none => simp [hf] at hc
  | some n =>
    have hpred : n.predecessor = predecessor := by simpa using List.find?_some hf
    by_cases hself : p.1.value = n.value.value
    · simp [hf, hself] at hc
    · simp only [hf, hself, if_false, Option.some.injEq] at hc
      exact ⟨p, hp, n, List.mem_of_find?_eq_some hf, hpred, hc.symm, hself⟩

theorem edgeCopies_nodup (predecessor : ℕ) {is : List Instr}
    (h : ((leadingPhis is).map (·.1.value)).Nodup) :
    ((edgeCopies predecessor is).map Copy.dst).Nodup := by
  refine List.Nodup.sublist ?_ h
  unfold edgeCopies
  generalize leadingPhis is = ps
  induction ps with
  | nil => simp
  | cons p ps ih =>
    rw [List.filterMap_cons]
    cases hc : phiCopy predecessor p.1 p.2.nodes with
    | none => exact ih.cons _
    | some c =>
      rw [List.map_cons, List.map_cons, phiCopy_dst hc]
      exact ih.cons_cons _

theorem EdgeReady.copyGraph (h : EdgeReady nextValue bb prebb) :
    CopyGraph (edgeCopies prebb.id bb.instrs) nextValue := by
  refine ⟨edgeCopies_nodup _ h.distinct, fun c hc => ?_, fun c hc => ?_⟩
  · obtain ⟨p, _, n, _, _, rfl, hne⟩ := mem_edgeCopies hc
    exact Ne.symm hne
  · obtain ⟨p, hp, n, hn, _, rfl, _⟩ := mem_edgeCopies hc
    exact ⟨(h.bound p hp).2 n hn, (h.bound p hp).1⟩

theorem isParallelCopy_of_goal (h : EdgeReady nextValue bb prebb) {moves : List Instr}
    (hm : ∀ (β : Type) (env : ℕ → β) (v : ℕ), v < nextValue →
      runMoves moves env v = goal (edgeCopies prebb.id bb.instrs) env v) :
    IsParallelCopy nextValue bb prebb moves := by
  refine ⟨fun β env p hp n hn hpred => ?_, fun β env v hv hno => ?_⟩
  · rw [hm β env _ (h.bound p hp).1]
    by_cases hself : p.1.value = n.value.value
    · rw [goal_of_not_mem env, hself]
      intro c hc hcp
      obtain ⟨q, hq, m, hm', hmp, rfl, hne⟩ := mem_edgeCopies hc
      obtain rfl := List.inj_on_of_nodup_map h.distinct hq hp hcp
      obtain rfl := List.inj_on_of_nodup_map q.2.distinct hm' hn (hmp.trans hpred.symm)
      exact hne hself
    · have hc : (⟨p.1.value, n.value.value⟩ : Copy ℕ) ∈ edgeCopies prebb.id bb.instrs :=
        List.mem_filterMap.mpr ⟨p, hp, by rw [phiCopy_eq hn hpred, if_neg hself]⟩
      exact goal_of_mem h.copyGraph env hc
  · rw [hm β env v hv]
    refine goal_of_not_mem env fun c hc hcv => ?_
    obtain ⟨p, hp, n, hn, hpred, rfl, _⟩ := mem_edgeCopies hc
    exact hno p hp ⟨n, hn, hpred⟩ hcv

theorem goal_congr {β : Type} {cs ds : List (Copy ℕ)} {next : ℕ} (hcs : CopyGraph cs next)
    (hds : CopyGraph ds next) (h : ∀ c, c ∈ cs ↔ c ∈ ds) (env : ℕ → β) :
    goal cs env = goal ds env := by
  funext v
  by_cases hv : ∃ c ∈ cs, c.dst = v
  · obtain ⟨c, hc, rfl⟩ := hv
    rw [goal_of_mem hcs env hc, goal_of_mem hds env ((h c).mp hc)]
  · rw [goal_of_not_mem env fun c hc hcv => hv ⟨c, hc, hcv⟩,
      goal_of_not_mem env fun c hc hcv => hv ⟨c, (h c).mpr hc, hcv⟩]

theorem Built.lifting {g : PhiLift} (h : Built nextValue g) (hg : CopyGraph g.edges nextValue) :
    Lifting g.edges nextValue g := by
  obtain ⟨l, hb, _⟩ := h
  refine
    { sub := List.Sublist.refl _
      src := hb.src
      dst := hb.dst
      vt := hb.vt
      closed := fun e he hne => absurd he hne
      offCycle := fun e he hne => absurd he hne
      nextValue := hb.nextValue
      progress := fun β env => ?_ }
  rw [hb.moves]
  refine ⟨fun c hc => (goal_of_mem hg env hc).symm, fun v _ hno => ?_⟩
  exact (goal_of_not_mem env hno).symm

theorem Built.nodeList {g : PhiLift} (h : Built nextValue g) : NodeList g.edges g := by
  obtain ⟨l, hb, hl⟩ := h
  refine ⟨l, hb.linked, fun v => ?_, fun b hb' => ?_⟩
  · rw [hl]
    constructor
    · rintro ⟨e, he, rfl | rfl⟩
      · exact Or.inl ⟨e, he, rfl⟩
      · by_cases hread : ∃ d ∈ g.edges, d.src = e.dst
        · exact Or.inl hread
        · exact Or.inr ⟨⟨e, he, rfl⟩, fun d hd hs => hread ⟨d, hd, hs⟩⟩
    · rintro (⟨e, he, rfl⟩ | ⟨⟨e, he, rfl⟩, _⟩)
      · exact ⟨e, he, Or.inl rfl⟩
      · exact ⟨e, he, Or.inr rfl⟩
  · obtain ⟨_, ⟨e, he, hs⟩, hfree⟩ := hb'
    exact absurd hs (hfree e he)

/-- No copy cycle, or copies off the cycles that hang together. -/
def Separable (cs : List (Copy ℕ)) : Prop :=
  (∀ v, ¬ Flows cs v v) ∨ Chained cs

theorem separable_congr {cs ds : List (Copy ℕ)} (h : ∀ c, c ∈ cs ↔ c ∈ ds) :
    Separable cs → Separable ds := by
  have hflows : Flows cs = Flows ds := by
    unfold Flows
    simp only [h]
  unfold Separable Chained
  rw [hflows]
  simp only [h]
  exact id

theorem liftMoves_ok {g : PhiLift} (h : Built nextValue g) (hg : CopyGraph g.edges nextValue)
    (hsep : Separable g.edges) {fuel : ℕ} (hf : g.edges.length < fuel) :
    ∃ g', liftMoves fuel g = .ok g' ∧ ∀ (β : Type) (env : ℕ → β) (v : ℕ), v < nextValue →
      runCopies (valueCopies g'.moves) env v = goal g.edges env v := by
  obtain ⟨g₁, h1, ⟨h2, h3⟩, h4, h5⟩ := leafPhase_ok (g := g)
    (P := fun g' => Lifting g.edges nextValue g' ∧ (Chained g.edges → NodeList g.edges g'))
    (fun g' hP => hg.nodup.sublist hP.1.sub)
    (fun g' ple hP hple hnil => ⟨hP.1.leafMove hple hnil,
      fun hch => (hP.2 hch).leafMove hg hP.1 hch hple hnil⟩)
    hf ⟨h.lifting hg, fun _ => h.nodeList⟩
  unfold liftMoves
  rw [h1]
  change ∃ g', (if g₁.edges = [] then _ else _) = _ ∧ _
  by_cases hnil : g₁.edges = []
  · refine ⟨g₁, if_pos hnil, fun β env v hv => ?_⟩
    refine (h2.progress β env).settled v hv fun c hc => ?_
    simp [edgeSet, hnil] at hc
  · -- The first phase is stuck: what is left is a permutation.
    have hread : ∀ c ∈ g₁.edges, ∃ d ∈ g₁.edges, d.src = c.dst := by
      intro c hc
      by_contra hno
      exact h5 c hc ((h2.src_nil_iff _).mpr fun d hd hs => hno ⟨d, hd, hs⟩)
    have hcyc : Cycles g.edges g₁.edges := ⟨h2.sub, hread⟩
    obtain ⟨v, hv⟩ := exists_cycle hnil hread
    have hch : Chained g.edges := hsep.resolve_left fun hno =>
      hno v (flows_mono (fun c hc => h2.mem hc) hv)
    obtain ⟨l, hl, hmem, _⟩ := h3 hch
    have hp : Pending g.edges nextValue g₁.edges (edgeSet g₁.edges) g₁ :=
      { dst := h2.dst
        vt := h2.vt
        nextValue := h2.nextValue.ge
        nodes := by
          refine ⟨l, hl, fun v => (hmem v).trans ⟨?_, fun hedge => ?_⟩⟩
          · rintro (⟨e, he, rfl⟩ | ⟨hd, _⟩)
            · exact (hcyc.permutation hg).2 e he
            · exact hd
          · obtain ⟨e, he, hd⟩ := hedge
            obtain ⟨d, hdm, hds⟩ := hread e he
            exact Or.inl ⟨d, hdm, hds.trans hd⟩
        progress := h2.progress }
    obtain ⟨g₂, h6, h7⟩ := cyclePhase_ok hg (n := fuel) hcyc (by omega) hp
    exact ⟨g₂, (if_neg hnil).trans h6, fun β env v hv => (h7.progress β env).finish hv⟩

/-- On a separable copy graph, `exit_ssa_edge` replaces the PHIs by a parallel copy. -/
theorem exitSsaEdge_isParallelCopy (h : EdgeReady nextValue bb prebb)
    (hsep : Separable (edgeCopies prebb.id bb.instrs)) : ExitsSsa nextValue bb prebb := by
  obtain ⟨g, h1, h2, h3⟩ := (built_start nextValue).addPhis prebb.id h.distinct (by
    simp [PhiLift.start])
  have hmem : ∀ c, c ∈ edgeCopies prebb.id bb.instrs ↔ c ∈ g.edges := by
    simp [h3, PhiLift.start]
  have hg : CopyGraph g.edges nextValue := by
    refine ⟨?_, fun e he => h.copyGraph.noSelf e ((hmem e).mpr he),
      fun e he => h.copyGraph.bound e ((hmem e).mpr he)⟩
    rw [h3]
    simpa [PhiLift.start] using h.copyGraph.distinct
  have hlast := List.dropLast_append_getLast h.terminator
  by_cases hnil : g.edges = []
  · refine ⟨0, prebb.instrs.dropLast, prebb.instrs.getLast h.terminator, nextValue, [],
      hlast.symm, fun fuel _ => ?_, isParallelCopy_of_goal h fun β env v _ => ?_⟩
    · unfold exitSsaEdge
      rw [h1]
      simp [hnil, Bind.bind, Except.bind, hlast]
    · refine (goal_of_not_mem env fun c hc => ?_).symm
      rw [hmem, hnil] at hc
      simp at hc
  · obtain ⟨g', h4, h5⟩ := liftMoves_ok h2 hg (separable_congr hmem hsep)
      (Nat.lt_succ_self g.edges.length)
    refine ⟨g.edges.length + 1, prebb.instrs.dropLast, prebb.instrs.getLast h.terminator,
      g'.nextValue, g'.moves, hlast.symm, fun fuel hf => ?_,
      isParallelCopy_of_goal h fun β env v hv => ?_⟩
    · unfold exitSsaEdge
      rw [h1, List.getLast?_eq_getLast_of_ne_nil h.terminator]
      simp [hnil, Bind.bind, Except.bind, liftMoves_mono hf h4]
    · rw [runMoves_map, h5 β env v hv, goal_congr hg h.copyGraph fun c => (hmem c).symm]

/-- A block with a PHI for each of the given copies on the edge from block 0. -/
def phiBlock (copies : List (Copy ℕ)) : Bb :=
  ⟨1, copies.map fun c => ⟨[⟨c.dst, 0⟩], .phi ⟨[⟨0, ⟨c.src, 0⟩⟩], List.nodup_singleton _⟩⟩⟩

def branchBlock : Bb := ⟨0, [⟨[], .br none 1 0⟩]⟩

/-- A chain of two copies beside a swap. -/
theorem exitSsaEdge_isParallelCopy_chain :
    ExitsSsa 5 (phiBlock [⟨0, 1⟩, ⟨1, 2⟩, ⟨3, 4⟩, ⟨4, 3⟩]) branchBlock := by
  refine exitSsaEdge_isParallelCopy ⟨by decide, by decide, by decide⟩ (Or.inr ?_)
  have h01 : Flows [⟨0, 1⟩, ⟨1, 2⟩, ⟨3, 4⟩, ⟨4, 3⟩] 1 0 := .single ⟨⟨0, 1⟩, by decide, rfl, rfl⟩
  have h34 : Flows [⟨0, 1⟩, ⟨1, 2⟩, ⟨3, 4⟩, ⟨4, 3⟩] 4 3 := .single ⟨⟨3, 4⟩, by decide, rfl, rfl⟩
  have h43 : Flows [⟨0, 1⟩, ⟨1, 2⟩, ⟨3, 4⟩, ⟨4, 3⟩] 3 4 := .single ⟨⟨4, 3⟩, by decide, rfl, rfl⟩
  change Chained [⟨0, 1⟩, ⟨1, 2⟩, ⟨3, 4⟩, ⟨4, 3⟩]
  intro b hb c hc _ hbb hcc hne
  simp only [List.mem_cons, List.not_mem_nil, or_false] at hb hc
  rcases hb with rfl | rfl | rfl | rfl
  · rcases hc with rfl | rfl | rfl | rfl
    · exact absurd rfl hne
    · exact Or.inr h01
    · exact absurd (h43.trans h34) hcc
    · exact absurd (h34.trans h43) hcc
  · rcases hc with rfl | rfl | rfl | rfl
    · exact Or.inl h01
    · exact absurd rfl hne
    · exact absurd (h43.trans h34) hcc
    · exact absurd (h34.trans h43) hcc
  · exact absurd (h43.trans h34) hbb
  · exact absurd (h34.trans h43) hbb

/-- A leaf copy made between the two unlinkings of the middle of a chain, beside a swap: the second
unlinking puts a node back whose destination edge is null. -/
theorem exitSsaEdge_unlinks_twice :
    EdgeReady 7 (phiBlock [⟨0, 1⟩, ⟨2, 3⟩, ⟨3, 4⟩, ⟨5, 6⟩, ⟨6, 5⟩]) branchBlock ∧
      ¬ ExitsSsa 7 (phiBlock [⟨0, 1⟩, ⟨2, 3⟩, ⟨3, 4⟩, ⟨5, 6⟩, ⟨6, 5⟩]) branchBlock := by
  refine ⟨⟨by decide, by decide, by decide⟩, ?_⟩
  rintro ⟨bound, body, last, next', moves, _, hrun, _⟩
  have hnull : exitSsaEdge (bound + 10) 7
      (phiBlock [⟨0, 1⟩, ⟨2, 3⟩, ⟨3, 4⟩, ⟨5, 6⟩, ⟨6, 5⟩]) branchBlock = .error .nullDeref := rfl
  have := hrun (bound + 10) (by omega)
  rw [hnull] at this
  simp at this

end Correct

end Vmir.SsaExit
