import Vmir.CriticalEdgeRuns
import Vmir.RelatedLists

set_option autoImplicit false

/-!
# Critical edges are broken

What the parser leaves of the PHIs selects what the records do, so the loop starts with the paths of
the function as it comes.
-/
namespace Vmir.CriticalEdgesBroken
open Ir CriticalEdges CriticalEdgeStep CriticalEdgeRuns
open RelatedLists (forall₂_mem)

/-! ## The PHIs behind the parser -/

section
variable {nodes : List PhiNode} {phi : PhiNodes} {s : ℕ}

theorem selects_dropRepeated (last : PhiNode) (ns : List PhiNode) :
    selects (last :: dropRepeatedPredecessors last ns) s = selects (last :: ns) s := by
  induction ns generalizing last with
  | nil => rfl
  | cons n ns ih =>
    unfold dropRepeatedPredecessors
    split
    · rename_i heq
      rw [ih, selects_cons, selects_cons, selects_cons, heq]
      split <;> rfl
    · rw [selects_cons, ih, ← selects_cons]

theorem selects_mem {v : ValueType} (h : selects nodes s = some v) :
    ∃ n ∈ nodes, n.predecessor = s ∧ n.value = v := by
  obtain ⟨n, hn, hv⟩ := Option.map_eq_some_iff.mp h
  exact ⟨n, List.mem_of_find?_eq_some hn, by simpa using List.find?_some hn, hv⟩

theorem selects_none (h : selects nodes s = none) : ∀ n ∈ nodes, n.predecessor ≠ s := by
  have hnone := List.find?_eq_none.mp (Option.map_eq_none_iff.mp h)
  intro n hn heq
  exact hnone n hn (decide_eq_true heq)

theorem selects_perm {nodes' : List PhiNode} (hperm : nodes'.Perm nodes)
    (hvalues : ∀ n ∈ nodes, ∀ n' ∈ nodes, n.predecessor = n'.predecessor → n.value = n'.value) :
    selects nodes' s = selects nodes s := by
  cases h : selects nodes s with
  | none =>
    cases h' : selects nodes' s with
    | none => rfl
    | some v =>
      obtain ⟨n, hn, hs, -⟩ := selects_mem h'
      exact absurd hs (selects_none h n (hperm.mem_iff.mp hn))
  | some v =>
    obtain ⟨n, hn, hs, hv⟩ := selects_mem h
    cases h' : selects nodes' s with
    | none => exact absurd hs (selects_none h' n (hperm.mem_iff.mpr hn))
    | some v' =>
      obtain ⟨n', hn', hs', hv'⟩ := selects_mem h'
      rw [← hv, ← hv', hvalues n' (hperm.mem_iff.mp hn') n hn (hs'.trans hs.symm)]

theorem parsesPhi_selects (h : ParsesPhi nodes phi)
    (hvalues : ∀ n ∈ nodes, ∀ n' ∈ nodes, n.predecessor = n'.predecessor → n.value = n'.value) :
    selects phi.nodes s = selects nodes s := by
  obtain ⟨first, rest, hsorted, hperm, rfl⟩ := h
  exact (selects_dropRepeated first rest).trans (selects_perm hperm hvalues)

theorem mem_predecessors_iff : s ∈ predecessors phi ↔ selects phi.nodes s ≠ none := by
  unfold predecessors
  constructor
  · intro hmem hnone
    obtain ⟨n, hn, hs⟩ := List.mem_map.mp hmem
    exact selects_none hnone n hn hs
  · intro hne
    obtain ⟨v, hv⟩ := Option.ne_none_iff_exists'.mp hne
    obtain ⟨n, hn, hs, -⟩ := selects_mem hv
    exact List.mem_map.mpr ⟨n, hn, hs⟩

theorem parsesPhi_predecessors (h : ParsesPhi nodes phi)
    (hvalues : ∀ n ∈ nodes, ∀ n' ∈ nodes, n.predecessor = n'.predecessor → n.value = n'.value) :
    s ∈ predecessors phi ↔ s ∈ nodes.map PhiNode.predecessor := by
  rw [mem_predecessors_iff, parsesPhi_selects h hvalues]
  constructor
  · intro hne
    obtain ⟨v, hv⟩ := Option.ne_none_iff_exists'.mp hne
    obtain ⟨n, hn, hs, -⟩ := selects_mem hv
    exact List.mem_map.mpr ⟨n, hn, hs⟩
  · intro hmem hnone
    obtain ⟨n, hn, hs⟩ := List.mem_map.mp hmem
    exact selects_none hnone n hn hs

end

/-! ## The blocks behind the parser -/

section
variable {raw : List LlvmBb} {f : Function} {bbs : List Bb}

theorem parses_ids (h : List.Forall₂ ParsesBb raw bbs) : bbs.map Bb.id = raw.map LlvmBb.id := by
  induction h with
  | nil => rfl
  | cons hb _ ih => rw [List.map_cons, List.map_cons, hb.id, ih]

theorem parses_find (h : List.Forall₂ ParsesBb raw bbs) (b : ℕ) :
    (llvmFind raw b = none ∧ bbFind bbs b = none)
    ∨ ∃ r ib, llvmFind raw b = some r ∧ bbFind bbs b = some ib ∧ r ∈ raw ∧ ParsesBb r ib := by
  induction h with
  | nil => exact Or.inl ⟨rfl, rfl⟩
  | @cons r ib raw bbs hb _ ih =>
    unfold llvmFind bbFind at ih ⊢
    by_cases hid : r.id = b
    · right
      refine ⟨r, ib, ?_, ?_, List.mem_cons_self, hb⟩
      · rw [List.find?_cons, decide_eq_true hid]
      · rw [List.find?_cons, decide_eq_true (hb.id.trans hid)]
    · have hid' : ib.id ≠ b := fun h => hid (hb.id.symm.trans h)
      rw [List.find?_cons, List.find?_cons, decide_eq_false hid, decide_eq_false hid']
      rcases ih with h | ⟨r', ib', hr', hib', hmem, hparses⟩
      · exact Or.inl h
      · exact Or.inr ⟨r', ib', hr', hib', List.mem_cons_of_mem r hmem, hparses⟩

variable {r : LlvmBb} {ib : Bb}

theorem phis_append {parsed rest : List Instr} {rawPhis : List (List ValueType × List PhiNode)}
    (hparsed : List.Forall₂ (fun phi ii => ii.rets = phi.1 ∧ ∃ nodes, ParsesPhi phi.2 nodes
      ∧ ii.cls = .phi nodes) rawPhis parsed)
    (hrest : ∀ ii ∈ rest, ∀ nodes, ii.cls ≠ .phi nodes) :
    List.Forall₂ (fun raw phi => phi.1 = raw.1 ∧ ParsesPhi raw.2 phi.2) rawPhis
      (phis (parsed ++ rest)) := by
  induction hparsed with
  | nil =>
    cases rest with
    | nil => exact List.Forall₂.nil
    | cons ii iis =>
      have hnil : phis ([] ++ ii :: iis) = [] := by
        rw [List.nil_append, phis_cons]
        split
        · rename_i nodes hcls
          exact absurd hcls (hrest ii List.mem_cons_self nodes)
        · rfl
      rw [hnil]
      exact List.Forall₂.nil
  | @cons raw ii rawPhis parsed hphi _ ih =>
    obtain ⟨hrets, nodes, hparses, hcls⟩ := hphi
    have hcons : phis (ii :: parsed ++ rest) = (ii.rets, nodes) :: phis (parsed ++ rest) := by
      rw [List.cons_append, phis_cons, hcls]
    rw [hcons]
    exact List.Forall₂.cons ⟨hrets, hparses⟩ ih

section
variable (hwf : WellFormed raw) (hr : r ∈ raw) (hb : ParsesBb r ib)
include hwf hr hb

theorem parses_targets : lastTargets ib.instrs = lastTargets r.instrs := by
  obtain ⟨init, ii, -, hinstrs, -⟩ := hwf.terminated r hr
  obtain ⟨parsed, heq, -⟩ := hb.instrs
  rw [heq, hinstrs]
  exact lastTargets_append parsed (List.append_ne_nil_of_right_ne_nil init (List.cons_ne_nil _ _))

theorem parses_phis :
    List.Forall₂ (fun raw phi => phi.1 = raw.1 ∧ ParsesPhi raw.2 phi.2) r.phis (phis ib.instrs) := by
  obtain ⟨parsed, heq, hphis⟩ := hb.instrs
  rw [heq]
  exact phis_append hphis (hwf.noPhi r hr)

theorem parses_phi {phi : List ValueType × PhiNodes} (hphi : phi ∈ phis ib.instrs) :
    ∃ rawPhi ∈ r.phis, ParsesPhi rawPhi.2 phi.2 := by
  obtain ⟨rawPhi, hraw, -, hparses⟩ := forall₂_mem (parses_phis hwf hr hb) hphi
  exact ⟨rawPhi, hraw, hparses⟩

theorem parses_selected (s : ℕ) : (phis ib.instrs).map (fun phi => (phi.1, selects phi.2.nodes s))
    = r.phis.map fun phi => (phi.1, selects phi.2 s) := by
  have hvalues := hwf.values r hr
  have hall := parses_phis hwf hr hb
  generalize phis ib.instrs = parsed at hall
  generalize r.phis = rawPhis at hall hvalues
  induction hall with
  | nil => rfl
  | @cons raw phi rawPhis phis hparses _ ih =>
    rw [List.map_cons, List.map_cons, ih fun p hp => hvalues p (List.mem_cons_of_mem raw hp),
      hparses.1, parsesPhi_selects hparses.2 (hvalues raw List.mem_cons_self)]

omit hb in
theorem parses_targets_lt {t : ℕ} (ht : t ∈ lastTargets r.instrs) : t < raw.length := by
  obtain ⟨init, ii, bbs, hinstrs, htargets, hlt⟩ := hwf.terminated r hr
  apply hlt
  rw [hinstrs] at ht
  unfold lastTargets targets at ht
  rw [List.getLast?_concat] at ht
  simp only [htargets] at ht
  exact ht

end

variable (hwf : WellFormed raw) (hp : Parses raw f)
include hwf hp

theorem parsed_id {ib : Bb} (hib : ib ∈ f.bbs) : ib.id < raw.length := by
  have hmem : ib.id ∈ f.bbs.map Bb.id := List.mem_map_of_mem hib
  rw [parses_ids hp.bbs, hwf.ids] at hmem
  exact List.mem_range.mp hmem

theorem parsed_nodup : (f.bbs.map Bb.id).Nodup := by
  rw [parses_ids hp.bbs, hwf.ids]
  exact List.nodup_range

theorem parsed_found {b : ℕ} (hb : b < raw.length) : (bbFind f.bbs b).isSome = true := by
  have hmem : b ∈ f.bbs.map Bb.id := by
    rw [parses_ids hp.bbs, hwf.ids]
    exact List.mem_range.mpr hb
  obtain ⟨ib, hib, hid⟩ := List.mem_map.mp hmem
  rw [← hid, bbFind_of_mem (parsed_nodup hwf hp) hib]
  rfl

theorem parsed_terminated {ib : Bb} (hib : ib ∈ f.bbs) : Terminated f.bbs ib := by
  obtain ⟨r, hr, hb⟩ := forall₂_mem hp.bbs hib
  obtain ⟨init, ii, bbs, hinstrs, htargets, hlt⟩ := hwf.terminated r hr
  obtain ⟨parsed, heq, -⟩ := hb.instrs
  refine ⟨ii, bbs, ?_, htargets, fun t ht => parsed_found hwf hp (hlt t ht)⟩
  rw [heq, hinstrs, ← List.append_assoc, List.getLast?_concat]

theorem graph_parsed : graph f.bbs = llvmGraph raw := by
  apply CriticalEdges.Graph.ext
  · funext b k
    change (outgoing f.bbs b)[k]? = (llvmFind raw b).bind fun b => (lastTargets b.instrs)[k]?
    unfold outgoing instrsAt
    rcases parses_find hp.bbs b with ⟨hr, hib⟩ | ⟨r, ib, hr, hib, hmem, hb⟩
    · rw [hr, hib]
      rfl
    · rw [hr, hib, Option.bind_some, ← parses_targets hwf hmem hb]
  · funext s d
    dsimp only [graph, llvmGraph]
    unfold phisAt instrsAt
    rcases parses_find hp.bbs d with ⟨hr, hib⟩ | ⟨r, ib, hr, hib, hmem, hb⟩
    · rw [hr, hib]
      rfl
    · rw [hr, hib]
      exact parses_selected hwf hmem hb s

theorem parsed_outgoing {b t : ℕ} (ht : t ∈ outgoing f.bbs b) :
    ∃ r ∈ raw, r.id = b ∧ t ∈ lastTargets r.instrs := by
  obtain ⟨ib, -, -, hib, -⟩ := bbFind_of_outgoing ht
  obtain ⟨hmem, hid⟩ := bbFind_some hib
  obtain ⟨r, hr, hb⟩ := forall₂_mem hp.bbs hmem
  refine ⟨r, hr, hb.id.symm.trans hid, ?_⟩
  rw [← parses_targets hwf hr hb]
  unfold outgoing instrsAt at ht
  rw [hib] at ht
  exact ht

theorem parsed_phi {b : ℕ} {phi : List ValueType × PhiNodes} (hphi : phi ∈ phisAt f.bbs b) :
    ∃ r ∈ raw, r.id = b ∧ ∃ rawPhi ∈ r.phis, ParsesPhi rawPhi.2 phi.2 := by
  unfold phisAt instrsAt at hphi
  rcases parses_find hp.bbs b with ⟨hr, hib⟩ | ⟨r, ib, hr, hib, hmem, hb⟩
  · rw [hib] at hphi
    exact absurd hphi List.not_mem_nil
  · rw [hib] at hphi
    exact ⟨r, hmem, hb.id.symm.trans (bbFind_some hib).2, parses_phi hwf hmem hb hphi⟩

/-- The loop starts with the edges of `construct_cfg`. -/
theorem start_inv {edges : List Edge} (hnodup : edges.Nodup)
    (hedges : ∀ e, e ∈ edges ↔ e.dest ∈ outgoing f.bbs e.source) :
    Inv raw.length ((llvmGraph raw).arrive raw.length) { f with edges := [] } edges := by
  have hold : ∀ e ∈ edges, e.source < raw.length ∧ e.dest < raw.length := by
    intro e he
    obtain ⟨r, hr, hid, ht⟩ := parsed_outgoing hwf hp ((hedges e).mp he)
    refine ⟨?_, parses_targets_lt hwf hr ht⟩
    have hmem : r.id ∈ raw.map LlvmBb.id := List.mem_map_of_mem hr
    rw [hwf.ids, hid] at hmem
    exact List.mem_range.mp hmem
  constructor
  · intro ib hib
    rw [hp.numBbs]
    exact parsed_id hwf hp hib
  · exact Nat.le_of_eq hp.numBbs.symm
  · exact hnodup
  · exact hedges
  · exact fun e he => parsed_found hwf hp (hold e he).2
  · exact hold
  · intro b phi hphi p hpred
    obtain ⟨r, hr, -, rawPhi, hraw, hparses⟩ := parsed_phi hwf hp hphi
    rw [parsesPhi_predecessors hparses (hwf.values r hr rawPhi hraw)] at hpred
    obtain ⟨n, hn, rfl⟩ := List.mem_map.mp hpred
    rw [hp.numBbs]
    exact hwf.predecessors r hr rawPhi hraw n hn
  · intro e he phi hphi
    obtain ⟨r, hr, hid, rawPhi, hraw, hparses⟩ := parsed_phi hwf hp hphi
    obtain ⟨r', hr', hid', ht⟩ := parsed_outgoing hwf hp ((hedges e).mp he)
    rw [parsesPhi_predecessors hparses (hwf.values r hr rawPhi hraw), ← List.count_pos_iff, ← hid']
    apply Nat.lt_of_lt_of_le (List.count_pos_iff.mpr ?_) (hwf.entries r hr rawPhi hraw r' hr')
    rw [hid]
    exact ht
  · exact fun e he => absurd he List.not_mem_nil
  · intro ib hib hn
    exact absurd (parsed_id hwf hp hib) (Nat.not_lt.mpr hn)
  · intro b _ k
    change (graph f.bbs).arrive raw.length b k = _
    rw [graph_parsed hwf hp]

omit hp in
theorem arrive_lt {b k : ℕ} {a : ℕ × Selection}
    (h : (llvmGraph raw).arrive raw.length b k = some a) : a.1 < raw.length := by
  have htarget : ∀ b k t, (llvmGraph raw).target b k = some t → t < raw.length := by
    intro b k t ht
    obtain ⟨r, hr, hget⟩ := Option.bind_eq_some_iff.mp ht
    exact parses_targets_lt hwf (List.mem_of_find?_eq_some hr) (List.mem_of_getElem? hget)
  obtain ⟨t, ht, h⟩ := Option.bind_eq_some_iff.mp h
  rw [if_pos (htarget b k t ht)] at h
  cases h
  exact htarget b k t ht

end

theorem follow_congr {g g' : Graph} {n : ℕ} (harrive : ∀ b < n, ∀ k, g.arrive n b k = g'.arrive n b k)
    (hlt : ∀ b k a, g'.arrive n b k = some a → a.1 < n) (ks : List ℕ) {b : ℕ} (hb : b < n) :
    g.follow n b ks = g'.follow n b ks := by
  induction ks generalizing b with
  | nil => rfl
  | cons k ks ih =>
    change (g.arrive n b k).bind _ = (g'.arrive n b k).bind _
    rw [harrive b hb k]
    cases ha : g'.arrive n b k with
    | none => rfl
    | some a =>
      rw [Option.bind_some, Option.bind_some, ih (hlt b k a ha)]

/-- Critical edges are broken, and every path is what it was. -/
theorem crtiticalEdges_broken {raw : List LlvmBb} {f : Function} (hwf : WellFormed raw)
    (hp : Parses raw f) :
    ∃ f', (constructCfg f >>= breakCrtiticalEdges) = .ok f' ∧ Broken raw f' := by
  obtain ⟨edges, hcfg, hnodup, hedges⟩ := constructCfg_run
    (fun ib hib => parsed_terminated hwf hp hib) (parsed_nodup hwf hp) hp.edges
  obtain ⟨f', hrun, h⟩ := breakEdges_run (start_inv hwf hp hnodup hedges)
  refine ⟨f', ?_, ?_⟩
  · rw [hcfg]
    exact hrun
  · have hedges' := List.append_nil f'.edges
    constructor
    · exact hedges' ▸ h.nodup
    · exact hedges' ▸ h.edges
    · intro e he hphi
      have hsingle := h.single e he hphi
      rw [hedges'] at hsingle
      exact hsingle
    · intro e he phi hphi
      exact List.count_eq_one_of_mem phi.2.distinct (h.cover e (hedges'.symm ▸ he) phi hphi)
    · exact h.inserted
    · exact fun b hb ks => follow_congr h.paths (fun b k a => arrive_lt hwf) ks hb

/-! ## A switch with two cases for one block, and a loop -/

/-- The PHI of the block that two cases go to. -/
def loopPhi : PhiNodes :=
  PhiNodes.ofSorted ⟨0, ⟨7, 0⟩⟩ [⟨0, ⟨7, 0⟩⟩, ⟨1, ⟨8, 0⟩⟩] (by decide)

def exitPhi : PhiNodes := PhiNodes.ofSorted ⟨0, ⟨7, 0⟩⟩ [⟨1, ⟨9, 0⟩⟩] (by decide)

def switchIi : Instr := ⟨[], .switch ⟨7, 0⟩ 1 [⟨1, 1⟩, ⟨2, 2⟩]⟩

def loopIi : Instr := ⟨[], .br (some ⟨9, 1⟩) 1 2⟩

def retIi : Instr := ⟨[], .ret none⟩

def switchLoop : List LlvmBb :=
  [⟨0, [], [switchIi]⟩,
    ⟨1, [([⟨9, 0⟩], [⟨0, ⟨7, 0⟩⟩, ⟨1, ⟨8, 0⟩⟩, ⟨0, ⟨7, 0⟩⟩])], [loopIi]⟩,
    ⟨2, [([⟨10, 0⟩], [⟨1, ⟨9, 0⟩⟩, ⟨0, ⟨7, 0⟩⟩])], [retIi]⟩]

def switchLoopParsed : Function where
  bbs := [⟨0, [switchIi]⟩, ⟨1, [⟨[⟨9, 0⟩], .phi loopPhi⟩, loopIi]⟩,
    ⟨2, [⟨[⟨10, 0⟩], .phi exitPhi⟩, retIi]⟩]
  numBbs := 3
  edges := []

theorem switchLoop_wellFormed : WellFormed switchLoop where
  ids := by decide
  terminated := by
    intro b hb
    simp only [switchLoop, List.mem_cons, List.not_mem_nil, or_false] at hb
    rcases hb with rfl | rfl | rfl
    · exact ⟨[], switchIi, [1, 1, 2], rfl, rfl, by decide⟩
    · exact ⟨[], loopIi, [1, 2], rfl, rfl, by decide⟩
    · exact ⟨[], retIi, [], rfl, rfl, by decide⟩
  noPhi := by
    intro b hb ii hii nodes
    simp only [switchLoop, List.mem_cons, List.not_mem_nil, or_false] at hb
    rcases hb with rfl | rfl | rfl
    all_goals
      rw [List.mem_singleton.mp hii]
      exact InstrClass.noConfusion
  entries := by decide
  predecessors := by decide
  values := by decide

theorem switchLoop_parses : Parses switchLoop switchLoopParsed where
  bbs := by
    have hloop : ParsesPhi [⟨0, ⟨7, 0⟩⟩, ⟨1, ⟨8, 0⟩⟩, ⟨0, ⟨7, 0⟩⟩] loopPhi :=
      ⟨_, _, _, by decide, rfl⟩
    have hexit : ParsesPhi [⟨1, ⟨9, 0⟩⟩, ⟨0, ⟨7, 0⟩⟩] exitPhi := ⟨_, _, _, by decide, rfl⟩
    refine .cons ⟨rfl, [], rfl, .nil⟩ (.cons ⟨rfl, [⟨[⟨9, 0⟩], .phi loopPhi⟩], rfl, ?_⟩
      (.cons ⟨rfl, [⟨[⟨10, 0⟩], .phi exitPhi⟩], rfl, ?_⟩ .nil))
    · exact .cons ⟨rfl, loopPhi, hloop, rfl⟩ .nil
    · exact .cons ⟨rfl, exitPhi, hexit, rfl⟩ .nil
  numBbs := rfl
  edges := rfl

theorem switchLoop_broken :
    ∃ f', (constructCfg switchLoopParsed >>= breakCrtiticalEdges) = .ok f' ∧ Broken switchLoop f' :=
  crtiticalEdges_broken switchLoop_wellFormed switchLoop_parses

end Vmir.CriticalEdgesBroken
