import Vmir.CriticalEdges

set_option autoImplicit false

/-!
# Breaking one edge

All that is used of a function are the branches of its blocks and their PHIs. A step changes them at
the two ends of the edge.
-/
namespace Vmir.CriticalEdgeStep
open Ir CriticalEdges
open DefUse (bbChangeBranch changePredecessor changeTarget)

/-! ## Blocks by their number -/

section
variable {bbs : List Bb} {b id : ℕ} {change : List Instr → List Instr} (nb : Bb)

theorem bbFind_some {ib : Bb} (h : bbFind bbs b = some ib) : ib ∈ bbs ∧ ib.id = b :=
  ⟨List.mem_of_find?_eq_some h, by simpa using List.find?_some h⟩

theorem bbFind_of_mem {ib : Bb} (hids : (bbs.map Bb.id).Nodup) (h : ib ∈ bbs) :
    bbFind bbs ib.id = some ib := by
  cases hb : bbFind bbs ib.id with
  | none =>
    have hnone := List.find?_eq_none.mp hb ib h
    exact absurd (decide_eq_true rfl) hnone
  | some ib' =>
    obtain ⟨h', hid⟩ := bbFind_some hb
    rw [List.inj_on_of_nodup_map hids h' h hid]

theorem bbFind_mapBlock : bbFind (mapBlock id change bbs) b
    = (bbFind bbs b).map fun ib => if ib.id = id then { ib with instrs := change ib.instrs } else ib := by
  unfold bbFind mapBlock
  rw [List.find?_map]
  congr 1
  apply congrArg fun p => List.find? p bbs
  funext ib
  change decide ((if ib.id = id then _ else _ : Bb).id = b) = decide (ib.id = b)
  split <;> rfl

theorem found_mapBlock : (bbFind (mapBlock id change bbs) b).isSome = (bbFind bbs b).isSome := by
  rw [bbFind_mapBlock, Option.isSome_map]

theorem instrsAt_mapBlock (hid : (bbFind bbs id).isSome) :
    instrsAt (mapBlock id change bbs) b
      = if b = id then change (instrsAt bbs b) else instrsAt bbs b := by
  unfold instrsAt
  rw [bbFind_mapBlock]
  cases hb : bbFind bbs b with
  | none =>
    have hne : b ≠ id := by
      intro h
      rw [← h, hb] at hid
      cases hid
    rw [if_neg hne]
    rfl
  | some ib =>
    have hib := (bbFind_some hb).2
    by_cases h : b = id
    · simp [hib, h]
    · simp [hib, h]

theorem bbFind_addBefore_old (h : b ≠ nb.id) (before : ℕ) :
    bbFind (bbAddBefore before nb bbs) b = bbFind bbs b := by
  have hne : decide (nb.id = b) = false := decide_eq_false (Ne.symm h)
  unfold bbFind bbAddBefore
  induction bbs with
  | nil => rfl
  | cons ib bbs ih =>
    rw [List.flatMap_cons, List.find?_append, ih]
    split
    · rw [List.find?_cons, hne, List.find?_cons, List.find?_cons]
      cases decide (ib.id = b) <;> rfl
    · rw [List.find?_cons, List.find?_cons]
      cases decide (ib.id = b) <;> rfl

theorem bbFind_addBefore_new (hfresh : ∀ ib ∈ bbs, ib.id ≠ nb.id) {before : ℕ}
    (hbefore : ∃ ib ∈ bbs, ib.id = before) :
    bbFind (bbAddBefore before nb bbs) nb.id = some nb := by
  unfold bbFind bbAddBefore
  induction bbs with
  | nil =>
    obtain ⟨ib, hib, -⟩ := hbefore
    exact absurd hib List.not_mem_nil
  | cons ib bbs ih =>
    have hib : decide (ib.id = nb.id) = false := decide_eq_false (hfresh ib List.mem_cons_self)
    rw [List.flatMap_cons, List.find?_append]
    split
    · rw [List.find?_cons, decide_eq_true rfl]
      rfl
    · rename_i hne
      rw [List.find?_cons, hib]
      apply ih fun ib' h' => hfresh ib' (List.mem_cons_of_mem ib h')
      obtain ⟨ib', h', hid⟩ := hbefore
      rcases List.mem_cons.mp h' with rfl | h'
      · exact absurd hid hne
      · exact ⟨ib', h', hid⟩

variable {nb} in
theorem mem_addBefore {ib : Bb} {before : ℕ} (h : ib ∈ bbAddBefore before nb bbs) :
    ib = nb ∨ ib ∈ bbs := by
  obtain ⟨ib', h', hib⟩ := List.mem_flatMap.mp h
  split at hib
  · rcases List.mem_pair.mp hib with rfl | rfl
    · exact Or.inl rfl
    · exact Or.inr h'
  · rw [List.mem_singleton.mp hib]
    exact Or.inr h'

end

/-! ## The instructions of a block -/

section
variable {instrs : List Instr} {ii : Instr} {cls : InstrClass} {source nb : ℕ}

theorem lastTargets_append (front : List Instr) (h : instrs ≠ []) :
    lastTargets (front ++ instrs) = lastTargets instrs := by
  unfold lastTargets
  rw [List.getLast?_append_of_ne_nil front h]

theorem lastTargets_cons (h : instrs ≠ []) : lastTargets (ii :: instrs) = lastTargets instrs :=
  lastTargets_append [ii] h

theorem setLast_ne_nil (h : instrs ≠ []) : setLast cls instrs ≠ [] := by
  match instrs with
  | [] => exact absurd rfl h
  | [ii] => exact List.cons_ne_nil _ _
  | ii :: ii' :: iis => exact List.cons_ne_nil _ _

theorem setLast_cons (ii : Instr) (h : instrs ≠ []) :
    setLast cls (ii :: instrs) = ii :: setLast cls instrs := by
  cases instrs with
  | nil => exact absurd rfl h
  | cons ii' iis => rfl

theorem lastTargets_singleton (ii : Instr) : lastTargets [ii] = targets ii.cls := rfl

theorem lastTargets_setLast (h : instrs ≠ []) : lastTargets (setLast cls instrs) = targets cls := by
  induction instrs with
  | nil => exact absurd rfl h
  | cons ii iis ih =>
    cases iis with
    | nil => rfl
    | cons ii' iis =>
      have hne : ii' :: iis ≠ [] := List.cons_ne_nil _ _
      rw [setLast_cons ii hne, lastTargets_cons (setLast_ne_nil hne), ih hne]

theorem phis_cons (ii : Instr) (iis : List Instr) :
    phis (ii :: iis) = match ii.cls with
      | .phi nodes => (ii.rets, nodes) :: phis iis
      | _ => [] := rfl

theorem phis_setLast (hlast : instrs.getLast? = some ii) (hii : ∀ nodes, ii.cls ≠ .phi nodes)
    (hcls : ∀ nodes, cls ≠ .phi nodes) : phis (setLast cls instrs) = phis instrs := by
  induction instrs with
  | nil => rfl
  | cons ii' iis ih =>
    cases iis with
    | nil =>
      cases hlast
      change phis [⟨ii'.rets, cls⟩] = phis [ii']
      rw [phis_cons, phis_cons]
      split
      · rename_i nodes h
        exact absurd h (hcls nodes)
      · split
        · rename_i nodes h
          exact absurd h (hii nodes)
        · rfl
    | cons ii'' iis =>
      rw [List.getLast?_cons_cons] at hlast
      rw [setLast_cons ii' (List.cons_ne_nil _ _), phis_cons, phis_cons, ih hlast]

theorem changePhis_cons (ii : Instr) (iis : List Instr) :
    changePhis source nb (ii :: iis) = match ii.cls with
      | .phi nodes =>
        ⟨ii.rets, .phi (changePredecessor source nb nodes)⟩ :: changePhis source nb iis
      | _ => ii :: iis := rfl

theorem phis_changePhis (instrs : List Instr) : phis (changePhis source nb instrs)
    = (phis instrs).map fun phi => (phi.1, changePredecessor source nb phi.2) := by
  induction instrs with
  | nil => rfl
  | cons ii iis ih =>
    rw [changePhis_cons, phis_cons]
    cases hcls : ii.cls
    case phi nodes =>
      change (ii.rets, _) :: phis (changePhis source nb iis) = _
      rw [ih]
      rfl
    all_goals
      change phis (ii :: iis) = _
      rw [phis_cons, hcls]
      rfl

theorem changePhis_ne_nil (h : instrs ≠ []) : changePhis source nb instrs ≠ [] := by
  cases instrs with
  | nil => exact absurd rfl h
  | cons ii iis =>
    rw [changePhis_cons]
    split <;> exact List.cons_ne_nil _ _

theorem lastTargets_changePhis (instrs : List Instr) :
    lastTargets (changePhis source nb instrs) = lastTargets instrs := by
  induction instrs with
  | nil => rfl
  | cons ii iis ih =>
    rw [changePhis_cons]
    split
    · rename_i nodes hcls
      cases iis with
      | nil =>
        rw [lastTargets_singleton, hcls]
        rfl
      | cons ii' iis =>
        rw [lastTargets_cons (changePhis_ne_nil (List.cons_ne_nil _ _)), ih]
        rfl
    · rfl

end

/-! ## Branches and PHIs with a new block -/

section
variable {cls : InstrClass} {bbs : List ℕ} {dest source nb s : ℕ}

theorem bbChangeBranch_targets (nb : ℕ) (hcls : cfgTargets cls = .ok bbs) (hdest : dest ∈ bbs) :
    ∃ cls', bbChangeBranch dest nb cls = .ok cls' ∧ targets cls' = bbs.map (changeTarget dest nb)
      ∧ (∀ nodes, cls ≠ .phi nodes) ∧ ∀ nodes, cls' ≠ .phi nodes := by
  cases cls
  case br condition t e =>
    cases condition with
    | none =>
      cases hcls
      exact ⟨_, rfl, rfl, fun _ h => InstrClass.noConfusion h, fun _ h => InstrClass.noConfusion h⟩
    | some condition =>
      cases hcls
      exact ⟨_, rfl, rfl, fun _ h => InstrClass.noConfusion h, fun _ h => InstrClass.noConfusion h⟩
  case switch value defblock paths =>
    cases hcls
    refine ⟨_, rfl, ?_, fun _ h => InstrClass.noConfusion h, fun _ h => InstrClass.noConfusion h⟩
    change changeTarget dest nb defblock :: (paths.map _).map Path.block = _
    rw [List.map_cons, List.map_map, List.map_map]
    rfl
  case invoke callee normalDest unwindDest argv =>
    cases hcls
    exact ⟨_, rfl, rfl, fun _ h => InstrClass.noConfusion h, fun _ h => InstrClass.noConfusion h⟩
  all_goals
    cases hcls
    try cases hdest

theorem changeTarget_self : changeTarget dest nb dest = nb := if_pos rfl

theorem changeTarget_ne (h : s ≠ dest) : changeTarget dest nb s = s := if_neg h

def predecessors (nodes : PhiNodes) : List ℕ := nodes.nodes.map PhiNode.predecessor

theorem changePredecessor_nodes {nodes : PhiNodes} (hnb : nb ∉ predecessors nodes) :
    (changePredecessor source nb nodes).nodes = nodes.nodes.map fun n =>
      { n with predecessor := changeTarget source nb n.predecessor } := by
  have hnodup : ((nodes.nodes.map fun n => { n with
      predecessor := changeTarget source nb n.predecessor : PhiNode }).map
        PhiNode.predecessor).Nodup := by
    have hmap : (nodes.nodes.map fun n => { n with
        predecessor := changeTarget source nb n.predecessor : PhiNode }).map PhiNode.predecessor
        = (predecessors nodes).map (changeTarget source nb) := by
      unfold predecessors
      rw [List.map_map, List.map_map]
      rfl
    rw [hmap]
    apply nodes.distinct.map_on
    intro x hx y hy hxy
    have hxnb : x ≠ nb := fun h => hnb (h ▸ hx)
    have hynb : y ≠ nb := fun h => hnb (h ▸ hy)
    unfold changeTarget at hxy
    split at hxy
    · split at hxy
      · omega
      · exact absurd hxy.symm hynb
    · split at hxy
      · exact absurd hxy hxnb
      · exact hxy
  unfold changePredecessor
  rw [dif_pos hnodup]

theorem predecessors_change {nodes : PhiNodes} (hnb : nb ∉ predecessors nodes) :
    predecessors (changePredecessor source nb nodes)
      = (predecessors nodes).map (changeTarget source nb) := by
  unfold predecessors
  rw [changePredecessor_nodes hnb, List.map_map, List.map_map]
  rfl

theorem selects_cons (n : PhiNode) (ns : List PhiNode) : selects (n :: ns) s
    = if n.predecessor = s then some n.value else selects ns s := by
  unfold selects
  rw [List.find?_cons]
  by_cases h : n.predecessor = s
  · simp [h]
  · simp [h]

theorem selects_change_new {nodes : PhiNodes} (hnb : nb ∉ predecessors nodes) :
    selects (changePredecessor source nb nodes).nodes nb = selects nodes.nodes source := by
  rw [changePredecessor_nodes hnb]
  unfold predecessors at hnb
  generalize nodes.nodes = ns at hnb ⊢
  induction ns with
  | nil => rfl
  | cons n ns ih =>
    rw [List.map_cons] at hnb
    obtain ⟨hn, hns⟩ := not_or.mp (fun h => hnb (List.mem_cons.mpr h))
    rw [List.map_cons, selects_cons, selects_cons, ih hns]
    unfold changeTarget
    by_cases h : n.predecessor = source
    · rw [if_pos h, if_pos rfl, if_pos h]
    · rw [if_neg h, if_neg (Ne.symm hn), if_neg h]

theorem selects_change_old {nodes : PhiNodes} (hnb : nb ∉ predecessors nodes) (hs : s ≠ source)
    (hne : s ≠ nb) :
    selects (changePredecessor source nb nodes).nodes s = selects nodes.nodes s := by
  rw [changePredecessor_nodes hnb]
  clear hnb
  induction nodes.nodes with
  | nil => rfl
  | cons n ns ih =>
    rw [List.map_cons, selects_cons, selects_cons, ih]
    unfold changeTarget
    by_cases h : n.predecessor = source
    · rw [if_pos h, if_neg (Ne.symm hne), if_neg fun h' => hs (h'.symm.trans h)]
    · rw [if_neg h]

end

/-! ## One edge -/

section
variable {bbs : List Bb} {nb : ℕ} {e : Edge}

theorem bbFind_of_outgoing {b t : ℕ} (h : t ∈ outgoing bbs b) :
    ∃ ib ii ts, bbFind bbs b = some ib ∧ ib.instrs ≠ [] ∧ ib.instrs.getLast? = some ii
      ∧ cfgTargets ii.cls = .ok ts ∧ outgoing bbs b = ts := by
  unfold outgoing instrsAt at h ⊢
  cases hb : bbFind bbs b with
  | none =>
    rw [hb] at h
    exact absurd h List.not_mem_nil
  | some ib =>
    simp only [hb] at h ⊢
    unfold lastTargets at h ⊢
    cases hlast : ib.instrs.getLast? with
    | none =>
      rw [hlast] at h
      exact absurd h List.not_mem_nil
    | some ii =>
      simp only [hlast] at h ⊢
      unfold targets at h ⊢
      cases hts : cfgTargets ii.cls with
      | error e =>
        rw [hts] at h
        exact absurd h List.not_mem_nil
      | ok ts =>
        refine ⟨ib, ii, ts, rfl, ?_, hlast, hts, rfl⟩
        intro hnil
        rw [hnil] at hlast
        cases hlast

/-- What the blocks are after one edge was broken. -/
structure Step (bbs : List Bb) (nb : ℕ) (e : Edge) (bbs' : List Bb) : Prop where
  outgoing : ∀ b, outgoing bbs' b = if b = nb then [e.dest]
    else if b = e.source then (outgoing bbs e.source).map (changeTarget e.dest nb)
    else outgoing bbs b
  phisAt : ∀ b, phisAt bbs' b = if b = nb then []
    else if b = e.dest then
      (phisAt bbs e.dest).map fun phi => (phi.1, changePredecessor e.source nb phi.2)
    else phisAt bbs b
  found : ∀ b, (bbFind bbs' b).isSome = true ↔ b = nb ∨ (bbFind bbs b).isSome = true
  members : ∀ ib ∈ bbs', ib = ⟨nb, [⟨[], .br none e.dest 0⟩]⟩
    ∨ ∃ ib' ∈ bbs, ib.id = ib'.id ∧ (ib.id ≠ e.source → ib.id ≠ e.dest → ib = ib')

theorem mem_mapBlock {id : ℕ} {change : List Instr → List Instr} {ib : Bb}
    (h : ib ∈ mapBlock id change bbs) :
    ∃ ib' ∈ bbs, ib.id = ib'.id ∧ (ib.id ≠ id → ib = ib') := by
  obtain ⟨ib', h', rfl⟩ := List.mem_map.mp h
  refine ⟨ib', h', ?_⟩
  split
  · rename_i heq
    exact ⟨rfl, fun hne => absurd heq hne⟩
  · exact ⟨rfl, fun _ => rfl⟩

/-- The blocks with the new one, whose ends are not changed yet. -/
def added (bbs : List Bb) (nb : ℕ) (e : Edge) : List Bb :=
  bbAddBefore e.dest ⟨nb, [⟨[], .br none e.dest 0⟩]⟩ bbs

def broken (cls : InstrClass) (bbs : List Bb) (nb : ℕ) (e : Edge) : List Bb :=
  mapBlock e.dest (changePhis e.source nb) (mapBlock e.source (setLast cls) (added bbs nb e))

theorem found_ne (hfresh : ∀ ib ∈ bbs, ib.id ≠ nb) {b : ℕ} (h : (bbFind bbs b).isSome = true) :
    b ≠ nb := by
  obtain ⟨ib, hib⟩ := Option.isSome_iff_exists.mp h
  rw [← (bbFind_some hib).2]
  exact hfresh ib (bbFind_some hib).1

theorem added_old {b : ℕ} (hb : b ≠ nb) : bbFind (added bbs nb e) b = bbFind bbs b :=
  bbFind_addBefore_old ⟨nb, _⟩ hb e.dest

theorem added_new (hfresh : ∀ ib ∈ bbs, ib.id ≠ nb) (hdest : (bbFind bbs e.dest).isSome = true) :
    bbFind (added bbs nb e) nb = some ⟨nb, [⟨[], .br none e.dest 0⟩]⟩ := by
  obtain ⟨ib, hib⟩ := Option.isSome_iff_exists.mp hdest
  exact bbFind_addBefore_new ⟨nb, _⟩ hfresh ⟨ib, bbFind_some hib⟩

section
variable {cls : InstrClass} (hfresh : ∀ ib ∈ bbs, ib.id ≠ nb)
variable (hsource : (bbFind bbs e.source).isSome = true)
variable (hdest : (bbFind bbs e.dest).isSome = true)
include hfresh hsource hdest

theorem instrsAt_broken (b : ℕ) : instrsAt (broken cls bbs nb e) b
    = if b = nb then [⟨[], .br none e.dest 0⟩]
      else if b = e.dest then changePhis e.source nb
        (if b = e.source then setLast cls (instrsAt bbs b) else instrsAt bbs b)
      else if b = e.source then setLast cls (instrsAt bbs b) else instrsAt bbs b := by
  have hs := found_ne hfresh hsource
  have hd := found_ne hfresh hdest
  unfold broken
  rw [instrsAt_mapBlock (by rw [found_mapBlock, added_old hd]; exact hdest),
    instrsAt_mapBlock (by rw [added_old hs]; exact hsource)]
  unfold instrsAt
  by_cases hb : b = nb
  · rw [if_pos hb, hb, if_neg (Ne.symm hd), if_neg (Ne.symm hs), added_new hfresh hdest]
  · rw [if_neg hb, added_old hb]

theorem outgoing_broken (hcls : targets cls = (outgoing bbs e.source).map (changeTarget e.dest nb))
    (hne : instrsAt bbs e.source ≠ []) (b : ℕ) : outgoing (broken cls bbs nb e) b
    = if b = nb then [e.dest]
      else if b = e.source then (outgoing bbs e.source).map (changeTarget e.dest nb)
      else outgoing bbs b := by
  have hset : lastTargets (if b = e.source then setLast cls (instrsAt bbs b) else instrsAt bbs b)
      = if b = e.source then (outgoing bbs e.source).map (changeTarget e.dest nb)
        else outgoing bbs b := by
    split
    · rename_i h
      rw [h, lastTargets_setLast hne, hcls]
    · rfl
  unfold outgoing at hset ⊢
  rw [instrsAt_broken hfresh hsource hdest b]
  by_cases hb : b = nb
  · rw [if_pos hb, if_pos hb]
    rfl
  · rw [if_neg hb, if_neg hb, ← hset]
    split
    · rw [lastTargets_changePhis]
    · rfl

theorem phisAt_broken {ii : Instr} (hlast : (instrsAt bbs e.source).getLast? = some ii)
    (hii : ∀ nodes, ii.cls ≠ .phi nodes) (hcls : ∀ nodes, cls ≠ .phi nodes) (b : ℕ) :
    phisAt (broken cls bbs nb e) b = if b = nb then []
      else if b = e.dest then
        (phisAt bbs e.dest).map fun phi => (phi.1, changePredecessor e.source nb phi.2)
      else phisAt bbs b := by
  have hset : phis (if b = e.source then setLast cls (instrsAt bbs b) else instrsAt bbs b)
      = phis (instrsAt bbs b) := by
    split
    · rename_i h
      rw [h, phis_setLast hlast hii hcls]
    · rfl
  unfold phisAt
  rw [instrsAt_broken hfresh hsource hdest b]
  by_cases hb : b = nb
  · rw [if_pos hb, if_pos hb]
    rfl
  · rw [if_neg hb, if_neg hb]
    split
    · rename_i h
      rw [phis_changePhis, hset, h]
    · exact hset

end

theorem breakCriticalEdge_step (hfresh : ∀ ib ∈ bbs, ib.id ≠ nb)
    (he : e.dest ∈ outgoing bbs e.source) (hdest : (bbFind bbs e.dest).isSome = true) :
    ∃ bbs', breakCriticalEdge bbs nb e = .ok bbs' ∧ Step bbs nb e bbs' := by
  obtain ⟨ib, ii, ts, hib, hne, hlast, hts, hout⟩ := bbFind_of_outgoing he
  rw [hout] at he
  obtain ⟨cls, hchange, hcls, hii, hphi⟩ := bbChangeBranch_targets nb hts he
  rw [← hout] at hcls
  have hsource : (bbFind bbs e.source).isSome = true := by
    rw [hib]
    rfl
  have hinstrs : instrsAt bbs e.source = ib.instrs := by
    unfold instrsAt
    rw [hib]
  rw [← hinstrs] at hne hlast
  have hs := found_ne hfresh hsource
  have hd := found_ne hfresh hdest
  refine ⟨broken cls bbs nb e, ?_, outgoing_broken hfresh hsource hdest hcls hne,
    phisAt_broken hfresh hsource hdest hlast hii hphi, fun b => ?_, fun ib hib => ?_⟩
  · have hfind : ((bbFind bbs e.source).bind fun ib => ib.instrs.getLast?) = some ii := by
      rw [hib, ← hlast, hinstrs]
      rfl
    unfold breakCriticalEdge
    rw [hfind]
    change bbChangeBranch e.dest nb ii.cls >>= _ = _
    rw [hchange]
    rfl
  · unfold broken
    rw [found_mapBlock, found_mapBlock]
    by_cases hb : b = nb
    · rw [hb, added_new hfresh hdest]
      exact iff_of_true rfl (Or.inl rfl)
    · rw [added_old hb]
      exact ⟨Or.inr, fun h => h.resolve_left hb⟩
  · obtain ⟨ib₁, h₁, hid₁, hsame₁⟩ := mem_mapBlock hib
    obtain ⟨ib₂, h₂, hid₂, hsame₂⟩ := mem_mapBlock h₁
    rcases mem_addBefore h₂ with hnb | h₂
    · left
      have hidnb₁ : ib₁.id = nb := hid₂.trans (congrArg Bb.id hnb)
      have hidnb : ib.id = nb := hid₁.trans hidnb₁
      rw [hsame₁ (hidnb ▸ Ne.symm hd), hsame₂ (hidnb₁ ▸ Ne.symm hs), hnb]
    · right
      refine ⟨ib₂, h₂, hid₁.trans hid₂, fun hns hnd => ?_⟩
      rw [hsame₁ hnd]
      exact hsame₂ (hid₁ ▸ hns)

end

end Vmir.CriticalEdgeStep
