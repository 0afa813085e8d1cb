import Vmir.CriticalEdgeStep
import Vmir.ExceptFold

set_option autoImplicit false

/-!
# What the new blocks leave unchanged

The edges of the function are the branches of its blocks, before the loop and behind each edge that
it breaks.
-/
namespace Vmir.CriticalEdgeRuns
open Ir CriticalEdges CriticalEdgeStep
open DefUse (changePredecessor changeTarget)
open ExceptFold (foldlM_cons_ok)

/-! ## The edges of the branches -/

section
variable {f : Function} {edges : List Edge} {source : ℕ}

theorem mem_outgoing {e : Edge} : e ∈ outgoingEdges edges source ↔ e ∈ edges ∧ e.source = source := by
  unfold outgoingEdges
  rw [List.mem_filter, decide_eq_true_iff]

theorem dest_mem_outgoing {t : ℕ} :
    t ∈ (outgoingEdges edges source).map Edge.dest ↔ ⟨source, t⟩ ∈ edges := by
  rw [List.mem_map]
  constructor
  · rintro ⟨⟨s, d⟩, he, rfl⟩
    obtain ⟨hmem, hs⟩ := mem_outgoing.mp he
    cases hs
    exact hmem
  · intro h
    exact ⟨_, mem_outgoing.mpr ⟨h, rfl⟩, rfl⟩

theorem outgoing_dest_nodup (h : edges.Nodup) :
    ((outgoingEdges edges source).map Edge.dest).Nodup := by
  apply (h.filter _).map_on
  rintro ⟨s, d⟩ hx ⟨s', d'⟩ hy heq
  cases (mem_outgoing.mp hx).2
  cases (mem_outgoing.mp hy).2
  cases heq
  rfl

theorem cfgAddEdge_run (bbs : List ℕ) (hfound : ∀ bb ∈ bbs, (bbFind f.bbs bb).isSome = true)
    (hnodup : f.edges.Nodup) :
    ∃ edges', bbs.foldlM (cfgAddEdge source) (f, (outgoingEdges f.edges source).map Edge.dest)
        = .ok ({ f with edges := edges' }, (outgoingEdges edges' source).map Edge.dest)
      ∧ edges'.Nodup ∧ ∀ e, e ∈ edges' ↔ e ∈ f.edges ∨ e.source = source ∧ e.dest ∈ bbs := by
  induction bbs generalizing f with
  | nil => exact ⟨f.edges, rfl, hnodup, fun e => by simp⟩
  | cons bb bbs ih =>
    have hbb : ∃ to', bbFind f.bbs bb = some to' :=
      Option.isSome_iff_exists.mp (hfound bb List.mem_cons_self)
    obtain ⟨to', hto⟩ := hbb
    have hrest : ∀ t ∈ bbs, (bbFind f.bbs t).isSome = true :=
      fun t ht => hfound t (List.mem_cons_of_mem bb ht)
    by_cases hmem : (⟨source, bb⟩ : Edge) ∈ f.edges
    · have hstep : cfgAddEdge source (f, (outgoingEdges f.edges source).map Edge.dest) bb
          = .ok (f, (outgoingEdges f.edges source).map Edge.dest) := by
        unfold cfgAddEdge
        rw [hto]
        exact if_pos (dest_mem_outgoing.mpr hmem)
      obtain ⟨edges', hrun, hnodup', hiff⟩ := ih hrest hnodup
      refine ⟨edges', by rw [foldlM_cons_ok hstep, hrun], hnodup', fun e => ?_⟩
      rw [hiff, List.mem_cons]
      refine ⟨Or.imp_right fun h => ⟨h.1, Or.inr h.2⟩, ?_⟩
      rintro (h | ⟨hs, hd | hd⟩)
      · exact Or.inl h
      · left
        rw [show e = ⟨source, bb⟩ from by rw [← hs, ← hd]]
        exact hmem
      · exact Or.inr ⟨hs, hd⟩
    · have hstep : cfgAddEdge source (f, (outgoingEdges f.edges source).map Edge.dest) bb
          = .ok ({ f with edges := ⟨source, bb⟩ :: f.edges },
            (outgoingEdges (⟨source, bb⟩ :: f.edges) source).map Edge.dest) := by
        have hcons : outgoingEdges (⟨source, bb⟩ :: f.edges) source
            = ⟨source, bb⟩ :: outgoingEdges f.edges source :=
          List.filter_cons_of_pos (decide_eq_true rfl)
        unfold cfgAddEdge
        rw [hto, hcons]
        exact if_neg fun h => hmem (dest_mem_outgoing.mp h)
      obtain ⟨edges', hrun, hnodup', hiff⟩ :=
        @ih { f with edges := ⟨source, bb⟩ :: f.edges } hrest (List.nodup_cons.mpr ⟨hmem, hnodup⟩)
      refine ⟨edges', by rw [foldlM_cons_ok hstep, hrun], hnodup', fun e => ?_⟩
      rw [hiff, List.mem_cons, List.mem_cons]
      constructor
      · rintro ((rfl | h) | h)
        · exact Or.inr ⟨rfl, Or.inl rfl⟩
        · exact Or.inl h
        · exact Or.inr ⟨h.1, Or.inr h.2⟩
      · rintro (h | ⟨hs, hd | hd⟩)
        · exact Or.inl (Or.inr h)
        · left; left
          rw [← hs, ← hd]
        · exact Or.inr ⟨hs, hd⟩

theorem unmark_run (cs : List Edge) (h : (cs.map Edge.dest).Nodup) :
    cs.foldlM unmark (cs.map Edge.dest) = .ok [] := by
  induction cs with
  | nil => rfl
  | cons c cs ih =>
    obtain ⟨hc, hcs⟩ := List.nodup_cons.mp h
    have hstep : unmark ((c :: cs).map Edge.dest) c = .ok (cs.map Edge.dest) := by
      unfold unmark
      rw [List.map_cons, if_pos List.mem_cons_self, List.filter_cons_of_neg (by simp)]
      congr 1
      apply List.filter_eq_self.mpr
      intro d hd
      exact decide_eq_true fun heq => hc (heq ▸ hd)
    rw [foldlM_cons_ok hstep]
    exact ih hcs

/-- A block whose last instruction branches to blocks of the function. -/
def Terminated (bbs : List Bb) (ib : Bb) : Prop :=
  ∃ ii ts, ib.instrs.getLast? = some ii ∧ cfgTargets ii.cls = .ok ts
    ∧ ∀ t ∈ ts, (bbFind bbs t).isSome = true

theorem constructBb_run {ib : Bb} (hib : Terminated f.bbs ib) (hnodup : f.edges.Nodup)
    (hnew : ∀ e ∈ f.edges, e.source ≠ ib.id) :
    ∃ edges', constructBb (f, []) ib = .ok ({ f with edges := edges' }, []) ∧ edges'.Nodup
      ∧ ∀ e, e ∈ edges' ↔ e ∈ f.edges ∨ e.source = ib.id ∧ e.dest ∈ lastTargets ib.instrs := by
  obtain ⟨ii, ts, hlast, hts, hfound⟩ := hib
  obtain ⟨edges', hrun, hnodup', hiff⟩ := cfgAddEdge_run ts hfound hnodup
  have hempty : outgoingEdges f.edges ib.id = [] :=
    List.filter_eq_nil_iff.mpr fun e he => by simpa using hnew e he
  have htargets : lastTargets ib.instrs = ts := by
    unfold lastTargets targets
    rw [hlast]
    dsimp only
    rw [hts]
  refine ⟨edges', ?_, hnodup', by rw [htargets]; exact hiff⟩
  rw [hempty] at hrun
  unfold constructBb
  rw [hlast]
  change (cfgTargets ii.cls >>= _) = _
  rw [hts]
  change (ts.foldlM (cfgAddEdge ib.id) (f, []) >>= _) = _
  rw [show ts.foldlM (cfgAddEdge ib.id) (f, []) = _ from hrun]
  change (unmarkOutgoingBlocks _ _ ib.id >>= _) = _
  unfold unmarkOutgoingBlocks
  rw [unmark_run _ (outgoing_dest_nodup hnodup')]
  rfl

theorem constructCfg_loop (todo : List Bb) (hall : ∀ ib ∈ todo, Terminated f.bbs ib)
    (hids : (todo.map Bb.id).Nodup) (hnodup : f.edges.Nodup)
    (hnew : ∀ e ∈ f.edges, ∀ ib ∈ todo, e.source ≠ ib.id) :
    ∃ edges', todo.foldlM constructBb (f, []) = .ok ({ f with edges := edges' }, [])
      ∧ edges'.Nodup ∧ ∀ e, e ∈ edges' ↔ e ∈ f.edges
        ∨ ∃ ib ∈ todo, e.source = ib.id ∧ e.dest ∈ lastTargets ib.instrs := by
  induction todo generalizing f with
  | nil => exact ⟨f.edges, rfl, hnodup, fun e => by simp⟩
  | cons ib todo ih =>
    obtain ⟨hib, hids⟩ := List.nodup_cons.mp hids
    obtain ⟨edges₁, hstep, hnodup₁, hiff₁⟩ := constructBb_run (hall ib List.mem_cons_self) hnodup
      fun e he => hnew e he ib List.mem_cons_self
    have hnew₁ : ∀ e ∈ edges₁, ∀ ib' ∈ todo, e.source ≠ ib'.id := by
      intro e he ib' hib' heq
      rcases (hiff₁ e).mp he with he | ⟨hs, -⟩
      · exact hnew e he ib' (List.mem_cons_of_mem ib hib') heq
      · rw [← hs, heq] at hib
        exact hib (List.mem_map_of_mem hib')
    obtain ⟨edges', hrun, hnodup', hiff⟩ := @ih { f with edges := edges₁ }
      (fun ib' h' => hall ib' (List.mem_cons_of_mem ib h')) hids hnodup₁ hnew₁
    refine ⟨edges', by rw [foldlM_cons_ok hstep, hrun], hnodup', fun e => ?_⟩
    rw [hiff, hiff₁, or_assoc, List.exists_mem_cons_iff]

theorem constructCfg_run (hall : ∀ ib ∈ f.bbs, Terminated f.bbs ib) (hids : (f.bbs.map Bb.id).Nodup)
    (hedges : f.edges = []) :
    ∃ edges', constructCfg f = .ok { f with edges := edges' } ∧ edges'.Nodup
      ∧ ∀ e, e ∈ edges' ↔ e.dest ∈ outgoing f.bbs e.source := by
  obtain ⟨edges', hrun, hnodup, hiff⟩ := constructCfg_loop f.bbs hall hids
    (by rw [hedges]; exact List.nodup_nil) (by rw [hedges]; exact nofun)
  refine ⟨edges', ?_, hnodup, fun e => ?_⟩
  · unfold constructCfg
    rw [hrun]
    rfl
  · rw [hiff, hedges]
    constructor
    · rintro (h | ⟨ib, hib, hs, hd⟩)
      · exact absurd h List.not_mem_nil
      · unfold outgoing instrsAt
        rw [hs, bbFind_of_mem hids hib]
        exact hd
    · intro h
      unfold outgoing instrsAt at h
      cases hb : bbFind f.bbs e.source with
      | none =>
        rw [hb] at h
        exact absurd h List.not_mem_nil
      | some ib =>
        rw [hb] at h
        exact Or.inr ⟨ib, (bbFind_some hb).1, (bbFind_some hb).2.symm, h⟩

end

/-! ## The loop over the edges -/

/-- What holds in front of each round, for `n` blocks of the parser and the paths `g` between them. -/
structure Inv (n : ℕ) (g : ℕ → ℕ → Option (ℕ × Selection)) (f : Function) (todo : List Edge) :
    Prop where
  fresh : ∀ ib ∈ f.bbs, ib.id < f.numBbs
  le : n ≤ f.numBbs
  nodup : (f.edges ++ todo).Nodup
  edges : ∀ e, e ∈ f.edges ++ todo ↔ e.dest ∈ outgoing f.bbs e.source
  found : ∀ e ∈ f.edges ++ todo, (bbFind f.bbs e.dest).isSome = true
  old : ∀ e ∈ todo, e.source < n ∧ e.dest < n
  bound : ∀ b, ∀ phi ∈ phisAt f.bbs b, ∀ p ∈ predecessors phi.2, p < f.numBbs
  cover : ∀ e ∈ f.edges ++ todo, ∀ phi ∈ phisAt f.bbs e.dest, e.source ∈ predecessors phi.2
  single : ∀ e ∈ f.edges, phisAt f.bbs e.dest ≠ [] →
    (outgoingEdges (f.edges ++ todo) e.source).length = 1
  inserted : ∀ ib ∈ f.bbs, n ≤ ib.id → ∃ bb, ib.instrs = [⟨[], .br none bb 0⟩]
  paths : ∀ b < n, ∀ k, (graph f.bbs).arrive n b k = g b k

section
variable {n : ℕ} {g : ℕ → ℕ → Option (ℕ × Selection)} {f : Function} {e : Edge} {todo : List Edge}

theorem Inv.keep (h : Inv n g f (e :: todo))
    (hsingle : phisAt f.bbs e.dest ≠ [] →
      (outgoingEdges (f.edges ++ e :: todo) e.source).length = 1) :
    Inv n g { f with edges := f.edges ++ [e] } todo := by
  have hedges : (f.edges ++ [e]) ++ todo = f.edges ++ e :: todo := by
    rw [List.append_assoc, List.singleton_append]
  constructor
  · exact h.fresh
  · exact h.le
  · change ((f.edges ++ [e]) ++ todo).Nodup
    rw [hedges]
    exact h.nodup
  · change ∀ x, x ∈ (f.edges ++ [e]) ++ todo ↔ _
    rw [hedges]
    exact h.edges
  · change ∀ x ∈ (f.edges ++ [e]) ++ todo, _
    rw [hedges]
    exact h.found
  · exact fun x hx => h.old x (List.mem_cons_of_mem e hx)
  · exact h.bound
  · change ∀ x ∈ (f.edges ++ [e]) ++ todo, _
    rw [hedges]
    exact h.cover
  · change ∀ x ∈ f.edges ++ [e], _ → (outgoingEdges ((f.edges ++ [e]) ++ todo) x.source).length = 1
    rw [hedges]
    intro x hx
    rcases List.mem_append.mp hx with hx | hx
    · exact h.single x hx
    · rw [List.mem_singleton.mp hx]
      exact hsingle
  · exact h.inserted
  · exact h.paths

section
variable {bbs' : List Bb} (h : Inv n g f (e :: todo)) (hs : Step f.bbs f.numBbs e bbs')
include h

theorem Inv.source_lt {x : Edge} (hx : x ∈ f.edges ++ e :: todo) : x.source < f.numBbs := by
  obtain ⟨ib, -, -, hib, -⟩ := bbFind_of_outgoing ((h.edges x).mp hx)
  rw [← (bbFind_some hib).2]
  exact h.fresh ib (bbFind_some hib).1

theorem Inv.dest_lt {x : Edge} (hx : x ∈ f.edges ++ e :: todo) : x.dest < f.numBbs := by
  obtain ⟨ib, hib⟩ := Option.isSome_iff_exists.mp (h.found x hx)
  rw [← (bbFind_some hib).2]
  exact h.fresh ib (bbFind_some hib).1

theorem Inv.not_pred {b : ℕ} {phi : List ValueType × PhiNodes} (hphi : phi ∈ phisAt f.bbs b) :
    f.numBbs ∉ predecessors phi.2 :=
  fun hp => Nat.lt_irrefl _ (h.bound b phi hphi _ hp)

theorem Inv.mem_rest {x : Edge} : x ∈ f.edges ++ todo ↔ x ∈ f.edges ++ e :: todo ∧ x ≠ e := by
  have hnodup := (List.nodup_cons.mp (List.nodup_middle.mp h.nodup)).1
  rw [(List.perm_middle).mem_iff, List.mem_cons]
  constructor
  · intro hx
    exact ⟨Or.inr hx, fun heq => hnodup (heq ▸ hx)⟩
  · rintro ⟨hx | hx, hne⟩
    · exact absurd hx hne
    · exact hx

end

theorem mem_edge : e ∈ f.edges ++ e :: todo := List.mem_append_right _ List.mem_cons_self

def stepEdges (f : Function) (e : Edge) (todo : List Edge) : List Edge :=
  ⟨f.numBbs, e.dest⟩ :: (f.edges ++ [⟨e.source, f.numBbs⟩]) ++ todo

theorem stepEdges_perm : (stepEdges f e todo).Perm
    (⟨f.numBbs, e.dest⟩ :: ⟨e.source, f.numBbs⟩ :: (f.edges ++ todo)) := by
  unfold stepEdges
  rw [List.cons_append, List.append_assoc, List.singleton_append]
  exact List.perm_middle.cons _

theorem count_step {b : ℕ} (hb : b ≠ f.numBbs) : (outgoingEdges (stepEdges f e todo) b).length
    = (outgoingEdges (f.edges ++ e :: todo) b).length := by
  unfold outgoingEdges
  rw [(stepEdges_perm.filter _).length_eq, (List.perm_middle.filter _).length_eq,
    List.filter_cons_of_neg (by simpa using Ne.symm hb)]
  by_cases hsource : e.source = b
  · rw [List.filter_cons_of_pos (by simpa using hsource),
      List.filter_cons_of_pos (by simpa using hsource)]
    rfl
  · rw [List.filter_cons_of_neg (by simpa using hsource),
      List.filter_cons_of_neg (by simpa using hsource)]

section
variable {bbs' : List Bb} (h : Inv n g f (e :: todo)) (hs : Step f.bbs f.numBbs e bbs')
include h

theorem Inv.mem_step {x : Edge} :
    x ∈ stepEdges f e todo
      ↔ x = ⟨f.numBbs, e.dest⟩ ∨ x = ⟨e.source, f.numBbs⟩
        ∨ (x ∈ f.edges ++ e :: todo ∧ x ≠ e) := by
  rw [stepEdges_perm.mem_iff, List.mem_cons, List.mem_cons, h.mem_rest]

theorem Inv.nodup_step :
    (stepEdges f e todo).Nodup := by
  have hrest := (List.nodup_cons.mp (List.nodup_middle.mp h.nodup)).2
  rw [stepEdges_perm.nodup_iff, List.nodup_cons, List.nodup_cons]
  refine ⟨fun hmem => ?_, fun hmem => ?_, hrest⟩
  · rcases List.mem_cons.mp hmem with heq | hmem
    · exact Nat.lt_irrefl _ ((Edge.mk.inj heq).1 ▸ h.source_lt mem_edge)
    · exact Nat.lt_irrefl _ (h.source_lt (h.mem_rest.mp hmem).1)
  · exact Nat.lt_irrefl _ (h.dest_lt (h.mem_rest.mp hmem).1)

theorem Inv.count_new :
    (outgoingEdges (stepEdges f e todo) f.numBbs).length = 1 := by
  have hsource : e.source ≠ f.numBbs := Nat.ne_of_lt (h.source_lt mem_edge)
  have hempty : (f.edges ++ todo).filter (fun e => e.source = f.numBbs) = [] := by
    apply List.filter_eq_nil_iff.mpr
    intro x hx
    simpa using Nat.ne_of_lt (h.source_lt (h.mem_rest.mp hx).1)
  unfold outgoingEdges
  rw [(stepEdges_perm.filter _).length_eq, List.filter_cons_of_pos (by simp),
    List.filter_cons_of_neg (by simpa using hsource), hempty]
  rfl

include hs

theorem Inv.edges_step (x : Edge) :
    x ∈ stepEdges f e todo
      ↔ x.dest ∈ outgoing bbs' x.source := by
  have hsource : e.source ≠ f.numBbs := Nat.ne_of_lt (h.source_lt mem_edge)
  rw [h.mem_step, hs.outgoing]
  obtain ⟨s, d⟩ := x
  simp only [Edge.mk.injEq]
  by_cases hnb : s = f.numBbs
  · -- the new block branches to the end of the edge alone
    rw [if_pos hnb, List.mem_singleton]
    constructor
    · rintro (⟨-, hd⟩ | ⟨hs', -⟩ | ⟨hx, -⟩)
      · exact hd
      · exact absurd (hs'.symm.trans hnb) hsource
      · exact absurd hnb (Nat.ne_of_lt (h.source_lt hx))
    · exact fun hd => Or.inl ⟨hnb, hd⟩
  · rw [if_neg hnb]
    by_cases hsrc : s = e.source
    · rw [if_pos hsrc, List.mem_map]
      constructor
      · rintro (⟨hs', -⟩ | ⟨-, hd⟩ | ⟨hx, hne⟩)
        · exact absurd hs' hnb
        · exact ⟨e.dest, (h.edges e).mp mem_edge, by rw [changeTarget_self, hd]⟩
        · refine ⟨d, hsrc ▸ (h.edges _).mp hx, changeTarget_ne fun hd => hne ?_⟩
          rw [hsrc, hd]
      · rintro ⟨t, ht, htarget⟩
        by_cases hdest : t = e.dest
        · rw [hdest, changeTarget_self] at htarget
          exact Or.inr (Or.inl ⟨hsrc, htarget.symm⟩)
        · rw [changeTarget_ne hdest] at htarget
          refine Or.inr (Or.inr ⟨?_, fun heq => hdest ?_⟩)
          · rw [h.edges, hsrc, ← htarget]
            exact ht
          · rw [htarget, ← heq]
    · rw [if_neg hsrc]
      constructor
      · rintro (⟨hs', -⟩ | ⟨hs', -⟩ | ⟨hx, -⟩)
        · exact absurd hs' hnb
        · exact absurd hs' hsrc
        · exact (h.edges _).mp hx
      · intro hd
        refine Or.inr (Or.inr ⟨(h.edges ⟨s, d⟩).mpr hd, fun heq => hsrc ?_⟩)
        rw [← heq]

theorem Inv.phi_step {b : ℕ} {phi : List ValueType × PhiNodes} (hphi : phi ∈ phisAt bbs' b) :
    b ≠ f.numBbs ∧ ∃ phi₀ ∈ phisAt f.bbs b, predecessors phi.2
      = if b = e.dest then (predecessors phi₀.2).map (changeTarget e.source f.numBbs)
        else predecessors phi₀.2 := by
  rw [hs.phisAt] at hphi
  split at hphi
  · exact absurd hphi List.not_mem_nil
  · rename_i hb
    refine ⟨hb, ?_⟩
    split at hphi
    · rename_i hdest
      obtain ⟨phi₀, hphi₀, rfl⟩ := List.mem_map.mp hphi
      refine ⟨phi₀, hdest ▸ hphi₀, ?_⟩
      rw [if_pos hdest]
      exact predecessors_change (h.not_pred hphi₀)
    · rename_i hdest
      exact ⟨phi, hphi, by rw [if_neg hdest]⟩

theorem Inv.bound_step {b : ℕ} {phi : List ValueType × PhiNodes} (hphi : phi ∈ phisAt bbs' b)
    {p : ℕ} (hp : p ∈ predecessors phi.2) : p < f.numBbs + 1 := by
  obtain ⟨-, phi₀, hphi₀, hpreds⟩ := h.phi_step hs hphi
  have hlt : ∀ q ∈ predecessors phi₀.2, q < f.numBbs + 1 :=
    fun q hq => Nat.lt_succ_of_lt (h.bound b phi₀ hphi₀ q hq)
  rw [hpreds] at hp
  split at hp
  · obtain ⟨q, hq, rfl⟩ := List.mem_map.mp hp
    unfold changeTarget
    split
    · exact Nat.lt_succ_self _
    · exact hlt q hq
  · exact hlt p hp

theorem Inv.cover_step {x : Edge} (hx : x ∈ stepEdges f e todo) {phi : List ValueType × PhiNodes}
    (hphi : phi ∈ phisAt bbs' x.dest) : x.source ∈ predecessors phi.2 := by
  obtain ⟨hnb, phi₀, hphi₀, hpreds⟩ := h.phi_step hs hphi
  rw [hpreds]
  rcases h.mem_step.mp hx with rfl | rfl | ⟨hx, hne⟩
  · rw [if_pos rfl, List.mem_map]
    exact ⟨e.source, h.cover e mem_edge phi₀ hphi₀, changeTarget_self⟩
  · exact absurd rfl hnb
  · have hcover := h.cover x hx phi₀ hphi₀
    split
    · rename_i hdest
      refine List.mem_map.mpr ⟨x.source, hcover, changeTarget_ne fun hsource => hne ?_⟩
      obtain ⟨s, d⟩ := x
      cases hdest
      cases hsource
      rfl
    · exact hcover

theorem Inv.single_step {x : Edge}
    (hx : x ∈ (⟨f.numBbs, e.dest⟩ :: (f.edges ++ [⟨e.source, f.numBbs⟩]) : List Edge))
    (hphi : phisAt bbs' x.dest ≠ []) :
    (outgoingEdges (stepEdges f e todo) x.source).length = 1 := by
  rcases List.mem_cons.mp hx with rfl | hx
  · exact h.count_new
  · rcases List.mem_append.mp hx with hx | hx
    · have hmem : x ∈ f.edges ++ e :: todo := List.mem_append_left _ hx
      rw [count_step (Nat.ne_of_lt (h.source_lt hmem))]
      apply h.single x hx
      obtain ⟨phi, hphi⟩ := List.exists_mem_of_ne_nil _ hphi
      obtain ⟨-, phi₀, hphi₀, -⟩ := h.phi_step hs hphi
      exact List.ne_nil_of_mem hphi₀
    · -- the new block has no PHI
      rw [List.mem_singleton.mp hx, hs.phisAt, if_pos rfl] at hphi
      exact absurd rfl hphi

theorem Inv.found_step {x : Edge} (hx : x ∈ stepEdges f e todo) :
    (bbFind bbs' x.dest).isSome = true := by
  rw [hs.found]
  rcases h.mem_step.mp hx with rfl | rfl | ⟨hx, -⟩
  · exact Or.inr (h.found e mem_edge)
  · exact Or.inl rfl
  · exact Or.inr (h.found x hx)

theorem Inv.inserted_step {ib : Bb} (hib : ib ∈ bbs') (hn : n ≤ ib.id) :
    ∃ bb, ib.instrs = [⟨[], .br none bb 0⟩] := by
  obtain ⟨hsource, hdest⟩ := h.old e List.mem_cons_self
  rcases hs.members ib hib with rfl | ⟨ib', hib', -, hsame⟩
  · exact ⟨e.dest, rfl⟩
  · have heq := hsame (by omega) (by omega)
    rw [heq] at hn ⊢
    exact h.inserted ib' hib' hn

theorem Inv.fresh_step {ib : Bb} (hib : ib ∈ bbs') : ib.id < f.numBbs + 1 := by
  rcases hs.members ib hib with rfl | ⟨ib', hib', hid, -⟩
  · exact Nat.lt_succ_self _
  · rw [hid]
    exact Nat.lt_succ_of_lt (h.fresh ib' hib')

/-! ## Paths -/

theorem Inv.selected_old {s t : ℕ} (hsource : s ≠ e.source) (hnb : s ≠ f.numBbs)
    (ht : t ≠ f.numBbs) : (graph bbs').selected s t = (graph f.bbs).selected s t := by
  change (phisAt bbs' t).map _ = (phisAt f.bbs t).map _
  rw [hs.phisAt, if_neg ht]
  split
  · rename_i hdest
    rw [hdest, List.map_map]
    apply List.map_congr_left
    intro phi hphi
    exact congrArg (Prod.mk phi.1) (selects_change_old (h.not_pred hphi) hsource hnb)
  · rfl

theorem Inv.selected_new :
    (graph bbs').selected f.numBbs e.dest = (graph f.bbs).selected e.source e.dest := by
  have hdest : e.dest ≠ f.numBbs := Nat.ne_of_lt (h.dest_lt mem_edge)
  change (phisAt bbs' e.dest).map _ = (phisAt f.bbs e.dest).map _
  rw [hs.phisAt, if_neg hdest, if_pos rfl, List.map_map]
  apply List.map_congr_left
  intro phi hphi
  exact congrArg (Prod.mk phi.1) (selects_change_new (h.not_pred hphi))

omit h in
theorem selected_other {s t : ℕ} (hdest : t ≠ e.dest) (ht : t ≠ f.numBbs) :
    (graph bbs').selected s t = (graph f.bbs).selected s t := by
  change (phisAt bbs' t).map _ = (phisAt f.bbs t).map _
  rw [hs.phisAt, if_neg ht, if_neg hdest]

omit hs in
theorem Inv.outgoing_lt {b t : ℕ} (ht : t ∈ outgoing f.bbs b) : t < f.numBbs :=
  h.dest_lt ((h.edges ⟨b, t⟩).mpr ht)

theorem Inv.pass_step {t : ℕ} (hn : n ≤ t) (ht : t < f.numBbs) :
    ((graph bbs').target t 0).map (fun dest => (dest, (graph bbs').selected t dest))
      = ((graph f.bbs).target t 0).map fun dest => (dest, (graph f.bbs).selected t dest) := by
  have hsource : t ≠ e.source := by
    have hold := (h.old e List.mem_cons_self).1
    omega
  have hout : outgoing bbs' t = outgoing f.bbs t := by
    rw [hs.outgoing, if_neg (Nat.ne_of_lt ht), if_neg hsource]
  change ((outgoing bbs' t)[0]?).map _ = ((outgoing f.bbs t)[0]?).map _
  rw [hout]
  cases hget : (outgoing f.bbs t)[0]? with
  | none => rfl
  | some dest =>
    have hdest := h.outgoing_lt (List.mem_of_getElem? hget)
    rw [Option.map_some, Option.map_some,
      h.selected_old hs hsource (Nat.ne_of_lt ht) (Nat.ne_of_lt hdest)]

theorem Inv.arrive_step {b : ℕ} (hb : b < n) (k : ℕ) :
    (graph bbs').arrive n b k = (graph f.bbs).arrive n b k := by
  obtain ⟨hsource, hdest⟩ := h.old e List.mem_cons_self
  have hle := h.le
  have hbnb : b ≠ f.numBbs := by omega
  change ((outgoing bbs' b)[k]?).bind _ = ((outgoing f.bbs b)[k]?).bind _
  rw [hs.outgoing, if_neg hbnb]
  by_cases hbs : b = e.source
  · rw [if_pos hbs, ← hbs, List.getElem?_map]
    cases hget : (outgoing f.bbs b)[k]? with
    | none => rfl
    | some t =>
      have ht := h.outgoing_lt (List.mem_of_getElem? hget)
      rw [Option.map_some, Option.bind_some, Option.bind_some]
      by_cases htd : t = e.dest
      · -- by way of the new block
        have hnew : (graph bbs').target f.numBbs 0 = some e.dest := by
          change (outgoing bbs' f.numBbs)[0]? = _
          rw [hs.outgoing, if_pos rfl]
          rfl
        rw [htd, changeTarget_self, if_neg (Nat.not_lt.mpr hle), hnew, if_pos hdest,
          Option.map_some, h.selected_new hs, hbs]
      · rw [changeTarget_ne htd]
        split
        · rw [selected_other hs htd (Nat.ne_of_lt ht)]
        · rename_i hn
          exact h.pass_step hs (Nat.not_lt.mp hn) ht
  · rw [if_neg hbs]
    cases hget : (outgoing f.bbs b)[k]? with
    | none => rfl
    | some t =>
      have ht := h.outgoing_lt (List.mem_of_getElem? hget)
      rw [Option.bind_some, Option.bind_some]
      split
      · rw [h.selected_old hs hbs hbnb (Nat.ne_of_lt ht)]
      · rename_i hn
        exact h.pass_step hs (Nat.not_lt.mp hn) ht

theorem Inv.step : Inv n g ⟨bbs', f.numBbs + 1,
    ⟨f.numBbs, e.dest⟩ :: (f.edges ++ [⟨e.source, f.numBbs⟩])⟩ todo where
  fresh := fun _ hib => h.fresh_step hs hib
  le := Nat.le_succ_of_le h.le
  nodup := h.nodup_step
  edges := h.edges_step hs
  found := fun _ hx => h.found_step hs hx
  old := fun x hx => h.old x (List.mem_cons_of_mem e hx)
  bound := fun _ _ hphi _ hp => h.bound_step hs hphi hp
  cover := fun _ hx _ hphi => h.cover_step hs hx hphi
  single := fun _ hx hphi => h.single_step hs hx hphi
  inserted := fun _ hib hn => h.inserted_step hs hib hn
  paths := fun b hb k => (h.arrive_step hs hb k).trans (h.paths b hb k)

end

theorem startsWithPhi_iff {ib : Bb} {b : ℕ} {bbs : List Bb} (hib : bbFind bbs b = some ib) :
    startsWithPhi ib = true ↔ phisAt bbs b ≠ [] := by
  unfold phisAt instrsAt startsWithPhi
  rw [hib]
  change _ ↔ phis ib.instrs ≠ []
  match ib.instrs with
  | [] => exact iff_of_false Bool.false_ne_true fun h => h rfl
  | ⟨rets, cls⟩ :: iis =>
    cases cls
    case phi nodes => exact iff_of_true rfl (List.cons_ne_nil _ _)
    all_goals
      exact iff_of_false Bool.false_ne_true fun h => h rfl

theorem breakEdges_run (h : Inv n g f todo) :
    ∃ f', breakEdges f todo = .ok f' ∧ Inv n g f' [] := by
  induction todo generalizing f with
  | nil => exact ⟨f, rfl, h⟩
  | cons e todo ih =>
    obtain ⟨dest, hdest⟩ := Option.isSome_iff_exists.mp (h.found e mem_edge)
    have hphi := startsWithPhi_iff hdest
    unfold breakEdges
    rw [hdest]
    by_cases hcritical : startsWithPhi dest = true
        ∧ 2 ≤ (outgoingEdges (f.edges ++ e :: todo) e.source).length
    · obtain ⟨bbs', hrun, hs⟩ := breakCriticalEdge_step
        (fun ib hib => Nat.ne_of_lt (h.fresh ib hib)) ((h.edges e).mp mem_edge)
        (h.found e mem_edge)
      obtain ⟨f', hrun', h'⟩ := ih (h.step hs)
      refine ⟨f', ?_, h'⟩
      change (if _ then _ else _) = _
      rw [if_pos hcritical, hrun]
      exact hrun'
    · have hmem : e ∈ outgoingEdges (f.edges ++ e :: todo) e.source :=
        mem_outgoing.mpr ⟨mem_edge, rfl⟩
      have hpos := List.length_pos_of_mem hmem
      obtain ⟨f', hrun', h'⟩ := ih (h.keep fun hne => by
        have hfew := not_and.mp hcritical (hphi.mpr hne)
        omega)
      refine ⟨f', ?_, h'⟩
      change (if _ then _ else _) = _
      rw [if_neg hcritical]
      exact hrun'

end

end Vmir.CriticalEdgeRuns
