import Vmir.DeadCodeOrder
import Vmir.RelatedLists
import Mathlib.Data.List.Forall2

set_option autoImplicit false

/-!
# The turns of dead code elimination

In front of every turn the blocks, edges and instructions of the function are those that the order
of the blocks, the branches and the uses tell.
-/
namespace Vmir.DeadCodeTurns
open Ir DeadCode DeadCodeFlow DeadCodeOrder Relation

/-- The blocks and edges in front of turn `t`. -/
structure Follows (f : Function) (t : ℕ) (g : Function) : Prop where
  flow : Flow g
  sublist : (ids g).Sublist (ids f)
  present : ∀ y ∈ ids f, y ∈ ids g ↔ Present f t y
  incoming : ∀ x ∈ ids g,
    List.Forall₂ (fun p e => Within f t p e.ibeFrom) (entering f t x) (incoming g x)
  last : ∀ q x, ⟨q, x⟩ ∈ f.edges → x ∈ ids g → ∀ y ∈ ids g, Within f t q y →
    (instrsOf g y).getLast? = (instrsOf f q).getLast?

section
variable {f g g' : Function} {t q p p' x y ib : ℕ}

theorem within_ids (hf : Flow f) (h : Within f t q y) (hq : q ∈ ids f) : y ∈ ids f := by
  rcases h.cases_tail with rfl | ⟨z, -, hz⟩
  · exact hq
  · exact (hz.1.ids hf).2

theorem follows_start (hf : Flow f) : Follows f 0 f := by
  have hlasts : ∀ q, Lasts f 0 q := fun q => .ahead (Nat.zero_le _)
  have hwithin : ∀ {q y}, Within f 0 q y → q = y := by
    intro q y h
    exact h.cases_head.resolve_right fun ⟨p, hp, _⟩ => absurd hp.2 (Nat.not_lt_zero _)
  refine ⟨hf, List.Sublist.refl _, fun y hy => iff_of_true hy (Or.inl (Nat.zero_le _)),
    fun x hx => ?_, fun q x _ _ y _ h => by rw [hwithin h]⟩
  classical
  have hall : entering f 0 x = (DeadCode.incoming f x).map Edge.ibeFrom :=
    List.filter_eq_self.mpr fun p _ => decide_eq_true (hlasts p)
  rw [hall, List.forall₂_map_left_iff]
  exact List.forall₂_same.mpr fun e _ => .refl

theorem Follows.ids (h : Follows f t g) (hy : y ∈ DeadCode.ids g) : y ∈ DeadCode.ids f :=
  h.sublist.subset hy

theorem Follows.isPresent (h : Follows f t g) (hy : y ∈ DeadCode.ids g) : Present f t y :=
  (h.present y (h.ids hy)).mp hy

theorem Follows.exists_within (h : Follows f t g) (hf : Flow f) (hq : q ∈ DeadCode.ids f)
    (hlasts : Lasts f t q) : ∃ y ∈ DeadCode.ids g, Within f t q y := by
  obtain ⟨y, hwithin, hpresent⟩ := lasts_iff_within.mp hlasts
  exact ⟨y, (h.present y (within_ids hf hwithin hq)).mpr hpresent, hwithin⟩

theorem Follows.lasts (h : Follows f t g) (hy : y ∈ DeadCode.ids g) (hwithin : Within f t q y) :
    Lasts f t q := lasts_iff_within.mpr ⟨y, hwithin, h.isPresent hy⟩

theorem Follows.endsInBr_iff (h : Follows f t g) (hedge : ⟨q, x⟩ ∈ f.edges)
    (hx : x ∈ DeadCode.ids g) (hy : y ∈ DeadCode.ids g) (hwithin : Within f t q y) :
    EndsInBr g y ↔ EndsInBr f q := by
  unfold EndsInBr
  rw [h.last q x hedge hx y hy hwithin]

theorem Follows.joins (h : Follows f (turn f ib) g) (hib : ib ∈ DeadCode.ids g)
    (hfirst : turn f ib ≠ 0) (hin : DeadCode.incoming g ib = [⟨p', ib⟩])
    (hends : EndsInBr g p') : ∃ p, Joins f ib p ∧ Within f (turn f ib) p p' := by
  have hpairs := h.incoming ib hib
  rw [hin] at hpairs
  obtain ⟨p, l, hwithin, hnil, hentering⟩ := List.forall₂_cons_right_iff.mp hpairs
  rw [List.forall₂_nil_right_iff.mp hnil] at hentering
  have hedge : ⟨p, ib⟩ ∈ f.edges ∧ Lasts f (turn f ib) p := by
    apply mem_entering.mp
    rw [hentering]
    exact List.mem_singleton_self p
  have hp' : p' ∈ DeadCode.ids g := (h.flow.edge _ (mem_incoming.mp
    (hin ▸ List.mem_singleton_self _)).1).1
  exact ⟨p, ⟨hfirst, (h.endsInBr_iff hedge.1 hib hp' hwithin).mp hends, hentering⟩, hwithin⟩

theorem Follows.of_joins (h : Follows f (turn f ib) g) (hib : ib ∈ DeadCode.ids g)
    (hjoins : Joins f ib p) : ∃ p' ∈ DeadCode.ids g, DeadCode.incoming g ib = [⟨p', ib⟩]
      ∧ EndsInBr g p' ∧ Within f (turn f ib) p p' := by
  have hpairs := h.incoming ib hib
  rw [hjoins.2.2] at hpairs
  obtain ⟨e, l, hwithin, hnil, hin⟩ := List.forall₂_cons_left_iff.mp hpairs
  rw [List.forall₂_nil_left_iff.mp hnil] at hin
  have hmem := mem_incoming.mp (hin ▸ List.mem_singleton_self e)
  have hp' := (h.flow.edge e hmem.1).1
  refine ⟨e.ibeFrom, hp', ?_, (h.endsInBr_iff hjoins.mem.1 hib hp' hwithin).mpr hjoins.2.1,
    hwithin⟩
  rw [hin, ← incoming_singleton hin]

theorem Follows.incoming_nil (h : Follows f t g) (hx : x ∈ DeadCode.ids g) :
    DeadCode.incoming g x = [] ↔ entering f t x = [] := by
  rw [← List.length_eq_zero_iff, ← List.length_eq_zero_iff, (h.incoming x hx).length_eq]

open Classical in
theorem entering_succ : entering f (t + 1) x
    = (entering f t x).filter fun p => Lasts f (t + 1) p := by
  unfold entering
  rw [List.filter_filter]
  apply List.filter_congr
  intro p _
  by_cases hp : Lasts f (t + 1) p
  · simp [hp, hp.antitone (Nat.le_succ t)]
  · simp [hp]

theorem Follows.pruned (h : Follows f t g) (hp : Pruned ib g g') (hib : ib ∈ DeadCode.ids g) :
    Follows f t g' where
  flow := hp.flow h.flow
  sublist := hp.ids ▸ h.sublist
  present y hy := hp.ids ▸ h.present y hy
  incoming x hx := by
    rw [hp.incoming]
    exact h.incoming x (hp.ids ▸ hx)
  last q x hedge hx y hy hwithin := by
    rw [hp.ids] at hx hy
    rw [← h.last q x hedge hx y hy hwithin]
    by_cases hne : y = ib
    · subst hne
      obtain ⟨i, hi, hout, -⟩ := h.flow.last y hib
      rw [hi]
      exact hp.last i hi hout
    · rw [hp.others y hne]

theorem incoming_bbDestroy (hx : x ≠ ib) :
    incoming (bbDestroy g ib) x = (incoming g x).filter fun e => e.ibeFrom ≠ ib := by
  unfold incoming bbDestroy
  rw [List.filter_filter, List.filter_filter]
  apply List.filter_congr
  intro e _
  by_cases hto : e.ibeTo = x
  · simp [hto, hx]
  · simp [hto]

theorem Follows.lasts_succ (h : Follows f (turn f ib) g) (hq : q ∈ DeadCode.ids f)
    (hf : Flow f) (hgone : ¬ Present f (turn f ib + 1) ib)
    (hwithin : ∀ q y, Present f (turn f ib + 1) y →
      (Within f (turn f ib + 1) q y ↔ Within f (turn f ib) q y))
    (hy : y ∈ DeadCode.ids g) (hqy : Within f (turn f ib) q y) :
    Lasts f (turn f ib + 1) q ↔ y ≠ ib := by
  rw [lasts_iff_within]
  constructor
  · rintro ⟨z, hz, hpresent⟩ rfl
    have hzids := within_ids hf hz hq
    have hne : z ≠ y := fun heq => hgone (heq ▸ hpresent)
    exact hne (((hwithin q z hpresent).mp hz).unique hqy
      ((present_succ_of_ne hzids hne).mp hpresent) present_turn)
  · intro hne
    have hpresent := (present_succ_of_ne (h.ids hy) hne).mpr (h.isPresent hy)
    exact ⟨y, hqy.mono (Nat.le_succ _), hpresent⟩

theorem Follows.destroy (h : Follows f (turn f ib) g) (hf : Flow f)
    (hgone : ¬ Present f (turn f ib + 1) ib)
    (hwithin : ∀ q y, Present f (turn f ib + 1) y →
      (Within f (turn f ib + 1) q y ↔ Within f (turn f ib) q y))
    (hflow : Flow (bbDestroy g ib)) : Follows f (turn f ib + 1) (bbDestroy g ib) := by
  have hmem : ∀ {y}, y ∈ DeadCode.ids (bbDestroy g ib) ↔ y ∈ DeadCode.ids g ∧ y ≠ ib := by
    intro y
    rw [ids_bbDestroy, List.mem_filter, decide_eq_true_eq]
  have hpresent : ∀ y ∈ DeadCode.ids f,
      y ∈ DeadCode.ids (bbDestroy g ib) ↔ Present f (turn f ib + 1) y := by
    intro y hy
    rw [hmem]
    by_cases hne : y = ib
    · subst hne
      exact iff_of_false (fun h => h.2 rfl) hgone
    · rw [h.present y hy, present_succ_of_ne hy hne]
      exact and_iff_left hne
  refine ⟨hflow, ?_, hpresent, fun x hx => ?_, fun q x hedge hx y hy hqy => ?_⟩
  · rw [ids_bbDestroy]
    exact List.filter_sublist.trans h.sublist
  · obtain ⟨hx, hne⟩ := hmem.mp hx
    rw [incoming_bbDestroy hne, entering_succ]
    refine (RelatedLists.forall₂_filter (h.incoming x hx) fun p hp e he hpe => ?_).imp fun _ _ hpe =>
      hpe.mono (Nat.le_succ _)
    classical
    rw [decide_eq_true_eq, decide_eq_true_eq]
    exact h.lasts_succ (hf.edge _ (mem_entering.mp hp).1).1 hf hgone hwithin
      (h.flow.edge e (mem_incoming.mp he).1).1 hpe
  · obtain ⟨hx, -⟩ := hmem.mp hx
    have hyg := hmem.mp hy
    rw [instrsOf_bbDestroy hyg.2]
    exact h.last q x hedge hx y hyg.1
      ((hwithin q y ((hpresent y (h.ids hyg.1)).mp hy)).mp hqy)

theorem Follows.stay (h : Follows f (turn f ib) g) (hf : Flow f)
    (hnot : ∀ p, ¬ Joins f ib p) (hstays : Present f (turn f ib + 1) ib) :
    Follows f (turn f ib + 1) g := by
  have hsame := joinsBefore_succ_of_not hf hnot
  have hwithin : ∀ q y, Within f (turn f ib + 1) q y ↔ Within f (turn f ib) q y := by
    intro q y
    unfold Within
    rw [hsame]
  have hpresent : ∀ y ∈ DeadCode.ids f,
      Present f (turn f ib + 1) y ↔ Present f (turn f ib) y := by
    intro y hy
    by_cases hne : y = ib
    · subst hne
      exact iff_of_true hstays present_turn
    · exact present_succ_of_ne hy hne
  refine ⟨h.flow, h.sublist, fun y hy => (h.present y hy).trans (hpresent y hy).symm,
    fun x hx => ?_, fun q x hedge hx y hy hqy => h.last q x hedge hx y hy ((hwithin q y).mp hqy)⟩
  have hall : entering f (turn f ib + 1) x = entering f (turn f ib) x := by
    rw [entering_succ]
    apply List.filter_eq_self.mpr
    intro p hp
    classical
    rw [decide_eq_true_eq]
    obtain ⟨hedge, hlasts⟩ := mem_entering.mp hp
    obtain ⟨y, hy, hpy⟩ := h.exists_within hf (hf.edge _ hedge).1 hlasts
    exact lasts_iff_within.mpr ⟨y, (hwithin p y).mpr hpy,
      (hpresent y (h.ids hy)).mpr (h.isPresent hy)⟩
  rw [hall]
  exact (h.incoming x hx).imp fun p e hpe => (hwithin p e.ibeFrom).mpr hpe

theorem Follows.merge (h : Follows f (turn f ib) g) (hf : Flow f) (hjoins : Joins f ib p)
    (hp : Within f (turn f ib) p p') (hib : ib ∈ DeadCode.ids g) (hne : p' ≠ ib)
    (hin : DeadCode.incoming g ib = [⟨p', ib⟩]) (hends : EndsInBr g p')
    (hm : Merged ib p' g g') (hflow : Flow g') : Follows f (turn f ib + 1) g' := by
  have hp' : p' ∈ DeadCode.ids g := (h.flow.edge _ (mem_incoming.mp
    (hin ▸ List.mem_singleton_self _)).1).1
  have hgone : ¬ Present f (turn f ib + 1) ib :=
    fun hpresent => hpresent.terminal p ⟨hjoins, Nat.lt_succ_self _⟩
  have hmem : ∀ {y}, y ∈ DeadCode.ids g' ↔ y ∈ DeadCode.ids g ∧ y ≠ ib := by
    intro y
    rw [hm.ids, List.mem_filter, decide_eq_true_eq]
  have hpresent : ∀ y ∈ DeadCode.ids f,
      y ∈ DeadCode.ids g' ↔ Present f (turn f ib + 1) y := by
    intro y hy
    rw [hmem]
    by_cases hyib : y = ib
    · subst hyib
      exact iff_of_false (fun h => h.2 rfl) hgone
    · rw [h.present y hy, present_succ_of_ne hy hyib]
      exact and_iff_left hyib
  have hwithin {q y : ℕ} (hy : y ∈ DeadCode.ids g') :=
    within_succ_of_joins (q := q) hf hjoins hp (h.isPresent hp')
      ((hpresent y (h.ids (hmem.mp hy).1)).mp hy)
  have hp'' : p' ∈ DeadCode.ids g' := hmem.mpr ⟨hp', hne⟩
  refine ⟨hflow, ?_, hpresent, fun x hx => ?_, fun q x hedge hx y hy hqy => ?_⟩
  · rw [hm.ids]
    exact List.filter_sublist.trans h.sublist
  · obtain ⟨hx, hxne⟩ := hmem.mp hx
    have hall : entering f (turn f ib + 1) x = entering f (turn f ib) x := by
      rw [entering_succ]
      apply List.filter_eq_self.mpr
      intro q hq
      classical
      rw [decide_eq_true_eq]
      obtain ⟨hedge, hlasts⟩ := mem_entering.mp hq
      obtain ⟨y, hy, hqy⟩ := h.exists_within hf (hf.edge _ hedge).1 hlasts
      by_cases hyib : y = ib
      · exact lasts_iff_within.mpr ⟨p', (hwithin hp'').mpr (Or.inr ⟨hyib ▸ hqy, rfl⟩),
          (hpresent p' (h.ids hp')).mp hp''⟩
      · exact lasts_iff_within.mpr ⟨y, hqy.mono (Nat.le_succ _),
          (hpresent y (h.ids hy)).mp (hmem.mpr ⟨hy, hyib⟩)⟩
    rw [hall, hm.incoming hxne, List.forall₂_map_right_iff]
    refine (h.incoming x hx).imp fun q e hqe => ?_
    split
    · next hfrom => exact (hwithin hp'').mpr (Or.inr ⟨hfrom ▸ hqe, rfl⟩)
    · exact hqe.mono (Nat.le_succ _)
  · obtain ⟨hx, hxne⟩ := hmem.mp hx
    have hyg := hmem.mp hy
    by_cases hyp : y = p'
    · subst hyp
      obtain ⟨i, hi, -⟩ := h.flow.last ib hib
      have hlast : (instrsOf g' y).getLast? = (instrsOf g ib).getLast? := by
        rw [hm.target, List.getLast?_append, hi]
        rfl
      rw [hlast]
      rcases (hwithin hy).mp hqy with hold | ⟨hold, -⟩
      · -- the only edge out of the other block is the one that is taken away
        exfalso
        obtain ⟨out, hout⟩ := outgoing_of_endsInBr h.flow hends hp'
        have hq : q ∈ entering f (turn f ib) x :=
          mem_entering.mpr ⟨hedge, h.lasts hp' hold⟩
        obtain ⟨e, he, hqe⟩ := RelatedLists.mem_forall₂ (h.incoming x hx) hq
        obtain ⟨hemem, hto⟩ := mem_incoming.mp he
        have hfrom : e.ibeFrom = y := hqe.unique hold
          (h.isPresent (h.flow.edge e hemem).1) (h.isPresent hp')
        have hcut : ⟨y, ib⟩ ∈ outgoing g y := mem_outgoing.mpr
          ⟨(mem_incoming.mp (hin ▸ List.mem_singleton_self _)).1, rfl⟩
        have heout : e ∈ outgoing g y := mem_outgoing.mpr ⟨hemem, hfrom⟩
        rw [hout] at hcut heout
        have heq := (List.mem_singleton.mp heout).trans (List.mem_singleton.mp hcut).symm
        rw [heq] at hto
        exact hxne hto.symm
      · exact h.last q x hedge hx ib hib hold
    · rw [hm.others y hyg.2 hyp]
      refine h.last q x hedge hx y hyg.1 (((hwithin hy).mp hqy).resolve_right fun hold => ?_)
      exact hyp hold.2

theorem Follows.visited (h : Follows f (turn f ib) g) (hf : Flow f) (hib : ib ∈ DeadCode.ids g)
    (hfirst : turn f ib ≠ 0) (hv : Visited g ib g') : Follows f (turn f ib + 1) g' := by
  have hpruned := pruned_inBb g ib
  have hflow := hv.flow h.flow
  have hself : Present f (turn f ib + 1) ib ↔ entering f (turn f ib) ib ≠ [] ∧ ∀ p, ¬ Joins f ib p :=
    present_succ_self hfirst
  cases hv with
  | unreachable hin =>
    have hentering := (h.incoming_nil hib).mp hin
    have hgone : ¬ Present f (turn f ib + 1) ib := fun hp => (hself.mp hp).1 hentering
    have hnot : ∀ p, ¬ Joins f ib p := by
      intro p hp
      have hentered := hp.2.2
      rw [hentering] at hentered
      cases hentered
    exact h.destroy hf hgone
      (fun q y => within_succ_of_gone hf hgone fun p hp => absurd hp (hnot p)) hflow
  | stays hin hends =>
    have hnot : ∀ p, ¬ Joins f ib p := by
      intro p hp
      obtain ⟨p', -, hin', hends', -⟩ := h.of_joins hib hp
      exact hends p' hin' hends'
    refine (h.pruned hpruned hib).stay hf hnot (hself.mpr ⟨fun hnil => hin ?_, hnot⟩)
    exact (h.incoming_nil hib).mpr hnil
  | @merged p' _ hin hne hends hm =>
    obtain ⟨p, hp, hwithin⟩ := h.joins hib hfirst hin hends
    have hp' : p' ∈ DeadCode.ids g := (h.flow.edge _ (mem_incoming.mp
      (hin ▸ List.mem_singleton_self _)).1).1
    exact (h.pruned hpruned hib).merge hf hp hwithin (hpruned.ids ▸ hib) hne
      (hpruned.incoming.trans hin) (endsInBr_pruned hends h.flow hp' hpruned) hm hflow
  | alone hin hends _ =>
    obtain ⟨p, hp, hwithin⟩ := h.joins hib hfirst hin hends
    have hgone : ¬ Present f (turn f ib + 1) ib :=
      fun hpresent => hpresent.terminal p ⟨hp, Nat.lt_succ_self _⟩
    refine (h.pruned hpruned hib).destroy hf hgone
      (fun q y => within_succ_of_gone hf hgone ?_) hflow
    intro p₁ hp₁
    rw [hp₁.unique (mem_entering.mpr hp.mem)] at hwithin
    exact hwithin

end

end Vmir.DeadCodeTurns
