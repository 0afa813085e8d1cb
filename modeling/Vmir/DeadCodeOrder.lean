import Vmir.DeadCodeFlow
import Mathlib.Logic.Relation

set_option autoImplicit false

/-!
# What dead code elimination takes, and when

The pass comes to the blocks in the order of the list, and to the instructions of a block from the
last to the first. From the branches, the uses and that order alone it follows which blocks go as
unreachable, which are merged into another, and which instructions go.
-/
namespace Vmir.DeadCodeOrder
open Ir DeadCode DeadCodeFlow Relation

/-! ## Blocks -/

section
variable (f : Function)

/-- The turn in which the pass comes to the block. The first block has turn 0. -/
def turn (q : ℕ) : ℕ := (ids f).idxOf q

/-- In front of turn `t` the instructions of the block are there, in the block itself or in one that
it has been merged into: it is the first, or has its turn ahead, or at its turn was entered by
several edges, by one that is not an unconditional branch, or by one from a block that is there. -/
inductive Lasts : ℕ → ℕ → Prop
  | first {t q : ℕ} : turn f q = 0 → Lasts t q
  | ahead {t q : ℕ} : t ≤ turn f q → Lasts t q
  | several {t p p' q : ℕ} : [⟨p, q⟩, ⟨p', q⟩].Sublist f.edges → Lasts (turn f q) p →
      Lasts (turn f q) p' → Lasts t q
  | kept {t p q : ℕ} : ⟨p, q⟩ ∈ f.edges → Lasts (turn f q) p → ¬ EndsInBr f p → Lasts t q
  | joined {t p q : ℕ} : ⟨p, q⟩ ∈ f.edges → Lasts (turn f q) p → Lasts t p → Lasts t q

open Classical in
/-- The blocks that have an edge into the block in front of turn `t`, each once for every edge. -/
noncomputable def entering (t q : ℕ) : List ℕ :=
  ((incoming f q).map Edge.ibeFrom).filter fun p => Lasts f t p

/-- At its turn the block is merged into the other, or what the other has been merged into. -/
def Joins (q p : ℕ) : Prop :=
  turn f q ≠ 0 ∧ EndsInBr f p ∧ entering f (turn f q) q = [p]

def JoinsBefore (t q p : ℕ) : Prop := Joins f q p ∧ turn f q < t

/-- In front of turn `t` the instructions of the block are in block `y`. -/
def Within (t q y : ℕ) : Prop := ReflTransGen (JoinsBefore f t) q y

/-- In front of turn `t` the block is one of the list. -/
def Present (t y : ℕ) : Prop :=
  t ≤ turn f y ∨ turn f y = 0 ∨ entering f (turn f y) y ≠ [] ∧ ∀ p, ¬ Joins f y p

end

section
variable {f : Function} {t t' p q x y y' : ℕ}

theorem mem_entering : p ∈ entering f t q ↔ ⟨p, q⟩ ∈ f.edges ∧ Lasts f t p := by
  classical
  unfold entering
  rw [List.mem_filter, decide_eq_true_eq, List.mem_map]
  refine and_congr_left fun _ => ⟨?_, fun h => ⟨_, mem_incoming.mpr ⟨h, rfl⟩, rfl⟩⟩
  rintro ⟨⟨p, q'⟩, he, rfl⟩
  obtain ⟨hedge, hto⟩ := mem_incoming.mp he
  obtain rfl : q' = q := hto
  exact hedge

theorem Joins.unique (h : Joins f q p) (hp : x ∈ entering f (turn f q) q) : x = p := by
  rw [h.2.2] at hp
  exact List.mem_singleton.mp hp

theorem Joins.mem (h : Joins f q p) : ⟨p, q⟩ ∈ f.edges ∧ Lasts f (turn f q) p := by
  apply mem_entering.mp
  rw [h.2.2]
  exact List.mem_singleton_self p

theorem entering_sublist (h : [⟨p, q⟩, ⟨x, q⟩].Sublist f.edges) (hp : Lasts f t p)
    (hx : Lasts f t x) : [p, x].Sublist (entering f t q) := by
  have hedges : [(⟨p, q⟩ : Edge), ⟨x, q⟩].Sublist (incoming f q) := by
    have hfilter := h.filter fun e => decide (e.ibeTo = q)
    simpa [incoming] using hfilter
  have hfroms := hedges.map Edge.ibeFrom
  unfold entering
  classical
  have hall := hfroms.filter fun p => decide (Lasts f t p)
  simpa [hp, hx] using hall

theorem sublist_of_entering {l : List ℕ} (h : entering f t q = p :: x :: l) :
    [⟨p, q⟩, ⟨x, q⟩].Sublist f.edges := by
  have hsub : [p, x].Sublist ((incoming f q).map Edge.ibeFrom) := by
    have hpair : [p, x].Sublist (entering f t q) := by
      rw [h]
      exact (List.nil_sublist l).cons_cons x |>.cons_cons p
    exact hpair.trans List.filter_sublist
  obtain ⟨es, hes, heq⟩ := List.sublist_map_iff.mp hsub
  obtain ⟨e, es', rfl, rfl, hes'⟩ := List.map_eq_cons_iff.mp heq.symm
  obtain ⟨e', es'', rfl, rfl, hnil⟩ := List.map_eq_cons_iff.mp hes'
  obtain rfl := List.map_eq_nil_iff.mp hnil
  have hto : ∀ e ∈ incoming f q, e.ibeTo = q := fun e he => (mem_incoming.mp he).2
  have he : e.ibeTo = q := hto e (hes.subset List.mem_cons_self)
  have he' : e'.ibeTo = q := hto e' (hes.subset (List.mem_cons_of_mem e List.mem_cons_self))
  rw [← he]
  nth_rewrite 2 [he]
  rw [← he']
  exact hes.trans List.filter_sublist

/-- Behind its turn a block is left if an edge has entered it and, if it has been merged, the other
is left. -/
theorem lasts_iff (hfirst : turn f q ≠ 0) (hturn : turn f q < t) :
    Lasts f t q ↔ entering f (turn f q) q ≠ [] ∧ ∀ p, Joins f q p → Lasts f t p := by
  constructor
  · intro h
    cases h with
    | first h => exact absurd h hfirst
    | ahead h => omega
    | several hedges hp hp' =>
      have hsub := entering_sublist hedges hp hp'
      have hlen := hsub.length_le
      refine ⟨List.ne_nil_of_length_pos (Nat.lt_of_lt_of_le Nat.zero_lt_two hlen),
        fun p'' hjoins => ?_⟩
      rw [hjoins.2.2] at hlen
      exact absurd hlen (by simp)
    | kept hedge hp hends =>
      have hmem := mem_entering.mpr ⟨hedge, hp⟩
      refine ⟨List.ne_nil_of_mem hmem, fun p'' hjoins => ?_⟩
      exact absurd (hjoins.unique hmem ▸ hjoins.2.1) hends
    | joined hedge hp hlast =>
      have hmem := mem_entering.mpr ⟨hedge, hp⟩
      exact ⟨List.ne_nil_of_mem hmem, fun p'' hjoins => hjoins.unique hmem ▸ hlast⟩
  · rintro ⟨hne, hjoined⟩
    match hin : entering f (turn f q) q with
    | [] => exact absurd hin hne
    | [p] =>
      have hp : ⟨p, q⟩ ∈ f.edges ∧ Lasts f (turn f q) p := by
        apply mem_entering.mp
        rw [hin]
        exact List.mem_singleton_self p
      by_cases hends : EndsInBr f p
      · exact .joined hp.1 hp.2 (hjoined p ⟨hfirst, hends, hin⟩)
      · exact .kept hp.1 hp.2 hends
    | p :: p' :: l =>
      have hmem : ∀ x ∈ p :: p' :: l, Lasts f (turn f q) x := by
        intro x hx
        rw [← hin] at hx
        exact (mem_entering.mp hx).2
      exact .several (sublist_of_entering hin) (hmem p List.mem_cons_self)
        (hmem p' (List.mem_cons_of_mem p List.mem_cons_self))

theorem lasts_of_present (h : Present f t y) : Lasts f t y := by
  by_cases hfirst : turn f y = 0
  · exact .first hfirst
  by_cases hturn : t ≤ turn f y
  · exact .ahead hturn
  rcases h with h | h | ⟨hne, hjoins⟩
  · exact absurd h hturn
  · exact absurd h hfirst
  · exact (lasts_iff hfirst (by omega)).mpr ⟨hne, fun p hp => absurd hp (hjoins p)⟩

theorem lasts_of_within (h : Within f t q y) (hy : Present f t y) : Lasts f t q := by
  induction h using ReflTransGen.head_induction_on with
  | refl => exact lasts_of_present hy
  | @head q p hjoins _ ih =>
    obtain ⟨hjoins, hturn⟩ := hjoins
    refine (lasts_iff hjoins.1 hturn).mpr ⟨?_, fun p' hp' => ?_⟩
    · rw [hjoins.2.2]
      exact List.cons_ne_nil p []
    · have hmem := mem_entering.mpr hp'.mem
      rw [hjoins.unique hmem]
      exact ih

theorem lasts_iff_within : Lasts f t q ↔ ∃ y, Within f t q y ∧ Present f t y := by
  refine ⟨fun h => ?_, fun ⟨y, hy, hpresent⟩ => lasts_of_within hy hpresent⟩
  by_cases hahead : t ≤ turn f q ∨ turn f q = 0
  · exact ⟨q, .refl, hahead.elim Or.inl fun h => Or.inr (Or.inl h)⟩
  induction h with
  | first h => exact absurd (Or.inr h) hahead
  | ahead h => exact absurd (Or.inl h) hahead
  | several hedges hp hp' =>
    have hlasts := (lasts_iff (f := f) (fun h => hahead (Or.inr h))
      (not_le.mp fun h => hahead (Or.inl h))).mp (.several hedges hp hp')
    have hlen := (entering_sublist hedges hp hp').length_le
    refine ⟨_, .refl, Or.inr (Or.inr ⟨hlasts.1, fun p'' hjoins => ?_⟩)⟩
    rw [hjoins.2.2] at hlen
    exact absurd hlen (by simp)
  | kept hedge hp hends =>
    have hmem := mem_entering.mpr ⟨hedge, hp⟩
    refine ⟨_, .refl, Or.inr (Or.inr ⟨List.ne_nil_of_mem hmem, fun p'' hjoins => ?_⟩)⟩
    exact hends (hjoins.unique hmem ▸ hjoins.2.1)
  | @joined t p q hedge hp hlast _ ih =>
    have hmem := mem_entering.mpr ⟨hedge, hp⟩
    by_cases hjoins : ∃ p', Joins f q p'
    · obtain ⟨p', hjoins⟩ := hjoins
      obtain rfl := hjoins.unique hmem
      have hturn : turn f q < t := not_le.mp fun h => hahead (Or.inl h)
      by_cases hpahead : t ≤ turn f p ∨ turn f p = 0
      · exact ⟨p, .single ⟨hjoins, hturn⟩, hpahead.elim Or.inl fun h => Or.inr (Or.inl h)⟩
      · obtain ⟨y, hwithin, hpresent⟩ := ih hpahead
        exact ⟨y, .head ⟨hjoins, hturn⟩ hwithin, hpresent⟩
    · exact ⟨q, .refl, Or.inr (Or.inr ⟨List.ne_nil_of_mem hmem, fun p' hp' => hjoins ⟨p', hp'⟩⟩)⟩

theorem Lasts.antitone (h : Lasts f t q) (hle : t' ≤ t) : Lasts f t' q := by
  induction h with
  | first h => exact .first h
  | ahead h => exact .ahead (hle.trans h)
  | several hedges hp hp' => exact .several hedges hp hp'
  | kept hedge hp hends => exact .kept hedge hp hends
  | joined hedge hp _ _ ih => exact .joined hedge hp (ih hle)

theorem Within.mono (h : Within f t q y) (hle : t ≤ t') : Within f t' q y :=
  ReflTransGen.mono (fun _ _ hjoins => ⟨hjoins.1, hjoins.2.trans_le hle⟩) q y h

theorem Present.terminal (h : Present f t y) (p : ℕ) : ¬ JoinsBefore f t y p := by
  rintro ⟨hjoins, hturn⟩
  rcases h with hahead | hfirst | ⟨-, hnot⟩
  · omega
  · exact hjoins.1 hfirst
  · exact hnot p hjoins

theorem joinsBefore_rightUnique : Relator.RightUnique (JoinsBefore f t) :=
  fun _ _ _ h h' => (h'.1.unique (mem_entering.mpr h.1.mem))

theorem Within.unique (h : Within f t q y) (h' : Within f t q y') (hy : Present f t y)
    (hy' : Present f t y') : y = y' := by
  rcases ReflTransGen.total_of_right_unique joinsBefore_rightUnique h h' with h | h
  · exact (h.cases_head.resolve_right fun ⟨p, hp, _⟩ => hy.terminal p hp)
  · exact (h.cases_head.resolve_right fun ⟨p, hp, _⟩ => hy'.terminal p hp).symm

theorem Within.acyclic (h : Within f t q y) (hy : Present f t y) :
    ¬ TransGen (JoinsBefore f t) q q := by
  induction h using ReflTransGen.head_induction_on with
  | refl =>
    intro hcycle
    obtain ⟨p, hp, -⟩ := TransGen.head'_iff.mp hcycle
    exact hy.terminal p hp
  | @head q p hjoins _ ih =>
    intro hcycle
    obtain ⟨p', hp', hback⟩ := TransGen.head'_iff.mp hcycle
    obtain rfl := joinsBefore_rightUnique hp' hjoins
    exact ih (TransGen.tail' hback hjoins)

end

/-! ### One turn -/

section
variable {f : Function} {t p q ib x y : ℕ}

theorem turn_inj (hq : q ∈ ids f) (h : turn f q = turn f p) : q = p := (List.idxOf_inj hq).mp h

theorem Joins.ids (h : Joins f q p) (hf : Flow f) : q ∈ ids f ∧ p ∈ ids f :=
  (hf.edge _ h.mem.1).symm

theorem joinsBefore_succ (hf : Flow f) :
    JoinsBefore f (turn f ib + 1) q p ↔ JoinsBefore f (turn f ib) q p ∨ q = ib ∧ Joins f ib p := by
  constructor
  · rintro ⟨hjoins, hturn⟩
    by_cases heq : turn f q = turn f ib
    · obtain rfl := turn_inj (hjoins.ids hf).1 heq
      exact Or.inr ⟨rfl, hjoins⟩
    · exact Or.inl ⟨hjoins, by omega⟩
  · rintro (⟨hjoins, hturn⟩ | ⟨rfl, hjoins⟩)
    · exact ⟨hjoins, by omega⟩
    · exact ⟨hjoins, Nat.lt_succ_self _⟩

theorem joinsBefore_succ_of_not (hf : Flow f) (h : ∀ p, ¬ Joins f ib p) :
    JoinsBefore f (turn f ib + 1) = JoinsBefore f (turn f ib) := by
  funext q p
  apply propext
  rw [joinsBefore_succ hf]
  exact or_iff_left fun ⟨_, hjoins⟩ => h p hjoins

/-- The others are or are not of the list as before. -/
theorem present_succ_of_ne (hy : y ∈ ids f) (hne : y ≠ ib) :
    Present f (turn f ib + 1) y ↔ Present f (turn f ib) y := by
  have hturn : turn f y ≠ turn f ib := fun h => hne (turn_inj hy h)
  unfold Present
  refine or_congr_left ?_
  omega

theorem present_turn : Present f (turn f ib) ib := Or.inl le_rfl

theorem present_succ_self (hfirst : turn f ib ≠ 0) : Present f (turn f ib + 1) ib
    ↔ entering f (turn f ib) ib ≠ [] ∧ ∀ p, ¬ Joins f ib p := by
  unfold Present
  rw [or_iff_right (by omega), or_iff_right hfirst]

theorem within_succ_of_joins (hf : Flow f) (hjoins : Joins f ib p)
    {p' : ℕ} (hp : Within f (turn f ib) p p') (hp' : Present f (turn f ib) p')
    (hy : Present f (turn f ib + 1) y) : Within f (turn f ib + 1) q y
      ↔ Within f (turn f ib) q y ∨ Within f (turn f ib) q ib ∧ y = p' := by
  have hyids : y ≠ ib := by
    rintro rfl
    exact hy.terminal p ⟨hjoins, Nat.lt_succ_self _⟩
  have hpresent : y ∈ ids f → Present f (turn f ib) y := fun hmem =>
    (present_succ_of_ne hmem hyids).mp hy
  constructor
  · intro h
    induction h using ReflTransGen.head_induction_on with
    | refl => exact Or.inl .refl
    | @head q p₁ hstep hrest ih =>
      rcases (joinsBefore_succ hf).mp hstep with hold | ⟨rfl, hnew⟩
      · exact ih.imp (ReflTransGen.head hold) fun ⟨h, hy⟩ => ⟨ReflTransGen.head hold h, hy⟩
      · obtain rfl := hnew.unique (mem_entering.mpr hjoins.mem)
        have hyf : y ∈ ids f := by
          rcases hrest.cases_tail with rfl | ⟨z, -, hz⟩
          · exact (hjoins.ids hf).2
          · exact (hz.1.ids hf).2
        refine Or.inr ⟨.refl, ?_⟩
        rcases ih with hold | ⟨-, heq⟩
        · exact hold.unique hp (hpresent hyf) hp'
        · exact heq
  · rintro (h | ⟨h, rfl⟩)
    · exact h.mono (Nat.le_succ _)
    · exact (h.mono (Nat.le_succ _)).trans
        (.head ⟨hjoins, Nat.lt_succ_self _⟩ (hp.mono (Nat.le_succ _)))

theorem within_succ_of_gone (hf : Flow f) (hgone : ¬ Present f (turn f ib + 1) ib)
    (hjoins : ∀ p, Joins f ib p → Within f (turn f ib) p ib)
    (hy : Present f (turn f ib + 1) y) :
    Within f (turn f ib + 1) q y ↔ Within f (turn f ib) q y := by
  by_cases hnot : ∀ p, ¬ Joins f ib p
  · unfold Within
    rw [joinsBefore_succ_of_not hf hnot]
  · obtain ⟨p, hp⟩ := not_forall_not.mp hnot
    rw [within_succ_of_joins hf hp (hjoins p hp) present_turn hy]
    exact or_iff_left fun hq => hgone (hq.2 ▸ hy)

end

/-! ## Instructions -/

def instrAt (f : Function) (a : ℕ × ℕ) : Option BoundInstr := (instrsOf f a.1)[a.2]?

section
variable (f : Function)

/-- In the block that holds both in front of turn `t`, the one comes behind the other. -/
def Behind (t : ℕ) (b a : ℕ × ℕ) : Prop :=
  b.1 = a.1 ∧ a.2 < b.2 ∨ TransGen (JoinsBefore f t) b.1 a.1

/-- The walk of turn `t` comes to the instruction, if it is still there. -/
def Visits (t : ℕ) (a : ℕ × ℕ) : Prop :=
  ∃ y ∈ ids f, turn f y = t ∧ (t ≠ 0 → entering f t y ≠ []) ∧ Within f t a.1 y

mutual

/-- The instruction has gone behind its visit in turn `t`: it is one that may go, and of those with
its result for input each has gone before, or is in a block that has. -/
inductive Goes : ℕ → ℕ × ℕ → Prop
  | intro {t : ℕ} {a : ℕ × ℕ} {i : BoundInstr} {v : ℕ} : instrAt f a = some i →
      output i = some v → Visits f t a →
      (∀ b j, instrAt f b = some j → v ∈ j.inputs → Lasts f t b.1 → GoesBefore t a b) → Goes t a

/-- Instruction `b` has gone before the visit of `a` in turn `t`. -/
inductive GoesBefore : ℕ → ℕ × ℕ → ℕ × ℕ → Prop
  | earlier {t t' : ℕ} {a b : ℕ × ℕ} : t' < t → Goes t' b → GoesBefore t a b
  | behind {t : ℕ} {a b : ℕ × ℕ} : Behind f t b a → Goes t b → GoesBefore t a b

end

/-- The instruction has gone in front of turn `t`. -/
def Gone (t : ℕ) (a : ℕ × ℕ) : Prop := ∃ t' < t, Goes f t' a

/-- The branch at the end of a block that another has been merged into. -/
def Cut (t : ℕ) (a : ℕ × ℕ) : Prop :=
  a.2 + 1 = (instrsOf f a.1).length ∧ ∃ q, JoinsBefore f t q a.1

end

/-- An unconditional branch has neither operands nor results. -/
def Branches (f : Function) : Prop :=
  ∀ x, ∀ i ∈ instrsOf f x, isBr i = true → i.inputs = [] ∧ i.instr.rets = []

section
variable {f : Function} {t t' y : ℕ} {a b : ℕ × ℕ}

theorem branches_of_blocks (h : ∀ b ∈ f.bbs, ∀ i ∈ b.instrs, isBr i = true →
    i.inputs = [] ∧ i.instr.rets = []) : Branches f := by
  intro x i hi
  unfold instrsOf at hi
  cases hfind : f.bbs.find? fun b => b.id = x with
  | none =>
    rw [hfind] at hi
    cases hi
  | some b =>
    rw [hfind] at hi
    exact h b (List.mem_of_find?_eq_some hfind) i hi

theorem goes_iff {i : BoundInstr} {v : ℕ} (hi : instrAt f a = some i) (hv : output i = some v) :
    Goes f t a ↔ Visits f t a ∧ ∀ b j, instrAt f b = some j → v ∈ j.inputs → Lasts f t b.1 →
      Gone f t b ∨ Behind f t b a ∧ Goes f t b := by
  constructor
  · intro h
    cases h with
    | @intro _ _ i' v' hi' hv' hvisits husers =>
      obtain rfl := Option.some.inj (hi'.symm.trans hi)
      obtain rfl := Option.some.inj (hv'.symm.trans hv)
      refine ⟨hvisits, fun b j hj huses hlasts => ?_⟩
      cases husers b j hj huses hlasts with
      | earlier ht hgoes => exact Or.inl ⟨_, ht, hgoes⟩
      | behind hbehind hgoes => exact Or.inr ⟨hbehind, hgoes⟩
  · rintro ⟨hvisits, husers⟩
    refine .intro hi hv hvisits fun b j hj huses hlasts => ?_
    rcases husers b j hj huses hlasts with ⟨t', ht, hgoes⟩ | ⟨hbehind, hgoes⟩
    · exact .earlier ht hgoes
    · exact .behind hbehind hgoes

theorem Goes.output (h : Goes f t a) : ∃ i v, instrAt f a = some i ∧ output i = some v := by
  cases h with
  | intro hi hv => exact ⟨_, _, hi, hv⟩

theorem Goes.visits (h : Goes f t a) : Visits f t a := by
  cases h with
  | intro _ _ hvisits => exact hvisits

theorem Gone.mono (h : Gone f t a) (hle : t ≤ t') : Gone f t' a := by
  obtain ⟨s, hs, hgoes⟩ := h
  exact ⟨s, hs.trans_le hle, hgoes⟩

theorem gone_succ : Gone f (t + 1) a ↔ Gone f t a ∨ Goes f t a := by
  constructor
  · rintro ⟨s, hs, hgoes⟩
    rcases Nat.lt_succ_iff_lt_or_eq.mp hs with hlt | rfl
    · exact Or.inl ⟨s, hlt, hgoes⟩
    · exact Or.inr hgoes
  · rintro (h | h)
    · exact h.mono (Nat.le_succ t)
    · exact ⟨t, Nat.lt_succ_self t, h⟩

theorem Behind.mono (h : Behind f t b a) (hle : t ≤ t') : Behind f t' b a :=
  h.imp_right fun h => TransGen.mono (fun _ _ hjoins => ⟨hjoins.1, hjoins.2.trans_le hle⟩) _ _ h

theorem Behind.asymm (h : Behind f t b a) (hwithin : Within f t a.1 y) (hy : Present f t y) :
    ¬ Behind f t a b := by
  intro hback
  have hcycle := hwithin.acyclic hy
  rcases h with ⟨heq, hlt⟩ | h
  · rcases hback with ⟨-, hlt'⟩ | hback
    · omega
    · exact hcycle (heq ▸ hback)
  · rcases hback with ⟨heq, -⟩ | hback
    · exact hcycle (heq ▸ h)
    · exact hcycle (hback.trans h)

theorem Behind.within (h : Behind f t b a) (hwithin : Within f t a.1 y) : Within f t b.1 y := by
  rcases h with ⟨heq, -⟩ | h
  · exact heq ▸ hwithin
  · exact h.to_reflTransGen.trans hwithin

theorem Cut.inputs (h : Cut f t a) (hbr : Branches f) {i : BoundInstr}
    (hi : instrAt f a = some i) : i.inputs = [] := by
  obtain ⟨hlast, q, hjoins⟩ := h
  obtain ⟨j, hj, hisbr⟩ := hjoins.1.2.1
  rw [List.getLast?_eq_getElem?, show (instrsOf f a.1).length - 1 = a.2 by omega] at hj
  obtain rfl := Option.some.inj (hi.symm.trans hj)
  exact (hbr a.1 i (List.mem_of_getElem? hi) hisbr).1

end

end Vmir.DeadCodeOrder
