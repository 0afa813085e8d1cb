import Mathlib.Data.Finset.Lattice.Fold
import Mathlib.Data.Finset.Card
import Mathlib.Logic.Relation
import Mathlib.Order.Filter.AtTopBot.Basic
import Mathlib.Order.Filter.Finite

set_option autoImplicit false

/-!
# Backward data flow by rounds in place

A gen/kill problem on a finite graph, solved by visiting the nodes in a fixed order and updating the
sets in place until a round changes nothing. The sets before the first round are arbitrary: what is
left in them survives exactly if it can be carried round a cycle.
-/
namespace Vmir.BackwardDataflow

structure Problem (N T : Type) where
  /-- The nodes in the order in which a round visits them. -/
  nodes : List N
  succ : N → List N
  gen : N → Finset T
  kill : N → Finset T
  nodup : nodes.Nodup
  closed : ∀ p ∈ nodes, ∀ q ∈ succ p, q ∈ nodes

/-- The set behind and the set before each node. -/
@[ext] structure Sets (N T : Type) where
  out : N → Finset T
  into : N → Finset T

variable {N T : Type} [DecidableEq N] [DecidableEq T]

def join (succ : List N) (into : N → Finset T) : Finset T :=
  succ.foldl (fun o q => o ∪ into q) ∅

def visit (P : Problem N T) (s : Sets N T) (p : N) : Sets N T :=
  let o := join (P.succ p) s.into
  ⟨Function.update s.out p o, Function.update s.into p (o \ P.kill p ∪ P.gen p)⟩

def round (P : Problem N T) (s : Sets N T) : Sets N T :=
  P.nodes.foldl (visit P) s

def Settled (P : Problem N T) (s : Sets N T) : Prop :=
  ∀ p ∈ P.nodes, (round P s).out p = s.out p ∧ (round P s).into p = s.into p

instance (P : Problem N T) (s : Sets N T) : Decidable (Settled P s) :=
  inferInstanceAs (Decidable (∀ p ∈ P.nodes, _))

def run (P : Problem N T) : ℕ → Sets N T → Option (Sets N T)
  | 0, _ => none
  | fuel + 1, s => if Settled P s then some (round P s) else run P fuel (round P s)

def Solution (P : Problem N T) (s : Sets N T) : Prop :=
  ∀ p ∈ P.nodes, s.out p = join (P.succ p) s.into ∧ s.into p = s.out p \ P.kill p ∪ P.gen p

def LeastSolution (P : Problem N T) (s : Sets N T) : Prop :=
  Solution P s ∧ ∀ s', Solution P s' → ∀ p ∈ P.nodes, s.out p ⊆ s'.out p ∧ s.into p ⊆ s'.into p

/-- What is wanted before `q` is wanted before `p`, unless `p` redefines it. -/
def Step (P : Problem N T) (v : T) (p q : N) : Prop :=
  q ∈ P.succ p ∧ v ∉ P.kill p

/-- Some path from `p` reaches a use of `v` before a redefinition. -/
inductive LiveIn (P : Problem N T) (v : T) : N → Prop
  | use {p : N} : v ∈ P.gen p → LiveIn P v p
  | step {p q : N} : Step P v p q → LiveIn P v q → LiveIn P v p

def LiveOut (P : Problem N T) (v : T) (p : N) : Prop :=
  ∃ q ∈ P.succ p, LiveIn P v q

/-- A round visits `q` before `p`. -/
def Earlier (P : Problem N T) (q p : N) : Prop :=
  P.nodes.idxOf q < P.nodes.idxOf p

instance (P : Problem N T) (q p : N) : Decidable (Earlier P q p) :=
  inferInstanceAs (Decidable (_ < _))

/-- A value nobody uses any more is left in a set that is read before it is rewritten, behind a
cycle that does not redefine the value. -/
def Leftover (P : Problem N T) (s : Sets N T) : Prop :=
  ∃ v c p q, c ∈ P.nodes ∧ Relation.TransGen (Step P v) c c ∧ Relation.ReflTransGen (Step P v) c p
    ∧ Step P v p q ∧ ¬ Earlier P q p ∧ v ∈ s.into q ∧ ¬ LiveIn P v c

omit [DecidableEq N] in
theorem mem_join {v : T} {into : N → Finset T} (succ : List N) :
    v ∈ join succ into ↔ ∃ q ∈ succ, v ∈ into q := by
  have hfold : ∀ o : Finset T, v ∈ succ.foldl (fun o q => o ∪ into q) o
      ↔ v ∈ o ∨ ∃ q ∈ succ, v ∈ into q := by
    induction succ with
    | nil => simp
    | cons q succ ih =>
      intro o
      rw [List.foldl_cons, ih, Finset.mem_union, or_assoc]
      simp
  unfold join
  rw [hfold]
  simp

omit [DecidableEq N] in
theorem join_congr {succ : List N} {into into' : N → Finset T} (h : ∀ q ∈ succ, into q = into' q) :
    join succ into = join succ into' := by
  apply Finset.ext
  intro v
  rw [mem_join, mem_join]
  constructor
  · rintro ⟨q, hq, hv⟩
    exact ⟨q, hq, h q hq ▸ hv⟩
  · rintro ⟨q, hq, hv⟩
    exact ⟨q, hq, (h q hq).symm ▸ hv⟩

section
variable (P : Problem N T)

theorem foldl_visit_of_notMem {l : List N} {p : N} (hp : p ∉ l) (s : Sets N T) :
    (l.foldl (visit P) s).out p = s.out p ∧ (l.foldl (visit P) s).into p = s.into p := by
  induction l generalizing s with
  | nil => exact ⟨rfl, rfl⟩
  | cons a l ih =>
    have hne : p ≠ a := List.ne_of_not_mem_cons hp
    obtain ⟨hout, hinto⟩ := ih (List.not_mem_of_not_mem_cons hp) (visit P s a)
    rw [List.foldl_cons, hout, hinto]
    exact ⟨Function.update_of_ne hne _ _, Function.update_of_ne hne _ _⟩

omit [DecidableEq T] in
theorem earlier_iff {pre post : List N} {p q : N} (hsplit : P.nodes = pre ++ p :: post)
    (hp : p ∉ pre) : Earlier P q p ↔ q ∈ pre := by
  have hidx : P.nodes.idxOf p = pre.length := by
    rw [hsplit, List.idxOf_append_of_notMem hp, List.idxOf_cons_self, Nat.add_zero]
  unfold Earlier
  rw [hidx, hsplit]
  by_cases hq : q ∈ pre
  · rw [List.idxOf_append_of_mem hq]
    exact iff_of_true (List.idxOf_lt_length_of_mem hq) hq
  · rw [List.idxOf_append_of_notMem hq]
    exact iff_of_false (by omega) hq

/-- What a visit reads: the rewritten sets of the nodes before it in the round. -/
def seen (s : Sets N T) (p : N) (q : N) : Finset T :=
  if Earlier P q p then (round P s).into q else s.into q

theorem round_at (s : Sets N T) {p : N} (hp : p ∈ P.nodes) :
    (round P s).out p = join (P.succ p) (seen P s p)
      ∧ (round P s).into p = (round P s).out p \ P.kill p ∪ P.gen p := by
  obtain ⟨pre, post, hsplit⟩ := List.append_of_mem hp
  have hnodup := P.nodup
  rw [hsplit] at hnodup
  obtain ⟨-, hpost, hdisjoint⟩ := List.nodup_append.mp hnodup
  have hlast : p ∉ post := (List.nodup_cons.mp hpost).1
  have hpre : p ∉ pre := fun h => hdisjoint p h p List.mem_cons_self rfl
  have hround : round P s = post.foldl (visit P) (visit P (pre.foldl (visit P) s) p) := by
    unfold round
    rw [hsplit, List.foldl_append, List.foldl_cons]
  have hread : ∀ q, (pre.foldl (visit P) s).into q = seen P s p q := by
    intro q
    have hearlier : Earlier P q p ↔ q ∈ pre := earlier_iff P hsplit hpre
    unfold seen
    by_cases hq : q ∈ pre
    · have hne : q ≠ p := fun h => hpre (h ▸ hq)
      have hqpost : q ∉ post := fun h => hdisjoint q hq q (List.mem_cons_of_mem _ h) rfl
      rw [if_pos (hearlier.mpr hq), hround, (foldl_visit_of_notMem P hqpost _).2]
      exact (Function.update_of_ne hne _ _).symm
    · rw [if_neg fun h => hq (hearlier.mp h), (foldl_visit_of_notMem P hq s).2]
  obtain ⟨hout, hinto⟩ := foldl_visit_of_notMem P hlast (visit P (pre.foldl (visit P) s) p)
  have hjoin : join (P.succ p) (pre.foldl (visit P) s).into = join (P.succ p) (seen P s p) :=
    join_congr fun q _ => hread q
  rw [hround, hout, hinto]
  unfold visit
  simp only [Function.update_self]
  exact ⟨hjoin, trivial⟩

theorem mem_round_out (s : Sets N T) {p : N} (hp : p ∈ P.nodes) {v : T} :
    v ∈ (round P s).out p ↔ ∃ q ∈ P.succ p, v ∈ seen P s p q := by
  rw [(round_at P s hp).1]
  exact mem_join _

theorem mem_round_into (s : Sets N T) {p : N} (hp : p ∈ P.nodes) {v : T} :
    v ∈ (round P s).into p ↔ v ∈ P.gen p ∨ ∃ q, Step P v p q ∧ v ∈ seen P s p q := by
  rw [(round_at P s hp).2, Finset.mem_union, Finset.mem_sdiff, mem_round_out P s hp, or_comm]
  unfold Step
  constructor
  · rintro (hgen | ⟨⟨q, hq, hv⟩, hkill⟩)
    · exact .inl hgen
    · exact .inr ⟨q, ⟨hq, hkill⟩, hv⟩
  · rintro (hgen | ⟨q, ⟨hq, hkill⟩, hv⟩)
    · exact .inl hgen
    · exact .inr ⟨⟨q, hq, hv⟩, hkill⟩

theorem round_of_settled {s : Sets N T} (h : Settled P s) : round P s = s := by
  have hat : ∀ p, (round P s).out p = s.out p ∧ (round P s).into p = s.into p := by
    intro p
    by_cases hp : p ∈ P.nodes
    · exact h p hp
    · exact foldl_visit_of_notMem P hp s
  apply Sets.ext
  · exact funext fun p => (hat p).1
  · exact funext fun p => (hat p).2

theorem solution_of_round {s : Sets N T} (h : round P s = s) : Solution P s := by
  intro p hp
  have hseen : ∀ q, seen P s p q = s.into q := by
    intro q
    unfold seen
    rw [h, ite_self]
  obtain ⟨hout, hinto⟩ := round_at P s hp
  rw [h] at hout hinto
  rw [join_congr fun q _ => hseen q] at hout
  exact ⟨hout, hinto⟩

end

/-- After `n` rounds a value left in a set before the first has come to `p`: one round carries it
over one edge that is read before it is rewritten, and over any number of others. -/
inductive Carried (P : Problem N T) (s : Sets N T) (v : T) : ℕ → N → Prop
  | start {q : N} : v ∈ s.into q → Carried P s v 0 q
  | old {n : ℕ} {p q : N} : Step P v p q → ¬ Earlier P q p → Carried P s v n q →
      Carried P s v (n + 1) p
  | new {n : ℕ} {p q : N} : Step P v p q → Earlier P q p → Carried P s v (n + 1) q →
      Carried P s v (n + 1) p

section
variable {P : Problem N T} {s : Sets N T} {v : T}

omit [DecidableEq N] [DecidableEq T] in
theorem Step.mem {p q : N} (hp : p ∈ P.nodes) (h : Step P v p q) : q ∈ P.nodes :=
  P.closed p hp q h.1

theorem rounds_succ (n : ℕ) : (round P)^[n + 1] s = round P ((round P)^[n] s) :=
  Function.iterate_succ_apply' (round P) n s

theorem Carried.mem_rounds {n : ℕ} {p : N} (h : Carried P s v n p) (hp : p ∈ P.nodes) :
    v ∈ ((round P)^[n] s).into p := by
  induction h with
  | start hv => exact hv
  | @old n p q hstep hlate _ ih =>
    rw [rounds_succ, mem_round_into P _ hp]
    refine .inr ⟨q, hstep, ?_⟩
    unfold seen
    rw [if_neg hlate]
    exact ih (hstep.mem hp)
  | @new n p q hstep hearly _ ih =>
    rw [rounds_succ, mem_round_into P _ hp]
    refine .inr ⟨q, hstep, ?_⟩
    unfold seen
    rw [if_pos hearly, ← rounds_succ]
    exact ih (hstep.mem hp)

/-- A member after `n` rounds is wanted, or has been carried from before the first. -/
theorem live_or_carried (n : ℕ) {p : N} (hp : p ∈ P.nodes) (h : v ∈ ((round P)^[n] s).into p) :
    LiveIn P v p ∨ Carried P s v n p := by
  induction n generalizing p with
  | zero => exact .inr (.start h)
  | succ n ih =>
    -- within a round, by the position in the order of the visits
    induction hk : P.nodes.idxOf p using Nat.strong_induction_on generalizing p with
    | _ k ihk =>
      rw [rounds_succ, mem_round_into P _ hp] at h
      rcases h with hgen | ⟨q, hstep, hv⟩
      · exact .inl (.use hgen)
      · unfold seen at hv
        split at hv
        · next hearly =>
          rw [← rounds_succ] at hv
          rcases ihk _ (hk ▸ hearly) (hstep.mem hp) hv rfl with hlive | hcarried
          · exact .inl (.step hstep hlive)
          · exact .inr (.new hstep hearly hcarried)
        · next hlate =>
          rcases ih (hstep.mem hp) hv with hlive | hcarried
          · exact .inl (.step hstep hlive)
          · exact .inr (.old hstep hlate hcarried)

theorem LiveIn.eventually {p : N} (h : LiveIn P v p) (hp : p ∈ P.nodes) :
    ∃ m, ∀ n ≥ m, v ∈ ((round P)^[n] s).into p := by
  induction h with
  | @use p hgen =>
    refine ⟨1, fun n hn => ?_⟩
    obtain ⟨n, rfl⟩ := Nat.exists_eq_succ_of_ne_zero (Nat.ne_of_gt hn)
    rw [Nat.succ_eq_add_one, rounds_succ, mem_round_into P _ hp]
    exact .inl hgen
  | @step p q hstep _ ih =>
    obtain ⟨m, hm⟩ := ih (hstep.mem hp)
    refine ⟨m + 1, fun n hn => ?_⟩
    obtain ⟨n, rfl⟩ := Nat.exists_eq_succ_of_ne_zero (show n ≠ 0 by omega)
    rw [Nat.succ_eq_add_one, rounds_succ, mem_round_into P _ hp]
    refine .inr ⟨q, hstep, ?_⟩
    unfold seen
    split
    · rw [← rounds_succ]
      exact hm _ (by omega)
    · exact hm _ (by omega)

omit [DecidableEq N] [DecidableEq T] in
theorem LiveIn.mem_uses {p : N} (h : LiveIn P v p) (hp : p ∈ P.nodes) :
    ∃ q ∈ P.nodes, v ∈ P.gen q := by
  induction h with
  | use hgen => exact ⟨_, hp, hgen⟩
  | step hstep _ ih => exact ih (hstep.mem hp)

omit [DecidableEq N] [DecidableEq T] in
theorem LiveIn.of_path {p q : N} (hpath : Relation.ReflTransGen (Step P v) p q)
    (h : LiveIn P v q) : LiveIn P v p := by
  induction hpath using Relation.ReflTransGen.head_induction_on with
  | refl => exact h
  | head hstep _ ih => exact .step hstep ih

omit [DecidableEq N] in
theorem LiveIn.mem_of_solution {r : Sets N T} (hr : Solution P r) {p : N} (h : LiveIn P v p)
    (hp : p ∈ P.nodes) : v ∈ r.into p := by
  induction h with
  | @use p hgen =>
    rw [(hr p hp).2]
    exact Finset.mem_union_right _ hgen
  | @step p q hstep _ ih =>
    rw [(hr p hp).2, (hr p hp).1]
    refine Finset.mem_union_left _ (Finset.mem_sdiff.mpr ⟨?_, hstep.2⟩)
    exact (mem_join _).mpr ⟨q, hstep.1, ih (hstep.mem hp)⟩

end

def Live (P : Problem N T) (s : Sets N T) : Prop :=
  ∀ p ∈ P.nodes, (∀ v, v ∈ s.out p ↔ LiveOut P v p) ∧ ∀ v, v ∈ s.into p ↔ LiveIn P v p

section
variable {P : Problem N T}

omit [DecidableEq N] [DecidableEq T] in
theorem liveIn_iff {v : T} {p : N} :
    LiveIn P v p ↔ (LiveOut P v p ∧ v ∉ P.kill p) ∨ v ∈ P.gen p := by
  constructor
  · intro h
    cases h with
    | use hgen => exact .inr hgen
    | step hstep hlive => exact .inl ⟨⟨_, hstep.1, hlive⟩, hstep.2⟩
  · rintro (⟨⟨q, hq, hlive⟩, hkill⟩ | hgen)
    · exact .step ⟨hq, hkill⟩ hlive
    · exact .use hgen

omit [DecidableEq N] in
theorem Live.solution {s : Sets N T} (h : Live P s) : Solution P s := by
  intro p hp
  constructor
  · apply Finset.ext
    intro v
    rw [(h p hp).1, mem_join]
    constructor
    · rintro ⟨q, hq, hlive⟩
      exact ⟨q, hq, ((h q (P.closed p hp q hq)).2 v).mpr hlive⟩
    · rintro ⟨q, hq, hv⟩
      exact ⟨q, hq, ((h q (P.closed p hp q hq)).2 v).mp hv⟩
  · apply Finset.ext
    intro v
    rw [(h p hp).2, liveIn_iff, Finset.mem_union, Finset.mem_sdiff, (h p hp).1]

omit [DecidableEq N] in
theorem Live.least {s : Sets N T} (h : Live P s) : LeastSolution P s := by
  refine ⟨h.solution, fun s' hs' p hp => ⟨fun v hv => ?_, fun v hv => ?_⟩⟩
  · obtain ⟨q, hq, hlive⟩ := ((h p hp).1 v).mp hv
    rw [(hs' p hp).1, mem_join]
    exact ⟨q, hq, hlive.mem_of_solution hs' (P.closed p hp q hq)⟩
  · exact (((h p hp).2 v).mp hv).mem_of_solution hs' hp

open Classical in
theorem exists_live (P : Problem N T) : ∃ s, Live P s := by
  let uses := P.nodes.toFinset.biUnion P.gen
  have hmem : ∀ {v p}, LiveIn P v p → p ∈ P.nodes → v ∈ uses := by
    intro v p h hp
    obtain ⟨q, hq, hv⟩ := h.mem_uses hp
    exact Finset.mem_biUnion.mpr ⟨q, List.mem_toFinset.mpr hq, hv⟩
  refine ⟨⟨fun p => uses.filter (LiveOut P · p), fun p => uses.filter (LiveIn P · p)⟩,
    fun p hp => ⟨fun v => ?_, fun v => ?_⟩⟩
  · refine Finset.mem_filter.trans (and_iff_right_of_imp ?_)
    rintro ⟨q, hq, hlive⟩
    exact hmem hlive (P.closed p hp q hq)
  · exact Finset.mem_filter.trans (and_iff_right_of_imp fun h => hmem h hp)

theorem leastSolution_iff {s : Sets N T} : LeastSolution P s ↔ Live P s := by
  refine ⟨fun ⟨hs, hle⟩ p hp => ?_, Live.least⟩
  obtain ⟨l, hl⟩ := exists_live P
  obtain ⟨hout, hinto⟩ := hle l hl.solution p hp
  refine ⟨fun v => ⟨fun hv => ((hl p hp).1 v).mp (hout hv), ?_⟩,
    fun v => ⟨fun hv => ((hl p hp).2 v).mp (hinto hv), fun h => h.mem_of_solution hs hp⟩⟩
  rintro ⟨q, hq, hlive⟩
  rw [(hs p hp).1, mem_join]
  exact ⟨q, hq, hlive.mem_of_solution hs (P.closed p hp q hq)⟩

end

section
variable {P : Problem N T} {s : Sets N T} {v : T}

omit [DecidableEq T] in
theorem Carried.walk {n : ℕ} {p : N} (h : Carried P s v (n + 1) p) :
    ∃ (w : ℕ → N) (k : ℕ) (q : N), n ≤ k ∧ w 0 = p ∧ (∀ i < k, Step P v (w i) (w (i + 1)))
      ∧ Step P v (w k) q ∧ ¬ Earlier P q (w k) ∧ v ∈ s.into q := by
  generalize hm : n + 1 = m at h
  induction h generalizing n with
  | start => exact nomatch hm
  | @old m p q hstep hlate hrest ih =>
    cases hrest with
    | start hv =>
      refine ⟨fun _ => p, 0, q, by omega, rfl, fun i hi => absurd hi (Nat.not_lt_zero i), ?_⟩
      exact ⟨hstep, hlate, hv⟩
    | old _ _ _ | new _ _ _ =>
      obtain ⟨w, k, q', hk, hw, hwalk, hlast⟩ := ih rfl
      refine ⟨fun i => Nat.casesOn i p w, k + 1, q', by omega, rfl, fun i hi => ?_, hlast⟩
      cases i with
      | zero =>
        change Step P v p (w 0)
        rw [hw]
        exact hstep
      | succ i => exact hwalk i (by omega)
  | @new m p q hstep _ _ ih =>
    obtain ⟨w, k, q', hk, hw, hwalk, hlast⟩ := ih hm
    refine ⟨fun i => Nat.casesOn i p w, k + 1, q', by omega, rfl, fun i hi => ?_, hlast⟩
    cases i with
    | zero =>
      change Step P v p (w 0)
      rw [hw]
      exact hstep
    | succ i => exact hwalk i (by omega)

omit [DecidableEq N] [DecidableEq T] in
theorem walk_path {w : ℕ → N} {k : ℕ} (hwalk : ∀ i < k, Step P v (w i) (w (i + 1))) {i j : ℕ}
    (hij : i ≤ j) (hj : j ≤ k) : Relation.ReflTransGen (Step P v) (w i) (w j) := by
  induction j, hij using Nat.le_induction with
  | base => exact .refl
  | succ j _ ih => exact (ih (by omega)).tail (hwalk j (by omega))

omit [DecidableEq T] in
theorem exists_cycle {w : ℕ → N} {k : ℕ} (hstart : w 0 ∈ P.nodes)
    (hwalk : ∀ i < k, Step P v (w i) (w (i + 1))) (hk : P.nodes.length ≤ k) :
    ∃ i ≤ k, w i ∈ P.nodes ∧ Relation.TransGen (Step P v) (w i) (w i) := by
  have hmem : ∀ i ≤ k, w i ∈ P.nodes := by
    intro i
    induction i with
    | zero => exact fun _ => hstart
    | succ i ih => exact fun hi => (hwalk i hi).mem (ih (by omega))
  have hcard : P.nodes.toFinset.card < (Finset.range (k + 1)).card := by
    rw [Finset.card_range]
    exact Nat.lt_succ_of_le ((List.toFinset_card_le _).trans hk)
  obtain ⟨i, hi, j, hj, hne, heq⟩ := Finset.exists_ne_map_eq_of_card_lt_of_maps_to hcard
    fun i hi => List.mem_toFinset.mpr (hmem i (Nat.lt_succ_iff.mp (Finset.mem_range.mp hi)))
  have hcycle : ∀ {i j : ℕ}, i < j → j ≤ k → w i = w j →
      Relation.TransGen (Step P v) (w i) (w i) := by
    intro i j hij hj heq
    have hrest := walk_path hwalk (show i + 1 ≤ j from hij) hj
    exact .head' (hwalk i (by omega)) (heq ▸ hrest)
  have hi : i ≤ k := Nat.lt_succ_iff.mp (Finset.mem_range.mp hi)
  have hj : j ≤ k := Nat.lt_succ_iff.mp (Finset.mem_range.mp hj)
  rcases Nat.lt_or_gt_of_ne hne with hlt | hlt
  · exact ⟨i, hi, hmem i hi, hcycle hlt hj heq⟩
  · exact ⟨j, hj, hmem j hj, hcycle hlt hi heq.symm⟩

omit [DecidableEq T] in
theorem Carried.leftover {n : ℕ} {p : N} (h : Carried P s v (n + 1) p) (hp : p ∈ P.nodes)
    (hn : P.nodes.length ≤ n) (hdead : ¬ LiveIn P v p) : Leftover P s := by
  obtain ⟨w, k, q, hk, hw, hwalk, hlast, hlate, hv⟩ := h.walk
  subst hw
  obtain ⟨i, hi, hmem, hcycle⟩ := exists_cycle hp hwalk (hn.trans hk)
  have hto := walk_path hwalk (Nat.zero_le i) hi
  exact ⟨v, w i, w k, q, hmem, hcycle, walk_path hwalk hi le_rfl, hlast, hlate, hv,
    fun hlive => hdead (hlive.of_path hto)⟩

omit [DecidableEq T] in
theorem Carried.step {n : ℕ} {p q : N} (h : Carried P s v (n + 1) q) (hstep : Step P v p q) :
    ∃ m ≥ n, Carried P s v (m + 1) p ∧ (n < m ∨ Earlier P q p) := by
  by_cases hearly : Earlier P q p
  · exact ⟨n, le_rfl, .new hstep hearly h, .inr hearly⟩
  · exact ⟨n + 1, n.le_succ, .old hstep hearly h, .inl n.lt_succ_self⟩

omit [DecidableEq T] in
theorem Carried.path {n : ℕ} {p q : N} (hpath : Relation.ReflTransGen (Step P v) p q)
    (h : Carried P s v (n + 1) q) : ∃ m ≥ n, Carried P s v (m + 1) p := by
  induction hpath using Relation.ReflTransGen.head_induction_on with
  | refl => exact ⟨n, le_rfl, h⟩
  | head hstep _ ih =>
    obtain ⟨m, hm, hcarried⟩ := ih
    obtain ⟨m', hm', hcarried', -⟩ := hcarried.step hstep
    exact ⟨m', hm.trans hm', hcarried'⟩

omit [DecidableEq T] in
theorem Carried.cycle {n : ℕ} {p q : N} (hpath : Relation.TransGen (Step P v) p q)
    (h : Carried P s v (n + 1) q) :
    ∃ m ≥ n, Carried P s v (m + 1) p ∧ (n < m ∨ Earlier P q p) := by
  induction hpath using Relation.TransGen.head_induction_on with
  | single hstep => exact h.step hstep
  | head hstep _ ih =>
    obtain ⟨m, hm, hcarried, hlt⟩ := ih
    obtain ⟨m', hm', hcarried', hlt'⟩ := hcarried.step hstep
    refine ⟨m', hm.trans hm', hcarried', ?_⟩
    rcases hlt with hlt | hearly
    · exact .inl (hlt.trans_le hm')
    · exact hlt'.imp (fun hlt' => lt_of_le_of_lt hm hlt') fun hearly' => hearly.trans hearly'

omit [DecidableEq T] in
theorem Leftover.carried (h : Leftover P s) :
    ∃ v, ∃ c ∈ P.nodes, ¬ LiveIn P v c ∧ ∀ m, ∃ n ≥ m, Carried P s v n c := by
  obtain ⟨v, c, p, q, hc, hcycle, hpath, hstep, hlate, hv, hdead⟩ := h
  refine ⟨v, c, hc, hdead, fun m => ?_⟩
  suffices h : ∃ n ≥ m, Carried P s v (n + 1) c by
    obtain ⟨n, hn, hcarried⟩ := h
    exact ⟨n + 1, by omega, hcarried⟩
  induction m with
  | zero =>
    obtain ⟨n, -, hcarried⟩ := Carried.path hpath (.old hstep hlate (.start hv))
    exact ⟨n, n.zero_le, hcarried⟩
  | succ m ih =>
    obtain ⟨n, hn, hcarried⟩ := ih
    obtain ⟨n', -, hcarried', hlt⟩ := hcarried.cycle hcycle
    exact ⟨n', hn.trans_lt (hlt.resolve_right (Nat.lt_irrefl _)), hcarried'⟩

end

section
variable {P : Problem N T} {s : Sets N T}

theorem run_some {fuel : ℕ} {r : Sets N T} (h : run P fuel s = some r) :
    ∃ k, r = (round P)^[k] s ∧ round P r = r := by
  induction fuel generalizing s with
  | zero => exact nomatch h
  | succ fuel ih =>
    unfold run at h
    split at h
    · next hsettled =>
      have hround := round_of_settled P hsettled
      cases Option.some.inj h
      exact ⟨1, rfl, by rw [hround, hround]⟩
    · obtain ⟨k, hk, hround⟩ := ih h
      exact ⟨k + 1, hk, hround⟩

theorem run_of_settled {k : ℕ} (h : Settled P ((round P)^[k] s)) :
    ∃ r, run P (k + 1) s = some r := by
  induction k generalizing s with
  | zero => exact ⟨_, if_pos h⟩
  | succ k ih =>
    by_cases hs : Settled P s
    · exact ⟨_, if_pos hs⟩
    · obtain ⟨r, hr⟩ := ih (s := round P s) h
      exact ⟨r, (if_neg hs).trans hr⟩

theorem eventually_live (h : ¬ Leftover P s) :
    ∃ m, ∀ n ≥ m, ∀ p ∈ P.nodes, ∀ v, v ∈ ((round P)^[n] s).into p ↔ LiveIn P v p := by
  obtain ⟨l, hl⟩ := exists_live P
  have hfound : ∀ᶠ n in Filter.atTop, ∀ p ∈ P.nodes.toFinset, ∀ v ∈ l.into p,
      v ∈ ((round P)^[n] s).into p := by
    refine (Filter.eventually_all_finset _).mpr fun p hp => (Filter.eventually_all_finset _).mpr
      fun v hv => Filter.eventually_atTop.mpr ?_
    have hp := List.mem_toFinset.mp hp
    exact (((hl p hp).2 v).mp hv).eventually hp
  obtain ⟨m, hm⟩ := Filter.eventually_atTop.mp hfound
  refine ⟨max m (P.nodes.length + 1), fun n hn p hp v => ⟨fun hv => ?_, fun hlive => ?_⟩⟩
  · obtain ⟨n, rfl⟩ := Nat.exists_eq_succ_of_ne_zero (show n ≠ 0 by omega)
    rcases live_or_carried (n + 1) hp hv with hlive | hcarried
    · exact hlive
    · by_contra hdead
      exact h (hcarried.leftover hp (by omega) hdead)
  · exact hm n (by omega) p (List.mem_toFinset.mpr hp) v (((hl p hp).2 v).mpr hlive)

theorem eventually_settled (h : ¬ Leftover P s) : ∃ k, Settled P ((round P)^[k] s) := by
  obtain ⟨m, hm⟩ := eventually_live h
  have hinto : ∀ n ≥ m, ∀ p ∈ P.nodes,
      ((round P)^[n] s).into p = ((round P)^[m] s).into p := by
    intro n hn p hp
    apply Finset.ext
    intro v
    rw [hm n hn p hp, hm m le_rfl p hp]
  have hseen : ∀ n ≥ m, ∀ p ∈ P.nodes, ∀ q ∈ P.succ p,
      seen P ((round P)^[n] s) p q = ((round P)^[m] s).into q := by
    intro n hn p hp q hq
    have hq := P.closed p hp q hq
    unfold seen
    split
    · rw [← rounds_succ]
      exact hinto _ (by omega) q hq
    · exact hinto n hn q hq
  refine ⟨m + 1, fun p hp => ⟨?_, ?_⟩⟩
  · rw [(round_at P _ hp).1, rounds_succ, (round_at P _ hp).1]
    apply join_congr
    intro q hq
    rw [← rounds_succ, hseen _ (by omega) p hp q hq, hseen _ le_rfl p hp q hq]
  · rw [← rounds_succ, hinto (m + 1 + 1) (by omega) p hp, hinto (m + 1) (by omega) p hp]

theorem run_live_iff : (∃ fuel r, run P fuel s = some r ∧ Live P r) ↔ ¬ Leftover P s := by
  constructor
  · rintro ⟨fuel, r, hrun, hlive⟩ hleft
    obtain ⟨k, hk, hround⟩ := run_some hrun
    obtain ⟨v, c, hc, hdead, hcarried⟩ := hleft.carried
    obtain ⟨n, hn, hcarried⟩ := hcarried k
    obtain ⟨d, rfl⟩ := Nat.exists_eq_add_of_le' hn
    have hmem := hcarried.mem_rounds hc
    rw [Function.iterate_add_apply, ← hk, Function.iterate_fixed hround] at hmem
    exact hdead (((hlive c hc).2 v).mp hmem)
  · intro h
    obtain ⟨k, hk⟩ := eventually_settled h
    obtain ⟨r, hr⟩ := run_of_settled hk
    obtain ⟨n, hn, hround⟩ := run_some hr
    obtain ⟨m, hm⟩ := eventually_live h
    have hsolution := solution_of_round P hround
    have hinto : ∀ p ∈ P.nodes, ∀ v, v ∈ r.into p ↔ LiveIn P v p := by
      intro p hp v
      rw [← hm (m + n) (by omega) p hp, Function.iterate_add_apply, ← hn,
        Function.iterate_fixed hround]
    refine ⟨k + 1, r, hr, fun p hp => ⟨fun v => ?_, hinto p hp⟩⟩
    rw [(hsolution p hp).1, mem_join]
    constructor
    · rintro ⟨q, hq, hv⟩
      exact ⟨q, hq, (hinto q (P.closed p hp q hq) v).mp hv⟩
    · rintro ⟨q, hq, hlive⟩
      exact ⟨q, hq, (hinto q (P.closed p hp q hq) v).mpr hlive⟩

omit [DecidableEq T] in
theorem not_leftover_empty : ¬ Leftover P ⟨fun _ => ∅, fun _ => ∅⟩ := by
  rintro ⟨v, c, p, q, -, -, -, -, -, hv, -⟩
  exact absurd hv (Finset.notMem_empty v)

end

end Vmir.BackwardDataflow
