import Vmir.DeadCodeTurns

set_option autoImplicit false

/-!
# The walks of dead code elimination

Which instructions a block holds in front of a turn, and in which order, and which of them the walk
of the turn takes.
-/
namespace Vmir.DeadCodeWalks
open Ir DeadCode DeadCodeFlow DeadCodeOrder DeadCodeTurns Relation

/-- The instructions of a block in front of turn `t`, with those gone in front of turn `s` away. -/
structure Holds (f : Function) (t s y : ℕ) (is : List BoundInstr) (l : List (ℕ × ℕ)) : Prop where
  code : List.Forall₂ (fun a i => instrAt f a = some i) l is
  mem : ∀ a, a ∈ l ↔ (instrAt f a).isSome ∧ Within f t a.1 y ∧ ¬ Gone f s a ∧ ¬ Cut f t a
  order : l.Pairwise fun a b => Behind f t b a

def Blocks (f : Function) (t s : ℕ) (g : Function) : Prop :=
  ∀ y ∈ ids g, ∃ l, Holds f t s y (instrsOf g y) l

/-- The values that have been marked are the results of those that have gone. -/
def Marked (f : Function) (t : ℕ) (g : Function) : Prop :=
  ∀ v, v ∈ g.dead ↔ v ∈ f.dead ∨ ∃ a i, Gone f t a ∧ instrAt f a = some i ∧ output i = some v

section
variable {f g h : Function} {t s n y : ℕ} {a : ℕ × ℕ} {l : List (ℕ × ℕ)}

theorem isInput_iff (hnodup : (ids g).Nodup) {v : ℕ} :
    isInput g v = true ↔ ∃ z ∈ ids g, ∃ j ∈ instrsOf g z, v ∈ j.inputs := by
  unfold isInput
  simp only [List.any_eq_true, decide_eq_true_eq]
  constructor
  · rintro ⟨b, hb, j, hj, hv⟩
    exact ⟨b.id, List.mem_map.mpr ⟨b, hb, rfl⟩, j, instrsOf_of_mem hnodup hb ▸ hj, hv⟩
  · rintro ⟨z, hz, j, hj, hv⟩
    obtain ⟨b, hb, rfl⟩ := List.mem_map.mp hz
    exact ⟨b, hb, j, instrsOf_of_mem hnodup hb ▸ hj, hv⟩

theorem Holds.code_mem {is : List BoundInstr} (hl : Holds f t s y is l) {j : BoundInstr}
    (hj : j ∈ is) : ∃ b ∈ l, instrAt f b = some j := by
  obtain ⟨b, hb, hcode⟩ := RelatedLists.forall₂_mem hl.code hj
  exact ⟨b, hb, hcode⟩

theorem Holds.mem_code {is : List BoundInstr} (hl : Holds f t s y is l) {b : ℕ × ℕ} (hb : b ∈ l)
    {j : BoundInstr} (hj : instrAt f b = some j) : j ∈ is := by
  obtain ⟨j', hj', hcode⟩ := RelatedLists.mem_forall₂ hl.code hb
  rwa [Option.some.inj (hj.symm.trans hcode)]

end

/-! ### One walk -/

section
variable {f : Function}

open Classical in
/-- The instructions of the list that the walk of turn `t` leaves. -/
noncomputable def left (f : Function) (t : ℕ) (l : List (ℕ × ℕ)) : List (ℕ × ℕ) :=
  l.filter fun a => ¬ Goes f t a

theorem mem_left {t : ℕ} {l : List (ℕ × ℕ)} {a : ℕ × ℕ} :
    a ∈ left f t l ↔ a ∈ l ∧ ¬ Goes f t a := by
  classical
  unfold left
  rw [List.mem_filter, decide_eq_true_eq]

theorem left_append (t : ℕ) (l l' : List (ℕ × ℕ)) : left f t (l ++ l') = left f t l ++ left f t l' :=
  List.filter_append ..

theorem left_singleton {t : ℕ} {a : ℕ × ℕ} :
    (Goes f t a → left f t [a] = []) ∧ (¬ Goes f t a → left f t [a] = [a]) := by
  classical
  unfold left
  exact ⟨fun h => List.filter_cons_of_neg (by simpa using h),
    fun h => List.filter_cons_of_pos (by simpa using h)⟩

/-- What the walk through block `y` starts from. -/
structure Start (f : Function) (y : ℕ) (g : Function) (l : List (ℕ × ℕ)) : Prop where
  branches : Branches f
  flow : Flow f
  follows : Follows f (turn f y) g
  blocks : Blocks f (turn f y) (turn f y) g
  mem : y ∈ ids g
  entered : turn f y ≠ 0 → entering f (turn f y) y ≠ []
  holds : Holds f (turn f y) (turn f y) y (instrsOf g y) l

/-- The walk has come by the instructions from position `n` on. -/
structure Walked (f : Function) (y : ℕ) (g : Function) (l : List (ℕ × ℕ)) (n : ℕ) (k : Function) :
    Prop where
  ids : ids k = ids g
  others : ∀ x ≠ y, instrsOf k x = instrsOf g x
  code : List.Forall₂ (fun a i => instrAt f a = some i) (l.take n ++ left f (turn f y) (l.drop n))
    (instrsOf k y)
  dead : ∀ v, v ∈ k.dead ↔ v ∈ g.dead ∨ ∃ a ∈ l.drop n, Goes f (turn f y) a
    ∧ ∃ i, instrAt f a = some i ∧ output i = some v

variable {y n : ℕ} {g k : Function} {l l' : List (ℕ × ℕ)} {a : ℕ × ℕ}

theorem Walked.used_iff (hs : Start f y g (l ++ a :: l'))
    (hw : Walked f y g (l ++ a :: l') (l.length + 1) k) {v : ℕ} :
    isInput k v = true ↔ ∃ b j, instrAt f b = some j ∧ v ∈ j.inputs
      ∧ Lasts f (turn f y) b.1 ∧ ¬ Gone f (turn f y) b ∧ (b ∈ l' → ¬ Goes f (turn f y) b) := by
  have hflow := hs.follows.flow
  have htake : (l ++ a :: l').take (l.length + 1) = l ++ [a] := by
    rw [List.take_append, List.take_of_length_le (by omega)]
    simp
  have hdrop : (l ++ a :: l').drop (l.length + 1) = l' := by
    rw [List.drop_append, List.drop_eq_nil_of_le (by omega)]
    simp
  have hcode := hw.code
  rw [htake, hdrop] at hcode
  rw [isInput_iff (hw.ids ▸ hflow.nodup), hw.ids]
  constructor
  · rintro ⟨z, hz, j, hj, huses⟩
    by_cases hzy : z = y
    · subst hzy
      obtain ⟨b, hb, hbj⟩ := RelatedLists.forall₂_mem hcode hj
      have hbl : b ∈ l ++ a :: l' := by
        rcases List.mem_append.mp hb with hb | hb
        · rcases List.mem_append.mp hb with hb | hb
          · exact List.mem_append_left _ hb
          · rw [List.mem_singleton.mp hb]
            exact List.mem_append_right _ List.mem_cons_self
        · exact List.mem_append_right _ (List.mem_cons_of_mem a (mem_left.mp hb).1)
      obtain ⟨-, hwithin, hgone, -⟩ := (hs.holds.mem b).mp hbl
      refine ⟨b, j, hbj, huses, hs.follows.lasts hz hwithin, hgone, fun hbl' => ?_⟩
      rcases List.mem_append.mp hb with hfront | hb
      · -- in front of the position nothing has come behind it
        intro hgoes
        have hpairs := hs.holds.order
        rw [List.append_cons, List.pairwise_append] at hpairs
        have hself := hpairs.2.2 b hfront b hbl'
        exact hself.asymm hwithin (hs.follows.isPresent hz) hself
      · exact (mem_left.mp hb).2
    · rw [hw.others z hzy] at hj
      obtain ⟨lz, hlz⟩ := hs.blocks z hz
      obtain ⟨b, hb, hbj⟩ := hlz.code_mem hj
      obtain ⟨-, hwithin, hgone, -⟩ := (hlz.mem b).mp hb
      refine ⟨b, j, hbj, huses, hs.follows.lasts hz hwithin, hgone, fun hbl' => ?_⟩
      have hwithin' := ((hs.holds.mem b).mp
        (List.mem_append_right _ (List.mem_cons_of_mem a hbl'))).2.1
      exact absurd (hwithin.unique hwithin' (hs.follows.isPresent hz)
        (hs.follows.isPresent hs.mem)) hzy
  · rintro ⟨b, j, hbj, huses, hlasts, hgone, hleft⟩
    have hcut : ¬ Cut f (turn f y) b := by
      intro hcut
      rw [hcut.inputs hs.branches hbj] at huses
      cases huses
    have hbids : b.1 ∈ DeadCode.ids f := mem_ids_of_instr hbj
    obtain ⟨z, hz, hwithin⟩ := hs.follows.exists_within hs.flow hbids hlasts
    refine ⟨z, hz, j, ?_, huses⟩
    by_cases hzy : z = y
    · subst hzy
      have hb : b ∈ l ++ a :: l' := (hs.holds.mem b).mpr ⟨hbj ▸ rfl, hwithin, hgone, hcut⟩
      have hmem : b ∈ l ++ [a] ++ left f (turn f z) l' := by
        rw [List.append_cons] at hb
        rcases List.mem_append.mp hb with hb | hb
        · exact List.mem_append_left _ hb
        · exact List.mem_append_right _ (mem_left.mpr ⟨hb, hleft hb⟩)
      obtain ⟨j', hj', hbj'⟩ := RelatedLists.mem_forall₂ hcode hmem
      rwa [Option.some.inj (hbj.symm.trans hbj')]
    · rw [hw.others z hzy]
      obtain ⟨lz, hlz⟩ := hs.blocks z hz
      exact hlz.mem_code ((hlz.mem b).mpr ⟨hbj ▸ rfl, hwithin, hgone, hcut⟩) hbj

theorem Walked.goes (hs : Start f y g (l ++ a :: l'))
    (hw : Walked f y g (l ++ a :: l') (l.length + 1) k) {i : BoundInstr} {v : ℕ}
    (hi : instrAt f a = some i) (hv : output i = some v) :
    Goes f (turn f y) a ↔ isInput k v = false := by
  have hpresent := hs.follows.isPresent hs.mem
  obtain ⟨-, hwithin, hgone, -⟩ := (hs.holds.mem a).mp
    (List.mem_append_right _ List.mem_cons_self)
  have hpairs := hs.holds.order
  rw [List.pairwise_append] at hpairs
  have hvisits : Visits f (turn f y) a :=
    ⟨y, hs.follows.ids hs.mem, rfl, hs.entered, hwithin⟩
  rw [goes_iff hi hv, and_iff_right hvisits, ← Bool.not_eq_true, hw.used_iff hs]
  constructor
  · rintro husers ⟨b, j, hbj, huses, hlasts, hbgone, hleft⟩
    obtain ⟨hbehind, hgoes⟩ := (husers b j hbj huses hlasts).resolve_left hbgone
    -- a use behind the instruction is in its block, and behind it there
    have hcut : ¬ Cut f (turn f y) b := by
      intro hcut
      rw [hcut.inputs hs.branches hbj] at huses
      cases huses
    have hb : b ∈ l ++ a :: l' :=
      (hs.holds.mem b).mpr ⟨hbj ▸ rfl, hbehind.within hwithin, hbgone, hcut⟩
    rcases List.mem_append.mp hb with hb | hb
    · exact hbehind.asymm hwithin hpresent (hpairs.2.2 b hb a List.mem_cons_self)
    · rcases List.mem_cons.mp hb with rfl | hb
      · exact hbehind.asymm hwithin hpresent hbehind
      · exact hleft hb hgoes
  · intro hno b j hbj huses hlasts
    by_contra hstill
    rw [not_or] at hstill
    refine hno ⟨b, j, hbj, huses, hlasts, hstill.1, fun hb hgoes => hstill.2 ⟨?_, hgoes⟩⟩
    exact (List.pairwise_cons.mp hpairs.2.1).1 b hb

theorem Walked.visit (hs : Start f y g (l ++ a :: l'))
    (hw : Walked f y g (l ++ a :: l') (l.length + 1) k) :
    Walked f y g (l ++ a :: l') l.length (visitInstr k y l.length) := by
  have htake : (l ++ a :: l').take (l.length + 1) = l ++ [a] := by
    rw [List.append_cons, List.take_append_of_le_length (by simp), List.take_of_length_le (by simp)]
  have hdrop : (l ++ a :: l').drop (l.length + 1) = l' := by
    rw [List.append_cons, List.drop_append_of_le_length (by simp), List.drop_of_length_le (by simp),
      List.nil_append]
  have hcode := hw.code
  have hdead := hw.dead
  rw [htake, hdrop, List.append_assoc, RelatedLists.forall₂_append] at hcode
  rw [hdrop] at hdead
  obtain ⟨is, is', heq, hfront, hrest⟩ := hcode
  obtain ⟨i, is'', hi, hbehind, rfl⟩ := List.forall₂_cons_left_iff.mp hrest
  have hlen := hfront.length_eq
  have hget : (instrsOf k y)[l.length]? = some i := by
    rw [heq, hlen]
    simp
  have hgoal {k' : Function} (hids : DeadCode.ids k' = DeadCode.ids g)
      (hothers : ∀ x ≠ y, instrsOf k' x = instrsOf g x)
      (hcode : List.Forall₂ (fun a i => instrAt f a = some i)
        (l ++ (left f (turn f y) [a] ++ left f (turn f y) l')) (instrsOf k' y))
      (hdead : ∀ v, v ∈ k'.dead ↔ (Goes f (turn f y) a ∧ output i = some v) ∨ v ∈ k.dead) :
      Walked f y g (l ++ a :: l') l.length k' := by
    refine ⟨hids, hothers, ?_, fun v => ?_⟩
    · rw [List.take_left, List.drop_left, ← List.singleton_append, left_append]
      exact hcode
    · rw [hdead v, hw.dead v, hdrop, List.drop_left]
      simp only [List.mem_cons, exists_eq_or_imp, hi, Option.some.injEq, exists_eq_left']
      tauto
  unfold visitInstr
  rw [hget, Option.bind_some]
  cases hv : output i with
  | none =>
    have hnot : ¬ Goes f (turn f y) a := by
      intro hgoes
      obtain ⟨i', v, hi', hv'⟩ := hgoes.output
      obtain rfl := Option.some.inj (hi.symm.trans hi')
      cases hv.symm.trans hv'
    refine hgoal hw.ids hw.others ?_ fun v => (or_iff_right fun h => hnot h.1).symm
    rw [left_singleton.2 hnot, heq]
    exact RelatedLists.forall₂_append.mpr ⟨is, i :: is'', rfl, hfront, .cons hi hbehind⟩
  | some v =>
    have hiff := hw.goes hs hi hv
    by_cases hinput : isInput k v = true
    · have hnot : ¬ Goes f (turn f y) a := by
        rw [hiff, hinput]
        exact Bool.noConfusion
      simp only [hinput, if_true]
      refine hgoal hw.ids hw.others ?_ fun w => (or_iff_right fun h => hnot h.1).symm
      rw [left_singleton.2 hnot, heq]
      exact RelatedLists.forall₂_append.mpr ⟨is, i :: is'', rfl, hfront, .cons hi hbehind⟩
    · have hgoes : Goes f (turn f y) a := hiff.mpr (Bool.eq_false_iff.mpr hinput)
      simp only [hinput, if_false, Bool.false_eq_true]
      have hmem : y ∈ DeadCode.ids k := hw.ids ▸ hs.mem
      have hself := instrsOf_setInstrs_self hmem ((instrsOf k y).eraseIdx l.length)
      refine hgoal ((ids_setInstrs _).trans hw.ids) (fun x hx => ?_) ?_ fun w => ?_
      · exact (instrsOf_setInstrs_of_ne hx _).trans (hw.others x hx)
      · change List.Forall₂ _ _ (instrsOf (setInstrs k y _) y)
        rw [hself, left_singleton.1 hgoes, heq, hlen, List.eraseIdx_append_of_length_le le_rfl,
          Nat.sub_self]
        exact RelatedLists.forall₂_append.mpr ⟨is, is'', rfl, hfront, hbehind⟩
      · rw [hv, and_iff_right hgoes, Option.some.injEq, eq_comm]
        exact List.mem_cons

theorem walked_visits {l : List (ℕ × ℕ)} (hs : Start f y g l) (hle : n ≤ l.length)
    (hw : Walked f y g l n k) : Walked f y g l 0 (visitInstrs k y n) := by
  induction n generalizing k with
  | zero => exact hw
  | succ n ih =>
    have hlt : n < l.length := hle
    have hsplit : l = l.take n ++ l[n] :: l.drop (n + 1) := by
      rw [← List.drop_eq_getElem_cons hlt, List.take_append_drop]
    have hlen : (l.take n).length = n := List.length_take_of_le hlt.le
    have hvisit : Walked f y g l n (visitInstr k y n) := by
      have hs' : Start f y g (l.take n ++ l[n] :: l.drop (n + 1)) := hsplit ▸ hs
      have hstep := @Walked.visit f y g k (l.take n) (l.drop (n + 1)) l[n] hs'
      rw [← hsplit, hlen] at hstep
      exact hstep hw
    exact ih hlt.le hvisit

theorem walked {l : List (ℕ × ℕ)} (hs : Start f y g l) :
    Walked f y g l 0 (eliminateDeadCodeInBb g y) := by
  unfold eliminateDeadCodeInBb
  rw [← hs.holds.code.length_eq]
  refine walked_visits hs le_rfl ⟨rfl, fun _ _ => rfl, ?_, fun v => ?_⟩
  · rw [List.take_length, List.drop_length]
    change List.Forall₂ _ (l ++ List.filter _ []) _
    rw [List.filter_nil, List.append_nil]
    exact hs.holds.code
  · rw [List.drop_length]
    simp

theorem visits_within (hfollows : Follows f (turn f y) g) (hy : y ∈ ids g)
    {z : ℕ} {b : ℕ × ℕ} (hz : z ∈ ids g) (hwithin : Within f (turn f y) b.1 z)
    (hvisits : Visits f (turn f y) b) : z = y := by
  obtain ⟨y', hy', hturn, -, hwithin'⟩ := hvisits
  obtain rfl : y' = y := turn_inj hy' hturn
  exact hwithin.unique hwithin' (hfollows.isPresent hz) (hfollows.isPresent hy)

theorem blocks_walked {l : List (ℕ × ℕ)} (hs : Start f y g l) :
    Blocks f (turn f y) (turn f y + 1) (eliminateDeadCodeInBb g y) := by
  have hw := walked hs
  intro z hz
  rw [hw.ids] at hz
  by_cases hzy : z = y
  · subst hzy
    refine ⟨left f (turn f z) l, ?_, fun a => ?_, hs.holds.order.sublist ?_⟩
    · have hcode := hw.code
      rwa [List.take_zero, List.drop_zero, List.nil_append] at hcode
    · rw [mem_left, hs.holds.mem, gone_succ]
      tauto
    · exact List.filter_sublist
  · rw [hw.others z hzy]
    obtain ⟨lz, hlz⟩ := hs.blocks z hz
    refine ⟨lz, hlz.code, fun a => ?_, hlz.order⟩
    rw [hlz.mem, gone_succ]
    refine and_congr_right fun _ => and_congr_right fun hwithin => and_congr_left fun _ => ?_
    have hnot : ¬ Goes f (turn f y) a := fun hgoes =>
      hzy (visits_within hs.follows hs.mem hz hwithin hgoes.visits)
    rw [or_iff_left hnot]

theorem marked_walked {l : List (ℕ × ℕ)} (hs : Start f y g l) (hm : Marked f (turn f y) g) :
    Marked f (turn f y + 1) (eliminateDeadCodeInBb g y) := by
  have hw := walked hs
  intro v
  rw [hw.dead v, hm v, or_assoc]
  refine or_congr_right ?_
  constructor
  · rintro (⟨a, i, hgone, hi, hv⟩ | ⟨a, -, hgoes, i, hi, hv⟩)
    · exact ⟨a, i, gone_succ.mpr (Or.inl hgone), hi, hv⟩
    · exact ⟨a, i, gone_succ.mpr (Or.inr hgoes), hi, hv⟩
  · rintro ⟨a, i, hgone, hi, hv⟩
    by_cases hbefore : Gone f (turn f y) a
    · exact Or.inl ⟨a, i, hbefore, hi, hv⟩
    have hgoes := (gone_succ.mp hgone).resolve_left hbefore
    obtain ⟨y', hy', hturn, -, hwithin⟩ := hgoes.visits
    obtain rfl : y' = y := turn_inj hy' hturn
    have hcut : ¬ Cut f (turn f y') a := by
      rintro ⟨hlast, q, hjoins⟩
      obtain ⟨last, hlast', hout, -⟩ := hs.flow.last a.1 (mem_ids_of_instr hi)
      rw [List.getLast?_eq_getElem?, show (instrsOf f a.1).length - 1 = a.2 by omega] at hlast'
      obtain rfl := Option.some.inj (hi.symm.trans hlast')
      cases hout.symm.trans hv
    refine Or.inr ⟨a, ?_, hgoes, i, hi, hv⟩
    exact (hs.holds.mem a).mpr ⟨hi ▸ rfl, hwithin, hbefore, hcut⟩

end

/-! ### Instructions from turn to turn -/

section
variable {f g g' : Function} {t ib p p' y : ℕ} {a : ℕ × ℕ} {is is' : List BoundInstr}
  {l l' : List (ℕ × ℕ)}

theorem Holds.succ (h : Holds f t (t + 1) y is l)
    (hwithin : ∀ q, Within f (t + 1) q y ↔ Within f t q y)
    (hcut : ∀ a, Within f t a.1 y → (Cut f (t + 1) a ↔ Cut f t a)) :
    Holds f (t + 1) (t + 1) y is l := by
  refine ⟨h.code, fun a => ?_, h.order.imp fun h => h.mono (Nat.le_succ t)⟩
  rw [h.mem, hwithin]
  refine and_congr_right fun _ => and_congr_right fun hw => and_congr_right fun _ => ?_
  rw [hcut a hw]

def final (f : Function) (p : ℕ) : ℕ × ℕ := (p, (instrsOf f p).length - 1)

theorem instrAt_final (hf : Flow f) (hp : p ∈ ids f) :
    ∃ i, instrAt f (final f p) = some i ∧ output i = none
      ∧ (final f p).2 + 1 = (instrsOf f p).length := by
  obtain ⟨i, hi, hout, -⟩ := hf.last p hp
  have hpos : 0 < (instrsOf f p).length := by
    apply List.length_pos_of_ne_nil
    rintro hnil
    rw [hnil] at hi
    cases hi
  refine ⟨i, ?_, hout, Nat.sub_add_cancel hpos⟩
  rw [List.getLast?_eq_getElem?] at hi
  exact hi

theorem final_stays (hf : Flow f) (hp : p ∈ ids f) : ¬ Gone f t (final f p) := by
  rintro ⟨t', -, hgoes⟩
  obtain ⟨i, hi, hout, -⟩ := instrAt_final hf hp
  obtain ⟨i', v, hi', hv⟩ := hgoes.output
  obtain rfl := Option.some.inj (hi.symm.trans hi')
  cases hout.symm.trans hv

theorem not_joinsBefore (hf : Flow f) (hjoins : Joins f ib p) (q : ℕ) :
    ¬ JoinsBefore f (turn f ib) q p := by
  rintro ⟨hq, hturn⟩
  have hpids := (hjoins.ids hf).2
  obtain ⟨e, he⟩ := outgoing_of_endsInBr hf hjoins.2.1 hpids
  have hib : ⟨p, ib⟩ ∈ outgoing f p := mem_outgoing.mpr ⟨hjoins.mem.1, rfl⟩
  have hqe : ⟨p, q⟩ ∈ outgoing f p := mem_outgoing.mpr ⟨hq.mem.1, rfl⟩
  rw [he] at hib hqe
  have heq := (List.mem_singleton.mp hqe).trans (List.mem_singleton.mp hib).symm
  rw [show q = ib from congrArg Edge.ibeTo heq] at hturn
  exact lt_irrefl _ hturn

theorem Holds.final (h : Holds f (turn f ib) t y is l) (hf : Flow f) (hjoins : Joins f ib p)
    (hp : Within f (turn f ib) p y) : ∃ l₀, l = l₀ ++ [final f p] := by
  have hpids := (hjoins.ids hf).2
  obtain ⟨i, hi, hout, hlast⟩ := instrAt_final hf hpids
  have hcut : ¬ Cut f (turn f ib) (DeadCodeWalks.final f p) :=
    fun ⟨_, q, hq⟩ => not_joinsBefore hf hjoins q hq
  have hmem : DeadCodeWalks.final f p ∈ l :=
    (h.mem _).mpr ⟨hi ▸ rfl, hp, final_stays hf hpids, hcut⟩
  obtain ⟨l₀, b, rfl⟩ := List.eq_nil_or_concat l |>.resolve_left (List.ne_nil_of_mem hmem)
  rw [List.concat_eq_append] at h hmem ⊢
  rcases List.mem_append.mp hmem with hfront | hback
  · -- nothing comes behind it
    exfalso
    have hbehind := (List.pairwise_append.mp h.order).2.2 _ hfront b (List.mem_singleton_self b)
    rcases hbehind with ⟨heq, hlt⟩ | hchain
    · obtain ⟨hsome, -⟩ := (h.mem b).mp (List.mem_append_right _ (List.mem_singleton_self b))
      obtain ⟨j, hj⟩ := Option.isSome_iff_exists.mp hsome
      have hb : b.2 < (instrsOf f b.1).length := (List.getElem?_eq_some_iff.mp hj).1
      rw [heq] at hb
      change b.2 < (instrsOf f p).length at hb
      omega
    · obtain ⟨q, -, hq⟩ := TransGen.tail'_iff.mp hchain
      exact not_joinsBefore hf hjoins q hq
  · exact ⟨l₀, by rw [List.mem_singleton.mp hback]⟩

theorem cut_succ (hf : Flow f) : Cut f (turn f ib + 1) a ↔ Cut f (turn f ib) a
    ∨ a.2 + 1 = (instrsOf f a.1).length ∧ Joins f ib a.1 := by
  unfold Cut
  rw [← and_or_left]
  refine and_congr_right fun _ => ?_
  constructor
  · rintro ⟨q, hq⟩
    rcases (joinsBefore_succ hf).mp hq with hq | ⟨-, hq⟩
    · exact Or.inl ⟨q, hq⟩
    · exact Or.inr hq
  · rintro (⟨q, hq⟩ | hq)
    · exact ⟨q, (joinsBefore_succ hf).mpr (Or.inl hq)⟩
    · exact ⟨ib, (joinsBefore_succ hf).mpr (Or.inr ⟨rfl, hq⟩)⟩

theorem Holds.merge (h : Holds f (turn f ib) (turn f ib + 1) p' is l)
    (h' : Holds f (turn f ib) (turn f ib + 1) ib is' l') (hf : Flow f) (hjoins : Joins f ib p)
    (hp : Within f (turn f ib) p p') (hp' : Present f (turn f ib) p')
    (hstill : Present f (turn f ib + 1) p') (hne : p' ≠ ib) :
    ∃ k, Holds f (turn f ib + 1) (turn f ib + 1) p' (is.dropLast ++ is') k := by
  obtain ⟨l₀, rfl⟩ := h.final hf hjoins hp
  obtain ⟨is₀, is₁, rfl, hfront, hlast⟩ := RelatedLists.forall₂_append.mp h.code
  obtain ⟨i, none, hi, hnil, rfl⟩ := List.forall₂_cons_left_iff.mp hlast
  rw [List.forall₂_nil_left_iff.mp hnil] at h hlast ⊢
  rw [List.dropLast_concat]
  have horder := List.pairwise_append.mp h.order
  obtain ⟨-, -, -, hlastlen⟩ := instrAt_final hf (hjoins.ids hf).2
  refine ⟨l₀ ++ l', RelatedLists.forall₂_append.mpr ⟨_, _, rfl, hfront, h'.code⟩, fun a => ?_, ?_⟩
  · have hbefore : a ∈ l₀ ↔ (instrAt f a).isSome ∧ Within f (turn f ib) a.1 p'
        ∧ ¬ Gone f (turn f ib + 1) a ∧ ¬ Cut f (turn f ib + 1) a := by
      rw [cut_succ hf, not_or]
      constructor
      · intro ha
        obtain ⟨hsome, hwithin, hgone, hcut⟩ := (h.mem a).mp (List.mem_append_left _ ha)
        refine ⟨hsome, hwithin, hgone, hcut, fun ⟨hlen, hjoined⟩ => ?_⟩
        obtain rfl : a.1 = p := hjoins.unique (mem_entering.mpr hjoined.mem)
        have heq : a = DeadCodeWalks.final f a.1 :=
          Prod.ext rfl (by change a.2 = (instrsOf f a.1).length - 1; omega)
        have hself := horder.2.2 a ha _ (List.mem_singleton_self _)
        rw [← heq] at hself
        exact hself.asymm hwithin hp' hself
      · rintro ⟨hsome, hwithin, hgone, hcut, hnew⟩
        have hmem := (h.mem a).mpr ⟨hsome, hwithin, hgone, hcut⟩
        refine (List.mem_append.mp hmem).resolve_right fun ha => hnew ?_
        rw [List.mem_singleton.mp ha]
        exact ⟨hlastlen, hjoins⟩
    have hinto : a ∈ l' ↔ (instrAt f a).isSome ∧ Within f (turn f ib) a.1 ib
        ∧ ¬ Gone f (turn f ib + 1) a ∧ ¬ Cut f (turn f ib + 1) a := by
      rw [h'.mem, cut_succ hf, not_or]
      refine and_congr_right fun _ => and_congr_right fun hwithin => and_congr_right fun _ => ?_
      refine (and_iff_left fun ⟨_, hjoined⟩ => ?_).symm
      obtain rfl : a.1 = p := hjoins.unique (mem_entering.mpr hjoined.mem)
      exact hne (hp.unique hwithin hp' present_turn)
    rw [List.mem_append, hbefore, hinto, within_succ_of_joins hf hjoins hp hp' hstill]
    tauto
  · refine List.pairwise_append.mpr ⟨horder.1.imp fun h => h.mono (Nat.le_succ _),
      h'.order.imp fun h => h.mono (Nat.le_succ _), fun a ha b hb => Or.inr ?_⟩
    -- what comes with the block is behind its last instruction
    have hwithin := ((h'.mem b).mp hb).2.1.mono (Nat.le_succ _)
    have hstep : JoinsBefore f (turn f ib + 1) ib p := ⟨hjoins, Nat.lt_succ_self _⟩
    have hbehind := horder.2.2 a ha _ (List.mem_singleton_self _)
    rcases hbehind with ⟨heq, -⟩ | hchain
    · exact heq ▸ TransGen.tail' hwithin hstep
    · exact (TransGen.tail' hwithin hstep).trans
        (TransGen.mono (fun _ _ h => ⟨h.1, h.2.trans (Nat.lt_succ_self _)⟩) _ _ hchain)

/-! ### Turns -/

/-- The function in front of turn `t`. -/
structure InTurn (f : Function) (t : ℕ) (g : Function) : Prop where
  follows : Follows f t g
  blocks : Blocks f t t g
  marked : Marked f t g

theorem blocks_succ_of_not (hf : Flow f) (hnot : ∀ p, ¬ Joins f ib p)
    (h : Blocks f (turn f ib) (turn f ib + 1) g) :
    Blocks f (turn f ib + 1) (turn f ib + 1) g := by
  have hsame := joinsBefore_succ_of_not hf hnot
  intro y hy
  obtain ⟨l, hl⟩ := h y hy
  refine ⟨l, hl.succ (fun q => ?_) fun a _ => ?_⟩
  · unfold Within
    rw [hsame]
  · unfold Cut
    rw [hsame]

theorem inTurn_start (hf : Flow f) : InTurn f 0 f := by
  have hgone : ∀ a, ¬ Gone f 0 a := fun a ⟨t', ht, _⟩ => absurd ht (Nat.not_lt_zero t')
  have hnone : ∀ q p, ¬ JoinsBefore f 0 q p := fun q p h => absurd h.2 (Nat.not_lt_zero _)
  refine ⟨follows_start hf, fun y _ => ?_, fun v => ?_⟩
  · refine ⟨(List.range (instrsOf f y).length).map fun n => (y, n), ?_, fun a => ?_, ?_⟩
    · rw [List.forall₂_map_left_iff, List.forall₂_iff_get]
      refine ⟨List.length_range, fun n hn hn' => ?_⟩
      rw [List.get_eq_getElem, List.getElem_range]
      exact List.getElem?_eq_getElem hn'
    · have hwithin : Within f 0 a.1 y ↔ a.1 = y :=
        ⟨fun h => h.cases_head.resolve_right fun ⟨p, hp, _⟩ => hnone _ _ hp, fun h => h ▸ .refl⟩
      have hcut : ¬ Cut f 0 a := fun ⟨_, q, hq⟩ => hnone _ _ hq
      rw [hwithin, and_iff_left hcut, and_iff_left (hgone a), List.mem_map]
      constructor
      · rintro ⟨n, hn, rfl⟩
        refine ⟨?_, rfl⟩
        unfold instrAt
        rw [List.getElem?_eq_getElem (List.mem_range.mp hn)]
        rfl
      · rintro ⟨hsome, rfl⟩
        obtain ⟨i, hi⟩ := Option.isSome_iff_exists.mp hsome
        exact ⟨a.2, List.mem_range.mpr (List.getElem?_eq_some_iff.mp hi).1, rfl⟩
    · rw [List.pairwise_map]
      exact List.pairwise_lt_range.imp fun hlt => Or.inl ⟨rfl, hlt⟩
  · refine (or_iff_left fun ⟨a, _, h, _⟩ => hgone a h).symm

theorem InTurn.start (h : InTurn f (turn f ib) g) (hf : Flow f) (hbr : Branches f)
    (hib : ib ∈ ids g) (hentered : turn f ib ≠ 0 → entering f (turn f ib) ib ≠ []) :
    ∃ l, Start f ib g l := by
  obtain ⟨l, hl⟩ := h.blocks ib hib
  exact ⟨l, hbr, hf, h.follows, h.blocks, hib, hentered, hl⟩

theorem InTurn.first (h : InTurn f 0 f) (hf : Flow f) (hbr : Branches f) (hib : ib ∈ ids f)
    (hfirst : turn f ib = 0) : InTurn f 1 (eliminateDeadCodeInBb f ib) := by
  have hnot : ∀ p, ¬ Joins f ib p := fun p hp => hp.1 hfirst
  rw [← hfirst] at h
  obtain ⟨l, hs⟩ := h.start hf hbr hib fun hne => absurd hfirst hne
  rw [← Nat.zero_add 1, ← hfirst]
  exact ⟨(h.follows.pruned (pruned_inBb f ib) hib).stay hf hnot (Or.inr (Or.inl hfirst)),
    blocks_succ_of_not hf hnot (blocks_walked hs), marked_walked hs h.marked⟩

theorem InTurn.start_of_entered (h : InTurn f (turn f ib) g) (hf : Flow f) (hbr : Branches f)
    (hib : ib ∈ ids g) (hin : incoming g ib ≠ []) : ∃ l, Start f ib g l :=
  h.start hf hbr hib fun _ hnil => hin ((h.follows.incoming_nil hib).mpr hnil)

theorem InTurn.unreachable (h : InTurn f (turn f ib) g) (hf : Flow f) (hib : ib ∈ ids g)
    (hfirst : turn f ib ≠ 0) (hin : incoming g ib = [])
    (hfollows : Follows f (turn f ib + 1) (bbDestroy g ib)) :
    InTurn f (turn f ib + 1) (bbDestroy g ib) := by
  have hentering := (h.follows.incoming_nil hib).mp hin
  have hnot : ∀ p, ¬ Joins f ib p := by
    intro p hp
    have hentered := hp.2.2
    rw [hentering] at hentered
    cases hentered
  have hgone : ∀ a, Gone f (turn f ib + 1) a ↔ Gone f (turn f ib) a := by
    intro a
    rw [gone_succ]
    refine or_iff_left fun hgoes => ?_
    obtain ⟨y, hy, hturn, hentered, -⟩ := hgoes.visits
    obtain rfl := turn_inj hy hturn
    exact hentered hfirst hentering
  have hblocks : Blocks f (turn f ib) (turn f ib + 1) g := by
    intro y hy
    obtain ⟨l, hl⟩ := h.blocks y hy
    exact ⟨l, hl.code, fun a => by rw [hl.mem, hgone], hl.order⟩
  refine ⟨hfollows, fun y hy => ?_, fun v => ?_⟩
  · rw [ids_bbDestroy, List.mem_filter, decide_eq_true_eq] at hy
    rw [instrsOf_bbDestroy hy.2]
    exact blocks_succ_of_not hf hnot hblocks y hy.1
  · simp only [hgone]
    exact h.marked v

theorem InTurn.merged (h : InTurn f (turn f ib) g) (hf : Flow f) (hbr : Branches f)
    (hib : ib ∈ ids g) (hfirst : turn f ib ≠ 0) {p' : ℕ} (hin : incoming g ib = [⟨p', ib⟩])
    (hne : p' ≠ ib) (hends : EndsInBr g p')
    (hm : Merged ib p' (eliminateDeadCodeInBb g ib) g') (hfollows : Follows f (turn f ib + 1) g') :
    InTurn f (turn f ib + 1) g' := by
  have hids := (pruned_inBb g ib).ids
  obtain ⟨p, hp, hwithin⟩ := h.follows.joins hib hfirst hin hends
  obtain ⟨l, hs⟩ := h.start_of_entered hf hbr hib (by rw [hin]; exact List.cons_ne_nil _ _)
  have hblocks := blocks_walked hs
  have hp' : p' ∈ ids g := (h.follows.flow.edge _ (mem_incoming.mp
    (hin ▸ List.mem_singleton_self _)).1).1
  have hpresent := h.follows.isPresent hp'
  refine ⟨hfollows, fun y hy => ?_, fun v => ?_⟩
  · have hy' := hy
    rw [hm.ids, List.mem_filter, decide_eq_true_eq, hids] at hy'
    by_cases hyp : y = p'
    · subst hyp
      rw [hm.target]
      obtain ⟨ly, hly⟩ := hblocks y (hids ▸ hy'.1)
      obtain ⟨lib, hlib⟩ := hblocks ib (hids ▸ hib)
      exact hly.merge hlib hf hp hwithin hpresent (hfollows.isPresent hy) hne
    · rw [hm.others y hy'.2 hyp]
      obtain ⟨ly, hly⟩ := hblocks y (hids ▸ hy'.1)
      refine ⟨ly, hly.succ (fun q => ?_) fun a ha => ?_⟩
      · rw [within_succ_of_joins hf hp hwithin hpresent (hfollows.isPresent hy)]
        exact or_iff_left fun hq => hyp hq.2
      · rw [cut_succ hf]
        refine or_iff_left fun ⟨_, hjoined⟩ => hyp ?_
        rw [hp.unique (mem_entering.mpr hjoined.mem)] at ha
        exact ha.unique hwithin (h.follows.isPresent hy'.1) hpresent
  · rw [hm.dead]
    exact marked_walked hs h.marked v

theorem InTurn.alone (h : InTurn f (turn f ib) g) (hf : Flow f) (hbr : Branches f)
    (hib : ib ∈ ids g) (hfirst : turn f ib ≠ 0) (hin : incoming g ib = [⟨ib, ib⟩])
    (hends : EndsInBr g ib)
    (hfollows : Follows f (turn f ib + 1) (bbDestroy (eliminateDeadCodeInBb g ib) ib)) :
    InTurn f (turn f ib + 1) (bbDestroy (eliminateDeadCodeInBb g ib) ib) := by
  obtain ⟨p, hp, hwithin⟩ := h.follows.joins hib hfirst hin hends
  obtain ⟨l, hs⟩ := h.start_of_entered hf hbr hib (by rw [hin]; exact List.cons_ne_nil _ _)
  have hblocks := blocks_walked hs
  have hgone : ¬ Present f (turn f ib + 1) ib :=
    fun hpresent => hpresent.terminal p ⟨hp, Nat.lt_succ_self _⟩
  refine ⟨hfollows, fun y hy => ?_, fun v => marked_walked hs h.marked v⟩
  have hy' := hy
  rw [ids_bbDestroy, List.mem_filter, decide_eq_true_eq, (pruned_inBb g ib).ids] at hy'
  rw [instrsOf_bbDestroy hy'.2]
  obtain ⟨ly, hly⟩ := hblocks y ((pruned_inBb g ib).ids ▸ hy'.1)
  refine ⟨ly, hly.succ (fun q => ?_) fun a ha => ?_⟩
  · refine within_succ_of_gone hf hgone (fun p₁ hp₁ => ?_) (hfollows.isPresent hy)
    rw [hp₁.unique (mem_entering.mpr hp.mem)] at hwithin
    exact hwithin
  · rw [cut_succ hf]
    refine or_iff_left fun ⟨_, hjoined⟩ => hy'.2 ?_
    rw [hp.unique (mem_entering.mpr hjoined.mem)] at ha
    exact ha.unique hwithin (h.follows.isPresent hy'.1) present_turn

theorem InTurn.visited (h : InTurn f (turn f ib) g) (hf : Flow f) (hbr : Branches f)
    (hib : ib ∈ ids g) (hfirst : turn f ib ≠ 0) (hv : Visited g ib g') :
    InTurn f (turn f ib + 1) g' := by
  have hfollows := h.follows.visited hf hib hfirst hv
  cases hv with
  | unreachable hin => exact h.unreachable hf hib hfirst hin hfollows
  | stays hin hends =>
    have hnot : ∀ p, ¬ Joins f ib p := by
      intro p hp
      obtain ⟨p', -, hin', hends', -⟩ := h.follows.of_joins hib hp
      exact hends p' hin' hends'
    obtain ⟨l, hs⟩ := h.start_of_entered hf hbr hib hin
    exact ⟨hfollows, blocks_succ_of_not hf hnot (blocks_walked hs), marked_walked hs h.marked⟩
  | merged hin hne hends hm => exact h.merged hf hbr hib hfirst hin hne hends hm hfollows
  | alone hin hends _ => exact h.alone hf hbr hib hfirst hin hends hfollows

end

end Vmir.DeadCodeWalks
