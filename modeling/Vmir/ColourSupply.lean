import Vmir.Colouring
import Vmir.ExceptFold
import Vmir.NeighbourCounts
import Vmir.RelatedLists

set_option autoImplicit false

/-!
# The colours do not run out

The counts that `coalesce` keeps are the numbers of neighbours in the matrix, so that the colouring
has one colour more than any vertex has neighbours. The matrix itself is addressed rightly up to
46341 values.
-/
namespace Vmir.ColourSupply
open Ir IrTypes TriangularPairs TriangularMatrix Colouring NeighbourCounts

variable {n : ℕ}

/-- The values that `x` interferes with. -/
def interferes (mtx : Bits) (x : Fin n) : Finset (Fin n) :=
  Finset.univ.filter fun y => mtx.bit (tribitmtxPos x y)

/-- The counts suffice, and what was merged into another value has no bits. -/
structure Counted (f : Fresh n) (s : State n) : Prop where
  enough : ∀ x, (s.values x).cls = .temporary →
    ((interferes s.mtx x).card : ℤ) ≤ (s.values x).edges
  killed : ∀ x, (f.values x).cls = .temporary → (s.values x).cls ≠ .temporary →
    ∀ y : Fin n, s.mtx.bit (tribitmtxPos x y) = false

/-- Every vertex gets a colour, however equal scores are sorted. -/
def Coloured (s : State n) : Prop :=
  ∀ iu jit vi, vertices iu jit s = .ok vi → ∀ order : List (ValueInfo n), order.Perm vi →
    ∃ colors, colour s.mtx order = .ok colors ∧ ∀ x : Fin n, IsVertex s x → 0 ≤ colors x

/-- What holds behind the construction of the matrix and behind any moves. A move whose result is no
temporary fails an assertion. -/
def ColoursSuffice (n : ℕ) : Prop :=
  ∀ (f : Fresh n) (ds : List (Definition n)), ∃ s, buildMatrix f ds = .ok s ∧ Counted f s ∧
    ∀ ms : List (Move n), match coalesce s ms with
      | .error e => e = .fault .abort
      | .ok s => Counted f s ∧ Coloured s

/-! ## The matrix as a graph -/

def adjOf (mtx : Bits) : Adjacency (Fin n) := fun x y => mtx.bit (pairNumber x y)

/-- The matrix has the words that `n` values need. -/
def Sized (n : ℕ) (mtx : Bits) : Prop := mtx.size = 32 * tribitmtxAlloc n

section Access
variable (hn : n ≤ 46341) {mtx : Bits} (hsize : Sized n mtx)
include hn

theorem pos_eq (x y : Fin n) : tribitmtxPos x y = pairNumber x y := by
  have hx := x.isLt
  have hy := y.isLt
  exact tribitmtxPos_eq (by omega) (by omega)

theorem interferes_eq (mtx : Bits) (x : Fin n) : interferes mtx x = neighbours (adjOf mtx) x := by
  unfold interferes neighbours adjOf
  simp only [pos_eq hn]

include hsize

theorem pos_inside (x y : Fin n) :
    0 ≤ tribitmtxPos x y ∧ tribitmtxPos x y < mtx.size := by
  have hlt := pairNumber_lt x.isLt y.isLt
  have hle := le_tribitmtxAlloc hn
  rw [pos_eq hn, hsize]
  omega

theorem get_eq (x y : Fin n) : tribitmtxGet mtx x y = .ok (adjOf mtx x y) := by
  unfold tribitmtxGet bitchk
  rw [if_pos (pos_inside hn hsize x y), pos_eq hn]
  rfl

theorem assign_eq (on : Bool) (x y : Fin n) :
    ∃ mtx', bitassign on mtx (tribitmtxPos x y) = .ok mtx' ∧ Sized n mtx' ∧
      adjOf mtx' = setPair (adjOf mtx) x y on := by
  refine ⟨_, if_pos (pos_inside hn hsize x y), hsize, ?_⟩
  funext a b
  unfold adjOf setPair
  rw [pos_eq hn]
  by_cases hpair : (a = x ∧ b = y) ∨ (a = y ∧ b = x)
  · rw [if_pos hpair]
    have hnumber : pairNumber (a : ℕ) b = pairNumber (x : ℕ) y := by
      rcases hpair with ⟨rfl, rfl⟩ | ⟨rfl, rfl⟩
      · rfl
      · exact pairNumber_comm _ _
    rw [hnumber]
    exact Function.update_self _ _ _
  · rw [if_neg hpair]
    apply Function.update_of_ne
    intro heq
    apply hpair
    have hends := eq_of_pairNumber (Int.natCast_inj.mp heq)
    simpa only [Fin.ext_iff] using hends

end Access

/-! ## The construction -/

def State.adj (s : State n) : Adjacency (Fin n) := adjOf s.mtx

/-- The matrix is one of a graph, and the classes are `cls`. -/
structure Shape (cls : Fin n → ValueClass) (s : State n) : Prop where
  sized : Sized n s.mtx
  simple : Simple (State.adj s)
  cls_eq : ∀ y, (s.values y).cls = cls y

/-- The count of every value but `x` is its degree. -/
structure CountedBut (cls : Fin n → ValueClass) (x : Fin n) (s : State n) : Prop
    extends Shape cls s where
  counts : ∀ y, y ≠ x → (s.values y).edges = degree (State.adj s) y

structure CountedAll (cls : Fin n → ValueClass) (s : State n) : Prop extends Shape cls s where
  counts : ∀ y, (s.values y).edges = degree (State.adj s) y

/-- The count of `x` still lacks `edges`, the second component. -/
def Lacking (cls : Fin n → ValueClass) (x : Fin n) (p : State n × ℤ) : Prop :=
  CountedBut cls x p.1 ∧ (p.1.values x).edges + p.2 = degree (State.adj p.1) x

theorem addEdges_edges (s : State n) (x : Fin n) (k : ℤ) (y : Fin n) :
    ((s.addEdges x k).values y).edges = (s.values y).edges + if y = x then k else 0 := by
  unfold State.addEdges
  by_cases hy : y = x
  · subst hy
    simp
  · simp [hy]

theorem addEdges_cls (s : State n) (x : Fin n) (k : ℤ) (y : Fin n) :
    ((s.addEdges x k).values y).cls = (s.values y).cls := by
  unfold State.addEdges
  by_cases hy : y = x
  · subst hy
    simp
  · simp [hy]

section Construction
variable (hn : n ≤ 46341) {cls : Fin n → ValueClass}
include hn

theorem addEdge_counted {x : Fin n} {moved : ℤ} {p : State n × ℤ} (y : Fin n)
    (h : Lacking cls x p) : ∃ p', addEdge x moved p y = .ok p' ∧ Lacking cls x p' := by
  obtain ⟨s, k⟩ := p
  obtain ⟨hbut, hx⟩ := h
  unfold addEdge
  by_cases hguard : y ≠ x ∧ (y : ℤ) ≠ moved
  · rw [if_pos hguard, get_eq hn hbut.sized]
    have hyx : y ≠ x := hguard.1
    cases hadj : adjOf s.mtx x y with
    | true => exact ⟨(s, k), rfl, hbut, hx⟩
    | false =>
      obtain ⟨mtx, hset, hsized, hmtx⟩ := assign_eq hn hbut.sized true x y
      have hyx' : adjOf s.mtx y x = false := (hbut.simple.symm y x).trans hadj
      refine ⟨(State.addEdges { s with mtx := mtx } y 1, k + 1), ?_, ?_, ?_⟩
      · change (do
          let mtx ← bitassign true s.mtx (tribitmtxPos x y)
          return (State.addEdges { s with mtx := mtx } y 1, k + 1)) = _
        rw [hset]
        rfl
      · refine ⟨⟨hsized, ?_, fun z => (addEdges_cls _ y 1 z).trans (hbut.cls_eq z)⟩, ?_⟩
        · change Simple (adjOf mtx)
          rw [hmtx]
          exact hbut.simple.setPair (Ne.symm hyx)
        · intro z hz
          rw [addEdges_edges]
          change (s.values z).edges + _ = (degree (adjOf mtx) z : ℤ)
          rw [hmtx, hbut.counts z hz]
          change (degree (adjOf s.mtx) z : ℤ) + _ = _
          by_cases hzy : z = y
          · rw [hzy, if_pos rfl, degree_link_right hyx', Nat.cast_add, Nat.cast_one]
          · rw [if_neg hzy, degree_setPair_other hz hzy, add_zero]
      · rw [addEdges_edges]
        change (s.values x).edges + _ + (k + 1) = (degree (adjOf mtx) x : ℤ)
        rw [hmtx, if_neg (Ne.symm hyx), degree_link_left hadj, Nat.cast_add, Nat.cast_one]
        change (s.values x).edges + k = (degree (adjOf s.mtx) x : ℤ) at hx
        omega
  · rw [if_neg hguard]
    exact ⟨(s, k), rfl, hbut, hx⟩

theorem addRet_counted {d : Definition n} {s : State n} (x : Fin n) (h : CountedAll cls s) :
    ∃ s', addRet d s x = .ok s' ∧ CountedAll cls s' := by
  have hstart : Lacking cls x (s, 0) :=
    ⟨⟨h.toShape, fun y _ => h.counts y⟩, (add_zero _).trans (h.counts x)⟩
  have hstep : ∀ (p : State n × ℤ) (y : Fin n), Lacking cls x p →
      y ∈ (List.finRange n).filter d.out →
        ∃ p', addEdge x d.moved p y = .ok p' ∧ Lacking cls x p' :=
    fun _ y hp _ => addEdge_counted hn y hp
  obtain ⟨⟨s', k⟩, hrun, hbut, hx⟩ := ExceptFold.foldlM_ends hstep hstart
  refine ⟨s'.addEdges x k, ?_, ⟨hbut.sized, hbut.simple, ?_⟩, ?_⟩
  · unfold addRet
    rw [hrun]
    rfl
  · intro y
    rw [addEdges_cls]
    exact hbut.cls_eq y
  · intro y
    rw [addEdges_edges]
    change _ = (degree (State.adj s') y : ℤ)
    by_cases hy : y = x
    · rw [hy, if_pos rfl]
      exact hx
    · rw [if_neg hy, add_zero]
      exact hbut.counts y hy

theorem addDefinition_counted {s : State n} (d : Definition n) (h : CountedAll cls s) :
    ∃ s', addDefinition s d = .ok s' ∧ CountedAll cls s' :=
  ExceptFold.foldlM_ends (fun _ x hs _ => addRet_counted hn x hs) h

theorem buildMatrix_counted (f : Fresh n) (ds : List (Definition n)) :
    ∃ s, buildMatrix f ds = .ok s ∧ CountedAll (fun x => (f.values x).cls) s := by
  have hstart : CountedAll (fun x => (f.values x).cls) ⟨emptyMatrix n, f.values⟩ := by
    refine ⟨⟨rfl, Simple.empty, fun y => rfl⟩, ?_⟩
    intro y
    change (f.values y).edges = (degree (fun _ _ => false) y : ℤ)
    rw [f.edges_zero, degree_empty]
    rfl
  exact ExceptFold.foldlM_ends (fun _ d hs _ => addDefinition_counted hn d hs) hstart

end Construction

/-! ## The merges -/

section Merges
variable (hn : n ≤ 46341) {cls : Fin n → ValueClass} {killed saved : Fin n}
include hn

theorem mergeNeighbour_counted (hne : killed ≠ saved) {s : State n} (i : Fin n)
    (h : CountedBut cls killed s) (hapart : State.adj s killed saved = false) :
    ∃ s', mergeNeighbour killed saved s i = .ok s' ∧ CountedBut cls killed s' ∧
      (∀ j, State.adj s killed j = false → State.adj s' killed j = false) ∧
      (∀ y, y ≠ killed → y ≠ saved → degree (State.adj s') y ≤ degree (State.adj s) y) ∧
      State.adj s' killed i = false := by
  unfold mergeNeighbour
  rw [get_eq hn h.sized]
  cases hki : adjOf s.mtx killed i with
  | false => exact ⟨s, rfl, h, fun j hj => hj, fun y _ _ => le_rfl, hki⟩
  | true =>
    have hik : i ≠ killed := Ne.symm (h.simple.ne_of_adj hki)
    have his : i ≠ saved := by
      rintro rfl
      exact Bool.false_ne_true (hapart.symm.trans hki)
    have hik' : adjOf s.mtx i killed = true := (h.simple.symm i killed).trans hki
    obtain ⟨mtx₁, hclr, hsized₁, hmtx₁⟩ := assign_eq hn h.sized false killed i
    have hsimple₁ : Simple (adjOf mtx₁ : Adjacency (Fin n)) := by
      rw [hmtx₁]
      exact h.simple.setPair (Ne.symm hik)
    have hrow₁ : ∀ j, adjOf mtx₁ killed j = if j = i then false else adjOf s.mtx killed j := by
      intro j
      rw [hmtx₁, setPair_left]
    have hkeep : ∀ j, State.adj s killed j = false → adjOf mtx₁ killed j = false := by
      intro j hj
      rw [hrow₁]
      split
      · rfl
      · exact hj
    have hgone : adjOf mtx₁ killed i = false := by
      rw [hrow₁, if_pos rfl]
    have hdegree_i : degree (adjOf mtx₁) i + 1 = degree (State.adj s) i := by
      rw [hmtx₁]
      exact degree_unlink_right hik'
    have hdegree : ∀ y, y ≠ killed → y ≠ i → degree (adjOf mtx₁) y = degree (State.adj s) y := by
      intro y hyk hyi
      rw [hmtx₁]
      exact degree_setPair_other hyk hyi
    have hless : ∀ y, y ≠ killed → degree (adjOf mtx₁) y ≤ degree (State.adj s) y := by
      intro y hyk
      by_cases hyi : y = i
      · rw [hyi]
        omega
      · exact (hdegree y hyk hyi).le
    change ∃ s', (do
      let mtx ← bitassign false s.mtx (tribitmtxPos killed i)
      if ← tribitmtxGet mtx saved i then
        return State.addEdges { s with mtx := mtx } i (-1)
      else
        let mtx ← bitassign true mtx (tribitmtxPos saved i)
        return State.addEdges { s with mtx := mtx } saved 1) = _ ∧ _
    rw [hclr]
    change ∃ s', (do
      if ← tribitmtxGet mtx₁ saved i then
        return State.addEdges { s with mtx := mtx₁ } i (-1)
      else
        let mtx ← bitassign true mtx₁ (tribitmtxPos saved i)
        return State.addEdges { s with mtx := mtx } saved 1) = _ ∧ _
    rw [get_eq hn hsized₁]
    cases hsi : adjOf mtx₁ saved i with
    | true =>
      refine ⟨State.addEdges { s with mtx := mtx₁ } i (-1), rfl,
        ⟨⟨hsized₁, hsimple₁, fun y => (addEdges_cls _ i (-1) y).trans (h.cls_eq y)⟩, ?_⟩,
        hkeep, fun y hyk _ => hless y hyk, hgone⟩
      intro y hy
      rw [addEdges_edges]
      change (s.values y).edges + _ = (degree (adjOf mtx₁) y : ℤ)
      rw [h.counts y hy]
      by_cases hyi : y = i
      · rw [hyi, if_pos rfl]
        omega
      · rw [if_neg hyi, hdegree y hy hyi, add_zero]
    | false =>
      obtain ⟨mtx₂, hset, hsized₂, hmtx₂⟩ := assign_eq hn hsized₁ true saved i
      have his' : adjOf mtx₁ i saved = false := (hsimple₁.symm i saved).trans hsi
      have hrow₂ : ∀ j, adjOf mtx₂ killed j = adjOf mtx₁ killed j := by
        intro j
        rw [hmtx₂, setPair_other hne (Ne.symm hik)]
      have hdegree₂ : ∀ y, y ≠ killed → y ≠ saved →
          degree (adjOf mtx₂) y = degree (State.adj s) y := by
        intro y hyk hys
        rw [hmtx₂]
        by_cases hyi : y = i
        · rw [hyi, degree_link_right his', hdegree_i]
        · rw [degree_setPair_other hys hyi, hdegree y hyk hyi]
      refine ⟨State.addEdges { s with mtx := mtx₂ } saved 1, ?_,
        ⟨⟨hsized₂, ?_, fun y => (addEdges_cls _ saved 1 y).trans (h.cls_eq y)⟩, ?_⟩,
        fun j hj => (hrow₂ j).trans (hkeep j hj), fun y hyk hys => (hdegree₂ y hyk hys).le,
        (hrow₂ i).trans hgone⟩
      · change (do
          let mtx ← bitassign true mtx₁ (tribitmtxPos saved i)
          return State.addEdges { s with mtx := mtx } saved 1) = _
        rw [hset]
        rfl
      · change Simple (adjOf mtx₂)
        rw [hmtx₂]
        exact hsimple₁.setPair (Ne.symm his)
      · intro y hy
        rw [addEdges_edges]
        change (s.values y).edges + _ = (degree (adjOf mtx₂) y : ℤ)
        rw [h.counts y hy]
        by_cases hys : y = saved
        · rw [hys, if_pos rfl, hmtx₂, degree_link_left hsi,
            hdegree saved (Ne.symm hne) (Ne.symm his), Nat.cast_add, Nat.cast_one]
        · rw [if_neg hys, add_zero, hdegree₂ y hy hys]

theorem mergeNeighbours_counted (hne : killed ≠ saved) (l : List (Fin n)) {s : State n}
    (h : CountedBut cls killed s) (hapart : State.adj s killed saved = false) :
    ∃ s', l.foldlM (mergeNeighbour killed saved) s = .ok s' ∧ CountedBut cls killed s' ∧
      (∀ j, State.adj s killed j = false → State.adj s' killed j = false) ∧
      (∀ y, y ≠ killed → y ≠ saved → degree (State.adj s') y ≤ degree (State.adj s) y) ∧
      ∀ i ∈ l, State.adj s' killed i = false := by
  induction l generalizing s with
  | nil => exact ⟨s, rfl, h, fun j hj => hj, fun y _ _ => le_rfl, fun i hi => nomatch hi⟩
  | cons i l ih =>
    obtain ⟨s₁, hstep, h₁, hkeep₁, hless₁, hgone⟩ := mergeNeighbour_counted hn hne i h hapart
    obtain ⟨s', hrest, h', hkeep, hless, hall⟩ := ih h₁ (hkeep₁ saved hapart)
    refine ⟨s', ?_, h', fun j hj => hkeep j (hkeep₁ j hj),
      fun y hyk hys => (hless y hyk hys).trans (hless₁ y hyk hys), fun j hj => ?_⟩
    · rw [ExceptFold.foldlM_cons_ok hstep]
      exact hrest
    · cases List.mem_cons.mp hj with
      | inl heq =>
        rw [heq]
        exact hkeep i hgone
      | inr hmem => exact hall j hmem

end Merges

/-- All counts are degrees, and what is no longer a temporary has no neighbours. -/
structure Merged (f : Fresh n) (s : State n) : Prop where
  sized : Sized n s.mtx
  simple : Simple (State.adj s)
  counts : ∀ y, (s.values y).edges = degree (State.adj s) y
  killed : ∀ x, (f.values x).cls = .temporary → (s.values x).cls ≠ .temporary →
    ∀ y, State.adj s x y = false

section Coalescing
variable (hn : n ≤ 46341) {f : Fresh n}

theorem CountedAll.merged {s : State n} (h : CountedAll (fun x => (f.values x).cls) s) :
    Merged f s where
  sized := h.sized
  simple := h.simple
  counts := h.counts
  killed := fun x htemp hnot => absurd ((h.cls_eq x).trans htemp) hnot

include hn

theorem merge_merged {s : State n} (h : Merged f s) {killed saved : Fin n} (hne : killed ≠ saved)
    (hsaved : (s.values saved).cls = .temporary) (hapart : State.adj s killed saved = false) :
    ∃ s', merge s killed saved = .ok s' ∧ Merged f s' := by
  have hbut : CountedBut (fun x => (s.values x).cls) killed s :=
    ⟨⟨h.sized, h.simple, fun _ => rfl⟩, fun y _ => h.counts y⟩
  obtain ⟨s', hrun, hbut', -, hless, hall⟩ :=
    mergeNeighbours_counted hn hne (List.finRange n) hbut hapart
  have hnone : ∀ y, State.adj s' killed y = false := fun y => hall y (List.mem_finRange y)
  refine ⟨s'.kill killed, ?_, hbut'.sized, hbut'.simple, ?_, ?_⟩
  · unfold merge
    rw [hrun]
    rfl
  · intro y
    by_cases hy : y = killed
    · subst hy
      have hzero : degree (State.adj s') y = 0 := degree_of_none hnone
      change ((Function.update s'.values y _ y).edges) = (degree (State.adj s') y : ℤ)
      rw [Function.update_self, hzero]
      rfl
    · change ((Function.update s'.values killed _ y).edges) = (degree (State.adj s') y : ℤ)
      rw [Function.update_of_ne hy]
      exact hbut'.counts y hy
  · intro x htemp hnot
    change ∀ y, State.adj s' x y = false
    by_cases hx : x = killed
    · rw [hx]
      exact hnone
    · change (Function.update s'.values killed _ x).cls ≠ .temporary at hnot
      rw [Function.update_of_ne hx, hbut'.cls_eq x] at hnot
      have hxs : x ≠ saved := by
        rintro rfl
        exact hnot hsaved
      have hbefore : degree (State.adj s) x = 0 := degree_of_none (h.killed x htemp hnot)
      apply degree_eq_zero
      have hle := hless x hx hxs
      omega

theorem coalesceMove_merged {s : State n} (h : Merged f s) (m : Move n) :
    (∃ s', coalesceMove s m = .ok s' ∧ Merged f s') ∨
      coalesceMove s m = .error (.fault .abort) := by
  obtain ⟨src, dst⟩ := m
  unfold coalesceMove
  cases src with
  | none => exact .inl ⟨s, rfl, h⟩
  | some src =>
    by_cases hsrc : (s.values src).cls = .temporary
    · simp only [ne_eq, hsrc, not_true_eq_false, if_false]
      cases dst with
      | none => exact .inl ⟨s, rfl, h⟩
      | some dst =>
        by_cases hsame : dst = src
        · exact .inl ⟨s, if_pos hsame, h⟩
        by_cases hdst : (s.values dst).cls = .temporary
        · simp only [hsame, hdst, not_true_eq_false, if_false]
          by_cases hprecolored : (s.values dst).precolored ≠ -1 ∧ (s.values src).precolored ≠ -1
          · exact .inl ⟨s, if_pos hprecolored, h⟩
          · rw [if_neg hprecolored, get_eq hn h.sized]
            cases hadj : adjOf s.mtx dst src with
            | true => exact .inl ⟨s, rfl, h⟩
            | false =>
              have hadj' : State.adj s src dst = false := (h.simple.symm src dst).trans hadj
              left
              change ∃ s', (if (s.values src).precolored ≠ -1 then merge s dst src
                else merge s src dst) = .ok s' ∧ _
              split
              · exact merge_merged hn h hsame hsrc hadj
              · exact merge_merged hn h (Ne.symm hsame) hdst hadj'
        · right
          simp [hsame, hdst]
    · exact .inl ⟨s, if_pos hsrc, h⟩

theorem coalesce_merged {s : State n} (h : Merged f s) (ms : List (Move n)) :
    (∃ s', coalesce s ms = .ok s' ∧ Merged f s') ∨ coalesce s ms = .error (.fault .abort) := by
  unfold coalesce
  induction ms generalizing s with
  | nil => exact .inl ⟨s, rfl, h⟩
  | cons m ms ih =>
    rw [List.foldlM_cons]
    cases coalesceMove_merged hn h m with
    | inl hstep =>
      obtain ⟨s₁, hstep, h₁⟩ := hstep
      rw [hstep]
      exact ih h₁
    | inr hstop =>
      rw [hstop]
      exact .inr rfl

end Coalescing

/-! ## The colours -/

section Colours

theorem foldl_max_le (l : List (ValueInfo n)) (d : ℤ) :
    d ≤ l.foldl (fun d v => max d v.score) d ∧
      ∀ v ∈ l, v.score ≤ l.foldl (fun d v => max d v.score) d := by
  induction l generalizing d with
  | nil => exact ⟨le_rfl, fun v hv => nomatch hv⟩
  | cons u l ih =>
    obtain ⟨hd, hall⟩ := ih (max d u.score)
    refine ⟨(le_max_left _ _).trans hd, fun v hv => ?_⟩
    cases List.mem_cons.mp hv with
    | inl heq =>
      rw [heq]
      exact (le_max_right _ _).trans hd
    | inr hmem => exact hall v hmem

theorem score_le_graphDegree {vi : List (ValueInfo n)} {v : ValueInfo n} (hv : v ∈ vi) :
    v.score ≤ graphDegree vi := (foldl_max_le vi 0).2 v hv

theorem graphDegree_lt (vi : List (ValueInfo n)) : graphDegree vi < 32 * degreeWords vi := by
  have hnonneg : 0 ≤ graphDegree vi := (foldl_max_le vi 0).1
  unfold degreeWords
  rw [Int.tdiv_eq_ediv_of_nonneg (by omega)]
  omega

variable (hn : n ≤ 46341) {mtx : Bits} (hsize : Sized n mtx)
include hn hsize

theorem takeColours (v : Fin n) {colors : ℕ → ℤ} {k : ℕ} (hcolors : ∀ x, colors x < k)
    (l : List ℕ) (hl : ∀ x ∈ l, x < n) (tab : Bits) (htab : tab.size = k) :
    ∃ tab', (l.map fun x : ℕ => (x, tribitmtxPos v x)).foldlM (takeColour mtx colors) tab
        = .ok tab' ∧ tab'.size = k ∧ ∀ c : ℕ, tab'.bit c = true ↔ tab.bit c = true ∧
          ∀ x : Fin n, (x : ℕ) ∈ l → adjOf mtx v x = true → colors x ≠ c := by
  induction l generalizing tab with
  | nil => exact ⟨tab, rfl, htab, fun c => ⟨fun h => ⟨h, fun x hx => nomatch hx⟩, And.left⟩⟩
  | cons x l ih =>
    let x' : Fin n := ⟨x, hl x List.mem_cons_self⟩
    have hbit : bitchk mtx (tribitmtxPos v x) = .ok (adjOf mtx v x') := get_eq hn hsize v x'
    have hrest : ∀ y ∈ l, y < n := fun y hy => hl y (List.mem_cons_of_mem x hy)
    have hcons : ∀ {P : Fin n → Prop}, (∀ y : Fin n, (y : ℕ) ∈ x :: l → P y) ↔
        P x' ∧ ∀ y : Fin n, (y : ℕ) ∈ l → P y := by
      intro P
      constructor
      · exact fun h => ⟨h x' List.mem_cons_self, fun y hy => h y (List.mem_cons_of_mem x hy)⟩
      · rintro ⟨hx, hl⟩ y hy
        cases List.mem_cons.mp hy with
        | inl heq =>
          have hyx : y = x' := Fin.ext heq
          rw [hyx]
          exact hx
        | inr hmem => exact hl y hmem
    -- one neighbour takes its own colour from the table
    have hstep : ∃ tab₁, takeColour mtx colors tab (x, tribitmtxPos v x) = .ok tab₁ ∧
        tab₁.size = k ∧ ∀ c : ℕ, tab₁.bit c = true ↔
          tab.bit c = true ∧ (adjOf mtx v x' = true → colors x ≠ c) := by
      unfold takeColour
      rw [hbit]
      cases hadj : adjOf mtx v x' with
      | false => exact ⟨tab, rfl, htab, fun c => ⟨fun h => ⟨h, nofun⟩, And.left⟩⟩
      | true =>
        change ∃ tab₁, (if 0 ≤ colors x then bitclr tab (colors x) else .ok tab) = .ok tab₁ ∧ _
        by_cases hpos : 0 ≤ colors x
        · have hlt := hcolors x
          have hinside : 0 ≤ colors x ∧ colors x < tab.size := by omega
          rw [if_pos hpos]
          refine ⟨_, if_pos hinside, htab, fun c => ?_⟩
          change Function.update tab.bit (colors x) false c = true ↔ _
          by_cases hc : colors x = c
          · simp [hc]
          · rw [Function.update_of_ne (Ne.symm hc)]
            simp [hc]
        · rw [if_neg hpos]
          refine ⟨tab, rfl, htab, fun c => ⟨fun h => ⟨h, fun _ heq => ?_⟩, And.left⟩⟩
          omega
    obtain ⟨tab₁, htake, hsize₁, hbits₁⟩ := hstep
    obtain ⟨tab', hfold, hsize', hbits'⟩ := ih hrest tab₁ hsize₁
    refine ⟨tab', ?_, hsize', fun c => ?_⟩
    · rw [List.map_cons, ExceptFold.foldlM_cons_ok htake]
      exact hfold
    · rw [hbits', hbits₁, hcons, and_assoc]

theorem colourVertex_coloured {words : ℕ} {colors : ℕ → ℤ} (hcolors : ∀ x, colors x < 32 * words)
    (v : ValueInfo n) (hv : degree (adjOf mtx) v.value < 32 * words) :
    ∃ c : ℕ, c < 32 * words ∧
      colourVertex mtx words colors v = .ok (Function.update colors v.value c) := by
  have hscan := regAllocScan_eq hn v.value.isLt
  obtain ⟨tab, hfold, htab, hbits⟩ := takeColours hn hsize v.value
    (k := 32 * words) (by exact_mod_cast hcolors) (List.range n) (fun x hx => List.mem_range.mp hx)
    ⟨32 * words, fun _ => true⟩ rfl
  -- some colour is left
  have hcard : degree (adjOf mtx) v.value < (Finset.range (32 * words)).card := by
    rw [Finset.card_range]
    exact hv
  obtain ⟨c, hc, hunused⟩ :=
    exists_unused (fun y : Fin n => (colors y).toNat) (Finset.range (32 * words)) hcard
  have hfree : tab.bit c = true := by
    rw [hbits]
    refine ⟨rfl, fun y _ hy heq => hunused y hy ?_⟩
    rw [heq, Int.toNat_natCast]
  have hsome : (ffs tab).isSome := by
    unfold ffs
    rw [List.find?_isSome]
    exact ⟨c, List.mem_range.mpr (htab ▸ Finset.mem_range.mp hc), hfree⟩
  obtain ⟨c', hfound⟩ := Option.isSome_iff_exists.mp hsome
  refine ⟨c', ?_, ?_⟩
  · have hmem := List.mem_of_find?_eq_some hfound
    rw [htab] at hmem
    exact List.mem_range.mp hmem
  · unfold colourVertex
    rw [hscan, hfold]
    dsimp only [bind, Except.bind]
    rw [hfound]
    rfl

theorem colourVertices_coloured {words : ℕ} (vi : List (ValueInfo n))
    (hvi : ∀ v ∈ vi, degree (adjOf mtx) v.value < 32 * words) {colors : ℕ → ℤ}
    (hcolors : ∀ x, colors x < 32 * words) :
    ∃ colors', vi.foldlM (colourVertex mtx words) colors = .ok colors' ∧
      (∀ x, 0 ≤ colors x → 0 ≤ colors' x) ∧ ∀ v ∈ vi, 0 ≤ colors' v.value := by
  induction vi generalizing colors with
  | nil => exact ⟨colors, rfl, fun x hx => hx, fun v hv => nomatch hv⟩
  | cons v vi ih =>
    obtain ⟨c, hc, hstep⟩ :=
      colourVertex_coloured hn hsize hcolors v (hvi v List.mem_cons_self)
    have hcolors₁ : ∀ x, Function.update colors v.value (c : ℤ) x < 32 * words := by
      intro x
      by_cases hx : x = v.value
      · rw [hx, Function.update_self]
        exact_mod_cast hc
      · rw [Function.update_of_ne hx]
        exact hcolors x
    obtain ⟨colors', hrest, hkeep, hall⟩ :=
      ih (fun u hu => hvi u (List.mem_cons_of_mem v hu)) hcolors₁
    have hself : 0 ≤ Function.update colors v.value (c : ℤ) v.value := by
      rw [Function.update_self]
      exact Int.natCast_nonneg c
    refine ⟨colors', ?_, fun x hx => hkeep x ?_, fun u hu => ?_⟩
    · rw [ExceptFold.foldlM_cons_ok hstep]
      exact hrest
    · by_cases hxv : x = v.value
      · rw [hxv]
        exact hself
      · rw [Function.update_of_ne hxv]
        exact hx
    · cases List.mem_cons.mp hu with
      | inl heq =>
        rw [heq]
        exact hkeep v.value hself
      | inr hmem => exact hall u hmem

end Colours

theorem valueInfo_ok {iu : IrUnit} {jit : Fin n → Bool} {s : State n} {x : Fin n} {v : ValueInfo n}
    (h : valueInfo iu jit s x = .ok v) : v.value = x ∧ v.score = (s.values x).edges := by
  unfold valueInfo at h
  split at h
  · cases h
  · split at h
    · cases h
      exact ⟨rfl, rfl⟩
    · split at h
      · cases h
        exact ⟨rfl, rfl⟩
      · cases h

theorem Merged.coloured (hn : n ≤ 46341) {f : Fresh n} {s : State n} (h : Merged f s) :
    Coloured s := by
  intro iu jit vi hvi order hperm
  have hinfos := RelatedLists.forall₂_mapM hvi
  have hdegree : ∀ v ∈ order, degree (adjOf s.mtx) v.value < 32 * degreeWords order := by
    intro v hv
    obtain ⟨x, -, hx⟩ := RelatedLists.forall₂_mem hinfos (hperm.mem_iff.mp hv)
    obtain ⟨hvalue, hscore⟩ := valueInfo_ok hx
    have hcount : (s.values x).edges = degree (adjOf s.mtx) x := h.counts x
    have hle := score_le_graphDegree hv
    have hlt := graphDegree_lt order
    rw [hvalue]
    omega
  have hstart : ∀ x : ℕ, (fun _ => -1 : ℕ → ℤ) x < 32 * degreeWords order := by
    intro x
    change (-1 : ℤ) < 32 * degreeWords order
    omega
  obtain ⟨colors, hrun, -, hall⟩ := colourVertices_coloured hn h.sized order hdegree hstart
  refine ⟨colors, hrun, fun x hx => ?_⟩
  have hmem : x ∈ (List.finRange n).filter fun x => IsVertex s x := by
    rw [List.mem_filter]
    exact ⟨List.mem_finRange x, decide_eq_true hx⟩
  obtain ⟨v, hv, hinfo⟩ := RelatedLists.mem_forall₂ hinfos hmem
  rw [← (valueInfo_ok hinfo).1]
  exact hall v (hperm.mem_iff.mpr hv)

theorem Merged.counted (hn : n ≤ 46341) {f : Fresh n} {s : State n} (h : Merged f s) :
    Counted f s where
  enough x _ := by
    rw [interferes_eq hn]
    exact (h.counts x).ge
  killed x htemp hnot y := by
    rw [pos_eq hn]
    exact h.killed x htemp hnot y

theorem coloursSuffice_of_le (hn : n ≤ 46341) : ColoursSuffice n := by
  intro f ds
  obtain ⟨s, hbuild, hall⟩ := buildMatrix_counted hn f ds
  have hmerged : Merged f s := hall.merged
  refine ⟨s, hbuild, hmerged.counted hn, fun ms => ?_⟩
  cases coalesce_merged hn hmerged ms with
  | inl hrun =>
    obtain ⟨s', hrun, h'⟩ := hrun
    rw [hrun]
    exact ⟨h'.counted hn, h'.coloured hn⟩
  | inr hstop =>
    rw [hstop]

/-! ## Too many values -/

def blank (n : ℕ) : Fresh n := ⟨fun _ => ⟨.temporary, 0, -1, 0⟩, fun _ => rfl⟩

/-- A definition of `x` behind which `y` is live. -/
def clash (x y : Fin n) : Definition n := ⟨[x], -1, fun z => z = y⟩

theorem filter_eq_singleton (y : Fin n) :
    ((List.finRange n).filter fun z => decide (z = y)) = [y] := by
  have hcount : (List.finRange n).count y = 1 :=
    List.count_eq_one_of_mem (List.nodup_finRange n) (List.mem_finRange y)
  have hfilter := List.filter_beq (l := List.finRange n) y
  rw [hcount] at hfilter
  exact hfilter

theorem clash_outside {x y : Fin n} (hx : (x : ℕ) = 46341) (hy : (y : ℕ) = 0) :
    buildMatrix (blank n) [clash x y] = .error .outside := by
  have hpos : tribitmtxPos x y < 0 := by
    rw [hx, hy]
    decide
  have hget : tribitmtxGet (emptyMatrix n) x y = .error .outside := by
    unfold tribitmtxGet bitchk
    exact if_neg (fun h => absurd h.1 (not_le.mpr hpos))
  have hguard : y ≠ x ∧ (y : ℤ) ≠ -1 := by
    rw [ne_eq, Fin.ext_iff]
    omega
  have hedge : addEdge x (-1) (⟨emptyMatrix n, (blank n).values⟩, 0) y = .error .outside := by
    unfold addEdge
    rw [if_pos hguard, hget]
    rfl
  have hret : addRet (clash x y) ⟨emptyMatrix n, (blank n).values⟩ x = .error .outside := by
    have hlive : (List.finRange n).filter (clash x y).out = [y] := filter_eq_singleton y
    unfold addRet
    rw [hlive, List.foldlM_cons,
      show addEdge x (clash x y).moved (⟨emptyMatrix n, (blank n).values⟩, 0) y = _ from hedge]
    rfl
  change (do
    let s ← (do
      let s ← addRet (clash x y) ⟨emptyMatrix n, (blank n).values⟩ x
      [].foldlM (addRet (clash x y)) s)
    [].foldlM addDefinition s) = _
  rw [hret]
  rfl

theorem not_coloursSuffice {n : ℕ} (hn : 46341 < n) : ¬ ColoursSuffice n := by
  intro h
  obtain ⟨s, hbuild, -⟩ := h (blank n) [clash ⟨46341, hn⟩ ⟨0, by omega⟩]
  rw [clash_outside rfl rfl] at hbuild
  cases hbuild

/-- A function of 46342 temporaries. -/
theorem many_temporaries_uncounted : ¬ ColoursSuffice 46342 := not_coloursSuffice (by omega)

/-- The counts suffice and every vertex gets a colour, in every run, up to 46341 values and not
beyond. -/
theorem coloursSuffice_iff (n : ℕ) : ColoursSuffice n ↔ n ≤ 46341 := by
  constructor
  · intro h
    by_contra hgt
    exact not_coloursSuffice (by omega) h
  · exact coloursSuffice_of_le

end Vmir.ColourSupply
