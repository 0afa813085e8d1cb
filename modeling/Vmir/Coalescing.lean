import Vmir.ColourSupply

set_option autoImplicit false

/-!
# What the merges keep apart

Two values between which the matrix has an edge are never merged, and what they are merged into has
the edge again. `iv_instructions` leads to the instructions of the killed value, which are renamed;
what each value of the function is called after the merges so far is kept as a table.
-/
namespace Vmir.Coalescing
open Ir IrTypes TriangularMatrix Colouring NeighbourCounts ColourSupply

variable {n : ℕ} {ι : Type}

def Move.rename (m : Move n) (names : Fin n → Fin n) : Move n :=
  ⟨m.src.map names, m.dst.map names⟩

/-- `coalesceMove` up to the choice of `killed` and `saved`. -/
def mergeOf (s : State n) (m : Move n) : Except Stop (Option (Fin n × Fin n)) :=
  match m.src with
  | none => .ok none
  | some src =>
    if (s.values src).cls ≠ .temporary then .ok none
    else match m.dst with
    | none => .ok none
    | some dst =>
      if dst = src then .ok none
      else if (s.values dst).cls ≠ .temporary then .error (.fault .abort)
      else if (s.values dst).precolored ≠ -1 ∧ (s.values src).precolored ≠ -1 then .ok none
      else do
        if ← tribitmtxGet s.mtx dst src then return none
        else if (s.values src).precolored ≠ -1 then return some (dst, src)
        else return some (src, dst)

/-- A move from a value to itself, as merges for other moves leave it. -/
def Redundant (s : State n) (m : Move n) : Prop :=
  m.src = m.dst ∧ (m.src.any fun x => (s.values x).cls = .temporary) = true

instance (s : State n) (m : Move n) : Decidable (Redundant s m) :=
  inferInstanceAs (Decidable (_ ∧ _))

/-- The matrix and the values, what the values are called, and the moves that are destroyed. -/
structure Merges (ι : Type) (n : ℕ) where
  state : State n
  names : Fin n → Fin n
  destroyed : List ι

/-- One move of the function, which is the instruction `m.1`. -/
def coalesceTurn (p : Merges ι n) (m : ι × Move n) : Except Stop (Merges ι n) := do
  match ← mergeOf p.state (Move.rename m.2 p.names) with
  | none =>
    if Redundant p.state (Move.rename m.2 p.names) then
      return { p with destroyed := m.1 :: p.destroyed }
    else return p
  | some (killed, saved) =>
    let s ← merge p.state killed saved
    return ⟨s, fun v => if p.names v = killed then saved else p.names v, m.1 :: p.destroyed⟩

def coalesceFunction (s : State n) (ms : List (ι × Move n)) : Except Stop (Merges ι n) :=
  ms.foldlM coalesceTurn ⟨s, id, []⟩

theorem coalesceMove_eq (s : State n) (m : Move n) :
    coalesceMove s m = mergeOf s m >>= fun
      | none => .ok s
      | some (killed, saved) => merge s killed saved := by
  obtain ⟨_ | src, dst⟩ := m
  · rfl
  · unfold coalesceMove mergeOf
    dsimp only
    split
    · rfl
    · cases dst with
      | none => rfl
      | some dst =>
        dsimp only
        split
        · rfl
        · split
          · rfl
          · split
            · rfl
            · cases tribitmtxGet s.mtx dst src with
              | error e => rfl
              | ok adjacent =>
                cases adjacent with
                | true => rfl
                | false =>
                  dsimp only [bind, Except.bind]
                  simp only [Bool.false_eq_true, if_false]
                  split <;> rfl

/-! ## The edges of the matrix -/

/-- The class, the type and the precolour of every value are the same, and no edge is lost. -/
structure Grows (s s' : State n) : Prop where
  sized : Sized n s'.mtx
  values : ∀ v, (s'.values v).cls = (s.values v).cls ∧ (s'.values v).type = (s.values v).type
    ∧ (s'.values v).precolored = (s.values v).precolored
  adj : ∀ x y, State.adj s x y = true → State.adj s' x y = true

theorem Grows.refl {s : State n} (h : Sized n s.mtx) : Grows s s :=
  ⟨h, fun _ => ⟨rfl, rfl, rfl⟩, fun _ _ hxy => hxy⟩

theorem Grows.trans {s s' s'' : State n} (h : Grows s s') (h' : Grows s' s'') : Grows s s'' where
  sized := h'.sized
  values v := by
    obtain ⟨hcls, htype, hpre⟩ := h.values v
    obtain ⟨hcls', htype', hpre'⟩ := h'.values v
    exact ⟨hcls'.trans hcls, htype'.trans htype, hpre'.trans hpre⟩
  adj x y hxy := h'.adj x y (h.adj x y hxy)

theorem addEdges_values (s : State n) (x : Fin n) (k : ℤ) (v : Fin n) :
    ((s.addEdges x k).values v).cls = (s.values v).cls
      ∧ ((s.addEdges x k).values v).type = (s.values v).type
      ∧ ((s.addEdges x k).values v).precolored = (s.values v).precolored := by
  unfold State.addEdges
  by_cases hv : v = x
  · subst hv
    simp
  · simp [hv]

theorem setPair_true (adj : Adjacency (Fin n)) (a b x y : Fin n) (h : adj x y = true) :
    setPair adj a b true x y = true := by
  unfold setPair
  split
  · rfl
  · exact h

section Construction
variable (hn : n ≤ 46341)
include hn

theorem addEdge_grows {x y : Fin n} {moved : ℤ} {p p' : State n × ℤ} (hsized : Sized n p.1.mtx)
    (h : addEdge x moved p y = .ok p') :
    Grows p.1 p'.1 ∧ (y ≠ x → (y : ℤ) ≠ moved → State.adj p'.1 x y = true) := by
  unfold addEdge at h
  by_cases hguard : y ≠ x ∧ (y : ℤ) ≠ moved
  · rw [if_pos hguard, get_eq hn hsized] at h
    cases hadj : adjOf p.1.mtx x y with
    | true =>
      rw [hadj] at h
      cases h
      exact ⟨Grows.refl hsized, fun _ _ => hadj⟩
    | false =>
      obtain ⟨mtx, hset, hsized', hmtx⟩ := assign_eq hn hsized true x y
      rw [hadj] at h
      change (bitassign true p.1.mtx (tribitmtxPos x y) >>= _) = _ at h
      rw [hset] at h
      cases h
      refine ⟨⟨hsized', fun v => addEdges_values _ y 1 v, fun a b hab => ?_⟩, fun _ _ => ?_⟩
      · change adjOf mtx a b = true
        rw [hmtx]
        exact setPair_true _ _ _ _ _ hab
      · change adjOf mtx x y = true
        rw [hmtx, setPair_left, if_pos rfl]
  · rw [if_neg hguard] at h
    cases h
    exact ⟨Grows.refl hsized, fun hyx hmoved => absurd ⟨hyx, hmoved⟩ hguard⟩

theorem addRet_grows {d : Definition n} {s s' : State n} {x : Fin n} (hsized : Sized n s.mtx)
    (h : addRet d s x = .ok s') :
    Grows s s' ∧ ∀ y, d.out y = true → y ≠ x → (y : ℤ) ≠ d.moved → State.adj s' x y = true := by
  unfold addRet at h
  cases hfold : ((List.finRange n).filter d.out).foldlM (addEdge x d.moved) (s, 0) with
  | error e =>
    rw [hfold] at h
    cases h
  | ok p =>
    rw [hfold] at h
    cases h
    have hall := ExceptFold.foldlM_gathers (P := fun p : State n × ℤ => Grows s p.1)
      (Q := fun y (p : State n × ℤ) => y ≠ x → (y : ℤ) ≠ d.moved → State.adj p.1 x y = true)
      (fun p y p' hp hy hstep => by
        obtain ⟨hgrows, hnew⟩ := addEdge_grows hn hp.sized hstep
        exact ⟨hp.trans hgrows, hnew, fun z hz h₁ h₂ => hgrows.adj _ _ (hz h₁ h₂)⟩)
      (Grows.refl hsized) hfold
    obtain ⟨hgrows, hnew⟩ := hall
    refine ⟨hgrows.trans ⟨hgrows.sized, addEdges_values _ x p.2, fun _ _ hab => hab⟩, ?_⟩
    intro y hy hyx hmoved
    exact hnew y (List.mem_filter.mpr ⟨List.mem_finRange y, hy⟩) hyx hmoved

theorem buildMatrix_grows {f : Fresh n} {ds : List (Definition n)} {s : State n}
    (h : buildMatrix f ds = .ok s) : Grows ⟨emptyMatrix n, f.values⟩ s
      ∧ ∀ d ∈ ds, ∀ x ∈ d.rets, ∀ y, d.out y = true → y ≠ x → (y : ℤ) ≠ d.moved →
        State.adj s x y = true := by
  have hstart : Grows (⟨emptyMatrix n, f.values⟩ : State n) ⟨emptyMatrix n, f.values⟩ :=
    Grows.refl rfl
  refine ExceptFold.foldlM_gathers (P := Grows _) (Q := fun (d : Definition n) (s : State n) =>
    ∀ x ∈ d.rets, ∀ y, d.out y = true → y ≠ x → (y : ℤ) ≠ d.moved → State.adj s x y = true)
    ?_ hstart h
  intro s d s' hs _ hstep
  obtain ⟨hgrows, hnew⟩ := ExceptFold.foldlM_gathers (P := Grows s)
    (Q := fun (x : Fin n) (s : State n) =>
      ∀ y, d.out y = true → y ≠ x → (y : ℤ) ≠ d.moved → State.adj s x y = true)
    (fun s₁ x s₂ h₁ _ hret => by
      obtain ⟨hgrows, hnew⟩ := addRet_grows hn h₁.sized hret
      exact ⟨h₁.trans hgrows, hnew, fun z hz y h₁ h₂ h₃ => hgrows.adj _ _ (hz y h₁ h₂ h₃)⟩)
    (Grows.refl hs.sized) hstep
  exact ⟨hs.trans hgrows, hnew,
    fun e he x hx y h₁ h₂ h₃ => hgrows.adj _ _ (he x hx y h₁ h₂ h₃)⟩

end Construction

/-! ## The edges of a merged value -/

section Merging
variable (hn : n ≤ 46341) {cls : Fin n → ValueClass} {killed saved : Fin n}
include hn

/-- Edges elsewhere stay, and the one between the killed value and `i` goes to the saved one. -/
theorem mergeNeighbour_adj (hne : killed ≠ saved) {s s' : State n} (i : Fin n)
    (h : CountedBut cls killed s) (hrun : mergeNeighbour killed saved s i = .ok s') :
    (∀ v, (s'.values v).cls = (s.values v).cls ∧ (s'.values v).type = (s.values v).type
      ∧ (s'.values v).precolored = (s.values v).precolored)
    ∧ (∀ x y, x ≠ killed → y ≠ killed → State.adj s x y = true → State.adj s' x y = true)
    ∧ (State.adj s killed i = true → State.adj s' saved i = true)
    ∧ ∀ j, j ≠ i → State.adj s' killed j = State.adj s killed j := by
  unfold mergeNeighbour at hrun
  rw [get_eq hn h.sized] at hrun
  cases hki : adjOf s.mtx killed i with
  | false =>
    rw [hki] at hrun
    cases hrun
    refine ⟨fun _ => ⟨rfl, rfl, rfl⟩, fun _ _ _ _ hxy => hxy, fun hadj => ?_, fun _ _ => rfl⟩
    exact absurd (hki.symm.trans hadj) Bool.false_ne_true
  | true =>
    have hik : i ≠ killed := Ne.symm (h.simple.ne_of_adj hki)
    obtain ⟨mtx₁, hclr, hsized₁, hmtx₁⟩ := assign_eq hn h.sized false killed i
    have hkeep : ∀ x y, x ≠ killed → y ≠ killed → State.adj s x y = true →
        adjOf mtx₁ x y = true := by
      intro x y hx hy hxy
      rw [hmtx₁]
      unfold setPair
      rw [if_neg]
      · exact hxy
      · rintro (⟨rfl, -⟩ | ⟨-, rfl⟩)
        · exact hx rfl
        · exact hy rfl
    have hrow : ∀ j, j ≠ i → adjOf mtx₁ killed j = State.adj s killed j := by
      intro j hj
      rw [hmtx₁, setPair_left, if_neg hj]
      rfl
    rw [hki] at hrun
    change (bitassign false s.mtx (tribitmtxPos killed i) >>= _) = _ at hrun
    rw [hclr] at hrun
    change (tribitmtxGet mtx₁ saved i >>= _) = _ at hrun
    rw [get_eq hn hsized₁] at hrun
    cases hsi : adjOf mtx₁ saved i with
    | true =>
      rw [hsi] at hrun
      cases hrun
      exact ⟨fun v => addEdges_values _ i (-1) v, hkeep, fun _ => hsi, hrow⟩
    | false =>
      obtain ⟨mtx₂, hset, -, hmtx₂⟩ := assign_eq hn hsized₁ true saved i
      rw [hsi] at hrun
      change (bitassign true mtx₁ (tribitmtxPos saved i) >>= _) = _ at hrun
      rw [hset] at hrun
      cases hrun
      refine ⟨fun v => addEdges_values _ saved 1 v, fun x y hx hy hxy => ?_, fun _ => ?_,
        fun j hj => ?_⟩
      · change adjOf mtx₂ x y = true
        rw [hmtx₂]
        exact setPair_true _ _ _ _ _ (hkeep x y hx hy hxy)
      · change adjOf mtx₂ saved i = true
        rw [hmtx₂, setPair_left, if_pos rfl]
      · change adjOf mtx₂ killed j = State.adj s killed j
        rw [hmtx₂, setPair_other hne (Ne.symm hik), hrow j hj]

theorem mergeNeighbours_adj (hne : killed ≠ saved) (l : List (Fin n)) {s s' : State n}
    (h : CountedBut cls killed s) (hapart : State.adj s killed saved = false)
    (hrun : l.foldlM (mergeNeighbour killed saved) s = .ok s') :
    (∀ v, (s'.values v).cls = (s.values v).cls ∧ (s'.values v).type = (s.values v).type
      ∧ (s'.values v).precolored = (s.values v).precolored)
    ∧ (∀ x y, x ≠ killed → y ≠ killed → State.adj s x y = true → State.adj s' x y = true)
    ∧ ∀ i ∈ l, State.adj s killed i = true → State.adj s' saved i = true := by
  induction l generalizing s with
  | nil =>
    cases hrun
    exact ⟨fun _ => ⟨rfl, rfl, rfl⟩, fun _ _ _ _ hxy => hxy,
      fun i hi => absurd hi List.not_mem_nil⟩
  | cons i l ih =>
    obtain ⟨s₁, hstep, h₁, hkeep₁, -, -⟩ := mergeNeighbour_counted hn hne i h hapart
    rw [ExceptFold.foldlM_cons_ok hstep] at hrun
    obtain ⟨hvalues₁, hother₁, hnew₁, hrow₁⟩ := mergeNeighbour_adj hn hne i h hstep
    obtain ⟨hvalues, hother, hnew⟩ := ih h₁ (hkeep₁ saved hapart) hrun
    refine ⟨fun v => ?_, fun x y hx hy hxy => hother x y hx hy (hother₁ x y hx hy hxy), ?_⟩
    · obtain ⟨hcls₁, htype₁, hpre₁⟩ := hvalues₁ v
      obtain ⟨hcls, htype, hpre⟩ := hvalues v
      exact ⟨hcls.trans hcls₁, htype.trans htype₁, hpre.trans hpre₁⟩
    · intro j hj hadj
      have hjk : j ≠ killed := Ne.symm (h.simple.ne_of_adj hadj)
      by_cases hji : j = i
      · rw [hji] at hadj hjk ⊢
        exact hother saved i (Ne.symm hne) hjk (hnew₁ hadj)
      · rcases List.mem_cons.mp hj with heq | hmem
        · exact absurd heq hji
        · exact hnew j hmem ((hrow₁ j hji).trans hadj)

end Merging

/-! ## The names of the values -/

/-- What holds of the matrix, the values and their names after some merges: `edges` are those that
the matrix had before. -/
structure Keeps (f : Fresh n) (edges : Adjacency (Fin n)) (s : State n) (names : Fin n → Fin n) :
    Prop where
  merged : Merged f s
  type : ∀ v, (s.values v).type = (f.values v).type
  precolored : ∀ v, (s.values v).precolored = (f.values v).precolored
  alive : ∀ v, (f.values v).cls = .temporary → (s.values (names v)).cls = .temporary
  own : ∀ v, (s.values v).cls = .temporary → (f.values v).cls = .temporary ∧ names v = v
  other : ∀ v, (f.values v).cls ≠ .temporary → names v = v
  adj : ∀ x y, (f.values x).cls = .temporary → (f.values y).cls = .temporary →
    edges x y = true → State.adj s (names x) (names y) = true
  argument : ∀ v, (f.values v).cls = .temporary → (f.values v).precolored ≠ -1 → names v = v

theorem mergeOf_some {s : State n} {m : Move n} {killed saved : Fin n} (hn : n ≤ 46341)
    (hsized : Sized n s.mtx) (hsimple : Simple (State.adj s))
    (h : mergeOf s m = .ok (some (killed, saved))) :
    killed ≠ saved ∧ State.adj s killed saved = false ∧ (s.values killed).cls = .temporary
      ∧ (s.values saved).cls = .temporary ∧ (s.values killed).precolored = -1
      ∧ (m.src = some killed ∧ m.dst = some saved ∨ m.src = some saved ∧ m.dst = some killed) := by
  obtain ⟨_ | src, dst⟩ := m
  · cases h
  · unfold mergeOf at h
    dsimp only at h
    by_cases hsrc : (s.values src).cls = .temporary
    · rw [if_neg (not_not.mpr hsrc)] at h
      cases dst with
      | none => cases h
      | some dst =>
        dsimp only at h
        by_cases hsame : dst = src
        · rw [if_pos hsame] at h
          cases h
        · rw [if_neg hsame] at h
          by_cases hdst : (s.values dst).cls = .temporary
          · rw [if_neg (not_not.mpr hdst)] at h
            by_cases hboth : (s.values dst).precolored ≠ -1 ∧ (s.values src).precolored ≠ -1
            · rw [if_pos hboth] at h
              cases h
            · rw [if_neg hboth, get_eq hn hsized] at h
              cases hadj : adjOf s.mtx dst src with
              | true =>
                rw [hadj] at h
                cases h
              | false =>
                rw [hadj] at h
                change (if (s.values src).precolored ≠ -1 then Except.ok (some (dst, src))
                  else Except.ok (some (src, dst))) = _ at h
                by_cases hpre : (s.values src).precolored = -1
                · rw [if_neg (not_not.mpr hpre)] at h
                  obtain ⟨rfl, rfl⟩ := Prod.mk.inj (Option.some.inj (Except.ok.inj h))
                  exact ⟨Ne.symm hsame, (hsimple.symm _ _).trans hadj, hsrc, hdst, hpre,
                    Or.inl ⟨rfl, rfl⟩⟩
                · rw [if_pos hpre] at h
                  obtain ⟨rfl, rfl⟩ := Prod.mk.inj (Option.some.inj (Except.ok.inj h))
                  have hdstpre : (s.values dst).precolored = -1 :=
                    not_not.mp fun hne => hboth ⟨hne, hpre⟩
                  exact ⟨hsame, hadj, hdst, hsrc, hdstpre, Or.inr ⟨rfl, rfl⟩⟩
          · rw [if_pos hdst] at h
            cases h
    · rw [if_pos hsrc] at h
      cases h

section Runs
variable (hn : n ≤ 46341) {f : Fresh n} {edges : Adjacency (Fin n)}
include hn

theorem merge_adj {s s' : State n} {killed saved : Fin n} (h : Merged f s) (hne : killed ≠ saved)
    (hsaved : (s.values saved).cls = .temporary) (hapart : State.adj s killed saved = false)
    (hrun : merge s killed saved = .ok s') :
    Merged f s' ∧ (s'.values killed).cls ≠ .temporary
    ∧ (∀ v, v ≠ killed → (s'.values v).cls = (s.values v).cls)
    ∧ (∀ v, (s'.values v).type = (s.values v).type
      ∧ (s'.values v).precolored = (s.values v).precolored)
    ∧ (∀ x y, x ≠ killed → y ≠ killed → State.adj s x y = true → State.adj s' x y = true)
    ∧ ∀ i, State.adj s killed i = true → State.adj s' saved i = true := by
  obtain ⟨s₂, hstep, hmerged⟩ := merge_merged hn h hne hsaved hapart
  obtain rfl : s₂ = s' := Except.ok.inj (hstep.symm.trans hrun)
  have hbut : CountedBut (fun x => (s.values x).cls) killed s :=
    ⟨⟨h.sized, h.simple, fun _ => rfl⟩, fun y _ => h.counts y⟩
  refine ⟨hmerged, ?_⟩
  unfold merge at hstep
  cases hfold : (List.finRange n).foldlM (mergeNeighbour killed saved) s with
  | error e =>
    rw [hfold] at hstep
    cases hstep
  | ok s₁ =>
    rw [hfold] at hstep
    obtain rfl : State.kill s₁ killed = s₂ := Except.ok.inj hstep
    obtain ⟨hvalues, hother, hnew⟩ :=
      mergeNeighbours_adj hn hne (List.finRange n) hbut hapart hfold
    refine ⟨?_, fun v hv => ?_, fun v => ?_, hother, fun i => hnew i (List.mem_finRange i)⟩
    · change (Function.update s₁.values killed _ killed).cls ≠ .temporary
      rw [Function.update_self]
      exact fun hcls => by cases hcls
    · change (Function.update s₁.values killed _ v).cls = _
      rw [Function.update_of_ne hv]
      exact (hvalues v).1
    · change (Function.update s₁.values killed _ v).type = _
        ∧ (Function.update s₁.values killed _ v).precolored = _
      by_cases hv : v = killed
      · subst hv
        rw [Function.update_self]
        exact (hvalues v).2
      · rw [Function.update_of_ne hv]
        exact (hvalues v).2

theorem Keeps.merge {s s' : State n} {names : Fin n → Fin n} {killed saved : Fin n}
    (h : Keeps f edges s names) (hne : killed ≠ saved)
    (hkilled : (s.values killed).cls = .temporary)
    (hsaved : (s.values saved).cls = .temporary) (hapart : State.adj s killed saved = false)
    (hpre : (s.values killed).precolored = -1) (hrun : Colouring.merge s killed saved = .ok s') :
    Keeps f edges s' (fun v => if names v = killed then saved else names v) := by
  obtain ⟨hmerged, hdead, hcls, hvalues, hother, hnew⟩ :=
    merge_adj hn h.merged hne hsaved hapart hrun
  constructor
  · exact hmerged
  · exact fun v => (hvalues v).1.trans (h.type v)
  · exact fun v => (hvalues v).2.trans (h.precolored v)
  · intro v hv
    have halive : (s.values (names v)).cls = .temporary := h.alive v hv
    by_cases hvk : names v = killed
    · simp only [hvk, if_true]
      rw [hcls saved (Ne.symm hne)]
      exact hsaved
    · simp only [hvk, if_false]
      rw [hcls _ hvk]
      exact halive
  · intro v hv
    have hvk : v ≠ killed := by
      rintro rfl
      exact hdead hv
    obtain ⟨hold, hown⟩ := h.own v ((hcls v hvk).symm.trans hv)
    refine ⟨hold, ?_⟩
    simp only [hown, hvk, if_false]
  · intro v hv
    have hown : names v = v := h.other v hv
    have hvk : v ≠ killed := by
      rintro rfl
      exact hv (h.own v hkilled).1
    simp only [hown, hvk, if_false]
  · intro x y hx hy hxy
    have hadj : State.adj s (names x) (names y) = true := h.adj x y hx hy hxy
    by_cases hxk : names x = killed
    · have hyk : names y ≠ killed := by
        intro hyk
        rw [hxk, hyk] at hadj
        exact h.merged.simple.ne_of_adj hadj rfl
      simp only [hxk, hyk, if_true, if_false]
      rw [hxk] at hadj
      exact hnew _ hadj
    · by_cases hyk : names y = killed
      · simp only [hxk, hyk, if_true, if_false]
        rw [hyk] at hadj
        exact (hmerged.simple.symm _ _).trans
          (hnew _ ((h.merged.simple.symm _ _).trans hadj))
      · simp only [hxk, hyk, if_false]
        exact hother _ _ hxk hyk hadj
  · intro v hv hvpre
    have hown : names v = v := h.argument v hv hvpre
    have hvk : v ≠ killed := by
      rintro rfl
      exact hvpre ((h.precolored v).symm.trans hpre)
    simp only [hown, hvk, if_false]

/-- A turn keeps the names, or gives one of the two values of the move the name of the other. The
values of a move that it destroys have the same name. -/
theorem Keeps.turn {p p' : Merges ι n} {m : ι × Move n} (h : Keeps f edges p.state p.names)
    (hrun : coalesceTurn p m = .ok p') :
    Keeps f edges p'.state p'.names
      ∧ (p'.names = p.names ∨ ∃ killed saved,
        p'.names = (fun v => if p.names v = killed then saved else p.names v)
        ∧ (m.2.src.map p.names = some killed ∧ m.2.dst.map p.names = some saved
          ∨ m.2.src.map p.names = some saved ∧ m.2.dst.map p.names = some killed))
      ∧ (p'.destroyed = p.destroyed ∨ p'.destroyed = m.1 :: p.destroyed
        ∧ ∃ x y, m.2.src = some x ∧ m.2.dst = some y ∧ (f.values x).cls = .temporary
          ∧ p'.names x = p'.names y) := by
  obtain ⟨s, names, destroyed⟩ := p
  have htemp : ∀ x, (s.values (names x)).cls = .temporary → (f.values x).cls = .temporary := by
    intro x hx
    by_contra hnot
    have hother : names x = x := h.other x hnot
    rw [hother] at hx
    exact hnot (h.own x hx).1
  unfold coalesceTurn at hrun
  cases hmerge : mergeOf s (Move.rename m.2 names) with
  | error e =>
    rw [hmerge] at hrun
    cases hrun
  | ok r =>
    rw [hmerge] at hrun
    cases r with
    | none =>
      change (if _ then _ else _) = _ at hrun
      by_cases hsame : Redundant s (Move.rename m.2 names)
      · rw [if_pos hsame] at hrun
        cases hrun
        refine ⟨h, Or.inl rfl, Or.inr ⟨rfl, ?_⟩⟩
        obtain ⟨hends, hany⟩ := hsame
        obtain ⟨z, hz, hcls⟩ := (Option.any_eq_true _ _).mp hany
        obtain ⟨x, hx, hzx⟩ := Option.map_eq_some_iff.mp hz
        obtain ⟨y, hy, hzy⟩ := Option.map_eq_some_iff.mp (hends.symm.trans hz)
        exact ⟨x, y, hx, hy, htemp x (hzx ▸ of_decide_eq_true hcls), hzx.trans hzy.symm⟩
      · rw [if_neg hsame] at hrun
        cases hrun
        exact ⟨h, Or.inl rfl, Or.inl rfl⟩
    | some r =>
      obtain ⟨killed, saved⟩ := r
      obtain ⟨hne, hapart, hkilled, hsaved, hpre, hends⟩ :=
        mergeOf_some hn h.merged.sized h.merged.simple hmerge
      change (Colouring.merge s killed saved >>= _) = _ at hrun
      cases hstep : Colouring.merge s killed saved with
      | error e =>
        rw [hstep] at hrun
        cases hrun
      | ok s' =>
        rw [hstep] at hrun
        cases hrun
        refine ⟨h.merge hn hne hkilled hsaved hapart hpre hstep, Or.inr ⟨killed, saved, rfl, hends⟩,
          Or.inr ⟨rfl, ?_⟩⟩
        have hboth {x y : Fin n} (hx : names x = killed) (hy : names y = saved) :
            (if names x = killed then saved else names x)
              = if names y = killed then saved else names y := by
          rw [if_pos hx, hy, if_neg (Ne.symm hne)]
        rcases hends with ⟨hsrc, hdst⟩ | ⟨hsrc, hdst⟩
        · obtain ⟨x, hx, hxk⟩ := Option.map_eq_some_iff.mp hsrc
          obtain ⟨y, hy, hys⟩ := Option.map_eq_some_iff.mp hdst
          exact ⟨x, y, hx, hy, htemp x (hxk ▸ hkilled), hboth hxk hys⟩
        · obtain ⟨x, hx, hxs⟩ := Option.map_eq_some_iff.mp hsrc
          obtain ⟨y, hy, hyk⟩ := Option.map_eq_some_iff.mp hdst
          exact ⟨x, y, hx, hy, htemp x (hxs ▸ hsaved), (hboth hyk hxs).symm⟩

/-- The moves of a function leave the values apart that had an edge, and a name has the same `kind`
as the value if the moves are between values of the same kind. -/
theorem coalesceFunction_keeps {κ : Type} {kind : Fin n → κ} {s : State n} {p : Merges ι n}
    {ms : List (ι × Move n)} (h : Keeps f edges s id)
    (hkind : ∀ m ∈ ms, ∀ x ∈ m.2.src, ∀ y ∈ m.2.dst, kind x = kind y)
    (hrun : coalesceFunction s ms = .ok p) :
    Keeps f edges p.state p.names ∧ (∀ v, kind (p.names v) = kind v)
      ∧ ∀ i ∈ p.destroyed, ∃ m, (i, m) ∈ ms ∧ ∃ x y, m.src = some x ∧ m.dst = some y
        ∧ (f.values x).cls = .temporary ∧ p.names x = p.names y := by
  refine (ExceptFold.foldlM_ok (P := fun p : Merges ι n => Keeps f edges p.state p.names
      ∧ (∀ v, kind (p.names v) = kind v)
      ∧ ∀ i ∈ p.destroyed, ∃ m, (i, m) ∈ ms ∧ ∃ x y, m.src = some x ∧ m.dst = some y
        ∧ (f.values x).cls = .temporary ∧ p.names x = p.names y)
    (Q := fun _ => True) ?_ ⟨h, fun _ => rfl, fun i hi => absurd hi List.not_mem_nil⟩ hrun).1
  rintro p m p' ⟨hp, hnames, hgone⟩ hm hstep
  obtain ⟨hp', hnew, hdestroyed⟩ := hp.turn hn hstep
  -- equal names stay equal
  have hequal {x y : Fin n} (hxy : p.names x = p.names y) : p'.names x = p'.names y := by
    rcases hnew with hsame | ⟨killed, saved, hnew, -⟩
    · rw [hsame]
      exact hxy
    · rw [hnew]
      simp only [hxy]
  have hkind' : ∀ v, kind (p'.names v) = kind v := by
    intro v
    rcases hnew with hsame | ⟨killed, saved, hnew, hends⟩
    · rw [hsame]
      exact hnames v
    · have hends' : kind killed = kind saved := by
        rcases hends with ⟨hsrc, hdst⟩ | ⟨hsrc, hdst⟩
        · obtain ⟨x, hx, rfl⟩ := Option.map_eq_some_iff.mp hsrc
          obtain ⟨y, hy, rfl⟩ := Option.map_eq_some_iff.mp hdst
          rw [hnames, hnames, hkind m hm x hx y hy]
        · obtain ⟨x, hx, rfl⟩ := Option.map_eq_some_iff.mp hsrc
          obtain ⟨y, hy, rfl⟩ := Option.map_eq_some_iff.mp hdst
          rw [hnames, hnames, hkind m hm x hx y hy]
      rw [hnew]
      by_cases hv : p.names v = killed
      · simp only [hv, if_true]
        rw [← hends', ← hv]
        exact hnames v
      · simp only [hv, if_false]
        exact hnames v
  have hold : ∀ i ∈ p.destroyed, ∃ m, (i, m) ∈ ms ∧ ∃ x y, m.src = some x ∧ m.dst = some y
      ∧ (f.values x).cls = .temporary ∧ p'.names x = p'.names y := by
    intro i hi
    obtain ⟨m, hmem, x, y, hx, hy, hcls, hxy⟩ := hgone i hi
    exact ⟨m, hmem, x, y, hx, hy, hcls, hequal hxy⟩
  refine ⟨⟨hp', hkind', fun i hi => ?_⟩, trivial⟩
  rcases hdestroyed with hsame | ⟨hcons, hends⟩
  · rw [hsame] at hi
    exact hold i hi
  · rw [hcons] at hi
    rcases List.mem_cons.mp hi with rfl | hi
    · exact ⟨m.2, hm, hends⟩
    · exact hold i hi

theorem mergeOf_ends {s : State n} {m : Move n} (hsized : Sized n s.mtx)
    (hdst : ∀ y, m.dst = some y → (s.values y).cls = .temporary) : ∃ r, mergeOf s m = .ok r := by
  obtain ⟨_ | src, dst⟩ := m
  · exact ⟨none, rfl⟩
  · unfold mergeOf
    dsimp only
    by_cases hsrc : (s.values src).cls = .temporary
    · rw [if_neg (not_not.mpr hsrc)]
      cases dst with
      | none => exact ⟨none, rfl⟩
      | some dst =>
        dsimp only
        rw [get_eq hn hsized]
        split_ifs with hsame hcls hboth hpre
        · exact ⟨none, rfl⟩
        · exact absurd (hdst dst rfl) hcls
        · exact ⟨none, rfl⟩
        · cases adjOf s.mtx dst src with
          | true => exact ⟨none, rfl⟩
          | false => exact ⟨_, rfl⟩
        · cases adjOf s.mtx dst src with
          | true => exact ⟨none, rfl⟩
          | false => exact ⟨_, rfl⟩
    · rw [if_pos hsrc]
      exact ⟨none, rfl⟩

theorem coalesceFunction_ends {s : State n} {ms : List (ι × Move n)} (h : Keeps f edges s id)
    (hdst : ∀ m ∈ ms, ∀ y, m.2.dst = some y → (f.values y).cls = .temporary) :
    ∃ p, coalesceFunction s ms = .ok p := by
  have hstep : ∀ (p : Merges ι n) (m : ι × Move n), Keeps f edges p.state p.names → m ∈ ms →
      ∃ p', coalesceTurn p m = .ok p' ∧ Keeps f edges p'.state p'.names := by
    intro p m hp hm
    have hends : ∀ y, (Move.rename m.2 p.names).dst = some y →
        (p.state.values y).cls = .temporary := by
      intro y hy
      obtain ⟨x, hx, rfl⟩ := Option.map_eq_some_iff.mp hy
      exact hp.alive x (hdst m hm x hx)
    obtain ⟨r, hmerge⟩ := mergeOf_ends hn hp.merged.sized hends
    have hturn : ∃ p', coalesceTurn p m = .ok p' := by
      unfold coalesceTurn
      rw [hmerge]
      cases r with
      | none =>
        by_cases hsame : Redundant p.state (Move.rename m.2 p.names)
        · exact ⟨_, if_pos hsame⟩
        · exact ⟨_, if_neg hsame⟩
      | some r =>
        obtain ⟨killed, saved⟩ := r
        obtain ⟨hne, hapart, -, hsaved, -⟩ :=
          mergeOf_some hn hp.merged.sized hp.merged.simple hmerge
        obtain ⟨s', hrun, -⟩ := merge_merged hn hp.merged hne hsaved hapart
        change ∃ p', (Colouring.merge p.state killed saved >>= _) = Except.ok p'
        rw [hrun]
        exact ⟨_, rfl⟩
    obtain ⟨p', hp'⟩ := hturn
    exact ⟨p', hp', (hp.turn hn hp').1⟩
  have hnone : Keeps f edges (⟨s, id, []⟩ : Merges ι n).state id := h
  obtain ⟨p, hrun, -⟩ := ExceptFold.foldlM_ends
    (P := fun p : Merges ι n => Keeps f edges p.state p.names) hstep hnone
  exact ⟨p, hrun⟩

theorem buildMatrix_keeps {ds : List (Definition n)} {s : State n} (h : buildMatrix f ds = .ok s) :
    Keeps f (State.adj s) s id := by
  obtain ⟨s₁, hbuild, hall⟩ := buildMatrix_counted hn f ds
  obtain rfl : s₁ = s := Except.ok.inj (hbuild.symm.trans h)
  obtain ⟨hgrows, -⟩ := buildMatrix_grows hn h
  exact ⟨hall.merged, fun v => (hgrows.values v).2.1, fun v => (hgrows.values v).2.2,
    fun v hv => (hgrows.values v).1.trans hv,
    fun v hv => ⟨(hgrows.values v).1.symm.trans hv, rfl⟩, fun _ _ => rfl, fun _ _ _ _ hxy => hxy,
    fun _ _ _ => rfl⟩

end Runs

end Vmir.Coalescing
