import Vmir.DeadCode

set_option autoImplicit false

/-!
# The control flow under dead code elimination

The edges of the function stay those of its branches, and every turn but one that would rotate the
instructions of a block for ever comes to its end.
-/
namespace Vmir.DeadCodeFlow
open Ir DeadCode

/-- Instructions of one block have gone, but not one without a result that ends it. -/
structure Pruned (id : ℕ) (f g : Function) : Prop where
  ids : ids g = ids f
  edges : g.edges = f.edges
  others : ∀ x ≠ id, instrsOf g x = instrsOf f x
  instrs : (instrsOf g id).Sublist (instrsOf f id)
  last : ∀ i, (instrsOf f id).getLast? = some i → output i = none →
    (instrsOf g id).getLast? = some i

theorem Pruned.refl (id : ℕ) (f : Function) : Pruned id f f :=
  ⟨rfl, rfl, fun _ _ => rfl, List.Sublist.refl _, fun _ h _ => h⟩

theorem Pruned.trans {id : ℕ} {f g k : Function} (h : Pruned id f g) (h' : Pruned id g k) :
    Pruned id f k where
  ids := h'.ids.trans h.ids
  edges := h'.edges.trans h.edges
  others x hx := (h'.others x hx).trans (h.others x hx)
  instrs := h'.instrs.trans h.instrs
  last i hi hout := h'.last i (h.last i hi hout) hout

theorem mem_ids_of_instr {f : Function} {id n : ℕ} {i : BoundInstr}
    (h : (instrsOf f id)[n]? = some i) : id ∈ ids f := by
  by_contra hid
  rw [instrsOf_of_notMem hid] at h
  exact nomatch h

theorem visitInstr_cases (f : Function) (id n : ℕ) : visitInstr f id n = f
    ∨ ∃ i v, (instrsOf f id)[n]? = some i ∧ output i = some v ∧ isInput f v = false
      ∧ visitInstr f id n
        = { setInstrs f id ((instrsOf f id).eraseIdx n) with dead := v :: f.dead } := by
  unfold visitInstr
  cases hi : (instrsOf f id)[n]? with
  | none => exact .inl rfl
  | some i =>
    rw [Option.bind_some]
    cases hv : output i with
    | none => exact .inl rfl
    | some v =>
      by_cases hinput : isInput f v = true
      · exact .inl (if_pos hinput)
      · exact .inr ⟨i, v, rfl, hv, Bool.eq_false_iff.mpr hinput, if_neg hinput⟩

theorem getLast?_eraseIdx {α : Type} {l : List α} {n : ℕ} {a b : α} (hn : l[n]? = some a)
    (hb : l.getLast? = some b) (hne : a ≠ b) : (l.eraseIdx n).getLast? = some b := by
  have hlt : n < l.length := (List.getElem?_eq_some_iff.mp hn).1
  rw [List.getLast?_eq_getElem?] at hb ⊢
  have hlast : n ≠ l.length - 1 := by
    rintro rfl
    exact hne (Option.some.inj (hn.symm.trans hb))
  rw [List.length_eraseIdx_of_lt hlt, List.getElem?_eraseIdx_of_ge (by omega),
    show l.length - 1 - 1 + 1 = l.length - 1 by omega]
  exact hb

theorem pruned_visitInstr (f : Function) (id n : ℕ) : Pruned id f (visitInstr f id n) := by
  rcases visitInstr_cases f id n with h | ⟨i, v, hi, hv, -, h⟩
  · rw [h]
    exact .refl id f
  · rw [h]
    have hself := instrsOf_setInstrs_self (mem_ids_of_instr hi) ((instrsOf f id).eraseIdx n)
    refine ⟨ids_setInstrs _, rfl, fun x hx => instrsOf_setInstrs_of_ne hx _, ?_, ?_⟩
    · change (instrsOf (setInstrs f id _) id).Sublist _
      rw [hself]
      exact List.eraseIdx_sublist _ _
    · intro j hj hout
      have hne : i ≠ j := by
        rintro rfl
        exact nomatch hv.symm.trans hout
      exact (congrArg List.getLast? hself).trans (getLast?_eraseIdx hi hj hne)

theorem pruned_visitInstrs (f : Function) (id n : ℕ) : Pruned id f (visitInstrs f id n) := by
  induction n generalizing f with
  | zero => exact .refl id f
  | succ n ih => exact (pruned_visitInstr f id n).trans (ih _)

theorem pruned_inBb (f : Function) (id : ℕ) : Pruned id f (eliminateDeadCodeInBb f id) :=
  pruned_visitInstrs f id _

/-- The edges are those of the branches, as far as the pass goes by them. -/
structure Flow (f : Function) : Prop where
  nodup : (ids f).Nodup
  edge : ∀ e ∈ f.edges, e.ibeFrom ∈ ids f ∧ e.ibeTo ∈ ids f
  last : ∀ id ∈ ids f, ∃ i, (instrsOf f id).getLast? = some i ∧ output i = none
    ∧ (isBr i = true → ∃ e, outgoing f id = [e])

theorem Pruned.outgoing {id x : ℕ} {f g : Function} (h : Pruned id f g) :
    outgoing g x = outgoing f x := by
  unfold DeadCode.outgoing
  rw [h.edges]

theorem Pruned.incoming {id x : ℕ} {f g : Function} (h : Pruned id f g) :
    incoming g x = incoming f x := by
  unfold DeadCode.incoming
  rw [h.edges]

theorem Pruned.flow {id : ℕ} {f g : Function} (h : Pruned id f g) (hf : Flow f) : Flow g where
  nodup := h.ids ▸ hf.nodup
  edge e he := by
    rw [h.ids]
    exact hf.edge e (h.edges ▸ he)
  last x hx := by
    obtain ⟨i, hi, hout, hbr⟩ := hf.last x (h.ids ▸ hx)
    rw [h.outgoing]
    refine ⟨i, ?_, hout, hbr⟩
    by_cases hid : x = id
    · subst hid
      exact h.last i hi hout
    · rw [h.others x hid]
      exact hi

section
variable {f : Function} {ib : ℕ}

theorem mem_incoming {e : Edge} {id : ℕ} : e ∈ incoming f id ↔ e ∈ f.edges ∧ e.ibeTo = id := by
  unfold incoming
  rw [List.mem_filter, decide_eq_true_eq]

theorem mem_outgoing {e : Edge} {id : ℕ} : e ∈ outgoing f id ↔ e ∈ f.edges ∧ e.ibeFrom = id := by
  unfold outgoing
  rw [List.mem_filter, decide_eq_true_eq]

theorem flow_bbDestroy (hf : Flow f) (h : ∀ e ∈ incoming f ib, e.ibeFrom = ib) :
    Flow (bbDestroy f ib) where
  nodup := by
    rw [ids_bbDestroy]
    exact hf.nodup.filter _
  edge e he := by
    obtain ⟨he, hne⟩ := List.mem_filter.mp he
    obtain ⟨hfrom, hto⟩ := hf.edge e he
    rw [decide_eq_true_eq] at hne
    rw [ids_bbDestroy, List.mem_filter, List.mem_filter, decide_eq_true_eq, decide_eq_true_eq]
    exact ⟨⟨hfrom, hne.1⟩, hto, hne.2⟩
  last x hx := by
    rw [ids_bbDestroy, List.mem_filter, decide_eq_true_eq] at hx
    obtain ⟨i, hi, hout, hbr⟩ := hf.last x hx.1
    rw [instrsOf_bbDestroy hx.2]
    refine ⟨i, hi, hout, fun his => ?_⟩
    obtain ⟨e, he⟩ := hbr his
    refine ⟨e, ?_⟩
    rw [← he]
    unfold outgoing bbDestroy
    simp only [List.filter_filter]
    apply List.filter_congr
    intro e' he'
    by_cases hfrom : e'.ibeFrom = x
    · have hto : e'.ibeTo ≠ ib := fun hto => hx.2 (hfrom ▸ h e' (mem_incoming.mpr ⟨he', hto⟩))
      simp [hfrom, hx.2, hto]
    · simp [hfrom]

theorem moveInstrs_self {fuel : ℕ} (hib : ib ∈ ids f) (h : instrsOf f ib ≠ []) :
    moveInstrs ib ib fuel f = .error .outOfFuel := by
  induction fuel generalizing f with
  | zero => rfl
  | succ fuel ih =>
    unfold moveInstrs
    cases hi : instrsOf f ib with
    | nil => exact absurd hi h
    | cons i rest =>
      have hmem : ib ∈ ids (setInstrs f ib rest) := by
        rw [ids_setInstrs]
        exact hib
      refine ih (by rwa [ids_setInstrs]) ?_
      rw [instrsOf_setInstrs_self hmem]
      exact List.append_ne_nil_of_right_ne_nil _ (List.cons_ne_nil i [])

/-- The queue of one block has been moved to the end of another's. -/
structure Moved (ib fromBb : ℕ) (f g : Function) : Prop where
  ids : ids g = ids f
  edges : g.edges = f.edges
  dead : g.dead = f.dead
  others : ∀ x, x ≠ ib → x ≠ fromBb → instrsOf g x = instrsOf f x
  target : instrsOf g fromBb = instrsOf f fromBb ++ instrsOf f ib
  source : instrsOf g ib = []

theorem Moved.cons {fromBb : ℕ} {i : BoundInstr} {rest : List BoundInstr} {g : Function}
    (hib : ib ∈ DeadCode.ids f) (hfrom : fromBb ∈ DeadCode.ids f) (hne : fromBb ≠ ib)
    (hi : instrsOf f ib = i :: rest)
    (h : Moved ib fromBb
      (setInstrs (setInstrs f ib rest) fromBb (instrsOf (setInstrs f ib rest) fromBb ++ [i])) g) :
    Moved ib fromBb f g := by
  have hfrom₁ : instrsOf (setInstrs f ib rest) fromBb = instrsOf f fromBb :=
    instrsOf_setInstrs_of_ne hne _
  refine ⟨h.ids.trans ?_, h.edges, h.dead, fun x hx hx' => ?_, ?_, h.source⟩
  · rw [ids_setInstrs, ids_setInstrs]
  · rw [h.others x hx hx', instrsOf_setInstrs_of_ne hx', instrsOf_setInstrs_of_ne hx]
  · rw [h.target, instrsOf_setInstrs_self (by rwa [ids_setInstrs]), hfrom₁,
      instrsOf_setInstrs_of_ne hne.symm, instrsOf_setInstrs_self hib, hi, List.append_assoc]
    rfl

theorem Moved.nil {fromBb : ℕ} (hi : instrsOf f ib = []) : Moved ib fromBb f f := by
  refine ⟨rfl, rfl, rfl, fun _ _ _ => rfl, ?_, hi⟩
  rw [hi, List.append_nil]

theorem moved_of_ok {fromBb fuel : ℕ} {g : Function} (hib : ib ∈ ids f) (hfrom : fromBb ∈ ids f)
    (hne : fromBb ≠ ib) (h : moveInstrs ib fromBb fuel f = .ok g) : Moved ib fromBb f g := by
  induction fuel generalizing f with
  | zero => exact nomatch h
  | succ fuel ih =>
    unfold moveInstrs at h
    cases hi : instrsOf f ib with
    | nil =>
      rw [hi] at h
      cases Except.ok.inj h
      exact .nil hi
    | cons i rest =>
      rw [hi] at h
      exact (ih (by simpa using hib) (by simpa using hfrom) h).cons hib hfrom hne hi

theorem moveInstrs_ok {fromBb fuel : ℕ} (hib : ib ∈ ids f) (hne : fromBb ≠ ib)
    (hfuel : (instrsOf f ib).length < fuel) : ∃ g, moveInstrs ib fromBb fuel f = .ok g := by
  induction fuel generalizing f with
  | zero => exact absurd hfuel (Nat.not_lt_zero _)
  | succ fuel ih =>
    unfold moveInstrs
    cases hi : instrsOf f ib with
    | nil => exact ⟨f, rfl⟩
    | cons i rest =>
      refine ih (by simpa using hib) ?_
      rw [instrsOf_setInstrs_of_ne hne.symm, instrsOf_setInstrs_self hib]
      rw [hi, List.length_cons] at hfuel
      omega

structure Merged (ib fromBb : ℕ) (f g : Function) : Prop where
  ids : ids g = (ids f).filter (· ≠ ib)
  edges : g.edges = (f.edges.filter fun e => e.ibeTo ≠ ib).map
    fun e => if e.ibeFrom = ib then { e with ibeFrom := fromBb } else e
  dead : g.dead = f.dead
  others : ∀ x, x ≠ ib → x ≠ fromBb → instrsOf g x = instrsOf f x
  target : instrsOf g fromBb = (instrsOf f fromBb).dropLast ++ instrsOf f ib

theorem erase_eq_filter {α : Type} [DecidableEq α] {q : α → Bool} {l : List α} {a : α}
    (h : l.filter q = [a]) : l.erase a = l.filter fun x => !q x := by
  induction l with
  | nil => exact nomatch h
  | cons b l ih =>
    by_cases hb : q b = true
    · rw [List.filter_cons_of_pos hb] at h
      obtain ⟨rfl, hrest⟩ := List.cons.inj h
      rw [List.erase_cons_head, List.filter_cons_of_neg (by simp [hb])]
      have hnone : ∀ x ∈ l, ¬ q x = true := List.filter_eq_nil_iff.mp hrest
      exact (List.filter_eq_self.mpr fun x hx => by simp [hnone x hx]).symm
    · rw [List.filter_cons_of_neg hb] at h
      have hne : b ≠ a := by
        rintro rfl
        exact hb (List.mem_filter.mp (h ▸ List.mem_singleton_self b)).2
      rw [List.erase_cons_tail (by simpa using hne), List.filter_cons_of_pos (by simp [hb]), ih h]

theorem bbDestroy_setInstrs (f : Function) (ib : ℕ) (is : List BoundInstr) :
    bbDestroy (setInstrs f ib is) ib = bbDestroy f ib := by
  unfold bbDestroy setInstrs
  congr 1
  change (f.bbs.map _).filter _ = _
  generalize f.bbs = bbs
  induction bbs with
  | nil => rfl
  | cons b bbs ih =>
    rw [List.map_cons]
    by_cases hb : b.id = ib
    · rw [if_pos hb, List.filter_cons_of_neg (by simpa using hb),
        List.filter_cons_of_neg (by simpa using hb), ih]
    · rw [if_neg hb, List.filter_cons_of_pos (by simpa using hb),
        List.filter_cons_of_pos (by simpa using hb), ih]

theorem only_edge {fromBb : ℕ} {edge : Edge} (hin : incoming f ib = [edge])
    (hout : ∃ e, outgoing f fromBb = [e]) (hfrom : edge.ibeFrom = fromBb) :
    (f.edges.erase edge = f.edges.filter fun e => e.ibeTo ≠ ib)
      ∧ ∀ e ∈ f.edges, e.ibeFrom = fromBb → e.ibeTo = ib := by
  have hmem : edge ∈ f.edges ∧ edge.ibeTo = ib :=
    mem_incoming.mp (hin ▸ List.mem_singleton_self edge)
  constructor
  · rw [erase_eq_filter hin]
    apply List.filter_congr
    intro e _
    simp
  · intro e he hefrom
    obtain ⟨e', he'⟩ := hout
    have hedge : edge ∈ outgoing f fromBb := mem_outgoing.mpr ⟨hmem.1, hfrom⟩
    have hboth : e ∈ outgoing f fromBb := mem_outgoing.mpr ⟨he, hefrom⟩
    rw [he'] at hedge hboth
    rw [List.mem_singleton.mp hboth, ← List.mem_singleton.mp hedge]
    exact hmem.2

def cutBranch (f : Function) (edge : Edge) : Function :=
  { setInstrs f edge.ibeFrom (instrsOf f edge.ibeFrom).dropLast with edges := f.edges.erase edge }

theorem mergeIntoPredecessor_eq (fuel : ℕ) {edge : Edge} (hf : Flow f)
    (hin : incoming f ib = [edge]) : ∃ last, (instrsOf f edge.ibeFrom).getLast? = some last
      ∧ mergeIntoPredecessor fuel f ib edge = if isBr last then
          (moveInstrs ib edge.ibeFrom fuel (cutBranch f edge)).map
            fun g => bbDestroy (moveEdges g ib edge.ibeFrom) ib
        else .ok f := by
  have hedge := mem_incoming.mp (hin ▸ List.mem_singleton_self edge)
  obtain ⟨last, hlast, -, hbr⟩ := hf.last edge.ibeFrom (hf.edge edge hedge.1).1
  refine ⟨last, hlast, ?_⟩
  unfold mergeIntoPredecessor
  rw [hlast]
  by_cases his : isBr last = true
  · obtain ⟨herase, honly⟩ := only_edge hin (hbr his) rfl
    have hnone : outgoing (cutBranch f edge) edge.ibeFrom = [] := by
      apply List.filter_eq_nil_iff.mpr
      intro e he
      change e ∈ f.edges.erase edge at he
      rw [herase] at he
      obtain ⟨he, hto⟩ := List.mem_filter.mp he
      intro hfrom
      exact (of_decide_eq_true hto) (honly e he (of_decide_eq_true hfrom))
    simp only [his, if_true]
    change (if outgoing (cutBranch f edge) edge.ibeFrom ≠ [] then _ else
      moveInstrs ib edge.ibeFrom fuel (cutBranch f edge) >>= _) = _
    rw [if_neg (not_not.mpr hnone)]
    cases moveInstrs ib edge.ibeFrom fuel (cutBranch f edge) <;> rfl
  · simp only [his, if_false, Bool.false_eq_true]

theorem merged_of_moved {fromBb : ℕ} {edge : Edge} {g : Function} (hf : Flow f)
    (hin : incoming f ib = [edge]) (hout : ∃ e, outgoing f edge.ibeFrom = [e])
    (hfrom : edge.ibeFrom = fromBb) (hne : fromBb ≠ ib)
    (hmoved : Moved ib fromBb (cutBranch f edge) g) :
    Merged ib fromBb f (bbDestroy (moveEdges g ib fromBb) ib) := by
  have hmem := (mem_incoming.mp (hin ▸ List.mem_singleton_self edge)).1
  have hfromids : fromBb ∈ DeadCode.ids f := hfrom ▸ (hf.edge edge hmem).1
  obtain ⟨herase, -⟩ := only_edge hin (hfrom ▸ hout) hfrom
  have hids : DeadCode.ids g = DeadCode.ids f :=
    hmoved.ids.trans (ids_setInstrs (f := f) _)
  have hinstrs : ∀ x, x ≠ fromBb → instrsOf (cutBranch f edge) x = instrsOf f x :=
    fun x hx => instrsOf_setInstrs_of_ne (hfrom ▸ hx) _
  refine ⟨?_, ?_, hmoved.dead, fun x hx hx' => ?_, ?_⟩
  · rw [ids_bbDestroy]
    exact congrArg (List.filter _) hids
  · change (g.edges.map _).filter _ = _
    rw [hmoved.edges]
    change ((f.edges.erase edge).map _).filter _ = _
    rw [herase, List.filter_map, List.filter_filter]
    congr 1
    apply List.filter_congr
    intro e _
    by_cases hefrom : e.ibeFrom = ib
    · simp [hefrom, hne]
    · simp [hefrom]
  · rw [instrsOf_bbDestroy hx]
    exact (hmoved.others x hx hx').trans (hinstrs x hx')
  · rw [instrsOf_bbDestroy hne]
    refine hmoved.target.trans ?_
    rw [hinstrs ib hne.symm]
    congr 1
    unfold cutBranch
    rw [hfrom]
    exact instrsOf_setInstrs_self hfromids _

theorem Merged.outgoing_target {fromBb : ℕ} {g : Function} (hm : Merged ib fromBb f g)
    (hne : fromBb ≠ ib) (honly : ∀ e ∈ f.edges, e.ibeFrom = fromBb → e.ibeTo = ib)
    (hself : ∀ e ∈ f.edges, e.ibeFrom = ib → e.ibeTo ≠ ib) :
    outgoing g fromBb = (outgoing f ib).map fun e => { e with ibeFrom := fromBb } := by
  unfold outgoing
  rw [hm.edges, List.filter_map, List.filter_filter]
  have hkeep : f.edges.filter (fun e => ((fun e : Edge => decide (e.ibeFrom = fromBb)) ∘
      fun e => if e.ibeFrom = ib then { e with ibeFrom := fromBb } else e) e
      && decide (e.ibeTo ≠ ib)) = f.edges.filter fun e => e.ibeFrom = ib := by
    apply List.filter_congr
    intro e he
    by_cases hefrom : e.ibeFrom = ib
    · simp [hefrom, hself e he hefrom]
    · by_cases hto : e.ibeFrom = fromBb
      · simp [hto, hne, honly e he hto]
      · simp [hefrom, hto]
  rw [hkeep]
  apply List.map_congr_left
  intro e he
  exact if_pos (of_decide_eq_true (List.mem_filter.mp he).2)

theorem Merged.outgoing_of_ne {fromBb x : ℕ} {g : Function} (hm : Merged ib fromBb f g)
    (hin : ∀ e ∈ f.edges, e.ibeTo = ib → e.ibeFrom = fromBb) (hx : x ≠ ib) (hx' : x ≠ fromBb) :
    outgoing g x = outgoing f x := by
  unfold outgoing
  rw [hm.edges, List.filter_map, List.filter_filter]
  have hkeep : f.edges.filter (fun e => ((fun e : Edge => decide (e.ibeFrom = x)) ∘
      fun e => if e.ibeFrom = ib then { e with ibeFrom := fromBb } else e) e
      && decide (e.ibeTo ≠ ib)) = f.edges.filter fun e => e.ibeFrom = x := by
    apply List.filter_congr
    intro e he
    by_cases hefrom : e.ibeFrom = ib
    · simp [hefrom, hx.symm, hx'.symm]
    · by_cases hto : e.ibeTo = ib
      · have hfrom := hin e he hto
        simp [hto, hfrom, hx'.symm]
      · simp [hefrom, hto]
  rw [hkeep]
  refine (List.map_congr_left (g := id) fun e he => ?_).trans (List.map_id _)
  exact if_neg fun h => hx ((of_decide_eq_true (List.mem_filter.mp he).2).symm.trans h)

theorem Merged.incoming {fromBb x : ℕ} {g : Function} (hm : Merged ib fromBb f g) (hx : x ≠ ib) :
    incoming g x = (incoming f x).map
      fun e => if e.ibeFrom = ib then { e with ibeFrom := fromBb } else e := by
  unfold DeadCode.incoming
  rw [hm.edges, List.filter_map, List.filter_filter]
  congr 1
  apply List.filter_congr
  intro e _
  change (decide ((if e.ibeFrom = ib then { e with ibeFrom := fromBb } else e : Edge).ibeTo = x)
    && _) = _
  have hto : (if e.ibeFrom = ib then { e with ibeFrom := fromBb } else e : Edge).ibeTo
      = e.ibeTo := by
    split <;> rfl
  rw [hto]
  by_cases hex : e.ibeTo = x
  · simp [hex, hx]
  · simp [hex]

theorem Merged.flow {edge : Edge} {g : Function} (hm : Merged ib edge.ibeFrom f g) (hf : Flow f)
    (hin : DeadCode.incoming f ib = [edge]) (hout : ∃ e, outgoing f edge.ibeFrom = [e])
    (hne : edge.ibeFrom ≠ ib) : Flow g := by
  obtain ⟨hmem, hto⟩ := mem_incoming.mp (hin ▸ List.mem_singleton_self edge)
  obtain ⟨-, honly⟩ := only_edge hin hout rfl
  have hinto : ∀ e ∈ f.edges, e.ibeTo = ib → e = edge := by
    intro e he heto
    have hein := mem_incoming.mpr ⟨he, heto⟩
    rw [hin] at hein
    exact List.mem_singleton.mp hein
  have hself : ∀ e ∈ f.edges, e.ibeFrom = ib → e.ibeTo ≠ ib := by
    intro e he hefrom heto
    exact hne (hinto e he heto ▸ hefrom)
  have hib : ib ∈ DeadCode.ids f := hto ▸ (hf.edge edge hmem).2
  refine ⟨hm.ids ▸ hf.nodup.filter _, fun e he => ?_, fun x hx => ?_⟩
  · rw [hm.edges] at he
    obtain ⟨e', he', rfl⟩ := List.mem_map.mp he
    obtain ⟨he', heto⟩ := List.mem_filter.mp he'
    have heto : e'.ibeTo ≠ ib := of_decide_eq_true heto
    have hids := hf.edge e' he'
    rw [hm.ids, List.mem_filter, List.mem_filter, decide_eq_true_eq, decide_eq_true_eq]
    split
    · exact ⟨⟨(hf.edge edge hmem).1, hne⟩, hids.2, heto⟩
    · next hefrom => exact ⟨⟨hids.1, hefrom⟩, hids.2, heto⟩
  · rw [hm.ids, List.mem_filter, decide_eq_true_eq] at hx
    by_cases hfrom : x = edge.ibeFrom
    · subst hfrom
      obtain ⟨i, hi, houti, hbr⟩ := hf.last ib hib
      refine ⟨i, ?_, houti, fun his => ?_⟩
      · rw [hm.target, List.getLast?_append, hi]
        rfl
      · obtain ⟨e, he⟩ := hbr his
        rw [hm.outgoing_target hne honly hself, he]
        exact ⟨_, rfl⟩
    · obtain ⟨i, hi, houti, hbr⟩ := hf.last x hx.1
      rw [hm.others x hx.2 hfrom,
        hm.outgoing_of_ne (fun e he heto => hinto e he heto ▸ rfl) hx.2 hfrom]
      exact ⟨i, hi, houti, hbr⟩

/-- The last instruction of a block is an unconditional branch. -/
def EndsInBr (f : Function) (id : ℕ) : Prop :=
  ∃ i, (instrsOf f id).getLast? = some i ∧ isBr i = true

/-- The block is its own only predecessor, and keeps more than the branch. -/
def Spins (f : Function) (ib : ℕ) : Prop :=
  incoming f ib = [⟨ib, ib⟩] ∧ EndsInBr f ib
    ∧ 1 < (instrsOf (eliminateDeadCodeInBb f ib) ib).length

inductive Visited (f : Function) (ib : ℕ) : Function → Prop
  | unreachable : incoming f ib = [] → Visited f ib (bbDestroy f ib)
  | stays : incoming f ib ≠ [] → (∀ p, incoming f ib = [⟨p, ib⟩] → ¬ EndsInBr f p) →
      Visited f ib (eliminateDeadCodeInBb f ib)
  | merged {p : ℕ} {g : Function} : incoming f ib = [⟨p, ib⟩] → p ≠ ib → EndsInBr f p →
      Merged ib p (eliminateDeadCodeInBb f ib) g → Visited f ib g
  | alone : incoming f ib = [⟨ib, ib⟩] → EndsInBr f ib →
      (instrsOf (eliminateDeadCodeInBb f ib) ib).length = 1 →
      Visited f ib (bbDestroy (eliminateDeadCodeInBb f ib) ib)

theorem endsInBr_iff {g : Function} {id : ℕ} (h : Pruned ib f g) (hf : Flow f)
    (hid : id ∈ ids f) {last : BoundInstr} (hlast : (instrsOf g id).getLast? = some last) :
    EndsInBr f id ↔ isBr last = true := by
  obtain ⟨i, hi, hout, -⟩ := hf.last id hid
  have hkept : (instrsOf g id).getLast? = some i := by
    by_cases hne : id = ib
    · subst hne
      exact h.last i hi hout
    · rw [h.others id hne]
      exact hi
  cases Option.some.inj (hkept.symm.trans hlast)
  unfold EndsInBr
  rw [hi]
  simp

theorem endsInBr_pruned {g : Function} {id : ℕ} (h : EndsInBr f id) (hf : Flow f)
    (hid : id ∈ ids f) (hp : Pruned ib f g) : EndsInBr g id := by
  obtain ⟨i, hi, -⟩ := (hp.flow hf).last id (hp.ids ▸ hid)
  exact ⟨i, hi, (endsInBr_iff hp hf hid hi).mp h⟩

theorem incoming_singleton {edge : Edge} (hin : incoming f ib = [edge]) :
    edge = ⟨edge.ibeFrom, ib⟩ := by
  obtain ⟨-, hto⟩ := mem_incoming.mp (hin ▸ List.mem_singleton_self edge)
  cases edge
  cases hto
  rfl

theorem visitBb_of_merge (fuel : ℕ) {edge : Edge} (hf : Flow f) (hin : incoming f ib = [edge]) :
    (EndsInBr f edge.ibeFrom ∧ visitBb fuel f ib
        = (moveInstrs ib edge.ibeFrom fuel (cutBranch (eliminateDeadCodeInBb f ib) edge)).map
            fun g => bbDestroy (moveEdges g ib edge.ibeFrom) ib)
      ∨ (¬ EndsInBr f edge.ibeFrom ∧ visitBb fuel f ib = .ok (eliminateDeadCodeInBb f ib)) := by
  have hpruned := pruned_inBb f ib
  have hflow := hpruned.flow hf
  have hin' : incoming (eliminateDeadCodeInBb f ib) ib = [edge] := hpruned.incoming.trans hin
  obtain ⟨last, hlast, heq⟩ := mergeIntoPredecessor_eq fuel hflow hin'
  have hids : edge.ibeFrom ∈ ids f :=
    (hf.edge edge (mem_incoming.mp (hin ▸ List.mem_singleton_self edge)).1).1
  have hends := endsInBr_iff hpruned hf hids hlast
  have hvisit : visitBb fuel f ib
      = mergeIntoPredecessor fuel (eliminateDeadCodeInBb f ib) ib edge := by
    unfold visitBb
    rw [hin]
  rw [hvisit, heq]
  by_cases his : isBr last = true
  · rw [if_pos his]
    exact .inl ⟨hends.mpr his, rfl⟩
  · rw [if_neg his]
    exact .inr ⟨fun h => his (hends.mp h), rfl⟩

theorem outgoing_of_endsInBr {p : ℕ} (hf : Flow f) (h : EndsInBr f p) (hp : p ∈ ids f) :
    ∃ e, outgoing f p = [e] := by
  obtain ⟨i, hi, -, hbr⟩ := hf.last p hp
  obtain ⟨j, hj, hisj⟩ := h
  cases Option.some.inj (hi.symm.trans hj)
  exact hbr hisj

theorem bbDestroy_alone (hin : incoming f ib = [⟨ib, ib⟩]) :
    bbDestroy (moveEdges (cutBranch f ⟨ib, ib⟩) ib ib) ib = bbDestroy f ib := by
  have hmove : ∀ es : List Edge,
      es.map (fun e => if e.ibeFrom = ib then { e with ibeFrom := ib } else e) = es := by
    intro es
    refine (List.map_congr_left (g := id) fun e _ => ?_).trans (List.map_id _)
    split
    · next hfrom =>
      rw [← hfrom]
      rfl
    · rfl
  have hedges : ((f.edges.erase ⟨ib, ib⟩).filter fun e => e.ibeFrom ≠ ib ∧ e.ibeTo ≠ ib)
      = f.edges.filter fun e => e.ibeFrom ≠ ib ∧ e.ibeTo ≠ ib := by
    rw [erase_eq_filter hin, List.filter_filter]
    apply List.filter_congr
    intro e _
    by_cases hto : e.ibeTo = ib
    · simp [hto]
    · simp [hto]
  have hbbs := congrArg Function.bbs
    (bbDestroy_setInstrs f ib (instrsOf f ib).dropLast)
  unfold bbDestroy moveEdges
  rw [hmove]
  unfold bbDestroy at hbbs
  change (Function.mk _ ((f.edges.erase ⟨ib, ib⟩).filter _) f.dead) = _
  rw [hedges]
  exact congrArg (fun bbs => Function.mk bbs _ f.dead) hbbs

theorem Spins.iff (hf : Flow f) (hin : incoming f ib = [⟨ib, ib⟩]) (hends : EndsInBr f ib) :
    (Spins f ib ↔ (instrsOf (cutBranch (eliminateDeadCodeInBb f ib) ⟨ib, ib⟩) ib) ≠ [])
      ∧ (¬ Spins f ib → (instrsOf (eliminateDeadCodeInBb f ib) ib).length = 1) := by
  have hib : ib ∈ ids f :=
    (hf.edge _ (mem_incoming.mp (hin ▸ List.mem_singleton_self _)).1).1
  have hpruned := pruned_inBb f ib
  obtain ⟨i, hi, -⟩ := (hpruned.flow hf).last ib (hpruned.ids ▸ hib)
  have hpos : 0 < (instrsOf (eliminateDeadCodeInBb f ib) ib).length := by
    apply List.length_pos_of_ne_nil
    intro hnil
    rw [hnil] at hi
    exact nomatch hi
  have hcut : instrsOf (cutBranch (eliminateDeadCodeInBb f ib) ⟨ib, ib⟩) ib
      = (instrsOf (eliminateDeadCodeInBb f ib) ib).dropLast :=
    instrsOf_setInstrs_self (hpruned.ids ▸ hib) _
  have hspins : Spins f ib ↔ 1 < (instrsOf (eliminateDeadCodeInBb f ib) ib).length :=
    ⟨fun h => h.2.2, fun h => ⟨hin, hends, h⟩⟩
  rw [hspins, hcut]
  refine ⟨?_, fun h => by omega⟩
  rw [← List.length_pos_iff, List.length_dropLast]
  omega

theorem map_ok {x : Except Fault Function} {k : Function → Function} {g : Function}
    (h : x.map k = .ok g) : ∃ a, x = .ok a ∧ g = k a := by
  cases x with
  | error e => exact nomatch h
  | ok a => exact ⟨a, rfl, (Except.ok.inj h).symm⟩

theorem visited_of_ok {fuel : ℕ} {g : Function} (hf : Flow f) (h : visitBb fuel f ib = .ok g) :
    Visited f ib g := by
  match hin : incoming f ib with
  | [] =>
    unfold visitBb at h
    rw [hin] at h
    cases Except.ok.inj h
    exact .unreachable hin
  | e :: e' :: rest =>
    unfold visitBb at h
    rw [hin] at h
    cases Except.ok.inj h
    refine .stays (by rw [hin]; exact List.cons_ne_nil _ _) fun p hp => ?_
    rw [hin] at hp
    exact nomatch hp
  | [edge] =>
    have hedge := incoming_singleton hin
    have hpruned := pruned_inBb f ib
    obtain ⟨hmem, hto⟩ := mem_incoming.mp (hin ▸ List.mem_singleton_self edge)
    obtain ⟨hfromids, hib⟩ := hf.edge edge hmem
    rw [hto] at hib
    have hin' : incoming (eliminateDeadCodeInBb f ib) ib = [edge] := hpruned.incoming.trans hin
    rcases visitBb_of_merge fuel hf hin with ⟨hends, heq⟩ | ⟨hends, heq⟩
    · rw [heq] at h
      obtain ⟨k, hk, rfl⟩ := map_ok h
      by_cases hne : edge.ibeFrom = ib
      · rw [hne] at hedge hends hk ⊢
        rw [hedge] at hin hin' hk
        have hspin : ¬ Spins f ib := by
          intro hspins
          have hrest := (Spins.iff hf hin hends).1.mp hspins
          have hids : ib ∈ ids (cutBranch (eliminateDeadCodeInBb f ib) ⟨ib, ib⟩) :=
            mem_ids_of_instr (List.getElem?_eq_getElem (List.length_pos_of_ne_nil hrest))
          rw [moveInstrs_self hids hrest] at hk
          exact nomatch hk
        have hnil := not_not.mp (mt (Spins.iff hf hin hends).1.mpr hspin)
        have hkeep : k = cutBranch (eliminateDeadCodeInBb f ib) ⟨ib, ib⟩ := by
          cases fuel with
          | zero => exact nomatch hk
          | succ fuel =>
            unfold moveInstrs at hk
            rw [hnil] at hk
            exact (Except.ok.inj hk).symm
        rw [hkeep, bbDestroy_alone hin']
        exact .alone hin hends ((Spins.iff hf hin hends).2 hspin)
      · have hids : ids (cutBranch (eliminateDeadCodeInBb f ib) edge) = ids f :=
          (ids_setInstrs (f := eliminateDeadCodeInBb f ib) _).trans hpruned.ids
        have hmoved := moved_of_ok (hids ▸ hib) (hids ▸ hfromids) hne hk
        have hout := outgoing_of_endsInBr hf hends hfromids
        refine .merged (hedge ▸ hin) hne hends (merged_of_moved (hpruned.flow hf) hin' ?_ rfl hne
          hmoved)
        rw [hpruned.outgoing]
        exact hout
    · rw [heq] at h
      cases Except.ok.inj h
      refine .stays (by rw [hin]; exact List.cons_ne_nil _ _) fun p hp => ?_
      rw [hin] at hp
      cases (List.cons.inj hp).1
      exact hends

theorem visitBb_spins {fuel : ℕ} (hf : Flow f) (h : Spins f ib) :
    visitBb fuel f ib = .error .outOfFuel := by
  rcases visitBb_of_merge fuel hf h.1 with ⟨-, heq⟩ | ⟨hends, -⟩
  · have hrest := (Spins.iff hf h.1 h.2.1).1.mp h
    have hids : ib ∈ ids (cutBranch (eliminateDeadCodeInBb f ib) ⟨ib, ib⟩) :=
      mem_ids_of_instr (List.getElem?_eq_getElem (List.length_pos_of_ne_nil hrest))
    rw [heq, moveInstrs_self hids hrest]
    rfl
  · exact absurd h.2.1 hends

theorem visitBb_ok {fuel : ℕ} (hf : Flow f) (h : ¬ Spins f ib)
    (hfuel : (instrsOf f ib).length < fuel) : ∃ g, visitBb fuel f ib = .ok g := by
  match hin : incoming f ib with
  | [] =>
    unfold visitBb
    rw [hin]
    exact ⟨_, rfl⟩
  | _ :: _ :: _ =>
    unfold visitBb
    rw [hin]
    exact ⟨_, rfl⟩
  | [edge] =>
    have hpruned := pruned_inBb f ib
    obtain ⟨hmem, hto⟩ := mem_incoming.mp (hin ▸ List.mem_singleton_self edge)
    have hib : ib ∈ ids f := hto ▸ (hf.edge edge hmem).2
    rcases visitBb_of_merge fuel hf hin with ⟨hends, heq⟩ | ⟨-, heq⟩
    · have hids : ids (cutBranch (eliminateDeadCodeInBb f ib) edge) = ids f :=
        (ids_setInstrs (f := eliminateDeadCodeInBb f ib) _).trans hpruned.ids
      have hmove : ∃ k, moveInstrs ib edge.ibeFrom fuel
          (cutBranch (eliminateDeadCodeInBb f ib) edge) = .ok k := by
        by_cases hne : edge.ibeFrom = ib
        · have hedge := incoming_singleton hin
          rw [hne] at hedge hends
          rw [hedge] at hin ⊢
          have hnil := not_not.mp (mt (Spins.iff hf hin hends).1.mpr h)
          cases fuel with
          | zero => exact absurd hfuel (Nat.not_lt_zero _)
          | succ fuel =>
            unfold moveInstrs
            rw [hnil]
            exact ⟨_, rfl⟩
        · apply moveInstrs_ok (hids ▸ hib) hne
          have hsame : instrsOf (cutBranch (eliminateDeadCodeInBb f ib) edge) ib
              = instrsOf (eliminateDeadCodeInBb f ib) ib :=
            instrsOf_setInstrs_of_ne (Ne.symm hne) _
          rw [hsame]
          exact hpruned.instrs.length_le.trans_lt hfuel
      obtain ⟨k, hk⟩ := hmove
      rw [heq, hk]
      exact ⟨_, rfl⟩
    · exact ⟨_, heq⟩

theorem Visited.flow {g : Function} (h : Visited f ib g) (hf : Flow f) : Flow g := by
  have hpruned := pruned_inBb f ib
  cases h with
  | unreachable hin =>
    apply flow_bbDestroy hf
    rw [hin]
    exact fun e he => nomatch he
  | stays _ _ => exact hpruned.flow hf
  | @merged p g hin hne hends hm =>
    have hp : p ∈ ids f := (hf.edge _ (mem_incoming.mp (hin ▸ List.mem_singleton_self _)).1).1
    have hout := outgoing_of_endsInBr hf hends hp
    rw [← hpruned.outgoing] at hout
    have hm : Merged ib (Edge.mk p ib).ibeFrom _ g := hm
    exact hm.flow (hpruned.flow hf) (hpruned.incoming.trans hin) hout hne
  | alone hin _ _ =>
    apply flow_bbDestroy (hpruned.flow hf)
    rw [hpruned.incoming, hin]
    intro e he
    rw [List.mem_singleton.mp he]

end

end Vmir.DeadCodeFlow
