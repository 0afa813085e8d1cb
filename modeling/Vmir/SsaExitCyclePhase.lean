import Vmir.SsaExitNodeList

set_option autoImplicit false

namespace Vmir.SsaExit
open IntrusiveList ParallelCopy Ir

/-- A state in which the copies `rest` are to be made: `Progress`, the listed nodes are the
destinations, and what the second phase leaves alone. -/
structure Pending (all : List PhiLiftEdge) (next : ℕ) (rest : List PhiLiftEdge)
    (copies : Set (Copy ℕ)) (g : PhiLift) : Prop where
  dst : ∀ v e, g.dst v = some e ↔ e ∈ all ∧ e.dst = v
  vt : ∀ v t, g.vt v = some t → t.value = v
  nextValue : next ≤ g.nextValue
  nodes : ∃ l, Linked g.nodes l ∧ ∀ v, v ∈ l ↔ ∃ e ∈ rest, e.dst = v
  progress : ∀ (β : Type) (env : ℕ → β), Progress (· < next) (goal all env) copies
    (runCopies (valueCopies g.moves) env)

section Pending
variable {all rest : List PhiLiftEdge} {next : ℕ} {g : PhiLift} {copies : Set (Copy ℕ)}

theorem Pending.move (hg : CopyGraph all next) (h : Pending all next rest copies g)
    (hsub : ∀ d ∈ rest, d ∈ all) {e : PhiLiftEdge} (he : e ∈ rest) (value : ValueType)
    (hc : (⟨e.dst, value.value⟩ : Copy ℕ) ∈ copies)
    (hleaf : ∀ d ∈ copies, d ≠ ⟨e.dst, value.value⟩ → d.src ≠ e.dst) :
    Pending all next (rest.filter (· ≠ e)) (copies \ {⟨e.dst, value.value⟩})
      (cycleMove g e.dst value) := by
  refine
    { dst := h.dst
      vt := h.vt
      nextValue := h.nextValue
      nodes := ?_
      progress := ?_ }
  · obtain ⟨l, hl, hmem⟩ := h.nodes
    obtain ⟨l₁, l₂, rfl⟩ := List.append_of_mem ((hmem e.dst).mpr ⟨e, he, rfl⟩)
    refine ⟨l₁ ++ l₂, remove_linked hl, fun v => ?_⟩
    have hnd := List.nodup_cons.mp (List.nodup_middle.mp hl.nodup)
    constructor
    · intro hv
      obtain ⟨d, hd, rfl⟩ := (hmem v).mp (by
        simp only [List.mem_append, List.mem_cons] at hv ⊢
        tauto)
      have hne : d ≠ e := fun h' => hnd.1 (h' ▸ hv)
      exact ⟨d, List.mem_filter.mpr ⟨hd, by simpa using hne⟩, rfl⟩
    · rintro ⟨d, hd, rfl⟩
      obtain ⟨hd, hne⟩ := List.mem_filter.mp hd
      have hdst : d.dst ≠ e.dst := fun h' => by
        simp [hg.eq_of_dst (hsub d hd) (hsub e he) h'] at hne
      have := (hmem d.dst).mpr ⟨d, hd, rfl⟩
      simp only [List.mem_append, List.mem_cons] at this ⊢
      tauto
  · intro β env
    change Progress _ _ _
      (runCopies (valueCopies (insertMove g (g.plnVt e.dst) value).moves) env)
    rw [valueCopies_insertMove, runCopies_concat, plnVt_value h.vt]
    exact (h.progress β env).leaf hc hleaf

end Pending

/-- Where the walk along the cycle through `start` has got to: it stands at `cur`, the copies
`rest` of the copies `cycles` are still to be made, and the one that reads `start` is to read
`tmp` instead. -/
structure Walk (cycles rest : List PhiLiftEdge) (start cur : ℕ) : Prop where
  sub : rest.Sublist cycles
  into : ∃ e ∈ rest, e.dst = cur
  /-- The copy into `start` was made first. -/
  begun : ∀ d ∈ rest, d.dst = start → cur = start
  /-- What `cur` held has been read, unless it is `start`. -/
  free : ∀ d ∈ rest, d.src = cur → cur = start
  /-- What a written node held has been read before, unless it is `start`. -/
  served : ∀ d ∈ cycles, d ∉ rest → d.dst = start ∨ ∀ r ∈ rest, r.src ≠ d.dst
  /-- The walk has followed every copy it made. -/
  followed : ∀ d ∈ cycles, d ∉ rest → ∀ e ∈ rest, e.dst = d.src → e.dst = cur

/-- The copies left after the first phase: every destination is read. -/
structure Cycles (all cycles : List PhiLiftEdge) : Prop where
  sub : cycles.Sublist all
  read : ∀ c ∈ cycles, ∃ d ∈ cycles, d.src = c.dst

section Cycles
variable {all cycles rest : List PhiLiftEdge} {next : ℕ} {g : PhiLift}

theorem Cycles.permutation (hg : CopyGraph all next) (h : Cycles all cycles) :
    (cycles.map Copy.src).Nodup ∧ ∀ c ∈ cycles, ∃ d ∈ cycles, d.dst = c.src :=
  sources_of_all_read (hg.distinct.sublist (h.sub.map Copy.dst)) h.read

theorem Cycles.eq_of_src (hg : CopyGraph all next) (h : Cycles all cycles) {c d : PhiLiftEdge}
    (hc : c ∈ cycles) (hd : d ∈ cycles) (hcd : c.src = d.src) : c = d :=
  List.inj_on_of_nodup_map (h.permutation hg).1 hc hd hcd

theorem redirect_injOn (hg : CopyGraph all next) {s t : ℕ} {c d : PhiLiftEdge} (hc : c ∈ all)
    (hd : d ∈ all) (hcd : redirect s t c = redirect s t d) : c = d := by
  refine hg.eq_of_dst hc hd ?_
  rw [← redirect_dst s t c, hcd, redirect_dst]

theorem redirect_diff (hg : CopyGraph all next) {s t : ℕ} (hsub : ∀ d ∈ rest, d ∈ all)
    {e : PhiLiftEdge} (he : e ∈ rest) :
    redirect s t '' edgeSet rest \ {redirect s t e} =
      redirect s t '' edgeSet (rest.filter (· ≠ e)) := by
  ext c
  rw [edgeSet_filter]
  constructor
  · rintro ⟨⟨d, hd, rfl⟩, hne⟩
    exact ⟨d, ⟨hd, fun h' => hne (by rw [h']; rfl)⟩, rfl⟩
  · rintro ⟨d, ⟨hd, hne⟩, rfl⟩
    exact ⟨⟨d, hd, rfl⟩, fun h' => hne (redirect_injOn hg (hsub d hd) (hsub e he) h')⟩

/-- One step of the walk: the copy into `cur` is made and the walk moves to its source. -/
theorem Walk.step (hg : CopyGraph all next) (hc : Cycles all cycles) {start cur : ℕ}
    (h : Walk cycles rest start cur) {e : PhiLiftEdge} (he : e ∈ rest) (hcur : e.dst = cur)
    (hne : e.src ≠ start) : Walk cycles (rest.filter (· ≠ e)) start e.src := by
  have hec := h.sub.subset he
  have hmem : ∀ d, d ∈ rest.filter (· ≠ e) ↔ d ∈ rest ∧ d ≠ e := by
    intro d
    rw [List.mem_filter]
    simp
  refine
    { sub := List.filter_sublist.trans h.sub
      into := ?_
      begun := ?_
      free := ?_
      served := ?_
      followed := ?_ }
  · obtain ⟨d, hd, hds⟩ := (hc.permutation hg).2 e hec
    have hde : d ≠ e := fun h' => hg.noSelf e (hc.sub.subset hec) (by rw [← hds, h'])
    refine ⟨d, (hmem d).mpr ⟨?_, hde⟩, hds⟩
    by_contra hdr
    rcases h.served d hd hdr with hs | hs
    · exact hne (hds.symm.trans hs)
    · exact hs e he hds.symm
  · intro d hd hds
    obtain ⟨hd, hde⟩ := (hmem d).mp hd
    have hstart := hcur.trans (h.begun d hd hds)
    exact absurd (hg.eq_of_dst (hc.sub.subset (h.sub.subset hd)) (hc.sub.subset hec)
      (hds.trans hstart.symm)) hde
  · intro d hd hds
    obtain ⟨hd, hde⟩ := (hmem d).mp hd
    exact absurd (hc.eq_of_src hg (h.sub.subset hd) hec hds) hde
  · intro d hd hdr
    by_cases hde : d = e
    · subst hde
      by_cases hs : d.dst = start
      · exact Or.inl hs
      · refine Or.inr fun r hr hrs => hs ?_
        rw [hcur] at hrs ⊢
        exact h.free r ((hmem r).mp hr).1 hrs
    · rcases h.served d hd (fun h' => hdr ((hmem d).mpr ⟨h', hde⟩)) with hs | hs
      · exact Or.inl hs
      · exact Or.inr fun r hr => hs r ((hmem r).mp hr).1
  · intro d hd hdr r hr hrd
    obtain ⟨hr, hre⟩ := (hmem r).mp hr
    by_cases hde : d = e
    · rw [hrd, hde]
    · have := h.followed d hd (fun h' => hdr ((hmem d).mpr ⟨h', hde⟩)) r hr hrd
      exact absurd (hg.eq_of_dst (hc.sub.subset (h.sub.subset hr)) (hc.sub.subset hec)
        (this.trans hcur.symm)) hre

/-- While the walk stands at `cur`, no pending copy reads `cur`. -/
theorem Walk.leaf {start cur tmp : ℕ} (h : Walk cycles rest start cur) (htmp : tmp ≠ cur) :
    ∀ d ∈ redirect start tmp '' edgeSet rest, d.src ≠ cur := by
  rintro _ ⟨c, hc, rfl⟩
  by_cases hs : c.src = start
  · rw [redirect_of_eq hs]
    exact htmp
  · rw [redirect_of_ne hs]
    exact fun hcur => hs (hcur.trans (h.free c hc hcur))

theorem cycleWalk_ok (hg : CopyGraph all next) (hc : Cycles all cycles) {n start cur tmp : ℕ}
    (hn : rest.length ≤ n) (htmp : next ≤ tmp) (hw : Walk cycles rest start cur)
    (hp : Pending all next rest (redirect start tmp '' edgeSet rest) g) :
    ∃ g' rest' e, cycleWalk n start cur g = .ok (g', e.dst) ∧ Walk cycles rest' start e.dst ∧
      e ∈ rest' ∧ e.src = start ∧ rest'.length ≤ rest.length ∧
      Pending all next rest' (redirect start tmp '' edgeSet rest') g' := by
  induction n generalizing rest cur g with
  | zero =>
    obtain ⟨e, he, _⟩ := hw.into
    rw [List.length_eq_zero_iff.mp (Nat.le_zero.mp hn)] at he
    simp at he
  | succ n ih =>
    obtain ⟨e, he, hcur⟩ := hw.into
    have hall : ∀ d ∈ rest, d ∈ all := fun d hd => hc.sub.subset (hw.sub.subset hd)
    have hdst : g.dst cur = some e := (hp.dst cur e).mpr ⟨hall e he, hcur⟩
    rw [cycleWalk, hdst]
    by_cases hs : e.src = start
    · exact ⟨g, rest, e, by simp [hs, hcur], hcur ▸ hw, he, hs, le_rfl, hp⟩
    · have hvalue : (⟨e.dst, (g.plnVt e.src).value⟩ : Copy ℕ) = redirect start tmp e := by
        rw [redirect_of_ne hs, plnVt_value hp.vt]
      have hbound := (hg.bound e (hall e he)).2
      have hmove := hp.move hg hall he (g.plnVt e.src)
        (by rw [hvalue]; exact Set.mem_image_of_mem _ he)
        (fun d hd _ => hcur ▸ hw.leaf (by omega) d hd)
      rw [hvalue, redirect_diff hg hall he, hcur] at hmove
      have hlt : (rest.filter (· ≠ e)).length < rest.length :=
        List.length_filter_lt_length_iff_exists.mpr ⟨e, he, by simp⟩
      obtain ⟨g', rest', e', h1, h2, h3, h4, h5, h6⟩ :=
        ih (by omega) (hw.step hg hc he hcur hs) hmove
      exact ⟨g', rest', e', (if_neg hs).trans h1, h2, h3, h4, by omega, h6⟩

/-- When the walk is back at `start`, the cycle can be closed and every other cycle is intact. -/
theorem Walk.close (hg : CopyGraph all next) (hc : Cycles all cycles) {start : ℕ}
    {e : PhiLiftEdge} (h : Walk cycles rest start e.dst) (he : e ∈ rest) (hs : e.src = start) :
    Cycles all (rest.filter (· ≠ e)) := by
  refine ⟨List.filter_sublist.trans (h.sub.trans hc.sub), fun c hmem => ?_⟩
  obtain ⟨hcr, hce⟩ := List.mem_filter.mp hmem
  have hall : ∀ d ∈ rest, d ∈ all := fun d hd => hc.sub.subset (h.sub.subset hd)
  have hne : c.dst ≠ e.dst := fun h' => by simp [hg.eq_of_dst (hall c hcr) (hall e he) h'] at hce
  obtain ⟨d, hd, hds⟩ := hc.read c (h.sub.subset hcr)
  have hdr : d ∈ rest := by
    by_contra hdr
    exact hne (h.followed d hd hdr c hcr hds.symm)
  refine ⟨d, List.mem_filter.mpr ⟨hdr, ?_⟩, hds⟩
  have : d ≠ e := by
    rintro rfl
    have hcs : c.dst = start := hds.symm.trans hs
    exact hne (hcs.trans (h.begun c hcr hcs).symm)
  simpa using this

theorem Walk.start {start : ℕ} (h : ∃ e ∈ cycles, e.dst = start) : Walk cycles cycles start start :=
  { sub := List.Sublist.refl _
    into := h
    begun := fun _ _ _ => rfl
    free := fun _ _ _ => rfl
    served := fun _ hd hn => absurd hd hn
    followed := fun _ hd hn => absurd hd hn }

theorem cyclePhase_ok (hg : CopyGraph all next) {n : ℕ} (hc : Cycles all cycles)
    (hn : cycles.length < n) (hp : Pending all next cycles (edgeSet cycles) g) :
    ∃ g', cyclePhase n g = .ok g' ∧ Pending all next [] ∅ g' := by
  induction n generalizing cycles g with
  | zero => omega
  | succ n ih =>
    obtain ⟨l, hl, hmem⟩ := hp.nodes
    rw [cyclePhase]
    cases l with
    | nil =>
      have hnil : cycles = [] := List.eq_nil_iff_forall_not_mem.mpr fun e he => by
        simpa using (hmem e.dst).mpr ⟨e, he, rfl⟩
      subst hnil
      have hempty : edgeSet [] = ∅ := by
        ext e
        simp [edgeSet]
      have hfirst : g.nodes.first = none := hl.first
      rw [hfirst]
      exact ⟨g, rfl, hempty ▸ hp⟩
    | cons start l =>
      have hfirst : g.nodes.first = some start := hl.first
      have hstart : ∃ e ∈ cycles, e.dst = start := (hmem start).mp (by simp)
      rw [hfirst]
      have hall : ∀ d ∈ cycles, d ∈ all := fun d hd => hc.sub.subset hd
      -- The temporary takes over from `start`.
      have hsave : Pending all next cycles (redirect start g.nextValue '' edgeSet cycles)
          (saveStart g start) :=
        { dst := hp.dst
          vt := hp.vt
          nextValue := Nat.le_succ_of_le hp.nextValue
          nodes := ⟨start :: l, hl, hmem⟩
          progress := fun β env => by
            rw [saveStart, valueCopies_insertMove, runCopies_concat, plnVt_value hp.vt]
            have hnext := hp.nextValue
            refine (hp.progress β env).save (by omega) fun c hcm => ?_
            have := (hg.bound c (hall c hcm)).1
            omega }
      obtain ⟨g₂, rest, e, hwalk, hw, he, hs, hle, hp₂⟩ :=
        cycleWalk_ok hg hc (n := n) (by omega) hp.nextValue (Walk.start hstart) hsave
      have hrall : ∀ d ∈ rest, d ∈ all := fun d hd => hall d (hw.sub.subset hd)
      have htmp : (⟨e.dst, (tmpreg g start).value⟩ : Copy ℕ) = redirect start g.nextValue e :=
        (redirect_of_eq hs).symm
      have hmove := hp₂.move hg hrall he (tmpreg g start)
        (by rw [htmp]; exact Set.mem_image_of_mem _ he)
        (fun d hd _ => hw.leaf (by
          have := (hg.bound e (hrall e he)).2
          have := hp.nextValue
          omega) d hd)
      rw [htmp, redirect_diff hg hrall he] at hmove
      -- Nothing else read `start`.
      have hsame : redirect start g.nextValue '' edgeSet (rest.filter (· ≠ e)) =
          edgeSet (rest.filter (· ≠ e)) := by
        refine (Set.image_congr fun c hcm => ?_).trans (Set.image_id _)
        obtain ⟨hcr, hce⟩ := List.mem_filter.mp hcm
        refine redirect_of_ne fun hcs => ?_
        simp [hc.eq_of_src hg (hw.sub.subset hcr) (hw.sub.subset he) (hcs.trans hs.symm)] at hce
      rw [hsame] at hmove
      have hlt : (rest.filter (· ≠ e)).length < rest.length :=
        List.length_filter_lt_length_iff_exists.mpr ⟨e, he, by simp⟩
      obtain ⟨g', h1, h2⟩ := ih (hw.close hg hc he hs) (by omega) hmove
      refine ⟨g', ?_, h2⟩
      change (cycleWalk n start start (saveStart g start) >>= _) = _
      rw [hwalk]
      exact h1

end Cycles

end Vmir.SsaExit
