import Vmir.JitAnalyze

set_option autoImplicit false

/-!
# The clusters of JIT blocks

The recursion of `jit_bb_dfs` is a depth first search, so the list it makes is the cluster of the
block it starts from, and the loop over the clusters gives `iv_jit` to a value where a cluster that
defines it keeps it.
-/
namespace Vmir.JitClusters
open Ir JitAnalyze ClusterSearch
open DeadCode (Edge)

def searchMarks : Marks ℕ Search where
  seen s b := decide (b ∈ s.marked)
  visit := Search.take
  seen_visit := by
    intro s a b
    rw [decide_eq_true_iff, decide_eq_true_iff]
    exact List.mem_cons

section
variable (bbs : List Block) (edges : List Edge)

/-- The JIT blocks at the other ends of the edges of a block. -/
def neighbours (ib : ℕ) : List ℕ :=
  ((outgoing edges ib).map Edge.ibeTo).filter (isJit bbs)
    ++ ((incoming edges ib).map Edge.ibeFrom).filter (isJit bbs)

theorem foldlM_edges (far : Edge → ℕ) (fuel : ℕ) (hfuel : jitBbDfs bbs edges fuel
      = search searchMarks (neighbours bbs edges) fuel) (es : List Edge) (s : Search) :
    es.foldlM (fun s e => if isJit bbs (far e) ∧ far e ∉ s.marked then
        jitBbDfs bbs edges fuel s (far e) else some s) s
      = ((es.map far).filter (isJit bbs)).foldlM
          (turn searchMarks (neighbours bbs edges) fuel) s := by
  induction es generalizing s with
  | nil => rfl
  | cons e es ih =>
    have hturn : ∀ s : Search, turn searchMarks (neighbours bbs edges) fuel s (far e)
        = if far e ∈ s.marked then some s else jitBbDfs bbs edges fuel s (far e) := by
      intro s
      rw [hfuel]
      change (if decide (far e ∈ s.marked) = true then _ else _) = _
      simp only [decide_eq_true_eq]
    rw [List.foldlM_cons, List.map_cons, List.filter_cons]
    by_cases hjit : isJit bbs (far e) = true
    · rw [if_pos hjit, List.foldlM_cons, hturn]
      by_cases hmem : far e ∈ s.marked
      · rw [if_neg fun h => h.2 hmem, if_pos hmem]
        exact ih s
      · rw [if_pos ⟨hjit, hmem⟩, if_neg hmem]
        exact congrArg _ (funext ih)
    · rw [if_neg fun h => hjit h.1, if_neg hjit]
      exact ih s

theorem jitBbDfs_eq (fuel : ℕ) :
    jitBbDfs bbs edges fuel = search searchMarks (neighbours bbs edges) fuel := by
  induction fuel with
  | zero => rfl
  | succ fuel ih =>
    funext s ib
    rw [search_succ, neighbours, List.foldlM_append, ← foldlM_edges bbs edges _ fuel ih]
    change _ >>= _ = _ >>= _
    exact congrArg _ (funext fun s => foldlM_edges bbs edges _ fuel ih _ s)

end

section
variable {bbs : List Block} {edges : List Edge}

theorem mem_neighbours {a b : ℕ} : b ∈ neighbours bbs edges a
    ↔ (isJit bbs b = true ∧ ∃ e ∈ edges, e.ibeFrom = a ∧ e.ibeTo = b)
      ∨ (isJit bbs b = true ∧ ∃ e ∈ edges, e.ibeTo = a ∧ e.ibeFrom = b) := by
  simp only [neighbours, outgoing, incoming, List.mem_append, List.mem_filter, List.mem_map,
    decide_eq_true_eq]
  constructor
  · rintro (⟨⟨e, ⟨he, ha⟩, hb⟩, hjit⟩ | ⟨⟨e, ⟨he, ha⟩, hb⟩, hjit⟩)
    · exact Or.inl ⟨hjit, e, he, ha, hb⟩
    · exact Or.inr ⟨hjit, e, he, ha, hb⟩
  · rintro (⟨hjit, e, he, ha, hb⟩ | ⟨hjit, e, he, ha, hb⟩)
    · exact Or.inl ⟨⟨e, ⟨he, ha⟩, hb⟩, hjit⟩
    · exact Or.inr ⟨⟨e, ⟨he, ha⟩, hb⟩, hjit⟩

theorem isJit_of_neighbour {a b : ℕ} (h : b ∈ neighbours bbs edges a) : isJit bbs b = true := by
  rcases mem_neighbours.mp h with h | h
  · exact h.1
  · exact h.1

theorem neighbours_back {a b : ℕ} (ha : isJit bbs a = true) (h : b ∈ neighbours bbs edges a) :
    a ∈ neighbours bbs edges b := by
  apply mem_neighbours.mpr
  rcases mem_neighbours.mp h with ⟨-, e, he, hfrom, hto⟩ | ⟨-, e, he, hto, hfrom⟩
  · exact Or.inr ⟨ha, e, he, hto, hfrom⟩
  · exact Or.inl ⟨ha, e, he, hfrom, hto⟩

theorem isJit_of_reach {a b : ℕ} (ha : isJit bbs a = true)
    (h : Reach (neighbours bbs edges) a b) : isJit bbs b = true := by
  induction h with
  | refl => exact ha
  | tail _ hstep _ => exact isJit_of_neighbour hstep

theorem reach_back {a b : ℕ} (ha : isJit bbs a = true) (h : Reach (neighbours bbs edges) a b) :
    Reach (neighbours bbs edges) b a := by
  induction h with
  | refl => exact Relation.ReflTransGen.refl
  | tail hab hbc ih =>
    exact Relation.ReflTransGen.head (neighbours_back (isJit_of_reach ha hab) hbc) ih

/-- The state after the blocks `l` have been taken. -/
theorem foldl_take (l : List ℕ) (s : Search) : l.foldl Search.take s
    = ⟨s.jitbbs.diff l, l.reverse ++ s.cluster, l.reverse ++ s.marked⟩ := by
  induction l generalizing s with
  | nil => rfl
  | cons b l ih =>
    rw [List.foldl_cons, ih, List.reverse_cons, List.append_assoc, List.append_assoc,
      List.diff_cons]
    rfl

end

/-- Where the loop over the clusters is: `marked` blocks have been in a cluster, `jitbbs` are still
to come. -/
structure Pending (bbs : List Block) (edges : List Edge) (jitbbs marked : List ℕ) : Prop where
  nodup : jitbbs.Nodup
  split : ∀ b, isJit bbs b = true ↔ b ∈ jitbbs ∨ b ∈ marked
  apart : ∀ b ∈ jitbbs, b ∉ marked
  closed : ∀ b ∈ marked, ∀ c ∈ neighbours bbs edges b, c ∈ marked

section
variable {bbs : List Block} {edges : List Edge} {start : ℕ} {rest marked : List ℕ}

theorem isJit_mem_ids {b : ℕ} (h : isJit bbs b = true) : b ∈ bbs.map Block.id := by
  unfold isJit bbOf at h
  cases hfind : bbs.find? (fun ib => ib.id = b) with
  | none =>
    rw [hfind] at h
    cases h
  | some ib =>
    apply List.mem_map.mpr
    have hid := List.find?_some hfind
    exact ⟨ib, List.mem_of_find?_eq_some hfind, of_decide_eq_true hid⟩

theorem Pending.marked_of_reach {jitbbs : List ℕ} (h : Pending bbs edges jitbbs marked) {a b : ℕ}
    (ha : a ∈ marked) (hab : Reach (neighbours bbs edges) a b) : b ∈ marked := by
  induction hab with
  | refl => exact ha
  | tail _ hstep ih => exact h.closed _ ih _ hstep

theorem Pending.search (h : Pending bbs edges (start :: rest) marked) :
    ∃ l : List ℕ, (jitBbDfs bbs edges bbs.length ⟨start :: rest, [], marked⟩ start
        = some ⟨(start :: rest).diff l, l.reverse, l.reverse ++ marked⟩)
      ∧ (∀ b, b ∈ l ↔ Reach (neighbours bbs edges) start b)
      ∧ Pending bbs edges ((start :: rest).diff l) (l.reverse ++ marked) := by
  have hjit : isJit bbs start = true := (h.split start).mpr (Or.inl List.mem_cons_self)
  have hfresh : searchMarks.seen ⟨start :: rest, [], marked⟩ start = false :=
    decide_eq_false (h.apart start List.mem_cons_self)
  have hclosed : ∀ b ∈ bbs.map Block.id, ∀ c ∈ neighbours bbs edges b, c ∈ bbs.map Block.id :=
    fun b _ c hc => isJit_mem_ids (isJit_of_neighbour hc)
  have hfuel : unseen searchMarks (bbs.map Block.id) ⟨start :: rest, [], marked⟩ ≤ bbs.length := by
    have hle := List.countP_le_length
      (p := fun b => !searchMarks.seen ⟨start :: rest, [], marked⟩ b) (l := bbs.map Block.id)
    rw [List.length_map] at hle
    exact hle
  obtain ⟨t, ht⟩ := search_total hclosed (isJit_mem_ids hjit) hfresh hfuel
  obtain ⟨l, hl, hstart, hreach⟩ := search_sound _ _ _ _ hfresh ht
  have hmem : ∀ b, b ∈ l ↔ Reach (neighbours bbs edges) start b := by
    intro b
    apply hl.mem_iff hstart hreach
    · intro b c hb hc
      exact neighbours_back (isJit_of_reach hjit hb) hc
    · intro b hb c hc
      exact decide_eq_true (h.closed b (of_decide_eq_true hb) c hc)
  have hdiff : ∀ b, b ∈ (start :: rest).diff l ↔ b ∈ start :: rest ∧ b ∉ l :=
    fun b => h.nodup.mem_sdiff_iff
  refine ⟨l, ?_, hmem, h.nodup.diff, ?_, ?_, ?_⟩
  · rw [jitBbDfs_eq, ht, hl.final]
    change some (l.foldl Search.take _) = _
    rw [foldl_take]
    simp only [List.append_nil]
  · intro b
    rw [hdiff, h.split, List.mem_append, List.mem_reverse]
    have hb : b ∈ l → b ∈ start :: rest ∨ b ∈ marked := fun hb =>
      (h.split b).mp (isJit_of_reach hjit ((hmem b).mp hb))
    tauto
  · intro b hb hin
    rcases List.mem_append.mp hin with hl' | hm
    · exact ((hdiff b).mp hb).2 (List.mem_reverse.mp hl')
    · exact h.apart b ((hdiff b).mp hb).1 hm
  · intro b hb c hc
    apply List.mem_append.mpr
    rcases List.mem_append.mp hb with hl' | hm
    · have hb' := (hmem b).mp (List.mem_reverse.mp hl')
      exact Or.inl (List.mem_reverse.mpr ((hmem c).mpr (hb'.tail hc)))
    · exact Or.inr (h.closed b hm c hc)

end

section
variable {bbs : List Block} {edges : List Edge} {isTemporary : ℕ → Bool}

theorem mem_foldr_union {l : List (Finset ℕ)} {v : ℕ} :
    v ∈ l.foldr (· ∪ ·) ∅ ↔ ∃ s ∈ l, v ∈ s := by
  induction l with
  | nil => simp
  | cons s l ih =>
    rw [List.foldr_cons, Finset.mem_union, ih, List.exists_mem_cons_iff]

theorem mem_blockMask {b v : ℕ} : v ∈ blockMask bbs edges b
    ↔ (∃ e ∈ edges, e.ibeFrom = b ∧ isJit bbs e.ibeTo = false ∧ v ∈ liveInto bbs e.ibeTo)
      ∨ ∃ e ∈ edges, e.ibeTo = b ∧ isJit bbs e.ibeFrom = false ∧ v ∈ liveOut bbs e.ibeFrom := by
  simp only [blockMask, outgoing, incoming, Finset.mem_union, mem_foldr_union, List.mem_map,
    List.mem_filter, decide_eq_true_eq, Bool.not_eq_true', exists_exists_and_eq_and]
  simp only [and_assoc]

theorem mem_clusterMask {cluster : List ℕ} {v : ℕ} :
    v ∈ clusterMask bbs edges cluster ↔ ∃ b ∈ cluster, v ∈ blockMask bbs edges b := by
  simp only [clusterMask, mem_foldr_union, List.mem_map, exists_exists_and_eq_and]

theorem foldlM_giveMachineReg (mask : Finset ℕ) {is : List JitInstr}
    (htemp : ∀ ii ∈ is, ∀ v, result ii = some v → isTemporary v = true) (ivJit : List ℕ) :
    ∃ given, is.foldlM (giveMachineReg bbs isTemporary mask) ivJit = .ok given ∧
      ∀ v, v ∈ given ↔ v ∈ ivJit
        ∨ ∃ ii ∈ is, result ii = some v ∧ v ∉ mask ∧ allJit bbs v = true := by
  induction is generalizing ivJit with
  | nil =>
    refine ⟨ivJit, rfl, fun v => ?_⟩
    simp
  | cons ii is ih =>
    have hturn : ∃ given, giveMachineReg bbs isTemporary mask ivJit ii = .ok given ∧
        ∀ v, v ∈ given ↔ v ∈ ivJit ∨ (result ii = some v ∧ v ∉ mask ∧ allJit bbs v = true) := by
      unfold giveMachineReg
      cases hres : result ii with
      | none =>
        refine ⟨ivJit, rfl, fun v => ?_⟩
        simp
      | some w =>
        simp only [htemp ii List.mem_cons_self w hres, if_true]
        by_cases hmask : w ∈ mask
        · refine ⟨ivJit, if_pos hmask, fun v => ?_⟩
          constructor
          · exact Or.inl
          · rintro (hv | ⟨hw, hv, -⟩)
            · exact hv
            · cases hw
              exact absurd hmask hv
        · refine ⟨_, if_neg hmask, fun v => ?_⟩
          by_cases hall : allJit bbs w = true
          · rw [if_pos hall, List.mem_cons]
            constructor
            · rintro (rfl | hv)
              · exact Or.inr ⟨rfl, hmask, hall⟩
              · exact Or.inl hv
            · rintro (hv | ⟨hw, -⟩)
              · exact Or.inr hv
              · cases hw
                exact Or.inl rfl
          · rw [if_neg hall]
            constructor
            · exact Or.inl
            · rintro (hv | ⟨hw, -, hv⟩)
              · exact hv
              · cases hw
                exact absurd hv hall
    obtain ⟨first, hfirst, hmem⟩ := hturn
    obtain ⟨given, hgiven, hmem'⟩ :=
      ih (fun ii' h => htemp ii' (List.mem_cons_of_mem _ h)) first
    refine ⟨given, ?_, fun v => ?_⟩
    · rw [List.foldlM_cons, hfirst]
      exact hgiven
    · rw [hmem', hmem, List.exists_mem_cons_iff, or_assoc]

/-- The value is a result of the block, and the block's cluster has it neither in the mask nor in an
instruction that is not compiled. -/
def Given (bbs : List Block) (edges : List Edge) (b v : ℕ) : Prop :=
  (∃ ii ∈ (bbOf bbs b).elim [] Block.instrs, result ii = some v) ∧ allJit bbs v = true
    ∧ ∀ c, Reach (neighbours bbs edges) b c → v ∉ blockMask bbs edges c

theorem mem_clusterInstrs {cluster : List ℕ} {ii : JitInstr} : ii ∈ clusterInstrs bbs cluster
    ↔ ∃ b ∈ cluster, ii ∈ (bbOf bbs b).elim [] Block.instrs := List.mem_flatMap

theorem visitClusters_ok
    (htemp : ∀ ib ∈ bbs, ib.jit = true → ∀ ii ∈ ib.instrs, ∀ v, result ii = some v →
      isTemporary v = true) {fuel : ℕ} {jitbbs marked : List ℕ} (h : Pending bbs edges jitbbs marked)
    (hfuel : jitbbs.length ≤ fuel) (ivJit : List ℕ) :
    ∃ given, visitClusters bbs edges isTemporary fuel jitbbs marked ivJit = .ok given ∧
      ∀ v, v ∈ given ↔ v ∈ ivJit ∨ ∃ b ∈ jitbbs, Given bbs edges b v := by
  induction fuel generalizing jitbbs marked ivJit with
  | zero =>
    rw [List.eq_nil_of_length_eq_zero (Nat.le_zero.mp hfuel)]
    refine ⟨ivJit, rfl, fun v => ?_⟩
    simp
  | succ fuel ih =>
    cases jitbbs with
    | nil =>
      refine ⟨ivJit, rfl, fun v => ?_⟩
      simp
    | cons start rest =>
      obtain ⟨l, hsearch, hmem, hpending⟩ := h.search
      have hstart : start ∈ l := (hmem start).mpr Relation.ReflTransGen.refl
      have hjit : isJit bbs start = true := (h.split start).mpr (Or.inl List.mem_cons_self)
      have hshorter : ((start :: rest).diff l).length ≤ fuel := by
        have hlt : ((start :: rest).diff l).length < (start :: rest).length := by
          apply Nat.lt_of_le_of_ne (List.diff_sublist _ _).length_le
          intro heq
          have hsame : (start :: rest).diff l = start :: rest :=
            (List.diff_sublist _ _).eq_of_length heq
          have hmem : start ∈ (start :: rest).diff l := by
            rw [hsame]
            exact List.mem_cons_self
          exact (h.nodup.mem_sdiff_iff.mp hmem).2 hstart
        rw [List.length_cons] at hlt hfuel
        omega
      have htemps : ∀ ii ∈ clusterInstrs bbs l.reverse, ∀ v, result ii = some v →
          isTemporary v = true := by
        intro ii hii v hv
        obtain ⟨b, hbl, hb⟩ := mem_clusterInstrs.mp hii
        have hbjit : isJit bbs b = true :=
          isJit_of_reach hjit ((hmem b).mp (List.mem_reverse.mp hbl))
        unfold isJit at hbjit
        cases hbb : bbOf bbs b with
        | none =>
          rw [hbb] at hb
          exact absurd hb List.not_mem_nil
        | some ib =>
          rw [hbb] at hb hbjit
          exact htemp ib (List.mem_of_find?_eq_some hbb) hbjit ii hb v hv
      obtain ⟨first, hfirst, hin⟩ :=
        foldlM_giveMachineReg (clusterMask bbs edges l.reverse) htemps ivJit
      obtain ⟨given, hgiven, hin'⟩ := ih hpending hshorter first
      refine ⟨given, ?_, fun v => ?_⟩
      · rw [visitClusters, hsearch]
        change (clusterInstrs bbs l.reverse).foldlM _ ivJit >>= _ = _
        rw [hfirst]
        exact hgiven
      · have hcluster : (∃ ii ∈ clusterInstrs bbs l.reverse, result ii = some v
            ∧ v ∉ clusterMask bbs edges l.reverse ∧ allJit bbs v = true)
            ↔ ∃ b ∈ l, Given bbs edges b v := by
          constructor
          · rintro ⟨ii, hii, hres, hmask, hall⟩
            obtain ⟨b, hb, hmemb⟩ := mem_clusterInstrs.mp hii
            have hbl : b ∈ l := List.mem_reverse.mp hb
            refine ⟨b, hbl, ⟨ii, hmemb, hres⟩, hall, fun c hc hbad => ?_⟩
            apply hmask
            apply mem_clusterMask.mpr
            have hsc : Reach (neighbours bbs edges) start c := ((hmem b).mp hbl).trans hc
            exact ⟨c, List.mem_reverse.mpr ((hmem c).mpr hsc), hbad⟩
          · rintro ⟨b, hbl, ⟨ii, hii, hres⟩, hall, hmask⟩
            refine ⟨ii, mem_clusterInstrs.mpr ⟨b, List.mem_reverse.mpr hbl, hii⟩, hres, ?_, hall⟩
            intro hbad
            obtain ⟨c, hc, hcv⟩ := mem_clusterMask.mp hbad
            have hsc := (hmem c).mp (List.mem_reverse.mp hc)
            exact hmask c ((reach_back hjit ((hmem b).mp hbl)).trans hsc) hcv
        rw [hin', hin, hcluster, or_assoc]
        apply or_congr_right
        constructor
        · rintro (⟨b, hb, hgiven⟩ | ⟨b, hb, hgiven⟩)
          · have hbjit := isJit_of_reach hjit ((hmem b).mp hb)
            have hnot : b ∉ marked := fun hm => h.apart start List.mem_cons_self
              (h.marked_of_reach hm (reach_back hjit ((hmem b).mp hb)))
            exact ⟨b, ((h.split b).mp hbjit).resolve_right hnot, hgiven⟩
          · exact ⟨b, (h.nodup.mem_sdiff_iff.mp hb).1, hgiven⟩
        · rintro ⟨b, hb, hgiven⟩
          by_cases hbl : b ∈ l
          · exact Or.inl ⟨b, hbl, hgiven⟩
          · exact Or.inr ⟨b, h.nodup.mem_sdiff_iff.mpr ⟨hb, hbl⟩, hgiven⟩

end

end Vmir.JitClusters
