import Vmir.JitAnalyze

set_option autoImplicit false

/-!
# The pieces of the blocks

What the splitting of `jit_analyze` makes of a function: one block for each stretch of equally
marked instructions, linked by the branches it adds.
-/
namespace Vmir.JitSplit
open Ir JitAnalyze
open DeadCode (Edge)

/-- The longest runs of equally marked instructions of a block. -/
def stretches (is : List JitInstr) : List (List JitInstr) :=
  is.splitBy fun i j => i.jit == j.jit

def mark (s : List JitInstr) : Bool := s.head?.elim false JitInstr.jit

/-- The branch that is put behind a stretch that is not the last of its block. -/
def pieceEnd (newbb : ℕ) (s : List JitInstr) : List JitInstr :=
  s.getLast?.toList.map (pieceBranch newbb (mark s))

/-- The blocks for the stretches of a block `id`, with the new ones numbered from `n`. -/
def pieces : ℕ → ℕ → List (List JitInstr) → List Block
  | _, _, [] => []
  | _, id, [s] => [⟨id, s, mark s⟩]
  | n, id, s :: s' :: ss => ⟨id, s ++ pieceEnd n s, mark s⟩ :: pieces (n + 1) n (s' :: ss)

def links : List Block → List Edge
  | B :: C :: Bs => ⟨B.id, C.id⟩ :: links (C :: Bs)
  | _ => []

def lastId (id : ℕ) (ps : List Block) : ℕ := ps.getLast?.elim id Block.id

def jitIds (bbs : List Block) : List ℕ := (bbs.filter Block.jit).map Block.id

/-- The blocks of a function with their pieces. -/
def layout : ℕ → List Block → List (ℕ × List Block)
  | _, [] => []
  | n, ib :: rest =>
    let ps := pieces n ib.id (stretches ib.instrs)
    (ib.id, ps) :: layout (n + (ps.length - 1)) rest

section
variable {n id : ℕ} {s : List JitInstr} {ss : List (List JitInstr)}

theorem pieces_length (n id : ℕ) (ss : List (List JitInstr)) :
    (pieces n id ss).length = ss.length := by
  induction ss generalizing n id with
  | nil => rfl
  | cons s ss ih =>
    cases ss with
    | nil => rfl
    | cons s' ss => exact congrArg (· + 1) (ih (n + 1) n)

theorem stretches_ne_nil {is : List JitInstr} (h : is ≠ []) : stretches is ≠ [] :=
  List.splitBy_ne_nil.mpr h

theorem pieces_ne_nil (h : ss ≠ []) : pieces n id ss ≠ [] := by
  intro hnil
  have := pieces_length n id ss
  rw [hnil] at this
  exact h (List.eq_nil_of_length_eq_zero this.symm)

theorem stretches_single {is : List JitInstr} {jit : Bool} (hne : is ≠ [])
    (h : ∀ i ∈ is, i.jit = jit) : stretches is = [is] := by
  apply List.splitBy_of_isChain hne
  apply List.Pairwise.isChain
  apply List.pairwise_of_forall_mem_list
  intro i hi j hj
  rw [h i hi, h j hj]
  exact beq_self_eq_true jit

theorem stretches_cut {is rest : List JitInstr} {ii : JitInstr} {jit : Bool} (hne : is ≠ [])
    (h : ∀ i ∈ is, i.jit = jit) (hii : ii.jit ≠ jit) :
    stretches (is ++ ii :: rest) = is :: stretches (ii :: rest) := by
  have hcut := List.splitBy_append_cons (r := fun i j : JitInstr => i.jit == j.jit) (l := is)
    (a := ii) rest fun x hx => by
      rw [h x (List.mem_of_getLast? hx), beq_eq_false_iff_ne]
      exact Ne.symm hii
  calc
    stretches (is ++ ii :: rest) = stretches is ++ stretches (ii :: rest) := hcut
    _ = is :: stretches (ii :: rest) := by rw [stretches_single hne h]; rfl

theorem mark_eq {jit : Bool} (hne : s ≠ []) (h : ∀ i ∈ s, i.jit = jit) : mark s = jit := by
  cases s with
  | nil => exact absurd rfl hne
  | cons i s => exact h i List.mem_cons_self

theorem pieces_cons (h : ss ≠ []) : pieces n id (s :: ss)
    = ⟨id, s ++ pieceEnd n s, mark s⟩ :: pieces (n + 1) n ss := by
  cases ss with
  | nil => exact absurd rfl h
  | cons s' ss => rfl

theorem stretch_ne_nil {is : List JitInstr} (hs : s ∈ stretches is) : s ≠ [] :=
  List.ne_nil_of_mem_splitBy hs

theorem mark_first {ii : JitInstr} {rest : List JitInstr} (h : stretches (ii :: rest) = s :: ss) :
    mark s = ii.jit := by
  have hhead := List.head_head_splitBy (fun i j : JitInstr => i.jit == j.jit)
    (List.cons_ne_nil ii rest)
  change ((stretches (ii :: rest)).head _).head _ = ii at hhead
  simp only [h, List.head_cons] at hhead
  cases s with
  | nil => exact absurd rfl (stretch_ne_nil (h.symm ▸ List.mem_cons_self))
  | cons i s => exact congrArg JitInstr.jit hhead

theorem mark_of_mem {is : List JitInstr} (hs : s ∈ stretches is) {i : JitInstr} (hi : i ∈ s) :
    i.jit = mark s := by
  have hchain := List.isChain_of_mem_splitBy hs
  have hpair : s.Pairwise fun i j => (i.jit == j.jit) = true := by
    refine @List.IsChain.pairwise _ _ _ ⟨?_⟩ hchain
    intro a b c hab hbc
    rw [beq_iff_eq] at hab hbc ⊢
    exact hab.trans hbc
  cases s with
  | nil => exact absurd hi List.not_mem_nil
  | cons j s =>
    rcases List.mem_cons.mp hi with rfl | hmem
    · rfl
    · exact (eq_of_beq ((List.pairwise_cons.mp hpair).1 i hmem)).symm

/-- The `k`-th piece is the `k`-th stretch, with a branch behind it or not. -/
theorem pieces_get {k : ℕ} {B : Block} (h : (pieces n id ss)[k]? = some B) :
    ∃ s, ss[k]? = some s ∧ B.jit = mark s
      ∧ ∃ next, B.instrs = s ∨ B.instrs = s ++ pieceEnd next s := by
  induction ss generalizing n id k with
  | nil => cases h
  | cons s ss ih =>
    cases ss with
    | nil =>
      cases k with
      | zero =>
        cases h
        exact ⟨s, rfl, rfl, 0, Or.inl rfl⟩
      | succ k => cases h
    | cons s' ss =>
      cases k with
      | zero =>
        cases h
        exact ⟨s, rfl, rfl, n, Or.inr rfl⟩
      | succ k => exact ih h

theorem pieces_ids {B : Block} (h : B ∈ pieces n id ss) :
    B.id = id ∨ n ≤ B.id ∧ B.id < n + (ss.length - 1) := by
  induction ss generalizing n id with
  | nil => exact absurd h List.not_mem_nil
  | cons s ss ih =>
    cases ss with
    | nil => exact Or.inl (congrArg Block.id (List.mem_singleton.mp h))
    | cons s' ss =>
      rcases List.mem_cons.mp h with rfl | hrest
      · exact Or.inl rfl
      · rw [List.length_cons, List.length_cons]
        rcases ih hrest with heq | ⟨hle, hlt⟩
        · omega
        · rw [List.length_cons] at hlt
          omega

theorem pieces_nodup (hid : id < n) : ((pieces n id ss).map Block.id).Nodup := by
  induction ss generalizing n id with
  | nil => exact List.nodup_nil
  | cons s ss ih =>
    cases ss with
    | nil => exact List.nodup_singleton id
    | cons s' ss =>
      change (id :: (pieces (n + 1) n (s' :: ss)).map Block.id).Nodup
      apply List.nodup_cons.mpr
      refine ⟨fun hmem => ?_, ih (Nat.lt_succ_self n)⟩
      obtain ⟨B, hB, heq⟩ := List.mem_map.mp hmem
      rcases pieces_ids hB with h | h
      · omega
      · omega

theorem pieces_head {B : Block} {Bs : List Block} (h : pieces n id ss = B :: Bs) : B.id = id := by
  cases ss with
  | nil => cases h
  | cons s ss =>
    cases ss with
    | nil =>
      cases h
      rfl
    | cons s' ss =>
      cases h
      rfl

theorem lastId_cons (B : Block) {Bs : List Block} (h : Bs ≠ []) (i j : ℕ) :
    lastId i (B :: Bs) = lastId j Bs := by
  unfold lastId
  rw [List.getLast?_cons, List.getLast?_eq_some_getLast h]
  rfl

theorem lastId_mem {ps : List Block} (h : ps ≠ []) (i : ℕ) : lastId i ps ∈ ps.map Block.id := by
  unfold lastId
  rw [List.getLast?_eq_some_getLast h]
  exact List.mem_map_of_mem (List.getLast_mem h)

theorem mem_links {ps : List Block} {e : Edge} : e ∈ links ps
    ↔ ∃ (k : ℕ) (B C : Block), ps[k]? = some B ∧ ps[k + 1]? = some C ∧ e = ⟨B.id, C.id⟩ := by
  induction ps with
  | nil => simp [links]
  | cons B ps ih =>
    cases ps with
    | nil => simp [links]
    | cons C ps =>
      rw [links, List.mem_cons, ih]
      constructor
      · rintro (rfl | ⟨k, D, E, hD, hE, rfl⟩)
        · exact ⟨0, B, C, rfl, rfl, rfl⟩
        · exact ⟨k + 1, D, E, hD, hE, rfl⟩
      · rintro ⟨k, D, E, hD, hE, rfl⟩
        cases k with
        | zero =>
          cases hD
          cases hE
          exact Or.inl rfl
        | succ k => exact Or.inr ⟨k, D, E, hD, hE, rfl⟩

end

section
variable {st : Split} {curbb : Block} {prev : JitInstr}

theorem jitIds_listJitbb {B C : Block} (Bs : List Block) (jitbbs : List ℕ) (hid : B.id = C.id)
    (hjit : B.jit = C.jit) : (jitIds Bs).reverse ++ listJitbb jitbbs C
      = (jitIds (B :: Bs)).reverse ++ jitbbs := by
  unfold listJitbb jitIds
  rw [List.filter_cons, hjit]
  cases C.jit with
  | false => rfl
  | true =>
    rw [if_pos rfl, if_pos rfl, List.map_cons, List.reverse_cons, List.append_assoc, hid]
    rfl

/-- The state after a new block has been made for the next instruction. -/
def afterCut (st : Split) (curbb : Block) (prev ii : JitInstr) : Split where
  bbs := st.bbs ++ [{ curbb with
    instrs := curbb.instrs ++ [pieceBranch st.numBbs curbb.jit prev] }]
  edges := handOver st.edges curbb.id st.numBbs
  numBbs := st.numBbs + 1
  jitbbs := listJitbb st.jitbbs ⟨st.numBbs, [ii], ii.jit⟩

theorem splitInstrs_cut {ii : JitInstr} (hcut : ii.jit ≠ curbb.jit) (rest : List JitInstr) :
    splitInstrs st curbb prev (ii :: rest)
      = splitInstrs (afterCut st curbb prev ii) ⟨st.numBbs, [ii], ii.jit⟩ ii rest := by
  rw [splitInstrs, if_pos hcut]
  rfl

theorem splitInstrs_bbs {rest : List JitInstr} (hmark : ∀ i ∈ curbb.instrs, i.jit = curbb.jit)
    (hprev : curbb.instrs.getLast? = some prev) :
    (splitInstrs st curbb prev rest).bbs
        = st.bbs ++ pieces st.numBbs curbb.id (stretches (curbb.instrs ++ rest))
      ∧ (splitInstrs st curbb prev rest).numBbs
        = st.numBbs + ((stretches (curbb.instrs ++ rest)).length - 1)
      ∧ (splitInstrs st curbb prev rest).jitbbs
        = (jitIds (pieces st.numBbs curbb.id
            (stretches (curbb.instrs ++ rest))).tail).reverse ++ st.jitbbs := by
  have hne : ∀ {is : List JitInstr} {i : JitInstr}, is.getLast? = some i → is ≠ [] := by
    intro is i h hnil
    rw [hnil] at h
    cases h
  induction rest generalizing st curbb prev with
  | nil =>
    rw [List.append_nil, stretches_single (hne hprev) hmark]
    have hpiece : curbb = ⟨curbb.id, curbb.instrs, mark curbb.instrs⟩ := by
      rw [mark_eq (hne hprev) hmark]
    exact ⟨congrArg (fun B => st.bbs ++ [B]) hpiece, rfl, rfl⟩
  | cons ii rest ih =>
    by_cases hcut : ii.jit ≠ curbb.jit
    · rw [stretches_cut (hne hprev) hmark hcut]
      have hnew : ∀ i ∈ [ii], i.jit = ii.jit := by
        intro i hi
        rw [List.mem_singleton.mp hi]
      obtain ⟨s', ss, hss⟩ := List.exists_cons_of_ne_nil
        (stretches_ne_nil (List.cons_ne_nil ii rest))
      obtain ⟨B, Bs, hBs⟩ := List.exists_cons_of_ne_nil
        (@pieces_ne_nil (st.numBbs + 1) st.numBbs _ (stretches_ne_nil
          (List.cons_ne_nil ii rest)))
      have hBjit : B.jit = ii.jit := by
        obtain ⟨t, ht, hBt, -⟩ := pieces_get (k := 0) (B := B) (by rw [hBs]; rfl)
        rw [hss] at ht
        cases ht
        rw [hBt]
        exact mark_first hss
      rw [splitInstrs_cut hcut]
      obtain ⟨hbbs, hnum, hjit⟩ := @ih (afterCut st curbb prev ii)
        ⟨st.numBbs, [ii], ii.jit⟩ ii hnew rfl
      refine ⟨?_, ?_, ?_⟩
      · rw [hbbs]
        change (st.bbs ++ [_]) ++ pieces (st.numBbs + 1) st.numBbs (stretches (ii :: rest)) = _
        rw [List.append_assoc, pieces_cons (stretches_ne_nil (List.cons_ne_nil ii rest)), pieceEnd,
          hprev, mark_eq (hne hprev) hmark]
        rfl
      · rw [hnum]
        change st.numBbs + 1 + ((stretches (ii :: rest)).length - 1) = _
        rw [hss, List.length_cons, List.length_cons, List.length_cons]
        omega
      · rw [hjit]
        change (jitIds (pieces (st.numBbs + 1) st.numBbs (stretches (ii :: rest))).tail).reverse
          ++ listJitbb st.jitbbs ⟨st.numBbs, [ii], ii.jit⟩
          = (jitIds (pieces st.numBbs curbb.id (curbb.instrs :: stretches (ii :: rest))).tail).reverse
            ++ st.jitbbs
        rw [pieces_cons (stretches_ne_nil (List.cons_ne_nil ii rest)), hBs, List.tail_cons,
          List.tail_cons]
        exact jitIds_listJitbb Bs st.jitbbs (pieces_head hBs) hBjit
    · unfold splitInstrs
      rw [if_neg hcut]
      have hmark' : ∀ i ∈ curbb.instrs ++ [ii], i.jit = curbb.jit := by
        intro i hi
        rcases List.mem_append.mp hi with h | h
        · exact hmark i h
        · rw [List.mem_singleton.mp h]
          exact not_ne_iff.mp hcut
      have happ : curbb.instrs ++ ii :: rest = (curbb.instrs ++ [ii]) ++ rest := by
        rw [List.append_assoc]
        rfl
      rw [happ]
      exact @ih st { curbb with instrs := curbb.instrs ++ [ii] } ii hmark' List.getLast?_concat

theorem mem_handOver {edges : List Edge} {curbb newbb : ℕ} {e : Edge} :
    e ∈ handOver edges curbb newbb ↔ e = ⟨curbb, newbb⟩ ∨ (e ∈ edges ∧ e.ibeFrom ≠ curbb)
      ∨ ∃ e₀ ∈ edges, e₀.ibeFrom = curbb ∧ e = ⟨newbb, e₀.ibeTo⟩ := by
  unfold handOver
  rw [List.mem_cons, List.mem_map]
  apply or_congr_right
  constructor
  · rintro ⟨e₀, he₀, rfl⟩
    by_cases hfrom : e₀.ibeFrom = curbb
    · rw [if_pos hfrom]
      exact Or.inr ⟨e₀, he₀, hfrom, rfl⟩
    · rw [if_neg hfrom]
      exact Or.inl ⟨he₀, hfrom⟩
  · rintro (⟨he, hfrom⟩ | ⟨e₀, he₀, hfrom, rfl⟩)
    · exact ⟨e, he, if_neg hfrom⟩
    · exact ⟨e₀, he₀, if_pos hfrom⟩

theorem splitInstrs_edges {rest : List JitInstr} (hmark : ∀ i ∈ curbb.instrs, i.jit = curbb.jit)
    (hne : curbb.instrs ≠ []) (hfresh : ∀ e ∈ st.edges, e.ibeFrom < st.numBbs)
    (hid : curbb.id < st.numBbs) {ps : List Block}
    (hps : pieces st.numBbs curbb.id (stretches (curbb.instrs ++ rest)) = ps) (e : Edge) :
    e ∈ (splitInstrs st curbb prev rest).edges ↔ (e ∈ st.edges ∧ e.ibeFrom ≠ curbb.id)
      ∨ (∃ e₀ ∈ st.edges, e₀.ibeFrom = curbb.id ∧ e = ⟨lastId curbb.id ps, e₀.ibeTo⟩)
      ∨ e ∈ links ps := by
  induction rest generalizing st curbb prev ps with
  | nil =>
    rw [List.append_nil, stretches_single hne hmark] at hps
    rw [← hps]
    change e ∈ st.edges ↔ _ ∨ (∃ e₀ ∈ st.edges, _ ∧ e = ⟨curbb.id, e₀.ibeTo⟩) ∨ e ∈ []
    constructor
    · intro he
      by_cases hfrom : e.ibeFrom = curbb.id
      · exact Or.inr (Or.inl ⟨e, he, hfrom, by rw [← hfrom]⟩)
      · exact Or.inl ⟨he, hfrom⟩
    · rintro (⟨he, -⟩ | ⟨e₀, he₀, hfrom, rfl⟩ | he)
      · exact he
      · rw [← hfrom]
        exact he₀
      · exact absurd he List.not_mem_nil
  | cons ii rest ih =>
    by_cases hcut : ii.jit ≠ curbb.jit
    · have hnew : ∀ i ∈ [ii], i.jit = ii.jit := by
        intro i hi
        rw [List.mem_singleton.mp hi]
      have hne' := stretches_ne_nil (List.cons_ne_nil ii rest)
      rw [stretches_cut hne hmark hcut, pieces_cons hne'] at hps
      have hfresh' : ∀ e ∈ handOver st.edges curbb.id st.numBbs, e.ibeFrom < st.numBbs + 1 := by
        intro e he
        rcases mem_handOver.mp he with rfl | ⟨he, -⟩ | ⟨e₀, -, -, rfl⟩
        · exact Nat.lt_succ_of_lt hid
        · exact Nat.lt_succ_of_lt (hfresh e he)
        · exact Nat.lt_succ_self _
      obtain ⟨B, Bs, hBs⟩ := List.exists_cons_of_ne_nil
        (@pieces_ne_nil (st.numBbs + 1) st.numBbs _ hne')
      rw [splitInstrs_cut hcut, @ih (afterCut st curbb prev ii) ⟨st.numBbs, [ii], ii.jit⟩ ii
        hnew (List.cons_ne_nil _ _) hfresh' (Nat.lt_succ_self _) _ rfl]
      change ((e ∈ handOver st.edges curbb.id st.numBbs ∧ e.ibeFrom ≠ st.numBbs)
        ∨ (∃ e₀ ∈ handOver st.edges curbb.id st.numBbs, e₀.ibeFrom = st.numBbs
          ∧ e = ⟨lastId st.numBbs (pieces (st.numBbs + 1) st.numBbs (stretches (ii :: rest))),
            e₀.ibeTo⟩)
        ∨ e ∈ links (pieces (st.numBbs + 1) st.numBbs (stretches (ii :: rest)))) ↔ _
      have hlinks : e ∈ links ps ↔ e = ⟨curbb.id, st.numBbs⟩
          ∨ e ∈ links (pieces (st.numBbs + 1) st.numBbs (stretches (ii :: rest))) := by
        rw [← hps, hBs, links, List.mem_cons, pieces_head hBs]
      rw [hlinks, ← hps, lastId_cons _ (pieces_ne_nil hne') curbb.id st.numBbs]
      generalize pieces (st.numBbs + 1) st.numBbs (stretches (ii :: rest)) = qs
      constructor
      · rintro (⟨he, hfrom⟩ | ⟨e₀, he₀, hfrom, rfl⟩ | he)
        · rcases mem_handOver.mp he with h | ⟨h, hne⟩ | ⟨e₀, -, -, rfl⟩
          · exact Or.inr (Or.inr (Or.inl h))
          · exact Or.inl ⟨h, hne⟩
          · exact absurd rfl hfrom
        · rcases mem_handOver.mp he₀ with rfl | ⟨h, -⟩ | ⟨e₁, he₁, hfrom₁, rfl⟩
          · exact absurd hfrom (Nat.ne_of_lt hid)
          · exact absurd hfrom (Nat.ne_of_lt (hfresh e₀ h))
          · exact Or.inr (Or.inl ⟨e₁, he₁, hfrom₁, rfl⟩)
        · exact Or.inr (Or.inr (Or.inr he))
      · rintro (⟨he, hfrom⟩ | ⟨e₀, he₀, hfrom, rfl⟩ | rfl | he)
        · exact Or.inl ⟨mem_handOver.mpr (Or.inr (Or.inl ⟨he, hfrom⟩)),
            Nat.ne_of_lt (hfresh e he)⟩
        · exact Or.inr (Or.inl ⟨⟨st.numBbs, e₀.ibeTo⟩,
            mem_handOver.mpr (Or.inr (Or.inr ⟨e₀, he₀, hfrom, rfl⟩)), rfl, rfl⟩)
        · exact Or.inl ⟨mem_handOver.mpr (Or.inl rfl), Nat.ne_of_lt hid⟩
        · exact Or.inr (Or.inr he)
    · have hmark' : ∀ i ∈ curbb.instrs ++ [ii], i.jit = curbb.jit := by
        intro i hi
        rcases List.mem_append.mp hi with h | h
        · exact hmark i h
        · rw [List.mem_singleton.mp h]
          exact not_ne_iff.mp hcut
      have happ : curbb.instrs ++ ii :: rest = (curbb.instrs ++ [ii]) ++ rest := by
        rw [List.append_assoc]
        rfl
      unfold splitInstrs
      rw [if_neg hcut]
      rw [happ] at hps
      exact @ih st { curbb with instrs := curbb.instrs ++ [ii] } ii hmark'
        (List.append_ne_nil_of_right_ne_nil _ (List.cons_ne_nil ii [])) hfresh hid _ hps

end

def splitBlocks (n : ℕ) (bbs : List Block) : List Block := (layout n bbs).flatMap Prod.snd

section
variable {n : ℕ} {bbs : List Block}

theorem splitBlocks_cons (n : ℕ) (ib : Block) (bbs : List Block) : splitBlocks n (ib :: bbs)
    = pieces n ib.id (stretches ib.instrs)
      ++ splitBlocks (n + ((stretches ib.instrs).length - 1)) bbs := by
  unfold splitBlocks
  rw [layout, List.flatMap_cons, pieces_length]

theorem mem_layout {id : ℕ} {ps : List Block} (h : (id, ps) ∈ layout n bbs) :
    ∃ ib ∈ bbs, ib.id = id ∧ ∃ m, n ≤ m ∧ ps = pieces m id (stretches ib.instrs) := by
  induction bbs generalizing n with
  | nil => exact absurd h List.not_mem_nil
  | cons ib bbs ih =>
    rcases List.mem_cons.mp h with heq | hrest
    · cases heq
      exact ⟨ib, List.mem_cons_self, rfl, n, Nat.le_refl n, rfl⟩
    · obtain ⟨ib', hib', hid, m, hm, hps⟩ := ih hrest
      exact ⟨ib', List.mem_cons_of_mem _ hib', hid, m, by omega, hps⟩

theorem layout_of_mem {ib : Block} (h : ib ∈ bbs) :
    ∃ m, (ib.id, pieces m ib.id (stretches ib.instrs)) ∈ layout n bbs := by
  induction bbs generalizing n with
  | nil => exact absurd h List.not_mem_nil
  | cons ib' bbs ih =>
    rcases List.mem_cons.mp h with rfl | hrest
    · exact ⟨n, List.mem_cons_self⟩
    · obtain ⟨m, hm⟩ := ih hrest
      exact ⟨m, List.mem_cons_of_mem _ hm⟩

theorem splitBlocks_ids {B : Block} (h : B ∈ splitBlocks n bbs) :
    B.id ∈ bbs.map Block.id ∨ n ≤ B.id := by
  obtain ⟨⟨id, ps⟩, hx, hB⟩ := List.mem_flatMap.mp h
  obtain ⟨ib, hib, rfl, m, hm, rfl⟩ := mem_layout hx
  rcases pieces_ids hB with hid | ⟨hle, -⟩
  · exact Or.inl (List.mem_map.mpr ⟨ib, hib, hid.symm⟩)
  · exact Or.inr (Nat.le_trans hm hle)

theorem splitBlocks_nodup (hnodup : (bbs.map Block.id).Nodup) (hlt : ∀ ib ∈ bbs, ib.id < n) :
    ((splitBlocks n bbs).map Block.id).Nodup := by
  induction bbs generalizing n with
  | nil => exact List.nodup_nil
  | cons ib bbs ih =>
    have hid := hlt ib List.mem_cons_self
    have hrest : ∀ ib ∈ bbs, ib.id < n := fun b hb => hlt b (List.mem_cons_of_mem _ hb)
    obtain ⟨hnot, hnodup'⟩ := List.nodup_cons.mp hnodup
    rw [splitBlocks_cons, List.map_append]
    apply (pieces_nodup hid).append
    · exact ih hnodup' fun b hb => Nat.lt_of_lt_of_le (hrest b hb) (Nat.le_add_right _ _)
    · intro i hi hi'
      obtain ⟨B, hB, rfl⟩ := List.mem_map.mp hi
      obtain ⟨C, hC, hCB⟩ := List.mem_map.mp hi'
      have hor := splitBlocks_ids hC
      rw [hCB] at hor
      rcases pieces_ids hB with h | ⟨hle, hlt'⟩
      · rcases hor with h' | h'
        · exact hnot (h ▸ h')
        · omega
      · rcases hor with h' | h'
        · obtain ⟨b, hb, hbid⟩ := List.mem_map.mp h'
          have := hrest b hb
          omega
        · omega

/-- The state before the splitting of some blocks: no other block leads out of the numbers given so
far. -/
structure Fresh (st : Split) (bbs : List Block) : Prop where
  filled : ∀ ib ∈ bbs, ib.instrs ≠ []
  nodup : (bbs.map Block.id).Nodup
  known : ∀ ib ∈ bbs, ib.id < st.numBbs
  edges : ∀ e ∈ st.edges, e.ibeFrom < st.numBbs

structure SplitsBb (st : Split) (ib : Block) (r : Split) (ps : List Block) : Prop where
  bbs : r.bbs = st.bbs ++ ps
  numBbs : r.numBbs = st.numBbs + (ps.length - 1)
  jitbbs : r.jitbbs = (jitIds ps).reverse ++ st.jitbbs
  edges : ∀ e, e ∈ r.edges ↔ (e ∈ st.edges ∧ e.ibeFrom ≠ ib.id)
    ∨ (∃ e₀ ∈ st.edges, e₀.ibeFrom = ib.id ∧ e = ⟨lastId ib.id ps, e₀.ibeTo⟩) ∨ e ∈ links ps

theorem splitBb_ok {st : Split} {ib : Block} (hfilled : ib.instrs ≠ [])
    (hknown : ib.id < st.numBbs) (hedges : ∀ e ∈ st.edges, e.ibeFrom < st.numBbs) :
    ∃ r, splitBb st ib = .ok r
      ∧ SplitsBb st ib r (pieces st.numBbs ib.id (stretches ib.instrs)) := by
  obtain ⟨ii, rest, hinstrs⟩ := List.exists_cons_of_ne_nil hfilled
  unfold splitBb
  rw [hinstrs]
  refine ⟨_, rfl, ?_⟩
  have hnew : ∀ i ∈ [ii], i.jit = ii.jit := by
    intro i hi
    rw [List.mem_singleton.mp hi]
  have hne := stretches_ne_nil (List.cons_ne_nil ii rest)
  obtain ⟨s, ss, hss⟩ := List.exists_cons_of_ne_nil hne
  obtain ⟨B, Bs, hBs⟩ := List.exists_cons_of_ne_nil
    (@pieces_ne_nil st.numBbs ib.id _ hne)
  have hBjit : B.jit = ii.jit := by
    obtain ⟨t, ht, hBt, -⟩ := pieces_get (k := 0) (B := B) (by rw [hBs]; rfl)
    rw [hss] at ht
    cases ht
    rw [hBt]
    exact mark_first hss
  obtain ⟨hbbs, hnum, hjit⟩ := @splitInstrs_bbs
    { st with jitbbs := listJitbb st.jitbbs ⟨ib.id, [ii], ii.jit⟩ } ⟨ib.id, [ii], ii.jit⟩ ii rest
    hnew rfl
  constructor
  · exact hbbs
  · rw [hnum, pieces_length]
    rfl
  · rw [hjit]
    change (jitIds (pieces st.numBbs ib.id (stretches (ii :: rest))).tail).reverse
      ++ listJitbb st.jitbbs ⟨ib.id, [ii], ii.jit⟩ = _
    rw [hBs, List.tail_cons]
    exact jitIds_listJitbb Bs st.jitbbs (pieces_head hBs) hBjit
  · exact @splitInstrs_edges
      { st with jitbbs := listJitbb st.jitbbs ⟨ib.id, [ii], ii.jit⟩ } ⟨ib.id, [ii], ii.jit⟩ ii rest
      hnew (List.cons_ne_nil ii []) hedges hknown _ rfl

theorem Fresh.next {st r : Split} {ib : Block} {bbs : List Block} (h : Fresh st (ib :: bbs))
    (hr : SplitsBb st ib r (pieces st.numBbs ib.id (stretches ib.instrs))) : Fresh r bbs := by
  have hle : st.numBbs ≤ r.numBbs := by
    rw [hr.numBbs]
    exact Nat.le_add_right _ _
  have hpiece : ∀ i ∈ (pieces st.numBbs ib.id (stretches ib.instrs)).map Block.id,
      i < r.numBbs := by
    intro i hi
    obtain ⟨B, hB, rfl⟩ := List.mem_map.mp hi
    rw [hr.numBbs, pieces_length]
    have := h.known ib List.mem_cons_self
    rcases pieces_ids hB with heq | ⟨-, hlt⟩
    · omega
    · exact hlt
  constructor
  · exact fun b hb => h.filled b (List.mem_cons_of_mem _ hb)
  · exact (List.nodup_cons.mp h.nodup).2
  · exact fun b hb => Nat.lt_of_lt_of_le (h.known b (List.mem_cons_of_mem _ hb)) hle
  · intro e he
    rcases (hr.edges e).mp he with ⟨he, -⟩ | ⟨e₀, -, -, rfl⟩ | he
    · exact Nat.lt_of_lt_of_le (h.edges e he) hle
    · exact hpiece _ (lastId_mem (pieces_ne_nil (stretches_ne_nil
        (h.filled ib List.mem_cons_self))) _)
    · obtain ⟨k, B, C, hB, -, rfl⟩ := mem_links.mp he
      exact hpiece _ (List.mem_map_of_mem (List.mem_of_getElem? hB))

theorem splitBbs_ok {st : Split} {bbs : List Block} (h : Fresh st bbs) :
    ∃ r, bbs.foldlM splitBb st = .ok r
      ∧ r.bbs = st.bbs ++ splitBlocks st.numBbs bbs
      ∧ r.jitbbs = (jitIds (splitBlocks st.numBbs bbs)).reverse ++ st.jitbbs
      ∧ ∀ e, e ∈ r.edges ↔ (e ∈ st.edges ∧ e.ibeFrom ∉ bbs.map Block.id)
        ∨ (∃ x ∈ layout st.numBbs bbs, ∃ e₀ ∈ st.edges, e₀.ibeFrom = x.1
          ∧ e = ⟨lastId x.1 x.2, e₀.ibeTo⟩)
        ∨ ∃ x ∈ layout st.numBbs bbs, e ∈ links x.2 := by
  induction bbs generalizing st with
  | nil =>
    refine ⟨st, rfl, (List.append_nil _).symm, rfl, fun e => ?_⟩
    simp [layout]
  | cons ib bbs ih =>
    obtain ⟨st', hst', hsplit⟩ := splitBb_ok (h.filled ib List.mem_cons_self)
      (h.known ib List.mem_cons_self) h.edges
    obtain ⟨r, hr, hbbs, hjit, hedges⟩ := ih (h.next hsplit)
    have hlen := hsplit.numBbs
    have hnot : ib.id ∉ bbs.map Block.id := (List.nodup_cons.mp h.nodup).1
    -- a piece of the first block is none of the others
    have hother : ∀ i ∈ (pieces st.numBbs ib.id (stretches ib.instrs)).map Block.id,
        i ∉ bbs.map Block.id := by
      intro i hi hmem
      obtain ⟨B, hB, rfl⟩ := List.mem_map.mp hi
      rcases pieces_ids hB with heq | ⟨hle, -⟩
      · exact hnot (heq ▸ hmem)
      · obtain ⟨b, hb, hbid⟩ := List.mem_map.mp hmem
        have := h.known b (List.mem_cons_of_mem _ hb)
        omega
    have hlast : lastId ib.id (pieces st.numBbs ib.id (stretches ib.instrs)) ∉ bbs.map Block.id :=
      hother _ (lastId_mem (pieces_ne_nil (stretches_ne_nil (h.filled ib List.mem_cons_self))) _)
    have hlink : ∀ e ∈ links (pieces st.numBbs ib.id (stretches ib.instrs)),
        e.ibeFrom ∉ bbs.map Block.id := by
      intro e he
      obtain ⟨k, B, C, hB, -, rfl⟩ := mem_links.mp he
      exact hother _ (List.mem_map_of_mem (List.mem_of_getElem? hB))
    have hlayout : layout st.numBbs (ib :: bbs)
        = (ib.id, pieces st.numBbs ib.id (stretches ib.instrs)) :: layout st'.numBbs bbs := by
      rw [layout, hlen]
    refine ⟨r, ?_, ?_, ?_, fun e => ?_⟩
    · rw [List.foldlM_cons, hst']
      exact hr
    · rw [hbbs, hsplit.bbs, splitBlocks_cons, hlen, pieces_length, List.append_assoc]
    · rw [hjit, hsplit.jitbbs, splitBlocks_cons, hlen, pieces_length, ← List.append_assoc,
        ← List.reverse_append, jitIds, jitIds, jitIds, List.filter_append, List.map_append]
    · rw [hedges, hlayout, List.exists_mem_cons_iff, List.exists_mem_cons_iff, List.map_cons]
      constructor
      · rintro (⟨he, hfrom⟩ | ⟨x, hx, e₀, he₀, hfrom, rfl⟩ | hlinks)
        · rcases (hsplit.edges e).mp he with ⟨he, hne⟩ | ⟨e₀, he₀, hfrom₀, rfl⟩ | he
          · refine Or.inl ⟨he, fun hmem => ?_⟩
            rcases List.mem_cons.mp hmem with h | h
            · exact hne h
            · exact hfrom h
          · exact Or.inr (Or.inl (Or.inl ⟨e₀, he₀, hfrom₀, rfl⟩))
          · exact Or.inr (Or.inr (Or.inl he))
        · obtain ⟨ib', hib', hid, -⟩ := mem_layout hx
          have hxmem : x.1 ∈ bbs.map Block.id := hid ▸ List.mem_map_of_mem hib'
          rcases (hsplit.edges e₀).mp he₀ with ⟨he₀, -⟩ | ⟨e₁, -, -, rfl⟩ | he₀
          · exact Or.inr (Or.inl (Or.inr ⟨x, hx, e₀, he₀, hfrom, rfl⟩))
          · rw [← hfrom] at hxmem
            exact absurd hxmem hlast
          · exact absurd (hfrom ▸ hxmem) (hlink e₀ he₀)
        · exact Or.inr (Or.inr (Or.inr hlinks))
      · rintro (⟨he, hfrom⟩ | (⟨e₀, he₀, hfrom, rfl⟩ | ⟨x, hx, e₀, he₀, hfrom, rfl⟩)
          | (he | hlinks))
        · refine Or.inl ⟨(hsplit.edges e).mpr (Or.inl ⟨he, fun heq => ?_⟩), fun hmem => ?_⟩
          · exact hfrom (heq ▸ List.mem_cons_self)
          · exact hfrom (List.mem_cons_of_mem _ hmem)
        · exact Or.inl ⟨(hsplit.edges _).mpr (Or.inr (Or.inl ⟨e₀, he₀, hfrom, rfl⟩)), hlast⟩
        · obtain ⟨ib', hib', hid, -⟩ := mem_layout hx
          have hxmem : x.1 ∈ bbs.map Block.id := hid ▸ List.mem_map_of_mem hib'
          refine Or.inr (Or.inl ⟨x, hx, e₀, (hsplit.edges e₀).mpr (Or.inl ⟨he₀, ?_⟩), hfrom, rfl⟩)
          intro heq
          exact hnot (heq ▸ hfrom ▸ hxmem)
        · exact Or.inl ⟨(hsplit.edges e).mpr (Or.inr (Or.inr he)), hlink e he⟩
        · exact Or.inr (Or.inr hlinks)

end

end Vmir.JitSplit
