import Vmir.JitClusters
import Vmir.JitSplit

set_option autoImplicit false

/-!
# Values in machine registers and the borders of the JIT blocks

A value is kept out of the machine registers where one of the clusters that define it has it live on
its border. A value that several clusters define can get one all the same: a cluster with a
definition that is not live on its border decides for the others.
-/
namespace Vmir.JitBoundary
open Ir JitAnalyze JitSplit JitClusters ClusterSearch
open DeadCode (Edge operands)

/-- The instruction reads or writes the value. -/
def Names (ii : JitInstr) (v : ℕ) : Prop :=
  v ∈ (ii.instr.rets ++ operands ii.instr.cls).map ValueType.value

/-- No value in a machine register is live on an edge between a JIT block and an interpreted one,
and only JIT blocks name such values. -/
structure BoundarySafe (a : Analysis) : Prop where
  edges : ∀ e ∈ a.function.edges,
    isJit a.function.bbs e.ibeFrom ≠ isJit a.function.bbs e.ibeTo →
    ∀ v ∈ a.ivJit, v ∉ liveInto a.function.bbs e.ibeTo
  instrs : ∀ ib ∈ a.function.bbs, ∀ ii ∈ ib.instrs, ∀ v ∈ a.ivJit, Names ii v → ib.jit = true

section
variable (bbs : List Block) (edges : List Edge)

/-- The `n.2`-th stretch of the block `n.1`. -/
def IsStretch (n : ℕ × ℕ) (s : List JitInstr) : Prop :=
  ∃ ib ∈ bbs, ib.id = n.1 ∧ (stretches ib.instrs)[n.2]? = some s

/-- Control goes from the one stretch to the other: to the next of its block, or from the last one
along an edge. -/
def Passes (m n : ℕ × ℕ) : Prop :=
  (n = (m.1, m.2 + 1) ∧ (∃ s, IsStretch bbs m s) ∧ ∃ s, IsStretch bbs n s)
    ∨ (n.2 = 0 ∧ ⟨m.1, n.1⟩ ∈ edges
      ∧ ∃ ib ∈ bbs, ib.id = m.1 ∧ m.2 + 1 = (stretches ib.instrs).length)

def before (s : List JitInstr) : Finset ℕ := s.head?.elim ∅ JitInstr.into

def behind (s : List JitInstr) : Finset ℕ := s.getLast?.elim ∅ JitInstr.out

/-- All instructions in the def-use list of the value are compiled. -/
def Chained (v : ℕ) : Prop :=
  ∀ ib ∈ bbs, ∀ ii ∈ ib.instrs, v ∈ ii.values → ii.jit = true

/-- The value is live where control goes from compiled to interpreted instructions or back, or is
named by an instruction that is not compiled. -/
def Exposed (v : ℕ) : Prop :=
  (∃ m n s t, Passes bbs edges m n ∧ IsStretch bbs m s ∧ IsStretch bbs n t ∧ mark s ≠ mark t
      ∧ v ∈ before t)
    ∨ ∃ ib ∈ bbs, ∃ ii ∈ ib.instrs, Names ii v ∧ ii.jit = false

/-- Control goes from the one to the other or back, and both are compiled. -/
def Joined (m n : ℕ × ℕ) : Prop :=
  (Passes bbs edges m n ∨ Passes bbs edges n m)
    ∧ (∃ s, IsStretch bbs m s ∧ mark s = true) ∧ ∃ t, IsStretch bbs n t ∧ mark t = true

/-- The value is live before an interpreted stretch that follows, or behind one that precedes. -/
def Beside (n : ℕ × ℕ) (v : ℕ) : Prop :=
  (∃ p t, Passes bbs edges n p ∧ IsStretch bbs p t ∧ mark t = false ∧ v ∈ before t)
    ∨ ∃ p t, Passes bbs edges p n ∧ IsStretch bbs p t ∧ mark t = false ∧ v ∈ behind t

/-- Wherever the value is defined, it is live on the border of the compiled stretches that hang
together with the definition. -/
def Bordered (v : ℕ) : Prop :=
  ∀ m s, IsStretch bbs m s → mark s = true → (∃ ii ∈ s, result ii = some v) →
    ∃ n, Relation.ReflTransGen (Joined bbs edges) m n ∧ Beside bbs edges n v

/-- A value that may not be in a machine register is on the border of each cluster with a
definition. -/
def Covered : Prop :=
  ∀ v, Chained bbs v → Exposed bbs edges v → Bordered bbs edges v

end

/-- What the passes before leave: blocks that are not empty, with numbers of their own, and edges
between them. -/
structure WellFormed (f : Function) : Prop where
  filled : ∀ ib ∈ f.bbs, ib.instrs ≠ []
  nodup : (f.bbs.map Block.id).Nodup
  known : ∀ ib ∈ f.bbs, ib.id < f.numBbs
  edges : ∀ e ∈ f.edges, e.ibeFrom ∈ f.bbs.map Block.id ∧ e.ibeTo ∈ f.bbs.map Block.id

section
variable {bbs : List Block} {edges : List Edge} {n : ℕ}

theorem block_unique (hnodup : (bbs.map Block.id).Nodup) {ib ib' : Block} (h : ib ∈ bbs)
    (h' : ib' ∈ bbs) (hid : ib.id = ib'.id) : ib = ib' :=
  List.inj_on_of_nodup_map hnodup h h' hid

theorem bbOf_of_mem (hnodup : (bbs.map Block.id).Nodup) {ib : Block} (h : ib ∈ bbs) :
    bbOf bbs ib.id = some ib := by
  unfold bbOf
  cases hfind : bbs.find? (fun b => b.id = ib.id) with
  | none => exact absurd (decide_eq_true rfl) (List.find?_eq_none.mp hfind ib h)
  | some b =>
    have hid := List.find?_some hfind
    exact congrArg some
      (block_unique hnodup (List.mem_of_find?_eq_some hfind) h (of_decide_eq_true hid))

theorem IsStretch.unique (hnodup : (bbs.map Block.id).Nodup) {m : ℕ × ℕ} {s t : List JitInstr}
    (hs : IsStretch bbs m s) (ht : IsStretch bbs m t) : s = t := by
  obtain ⟨ib, hib, hid, hs⟩ := hs
  obtain ⟨ib', hib', hid', ht⟩ := ht
  cases block_unique hnodup hib hib' (hid.trans hid'.symm)
  exact Option.some.inj (hs.symm.trans ht)

theorem IsStretch.ne_nil {m : ℕ × ℕ} {s : List JitInstr} (h : IsStretch bbs m s) : s ≠ [] := by
  obtain ⟨ib, -, -, hs⟩ := h
  exact stretch_ne_nil (List.mem_of_getElem? hs)

theorem layout_unique (hnodup : (bbs.map Block.id).Nodup) {id : ℕ} {ps qs : List Block}
    (hps : (id, ps) ∈ layout n bbs) (hqs : (id, qs) ∈ layout n bbs) : ps = qs := by
  induction bbs generalizing n with
  | nil => exact absurd hps List.not_mem_nil
  | cons ib bbs ih =>
    obtain ⟨hnot, hrest⟩ := List.nodup_cons.mp hnodup
    have hother : ∀ {rs : List Block} {m : ℕ}, (ib.id, rs) ∉ layout m bbs := by
      intro rs m h
      obtain ⟨ib', hib', hid, -⟩ := mem_layout h
      exact hnot (hid ▸ List.mem_map_of_mem hib')
    rcases List.mem_cons.mp hps with hp | hp
    · rcases List.mem_cons.mp hqs with hq | hq
      · exact congrArg Prod.snd (hp.trans hq.symm)
      · cases hp
        exact absurd hq hother
    · rcases List.mem_cons.mp hqs with hq | hq
      · cases hq
        exact absurd hp hother
      · exact ih hrest hp hq

theorem IsStretch.block {m : ℕ × ℕ} {s : List JitInstr} (h : IsStretch bbs m s) {ii : JitInstr}
    (hii : ii ∈ s) : ∃ ib ∈ bbs, ii ∈ ib.instrs := by
  obtain ⟨ib, hib, -, hs⟩ := h
  refine ⟨ib, hib, ?_⟩
  rw [← List.flatten_splitBy (fun i j : JitInstr => i.jit == j.jit) ib.instrs]
  exact List.mem_flatten_of_mem (List.mem_of_getElem? hs) hii

theorem IsStretch.mark_mem {m : ℕ × ℕ} {s : List JitInstr} (h : IsStretch bbs m s)
    {ii : JitInstr} (hii : ii ∈ s) : ii.jit = mark s := by
  obtain ⟨ib, -, -, hs⟩ := h
  exact mark_of_mem (List.mem_of_getElem? hs) hii

theorem exists_stretch {ib : Block} (hib : ib ∈ bbs) {ii : JitInstr} (hii : ii ∈ ib.instrs) :
    ∃ m s, IsStretch bbs m s ∧ ii ∈ s := by
  rw [← List.flatten_splitBy (fun i j : JitInstr => i.jit == j.jit) ib.instrs] at hii
  obtain ⟨s, hs, hmem⟩ := List.mem_flatten.mp hii
  obtain ⟨k, hk⟩ := List.getElem?_of_mem hs
  exact ⟨(ib.id, k), s, ⟨ib, hib, rfl, hk⟩, hmem⟩

def IsPiece (n : ℕ) (bbs : List Block) (m : ℕ × ℕ) (B : Block) : Prop :=
  ∃ ps, (m.1, ps) ∈ layout n bbs ∧ ps[m.2]? = some B

theorem IsPiece.stretch {m : ℕ × ℕ} {B : Block} (h : IsPiece n bbs m B) :
    ∃ s, IsStretch bbs m s ∧ B.jit = mark s
      ∧ ∃ next, B.instrs = s ∨ B.instrs = s ++ pieceEnd next s := by
  obtain ⟨ps, hps, hB⟩ := h
  obtain ⟨ib, hib, hid, k, -, rfl⟩ := mem_layout hps
  obtain ⟨s, hs, hjit, hinstrs⟩ := pieces_get hB
  exact ⟨s, ⟨ib, hib, hid, hs⟩, hjit, hinstrs⟩

theorem IsStretch.piece {m : ℕ × ℕ} {s : List JitInstr} (h : IsStretch bbs m s) :
    ∃ B, IsPiece n bbs m B := by
  obtain ⟨ib, hib, hid, hs⟩ := h
  obtain ⟨k, hk⟩ := layout_of_mem (n := n) hib
  rw [hid] at hk
  have hlt : m.2 < (pieces k m.1 (stretches ib.instrs)).length := by
    rw [pieces_length]
    exact (List.getElem?_eq_some_iff.mp hs).1
  exact ⟨_, _, hk, List.getElem?_eq_getElem hlt⟩

theorem mem_splitBlocks {B : Block} : B ∈ splitBlocks n bbs ↔ ∃ m, IsPiece n bbs m B := by
  unfold splitBlocks
  rw [List.mem_flatMap]
  constructor
  · rintro ⟨⟨id, ps⟩, hps, hB⟩
    obtain ⟨k, hk⟩ := List.getElem?_of_mem hB
    exact ⟨(id, k), ps, hps, hk⟩
  · rintro ⟨m, ps, hps, hB⟩
    exact ⟨(m.1, ps), hps, List.mem_of_getElem? hB⟩

theorem IsPiece.unique (hnodup : ((splitBlocks n bbs).map Block.id).Nodup) {l m : ℕ × ℕ}
    {B C : Block} (hB : IsPiece n bbs l B) (hC : IsPiece n bbs m C) (hid : B.id = C.id) :
    l = m ∧ B = C := by
  have hBC : B = C := block_unique hnodup (mem_splitBlocks.mpr ⟨l, hB⟩)
    (mem_splitBlocks.mpr ⟨m, hC⟩) hid
  subst hBC
  obtain ⟨ps, hps, hB⟩ := hB
  obtain ⟨qs, hqs, hC⟩ := hC
  have hflat := List.nodup_flatMap.mp (List.Nodup.of_map Block.id hnodup)
  have hpair : (l.1, ps) = (m.1, qs) := by
    by_contra hne
    have hsymm : Std.Symm (Function.onFun List.Disjoint
        (Prod.snd : ℕ × List Block → List Block)) := ⟨fun _ _ h => h.symm⟩
    have hdisj := hflat.2.forall hps hqs hne
    exact hdisj (List.mem_of_getElem? hB) (List.mem_of_getElem? hC)
  obtain ⟨hl, rfl⟩ := Prod.ext_iff.mp hpair
  have hindex : l.2 = m.2 := by
    obtain ⟨hi, hBi⟩ := List.getElem?_eq_some_iff.mp hB
    obtain ⟨hj, hCj⟩ := List.getElem?_eq_some_iff.mp hC
    exact ((hflat.1 _ hps).getElem_inj_iff).mp (hBi.trans hCj.symm)
  exact ⟨Prod.ext hl hindex, rfl⟩

theorem IsPiece.same (hnodup : (bbs.map Block.id).Nodup) {m : ℕ × ℕ} {B C : Block}
    (hB : IsPiece n bbs m B) (hC : IsPiece n bbs m C) : B = C := by
  obtain ⟨ps, hps, hB⟩ := hB
  obtain ⟨qs, hqs, hC⟩ := hC
  cases layout_unique hnodup hps hqs
  exact Option.some.inj (hB.symm.trans hC)

theorem piece_of_reach {edges : List Edge} {l m : ℕ × ℕ} {B : Block} (hB : IsPiece n bbs m B)
    (hreach : Relation.ReflTransGen (Joined bbs edges) m l) : ∃ C, IsPiece n bbs l C := by
  cases hreach with
  | refl => exact ⟨B, hB⟩
  | tail _ hstep =>
    obtain ⟨-, -, t, ht, -⟩ := hstep
    exact ht.piece

theorem splitBlocks_get {m : ℕ × ℕ} {ib : Block} (hnodup : (bbs.map Block.id).Nodup)
    (hib : ib ∈ bbs) (hid : ib.id = m.1) {ps : List Block} (hps : (m.1, ps) ∈ layout n bbs) :
    ps.length = (stretches ib.instrs).length := by
  obtain ⟨ib', hib', hid', k, -, rfl⟩ := mem_layout hps
  cases block_unique hnodup hib hib' (hid.trans hid'.symm)
  exact pieces_length _ _ _

theorem lastId_piece {ib : Block} {ps : List Block} (hne : ib.instrs ≠ [])
    (hps : (ib.id, ps) ∈ layout n bbs) (hlen : ps.length = (stretches ib.instrs).length) :
    ∃ k B, k + 1 = (stretches ib.instrs).length ∧ IsPiece n bbs (ib.id, k) B
      ∧ B.id = lastId ib.id ps := by
  have hpos : 0 < ps.length := by
    rw [hlen]
    exact List.length_pos_iff.mpr (stretches_ne_nil hne)
  have hlast : ps[ps.length - 1]? = some (ps.getLast (List.length_pos_iff.mp hpos)) := by
    rw [← List.getLast?_eq_getElem?, List.getLast?_eq_some_getLast]
  refine ⟨ps.length - 1, _, by omega, ⟨ps, hps, hlast⟩, ?_⟩
  unfold lastId
  rw [List.getLast?_eq_some_getLast (List.length_pos_iff.mp hpos)]
  rfl

theorem firstPiece_id {m : ℕ × ℕ} {B : Block} (h : IsPiece n bbs m B) (hm : m.2 = 0) :
    B.id = m.1 := by
  obtain ⟨ps, hps, hB⟩ := h
  obtain ⟨ib, hib, hid, k, -, rfl⟩ := mem_layout hps
  rw [hm] at hB
  obtain ⟨Bs, hBs⟩ : ∃ Bs, pieces k m.1 (stretches ib.instrs) = B :: Bs := by
    cases hp : pieces k m.1 (stretches ib.instrs) with
    | nil =>
      rw [hp] at hB
      cases hB
    | cons C Cs =>
      rw [hp] at hB
      cases hB
      exact ⟨Cs, rfl⟩
  exact pieces_head hBs

theorem mem_split_edges {f : Function} (hids : f.bbs.map Block.id = bbs.map Block.id)
    (hf : WellFormed f) (hfilled : ∀ ib ∈ bbs, ib.instrs ≠ []) {es : List Edge}
    (hes : ∀ e, e ∈ es ↔ (e ∈ f.edges ∧ e.ibeFrom ∉ bbs.map Block.id)
      ∨ (∃ x ∈ layout n bbs, ∃ e₀ ∈ f.edges, e₀.ibeFrom = x.1 ∧ e = ⟨lastId x.1 x.2, e₀.ibeTo⟩)
      ∨ ∃ x ∈ layout n bbs, e ∈ links x.2) (e : Edge) :
    e ∈ es ↔ ∃ l m B C, Passes bbs f.edges l m ∧ IsPiece n bbs l B ∧ IsPiece n bbs m C
      ∧ e = ⟨B.id, C.id⟩ := by
  have hnodup : (bbs.map Block.id).Nodup := hids ▸ hf.nodup
  have hends := hf.edges
  rw [hids] at hends
  rw [hes]
  constructor
  · rintro (⟨he, hfrom⟩ | ⟨⟨id, ps⟩, hx, e₀, he₀, hfrom, rfl⟩ | ⟨⟨id, ps⟩, hx, he⟩)
    · exact absurd (hends e he).1 hfrom
    · obtain ⟨ib, hib, rfl, k, -, hps⟩ := mem_layout hx
      have hlen : ps.length = (stretches ib.instrs).length := hps ▸ pieces_length _ _ _
      obtain ⟨j, B, hj, hB, hid⟩ := lastId_piece (hfilled ib hib) hx hlen
      obtain ⟨ib', hib', hto⟩ := List.mem_map.mp (hends e₀ he₀).2
      obtain ⟨s, ss, hss⟩ := List.exists_cons_of_ne_nil (stretches_ne_nil (hfilled ib' hib'))
      have hfirst : IsStretch bbs (ib'.id, 0) s := ⟨ib', hib', rfl, by rw [hss]; rfl⟩
      obtain ⟨C, hC⟩ := hfirst.piece (n := n)
      refine ⟨(ib.id, j), (ib'.id, 0), B, C, Or.inr ⟨rfl, ?_, ib, hib, rfl, hj⟩, hB, hC, ?_⟩
      · rw [hto, ← hfrom]
        exact he₀
      · rw [hid, firstPiece_id hC rfl, hto]
    · obtain ⟨k, B, C, hB, hC, rfl⟩ := mem_links.mp he
      have hpB : IsPiece n bbs (id, k) B := ⟨ps, hx, hB⟩
      have hpC : IsPiece n bbs (id, k + 1) C := ⟨ps, hx, hC⟩
      obtain ⟨s, hs, -⟩ := hpB.stretch
      obtain ⟨t, ht, -⟩ := hpC.stretch
      exact ⟨(id, k), (id, k + 1), B, C, Or.inl ⟨rfl, ⟨s, hs⟩, t, ht⟩, hpB, hpC, rfl⟩
  · rintro ⟨l, m, B, C, hpass, hB, hC, rfl⟩
    rcases hpass with ⟨rfl, -, -⟩ | ⟨hm, he, ib, hib, hid, hlast⟩
    · obtain ⟨ps, hps, hB⟩ := hB
      obtain ⟨qs, hqs, hC⟩ := hC
      cases layout_unique hnodup hps hqs
      exact Or.inr (Or.inr ⟨(l.1, ps), hps, mem_links.mpr ⟨l.2, B, C, hB, hC, rfl⟩⟩)
    · obtain ⟨ps, hps, hBk⟩ := hB
      have hlen := splitBlocks_get hnodup hib hid hps
      have hBid : B.id = lastId l.1 ps := by
        unfold lastId
        rw [List.getLast?_eq_getElem?, show ps.length - 1 = l.2 by omega, hBk]
        rfl
      rw [firstPiece_id hC hm, hBid]
      exact Or.inr (Or.inl ⟨(l.1, ps), hps, ⟨l.1, m.1⟩, he, rfl, rfl⟩)

end

/-- What the splitting leaves of a function with marked blocks `bbs`. -/
structure SplitOf (bbs : List Block) (edges : List Edge) (n : ℕ) (r : Split) : Prop where
  nodup : (bbs.map Block.id).Nodup
  blocks : r.bbs = splitBlocks n bbs
  ids : ((splitBlocks n bbs).map Block.id).Nodup
  edges : ∀ e, e ∈ r.edges ↔ ∃ l m B C, Passes bbs edges l m ∧ IsPiece n bbs l B
    ∧ IsPiece n bbs m C ∧ e = ⟨B.id, C.id⟩

section
variable {bbs : List Block} {edges : List Edge} {n : ℕ} {r : Split}
  (h : SplitOf bbs edges n r) {m : ℕ × ℕ} {B : Block}
include h

theorem bbOf_piece (hB : IsPiece n bbs m B) : bbOf r.bbs B.id = some B := by
  rw [h.blocks]
  exact bbOf_of_mem h.ids (mem_splitBlocks.mpr ⟨m, hB⟩)

theorem isJit_piece (hB : IsPiece n bbs m B) : isJit r.bbs B.id = B.jit := by
  unfold isJit
  rw [bbOf_piece h hB]
  rfl

theorem piece_jit (hB : IsPiece n bbs m B) {s : List JitInstr} (hs : IsStretch bbs m s) :
    isJit r.bbs B.id = mark s := by
  obtain ⟨s', hs', hjit, -⟩ := hB.stretch
  rw [isJit_piece h hB, hjit, hs'.unique h.nodup hs]

theorem piece_instrs (hB : IsPiece n bbs m B) {s : List JitInstr} (hs : IsStretch bbs m s) :
    ∃ next, B.instrs = s ∨ B.instrs = s ++ pieceEnd next s := by
  obtain ⟨s', hs', -, hinstrs⟩ := hB.stretch
  cases hs'.unique h.nodup hs
  exact hinstrs

theorem liveInto_piece (hB : IsPiece n bbs m B) {s : List JitInstr} (hs : IsStretch bbs m s) :
    liveInto r.bbs B.id = before s := by
  have hhead : B.instrs.head? = s.head? := by
    obtain ⟨next, heq | heq⟩ := piece_instrs h hB hs
    · rw [heq]
    · rw [heq, List.head?_append_of_ne_nil _ hs.ne_nil]
  unfold liveInto before
  rw [bbOf_piece h hB, Option.bind_some, hhead]

theorem liveOut_piece (hB : IsPiece n bbs m B) {s : List JitInstr} (hs : IsStretch bbs m s) :
    liveOut r.bbs B.id = behind s := by
  unfold liveOut behind
  rw [bbOf_piece h hB, Option.bind_some]
  obtain ⟨next, heq | heq⟩ := piece_instrs h hB hs
  · rw [heq]
  · -- the branch has the liveness of the instruction before it
    rw [heq, pieceEnd, List.getLast?_eq_some_getLast hs.ne_nil]
    change (s ++ [_]).getLast?.elim ∅ JitInstr.out = _
    rw [List.getLast?_concat]
    rfl

theorem exists_piece_of_jit {b : ℕ} (hb : isJit r.bbs b = true) :
    ∃ m B, IsPiece n bbs m B ∧ B.id = b := by
  have hmem := isJit_mem_ids hb
  rw [h.blocks] at hmem
  obtain ⟨B, hB, hid⟩ := List.mem_map.mp hmem
  obtain ⟨m, hm⟩ := mem_splitBlocks.mp hB
  exact ⟨m, B, hm, hid⟩

theorem mem_edges_pieces {l : ℕ × ℕ} {C : Block} (hB : IsPiece n bbs m B)
    (hC : IsPiece n bbs l C) : ⟨B.id, C.id⟩ ∈ r.edges ↔ Passes bbs edges m l := by
  rw [h.edges]
  constructor
  · rintro ⟨m', l', B', C', hpass, hB', hC', heq⟩
    obtain ⟨hBid, hCid⟩ := Edge.mk.inj heq
    cases (hB.unique h.ids hB' hBid).1
    cases (hC.unique h.ids hC' hCid).1
    exact hpass
  · intro hpass
    exact ⟨m, l, B, C, hpass, hB, hC, rfl⟩

theorem neighbour_iff {l : ℕ × ℕ} {C : Block} (hB : IsPiece n bbs m B) (hC : IsPiece n bbs l C)
    (hjit : isJit r.bbs B.id = true) :
    C.id ∈ neighbours r.bbs r.edges B.id ↔ Joined bbs edges m l := by
  have hmark : ∀ {k : ℕ × ℕ} {D : Block}, IsPiece n bbs k D →
      (isJit r.bbs D.id = true ↔ ∃ s, IsStretch bbs k s ∧ mark s = true) := by
    intro k D hD
    obtain ⟨s, hs, -⟩ := hD.stretch
    rw [piece_jit h hD hs]
    constructor
    · intro hm
      exact ⟨s, hs, hm⟩
    · rintro ⟨s', hs', hm⟩
      rw [hs.unique h.nodup hs']
      exact hm
  rw [mem_neighbours]
  unfold Joined
  rw [← hmark hB, ← hmark hC, ← mem_edges_pieces h hB hC, ← mem_edges_pieces h hC hB]
  have hfrom : (∃ e ∈ r.edges, e.ibeFrom = B.id ∧ e.ibeTo = C.id)
      ↔ (⟨B.id, C.id⟩ : Edge) ∈ r.edges := by
    constructor
    · rintro ⟨e, he, hb, hc⟩
      rw [← hb, ← hc]
      exact he
    · intro he
      exact ⟨_, he, rfl, rfl⟩
  have hto : (∃ e ∈ r.edges, e.ibeTo = B.id ∧ e.ibeFrom = C.id)
      ↔ (⟨C.id, B.id⟩ : Edge) ∈ r.edges := by
    constructor
    · rintro ⟨e, he, hb, hc⟩
      rw [← hb, ← hc]
      exact he
    · intro he
      exact ⟨_, he, rfl, rfl⟩
  rw [hfrom, hto]
  tauto

theorem reach_iff (hB : IsPiece n bbs m B) (hjit : isJit r.bbs B.id = true) {c : ℕ} :
    Reach (neighbours r.bbs r.edges) B.id c ↔ ∃ l C, IsPiece n bbs l C ∧ C.id = c
      ∧ Relation.ReflTransGen (Joined bbs edges) m l := by
  constructor
  · intro hreach
    induction hreach with
    | refl => exact ⟨m, B, hB, rfl, Relation.ReflTransGen.refl⟩
    | tail hac hcd ih =>
      obtain ⟨l, C, hC, rfl, hml⟩ := ih
      obtain ⟨k, D, hD, rfl⟩ := exists_piece_of_jit h (isJit_of_neighbour hcd)
      have hCjit := isJit_of_reach hjit hac
      exact ⟨k, D, hD, rfl, hml.tail ((neighbour_iff h hC hD hCjit).mp hcd)⟩
  · rintro ⟨l, C, hC, rfl, hml⟩
    induction hml generalizing C with
    | refl =>
      cases hB.same h.nodup hC
      exact Relation.ReflTransGen.refl
    | tail hac hcd ih =>
      obtain ⟨s, hs, -⟩ := hcd.2.1
      obtain ⟨D, hD⟩ := hs.piece (n := n)
      have hBD := ih D hD
      exact hBD.tail ((neighbour_iff h hD hC (isJit_of_reach hjit hBD)).mpr hcd)

theorem mem_blockMask_piece (hB : IsPiece n bbs m B) {v : ℕ} :
    v ∈ blockMask r.bbs r.edges B.id ↔ Beside bbs edges m v := by
  rw [mem_blockMask]
  unfold Beside
  apply or_congr
  · constructor
    · rintro ⟨e, he, hfrom, hjit, hv⟩
      obtain ⟨l, p, B', C, hpass, hB', hC, rfl⟩ := (h.edges e).mp he
      cases (hB'.unique h.ids hB hfrom).1
      obtain ⟨t, ht, -⟩ := hC.stretch
      exact ⟨p, t, hpass, ht, (piece_jit h hC ht).symm.trans hjit, liveInto_piece h hC ht ▸ hv⟩
    · rintro ⟨p, t, hpass, ht, hmark, hv⟩
      obtain ⟨C, hC⟩ := ht.piece (n := n)
      exact ⟨⟨B.id, C.id⟩, (mem_edges_pieces h hB hC).mpr hpass, rfl,
        (piece_jit h hC ht).trans hmark, (liveInto_piece h hC ht).symm ▸ hv⟩
  · constructor
    · rintro ⟨e, he, hto, hjit, hv⟩
      obtain ⟨p, l, C, B', hpass, hC, hB', rfl⟩ := (h.edges e).mp he
      cases (hB'.unique h.ids hB hto).1
      obtain ⟨t, ht, -⟩ := hC.stretch
      exact ⟨p, t, hpass, ht, (piece_jit h hC ht).symm.trans hjit, liveOut_piece h hC ht ▸ hv⟩
    · rintro ⟨p, t, hpass, ht, hmark, hv⟩
      obtain ⟨C, hC⟩ := ht.piece (n := n)
      exact ⟨⟨C.id, B.id⟩, (mem_edges_pieces h hC hB).mpr hpass, rfl,
        (piece_jit h hC ht).trans hmark, (liveOut_piece h hC ht).symm ▸ hv⟩

theorem mem_piece_instrs (hB : IsPiece n bbs m B) {s : List JitInstr} (hs : IsStretch bbs m s)
    {ii : JitInstr} (hii : ii ∈ B.instrs) :
    ii ∈ s ∨ ∃ next prev, ii = pieceBranch next (mark s) prev := by
  obtain ⟨next, heq | heq⟩ := piece_instrs h hB hs
  · exact Or.inl (heq ▸ hii)
  · rw [heq] at hii
    rcases List.mem_append.mp hii with hmem | hmem
    · exact Or.inl hmem
    · obtain ⟨prev, -, rfl⟩ := List.mem_map.mp hmem
      exact Or.inr ⟨next, prev, rfl⟩

theorem stretch_subset (hB : IsPiece n bbs m B) {s : List JitInstr} (hs : IsStretch bbs m s)
    {ii : JitInstr} (hii : ii ∈ s) : ii ∈ B.instrs := by
  obtain ⟨next, heq | heq⟩ := piece_instrs h hB hs
  · exact heq ▸ hii
  · exact heq ▸ List.mem_append_left _ hii

theorem allJit_iff {v : ℕ} : allJit r.bbs v = true ↔ Chained bbs v := by
  have hall : allJit r.bbs v = true
      ↔ ∀ B ∈ r.bbs, ∀ ii ∈ B.instrs, v ∈ ii.values → ii.jit = true := by
    unfold allJit
    simp only [List.all_eq_true, Bool.or_eq_true, decide_eq_true_eq, imp_iff_not_or]
  rw [hall, h.blocks]
  constructor
  · intro hjit ib hib ii hii
    obtain ⟨m, s, hs, hmem⟩ := exists_stretch hib hii
    obtain ⟨B, hB⟩ := hs.piece (n := n)
    exact hjit B (mem_splitBlocks.mpr ⟨m, hB⟩) ii (stretch_subset h hB hs hmem)
  · intro hjit B hB ii hii hv
    obtain ⟨m, hm⟩ := mem_splitBlocks.mp hB
    obtain ⟨s, hs, -⟩ := hm.stretch
    rcases mem_piece_instrs h hm hs hii with hmem | ⟨next, prev, rfl⟩
    · obtain ⟨ib, hib, hii'⟩ := hs.block hmem
      exact hjit ib hib ii hii' hv
    · exact absurd hv List.not_mem_nil

/-- The values that get `iv_jit`. -/
theorem given_iff {v : ℕ} : (∃ b ∈ jitIds (splitBlocks n bbs), Given r.bbs r.edges b v)
    ↔ Chained bbs v ∧ ¬ Bordered bbs edges v := by
  unfold Given Bordered
  constructor
  · rintro ⟨b, hb, ⟨ii, hii, hres⟩, hall, hmask⟩
    refine ⟨(allJit_iff h).mp hall, fun hbord => ?_⟩
    obtain ⟨B, hB, rfl⟩ := List.mem_map.mp hb
    obtain ⟨hBmem, hBjit⟩ := List.mem_filter.mp hB
    obtain ⟨m, hm⟩ := mem_splitBlocks.mp hBmem
    obtain ⟨s, hs, -⟩ := hm.stretch
    rw [bbOf_piece h hm] at hii
    have hjit : isJit r.bbs B.id = true := (isJit_piece h hm).trans hBjit
    have hdef : ∃ ii ∈ s, result ii = some v := by
      rcases mem_piece_instrs h hm hs hii with hmem | ⟨next, prev, rfl⟩
      · exact ⟨ii, hmem, hres⟩
      · cases hres
    obtain ⟨l, hreach, hbeside⟩ := hbord m s hs ((piece_jit h hm hs).symm.trans hjit) hdef
    obtain ⟨C, hC⟩ := piece_of_reach hm hreach
    exact hmask C.id ((reach_iff h hm hjit).mpr ⟨l, C, hC, rfl, hreach⟩)
      ((mem_blockMask_piece h hC).mpr hbeside)
  · rintro ⟨hchained, hbord⟩
    push Not at hbord
    obtain ⟨m, s, hs, hmark, ⟨ii, hii, hres⟩, hnot⟩ := hbord
    obtain ⟨B, hB⟩ := hs.piece (n := n)
    have hjit : isJit r.bbs B.id = true := (piece_jit h hB hs).trans hmark
    refine ⟨B.id, ?_, ⟨ii, ?_, hres⟩, (allJit_iff h).mpr hchained, fun c hc hmask => ?_⟩
    · apply List.mem_map_of_mem
      exact List.mem_filter.mpr ⟨mem_splitBlocks.mpr ⟨m, hB⟩, (isJit_piece h hB).symm.trans hjit⟩
    · rw [bbOf_piece h hB]
      exact stretch_subset h hB hs hii
    · obtain ⟨l, C, hC, rfl, hreach⟩ := (reach_iff h hB hjit).mp hc
      exact hnot l hreach ((mem_blockMask_piece h hC).mp hmask)

/-- The exposed values are those that are live over an edge between the two executors of the split
function, or that an instruction left to the interpreter names. -/
theorem exposed_iff {v : ℕ} : Exposed bbs edges v
    ↔ (∃ e ∈ r.edges, isJit r.bbs e.ibeFrom ≠ isJit r.bbs e.ibeTo ∧ v ∈ liveInto r.bbs e.ibeTo)
      ∨ ∃ B ∈ r.bbs, ∃ ii ∈ B.instrs, Names ii v ∧ B.jit = false := by
  unfold Exposed
  apply or_congr
  · constructor
    · rintro ⟨l, m, s, t, hpass, hs, ht, hne, hv⟩
      obtain ⟨B, hB⟩ := hs.piece (n := n)
      obtain ⟨C, hC⟩ := ht.piece (n := n)
      refine ⟨⟨B.id, C.id⟩, (mem_edges_pieces h hB hC).mpr hpass, ?_, ?_⟩
      · rw [piece_jit h hB hs, piece_jit h hC ht]
        exact hne
      · rw [liveInto_piece h hC ht]
        exact hv
    · rintro ⟨e, he, hne, hv⟩
      obtain ⟨l, m, B, C, hpass, hB, hC, rfl⟩ := (h.edges e).mp he
      obtain ⟨s, hs, -⟩ := hB.stretch
      obtain ⟨t, ht, -⟩ := hC.stretch
      rw [piece_jit h hB hs, piece_jit h hC ht] at hne
      rw [liveInto_piece h hC ht] at hv
      exact ⟨l, m, s, t, hpass, hs, ht, hne, hv⟩
  · rw [h.blocks]
    constructor
    · rintro ⟨ib, hib, ii, hii, hnames, hjit⟩
      obtain ⟨m, s, hs, hmem⟩ := exists_stretch hib hii
      obtain ⟨B, hB⟩ := hs.piece (n := n)
      refine ⟨B, mem_splitBlocks.mpr ⟨m, hB⟩, ii, stretch_subset h hB hs hmem, hnames, ?_⟩
      rw [← isJit_piece h hB, piece_jit h hB hs, ← hs.mark_mem hmem]
      exact hjit
    · rintro ⟨B, hB, ii, hii, hnames, hjit⟩
      obtain ⟨m, hm⟩ := mem_splitBlocks.mp hB
      obtain ⟨s, hs, -⟩ := hm.stretch
      rcases mem_piece_instrs h hm hs hii with hmem | ⟨next, prev, rfl⟩
      · obtain ⟨ib, hib, hii'⟩ := hs.block hmem
        refine ⟨ib, hib, ii, hii', hnames, ?_⟩
        rw [hs.mark_mem hmem, ← piece_jit h hm hs, isJit_piece h hm]
        exact hjit
      · exact absurd hnames List.not_mem_nil

end

section
variable {jitCheck : Instr → Bool} {bbs marked : List Block}

theorem clearRet_ok {ib : Block} (hne : ib.instrs ≠ []) : ∃ ib', clearRet ib = .ok ib'
    ∧ ib'.id = ib.id ∧ ib'.instrs ≠ []
    ∧ ∀ ii ∈ ib'.instrs, ∃ ii₀ ∈ ib.instrs, ii.instr = ii₀.instr
      ∧ (ii.jit = true → ii₀.jit = true) := by
  unfold clearRet
  rw [List.getLast?_eq_some_getLast hne]
  by_cases hret : isRet (ib.instrs.getLast hne) = true
  · refine ⟨_, congrArg Except.ok (if_pos hret), rfl,
      List.append_ne_nil_of_right_ne_nil _ (List.cons_ne_nil _ []), ?_⟩
    intro ii hii
    rcases List.mem_append.mp hii with hmem | hmem
    · exact ⟨ii, List.mem_of_mem_dropLast hmem, rfl, id⟩
    · rw [List.mem_singleton.mp hmem]
      exact ⟨_, List.getLast_mem hne, rfl, fun hjit => absurd hjit Bool.false_ne_true⟩
  · exact ⟨ib, congrArg Except.ok (if_neg hret), rfl, hne, fun ii hii => ⟨ii, hii, rfl, id⟩⟩

structure Marked (jitCheck : Instr → Bool) (bbs marked : List Block) : Prop where
  ids : marked.map Block.id = bbs.map Block.id
  filled : ∀ ib ∈ marked, ib.instrs ≠ []
  instrs : ∀ ib ∈ marked, ∀ ii ∈ ib.instrs, ∃ ib₀ ∈ bbs, ∃ ii₀ ∈ ib₀.instrs,
    ii.instr = ii₀.instr ∧ (ii.jit = true → jitCheck ii.instr = true)

theorem mapM_clearRet (hfilled : ∀ ib ∈ bbs, ib.instrs ≠ []) :
    ∃ marked, bbs.mapM clearRet = .ok marked ∧ marked.map Block.id = bbs.map Block.id
      ∧ (∀ ib ∈ marked, ib.instrs ≠ [])
      ∧ ∀ ib ∈ marked, ∀ ii ∈ ib.instrs, ∃ ib₀ ∈ bbs, ∃ ii₀ ∈ ib₀.instrs,
        ii.instr = ii₀.instr ∧ (ii.jit = true → ii₀.jit = true) := by
  induction bbs with
  | nil =>
    exact ⟨[], rfl, rfl, fun _ h => absurd h List.not_mem_nil,
      fun _ h => absurd h List.not_mem_nil⟩
  | cons ib bbs ih =>
    obtain ⟨ib', hib', hid, hne, hinstrs⟩ := clearRet_ok (hfilled ib List.mem_cons_self)
    obtain ⟨marked, hmarked, hids, hfilled', hrest⟩ :=
      ih fun b hb => hfilled b (List.mem_cons_of_mem _ hb)
    refine ⟨ib' :: marked, ?_, ?_, ?_, ?_⟩
    · rw [List.mapM_cons, hib', hmarked]
      rfl
    · rw [List.map_cons, List.map_cons, hid, hids]
    · intro b hb
      rcases List.mem_cons.mp hb with rfl | hmem
      · exact hne
      · exact hfilled' b hmem
    · intro b hb ii hii
      rcases List.mem_cons.mp hb with rfl | hmem
      · obtain ⟨ii₀, hii₀, h⟩ := hinstrs ii hii
        exact ⟨ib, List.mem_cons_self, ii₀, hii₀, h⟩
      · obtain ⟨ib₀, hib₀, h⟩ := hrest b hmem ii hii
        exact ⟨ib₀, List.mem_cons_of_mem _ hib₀, h⟩

theorem checkBb_instrs {ib : Block} {ii : JitInstr} (h : ii ∈ (checkBb jitCheck ib).instrs) :
    ∃ ii₀ ∈ ib.instrs, ii.instr = ii₀.instr ∧ ii.jit = jitCheck ii.instr := by
  obtain ⟨ii₀, hii₀, rfl⟩ := List.mem_map.mp h
  exact ⟨ii₀, hii₀, rfl, rfl⟩

theorem markJit_ok (jitCheck : Instr → Bool) (hfilled : ∀ ib ∈ bbs, ib.instrs ≠ []) :
    ∃ marked full, markJit jitCheck bbs = .ok (marked, full) ∧ Marked jitCheck bbs marked
      ∧ (full = true → ∀ ib ∈ marked, ∀ ii ∈ ib.instrs, ii.jit = true) := by
  have hids : (bbs.map (checkBb jitCheck)).map Block.id = bbs.map Block.id := by
    rw [List.map_map]
    exact List.map_congr_left fun _ _ => rfl
  have hfilled' : ∀ ib ∈ bbs.map (checkBb jitCheck), ib.instrs ≠ [] := by
    intro ib hib
    obtain ⟨ib₀, hib₀, rfl⟩ := List.mem_map.mp hib
    exact fun hnil => hfilled ib₀ hib₀ (List.map_eq_nil_iff.mp hnil)
  have hinstrs : ∀ ib ∈ bbs.map (checkBb jitCheck), ∀ ii ∈ ib.instrs, ∃ ib₀ ∈ bbs,
      ∃ ii₀ ∈ ib₀.instrs, ii.instr = ii₀.instr ∧ ii.jit = jitCheck ii.instr := by
    intro ib hib ii hii
    obtain ⟨ib₀, hib₀, rfl⟩ := List.mem_map.mp hib
    obtain ⟨ii₀, hii₀, h⟩ := checkBb_instrs hii
    exact ⟨ib₀, hib₀, ii₀, hii₀, h⟩
  unfold markJit
  by_cases hall : ((bbs.map (checkBb jitCheck)).all fun ib => ib.instrs.all JitInstr.jit) = true
  · refine ⟨_, true, if_pos hall, ⟨hids, hfilled', ?_⟩, fun _ => ?_⟩
    · intro ib hib ii hii
      obtain ⟨ib₀, hib₀, ii₀, hii₀, hinstr, hjit⟩ := hinstrs ib hib ii hii
      exact ⟨ib₀, hib₀, ii₀, hii₀, hinstr, fun h => hjit.symm.trans h⟩
    · intro ib hib ii hii
      exact List.all_eq_true.mp (List.all_eq_true.mp hall ib hib) ii hii
  · obtain ⟨marked, hmarked, hids', hfilled'', hrest⟩ := mapM_clearRet hfilled'
    refine ⟨marked, false, ?_, ⟨hids'.trans hids, hfilled'', ?_⟩, fun h => by cases h⟩
    · rw [if_neg hall, hmarked]
      rfl
    · intro ib hib ii hii
      obtain ⟨ib₁, hib₁, ii₁, hii₁, hinstr₁, hjit₁⟩ := hrest ib hib ii hii
      obtain ⟨ib₀, hib₀, ii₀, hii₀, hinstr, hjit⟩ := hinstrs ib₁ hib₁ ii₁ hii₁
      refine ⟨ib₀, hib₀, ii₀, hii₀, hinstr₁.trans hinstr, fun h => ?_⟩
      rw [hinstr₁, ← hjit]
      exact hjit₁ h

end

theorem foldlM_giveAll {isTemporary : ℕ → Bool} {is : List JitInstr}
    (htemp : ∀ ii ∈ is, ∀ v, result ii = some v → isTemporary v = true) (ivJit : List ℕ) :
    ∃ given, is.foldlM (giveAll isTemporary) ivJit = .ok given := by
  induction is generalizing ivJit with
  | nil => exact ⟨ivJit, rfl⟩
  | cons ii is ih =>
    have hturn : ∃ next, giveAll isTemporary ivJit ii = .ok next := by
      unfold giveAll
      cases hres : result ii with
      | none => exact ⟨ivJit, rfl⟩
      | some v => exact ⟨v :: ivJit, if_pos (htemp ii List.mem_cons_self v hres)⟩
    obtain ⟨next, hnext⟩ := hturn
    obtain ⟨given, hgiven⟩ := ih (fun i hi => htemp i (List.mem_cons_of_mem _ hi)) next
    refine ⟨given, ?_⟩
    rw [List.foldlM_cons, hnext]
    exact hgiven

theorem fresh_of_wellFormed {f : Function} (hf : WellFormed f) {jitCheck : Instr → Bool}
    {bbs : List Block} (hbbs : Marked jitCheck f.bbs bbs) :
    Fresh ⟨[], f.edges, f.numBbs, []⟩ bbs := by
  have hknown : ∀ i ∈ f.bbs.map Block.id, i < f.numBbs := by
    intro i hi
    obtain ⟨ib, hib, rfl⟩ := List.mem_map.mp hi
    exact hf.known ib hib
  constructor
  · exact hbbs.filled
  · rw [hbbs.ids]
    exact hf.nodup
  · intro ib hib
    apply hknown
    rw [← hbbs.ids]
    exact List.mem_map_of_mem hib
  · exact fun e he => hknown _ (hf.edges e he).1

theorem pending_start {bbs : List Block} {edges : List Edge}
    (hnodup : (bbs.map Block.id).Nodup) : Pending bbs edges (jitIds bbs).reverse [] := by
  constructor
  · apply List.nodup_reverse.mpr
    exact hnodup.sublist (List.Sublist.map _ List.filter_sublist)
  · intro b
    have hiff : isJit bbs b = true ↔ b ∈ jitIds bbs := by
      constructor
      · intro hjit
        obtain ⟨B, hB, rfl⟩ := List.mem_map.mp (isJit_mem_ids hjit)
        unfold isJit at hjit
        rw [bbOf_of_mem hnodup hB] at hjit
        exact List.mem_map_of_mem (List.mem_filter.mpr ⟨hB, hjit⟩)
      · intro hmem
        obtain ⟨B, hB, rfl⟩ := List.mem_map.mp hmem
        obtain ⟨hBmem, hjit⟩ := List.mem_filter.mp hB
        unfold isJit
        rw [bbOf_of_mem hnodup hBmem]
        exact hjit
    rw [hiff, List.mem_reverse]
    exact ⟨Or.inl, fun h => h.resolve_right List.not_mem_nil⟩
  · exact fun _ _ => List.not_mem_nil
  · exact fun b hb => absurd hb List.not_mem_nil

/-- A function that is compiled as a whole has no border. -/
theorem full_safe {bbs : List Block} {edges : List Edge} {f : Function} {ivJit : List ℕ}
    (hf : WellFormed f) (hids : bbs.map Block.id = f.bbs.map Block.id)
    (hjit : ∀ ib ∈ bbs, ∀ ii ∈ ib.instrs, ii.jit = true) :
    BoundarySafe ⟨{ f with bbs := bbs.map fun ib => { ib with jit := true }, fullJit := true },
        ivJit⟩ ↔ Covered bbs edges := by
  have hids' : (bbs.map fun ib => ({ ib with jit := true } : Block)).map Block.id
      = f.bbs.map Block.id := by
    rw [List.map_map, ← hids]
    exact List.map_congr_left fun _ _ => rfl
  have hsafe : BoundarySafe ⟨{ f with
      bbs := bbs.map fun ib => { ib with jit := true }, fullJit := true }, ivJit⟩ := by
    have hall : ∀ i ∈ f.bbs.map Block.id,
        isJit (bbs.map fun ib => ({ ib with jit := true } : Block)) i = true := by
      intro i hi
      rw [← hids'] at hi
      obtain ⟨B, hB, rfl⟩ := List.mem_map.mp hi
      unfold isJit
      rw [bbOf_of_mem (hids' ▸ hf.nodup) hB]
      obtain ⟨ib, -, rfl⟩ := List.mem_map.mp hB
      rfl
    constructor
    · intro e he hne
      obtain ⟨hfrom, hto⟩ := hf.edges e he
      exact absurd ((hall _ hfrom).trans (hall _ hto).symm) hne
    · intro B hB ii _ v _ _
      obtain ⟨ib, -, rfl⟩ := List.mem_map.mp hB
      rfl
  have hcovered : Covered bbs edges := by
    intro v _ hexposed
    have hmark : ∀ {m s}, IsStretch bbs m s → mark s = true := by
      intro m s hs
      obtain ⟨ii, rest, rfl⟩ := List.exists_cons_of_ne_nil hs.ne_nil
      obtain ⟨ib, hib, hii⟩ := hs.block List.mem_cons_self
      exact hjit ib hib ii hii
    rcases hexposed with ⟨l, m, s, t, -, hs, ht, hne, -⟩ | ⟨ib, hib, ii, hii, -, hfalse⟩
    · exact absurd ((hmark hs).trans (hmark ht).symm) hne
    · rw [hjit ib hib ii hii] at hfalse
      cases hfalse
  exact ⟨fun _ => hcovered, fun _ => hsafe⟩

theorem split_safe {bbs : List Block} {edges : List Edge} {n : ℕ} {r : Split}
    (h : SplitOf bbs edges n r) {given : List ℕ}
    (hgiven : ∀ v, v ∈ given ↔ ∃ b ∈ jitIds (splitBlocks n bbs), Given r.bbs r.edges b v)
    (numBbs : ℕ) (fullJit : Bool) :
    BoundarySafe ⟨⟨r.bbs, r.edges, numBbs, fullJit⟩, given⟩ ↔ Covered bbs edges := by
  constructor
  · intro hsafe v hchained hexposed
    by_contra hbord
    have hv : v ∈ given := (hgiven v).mpr ((given_iff h).mpr ⟨hchained, hbord⟩)
    rcases (exposed_iff h).mp hexposed with ⟨e, he, hne, hlive⟩ | ⟨B, hB, ii, hii, hnames, hjit⟩
    · exact hsafe.edges e he hne v hv hlive
    · have hjit' := hsafe.instrs B hB ii hii v hv hnames
      rw [hjit] at hjit'
      cases hjit'
  · intro hcovered
    have hnot : ∀ v ∈ given, ¬ Exposed bbs edges v := by
      intro v hv hexposed
      obtain ⟨hchained, hbord⟩ := (given_iff h).mp ((hgiven v).mp hv)
      exact hbord (hcovered v hchained hexposed)
    constructor
    · intro e he hne v hv hlive
      exact hnot v hv ((exposed_iff h).mpr (Or.inl ⟨e, he, hne, hlive⟩))
    · intro B hB ii hii v hv hnames
      rw [← Bool.not_eq_false]
      intro hjit
      exact hnot v hv ((exposed_iff h).mpr (Or.inr ⟨B, hB, ii, hii, hnames, hjit⟩))

/-- No value in a machine register is live on the border of the JIT blocks, or named by an
interpreted block, if and only if each value that is live on a border, or named by an instruction
that is not compiled, is live on the border of every cluster of compiled instructions that defines
it. -/
theorem jitAnalyze_safe_iff {jitCheck : Instr → Bool} {isTemporary : ℕ → Bool} {f : Function}
    (hf : WellFormed f) (htemp : ∀ ib ∈ f.bbs, ∀ ii ∈ ib.instrs, jitCheck ii.instr = true →
      ∀ v, result ii = some v → isTemporary v = true) :
    ∃ bbs full a, markJit jitCheck f.bbs = .ok (bbs, full)
      ∧ jitAnalyze jitCheck isTemporary f = .ok a ∧ (BoundarySafe a ↔ Covered bbs f.edges) := by
  obtain ⟨bbs, full, hmark, hbbs, hfull⟩ := markJit_ok jitCheck hf.filled
  have hnodup : (bbs.map Block.id).Nodup := hbbs.ids ▸ hf.nodup
  have htemp' : ∀ ib ∈ bbs, ∀ ii ∈ ib.instrs, ii.jit = true → ∀ v, result ii = some v →
      isTemporary v = true := by
    intro ib hib ii hii hjit v hv
    obtain ⟨ib₀, hib₀, ii₀, hii₀, hinstr, hcheck⟩ := hbbs.instrs ib hib ii hii
    apply htemp ib₀ hib₀ ii₀ hii₀ (hinstr ▸ hcheck hjit) v
    unfold result at hv ⊢
    rw [← hinstr]
    exact hv
  cases full with
  | true =>
    have hjit := hfull rfl
    have htemps : ∀ ii ∈ bbs.flatMap Block.instrs, ∀ v, result ii = some v →
        isTemporary v = true := by
      intro ii hii v hv
      obtain ⟨ib, hib, hmem⟩ := List.mem_flatMap.mp hii
      exact htemp' ib hib ii hmem (hjit ib hib ii hmem) v hv
    obtain ⟨given, hgiven⟩ := foldlM_giveAll htemps []
    refine ⟨bbs, true, ⟨_, given⟩, hmark, ?_, full_safe hf hbbs.ids hjit⟩
    unfold jitAnalyze
    rw [hmark]
    change (bbs.flatMap Block.instrs).foldlM (giveAll isTemporary) [] >>= _ = _
    rw [hgiven]
    rfl
  | false =>
    have hfresh := fresh_of_wellFormed hf hbbs
    obtain ⟨r, hr, hblocks, hjitbbs, hedges⟩ := splitBbs_ok hfresh
    rw [List.nil_append] at hblocks
    rw [List.append_nil] at hjitbbs
    have hsplit : SplitOf bbs f.edges f.numBbs r :=
      ⟨hnodup, hblocks, splitBlocks_nodup hnodup hfresh.known,
        mem_split_edges hbbs.ids.symm hf hbbs.filled hedges⟩
    have htemps : ∀ ib ∈ r.bbs, ib.jit = true → ∀ ii ∈ ib.instrs, ∀ v, result ii = some v →
        isTemporary v = true := by
      intro B hB hjit ii hii v hv
      rw [hblocks] at hB
      obtain ⟨m, hm⟩ := mem_splitBlocks.mp hB
      obtain ⟨s, hs, -⟩ := hm.stretch
      rcases mem_piece_instrs hsplit hm hs hii with hmem | ⟨next, prev, rfl⟩
      · obtain ⟨ib, hib, hii'⟩ := hs.block hmem
        apply htemp' ib hib ii hii' _ v hv
        rw [hs.mark_mem hmem, ← piece_jit hsplit hm hs, isJit_piece hsplit hm]
        exact hjit
      · cases hv
    have hpending : Pending r.bbs r.edges r.jitbbs [] := by
      rw [hjitbbs, hblocks]
      exact pending_start hsplit.ids
    have hlen : r.jitbbs.length ≤ r.bbs.length + 1 := by
      rw [hjitbbs, hblocks, List.length_reverse, jitIds, List.length_map]
      exact Nat.le_succ_of_le (List.length_filter_le _ _)
    obtain ⟨given, hgiven, hmem⟩ := visitClusters_ok htemps hpending hlen []
    refine ⟨bbs, false, ⟨_, given⟩, hmark, ?_, split_safe hsplit ?_ r.numBbs f.fullJit⟩
    · unfold jitAnalyze
      rw [hmark]
      change splitBbs bbs f.edges f.numBbs >>= _ = _
      unfold splitBbs
      rw [hr]
      change visitClusters r.bbs r.edges isTemporary (r.bbs.length + 1) r.jitbbs [] [] >>= _ = _
      rw [hgiven]
      rfl
    · intro v
      rw [hmem, hjitbbs]
      simp only [List.not_mem_nil, false_or, List.mem_reverse]

/-- The mark of the instructions of the function below, with 32-bit operands. -/
def armCheck (ii : Instr) : Bool :=
  match ii.cls with
  | .binop .. | .store .. | .br .. | .ret none => true
  | _ => false

/-- A function as it stands before register allocation, `x` and `y` of its source having become the
value 9: the one branch of the entry sets `x = a + 1` behind a call, for a PHI whose result nobody
needs, the other sets `y = a + 2`, calls a function, and stores `y + 3`. The values up to 5 are
constants and functions, 6 to 8 the arguments. -/
def mergedDefinitions : Function where
  bbs := [
    ⟨0, [⟨⟨[], .br (some ⟨6, 1⟩) 1 2⟩, [], false, {7, 8}, {6, 7, 8}⟩], false⟩,
    ⟨1, [⟨⟨[], .call ⟨3, 0⟩ []⟩, [], false, {7}, {7}⟩,
      ⟨⟨[⟨9, 2⟩], .binop .add ⟨7, 2⟩ ⟨0, 2⟩⟩, [9], false, ∅, {7}⟩,
      ⟨⟨[], .br none 3 0⟩, [], false, ∅, ∅⟩], false⟩,
    ⟨2, [⟨⟨[⟨9, 2⟩], .binop .add ⟨7, 2⟩ ⟨1, 2⟩⟩, [9], false, {8, 9}, {7, 8}⟩,
      ⟨⟨[], .call ⟨4, 0⟩ []⟩, [], false, {8, 9}, {8, 9}⟩,
      ⟨⟨[⟨10, 2⟩], .binop .add ⟨9, 2⟩ ⟨2, 2⟩⟩, [9, 10], false, {8, 10}, {8, 9}⟩,
      ⟨⟨[], .store ⟨8, 3⟩ ⟨10, 2⟩ 0⟩, [10], false, ∅, {8, 10}⟩,
      ⟨⟨[], .br none 3 0⟩, [], false, ∅, ∅⟩], false⟩,
    ⟨3, [⟨⟨[], .call ⟨5, 0⟩ []⟩, [], false, ∅, ∅⟩,
      ⟨⟨[], .ret none⟩, [], false, ∅, ∅⟩], false⟩]
  edges := [⟨0, 1⟩, ⟨0, 2⟩, ⟨1, 3⟩, ⟨2, 3⟩]
  numBbs := 4
  fullJit := false

theorem mergedDefinitions_wellFormed : WellFormed mergedDefinitions := by
  constructor
  · decide
  · decide
  · decide
  · decide

/-- The value 9 gets a machine register though it is live behind the call. -/
theorem mergedDefinitions_unsafe : WellFormed mergedDefinitions ∧
    ∃ a, jitAnalyze armCheck (fun v => decide (9 ≤ v)) mergedDefinitions = .ok a
      ∧ ¬ BoundarySafe a := by
  refine ⟨mergedDefinitions_wellFormed, _, rfl, fun h => ?_⟩
  exact h.edges ⟨2, 5⟩ (by decide) (by decide) 9 (by decide) (by decide)

theorem mergedDefinitions_safe_iff : ∃ bbs full a,
    markJit armCheck mergedDefinitions.bbs = .ok (bbs, full)
      ∧ jitAnalyze armCheck (fun v => decide (9 ≤ v)) mergedDefinitions = .ok a
      ∧ (BoundarySafe a ↔ Covered bbs mergedDefinitions.edges) :=
  jitAnalyze_safe_iff mergedDefinitions_wellFormed (by decide)

end Vmir.JitBoundary
