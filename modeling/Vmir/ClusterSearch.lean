import Mathlib.Data.List.Nodup
import Mathlib.Data.List.Basic
import Mathlib.Logic.Relation
import Mathlib.Tactic.Common

set_option autoImplicit false

/-!
# Depth first search

A search over the nodes of a graph, from any state that can tell which nodes it has seen. It is
run with fuel; what it finds, if the graph has an edge back for every edge, is the part of the graph
that hangs together with the first node.
-/
namespace Vmir.ClusterSearch

structure Marks (α σ : Type) where
  seen : σ → α → Bool
  visit : σ → α → σ
  seen_visit : ∀ s a b, seen (visit s a) b = true ↔ b = a ∨ seen s b = true

variable {α σ : Type}

def search (M : Marks α σ) (nbrs : α → List α) : ℕ → σ → α → Option σ
  | 0, _, _ => none
  | fuel + 1, s, a =>
    (nbrs a).foldlM (fun s b => if M.seen s b then some s else search M nbrs fuel s b) (M.visit s a)

def turn (M : Marks α σ) (nbrs : α → List α) (fuel : ℕ) (s : σ) (b : α) : Option σ :=
  if M.seen s b then some s else search M nbrs fuel s b

/-- The nodes `l` are visited, one after the other, between the states. -/
structure Visits (M : Marks α σ) (nbrs : α → List α) (s : σ) (l : List α) (t : σ) : Prop where
  final : t = l.foldl M.visit s
  fresh : ∀ b ∈ l, M.seen s b = false
  nodup : l.Nodup
  closed : ∀ b ∈ l, ∀ c ∈ nbrs b, M.seen t c = true

/-- The second node can be reached from the first. -/
def Reach (nbrs : α → List α) : α → α → Prop := Relation.ReflTransGen fun b c => c ∈ nbrs b

section
variable {M : Marks α σ} {nbrs : α → List α} {s t u : σ} {a b : α} {l l' : List α}

theorem seen_foldl : M.seen (l.foldl M.visit s) b = true ↔ b ∈ l ∨ M.seen s b = true := by
  induction l generalizing s with
  | nil => simp
  | cons c l ih =>
    rw [List.foldl_cons, ih, M.seen_visit, List.mem_cons]
    tauto

theorem Visits.seen_iff (h : Visits M nbrs s l t) :
    M.seen t b = true ↔ b ∈ l ∨ M.seen s b = true := by
  rw [h.final]
  exact seen_foldl

theorem Visits.nil : Visits M nbrs s [] s :=
  ⟨rfl, fun _ h => absurd h List.not_mem_nil, List.nodup_nil,
    fun _ h => absurd h List.not_mem_nil⟩

theorem Visits.append (h : Visits M nbrs s l t) (h' : Visits M nbrs t l' u) :
    Visits M nbrs s (l ++ l') u := by
  have hnot : ∀ b ∈ l', b ∉ l ∧ M.seen s b = false := by
    intro b hb
    have hfresh := h'.fresh b hb
    have hiff := h.seen_iff (b := b)
    rw [hfresh] at hiff
    rw [← Bool.not_eq_true]
    tauto
  constructor
  · rw [h'.final, h.final, List.foldl_append]
  · intro b hb
    rcases List.mem_append.mp hb with hl | hl'
    · exact h.fresh b hl
    · exact (hnot b hl').2
  · apply h.nodup.append h'.nodup
    intro b hl hl'
    exact (hnot b hl').1 hl
  · intro b hb c hc
    rcases List.mem_append.mp hb with hl | hl'
    · exact h'.seen_iff.mpr (Or.inr (h.closed b hl c hc))
    · exact h'.closed b hl' c hc

theorem Visits.cons (ha : M.seen s a = false) (h : Visits M nbrs (M.visit s a) l t)
    (hnbrs : ∀ c ∈ nbrs a, M.seen t c = true) : Visits M nbrs s (a :: l) t := by
  have hnot : ∀ b ∈ l, b ≠ a ∧ M.seen s b = false := by
    intro b hb
    have hfresh := h.fresh b hb
    have hiff := M.seen_visit s a b
    rw [hfresh] at hiff
    rw [← Bool.not_eq_true]
    tauto
  constructor
  · exact h.final
  · intro b hb
    rcases List.mem_cons.mp hb with rfl | hl
    · exact ha
    · exact (hnot b hl).2
  · apply List.nodup_cons.mpr
    exact ⟨fun hmem => (hnot a hmem).1 rfl, h.nodup⟩
  · intro b hb c hc
    rcases List.mem_cons.mp hb with rfl | hl
    · exact hnbrs c hc
    · exact h.closed b hl c hc

end

section
variable {M : Marks α σ} {nbrs : α → List α}

theorem search_succ (fuel : ℕ) (s : σ) (a : α) : search M nbrs (fuel + 1) s a
    = (nbrs a).foldlM (turn M nbrs fuel) (M.visit s a) := rfl

/-- What a search does, for one that starts at a node it has not seen. -/
def Sound (M : Marks α σ) (nbrs : α → List α) (fuel : ℕ) : Prop :=
  ∀ s a t, M.seen s a = false → search M nbrs fuel s a = some t →
    ∃ l, Visits M nbrs s l t ∧ a ∈ l ∧ ∀ b ∈ l, Reach nbrs a b

theorem turns_sound {fuel : ℕ} (hsound : Sound M nbrs fuel) {bs : List α} {s t : σ}
    (h : bs.foldlM (turn M nbrs fuel) s = some t) :
    ∃ l, Visits M nbrs s l t ∧ (∀ b ∈ bs, M.seen t b = true)
      ∧ ∀ c ∈ l, ∃ b ∈ bs, Reach nbrs b c := by
  induction bs generalizing s with
  | nil =>
    cases h
    exact ⟨[], Visits.nil, fun _ hb => absurd hb List.not_mem_nil,
      fun _ hc => absurd hc List.not_mem_nil⟩
  | cons b bs ih =>
    rw [List.foldlM_cons] at h
    obtain ⟨s', hturn, hrest⟩ := Option.bind_eq_some_iff.mp h
    obtain ⟨l', hl', hseen', hreach'⟩ := ih hrest
    have hfirst : ∃ l, Visits M nbrs s l s' ∧ M.seen s' b = true
        ∧ ∀ c ∈ l, Reach nbrs b c := by
      unfold turn at hturn
      split at hturn
      · rename_i hb
        cases hturn
        exact ⟨[], Visits.nil, hb, fun _ hc => absurd hc List.not_mem_nil⟩
      · rename_i hb
        obtain ⟨l, hl, hmem, hreach⟩ := hsound s b s' (Bool.not_eq_true _ ▸ hb) hturn
        exact ⟨l, hl, hl.seen_iff.mpr (Or.inl hmem), hreach⟩
    obtain ⟨l, hl, hseen, hreach⟩ := hfirst
    refine ⟨l ++ l', hl.append hl', ?_, ?_⟩
    · intro c hc
      rcases List.mem_cons.mp hc with rfl | hmem
      · exact hl'.seen_iff.mpr (Or.inr hseen)
      · exact hseen' c hmem
    · intro c hc
      rcases List.mem_append.mp hc with hmem | hmem
      · exact ⟨b, List.mem_cons_self, hreach c hmem⟩
      · obtain ⟨d, hd, hdc⟩ := hreach' c hmem
        exact ⟨d, List.mem_cons_of_mem _ hd, hdc⟩

theorem search_sound (fuel : ℕ) : Sound M nbrs fuel := by
  induction fuel with
  | zero =>
    intro s a t _ h
    cases h
  | succ fuel ih =>
    intro s a t ha h
    rw [search_succ] at h
    obtain ⟨l, hl, hseen, hreach⟩ := turns_sound ih h
    refine ⟨a :: l, hl.cons ha hseen, List.mem_cons_self, ?_⟩
    intro b hb
    rcases List.mem_cons.mp hb with rfl | hmem
    · exact Relation.ReflTransGen.refl
    · obtain ⟨c, hc, hcb⟩ := hreach b hmem
      exact Relation.ReflTransGen.head hc hcb

/-- The nodes of `nodes` that have not been seen. -/
def unseen (M : Marks α σ) (nodes : List α) (s : σ) : ℕ :=
  nodes.countP fun b => !M.seen s b

theorem unseen_visit {nodes : List α} {s : σ} {a : α} (hmem : a ∈ nodes)
    (ha : M.seen s a = false) : unseen M nodes (M.visit s a) < unseen M nodes s := by
  have hle : ∀ l : List α, unseen M l (M.visit s a) ≤ unseen M l s := by
    intro l
    apply List.countP_mono_left
    intro b _ hb
    have hiff := M.seen_visit s a b
    cases hs : M.seen s b with
    | false => rfl
    | true =>
      rw [hiff.mpr (Or.inr hs)] at hb
      cases hb
  induction nodes with
  | nil => exact absurd hmem List.not_mem_nil
  | cons b nodes ih =>
    unfold unseen at ih hle ⊢
    rw [List.countP_cons, List.countP_cons]
    rcases List.mem_cons.mp hmem with rfl | hrest
    · have hself : M.seen (M.visit s a) a = true := (M.seen_visit s a a).mpr (Or.inl rfl)
      have := hle nodes
      simp only [hself, ha, Bool.not_true, Bool.not_false, if_true, Bool.false_eq_true, if_false]
      omega
    · have hhead := hle [b]
      rw [List.countP_cons, List.countP_cons, List.countP_nil, List.countP_nil] at hhead
      have := ih hrest
      omega

theorem Visits.unseen_le {nodes l : List α} {s t : σ} (h : Visits M nbrs s l t) :
    unseen M nodes t ≤ unseen M nodes s := by
  apply List.countP_mono_left
  intro b _ hb
  cases hs : M.seen s b with
  | false => rfl
  | true =>
    rw [h.seen_iff.mpr (Or.inr hs)] at hb
    cases hb

theorem search_total {nodes : List α} (hclosed : ∀ b ∈ nodes, ∀ c ∈ nbrs b, c ∈ nodes)
    {fuel : ℕ} {s : σ} {a : α} (hmem : a ∈ nodes) (ha : M.seen s a = false)
    (hfuel : unseen M nodes s ≤ fuel) : ∃ t, search M nbrs fuel s a = some t := by
  induction fuel generalizing s a with
  | zero =>
    have := unseen_visit (M := M) hmem ha
    omega
  | succ fuel ih =>
    have hturns : ∀ bs : List α, (∀ b ∈ bs, b ∈ nodes) → ∀ s', unseen M nodes s' ≤ fuel →
        ∃ t, bs.foldlM (turn M nbrs fuel) s' = some t := by
      intro bs
      induction bs with
      | nil =>
        intro _ s' _
        exact ⟨s', rfl⟩
      | cons b bs ihbs =>
        intro hbs s' hs'
        have hbs' : ∀ c ∈ bs, c ∈ nodes := fun c hc => hbs c (List.mem_cons_of_mem _ hc)
        cases hb : M.seen s' b with
        | true =>
          obtain ⟨t, ht⟩ := ihbs hbs' s' hs'
          refine ⟨t, ?_⟩
          rw [List.foldlM_cons, turn, if_pos hb]
          exact ht
        | false =>
          obtain ⟨s'', hs''⟩ := ih (hbs b List.mem_cons_self) hb hs'
          obtain ⟨l, hl, -⟩ := search_sound fuel s' b s'' hb hs''
          obtain ⟨t, ht⟩ := ihbs hbs' s'' (Nat.le_trans hl.unseen_le hs')
          refine ⟨t, ?_⟩
          rw [List.foldlM_cons, turn, hb, if_neg Bool.false_ne_true, hs'']
          exact ht
    rw [search_succ]
    apply hturns (nbrs a) (hclosed a hmem)
    have := unseen_visit (M := M) hmem ha
    omega

/-- From a state in which no edge leads out of what has been seen, a search finds what the node can
reach. -/
theorem Visits.mem_iff {l : List α} {s t : σ} {a : α} (h : Visits M nbrs s l t) (ha : a ∈ l)
    (hreach : ∀ b ∈ l, Reach nbrs a b)
    (hback : ∀ b c, Reach nbrs a b → c ∈ nbrs b → b ∈ nbrs c)
    (hseen : ∀ b, M.seen s b = true → ∀ c ∈ nbrs b, M.seen s c = true) {b : α} :
    b ∈ l ↔ Reach nbrs a b := by
  constructor
  · exact hreach b
  · intro hb
    induction hb with
    | refl => exact ha
    | tail hac hcd ih =>
      rename_i c d
      rcases h.seen_iff.mp (h.closed c ih d hcd) with hl | hs
      · exact hl
      · have hcs : M.seen s c = true := hseen d hs c (hback c d hac hcd)
        rw [h.fresh c ih] at hcs
        cases hcs

end

end Vmir.ClusterSearch
