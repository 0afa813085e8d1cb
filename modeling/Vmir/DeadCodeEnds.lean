import Vmir.DeadCodeWalks
import Mathlib.Algebra.BigOperators.Group.Finset.Basic
import Mathlib.Algebra.GroupWithZero.Nat
import Mathlib.Algebra.Order.BigOperators.Group.Finset

set_option autoImplicit false

/-!
# When dead code elimination ends

No turn moves more instructions than the function has. What goes wrong is a chain of merges that
comes back to its first block, and a block that loses its last edge behind its own turn.
-/
namespace Vmir.DeadCodeEnds
open Ir DeadCode DeadCodeFlow DeadCodeOrder DeadCodeTurns DeadCodeWalks Relation

def instrCount (f : Function) : ℕ := (f.bbs.map fun b => b.instrs.length).sum

/-- The block of the only branch into this one has itself been merged, in turns, into this one. -/
def Closes (f : Function) (q p : ℕ) : Prop := Joins f q p ∧ Within f (turn f q) p q

/-- Nothing is left in the block but the branches that end the blocks merged into it. -/
def Emptied (f : Function) (q : ℕ) : Prop :=
  ∀ a, (instrAt f a).isSome → Within f (turn f q) a.1 q →
    a.2 + 1 < (instrsOf f a.1).length → Gone f (turn f q + 1) a

/-- Every block that is entered at its turn, and not merged, is entered by a block that is left in
the end. -/
def Kept (f : Function) : Prop :=
  ∀ q ∈ ids f, turn f q ≠ 0 → entering f (turn f q) q ≠ [] → (∀ p, ¬ Joins f q p) →
    entering f (ids f).length q ≠ []

section
variable {f g : Function} {ib : ℕ}

theorem instrCount_eq (h : (ids f).Nodup) :
    instrCount f = ∑ id ∈ (ids f).toFinset, (instrsOf f id).length := by
  rw [List.sum_toFinset _ h]
  unfold instrCount ids
  rw [List.map_map]
  congr 1
  apply List.map_congr_left
  intro b hb
  exact congrArg List.length (instrsOf_of_mem h hb).symm

theorem length_le_instrCount (h : (ids f).Nodup) : (instrsOf f ib).length ≤ instrCount f := by
  by_cases hib : ib ∈ ids f
  · rw [instrCount_eq h]
    exact Finset.single_le_sum (f := fun id => (instrsOf f id).length)
      (fun _ _ => Nat.zero_le _) (List.mem_toFinset.mpr hib)
  · rw [instrsOf_of_notMem hib]
    exact Nat.zero_le _

theorem pruned_instrCount (hf : Flow f) (h : Pruned ib f g) : instrCount g ≤ instrCount f := by
  rw [instrCount_eq hf.nodup, instrCount_eq (h.flow hf).nodup, h.ids]
  apply Finset.sum_le_sum
  intro x _
  by_cases hx : x = ib
  · rw [hx]
    exact h.instrs.length_le
  · rw [h.others x hx]

theorem bbDestroy_instrCount : instrCount (bbDestroy f ib) ≤ instrCount f := by
  unfold instrCount bbDestroy
  exact (List.filter_sublist.map _).sum_le_sum fun _ _ => Nat.zero_le _

theorem toFinset_filter_ne (l : List ℕ) :
    (l.filter (· ≠ ib)).toFinset = l.toFinset.erase ib := by
  apply Finset.ext
  intro x
  simp [and_comm]

theorem merged_instrCount {p : ℕ} (hf : Flow f) (hg : Flow g) (hib : ib ∈ ids f) (hp : p ∈ ids f)
    (hne : p ≠ ib) (h : Merged ib p f g) : instrCount g ≤ instrCount f := by
  rw [instrCount_eq hf.nodup, instrCount_eq hg.nodup, h.ids, toFinset_filter_ne]
  have hib := List.mem_toFinset.mpr hib
  have hp : p ∈ (ids f).toFinset.erase ib := Finset.mem_erase.mpr ⟨hne, List.mem_toFinset.mpr hp⟩
  rw [← Finset.add_sum_erase _ _ hib, ← Finset.add_sum_erase _ _ hp,
    ← Finset.add_sum_erase _ _ hp, h.target, List.length_append, List.length_dropLast]
  have hrest : ∑ x ∈ ((ids f).toFinset.erase ib).erase p, (instrsOf g x).length
      = ∑ x ∈ ((ids f).toFinset.erase ib).erase p, (instrsOf f x).length := by
    apply Finset.sum_congr rfl
    intro x hx
    obtain ⟨hxp, hx⟩ := Finset.mem_erase.mp hx
    rw [h.others x (Finset.mem_erase.mp hx).1 hxp]
  rw [hrest]
  omega

theorem visited_instrCount (hf : Flow f) (hib : ib ∈ ids f) (h : Visited f ib g) :
    instrCount g ≤ instrCount f := by
  have hpruned := pruned_inBb f ib
  have hle := pruned_instrCount hf hpruned
  have hg := h.flow hf
  cases h with
  | unreachable _ => exact bbDestroy_instrCount
  | stays _ _ => exact hle
  | @merged p g hin hne _ hm =>
    have hp : p ∈ ids f := (hf.edge _ (mem_incoming.mp (hin ▸ List.mem_singleton_self _)).1).1
    exact (merged_instrCount (hpruned.flow hf) hg (hpruned.ids ▸ hib) (hpruned.ids ▸ hp) hne
      hm).trans hle
  | alone _ _ _ => exact bbDestroy_instrCount.trans hle

end

section
variable {f g f' : Function} {t ib p q fuel : ℕ}

/-- The queue is moved to itself for ever exactly where a chain of merges closes, and the walks have
left more than the branches. -/
theorem spins_iff (h : InTurn f (turn f ib) g) (hf : Flow f) (hbr : Branches f) (hib : ib ∈ ids g)
    (hfirst : turn f ib ≠ 0) : Spins g ib ↔ ∃ p, Closes f ib p ∧ ¬ Emptied f ib := by
  have hlength {p : ℕ} (hcloses : Closes f ib p) :
      1 < (instrsOf (eliminateDeadCodeInBb g ib) ib).length ↔ ¬ Emptied f ib := by
    obtain ⟨hjoins, hwithin⟩ := hcloses
    obtain ⟨l, hs⟩ := h.start hf hbr hib fun _ hnil => by
      have hentering := hjoins.2.2
      rw [hnil] at hentering
      cases hentering
    obtain ⟨k, hk⟩ := blocks_walked hs ib ((pruned_inBb g ib).ids ▸ hib)
    obtain ⟨k₀, rfl⟩ := hk.final hf hjoins hwithin
    have horder := List.pairwise_append.mp hk.order
    rw [← hk.code.length_eq, List.length_append, List.length_singleton, Nat.lt_add_left_iff_pos,
      List.length_pos_iff]
    refine not_congr ⟨?_, fun hemptied => ?_⟩
    · rintro rfl a hsome ha hlt
      by_contra hgone
      have hmem := (hk.mem a).mpr ⟨hsome, ha, hgone, fun hcut => by
        have hlen := hcut.1
        omega⟩
      rw [List.nil_append, List.mem_singleton] at hmem
      obtain ⟨-, -, -, hlen⟩ := instrAt_final hf (hjoins.ids hf).2
      rw [hmem] at hlt
      change (final f p).2 + 1 < (instrsOf f p).length at hlt
      omega
    · refine List.eq_nil_iff_forall_not_mem.mpr fun a ha => ?_
      obtain ⟨hsome, hwithina, hgone, hcut⟩ := (hk.mem a).mp (List.mem_append_left _ ha)
      obtain ⟨i, hi⟩ := Option.isSome_iff_exists.mp hsome
      have hlt : a.2 < (instrsOf f a.1).length := (List.getElem?_eq_some_iff.mp hi).1
      have hlast : a.2 + 1 = (instrsOf f a.1).length := by
        by_contra hne
        exact hgone (hemptied a hsome hwithina (by omega))
      rcases horder.2.2 a ha _ (List.mem_singleton_self _) with ⟨heq, hbehind⟩ | hchain
      · change a.2 < (instrsOf f p).length - 1 at hbehind
        rw [show p = a.1 from heq] at hbehind
        omega
      · obtain ⟨q, -, hq⟩ := TransGen.tail'_iff.mp hchain
        exact hcut ⟨hlast, q, hq⟩
  constructor
  · rintro ⟨hin, hends, hlen⟩
    obtain ⟨p, hjoins, hwithin⟩ := h.follows.joins hib hfirst hin hends
    exact ⟨p, ⟨hjoins, hwithin⟩, (hlength ⟨hjoins, hwithin⟩).mp hlen⟩
  · rintro ⟨p, hcloses, hleft⟩
    obtain ⟨p', hp', hin, hends, hwithin⟩ := h.follows.of_joins hib hcloses.1
    obtain rfl : p' = ib := hwithin.unique hcloses.2 (h.follows.isPresent hp') present_turn
    exact ⟨hin, hends, (hlength hcloses).mpr hleft⟩

theorem turn_of_drop {rest : List ℕ} (hf : Flow f) (h : (ids f).drop t = ib :: rest) :
    turn f ib = t ∧ ib ∈ ids f ∧ (ids f).drop (t + 1) = rest := by
  have hlt : t < (ids f).length := by
    by_contra hle
    rw [List.drop_eq_nil_of_le (not_lt.mp hle)] at h
    cases h
  rw [List.drop_eq_getElem_cons hlt] at h
  obtain ⟨rfl, hrest⟩ := List.cons.inj h
  exact ⟨hf.nodup.idxOf_getElem t hlt, List.getElem_mem hlt, hrest⟩

theorem foldlM_ends (hf : Flow f) (hbr : Branches f) (h : InTurn f t g) (ht : t ≠ 0)
    (hfuel : instrCount g < fuel)
    (hall : ∀ q p, t ≤ turn f q → Closes f q p → Emptied f q) :
    ∃ f', ((ids f).drop t).foldlM (visitBb fuel) g = .ok f' := by
  generalize hrest : (ids f).drop t = rest
  induction rest generalizing t g with
  | nil => exact ⟨g, rfl⟩
  | cons ib rest ih =>
    obtain ⟨rfl, hibf, hdrop⟩ := turn_of_drop hf hrest
    have hib : ib ∈ ids g := (h.follows.present ib hibf).mpr present_turn
    have hspins : ¬ Spins g ib := by
      rw [spins_iff h hf hbr hib ht]
      exact fun ⟨p, hcloses, hleft⟩ => hleft (hall ib p le_rfl hcloses)
    obtain ⟨g', hg'⟩ := visitBb_ok h.follows.flow hspins
      ((length_le_instrCount h.follows.flow.nodup).trans_lt hfuel)
    have hv := visited_of_ok h.follows.flow hg'
    rw [List.foldlM_cons, hg']
    exact ih (h.visited hf hbr hib ht hv) (Nat.succ_ne_zero _)
      ((visited_instrCount h.follows.flow hib hv).trans_lt hfuel)
      (fun q p hle => hall q p (Nat.le_of_succ_le hle)) hdrop

/-- Where the turns end, they leave what the order tells, and no chain of merges has closed on more
than branches. -/
theorem foldlM_inTurn (hf : Flow f) (hbr : Branches f) (h : InTurn f t g) (ht : t ≠ 0)
    (hle : t ≤ (ids f).length) (hok : ((ids f).drop t).foldlM (visitBb fuel) g = .ok f') :
    InTurn f (ids f).length f' ∧ ∀ q p, t ≤ turn f q → Closes f q p → Emptied f q := by
  generalize hrest : (ids f).drop t = rest at hok
  induction rest generalizing t g with
  | nil =>
    obtain rfl : g = f' := Except.ok.inj hok
    have hlen : t = (ids f).length := le_antisymm hle (List.drop_eq_nil_iff.mp hrest)
    refine ⟨hlen ▸ h, fun q p hturn hcloses => ?_⟩
    have hq := List.idxOf_lt_length_of_mem (hcloses.1.ids hf).1
    change turn f q < _ at hq
    omega
  | cons ib rest ih =>
    obtain ⟨rfl, hibf, hdrop⟩ := turn_of_drop hf hrest
    have hib : ib ∈ ids g := (h.follows.present ib hibf).mpr present_turn
    rw [List.foldlM_cons] at hok
    cases hg' : visitBb fuel g ib with
    | error e =>
      rw [hg'] at hok
      cases hok
    | ok g' =>
      rw [hg'] at hok
      have hv := visited_of_ok h.follows.flow hg'
      have hlt : turn f ib < (ids f).length := List.idxOf_lt_length_of_mem hibf
      obtain ⟨hend, hall⟩ := ih (h.visited hf hbr hib ht hv) (Nat.succ_ne_zero _) hlt hdrop hok
      refine ⟨hend, fun q p hturn hcloses => ?_⟩
      rcases Nat.lt_or_eq_of_le hturn with hlater | heq
      · exact hall q p hlater hcloses
      · obtain rfl := turn_inj hibf heq
        by_contra hleft
        have hspins := (spins_iff h hf hbr hib ht).mpr ⟨p, hcloses, hleft⟩
        rw [visitBb_spins h.follows.flow hspins] at hg'
        cases hg'

theorem eliminateDeadCode_inTurn (hf : Flow f) (hbr : Branches f) (hne : f.bbs ≠ [])
    (hok : eliminateDeadCode fuel f = .ok f') :
    InTurn f (ids f).length f' ∧ ∀ q p, Closes f q p → Emptied f q := by
  unfold eliminateDeadCode at hok
  cases hbbs : f.bbs with
  | nil => exact absurd hbbs hne
  | cons first rest =>
    rw [hbbs] at hok
    have hids : ids f = first.id :: rest.map Block.id := congrArg (List.map Block.id) hbbs
    have hturn : turn f first.id = 0 := by
      unfold turn
      rw [hids]
      exact List.idxOf_cons_self
    have hmem : first.id ∈ ids f := hids ▸ List.mem_cons_self
    have hdrop : (ids f).drop 1 = rest.map Block.id := by rw [hids]; rfl
    have hstart := (inTurn_start hf).first hf hbr hmem hturn
    have hle : 1 ≤ (ids f).length := by
      rw [hids]
      exact Nat.succ_le_succ (Nat.zero_le _)
    have hfold : ((ids f).drop 1).foldlM (visitBb fuel) (eliminateDeadCodeInBb f first.id)
        = .ok f' := by
      rw [hdrop]
      exact hok
    obtain ⟨hend, hall⟩ := foldlM_inTurn hf hbr hstart Nat.one_ne_zero hle hfold
    exact ⟨hend, fun q p hcloses =>
      hall q p (Nat.one_le_iff_ne_zero.mpr hcloses.1.1) hcloses⟩

theorem tail_ids (hf : Flow f) (hne : f.bbs ≠ []) (h : Follows f (ids f).length f') {x : ℕ} :
    x ∈ f'.bbs.tail.map Block.id ↔ x ∈ ids f ∧ turn f x ≠ 0
      ∧ entering f (turn f x) x ≠ [] ∧ ∀ p, ¬ Joins f x p := by
  cases hbbs : f.bbs with
  | nil => exact absurd hbbs hne
  | cons first rest =>
    have hids : ids f = first.id :: rest.map Block.id := congrArg (List.map Block.id) hbbs
    have hnodup := hf.nodup
    rw [hids, List.nodup_cons] at hnodup
    have hturn : turn f first.id = 0 := by
      unfold turn
      rw [hids]
      exact List.idxOf_cons_self
    have hmem : first.id ∈ ids f := hids ▸ List.mem_cons_self
    have hfirst : first.id ∈ ids f' := (h.present _ hmem).mpr (Or.inr (Or.inl hturn))
    obtain ⟨tail, htail⟩ : ∃ tail, ids f' = first.id :: tail := by
      have hsub := h.sublist
      rw [hids] at hsub
      rcases List.sublist_cons_iff.mp hsub with hsub | ⟨tail, htail, -⟩
      · exact absurd (hsub.subset hfirst) hnodup.1
      · exact ⟨tail, htail⟩
    have heq : f'.bbs.tail.map Block.id = tail := by
      rw [List.map_tail]
      exact congrArg List.tail htail
    have hnodup' := h.flow.nodup
    rw [htail, List.nodup_cons] at hnodup'
    have hzero : ∀ y ∈ ids f, turn f y = 0 ↔ y = first.id := by
      intro y hy
      exact ⟨fun h => turn_inj hy (h.trans hturn.symm), fun h => h ▸ hturn⟩
    rw [heq]
    constructor
    · intro hx
      have hx' : x ∈ ids f' := htail ▸ List.mem_cons_of_mem _ hx
      have hxf := h.ids hx'
      have hne : turn f x ≠ 0 := fun h0 => hnodup'.1 (((hzero x hxf).mp h0) ▸ hx)
      have hlt : turn f x < (ids f).length := List.idxOf_lt_length_of_mem hxf
      rcases h.isPresent hx' with hle | h0 | hstays
      · omega
      · exact absurd h0 hne
      · exact ⟨hxf, hne, hstays⟩
    · rintro ⟨hxf, hne, hstays⟩
      have hx' := (h.present x hxf).mpr (Or.inr (Or.inr hstays))
      rw [htail] at hx'
      exact (List.mem_cons.mp hx').resolve_left fun heq => hne ((hzero x hxf).mpr heq)

end

section
variable {f f' : Function} {fuel : ℕ}

/-- Where the pass ends, an edge enters every block but the first exactly if the blocks that stay
are entered in the end. -/
theorem entered_iff_kept (hf : Flow f) (hbr : Branches f) (hne : f.bbs ≠ [])
    (hok : eliminateDeadCode fuel f = .ok f') :
    (∀ b ∈ f'.bbs.tail, incoming f' b.id ≠ []) ↔ Kept f := by
  obtain ⟨hend, -⟩ := eliminateDeadCode_inTurn hf hbr hne hok
  have htail : (∀ b ∈ f'.bbs.tail, incoming f' b.id ≠ [])
      ↔ ∀ x ∈ f'.bbs.tail.map Block.id, incoming f' x ≠ [] := by
    rw [List.forall_mem_map]
  rw [htail]
  unfold Kept
  have hin : ∀ x ∈ f'.bbs.tail.map Block.id,
      incoming f' x ≠ [] ↔ entering f (ids f).length x ≠ [] := by
    intro x hx
    refine not_congr (hend.follows.incoming_nil ?_)
    rw [List.map_tail] at hx
    exact List.mem_of_mem_tail hx
  constructor
  · intro hall q hq hfirst hentered hnot
    have hx := (tail_ids hf hne hend.follows).mpr ⟨hq, hfirst, hentered, hnot⟩
    exact (hin q hx).mp (hall q hx)
  · intro hall x hx
    obtain ⟨hxf, hfirst, hentered, hnot⟩ := (tail_ids hf hne hend.follows).mp hx
    exact (hin x hx).mpr (hall x hxf hfirst hentered hnot)

theorem eliminateDeadCode_ends (hf : Flow f) (hbr : Branches f) (hfuel : instrCount f < fuel)
    (hne : f.bbs ≠ []) (hcloses : ∀ q p, Closes f q p → Emptied f q) :
    ∃ f', eliminateDeadCode fuel f = .ok f' := by
  obtain ⟨first, rest, hbbs⟩ := List.exists_cons_of_ne_nil hne
  have hids : ids f = first.id :: rest.map Block.id := congrArg (List.map Block.id) hbbs
  have hturn : turn f first.id = 0 := by
    unfold turn
    rw [hids]
    exact List.idxOf_cons_self
  have hdrop : (ids f).drop 1 = rest.map Block.id := by rw [hids]; rfl
  have hstart := (inTurn_start hf).first hf hbr (hids ▸ List.mem_cons_self) hturn
  have hcount := (pruned_instrCount hf (pruned_inBb f first.id)).trans_lt hfuel
  obtain ⟨f', hok⟩ := foldlM_ends hf hbr hstart Nat.one_ne_zero hcount
    fun q p _ h => hcloses q p h
  refine ⟨f', ?_⟩
  unfold eliminateDeadCode
  rw [hbbs]
  rw [hdrop] at hok
  exact hok

end

/-- With at most as many moves in a turn as the function has instructions, or any larger bound, the
pass ends with an edge into every block but the first exactly if every block that stays is entered
in the end, and no chain of merges closes on more than branches. -/
theorem eliminateDeadCode_ends_iff {f : Function} (hf : Flow f) (hbr : Branches f) {fuel : ℕ}
    (hfuel : instrCount f < fuel) :
    (∃ f', eliminateDeadCode fuel f = .ok f' ∧ ∀ b ∈ f'.bbs.tail, incoming f' b.id ≠ [])
      ↔ Kept f ∧ ∀ q p, Closes f q p → Emptied f q := by
  by_cases hne : f.bbs = []
  · have hids : ids f = [] := congrArg (List.map Block.id) hne
    refine iff_of_true ⟨f, ?_, by simp [hne]⟩ ⟨fun q hq => ?_, fun q p hcloses => ?_⟩
    · unfold eliminateDeadCode
      rw [hne]
    · rw [hids] at hq
      cases hq
    · have hq := (hcloses.1.ids hf).1
      rw [hids] at hq
      cases hq
  · constructor
    · rintro ⟨f', hok, hall⟩
      exact ⟨(entered_iff_kept hf hbr hne hok).mp hall,
        (eliminateDeadCode_inTurn hf hbr hne hok).2⟩
    · rintro ⟨hkeep, hcloses⟩
      obtain ⟨f', hok⟩ := eliminateDeadCode_ends hf hbr hfuel hne hcloses
      exact ⟨f', hok, (entered_iff_kept hf hbr hne hok).mpr hkeep⟩

/-! ### Reachable blocks -/

section
variable {f : Function} {t first q p : ℕ}

def BranchesTo (f : Function) (p q : ℕ) : Prop := ⟨p, q⟩ ∈ f.edges

theorem lasts_of_reachable (hfirst : turn f first = 0)
    (h : ReflTransGen (BranchesTo f) first q) : Lasts f t q := by
  induction h generalizing t with
  | refl => exact .first hfirst
  | tail _ hedge ih => exact .joined hedge ih ih

theorem ends_of_reachable (hfirst : turn f first = 0)
    (hall : ∀ q ∈ ids f, ReflTransGen (BranchesTo f) first q) (hf : Flow f) :
    Kept f ∧ ∀ q p, Closes f q p → Emptied f q := by
  refine ⟨fun q hq hturn _ _ => ?_, fun q p ⟨hjoins, hwithin⟩ => ?_⟩
  · obtain rfl | ⟨p, hreach, hedge⟩ := (hall q hq).cases_tail
    · exact absurd hfirst hturn
    · exact List.ne_nil_of_mem (mem_entering.mpr ⟨hedge, lasts_of_reachable hfirst hreach⟩)
  · -- a closed chain would be entered from the path that leads to it
    exfalso
    have hfirstout : ¬ Within f (turn f q) first q := by
      intro h
      rcases h.cases_head with rfl | ⟨x, hx, -⟩
      · exact hjoins.1 hfirst
      · exact hx.1.1 hfirst
    have hout : ∀ x, ReflTransGen (BranchesTo f) first x → ¬ Within f (turn f q) x q := by
      intro x hx
      induction hx with
      | refl => exact hfirstout
      | @tail u x hreach hedge ih =>
        intro h
        have hlasts := lasts_of_reachable (t := turn f x) hfirst hreach
        have hentering := mem_entering.mpr ⟨hedge, hlasts⟩
        rcases h.cases_head with rfl | ⟨x', hx', hrest⟩
        · exact ih (hjoins.unique hentering ▸ hwithin)
        · exact ih (hx'.1.unique hentering ▸ hrest)
    exact hout q (hall q (hjoins.ids hf).1) .refl

end

/-- An unreachable block that stores and branches to itself. -/
def selfLoop : Function where
  bbs := [⟨0, [⟨⟨[], .ret none⟩, []⟩]⟩,
    ⟨1, [⟨⟨[], .store ⟨2, 0⟩ ⟨3, 0⟩ 0⟩, []⟩, ⟨⟨[], .br none 1 0⟩, []⟩]⟩]
  edges := [⟨1, 1⟩]
  dead := []

theorem selfLoop_flow : Flow selfLoop where
  nodup := by decide
  edge := by decide
  last id hid := by
    have hid : id = 0 ∨ id = 1 := by simpa [ids, selfLoop] using hid
    rcases hid with rfl | rfl
    · exact ⟨_, rfl, rfl, fun h => nomatch h⟩
    · exact ⟨_, rfl, rfl, fun _ => ⟨_, rfl⟩⟩

theorem selfLoop_spins : Spins (eliminateDeadCodeInBb selfLoop 0) 1 :=
  ⟨by decide, ⟨_, rfl, rfl⟩, by decide⟩

theorem selfLoop_never_ends : Flow selfLoop
    ∧ ∀ fuel, eliminateDeadCode fuel selfLoop = .error .outOfFuel := by
  refine ⟨selfLoop_flow, fun fuel => ?_⟩
  change (visitBb fuel (eliminateDeadCodeInBb selfLoop 0) 1 >>= _) = _
  rw [visitBb_spins ((pruned_inBb _ _).flow selfLoop_flow) selfLoop_spins]
  rfl

/-- A branch into a block that nothing else enters. -/
def straightLine : Function where
  bbs := [⟨0, [⟨⟨[], .br none 1 0⟩, []⟩]⟩, ⟨1, [⟨⟨[], .ret none⟩, []⟩]⟩]
  edges := [⟨0, 1⟩]
  dead := []

theorem straightLine_ends : ∃ f', eliminateDeadCode 3 straightLine = .ok f'
    ∧ ∀ b ∈ f'.bbs.tail, incoming f' b.id ≠ [] := by
  have hids : ∀ id ∈ ids straightLine, id = 0 ∨ id = 1 := by
    intro id hid
    simpa [ids, straightLine] using hid
  have hflow : Flow straightLine := by
    refine ⟨by decide, by decide, fun id hid => ?_⟩
    rcases hids id hid with rfl | rfl
    · exact ⟨_, rfl, rfl, fun _ => ⟨_, rfl⟩⟩
    · exact ⟨_, rfl, rfl, fun h => nomatch h⟩
  have hreach : ∀ q ∈ ids straightLine, ReflTransGen (BranchesTo straightLine) 0 q := by
    intro q hq
    rcases hids q hq with rfl | rfl
    · exact .refl
    · exact .single List.mem_cons_self
  exact (eliminateDeadCode_ends_iff hflow (branches_of_blocks (by decide)) (by decide)).mpr
    (ends_of_reachable rfl hreach hflow)

end Vmir.DeadCodeEnds
