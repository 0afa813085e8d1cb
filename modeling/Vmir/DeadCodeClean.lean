import Vmir.DeadCodeEnds

set_option autoImplicit false

/-!
# What dead code elimination marks dead

A value is marked dead with the one definition that goes. Another definition, which may have been
passed while the value still had a use, goes on writing it.
-/
namespace Vmir.DeadCodeClean
open Ir DeadCode DeadCodeFlow DeadCodeOrder DeadCodeTurns DeadCodeWalks DeadCodeEnds

def Reads (i : BoundInstr) (v : ℕ) : Prop := ∃ vt ∈ operands i.instr.cls, vt.value = v

def Writes (i : BoundInstr) (v : ℕ) : Prop := ∃ vt ∈ i.instr.rets, vt.value = v

/-- Every operand that is a temporary is bound, if not to the instruction itself then to one of its
block that has to stay; what an instruction writes is a temporary; and an unconditional branch has
neither operands nor results. -/
structure Bound (temporary : ℕ → Prop) (f : Function) : Prop where
  reads : ∀ x, ∀ i ∈ instrsOf f x, ∀ v, Reads i v → temporary v →
    ∃ j ∈ instrsOf f x, v ∈ j.inputs ∧ (j = i ∨ output j = none)
  writes : ∀ x, ∀ i ∈ instrsOf f x, ∀ v, Writes i v → temporary v
  branch : Branches f

/-- If one definition of a value goes, then every instruction that writes the value goes, or is in a
block that does not last. -/
def CleanDefinitions (f : Function) : Prop :=
  ∀ a i v, instrAt f a = some i → output i = some v → (∃ t, Goes f t a) →
    ∀ b j, instrAt f b = some j → Writes j v →
      (∃ t, Goes f t b) ∨ ¬ Lasts f (ids f).length b.1

section
variable {temporary : ℕ → Prop} {f f' : Function} {fuel : ℕ} {a : ℕ × ℕ} {i : BoundInstr} {v : ℕ}

theorem writes_of_output (h : output i = some v) : Writes i v := by
  unfold output at h
  split at h
  case h_5 =>
    split at h
    · next ret hret =>
      split at h
      · cases h
      · exact ⟨ret, hret ▸ List.mem_singleton_self ret, Option.some.inj h⟩
    · cases h
  all_goals cases h

theorem cleanDefinitions_of_single
    (h : ∀ a i b j v, instrAt f a = some i → instrAt f b = some j → Writes i v → Writes j v →
      a = b) : CleanDefinitions f := by
  intro a i v hi hv hgoes b j hj hwrites
  rw [← h a i b j v hi hj (writes_of_output hv) hwrites]
  exact Or.inl hgoes

theorem gone_of_goes {t : ℕ} (h : Goes f t a) : Gone f (ids f).length a := by
  obtain ⟨y, hy, rfl, -⟩ := h.visits
  exact ⟨turn f y, List.idxOf_lt_length_of_mem hy, h⟩

theorem place_of_left (h : InTurn f (ids f).length f') {b : Block} (hb : b ∈ f'.bbs)
    (hi : i ∈ b.instrs) :
    ∃ a, instrAt f a = some i ∧ Lasts f (ids f).length a.1 ∧ ¬ ∃ t, Goes f t a := by
  have hy : b.id ∈ ids f' := List.mem_map.mpr ⟨b, hb, rfl⟩
  obtain ⟨l, hl⟩ := h.blocks b.id hy
  obtain ⟨a, ha, hcode⟩ := hl.code_mem (instrsOf_of_mem h.follows.flow.nodup hb ▸ hi)
  obtain ⟨-, hwithin, hgone, -⟩ := (hl.mem a).mp ha
  exact ⟨a, hcode, h.follows.lasts hy hwithin, fun ⟨t, hgoes⟩ => hgone (gone_of_goes hgoes)⟩

theorem left_of_place (h : InTurn f (ids f).length f') (hf : Flow f) (hbr : Branches f)
    (hi : instrAt f a = some i) (hlasts : Lasts f (ids f).length a.1) (hstays : ¬ ∃ t, Goes f t a)
    (hwrites : Writes i v) : ∃ b ∈ f'.bbs, i ∈ b.instrs := by
  obtain ⟨y, hy, hwithin⟩ := h.follows.exists_within hf (mem_ids_of_instr hi) hlasts
  obtain ⟨l, hl⟩ := h.blocks y hy
  have hcut : ¬ Cut f (ids f).length a := by
    rintro ⟨hlast, q, hjoins⟩
    obtain ⟨j, hj, hisbr⟩ := hjoins.1.2.1
    rw [List.getLast?_eq_getElem?, show (instrsOf f a.1).length - 1 = a.2 by omega] at hj
    obtain rfl := Option.some.inj (hi.symm.trans hj)
    obtain ⟨vt, hvt, -⟩ := hwrites
    rw [(hbr a.1 i (List.mem_of_getElem? hi) hisbr).2] at hvt
    cases hvt
  have hmem := (hl.mem a).mpr ⟨hi ▸ rfl, hwithin, fun ⟨t, _, h⟩ => hstays ⟨t, h⟩, hcut⟩
  obtain ⟨b, hb, rfl⟩ := List.mem_map.mp hy
  have hinstr := hl.mem_code hmem hi
  rw [instrsOf_of_mem h.follows.flow.nodup hb] at hinstr
  exact ⟨b, hb, hinstr⟩

theorem not_reads (hb : Bound temporary f) {b : ℕ × ℕ} {j : BoundInstr}
    (hi : instrAt f a = some i) (hv : output i = some v) {t : ℕ} (hgoes : Goes f t a)
    (hj : instrAt f b = some j) (hlasts : Lasts f (ids f).length b.1)
    (hstays : ¬ ∃ t, Goes f t b) : ¬ Reads j v := by
  intro hreads
  have htemp := hb.writes a.1 i (List.mem_of_getElem? hi) v (writes_of_output hv)
  obtain ⟨k, hk, huses, hbound⟩ := hb.reads b.1 j (List.mem_of_getElem? hj) v hreads htemp
  have hplace : ∃ c, c.1 = b.1 ∧ instrAt f c = some k ∧ ¬ ∃ t, Goes f t c := by
    rcases hbound with rfl | hout
    · exact ⟨b, rfl, hj, hstays⟩
    · obtain ⟨n, hn⟩ := List.mem_iff_getElem?.mp hk
      refine ⟨(b.1, n), rfl, hn, fun ⟨t, hgoes⟩ => ?_⟩
      obtain ⟨k', w, hk', hw⟩ := hgoes.output
      obtain rfl := Option.some.inj (hn.symm.trans hk')
      cases hout.symm.trans hw
  obtain ⟨c, hc, hck, hcstays⟩ := hplace
  obtain ⟨y, hy, hturn, -⟩ := hgoes.visits
  have hle : t ≤ (ids f).length := hturn ▸ (List.idxOf_lt_length_of_mem hy).le
  rcases ((goes_iff hi hv).mp hgoes).2 c k hck huses (hc ▸ hlasts.antitone hle) with
    ⟨t', -, hgone⟩ | ⟨-, hgone⟩
  · exact hcstays ⟨t', hgone⟩
  · exact hcstays ⟨t, hgone⟩

end

/-- When the pass ends, no instruction that is left reads or writes a value that it has marked dead
exactly if with one definition of a value all that write it go. -/
theorem eliminateDeadCode_clean_iff {temporary : ℕ → Prop} {f f' : Function} {fuel : ℕ}
    (hf : Flow f) (hb : Bound temporary f) (hdead : f.dead = [])
    (h : eliminateDeadCode fuel f = .ok f') :
    (∀ b ∈ f'.bbs, ∀ i ∈ b.instrs, ∀ v ∈ f'.dead, ¬ Reads i v ∧ ¬ Writes i v)
      ↔ CleanDefinitions f := by
  cases hbbs : f.bbs with
  | nil =>
    unfold eliminateDeadCode at h
    rw [hbbs] at h
    obtain rfl : f = f' := Except.ok.inj h
    have hnone : ∀ a, instrAt f a = none := by
      intro a
      unfold instrAt instrsOf
      rw [hbbs]
      rfl
    exact iff_of_true (by simp [hbbs]) fun a i v hi => by
      rw [hnone a] at hi
      cases hi
  | cons first rest =>
    have hne : f.bbs ≠ [] := by
      rw [hbbs]
      exact List.cons_ne_nil _ _
    obtain ⟨hend, -⟩ := eliminateDeadCode_inTurn hf hb.branch hne h
    have hmarked : ∀ v, v ∈ f'.dead ↔
        ∃ a i, (∃ t, Goes f t a) ∧ instrAt f a = some i ∧ output i = some v := by
      intro v
      rw [hend.marked v, hdead, or_iff_right List.not_mem_nil]
      refine exists_congr fun a => exists_congr fun i => and_congr_left fun _ => ?_
      exact ⟨fun ⟨t, _, hgoes⟩ => ⟨t, hgoes⟩, fun ⟨t, hgoes⟩ => gone_of_goes hgoes⟩
    constructor
    · intro hall a i v hi hv hgoes b j hj hwrites
      by_contra hstill
      rw [not_or, not_not] at hstill
      obtain ⟨b', hb', hjb⟩ := left_of_place hend hf hb.branch hj hstill.2 hstill.1 hwrites
      exact (hall b' hb' j hjb v ((hmarked v).mpr ⟨a, i, hgoes, hi, hv⟩)).2 hwrites
    · intro hclean b' hb' j hjb v hv
      obtain ⟨a, i, ⟨t, hgoes⟩, hi, hout⟩ := (hmarked v).mp hv
      obtain ⟨b, hj, hlasts, hstays⟩ := place_of_left hend hb' hjb
      refine ⟨not_reads hb hi hout hgoes hj hlasts hstays, fun hwrites => ?_⟩
      rcases hclean a i v hi hout ⟨t, hgoes⟩ b j hj hwrites with h | h
      · exact hstays h
      · exact h hlasts

/-! ### The moves of a dead PHI -/

theorem bound_of_blocks {temporary : ℕ → Prop} {f : Function}
    (hreads : ∀ b ∈ f.bbs, ∀ i ∈ b.instrs, ∀ vt ∈ operands i.instr.cls, temporary vt.value →
      ∃ j ∈ b.instrs, vt.value ∈ j.inputs ∧ (j = i ∨ output j = none))
    (hwrites : ∀ b ∈ f.bbs, ∀ i ∈ b.instrs, ∀ vt ∈ i.instr.rets, temporary vt.value)
    (hbranch : ∀ b ∈ f.bbs, ∀ i ∈ b.instrs, isBr i = true → i.inputs = [] ∧ i.instr.rets = []) :
    Bound temporary f := by
  have hblock : ∀ x, ∀ i ∈ instrsOf f x, ∃ b ∈ f.bbs, instrsOf f x = b.instrs := by
    intro x i hi
    unfold instrsOf at hi ⊢
    cases hfind : f.bbs.find? fun b => b.id = x with
    | none =>
      rw [hfind] at hi
      exact nomatch hi
    | some b => exact ⟨b, List.mem_of_find?_eq_some hfind, rfl⟩
  refine ⟨fun x i hi v hv htemp => ?_, fun x i hi v hv => ?_, branches_of_blocks hbranch⟩
  · obtain ⟨b, hb, heq⟩ := hblock x i hi
    obtain ⟨vt, hvt, rfl⟩ := hv
    rw [heq] at hi ⊢
    exact hreads b hb i hi vt hvt htemp
  · obtain ⟨b, hb, heq⟩ := hblock x i hi
    obtain ⟨vt, hvt, rfl⟩ := hv
    exact hwrites b hb i (heq ▸ hi) vt hvt

/-- Two blocks give value 2 a constant, and the block between them has its only use, whose result
nobody wants. Value 1 is an argument. -/
def deadPhi : Function where
  bbs := [⟨0, [⟨⟨[], .br (some ⟨1, 0⟩) 1 3⟩, []⟩]⟩,
    ⟨1, [⟨⟨[⟨2, 0⟩], .move ⟨5, 0⟩⟩, []⟩, ⟨⟨[], .br none 2 0⟩, []⟩]⟩,
    ⟨2, [⟨⟨[⟨3, 0⟩], .binop .add ⟨2, 0⟩ ⟨6, 0⟩⟩, [2]⟩, ⟨⟨[], .ret none⟩, []⟩]⟩,
    ⟨3, [⟨⟨[⟨2, 0⟩], .move ⟨6, 0⟩⟩, []⟩, ⟨⟨[], .br none 2 0⟩, []⟩]⟩]
  edges := [⟨0, 1⟩, ⟨0, 3⟩, ⟨1, 2⟩, ⟨3, 2⟩]
  dead := []

/-- The move of the first of the two blocks is left. -/
def deadPhiAfter : Function where
  bbs := [⟨0, [⟨⟨[], .br (some ⟨1, 0⟩) 1 3⟩, []⟩]⟩,
    ⟨1, [⟨⟨[⟨2, 0⟩], .move ⟨5, 0⟩⟩, []⟩, ⟨⟨[], .br none 2 0⟩, []⟩]⟩,
    ⟨2, [⟨⟨[], .ret none⟩, []⟩]⟩, ⟨3, [⟨⟨[], .br none 2 0⟩, []⟩]⟩]
  edges := deadPhi.edges
  dead := [2, 3]

theorem deadPhi_flow : Flow deadPhi := by
  refine ⟨by decide, by decide, fun id hid => ?_⟩
  have hid : id = 0 ∨ id = 1 ∨ id = 2 ∨ id = 3 := by simpa [ids, deadPhi] using hid
  rcases hid with rfl | rfl | rfl | rfl
  · exact ⟨_, rfl, rfl, fun h => by cases h⟩
  · exact ⟨_, rfl, rfl, fun _ => ⟨_, rfl⟩⟩
  · exact ⟨_, rfl, rfl, fun h => by cases h⟩
  · exact ⟨_, rfl, rfl, fun _ => ⟨_, rfl⟩⟩

theorem deadPhi_bound : Bound (fun v => v = 2 ∨ v = 3) deadPhi :=
  bound_of_blocks (by decide) (by decide) (by decide)

theorem deadPhi_eliminated : eliminateDeadCode 10 deadPhi = .ok deadPhiAfter := by
  decide

theorem deadPhi_writes_dead : Flow deadPhi ∧ Bound (fun v => v = 2 ∨ v = 3) deadPhi
    ∧ eliminateDeadCode 10 deadPhi = .ok deadPhiAfter
    ∧ ∃ b ∈ deadPhiAfter.bbs, ∃ i ∈ b.instrs, ∃ v ∈ deadPhiAfter.dead, Writes i v := by
  refine ⟨deadPhi_flow, deadPhi_bound, deadPhi_eliminated, _,
    List.mem_cons_of_mem _ List.mem_cons_self, _, List.mem_cons_self, 2, by decide, ?_⟩
  exact ⟨⟨2, 0⟩, List.mem_cons_self, rfl⟩

theorem deadPhi_clean_iff :
    (∀ b ∈ deadPhiAfter.bbs, ∀ i ∈ b.instrs, ∀ v ∈ deadPhiAfter.dead, ¬ Reads i v ∧ ¬ Writes i v)
      ↔ CleanDefinitions deadPhi :=
  eliminateDeadCode_clean_iff deadPhi_flow deadPhi_bound rfl deadPhi_eliminated

end Vmir.DeadCodeClean
