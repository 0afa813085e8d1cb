import Vmir.DefUseCombine

set_option autoImplicit false

/-!
# From the first bindings to the combined instructions

`function_bind_instr_inputs` binds the operands of every instruction, the breaking of critical edges
changes block numbers only, and the combining of instructions keeps the links complete.
-/
namespace Vmir.DefUseStart
open Ir IrTypes DefUse DefUseBinding DefUseCombine ProgramText
open DeadCode (operands)

/-- A function before its inputs are bound: the parser has bound each result. -/
structure Parsed (f : Function) : Prop where
  alive : ∀ l ∈ instrs f, ∀ v, Named l.instr v → Alive f v
  refs : ∀ l ∈ instrs f, ∀ l' ∈ instrs f, l.ref = l'.ref → l = l'
  oldInstrs : ∀ l ∈ instrs f, l.ref < f.nextRef
  oldLinks : ∀ k ∈ f.links, k.instr < f.nextRef
  single : ∀ l ∈ instrs f, l.instr.rets.length ≤ 1
  produced : Produced f
  consts : ConstElements f

/-- The instructions of the list have not been bound yet. -/
def Unbound (todo : List Linked) : Set ℕ := {r | ∃ l ∈ todo, l.ref = r}

section
variable {f g : Function}

theorem boundOperands_ok {cls : InstrClass} {vts : List ValueType}
    (h : boundOperands cls = .ok vts) : ∀ vt ∈ operands cls, vt ∈ vts := by
  cases cls <;> cases h <;> intro vt hvt
  case store ptr value off =>
    rcases List.mem_cons.mp hvt with rfl | hvt
    · exact List.mem_cons_of_mem _ List.mem_cons_self
    · exact List.mem_cons.mpr (Or.inl (List.mem_singleton.mp hvt))
  case select t e p =>
    simp only [operands, List.mem_cons, List.not_mem_nil, or_false] at hvt ⊢
    tauto
  all_goals exact hvt

theorem output_of_verify {l : Linked} {ret : ValueType} (hp : Produced f) (hl : l ∈ instrs f)
    (hret : l.instr.rets = [ret]) (h : instrVerifyOutput f l = .ok ()) :
    ⟨ret.value, l.ref, .output⟩ ∈ f.links := by
  unfold instrVerifyOutput at h
  dsimp only at h
  rw [hret, if_neg (List.cons_ne_nil ret [])] at h
  split at h
  · rename_i hlen
    obtain ⟨k, hk⟩ := List.length_eq_one_iff.mp hlen
    have hmem := hk ▸ List.mem_singleton_self k
    obtain ⟨hkf, hdec⟩ := List.mem_filter.mp hmem
    obtain ⟨hinstr, hrel⟩ := of_decide_eq_true hdec
    have hval := hp k hkf hrel l hl hinstr.symm
    rw [hret] at hval
    have hval' : k.value = ret.value := List.mem_singleton.mp hval
    have hk' : k = ⟨ret.value, l.ref, .output⟩ := by
      cases k
      cases hval'
      cases hinstr
      cases hrel
      rfl
    exact hk' ▸ hkf
  · cases h

/-- The function after the instructions `todo` have been left to bind. -/
structure Binding (f g : Function) (todo : List Linked) : Prop where
  same : instrs g = instrs f
  sound : Sound (Unbound todo) g
  produced : Produced g
  consts : ConstElements g

theorem Binding.next {l : Linked} {todo : List Linked} (hf : Parsed f)
    (h : Binding f g (l :: todo)) (hl : l ∈ instrs f) {g' : Function}
    (hg' : bindInstrInputs g l = .ok g') : Binding f g' todo := by
  unfold bindInstrInputs at hg'
  obtain ⟨_, hverify, hg'⟩ := bind_ok.mp hg'
  obtain ⟨vts, hvts, hg'⟩ := bind_ok.mp hg'
  cases hg'
  obtain ⟨hbbs, hiu, hnext, helems⟩ := foldl_bindValue_eq l.ref g (inputs vts)
  have hinstrs : instrs ((inputs vts).foldl (bindValue l.ref) g) = instrs f := by
    rw [← h.same]
    unfold instrs
    rw [hbbs]
  have hlg : l ∈ instrs g := h.same ▸ hl
  have hbound : Bound ((inputs vts).foldl (bindValue l.ref) g) l := by
    constructor
    · intro vt hvt ht
      rw [isTemporary_of_iu hiu] at ht
      exact mem_links_foldl.mpr (Or.inr ⟨_, List.mem_map_of_mem (boundOperands_ok hvts vt hvt),
        rfl, fun _ => ht⟩)
    · intro vt hvt _
      apply mem_links_foldl.mpr
      obtain ⟨ret, hret⟩ : ∃ ret, l.instr.rets = [ret] := by
        have hlen := hf.single l hl
        cases hrets : l.instr.rets with
        | nil =>
          rw [hrets] at hvt
          exact absurd hvt List.not_mem_nil
        | cons ret rest =>
          rw [hrets, List.length_cons] at hlen
          rw [List.eq_nil_of_length_eq_zero (Nat.le_zero.mp (Nat.le_of_succ_le_succ hlen))]
          exact ⟨ret, rfl⟩
      have hvt' : vt = ret := List.mem_singleton.mp (hret ▸ hvt)
      rw [hvt']
      exact Or.inl (output_of_verify h.produced hlg hret hverify)
  constructor
  · exact hinstrs
  · apply (h.sound.bind (h.sound.oldInstrs l hlg) (inputs vts)).close
    intro l' hl' hin hout
    rw [hinstrs] at hl'
    obtain ⟨l₁, hl₁, href⟩ := hin
    rcases List.mem_cons.mp hl₁ with rfl | hrest
    · rw [← hf.refs _ hl _ hl' href]
      exact hbound
    · exact absurd ⟨l₁, hrest, href⟩ hout
  · intro k hk hrel l' hl' href
    rw [hinstrs, ← h.same] at hl'
    rcases mem_links_foldl.mp hk with hk | ⟨b, hb, rfl, -⟩
    · exact h.produced k hk hrel l' hl' href
    · obtain ⟨vt, -, rfl⟩ := List.mem_map.mp hb
      cases hrel
  · intro e he vt hvt
    rw [helems] at he
    unfold Alive isTemporary classOf
    rw [hiu]
    exact h.consts e he vt hvt

/-- After `function_bind_instr_inputs` the links are complete. -/
theorem Parsed.early (hf : Parsed f) (h : functionBindInstrInputs f = .ok g) : Early g := by
  have hrun : ∀ (todo : List Linked) (f' : Function), (∀ l ∈ todo, l ∈ instrs f) →
      Binding f f' todo → todo.foldlM bindInstrInputs f' = .ok g → Binding f g [] := by
    intro todo
    induction todo with
    | nil =>
      intro f' _ hb hg
      cases hg
      exact hb
    | cons l todo ih =>
      intro f' hmem hb hg
      rw [List.foldlM_cons] at hg
      obtain ⟨f'', hf'', hg⟩ := bind_ok.mp hg
      exact ih f'' (fun l' hl' => hmem l' (List.mem_cons_of_mem _ hl'))
        (hb.next hf (hmem l List.mem_cons_self) hf'') hg
  have hstart : Binding f f (instrs f) := by
    refine ⟨rfl, ⟨fun l hl hout => absurd ⟨l, hl, rfl⟩ hout, hf.alive, ?_, hf.oldInstrs,
      hf.oldLinks⟩, hf.produced, hf.consts⟩
    exact fun l hl l' hl' href => Or.inl (hf.refs l hl l' hl' href)
  have hend := hrun _ _ (fun _ hl => hl) hstart h
  have hempty : Unbound [] = ∅ := by
    apply Set.eq_empty_iff_forall_notMem.mpr
    rintro r ⟨l, hl, -⟩
    exact List.not_mem_nil hl
  exact ⟨hempty ▸ hend.sound, hend.produced, hend.consts⟩

/-! ## Critical edges -/

theorem bbChangeBranch_ok {bb nb : ℕ} {cls cls' : InstrClass}
    (h : bbChangeBranch bb nb cls = .ok cls') :
    operands cls' = operands cls ∧ ∀ nodes, cls' ≠ .phi nodes := by
  unfold bbChangeBranch at h
  split at h <;> cases h <;> exact ⟨rfl, nofun⟩

theorem changePredecessor_values (source nb : ℕ) (nodes : PhiNodes) :
    (changePredecessor source nb nodes).nodes.map PhiNode.value
      = nodes.nodes.map PhiNode.value := by
  unfold changePredecessor
  dsimp only
  split
  · rw [List.map_map]
    rfl
  · rfl

theorem mem_changePhis {source nb : ℕ} {ls : List Linked} {l : Linked}
    (h : l ∈ changePhis source nb ls) : l ∈ ls ∨ ∃ l₀ ∈ ls, l.ref = l₀.ref
      ∧ l.instr.rets = l₀.instr.rets ∧ operands l.instr.cls = operands l₀.instr.cls
      ∧ IsPhi l.instr ∧ IsPhi l₀.instr := by
  induction ls with
  | nil => exact absurd h List.not_mem_nil
  | cons l₁ ls ih =>
    unfold changePhis at h
    split at h
    · rename_i nodes hcls
      rcases List.mem_cons.mp h with rfl | hrest
      · refine Or.inr ⟨l₁, List.mem_cons_self, rfl, rfl, ?_, ⟨_, rfl⟩, ⟨nodes, hcls⟩⟩
        rw [hcls]
        exact changePredecessor_values source nb nodes
      · rcases ih hrest with hmem | ⟨l₀, hl₀, hsame⟩
        · exact Or.inl (List.mem_cons_of_mem _ hmem)
        · exact Or.inr ⟨l₀, List.mem_cons_of_mem _ hl₀, hsame⟩
    · exact Or.inl h

theorem Early.relabel (h : Early f) (hiu : g.iu = f.iu) (hlinks : g.links = f.links)
    (helems : g.elements = f.elements) (hnext : g.nextRef = f.nextRef + 1)
    (hinstrs : ∀ l ∈ instrs g, (l.ref = f.nextRef ∧ l.instr.rets = []
        ∧ operands l.instr.cls = [])
      ∨ ∃ l₀ ∈ instrs f, l.ref = l₀.ref ∧ l.instr.rets = l₀.instr.rets
        ∧ operands l.instr.cls = operands l₀.instr.cls)
    (hrefs : ∀ l ∈ instrs g, ∀ l' ∈ instrs g, l.ref = l'.ref →
      l = l' ∨ (IsPhi l.instr ∧ IsPhi l'.instr)) : Early g := by
  have hs := h.sound
  constructor
  · constructor
    · intro l hl _
      rcases hinstrs l hl with ⟨-, hrets, hops⟩ | ⟨l₀, hl₀, href, hrets, hops⟩
      · constructor
        · intro vt hvt
          rw [hops] at hvt
          exact absurd hvt List.not_mem_nil
        · intro vt hvt
          rw [hrets] at hvt
          exact absurd hvt List.not_mem_nil
      · have hbound := hs.bound l₀ hl₀ (Set.notMem_empty _)
        constructor
        · intro vt hvt ht
          rw [hlinks, href]
          rw [isTemporary_of_iu hiu] at ht
          exact hbound.inputs vt (hops ▸ hvt) ht
        · intro vt hvt ht
          rw [hlinks, href]
          rw [isTemporary_of_iu hiu] at ht
          exact hbound.outputs vt (hrets ▸ hvt) ht
    · intro l hl v hv
      unfold Alive classOf
      rw [hiu]
      unfold Named at hv
      rcases hinstrs l hl with ⟨-, hrets, hops⟩ | ⟨l₀, hl₀, -, hrets, hops⟩
      · rw [hrets, hops] at hv
        exact absurd hv List.not_mem_nil
      · rw [hrets, hops] at hv
        exact hs.alive l₀ hl₀ v hv
    · exact hrefs
    · intro l hl
      rw [hnext]
      rcases hinstrs l hl with ⟨href, -⟩ | ⟨l₀, hl₀, href, -⟩
      · rw [href]
        exact Nat.lt_succ_self _
      · rw [href]
        exact Nat.lt_succ_of_lt (hs.oldInstrs l₀ hl₀)
    · intro k hk
      rw [hlinks] at hk
      rw [hnext]
      exact Nat.lt_succ_of_lt (hs.oldLinks k hk)
  · intro k hk hrel l hl href
    rw [hlinks] at hk
    rcases hinstrs l hl with ⟨hnew, -⟩ | ⟨l₀, hl₀, hold, hrets, -⟩
    · exact absurd (href.symm.trans hnew) (Nat.ne_of_lt (hs.oldLinks k hk))
    · rw [hrets]
      exact h.produced k hk hrel l₀ hl₀ (hold.symm.trans href)
  · intro e he vt hvt
    rw [helems] at he
    unfold Alive isTemporary classOf
    rw [hiu]
    exact h.consts e he vt hvt

theorem Early.criticalEdge (h : Early f) {source dest nb : ℕ}
    (hg : breakCriticalEdge f source dest nb = .ok g) : Early g := by
  have hs := h.sound
  unfold breakCriticalEdge at hg
  split at hg
  · cases hg
  · rename_i last hlast
    obtain ⟨cls, hcls, hg⟩ := bind_ok.mp hg
    cases hg
    obtain ⟨b, hb, hlastb⟩ := Option.bind_eq_some_iff.mp hlast
    have hmem : last ∈ instrs f := mem_instrs.mpr
      ⟨b, List.mem_of_find?_eq_some hb, List.mem_of_getLast? hlastb⟩
    obtain ⟨hops, hnophi⟩ := bbChangeBranch_ok hcls
    -- what the new terminator is to the old one
    have hset : ∀ l ∈ instrs (setInstr f last.ref ⟨last.instr.rets, cls⟩), ∃ l₀ ∈ instrs f,
        l.ref = l₀.ref ∧ l.instr.rets = l₀.instr.rets
          ∧ operands l.instr.cls = operands l₀.instr.cls := by
      intro l hl
      rcases mem_instrs_set hl with ⟨rfl, -⟩ | ⟨hl, -⟩
      · exact ⟨last, hmem, rfl, rfl, hops⟩
      · exact ⟨l, hl, rfl, rfl, rfl⟩
    have hsetrefs : ∀ l ∈ instrs (setInstr f last.ref ⟨last.instr.rets, cls⟩),
        ∀ l' ∈ instrs (setInstr f last.ref ⟨last.instr.rets, cls⟩), l.ref = l'.ref →
          l = l' ∨ (IsPhi l.instr ∧ IsPhi l'.instr) := by
      intro l hl l' hl' href
      rcases mem_instrs_set hl with ⟨rfl, -⟩ | ⟨hl, hne⟩
      · rcases mem_instrs_set hl' with ⟨rfl, -⟩ | ⟨-, hne'⟩
        · exact Or.inl rfl
        · exact absurd href.symm hne'
      · rcases mem_instrs_set hl' with ⟨rfl, -⟩ | ⟨hl', -⟩
        · exact absurd href hne
        · exact hs.refs l hl l' hl' href
    -- the instructions of the new function
    have hnew : ∀ l, l ∈ ((setInstr f last.ref ⟨last.instr.rets, cls⟩).bbs.flatMap fun b =>
          if b.id = dest then
            [⟨nb, [⟨f.nextRef, [], .br none dest 0⟩]⟩,
              { b with instrs := changePhis source nb b.instrs }]
          else [b]).flatMap Block.instrs →
        (l = ⟨f.nextRef, [], .br none dest 0⟩)
          ∨ l ∈ instrs (setInstr f last.ref ⟨last.instr.rets, cls⟩)
          ∨ ∃ l₀ ∈ instrs (setInstr f last.ref ⟨last.instr.rets, cls⟩), l.ref = l₀.ref
            ∧ l.instr.rets = l₀.instr.rets ∧ operands l.instr.cls = operands l₀.instr.cls
            ∧ IsPhi l.instr ∧ IsPhi l₀.instr := by
      intro l hl
      obtain ⟨b', hb', hlb'⟩ := List.mem_flatMap.mp hl
      obtain ⟨b₀, hb₀, hbb⟩ := List.mem_flatMap.mp hb'
      split at hbb
      · rcases List.mem_cons.mp hbb with rfl | hbb
        · exact Or.inl (List.mem_singleton.mp hlb')
        · rw [List.mem_singleton.mp hbb] at hlb'
          rcases mem_changePhis hlb' with hmem' | ⟨l₀, hl₀, hsame⟩
          · exact Or.inr (Or.inl (mem_instrs.mpr ⟨b₀, hb₀, hmem'⟩))
          · exact Or.inr (Or.inr ⟨l₀, mem_instrs.mpr ⟨b₀, hb₀, hl₀⟩, hsame⟩)
      · rw [List.mem_singleton.mp hbb] at hlb'
        exact Or.inr (Or.inl (mem_instrs.mpr ⟨b₀, hb₀, hlb'⟩))
    refine Early.relabel h ?_ ?_ ?_ ?_ ?_ ?_
    iterate 4 rfl
    · intro l hl
      rcases hnew l hl with rfl | hl | ⟨l₀, hl₀, href, hrets, hops', -⟩
      · exact Or.inl ⟨rfl, rfl, rfl⟩
      · exact Or.inr (hset l hl)
      · obtain ⟨l₁, hl₁, href', hrets', hops''⟩ := hset l₀ hl₀
        exact Or.inr ⟨l₁, hl₁, href.trans href', hrets.trans hrets', hops'.trans hops''⟩
    · have hlt : ∀ l ∈ instrs (setInstr f last.ref ⟨last.instr.rets, cls⟩), l.ref < f.nextRef := by
        intro l hl
        obtain ⟨l₀, hl₀, href, -⟩ := hset l hl
        exact href ▸ hs.oldInstrs l₀ hl₀
      intro l hl l' hl' href
      rcases hnew l hl with rfl | hl | ⟨l₀, hl₀, href₀, -, -, hphi, hphi₀⟩
      · rcases hnew l' hl' with rfl | hl' | ⟨l₁, hl₁, href₁, -⟩
        · exact Or.inl rfl
        · exact absurd href.symm (Nat.ne_of_lt (hlt l' hl'))
        · exact absurd (href.trans href₁).symm (Nat.ne_of_lt (hlt l₁ hl₁))
      · rcases hnew l' hl' with rfl | hl' | ⟨l₁, hl₁, href₁, -, -, hphi', hphi₁⟩
        · exact absurd href (Nat.ne_of_lt (hlt l hl))
        · exact hsetrefs l hl l' hl' href
        · rcases hsetrefs l hl l₁ hl₁ (href.trans href₁) with rfl | hphis
          · exact Or.inr ⟨hphi₁, hphi'⟩
          · exact Or.inr ⟨hphis.1, hphi'⟩
      · rcases hnew l' hl' with rfl | hl' | ⟨l₁, hl₁, href₁, -, -, hphi', hphi₁⟩
        · exact absurd (href₀.symm.trans href) (Nat.ne_of_lt (hlt l₀ hl₀))
        · rcases hsetrefs l₀ hl₀ l' hl' (href₀.symm.trans href) with rfl | hphis
          · exact Or.inr ⟨hphi, hphi₀⟩
          · exact Or.inr ⟨hphi, hphis.2⟩
        · exact Or.inr ⟨hphi, hphi'⟩

/-! ## Combined instructions -/

/-- The combined instruction does not read the value that is given up for it. -/
def CombinesOther (f : Function) (ii : Linked) : Prop := AddsOther f ii ∧ SelectsOther f ii

theorem Early.combineInstruction (h : Early f) {ii : Linked} (hii : ii ∈ instrs f)
    (hother : CombinesOther f ii) (hg : combineInstruction f ii = .ok g) : Early g := by
  unfold DefUse.combineInstruction at hg
  split at hg
  · exact h.branch hii hg
  · exact h.add hii hother.1 hg
  · exact h.cast hii hg
  · exact h.select hii hother.2 hg
  · cases hg
    exact h

end

end Vmir.DefUseStart
