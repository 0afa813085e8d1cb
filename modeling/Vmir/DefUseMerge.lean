import Vmir.DefUseAggregate

set_option autoImplicit false

/-!
# Dead code and merged values

Destroyed instructions take their links with them. When two values are merged, the links of the one
that is given up lead to all instructions that name it, so that each of them is renamed.
-/
namespace Vmir.DefUseMerge
open Ir IrTypes DefUse DefUseBinding DefUseCombine DefUsePasses ProgramText
open DeadCode (operands)

section
variable {f g : Function}

/-! ## Dead code -/

/-- If the instruction is destroyed, its result is a temporary that no other instruction writes. -/
def WritesAlone (f : Function) (ii : Linked) : Prop :=
  ∀ v, DeadCode.output ⟨ii.instr, []⟩ = some v →
    ((ivInstructions f v).any fun ivi => ivi.relation = .input) = false →
    isTemporary f v = true
      ∧ ∀ l ∈ instrs f, v ∈ l.instr.rets.map ValueType.value → l.ref = ii.ref

theorem visitInstr_sound (h : Sound ∅ f) {ii : Linked} (halone : WritesAlone f ii) :
    Sound ∅ (visitInstr f ii) := by
  unfold visitInstr
  cases hout : DeadCode.output ⟨ii.instr, []⟩ with
  | none => exact h
  | some v =>
    dsimp only
    split
    · exact h
    · rename_i hany
      obtain ⟨htemp, hwriters⟩ := halone v hout (Bool.eq_false_of_not_eq_true hany)
      have hdestroy := h.destroy ii.ref
      rw [Set.empty_sdiff] at hdestroy
      apply hdestroy.kill
      intro l hl hnamed
      obtain ⟨hl, hne⟩ := mem_instrs_destroy.mp hl
      rcases named_iff.mp hnamed with ⟨vt, hvt, rfl⟩ | ⟨vt, hvt, rfl⟩
      · exact hne (hwriters l hl (List.mem_map_of_mem hvt))
      · have hlink := (h.bound l hl (Set.notMem_empty _)).inputs vt hvt htemp
        exact hany (List.any_eq_true.mpr ⟨_, mem_ivInstructions.mpr ⟨hlink, rfl⟩, rfl⟩)

theorem sound_sub (h : Sound ∅ f) (hinstrs : ∀ l ∈ instrs g, l ∈ instrs f) (hiu : g.iu = f.iu)
    (hlinks : g.links = f.links) (hnext : g.nextRef = f.nextRef) : Sound ∅ g := by
  constructor
  · intro l hl href
    refine (h.bound l (hinstrs l hl) href).mono (fun k hk _ => hlinks ▸ hk) ?_
    intro v _ ht
    rw [isTemporary_of_iu hiu] at ht
    exact ht
  · intro l hl v hv
    unfold Alive classOf
    rw [hiu]
    exact h.alive l (hinstrs l hl) v hv
  · exact fun l hl l' hl' => h.refs l (hinstrs l hl) l' (hinstrs l' hl')
  · intro l hl
    rw [hnext]
    exact h.oldInstrs l (hinstrs l hl)
  · intro k hk
    rw [hlinks] at hk
    rw [hnext]
    exact h.oldLinks k hk

theorem foldl_destroy_sound (h : Sound ∅ f) (rs : List ℕ) : Sound ∅ (rs.foldl instrDestroy f) := by
  induction rs generalizing f with
  | nil => exact h
  | cons r rs ih =>
    have hdestroy := h.destroy r
    rw [Set.empty_sdiff] at hdestroy
    exact ih hdestroy

theorem bbDestroy_sound (h : Sound ∅ f) (id : ℕ) : Sound ∅ (bbDestroy f id) := by
  refine sound_sub (foldl_destroy_sound h _) ?_ rfl rfl rfl
  intro l hl
  obtain ⟨b, hb, hmem⟩ := mem_instrs.mp hl
  exact mem_instrs.mpr ⟨b, (List.mem_filter.mp hb).1, hmem⟩

theorem mergeBlocks_sound (h : Sound ∅ f) {ib source : ℕ}
    (hg : mergeBlocks f ib source = .ok g) : Sound ∅ g := by
  unfold mergeBlocks at hg
  split at hg
  · cases hg
  · rename_i last _
    split at hg
    · cases hg
      have hdestroy := h.destroy last.ref
      rw [Set.empty_sdiff] at hdestroy
      refine sound_sub hdestroy ?_ rfl rfl rfl
      intro l hl
      obtain ⟨b', hb', hmem⟩ := mem_instrs.mp hl
      obtain ⟨b, hb, rfl⟩ := List.mem_map.mp hb'
      have hbold := (List.mem_filter.mp hb).1
      split at hmem
      · rcases List.mem_append.mp hmem with hmem | hmem
        · exact mem_instrs.mpr ⟨b, hbold, hmem⟩
        · obtain ⟨b₁, hb₁, hmem⟩ := List.mem_flatMap.mp hmem
          exact mem_instrs.mpr ⟨b₁, (List.mem_filter.mp hb₁).1, hmem⟩
      · exact mem_instrs.mpr ⟨b, hbold, hmem⟩
    · cases hg
      exact h

/-! ## Merged values -/

structure Renamed (killed saved : ℕ) (i i' : Instr) : Prop where
  rets : i'.rets = i.rets.map (replaceValue killed saved)
  operands : operands i'.cls = (operands i.cls).map (replaceValue killed saved)
  phi : ¬ IsPhi i

theorem replaceOperands_ok {rename : ValueType → ValueType} {cls cls' : InstrClass}
    (h : replaceOperands rename cls = .ok cls') :
    operands cls' = (operands cls).map rename ∧ ∀ nodes, cls ≠ .phi nodes := by
  have harg : ∀ argv : List Arg, (argv.map fun a => { a with value := rename a.value }).map Arg.value
      = (argv.map Arg.value).map rename := by
    intro argv
    rw [List.map_map, List.map_map]
    rfl
  have hoption : ∀ o : Option ValueType, (o.map rename).toList = o.toList.map rename := by
    intro o
    cases o <;> rfl
  cases cls <;> cases h <;> refine ⟨?_, nofun⟩
  case ret value => exact hoption value
  case br condition t e => exact hoption condition
  case load ptr immediateOffset valueOffset valueOffsetMultiply cast loadType =>
    exact congrArg (List.cons (rename ptr)) (hoption valueOffset)
  case lea baseptr immediateOffset valueOffset valueOffsetMultiply =>
    exact congrArg (List.cons (rename baseptr)) (hoption valueOffset)
  case call callee argv => exact congrArg (List.cons (rename callee)) (harg argv)
  case vmop op callee argv => exact congrArg (List.cons (rename callee)) (harg argv)
  case invoke callee n u argv => exact congrArg (List.cons (rename callee)) (harg argv)
  all_goals rfl

theorem replaceValue_idem {killed saved : ℕ} (hne : saved ≠ killed) (vt : ValueType) :
    replaceValue killed saved (replaceValue killed saved vt) = replaceValue killed saved vt := by
  unfold replaceValue
  split
  · rfl
  · rfl

theorem replaceValue_value (killed saved : ℕ) (vt : ValueType) :
    (replaceValue killed saved vt).value = if vt.value = killed then saved else vt.value := by
  unfold replaceValue
  split <;> rfl

/-- The loop over the links of the killed value has come to the links `ks`. -/
structure Renaming (killed saved : ℕ) (f g : Function) (ks : List Link) : Prop where
  iu : g.iu = f.iu
  links : g.links = f.links
  next : g.nextRef = f.nextRef
  refs : ∀ l ∈ instrs g, ∀ l' ∈ instrs g, l.ref = l'.ref →
    l = l' ∨ (IsPhi l.instr ∧ IsPhi l'.instr)
  instrs : ∀ l' ∈ DefUse.instrs g, ∃ l ∈ DefUse.instrs f, l.ref = l'.ref
    ∧ (Renamed killed saved l.instr l'.instr
      ∨ (l' = l ∧ ∀ k ∈ ks, k.instr ≠ l.ref))

theorem Renaming.next_link {killed saved : ℕ} (hne : saved ≠ killed) {ks : List Link} {k : Link}
    (h : Renaming killed saved f g ks) {g' : Function}
    (hg : replaceLinked killed saved g k = .ok g') :
    Renaming killed saved f g' (ks ++ [k]) := by
  unfold replaceLinked at hg
  obtain ⟨ii, hii, hg⟩ := bind_ok.mp hg
  obtain ⟨cls, hcls, hg⟩ := bind_ok.mp hg
  cases hg
  obtain ⟨hmem, href⟩ := instrAt_ok hii
  obtain ⟨hops, hphi⟩ := replaceOperands_ok hcls
  constructor
  · exact h.iu
  · exact h.links
  · exact h.next
  · intro l hl l' hl' heq
    rcases mem_instrs_set hl with ⟨rfl, -⟩ | ⟨hl, hother⟩
    · rcases mem_instrs_set hl' with ⟨rfl, -⟩ | ⟨-, hother'⟩
      · exact Or.inl rfl
      · exact absurd heq.symm hother'
    · rcases mem_instrs_set hl' with ⟨rfl, -⟩ | ⟨hl', -⟩
      · exact absurd heq hother
      · exact h.refs l hl l' hl' heq
  · intro l' hl'
    rcases mem_instrs_set hl' with ⟨rfl, -⟩ | ⟨hl', hother⟩
    · obtain ⟨l, hl, hlref, hcase⟩ := h.instrs ii hmem
      refine ⟨l, hl, hlref, Or.inl ?_⟩
      rcases hcase with hrenamed | ⟨rfl, -⟩
      · constructor
        · change ii.instr.rets.map _ = _
          rw [hrenamed.rets, List.map_map]
          exact List.map_congr_left fun vt _ => replaceValue_idem hne vt
        · rw [hops, hrenamed.operands, List.map_map]
          exact List.map_congr_left fun vt _ => replaceValue_idem hne vt
        · exact hrenamed.phi
      · exact ⟨rfl, hops, fun ⟨nodes, hnodes⟩ => hphi nodes hnodes⟩
    · obtain ⟨l, hl, hlref, hcase⟩ := h.instrs l' hl'
      refine ⟨l, hl, hlref, ?_⟩
      rcases hcase with hrenamed | ⟨rfl, hks⟩
      · exact Or.inl hrenamed
      · refine Or.inr ⟨rfl, fun k' hk' => ?_⟩
        rcases List.mem_append.mp hk' with hk' | hk'
        · exact hks k' hk'
        · rw [List.mem_singleton.mp hk', ← href]
          exact fun heq => hother heq.symm

theorem Renaming.run {killed saved : ℕ} (hne : saved ≠ killed) {ks done : List Link} {g' : Function}
    (h : Renaming killed saved f g done) (hg : ks.foldlM (replaceLinked killed saved) g = .ok g') :
    Renaming killed saved f g' (done ++ ks) := by
  induction ks generalizing g done with
  | nil =>
    cases hg
    rw [List.append_nil]
    exact h
  | cons k ks ih =>
    rw [List.foldlM_cons] at hg
    obtain ⟨g₁, hg₁, hg⟩ := bind_ok.mp hg
    have hend := ih (h.next_link hne hg₁) hg
    rw [List.append_assoc] at hend
    exact hend

theorem mergeValues_sound (h : Sound ∅ f) {ii killed saved : ℕ} (hne : saved ≠ killed)
    (hkilled : isTemporary f killed = true) (hsaved : Alive f saved)
    (hg : mergeValues f ii killed saved = .ok g) : Sound ∅ g := by
  unfold mergeValues at hg
  obtain ⟨f₁, hf₁, hg⟩ := bind_ok.mp hg
  cases hg
  have hstart : Renaming killed saved f f [] :=
    ⟨rfl, rfl, rfl, h.refs, fun l hl => ⟨l, hl, rfl, Or.inr ⟨rfl, fun _ hk =>
      absurd hk List.not_mem_nil⟩⟩⟩
  have hend : Renaming killed saved f f₁ (ivInstructions f killed) := hstart.run hne hf₁
  -- each instruction that names the killed value has been renamed
  have hinstrs : ∀ l' ∈ instrs f₁, ∃ l ∈ instrs f, l.ref = l'.ref
      ∧ l'.instr.rets = l.instr.rets.map (replaceValue killed saved)
      ∧ operands l'.instr.cls = (operands l.instr.cls).map (replaceValue killed saved) := by
    intro l' hl'
    obtain ⟨l, hl, href, hcase⟩ := hend.instrs l' hl'
    refine ⟨l, hl, href, ?_⟩
    rcases hcase with hrenamed | ⟨rfl, hks⟩
    · exact ⟨hrenamed.rets, hrenamed.operands⟩
    · have hnamed : ¬ Named l'.instr killed := by
        intro hnamed
        obtain ⟨k, hk, hval, hkref⟩ := h.linked hkilled hl hnamed
        exact hks k (mem_ivInstructions.mpr ⟨hk, hval⟩) hkref
      have hsame : ∀ vts : List ValueType, (∀ vt ∈ vts, Named l'.instr vt.value) →
          vts = vts.map (replaceValue killed saved) := by
        intro vts hvts
        have hid : vts.map (replaceValue killed saved) = vts.map id := by
          apply List.map_congr_left
          intro vt hvt
          unfold replaceValue
          rw [if_neg]
          · rfl
          · exact fun heq => hnamed (heq ▸ hvts vt hvt)
        rw [hid, List.map_id]
      exact ⟨hsame _ fun vt hvt => named_ret hvt, hsame _ fun vt hvt => named_operand hvt⟩
  -- the links of the killed value have become links of the saved one
  let links := ((ivInstructions f killed).map fun ivi => { ivi with value := saved }).reverse
    ++ f₁.links.filter fun l => l.value ≠ killed
  have hlink : ∀ (relation : Relation) (r : ℕ) (vt : ValueType),
      (isTemporary f vt.value = true → ⟨vt.value, r, relation⟩ ∈ f.links) →
      isTemporary f (replaceValue killed saved vt).value = true →
      ⟨(replaceValue killed saved vt).value, r, relation⟩ ∈ links := by
    intro relation r vt hvt ht
    rw [replaceValue_value] at ht ⊢
    by_cases heq : vt.value = killed
    · rw [if_pos heq]
      have hmem := mem_ivInstructions.mpr ⟨hvt (heq ▸ hkilled), heq⟩
      exact List.mem_append_left _ (List.mem_reverse.mpr (List.mem_map.mpr ⟨_, hmem, rfl⟩))
    · rw [if_neg heq] at ht ⊢
      apply List.mem_append_right
      apply List.mem_filter.mpr
      refine ⟨?_, decide_eq_true heq⟩
      rw [hend.links]
      exact hvt ht
  have htemp : ∀ v, isTemporary { f₁ with links := links } v = isTemporary f v :=
    isTemporary_of_iu hend.iu
  have hmerged : Sound ∅ { f₁ with links := links } := by
    constructor
    · intro l' hl' _
      obtain ⟨l, hl, href, hrets, hops⟩ := hinstrs l' hl'
      have hbound := h.bound l hl (Set.notMem_empty _)
      constructor
      · intro vt' hvt' ht
        rw [htemp] at ht
        rw [hops] at hvt'
        obtain ⟨vt, hvt, rfl⟩ := List.mem_map.mp hvt'
        rw [← href]
        exact hlink .input l.ref vt (hbound.inputs vt hvt) ht
      · intro vt' hvt' ht
        rw [htemp] at ht
        rw [hrets] at hvt'
        obtain ⟨vt, hvt, rfl⟩ := List.mem_map.mp hvt'
        rw [← href]
        exact hlink .output l.ref vt (hbound.outputs vt hvt) ht
    · intro l' hl' v hv
      obtain ⟨l, hl, -, hrets, hops⟩ := hinstrs l' hl'
      unfold Alive classOf
      change v < f₁.iu.values.length ∧ (f₁.iu.values[v]?).map Value.cls ≠ some .dead
      rw [hend.iu]
      unfold Named at hv
      rw [hrets, hops, ← List.map_append, List.map_map] at hv
      obtain ⟨vt, hvt, rfl⟩ := List.mem_map.mp hv
      change Alive f (replaceValue killed saved vt).value
      rw [replaceValue_value]
      split
      · exact hsaved
      · exact h.alive l hl _ (List.mem_map_of_mem hvt)
    · exact hend.refs
    · intro l' hl'
      obtain ⟨l, hl, href, -⟩ := hinstrs l' hl'
      change l'.ref < f₁.nextRef
      rw [hend.next, ← href]
      exact h.oldInstrs l hl
    · intro k hk
      change k.instr < f₁.nextRef
      rw [hend.next]
      rcases List.mem_append.mp hk with hk | hk
      · obtain ⟨k₀, hk₀, rfl⟩ := List.mem_map.mp (List.mem_reverse.mp hk)
        exact h.oldLinks k₀ (mem_ivInstructions.mp hk₀).1
      · have hk := (List.mem_filter.mp hk).1
        rw [hend.links] at hk
        exact h.oldLinks k hk
  have hkill : Sound ∅ (setClass { f₁ with links := links } killed .dead) := by
    apply hmerged.kill
    intro l' hl' hnamed
    obtain ⟨l, -, -, hrets, hops⟩ := hinstrs l' hl'
    unfold Named at hnamed
    rw [hrets, hops, ← List.map_append, List.map_map] at hnamed
    obtain ⟨vt, -, heq⟩ := List.mem_map.mp hnamed
    change (replaceValue killed saved vt).value = killed at heq
    rw [replaceValue_value] at heq
    split at heq
    · exact hne heq
    · rename_i hother
      exact hother heq
  have hdestroy := hkill.destroy ii
  rw [Set.empty_sdiff] at hdestroy
  exact hdestroy

theorem coalesceMove_sound (h : Sound ∅ f) {ii : Linked} (hii : ii ∈ instrs f) {killSource : Bool}
    (hg : coalesceMove f ii killSource = .ok g) : Sound ∅ g := by
  unfold coalesceMove at hg
  split at hg
  · rename_i ret value hrets hcls
    have hret : Alive f ret.value := by
      apply h.alive ii hii _ (named_ret _)
      rw [hrets]
      exact List.mem_cons_self
    have hvalue : Alive f value.value := by
      apply h.alive ii hii _ (named_operand _)
      rw [hcls]
      exact List.mem_cons_self
    split at hg
    · cases hg
      exact h
    · rename_i hsource
      have hsource : isTemporary f value.value = true := by
        rw [Bool.not_eq_true', Bool.not_eq_false] at hsource
        exact hsource
      split at hg
      · cases hg
        have hdestroy := h.destroy ii.ref
        rw [Set.empty_sdiff] at hdestroy
        exact hdestroy
      · rename_i hne
        split at hg
        · cases hg
        · rename_i hdest
          have hdest : isTemporary f ret.value = true := by
            rw [Bool.not_eq_true', Bool.not_eq_false] at hdest
            exact hdest
          split at hg
          · exact mergeValues_sound h hne hsource hret hg
          · exact mergeValues_sound h (Ne.symm hne) hdest hvalue hg
  · cases hg
    exact h

end

end Vmir.DefUseMerge
