import Vmir.DefUseBinding
import Vmir.ProgramText

set_option autoImplicit false

/-!
# Combined instructions and their links

The instruction upstream of an operand is the only one that writes the value, and the combined
instruction takes the place of the only one that reads it. So the value may be given up, unless the
combined instruction reads it as well.
-/
namespace Vmir.DefUseCombine
open Ir IrTypes DefUse DefUseBinding ProgramText
open DeadCode (operands)

def Produced (f : Function) : Prop :=
  ∀ k ∈ f.links, k.relation = .output → ∀ l ∈ instrs f, l.ref = k.instr →
    k.value ∈ l.instr.rets.map ValueType.value

def ConstElements (f : Function) : Prop :=
  ∀ e ∈ f.elements, ∀ vt ∈ e.2, Alive f vt.value ∧ isTemporary f vt.value = false

/-- A function up to the combining of instructions. -/
structure Early (f : Function) : Prop where
  sound : Sound ∅ f
  produced : Produced f
  consts : ConstElements f

section
variable {f : Function}

theorem Produced.create (h : Produced f) (hs : Sound ∅ f) (place : Place) (anchor : ℕ) {i : Instr}
    {bs : List (Relation × ValueType)}
    (hbs : ∀ b ∈ bs, b.1 = .output → b.2.value ∈ i.rets.map ValueType.value) :
    Produced (create f place anchor i bs) := by
  intro k hk hrel l hl href
  rcases mem_links_create.mp hk with hk | ⟨b, hb, rfl, -⟩
  · rcases mem_instrs_create hl with rfl | hl
    · exact absurd href.symm (Nat.ne_of_lt (hs.oldLinks k hk))
    · exact h k hk hrel l hl href
  · rcases mem_instrs_create hl with rfl | hl
    · exact hbs b hb hrel
    · exact absurd href (Nat.ne_of_lt (hs.oldInstrs l hl))

theorem Produced.destroy (h : Produced f) (r : ℕ) : Produced (instrDestroy f r) := by
  intro k hk hrel l hl href
  exact h k (mem_links_destroy.mp hk).1 hrel l (mem_instrs_destroy.mp hl).1 href

theorem ConstElements.kill (h : ConstElements f) {v : ℕ} (hv : isTemporary f v = true) :
    ConstElements (setClass f v .dead) := by
  intro e he vt hvt
  obtain ⟨⟨hlt, hdead⟩, htemp⟩ := h e he vt hvt
  have hne : v ≠ vt.value := by
    rintro rfl
    rw [hv] at htemp
    cases htemp
  refine ⟨⟨?_, ?_⟩, ?_⟩
  · change vt.value < (f.iu.values.modify v _).length
    rw [List.length_modify]
    exact hlt
  · rw [classOf_setClass_ne hne]
    exact hdead
  · unfold isTemporary
    rw [classOf_setClass_ne hne]
    exact htemp

/-- The values and the elements are those of a function in which `v` has been given up. -/
theorem constElements_of_iu {g g' : Function} {v : ℕ}
    (h : ConstElements (setClass f v .dead)) (hiu : g.iu = f.iu)
    (helems : g.elements = f.elements) (hg : g'.iu = (setClass g v .dead).iu)
    (hg' : g'.elements = g.elements) : ConstElements g' := by
  intro e he vt hvt
  rw [hg', helems] at he
  have hiu' : g'.iu = (setClass f v .dead).iu := by
    rw [hg]
    unfold setClass
    rw [hiu]
  unfold Alive isTemporary classOf
  rw [hiu']
  exact h e he vt hvt

/-- The instruction `u` writes the temporary `v`, and only `target` reads it. -/
structure Upstream (f : Function) (v target : ℕ) (u : Linked) : Prop where
  temporary : isTemporary f v = true
  mem : u ∈ instrs f
  inputs : ∀ k ∈ f.links, k.value = v → k.relation = .input → k.instr = target
  outputs : ∀ k ∈ f.links, k.value = v → k.relation = .output → k.instr = u.ref
  output : ∃ k ∈ f.links, k.value = v ∧ k.relation = .output

theorem upstreamLoop_ok {target r : ℕ} {up : Option ℕ} {ivis : List Link}
    (h : upstreamLoop target up ivis = .ok (some r)) :
    (∀ k ∈ ivis, k.relation = .input → k.instr = target)
      ∧ (∀ k ∈ ivis, k.relation = .output → k.instr = r)
      ∧ ((up = some r ∧ ∀ k ∈ ivis, k.relation = .input)
        ∨ (up = none ∧ ∃ k ∈ ivis, k.relation = .output)) := by
  induction ivis generalizing up with
  | nil =>
    cases h
    exact ⟨fun _ hk => absurd hk List.not_mem_nil, fun _ hk => absurd hk List.not_mem_nil,
      Or.inl ⟨rfl, fun _ hk => absurd hk List.not_mem_nil⟩⟩
  | cons ivi ivis ih =>
    unfold upstreamLoop at h
    cases hrel : ivi.relation with
    | output =>
      rw [hrel] at h
      dsimp only at h
      cases up with
      | some r' => cases h
      | none =>
        obtain ⟨hin, hout, hup⟩ := ih h
        rcases hup with ⟨heq, hall⟩ | ⟨hnone, -⟩
        · have hr : ivi.instr = r := Option.some.inj heq
          refine ⟨?_, ?_, Or.inr ⟨rfl, ivi, List.mem_cons_self, hrel⟩⟩
          · intro k hk hkin
            rcases List.mem_cons.mp hk with rfl | hk
            · rw [hrel] at hkin
              cases hkin
            · exact hin k hk hkin
          · intro k hk hkout
            rcases List.mem_cons.mp hk with rfl | hk
            · exact hr
            · exact hout k hk hkout
        · cases hnone
    | input =>
      rw [hrel] at h
      dsimp only at h
      split at h
      · cases h
      · rename_i htarget
        have htarget : ivi.instr = target := not_ne_iff.mp htarget
        obtain ⟨hin, hout, hup⟩ := ih h
        refine ⟨?_, ?_, ?_⟩
        · intro k hk hkin
          rcases List.mem_cons.mp hk with rfl | hk
          · exact htarget
          · exact hin k hk hkin
        · intro k hk hkout
          rcases List.mem_cons.mp hk with rfl | hk
          · rw [hrel] at hkout
            cases hkout
          · exact hout k hk hkout
        · rcases hup with ⟨heq, hall⟩ | ⟨hnone, k, hk, hkout⟩
          · refine Or.inl ⟨heq, fun k hk => ?_⟩
            rcases List.mem_cons.mp hk with rfl | hk
            · exact hrel
            · exact hall k hk
          · exact Or.inr ⟨hnone, k, List.mem_cons_of_mem _ hk, hkout⟩

theorem upstream_ok {vt : ValueType} {target : ℕ} {u : Linked}
    (h : combineGetUpstreamInstruction f vt target = .ok (some u)) :
    Upstream f vt.value target u := by
  unfold combineGetUpstreamInstruction at h
  split at h
  · rename_i htemp
    obtain ⟨up, hup, h⟩ := bind_ok.mp h
    cases up with
    | none => cases h
    | some r =>
      obtain ⟨l, hl, h⟩ := bind_ok.mp h
      cases h
      obtain ⟨hmem, href⟩ := instrAt_ok hl
      obtain ⟨hin, hout, hsome⟩ := upstreamLoop_ok hup
      have hiv : ∀ k ∈ f.links, k.value = vt.value → k ∈ ivInstructions f vt.value :=
        fun k hk hv => mem_ivInstructions.mpr ⟨hk, hv⟩
      constructor
      · exact htemp
      · exact hmem
      · exact fun k hk hv hrel => hin k (hiv k hk hv) hrel
      · intro k hk hv hrel
        rw [href]
        exact hout k (hiv k hk hv) hrel
      · rcases hsome with ⟨hnone, -⟩ | ⟨-, k, hk, hrel⟩
        · cases hnone
        · obtain ⟨hk, hv⟩ := mem_ivInstructions.mp hk
          exact ⟨k, hk, hv, hrel⟩
  · cases h

section
variable {v target : ℕ} {u l : Linked} (h : Upstream f v target u) (hs : Sound ∅ f)
include h hs

theorem Upstream.operand_ne (hne : u.ref ≠ target) {vt : ValueType}
    (hvt : vt ∈ operands u.instr.cls) : vt.value ≠ v := by
  rintro rfl
  have hlink := (hs.bound u h.mem (Set.notMem_empty _)).inputs vt hvt h.temporary
  exact hne (h.inputs _ hlink rfl rfl)

theorem Upstream.ret_ne (hne : u.ref ≠ target) (hl : l ∈ instrs f) (href : l.ref = target)
    {vt : ValueType} (hvt : vt ∈ l.instr.rets) : vt.value ≠ v := by
  rintro rfl
  have hlink := (hs.bound l hl (Set.notMem_empty _)).outputs vt hvt h.temporary
  exact hne ((h.outputs _ hlink rfl rfl).symm.trans href)

theorem Upstream.named (hl : l ∈ instrs f) (hnamed : Named l.instr v) :
    l.ref = target ∨ l.ref = u.ref := by
  obtain ⟨k, hk, hv, href⟩ := hs.linked h.temporary hl hnamed
  rw [← href]
  cases hrel : k.relation with
  | input => exact Or.inl (h.inputs k hk hv hrel)
  | output => exact Or.inr (h.outputs k hk hv hrel)

/-- The combined instruction `i` takes the place of the reader `l` and of the instruction upstream,
and does not name the value itself. -/
theorem Upstream.combine (hp : Produced f) (hc : ConstElements f) (href : l.ref = target)
    {i : Instr} {bs : List (Relation × ValueType)} (halive : ∀ w, Named i w → Alive f w)
    (hi : ¬ Named i v) (hrets : ∀ vt ∈ i.rets, (.output, vt) ∈ bs)
    (hoperands : ∀ vt ∈ operands i.cls, (.input, vt) ∈ bs)
    (hbs : ∀ b ∈ bs, b.1 = .output → b.2.value ∈ i.rets.map ValueType.value) :
    Early (instrDestroy (instrDestroy (setClass (create f .after l.ref i bs) v .dead) l.ref)
      u.ref) := by
  have hcreate := hs.create .after l.ref halive hrets hoperands
  have hempty : ((∅ : Set ℕ) \ {l.ref}) \ {u.ref} = ∅ := by
    rw [Set.empty_sdiff, Set.empty_sdiff]
  have hdestroy := (hcreate.destroy l.ref).destroy u.ref
  rw [hempty] at hdestroy
  constructor
  · apply hdestroy.kill
    intro l' hl' hnamed
    obtain ⟨hl', hne⟩ := mem_instrs_destroy.mp hl'
    obtain ⟨hl', hne'⟩ := mem_instrs_destroy.mp hl'
    rcases mem_instrs_create hl' with rfl | hl'
    · exact hi hnamed
    · rcases h.named hs hl' hnamed with heq | heq
      · exact hne' (heq.trans href.symm)
      · exact hne heq
  · exact ((hp.create hs .after l.ref hbs).destroy l.ref).destroy u.ref
  · have hiu := (create_eq (f := f) .after l.ref i bs).1
    have helems := (create_eq (f := f) .after l.ref i bs).2.2
    exact constElements_of_iu (hc.kill h.temporary) hiu helems rfl rfl

end

theorem named_ret {l : Linked} {vt : ValueType} (h : vt ∈ l.instr.rets) :
    Named l.instr vt.value := List.mem_map_of_mem (List.mem_append_left _ h)

theorem named_operand {l : Linked} {vt : ValueType} (h : vt ∈ operands l.instr.cls) :
    Named l.instr vt.value := List.mem_map_of_mem (List.mem_append_right _ h)

theorem named_iff {i : Instr} {v : ℕ} : Named i v
    ↔ (∃ vt ∈ i.rets, vt.value = v) ∨ ∃ vt ∈ operands i.cls, vt.value = v := by
  unfold Named
  simp only [List.mem_map, List.mem_append, or_and_right, exists_or]

theorem integerCompare_some {l : Linked} {rets : List ValueType} {op : IcmpPred}
    {lhs rhs : ValueType} (h : integerCompare l = some (rets, op, lhs, rhs)) :
    l.instr.rets = rets ∧ l.instr.cls = .cmp2 (.icmp op) lhs rhs := by
  unfold integerCompare at h
  split at h
  · rename_i hcls
    cases h
    exact ⟨rfl, hcls⟩
  · cases h

theorem Sound.ref_ne (hs : Sound ∅ f) {l u : Linked} (hl : l ∈ instrs f) (hu : u ∈ instrs f)
    (hphi : ¬ IsPhi u.instr) (hcls : u.instr.cls ≠ l.instr.cls) : u.ref ≠ l.ref := by
  intro href
  rcases hs.refs u hu l hl href with rfl | h
  · exact hcls rfl
  · exact hphi h.1

theorem not_isPhi {i : Instr} {cls : InstrClass} (h : i.cls = cls)
    (hcls : ∀ nodes, cls ≠ .phi nodes) : ¬ IsPhi i := by
  rintro ⟨nodes, hnodes⟩
  exact hcls nodes (h.symm.trans hnodes)

theorem Early.branch (h : Early f) {br : Linked} (hbr : br ∈ instrs f) {g : Function}
    (hg : combineBranchWithCompare f br = .ok g) : Early g := by
  have hs := h.sound
  unfold combineBranchWithCompare at hg
  split at hg
  · rename_i condition trueBranch falseBranch hcls
    obtain ⟨up, hup, hg⟩ := bind_ok.mp hg
    cases up with
    | none =>
      cases hg
      exact h
    | some iip =>
      have hu := upstream_ok hup
      dsimp only at hg
      cases hcmp : integerCompare iip with
      | none =>
        rw [hcmp] at hg
        cases hg
        exact h
      | some c =>
        obtain ⟨rets, op, lhs, rhs⟩ := c
        rw [hcmp] at hg
        obtain ⟨code, -, hg⟩ := bind_ok.mp hg
        split at hg
        · obtain ⟨_, -, hg⟩ := bind_ok.mp hg
          cases hg
          obtain ⟨-, hcls'⟩ := integerCompare_some hcmp
          have hne : iip.ref ≠ br.ref := Sound.ref_ne hs hbr hu.mem (not_isPhi hcls' nofun)
            (by rw [hcls, hcls']; exact nofun)
          have hops : ∀ vt ∈ [lhs, rhs], vt ∈ operands iip.instr.cls := by
            intro vt hvt
            rw [hcls']
            exact hvt
          apply hu.combine hs h.produced h.consts rfl
          · intro w hw
            rcases named_iff.mp hw with ⟨vt, hvt, -⟩ | ⟨vt, hvt, rfl⟩
            · exact absurd hvt List.not_mem_nil
            · exact hs.alive iip hu.mem _ (named_operand (hops vt hvt))
          · intro hw
            rcases named_iff.mp hw with ⟨vt, hvt, -⟩ | ⟨vt, hvt, heq⟩
            · exact absurd hvt List.not_mem_nil
            · exact hu.operand_ne hs hne (hops vt hvt) heq
          · exact fun vt hvt => absurd hvt List.not_mem_nil
          · exact fun vt hvt => List.mem_map_of_mem hvt
          · intro b hb hout
            obtain ⟨vt, -, rfl⟩ := List.mem_map.mp hb
            cases hout
        · cases hg
          exact h
  · cases hg
    exact h

/-- The select does not choose its own condition. -/
def SelectsOther (f : Function) (sel : Linked) : Prop :=
  ∀ ret trueValue falseValue pred iip rets op lhs rhs opty,
    sel.instr = ⟨[ret], .select trueValue falseValue pred⟩ →
    combineGetUpstreamInstruction f pred sel.ref = .ok (some iip) →
    integerCompare iip = some (rets, op, lhs, rhs) → typeCode f ret.type = .ok opty →
    (opty = .int8 ∨ opty = .int16 ∨ opty = .int32 ∨ opty = .pointer) →
    trueValue.value ≠ pred.value ∧ falseValue.value ≠ pred.value

theorem Early.select (h : Early f) {sel : Linked} (hsel : sel ∈ instrs f)
    (hother : SelectsOther f sel) {g : Function}
    (hg : combineSelectWithCompare f sel = .ok g) : Early g := by
  have hs := h.sound
  unfold combineSelectWithCompare at hg
  split at hg
  · rename_i ret trueValue falseValue pred hrets hcls
    obtain ⟨up, hup, hg⟩ := bind_ok.mp hg
    cases up with
    | none =>
      cases hg
      exact h
    | some iip =>
      have hu := upstream_ok hup
      dsimp only at hg
      cases hcmp : integerCompare iip with
      | none =>
        rw [hcmp] at hg
        cases hg
        exact h
      | some c =>
        obtain ⟨rets, op, lhs, rhs⟩ := c
        rw [hcmp] at hg
        obtain ⟨cmpty, -, hg⟩ := bind_ok.mp hg
        obtain ⟨opty, hopty, hg⟩ := bind_ok.mp hg
        split at hg
        · rename_i htypes
          obtain ⟨_, -, hg⟩ := bind_ok.mp hg
          cases hg
          obtain ⟨-, hcls'⟩ := integerCompare_some hcmp
          have hne : iip.ref ≠ sel.ref :=
            Sound.ref_ne hs hsel hu.mem (not_isPhi hcls' nofun) (by rw [hcls, hcls']; exact nofun)
          have hinstr : sel.instr = ⟨[ret], .select trueValue falseValue pred⟩ := by
            rw [← hrets, ← hcls]
          obtain ⟨htrue, hfalse⟩ :=
            hother _ _ _ _ _ _ _ _ _ _ hinstr hup hcmp hopty htypes.2
          have hops : ∀ vt ∈ [lhs, rhs, trueValue, falseValue],
              Alive f vt.value ∧ vt.value ≠ pred.value := by
            have hcmps : ∀ vt ∈ [lhs, rhs], Alive f vt.value ∧ vt.value ≠ pred.value := by
              intro vt hvt
              have hmem : vt ∈ operands iip.instr.cls := by
                rw [hcls']
                exact hvt
              exact ⟨hs.alive iip hu.mem _ (named_operand hmem), hu.operand_ne hs hne hmem⟩
            have hsels : ∀ vt ∈ [trueValue, falseValue], Alive f vt.value := by
              intro vt hvt
              have hmem : vt ∈ operands sel.instr.cls := by
                rw [hcls]
                exact List.mem_append_left [pred] hvt
              exact hs.alive sel hsel _ (named_operand hmem)
            intro vt hvt
            rcases List.mem_append.mp (show vt ∈ [lhs, rhs] ++ [trueValue, falseValue] from hvt)
              with hvt | hvt
            · exact hcmps vt hvt
            · refine ⟨hsels vt hvt, ?_⟩
              rcases List.mem_cons.mp hvt with rfl | hvt
              · exact htrue
              · rw [List.mem_singleton.mp hvt]
                exact hfalse
          have hret : ret ∈ sel.instr.rets := by
            rw [hrets]
            exact List.mem_cons_self
          apply hu.combine hs h.produced h.consts rfl
          · intro w hw
            rcases named_iff.mp hw with ⟨vt, hvt, rfl⟩ | ⟨vt, hvt, rfl⟩
            · rw [List.mem_singleton.mp hvt]
              exact hs.alive sel hsel _ (named_ret hret)
            · exact (hops vt hvt).1
          · intro hw
            rcases named_iff.mp hw with ⟨vt, hvt, heq⟩ | ⟨vt, hvt, heq⟩
            · rw [List.mem_singleton.mp hvt] at heq
              exact hu.ret_ne hs hne hsel rfl hret heq
            · exact (hops vt hvt).2 heq
          · exact fun vt hvt => List.mem_append_right _ (List.mem_map_of_mem hvt)
          · exact fun vt hvt => List.mem_append_left _ (List.mem_map_of_mem hvt)
          · intro b hb hout
            rcases List.mem_append.mp hb with hb | hb
            · obtain ⟨vt, -, rfl⟩ := List.mem_map.mp hb
              cases hout
            · obtain ⟨vt, hvt, rfl⟩ := List.mem_map.mp hb
              exact List.mem_map_of_mem hvt
        · cases hg
          exact h
  · cases hg
    exact h

theorem upstreamProduct_ok {vt : ValueType} {add : ℕ} {mul : Linked}
    {product lhs rhs : ValueType}
    (h : upstreamProduct f vt add = .ok (some (mul, product, lhs, rhs))) :
    Upstream f vt.value add mul ∧ mul.instr = ⟨[product], .binop .mul lhs rhs⟩ := by
  unfold upstreamProduct at h
  obtain ⟨up, hup, h⟩ := bind_ok.mp h
  cases up with
  | none => cases h
  | some l =>
    have hmap : (productOf l).map (fun p => (l, p)) = some (mul, product, lhs, rhs) :=
      Except.ok.inj h
    obtain ⟨p, hp, hpair⟩ := Option.map_eq_some_iff.mp hmap
    cases hpair
    refine ⟨upstream_ok hup, ?_⟩
    unfold productOf at hp
    split at hp
    · rename_i hrets hcls
      cases hp
      rw [← hrets, ← hcls]
    · cases hp

theorem Upstream.value_eq {v target : ℕ} {u : Linked} (h : Upstream f v target u)
    (hp : Produced f) {ret : ValueType} (hret : u.instr.rets = [ret]) : ret.value = v := by
  obtain ⟨k, hk, hv, hrel⟩ := h.output
  have hmem := hp k hk hrel u h.mem (h.outputs k hk hv hrel).symm
  rw [hret, List.map_cons, List.map_nil, List.mem_singleton] at hmem
  exact hmem.symm.trans hv

theorem Early.addMul (h : Early f) {add mul : Linked} {ret product lhs rhs x y arg3 : ValueType}
    (hadd : add ∈ instrs f) (hinstr : add.instr = ⟨[ret], .binop .add x y⟩)
    (harg : arg3 = x ∨ arg3 = y) (hu : Upstream f product.value add.ref mul)
    (hmul : mul.instr = ⟨[product], .binop .mul lhs rhs⟩)
    (hother : typeCode f lhs.type = .ok .int32 → inRegister f lhs.value = true →
      inRegister f rhs.value = true → arg3.value ≠ product.value)
    {g : Function} (hg : combineBinopAddMul f add mul ret product lhs rhs arg3 = .ok g) :
    Early g := by
  have hs := h.sound
  unfold combineBinopAddMul at hg
  obtain ⟨code, hcode, hg⟩ := bind_ok.mp hg
  split at hg
  · cases hg
    exact h
  · rename_i hint
    split at hg
    · cases hg
    · split at hg
      · rename_i hregs
        cases hg
        have hcode' : code = .int32 := not_ne_iff.mp hint
        have hne : mul.ref ≠ add.ref :=
          Sound.ref_ne hs hadd hu.mem (not_isPhi (congrArg Instr.cls hmul) nofun)
            (by rw [hinstr, hmul]; exact nofun)
        have hret : ret ∈ add.instr.rets := by
          rw [hinstr]
          exact List.mem_cons_self
        have hargmem : arg3 ∈ operands add.instr.cls := by
          rw [hinstr]
          rcases harg with rfl | rfl
          · exact List.mem_cons_self
          · exact List.mem_cons_of_mem _ List.mem_cons_self
        have hops : ∀ vt ∈ [lhs, rhs, ⟨arg3.value, rhs.type⟩],
            Alive f vt.value ∧ vt.value ≠ product.value := by
          have hfactors : ∀ vt ∈ [lhs, rhs], Alive f vt.value ∧ vt.value ≠ product.value := by
            intro vt hvt
            have hmem : vt ∈ operands mul.instr.cls := by
              rw [hmul]
              exact hvt
            exact ⟨hs.alive mul hu.mem _ (named_operand hmem), hu.operand_ne hs hne hmem⟩
          intro vt hvt
          rcases List.mem_append.mp
            (show vt ∈ [lhs, rhs] ++ [⟨arg3.value, rhs.type⟩] from hvt) with hvt | hvt
          · exact hfactors vt hvt
          · rw [List.mem_singleton.mp hvt]
            have halive := hs.alive add hadd arg3.value (named_operand hargmem)
            exact ⟨halive, hother (hcode' ▸ hcode) hregs.1 hregs.2.1⟩
        apply hu.combine hs h.produced h.consts rfl
        · intro w hw
          rcases named_iff.mp hw with ⟨vt, hvt, rfl⟩ | ⟨vt, hvt, rfl⟩
          · rw [List.mem_singleton.mp hvt]
            exact hs.alive add hadd _ (named_ret hret)
          · exact (hops vt hvt).1
        · intro hw
          rcases named_iff.mp hw with ⟨vt, hvt, heq⟩ | ⟨vt, hvt, heq⟩
          · rw [List.mem_singleton.mp hvt] at heq
            exact hu.ret_ne hs hne hadd rfl hret heq
          · exact (hops vt hvt).2 heq
        · exact fun vt hvt => List.mem_append_right _ (List.mem_map_of_mem hvt)
        · exact fun vt hvt => List.mem_append_left _ (List.mem_map_of_mem hvt)
        · intro b hb hout
          rcases List.mem_append.mp hb with hb | hb
          · obtain ⟨vt, -, rfl⟩ := List.mem_map.mp hb
            cases hout
          · obtain ⟨vt, hvt, rfl⟩ := List.mem_map.mp hb
            exact List.mem_map_of_mem hvt
      · cases hg
        exact h

/-- A product that an MLA can compute is not added to itself. -/
def AddsOther (f : Function) (add : Linked) : Prop :=
  ∀ ret x y mul product lhs rhs, add.instr = ⟨[ret], .binop .add x y⟩ →
    upstreamProduct f x add.ref = .ok (some (mul, product, lhs, rhs)) →
    typeCode f lhs.type = .ok .int32 → inRegister f lhs.value = true →
    inRegister f rhs.value = true → y.value ≠ x.value

theorem Early.add (h : Early f) {add : Linked} (hadd : add ∈ instrs f) (hother : AddsOther f add)
    {g : Function} (hg : combineBinopAdd f add = .ok g) : Early g := by
  unfold combineBinopAdd at hg
  split at hg
  · rename_i ret x y hrets hcls
    have hinstr : add.instr = ⟨[ret], .binop .add x y⟩ := by
      rw [← hrets, ← hcls]
    obtain ⟨up, hup, hg⟩ := bind_ok.mp hg
    cases up with
    | some p =>
      obtain ⟨mul, product, lhs, rhs⟩ := p
      obtain ⟨hu, hmul⟩ := upstreamProduct_ok hup
      have hval : product.value = x.value := hu.value_eq h.produced (by rw [hmul])
      rw [← hval] at hu
      refine h.addMul hadd hinstr (Or.inr rfl) hu hmul (fun hcode hl hr => ?_) hg
      rw [hval]
      exact hother _ _ _ _ _ _ _ hinstr hup hcode hl hr
    | none =>
      obtain ⟨up', hup', hg⟩ := bind_ok.mp hg
      cases up' with
      | none =>
        cases hg
        exact h
      | some p =>
        obtain ⟨mul, product, lhs, rhs⟩ := p
        obtain ⟨hu, hmul⟩ := upstreamProduct_ok hup'
        have hval : product.value = y.value := hu.value_eq h.produced (by rw [hmul])
        rw [← hval] at hu
        refine h.addMul hadd hinstr (Or.inl rfl) hu hmul (fun _ _ _ heq => ?_) hg
        have hsame : upstreamProduct f x add.ref = upstreamProduct f y add.ref := by
          unfold upstreamProduct combineGetUpstreamInstruction
          rw [heq.trans hval]
        rw [hsame, hup'] at hup
        cases hup
  · cases hg
    exact h

theorem Early.loadCast (h : Early f) {cast load : Linked} {ret value killed ptr : ValueType}
    {op : CastOp} {immediateOffset valueOffsetMultiply : ℤ} {valueOffset : Option ValueType}
    {c : Option CastOp} {loadType : BitVec 8} (hcast : cast ∈ instrs f)
    (hinstr : cast.instr.rets = [ret] ∧ cast.instr.cls = .cast op value)
    (hu : Upstream f killed.value cast.ref load)
    (hload : load.instr.rets = [killed]
      ∧ load.instr.cls = .load ptr immediateOffset valueOffset valueOffsetMultiply c loadType)
    (killType : ℕ) :
    Early (combineBinopLoadCast f cast load ret op killed ptr immediateOffset valueOffset
      valueOffsetMultiply killType) := by
  have hs := h.sound
  have hne : load.ref ≠ cast.ref :=
    Sound.ref_ne hs hcast hu.mem (not_isPhi hload.2 nofun) (by rw [hinstr.2, hload.2]; exact nofun)
  let new : Instr := ⟨[ret], .load ptr immediateOffset valueOffset valueOffsetMultiply (some op)
    (BitVec.ofNat 8 killType)⟩
  let binds := inputs (ptr :: valueOffset.toList) ++ outputs [ret]
  have hret : ret ∈ cast.instr.rets := by
    rw [hinstr.1]
    exact List.mem_cons_self
  have hops : ∀ vt ∈ operands new.cls, vt ∈ operands load.instr.cls := by
    intro vt hvt
    rw [hload.2]
    exact hvt
  have halive : ∀ w, Named new w → Alive f w := by
    intro w hw
    rcases named_iff.mp hw with ⟨vt, hvt, rfl⟩ | ⟨vt, hvt, rfl⟩
    · rw [List.mem_singleton.mp hvt]
      exact hs.alive cast hcast _ (named_ret hret)
    · exact hs.alive load hu.mem _ (named_operand (hops vt hvt))
  have hnew : ¬ Named new killed.value := by
    intro hw
    rcases named_iff.mp hw with ⟨vt, hvt, heq⟩ | ⟨vt, hvt, heq⟩
    · rw [List.mem_singleton.mp hvt] at heq
      exact hu.ret_ne hs hne hcast rfl hret heq
    · exact hu.operand_ne hs hne (hops vt hvt) heq
  have hclear : Sound (insert load.ref ∅) (instrBindClear (setInstr f load.ref new) load.ref) :=
    ((hs.set load.ref halive).clear load.ref).mono
      (Set.insert_subset (Set.mem_insert _ _) (Set.Subset.refl _))
  have hrebind : Sound ∅ (binds.foldl (bindValue load.ref)
      (instrBindClear (setInstr f load.ref new) load.ref)) := by
    apply hclear.rebind (i := new) (hs.oldInstrs load hu.mem)
    · intro l hl href
      rcases mem_instrs_set hl with ⟨rfl, -⟩ | ⟨-, hother⟩
      · rfl
      · exact absurd href hother
    · exact fun vt hvt => List.mem_append_right _ (List.mem_map_of_mem hvt)
    · exact fun vt hvt => List.mem_append_left _ (List.mem_map_of_mem hvt)
  have hdestroy := hrebind.destroy cast.ref
  rw [Set.empty_sdiff] at hdestroy
  have hinstrs : ∀ l ∈ instrs (binds.foldl (bindValue load.ref)
      (instrBindClear (setInstr f load.ref new) load.ref)),
      l = ⟨load.ref, new⟩ ∨ (l ∈ instrs f ∧ l.ref ≠ load.ref) := by
    intro l hl
    unfold instrs at hl
    rw [(foldl_bindValue_eq _ _ _).1] at hl
    rcases mem_instrs_set (f := f) (r := load.ref) (i := new) hl with ⟨hl, -⟩ | hl
    · exact Or.inl hl
    · exact Or.inr hl
  constructor
  · apply hdestroy.kill
    intro l hl hnamed
    obtain ⟨hl, hcastref⟩ := mem_instrs_destroy.mp hl
    rcases hinstrs l hl with rfl | ⟨hl, hloadref⟩
    · exact hnew hnamed
    · rcases hu.named hs hl hnamed with heq | heq
      · exact hcastref heq
      · exact hloadref heq
  · apply Produced.destroy
    intro k hk hrel l hl href
    rcases mem_links_foldl.mp hk with hk | ⟨b, hb, rfl, -⟩
    · obtain ⟨hk, hkref⟩ := List.mem_filter.mp hk
      rcases hinstrs l hl with rfl | ⟨hl, -⟩
      · exact absurd href.symm (of_decide_eq_true hkref)
      · exact h.produced k hk hrel l hl href
    · rcases hinstrs l hl with rfl | ⟨-, hother⟩
      · rcases List.mem_append.mp hb with hb | hb
        · obtain ⟨vt, -, rfl⟩ := List.mem_map.mp hb
          cases hrel
        · obtain ⟨vt, hvt, rfl⟩ := List.mem_map.mp hb
          exact List.mem_map_of_mem hvt
      · exact absurd href hother
  · have hkill := h.consts.kill hu.temporary
    obtain ⟨-, hiu, -, helems⟩ := foldl_bindValue_eq load.ref
      (instrBindClear (setInstr f load.ref new) load.ref) binds
    exact constElements_of_iu hkill hiu helems rfl rfl

theorem Early.cast (h : Early f) {cast : Linked} (hcast : cast ∈ instrs f) {g : Function}
    (hg : combineBinopCast f cast = .ok g) : Early g := by
  have hs := h.sound
  unfold combineBinopCast at hg
  split at hg
  · rename_i ret op value hrets hcls
    split at hg
    · cases hg
      exact h
    · obtain ⟨v, -, hg⟩ := bind_ok.mp hg
      obtain ⟨code, -, hg⟩ := bind_ok.mp hg
      split at hg
      · cases hg
        exact h
      · obtain ⟨up, hup, hg⟩ := bind_ok.mp hg
        cases up with
        | none =>
          cases hg
          exact h
        | some u =>
          have hu := upstream_ok hup
          dsimp only at hg
          split at hg
          · rename_i killed ptr immediateOffset valueOffset valueOffsetMultiply c ty hurets hucls
            split at hg
            · obtain ⟨kill, -, hg⟩ := bind_ok.mp hg
              cases hg
              have hval : killed.value = value.value := hu.value_eq h.produced hurets
              rw [← hval] at hu
              exact h.loadCast hcast ⟨hrets, hcls⟩ hu ⟨hurets, hucls⟩ _
            · cases hg
              exact h
          · cases hg
            exact h
  · cases hg
    exact h

end

end Vmir.DefUseCombine
