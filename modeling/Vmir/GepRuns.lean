import Vmir.GepAddress
import Vmir.IntegerRegisters

set_option autoImplicit false

/-!
# Running an address computation

The code that is emitted for the chain of a `getelementptr`, on the registers that its values have
in the frame.
-/
namespace Vmir.GepRuns
open ByteStore RegisterProgram Ir VmOps IrTypes TypeLayout ProgramText IntegerRegisters EmitMove
open GepLowering UnitGrowth GepAddress

/-! ## Registers of values -/

def withRegisters (iu : IrUnit) (reg : ℕ → BitVec 32) : IrUnit :=
  { iu with values := iu.values.mapIdx fun v iv =>
      if iv.cls = .temporary then { iv with cls := .regframe (reg v) } else iv }

def registerOf (iu : IrUnit) (reg : ℕ → BitVec 32) (v : ℕ) : BitVec 32 :=
  match iu.values[v]? with
  | some ⟨.regframe r, _⟩ => r
  | _ => reg v

/-- The word of a value: of the register that it has, or its number. -/
def wordsAt (iu : IrUnit) (reg : ℕ → BitVec 32) (f : Bytes) (v : ℕ) : BitVec 32 :=
  match valueGet iu v with
  | .ok iv =>
    match iv.cls with
    | .constant _ | .globalvar _ => (valueGetConst32 iu iv).toOption.getD 0
    | _ => read32 f (frameOffset (registerOf iu reg v))
  | .error _ => read32 f (frameOffset (registerOf iu reg v))

def Apart (a b : BitVec 32) : Prop :=
  frameOffset a + 4 ≤ frameOffset b ∨ frameOffset b + 4 ≤ frameOffset a

def reads (i : Instr) : List ℕ :=
  match i.cls with
  | .move value => [value.value]
  | .lea baseptr _ valueOffset _ => baseptr.value :: (valueOffset.map ValueType.value).toList
  | _ => []

/-- Register allocation keeps the result of each instruction apart from the registers that are still
read behind it: by the rest of the chain, or because their values are live behind it. -/
def Separate (iu : IrUnit) (reg : ℕ → BitVec 32) (live : List ℕ) : List Instr → Prop
  | [] => True
  | i :: is => (∀ r ∈ i.rets, ∀ v ∈ is.flatMap reads ++ live, IsRegister iu v → v ≠ r.value →
      Apart (registerOf iu reg v) (registerOf iu reg r.value)) ∧ Separate iu reg live is

section
variable {iu : IrUnit} {reg : ℕ → BitVec 32}

theorem numbers_wordsAt (iu : IrUnit) (reg : ℕ → BitVec 32) (f : Bytes) :
    Numbers iu (wordsAt iu reg f) := by
  intro v x ⟨iv, hiv, hcls, hx⟩
  unfold wordsAt
  rw [hiv]
  rcases hcls with ⟨u64, hcls⟩ | ⟨a, hcls⟩
  all_goals simp only [hcls, hx, Except.toOption, Option.getD_some]

theorem wordsAt_register {f : Bytes} {v : ℕ} (h : IsRegister iu v) :
    wordsAt iu reg f v = read32 f (frameOffset (registerOf iu reg v)) := by
  obtain ⟨iv, hiv, hcls⟩ := h
  unfold wordsAt
  rw [hiv]
  rcases hcls with hcls | ⟨r, hcls⟩
  all_goals simp only [hcls]

theorem getElem?_withRegisters {v : ℕ} {iv : Value} (h : valueGet iu v = .ok iv) :
    valueGet (withRegisters iu reg) v
      = .ok (if iv.cls = .temporary then { iv with cls := .regframe (reg v) } else iv) := by
  unfold valueGet at h ⊢
  rw [withRegisters, List.getElem?_mapIdx]
  cases ht : iu.values[v]? with
  | none =>
    rw [ht] at h
    exact nomatch h
  | some iv' =>
    rw [ht] at h
    rw [← Except.ok.inj h]
    rfl

theorem registerOf_eq {v : ℕ} {iv : Value} (h : valueGet iu v = .ok iv) :
    registerOf iu reg v = match iv.cls with
      | .regframe r => r
      | _ => reg v := by
  unfold valueGet at h
  unfold registerOf
  cases ht : iu.values[v]? with
  | none =>
    rw [ht] at h
    exact nomatch h
  | some iv' =>
    rw [ht] at h
    obtain ⟨cls, type⟩ := iv'
    rw [← Except.ok.inj h]
    cases cls <;> rfl

theorem valueReg_withRegisters (reg : ℕ → BitVec 32) {v : ℕ} (h : IsRegister iu v) :
    ∃ iv, valueGet (withRegisters iu reg) v = .ok iv ∧ iv.cls = .regframe (registerOf iu reg v) := by
  obtain ⟨iv, hiv, hcls⟩ := h
  rw [registerOf_eq hiv, getElem?_withRegisters hiv]
  rcases hcls with hcls | ⟨r, hcls⟩
  · rw [if_pos hcls]
    refine ⟨_, rfl, ?_⟩
    rw [hcls]
  · rw [if_neg (by rw [hcls]; exact ValueClass.noConfusion)]
    refine ⟨_, rfl, ?_⟩
    rw [hcls]

theorem typeGet_withRegisters (i : ℕ) : typeGet (withRegisters iu reg) i = typeGet iu i := rfl

end

/-! ## Emitted code -/

theorem ffs_lt (m : BitVec 32) : ffs m - 1 < 32 := by
  unfold ffs
  split
  · next i hfind => 
    have hmem := List.mem_of_find?_eq_some hfind
    rw [List.mem_range] at hmem
    omega
  · omega

theorem shiftLeft_eq_mul {x m : BitVec 32} {n : ℕ} (h : (1 : BitVec 32) <<< n = m) : x <<< n = x * m := by
  rw [← h, BitVec.shiftLeft_eq_mul_twoPow]
  rfl

/-- The instruction is emitted as one operation, which writes the word to the register. -/
def EmittedAs (h : Host) (iu : IrUnit) (i : Instr) (f : Bytes) (ret : BitVec 32) (x : BitVec 32) :
    Prop :=
  ∃ op args, (∀ t, emitInstr iu t i = emit t (code op args)) ∧ args.length = skip op
    ∧ ∀ vm, exec (body h op (operands args)) f vm = some (write32 f (frameOffset ret) x, vm)

section
variable (h : Host) {iu : IrUnit} {reg : ℕ → BitVec 32} {f : Bytes}

theorem count_unit {n : ℕ} (hn : n < 32) :
    ((BitVec.ofNat 32 n).setWidth 16).setWidth 32 = BitVec.ofNat 32 n := by
  apply BitVec.eq_of_toNat_eq
  simp only [BitVec.toNat_setWidth, BitVec.toNat_ofNat]
  omega

theorem cArith_count {n : ℕ} {m x : BitVec 32} (hn : n < 32) (hpow : (1 : BitVec 32) <<< n = m) :
    cArith .shl x (BitVec.ofNat 32 n) = some (x * m) := by
  unfold cArith
  simp only [BitVec.toNat_ofNat, Nat.mod_eq_of_lt (show n < 2 ^ 32 by omega)]
  rw [if_neg (by omega), shiftLeft_eq_mul hpow]

theorem emitScaledLea_emits (d b o imm : BitVec 32) {m : BitVec 32} (hm : m ≠ 0) :
    ∃ op args, (∀ t, emitScaledLea t d b o imm m = emit t (code op args)) ∧ args.length = skip op
      ∧ ∀ vm, exec (body h op (operands args)) f vm = some (write32 f (frameOffset d)
        (read32 f (frameOffset b) + imm + read32 f (frameOffset o) * m), vm) := by
  have hlt := ffs_lt m
  generalize hn : ffs m - 1 = n at hlt
  unfold emitScaledLea
  simp only [if_neg hm, hn]
  by_cases hpow : (1 : BitVec 32) <<< n = m
  · have hshl := cArith_count (x := read32 f (frameOffset o)) hlt hpow
    simp only [if_pos hpow]
    by_cases himm : imm = 0
    · have hsum : read32 f (frameOffset b) + imm + read32 f (frameOffset o) * m
          = read32 f (frameOffset b) + read32 f (frameOffset o) * m := by
        rw [himm]
        simp
      simp only [himm, ne_eq, not_true_eq_false, if_false] at hsum ⊢
      rw [hsum]
      by_cases h2 : n = 2
      · simp only [h2, if_true]
        refine ⟨_, _, fun t => emitOp3_eq t _ _ _ _, rfl, fun vm => ?_⟩
        rw [← shiftLeft_eq_mul (h2 ▸ hpow)]
        rfl
      · simp only [if_neg h2]
        refine ⟨_, _, fun t => emitOp4_eq t _ _ _ _ _, rfl, fun vm => ?_⟩
        have hcount : uimm16 (operands [d.setWidth 16, b.setWidth 16, o.setWidth 16,
            (BitVec.ofNat 32 n).setWidth 16]) 3 = BitVec.ofNat 32 n := count_unit hlt
        refine (exec_set32 _ f vm 0 _).trans ?_
        rw [hcount]
        change ((cArith .shl (read32 f (frameOffset o)) _).map _).map _ = _
        rw [hshl]
        rfl
    · simp only [ne_eq, himm, not_false_eq_true, if_true]
      let args := [d.setWidth 16, b.setWidth 16, o.setWidth 16, (BitVec.ofNat 32 n).setWidth 16]
      refine ⟨.leaR32ShlOff, args ++ units32 imm, fun t => ?_, rfl, fun vm => ?_⟩
      · rw [emitOp4_eq]
        exact emit_units t _ _ _
      · have hcount : uimm16 (operands (args ++ units32 imm)) 3 = BitVec.ofNat 32 n := count_unit hlt
        have himm4 : imm32 (operands (args ++ units32 imm)) 4 = imm := imm32_last args imm
        refine (exec_set32 _ f vm 0 _).trans ?_
        rw [hcount, himm4]
        change ((cArith .shl (read32 f (frameOffset o)) _).map _).map _ = _
        rw [hshl, BitVec.add_assoc, BitVec.add_comm imm, ← BitVec.add_assoc]
        rfl
  · simp only [if_neg hpow]
    let args := [d.setWidth 16, b.setWidth 16, o.setWidth 16]
    refine ⟨.leaR32MulOff, args ++ units32 m ++ units32 imm, fun t => ?_, rfl, fun vm => ?_⟩
    · rw [emitOp3_eq]
      change (emit t _ >>= fun t => emit t _ >>= fun t => emit t _) = _
      rw [← emit_units t _ (args ++ units32 m), ← emit_units t _ args, bind_assoc]
    · have hm3 : imm32 (operands (args ++ units32 m ++ units32 imm)) 3 = m := by
        rw [List.append_assoc]
        exact imm32_operands args (units32 imm) m
      have himm5 : imm32 (operands (args ++ units32 m ++ units32 imm)) 5 = imm :=
        imm32_last (args ++ units32 m) imm
      have hbody : exec (body h .leaR32MulOff (operands (args ++ units32 m ++ units32 imm))) f vm
          = some (write32 f (frameOffset d) (read32 f (frameOffset b) + read32 f (frameOffset o)
            * imm32 (operands (args ++ units32 m ++ units32 imm)) 3
            + imm32 (operands (args ++ units32 m ++ units32 imm)) 5), vm) := rfl
      rw [hbody, hm3, himm5, BitVec.add_assoc, BitVec.add_assoc, BitVec.add_comm imm]

theorem emittedAs {ρ : ℕ → BitVec 32} {i : Instr} (hρ : Numbers iu ρ) (hi : Emittable iu i)
    (hreads : ∀ v ∈ reads i, IsRegister iu v →
      read32 f (frameOffset (registerOf iu reg v)) = ρ v) :
    ∃ r ρ', i.rets = [r] ∧ IsResult iu r.value ∧ runInstr ρ i = some ρ'
      ∧ (∀ v, v ≠ r.value → ρ' v = ρ v)
      ∧ EmittedAs h (withRegisters iu reg) i f (registerOf iu reg r.value) (ρ' r.value) := by
  cases hi with
  | @move ret value x p hret hvalue htype hsource =>
    refine ⟨ret, _, rfl, hret, rfl, fun v hv => Function.update_of_ne hv _ _, ?_⟩
    rw [Function.update_self, hρ value.value x hvalue]
    obtain ⟨iv, hiv, hcls, hx⟩ := hvalue
    obtain ⟨retV, hretV, hretreg⟩ := valueReg_withRegisters reg hret.isRegister
    have hval : valueGet (withRegisters iu reg) value.value = .ok iv := by
      rw [getElem?_withRegisters hiv, if_neg]
      rcases hcls with ⟨u64, hcls⟩ | ⟨a, hcls⟩
      all_goals
        rw [hcls]
        exact ValueClass.noConfusion
    have hmove : ∀ t, emitInstr (withRegisters iu reg) t ⟨[ret], .move value⟩
        = emitOp1 t .mov32C (registerOf iu reg ret.value) >>= fun t => emitI32 t x := by
      intro t
      change emitMove _ t [ret] value = _
      unfold emitMove moveTarget valueReg
      simp only [hval, hretV, hretreg, htype, typeGet_withRegisters, ok_bind, pure, Except.pure]
      rcases hcls with ⟨u64, hcls⟩ | ⟨a, hcls⟩
      all_goals
        rw [hcls]
        change (_ >>= fun t => valueGetConst32 iu iv >>= fun v => emitI32 t v) = _
        rw [hx]
        rfl
    refine ⟨.mov32C, [(registerOf iu reg ret.value).setWidth 16] ++ units32 x, fun t => ?_, rfl,
      fun vm => ?_⟩
    · rw [hmove, emitOp1_eq]
      exact emit_units t _ _ _
    · change some (write32 f _ (imm32 (operands ([_] ++ units32 x)) 1), vm) = _
      rw [show imm32 (operands ([_] ++ units32 x)) 1 = x from imm32_last [_] x]
      rfl
  | @lea ret baseptr imm mult offset hret hbase hoffset =>
    refine ⟨ret, _, rfl, hret, rfl, fun v hv => Function.update_of_ne hv _ _, ?_⟩
    rw [Function.update_self]
    obtain ⟨retV, hretV, hretreg⟩ := valueReg_withRegisters reg hret.isRegister
    obtain ⟨baseV, hbaseV, hbasereg⟩ := valueReg_withRegisters reg hbase
    have hbaseword := hreads baseptr.value List.mem_cons_self hbase
    cases offset with
    | none =>
      refine ⟨.r32C .add, [(registerOf iu reg ret.value).setWidth 16,
        (registerOf iu reg baseptr.value).setWidth 16] ++ units32 (BitVec.ofInt 32 imm),
        fun t => ?_, rfl, fun vm => ?_⟩
      · change emitLea _ t ret baseptr imm none mult = _
        unfold emitLea valueReg
        simp only [hretV, hbaseV, hretreg, hbasereg, ok_bind]
        rw [emitOp2_eq]
        exact emit_units t _ _ _
      · refine (exec_arith32C _ f vm _ _ _).trans ?_
        rw [show imm32 (operands ([_, _] ++ units32 (BitVec.ofInt 32 imm))) 2 = _
          from imm32_last [_, _] _]
        unfold leaWord
        rw [Option.elim_none, ← hbaseword]
        simp only [cArith, id, Option.map_some]
        rw [BitVec.ofNat_eq_ofNat, BitVec.add_zero]
        rfl
    | some o =>
      obtain ⟨⟨hreg, ty, hty, hcode⟩, hmult⟩ := hoffset o rfl
      obtain ⟨oV, hoV, horeg⟩ := valueReg_withRegisters reg hreg
      have hword := hreads o.value (List.mem_cons_of_mem _ List.mem_cons_self) hreg
      obtain ⟨op, args, hemit, hlen, hexec⟩ := emitScaledLea_emits h (f := f)
        (registerOf iu reg ret.value) (registerOf iu reg baseptr.value)
        (registerOf iu reg o.value) (BitVec.ofInt 32 imm) hmult
      refine ⟨op, args, fun t => ?_, hlen, fun vm => ?_⟩
      · rw [← hemit]
        change emitLea _ t ret baseptr imm (some o) mult = _
        unfold emitLea valueReg
        simp only [hretV, hbaseV, hretreg, hbasereg, hoV, horeg, typeGet_withRegisters, hty, hcode,
          ok_bind, ne_eq, not_true_eq_false, if_false]
      · rw [hexec, hbaseword, hword]
        rfl

theorem read32_apart {f : Bytes} {a b x : BitVec 32} (hapart : Apart a b) :
    read32 (write32 f (frameOffset b) x) (frameOffset a) = read32 f (frameOffset a) := by
  unfold write32
  exact read32_writeLe_disjoint (by push_cast; exact hapart)

/-- The chain is emitted as one piece of code, which takes every register that is live behind it to
the word of its value. -/
theorem emitChain_runs {ρ ρ' : ℕ → BitVec 32} {is : List Instr} {live : List ℕ}
    (hρ : Numbers iu ρ) (hi : ∀ i ∈ is, Emittable iu i) (hrun : runChain ρ is = some ρ')
    (hsep : Separate iu reg live is)
    (hwords : ∀ v ∈ is.flatMap reads ++ live, IsRegister iu v →
      read32 f (frameOffset (registerOf iu reg v)) = ρ v) :
    ∃ cells, (∀ t, is ≠ [] → emitChain (withRegisters iu reg) t is = emit t cells) ∧ ∃ f',
      (∀ t vm, Runs h t (t ++ cells) (f, vm) (f', vm)) ∧ (is = [] → cells = [])
      ∧ ∀ v ∈ live, IsRegister iu v → read32 f' (frameOffset (registerOf iu reg v)) = ρ' v := by
  induction is generalizing ρ f with
  | nil =>
    cases hrun
    refine ⟨[], fun t hne => absurd rfl hne, f, fun t vm => ?_, fun _ => rfl, fun v hv => ?_⟩
    · rw [List.append_nil]
      exact Runs.refl h t (f, vm)
    · exact hwords v (List.mem_append_right _ hv)
  | cons i is ih =>
    have hfirst : ∀ v ∈ reads i, IsRegister iu v →
        read32 f (frameOffset (registerOf iu reg v)) = ρ v := by
      intro v hv
      refine hwords v (List.mem_append_left _ ?_)
      rw [List.flatMap_cons]
      exact List.mem_append_left _ hv
    obtain ⟨r, ρ₁, hrets, hres, hstep, hsame, op, args, hemit, hlen, hexec⟩ :=
      emittedAs h hρ (hi i List.mem_cons_self) hfirst
    have hrest : runChain ρ₁ is = some ρ' := by
      unfold runChain at hrun ⊢
      rw [List.foldlM_cons, hstep] at hrun
      exact hrun
    -- The result is no number, and the registers that are read later are apart from it.
    have hρ₁ : Numbers iu ρ₁ := by
      intro v x hv
      rw [hsame v ?_]
      · exact hρ v x hv
      · rintro rfl
        obtain ⟨iv, hiv, hcls, -⟩ := hv
        obtain ⟨iv', hiv', hcls'⟩ := hres
        obtain rfl : iv' = iv := Except.ok.inj (hiv'.symm.trans hiv)
        rcases hcls with ⟨u64, hcls⟩ | ⟨a, hcls⟩
        all_goals
          rw [hcls] at hcls'
          exact nomatch hcls'
    have hwords₁ : ∀ v ∈ is.flatMap reads ++ live, IsRegister iu v →
        read32 (write32 f (frameOffset (registerOf iu reg r.value)) (ρ₁ r.value))
          (frameOffset (registerOf iu reg v)) = ρ₁ v := by
      intro v hv hreg
      by_cases hne : v = r.value
      · rw [hne, read32_write32_same]
      · have hapart := hsep.1 r (by rw [hrets]; exact List.mem_singleton_self r) v hv hreg hne
        rw [read32_apart hapart, hsame v hne]
        refine hwords v ?_ hreg
        rw [List.flatMap_cons, List.append_assoc]
        exact List.mem_append_right _ hv
    obtain ⟨cells, hcells, f', hruns, hnil, hlive⟩ := ih hρ₁
      (fun j hj => hi j (List.mem_cons_of_mem _ hj)) hrest hsep.2 hwords₁
    refine ⟨code op args ++ cells, fun t _ => ?_, f', fun t vm => ?_, nofun, hlive⟩
    · change (emitInstr _ t i >>= fun t => emitChain _ t is) = _
      rw [hemit]
      by_cases hempty : is = []
      · rw [hnil hempty, List.append_nil, hempty]
        exact bind_pure _
      · simp only [fun t => hcells t hempty]
        exact emit_append t _ _
    · have hone := runs_code h t hlen (s := (f, vm)) (hexec vm)
      rw [← List.append_assoc]
      exact hone.trans (hruns (t ++ code op args) vm)

end

/-! ## From the frame at the start -/

section
variable {iu iu' : IrUnit} (hgrow : Extends iu iu') (reg : ℕ → BitVec 32)
include hgrow

theorem registerOf_extends {v : ℕ} {iv : Value} (hiv : valueGet iu v = .ok iv) :
    registerOf iu' reg v = registerOf iu reg v := by
  rw [registerOf_eq hiv, registerOf_eq (hgrow.valueGet hiv)]

theorem wordsAt_register_extends {f : Bytes} {v : ℕ} (hv : IsRegister iu v) :
    wordsAt iu' reg f v = wordsAt iu reg f v := by
  obtain ⟨iv, hiv, -⟩ := id hv
  rw [wordsAt_register (hv.mono hgrow), wordsAt_register hv, registerOf_extends hgrow reg hiv]

theorem wordsAt_number_extends {f : Bytes} {v : ℕ} {x : BitVec 32} (hv : IsNumber iu v x) :
    wordsAt iu' reg f v = wordsAt iu reg f v := by
  rw [numbers_wordsAt iu' reg f v x (hv.mono hgrow), numbers_wordsAt iu reg f v x hv]

theorem wordsAt_base_extends {f : Bytes} {vt : ValueType} (hb : IsBase iu vt) :
    wordsAt iu' reg f vt.value = wordsAt iu reg f vt.value := by
  rcases hb.operand with hreg | ⟨x, hx⟩
  · exact wordsAt_register_extends hgrow reg hreg
  · exact wordsAt_number_extends hgrow reg hx

theorem wordsAt_index_extends {f : Bytes} {depth : ℕ} {i : GepIndex} (hi : IsIndex iu depth i) :
    wordsAt iu' reg f i.value.value = wordsAt iu reg f i.value.value := by
  rcases hi with ⟨iv, u64, x, hiv, hcls, hx⟩ | ⟨hreg, -⟩
  · exact wordsAt_number_extends hgrow reg ⟨iv, hiv, Or.inl ⟨u64, hcls⟩, hx⟩
  · exact wordsAt_register_extends hgrow reg hreg.1

end

theorem parseGepIndicies_values {iu : IrUnit} {type last : ℕ} {values : List ValueType}
    {indicies : List GepIndex} (h : parseGepIndicies iu type values = .ok (indicies, last)) :
    indicies.map GepIndex.value = values := by
  induction values generalizing type indicies with
  | nil =>
    cases h
    rfl
  | cons v values ih =>
    unfold parseGepIndicies at h
    obtain ⟨inner, -, h⟩ := bind_ok.mp h
    obtain ⟨⟨is, last'⟩, hrest, hpair⟩ := bind_ok.mp h
    obtain ⟨rfl, rfl⟩ : ⟨v, type⟩ :: is = indicies ∧ last' = last := by
      have := Except.ok.inj hpair
      exact ⟨congrArg Prod.fst this, congrArg Prod.snd this⟩
    rw [List.map_cons, ih hrest]

/-- The code of a `getelementptr` leaves the base plus all displacements in the register of the
result, and what else is live as it was. -/
theorem gep_exact (h : Host) {iu : IrUnit} {depth last : ℕ} {ret baseptr : ValueType}
    {values : List ValueType} {indicies : List GepIndex} {total : BitVec 32} (reg : ℕ → BitVec 32)
    (f : Bytes) (hbase : IsBase iu baseptr) (hret : IsResult iu ret.value)
    (hparse : parseGepIndicies iu baseptr.type values = .ok (indicies, last))
    (hindex : ∀ i ∈ indicies, IsIndex iu depth i) (hpointer : OnlyFirstPointer iu indicies)
    (hsum : gepSum iu depth baseptr.type (values.map fun v => wordsAt iu reg f v.value)
      = .ok total) :
    ∃ s, replaceGepWithLea iu depth ret baseptr indicies = .ok s ∧
      ∀ live, Separate s.iu reg (ret.value :: live) s.before → ∃ cells f',
        (∀ t, emitChain (withRegisters s.iu reg) t s.before = emit t cells)
        ∧ (∀ t vm, Runs h t (t ++ cells) (f, vm) (f', vm))
        ∧ read32 f' (frameOffset (registerOf iu reg ret.value))
          = wordsAt iu reg f baseptr.value + total
        ∧ ∀ v ∈ live, v ≠ ret.value → IsRegister iu v →
          read32 f' (frameOffset (registerOf iu reg v))
            = read32 f (frameOffset (registerOf iu reg v)) := by
  obtain ⟨s, -, hok, hgrow, -⟩ := replaceGepWithLea_spec (numbers_wordsAt iu reg f) hbase hret hparse
    hindex hpointer hsum
  refine ⟨s, hok, fun live hsep => ?_⟩
  -- The words that the registers of the new temporaries happen to hold at the start.
  let ρ := wordsAt s.iu reg f
  have hρ : Numbers iu ρ := fun v x hv => numbers_wordsAt s.iu reg f v x (hv.mono hgrow)
  have hvalues : values.map (fun v => ρ v.value)
      = values.map fun v => wordsAt iu reg f v.value := by
    rw [← parseGepIndicies_values hparse, List.map_map, List.map_map]
    apply List.map_congr_left
    intro i hi
    exact wordsAt_index_extends hgrow reg (hindex i hi)
  obtain ⟨s', ρ', hok', -, hc, hword, hsame, before, i, hlast, -⟩ := replaceGepWithLea_spec hρ hbase
    hret hparse hindex hpointer (hvalues.symm ▸ hsum)
  obtain rfl : s' = s := Except.ok.inj (hok'.symm.trans hok)
  obtain ⟨cells, hcells, f', hruns, -, hlive⟩ := emitChain_runs h (f := f)
    (numbers_wordsAt s'.iu reg f) hc.emittable hc.run hsep
    fun v _ hreg => (wordsAt_register hreg).symm
  have hne : s'.before ≠ [] := by
    rw [hlast]
    exact List.append_ne_nil_of_right_ne_nil _ (List.cons_ne_nil i [])
  refine ⟨cells, f', fun t => hcells t hne, hruns, ?_, fun v hv hvne hreg => ?_⟩
  · obtain ⟨iv, hiv, -⟩ := id hret
    have hresult := hlive ret.value List.mem_cons_self (hret.isRegister.mono hgrow)
    rw [← registerOf_extends hgrow reg hiv, hresult, hword]
    exact congrArg (· + total) (wordsAt_base_extends hgrow reg hbase)
  · obtain ⟨iv, hiv, -⟩ := id hreg
    have hkept := hlive v (List.mem_cons_of_mem _ hv) (hreg.mono hgrow)
    rw [← registerOf_extends hgrow reg hiv, hkept, hsame v hreg.lt hvne]
    exact wordsAt_register (hreg.mono hgrow)

/-- A pointer to a struct of a number and four numbers, an index register, and two constants. -/
def fieldUnit : IrUnit where
  types := [.int32, .array 4 0, .struct ⟨[⟨0, 0⟩, ⟨1, 4⟩], 20, 4, false, none⟩, .pointer (some 2)]
  values := [⟨.temporary, 3⟩, ⟨.temporary, 0⟩, ⟨.constant 0, 0⟩, ⟨.constant 1, 0⟩, ⟨.temporary, 3⟩]
  textAlloc := fun _ => 0

/-- The address of an element of the array in the struct; base and index are live behind it. -/
theorem gep_exact_field : ∃ s cells f', replaceGepWithLea fieldUnit 2 ⟨4, 3⟩ ⟨0, 3⟩
      [⟨⟨2, 0⟩, 3⟩, ⟨⟨3, 0⟩, 2⟩, ⟨⟨1, 0⟩, 1⟩] = .ok s
    ∧ (∀ t, emitChain (withRegisters s.iu fun v => BitVec.ofNat 32 (4 * v)) t s.before
      = emit t cells)
    ∧ (∀ t vm, Runs zeroHost t (t ++ cells) (fun _ => 1, vm) (f', vm))
    ∧ read32 f' (frameOffset (registerOf fieldUnit (fun v => BitVec.ofNat 32 (4 * v)) 4))
      = wordsAt fieldUnit (fun v => BitVec.ofNat 32 (4 * v)) (fun _ => 1) 0 + 0x04040408
    ∧ ∀ v ∈ [0, 1], v ≠ 4 → IsRegister fieldUnit v →
      read32 f' (frameOffset (registerOf fieldUnit (fun v => BitVec.ofNat 32 (4 * v)) v))
        = read32 (fun _ => 1)
          (frameOffset (registerOf fieldUnit (fun v => BitVec.ofNat 32 (4 * v)) v)) := by
  have hindex : ∀ i ∈ [⟨⟨2, 0⟩, 3⟩, ⟨⟨3, 0⟩, 2⟩, (⟨⟨1, 0⟩, 1⟩ : GepIndex)],
      IsIndex fieldUnit 2 i := by
    intro i hi
    simp only [List.mem_cons, List.not_mem_nil, or_false] at hi
    rcases hi with rfl | rfl | rfl
    · exact Or.inl ⟨_, 0, 0, rfl, rfl, rfl⟩
    · exact Or.inl ⟨_, 1, 1, rfl, rfl, rfl⟩
    · refine Or.inr ⟨⟨⟨_, rfl, Or.inl rfl⟩, .int32, rfl, rfl⟩, fun it e hit he => ?_⟩
      obtain rfl : IrType.array 4 0 = it := Except.ok.inj hit
      obtain rfl : 0 = e := Option.some.inj he
      decide
  have hpointer : OnlyFirstPointer fieldUnit
      [⟨⟨2, 0⟩, 3⟩, ⟨⟨3, 0⟩, 2⟩, (⟨⟨1, 0⟩, 1⟩ : GepIndex)] := by
    intro i hi p hp
    simp only [List.tail_cons, List.mem_cons, List.not_mem_nil, or_false] at hi
    rcases hi with rfl | rfl
    all_goals exact nomatch hp
  have hparse : parseGepIndicies fieldUnit 3 [⟨2, 0⟩, ⟨3, 0⟩, ⟨1, 0⟩]
      = .ok ([⟨⟨2, 0⟩, 3⟩, ⟨⟨3, 0⟩, 2⟩, ⟨⟨1, 0⟩, 1⟩], 0) := rfl
  have hchain : ∃ s, replaceGepWithLea fieldUnit 2 ⟨4, 3⟩ ⟨0, 3⟩
      [⟨⟨2, 0⟩, 3⟩, ⟨⟨3, 0⟩, 2⟩, ⟨⟨1, 0⟩, 1⟩] = .ok s ∧ s.iu.values = fieldUnit.values
        ∧ s.before = [⟨[⟨4, 3⟩], .lea ⟨0, 3⟩ 4 (some ⟨1, 0⟩) 4⟩] := ⟨_, rfl, rfl, rfl⟩
  obtain ⟨s, hs, hvalues, hbefore⟩ := hchain
  have hbase : IsBase fieldUnit ⟨0, 3⟩ := ⟨Or.inl ⟨_, rfl, Or.inl rfl⟩, _, some 2, rfl, rfl⟩
  have hret : IsResult fieldUnit (⟨4, 3⟩ : ValueType).value := ⟨_, rfl, rfl⟩
  have hsum : gepSum fieldUnit 2 3 ([(⟨2, 0⟩ : ValueType), ⟨3, 0⟩, ⟨1, 0⟩].map fun v =>
      wordsAt fieldUnit (fun v => BitVec.ofNat 32 (4 * v)) (fun _ => 1) v.value)
      = .ok 0x04040408 := rfl
  obtain ⟨s', hs', hexact⟩ := gep_exact zeroHost _ _ hbase hret hparse hindex hpointer hsum
  obtain rfl : s = s' := Except.ok.inj (hs.symm.trans hs')
  have hsep : Separate s.iu (fun v => BitVec.ofNat 32 (4 * v)) (4 :: [0, 1]) s.before := by
    rw [hbefore]
    refine ⟨fun r hr v hv _ hne => ?_, trivial⟩
    obtain rfl : r = ⟨4, 3⟩ := List.mem_singleton.mp hr
    unfold registerOf
    rw [hvalues]
    change v ∈ [4, 0, 1] at hv
    simp only [List.mem_cons, List.not_mem_nil, or_false] at hv
    rcases hv with rfl | rfl | rfl
    · exact absurd rfl hne
    · exact Or.inl (by decide)
    · exact Or.inl (by decide)
  obtain ⟨cells, f', hemit, hruns, hword, hlive⟩ := hexact [0, 1] hsep
  exact ⟨s, cells, f', hs, hemit, hruns, hword, hlive⟩

end Vmir.GepRuns
