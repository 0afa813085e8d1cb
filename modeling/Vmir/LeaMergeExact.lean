import Vmir.LeaMerge

set_option autoImplicit false

/-!
# Merged accesses keep their address

The code for a LEA and the access behind it, and the code for the access that the two are merged
into, run from the same registers. The merged access takes the offset and the multiplier from
operands of 16 bits.
-/
namespace Vmir.LeaMergeExact
open ByteStore RegisterProgram CodePieces Ir VmOps IrTypes ProgramText IntegerRegisters
open EmitLoad EmitStore GepLowering GepAddress GepRuns LeaMerge

/-- The computation of the address of an access. -/
structure Site where
  ptr : ValueType
  baseptr : ValueType
  imm : ℤ
  index : Option ValueType
  mult : ℤ

def Site.lea (s : Site) : Instr := ⟨[s.ptr], .lea s.baseptr s.imm s.index s.mult⟩

/-! ## Emission of the two -/

theorem emitScaledLea_grows {t t' : Text} {d b o imm m : BitVec 32}
    (h : emitScaledLea t d b o imm m = .ok t') : t.length + 4 ≤ t'.length := by
  have hgrow {cs : List Cell} {t' : Text} (hcs : emit t cs = .ok t') (hlen : 4 ≤ cs.length) :
      t.length + 4 ≤ t'.length := by
    rw [emit_ok hcs, List.length_append]
    omega
  have hgrow' {cs ds : List Cell} {t' : Text} (hcs : (emit t cs >>= fun t => emit t ds) = .ok t')
      (hlen : 4 ≤ cs.length) : t.length + 4 ≤ t'.length := by
    rw [emit_append] at hcs
    exact hgrow hcs (by rw [List.length_append]; omega)
  unfold emitScaledLea at h
  simp only at h
  split at h
  · cases h
  · split at h
    · split at h
      · rw [emitOp4_eq] at h
        exact hgrow' h (show 4 ≤ 5 by omega)
      · split at h
        · rw [emitOp3_eq] at h
          exact hgrow h (le_refl 4)
        · rw [emitOp4_eq] at h
          exact hgrow h (show 4 ≤ 5 by omega)
    · rw [emitOp3_eq, ← bind_assoc] at h
      obtain ⟨t₁, h₁, h⟩ := bind_ok.mp h
      have hle := hgrow' h₁ (le_refl 4)
      rw [emit_ok h, List.length_append]
      omega

theorem emitLea_grows {iu : IrUnit} {t t' : Text} {ret baseptr : ValueType} {imm mult : ℤ}
    {index : Option ValueType} (h : emitLea iu t ret baseptr imm index mult = .ok t') :
    t.length + 4 ≤ t'.length := by
  unfold emitLea at h
  obtain ⟨retV, -, h⟩ := bind_ok.mp h
  obtain ⟨baseptrV, -, h⟩ := bind_ok.mp h
  cases index with
  | none =>
    obtain ⟨d, -, h⟩ := bind_ok.mp h
    obtain ⟨b, -, h⟩ := bind_ok.mp h
    rw [emitOp2_eq] at h
    change (emit t _ >>= fun t => emit t ((units32 _).map .half)) = _ at h
    rw [emit_units] at h
    rw [emit_ok h, List.length_append]
    exact Nat.add_le_add_left (show 4 ≤ 5 by omega) _
  | some o =>
    obtain ⟨off, -, h⟩ := bind_ok.mp h
    obtain ⟨ty, -, h⟩ := bind_ok.mp h
    split at h
    · cases h
    · obtain ⟨d, -, h⟩ := bind_ok.mp h
      obtain ⟨b, -, h⟩ := bind_ok.mp h
      obtain ⟨o, -, h⟩ := bind_ok.mp h
      exact emitScaledLea_grows h

section
variable {k : AccessForm} {n low : ℕ} {h : Host} {t t' : Text} {p : BitVec 32} {imm : ℤ}
  {idx : Index} {fault : Fault}

theorem padding_length_le (t : Text) (immAtOdd : Bool) : (padding t immAtOdd).length ≤ 1 := by
  unfold padding
  split
  · exact le_refl 1
  · exact Nat.zero_le 1

theorem runs_pad (k : AccessForm) (h : Host) (t : Text) (s : Bytes × Vm) :
    Runs h t (t ++ k.pad t) s s := by
  unfold AccessForm.pad
  split
  · exact runs_padding h t true s
  · rw [List.append_nil]
    exact Runs.refl h t s

theorem form_accesses (hk : k.Sound n low) {pre : List Cell} {s : Bytes × Vm} {f : Bytes}
    (hrun : Runs h t (t ++ pre) s (f, s.2))
    (hemit : k.emit fault (t ++ pre) p imm idx = .ok t') :
    Accesses h t t' s (addressOf p imm idx f, n) := by
  unfold AccessForm.emit at hemit
  split at hemit
  · next op args hcode =>
    obtain ⟨hlen, -, hat⟩ := hk.access _ p imm idx op args hcode
    refine ⟨pre ++ k.pad (t ++ pre), op, args, f, ?_, hlen, ?_, hat f, exec_access h (hat f)⟩
    · rw [emit_ok hemit]
      simp only [List.append_assoc]
    · rw [← List.append_assoc]
      exact hrun.trans (runs_pad k h (t ++ pre) (f, s.2))
  · cases hemit

theorem form_stores {v : Bytes → ℕ} (hk : k.Sound n low) (hw : k.Writes n v) {pre : List Cell}
    {s : Bytes × Vm} {f : Bytes} (hrun : Runs h t (t ++ pre) s (f, s.2))
    (hemit : k.emit fault (t ++ pre) p imm idx = .ok t') :
    Stores h t t' s (addressOf p imm idx f, n) (v f) := by
  unfold AccessForm.emit at hemit
  split at hemit
  · next op args hcode =>
    obtain ⟨hlen, -, -⟩ := hk.access _ p imm idx op args hcode
    refine ⟨f, ?_⟩
    rw [emit_ok hemit, ← List.append_assoc]
    exact (hrun.trans (runs_pad k h (t ++ pre) (f, s.2))).trans
      (runs_code h _ hlen (hw _ p imm idx op args hcode h f s.2))
  · cases hemit

theorem merged_fits (hk : k.Sound n low) {p' : BitVec 32} {t'' : Text}
    (hgrows : t.length + 4 ≤ t'.length) (hpair : k.emit fault t' p' 0 none = .ok t'')
    (hcode : k.code (t.length + (k.pad t).length) p imm idx ≠ none) :
    ∃ t₁, k.emit fault t p imm idx = .ok t₁ := by
  unfold AccessForm.emit at hpair ⊢
  cases hmerged : k.code (t.length + (k.pad t).length) p imm idx with
  | none => exact absurd hmerged hcode
  | some x =>
    obtain ⟨op, args⟩ := x
    obtain ⟨hle, hpadded⟩ := hk.length _ p imm idx op args hmerged
    split at hpair
    · next op' args' hcode' =>
      obtain ⟨-, hlow, -⟩ := hk.access _ p' 0 none op' args' hcode'
      have hcells {op : Op} {args : List (BitVec 16)} :
          (ProgramText.code op args).length = args.length + 1 := by
        rw [ProgramText.code, List.length_cons, List.length_map]
      have hpad : (k.pad t).length + args.length ≤ low + 3 := by
        unfold AccessForm.pad
        split
        · next hp =>
          have hone := padding_length_le t true
          have hlast := hpadded hp
          omega
        · change 0 + args.length ≤ low + 3
          omega
      refine ⟨_, if_neg fun hfull => ?_⟩
      unfold ProgramText.emit at hpair
      split at hpair
      · cases hpair
      · next hroom =>
        rw [List.length_append, hcells] at hfull hroom
        omega
    · cases hpair

end

/-! ## Addresses -/

section
variable {iu : IrUnit} {reg : ℕ → BitVec 32} {s : Site}

/-- The index register of the LEA, as the access names it. -/
def Site.operand (s : Site) (iu : IrUnit) (reg : ℕ → BitVec 32) : Index :=
  s.index.map fun o => (registerOf iu reg o.value, s.mult)

/-- What the LEA computes from the registers. -/
def Site.word (s : Site) (iu : IrUnit) (reg : ℕ → BitVec 32) (f : Bytes) : BitVec 32 :=
  leaWord (wordsAt iu reg f) s.baseptr (BitVec.ofInt 32 s.imm) s.index (BitVec.ofInt 32 s.mult)

theorem operand_at (hlea : Emittable iu s.lea) :
    IndexAt (withRegisters iu reg) s.index s.mult (s.operand iu reg) := by
  obtain ⟨ptr, baseptr, imm, index, mult⟩ := s
  cases hlea with
  | lea hret hbase hoffset =>
    cases index with
    | none => rfl
    | some o =>
      obtain ⟨ov, hov, hreg⟩ := valueReg_withRegisters reg (hoffset o rfl).1.1
      exact ⟨ov, _, hov, hreg, rfl⟩

theorem word_eq (hlea : Emittable iu s.lea) (f : Bytes) :
    s.word iu reg f = read32 f (frameOffset (registerOf iu reg s.baseptr.value))
      + BitVec.ofInt 32 s.imm
      + (s.operand iu reg).elim 0 fun x => read32 f (frameOffset x.1) * BitVec.ofInt 32 x.2 := by
  obtain ⟨ptr, baseptr, imm, index, mult⟩ := s
  cases hlea with
  | lea hret hbase hoffset =>
    unfold Site.word leaWord
    rw [wordsAt_register hbase]
    cases index with
    | none => rfl
    | some o =>
      change _ + wordsAt iu reg f o.value * _ = _
      rw [wordsAt_register (hoffset o rfl).1.1]
      rfl

theorem lea_runs (h : Host) (hlea : Emittable iu s.lea) {t t' : Text}
    (hemit : emitInstr (withRegisters iu reg) t s.lea = .ok t') (f : Bytes) (vm : Vm) :
    ∃ pre, t' = t ++ pre ∧ Runs h t (t ++ pre) (f, vm)
      (write32 f (frameOffset (registerOf iu reg s.ptr.value)) (s.word iu reg f), vm) := by
  have hreads : ∀ v ∈ reads s.lea, IsRegister iu v →
      read32 f (frameOffset (registerOf iu reg v)) = wordsAt iu reg f v :=
    fun v _ hv => (wordsAt_register hv).symm
  obtain ⟨r, ρ', hrets, -, hrun, -, op, args, hcode, hlen, hexec⟩ :=
    emittedAs h (numbers_wordsAt iu reg f) hlea hreads
  injection hrets with hr
  subst hr
  cases hrun
  rw [Function.update_self] at hexec
  rw [hcode] at hemit
  exact ⟨_, emit_ok hemit, runs_code h t hlen (hexec vm)⟩

theorem fits_iff (x : BitVec 32) :
    FitsImmediate x.toInt ↔ (x.setWidth 16).signExtend 32 = x := by
  have hint := BitVec.toInt_eq_toNat_cond x
  constructor
  · rintro ⟨hlo, hhi⟩
    apply BitVec.eq_of_toInt_eq
    rw [BitVec.toInt_signExtend_of_le (by decide), BitVec.toInt_setWidth, Int.bmod_def]
    have hx := x.isLt
    split at hint <;> split <;> omega
  · intro heq
    have hval : x.toInt = (x.setWidth 16).toInt := by
      conv_lhs => rw [← heq]
      exact BitVec.toInt_signExtend_of_le (by decide)
    rw [hval]
    have hhi := BitVec.toInt_lt (x := x.setWidth 16)
    have hlo := BitVec.le_toInt (x := x.setWidth 16)
    exact ⟨hlo, hhi⟩

theorem ofInt_setWidth (z : ℤ) : (BitVec.ofInt 32 z).setWidth 16 = BitVec.ofInt 16 z := by
  apply BitVec.eq_of_toNat_eq
  simp only [BitVec.toNat_setWidth, BitVec.toNat_ofInt]
  omega

theorem signExtend_imm {z : ℤ} (hz : FitsImmediate z) :
    (BitVec.ofInt 16 z).signExtend 32 = BitVec.ofInt 32 z := by
  rw [← ofInt_setWidth]
  refine (fits_iff _).mp ?_
  rw [BitVec.toInt_ofInt, Int.bmod_def]
  obtain ⟨hlo, hhi⟩ := hz
  split <;> constructor <;> omega

end

/-! ## Merging -/

/-- From every frame the two pieces of code access the same bytes. -/
def SameAccess (h : Host) (t t₁ t₂ : Text) : Prop :=
  ∀ f vm, ∃ x, Accesses h t t₁ (f, vm) x ∧ Accesses h t t₂ (f, vm) x

/-- The value is known, or its register does not overlap `p`. -/
def Beside (iu : IrUnit) (value : ValueType) (p : BitVec 32) : Prop :=
  ∀ val it v, valueGet iu value.value = .ok val → typeGet iu value.type = .ok it →
    val.cls = .regframe v → frameOffset v + storedBytes (legalizeType it) ≤ frameOffset p
      ∨ frameOffset p + 4 ≤ frameOffset v

theorem Beside.storedOf_eq {iu : IrUnit} {value : ValueType} {p : BitVec 32} (h : Beside iu value p)
    (f : Bytes) (w : BitVec 32) :
    storedOf iu value (write32 f (frameOffset p) w) = storedOf iu value f := by
  unfold storedOf
  cases hval : valueGet iu value.value with
  | error fault => rfl
  | ok val =>
    cases hit : typeGet iu value.type with
    | error fault => rfl
    | ok it =>
      cases hcls : val.cls with
      | regframe v =>
        have hread : readLe (write32 f (frameOffset p) w) (frameOffset v)
              (storedBytes (legalizeType it))
            = readLe f (frameOffset v) (storedBytes (legalizeType it)) :=
          readLe_writeLe_disjoint (h val it v hval hit hcls)
        simp only [ok_bind, hcls, hread]
      | _ => simp only [ok_bind, hcls]

/-- From every frame the two pieces of code write the bytes of the value, at the same address. -/
def SameStore (h : Host) (iu : IrUnit) (value : ValueType) (t t₁ t₂ : Text) : Prop :=
  ∀ f vm, ∃ x v, storedOf iu value f = .ok (x.2, v)
    ∧ (Accesses h t t₁ (f, vm) x ∧ Stores h t t₁ (f, vm) x v)
    ∧ Accesses h t t₂ (f, vm) x ∧ Stores h t t₂ (f, vm) x v

def emitPair (iu : IrUnit) (t : Text) (s : Site) (access : Instr) : Except Fault Text := do
  let t ← emitInstr iu t s.lea
  emitAccess iu t access

section
variable {iu : IrUnit} {reg : ℕ → BitVec 32} {s : Site} {k : AccessForm} {n low : ℕ} {h : Host}
  {t t' t₁ t₂ : Text} {fault : Fault}

theorem pair_accesses (hk : k.Sound n low) (hlea : Emittable iu s.lea)
    (hemit : emitInstr (withRegisters iu reg) t s.lea = .ok t')
    (haccess : k.emit fault t' (registerOf iu reg s.ptr.value) 0 none = .ok t₂) (f : Bytes)
    (vm : Vm) : Accesses h t t₂ (f, vm) (hostaddr (s.word iu reg f), n) := by
  obtain ⟨pre, rfl, hrun⟩ := lea_runs h hlea hemit f vm
  have hat := form_accesses (s := (f, vm)) hk hrun haccess
  rwa [addressOf_plain, read32_write32_same] at hat

theorem pair_stores {v : Bytes → ℕ} (hk : k.Sound n low) (hw : k.Writes n v)
    (hlea : Emittable iu s.lea) (hemit : emitInstr (withRegisters iu reg) t s.lea = .ok t')
    (haccess : k.emit fault t' (registerOf iu reg s.ptr.value) 0 none = .ok t₂) (f : Bytes)
    (vm : Vm) : Stores h t t₂ (f, vm) (hostaddr (s.word iu reg f), n)
      (v (write32 f (frameOffset (registerOf iu reg s.ptr.value)) (s.word iu reg f))) := by
  obtain ⟨pre, rfl, hrun⟩ := lea_runs h hlea hemit f vm
  have hat := form_stores (s := (f, vm)) hk hw hrun haccess
  rwa [addressOf_plain, read32_write32_same] at hat

section
variable {p : BitVec 32} {imm : ℤ} {idx : Index}

theorem merged_accesses (hk : k.Sound n low) (hmerged : k.emit fault t p imm idx = .ok t₁)
    (f : Bytes) (vm : Vm) : Accesses h t t₁ (f, vm) (addressOf p imm idx f, n) := by
  rw [← List.append_nil t] at hmerged
  refine form_accesses hk ?_ hmerged
  rw [List.append_nil]
  exact Runs.refl h t (f, vm)

theorem merged_stores {v : Bytes → ℕ} (hk : k.Sound n low) (hw : k.Writes n v)
    (hmerged : k.emit fault t p imm idx = .ok t₁) (f : Bytes) (vm : Vm) :
    Stores h t t₁ (f, vm) (addressOf p imm idx f, n) (v f) := by
  rw [← List.append_nil t] at hmerged
  refine form_stores hk hw ?_ hmerged
  rw [List.append_nil]
  exact Runs.refl h t (f, vm)

end

theorem sameAccess_iff (hk : k.Sound n low) (hlea : Emittable iu s.lea)
    (hemit : emitInstr (withRegisters iu reg) t s.lea = .ok t')
    (haccess : k.emit fault t' (registerOf iu reg s.ptr.value) 0 none = .ok t₂)
    (hmerged : k.emit fault t (registerOf iu reg s.baseptr.value) s.imm (s.operand iu reg)
      = .ok t₁) :
    SameAccess h t t₁ t₂ ↔ ∀ f, addressOf (registerOf iu reg s.baseptr.value) s.imm
      (s.operand iu reg) f = hostaddr (s.word iu reg f) := by
  have hone (f : Bytes) (vm : Vm) := merged_accesses (h := h) hk hmerged f vm
  have htwo (f : Bytes) (vm : Vm) := pair_accesses (h := h) hk hlea hemit haccess f vm
  constructor
  · intro hsame f
    obtain ⟨x, hx₁, hx₂⟩ := hsame f zeroVm
    have heq := (hone f _).unique hx₁
    rw [← (htwo f _).unique hx₂] at heq
    exact congrArg Prod.fst heq
  · intro heq f vm
    refine ⟨_, ?_, htwo f vm⟩
    rw [← heq f]
    exact hone f vm

theorem addresses_eq_iff (hlea : Emittable iu s.lea) (himm : FitsImmediate s.imm) :
    (∀ f, addressOf (registerOf iu reg s.baseptr.value) s.imm (s.operand iu reg) f
      = hostaddr (s.word iu reg f))
      ↔ (s.index.isSome → FitsImmediate (BitVec.ofInt 32 s.mult).toInt) := by
  unfold addressOf Site.operand
  simp only [word_eq hlea, signExtend_imm himm, Site.operand]
  cases hindex : s.index with
  | none =>
    simp only [Option.map_none, Option.elim_none, Option.isSome_none, Bool.false_eq_true,
      false_imp_iff, implies_true]
  | some o =>
    simp only [Option.map_some, Option.elim_some, Option.isSome_some, true_imp_iff, fits_iff,
      ofInt_setWidth]
    constructor
    · intro heq
      -- An index of 1 shows the multiplier.
      have hone := heq (write32 (fun _ => 0) (frameOffset (registerOf iu reg o.value)) 1)
      have hword := BitVec.eq_of_toNat_eq (Int.ofNat.inj hone)
      rw [read32_write32_same, one_mul, one_mul] at hword
      exact (BitVec.add_right_inj _).mp hword
    · intro hmult f
      rw [hmult]

/-- The merged access is the same one exactly where its form has an operation for the offset and the
index, and the multiplier fits the operation. -/
theorem merged_iff (hk : k.Sound n low) (hlea : Emittable iu s.lea) (himm : FitsImmediate s.imm)
    (hemit : emitInstr (withRegisters iu reg) t s.lea = .ok t')
    (hplain : k.emit fault t' (registerOf iu reg s.ptr.value) 0 none = .ok t₂) :
    (∃ t₁, k.emit fault t (registerOf iu reg s.baseptr.value) s.imm (s.operand iu reg) = .ok t₁
        ∧ SameAccess h t t₁ t₂)
      ↔ k.code (t.length + (k.pad t).length) (registerOf iu reg s.baseptr.value) s.imm
          (s.operand iu reg) ≠ none
        ∧ (s.index.isSome → FitsImmediate (BitVec.ofInt 32 s.mult).toInt) := by
  constructor
  · rintro ⟨t₁, hone, hsame⟩
    refine ⟨fun hcode => ?_, (addresses_eq_iff hlea himm).mp
      ((sameAccess_iff hk hlea hemit hplain hone).mp hsame)⟩
    unfold AccessForm.emit at hone
    rw [hcode] at hone
    cases hone
  · rintro ⟨hcode, hmult⟩
    obtain ⟨t₁, hone⟩ := merged_fits (t := t) hk (emitLea_grows hemit) hplain hcode
    exact ⟨t₁, hone, (sameAccess_iff hk hlea hemit hplain hone).mpr
      ((addresses_eq_iff hlea himm).mpr hmult)⟩

/-- A load of one bit has an operation for neither an offset nor an index. -/
theorem loadCode_iff {ret : ValueType} {cast : Option CastOp} {pos : ℕ} {p : BitVec 32}
    (hnone : ∀ pos p imm idx, k.code pos p imm idx = none
      ↔ LoadsBit (withRegisters iu reg) ret cast ∧ (imm ≠ 0 ∨ idx.isSome)) :
    k.code pos p s.imm (s.operand iu reg) ≠ none
      ↔ (LoadsBit iu ret cast → s.imm = 0 ∧ s.index = none) := by
  have hsome : (s.operand iu reg).isSome = s.index.isSome := Option.isSome_map
  rw [ne_eq, hnone, hsome, not_and]
  refine forall_congr' fun _ => ?_
  rw [not_or, not_not, Option.not_isSome_iff_eq_none]

end

theorem site_operands {iu : IrUnit} {s : Site} (hlea : Emittable iu s.lea) :
    IsResult iu s.ptr.value ∧ IsRegister iu s.baseptr.value := by
  obtain ⟨ptr, baseptr, imm, index, mult⟩ := s
  cases hlea with
  | lea hret hbase hoffset => exact ⟨hret, hbase⟩

theorem mergeLeaIntoStore_some {s : Site} {value : ValueType} {merged : Instr}
    (h : mergeLeaIntoStore s.lea ⟨[], .store s.ptr value 0⟩ = .ok (some merged)) :
    s.index = none ∧ FitsImmediate s.imm
      ∧ merged = ⟨[], .store ⟨s.baseptr.value, s.ptr.type⟩ value s.imm⟩ := by
  obtain ⟨ptr, baseptr, imm, index, mult⟩ := s
  simp only [mergeLeaIntoStore, Site.lea] at h
  cases index with
  | some o => cases h
  | none =>
    simp only [ne_eq, not_true_eq_false, if_false] at h
    split at h
    · next himm => exact ⟨rfl, himm, (Option.some.inj (Except.ok.inj h)).symm⟩
    · cases h

theorem mergeLeaIntoLoad_some {s : Site} {ret : ValueType} {m₀ : ℤ} {cast : Option CastOp}
    {loadType : BitVec 8} {merged : Instr}
    (h : mergeLeaIntoLoad s.lea ⟨[ret], .load s.ptr 0 none m₀ cast loadType⟩ = .ok (some merged)) :
    FitsImmediate s.imm ∧ merged = ⟨[ret], .load ⟨s.baseptr.value, s.ptr.type⟩ s.imm s.index s.mult
      cast loadType⟩ := by
  simp only [mergeLeaIntoLoad, Site.lea, ne_eq, not_true_eq_false, if_false, Option.isSome_none,
    Bool.false_eq_true, zero_add] at h
  split at h
  · next himm => exact ⟨himm, (Option.some.inj (Except.ok.inj h)).symm⟩
  · cases h

/-- A store that takes over the offset of a LEA is at the address that the LEA computes, and of the
same bytes if the value is not where the LEA's result is. -/
theorem mergeLeaIntoStore_exact (h : Host) {iu : IrUnit} {s : Site} {value : ValueType}
    {merged : Instr} (hlea : Emittable iu s.lea)
    (hmerge : mergeLeaIntoStore s.lea ⟨[], .store s.ptr value 0⟩ = .ok (some merged))
    (reg : ℕ → BitVec 32) {t t₂ : Text}
    (hpair : emitPair (withRegisters iu reg) t s ⟨[], .store s.ptr value 0⟩ = .ok t₂) :
    ∃ t₁, emitAccess (withRegisters iu reg) t merged = .ok t₁ ∧ SameAccess h t t₁ t₂
      ∧ (Beside (withRegisters iu reg) value (registerOf iu reg s.ptr.value) →
        SameStore h (withRegisters iu reg) value t t₁ t₂) := by
  obtain ⟨hindex, himm, rfl⟩ := mergeLeaIntoStore_some hmerge
  obtain ⟨hret, hbase⟩ := site_operands hlea
  obtain ⟨t', hemit, haccess⟩ := bind_ok.mp hpair
  obtain ⟨pv, hpv, hpreg⟩ := valueReg_withRegisters reg hret.isRegister
  obtain ⟨bv, hbv, hbreg⟩ := valueReg_withRegisters reg hbase
  obtain ⟨k, n, low, v, hk, hw, hstored, hcode, hform⟩ := exists_storeForm hpv hpreg haccess
  have hplain := (hform t' s.ptr pv _ 0 hpv hpreg (by decide)).symm.trans haccess
  obtain ⟨t₁, hone⟩ := merged_fits (t := t) hk (emitLea_grows hemit) hplain (hcode _ _ s.imm)
  have hoperand : s.operand iu reg = none := by
    rw [Site.operand, hindex]
    rfl
  rw [← hoperand] at hone
  have haddr : ∀ f, addressOf (registerOf iu reg s.baseptr.value) s.imm (s.operand iu reg) f
      = hostaddr (s.word iu reg f) := by
    refine (addresses_eq_iff hlea himm).mpr fun hsome => ?_
    rw [hindex] at hsome
    cases hsome
  have hsame := (sameAccess_iff (h := h) hk hlea hemit hplain hone).mpr haddr
  refine ⟨t₁, (hform t _ bv _ s.imm hbv hbreg himm).trans (hoperand ▸ hone), hsame,
    fun hbeside f vm => ?_⟩
  refine ⟨(hostaddr (s.word iu reg f), n), v f, hstored f, ⟨?_, ?_⟩,
    pair_accesses hk hlea hemit hplain f vm, ?_⟩
  · rw [← haddr f]
    exact merged_accesses hk hone f vm
  · rw [← haddr f]
    exact merged_stores hk hw hone f vm
  · -- The LEA wrote its result next to the value.
    have hvalue := hbeside.storedOf_eq f (s.word iu reg f)
    rw [hstored, hstored] at hvalue
    obtain ⟨-, hnumber⟩ := Prod.mk.inj (Except.ok.inj hvalue)
    have hstores := pair_stores (h := h) hk hw hlea hemit hplain f vm
    rwa [hnumber] at hstores

def accessUnit : IrUnit where
  types := [.int32, .pointer (some 0)]
  values := [⟨.temporary, 1⟩, ⟨.temporary, 1⟩, ⟨.temporary, 0⟩, ⟨.temporary, 0⟩]
  textAlloc := fun _ => 0

def slotOf (v : ℕ) : BitVec 32 := BitVec.ofNat 32 (4 * v)

def negativeSite : Site := ⟨⟨0, 1⟩, ⟨1, 1⟩, -8, none, 0⟩

theorem mergeLeaIntoStore_exact_negative :
    ∃ t₁, emitAccess (withRegisters accessUnit slotOf) [] ⟨[], .store ⟨1, 1⟩ ⟨3, 0⟩ (-8)⟩ = .ok t₁
      ∧ SameAccess zeroHost [] t₁ (code (.r32C .add) ([0, 4] ++ units32 (-8))
        ++ code .store32 [0, 12])
      ∧ SameStore zeroHost (withRegisters accessUnit slotOf) ⟨3, 0⟩ [] t₁
        (code (.r32C .add) ([0, 4] ++ units32 (-8)) ++ code .store32 [0, 12]) := by
  have hlea : Emittable accessUnit negativeSite.lea :=
    .lea ⟨_, rfl, rfl⟩ ⟨_, rfl, Or.inl rfl⟩ fun _ h => by cases h
  have hmerge : mergeLeaIntoStore negativeSite.lea ⟨[], .store negativeSite.ptr ⟨3, 0⟩ 0⟩
      = .ok (some ⟨[], .store ⟨1, 1⟩ ⟨3, 0⟩ (-8)⟩) := rfl
  have hpair : emitPair (withRegisters accessUnit slotOf) [] negativeSite
      ⟨[], .store negativeSite.ptr ⟨3, 0⟩ 0⟩
        = .ok (code (.r32C .add) ([0, 4] ++ units32 (-8)) ++ code .store32 [0, 12]) := rfl
  obtain ⟨t₁, hemit, hsame, hstore⟩ := mergeLeaIntoStore_exact zeroHost hlea hmerge slotOf hpair
  refine ⟨t₁, hemit, hsame, hstore fun val it v hval hit hcls => Or.inr ?_⟩
  cases hval
  cases hit
  cases hcls
  decide

/-- The plain load and the merged one have the same form. -/
theorem loadMerged_form {iu : IrUnit} {s : Site} {ret : ValueType} {m₀ : ℤ}
    {cast : Option CastOp} {loadType : BitVec 8} {merged : Instr} (hlea : Emittable iu s.lea)
    (hmerge : mergeLeaIntoLoad s.lea ⟨[ret], .load s.ptr 0 none m₀ cast loadType⟩
      = .ok (some merged))
    (reg : ℕ → BitVec 32) {t t₂ : Text}
    (hpair : emitPair (withRegisters iu reg) t s ⟨[ret], .load s.ptr 0 none m₀ cast loadType⟩
      = .ok t₂) :
    ∃ k n low t', AccessForm.Sound k n low ∧ FitsImmediate s.imm
      ∧ emitInstr (withRegisters iu reg) t s.lea = .ok t'
      ∧ k.emit cantLoad t' (registerOf iu reg s.ptr.value) 0 none = .ok t₂
      ∧ emitAccess (withRegisters iu reg) t merged
        = k.emit cantLoad t (registerOf iu reg s.baseptr.value) s.imm (s.operand iu reg)
      ∧ ∀ pos p imm idx, k.code pos p imm idx = none
        ↔ LoadsBit (withRegisters iu reg) ret cast ∧ (imm ≠ 0 ∨ idx.isSome) := by
  obtain ⟨himm, rfl⟩ := mergeLeaIntoLoad_some hmerge
  obtain ⟨hret, hbase⟩ := site_operands hlea
  obtain ⟨t', hemit, haccess⟩ := bind_ok.mp hpair
  obtain ⟨pv, hpv, hpreg⟩ := valueReg_withRegisters reg hret.isRegister
  obtain ⟨bv, hbv, hbreg⟩ := valueReg_withRegisters reg hbase
  obtain ⟨k, n, low, hk, hnone, hform⟩ := exists_loadForm hpv hpreg haccess
  have hplain := (hform t' s.ptr pv _ 0 none m₀ none hpv hpreg (by decide) rfl).symm.trans haccess
  have hmerged := hform t ⟨s.baseptr.value, s.ptr.type⟩ bv _ s.imm s.index s.mult _ hbv hbreg himm
    (operand_at hlea)
  exact ⟨k, n, low, t', hk, himm, hemit, hplain, hmerged, hnone⟩

/-- A load that takes over a LEA is at the address that the LEA computes if its operations have an
offset and the multiplier fits 16 bits, and only then. -/
theorem mergeLeaIntoLoad_exact_iff (h : Host) {iu : IrUnit} {s : Site} {ret : ValueType} {m₀ : ℤ}
    {cast : Option CastOp} {loadType : BitVec 8} {merged : Instr} (hlea : Emittable iu s.lea)
    (hmerge : mergeLeaIntoLoad s.lea ⟨[ret], .load s.ptr 0 none m₀ cast loadType⟩
      = .ok (some merged))
    (reg : ℕ → BitVec 32) {t t₂ : Text}
    (hpair : emitPair (withRegisters iu reg) t s ⟨[ret], .load s.ptr 0 none m₀ cast loadType⟩
      = .ok t₂) :
    (∃ t₁, emitAccess (withRegisters iu reg) t merged = .ok t₁ ∧ SameAccess h t t₁ t₂)
      ↔ (LoadsBit iu ret cast → s.imm = 0 ∧ s.index = none)
        ∧ (s.index.isSome → FitsImmediate (BitVec.ofInt 32 s.mult).toInt) := by
  obtain ⟨k, n, low, t', hk, himm, hemit, hplain, hmerged, hnone⟩ :=
    loadMerged_form hlea hmerge reg hpair
  rw [hmerged, merged_iff hk hlea himm hemit hplain, loadCode_iff hnone]

/-- An element of an array whose elements have 65536 bytes each. -/
def wideSite : Site := ⟨⟨0, 1⟩, ⟨1, 1⟩, 0, some ⟨2, 0⟩, 65536⟩

theorem emitPair_wide : emitPair (withRegisters accessUnit slotOf) [] wideSite
      ⟨[⟨3, 0⟩], .load wideSite.ptr 0 none 0 none 0⟩
    = .ok (code .leaR32Shl [0, 4, 8, 16] ++ code .load32 [12, 0]) := rfl

theorem mergeLeaIntoLoad_exact_iff_wide : ¬ ∃ t₁, emitAccess (withRegisters accessUnit slotOf) []
      ⟨[⟨3, 0⟩], .load ⟨1, 1⟩ 0 (some ⟨2, 0⟩) 65536 none 0⟩ = .ok t₁
    ∧ SameAccess zeroHost [] t₁ (code .leaR32Shl [0, 4, 8, 16] ++ code .load32 [12, 0]) := by
  have hlea : Emittable accessUnit wideSite.lea := by
    refine .lea ⟨_, rfl, rfl⟩ ⟨_, rfl, Or.inl rfl⟩ fun o ho => ?_
    cases ho
    exact ⟨⟨⟨_, rfl, Or.inl rfl⟩, .int32, rfl, rfl⟩, by decide⟩
  have hmerge : mergeLeaIntoLoad wideSite.lea ⟨[⟨3, 0⟩], .load wideSite.ptr 0 none 0 none 0⟩
      = .ok (some ⟨[⟨3, 0⟩], .load ⟨1, 1⟩ 0 (some ⟨2, 0⟩) 65536 none 0⟩) := rfl
  have hiff := mergeLeaIntoLoad_exact_iff zeroHost hlea hmerge slotOf emitPair_wide
  exact fun hsame => absurd ((hiff.mp hsame).2 rfl) (by decide)

/-! ## Loads and stores -/

/-- A store or a load takes over the LEA that makes its pointer. -/
inductive TakesOver (s : Site) : Instr → Instr → Prop
  | store {value : ValueType} {merged : Instr}
    (h : mergeLeaIntoStore s.lea ⟨[], .store s.ptr value 0⟩ = .ok (some merged)) :
    TakesOver s ⟨[], .store s.ptr value 0⟩ merged
  | load {ret : ValueType} {m₀ : ℤ} {cast : Option CastOp} {loadType : BitVec 8} {merged : Instr}
    (h : mergeLeaIntoLoad s.lea ⟨[ret], .load s.ptr 0 none m₀ cast loadType⟩ = .ok (some merged)) :
    TakesOver s ⟨[ret], .load s.ptr 0 none m₀ cast loadType⟩ merged

/-- The access is a load of one bit, which has one operation only. -/
def IsBitLoad (iu : IrUnit) (access : Instr) : Prop :=
  ∃ ret ptr imm index mult cast loadType,
    access = ⟨[ret], .load ptr imm index mult cast loadType⟩ ∧ LoadsBit iu ret cast

/-- What the LEA adds to its base fits the operations of the access. -/
def FitsAccess (iu : IrUnit) (s : Site) (access : Instr) : Prop :=
  (IsBitLoad iu access → s.imm = 0 ∧ s.index = none)
    ∧ (s.index.isSome → FitsImmediate (BitVec.ofInt 32 s.mult).toInt)

/-- A load or store that takes over a LEA is emitted and at the address that the LEA computes if and
only if its operations have what the LEA adds. -/
theorem takesOver_exact_iff (h : Host) {iu : IrUnit} {s : Site} {access merged : Instr}
    (hlea : Emittable iu s.lea) (hmerge : TakesOver s access merged) (reg : ℕ → BitVec 32)
    {t t₂ : Text} (hpair : emitPair (withRegisters iu reg) t s access = .ok t₂) :
    (∃ t₁, emitAccess (withRegisters iu reg) t merged = .ok t₁ ∧ SameAccess h t t₁ t₂)
      ↔ FitsAccess iu s access := by
  cases hmerge with
  | store hmerge =>
    obtain ⟨hindex, himm, rfl⟩ := mergeLeaIntoStore_some hmerge
    obtain ⟨hret, hbase⟩ := site_operands hlea
    obtain ⟨t', hemit, haccess⟩ := bind_ok.mp hpair
    obtain ⟨pv, hpv, hpreg⟩ := valueReg_withRegisters reg hret.isRegister
    obtain ⟨bv, hbv, hbreg⟩ := valueReg_withRegisters reg hbase
    obtain ⟨k, n, low, v, hk, -, -, hcode, hform⟩ := exists_storeForm hpv hpreg haccess
    have hplain := (hform t' s.ptr pv _ 0 hpv hpreg (by decide)).symm.trans haccess
    have hoperand : s.operand iu reg = none := by
      rw [Site.operand, hindex]
      rfl
    have hmerged := hform t ⟨s.baseptr.value, s.ptr.type⟩ bv _ s.imm hbv hbreg himm
    change emitAccess _ t ⟨[], .store _ _ _⟩ = _ at hmerged
    rw [hmerged, ← hoperand, merged_iff hk hlea himm hemit hplain]
    have hfits : s.index.isSome → FitsImmediate (BitVec.ofInt 32 s.mult).toInt := by
      rw [hindex]
      intro hsome
      cases hsome
    refine iff_of_true ⟨hoperand ▸ hcode _ _ _, hfits⟩ ⟨?_, hfits⟩
    rintro ⟨ret, ptr, imm, index, mult, cast, loadType, heq, -⟩
    cases heq
  | load hmerge =>
    obtain ⟨k, n, low, t', hk, himm, hemit, hplain, hmerged, hnone⟩ :=
      loadMerged_form hlea hmerge reg hpair
    rw [hmerged, merged_iff hk hlea himm hemit hplain, loadCode_iff hnone]
    refine and_congr_left' (imp_congr_left ?_)
    constructor
    · intro hbit
      exact ⟨_, _, _, _, _, _, _, rfl, hbit⟩
    · rintro ⟨ret, ptr, imm, index, mult, cast, loadType, heq, hbit⟩
      cases heq
      exact hbit

/-- The second word of an element of 12 bytes, or the first one of an element of 65540 bytes. -/
def elementSite (imm mult : ℤ) : Site := ⟨⟨0, 1⟩, ⟨1, 1⟩, imm, some ⟨2, 0⟩, mult⟩

def elementLoad : Instr := ⟨[⟨3, 0⟩], .load ⟨0, 1⟩ 0 none 0 none 0⟩

theorem elementSite_emittable (imm : ℤ) {mult : ℤ} (hmult : BitVec.ofInt 32 mult ≠ 0) :
    Emittable accessUnit (elementSite imm mult).lea := by
  refine .lea ⟨_, rfl, rfl⟩ ⟨_, rfl, Or.inl rfl⟩ fun o ho => ?_
  cases ho
  exact ⟨⟨⟨_, rfl, Or.inl rfl⟩, .int32, rfl, rfl⟩, hmult⟩

theorem takesOver_exact_iff_element :
    ∃ t₁, emitAccess (withRegisters accessUnit slotOf) []
        ⟨[⟨3, 0⟩], .load ⟨1, 1⟩ 4 (some ⟨2, 0⟩) 12 none 0⟩ = .ok t₁
      ∧ SameAccess zeroHost [] t₁
        (code .leaR32MulOff ([0, 4, 8] ++ units32 12 ++ units32 4) ++ code .load32 [12, 0]) := by
  have hpair : emitPair (withRegisters accessUnit slotOf) [] (elementSite 4 12) elementLoad
      = .ok (code .leaR32MulOff ([0, 4, 8] ++ units32 12 ++ units32 4) ++ code .load32 [12, 0]) :=
    rfl
  have hmerge : TakesOver (elementSite 4 12) elementLoad
      ⟨[⟨3, 0⟩], .load ⟨1, 1⟩ 4 (some ⟨2, 0⟩) 12 none 0⟩ := .load rfl
  refine (takesOver_exact_iff zeroHost (elementSite_emittable 4 (by decide)) hmerge slotOf hpair).mpr
    ⟨?_, fun _ => by decide⟩
  rintro ⟨ret, ptr, imm, index, mult, cast, loadType, heq, -, it, hit, hcode⟩
  cases heq
  cases hit
  cases hcode

/-- The merged load keeps 4 of 65540. -/
theorem element_not_exact : ¬ ∃ t₁, emitAccess (withRegisters accessUnit slotOf) []
      ⟨[⟨3, 0⟩], .load ⟨1, 1⟩ 0 (some ⟨2, 0⟩) 65540 none 0⟩ = .ok t₁
    ∧ SameAccess zeroHost [] t₁
      (code .leaR32MulOff ([0, 4, 8] ++ units32 65540 ++ units32 0) ++ code .load32 [12, 0]) := by
  have hmerge : mergeLeaIntoLoad (elementSite 0 65540).lea elementLoad
      = .ok (some ⟨[⟨3, 0⟩], .load ⟨1, 1⟩ 0 (some ⟨2, 0⟩) 65540 none 0⟩) := rfl
  have hpair : emitPair (withRegisters accessUnit slotOf) [] (elementSite 0 65540) elementLoad
      = .ok (code .leaR32MulOff ([0, 4, 8] ++ units32 65540 ++ units32 0)
        ++ code .load32 [12, 0]) := rfl
  obtain ⟨k, n, low, t', hk, himm, hemit, hplain, hmerged, -⟩ :=
    loadMerged_form (elementSite_emittable 0 (by decide)) hmerge slotOf hpair
  rw [hmerged]
  change ¬ ∃ t₁, k.emit cantLoad [] _ (elementSite 0 65540).imm _ = .ok t₁ ∧ _
  rw [merged_iff hk (elementSite_emittable 0 (by decide)) himm hemit hplain]
  exact fun hfits => absurd (hfits.2 rfl) (by decide)

end Vmir.LeaMergeExact
