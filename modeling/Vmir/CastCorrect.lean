import Vmir.CastExact

set_option autoImplicit false

/-!
# Integer casts are compiled to LLVM's meaning where they are exact

A cast that the loader accepts has LLVM's result for every source exactly when it is exact; the
conversion of a pointer to more than 32 bits is no code at all.
-/
namespace Vmir.CastCorrect
open ByteStore Ir VmOps IrTypes ProgramText IntegerRegisters EmitCast
open RegisterContents CastRuns CastExact

/-- The code of the cast has LLVM's result in the low bits of the destination, for all sources that
the program can have, unless the loader rejects it. -/
def Compiles (h : Host) (castop : CastOp) (src dst : CastType) : Prop :=
  ∀ (iu : IrUnit) (t : Text) (ret value : ValueType) (d a : BitVec 32) (s : Bytes × Vm),
    CastPlaced iu src dst ret value d a → (∀ w, src = .int w → Produced h w s.1 a) →
    (∃ msg, emitTransformedCast iu t ret castop value = .error (.parserError msg)) ∨
      ∃ t' s', emitTransformedCast iu t ret castop value = .ok t' ∧ Runs h t t' s s'
        ∧ lowBits dst.bits s'.1 d = llvmCast castop dst.bits (lowBits src.bits s.1 a)

def castUnit (src dst : CastType) (d a : BitVec 32) : IrUnit where
  types := [dst.type, src.type]
  values := [⟨.regframe d, 0⟩, ⟨.regframe a, 1⟩]
  textAlloc := fun _ => 0

theorem castUnit_placed (src dst : CastType) (d a : BitVec 32) :
    CastPlaced (castUnit src dst d a) src dst ⟨0, 0⟩ ⟨1, 1⟩ d a :=
  ⟨⟨_, rfl, rfl⟩, ⟨_, rfl, rfl⟩, rfl, rfl⟩

section
variable {h : Host} {castop : CastOp} {src dst : CastType}

theorem chosen_of_accepted (hr : rejected castop src dst ≠ true) :
    ∃ choice, chosen castop src dst = .ok choice := by
  unfold chosen
  split
  · exact ⟨_, rfl⟩
  · next hmove =>
    cases hop : castOp (legalizeType dst.type) castop (legalizeType src.type) with
    | ok choice => exact ⟨_, rfl⟩
    | error f =>
      refine absurd ?_ hr
      rw [rejected, castOpFails, hop, Bool.eq_false_iff.mpr hmove]
      rfl

theorem chosen_of_rejected (hr : rejected castop src dst = true) :
    ∃ msg, chosen castop src dst = .error (.parserError msg) := by
  rw [rejected, Bool.and_eq_true, Bool.not_eq_true', castOpFails] at hr
  obtain ⟨hmove, hfails⟩ := hr
  cases hop : castOp (legalizeType dst.type) castop (legalizeType src.type) with
  | ok choice =>
    rw [hop] at hfails
    cases hfails
  | error f =>
    obtain ⟨msg, rfl⟩ := castOp_error hop
    refine ⟨msg, ?_⟩
    rw [chosen, hmove, if_neg Bool.false_ne_true, hop]
    rfl

theorem chosen_cases {choice : Option (BitVec 64 → BitVec 64)}
    (hch : chosen castop src dst = .ok choice) :
    (choice = none ∧ castop = .ptrtoint ∧ legalizeType dst.type = .int64)
    ∨ (choice = some id ∧ binopTransformCast castop src.type dst.type = true)
    ∨ ∃ o, castOp (legalizeType dst.type) castop (legalizeType src.type) = .ok (some o)
      ∧ choice = some (castValue (legalizeType dst.type) castop (legalizeType src.type)) := by
  unfold chosen at hch
  split at hch
  · next hmove => exact Or.inr (Or.inl ⟨(Except.ok.inj hch).symm, hmove⟩)
  · cases hop : castOp (legalizeType dst.type) castop (legalizeType src.type) with
    | error f =>
      rw [hop] at hch
      cases hch
    | ok o =>
      rw [hop] at hch
      obtain rfl := Except.ok.inj hch
      cases o with
      | none => exact Or.inl ⟨rfl, castOp_none hop⟩
      | some o => exact Or.inr (Or.inr ⟨o, rfl, rfl⟩)

theorem compiles_of_rejected (hv : valid castop src dst = true)
    (hr : rejected castop src dst = true) : Compiles h castop src dst := by
  intro iu t ret value d a s hp _
  obtain ⟨msg, hch⟩ := chosen_of_rejected hr
  have hy := emitCast_yields h hp hv t s
  rw [hch] at hy
  exact Or.inl ⟨msg, hy⟩

theorem compiles_of_exact (hv : valid castop src dst = true)
    (hex : exact castop src dst = true) : Compiles h castop src dst := by
  by_cases hr : rejected castop src dst = true
  · exact compiles_of_rejected hv hr
  intro iu t ret value d a s hp _
  obtain ⟨choice, hch⟩ := chosen_of_accepted hr
  have hy := emitCast_yields h hp hv t s
  rw [hch] at hy
  cases choice with
  | none =>
    obtain ⟨-, rfl, hcode⟩ | ⟨hid, -⟩ | ⟨o, -, ho⟩ := chosen_cases hch
    · have hle : dst.bits ≤ 32 := of_decide_eq_true hex
      obtain ⟨-, hw⟩ | ⟨hne, -⟩ := dst.code_bits
      · omega
      · exact absurd hcode hne
    · cases hid
    · cases ho
  | some v =>
    obtain ⟨hfull, -⟩ | ⟨t', hemit, hrun⟩ := hy
    · exact Or.inl ⟨_, hfull⟩
    · refine Or.inr ⟨t', _, hemit, hrun, ?_⟩
      rw [lowBits_writeSlot, chosen_exact hv hex hch]
      rfl

theorem not_compiles_value {v : BitVec 64 → BitVec 64} (x : BitVec 64)
    (hv : valid castop src dst = true) (hch : chosen castop src dst = .ok (some v))
    (hne : (v x).setWidth dst.bits ≠ llvmCast castop dst.bits (x.setWidth src.bits)) :
    ¬ Compiles h castop src dst := by
  intro hc
  have hp := castUnit_placed src dst 16 0
  obtain ⟨hx, -⟩ := content_operandFrame x 0
  have hy := emitCast_yields h hp hv [] (operandFrame x 0, zeroVm)
  rw [hch] at hy
  obtain ⟨t', hemit, hres⟩ := Yields.empty hy
  obtain ⟨msg, hfail⟩ | ⟨t'', s', ht, hrun, hlow⟩ := hc _ [] _ _ 16 0 (operandFrame x 0, zeroVm) hp
    (fun w _ => produced_all h w zeroVm _ 0)
  · rw [hemit] at hfail
    cases hfail
  · obtain rfl := Except.ok.inj (hemit.symm.trans ht)
    obtain rfl := Runs.unique hrun hres
    rw [lowBits_writeSlot, lowBits, hx] at hlow
    exact hne hlow

theorem not_compiles_none (hv : valid castop src dst = true)
    (hch : chosen castop src dst = .ok none) : ¬ Compiles h castop src dst := by
  intro hc
  have hp := castUnit_placed src dst 16 0
  have hy := emitCast_yields h hp hv [] (operandFrame 1 0, zeroVm)
  rw [hch] at hy
  obtain ⟨msg, hfail⟩ | ⟨t', s', ht, hrun, hlow⟩ := hc _ [] _ _ 16 0 (operandFrame 1 0, zeroVm) hp
    (fun w _ => produced_all h w zeroVm _ 0)
  · rw [hy] at hfail
    cases hfail
  · obtain rfl := Except.ok.inj (hy.symm.trans ht)
    obtain rfl := Runs.unique hrun (Runs.refl h [] _)
    obtain ⟨-, rfl, -⟩ | ⟨hid, -⟩ | ⟨o, -, ho⟩ := chosen_cases hch
    · cases src with
      | int w => cases hv
      | pointer pointee =>
        rw [lowBits, lowBits, content_behind, (content_operandFrame 1 0).1] at hlow
        have hpos := dst.bits_pos
        have hnat := congrArg BitVec.toNat hlow
        change (BitVec.setWidth dst.bits (0 : BitVec 64)).toNat
          = (BitVec.setWidth dst.bits (BitVec.setWidth 32 (1 : BitVec 64))).toNat at hnat
        rw [BitVec.toNat_setWidth, BitVec.toNat_setWidth] at hnat
        change 0 % 2 ^ dst.bits = 1 % 2 ^ dst.bits at hnat
        rw [Nat.zero_mod, Nat.mod_eq_of_lt (Nat.one_lt_two_pow hpos.ne')] at hnat
        omega
    · cases hid
    · cases ho

theorem exact_of_compiles (hv : valid castop src dst = true) (hc : Compiles h castop src dst)
    (hr : rejected castop src dst ≠ true) : exact castop src dst = true := by
  by_contra hex
  obtain ⟨choice, hch⟩ := chosen_of_accepted hr
  obtain ⟨rfl, -⟩ | ⟨rfl, hmove⟩ | ⟨o, hop, rfl⟩ := chosen_cases hch
  · exact not_compiles_none hv hch hc
  · exact hex (move_isExact hv hmove)
  · exact not_compiles_value _ hv hch (castValue_stray hv hex hop) hc

end

/-- The conversion of a pointer to `i64`. -/
theorem not_compiles_ptrtoint :
    ¬ Compiles zeroHost .ptrtoint (.pointer none) (.int i64) :=
  not_compiles_none rfl rfl

theorem compilesCast_iff (h : Host) {castop : CastOp} {src dst : CastType}
    (hv : valid castop src dst = true) :
    Compiles h castop src dst ↔ rejected castop src dst = true ∨ exact castop src dst = true := by
  constructor
  · intro hc
    by_cases hr : rejected castop src dst = true
    · exact Or.inl hr
    · exact Or.inr (exact_of_compiles hv hc hr)
  · rintro (hr | hex)
    · exact compiles_of_rejected hv hr
    · exact compiles_of_exact hv hex

theorem compilesCast_iff_zext8 :
    valid .zext (.int i8) (.int i32) = true
      ∧ (Compiles zeroHost .zext (.int i8) (.int i32)
        ↔ rejected .zext (.int i8) (.int i32) = true ∨ exact .zext (.int i8) (.int i32) = true) :=
  ⟨by decide, compilesCast_iff zeroHost (by decide)⟩

end Vmir.CastCorrect
