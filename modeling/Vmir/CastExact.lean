import Vmir.CastRuns

set_option autoImplicit false

/-!
# Which casts are exact

An extension reads the whole carrier of its source, and a truncation to `i1` tests the whole
carrier. So these casts go wrong for some source, and the other ones do not.
-/
namespace Vmir.CastExact
open ByteStore Ir VmOps IrTypes ProgramText IntegerRegisters EmitMove EmitCast
open MoveRuns RegisterContents CastRuns

/-- The types between which integers and pointers are cast. -/
inductive CastType
  | int (w : IntWidth)
  | pointer (pointee : Option ℕ)

def CastType.type (ct : CastType) : IrType :=
  match ct with
  | .int w => w.type
  | .pointer pointee => .pointer pointee

def CastType.bits (ct : CastType) : ℕ :=
  match ct with
  | .int w => w.bits
  | .pointer _ => 32

theorem CastType.bits_pos (ct : CastType) : 0 < ct.bits := by
  cases ct with
  | int w => exact w.pos
  | pointer pointee => exact Nat.succ_pos 31

def valid (castop : CastOp) (src dst : CastType) : Bool :=
  match castop, src, dst with
  | .trunc, .int w, .int w' => w'.bits < w.bits
  | .zext, .int w, .int w' | .sext, .int w, .int w' => w.bits < w'.bits
  | .bitcast, .int w, .int w' => w.bits = w'.bits
  | .bitcast, .pointer _, .pointer _ => true
  | .ptrtoint, .pointer _, .int _ => true
  | .inttoptr, .int _, .pointer _ => true
  | _, _, _ => false

/-- LLVM's result of a cast to `n` bits. -/
def llvmCast (castop : CastOp) {m : ℕ} (n : ℕ) (x : BitVec m) : BitVec n :=
  match castop with
  | .sext => x.signExtend n
  | _ => x.setWidth n

/-- What is emitted: nothing, or code that writes a function of the source. -/
def chosen (castop : CastOp) (src dst : CastType) :
    Except Fault (Option (BitVec 64 → BitVec 64)) :=
  if binopTransformCast castop src.type dst.type then .ok (some id)
  else
    (castOp (legalizeType dst.type) castop (legalizeType src.type)).map (·.map fun _ =>
      castValue (legalizeType dst.type) castop (legalizeType src.type))

structure CastPlaced (iu : IrUnit) (src dst : CastType) (ret value : ValueType)
    (d a : BitVec 32) : Prop where
  retReg : ∃ iv, valueGet iu ret.value = .ok iv ∧ valueReg iv = .ok d
  srcReg : ∃ iv, valueGet iu value.value = .ok iv ∧ iv.cls = .regframe a
  retType : typeGet iu ret.type = .ok dst.type
  srcType : typeGet iu value.type = .ok src.type

theorem CastType.code_cases (ct : CastType) :
    (legalizeType ct.type = .int64 ∧ 32 < ct.bits)
    ∨ (ct.bits ≤ 32 ∧ (legalizeType ct.type = .int1 ∨ legalizeType ct.type = .int8
      ∨ legalizeType ct.type = .int16 ∨ legalizeType ct.type = .int32
      ∨ legalizeType ct.type = .pointer)) := by
  cases ct with
  | pointer pointee => exact Or.inr ⟨le_rfl, by simp [CastType.type, legalizeType, IrType.code]⟩
  | int w =>
    change (legalizeType w.type = _ ∧ 32 < w.bits) ∨ (w.bits ≤ 32 ∧ _)
    change _ ∨ (_ ∧ (legalizeType w.type = _ ∨ legalizeType w.type = _ ∨ legalizeType w.type = _
      ∨ legalizeType w.type = _ ∨ legalizeType w.type = _))
    obtain ⟨hw, hcode⟩ | ⟨-, hw, hcode⟩ | ⟨-, hw, hcode⟩ | ⟨-, hw, hcode⟩ | ⟨hw, hcode⟩ :=
      legalizeType_cases w
    · exact Or.inr ⟨by omega, Or.inl hcode⟩
    · exact Or.inr ⟨by omega, Or.inr (Or.inl hcode)⟩
    · exact Or.inr ⟨by omega, Or.inr (Or.inr (Or.inl hcode))⟩
    · exact Or.inr ⟨by omega, Or.inr (Or.inr (Or.inr (Or.inl hcode)))⟩
    · exact Or.inl ⟨hcode, hw⟩

theorem CastType.code_bits (ct : CastType) :
    legalizeType ct.type = .int64 ∧ 32 < ct.bits
      ∨ legalizeType ct.type ≠ .int64 ∧ ct.bits ≤ 32 := by
  obtain h | ⟨hw, hcode⟩ := ct.code_cases
  · exact Or.inl h
  · refine Or.inr ⟨fun h64 => ?_, hw⟩
    rw [h64] at hcode
    simp at hcode

theorem castOp_same {castop : CastOp} (src dst : CastType)
    (hop : castop = .bitcast ∨ castop = .inttoptr ∨ castop = .ptrtoint) (o : Op) :
    castOp (legalizeType dst.type) castop (legalizeType src.type) ≠ .ok (some o) := by
  have hsrc : legalizeType src.type ≠ .float ∧ legalizeType src.type ≠ .double := by
    obtain ⟨hcode, -⟩ | ⟨-, hcode | hcode | hcode | hcode | hcode⟩ := src.code_cases
    all_goals
      rw [hcode]
      exact ⟨nofun, nofun⟩
  have hdst : legalizeType dst.type ≠ .float ∧ legalizeType dst.type ≠ .double := by
    obtain ⟨hcode, -⟩ | ⟨-, hcode | hcode | hcode | hcode | hcode⟩ := dst.code_cases
    all_goals
      rw [hcode]
      exact ⟨nofun, nofun⟩
  intro h
  unfold castOp at h
  split at h
  all_goals first
    | contradiction
    | exact hsrc.1 ‹_›
    | exact hsrc.2 ‹_›
    | exact hdst.1 ‹_›
    | exact hdst.2 ‹_›
    | simp at h

theorem castOp_integer {castop : CastOp} {src dst : CastType} {o : Op} (h : Host)
    (hv : valid castop src dst = true)
    (hop : castOp (legalizeType dst.type) castop (legalizeType src.type) = .ok (some o)) :
    Computes h o (castValue (legalizeType dst.type) castop (legalizeType src.type))
      (legalizeType dst.type) := by
  cases castop with
  | trunc => exact castOp_trunc hop
  | zext => exact castOp_zext hop
  | sext => exact castOp_sext hop
  | bitcast => exact absurd hop (castOp_same src dst (Or.inl rfl) o)
  | inttoptr => exact absurd hop (castOp_same src dst (Or.inr (Or.inl rfl)) o)
  | ptrtoint => exact absurd hop (castOp_same src dst (Or.inr (Or.inr rfl)) o)
  | _ => cases hv

theorem castOp_none {dstcode srccode : TypeCode} {castop : CastOp}
    (h : castOp dstcode castop srccode = .ok none) : castop = .ptrtoint ∧ dstcode = .int64 := by
  unfold castOp at h
  split at h
  all_goals cases h
  exact ⟨rfl, rfl⟩

theorem castOp_error {dstcode srccode : TypeCode} {castop : CastOp} {f : Fault}
    (h : castOp dstcode castop srccode = .error f) : ∃ msg, f = .parserError msg := by
  unfold castOp at h
  split at h
  all_goals cases h
  exact ⟨_, rfl⟩

theorem emitCast_yields (h : Host) {iu : IrUnit} {castop : CastOp} {src dst : CastType}
    {ret value : ValueType} {d a : BitVec 32} (hp : CastPlaced iu src dst ret value d a)
    (hv : valid castop src dst = true) (t : Text) (s : Bytes × Vm) :
    match chosen castop src dst with
    | .error f => emitTransformedCast iu t ret castop value = .error f
    | .ok none => emitTransformedCast iu t ret castop value = .ok t
    | .ok (some v) => Yields h t (emitTransformedCast iu t ret castop value) s
        (some (writeSlot dst.bits s.1 d (v (content s.1 a)))) := by
  obtain ⟨retV, hret, hreg⟩ := hp.retReg
  obtain ⟨srcV, hsrc, hcls⟩ := hp.srcReg
  unfold emitTransformedCast chosen
  simp only [hp.srcType, hp.retType, ok_bind]
  by_cases hmove : binopTransformCast castop src.type dst.type = true
  · rw [if_pos hmove, if_pos hmove]
    obtain ⟨hcode, hw⟩ | ⟨hw, hcode⟩ := dst.code_cases
    · exact emitMove_reg64 h t s hw hret hreg hp.retType hsrc hcls hcode
    · exact emitMove_reg32 h t s hw hret hreg hp.retType hsrc hcls hcode
  · rw [if_neg hmove, if_neg hmove]
    unfold emitCast
    simp only [hsrc, hret, hp.srcType, hp.retType, ok_bind]
    cases hop : castOp (legalizeType dst.type) castop (legalizeType src.type) with
    | error f => rfl
    | ok choice =>
      cases choice with
      | none => rfl
      | some o =>
        have hsreg : valueReg srcV = .ok a := by rw [valueReg, hcls]
        simp only [ok_bind, hreg, hsreg]
        exact (castOp_integer h hv hop).yields dst.code_bits t d a s

/-! ## Which casts are exact -/

/-- The casts that have LLVM's result whatever is above the source. -/
def exact (castop : CastOp) (src dst : CastType) : Bool :=
  match castop with
  | .trunc => dst.bits != 1
  | .zext | .sext => src.bits == 8 || src.bits == 16 || src.bits == 32
  | .ptrtoint => dst.bits ≤ 32
  | _ => true

def castOpFails (dstcode : TypeCode) (castop : CastOp) (srccode : TypeCode) : Bool :=
  match castOp dstcode castop srccode with
  | .error _ => true
  | .ok _ => false

def rejected (castop : CastOp) (src dst : CastType) : Bool :=
  !binopTransformCast castop src.type dst.type &&
    castOpFails (legalizeType dst.type) castop (legalizeType src.type)

theorem carrier_exact {bits : ℕ} (hbits : bits = 8 ∨ bits = 16 ∨ bits = 32) :
    carrier bits ≠ .int1 ∧ readBits (carrier bits) = bits := by
  rcases hbits with rfl | rfl | rfl
  all_goals exact ⟨nofun, rfl⟩

theorem carrier_eq_int1 {bits : ℕ} : carrier bits = .int1 ↔ bits = 1 := by
  unfold carrier
  split_ifs <;> simp_all

theorem carrier_eq_int16 {bits : ℕ} (h : carrier bits = .int16) : bits ≤ 16 := by
  unfold carrier at h
  split_ifs at h
  omega

theorem castValue_trunc {w w' : ℕ} (hlt : w' < w) (hle : w ≤ 64) (h1 : w' ≠ 1) (x : BitVec 64) :
    (castValue (carrier w') .trunc (carrier w) x).setWidth w' = (x.setWidth w).setWidth w' := by
  rw [BitVec.setWidth_setWidth_of_le x (show w' ≤ w by omega), castValue,
    if_neg (fun h => h1 (carrier_eq_int1.mp h.1))]
  split
  · next h16 =>
    have hw : w' ≤ 16 := by
      rcases h16 with h16 | ⟨h16, -⟩
      · have := carrier_eq_int16 h16
        omega
      · exact carrier_eq_int16 h16
    rw [BitVec.setWidth_setWidth_of_le _ (by omega), BitVec.setWidth_setWidth_of_le x hw]
  · rfl

theorem castValue_zext {w w' : ℕ} (hw : w = 8 ∨ w = 16 ∨ w = 32) (hle : w' ≤ 64)
    (dstcode : TypeCode) (x : BitVec 64) :
    (castValue dstcode .zext (carrier w) x).setWidth w' = (x.setWidth w).setWidth w' := by
  rw [castValue, (carrier_exact hw).2, BitVec.setWidth_setWidth_of_le _ hle]

theorem castValue_sext {w w' : ℕ} (hw : w = 8 ∨ w = 16 ∨ w = 32) (hle : w' ≤ 64)
    (dstcode : TypeCode) (x : BitVec 64) :
    (castValue dstcode .sext (carrier w) x).setWidth w' = (x.setWidth w).signExtend w' := by
  rw [castValue, if_neg (carrier_exact hw).1, (carrier_exact hw).2,
    NarrowArith.signExtend_setWidth _ hle]

theorem bits_of_int32 {ct : CastType} (h : ct.type.code = .int32) : ct.bits = 32 := by
  cases ct with
  | pointer pointee => cases h
  | int w =>
    change w.type.code = _ at h
    unfold IntWidth.type at h
    split_ifs at h with h1 h8 h16 h32
    all_goals first
      | exact h32
      | cases h

theorem move_bits {castop : CastOp} {src dst : CastType} (hv : valid castop src dst = true)
    (hmove : binopTransformCast castop src.type dst.type = true) :
    castop ≠ .sext ∧ dst.bits ≤ src.bits := by
  cases castop with
  | trunc =>
    cases src with
    | pointer pointee => cases hv
    | int w =>
      cases dst with
      | pointer pointee => cases hv
      | int w' => exact ⟨nofun, le_of_lt (of_decide_eq_true hv)⟩
  | bitcast =>
    obtain ⟨hs, hd⟩ := of_decide_eq_true hmove
    cases src with
    | int w =>
      change w.type.code = _ at hs
      unfold IntWidth.type at hs
      split_ifs at hs
      all_goals cases hs
    | pointer pointee =>
      cases dst with
      | int w => cases hv
      | pointer pointee' => exact ⟨nofun, le_rfl⟩
  | inttoptr =>
    have hs := bits_of_int32 (of_decide_eq_true hmove)
    cases dst with
    | int w => cases src <;> cases hv
    | pointer pointee => exact ⟨nofun, hs.ge⟩
  | ptrtoint =>
    have hd := bits_of_int32 (of_decide_eq_true hmove)
    cases src with
    | int w => cases hv
    | pointer pointee => exact ⟨nofun, hd.le⟩
  | _ => cases hmove

theorem move_isExact {castop : CastOp} {src dst : CastType} (hv : valid castop src dst = true)
    (hmove : binopTransformCast castop src.type dst.type = true) :
    exact castop src dst = true := by
  have hbits := move_bits hv hmove
  cases castop with
  | trunc =>
    cases src with
    | pointer pointee => cases hv
    | int w =>
      cases dst with
      | pointer pointee => cases hv
      | int w' =>
        -- Only `i1` has the carrier of `i1`.
        have hcode : legalizeType w'.type = legalizeType w.type := of_decide_eq_true hmove
        have hlt : w'.bits < w.bits := of_decide_eq_true hv
        rw [legalizeType_eq, legalizeType_eq] at hcode
        refine bne_iff_ne.mpr fun h1 => ?_
        change w'.bits = 1 at h1
        have := carrier_eq_int1.mp (hcode.symm.trans (carrier_eq_int1.mpr h1))
        omega
  | ptrtoint => exact decide_eq_true (bits_of_int32 (of_decide_eq_true hmove)).le
  | zext | sext => cases hmove
  | _ => rfl

theorem llvmCast_of_le {castop : CastOp} {m n : ℕ} (hop : castop ≠ .sext) (hn : n ≤ m)
    (x : BitVec 64) : llvmCast castop n (x.setWidth m) = x.setWidth n := by
  cases castop with
  | sext => exact absurd rfl hop
  | _ => exact BitVec.setWidth_setWidth_of_le x hn

theorem castOp_ints {castop : CastOp} {src dst : CastType} {o : Op}
    (hv : valid castop src dst = true)
    (hop : castOp (legalizeType dst.type) castop (legalizeType src.type) = .ok (some o)) :
    ∃ w w', src = .int w ∧ dst = .int w' ∧ (castop = .trunc ∧ w'.bits < w.bits
      ∨ (castop = .zext ∨ castop = .sext) ∧ w.bits < w'.bits) := by
  have hsame := fun h => castOp_same src dst h o hop
  cases castop with
  | bitcast => exact absurd (Or.inl rfl) hsame
  | inttoptr => exact absurd (Or.inr (Or.inl rfl)) hsame
  | ptrtoint => exact absurd (Or.inr (Or.inr rfl)) hsame
  | trunc | zext | sext =>
    cases src with
    | pointer pointee => cases hv
    | int w =>
      cases dst with
      | pointer pointee => cases hv
      | int w' =>
        have hlt := of_decide_eq_true hv
        exact ⟨w, w', rfl, rfl, by simpa using hlt⟩
  | _ => cases hv

theorem exact_extend {w : ℕ} (h : (w == 8 || w == 16 || w == 32) = true) :
    w = 8 ∨ w = 16 ∨ w = 32 := by
  simpa [or_assoc] using h

theorem chosen_exact {castop : CastOp} {src dst : CastType} {v : BitVec 64 → BitVec 64}
    (hv : valid castop src dst = true) (hex : exact castop src dst = true)
    (hch : chosen castop src dst = .ok (some v)) (x : BitVec 64) :
    (v x).setWidth dst.bits = llvmCast castop dst.bits (x.setWidth src.bits) := by
  unfold chosen at hch
  split at hch
  · next hmove =>
    obtain ⟨hop, hle⟩ := move_bits hv hmove
    obtain rfl : id = v := by simpa using hch
    rw [llvmCast_of_le hop hle, id]
  · cases hop : castOp (legalizeType dst.type) castop (legalizeType src.type) with
    | error f =>
      rw [hop] at hch
      cases hch
    | ok choice =>
      rw [hop] at hch
      cases choice with
      | none => cases hch
      | some o =>
        obtain rfl : castValue (legalizeType dst.type) castop (legalizeType src.type) = v := by
          simpa [Except.map] using hch
        obtain ⟨w, w', rfl, rfl, ⟨rfl, hlt⟩ | ⟨rfl | rfl, hlt⟩⟩ := castOp_ints hv hop
        · change (castValue (legalizeType w'.type) .trunc (legalizeType w.type) x).setWidth w'.bits
            = (x.setWidth w.bits).setWidth w'.bits
          rw [legalizeType_eq, legalizeType_eq]
          exact castValue_trunc hlt w.le (bne_iff_ne.mp hex) x
        · change (castValue _ .zext (legalizeType w.type) x).setWidth w'.bits
            = (x.setWidth w.bits).setWidth w'.bits
          rw [legalizeType_eq w]
          exact castValue_zext (exact_extend hex) w'.le _ x
        · change (castValue _ .sext (legalizeType w.type) x).setWidth w'.bits
            = (x.setWidth w.bits).signExtend w'.bits
          rw [legalizeType_eq w]
          exact castValue_sext (exact_extend hex) w'.le _ x

/-- A source for which a cast that is not exact goes wrong: the bit above its low bits is set. -/
def stray (castop : CastOp) (w : ℕ) : BitVec 64 :=
  if castop = .trunc then 2 else BitVec.ofNat 64 (2 ^ w)

theorem stray_trunc : ∀ w < 65, w ≤ 1 ∨ castOpFails .int1 .trunc (carrier w) = true
    ∨ (castValue .int1 .trunc (carrier w) (stray .trunc w)).setWidth 1
      ≠ ((stray .trunc w).setWidth w).setWidth 1 := by
  decide +kernel

theorem stray_zext : ∀ w < 65, ∀ w' < 65, w' ≤ w ∨ w = 0 ∨ w = 8 ∨ w = 16 ∨ w = 32
    ∨ castOpFails (carrier w') .zext (carrier w) = true
    ∨ (castValue (carrier w') .zext (carrier w) (stray .zext w)).setWidth w'
      ≠ ((stray .zext w).setWidth w).setWidth w' := by
  decide +kernel

theorem stray_sext : ∀ w < 65, ∀ w' < 65, w' ≤ w ∨ w = 0 ∨ w = 8 ∨ w = 16 ∨ w = 32
    ∨ castOpFails (carrier w') .sext (carrier w) = true
    ∨ (castValue (carrier w') .sext (carrier w) (stray .sext w)).setWidth w'
      ≠ ((stray .sext w).setWidth w).signExtend w' := by
  decide +kernel

theorem castValue_stray {castop : CastOp} {src dst : CastType} {o : Op}
    (hv : valid castop src dst = true) (hex : exact castop src dst ≠ true)
    (hop : castOp (legalizeType dst.type) castop (legalizeType src.type) = .ok (some o)) :
    (castValue (legalizeType dst.type) castop (legalizeType src.type)
        (stray castop src.bits)).setWidth dst.bits
      ≠ llvmCast castop dst.bits ((stray castop src.bits).setWidth src.bits) := by
  obtain ⟨w, w', rfl, rfl, hcases⟩ := castOp_ints hv hop
  have hfails : castOpFails (carrier w'.bits) castop (carrier w.bits) ≠ true := by
    rw [← legalizeType_eq, ← legalizeType_eq, castOpFails]
    change castOp (legalizeType w'.type) _ (legalizeType w.type) = _ at hop
    rw [hop]
    exact Bool.false_ne_true
  have hlt := Nat.lt_succ_of_le w.le
  have hlt' := Nat.lt_succ_of_le w'.le
  have hpos := w.pos
  change (castValue (legalizeType w'.type) castop (legalizeType w.type)
    (stray castop w.bits)).setWidth w'.bits ≠ llvmCast castop w'.bits
      ((stray castop w.bits).setWidth w.bits)
  rw [legalizeType_eq, legalizeType_eq]
  obtain ⟨rfl, hnarrow⟩ | ⟨rfl | rfl, hwiden⟩ := hcases
  · have h1 : w'.bits = 1 := by_contra fun h1 => hex (bne_iff_ne.mpr h1)
    have hpos' := w'.pos
    generalize w'.bits = b' at h1 hfails hnarrow
    subst h1
    obtain h | h | h := stray_trunc w.bits hlt
    · omega
    · exact absurd h hfails
    · exact h
  · have hw : ¬ (w.bits = 8 ∨ w.bits = 16 ∨ w.bits = 32) := fun h => hex (by simpa [exact, or_assoc])
    obtain h | h | h | h | h | h | h := stray_zext w.bits hlt w'.bits hlt'
    any_goals omega
    · exact absurd h hfails
    · exact h
  · have hw : ¬ (w.bits = 8 ∨ w.bits = 16 ∨ w.bits = 32) := fun h => hex (by simpa [exact, or_assoc])
    obtain h | h | h | h | h | h | h := stray_sext w.bits hlt w'.bits hlt'
    any_goals omega
    · exact absurd h hfails
    · exact h

end Vmir.CastExact
