import Vmir.BinopRuns
import Vmir.BinopExact
import Vmir.MoveRuns

set_option autoImplicit false

/-!
# What registers can hold

A register holds what the last operation of its type left there. Counting up from zero already
leaves every content, so nothing is known of the bits above the type.
-/
namespace Vmir.RegisterContents
open ByteStore Ir VmOps IrTypes ProgramText LlvmInteger IntegerRegisters EmitMove EmitBinop
open BinopRuns BinopExact MoveRuns

/-- The right operand: a register or a constant. -/
inductive Rhs (w : IntWidth)
  | reg (r : BitVec 32)
  | const (c : BitVec w.bits)

def Rhs.form {w : IntWidth} (y : Rhs w) : Form :=
  match y with
  | .reg _ => .regs
  | .const _ => .const

/-- The integer that the right operand stands for. -/
def Rhs.value {w : IntWidth} (y : Rhs w) (f : Bytes) : BitVec w.bits :=
  match y with
  | .reg r => lowBits w.bits f r
  | .const c => c

/-- Where the operands and the result of an instruction of type `w` are. -/
structure Placed (iu : IrUnit) (w : IntWidth) (ret lhs rhs : ValueType) (d a : BitVec 32)
    (y : Rhs w) : Prop where
  retReg : ∃ iv, valueGet iu ret.value = .ok iv ∧ valueReg iv = .ok d
  lhsReg : ∃ iv, valueGet iu lhs.value = .ok iv ∧ iv.cls = .regframe a
  lhsType : typeGet iu lhs.type = .ok w.type
  rhsAt : match y with
    | .reg r => ∃ iv, valueGet iu rhs.value = .ok iv ∧ iv.cls = .regframe r
    | .const c => IsConstant iu rhs.value w c

def result (w : IntWidth) (b : Binop) (y : Rhs w) (f : Bytes) (a : BitVec 32) :
    Option (BitVec 64) :=
  match y with
  | .reg r => regsResult w.bits b (content f a) (content f r)
  | .const c => constResult w.bits b (content f a) c

theorem emitBinop_yields (h : Host) {iu : IrUnit} {w : IntWidth} {ret lhs rhs : ValueType}
    {d a : BitVec 32} {y : Rhs w} (hp : Placed iu w ret lhs rhs d a y) (t : Text) (b : Binop)
    (s : Bytes × Vm) :
    Yields h t (emitBinop iu t ret b lhs rhs) s
      ((result w b y s.1 a).map (writeSlot w.bits s.1 d)) := by
  obtain ⟨retV, hret, hreg⟩ := hp.retReg
  obtain ⟨lhsV, hlhs, hlcls⟩ := hp.lhsReg
  unfold emitBinop
  cases y with
  | reg r =>
    obtain ⟨rhsV, hrhs, hrcls⟩ := hp.rhsAt
    simp only [hlhs, hrhs, hret, hp.lhsType, hlcls, hrcls, ok_bind]
    exact emitBinopRegs_yields h t s w b d a r hreg
  | const c =>
    obtain ⟨rhsV, u64, hrhs, hrcls⟩ := IsConstant.cls hp.rhsAt
    simp only [hlhs, hrhs, hret, hp.lhsType, hlcls, hrcls, ok_bind]
    exact emitBinopConst_yields h t s w b d a hp.rhsAt hrhs hreg

/-! ## Contents -/

/-- The register holds what an operation of type `w` left there: a move of a constant or a binary
operation; and nothing has written to it since. -/
inductive Produced (h : Host) (w : IntWidth) : Bytes → BitVec 32 → Prop
  | move {iu : IrUnit} {t t' : Text} {ret value : ValueType} {retV : Value} {d : BitVec 32}
      {c : BitVec w.bits} {s s' : Bytes × Vm} (hret : valueGet iu ret.value = .ok retV)
      (hreg : valueReg retV = .ok d) (htype : typeGet iu ret.type = .ok w.type)
      (hc : IsConstant iu value.value w c) (hemit : emitMove iu t [ret] value = .ok t')
      (hrun : Runs h t t' s s') : Produced h w s'.1 d
  | binop {iu : IrUnit} {t t' : Text} {ret lhs rhs : ValueType} {d a : BitVec 32} {y : Rhs w}
      {b : Binop} {s s' : Bytes × Vm} (hp : Placed iu w ret lhs rhs d a y)
      (ha : Produced h w s.1 a) (hy : ∀ r, y = .reg r → Produced h w s.1 r)
      (hemit : emitBinop iu t ret b lhs rhs = .ok t') (hrun : Runs h t t' s s') :
      Produced h w s'.1 d
  | kept {f f' : Bytes} {r : BitVec 32} (hr : Produced h w f r)
      (hsame : ∀ x, frameOffset r ≤ x → x < frameOffset r + slotSize w.bits → f' x = f x) :
      Produced h w f' r

def operandUnit (w : IntWidth) (d a : BitVec 32) (rhs : ValueClass) : IrUnit where
  types := [w.type]
  values := [⟨.regframe d, 0⟩, ⟨.regframe a, 0⟩, ⟨rhs, 0⟩]
  textAlloc := fun _ => 0

theorem integerConstant_ok (w : IntWidth) (old argv : BitVec 64) :
    ∃ cls, integerConstant w.type old argv = .ok cls := by
  unfold IntWidth.type
  split_ifs
  all_goals exact ⟨_, rfl⟩

theorem exists_placed (w : IntWidth) (d a : BitVec 32) (y : Rhs w) :
    ∃ iu, typeGet iu 0 = .ok w.type ∧ Placed iu w ⟨0, 0⟩ ⟨1, 0⟩ ⟨2, 0⟩ d a y := by
  cases y with
  | reg r =>
    exact ⟨operandUnit w d a (.regframe r), rfl, ⟨_, rfl, rfl⟩, ⟨_, rfl, rfl⟩, rfl, _, rfl, rfl⟩
  | const c =>
    obtain ⟨cls, hcls⟩ := integerConstant_ok w 0 (signRotated (c.signExtend 64))
    exact ⟨operandUnit w d a cls, rfl, ⟨_, rfl, rfl⟩, ⟨_, rfl, rfl⟩, rfl, _, 0, rfl, rfl, hcls⟩

section
variable (h : Host) (w : IntWidth) {f : Bytes}

theorem produced_move (vm : Vm) (f : Bytes) (d : BitVec 32) (c : BitVec w.bits) :
    Produced h w (writeSlot w.bits f d (movedConstant w.bits c)) d := by
  obtain ⟨iu, htype, hp⟩ := exists_placed w d 0 (.const c)
  obtain ⟨retV, hret, hreg⟩ := hp.retReg
  obtain ⟨t', hemit, hrun⟩ := (emitMove_const h [] (f, vm) hret hreg htype hp.rhsAt).empty
  exact .move hret hreg htype hp.rhsAt hemit hrun

theorem produced_add (vm : Vm) {d a r : BitVec 32} (ha : Produced h w f a)
    (hr : Produced h w f r) {v : BitVec 64}
    (hv : regsResult w.bits .add (content f a) (content f r) = some v) :
    Produced h w (writeSlot w.bits f d v) d := by
  obtain ⟨iu, -, hp⟩ := exists_placed w d a (.reg r)
  have hy := emitBinop_yields h hp [] .add (f, vm)
  rw [result, hv] at hy
  obtain ⟨t', hemit, hrun⟩ := hy.empty
  refine .binop hp ha (fun r' hr' => ?_) hemit hrun
  obtain rfl : r = r' := by injection hr'
  exact hr

theorem Produced.congr {f f' : Bytes} {r : BitVec 32} (hr : Produced h w f r)
    (hsame : readLe f' (frameOffset r) (slotSize w.bits)
      = readLe f (frameOffset r) (slotSize w.bits)) : Produced h w f' r :=
  hr.kept (readLe_inj hsame)

end

theorem frameOffset_ofInt {z : ℤ} (hlo : -2 ^ 15 ≤ z) (hhi : z < 2 ^ 15) :
    frameOffset (BitVec.ofInt 32 z) = z := by
  rw [frameOffset, NarrowArith.setWidth_ofInt (by omega), BitVec.toInt_ofInt]
  exact Int.bmod_eq_of_le (by omega) (by omega)

theorem exists_apart (r : BitVec 32) :
    ∃ r', frameOffset r' + 8 ≤ frameOffset r ∨ frameOffset r + 8 ≤ frameOffset r' := by
  have hlo := (r.setWidth 16).le_toInt
  have hhi := (r.setWidth 16).toInt_lt
  change _ ≤ frameOffset r at hlo
  change frameOffset r < _ at hhi
  by_cases hneg : frameOffset r < 0
  · refine ⟨BitVec.ofInt 32 (frameOffset r + 8), Or.inr ?_⟩
    rw [frameOffset_ofInt (by omega) (by omega)]
  · refine ⟨BitVec.ofInt 32 (frameOffset r - 8), Or.inl ?_⟩
    rw [frameOffset_ofInt (by omega) (by omega)]
    omega

theorem add_slots (w : ℕ) (f : Bytes) (a r : BitVec 32) :
    ∃ v, regsResult w .add (content f a) (content f r) = some v
      ∧ v.toNat % 256 ^ slotSize w = (readLe f (frameOffset a) (slotSize w)
        + readLe f (frameOffset r) (slotSize w)) % 256 ^ slotSize w := by
  have ha := readLe_lt f (frameOffset a) (slotSize w)
  have hr := readLe_lt f (frameOffset r) (slotSize w)
  unfold regsResult slotSize at *
  split_ifs at ha hr ⊢
  · have hadd (x y : BitVec 32) : regs32 w .add x y = some (x + y) := by
      rw [regs32, if_neg (fun h => Bool.false_ne_true h.1), if_neg (fun h => Bool.false_ne_true h.1),
        cArith]
    refine ⟨_, congrArg _ (hadd _ _), ?_⟩
    rw [content_setWidth, content_setWidth, BitVec.toNat_setWidth, BitVec.toNat_add, read32, read32,
      BitVec.toNat_ofNat, BitVec.toNat_ofNat]
    omega
  · refine ⟨_, rfl, ?_⟩
    rw [BitVec.toNat_add, content, content, read64, read64, BitVec.toNat_ofNat, BitVec.toNat_ofNat]
    omega

theorem movedConstant_small :
    ∀ w < 65, w = 0 ∨ (movedConstant w 0 = 0 ∧ movedConstant w 1 = 1) := by
  decide +kernel

theorem produced_all (h : Host) (w : IntWidth) (vm : Vm) (f : Bytes) (r : BitVec 32) :
    Produced h w f r := by
  have hsmall := movedConstant_small w.bits (Nat.lt_succ_of_le w.le)
  obtain ⟨hzero, hone⟩ := hsmall.resolve_left w.pos.ne'
  obtain ⟨r', hapart⟩ := exists_apart r
  have hsize := slotSize_le w.bits
  generalize hN : readLe f (frameOffset r) (slotSize w.bits) = N
  induction N generalizing f with
  | zero =>
    refine (produced_move h w vm f r 0).congr h w ?_
    rw [hN, readLe_writeSlot, hzero]
    rfl
  | succ N ih =>
    have hlt := readLe_lt f (frameOffset r) (slotSize w.bits)
    -- `r` holds the number before, and `r'` holds one.
    let f₁ := writeLe f (frameOffset r) (slotSize w.bits) N
    let f₂ := writeSlot w.bits f₁ r' (movedConstant w.bits 1)
    have hf₁ : readLe f₁ (frameOffset r) (slotSize w.bits) = N := by
      rw [readLe_writeLe_same, Nat.mod_eq_of_lt (by omega)]
    have hsame : ∀ x, frameOffset r ≤ x → x < frameOffset r + slotSize w.bits → f₂ x = f₁ x :=
      fun x h1 h2 => writeSlot_of_apart w.bits f₁ r' _ (by omega)
    have hr : Produced h w f₂ r := (ih f₁ hf₁).kept hsame
    have hr' : Produced h w f₂ r' := produced_move h w vm f₁ r' 1
    obtain ⟨v, hv, hsum⟩ := add_slots w.bits f₂ r r'
    refine (produced_add h w vm (d := r) hr hr' hv).congr h w ?_
    rw [readLe_writeSlot, hsum, readLe_congr hsame, hf₁, readLe_writeSlot, hone, hN]
    have hbound : 1 < 256 ^ slotSize w.bits := Nat.one_lt_pow (by unfold slotSize; split <;> omega)
      (by omega)
    rw [show (1 : BitVec 64).toNat = 1 from rfl, Nat.mod_eq_of_lt hbound,
      Nat.mod_eq_of_lt (by omega)]

/-- A frame with the contents `x` at 0 and `y` at 8. -/
def operandFrame (x y : BitVec 64) : Bytes := write64 (write64 (fun _ => 0) 0 x) 8 y

theorem content_operandFrame (x y : BitVec 64) :
    content (operandFrame x y) 0 = x ∧ content (operandFrame x y) 8 = y := by
  constructor
  · change read64 (writeLe _ 8 8 _) 0 = x
    rw [read64_writeLe_disjoint (Or.inl (by omega)), read64_write64_same]
  · exact read64_write64_same _ _ _

theorem content_behind (x y : BitVec 64) : content (operandFrame x y) 16 = 0 := by
  change read64 (writeLe (writeLe _ 0 8 _) 8 8 _) 16 = 0
  rw [read64_writeLe_disjoint (Or.inr (by omega)), read64_writeLe_disjoint (Or.inr (by omega))]
  rfl

end Vmir.RegisterContents
