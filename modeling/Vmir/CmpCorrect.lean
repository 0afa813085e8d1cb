import Vmir.BranchPieces
import Vmir.CmpValues

set_option autoImplicit false

/-!
# Fused compares

A compare that is fused into a branch or into a select decides the predicate as the compare that
gives a value does.
-/
namespace Vmir.CmpCorrect
open ByteStore RegisterProgram CodePieces Ir VmOps VmControl IrTypes ProgramText IntegerRegisters
open EmitCmp CmpRuns CmpValues EmitBranch BranchFixup BranchPieces

/-! ## Branches -/

/-- The types of compares that `combine_branch_with_compare` fuses. -/
def branchCombines (k : CmpType) : Bool :=
  match k with
  | .int8 | .int32 | .pointer _ => true
  | .int16 | .int64 => false

/-- The operation of a fused compare: its blocks come first. -/
structure FusedBranch {k : CmpType} (p : IcmpPred) (x y : CmpOperand k) (c : Control)
    (us : List (BitVec 16)) : Prop where
  slots : ∀ I, slots (.control c) I = .ok [0, 1]
  count : ∀ I, unitCount c I = 2 + us.length
  short : us.length ≤ 3
  ne : c ≠ .jumptable
  outcome : ∀ (a b : BitVec 16) (f : Bytes), outcome c (operands (a :: b :: us)) f
    = if llvmIcmp p (x.value f) (y.value f) then 0 else 1

theorem FusedBranch.swap {k : CmpType} {p : IcmpPred} {x y : CmpOperand k} {c : Control}
    {us : List (BitVec 16)} (h : FusedBranch (swapIcmp p) y x c us) : FusedBranch p x y c us :=
  ⟨h.slots, h.count, h.short, h.ne, fun a b f => by rw [h.outcome, llvmIcmp_swap]⟩

theorem lowBits_read32 (f : Bytes) (l : BitVec 32) {b : ℕ} (hb : b ≤ 32) :
    (read32 f (frameOffset l)).setWidth b = lowBits b f l := by
  rw [← content_setWidth, BitVec.setWidth_setWidth_of_le _ hb]
  rfl

section
variable {p : IcmpPred} (l r : BitVec 32)

theorem fused_regs8 : FusedBranch (k := .int8) p (.reg l) (.reg r) (.cmpBr8 p)
    [l.setWidth 16, r.setWidth 16] := by
  refine ⟨fun _ => rfl, fun _ => rfl, by simp, by simp, fun a b f => ?_⟩
  change (if icmp p ((read32 f (frameOffset l)).setWidth 8) ((read32 f (frameOffset r)).setWidth 8)
    then 0 else 1) = _
  rw [lowBits_read32 f l (by omega), lowBits_read32 f r (by omega), icmp_eq_llvmIcmp]
  rfl

theorem fused_regs32 {k : CmpType} (hk : k.bits = 32) :
    FusedBranch (k := k) p (.reg l) (.reg r) (.cmpBr32 p) [l.setWidth 16, r.setWidth 16] := by
  refine ⟨fun _ => rfl, fun _ => rfl, by simp, by simp, fun a b f => ?_⟩
  change (if icmp p (read32 f (frameOffset l)) (read32 f (frameOffset r)) then 0 else 1) = _
  rw [← content_setWidth, ← content_setWidth, icmp_eq_llvmIcmp, CmpOperand.value, CmpOperand.value,
    hk]
  rfl

theorem fused_const8 (hi : BitVec 8) (c : BitVec 8) :
    FusedBranch (k := .int8) p (.reg l) (.const c) (.cmpBr8C p) [l.setWidth 16, hi ++ c] := by
  refine ⟨fun _ => rfl, fun _ => rfl, by simp, by simp, fun a b f => ?_⟩
  change (if icmp p ((read32 f (frameOffset l)).setWidth 8) ((hi ++ c).setWidth 8)
    then 0 else 1) = _
  rw [lowBits_read32 f l (by omega), BitVec.setWidth_append_eq_right, icmp_eq_llvmIcmp]
  rfl

theorem fused_const32 {k : CmpType} (hk : k.bits = 32) {y : CmpOperand k} (v : BitVec 32)
    (hy : ∀ f, y.value f = v.setWidth k.bits) :
    FusedBranch p (.reg l) y (.cmpBr32C p) (l.setWidth 16 :: units32 v) := by
  refine ⟨fun _ => rfl, fun _ => rfl, by simp [units32], by simp, fun a b f => ?_⟩
  have himm : imm32 (operands (a :: b :: l.setWidth 16 :: units32 v)) 3 = v :=
    imm32_last [a, b, l.setWidth 16] v
  change (if icmp p (read32 f (frameOffset l)) (imm32 (operands _) 3) then 0 else 1) = _
  rw [himm, ← content_setWidth, icmp_eq_llvmIcmp, hy, CmpOperand.value, hk, BitVec.setWidth_eq]
  rfl

end

section
variable {k : CmpType} {iu : IrUnit} {e : Emission} {p : IcmpPred} {tb fb : ℕ}

theorem emitCmpBranchConst_eq32 {iv : Value} {v l : BitVec 32} (hk : branchCombines k)
    (h32 : k.bits = 32) (hget : valueGetConst32 iu iv = .ok v) :
    emitCmpBranchConst iu e k.type (.icmp p) l iv tb fb
      = emitFixup e (.control (.cmpBr32C p))
        (blockUnit tb :: blockUnit fb :: l.setWidth 16 :: units32 v) := by
  have hemit := emitFixup_emitI32 e (.control (.cmpBr32C p))
    [blockUnit tb, blockUnit fb, l.setWidth 16] v
  unfold emitCmpBranchConst
  cases k with
  | int8 => cases h32
  | int16 | int64 => cases hk
  | int32 | pointer =>
    simp only [CmpType.type, legalizeType, IrType.code, hget, ok_bind]
    exact hemit

theorem emitCmpBranchConst_eq8 {iv : Value} {u64 : BitVec 64} {l : BitVec 32}
    (hget : valueGetConst32 iu iv = .ok (u64.setWidth 32)) :
    emitCmpBranchConst iu e .int8 (.icmp p) l iv tb fb
      = emitFixup e (.control (.cmpBr8C p)) [blockUnit tb, blockUnit fb, l.setWidth 16,
        iu.textAlloc (e.text.length + 4) ++ u64.setWidth 8] := by
  have hemit := emitFixup_emitI8 iu e (.control (.cmpBr8C p))
    [blockUnit tb, blockUnit fb, l.setWidth 16] (u64.setWidth 8)
  unfold emitCmpBranchConst
  simp only [legalizeType, IrType.code, hget, ok_bind,
    BitVec.setWidth_setWidth_of_le u64 (show 8 ≤ 32 by omega)]
  exact hemit

theorem emitCmpBranchConst_fused {iv : Value} {u64 : BitVec 64} (tb fb : ℕ) (hk : branchCombines k)
    (l : BitVec 32) (hcls : iv.cls = .constant u64) (htype : typeGet iu iv.type = .ok k.type) :
    ∃ c us, emitCmpBranchConst iu e k.type (.icmp p) l iv tb fb
        = emitFixup e (.control c) (blockUnit tb :: blockUnit fb :: us)
      ∧ FusedBranch (k := k) p (.reg l) (.const (u64.setWidth k.bits)) c us := by
  cases k with
  | int8 =>
    have hget := valueGetConst32_const hcls htype (by decide)
    exact ⟨_, _, emitCmpBranchConst_eq8 hget, fused_const8 l _ _⟩
  | int16 | int64 => cases hk
  | int32 =>
    have hget := valueGetConst32_const hcls htype (by decide)
    exact ⟨_, _, emitCmpBranchConst_eq32 rfl rfl hget,
      fused_const32 l rfl _ fun _ => (BitVec.setWidth_eq _).symm⟩
  | pointer pointee =>
    have hget := valueGetConst32_const hcls htype (le_refl 32)
    exact ⟨_, _, emitCmpBranchConst_eq32 rfl rfl hget,
      fused_const32 l rfl _ fun _ => (BitVec.setWidth_eq _).symm⟩

theorem emitCmpBranch_fused {lhs rhs : ValueType} {x y : CmpOperand k} (tb fb : ℕ)
    (hp : CmpPlaced iu k lhs rhs x y) (hk : branchCombines k) :
    ∃ c us, emitCmpBranch iu e (.icmp p) lhs rhs tb fb
        = emitFixup e (.control c) (blockUnit tb :: blockUnit fb :: us)
      ∧ FusedBranch p x y c us := by
  have hx := hp.lhsAt
  have hy := hp.rhsAt
  unfold emitCmpBranch
  cases hp.compared with
  | regs l r =>
    obtain ⟨lhsV, hlhs, hlcls⟩ := hx
    obtain ⟨rhsV, hrhs, hrcls⟩ := hy
    simp only [hlhs, hrhs, hp.lhsType, ok_bind, hlcls, hrcls]
    cases k with
    | int8 => exact ⟨_, _, rfl, fused_regs8 l r⟩
    | int16 | int64 => cases hk
    | int32 | pointer => exact ⟨_, _, rfl, fused_regs32 l r rfl⟩
  | const l c =>
    obtain ⟨lhsV, hlhs, hlcls⟩ := hx
    obtain ⟨rhsV, u64, hrhs, hrcls, rfl, htype⟩ := hy
    simp only [hlhs, hrhs, hp.lhsType, ok_bind, hlcls, hrcls]
    exact emitCmpBranchConst_fused tb fb hk l hrcls htype
  | constSwapped c r =>
    obtain ⟨lhsV, u64, hlhs, hlcls, rfl, htype⟩ := hx
    obtain ⟨rhsV, hrhs, hrcls⟩ := hy
    simp only [hlhs, hrhs, hp.lhsType, ok_bind, hlcls, hrcls, swapPred]
    obtain ⟨c, us, hemit, hfused⟩ :=
      emitCmpBranchConst_fused (e := e) (p := swapIcmp p) tb fb hk r hlcls htype
    exact ⟨c, us, hemit, hfused.swap⟩
  | globalvar l addr =>
    obtain ⟨lhsV, hlhs, hlcls⟩ := hx
    obtain ⟨rhsV, it, pointee, hrhs, hrcls, htype, rfl⟩ := hy
    simp only [hlhs, hrhs, hp.lhsType, ok_bind, hlcls, hrcls]
    have hget := valueGetConst32_globalvar hrcls htype
    exact ⟨_, _, emitCmpBranchConst_eq32 rfl rfl hget, fused_const32 l rfl addr fun _ => rfl⟩
  | globalvarSwapped addr r =>
    obtain ⟨lhsV, it, pointee, hlhs, hlcls, htype, rfl⟩ := hx
    obtain ⟨rhsV, hrhs, hrcls⟩ := hy
    simp only [hlhs, hrhs, hp.lhsType, ok_bind, hlcls, hrcls, swapPred]
    have hget := valueGetConst32_globalvar hlcls htype
    have hfused := fused_const32 (p := swapIcmp p) (y := .globalvar addr) r rfl addr
      (k := .pointer pointee) fun _ => rfl
    exact ⟨_, _, emitCmpBranchConst_eq32 rfl rfl hget, hfused.swap⟩

end

/-- The branching operation that was emitted: `branch_fixup` comes to its position and succeeds
there when both blocks are placed within reach, and the operation then goes to the block that the
predicate chooses. -/
def BranchDecides (h : Host) (e e' : Emission) (decide : Bytes → Bool) (tb fb : ℕ) : Prop :=
  e'.branchFixups = e.branchFixups ++ [e.text.length] ∧
    ∀ (layout : Layout) (post : Text),
      (∀ tpc fpc, layout (blockUnit tb).toNat = some tpc → layout (blockUnit fb).toNat = some fpc →
        InReach e.text.length tpc → InReach e.text.length fpc →
        ∃ T, fixupOne layout (e'.text ++ post) e.text.length = .ok T) ∧
      ∀ T, fixupOne layout (e'.text ++ post) e.text.length = .ok T → ∀ (f : Bytes) (vm : Vm),
        ∃ pc, layout (blockUnit (if decide f then tb else fb)).toNat = some pc
          ∧ step h T ⟨e.text.length, f, vm⟩ = some ⟨pc, f, vm⟩

section
variable {k : CmpType} {p : IcmpPred} {x y : CmpOperand k} {c : Control} {us : List (BitVec 16)}

theorem FusedBranch.fixup (hb : FusedBranch p x y c us) (layout : Layout) (t post : Text)
    (tb fb : ℕ) :
    fixupOne layout (t ++ branchingCells (.control c) (blockUnit tb :: blockUnit fb :: us) ++ post)
        t.length
      = (resolveArgs layout t.length [0, 1] (blockUnit tb :: blockUnit fb :: us)).map
        fun args => t ++ branchingCells (.control c) args ++ post := by
  refine fixupOne_branching (fun I _ => hb.slots I) (fun j hj => ?_) t post
  simp only [List.mem_cons, List.not_mem_nil, or_false] at hj
  simp only [List.length_cons]
  omega

theorem FusedBranch.fixup_exists (hb : FusedBranch p x y c us) {layout : Layout} {t : Text}
    (post : Text) {tb fb tpc fpc : ℕ} (htrue : layout (blockUnit tb).toNat = some tpc)
    (hfalse : layout (blockUnit fb).toNat = some fpc) (htpc : InReach t.length tpc)
    (hfpc : InReach t.length fpc) :
    ∃ T, fixupOne layout
      (t ++ branchingCells (.control c) (blockUnit tb :: blockUnit fb :: us) ++ post) t.length
        = .ok T := by
  have hargs : ∃ args', resolveArgs layout t.length [0, 1] (blockUnit tb :: blockUnit fb :: us)
      = .ok args' := by
    refine resolveArgs_exists (by decide) (fun j hj => ?_) fun j hj => ?_
    · simp only [List.mem_cons, List.not_mem_nil, or_false] at hj
      simp only [List.length_cons]
      omega
    · simp only [List.mem_cons, List.not_mem_nil, or_false] at hj
      rcases hj with rfl | rfl
      · exact bbToOffsetDelta_of_inReach htrue htpc
      · exact bbToOffsetDelta_of_inReach hfalse hfpc
  obtain ⟨args', hargs⟩ := hargs
  rw [hb.fixup, hargs]
  exact ⟨_, rfl⟩

theorem FusedBranch.decides (hb : FusedBranch p x y c us) (h : Host) {e e' : Emission} {tb fb : ℕ}
    (hemit : emitFixup e (.control c) (blockUnit tb :: blockUnit fb :: us) = .ok e') :
    BranchDecides h e e' (fun f => llvmIcmp p (x.value f) (y.value f)) tb fb := by
  obtain ⟨t, ht, he⟩ := bind_ok.mp hemit
  obtain rfl := emit_ok ht
  obtain rfl := Except.ok.inj he
  refine ⟨rfl, fun layout post => ⟨fun tpc fpc htrue hfalse htpc hfpc =>
    hb.fixup_exists post htrue hfalse htpc hfpc, fun T hfix f vm => ?_⟩⟩
  change fixupOne layout (e.text ++ branchingCells _ _ ++ post) _ = _ at hfix
  have hlt : ∀ j ∈ [0, 1], j < (blockUnit tb :: blockUnit fb :: us).length := by
    intro j hj
    simp only [List.mem_cons, List.not_mem_nil, or_false] at hj
    simp only [List.length_cons]
    omega
  rw [hb.fixup] at hfix
  cases hargs : resolveArgs layout e.text.length [0, 1] (blockUnit tb :: blockUnit fb :: us) with
  | error fault =>
    rw [hargs] at hfix
    cases hfix
  | ok args' =>
    rw [hargs] at hfix
    obtain rfl := Except.ok.inj hfix
    have hstep := step_resolved h f vm (codeAt_self e.text (branchingCells (.control c) args') post)
      hargs (hb.slots _) hlt (by rw [hb.count, List.length_cons, List.length_cons]; omega)
      fun hc => absurd hc hb.ne
    obtain ⟨j, pc, hj, hpc, hstep⟩ := hstep
    rw [hb.outcome] at hj
    refine ⟨pc, ?_, hstep⟩
    rw [← hpc]
    cases hdec : llvmIcmp p (x.value f) (y.value f) with
    | true =>
      rw [hdec, if_pos rfl] at hj
      obtain rfl := Option.some.inj hj
      simp only [hdec]
      rfl
    | false =>
      rw [hdec, if_neg Bool.false_ne_true] at hj
      obtain rfl := Option.some.inj hj
      simp only [hdec]
      rfl

end

/-! ## Selects -/

/-- The types of compares that `combine_select_with_compare` fuses. -/
def selectCombines (k : CmpType) : Bool :=
  match k with
  | .int32 | .pointer _ => true
  | .int8 | .int16 | .int64 => false

inductive SelectOperand
  | reg (r : BitVec 32)
  | const (v : BitVec 32)

namespace SelectOperand

def value (x : SelectOperand) (f : Bytes) : BitVec 32 :=
  match x with
  | .reg r => read32 f (frameOffset r)
  | .const v => v

def At (iu : IrUnit) (index : ℕ) (x : SelectOperand) : Prop :=
  match x with
  | .reg r => ∃ iv, valueGet iu index = .ok iv ∧ iv.cls = .regframe r
  | .const v => ∃ iv, valueGet iu index = .ok iv
    ∧ ((∃ u64, iv.cls = .constant u64) ∨ ∃ addr, iv.cls = .globalvar addr)
    ∧ valueGetConst32 iu iv = .ok v

/-- The operation that puts a constant into a register that is kept free. -/
def cells (x : SelectOperand) (scratch : BitVec 32) : List Cell :=
  match x with
  | .reg _ => []
  | .const v => code .mov32C ([scratch.setWidth 16] ++ units32 v)

def register (x : SelectOperand) (scratch : BitVec 32) : BitVec 32 :=
  match x with
  | .reg r => r
  | .const _ => scratch

def frame (x : SelectOperand) (scratch : BitVec 32) (f : Bytes) : Bytes :=
  match x with
  | .reg _ => f
  | .const v => write32 f (frameOffset scratch) v

theorem cells_length (x : SelectOperand) (scratch : BitVec 32) : (x.cells scratch).length ≤ 4 := by
  cases x with
  | reg r => exact Nat.zero_le 4
  | const v => exact le_refl 4

theorem emit_eq {iu : IrUnit} {index : ℕ} {x : SelectOperand} {iv : Value} (hx : x.At iu index)
    (hiv : valueGet iu index = .ok iv) (t : Text) (scratch : BitVec 32)
    {k : Text → BitVec 32 → Except Fault Text} {c : BitVec 32 → List Cell}
    (hrest : ∀ t r, k t r = emit t (c r)) :
    (selectOperand iu t iv scratch >>= fun o => k o.1 o.2)
      = emit t (x.cells scratch ++ c (x.register scratch)) := by
  cases x with
  | reg r =>
    obtain ⟨iv', hiv', hcls⟩ := hx
    obtain rfl := Except.ok.inj (hiv'.symm.trans hiv)
    rw [selectOperand, hcls]
    exact hrest t r
  | const v =>
    obtain ⟨iv', hiv', hcls, hv⟩ := hx
    obtain rfl := Except.ok.inj (hiv'.symm.trans hiv)
    have hmov : (emitOp1 t .mov32C scratch >>= fun t => emitI32 t v)
        = emit t (cells (.const v) scratch) := by
      rw [emitOp1_eq]
      exact emit_units t _ _ _
    have hoperand : selectOperand iu t iv' scratch
        = (emit t (cells (.const v) scratch)).map fun t => (t, scratch) := by
      rw [← hmov]
      unfold selectOperand
      rcases hcls with ⟨u64, hcls⟩ | ⟨addr, hcls⟩
      · simp only [hcls, hv, ok_bind]
        cases emitOp1 t .mov32C scratch with
        | error fault => rfl
        | ok t₁ =>
          simp only [ok_bind]
          cases emitI32 t₁ v <;> rfl
      · simp only [hcls, hv, ok_bind]
        cases emitOp1 t .mov32C scratch with
        | error fault => rfl
        | ok t₁ =>
          simp only [ok_bind]
          cases emitI32 t₁ v <;> rfl
    rw [hoperand, ← emit_append]
    cases emit t (cells (.const v) scratch) with
    | error fault => rfl
    | ok t₁ => exact hrest t₁ scratch

theorem runs (h : Host) (t : Text) (x : SelectOperand) (scratch : BitVec 32) (s : Bytes × Vm) :
    Runs h t (t ++ x.cells scratch) s (x.frame scratch s.1, s.2) := by
  cases x with
  | reg r =>
    rw [cells, List.append_nil]
    exact Runs.refl h t s
  | const v =>
    have himm : imm32 (operands ([scratch.setWidth 16] ++ units32 v)) 1 = v := imm32_last [_] v
    refine runs_code h t rfl ?_
    rw [body]
    simp only [exec, himm]
    rfl

end SelectOperand

/-- A register outside the two words that `reg_alloc` keeps free. -/
def Kept (r : BitVec 32) : Prop := frameOffset r + 4 ≤ 0 ∨ 8 ≤ frameOffset r

/-- The operation of a fused compare: its result and the two values come first. -/
structure FusedSelect {k : CmpType} (h : Host) (p : IcmpPred) (x y : CmpOperand k) (op : Op)
    (us : List (BitVec 16)) : Prop where
  skip : skip op = 3 + us.length
  le : VmOps.skip op ≤ 6
  exec : ∀ (d t f : BitVec 32) (fr : Bytes) (vm : Vm),
    exec (body h op (operands ([d.setWidth 16, t.setWidth 16, f.setWidth 16] ++ us))) fr vm
      = some (write32 fr (frameOffset d) (if llvmIcmp p (x.value fr) (y.value fr)
        then read32 fr (frameOffset t) else read32 fr (frameOffset f)), vm)

theorem FusedSelect.swap {h : Host} {k : CmpType} {p : IcmpPred} {x y : CmpOperand k} {op : Op}
    {us : List (BitVec 16)} (hs : FusedSelect h (swapIcmp p) y x op us) :
    FusedSelect h p x y op us :=
  ⟨hs.skip, hs.le, fun d t f fr vm => by rw [hs.exec, llvmIcmp_swap]⟩

section
variable {h : Host} {p : IcmpPred} {k : CmpType}

theorem fusedSelect_regs (hk : k.bits = 32) (l r : BitVec 32) :
    FusedSelect (k := k) h p (.reg l) (.reg r) (.sel32 p) [l.setWidth 16, r.setWidth 16] := by
  refine ⟨rfl, by simp [skip], fun d t f fr vm => ?_⟩
  rw [CmpOperand.value, CmpOperand.value, hk, ← icmp_eq_llvmIcmp, lowBits, lowBits, content_setWidth,
    content_setWidth, body]
  rfl

theorem fusedSelect_const {y : CmpOperand k} (hk : k.bits = 32) (l v : BitVec 32)
    (hy : ∀ f, y.value f = v.setWidth k.bits) :
    FusedSelect h p (.reg l) y (.sel32C p) (l.setWidth 16 :: units32 v) := by
  refine ⟨rfl, by simp [skip], fun d t f fr vm => ?_⟩
  have himm : imm32 (operands ([d.setWidth 16, t.setWidth 16, f.setWidth 16]
      ++ l.setWidth 16 :: units32 v)) 4 = v :=
    imm32_last [d.setWidth 16, t.setWidth 16, f.setWidth 16, l.setWidth 16] v
  rw [hy, CmpOperand.value, hk, ← icmp_eq_llvmIcmp, BitVec.setWidth_eq, lowBits, content_setWidth,
    body]
  simp only [exec, himm]
  rfl

end

section
variable {k : CmpType} {iu : IrUnit} {p : IcmpPred} {retV : Value} {d : BitVec 32}

theorem emitCmpSelectRegs_eq (hk : selectCombines k) (hret : valueReg retV = .ok d)
    (t : Text) (truereg falsereg l r : BitVec 32) :
    emitCmpSelectRegs t k.type (.icmp p) retV truereg falsereg l r
      = emit t (code (.sel32 p) ([d.setWidth 16, truereg.setWidth 16, falsereg.setWidth 16]
        ++ [l.setWidth 16, r.setWidth 16])) := by
  unfold emitCmpSelectRegs
  cases k with
  | int8 | int16 | int64 => cases hk
  | int32 | pointer =>
    simp only [CmpType.type, legalizeType, IrType.code, hret, ok_bind, emitOp, emitI16,
      emit_append]
    rfl

theorem emitCmpSelectConst_eq (hk : selectCombines k) (hret : valueReg retV = .ok d) {iv : Value}
    {v : BitVec 32} (hget : valueGetConst32 iu iv = .ok v) (t : Text)
    (truereg falsereg l : BitVec 32) :
    emitCmpSelectConst iu t k.type (.icmp p) retV truereg falsereg l iv
      = emit t (code (.sel32C p) ([d.setWidth 16, truereg.setWidth 16, falsereg.setWidth 16]
        ++ l.setWidth 16 :: units32 v)) := by
  unfold emitCmpSelectConst
  cases k with
  | int8 | int16 | int64 => cases hk
  | int32 | pointer =>
    simp only [CmpType.type, legalizeType, IrType.code, hret, hget, ok_bind, emitOp, emitI16,
      emitI32, emit_append]
    rfl

theorem emitCmpSelect_eq {ret lhs rhs tv fv : ValueType} {x y : CmpOperand k}
    {xt xf : SelectOperand} (h : Host) (hp : CmpPlaced iu k lhs rhs x y) (hk : selectCombines k)
    (hretV : valueGet iu ret.value = .ok retV) (hret : valueReg retV = .ok d)
    (htv : xt.At iu tv.value) (hfv : xf.At iu fv.value) (t : Text) :
    ∃ op us, FusedSelect h p x y op us
      ∧ emitCmpSelect iu t ret (.icmp p) lhs rhs tv fv = emit t (xt.cells 0 ++ (xf.cells 4
        ++ code op ([d.setWidth 16, (xt.register 0).setWidth 16, (xf.register 4).setWidth 16]
          ++ us))) := by
  have h32 : k.bits = 32 := by
    cases k with
    | int8 | int16 | int64 => cases hk
    | int32 | pointer => rfl
  obtain ⟨trueval, htrue⟩ : ∃ iv, valueGet iu tv.value = .ok iv := by
    cases xt with
    | reg r | const v => exact ⟨htv.choose, htv.choose_spec.1⟩
  obtain ⟨falseval, hfalse⟩ : ∃ iv, valueGet iu fv.value = .ok iv := by
    cases xf with
    | reg r | const v => exact ⟨hfv.choose, hfv.choose_spec.1⟩
  have hemit {op : Op} {us : List (BitVec 16)} {rest : Text → BitVec 32 → BitVec 32 →
      Except Fault Text} (hrest : ∀ t a b, rest t a b
        = emit t (code op ([d.setWidth 16, a.setWidth 16, b.setWidth 16] ++ us))) :
      (selectOperand iu t trueval 0 >>= fun o => selectOperand iu o.1 falseval 4 >>= fun o' =>
        rest o'.1 o.2 o'.2) = emit t (xt.cells 0 ++ (xf.cells 4
        ++ code op ([d.setWidth 16, (xt.register 0).setWidth 16, (xf.register 4).setWidth 16]
          ++ us))) :=
    SelectOperand.emit_eq htv htrue t 0
      (k := fun t a => selectOperand iu t falseval 4 >>= fun o' => rest o'.1 a o'.2)
      (c := fun a => xf.cells 4
        ++ code op ([d.setWidth 16, a.setWidth 16, (xf.register 4).setWidth 16] ++ us))
      fun t a => SelectOperand.emit_eq hfv hfalse t 4 (k := fun t b => rest t a b)
        (c := fun b => code op ([d.setWidth 16, a.setWidth 16, b.setWidth 16] ++ us))
        fun t b => hrest t a b
  have hx := hp.lhsAt
  have hy := hp.rhsAt
  unfold emitCmpSelect
  cases hp.compared with
  | regs l r =>
    obtain ⟨lhsV, hlhs, hlcls⟩ := hx
    obtain ⟨rhsV, hrhs, hrcls⟩ := hy
    simp only [hretV, hlhs, hrhs, htrue, hfalse, hp.lhsType, ok_bind, hlcls, hrcls]
    exact ⟨_, _, fusedSelect_regs h32 l r,
      hemit fun t a b => emitCmpSelectRegs_eq hk hret t a b l r⟩
  | const l c =>
    obtain ⟨lhsV, hlhs, hlcls⟩ := hx
    obtain ⟨rhsV, u64, hrhs, hrcls, rfl, htype⟩ := hy
    simp only [hretV, hlhs, hrhs, htrue, hfalse, hp.lhsType, ok_bind, hlcls, hrcls]
    have hget := valueGetConst32_const hrcls htype h32.le
    have hfused := fusedSelect_const (h := h) (p := p) h32 l (u64.setWidth 32)
      (y := .const (u64.setWidth k.bits)) fun f =>
        (BitVec.setWidth_setWidth_of_le u64 h32.le).symm
    exact ⟨_, _, hfused, hemit fun t a b => emitCmpSelectConst_eq hk hret hget t a b l⟩
  | constSwapped c r =>
    obtain ⟨lhsV, u64, hlhs, hlcls, rfl, htype⟩ := hx
    obtain ⟨rhsV, hrhs, hrcls⟩ := hy
    simp only [hretV, hlhs, hrhs, htrue, hfalse, hp.lhsType, ok_bind, hlcls, hrcls, swapPred]
    have hget := valueGetConst32_const hlcls htype h32.le
    have hfused := fusedSelect_const (h := h) (p := swapIcmp p) h32 r (u64.setWidth 32)
      (y := .const (u64.setWidth k.bits)) fun f =>
        (BitVec.setWidth_setWidth_of_le u64 h32.le).symm
    exact ⟨_, _, hfused.swap, hemit fun t a b => emitCmpSelectConst_eq hk hret hget t a b r⟩
  | globalvar l addr =>
    obtain ⟨lhsV, hlhs, hlcls⟩ := hx
    obtain ⟨rhsV, it, pointee, hrhs, hrcls, htype, rfl⟩ := hy
    simp only [hretV, hlhs, hrhs, htrue, hfalse, hp.lhsType, ok_bind, hlcls, hrcls]
    have hget := valueGetConst32_globalvar hrcls htype
    have hfused := fusedSelect_const (h := h) (p := p) (k := .pointer pointee)
      (y := .globalvar addr) rfl l addr fun f => rfl
    exact ⟨_, _, hfused, hemit fun t a b => emitCmpSelectConst_eq hk hret hget t a b l⟩
  | globalvarSwapped addr r =>
    obtain ⟨lhsV, it, pointee, hlhs, hlcls, htype, rfl⟩ := hx
    obtain ⟨rhsV, hrhs, hrcls⟩ := hy
    simp only [hretV, hlhs, hrhs, htrue, hfalse, hp.lhsType, ok_bind, hlcls, hrcls, swapPred]
    have hget := valueGetConst32_globalvar hlcls htype
    have hfused := fusedSelect_const (h := h) (p := swapIcmp p) (k := .pointer pointee)
      (y := .globalvar addr) rfl r addr fun f => rfl
    exact ⟨_, _, hfused.swap, hemit fun t a b => emitCmpSelectConst_eq hk hret hget t a b r⟩

end

/-! ## The values of a select -/

theorem SelectOperand.frame_apart (x : SelectOperand) {scratch : BitVec 32} (f : Bytes) {r : ℤ}
    (hr : r + 4 ≤ frameOffset scratch ∨ frameOffset scratch + 4 ≤ r) :
    read32 (x.frame scratch f) r = read32 f r := by
  cases x with
  | reg r => rfl
  | const v => exact read32_writeLe_disjoint hr

theorem SelectOperand.frame_register (x : SelectOperand) (scratch : BitVec 32) (f : Bytes) :
    read32 (x.frame scratch f) (frameOffset (x.register scratch)) = x.value f := by
  cases x with
  | reg r => rfl
  | const v => exact read32_write32_same f _ v

def SelectOperand.InFrame (x : SelectOperand) : Prop :=
  match x with
  | .reg r => Kept r
  | .const _ => True

def CmpInFrame {k : CmpType} (x : CmpOperand k) : Prop :=
  match x with
  | .reg r => Kept r
  | .const _ => True
  | .globalvar _ => True

def selectFrame (xt xf : SelectOperand) (f : Bytes) : Bytes := xf.frame 4 (xt.frame 0 f)

theorem read32_selectFrame (xt xf : SelectOperand) (f : Bytes) {r : BitVec 32} (hr : Kept r) :
    read32 (selectFrame xt xf f) (frameOffset r) = read32 f (frameOffset r) := by
  have h0 : frameOffset 0 = 0 := by decide
  have h4 : frameOffset 4 = 4 := by decide
  rw [selectFrame, xf.frame_apart _ (by rw [h4]; rcases hr with hr | hr <;> omega),
    xt.frame_apart _ (by rw [h0]; rcases hr with hr | hr <;> omega)]

theorem selectFrame_true (xt xf : SelectOperand) (f : Bytes) (ht : xt.InFrame) :
    read32 (selectFrame xt xf f) (frameOffset (xt.register 0)) = xt.value f := by
  cases xt with
  | reg r => exact read32_selectFrame (.reg r) xf f ht
  | const v =>
    have hapart : frameOffset ((SelectOperand.const v).register 0) + 4 ≤ frameOffset 4 := by
      change frameOffset 0 + 4 ≤ frameOffset 4
      decide
    rw [selectFrame, xf.frame_apart _ (Or.inl hapart)]
    exact SelectOperand.frame_register (.const v) 0 f

theorem selectFrame_false (xt xf : SelectOperand) (f : Bytes) (hf : xf.InFrame) :
    read32 (selectFrame xt xf f) (frameOffset (xf.register 4)) = xf.value f := by
  cases xf with
  | reg r => exact read32_selectFrame xt (.reg r) f hf
  | const v => exact SelectOperand.frame_register (.const v) 4 _

theorem value_selectFrame {k : CmpType} (hk : k.bits = 32) (x : CmpOperand k) (xt xf : SelectOperand)
    (f : Bytes) (hx : CmpInFrame x) : x.value (selectFrame xt xf f) = x.value f := by
  cases x with
  | reg r =>
    rw [CmpOperand.value, CmpOperand.value, ← lowBits_read32 _ r hk.le, ← lowBits_read32 f r hk.le,
      read32_selectFrame xt xf f hx]
  | const c => rfl
  | globalvar addr => rfl

/-! ## The three forms -/

/-- The plain compare: its register is 1 where the predicate holds, and 0 elsewhere. -/
def ValueDecides (h : Host) (iu : IrUnit) (p : IcmpPred) {k : CmpType} (lhs rhs : ValueType)
    (x y : CmpOperand k) : Prop :=
  ∀ (t : Text) (s : Bytes × Vm) (ret : ValueType) (retV : Value) (d : BitVec 32),
    valueGet iu ret.value = .ok retV → valueReg retV = .ok d →
    Yields h t (emitCmp2 h iu t ret (.icmp p) lhs rhs) s
      (some (write32 s.1 (frameOffset d) (ofBool (llvmIcmp p (x.value s.1) (y.value s.1)))))

/-- The compare in a branch. The emitter stops only where the buffer has not 32 bytes left. -/
def BranchFormDecides (h : Host) (iu : IrUnit) (p : IcmpPred) {k : CmpType} (lhs rhs : ValueType)
    (x y : CmpOperand k) : Prop :=
  ∀ (e : Emission) (tb fb : ℕ),
    (emitCmpBranch iu e (.icmp p) lhs rhs tb fb = .error functionTooBig
      ∧ textAllocMemsize ≤ 2 * e.text.length + 32)
    ∨ ∃ e', emitCmpBranch iu e (.icmp p) lhs rhs tb fb = .ok e'
      ∧ BranchDecides h e e' (fun f => llvmIcmp p (x.value f) (y.value f)) tb fb

/-- The compare in a select of the values `xt` and `xf`. -/
def SelectFormDecides (h : Host) (iu : IrUnit) (p : IcmpPred) {k : CmpType} (lhs rhs : ValueType)
    (x y : CmpOperand k) : Prop :=
  ∀ (t : Text) (s : Bytes × Vm) (ret tv fv : ValueType) (retV : Value) (d : BitVec 32)
    (xt xf : SelectOperand), valueGet iu ret.value = .ok retV → valueReg retV = .ok d →
    xt.At iu tv.value → xf.At iu fv.value → xt.InFrame → xf.InFrame → CmpInFrame x → CmpInFrame y →
    Yields h t (emitCmpSelect iu t ret (.icmp p) lhs rhs tv fv) s
      (some (write32 (selectFrame xt xf s.1) (frameOffset d)
        (if llvmIcmp p (x.value s.1) (y.value s.1) then xt.value s.1 else xf.value s.1)))

section
variable {h : Host} {k : CmpType} {iu : IrUnit} {lhs rhs : ValueType} {x y : CmpOperand k}

theorem valueDecides (p : IcmpPred) (hp : CmpPlaced iu k lhs rhs x y) :
    ValueDecides h iu p lhs rhs x y := by
  intro t s ret retV d hretV hret
  have hyields := emitCmp2_yields (h := h) (t := t) (s := s) (p := p) hp hretV hret
  rw [boolFrame, writeSlot, if_pos (by omega), BitVec.setWidth_setWidth_of_le _ (by omega),
    BitVec.setWidth_eq] at hyields
  exact hyields

theorem branchFormDecides (p : IcmpPred) (hp : CmpPlaced iu k lhs rhs x y)
    (hk : branchCombines k) : BranchFormDecides h iu p lhs rhs x y := by
  intro e tb fb
  obtain ⟨c, us, hemit, hfused⟩ := emitCmpBranch_fused (e := e) (p := p) tb fb hp hk
  rw [hemit]
  cases hfix : emitFixup e (.control c) (blockUnit tb :: blockUnit fb :: us) with
  | error fault =>
    left
    have hshort := hfused.short
    rw [emitFixup, emit] at hfix
    split at hfix
    · next hfull =>
      simp only [List.length_cons, List.length_map] at hfull
      exact ⟨hfix.symm, by omega⟩
    · cases hfix
  | ok e' => exact Or.inr ⟨e', rfl, hfused.decides h hfix⟩

theorem selectFormDecides (p : IcmpPred) (hp : CmpPlaced iu k lhs rhs x y)
    (hk : selectCombines k) : SelectFormDecides h iu p lhs rhs x y := by
  intro t s ret tv fv retV d xt xf hretV hret htv hfv ht hf hx hy
  obtain ⟨op, us, hfused, hemit⟩ := emitCmpSelect_eq h (p := p) hp hk hretV hret htv hfv t
  have h32 : k.bits = 32 := by
    cases k with
    | int8 | int16 | int64 => cases hk
    | int32 | pointer => rfl
  have hlen : (code op ([d.setWidth 16, (xt.register 0).setWidth 16, (xf.register 4).setWidth 16]
      ++ us)).length = skip op + 1 := by
    rw [code, List.length_cons, List.length_map, List.length_append, hfused.skip]
    rfl
  have hskip := hfused.le
  have htcells := xt.cells_length 0
  have hfcells := xf.cells_length 4
  have hexec := hfused.exec d (xt.register 0) (xf.register 4) (selectFrame xt xf s.1) s.2
  rw [value_selectFrame h32 x xt xf s.1 hx, value_selectFrame h32 y xt xf s.1 hy,
    selectFrame_true xt xf s.1 ht, selectFrame_false xt xf s.1 hf] at hexec
  have hargs : ([d.setWidth 16, (xt.register 0).setWidth 16, (xf.register 4).setWidth 16]
      ++ us).length = skip op := by
    rw [List.length_append, hfused.skip]
    rfl
  have hrun := ((xt.runs h t 0 s).trans (xf.runs h _ 4 _)).trans (runs_code h _ hargs hexec)
  rw [List.append_assoc, List.append_assoc] at hrun
  rw [hemit]
  refine yields_of_runs (by simp only [List.length_append] at hlen ⊢; omega) fun s' => ?_
  constructor
  · intro hrun'
    exact congrArg some (hrun.unique hrun')
  · intro hs
    rw [← Option.some.inj hs]
    exact hrun

theorem outcome_bcond (f : Bytes) (d : BitVec 32) (b : Bool) (us : List (BitVec 16)) :
    outcome .bcond (operands (d.setWidth 16 :: us)) (write32 f (frameOffset d) (ofBool b))
      = if b then 0 else 1 := by
  change (if read32 (write32 f (frameOffset d) (ofBool b)) (frameOffset d) != 0 then 0 else 1) = _
  rw [read32_write32_same]
  cases b with
  | true => rfl
  | false => rfl

/-- A compare decides its predicate in every form that the loader gives it. -/
theorem compare_forms_agree (p : IcmpPred) (hp : CmpPlaced iu k lhs rhs x y) :
    ValueDecides h iu p lhs rhs x y
      ∧ (branchCombines k → BranchFormDecides h iu p lhs rhs x y)
      ∧ (selectCombines k → SelectFormDecides h iu p lhs rhs x y)
      ∧ ∀ (f : Bytes) (d : BitVec 32) (us : List (BitVec 16)),
        outcome .bcond (operands (d.setWidth 16 :: us)) (write32 f (frameOffset d)
            (ofBool (llvmIcmp p (x.value f) (y.value f))))
          = if llvmIcmp p (x.value f) (y.value f) then 0 else 1 :=
  ⟨valueDecides p hp, branchFormDecides p hp, selectFormDecides p hp,
    fun f d us => outcome_bcond f d _ us⟩

end

def pointerUnit : IrUnit :=
  ⟨[.pointer (some 1), .int8], [⟨.regframe 8, 0⟩, ⟨.globalvar 4096, 0⟩], fun _ => 0⟩

theorem compare_forms_agree_pointer :
    ValueDecides zeroHost pointerUnit .ult ⟨1, 0⟩ ⟨0, 0⟩
        (k := .pointer (some 1)) (.globalvar 4096) (.reg 8)
      ∧ (branchCombines (.pointer (some 1)) → BranchFormDecides zeroHost pointerUnit .ult ⟨1, 0⟩
        ⟨0, 0⟩ (k := .pointer (some 1)) (.globalvar 4096) (.reg 8))
      ∧ (selectCombines (.pointer (some 1)) → SelectFormDecides zeroHost pointerUnit .ult ⟨1, 0⟩
        ⟨0, 0⟩ (k := .pointer (some 1)) (.globalvar 4096) (.reg 8))
      ∧ ∀ (f : Bytes) (d : BitVec 32) (us : List (BitVec 16)),
        outcome .bcond (operands (d.setWidth 16 :: us)) (write32 f (frameOffset d)
            (ofBool (llvmIcmp .ult (CmpOperand.value (k := .pointer (some 1)) (.globalvar 4096) f)
              (CmpOperand.value (k := .pointer (some 1)) (.reg 8) f))))
          = if llvmIcmp .ult (CmpOperand.value (k := .pointer (some 1)) (.globalvar 4096) f)
              (CmpOperand.value (k := .pointer (some 1)) (.reg 8) f) then 0 else 1 :=
  compare_forms_agree .ult ⟨.globalvarSwapped 4096 8, ⟨_, _, _, rfl, rfl, rfl, rfl⟩,
    ⟨_, rfl, rfl⟩, rfl⟩

end Vmir.CmpCorrect
