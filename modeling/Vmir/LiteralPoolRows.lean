import Vmir.LiteralPool
import Vmir.ProgramText

set_option autoImplicit false

/-!
# What the instructions ask of the literal pool

The emitter of an instruction appends a bounded number of words and of loads from the pool. Rows of
blocks that run into one another are therefore short enough when they have few instructions.
-/
namespace Vmir.LiteralPoolRows
open Ir IrTypes JitArm JitBuffer JitEmit LiteralPool

/-! ## The words and the loads of an emitter -/

def Counted (n : ℕ) (items : List Item) : Prop :=
  wordsIn items ≤ 9 * n ∧ (literals items).length ≤ 4 * n

theorem counted_nil (n : ℕ) : Counted n [] := ⟨Nat.zero_le _, Nat.zero_le _⟩

theorem Counted.mono {n m : ℕ} {items : List Item} (h : Counted n items) (hle : n ≤ m) :
    Counted m items :=
  ⟨h.1.trans (Nat.mul_le_mul_left 9 hle), h.2.trans (Nat.mul_le_mul_left 4 hle)⟩

theorem Counted.append {n m : ℕ} {before after : List Item} (h : Counted n before)
    (h' : Counted m after) : Counted (n + m) (before ++ after) := by
  have hwords := wordsIn_append before after
  have hloads : (literals (before ++ after)).length
      = (literals before).length + (literals after).length := by
    rw [literals_append, List.length_append, entriesFrom_length]
  exact ⟨by have := h.1; have := h'.1; omega, by have := h.2; have := h'.2; omega⟩

/-- The emitter appends at most `w` words, and at most `l` of them are loads from the pool. -/
def Adds {α : Type} (w l : ℕ) (e : Emit α) : Prop :=
  ∀ is a is', e.run is = .ok (a, is') →
    wordsIn is' ≤ wordsIn is + w ∧ (literals is').length ≤ (literals is).length + l

section
variable {α β : Type} {w w' l l' : ℕ} {x : Emit α} {f : α → Emit β}

theorem Adds.mono (h : Adds w l x) (hw : w ≤ w') (hl : l ≤ l') : Adds w' l' x := by
  intro is a is' hrun
  obtain ⟨hwords, hloads⟩ := h is a is' hrun
  exact ⟨by omega, by omega⟩

theorem Adds.bind (hx : Adds w l x) (hf : ∀ a, Adds w' l' (f a)) :
    Adds (w + w') (l + l') (x >>= f) := by
  intro is b is' hrun
  obtain ⟨a, is₁, hx', hf'⟩ := bind_ok hrun
  obtain ⟨hwords, hloads⟩ := hx is a is₁ hx'
  obtain ⟨hwords', hloads'⟩ := hf a is₁ b is' hf'
  exact ⟨by omega, by omega⟩

theorem adds_pure (a : α) : Adds w l (pure a : Emit α) := by
  intro is b is' hrun
  injection hrun with hrun
  injection hrun with _ hrun
  rw [← hrun]
  exact ⟨Nat.le_add_right _ _, Nat.le_add_right _ _⟩

theorem adds_throw (e : Fault) : Adds w l (throw e : Emit α) := by
  intro is b is' hrun
  cases hrun

theorem adds_result (m : Except Fault α) : Adds 0 0 (liftM m : Emit α) := by
  cases m with
  | error e => exact adds_throw e
  | ok a => exact adds_pure a

theorem adds_lift {m : Except Fault α} (hf : ∀ a, Adds w l (f a)) :
    Adds w l ((liftM m : Emit α) >>= f) := by
  intro is b is' hrun
  obtain ⟨a, _, hf'⟩ := lift_bind_ok hrun
  exact hf a is b is' hf'

theorem Adds.bind_le (hx : Adds w l x) (hw : w ≤ w') (hl : l ≤ l')
    (hf : ∀ a, Adds (w' - w) (l' - l) (f a)) : Adds w' l' (x >>= f) :=
  (hx.bind hf).mono (Nat.le_of_eq (Nat.add_sub_cancel' hw)) (Nat.le_of_eq (Nat.add_sub_cancel' hl))

theorem Adds.map (hx : Adds w l x) (g : α → β) : Adds w l (x >>= fun a => pure (g a)) := by
  have hbind : Adds (w + 0) (l + 0) (x >>= fun a => pure (g a)) :=
    hx.bind fun a => adds_pure (g a)
  exact hbind

theorem adds_item (i : Item) : Adds (wordsOf i).length (entriesOf 0 i).length (emitItem i) := by
  intro is b is' hrun
  injection hrun with hrun
  injection hrun with _ hrun
  rw [← hrun, wordsIn_append, literals_append, List.length_append, entriesFrom_length]
  simp [wordsIn, literals, entriesFrom]

theorem adds_push (opcode : BitVec 32) : Adds 1 0 (jitPush opcode) := adds_item (.push opcode)

theorem adds_literal (imm : BitVec 32) (rd : Reg) (vmbb : Bool) (cond : BitVec 32) :
    Adds 1 1 (jitLoadimmFromLiteralPoolCond imm rd vmbb cond) :=
  adds_item (.literal imm rd vmbb cond)

end

/-! ## Values -/

section
variable (u : JitUnit)

theorem jitLoadimmCond_adds (imm : BitVec 32) (rd : Reg) (cond : BitVec 32) :
    Adds 1 1 (jitLoadimmCond u imm rd cond) := by
  unfold jitLoadimmCond
  split_ifs
  · exact (adds_push _).mono (Nat.le_refl 1) (Nat.zero_le 1)
  · exact (adds_push _).mono (Nat.le_refl 1) (Nat.zero_le 1)
  · exact (adds_push _).mono (Nat.le_refl 1) (Nat.zero_le 1)
  · exact adds_literal imm rd false cond

theorem jitPushAddImm_adds (rd rn : Reg) (imm : BitVec 32) (tmpreg : Reg) :
    Adds 2 1 (jitPushAddImm u rd rn imm tmpreg) := by
  unfold jitPushAddImm
  split_ifs
  · exact (adds_push _).mono (Nat.le_succ 1) (Nat.zero_le 1)
  · exact (jitLoadimmCond_adds u imm tmpreg armCondAl).bind fun _ => adds_push _

theorem jitLoadMachinereg_adds (mr reg : Reg) (code : TypeCode) (cond : BitVec 32) (ext : Ext) :
    Adds 1 0 (jitLoadMachinereg mr reg code cond ext) := by
  unfold jitLoadMachinereg
  split
  all_goals first
    | exact (adds_push _).map fun _ => reg
    | exact adds_pure mr

theorem jitLoadImm8_adds (off : ℤ) (reg : Reg) (cond op : BitVec 32) :
    Adds 1 0 (jitLoadImm8 off reg cond op) := by
  unfold jitLoadImm8
  split
  · exact adds_push _
  · exact adds_throw _

theorem jitLoadImm12_adds (off : ℤ) (reg : Reg) (cond op : BitVec 32) :
    Adds 1 0 (jitLoadImm12 off reg cond op) :=
  adds_lift fun _ => adds_push _

theorem jitLoadRegframe_adds (off : ℤ) (reg : Reg) (code : TypeCode) (cond : BitVec 32)
    (ext : Ext) : Adds 1 0 (jitLoadRegframe off reg code cond ext) := by
  unfold jitLoadRegframe
  split
  all_goals first
    | exact jitLoadImm12_adds off reg cond _
    | exact jitLoadImm8_adds off reg cond _
    | exact adds_throw _

theorem jitLoadvalueCond_adds (vt : ValueType) (reg : Reg) (cond : BitVec 32) (ext : Ext) :
    Adds 1 1 (jitLoadvalueCond u vt reg cond ext) := by
  unfold jitLoadvalueCond
  refine adds_lift fun iv => adds_lift fun it => ?_
  split
  · exact (jitLoadMachinereg_adds _ reg _ cond ext).mono (Nat.le_refl 1) (Nat.zero_le 1)
  · exact ((jitLoadRegframe_adds _ reg _ cond ext).map fun _ => reg).mono
      (Nat.le_refl 1) (Nat.zero_le 1)
  · exact adds_lift fun imm => (jitLoadimmCond_adds u imm reg cond).map fun _ => reg
  · exact adds_lift fun imm => (jitLoadimmCond_adds u imm reg cond).map fun _ => reg
  · exact (jitLoadimmCond_adds u _ reg cond).map fun _ => reg
  · exact adds_throw _

theorem jitLoadvalue_adds (vt : ValueType) (reg : Reg) : Adds 1 1 (jitLoadvalue u vt reg) :=
  jitLoadvalueCond_adds u vt reg armCondAl .none

theorem jitStorevalueReg_adds (vt : ValueType) (reg : Reg) :
    Adds 0 0 (jitStorevalueReg u vt reg) := by
  unfold jitStorevalueReg
  refine adds_lift fun iv => ?_
  split
  · exact adds_pure _
  · exact adds_pure _

theorem jitStorevalueCond_adds (vt : ValueType) (reg : Reg) (cond : BitVec 32) :
    Adds 1 0 (jitStorevalueCond u vt reg cond) := by
  unfold jitStorevalueCond
  refine adds_lift fun iv => adds_lift fun it => ?_
  split
  · dsimp only
    split_ifs
    · exact adds_push _
    · exact adds_pure _
  · split
    all_goals first
      | exact adds_lift fun _ => adds_push _
      | exact adds_throw _
  · exact adds_throw _

theorem jitStorevalue_adds (vt : ValueType) (reg : Reg) : Adds 1 0 (jitStorevalue u vt reg) :=
  jitStorevalueCond_adds u vt reg armCondAl
/-! ## Instructions -/

theorem jitOperate_adds {w l : ℕ} {register : Emit (BitVec 32)} (immediate : Option (BitVec 32))
    (h : Adds w l register) : Adds (w + 1) l (jitOperate immediate register) := by
  unfold jitOperate
  split
  · exact (adds_push _).mono (Nat.le_add_left 1 w) (Nat.zero_le l)
  · exact h.bind fun opcode => adds_push _

theorem jitBinop_adds (ret : ValueType) (op : Binop) (lhs rhs : ValueType) :
    Adds 4 2 (jitBinop u ret op lhs rhs) := by
  unfold jitBinop
  exact adds_lift fun iv => (jitStorevalueReg_adds u ret rTmpa).bind fun rd =>
    (jitLoadvalue_adds u lhs rTmpa).bind fun rn => adds_lift fun immediate =>
      (jitOperate_adds immediate
        ((jitLoadvalue_adds u rhs rTmpb).bind fun rm => adds_result _)).bind fun _ =>
        jitStorevalue_adds u ret rd

theorem jitMove_adds (ret value : ValueType) : Adds 2 1 (jitMove u ret value) :=
  (jitStorevalueReg_adds u ret rTmpa).bind fun rd =>
    (jitLoadvalue_adds u value rd).bind fun rn => jitStorevalue_adds u ret rn

theorem jitMla_adds (ret arg1 arg2 arg3 : ValueType) :
    Adds 5 3 (jitMla u ret arg1 arg2 arg3) :=
  (jitStorevalueReg_adds u ret rTmpa).bind fun rd =>
    (jitLoadvalue_adds u arg1 rTmpa).bind fun _ =>
      (jitLoadvalue_adds u arg2 rTmpb).bind fun _ =>
        (jitLoadvalue_adds u arg3 _).bind fun _ =>
          (adds_push _).bind fun _ => jitStorevalue_adds u ret rd

theorem jitCast_adds (ret : ValueType) (op : CastOp) (value : ValueType) :
    Adds 3 1 (jitCast u ret op value) := by
  unfold jitCast
  exact adds_lift fun srctype => adds_lift fun dsttype =>
    (jitStorevalueReg_adds u ret rTmpa).bind fun rd =>
      (jitLoadvalue_adds u value rTmpa).bind fun rm => adds_lift fun opcode =>
        (adds_push _).bind fun _ => jitStorevalue_adds u ret rd

theorem jitOffsetReg_adds (valueOffset : ValueType) (valueOffsetMultiply : BitVec 32) :
    Adds 3 2 (jitOffsetReg u valueOffset valueOffsetMultiply) := by
  refine (jitLoadvalue_adds u valueOffset rTmpb).bind_le (by decide) (by decide) fun regoff => ?_
  dsimp only
  split_ifs
  · exact adds_throw _
  · exact (jitLoadimmCond_adds u _ rTmpa armCondAl).bind fun _ =>
      (adds_push _).map fun _ => (rTmpb, 0)
  · exact adds_pure _

theorem jitComputeEa_adds (baseptr : ValueType) (valueOffset : Option ValueType)
    (valueOffsetMultiply immediateOffset : ℤ) (preferredReg : Reg) :
    Adds 7 4 (jitComputeEa u baseptr valueOffset valueOffsetMultiply immediateOffset
      preferredReg) := by
  have hlast : ∀ ea : Reg, Adds 2 1 (if immediateOffset ≠ 0 then do
      jitPushAddImm u preferredReg ea (BitVec.ofInt 32 immediateOffset) rTmpb
      return preferredReg
    else return ea) := by
    intro ea
    split_ifs
    · exact (jitPushAddImm_adds u preferredReg ea _ rTmpb).map fun _ => preferredReg
    · exact adds_pure ea
  unfold jitComputeEa
  simp only [bind_map_left, pure_bind]
  split
  · exact adds_throw _
  · cases valueOffset with
    | none =>
      exact ((jitLoadvalue_adds u baseptr preferredReg).bind fun ea => hlast ea).mono
        (by decide) (by decide)
    | some vt =>
      exact (jitOffsetReg_adds u vt _).bind fun offset =>
        (jitLoadvalue_adds u baseptr preferredReg).bind fun ea =>
          (adds_push _).bind fun _ => hlast preferredReg

theorem jitLea_adds (ret baseptr : ValueType) (immediateOffset : ℤ)
    (valueOffset : Option ValueType) (valueOffsetMultiply : ℤ) :
    Adds 8 4 (jitLea u ret baseptr immediateOffset valueOffset valueOffsetMultiply) :=
  (jitComputeEa_adds u baseptr valueOffset valueOffsetMultiply immediateOffset rTmpa).bind
    fun ea => jitStorevalue_adds u ret ea

theorem jitLoad_adds (ret ptr : ValueType) (immediateOffset : ℤ) (valueOffset : Option ValueType)
    (valueOffsetMultiply : ℤ) (cast : Option CastOp) (loadType : BitVec 8) :
    Adds 9 4 (jitLoad u ret ptr immediateOffset valueOffset valueOffsetMultiply cast loadType) := by
  unfold jitLoad
  simp only [pure_bind]
  refine (jitComputeEa_adds u ptr valueOffset valueOffsetMultiply immediateOffset rTmpa).bind_le
    (by decide) (by decide) fun ea =>
    (jitStorevalueReg_adds u ret rTmpa).bind_le (by decide) (by decide) fun rt => ?_
  cases cast with
  | none =>
    exact adds_lift fun pointee => adds_lift fun opcode =>
      (adds_push _).bind fun _ => jitStorevalue_adds u ret rt
  | some op =>
    refine adds_lift fun pointee => adds_lift fun retty => ?_
    split
    · exact (adds_push _).bind fun _ => jitStorevalue_adds u ret rt
    · exact (jitStorevalue_adds u ret rt).mono (by decide) (by decide)

theorem jitStore_adds (ptr value : ValueType) (immediateOffset : ℤ) :
    Adds 5 3 (jitStore u ptr value immediateOffset) := by
  have hlast : ∀ ea : Reg, Adds 2 1 (do
      let rt ← jitLoadvalue u value rTmpb
      let ty ← typeGet u.iu value.type
      let opcode ← storeOpcode (legalizeType ty)
      jitPushal (opcode ||| field rMem 16 ||| field rt 12 ||| ea.setWidth 32)) := fun ea =>
    (jitLoadvalue_adds u value rTmpb).bind fun rt => adds_lift fun ty => adds_lift fun opcode =>
      adds_push _
  unfold jitStore
  simp only [pure_bind]
  refine (jitLoadvalue_adds u ptr rTmpa).bind_le (by decide) (by decide) fun ea => ?_
  split_ifs
  · exact (jitPushAddImm_adds u rTmpa ea _ rTmpb).bind fun _ => hlast rTmpa
  · exact (hlast ea).mono (by decide) (by decide)

theorem jitEmitCmp_adds (lhs rhs : ValueType) (pred : Pred) :
    Adds 3 2 (jitEmitCmp u lhs rhs pred) := by
  unfold jitEmitCmp
  exact (jitLoadvalueCond_adds u lhs rTmpa armCondAl _).bind fun rn =>
    adds_lift fun rhsValue => adds_lift fun immediate =>
      jitOperate_adds immediate
        ((jitLoadvalueCond_adds u rhs rTmpb armCondAl _).map (cmpRegister rn))

theorem jitEmitSelect_adds (pred : IcmpPred) (ret trueValue falseValue : ValueType) :
    Adds 4 2 (jitEmitSelect u pred ret trueValue falseValue) :=
  (jitStorevalueReg_adds u ret rTmpa).bind fun rd =>
    (jitLoadvalueCond_adds u trueValue rd _ .none).bind fun rx =>
      (jitStorevalueCond_adds u ret rx _).bind fun _ =>
        (jitLoadvalueCond_adds u falseValue rd _ .none).bind fun rx' =>
          jitStorevalueCond_adds u ret rx' _

theorem jitCmpSelect_adds (ret : ValueType) (op : Pred)
    (lhs rhs trueValue falseValue : ValueType) :
    Adds 7 4 (jitCmpSelect u ret op lhs rhs trueValue falseValue) :=
  (jitEmitCmp_adds u lhs rhs op).bind fun _ =>
    adds_lift fun pred => jitEmitSelect_adds u pred ret trueValue falseValue

theorem jitCmp_adds (ret : ValueType) (op : Pred) (lhs rhs : ValueType) :
    Adds 7 4 (jitCmp u ret op lhs rhs) :=
  (jitEmitCmp_adds u lhs rhs op).bind fun _ => adds_lift fun _ =>
    (jitStorevalueReg_adds u ret rTmpa).bind fun rd =>
      (jitLoadimmCond_adds u 1 rd _).bind fun _ =>
        (jitStorevalueCond_adds u ret rd _).bind fun _ =>
          (jitLoadimmCond_adds u 0 rd _).bind fun _ => jitStorevalueCond_adds u ret rd _

theorem jitSelect_adds (ret trueValue falseValue pred : ValueType) :
    Adds 6 3 (jitSelect u ret trueValue falseValue pred) :=
  (jitLoadvalue_adds u pred rTmpa).bind fun _ =>
    (adds_push _).bind fun _ => jitEmitSelect_adds u .ne ret trueValue falseValue

/-! ## The ends of blocks -/

section
variable (bbs : List JitBb) (next : Option JitBb)

theorem jitJump_adds (ib : JitBb) (bb : ℕ) (cond : BitVec 32) :
    Adds 2 1 (jitJump next ib bb cond) := by
  unfold jitJump
  split_ifs
  · exact adds_pure _
  · exact ((adds_push _).map fun _ => true).mono (by decide) (by decide)
  · exact ((adds_literal _ rRet true cond).bind fun _ => adds_push _).map fun _ => true

theorem jitEmitConditionalBranch_adds (trueBb falseBb : ℕ) (pred : IcmpPred) :
    Adds 4 2 (jitEmitConditionalBranch bbs next trueBb falseBb pred) := by
  unfold jitEmitConditionalBranch
  exact adds_lift fun tib => adds_lift fun fib =>
    (jitJump_adds next tib trueBb _).bind fun jumped =>
      (jitJump_adds next fib falseBb _).map fun jumped' => jumped && jumped'

theorem jitBr_adds (condition : Option ValueType) (trueBranch falseBranch : ℕ) :
    Adds 6 3 (jitBr u bbs next condition trueBranch falseBranch) := by
  unfold jitBr
  cases condition with
  | some vt =>
    exact (jitLoadvalue_adds u vt rTmpa).bind fun _ => (adds_push _).bind fun _ =>
      jitEmitConditionalBranch_adds bbs next trueBranch falseBranch .ne
  | none =>
    exact adds_lift fun ib => (jitJump_adds next ib trueBranch armCondAl).mono
      (by decide) (by decide)

theorem jitCmpBr_adds (op : Pred) (lhs rhs : ValueType) (trueBranch falseBranch : ℕ) :
    Adds 7 4 (jitCmpBr u bbs next op lhs rhs trueBranch falseBranch) := by
  unfold jitCmpBr
  exact (jitEmitCmp_adds u lhs rhs op).bind fun _ => adds_lift fun pred =>
    jitEmitConditionalBranch_adds bbs next trueBranch falseBranch pred

theorem jitRet_adds (value : Option ValueType) : Adds 4 1 (jitRet u value) := by
  have hvalue : Adds 2 1 (jitRetValue u value) := by
    unfold jitRetValue
    cases value with
    | some vt => exact (jitLoadvalue_adds u vt rTmpa).bind fun r => adds_push _
    | none => exact adds_pure _
  exact hvalue.bind fun _ => (adds_push _).bind fun _ => (adds_push _).map fun _ => true

/-! ## Blocks -/


/-- The instruction has a table of jumps, whose length is up to the width of its value. -/
def isJumptable (ii : Instr) : Bool :=
  match ii.cls with
  | .switch _ _ _ => true
  | _ => false

theorem jitInstrs_adds {instrs : List Instr} (h : ∀ ii ∈ instrs, isJumptable ii = false) :
    Adds (9 * instrs.length) (4 * instrs.length) (jitInstrs u bbs next instrs) := by
  induction instrs with
  | nil => exact adds_throw _
  | cons ii rest ih =>
    have hrest := ih fun ii hii => h ii (List.mem_cons_of_mem _ hii)
    have hnext : ∀ {x : Emit Unit}, Adds 9 4 x →
        Adds (9 * (rest.length + 1)) (4 * (rest.length + 1))
          (x >>= fun _ => jitInstrs u bbs next rest) := fun hx =>
      (hx.bind fun _ => hrest).mono (by omega) (by omega)
    have hlast : ∀ {x : Emit Bool}, Adds 9 4 x →
        Adds (9 * (rest.length + 1)) (4 * (rest.length + 1)) x := fun hx =>
      hx.mono (by omega) (by omega)
    have hret : ∀ {f : ValueType → Emit Unit}, (∀ ret, Adds 9 4 (f ret)) →
        Adds (9 * (rest.length + 1)) (4 * (rest.length + 1))
          ((liftM (iiRet ii) : Emit ValueType) >>= fun ret =>
            f ret >>= fun _ => jitInstrs u bbs next rest) := fun hf =>
      adds_lift fun ret => hnext (hf ret)
    rw [List.length_cons]
    unfold jitInstrs
    split
    case h_1 => exact hret fun ret => (jitBinop_adds u ret _ _ _).mono (by decide) (by decide)
    case h_2 => exact hret fun ret => (jitCast_adds u ret _ _).mono (by decide) (by decide)
    case h_3 => exact hret fun ret => (jitMove_adds u ret _).mono (by decide) (by decide)
    case h_4 => exact hret fun ret => jitLoad_adds u ret _ _ _ _ _ _
    case h_5 => exact hnext ((jitStore_adds u _ _ _).mono (by decide) (by decide))
    case h_6 => exact hret fun ret => (jitLea_adds u ret _ _ _ _).mono (by decide) (by decide)
    case h_7 => exact hret fun ret => (jitMla_adds u ret _ _ _).mono (by decide) (by decide)
    case h_8 => exact hret fun ret => (jitCmp_adds u ret _ _ _).mono (by decide) (by decide)
    case h_9 =>
      exact hret fun ret => (jitCmpSelect_adds u ret _ _ _ _ _).mono (by decide) (by decide)
    case h_10 => exact hret fun ret => (jitSelect_adds u ret _ _ _).mono (by decide) (by decide)
    case h_11 => exact hlast ((jitBr_adds u bbs next _ _ _).mono (by decide) (by decide))
    case h_12 => exact hlast ((jitCmpBr_adds u bbs next _ _ _ _ _).mono (by decide) (by decide))
    case h_13 hcls =>
      have hnot := h ii List.mem_cons_self
      rw [isJumptable, hcls] at hnot
      cases hnot
    case h_14 => exact hlast ((jitRet_adds u _).mono (by decide) (by decide))
    case h_15 => exact adds_throw _

/-- What a block counts for: its instructions and its entry. -/
def size (ib : JitBb) : ℕ := ib.instrs.length + 1

theorem jitEmit_adds {ib : JitBb} (h : ∀ ii ∈ ib.instrs, isJumptable ii = false) :
    Adds (9 * size ib) (4 * size ib) (jitEmit u bbs next ib) := by
  have hentry : Adds 1 0 (jitEntry ib) := by
    unfold jitEntry
    split_ifs
    · exact adds_pure _
    · exact adds_push _
  unfold size
  exact (hentry.bind fun _ => jitInstrs_adds u bbs next h).mono (by omega) (by omega)

theorem jitEmitStub_adds (ib : JitBb) : Adds 2 1 (jitEmitStub ib) :=
  (adds_literal _ rRet true armCondAl).bind fun _ => (adds_push _).map fun _ => true

theorem emitBb_adds {fullJit : Bool} {ib : JitBb} {c : Chunk}
    (h : ∀ ii ∈ ib.instrs, isJumptable ii = false) (hemit : emitBb u bbs fullJit ib next = .ok c) :
    Counted (size ib) c.items := by
  have hstub : Adds (9 * size ib) (4 * size ib) (jitEmitStub ib) := by
    unfold size
    exact (jitEmitStub_adds ib).mono (by omega) (by omega)
  have hempty : wordsIn c.items ≤ wordsIn [] + 9 * size ib ∧
      (literals c.items).length ≤ (literals []).length + 4 * size ib →
      Counted (size ib) c.items := by
    change _ ≤ 0 + _ ∧ _ ≤ 0 + _ → _
    rw [Nat.zero_add, Nat.zero_add]
    exact id
  unfold emitBb at hemit
  split_ifs at hemit
  · exact hempty (jitEmit_adds u bbs next h [] c.pushPool c.items (chunkOf_ok hemit))
  · exact hempty (hstub [] c.pushPool c.items (chunkOf_ok hemit))
  · cases hemit
    exact counted_nil _


end
end

/-! ## Rows of blocks -/

/-- The sizes of the rows of blocks that may run into one another, behind a row of size `n`. -/
def rowsFrom (n : ℕ) : List JitBb → List ℕ
  | [] => [n]
  | ib :: rest =>
    if runsOn ib then rowsFrom (n + size ib) rest else n :: rowsFrom (size ib) rest

theorem rowsFrom_grows (bbs : List JitBb) : ∀ n, ∃ m ∈ rowsFrom n bbs, n ≤ m := by
  induction bbs with
  | nil => exact fun n => ⟨n, List.mem_singleton_self n, Nat.le_refl n⟩
  | cons ib rest ih =>
    intro n
    unfold rowsFrom
    split_ifs
    · obtain ⟨m, hm, hle⟩ := ih (n + size ib)
      exact ⟨m, hm, by omega⟩
    · exact ⟨n, List.mem_cons_self, Nat.le_refl n⟩

section
variable {u : JitUnit} {fullJit : Bool} {N : ℕ}

theorem stretches_counted {bbs : List JitBb} (rest : List JitBb) :
    ∀ {chunks : List Chunk} {items : List Item} {n : ℕ}, emitBbs u bbs fullJit rest = .ok chunks →
      (∀ ib ∈ rest, ∀ ii ∈ ib.instrs, isJumptable ii = false) → (∀ m ∈ rowsFrom n rest, m ≤ N) →
      Counted n items → (items = [] ∨ ∃ ib, rest.head? = some ib ∧ runsOn ib = true) →
      ∀ S ∈ stretchesFrom items chunks, Counted N S := by
  induction rest with
  | nil =>
    intro chunks items n hemit _ hrows hitems _ S hS
    cases hemit
    rw [List.mem_singleton.mp hS]
    exact hitems.mono (hrows n (List.mem_singleton_self n))
  | cons ib rest ih =>
    intro chunks items n hemit htable hrows hitems hpending S hS
    unfold emitBbs at hemit
    obtain ⟨c, hc, hemit⟩ := ProgramText.bind_ok.mp hemit
    obtain ⟨cs, hcs, hemit⟩ := ProgramText.bind_ok.mp hemit
    cases hemit
    have hcounted := emitBb_adds u bbs rest.head? (htable ib List.mem_cons_self) hc
    have htable' : ∀ ib ∈ rest, ∀ ii ∈ ib.instrs, isJumptable ii = false :=
      fun ib hib => htable ib (List.mem_cons_of_mem _ hib)
    -- the row that the block belongs to, with the items that wait in front of it
    obtain ⟨k, hrow, hitems'⟩ : ∃ k, (∀ m ∈ rowsFrom k rest, m ≤ N) ∧
        Counted k (items ++ c.items) := by
      unfold rowsFrom at hrows
      split_ifs at hrows with hon
      · exact ⟨_, hrows, hitems.append hcounted⟩
      · rcases hpending with rfl | ⟨ib', hib', hon'⟩
        · exact ⟨_, fun m hm => hrows m (List.mem_cons_of_mem _ hm), hcounted⟩
        · cases hib'
          exact absurd hon' hon
    unfold stretchesFrom at hS
    rcases emitBb_ends hc with (⟨hpush, _⟩ | ⟨hpush, hnext⟩) | ⟨hpush, hnone, hjit⟩
    · rw [if_pos hpush] at hS
      rcases List.mem_cons.mp hS with rfl | hS
      · obtain ⟨m, hm, hle⟩ := rowsFrom_grows rest k
        exact hitems'.mono (hle.trans (hrow m hm))
      · exact ih hcs htable' hrow (counted_nil k) (.inl rfl) S hS
    · rw [hpush, if_neg Bool.false_ne_true] at hS
      exact ih hcs htable' hrow hitems' (.inr hnext) S hS
    · rw [hpush, if_neg Bool.false_ne_true] at hS
      rcases hpending with rfl | ⟨ib', hib', hon⟩
      · exact ih hcs htable' hrow hitems' (.inl hnone) S hS
      · cases hib'
        rw [runsOn, hjit] at hon
        cases hon

/-- Rows of up to 64 instructions and blocks never reach the bounds of the pool. -/
theorem short_of_counted {start : ℕ} {S : List Item} (h : Counted 64 S) : Short start S := by
  intro p hp
  obtain ⟨e, k⟩ := p
  rw [List.mem_zipIdx_iff_getElem?] at hp
  have hk := (List.getElem?_eq_some_iff.mp hp).1
  have hwords := h.1
  have hloads := h.2
  constructor
  · intro _
    change k < 256
    omega
  · intro _
    change wordsIn S + k ≤ e.instr + 1025
    omega

/-- Without tables of jumps, the bounds of the pool are kept where the blocks that run into one
another are few and small. -/
theorem poolHolds_of_rows {bbs : List JitBb} {chunks : List Chunk} (s : Jit)
    (hemit : vmEmitFunction u bbs fullJit = .ok chunks)
    (htable : ∀ ib ∈ bbs, ∀ ii ∈ ib.instrs, isJumptable ii = false)
    (hrows : ∀ n ∈ rowsFrom 0 bbs, n ≤ 64) : PoolHolds s chunks := by
  apply poolHolds_of_short s hemit
  intro p hp
  apply short_of_counted
  exact stretches_counted bbs hemit htable hrows (counted_nil 0) (.inl rfl) p.2
    (layoutFrom_mem _ hp)

end
end Vmir.LiteralPoolRows
