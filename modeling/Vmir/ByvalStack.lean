import Vmir.BranchCorrect
import Vmir.CallReturns
import Vmir.PrepareCall
import Mathlib.Algebra.BigOperators.Group.List.Basic
import Mathlib.Data.BitVec

set_option autoImplicit false

/-!
# Copies of arguments on the stack

An aggregate that is passed by value is copied to the stack in front of the call. The stack is shrunk
behind the call by the sizes of the copies.
-/
namespace Vmir.ByvalStack
open ByteStore CodePieces RegisterProgram Ir VmOps VmControl IrTypes ProgramText EmitMove EmitBranch
open EmitCmp BranchFixup BranchPieces EmitFunction BranchCorrect PrepareCall VmCalls CallForms
open CallReturns

/-! ## Emission -/

def emitStackcopy (iu : IrUnit) (t : Text) (ret value : ValueType) (size : BitVec 32) :
    Except Fault Text := do
  let ret ← valueGet iu ret.value
  let src ← valueGet iu value.value
  let ty ← typeGet iu value.type
  match src.cls, legalizeType ty with
  | .globalvar _, .pointer | .constant _, .pointer =>
    let t ← emitOp1 t .stackcopyc (← valueReg ret)
    let t ← emitI32 t (← valueGetConst32 iu src)
    emitI32 t size
  | .regframe reg, .pointer =>
    let t ← emitOp2 t .stackcopyr (← valueReg ret) reg
    emitI32 t size
  | _, _ => throw (.parserError "Can't stackcopy from %s class %d")

def emitStackshrink (t : Text) (size : BitVec 32) : Except Fault Text := do
  let t ← emitOp t .stackshrink
  emitI32 t size

def emitArg (iu : IrUnit) (t : Text) (i : ArgInstr) : Except Fault Text :=
  match i with
  | .stackcopy ret value size => emitStackcopy iu t ret value size
  | .move rets value => emitMove iu t rets value

/-! ## Code that goes straight on -/

/-- The code leads from its start to its end and does `g` to the allocation pointer. -/
def Moves (cells : List Cell) (g : BitVec 32 → BitVec 32) : Prop :=
  ∀ (env : Env) (m : Machine) (a : Activation) (cs : List Caller),
    CodeAt (plainText (textOf m a)) a.pc (plainText cells) →
    ∃ m', Reaches (execStep env) (.running m a cs)
        (.running m' { a with pc := a.pc + cells.length } cs)
      ∧ m'.vm.allocaptr = g m.vm.allocaptr ∧ m'.vmFuncs = m.vmFuncs

theorem moves_nil : Moves [] id :=
  fun _ m _ _ _ => ⟨m, Reaches.refl _, rfl, rfl⟩

theorem Moves.append {c₁ c₂ : List Cell} {g₁ g₂ : BitVec 32 → BitVec 32} (h₁ : Moves c₁ g₁)
    (h₂ : Moves c₂ g₂) : Moves (c₁ ++ c₂) (g₂ ∘ g₁) := by
  intro env m a cs hcode
  rw [show plainText (c₁ ++ c₂) = plainText c₁ ++ plainText c₂ from List.map_append] at hcode
  obtain ⟨m₁, hrun₁, hptr₁, hfuncs₁⟩ := h₁ env m a cs hcode.left
  have hright := hcode.right
  rw [show (plainText c₁).length = c₁.length from List.length_map _] at hright
  have htext : textOf m₁ { a with pc := a.pc + c₁.length } = textOf m a := by
    rw [textOf, textOf, hfuncs₁]
  obtain ⟨m₂, hrun₂, hptr₂, hfuncs₂⟩ := h₂ env m₁ { a with pc := a.pc + c₁.length } cs
    (by rw [htext]; exact hright)
  refine ⟨m₂, ?_, ?_, hfuncs₂.trans hfuncs₁⟩
  · rw [List.length_append, ← Nat.add_assoc]
    exact hrun₁.trans hrun₂
  · rw [hptr₂, hptr₁]
    rfl

theorem plainCell_of_straight {c : Cell} {op : Op} (h : plainCell c = .op (.straight op)) :
    c = .op (.straight op) := by
  cases c with
  | half v => cases h
  | op o =>
    cases o with
    | straight op' => exact h
    | control o => cases h
    | call o => cases h
    | leave o => cases h

theorem plainText_code (op : Op) (args : List (BitVec 16)) :
    plainText (code op args) = code op args := by
  rw [plainText, code, List.map_cons, List.map_map]
  rfl

theorem codeAt_of_plain {t : Text} {pos : ℕ} {op : Op} {args : List (BitVec 16)}
    (h : CodeAt (plainText t) pos (code op args)) :
    t[pos]? = some (.op (.straight op))
      ∧ ∀ i < args.length, unitsAt t (pos + 1) i = operands args i := by
  constructor
  · have hhead := h.head
    rw [getElem?_plainText] at hhead
    obtain ⟨c, hc, hplain⟩ := Option.map_eq_some_iff.mp hhead
    rw [hc, plainCell_of_straight hplain]
  · intro i hi
    rw [← unitsAt_plainText]
    exact unitsAt_code h i hi

theorem moves_code {op : Op} {args : List (BitVec 16)} {g : BitVec 32 → BitVec 32}
    (hlen : args.length = skip op)
    (hexec : ∀ h f vm, ∃ r, exec (body h op (operands args)) f vm = some r
      ∧ r.2.allocaptr = g vm.allocaptr) : Moves (code op args) g := by
  intro env m a cs hcode
  rw [plainText_code] at hcode
  obtain ⟨hcell, hunits⟩ := codeAt_of_plain hcode
  obtain ⟨r, hr, hptr⟩ := hexec (hostAt env a) (frameAt a.rf m.registers) m.vm
  have hbody : body (hostAt env a) op (unitsAt (textOf m a) (a.pc + 1))
      = body (hostAt env a) op (operands args) :=
    body_congr _ op fun i hi => hunits i (hlen ▸ hi)
  refine ⟨⟨m.vmFuncs, storeFrame a.rf r.1, r.2⟩, Reaches.single ?_, hptr, rfl⟩
  simp only [execStep, hcell]
  rw [ProgramText.step]
  simp only [hcell, hbody, hr, Option.map_some]
  rw [code, List.length_cons, List.length_map, hlen, Nat.add_assoc, Nat.add_comm 1]

theorem moves_padding (t : Text) (immAtOdd : Bool) : Moves (padding t immAtOdd) id := by
  unfold padding
  split
  · exact moves_code rfl fun h f vm => ⟨(f, vm), rfl, rfl⟩
  · exact moves_nil

/-! ## What is emitted in front of the call -/

theorem emitMove_moves {iu : IrUnit} {t t' : Text} {rets : List ValueType} {value : ValueType}
    (h : emitMove iu t rets value = .ok t') : ∃ cells, t' = t ++ cells ∧ Moves cells id := by
  obtain ⟨src, -, h⟩ := bind_ok.mp h
  obtain ⟨⟨retreg, typecode⟩, -, h⟩ := bind_ok.mp h
  have hset32 (us : List (BitVec 16)) {op : Op} {v : Units → BitVec 32}
      (hskip : skip op = 1 + us.length)
      (hbody : ∀ h I, body h op I = .wr32 (reg I 0) (v I) .done)
      {t₁ : Text} (h₁ : emitOp1 t op retreg = .ok t₁) (h : emit t₁ (us.map .half) = .ok t') :
      ∃ cells, t' = t ++ cells ∧ Moves cells id := by
    rw [emitOp1_eq] at h₁
    refine ⟨code op ([retreg.setWidth 16] ++ us), ?_, moves_code ?_ fun h f vm => ?_⟩
    · rw [emit_ok h, emit_ok h₁, List.append_assoc, code_append]
    · rw [List.length_append, hskip]
      rfl
    · exact ⟨(write32 f _ _, vm), by rw [hbody]; rfl, rfl⟩
  have hcopy {op : Op} {reg : BitVec 32} (hskip : skip op = 2)
      (hexec : ∀ h I f vm, ∃ f', exec (body h op I) f vm = some (f', vm))
      (h : emitOp2 t op retreg reg = .ok t') : ∃ cells, t' = t ++ cells ∧ Moves cells id := by
    rw [emitOp2_eq] at h
    refine ⟨_, emit_ok h, moves_code hskip.symm fun h f vm => ?_⟩
    obtain ⟨f', hf'⟩ := hexec h (operands [retreg.setWidth 16, reg.setWidth 16]) f vm
    exact ⟨(f', vm), hf', rfl⟩
  have hset64 {v : BitVec 64} (h : (vmAlign32 t false >>= fun t => emitOp1 t .mov64C retreg >>=
      fun t => emitI64 t v) = .ok t') : ∃ cells, t' = t ++ cells ∧ Moves cells id := by
    have hemit (t : Text) : (emitOp1 t .mov64C retreg >>= fun t => emitI64 t v)
        = emit t (code .mov64C ([retreg.setWidth 16] ++ units64 v)) := by
      rw [emitOp1_eq]
      exact emit_units t _ _ _
    simp only [hemit] at h
    rw [vmAlign32_bind] at h
    refine ⟨_, emit_ok h, ?_⟩
    change Moves _ (id ∘ id)
    exact (moves_padding t false).append (moves_code rfl fun h f vm => ⟨_, rfl, rfl⟩)
  simp only at h
  split at h
  case h_1 =>
    obtain ⟨t₁, h₁, h⟩ := bind_ok.mp h
    obtain ⟨c, -, h⟩ := bind_ok.mp h
    exact hset32 [iu.textAlloc t₁.length ++ _] rfl (fun _ _ => rfl) h₁ h
  case h_2 =>
    obtain ⟨t₁, h₁, h⟩ := bind_ok.mp h
    obtain ⟨c, -, h⟩ := bind_ok.mp h
    exact hset32 [_] rfl (fun _ _ => rfl) h₁ h
  case h_3 | h_4 | h_5 | h_6 | h_9 =>
    obtain ⟨t₁, h₁, h⟩ := bind_ok.mp h
    obtain ⟨c, -, h⟩ := bind_ok.mp h
    exact hset32 (units32 c) rfl (fun _ _ => rfl) h₁ h
  case h_7 | h_8 =>
    obtain ⟨t₁, h₁, h⟩ := bind_ok.mp h
    obtain ⟨t₂, h₂, h⟩ := bind_ok.mp h
    obtain ⟨c, -, h⟩ := bind_ok.mp h
    exact hset64 (bind_ok.mpr ⟨t₁, h₁, bind_ok.mpr ⟨t₂, h₂, h⟩⟩)
  case h_10 | h_11 | h_12 | h_13 | h_14 | h_15 =>
    exact hcopy rfl (fun h I f vm => ⟨_, rfl⟩) h
  case h_16 | h_17 => exact hcopy rfl (fun h I f vm => ⟨_, rfl⟩) h
  case h_18 | h_19 =>
    obtain ⟨t₁, h₁, h⟩ := bind_ok.mp h
    exact hset32 (units32 _) rfl (fun _ _ => rfl) h₁ h
  case h_20 => cases h

/-- `STACKCOPYR` and `STACKCOPYC` align the pointer first. -/
def copied (size p : BitVec 32) : BitVec 32 := vmirAlign p 4 + size

theorem emitStackcopy_moves {iu : IrUnit} {t t' : Text} {ret value : ValueType} {size : BitVec 32}
    (h : emitStackcopy iu t ret value size = .ok t') :
    ∃ cells, t' = t ++ cells ∧ Moves cells (copied size) ∧ 0 < cells.length := by
  obtain ⟨retV, -, h⟩ := bind_ok.mp h
  obtain ⟨src, -, h⟩ := bind_ok.mp h
  obtain ⟨ty, -, h⟩ := bind_ok.mp h
  have hcopyc (h : (do
      let t ← emitOp1 t .stackcopyc (← valueReg retV)
      let t ← emitI32 t (← valueGetConst32 iu src)
      emitI32 t size) = .ok t') :
      ∃ cells, t' = t ++ cells ∧ Moves cells (copied size) ∧ 0 < cells.length := by
    obtain ⟨reg, -, h⟩ := bind_ok.mp h
    obtain ⟨t₁, h₁, h⟩ := bind_ok.mp h
    obtain ⟨addr, -, h⟩ := bind_ok.mp h
    obtain ⟨t₂, h₂, h⟩ := bind_ok.mp h
    rw [emitOp1_eq] at h₁
    refine ⟨code .stackcopyc ([reg.setWidth 16] ++ units32 addr ++ units32 size), ?_,
      moves_code rfl fun h f vm => ⟨_, rfl, ?_⟩, Nat.succ_pos _⟩
    · rw [emit_ok h, emit_ok h₂, emit_ok h₁, ← code_append, ← code_append, ← List.append_assoc,
        ← List.append_assoc]
    · exact congrArg (vmirAlign vm.allocaptr 4 + ·) (imm32_last ([_] ++ units32 addr) size)
  simp only at h
  split at h
  · exact hcopyc h
  · exact hcopyc h
  · next reg _ _ =>
    obtain ⟨d, -, h⟩ := bind_ok.mp h
    obtain ⟨t₁, h₁, h⟩ := bind_ok.mp h
    rw [emitOp2_eq] at h₁
    refine ⟨code .stackcopyr ([d.setWidth 16, reg.setWidth 16] ++ units32 size), ?_,
      moves_code rfl fun h f vm => ⟨_, rfl, ?_⟩, Nat.succ_pos _⟩
    · rw [emit_ok h, emit_ok h₁, List.append_assoc, code_append]
    · exact congrArg (vmirAlign vm.allocaptr 4 + ·) (imm32_last [_, _] size)
  · cases h

def copySizes (is : List ArgInstr) : List (BitVec 32) :=
  is.filterMap fun i =>
    match i with
    | .stackcopy _ _ size => some size
    | .move _ _ => none

/-- The allocation pointer behind the copies. -/
def stackAfter (p : BitVec 32) (sizes : List (BitVec 32)) : BitVec 32 :=
  sizes.foldl (fun p size => copied size p) p

theorem emitArgs_moves {iu : IrUnit} {t t' : Text} {is : List ArgInstr}
    (h : is.foldlM (emitArg iu) t = .ok t') :
    ∃ cells, t' = t ++ cells ∧ Moves cells (fun p => stackAfter p (copySizes is))
      ∧ (copySizes is).length ≤ cells.length := by
  induction is generalizing t with
  | nil => exact ⟨[], by rw [List.append_nil, Except.ok.inj h], moves_nil, Nat.le_refl 0⟩
  | cons i is ih =>
    rw [List.foldlM_cons] at h
    obtain ⟨t₁, h₁, h⟩ := bind_ok.mp h
    obtain ⟨rest, rfl, hrest, hlen⟩ := ih h
    cases i with
    | move rets value =>
      obtain ⟨cells, rfl, hcells⟩ := emitMove_moves h₁
      refine ⟨cells ++ rest, by rw [List.append_assoc], hcells.append hrest, ?_⟩
      rw [List.length_append]
      exact hlen.trans (Nat.le_add_left _ _)
    | stackcopy ret value size =>
      obtain ⟨cells, rfl, hcells, hpos⟩ := emitStackcopy_moves h₁
      refine ⟨cells ++ rest, by rw [List.append_assoc], hcells.append hrest, ?_⟩
      rw [List.length_append]
      change (copySizes is).length + 1 ≤ _
      omega

/-! ## Padding -/

def padTo (p : BitVec 32) : ℕ := (4 - p.toNat % 4) % 4

theorem and_not_three (x : BitVec 32) : x &&& ~~~3#32 = x >>> 2 <<< 2 := by
  ext i hi
  have hbit : (~~~3#32)[i] = decide (2 ≤ i) := by
    revert i
    decide
  rw [BitVec.getElem_and, hbit, BitVec.getElem_shiftLeft]
  by_cases h : i < 2
  · simp [h]
  · simp [h, show 2 ≤ i by omega, BitVec.getLsbD_eq_getElem hi]

theorem vmirAlign_four (p : BitVec 32) : vmirAlign p 4 = p + BitVec.ofNat 32 (padTo p) := by
  have hshift : vmirAlign p 4 = (p + 3#32) >>> 2 <<< 2 := by
    rw [← and_not_three, vmirAlign]
    congr 1
    bv_omega
  apply BitVec.eq_of_toNat_eq
  rw [hshift, padTo, BitVec.toNat_shiftLeft, BitVec.toNat_ushiftRight, BitVec.toNat_add,
    BitVec.toNat_add, BitVec.toNat_ofNat, BitVec.toNat_ofNat, Nat.shiftLeft_eq,
    Nat.shiftRight_eq_div_pow]
  have := p.isLt
  omega

def padSum (p : BitVec 32) (sizes : List (BitVec 32)) : ℕ :=
  match sizes with
  | [] => 0
  | size :: sizes => padTo p + padSum (copied size p) sizes

theorem stackAfter_eq (p : BitVec 32) (sizes : List (BitVec 32)) :
    stackAfter p sizes = p + BitVec.ofNat 32 (padSum p sizes) + sizes.sum := by
  induction sizes generalizing p with
  | nil => simp [stackAfter, padSum]
  | cons size sizes ih =>
    have hcopied : copied size p = p + BitVec.ofNat 32 (padTo p) + size := by
      rw [copied, vmirAlign_four]
    rw [stackAfter, List.foldl_cons]
    refine (ih (copied size p)).trans ?_
    rw [padSum, List.sum_cons, BitVec.ofNat_add, hcopied]
    generalize BitVec.ofNat 32 (padTo p) = x
    generalize BitVec.ofNat 32 (padSum _ sizes) = y
    generalize sizes.sum = z
    bv_omega

theorem padSum_le (p : BitVec 32) (sizes : List (BitVec 32)) : padSum p sizes ≤ 3 * sizes.length := by
  induction sizes generalizing p with
  | nil => exact Nat.le_refl 0
  | cons size sizes ih =>
    have hrest := ih (copied size p)
    rw [padSum, padTo, List.length_cons]
    omega

/-- The pointer is aligned in front of every copy. -/
def Tight (p : BitVec 32) (sizes : List (BitVec 32)) : Prop :=
  sizes ≠ [] → p.toNat % 4 = 0 ∧ ∀ size ∈ sizes.dropLast, size.toNat % 4 = 0

theorem padSum_eq_zero (p : BitVec 32) (sizes : List (BitVec 32)) :
    padSum p sizes = 0 ↔ Tight p sizes := by
  induction sizes generalizing p with
  | nil => exact ⟨fun _ h => absurd rfl h, fun _ => rfl⟩
  | cons size sizes ih =>
    have haligned : padTo p = 0 ↔ p.toNat % 4 = 0 := by
      rw [padTo]
      omega
    have hnext (h : p.toNat % 4 = 0) : (copied size p).toNat % 4 = 0 ↔ size.toNat % 4 = 0 := by
      rw [copied, vmirAlign_four, haligned.mpr h, BitVec.toNat_add, BitVec.toNat_add]
      simp only [BitVec.toNat_ofNat]
      omega
    rw [padSum, Nat.add_eq_zero_iff, ih, haligned]
    unfold Tight
    cases sizes with
    | nil => simp
    | cons size' sizes =>
      rw [List.dropLast_cons_of_ne_nil (List.cons_ne_nil _ _)]
      simp only [ne_eq, List.cons_ne_nil, not_false_iff, true_implies, List.forall_mem_cons]
      constructor
      · rintro ⟨hp, hsize, hrest⟩
        exact ⟨hp, (hnext hp).mp hsize, hrest⟩
      · rintro ⟨hp, hsize, hrest⟩
        exact ⟨hp, (hnext hp).mpr hsize, hrest⟩

theorem prepareArgs_copies {iu : IrUnit} {callArgBase callargtype totalSlots total : ℕ}
    {growth growth' : BitVec 32} {argv : List CallArg} {is : List ArgInstr}
    (h : prepareArgs iu callArgBase callargtype totalSlots growth argv = .ok (is, total, growth')) :
    copySizes is = (argv.map CallArg.copySize).filter (· ≠ 0)
      ∧ growth' = growth + (copySizes is).sum := by
  induction argv generalizing totalSlots growth is with
  | nil =>
    obtain ⟨rfl, rfl, rfl⟩ : [] = is ∧ totalSlots = total ∧ growth = growth' := by
      simpa [prepareArgs] using h
    exact ⟨rfl, (BitVec.add_zero _).symm⟩
  | cons a argv ih =>
    obtain ⟨slots, -, h⟩ := bind_ok.mp h
    obtain ⟨instr, hinstr, h⟩ := bind_ok.mp h
    obtain ⟨⟨rest, total', growth''⟩, hrest, h⟩ := bind_ok.mp h
    obtain ⟨rfl, rfl, rfl⟩ : instr :: rest = is ∧ total' = total ∧ growth'' = growth' := by
      simpa [pure, Except.pure] using h
    obtain ⟨hsizes, hgrowth⟩ := ih hrest
    rw [List.map_cons, List.filter_cons]
    unfold prepareArg at hinstr
    by_cases hcopy : a.copySize = 0
    · rw [if_neg (not_not.mpr hcopy)] at hinstr
      have hmove : copySizes (instr :: rest) = copySizes rest := by
        split at hinstr
        · rw [← Except.ok.inj hinstr]
          rfl
        · rw [← Except.ok.inj hinstr]
          rfl
      rw [hmove, if_neg (by simp [hcopy]), hgrowth, hcopy,
        show growth + 0 = growth from BitVec.add_zero growth]
      exact ⟨hsizes, rfl⟩
    · rw [if_pos hcopy] at hinstr
      split at hinstr
      · obtain rfl := Except.ok.inj hinstr
        have hcons : ∀ ret value, copySizes (.stackcopy ret value a.copySize :: rest)
            = a.copySize :: copySizes rest := fun _ _ => rfl
        rw [hcons, if_pos (decide_eq_true hcopy), hsizes, hgrowth, hsizes, List.sum_cons,
          BitVec.add_assoc]
        exact ⟨rfl, rfl⟩
      · cases hinstr

/-! ## The call in its block -/

def argEmitter (iu : IrUnit) (i : ArgInstr) : StraightEmitter where
  emit t := emitArg iu t i
  appends := by
    intro t t' h
    cases i with
    | move rets value =>
      obtain ⟨cells, ht, -⟩ := emitMove_moves h
      exact ⟨cells, ht⟩
    | stackcopy ret value size =>
      obtain ⟨cells, ht, -⟩ := emitStackcopy_moves h
      exact ⟨cells, ht⟩

theorem emitCall_code {iu : IrUnit} {extFunc : BitVec 32 → Bool} {t t' : Text}
    {rfOffset : BitVec 32} {ret : Option ValueType} {callee : ValueType}
    (h : emitCall iu extFunc t rfOffset ret callee = .ok t') :
    ∃ (o : CallOp) (args : List (BitVec 16)), t' = t ++ .op (.call o) :: args.map .half
      ∧ args.length = 3 ∧ isJsr o = true
      ∧ 2 * t'.length < textAllocMemsize := by
  obtain ⟨retReg, -, h⟩ := bind_ok.mp h
  have hlt {cs : List Cell} (h : emit t cs = .ok t') : 2 * t'.length < textAllocMemsize := by
    rw [emit_ok h, List.length_append]
    unfold emit at h
    split at h
    · cases h
    · omega
  cases hfunc : valueFunction iu callee.value with
  | some gfid =>
    simp only [hfunc] at h
    refine ⟨_, _, emit_ok h, rfl, ?_, hlt h⟩
    split <;> rfl
  | none =>
    simp only [hfunc] at h
    obtain ⟨iv, -, h⟩ := bind_ok.mp h
    split at h
    · exact ⟨_, _, emit_ok h, rfl, rfl, hlt h⟩
    · cases h

def callEmitter (iu : IrUnit) (extFunc : BitVec 32 → Bool) (rfOffset : BitVec 32)
    (ret : Option ValueType) (callee : ValueType) : StraightEmitter where
  emit t := emitCall iu extFunc t rfOffset ret callee
  appends := by
    intro t t' h
    obtain ⟨o, args, ht, -⟩ := emitCall_code h
    exact ⟨_, ht⟩

theorem emitStackshrink_code {t t' : Text} {size : BitVec 32} (h : emitStackshrink t size = .ok t') :
    t' = t ++ code .stackshrink (units32 size) := by
  obtain ⟨t₁, h₁, h⟩ := bind_ok.mp h
  rw [emit_ok h, emit_ok h₁, List.append_assoc]
  rfl

def shrinkEmitter (size : BitVec 32) : StraightEmitter where
  emit t := emitStackshrink t size
  appends h := ⟨_, emitStackshrink_code h⟩

inductive CallKind
  | call
  | invoke (normalDest unwindDest : ℕ)

def CallKind.instr (iu : IrUnit) (extFunc : BitVec 32 → Bool) (regframeSize : BitVec 32)
    (k : CallKind) (ret : Option ValueType) (callee : ValueType) : EmitFunction.Instr :=
  match k with
  | .call => .straight (callEmitter iu extFunc regframeSize ret callee)
  | .invoke normalDest unwindDest => .invoke ret callee normalDest unwindDest

/-- The call or invoke, with what `prepare_call` put in front of it and behind it. -/
def callInstrs (iu : IrUnit) (extFunc : BitVec 32 → Bool) (regframeSize : BitVec 32)
    (p : PreparedCall) (k : CallKind) (ret : Option ValueType) (callee : ValueType) :
    List EmitFunction.Instr :=
  p.before.map (fun i => .straight (argEmitter iu i))
    ++ k.instr iu extFunc regframeSize ret callee
    :: p.stackshrink.toList.map fun size => .straight (shrinkEmitter size)

section
variable {iu : IrUnit} {extFunc : BitVec 32 → Bool} {f : Function} {next : Option ℕ}
variable {e e' : Emission}

theorem emitStraight {s : StraightEmitter} (h : emitInstr iu extFunc f next e (.straight s) = .ok e') :
    ∃ t, s.emit e.text = .ok t ∧ e' = ⟨t, e.branchFixups⟩ := by
  obtain ⟨t, ht, h⟩ := bind_ok.mp h
  exact ⟨t, ht, (Except.ok.inj h).symm⟩

theorem emitArgs_text {is : List ArgInstr}
    (h : emitInstrs iu extFunc f next e (is.map fun i => .straight (argEmitter iu i)) = .ok e') :
    ∃ t, is.foldlM (emitArg iu) e.text = .ok t ∧ e' = ⟨t, e.branchFixups⟩ := by
  induction is generalizing e with
  | nil => exact ⟨e.text, rfl, (Except.ok.inj h).symm⟩
  | cons i is ih =>
    rw [List.map_cons, emitInstrs, List.foldlM_cons] at h
    obtain ⟨e₁, h₁, h⟩ := bind_ok.mp h
    obtain ⟨t₁, ht₁, rfl⟩ := emitStraight h₁
    obtain ⟨t, ht, he'⟩ := ih h
    refine ⟨t, ?_, he'⟩
    rw [List.foldlM_cons, show emitArg iu e.text i = .ok t₁ from ht₁, ok_bind]
    exact ht

theorem emitInvoke_piece {rfOffset : BitVec 32} {ret : Option ValueType} {callee : ValueType}
    {normalDest unwindDest : ℕ}
    (h : emitInvoke iu extFunc e rfOffset ret callee normalDest unwindDest = .ok e') :
    ∃ o args js hslots hlt, e' = extend e [.branching (.call o) args js hslots hlt]
      ∧ isJsr o = false ∧ 2 * e'.text.length < textAllocMemsize := by
  have hfixup {o : CallOp} {args : List (BitVec 16)} (js : List ℕ)
      (hslots : ∀ I : Units, (∀ i < args.length, I i = operands args i) →
        slots (.call o) I = .ok js) (hlt : ∀ j ∈ js, j < args.length) (ho : isJsr o = false)
      (h : emitFixup e (.call o) args = .ok e') :
      ∃ o args js hslots hlt, e' = extend e [.branching (.call o) args js hslots hlt]
        ∧ isJsr o = false ∧ 2 * e'.text.length < textAllocMemsize := by
    refine ⟨o, args, js, hslots, hlt, (emitFixup_emits e hslots hlt).eq h, ho, ?_⟩
    obtain ⟨t, ht, h⟩ := bind_ok.mp h
    rw [← Except.ok.inj h]
    simp only
    rw [emit_ok ht, List.length_append]
    unfold emit at ht
    split at ht
    · cases ht
    · omega
  obtain ⟨retReg, -, h⟩ := bind_ok.mp h
  simp only at h
  split at h
  · next gfid hgfid =>
    cases hext : extFunc gfid with
    | true =>
      rw [hext] at h
      exact hfixup [3, 4] (fun _ _ => rfl) (by simp) rfl h
    | false =>
      rw [hext] at h
      exact hfixup [3, 4] (fun _ _ => rfl) (by simp) rfl h
  · obtain ⟨iv, -, h⟩ := bind_ok.mp h
    split at h
    · exact hfixup [3, 4] (fun _ _ => rfl) (by simp) rfl h
    · cases h

theorem codeAt_piece {s : Emitted} {T : Text} {ps qs : List Piece} {q : Piece}
    (h : s.emission = extend start.emission (ps ++ q :: qs))
    (hT : branchFixup (layoutOf s) s.emission.branchFixups s.emission.text = .ok T) :
    ∃ cells, q.resolve (layoutOf s) (codeOf ps).length = .ok cells
      ∧ CodeAt T (codeOf ps).length cells := by
  rw [branchFixup_whole h] at hT
  obtain ⟨cells, hcells, hat⟩ := resolveAll_at hT
  rw [Nat.zero_add] at hcells
  exact ⟨cells, hcells, hat⟩

theorem codeAt_plainText {t : Text} {pos : ℕ} {cells : List Cell} (h : CodeAt t pos cells) :
    CodeAt (plainText t) pos (plainText cells) := by
  intro i hi
  rw [plainText, List.length_map] at hi
  rw [getElem?_plainText, getElem?_plainText, h i hi]

theorem callInstrs_code {p : PreparedCall} {k : CallKind} {ret : Option ValueType}
    {callee : ValueType} {s : Emitted} {T : Text}
    (h : vmEmitFunction iu extFunc f = .ok (s, T))
    (hsite : Sites iu extFunc f next e (callInstrs iu extFunc f.regframeSize p k ret callee)) :
    ∃ e' before behind o,
      emitInstrs iu extFunc f next e (callInstrs iu extFunc f.regframeSize p k ret callee) = .ok e'
      ∧ CodeAt T e.text.length before ∧ Moves before (fun x => stackAfter x (copySizes p.before))
      ∧ (copySizes p.before).length < textAllocMemsize
      ∧ T[e.text.length + before.length]? = some (.op (.call o))
      ∧ (isJsr o ↔ k = .call)
      ∧ (k = .call → CodeAt T (e.text.length + before.length + 4) behind
        ∧ Moves behind (fun x => match p.stackshrink with | some size => x - size | none => x)
        ∧ e'.text.length = e.text.length + before.length + 4 + behind.length) := by
  obtain ⟨s', hs, h⟩ := bind_ok.mp h
  obtain ⟨T', hT, h⟩ := bind_ok.mp h
  obtain ⟨rfl, rfl⟩ := Prod.mk.inj (Except.ok.inj h)
  obtain ⟨ps, e', qs, hps, he', hqs⟩ := hsite.pieces hs
  have hall := he'
  rw [callInstrs, emitInstrs_append] at he'
  obtain ⟨e₁, he₁, he'⟩ := bind_ok.mp he'
  rw [emitInstrs, List.foldlM_cons] at he'
  obtain ⟨e₂, he₂, he'⟩ := bind_ok.mp he'
  obtain ⟨t₁, ht₁, he₁⟩ := emitArgs_text he₁
  obtain ⟨before, rfl, hbefore, hcount⟩ := emitArgs_moves ht₁
  rw [plain_eq] at he₁
  -- What stands behind the call, in either case.
  obtain ⟨behind, hbehind, hshrink⟩ : ∃ behind, e' = extend e₂ [.plain behind]
      ∧ Moves behind (fun x => match p.stackshrink with | some size => x - size | none => x) := by
    cases hsize : p.stackshrink with
    | none =>
      rw [hsize] at he'
      exact ⟨[], by rw [← Except.ok.inj he']; exact (extend_nil e₂).symm, moves_nil⟩
    | some size =>
      rw [hsize, Option.toList_some, List.map_singleton, List.foldlM_cons] at he'
      obtain ⟨e₃, he₃, he'⟩ := bind_ok.mp he'
      obtain ⟨t₃, ht₃, rfl⟩ := emitStraight he₃
      obtain rfl := emitStackshrink_code ht₃
      refine ⟨code .stackshrink (units32 size), ?_, moves_code rfl fun h f vm => ⟨_, rfl, ?_⟩⟩
      · rw [← Except.ok.inj he', plain_eq]
      · exact congrArg (vm.allocaptr - ·) (imm32_last [] size)
  have hpos : (BranchFixup.codeOf ps).length = e.text.length := by
    rw [hps]
    rfl
  have hwhole (q : Piece) (hq : e₂ = extend e₁ [q]) : s'.emission
      = extend start.emission (ps ++ .plain before :: q :: .plain behind :: qs) := by
    rw [hqs, hbehind, hq, he₁, hps]
    simp only [extend_extend, List.append_assoc, List.cons_append, List.nil_append]
  have hargs {q : Piece} (hq : e₂ = extend e₁ [q]) : CodeAt T' e.text.length before := by
    obtain ⟨cells, hcells, hat⟩ := codeAt_piece (hwhole q hq) hT
    rw [hpos] at hat
    rwa [Except.ok.inj hcells]
  have hlength : (BranchFixup.codeOf (ps ++ [.plain before])).length
      = e.text.length + before.length := by
    rw [codeOf_append, List.length_append, hpos, codeOf_cons, List.length_append]
    rfl
  have htext : e₁.text.length = e.text.length + before.length := by
    rw [he₁, ← plain_eq, List.length_append]
  have hcall {q : Piece} (hq : e₂ = extend e₁ [q]) :
      ∃ cells, q.resolve (layoutOf s') (e.text.length + before.length) = .ok cells
        ∧ CodeAt T' (e.text.length + before.length) cells := by
    have hsplit := hwhole q hq
    rw [← List.singleton_append, ← List.append_assoc] at hsplit
    obtain ⟨cells, hcells, hat⟩ := codeAt_piece hsplit hT
    rw [hlength] at hcells hat
    exact ⟨cells, hcells, hat⟩
  cases k with
  | call =>
    obtain ⟨t₂, ht₂, he₂⟩ := emitStraight he₂
    obtain ⟨o, args, rfl, hargs3, ho, hlt⟩ := emitCall_code ht₂
    have hq := he₂.trans (plain_eq e₁ (.op (.call o) :: args.map .half))
    obtain ⟨cells, hcells, hat⟩ := hcall hq
    obtain rfl := Except.ok.inj hcells
    have hbehindAt : CodeAt T' (e.text.length + before.length + 4) behind := by
      have hsplit := hwhole _ hq
      rw [show ∀ a b : Piece, ps ++ a :: b :: .plain behind :: qs
        = (ps ++ [a, b]) ++ .plain behind :: qs from fun a b => by simp] at hsplit
      obtain ⟨cells, hcells, hat⟩ := codeAt_piece hsplit hT
      have hlength' : (BranchFixup.codeOf (ps ++ [.plain before,
          .plain (.op (.call o) :: args.map .half)])).length
            = e.text.length + before.length + 4 := by
        rw [codeOf_append, List.length_append, hpos, codeOf_cons, codeOf_cons, List.length_append,
          List.length_append]
        simp only [Piece.cells, List.length_cons, List.length_map, hargs3]
        exact (Nat.add_assoc _ _ _).symm
      rw [hlength'] at hat
      rwa [Except.ok.inj hcells]
    refine ⟨e', before, behind, o, hall, hargs hq, hbefore, ?_, hat.head,
      ⟨fun _ => rfl, fun _ => ho⟩, fun _ => ⟨hbehindAt, hshrink, ?_⟩⟩
    · rw [List.length_append, htext] at hlt
      omega
    · rw [hbehind, ← plain_eq, List.length_append, he₂]
      simp only [List.length_append, htext, List.length_cons, List.length_map, hargs3]
  | invoke normalDest unwindDest =>
    obtain ⟨o, args, js, hslots, hltj, hq, ho, hlt⟩ := emitInvoke_piece he₂
    obtain ⟨cells, hcells, hat⟩ := hcall hq
    rw [Piece.resolve] at hcells
    cases hargs' : resolveArgs (layoutOf s') (e.text.length + before.length) js args with
    | error fault =>
      rw [hargs'] at hcells
      cases hcells
    | ok args' =>
      rw [hargs'] at hcells
      obtain rfl := Except.ok.inj hcells
      refine ⟨e', before, behind, o, hall, hargs hq, hbefore, ?_, hat.head, ?_, fun h => by cases h⟩
      · rw [hq, extend, List.length_append, htext] at hlt
        omega
      · rw [ho]
        exact iff_of_false Bool.false_ne_true (by simp)

/-! ## The pointer behind the call -/

/-- When the pointer is what it was: behind a call the sizes are taken off again if their sum is
positive, behind an `invoke` nothing is taken off. -/
def Balanced (k : CallKind) (p : BitVec 32) (sizes : List (BitVec 32)) : Prop :=
  match k with
  | .call =>
    if (0 : BitVec 32).slt sizes.sum then Tight p sizes
    else BitVec.ofNat 32 (padSum p sizes) + sizes.sum = 0
  | .invoke _ _ => BitVec.ofNat 32 (padSum p sizes) + sizes.sum = 0

theorem balanced_call_iff (p : BitVec 32) {sizes : List (BitVec 32)}
    (hcount : sizes.length < textAllocMemsize) :
    (match (if (0 : BitVec 32).slt sizes.sum then some sizes.sum else none : Option (BitVec 32)) with
      | some size => stackAfter p sizes - size
      | none => stackAfter p sizes) = p ↔ Balanced .call p sizes := by
  rw [stackAfter_eq, Balanced]
  by_cases hshrink : (0 : BitVec 32).slt sizes.sum
  · rw [if_pos hshrink, if_pos hshrink, ← padSum_eq_zero]
    have hle := padSum_le p sizes
    rw [textAllocMemsize] at hcount
    have hzero : BitVec.ofNat 32 (padSum p sizes) = 0 ↔ padSum p sizes = 0 := by
      constructor
      · intro h
        have hnat := congrArg BitVec.toNat h
        rw [BitVec.toNat_ofNat, Nat.mod_eq_of_lt (by omega)] at hnat
        exact hnat
      · intro h
        rw [h]
        rfl
    rw [← hzero]
    generalize BitVec.ofNat 32 (padSum p sizes) = x
    generalize sizes.sum = y
    constructor
    · intro h
      simp only at h
      bv_omega
    · intro h
      simp only
      bv_omega
  · rw [if_neg hshrink, if_neg hshrink]
    generalize BitVec.ofNat 32 (padSum p sizes) = x
    generalize sizes.sum = y
    constructor
    · intro h
      simp only at h
      bv_omega
    · intro h
      simp only
      bv_omega

theorem balanced_invoke_iff (p : BitVec 32) (sizes : List (BitVec 32)) (normalDest unwindDest : ℕ) :
    stackAfter p sizes = p ↔ Balanced (.invoke normalDest unwindDest) p sizes := by
  rw [stackAfter_eq, Balanced]
  generalize BitVec.ofNat 32 (padSum p sizes) = x
  generalize sizes.sum = y
  constructor
  · intro h
    bv_omega
  · intro h
    bv_omega

/-- The position behind the code of a call; an `invoke` goes on in another block. -/
def Behind (k : CallKind) (e' : Emission) (m m' : Machine) (a a' : Activation) : Prop :=
  match k with
  | .call => a'.pc = e'.text.length
  | .invoke _ _ => m' = m ∧ a' = a

variable {iu₀ : IrUnit} {callArgBase callargtype : ℕ} {argv : List CallArg} {p : PreparedCall}
variable {k : CallKind} {ret : Option ValueType} {callee : ValueType} {s : Emitted} {T : Text}
variable {env : Env} {m : Machine} {a : Activation} {cs : List Caller}

/-- A call with arguments by value, from its first copy on: when it has come back, the allocation
pointer is what it was before if and only if the copies are balanced. -/
theorem allocaptr_restored_iff
    (hprep : prepareCall iu₀ callArgBase callargtype argv = .ok p)
    (hemit : vmEmitFunction iu extFunc f = .ok (s, T))
    (hsite : Sites iu extFunc f next e (callInstrs iu extFunc f.regframeSize p k ret callee))
    (hcode : plainFuncs m a.func = some (plainText T)) (hpc : a.pc = e.text.length) :
    ∃ e' m₁ a₁ o,
      emitInstrs iu extFunc f next e (callInstrs iu extFunc f.regframeSize p k ret callee) = .ok e'
      ∧ Reaches (execStep env) (.running m a cs) (.running m₁ a₁ cs)
      ∧ (textOf m₁ a₁)[a₁.pc]? = some (.op (.call o))
      ∧ ∀ m₂ a₂ cs₂, ComesBack env (.running m₁ a₁ cs) (.running m₂ a₂ cs₂) →
        ∃ m₃ a₃, Reaches (execStep env) (.running m₂ a₂ cs₂) (.running m₃ a₃ cs)
          ∧ Behind k e' m₂ m₃ a₂ a₃
          ∧ (m₃.vm.allocaptr = m.vm.allocaptr
            ↔ Balanced k m.vm.allocaptr ((argv.map CallArg.copySize).filter (· ≠ 0))) := by
  obtain ⟨e', before, behind, o, he', hat, hmoves, hcount, hcall, hjsr, hbehind⟩ :=
    callInstrs_code hemit hsite
  obtain ⟨⟨is, total, growth⟩, hargs, hp⟩ := bind_ok.mp hprep
  obtain rfl := Except.ok.inj hp
  obtain ⟨hsizes, hgrowth⟩ := prepareArgs_copies hargs
  rw [show (0 : BitVec 32) + (copySizes is).sum = (copySizes is).sum from BitVec.zero_add _]
    at hgrowth
  have htext : plainText (textOf m a) = plainText T := by
    rw [textOf_plainFuncs, hcode]
    rfl
  obtain ⟨m₁, hrun, hptr, hfuncs⟩ := hmoves env m a cs
    (by rw [htext, hpc]; exact codeAt_plainText hat)
  have htext₁ : textOf m₁ { a with pc := a.pc + before.length } = textOf m a := by
    rw [textOf, textOf, hfuncs]
  -- The call can have its form for a kind of callee already.
  obtain ⟨o', ho', hform⟩ : ∃ o', (textOf m a)[a.pc + before.length]? = some (.op (.call o'))
      ∧ plainForm o' = plainForm o := by
    have hcell : (plainText (textOf m a))[a.pc + before.length]?
        = some (.op (.call (plainForm o))) := by
      rw [htext, hpc]
      exact plain_eq_call hcall
    rw [getElem?_plainText] at hcell
    obtain ⟨cell, hc, hplain⟩ := Option.map_eq_some_iff.mp hcell
    obtain ⟨o', rfl, hform⟩ := plainCell_call hplain
    exact ⟨o', hc, hform⟩
  have hcell₁ : (textOf m₁ { a with pc := a.pc + before.length })[a.pc + before.length]?
      = some (.op (.call o')) := by
    rw [htext₁]
    exact ho'
  refine ⟨e', m₁, { a with pc := a.pc + before.length }, o', he', hrun, hcell₁, ?_⟩
  intro m₂ a₂ cs₂ hback
  obtain ⟨rfl, hptr₂, hcode₂, pc, rfl, hgoes⟩ := hback.spec hcell₁
  rw [← hsizes]
  cases k with
  | invoke normalDest unwindDest =>
    refine ⟨m₂, _, Reaches.refl _, ⟨rfl, rfl⟩, ?_⟩
    rw [hptr₂, hptr]
    exact balanced_invoke_iff _ _ _ _
  | call =>
    obtain ⟨hbat, hbmoves, hend⟩ := hbehind rfl
    have hisJsr : isJsr o' = true := by
      rw [← isJsr_plainForm, hform, isJsr_plainForm]
      exact hjsr.mpr rfl
    have hpc₂ := hgoes hisJsr
    simp only at hpc₂
    have htext₂ : plainText (textOf m₂ { a with pc := pc }) = plainText T := by
      rw [textOf_plainFuncs, hcode₂, ← htext, textOf_plainFuncs, plainFuncs, plainFuncs]
      simp only [plainMachine, hfuncs]
    obtain ⟨m₃, hrun₃, hptr₃, -⟩ := hbmoves env m₂ { a with pc := pc } cs₂
      (by rw [htext₂, hpc₂, hpc]; exact codeAt_plainText hbat)
    refine ⟨m₃, _, hrun₃, ?_, ?_⟩
    · simp only [Behind, hend, hpc₂, hpc]
    · rw [hptr₃, hptr₂, hptr]
      rw [hgrowth]
      exact balanced_call_iff m.vm.allocaptr hcount

end

/-! ## A pointer that is not aligned -/

/-- The temporary for the argument, the register that points to the aggregate, and function 1. -/
def byvalUnit : IrUnit where
  types := [.int32, .pointer (some 0)]
  values := [⟨.regframe 16, 0⟩, ⟨.regframe 8, 1⟩, ⟨.function 1, 1⟩]
  textAlloc := fun _ => 0

def byvalCall : PreparedCall := ⟨[.stackcopy ⟨0, 0⟩ ⟨1, 1⟩ 4], 1, some 4⟩

def byvalFunction : Function where
  bbs := [⟨0, callInstrs byvalUnit (fun _ => false) 20 byvalCall .call none ⟨2, 1⟩
    ++ [.straight (leaveEmitter .retVoid)]⟩]
  regframeSize := 20
  ids := by decide
  brLast := by
    intro b hb i hi tb fb
    obtain rfl := List.mem_singleton.mp hb
    simp only [callInstrs, byvalCall, CallKind.instr, List.map_cons, List.map_nil, Option.toList_some,
      List.cons_append, List.nil_append, List.dropLast_cons_cons, List.dropLast_singleton,
      List.mem_cons, List.not_mem_nil, or_false] at hi
    rcases hi with rfl | rfl | rfl
    all_goals simp

def byvalText : Text :=
  [.op (.straight .stackcopyr), .half 16, .half 8, .half 4, .half 0,
    .op (.call .jsr), .half 1, .half 20, .half 0, .op (.straight .stackshrink), .half 4, .half 0,
    .op (.leave .retVoid)]

def byvalEnv : Env := ⟨zeroHost, 2, fun _ => none, id⟩

/-- The allocation pointer is 1, as it is behind an `alloca` of a byte; function 1 returns. -/
def byvalMachine : Machine :=
  ⟨fun g => if g = 0 then some byvalText else some [.op (.leave .retVoid)], fun _ => 0,
    { zeroVm with allocaptr := 1 }⟩

theorem vmEmitFunction_byval :
    vmEmitFunction byvalUnit (fun _ => false) byvalFunction
      = .ok (⟨⟨byvalText, []⟩, [(0, 0)]⟩, byvalText) := rfl

theorem prepareCall_byval : prepareCall byvalUnit 0 0 [⟨⟨1, 1⟩, 4⟩] = .ok byvalCall := rfl

theorem sites_byval : Sites byvalUnit (fun _ => false) byvalFunction none start.emission
    (callInstrs byvalUnit (fun _ => false) 20 byvalCall .call none ⟨2, 1⟩) :=
  ⟨[], _, [], [], _, start, rfl, rfl, rfl, rfl⟩

/-- The copy starts at 4, and the stack is shrunk to 4. -/
theorem allocaptr_not_restored :
    prepareCall byvalUnit 0 0 [⟨⟨1, 1⟩, 4⟩] = .ok byvalCall
      ∧ vmEmitFunction byvalUnit (fun _ => false) byvalFunction
        = .ok (⟨⟨byvalText, []⟩, [(0, 0)]⟩, byvalText)
      ∧ ∃ m₁ m₂ m₃, Reaches (execStep byvalEnv) (.running byvalMachine ⟨0, 0, 0, 0⟩ [])
          (.running m₁ ⟨0, 5, 0, 0⟩ [])
        ∧ ComesBack byvalEnv (.running m₁ ⟨0, 5, 0, 0⟩ []) (.running m₂ ⟨0, 9, 0, 0⟩ [])
        ∧ Reaches (execStep byvalEnv) (.running m₂ ⟨0, 9, 0, 0⟩ []) (.running m₃ ⟨0, 12, 0, 0⟩ [])
        ∧ byvalMachine.vm.allocaptr = 1 ∧ m₃.vm.allocaptr = 4 := by
  obtain ⟨⟨funcs, registers, vm⟩, hcopy, rfl, hptr⟩ : ∃ m₁,
      execStep byvalEnv (.running byvalMachine ⟨0, 0, 0, 0⟩ []) = some (.running m₁ ⟨0, 5, 0, 0⟩ [])
        ∧ m₁.vmFuncs = byvalMachine.vmFuncs ∧ m₁.vm.allocaptr = 8 := ⟨_, rfl, rfl, rfl⟩
  let m : Machine := patch ⟨byvalMachine.vmFuncs, registers, vm⟩ ⟨0, 5, 0, 0⟩ .jsrVm
  have henter : execStep byvalEnv (.running ⟨byvalMachine.vmFuncs, registers, vm⟩ ⟨0, 5, 0, 0⟩ [])
      = some (.running m ⟨1, 0, 20, 0⟩ [(⟨0, 5, 0, 0⟩, vm.allocaptr)]) := rfl
  have hleave : execStep byvalEnv (.running m ⟨1, 0, 20, 0⟩ [(⟨0, 5, 0, 0⟩, vm.allocaptr)])
      = some (.returning m .normal [(⟨0, 5, 0, 0⟩, vm.allocaptr)]) := rfl
  have hreturn : execStep byvalEnv (.returning m .normal [(⟨0, 5, 0, 0⟩, vm.allocaptr)])
      = some (.running m ⟨0, 9, 0, 0⟩ []) := rfl
  obtain ⟨m₃, hshrink, hptr₃⟩ : ∃ m₃, execStep byvalEnv (.running m ⟨0, 9, 0, 0⟩ [])
      = some (.running m₃ ⟨0, 12, 0, 0⟩ [])
        ∧ m₃.vm.allocaptr = vm.allocaptr - imm32 (operandsAt m ⟨0, 9, 0, 0⟩) 0 := ⟨_, rfl, rfl⟩
  have hlow : operandsAt m ⟨0, 9, 0, 0⟩ 0 = 4 := rfl
  have hhigh : operandsAt m ⟨0, 9, 0, 0⟩ 1 = 0 := rfl
  have hsize : imm32 (operandsAt m ⟨0, 9, 0, 0⟩) 0 = 4 := by
    rw [imm32, hlow, hhigh]
    decide
  refine ⟨rfl, rfl, _, m, m₃, Reaches.single hcopy, ?_, Reaches.single hshrink, rfl, ?_⟩
  · exact .internal henter (.tail (.refl _) ⟨[], rfl⟩ hleave) hreturn
  · rw [hptr₃, hsize, show vm.allocaptr = 8 from hptr]
    rfl

theorem allocaptr_restored_iff_byval :
    ∃ e' m₁ a₁ o, emitInstrs byvalUnit (fun _ => false) byvalFunction none start.emission
        (callInstrs byvalUnit (fun _ => false) 20 byvalCall .call none ⟨2, 1⟩) = .ok e'
      ∧ Reaches (execStep byvalEnv) (.running byvalMachine ⟨0, 0, 0, 0⟩ []) (.running m₁ a₁ [])
      ∧ (textOf m₁ a₁)[a₁.pc]? = some (.op (.call o))
      ∧ ∀ m₂ a₂ cs₂, ComesBack byvalEnv (.running m₁ a₁ []) (.running m₂ a₂ cs₂) →
        ∃ m₃ a₃, Reaches (execStep byvalEnv) (.running m₂ a₂ cs₂) (.running m₃ a₃ [])
          ∧ Behind .call e' m₂ m₃ a₂ a₃
          ∧ (m₃.vm.allocaptr = byvalMachine.vm.allocaptr ↔ Balanced .call 1 [4]) :=
  allocaptr_restored_iff prepareCall_byval vmEmitFunction_byval sites_byval rfl rfl

end Vmir.ByvalStack
