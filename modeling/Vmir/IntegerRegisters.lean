import Vmir.NarrowArith
import Vmir.ProgramText

set_option autoImplicit false

/-!
# Integers in registers

The integer types that the loader keeps, their constants, and how a register of the frame holds an
integer: in its low bits. The bits above are whatever the last operation left there.
-/
namespace Vmir.IntegerRegisters
open ByteStore RegisterProgram Ir VmOps IrTypes ProgramText

structure IntWidth where
  bits : ℕ
  pos : 0 < bits
  le : bits ≤ 64
deriving DecidableEq

def i8 : IntWidth := ⟨8, by decide, by decide⟩
def i32 : IntWidth := ⟨32, by decide, by decide⟩
def i64 : IntWidth := ⟨64, by decide, by decide⟩

def IntWidth.type (w : IntWidth) : IrType :=
  if w.bits = 1 then .int1
  else if w.bits = 8 then .int8
  else if w.bits = 16 then .int16
  else if w.bits = 32 then .int32
  else if w.bits = 64 then .int64
  else .intx w.bits

/-- The carrier of the integers of `bits` bits. -/
def carrier (bits : ℕ) : TypeCode :=
  if bits = 1 then .int1 else if bits ≤ 8 then .int8 else if bits ≤ 16 then .int16
  else if bits ≤ 32 then .int32 else .int64

theorem legalizeType_eq (w : IntWidth) : legalizeType w.type = carrier w.bits := by
  have hle := w.le
  unfold IntWidth.type carrier
  split_ifs
  all_goals first
    | rfl
    | omega
    | (simp only [legalizeType]; split_ifs; rfl)

theorem legalizeType_cases (w : IntWidth) :
    (w.bits = 1 ∧ legalizeType w.type = .int1)
    ∨ (w.bits ≠ 1 ∧ w.bits ≤ 8 ∧ legalizeType w.type = .int8)
    ∨ (8 < w.bits ∧ w.bits ≤ 16 ∧ legalizeType w.type = .int16)
    ∨ (16 < w.bits ∧ w.bits ≤ 32 ∧ legalizeType w.type = .int32)
    ∨ (32 < w.bits ∧ legalizeType w.type = .int64) := by
  rw [legalizeType_eq, carrier]
  split_ifs with h1 h8 h16 h32
  · exact Or.inl ⟨h1, rfl⟩
  · exact Or.inr (Or.inl ⟨h1, h8, rfl⟩)
  · exact Or.inr (Or.inr (Or.inl ⟨by omega, h16, rfl⟩))
  · exact Or.inr (Or.inr (Or.inr (Or.inl ⟨by omega, h32, rfl⟩)))
  · exact Or.inr (Or.inr (Or.inr (Or.inr ⟨by omega, rfl⟩)))

/-! ## Constants -/

/-- Value `index` is the constant `c`, as the loader builds it from its record. -/
def IsConstant (iu : IrUnit) (index : ℕ) (w : IntWidth) (c : BitVec w.bits) : Prop :=
  ∃ iv old, valueGet iu index = .ok iv ∧ typeGet iu iv.type = .ok w.type
    ∧ integerConstant w.type old (signRotated (c.signExtend 64)) = .ok iv.cls

/-- What the emitter reads of a constant of at most 32 bits. -/
def constant32 {w : ℕ} (c : BitVec w) : BitVec 32 :=
  if w = 1 then (if c = 0 then 0 else 1) else c.signExtend 32

theorem IsConstant.cls {iu : IrUnit} {index : ℕ} {w : IntWidth} {c : BitVec w.bits}
    (h : IsConstant iu index w c) :
    ∃ iv u64, valueGet iu index = .ok iv ∧ iv.cls = .constant u64 := by
  obtain ⟨iv, old, hiv, -, hcls⟩ := h
  unfold integerConstant at hcls
  split at hcls
  all_goals first
    | exact ⟨iv, _, hiv, (Except.ok.inj hcls).symm⟩
    | cases hcls

theorem IsConstant.get32 {iu : IrUnit} {index : ℕ} {w : IntWidth} {c : BitVec w.bits} {iv : Value}
    (h : IsConstant iu index w c) (hget : valueGet iu index = .ok iv) (hw : w.bits ≤ 32) :
    valueGetConst32 iu iv = .ok (constant32 c) := by
  obtain ⟨iv', old, hiv, hit, hcls⟩ := h
  obtain rfl : iv' = iv := Except.ok.inj (hiv.symm.trans hget)
  have hlow : (readSignRotated (signRotated (c.signExtend 64))).setWidth 32 = c.signExtend 32 := by
    rw [readSignRotated_signRotated, NarrowArith.signExtend_setWidth c (by omega)]
  have hzero : c.signExtend 32 = 0 ↔ c = 0 := by
    refine ⟨fun h => by_contra fun hc => NarrowArith.signExtend_ne_zero hw hc h, fun h => ?_⟩
    rw [h]
    exact (BitVec.signExtend_eq_setWidth_of_msb_false BitVec.msb_zero).trans (BitVec.setWidth_zero _ _)
  have happend (hi lo : BitVec 32) : (hi ++ lo).setWidth 32 = lo := BitVec.setWidth_append_eq_right
  rw [IntWidth.type] at hit hcls
  split_ifs at hit hcls with h1 h8 h16 h32 h64
  · rw [valueGetConst32, hit, ← Except.ok.inj hcls, constant32, if_pos h1]
    change Except.ok (if _ = _ then _ else _) = _
    simp only [happend, hlow, hzero]
  · rw [valueGetConst32, hit, ← Except.ok.inj hcls, constant32, if_neg h1]
    exact congrArg Except.ok ((happend _ _).trans hlow)
  · rw [valueGetConst32, hit, ← Except.ok.inj hcls, constant32, if_neg h1]
    exact congrArg Except.ok ((happend _ _).trans hlow)
  · rw [valueGetConst32, hit, ← Except.ok.inj hcls, constant32, if_neg h1]
    exact congrArg Except.ok ((happend _ _).trans hlow)
  · omega
  · rw [valueGetConst32, hit, ← Except.ok.inj hcls, constant32, if_neg h1]
    exact congrArg Except.ok hlow

theorem IsConstant.get64 {iu : IrUnit} {index : ℕ} {w : IntWidth} {c : BitVec w.bits} {iv : Value}
    (h : IsConstant iu index w c) (hget : valueGet iu index = .ok iv) (hw : 32 < w.bits) :
    valueGetConst64 iu iv = .ok (c.signExtend 64) := by
  obtain ⟨iv', old, hiv, hit, hcls⟩ := h
  obtain rfl : iv' = iv := Except.ok.inj (hiv.symm.trans hget)
  rw [IntWidth.type] at hit hcls
  split_ifs at hit hcls with h1 h8 h16 h32 h64
  · omega
  · omega
  · omega
  · omega
  · simp only [valueGetConst64, ← Except.ok.inj hcls, hit, readSignRotated_signRotated]
    rfl
  · simp only [valueGetConst64, ← Except.ok.inj hcls, hit, readSignRotated_signRotated]
    rfl

/-! ## Registers -/

/-- Where the operations find a register: they see the low 16 bits of its offset. -/
def frameOffset (reg : BitVec 32) : ℤ := (reg.setWidth 16).toInt

def content (f : Bytes) (reg : BitVec 32) : BitVec 64 := read64 f (frameOffset reg)

def lowBits (w : ℕ) (f : Bytes) (reg : BitVec 32) : BitVec w := (content f reg).setWidth w

theorem content_setWidth (f : Bytes) (reg : BitVec 32) :
    (content f reg).setWidth 32 = read32 f (frameOffset reg) :=
  read64_setWidth f _

/-- What an operation of a `w`-bit type writes: a word or, for more than 32 bits, two. -/
def writeSlot (w : ℕ) (f : Bytes) (reg : BitVec 32) (v : BitVec 64) : Bytes :=
  if w ≤ 32 then write32 f (frameOffset reg) (v.setWidth 32) else write64 f (frameOffset reg) v

def slotSize (w : ℕ) : ℕ := if w ≤ 32 then 4 else 8

theorem slotSize_le (w : ℕ) : slotSize w ≤ 8 := by
  unfold slotSize
  split <;> omega

theorem readLe_writeSlot (w : ℕ) (f : Bytes) (reg : BitVec 32) (v : BitVec 64) :
    readLe (writeSlot w f reg v) (frameOffset reg) (slotSize w) = v.toNat % 256 ^ slotSize w := by
  unfold writeSlot slotSize
  split
  · rw [write32, readLe_writeLe_same, BitVec.toNat_setWidth]
    omega
  · rw [write64, readLe_writeLe_same]

theorem writeSlot_of_apart (w : ℕ) (f : Bytes) (reg : BitVec 32) (v : BitVec 64) {x : ℤ}
    (hx : x < frameOffset reg ∨ frameOffset reg + slotSize w ≤ x) :
    writeSlot w f reg v x = f x := by
  unfold writeSlot slotSize at *
  split at hx
  · next hw => rw [if_pos hw, write32, writeLe_of_not_mem (by push_cast at hx ⊢; omega)]
  · next hw => rw [if_neg hw, write64, writeLe_of_not_mem (by push_cast at hx ⊢; omega)]

theorem lowBits_writeSlot (w : ℕ) (f : Bytes) (reg : BitVec 32) (v : BitVec 64) :
    lowBits w (writeSlot w f reg v) reg = v.setWidth w := by
  unfold writeSlot
  split
  · next hw =>
    rw [lowBits, ← BitVec.setWidth_setWidth_of_le _ hw, content_setWidth, read32_write32_same,
      BitVec.setWidth_setWidth_of_le _ hw]
  · rw [lowBits, content, read64_write64_same]

theorem writeSlot_word {w : ℕ} (hw : w ≤ 32) (f : Bytes) (reg : BitVec 32) (v : BitVec 64) :
    writeSlot w f reg ((v.setWidth 32).setWidth 64) = writeSlot w f reg v := by
  rw [writeSlot, writeSlot, if_pos hw, if_pos hw, BitVec.setWidth_setWidth_of_le _ (by omega),
    BitVec.setWidth_eq]

/-! ## Instructions with an integer result -/

/-- What became of an instruction that was emitted behind `t` and is run from the state `s`: the
buffer was nearly full, or its run ends with the register frame `res`, or it has no defined end. -/
def Yields (h : Host) (t : Text) (e : Except Fault Text) (s : Bytes × Vm) (res : Option Bytes) :
    Prop :=
  (e = .error functionTooBig ∧ textAllocMemsize ≤ 2 * t.length + 32) ∨ ∃ t', e = .ok t' ∧
    match res with
    | some f => Runs h t t' s (f, s.2)
    | none => ∀ s', ¬ Runs h t t' s s'

theorem Yields.empty {h : Host} {e : Except Fault Text} {s : Bytes × Vm} {f : Bytes}
    (hy : Yields h [] e s (some f)) : ∃ t', e = .ok t' ∧ Runs h [] t' s (f, s.2) := by
  rcases hy with ⟨-, hfull⟩ | hy
  · exact absurd hfull (by decide)
  · exact hy

theorem yields_of_runs {h : Host} {t : Text} {cells : List Cell} {s : Bytes × Vm}
    {res : Option Bytes} (hlen : cells.length ≤ 16)
    (hruns : ∀ s', Runs h t (t ++ cells) s s' ↔ (res.map fun f => (f, s.2)) = some s') :
    Yields h t (emit t cells) s res := by
  unfold emit
  split
  · exact Or.inl ⟨rfl, by omega⟩
  · refine Or.inr ⟨_, rfl, ?_⟩
    cases res with
    | none =>
      intro s' hrun
      cases (hruns s').mp hrun
    | some f => exact (hruns _).mpr rfl

/-- The frame after an operation that writes a word. -/
def frame32 (w : ℕ) (f : Bytes) (ret : BitVec 32) (v : Option (BitVec 32)) : Option Bytes :=
  (v.map (·.setWidth 64)).map (writeSlot w f ret)

theorem yields_code32 {h : Host} {t : Text} {op : Op} {args : List (BitVec 16)} {s : Bytes × Vm}
    {ret : BitVec 32} {w : ℕ} {v : Option (BitVec 32)} (hw : w ≤ 32) (hlen : args.length = skip op)
    (hexec : exec (body h op (operands args)) s.1 s.2
      = v.map fun v => (write32 s.1 (frameOffset ret) v, s.2)) :
    Yields h t (emit t (code op args)) s (frame32 w s.1 ret v) := by
  refine yields_of_runs ?_ fun s' => ?_
  · rw [code, List.length_cons, List.length_map, hlen]
    have := skip_le op
    omega
  · rw [runs_code_iff h t hlen, hexec, frame32, Option.map_map, Option.map_map]
    cases v with
    | none => rfl
    | some v =>
      simp only [Option.map_some, Function.comp, writeSlot, if_pos hw,
        BitVec.setWidth_setWidth_of_le v (show 32 ≤ 64 by omega), BitVec.setWidth_eq]

theorem yields_code64 {h : Host} {t : Text} {op : Op} {args : List (BitVec 16)} {s : Bytes × Vm}
    {ret : BitVec 32} {w : ℕ} {v : Option (BitVec 64)} (hw : 32 < w) (cells : List Cell)
    (hcells : cells = [] ∨ ∃ odd, cells = padding t odd) (hlen : args.length = skip op)
    (hexec : exec (body h op (operands args)) s.1 s.2
      = v.map fun v => (write64 s.1 (frameOffset ret) v, s.2)) :
    Yields h t (emit t (cells ++ code op args)) s (v.map (writeSlot w s.1 ret)) := by
  have hcode : (code op args).length = skip op + 1 := by
    rw [code, List.length_cons, List.length_map, hlen]
  have hskip := skip_le op
  have hres : ∀ s', (v.map fun v => (write64 s.1 (frameOffset ret) v, s.2)) = some s'
      ↔ ((v.map (writeSlot w s.1 ret)).map fun f => (f, s.2)) = some s' := by
    intro s'
    rw [Option.map_map]
    cases v with
    | none => rfl
    | some v => simp only [Option.map_some, Function.comp, writeSlot, if_neg (Nat.not_le.mpr hw)]
  rcases hcells with rfl | ⟨odd, rfl⟩
  · refine yields_of_runs (by rw [List.nil_append, hcode]; omega) fun s' => ?_
    rw [List.nil_append, runs_code_iff h t hlen, hexec, hres]
  · have hpad : (padding t odd).length ≤ 1 := by
      unfold padding
      split <;> simp [code]
    refine yields_of_runs (by rw [List.length_append, hcode]; omega) fun s' => ?_
    rw [runs_padding_code_iff h t odd hlen, hexec, hres]

/-! ## Operations from one register to another -/

section
variable {h : Host} {t : Text} {op : Op} {s : Bytes × Vm} {ret src : BitVec 32} {w : ℕ}

theorem yields_set32Of32 {g : BitVec 32 → BitVec 32} (hw : w ≤ 32) (hskip : skip op = 2)
    (hbody : ∀ I, body h op I = set32Of32 I g) :
    Yields h t (emitOp2 t op ret src) s
      (frame32 w s.1 ret (some (g ((content s.1 src).setWidth 32)))) := by
  rw [emitOp2_eq]
  refine yields_code32 hw (by rw [hskip]; rfl) ?_
  rw [hbody, content_setWidth]
  rfl

theorem yields_set32Of64 {g : BitVec 64 → BitVec 32} (hw : w ≤ 32) (hskip : skip op = 2)
    (hbody : ∀ I, body h op I = set32Of64 I g) :
    Yields h t (emitOp2 t op ret src) s (frame32 w s.1 ret (some (g (content s.1 src)))) := by
  rw [emitOp2_eq]
  refine yields_code32 hw (by rw [hskip]; rfl) ?_
  rw [hbody]
  rfl

theorem yields_set64Of32 {g : BitVec 32 → BitVec 64} (hw : 32 < w) (hskip : skip op = 2)
    (hbody : ∀ I, body h op I = set64Of32 I g) :
    Yields h t (emitOp2 t op ret src) s
      ((some (g ((content s.1 src).setWidth 32))).map (writeSlot w s.1 ret)) := by
  rw [emitOp2_eq]
  refine yields_code64 hw [] (Or.inl rfl) (by rw [hskip]; rfl) ?_
  rw [hbody, content_setWidth]
  rfl

theorem yields_set64Of64 {g : BitVec 64 → BitVec 64} (hw : 32 < w) (hskip : skip op = 2)
    (hbody : ∀ I, body h op I = set64Of64 I g) :
    Yields h t (emitOp2 t op ret src) s
      ((some (g (content s.1 src))).map (writeSlot w s.1 ret)) := by
  rw [emitOp2_eq]
  refine yields_code64 hw [] (Or.inl rfl) (by rw [hskip]; rfl) ?_
  rw [hbody]
  rfl

end
end Vmir.IntegerRegisters
