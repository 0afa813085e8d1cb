import Mathlib.Data.BitVec
import Mathlib.Tactic.IntervalCases

set_option autoImplicit false

/-!
# A fragment of the A32 instruction set

Moves and additions of immediates, literal loads, compares and conditional execution, as words of a
code buffer. A code address is the number of a word.
-/
namespace Vmir.ArmCore

structure Flags where
  n : Bool
  z : Bool
  c : Bool
  v : Bool
deriving DecidableEq, Repr

/-- `ARMExpandImm`: eight bits, rotated right by twice the other four. -/
def expandImm (imm : BitVec 12) : BitVec 32 :=
  ((imm.setWidth 8).setWidth 32 : BitVec 32).rotateRight (2 * (imm.extractLsb' 8 4).toNat)

/-- `AddWithCarry` -/
def addWithCarry (x y : BitVec 32) (carry : Bool) : BitVec 32 × Flags :=
  let unsigned := x.toNat + y.toNat + carry.toNat
  let signed := x.toInt + y.toInt + carry.toNat
  let result := BitVec.ofNat 32 unsigned
  (result, ⟨result.msb, result == 0, result.toNat != unsigned, result.toInt != signed⟩)

/-- `ConditionPassed` -/
def conditionPassed (cond : BitVec 4) (f : Flags) : Bool :=
  match cond.toNat with
  | 0 => f.z
  | 1 => !f.z
  | 2 => f.c
  | 3 => !f.c
  | 4 => f.n
  | 5 => !f.n
  | 6 => f.v
  | 7 => !f.v
  | 8 => f.c && !f.z
  | 9 => !(f.c && !f.z)
  | 10 => f.n == f.v
  | 11 => !(f.n == f.v)
  | 12 => f.n == f.v && !f.z
  | 13 => !(f.n == f.v && !f.z)
  | _ => true

inductive Instr
  | movImm (rd : BitVec 4) (imm : BitVec 12)
  | mvnImm (rd : BitVec 4) (imm : BitVec 12)
  | movw (rd : BitVec 4) (imm : BitVec 16)
  | ldrLiteral (rd : BitVec 4) (imm : BitVec 12)
  | addImm (rd rn : BitVec 4) (imm : BitVec 12)
  | addReg (rd rn rm : BitVec 4)
  | cmpImm (rn : BitVec 4) (imm : BitVec 12)
  | cmnImm (rn : BitVec 4) (imm : BitVec 12)
  | cmpReg (rn rm : BitVec 4)
deriving DecidableEq, Repr

/-- The program counter is neither read nor written here, and the additions have no shift. -/
def decodeFields (op : BitVec 8) (rn rd : BitVec 4) (imm : BitVec 12) : Option Instr :=
  if op = 0x3a ∧ rn = 0 ∧ rd ≠ 15 then some (.movImm rd imm)
  else if op = 0x3e ∧ rn = 0 ∧ rd ≠ 15 then some (.mvnImm rd imm)
  else if op = 0x30 ∧ rd ≠ 15 then some (.movw rd (rn ++ imm))
  else if op = 0x59 ∧ rn = 15 ∧ rd ≠ 15 then some (.ldrLiteral rd imm)
  else if op = 0x28 ∧ rn ≠ 15 ∧ rd ≠ 15 then some (.addImm rd rn imm)
  else if op = 0x08 ∧ rn ≠ 15 ∧ rd ≠ 15 ∧ imm.extractLsb' 4 8 = 0 ∧ imm.setWidth 4 ≠ 15 then
    some (.addReg rd rn (imm.setWidth 4))
  else if op = 0x35 ∧ rn ≠ 15 ∧ rd = 0 then some (.cmpImm rn imm)
  else if op = 0x37 ∧ rn ≠ 15 ∧ rd = 0 then some (.cmnImm rn imm)
  else if op = 0x15 ∧ rn ≠ 15 ∧ rd = 0 ∧ imm.extractLsb' 4 8 = 0 ∧ imm.setWidth 4 ≠ 15 then
    some (.cmpReg rn (imm.setWidth 4))
  else none

def decode (w : BitVec 32) : Option Instr :=
  decodeFields (w.extractLsb' 20 8) (w.extractLsb' 16 4) (w.extractLsb' 12 4) (w.extractLsb' 0 12)

structure Cpu where
  regs : BitVec 4 → BitVec 32
  flags : Flags
  pc : ℕ

def Cpu.set (s : Cpu) (rd : BitVec 4) (v : BitVec 32) : Cpu :=
  { s with regs := fun r => if r = rd then v else s.regs r, pc := s.pc + 1 }

theorem Cpu.set_self (s : Cpu) (rd : BitVec 4) (v : BitVec 32) : (s.set rd v).regs rd = v :=
  if_pos rfl

theorem Cpu.set_other (s : Cpu) {rd r : BitVec 4} (v : BitVec 32) (h : r ≠ rd) :
    (s.set rd v).regs r = s.regs r := if_neg h

def Cpu.setFlags (s : Cpu) (f : Flags) : Cpu := { s with flags := f, pc := s.pc + 1 }

def Cpu.skip (s : Cpu) : Cpu := { s with pc := s.pc + 1 }

/-- A literal is loaded from behind the instruction after the next. -/
def exec (code : List (BitVec 32)) (s : Cpu) : Instr → Option Cpu
  | .movImm rd imm => some (s.set rd (expandImm imm))
  | .mvnImm rd imm => some (s.set rd (~~~expandImm imm))
  | .movw rd imm => some (s.set rd (imm.setWidth 32))
  | .ldrLiteral rd imm =>
    if imm.toNat % 4 = 0 then code[s.pc + 2 + imm.toNat / 4]?.map (s.set rd) else none
  | .addImm rd rn imm => some (s.set rd (s.regs rn + expandImm imm))
  | .addReg rd rn rm => some (s.set rd (s.regs rn + s.regs rm))
  | .cmpImm rn imm => some (s.setFlags (addWithCarry (s.regs rn) (~~~expandImm imm) true).2)
  | .cmnImm rn imm => some (s.setFlags (addWithCarry (s.regs rn) (expandImm imm) false).2)
  | .cmpReg rn rm => some (s.setFlags (addWithCarry (s.regs rn) (~~~s.regs rm) true).2)

def step (code : List (BitVec 32)) (s : Cpu) : Option Cpu := do
  let w ← code[s.pc]?
  let cond := w.extractLsb' 28 4
  if cond = 15 then none
  else do
    let i ← decode w
    if conditionPassed cond s.flags then exec code s i else some s.skip

def steps (code : List (BitVec 32)) : ℕ → Cpu → Option Cpu
  | 0, s => some s
  | k + 1, s => step code s >>= steps code k

/-! ## Words by their fields -/

def word (c : BitVec 4) (op : BitVec 8) (rn rd : BitVec 4) (imm : BitVec 12) : BitVec 32 :=
  c.setWidth 32 <<< 28 ||| op.setWidth 32 <<< 20 ||| rn.setWidth 32 <<< 16 |||
    rd.setWidth 32 <<< 12 ||| imm.setWidth 32

section Fields
variable (c : BitVec 4) (op : BitVec 8) (rn rd : BitVec 4) (imm : BitVec 12)

theorem word_cond : (word c op rn rd imm).extractLsb' 28 4 = c := by
  ext i hi
  simp only [word, BitVec.getElem_extractLsb', BitVec.getLsbD_or, BitVec.getLsbD_shiftLeft,
    BitVec.getLsbD_setWidth]
  interval_cases i <;> simp [BitVec.getLsbD_of_ge]

theorem word_op : (word c op rn rd imm).extractLsb' 20 8 = op := by
  ext i hi
  simp only [word, BitVec.getElem_extractLsb', BitVec.getLsbD_or, BitVec.getLsbD_shiftLeft,
    BitVec.getLsbD_setWidth]
  interval_cases i <;> simp [BitVec.getLsbD_of_ge]

theorem word_rn : (word c op rn rd imm).extractLsb' 16 4 = rn := by
  ext i hi
  simp only [word, BitVec.getElem_extractLsb', BitVec.getLsbD_or, BitVec.getLsbD_shiftLeft,
    BitVec.getLsbD_setWidth]
  interval_cases i <;> simp [BitVec.getLsbD_of_ge]

theorem word_rd : (word c op rn rd imm).extractLsb' 12 4 = rd := by
  ext i hi
  simp only [word, BitVec.getElem_extractLsb', BitVec.getLsbD_or, BitVec.getLsbD_shiftLeft,
    BitVec.getLsbD_setWidth]
  interval_cases i <;> simp [BitVec.getLsbD_of_ge]

theorem word_imm : (word c op rn rd imm).extractLsb' 0 12 = imm := by
  ext i hi
  simp only [word, BitVec.getElem_extractLsb', BitVec.getLsbD_or, BitVec.getLsbD_shiftLeft,
    BitVec.getLsbD_setWidth]
  interval_cases i <;> simp

theorem decode_word : decode (word c op rn rd imm) = decodeFields op rn rd imm := by
  unfold decode
  rw [word_op, word_rn, word_rd, word_imm]

end Fields

section Decoding
variable {rn rd rm : BitVec 4} (imm : BitVec 12)

theorem decodeFields_movImm (h : rd ≠ 15) :
    decodeFields 0x3a 0 rd imm = some (.movImm rd imm) := if_pos ⟨rfl, rfl, h⟩

theorem decodeFields_mvnImm (h : rd ≠ 15) :
    decodeFields 0x3e 0 rd imm = some (.mvnImm rd imm) := by
  simp [decodeFields]
  exact h

theorem decodeFields_movw (rn : BitVec 4) (h : rd ≠ 15) :
    decodeFields 0x30 rn rd imm = some (.movw rd (rn ++ imm)) := by
  simp [decodeFields]
  exact h

theorem decodeFields_ldrLiteral (h : rd ≠ 15) :
    decodeFields 0x59 15 rd imm = some (.ldrLiteral rd imm) := by
  simp [decodeFields]
  exact h

theorem decodeFields_addImm (hn : rn ≠ 15) (h : rd ≠ 15) :
    decodeFields 0x28 rn rd imm = some (.addImm rd rn imm) := by
  simp [decodeFields]
  exact ⟨hn, h⟩

theorem decodeFields_cmpImm (hn : rn ≠ 15) :
    decodeFields 0x35 rn 0 imm = some (.cmpImm rn imm) := by
  simp [decodeFields]
  exact hn

theorem decodeFields_cmnImm (hn : rn ≠ 15) :
    decodeFields 0x37 rn 0 imm = some (.cmnImm rn imm) := by
  simp [decodeFields]
  exact hn

theorem register_operand (rm : BitVec 4) :
    (rm.setWidth 12).extractLsb' 4 8 = 0 ∧ (rm.setWidth 12).setWidth 4 = rm := by
  constructor
  · apply BitVec.eq_of_toNat_eq
    rw [BitVec.extractLsb'_toNat, BitVec.toNat_setWidth, Nat.shiftRight_eq_div_pow]
    have hrm := rm.isLt
    change _ = 0
    omega
  · apply BitVec.eq_of_toNat_eq
    rw [BitVec.toNat_setWidth, BitVec.toNat_setWidth]
    have hrm := rm.isLt
    omega

theorem decodeFields_addReg (hn : rn ≠ 15) (h : rd ≠ 15) (hm : rm ≠ 15) :
    decodeFields 0x08 rn rd (rm.setWidth 12) = some (.addReg rd rn rm) := by
  obtain ⟨hshift, hrm⟩ := register_operand rm
  unfold decodeFields
  rw [hshift, hrm]
  simp
  exact ⟨hn, h, hm⟩

theorem decodeFields_cmpReg (hn : rn ≠ 15) (hm : rm ≠ 15) :
    decodeFields 0x15 rn 0 (rm.setWidth 12) = some (.cmpReg rn rm) := by
  obtain ⟨hshift, hrm⟩ := register_operand rm
  unfold decodeFields
  rw [hshift, hrm]
  simp
  exact ⟨hn, hm⟩

end Decoding

theorem step_word {code : List (BitVec 32)} {s : Cpu} {c : BitVec 4} {op : BitVec 8}
    {rn rd : BitVec 4} {imm : BitVec 12} {i : Instr}
    (hcode : code[s.pc]? = some (word c op rn rd imm))
    (hc : c ≠ 15) (hi : decodeFields op rn rd imm = some i) :
    step code s = if conditionPassed c s.flags then exec code s i else some s.skip := by
  unfold step
  rw [hcode]
  change (if (word c op rn rd imm).extractLsb' 28 4 = 15 then none
    else do
      let i ← decode (word c op rn rd imm)
      if conditionPassed ((word c op rn rd imm).extractLsb' 28 4) s.flags then exec code s i
      else some s.skip) = _
  rw [word_cond, decode_word, if_neg hc, hi]
  rfl

/-! ## Rotations -/

theorem rotateRight_rotateRight {w r : ℕ} (x : BitVec w) (hr : 0 < r) (hrw : r < w) :
    (x.rotateRight r).rotateRight (w - r) = x := by
  apply BitVec.eq_of_getLsbD_eq
  intro i hi
  rw [BitVec.getLsbD_rotateRight_of_lt (by omega)]
  by_cases hlow : i < r
  · have hrest : w - (w - r) = r := by omega
    rw [hrest, decide_eq_true hlow, cond_true, BitVec.getLsbD_rotateRight_of_lt hrw]
    have hhigh : ¬ w - r + i < w - r := by omega
    rw [decide_eq_false hhigh, cond_false]
    have hin : w - r + i < w := by omega
    rw [decide_eq_true hin, Bool.true_and, Nat.add_sub_cancel_left]
  · have hrest : w - (w - r) = r := by omega
    rw [hrest, decide_eq_false hlow, cond_false, decide_eq_true hi, Bool.true_and,
      BitVec.getLsbD_rotateRight_of_lt hrw]
    have hback : i - r < w - r := by omega
    rw [decide_eq_true hback, cond_true]
    congr 1
    omega

/-! ## Compares -/

section Compare
variable (x y : BitVec 32)

/-- The flags of `CMP`. -/
def cmpFlags : Flags := (addWithCarry x (~~~y) true).2

theorem toNat_complement : (~~~y).toNat = 2 ^ 32 - 1 - y.toNat := BitVec.toNat_not

theorem toInt_complement : (~~~y).toInt = -y.toInt - 1 := by
  have hy := y.isLt
  rw [BitVec.toInt_eq_toNat_cond, BitVec.toInt_eq_toNat_cond, toNat_complement]
  split <;> split <;> omega

theorem toInt_negate (hmin : y ≠ 0x80000000) : (-y).toInt = -y.toInt := by
  have hy := y.isLt
  have hne : y.toNat ≠ 0x80000000 := fun h => hmin (BitVec.eq_of_toNat_eq h)
  rw [BitVec.toInt_eq_toNat_cond, BitVec.toInt_eq_toNat_cond, BitVec.toNat_neg]
  split <;> split <;> omega

/-- The number whose low bits `CMP` keeps. -/
theorem cmp_unsigned : x.toNat + (~~~y).toNat + 1 = x.toNat + 2 ^ 32 - y.toNat := by
  have hy := y.isLt
  rw [toNat_complement]
  omega

theorem cmpFlags_z : (cmpFlags x y).z = true ↔ x = y := by
  have hx := x.isLt
  have hy := y.isLt
  change (BitVec.ofNat 32 (x.toNat + (~~~y).toNat + 1) == 0) = true ↔ _
  rw [cmp_unsigned, beq_iff_eq]
  constructor
  · intro h
    have hzero := congrArg BitVec.toNat h
    rw [BitVec.toNat_ofNat] at hzero
    change _ = 0 at hzero
    apply BitVec.eq_of_toNat_eq
    omega
  · rintro rfl
    apply BitVec.eq_of_toNat_eq
    rw [BitVec.toNat_ofNat]
    change _ = 0
    omega

theorem cmpFlags_c : (cmpFlags x y).c = true ↔ y.toNat ≤ x.toNat := by
  have hx := x.isLt
  have hy := y.isLt
  change ((BitVec.ofNat 32 (x.toNat + (~~~y).toNat + 1)).toNat != x.toNat + (~~~y).toNat + 1)
    = true ↔ _
  rw [cmp_unsigned, BitVec.toNat_ofNat, bne_iff_ne]
  omega

theorem cmpFlags_nv : ((cmpFlags x y).n == (cmpFlags x y).v) = true ↔ y.toInt ≤ x.toInt := by
  have hx := x.isLt
  have hy := y.isLt
  generalize hr : BitVec.ofNat 32 (x.toNat + 2 ^ 32 - y.toNat) = r
  have hrlt := r.isLt
  have hrnat : r.toNat = (x.toNat + 2 ^ 32 - y.toNat) % 2 ^ 32 := by
    rw [← hr, BitVec.toNat_ofNat]
  have hn : (cmpFlags x y).n = r.msb := by
    rw [← hr, ← cmp_unsigned]
    rfl
  have hv : (cmpFlags x y).v = (r.toInt != x.toInt - y.toInt) := by
    change ((BitVec.ofNat 32 (x.toNat + (~~~y).toNat + 1)).toInt
      != x.toInt + (~~~y).toInt + 1) = _
    rw [cmp_unsigned, hr, toInt_complement]
    congr 1
    omega
  rw [hn, hv, beq_iff_eq, BitVec.msb_eq_decide]
  have hxint := BitVec.toInt_eq_toNat_cond x
  have hyint := BitVec.toInt_eq_toNat_cond y
  have hrint := BitVec.toInt_eq_toNat_cond r
  by_cases hmsb : 2 ^ 31 ≤ r.toNat
  · rw [decide_eq_true hmsb, eq_comm, bne_iff_ne]
    split at hxint <;> split at hyint <;> split at hrint <;> omega
  · rw [decide_eq_false hmsb, eq_comm, bne_eq_false_iff_eq]
    split at hxint <;> split at hyint <;> split at hrint <;> omega

/-- `CMN` with the negated operand sets the flags of `CMP`, but for the two numbers that are their
own negation. -/
theorem cmn_flags (hzero : y ≠ 0) (hmin : y ≠ 0x80000000) :
    (addWithCarry x (-y) false).2 = cmpFlags x y := by
  have hy := y.isLt
  have hne : y.toNat ≠ 0 := fun h => hzero (BitVec.eq_of_toNat_eq h)
  have hunsigned : x.toNat + (-y).toNat + false.toNat = x.toNat + (~~~y).toNat + true.toNat := by
    change x.toNat + (-y).toNat = x.toNat + (~~~y).toNat + 1
    rw [cmp_unsigned, BitVec.toNat_neg]
    omega
  have hsigned : x.toInt + (-y).toInt + (false.toNat : ℤ)
      = x.toInt + (~~~y).toInt + (true.toNat : ℤ) := by
    change x.toInt + (-y).toInt + 0 = x.toInt + (~~~y).toInt + 1
    rw [toInt_complement, toInt_negate y hmin]
    omega
  unfold cmpFlags addWithCarry
  simp only [hunsigned, hsigned]

end Compare

end Vmir.ArmCore
