import Vmir.Ir

set_option autoImplicit false

/-!
# Types and values of a unit

The type table and the value table that the loader builds, and the functions of `vmir_type.c` and
`vmir_value.c` that the emitter asks. A `parser_error` carries the format of its message.
-/
namespace Vmir.IrTypes
open Ir

/-- `ir_type_code_t` -/
inductive TypeCode
  | struct | void | int1 | int8 | int16 | int32 | int64 | intx | float | double | array | pointer
  | function | metadata | label | opaqueType
deriving DecidableEq, Repr

/-- An element of `it_struct`. -/
structure StructElement where
  type : ℕ
  offset : BitVec 32
deriving DecidableEq, Repr

/-- `it_struct` but for its `computed`. -/
structure StructType where
  elements : List StructElement
  size : BitVec 32
  alignment : BitVec 32
  packed : Bool
  name : Option (List (BitVec 8))
deriving DecidableEq, Repr

/-- `ir_type_t` -/
inductive IrType
  | struct (s : StructType)
  | void | int1 | int8 | int16 | int32 | int64
  | intx (bits : ℕ)
  | float | double
  | array (numElements elementType : ℕ)
  | pointer (pointee : Option ℕ)
  | function (varargs : Bool) (returnType : ℕ) (parameters : List ℕ)
  | metadata | label | opaqueType
deriving DecidableEq, Repr

def IrType.code (it : IrType) : TypeCode :=
  match it with
  | .struct _ => .struct
  | .void => .void
  | .int1 => .int1
  | .int8 => .int8
  | .int16 => .int16
  | .int32 => .int32
  | .int64 => .int64
  | .intx _ => .intx
  | .float => .float
  | .double => .double
  | .array _ _ => .array
  | .pointer _ => .pointer
  | .function _ _ _ => .function
  | .metadata => .metadata
  | .label => .label
  | .opaqueType => .opaqueType

/-- The integer type of a `TYPE_CODE_INTEGER` record. -/
def integerType (bits : ℕ) : Except Fault IrType :=
  if bits = 1 then .ok .int1
  else if bits = 8 then .ok .int8
  else if bits = 16 then .ok .int16
  else if bits = 32 then .ok .int32
  else if bits = 64 then .ok .int64
  else if bits < 64 then .ok (.intx bits)
  else .error (.parserError "%s: Integer width %d bit not supported")

def legalizeType (ty : IrType) : TypeCode :=
  match ty with
  | .intx bits =>
    if bits ≤ 8 then .int8
    else if bits ≤ 16 then .int16
    else if bits ≤ 32 then .int32
    else if bits ≤ 64 then .int64
    else .intx
  | _ => ty.code

def typeBitwidth (it : IrType) : Except Fault ℕ :=
  match it with
  | .void => .ok 0
  | .int1 => .ok 1
  | .int8 => .ok 8
  | .int16 => .ok 16
  | .int32 => .ok 32
  | .int64 => .ok 64
  | .intx bits => .ok bits
  | _ => .error (.parserError "Unable to compute bitwidth of type %s\n")

/-- The classes of a value, each with the member of the union that it uses. -/
inductive ValueClass
  | undef
  | function (gfid : BitVec 32)
  | globalvar (addr : BitVec 32)
  | constant (u64 : BitVec 64)
  | temporary
  | regframe (reg : BitVec 32)
  | machinereg
  | data | ce | aggregate | alias | zeroInitializer
  | dead
deriving DecidableEq, Repr

/-- `ir_value_t` -/
structure Value where
  cls : ValueClass
  type : ℕ
deriving DecidableEq, Repr

/-- `ir_unit_t`: the tables, and the high byte of each unit that the text buffer held before. -/
structure IrUnit where
  types : List IrType
  values : List Value
  textAlloc : ℕ → BitVec 8

def typeGet (iu : IrUnit) (id : ℕ) : Except Fault IrType :=
  match iu.types[id]? with
  | some it => .ok it
  | none => .error (.parserError "Bad type index %d")

def valueGet (iu : IrUnit) (index : ℕ) : Except Fault Value :=
  match iu.values[index]? with
  | some iv => .ok iv
  | none => .error (.parserError "Bad value index %d")

/-- `value_reg`, which asserts the class. -/
def valueReg (iv : Value) : Except Fault (BitVec 32) :=
  match iv.cls with
  | .regframe reg => .ok reg
  | _ => .error .abort

/-- The constant of a value that has none has no place in an instruction. -/
def notConst : Fault := .parserError "Unable to value_get_const for value %s"

def valueGetConst32 (iu : IrUnit) (iv : Value) : Except Fault (BitVec 32) := do
  let it ← typeGet iu iv.type
  match iv.cls with
  | .globalvar addr => return addr
  | .constant u64 =>
    match it.code with
    | .int1 => return if u64.setWidth 32 = 0 then 0 else 1
    | .int8 | .int16 | .int32 | .pointer | .float => return u64.setWidth 32
    | .intx | .int64 | .double => return u64.setWidth 32
    | _ => throw notConst
  | _ => throw notConst

def valueGetConst64 (iu : IrUnit) (iv : Value) : Except Fault (BitVec 64) :=
  match iv.cls with
  | .constant u64 => do
    let it ← typeGet iu iv.type
    match it.code with
    | .int1 => return if u64.setWidth 32 = 0 then 0 else 1
    | .int8 | .int16 | .int32 | .pointer => return (u64.setWidth 32).setWidth 64
    | .intx | .int64 | .double => return u64
    | _ => throw (.parserError "Unable to get_constant for type %s")
  | _ => throw .abort

/-! ## Integer constants -/

def readSignRotated (u64 : BitVec 64) : BitVec 64 :=
  if u64 &&& 1 = 0 then u64 >>> 1
  else if u64 ≠ 1 then -(u64 >>> 1)
  else 1 <<< 63

/-- The constant of a `CST_CODE_INTEGER` record with operand `argv`; the value held `old`. -/
def integerConstant (it : IrType) (old argv : BitVec 64) : Except Fault ValueClass :=
  match it.code with
  | .int1 | .int8 | .int16 | .int32 =>
    .ok (.constant ((old >>> 32).setWidth 32 ++ (readSignRotated argv).setWidth 32))
  | .int64 | .intx => .ok (.constant (readSignRotated argv))
  | _ => .error (.parserError "Bad type (%s) for integer constant")

/-- The operand with which a bitcode writer records a number. -/
def signRotated (v : BitVec 64) : BitVec 64 :=
  if v.msb then (-v) <<< 1 ||| 1 else v <<< 1

theorem and_one_eq_zero_iff (x : BitVec 64) : x &&& 1 = 0 ↔ x.toNat % 2 = 0 := by
  rw [← BitVec.toNat_inj]
  change x.toNat &&& 1 = 0 ↔ _
  rw [Nat.and_one_is_mod]

theorem readSignRotated_signRotated (v : BitVec 64) : readSignRotated (signRotated v) = v := by
  unfold signRotated
  rcases hmsb : v.msb with _ | _
  · have hv : v.toNat < 2 ^ 63 := by
      rw [BitVec.msb_eq_false_iff_two_mul_lt] at hmsb
      omega
    have hshift : (v <<< 1).toNat = 2 * v.toNat := by
      rw [BitVec.toNat_shiftLeft, Nat.shiftLeft_eq]
      omega
    rw [readSignRotated, if_neg Bool.false_ne_true, if_pos ((and_one_eq_zero_iff _).mpr (by omega))]
    apply BitVec.eq_of_toNat_eq
    rw [BitVec.toNat_ushiftRight, hshift, Nat.shiftRight_eq_div_pow]
    omega
  · have hv : 2 ^ 63 ≤ v.toNat := by
      rw [BitVec.msb_eq_true_iff_two_mul_ge] at hmsb
      omega
    have hneg : (-v).toNat = 2 ^ 64 - v.toNat := by
      rw [BitVec.toNat_neg]
      omega
    have hor : ((-v) <<< 1 ||| 1).toNat = (2 * (2 ^ 64 - v.toNat)) % 2 ^ 64 + 1 := by
      have heven : ((-v) <<< 1).toNat = 2 ^ 1 * ((2 ^ 64 - v.toNat) % 2 ^ 63) := by
        rw [BitVec.toNat_shiftLeft, hneg, Nat.shiftLeft_eq]
        omega
      rw [BitVec.toNat_or, heven]
      change 2 ^ 1 * _ ||| 1 = _
      rw [← Nat.two_pow_add_eq_or_of_lt (show 1 < 2 ^ 1 by omega)]
      omega
    rw [readSignRotated, if_pos rfl, if_neg (by rw [and_one_eq_zero_iff]; omega)]
    by_cases hmin : v = 1 <<< 63
    · rw [hmin]
      rfl
    · have hlt : 2 ^ 63 < v.toNat := by
        refine Nat.lt_of_le_of_ne hv fun h => hmin (BitVec.eq_of_toNat_eq h.symm)
      rw [if_pos (by
        intro h
        have := congrArg BitVec.toNat h
        rw [hor] at this
        change _ = 1 at this
        omega)]
      apply BitVec.eq_of_toNat_eq
      rw [BitVec.toNat_neg, BitVec.toNat_ushiftRight, hor, Nat.shiftRight_eq_div_pow]
      omega

end Vmir.IrTypes
