import Vmir.ByteStore
import Vmir.ConstExprs

set_option autoImplicit false

/-!
# Constants and the initialisation of globals

`constants_rec_handler` puts a value into the table for each record of a constants block;
`initialize_global` writes the constant that a global starts with into the memory of the VM. What
`iv_data` of a value points to is kept beside the table: the bytes of a DATA value, the values of an
AGGREGATE, and the expression of a CE.
-/
namespace Vmir.GlobalInit
open ByteStore Ir IrTypes TypeLayout ConstExprs

/-! ## Records -/

/-- `CST_CODE_*` -/
inductive ConstCode
  | settype | null | undef | integer | float | aggregate | string | cstring | binop | cast | gep
  | cmp | inlineasmOld | inboundsGep | blockaddress | data | inlineasm
deriving DecidableEq, Repr

structure ConstRecord where
  op : ConstCode
  argv : List (BitVec 64)
deriving DecidableEq, Repr

structure Constants where
  iu : IrUnit
  currentType : ℕ
  data : ℕ → List (BitVec 8)
  aggregate : ℕ → List ℕ
  ce : ℕ → Option IrConstexpr

def indexOf (arg : BitVec 64) : ℕ := (arg.setWidth 32).toNat

def binopOf (code : ℕ) : Option Binop :=
  [.add, .sub, .mul, .udiv, .sdiv, .urem, .srem, .shl, .lshr, .ashr, .and, .or, .xor][code]?

def castOpOf (code : ℕ) : Option CastOp :=
  [.trunc, .zext, .sext, .fptoui, .fptosi, .uitofp, .sitofp, .fptrunc, .fpext, .ptrtoint, .inttoptr,
    .bitcast][code]?

def icmpPredOf (code : ℕ) : Option IcmpPred :=
  if code < 32 then none
  else [.eq, .ne, .ugt, .uge, .ult, .ule, .sgt, .sge, .slt, .sle][code - 32]?

def operand (argv : List (BitVec 64)) (i : ℕ) : Except Fault (BitVec 64) :=
  match argv[i]? with
  | some arg => .ok arg
  | none => .error .nullDeref

/-- `CST_CODE_NULL` and `CST_CODE_UNDEF` -/
def nullConstant (it : IrType) : Except Fault ValueClass :=
  match it.code with
  | .int1 | .int8 | .int16 | .int32 | .pointer | .double | .int64 | .float | .intx =>
    .ok (.constant 0)
  | .array | .struct => .ok .zeroInitializer
  | _ => .error (.parserError "Bad type (%s) for NULL integer constant")

def floatConstant (it : IrType) (arg : BitVec 64) : Except Fault ValueClass :=
  match it.code with
  | .float => .ok (.constant ((arg.setWidth 32).setWidth 64))
  | .double => .ok (.constant arg)
  | _ => .error (.parserError "Bad type (%s) for float constant")

/-- The `n` low bytes of a number, least significant first. -/
def leBytes (n : ℕ) (v : BitVec 64) : List (BitVec 8) :=
  (List.range n).map fun i => BitVec.ofNat 8 (v.toNat / 256 ^ i)

def dataBytes (elementType : IrType) (argv : List (BitVec 64)) : Option (List (BitVec 8)) :=
  match elementType.code with
  | .int64 | .double => some (argv.flatMap (leBytes 8))
  | .int32 | .float => some (argv.flatMap (leBytes 4))
  | .int16 => some (argv.flatMap (leBytes 2))
  | _ => none

def cantParseData : Fault := .parserError "Can't parse constant data for type %s"

def dataConstant (iu : IrUnit) (type : ℕ) (argv : List (BitVec 64)) :
    Except Fault (List (BitVec 8)) := do
  let it ← typeGet iu type
  match it with
  | .array _ elementType => do
    let element ← typeGet iu elementType
    match dataBytes element argv with
    | some bs => .ok bs
    | none => .error cantParseData
  | _ => .error cantParseData

/-- `read_str_from_argv` -/
def readStrFromArgv (argv : List (BitVec 64)) : List (BitVec 8) :=
  argv.map (fun arg => arg.setWidth 8) ++ [0]

/-- The expression of a record, and the checks of its length. -/
def constexprOf (op : ConstCode) (argv : List (BitVec 64)) : Except Fault IrConstexpr :=
  match op with
  | .cast => do
    let code ← operand argv 0
    let src ← operand argv 2
    .ok (.cast (castOpOf (indexOf code)) (indexOf src))
  | .binop =>
    match argv with
    | code :: lhs :: rhs :: _ => .ok (.binop (binopOf (indexOf code)) (indexOf lhs) (indexOf rhs))
    | _ => .error (.parserError "CST_CODE_CE_BINOP with invalid number of args %d")
  | .cmp =>
    match argv with
    | opty :: lhs :: rhs :: pred :: _ =>
      .ok (.cmp (indexOf opty) (indexOf lhs) (indexOf rhs) (icmpPredOf (indexOf pred)))
    | _ => .error (.parserError "CST_CODE_CE_CMP with invalid number of args %d")
  | _ =>
    -- The types of the operands stand in front of them, and the type of the result in front of all.
    let argv := if argv.length % 2 = 1 then argv.tail else argv
    .ok (.gep ((List.range (argv.length / 2)).map fun i => indexOf (argv.getD (1 + i * 2) 0)))

def appendValue (c : Constants) (cls : ValueClass) : Constants :=
  { c with iu := { c.iu with values := c.iu.values ++ [⟨cls, c.currentType⟩] } }

def constantsRecHandler (c : Constants) (r : ConstRecord) : Except Fault Constants :=
  let v := c.iu.values.length
  match r.op with
  | .settype =>
    match r.argv with
    | [] => .error (.parserError "Bad # of args for CST_CODE_SETTYPE")
    | type :: _ => .ok { c with currentType := indexOf type }
  | .undef | .null => do
    let it ← typeGet c.iu c.currentType
    let cls ← nullConstant it
    .ok (appendValue c cls)
  | .integer =>
    match r.argv with
    | [] => .error .abort
    | arg :: _ => do
      let it ← typeGet c.iu c.currentType
      let cls ← integerConstant it 0 arg
      .ok (appendValue c cls)
  | .float =>
    match r.argv with
    | [] => .error .abort
    | arg :: _ => do
      let it ← typeGet c.iu c.currentType
      let cls ← floatConstant it arg
      .ok (appendValue c cls)
  | .aggregate =>
    let values := r.argv.map indexOf
    let c := appendValue c .aggregate
    if values.all (· < c.iu.values.length) then
      .ok { c with aggregate := Function.update c.aggregate v values }
    else .error (.parserError "Bad value index %d")
  | .data => do
    let bs ← dataConstant c.iu c.currentType r.argv
    .ok { appendValue c .data with data := Function.update c.data v bs }
  | .string | .cstring =>
    .ok { appendValue c .data with data := Function.update c.data v (readStrFromArgv r.argv) }
  | .cast | .gep | .inboundsGep | .binop | .cmp => do
    let ce ← constexprOf r.op r.argv
    .ok { appendValue c .ce with ce := Function.update c.ce v (some ce) }
  | .blockaddress =>
    .error (.parserError "CST_CODE_BLOCKADDRESS (computed goto) is not supported")
  | .inlineasm | .inlineasmOld => .error (.parserError "Inline asm not supported")

/-! ## Memory -/

/-- `memcpy` -/
def copyBytes (m : Bytes) (a : ℤ) (bs : List (BitVec 8)) : Bytes := fun x =>
  if a ≤ x ∧ x < a + bs.length then bs.getD (x - a).toNat 0 else m x

/-- A size is an `int`, and a negative one is no number of bytes. -/
def byteCount (size : BitVec 32) : Except Fault ℕ :=
  if size.msb then .error .nullDeref else .ok size.toNat

/-- Bytes behind the end of the data are read too. -/
def memcpyData (m : Bytes) (addr : ℤ) (data : List (BitVec 8)) (size : ℕ) : Except Fault Bytes :=
  if data.length < size then .error .nullDeref else .ok (copyBytes m addr (data.take size))

def memsetZero (m : Bytes) (addr : ℤ) (size : ℕ) : Bytes := copyBytes m addr (List.replicate size 0)

section
variable (c : Constants) (depth : ℕ)

def initializePointer (m : Bytes) (addr : ℤ) (iv : Value) : Except Fault Bytes :=
  match iv.cls with
  | .globalvar _ | .constant _ => do
    let x ← valueGetConst32 c.iu iv
    .ok (writeLe m addr 4 x.toNat)
  | .function gfid => .ok (writeLe m addr 4 gfid.toNat)
  | _ => .error (.parserError "Unable to initialize pointer from value class %d")

/-- The values of an aggregate, each behind the one before it. -/
def initializeElements (init : Bytes → ℤ → ℕ → ℕ → Except Fault Bytes) (elementType : ℕ)
    (s : Bytes × ℤ) (v : ℕ) : Except Fault (Bytes × ℤ) := do
  let m ← init s.1 s.2 elementType v
  let size ← typeSizeof c.iu depth elementType
  .ok (m, s.2 + size.toInt)

def initializeField (init : Bytes → ℤ → ℕ → ℕ → Except Fault Bytes) (addr : ℤ) (m : Bytes)
    (e : StructElement × ℕ) : Except Fault Bytes :=
  init m (addr + e.1.offset.toInt) e.1.type e.2

/-- `fuel` bounds the recursion. -/
def initializeGlobal : ℕ → Bytes → ℤ → ℕ → ℕ → Except Fault Bytes
  | 0, _, _, _, _ => .error .outOfFuel
  | fuel + 1, m, addr, dstty, v => do
    let it ← typeGet c.iu dstty
    let iv ← valueGet c.iu v
    match it with
    | .int1 | .int8 => do
      let x ← valueGetConst32 c.iu iv
      .ok (writeLe m addr 1 x.toNat)
    | .int16 => do
      let x ← valueGetConst32 c.iu iv
      .ok (writeLe m addr 2 x.toNat)
    | .int32 | .float => do
      let x ← valueGetConst32 c.iu iv
      .ok (writeLe m addr 4 x.toNat)
    | .int64 | .double => do
      let x ← valueGetConst64 c.iu iv
      .ok (writeLe m addr 8 x.toNat)
    | .pointer _ => initializePointer c m addr iv
    | .array numElements elementType => do
      let size ← typeSizeof c.iu depth dstty
      match iv.cls with
      | .data => do
        let n ← byteCount size
        memcpyData m addr (c.data v) n
      | .zeroInitializer => do
        let n ← byteCount size
        .ok (memsetZero m addr n)
      | .aggregate =>
        if (c.aggregate v).length ≠ numElements then .error .abort
        else do
          let s ← (c.aggregate v).foldlM
            (initializeElements c depth (initializeGlobal fuel) elementType) (m, addr)
          .ok s.1
      | _ => .error (.parserError "Unable to initialize array from value class %d")
    | .struct s => do
      let size ← typeSizeof c.iu depth dstty
      match iv.cls with
      | .zeroInitializer => do
        let n ← byteCount size
        .ok (memsetZero m addr n)
      | .aggregate =>
        if (c.aggregate v).length ≠ s.elements.length then .error .abort
        else do
          let m ← (s.elements.zip (c.aggregate v)).foldlM
            (initializeField (initializeGlobal fuel) addr) m
          .ok m
      | _ => .error (.parserError "Unable to initialize struct from value class %d")
    | _ => .error (.parserError "Unable to initialize global 0x%x (%s) from %s")

end

end Vmir.GlobalInit
