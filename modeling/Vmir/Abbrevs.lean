import Mathlib.Logic.Function.Basic
import Vmir.Vbr

set_option autoImplicit false

/-!
# Records and abbreviations

The part of `vmir_bitcode_parser.c` that reads records, with or without an abbreviation, and the
definitions of abbreviations.
-/
namespace Vmir.Abbrevs
open BitReader FieldReads Vbr Ir

/-- `ia_abbrev_operand_type_t` -/
inductive IaoType
  | litteral
  | fixedWidth
  | vbr
  | array
  | char6
  | blob
deriving DecidableEq, Repr

def IaoType.code : IaoType → ℕ
  | .litteral => 0
  | .fixedWidth => 1
  | .vbr => 2
  | .array => 3
  | .char6 => 4
  | .blob => 5

structure IrAbbrevOperand where
  iaoType : IaoType
  iaoData : BitVec 32
deriving DecidableEq, Repr

/-- `ia_ops` -/
abbrev IrAbbrev := List IrAbbrevOperand

/-- What the abbreviations of a block are: those of the block infos, by block id, the block info
that definitions go to, if one is set, and those of the block itself. -/
structure Scope where
  ibAbbrevs : BitVec 32 → List IrAbbrev
  ibBlockinfo : Option (BitVec 32)
  ibScopedAbbrevs : List IrAbbrev

/-! ## Definitions -/

/-- The operand of a type, with `rest` operands behind it. -/
def readTyped (rdata : List (BitVec 8)) (rest type : ℕ) : Read IrAbbrevOperand :=
  match type with
  | 1 => do
    let data ← readVbr rdata 5
    pure ⟨.fixedWidth, data⟩
  | 2 => do
    let data ← readVbr rdata 5
    pure ⟨.vbr, data⟩
  | 3 => if rest = 1 then pure ⟨.array, 0⟩ else throw (.parserError "Array is not next to last
")
  | 4 => pure ⟨.char6, 0⟩
  | 5 => if rest = 0 then pure ⟨.blob, 0⟩ else throw (.parserError "Blob is not last
")
  | _ => throw (.parserError s!"Bad type {type} in abbrev")

def readOperand (rdata : List (BitVec 8)) (rest : ℕ) : Read IrAbbrevOperand := do
  let litteral ← bits rdata 1
  if litteral ≠ 0 then
    let data ← readVbr rdata 8
    pure ⟨.litteral, data⟩
  else
    let type ← bits rdata 3
    readTyped rdata rest type.toNat

def readOperands (rdata : List (BitVec 8)) : ℕ → Read IrAbbrev
  | 0 => pure []
  | rest + 1 => do
    let op ← readOperand rdata rest
    let ops ← readOperands rdata rest
    pure (op :: ops)

/-- The loops over operands count with an `int`. -/
def checkCount (n : BitVec 32) : Read ℕ := if 2 ^ 31 ≤ n.toNat then throw .abort else pure n.toNat

def readAbbrev (rdata : List (BitVec 8)) : Read IrAbbrev := do
  let numops ← readVbr rdata 5
  let numops ← checkCount numops
  readOperands rdata numops

def Scope.insert (sc : Scope) (ia : IrAbbrev) : Scope :=
  match sc.ibBlockinfo with
  | some id =>
    ⟨Function.update sc.ibAbbrevs id (sc.ibAbbrevs id ++ [ia]), some id, sc.ibScopedAbbrevs⟩
  | none => ⟨sc.ibAbbrevs, none, sc.ibScopedAbbrevs ++ [ia]⟩

def irDefineAbbrev (rdata : List (BitVec 8)) (sc : Scope) : Read Scope := do
  let ia ← readAbbrev rdata
  pure (sc.insert ia)

/-- The abbreviation of an id, in a block with the block info `ibi`. -/
def Scope.find (sc : Scope) (ibi : BitVec 32) (id : ℕ) : Option IrAbbrev :=
  if (sc.ibAbbrevs ibi).length ≤ id - 4
  then sc.ibScopedAbbrevs[id - 4 - (sc.ibAbbrevs ibi).length]?
  else (sc.ibAbbrevs ibi)[id - 4]?

/-! ## Records -/

/-- A width as an `int`; below zero it is as good as zero. -/
def intWidth (data : BitVec 32) : ℕ := data.toInt.toNat

def char6Table : List (BitVec 64) :=
  "abcdefghijklmnopqrstuvwxyzABCDEFGHIJKLMNOPQRSTUVWXYZ0123456789._".toList.map fun c =>
    BitVec.ofNat 64 c.toNat

def readElement (rdata : List (BitVec 8)) (type : IrAbbrevOperand) : Read (BitVec 64) :=
  match type.iaoType with
  | .fixedWidth => do
    let x ← bits rdata (intWidth type.iaoData)
    pure (x.setWidth 64)
  | .vbr => do
    let x ← readVbr rdata (intWidth type.iaoData)
    pure (x.setWidth 64)
  | .char6 => do
    let x ← bits rdata 6
    pure (char6Table.getD x.toNat 0)
  | t => throw (.parserError s!"Bad array type {t.code}\n")

/-- The size is an `int`; there are no elements if it is negative. -/
def loadArray (rdata : List (BitVec 8)) (type : IrAbbrevOperand) : Read (List (BitVec 64)) := do
  let arraysize ← readVbr rdata 6
  readMany (readElement rdata type) (intWidth arraysize)

/-- What `ir_dispatch_abbrev` collects in `iu_argv`. -/
def readArgv (rdata : List (BitVec 8)) : IrAbbrev → Read (List (BitVec 64))
  | [] => pure []
  | op :: ops =>
    match op.iaoType with
    | .litteral => do
      let as ← readArgv rdata ops
      pure (op.iaoData.setWidth 64 :: as)
    | .fixedWidth => do
      let x ← bits rdata (intWidth op.iaoData)
      let as ← readArgv rdata ops
      pure (x.setWidth 64 :: as)
    | .vbr => do
      let x ← readVbr64 rdata (intWidth op.iaoData)
      let as ← readArgv rdata ops
      pure (x :: as)
    | .array =>
      match ops with
      | [type] => loadArray rdata type
      | _ => throw .abort
    | t => throw (.parserError s!"Can't handle abbrevs with arg {t.code} yet")

structure Record where
  op : BitVec 32
  argv : List (BitVec 64)
deriving DecidableEq, Repr

/-- The first value is the code, as an `int`. -/
def recordOf : List (BitVec 64) → Read Record
  | [] => throw .nullDeref
  | a :: as => pure ⟨a.setWidth 32, as⟩

def irDispatchAbbrev (rdata : List (BitVec 8)) (sc : Scope) (ibi : BitVec 32) (id : ℕ) :
    Read Record :=
  match sc.find ibi id with
  | none => throw (.parserError s!"Abbrev {id} not found\n")
  | some ia => do
    let argv ← readArgv rdata ia
    recordOf argv

def irUnabbrevRecord (rdata : List (BitVec 8)) : Read Record := do
  let code ← readVbr rdata 6
  let numops ← readVbr rdata 6
  let numops ← checkCount numops
  let argv ← readMany (readVbr64 rdata 6) numops
  pure ⟨code, argv⟩

/-- What a turn of the loop of `ir_parse_blocks` comes to. -/
inductive Turn
  | endBlock
  | enterSubblock
  | defineAbbrev (sc : Scope)
  | record (r : Record)

def turnOf (rdata : List (BitVec 8)) (sc : Scope) (ibi : BitVec 32) (id : ℕ) : Read Turn :=
  match id with
  | 0 => pure .endBlock
  | 1 => pure .enterSubblock
  | 2 => do
    let sc ← irDefineAbbrev rdata sc
    pure (.defineAbbrev sc)
  | 3 => do
    let r ← irUnabbrevRecord rdata
    pure (.record r)
  | id => do
    let r ← irDispatchAbbrev rdata sc ibi id
    pure (.record r)

/-- A turn, up to the contents of a block that is entered. -/
def parseTurn (rdata : List (BitVec 8)) (sc : Scope) (ibi : BitVec 32) (abbrevIdWidth : ℕ) :
    Read Turn := do
  let id ← bits rdata abbrevIdWidth
  turnOf rdata sc ibi id.toNat

/-! ## The ids -/

/-- The abbreviations that ids stand for, from id 4 on. -/
def Scope.all (sc : Scope) (ibi : BitVec 32) : List IrAbbrev :=
  sc.ibAbbrevs ibi ++ sc.ibScopedAbbrevs

theorem find_eq (sc : Scope) (ibi : BitVec 32) (i : ℕ) : sc.find ibi (4 + i) = (sc.all ibi)[i]? := by
  unfold Scope.find Scope.all
  rw [Nat.add_sub_cancel_left]
  split
  · next hle => rw [List.getElem?_append_right hle]
  · next hlt => rw [List.getElem?_append_left (Nat.lt_of_not_le hlt)]

theorem insert_scoped {sc : Scope} (h : sc.ibBlockinfo = none) (ia : IrAbbrev) (ibi : BitVec 32) :
    (sc.insert ia).all ibi = sc.all ibi ++ [ia] := by
  unfold Scope.insert Scope.all
  rw [h, List.append_assoc]

theorem insert_blockinfo {sc : Scope} {ibi : BitVec 32} (h : sc.ibBlockinfo = some ibi)
    (ia : IrAbbrev) :
    (sc.insert ia).all ibi = sc.ibAbbrevs ibi ++ ia :: sc.ibScopedAbbrevs := by
  unfold Scope.insert Scope.all
  rw [h]
  change Function.update sc.ibAbbrevs ibi _ ibi ++ _ = _
  rw [Function.update_self, List.append_assoc, List.singleton_append]

end Vmir.Abbrevs
