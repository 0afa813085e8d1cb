import Vmir.InstrParse

set_option autoImplicit false

/-!
# Records outside functions

The handlers for the records of a module, of the attribute groups, the types and the constants, and
how a record comes to its handler.
-/
namespace Vmir.RecordHandlers
open Ir IrTypes ConstExprs GlobalInit GlobalPlacement OperandReads
open InstrParse (IrAttr IrFunction printargs)

section
variable {υ : Type}

/-- `read_str_from_argv` of all operands, up to the byte behind the string. -/
def readOperands : Parse Fault υ (List (BitVec 64)) := do
  let c ← argc
  forArgs arg c.toNat 0

/-- The first loop of `read_zstr_from_argv`, with `n` turns left. -/
def zstrLen : ℕ → ℕ → Parse Fault υ ℕ
  | 0, len => pure len
  | n + 1, len => do
    let a ← arg len
    if a = 0 then pure len else zstrLen n (len + 1)

def zstrChars : ℕ → ℕ → Parse Fault υ (List (BitVec 8))
  | 0, _ => pure []
  | n + 1, len => do
    let a ← arg len
    if a = 0 then pure [0]
    else do
      let cs ← zstrChars n (len + 1)
      pure (a.setWidth 8 :: cs)

/-- `read_zstr_from_argv`, which counts with an `int`. -/
def readZstrFromArgv : Parse Fault υ (Option (List (BitVec 8))) := do
  let c ← argc
  let len ← zstrLen c.toInt.toNat 0
  if (len : ℤ) = c.toInt then pure none
  else do
    let s ← zstrChars c.toInt.toNat 0
    advance (len + 1)
    pure (some s)

end

/-! ## Modules -/

structure ModuleUnit where
  loader : Loader
  version : BitVec 32
  triple : List (BitVec 8)
  vstoffset : BitVec 32
  functions : List IrFunction
  aliasReg : ℕ → ℕ

/-- `value_append_and_get` -/
def ModuleUnit.valueAppend (u : ModuleUnit) (iv : Value) : ModuleUnit :=
  { u with loader := { u.loader with
    iu := { u.loader.iu with values := u.loader.iu.values ++ [iv] } } }

def moduleGlobalvar (depth : ℕ) : Parse Fault ModuleUnit Unit := do
  let c ← argc
  if c.toNat < 6 then fail (.parserError "Bad number of args for global var def")
  else do
    let a1 ← arg 1
    let a0 ← arg 0
    let u ← getUnit
    let _ ← lift (globalvarType u.loader.iu a0 a1)
    let a4 ← arg 4
    let a2 ← arg 2
    let loader ← lift (GlobalPlacement.moduleGlobalvar depth u.loader [a0, a1, a2, 0, a4, 0])
    modifyUnit fun u => { u with loader := loader }

def moduleFunction : Parse Fault ModuleUnit Unit := do
  let c ← argc
  if c.toNat < 8 then fail (.parserError "Bad number of args")
  else do
    let a0 ← arg 0
    let u ← getUnit
    let it ← lift (typeGet u.loader.iu (indexOf a0))
    let type :=
      match it with
      | .pointer pointee => pointee.getD (-1 : BitVec 32).toNat
      | _ => indexOf a0
    let a2 ← arg 2
    modifyUnit fun u =>
      { u.valueAppend ⟨.function (BitVec.ofNat 32 u.functions.length), type⟩ with
        functions := u.functions ++ [⟨none, type, a2 ≠ 0⟩] }

def moduleAlias : Parse Fault ModuleUnit Unit := do
  let c ← argc
  if c.toNat < 3 then fail (.parserError "Bad number of args")
  else do
    let a0 ← arg 0
    let a1 ← arg 1
    modifyUnit fun u =>
      { u.valueAppend ⟨.alias, indexOf a0⟩ with
        aliasReg := Function.update u.aliasReg u.loader.iu.values.length (indexOf a1) }

def moduleVstoffset : Parse Fault ModuleUnit Unit := do
  let c ← argc
  if c.toNat ≠ 1 then fail (.parserError "Bad number of args")
  else do
    let a ← arg 0
    modifyUnit fun u => { u with vstoffset := a.setWidth 32 }

/-- `MODULE_CODE_*` -/
inductive ModuleCode
  | version | triple | datalayout | globalvar | function | alias | comdat | vstoffset
  | metadataValuesUnused
deriving DecidableEq, Repr

def moduleCodeOf (op : BitVec 32) : Option ModuleCode :=
  [(1, .version), (2, .triple), (3, .datalayout), (7, .globalvar), (8, .function), (9, .alias),
    (12, .comdat), (13, .vstoffset), (15, .metadataValuesUnused)].lookup op.toNat

def moduleRec (depth : ℕ) : ModuleCode → Parse Fault ModuleUnit Unit
  | .version => do
    let a ← arg 0
    modifyUnit fun u => { u with version := a.setWidth 32 }
  | .triple => do
    let argv ← readOperands
    modifyUnit fun u => { u with triple := readStrFromArgv argv }
  | .globalvar => moduleGlobalvar depth
  | .function => moduleFunction
  | .alias => moduleAlias
  | .vstoffset => moduleVstoffset
  | .datalayout | .comdat | .metadataValuesUnused => pure ()

def moduleRecHandler (depth : ℕ) (op : BitVec 32) : Parse Fault ModuleUnit Unit :=
  match moduleCodeOf op with
  | some code => moduleRec depth code
  | none => do
    printargs
    fail (.parserError "Unknown module code %d")

/-! ## Attribute groups -/

/-- The group that was made last gets a flag; a shift is by the low six bits of the amount. -/
def addFlag (a : BitVec 64) : List IrAttr → List IrAttr
  | [] => []
  | ia :: ias => { ia with flags := ia.flags ||| (1 <<< (a.toNat % 64)) } :: ias

/-- The operands of an attribute, by its type. -/
def readAttrOf : ℕ → Parse Fault (List IrAttr) Unit
  | 0 => do
    let a ← arg 0
    modifyUnit (addFlag a)
    advance 1
  | 1 => do
    let c ← argc
    if c.toNat < 1 then fail (.parserError "%s: Missing int-arg")
    else advance 2
  | 3 => do
    let key ← readZstrFromArgv
    if key = none then fail (.parserError "%s: short string") else pure ()
  | 4 => do
    let key ← readZstrFromArgv
    if key = none then fail (.parserError "%s: short string")
    else do
      let value ← readZstrFromArgv
      if value = none then fail (.parserError "%s: short string") else pure ()
  | _ => fail (.parserError "%s: Unknown attr %d")

/-- The body of the loop over the attributes. -/
def readAttr : Parse Fault (List IrAttr) Unit := do
  let type ← arg 0
  advance 1
  let c ← argc
  if c = 0 then fail (.parserError "%s: Short record")
  else readAttrOf (indexOf type)

def paramattrGroupRecHandler (op : BitVec 32) : Parse Fault (List IrAttr) Unit :=
  if op = 3 then do
    let c ← argc
    if c.toNat < 3 then fail (.parserError "%s: Short (%d records)")
    else do
      let groupId ← arg 0
      let index ← arg 1
      modifyUnit fun ias => ⟨groupId.setWidth 32, index.setWidth 32, 0⟩ :: ias
      advance 2
      let c ← argc
      let _ ← whileArgs .outOfFuel (fun _ => readAttr) (c.toNat + 1) 0
      pure ()
  else fail (.parserError "Unknown op %d in paramattr_group")

/-! ## Types -/

/-- The types, whether one was made outside the records, and the name for the next struct. -/
structure TypesUnit where
  types : List IrType
  typesCreated : Bool
  currentStructName : Option (List (BitVec 8))

/-- `TYPE_CODE_*` -/
inductive TypeRecord
  | numentry | void | float | double | label | opaqueType | integer | pointer | array | vector
  | metadata | structAnon | structName | structNamed | function
deriving DecidableEq, Repr

def typeRecordOf (op : BitVec 32) : Option TypeRecord :=
  [(1, .numentry), (2, .void), (3, .float), (4, .double), (5, .label), (6, .opaqueType),
    (7, .integer), (8, .pointer), (11, .array), (12, .vector), (16, .metadata), (18, .structAnon),
    (19, .structName), (20, .structNamed), (21, .function)].lookup op.toNat

/-- The width is compared as a 64-bit number and kept as an `int`. -/
def integerOf (a : BitVec 64) : Except Fault IrType :=
  if a.toInt < 0 then .ok (.intx (a.setWidth 32).toInt.toNat) else integerType a.toNat

/-- `VECTOR_PUSH_BACK(&iu->iu_types, it)` -/
def pushType (it : IrType) : Parse Fault TypesUnit Unit :=
  modifyUnit fun u => { u with types := u.types ++ [it] }

/-- A struct, named or not. Its layout is computed later. -/
def structType (name : Option (List (BitVec 8))) : Parse Fault TypesUnit Unit := do
  let c ← argc
  let packed ← arg 0
  let elements ← forArgs (fun i => arg (i + 1)) (c - 1).toInt.toNat 0
  pushType (.struct ⟨elements.map fun a => ⟨indexOf a, 0⟩, 0, 0, packed ≠ 0, name⟩)

def functionType : Parse Fault TypesUnit Unit := do
  let c ← argc
  if c.toNat < 2 then fail (.parserError "%s: Invalid # of args (%d) for function type")
  else do
    let varargs ← arg 0
    let returnType ← arg 1
    let parameters ← forArgs (fun i => arg (2 + i)) (c - 2).toInt.toNat 0
    pushType (.function (varargs.setWidth 32 ≠ (0 : BitVec 32)) (indexOf returnType)
      (parameters.map indexOf))

def typeRec : TypeRecord → Parse Fault TypesUnit Unit
  | .numentry => do
    let c ← argc
    if c.toNat < 1 then fail (.parserError "%s: Short NUMENTRY record")
    else do
      let _ ← arg 0
      pure ()
  | .void => pushType .void
  | .float => pushType .float
  | .double => pushType .double
  | .integer => do
    let a ← arg 0
    let it ← lift (integerOf a)
    pushType it
  | .array => do
    let numElements ← arg 0
    let elementType ← arg 1
    pushType (.array (indexOf numElements) (indexOf elementType))
  | .structName => do
    let argv ← readOperands
    modifyUnit fun u => { u with currentStructName := some (readStrFromArgv argv) }
  | .structNamed => do
    let u ← getUnit
    modifyUnit fun u => { u with currentStructName := none }
    structType u.currentStructName
  | .structAnon => structType none
  | .pointer => do
    let a ← arg 0
    pushType (.pointer (if a.setWidth 32 = (-1 : BitVec 32) then none else some (indexOf a)))
  | .function => functionType
  | .metadata => pushType .metadata
  | .label => pushType .label
  | .opaqueType => pushType .opaqueType
  | .vector => do
    let _ ← arg 1
    let _ ← arg 0
    printargs
    fail (.parserError "%s: Unknown op %d")

def typesNewRecHandler (op : BitVec 32) : Parse Fault TypesUnit Unit := do
  let u ← getUnit
  if u.typesCreated then fail .abort
  else
    match typeRecordOf op with
    | some code => typeRec code
    | none => do
      printargs
      fail (.parserError "%s: Unknown op %d")

/-! ## Constants -/

def constCodeOf (op : BitVec 32) : Option ConstCode :=
  [(1, .settype), (2, .null), (3, .undef), (4, .integer), (6, .float), (7, .aggregate), (8, .string),
    (9, .cstring), (10, .binop), (11, .cast), (12, .gep), (17, .cmp), (18, .inlineasmOld),
    (20, .inboundsGep), (21, .blockaddress), (22, .data), (23, .inlineasm)].lookup op.toNat

/-- The new value, of the current type, and what its union points to. -/
def setValue (cls : ValueClass) (f : ℕ → Constants → Constants) : Parse Fault Constants Unit :=
  modifyUnit fun c => f c.iu.values.length (appendValue c cls)

def setCe (ce : IrConstexpr) : Parse Fault Constants Unit :=
  setValue .ce fun v c => { c with ce := Function.update c.ce v (some ce) }

def setData (bs : List (BitVec 8)) : Parse Fault Constants Unit :=
  setValue .data fun v c => { c with data := Function.update c.data v bs }

def currentType : Parse Fault Constants IrType := do
  let c ← getUnit
  lift (typeGet c.iu c.currentType)

def aggregateValue (i : ℕ) : Parse Fault Constants ℕ := do
  let a ← arg i
  let c ← getUnit
  if indexOf a < c.iu.values.length + 1 then pure (indexOf a)
  else fail (.parserError "Bad value index %d")

/-- The bytes of the elements, if the type has some. -/
def dataRec : Parse Fault Constants Unit := do
  let it ← currentType
  match it with
  | .array _ elementType => do
    let c ← getUnit
    let element ← lift (typeGet c.iu elementType)
    if dataBytes element [] = none then fail cantParseData
    else do
      let argv ← readOperands
      setData ((dataBytes element argv).getD [])
  | _ => fail cantParseData

def gepConstexpr : Parse Fault Constants Unit := do
  let c ← argc
  if c.toNat % 2 = 1 then advance 1 else pure ()
  let c ← argc
  let values ← forArgs (fun i => arg (1 + i * 2)) (c.toNat / 2) 0
  setCe (.gep (values.map indexOf))

def constantsRec : ConstCode → Parse Fault Constants Unit
  | .settype => do
    let c ← argc
    if c.toNat < 1 then fail (.parserError "Bad # of args for CST_CODE_SETTYPE")
    else do
      assertArgc
      let type ← arg 0
      modifyUnit fun c => { c with currentType := indexOf type }
  | .undef | .null => do
    let it ← currentType
    let cls ← lift (nullConstant it)
    setValue cls fun _ c => c
  | .integer => do
    assertArgc
    let it ← currentType
    let a ← arg 0
    let cls ← lift (integerConstant it 0 a)
    setValue cls fun _ c => c
  | .float => do
    assertArgc
    let it ← currentType
    let a ← arg 0
    let cls ← lift (floatConstant it a)
    setValue cls fun _ c => c
  | .aggregate => do
    let c ← argc
    let values ← forArgs aggregateValue c.toNat 0
    setValue .aggregate fun v c => { c with aggregate := Function.update c.aggregate v values }
  | .data => dataRec
  | .string | .cstring => do
    let argv ← readOperands
    setData (readStrFromArgv argv)
  | .cast => do
    let op ← arg 0
    let src ← arg 2
    setCe (.cast (castOpOf (indexOf op)) (indexOf src))
  | .gep | .inboundsGep => gepConstexpr
  | .binop => do
    let c ← argc
    if c.toNat < 3 then fail (.parserError "CST_CODE_CE_BINOP with invalid number of args %d")
    else do
      let op ← arg 0
      let lhs ← arg 1
      let rhs ← arg 2
      setCe (.binop (binopOf (indexOf op)) (indexOf lhs) (indexOf rhs))
  | .cmp => do
    let c ← argc
    if c.toNat < 4 then fail (.parserError "CST_CODE_CE_CMP with invalid number of args %d")
    else do
      let opty ← arg 0
      let lhs ← arg 1
      let rhs ← arg 2
      let pred ← arg 3
      setCe (.cmp (indexOf opty) (indexOf lhs) (indexOf rhs) (icmpPredOf (indexOf pred)))
  | .blockaddress =>
    fail (.parserError "CST_CODE_BLOCKADDRESS (computed goto) is not supported")
  | .inlineasm | .inlineasmOld => fail (.parserError "Inline asm not supported")

def constantsRecHandler (op : BitVec 32) : Parse Fault Constants Unit :=
  match constCodeOf op with
  | some code => constantsRec code
  | none => fail (.parserError "Unknown op %d in constant block curty=%s")

/-! ## Calls of a handler -/

section
variable {υ : Type} (rh : BitVec 32 → Parse Fault υ Unit) (u : υ)

/-- The call with which `ir_unabbrev_record` ends. -/
def callUnabbrev (code : BitVec 32) (argv : List (BitVec 64)) :
    Except (Stop Fault) (Unit × Cursor υ) :=
  rh code (start u argv)

/-- The call with which `ir_dispatch_abbrev` ends. The first of the values is the code, and the others
are the operands; if there is no value, what is behind the vector is taken for the code. -/
def callAbbrev (values : List (BitVec 64)) : Except (Stop Fault) (Unit × Cursor υ) :=
  match values with
  | [] => .error .outside
  | code :: argv => rh (code.setWidth 32) ⟨u, BitVec.ofNat 32 values.length - 1, argv⟩

end

end Vmir.RecordHandlers
