import Vmir.Abbrevs

set_option autoImplicit false

/-!
# The block parser

The mutual recursion of `ir_parse_blocks` and `ir_enter_subblock`, with its stack of calls: a step
is a turn of the loop of the innermost call, or the rest of a function block's entry when a jump is
over.
-/
namespace Vmir.BlockParser
open BitReader FieldReads Vbr Abbrevs Ir

/-! ## Block ids -/

def bitcodeBlockinfo : BitVec 32 := 0
def bitcodeModule : BitVec 32 := 8
def bitcodeFunction : BitVec 32 := 12

def blockIds : List (BitVec 32) := [0, 8, 9, 10, 11, 12, 13, 14, 15, 16, 17, 18, 21, 22]

def moduleCodeVstoffset : BitVec 32 := 13

/-! ## The state -/

/-- `ir_block_t` -/
structure IrBlock where
  ibBlockinfo : Option (BitVec 32)
  ibScopedAbbrevs : List IrAbbrev
deriving DecidableEq, Repr

/-- What of `ir_unit_t` the parser itself uses, and the rest, which the handlers use. -/
structure Parser (υ : Type) where
  vstoffset : BitVec 32
  ibAbbrevs : BitVec 32 → List IrAbbrev
  blocks : List IrBlock
  unit : υ

/-- A call of `ir_parse_blocks`. The handler is the one of `block`, if it is not null. -/
structure Call where
  abbrevIdWidth : BitVec 32
  block : Option (BitVec 32)
  ibi : Option (BitVec 32)
  valuelistsize : ℕ
deriving DecidableEq, Repr

/-- A function block that is not yet parsed because of the jump to the symbol table: the stream
behind its header, the calls around it, and what the call for it is made with. -/
structure Jump where
  bs : BcBitStream
  calls : List Call
  innerIdWidth : BitVec 32
  valuelistsize : ℕ
deriving DecidableEq, Repr

/-- The calls and the jumps are innermost first. -/
structure State (υ : Type) where
  parser : Parser υ
  bs : BcBitStream
  calls : List Call
  jumps : List Jump

def Halts (e : Fault) : Prop := e = .abort ∨ ∃ msg, e = .parserError msg

/-- The code outside the block parser that is called: the record handlers, `iu_next_value`, the
choice of the next function with `function_prepare_parse`, and what follows a block. -/
structure Handlers (υ : Type) where
  handle : BitVec 32 → Record → υ → Except Fault υ
  nextValue : υ → ℕ
  setFirstFuncValue : υ → υ
  prepareFunction : υ → Except Fault υ
  finish : BitVec 32 → ℕ → υ → Except Fault υ
  handle_halts : ∀ {b r u e}, handle b r u = .error e → Halts e
  prepareFunction_halts : ∀ {u e}, prepareFunction u = .error e → Halts e
  finish_halts : ∀ {b n u e}, finish b n u = .error e → Halts e

/-! ## Reading -/

inductive Entry
  | endBlock
  | enterSubblock (blockid innerIdWidth : BitVec 32)
  | defineAbbrev (ia : IrAbbrev)
  | record (r : Record)
deriving DecidableEq, Repr

def irEnterSubblockHeader (rdata : List (BitVec 8)) : Read Entry := do
  let blockid ← readVbr rdata 8
  let innerIdWidth ← readVbr rdata 4
  modify alignBits32
  let _ ← bits rdata 32
  pure (.enterSubblock blockid innerIdWidth)

variable {υ : Type}

/-- The abbreviations of the innermost block. -/
def Parser.scope (p : Parser υ) (ib : IrBlock) : Scope :=
  ⟨p.ibAbbrevs, ib.ibBlockinfo, ib.ibScopedAbbrevs⟩

/-- An abbreviation is looked up in the block info of the call and in the innermost block. -/
def readAbbreviated (rdata : List (BitVec 8)) (p : Parser υ) (ibi : Option (BitVec 32)) (id : ℕ) :
    Read Record :=
  match ibi, p.blocks with
  | some ibi, ib :: _ => irDispatchAbbrev rdata (p.scope ib) ibi id
  | _, _ => throw .nullDeref

def entryOf (rdata : List (BitVec 8)) (p : Parser υ) (ibi : Option (BitVec 32)) (id : ℕ) :
    Read Entry :=
  match id with
  | 0 => pure .endBlock
  | 1 => irEnterSubblockHeader rdata
  | 2 => do
    let ia ← readAbbrev rdata
    pure (.defineAbbrev ia)
  | 3 => do
    let r ← irUnabbrevRecord rdata
    pure (.record r)
  | id => do
    let r ← readAbbreviated rdata p ibi id
    pure (.record r)

def readEntry (rdata : List (BitVec 8)) (p : Parser υ) (call : Call) : Read Entry := do
  let id ← bits rdata (intWidth call.abbrevIdWidth)
  entryOf rdata p call.ibi id.toNat

/-! ## Steps -/

/-- The call of `ir_parse_blocks`, up to its loop. -/
def State.enter (s : State υ) (call : Call) : Except Fault (State υ) :=
  if s.bs.remain = 0 then .ok { s with calls := call :: s.calls } else .error .abort

def enterFunction (H : Handlers υ) (s : State υ) (innerIdWidth : BitVec 32) (valuelistsize : ℕ) :
    Except Fault (State υ) := do
  let u ← H.prepareFunction s.parser.unit
  { s with parser := { s.parser with unit := u } }.enter
    ⟨innerIdWidth, some bitcodeFunction, some bitcodeFunction, valuelistsize⟩

/-- The place in the stream that the offset of the symbol table stands for, in bytes. -/
def vstPosition (p : Parser υ) : BitVec 32 := p.vstoffset * 4

/-- The jump in front of a function block. There is no data before the start. -/
def jumpToVst (s : State υ) (outerIdWidth innerIdWidth : BitVec 32) (valuelistsize : ℕ) :
    Except Fault (State υ) :=
  if (vstPosition s.parser).msb then .error .nullDeref
  else
    State.enter
      { parser := s.parser
        bs := ⟨(vstPosition s.parser).toNat, 0, s.bs.tmp⟩
        calls := []
        jumps := ⟨s.bs, s.calls, innerIdWidth, valuelistsize⟩ :: s.jumps }
      ⟨outerIdWidth, none, some bitcodeFunction, 0⟩

def enterFunctionBlock (H : Handlers υ) (s : State υ) (outerIdWidth innerIdWidth : BitVec 32) :
    Except Fault (State υ) :=
  let valuelistsize := H.nextValue s.parser.unit
  let s := { s with parser := { s.parser with unit := H.setFirstFuncValue s.parser.unit } }
  if s.parser.vstoffset = 0 then enterFunction H s innerIdWidth valuelistsize
  else jumpToVst s outerIdWidth innerIdWidth valuelistsize

/-- `ir_enter_subblock` behind the header, in a call with `outerIdWidth`. -/
def irEnterSubblock (H : Handlers υ) (s : State υ) (outerIdWidth blockid innerIdWidth : BitVec 32) :
    Except Fault (State υ) :=
  let s := { s with parser := { s.parser with blocks := ⟨none, []⟩ :: s.parser.blocks } }
  if blockid = bitcodeFunction then enterFunctionBlock H s outerIdWidth innerIdWidth
  else if blockid ∈ blockIds then s.enter ⟨innerIdWidth, some blockid, some blockid, 0⟩
  else .error (.parserError s!"Invalid block type {blockid.toNat}")

def resume (H : Handlers υ) (s : State υ) (j : Jump) (jumps : List Jump) :
    Except Fault (State υ) :=
  enterFunction H ⟨{ s.parser with vstoffset := 0 }, j.bs, j.calls, jumps⟩ j.innerIdWidth
    j.valuelistsize

/-- What follows the call of `ir_parse_blocks` for a block. -/
def leave (H : Handlers υ) (p : Parser υ) (call : Call) : Except Fault (Parser υ) :=
  match call.block with
  | none => .ok p
  | some blockid => do
    let u ← H.finish blockid call.valuelistsize p.unit
    .ok { p with unit := u, blocks := p.blocks.tail }

def defineAbbrev (p : Parser υ) (ia : IrAbbrev) : Except Fault (Parser υ) :=
  match p.blocks with
  | [] => .error .nullDeref
  | ib :: rest =>
    let sc := (p.scope ib).insert ia
    .ok { p with
      ibAbbrevs := sc.ibAbbrevs
      blocks := ⟨sc.ibBlockinfo, sc.ibScopedAbbrevs⟩ :: rest }

def blockinfoRecHandler (p : Parser υ) (r : Record) : Except Fault (Parser υ) :=
  if r.op = 1 then
    match p.blocks, r.argv with
    | ib :: rest, [a] =>
      .ok { p with blocks := { ib with ibBlockinfo := some (a.setWidth 32) } :: rest }
    | [], [_] => .error .nullDeref
    | _, argv => .error (.parserError s!"Bad number of args ({argv.length}) for SETBID")
  else .ok p

def moduleVstoffset (p : Parser υ) (r : Record) : Except Fault (Parser υ) :=
  match r.argv with
  | [a] => .ok { p with vstoffset := a.setWidth 32 }
  | _ => .error (.parserError "Bad number of args")

/-- The handlers that change what the parser uses are those of the block infos and of the offset
of the symbol table. -/
def recHandler (H : Handlers υ) (p : Parser υ) (call : Call) (r : Record) :
    Except Fault (Parser υ) :=
  match call.block with
  | none => .error .nullDeref
  | some blockid =>
    if blockid = bitcodeBlockinfo then blockinfoRecHandler p r
    else if blockid = bitcodeModule ∧ r.op = moduleCodeVstoffset then moduleVstoffset p r
    else do
      let u ← H.handle blockid r p.unit
      .ok { p with unit := u }

/-- The turn of `call`, the innermost of the calls, that reads `entry`. -/
def turn (H : Handlers υ) (s : State υ) (call : Call) (calls : List Call) (entry : Entry) :
    Except Fault (State υ) :=
  match entry with
  | .endBlock => do
    let p ← leave H s.parser call
    .ok ⟨p, alignBits32 s.bs, calls, s.jumps⟩
  | .enterSubblock blockid innerIdWidth => irEnterSubblock H s call.abbrevIdWidth blockid innerIdWidth
  | .defineAbbrev ia => do
    let p ← defineAbbrev s.parser ia
    .ok { s with parser := p }
  | .record r => do
    let p ← recHandler H s.parser call r
    .ok { s with parser := p }

/-- Without calls and jumps the parser has returned. -/
def step (H : Handlers υ) (rdata : List (BitVec 8)) (s : State υ) : Except Fault (State υ) :=
  match s.calls, s.jumps with
  | [], [] => .ok s
  | [], j :: jumps => resume H s j jumps
  | call :: calls, _ => do
    let (entry, bs) ← readEntry rdata s.parser call s.bs
    turn H { s with bs := bs } call calls entry

/-- The call of `ir_parse_blocks` in `vmir_load`, behind the magic number. -/
def start (u : υ) : State υ :=
  ⟨⟨0, fun _ => [], [], u⟩, ⟨4, 0, 0⟩, [⟨2, none, none, 0⟩], []⟩

end Vmir.BlockParser
