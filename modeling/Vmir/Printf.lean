import Vmir.PrepareCall
import Vmir.IrTypes

set_option autoImplicit false

/-!
# The formatter of the library

`dofmt` copies the text of the format, cuts out the conversions and hands each of them to the
formatter of the host, with arguments from the variable arguments of the call.
-/
namespace Vmir.Printf
open ByteStore Ir IrTypes PrepareCall

abbrev Byte := BitVec 8

def byte (c : Char) : Byte := BitVec.ofNat 8 c.toNat

/-- An argument for the formatter of the host, a string as its address in the guest. -/
inductive Arg
  | int (v : BitVec 32)
  | int64 (v : BitVec 64)
  | ptr (v : BitVec 32)
  | str (v : BitVec 32)
  | double (v : BitVec 64)
deriving DecidableEq, Repr

/-- `FMT_TYPE_INT` and so on. -/
inductive FmtType
  | int | int64 | ptr | str | double
deriving DecidableEq, Repr

/-- The host: the text that it makes of one conversion, if there is no error, and the side from
which its compiler evaluates the arguments of a call. -/
structure Host where
  format : List Byte → List Arg → Option (List Byte)
  fits : ∀ fmt args out, format fmt args = some out → out.length < 2 ^ 31
  rightFirst : Bool

/-- `snprintf`: the length, and what stands in front of the NUL. -/
def Host.snprintf (h : Host) (dz : ℕ) (fmt : List Byte) (args : List Arg) :
    Option (ℕ × List Byte) :=
  (h.format fmt args).map fun out => (out.length, out.take (dz - 1))

def popValue (m : Bytes) (type : FmtType) (va : ℤ) : Arg × ℤ :=
  match type with
  | .int => (.int (vmirVmArg32 m va).1, (vmirVmArg32 m va).2)
  | .int64 => (.int64 (vmirVmArg64 m va).1, (vmirVmArg64 m va).2)
  | .ptr => (.ptr (vmirVmArg32 m va).1, (vmirVmArg32 m va).2)
  | .str => (.str (vmirVmArg32 m va).1, (vmirVmArg32 m va).2)
  | .double => (.double (vmirVmArg64 m va).1, (vmirVmArg64 m va).2)

/-- The arguments of the call of `snprintf`, for `num_field_args` and the type. A floating point
conversion with one field does not use `l1`. -/
def pop (h : Host) (m : Bytes) (type : FmtType) (numFieldArgs : ℕ) (va : ℤ) :
    Option (List Arg × ℤ) :=
  match numFieldArgs with
  | 0 =>
    let v := popValue m type va
    some ([v.1], v.2)
  | 1 =>
    let l1 := vmirVmArg32 m va
    if type = .double then
      if h.rightFirst then
        let v := vmirVmArg64 m l1.2
        let w := vmirVmArg32 m v.2
        some ([.int w.1, .double v.1], w.2)
      else
        let w := vmirVmArg32 m l1.2
        let v := vmirVmArg64 m w.2
        some ([.int w.1, .double v.1], v.2)
    else
      let v := popValue m type l1.2
      some ([.int l1.1, v.1], v.2)
  | 2 =>
    let l1 := vmirVmArg32 m va
    let l2 := vmirVmArg32 m l1.2
    let v := popValue m type l2.2
    some ([.int l1.1, .int l2.1, v.1], v.2)
  | _ => none

section
variable {σ : Type} (h : Host) (m : Bytes) (output : σ → List Byte → σ)

/-- The loop of `dofmt2`, which starts from the same arguments each time. There is one allocation
of a larger buffer at most. -/
def formatLoop (fmt : List Byte) (numFieldArgs : ℕ) (type : FmtType) (s : σ) (va : ℤ) :
    ℕ → ℕ → Except Fault (σ × ℤ)
  | 0, _ => .error .abort
  | rounds + 1, dz =>
    match pop h m type numFieldArgs va with
    | none => .ok (s, va)
    | some (args, va') =>
      match h.snprintf dz fmt args with
      | none => .ok (s, va')
      | some (n, dst) =>
        if n < dz then .ok (output s (dst.take n), va')
        else formatLoop fmt numFieldArgs type s va rounds (n + 1)

def dofmt2 (fmt : List Byte) (numFieldArgs : ℕ) (type : FmtType) (s : σ) (va : ℤ) :
    Except Fault (σ × ℤ) :=
  formatLoop h m output fmt numFieldArgs type s va 2 100

end

inductive Switch
  | again | field | digits | long | quad
  | character | integer | floating | pointer | string
  | other
deriving DecidableEq, Repr

/-- The labels of `switch(c)`. -/
def reswitch (c : Byte) : Switch :=
  if c ∈ [byte ' ', byte '#', byte '+', byte '-', byte '0'] then .again
  else if c = byte '*' then .field
  else if c ∈ [byte '.', byte '1', byte '2', byte '3', byte '4', byte '5', byte '6', byte '7',
      byte '8', byte '9'] then .digits
  else if c = byte 'l' then .long
  else if c = byte 'q' then .quad
  else if c = byte 'c' then .character
  else if c ∈ [byte 'O', byte 'o', byte 'D', byte 'd', byte 'i', byte 'U', byte 'u', byte 'X',
      byte 'x'] then .integer
  else if c ∈ [byte 'e', byte 'E', byte 'f', byte 'g', byte 'G'] then .floating
  else if c = byte 'p' then .pointer
  else if c = byte 's' then .string
  else .other

def isDigit (c : Byte) : Bool := byte '0' ≤ c && c ≤ byte '9'

/-- A conversion up to the character that is read next; `digits` is set in the loops over the
digits of a width or a precision. -/
structure Spec where
  text : List Byte
  numFieldArgs : ℕ
  long : Bool
  int64 : Bool
  digits : Bool
deriving DecidableEq, Repr

/-- The type of a conversion, if the character ends it. -/
def typeOf (spec : Spec) : Switch → Option FmtType
  | .character => some .int
  | .integer => some (if spec.int64 then .int64 else .int)
  | .floating => some .double
  | .pointer => some .ptr
  | .string => some .str
  | _ => none

/-- The conversion after a character that goes on with it. -/
def Spec.goOn (spec : Spec) (c : Byte) : Option Spec :=
  let spec' := { spec with text := spec.text ++ [c], digits := false }
  if spec.digits && isDigit c then some { spec' with digits := true }
  else
    match reswitch c with
    | .again => some spec'
    | .field => some { spec' with numFieldArgs := spec.numFieldArgs + 1 }
    | .digits => some { spec' with digits := true }
    | .long =>
      if spec.long then some { spec' with int64 := true } else some { spec' with long := true }
    | .quad => some { spec' with int64 := true }
    | _ => none

section
variable {σ : Type} (h : Host) (m : Bytes) (output : σ → List Byte → σ)

/-- `dofmt` in front of the rest of the format, within a conversion or not. The end of the list is
the NUL. -/
def dofmt (conversion : Option Spec) (fmt : List Byte) (s : σ) (va : ℤ) : Except Fault σ :=
  match fmt with
  | [] => .ok s
  | c :: fmt =>
    match conversion with
    | none =>
      if c = byte '%' then dofmt (some ⟨[c], 0, false, false, false⟩) fmt s va
      else dofmt none fmt (output s [c]) va
    | some spec =>
      match spec.goOn c with
      | some spec' => dofmt (some spec') fmt s va
      | none =>
        match typeOf spec (reswitch c) with
        | some type => do
          let (s, va) ← dofmt2 h m output (spec.text ++ [c]) spec.numFieldArgs type s va
          dofmt none fmt s va
        | none => dofmt none fmt (output s [c]) va

end

/-! ## Formats -/

abbrev Digit := { c : Byte // isDigit c }

inductive Flag
  | space | hash | plus | minus | zero
deriving DecidableEq, Repr

def Flag.byte : Flag → Byte
  | .space => Printf.byte ' '
  | .hash => Printf.byte '#'
  | .plus => Printf.byte '+'
  | .minus => Printf.byte '-'
  | .zero => Printf.byte '0'

/-- A width begins with a digit that is not the flag `0`. -/
inductive Width
  | none
  | number (first : { c : Byte // isDigit c ∧ c ≠ byte '0' }) (rest : List Digit)
  | star

inductive Precision
  | none
  | number (digits : List Digit)
  | star

inductive Modifier
  | none | l | ll | q | h | hh | z | j | t
deriving DecidableEq, Repr

inductive Conv
  | d | i | o | u | x | upperX | c | s | p | e | upperE | f | g | upperG
deriving DecidableEq, Repr

structure Conversion where
  flags : List Flag
  width : Width
  precision : Precision
  modifier : Modifier
  conv : Conv

inductive Piece
  | char (c : { c : Byte // c ≠ byte '%' ∧ c ≠ 0 })
  | percent
  | conversion (c : Conversion)

def Width.text : Width → List Byte
  | .none => []
  | .number first rest => first.val :: rest.map Subtype.val
  | .star => [byte '*']

def Precision.text : Precision → List Byte
  | .none => []
  | .number digits => byte '.' :: digits.map Subtype.val
  | .star => [byte '.', byte '*']

def Modifier.text : Modifier → List Byte
  | .none => []
  | .l => [byte 'l']
  | .ll => [byte 'l', byte 'l']
  | .q => [byte 'q']
  | .h => [byte 'h']
  | .hh => [byte 'h', byte 'h']
  | .z => [byte 'z']
  | .j => [byte 'j']
  | .t => [byte 't']

def Conv.byte : Conv → Byte
  | .d => Printf.byte 'd'
  | .i => Printf.byte 'i'
  | .o => Printf.byte 'o'
  | .u => Printf.byte 'u'
  | .x => Printf.byte 'x'
  | .upperX => Printf.byte 'X'
  | .c => Printf.byte 'c'
  | .s => Printf.byte 's'
  | .p => Printf.byte 'p'
  | .e => Printf.byte 'e'
  | .upperE => Printf.byte 'E'
  | .f => Printf.byte 'f'
  | .g => Printf.byte 'g'
  | .upperG => Printf.byte 'G'

def Conversion.text (c : Conversion) : List Byte :=
  byte '%' :: (c.flags.map Flag.byte ++ (c.width.text ++ (c.precision.text
    ++ (c.modifier.text ++ [c.conv.byte]))))

def Piece.text : Piece → List Byte
  | .char c => [c.val]
  | .percent => [byte '%', byte '%']
  | .conversion c => c.text

/-! ## Arguments -/

def Arg.type : Arg → FmtType
  | .int _ => .int
  | .int64 _ => .int64
  | .ptr _ => .ptr
  | .str _ => .str
  | .double _ => .double

def Arg.actual : Arg → Actual
  | .int v => .word v
  | .int64 v => .wide v
  | .ptr v => .word v
  | .str v => .word v
  | .double v => .wide v

/-- The guest has an `int`, a `long`, a `size_t` and a `ptrdiff_t` of 32 bits, and an `intmax_t`
and a `long long` of 64. -/
def integerType : Modifier → FmtType
  | .ll | .q | .j => .int64
  | _ => .int

def Conversion.type (c : Conversion) : FmtType :=
  match c.conv with
  | .d | .i | .o | .u | .x | .upperX => integerType c.modifier
  | .c => .int
  | .s => .str
  | .p => .ptr
  | .e | .upperE | .f | .g | .upperG => .double

def Width.stars : Width → ℕ
  | .star => 1
  | _ => 0

def Precision.stars : Precision → ℕ
  | .star => 1
  | _ => 0

def Conversion.stars (c : Conversion) : ℕ := c.width.stars + c.precision.stars

def Piece.types : Piece → List FmtType
  | .conversion c => List.replicate c.stars .int ++ [c.type]
  | _ => []

/-- The arguments where the caller puts them. -/
def Laid (m : Bytes) (va : ℤ) (args : List Arg) : Prop :=
  hostArgs m va (args.map fun a => a.actual.slots) = args.map Arg.actual

def Piece.output (h : Host) (args : List Arg) : Piece → List (List Byte)
  | .char c => [[c.val]]
  | .percent => [[byte '%']]
  | .conversion c => (h.format c.text args).toList

/-- The output for the pieces: each takes as many arguments as it has. -/
def outputs (h : Host) : List Piece → List Arg → List (List Byte)
  | [], _ => []
  | p :: ps, args =>
    p.output h (args.take p.types.length) ++ outputs h ps (args.drop p.types.length)

/-- For every list of arguments that fits the format, the text and the conversions with their own
arguments are output in order. -/
def Consumes (ps : List Piece) : Prop :=
  ∀ (h : Host) (m : Bytes) (va : ℤ) (args : List Arg),
    args.map Arg.type = ps.flatMap Piece.types → Laid m va args →
    ∀ (σ : Type) (output : σ → List Byte → σ) (s : σ),
      dofmt h m output none (ps.flatMap Piece.text) s va
        = .ok ((outputs h ps args).foldl output s)

/-- The modifier is known, and it is not a floating point conversion with one `*`. -/
def Conversion.Supported (c : Conversion) : Prop :=
  c.modifier ∈ [Modifier.none, .l, .ll, .q] ∧ ¬ (c.type = .double ∧ c.stars = 1)

def Piece.Supported : Piece → Prop
  | .conversion c => c.Supported
  | _ => True

end Vmir.Printf
