import Vmir.TypeLayout

set_option autoImplicit false

/-!
# Constant expressions

`eval_constexpr` and `eval_constexprs` of `vmir_value.c`. The value table holds the class of each
value; what the union of an unevaluated expression or an alias points to is kept beside it.
-/
namespace Vmir.ConstExprs
open Ir IrTypes TypeLayout

/-- `ir_constexpr_t`. An operation is none if its code is not that of one. -/
inductive IrConstexpr
  | cast (op : Option CastOp) (src : ℕ)
  | gep (values : List ℕ)
  | binop (op : Option Binop) (lhs rhs : ℕ)
  | cmp (opty lhs rhs : ℕ) (pred : Option IcmpPred)
deriving DecidableEq, Repr

/-- Beside the values: the `iv_ce` of an expression, the `iv_reg` of an alias, the upper half of the
union of a value whose lower half becomes a constant, and the depth to which nested array types are
followed. -/
structure Pool where
  ce : ℕ → IrConstexpr
  aliasReg : ℕ → ℕ
  upper : ℕ → BitVec 32
  depth : ℕ

/-! ## Arithmetic of the host -/

/-- A division by zero, or one whose quotient is no `int32_t`, stops the program. -/
def SdivTraps (l r : BitVec 32) : Prop := r = 0 ∨ (l = BitVec.intMin 32 ∧ r = -1)

instance (l r : BitVec 32) : Decidable (SdivTraps l r) := instDecidableOr

/-- A shift by 32 or more is undefined; the host takes the lowest five bits of the amount. -/
def foldBinop (op : Option Binop) (l r : BitVec 32) : Except Fault (BitVec 32) :=
  match op with
  | some .add => .ok (l + r)
  | some .sub => .ok (l - r)
  | some .mul => .ok (l * r)
  | some .udiv => if r = 0 then .error .abort else .ok (l / r)
  | some .sdiv => if SdivTraps l r then .error .abort else .ok (l.sdiv r)
  | some .urem => if r = 0 then .error .abort else .ok (l % r)
  | some .srem => if SdivTraps l r then .error .abort else .ok (l.srem r)
  | some .shl => .ok (l <<< (r.toNat % 32))
  | some .lshr => .ok (l >>> (r.toNat % 32))
  | some .ashr => .ok (l.sshiftRight (r.toNat % 32))
  | some .and => .ok (l &&& r)
  | some .or => .ok (l ||| r)
  | some .xor => .ok (l ^^^ r)
  | none => .error (.parserError "Unable to handle opcode %d in constant binop")

def icmp (pred : IcmpPred) (l r : BitVec 32) : Bool :=
  match pred with
  | .eq => l == r
  | .ne => l != r
  | .ugt => r.ult l
  | .uge => r.ule l
  | .ult => l.ult r
  | .ule => l.ule r
  | .sgt => r.slt l
  | .sge => r.sle l
  | .slt => l.slt r
  | .sle => l.sle r

def foldCmp (pred : Option IcmpPred) (l r : BitVec 32) : Except Fault (BitVec 32) :=
  match pred with
  | some pred => .ok (if icmp pred l r then 1 else 0)
  | none => .error (.parserError "Unable to handle opcode %d in constant cmp")

/-! ## The expressions -/

inductive CastResult
  | u32 (x : BitVec 32)
  | function (gfid : BitVec 32)
deriving DecidableEq, Repr

def castUnsupported : Fault :=
  .parserError "Unable to constant-cast %s from %s using op %d class=%d"

def foldCast (iu : IrUnit) (tc : TypeCode) (op : Option CastOp) (src : Value) :
    Except Fault CastResult :=
  match op with
  | some .inttoptr =>
    match src.cls with
    | .constant u64 => if tc = .pointer then .ok (.u32 (u64.setWidth 32)) else .error castUnsupported
    | _ => .error castUnsupported
  | some .bitcast =>
    if tc = .pointer then
      match src.cls with
      | .globalvar _ | .constant _ => do
        let x ← valueGetConst32 iu src
        .ok (.u32 x)
      | .function gfid => .ok (.function gfid)
      | _ => .error castUnsupported
    else .error castUnsupported
  | some .ptrtoint =>
    match src.cls with
    | .globalvar _ | .constant _ =>
      if tc = .int32 ∨ tc = .int8 then do
        let x ← valueGetConst32 iu src
        .ok (.u32 x)
      else .error castUnsupported
    | .function gfid => if tc = .int32 then .ok (.u32 gfid) else .error castUnsupported
    | _ => .error castUnsupported
  | _ => .error castUnsupported

/-- `addr` and `type_index` in the loop over the indices. -/
structure GepLoop where
  addr : BitVec 32
  typeIndex : ℕ
deriving DecidableEq, Repr

/-- There is no element in front of a struct. -/
def gepStep (iu : IrUnit) (depth : ℕ) (g : GepLoop) (x : BitVec 32) : Except Fault GepLoop := do
  let curtype ← typeGet iu g.typeIndex
  match curtype with
  | .pointer (some pointee) => do
    let size ← typeSizeof iu depth pointee
    .ok ⟨g.addr + x * size, pointee⟩
  | .pointer none => .error (.parserError "Bad type index %d")
  | .struct s =>
    if x.msb then .error .nullDeref
    else
      match s.elements[x.toNat]? with
      | none => .error (.parserError "Bad index %d info struct")
      | some e => .ok ⟨g.addr + e.offset, e.type⟩
  | .array _ elementType => do
    let size ← typeSizeof iu depth elementType
    .ok ⟨g.addr + x * size, elementType⟩
  | _ => .error (.parserError "Unable to handle type %s in constexpr GEP")

def gepIndex (iu : IrUnit) (depth : ℕ) (g : GepLoop) (index : ℕ) : Except Fault GepLoop := do
  let curval ← valueGet iu index
  let x ← valueGetConst32 iu curval
  gepStep iu depth g x

/-- `type_make_pointer` that may create the type. -/
def makePointer (iu : IrUnit) (type : ℕ) : IrUnit × ℕ :=
  match iu.types.findIdx? fun it => it = .pointer (some type) with
  | some i => (iu, i)
  | none => ({ iu with types := iu.types ++ [.pointer (some type)] }, iu.types.length)

/-- `iv_u32` and the class of a value that becomes a constant. -/
def setU32 (P : Pool) (iu : IrUnit) (i : ℕ) (type : ℕ) (x : BitVec 32) : IrUnit :=
  { iu with values := iu.values.set i ⟨.constant (P.upper i ++ x), type⟩ }

/-- The value is evaluated first if it is an expression itself, by `eval`. -/
def evalInner (eval : IrUnit → ℕ → Except Fault IrUnit) (iu : IrUnit) (v : ℕ) :
    Except Fault IrUnit := do
  let iv ← valueGet iu v
  if iv.cls = .ce then eval iu v else .ok iu

def dealias (P : Pool) (iu : IrUnit) (index : ℕ) (iv : Value) : Except Fault Value :=
  if iv.cls = .alias then valueGet iu (P.aliasReg index) else .ok iv

def evalCast (P : Pool) (eval : IrUnit → ℕ → Except Fault IrUnit) (iu : IrUnit) (i : ℕ)
    (op : Option CastOp) (srcIndex : ℕ) : Except Fault IrUnit := do
  let iv ← valueGet iu i
  let it ← typeGet iu iv.type
  let iu ← evalInner eval iu srcIndex
  let src ← valueGet iu srcIndex
  let src ← dealias P iu srcIndex src
  let result ← foldCast iu it.code op src
  match result with
  | .u32 x => .ok (setU32 P iu i iv.type x)
  | .function gfid => .ok { iu with values := iu.values.set i ⟨.function gfid, src.type⟩ }

/-- An operation `fold` on two constants, for the types with `codes`. -/
def evalOperands (P : Pool) (iu : IrUnit) (i lhs rhs : ℕ) (type : Value → ℕ)
    (codes : List TypeCode) (unsupported : Fault)
    (fold : BitVec 32 → BitVec 32 → Except Fault (BitVec 32)) : Except Fault IrUnit := do
  let iv ← valueGet iu i
  let l ← valueGet iu lhs
  let r ← valueGet iu rhs
  let it ← typeGet iu (type iv)
  if it.code ∈ codes then do
    let l ← valueGetConst32 iu l
    let r ← valueGetConst32 iu r
    let x ← fold l r
    .ok (setU32 P iu i iv.type x)
  else .error unsupported

def evalBinop (P : Pool) (iu : IrUnit) (i : ℕ) (op : Option Binop) (lhs rhs : ℕ) :
    Except Fault IrUnit :=
  evalOperands P iu i lhs rhs Value.type [.int8, .int32, .pointer]
    (.parserError "Unable to handle constant binop for typecode %d") (foldBinop op)

def evalCmp (P : Pool) (iu : IrUnit) (i : ℕ) (opty lhs rhs : ℕ) (pred : Option IcmpPred) :
    Except Fault IrUnit :=
  evalOperands P iu i lhs rhs (fun _ => opty) [.int32, .pointer]
    (.parserError "Unable to handle constant cmp for type %s") (foldCmp pred)

def evalGep (P : Pool) (eval : IrUnit → ℕ → Except Fault IrUnit) (iu : IrUnit) (i : ℕ)
    (values : List ℕ) : Except Fault IrUnit :=
  match values with
  | [] => .error .nullDeref
  | base :: indices => do
    let iu ← evalInner eval iu base
    let curval ← valueGet iu base
    let addr ← valueGetConst32 iu curval
    let g ← indices.foldlM (gepIndex iu P.depth) ⟨addr, curval.type⟩
    let (iu, type) := makePointer iu g.typeIndex
    .ok (setU32 P iu i type g.addr)

/-- `fuel` bounds the recursion. -/
def evalConstexpr (P : Pool) : ℕ → IrUnit → ℕ → Except Fault IrUnit
  | 0, _, _ => .error .outOfFuel
  | fuel + 1, iu, i =>
    match P.ce i with
    | .cast op src => evalCast P (evalConstexpr P fuel) iu i op src
    | .binop op lhs rhs => evalBinop P iu i op lhs rhs
    | .cmp opty lhs rhs pred => evalCmp P iu i opty lhs rhs pred
    | .gep values => evalGep P (evalConstexpr P fuel) iu i values

/-- The loop of `eval_constexprs` over the values below `n`. -/
def evalConstexprs (P : Pool) (fuel : ℕ) (iu : IrUnit) : ℕ → Except Fault IrUnit
  | 0 => .ok iu
  | n + 1 => do
    let iu ← evalConstexprs P fuel iu n
    evalInner (evalConstexpr P fuel) iu n

end Vmir.ConstExprs
