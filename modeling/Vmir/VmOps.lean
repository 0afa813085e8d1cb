import Vmir.Ir
import Vmir.RegisterProgram

set_option autoImplicit false

/-!
# The straight-line operations of the interpreter

The operations of `vm_exec` that end in `NEXT(n)` and call nothing. An operation is named after
its label; where the emitter computes an opcode as a base plus an operator (`VM_ADD_R32 + binop`)
the family has one constructor with that operator. Pointers of the host have 64 bits, and `int`
arithmetic wraps around; division by zero, the overflowing division and shifts by the width or more
have no defined behaviour.
-/
namespace Vmir.VmOps
open ByteStore RegisterProgram Ir

/-- `+`, `-`, `*` and `/` on `float` and `double`. -/
inductive FloatOp
  | add | sub | mul | div
deriving DecidableEq, Repr

/-- The floating-point predicates that have an operation. -/
inductive FcmpOp
  | oeq | ogt | oge | olt | ole | one | ord | uno | ueq | ugt | uge | ult | ule | une
deriving DecidableEq, Repr

/-- The functions of `math.h` with one operand. -/
inductive Math1
  | floor | sin | cos | fabs | log | log10 | round | sqrt | exp | ceil
deriving DecidableEq, Repr

/-- The functions of `math.h` with two operands. -/
inductive Math2
  | pow | fmod
deriving DecidableEq, Repr

/-- How a narrow load fills its 32-bit register. -/
inductive Extension
  | none | zext | sext
deriving DecidableEq, Repr

structure HostFloat (w : ℕ) where
  op : FloatOp → BitVec w → BitVec w → BitVec w
  eq : BitVec w → BitVec w → Bool
  lt : BitVec w → BitVec w → Bool
  le : BitVec w → BitVec w → Bool
  isnan : BitVec w → Bool
  math1 : Math1 → BitVec w → BitVec w
  math2 : Math2 → BitVec w → BitVec w → BitVec w
  ofInt : ℤ → BitVec w
  toSi32 : BitVec w → BitVec 32
  toUi32 : BitVec w → BitVec 32
  toSi64 : BitVec w → BitVec 64
  toUi64 : BitVec w → BitVec 64

/-- What the operations take from the host: floating point, the string functions of its C library
on the memory of the VM, whether the compiler has the overflow builtins, and where the register
frame lies. -/
structure Host where
  flt : HostFloat 32
  dbl : HostFloat 64
  fpext : BitVec 32 → BitVec 64
  fptrunc : BitVec 64 → BitVec 32
  memcmp : Bytes → ℤ → ℤ → BitVec 32 → BitVec 32
  strcpy : Bytes → ℤ → ℤ → Bytes
  strcat : Bytes → ℤ → ℤ → Bytes
  strncpy : Bytes → ℤ → ℤ → BitVec 32 → Bytes
  strncat : Bytes → ℤ → ℤ → BitVec 32 → Bytes
  strcmp : Bytes → ℤ → ℤ → BitVec 32
  strcasecmp : Bytes → ℤ → ℤ → BitVec 32
  strncmp : Bytes → ℤ → ℤ → BitVec 32 → BitVec 32
  strlen : Bytes → ℤ → BitVec 32
  vmStrchr : BitVec 32 → BitVec 32 → Bytes → BitVec 32
  vmStrrchr : BitVec 32 → BitVec 32 → Bytes → BitVec 32
  vmStrdup : BitVec 32 → Bytes → BitVec 32
  hasBuiltinOverflow : Bool
  rf : BitVec 64

/-- A host on which every function returns zero. -/
def zeroFloat (w : ℕ) : HostFloat w where
  op := fun _ _ _ => 0
  eq := fun _ _ => false
  lt := fun _ _ => false
  le := fun _ _ => false
  isnan := fun _ => false
  math1 := fun _ _ => 0
  math2 := fun _ _ _ => 0
  ofInt := fun _ => 0
  toSi32 := fun _ => 0
  toUi32 := fun _ => 0
  toSi64 := fun _ => 0
  toUi64 := fun _ => 0

def zeroHost : Host where
  flt := zeroFloat 32
  dbl := zeroFloat 64
  fpext := fun _ => 0
  fptrunc := fun _ => 0
  memcmp := fun _ _ _ _ => 0
  strcpy := fun m _ _ => m
  strcat := fun m _ _ => m
  strncpy := fun m _ _ _ => m
  strncat := fun m _ _ _ => m
  strcmp := fun _ _ _ => 0
  strcasecmp := fun _ _ _ => 0
  strncmp := fun _ _ _ _ => 0
  strlen := fun _ _ => 0
  vmStrchr := fun _ _ _ => 0
  vmStrrchr := fun _ _ _ => 0
  vmStrdup := fun _ _ => 0
  hasBuiltinOverflow := true
  rf := 0

/-- What an operation touches besides the registers. -/
structure Vm where
  hostmem : Bytes
  allocaptr : BitVec 32
  allocapeak : BitVec 32
  exception : BitVec 32
  typeInfo : BitVec 32
  counts : ℕ → BitVec 64

def zeroVm : Vm := ⟨fun _ => 0, 0, 0, 0, 0, fun _ => 0⟩

inductive Op
  | nop
  | landingpad
  | sdivR8 | sremR8 | ashrR8 | sdivR8C | sremR8C | ashrR8C
  | sdivR16 | sremR16 | ashrR16
  | r16C (b : Binop)
  | r32 (b : Binop) | incR32 | decR32 | r32C (b : Binop)
  | r64 (b : Binop) | r64C (b : Binop)
  | mla32
  | dbl (o : FloatOp) | dblC (o : FloatOp) | flt (o : FloatOp) | fltC (o : FloatOp)
  | cmp8 (p : IcmpPred) | cmp8C (p : IcmpPred) | cmp16 (p : IcmpPred) | cmp16C (p : IcmpPred)
  | cmp32 (p : IcmpPred) | cmp32C (p : IcmpPred) | cmp64 (p : IcmpPred) | cmp64C (p : IcmpPred)
  | fcmpDbl (p : FcmpOp) | fcmpDblC (p : FcmpOp) | fcmpFlt (p : FcmpOp) | fcmpFltC (p : FcmpOp)
  | sel32 (p : IcmpPred) | sel32C (p : IcmpPred)
  | abs
  | mathDbl1 (m : Math1) | mathDbl2 (m : Math2) | mathFlt1 (m : Math1) | mathFlt2 (m : Math2)
  | load8 | load8G | load8Off (e : Extension) | load8Roff (e : Extension)
  | store8G | store8COff | store8Off | store8
  | load16 | load16Off (e : Extension) | load16Roff (e : Extension) | load16G
  | store16G | store16COff | store16Off | store16
  | load32 | load32Off | load32Roff | load32G
  | store32G | store32COff | store32Off | store32
  | load64 | load64Off | load64Roff | load64G
  | store64G | store64COff | store64Off | store64
  | mov32 | mov64 | mov8C | mov16C | mov32C | mov64C
  | leaR32Shl | leaR32Shl2 | leaR32ShlOff | leaR32MulOff
  | cast1Trunc8 | cast1Trunc16
  | cast8Zext1 | cast8Sext1 | cast8Trunc16 | cast8Trunc32 | cast8Trunc64
  | cast16Zext1 | cast16Zext8 | cast16Sext8 | cast16Trunc32 | cast16Trunc64
  | cast16FptosiFlt | cast16FptouiFlt | cast16FptosiDbl | cast16FptouiDbl
  | cast32Sext1 | cast32Zext8 | cast32Sext8 | cast32Zext16 | cast32Sext16 | cast32Trunc64
  | cast32FptosiFlt | cast32FptouiFlt | cast32FptosiDbl | cast32FptouiDbl
  | cast64Zext1 | cast64Sext1 | cast64Zext8 | cast64Sext8 | cast64Zext16 | cast64Sext16
  | cast64Zext32 | cast64Sext32
  | cast64FptosiFlt | cast64FptouiFlt | cast64FptosiDbl | cast64FptouiDbl
  | castDblFpextFlt | castFltFptruncDbl
  | castFltSitofp8 | castFltUitofp8 | castFltSitofp16 | castFltUitofp16
  | castFltSitofp32 | castFltUitofp32 | castFltSitofp64 | castFltUitofp64
  | castDblSitofp8 | castDblUitofp8 | castDblSitofp16 | castDblUitofp16
  | castDblSitofp32 | castDblUitofp32 | castDblSitofp64 | castDblUitofp64
  | select32RR | select32RC | select32CR | select32CC
  | select64RR | select64RC | select64CR | select64CC
  | alloca | allocad | stackshrink | stacksave | stackrestore | stackcopyr | stackcopyc
  | memcpy | memset | memmove | llvmMemcpy | llvmMemset | llvmMemset64 | memcmp
  | strcpy | strcat | strncpy | strncat | strcmp | strcasecmp | strncmp
  | strchr | strrchr | strlen | strdup
  | vaarg32 | vaarg64 | vastart | vacopy
  | ctz32 | clz32 | pop32 | ctz64 | clz64 | pop64
  | uaddo32 | umulo32
  | instrumentCount
deriving DecidableEq, Repr

/-- The operands of an operation: the units of the instruction stream behind its opcode. -/
abbrev Units := ℕ → BitVec 16

section Operands
variable (I : Units)

/-- The frame offset of the register named by unit `r`. -/
def reg (r : ℕ) : ℤ := (I r).toInt

/-- `UIMM8`, `SIMM8`, `UIMM16` and `SIMM16`, promoted to `int`. -/
def uimm8 (r : ℕ) : BitVec 32 := ((I r).setWidth 8).setWidth 32
def simm8 (r : ℕ) : BitVec 32 := ((I r).setWidth 8).signExtend 32
def uimm16 (r : ℕ) : BitVec 32 := (I r).setWidth 32
def simm16 (r : ℕ) : BitVec 32 := (I r).signExtend 32

/-- `UIMM32` and `UIMM64`: the low unit comes first. -/
def imm32 (r : ℕ) : BitVec 32 := I (r + 1) ++ I r
def imm64 (r : ℕ) : BitVec 64 := imm32 I (r + 2) ++ imm32 I r

end Operands

/-- `R8`, `S8`, `R16` and `S16` of a register that holds `v`, promoted to `int`. -/
def r8 (v : BitVec 32) : BitVec 32 := (v.setWidth 8).setWidth 32
def s8 (v : BitVec 32) : BitVec 32 := (v.setWidth 8).signExtend 32
def r16 (v : BitVec 32) : BitVec 32 := (v.setWidth 16).setWidth 32
def s16 (v : BitVec 32) : BitVec 32 := (v.setWidth 16).signExtend 32

/-- The operators of C on 32-bit or 64-bit operands, `none` where they have no defined result. -/
def cArith {w : ℕ} (b : Binop) (x y : BitVec w) : Option (BitVec w) :=
  match b with
  | .add => some (x + y)
  | .sub => some (x - y)
  | .mul => some (x * y)
  | .udiv => if y = 0 then none else some (x / y)
  | .sdiv => if y = 0 ∨ (x = BitVec.intMin w ∧ y = -1) then none else some (x.sdiv y)
  | .urem => if y = 0 then none else some (x % y)
  | .srem => if y = 0 ∨ (x = BitVec.intMin w ∧ y = -1) then none else some (x.srem y)
  | .shl => if w ≤ y.toNat then none else some (x <<< y.toNat)
  | .lshr => if w ≤ y.toNat then none else some (x >>> y.toNat)
  | .ashr => if w ≤ y.toNat then none else some (x.sshiftRight y.toNat)
  | .and => some (x &&& y)
  | .or => some (x ||| y)
  | .xor => some (x ^^^ y)

def icmp {w : ℕ} (p : IcmpPred) (x y : BitVec w) : Bool :=
  match p with
  | .eq => x == y
  | .ne => x != y
  | .ugt => y.ult x
  | .uge => y.ule x
  | .ult => x.ult y
  | .ule => x.ule y
  | .sgt => y.slt x
  | .sge => y.sle x
  | .slt => x.slt y
  | .sle => x.sle y

/-- The compares of two registers. `UNO` tests its first operand twice and `UGE` compares with
`<=`, as the source does. -/
def fcmp {w : ℕ} (h : HostFloat w) (p : FcmpOp) (x y : BitVec w) : Bool :=
  match p with
  | .oeq => h.eq x y
  | .ogt => h.lt y x
  | .oge => h.le y x
  | .olt => h.lt x y
  | .ole => h.le x y
  | .one => !h.isnan x && !h.isnan y && !h.eq x y
  | .ord => !h.isnan x && !h.isnan y
  | .uno => h.isnan x || h.isnan x
  | .ueq => h.isnan x || h.isnan y || h.eq x y
  | .ugt => h.isnan x || h.isnan y || h.lt y x
  | .uge => h.isnan x || h.isnan y || h.le x y
  | .ult => h.isnan x || h.isnan y || h.lt x y
  | .ule => h.isnan x || h.isnan y || h.le x y
  | .une => !h.eq x y

/-- The compares of a register and a constant, which is not tested for NaN. -/
def fcmpC {w : ℕ} (h : HostFloat w) (p : FcmpOp) (x c : BitVec w) : Bool :=
  match p with
  | .oeq => h.eq x c
  | .ogt => h.lt c x
  | .oge => h.le c x
  | .olt => h.lt x c
  | .ole => h.le x c
  | .one => !h.isnan x && !h.eq x c
  | .ord => !h.isnan x
  | .uno => h.isnan x
  | .ueq => h.isnan x || h.eq x c
  | .ugt => h.isnan x || h.lt c x
  | .uge => h.isnan x || h.le x c
  | .ult => h.isnan x || h.lt x c
  | .ule => h.isnan x || h.le x c
  | .une => !h.eq x c

def ofBool (b : Bool) : BitVec 32 := (BitVec.ofBool b).setWidth 32

/-- `VMIR_ALIGN` with a 16-bit alignment. -/
def vmirAlign (a : BitVec 32) (b : BitVec 16) : BitVec 32 :=
  (a + b.setWidth 32 - 1) &&& ~~~(b.setWidth 32 - 1)

/-- `memcpy` and `memmove`: `n` bytes from `src` to `dst`. -/
def memCopy (m : Bytes) (dst src : ℤ) (n : ℕ) : Bytes := fun x =>
  if dst ≤ x ∧ x < dst + n then m (x - dst + src) else m x

/-- `memset` -/
def memFill (m : Bytes) (dst : ℤ) (c : BitVec 8) (n : ℕ) : Bytes := fun x =>
  if dst ≤ x ∧ x < dst + n then c else m x

/-- The offset of a guest address in `hostmem`. -/
def hostaddr (ea : BitVec 32) : ℤ := ea.toNat

/-! ## Shapes shared by many operations: a register is set from a value or from other registers -/

section Shapes
variable (I : Units)

/-- `AR32` and `AR64` of an expression that may be undefined. -/
def set32 (r : ℕ) (v : Option (BitVec 32)) : Prog Vm :=
  match v with
  | some v => .wr32 (reg I r) v .done
  | none => .undef

def set64 (r : ℕ) (v : Option (BitVec 64)) : Prog Vm :=
  match v with
  | some v => .wr64 (reg I r) v .done
  | none => .undef

def set32Of32 (f : BitVec 32 → BitVec 32) : Prog Vm :=
  .rd32 (reg I 1) fun x => .wr32 (reg I 0) (f x) .done

def set32Of64 (f : BitVec 64 → BitVec 32) : Prog Vm :=
  .rd64 (reg I 1) fun x => .wr32 (reg I 0) (f x) .done

def set64Of32 (f : BitVec 32 → BitVec 64) : Prog Vm :=
  .rd32 (reg I 1) fun x => .wr64 (reg I 0) (f x) .done

def set64Of64 (f : BitVec 64 → BitVec 64) : Prog Vm :=
  .rd64 (reg I 1) fun x => .wr64 (reg I 0) (f x) .done

def set32Of32And32 (f : BitVec 32 → BitVec 32 → BitVec 32) : Prog Vm :=
  .rd32 (reg I 1) fun x => .rd32 (reg I 2) fun y => .wr32 (reg I 0) (f x y) .done

def set32Of64And64 (f : BitVec 64 → BitVec 64 → BitVec 32) : Prog Vm :=
  .rd64 (reg I 1) fun x => .rd64 (reg I 2) fun y => .wr32 (reg I 0) (f x y) .done

def set64Of64And64 (f : BitVec 64 → BitVec 64 → BitVec 64) : Prog Vm :=
  .rd64 (reg I 1) fun x => .rd64 (reg I 2) fun y => .wr64 (reg I 0) (f x y) .done

/-- An operator on two registers, on a register and a constant; `f` and `g` are the accessors. -/
def arith32 (b : Binop) (f g : BitVec 32 → BitVec 32) : Prog Vm :=
  .rd32 (reg I 1) fun x => .rd32 (reg I 2) fun y => set32 I 0 (cArith b (f x) (g y))

def arith32C (b : Binop) (f : BitVec 32 → BitVec 32) (c : BitVec 32) : Prog Vm :=
  .rd32 (reg I 1) fun x => set32 I 0 (cArith b (f x) c)

def arith64 (b : Binop) : Prog Vm :=
  .rd64 (reg I 1) fun x => .rd64 (reg I 2) fun y => set64 I 0 (cArith b x y)

def arith64C (b : Binop) (c : BitVec 64) : Prog Vm :=
  .rd64 (reg I 1) fun x => set64 I 0 (cArith b x c)

/-- `LOAD8` to `LOAD64` at an offset in `hostmem`. -/
def load8At (e : Extension) (at? : ℤ) : Prog Vm :=
  .get fun vm => .wr32 (reg I 0)
    (if e = .sext then (vm.hostmem at?).signExtend 32 else (vm.hostmem at?).setWidth 32) .done

def load16At (e : Extension) (at? : ℤ) : Prog Vm :=
  .get fun vm =>
    let v := BitVec.ofNat 16 (readLe vm.hostmem at? 2)
    .wr32 (reg I 0) (if e = .sext then v.signExtend 32 else v.setWidth 32) .done

def load32At (at? : ℤ) : Prog Vm :=
  .get fun vm => .wr32 (reg I 0) (read32 vm.hostmem at?) .done

def load64At (at? : ℤ) : Prog Vm :=
  .get fun vm => .wr64 (reg I 0) (read64 vm.hostmem at?) .done

/-- `R32(1)`, `R32(1) + SIMM16(2)` and `R32(1) + SIMM16(2) + R32(3) * SIMM16(4)`. -/
def withPtr (k : ℤ → Prog Vm) : Prog Vm :=
  .rd32 (reg I 1) fun p => k (hostaddr p)

def withOff (k : ℤ → Prog Vm) : Prog Vm :=
  .rd32 (reg I 1) fun p => k (hostaddr (p + simm16 I 2))

def withRoff (k : ℤ → Prog Vm) : Prog Vm :=
  .rd32 (reg I 1) fun p => .rd32 (reg I 3) fun x =>
    k (hostaddr (p + simm16 I 2 + x * simm16 I 4))

/-- `STORE8` to `STORE64`: the low `n` bytes of `v`. -/
def storeAt (n : ℕ) (at? : ℤ) (v : ℕ) : Prog Vm :=
  .get fun vm => .put { vm with hostmem := writeLe vm.hostmem at? n v } .done

def storeG (n : ℕ) : Prog Vm :=
  .rd32 (reg I 0) fun v => storeAt n (imm32 I 1).toInt v.toNat

/-- A store of a constant through register 0 and an offset. -/
def storeCOff (n v : ℕ) : Prog Vm :=
  .rd32 (reg I 0) fun p => storeAt n (hostaddr (p + simm16 I 1)) v

/-- A store of register 1 through register 0, without and with an offset. -/
def storePtr (n : ℕ) : Prog Vm :=
  .rd32 (reg I 0) fun p => .rd32 (reg I 1) fun v => storeAt n (hostaddr p) v.toNat

def storeOff (n : ℕ) : Prog Vm :=
  .rd32 (reg I 0) fun p => .rd32 (reg I 1) fun v =>
    storeAt n (hostaddr (p + simm16 I 2)) v.toNat

/-- The string functions that write memory and return their first argument. -/
def memResult2 (f : Bytes → ℤ → ℤ → Bytes) : Prog Vm :=
  .rd32 (reg I 1) fun r => .rd32 (reg I 2) fun s => .get fun vm =>
    .put { vm with hostmem := f vm.hostmem (hostaddr r) (hostaddr s) } (.wr32 (reg I 0) r .done)

def memResult3 (f : Bytes → BitVec 32 → BitVec 32 → BitVec 32 → Bytes) : Prog Vm :=
  .rd32 (reg I 1) fun r => .rd32 (reg I 2) fun s => .rd32 (reg I 3) fun n => .get fun vm =>
    .put { vm with hostmem := f vm.hostmem r s n } (.wr32 (reg I 0) r .done)

/-- The string functions that only read memory. -/
def memQuery2 (f : Bytes → BitVec 32 → BitVec 32 → BitVec 32) : Prog Vm :=
  .rd32 (reg I 1) fun x => .rd32 (reg I 2) fun y => .get fun vm =>
    .wr32 (reg I 0) (f vm.hostmem x y) .done

def memQuery3 (f : Bytes → BitVec 32 → BitVec 32 → BitVec 32 → BitVec 32) : Prog Vm :=
  .rd32 (reg I 1) fun x => .rd32 (reg I 2) fun y => .rd32 (reg I 3) fun n => .get fun vm =>
    .wr32 (reg I 0) (f vm.hostmem x y n) .done

end Shapes

/-- `ALLOCATRACEPEAK` after an update of `allocaptr`. -/
def Vm.setAllocaptr (vm : Vm) (p : BitVec 32) : Vm :=
  { vm with allocaptr := p, allocapeak := if vm.allocapeak.ult p then p else vm.allocapeak }

/-- The operators that read their left operand sign-extended, and those that do so on the right. -/
def signedLeft (b : Binop) : Bool :=
  match b with
  | .sdiv => true
  | .srem => true
  | .ashr => true
  | _ => false

def signedRight (b : Binop) : Bool :=
  match b with
  | .sdiv => true
  | .srem => true
  | _ => false

/-- `__builtin_ctz` and `__builtin_clz` of zero are undefined. -/
def bitCount {w : ℕ} (f : BitVec w → BitVec w) (x : BitVec w) : Option (BitVec w) :=
  if x = 0 then none else some (f x)

/-- The body of an operation, with its operands `I`. -/
def body (h : Host) (op : Op) (I : Units) : Prog Vm :=
  match op with
  | .nop => .done
  | .landingpad => .get fun vm =>
      .wr32 (reg I 0) vm.exception (.wr32 (reg I 1) vm.typeInfo .done)
  | .sdivR8 => arith32 I .sdiv s8 s8
  | .sremR8 => arith32 I .srem s8 s8
  | .ashrR8 => arith32 I .ashr s8 r8
  | .sdivR8C => arith32C I .sdiv s8 (simm8 I 2)
  | .sremR8C => arith32C I .srem s8 (simm8 I 2)
  | .ashrR8C => arith32C I .ashr s8 (uimm8 I 2)
  | .sdivR16 => arith32 I .sdiv s16 s16
  | .sremR16 => arith32 I .srem s16 s16
  | .ashrR16 => arith32 I .ashr s16 r16
  | .r16C b => arith32C I b (if signedLeft b then s16 else r16)
      (if signedRight b then simm16 I 2 else uimm16 I 2)
  | .r32 b => arith32 I b id id
  | .incR32 => set32Of32 I (· + 1)
  | .decR32 => set32Of32 I (· - 1)
  | .r32C b => arith32C I b id (imm32 I 2)
  | .r64 b => arith64 I b
  | .r64C b => arith64C I b (imm64 I 2)
  | .mla32 => .rd32 (reg I 1) fun x => .rd32 (reg I 2) fun y => .rd32 (reg I 3) fun z =>
      .wr32 (reg I 0) (x * y + z) .done
  | .dbl o => set64Of64And64 I (h.dbl.op o)
  | .dblC o => set64Of64 I (h.dbl.op o · (imm64 I 2))
  | .flt o => set32Of32And32 I (h.flt.op o)
  | .fltC o => set32Of32 I (h.flt.op o · (imm32 I 2))
  | .cmp8 p => set32Of32And32 I fun x y => ofBool (icmp p (x.setWidth 8) (y.setWidth 8))
  | .cmp8C p => set32Of32 I fun x => ofBool (icmp p (x.setWidth 8) ((I 2).setWidth 8))
  | .cmp16 p => set32Of32And32 I fun x y => ofBool (icmp p (x.setWidth 16) (y.setWidth 16))
  | .cmp16C p => set32Of32 I fun x => ofBool (icmp p (x.setWidth 16) (I 2))
  | .cmp32 p => set32Of32And32 I fun x y => ofBool (icmp p x y)
  | .cmp32C p => set32Of32 I fun x => ofBool (icmp p x (imm32 I 2))
  | .cmp64 p => set32Of64And64 I fun x y => ofBool (icmp p x y)
  | .cmp64C p => set32Of64 I fun x => ofBool (icmp p x (imm64 I 2))
  | .fcmpDbl p => set32Of64And64 I fun x y => ofBool (fcmp h.dbl p x y)
  | .fcmpDblC p => set32Of64 I fun x => ofBool (fcmpC h.dbl p x (imm64 I 2))
  | .fcmpFlt p => set32Of32And32 I fun x y => ofBool (fcmp h.flt p x y)
  | .fcmpFltC p => set32Of32 I fun x => ofBool (fcmpC h.flt p x (imm32 I 2))
  | .sel32 p => .rd32 (reg I 3) fun x => .rd32 (reg I 4) fun y =>
      .rd32 (reg I 1) fun t => .rd32 (reg I 2) fun f =>
        .wr32 (reg I 0) (if icmp p x y then t else f) .done
  | .sel32C p => .rd32 (reg I 3) fun x => .rd32 (reg I 1) fun t => .rd32 (reg I 2) fun f =>
      .wr32 (reg I 0) (if icmp p x (imm32 I 4) then t else f) .done
  | .abs => set32Of32 I BitVec.abs
  | .mathDbl1 m => set64Of64 I (h.dbl.math1 m)
  | .mathDbl2 m => set64Of64And64 I (h.dbl.math2 m)
  | .mathFlt1 m => set32Of32 I (h.flt.math1 m)
  | .mathFlt2 m => set32Of32And32 I (h.flt.math2 m)
  | .load8 => withPtr I (load8At I .none)
  | .load8G => load8At I .none (imm32 I 1).toInt
  | .load8Off e => withOff I (load8At I e)
  | .load8Roff e => withRoff I (load8At I e)
  | .store8G => storeG I 1
  | .store8COff => storeCOff I 1 ((I 2).setWidth 8).toNat
  | .store8Off => storeOff I 1
  | .store8 => storePtr I 1
  | .load16 => withPtr I (load16At I .none)
  | .load16Off e => withOff I (load16At I e)
  | .load16Roff e => withRoff I (load16At I e)
  | .load16G => load16At I .none (imm32 I 1).toInt
  | .store16G => storeG I 2
  | .store16COff => storeCOff I 2 (I 2).toNat
  | .store16Off => storeOff I 2
  | .store16 => storePtr I 2
  | .load32 => withPtr I (load32At I)
  | .load32Off => withOff I (load32At I)
  | .load32Roff => withRoff I (load32At I)
  | .load32G => load32At I (imm32 I 1).toInt
  | .store32G => storeG I 4
  | .store32COff => storeCOff I 4 (imm32 I 2).toNat
  | .store32Off => storeOff I 4
  | .store32 => storePtr I 4
  | .load64 => withPtr I (load64At I)
  | .load64Off => withOff I (load64At I)
  | .load64Roff => withRoff I (load64At I)
  | .load64G => load64At I (imm32 I 1).toInt
  | .store64G => .rd64 (reg I 0) fun v => storeAt 8 (imm32 I 1).toInt v.toNat
  | .store64COff => storeCOff I 8 (imm64 I 2).toNat
  | .store64Off => .rd32 (reg I 0) fun p => .rd64 (reg I 1) fun v =>
      storeAt 8 (hostaddr (p + simm16 I 2)) v.toNat
  | .store64 => .rd32 (reg I 0) fun p => .rd64 (reg I 1) fun v => storeAt 8 (hostaddr p) v.toNat
  | .mov32 => set32Of32 I id
  | .mov64 => set64Of64 I id
  | .mov8C => .wr32 (reg I 0) (uimm8 I 1) .done
  | .mov16C => .wr32 (reg I 0) (uimm16 I 1) .done
  | .mov32C => .wr32 (reg I 0) (imm32 I 1) .done
  | .mov64C => .wr64 (reg I 0) (imm64 I 1) .done
  | .leaR32Shl => .rd32 (reg I 1) fun p => .rd32 (reg I 2) fun x =>
      set32 I 0 ((cArith .shl x (uimm16 I 3)).map (p + ·))
  | .leaR32Shl2 => .rd32 (reg I 1) fun p => .rd32 (reg I 2) fun x =>
      .wr32 (reg I 0) (p + x <<< 2) .done
  | .leaR32ShlOff => .rd32 (reg I 1) fun p => .rd32 (reg I 2) fun x =>
      set32 I 0 ((cArith .shl x (uimm16 I 3)).map (p + · + imm32 I 4))
  | .leaR32MulOff => .rd32 (reg I 1) fun p => .rd32 (reg I 2) fun x =>
      .wr32 (reg I 0) (p + x * imm32 I 3 + imm32 I 5) .done
  | .cast1Trunc8 => set32Of32 I fun x => ofBool (x.setWidth 8 != 0)
  | .cast1Trunc16 => set32Of32 I fun x => ofBool (x.setWidth 16 != 0)
  | .cast8Zext1 => set32Of32 I id
  | .cast8Sext1 => set32Of32 I fun x => if x != 0 then -1 else 0
  | .cast8Trunc16 => set32Of32 I r16
  | .cast8Trunc32 => set32Of32 I id
  | .cast8Trunc64 => set32Of64 I (·.setWidth 32)
  | .cast16Zext1 => set32Of32 I id
  | .cast16Zext8 => set32Of32 I r8
  | .cast16Sext8 => set32Of32 I s8
  | .cast16Trunc32 => set32Of32 I r16
  | .cast16Trunc64 => set32Of64 I (·.setWidth 32)
  | .cast16FptosiFlt => set32Of32 I h.flt.toSi32
  | .cast16FptouiFlt => set32Of32 I h.flt.toUi32
  | .cast16FptosiDbl => set32Of64 I h.dbl.toSi32
  | .cast16FptouiDbl => set32Of64 I h.dbl.toUi32
  | .cast32Sext1 => set32Of32 I fun x => if x != 0 then -1 else 0
  | .cast32Zext8 => set32Of32 I r8
  | .cast32Sext8 => set32Of32 I s8
  | .cast32Zext16 => set32Of32 I r16
  | .cast32Sext16 => set32Of32 I s16
  | .cast32Trunc64 => set32Of64 I (·.setWidth 32)
  | .cast32FptosiFlt => set32Of32 I h.flt.toSi32
  | .cast32FptouiFlt => set32Of32 I h.flt.toUi32
  | .cast32FptosiDbl => set32Of64 I h.dbl.toSi32
  | .cast32FptouiDbl => set32Of64 I h.dbl.toUi32
  | .cast64Zext1 => set64Of32 I (·.setWidth 64)
  | .cast64Sext1 => set64Of32 I fun x => if x != 0 then -1 else 0
  | .cast64Zext8 => set64Of32 I fun x => (r8 x).setWidth 64
  | .cast64Sext8 => set64Of32 I fun x => (s8 x).signExtend 64
  | .cast64Zext16 => set64Of32 I fun x => (r16 x).setWidth 64
  | .cast64Sext16 => set64Of32 I fun x => (s16 x).signExtend 64
  | .cast64Zext32 => set64Of32 I (·.setWidth 64)
  | .cast64Sext32 => set64Of32 I (·.signExtend 64)
  | .cast64FptosiFlt => set64Of32 I h.flt.toSi64
  | .cast64FptouiFlt => set64Of32 I h.flt.toUi64
  | .cast64FptosiDbl => set64Of64 I h.dbl.toSi64
  | .cast64FptouiDbl => set64Of64 I h.dbl.toUi64
  | .castDblFpextFlt => set64Of32 I h.fpext
  | .castFltFptruncDbl => set32Of64 I h.fptrunc
  | .castFltSitofp8 => set32Of32 I fun x => h.flt.ofInt (s8 x).toInt
  | .castFltUitofp8 => set32Of32 I fun x => h.flt.ofInt (r8 x).toInt
  | .castFltSitofp16 => set32Of32 I fun x => h.flt.ofInt (s16 x).toInt
  | .castFltUitofp16 => set32Of32 I fun x => h.flt.ofInt (r16 x).toInt
  | .castFltSitofp32 => set32Of32 I fun x => h.flt.ofInt x.toInt
  | .castFltUitofp32 => set32Of32 I fun x => h.flt.ofInt x.toNat
  | .castFltSitofp64 => set32Of64 I fun x => h.flt.ofInt x.toInt
  | .castFltUitofp64 => set32Of64 I fun x => h.flt.ofInt x.toNat
  | .castDblSitofp8 => set64Of32 I fun x => h.dbl.ofInt (s8 x).toInt
  | .castDblUitofp8 => set64Of32 I fun x => h.dbl.ofInt (r8 x).toInt
  | .castDblSitofp16 => set64Of32 I fun x => h.dbl.ofInt (s16 x).toInt
  | .castDblUitofp16 => set64Of32 I fun x => h.dbl.ofInt (r16 x).toInt
  | .castDblSitofp32 => set64Of32 I fun x => h.dbl.ofInt x.toInt
  | .castDblUitofp32 => set64Of32 I fun x => h.dbl.ofInt x.toNat
  | .castDblSitofp64 => set64Of64 I fun x => h.dbl.ofInt x.toInt
  | .castDblUitofp64 => set64Of64 I fun x => h.dbl.ofInt x.toNat
  | .select32RR => .rd32 (reg I 1) fun p => .rd32 (reg I 2) fun t => .rd32 (reg I 3) fun f =>
      .wr32 (reg I 0) (if p != 0 then t else f) .done
  | .select32RC => .rd32 (reg I 1) fun p => .rd32 (reg I 2) fun t =>
      .wr32 (reg I 0) (if p != 0 then t else imm32 I 3) .done
  | .select32CR => .rd32 (reg I 1) fun p => .rd32 (reg I 2) fun f =>
      .wr32 (reg I 0) (if p != 0 then imm32 I 3 else f) .done
  | .select32CC => .rd32 (reg I 1) fun p =>
      .wr32 (reg I 0) (if p != 0 then imm32 I 2 else imm32 I 4) .done
  | .select64RR => .rd32 (reg I 1) fun p => .rd64 (reg I 2) fun t => .rd64 (reg I 3) fun f =>
      .wr64 (reg I 0) (if p != 0 then t else f) .done
  | .select64RC => .rd32 (reg I 1) fun p => .rd64 (reg I 2) fun t =>
      .wr64 (reg I 0) (if p != 0 then t else imm64 I 3) .done
  | .select64CR => .rd32 (reg I 1) fun p => .rd64 (reg I 2) fun f =>
      .wr64 (reg I 0) (if p != 0 then imm64 I 3 else f) .done
  | .select64CC => .rd32 (reg I 1) fun p =>
      .wr64 (reg I 0) (if p != 0 then imm64 I 2 else imm64 I 6) .done
  | .alloca => .get fun vm =>
      let p := vmirAlign vm.allocaptr (I 1)
      .wr32 (reg I 0) p (.put (vm.setAllocaptr (p + imm32 I 2)) .done)
  | .allocad => .get fun vm =>
      let p := vmirAlign vm.allocaptr (I 1)
      .rd32 (reg I 2) fun n =>
        .put (vm.setAllocaptr (p + imm32 I 3 * n)) (.wr32 (reg I 0) p .done)
  | .stackshrink => .get fun vm => .put { vm with allocaptr := vm.allocaptr - imm32 I 0 } .done
  | .stacksave => .get fun vm => .wr32 (reg I 0) vm.allocaptr .done
  | .stackrestore => .rd32 (reg I 0) fun p => .get fun vm => .put { vm with allocaptr := p } .done
  -- The destination is written before the source is read.
  | .stackcopyr => .get fun vm =>
      let p := vmirAlign vm.allocaptr 4
      .wr32 (reg I 0) p (.rd32 (reg I 1) fun src =>
        let m := memCopy vm.hostmem (hostaddr p) (hostaddr src) (imm32 I 2).toNat
        .put ({ vm with hostmem := m }.setAllocaptr (p + imm32 I 2)) .done)
  | .stackcopyc => .get fun vm =>
      let p := vmirAlign vm.allocaptr 4
      let m := memCopy vm.hostmem (hostaddr p) (hostaddr (imm32 I 1)) (imm32 I 3).toNat
      .wr32 (reg I 0) p (.put ({ vm with hostmem := m }.setAllocaptr (p + imm32 I 3)) .done)
  | .memcpy => memResult3 I fun m d s n => memCopy m (hostaddr d) (hostaddr s) n.toNat
  | .memset => memResult3 I fun m d c n => memFill m (hostaddr d) (c.setWidth 8) n.toNat
  | .memmove => memResult3 I fun m d s n => memCopy m (hostaddr d) (hostaddr s) n.toNat
  | .llvmMemcpy => .rd32 (reg I 0) fun d => .rd32 (reg I 1) fun s => .rd32 (reg I 2) fun n =>
      .get fun vm => .put { vm with
        hostmem := memCopy vm.hostmem (hostaddr d) (hostaddr s) n.toNat } .done
  | .llvmMemset => .rd32 (reg I 0) fun d => .rd32 (reg I 1) fun c => .rd32 (reg I 2) fun n =>
      .get fun vm => .put { vm with
        hostmem := memFill vm.hostmem (hostaddr d) (c.setWidth 8) n.toNat } .done
  | .llvmMemset64 => .rd32 (reg I 0) fun d => .rd32 (reg I 1) fun c => .rd64 (reg I 2) fun n =>
      .get fun vm => .put { vm with
        hostmem := memFill vm.hostmem (hostaddr d) (c.setWidth 8) n.toNat } .done
  | .memcmp => memQuery3 I fun m x y n => h.memcmp m (hostaddr x) (hostaddr y) n
  | .strcpy => memResult2 I h.strcpy
  | .strcat => memResult2 I h.strcat
  | .strncpy => memResult3 I fun m d s n => h.strncpy m (hostaddr d) (hostaddr s) n
  | .strncat => memResult3 I fun m d s n => h.strncat m (hostaddr d) (hostaddr s) n
  | .strcmp => memQuery2 I fun m x y => h.strcmp m (hostaddr x) (hostaddr y)
  | .strcasecmp => memQuery2 I fun m x y => h.strcasecmp m (hostaddr x) (hostaddr y)
  | .strncmp => memQuery3 I fun m x y n => h.strncmp m (hostaddr x) (hostaddr y) n
  | .strchr => memQuery2 I fun m x c => h.vmStrchr x c m
  | .strrchr => memQuery2 I fun m x c => h.vmStrrchr x c m
  | .strlen => .rd32 (reg I 1) fun x => .get fun vm =>
      .wr32 (reg I 0) (h.strlen vm.hostmem (hostaddr x)) .done
  | .strdup => .rd32 (reg I 1) fun x => .get fun vm =>
      .wr32 (reg I 0) (h.vmStrdup x vm.hostmem) .done
  | .vaarg32 => .rd32 (reg I 1) fun ap => .get fun vm =>
      let p := read64 vm.hostmem (hostaddr ap) - 4
      .rd32 (p - h.rf).toInt fun v =>
        .put { vm with hostmem := write64 vm.hostmem (hostaddr ap) p } (.wr32 (reg I 0) v .done)
  | .vaarg64 => .rd32 (reg I 1) fun ap => .get fun vm =>
      let p := read64 vm.hostmem (hostaddr ap) - 8
      .rd64 (p - h.rf).toInt fun v =>
        .put { vm with hostmem := write64 vm.hostmem (hostaddr ap) p } (.wr64 (reg I 0) v .done)
  | .vastart => .rd32 (reg I 0) fun ap => .rd32 (reg I 1) fun off => .get fun vm =>
      .put { vm with
        hostmem := write64 vm.hostmem (hostaddr ap) (h.rf + off.signExtend 64) } .done
  | .vacopy => .rd32 (reg I 0) fun d => .rd32 (reg I 1) fun s => .get fun vm =>
      .put { vm with
        hostmem := write64 vm.hostmem (hostaddr d) (read64 vm.hostmem (hostaddr s)) } .done
  | .ctz32 => .rd32 (reg I 1) fun x => set32 I 0 (bitCount BitVec.ctz x)
  | .clz32 => .rd32 (reg I 1) fun x => set32 I 0 (bitCount BitVec.clz x)
  | .pop32 => set32Of32 I BitVec.cpop
  | .ctz64 => .rd64 (reg I 1) fun x => set64 I 0 (bitCount BitVec.ctz x)
  | .clz64 => .rd64 (reg I 1) fun x => set64 I 0 (bitCount BitVec.clz x)
  | .pop64 => set64Of64 I BitVec.cpop
  | .uaddo32 => .rd32 (reg I 2) fun a => .rd32 (reg I 3) fun b =>
      let o := if h.hasBuiltinOverflow then decide (2 ^ 32 ≤ a.toNat + b.toNat)
        else (BitVec.allOnes 32 - a).ult b
      .wr32 (reg I 1) (ofBool o) (.wr32 (reg I 0) (a + b) .done)
  | .umulo32 => .rd32 (reg I 2) fun a => .rd32 (reg I 3) fun b =>
      let p : BitVec 64 := (a * b).setWidth 64
      let o := if h.hasBuiltinOverflow then decide (2 ^ 32 ≤ a.toNat * b.toNat) else p >>> 32 != 0
      .wr32 (reg I 1) (ofBool o) (.wr32 (reg I 0) (a * b) .done)
  | .instrumentCount => .get fun vm =>
      let i := (imm32 I 0).toNat
      .put { vm with counts := fun j => if j = i then vm.counts j + 1 else vm.counts j } .done

/-- The argument of the `NEXT` that ends the operation: its operand units. -/
def skip (op : Op) : ℕ :=
  match op with
  | .nop => 0
  | .stacksave | .stackrestore => 1
  | .landingpad | .incR32 | .decR32 | .abs | .mathDbl1 _ | .mathFlt1 _ | .load8 | .load16
  | .load32 | .load64 | .store8 | .store16 | .store32 | .store64 | .mov32 | .mov64 | .mov8C
  | .mov16C | .cast1Trunc8 | .cast1Trunc16 | .cast8Zext1 | .cast8Sext1 | .cast8Trunc16
  | .cast8Trunc32 | .cast8Trunc64 | .cast16Zext1 | .cast16Zext8 | .cast16Sext8 | .cast16Trunc32
  | .cast16Trunc64 | .cast16FptosiFlt | .cast16FptouiFlt | .cast16FptosiDbl | .cast16FptouiDbl
  | .cast32Sext1 | .cast32Zext8 | .cast32Sext8 | .cast32Zext16 | .cast32Sext16 | .cast32Trunc64
  | .cast32FptosiFlt | .cast32FptouiFlt | .cast32FptosiDbl | .cast32FptouiDbl
  | .cast64Zext1 | .cast64Sext1 | .cast64Zext8 | .cast64Sext8 | .cast64Zext16 | .cast64Sext16
  | .cast64Zext32 | .cast64Sext32 | .cast64FptosiFlt | .cast64FptouiFlt | .cast64FptosiDbl
  | .cast64FptouiDbl | .castDblFpextFlt | .castFltFptruncDbl | .castFltSitofp8
  | .castFltUitofp8 | .castFltSitofp16 | .castFltUitofp16 | .castFltSitofp32 | .castFltUitofp32
  | .castFltSitofp64 | .castFltUitofp64 | .castDblSitofp8 | .castDblUitofp8 | .castDblSitofp16
  | .castDblUitofp16 | .castDblSitofp32 | .castDblUitofp32 | .castDblSitofp64 | .castDblUitofp64
  | .stackshrink | .strlen | .strdup | .vaarg32 | .vaarg64 | .vastart | .vacopy | .ctz32
  | .clz32 | .pop32 | .ctz64 | .clz64 | .pop64 | .instrumentCount => 2
  | .sdivR8 | .sremR8 | .ashrR8 | .sdivR8C | .sremR8C | .ashrR8C | .sdivR16 | .sremR16 | .ashrR16
  | .r16C _ | .r32 _ | .r64 _ | .dbl _ | .flt _ | .cmp8 _ | .cmp8C _ | .cmp16 _ | .cmp16C _
  | .cmp32 _ | .cmp64 _ | .fcmpDbl _ | .fcmpFlt _ | .mathDbl2 _ | .mathFlt2 _ | .load8G
  | .load8Off _ | .load16Off _ | .load16G | .load32Off | .load32G | .load64Off | .load64G
  | .store8G | .store8COff | .store8Off | .store16G | .store16COff | .store16Off | .store32G
  | .store32Off | .store64G | .store64Off | .mov32C | .leaR32Shl2 | .llvmMemcpy | .llvmMemset
  | .llvmMemset64 | .strcpy | .strcat | .strcmp | .strcasecmp | .strchr | .strrchr => 3
  | .r32C _ | .mla32 | .fltC _ | .cmp32C _ | .fcmpFltC _ | .store32COff | .leaR32Shl | .select32RR
  | .select64RR | .alloca | .stackcopyr | .memcpy | .memset | .memmove | .memcmp | .strncpy
  | .strncat | .strncmp | .uaddo32 | .umulo32 => 4
  | .sel32 _ | .load8Roff _ | .load16Roff _ | .load32Roff | .load64Roff | .mov64C | .select32RC
  | .select32CR | .allocad | .stackcopyc => 5
  | .r64C _ | .dblC _ | .cmp64C _ | .fcmpDblC _ | .sel32C _ | .store64COff | .leaR32ShlOff
  | .select32CC => 6
  | .leaR32MulOff | .select64RC | .select64CR => 7
  | .select64CC => 10

end Vmir.VmOps
