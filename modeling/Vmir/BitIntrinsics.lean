import Vmir.BitCounts
import Vmir.VmOps

set_option autoImplicit false

/-!
# The bit counting and overflow intrinsics

The operations that `vmop_resolve` binds to the names of `llvm.cttz`, `llvm.ctlz`, `llvm.ctpop`,
`llvm.uadd.with.overflow` and `llvm.umul.with.overflow`, on a call as `replace_call` and
`emit_vmop` prepare it, against the results that the language defines.
-/
namespace Vmir.BitIntrinsics
open ByteStore RegisterProgram VmOps BitCounts

/-- `vmop_map`: the name of a function, its operation and the arguments this expects. -/
def vmopMap : List (String × Op × ℕ) := [
  ("llvm.memcpy.p0i8.p0i8.i32", .llvmMemcpy, 3),
  ("llvm.memset.p0i8.i32", .llvmMemset, 3),
  ("llvm.memset.p0i8.i64", .llvmMemset64, 3),
  ("llvm.va_copy", .vacopy, 2),
  ("llvm.invariant.start", .nop, 2),
  ("llvm.stacksave", .stacksave, 0),
  ("llvm.stackrestore", .stackrestore, 1),
  ("llvm.cttz.i32", .ctz32, 1),
  ("llvm.ctlz.i32", .clz32, 1),
  ("llvm.ctpop.i32", .pop32, 1),
  ("llvm.cttz.i64", .ctz64, 1),
  ("llvm.ctlz.i64", .clz64, 1),
  ("llvm.ctpop.i64", .pop64, 1),
  ("llvm.uadd.with.overflow.i32", .uaddo32, 2),
  ("llvm.umul.with.overflow.i32", .umulo32, 2),
  ("memcpy", .memcpy, 3),
  ("memmove", .memmove, 3),
  ("memset", .memset, 3),
  ("memcmp", .memcmp, 3),
  ("strcmp", .strcmp, 2),
  ("strcasecmp", .strcasecmp, 2),
  ("strchr", .strchr, 2),
  ("strrchr", .strrchr, 2),
  ("strlen", .strlen, 1),
  ("strcpy", .strcpy, 2),
  ("strncpy", .strncpy, 3),
  ("strcat", .strcat, 2),
  ("strncat", .strncat, 3),
  ("strncmp", .strncmp, 3),
  ("strdup", .strdup, 1),
  ("llvm.va_start", .vastart, 2),
  ("abs", .abs, 1),
  ("floor", .mathDbl1 .floor, 1),
  ("sin", .mathDbl1 .sin, 1),
  ("cos", .mathDbl1 .cos, 1),
  ("pow", .mathDbl2 .pow, 2),
  ("fabs", .mathDbl1 .fabs, 1),
  ("fmod", .mathDbl2 .fmod, 2),
  ("log", .mathDbl1 .log, 1),
  ("log10", .mathDbl1 .log10, 1),
  ("round", .mathDbl1 .round, 1),
  ("sqrt", .mathDbl1 .sqrt, 1),
  ("exp", .mathDbl1 .exp, 1),
  ("ceil", .mathDbl1 .ceil, 1),
  ("floorf", .mathFlt1 .floor, 1),
  ("sinf", .mathFlt1 .sin, 1),
  ("cosf", .mathFlt1 .cos, 1),
  ("powf", .mathFlt2 .pow, 2),
  ("fabsf", .mathFlt1 .fabs, 1),
  ("fmodf", .mathFlt2 .fmod, 2),
  ("logf", .mathFlt1 .log, 1),
  ("log10f", .mathFlt1 .log10, 1),
  ("roundf", .mathFlt1 .round, 1),
  ("sqrtf", .mathFlt1 .sqrt, 1),
  ("expf", .mathFlt1 .exp, 1),
  ("ceilf", .mathFlt1 .ceil, 1)]

/-- `vmop_resolve`: the operation and the arguments it expects. -/
def vmopResolve (name : String) : Option (Op × ℕ) :=
  (vmopMap.find? fun vt => vt.1 = name).map Prod.snd

/-- A call that returns its results and takes its arguments in registers. -/
structure Call where
  name : String
  rets : List (BitVec 16)
  argv : List (BitVec 16)

/-- `replace_call` for an operation with operands: the arguments that it expects are kept. -/
def replaceCall (c : Call) (vmopArgs : ℕ) : Except String Call :=
  if c.argv.length < vmopArgs then .error ("Too few arguments for vmop " ++ c.name)
  else .ok { c with argv := c.argv.take vmopArgs }

/-- `emit_vmop`: the units behind the opcode. -/
def emitVmop (c : Call) : List (BitVec 16) := c.rets ++ c.argv

/-- The operands an operation reads from the units that were emitted. -/
def units (code : List (BitVec 16)) : Units := fun i => code.getD i 0

def runCall (h : Host) (c : Call) (f : Bytes) (vm : Vm) : Option (Bytes × Vm) :=
  match vmopResolve c.name with
  | none => none
  | some (op, vmopArgs) =>
    match replaceCall c vmopArgs with
    | .error _ => none
    | .ok c => exec (body h op (units (emitVmop c))) f vm

inductive BitCount
  | cttz | ctlz | ctpop
deriving DecidableEq, Repr

inductive Intrinsic
  | count32 (c : BitCount) | count64 (c : BitCount) | uadd | umul
deriving DecidableEq, Repr

def Intrinsic.name : Intrinsic → String
  | .count32 .cttz => "llvm.cttz.i32"
  | .count32 .ctlz => "llvm.ctlz.i32"
  | .count32 .ctpop => "llvm.ctpop.i32"
  | .count64 .cttz => "llvm.cttz.i64"
  | .count64 .ctlz => "llvm.ctlz.i64"
  | .count64 .ctpop => "llvm.ctpop.i64"
  | .uadd => "llvm.uadd.with.overflow.i32"
  | .umul => "llvm.umul.with.overflow.i32"

/-- The count that the language defines, where zero has one too. -/
def BitCount.count {w : ℕ} (c : BitCount) (x : BitVec w) : ℕ :=
  match c with
  | .cttz => trailingZeros x
  | .ctlz => leadingZeros x
  | .ctpop => population x

/-- The registers of a call by their place in it. -/
def slot (l : List (BitVec 16)) (i : ℕ) : ℤ := (l.getD i 0).toInt

/-- A call of the intrinsic: `llvm.cttz` and `llvm.ctlz` have a flag behind their operand, the
others have nothing; the two results of an overflow intrinsic have a register each. -/
structure CallOf (i : Intrinsic) (c : Call) : Prop where
  name_eq : c.name = i.name
  argc : c.argv.length = match i with
    | .count32 .ctpop | .count64 .ctpop => 1
    | _ => 2
  numRets : c.rets.length = match i with
    | .count32 _ | .count64 _ => 1
    | .uadd | .umul => 2
  apart : i = .uadd ∨ i = .umul →
    slot c.rets 0 + 4 ≤ slot c.rets 1 ∨ slot c.rets 1 + 4 ≤ slot c.rets 0

/-- The result registers in `g` hold what the language defines for the arguments in `f`. -/
def Results (i : Intrinsic) (c : Call) (f g : Bytes) : Prop :=
  match i with
  | .count32 b => read32 g (slot c.rets 0) = BitVec.ofNat 32 (b.count (read32 f (slot c.argv 0)))
  | .count64 b => read64 g (slot c.rets 0) = BitVec.ofNat 64 (b.count (read64 f (slot c.argv 0)))
  | .uadd =>
    let sum := (read32 f (slot c.argv 0)).toNat + (read32 f (slot c.argv 1)).toNat
    read32 g (slot c.rets 0) = BitVec.ofNat 32 sum ∧
      read32 g (slot c.rets 1) = if 2 ^ 32 ≤ sum then 1 else 0
  | .umul =>
    let product := (read32 f (slot c.argv 0)).toNat * (read32 f (slot c.argv 1)).toNat
    read32 g (slot c.rets 0) = BitVec.ofNat 32 product ∧
      read32 g (slot c.rets 1) = if 2 ^ 32 ≤ product then 1 else 0

def Exact (h : Host) (i : Intrinsic) (c : Call) (f : Bytes) (vm : Vm) : Prop :=
  ∃ g vm', runCall h c f vm = some (g, vm') ∧ Results i c f g

/-- The host builtin has a value at the operand. -/
def BitCount.Defined {w : ℕ} (c : BitCount) (x : BitVec w) : Prop := c = .ctpop ∨ x ≠ 0

/-- The operands at which the operations are right. The multiplication of the fallback is one of
32 bits, so that its flag is never set. -/
def Supported (h : Host) (i : Intrinsic) (c : Call) (f : Bytes) : Prop :=
  match i with
  | .count32 b => b.Defined (read32 f (slot c.argv 0))
  | .count64 b => b.Defined (read64 f (slot c.argv 0))
  | .uadd => True
  | .umul => h.hasBuiltinOverflow ∨
      (read32 f (slot c.argv 0)).toNat * (read32 f (slot c.argv 1)).toNat < 2 ^ 32

section Binding

def Intrinsic.row : Intrinsic → Op × ℕ
  | .count32 .cttz => (.ctz32, 1)
  | .count32 .ctlz => (.clz32, 1)
  | .count32 .ctpop => (.pop32, 1)
  | .count64 .cttz => (.ctz64, 1)
  | .count64 .ctlz => (.clz64, 1)
  | .count64 .ctpop => (.pop64, 1)
  | .uadd => (.uaddo32, 2)
  | .umul => (.umulo32, 2)

theorem vmopResolve_name (i : Intrinsic) : vmopResolve i.name = some i.row := by
  cases i with
  | count32 c => cases c <;> simp [vmopResolve, vmopMap, Intrinsic.name, Intrinsic.row]
  | count64 c => cases c <;> simp [vmopResolve, vmopMap, Intrinsic.name, Intrinsic.row]
  | uadd => simp [vmopResolve, vmopMap, Intrinsic.name, Intrinsic.row]
  | umul => simp [vmopResolve, vmopMap, Intrinsic.name, Intrinsic.row]

/-- The units of a call of the intrinsic; the flag of `llvm.cttz` and `llvm.ctlz` is not kept. -/
def operands (i : Intrinsic) (c : Call) : Units := units (c.rets ++ c.argv.take i.row.2)

variable {i : Intrinsic} {c : Call}

theorem CallOf.enough (hc : CallOf i c) : i.row.2 ≤ c.argv.length := by
  have hargc := hc.argc
  cases i with
  | count32 b => cases b <;> simp_all [Intrinsic.row]
  | count64 b => cases b <;> simp_all [Intrinsic.row]
  | uadd => simp_all [Intrinsic.row]
  | umul => simp_all [Intrinsic.row]

theorem runCall_eq (hc : CallOf i c) (h : Host) (f : Bytes) (vm : Vm) :
    runCall h c f vm = exec (body h i.row.1 (operands i c)) f vm := by
  have hargs : ¬ c.argv.length < i.row.2 := by
    have henough := hc.enough
    omega
  unfold runCall
  rw [hc.name_eq, vmopResolve_name]
  simp only [replaceCall, if_neg hargs]
  rfl

theorem reg_result (i : Intrinsic) {k : ℕ} (hk : k < c.rets.length) :
    reg (operands i c) k = slot c.rets k := by
  simp [reg, operands, units, slot, List.getElem?_append_left hk]

theorem reg_argument {k n : ℕ} (hn : c.rets.length = n) (hk : k < i.row.2) :
    reg (operands i c) (n + k) = slot c.argv k := by
  subst hn
  simp [reg, operands, units, slot, List.getElem?_append_right, hk]

end Binding

section Counts
variable {w : ℕ}

def BitCount.builtin (c : BitCount) (x : BitVec w) : Option (BitVec w) :=
  match c with
  | .cttz => bitCount BitVec.ctz x
  | .ctlz => bitCount BitVec.clz x
  | .ctpop => some x.cpop

theorem ofNat_count_ctz (x : BitVec w) : BitVec.ofNat w (trailingZeros x) = x.ctz := by
  rw [trailingZeros_eq_ctz, BitVec.ofNat_toNat, BitVec.setWidth_eq]

theorem ofNat_count_clz (x : BitVec w) : BitVec.ofNat w (leadingZeros x) = x.clz := by
  rw [leadingZeros_eq_clz, BitVec.ofNat_toNat, BitVec.setWidth_eq]

theorem ofNat_count_cpop (x : BitVec w) : BitVec.ofNat w (population x) = x.cpop := by
  rw [population_eq_cpop, BitVec.ofNat_toNat, BitVec.setWidth_eq]

theorem builtin_of_defined {c : BitCount} {x : BitVec w} (hx : c.Defined x) :
    c.builtin x = some (BitVec.ofNat w (c.count x)) := by
  cases c with
  | cttz =>
    have hne : x ≠ 0 := hx.resolve_left (by decide)
    change (if x = 0 then none else some x.ctz) = some (BitVec.ofNat w (trailingZeros x))
    rw [if_neg hne, ofNat_count_ctz]
  | ctlz =>
    have hne : x ≠ 0 := hx.resolve_left (by decide)
    change (if x = 0 then none else some x.clz) = some (BitVec.ofNat w (leadingZeros x))
    rw [if_neg hne, ofNat_count_clz]
  | ctpop =>
    change some x.cpop = some (BitVec.ofNat w (population x))
    rw [ofNat_count_cpop]

theorem builtin_of_undefined {c : BitCount} {x : BitVec w} (hx : ¬ c.Defined x) :
    c.builtin x = none := by
  have hc : c ≠ .ctpop := fun h => hx (.inl h)
  have hzero : x = 0 := by
    by_contra hne
    exact hx (.inr hne)
  cases c with
  | cttz => exact if_pos hzero
  | ctlz => exact if_pos hzero
  | ctpop => exact absurd rfl hc

end Counts

section Operations
variable (h : Host) (I : Units) (f : Bytes) (vm : Vm)

theorem body_count32 (b : BitCount) :
    body h (Intrinsic.count32 b).row.1 I
      = .rd32 (reg I 1) fun x => set32 I 0 (b.builtin x) := by
  cases b <;> rfl

theorem body_count64 (b : BitCount) :
    body h (Intrinsic.count64 b).row.1 I
      = .rd64 (reg I 1) fun x => set64 I 0 (b.builtin x) := by
  cases b <;> rfl

theorem exec_count32 (b : BitCount) :
    exec (body h (Intrinsic.count32 b).row.1 I) f vm
      = (b.builtin (read32 f (reg I 1))).map fun v => (write32 f (reg I 0) v, vm) := by
  rw [body_count32]
  change exec (set32 I 0 _) f vm = _
  cases b.builtin (read32 f (reg I 1)) <;> rfl

theorem exec_count64 (b : BitCount) :
    exec (body h (Intrinsic.count64 b).row.1 I) f vm
      = (b.builtin (read64 f (reg I 1))).map fun v => (write64 f (reg I 0) v, vm) := by
  rw [body_count64]
  change exec (set64 I 0 _) f vm = _
  cases b.builtin (read64 f (reg I 1)) <;> rfl

/-- The flag that `UADDO32` computes. -/
def uaddFlag (a b : BitVec 32) : Bool :=
  if h.hasBuiltinOverflow then decide (2 ^ 32 ≤ a.toNat + b.toNat)
  else (BitVec.allOnes 32 - a).ult b

/-- The flag that `UMULO32` computes. -/
def umulFlag (a b : BitVec 32) : Bool :=
  if h.hasBuiltinOverflow then decide (2 ^ 32 ≤ a.toNat * b.toNat)
  else ((a * b).setWidth 64 : BitVec 64) >>> 32 != 0

theorem exec_uaddo32 :
    exec (body h .uaddo32 I) f vm
      = some (write32 (write32 f (reg I 1)
          (ofBool (uaddFlag h (read32 f (reg I 2)) (read32 f (reg I 3))))) (reg I 0)
          (read32 f (reg I 2) + read32 f (reg I 3)), vm) := rfl

theorem exec_umulo32 :
    exec (body h .umulo32 I) f vm
      = some (write32 (write32 f (reg I 1)
          (ofBool (umulFlag h (read32 f (reg I 2)) (read32 f (reg I 3))))) (reg I 0)
          (read32 f (reg I 2) * read32 f (reg I 3)), vm) := rfl

theorem uaddFlag_eq (a b : BitVec 32) :
    uaddFlag h a b = decide (2 ^ 32 ≤ a.toNat + b.toNat) := by
  have ha := a.isLt
  have hb := b.isLt
  unfold uaddFlag
  split
  · rfl
  · have hcomplement : (BitVec.allOnes 32 - a).toNat = 2 ^ 32 - 1 - a.toNat := by
      rw [BitVec.allOnes_sub_eq_not, BitVec.toNat_not]
    rw [BitVec.ult, hcomplement]
    apply decide_eq_decide.mpr
    omega

theorem umulFlag_builtin (hbuiltin : h.hasBuiltinOverflow) (a b : BitVec 32) :
    umulFlag h a b = decide (2 ^ 32 ≤ a.toNat * b.toNat) := if_pos hbuiltin

theorem umulFlag_fallback (hbuiltin : ¬ h.hasBuiltinOverflow) (a b : BitVec 32) :
    umulFlag h a b = false := by
  have hshift : ((a * b).setWidth 64 : BitVec 64) >>> 32 = 0 := by
    apply BitVec.eq_of_toNat_eq
    have hlt := (a * b).isLt
    rw [BitVec.toNat_ushiftRight, BitVec.toNat_setWidth_of_le (by omega), Nat.shiftRight_eq_div_pow,
      Nat.div_eq_of_lt hlt]
    rfl
  unfold umulFlag
  rw [if_neg hbuiltin, hshift]
  rfl

theorem umulFlag_eq_iff (a b : BitVec 32) :
    umulFlag h a b = decide (2 ^ 32 ≤ a.toNat * b.toNat)
      ↔ h.hasBuiltinOverflow ∨ a.toNat * b.toNat < 2 ^ 32 := by
  by_cases hbuiltin : h.hasBuiltinOverflow
  · simp [umulFlag_builtin h hbuiltin, hbuiltin]
  · rw [umulFlag_fallback h hbuiltin]
    simp [hbuiltin]

theorem ofBool_eq (p : Prop) [Decidable p] (b : Bool) :
    ofBool b = (if p then 1 else 0) ↔ b = decide p := by
  by_cases hp : p <;> cases b <;> simp [hp, ofBool]

theorem read32_pair {r s : ℤ} (hapart : r + 4 ≤ s ∨ s + 4 ≤ r) (u v : BitVec 32) :
    read32 (write32 (write32 f s u) r v) r = v ∧ read32 (write32 (write32 f s u) r v) s = u := by
  constructor
  · exact read32_write32_same _ r v
  · have hframe : read32 (write32 (write32 f s u) r v) s = read32 (write32 f s u) s := by
      apply read32_writeLe_disjoint
      omega
    rw [hframe, read32_write32_same]

end Operations

section Exactness
variable {c : Call} (h : Host) (f : Bytes) (vm : Vm)

theorem exact_count32_iff {b : BitCount} (hc : CallOf (.count32 b) c) :
    Exact h (.count32 b) c f vm ↔ b.Defined (read32 f (slot c.argv 0)) := by
  have hrets : c.rets.length = 1 := hc.numRets
  have hrow : 0 < (Intrinsic.count32 b).row.2 := by cases b <;> decide
  have hrun := runCall_eq hc h f vm
  rw [exec_count32, reg_argument (k := 0) hrets hrow, reg_result _ (by omega)] at hrun
  constructor
  · rintro ⟨g, vm', hg, -⟩
    by_contra hundef
    rw [hrun, builtin_of_undefined hundef] at hg
    simp at hg
  · intro hdef
    rw [builtin_of_defined hdef] at hrun
    exact ⟨_, vm, hrun, read32_write32_same f _ _⟩

theorem exact_count64_iff {b : BitCount} (hc : CallOf (.count64 b) c) :
    Exact h (.count64 b) c f vm ↔ b.Defined (read64 f (slot c.argv 0)) := by
  have hrets : c.rets.length = 1 := hc.numRets
  have hrow : 0 < (Intrinsic.count64 b).row.2 := by cases b <;> decide
  have hrun := runCall_eq hc h f vm
  rw [exec_count64, reg_argument (k := 0) hrets hrow, reg_result _ (by omega)] at hrun
  constructor
  · rintro ⟨g, vm', hg, -⟩
    by_contra hundef
    rw [hrun, builtin_of_undefined hundef] at hg
    simp at hg
  · intro hdef
    rw [builtin_of_defined hdef] at hrun
    exact ⟨_, vm, hrun, read64_write64_same f _ _⟩

theorem exact_pair_iff {i : Intrinsic} (hc : CallOf i c) (hi : i = .uadd ∨ i = .umul)
    {flag : Bool} {result : BitVec 32}
    (hexec : exec (body h i.row.1 (operands i c)) f vm
      = some (write32 (write32 f (reg (operands i c) 1) (ofBool flag))
          (reg (operands i c) 0) result, vm)) (v u : BitVec 32) :
    (∃ g vm', runCall h c f vm = some (g, vm') ∧
        read32 g (slot c.rets 0) = v ∧ read32 g (slot c.rets 1) = u)
      ↔ result = v ∧ ofBool flag = u := by
  have hrets : c.rets.length = 2 := by
    have hnum := hc.numRets
    cases hi with
    | inl hi => subst hi; exact hnum
    | inr hi => subst hi; exact hnum
  rw [reg_result i (by omega), reg_result i (by omega)] at hexec
  obtain ⟨hresult, hflag⟩ := read32_pair f (hc.apart hi) (ofBool flag) result
  rw [runCall_eq hc h f vm, hexec]
  constructor
  · rintro ⟨g, vm', hg, hv, hu⟩
    simp only [Option.some.injEq, Prod.mk.injEq] at hg
    rw [← hg.1] at hv hu
    exact ⟨hresult.symm.trans hv, hflag.symm.trans hu⟩
  · rintro ⟨hv, hu⟩
    exact ⟨_, vm, rfl, hresult.trans hv, hflag.trans hu⟩

theorem exact_uadd (hc : CallOf .uadd c) : Exact h .uadd c f vm := by
  have hrets : c.rets.length = 2 := hc.numRets
  have ha : reg (operands .uadd c) 2 = slot c.argv 0 :=
    reg_argument (i := .uadd) (k := 0) hrets (by decide)
  have hb : reg (operands .uadd c) 3 = slot c.argv 1 :=
    reg_argument (i := .uadd) (k := 1) hrets (by decide)
  have hexec := exec_uaddo32 h (operands .uadd c) f vm
  rw [ha, hb] at hexec
  apply (exact_pair_iff h f vm hc (.inl rfl) hexec _ _).mpr
  constructor
  · exact BitVec.ofNat_add_ofNat _ _ ▸ by simp
  · rw [ofBool_eq]
    exact uaddFlag_eq h _ _

theorem exact_umul_iff (hc : CallOf .umul c) :
    Exact h .umul c f vm ↔ h.hasBuiltinOverflow ∨
      (read32 f (slot c.argv 0)).toNat * (read32 f (slot c.argv 1)).toNat < 2 ^ 32 := by
  have hrets : c.rets.length = 2 := hc.numRets
  have ha : reg (operands .umul c) 2 = slot c.argv 0 :=
    reg_argument (i := .umul) (k := 0) hrets (by decide)
  have hb : reg (operands .umul c) 3 = slot c.argv 1 :=
    reg_argument (i := .umul) (k := 1) hrets (by decide)
  have hexec := exec_umulo32 h (operands .umul c) f vm
  rw [ha, hb] at hexec
  refine (exact_pair_iff h f vm hc (.inr rfl) hexec _ _).trans ?_
  rw [ofBool_eq, umulFlag_eq_iff]
  apply and_iff_right
  apply BitVec.eq_of_toNat_eq
  rw [BitVec.toNat_mul, BitVec.toNat_ofNat]

/-- An intrinsic returns what the language defines exactly where the builtin has a value and the
fallback multiplication does not overflow. -/
theorem intrinsics_exact_iff {i : Intrinsic} (hc : CallOf i c) :
    Exact h i c f vm ↔ Supported h i c f := by
  cases i with
  | count32 b => exact exact_count32_iff h f vm hc
  | count64 b => exact exact_count64_iff h f vm hc
  | uadd => exact iff_of_true (exact_uadd h f vm hc) trivial
  | umul => exact exact_umul_iff h f vm hc

end Exactness

/-- `llvm.cttz.i32` from the register at 8 into the one at 0, with its flag in the one at 16. -/
def cttzCall : Call := ⟨"llvm.cttz.i32", [0], [8, 16]⟩

theorem cttzCall_callOf : CallOf (.count32 .cttz) cttzCall where
  name_eq := rfl
  argc := rfl
  numRets := rfl
  apart := by decide

theorem intrinsics_exact_iff_cttz :
    Exact zeroHost (.count32 .cttz) cttzCall (write32 (fun _ => 0) 8 40) zeroVm
      ↔ Supported zeroHost (.count32 .cttz) cttzCall (write32 (fun _ => 0) 8 40) :=
  intrinsics_exact_iff zeroHost (write32 (fun _ => 0) 8 40) zeroVm cttzCall_callOf

/-- `llvm.umul.with.overflow.i32` of the registers at 8 and 12 into those at 0 and 4. -/
def umulCall : Call := ⟨"llvm.umul.with.overflow.i32", [0, 4], [8, 12]⟩

theorem umulCall_callOf : CallOf .umul umulCall where
  name_eq := rfl
  argc := rfl
  numRets := rfl
  apart := by decide

def squareFrame : Bytes := write32 (write32 (fun _ => 0) 8 0x10000) 12 0x10000

/-- A host whose compiler has no overflow builtins. -/
def fallbackHost : Host := { zeroHost with hasBuiltinOverflow := false }

/-- Zero has no trailing zeros to count, and the square of 65536 does not overflow where the
compiler has no builtin. -/
theorem zero_count_and_square_wrong :
    (CallOf (.count32 .cttz) cttzCall ∧ ¬ Exact zeroHost (.count32 .cttz) cttzCall
        (fun _ => 0) zeroVm) ∧
      CallOf .umul umulCall ∧ ¬ Exact fallbackHost .umul umulCall squareFrame zeroVm := by
  refine ⟨⟨cttzCall_callOf, ?_⟩, umulCall_callOf, ?_⟩
  · rw [exact_count32_iff zeroHost _ zeroVm cttzCall_callOf]
    unfold BitCount.Defined
    decide
  · rw [exact_umul_iff fallbackHost _ zeroVm umulCall_callOf]
    decide

end Vmir.BitIntrinsics
