import Vmir.RegisterContents

set_option autoImplicit false

/-!
# Integer arithmetic is compiled to LLVM's meaning where it is exact

An operand register holds whatever earlier operations of its type left there, which can be anything
above the low bits. So the code of a binary operation has LLVM's result exactly for the
combinations of `exact`.
-/
namespace Vmir.BinopCorrect
open ByteStore Ir VmOps IrTypes ProgramText LlvmInteger IntegerRegisters EmitBinop
open BinopRuns BinopExact RegisterContents

/-- The code of the operation has LLVM's result in the low bits of the destination, for all
operands that the program can have and whenever LLVM defines the result. Only where the buffer has
not 32 bytes left may the emitter stop instead. -/
def Compiles (h : Host) (w : IntWidth) (b : Binop) (form : Form) : Prop :=
  ∀ (iu : IrUnit) (t : Text) (ret lhs rhs : ValueType) (d a : BitVec 32) (y : Rhs w)
    (s : Bytes × Vm) (r : BitVec w.bits), y.form = form → Placed iu w ret lhs rhs d a y →
    Produced h w s.1 a → (∀ r, y = .reg r → Produced h w s.1 r) →
    llvmBinop b (lowBits w.bits s.1 a) (y.value s.1) = some r →
    (emitBinop iu t ret b lhs rhs = .error functionTooBig ∧ textAllocMemsize ≤ 2 * t.length + 32) ∨
      ∃ t' s', emitBinop iu t ret b lhs rhs = .ok t' ∧ Runs h t t' s s'
        ∧ lowBits w.bits s'.1 d = r

theorem result_low {h : Host} {t : Text} {e : Except Fault Text} {s : Bytes × Vm} {w : ℕ}
    {d : BitVec 32} {v : Option (BitVec 64)} {r : BitVec w} (hv : v.map (·.setWidth w) = some r)
    (hy : Yields h t e s (v.map (writeSlot w s.1 d))) :
    (e = .error functionTooBig ∧ textAllocMemsize ≤ 2 * t.length + 32) ∨
      ∃ t' s', e = .ok t' ∧ Runs h t t' s s' ∧ lowBits w s'.1 d = r := by
  obtain ⟨a, rfl, rfl⟩ := Option.map_eq_some_iff.mp hv
  rcases hy with hfull | ⟨t', hemit, hrun⟩
  · exact Or.inl hfull
  · exact Or.inr ⟨t', _, hemit, hrun, lowBits_writeSlot w s.1 d a⟩

section
variable {h : Host} {w : IntWidth} {b : Binop} {form : Form}

theorem compiles_of_exact (hex : exact w.bits b form = true) : Compiles h w b form := by
  intro iu t ret lhs rhs d a y s r hform hp _ _ hr
  refine result_low ?_ (emitBinop_yields h hp t b s)
  cases y with
  | reg r' =>
    obtain rfl : Form.regs = form := hform
    exact regs_exact w.le hex hr
  | const c =>
    obtain rfl : Form.const = form := hform
    exact const_exact w.le hex hr

/-- A wrong result shows on an empty buffer, whatever is in the registers. -/
theorem not_compiles (y : Rhs w) (s : Bytes × Vm) (a : BitVec 32)
    (hwrong : wrong (llvmBinop b (lowBits w.bits s.1 a) (y.value s.1)) (result w b y s.1 a) = true) :
    ¬ Compiles h w b y.form := by
  intro hc
  obtain ⟨r, hr, hne⟩ := wrong_spec hwrong
  obtain ⟨iu, -, hp⟩ := exists_placed w 16 a y
  have hrun := hc iu [] ⟨0, 0⟩ ⟨1, 0⟩ ⟨2, 0⟩ 16 a y s r rfl hp (produced_all h w s.2 s.1 a)
    (fun r' _ => produced_all h w s.2 s.1 r') hr
  obtain ⟨-, hfull⟩ | ⟨t', hemit, hres⟩ := emitBinop_yields h hp [] b s
  · exact absurd hfull (by decide)
  rw [hemit] at hrun
  obtain ⟨hfail, -⟩ | ⟨t'', s', ht, hrun, hlow⟩ := hrun
  · cases hfail
  obtain rfl := Except.ok.inj ht
  cases hv : result w b y s.1 a with
  | none =>
    rw [hv] at hres
    exact hres s' hrun
  | some v =>
    rw [hv] at hres hne
    obtain rfl := Runs.unique hrun hres
    rw [lowBits_writeSlot] at hlow
    exact hne (congrArg some hlow)

theorem exact_of_compiles (hc : Compiles h w b form) : exact w.bits b form = true := by
  have hlt := Nat.lt_succ_of_le w.le
  by_contra hex
  cases form with
  | regs =>
    have hwrong := ((strayRegs_wrong b w.bits hlt).resolve_left w.pos.ne').resolve_left hex
    generalize strayRegs w.bits b = p at hwrong
    obtain ⟨x, y⟩ := p
    obtain ⟨hx, hy⟩ := content_operandFrame x y
    refine not_compiles (.reg 8) (operandFrame x y, zeroVm) 0 ?_ hc
    rw [Rhs.value, result, lowBits, lowBits, hx, hy]
    exact hwrong
  | const =>
    have hwrong := ((strayConst_wrong b w.bits hlt).resolve_left w.pos.ne').resolve_left hex
    generalize strayConst w.bits b = p at hwrong
    obtain ⟨x, c⟩ := p
    obtain ⟨hx, -⟩ := content_operandFrame x 0
    refine not_compiles (.const c) (operandFrame x 0, zeroVm) 0 ?_ hc
    rw [Rhs.value, result, lowBits, hx]
    exact hwrong

end

/-- An `i8` division of 1 by a register that holds 257, which is 1 in its low byte. -/
theorem not_compiles_udiv8 : ¬ Compiles zeroHost i8 .udiv .regs := by
  obtain ⟨hx, hy⟩ := content_operandFrame 1 257
  refine not_compiles (.reg 8) (operandFrame 1 257, zeroVm) 0 ?_
  rw [Rhs.value, result, lowBits, lowBits, hx, hy]
  decide

theorem compilesBinop_iff (h : Host) (w : IntWidth) (b : Binop) (form : Form) :
    Compiles h w b form ↔ exact w.bits b form = true :=
  ⟨exact_of_compiles, compiles_of_exact⟩

end Vmir.BinopCorrect
