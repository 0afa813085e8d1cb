import Mathlib.Tactic.IntervalCases
import Vmir.VmOps

set_option autoImplicit false

/-!
# Destinations that share a slot with a source

The register allocator may give the destination of an operation the frame slot of a source. An
operation allows this when it reads its sources before it writes its destinations.
-/
namespace Vmir.VmOps
open ByteStore RegisterProgram Ir

section ReadsFirst
variable (I : Units)

@[simp] theorem readsFirst_set32 (r : ℕ) (v : Option (BitVec 32)) : ReadsFirst (set32 I r v) := by
  cases v <;> trivial

@[simp] theorem readsFirst_set64 (r : ℕ) (v : Option (BitVec 64)) : ReadsFirst (set64 I r v) := by
  cases v <;> trivial

@[simp] theorem readsFirst_set32Of32 (f : BitVec 32 → BitVec 32) : ReadsFirst (set32Of32 I f) :=
  fun _ => trivial

@[simp] theorem readsFirst_set32Of64 (f : BitVec 64 → BitVec 32) : ReadsFirst (set32Of64 I f) :=
  fun _ => trivial

@[simp] theorem readsFirst_set64Of32 (f : BitVec 32 → BitVec 64) : ReadsFirst (set64Of32 I f) :=
  fun _ => trivial

@[simp] theorem readsFirst_set64Of64 (f : BitVec 64 → BitVec 64) : ReadsFirst (set64Of64 I f) :=
  fun _ => trivial

@[simp] theorem readsFirst_set32Of32And32 (f : BitVec 32 → BitVec 32 → BitVec 32) :
    ReadsFirst (set32Of32And32 I f) := fun _ _ => trivial

@[simp] theorem readsFirst_set32Of64And64 (f : BitVec 64 → BitVec 64 → BitVec 32) :
    ReadsFirst (set32Of64And64 I f) := fun _ _ => trivial

@[simp] theorem readsFirst_set64Of64And64 (f : BitVec 64 → BitVec 64 → BitVec 64) :
    ReadsFirst (set64Of64And64 I f) := fun _ _ => trivial

@[simp] theorem readsFirst_arith32 (b : Binop) (f g : BitVec 32 → BitVec 32) :
    ReadsFirst (arith32 I b f g) := fun _ _ => readsFirst_set32 I 0 _

@[simp] theorem readsFirst_arith32C (b : Binop) (f : BitVec 32 → BitVec 32) (c : BitVec 32) :
    ReadsFirst (arith32C I b f c) := fun _ => readsFirst_set32 I 0 _

@[simp] theorem readsFirst_arith64 (b : Binop) : ReadsFirst (arith64 I b) :=
  fun _ _ => readsFirst_set64 I 0 _

@[simp] theorem readsFirst_arith64C (b : Binop) (c : BitVec 64) : ReadsFirst (arith64C I b c) :=
  fun _ => readsFirst_set64 I 0 _

@[simp] theorem readsFirst_load8At (e : Extension) (a : ℤ) : ReadsFirst (load8At I e a) :=
  fun _ => trivial

@[simp] theorem readsFirst_load16At (e : Extension) (a : ℤ) : ReadsFirst (load16At I e a) :=
  fun _ => trivial

@[simp] theorem readsFirst_load32At (a : ℤ) : ReadsFirst (load32At I a) := fun _ => trivial

@[simp] theorem readsFirst_load64At (a : ℤ) : ReadsFirst (load64At I a) := fun _ => trivial

@[simp] theorem readsFirst_withPtr {k : ℤ → Prog Vm} (h : ∀ a, ReadsFirst (k a)) :
    ReadsFirst (withPtr I k) := fun _ => h _

@[simp] theorem readsFirst_withOff {k : ℤ → Prog Vm} (h : ∀ a, ReadsFirst (k a)) :
    ReadsFirst (withOff I k) := fun _ => h _

@[simp] theorem readsFirst_withRoff {k : ℤ → Prog Vm} (h : ∀ a, ReadsFirst (k a)) :
    ReadsFirst (withRoff I k) := fun _ _ => h _

@[simp] theorem readsFirst_storeAt (n : ℕ) (a : ℤ) (v : ℕ) : ReadsFirst (storeAt n a v) :=
  fun _ => trivial

@[simp] theorem readsFirst_storeG (n : ℕ) : ReadsFirst (storeG I n) :=
  fun _ => readsFirst_storeAt n _ _

@[simp] theorem readsFirst_storeCOff (n v : ℕ) : ReadsFirst (storeCOff I n v) :=
  fun _ => readsFirst_storeAt n _ _

@[simp] theorem readsFirst_storePtr (n : ℕ) : ReadsFirst (storePtr I n) :=
  fun _ _ => readsFirst_storeAt n _ _

@[simp] theorem readsFirst_storeOff (n : ℕ) : ReadsFirst (storeOff I n) :=
  fun _ _ => readsFirst_storeAt n _ _

@[simp] theorem readsFirst_memResult2 (f : Bytes → ℤ → ℤ → Bytes) :
    ReadsFirst (memResult2 I f) := fun _ _ _ => trivial

@[simp] theorem readsFirst_memResult3 (f : Bytes → BitVec 32 → BitVec 32 → BitVec 32 → Bytes) :
    ReadsFirst (memResult3 I f) := fun _ _ _ _ => trivial

@[simp] theorem readsFirst_memQuery2 (f : Bytes → BitVec 32 → BitVec 32 → BitVec 32) :
    ReadsFirst (memQuery2 I f) := fun _ _ _ => trivial

@[simp] theorem readsFirst_memQuery3
    (f : Bytes → BitVec 32 → BitVec 32 → BitVec 32 → BitVec 32) :
    ReadsFirst (memQuery3 I f) := fun _ _ _ _ => trivial

end ReadsFirst

theorem body_readsFirst (h : Host) {op : Op} (hop : op ≠ .stackcopyr) (I : Units) :
    ReadsFirst (body h op I) := by
  cases op <;> first | exact absurd rfl hop | simp [body, ReadsFirst, NoRead]

/-- Executing the operation amounts to reading all sources and then writing, for all contents of
the registers and of the memory. -/
def SharingSafe (h : Host) (op : Op) (I : Units) : Prop :=
  ∀ (f : Bytes) (vm : Vm), exec (body h op I) f vm = execSnapshot f (body h op I) f vm

/-- A `STACKCOPYR` of at least one byte whose destination overlaps the register of its source. -/
def Clobbers (op : Op) (I : Units) : Prop :=
  op = .stackcopyr ∧ reg I 0 - 4 < reg I 1 ∧ reg I 1 < reg I 0 + 4 ∧ imm32 I 2 ≠ 0

instance (op : Op) (I : Units) : Decidable (Clobbers op I) :=
  inferInstanceAs (Decidable (_ ∧ _ ∧ _ ∧ _))

/-- `STACKCOPYR` is harmless when its slots are apart: the source is read unchanged. -/
theorem stackcopyr_of_disjoint (h : Host) {I : Units}
    (hd : reg I 1 + 4 ≤ reg I 0 ∨ reg I 0 + 4 ≤ reg I 1) : SharingSafe h .stackcopyr I := by
  intro f vm
  have hread : ∀ p : BitVec 32, read32 (write32 f (reg I 0) p) (reg I 1) = read32 f (reg I 1) :=
    fun p => read32_writeLe_disjoint (by push_cast; exact hd)
  simp only [body, exec, execSnapshot, hread]

theorem memCopy_zero (m : Bytes) (dst src : ℤ) : memCopy m dst src 0 = m := by
  funext x
  unfold memCopy
  rw [if_neg]
  omega

theorem stackcopyr_of_empty (h : Host) {I : Units} (hn : imm32 I 2 = 0) :
    SharingSafe h .stackcopyr I := by
  intro f vm
  have h0 : (0 : BitVec 32).toNat = 0 := rfl
  simp only [body, exec, execSnapshot, hn, h0, memCopy_zero]

/-- A state in which the overlap shows: all registers are zero, the stack pointer has no zero byte,
and only the first byte of the memory differs from zero. -/
def clobberedVm : Vm where
  hostmem := fun a => if a = 0 then 1 else 0
  allocaptr := 0x04040404#32
  allocapeak := 0
  exception := 0
  typeInfo := 0
  counts := fun _ => 0

theorem write32_clobbered (a x : ℤ) :
    write32 (fun _ => 0) a clobberedVm.allocaptr x = if a ≤ x ∧ x < a + 4 then 4 else 0 := by
  unfold write32
  by_cases h : a ≤ x ∧ x < a + 4
  · rw [if_pos h, writeLe_of_mem h.1 h.2]
    have : (x - a).toNat < 4 := by omega
    generalize (x - a).toNat = i at this ⊢
    interval_cases i <;> rfl
  · rw [if_neg h, writeLe_of_not_mem (by push_cast; omega)]

theorem read32_overlap_ne {a b : ℤ} (h1 : a - 4 < b) (h2 : b < a + 4) :
    read32 (write32 (fun _ => 0) a clobberedVm.allocaptr) b ≠ 0 := by
  intro h0
  have hlt : readLe (write32 (fun _ => 0) a clobberedVm.allocaptr) b 4 < 2 ^ 32 := readLe_lt _ b 4
  have hzero : readLe (write32 (fun _ => 0) a clobberedVm.allocaptr) b 4 = 0 := by
    have := congrArg BitVec.toNat h0
    rwa [read32, BitVec.toNat_ofNat, Nat.mod_eq_of_lt hlt] at this
  -- One of the four bytes that are read has been written.
  simp only [readLe, write32_clobbered] at hzero
  have hfour : ∀ x : ℤ, (if a ≤ x ∧ x < a + 4 then (4 : BitVec 8) else 0).toNat = 0 →
      ¬ (a ≤ x ∧ x < a + 4) := by
    intro x hx hin
    rw [if_pos hin] at hx
    simp at hx
  have h3 := hfour b (by omega)
  have h4 := hfour (b + 1) (by omega)
  have h5 := hfour (b + 1 + 1) (by omega)
  have h6 := hfour (b + 1 + 1 + 1) (by omega)
  omega

/-- The copied bytes of `STACKCOPYR`, from wherever `src` points. -/
theorem memCopy_clobbered {n : ℕ} (hn : 0 < n) (src : BitVec 32) :
    memCopy clobberedVm.hostmem (hostaddr clobberedVm.allocaptr) (hostaddr src) n
      (hostaddr clobberedVm.allocaptr) = if src = 0 then 1 else 0 := by
  unfold memCopy
  rw [if_pos ⟨le_rfl, by omega⟩]
  change (if hostaddr clobberedVm.allocaptr - hostaddr clobberedVm.allocaptr + hostaddr src = 0
    then (1 : BitVec 8) else 0) = _
  have : hostaddr clobberedVm.allocaptr - hostaddr clobberedVm.allocaptr + hostaddr src = 0 ↔
      src = 0 := by
    unfold hostaddr
    constructor
    · intro h
      exact BitVec.eq_of_toNat_eq (by simpa using h)
    · rintro rfl
      simp
  simp only [this]

theorem stackcopyr_of_clobbers (h : Host) {I : Units} (hc : Clobbers .stackcopyr I) :
    exec (body h .stackcopyr I) (fun _ => 0) clobberedVm ≠
      execSnapshot (fun _ => 0) (body h .stackcopyr I) (fun _ => 0) clobberedVm := by
  obtain ⟨_, h1, h2, hn⟩ := hc
  have hp : vmirAlign clobberedVm.allocaptr 4 = clobberedVm.allocaptr := by decide
  have hsrc := read32_overlap_ne h1 h2
  have hread : read32 (fun _ => 0) (reg I 1) = 0 := by
    simp [read32, readLe]
  have hpos : 0 < (imm32 I 2).toNat := by
    rcases Nat.eq_zero_or_pos (imm32 I 2).toNat with h0 | h0
    · exact absurd (BitVec.eq_of_toNat_eq (by simpa using h0)) hn
    · exact h0
  intro heq
  simp only [body, exec, execSnapshot, hp, hread, Option.some.injEq, Prod.mk.injEq, true_and] at heq
  have hmem := congrFun (congrArg Vm.hostmem heq) (hostaddr clobberedVm.allocaptr)
  simp only [Vm.setAllocaptr, memCopy_clobbered hpos, if_neg hsrc, if_true] at hmem
  simp at hmem

/-- A `STACKCOPYR` of four bytes with slot 0 for its source and its destination. -/
theorem stackcopyr_one_slot :
    ¬ SharingSafe zeroHost .stackcopyr (fun r => if r = 2 then 4 else 0) := fun hs =>
  stackcopyr_of_clobbers zeroHost (by decide) (hs (fun _ => 0) clobberedVm)

/-- The operations are safe under register sharing exactly when they are not such a copy. -/
theorem sharingSafe_iff (h : Host) (op : Op) (I : Units) :
    SharingSafe h op I ↔ ¬ Clobbers op I := by
  constructor
  · intro hs hc
    obtain rfl := hc.1
    exact stackcopyr_of_clobbers h hc (hs _ _)
  · intro hc
    by_cases hop : op = .stackcopyr
    · subst hop
      by_cases hn : imm32 I 2 = 0
      · exact stackcopyr_of_empty h hn
      · refine stackcopyr_of_disjoint h ?_
        by_contra hd
        exact hc ⟨rfl, by omega, by omega, hn⟩
    · exact fun f vm => exec_of_readsFirst (body_readsFirst h hop I) f vm

end Vmir.VmOps
