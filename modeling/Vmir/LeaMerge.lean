import Vmir.EmitStore
import Vmir.LoadCast

set_option autoImplicit false

/-!
# Address computations in memory accesses

`merge_lea_into_load` and `merge_lea_into_store` make the LEA that computes the address of an access
a part of the access.
-/
namespace Vmir.LeaMerge
open ByteStore RegisterProgram CodePieces Ir VmOps IrTypes ProgramText IntegerRegisters
open EmitLoad EmitStore GepLowering GepAddress GepRuns

/-! ## The passes -/

/-- `immediate_offset` of a LEA that an access can take. -/
def FitsImmediate (off : ℤ) : Prop := -2 ^ 15 ≤ off ∧ off < 2 ^ 15

instance (off : ℤ) : Decidable (FitsImmediate off) :=
  inferInstanceAs (Decidable (_ ∧ _))

/-- The store becomes the result; `a` is the instruction that assigns its pointer. -/
def mergeLeaIntoStore (a ii : Instr) : Except Fault (Option Instr) :=
  match a.cls, ii.cls with
  | .lea baseptr off none _, .store ptr value immediateOffset =>
    if immediateOffset ≠ 0 then .error .abort
    else if FitsImmediate off then
      .ok (some ⟨ii.rets, .store ⟨baseptr.value, ptr.type⟩ value off⟩)
    else .ok none
  | _, _ => .ok none

def mergeLeaIntoLoad (a ii : Instr) : Except Fault (Option Instr) :=
  match a.cls, ii.cls with
  | .lea baseptr off valueOffset valueOffsetMultiply,
      .load ptr immediateOffset iiOffset _ cast loadType =>
    if immediateOffset ≠ 0 then .error .abort
    else if FitsImmediate off then
      if iiOffset.isSome then .error .abort
      else .ok (some ⟨ii.rets, .load ⟨baseptr.value, ptr.type⟩ (immediateOffset + off) valueOffset
        valueOffsetMultiply cast loadType⟩)
    else .ok none
  | _, _ => .ok none

def emitAccess (iu : IrUnit) (t : Text) (i : Instr) : Except Fault Text :=
  match i.rets, i.cls with
  | [ret], .load ptr immediateOffset valueOffset valueOffsetMultiply cast loadType =>
    emitLoad iu t ret ptr immediateOffset valueOffset valueOffsetMultiply cast loadType
  | _, .store ptr value immediateOffset => emitStore iu t ptr value immediateOffset
  | _, _ => .error (.parserError "Unable to emit instruction %d")

/-! ## Where an operation accesses the memory -/

def accessOf (op : Op) (I : Units) (f : Bytes) : Option (ℤ × ℕ) :=
  let ptr (r : ℕ) := read32 f (reg I r)
  let roff := ptr 1 + simm16 I 2 + ptr 3 * simm16 I 4
  match op with
  | .load8 => some (hostaddr (ptr 1), 1)
  | .load16 => some (hostaddr (ptr 1), 2)
  | .load32 => some (hostaddr (ptr 1), 4)
  | .load64 => some (hostaddr (ptr 1), 8)
  | .load8Off _ => some (hostaddr (ptr 1 + simm16 I 2), 1)
  | .load16Off _ => some (hostaddr (ptr 1 + simm16 I 2), 2)
  | .load32Off => some (hostaddr (ptr 1 + simm16 I 2), 4)
  | .load64Off => some (hostaddr (ptr 1 + simm16 I 2), 8)
  | .load8Roff _ => some (hostaddr roff, 1)
  | .load16Roff _ => some (hostaddr roff, 2)
  | .load32Roff => some (hostaddr roff, 4)
  | .load64Roff => some (hostaddr roff, 8)
  | .store8 => some (hostaddr (ptr 0), 1)
  | .store16 => some (hostaddr (ptr 0), 2)
  | .store32 => some (hostaddr (ptr 0), 4)
  | .store64 => some (hostaddr (ptr 0), 8)
  | .store8Off => some (hostaddr (ptr 0 + simm16 I 2), 1)
  | .store16Off => some (hostaddr (ptr 0 + simm16 I 2), 2)
  | .store32Off => some (hostaddr (ptr 0 + simm16 I 2), 4)
  | .store64Off => some (hostaddr (ptr 0 + simm16 I 2), 8)
  | .store8COff => some (hostaddr (ptr 0 + simm16 I 1), 1)
  | .store16COff => some (hostaddr (ptr 0 + simm16 I 1), 2)
  | .store32COff => some (hostaddr (ptr 0 + simm16 I 1), 4)
  | .store64COff => some (hostaddr (ptr 0 + simm16 I 1), 8)
  | _ => none

/-- What an operation does at an address with `n` bytes there: it sets a register from them, or
writes them. -/
inductive AccessAt (I : Units) : ℕ → (ℤ → Prog Vm) → Prop
  | load8 (e : Extension) : AccessAt I 1 (load8At I e)
  | load16 (e : Extension) : AccessAt I 2 (load16At I e)
  | load32 : AccessAt I 4 (load32At I)
  | load64 : AccessAt I 8 (load64At I)
  | store (n v : ℕ) : AccessAt I n fun a => storeAt n a v

theorem exec_access (h : Host) {op : Op} {I : Units} {f : Bytes} {a : ℤ} {n : ℕ}
    (hat : accessOf op I f = some (a, n)) :
    ∃ k, AccessAt I n k ∧ ∀ vm, exec (body h op I) f vm = exec (k a) f vm := by
  cases op with
  | load8 | load8Off e | load8Roff e =>
    cases hat
    exact ⟨_, .load8 _, fun vm => rfl⟩
  | load16 | load16Off e | load16Roff e =>
    cases hat
    exact ⟨_, .load16 _, fun vm => rfl⟩
  | load32 | load32Off | load32Roff =>
    cases hat
    exact ⟨_, .load32, fun vm => rfl⟩
  | load64 | load64Off | load64Roff =>
    cases hat
    exact ⟨_, .load64, fun vm => rfl⟩
  | store8 | store8Off | store8COff | store16 | store16Off | store16COff | store32 | store32Off
  | store32COff | store64 | store64Off | store64COff =>
    cases hat
    exact ⟨_, .store _ _, fun vm => rfl⟩
  | _ => cases hat

/-- The code from `t` to `t'` accesses the `x.2` bytes at `x.1`, and does nothing else there, after
code that leaves the memory as it was. -/
def Accesses (h : Host) (t t' : Text) (s : Bytes × Vm) (x : ℤ × ℕ) : Prop :=
  ∃ pre op args f, t' = t ++ pre ++ code op args ∧ args.length = skip op
    ∧ Runs h t (t ++ pre) s (f, s.2) ∧ accessOf op (operands args) f = some x
    ∧ ∃ k, AccessAt (operands args) x.2 k
      ∧ ∀ vm, exec (body h op (operands args)) f vm = exec (k x.1) f vm

theorem code_suffix {pre pre' : List Cell} {op op' : Op} {args args' : List (BitVec 16)}
    (heq : pre ++ code op args = pre' ++ code op' args') :
    pre = pre' ∧ op = op' ∧ args = args' := by
  -- The operation of one is not among the operands of the other.
  have hinner {x : List Cell} {op op' : Op} {args args' : List (BitVec 16)}
      (hx : code op args = x ++ code op' args') : x = [] := by
    cases x with
    | nil => rfl
    | cons c x =>
      injection hx with _ htail
      have hmem : Cell.op (.straight op') ∈ args.map Cell.half := by
        rw [htail]
        exact List.mem_append_right _ (List.mem_cons_self ..)
      obtain ⟨u, -, hu⟩ := List.mem_map.mp hmem
      cases hu
  have hpre : pre = pre' := by
    rcases List.append_eq_append_iff.mp heq with ⟨x, rfl, hx⟩ | ⟨x, rfl, hx⟩
    · rw [hinner hx, List.append_nil]
    · rw [hinner hx, List.append_nil]
  subst hpre
  have hcode := List.append_cancel_left heq
  injection hcode with hop hargs
  refine ⟨rfl, by injection hop with hop; injection hop, ?_⟩
  exact List.map_injective_iff.mpr (fun _ _ h => by injection h) hargs

theorem Accesses.unique {h : Host} {t t' : Text} {s : Bytes × Vm} {x y : ℤ × ℕ}
    (hx : Accesses h t t' s x) (hy : Accesses h t t' s y) : x = y := by
  obtain ⟨pre, op, args, f, rfl, -, hrun, hat, -⟩ := hx
  obtain ⟨pre', op', args', f', heq, -, hrun', hat', -⟩ := hy
  rw [List.append_assoc, List.append_assoc] at heq
  obtain ⟨rfl, rfl, rfl⟩ := code_suffix (List.append_cancel_left heq)
  obtain rfl : f = f' := congrArg Prod.fst (hrun.unique hrun')
  exact Option.some.inj (hat.symm.trans hat')

/-- The code from `t` to `t'` writes the `x.2` low bytes of `v` at `x.1` and leaves the other memory
as it was. -/
def Stores (h : Host) (t t' : Text) (s : Bytes × Vm) (x : ℤ × ℕ) (v : ℕ) : Prop :=
  ∃ f, Runs h t t' s (f, { s.2 with hostmem := writeLe s.2.hostmem x.1 x.2 v })

/-! ## Forms of accesses -/

abbrev Index := Option (BitVec 32 × ℤ)

def addressOf (p : BitVec 32) (imm : ℤ) (idx : Index) (f : Bytes) : ℤ :=
  hostaddr (read32 f (frameOffset p) + (BitVec.ofInt 16 imm).signExtend 32
    + idx.elim 0 fun x => read32 f (frameOffset x.1) * (BitVec.ofInt 16 x.2).signExtend 32)

/-- How accesses of a type are emitted, with their pointer in a register: whether the operation is
aligned, and the operation with its operands, which may depend on the position. -/
structure AccessForm where
  padded : Bool
  code : ℕ → BitVec 32 → ℤ → Index → Option (Op × List (BitVec 16))

def AccessForm.pad (k : AccessForm) (t : Text) : List Cell :=
  if k.padded then padding t true else []

/-- The code for an access, `fault` when there is no operation for it. -/
def AccessForm.emit (k : AccessForm) (fault : Fault) (t : Text) (p : BitVec 32) (imm : ℤ)
    (idx : Index) : Except Fault Text :=
  match k.code (t.length + (k.pad t).length) p imm idx with
  | some (op, args) => ProgramText.emit t (k.pad t ++ ProgramText.code op args)
  | none => .error fault

/-- The operations of the form access `n` bytes at the address; without an offset they have `low`
operands. -/
structure AccessForm.Sound (k : AccessForm) (n low : ℕ) : Prop where
  access : ∀ pos p imm idx op args, k.code pos p imm idx = some (op, args) →
    args.length = skip op ∧ low ≤ args.length
      ∧ ∀ f, accessOf op (operands args) f = some (addressOf p imm idx f, n)
  length : ∀ pos p imm idx op args, k.code pos p imm idx = some (op, args) →
    args.length ≤ low + 3 ∧ (k.padded → args.length = low)

/-- The operations of the form write the `n` low bytes of a number of the frame at the address. -/
def AccessForm.Writes (k : AccessForm) (n : ℕ) (v : Bytes → ℕ) : Prop :=
  ∀ pos p imm idx op args, k.code pos p imm idx = some (op, args) → ∀ h f vm,
    exec (body h op (operands args)) f vm
      = some (f, { vm with hostmem := writeLe vm.hostmem (addressOf p imm idx f) n (v f) })

theorem addressOf_plain (p : BitVec 32) (f : Bytes) :
    addressOf p 0 none f = hostaddr (read32 f (frameOffset p)) := by
  change hostaddr (_ + 0#32 + 0#32) = _
  rw [BitVec.add_zero, BitVec.add_zero]

theorem addressOf_off (p : BitVec 32) (imm : ℤ) (f : Bytes) : addressOf p imm none f
    = hostaddr (read32 f (frameOffset p) + (BitVec.ofInt 16 imm).signExtend 32) := by
  change hostaddr (_ + 0#32) = _
  rw [BitVec.add_zero]

/-! ### Loads -/

/-- The operands of a load into `d`. -/
def loadArgs (d p : BitVec 32) (imm : ℤ) (idx : Index) : List (BitVec 16) :=
  [d.setWidth 16, p.setWidth 16, BitVec.ofInt 16 imm]
    ++ idx.elim [] fun x => [x.1.setWidth 16, BitVec.ofInt 16 x.2]

/-- A load of one bit has no operation with an offset. -/
def bitForm (d : BitVec 32) : AccessForm where
  padded := false
  code := fun _ p imm idx =>
    if imm ≠ 0 ∨ idx.isSome then none else some (.load8, [d.setWidth 16, p.setWidth 16])

def loadForm (ops : LoadOps) (d : BitVec 32) : AccessForm where
  padded := false
  code := fun _ p imm idx =>
    if imm ≠ 0 ∨ idx.isSome then
      some (if idx.isSome then ops.roff else ops.off, loadArgs d p imm idx)
    else some (ops.plain, [d.setWidth 16, p.setWidth 16])

def castForm (off roff : Op) (d : BitVec 32) : AccessForm where
  padded := false
  code := fun _ p imm idx => some (if idx.isSome then roff else off, loadArgs d p imm idx)

section
variable {d : BitVec 32} {n : ℕ}

/-- Operations that access `n` bytes at an offset without and with an index register. -/
structure OffsetOps (off roff : Op) (n : ℕ) : Prop where
  skipOff : skip off = 3
  skipRoff : skip roff = 5
  off : ∀ I f, accessOf off I f = some (hostaddr (read32 f (reg I 1) + simm16 I 2), n)
  roff : ∀ I f, accessOf roff I f
    = some (hostaddr (read32 f (reg I 1) + simm16 I 2 + read32 f (reg I 3) * simm16 I 4), n)

theorem OffsetOps.access {off roff : Op} (h : OffsetOps off roff n) (p : BitVec 32) (imm : ℤ)
    (idx : Index) : (loadArgs d p imm idx).length = skip (if idx.isSome then roff else off)
      ∧ ∀ f, accessOf (if idx.isSome then roff else off) (operands (loadArgs d p imm idx)) f
        = some (addressOf p imm idx f, n) := by
  cases idx with
  | none =>
    refine ⟨h.skipOff.symm, fun f => (h.off _ f).trans ?_⟩
    rw [addressOf_off]
    rfl
  | some x => exact ⟨h.skipRoff.symm, fun f => h.roff _ f⟩

theorem loadArgs_length_le (p : BitVec 32) (imm : ℤ) (idx : Index) :
    3 ≤ (loadArgs d p imm idx).length ∧ (loadArgs d p imm idx).length ≤ 5 := by
  cases idx with
  | none => exact ⟨le_refl 3, show 3 ≤ 5 by omega⟩
  | some x => exact ⟨show 3 ≤ 5 by omega, le_refl 5⟩

theorem plain_access {op : Op} (hskip : skip op = 2)
    (hop : ∀ I f, accessOf op I f = some (hostaddr (read32 f (reg I 1)), n)) {p : BitVec 32}
    {imm : ℤ} {idx : Index} (hno : ¬ (imm ≠ 0 ∨ idx.isSome)) :
    [d.setWidth 16, p.setWidth 16].length = skip op
      ∧ ∀ f, accessOf op (operands [d.setWidth 16, p.setWidth 16]) f
        = some (addressOf p imm idx f, n) := by
  obtain ⟨himm, hidx⟩ := not_or.mp hno
  obtain rfl : imm = 0 := not_not.mp himm
  obtain rfl : idx = none := by simpa using hidx
  refine ⟨hskip.symm, fun f => ?_⟩
  rw [hop, addressOf_plain]
  rfl

theorem bitForm_sound (d : BitVec 32) : (bitForm d).Sound 1 2 := by
  constructor
  · intro pos p imm idx op args hcode
    simp only [bitForm] at hcode
    split at hcode
    · cases hcode
    · next hno =>
      cases hcode
      have hplain : ∀ I f, accessOf .load8 I f = some (hostaddr (read32 f (reg I 1)), 1) :=
        fun _ _ => rfl
      obtain ⟨hlen, hat⟩ := plain_access (d := d) rfl hplain hno
      exact ⟨hlen, le_refl 2, hat⟩
  · intro pos p imm idx op args hcode
    simp only [bitForm] at hcode
    split at hcode
    · cases hcode
    · cases hcode
      exact ⟨show 2 ≤ 5 by omega, fun h => by cases h⟩

theorem castForm_sound {off roff : Op} (h : OffsetOps off roff n) (d : BitVec 32) :
    (castForm off roff d).Sound n 3 := by
  constructor
  · intro pos p imm idx op args hcode
    cases hcode
    obtain ⟨hlen, hat⟩ := h.access (d := d) p imm idx
    exact ⟨hlen, (loadArgs_length_le p imm idx).1, hat⟩
  · intro pos p imm idx op args hcode
    cases hcode
    have hle := (loadArgs_length_le (d := d) p imm idx).2
    exact ⟨by omega, fun h => by cases h⟩

theorem loadForm_sound {ops : LoadOps} (h : OffsetOps ops.off ops.roff n)
    (hskip : skip ops.plain = 2)
    (hplain : ∀ I f, accessOf ops.plain I f = some (hostaddr (read32 f (reg I 1)), n))
    (d : BitVec 32) : (loadForm ops d).Sound n 2 := by
  constructor
  · intro pos p imm idx op args hcode
    simp only [loadForm] at hcode
    split at hcode
    · cases hcode
      obtain ⟨hlen, hat⟩ := h.access (d := d) p imm idx
      have hle := (loadArgs_length_le (d := d) p imm idx).1
      exact ⟨hlen, by omega, hat⟩
    · next hno =>
      cases hcode
      obtain ⟨hlen, hat⟩ := plain_access (d := d) hskip hplain hno
      exact ⟨hlen, le_refl 2, hat⟩
  · intro pos p imm idx op args hcode
    simp only [loadForm] at hcode
    split at hcode
    · cases hcode
      have hle := (loadArgs_length_le (d := d) p imm idx).2
      exact ⟨by omega, fun h => by cases h⟩
    · cases hcode
      exact ⟨show 2 ≤ 5 by omega, fun h => by cases h⟩

end

def IndexAt (iu : IrUnit) (valueOffset : Option ValueType) (multiply : ℤ) (idx : Index) : Prop :=
  match valueOffset with
  | none => idx = none
  | some o => ∃ ov r, valueGet iu o.value = .ok ov ∧ ov.cls = .regframe r ∧ idx = some (r, multiply)

def LoadsBit (iu : IrUnit) (ret : ValueType) (cast : Option CastOp) : Prop :=
  cast = none ∧ ∃ it, typeGet iu ret.type = .ok it ∧ legalizeType it = .int1

section
variable {iu : IrUnit} {valueOffset : Option ValueType} {mult : ℤ} {idx : Index}

theorem IndexAt.get (h : IndexAt iu valueOffset mult idx) :
    ∃ roff, valueOffset.mapM (fun o => valueGet iu o.value) = .ok roff
      ∧ roff.isSome = idx.isSome ∧ ∀ (off roffOp : Op) (d p : BitVec 32) (t : Text) (imm : ℤ),
        (emitOp2 t (if roff.isSome then roffOp else off) d p >>= fun t => emitOffset t imm roff mult)
          = emit t (code (if idx.isSome then roffOp else off) (loadArgs d p imm idx)) := by
  cases valueOffset with
  | none =>
    obtain rfl : idx = none := h
    exact ⟨none, rfl, rfl, fun off roffOp d p t imm => LoadCast.emitOffset_eq off d p t imm mult⟩
  | some o =>
    obtain ⟨ov, r, hov, hcls, rfl⟩ := h
    refine ⟨some ov, ?_, rfl, fun off roffOp d p t imm =>
      LoadCast.emitOffset_index_eq roffOp d p r hcls t imm mult⟩
    change (valueGet iu o.value >>= fun v => Except.ok (some v)) = _
    rw [hov]
    rfl

theorem loadOps_sound {code : TypeCode} {ops : LoadOps} (h : loadOps code = some ops)
    (d : BitVec 32) : ∃ n, (loadForm ops d).Sound n 2 := by
  unfold loadOps at h
  split at h
  · cases h
    exact ⟨1, loadForm_sound ⟨rfl, rfl, fun _ _ => rfl, fun _ _ => rfl⟩ rfl (fun _ _ => rfl) d⟩
  · cases h
    exact ⟨2, loadForm_sound ⟨rfl, rfl, fun _ _ => rfl, fun _ _ => rfl⟩ rfl (fun _ _ => rfl) d⟩
  · cases h
    exact ⟨4, loadForm_sound ⟨rfl, rfl, fun _ _ => rfl, fun _ _ => rfl⟩ rfl (fun _ _ => rfl) d⟩
  · cases h
    exact ⟨4, loadForm_sound ⟨rfl, rfl, fun _ _ => rfl, fun _ _ => rfl⟩ rfl (fun _ _ => rfl) d⟩
  · cases h
    exact ⟨4, loadForm_sound ⟨rfl, rfl, fun _ _ => rfl, fun _ _ => rfl⟩ rfl (fun _ _ => rfl) d⟩
  · cases h
    exact ⟨8, loadForm_sound ⟨rfl, rfl, fun _ _ => rfl, fun _ _ => rfl⟩ rfl (fun _ _ => rfl) d⟩
  · cases h
    exact ⟨8, loadForm_sound ⟨rfl, rfl, fun _ _ => rfl, fun _ _ => rfl⟩ rfl (fun _ _ => rfl) d⟩
  · cases h

theorem castOps_sound {retty pointee : TypeCode} {op : CastOp} {off roff : Op}
    (h : castOps retty pointee op = some (off, roff)) (d : BitVec 32) :
    ∃ n, (castForm off roff d).Sound n 3 := by
  unfold castOps at h
  split at h
  · cases h
    exact ⟨1, castForm_sound ⟨rfl, rfl, fun _ _ => rfl, fun _ _ => rfl⟩ d⟩
  · cases h
    exact ⟨1, castForm_sound ⟨rfl, rfl, fun _ _ => rfl, fun _ _ => rfl⟩ d⟩
  · cases h
    exact ⟨2, castForm_sound ⟨rfl, rfl, fun _ _ => rfl, fun _ _ => rfl⟩ d⟩
  · cases h
    exact ⟨2, castForm_sound ⟨rfl, rfl, fun _ _ => rfl, fun _ _ => rfl⟩ d⟩
  · cases h

theorem exists_loadForm {ret ptr₀ : ValueType} {pv₀ : Value} {p₀ : BitVec 32} {m₀ : ℤ}
    {cast : Option CastOp} {loadType : BitVec 8} {t₀ t' : Text}
    (hp₀ : valueGet iu ptr₀.value = .ok pv₀) (hcls₀ : pv₀.cls = .regframe p₀)
    (h : emitLoad iu t₀ ret ptr₀ 0 none m₀ cast loadType = .ok t') :
    ∃ k n low, AccessForm.Sound k n low
      ∧ (∀ pos p imm idx, k.code pos p imm idx = none
        ↔ LoadsBit iu ret cast ∧ (imm ≠ 0 ∨ idx.isSome))
      ∧ ∀ t ptr pv p imm valueOffset mult idx, valueGet iu ptr.value = .ok pv →
        pv.cls = .regframe p → FitsImmediate imm → IndexAt iu valueOffset mult idx →
        emitLoad iu t ret ptr imm valueOffset mult cast loadType = k.emit cantLoad t p imm idx := by
  unfold emitLoad at h
  rw [hp₀, ok_bind] at h
  change (valueGet iu ret.value >>= _) = _ at h
  obtain ⟨retV, hretV, h⟩ := bind_ok.mp h
  obtain ⟨retty, hretty, h⟩ := bind_ok.mp h
  have hnone (imm : ℤ) (himm : FitsImmediate imm) : ¬ (imm < -2 ^ 15 ∨ 2 ^ 15 ≤ imm) := by
    unfold FitsImmediate at himm
    omega
  cases cast with
  | none =>
    simp only [emitLoad1] at h
    rw [if_neg (hnone 0 (by decide)), hcls₀] at h
    by_cases hbit : legalizeType retty = .int1
    · rw [hbit] at h
      simp only [ne_eq, not_true_eq_false, Option.isSome_none, Bool.false_eq_true, or_self,
        if_false] at h
      obtain ⟨d, hd, -⟩ := bind_ok.mp h
      refine ⟨bitForm d, 1, 2, bitForm_sound d, fun pos p imm idx => ?_,
        fun t ptr pv p imm valueOffset mult idx hpv hpcls himm hidx => ?_⟩
      · have hloads : LoadsBit iu ret none := ⟨rfl, retty, hretty, hbit⟩
        simp only [bitForm, ite_eq_left_iff, reduceCtorEq, imp_false, not_not, hloads, true_and]
      · obtain ⟨roff, hroff, hsome, -⟩ := hidx.get
        unfold emitLoad emitLoad1 AccessForm.emit
        simp only [hpv, hroff, hretV, hretty, hpcls, hbit, hd, ok_bind, if_neg (hnone imm himm),
          bitForm, hsome]
        split
        · rfl
        · exact emitOp2_eq t _ d p
    · have hloads : ¬ LoadsBit iu ret none := by
        rintro ⟨-, it, hit, hcode⟩
        rw [Except.ok.inj (hretty.symm.trans hit)] at hbit
        exact hbit hcode
      cases hops : loadOps (legalizeType retty) with
      | none =>
        simp only [hops] at h
        cases h
      | some ops =>
        simp only [hops, ne_eq, not_true_eq_false, Option.isSome_none, Bool.false_eq_true, or_self,
          if_false] at h
        obtain ⟨d, hd, -⟩ := bind_ok.mp h
        obtain ⟨n, hn⟩ := loadOps_sound hops d
        refine ⟨_, n, 2, hn, fun pos p imm idx => ⟨fun hcode => ?_, fun hb => absurd hb.1 hloads⟩,
          fun t ptr pv p imm valueOffset mult idx hpv hpcls himm hidx => ?_⟩
        · simp only [loadForm] at hcode
          split at hcode <;> cases hcode
        · obtain ⟨roff, hroff, hsome, hemit⟩ := hidx.get
          unfold emitLoad emitLoad1 AccessForm.emit
          simp only [hpv, hroff, hretV, hretty, hpcls, hops, hd, ok_bind, if_neg (hnone imm himm),
            loadForm, hsome]
          split
          · have hcode := hemit ops.off ops.roff d p t imm
            rw [hsome] at hcode
            exact hcode
          · exact emitOp2_eq t _ d p
  | some op =>
    obtain ⟨pointee, hpointee, h⟩ := bind_ok.mp h
    obtain ⟨p, hp, h⟩ := bind_ok.mp h
    cases hops : castOps (legalizeType retty) (legalizeType pointee) op with
    | none =>
      rw [hops] at h
      cases h
    | some ops =>
      obtain ⟨off, roffOp⟩ := ops
      rw [hops] at h
      obtain ⟨d, hd, -⟩ := bind_ok.mp h
      obtain ⟨n, hn⟩ := castOps_sound hops d
      refine ⟨_, n, 3, hn, fun pos p imm idx => ⟨(fun hcode => nomatch hcode), fun hbit => ?_⟩,
        fun t ptr pv p imm valueOffset mult idx hpv hpcls himm hidx => ?_⟩
      · cases hbit.1.1
      · obtain ⟨roff, hroff, -, hemit⟩ := hidx.get
        have hsrc : valueReg pv = .ok p := by rw [valueReg, hpcls]
        unfold emitLoad
        simp only [hpv, hroff, hretV, hretty, hpointee, hsrc, hops, hd, ok_bind]
        exact hemit off roffOp d p t imm

end

/-! ### Stores -/

/-- A store of a register has no operation with an index register. -/
def registerForm (ops : StoreOps) (v : BitVec 32) : AccessForm where
  padded := false
  code := fun _ p imm idx =>
    if idx.isSome then none
    else if imm ≠ 0 then
      some (ops.off, [p.setWidth 16, v.setWidth 16, BitVec.ofInt 16 imm])
    else some (ops.plain, [p.setWidth 16, v.setWidth 16])

/-- A store of a constant: its units, which may depend on their position, are behind the offset. -/
def knownForm (ops : StoreOps) (padded : Bool) (us : ℕ → List (BitVec 16)) : AccessForm where
  padded := padded
  code := fun pos p imm idx =>
    if idx.isSome then none
    else some (ops.constOff, [p.setWidth 16, BitVec.ofInt 16 imm] ++ us (pos + 3))

/-- The operations store `n` bytes; a constant has `m` units. -/
structure SoundStore (ops : StoreOps) (n m : ℕ) : Prop where
  skipPlain : skip ops.plain = 2
  skipOff : skip ops.off = 3
  skipConst : skip ops.constOff = 2 + m
  plain : ∀ I f, accessOf ops.plain I f = some (hostaddr (read32 f (reg I 0)), n)
  off : ∀ I f, accessOf ops.off I f = some (hostaddr (read32 f (reg I 0) + simm16 I 2), n)
  const : ∀ I f, accessOf ops.constOff I f = some (hostaddr (read32 f (reg I 0) + simm16 I 1), n)

/-- The operations store the bytes of register 1, and the number that `number` finds in the units
of a constant. -/
structure StoresNumbers (ops : StoreOps) (n : ℕ) (number : Units → ℕ) : Prop where
  plain : ∀ h I f vm, exec (body h ops.plain I) f vm = some (f, { vm with
    hostmem := writeLe vm.hostmem (hostaddr (read32 f (reg I 0))) n (readLe f (reg I 1) n) })
  off : ∀ h I f vm, exec (body h ops.off I) f vm = some (f, { vm with
    hostmem := writeLe vm.hostmem (hostaddr (read32 f (reg I 0) + simm16 I 2)) n
      (readLe f (reg I 1) n) })
  const : ∀ h I f vm, exec (body h ops.constOff I) f vm = some (f, { vm with
    hostmem := writeLe vm.hostmem (hostaddr (read32 f (reg I 0) + simm16 I 1)) n (number I) })

section
variable {ops : StoreOps} {n m : ℕ}

theorem registerForm_sound (h : SoundStore ops n m) (v : BitVec 32) :
    (registerForm ops v).Sound n 2 := by
  constructor
  · intro pos p imm idx op args hcode
    cases idx with
    | some x => cases hcode
    | none =>
      simp only [registerForm, Option.isSome_none, Bool.false_eq_true, if_false] at hcode
      split at hcode
      · cases hcode
        refine ⟨h.skipOff.symm, show 2 ≤ 3 by omega, fun f => (h.off _ f).trans ?_⟩
        rw [addressOf_off]
        rfl
      · next himm =>
        cases hcode
        obtain rfl : imm = 0 := not_not.mp himm
        refine ⟨h.skipPlain.symm, le_refl 2, fun f => (h.plain _ f).trans ?_⟩
        rw [addressOf_plain]
        rfl
  · intro pos p imm idx op args hcode
    cases idx with
    | some x => cases hcode
    | none =>
      simp only [registerForm, Option.isSome_none, Bool.false_eq_true, if_false] at hcode
      split at hcode
      · cases hcode
        exact ⟨show 3 ≤ 5 by omega, fun h => by cases h⟩
      · cases hcode
        exact ⟨show 2 ≤ 5 by omega, fun h => by cases h⟩

theorem registerForm_writes {number : Units → ℕ} (h : StoresNumbers ops n number) (v : BitVec 32) :
    (registerForm ops v).Writes n fun f => readLe f (frameOffset v) n := by
  intro pos p imm idx op args hcode host f vm
  cases idx with
  | some x => cases hcode
  | none =>
    simp only [registerForm, Option.isSome_none, Bool.false_eq_true, if_false] at hcode
    split at hcode
    · cases hcode
      rw [h.off, addressOf_off]
      rfl
    · next himm =>
      cases hcode
      obtain rfl : imm = 0 := not_not.mp himm
      rw [h.plain, addressOf_plain]
      rfl

theorem knownForm_writes {number : Units → ℕ} (h : StoresNumbers ops n number) (padded : Bool)
    {us : ℕ → List (BitVec 16)} {c : ℕ}
    (hus : ∀ pos a b, number (operands ([a, b] ++ us pos)) % 256 ^ n = c % 256 ^ n) :
    (knownForm ops padded us).Writes n fun _ => c := by
  intro pos p imm idx op args hcode host f vm
  cases idx with
  | some x => cases hcode
  | none =>
    cases hcode
    rw [h.const, addressOf_off, ← writeLe_mod _ _ (le_refl n), hus, writeLe_mod _ _ (le_refl n)]
    rfl

theorem knownForm_sound (h : SoundStore ops n m) (padded : Bool) {us : ℕ → List (BitVec 16)}
    (hus : ∀ pos, (us pos).length = m) : (knownForm ops padded us).Sound n (2 + m) := by
  have hlen (pos : ℕ) (p : BitVec 32) (imm : ℤ) :
      ([p.setWidth 16, BitVec.ofInt 16 imm] ++ us pos).length = 2 + m := by
    rw [List.length_append, hus]
    rfl
  constructor
  · intro pos p imm idx op args hcode
    cases idx with
    | some x => cases hcode
    | none =>
      cases hcode
      refine ⟨(hlen _ p imm).trans h.skipConst.symm, (hlen _ p imm).ge, fun f =>
        (h.const _ f).trans ?_⟩
      rw [addressOf_off]
      rfl
  · intro pos p imm idx op args hcode
    cases idx with
    | some x => cases hcode
    | none =>
      cases hcode
      exact ⟨by rw [hlen]; omega, fun _ => hlen _ p imm⟩

end

/-- How many units a constant of the type has. -/
def storedUnits (code : TypeCode) : ℕ :=
  match code with
  | .int1 | .int8 | .int16 => 1
  | .int64 | .double => 4
  | _ => 2

def storedBytes (code : TypeCode) : ℕ :=
  match code with
  | .int1 | .int8 => 1
  | .int16 => 2
  | .int64 | .double => 8
  | _ => 4

/-- The constant that an operation finds behind its first two units. -/
def constNumber (code : TypeCode) (I : Units) : ℕ :=
  match code with
  | .int1 | .int8 => ((I 2).setWidth 8).toNat
  | .int16 => (I 2).toNat
  | .int64 | .double => (imm64 I 2).toNat
  | _ => (imm32 I 2).toNat

def knownNumber (iu : IrUnit) (code : TypeCode) (val : Value) : Except Fault ℕ :=
  match code with
  | .int64 | .double => BitVec.toNat <$> valueGetConst64 iu val
  | .function => BitVec.toNat <$> valueFunctionAddr val
  | _ => BitVec.toNat <$> valueGetConst32 iu val

/-- What is stored of a value: how many bytes, and their number in the frame. -/
def storedOf (iu : IrUnit) (value : ValueType) (f : Bytes) : Except Fault (ℕ × ℕ) := do
  let val ← valueGet iu value.value
  let code := legalizeType (← typeGet iu value.type)
  match val.cls with
  | .regframe v => return (storedBytes code, readLe f (frameOffset v) (storedBytes code))
  | _ => return (storedBytes code, ← knownNumber iu code val)

def paddedStore (code : TypeCode) : Bool := code == .int64 || code == .double

theorem storeOps_sound {code : TypeCode} {ops : StoreOps} (h : storeOps code = some ops) :
    SoundStore ops (storedBytes code) (storedUnits code) := by
  unfold storeOps at h
  split at h
  all_goals first
    | cases h
      exact ⟨rfl, rfl, rfl, fun _ _ => rfl, fun _ _ => rfl, fun _ _ => rfl⟩
    | cases h

theorem storesNumbers {code : TypeCode} {ops : StoreOps} (h : storeOps code = some ops) :
    StoresNumbers ops (storedBytes code) (constNumber code) := by
  have hword (vm : Vm) (f : Bytes) (a b : ℤ) {n : ℕ} (hn : n ≤ 4) :
      some (f, { vm with hostmem := writeLe vm.hostmem a n (read32 f b).toNat })
        = some (f, { vm with hostmem := writeLe vm.hostmem a n (readLe f b n) }) := by
    rw [writeLe_read32 _ _ _ _ hn]
  have hdouble (vm : Vm) (f : Bytes) (a b : ℤ) :
      some (f, { vm with hostmem := writeLe vm.hostmem a 8 (read64 f b).toNat })
        = some (f, { vm with hostmem := writeLe vm.hostmem a 8 (readLe f b 8) }) := by
    rw [writeLe_read64 _ _ _ _ (le_refl 8)]
  unfold storeOps at h
  split at h
  · cases h
    exact ⟨fun _ _ f vm => hword vm f _ _ (show 1 ≤ 4 by omega),
      fun _ _ f vm => hword vm f _ _ (show 1 ≤ 4 by omega), fun _ _ _ _ => rfl⟩
  · cases h
    exact ⟨fun _ _ f vm => hword vm f _ _ (show 1 ≤ 4 by omega),
      fun _ _ f vm => hword vm f _ _ (show 1 ≤ 4 by omega), fun _ _ _ _ => rfl⟩
  · cases h
    exact ⟨fun _ _ f vm => hword vm f _ _ (show 2 ≤ 4 by omega),
      fun _ _ f vm => hword vm f _ _ (show 2 ≤ 4 by omega), fun _ _ _ _ => rfl⟩
  · cases h
    exact ⟨fun _ _ f vm => hword vm f _ _ (le_refl 4), fun _ _ f vm => hword vm f _ _ (le_refl 4),
      fun _ _ _ _ => rfl⟩
  · cases h
    exact ⟨fun _ _ f vm => hword vm f _ _ (le_refl 4), fun _ _ f vm => hword vm f _ _ (le_refl 4),
      fun _ _ _ _ => rfl⟩
  · cases h
    exact ⟨fun _ _ f vm => hword vm f _ _ (le_refl 4), fun _ _ f vm => hword vm f _ _ (le_refl 4),
      fun _ _ _ _ => rfl⟩
  · cases h
    exact ⟨fun _ _ f vm => hword vm f _ _ (le_refl 4), fun _ _ f vm => hword vm f _ _ (le_refl 4),
      fun _ _ _ _ => rfl⟩
  · cases h
    exact ⟨fun _ _ f vm => hdouble vm f _ _, fun _ _ f vm => hdouble vm f _ _, fun _ _ _ _ => rfl⟩
  · cases h
    exact ⟨fun _ _ f vm => hdouble vm f _ _, fun _ _ f vm => hdouble vm f _ _, fun _ _ _ _ => rfl⟩
  · cases h

theorem emitStored_eq (iu : IrUnit) (code : TypeCode) (val : Value) :
    (∃ fault, ∀ t, emitStored iu t code val = .error fault)
      ∨ ∃ (us : ℕ → List (BitVec 16)) (c : ℕ), knownNumber iu code val = .ok c
        ∧ (∀ pos, (us pos).length = storedUnits code)
        ∧ (∀ pos a b, constNumber code (operands ([a, b] ++ us pos)) % 256 ^ storedBytes code
          = c % 256 ^ storedBytes code)
        ∧ ∀ t, emitStored iu t code val = emit t ((us t.length).map .half) := by
  have hconst {w : ℕ} (emitter : Text → BitVec w → Except Fault Text)
      (us : BitVec w → ℕ → List (BitVec 16)) (k n : ℕ) (number : Units → ℕ)
      (hlen : ∀ v pos, (us v pos).length = k)
      (hnumber : ∀ v pos a b, number (operands ([a, b] ++ us v pos)) % 256 ^ n = v.toNat % 256 ^ n)
      (hemit : ∀ v t, emitter t v = emit t ((us v t.length).map .half))
      (r : Except Fault (BitVec w)) :
      (∃ fault, ∀ t, (r >>= emitter t) = .error fault)
        ∨ ∃ (us : ℕ → List (BitVec 16)) (c : ℕ), BitVec.toNat <$> r = .ok c
          ∧ (∀ pos, (us pos).length = k)
          ∧ (∀ pos a b, number (operands ([a, b] ++ us pos)) % 256 ^ n = c % 256 ^ n)
          ∧ ∀ t, (r >>= emitter t) = emit t ((us t.length).map .half) := by
    cases r with
    | error fault => exact Or.inl ⟨fault, fun t => rfl⟩
    | ok v => exact Or.inr ⟨us v, v.toNat, rfl, hlen v, hnumber v, hemit v⟩
  have hwords (v : BitVec 32) (pos : ℕ) (a b : BitVec 16) :
      (imm32 (operands ([a, b] ++ units32 v)) 2).toNat % 256 ^ 4 = v.toNat % 256 ^ 4 :=
    congrArg (fun x => BitVec.toNat x % 256 ^ 4) (imm32_last [a, b] v)
  have hdouble (v : BitVec 64) (pos : ℕ) (a b : BitVec 16) :
      (imm64 (operands ([a, b] ++ units64 v)) 2).toNat % 256 ^ 8 = v.toNat % 256 ^ 8 :=
    congrArg (fun x => BitVec.toNat x % 256 ^ 8) (imm64_last [a, b] v)
  have hbyte (v : BitVec 32) (pos : ℕ) (a b : BitVec 16) :
      ((operands ([a, b] ++ [iu.textAlloc pos ++ v.setWidth 8]) 2).setWidth 8).toNat % 256 ^ 1
        = v.toNat % 256 ^ 1 := by
    change ((iu.textAlloc pos ++ v.setWidth 8).setWidth 8).toNat % 256 = v.toNat % 256
    rw [BitVec.setWidth_append_eq_right, BitVec.toNat_setWidth]
    exact Nat.mod_mod _ 256
  have hhalf (v : BitVec 32) (pos : ℕ) (a b : BitVec 16) :
      (operands ([a, b] ++ [v.setWidth 16]) 2).toNat % 256 ^ 2 = v.toNat % 256 ^ 2 := by
    change (v.setWidth 16).toNat % 65536 = v.toNat % 65536
    rw [BitVec.toNat_setWidth]
    exact Nat.mod_mod _ 65536
  cases code with
  | int1 | int8 =>
    exact hconst _ (fun v pos => [iu.textAlloc pos ++ v.setWidth 8]) 1 1 _ (fun _ _ => rfl) hbyte
      (fun _ _ => rfl) _
  | int16 =>
    exact hconst _ (fun v _ => [v.setWidth 16]) 1 2 _ (fun _ _ => rfl) hhalf (fun _ _ => rfl) _
  | int64 | double =>
    exact hconst _ (fun v _ => units64 v) 4 8 _ (fun _ _ => rfl) hdouble (fun _ _ => rfl) _
  | _ => exact hconst _ (fun v _ => units32 v) 2 4 _ (fun _ _ => rfl) hwords (fun _ _ => rfl) _

theorem alignStored_bind (t : Text) (code : TypeCode) (immAtOdd : Bool) (cs : ℕ → List Cell) :
    (alignStored t code immAtOdd >>= fun t => emit t (cs t.length))
      = emit t ((if paddedStore code then padding t immAtOdd else [])
        ++ cs (t.length + (if paddedStore code then padding t immAtOdd else []).length) ) := by
  have hpadded : (vmAlign32 t immAtOdd >>= fun t => emit t (cs t.length))
      = emit t (padding t immAtOdd ++ cs (t.length + (padding t immAtOdd).length)) := by
    unfold vmAlign32 padding
    simp only
    split
    · rw [← emit_append]
      change (emit t (ProgramText.code .nop []) >>= _) = _
      rcases he : emit t (ProgramText.code .nop []) with fault | t'
      · rfl
      · rw [ok_bind, ok_bind, emit_ok he, List.length_append]
    · rfl
  cases code with
  | int64 | double => exact hpadded
  | _ => rfl

section
variable {iu : IrUnit}

theorem emitKnown_eq {code : TypeCode} {ops : StoreOps} {val : Value}
    {us : ℕ → List (BitVec 16)}
    (hus : ∀ t, emitStored iu t code val = emit t ((us t.length).map .half)) (t : Text)
    (p : BitVec 32) (imm : ℤ) :
    (do
      let t ← alignStored t code true
      let t ← emitOp1 t ops.constOff p
      let t ← emitI16 t (BitVec.ofInt 16 imm)
      emitStored iu t code val)
      = (knownForm ops (paddedStore code) us).emit cantStore t p imm none := by
  have hops (t : Text) : (do
      let t ← emitOp1 t ops.constOff p
      let t ← emitI16 t (BitVec.ofInt 16 imm)
      emitStored iu t code val)
      = emit t (ProgramText.code ops.constOff ([p.setWidth 16, BitVec.ofInt 16 imm]
        ++ us (t.length + 3))) := by
    have hhead : (emitOp1 t ops.constOff p >>= fun t => emitI16 t (BitVec.ofInt 16 imm))
        = emit t (ProgramText.code ops.constOff [p.setWidth 16, BitVec.ofInt 16 imm]) := by
      rw [emitOp1_eq]
      exact emit_units t _ [_] [_]
    rw [← bind_assoc, hhead, ← emit_units]
    rcases he : emit t (ProgramText.code ops.constOff [p.setWidth 16, BitVec.ofInt 16 imm])
      with fault | t'
    · rfl
    · rw [ok_bind, ok_bind, hus, emit_ok he, List.length_append]
      rfl
  have halign := alignStored_bind t code true fun pos => ProgramText.code ops.constOff
    ([p.setWidth 16, BitVec.ofInt 16 imm] ++ us (pos + 3))
  rw [← funext hops] at halign
  exact halign

theorem exists_storeForm {value ptr₀ : ValueType} {pv₀ : Value} {p₀ : BitVec 32} {t₀ t' : Text}
    (hp₀ : valueGet iu ptr₀.value = .ok pv₀) (hcls₀ : pv₀.cls = .regframe p₀)
    (h : emitStore iu t₀ ptr₀ value 0 = .ok t') :
    ∃ k n low v, AccessForm.Sound k n low ∧ AccessForm.Writes k n v
      ∧ (∀ f, storedOf iu value f = .ok (n, v f)) ∧ (∀ pos p imm, k.code pos p imm none ≠ none)
      ∧ ∀ t ptr pv p imm, valueGet iu ptr.value = .ok pv → pv.cls = .regframe p →
        FitsImmediate imm → emitStore iu t ptr value imm = k.emit cantStore t p imm none := by
  have h' := h
  unfold emitStore at h
  rw [hp₀, ok_bind] at h
  obtain ⟨val, hval, h⟩ := bind_ok.mp h
  rw [if_neg (by decide)] at h
  obtain ⟨it, hit, h⟩ := bind_ok.mp h
  have hrange (imm : ℤ) (himm : FitsImmediate imm) : ¬ (imm < -2 ^ 15 ∨ 2 ^ 15 ≤ imm) := by
    unfold FitsImmediate at himm
    omega
  cases hops : storeOps (legalizeType it) with
  | none =>
    simp only [hops] at h
    cases h
  | some ops =>
    have hn := storeOps_sound hops
    have hnumbers := storesNumbers hops
    simp only [hops, hcls₀] at h
    have hknown (cls : ValueClass)
        (hstored : ∀ f, storedOf iu value f = do
          return (storedBytes (legalizeType it), ← knownNumber iu (legalizeType it) val))
        (hemit : ∀ t ptr pv p imm, valueGet iu ptr.value = .ok pv → pv.cls = .regframe p →
          FitsImmediate imm → emitStore iu t ptr value imm
            = if storesConst (legalizeType it) cls then (do
                let t ← alignStored t (legalizeType it) true
                let t ← emitOp1 t ops.constOff p
                let t ← emitI16 t (BitVec.ofInt 16 imm)
                emitStored iu t (legalizeType it) val)
              else throw cantStore)
        (h : emitStore iu t₀ ptr₀ value 0 = .ok t') :
        ∃ k n low v, AccessForm.Sound k n low ∧ AccessForm.Writes k n v
          ∧ (∀ f, storedOf iu value f = .ok (n, v f)) ∧ (∀ pos p imm, k.code pos p imm none ≠ none)
          ∧ ∀ t ptr pv p imm, valueGet iu ptr.value = .ok pv → pv.cls = .regframe p →
            FitsImmediate imm → emitStore iu t ptr value imm = k.emit cantStore t p imm none := by
      rw [hemit t₀ ptr₀ pv₀ p₀ 0 hp₀ hcls₀ (by decide)] at h
      split at h
      · next hstores =>
        rcases emitStored_eq iu (legalizeType it) val with
          ⟨fault, hfault⟩ | ⟨us, c, hc, hlen, hnumber, hus⟩
        · obtain ⟨t₁, -, h⟩ := bind_ok.mp h
          obtain ⟨t₂, -, h⟩ := bind_ok.mp h
          obtain ⟨t₃, -, h⟩ := bind_ok.mp h
          cases (hfault t₃).symm.trans h
        · refine ⟨_, _, _, fun _ => c, knownForm_sound hn (paddedStore (legalizeType it)) hlen,
            knownForm_writes hnumbers _ hnumber, fun f => ?_, (fun pos p imm hcode => nomatch hcode),
            fun t ptr pv p imm hpv hpcls himm => ?_⟩
          · rw [hstored, hc]
            rfl
          · rw [hemit t ptr pv p imm hpv hpcls himm, if_pos hstores, emitKnown_eq hus]
      · cases h
    cases hcls : val.cls with
    | regframe v =>
      simp only [hcls] at h
      have hcode : ¬ (legalizeType it = .int1 ∨ legalizeType it = .function) := by
        intro hcode
        rw [if_pos hcode] at h
        cases h
      refine ⟨_, _, 2, _, registerForm_sound hn v, registerForm_writes hnumbers v, fun f => ?_,
        fun pos p imm hnone => ?_, fun t ptr pv p imm hpv hpcls himm => ?_⟩
      · simp only [storedOf, hval, hit, ok_bind, hcls]
        rfl
      · simp only [registerForm, Option.isSome_none, Bool.false_eq_true, if_false] at hnone
        split at hnone <;> cases hnone
      · unfold emitStore AccessForm.emit
        simp only [hpv, hval, hit, hops, hcls, hpcls, ok_bind, if_neg (hrange imm himm),
          if_neg hcode, registerForm, Option.isSome_none, Bool.false_eq_true, if_false, ne_eq]
        split
        · rw [emitOp2_eq]
          exact emit_units t _ [_, _] [_]
        · exact emitOp2_eq t _ p v
    | _ =>
      refine hknown val.cls (fun f => ?_) (fun t ptr pv p imm hpv hpcls himm => ?_) h'
      · simp only [storedOf, hval, hit, ok_bind, hcls]
      · unfold emitStore
        simp only [hpv, hval, hit, hops, hcls, hpcls, ok_bind, if_neg (hrange imm himm)]

end
end Vmir.LeaMerge
