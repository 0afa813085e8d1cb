import Vmir.CastExact
import Vmir.EmitLoad
import Vmir.GepRuns

set_option autoImplicit false

/-!
# Loads that extend

`combine_binop_cast` makes one instruction of a load and the `zext` or `sext` that is the only use of
its result. The fused load remembers the index of the loaded type in eight bits.
-/
namespace Vmir.LoadCast
open ByteStore RegisterProgram Ir VmOps IrTypes ProgramText IntegerRegisters
open EmitCast EmitLoad GepAddress GepRuns

/-- `combine_binop_cast` of a cast, when the instruction upstream is a load. -/
def combineBinopCast (iu : IrUnit) (ii u : Instr) : Except Fault (Option Instr) :=
  match ii.rets, ii.cls, u.rets, u.cls with
  | [ret], .cast op _, [killed],
      .load ptr immediateOffset valueOffset valueOffsetMultiply _ _ =>
    if op ≠ .zext ∧ op ≠ .sext then .ok none
    else do
      let v ← valueGet iu ret.value
      let ty ← typeGet iu v.type
      if ty.code ≠ .int32 then .ok none
      else do
        let p ← valueGet iu ptr.value
        match p.cls with
        | .temporary | .regframe _ => do
          let kill ← valueGet iu killed.value
          .ok (some ⟨[ret], .load ptr immediateOffset valueOffset valueOffsetMultiply (some op)
            (BitVec.ofNat 8 kill.type)⟩)
        | _ => .ok none
  | _, _, _, _ => .ok none

def emitInstr (iu : IrUnit) (t : Text) (i : Instr) : Except Fault Text :=
  match i.rets, i.cls with
  | [ret], .load ptr immediateOffset valueOffset valueOffsetMultiply cast loadType =>
    emitLoad iu t ret ptr immediateOffset valueOffset valueOffsetMultiply cast loadType
  | [ret], .cast op value => emitCast iu t ret op value
  | _, _ => .error (.parserError "Unable to emit instruction %d")

/-! ## A load and the cast of its result -/

structure Site where
  op : CastOp
  ret : ValueType
  killed : ValueType
  ptr : ValueType
  immediateOffset : ℤ
  valueOffset : Option ValueType
  valueOffsetMultiply : ℤ

def Site.load (s : Site) : Instr :=
  ⟨[s.killed], .load s.ptr s.immediateOffset s.valueOffset s.valueOffsetMultiply none 0⟩

def Site.cast (s : Site) : Instr := ⟨[s.ret], .cast s.op s.killed⟩

/-- A load of an integer of fewer than 32 bits, not of an `i1`, and its extension to 32 bits, as the
loader and `merge_lea_into_load` make them. -/
structure Site.Valid (iu : IrUnit) (s : Site) (w : IntWidth) : Prop where
  extending : s.op = .zext ∨ s.op = .sext
  narrow : 1 < w.bits ∧ w.bits < 32
  loaded : typeGet iu s.killed.type = .ok w.type
  killed : valueGet iu s.killed.value = .ok ⟨.temporary, s.killed.type⟩
  wide : typeGet iu s.ret.type = .ok .int32
  ret : valueGet iu s.ret.value = .ok ⟨.temporary, s.ret.type⟩
  pointer : ∃ p, valueGet iu s.ptr.value = .ok p
  index : ∀ o ∈ s.valueOffset, IsRegister iu o.value
  offset : -2 ^ 15 ≤ s.immediateOffset ∧ s.immediateOffset < 2 ^ 15

/-- If the two instructions are fused, the fused one can be emitted and leaves the same word in the
result's register as the two would, whatever registers the values get. Nothing is asked when the
buffer is too small for the two. -/
def Fuses (h : Host) (iu : IrUnit) (s : Site) : Prop :=
  ∀ fused, combineBinopCast iu s.cast s.load = .ok (some fused) →
    ∀ (reg : ℕ → BitVec 32) (t : Text) (st : Bytes × Vm),
      let iuR := withRegisters iu reg
      let apart := emitInstr iuR t s.load >>= fun t => emitInstr iuR t s.cast
      apart = .error functionTooBig ∨ ∃ t₁ st₁ t₂ st₂,
        emitInstr iuR t fused = .ok t₁ ∧ Runs h t t₁ st st₁ ∧ apart = .ok t₂ ∧ Runs h t t₂ st st₂
          ∧ read32 st₁.1 (frameOffset (registerOf iu reg s.ret.value))
            = read32 st₂.1 (frameOffset (registerOf iu reg s.ret.value))

/-- The type that the emitter takes for the loaded one. -/
def remembered (s : Site) : ℕ := s.killed.type % 256

/-! ## What is emitted -/

def indexPart (iu : IrUnit) (reg : ℕ → BitVec 32) (f : Bytes) (s : Site) : BitVec 32 :=
  match s.valueOffset with
  | none => 0
  | some o => read32 f (frameOffset (registerOf iu reg o.value))
      * (BitVec.ofInt 16 s.valueOffsetMultiply).signExtend 32

def address (iu : IrUnit) (reg : ℕ → BitVec 32) (f : Bytes) (s : Site) : ℤ :=
  hostaddr (read32 f (frameOffset (registerOf iu reg s.ptr.value))
    + (BitVec.ofInt 16 s.immediateOffset).signExtend 32 + indexPart iu reg f s)

def extend {n : ℕ} (op : CastOp) (v : BitVec n) : BitVec 32 :=
  if op = .sext then v.signExtend 32 else v.setWidth 32

/-- What the operations make of the memory at an address. -/
def loadedWord (op : CastOp) (code : TypeCode) (m : Bytes) (a : ℤ) : BitVec 32 :=
  if code = .int8 then extend op (m a) else extend op (BitVec.ofNat 16 (readLe m a 2))

/-- One operation that sets a register and nothing else. -/
def SetsWord (h : Host) (iu : IrUnit) (i : Instr) (d : BitVec 32) (f : Bytes) (vm : Vm)
    (x : BitVec 32) : Prop :=
  ∃ op args, (∀ t, emitInstr iu t i = emit t (code op args)) ∧ args.length = skip op
    ∧ 2 ≤ skip op ∧ skip op ≤ 5
    ∧ exec (body h op (operands args)) f vm = some (write32 f (frameOffset d) x, vm)

section
variable {h : Host} {iu : IrUnit} {s : Site} {w : IntWidth} {reg : ℕ → BitVec 32} {f : Bytes}
  {vm : Vm}

theorem emitOffset_eq (op : Op) (d p : BitVec 32) (t : Text) (imm mult : ℤ) :
    (emitOp2 t op d p >>= fun t => emitOffset t imm none mult)
      = emit t (code op [d.setWidth 16, p.setWidth 16, BitVec.ofInt 16 imm]) := by
  rw [emitOp2_eq]
  exact (congrArg _ (funext fun t => bind_pure _)).trans (emit_units t op [_, _] [_])

theorem emitOffset_index_eq (op : Op) (d p r : BitVec 32) {o : Value} (ho : o.cls = .regframe r)
    (t : Text) (imm mult : ℤ) :
    (emitOp2 t op d p >>= fun t => emitOffset t imm (some o) mult)
      = emit t (code op [d.setWidth 16, p.setWidth 16, BitVec.ofInt 16 imm, r.setWidth 16,
        BitVec.ofInt 16 mult]) := by
  have htail : (fun t => emitOffset t imm (some o) mult)
      = fun t => emit t ([BitVec.ofInt 16 imm, r.setWidth 16, BitVec.ofInt 16 mult].map .half) := by
    funext t
    unfold emitOffset valueReg emitI16
    simp only [ho, ok_bind, emit_append]
    rfl
  rw [htail, emitOp2_eq]
  exact emit_units t op [_, _] [_, _, _]

/-- An access of the load, with its offset operands: `k` is what the operation does at the address,
and `x` the word that it sets. -/
theorem access_emits (h : Host) (reg : ℕ → BitVec 32) (f : Bytes) (vm : Vm)
    (hindex : ∀ o ∈ s.valueOffset, IsRegister iu o.value) (d : BitVec 32) :
    ∃ roff, s.valueOffset.mapM (fun o => valueGet (withRegisters iu reg) o.value) = .ok roff
      ∧ roff.isSome = s.valueOffset.isSome
      ∧ ∀ (off roffOp : Op) (k : Units → ℤ → Prog Vm) (x : Bytes → ℤ → BitVec 32),
        skip off = 3 → skip roffOp = 5 → (∀ I, body h off I = withOff I (k I)) →
        (∀ I, body h roffOp I = withRoff I (k I)) →
        (∀ I a f vm, exec (k I a) f vm = some (write32 f (VmOps.reg I 0) (x vm.hostmem a), vm)) →
        ∃ op args, (∀ t, (emitOp2 t (if roff.isSome then roffOp else off) d
              (registerOf iu reg s.ptr.value) >>= fun t =>
                emitOffset t s.immediateOffset roff s.valueOffsetMultiply) = emit t (code op args))
          ∧ args.length = skip op ∧ 2 ≤ skip op ∧ skip op ≤ 5
          ∧ exec (body h op (operands args)) f vm
            = some (write32 f (frameOffset d) (x vm.hostmem (address iu reg f s)), vm) := by
  cases hoff : s.valueOffset with
  | none =>
    refine ⟨none, rfl, rfl, fun off roffOp k x hskip _ hbody _ hk => ?_⟩
    refine ⟨off, _, fun t => emitOffset_eq off d _ t _ _, hskip.symm, by omega, by omega, ?_⟩
    have haddr : address iu reg f s = hostaddr
        (read32 f (frameOffset (registerOf iu reg s.ptr.value))
          + (BitVec.ofInt 16 s.immediateOffset).signExtend 32) := by
      unfold address indexPart
      rw [hoff]
      simp only
      rw [show (0 : BitVec 32) = 0#32 from rfl, BitVec.add_zero]
    rw [hbody, haddr]
    exact hk _ _ f vm
  | some o =>
    obtain ⟨ov, hov, hcls⟩ := valueReg_withRegisters reg (hindex o hoff)
    refine ⟨some ov, ?_, rfl, fun off roffOp k x _ hskip _ hbody hk => ?_⟩
    · change (valueGet (withRegisters iu reg) o.value >>= fun v => Except.ok (some v)) = _
      rw [hov]
      rfl
    · refine ⟨roffOp, _, fun t => emitOffset_index_eq roffOp d _ _ hcls t _ _, hskip.symm, by omega,
        by omega, ?_⟩
      have haddr : address iu reg f s = hostaddr
          (read32 f (frameOffset (registerOf iu reg s.ptr.value))
            + (BitVec.ofInt 16 s.immediateOffset).signExtend 32
            + read32 f (frameOffset (registerOf iu reg o.value))
              * (BitVec.ofInt 16 s.valueOffsetMultiply).signExtend 32) := by
        unfold address indexPart
        rw [hoff]
      rw [hbody, haddr]
      exact hk _ _ f vm

def extension (op : CastOp) : Extension := if op = .sext then .sext else .zext

theorem exec_load8At (I : Units) (e : Extension) (op : CastOp) (he : e = .sext ↔ op = .sext) (a : ℤ)
    (f : Bytes) (vm : Vm) : exec (load8At I e a) f vm
      = some (write32 f (VmOps.reg I 0) (loadedWord op .int8 vm.hostmem a), vm) := by
  unfold loadedWord extend
  simp only [if_true, ← he]
  rfl

theorem exec_load16At (I : Units) (e : Extension) (op : CastOp) (he : e = .sext ↔ op = .sext) (a : ℤ)
    (f : Bytes) (vm : Vm) : exec (load16At I e a) f vm
      = some (write32 f (VmOps.reg I 0) (loadedWord op .int16 vm.hostmem a), vm) := by
  unfold loadedWord extend
  simp only [reduceCtorEq, if_false, ← he]
  rfl

theorem Site.Valid.retReg (hv : s.Valid iu w) (reg : ℕ → BitVec 32) :
     ∃ v, valueGet (withRegisters iu reg) s.ret.value = .ok v
    ∧ v.cls = .regframe (registerOf iu reg s.ret.value) :=
  valueReg_withRegisters reg ⟨_, hv.ret, Or.inl rfl⟩

theorem Site.Valid.killedReg (hv : s.Valid iu w) (reg : ℕ → BitVec 32) :
    ∃ v, valueGet (withRegisters iu reg) s.killed.value = .ok v
      ∧ v.cls = .regframe (registerOf iu reg s.killed.value) :=
  valueReg_withRegisters reg ⟨_, hv.killed, Or.inl rfl⟩

/-- The fused load as the emitter sees it, which takes the type `ty` for the loaded one. -/
theorem emit_fused (hv : s.Valid iu w) (hptr : IsRegister iu s.ptr.value) {loadType : BitVec 8}
    {ty : IrType} (hty : typeGet iu loadType.toNat = .ok ty) {roff : Option Value}
    (hroff : s.valueOffset.mapM (fun o => valueGet (withRegisters iu reg) o.value) = .ok roff)
    (t : Text) :
    (∀ off roffOp, castOps .int32 (legalizeType ty) s.op = some (off, roffOp) →
      emitInstr (withRegisters iu reg) t ⟨[s.ret], .load s.ptr s.immediateOffset s.valueOffset
          s.valueOffsetMultiply (some s.op) loadType⟩
        = emitOp2 t (if roff.isSome then roffOp else off) (registerOf iu reg s.ret.value)
            (registerOf iu reg s.ptr.value) >>= fun t =>
          emitOffset t s.immediateOffset roff s.valueOffsetMultiply)
      ∧ (castOps .int32 (legalizeType ty) s.op = none →
        emitInstr (withRegisters iu reg) t ⟨[s.ret], .load s.ptr s.immediateOffset s.valueOffset
            s.valueOffsetMultiply (some s.op) loadType⟩
          = .error (.parserError "Can't load+cast to %s from %s cast:%d")) := by
  obtain ⟨pv, hpv, hpcls⟩ := valueReg_withRegisters reg hptr
  obtain ⟨rv, hrv, hrcls⟩ := hv.retReg reg
  have hwide : legalizeType .int32 = .int32 := rfl
  constructor
  · intro off roffOp hops
    change emitLoad (withRegisters iu reg) t s.ret s.ptr s.immediateOffset s.valueOffset
      s.valueOffsetMultiply (some s.op) loadType = _
    unfold emitLoad valueReg
    simp only [hpv, hroff, hrv, typeGet_withRegisters, hv.wide, hty, hpcls, hrcls, ok_bind, hwide,
      hops]
  · intro hops
    change emitLoad (withRegisters iu reg) t s.ret s.ptr s.immediateOffset s.valueOffset
      s.valueOffsetMultiply (some s.op) loadType = _
    unfold emitLoad valueReg
    simp only [hpv, hroff, hrv, typeGet_withRegisters, hv.wide, hty, hpcls, ok_bind, hwide, hops]

theorem fused_sets (h : Host) (reg : ℕ → BitVec 32) (f : Bytes) (vm : Vm)
    (hv : s.Valid iu w) (hptr : IsRegister iu s.ptr.value) {loadType : BitVec 8} {ty : IrType}
    (hty : typeGet iu loadType.toNat = .ok ty)
    (hcode : legalizeType ty = .int8 ∨ legalizeType ty = .int16) :
    SetsWord h (withRegisters iu reg) ⟨[s.ret], .load s.ptr s.immediateOffset s.valueOffset
        s.valueOffsetMultiply (some s.op) loadType⟩ (registerOf iu reg s.ret.value) f vm
      (loadedWord s.op (legalizeType ty) vm.hostmem (address iu reg f s)) := by
  obtain ⟨roff, hroff, -, haccess⟩ := access_emits h reg f vm
    hv.index (registerOf iu reg s.ret.value)
  have hemit := emit_fused hv hptr hty hroff
  have hext : extension s.op = .sext ↔ s.op = .sext := by
    unfold extension
    rcases hv.extending with hop | hop
    all_goals simp [hop]
  rcases hcode with hcode | hcode
  · have hops : castOps .int32 .int8 s.op
        = some (.load8Off (extension s.op), .load8Roff (extension s.op)) := by
      rcases hv.extending with hop | hop
      all_goals
        rw [hop]
        rfl
    rw [hcode] at hemit ⊢
    obtain ⟨op, args, heq, hlen, hexec⟩ := haccess (.load8Off (extension s.op)) (.load8Roff (extension s.op))
      (fun I => load8At I (extension s.op)) (loadedWord s.op .int8) rfl rfl (fun _ => rfl) (fun _ => rfl)
      fun I a f vm => exec_load8At I _ s.op hext a f vm
    refine ⟨op, args, fun t => ?_, hlen, hexec⟩
    rw [(hemit t).1 _ _ hops]
    exact heq t
  · have hops : castOps .int32 .int16 s.op
        = some (.load16Off (extension s.op), .load16Roff (extension s.op)) := by
      rcases hv.extending with hop | hop
      all_goals
        rw [hop]
        rfl
    rw [hcode] at hemit ⊢
    obtain ⟨op, args, heq, hlen, hexec⟩ := haccess (.load16Off (extension s.op)) (.load16Roff (extension s.op))
      (fun I => load16At I (extension s.op)) (loadedWord s.op .int16) rfl rfl (fun _ => rfl) (fun _ => rfl)
      fun I a f vm => exec_load16At I _ s.op hext a f vm
    refine ⟨op, args, fun t => ?_, hlen, hexec⟩
    rw [(hemit t).1 _ _ hops]
    exact heq t

theorem emit_load (hv : s.Valid iu w) (hptr : IsRegister iu s.ptr.value) {roff : Option Value}
    (hroff : s.valueOffset.mapM (fun o => valueGet (withRegisters iu reg) o.value) = .ok roff)
    (hcode : legalizeType w.type = .int8 ∨ legalizeType w.type = .int16
      ∨ legalizeType w.type = .int32) (ops : LoadOps)
    (hops : loadOps (legalizeType w.type) = some ops) (t : Text) :
    emitInstr (withRegisters iu reg) t s.load
      = if s.immediateOffset ≠ 0 ∨ roff.isSome then
          emitOp2 t (if roff.isSome then ops.roff else ops.off)
            (registerOf iu reg s.killed.value) (registerOf iu reg s.ptr.value) >>= fun t =>
          emitOffset t s.immediateOffset roff s.valueOffsetMultiply
        else emitOp2 t ops.plain (registerOf iu reg s.killed.value)
          (registerOf iu reg s.ptr.value) := by
  obtain ⟨pv, hpv, hpcls⟩ := valueReg_withRegisters reg hptr
  obtain ⟨kv, hkv, hkcls⟩ := hv.killedReg reg
  obtain ⟨hlow, hhigh⟩ := hv.offset
  have hrange : ¬ (s.immediateOffset < -2 ^ 15 ∨ 2 ^ 15 ≤ s.immediateOffset) := by omega
  change emitLoad (withRegisters iu reg) t s.killed s.ptr s.immediateOffset s.valueOffset
    s.valueOffsetMultiply none 0 = _
  unfold emitLoad emitLoad1 valueReg
  simp only [hpv, hroff, hkv, typeGet_withRegisters, hv.loaded, hpcls, hkcls, ok_bind, if_neg hrange]
  rcases hcode with hcode | hcode | hcode
  all_goals
    rw [hcode] at hops
    obtain rfl := Option.some.inj hops
    simp only [hcode, loadOps]

theorem load_sets (h : Host) (reg : ℕ → BitVec 32) (f : Bytes) (vm : Vm)
    (hv : s.Valid iu w) (hptr : IsRegister iu s.ptr.value)
    (hcode : legalizeType w.type = .int8 ∨ legalizeType w.type = .int16) :
    SetsWord h (withRegisters iu reg) s.load (registerOf iu reg s.killed.value) f vm
      (loadedWord .zext (legalizeType w.type) vm.hostmem (address iu reg f s)) := by
  obtain ⟨roff, hroff, hsome, haccess⟩ := access_emits h reg f vm
    hv.index (registerOf iu reg s.killed.value)
  have hemit := fun ops hops => emit_load hv hptr hroff (hcode.imp_right Or.inl)
    ops hops
  have hplain : ¬ (s.immediateOffset ≠ 0 ∨ roff.isSome) → address iu reg f s
      = hostaddr (read32 f (frameOffset (registerOf iu reg s.ptr.value))) := by
    intro hno
    obtain ⟨himm, hnone⟩ := not_or.mp hno
    rw [hsome] at hnone
    have hoff : s.valueOffset = none := by simpa using hnone
    unfold address indexPart
    rw [hoff, not_not.mp himm]
    change hostaddr (_ + 0#32 + 0#32) = _
    rw [BitVec.add_zero, BitVec.add_zero]
  have hnone : Extension.none = .sext ↔ CastOp.zext = .sext := by simp
  rcases hcode with hcode | hcode
  · rw [hcode] at hemit ⊢
    have hemit := hemit _ rfl
    by_cases hoffset : s.immediateOffset ≠ 0 ∨ roff.isSome
    · obtain ⟨op, args, heq, hlen, hexec⟩ := haccess (.load8Off .none) (.load8Roff .none)
        (fun I => load8At I .none) (loadedWord .zext .int8) rfl rfl
        (fun _ => rfl) (fun _ => rfl) fun I a f vm => exec_load8At I _ .zext hnone a f vm
      refine ⟨op, args, fun t => ?_, hlen, hexec⟩
      rw [hemit t, if_pos hoffset]
      exact heq t
    · refine ⟨.load8, [(registerOf iu reg s.killed.value).setWidth 16,
        (registerOf iu reg s.ptr.value).setWidth 16], fun t => ?_, rfl, by decide, by decide, ?_⟩
      · rw [hemit t, if_neg hoffset]
        exact emitOp2_eq t _ _ _
      · rw [hplain hoffset]
        exact exec_load8At _ _ .zext hnone _ f vm
  · rw [hcode] at hemit ⊢
    have hemit := hemit _ rfl
    by_cases hoffset : s.immediateOffset ≠ 0 ∨ roff.isSome
    · obtain ⟨op, args, heq, hlen, hexec⟩ := haccess (.load16Off .none) (.load16Roff .none)
        (fun I => load16At I .none) (loadedWord .zext .int16) rfl rfl
        (fun _ => rfl) (fun _ => rfl) fun I a f vm => exec_load16At I _ .zext hnone a f vm
      refine ⟨op, args, fun t => ?_, hlen, hexec⟩
      rw [hemit t, if_pos hoffset]
      exact heq t
    · refine ⟨.load16, [(registerOf iu reg s.killed.value).setWidth 16,
        (registerOf iu reg s.ptr.value).setWidth 16], fun t => ?_, rfl, by decide, by decide, ?_⟩
      · rw [hemit t, if_neg hoffset]
        exact emitOp2_eq t _ _ _
      · rw [hplain hoffset]
        exact exec_load16At _ _ .zext hnone _ f vm

theorem cast_sets (h : Host) (reg : ℕ → BitVec 32) (f : Bytes) (vm : Vm) (hv : s.Valid iu w)
    (hcode : legalizeType w.type = .int8 ∨ legalizeType w.type = .int16) :
    SetsWord h (withRegisters iu reg) s.cast (registerOf iu reg s.ret.value) f vm
      (if legalizeType w.type = .int8 then
        extend s.op ((read32 f (frameOffset (registerOf iu reg s.killed.value))).setWidth 8)
      else extend s.op ((read32 f (frameOffset (registerOf iu reg s.killed.value))).setWidth 16)) := by
  obtain ⟨rv, hrv, hrcls⟩ := hv.retReg reg
  obtain ⟨kv, hkv, hkcls⟩ := hv.killedReg reg
  have hwide : legalizeType .int32 = .int32 := rfl
  have hemit : ∀ {op : Op}, castOp .int32 s.op (legalizeType w.type) = .ok (some op) → ∀ t,
      emitInstr (withRegisters iu reg) t s.cast = emit t (code op
        [(registerOf iu reg s.ret.value).setWidth 16,
          (registerOf iu reg s.killed.value).setWidth 16]) := by
    intro op hop t
    change emitCast (withRegisters iu reg) t s.ret s.op s.killed = _
    unfold emitCast valueReg
    simp only [hrv, hkv, typeGet_withRegisters, hv.wide, hv.loaded, hwide, hop, hrcls, hkcls, ok_bind]
    exact emitOp2_eq t _ _ _
  unfold extend
  rcases hv.extending with hop | hop
  all_goals
    rcases hcode with hcode | hcode
    all_goals
      rw [hop, hcode] at hemit
      rw [hop, hcode]
      exact ⟨_, _, hemit rfl, rfl, by decide, by decide, rfl⟩

/-! ## When fusing is right -/

def Site.fused (s : Site) : Instr :=
  ⟨[s.ret], .load s.ptr s.immediateOffset s.valueOffset s.valueOffsetMultiply (some s.op)
    (BitVec.ofNat 8 s.killed.type)⟩

theorem combineBinopCast_eq (hv : s.Valid iu w) :
    (IsRegister iu s.ptr.value → combineBinopCast iu s.cast s.load = .ok (some s.fused))
      ∧ (¬ IsRegister iu s.ptr.value → combineBinopCast iu s.cast s.load = .ok none) := by
  obtain ⟨p, hp⟩ := hv.pointer
  have hop : ¬ (s.op ≠ .zext ∧ s.op ≠ .sext) := by
    rcases hv.extending with hop | hop
    all_goals simp [hop]
  have hwide : ¬ IrType.int32.code ≠ .int32 := by decide
  have hcombine : combineBinopCast iu s.cast s.load = match p.cls with
      | .temporary | .regframe _ => .ok (some s.fused)
      | _ => .ok none := by
    unfold combineBinopCast Site.cast Site.load
    simp only [if_neg hop, hv.ret, hv.wide, if_neg hwide, hp, hv.killed, ok_bind]
    rfl
  rw [hcombine]
  constructor
  · rintro ⟨iv, hiv, hcls⟩
    obtain rfl := Except.ok.inj (hp.symm.trans hiv)
    rcases hcls with hcls | ⟨r, hcls⟩
    all_goals rw [hcls]
  · intro hno
    have htemp : p.cls ≠ .temporary := fun hcls => hno ⟨p, hp, Or.inl hcls⟩
    have hreg : ∀ r, p.cls ≠ .regframe r := fun r hcls => hno ⟨p, hp, Or.inr ⟨r, hcls⟩⟩
    split
    · next hcls => exact absurd hcls htemp
    · next r hcls => exact absurd hcls (hreg r)
    · rfl

theorem setsWord_run {i j : Instr} {d e x y : BitVec 32} {t : Text}
    (hi : SetsWord h iu i d f vm x)
    (hj : SetsWord h iu j e (write32 f (frameOffset d) x) vm y) :
    ((emitInstr iu t i >>= fun t => emitInstr iu t j) = .error functionTooBig)
      ∨ ∃ t', (emitInstr iu t i >>= fun t => emitInstr iu t j) = .ok t'
        ∧ 2 * t'.length < textAllocMemsize ∧ t.length + 6 ≤ t'.length
        ∧ Runs h t t' (f, vm)
          (write32 (write32 f (frameOffset d) x) (frameOffset e) y, vm) := by
  obtain ⟨o, args, hemit, hlen, hlow, -, hexec⟩ := hi
  obtain ⟨o', args', hemit', hlen', hlow', -, hexec'⟩ := hj
  have hboth : (emitInstr iu t i >>= fun t => emitInstr iu t j)
      = emit t (code o args ++ code o' args') := by
    rw [hemit]
    simp only [hemit']
    exact emit_append t _ _
  rw [hboth]
  unfold emit
  have hcells : (code o args ++ code o' args').length = 2 + args.length + args'.length := by
    rw [List.length_append, code, code, List.length_cons, List.length_cons, List.length_map,
      List.length_map]
    omega
  split
  · exact Or.inl rfl
  · next hfits =>
    refine Or.inr ⟨_, rfl, ?_, ?_, ?_⟩
    · rw [List.length_append]
      omega
    · rw [List.length_append]
      omega
    · rw [← List.append_assoc]
      exact (runs_code h t hlen hexec).trans (runs_code h _ hlen' hexec')

theorem setsWord_alone {i : Instr} {d x : BitVec 32} {t : Text} (hi : SetsWord h iu i d f vm x)
    (hfits : 2 * (t.length + 6) < textAllocMemsize) :
    ∃ t', emitInstr iu t i = .ok t' ∧ Runs h t t' (f, vm) (write32 f (frameOffset d) x, vm) := by
  obtain ⟨o, args, hemit, hlen, -, hhigh, hexec⟩ := hi
  refine ⟨t ++ code o args, ?_, runs_code h t hlen hexec⟩
  rw [hemit, emit, code, List.length_cons, List.length_map, if_neg (by omega)]

theorem apart_sets (h : Host) (reg : ℕ → BitVec 32) (hv : s.Valid iu w)
    (hptr : IsRegister iu s.ptr.value) (hcode : legalizeType w.type = .int8 ∨ legalizeType w.type = .int16)
    (t : Text) (f : Bytes) (vm : Vm) :
    ((emitInstr (withRegisters iu reg) t s.load >>= fun t =>
        emitInstr (withRegisters iu reg) t s.cast) = .error functionTooBig)
      ∨ ∃ t' f', (emitInstr (withRegisters iu reg) t s.load >>= fun t =>
          emitInstr (withRegisters iu reg) t s.cast) = .ok t'
        ∧ 2 * t'.length < textAllocMemsize ∧ t.length + 6 ≤ t'.length ∧ Runs h t t' (f, vm) (f', vm)
        ∧ read32 f' (frameOffset (registerOf iu reg s.ret.value))
          = loadedWord s.op (legalizeType w.type) vm.hostmem (address iu reg f s) := by
  have hload := load_sets h reg f vm hv hptr hcode
  have hcast := cast_sets h reg (write32 f (frameOffset (registerOf iu reg s.killed.value))
      (loadedWord .zext (legalizeType w.type) vm.hostmem (address iu reg f s))) vm hv hcode
  rw [read32_write32_same] at hcast
  rcases setsWord_run (t := t) hload hcast with hfull | ⟨t', hemit, hfits, hlen, hrun⟩
  · exact Or.inl hfull
  · refine Or.inr ⟨t', _, hemit, hfits, hlen, hrun, ?_⟩
    rw [read32_write32_same]
    unfold loadedWord extend
    rcases hcode with hcode | hcode
    all_goals simp [hcode, BitVec.setWidth_setWidth_of_le]

/-- A guest memory in which a byte and a pair of bytes differ everywhere. -/
def ones : Vm := { zeroVm with hostmem := fun _ => 1 }

theorem loadedWord_ones {op : CastOp} (hop : op = .zext ∨ op = .sext) (code : TypeCode) (a : ℤ) :
    loadedWord op code ones.hostmem a = if code = .int8 then 1 else 0x101 := by
  have hpair : BitVec.ofNat 16 (readLe ones.hostmem a 2) = 0x101 := rfl
  unfold loadedWord extend
  rw [hpair]
  rcases hop with rfl | rfl
  all_goals
    split
    all_goals rfl

theorem wide_not_emitted (reg : ℕ → BitVec 32) (hv : s.Valid iu w)
    (hcode : legalizeType w.type = .int32) (t : Text) :
    ∃ msg, emitInstr (withRegisters iu reg) t s.cast = .error (.parserError msg)
      ∧ msg ≠ "Function too big" := by
  obtain ⟨rv, hrv, -⟩ := hv.retReg reg
  obtain ⟨kv, hkv, -⟩ := hv.killedReg reg
  have hwide : legalizeType .int32 = .int32 := rfl
  refine ⟨"Unable to convert to %s from %s using castop %d", ?_, by decide⟩
  change emitCast (withRegisters iu reg) t s.ret s.op s.killed = _
  unfold emitCast
  simp only [hrv, hkv, typeGet_withRegisters, hv.wide, hv.loaded, hwide, hcode, ok_bind]
  rcases hv.extending with hop | hop
  all_goals
    rw [hop]
    rfl

theorem wide_load_emitted (reg : ℕ → BitVec 32) (hv : s.Valid iu w) (hptr : IsRegister iu s.ptr.value)
    (hcode : legalizeType w.type = .int32) :
    ∃ t, emitInstr (withRegisters iu reg) [] s.load = .ok t := by
  obtain ⟨roff, hroff, -, haccess⟩ := access_emits zeroHost reg (fun _ => 0)
    zeroVm hv.index (registerOf iu reg s.killed.value)
  obtain ⟨op, args, heq, hlen, -, hle, -⟩ := haccess (.load32Off) (.load32Roff)
    (fun I => load32At I) (fun m a => read32 m a) rfl rfl (fun _ => rfl)
    (fun _ => rfl) fun I a f vm => rfl
  have hemit := emit_load hv hptr hroff (Or.inr (Or.inr hcode))
    ⟨.load32, .load32Off, .load32Roff, .load32G⟩ (by rw [hcode]; rfl) []
  rw [hemit]
  split
  · refine ⟨[] ++ code op args, (heq []).trans ?_⟩
    rw [emit, code, List.length_cons, List.length_map, if_neg]
    unfold textAllocMemsize
    rw [List.length_nil]
    omega
  · exact ⟨_, emitOp2_eq [] _ _ _⟩

theorem remembered_type (hv : s.Valid iu w) : ∃ ty, typeGet iu (remembered s) = .ok ty := by
  have hlt : s.killed.type < iu.types.length := by
    have hloaded := hv.loaded
    unfold typeGet at hloaded
    cases ht : iu.types[s.killed.type]? with
    | none =>
      rw [ht] at hloaded
      exact nomatch hloaded
    | some ty => exact (List.getElem?_eq_some_iff.mp ht).1
  have hle : s.killed.type % 256 ≤ s.killed.type := Nat.mod_le _ _
  unfold typeGet remembered
  rw [List.getElem?_eq_getElem (show s.killed.type % 256 < iu.types.length by omega)]
  exact ⟨_, rfl⟩

theorem castOps_none {code : TypeCode} {op : CastOp} (h8 : code ≠ .int8) (h16 : code ≠ .int16) :
    castOps .int32 code op = none := by
  cases code
  all_goals first | exact absurd rfl h8 | exact absurd rfl h16 | rfl

theorem index_eq (s : Site) : (BitVec.ofNat 8 s.killed.type).toNat = remembered s :=
  BitVec.toNat_ofNat _ _

theorem remembered_of_fuses (hv : s.Valid iu w) (hptr : IsRegister iu s.ptr.value)
    (hcode : legalizeType w.type = .int8 ∨ legalizeType w.type = .int16) (hfuses : Fuses h iu s) :
    ∃ ty, typeGet iu (remembered s) = .ok ty ∧ legalizeType ty = legalizeType w.type := by
  obtain ⟨ty, hty⟩ := remembered_type hv
  refine ⟨ty, hty, ?_⟩
  rw [← index_eq s] at hty
  let reg : ℕ → BitVec 32 := fun _ => 0
  have hrun := hfuses s.fused ((combineBinopCast_eq hv).1 hptr) reg [] (fun _ => 0, ones)
  have hapart := apart_sets h reg hv hptr hcode [] (fun _ => 0) ones
  by_contra hne
  rcases hapart with hfull | ⟨t, f, hemit, hfits, hlen, hruns, hword⟩
  · have hload := load_sets h reg (fun _ => 0) ones hv hptr hcode
    have hcast := cast_sets h reg (fun _ => 0) ones hv hcode
    obtain ⟨o, args, hemit, hlen, -, hle, -⟩ := hload
    obtain ⟨o', args', hemit', hlen', -, hle', -⟩ := hcast
    rw [hemit] at hfull
    simp only [hemit'] at hfull
    rw [emit_append, emit, if_neg] at hfull
    · cases hfull
    · unfold textAllocMemsize
      rw [code, code, List.length_append, List.length_cons, List.length_cons, List.length_map,
        List.length_map, List.length_nil]
      omega
  · rcases hrun with hfull | ⟨t₁, st₁, t₂, st₂, hemit₁, hruns₁, hemit₂, hruns₂, heq⟩
    · rw [hemit] at hfull
      cases hfull
    · obtain rfl := Except.ok.inj (hemit.symm.trans hemit₂)
      rw [Runs.unique hruns₂ hruns, hword, loadedWord_ones hv.extending] at heq
      by_cases hfused : legalizeType ty = .int8 ∨ legalizeType ty = .int16
      · have hsets := fused_sets h reg (fun _ => 0) ones hv hptr hty hfused
        obtain ⟨t', hemit', hruns'⟩ := setsWord_alone (t := []) hsets (by decide)
        obtain rfl := Except.ok.inj (hemit₁.symm.trans hemit')
        rw [Runs.unique hruns₁ hruns', read32_write32_same, loadedWord_ones hv.extending] at heq
        rcases hfused with hfused | hfused
        all_goals
          rcases hcode with hcode | hcode
          all_goals
            rw [hfused, hcode] at heq hne
            first | exact hne rfl | exact absurd heq (by decide)
      · obtain ⟨h8, h16⟩ := not_or.mp hfused
        obtain ⟨roff, hroff, -⟩ := access_emits h reg (fun _ => 0) ones
          hv.index (registerOf iu reg s.killed.value)
        have hnot := (emit_fused hv hptr hty hroff []).2 (castOps_none h8 h16)
        cases hemit₁.symm.trans hnot

/-- Fusing a load with the cast of its result is right exactly when it is not done, the pointer being
known, or when the loaded type and the type that the emitter takes for it are both kept in 8 or both
in 16 bits. -/
theorem fuses_iff (h : Host) (hv : s.Valid iu w) : Fuses h iu s ↔ (IsRegister iu s.ptr.value →
    w.bits ≤ 16 ∧ ∃ ty, typeGet iu (remembered s) = .ok ty
      ∧ legalizeType ty = legalizeType w.type) := by
  obtain ⟨hfuse, hkeep⟩ := combineBinopCast_eq hv
  have hnarrow := hv.narrow
  have hcases := legalizeType_cases w
  constructor
  · intro hfuses hptr
    obtain ⟨h1, -⟩ | ⟨-, hle, hcode⟩ | ⟨-, hle, hcode⟩ | ⟨hlt, -, hcode⟩ | ⟨h64, -⟩ := hcases
    · omega
    · exact ⟨by omega, remembered_of_fuses hv hptr (Or.inl hcode) hfuses⟩
    · exact ⟨hle, remembered_of_fuses hv hptr (Or.inr hcode) hfuses⟩
    · -- The two cannot be emitted, but the load is fused.
      obtain ⟨t, hload⟩ := wide_load_emitted (fun _ => 0) hv hptr hcode
      obtain ⟨msg, hcast, hmsg⟩ := wide_not_emitted (fun _ => 0) hv hcode t
      have hrun := hfuses s.fused (hfuse hptr) (fun _ => 0) [] (fun _ => 0, ones)
      have hapart : (emitInstr (withRegisters iu fun _ => 0) [] s.load >>= fun t =>
          emitInstr (withRegisters iu fun _ => 0) t s.cast) = .error (.parserError msg) := by
        rw [hload]
        exact hcast
      rcases hrun with hfull | ⟨t₁, st₁, t₂, st₂, -, -, hemit₂, -⟩
      · rw [hapart] at hfull
        exact absurd (Fault.parserError.inj (Except.error.inj hfull)) hmsg
      · exact absurd (hapart.symm.trans hemit₂) nofun
    · omega
  · intro hcond fused hcombine reg t st
    by_cases hptr : IsRegister iu s.ptr.value
    · obtain ⟨hle, ty, hty, hsame⟩ := hcond hptr
      rw [← index_eq s] at hty
      obtain rfl := Option.some.inj (Except.ok.inj ((hfuse hptr).symm.trans hcombine))
      have hcode : legalizeType w.type = .int8 ∨ legalizeType w.type = .int16 := by
        obtain ⟨h1, -⟩ | ⟨-, -, hcode⟩ | ⟨-, -, hcode⟩ | ⟨hlt, -⟩ | ⟨h64, -⟩ := hcases
        · omega
        · exact Or.inl hcode
        · exact Or.inr hcode
        · omega
        · omega
      rcases apart_sets h reg hv hptr hcode t st.1 st.2 with
        hfull | ⟨t₂, f₂, hemit₂, hfits, hlen, hruns₂, hword⟩
      · exact Or.inl hfull
      · have hsets := fused_sets h reg st.1 st.2 hv hptr hty
          (hsame ▸ hcode)
        obtain ⟨t₁, hemit₁, hruns₁⟩ := setsWord_alone (t := t) hsets (by omega)
        refine Or.inr ⟨t₁, _, t₂, _, hemit₁, hruns₁, hemit₂, hruns₂, ?_⟩
        rw [read32_write32_same, hword, hsame]
    · exact absurd (hcombine.symm.trans (hkeep hptr)) nofun

end

/-! ## A table of 259 types -/

/-- An `i8`, 255 arrays of it, an `i16`, an `i32` and a pointer to the `i16`; an argument of the
pointer type and two results. -/
def manyTypes : IrUnit where
  types := .int8 :: (List.range 255).map (fun n => .array (n + 1) 0)
    ++ [.int16, .int32, .pointer (some 256)]
  values := [⟨.regframe 4, 258⟩, ⟨.temporary, 256⟩, ⟨.temporary, 257⟩]
  textAlloc := fun _ => 0

/-- The `i16` is loaded and extended. -/
def manyTypesSite : Site := ⟨.zext, ⟨2, 257⟩, ⟨1, 256⟩, ⟨0, 258⟩, 0, none, 0⟩

def i16 : IntWidth := ⟨16, by decide, by decide⟩

theorem manyTypesSite_valid : manyTypesSite.Valid manyTypes i16 where
  extending := Or.inl rfl
  narrow := by decide
  loaded := rfl
  killed := rfl
  wide := rfl
  ret := rfl
  pointer := ⟨_, rfl⟩
  index := nofun
  offset := by decide

/-- The type with index 256 is taken for the one with index 0. -/
theorem many_types_misread : ¬ ∀ (iu : IrUnit) (s : Site) (w : IntWidth),
    s.Valid iu w → Fuses zeroHost iu s := by
  intro hall
  have hfuses := hall manyTypes manyTypesSite i16 manyTypesSite_valid
  have hptr : IsRegister manyTypes manyTypesSite.ptr.value := ⟨_, rfl, Or.inr ⟨4, rfl⟩⟩
  obtain ⟨ty, hty, hsame⟩ := remembered_of_fuses manyTypesSite_valid hptr (Or.inr rfl) hfuses
  obtain rfl : IrType.int8 = ty := Except.ok.inj hty
  exact absurd hsame (by decide)

theorem fuses_iff_manyTypes : ¬ Fuses zeroHost manyTypes manyTypesSite := by
  rw [fuses_iff zeroHost manyTypesSite_valid]
  intro hcond
  obtain ⟨-, ty, hty, hsame⟩ := hcond ⟨_, rfl, Or.inr ⟨4, rfl⟩⟩
  obtain rfl : IrType.int8 = ty := Except.ok.inj hty
  exact absurd hsame (by decide)

end Vmir.LoadCast
