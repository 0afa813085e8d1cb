import Vmir.CodePieces
import Vmir.IrTypes
import Vmir.VmControl
import Vmir.VmOperands

set_option autoImplicit false

/-!
# The program text

What the emitter writes and the interpreter reads: 16-bit units, of which the opcodes are kept
apart. The emitting functions fail when the buffer of the unit is full.
-/
namespace Vmir.ProgramText
open ByteStore RegisterProgram CodePieces Ir VmOps VmControl IrTypes

inductive Opcode
  | straight (op : Op)
  | control (c : Control)
  | call (c : CallOp)
  | leave (o : LeaveOp)
deriving DecidableEq, Repr

inductive Cell
  | op (o : Opcode)
  | half (v : BitVec 16)
deriving DecidableEq, Repr

abbrev Text := List Cell

/-! ## Emission -/

/-- `iu_text_alloc_memsize` -/
def textAllocMemsize : ℕ := 1024 * 1024

def functionTooBig : Fault := .parserError "Function too big"

/-- What `emit_i16`, `emit_i32` and `emit_i64` share. -/
def emit (t : Text) (cs : List Cell) : Except Fault Text :=
  if textAllocMemsize ≤ 2 * t.length + 2 * cs.length then .error functionTooBig
  else .ok (t ++ cs)

def emitI16 (t : Text) (v : BitVec 16) : Except Fault Text := emit t [.half v]
def emitI32 (t : Text) (v : BitVec 32) : Except Fault Text := emit t ((units32 v).map .half)
def emitI64 (t : Text) (v : BitVec 64) : Except Fault Text := emit t ((units64 v).map .half)

/-- `emit_i8` leaves the high byte of the unit as it was in the buffer. -/
def emitI8 (iu : IrUnit) (t : Text) (v : BitVec 8) : Except Fault Text :=
  emit t [.half (iu.textAlloc t.length ++ v)]

def emitOp (t : Text) (op : Op) : Except Fault Text := emit t [.op (.straight op)]

def emitOp1 (t : Text) (op : Op) (arg : BitVec 32) : Except Fault Text := do
  let t ← emitOp t op
  emitI16 t (arg.setWidth 16)

def emitOp2 (t : Text) (op : Op) (a1 a2 : BitVec 32) : Except Fault Text := do
  let t ← emitOp t op
  let t ← emitI16 t (a1.setWidth 16)
  emitI16 t (a2.setWidth 16)

def emitOp3 (t : Text) (op : Op) (a1 a2 a3 : BitVec 32) : Except Fault Text := do
  let t ← emitOp t op
  let t ← emitI16 t (a1.setWidth 16)
  let t ← emitI16 t (a2.setWidth 16)
  emitI16 t (a3.setWidth 16)

def emitOp4 (t : Text) (op : Op) (a1 a2 a3 a4 : BitVec 32) : Except Fault Text := do
  let t ← emitOp t op
  let t ← emitI16 t (a1.setWidth 16)
  let t ← emitI16 t (a2.setWidth 16)
  let t ← emitI16 t (a3.setWidth 16)
  emitI16 t (a4.setWidth 16)

def vmAlign32 (t : Text) (immAtOdd : Bool) : Except Fault Text :=
  let textIsOdd := t.length % 2 == 1
  if immAtOdd != textIsOdd then emitOp t .nop else .ok t

/-! ## Execution -/

/-- The interpreter in one call of `vm_exec`: the position in the text, the register frame, and
the rest. -/
structure Cpu where
  pc : ℕ
  frame : Bytes
  vm : Vm

/-- The units of the text from `pos` on. -/
def unitsAt (t : Text) (pos : ℕ) : Units := fun i =>
  match t[pos + i]? with
  | some (.half v) => v
  | _ => 0

def step (h : Host) (t : Text) (s : Cpu) : Option Cpu :=
  match t[s.pc]? with
  | some (.op (.straight op)) =>
    (exec (body h op (unitsAt t (s.pc + 1))) s.frame s.vm).map fun r =>
      ⟨s.pc + 1 + skip op, r.1, r.2⟩
  | some (.op (.control c)) =>
    (target (s.pc + 1) (branch c (unitsAt t (s.pc + 1)) s.frame)).map fun pc =>
      ⟨pc, s.frame, s.vm⟩
  | _ => none

/-! ## What is emitted -/

theorem bind_ok {α β : Type} {x : Except Fault α} {f : α → Except Fault β} {b : β} :
    x >>= f = .ok b ↔ ∃ a, x = .ok a ∧ f a = .ok b := by
  cases x with
  | error e => simp [bind, Except.bind]
  | ok a => simp [bind, Except.bind]

@[simp] theorem ok_bind {α β : Type} (a : α) (f : α → Except Fault β) :
    (Except.ok a >>= f) = f a := rfl

theorem emit_ok {t t' : Text} {cs : List Cell} (h : emit t cs = .ok t') : t' = t ++ cs := by
  unfold emit at h
  split at h
  · cases h
  · exact (Except.ok.inj h).symm

theorem emit_append (t : Text) (cs ds : List Cell) :
    (emit t cs >>= fun t => emit t ds) = emit t (cs ++ ds) := by
  unfold emit
  simp only [List.length_append]
  by_cases hcs : textAllocMemsize ≤ 2 * t.length + 2 * cs.length
  · rw [if_pos hcs, if_pos (by omega)]
    rfl
  · rw [if_neg hcs]
    change (if textAllocMemsize ≤ 2 * (t ++ cs).length + 2 * ds.length then _ else _) = _
    rw [List.length_append, List.append_assoc,
      show 2 * (t.length + cs.length) + 2 * ds.length
        = 2 * t.length + 2 * (cs.length + ds.length) by omega]

def code (op : Op) (args : List (BitVec 16)) : List Cell :=
  .op (.straight op) :: args.map Cell.half

theorem code_append (op : Op) (args us : List (BitVec 16)) :
    code op args ++ us.map Cell.half = code op (args ++ us) := by
  rw [code, code, List.map_append, List.cons_append]

theorem emitOp1_eq (t : Text) (op : Op) (a : BitVec 32) :
    emitOp1 t op a = emit t (code op [a.setWidth 16]) :=
  emit_append t _ _

theorem emitOp2_eq (t : Text) (op : Op) (a b : BitVec 32) :
    emitOp2 t op a b = emit t (code op [a.setWidth 16, b.setWidth 16]) := by
  unfold emitOp2 emitOp emitI16
  simp only [emit_append]
  rfl

theorem emitOp3_eq (t : Text) (op : Op) (a b c : BitVec 32) :
    emitOp3 t op a b c = emit t (code op [a.setWidth 16, b.setWidth 16, c.setWidth 16]) := by
  unfold emitOp3 emitOp emitI16
  simp only [emit_append]
  rfl

theorem emitOp4_eq (t : Text) (op : Op) (a b c d : BitVec 32) :
    emitOp4 t op a b c d
      = emit t (code op [a.setWidth 16, b.setWidth 16, c.setWidth 16, d.setWidth 16]) := by
  unfold emitOp4 emitOp emitI16
  simp only [emit_append]
  rfl

theorem emit_units (t : Text) (op : Op) (args us : List (BitVec 16)) :
    (emit t (code op args) >>= fun t => emit t (us.map .half)) = emit t (code op (args ++ us)) := by
  rw [emit_append, code_append]

theorem emit_unit8 (iu : IrUnit) (t : Text) (cs : List Cell) (v : BitVec 8) :
    (emit t cs >>= fun t => emitI8 iu t v)
      = emit t cs >>= fun t' =>
        emit t' ([iu.textAlloc (t.length + cs.length) ++ v].map .half) := by
  rcases he : emit t cs with e | t'
  · rfl
  · rw [emit_ok he, ok_bind, ok_bind, emitI8, List.length_append]
    rfl

/-- The `NOP` that `vm_align32` puts in. -/
def padding (t : Text) (immAtOdd : Bool) : List Cell :=
  if immAtOdd != (t.length % 2 == 1) then code .nop [] else []

theorem vmAlign32_bind (t : Text) (immAtOdd : Bool) (cs : List Cell) :
    (vmAlign32 t immAtOdd >>= fun t => emit t cs) = emit t (padding t immAtOdd ++ cs) := by
  unfold vmAlign32 padding
  simp only
  split
  · exact emit_append t _ _
  · rfl

/-! ## Running it -/

/-- Running the text from `t` to `t'`, whatever comes behind. -/
def Runs (h : Host) (t t' : Text) (s s' : Bytes × Vm) : Prop :=
  ∀ post, Reaches (step h (t' ++ post)) ⟨t.length, s.1, s.2⟩ ⟨t'.length, s'.1, s'.2⟩

theorem Runs.refl (h : Host) (t : Text) (s : Bytes × Vm) : Runs h t t s s :=
  fun _ => Reaches.refl _

theorem Runs.trans {h : Host} {t t₁ : Text} {cs : List Cell} {s s₁ s₂ : Bytes × Vm}
    (h₁ : Runs h t t₁ s s₁) (h₂ : Runs h t₁ (t₁ ++ cs) s₁ s₂) : Runs h t (t₁ ++ cs) s s₂ := by
  intro post
  have hfst := h₁ (cs ++ post)
  rw [← List.append_assoc] at hfst
  exact hfst.trans (h₂ post)

theorem step_end (h : Host) (t : Text) (f : Bytes) (vm : Vm) : step h t ⟨t.length, f, vm⟩ = none := by
  rw [step, List.getElem?_eq_none le_rfl]

theorem Runs.unique {h : Host} {t t' : Text} {s a b : Bytes × Vm} (ha : Runs h t t' s a)
    (hb : Runs h t t' s b) : a = b := by
  have heq := (ha []).unique (hb []) (by rw [List.append_nil]; exact step_end h t' _ _)
    (by rw [List.append_nil]; exact step_end h t' _ _)
  exact Prod.ext (congrArg Cpu.frame heq) (congrArg Cpu.vm heq)

theorem unitsAt_code {t : Text} {pos : ℕ} {op : Op} {args : List (BitVec 16)}
    (h : CodeAt t pos (code op args)) : ∀ i < args.length, unitsAt t (pos + 1) i = operands args i := by
  intro i hi
  have hcell := h.tail i (by rw [List.length_map]; exact hi)
  rw [List.getElem?_map, List.getElem?_eq_getElem hi] at hcell
  rw [unitsAt, hcell, operands, List.getD_eq_getElem?_getD, List.getElem?_eq_getElem hi]
  rfl

theorem step_code (h : Host) {t : Text} {pos : ℕ} {op : Op} {args : List (BitVec 16)}
    (hcode : CodeAt t pos (code op args)) (hlen : args.length = skip op) (s : Bytes × Vm) :
    step h t ⟨pos, s.1, s.2⟩ = (exec (body h op (operands args)) s.1 s.2).map fun r =>
      ⟨pos + (code op args).length, r.1, r.2⟩ := by
  have hbody : body h op (unitsAt t (pos + 1)) = body h op (operands args) :=
    body_congr h op fun i hi => unitsAt_code hcode i (hlen ▸ hi)
  rw [step]
  simp only
  rw [show t[pos]? = some (Cell.op (.straight op)) from hcode.head]
  simp only
  rw [hbody, show pos + (code op args).length = pos + 1 + skip op by
    rw [code, List.length_cons, List.length_map, hlen]; omega]

theorem exec_of_reaches (h : Host) (t : Text) {op : Op} {args : List (BitVec 16)}
    (hlen : args.length = skip op) {s s' : Bytes × Vm}
    (hreach : Reaches (step h (t ++ code op args)) ⟨t.length, s.1, s.2⟩
      ⟨(t ++ code op args).length, s'.1, s'.2⟩) :
    exec (body h op (operands args)) s.1 s.2 = some s' := by
  have hstep := step_code h (codeAt_end t (code op args)) hlen s
  rcases hexec : exec (body h op (operands args)) s.1 s.2 with _ | r
  · have hstuck := hreach.eq_of_stuck (by rw [hstep, hexec]; rfl)
    have hpc := congrArg Cpu.pc hstuck
    simp only [List.length_append, code, List.length_cons] at hpc
    omega
  · rw [hexec, Option.map_some, ← List.length_append] at hstep
    have heq := (Reaches.single hstep).unique hreach (step_end h _ _ _) (step_end h _ _ _)
    rw [Prod.ext (congrArg Cpu.frame heq) (congrArg Cpu.vm heq)]

theorem runs_code (h : Host) (t : Text) {op : Op} {args : List (BitVec 16)}
    (hlen : args.length = skip op) {s s' : Bytes × Vm}
    (hexec : exec (body h op (operands args)) s.1 s.2 = some s') :
    Runs h t (t ++ code op args) s s' := by
  intro post
  refine Reaches.single ?_
  rw [step_code h (codeAt_self t (code op args) post) hlen s, hexec, List.length_append]
  rfl

theorem runs_code_iff (h : Host) (t : Text) {op : Op} {args : List (BitVec 16)}
    (hlen : args.length = skip op) (s s' : Bytes × Vm) :
    Runs h t (t ++ code op args) s s' ↔ exec (body h op (operands args)) s.1 s.2 = some s' := by
  refine ⟨fun hrun => exec_of_reaches h t hlen ?_, runs_code h t hlen⟩
  have := hrun []
  rwa [List.append_nil] at this

theorem runs_padding (h : Host) (t : Text) (immAtOdd : Bool) (s : Bytes × Vm) :
    Runs h t (t ++ padding t immAtOdd) s s := by
  unfold padding
  split
  · exact runs_code h t rfl rfl
  · rw [List.append_nil]
    exact Runs.refl h t s

/-- An operation behind the padding of `vm_align32`. -/
theorem runs_padding_code_iff (h : Host) (t : Text) (immAtOdd : Bool) {op : Op}
    {args : List (BitVec 16)} (hlen : args.length = skip op) (s s' : Bytes × Vm) :
    Runs h t (t ++ (padding t immAtOdd ++ code op args)) s s'
      ↔ exec (body h op (operands args)) s.1 s.2 = some s' := by
  rw [← List.append_assoc]
  have hpad := runs_padding h t immAtOdd s
  refine ⟨fun hrun => exec_of_reaches h (t ++ padding t immAtOdd) hlen ?_,
    fun hexec => hpad.trans (runs_code h _ hlen hexec)⟩
  have hfst := hpad (code op args)
  have hall := hrun []
  rw [List.append_nil] at hall
  exact hfst.rest hall (step_end h _ _ _)

end Vmir.ProgramText
