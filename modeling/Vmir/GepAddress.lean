import Mathlib.Logic.Function.Basic
import Vmir.UnitGrowth

set_option autoImplicit false

/-!
# What an address computation adds up to

The address that the indices of a `getelementptr` prescribe, and the chain of LEA instructions as
operations on the words of values. Every instruction of the chain has a register for its result, so
the chain is compared with the address before the values have registers of the frame.
-/
namespace Vmir.GepAddress
open Ir IrTypes TypeLayout ConstExprs GepLowering UnitGrowth ProgramText

/-! ## The address -/

/-- The type of the things that lie behind a pointer or in an array. -/
def elementOf (it : IrType) : Option ℕ :=
  match it with
  | .pointer pointee => some (pointeeIndex pointee)
  | .array _ elementType => some elementType
  | _ => none

/-- How far the index `x` leads into a value of the type, and the type there. -/
def displacement (iu : IrUnit) (depth type : ℕ) (x : BitVec 32) : Except Fault (BitVec 32 × ℕ) := do
  let it ← typeGet iu type
  match it with
  | .struct s =>
    match s.elements[x.toNat]? with
    | some e => .ok (e.offset, e.type)
    | none => .error (.parserError "Bad index %d info struct")
  | it =>
    match elementOf it with
    | some e => do
      let size ← typeSizeof iu depth e
      .ok (x * size, e)
    | none => .error (.parserError "Unable to GEP for value type %d")

/-- The sum of the displacements, from the type `type` on. -/
def gepSum (iu : IrUnit) (depth : ℕ) (type : ℕ) (xs : List (BitVec 32)) :
    Except Fault (BitVec 32) :=
  match xs with
  | [] => .ok 0
  | x :: xs => do
    let (d, inner) ← displacement iu depth type x
    let rest ← gepSum iu depth inner xs
    .ok (d + rest)

/-! ## Instructions on words -/

def leaWord (ρ : ℕ → BitVec 32) (baseptr : ValueType) (immediateOffset : BitVec 32)
    (valueOffset : Option ValueType) (valueOffsetMultiply : BitVec 32) : BitVec 32 :=
  ρ baseptr.value + immediateOffset
    + (valueOffset.elim 0 fun o => ρ o.value * valueOffsetMultiply)

def runInstr (ρ : ℕ → BitVec 32) (i : Instr) : Option (ℕ → BitVec 32) :=
  match i.rets, i.cls with
  | [ret], .move value => some (Function.update ρ ret.value (ρ value.value))
  | [ret], .lea baseptr immediateOffset valueOffset valueOffsetMultiply =>
    some (Function.update ρ ret.value (leaWord ρ baseptr (BitVec.ofInt 32 immediateOffset)
      valueOffset (BitVec.ofInt 32 valueOffsetMultiply)))
  | _, _ => none

def runChain (ρ : ℕ → BitVec 32) (is : List Instr) : Option (ℕ → BitVec 32) :=
  is.foldlM runInstr ρ

theorem runChain_concat {ρ ρ' : ℕ → BitVec 32} {is : List Instr} (h : runChain ρ is = some ρ')
    (i : Instr) : runChain ρ (is ++ [i]) = runInstr ρ' i := by
  unfold runChain at h ⊢
  rw [List.foldlM_append, h, Option.bind_eq_bind, Option.bind_some, List.foldlM_cons]
  exact bind_pure _

/-! ## Operands -/

def IsRegister (iu : IrUnit) (index : ℕ) : Prop :=
  ∃ iv, valueGet iu index = .ok iv ∧ (iv.cls = .temporary ∨ ∃ r, iv.cls = .regframe r)

def IsNumber (iu : IrUnit) (index : ℕ) (x : BitVec 32) : Prop :=
  ∃ iv, valueGet iu index = .ok iv ∧ ((∃ u64, iv.cls = .constant u64) ∨ ∃ a, iv.cls = .globalvar a)
    ∧ valueGetConst32 iu iv = .ok x

def IsIndexRegister (iu : IrUnit) (vt : ValueType) : Prop :=
  IsRegister iu vt.value ∧ ∃ ty, typeGet iu vt.type = .ok ty ∧ legalizeType ty = .int32

def IsResult (iu : IrUnit) (index : ℕ) : Prop :=
  ∃ iv, valueGet iu index = .ok iv ∧ iv.cls = .temporary

structure IsBase (iu : IrUnit) (vt : ValueType) : Prop where
  operand : IsRegister iu vt.value ∨ ∃ x, IsNumber iu vt.value x
  pointer : ∃ iv p, valueGet iu vt.value = .ok iv ∧ typeGet iu iv.type = .ok (.pointer p)

/-- An instruction of the chain with its operands in place. -/
inductive Emittable (iu : IrUnit) : Instr → Prop
  | move {ret value : ValueType} {x : BitVec 32} {p : Option ℕ} (hret : IsResult iu ret.value)
      (hvalue : IsNumber iu value.value x) (htype : typeGet iu ret.type = .ok (.pointer p))
      (hsource : ∃ iv, valueGet iu value.value = .ok iv ∧ iv.type = ret.type) :
      Emittable iu ⟨[ret], .move value⟩
  | lea {ret baseptr : ValueType} {imm mult : ℤ} {offset : Option ValueType}
      (hret : IsResult iu ret.value) (hbase : IsRegister iu baseptr.value)
      (hoffset : ∀ o, offset = some o → IsIndexRegister iu o ∧ BitVec.ofInt 32 mult ≠ 0) :
      Emittable iu ⟨[ret], .lea baseptr imm offset mult⟩

theorem IsResult.isRegister {iu : IrUnit} {i : ℕ} (h : IsResult iu i) : IsRegister iu i := by
  obtain ⟨iv, hiv, hcls⟩ := h
  exact ⟨iv, hiv, Or.inl hcls⟩

theorem IsRegister.lt {iu : IrUnit} {i : ℕ} (h : IsRegister iu i) : i < iu.values.length := by
  obtain ⟨iv, hiv, -⟩ := h
  unfold valueGet at hiv
  cases ht : iu.values[i]? with
  | none =>
    rw [ht] at hiv
    exact nomatch hiv
  | some _ => exact (List.getElem?_eq_some_iff.mp ht).1

theorem IsNumber.lt {iu : IrUnit} {i : ℕ} {x : BitVec 32} (h : IsNumber iu i x) :
    i < iu.values.length := by
  obtain ⟨iv, hiv, -⟩ := h
  unfold valueGet at hiv
  cases ht : iu.values[i]? with
  | none =>
    rw [ht] at hiv
    exact nomatch hiv
  | some _ => exact (List.getElem?_eq_some_iff.mp ht).1

section
variable {iu iu' : IrUnit} (h : Extends iu iu')
include h

theorem IsRegister.mono {i : ℕ} (hi : IsRegister iu i) : IsRegister iu' i := by
  obtain ⟨iv, hiv, hcls⟩ := hi
  exact ⟨iv, h.valueGet hiv, hcls⟩

theorem IsNumber.mono {i : ℕ} {x : BitVec 32} (hi : IsNumber iu i x) : IsNumber iu' i x := by
  obtain ⟨iv, hiv, hcls, hx⟩ := hi
  exact ⟨iv, h.valueGet hiv, hcls, h.valueGetConst32 hx⟩

theorem IsIndexRegister.mono {vt : ValueType} (hi : IsIndexRegister iu vt) :
    IsIndexRegister iu' vt := by
  obtain ⟨hreg, ty, hty, hcode⟩ := hi
  exact ⟨hreg.mono h, ty, h.typeGet hty, hcode⟩

theorem IsResult.mono {i : ℕ} (hi : IsResult iu i) : IsResult iu' i := by
  obtain ⟨iv, hiv, hcls⟩ := hi
  exact ⟨iv, h.valueGet hiv, hcls⟩

theorem IsBase.mono {vt : ValueType} (hi : IsBase iu vt) : IsBase iu' vt := by
  obtain ⟨hop, iv, p, hiv, hp⟩ := hi
  refine ⟨hop.imp (fun hr => hr.mono h) fun ⟨x, hx⟩ => ⟨x, hx.mono h⟩, iv, p, h.valueGet hiv, ?_⟩
  exact h.typeGet hp

theorem Emittable.mono {i : Instr} (hi : Emittable iu i) : Emittable iu' i := by
  cases hi with
  | move hret hvalue htype hsource =>
    obtain ⟨iv, hiv, heq⟩ := hsource
    exact .move (hret.mono h) (hvalue.mono h) (h.typeGet htype) ⟨iv, h.valueGet hiv, heq⟩
  | lea hret hbase hoffset =>
    refine .lea (hret.mono h) (hbase.mono h) fun o ho => ?_
    exact ⟨(hoffset o ho).1.mono h, (hoffset o ho).2⟩

end

/-! ## The lowering -/

/-- The instructions so far take the words `ρ` to `ρ'`. -/
structure Chain (ρ : ℕ → BitVec 32) (s : Lowering) (ρ' : ℕ → BitVec 32) : Prop where
  run : runChain ρ s.before = some ρ'
  emittable : ∀ i ∈ s.before, Emittable s.iu i

theorem Chain.grow {ρ ρ' : ℕ → BitVec 32} {s : Lowering} {iu' : IrUnit} (hc : Chain ρ s ρ')
    (h : Extends s.iu iu') : Chain ρ ⟨iu', s.before⟩ ρ' :=
  ⟨hc.run, fun i hi => (hc.emittable i hi).mono h⟩

theorem Chain.add {ρ ρ' ρ'' : ℕ → BitVec 32} {s : Lowering} {i : Instr} (hc : Chain ρ s ρ')
    (hi : Emittable s.iu i) (hrun : runInstr ρ' i = some ρ'') :
    Chain ρ ⟨s.iu, s.before ++ [i]⟩ ρ'' := by
  refine ⟨(runChain_concat hc.run i).trans hrun, fun j hj => ?_⟩
  rcases List.mem_append.mp hj with hj | hj
  · exact hc.emittable j hj
  · rw [List.mem_singleton.mp hj]
    exact hi

section
variable {ρ ρ' : ℕ → BitVec 32} {s : Lowering} {baseptr : ValueType}

/-- The base gets a register that holds its word; the words of the values so far are kept. -/
theorem registerify_spec (hc : Chain ρ s ρ') (hb : IsBase s.iu baseptr) :
    ∃ s₁ b ρ₁, registerify s baseptr = .ok (s₁, b) ∧ Extends s.iu s₁.iu ∧ Chain ρ s₁ ρ₁
      ∧ IsRegister s₁.iu b.value ∧ ρ₁ b.value = ρ' baseptr.value
      ∧ ∀ v < s.iu.values.length, ρ₁ v = ρ' v := by
  have hnumber {x : BitVec 32} (hx : IsNumber s.iu baseptr.value x) :
      ∃ s₁ b ρ₁, registerify s baseptr = .ok (s₁, b) ∧ Extends s.iu s₁.iu ∧ Chain ρ s₁ ρ₁
        ∧ IsRegister s₁.iu b.value ∧ ρ₁ b.value = ρ' baseptr.value
        ∧ ∀ v < s.iu.values.length, ρ₁ v = ρ' v := by
    obtain ⟨iv, hiv, hcls, hconst⟩ := id hx
    obtain ⟨iv', p, hiv', hp⟩ := hb.pointer
    obtain rfl : iv' = iv := Except.ok.inj (hiv'.symm.trans hiv)
    have hgrow := extends_valueAllocInstrRet s.iu iv'.type
    have hnew := valueGet_valueAllocInstrRet s.iu iv'.type
    refine ⟨⟨(valueAllocInstrRet s.iu iv'.type).1,
        s.before ++ [⟨[(valueAllocInstrRet s.iu iv'.type).2], .move baseptr⟩]⟩,
      (valueAllocInstrRet s.iu iv'.type).2,
      Function.update ρ' s.iu.values.length (ρ' baseptr.value), ?_, hgrow, ?_, ⟨_, hnew, Or.inl rfl⟩,
      Function.update_self _ _ _, fun v hv => Function.update_of_ne (Nat.ne_of_lt hv) _ _⟩
    · unfold registerify
      rw [hiv, ok_bind]
      rcases hcls with ⟨u64, hcls⟩ | ⟨a, hcls⟩
      all_goals rw [hcls]
    · refine (hc.grow hgrow).add (.move ⟨_, hnew, rfl⟩ (hx.mono hgrow) (hgrow.typeGet hp) ?_) rfl
      exact ⟨iv', hgrow.valueGet hiv, rfl⟩
  rcases hb.operand with hreg | ⟨x, hx⟩
  · refine ⟨s, baseptr, ρ', ?_, Extends.refl _, hc, hreg, rfl, fun _ _ => rfl⟩
    obtain ⟨iv, hiv, hcls⟩ := hreg
    unfold registerify
    rw [hiv, ok_bind]
    rcases hcls with hcls | ⟨r, hcls⟩
    all_goals rw [hcls]
  · exact hnumber hx

theorem addLea_spec (ret : ValueType) (imm mult : BitVec 32) (offset : Option ValueType)
    (hc : Chain ρ s ρ') (hb : IsBase s.iu baseptr) (hret : IsResult s.iu ret.value)
    (hoffset : ∀ o, offset = some o → IsIndexRegister s.iu o ∧ mult ≠ 0) :
    ∃ s₁ ρ₁, addLea s ret baseptr imm offset mult = .ok s₁ ∧ Extends s.iu s₁.iu
      ∧ Chain ρ s₁ (Function.update ρ₁ ret.value (leaWord ρ' baseptr imm offset mult))
      ∧ (∃ before i, s₁.before = before ++ [i] ∧ i.rets = [ret])
      ∧ ∀ v < s.iu.values.length, ρ₁ v = ρ' v := by
  obtain ⟨s₁, b, ρ₁, hok, hgrow, hc₁, hreg, hword, hsame⟩ := registerify_spec hc hb
  let lea : Instr := ⟨[ret], .lea b imm.toInt offset mult.toInt⟩
  have hadd : addLea s ret baseptr imm offset mult = .ok ⟨s₁.iu, s₁.before ++ [lea]⟩ := by
    unfold addLea
    rw [hok]
    rfl
  refine ⟨_, ρ₁, hadd, hgrow, hc₁.add (.lea (hret.mono hgrow) hreg ?_) ?_, ⟨_, lea, rfl, rfl⟩, hsame⟩
  · intro o ho
    rw [BitVec.ofInt_toInt]
    exact ⟨(hoffset o ho).1.mono hgrow, (hoffset o ho).2⟩
  · change some (Function.update ρ₁ ret.value (leaWord ρ₁ b (BitVec.ofInt 32 imm.toInt) offset
      (BitVec.ofInt 32 mult.toInt))) = _
    rw [BitVec.ofInt_toInt, BitVec.ofInt_toInt]
    unfold leaWord
    rw [hword]
    cases offset with
    | none => rfl
    | some o =>
      have hlt := (hoffset o rfl).1.1.lt
      simp only [Option.elim_some, hsame o.value hlt]

end

def IsConstantIndex (iu : IrUnit) (index : ℕ) : Prop :=
  ∃ iv u64 x, valueGet iu index = .ok iv ∧ iv.cls = .constant u64 ∧ valueGetConst32 iu iv = .ok x

/-- The operand of an index: a constant, or a register if the elements have a size. -/
def IsIndex (iu : IrUnit) (depth : ℕ) (i : GepIndex) : Prop :=
  IsConstantIndex iu i.value.value ∨ IsIndexRegister iu i.value ∧
    ∀ it e, typeGet iu i.type = .ok it → elementOf it = some e → typeSizeof iu depth e ≠ .ok 0

def Numbers (iu : IrUnit) (ρ : ℕ → BitVec 32) : Prop := ∀ v x, IsNumber iu v x → ρ v = x

/-- The loop over the indices has added up to `addr`. -/
structure LoopInv (iu0 : IrUnit) (ρ : ℕ → BitVec 32) (g : LeaLoop) (addr : BitVec 32) : Prop where
  grows : Extends iu0 g.lowering.iu
  chain : ∃ ρ', Chain ρ g.lowering ρ' ∧ (∀ v < iu0.values.length, ρ' v = ρ v)
    ∧ leaWord ρ' g.baseptr g.immediateOffset g.valueOffset g.valueOffsetMultiply = addr
  base : IsBase g.lowering.iu g.baseptr
  offset : ∀ o, g.valueOffset = some o → IsIndexRegister iu0 o ∧ g.valueOffsetMultiply ≠ 0

theorem loopInv_start {iu : IrUnit} {ρ : ℕ → BitVec 32} {baseptr : ValueType}
    (hb : IsBase iu baseptr) : LoopInv iu ρ ⟨⟨iu, []⟩, baseptr, 0, none, 0⟩ (ρ baseptr.value) := by
  refine ⟨Extends.refl iu, ⟨ρ, ⟨rfl, fun i hi => ?_⟩, fun _ _ => rfl, ?_⟩, hb, fun o ho => ?_⟩
  · exact absurd hi List.not_mem_nil
  · change ρ baseptr.value + 0 + 0 = _
    rw [BitVec.ofNat_eq_ofNat, BitVec.add_zero, BitVec.add_zero]
  · exact nomatch ho

section
variable {iu0 : IrUnit} {ρ : ℕ → BitVec 32} {g : LeaLoop} {addr : BitVec 32}

theorem LoopInv.addImmediate (hinv : LoopInv iu0 ρ g addr) (d : BitVec 32) :
    LoopInv iu0 ρ { g with immediateOffset := g.immediateOffset + d } (addr + d) := by
  obtain ⟨ρ', hc, hsame, hword⟩ := hinv.chain
  refine ⟨hinv.grows, ⟨ρ', hc, hsame, ?_⟩, hinv.base, hinv.offset⟩
  rw [← hword]
  change ρ' g.baseptr.value + (g.immediateOffset + d) + _ = ρ' g.baseptr.value + g.immediateOffset + _ + d
  ac_rfl

theorem LoopInv.setOffset (hinv : LoopInv iu0 ρ g addr) (hnone : g.valueOffset = none)
    {index : ValueType} (hi : IsIndexRegister iu0 index) {size : BitVec 32} (hsize : size ≠ 0) :
    LoopInv iu0 ρ { g with valueOffset := some index, valueOffsetMultiply := size }
      (addr + ρ index.value * size) := by
  obtain ⟨ρ', hc, hsame, hword⟩ := hinv.chain
  refine ⟨hinv.grows, ⟨ρ', hc, hsame, ?_⟩, hinv.base, fun o ho => ?_⟩
  · rw [← hword, ← hsame _ hi.1.lt]
    simp [leaWord, hnone]
  · rw [← Option.some.inj ho]
    exact ⟨hi, hsize⟩

theorem LoopInv.interim (hinv : LoopInv iu0 ρ g addr) {o : ValueType}
    (ho : g.valueOffset = some o) (type : ℕ) :
    ∃ g', interimLea g type o = .ok g' ∧ LoopInv iu0 ρ { g' with valueOffset := none } addr
      ∧ g'.valueOffset = some o := by
  obtain ⟨ρ', hc, hsame, hword⟩ := hinv.chain
  obtain ⟨hindex, hmult⟩ := hinv.offset o ho
  let iu₁ := (makePointer g.lowering.iu type).1
  let ret := (valueAllocInstrRet iu₁ (makePointer g.lowering.iu type).2).2
  have hpointer := extends_makePointer g.lowering.iu type
  have halloc := extends_valueAllocInstrRet iu₁ (makePointer g.lowering.iu type).2
  have hgrow := hpointer.trans halloc
  have hnew := valueGet_valueAllocInstrRet iu₁ (makePointer g.lowering.iu type).2
  obtain ⟨s₁, ρ₁, hadd, hgrow₁, hc₁, -, hsame₁⟩ := addLea_spec ret 0 g.valueOffsetMultiply (some o)
    (hc.grow hgrow) (hinv.base.mono hgrow) ⟨_, hnew, rfl⟩ fun o' ho' => by
      rw [← Option.some.inj ho']
      exact ⟨hindex.mono (hinv.grows.trans hgrow), hmult⟩
  refine ⟨{ g with lowering := s₁, baseptr := ret }, ?_, ?_, ho⟩
  · have hlea : emitInterimLea g.lowering g.baseptr o g.valueOffsetMultiply type = .ok (s₁, ret) := by
      change (addLea ⟨(valueAllocInstrRet iu₁ (makePointer g.lowering.iu type).2).1,
        g.lowering.before⟩ ret g.baseptr 0 (some o) g.valueOffsetMultiply >>= _) = _
      rw [hadd]
      rfl
    unfold interimLea
    rw [hlea]
    rfl
  · have hlen : iu0.values.length ≤ ret.value := by
      have := hinv.grows.values.length_le
      have := hpointer.values.length_le
      exact Nat.le_trans ‹_› ‹_›
    have hlong := (hinv.grows.trans hgrow).values.length_le
    refine ⟨(hinv.grows.trans hgrow).trans hgrow₁, ⟨_, hc₁, fun v hv => ?_, ?_⟩, ⟨?_, ?_⟩,
      fun o' ho' => nomatch ho'⟩
    · rw [Function.update_of_ne (Nat.ne_of_lt (Nat.lt_of_lt_of_le hv hlen)),
        hsame₁ v (Nat.lt_of_lt_of_le hv hlong), hsame v hv]
    · rw [← hword]
      simp only [leaWord, Function.update_self, ho, Option.elim_some, Option.elim_none]
      ring
    · exact Or.inl ⟨_, hgrow₁.valueGet hnew, Or.inl rfl⟩
    · exact ⟨_, _, hgrow₁.valueGet hnew,
        hgrow₁.typeGet (halloc.typeGet (typeGet_makePointer g.lowering.iu type))⟩

theorem scaledIndex_spec {depth e : ℕ} {index : ValueType} {size : BitVec 32}
    {interim : ValueType → Except Fault LeaLoop} {unsupported : Fault}
    (hinv : LoopInv iu0 ρ g addr) (hρ : Numbers iu0 ρ) (hsize : typeSizeof iu0 depth e = .ok size)
    (hi : IsConstantIndex iu0 index.value ∨ IsIndexRegister iu0 index ∧ size ≠ 0)
    (hinterim : ∀ o, g.valueOffset = some o → ∃ g', interim o = .ok g'
      ∧ LoopInv iu0 ρ { g' with valueOffset := none } addr) :
    ∃ g', scaledIndex depth g index e interim unsupported = .ok g'
      ∧ LoopInv iu0 ρ g' (addr + ρ index.value * size) := by
  unfold scaledIndex
  rcases hi with ⟨iv, u64, x, hiv, hcls, hx⟩ | ⟨hreg, hne⟩
  · have hword := hρ index.value x ⟨iv, hiv, Or.inl ⟨u64, hcls⟩, hx⟩
    rw [hinv.grows.valueGet hiv, ok_bind]
    simp only [hcls, hinv.grows.valueGetConst32 hx, hinv.grows.typeSizeof hsize, ok_bind]
    rw [hword]
    exact ⟨_, rfl, hinv.addImmediate (x * size)⟩
  · have hstart : ∃ g₁, ((g.valueOffset = none ∧ g₁ = g)
        ∨ ∃ o, g.valueOffset = some o ∧ interim o = .ok g₁)
        ∧ LoopInv iu0 ρ { g₁ with valueOffset := none } addr := by
      cases ho : g.valueOffset with
      | none =>
        refine ⟨g, Or.inl ⟨rfl, rfl⟩, ?_⟩
        rw [← ho]
        exact hinv
      | some o =>
        obtain ⟨g₁, hg₁, hinv₁⟩ := hinterim o ho
        exact ⟨g₁, Or.inr ⟨o, rfl, hg₁⟩, hinv₁⟩
    obtain ⟨g₁, hg₁, hinv₁⟩ := hstart
    obtain ⟨iv, hiv, hcls⟩ := hreg.1
    have hsize₁ := hinv₁.grows.typeSizeof hsize
    refine ⟨_, ?_, hinv₁.setOffset rfl hreg hne⟩
    rw [hinv.grows.valueGet hiv, ok_bind]
    rcases hcls with hcls | ⟨r, hcls⟩
    all_goals
      simp only [hcls]
      rcases hg₁ with ⟨ho, rfl⟩ | ⟨o, ho, hi⟩
      · simp only [ho, ok_bind, hsize₁]
      · simp only [ho, hi, ok_bind, hsize₁]

theorem structIndex_spec {index : ValueType} {s : StructType} {e : StructElement} {type : ℕ}
    (hinv : LoopInv iu0 ρ g addr) (hρ : Numbers iu0 ρ)
    (htype : typeGet iu0 type = .ok (.struct s)) (hparse : ∃ inner, innerType iu0 type index = .ok inner)
    (he : s.elements[(ρ index.value).toNat]? = some e) :
    ∃ g', structIndex g index s = .ok g' ∧ LoopInv iu0 ρ g' (addr + e.offset) := by
  obtain ⟨inner, hinner⟩ := hparse
  unfold innerType at hinner
  cases hiv : valueGet iu0 index.value with
  | error f =>
    rw [hiv] at hinner
    exact nomatch hinner
  | ok iv =>
    simp only [hiv, htype, ok_bind] at hinner
    cases hcls : iv.cls with
    | constant u64 =>
      rw [hcls] at hinner
      cases hx : valueGetConst32 iu0 iv with
      | error f =>
        rw [hx] at hinner
        exact nomatch hinner
      | ok x =>
        have hword := hρ index.value x ⟨iv, hiv, Or.inl ⟨u64, hcls⟩, hx⟩
        simp only [hx, ok_bind] at hinner
        have hsign : x.msb = false := by
          cases hmsb : x.msb with
          | false => rfl
          | true =>
            rw [hmsb, if_pos rfl] at hinner
            exact nomatch hinner
        unfold structIndex
        rw [hinv.grows.valueGet hiv, ok_bind]
        simp only [hcls, hinv.grows.valueGetConst32 hx, ok_bind, hsign, Bool.false_eq_true, if_false]
        rw [← hword, he]
        exact ⟨_, rfl, hinv.addImmediate e.offset⟩
    | _ =>
      rw [hcls] at hinner
      exact nomatch hinner

theorem leaIndex_spec {depth inner : ℕ} {i : GepIndex} {d : BitVec 32}
    (hinv : LoopInv iu0 ρ g addr) (hρ : Numbers iu0 ρ) (hi : IsIndex iu0 depth i)
    (hparse : ∃ inner, innerType iu0 i.type i.value = .ok inner)
    (hfirst : ∀ p, typeGet iu0 i.type = .ok (.pointer p) → g.valueOffset = none)
    (hd : displacement iu0 depth i.type (ρ i.value.value) = .ok (d, inner)) :
    ∃ g', leaIndex depth g i = .ok g' ∧ LoopInv iu0 ρ g' (addr + d) := by
  unfold displacement at hd
  cases ht : typeGet iu0 i.type with
  | error f =>
    rw [ht] at hd
    exact nomatch hd
  | ok it =>
    rw [ht, ok_bind] at hd
    unfold leaIndex
    rw [hinv.grows.typeGet ht, ok_bind]
    -- An index into things of the type `e`.
    have hscaled {e : ℕ} (he : elementOf it = some e)
        (hsum : (typeSizeof iu0 depth e >>= fun size =>
          (.ok (ρ i.value.value * size, e) : Except Fault _)) = .ok (d, inner))
        {interim : ValueType → Except Fault LeaLoop} {unsupported : Fault}
        (hinterim : ∀ o, g.valueOffset = some o → ∃ g', interim o = .ok g'
          ∧ LoopInv iu0 ρ { g' with valueOffset := none } addr) :
        ∃ g', scaledIndex depth g i.value e interim unsupported = .ok g'
          ∧ LoopInv iu0 ρ g' (addr + d) := by
      obtain ⟨size, hsize, hpair⟩ := bind_ok.mp hsum
      have hd : ρ i.value.value * size = d := congrArg Prod.fst (Except.ok.inj hpair)
      rw [← hd]
      refine scaledIndex_spec hinv hρ hsize (hi.imp_right fun h => ⟨h.1, ?_⟩) hinterim
      intro hzero
      exact h.2 it e ht he (hzero ▸ hsize)
    cases it with
    | struct s =>
      cases he : s.elements[(ρ i.value.value).toNat]? with
      | none =>
        simp only [he] at hd
        exact nomatch hd
      | some e =>
        simp only [he] at hd
        have hoffset : e.offset = d := congrArg Prod.fst (Except.ok.inj hd)
        rw [← hoffset]
        exact structIndex_spec hinv hρ ht hparse he
    | pointer p =>
      refine hscaled rfl hd fun o ho => ?_
      rw [hfirst p ht] at ho
      exact nomatch ho
    | array n e =>
      refine hscaled rfl hd fun o ho => ?_
      obtain ⟨g', hok, hinv', -⟩ := hinv.interim ho i.type
      exact ⟨g', hok, hinv'⟩
    | _ => exact nomatch hd

def OnlyFirstPointer (iu : IrUnit) (indicies : List GepIndex) : Prop :=
  ∀ i ∈ indicies.tail, ∀ p, typeGet iu i.type ≠ .ok (.pointer p)

theorem displacement_inner {iu : IrUnit} {depth type inner inner' : ℕ} {index : ValueType}
    {x d : BitVec 32} (hρ : ∀ y, IsNumber iu index.value y → x = y)
    (hparse : innerType iu type index = .ok inner)
    (hd : displacement iu depth type x = .ok (d, inner')) : inner' = inner := by
  unfold innerType at hparse
  obtain ⟨iv, hiv, hparse⟩ := bind_ok.mp hparse
  obtain ⟨it, ht, hparse⟩ := bind_ok.mp hparse
  unfold displacement at hd
  rw [ht, ok_bind] at hd
  cases it with
  | struct s =>
    cases hcls : iv.cls with
    | constant u64 =>
      simp only [hcls] at hparse
      obtain ⟨y, hy, hparse⟩ := bind_ok.mp hparse
      rw [hρ y ⟨iv, hiv, Or.inl ⟨u64, hcls⟩, hy⟩] at hd
      cases he : s.elements[y.toNat]? with
      | none =>
        simp only [he] at hd
        exact nomatch hd
      | some e =>
        simp only [he] at hd hparse
        split at hparse
        · exact nomatch hparse
        · exact (congrArg Prod.snd (Except.ok.inj hd)).symm.trans (Except.ok.inj hparse)
    | _ =>
      rw [hcls] at hparse
      exact nomatch hparse
  | pointer p =>
    obtain ⟨size, -, hpair⟩ := bind_ok.mp hd
    exact (congrArg Prod.snd (Except.ok.inj hpair)).symm.trans (Except.ok.inj hparse)
  | array n e =>
    obtain ⟨size, -, hpair⟩ := bind_ok.mp hd
    exact (congrArg Prod.snd (Except.ok.inj hpair)).symm.trans (Except.ok.inj hparse)
  | _ => exact nomatch hparse

theorem leaIndices_spec {depth type last : ℕ} {values : List ValueType} {indicies : List GepIndex}
    {total : BitVec 32} (hinv : LoopInv iu0 ρ g addr) (hρ : Numbers iu0 ρ)
    (hparse : parseGepIndicies iu0 type values = .ok (indicies, last))
    (hi : ∀ i ∈ indicies, IsIndex iu0 depth i)
    (hpointer : ∀ i ∈ indicies, ∀ p, typeGet iu0 i.type = .ok (.pointer p) → g.valueOffset = none
      ∧ ∀ j ∈ indicies.tail, ∀ p, typeGet iu0 j.type ≠ .ok (.pointer p))
    (hsum : gepSum iu0 depth type (values.map fun v => ρ v.value) = .ok total) :
    ∃ g', indicies.foldlM (leaIndex depth) g = .ok g' ∧ LoopInv iu0 ρ g' (addr + total) := by
  induction values generalizing type indicies g addr total with
  | nil =>
    cases hparse
    cases hsum
    refine ⟨g, rfl, ?_⟩
    rw [BitVec.ofNat_eq_ofNat, BitVec.add_zero]
    exact hinv
  | cons v values ih =>
    unfold parseGepIndicies at hparse
    obtain ⟨inner, hinner, hparse⟩ := bind_ok.mp hparse
    obtain ⟨⟨is, last'⟩, hrest, hpair⟩ := bind_ok.mp hparse
    obtain ⟨rfl, rfl⟩ : ⟨v, type⟩ :: is = indicies ∧ last' = last := by
      have := Except.ok.inj hpair
      exact ⟨congrArg Prod.fst this, congrArg Prod.snd this⟩
    rw [List.map_cons, gepSum] at hsum
    obtain ⟨⟨d, inner'⟩, hd, hsum⟩ := bind_ok.mp hsum
    obtain ⟨rest, hrestsum, htotal⟩ := bind_ok.mp hsum
    obtain rfl := displacement_inner (fun y hy => hρ v.value y hy) hinner hd
    obtain ⟨g₁, hstep, hinv₁⟩ := leaIndex_spec (i := ⟨v, type⟩) hinv hρ (hi _ List.mem_cons_self)
      ⟨_, hinner⟩ (fun p hp => (hpointer _ List.mem_cons_self p hp).1) hd
    have hnone : ∀ j ∈ is, ∀ p, typeGet iu0 j.type ≠ .ok (.pointer p) := by
      intro j hj p hp
      exact (hpointer j (List.mem_cons_of_mem _ hj) p hp).2 j hj p hp
    obtain ⟨g', hfold, hinv'⟩ := ih hinv₁ hrest (fun i hmem => hi i (List.mem_cons_of_mem _ hmem))
      (fun i hmem p hp => absurd hp (hnone i hmem p)) hrestsum
    refine ⟨g', ?_, ?_⟩
    · rw [List.foldlM_cons, hstep, ok_bind]
      exact hfold
    · rw [← Except.ok.inj htotal, ← BitVec.add_assoc]
      exact hinv'

end

/-- The chain of instructions takes the word of the result to the base plus the displacements, and
every value of the unit other than the result keeps its word. -/
theorem replaceGepWithLea_spec {iu : IrUnit} {ρ : ℕ → BitVec 32} {depth last : ℕ}
    {ret baseptr : ValueType} {values : List ValueType} {indicies : List GepIndex}
    {total : BitVec 32} (hρ : Numbers iu ρ) (hb : IsBase iu baseptr) (hret : IsResult iu ret.value)
    (hparse : parseGepIndicies iu baseptr.type values = .ok (indicies, last))
    (hi : ∀ i ∈ indicies, IsIndex iu depth i) (hpointer : OnlyFirstPointer iu indicies)
    (hsum : gepSum iu depth baseptr.type (values.map fun v => ρ v.value) = .ok total) :
    ∃ s ρ', replaceGepWithLea iu depth ret baseptr indicies = .ok s ∧ Extends iu s.iu
      ∧ Chain ρ s ρ' ∧ ρ' ret.value = ρ baseptr.value + total
      ∧ (∀ v < iu.values.length, v ≠ ret.value → ρ' v = ρ v)
      ∧ ∃ before i, s.before = before ++ [i] ∧ i.rets = [ret] := by
  obtain ⟨g, hfold, hinv⟩ := leaIndices_spec (loopInv_start hb) hρ hparse hi
    (fun i _ p _ => ⟨rfl, hpointer⟩) hsum
  obtain ⟨ρ', hc, hsame, hword⟩ := hinv.chain
  obtain ⟨s, ρ₁, hadd, hgrow, hc₁, hlast, hsame₁⟩ := addLea_spec _ g.immediateOffset _ _ hc
    hinv.base (hret.mono hinv.grows)
    fun o ho => ⟨(hinv.offset o ho).1.mono hinv.grows, (hinv.offset o ho).2⟩
  refine ⟨s, _, ?_, hinv.grows.trans hgrow, hc₁, ?_, fun v hv hne => ?_, hlast⟩
  · unfold replaceGepWithLea
    rw [hfold, ok_bind]
    exact hadd
  · rw [Function.update_self]
    exact hword
  · have hlen := hinv.grows.values.length_le
    rw [Function.update_of_ne hne, hsame₁ v (Nat.lt_of_lt_of_le hv hlen), hsame v hv]

end Vmir.GepAddress
