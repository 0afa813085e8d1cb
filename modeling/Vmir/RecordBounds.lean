import Vmir.RecordHandlers

set_option autoImplicit false

/-!
# Records outside functions are read in bounds

For each handler, the records of which it reads an operand that is not there.
-/
namespace Vmir.RecordBounds
open Ir IrTypes GlobalInit OperandReads RecordHandlers
open InstrParse (IrAttr printargs)

section
variable {υ : Type} {s : Cursor υ}

theorem not_overruns_readOperands (hs : s.Counted) :
    ¬ Overruns (readOperands : Parse Fault υ (List (BitVec 64))) s := by
  unfold readOperands
  rw [overruns_argc_bind]
  apply not_overruns_args
  intro i hi
  rw [hs] at hi
  exact hi

theorem bounded_readOperands : Bounded (readOperands : Parse Fault υ (List (BitVec 64))) where
  keeps := keeps_bind bounded_argc.keeps fun c => still_keeps (still_forArgs still_arg c.toNat 0)
  safe := fun _ hs => not_overruns_readOperands hs

theorem bounded_printargs : Bounded (printargs : Parse Fault υ Unit) := by
  have hkeeps : Keeps (printargs : Parse Fault υ Unit) :=
    keeps_bind bounded_argc.keeps fun c => keeps_bind
      (still_keeps (still_forArgs (fun _ => still_forArgs still_arg c.toNat 0) 2 0))
      fun _ => (bounded_pure ()).keeps
  refine ⟨hkeeps, fun s hs => ?_⟩
  unfold printargs
  rw [overruns_argc_bind, overruns_bind_bounded hs
    (still_keeps (still_forArgs (fun _ => still_forArgs still_arg s.argc.toNat 0) 2 0))
    fun _ => bounded_pure ()]
  apply not_overruns_forArgs (k := 2)
    (fun _ => still_forArgs still_arg s.argc.toNat 0) ?_ 2 0 (Nat.le_refl 2) rfl
  intro i t hi ht
  apply not_overruns_args
  intro j hj
  rw [ht, ← hs]
  exact hj

end

/-! ## Modules -/

section
variable {s : Cursor ModuleUnit} {depth : ℕ}

theorem not_overruns_moduleGlobalvar (hs : s.Counted) : ¬ Overruns (moduleGlobalvar depth) s := by
  unfold moduleGlobalvar
  rw [overruns_argc_bind]
  split
  · exact (bounded_fail _).safe s hs
  · rename_i hc
    rw [hs, Nat.not_lt] at hc
    rw [overruns_arg_bind (by omega), overruns_arg_bind (by omega), overruns_getUnit_bind,
      overruns_lift_bind]
    rintro ⟨type, -, h⟩
    rw [overruns_arg_bind (by omega), overruns_arg_bind (by omega)] at h
    exact (bounded_bind (bounded_lift _) fun _ => bounded_modifyUnit _).safe s hs h

theorem not_overruns_moduleFunction (hs : s.Counted) : ¬ Overruns moduleFunction s := by
  unfold moduleFunction
  rw [overruns_argc_bind]
  split
  · exact (bounded_fail _).safe s hs
  · rename_i hc
    rw [hs, Nat.not_lt] at hc
    rw [overruns_arg_bind (by omega), overruns_getUnit_bind, overruns_lift_bind]
    rintro ⟨it, -, h⟩
    rw [overruns_arg_bind (by omega)] at h
    exact (bounded_modifyUnit _).safe s hs h

theorem not_overruns_moduleAlias (hs : s.Counted) : ¬ Overruns moduleAlias s := by
  unfold moduleAlias
  rw [overruns_argc_bind]
  split
  · exact (bounded_fail _).safe s hs
  · rename_i hc
    rw [hs, Nat.not_lt] at hc
    rw [overruns_arg_bind (by omega), overruns_arg_bind (by omega)]
    exact (bounded_modifyUnit _).safe s hs

theorem not_overruns_moduleVstoffset (hs : s.Counted) : ¬ Overruns moduleVstoffset s := by
  unfold moduleVstoffset
  rw [overruns_argc_bind]
  split
  · exact (bounded_fail _).safe s hs
  · rename_i hc
    rw [hs, ne_eq, not_not] at hc
    rw [overruns_arg_bind (by omega)]
    exact (bounded_modifyUnit _).safe s hs

def ModuleShort (argv : List (BitVec 64)) (code : ModuleCode) : Prop :=
  code = .version ∧ argv = []

theorem overruns_moduleRec (hs : s.Counted) (code : ModuleCode) :
    Overruns (moduleRec depth code) s ↔ ModuleShort s.argv code := by
  unfold ModuleShort
  cases code with
  | version =>
    change Overruns (arg 0 >>= _) s ↔ _
    rw [overruns_arg_bounded hs fun a => bounded_modifyUnit _, Nat.le_zero, List.length_eq_zero_iff]
    exact (and_iff_right rfl).symm
  | triple =>
    apply iff_of_false ((bounded_bind bounded_readOperands fun _ => bounded_modifyUnit _).safe s hs)
    exact fun h => nomatch h.1
  | globalvar => exact iff_of_false (not_overruns_moduleGlobalvar hs) fun h => nomatch h.1
  | function => exact iff_of_false (not_overruns_moduleFunction hs) fun h => nomatch h.1
  | «alias» => exact iff_of_false (not_overruns_moduleAlias hs) fun h => nomatch h.1
  | vstoffset => exact iff_of_false (not_overruns_moduleVstoffset hs) fun h => nomatch h.1
  | datalayout => exact iff_of_false ((bounded_pure ()).safe s hs) fun h => nomatch h.1
  | comdat => exact iff_of_false ((bounded_pure ()).safe s hs) fun h => nomatch h.1
  | metadataValuesUnused => exact iff_of_false ((bounded_pure ()).safe s hs) fun h => nomatch h.1

end

/-! ## Types -/

section
variable {s : Cursor TypesUnit}

theorem bounded_pushType (it : IrType) : Bounded (pushType it) := bounded_modifyUnit _

theorem overruns_structType (name : Option (List (BitVec 8))) (hs : s.Counted) :
    Overruns (structType name) s ↔ s.argv = [] := by
  unfold structType
  rw [overruns_argc_bind]
  by_cases hne : s.argv = []
  · apply iff_of_true ?_ hne
    rw [overruns_bind]
    exact .inl (overruns_arg.mpr (by rw [hne]; exact Nat.le_refl 0))
  · have hpos := List.length_pos_of_ne_nil hne
    apply iff_of_false ?_ hne
    rw [overruns_arg_bind hpos, overruns_bind_bounded hs
      (still_keeps (still_forArgs (fun i => still_arg (i + 1)) _ 0)) fun _ => bounded_pushType _]
    apply not_overruns_args
    intro i hi
    unfold Cursor.Counted at hs
    have hlt := s.argc.isLt
    have hsub : (s.argc - 1).toNat = s.argc.toNat - 1 := by
      rw [BitVec.toNat_sub]
      change (2 ^ 32 - 1 + s.argc.toNat) % 2 ^ 32 = _
      omega
    have hle : (s.argc - 1).toInt.toNat ≤ (s.argc - 1).toNat := by
      rw [BitVec.toInt_eq_toNat_cond]
      split <;> omega
    omega

theorem not_overruns_functionType (hs : s.Counted) : ¬ Overruns functionType s := by
  unfold functionType
  rw [overruns_argc_bind]
  split
  · exact (bounded_fail _).safe s hs
  · rename_i hc
    rw [hs, Nat.not_lt] at hc
    rw [overruns_arg_bind (by omega), overruns_arg_bind (by omega), overruns_bind_bounded hs
      (still_keeps (still_forArgs (fun i => still_arg (2 + i)) _ 0)) fun _ => bounded_pushType _]
    apply not_overruns_args
    intro i hi
    unfold Cursor.Counted at hs
    have hlt := s.argc.isLt
    have hsub : (s.argc - 2).toNat = s.argc.toNat - 2 := by
      rw [BitVec.toNat_sub]
      change (2 ^ 32 - 2 + s.argc.toNat) % 2 ^ 32 = _
      omega
    have hle : (s.argc - 2).toInt.toNat ≤ (s.argc - 2).toNat := by
      rw [BitVec.toInt_eq_toNat_cond]
      split <;> omega
    omega

/-- The records of which operands are read unasked, with fewer operands than that. -/
def TypeShort (argv : List (BitVec 64)) : TypeRecord → Prop
  | .integer | .pointer | .structAnon | .structNamed => argv = []
  | .array | .vector => argv.length < 2
  | _ => False

theorem overruns_typeRec (hs : s.Counted) (code : TypeRecord) :
    Overruns (typeRec code) s ↔ TypeShort s.argv code := by
  have hpush : ∀ it, ¬ Overruns (pushType it) s := fun it => (bounded_pushType it).safe s hs
  cases code with
  | numentry =>
    apply iff_of_false ?_ (fun h => h)
    change ¬ Overruns (argc >>= _) s
    rw [overruns_argc_bind]
    split
    · exact (bounded_fail _).safe s hs
    · rename_i hc
      rw [hs, Nat.not_lt] at hc
      rw [overruns_arg_bind (by omega)]
      exact (bounded_pure ()).safe s hs
  | integer =>
    change Overruns (arg 0 >>= _) s ↔ s.argv = []
    rw [overruns_arg_bounded hs fun a => bounded_bind (bounded_lift _) bounded_pushType,
      Nat.le_zero, List.length_eq_zero_iff]
  | pointer =>
    change Overruns (arg 0 >>= _) s ↔ s.argv = []
    rw [overruns_arg_bounded hs fun a => bounded_pushType _, Nat.le_zero, List.length_eq_zero_iff]
  | array =>
    change Overruns (arg 0 >>= fun a => arg 1 >>= _) s ↔ s.argv.length < 2
    rw [overruns_arg_arg hs fun a b => bounded_pushType _]
    omega
  | vector =>
    change Overruns (arg 1 >>= _) s ↔ s.argv.length < 2
    by_cases hlt : s.argv.length < 2
    · apply iff_of_true ?_ hlt
      rw [overruns_bind, overruns_arg]
      exact .inl (by omega)
    · apply iff_of_false ?_ hlt
      rw [overruns_arg_bind (by omega), overruns_arg_bind (by omega)]
      exact (bounded_bind bounded_printargs fun _ => bounded_fail _).safe s hs
  | structAnon => exact overruns_structType none hs
  | structNamed =>
    change Overruns (getUnit >>= fun _ => modifyUnit _ >>= _) s ↔ _
    rw [overruns_getUnit_bind, overruns_modifyUnit_bind]
    exact @overruns_structType _ _ hs
  | structName =>
    exact iff_of_false
      ((bounded_bind bounded_readOperands fun _ => bounded_modifyUnit _).safe s hs) fun h => h
  | function => exact iff_of_false (not_overruns_functionType hs) fun h => h
  | void => exact iff_of_false (hpush _) fun h => h
  | float => exact iff_of_false (hpush _) fun h => h
  | double => exact iff_of_false (hpush _) fun h => h
  | label => exact iff_of_false (hpush _) fun h => h
  | opaqueType => exact iff_of_false (hpush _) fun h => h
  | metadata => exact iff_of_false (hpush _) fun h => h

end

/-! ## Constants -/

section
variable {s : Cursor Constants}

theorem bounded_setValue (cls : ValueClass) (f : ℕ → Constants → Constants) :
    Bounded (setValue cls f) := bounded_modifyUnit _

theorem bounded_setCe (ce : ConstExprs.IrConstexpr) : Bounded (setCe ce) := bounded_setValue _ _

theorem bounded_setData (bs : List (BitVec 8)) : Bounded (setData bs) := bounded_setValue _ _

theorem still_currentType : Still currentType := still_bind still_getUnit fun _ => still_lift _

theorem bounded_currentType : Bounded currentType :=
  bounded_bind bounded_getUnit fun _ => bounded_lift _

theorem overruns_single (hs : s.Counted) {f : IrType → BitVec 64 → Except Fault ValueClass} :
    Overruns (do
      assertArgc
      let it ← currentType
      let a ← arg 0
      let cls ← lift (f it a)
      setValue cls fun _ c => c) s ↔ s.argv = [] := by
  apply overruns_assertArgc_bounded hs
  intro hne
  rw [overruns_bounded_bind hs bounded_currentType]
  rintro ⟨it, t, hit, h⟩
  obtain ⟨hc, hv⟩ := still_currentType s it t hit
  have ht : t.Counted := still_keeps still_currentType s it t hs hit
  rw [overruns_arg_bind (hv ▸ List.length_pos_of_ne_nil hne)] at h
  exact (bounded_bind (bounded_lift _) fun cls => bounded_setValue cls _).safe t ht h

theorem not_overruns_aggregate (hs : s.Counted) (f : List ℕ → Parse Fault Constants Unit)
    (hf : ∀ values, Bounded (f values)) :
    ¬ Overruns (argc >>= fun c => forArgs aggregateValue c.toNat 0 >>= f) s := by
  have hstill : ∀ i, Still (aggregateValue i) := fun i => still_bind (still_arg i) fun a =>
    still_bind still_getUnit fun c => still_ite (still_pure _) (still_fail _)
  rw [overruns_argc_bind, overruns_bind_bounded hs
    (still_keeps (still_forArgs hstill s.argc.toNat 0)) hf]
  apply not_overruns_forArgs (k := s.argv.length) hstill ?_ _ 0 ?_ rfl
  · intro i t hi ht
    unfold aggregateValue
    rw [overruns_arg_bind (ht ▸ hi), overruns_getUnit_bind]
    split
    · exact not_overruns_of_ok rfl
    · exact not_overruns_fault rfl
  · rw [hs, Nat.zero_add]

theorem bounded_dataRec : Bounded dataRec := by
  apply bounded_bind bounded_currentType
  intro it
  cases it with
  | array n e =>
    apply bounded_bind bounded_getUnit
    intro c
    apply bounded_bind (bounded_lift _)
    intro element
    exact bounded_ite (bounded_fail _) (bounded_bind bounded_readOperands fun _ => bounded_setData _)
  | _ => exact bounded_fail _

theorem not_overruns_gepConstexpr (hs : s.Counted) : ¬ Overruns gepConstexpr s := by
  have hloop : ∀ t : Cursor Constants, t.Counted → t.argc.toNat % 2 = 0 →
      ¬ Overruns (argc >>= fun c => forArgs (fun i => arg (1 + i * 2)) (c.toNat / 2) 0 >>=
        fun values => setCe (.gep (values.map indexOf))) t := by
    intro t ht heven
    rw [overruns_argc_bind, overruns_bind_bounded ht
      (still_keeps (still_forArgs (fun i => still_arg (1 + i * 2)) _ 0)) fun _ => bounded_setCe _]
    apply not_overruns_args
    intro i hi
    rw [← ht]
    omega
  unfold gepConstexpr
  rw [overruns_argc_bind]
  split
  · rename_i hodd
    rw [overruns_advance_bind]
    have hlen : 1 ≤ s.argv.length := by
      rw [← hs]
      omega
    apply hloop _ (counted_drop hs hlen)
    have hdrop := counted_drop hs hlen
    unfold Cursor.Counted at hdrop hs
    rw [hdrop]
    change (s.argv.drop 1).length % 2 = 0
    rw [List.length_drop, ← hs]
    omega
  · rename_i heven
    rw [overruns_bind_ok (t := s) rfl]
    exact hloop s hs (by omega)

/-- The constants of which operands are read unasked, or which are asserted to have one. -/
def ConstantShort (argv : List (BitVec 64)) : ConstCode → Prop
  | .integer | .float => argv = []
  | .cast => argv.length < 3
  | _ => False

theorem overruns_constantsRec (hs : s.Counted) (code : ConstCode) :
    Overruns (constantsRec code) s ↔ ConstantShort s.argv code := by
  have hnull : Bounded (currentType >>= fun it => lift (nullConstant it) >>= fun cls =>
      setValue cls fun _ c => c) :=
    bounded_bind bounded_currentType fun _ => bounded_bind (bounded_lift _) fun _ =>
      bounded_setValue _ _
  have hstring : Bounded (readOperands >>= fun argv => setData (readStrFromArgv argv)) :=
    bounded_bind bounded_readOperands fun _ => bounded_setData _
  cases code with
  | settype =>
    apply iff_of_false ?_ fun h => h
    change ¬ Overruns (argc >>= _) s
    rw [overruns_argc_bind]
    split
    · exact (bounded_fail _).safe s hs
    · rename_i hc
      rw [hs, Nat.not_lt] at hc
      rw [overruns_assertArgc_bounded hs]
      · exact List.ne_nil_of_length_pos hc
      · intro _
        rw [overruns_arg_bind hc]
        exact (bounded_modifyUnit _).safe s hs
  | integer => exact overruns_single (f := fun it a => integerConstant it 0 a) hs
  | float => exact overruns_single (f := floatConstant) hs
  | cast =>
    change Overruns (arg 0 >>= fun a => arg 2 >>= _) s ↔ s.argv.length < 3
    rw [overruns_arg_arg hs fun a b => bounded_setCe _]
    omega
  | null => exact iff_of_false (hnull.safe s hs) fun h => h
  | undef => exact iff_of_false (hnull.safe s hs) fun h => h
  | aggregate =>
    exact iff_of_false (not_overruns_aggregate hs _ fun _ => bounded_setValue _ _) fun h => h
  | string => exact iff_of_false (hstring.safe s hs) fun h => h
  | cstring => exact iff_of_false (hstring.safe s hs) fun h => h
  | data => exact iff_of_false (bounded_dataRec.safe s hs) fun h => h
  | gep => exact iff_of_false (not_overruns_gepConstexpr hs) fun h => h
  | inboundsGep => exact iff_of_false (not_overruns_gepConstexpr hs) fun h => h
  | binop =>
    apply iff_of_false ?_ fun h => h
    change ¬ Overruns (argc >>= _) s
    rw [overruns_argc_bind]
    split
    · exact (bounded_fail _).safe s hs
    · rename_i hc
      rw [hs, Nat.not_lt] at hc
      rw [overruns_arg_bind (by omega), overruns_arg_bind (by omega), overruns_arg_bind (by omega)]
      exact (bounded_setValue _ _).safe s hs
  | cmp =>
    apply iff_of_false ?_ fun h => h
    change ¬ Overruns (argc >>= _) s
    rw [overruns_argc_bind]
    split
    · exact (bounded_fail _).safe s hs
    · rename_i hc
      rw [hs, Nat.not_lt] at hc
      rw [overruns_arg_bind (by omega), overruns_arg_bind (by omega), overruns_arg_bind (by omega),
        overruns_arg_bind (by omega)]
      exact (bounded_setValue _ _).safe s hs
  | blockaddress => exact iff_of_false ((bounded_fail _).safe s hs) fun h => h
  | inlineasm => exact iff_of_false ((bounded_fail _).safe s hs) fun h => h
  | inlineasmOld => exact iff_of_false ((bounded_fail _).safe s hs) fun h => h

end

/-! ## Attribute groups -/

/-- What is behind a string: one operand if the count is negative as an `int`. -/
def zstrRest (argv : List (BitVec 64)) : Option (List (BitVec 64)) :=
  if 2 ^ 31 ≤ argv.length then some (argv.drop 1)
  else
    let len := (argv.takeWhile (· ≠ 0)).length
    if len = argv.length then none else some (argv.drop (len + 1))

/-- What is behind the operands of an attribute, if they are there. -/
def attrRest (argv : List (BitVec 64)) : ℕ → Option (List (BitVec 64))
  | 0 => some argv.tail
  | 1 => if argv.length < 2 then none else some (argv.drop 2)
  | 3 => zstrRest argv
  | 4 => (zstrRest argv).bind zstrRest
  | _ => none

def afterAttr : List (BitVec 64) → Option (List (BitVec 64))
  | [] => none
  | type :: argv => if argv = [] then none else attrRest argv (indexOf type)

/-- The last attribute is one with a number, and has only one operand. -/
inductive IntMissing : List (BitVec 64) → Prop
  | missing {type key : BitVec 64} (h : indexOf type = 1) : IntMissing [type, key]
  | later {argv rest : List (BitVec 64)} (h : afterAttr argv = some rest) (hrest : IntMissing rest) :
    IntMissing argv

section
variable {υ : Type} {s : Cursor υ}

theorem zstrLen_run (n len : ℕ) (h : len + n ≤ s.argv.length) :
    (zstrLen n len : Parse Fault υ ℕ) s
      = .ok (len + (((s.argv.drop len).take n).takeWhile (· ≠ 0)).length, s) := by
  induction n generalizing len with
  | zero => rfl
  | succ n ih =>
    have hlt : len < s.argv.length := by omega
    unfold zstrLen
    rw [bind_ok (arg_eq hlt), List.drop_eq_getElem_cons hlt, List.take_succ_cons]
    split
    · rename_i hzero
      rw [List.takeWhile_cons_of_neg (by simpa using hzero)]
      rfl
    · rename_i hzero
      rw [List.takeWhile_cons_of_pos (by simpa using hzero), ih (len + 1) (by omega), List.length_cons,
        Nat.add_right_comm, Nat.add_assoc]

theorem zstrChars_run (n len : ℕ) (h : len + n ≤ s.argv.length) :
    ∃ cs, (zstrChars n len : Parse Fault υ (List (BitVec 8))) s = .ok (cs, s) := by
  induction n generalizing len with
  | zero => exact ⟨[], rfl⟩
  | succ n ih =>
    have hlt : len < s.argv.length := by omega
    unfold zstrChars
    rw [bind_ok (arg_eq hlt)]
    split
    · exact ⟨[0], rfl⟩
    · obtain ⟨cs, hcs⟩ := ih (len + 1) (by omega)
      rw [bind_ok hcs]
      exact ⟨_, rfl⟩

/-- The count as an `int`. -/
theorem argc_toInt (hs : s.Counted) : s.argc.toInt
    = if 2 ^ 31 ≤ s.argv.length then (s.argv.length : ℤ) - (2 ^ 32 : ℕ)
      else (s.argv.length : ℤ) := by
  unfold Cursor.Counted at hs
  rw [BitVec.toInt_eq_toNat_cond, hs]
  split
  · rw [if_neg (by omega)]
  · rw [if_pos (by omega)]

theorem readZstr_run (hs : s.Counted) : ∃ str t,
    (readZstrFromArgv : Parse Fault υ (Option (List (BitVec 8)))) s = .ok (str, t) ∧ t.Counted
      ∧ (str = none ↔ zstrRest s.argv = none)
      ∧ ∀ rest, zstrRest s.argv = some rest → t.argv = rest := by
  have hlt := s.argc.isLt
  have hint := argc_toInt hs
  unfold readZstrFromArgv zstrRest
  rw [bind_ok (t := s) rfl]
  by_cases hbig : 2 ^ 31 ≤ s.argv.length
  · rw [if_pos hbig] at hint
    have hcount : s.argc.toInt.toNat = 0 := by
      unfold Cursor.Counted at hs
      omega
    rw [hcount, bind_ok (zstrLen_run 0 0 (Nat.zero_le _)), if_neg (by
      rw [hint]
      unfold Cursor.Counted at hs
      change ¬ (0 : ℤ) = _
      omega), bind_ok (t := s) rfl, if_pos hbig]
    refine ⟨_, s.drop 1, rfl, counted_drop hs (by omega), by simp, ?_⟩
    intro rest hrest
    cases hrest
    rfl
  · rw [if_neg hbig] at hint
    have hcount : s.argc.toInt.toNat = s.argv.length := by omega
    rw [hcount, bind_ok (zstrLen_run _ 0 (Nat.le_of_eq (Nat.zero_add _))), if_neg hbig, hint,
      List.drop_zero, List.take_length, Nat.zero_add]
    have hle : (s.argv.takeWhile (· ≠ 0)).length ≤ s.argv.length :=
      (List.takeWhile_prefix _).length_le
    by_cases hall : (s.argv.takeWhile (· ≠ 0)).length = s.argv.length
    · rw [if_pos (by exact_mod_cast hall), if_pos hall]
      exact ⟨none, s, rfl, hs, by simp, by simp⟩
    · obtain ⟨cs, hcs⟩ := zstrChars_run (s := s) s.argv.length 0 (Nat.le_of_eq (Nat.zero_add _))
      rw [if_neg (by exact_mod_cast hall), if_neg hall, bind_ok hcs]
      refine ⟨_, s.drop _, rfl, counted_drop hs (by omega), by simp, ?_⟩
      intro rest hrest
      cases hrest
      rfl

end

section
variable {s : Cursor (List IrAttr)}

theorem readZstr_ite (hs : s.Counted) {f : Parse Fault (List IrAttr) Unit} {e : Fault} :
    (∃ t, t.Counted ∧ zstrRest s.argv = some t.argv
      ∧ (readZstrFromArgv >>= fun str => if str = none then fail e else f) s = f t)
    ∨ zstrRest s.argv = none
      ∧ (readZstrFromArgv >>= fun str => if str = none then fail e else f) s
        = .error (.fault e) := by
  obtain ⟨str, t, hrun, ht, hnone, hrest⟩ := readZstr_run hs
  rw [bind_ok hrun]
  cases hz : zstrRest s.argv with
  | none =>
    rw [if_pos (hnone.mpr hz)]
    exact .inr ⟨rfl, rfl⟩
  | some rest =>
    rw [if_neg fun h => by
      rw [hnone.mp h] at hz
      cases hz]
    exact .inl ⟨t, ht, by rw [hrest rest hz], rfl⟩

theorem readAttrOf_run (hs : s.Counted) (hne : s.argv ≠ []) (k : ℕ) :
    (∃ t, readAttrOf k s = .ok ((), t) ∧ t.Counted ∧ attrRest s.argv k = some t.argv)
    ∨ (∃ t, readAttrOf k s = .ok ((), t) ∧ t.argc ≠ 0 ∧ t.argv = [] ∧ k = 1 ∧ s.argv.length = 1)
    ∨ ∃ e, readAttrOf k s = .error (.fault e) ∧ attrRest s.argv k = none
      ∧ ¬ (k = 1 ∧ s.argv.length = 1) := by
  have hpos := List.length_pos_of_ne_nil hne
  match k with
  | 0 =>
    left
    refine ⟨Cursor.drop { s with unit := addFlag s.argv[0] s.unit } 1, ?_, ?_, ?_⟩
    · change (arg 0 >>= fun a => modifyUnit (addFlag a) >>= fun _ => advance 1) s = _
      rw [bind_ok (arg_eq hpos)]
      rfl
    · exact @counted_drop _ { s with unit := addFlag s.argv[0] s.unit } 1 hs hpos
    · exact congrArg some (List.drop_one).symm
  | 1 =>
    have hrun : readAttrOf 1 s = .ok ((), s.drop 2) := by
      change (argc >>= fun c => if c.toNat < 1 then _ else advance 2) s = _
      rw [bind_ok (t := s) rfl, if_neg (by rw [hs]; omega)]
      rfl
    by_cases hone : s.argv.length = 1
    · right; left
      refine ⟨s.drop 2, hrun, ?_, List.drop_eq_nil_of_le (by omega), rfl, hone⟩
      intro h
      have hz : (s.argc - 2).toNat = 0 := congrArg BitVec.toNat h
      unfold Cursor.Counted at hs
      rw [BitVec.toNat_sub, hs, hone] at hz
      cases hz
    · left
      exact ⟨s.drop 2, hrun, counted_drop hs (by omega), if_neg (by omega)⟩
  | 3 =>
    rcases readZstr_ite (f := pure ()) (e := .parserError "%s: short string") hs with
      ⟨t, ht, hrest, hrun⟩ | ⟨hnone, hrun⟩
    · exact .inl ⟨t, hrun, ht, hrest⟩
    · exact .inr (.inr ⟨_, hrun, hnone, by omega⟩)
  | 4 =>
    rcases readZstr_ite (e := .parserError "%s: short string") hs (f := readZstrFromArgv >>= fun str =>
      if str = none then fail (.parserError "%s: short string") else pure ()) with
      ⟨t, ht, hrest, hrun⟩ | ⟨hnone, hrun⟩
    · rcases readZstr_ite (f := pure ()) (e := .parserError "%s: short string") ht with
        ⟨t', ht', hrest', hrun'⟩ | ⟨hnone', hrun'⟩
      · refine .inl ⟨t', hrun.trans hrun', ht', ?_⟩
        change (zstrRest s.argv).bind zstrRest = _
        rw [hrest]
        exact hrest'
      · refine .inr (.inr ⟨_, hrun.trans hrun', ?_, by omega⟩)
        change (zstrRest s.argv).bind zstrRest = _
        rw [hrest]
        exact hnone'
    · refine .inr (.inr ⟨_, hrun, ?_, by omega⟩)
      change (zstrRest s.argv).bind zstrRest = _
      rw [hnone]
      rfl
  | 2 => exact .inr (.inr ⟨_, rfl, rfl, by omega⟩)
  | k + 5 => exact .inr (.inr ⟨_, rfl, rfl, by omega⟩)

theorem zstrRest_length {argv rest : List (BitVec 64)} (h : zstrRest argv = some rest) :
    rest.length ≤ argv.length := by
  unfold zstrRest at h
  split at h
  · cases h
    rw [List.length_drop]
    exact Nat.sub_le _ _
  · simp only at h
    split at h
    · cases h
    · cases h
      rw [List.length_drop]
      exact Nat.sub_le _ _

theorem attrRest_length {argv rest : List (BitVec 64)} {k : ℕ} (h : attrRest argv k = some rest) :
    rest.length ≤ argv.length := by
  match k with
  | 0 =>
    cases h
    rw [List.length_tail]
    exact Nat.sub_le _ _
  | 1 =>
    change (if argv.length < 2 then none else some (argv.drop 2)) = some rest at h
    split at h
    · cases h
    · cases h
      rw [List.length_drop]
      exact Nat.sub_le _ _
  | 3 => exact zstrRest_length h
  | 4 =>
    obtain ⟨mid, hmid, hrest⟩ := Option.bind_eq_some_iff.mp h
    exact Nat.le_trans (zstrRest_length hrest) (zstrRest_length hmid)
  | 2 => cases h
  | k + 5 => cases h

theorem intMissing_cons {type : BitVec 64} {argv : List (BitVec 64)} : IntMissing (type :: argv)
    ↔ (indexOf type = 1 ∧ argv.length = 1)
      ∨ argv ≠ [] ∧ ∃ rest, attrRest argv (indexOf type) = some rest ∧ IntMissing rest := by
  constructor
  · intro h
    cases h with
    | missing htype => exact .inl ⟨htype, rfl⟩
    | later hafter hrest =>
      change (if argv = [] then none else _) = _ at hafter
      split at hafter
      · cases hafter
      · rename_i hne
        exact .inr ⟨hne, _, hafter, hrest⟩
  · rintro (⟨htype, hlen⟩ | ⟨hne, rest, hafter, hrest⟩)
    · obtain ⟨key, rfl⟩ := List.length_eq_one_iff.mp hlen
      exact .missing htype
    · exact .later ((if_neg hne).trans hafter) hrest

theorem overruns_readAttrs (fuel n : ℕ) (hs : s.Counted) (hfuel : s.argv.length < fuel) :
    Overruns (whileArgs .outOfFuel (fun _ => readAttr) fuel n) s ↔ IntMissing s.argv := by
  induction fuel generalizing n s with
  | zero => cases hfuel
  | succ fuel ih =>
    cases hargv : s.argv with
    | nil =>
      apply iff_of_false (not_overruns_whileArgs ((argc_eq_zero_iff hs).mpr hargv))
      intro h
      cases h with
      | later hafter _ => cases hafter
    | cons type argv =>
      have hc : s.argc ≠ 0 := fun h => by
        rw [(argc_eq_zero_iff hs).mp h] at hargv
        cases hargv
      have hlen : s.argv.length = argv.length + 1 := congrArg List.length hargv
      have hs₁ : (s.drop 1).Counted := counted_drop hs (by omega)
      have hargv₁ : (s.drop 1).argv = argv := congrArg (List.drop 1) hargv
      have hfirst : readAttr s = (if (s.drop 1).argc = 0 then fail (.parserError "%s: Short record")
          else readAttrOf (indexOf type)) (s.drop 1) := by
        unfold readAttr
        rw [bind_ok (arg_eq (by omega)), bind_ok (t := s.drop 1) rfl, bind_ok (t := s.drop 1) rfl]
        simp only [hargv, List.getElem_cons_zero]
      rw [intMissing_cons]
      by_cases hnil : argv = []
      · rw [if_pos ((argc_eq_zero_iff hs₁).mpr (hargv₁.trans hnil))] at hfirst
        apply iff_of_false (not_overruns_whileArgs_fault hc hfirst)
        rintro (⟨-, h⟩ | ⟨h, -⟩)
        · rw [hnil] at h
          cases h
        · exact h hnil
      · rw [if_neg fun h => hnil (hargv₁ ▸ (argc_eq_zero_iff hs₁).mp h)] at hfirst
        have hne : (s.drop 1).argv ≠ [] := fun h => hnil (hargv₁.symm.trans h)
        rcases readAttrOf_run hs₁ hne (indexOf type) with
          ⟨t, hrun, ht, hrest⟩ | ⟨t, hrun, hargc, hnone, htype, hone⟩ | ⟨e, hrun, hrest, hnot⟩
        · rw [hargv₁] at hrest
          have hle := attrRest_length hrest
          rw [overruns_whileArgs_ok hc (hfirst.trans hrun), ih (n + 1) ht (by omega)]
          constructor
          · intro h
            exact .inr ⟨hnil, t.argv, hrest, h⟩
          · rintro (⟨htype, hone⟩ | ⟨-, rest, hrest', h⟩)
            · rw [htype] at hrest
              change (if argv.length < 2 then none else _) = _ at hrest
              rw [if_pos (by omega)] at hrest
              cases hrest
            · rw [hrest] at hrest'
              cases hrest'
              exact h
        · rw [hargv₁] at hone
          apply iff_of_true ?_ (.inl ⟨htype, hone⟩)
          rw [overruns_whileArgs_ok hc (hfirst.trans hrun)]
          -- the next turn reads the type of an attribute that is not there
          obtain ⟨fuel, rfl⟩ : ∃ k, fuel = k + 1 := ⟨fuel - 1, by omega⟩
          have hout : readAttr t = .error .outside := by
            apply bind_error
            unfold arg
            rw [hnone]
            rfl
          unfold Overruns
          rw [whileArgs, bind_ok (t := t) rfl, if_neg hargc, bind_error hout]
          exact .inl rfl
        · rw [hargv₁] at hrest hnot
          apply iff_of_false (not_overruns_whileArgs_fault hc (hfirst.trans hrun))
          rintro (h | ⟨-, rest, h, -⟩)
          · exact hnot h
          · rw [hrest] at h
            cases h

/-- A group that ends with a number that is missing. -/
def AttrShort (argv : List (BitVec 64)) (op : BitVec 32) : Prop :=
  op = 3 ∧ 3 ≤ argv.length ∧ IntMissing (argv.drop 2)

theorem overruns_paramattrGroup (hs : s.Counted) (op : BitVec 32) :
    Overruns (paramattrGroupRecHandler op) s ↔ AttrShort s.argv op := by
  unfold paramattrGroupRecHandler AttrShort
  split
  · rename_i hop
    rw [overruns_argc_bind]
    split
    · rename_i hshort
      rw [hs] at hshort
      exact iff_of_false (not_overruns_fault rfl) fun h => absurd h.2.1 (Nat.not_le.mpr hshort)
    · rename_i hlong
      rw [hs, Nat.not_lt] at hlong
      rw [overruns_arg_bind (by omega), overruns_arg_bind (by omega), overruns_modifyUnit_bind,
        overruns_advance_bind, overruns_argc_bind, overruns_map]
      have hloop : ∀ t : Cursor (List IrAttr), t.Counted → (Overruns (whileArgs .outOfFuel
          (fun _ => readAttr) (t.argc.toNat + 1) 0) t ↔ IntMissing t.argv) := by
        intro t ht
        apply overruns_readAttrs _ 0 ht
        rw [ht]
        exact Nat.lt_succ_self _
      refine (hloop _ ?_).trans ⟨fun h => ⟨hop, hlong, h⟩, fun h => h.2.2⟩
      exact @counted_drop _ { s with unit := _ :: s.unit } 2 hs (Nat.le_of_succ_le hlong)
  · rename_i hop
    exact iff_of_false (not_overruns_fault rfl) fun h => hop h.1

end

end Vmir.RecordBounds
