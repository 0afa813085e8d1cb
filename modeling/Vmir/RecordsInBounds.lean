import Vmir.InstrOverruns

set_option autoImplicit false

/-!
# Records are read in bounds

Exactly when a handler reads no operand that its record does not have, for records with and without
an abbreviation.
-/
namespace Vmir.RecordsInBounds
open Ir InstrParse OperandReads RecordHandlers RecordBounds InstrBounds InstrOverruns
open GlobalInit (Constants)

/-- No operand is read that is not there, and no assertion finds the record too short. -/
def InBounds {υ : Type} (r : Except (Stop Fault) (Unit × Cursor υ)) : Prop :=
  r ≠ .error .outside ∧ r ≠ .error .assertArgc

/-! ## Function records -/

section
variable {s : Cursor FunctionUnit} {depth : ℕ}

theorem overruns_declareBlocks (hs : s.Counted) :
    Overruns declareBlocks s ↔ s.unit.bbs = [] ∧ s.argv = [] := by
  unfold declareBlocks
  rw [overruns_getUnit_bind]
  split
  · rename_i hbbs
    exact iff_of_false (not_overruns_fault rfl) fun h => hbbs h.1
  · rename_i hbbs
    rw [overruns_arg_bounded hs fun a => bounded_ite (bounded_fail _)
      (bounded_ite (bounded_fail _) (bounded_modifyUnit _)), Nat.le_zero, List.length_eq_zero_iff]
    exact (and_iff_right (not_ne_iff.mp hbbs)).symm

theorem overruns_functionRec (hs : s.Counted) (code : FunctionCode) :
    Overruns (functionRec depth code) s ↔ InstrShort s.unit s.argv code := by
  cases code with
  | declareblocks => exact overruns_declareBlocks hs
  | instRet => exact overruns_nextBb.trans (overruns_parseRet hs)
  | instBinop => exact overruns_parseBinop hs
  | instCast => exact overruns_parseCast hs
  | instLoad => exact overruns_parseLoad hs
  | instLoadatomic => exact overruns_parseLoad hs
  | instStoreOld => exact overruns_parseStore_old hs
  | instStoreatomicOld => exact overruns_parseStore_old hs
  | instStore => exact overruns_parseStore hs
  | instStoreatomic => exact overruns_parseStore hs
  | instInsertval => exact overruns_parseInsertval hs
  | instGepOld => exact overruns_parseGep_old hs
  | instInboundsGepOld => exact overruns_parseGep_old hs
  | instGep => exact overruns_parseGep hs
  | instCmp2 => exact overruns_parseCmp2 hs
  | instCall => exact overruns_parseCall hs
  | instInvoke => exact overruns_nextBb.trans (overruns_parseInvoke hs)
  | instVselect => exact overruns_parseVselect hs
  | instVaarg => exact overruns_parseVaarg hs
  | instExtractval => exact overruns_parseExtractval hs
  | instLandingpadOld => exact overruns_parseLandingpad_old hs
  | instResume => exact overruns_nextBb.trans (overruns_parseResume hs)
  | instBr => exact iff_of_false (fun h => bounded_parseBr.safe s hs (overruns_nextBb.mp h)) fun h => h
  | instSwitch =>
    exact iff_of_false (fun h => bounded_parseSwitch.safe s hs (overruns_nextBb.mp h)) fun h => h
  | instUnreachable =>
    exact iff_of_false (fun h => bounded_parseUnreachable.safe s hs (overruns_nextBb.mp h))
      fun h => h
  | instPhi => exact iff_of_false (bounded_parsePhi.safe s hs) fun h => h
  | instAlloca => exact iff_of_false (not_overruns_parseAlloca hs) fun h => h
  | instLandingpad => exact iff_of_false (bounded_parseLandingpad.safe s hs) fun h => h

end

/-! ## All records -/

section
variable {υ κ : Type}

theorem inBounds_call {m : Parse Fault υ Unit} {s : Cursor υ} : InBounds (m s) ↔ ¬ Overruns m s := by
  unfold InBounds Overruns
  rw [not_or]

theorem inBounds_coded {m : Parse Fault υ Unit} {codeOf : Option κ} {Short : κ → Prop} {s : Cursor υ}
    (hsome : ∀ code, codeOf = some code → (Overruns m s ↔ Short code))
    (hnone : codeOf = none → ¬ Overruns m s) :
    InBounds (m s) ↔ ∀ code, codeOf = some code → ¬ Short code := by
  rw [inBounds_call]
  cases hcode : codeOf with
  | none => exact iff_of_true (hnone hcode) nofun
  | some code =>
    rw [hsome code hcode]
    constructor
    · rintro h code' heq
      cases heq
      exact h
    · exact fun h => h code rfl

theorem not_overruns_unknown {s : Cursor υ} (hs : s.Counted) (e : Fault) :
    ¬ Overruns (printargs >>= fun _ => fail e : Parse Fault υ Unit) s :=
  (bounded_bind bounded_printargs fun _ => bounded_fail e).safe s hs

variable {argv : List (BitVec 64)}

theorem module_inBounds (depth : ℕ) (u : ModuleUnit) (op : BitVec 32) (h : argv.length < 2 ^ 32) :
    InBounds (callUnabbrev (moduleRecHandler depth) u op argv)
      ↔ ∀ code, moduleCodeOf op = some code → ¬ ModuleShort argv code := by
  have hs := counted_start u h
  apply inBounds_coded
  · intro code hcode
    unfold moduleRecHandler
    rw [hcode]
    exact overruns_moduleRec hs code
  · intro hcode
    unfold moduleRecHandler
    rw [hcode]
    exact not_overruns_unknown hs _

theorem types_inBounds (u : TypesUnit) (op : BitVec 32) (h : argv.length < 2 ^ 32) :
    InBounds (callUnabbrev typesNewRecHandler u op argv) ↔ (u.typesCreated = false →
      ∀ code, typeRecordOf op = some code → ¬ TypeShort argv code) := by
  have hs := counted_start u h
  by_cases hcreated : u.typesCreated = true
  · have hrun : callUnabbrev typesNewRecHandler u op argv = .error (.fault .abort) := by
      unfold callUnabbrev typesNewRecHandler
      rw [bind_ok (t := start u argv) rfl]
      exact congrFun (if_pos hcreated) _
    rw [hrun]
    apply iff_of_true ⟨nofun, nofun⟩
    intro hfalse
    rw [hcreated] at hfalse
    cases hfalse
  · rw [imp_iff_right (Bool.eq_false_iff.mpr hcreated)]
    apply inBounds_coded
    · intro code hcode
      unfold typesNewRecHandler
      rw [overruns_getUnit_bind, hcode]
      change Overruns (if u.typesCreated = true then _ else typeRec code) _ ↔ _
      rw [if_neg hcreated]
      exact overruns_typeRec hs code
    · intro hcode
      unfold typesNewRecHandler
      rw [overruns_getUnit_bind, hcode]
      change ¬ Overruns (if u.typesCreated = true then _ else printargs >>= fun _ => fail _) _
      rw [if_neg hcreated]
      exact not_overruns_unknown hs _

theorem constants_inBounds (u : Constants) (op : BitVec 32) (h : argv.length < 2 ^ 32) :
    InBounds (callUnabbrev constantsRecHandler u op argv)
      ↔ ∀ code, constCodeOf op = some code → ¬ ConstantShort argv code := by
  have hs := counted_start u h
  apply inBounds_coded
  · intro code hcode
    unfold constantsRecHandler
    rw [hcode]
    exact overruns_constantsRec hs code
  · intro hcode
    unfold constantsRecHandler
    rw [hcode]
    exact not_overruns_fault rfl

theorem function_inBounds (depth : ℕ) (u : FunctionUnit) (op : BitVec 32)
    (h : argv.length < 2 ^ 32) : InBounds (callUnabbrev (functionRecHandler depth) u op argv)
      ↔ ∀ code, functionCodeOf op = some code → ¬ InstrShort u argv code := by
  have hs := counted_start u h
  apply inBounds_coded
  · intro code hcode
    unfold functionRecHandler
    rw [hcode]
    exact overruns_functionRec hs code
  · intro hcode
    unfold functionRecHandler
    rw [hcode]
    exact not_overruns_unknown hs _

theorem group_inBounds (u : List IrAttr) (op : BitVec 32) (h : argv.length < 2 ^ 32) :
    InBounds (callUnabbrev paramattrGroupRecHandler u op argv) ↔ ¬ AttrShort argv op := by
  unfold callUnabbrev
  rw [inBounds_call, overruns_paramattrGroup (counted_start u h)]
  rfl

theorem abbrev_inBounds (rh : BitVec 32 → Parse Fault υ Unit) (u : υ) (values : List (BitVec 64)) :
    InBounds (callAbbrev rh u values) ↔ ∃ code argv, values = code :: argv
      ∧ InBounds (callUnabbrev rh u (code.setWidth 32) argv) := by
  cases values with
  | nil => exact iff_of_false (fun h => h.1 rfl) (by rintro ⟨code, argv, h, -⟩; cases h)
  | cons code argv =>
    have hcount : BitVec.ofNat 32 (code :: argv).length - 1 = BitVec.ofNat 32 argv.length := by
      rw [List.length_cons, BitVec.ofNat_add]
      exact BitVec.add_sub_cancel _ _
    have hcall : callAbbrev rh u (code :: argv) = callUnabbrev rh u (code.setWidth 32) argv := by
      unfold callAbbrev callUnabbrev start
      simp only [hcount]
    rw [hcall]
    constructor
    · exact fun h => ⟨code, argv, rfl, h⟩
    · rintro ⟨code', argv', heq, h⟩
      cases heq
      exact h

/-- The records that are read in bounds: all but those that are too short for an operand that their
code reads unasked, and those of an abbreviation that have no code. -/
theorem records_inBounds_iff (depth : ℕ) :
    (∀ (op : BitVec 32) (argv : List (BitVec 64)), argv.length < 2 ^ 32 →
      (∀ u : ModuleUnit, InBounds (callUnabbrev (moduleRecHandler depth) u op argv)
        ↔ ∀ code, moduleCodeOf op = some code → ¬ ModuleShort argv code)
      ∧ (∀ u : List IrAttr, InBounds (callUnabbrev paramattrGroupRecHandler u op argv)
        ↔ ¬ AttrShort argv op)
      ∧ (∀ u : TypesUnit, InBounds (callUnabbrev typesNewRecHandler u op argv)
        ↔ (u.typesCreated = false → ∀ code, typeRecordOf op = some code → ¬ TypeShort argv code))
      ∧ (∀ u : Constants, InBounds (callUnabbrev constantsRecHandler u op argv)
        ↔ ∀ code, constCodeOf op = some code → ¬ ConstantShort argv code)
      ∧ ∀ u : FunctionUnit, InBounds (callUnabbrev (functionRecHandler depth) u op argv)
        ↔ ∀ code, functionCodeOf op = some code → ¬ InstrShort u argv code)
    ∧ ∀ (υ : Type) (rh : BitVec 32 → Parse Fault υ Unit) (u : υ) (values : List (BitVec 64)),
      InBounds (callAbbrev rh u values) ↔ ∃ code argv, values = code :: argv
        ∧ InBounds (callUnabbrev rh u (code.setWidth 32) argv) := by
  refine ⟨fun op argv h => ⟨?_, ?_, ?_, ?_, ?_⟩, fun υ => abbrev_inBounds⟩
  · exact fun u => module_inBounds depth u op h
  · exact fun u => group_inBounds u op h
  · exact fun u => types_inBounds u op h
  · exact fun u => constants_inBounds u op h
  · exact fun u => function_inBounds depth u op h

end

/-! ## Short records -/

def noTypes : TypesUnit := ⟨[], false, none⟩

def oneBlock : FunctionUnit where
  iu := ⟨[], [], fun _ => 0⟩
  ahead := []
  aliasReg := fun _ => 0
  functions := []
  attrsets := []
  bbs := [[]]
  currentBb := some 0

def noConstants : Constants := ⟨⟨[.int32], [], fun _ => 0⟩, 0, fun _ => [], fun _ => [], fun _ => none⟩

/-- The type i32, and the return of the first value with its type, with and without an abbreviation. -/
theorem complete_inBounds : InBounds (callUnabbrev typesNewRecHandler noTypes 7 [32])
    ∧ InBounds (callUnabbrev (functionRecHandler 0) oneBlock 10 [0, 0])
    ∧ InBounds (callAbbrev (functionRecHandler 0) oneBlock [10, 0, 0]) := by
  obtain ⟨hcall, habbrev⟩ := records_inBounds_iff 0
  have htypes := (hcall 7 [32] (by decide)).2.2.1 noTypes
  have hret := (hcall 10 [0, 0] (by decide)).2.2.2.2 oneBlock
  have hboth : InBounds (callUnabbrev (functionRecHandler 0) oneBlock 10 [0, 0]) := by
    apply hret.mpr
    intro code hcode
    cases hcode
    rintro ⟨-, a, h, -⟩
    cases h
  refine ⟨htypes.mpr ?_, hboth, (habbrev _ _ _ _).mpr ⟨10, [0, 0], rfl, hboth⟩⟩
  intro _ code hcode
  cases hcode
  exact nofun

/-- An integer type without a width, the return of a value without its type, a constant without a
value, and a record of an abbreviation without operands. -/
theorem short_outside : callUnabbrev typesNewRecHandler noTypes 7 [] = .error .outside
    ∧ callUnabbrev (functionRecHandler 0) oneBlock 10 [0] = .error .outside
    ∧ callUnabbrev constantsRecHandler noConstants 4 [] = .error .assertArgc
    ∧ callAbbrev typesNewRecHandler noTypes [] = .error .outside
    ∧ ¬ InBounds (callUnabbrev typesNewRecHandler noTypes 7 []) :=
  ⟨rfl, rfl, rfl, rfl, fun h => h.1 rfl⟩

end Vmir.RecordsInBounds
