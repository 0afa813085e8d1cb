import Vmir.RecordBounds

set_option autoImplicit false

/-!
# Which instruction records are read out of bounds

A value that is not below `iu_next_value` has its type behind it, which is read unasked.
-/
namespace Vmir.InstrBounds
open Ir IrTypes TypeLayout GlobalInit InstrParse OperandReads
open RecordBounds (bounded_printargs)

/-! ## The condition -/

section
variable (next : BitVec 32)

/-- The value is one below `iu_next_value`. -/
def Backward (a : BitVec 64) : Prop := (next - a.setWidth 32).toNat < next.toNat

instance (a : BitVec 64) : Decidable (Backward next a) := Nat.decLt _ _

/-- The only operand is a value that needs a type. -/
def Dangling (argv : List (BitVec 64)) : Prop := ∃ a, argv = [a] ∧ ¬ Backward next a

/-- What is behind the type of a value, if it is there and the table can be made so long. -/
def afterType (a : BitVec 64) : List (BitVec 64) → Option (List (BitVec 64))
  | [] => none
  | _ :: argv => if 2 ^ 31 ≤ (next - a.setWidth 32).toNat + 1 then none else some argv

/-- What is behind a value and its type, if they are there and there are not too many operands. -/
def afterVtp : List (BitVec 64) → Option (List (BitVec 64))
  | [] => none
  | a :: argv =>
    if 2 ^ 31 ≤ argv.length + 1 then none
    else if Backward next a then some argv
    else afterType next a argv

/-- The operands are values, and the last one needs a type that is not there. -/
inductive VtpsDangle : List (BitVec 64) → Prop
  | last {argv : List (BitVec 64)} (h : Dangling next argv) : VtpsDangle argv
  | later {argv rest : List (BitVec 64)} (h : afterVtp next argv = some rest)
      (hrest : VtpsDangle rest) : VtpsDangle argv

end

section
variable (u : FunctionUnit)

/-- The value that the first operands stand for, and the unit that knows its type. -/
def mention : List (BitVec 64) → ValueType × FunctionUnit
  | [] => (⟨0, 0⟩, u)
  | a :: argv =>
    let val := (u.nextValue - a.setWidth 32).toNat
    if Backward u.nextValue a then (⟨val, ((u.iu.values[val]?).map Value.type).getD 0⟩, u)
    else (⟨val, indexOf (argv.headD 0)⟩, u.declareValue val (indexOf (argv.headD 0)))

def calleeOperands (invoke : Bool) (argv : List (BitVec 64)) :
    Option (BitVec 32 × List (BitVec 64)) :=
  match invoke, argv with
  | false, _ :: cc :: argv =>
    some (cc.setWidth 32, if cc.setWidth 32 &&& 0x8000 ≠ (0 : BitVec 32) then argv.drop 1 else argv)
  | true, _ :: cc :: _ :: _ :: argv =>
    some (cc.setWidth 32, if cc.setWidth 32 &&& 0x2000 ≠ (0 : BitVec 32) then argv.drop 1 else argv)
  | _, _ => none

/-- The callee needs a type, or one of the arguments behind those for the parameters does. -/
def CalleeShort (cc : BitVec 32) (rest : List (BitVec 64)) : Prop :=
  Dangling u.nextValue rest ∨ ∃ args callee returnType parameters,
    afterVtp u.nextValue rest = some args
      ∧ calleeOf (mention u rest).2 (mention u rest).1 cc
        = .ok (some (callee, returnType, parameters))
      ∧ VtpsDangle u.nextValue (args.drop parameters.length)

def CallShort (invoke : Bool) (argv : List (BitVec 64)) : Prop :=
  argv.length < 2 ^ 31 ∧ ∃ cc rest, calleeOperands invoke argv = some (cc, rest)
    ∧ CalleeShort u cc rest

def InBlock : Prop := u.currentBb ≠ none

/-- The records of which an operand is read that is not there. -/
def InstrShort (argv : List (BitVec 64)) : FunctionCode → Prop
  | .declareblocks => u.bbs = [] ∧ argv = []
  | .instRet | .instBinop | .instCast | .instLoad | .instLoadatomic | .instStoreOld
  | .instStoreatomicOld | .instCmp2 | .instResume => InBlock u ∧ Dangling u.nextValue argv
  | .instExtractval => Dangling u.nextValue argv
  | .instStore | .instStoreatomic => InBlock u ∧ (Dangling u.nextValue argv
    ∨ ∃ rest, afterVtp u.nextValue argv = some rest ∧ Dangling u.nextValue rest)
  | .instInsertval => Dangling u.nextValue argv
    ∨ ∃ rest, afterVtp u.nextValue argv = some rest ∧ Dangling u.nextValue rest
  | .instVselect => InBlock u ∧ (Dangling u.nextValue argv
    ∨ ∃ rest, afterVtp u.nextValue argv = some rest ∧ Dangling u.nextValue (rest.drop 1))
  | .instInboundsGepOld | .instGepOld => VtpsDangle u.nextValue argv
  | .instGep => VtpsDangle u.nextValue (argv.drop 2)
  | .instVaarg => InBlock u ∧ argv = []
  | .instLandingpadOld => Dangling u.nextValue (argv.drop 1)
  | .instCall => CallShort u false argv
  | .instInvoke => CallShort u true argv
  | .instBr | .instSwitch | .instUnreachable | .instPhi | .instAlloca | .instLandingpad => False

end

/-! ## Operands -/

section
variable {s t : Cursor FunctionUnit} {α : Type}

theorem toInt_lt_one (hs : s.Counted) :
    s.argc.toInt < 1 ↔ s.argv = [] ∨ 2 ^ 31 ≤ s.argv.length := by
  rw [RecordBounds.argc_toInt hs, ← List.length_eq_zero_iff]
  have hlt := s.argc.isLt
  rw [hs] at hlt
  split <;> omega

theorem taken {e : Fault} {f : BitVec 64 → Handler α} (hs : s.Counted) :
    (∃ a argv, s.argv = a :: argv ∧ s.argv.length < 2 ^ 31 ∧ (s.drop 1).Counted
      ∧ (s.drop 1).argv = argv
      ∧ (argc >>= fun c => if c.toInt < 1 then fail e else arg 0 >>= fun a =>
        advance 1 >>= fun _ => f a) s = f a (s.drop 1))
    ∨ (s.argv = [] ∨ 2 ^ 31 ≤ s.argv.length)
      ∧ (argc >>= fun c => if c.toInt < 1 then fail e else arg 0 >>= fun a =>
        advance 1 >>= fun _ => f a) s = .error (.fault e) := by
  rw [bind_ok (t := s) rfl]
  by_cases hc : s.argc.toInt < 1
  · rw [if_pos hc]
    exact .inr ⟨(toInt_lt_one hs).mp hc, rfl⟩
  · rw [if_neg hc]
    rw [toInt_lt_one hs, not_or, Nat.not_le] at hc
    obtain ⟨a, argv, hargv⟩ := List.exists_cons_of_ne_nil hc.1
    have hpos := List.length_pos_of_ne_nil hc.1
    refine .inl ⟨a, argv, hargv, hc.2, counted_drop hs hpos, congrArg (List.drop 1) hargv, ?_⟩
    rw [bind_ok (arg_eq hpos), bind_ok (t := s.drop 1) rfl]
    simp only [hargv, List.getElem_cons_zero]

theorem instrGetValue_taken (type : ℕ) (hs : s.Counted) :
    (∃ a argv v, s.argv = a :: argv ∧ (s.drop 1).Counted ∧ (s.drop 1).argv = argv
      ∧ instrGetValue type s = .ok (v, s.drop 1))
    ∨ (s.argv = [] ∨ 2 ^ 31 ≤ s.argv.length)
      ∧ instrGetValue type s = .error (.fault (.parserError "Missing value code")) := by
  rcases taken (e := .parserError "Missing value code") (f := fun a => getUnit >>= fun u =>
      pure (⟨(u.nextValue - a.setWidth 32).toNat, type⟩ : ValueType)) hs with
    ⟨a, argv, hargv, -, hdrop, hrest, hrun⟩ | h
  · exact .inl ⟨a, argv, _, hargv, hdrop, hrest, hrun⟩
  · exact .inr h

theorem bounded_taken {e : Fault} {f : BitVec 64 → Handler α} (hf : ∀ a, Bounded (f a)) :
    Bounded (argc >>= fun c => if c.toInt < 1 then fail e else arg 0 >>= fun a =>
      advance 1 >>= fun _ => f a) := by
  constructor
  · intro s b t hs h
    rcases taken (e := e) (f := f) hs with ⟨a, argv, -, -, hdrop, -, hrun⟩ | ⟨-, hrun⟩
    · rw [hrun] at h
      exact (hf a).keeps _ _ _ hdrop h
    · rw [hrun] at h
      cases h
  · intro s hs
    rcases taken (e := e) (f := f) hs with ⟨a, argv, -, -, hdrop, -, hrun⟩ | ⟨-, hrun⟩
    · unfold Overruns
      rw [hrun]
      exact (hf a).safe _ hdrop
    · exact not_overruns_fault hrun

theorem bounded_instrGetValue (type : ℕ) : Bounded (instrGetValue type) :=
  bounded_taken fun _ => bounded_bind bounded_getUnit fun _ => bounded_pure _

theorem bounded_instrGetValueSigned (type : ℕ) : Bounded (instrGetValueSigned type) :=
  bounded_taken fun _ => bounded_bind bounded_getUnit fun _ => bounded_pure _

theorem bounded_instrGetUint : Bounded instrGetUint := bounded_taken fun _ => bounded_pure _

theorem bounded_instrAdd : Bounded instrAdd := by
  apply bounded_bind bounded_getUnit
  intro u
  cases u.currentBb with
  | none => exact bounded_fail _
  | some k => exact bounded_pure _

theorem bounded_instrSet (i : ParsedInstr) : Bounded (instrSet i) := bounded_modifyUnit _

theorem bounded_valueAllocInstrRet (type : ℕ) (i : ParsedInstr) :
    Bounded (valueAllocInstrRet type i) := bounded_modifyUnit _

theorem not_overruns_nextBb : ¬ Overruns nextBb s := by
  unfold nextBb
  rw [overruns_getUnit_bind]
  cases s.unit.currentBb with
  | none => exact not_overruns_fault rfl
  | some k => exact not_overruns_of_ok rfl

theorem overruns_nextBb {m : Handler Unit} : Overruns (m >>= fun _ => nextBb) s ↔ Overruns m s := by
  rw [overruns_bind]
  constructor
  · rintro (h | ⟨a, t, -, h⟩)
    · exact h
    · exact absurd h not_overruns_nextBb
  · exact .inl

theorem overruns_instrAdd {f : Unit → Handler α} :
    Overruns (instrAdd >>= f) s ↔ InBlock s.unit ∧ Overruns (f ()) s := by
  unfold InBlock
  cases hb : s.unit.currentBb with
  | none =>
    apply iff_of_false ?_ fun h => h.1 rfl
    apply not_overruns_fault (bind_error (e := .fault .nullDeref) _)
    unfold instrAdd
    rw [bind_ok (t := s) rfl]
    simp only [hb]
    rfl
  | some k =>
    have hrun : instrAdd s = .ok ((), s) := by
      unfold instrAdd
      rw [bind_ok (t := s) rfl]
      simp only [hb]
      rfl
    rw [overruns_bind_ok hrun]
    exact (and_iff_right (by simp)).symm

/-! ## A value and its type -/

/-- What reading a value and its type comes to. -/
inductive VtpOutcome (s : Cursor FunctionUnit) : Prop
  | read (v : ValueType) (t : Cursor FunctionUnit) (hrun : instrGetVtp s = .ok (v, t))
      (ht : t.Counted) (hafter : afterVtp s.unit.nextValue s.argv = some t.argv)
      (hunit : mention s.unit s.argv = (v, t.unit))
  | dangling (hrun : instrGetVtp s = .error .outside) (h : Dangling s.unit.nextValue s.argv)
  | fault (e : Fault) (hrun : instrGetVtp s = .error (.fault e))
      (hafter : afterVtp s.unit.nextValue s.argv = none) (h : ¬ Dangling s.unit.nextValue s.argv)

theorem valueGet_backward (u : FunctionUnit) {val : ℕ} (h : val < u.nextValue.toNat) :
    ∃ iv, u.valueGet val = .ok iv ∧ u.iu.values[val]? = some iv := by
  have hlt : val < u.iu.values.length := by
    apply Nat.lt_of_lt_of_le h
    unfold FunctionUnit.nextValue
    rw [BitVec.toNat_ofNat]
    exact Nat.mod_le _ _
  refine ⟨u.iu.values[val], ?_, List.getElem?_eq_getElem hlt⟩
  unfold FunctionUnit.valueGet IrTypes.valueGet
  rw [if_pos hlt, List.getElem?_eq_getElem hlt]

theorem afterVtp_cons (next : BitVec 32) (a : BitVec 64) (argv : List (BitVec 64)) :
    afterVtp next (a :: argv) = if 2 ^ 31 ≤ argv.length + 1 then none
      else if Backward next a then some argv else afterType next a argv := rfl

theorem dangling_afterVtp {next : BitVec 32} {argv : List (BitVec 64)} (h : Dangling next argv) :
    afterVtp next argv = none := by
  obtain ⟨a, rfl, hback⟩ := h
  rw [afterVtp_cons, List.length_nil, if_neg (by decide), if_neg hback]
  rfl

theorem not_dangling_nil (next : BitVec 32) : ¬ Dangling next [] := by
  rintro ⟨a, h, -⟩
  cases h

theorem vtpOutcome (hs : s.Counted) : VtpOutcome s := by
  by_cases hc : s.argc.toInt < 1
  · have hrun : instrGetVtp s = .error (.fault (.parserError "Missing value code")) := by
      unfold instrGetVtp
      rw [bind_ok (t := s) rfl, if_pos hc]
      rfl
    rcases (toInt_lt_one hs).mp hc with hnil | hbig
    · refine .fault _ hrun ?_ ?_
      · rw [hnil]
        rfl
      · rw [hnil]
        exact not_dangling_nil _
    · refine .fault _ hrun ?_ ?_
      · cases hargv : s.argv with
        | nil => rfl
        | cons a argv =>
          rw [hargv] at hbig
          exact if_pos hbig
      · rintro ⟨a, ha, -⟩
        rw [ha, List.length_singleton] at hbig
        exact absurd hbig (by decide)
  · have hlong := hc
    rw [toInt_lt_one hs, not_or, Nat.not_le] at hlong
    obtain ⟨a, argv, hargv⟩ := List.exists_cons_of_ne_nil hlong.1
    have hlen : s.argv.length = argv.length + 1 := congrArg List.length hargv
    have hdrop : (s.drop 1).Counted := counted_drop hs (by omega)
    let val := (s.unit.nextValue - a.setWidth 32).toNat
    have hrun : instrGetVtp s = (if Backward s.unit.nextValue a then do
        advance 1
        let iv ← lift (s.unit.valueGet val)
        pure ⟨val, iv.type⟩
      else do
        let type ← arg 1
        if 2 ^ 31 ≤ val + 1 then fail .nullDeref
        else do
          modifyUnit fun u => u.declareValue val (indexOf type)
          advance 2
          pure ⟨val, indexOf type⟩ : Handler ValueType) s := by
      unfold instrGetVtp
      rw [bind_ok (t := s) rfl, if_neg hc, bind_ok (arg_eq (by omega)), bind_ok (t := s) rfl]
      simp only [hargv, List.getElem_cons_zero]
      rfl
    have hafter : afterVtp s.unit.nextValue s.argv
        = if Backward s.unit.nextValue a then some argv else afterType s.unit.nextValue a argv := by
      rw [hargv]
      exact if_neg (by omega)
    by_cases hback : Backward s.unit.nextValue a
    · obtain ⟨iv, hiv, hget⟩ := valueGet_backward s.unit hback
      rw [if_pos hback] at hrun hafter
      refine .read ⟨val, iv.type⟩ (s.drop 1) ?_ hdrop ?_ ?_
      · rw [hrun, bind_ok (t := s.drop 1) rfl, hiv]
        rfl
      · rw [hafter]
        exact congrArg some (congrArg (List.drop 1) hargv).symm
      · have hvalue : mention s.unit (a :: argv)
            = (⟨val, ((s.unit.iu.values[val]?).map Value.type).getD 0⟩, s.unit) := if_pos hback
        rw [hargv, hvalue, hget]
        rfl
    · rw [if_neg hback] at hrun hafter
      cases argv with
      | nil =>
        refine .dangling ?_ ⟨a, hargv, hback⟩
        rw [hrun]
        apply bind_error
        unfold arg
        rw [hargv]
        rfl
      | cons type argv =>
        have hnot : ¬ Dangling s.unit.nextValue s.argv := by
          rintro ⟨b, hb, -⟩
          rw [hargv] at hb
          cases hb
        rw [bind_ok (arg_eq (by rw [hargv]; exact Nat.one_lt_succ_succ _))] at hrun
        simp only [hargv, List.getElem_cons_succ, List.getElem_cons_zero] at hrun
        by_cases hbig : 2 ^ 31 ≤ val + 1
        · rw [if_pos hbig] at hrun
          refine .fault _ hrun ?_ hnot
          rw [hafter]
          exact if_pos hbig
        · rw [if_neg hbig] at hrun
          let t : Cursor FunctionUnit :=
            Cursor.drop { s with unit := s.unit.declareValue val (indexOf type) } 2
          refine .read ⟨val, indexOf type⟩ t hrun ?_ ?_ ?_
          · apply @counted_drop _ { s with unit := s.unit.declareValue val (indexOf type) } 2 hs
            change 2 ≤ s.argv.length
            rw [hargv]
            exact Nat.le_add_left 2 _
          · rw [hafter]
            change (if 2 ^ 31 ≤ val + 1 then none else some argv) = some (s.argv.drop 2)
            rw [if_neg hbig, hargv]
            rfl
          · rw [hargv]
            exact if_neg hback

theorem keeps_vtp : Keeps instrGetVtp := by
  intro s v t hs h
  cases vtpOutcome hs with
  | read v' t' hrun ht hafter hunit =>
    rw [hrun] at h
    cases h
    exact ht
  | dangling hrun _ =>
    rw [hrun] at h
    cases h
  | fault e hrun _ _ =>
    rw [hrun] at h
    cases h

theorem overruns_vtp (hs : s.Counted) :
    Overruns instrGetVtp s ↔ Dangling s.unit.nextValue s.argv := by
  cases vtpOutcome hs with
  | read v t hrun ht hafter hunit =>
    apply iff_of_false (not_overruns_of_ok hrun)
    intro h
    rw [dangling_afterVtp h] at hafter
    cases hafter
  | dangling hrun h => exact iff_of_true (.inl hrun) h
  | fault e hrun _ h => exact iff_of_false (not_overruns_fault hrun) h

theorem mention_unit (u : FunctionUnit) (argv : List (BitVec 64)) :
    (mention u argv).2.nextValue = u.nextValue ∧ (mention u argv).2.currentBb = u.currentBb := by
  cases argv with
  | nil => exact ⟨rfl, rfl⟩
  | cons a argv =>
    unfold mention
    simp only
    split <;> exact ⟨rfl, rfl⟩

theorem overruns_vtp_bind (hs : s.Counted) {f : ValueType → Handler α} :
    Overruns (instrGetVtp >>= f) s ↔ Dangling s.unit.nextValue s.argv
      ∨ ∃ rest, afterVtp s.unit.nextValue s.argv = some rest
        ∧ Overruns (f (mention s.unit s.argv).1) (start (mention s.unit s.argv).2 rest) := by
  rw [overruns_bind, overruns_vtp hs]
  apply or_congr_right
  cases vtpOutcome hs with
  | read v t hrun ht hafter hunit =>
    rw [hrun, hafter, hunit]
    constructor
    · rintro ⟨v', t', h, hf⟩
      cases h
      exact ⟨t.argv, rfl, eq_start ht ▸ hf⟩
    · rintro ⟨rest, h, hf⟩
      cases h
      exact ⟨v, t, rfl, (eq_start ht).symm ▸ hf⟩
  | dangling hrun h =>
    apply iff_of_false
    · rintro ⟨v, t, hok, -⟩
      rw [hrun] at hok
      cases hok
    · rintro ⟨rest, hafter, -⟩
      rw [dangling_afterVtp h] at hafter
      cases hafter
  | fault e hrun hafter _ =>
    apply iff_of_false
    · rintro ⟨v, t, h, -⟩
      rw [hrun] at h
      cases h
    · rintro ⟨rest, h, -⟩
      rw [hafter] at h
      cases h

theorem afterVtp_length {next : BitVec 32} {argv rest : List (BitVec 64)}
    (h : afterVtp next argv = some rest) : rest.length < argv.length := by
  cases argv with
  | nil => cases h
  | cons a argv =>
    rw [afterVtp_cons] at h
    by_cases hbig : 2 ^ 31 ≤ argv.length + 1
    · rw [if_pos hbig] at h
      cases h
    rw [if_neg hbig] at h
    by_cases hback : Backward next a
    · rw [if_pos hback] at h
      cases h
      exact Nat.lt_succ_self _
    rw [if_neg hback] at h
    cases argv with
    | nil => cases h
    | cons type argv =>
      change (if _ then none else some argv) = some rest at h
      by_cases hval : 2 ^ 31 ≤ (next - a.setWidth 32).toNat + 1
      · rw [if_pos hval] at h
        cases h
      · rw [if_neg hval] at h
        cases h
        exact Nat.lt_succ_of_lt (Nat.lt_succ_self _)

theorem counted_after (hs : s.Counted) {u : FunctionUnit} {rest : List (BitVec 64)}
    (h : afterVtp s.unit.nextValue s.argv = some rest) : (start u rest).Counted :=
  counted_start u (Nat.lt_trans (afterVtp_length h) (length_lt hs))

theorem overruns_vtp_bounded (hs : s.Counted) {f : ValueType → Handler α}
    (hf : ∀ v, Bounded (f v)) :
    Overruns (instrGetVtp >>= f) s ↔ Dangling s.unit.nextValue s.argv := by
  rw [overruns_bind_bounded hs keeps_vtp hf, overruns_vtp hs]

theorem overruns_vtp_vtp (hs : s.Counted) {f : ValueType → ValueType → Handler α}
    (hf : ∀ v w, Bounded (f v w)) :
    Overruns (instrGetVtp >>= fun v => instrGetVtp >>= f v) s ↔ Dangling s.unit.nextValue s.argv
      ∨ ∃ rest, afterVtp s.unit.nextValue s.argv = some rest
        ∧ Dangling s.unit.nextValue rest := by
  rw [overruns_vtp_bind hs]
  apply or_congr_right
  apply exists_congr
  intro rest
  apply and_congr_right
  intro h
  rw [overruns_vtp_bounded (counted_after hs h) (hf _)]
  change Dangling (mention s.unit s.argv).2.nextValue rest ↔ _
  rw [(mention_unit s.unit s.argv).1]

end

end Vmir.InstrBounds
