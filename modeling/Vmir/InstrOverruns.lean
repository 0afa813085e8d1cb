import Vmir.InstrBounds

set_option autoImplicit false

/-!
# The parse functions out of bounds

For each instruction, the records of which an operand is read that is not there.
-/
namespace Vmir.InstrOverruns
open Ir IrTypes TypeLayout GlobalInit InstrParse OperandReads InstrBounds

section
variable {s : Cursor FunctionUnit} {depth : ℕ}

theorem bounded_parseUnreachable : Bounded parseUnreachable :=
  bounded_bind bounded_instrAdd fun _ => bounded_instrSet _

theorem overruns_parseRet (hs : s.Counted) :
    Overruns parseRet s ↔ InBlock s.unit ∧ Dangling s.unit.nextValue s.argv := by
  unfold parseRet
  rw [overruns_instrAdd, overruns_argc_bind]
  apply and_congr_right
  intro _
  split
  · rename_i hc
    apply iff_of_false ((bounded_instrSet _).safe s hs)
    rw [(argc_eq_zero_iff hs).mp hc]
    exact not_dangling_nil _
  · exact overruns_vtp_bounded hs fun _ => bounded_instrSet _

theorem overruns_parseBinop (hs : s.Counted) :
    Overruns parseBinop s ↔ InBlock s.unit ∧ Dangling s.unit.nextValue s.argv := by
  unfold parseBinop
  rw [overruns_instrAdd, overruns_vtp_bounded hs fun v =>
    bounded_bind (bounded_instrGetValue v.type) fun _ => bounded_bind bounded_instrGetUint fun _ =>
      bounded_valueAllocInstrRet _ _]

theorem overruns_parseCast (hs : s.Counted) :
    Overruns parseCast s ↔ InBlock s.unit ∧ Dangling s.unit.nextValue s.argv := by
  unfold parseCast
  rw [overruns_instrAdd, overruns_vtp_bounded hs fun v =>
    bounded_bind bounded_instrGetUint fun _ => bounded_bind bounded_instrGetUint fun _ =>
      bounded_valueAllocInstrRet _ _]

theorem overruns_parseCmp2 (hs : s.Counted) :
    Overruns parseCmp2 s ↔ InBlock s.unit ∧ Dangling s.unit.nextValue s.argv := by
  unfold parseCmp2
  rw [overruns_instrAdd, overruns_vtp_bounded hs fun v =>
    bounded_bind (bounded_instrGetValue v.type) fun _ => bounded_bind bounded_instrGetUint fun _ =>
      bounded_bind bounded_getUnit fun u => by
        cases u.iu.types.findIdx? fun it => it.code = .int1 with
        | none => exact bounded_fail _
        | some type => exact bounded_valueAllocInstrRet _ _]

theorem overruns_parseResume (hs : s.Counted) :
    Overruns parseResume s ↔ InBlock s.unit ∧ Dangling s.unit.nextValue s.argv := by
  unfold parseResume
  rw [overruns_instrAdd, overruns_vtp_bounded hs fun v => bounded_instrSet _]

theorem overruns_parseLoad (hs : s.Counted) :
    Overruns parseLoad s ↔ InBlock s.unit ∧ Dangling s.unit.nextValue s.argv := by
  have htail : ∀ v : ValueType, Bounded (argc >>= fun c => if c = 3 then arg 0 >>= fun type =>
      valueAllocInstrRet (indexOf type) (.load v)
      else getUnit >>= fun u => lift (typeGetPointee u.iu v.type) >>= fun type =>
        valueAllocInstrRet type (.load v)) := by
    intro v
    constructor
    · apply keeps_bind bounded_argc.keeps
      intro c
      split
      · exact keeps_bind (keeps_arg 0) fun _ => (bounded_valueAllocInstrRet _ _).keeps
      · exact (bounded_bind bounded_getUnit fun _ => bounded_bind (bounded_lift _) fun _ =>
          bounded_valueAllocInstrRet _ _).keeps
    · intro t ht
      rw [overruns_argc_bind]
      split
      · rename_i hc
        have hlen : t.argv.length = 3 := by
          rw [← ht, hc]
          rfl
        rw [overruns_arg_bind (by omega)]
        exact (bounded_valueAllocInstrRet _ _).safe t ht
      · exact (bounded_bind bounded_getUnit fun _ => bounded_bind (bounded_lift _) fun _ =>
          bounded_valueAllocInstrRet _ _).safe t ht
  unfold parseLoad
  rw [overruns_instrAdd]
  apply and_congr_right
  intro _
  exact overruns_vtp_bounded hs htail

theorem overruns_parseStore_old (hs : s.Counted) :
    Overruns (parseStore true) s ↔ InBlock s.unit ∧ Dangling s.unit.nextValue s.argv := by
  unfold parseStore
  rw [overruns_instrAdd]
  apply and_congr_right
  intro _
  exact overruns_vtp_bounded hs fun v => bounded_bind bounded_getUnit fun _ =>
    bounded_bind (bounded_lift _) fun _ => bounded_bind (bounded_instrGetValue _) fun _ =>
      bounded_instrSet _

theorem overruns_parseStore (hs : s.Counted) :
    Overruns (parseStore false) s ↔ InBlock s.unit ∧ (Dangling s.unit.nextValue s.argv
      ∨ ∃ rest, afterVtp s.unit.nextValue s.argv = some rest ∧ Dangling s.unit.nextValue rest) := by
  unfold parseStore
  rw [overruns_instrAdd]
  apply and_congr_right
  intro _
  exact overruns_vtp_vtp hs fun _ _ => bounded_instrSet _

theorem overruns_parseInsertval (hs : s.Counted) :
    Overruns parseInsertval s ↔ Dangling s.unit.nextValue s.argv
      ∨ ∃ rest, afterVtp s.unit.nextValue s.argv = some rest ∧ Dangling s.unit.nextValue rest :=
  overruns_vtp_vtp hs fun _ _ => bounded_bind bounded_argc fun c =>
    bounded_bind bounded_instrAdd fun _ =>
      bounded_bind (bounded_forArgs (fun _ => bounded_instrGetUint) c.toInt.toNat 0) fun _ =>
        bounded_valueAllocInstrRet _ _


/-! ## Loops over values -/

theorem keeps_whileArgs {body : ℕ → Handler ValueType} (h : ∀ n, Keeps (body n)) (fuel n : ℕ) :
    Keeps (whileArgs .outOfFuel body fuel n) := by
  induction fuel generalizing n with
  | zero => exact nofun
  | succ fuel ih =>
    apply keeps_bind bounded_argc.keeps
    intro c
    split
    · exact (bounded_pure []).keeps
    · exact keeps_bind (h n) fun v => keeps_bind (ih (n + 1)) fun vs => (bounded_pure _).keeps

theorem not_vtpsDangle_nil (next : BitVec 32) : ¬ VtpsDangle next [] := by
  intro h
  cases h with
  | last h => exact not_dangling_nil next h
  | later h _ => cases h

theorem vtpsDangle_iff {next : BitVec 32} {argv : List (BitVec 64)} : VtpsDangle next argv
    ↔ Dangling next argv ∨ ∃ rest, afterVtp next argv = some rest ∧ VtpsDangle next rest := by
  constructor
  · intro h
    cases h with
    | last h => exact .inl h
    | later h hrest => exact .inr ⟨_, h, hrest⟩
  · rintro (h | ⟨rest, h, hrest⟩)
    · exact .last h
    · exact .later h hrest

theorem overruns_vtps (fuel n : ℕ) (hs : s.Counted) (hfuel : s.argv.length < fuel) :
    Overruns (whileArgs .outOfFuel (fun _ => instrGetVtp) fuel n) s
      ↔ VtpsDangle s.unit.nextValue s.argv := by
  induction fuel generalizing n s with
  | zero => cases hfuel
  | succ fuel ih =>
    by_cases hc : s.argc = 0
    · apply iff_of_false (not_overruns_whileArgs hc)
      rw [(argc_eq_zero_iff hs).mp hc]
      exact not_vtpsDangle_nil _
    · rw [whileArgs, overruns_argc_bind, if_neg hc, overruns_vtp_bind hs, vtpsDangle_iff]
      apply or_congr_right
      apply exists_congr
      intro rest
      apply and_congr_right
      intro h
      have hlt := afterVtp_length h
      rw [overruns_map, ih (n + 1) (counted_after hs h) (by
        change rest.length < fuel
        omega)]
      change VtpsDangle (mention s.unit s.argv).2.nextValue rest ↔ _
      rw [(mention_unit s.unit s.argv).1]

theorem overruns_gepValues (hs : s.Counted) {f : ValueType → List ValueType → Handler Unit}
    (hf : ∀ v vs, Bounded (f v vs)) :
    Overruns (instrGetVtp >>= fun v => argc >>= fun c =>
      whileArgs .outOfFuel (fun _ => instrGetVtp) (c.toNat + 1) 0 >>= f v) s
    ↔ VtpsDangle s.unit.nextValue s.argv := by
  rw [overruns_vtp_bind hs, vtpsDangle_iff]
  apply or_congr_right
  apply exists_congr
  intro rest
  apply and_congr_right
  intro h
  have hrest : (start (mention s.unit s.argv).2 rest).Counted := counted_after hs h
  rw [overruns_argc_bind, overruns_bind_bounded hrest
    (keeps_whileArgs (fun _ => keeps_vtp) _ 0) (hf _), overruns_vtps _ 0 hrest (by
      rw [hrest]
      exact Nat.lt_succ_self _)]
  change VtpsDangle (mention s.unit s.argv).2.nextValue rest ↔ _
  rw [(mention_unit s.unit s.argv).1]

theorem not_overruns_vtp_short (hc : s.argc.toInt < 1) {α : Type} {f : ValueType → Handler α} :
    ¬ Overruns (instrGetVtp >>= f) s := by
  apply not_overruns_fault (e := .parserError "Missing value code")
  apply bind_error
  unfold instrGetVtp
  rw [bind_ok (t := s) rfl, if_pos hc]
  rfl

theorem bounded_gepTail (v : ValueType) (vs : List ValueType) : Bounded (instrAdd >>= fun _ =>
    getUnit >>= fun u => lift (gepIndicies u v.type vs) >>= fun r =>
      match r with
      | (indicies, type) => modifyUnit (fun u => (u.makePointer type).1) >>= fun _ =>
        valueAllocInstrRet (u.makePointer type).2 (.gep v indicies)) :=
  bounded_bind bounded_instrAdd fun _ => bounded_bind bounded_getUnit fun _ =>
    bounded_bind (bounded_lift _) fun _ => bounded_bind (bounded_modifyUnit _) fun _ =>
      bounded_valueAllocInstrRet _ _

theorem overruns_parseGep_old (hs : s.Counted) :
    Overruns (parseGep false) s ↔ VtpsDangle s.unit.nextValue s.argv := by
  exact overruns_gepValues hs bounded_gepTail

theorem overruns_parseGep (hs : s.Counted) :
    Overruns (parseGep true) s ↔ VtpsDangle s.unit.nextValue (s.argv.drop 2) := by
  change Overruns (advance 2 >>= fun _ => instrGetVtp >>= _) s ↔ _
  rw [overruns_advance_bind]
  by_cases hlen : 2 ≤ s.argv.length
  · exact overruns_gepValues (counted_drop hs hlen) bounded_gepTail
  · apply iff_of_false
    · apply not_overruns_vtp_short
      unfold Cursor.Counted at hs
      have hc : s.argc = 0 ∨ s.argc = 1 := by
        rw [← BitVec.toNat_inj, ← BitVec.toNat_inj, hs]
        change s.argv.length = 0 ∨ s.argv.length = 1
        omega
      change (s.argc - 2).toInt < 1
      rcases hc with hc | hc
      · rw [hc]
        decide
      · rw [hc]
        decide
    · rw [List.drop_eq_nil_of_le (by omega)]
      exact not_vtpsDangle_nil _

/-! ## The others -/

theorem overruns_uint_bind (hs : s.Counted) {α : Type} {f : BitVec 32 → Handler α} :
    Overruns (instrGetUint >>= f) s ↔ s.argv.length < 2 ^ 31 ∧ ∃ a argv, s.argv = a :: argv
      ∧ Overruns (f (a.setWidth 32)) (start s.unit argv) := by
  rcases taken (e := .parserError "Missing argument") (f := fun a => pure (a.setWidth 32)) hs with
    ⟨a, argv, hargv, hlen, hdrop, hrest, hrun⟩ | ⟨hshort, hrun⟩
  · have hrun' : instrGetUint s = .ok (a.setWidth 32, s.drop 1) := hrun
    have hstart : s.drop 1 = start s.unit argv := by
      rw [eq_start hdrop, hrest]
      rfl
    rw [overruns_bind_ok hrun', hstart]
    constructor
    · intro h
      exact ⟨hlen, a, argv, hargv, h⟩
    · rintro ⟨-, a', argv', hargv', h⟩
      rw [hargv] at hargv'
      cases hargv'
      exact h
  · apply iff_of_false (not_overruns_fault (bind_error hrun))
    rintro ⟨hlen, a, argv, hargv, -⟩
    rcases hshort with h | h
    · rw [h] at hargv
      cases hargv
    · exact absurd hlen (Nat.not_lt.mpr h)

theorem overruns_parseVselect (hs : s.Counted) :
    Overruns parseVselect s ↔ InBlock s.unit ∧ (Dangling s.unit.nextValue s.argv
      ∨ ∃ rest, afterVtp s.unit.nextValue s.argv = some rest
        ∧ Dangling s.unit.nextValue (rest.drop 1)) := by
  unfold parseVselect
  rw [overruns_instrAdd, overruns_vtp_bind hs]
  apply and_congr_right
  intro _
  apply or_congr_right
  apply exists_congr
  intro rest
  apply and_congr_right
  intro h
  let t := start (mention s.unit s.argv).2 rest
  have ht : t.Counted := counted_after hs h
  have hnext : t.unit.nextValue = s.unit.nextValue := (mention_unit s.unit s.argv).1
  change Overruns (instrGetValue _ >>= _) t ↔ _
  rw [← hnext]
  rcases instrGetValue_taken (mention s.unit s.argv).1.type ht with
    ⟨a, argv, v, hargv, hdrop, hrest, hrun⟩ | ⟨hshort, hrun⟩
  · rw [overruns_bind_ok hrun,
      overruns_vtp_bounded hdrop fun _ => bounded_valueAllocInstrRet _ _]
    rfl
  · apply iff_of_false (not_overruns_fault (bind_error hrun))
    rintro ⟨a, ha, -⟩
    have hlen := congrArg List.length ha
    rw [List.length_drop, List.length_singleton] at hlen
    rcases hshort with hnil | hbig
    · rw [show rest = [] from hnil] at hlen
      cases hlen
    · have hbig' : 2 ^ 31 ≤ rest.length := hbig
      omega

theorem overruns_parseVaarg (hs : s.Counted) :
    Overruns parseVaarg s ↔ InBlock s.unit ∧ s.argv = [] := by
  unfold parseVaarg
  rw [overruns_instrAdd]
  apply and_congr_right
  intro _
  by_cases hnil : s.argv = []
  · apply iff_of_true ?_ hnil
    rw [overruns_bind]
    exact .inl (overruns_arg.mpr (by rw [hnil]; exact Nat.le_refl 0))
  · have hpos := List.length_pos_of_ne_nil hnil
    apply iff_of_false ?_ hnil
    rw [overruns_arg_bind hpos, overruns_advance_bind]
    exact (bounded_bind (bounded_instrGetValue _) fun _ => bounded_bind bounded_instrGetUint
      fun _ => bounded_valueAllocInstrRet _ _).safe _ (counted_drop hs hpos)

theorem overruns_parseLandingpad_old (hs : s.Counted) :
    Overruns (parseLandingpad true) s ↔ Dangling s.unit.nextValue (s.argv.drop 1) := by
  have htail : ∀ type : BitVec 32, ∀ _ : ValueType, Bounded (instrGetUint >>= fun isCleanUp =>
      instrGetUint >>= fun numClauses => instrAdd >>= fun _ =>
        forArgs (fun _ => instrGetUint >>= fun clause => instrGetUint >>= fun isCatch =>
          pure (⟨isCatch.toNat, clause.toNat⟩ : LandingpadClause)) numClauses.toNat 0 >>= fun clauses =>
            valueAllocInstrRet type.toNat (.landingpad type isCleanUp clauses)) := fun type _ =>
    bounded_bind bounded_instrGetUint fun _ => bounded_bind bounded_instrGetUint fun n =>
      bounded_bind bounded_instrAdd fun _ => bounded_bind (bounded_forArgs (fun _ =>
        bounded_bind bounded_instrGetUint fun _ => bounded_bind bounded_instrGetUint fun _ =>
          bounded_pure _) n.toNat 0) fun _ => bounded_valueAllocInstrRet _ _
  change Overruns (instrGetUint >>= fun type => instrGetVtp >>= _) s ↔ _
  rw [overruns_uint_bind hs]
  cases hargv : s.argv with
  | nil => exact iff_of_false (by simp) (not_dangling_nil _)
  | cons a argv =>
    have hlen := length_lt hs
    rw [hargv] at hlen
    have hstart : (start s.unit argv).Counted := counted_start _ (Nat.lt_of_succ_lt hlen)
    constructor
    · rintro ⟨-, a', argv', h, hover⟩
      cases h
      exact (overruns_vtp_bounded hstart (htail _)).mp hover
    · intro h
      obtain ⟨b, hb, -⟩ := id h
      refine ⟨?_, a, argv, rfl, (overruns_vtp_bounded hstart (htail _)).mpr h⟩
      rw [List.length_cons, show argv = [b] from hb, List.length_singleton]
      decide

theorem bounded_parseLandingpad : Bounded (parseLandingpad false) :=
  bounded_bind bounded_instrGetUint fun _ => bounded_bind bounded_instrGetUint fun _ =>
    bounded_bind bounded_instrGetUint fun n => bounded_bind bounded_instrAdd fun _ =>
      bounded_bind (bounded_forArgs (fun _ => bounded_bind bounded_instrGetUint fun _ =>
        bounded_bind bounded_instrGetUint fun _ => bounded_pure _) n.toNat 0) fun _ =>
          bounded_valueAllocInstrRet _ _

theorem still_extractIndicies (n i type : ℕ) : Still (extractIndicies n i type) := by
  induction n generalizing i type with
  | zero => exact still_pure _
  | succ n ih =>
    exact still_bind still_getUnit fun u => still_bind (still_lift _) fun ty =>
      still_bind (still_arg i) fun idx => still_bind (still_lift _) fun inner =>
        still_bind (ih (i + 1) inner) fun _ => still_pure _

theorem not_overruns_extractIndicies (n i type : ℕ) (h : i + n ≤ s.argv.length) :
    ¬ Overruns (extractIndicies n i type) s := by
  induction n generalizing i type with
  | zero => exact not_overruns_of_ok rfl
  | succ n ih =>
    unfold extractIndicies
    rw [overruns_getUnit_bind, overruns_lift_bind]
    rintro ⟨ty, -, h'⟩
    rw [overruns_arg_bind (by omega), overruns_lift_bind] at h'
    obtain ⟨inner, -, h'⟩ := h'
    rw [overruns_bind] at h'
    rcases h' with h' | ⟨r, t, -, h'⟩
    · exact ih (i + 1) inner (by omega) h'
    · exact not_overruns_of_ok rfl h'

theorem overruns_parseExtractval (hs : s.Counted) :
    Overruns parseExtractval s ↔ Dangling s.unit.nextValue s.argv := by
  apply overruns_vtp_bounded hs
  intro v
  constructor
  · exact keeps_bind bounded_argc.keeps fun c => keeps_bind bounded_instrAdd.keeps fun _ =>
      keeps_bind (still_keeps (still_extractIndicies _ 0 v.type)) fun _ =>
        (bounded_valueAllocInstrRet _ _).keeps
  · intro t ht
    rw [overruns_argc_bind, overruns_instrAdd]
    rintro ⟨-, h⟩
    rw [overruns_bind_bounded ht (still_keeps (still_extractIndicies _ 0 v.type)) fun _ =>
      bounded_valueAllocInstrRet _ _] at h
    refine not_overruns_extractIndicies _ 0 v.type ?_ h
    have hint := RecordBounds.argc_toInt ht
    have hlen := length_lt ht
    split at hint <;> omega

theorem bounded_parseBr : Bounded parseBr := by
  apply bounded_bind bounded_instrAdd
  intro _
  apply bounded_bind bounded_instrGetUint
  intro trueBranch
  apply bounded_bind bounded_argc
  intro c
  exact bounded_ite (bounded_instrSet _) (bounded_bind bounded_instrGetUint fun _ =>
    bounded_bind bounded_getUnit fun u => bounded_bind (bounded_modifyUnit _) fun _ =>
      bounded_bind (bounded_instrGetValue _) fun _ => bounded_instrSet _)

theorem bounded_parsePhi : Bounded parsePhi := by
  apply bounded_bind bounded_instrGetUint
  intro type
  apply bounded_bind bounded_argc
  intro c
  apply bounded_bind bounded_instrAdd
  intro _
  apply bounded_bind (bounded_forArgs (fun _ => bounded_bind (bounded_instrGetValueSigned _) fun _ =>
    bounded_bind bounded_instrGetUint fun _ => bounded_pure _) _ 0)
  intro nodes
  cases phiSort nodes with
  | nil => exact bounded_fail _
  | cons n ns => exact bounded_valueAllocInstrRet _ _

theorem bounded_parseSwitch : Bounded parseSwitch := by
  apply bounded_bind bounded_instrGetUint
  intro typeid
  apply bounded_bind (bounded_instrGetValue _)
  intro value
  apply bounded_bind bounded_instrGetUint
  intro defblock
  apply bounded_bind bounded_argc
  intro c
  apply bounded_bind bounded_instrAdd
  intro _
  apply bounded_bind bounded_getUnit
  intro u
  apply bounded_bind (bounded_lift _)
  intro it
  apply bounded_bind (bounded_lift _)
  intro width
  exact bounded_bind (bounded_forArgs (fun _ => bounded_bind bounded_instrGetUint fun _ =>
    bounded_bind bounded_instrGetUint fun _ => bounded_bind (bounded_lift _) fun _ =>
      bounded_pure _) _ 0) fun _ => bounded_instrSet _

theorem not_overruns_parseAlloca (hs : s.Counted) : ¬ Overruns (parseAlloca depth) s := by
  unfold parseAlloca
  rw [overruns_argc_bind]
  split
  · exact not_overruns_fault rfl
  · rename_i hc
    rw [not_ne_iff] at hc
    have hlen : s.argv.length = 4 := by
      rw [← hs, hc]
      rfl
    rw [overruns_arg_bind (by omega), overruns_instrAdd]
    rintro ⟨-, h⟩
    rw [overruns_arg_bind (by omega), overruns_getUnit_bind, overruns_lift_bind] at h
    obtain ⟨pointee, -, h⟩ := h
    rw [overruns_lift_bind] at h
    obtain ⟨size, -, h⟩ := h
    have htail : ∀ (u : FunctionUnit) (f : BitVec 64 → BitVec 64 → Handler Unit),
        (∀ a b, Bounded (f a b)) →
        ¬ Overruns (modifyUnit (fun _ => u) >>= fun _ => arg 2 >>= fun a => arg 1 >>= f a) s := by
      intro u f hf
      rw [overruns_modifyUnit_bind, @overruns_arg_arg _ _ _ { s with unit := u } 2 1 f hs hf]
      change ¬ (s.argv.length ≤ 2 ∨ s.argv.length ≤ 1)
      omega
    exact htail _ _ (fun _ _ => bounded_valueAllocInstrRet _ _) h

/-! ## Calls -/

theorem keeps_callArg (parameters : List ℕ) (n : ℕ) : Keeps (callArg parameters n) := by
  unfold callArg
  cases parameters[n]? with
  | none => exact keeps_vtp
  | some type => exact (bounded_instrGetValue type).keeps

theorem overruns_callArgs (parameters : List ℕ) (fuel n : ℕ) (hs : s.Counted)
    (hlen : s.argv.length < 2 ^ 31) (hfuel : s.argv.length < fuel) :
    Overruns (whileArgs .outOfFuel (callArg parameters) fuel n) s
      ↔ VtpsDangle s.unit.nextValue (s.argv.drop (parameters.length - n)) := by
  induction fuel generalizing n s with
  | zero => cases hfuel
  | succ fuel ih =>
    by_cases hc : s.argc = 0
    · apply iff_of_false (not_overruns_whileArgs hc)
      rw [(argc_eq_zero_iff hs).mp hc, List.drop_nil]
      exact not_vtpsDangle_nil _
    · rw [whileArgs, overruns_argc_bind, if_neg hc]
      by_cases hn : n < parameters.length
      · have hbody : callArg parameters n = instrGetValue parameters[n] := by
          unfold callArg
          rw [List.getElem?_eq_getElem hn]
        rw [hbody]
        rcases instrGetValue_taken parameters[n] hs with
          ⟨a, argv, v, hargv, hdrop, hrest, hrun⟩ | ⟨hshort, -⟩
        · have hsize : s.argv.length = argv.length + 1 := congrArg List.length hargv
          rw [overruns_bind_ok hrun, overruns_map, ih (n + 1) hdrop (by
            rw [hrest]
            omega) (by
            rw [hrest]
            omega), hrest, hargv]
          have hk : parameters.length - n = parameters.length - (n + 1) + 1 := by omega
          rw [hk, List.drop_succ_cons]
          rfl
        · exact absurd ((argc_eq_zero_iff hs).mpr (hshort.resolve_right (Nat.not_le.mpr hlen))) hc
      · have hbody : callArg parameters n = instrGetVtp := by
          unfold callArg
          rw [List.getElem?_eq_none (Nat.not_lt.mp hn)]
        have hk : parameters.length - n = 0 := Nat.sub_eq_zero_of_le (Nat.not_lt.mp hn)
        rw [hbody, overruns_vtp_bind hs, hk, List.drop_zero, vtpsDangle_iff]
        apply or_congr_right
        apply exists_congr
        intro rest
        apply and_congr_right
        intro h
        have hlt := afterVtp_length h
        rw [overruns_map, ih (n + 1) (counted_after hs h) (Nat.lt_trans hlt hlen) (by
          change rest.length < fuel
          omega), Nat.sub_eq_zero_of_le (by omega), List.drop_zero]
        change VtpsDangle (mention s.unit s.argv).2.nextValue rest ↔ _
        rw [(mention_unit s.unit s.argv).1]

theorem overruns_arguments (hs : s.Counted) (hlen : s.argv.length < 2 ^ 31) {args : List (BitVec 64)}
    (hafter : afterVtp s.unit.nextValue s.argv = some args) (parameters : List ℕ)
    {f : List ValueType → Handler Unit} (hf : ∀ vs, Bounded (f vs)) :
    Overruns (argc >>= fun c => whileArgs .outOfFuel (callArg parameters) (c.toNat + 1) 0 >>= f)
      (start (mention s.unit s.argv).2 args)
    ↔ VtpsDangle s.unit.nextValue (args.drop parameters.length) := by
  have hargs : (start (mention s.unit s.argv).2 args).Counted := counted_after hs hafter
  rw [overruns_argc_bind, overruns_bind_bounded hargs (keeps_whileArgs (keeps_callArg parameters) _ 0)
    hf, overruns_callArgs parameters _ 0 hargs (Nat.lt_trans (afterVtp_length hafter) hlen) (by
      rw [hargs]
      exact Nat.lt_succ_self _)]
  change VtpsDangle (mention s.unit s.argv).2.nextValue (args.drop parameters.length) ↔ _
  rw [(mention_unit s.unit s.argv).1]

theorem overruns_callFrom (hs : s.Counted) (hlen : s.argv.length < 2 ^ 31) (cc : BitVec 32)
    {f : ValueType → ℕ → List ValueType → Handler Unit} (hf : ∀ v t vs, Bounded (f v t vs)) :
    Overruns (callFrom cc f) s ↔ CalleeShort s.unit cc s.argv := by
  unfold callFrom CalleeShort
  rw [overruns_vtp_bind hs]
  apply or_congr_right
  apply exists_congr
  intro args
  constructor
  · rintro ⟨hafter, h⟩
    rw [overruns_getUnit_bind, overruns_lift_bind] at h
    obtain ⟨r, hr, h⟩ := h
    cases r with
    | none => exact absurd h (not_overruns_of_ok rfl)
    | some r =>
      obtain ⟨callee, returnType, parameters⟩ := r
      refine ⟨callee, returnType, parameters, hafter, hr, ?_⟩
      exact (overruns_arguments hs hlen hafter parameters (hf callee returnType)).mp h
  · rintro ⟨callee, returnType, parameters, hafter, hr, h⟩
    refine ⟨hafter, ?_⟩
    rw [overruns_getUnit_bind, overruns_lift_bind]
    exact ⟨_, hr, (overruns_arguments hs hlen hafter parameters (hf callee returnType)).mpr h⟩

theorem bounded_makeCall (attributeSet : BitVec 32) (cls : ValueType → List Arg → ParsedInstr)
    (callee : ValueType) (returnType : ℕ) (values : List ValueType) :
    Bounded (makeCall depth attributeSet cls callee returnType values) :=
  bounded_bind bounded_instrAdd fun _ => bounded_bind bounded_getUnit fun _ =>
    bounded_bind (bounded_lift _) fun _ => bounded_bind (bounded_lift _) fun _ =>
      bounded_ite (bounded_instrSet _) (bounded_valueAllocInstrRet _ _)

theorem calleeShort_nil (u : FunctionUnit) (cc : BitVec 32) : ¬ CalleeShort u cc [] := by
  rintro (h | ⟨args, callee, returnType, parameters, h, -⟩)
  · exact not_dangling_nil _ h
  · cases h

theorem overruns_skip {flag : Prop} [Decidable flag] {argv : List (BitVec 64)}
    (hargv : argv.length < 2 ^ 31) (u : FunctionUnit) (cc : BitVec 32)
    {f : ValueType → ℕ → List ValueType → Handler Unit} (hf : ∀ v t vs, Bounded (f v t vs)) :
    Overruns (callFrom cc f) (if flag then (start u argv).drop 1 else start u argv)
      ↔ CalleeShort u cc (if flag then argv.drop 1 else argv) := by
  have hs : (start u argv).Counted := counted_start u (Nat.lt_trans hargv (by decide))
  split
  · cases argv with
    | nil =>
      apply iff_of_false (not_overruns_vtp_short (by decide : (0 - 1 : BitVec 32).toInt < 1))
      exact calleeShort_nil u cc
    | cons a argv =>
      exact overruns_callFrom (counted_drop hs (Nat.le_add_left 1 _)) (Nat.lt_of_succ_lt hargv) cc hf
  · exact overruns_callFrom hs hargv cc hf

theorem overruns_uints_bind (hs : s.Counted) {α : Type} {f : BitVec 32 → BitVec 32 → Handler α} :
    Overruns (instrGetUint >>= fun a => instrGetUint >>= f a) s ↔ s.argv.length < 2 ^ 31
      ∧ ∃ a b argv, s.argv = a :: b :: argv
        ∧ Overruns (f (a.setWidth 32) (b.setWidth 32)) (start s.unit argv) := by
  rw [overruns_uint_bind hs]
  apply and_congr_right
  intro hlen
  have hstart : ∀ a argv, s.argv = a :: argv → (start s.unit argv).Counted := by
    intro a argv h
    have hlt := length_lt hs
    rw [h] at hlt
    exact counted_start _ (Nat.lt_of_succ_lt hlt)
  constructor
  · rintro ⟨a, argv, hargv, h⟩
    obtain ⟨-, b, argv', hargv', h⟩ := (overruns_uint_bind (hstart a argv hargv)).mp h
    exact ⟨a, b, argv', hargv.trans (congrArg _ hargv'), h⟩
  · rintro ⟨a, b, argv, hargv, h⟩
    refine ⟨a, b :: argv, hargv, (overruns_uint_bind (hstart a _ hargv)).mpr ⟨?_, b, argv, rfl, h⟩⟩
    rw [hargv] at hlen
    exact Nat.lt_of_succ_lt hlen

theorem callHeader_call (cc : BitVec 32) : callHeader false cc s
    = .ok ((-1, -1), if cc &&& 0x8000 ≠ 0 then s.drop 1 else s) := by
  unfold callHeader
  by_cases h : cc &&& 0x8000 ≠ 0
  · simp only [Bool.false_eq_true, if_false, if_pos h]
    rfl
  · simp only [Bool.false_eq_true, if_false, if_neg h]
    rfl

theorem callHeader_invoke (cc : BitVec 32) : callHeader true cc = (instrGetUint >>= fun normalDest =>
    instrGetUint >>= fun unwindDest => fun s =>
      .ok ((normalDest, unwindDest), if cc &&& 0x2000 ≠ 0 then s.drop 1 else s)) := by
  unfold callHeader
  by_cases h : cc &&& 0x2000 ≠ 0
  · simp only [if_true, if_pos h]
    rfl
  · simp only [if_true, if_neg h]
    rfl

theorem overruns_parseCall (hs : s.Counted) :
    Overruns (parseCallOrInvoke depth false) s ↔ CallShort s.unit false s.argv := by
  unfold parseCallOrInvoke CallShort
  rw [overruns_uints_bind hs]
  apply and_congr_right
  intro hlen
  have hcall : ∀ (a cc : BitVec 64) (argv : List (BitVec 64)), s.argv = a :: cc :: argv →
      (Overruns (callHeader false (cc.setWidth 32) >>= fun d => callFrom (cc.setWidth 32)
        (makeCall depth (a.setWidth 32 - 1) fun callee argv => .call callee argv)) (start s.unit argv)
      ↔ CalleeShort s.unit (cc.setWidth 32)
        (if cc.setWidth 32 &&& 0x8000 ≠ (0 : BitVec 32) then argv.drop 1 else argv)) := by
    intro a cc argv hargv
    rw [overruns_bind_ok (callHeader_call _)]
    apply overruns_skip ?_ s.unit _ fun _ _ _ => bounded_makeCall _ _ _ _ _
    rw [hargv] at hlen
    exact Nat.lt_of_succ_lt (Nat.lt_of_succ_lt hlen)
  constructor
  · rintro ⟨a, cc, argv, hargv, h⟩
    exact ⟨_, _, by rw [hargv]; rfl, (hcall a cc argv hargv).mp h⟩
  · rintro ⟨flags, rest, hops, h⟩
    match hargv : s.argv with
    | [] =>
      rw [hargv] at hops
      cases hops
    | [a] =>
      rw [hargv] at hops
      cases hops
    | a :: cc :: argv =>
      rw [hargv] at hops
      cases hops
      exact ⟨a, cc, argv, rfl, (hcall a cc argv hargv).mpr h⟩

theorem overruns_parseInvoke (hs : s.Counted) :
    Overruns (parseCallOrInvoke depth true) s ↔ CallShort s.unit true s.argv := by
  unfold parseCallOrInvoke CallShort
  rw [overruns_uints_bind hs]
  apply and_congr_right
  intro hlen
  have hinvoke : ∀ (a cc : BitVec 64) (argv : List (BitVec 64)), s.argv = a :: cc :: argv →
      (Overruns (callHeader true (cc.setWidth 32) >>= fun d => callFrom (cc.setWidth 32)
        (makeCall depth (a.setWidth 32 - 1) fun callee argv => .invoke callee d.1 d.2 argv))
          (start s.unit argv)
      ↔ ∃ n w rest, argv = n :: w :: rest ∧ CalleeShort s.unit (cc.setWidth 32)
        (if cc.setWidth 32 &&& 0x2000 ≠ (0 : BitVec 32) then rest.drop 1 else rest)) := by
    intro a cc argv hargv
    rw [hargv] at hlen
    have hargs : argv.length < 2 ^ 31 := Nat.lt_of_succ_lt (Nat.lt_of_succ_lt hlen)
    rw [callHeader_invoke, bind_assoc]
    simp only [bind_assoc]
    rw [overruns_uints_bind (counted_start s.unit (Nat.lt_trans hargs (by decide)))]
    have hskip : ∀ (n w : BitVec 64) (rest : List (BitVec 64)), argv = n :: w :: rest → _ :=
      fun n w rest hrest => @overruns_skip (cc.setWidth 32 &&& 0x2000 ≠ (0 : BitVec 32)) _ rest
        (by
          rw [hrest] at hargs
          exact Nat.lt_of_succ_lt (Nat.lt_of_succ_lt hargs)) s.unit (cc.setWidth 32) _
        (@bounded_makeCall depth (a.setWidth 32 - 1) fun callee argv =>
          .invoke callee (n.setWidth 32) (w.setWidth 32) argv)
    constructor
    · rintro ⟨-, n, w, rest, hrest, h⟩
      rw [overruns_bind_ok rfl] at h
      exact ⟨n, w, rest, hrest, (hskip n w rest hrest).mp h⟩
    · rintro ⟨n, w, rest, hrest, h⟩
      refine ⟨hargs, n, w, rest, hrest, ?_⟩
      rw [overruns_bind_ok rfl]
      exact (hskip n w rest hrest).mpr h
  constructor
  · rintro ⟨a, cc, argv, hargv, h⟩
    obtain ⟨n, w, rest, hrest, h⟩ := (hinvoke a cc argv hargv).mp h
    exact ⟨_, _, by rw [hargv, hrest]; rfl, h⟩
  · rintro ⟨flags, rest, hops, h⟩
    match hargv : s.argv with
    | [] =>
      rw [hargv] at hops
      cases hops
    | [a] =>
      rw [hargv] at hops
      cases hops
    | [a, cc] =>
      rw [hargv] at hops
      cases hops
    | [a, cc, n] =>
      rw [hargv] at hops
      cases hops
    | a :: cc :: n :: w :: argv =>
      rw [hargv] at hops
      cases hops
      exact ⟨a, cc, _, rfl, (hinvoke a cc _ hargv).mpr ⟨n, w, argv, rfl, h⟩⟩

end

end Vmir.InstrOverruns
