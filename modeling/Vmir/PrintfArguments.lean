import Vmir.Printf
import Mathlib.Tactic.Cases

set_option autoImplicit false

/-!
# The arguments of the formatter

A conversion is read up to its last character and takes its own arguments, so that the next one
finds its arguments too. The exceptions are the modifiers that `dofmt` does not know, and a floating
point conversion with one field.
-/
namespace Vmir.PrintfArguments
open ByteStore PrepareCall Printf

/-! ## One conversion -/

section
variable {σ : Type} {h : Host} {m : Bytes} {output : σ → List Byte → σ} {s : σ} {va : ℤ}

theorem snprintf_take {fmt out : List Byte} {args : List Arg} {dz : ℕ}
    (hout : h.format fmt args = some out) :
    h.snprintf dz fmt args = some (out.length, out.take (dz - 1)) := by
  unfold Host.snprintf
  rw [hout]
  rfl

theorem take_take_length {out : List Byte} {dz : ℕ} (hlt : out.length < dz) :
    (out.take (dz - 1)).take out.length = out := by
  rw [List.take_take]
  apply List.take_of_length_le
  omega

theorem dofmt2_eq {fmt : List Byte} {n : ℕ} {type : FmtType} {args : List Arg} {va' : ℤ}
    (hpop : pop h m type n va = some (args, va')) :
    dofmt2 h m output fmt n type s va = .ok ((h.format fmt args).toList.foldl output s, va') := by
  unfold dofmt2
  simp only [formatLoop, hpop]
  cases hout : h.format fmt args with
  | none =>
    have hnone : ∀ dz, h.snprintf dz fmt args = none := by
      intro dz
      unfold Host.snprintf
      rw [hout]
      rfl
    rw [hnone]
    rfl
  | some out =>
    simp only [snprintf_take hout]
    by_cases hlt : out.length < 100
    · simp only [if_pos hlt, take_take_length hlt]
      rfl
    · simp only [if_neg hlt, if_pos (Nat.lt_succ_self out.length),
        take_take_length (Nat.lt_succ_self out.length)]
      rfl

theorem dofmt2_none {fmt : List Byte} {n : ℕ} {type : FmtType} (hpop : pop h m type n va = none) :
    dofmt2 h m output fmt n type s va = .ok (s, va) := by
  unfold dofmt2
  simp only [formatLoop, hpop]

/-! ## The rest of the format -/

theorem dofmt_goOn {spec spec' : Spec} {c : Byte} {fmt : List Byte} (hc : spec.goOn c = some spec') :
    dofmt h m output (some spec) (c :: fmt) s va = dofmt h m output (some spec') fmt s va := by
  rw [dofmt]
  simp only [hc]

theorem dofmt_goOn_list {spec spec' : Spec} {text fmt : List Byte}
    (htext : text.foldlM Spec.goOn spec = some spec') :
    dofmt h m output (some spec) (text ++ fmt) s va = dofmt h m output (some spec') fmt s va := by
  induction text generalizing spec with
  | nil =>
    cases htext
    rfl
  | cons c text ih =>
    rw [List.foldlM_cons] at htext
    cases hc : spec.goOn c with
    | none =>
      rw [hc] at htext
      cases htext
    | some next =>
      rw [hc] at htext
      rw [List.cons_append, dofmt_goOn hc]
      exact ih htext

/-- The calls of `output` do not depend on what it does. Their lengths are an `int`. -/
theorem dofmt_calls (h : Host) (m : Bytes) (conversion : Option Spec) (fmt : List Byte) (va : ℤ) :
    ∃ calls : List (List Byte), (∀ c ∈ calls, c.length < 2 ^ 31) ∧
      ∀ (σ : Type) (output : σ → List Byte → σ) (s : σ),
        dofmt h m output conversion fmt s va = .ok (calls.foldl output s) := by
  induction fmt generalizing conversion va with
  | nil => exact ⟨[], (fun _ hc => nomatch hc), fun _ _ _ => rfl⟩
  | cons c fmt ih =>
    have hcons : ∀ calls : List (List Byte), (∀ x ∈ calls, x.length < 2 ^ 31) →
        ∀ x ∈ [c] :: calls, x.length < 2 ^ 31 := by
      intro calls hlen x hx
      rcases List.mem_cons.mp hx with rfl | hx
      · change 1 < 2 ^ 31
        decide
      · exact hlen x hx
    cases conversion with
    | none =>
      by_cases hc : c = byte '%'
      · obtain ⟨calls, hlen, hcalls⟩ := ih (some ⟨[c], 0, false, false, false⟩) va
        refine ⟨calls, hlen, fun σ output s => ?_⟩
        simp only [dofmt, if_pos hc]
        exact hcalls σ output s
      · obtain ⟨calls, hlen, hcalls⟩ := ih none va
        refine ⟨[c] :: calls, hcons calls hlen, fun σ output s => ?_⟩
        simp only [dofmt, if_neg hc]
        exact hcalls σ output (output s [c])
    | some spec =>
      cases hgo : spec.goOn c with
      | some spec' =>
        obtain ⟨calls, hlen, hcalls⟩ := ih (some spec') va
        refine ⟨calls, hlen, fun σ output s => ?_⟩
        rw [dofmt_goOn hgo]
        exact hcalls σ output s
      | none =>
        cases htype : typeOf spec (reswitch c) with
        | none =>
          obtain ⟨calls, hlen, hcalls⟩ := ih none va
          refine ⟨[c] :: calls, hcons calls hlen, fun σ output s => ?_⟩
          simp only [dofmt, hgo, htype]
          exact hcalls σ output (output s [c])
        | some type =>
          cases hpop : pop h m type spec.numFieldArgs va with
          | none =>
            obtain ⟨calls, hlen, hcalls⟩ := ih none va
            refine ⟨calls, hlen, fun σ output s => ?_⟩
            simp only [dofmt, hgo, htype, dofmt2_none hpop]
            exact hcalls σ output s
          | some popped =>
            obtain ⟨calls, hlen, hcalls⟩ := ih none popped.2
            refine ⟨(h.format (spec.text ++ [c]) popped.1).toList ++ calls, ?_,
              fun σ output s => ?_⟩
            · intro x hx
              rcases List.mem_append.mp hx with hx | hx
              · exact h.fits _ _ x (Option.mem_toList.mp hx)
              · exact hlen x hx
            · simp only [dofmt, hgo, htype, dofmt2_eq hpop, List.foldl_append]
              exact hcalls σ output _

end

/-! ## The characters of a conversion -/

theorem digit_switch : ∀ c : Byte, isDigit c → c ≠ byte '0' → reswitch c = .digits := by
  decide +kernel

theorem flag_switch (f : Flag) : reswitch f.byte = .again := by
  cases f <;> decide

theorem conv_switch (conv : Conv) (spec : Spec) : spec.goOn conv.byte = none := by
  have hdigit : isDigit conv.byte = false := by cases conv <;> decide
  unfold Spec.goOn
  rw [hdigit, Bool.and_false]
  cases conv <;> rfl

theorem goOn_of_switch {spec : Spec} {c : Byte} (h : (spec.digits && isDigit c) = false) :
    spec.goOn c =
      match reswitch c with
      | .again => some { spec with text := spec.text ++ [c], digits := false }
      | .field => some { spec with
          text := spec.text ++ [c], digits := false, numFieldArgs := spec.numFieldArgs + 1 }
      | .digits => some { spec with text := spec.text ++ [c], digits := true }
      | .long =>
        if spec.long then some { spec with text := spec.text ++ [c], digits := false, int64 := true }
        else some { spec with text := spec.text ++ [c], digits := false, long := true }
      | .quad => some { spec with text := spec.text ++ [c], digits := false, int64 := true }
      | _ => none := by
  unfold Spec.goOn
  rw [h]
  rfl

theorem goOn_cons {spec spec' : Spec} {c : Byte} {text : List Byte} (h : spec.goOn c = some spec') :
    (c :: text).foldlM Spec.goOn spec = text.foldlM Spec.goOn spec' := by
  rw [List.foldlM_cons, h]
  rfl

theorem goOn_append {spec spec' : Spec} {text rest : List Byte}
    (h : text.foldlM Spec.goOn spec = some spec') :
    (text ++ rest).foldlM Spec.goOn spec = rest.foldlM Spec.goOn spec' := by
  rw [List.foldlM_append, h]
  rfl

theorem goOn_flags (fs : List Flag) (spec : Spec) (h : spec.digits = false) :
    (fs.map Flag.byte).foldlM Spec.goOn spec
      = some { spec with text := spec.text ++ fs.map Flag.byte } := by
  induction fs generalizing spec with
  | nil =>
    rw [List.map_nil, List.append_nil]
    rfl
  | cons f fs ih =>
    have hf : spec.goOn f.byte = some { spec with text := spec.text ++ [f.byte] } := by
      rw [goOn_of_switch (by rw [h, Bool.false_and]), flag_switch, ← h]
    rw [List.map_cons, goOn_cons hf, ih { spec with text := spec.text ++ [f.byte] } h]
    simp only [List.append_assoc, List.singleton_append]

theorem goOn_digits (ds : List Digit) (spec : Spec) (h : spec.digits = true) :
    (ds.map Subtype.val).foldlM Spec.goOn spec
      = some { spec with text := spec.text ++ ds.map Subtype.val } := by
  induction ds generalizing spec with
  | nil =>
    rw [List.map_nil, List.append_nil]
    rfl
  | cons d ds ih =>
    have hd : spec.goOn d.val = some { spec with text := spec.text ++ [d.val] } := by
      unfold Spec.goOn
      rw [h, d.property]
      rfl
    rw [List.map_cons, goOn_cons hd, ih { spec with text := spec.text ++ [d.val] } h]
    simp only [List.append_assoc, List.singleton_append]

theorem goOn_width (w : Width) (spec : Spec) (h : spec.digits = false) :
    ∃ digits, w.text.foldlM Spec.goOn spec = some { spec with
      text := spec.text ++ w.text, numFieldArgs := spec.numFieldArgs + w.stars, digits := digits }
    := by
  cases w with
  | none =>
    refine ⟨false, ?_⟩
    simp only [Width.text, Width.stars, List.append_nil, Nat.add_zero, List.foldlM_nil, ← h]
    rfl
  | number first rest =>
    have hfirst : spec.goOn first.val
        = some { spec with text := spec.text ++ [first.val], digits := true } := by
      rw [goOn_of_switch (by rw [h, Bool.false_and]),
        digit_switch first.val first.property.1 first.property.2]
    refine ⟨true, ?_⟩
    rw [Width.text, goOn_cons hfirst, goOn_digits rest _ rfl]
    simp only [Width.stars, List.append_assoc, List.singleton_append, Nat.add_zero]
  | star =>
    have hstar : spec.goOn (byte '*') = some { spec with
        text := spec.text ++ [byte '*'], digits := false,
        numFieldArgs := spec.numFieldArgs + 1 } := by
      rw [goOn_of_switch (by rw [h, Bool.false_and])]
      rfl
    refine ⟨false, ?_⟩
    rw [Width.text, goOn_cons hstar]
    rfl

theorem goOn_precision (p : Precision) (spec : Spec) :
    ∃ digits, p.text.foldlM Spec.goOn spec = some { spec with
      text := spec.text ++ p.text, numFieldArgs := spec.numFieldArgs + p.stars, digits := digits }
    := by
  have hdot : spec.goOn (byte '.')
      = some { spec with text := spec.text ++ [byte '.'], digits := true } := by
    rw [goOn_of_switch (by rw [show isDigit (byte '.') = false from by decide, Bool.and_false])]
    rfl
  cases p with
  | none =>
    refine ⟨spec.digits, ?_⟩
    simp only [Precision.text, Precision.stars, List.append_nil, Nat.add_zero, List.foldlM_nil]
    rfl
  | number digits =>
    refine ⟨true, ?_⟩
    rw [Precision.text, goOn_cons hdot, goOn_digits digits _ rfl]
    simp only [Precision.stars, List.append_assoc, List.singleton_append, Nat.add_zero]
  | star =>
    refine ⟨false, ?_⟩
    have hstar : ∀ t : Spec, t.goOn (byte '*') = some { t with
        text := t.text ++ [byte '*'], digits := false, numFieldArgs := t.numFieldArgs + 1 } := by
      intro t
      rw [goOn_of_switch (by rw [show isDigit (byte '*') = false from by decide, Bool.and_false])]
      rfl
    rw [Precision.text, goOn_cons hdot, goOn_cons (hstar _)]
    change some _ = some _
    simp only [Precision.stars, List.append_assoc, List.singleton_append]

theorem goOn_header (c : Conversion) :
    ∃ digits, (c.flags.map Flag.byte ++ (c.width.text ++ c.precision.text)).foldlM Spec.goOn
        ⟨[byte '%'], 0, false, false, false⟩
      = some ⟨byte '%' :: (c.flags.map Flag.byte ++ (c.width.text ++ c.precision.text)), c.stars,
          false, false, digits⟩ := by
  obtain ⟨d, hwidth⟩ := goOn_width c.width
    ⟨[byte '%'] ++ c.flags.map Flag.byte, 0, false, false, false⟩ rfl
  obtain ⟨d', hprecision⟩ := goOn_precision c.precision
    ⟨[byte '%'] ++ c.flags.map Flag.byte ++ c.width.text, 0 + c.width.stars, false, false, d⟩
  refine ⟨d', ?_⟩
  rw [goOn_append (goOn_flags c.flags _ rfl), goOn_append hwidth]
  refine hprecision.trans ?_
  simp only [Conversion.stars, List.append_assoc, List.cons_append, List.nil_append, Nat.zero_add]

theorem goOn_modifier {mod : Modifier} (hmod : mod ∈ [Modifier.none, .l, .ll, .q]) (text : List Byte)
    (stars : ℕ) (digits : Bool) :
    ∃ long digits', mod.text.foldlM Spec.goOn ⟨text, stars, false, false, digits⟩
      = some ⟨text ++ mod.text, stars, long, integerType mod = .int64, digits'⟩ := by
  have hl : isDigit (byte 'l') = false := by decide
  have hq : isDigit (byte 'q') = false := by decide
  have hlong : ∀ spec : Spec, spec.goOn (byte 'l')
      = if spec.long then
          some { spec with text := spec.text ++ [byte 'l'], digits := false, int64 := true }
        else some { spec with text := spec.text ++ [byte 'l'], digits := false, long := true } := by
    intro spec
    rw [goOn_of_switch (by rw [hl, Bool.and_false])]
    rfl
  have hquad : ∀ spec : Spec, spec.goOn (byte 'q')
      = some { spec with text := spec.text ++ [byte 'q'], digits := false, int64 := true } := by
    intro spec
    rw [goOn_of_switch (by rw [hq, Bool.and_false])]
    rfl
  simp only [List.mem_cons, List.not_mem_nil, or_false] at hmod
  rcases hmod with rfl | rfl | rfl | rfl
  · refine ⟨false, digits, ?_⟩
    rw [Modifier.text, List.append_nil]
    rfl
  · refine ⟨true, false, ?_⟩
    rw [Modifier.text, goOn_cons (hlong _)]
    rfl
  · refine ⟨true, false, ?_⟩
    rw [Modifier.text, goOn_cons (hlong _), goOn_cons (hlong _)]
    change some _ = some _
    simp only [List.append_assoc, List.singleton_append]
    rfl
  · refine ⟨false, false, ?_⟩
    rw [Modifier.text, goOn_cons (hquad _)]
    rfl

/-! ## The arguments of a conversion -/

section
variable {m : Bytes} {va : ℤ}

/-- Arguments of these types from the pointer on, and the pointer behind them. -/
def popAll (m : Bytes) : List FmtType → ℤ → List Printf.Arg × ℤ
  | [], va => ([], va)
  | type :: types, va =>
    let v := popValue m type va
    let vs := popAll m types v.2
    (v.1 :: vs.1, vs.2)

theorem popValue_type (type : FmtType) : (popValue m type va).1.type = type := by
  cases type <;> rfl

theorem popAll_types (types : List FmtType) : (popAll m types va).1.map Printf.Arg.type = types := by
  induction types generalizing va with
  | nil => rfl
  | cons type types ih =>
    rw [popAll, List.map_cons, popValue_type, ih]

theorem popAll_laid (types : List FmtType) : Laid m va (popAll m types va).1 := by
  induction types generalizing va with
  | nil => rfl
  | cons type types ih =>
    have hrest := @ih (popValue m type va).2
    unfold Laid at hrest ⊢
    rw [popAll, List.map_cons, List.map_cons, hostArgs]
    cases type
    all_goals
      simp only [popValue, Printf.Arg.actual, Actual.slots] at hrest ⊢
      rw [hrest]
      rfl

theorem laid_cons {a : Printf.Arg} {args : List Printf.Arg} (h : Laid m va (a :: args)) :
    (popValue m a.type va).1 = a ∧ Laid m (popValue m a.type va).2 args := by
  unfold Laid at h ⊢
  rw [List.map_cons, List.map_cons, hostArgs] at h
  cases a
  all_goals
    simp only [Printf.Arg.actual, Actual.slots, reduceIte, Nat.succ_ne_self, List.cons.injEq,
      Actual.word.injEq, Actual.wide.injEq] at h
    simp only [Printf.Arg.type, popValue]
    exact ⟨by rw [h.1], h.2⟩

theorem popAll_of_laid {args rest : List Printf.Arg} (h : Laid m va (args ++ rest)) :
    (popAll m (args.map Printf.Arg.type) va).1 = args
      ∧ Laid m (popAll m (args.map Printf.Arg.type) va).2 rest := by
  induction args generalizing va with
  | nil => exact ⟨rfl, h⟩
  | cons a args ih =>
    obtain ⟨hhead, htail⟩ := laid_cons h
    obtain ⟨hargs, hrest⟩ := ih htail
    rw [List.map_cons, popAll]
    exact ⟨by rw [hhead, hargs], hrest⟩

theorem popAll_append (types types' : List FmtType) :
    (popAll m (types ++ types') va).2 = (popAll m types' (popAll m types va).2).2 := by
  induction types generalizing va with
  | nil => rfl
  | cons type types ih => exact ih

theorem popAll_offset (types : List FmtType) :
    ∃ offset, ∀ (m : Bytes) (va : ℤ), (popAll m types va).2 = va - offset := by
  induction types with
  | nil => exact ⟨0, fun m va => (Int.sub_zero va).symm⟩
  | cons type types ih =>
    obtain ⟨offset, hoffset⟩ := ih
    have hvalue : ∃ k, ∀ (m : Bytes) (va : ℤ), (popValue m type va).2 = va - k := by
      cases type
      all_goals exact ⟨_, fun _ _ => rfl⟩
    obtain ⟨k, hk⟩ := hvalue
    refine ⟨k + offset, fun m va => ?_⟩
    rw [popAll]
    change (popAll m types (popValue m type va).2).2 = _
    rw [hoffset, hk, Int.sub_sub]

theorem stars_le (c : Conversion) : c.stars ≤ 2 := by
  have hw : c.width.stars ≤ 1 := by
    cases c.width
    all_goals exact Nat.le_of_ble_eq_true rfl
  have hp : c.precision.stars ≤ 1 := by
    cases c.precision
    all_goals exact Nat.le_of_ble_eq_true rfl
  exact Nat.add_le_add hw hp

/-- All but one of the calls of `snprintf` take the arguments of the conversion. -/
theorem pop_eq (h : Host) {type : FmtType} {stars : ℕ} (hle : stars ≤ 2)
    (hone : ¬ (type = .double ∧ stars = 1)) :
    pop h m type stars va = some (popAll m (List.replicate stars .int ++ [type]) va) := by
  match stars with
  | 0 => rfl
  | 1 =>
    rw [pop, if_neg fun htype => hone ⟨htype, rfl⟩]
    rfl
  | 2 => rfl
  | n + 3 => exact absurd hle (by omega)

end

/-! ## Pieces -/

section
variable {σ : Type} {h : Host} {m : Bytes} {output : σ → List Byte → σ} {s : σ} {va : ℤ}

theorem dofmt_conversion (c : Conversion) (rest : List Byte) :
    ∃ digits, dofmt h m output none (c.text ++ rest) s va
      = dofmt h m output (some ⟨byte '%' :: (c.flags.map Flag.byte ++ (c.width.text
          ++ c.precision.text)), c.stars, false, false, digits⟩)
          (c.modifier.text ++ (c.conv.byte :: rest)) s va := by
  obtain ⟨digits, hheader⟩ := goOn_header c
  refine ⟨digits, ?_⟩
  have htext : c.text ++ rest = byte '%' :: ((c.flags.map Flag.byte ++ (c.width.text
      ++ c.precision.text)) ++ (c.modifier.text ++ (c.conv.byte :: rest))) := by
    simp only [Conversion.text, List.cons_append, List.append_assoc, List.nil_append]
  rw [htext, dofmt]
  simp only [if_pos]
  exact dofmt_goOn_list hheader

theorem dofmt_known {c : Conversion} (hc : c.modifier ∈ [Modifier.none, .l, .ll, .q])
    {args : List Printf.Arg} {va' : ℤ} (hpop : pop h m c.type c.stars va = some (args, va'))
    (rest : List Byte) :
    dofmt h m output none (c.text ++ rest) s va
      = dofmt h m output none rest ((h.format c.text args).toList.foldl output s) va' := by
  obtain ⟨digits, hheader⟩ := dofmt_conversion (h := h) (m := m) (s := s)
    c rest
  obtain ⟨long, digits', hmod⟩ := goOn_modifier hc (byte '%' :: (c.flags.map Flag.byte
    ++ (c.width.text ++ c.precision.text))) c.stars digits
  rw [hheader, dofmt_goOn_list hmod, dofmt]
  have htype : typeOf ⟨byte '%' :: (c.flags.map Flag.byte ++ (c.width.text ++ c.precision.text))
      ++ c.modifier.text, c.stars, long, integerType c.modifier = .int64, digits'⟩
      (reswitch c.conv.byte) = some c.type := by
    have hinteger : (if integerType c.modifier = .int64 then FmtType.int64 else .int)
        = integerType c.modifier := by
      cases c.modifier <;> rfl
    unfold Conversion.type
    cases c.conv
    all_goals first
      | rfl
      | exact congrArg some ((if_congr decide_eq_true_iff rfl rfl).trans hinteger)
  have htext : byte '%' :: (c.flags.map Flag.byte ++ (c.width.text ++ c.precision.text))
      ++ c.modifier.text ++ [c.conv.byte] = c.text := by
    simp only [Conversion.text, List.cons_append, List.append_assoc]
  simp only [conv_switch, htype, htext, dofmt2_eq hpop]
  rfl

theorem dofmt_piece {p : Piece} (hp : p.Supported) (rest : List Byte) :
    dofmt h m output none (p.text ++ rest) s va
      = dofmt h m output none rest ((p.output h (popAll m p.types va).1).foldl output s)
        (popAll m p.types va).2 := by
  cases p with
  | char c =>
    change dofmt h m output none (c.val :: rest) s va = _
    simp only [dofmt, if_neg c.property.1]
    rfl
  | percent =>
    change dofmt h m output none (byte '%' :: byte '%' :: rest) s va = _
    rw [dofmt]
    simp only [if_pos]
    rw [dofmt]
    rfl
  | conversion c => exact dofmt_known hp.1 (pop_eq h (stars_le c) hp.2) rest

theorem outputs_popAll {args : List Printf.Arg} {ps : List Piece} {p : Piece}
    (htypes : args.map Printf.Arg.type = (p :: ps).flatMap Piece.types) (hlaid : Laid m va args) :
    (popAll m p.types va).1 = args.take p.types.length
      ∧ (args.drop p.types.length).map Printf.Arg.type = ps.flatMap Piece.types
      ∧ Laid m (popAll m p.types va).2 (args.drop p.types.length) := by
  rw [List.flatMap_cons] at htypes
  have htake : (args.take p.types.length).map Printf.Arg.type = p.types := by
    rw [List.map_take, htypes, List.take_left]
  have hdrop : (args.drop p.types.length).map Printf.Arg.type = ps.flatMap Piece.types := by
    rw [List.map_drop, htypes, List.drop_left]
  rw [← List.take_append_drop p.types.length args] at hlaid
  have hall := popAll_of_laid hlaid
  rw [htake] at hall
  exact ⟨hall.1, hdrop, hall.2⟩

theorem dofmt_pieces {args : List Printf.Arg} {ps qs : List Piece} (hps : ∀ p ∈ ps, p.Supported)
    (htypes : args.map Printf.Arg.type = (ps ++ qs).flatMap Piece.types) (hlaid : Laid m va args) :
    ∃ done rest va', outputs h (ps ++ qs) args = done ++ outputs h qs rest
      ∧ rest.map Printf.Arg.type = qs.flatMap Piece.types ∧ Laid m va' rest
      ∧ va' = (popAll m (ps.flatMap Piece.types) va).2
      ∧ ∀ text, dofmt h m output none (ps.flatMap Piece.text ++ text) s va
        = dofmt h m output none text (done.foldl output s) va' := by
  induction ps generalizing args va s with
  | nil => exact ⟨[], args, va, rfl, htypes, hlaid, rfl, fun _ => rfl⟩
  | cons p ps ih =>
    obtain ⟨htake, hdrop, hlaid'⟩ := outputs_popAll htypes hlaid
    obtain ⟨done, rest, va', hout, hrest, hlaid'', hva, hrun⟩ :=
      ih (s := (p.output h (popAll m p.types va).1).foldl output s)
        (fun q hq => hps q (List.mem_cons_of_mem p hq)) hdrop hlaid'
    refine ⟨p.output h (args.take p.types.length) ++ done, rest, va', ?_, hrest, hlaid'', ?_, ?_⟩
    · rw [List.cons_append, outputs, hout, List.append_assoc]
    · rw [List.flatMap_cons, popAll_append, hva]
    · intro text
      rw [List.flatMap_cons, List.append_assoc,
        dofmt_piece (hps p List.mem_cons_self), hrun text, htake, List.foldl_append]

theorem consumes_of_supported {ps : List Piece} (hps : ∀ p ∈ ps, p.Supported) : Consumes ps := by
  intro h m va args htypes hlaid σ output s
  obtain ⟨done, rest, va', hout, hrest, -, -, hrun⟩ := dofmt_pieces (h := h)
    (s := s) hps (by rw [List.append_nil]; exact htypes) hlaid
  have hend := hrun []
  rw [List.append_nil] at hend hout
  rw [hend, hout]
  simp only [dofmt, outputs, List.append_nil]

end

/-! ## The other conversions -/

/-- `dofmt` outputs the first character of a modifier that it does not know. -/
theorem dofmt_unknown {c : Conversion} (hc : c.modifier ∉ [Modifier.none, .l, .ll, .q])
    (rest : List Byte) :
    ∃ x text, x ≠ 0 ∧ ∀ (σ : Type) (h : Host) (m : Bytes) (output : σ → List Byte → σ) (s : σ)
      (va : ℤ), dofmt h m output none (c.text ++ rest) s va
        = dofmt h m output none text (output s [x]) va := by
  have hother : ∃ x tail, c.modifier.text = x :: tail ∧ x ≠ 0 ∧ isDigit x = false
      ∧ reswitch x = .other := by
    revert hc
    cases c.modifier
    case h => exact fun _ => ⟨byte 'h', [], rfl, by decide, by decide, by decide⟩
    case hh => exact fun _ => ⟨byte 'h', [byte 'h'], rfl, by decide, by decide, by decide⟩
    case z => exact fun _ => ⟨byte 'z', [], rfl, by decide, by decide, by decide⟩
    case j => exact fun _ => ⟨byte 'j', [], rfl, by decide, by decide, by decide⟩
    case t => exact fun _ => ⟨byte 't', [], rfl, by decide, by decide, by decide⟩
    all_goals
      intro hc
      exact absurd (by decide) hc
  obtain ⟨x, tail, htext, hne, hdigit, hswitch⟩ := hother
  refine ⟨x, tail ++ (c.conv.byte :: rest), hne, ?_⟩
  intro σ h m output s va
  obtain ⟨digits, hheader⟩ := dofmt_conversion (h := h) (m := m) (s := s)
    c rest
  rw [hheader, htext, List.cons_append, dofmt]
  have hgo : ∀ spec : Spec, spec.goOn x = none := by
    intro spec
    rw [goOn_of_switch (by rw [hdigit, Bool.and_false]), hswitch]
  simp only [hgo, hswitch, typeOf]

theorem consumes_tail {h : Host} {m : Bytes} {ps qs : List Piece} (hps : ∀ p ∈ ps, p.Supported)
    (hconsumes : Consumes (ps ++ qs)) (va : ℤ) :
    ∃ args, args.map Printf.Arg.type = qs.flatMap Piece.types
      ∧ Laid m (popAll m (ps.flatMap Piece.types) va).2 args
      ∧ ∀ calls, (∀ (σ : Type) (output : σ → List Byte → σ) (s : σ),
        dofmt h m output none (qs.flatMap Piece.text) s (popAll m (ps.flatMap Piece.types) va).2
          = .ok (calls.foldl output s)) → calls = outputs h qs args := by
  have htypes := @popAll_types m va ((ps ++ qs).flatMap Piece.types)
  have hlaid := @popAll_laid m va ((ps ++ qs).flatMap Piece.types)
  obtain ⟨done, rest, va', hout, hrest, hlaid', rfl, hrun⟩ :=
    dofmt_pieces (h := h) (s := []) hps htypes
      hlaid
  refine ⟨rest, hrest, hlaid', ?_⟩
  intro calls hcalls
  have hlist : ∀ (cs l : List (List Byte)), cs.foldl (fun l c => l ++ [c]) l = l ++ cs := by
    intro cs
    induction cs with
    | nil => exact fun l => (List.append_nil l).symm
    | cons c cs ih =>
      intro l
      rw [List.foldl_cons, ih, List.append_assoc, List.singleton_append]
  have hall := hconsumes h m va _ htypes hlaid _ (fun (l : List (List Byte)) c => l ++ [c]) []
  rw [List.flatMap_append, hrun, hcalls, hlist, hlist, hlist, hout, List.nil_append,
    List.nil_append] at hall
  exact List.append_cancel_left (Except.ok.inj hall)

/-- A host that outputs nothing, or a NUL if the first argument is not the integer 0. -/
def firstHost : Host where
  format _ args := some (if args.head? = some (.int 0) then [] else [0])
  fits := by
    intro fmt args out h
    cases h
    split
    all_goals decide
  rightFirst := false

def oneWord : Bytes := fun x => if -4 ≤ x ∧ x < 0 then 1 else 0

theorem supported_of_consumes {ps qs : List Piece} {p : Piece} (hps : ∀ q ∈ ps, q.Supported)
    (hconsumes : Consumes (ps ++ p :: qs)) : p.Supported := by
  by_contra hnot
  cases p with
  | char c => exact hnot trivial
  | percent => exact hnot trivial
  | conversion c =>
    obtain ⟨offset, hoffset⟩ := popAll_offset (ps.flatMap Piece.types)
    obtain ⟨args, htypes, hlaid, hall⟩ :=
      consumes_tail (h := firstHost) (m := oneWord) hps hconsumes offset
    rw [hoffset, Int.sub_self] at hlaid hall
    rw [List.flatMap_cons] at hall
    have hexpected : outputs firstHost (.conversion c :: qs) args
        = (if (popAll oneWord (Piece.conversion c).types 0).1.head? = some (.int 0) then []
          else [0]) :: outputs firstHost qs (args.drop (Piece.conversion c).types.length) := by
      rw [outputs, (outputs_popAll htypes hlaid).1]
      rfl
    by_cases hmod : c.modifier ∈ [Modifier.none, .l, .ll, .q]
    · have hone : c.type = .double ∧ c.stars = 1 := by
        by_contra hone
        exact hnot ⟨hmod, hone⟩
      have hpop : pop firstHost oneWord c.type c.stars 0
          = some ([.int 0, .double (read64 oneWord (-16))], -16) := by
        rw [hone.1, hone.2]
        rfl
      obtain ⟨calls, -, hcalls⟩ :=
        dofmt_calls firstHost oneWord none (qs.flatMap Piece.text) (-16)
      have heq := hall ([] :: calls) fun σ output s => by
        change dofmt _ _ _ none (c.text ++ _) s 0 = _
        rw [dofmt_known hmod hpop]
        exact hcalls σ output (output s [])
      rw [hexpected] at heq
      have hhead := (List.cons.inj heq).1
      have htypes' : (Piece.conversion c).types = [.int, .double] := by
        rw [Piece.types, hone.1, hone.2]
        rfl
      rw [htypes'] at hhead
      exact absurd hhead (by decide)
    · obtain ⟨x, text, hne, hrun⟩ := dofmt_unknown hmod (qs.flatMap Piece.text)
      obtain ⟨calls, -, hcalls⟩ := dofmt_calls firstHost oneWord none text 0
      have heq := hall ([x] :: calls) fun σ output s => by
        change dofmt _ _ _ none (c.text ++ _) s 0 = _
        rw [hrun]
        exact hcalls σ output (output s [x])
      rw [hexpected] at heq
      have hhead := (List.cons.inj heq).1
      split at hhead
      · cases hhead
      · exact hne (List.cons.inj hhead).1

/-- The conversions of a format get their own arguments, whatever these are, just if their modifiers
are known and none is a floating point conversion with one `*`. -/
theorem consumes_iff (ps : List Piece) : Consumes ps ↔ ∀ p ∈ ps, p.Supported := by
  constructor
  · intro hconsumes
    by_contra hnot
    have hfirst : ∃ good p rest, ps = good ++ p :: rest ∧ (∀ q ∈ good, q.Supported)
        ∧ ¬ p.Supported := by
      clear hconsumes
      induction ps with
      | nil => exact absurd (fun p hp => by cases hp) hnot
      | cons p ps ih =>
        by_cases hp : p.Supported
        · have htail : ¬ ∀ q ∈ ps, q.Supported := fun h => hnot fun q hq =>
            (List.mem_cons.mp hq).elim (fun heq => heq ▸ hp) (h q)
          obtain ⟨good, q, rest, rfl, hgood, hq⟩ := ih htail
          refine ⟨p :: good, q, rest, rfl, ?_, hq⟩
          intro r hr
          rcases List.mem_cons.mp hr with rfl | hr
          · exact hp
          · exact hgood r hr
        · exact ⟨[], p, ps, rfl, (fun q hq => nomatch hq), hp⟩
    obtain ⟨good, p, rest, rfl, hgood, hp⟩ := hfirst
    exact hp (supported_of_consumes hgood hconsumes)
  · exact consumes_of_supported

/-- `%*f` -/
def widthField : Conversion := ⟨[], .star, .none, .none, .f⟩

theorem widthField_shifts : ¬ Consumes [.conversion widthField] := by
  intro h
  have hgood : ∀ p ∈ ([] : List Piece), p.Supported := fun p hp => nomatch hp
  have hsupported : (Piece.conversion widthField).Supported := supported_of_consumes hgood h
  exact hsupported.2 ⟨rfl, rfl⟩

end Vmir.PrintfArguments
