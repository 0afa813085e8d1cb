import Vmir.AbbrevEncoding

set_option autoImplicit false

/-!
# Records are read

What the fields of a record settle, with an abbreviation and without.
-/
namespace Vmir.AbbrevReads
open BitSlices BitReader BitReads FieldReads Vbr Abbrevs AbbrevEncoding Ir

variable {rdata : List (BitVec 8)}

theorem intWidth_ofNat {n : ℕ} (h : n < 2 ^ 31) : intWidth (BitVec.ofNat 32 n) = n := by
  unfold intWidth
  have hval : (BitVec.ofNat 32 n).toNat = n := by rw [BitVec.toNat_ofNat, Nat.mod_eq_of_lt (by omega)]
  rw [BitVec.toInt_eq_toNat_of_lt (by omega), hval, Int.toNat_natCast]

theorem intWidth_lt (x : BitVec 32) : intWidth x < 2 ^ 31 := by
  have h : x.toInt < 2 ^ (32 - 1) := BitVec.toInt_lt
  unfold intWidth
  omega

theorem setWidth_narrow {x : BitVec 64} (h : x.toNat < 2 ^ 32) :
    (BitVec.ofNat 32 x.toNat).setWidth 64 = x := by
  rw [setWidth_ofNat h, BitVec.ofNat_toNat, BitVec.setWidth_eq]

theorem vbrFits_scalar {w : ℕ} (h : 0 < w ∧ w ≤ 32) {x : BitVec 64} (hone : w = 1 → x.toNat = 0) :
    VbrFits w x.toNat := ⟨h.1, h.2, hone⟩

theorem vbrFits_six {v : ℕ} : VbrFits 6 v := vbrFits_of_pos (by omega) (by omega)

/-! ## Arrays -/

theorem stays_element (type : IrAbbrevOperand) : Stays rdata (readElement rdata type) := by
  unfold readElement
  split
  · exact (stays_bits _).thenPure _
  · exact (stays_readVbrOf 32 _).thenPure _
  · exact (stays_bits 6).thenPure _
  · exact Stays.throw _

theorem stays_loadArray (type : IrAbbrevOperand) : Stays rdata (loadArray rdata type) :=
  (stays_readVbrOf 32 6).bind fun _ => (stays_element type).readMany _

theorem char6_getD {x : BitVec 64} (h : x ∈ char6Table) :
    char6Table.getD (char6Table.idxOf x) 0 = x ∧ char6Table.idxOf x < 2 ^ 6 := by
  have hlen : char6Table.length = 2 ^ 6 := by decide +kernel
  have hlt := List.idxOf_lt_length_of_mem h
  constructor
  · rw [List.getD_eq_getElem?_getD, List.getElem?_eq_getElem hlt, Option.getD_some,
      List.getElem_idxOf hlt]
  · omega

theorem exact_element {e : Element} {x : BitVec 64} (hx : e.Expresses x) (hlt : x.toNat < 2 ^ 32) :
    Exact rdata (readElement rdata e.operand) (e.valueFields x) x := by
  have hnarrow := setWidth_narrow hlt
  cases e with
  | fixed w h =>
    have hread := (@exact_bits rdata _ h x.toNat).thenPure (BitVec.setWidth 64)
    rw [hnarrow] at hread
    change Exact rdata (bits rdata (intWidth (BitVec.ofNat 32 w)) >>= _) _ _
    rw [intWidth_ofNat (by omega)]
    exact hread
  | vbr w h =>
    have hread := (@exact_readVbrOf rdata _ _ _ (vbrFits_scalar h hx) hlt).thenPure
      (BitVec.setWidth 64)
    rw [hnarrow] at hread
    change Exact rdata (readVbr rdata (intWidth (BitVec.ofNat 32 w)) >>= _) _ _
    rw [intWidth_ofNat (by omega)]
    exact hread
  | char6 =>
    obtain ⟨hget, hidx⟩ := char6_getD hx
    have hread := (@exact_bits rdata 6 (by omega) (char6Table.idxOf x)).thenPure
      fun y => char6Table.getD y.toNat 0
    rw [BitVec.toNat_ofNat, Nat.mod_eq_of_lt (by omega), hget] at hread
    exact hread

theorem exact_loadArray {e : Element} {xs : List (BitVec 64)} (hxs : ∀ x ∈ xs, e.Expresses x)
    (hlen : xs.length < 2 ^ 31) (hlt : ∀ x ∈ xs, x.toNat < 2 ^ 32) :
    Exact rdata (loadArray rdata e.operand)
      (vbrFields 6 xs.length ++ xs.flatMap e.valueFields) xs := by
  refine (exact_readVbrOf vbrFits_six (by omega)).bind ?_ fun _ => (stays_element _).readMany _
  rw [intWidth_ofNat hlen]
  have h := Exact.readMany (fun x hx => @exact_element rdata e x (hxs x hx) (hlt x hx))
    (stays_element _)
  rwa [List.map_id'] at h

theorem setWidth_lt (y : BitVec 32) : (y.setWidth 64).toNat < 2 ^ 32 := by
  rw [BitVec.toNat_setWidth_of_le (by omega)]
  exact y.isLt

theorem char6_lt (i : ℕ) : (char6Table.getD i 0).toNat < 2 ^ 32 := by
  have hall : char6Table.all (fun x => x.toNat < 2 ^ 32) = true := by decide +kernel
  have hzero : (0 : BitVec 64).toNat < 2 ^ 32 := by decide
  rw [List.getD_eq_getElem?_getD]
  by_cases h : i < char6Table.length
  · rw [List.getElem?_eq_getElem h, Option.getD_some]
    exact of_decide_eq_true (List.all_eq_true.mp hall _ (List.getElem_mem h))
  · rw [List.getElem?_eq_none (Nat.le_of_not_lt h), Option.getD_none]
    exact hzero

theorem element_lt {type : IrAbbrevOperand} (bs : BcBitStream) (x : BitVec 64) (bs' : BcBitStream)
    (h : readElement rdata type bs = .ok (x, bs')) : x.toNat < 2 ^ 32 := by
  obtain ⟨t, data⟩ := type
  cases t with
  | fixedWidth =>
    obtain ⟨y, mid, -, hpure⟩ := read_bind_ok.mp h
    obtain ⟨rfl, -⟩ := read_pure_ok.mp hpure
    exact setWidth_lt y
  | vbr =>
    obtain ⟨y, mid, -, hpure⟩ := read_bind_ok.mp h
    obtain ⟨rfl, -⟩ := read_pure_ok.mp hpure
    exact setWidth_lt y
  | char6 =>
    obtain ⟨y, mid, -, hpure⟩ := read_bind_ok.mp h
    obtain ⟨rfl, -⟩ := read_pure_ok.mp hpure
    exact char6_lt y.toNat
  | litteral => exact absurd h read_throw
  | array => exact absurd h read_throw
  | blob => exact absurd h read_throw

theorem loadArray_narrow {type : IrAbbrevOperand} {bs bs' : BcBitStream} {xs : List (BitVec 64)}
    (h : loadArray rdata type bs = .ok (xs, bs')) :
    xs.length < 2 ^ 31 ∧ ∀ x ∈ xs, x.toNat < 2 ^ 32 := by
  obtain ⟨n, mid, -, hmany⟩ := read_bind_ok.mp h
  obtain ⟨hlen, hall⟩ := readMany_all element_lt hmany
  exact ⟨hlen ▸ intWidth_lt n, hall⟩

/-! ## Records with an abbreviation -/

theorem stays_argv (ia : IrAbbrev) : Stays rdata (readArgv rdata ia) := by
  induction ia with
  | nil => exact Stays.pure []
  | cons op ops ih =>
    unfold readArgv
    split
    · exact ih.thenPure _
    · exact (stays_bits _).bind fun x => ih.thenPure (x.setWidth 64 :: ·)
    · exact (stays_readVbrOf 64 _).bind fun x => ih.thenPure (x :: ·)
    · split
      · exact stays_loadArray _
      · exact Stays.throw _
    · exact Stays.throw _

theorem exact_argv {ss : List Scalar} {e : Option Element} {xs : List (BitVec 64)}
    (hxs : Expresses ss e xs) (hnarrow : Narrow ss e xs) :
    Exact rdata (readArgv rdata (ss.map Scalar.operand ++ arrayOperands e))
      (valuesFields ss e xs) xs := by
  induction ss generalizing xs with
  | nil =>
    cases e with
    | none =>
      obtain rfl := hxs
      exact Exact.pure []
    | some e => exact exact_loadArray hxs hnarrow.1 hnarrow.2
  | cons s ss ih =>
    cases xs with
    | nil => exact absurd hxs id
    | cons x xs =>
      obtain ⟨hx, hrest⟩ := hxs
      cases s with
      | literal v =>
        obtain rfl : x = v := hx
        have hlit := setWidth_narrow hnarrow.1
        rw [BitVec.ofNat_toNat] at hlit
        change Exact rdata (readArgv rdata _ >>= fun as =>
          Pure.pure ((x.setWidth 32).setWidth 64 :: as)) _ _
        rw [hlit]
        exact (ih hrest hnarrow.2).thenPure (x :: ·)
      | fixed w h =>
        have hpow : 2 ^ w ≤ 2 ^ 32 := Nat.pow_le_pow_right (by omega) h
        have hx : x.toNat < 2 ^ w := hx
        change Exact rdata (bits rdata (intWidth (BitVec.ofNat 32 w)) >>= fun x =>
          readArgv rdata _ >>= fun as => Pure.pure (x.setWidth 64 :: as)) _ _
        rw [intWidth_ofNat (by omega)]
        refine (exact_bits h x.toNat).bind ?_ fun x => (stays_argv _).thenPure (x.setWidth 64 :: ·)
        rw [setWidth_narrow (by omega)]
        exact (ih hrest hnarrow).thenPure (x :: ·)
      | vbr w h =>
        change Exact rdata (readVbr64 rdata (intWidth (BitVec.ofNat 32 w)) >>= fun x =>
          readArgv rdata _ >>= fun as => Pure.pure (x :: as)) _ _
        rw [intWidth_ofNat (by omega)]
        refine (exact_readVbrOf (vbrFits_scalar h hx) x.isLt).bind ?_ fun x =>
          (stays_argv _).thenPure (x :: ·)
        rw [BitVec.ofNat_toNat, BitVec.setWidth_eq]
        exact (ih hrest hnarrow).thenPure (x :: ·)

theorem argv_narrow {ss : List Scalar} {e : Option Element} {bs bs' : BcBitStream}
    {xs : List (BitVec 64)}
    (h : readArgv rdata (ss.map Scalar.operand ++ arrayOperands e) bs = .ok (xs, bs')) :
    Narrow ss e xs := by
  induction ss generalizing bs xs with
  | nil =>
    cases e with
    | none => trivial
    | some e => exact loadArray_narrow h
  | cons s ss ih =>
    cases s with
    | literal v =>
      obtain ⟨as, mid, has, hpure⟩ := read_bind_ok.mp h
      obtain ⟨rfl, rfl⟩ := read_pure_ok.mp hpure
      exact ⟨setWidth_lt _, ih has⟩
    | fixed w hw =>
      obtain ⟨x, mid, -, hrest⟩ := read_bind_ok.mp h
      obtain ⟨as, mid', has, hpure⟩ := read_bind_ok.mp hrest
      obtain ⟨rfl, rfl⟩ := read_pure_ok.mp hpure
      exact ih has
    | vbr w hw =>
      obtain ⟨x, mid, -, hrest⟩ := read_bind_ok.mp h
      obtain ⟨as, mid', has, hpure⟩ := read_bind_ok.mp hrest
      obtain ⟨rfl, rfl⟩ := read_pure_ok.mp hpure
      exact ih has

theorem narrow_code {ss : List Scalar} {e : Option Element} {a b : BitVec 64}
    {xs : List (BitVec 64)} (h : Narrow ss e (a :: xs)) (hb : b.toNat < 2 ^ 32) :
    Narrow ss e (b :: xs) := by
  cases ss with
  | nil =>
    cases e with
    | none => trivial
    | some e =>
      exact ⟨h.1, List.forall_mem_cons.mpr ⟨hb, (List.forall_mem_cons.mp h.2).2⟩⟩
  | cons s ss =>
    cases s with
    | literal v => exact ⟨hb, h.2⟩
    | fixed w hw => exact h
    | vbr w hw => exact h

/-! ## Records without an abbreviation -/

theorem stays_recordOf (as : List (BitVec 64)) : Stays rdata (recordOf as) := by
  cases as with
  | nil => exact Stays.throw _
  | cons a as => exact Stays.pure _

theorem exact_op (x : BitVec 64) :
    Exact rdata (readVbr64 rdata 6) (vbrFields 6 x.toNat) x := by
  have h := @exact_readVbrOf rdata 6 64 _ vbrFits_six x.isLt
  rwa [BitVec.ofNat_toNat, BitVec.setWidth_eq] at h

theorem stays_ops (code numops : BitVec 32) : Stays rdata (do
    let numops ← checkCount numops
    let argv ← readMany (readVbr64 rdata 6) numops
    Pure.pure (Record.mk code argv)) :=
  (stays_checkCount numops).bind fun n =>
    ((stays_readVbrOf 64 6).readMany n).thenPure (Record.mk code)

theorem exact_unabbrev (code : BitVec 32) {ops : List (BitVec 64)} (hlen : ops.length < 2 ^ 31) :
    Exact rdata (irUnabbrevRecord rdata) (unabbrevFields code ops) ⟨code, ops⟩ := by
  refine (exact_readVbrOf (vbrFits_six (v := code.toNat)) code.isLt).bind ?_ fun c =>
    (stays_readVbrOf 32 6).bind (stays_ops c)
  rw [BitVec.ofNat_toNat, BitVec.setWidth_eq]
  refine (exact_readVbrOf (vbrFits_six (v := ops.length)) (by omega)).bind ?_ (stays_ops code)
  unfold checkCount
  rw [BitVec.toNat_ofNat, Nat.mod_eq_of_lt (by omega), if_neg (by omega)]
  have hops := @Exact.readMany _ _ rdata _ _ id ops (fun x _ => @exact_op rdata x)
    (stays_readVbrOf 64 6)
  rw [List.map_id] at hops
  exact hops.thenPure (Record.mk code)

theorem reads_unabbrev (code : BitVec 32) {ops : List (BitVec 64)} (hlen : ops.length < 2 ^ 32) :
    Reads rdata (irUnabbrevRecord rdata) (unabbrevFields code ops) ⟨code, ops⟩ := by
  by_cases hcount : ops.length < 2 ^ 31
  · exact (exact_unabbrev code hcount).reads
  · refine (reads_readVbrOf 32 (vbrFits_six (v := code.toNat))).bind ?_ fun c =>
      (stays_readVbrOf 32 6).bind (stays_ops c)
    refine (reads_readVbrOf 32 (vbrFits_six (v := ops.length))).bind ?_ (stays_ops _)
    unfold checkCount
    rw [BitVec.toNat_ofNat, Nat.mod_eq_of_lt hlen, if_pos (by omega)]
    exact Reads.throw _ _ _

/-- No record has more operands than an `int` can count. -/
theorem unabbrev_length {bs bs' : BcBitStream} {r : Record}
    (h : irUnabbrevRecord rdata bs = .ok (r, bs')) : r.argv.length < 2 ^ 31 := by
  obtain ⟨c, mid, -, hnumops⟩ := read_bind_ok.mp h
  obtain ⟨n, mid, -, hcount⟩ := read_bind_ok.mp hnumops
  obtain ⟨m, mid, hm, hops⟩ := read_bind_ok.mp hcount
  obtain ⟨as, mid, has, hpure⟩ := read_bind_ok.mp hops
  obtain ⟨rfl, -⟩ := read_pure_ok.mp hpure
  obtain ⟨hlen, -⟩ := readMany_all (q := fun _ => True) (fun _ _ _ _ => trivial) has
  unfold checkCount at hm
  split at hm
  · exact absurd hm read_throw
  · obtain ⟨rfl, -⟩ := read_pure_ok.mp hm
    change as.length < 2 ^ 31
    omega

end Vmir.AbbrevReads
