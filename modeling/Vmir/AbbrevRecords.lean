import Vmir.AbbrevReads

set_option autoImplicit false

/-!
# Records with and without an abbreviation

When a record that is written under an abbreviation is read as it is without one.
-/
namespace Vmir.AbbrevRecords
open BitSlices BitReader BitReads FieldReads Vbr Abbrevs AbbrevEncoding AbbrevReads Ir

/-- An abbreviation that is defined and then used for a record in the stream `rdata`, and the record
without it in the stream `plain`. -/
structure Use where
  rdata : List (BitVec 8)
  plain : List (BitVec 8)
  d : Definition
  code : BitVec 32
  ops : List (BitVec 64)
  ia : IrAbbrev
  scDef : Scope
  sc : Scope
  ibi : BitVec 32
  idWidth : ℕ
  index : ℕ
  bsDef : BcBitStream
  bsDone : BcBitStream
  bs : BcBitStream
  bsPlain : BcBitStream

def Use.values (u : Use) : List (BitVec 64) := u.code.setWidth 64 :: u.ops

def Use.fields (u : Use) : List Field :=
  ⟨u.idWidth, 4 + u.index⟩ :: valuesFields u.d.scalars u.d.array u.values

def Use.plainFields (u : Use) : List Field := ⟨u.idWidth, 3⟩ :: unabbrevFields u.code u.ops

/-- The definition expresses the record and is accepted, as `ia`, which the id of the record stands
for. The lengths of the streams are `int`s. -/
structure Use.Valid (u : Use) : Prop where
  length : u.rdata.length < 2 ^ 31
  plainLength : u.plain.length < 2 ^ 31
  idWidth : u.idWidth ≤ 32
  expresses : Expresses u.d.scalars u.d.array u.values
  betweenDef : Between u.rdata u.bsDef
  between : Between u.rdata u.bs
  betweenPlain : Between u.plain u.bsPlain
  definition : At u.rdata (position u.bsDef) u.d.fields
  accepted : irDefineAbbrev u.rdata u.scDef u.bsDef = .ok (u.scDef.insert u.ia, u.bsDone)
  behind : position u.bsDef + size u.d.fields ≤ position u.bs
  found : u.sc.find u.ibi (4 + u.index) = some u.ia
  record : At u.rdata (position u.bs) u.fields
  recordPlain : At u.plain (position u.bsPlain) u.plainFields

/-- Both reads call the handler with one record, and take the bits of their encodings. -/
def Use.Same (u : Use) : Prop :=
  ∃ r bs' bsPlain',
    parseTurn u.rdata u.sc u.ibi u.idWidth u.bs = .ok (.record r, bs')
      ∧ parseTurn u.plain u.sc u.ibi u.idWidth u.bsPlain = .ok (.record r, bsPlain')
      ∧ position bs' = position u.bs + size u.fields
      ∧ position bsPlain' = position u.bsPlain + size u.plainFields

/-- The condition: no field begins inside the last byte of its stream, literals and the elements of
the array have 32 bits, and the operands and the elements can be counted. -/
structure Use.Holds (u : Use) : Prop where
  clear : Clear u.rdata (position u.bs) u.fields
  clearPlain : Clear u.plain (position u.bsPlain) u.plainFields
  narrow : Narrow u.d.scalars u.d.array u.values
  count : u.ops.length < 2 ^ 31

/-! ## A turn -/

variable {rdata : List (BitVec 8)} {sc : Scope} {ibi : BitVec 32}

theorem stays_abbrev : Stays rdata (readAbbrev rdata) :=
  (stays_readVbrOf 32 5).bind fun n => (stays_checkCount n).bind fun n => stays_operands n

theorem stays_unabbrev : Stays rdata (irUnabbrevRecord rdata) :=
  (stays_readVbrOf 32 6).bind fun c => (stays_readVbrOf 32 6).bind (stays_ops c)

theorem stays_dispatch (id : ℕ) : Stays rdata (irDispatchAbbrev rdata sc ibi id) := by
  unfold irDispatchAbbrev
  split
  · exact Stays.throw _
  · exact (stays_argv _).bind fun as => stays_recordOf as

theorem stays_turn (id : ℕ) : Stays rdata (turnOf rdata sc ibi id) := by
  unfold turnOf
  split
  · exact Stays.pure _
  · exact Stays.pure _
  · exact (stays_abbrev.thenPure _).thenPure _
  · exact stays_unabbrev.thenPure _
  · exact (stays_dispatch _).thenPure _

theorem turnOf_dispatch (i : ℕ) : turnOf rdata sc ibi (4 + i) = (do
    let r ← irDispatchAbbrev rdata sc ibi (4 + i)
    pure (Turn.record r)) := by
  rw [Nat.add_comm]
  rfl

theorem exact_turn {idWidth id : ℕ} (hwidth : idWidth ≤ 32) (hid : id < 2 ^ 32) {fs : List Field}
    {t : Turn} (h : Exact rdata (turnOf rdata sc ibi id) fs t) :
    Exact rdata (parseTurn rdata sc ibi idWidth) (⟨idWidth, id⟩ :: fs) t := by
  refine Exact.head (exact_bits hwidth id) ?_ fun id => stays_turn id.toNat
  rwa [BitVec.toNat_ofNat, Nat.mod_eq_of_lt hid]

theorem at_value_lt {p width v : ℕ} {fs : List Field} (h : At rdata p (⟨width, v⟩ :: fs))
    (hwidth : width ≤ 32) : v < 2 ^ 32 := by
  have hlt := slice_lt (ofBytes rdata) p width
  rw [h.1] at hlt
  exact lt_of_lt_of_le hlt (Nat.pow_le_pow_right (by omega) hwidth)

/-! ## The definition -/

theorem typed_size (type : ℕ) (fs : List Field) :
    4 ≤ size (⟨1, 0⟩ :: ⟨3, type⟩ :: fs) := by
  simp only [size_cons]
  omega

theorem scalar_size (s : Scalar) : 4 ≤ size s.fields := by
  cases s with
  | literal v =>
    have h := vbrFields_size 8 v.toNat
    change 4 ≤ size (_ :: _)
    rw [size_cons]
    omega
  | fixed w h => exact typed_size 1 _
  | vbr w h => exact typed_size 2 _

theorem element_size (e : Element) : 4 ≤ size e.fields := by
  cases e with
  | fixed w h => exact typed_size 1 _
  | vbr w h => exact typed_size 2 _
  | char6 => exact typed_size 4 _

theorem array_size (e : Option Element) : 4 * arrayCount e ≤ size (arrayFields e) := by
  cases e with
  | none => exact le_rfl
  | some e =>
    have h := element_size e
    change 8 ≤ size (_ :: _ :: _)
    simp only [size_cons]
    omega

theorem insert_injective {ia ib : IrAbbrev} (h : sc.insert ia = sc.insert ib) : ia = ib := by
  unfold Scope.insert at h
  split at h
  · next id _ =>
    have hupdate := congrFun (Scope.mk.inj h).1 id
    rw [Function.update_self, Function.update_self] at hupdate
    exact List.singleton_inj.mp (List.append_cancel_left hupdate)
  · exact List.singleton_inj.mp (List.append_cancel_left (Scope.mk.inj h).2.2)

variable {u : Use}

theorem Use.Valid.count_lt (h : u.Valid) : u.d.count < 2 ^ 32 := by
  have hlen := h.length
  have hscalars := le_size_flatMap scalar_size u.d.scalars
  have harray := array_size u.d.array
  have hcount := vbrFields_size 5 u.d.count
  have hsize : size u.d.fields = size (vbrFields 5 u.d.count)
      + (size (u.d.scalars.flatMap Scalar.fields) + size (arrayFields u.d.array)) := by
    rw [Definition.fields, size_append, size_append]
  have hin := h.definition.size_le (by omega)
  change u.d.scalars.length + arrayCount u.d.array < 2 ^ 32
  omega

theorem Use.Valid.id_pos (h : u.Valid) : 0 < u.idWidth := by
  have hlt := slice_lt (ofBytes u.rdata) (position u.bs) u.idWidth
  rw [h.record.1] at hlt
  by_contra hzero
  rw [Nat.eq_zero_of_not_pos hzero] at hlt
  change 4 + u.index < 1 at hlt
  omega

/-- What stands before a record that is read is clear, so that the definition was read as it is. -/
theorem Use.Valid.operands (h : u.Valid) (hbegin : u.bs.bytesOffset < u.rdata.length) :
    u.ia = u.d.operands := by
  have hin : position u.bs + u.idWidth ≤ 8 * u.rdata.length := h.record.2.1
  have hpos := h.id_pos
  have hclear := clear_of_later h.behind (by omega)
    ((before_end_iff h.between.holds h.between.remain (by omega)).mp hbegin)
  obtain ⟨ia, mid, hread, hpure⟩ := read_bind_ok.mp h.accepted
  obtain ⟨hia, -⟩ := read_pure_ok.mp hpure
  obtain ⟨-, hcase⟩ :=
    reads_definition u.d h.count_lt u.bsDef ia mid h.betweenDef h.definition hread
  rw [insert_injective hia]
  rcases hcase with ⟨-, hval, -⟩ | ⟨hunclear, -, -⟩
  · exact hval
  · exact absurd hclear hunclear

/-! ## The two reads -/

theorem Use.Valid.exact_record (h : u.Valid) (hia : u.ia = u.d.operands)
    (hnarrow : Narrow u.d.scalars u.d.array u.values) :
    Exact u.rdata (parseTurn u.rdata u.sc u.ibi u.idWidth) u.fields (.record ⟨u.code, u.ops⟩) := by
  refine exact_turn h.idWidth (at_value_lt h.record h.idWidth) ?_
  rw [turnOf_dispatch]
  refine Exact.thenPure ?_ Turn.record
  unfold irDispatchAbbrev
  rw [h.found, hia]
  have hcode : recordOf u.values = pure ⟨u.code, u.ops⟩ := by
    change pure (Record.mk ((u.code.setWidth 64).setWidth 32) u.ops) = _
    rw [BitVec.setWidth_setWidth_of_le _ (by omega), BitVec.setWidth_eq]
  exact (exact_argv h.expresses hnarrow).last (hcode ▸ Exact.pure _) stays_recordOf

theorem Use.Valid.ops_lt (h : u.Valid) : u.ops.length < 2 ^ 32 := by
  have hlen := h.plainLength
  have hops := le_size_flatMap (fun x : BitVec 64 => vbrFields_size 6 x.toNat) u.ops
  have hcode := vbrFields_size 6 u.code.toNat
  have hcount := vbrFields_size 6 u.ops.length
  have hsize : size u.plainFields = u.idWidth + (size (vbrFields 6 u.code.toNat)
      + (size (vbrFields 6 u.ops.length)
        + size (u.ops.flatMap fun x => vbrFields 6 x.toNat))) := by
    rw [Use.plainFields, size_cons, unabbrevFields, size_append, size_append]
  have hin := h.recordPlain.size_le (by omega)
  omega

theorem Use.Valid.reads_plain (h : u.Valid) :
    Reads u.plain (parseTurn u.plain u.sc u.ibi u.idWidth) u.plainFields
      (.record ⟨u.code, u.ops⟩) := by
  refine Reads.head (reads_bits h.idWidth 3) ?_ fun id => stays_turn id.toNat
  exact (reads_unabbrev u.code h.ops_lt).thenPure Turn.record

/-! ## What a turn read -/

theorem begins_of_record {idWidth : ℕ} (hpos : 0 < idWidth) {bs bs' : BcBitStream} {r : Record}
    (h : parseTurn rdata sc ibi idWidth bs = .ok (.record r, bs')) :
    bs.bytesOffset < rdata.length := by
  by_contra hend
  rw [parseTurn, bits_bind, readBits_end (by omega) (by omega)] at h
  exact absurd (read_pure_ok.mp h).1 nofun

theorem turn_of_begin {idWidth id : ℕ} (hwidth : idWidth ≤ 32) {bs bs' : BcBitStream}
    (hb : Between rdata bs) {fs : List Field} (hat : At rdata (position bs) (⟨idWidth, id⟩ :: fs))
    (hbegin : bs.bytesOffset < rdata.length) {t : Turn}
    (h : parseTurn rdata sc ibi idWidth bs = .ok (t, bs')) :
    ∃ mid, turnOf rdata sc ibi id mid = .ok (t, bs') := by
  have hid : At rdata (position bs) [⟨idWidth, id⟩] := at_single.mpr ⟨hat.1, hat.2.1⟩
  obtain ⟨mid, hread, -, -⟩ :=
    gives_bits hwidth id bs hb hid ((clear_single_iff hb hid).mpr (Or.inr hbegin))
  refine ⟨mid, ?_⟩
  obtain ⟨x, mid', hx, hturn⟩ := read_bind_ok.mp h
  obtain ⟨hx1, hmid⟩ := Prod.ext_iff.mp (Except.ok.inj (hx.symm.trans hread))
  change x = _ at hx1
  change mid' = _ at hmid
  rwa [hx1, hmid, BitVec.toNat_ofNat, Nat.mod_eq_of_lt (at_value_lt hat hwidth)] at hturn

theorem Use.Valid.count_of_read (h : u.Valid) {r : Record} {bs' : BcBitStream}
    (hread : parseTurn u.plain u.sc u.ibi u.idWidth u.bsPlain = .ok (.record r, bs')) :
    r.argv.length < 2 ^ 31 := by
  obtain ⟨mid, hturn⟩ := turn_of_begin h.idWidth h.betweenPlain h.recordPlain
    (begins_of_record h.id_pos hread) hread
  obtain ⟨r', mid', hr, hpure⟩ := read_bind_ok.mp hturn
  obtain ⟨hr', -⟩ := read_pure_ok.mp hpure
  rw [Turn.record.inj hr']
  exact unabbrev_length hr

theorem Use.Valid.narrow_of_read (h : u.Valid) (hia : u.ia = u.d.operands) {bs' : BcBitStream}
    (hread : parseTurn u.rdata u.sc u.ibi u.idWidth u.bs
      = .ok (.record ⟨u.code, u.ops⟩, bs')) :
    Narrow u.d.scalars u.d.array u.values := by
  obtain ⟨mid, hturn⟩ := turn_of_begin h.idWidth h.between h.record
    (begins_of_record h.id_pos hread) hread
  rw [turnOf_dispatch] at hturn
  obtain ⟨r, mid', hr, hpure⟩ := read_bind_ok.mp hturn
  obtain ⟨hr', -⟩ := read_pure_ok.mp hpure
  unfold irDispatchAbbrev at hr
  rw [h.found, hia] at hr
  obtain ⟨as, mid'', has, hrecord⟩ := read_bind_ok.mp hr
  have hnarrow := argv_narrow has
  cases as with
  | nil => exact absurd hrecord read_throw
  | cons a as =>
    obtain ⟨hr, -⟩ := read_pure_ok.mp hrecord
    rw [hr] at hr'
    rw [Use.values, (Record.mk.inj (Turn.record.inj hr')).2]
    exact narrow_code hnarrow (setWidth_lt u.code)

theorem Use.Valid.holds_of_same (h : u.Valid) (hsame : u.Same) : u.Holds := by
  obtain ⟨r, bs', bsPlain', hread, hplain, hpos, hposPlain⟩ := hsame
  have hcount := h.count_of_read hplain
  obtain ⟨-, ⟨hclearPlain, hval, -⟩ | ⟨-, -, hlt⟩⟩ :=
    h.reads_plain u.bsPlain _ bsPlain' h.betweenPlain h.recordPlain hplain
  · obtain rfl := Turn.record.inj hval
    have hia := h.operands (begins_of_record h.id_pos hread)
    have hnarrow := h.narrow_of_read hia hread
    obtain ⟨-, ⟨hclear, -, -⟩ | ⟨-, -, hlt⟩⟩ :=
      (h.exact_record hia hnarrow).reads u.bs _ bs' h.between h.record hread
    · exact ⟨hclear, hclearPlain, hnarrow, hcount⟩
    · omega
  · omega

/-! ## An array of integers of variable width -/

/-- A record of code 1 with one operand, under a code of three bits and an array of integers in
chunks of six bits. -/
def elementUse (bytes plain : List (BitVec 8)) (x : BitVec 64) : Use where
  rdata := [0x43, 0x86, 0x91, 0x01] ++ bytes
  plain := plain
  d := ⟨[.fixed 3 (by omega)], some (.vbr 6 (by omega))⟩
  code := 1
  ops := [x]
  ia := [⟨.fixedWidth, 3⟩, ⟨.array, 0⟩, ⟨.vbr, 6⟩]
  scDef := ⟨fun _ => [], none, []⟩
  sc := ⟨fun _ => [], none, [[⟨.fixedWidth, 3⟩, ⟨.array, 0⟩, ⟨.vbr, 6⟩]]⟩
  ibi := 12
  idWidth := 3
  index := 0
  bsDef := start
  bsDone := ⟨4, 5, 0⟩
  bs := ⟨4, 0, 0⟩
  bsPlain := start

theorem ok_of_toOption {α : Type} {x : Except Fault α} {a : α} (h : x.toOption = some a) :
    x = .ok a := by
  cases x with
  | error e => nomatch h
  | ok b => exact congrArg Except.ok (Option.some.inj h)

theorem elementUse_valid {bytes plain : List (BitVec 8)} {x : BitVec 64} {u : Use}
    (hu : elementUse bytes plain x = u) (hlen : u.rdata.length < 2 ^ 31)
    (hlenPlain : u.plain.length < 2 ^ 31) (hdef : At u.rdata 0 u.d.fields)
    (hacc : (readAbbrev u.rdata start).toOption = some (u.ia, ⟨4, 5, 0⟩))
    (hbehind : size u.d.fields ≤ 32) (hrecord : At u.rdata 32 u.fields)
    (hplain : At u.plain 0 u.plainFields) : u.Valid := by
  subst hu
  exact {
    length := hlen
    plainLength := hlenPlain
    idWidth := show 3 ≤ 32 by omega
    expresses := ⟨show 1 < 2 ^ 3 by omega, fun _ _ h => absurd h (by omega)⟩
    betweenDef := between_start _
    between := ⟨⟨Nat.zero_le 8, fun h => absurd rfl h, fun h => absurd rfl h⟩, Nat.succ_pos 7⟩
    betweenPlain := between_start _
    definition := hdef
    accepted := read_bind_ok.mpr ⟨_, _, ok_of_toOption hacc, rfl⟩
    behind := by
      change 0 + size _ ≤ 32
      rwa [Nat.zero_add]
    found := rfl
    record := hrecord
    recordPlain := hplain }

def wideElement : Use :=
  elementUse [0x4c, 0, 0x82, 0x20, 0x08, 0x82, 0x04, 0, 0]
    [0x0b, 0x02, 0x10, 0x04, 0x41, 0x10, 0x24, 0, 0, 0] 0x100000000

theorem wideElement_valid : wideElement.Valid :=
  elementUse_valid rfl (by decide) (by decide) (by decide +kernel) (by decide +kernel)
    (by decide +kernel) (by decide +kernel) (by decide +kernel)

/-- The operand 2^32 is read in 32 bits as an element of an array. -/
theorem wide_element_differs : wideElement.Valid ∧ ¬ wideElement.Same := by
  refine ⟨wideElement_valid, fun hsame => ?_⟩
  have hnarrow := (wideElement_valid.holds_of_same hsame).narrow
  exact absurd (hnarrow.2 0x100000000 List.mem_cons_self) (by decide)

def smallElement : Use := elementUse [0x4c, 0x50, 0, 0, 0] [0x0b, 0x82, 0x02, 0, 0] 5

theorem smallElement_narrow : ∀ x ∈ [(5 : BitVec 64)], x.toNat < 2 ^ 32 := by
  intro x hx
  rw [List.mem_singleton.mp hx]
  decide

theorem smallElement_valid : smallElement.Valid :=
  elementUse_valid rfl (by decide) (by decide) (by decide +kernel) (by decide +kernel)
    (by decide +kernel) (by decide +kernel) (by decide +kernel)

/-- A record is read the same under an abbreviation as without one when the condition holds. -/
theorem same_iff (u : Use) (h : u.Valid) : u.Same ↔ u.Holds := by
  constructor
  · exact h.holds_of_same
  · intro hcond
    have hid : At u.rdata (position u.bs) [⟨u.idWidth, 4 + u.index⟩] :=
      at_single.mpr ⟨h.record.1, h.record.2.1⟩
    have hbegin := ((clear_single_iff h.between hid).mp
      (clear_single.mpr hcond.clear.1)).resolve_left (Nat.pos_iff_ne_zero.mp h.id_pos)
    obtain ⟨bs', hread, -, hpos⟩ :=
      (h.exact_record (h.operands hbegin) hcond.narrow).gives u.bs h.between h.record hcond.clear
    have hplain := (@exact_turn u.plain u.sc u.ibi u.idWidth 3 h.idWidth (by omega) _ _
      ((exact_unabbrev u.code hcond.count).thenPure Turn.record)).gives
    obtain ⟨bsPlain', hreadPlain, -, hposPlain⟩ :=
      hplain u.bsPlain h.betweenPlain h.recordPlain hcond.clearPlain
    exact ⟨_, bs', bsPlain', hread, hreadPlain, hpos, hposPlain⟩

theorem same_iff_small : smallElement.Valid ∧ smallElement.Same :=
  ⟨smallElement_valid, (same_iff smallElement smallElement_valid).mpr
    ⟨by decide +kernel, by decide +kernel, ⟨Nat.one_lt_two_pow (by omega), smallElement_narrow⟩,
      Nat.one_lt_two_pow (by omega)⟩⟩

end Vmir.AbbrevRecords
