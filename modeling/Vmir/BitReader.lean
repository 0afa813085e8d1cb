import Mathlib.Data.BitVec
import Vmir.BitSlices

set_option autoImplicit false

/-!
# The bit reader

`vmir_bitstream.c`: a byte that is partly consumed is kept in `tmp`, shifted down, with the number
of its bits that remain.
-/
namespace Vmir.BitReader
open BitSlices

/-- `bcbitstream_t` but for the data. -/
structure BcBitStream where
  bytesOffset : ℕ
  remain : ℕ
  tmp : BitVec 8
deriving DecidableEq, Repr

def start : BcBitStream := ⟨0, 0, 0⟩

/-- The next byte is taken when the last one is used up. -/
def refill (bs : BcBitStream) (byte : BitVec 8) : BcBitStream :=
  if bs.remain = 0 then ⟨bs.bytesOffset + 1, 8, byte⟩ else bs

theorem refill_remain_pos (bs : BcBitStream) (byte : BitVec 8) : 0 < (refill bs byte).remain := by
  unfold refill
  split
  · exact Nat.succ_pos 7
  · omega

theorem refill_remain_le {bs : BcBitStream} (h : bs.remain < 8) (byte : BitVec 8) :
    (refill bs byte).remain ≤ 8 := by
  unfold refill
  split
  · exact le_rfl
  · omega

/-- `pick` bits of the byte are used up. -/
def consume (bs : BcBitStream) (pick : ℕ) : BcBitStream :=
  ⟨bs.bytesOffset, bs.remain - pick, bs.tmp >>> pick⟩

/-- The loop of `read_bits`. -/
def readBitsLoop (rdata : List (BitVec 8)) (bs : BcBitStream) (num : ℕ) (r : BitVec 32) (off : ℕ) :
    BitVec 32 × BcBitStream :=
  if num = 0 then (r, bs)
  else if rdata.length ≤ bs.bytesOffset then (0, bs)
  else
    let full := refill bs (rdata.getD bs.bytesOffset 0)
    have := refill_remain_pos bs (rdata.getD bs.bytesOffset 0)
    let pick := min num full.remain
    readBitsLoop rdata (consume full pick) (num - pick)
      (r ||| (full.tmp &&& ((1 : BitVec 8) <<< pick - 1)).setWidth 32 <<< off) (off + pick)
termination_by num
decreasing_by omega

def readBits (rdata : List (BitVec 8)) (bs : BcBitStream) (num : ℕ) : BitVec 32 × BcBitStream :=
  readBitsLoop rdata bs num 0 0

def alignBits32 (bs : BcBitStream) : BcBitStream :=
  ⟨(bs.bytesOffset + 3) / 4 * 4, 0, bs.tmp⟩

/-! ## The position -/

def position (bs : BcBitStream) : ℕ := 8 * bs.bytesOffset - bs.remain

/-- What is kept of a byte are the bits from the position on. -/
structure Holds (rdata : List (BitVec 8)) (bs : BcBitStream) : Prop where
  le : bs.remain ≤ 8
  offset : bs.remain ≠ 0 → 0 < bs.bytesOffset ∧ bs.bytesOffset ≤ rdata.length
  tmp : bs.remain ≠ 0 → bs.tmp.toNat = slice (ofBytes rdata) (position bs) bs.remain

variable {rdata : List (BitVec 8)} {bs : BcBitStream}

theorem holds_start (rdata : List (BitVec 8)) : Holds rdata start :=
  ⟨Nat.zero_le 8, fun h => absurd rfl h, fun h => absurd rfl h⟩

theorem holds_alignBits32 (rdata : List (BitVec 8)) (bs : BcBitStream) :
    Holds rdata (alignBits32 bs) :=
  ⟨Nat.zero_le 8, fun h => absurd rfl h, fun h => absurd rfl h⟩

theorem holds_refill (hh : Holds rdata bs) (hlt : bs.bytesOffset < rdata.length) :
    Holds rdata (refill bs (rdata.getD bs.bytesOffset 0))
      ∧ position (refill bs (rdata.getD bs.bytesOffset 0)) = position bs := by
  unfold BitReader.refill
  split
  · next hzero =>
    have hpos : position ⟨bs.bytesOffset + 1, 8, rdata.getD bs.bytesOffset 0⟩ = 8 * bs.bytesOffset := by
      change 8 * (bs.bytesOffset + 1) - 8 = _
      omega
    have hbyte : rdata[bs.bytesOffset]? = some (rdata.getD bs.bytesOffset 0) := by
      rw [List.getD_eq_getElem?_getD, List.getElem?_eq_getElem hlt, Option.getD_some]
    refine ⟨⟨le_rfl, fun _ => ⟨Nat.succ_pos _, hlt⟩, fun _ => ?_⟩, ?_⟩
    · rw [hpos, slice_byte hbyte]
    · rw [hpos, position, hzero, Nat.sub_zero]
  · exact ⟨hh, rfl⟩

theorem holds_consume (hh : Holds rdata bs) {pick : ℕ} (hpick : pick ≤ bs.remain) :
    Holds rdata (consume bs pick) ∧ position (consume bs pick) = position bs + pick := by
  by_cases hzero : bs.remain = 0
  · obtain rfl : pick = 0 := by omega
    refine ⟨⟨?_, fun h => absurd (Nat.sub_eq_zero_of_le (by omega)) h,
      fun h => absurd (Nat.sub_eq_zero_of_le (by omega)) h⟩, ?_⟩
    · change bs.remain - 0 ≤ 8
      omega
    · change 8 * bs.bytesOffset - (bs.remain - 0) = _
      rfl
  · have hle := hh.le
    obtain ⟨hpos, hlen⟩ := hh.offset hzero
    have hmove : position (consume bs pick) = position bs + pick := by
      change 8 * bs.bytesOffset - (bs.remain - pick) = 8 * bs.bytesOffset - bs.remain + pick
      omega
    refine ⟨⟨?_, fun _ => hh.offset hzero, fun _ => ?_⟩, hmove⟩
    · change bs.remain - pick ≤ 8
      omega
    · rw [hmove]
      change (bs.tmp >>> pick).toNat = slice _ _ (bs.remain - pick)
      rw [BitVec.toNat_ushiftRight, Nat.shiftRight_eq_div_pow, hh.tmp hzero,
        ← slice_div _ _ pick (bs.remain - pick), Nat.add_sub_cancel' hpick]

theorem mask_toNat : ∀ pick < 9, ((1 : BitVec 8) <<< pick - 1).toNat = 2 ^ pick - 1 := by decide

theorem holds_pick (hh : Holds rdata bs) {pick : ℕ} (hzero : bs.remain ≠ 0)
    (hpick : pick ≤ bs.remain) :
    (bs.tmp &&& ((1 : BitVec 8) <<< pick - 1)).toNat = slice (ofBytes rdata) (position bs) pick := by
  have hle := hh.le
  rw [BitVec.toNat_and, mask_toNat pick (by omega), Nat.and_two_pow_sub_one_eq_mod, hh.tmp hzero,
    slice_mod _ _ hpick]

/-- Putting the bits `x` above the `off` bits that were read. -/
theorem toNat_put {off pick : ℕ} {r : BitVec 32} {x : BitVec 8} (hr : r.toNat < 2 ^ off)
    (hx : x.toNat < 2 ^ pick) (hle : off + pick ≤ 32) :
    (r ||| x.setWidth 32 <<< off).toNat = r.toNat + 2 ^ off * x.toNat := by
  have hlt : x.toNat * 2 ^ off < 2 ^ 32 := by
    calc x.toNat * 2 ^ off < 2 ^ pick * 2 ^ off := Nat.mul_lt_mul_of_pos_right hx (Nat.two_pow_pos _)
      _ = 2 ^ (off + pick) := by rw [← pow_add, Nat.add_comm]
      _ ≤ 2 ^ 32 := Nat.pow_le_pow_right (by omega) hle
  have hx8 := x.isLt
  rw [BitVec.toNat_or, BitVec.toNat_shiftLeft, BitVec.toNat_setWidth, Nat.shiftLeft_eq,
    Nat.mod_eq_of_lt (show x.toNat < 2 ^ 32 by omega), Nat.mod_eq_of_lt hlt, Nat.mul_comm,
    Nat.or_comm, ← Nat.two_pow_add_eq_or_of_lt hr, Nat.add_comm]

theorem readBitsLoop_ok {num off p : ℕ} {r : BitVec 32} (hh : Holds rdata bs)
    (hin : position bs + num ≤ 8 * rdata.length) (hoff : off + num ≤ 32)
    (hclear : num = 0 ∨ bs.bytesOffset < rdata.length) (hp : p + off = position bs)
    (hr : r.toNat = slice (ofBytes rdata) p off) :
    ∃ bs', readBitsLoop rdata bs num r off = (BitVec.ofNat 32 (slice (ofBytes rdata) p (off + num)), bs')
      ∧ Holds rdata bs' ∧ position bs' = position bs + num := by
  induction num using Nat.strong_induction_on generalizing bs r off with
  | _ num ih =>
    rw [readBitsLoop]
    by_cases hnum : num = 0
    · subst hnum
      refine ⟨bs, ?_, hh, rfl⟩
      rw [if_pos rfl, Nat.add_zero, ← hr, BitVec.ofNat_toNat, BitVec.setWidth_eq]
    · have hlt : bs.bytesOffset < rdata.length := hclear.resolve_left hnum
      rw [if_neg hnum, if_neg (by omega)]
      simp only
      obtain ⟨hfull, hpos⟩ := holds_refill hh hlt
      have hremain := refill_remain_pos bs (rdata.getD bs.bytesOffset 0)
      generalize refill bs (rdata.getD bs.bytesOffset 0) = full at hfull hpos hremain ⊢
      have hpick := Nat.min_le_right num full.remain
      have hnumPick := Nat.min_le_left num full.remain
      obtain ⟨hcons, hmove⟩ := holds_consume hfull hpick
      have hbits := holds_pick hfull (by omega) hpick
      rw [hpos] at hbits hmove
      have hput := toNat_put (hr ▸ slice_lt _ _ _) (hbits ▸ slice_lt _ _ _)
        (show off + min num full.remain ≤ 32 by omega)
      rw [hr, hbits, ← hp, ← slice_add] at hput
      -- The byte is used up when bits are left to read.
      have hnext : num - min num full.remain = 0
          ∨ (consume full (min num full.remain)).bytesOffset < rdata.length := by
        rcases Nat.le_total num full.remain with hle | hle
        · exact Or.inl (by omega)
        · have hused : position (consume full (min num full.remain)) = 8 * full.bytesOffset := by
            change 8 * full.bytesOffset - (full.remain - min num full.remain) = _
            omega
          change _ ∨ full.bytesOffset < rdata.length
          omega
      obtain ⟨bs', hread, hh', hpos'⟩ := ih (num - min num full.remain) (by omega) hcons (by omega)
        (by omega) hnext (by omega) hput
      refine ⟨bs', ?_, hh', by omega⟩
      rw [hread, Nat.add_assoc, Nat.add_sub_cancel' hnumPick]

theorem readBits_ok {num : ℕ} (hh : Holds rdata bs)
    (hin : position bs + num ≤ 8 * rdata.length) (hnum : num ≤ 32)
    (hclear : num = 0 ∨ bs.bytesOffset < rdata.length) :
    ∃ bs', readBits rdata bs num
        = (BitVec.ofNat 32 (slice (ofBytes rdata) (position bs) num), bs')
      ∧ Holds rdata bs' ∧ position bs' = position bs + num := by
  have h := readBitsLoop_ok (r := 0) hh hin (by omega) hclear (Nat.add_zero _)
    (slice_zero _ _).symm
  rwa [Nat.zero_add] at h

theorem readBits_end {num : ℕ} (hnum : num ≠ 0) (hend : rdata.length ≤ bs.bytesOffset) :
    readBits rdata bs num = (0, bs) := by
  rw [readBits, readBitsLoop, if_neg hnum, if_pos hend]

theorem readBitsLoop_holds (hh : Holds rdata bs) (num : ℕ) (r : BitVec 32) (off : ℕ) :
    Holds rdata (readBitsLoop rdata bs num r off).2 := by
  induction num using Nat.strong_induction_on generalizing bs r off with
  | _ num ih =>
    rw [readBitsLoop]
    split
    · exact hh
    · split
      · exact hh
      · next hlt =>
        have hfull := (holds_refill hh (Nat.lt_of_not_le hlt)).1
        have hremain := refill_remain_pos bs (rdata.getD bs.bytesOffset 0)
        exact ih _ (by omega) (holds_consume hfull (Nat.min_le_right _ _)).1 _ _

theorem readBitsLoop_remain (hlt : bs.remain < 8) (num : ℕ) (r : BitVec 32) (off : ℕ) :
    (readBitsLoop rdata bs num r off).2.remain < 8 := by
  induction num using Nat.strong_induction_on generalizing bs r off with
  | _ num ih =>
    rw [readBitsLoop]
    split
    · exact hlt
    · split
      · exact hlt
      · next hnum _ =>
        have hfull := refill_remain_le hlt (rdata.getD bs.bytesOffset 0)
        have hremain := refill_remain_pos bs (rdata.getD bs.bytesOffset 0)
        have hcons : (consume (refill bs (rdata.getD bs.bytesOffset 0))
            (min num (refill bs (rdata.getD bs.bytesOffset 0)).remain)).remain < 8 := by
          change _ - _ < 8
          omega
        exact ih _ (by omega) hcons _ _

theorem readBits_remain (hlt : bs.remain < 8) (num : ℕ) : (readBits rdata bs num).2.remain < 8 :=
  readBitsLoop_remain hlt num 0 0

theorem before_end_iff (hh : Holds rdata bs) (hlt : bs.remain < 8)
    (hin : position bs < 8 * rdata.length) :
    bs.bytesOffset < rdata.length
      ↔ position bs % 8 = 0 ∨ position bs / 8 + 1 < rdata.length := by
  have hpos : position bs = 8 * bs.bytesOffset - bs.remain := rfl
  by_cases hzero : bs.remain = 0
  · omega
  · obtain ⟨h1, h2⟩ := hh.offset hzero
    omega

end Vmir.BitReader
