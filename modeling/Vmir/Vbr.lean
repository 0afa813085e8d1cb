import Vmir.FieldReads

set_option autoImplicit false

/-!
# Variable width integers

`read_vbr` and `read_vbr64` are one loop over results of 32 and of 64 bits.
-/
namespace Vmir.Vbr
open BitSlices BitReader BitReads FieldReads Ir

/-- The bits that the reader can still come to. -/
def left (rdata : List (BitVec 8)) (bs : BcBitStream) : ℕ :=
  8 * (rdata.length - bs.bytesOffset) + bs.remain

theorem left_refill {rdata : List (BitVec 8)} {bs : BcBitStream} (byte : BitVec 8)
    (h : bs.bytesOffset < rdata.length) : left rdata (refill bs byte) = left rdata bs := by
  unfold refill
  split
  · next hzero =>
    change 8 * (rdata.length - (bs.bytesOffset + 1)) + 8
      = 8 * (rdata.length - bs.bytesOffset) + bs.remain
    omega
  · rfl

theorem left_consume {rdata : List (BitVec 8)} {bs : BcBitStream} {pick : ℕ} (hpos : 0 < pick)
    (hle : pick ≤ bs.remain) : left rdata (consume bs pick) < left rdata bs := by
  change 8 * (rdata.length - bs.bytesOffset) + (bs.remain - pick)
    < 8 * (rdata.length - bs.bytesOffset) + bs.remain
  omega

theorem readBitsLoop_left (rdata : List (BitVec 8)) (bs : BcBitStream) (num : ℕ) (r : BitVec 32)
    (off : ℕ) : left rdata (readBitsLoop rdata bs num r off).2 ≤ left rdata bs := by
  induction num using Nat.strong_induction_on generalizing bs r off with
  | _ num ih =>
    rw [readBitsLoop]
    split
    · exact le_rfl
    · split
      · exact le_rfl
      · next hlt =>
        have hfull := left_refill (rdata.getD bs.bytesOffset 0) (Nat.lt_of_not_le hlt)
        have hremain := refill_remain_pos bs (rdata.getD bs.bytesOffset 0)
        have hcons := @left_consume rdata _ (min num
          (refill bs (rdata.getD bs.bytesOffset 0)).remain) (by omega) (Nat.min_le_right _ _)
        exact le_trans (ih _ (by omega) _ _ _) (hfull ▸ hcons.le)

theorem readBits_left {rdata : List (BitVec 8)} {bs : BcBitStream} {num : ℕ}
    (h : (readBits rdata bs num).1 ≠ 0) : left rdata (readBits rdata bs num).2 < left rdata bs := by
  rw [readBits, readBitsLoop] at h ⊢
  split at h
  · exact absurd rfl h
  · split at h
    · exact absurd rfl h
    · next hnum hlt =>
      rw [if_neg hnum, if_neg hlt]
      have hfull := left_refill (rdata.getD bs.bytesOffset 0) (Nat.lt_of_not_le hlt)
      have hremain := refill_remain_pos bs (rdata.getD bs.bytesOffset 0)
      have hcons := @left_consume rdata _ (min num
        (refill bs (rdata.getD bs.bytesOffset 0)).remain) (by omega) (Nat.min_le_right _ _)
      exact lt_of_le_of_lt (readBitsLoop_left _ _ _ _ _) (hfull ▸ hcons)

/-- The loop: `cont` is the highest of the bits that are read, `mask` covers the others. -/
def readVbrLoop (n : ℕ) (rdata : List (BitVec 8)) (width : ℕ) (ret : BitVec n) (stride : ℕ)
    (bs : BcBitStream) : Except Fault (BitVec n × BcBitStream) :=
  let x := (readBits rdata bs width).1
  let cont := (1 : BitVec 32) <<< (width - 1)
  let ret := ret ||| (x &&& (cont - 1)).setWidth n <<< stride
  if h : cont &&& x = 0 then .ok (ret, (readBits rdata bs width).2)
  else if n ≤ stride + (width - 1) then .error .abort
  else
    have : left rdata (readBits rdata bs width).2 < left rdata bs :=
      readBits_left fun h0 => h (by rw [show x = 0#32 from h0]; exact BitVec.and_zero)
    readVbrLoop n rdata width ret (stride + (width - 1)) (readBits rdata bs width).2
termination_by left rdata bs

/-- The width is positive by an assertion; a shift by 32 or more is undefined. -/
def readVbrOf (n : ℕ) (rdata : List (BitVec 8)) (width : ℕ) : Read (BitVec n) :=
  if width = 0 ∨ 32 < width then throw .abort else readVbrLoop n rdata width 0#n 0

def readVbr (rdata : List (BitVec 8)) (width : ℕ) : Read (BitVec 32) := readVbrOf 32 rdata width
def readVbr64 (rdata : List (BitVec 8)) (width : ℕ) : Read (BitVec 64) := readVbrOf 64 rdata width

/-- The fields of a value: all of its chunks but the last are marked. -/
def vbrFields (width v : ℕ) : List Field :=
  if v < 2 ^ (width - 1) ∨ width ≤ 1 then [⟨width, v⟩]
  else ⟨width, 2 ^ (width - 1) + v % 2 ^ (width - 1)⟩ :: vbrFields width (v / 2 ^ (width - 1))
termination_by v
decreasing_by
  have htwo : 2 ^ 1 ≤ 2 ^ (width - 1) := Nat.pow_le_pow_right (by omega) (by omega)
  exact Nat.div_lt_self (by omega) (by omega)

def VbrFits (width v : ℕ) : Prop := 0 < width ∧ width ≤ 32 ∧ (width = 1 → v = 0)

/-! ## What is read -/

variable {rdata : List (BitVec 8)}

/-- What the loop does with the bits `x`. -/
def vbrStep (n : ℕ) (rdata : List (BitVec 8)) (width : ℕ) (ret : BitVec n) (stride : ℕ)
    (x : BitVec 32) : Read (BitVec n) :=
  let cont := (1 : BitVec 32) <<< (width - 1)
  let ret := ret ||| (x &&& (cont - 1)).setWidth n <<< stride
  if cont &&& x = 0 then pure ret
  else if n ≤ stride + (width - 1) then throw .abort
  else readVbrLoop n rdata width ret (stride + (width - 1))

theorem readVbrLoop_eq (n width : ℕ) (ret : BitVec n) (stride : ℕ) :
    readVbrLoop n rdata width ret stride
      = bits rdata width >>= vbrStep n rdata width ret stride := by
  funext bs
  rw [readVbrLoop, bits_bind, vbrStep]
  split
  · rfl
  · split
    · rfl
    · rfl

theorem stays_readVbrLoop (n width : ℕ) (ret : BitVec n) (stride : ℕ) :
    Stays rdata (readVbrLoop n rdata width ret stride) := by
  intro bs a bs' hend h
  have hread : readBits rdata bs width = (0, bs) := by
    by_cases hwidth : width = 0
    · rw [readBits, readBitsLoop, if_pos hwidth]
    · exact readBits_end hwidth hend
  rw [readVbrLoop_eq, bits_bind, hread, vbrStep] at h
  change (if _ &&& 0#32 = 0#32 then _ else _ : Read (BitVec n)) bs = _ at h
  rw [if_pos BitVec.and_zero] at h
  exact (read_pure_ok.mp h).2

theorem stays_readVbrOf (n width : ℕ) : Stays rdata (readVbrOf n rdata width) :=
  Stays.ite (Stays.throw Fault.abort) (stays_readVbrLoop n width 0#n 0)

theorem one_toNat : (1 : BitVec 32).toNat = 1 := rfl

theorem cont_toNat {width : ℕ} (hpos : 0 < width) (hle : width ≤ 32) :
    ((1 : BitVec 32) <<< (width - 1)).toNat = 2 ^ (width - 1) := by
  have hlt : 2 ^ (width - 1) < 2 ^ 32 := Nat.pow_lt_pow_right (by omega) (by omega)
  rw [BitVec.toNat_shiftLeft, Nat.shiftLeft_eq, one_toNat, Nat.one_mul,
    Nat.mod_eq_of_lt hlt]

theorem mask_toNat {width : ℕ} (hpos : 0 < width) (hle : width ≤ 32) :
    ((1 : BitVec 32) <<< (width - 1) - 1).toNat = 2 ^ (width - 1) - 1 := by
  have hone := Nat.two_pow_pos (width - 1)
  have hcont := cont_toNat hpos hle
  rw [BitVec.toNat_sub_of_le (BitVec.le_def.mpr _), hcont, one_toNat]
  rw [hcont, one_toNat]
  exact hone

theorem chunk_last {width v : ℕ} (hpos : 0 < width) (hle : width ≤ 32) (hv : v < 2 ^ (width - 1)) :
    (1 : BitVec 32) <<< (width - 1) &&& BitVec.ofNat 32 v = 0
      ∧ BitVec.ofNat 32 v &&& ((1 : BitVec 32) <<< (width - 1) - 1) = BitVec.ofNat 32 v := by
  have hlt : 2 ^ (width - 1) < 2 ^ 32 := Nat.pow_lt_pow_right (by omega) (by omega)
  have hval : (BitVec.ofNat 32 v).toNat = v := by
    rw [BitVec.toNat_ofNat, Nat.mod_eq_of_lt (by omega)]
  constructor
  · apply BitVec.eq_of_toNat_eq
    rw [BitVec.toNat_and, cont_toNat hpos hle, hval, Nat.and_comm, Nat.and_two_pow,
      Nat.testBit_lt_two_pow hv]
    exact Nat.zero_mul _
  · apply BitVec.eq_of_toNat_eq
    rw [BitVec.toNat_and, mask_toNat hpos hle, hval, Nat.and_two_pow_sub_one_of_lt_two_pow hv]

theorem chunk_marked {width c : ℕ} (hpos : 0 < width) (hle : width ≤ 32)
    (hc : c < 2 ^ (width - 1)) :
    (1 : BitVec 32) <<< (width - 1) &&& BitVec.ofNat 32 (2 ^ (width - 1) + c) ≠ 0
      ∧ BitVec.ofNat 32 (2 ^ (width - 1) + c) &&& ((1 : BitVec 32) <<< (width - 1) - 1)
        = BitVec.ofNat 32 c := by
  have htwice : 2 ^ (width - 1) + 2 ^ (width - 1) = 2 ^ width := by
    rw [← Nat.two_mul, ← pow_succ', Nat.sub_add_cancel hpos]
  have hlt : 2 ^ width ≤ 2 ^ 32 := Nat.pow_le_pow_right (by omega) hle
  have hval : (BitVec.ofNat 32 (2 ^ (width - 1) + c)).toNat = 2 ^ (width - 1) + c := by
    rw [BitVec.toNat_ofNat, Nat.mod_eq_of_lt (by omega)]
  constructor
  · intro hzero
    have hnat := congrArg BitVec.toNat hzero
    rw [BitVec.toNat_and, cont_toNat hpos hle, hval, Nat.and_comm, Nat.and_two_pow,
      Nat.testBit_two_pow_add_eq, Nat.testBit_lt_two_pow hc] at hnat
    have hone := Nat.two_pow_pos (width - 1)
    change 1 * 2 ^ (width - 1) = 0 at hnat
    omega
  · apply BitVec.eq_of_toNat_eq
    rw [BitVec.toNat_and, mask_toNat hpos hle, hval, Nat.and_two_pow_sub_one_eq_mod,
      Nat.add_mod_left, Nat.mod_eq_of_lt hc, BitVec.toNat_ofNat, Nat.mod_eq_of_lt (by omega)]

theorem ofNat_chunks (n v k stride : ℕ) (ret : BitVec n) :
    ret ||| BitVec.ofNat n (v % 2 ^ k) <<< stride ||| BitVec.ofNat n (v / 2 ^ k) <<< (stride + k)
      = ret ||| BitVec.ofNat n v <<< stride := by
  have hsplit : v = v % 2 ^ k ||| (v / 2 ^ k) <<< k := by
    rw [Nat.shiftLeft_eq, Nat.mul_comm, Nat.or_comm,
      ← Nat.two_pow_add_eq_or_of_lt (Nat.mod_lt v (Nat.two_pow_pos k)), Nat.div_add_mod]
  have hshift : BitVec.ofNat n ((v / 2 ^ k) <<< k) = BitVec.ofNat n (v / 2 ^ k) <<< k := by
    apply BitVec.eq_of_toNat_eq
    rw [BitVec.toNat_shiftLeft, BitVec.toNat_ofNat, BitVec.toNat_ofNat, Nat.shiftLeft_eq,
      Nat.shiftLeft_eq, Nat.mod_mul_mod]
  conv_rhs => rw [hsplit, BitVec.ofNat_or, hshift, BitVec.shiftLeft_or_distrib]
  rw [← BitVec.shiftLeft_add, Nat.add_comm k stride, BitVec.or_assoc]

theorem setWidth_ofNat {n c : ℕ} (hc : c < 2 ^ 32) :
    (BitVec.ofNat 32 c).setWidth n = BitVec.ofNat n c := by
  apply BitVec.eq_of_toNat_eq
  rw [BitVec.toNat_setWidth, BitVec.toNat_ofNat, BitVec.toNat_ofNat, Nat.mod_eq_of_lt hc]

variable {width : ℕ}

theorem stays_vbrStep (n : ℕ) (ret : BitVec n) (stride : ℕ) (x : BitVec 32) :
    Stays rdata (vbrStep n rdata width ret stride x) :=
  (Stays.pure _).ite ((Stays.throw _).ite (stays_readVbrLoop n width _ _))

theorem vbrStep_last (n : ℕ) (hpos : 0 < width) (hle : width ≤ 32) {v : ℕ}
    (hv : v < 2 ^ (width - 1)) (ret : BitVec n) (stride : ℕ) :
    vbrStep n rdata width ret stride (BitVec.ofNat 32 v)
      = pure (ret ||| BitVec.ofNat n v <<< stride) := by
  have hlt : 2 ^ (width - 1) < 2 ^ 32 := Nat.pow_lt_pow_right (by omega) (by omega)
  obtain ⟨hcont, hmask⟩ := chunk_last hpos hle hv
  rw [vbrStep, hmask, if_pos hcont, setWidth_ofNat (by omega)]

theorem vbrStep_marked (n : ℕ) (hpos : 0 < width) (hle : width ≤ 32) (v : ℕ) (ret : BitVec n)
    (stride : ℕ) :
    vbrStep n rdata width ret stride (BitVec.ofNat 32 (2 ^ (width - 1) + v % 2 ^ (width - 1)))
      = if n ≤ stride + (width - 1) then throw .abort
        else readVbrLoop n rdata width (ret ||| BitVec.ofNat n (v % 2 ^ (width - 1)) <<< stride)
          (stride + (width - 1)) := by
  have hc := Nat.mod_lt v (Nat.two_pow_pos (width - 1))
  have hlt : 2 ^ (width - 1) < 2 ^ 32 := Nat.pow_lt_pow_right (by omega) (by omega)
  obtain ⟨hcont, hmask⟩ := chunk_marked hpos hle hc
  rw [vbrStep, hmask, if_neg hcont, setWidth_ofNat (by omega)]

theorem reads_readVbrLoop (n : ℕ) (hpos : 0 < width) (hle : width ≤ 32) {v : ℕ}
    (hone : width = 1 → v = 0) (ret : BitVec n) (stride : ℕ) :
    Reads rdata (readVbrLoop n rdata width ret stride) (vbrFields width v)
      (ret ||| BitVec.ofNat n v <<< stride) := by
  induction v using Nat.strong_induction_on generalizing ret stride with
  | _ v ih =>
    have hpow := Nat.two_pow_pos (width - 1)
    rw [readVbrLoop_eq, vbrFields]
    by_cases hv : v < 2 ^ (width - 1)
    · rw [if_pos (Or.inl hv)]
      refine (reads_bits hle v).last ?_ (stays_vbrStep n ret stride)
      rw [vbrStep_last n hpos hle hv]
      exact Reads.pure _
    · have hwidth : 1 < width := by
        by_contra hone'
        rw [hone (by omega)] at hv
        exact hv hpow
      have htwo : 2 ^ 1 ≤ 2 ^ (width - 1) := Nat.pow_le_pow_right (by omega) (by omega)
      rw [if_neg (by omega)]
      refine (reads_bits hle _).head ?_ (stays_vbrStep n ret stride)
      rw [vbrStep_marked n hpos hle]
      split
      · exact Reads.throw _ _ _
      · rw [← ofNat_chunks n v (width - 1) stride ret]
        exact ih (v / 2 ^ (width - 1)) (Nat.div_lt_self (by omega) (by omega)) (by omega) _ _

theorem gives_readVbrLoop {n : ℕ} (hpos : 0 < width) (hle : width ≤ 32) {v : ℕ}
    (hone : width = 1 → v = 0) (ret : BitVec n) {stride : ℕ} (hv : v * 2 ^ stride < 2 ^ n) :
    Gives rdata (readVbrLoop n rdata width ret stride) (vbrFields width v)
      (ret ||| BitVec.ofNat n v <<< stride) := by
  induction v using Nat.strong_induction_on generalizing ret stride with
  | _ v ih =>
    have hpow := Nat.two_pow_pos (width - 1)
    rw [readVbrLoop_eq, vbrFields]
    by_cases hlast : v < 2 ^ (width - 1)
    · rw [if_pos (Or.inl hlast)]
      refine (gives_bits hle v).last ?_
      rw [vbrStep_last n hpos hle hlast]
      exact Gives.pure _
    · have hwidth : 1 < width := by
        by_contra hone'
        rw [hone (by omega)] at hlast
        exact hlast hpow
      have htwo : 2 ^ 1 ≤ 2 ^ (width - 1) := Nat.pow_le_pow_right (by omega) (by omega)
      rw [if_neg (by omega)]
      refine (gives_bits hle _).head ?_
      -- A value that has a further chunk has a bit at the next stride.
      have hfurther : 2 ^ (stride + (width - 1)) < 2 ^ n := by
        calc 2 ^ (stride + (width - 1)) = 2 ^ (width - 1) * 2 ^ stride := by rw [pow_add, Nat.mul_comm]
          _ ≤ v * 2 ^ stride := Nat.mul_le_mul_right _ (Nat.le_of_not_lt hlast)
          _ < 2 ^ n := hv
      have hstride := (Nat.pow_lt_pow_iff_right (by omega)).mp hfurther
      have hrest : v / 2 ^ (width - 1) * 2 ^ (stride + (width - 1)) < 2 ^ n := by
        calc v / 2 ^ (width - 1) * 2 ^ (stride + (width - 1))
            = v / 2 ^ (width - 1) * 2 ^ (width - 1) * 2 ^ stride := by
              rw [pow_add, Nat.mul_comm (2 ^ stride), Nat.mul_assoc]
          _ ≤ v * 2 ^ stride := Nat.mul_le_mul_right _ (Nat.div_mul_le_self _ _)
          _ < 2 ^ n := hv
      rw [vbrStep_marked n hpos hle, if_neg (by omega), ← ofNat_chunks n v (width - 1) stride ret]
      exact ih (v / 2 ^ (width - 1)) (Nat.div_lt_self (by omega) (by omega)) (by omega) _ hrest

theorem reads_readVbrOf (n : ℕ) {v : ℕ} (hfits : VbrFits width v) :
    Reads rdata (readVbrOf n rdata width) (vbrFields width v) (BitVec.ofNat n v) := by
  have h := @reads_readVbrLoop rdata width n hfits.1 hfits.2.1 v hfits.2.2 0#n 0
  rw [BitVec.shiftLeft_zero, BitVec.zero_or] at h
  have hpos := hfits.1
  have hle := hfits.2.1
  rwa [readVbrOf, if_neg (by omega)]

theorem gives_readVbrOf {n v : ℕ} (hfits : VbrFits width v) (hv : v < 2 ^ n) :
    Gives rdata (readVbrOf n rdata width) (vbrFields width v) (BitVec.ofNat n v) := by
  have h := @gives_readVbrLoop rdata width n hfits.1 hfits.2.1 v hfits.2.2 0#n 0 (by omega)
  rw [BitVec.shiftLeft_zero, BitVec.zero_or] at h
  have hpos := hfits.1
  have hle := hfits.2.1
  rwa [readVbrOf, if_neg (by omega)]

theorem exact_readVbrOf {n v : ℕ} (hfits : VbrFits width v) (hv : v < 2 ^ n) :
    Exact rdata (readVbrOf n rdata width) (vbrFields width v) (BitVec.ofNat n v) :=
  ⟨reads_readVbrOf n hfits, gives_readVbrOf hfits hv⟩

theorem vbrFields_size (width v : ℕ) : width ≤ size (vbrFields width v) := by
  rw [vbrFields]
  split
  · exact Nat.le_add_right _ _
  · exact Nat.le_add_right _ _

end Vmir.Vbr
