import Vmir.BitReader

set_option autoImplicit false

/-!
# Sequences of reads

Every read in a run is exact when none begins inside the last byte. A read that does finds the end
of the data where some bits of the last byte are still kept.
-/
namespace Vmir.BitReads
open BitSlices BitReader

/-- A call of the reader, with the widths that it is called with. -/
inductive Call
  | readBits (num : ℕ) (h : num ≤ 32)
  | alignBits32

def after (rdata : List (BitVec 8)) (bs : BcBitStream) (c : Call) : BcBitStream :=
  match c with
  | .readBits num _ => (readBits rdata bs num).2
  | .alignBits32 => alignBits32 bs

/-- The call does what it should: a read of bits of the string returns them and moves behind them,
and an alignment moves to the next boundary. -/
def CallExact (rdata : List (BitVec 8)) (bs : BcBitStream) (c : Call) : Prop :=
  match c with
  | .readBits num _ =>
    position bs + num ≤ 8 * rdata.length →
      (readBits rdata bs num).1 = BitVec.ofNat 32 (slice (ofBytes rdata) (position bs) num)
        ∧ position (readBits rdata bs num).2 = position bs + num
  | .alignBits32 => position (alignBits32 bs) = (position bs + 31) / 32 * 32

/-- The call begins with a byte or before the last byte, if it asks for bits of the string. -/
def CallClear (rdata : List (BitVec 8)) (bs : BcBitStream) (c : Call) : Prop :=
  match c with
  | .readBits num _ =>
    num = 0 ∨ 8 * rdata.length < position bs + num ∨ position bs % 8 = 0
      ∨ position bs / 8 + 1 < rdata.length
  | .alignBits32 => True

/-- Every call of a run has the property in the state in which it is made. -/
def RunAll (p : BcBitStream → Call → Prop) (rdata : List (BitVec 8)) :
    BcBitStream → List Call → Prop
  | _, [] => True
  | bs, c :: cs => p bs c ∧ RunAll p rdata (after rdata bs c) cs

variable {rdata : List (BitVec 8)} {bs : BcBitStream}

structure Between (rdata : List (BitVec 8)) (bs : BcBitStream) : Prop where
  holds : Holds rdata bs
  remain : bs.remain < 8

theorem between_start (rdata : List (BitVec 8)) : Between rdata start :=
  ⟨holds_start rdata, Nat.succ_pos 7⟩

theorem Between.after (hb : Between rdata bs) (c : Call) : Between rdata (after rdata bs c) := by
  cases c with
  | readBits num h =>
    exact ⟨readBitsLoop_holds hb.holds num 0 0, readBits_remain hb.remain num⟩
  | alignBits32 => exact ⟨holds_alignBits32 rdata bs, Nat.succ_pos 7⟩

theorem alignBits32_position (hb : Between rdata bs) :
    position (alignBits32 bs) = (position bs + 31) / 32 * 32 := by
  have hlt := hb.remain
  have hpos : position bs = 8 * bs.bytesOffset - bs.remain := rfl
  change 8 * ((bs.bytesOffset + 3) / 4 * 4) - 0 = _
  by_cases hzero : bs.remain = 0
  · omega
  · obtain ⟨h1, h2⟩ := hb.holds.offset hzero
    omega

theorem callExact_iff (hb : Between rdata bs) (c : Call) :
    CallExact rdata bs c ↔ CallClear rdata bs c := by
  cases c with
  | alignBits32 => exact ⟨fun _ => trivial, fun _ => alignBits32_position hb⟩
  | readBits num hnum =>
    by_cases hzero : num = 0
    · subst hzero
      refine ⟨fun _ => Or.inl rfl, fun _ hin => ?_⟩
      obtain ⟨bs', hread, -, hpos⟩ := readBits_ok hb.holds hin hnum (Or.inl rfl)
      rw [hread]
      exact ⟨rfl, hpos⟩
    by_cases hin : position bs + num ≤ 8 * rdata.length
    · have hbegin := before_end_iff hb.holds hb.remain (by omega)
      by_cases hlt : bs.bytesOffset < rdata.length
      · refine ⟨fun _ => Or.inr (Or.inr (hbegin.mp hlt)), fun _ _ => ?_⟩
        obtain ⟨bs', hread, -, hpos⟩ := readBits_ok hb.holds hin hnum (Or.inr hlt)
        rw [hread]
        exact ⟨rfl, hpos⟩
      · have hend := readBits_end hzero (Nat.le_of_not_lt hlt)
        constructor
        · intro hexact
          have hpos := (hexact hin).2
          rw [hend] at hpos
          change position bs = position bs + num at hpos
          omega
        · rintro (hzero' | hout | hclear)
          · exact absurd hzero' hzero
          · omega
          · exact absurd (hbegin.mpr hclear) hlt
    · exact ⟨fun _ => Or.inr (Or.inl (by omega)), fun _ hin' => absurd hin' hin⟩

theorem runAll_iff {p q : BcBitStream → Call → Prop} (hb : Between rdata bs) (cs : List Call)
    (hpq : ∀ bs c, Between rdata bs → (p bs c ↔ q bs c)) :
    RunAll p rdata bs cs ↔ RunAll q rdata bs cs := by
  induction cs generalizing bs with
  | nil => exact Iff.rfl
  | cons c cs ih => exact and_congr (hpq bs c hb) (ih (hb.after c))

/-- Two reads of four bits from a string of one byte. -/
theorem half_byte_not_exact :
    ¬ RunAll (CallExact [0x21]) [0x21] start [.readBits 4 (by omega), .readBits 4 (by omega)] := by
  intro h
  have hsecond := (h.2.1 (by decide +kernel)).1
  revert hsecond
  decide +kernel

/-- The calls of a run are exact when none of them begins inside the last byte. -/
theorem readRun_exact_iff (rdata : List (BitVec 8)) (cs : List Call) :
    RunAll (CallExact rdata) rdata start cs ↔ RunAll (CallClear rdata) rdata start cs :=
  runAll_iff (between_start rdata) cs fun _ c hb => callExact_iff hb c

end Vmir.BitReads
