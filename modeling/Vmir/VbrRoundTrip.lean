import Vmir.IrTypes
import Vmir.Vbr

set_option autoImplicit false

/-!
# Variable width integers as they are written

The bitcode writer puts a number into chunks and a signed number into the form with the sign in the
lowest bit. Both come back, if a byte follows the chunks.
-/
namespace Vmir.VbrRoundTrip
open BitSlices BitReader BitReads FieldReads Vbr Ir IrTypes

/-- Wherever the chunks of the number stand with a byte behind them, the reader returns the number
and stands behind its chunks. -/
def Decodes (n : ℕ) (read : List (BitVec 8) → ℕ → Read (BitVec n)) (width : ℕ) (v : BitVec n) :
    Prop :=
  ∀ rdata bs, Between rdata bs → At rdata (position bs) (vbrFields width v.toNat) →
    position bs + size (vbrFields width v.toNat) + 8 ≤ 8 * rdata.length →
    ∃ bs', read rdata width bs = .ok (v, bs') ∧ Between rdata bs'
      ∧ position bs' = position bs + size (vbrFields width v.toNat)

theorem decodes_readVbrOf (n : ℕ) {width : ℕ} (hlow : 2 ≤ width) (hhigh : width ≤ 32)
    (v : BitVec n) : Decodes n (readVbrOf n) width v := by
  intro rdata bs hb hat hbyte
  have hfits : VbrFits width v.toNat := ⟨by omega, hhigh, fun hone => by omega⟩
  have hclear : Clear rdata (position bs) (vbrFields width v.toNat) := by
    apply clear_of_later (q := 8 * (rdata.length - 1))
    · omega
    · omega
    · exact Or.inl (Nat.mul_mod_right 8 _)
  obtain ⟨bs', hread, hb', hpos⟩ := gives_readVbrOf hfits v.isLt bs hb hat hclear
  rw [BitVec.ofNat_toNat, BitVec.setWidth_eq] at hread
  exact ⟨bs', hread, hb', hpos⟩

/-- Numbers of 64 and of 32 bits, and signed numbers. -/
theorem vbr_round_trip {width : ℕ} (hlow : 2 ≤ width) (hhigh : width ≤ 32) :
    (∀ v, Decodes 64 readVbr64 width v) ∧ (∀ v, Decodes 32 readVbr width v)
      ∧ ∀ v, readSignRotated (signRotated v) = v :=
  ⟨decodes_readVbrOf 64 hlow hhigh, decodes_readVbrOf 32 hlow hhigh, readSignRotated_signRotated⟩

/-- The number 100 in chunks of six bits. -/
theorem vbr_round_trip_hundred :
    (∃ bs', readVbr64 [0xE4, 0x00, 0x00] 6 start = .ok (100, bs') ∧ position bs' = 12)
      ∧ readSignRotated (signRotated (BitVec.ofInt 64 (-2 ^ 63))) = BitVec.ofInt 64 (-2 ^ 63) := by
  have hfields : vbrFields 6 100 = [⟨6, 36⟩, ⟨6, 3⟩] := by
    simp [vbrFields]
  obtain ⟨h64, -, hsigned⟩ := vbr_round_trip (show 2 ≤ 6 by decide) (show 6 ≤ 32 by decide)
  obtain ⟨bs', hread, -, hpos⟩ := h64 100 [0xE4, 0x00, 0x00] start (between_start _)
    (by rw [show (100 : BitVec 64).toNat = 100 from rfl, hfields]; decide)
    (by rw [show (100 : BitVec 64).toNat = 100 from rfl, hfields]; decide)
  refine ⟨⟨bs', hread, ?_⟩, hsigned _⟩
  rw [hpos, show (100 : BitVec 64).toNat = 100 from rfl, hfields]
  rfl

end Vmir.VbrRoundTrip
