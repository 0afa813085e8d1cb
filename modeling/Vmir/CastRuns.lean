import Vmir.EmitCast
import Vmir.RegisterContents

set_option autoImplicit false

/-!
# What an emitted cast computes

The integer casts and the casts of pointers: which operation the emitter chooses and what it
writes, as a function of the 64 bits from the source register on.
-/
namespace Vmir.CastRuns
open ByteStore Ir VmOps IrTypes ProgramText IntegerRegisters EmitMove EmitCast

/-- The bits of its source that an operation with this carrier reads. -/
def readBits (srccode : TypeCode) : ℕ :=
  match srccode with
  | .int8 => 8
  | .int16 => 16
  | _ => 32

def castValue (dstcode : TypeCode) (castop : CastOp) (srccode : TypeCode) (x : BitVec 64) :
    BitVec 64 :=
  match castop with
  | .zext => (x.setWidth (readBits srccode)).setWidth 64
  | .sext =>
    if srccode = .int1 then if x.setWidth 32 = 0 then 0 else -1
    else (x.setWidth (readBits srccode)).signExtend 64
  | .trunc =>
    if dstcode = .int1 ∧ srccode ≠ .int1 then
      if x.setWidth (readBits srccode) = 0 then 0 else 1
    else if srccode = .int16 ∨ dstcode = .int16 ∧ srccode = .int32 then (x.setWidth 16).setWidth 64
    else x
  | _ => x

/-- The operation `op` writes `v` of its source, to a destination with the given carrier. -/
inductive Computes (h : Host) (op : Op) (v : BitVec 64 → BitVec 64) : TypeCode → Prop
  | narrow {dstcode : TypeCode} (g : BitVec 32 → BitVec 32) (hd : dstcode ≠ .int64)
      (hskip : skip op = 2) (hbody : ∀ I, body h op I = set32Of32 I g)
      (hv : ∀ x, (v x).setWidth 32 = g (x.setWidth 32)) : Computes h op v dstcode
  | half {dstcode : TypeCode} (g : BitVec 64 → BitVec 32) (hd : dstcode ≠ .int64)
      (hskip : skip op = 2) (hbody : ∀ I, body h op I = set32Of64 I g)
      (hv : ∀ x, (v x).setWidth 32 = g x) : Computes h op v dstcode
  | wide (g : BitVec 32 → BitVec 64) (hskip : skip op = 2)
      (hbody : ∀ I, body h op I = set64Of32 I g)
      (hv : ∀ x, v x = g (x.setWidth 32)) : Computes h op v .int64

theorem low_word (n : ℕ) (hn : n ≤ 32) (x : BitVec 64) :
    (x.setWidth 32).setWidth n = x.setWidth n :=
  BitVec.setWidth_setWidth_of_le x hn

theorem zext_narrow (n : ℕ) (hn : n ≤ 32) (x : BitVec 64) :
    ((x.setWidth n).setWidth 64).setWidth 32 = ((x.setWidth 32).setWidth n).setWidth 32 := by
  rw [low_word n hn, BitVec.setWidth_setWidth_of_le _ (show 32 ≤ 64 by omega)]

theorem zext_wide (n : ℕ) (hn : n ≤ 32) (x : BitVec 64) :
    (x.setWidth n).setWidth 64 = (((x.setWidth 32).setWidth n).setWidth 32).setWidth 64 := by
  rw [low_word n hn]
  exact (BitVec.setWidth_setWidth (by omega)).symm

theorem sext_narrow (n : ℕ) (hn : n ≤ 32) (x : BitVec 64) :
    ((x.setWidth n).signExtend 64).setWidth 32 = ((x.setWidth 32).setWidth n).signExtend 32 := by
  rw [low_word n hn, NarrowArith.signExtend_setWidth _ (show 32 ≤ 64 by omega)]

theorem sext_wide (n : ℕ) (hn : n ≤ 32) (x : BitVec 64) :
    (x.setWidth n).signExtend 64 = (((x.setWidth 32).setWidth n).signExtend 32).signExtend 64 := by
  rw [low_word n hn]
  apply BitVec.eq_of_toInt_eq
  rw [BitVec.toInt_signExtend_of_le (by omega), BitVec.toInt_signExtend_of_le (by omega),
    BitVec.toInt_signExtend_of_le hn]

/-- The C idioms `!!x` and `x ? -1 : 0`. -/
theorem notnot_word {n : ℕ} (hn : n ≤ 32) (x : BitVec 64) :
    (if x.setWidth n = 0 then (0 : BitVec 64) else 1).setWidth 32
      = ofBool ((x.setWidth 32).setWidth n != 0) := by
  rw [low_word n hn]
  by_cases hx : x.setWidth n = 0
  · rw [if_pos hx, hx]
    rfl
  · rw [if_neg hx, bne_iff_ne.mpr hx]
    rfl

theorem mask_word (x : BitVec 64) :
    (if x.setWidth 32 = 0 then (0 : BitVec 64) else -1).setWidth 32
      = if x.setWidth 32 != 0 then -1 else 0 := by
  by_cases hx : x.setWidth 32 = 0
  · rw [if_pos hx, hx]
    rfl
  · rw [if_neg hx, if_pos (bne_iff_ne.mpr hx)]
    rfl

theorem mask_wide (x : BitVec 64) :
    (if x.setWidth 32 = 0 then (0 : BitVec 64) else -1)
      = if x.setWidth 32 != 0 then -1 else 0 := by
  by_cases hx : x.setWidth 32 = 0
  · rw [if_pos hx, hx]
    rfl
  · rw [if_neg hx, if_pos (bne_iff_ne.mpr hx)]

section
variable {h : Host} {dstcode srccode : TypeCode} {o : Op}

theorem castOp_trunc (hop : castOp dstcode .trunc srccode = .ok (some o)) :
    Computes h o (castValue dstcode .trunc srccode) dstcode := by
  unfold castOp at hop
  split at hop
  all_goals first | contradiction | cases hop
  all_goals first
    | exact .half (·.setWidth 32) nofun rfl (fun _ => rfl) fun x => rfl
    | exact .narrow id nofun rfl (fun _ => rfl) fun x => rfl
    | exact .narrow r16 nofun rfl (fun _ => rfl) (zext_narrow 16 (by omega))
    | exact .narrow _ nofun rfl (fun _ => rfl) (notnot_word (n := 8) (by omega))
    | exact .narrow _ nofun rfl (fun _ => rfl) (notnot_word (n := 16) (by omega))

theorem castOp_zext (hop : castOp dstcode .zext srccode = .ok (some o)) :
    Computes h o (castValue dstcode .zext srccode) dstcode := by
  unfold castOp at hop
  split at hop
  all_goals first | contradiction | cases hop
  all_goals first
    | exact .narrow id nofun rfl (fun _ => rfl) fun x => zext_narrow 32 le_rfl x
    | exact .narrow r8 nofun rfl (fun _ => rfl) (zext_narrow 8 (by omega))
    | exact .narrow r16 nofun rfl (fun _ => rfl) (zext_narrow 16 (by omega))
    | exact .wide _ rfl (fun _ => rfl) fun _ => rfl
    | exact .wide _ rfl (fun _ => rfl) (zext_wide 8 (by omega))
    | exact .wide _ rfl (fun _ => rfl) (zext_wide 16 (by omega))

theorem castOp_sext (hop : castOp dstcode .sext srccode = .ok (some o)) :
    Computes h o (castValue dstcode .sext srccode) dstcode := by
  unfold castOp at hop
  split at hop
  all_goals first | contradiction | cases hop
  all_goals first
    | exact .narrow _ nofun rfl (fun _ => rfl) mask_word
    | exact .narrow s8 nofun rfl (fun _ => rfl) (sext_narrow 8 (by omega))
    | exact .narrow s16 nofun rfl (fun _ => rfl) (sext_narrow 16 (by omega))
    | exact .wide _ rfl (fun _ => rfl) mask_wide
    | exact .wide _ rfl (fun _ => rfl) fun _ => rfl
    | exact .wide _ rfl (fun _ => rfl) (sext_wide 8 (by omega))
    | exact .wide _ rfl (fun _ => rfl) (sext_wide 16 (by omega))

/-- The code of an operation that computes `v`. -/
theorem Computes.yields {v : BitVec 64 → BitVec 64} {bits : ℕ} (hc : Computes h o v dstcode)
    (hbits : dstcode = .int64 ∧ 32 < bits ∨ dstcode ≠ .int64 ∧ bits ≤ 32) (t : Text)
    (d a : BitVec 32) (s : Bytes × Vm) :
    Yields h t (emitOp2 t o d a) s (some (writeSlot bits s.1 d (v (content s.1 a)))) := by
  cases hc with
  | narrow g hd hskip hbody hv =>
    obtain ⟨hd', -⟩ | ⟨-, hw⟩ := hbits
    · exact absurd hd' hd
    · rw [← writeSlot_word hw, hv]
      exact yields_set32Of32 hw hskip hbody
  | half g hd hskip hbody hv =>
    obtain ⟨hd', -⟩ | ⟨-, hw⟩ := hbits
    · exact absurd hd' hd
    · rw [← writeSlot_word hw, hv]
      exact yields_set32Of64 hw hskip hbody
  | wide g hskip hbody hv =>
    obtain ⟨-, hw⟩ | ⟨hd, -⟩ := hbits
    · rw [hv]
      exact yields_set64Of32 hw hskip hbody
    · exact absurd rfl hd

end
end Vmir.CastRuns
