import Vmir.EmitBranch
import Vmir.IntegerRegisters
import Mathlib.Data.List.Nodup

set_option autoImplicit false

/-!
# The paths of a switch

What `parse_switch` makes of the cases of the bitcode, and which path has a constant.
-/
namespace Vmir.SwitchPaths
open Ir IrTypes EmitBranch IntegerRegisters ProgramText

/-! ## The first entry with a key -/

section
variable {α β : Type} [DecidableEq β] {key : α → β} {block : α → ℕ} {l l' : List α} {d : ℕ} {k : β}

/-- The block of the first entry with the key, `d` when there is none. -/
def firstBlock (key : α → β) (block : α → ℕ) (l : List α) (d : ℕ) (k : β) : ℕ :=
  ((l.find? (key · == k)).map block).getD d

theorem firstBlock_cons_eq (a : α) (h : key a = k) :
    firstBlock key block (a :: l) d k = block a := by
  rw [firstBlock, List.find?_cons, beq_iff_eq.mpr h]
  rfl

theorem firstBlock_cons_ne (a : α) (h : key a ≠ k) :
    firstBlock key block (a :: l) d k = firstBlock key block l d k := by
  rw [firstBlock, List.find?_cons, beq_eq_false_iff_ne.mpr h]
  rfl

theorem firstBlock_of_not_mem (h : k ∉ l.map key) : firstBlock key block l d k = d := by
  induction l with
  | nil => rfl
  | cons a l ih =>
    obtain ⟨ha, hl⟩ := not_or.mp (mt List.mem_cons.mpr h)
    rw [firstBlock_cons_ne a (Ne.symm ha), ih hl]

theorem firstBlock_eq {a : α} (ha : a ∈ l) (hk : key a = k)
    (hblock : ∀ b ∈ l, key b = k → block b = block a) : firstBlock key block l d k = block a := by
  induction l with
  | nil => cases ha
  | cons b l ih =>
    by_cases hb : key b = k
    · rw [firstBlock_cons_eq b hb, hblock b (List.mem_cons_self ..) hb]
    · rcases List.mem_cons.mp ha with rfl | ha
      · exact absurd hk hb
      · rw [firstBlock_cons_ne b hb, ih ha fun c hc => hblock c (List.mem_cons_of_mem _ hc)]

theorem firstBlock_of_mem {a : α} (hnodup : (l.map key).Nodup) (ha : a ∈ l) :
    firstBlock key block l d (key a) = block a := by
  refine firstBlock_eq ha rfl fun b hb hkey => ?_
  rw [List.inj_on_of_nodup_map hnodup hb ha hkey]

theorem firstBlock_perm (h : l.Perm l') (hnodup : (l'.map key).Nodup) :
    firstBlock key block l d k = firstBlock key block l' d k := by
  by_cases hk : k ∈ l.map key
  · obtain ⟨a, ha, rfl⟩ := List.mem_map.mp hk
    have hnodup' := (h.map key).nodup_iff.mpr hnodup
    rw [firstBlock_of_mem hnodup' ha, firstBlock_of_mem hnodup (h.mem_iff.mp ha)]
  · have hk' : k ∉ l'.map key := fun h' => hk ((h.map key).mem_iff.mpr h')
    rw [firstBlock_of_not_mem hk, firstBlock_of_not_mem hk']

theorem getElem?_idxOf (l : List α) :
    (l.map block ++ [d])[(l.map key).idxOf k]? = some (firstBlock key block l d k) := by
  induction l with
  | nil => rfl
  | cons a l ih =>
    by_cases ha : key a = k
    · rw [firstBlock_cons_eq a ha, List.map_cons, List.map_cons, List.idxOf_cons_eq _ ha]
      rfl
    · rw [firstBlock_cons_ne a ha, List.map_cons, List.map_cons, List.idxOf_cons_ne _ ha,
        List.cons_append, List.getElem?_cons_succ]
      exact ih

theorem firstBlock_comp {γ : Type} [DecidableEq γ] {g : β → γ}
    (h : ∀ a ∈ l, g (key a) = g k → key a = k) :
    firstBlock (fun a => g (key a)) block l d (g k) = firstBlock key block l d k := by
  induction l with
  | nil => rfl
  | cons a l ih =>
    have hrest := ih fun b hb => h b (List.mem_cons_of_mem _ hb)
    by_cases ha : key a = k
    · have hkey : firstBlock key block (a :: l) d k = block a := firstBlock_cons_eq a ha
      rw [hkey, firstBlock_cons_eq a (congrArg g ha)]
    · have hkey : firstBlock key block (a :: l) d k = firstBlock key block l d k :=
        firstBlock_cons_ne a ha
      rw [hkey, firstBlock_cons_ne a fun hg => ha (h a (List.mem_cons_self ..) hg), hrest]

theorem firstBlock_map {γ : Type} (f : γ → α) (l : List γ) :
    firstBlock key block (l.map f) d k
      = firstBlock (fun c => key (f c)) (fun c => block (f c)) l d k := by
  induction l with
  | nil => rfl
  | cons c l ih =>
    rw [List.map_cons]
    by_cases hc : key (f c) = k
    · have hkey : firstBlock (fun c => key (f c)) (fun c => block (f c)) (c :: l) d k
          = block (f c) := firstBlock_cons_eq c hc
      rw [firstBlock_cons_eq _ hc, hkey]
    · have hkey : firstBlock (fun c => key (f c)) (fun c => block (f c)) (c :: l) d k
          = firstBlock (fun c => key (f c)) (fun c => block (f c)) l d k := firstBlock_cons_ne c hc
      rw [firstBlock_cons_ne _ hc, ih, hkey]

end

/-! ## Cases and paths -/

/-- A case of a switch on integers of `w` bits. -/
structure Case (w : ℕ) where
  constant : BitVec w
  block : ℕ
deriving DecidableEq

/-- Where a switch goes for the value `v`. -/
def switchTarget {w : ℕ} (cases : List (Case w)) (defblock : ℕ) (v : BitVec w) : ℕ :=
  firstBlock Case.constant Case.block cases defblock v

/-- The block of the first path whose constant, as `parse_switch` has left it, is `key`. -/
def pathTarget (paths : List SwitchPath) (defblock : ℕ) (key : BitVec 64) : ℕ :=
  firstBlock SwitchPath.v64 SwitchPath.block paths defblock key

def casePath {w : ℕ} (c : Case w) : SwitchPath := ⟨c.constant.setWidth 64 &&& caseMask w, c.block⟩

theorem and_caseMask {w : ℕ} (hw : w < 64) (u : BitVec 64) :
    u &&& caseMask w = (u.setWidth w).setWidth 64 := by
  have hpow : 2 ^ w < 2 ^ 64 := Nat.pow_lt_pow_right (by omega) hw
  have hpos := Nat.two_pow_pos w
  have hmask : (caseMask w).toNat = 2 ^ w - 1 := by
    rw [caseMask, if_neg (by omega), BitVec.toNat_sub, BitVec.natCast_eq_ofNat,
      BitVec.toNat_ofNat, Nat.one_shiftLeft]
    change (2 ^ 64 - 1 + 2 ^ w % 2 ^ 64) % 2 ^ 64 = _
    omega
  apply BitVec.eq_of_toNat_eq
  rw [BitVec.toNat_and, hmask, Nat.and_two_pow_sub_one_eq_mod, BitVec.toNat_setWidth,
    BitVec.toNat_setWidth, Nat.mod_eq_of_lt (Nat.lt_trans (Nat.mod_lt _ hpos) hpow)]

theorem casePath_v64 {w : ℕ} (hw : w < 64) (c : Case w) :
    (casePath c).v64 = c.constant.setWidth 64 := by
  rw [casePath, and_caseMask hw, BitVec.setWidth_setWidth_of_le c.constant (by omega),
    BitVec.setWidth_eq]

theorem casePath_toNat (c : Case 64) : (casePath c).v64.toNat = 2 * (c.constant.toNat / 2) := by
  have hmask : c.constant &&& ~~~(1 : BitVec 64) = c.constant >>> 1 <<< 1 := by
    apply BitVec.eq_of_getLsbD_eq
    intro i hi
    have hone : (1 : BitVec 64).getLsbD i = decide (i = 0) := by simp [BitVec.getLsbD_one]
    rw [BitVec.getLsbD_and, BitVec.getLsbD_not, BitVec.getLsbD_shiftLeft,
      BitVec.getLsbD_ushiftRight, hone]
    rcases Nat.eq_zero_or_pos i with rfl | hpos
    · simp
    · rw [show 1 + (i - 1) = i by omega]
      simp [show i ≠ 0 by omega, hi]
  have hlt := c.constant.isLt
  have hpath : (casePath c).v64 = c.constant &&& ~~~(1 : BitVec 64) :=
    congrArg (· &&& caseMask 64) (BitVec.setWidth_eq _)
  rw [hpath, hmask, BitVec.toNat_shiftLeft, BitVec.toNat_ushiftRight, Nat.shiftRight_eq_div_pow,
    Nat.shiftLeft_eq]
  omega

theorem constant1 (c : BitVec 1) :
    (if c.signExtend 32 = 0 then (0 : BitVec 64) else 1).setWidth 1 = c := by
  revert c
  decide

/-- What `parse_switch` reads of a constant. -/
theorem IsConstant.get64_masked {iu : IrUnit} {index : ℕ} {w : IntWidth} {c : BitVec w.bits}
    {iv : Value} (h : IsConstant iu index w c) (hget : valueGet iu index = .ok iv) :
    ∃ u, valueGetConst64 iu iv = .ok u
      ∧ u &&& caseMask w.bits = c.setWidth 64 &&& caseMask w.bits := by
  obtain ⟨bits, hpos, hle⟩ := w
  change BitVec bits at c
  obtain ⟨iv', old, hiv, hit, hcls⟩ := h
  obtain rfl : iv' = iv := Except.ok.inj (hiv.symm.trans hget)
  have happend (hi lo : BitVec 32) : (hi ++ lo).setWidth 32 = lo := BitVec.setWidth_append_eq_right
  have hlow : (readSignRotated (signRotated (c.signExtend 64))).setWidth 32 = c.signExtend 32 := by
    rw [readSignRotated_signRotated, NarrowArith.signExtend_setWidth c (by omega)]
  -- A value whose low bits are the constant.
  have hmasked (u : BitVec 64) (hu : u.setWidth bits = c) (hlt : bits < 64) :
      u &&& caseMask bits = c.setWidth 64 &&& caseMask bits := by
    rw [and_caseMask hlt, and_caseMask hlt, hu, BitVec.setWidth_setWidth_of_le c hle,
      BitVec.setWidth_eq]
  have hword (hbits : bits ≤ 32) : ((c.signExtend 32).setWidth 64).setWidth bits = c := by
    rw [BitVec.setWidth_setWidth_of_le _ (by omega), NarrowArith.setWidth_signExtend hbits]
  rw [IntWidth.type] at hit hcls
  simp only at hit hcls
  split_ifs at hit hcls with h1 h8 h16 h32 h64
  · subst h1
    refine ⟨if c.signExtend 32 = 0 then 0 else 1, ?_, hmasked _ (constant1 c) (by omega)⟩
    simp only [valueGetConst64, ← Except.ok.inj hcls, hit]
    change Except.ok (if _ = _ then _ else _) = _
    simp only [happend, hlow]
  · refine ⟨(c.signExtend 32).setWidth 64, ?_, hmasked _ (hword (by omega)) (by omega)⟩
    simp only [valueGetConst64, ← Except.ok.inj hcls, hit]
    exact congrArg (fun v => Except.ok (BitVec.setWidth 64 v)) ((happend _ _).trans hlow)
  · refine ⟨(c.signExtend 32).setWidth 64, ?_, hmasked _ (hword (by omega)) (by omega)⟩
    simp only [valueGetConst64, ← Except.ok.inj hcls, hit]
    exact congrArg (fun v => Except.ok (BitVec.setWidth 64 v)) ((happend _ _).trans hlow)
  · refine ⟨(c.signExtend 32).setWidth 64, ?_, hmasked _ (hword (by omega)) (by omega)⟩
    simp only [valueGetConst64, ← Except.ok.inj hcls, hit]
    exact congrArg (fun v => Except.ok (BitVec.setWidth 64 v)) ((happend _ _).trans hlow)
  · subst h64
    refine ⟨c.signExtend 64, ?_, by rw [BitVec.signExtend_eq, BitVec.setWidth_eq]⟩
    simp only [valueGetConst64, ← Except.ok.inj hcls, hit, readSignRotated_signRotated]
    rfl
  · refine ⟨c.signExtend 64, ?_, hmasked _ (NarrowArith.setWidth_signExtend hle c) (by omega)⟩
    simp only [valueGetConst64, ← Except.ok.inj hcls, hit, readSignRotated_signRotated]
    rfl

/-- The operands `arg` of a switch record on values of type `typeid` are the case `c`. -/
structure IsCase (iu : IrUnit) (typeid : ℕ) (w : IntWidth) (arg : ℕ × ℕ) (c : Case w.bits) :
    Prop where
  constant : IsConstant iu arg.1 w c.constant
  type : ∃ iv, valueGet iu arg.1 = .ok iv ∧ iv.type = typeid
  block : arg.2 = c.block

theorem parseSwitchPath_case {iu : IrUnit} {typeid : ℕ} {w : IntWidth} {arg : ℕ × ℕ}
    {c : Case w.bits} (h : IsCase iu typeid w arg c) :
    parseSwitchPath iu typeid w.bits arg.1 arg.2 = .ok (casePath c) := by
  obtain ⟨iv, hiv, htype⟩ := h.type
  obtain ⟨iv', u64, hiv', hcls⟩ := h.constant.cls
  obtain rfl : iv' = iv := Except.ok.inj (hiv'.symm.trans hiv)
  obtain ⟨u, hu, hmask⟩ := IsConstant.get64_masked h.constant hiv
  rw [parseSwitchPath, hiv, ok_bind]
  simp only [hcls, htype, ne_eq, not_true_eq_false, if_false, hu, ok_bind, pure, Except.pure]
  rw [casePath, hmask, h.block]

/-- `parse_switch` takes every case as it stands. -/
theorem parseSwitchPaths_cases {iu : IrUnit} {typeid : ℕ} {w : IntWidth} {args : List (ℕ × ℕ)}
    {cases : List (Case w.bits)} (htype : typeGet iu typeid = .ok w.type)
    (h : List.Forall₂ (IsCase iu typeid w) args cases) :
    parseSwitchPaths iu typeid args = .ok (cases.map casePath) := by
  have hwidth : typeBitwidth w.type = .ok w.bits := by
    unfold IntWidth.type
    split_ifs with h1 h8 h16 h32 h64
    all_goals simp only [typeBitwidth, *]
  rw [parseSwitchPaths, htype, ok_bind, hwidth, ok_bind]
  induction h with
  | nil => rfl
  | cons hcase _ ih =>
    rw [List.mapM_cons, List.map_cons]
    simp only [parseSwitchPath_case hcase, ok_bind, ih]
    rfl

end Vmir.SwitchPaths
