import Vmir.ArmCore
import Vmir.JitBuffer
import Vmir.JitEmit
import Vmir.LiteralPool
import Vmir.VmOps

set_option autoImplicit false

/-!
# The immediates of the ARM code

What the processor makes of the constants that the generator encodes: the twelve bits of
`make_imm12`, a constant that is loaded or added, and a compare with a constant.
-/
namespace Vmir.ArmImmediates
open Ir IrTypes ArmCore JitArm JitBuffer JitEmit LiteralPool

/-! ## Twelve bits -/

theorem low_byte {v : BitVec 32} (h : v &&& 0xffffff00 = 0) :
    (v.setWidth 8).setWidth 32 = v := by
  apply BitVec.eq_of_getLsbD_eq
  intro i hi
  rw [BitVec.getLsbD_setWidth, BitVec.getLsbD_setWidth, decide_eq_true hi, Bool.true_and]
  by_cases hlow : i < 8
  · rw [decide_eq_true hlow, Bool.true_and]
  · have hbit := congrArg (fun x => BitVec.getLsbD x i) h
    have hmask : BitVec.getLsbD (0xffffff00 : BitVec 32) i = true := by
      interval_cases i <;> first | omega | rfl
    simp only [BitVec.getLsbD_and, hmask, Bool.and_true] at hbit
    rw [decide_eq_false hlow, Bool.false_and, hbit]
    exact (BitVec.getLsbD_zero).symm

theorem low_byte_ctz {v : BitVec 32} (h : v &&& 0xffffff00 ≠ 0) : v.ctz.toNat < 32 := by
  have hne : v ≠ 0 := by
    intro hzero
    rw [hzero] at h
    exact h rfl
  exact BitVec.ctz_lt_iff_ne_zero.mpr hne

theorem rotated_field {b : BitVec 32} (hb : b &&& 0xffffff00 = 0) {k : ℕ} (hk : k < 16) :
    (BitVec.ofNat 4 k ++ b.setWidth 8 : BitVec 12).setWidth 32
      = b ||| BitVec.ofNat 32 (2 * k) <<< 7 := by
  have hbyte := low_byte hb
  have hlt : (b.setWidth 8).toNat < 2 ^ 8 := (b.setWidth 8).isLt
  have hbn : b.toNat = (b.setWidth 8).toNat := by
    conv_lhs => rw [← hbyte]
    rw [BitVec.toNat_setWidth]
    omega
  apply BitVec.eq_of_toNat_eq
  rw [BitVec.toNat_setWidth, BitVec.toNat_append, BitVec.toNat_or, BitVec.toNat_shiftLeft,
    BitVec.toNat_ofNat, BitVec.toNat_ofNat, hbn, Nat.mod_eq_of_lt (show k < 2 ^ 4 by omega),
    Nat.mod_eq_of_lt (show 2 * k < 2 ^ 32 by omega), Nat.shiftLeft_eq, Nat.shiftLeft_eq,
    Nat.mod_eq_of_lt (show 2 * k * 2 ^ 7 < 2 ^ 32 by omega), Nat.or_comm]
  have hsame : 2 * k * 2 ^ 7 = k * 2 ^ 8 := by omega
  rw [hsame]
  apply Nat.mod_eq_of_lt
  apply Nat.or_lt_two_pow <;> omega

theorem expandImm_rotated (b : BitVec 8) {k : ℕ} (hk : k < 16) :
    expandImm (BitVec.ofNat 4 k ++ b : BitVec 12) = (b.setWidth 32).rotateRight (2 * k) := by
  have hlow : (BitVec.ofNat 4 k ++ b : BitVec 12).setWidth 8 = b := BitVec.setWidth_append_eq_right
  have hhigh : (BitVec.ofNat 4 k ++ b : BitVec 12).extractLsb' 8 4 = BitVec.ofNat 4 k :=
    BitVec.extractLsb'_append_eq_left
  unfold expandImm
  rw [hlow, hhigh, BitVec.toNat_ofNat, Nat.mod_eq_of_lt (show k < 2 ^ 4 by omega)]

/-- Where `make_imm12` finds an encoding, the processor expands it to the number. -/
theorem makeImm12_field {v : BitVec 32} (h : makeImm12 v ≠ -1) :
    ∃ f : BitVec 12, makeImm12 v = f.setWidth 32 ∧ expandImm f = v := by
  unfold makeImm12 at h ⊢
  by_cases hbyte : v &&& 0xffffff00 = 0
  · rw [if_pos hbyte]
    refine ⟨BitVec.ofNat 4 0 ++ v.setWidth 8, ?_, ?_⟩
    · rw [rotated_field hbyte (by omega)]
      simp
    · rw [expandImm_rotated _ (by omega), low_byte hbyte]
      rw [Nat.mul_zero, BitVec.rotateRight_def]
      simp
  · rw [if_neg hbyte] at h ⊢
    have hctz := low_byte_ctz hbyte
    generalize hrot : v.ctz.toNat / 2 * 2 = rot at h ⊢
    by_cases hrest : rotr32 v rot &&& 0xffffff00 = 0
    · have hpos : 0 < rot := by
        by_contra hzero
        have hrot0 : rot = 0 := by omega
        rw [hrot0] at hrest
        apply hbyte
        have hsame : rotr32 v 0 = v := by
          unfold rotr32
          rw [BitVec.shiftLeft_eq_zero (by omega)]
          simp
        rw [← hsame, hrest]
      have hlt : rot < 32 := by omega
      have hright : rotr32 v rot = v.rotateRight rot := by
        rw [BitVec.rotateRight_def, Nat.mod_eq_of_lt hlt]
        rfl
      have hleft : rotl32 v (32 - rot) = rotr32 v rot := by
        unfold rotl32 rotr32
        rw [BitVec.or_comm, Nat.sub_sub_self (by omega)]
      have heven : 32 - rot = 2 * ((32 - rot) / 2) := by omega
      rw [if_pos hrest]
      refine ⟨BitVec.ofNat 4 ((32 - rot) / 2) ++ (rotr32 v rot).setWidth 8, ?_, ?_⟩
      · rw [rotated_field hrest (by omega), ← heven]
        change rotl32 v (32 - rot) ||| _ = _
        rw [hleft]
      · rw [expandImm_rotated _ (by omega), low_byte hrest, ← heven, hright]
        exact rotateRight_rotateRight v hpos hlt
    · rw [if_neg hrest] at h
      exact absurd rfl h

/-! ## Words -/

def condBits (c : BitVec 4) : BitVec 32 := c.setWidth 32 <<< 28

theorem armCondAl_bits : armCondAl = condBits 14 := by decide

theorem word_of_op {op : BitVec 8} {bits : BitVec 32} (h : bits = op.setWidth 32 <<< 20)
    (c rn rd : BitVec 4) (imm : BitVec 12) :
    condBits c ||| (bits ||| field rn 16 ||| field rd 12 ||| imm.setWidth 32)
      = word c op rn rd imm := by
  unfold word field condBits
  rw [h]
  simp only [BitVec.or_assoc]

theorem field_zero (n : ℕ) : field 0 n = 0#32 := by
  unfold field
  simp

theorem reg_imm (r : Reg) : (r.setWidth 12).setWidth 32 = r.setWidth 32 := by
  apply BitVec.eq_of_toNat_eq
  rw [BitVec.toNat_setWidth, BitVec.toNat_setWidth, BitVec.toNat_setWidth]
  omega

section
variable (c : BitVec 4) (rd rn rm : Reg) (f : BitVec 12)

theorem mov_word :
    condBits c ||| bit 25 ||| bit 24 ||| bit 23 ||| bit 21 ||| field rd 12 ||| f.setWidth 32
      = word c 0x3a 0 rd f := by
  have hop : bit 25 ||| bit 24 ||| bit 23 ||| bit 21 = (0x3a : BitVec 8).setWidth 32 <<< 20 := by
    decide
  rw [← word_of_op hop, field_zero, BitVec.or_zero]
  simp only [BitVec.or_assoc]

theorem mvn_word :
    condBits c ||| bit 25 ||| bit 24 ||| bit 23 ||| bit 22 ||| bit 21 ||| field rd 12 |||
      f.setWidth 32 = word c 0x3e 0 rd f := by
  have hop : bit 25 ||| bit 24 ||| bit 23 ||| bit 22 ||| bit 21
      = (0x3e : BitVec 8).setWidth 32 <<< 20 := by decide
  rw [← word_of_op hop, field_zero, BitVec.or_zero]
  simp only [BitVec.or_assoc]

theorem ldr_word : loadLiteral rd (condBits c) ||| f.setWidth 32 = word c 0x59 15 rd f := by
  have hop : bit 26 ||| bit 24 ||| bit 23 ||| bit 20 = (0x59 : BitVec 8).setWidth 32 <<< 20 := by
    decide
  have hpc : (0x1f <<< 16 : BitVec 32) = bit 20 ||| field 15 16 := by decide
  rw [← word_of_op hop, loadLiteral, hpc]
  simp only [BitVec.or_assoc]

theorem add_word :
    bit 25 ||| bit 23 ||| field rn 16 ||| field rd 12 ||| f.setWidth 32 ||| armCondAl
      = word 14 0x28 rn rd f := by
  have hop : bit 25 ||| bit 23 = (0x28 : BitVec 8).setWidth 32 <<< 20 := by decide
  rw [← word_of_op hop, armCondAl_bits, BitVec.or_comm]

theorem addReg_word :
    bit 23 ||| field rn 16 ||| field rd 12 ||| rm.setWidth 32 ||| armCondAl
      = word 14 0x08 rn rd (rm.setWidth 12) := by
  have hop : bit 23 = (0x08 : BitVec 8).setWidth 32 <<< 20 := by decide
  rw [← word_of_op hop, armCondAl_bits, reg_imm, BitVec.or_comm]

theorem cmp_word :
    bit 25 ||| bit 24 ||| bit 22 ||| bit 20 ||| field rn 16 ||| f.setWidth 32 ||| armCondAl
      = word 14 0x35 rn 0 f := by
  have hop : bit 25 ||| bit 24 ||| bit 22 ||| bit 20 = (0x35 : BitVec 8).setWidth 32 <<< 20 := by
    decide
  rw [← word_of_op hop, armCondAl_bits, field_zero, BitVec.or_zero, BitVec.or_comm]

theorem cmn_word :
    bit 25 ||| bit 24 ||| bit 22 ||| bit 21 ||| bit 20 ||| field rn 16 ||| f.setWidth 32 |||
      armCondAl = word 14 0x37 rn 0 f := by
  have hop : bit 25 ||| bit 24 ||| bit 22 ||| bit 21 ||| bit 20
      = (0x37 : BitVec 8).setWidth 32 <<< 20 := by decide
  rw [← word_of_op hop, armCondAl_bits, field_zero, BitVec.or_zero, BitVec.or_comm]

theorem cmpReg_word :
    cmpRegister rn rm ||| armCondAl = word 14 0x15 rn 0 (rm.setWidth 12) := by
  have hop : bit 24 ||| bit 22 ||| bit 20 = (0x15 : BitVec 8).setWidth 32 <<< 20 := by decide
  rw [← word_of_op hop, armCondAl_bits, field_zero, BitVec.or_zero, reg_imm, BitVec.or_comm]
  rfl

theorem movw_word (imm : BitVec 32) :
    condBits c ||| bit 25 ||| bit 24 ||| (imm &&& 0xf000) <<< 4 ||| field rd 12 ||| (imm &&& 0xfff)
      = word c 0x30 (imm.extractLsb' 12 4) rd (imm.extractLsb' 0 12) := by
  have hop : bit 25 ||| bit 24 = (0x30 : BitVec 8).setWidth 32 <<< 20 := by decide
  have hhigh : (imm &&& 0xf000) <<< 4 = field (imm.extractLsb' 12 4) 16 := by
    apply BitVec.eq_of_getLsbD_eq
    intro i hi
    simp only [field, BitVec.getLsbD_shiftLeft, BitVec.getLsbD_and, BitVec.getLsbD_setWidth,
      BitVec.getLsbD_extractLsb']
    interval_cases i <;> simp
  have hlow : imm &&& 0xfff = (imm.extractLsb' 0 12).setWidth 32 := by
    apply BitVec.eq_of_getLsbD_eq
    intro i hi
    simp only [BitVec.getLsbD_and, BitVec.getLsbD_setWidth, BitVec.getLsbD_extractLsb']
    interval_cases i <;> simp
  rw [← word_of_op hop, hhigh, hlow]
  simp only [BitVec.or_assoc]

end

/-! ## Loads of constants -/

/-- What `jit_loadimm_cond` appends. -/
def loadimmItem (u : JitUnit) (imm : BitVec 32) (rd : Reg) (cond : BitVec 32) : Item :=
  if makeImm12 imm ≠ -1 then
    .push (cond ||| bit 25 ||| bit 24 ||| bit 23 ||| bit 21 ||| field rd 12 ||| makeImm12 imm)
  else if makeImm12 (~~~imm) ≠ -1 then
    .push (cond ||| bit 25 ||| bit 24 ||| bit 23 ||| bit 22 ||| bit 21 ||| field rd 12 |||
      makeImm12 (~~~imm))
  else if imm ≤ 0xffff ∧ hasIdiv u then
    .push (cond ||| bit 25 ||| bit 24 ||| (imm &&& 0xf000) <<< 4 ||| field rd 12 |||
      (imm &&& 0xfff))
  else .literal imm rd false cond

section
variable (u : JitUnit) (imm : BitVec 32) (rd : Reg)

theorem jitLoadimmCond_run (cond : BitVec 32) (is : List Item) :
    (jitLoadimmCond u imm rd cond).run is = .ok ((), is ++ [loadimmItem u imm rd cond]) := by
  unfold jitLoadimmCond loadimmItem
  split
  · rfl
  · split
    · rfl
    · split
      · rfl
      · rfl

theorem loadimmItem_words (cond : BitVec 32) :
    (wordsOf (loadimmItem u imm rd cond)).length = 1 := by
  unfold loadimmItem
  split
  · rfl
  · split
    · rfl
    · split
      · rfl
      · rfl

variable {u imm rd} {c : BitVec 4} {before after : List Item} {start : ℕ}
  {code : List (BitVec 32)}

theorem move_step {w : BitVec 32} {op : BitVec 8} {rn : BitVec 4} {f : BitVec 12}
    {i : ArmCore.Instr} (hc : c ≠ 15) (hw : w = word c op rn rd f) (hi : decodeFields op rn rd f = some i)
    (hcode : CodeOf (before ++ .push w :: after) start code) (s : Cpu)
    (hpc : s.pc = start + (before.flatMap wordsOf).length)
    (hexec : exec code s i = some (s.set rd imm)) :
    step code s = some (if conditionPassed c s.flags then s.set rd imm else s.skip) := by
  have hat := codeOf_push hcode
  rw [← hpc, hw] at hat
  rw [step_word hat hc hi, hexec]
  split
  · rfl
  · rfl

theorem halves (h : imm ≤ 0xffff) :
    (imm.extractLsb' 12 4 ++ imm.extractLsb' 0 12 : BitVec 16).setWidth 32 = imm := by
  have hle : imm.toNat ≤ 0xffff := h
  apply BitVec.eq_of_toNat_eq
  rw [BitVec.toNat_setWidth, BitVec.toNat_append, BitVec.extractLsb'_toNat,
    BitVec.extractLsb'_toNat, ← Nat.shiftLeft_add_eq_or_of_lt (Nat.mod_lt _ (by decide)),
    Nat.shiftLeft_eq, Nat.shiftRight_eq_div_pow, Nat.shiftRight_eq_div_pow]
  omega

theorem loadimm_step (hrd : rd ≠ 15) (hc : c ≠ 15) (hafter : after ≠ [])
    (hcode : CodeOf (before ++ loadimmItem u imm rd (condBits c) :: after) start code) (s : Cpu)
    (hpc : s.pc = start + (before.flatMap wordsOf).length) :
    step code s = some (if conditionPassed c s.flags then s.set rd imm else s.skip) := by
  unfold loadimmItem at hcode
  by_cases hmov : makeImm12 imm ≠ -1
  · rw [if_pos hmov] at hcode
    obtain ⟨f, hf, hexp⟩ := makeImm12_field hmov
    apply move_step hc (by rw [hf, mov_word]) (decodeFields_movImm f hrd) hcode s hpc
    change some (s.set rd (expandImm f)) = _
    rw [hexp]
  rw [if_neg hmov] at hcode
  by_cases hmvn : makeImm12 (~~~imm) ≠ -1
  · rw [if_pos hmvn] at hcode
    obtain ⟨f, hf, hexp⟩ := makeImm12_field hmvn
    apply move_step hc (by rw [hf, mvn_word]) (decodeFields_mvnImm f hrd) hcode s hpc
    change some (s.set rd (~~~expandImm f)) = _
    rw [hexp, BitVec.not_not]
  rw [if_neg hmvn] at hcode
  by_cases hmovw : imm ≤ 0xffff ∧ hasIdiv u
  · rw [if_pos hmovw] at hcode
    apply move_step hc (movw_word c rd imm) (decodeFields_movw _ _ hrd) hcode s hpc
    change some (s.set rd (BitVec.setWidth 32 _)) = _
    rw [halves hmovw.1]
  · rw [if_neg hmovw] at hcode
    obtain ⟨offset, hmod, hload, hvalue, _⟩ := codeOf_literal hafter hcode
    rw [← hpc, ldr_word] at hload
    rw [← hpc] at hvalue
    have hexec : exec code s (.ldrLiteral rd offset) = some (s.set rd imm) := by
      change (if offset.toNat % 4 = 0 then
        code[s.pc + 2 + offset.toNat / 4]?.map (s.set rd) else none) = _
      rw [if_pos hmod, hvalue]
      rfl
    rw [step_word hload hc (decodeFields_ldrLiteral offset hrd), hexec]
    split
    · rfl
    · rfl

end

/-! ## Words that are always run -/

section
variable {before after : List Item} {start : ℕ} {code : List (BitVec 32)}

theorem always_step {w : BitVec 32} {op : BitVec 8} {rn rd : BitVec 4} {f : BitVec 12}
    {i : ArmCore.Instr} (hw : w = word 14 op rn rd f) (hi : decodeFields op rn rd f = some i)
    (hcode : CodeOf (before ++ .push w :: after) start code) (s : Cpu)
    (hpc : s.pc = start + (before.flatMap wordsOf).length) : step code s = exec code s i := by
  have hat := codeOf_push hcode
  rw [← hpc, hw] at hat
  rw [step_word hat (by decide) hi]
  rfl

theorem steps_one {s s' : Cpu} (h : step code s = some s') : steps code 1 s = some s' := by
  change step code s >>= steps code 0 = _
  rw [h]
  rfl

theorem steps_two {s s' s'' : Cpu} (h : step code s = some s') (h' : step code s' = some s'') :
    steps code 2 s = some s'' := by
  change step code s >>= steps code 1 = _
  rw [h]
  exact steps_one h'

theorem next_pc {item : Item} (h : (wordsOf item).length = 1) (n : ℕ) :
    n + (before.flatMap wordsOf).length + 1 = n + ((before ++ [item]).flatMap wordsOf).length := by
  rw [List.flatMap_append, List.length_append, List.flatMap_cons, List.flatMap_nil, List.append_nil,
    h, Nat.add_assoc]

/-! ## Additions -/

/-- The state after an addition that may have used the register `tmpreg`. -/
def Added (s s' : Cpu) (rd rn tmpreg : Reg) (imm : BitVec 32) : Prop :=
  s'.regs rd = s.regs rn + imm ∧ s'.flags = s.flags ∧
  ∀ r, r ≠ rd → r ≠ tmpreg → s'.regs r = s.regs r

theorem jitPushAddImm_run (u : JitUnit) (rd rn tmpreg : Reg) (imm : BitVec 32) (is : List Item) :
    ∃ is', (jitPushAddImm u rd rn imm tmpreg).run is = .ok ((), is') := by
  unfold jitPushAddImm
  split
  · exact ⟨_, rfl⟩
  · change ∃ is', (jitLoadimmCond u imm tmpreg armCondAl).run is >>= _ = Except.ok ((), is')
    rw [jitLoadimmCond_run]
    exact ⟨_, rfl⟩

theorem addImm_runs {u : JitUnit} {rd rn tmpreg : Reg} {imm : BitVec 32} {mid : List Item}
    (hrd : rd ≠ 15) (hrn : rn ≠ 15) (htmp : tmpreg ≠ 15) (hne : tmpreg ≠ rn)
    (hrun : (jitPushAddImm u rd rn imm tmpreg).run before = .ok ((), mid))
    (hcode : CodeOf (mid ++ after) start code) (s : Cpu)
    (hpc : s.pc = start + (before.flatMap wordsOf).length) :
    ∃ k s', steps code k s = some s' ∧ s'.pc = start + (mid.flatMap wordsOf).length ∧
      Added s s' rd rn tmpreg imm := by
  unfold jitPushAddImm at hrun
  by_cases himm : makeImm12 imm ≠ -1
  · rw [if_pos himm] at hrun
    injection hrun with hrun
    injection hrun with _ hmid
    obtain ⟨f, hf, hexp⟩ := makeImm12_field himm
    rw [← hmid, List.append_assoc] at hcode
    have hstep := always_step (by rw [hf, add_word]) (decodeFields_addImm f hrn hrd) hcode s hpc
    refine ⟨1, s.set rd (s.regs rn + imm), ?_, ?_, ?_⟩
    · apply steps_one
      rw [hstep]
      change some (s.set rd (s.regs rn + expandImm f)) = _
      rw [hexp]
    · rw [← hmid, ← next_pc rfl]
      exact congrArg (· + 1) hpc
    · exact ⟨Cpu.set_self s rd _, rfl, fun r hr _ => Cpu.set_other s _ hr⟩
  · rw [if_neg himm] at hrun
    change (jitLoadimmCond u imm tmpreg armCondAl).run before >>= _ = _ at hrun
    rw [jitLoadimmCond_run] at hrun
    injection hrun with hrun
    injection hrun with _ hmid
    generalize hload : loadimmItem u imm tmpreg armCondAl = load at hmid
    have hone : (wordsOf load).length = 1 := by rw [← hload, loadimmItem_words]
    rw [← hmid, List.append_assoc] at hcode
    have hfirst : CodeOf (before ++ loadimmItem u imm tmpreg (condBits 14) ::
        ([.push (bit 23 ||| field rn 16 ||| field rd 12 ||| tmpreg.setWidth 32 ||| armCondAl)] ++
          after)) start code := by
      rw [← armCondAl_bits, hload]
      rw [List.append_assoc] at hcode
      exact hcode
    have hloaded := loadimm_step htmp (by decide) (by simp) hfirst s hpc
    change step code s = some (s.set tmpreg imm) at hloaded
    have hpc' : (s.set tmpreg imm).pc = start + ((before ++ [load]).flatMap wordsOf).length := by
      rw [← next_pc hone, ← hpc]
      rfl
    have hadd := always_step (addReg_word rd rn tmpreg) (decodeFields_addReg hrn hrd htmp) hcode
      (s.set tmpreg imm) hpc'
    have hrn' : (s.set tmpreg imm).regs rn = s.regs rn := Cpu.set_other s imm hne.symm
    have htmp' : (s.set tmpreg imm).regs tmpreg = imm := Cpu.set_self s tmpreg imm
    refine ⟨2, (s.set tmpreg imm).set rd (s.regs rn + imm), ?_, ?_, ?_⟩
    · apply steps_two hloaded
      rw [hadd]
      change some ((s.set tmpreg imm).set rd
        ((s.set tmpreg imm).regs rn + (s.set tmpreg imm).regs tmpreg)) = _
      rw [hrn', htmp']
    · rw [← hmid, ← next_pc rfl]
      exact congrArg (· + 1) hpc'
    · refine ⟨Cpu.set_self _ rd _, rfl, ?_⟩
      intro r hr hrtmp
      calc
        ((s.set tmpreg imm).set rd (s.regs rn + imm)).regs r = (s.set tmpreg imm).regs r :=
          Cpu.set_other _ _ hr
        _ = s.regs r := Cpu.set_other s imm hrtmp

/-! ## Compares -/

section
variable (x y : BitVec 32)

theorem unsigned_above : y.ult x = (y.ule x && !(x == y)) := by
  rw [Bool.eq_iff_iff]
  simp only [BitVec.ult, BitVec.ule, Bool.and_eq_true, decide_eq_true_eq, Bool.not_eq_true',
    beq_eq_false_iff_ne, ne_eq, BitVec.toNat_eq]
  omega

theorem unsigned_below : x.ult y = !y.ule x := by
  rw [Bool.eq_iff_iff]
  simp only [BitVec.ult, BitVec.ule, Bool.not_eq_true', decide_eq_true_eq, decide_eq_false_iff_not]
  omega

theorem signed_above : y.slt x = (y.sle x && !(x == y)) := by
  rw [Bool.eq_iff_iff]
  simp only [BitVec.slt, BitVec.sle, Bool.and_eq_true, decide_eq_true_eq, Bool.not_eq_true',
    beq_eq_false_iff_ne, ne_eq, ← BitVec.toInt_inj]
  omega

theorem signed_below : x.slt y = !y.sle x := by
  rw [Bool.eq_iff_iff]
  simp only [BitVec.slt, BitVec.sle, Bool.not_eq_true', decide_eq_true_eq, decide_eq_false_iff_not]
  omega

theorem conditionPassed_armcond (q : IcmpPred) :
    conditionPassed ((armcond q).extractLsb' 28 4) (cmpFlags x y) = VmOps.icmp q x y := by
  have hz : (cmpFlags x y).z = (x == y) := by
    rw [Bool.eq_iff_iff, cmpFlags_z, beq_iff_eq]
  have hc : (cmpFlags x y).c = y.ule x := by
    rw [Bool.eq_iff_iff, cmpFlags_c, BitVec.ule_iff_toNat_le]
  have hnv : ((cmpFlags x y).n == (cmpFlags x y).v) = y.sle x := by
    rw [Bool.eq_iff_iff, cmpFlags_nv, BitVec.sle_iff_toInt_le]
  have hule : x.ule y = !y.ult x := by rw [unsigned_below, Bool.not_not]
  have hsle : x.sle y = !y.slt x := by rw [signed_below, Bool.not_not]
  cases q with
  | eq => exact hz
  | ne => exact congrArg (!·) hz
  | uge => exact hc
  | ult =>
    change (!(cmpFlags x y).c) = x.ult y
    rw [hc, unsigned_below]
  | ugt =>
    change ((cmpFlags x y).c && !(cmpFlags x y).z) = y.ult x
    rw [hc, hz, unsigned_above]
  | ule =>
    change (!((cmpFlags x y).c && !(cmpFlags x y).z)) = x.ule y
    rw [hc, hz, hule, unsigned_above]
  | sge => exact hnv
  | slt =>
    change (!((cmpFlags x y).n == (cmpFlags x y).v)) = x.slt y
    rw [hnv, signed_below]
  | sgt =>
    change ((cmpFlags x y).n == (cmpFlags x y).v && !(cmpFlags x y).z) = y.slt x
    rw [hnv, hz, signed_above]
  | sle =>
    change (!((cmpFlags x y).n == (cmpFlags x y).v && !(cmpFlags x y).z)) = x.sle y
    rw [hnv, hz, hsle, signed_above]

end

/-- The state after a compare that may have used `R_TMPB`. -/
def Compared (s s' : Cpu) (rn : Reg) (rc : BitVec 32) : Prop :=
  (∀ q : IcmpPred, conditionPassed ((armcond q).extractLsb' 28 4) s'.flags
    = VmOps.icmp q (s.regs rn) rc) ∧
  ∀ r, r ≠ rTmpb → s'.regs r = s.regs r

theorem compared_of_flags {s s' : Cpu} {rn : Reg} {rc : BitVec 32}
    (hflags : s'.flags = cmpFlags (s.regs rn) rc) (hregs : ∀ r, r ≠ rTmpb → s'.regs r = s.regs r) :
    Compared s s' rn rc := by
  refine ⟨?_, hregs⟩
  intro q
  rw [hflags, conditionPassed_armcond]

theorem makeImm12_self_negation {rc : BitVec 32} (h : makeImm12 rc = -1) :
    rc ≠ 0 ∧ rc ≠ 0x80000000 := by
  constructor
  · rintro rfl
    exact absurd h (by decide +kernel)
  · rintro rfl
    exact absurd h (by decide +kernel)

theorem cmpImmediate_step {rn : Reg} {rc w : BitVec 32} (hrn : rn ≠ 15)
    (h : cmpImmediate rn rc = some w)
    (hcode : CodeOf (before ++ .push (w ||| armCondAl) :: after) start code) (s : Cpu)
    (hpc : s.pc = start + (before.flatMap wordsOf).length) :
    step code s = some (s.setFlags (cmpFlags (s.regs rn) rc)) := by
  unfold cmpImmediate at h
  by_cases hcmp : makeImm12 rc ≠ -1
  · rw [if_pos hcmp] at h
    injection h with h
    obtain ⟨f, hf, hexp⟩ := makeImm12_field hcmp
    rw [always_step (by rw [← h, hf, cmp_word]) (decodeFields_cmpImm f hrn) hcode s hpc]
    change some (s.setFlags (addWithCarry (s.regs rn) (~~~expandImm f) true).2) = _
    rw [hexp]
    rfl
  · rw [if_neg hcmp] at h
    by_cases hcmn : makeImm12 (-rc) ≠ -1
    · rw [if_pos hcmn] at h
      injection h with h
      obtain ⟨f, hf, hexp⟩ := makeImm12_field hcmn
      obtain ⟨hzero, hmin⟩ := makeImm12_self_negation (not_not.mp hcmp)
      rw [always_step (by rw [← h, hf, cmn_word]) (decodeFields_cmnImm f hrn) hcode s hpc]
      change some (s.setFlags (addWithCarry (s.regs rn) (expandImm f) false).2) = _
      rw [hexp, cmn_flags _ rc hzero hmin]
    · rw [if_neg hcmn] at h
      exact absurd h (by simp)

theorem cmpRegister_runs {u : JitUnit} {rn : Reg} {rc : BitVec 32} {mid : List Item}
    (hrn : rn ≠ 15) (hne : rn ≠ rTmpb)
    (hmid : before ++ [loadimmItem u rc rTmpb armCondAl] ++
      [.push (cmpRegister rn rTmpb ||| armCondAl)] = mid)
    (hcode : CodeOf (mid ++ after) start code) (s : Cpu)
    (hpc : s.pc = start + (before.flatMap wordsOf).length) :
    ∃ k s', steps code k s = some s' ∧ s'.pc = start + (mid.flatMap wordsOf).length ∧
      Compared s s' rn rc := by
  generalize hload : loadimmItem u rc rTmpb armCondAl = load at hmid
  have hone : (wordsOf load).length = 1 := by rw [← hload, loadimmItem_words]
  rw [← hmid, List.append_assoc] at hcode
  have hfirst : CodeOf (before ++ loadimmItem u rc rTmpb (condBits 14) ::
      ([.push (cmpRegister rn rTmpb ||| armCondAl)] ++ after)) start code := by
    rw [← armCondAl_bits, hload]
    rw [List.append_assoc] at hcode
    exact hcode
  have hloaded := loadimm_step (by decide) (by decide) (by simp) hfirst s hpc
  change step code s = some (s.set rTmpb rc) at hloaded
  have hpc' : (s.set rTmpb rc).pc = start + ((before ++ [load]).flatMap wordsOf).length := by
    rw [← next_pc hone, ← hpc]
    rfl
  have hcmp := always_step (cmpReg_word rn rTmpb) (decodeFields_cmpReg hrn (by decide)) hcode
    (s.set rTmpb rc) hpc'
  have hrn' : (s.set rTmpb rc).regs rn = s.regs rn := Cpu.set_other s rc hne
  have htmp' : (s.set rTmpb rc).regs rTmpb = rc := Cpu.set_self s rTmpb rc
  refine ⟨2, (s.set rTmpb rc).setFlags (cmpFlags (s.regs rn) rc), ?_, ?_, ?_⟩
  · apply steps_two hloaded
    rw [hcmp]
    change some ((s.set rTmpb rc).setFlags
      (addWithCarry ((s.set rTmpb rc).regs rn) (~~~(s.set rTmpb rc).regs rTmpb) true).2) = _
    rw [hrn', htmp']
    rfl
  · rw [← hmid, ← next_pc rfl]
    exact congrArg (· + 1) hpc'
  · apply compared_of_flags rfl
    intro r hr
    exact Cpu.set_other s rc hr

end

/-! ## Values that are loaded -/

/-- The frame is read with a sign or zero extension in eight bits of offset, else in twelve. -/
def FrameReach (code : TypeCode) (ext : Ext) (off : ℤ) : Prop :=
  match code, ext with
  | .int8, .signed | .int16, .signed | .int16, .unsigned => -256 < off ∧ off < 256
  | .int1, _ | .int8, _ | .int16, _ | .int32, _ | .float, _ | .pointer, _ =>
    -4096 < off ∧ off < 4096
  | _, _ => False

def HasConst (code : TypeCode) : Prop :=
  match code with
  | .int1 | .int8 | .int16 | .int32 | .pointer | .float | .intx | .int64 | .double => True
  | _ => False

/-- `jit_loadvalue_cond` knows the class of the value, and its type and its place allow a load. -/
def Loadable (u : JitUnit) (vt : ValueType) (ext : Ext) : Prop :=
  ∃ iv it, valueGet u.iu vt.value = .ok iv ∧ typeGet u.iu vt.type = .ok it ∧
    match iv.cls with
    | .machinereg | .function _ => True
    | .regframe off => FrameReach (legalizeType it) ext off.toInt
    | .globalvar _ => ∃ cit, typeGet u.iu iv.type = .ok cit
    | .constant _ => ∃ cit, typeGet u.iu iv.type = .ok cit ∧ HasConst cit.code
    | _ => False

section
variable {u : JitUnit} {vt : ValueType} {reg : Reg} {cond : BitVec 32} {ext : Ext}

theorem valueGetConst_ok {iv : Value} {cit : IrType} {x : BitVec 64} (hcls : iv.cls = .constant x)
    (htype : typeGet u.iu iv.type = .ok cit) (hcode : HasConst cit.code) (ext : Ext) :
    ∃ imm, extendedConst u.iu ext iv = .ok imm := by
  unfold extendedConst valueGetConst32 valueGetConst
  rw [htype]
  simp only [bind, Except.bind, hcls]
  cases hc : cit.code with
  | int1 | int8 | int16 | int32 | pointer | float | intx | int64 | double =>
    split
    · exact ⟨_, rfl⟩
    · exact ⟨_, rfl⟩
  | struct | void | array | function | metadata | label | opaqueType =>
    rw [hc] at hcode
    exact hcode.elim

theorem globalvar_ok {iv : Value} {cit : IrType} {addr : BitVec 32} (hcls : iv.cls = .globalvar addr)
    (htype : typeGet u.iu iv.type = .ok cit) (ext : Ext) :
    extendedConst u.iu ext iv = .ok addr := by
  unfold extendedConst valueGetConst32 valueGetConst
  rw [htype]
  simp only [bind, Except.bind, hcls]
  split
  · rfl
  · rfl

theorem jitLoadMachinereg_ok (mr : Reg) (code : TypeCode) (is : List Item) :
    ∃ rn is', (jitLoadMachinereg mr reg code cond ext).run is = .ok (rn, is') := by
  unfold jitLoadMachinereg
  split
  · exact ⟨_, _, rfl⟩
  · exact ⟨_, _, rfl⟩
  · exact ⟨_, _, rfl⟩
  · exact ⟨_, _, rfl⟩
  · exact ⟨_, _, rfl⟩

theorem jitLoadImm8_ok {off : ℤ} (h : -256 < off ∧ off < 256) (op : BitVec 32) (is : List Item) :
    ∃ is', (jitLoadImm8 off reg cond op).run is = .ok ((), is') := by
  unfold jitLoadImm8 jitOffsetToImm8U
  rw [if_pos ⟨h.2, h.1⟩]
  exact ⟨_, rfl⟩

theorem jitLoadImm12_ok {off : ℤ} (h : -4096 < off ∧ off < 4096) (op : BitVec 32)
    (is : List Item) : ∃ is', (jitLoadImm12 off reg cond op).run is = .ok ((), is') := by
  unfold jitLoadImm12 jitOffsetToImm12U
  rw [if_pos ⟨h.2, h.1⟩]
  exact ⟨_, rfl⟩

variable (reg cond) in
theorem jitLoadRegframe_ok {off : ℤ} {code : TypeCode} (h : FrameReach code ext off)
    (is : List Item) : ∃ is', (jitLoadRegframe off reg code cond ext).run is = .ok ((), is') := by
  unfold jitLoadRegframe
  cases code with
  | int8 =>
    cases ext with
    | signed => exact jitLoadImm8_ok h _ is
    | none | unsigned => exact jitLoadImm12_ok h _ is
  | int16 =>
    cases ext with
    | signed | unsigned => exact jitLoadImm8_ok h _ is
    | none => exact jitLoadImm12_ok h _ is
  | int1 | int32 | float | pointer => exact jitLoadImm12_ok h _ is
  | struct | void | int64 | intx | double | array | function | metadata | label | opaqueType =>
    exact h.elim

variable (reg cond) in
theorem jitLoadvalueCond_ok (h : Loadable u vt ext) (is : List Item) :
    ∃ rn is', (jitLoadvalueCond u vt reg cond ext).run is = .ok (rn, is') := by
  obtain ⟨iv, it, hiv, hit, hload⟩ := h
  unfold jitLoadvalueCond
  rw [lift_bind_run hiv, lift_bind_run hit]
  cases hcls : iv.cls with
  | machinereg => exact jitLoadMachinereg_ok _ _ is
  | function gfid =>
    simp only
    rw [bind_run (jitLoadimmCond_run u gfid reg cond is)]
    exact ⟨_, _, rfl⟩
  | regframe off =>
    rw [hcls] at hload
    obtain ⟨is', hrun⟩ := jitLoadRegframe_ok reg cond hload is
    simp only
    rw [bind_run hrun]
    exact ⟨_, _, rfl⟩
  | globalvar addr =>
    rw [hcls] at hload
    obtain ⟨cit, htype⟩ := hload
    simp only
    rw [lift_bind_run (globalvar_ok hcls htype ext), bind_run (jitLoadimmCond_run u addr reg cond is)]
    exact ⟨_, _, rfl⟩
  | constant x =>
    rw [hcls] at hload
    obtain ⟨cit, htype, hcode⟩ := hload
    obtain ⟨imm, himm⟩ := valueGetConst_ok hcls htype hcode ext
    simp only
    rw [lift_bind_run himm, bind_run (jitLoadimmCond_run u imm reg cond is)]
    exact ⟨_, _, rfl⟩
  | _ =>
    rw [hcls] at hload
    exact hload.elim

theorem jitEmitCmp_ok {lhs rhs : ValueType} {p : IcmpPred} {iv : Value} {x : BitVec 64}
    (hlhs : Loadable u lhs (extOf (.icmp p))) (hrhs : Loadable u rhs (extOf (.icmp p)))
    (hiv : valueGet u.iu rhs.value = .ok iv) (hcls : iv.cls = .constant x) (is : List Item) :
    ∃ is', (jitEmitCmp u lhs rhs (.icmp p)).run is = .ok ((), is') := by
  obtain ⟨rn, loaded, hload⟩ := jitLoadvalueCond_ok rTmpa armCondAl hlhs is
  have hconst : ∃ rc, extendedConst u.iu (extOf (.icmp p)) iv = .ok rc := by
    obtain ⟨iv', it, hiv', _, hrest⟩ := hrhs
    obtain rfl := Except.ok.inj (hiv.symm.trans hiv')
    rw [hcls] at hrest
    obtain ⟨cit, htype, hcode⟩ := hrest
    exact valueGetConst_ok hcls htype hcode _
  obtain ⟨rc, hrc⟩ := hconst
  have hoperand : constantOperand iv (extendedConst u.iu (extOf (.icmp p)) iv) (cmpImmediate rn)
      = .ok (cmpImmediate rn rc) := by
    rw [constantOperand, hcls, hrc]
    rfl
  unfold jitEmitCmp
  rw [bind_run hload, lift_bind_run hiv, lift_bind_run hoperand]
  cases cmpImmediate rn rc with
  | some w => exact ⟨_, rfl⟩
  | none =>
    obtain ⟨rm, is', hrun⟩ := jitLoadvalueCond_ok rTmpb armCondAl hrhs loaded
    unfold jitOperate
    rw [bind_run ((bind_run hrun).trans rfl)]
    exact ⟨_, rfl⟩

end

/-! ## The registers of values -/

section
variable {u : JitUnit} {vt : ValueType} {mr reg rn : Reg} {cond : BitVec 32} {ext : Ext}
  {is is' : List Item}

theorem pure_reg (h : (pure reg : Emit Reg).run is = .ok (rn, is')) : rn = reg ∧ is' = is := by
  injection h with h
  injection h with hrn his
  exact ⟨hrn.symm, his.symm⟩

theorem jitLoadMachinereg_reg {code : TypeCode}
    (h : (jitLoadMachinereg mr reg code cond ext).run is = .ok (rn, is')) :
    rn = reg ∨ rn = mr := by
  unfold jitLoadMachinereg at h
  split at h
  all_goals first
    | exact .inr (pure_reg h).1
    | obtain ⟨_, _, _, h⟩ := bind_ok h
      exact .inl (pure_reg h).1

theorem jitLoadvalueCond_reg (h : (jitLoadvalueCond u vt reg cond ext).run is = .ok (rn, is')) :
    rn = reg ∨ ∃ k : Fin jitMachineRegs, rn = armMachinereg k := by
  unfold jitLoadvalueCond at h
  obtain ⟨iv, _, _, h⟩ := bind_ok h
  obtain ⟨it, _, _, h⟩ := bind_ok h
  split at h
  · exact (jitLoadMachinereg_reg h).imp id fun hrn => ⟨_, hrn⟩
  · obtain ⟨_, _, _, h⟩ := bind_ok h
    exact .inl (pure_reg h).1
  · obtain ⟨_, _, _, h⟩ := bind_ok h
    obtain ⟨_, _, _, h⟩ := bind_ok h
    exact .inl (pure_reg h).1
  · obtain ⟨_, _, _, h⟩ := bind_ok h
    obtain ⟨_, _, _, h⟩ := bind_ok h
    exact .inl (pure_reg h).1
  · obtain ⟨_, _, _, h⟩ := bind_ok h
    exact .inl (pure_reg h).1
  · exact absurd h (by simp [throw, throwThe, MonadExceptOf.throw, StateT.run, StateT.lift])

theorem armMachinereg_ne (k : Fin jitMachineRegs) :
    armMachinereg k ≠ 15 ∧ armMachinereg k ≠ rTmpb := by
  revert k
  decide

theorem loaded_reg (h : (jitLoadvalueCond u vt rTmpa cond ext).run is = .ok (rn, is')) :
    rn ≠ 15 ∧ rn ≠ rTmpb := by
  rcases jitLoadvalueCond_reg h with hrn | ⟨k, hrn⟩
  · rw [hrn]
    decide
  · rw [hrn]
    exact armMachinereg_ne k

theorem jitLoadvalueCond_const {iv : Value} {x : BitVec 64}
    (hiv : valueGet u.iu vt.value = .ok iv) (hcls : iv.cls = .constant x)
    (h : (jitLoadvalueCond u vt reg cond ext).run is = .ok (rn, is')) :
    ∃ imm, extendedConst u.iu ext iv = .ok imm ∧ rn = reg ∧
      is' = is ++ [loadimmItem u imm reg cond] := by
  unfold jitLoadvalueCond at h
  obtain ⟨iv', hiv', h⟩ := lift_bind_ok h
  obtain ⟨it, _, h⟩ := lift_bind_ok h
  rw [hiv] at hiv'
  injection hiv' with hsame
  rw [← hsame, hcls] at h
  obtain ⟨imm, hconst, h⟩ := lift_bind_ok h
  obtain ⟨_, _, hload, h⟩ := bind_ok h
  rw [jitLoadimmCond_run] at hload
  injection hload with hload
  injection hload with _ hload
  obtain ⟨hrn, hlast⟩ := pure_reg h
  refine ⟨imm, hconst, hrn, ?_⟩
  rw [hlast, ← hload]

end

/-! ## What the generator appends -/

theorem jitEmitCmp_runs {u : JitUnit} {lhs rhs : ValueType} {p : IcmpPred} {iv : Value}
    {x : BitVec 64} {before mid : List Item}
    (hiv : valueGet u.iu rhs.value = .ok iv) (hcls : iv.cls = .constant x)
    (hrun : (jitEmitCmp u lhs rhs (.icmp p)).run before = .ok ((), mid)) :
    ∃ rn loaded rc,
      (jitLoadvalueCond u lhs rTmpa armCondAl (extOf (.icmp p))).run before = .ok (rn, loaded) ∧
      extendedConst u.iu (extOf (.icmp p)) iv = .ok rc ∧
      ∀ {after : List Item} {start : ℕ} {code : List (BitVec 32)},
        CodeOf (mid ++ after) start code → ∀ s : Cpu, s.pc = start + (loaded.flatMap wordsOf).length →
        ∃ k s', steps code k s = some s' ∧ s'.pc = start + (mid.flatMap wordsOf).length ∧
          Compared s s' rn rc := by
  unfold jitEmitCmp at hrun
  obtain ⟨rn, loaded, hlhs, hrun⟩ := bind_ok hrun
  obtain ⟨hrn15, hrnb⟩ := loaded_reg hlhs
  obtain ⟨iv', hiv', hrun⟩ := lift_bind_ok hrun
  rw [hiv] at hiv'
  injection hiv' with hsame
  obtain ⟨immediate, hoperand, hrun⟩ := lift_bind_ok hrun
  rw [← hsame] at hoperand
  unfold constantOperand at hoperand
  rw [hcls] at hoperand
  cases hconst : extendedConst u.iu (extOf (.icmp p)) iv with
  | error e =>
    rw [hconst] at hoperand
    exact absurd hoperand (by simp [Functor.map, Except.map])
  | ok rc =>
    rw [hconst] at hoperand
    injection hoperand with hoperand
    refine ⟨rn, loaded, rc, hlhs, rfl, ?_⟩
    intro after start code hcode s hpc
    cases immediate with
    | some w =>
      injection hrun with hrun
      injection hrun with _ hmid
      rw [← hmid, List.append_assoc] at hcode
      have hstep := cmpImmediate_step hrn15 hoperand hcode s hpc
      refine ⟨1, _, steps_one hstep, ?_, ?_⟩
      · rw [← hmid, ← next_pc rfl]
        exact congrArg (· + 1) hpc
      · apply compared_of_flags rfl
        intro r hr
        rfl
    | none =>
      obtain ⟨opcode, is₃, hregister, hrun⟩ := bind_ok hrun
      obtain ⟨rm, is₄, hload, hregister⟩ := bind_ok hregister
      obtain ⟨imm, himm', hrm, hitems⟩ := jitLoadvalueCond_const hiv hcls hload
      rw [hconst] at himm'
      injection himm' with himm'
      injection hregister with hregister
      injection hregister with hopcode hsame'
      injection hrun with hrun
      injection hrun with _ hmid
      have hall : loaded ++ [loadimmItem u rc rTmpb armCondAl] ++
          [.push (cmpRegister rn rTmpb ||| armCondAl)] = mid := by
        rw [← hmid, ← hsame', hitems, ← hopcode, hrm, ← himm']
      exact cmpRegister_runs hrn15 hrnb hall hcode s hpc

/-- Every encoding that `make_imm12` finds is expanded to the number. -/
def FieldsExact : Prop :=
  ∀ v : BitVec 32, makeImm12 v ≠ -1 →
    (makeImm12 v).toNat < 2 ^ 12 ∧ expandImm ((makeImm12 v).setWidth 12) = v

/-- `jit_loadimm_cond` appends one word, which loads its constant where its condition passes, in the
code of any items around it. -/
def LoadsExact : Prop :=
  ∀ (u : JitUnit) (imm : BitVec 32) (rd : Reg) (c : BitVec 4), rd ≠ 15 → c ≠ 15 →
    ∀ before : List Item, ∃ mid, (jitLoadimmCond u imm rd (condBits c)).run before = .ok ((), mid) ∧
      wordsIn mid = wordsIn before + 1 ∧
      ∀ after, after ≠ [] → ∀ start code, CodeOf (mid ++ after) start code →
        ∀ s : Cpu, s.pc = start + wordsIn before →
          step code s = some (if conditionPassed c s.flags then s.set rd imm else s.skip)

/-- What `jit_push_add_imm` appends adds its constant. -/
def AddsExact : Prop :=
  ∀ (u : JitUnit) (rd rn tmpreg : Reg) (imm : BitVec 32),
    rd ≠ 15 → rn ≠ 15 → tmpreg ≠ 15 → tmpreg ≠ rn →
    ∀ before : List Item, ∃ mid, (jitPushAddImm u rd rn imm tmpreg).run before = .ok ((), mid) ∧
      ∀ after start code, CodeOf (mid ++ after) start code →
        ∀ s : Cpu, s.pc = start + wordsIn before →
          ∃ k s', steps code k s = some s' ∧ s'.pc = start + wordsIn mid ∧
            Added s s' rd rn tmpreg imm

/-- What `jit_emit_cmp` appends behind the load of its first operand sets the flags so that each
condition decides its predicate between that operand and the constant. -/
def ComparesExact : Prop :=
  ∀ (u : JitUnit) (lhs rhs : ValueType) (p : IcmpPred) (iv : Value) (x : BitVec 64),
    Loadable u lhs (extOf (.icmp p)) → Loadable u rhs (extOf (.icmp p)) →
    valueGet u.iu rhs.value = .ok iv → iv.cls = .constant x →
    ∀ before : List Item, ∃ mid rn loaded rc,
      (jitEmitCmp u lhs rhs (.icmp p)).run before = .ok ((), mid) ∧
      (jitLoadvalueCond u lhs rTmpa armCondAl (extOf (.icmp p))).run before = .ok (rn, loaded) ∧
      extendedConst u.iu (extOf (.icmp p)) iv = .ok rc ∧
      ∀ after start code, CodeOf (mid ++ after) start code →
        ∀ s : Cpu, s.pc = start + wordsIn loaded →
          ∃ k s', steps code k s = some s' ∧ s'.pc = start + wordsIn mid ∧
            Compared s s' rn rc

/-- Items become code wherever the pool is short enough and the buffer has room for them. -/
def CodesExist : Prop :=
  ∀ (start : ℕ) (items : List Item), Short start items →
    Reached (start + wordsIn items + (literals items).length) → ∃ code, CodeOf items start code

theorem immediates_exact :
    FieldsExact ∧ LoadsExact ∧ AddsExact ∧ ComparesExact ∧ CodesExist := by
  refine ⟨?_, ?_, ?_, ?_, fun _ _ => codeOf_exists⟩
  · intro v hv
    obtain ⟨f, hf, hexp⟩ := makeImm12_field hv
    have hback : (makeImm12 v).setWidth 12 = f := by
      rw [hf]
      apply BitVec.eq_of_toNat_eq
      rw [BitVec.toNat_setWidth, BitVec.toNat_setWidth]
      have hlt := f.isLt
      omega
    constructor
    · rw [hf, BitVec.toNat_setWidth]
      have hlt := f.isLt
      omega
    · rw [hback, hexp]
  · intro u imm rd c hrd hc before
    refine ⟨_, jitLoadimmCond_run u imm rd (condBits c) before, ?_, ?_⟩
    · rw [wordsIn_append]
      unfold wordsIn
      rw [List.flatMap_singleton, loadimmItem_words]
    · intro after hafter start code hcode s hpc
      rw [List.append_assoc] at hcode
      exact loadimm_step hrd hc hafter hcode s hpc
  · intro u rd rn tmpreg imm hrd hrn htmp hne before
    obtain ⟨mid, hrun⟩ := jitPushAddImm_run u rd rn tmpreg imm before
    refine ⟨mid, hrun, ?_⟩
    intro after start code hcode s hpc
    exact addImm_runs hrd hrn htmp hne hrun hcode s hpc
  · intro u lhs rhs p iv x hlhs hrhs hiv hcls before
    obtain ⟨mid, hrun⟩ := jitEmitCmp_ok hlhs hrhs hiv hcls before
    obtain ⟨rn, loaded, rc, hload, hrc, hcmp⟩ := jitEmitCmp_runs hiv hcls hrun
    exact ⟨mid, rn, loaded, rc, hrun, hload, hrc, fun _ _ _ hcode => hcmp hcode⟩

/-- A word in a machine register, and a constant without an immediate. -/
def cmpUnit : JitUnit where
  iu := ⟨[.int32], [⟨.machinereg, 0⟩, ⟨.constant 0x12345678, 0⟩], fun _ => 0⟩
  ivReg _ := ⟨0, Nat.zero_lt_succ _⟩
  jitCpuflags := 0

def reset : Cpu := ⟨fun _ => 0, ⟨false, false, false, false⟩, 0⟩

/-- The constant is loaded in front of a return, and compared with the register. -/
theorem immediates_exact_literal :
    step [0xe59f4000, 0xe12fff1e, 0x12345678] reset = some (reset.set 4 0x12345678) ∧
    ∃ mid rn rc, (jitEmitCmp cmpUnit ⟨0, 0⟩ ⟨1, 0⟩ (.icmp .slt)).run [] = .ok ((), mid) ∧
      ∀ after code, CodeOf (mid ++ after) 0 code →
        ∃ k s', steps code k reset = some s' ∧ Compared reset s' rn rc := by
  constructor
  · obtain ⟨mid, hrun, -, hstep⟩ :=
      immediates_exact.2.1 cmpUnit 0x12345678 4 14 (by decide) (by decide) []
    have hitem : loadimmItem cmpUnit 0x12345678 4 (condBits 14)
        = .literal 0x12345678 4 false (condBits 14) := by decide +kernel
    rw [jitLoadimmCond_run, hitem] at hrun
    have hmid := (Prod.mk.inj (Except.ok.inj hrun)).2
    have hcode : CodeOf [.literal 0x12345678 4 false (condBits 14), .push 0xe12fff1e] 0
        [0xe59f4000, 0xe12fff1e, 0x12345678] := by
      refine ⟨⟨[], [], []⟩, ⟨[0xe59f4000, 0xe12fff1e], [⟨0x12345678, 0, false⟩], []⟩,
        ⟨[0xe59f4000, 0xe12fff1e, 0x12345678], [], []⟩, rfl, rfl, ?_, ?_, List.prefix_refl _⟩
      · decide +kernel
      · decide +kernel
    rw [← hmid] at hstep
    exact hstep [.push 0xe12fff1e] (by simp) 0 _ hcode reset rfl
  · have hregister : Loadable cmpUnit ⟨0, 0⟩ .signed := ⟨_, _, rfl, rfl, trivial⟩
    have hconstant : Loadable cmpUnit ⟨1, 0⟩ .signed := ⟨_, _, rfl, rfl, _, rfl, trivial⟩
    obtain ⟨mid, rn, loaded, rc, hrun, hload, -, hcmp⟩ := immediates_exact.2.2.2.1 cmpUnit ⟨0, 0⟩
      ⟨1, 0⟩ .slt _ _ hregister hconstant rfl rfl []
    -- an `i32` stays in its machine register
    have hregister' : (jitLoadvalueCond cmpUnit ⟨0, 0⟩ rTmpa armCondAl (extOf (.icmp .slt))).run []
        = .ok (armMachinereg 0, []) := rfl
    have hloaded := (Prod.mk.inj (Except.ok.inj (hregister'.symm.trans hload))).2
    have hstart : reset.pc = 0 + wordsIn loaded := by
      rw [← hloaded]
      rfl
    refine ⟨mid, rn, rc, hrun, fun after code hcode => ?_⟩
    obtain ⟨k, s', hsteps, -, hcompared⟩ := hcmp after 0 code hcode reset hstart
    exact ⟨k, s', hsteps, hcompared⟩

end Vmir.ArmImmediates
