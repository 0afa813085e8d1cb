import Vmir.EmitCmp
import Vmir.IntegerRegisters

set_option autoImplicit false

/-!
# What an emitted compare decides

The code of a compare writes the truth value of `icmp` or `fcmp` on the contents of its operands.
-/
namespace Vmir.CmpRuns
open ByteStore RegisterProgram Ir VmOps IrTypes ProgramText IntegerRegisters EmitCmp

def boolFrame (f : Bytes) (d : BitVec 32) (b : Bool) : Bytes :=
  writeSlot 1 f d ((ofBool b).setWidth 64)

theorem lowBits_boolFrame (f : Bytes) (d : BitVec 32) (b : Bool) :
    lowBits 32 (boolFrame f d b) d = ofBool b := by
  change (content (write32 f (frameOffset d) _) d).setWidth 32 = _
  rw [content_setWidth, read32_write32_same, BitVec.setWidth_setWidth_of_le _ (by omega),
    BitVec.setWidth_eq]

section
variable {h : Host} {t : Text} {s : Bytes × Vm} {o : Op} {d : BitVec 32} (l r : BitVec 32)

theorem yields_compare {b : Bool} {args : List (BitVec 16)} (cells : List Cell)
    (hcells : cells = [] ∨ ∃ odd, cells = padding t odd) (hlen : args.length = skip o)
    (hexec : exec (body h o (operands args)) s.1 s.2
      = some (write32 s.1 (frameOffset d) (ofBool b), s.2)) :
    Yields h t (emit t (cells ++ code o args)) s (some (boolFrame s.1 d b)) := by
  have hcode : (code o args).length = skip o + 1 := by
    rw [code, List.length_cons, List.length_map, hlen]
  have hskip := skip_le o
  have hres : boolFrame s.1 d b = write32 s.1 (frameOffset d) (ofBool b) := by
    change write32 _ _ _ = _
    rw [BitVec.setWidth_setWidth_of_le _ (by omega), BitVec.setWidth_eq]
  rcases hcells with rfl | ⟨odd, rfl⟩
  · refine yields_of_runs (by rw [List.nil_append, hcode]; omega) fun s' => ?_
    rw [List.nil_append, runs_code_iff h t hlen, hexec, hres, Option.map_some]
  · have hpad : (padding t odd).length ≤ 1 := by
      unfold padding
      split <;> simp [code]
    refine yields_of_runs (by rw [List.length_append, hcode]; omega) fun s' => ?_
    rw [runs_padding_code_iff h t odd hlen, hexec, hres, Option.map_some]

theorem regs_compare32 {g : BitVec 32 → BitVec 32 → Bool} (hskip : skip o = 3)
    (hbody : ∀ I, body h o I = set32Of32And32 I fun x y => ofBool (g x y)) :
    Yields h t (emitOp3 t o d l r) s (some (boolFrame s.1 d
      (g (lowBits 32 s.1 l) (lowBits 32 s.1 r)))) := by
  rw [emitOp3_eq, lowBits, lowBits, content_setWidth, content_setWidth]
  refine yields_compare [] (Or.inl rfl) (by rw [hskip]; rfl) ?_
  rw [hbody]
  rfl

theorem regs_compare64 {g : BitVec 64 → BitVec 64 → Bool} (hskip : skip o = 3)
    (hbody : ∀ I, body h o I = set32Of64And64 I fun x y => ofBool (g x y)) :
    Yields h t (emitOp3 t o d l r) s (some (boolFrame s.1 d
      (g (content s.1 l) (content s.1 r)))) := by
  rw [emitOp3_eq]
  refine yields_compare [] (Or.inl rfl) (by rw [hskip]; rfl) ?_
  rw [hbody]
  rfl

theorem const_compare32 {g : BitVec 32 → Units → Bool} (us : List (BitVec 16))
    (hskip : skip o = 2 + us.length)
    (hbody : ∀ I, body h o I = set32Of32 I fun x => ofBool (g x I)) :
    Yields h t (emitOp2 t o d l >>= fun t => emit t (us.map .half)) s (some (boolFrame s.1 d
      (g (lowBits 32 s.1 l) (operands ([d.setWidth 16, l.setWidth 16] ++ us))))) := by
  rw [emitOp2_eq, emit_units, lowBits, content_setWidth]
  refine yields_compare [] (Or.inl rfl) (by rw [hskip, List.length_append]; rfl) ?_
  rw [hbody]
  rfl

/-- The same behind the padding of `vm_align32`. -/
theorem padded_compare32 {g : BitVec 32 → Units → Bool} (us : List (BitVec 16)) (odd : Bool)
    (hskip : skip o = 2 + us.length)
    (hbody : ∀ I, body h o I = set32Of32 I fun x => ofBool (g x I)) :
    Yields h t (vmAlign32 t odd >>= fun t => emitOp2 t o d l >>= fun t => emit t (us.map .half)) s
      (some (boolFrame s.1 d
        (g (lowBits 32 s.1 l) (operands ([d.setWidth 16, l.setWidth 16] ++ us))))) := by
  have hemit (t : Text) : (emitOp2 t o d l >>= fun t => emit t (us.map .half))
      = emit t (code o ([d.setWidth 16, l.setWidth 16] ++ us)) := by
    rw [emitOp2_eq]
    exact emit_units t _ _ _
  simp only [hemit]
  rw [vmAlign32_bind, lowBits, content_setWidth]
  refine yields_compare _ (Or.inr ⟨odd, rfl⟩) (by rw [hskip, List.length_append]; rfl) ?_
  rw [hbody]
  rfl

theorem padded_compare64 {g : BitVec 64 → Units → Bool} (us : List (BitVec 16)) (odd : Bool)
    (hskip : skip o = 2 + us.length)
    (hbody : ∀ I, body h o I = set32Of64 I fun x => ofBool (g x I)) :
    Yields h t (vmAlign32 t odd >>= fun t => emitOp2 t o d l >>= fun t => emit t (us.map .half)) s
      (some (boolFrame s.1 d
        (g (content s.1 l) (operands ([d.setWidth 16, l.setWidth 16] ++ us))))) := by
  have hemit (t : Text) : (emitOp2 t o d l >>= fun t => emit t (us.map .half))
      = emit t (code o ([d.setWidth 16, l.setWidth 16] ++ us)) := by
    rw [emitOp2_eq]
    exact emit_units t _ _ _
  simp only [hemit]
  rw [vmAlign32_bind]
  refine yields_compare _ (Or.inr ⟨odd, rfl⟩) (by rw [hskip, List.length_append]; rfl) ?_
  rw [hbody]
  rfl

theorem const_compare8 (iu : IrUnit) {p : IcmpPred} (u : BitVec 8) :
    Yields h t (emitOp2 t (.cmp8C p) d l >>= fun t => emitI8 iu t u) s (some (boolFrame s.1 d
      (icmp p ((lowBits 32 s.1 l).setWidth 8) u))) := by
  rw [emitOp2_eq, emit_unit8, ← emitOp2_eq]
  generalize iu.textAlloc _ = hi
  have hbyte : (hi ++ u).setWidth 8 = u := BitVec.setWidth_append_eq_right
  have hrun := const_compare32 (h := h) (t := t) (s := s) (o := .cmp8C p) (d := d) l
    (g := fun x I => icmp p (x.setWidth 8) ((I 2).setWidth 8)) [hi ++ u] rfl (fun _ => rfl)
  change Yields h t _ s (some (boolFrame s.1 d
    (icmp p ((lowBits 32 s.1 l).setWidth 8) ((hi ++ u).setWidth 8)))) at hrun
  rw [hbyte] at hrun
  exact hrun

end
end Vmir.CmpRuns
