import Vmir.Abbrevs

set_option autoImplicit false

/-!
# The encoding of records

Abbreviation definitions as LLVM writes them, the fields of a definition, and the fields of a record
with and without an abbreviation.
-/
namespace Vmir.AbbrevEncoding
open BitSlices BitReader BitReads FieldReads Vbr Abbrevs Ir

inductive Scalar
  | literal (v : BitVec 64)
  | fixed (w : ℕ) (h : w ≤ 32)
  | vbr (w : ℕ) (h : 0 < w ∧ w ≤ 32)

inductive Element
  | fixed (w : ℕ) (h : w ≤ 32)
  | vbr (w : ℕ) (h : 0 < w ∧ w ≤ 32)
  | char6

structure Definition where
  scalars : List Scalar
  array : Option Element

/-! ## Definitions -/

def Scalar.fields : Scalar → List Field
  | .literal v => ⟨1, 1⟩ :: vbrFields 8 v.toNat
  | .fixed w _ => ⟨1, 0⟩ :: ⟨3, 1⟩ :: vbrFields 5 w
  | .vbr w _ => ⟨1, 0⟩ :: ⟨3, 2⟩ :: vbrFields 5 w

def Element.fields : Element → List Field
  | .fixed w _ => ⟨1, 0⟩ :: ⟨3, 1⟩ :: vbrFields 5 w
  | .vbr w _ => ⟨1, 0⟩ :: ⟨3, 2⟩ :: vbrFields 5 w
  | .char6 => [⟨1, 0⟩, ⟨3, 4⟩]

/-- An array is an operand of its own, with the elements' behind it. -/
def arrayFields : Option Element → List Field
  | none => []
  | some e => ⟨1, 0⟩ :: ⟨3, 3⟩ :: e.fields

def arrayCount : Option Element → ℕ
  | none => 0
  | some _ => 2

def Definition.count (d : Definition) : ℕ := d.scalars.length + arrayCount d.array

def Definition.fields (d : Definition) : List Field :=
  vbrFields 5 d.count ++ (d.scalars.flatMap Scalar.fields ++ arrayFields d.array)

def Scalar.operand : Scalar → IrAbbrevOperand
  | .literal v => ⟨.litteral, v.setWidth 32⟩
  | .fixed w _ => ⟨.fixedWidth, BitVec.ofNat 32 w⟩
  | .vbr w _ => ⟨.vbr, BitVec.ofNat 32 w⟩

def Element.operand : Element → IrAbbrevOperand
  | .fixed w _ => ⟨.fixedWidth, BitVec.ofNat 32 w⟩
  | .vbr w _ => ⟨.vbr, BitVec.ofNat 32 w⟩
  | .char6 => ⟨.char6, 0⟩

def arrayOperands : Option Element → IrAbbrev
  | none => []
  | some e => [⟨.array, 0⟩, e.operand]

def Definition.operands (d : Definition) : IrAbbrev :=
  d.scalars.map Scalar.operand ++ arrayOperands d.array

/-! ## Records -/

def Scalar.valueFields (s : Scalar) (x : BitVec 64) : List Field :=
  match s with
  | .literal _ => []
  | .fixed w _ => [⟨w, x.toNat⟩]
  | .vbr w _ => vbrFields w x.toNat

def Element.valueFields (e : Element) (x : BitVec 64) : List Field :=
  match e with
  | .fixed w _ => [⟨w, x.toNat⟩]
  | .vbr w _ => vbrFields w x.toNat
  | .char6 => [⟨6, char6Table.idxOf x⟩]

/-- The values of a record, code first, under the operands of a definition. -/
def valuesFields : List Scalar → Option Element → List (BitVec 64) → List Field
  | [], none, _ => []
  | [], some e, xs => vbrFields 6 xs.length ++ xs.flatMap e.valueFields
  | s :: ss, e, x :: xs => s.valueFields x ++ valuesFields ss e xs
  | _ :: _, _, [] => []

def unabbrevFields (code : BitVec 32) (ops : List (BitVec 64)) : List Field :=
  vbrFields 6 code.toNat
    ++ (vbrFields 6 ops.length ++ ops.flatMap fun x => vbrFields 6 x.toNat)

def Scalar.Expresses (s : Scalar) (x : BitVec 64) : Prop :=
  match s with
  | .literal v => x = v
  | .fixed w _ => x.toNat < 2 ^ w
  | .vbr w _ => w = 1 → x.toNat = 0

def Element.Expresses (e : Element) (x : BitVec 64) : Prop :=
  match e with
  | .fixed w _ => x.toNat < 2 ^ w
  | .vbr w _ => w = 1 → x.toNat = 0
  | .char6 => x ∈ char6Table

/-- The values can be written under the operands. -/
def Expresses : List Scalar → Option Element → List (BitVec 64) → Prop
  | [], none, xs => xs = []
  | [], some e, xs => ∀ x ∈ xs, e.Expresses x
  | s :: ss, e, x :: xs => s.Expresses x ∧ Expresses ss e xs
  | _ :: _, _, [] => False

/-- Literals and the elements of the array have 32 bits, and an `int` counts the elements. -/
def Narrow : List Scalar → Option Element → List (BitVec 64) → Prop
  | [], none, _ => True
  | [], some _, xs => xs.length < 2 ^ 31 ∧ ∀ x ∈ xs, x.toNat < 2 ^ 32
  | .literal _ :: ss, e, x :: xs => x.toNat < 2 ^ 32 ∧ Narrow ss e xs
  | _ :: ss, e, _ :: xs => Narrow ss e xs
  | _ :: _, _, [] => True

/-! ## A definition is read -/

variable {rdata : List (BitVec 8)}

theorem vbrFits_of_pos {width v : ℕ} (h : 1 < width) (hle : width ≤ 32) : VbrFits width v :=
  ⟨by omega, hle, by omega⟩

theorem vbrFits_five {w : ℕ} : VbrFits 5 w := vbrFits_of_pos (by omega) (by omega)

theorem stays_typed (rest type : ℕ) : Stays rdata (readTyped rdata rest type) := by
  unfold readTyped
  split
  · exact (stays_readVbrOf 32 5).thenPure _
  · exact (stays_readVbrOf 32 5).thenPure _
  · exact (Stays.pure _).ite (Stays.throw _)
  · exact Stays.pure _
  · exact (Stays.pure _).ite (Stays.throw _)
  · exact Stays.throw _

theorem stays_operand (rest : ℕ) : Stays rdata (readOperand rdata rest) :=
  (stays_bits 1).bind fun _ =>
    ((stays_readVbrOf 32 8).thenPure _).ite ((stays_bits 3).bind fun _ => stays_typed rest _)

theorem stays_operands (n : ℕ) : Stays rdata (readOperands rdata n) := by
  induction n with
  | zero => exact Stays.pure []
  | succ n ih => exact (stays_operand n).bind fun op => ih.thenPure (op :: ·)

theorem reads_litteral (rest : ℕ) (v : BitVec 64) :
    Reads rdata (readOperand rdata rest) (Scalar.literal v).fields (Scalar.literal v).operand := by
  refine Reads.head (reads_bits (by omega) 1) ?_ fun _ =>
    ((stays_readVbrOf 32 8).thenPure _).ite ((stays_bits 3).bind fun _ => stays_typed rest _)
  rw [if_pos (by decide)]
  exact (reads_readVbrOf 32 (vbrFits_of_pos (by omega) (by omega))).thenPure _

theorem reads_typed (rest : ℕ) {type : ℕ} (htype : type < 8) {fs : List Field}
    {op : IrAbbrevOperand} (h : Reads rdata (readTyped rdata rest type) fs op) :
    Reads rdata (readOperand rdata rest) (⟨1, 0⟩ :: ⟨3, type⟩ :: fs) op := by
  refine Reads.head (reads_bits (by omega) 0) ?_ fun _ =>
    ((stays_readVbrOf 32 8).thenPure _).ite ((stays_bits 3).bind fun _ => stays_typed rest _)
  rw [if_neg (by decide)]
  refine Reads.head (reads_bits (by omega) type) ?_ fun _ => stays_typed rest _
  rwa [BitVec.toNat_ofNat, Nat.mod_eq_of_lt (by omega)]

theorem reads_fixedWidth (rest w : ℕ) :
    Reads rdata (readOperand rdata rest) (⟨1, 0⟩ :: ⟨3, 1⟩ :: vbrFields 5 w)
      ⟨.fixedWidth, BitVec.ofNat 32 w⟩ :=
  reads_typed rest (by omega)
    ((reads_readVbrOf 32 vbrFits_five).thenPure (IrAbbrevOperand.mk .fixedWidth))

theorem reads_vbr (rest w : ℕ) :
    Reads rdata (readOperand rdata rest) (⟨1, 0⟩ :: ⟨3, 2⟩ :: vbrFields 5 w)
      ⟨.vbr, BitVec.ofNat 32 w⟩ :=
  reads_typed rest (by omega) ((reads_readVbrOf 32 vbrFits_five).thenPure (IrAbbrevOperand.mk .vbr))

theorem reads_scalar (rest : ℕ) (s : Scalar) :
    Reads rdata (readOperand rdata rest) s.fields s.operand := by
  cases s with
  | literal v => exact reads_litteral rest v
  | fixed w h => exact reads_fixedWidth rest w
  | vbr w h => exact reads_vbr rest w

theorem reads_element (rest : ℕ) (e : Element) :
    Reads rdata (readOperand rdata rest) e.fields e.operand := by
  cases e with
  | fixed w h => exact reads_fixedWidth rest w
  | vbr w h => exact reads_vbr rest w
  | char6 => exact reads_typed rest (by omega) (Reads.pure _)

theorem reads_array (e : Option Element) :
    Reads rdata (readOperands rdata (arrayCount e)) (arrayFields e) (arrayOperands e) := by
  cases e with
  | none => exact Reads.pure []
  | some e =>
    have hlast : Reads rdata (readOperands rdata 1) (e.fields ++ []) [e.operand] :=
      (reads_element 0 e).bind ((Reads.pure []).thenPure (e.operand :: ·)) fun op =>
        (stays_operands 0).thenPure (op :: ·)
    rw [List.append_nil] at hlast
    exact (@reads_typed rdata 1 3 (by omega) [] _ (Reads.pure (IrAbbrevOperand.mk .array 0))).bind
      (hlast.thenPure (IrAbbrevOperand.mk .array 0 :: ·)) fun op =>
        (stays_operands 1).thenPure (op :: ·)

theorem reads_operands (ss : List Scalar) (e : Option Element) :
    Reads rdata (readOperands rdata (ss.length + arrayCount e))
      (ss.flatMap Scalar.fields ++ arrayFields e) (ss.map Scalar.operand ++ arrayOperands e) := by
  induction ss with
  | nil =>
    rw [List.length_nil, Nat.zero_add]
    exact reads_array e
  | cons s ss ih =>
    rw [List.length_cons, Nat.add_right_comm, List.flatMap_cons, List.append_assoc]
    exact (reads_scalar _ s).bind (ih.thenPure (s.operand :: ·)) fun op =>
      (stays_operands _).thenPure (op :: ·)

theorem stays_checkCount (n : BitVec 32) : Stays rdata (fun bs => checkCount n bs) :=
  (Stays.throw _).ite (Stays.pure _)

theorem reads_definition (d : Definition) (hcount : d.count < 2 ^ 32) :
    Reads rdata (readAbbrev rdata) d.fields d.operands := by
  refine (reads_readVbrOf 32 vbrFits_five).bind ?_ fun n =>
    (stays_checkCount n).bind fun n => stays_operands n
  unfold checkCount
  rw [BitVec.toNat_ofNat, Nat.mod_eq_of_lt hcount]
  split
  · exact Reads.throw _ _ _
  · exact reads_operands d.scalars d.array

end Vmir.AbbrevEncoding
