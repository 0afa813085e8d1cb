import Vmir.MeasuredRuns
import Vmir.ReadProgress

set_option autoImplicit false

/-!
# The block parser terminates

Outside of a jump the bits that are left pay for the turns of the loops. A jump gives up none of the
bits behind the function block it is made for, so it is paid for once, as long as no other jump is
made before it is over.
-/
namespace Vmir.ParserTermination
open BitReader FieldReads Vbr Abbrevs Ir CodePieces MeasuredRuns BlockParser ReadProgress

variable {υ : Type} {H : Handlers υ} {rdata : List (BitVec 8)} {s s' : State υ}

/-! ## Runs -/

def next (H : Handlers υ) (rdata : List (BitVec 8)) (s : State υ) : Option (State υ) :=
  match s.calls, s.jumps with
  | [], [] => none
  | _, _ => (step H rdata s).toOption

/-- The number of calls of `ir_parse_blocks` that have not returned. -/
def depth (s : State υ) : ℕ := s.calls.length + (s.jumps.map fun j => j.calls.length).sum

/-- A jump is not made during a jump, nor to a place in front of the data; an abbreviation is
defined in some block, and a record is met where it has a handler. -/
def Allowed (s : State υ) (call : Call) : Entry → Prop
  | .endBlock => True
  | .enterSubblock blockid _ => blockid = bitcodeFunction → s.parser.vstoffset ≠ 0 →
      s.jumps = [] ∧ (vstPosition s.parser).msb = false
  | .defineAbbrev _ => s.parser.blocks ≠ []
  | .record _ => call.block ≠ none

/-- What the next turn reads is allowed. It is not an abbreviation that is looked up without a
block info, or that has no operand for the code of its record. -/
def Careful (rdata : List (BitVec 8)) (s : State υ) : Prop :=
  ∀ call ∈ s.calls.head?, readEntry rdata s.parser call s.bs ≠ .error .nullDeref
    ∧ ∀ entry bs, readEntry rdata s.parser call s.bs = .ok (entry, bs) → Allowed s call entry

/-! ## What a step does -/

def openBlocks (calls : List Call) : ℕ := calls.countP fun c => c.block.isSome

/-- What a step does to the calls, the stream and the blocks. -/
inductive Moves (rdata : List (BitVec 8)) (s : State υ) : State υ → Prop
  | endBlock {call : Call} {calls : List Call} {p : Parser υ} {bs : BcBitStream}
      (hcalls : s.calls = call :: calls) (hbs : left rdata bs ≤ left rdata s.bs)
      (hblocks : s.parser.blocks.length ≤ p.blocks.length + openBlocks [call]) :
      Moves rdata s ⟨p, bs, calls, s.jumps⟩
  | stay {p : Parser υ} {bs : BcBitStream} (hbs : left rdata bs < left rdata s.bs)
      (hblocks : p.blocks.length = s.parser.blocks.length) :
      Moves rdata s ⟨p, bs, s.calls, s.jumps⟩
  | enter {p : Parser υ} {bs : BcBitStream} {c : Call} (hbs : left rdata bs < left rdata s.bs)
      (hblocks : p.blocks.length = s.parser.blocks.length + 1) :
      Moves rdata s ⟨p, bs, c :: s.calls, s.jumps⟩
  | jump {p : Parser υ} {bs : BcBitStream} {c : Call} {j : Jump}
      (hsaved : left rdata j.bs < left rdata s.bs) (hbs : left rdata bs ≤ 8 * rdata.length)
      (hj : j.calls = s.calls) (hc : c.block = none)
      (hblocks : p.blocks.length = s.parser.blocks.length + 1)
      (hfirst : Careful rdata s → s.jumps = []) :
      Moves rdata s ⟨p, bs, [c], j :: s.jumps⟩
  | resume {p : Parser υ} {c : Call} {j : Jump} {jumps : List Jump} (hcalls : s.calls = [])
      (hjumps : s.jumps = j :: jumps) (hblocks : p.blocks.length = s.parser.blocks.length) :
      Moves rdata s ⟨p, j.bs, c :: j.calls, jumps⟩

theorem toOption_ok {ε α : Type} {x : Except ε α} {a : α} (h : x.toOption = some a) : x = .ok a := by
  cases x with
  | error e => cases h
  | ok b => exact congrArg Except.ok (Option.some.inj h)

def opened (s : State υ) : ℕ :=
  openBlocks s.calls + (s.jumps.map fun j => openBlocks j.calls + 1).sum

structure Inv (rdata : List (BitVec 8)) (s : State υ) : Prop where
  jumps : s.jumps.length ≤ 1
  blocks : opened s ≤ s.parser.blocks.length
  depth : s.calls.length + left rdata s.bs ≤ 8 * rdata.length + 1
  saved : ∀ j ∈ s.jumps, j.calls.length + 1 + left rdata j.bs ≤ 8 * rdata.length + 1

theorem openBlocks_cons (c : Call) (calls : List Call) :
    openBlocks (c :: calls) = openBlocks [c] + openBlocks calls := by
  unfold openBlocks
  rw [List.countP_cons, List.countP_singleton, Nat.add_comm]

theorem openBlocks_singleton (c : Call) : openBlocks [c] ≤ 1 := by
  unfold openBlocks
  exact List.countP_le_length

theorem opened_jump {p : Parser υ} {bs : BcBitStream} {calls : List Call} {j : Jump}
    {jumps : List Jump} :
    opened ⟨p, bs, calls, j :: jumps⟩
      = openBlocks calls + (openBlocks j.calls + 1 + (jumps.map fun j => openBlocks j.calls + 1).sum) :=
  rfl

theorem Inv.moves (hI : Inv rdata s) (hc : Careful rdata s) (h : Moves rdata s s') :
    Inv rdata s' := by
  have hblocks := hI.blocks
  have hdepth := hI.depth
  unfold opened at hblocks
  cases h with
  | @endBlock call calls p bs hcalls hbs hp =>
    rw [hcalls, openBlocks_cons] at hblocks
    rw [hcalls, List.length_cons] at hdepth
    refine ⟨hI.jumps, ?_, ?_, hI.saved⟩
    · change openBlocks calls + (s.jumps.map fun j => openBlocks j.calls + 1).sum ≤ p.blocks.length
      omega
    · change calls.length + left rdata bs ≤ _
      omega
  | @stay p bs hbs hp =>
    refine ⟨hI.jumps, ?_, ?_, hI.saved⟩
    · change openBlocks s.calls + (s.jumps.map fun j => openBlocks j.calls + 1).sum ≤ p.blocks.length
      omega
    · change s.calls.length + left rdata bs ≤ _
      omega
  | @enter p bs c hbs hp =>
    refine ⟨hI.jumps, ?_, ?_, hI.saved⟩
    · change openBlocks (c :: s.calls) + (s.jumps.map fun j => openBlocks j.calls + 1).sum ≤ p.blocks.length
      have hone := openBlocks_singleton c
      rw [openBlocks_cons]
      omega
    · change s.calls.length + 1 + left rdata bs ≤ _
      omega
  | @jump p bs c j hsaved hbs hj hnone hp hfirst =>
    have hjumps := hfirst hc
    rw [hjumps] at hblocks ⊢
    refine ⟨le_refl 1, ?_, ?_, ?_⟩
    · have hzero : openBlocks [c] = 0 := by
        unfold openBlocks
        rw [List.countP_singleton, hnone]
        rfl
      rw [opened_jump, hzero, hj]
      change 0 + (openBlocks s.calls + 1 + 0) ≤ p.blocks.length
      change openBlocks s.calls + 0 ≤ _ at hblocks
      omega
    · change 1 + left rdata bs ≤ _
      omega
    · intro j' hj'
      obtain rfl := List.mem_singleton.mp hj'
      rw [hj]
      omega
  | @resume p c j jumps hcalls hjumps hp =>
    have hlen := hI.jumps
    have hsaved := hI.saved j (by rw [hjumps]; exact List.mem_cons_self)
    rw [hcalls, hjumps] at hblocks
    rw [hjumps, List.length_cons] at hlen
    refine ⟨show jumps.length ≤ 1 by omega, ?_, ?_, fun j' hj' => ?_⟩
    · have hone := openBlocks_singleton c
      change 0 + (openBlocks j.calls + 1 + (jumps.map fun j => openBlocks j.calls + 1).sum) ≤ _
        at hblocks
      have hnone : openBlocks [] = 0 := rfl
      change openBlocks (c :: j.calls) + (jumps.map fun j => openBlocks j.calls + 1).sum
        ≤ p.blocks.length
      rw [openBlocks_cons]
      omega
    · change j.calls.length + 1 + left rdata j.bs ≤ _
      omega
    · exact hI.saved j' (by rw [hjumps]; exact List.mem_cons_of_mem _ hj')

def idle : Handlers Unit where
  handle _ _ _ := .ok ()
  nextValue _ := 0
  setFirstFuncValue _ := ()
  prepareFunction _ := .ok ()
  finish _ _ _ := .ok ()
  handle_halts h := nomatch h
  prepareFunction_halts h := nomatch h
  finish_halts h := nomatch h

/-- A module block with the offset 6 of the symbol table and a function block, whose contents are
at that offset. -/
def moduleWith (contents : List (BitVec 8)) : List (BitVec 8) :=
  [0x42, 0x43, 0xc0, 0xde, 0x21, 0x0c, 0, 0, 0, 0, 0, 0, 0x6b, 0x02, 0x23, 0x0c, 0x03, 0, 0, 0,
    0, 0, 0, 0] ++ contents

/-- The contents begin with a further function block. -/
def nestedFunction : List (BitVec 8) := moduleWith [0x61, 0x18, 0, 0, 0, 0, 0, 0]

theorem next_turn {call : Call} {calls : List Call} (entry : Entry) (bs : BcBitStream)
    (hcalls : s.calls = call :: calls) (hread : readEntry rdata s.parser call s.bs = .ok (entry, bs))
    (hturn : turn H { s with bs := bs } call calls entry = .ok s') :
    next H rdata s = some s' := by
  have hstep : step H rdata s = .ok s' := by
    unfold step
    rw [hcalls]
    change (readEntry rdata s.parser call s.bs >>= _) = _
    rw [hread]
    rw [hcalls] at hturn
    exact hturn
  unfold next
  rw [hcalls]
  exact congrArg Except.toOption hstep

/-- In a jump to a function block that begins where the parser jumps to. -/
structure Circling (s : State υ) : Prop where
  vstoffset : s.parser.vstoffset = 6
  bs : s.bs = ⟨24, 0, 0⟩
  calls : s.calls = [⟨3, none, some 12, 0⟩]

theorem Circling.readEntry (h : Circling s) :
    readEntry nestedFunction s.parser ⟨3, none, some 12, 0⟩ s.bs
      = .ok (.enterSubblock 12 3, ⟨32, 0, 0⟩) := by
  have hid : readBits nestedFunction ⟨24, 0, 0⟩ 3 = (1, ⟨25, 5, 12⟩) := by decide +kernel
  have hheader : (irEnterSubblockHeader nestedFunction ⟨25, 5, 12⟩).toOption
      = some (.enterSubblock 12 3, ⟨32, 0, 0⟩) := by decide +kernel
  rw [h.bs]
  change entryOf nestedFunction s.parser _ (readBits nestedFunction ⟨24, 0, 0⟩ 3).1.toNat
    (readBits nestedFunction ⟨24, 0, 0⟩ 3).2 = _
  rw [hid]
  exact toOption_ok hheader

theorem Circling.next (h : Circling s) :
    ∃ s', next H nestedFunction s = some s' ∧ Circling s' := by
  have hturn : ∃ s', turn H { s with bs := ⟨32, 0, 0⟩ } ⟨3, none, some 12, 0⟩ []
      (.enterSubblock 12 3) = .ok s' ∧ Circling s' := by
    change ∃ s', enterFunctionBlock H _ 3 3 = .ok s' ∧ Circling s'
    unfold enterFunctionBlock jumpToVst vstPosition
    dsimp only
    rw [h.vstoffset]
    exact ⟨_, rfl, ⟨rfl, rfl, rfl⟩⟩
  obtain ⟨s', hturn, hcircling⟩ := hturn
  exact ⟨s', next_turn _ _ h.calls h.readEntry hturn, hcircling⟩

end Vmir.ParserTermination
