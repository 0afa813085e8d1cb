import Vmir.BranchFixup
import Vmir.EmitBranch
import Mathlib.Data.List.Induction

set_option autoImplicit false

/-!
# What the branch emitters append

Each of them appends one branching operation, behind code without branches. The units that name its
blocks are in the order of its outcomes.
-/
namespace Vmir.BranchPieces
open Ir VmOps VmControl IrTypes ProgramText EmitCmp EmitBranch BranchFixup

def extend (e : Emission) (ps : List Piece) : Emission :=
  ⟨e.text ++ codeOf ps, e.branchFixups ++ fixupsOf e.text.length ps⟩

theorem extend_extend (e : Emission) (ps qs : List Piece) :
    extend (extend e ps) qs = extend e (ps ++ qs) := by
  rw [extend, extend, extend, codeOf_append, fixupsOf_append, List.append_assoc, List.append_assoc,
    List.length_append]

/-- The emission succeeds, unless the buffer is full. -/
def Emits (e : Emission) (r : Except Fault Emission) (ps : List Piece) : Prop :=
  r = .error functionTooBig ∨ r = .ok (extend e ps)

theorem emit_cases (t : Text) (cs : List Cell) :
    emit t cs = .error functionTooBig ∨ emit t cs = .ok (t ++ cs) := by
  unfold emit
  split
  · exact Or.inl rfl
  · exact Or.inr rfl

theorem Emits.eq {e e' : Emission} {r : Except Fault Emission} {ps : List Piece}
    (h : Emits e r ps) (hr : r = .ok e') : e' = extend e ps := by
  rcases h with h | h
  · rw [h] at hr
    cases hr
  · exact Except.ok.inj (hr.symm.trans h)

theorem Emits.append {e : Emission} {r : Except Fault Emission} {ps qs : List Piece}
    {k : Emission → Except Fault Emission} (h : Emits e r ps)
    (hk : Emits (extend e ps) (k (extend e ps)) qs) : Emits e (r >>= k) (ps ++ qs) := by
  rcases h with h | h
  · rw [h]
    exact Or.inl rfl
  · rw [h, ok_bind]
    rcases hk with hk | hk
    · exact Or.inl hk
    · rw [hk, extend_extend]
      exact Or.inr rfl

theorem emitFixup_emits (e : Emission) {o : Opcode} {args : List (BitVec 16)} {js : List ℕ}
    (hslots : ∀ I : Units, (∀ i < args.length, I i = operands args i) → slots o I = .ok js)
    (hlt : ∀ j ∈ js, j < args.length) :
    Emits e (emitFixup e o args) [.branching o args js hslots hlt] := by
  unfold emitFixup
  have hcode : codeOf [Piece.branching o args js hslots hlt] = .op o :: args.map .half := by
    rw [codeOf, List.flatMap_singleton]
    rfl
  rcases emit_cases e.text (.op o :: args.map .half) with h | h
  · rw [h]
    exact Or.inl rfl
  · rw [h, ok_bind]
    right
    rw [extend, hcode]
    rfl

theorem plain_eq (e : Emission) (cells : List Cell) :
    (⟨e.text ++ cells, e.branchFixups⟩ : Emission) = extend e [.plain cells] := by
  rw [extend, codeOf, List.flatMap_singleton, fixupsOf, fixupsOf, List.append_nil]
  exact congrArg₂ Emission.mk rfl (List.append_nil _).symm

theorem continueWith_emits (e : Emission) {emitter : Text → Except Fault Text} {cells : List Cell}
    (h : emitter e.text = emit e.text cells) : Emits e (continueWith e emitter) [.plain cells] := by
  unfold continueWith
  rw [h]
  rcases emit_cases e.text cells with h | h
  · rw [h]
    exact Or.inl rfl
  · rw [h, ok_bind]
    exact Or.inr (congrArg Except.ok (plain_eq e cells))

theorem emitFixup_continue (e : Emission) (o : Opcode) (args us : List (BitVec 16)) :
    (emitFixup e o args >>= fun e => continueWith e fun t => emit t (us.map .half))
      = emitFixup e o (args ++ us) := by
  have happend := emit_append e.text (.op o :: args.map .half) (us.map .half)
  rw [List.cons_append, ← List.map_append] at happend
  unfold emitFixup continueWith
  rw [← happend]
  rcases emit_cases e.text (.op o :: args.map .half) with h | h
  · rw [h]
    rfl
  · rw [h]
    rfl

/-! ## Tables -/

/-- The units of the constants of a table that starts at `pos`; `g` gives those of one constant. -/
def tableEntries (g : ℕ → BitVec 64 → List (BitVec 16)) (pos : ℕ) (paths : List SwitchPath) :
    List (BitVec 16) :=
  match paths with
  | [] => []
  | p :: ps => g pos p.v64 ++ tableEntries g (pos + (g pos p.v64).length) ps

section
variable {g : ℕ → BitVec 64 → List (BitVec 16)} {entry : Text → BitVec 64 → Except Fault Text}

theorem emit_entries (hentry : ∀ t v, entry t v = emit t ((g t.length v).map .half)) (t : Text)
    (cs : List Cell) (paths : List SwitchPath) :
    (emit t cs >>= fun t => paths.foldlM (fun t p => entry t p.v64) t)
      = emit t (cs ++ (tableEntries g (t.length + cs.length) paths).map .half) := by
  induction paths generalizing cs with
  | nil =>
    rw [tableEntries, List.map_nil, List.append_nil]
    exact bind_pure _
  | cons p ps ih =>
    have hfst : (emit t cs >>= fun t => entry t p.v64)
        = emit t (cs ++ (g (t.length + cs.length) p.v64).map .half) := by
      rw [← emit_append]
      rcases emit_cases t cs with h | h
      · rw [h]
        rfl
      · rw [h, ok_bind, ok_bind, hentry, List.length_append]
    have hrest := ih (cs ++ (g (t.length + cs.length) p.v64).map .half)
    rw [← hfst, bind_assoc] at hrest
    simp only [List.foldlM_cons]
    rw [hrest, tableEntries, List.map_append, List.append_assoc, List.length_append,
      List.length_map, Nat.add_assoc]

theorem emit_blocks (t : Text) (cs : List Cell) (paths : List SwitchPath) (defblock : ℕ) :
    (emit t cs >>= fun t => paths.foldlM (fun t p => emitI16 t (blockUnit p.block)) t
        >>= fun t => emitI16 t (blockUnit defblock))
      = emit t (cs ++ ((paths.map fun p => blockUnit p.block) ++ [blockUnit defblock]).map .half) := by
  induction paths generalizing cs with
  | nil => exact emit_append t cs _
  | cons p ps ih =>
    have hfst := emit_append t cs [.half (blockUnit p.block)]
    have hrest := ih (cs ++ [.half (blockUnit p.block)])
    rw [← hfst, bind_assoc] at hrest
    simp only [List.foldlM_cons, bind_assoc]
    rw [List.append_assoc] at hrest
    exact hrest

/-- The operands of a `SWITCH*_BS` operation. -/
def switchArgs (g : ℕ → BitVec 64 → List (BitVec 16)) (pos : ℕ) (reg : BitVec 32)
    (paths : List SwitchPath) (defblock : ℕ) : List (BitVec 16) :=
  [reg.setWidth 16, BitVec.ofNat 16 paths.length] ++ tableEntries g (pos + 3) paths
    ++ ((paths.map fun p => blockUnit p.block) ++ [blockUnit defblock])

theorem emitSwitchTable_eq (hentry : ∀ t v, entry t v = emit t ((g t.length v).map .half))
    (e : Emission) (c : Control) (reg : BitVec 32) (paths : List SwitchPath) (defblock : ℕ) :
    emitSwitchTable e c reg entry paths defblock
      = emitFixup e (.control c) (switchArgs g e.text.length reg paths defblock) := by
  let cs : List Cell :=
    .op (.control c) :: [reg.setWidth 16, BitVec.ofNat 16 paths.length].map .half
  have hall : (emit e.text cs >>= fun t => paths.foldlM (fun t p => entry t p.v64) t
        >>= fun t => paths.foldlM (fun t p => emitI16 t (blockUnit p.block)) t
        >>= fun t => emitI16 t (blockUnit defblock))
      = emit e.text (.op (.control c)
        :: (switchArgs g e.text.length reg paths defblock).map .half) := by
    rw [← bind_assoc, emit_entries hentry, emit_blocks]
    rw [switchArgs]
    simp only [List.map_append, List.append_assoc]
    rfl
  unfold emitSwitchTable emitFixup continueWith
  rw [← hall]
  rcases emit_cases e.text cs with h | h
  · rw [h]
    rfl
  · rw [h]
    rfl

variable {k : ℕ}

theorem tableEntries_length (hg : ∀ pos v, (g pos v).length = k) (pos : ℕ)
    (paths : List SwitchPath) : (tableEntries g pos paths).length = k * paths.length := by
  induction paths generalizing pos with
  | nil => rfl
  | cons p ps ih => rw [tableEntries, List.length_append, hg, ih, List.length_cons, Nat.mul_succ,
      Nat.add_comm]

theorem switchArgs_length (hg : ∀ pos v, (g pos v).length = k) (pos : ℕ) (reg : BitVec 32)
    (paths : List SwitchPath) (defblock : ℕ) :
    (switchArgs g pos reg paths defblock).length
      = 2 + k * paths.length + (paths.length + 1) := by
  rw [switchArgs, List.length_append, List.length_append, tableEntries_length hg,
    List.length_append, List.length_map]
  rfl

theorem operands_switchArgs_block (hg : ∀ pos v, (g pos v).length = k) (pos : ℕ)
    (reg : BitVec 32) (paths : List SwitchPath) (defblock i : ℕ) {b : ℕ}
    (hb : (paths.map SwitchPath.block ++ [defblock])[i]? = some b) :
    operands (switchArgs g pos reg paths defblock) (2 + k * paths.length + i) = blockUnit b := by
  have hhead : ([reg.setWidth 16, BitVec.ofNat 16 paths.length]
      ++ tableEntries g (pos + 3) paths).length = 2 + k * paths.length := by
    rw [List.length_append, tableEntries_length hg]
    rfl
  have hblocks : (paths.map fun p => blockUnit p.block) ++ [blockUnit defblock]
      = (paths.map SwitchPath.block ++ [defblock]).map blockUnit := by
    rw [List.map_append, List.map_map]
    rfl
  rw [operands, List.getD_eq_getElem?_getD, switchArgs,
    List.getElem?_append_right (by omega), hhead, Nat.add_sub_cancel_left, hblocks,
    List.getElem?_map, hb]
  rfl

end

/-! ## The blocks of an instruction -/

/-- The operands of an operation name the blocks `named`, in the order of its outcomes; a switch with
more than 65535 paths has not got that many outcomes. -/
structure NamesBlocks (o : Opcode) (args : List (BitVec 16)) (js named : List ℕ) : Prop where
  reads : ∀ c, o = .control c → unitCount c (operands args) ≤ args.length
    ∧ (c = .jumptable → 0 < (operands args 1).toNat)
  invoke : ∀ c, o = .call c → js = [3, 4]
  count : js.length ≤ 65536
  length : named.length ≤ 65536 → js.length = named.length
  block : named.length ≤ 65536 → ∀ i b j : ℕ, named[i]? = some b → js[i]? = some j →
    operands args j = blockUnit b

/-- A branching operation was emitted for the blocks `named`. -/
def Shape (e e' : Emission) (named : List ℕ) : Prop :=
  ∃ cells o args js hslots hlt,
    e' = extend e [.plain cells, .branching o args js hslots hlt] ∧ NamesBlocks o args js named

theorem shape_of_emitFixup {e e' : Emission} {o : Opcode} {args : List (BitVec 16)}
    {named : List ℕ} (js : List ℕ) (h : emitFixup e o args = .ok e')
    (hslots : ∀ I : Units, (∀ i < args.length, I i = operands args i) → slots o I = .ok js)
    (hlt : ∀ j ∈ js, j < args.length) (hn : NamesBlocks o args js named) : Shape e e' named :=
  ⟨[], o, args, js, hslots, hlt, (emitFixup_emits e hslots hlt).eq h, hn⟩

theorem Shape.behind {e e' : Emission} {cells : List Cell} {named : List ℕ}
    (h : Shape (extend e [.plain cells]) e' named) : Shape e e' named := by
  obtain ⟨cells', o, args, js, hslots, hlt, rfl, hn⟩ := h
  refine ⟨cells ++ cells', o, args, js, hslots, hlt, ?_, hn⟩
  rw [extend_extend, extend, extend]
  have hcode : codeOf ([Piece.plain cells] ++ [.plain cells', .branching o args js hslots hlt])
      = codeOf [.plain (cells ++ cells'), .branching o args js hslots hlt] := by
    simp only [codeOf, List.cons_append, List.nil_append, List.flatMap_cons, Piece.cells,
      List.append_assoc]
  rw [hcode]
  simp only [List.cons_append, List.nil_append, fixupsOf, Piece.fixups, Piece.cells,
    List.length_append, Nat.add_assoc]

theorem namesBlocks_pair {o : Opcode} {args : List (BitVec 16)} {a b x y : ℕ}
    (hreads : ∀ c, o = .control c → unitCount c (operands args) ≤ args.length
      ∧ (c = .jumptable → 0 < (operands args 1).toNat))
    (hinvoke : ∀ c, o = .call c → [a, b] = [3, 4]) (hx : operands args a = blockUnit x)
    (hy : operands args b = blockUnit y) : NamesBlocks o args [a, b] [x, y] := by
  refine ⟨hreads, hinvoke, by simp, fun _ => rfl, fun _ i blk j hi hj => ?_⟩
  match i with
  | 0 =>
    obtain rfl := Option.some.inj hi
    obtain rfl := Option.some.inj hj
    exact hx
  | 1 =>
    obtain rfl := Option.some.inj hi
    obtain rfl := Option.some.inj hj
    exact hy
  | i + 2 => cases hi

theorem shape_b {e e' : Emission} {tb : ℕ}
    (h : emitFixup e (.control .b) [blockUnit tb] = .ok e') : Shape e e' [tb] := by
  refine shape_of_emitFixup [0] h (fun I _ => rfl) (by simp) ⟨?_, ?_, by simp, fun _ => rfl, ?_⟩
  · rintro c ⟨⟩
    exact ⟨le_refl 1, fun h => by cases h⟩
  · rintro c ⟨⟩
  · intro _ i blk j hi hj
    match i with
    | 0 =>
      obtain rfl := Option.some.inj hi
      obtain rfl := Option.some.inj hj
      rfl
    | i + 1 => cases hi

theorem shape_cmpBr {e e' : Emission} {c : Control} {tb fb : ℕ} (us : List (BitVec 16))
    (hslots : ∀ I, slots (.control c) I = .ok [0, 1]) (hc : c ≠ .jumptable)
    (hcount : ∀ I, unitCount c I = 2 + us.length)
    (h : emitFixup e (.control c) (blockUnit tb :: blockUnit fb :: us) = .ok e') :
    Shape e e' [tb, fb] := by
  refine shape_of_emitFixup _ h (fun I _ => hslots I) ?_ (namesBlocks_pair ?_ ?_ rfl rfl)
  · simp
  · rintro c' ⟨⟩
    refine ⟨?_, fun h => absurd h hc⟩
    rw [hcount, List.length_cons, List.length_cons]
    omega
  · rintro c' ⟨⟩

theorem emitFixup_emitI8 (iu : IrUnit) (e : Emission) (o : Opcode) (args : List (BitVec 16))
    (v : BitVec 8) :
    (emitFixup e o args >>= fun e => continueWith e (emitI8 iu · v))
      = emitFixup e o (args ++ [iu.textAlloc (e.text.length + (args.length + 1)) ++ v]) := by
  have hcont (e₁ : Emission) (n : ℕ) (hlen : e₁.text.length = n) :
      continueWith e₁ (emitI8 iu · v)
        = continueWith e₁ fun t => emit t ([iu.textAlloc n ++ v].map .half) := by
    subst hlen
    rfl
  rw [← emitFixup_continue]
  cases he : emitFixup e o args with
  | error f => rfl
  | ok e₁ =>
    obtain ⟨t, ht, he⟩ := bind_ok.mp he
    obtain rfl := Except.ok.inj he
    refine hcont _ _ ?_
    rw [emit_ok ht, List.length_append, List.length_cons, List.length_map]

theorem emitFixup_emitI32 (e : Emission) (o : Opcode) (args : List (BitVec 16)) (v : BitVec 32) :
    (emitFixup e o args >>= fun e => continueWith e (emitI32 · v))
      = emitFixup e o (args ++ units32 v) :=
  emitFixup_continue e o args (units32 v)

theorem emitCmpBranchRegs_shape {e e' : Emission} {it : IrType} {op : Pred} {lhs rhs : BitVec 32}
    {tb fb : ℕ} (h : emitCmpBranchRegs e it op lhs rhs tb fb = .ok e') : Shape e e' [tb, fb] := by
  cases op with
  | fcmp p => cases h
  | icmp p =>
    simp only [emitCmpBranchRegs] at h
    split at h
    · exact shape_cmpBr _ (fun _ => rfl) (by simp) (fun _ => rfl) h
    · exact shape_cmpBr _ (fun _ => rfl) (by simp) (fun _ => rfl) h
    · exact shape_cmpBr _ (fun _ => rfl) (by simp) (fun _ => rfl) h
    · cases h

theorem shape_cmpBr32C {e e' : Emission} {p : IcmpPred} {tb fb : ℕ} {l : BitVec 16} {v : BitVec 32}
    (h : (emitFixup e (.control (.cmpBr32C p)) [blockUnit tb, blockUnit fb, l]
      >>= fun e => continueWith e (emitI32 · v)) = .ok e') : Shape e e' [tb, fb] := by
  rw [emitFixup_emitI32] at h
  exact shape_cmpBr (l :: units32 v) (fun _ => rfl) (by simp) (fun _ => rfl) h

theorem emitCmpBranchConst_shape {iu : IrUnit} {e e' : Emission} {it : IrType} {op : Pred}
    {lhs : BitVec 32} {rhs : Value} {tb fb : ℕ}
    (h : emitCmpBranchConst iu e it op lhs rhs tb fb = .ok e') : Shape e e' [tb, fb] := by
  have hconst32 {p : IcmpPred}
      (h : (do
        let e ← emitFixup e (.control (.cmpBr32C p)) [blockUnit tb, blockUnit fb, lhs.setWidth 16]
        let t ← emitI32 e.text (← valueGetConst32 iu rhs)
        return (⟨t, e.branchFixups⟩ : Emission)) = .ok e') : Shape e e' [tb, fb] := by
    obtain ⟨e₁, he₁, h⟩ := bind_ok.mp h
    obtain ⟨v, hv, h⟩ := bind_ok.mp h
    refine shape_cmpBr32C (v := v) (p := p) (l := lhs.setWidth 16) ?_
    rw [he₁]
    exact h
  cases op with
  | fcmp p => cases h
  | icmp p =>
    simp only [emitCmpBranchConst] at h
    split at h
    · obtain ⟨e₁, he₁, h⟩ := bind_ok.mp h
      obtain ⟨v, hv, h⟩ := bind_ok.mp h
      have hemit := emitFixup_emitI8 iu e (.control (.cmpBr8C p))
        [blockUnit tb, blockUnit fb, lhs.setWidth 16] (v.setWidth 8)
      rw [he₁] at hemit
      exact shape_cmpBr [lhs.setWidth 16, _] (fun _ => rfl) (by simp) (fun _ => rfl)
        (hemit.symm.trans h)
    · exact hconst32 h
    · exact hconst32 h
    · cases h

theorem emitCmpBranchFunction_shape {e e' : Emission} {op : Pred} {lhs gfid : BitVec 32}
    {tb fb : ℕ} (h : emitCmpBranchFunction e op lhs gfid tb fb = .ok e') :
    Shape e e' [tb, fb] := by
  cases op with
  | fcmp p => cases h
  | icmp p => exact shape_cmpBr32C h

theorem emitCmpBranch_shape {iu : IrUnit} {e e' : Emission} {p : Pred} {lhs rhs : ValueType}
    {tb fb : ℕ} (h : emitCmpBranch iu e p lhs rhs tb fb = .ok e') : Shape e e' [tb, fb] := by
  obtain ⟨l, -, h⟩ := bind_ok.mp h
  obtain ⟨r, -, h⟩ := bind_ok.mp h
  obtain ⟨it, -, h⟩ := bind_ok.mp h
  split at h
  · exact emitCmpBranchRegs_shape h
  · exact emitCmpBranchConst_shape h
  · exact emitCmpBranchConst_shape h
  · exact emitCmpBranchConst_shape h
  · exact emitCmpBranchConst_shape h
  · exact emitCmpBranchFunction_shape h
  · exact emitCmpBranchFunction_shape h
  · cases h

/-! ### Branches -/

def brBlocks (iu : IrUnit) (condition : Option ValueType) (trueBranch falseBranch : ℕ) : List ℕ :=
  match condition with
  | none => [trueBranch]
  | some c =>
    match valueGet iu c.value with
    | .error _ => []
    | .ok iv =>
      match iv.cls, valueGetConst32 iu iv with
      | .constant _, .ok u => [if u ≠ 0 then trueBranch else falseBranch]
      | _, _ => [trueBranch, falseBranch]

theorem emitBr_shape {iu : IrUnit} {e e' : Emission} {condition : Option ValueType} {tb fb : ℕ}
    {next : Option ℕ} (h : emitBr iu e condition tb fb next = .ok e') :
    (condition = none ∧ next = some tb ∧ e' = e) ∨ Shape e e' (brBlocks iu condition tb fb) := by
  cases condition with
  | none =>
    simp only [emitBr] at h
    split at h
    · next hnext => exact Or.inl ⟨rfl, hnext, (Except.ok.inj h).symm⟩
    · exact Or.inr (shape_b h)
  | some c =>
    right
    obtain ⟨iv, hiv, h⟩ := bind_ok.mp h
    rcases hcls : iv.cls with _ | _ | _ | u64 | _ | reg | _ | _ | _ | _ | _ | _ | _
    all_goals rw [hcls] at h
    case regframe =>
      have hblocks : brBlocks iu (some c) tb fb = [tb, fb] := by
        simp only [brBlocks, hiv, hcls]
      rw [hblocks]
      exact shape_of_emitFixup _ h (fun I _ => rfl) (by simp)
        (namesBlocks_pair (by rintro c ⟨⟩; exact ⟨le_refl 3, fun h => by cases h⟩)
          (by rintro c ⟨⟩) rfl rfl)
    case constant =>
      obtain ⟨e₁, he₁, h⟩ := bind_ok.mp h
      obtain ⟨u, hu, h⟩ := bind_ok.mp h
      have hblocks : brBlocks iu (some c) tb fb = [if u ≠ 0 then tb else fb] := by
        simp only [brBlocks, hiv, hcls, hu]
      have hemit := emitFixup_continue e (.control .b) []
        [blockUnit (if u ≠ 0 then tb else fb)]
      rw [he₁, ok_bind] at hemit
      rw [hblocks]
      exact shape_b (hemit.symm.trans h)
    all_goals cases h

/-! ### Switches -/

section
variable {g : ℕ → BitVec 64 → List (BitVec 16)} {k : ℕ} {c : Control}

theorem switchArgs_one (pos : ℕ) (reg : BitVec 32) (paths : List SwitchPath) (defblock : ℕ) :
    operands (switchArgs g pos reg paths defblock) 1 = BitVec.ofNat 16 paths.length := rfl

theorem shape_switchTable
    (hslots : ∀ I, slots (.control c) I
      = .ok ((List.range ((I 1).toNat + 1)).map (2 + k * (I 1).toNat + ·)))
    (hcount : ∀ I, unitCount c I = 2 + k * (I 1).toNat + ((I 1).toNat + 1))
    (hc : c ≠ .jumptable) (hg : ∀ pos v, (g pos v).length = k) {e e' : Emission} {pos : ℕ}
    {reg : BitVec 32} {paths : List SwitchPath} {defblock : ℕ}
    (h : emitFixup e (.control c) (switchArgs g pos reg paths defblock) = .ok e') :
    Shape e e' (paths.map SwitchPath.block ++ [defblock]) := by
  have hlen := switchArgs_length hg pos reg paths defblock
  have hp : (BitVec.ofNat 16 paths.length).toNat = paths.length % 65536 := BitVec.toNat_ofNat _ _
  have hple := Nat.mod_le paths.length 65536
  have hmul : k * (paths.length % 65536) ≤ k * paths.length := Nat.mul_le_mul_left k hple
  refine shape_of_emitFixup ((List.range (paths.length % 65536 + 1)).map
    (2 + k * (paths.length % 65536) + ·)) h (fun I hI => ?_) (fun j hj => ?_) ⟨?_, ?_, ?_, ?_, ?_⟩
  · rw [hslots, hI 1 (by omega), switchArgs_one, hp]
  · obtain ⟨i, hi, rfl⟩ := List.mem_map.mp hj
    have := List.mem_range.mp hi
    omega
  · rintro c' ⟨⟩
    refine ⟨?_, fun h => absurd h hc⟩
    rw [hcount, switchArgs_one, hp]
    omega
  · rintro c' ⟨⟩
  · rw [List.length_map, List.length_range]
    have := Nat.mod_lt paths.length (show 65536 > 0 by omega)
    omega
  · intro hn
    rw [List.length_append, List.length_map, List.length_singleton] at hn ⊢
    rw [List.length_map, List.length_range, Nat.mod_eq_of_lt (by omega)]
  · intro hn i b j hb hj
    rw [List.length_append, List.length_map, List.length_singleton] at hn
    rw [Nat.mod_eq_of_lt (by omega)] at hj
    have hi := (List.getElem?_eq_some_iff.mp hb).1
    rw [List.length_append, List.length_map, List.length_singleton] at hi
    rw [getElem?_range_map _ hi] at hj
    rw [← Option.some.inj hj]
    exact operands_switchArgs_block hg pos reg paths defblock i hb

end

/-- The units of a constant in the tables of `SWITCH8_BS`, `SWITCH32_BS` and `SWITCH64_BS`. -/
def entry8 (iu : IrUnit) (pos : ℕ) (v : BitVec 64) : List (BitVec 16) :=
  [iu.textAlloc pos ++ v.setWidth 8]

def entry32 (mask32 : BitVec 32) (v : BitVec 64) : List (BitVec 16) :=
  units32 ((v &&& mask32.setWidth 64).setWidth 32)

section
variable (e : Emission) (reg : BitVec 32) (paths : List SwitchPath) (defblock : ℕ)

theorem emitSwitch8_eq (iu : IrUnit) : emitSwitch8 iu e reg paths defblock
    = emitFixup e (.control .switch8Bs) (switchArgs (entry8 iu) e.text.length reg paths defblock) := by
  have hentry (t : Text) (v : BitVec 64) :
      emitI8 iu t (v.setWidth 8) = emit t ((entry8 iu t.length v).map .half) := rfl
  rw [emitSwitch8, emitSwitchTable_eq (g := entry8 iu) hentry]

theorem emitSwitch32_eq (mask32 : BitVec 32) : emitSwitch32 e reg mask32 paths defblock
    = emitFixup e (.control .switch32Bs)
      (switchArgs (fun _ => entry32 mask32) e.text.length reg paths defblock) := by
  have hentry (t : Text) (v : BitVec 64) : emitI32 t ((v &&& mask32.setWidth 64).setWidth 32)
      = emit t ((entry32 mask32 v).map .half) := rfl
  rw [emitSwitch32, emitSwitchTable_eq (g := fun _ => entry32 mask32) hentry]

theorem emitSwitch64_eq : emitSwitch64 e reg paths defblock
    = emitFixup e (.control .switch64Bs)
      (switchArgs (fun _ => units64) e.text.length reg paths defblock) := by
  have hentry (t : Text) (v : BitVec 64) : emitI64 t v = emit t ((units64 v).map .half) := rfl
  rw [emitSwitch64, emitSwitchTable_eq (g := fun _ => units64) hentry]

end

section
variable {e e' : Emission} {reg : BitVec 32} {paths : List SwitchPath} {defblock : ℕ}

theorem emitSwitch8_shape {iu : IrUnit} (h : emitSwitch8 iu e reg paths defblock = .ok e') :
    Shape e e' (paths.map SwitchPath.block ++ [defblock]) := by
  rw [emitSwitch8_eq] at h
  exact shape_switchTable (k := 1) (fun I => by rw [Nat.one_mul]; rfl)
    (fun I => by rw [Nat.one_mul]; rfl) (by decide) (fun _ _ => rfl) h

theorem emitSwitch32_shape {mask32 : BitVec 32}
    (h : emitSwitch32 e reg mask32 paths defblock = .ok e') :
    Shape e e' (paths.map SwitchPath.block ++ [defblock]) := by
  rw [emitSwitch32_eq] at h
  exact shape_switchTable (k := 2) (fun I => rfl) (fun I => rfl) (by decide) (fun _ _ => rfl) h

theorem emitSwitch64_shape (h : emitSwitch64 e reg paths defblock = .ok e') :
    Shape e e' (paths.map SwitchPath.block ++ [defblock]) := by
  rw [emitSwitch64_eq] at h
  exact shape_switchTable (k := 4) (fun I => rfl) (fun I => rfl) (by decide) (fun _ _ => rfl) h

end

/-! ### Jump tables -/

/-- The block of the last path with the key `i`. -/
def pathBlock (key : SwitchPath → ℕ) (paths : List SwitchPath) (defblock i : ℕ) : ℕ :=
  match paths.reverse.find? (fun p => key p == i) with
  | some p => p.block
  | none => defblock

def tableKey (jumptableSize : ℕ) (p : SwitchPath) : ℕ :=
  (p.v64 &&& BitVec.ofNat 64 (jumptableSize - 1)).toNat

def tableBlocks (jumptableSize : ℕ) (paths : List SwitchPath) (defblock : ℕ) : List ℕ :=
  (List.range jumptableSize).map (pathBlock (tableKey jumptableSize) paths defblock)

theorem filled_getElem? (key : SwitchPath → ℕ) (paths : List SwitchPath) (defblock n i : ℕ) :
    (paths.foldl (fun table p => table.set (key p) (blockUnit p.block))
        (List.replicate n (blockUnit defblock)))[i]?
      = if i < n then some (blockUnit (pathBlock key paths defblock i)) else none := by
  have hlen (paths : List SwitchPath) :
      (paths.foldl (fun table p => table.set (key p) (blockUnit p.block))
        (List.replicate n (blockUnit defblock))).length = n := by
    induction paths using List.reverseRecOn with
    | nil => exact List.length_replicate
    | append_singleton paths p ih =>
      rw [List.foldl_append, List.foldl_cons, List.foldl_nil, List.length_set, ih]
  induction paths using List.reverseRecOn with
  | nil => exact List.getElem?_replicate
  | append_singleton paths p ih =>
    rw [List.foldl_append, List.foldl_cons, List.foldl_nil, List.getElem?_set, hlen, ih, pathBlock,
      pathBlock, List.reverse_append, List.reverse_singleton, List.singleton_append,
      List.find?_cons]
    by_cases hkey : key p = i
    · rw [if_pos hkey, hkey, beq_self_eq_true]
    · rw [if_neg hkey, beq_eq_false_iff_ne.mpr hkey]

theorem emitJumptable_eq (e : Emission) (reg : BitVec 32) (jumptableSize : ℕ)
    (paths : List SwitchPath) (defblock : ℕ) :
    emitJumptable e reg jumptableSize paths defblock
      = emitFixup e (.control .jumptable) ([reg.setWidth 16, BitVec.ofNat 16 jumptableSize]
        ++ (tableBlocks jumptableSize paths defblock).map blockUnit) := by
  have htable : paths.foldl (fun table p =>
        table.set (p.v64 &&& BitVec.ofNat 64 (jumptableSize - 1)).toNat (blockUnit p.block))
        (List.replicate jumptableSize (blockUnit defblock))
      = (tableBlocks jumptableSize paths defblock).map blockUnit := by
    apply List.ext_getElem?
    intro i
    refine (filled_getElem? (tableKey jumptableSize) paths defblock jumptableSize i).trans ?_
    rw [tableBlocks, List.map_map, List.getElem?_map]
    split
    · next hi => rw [List.getElem?_range hi]; rfl
    · next hi =>
      rw [List.getElem?_eq_none (by rw [List.length_range]; omega)]
      rfl
  rw [← emitFixup_continue, ← htable]
  rfl

theorem emitJumptable_shape {e e' : Emission} {reg : BitVec 32} {jumptableSize : ℕ}
    {paths : List SwitchPath} {defblock : ℕ} (hpos : 0 < jumptableSize) (hle : jumptableSize ≤ 256)
    (h : emitJumptable e reg jumptableSize paths defblock = .ok e') :
    Shape e e' (tableBlocks jumptableSize paths defblock) := by
  have hsize : (BitVec.ofNat 16 jumptableSize).toNat = jumptableSize := by
    rw [BitVec.toNat_ofNat]
    omega
  have hblocks : (tableBlocks jumptableSize paths defblock).length = jumptableSize := by
    rw [tableBlocks, List.length_map, List.length_range]
  rw [emitJumptable_eq] at h
  have hlen : ([reg.setWidth 16, BitVec.ofNat 16 jumptableSize]
      ++ (tableBlocks jumptableSize paths defblock).map blockUnit).length = 2 + jumptableSize := by
    rw [List.length_append, List.length_map, hblocks]
    rfl
  have hone : operands ([reg.setWidth 16, BitVec.ofNat 16 jumptableSize]
      ++ (tableBlocks jumptableSize paths defblock).map blockUnit) 1
      = BitVec.ofNat 16 jumptableSize := rfl
  refine shape_of_emitFixup ((List.range jumptableSize).map (2 + ·)) h (fun I hI => ?_)
    (fun j hj => ?_) ⟨?_, ?_, ?_, ?_, ?_⟩
  · simp only [slots, hI 1 (by omega), hone, hsize]
  · obtain ⟨i, hi, rfl⟩ := List.mem_map.mp hj
    have := List.mem_range.mp hi
    omega
  · rintro c ⟨⟩
    rw [hone, hsize, unitCount, hone, hsize, hlen]
    exact ⟨le_refl _, fun _ => hpos⟩
  · rintro c ⟨⟩
  · rw [List.length_map, List.length_range]
    omega
  · intro _
    rw [List.length_map, List.length_range, hblocks]
  · intro _ i b j hb hj
    have hi := (List.getElem?_eq_some_iff.mp hb).1
    rw [hblocks] at hi
    rw [getElem?_range_map _ hi] at hj
    rw [← Option.some.inj hj, operands, List.getD_eq_getElem?_getD,
      List.getElem?_append_right (by simp), List.length_cons, List.length_singleton,
      Nat.add_sub_cancel_left, List.getElem?_map, hb]
    rfl

/-! ### All switches, invokes -/

def switchBlocks (iu : IrUnit) (value : ValueType) (paths : List SwitchPath) (defblock : ℕ) :
    List ℕ :=
  match typeGet iu value.type with
  | .ok (.intx width) =>
    if width ≤ 4 then tableBlocks (1 <<< width) paths defblock
    else paths.map SwitchPath.block ++ [defblock]
  | .ok .int1 | .ok .int8 =>
    if 64 < paths.length then tableBlocks 256 paths defblock
    else paths.map SwitchPath.block ++ [defblock]
  | _ => paths.map SwitchPath.block ++ [defblock]

theorem emitMask_eq (t : Text) (reg mask32 : BitVec 32) :
    (do
      let t ← emitOp2 t (.r32C .and) 0 reg
      emitI32 t mask32)
      = emit t (code (.r32C .and) ([(0 : BitVec 32).setWidth 16, reg.setWidth 16] ++ units32 mask32)) := by
  rw [emitOp2_eq]
  exact emit_units t _ _ _

theorem vmAlign32_ok {t t' : Text} {immAtOdd : Bool} (h : vmAlign32 t immAtOdd = .ok t') :
    ∃ cells, t' = t ++ cells := by
  unfold vmAlign32 at h
  simp only at h
  split at h
  · exact ⟨_, emit_ok h⟩
  · exact ⟨[], by rw [List.append_nil, Except.ok.inj h]⟩

theorem emitSwitch_shape {iu : IrUnit} {e e' : Emission} {value : ValueType}
    {paths : List SwitchPath} {defblock : ℕ} (h : emitSwitch iu e value paths defblock = .ok e') :
    Shape e e' (switchBlocks iu value paths defblock) := by
  obtain ⟨c, -, h⟩ := bind_ok.mp h
  obtain ⟨cty, hcty, h⟩ := bind_ok.mp h
  obtain ⟨reg, -, h⟩ := bind_ok.mp h
  unfold switchBlocks
  rw [hcty]
  cases cty with
  | intx width =>
    simp only at h ⊢
    split at h
    · cases h
    · split at h
      · next hle =>
        rw [if_pos hle]
        refine emitJumptable_shape ?_ ?_ h
        · rw [Nat.one_shiftLeft]
          exact Nat.two_pow_pos width
        · rw [Nat.one_shiftLeft]
          exact Nat.pow_le_pow_right (show 2 > 0 by omega) (show width ≤ 8 by omega)
      · next hle =>
        rw [if_neg hle]
        obtain ⟨e₁, he₁, h⟩ := bind_ok.mp h
        have hmask := emitMask_eq e.text reg (BitVec.ofNat 32 (1 <<< width - 1))
        rw [(continueWith_emits e hmask).eq he₁] at h
        exact (emitSwitch32_shape h).behind
  | int1 | int8 =>
    simp only at h ⊢
    split at h
    · next hlen =>
      rw [if_pos hlen]
      exact emitJumptable_shape (by decide) (by decide) h
    · next hlen =>
      rw [if_neg hlen]
      exact emitSwitch8_shape h
  | int16 =>
    obtain ⟨e₁, he₁, h⟩ := bind_ok.mp h
    rw [(continueWith_emits e (emitOp2_eq e.text _ _ _)).eq he₁] at h
    exact (emitSwitch32_shape h).behind
  | int32 => exact emitSwitch32_shape h
  | int64 =>
    obtain ⟨e₁, he₁, h⟩ := bind_ok.mp h
    obtain ⟨t, ht, he₁⟩ := bind_ok.mp he₁
    obtain ⟨cells, rfl⟩ := vmAlign32_ok ht
    obtain rfl := Except.ok.inj he₁
    have hplain := plain_eq e cells
    rw [hplain] at h
    exact (emitSwitch64_shape h).behind
  | _ => cases h

theorem shape_invoke {e e' : Emission} {o : CallOp} {normalDest unwindDest : ℕ}
    (hslots : ∀ I, slots (.call o) I = .ok [3, 4]) {a b c : BitVec 16}
    (h : emitFixup e (.call o) [a, b, c, blockUnit normalDest, blockUnit unwindDest] = .ok e') :
    Shape e e' [normalDest, unwindDest] := by
  refine shape_of_emitFixup _ h (fun I _ => hslots I) (by simp) (namesBlocks_pair ?_ ?_ rfl rfl)
  · rintro c' ⟨⟩
  · intro _ _
    rfl

theorem emitInvoke_shape {iu : IrUnit} {extFunc : BitVec 32 → Bool} {e e' : Emission}
    {rfOffset : BitVec 32} {ret : Option ValueType} {callee : ValueType}
    {normalDest unwindDest : ℕ}
    (h : emitInvoke iu extFunc e rfOffset ret callee normalDest unwindDest = .ok e') :
    Shape e e' [normalDest, unwindDest] := by
  obtain ⟨retReg, -, h⟩ := bind_ok.mp h
  simp only at h
  split at h
  · next gfid hgfid =>
    cases hext : extFunc gfid with
    | true =>
      rw [hext] at h
      exact shape_invoke (fun _ => rfl) h
    | false =>
      rw [hext] at h
      exact shape_invoke (fun _ => rfl) h
  · obtain ⟨iv, -, h⟩ := bind_ok.mp h
    split at h
    · exact shape_invoke (fun _ => rfl) h
    · cases h

end Vmir.BranchPieces
