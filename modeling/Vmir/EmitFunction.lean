import Vmir.BranchPieces

set_option autoImplicit false

/-!
# Emitting a function

`vm_emit_function` emits the blocks one behind the other, records where each of them starts, and
then finalizes the branches.
-/
namespace Vmir.EmitFunction
open Ir VmOps IrTypes ProgramText EmitCmp EmitBranch BranchFixup BranchPieces

/-- The emitter of an instruction that stays in its block: it appends to the text. -/
structure StraightEmitter where
  emit : Text → Except Fault Text
  appends : ∀ {t t' : Text}, emit t = .ok t' → ∃ cells, t' = t ++ cells

inductive Instr
  | straight (s : StraightEmitter)
  | br (condition : Option ValueType) (trueBranch falseBranch : ℕ)
  | cmpBranch (op : Pred) (lhs rhs : ValueType) (trueBranch falseBranch : ℕ)
  | switch (value : ValueType) (paths : List SwitchPath) (defblock : ℕ)
  | invoke (ret : Option ValueType) (callee : ValueType) (normalDest unwindDest : ℕ)

/-- `ir_bb_t` -/
structure Block where
  id : ℕ
  instrs : List Instr

/-- `ir_function_t`: blocks have different ids, and a branch without condition ends its block. -/
structure Function where
  bbs : List Block
  regframeSize : BitVec 32
  ids : (bbs.map Block.id).Nodup
  brLast : ∀ b ∈ bbs, ∀ i ∈ b.instrs.dropLast, ∀ tb fb, i ≠ .br none tb fb

/-- The emission with `ib_text_offset` of the blocks so far, in units. -/
structure Emitted where
  emission : Emission
  offsets : List (ℕ × ℕ)

def start : Emitted := ⟨⟨[], []⟩, []⟩

section
variable (iu : IrUnit) (extFunc : BitVec 32 → Bool) (f : Function)

/-- One turn of the loop of `instr_emit`; `next` is the block behind the current one. -/
def emitInstr (next : Option ℕ) (e : Emission) (i : Instr) : Except Fault Emission :=
  match i with
  | .straight s => continueWith e s.emit
  | .br condition trueBranch falseBranch => emitBr iu e condition trueBranch falseBranch next
  | .cmpBranch op lhs rhs trueBranch falseBranch =>
    emitCmpBranch iu e op lhs rhs trueBranch falseBranch
  | .switch value paths defblock => emitSwitch iu e value paths defblock
  | .invoke ret callee normalDest unwindDest =>
    emitInvoke iu extFunc e f.regframeSize ret callee normalDest unwindDest

def emitInstrs (next : Option ℕ) (e : Emission) (is : List Instr) : Except Fault Emission :=
  is.foldlM (emitInstr iu extFunc f next) e

def emitBlock (s : Emitted) (b : Block × Option ℕ) : Except Fault Emitted := do
  let e ← emitInstrs iu extFunc f b.2 s.emission b.1.instrs
  return ⟨e, s.offsets ++ [(b.1.id, s.emission.text.length)]⟩

def withNext (bbs : List Block) : List (Block × Option ℕ) :=
  match bbs with
  | [] => []
  | b :: bbs => (b, bbs.head?.map Block.id) :: withNext bbs

def emitBlocks (s : Emitted) (bbs : List (Block × Option ℕ)) : Except Fault Emitted :=
  bbs.foldlM (emitBlock iu extFunc f) s

def layoutOf (s : Emitted) : Layout := fun id => s.offsets.lookup id

/-- The offsets of the blocks with the finalized text. -/
def vmEmitFunction : Except Fault (Emitted × Text) := do
  let s ← emitBlocks iu extFunc f start (withNext f.bbs)
  let t ← branchFixup (layoutOf s) s.emission.branchFixups s.emission.text
  return (s, t)

end

/-! ## The pieces of a function -/

section
variable {iu : IrUnit} {extFunc : BitVec 32 → Bool} {f : Function}

def blocksOf (iu : IrUnit) (i : Instr) : List ℕ :=
  match i with
  | .straight _ => []
  | .br condition trueBranch falseBranch => brBlocks iu condition trueBranch falseBranch
  | .cmpBranch _ _ _ trueBranch falseBranch => [trueBranch, falseBranch]
  | .switch value paths defblock => switchBlocks iu value paths defblock
  | .invoke _ _ normalDest unwindDest => [normalDest, unwindDest]

theorem emitInstr_cases {next : Option ℕ} {e e' : Emission} {i : Instr}
    (h : emitInstr iu extFunc f next e i = .ok e') :
    (∃ cells, e' = extend e [.plain cells] ∧ ∀ tb fb, i = .br none tb fb → next = some tb)
      ∨ Shape e e' (blocksOf iu i) := by
  cases i with
  | straight s =>
    left
    obtain ⟨t, ht, h⟩ := bind_ok.mp h
    obtain ⟨cells, rfl⟩ := s.appends ht
    refine ⟨cells, ?_, fun tb fb h => by cases h⟩
    rw [← Except.ok.inj h]
    exact plain_eq e cells
  | br condition tb fb =>
    rcases emitBr_shape h with ⟨hc, hnext, rfl⟩ | h
    · left
      refine ⟨[], ?_, fun tb' fb' h => ?_⟩
      · rw [← plain_eq, List.append_nil]
      · injection h with _ htb _
        rw [hnext, htb]
    · exact Or.inr h
  | cmpBranch op lhs rhs tb fb => exact Or.inr (emitCmpBranch_shape h)
  | switch value paths defblock => exact Or.inr (emitSwitch_shape h)
  | invoke ret callee normalDest unwindDest => exact Or.inr (emitInvoke_shape h)

theorem extend_nil (e : Emission) : extend e [] = e := by
  rw [extend, codeOf, List.flatMap_nil, fixupsOf, List.append_nil, List.append_nil]

theorem foldlM_pieces {σ α : Type} (em : σ → Emission) {step : σ → α → Except Fault σ}
    {P : ℕ → Piece → Prop} {s s' : σ} {l : List α}
    (hstep : ∀ as a bs s₁ s₂, l = as ++ a :: bs → as.foldlM step s = .ok s₁ →
      step s₁ a = .ok s₂ → ∃ ps, em s₂ = extend (em s₁) ps ∧ AllAt P (em s₁).text.length ps)
    (h : l.foldlM step s = .ok s') :
    ∃ ps, em s' = extend (em s) ps ∧ AllAt P (em s).text.length ps := by
  induction l using List.reverseRecOn generalizing s' with
  | nil => exact ⟨[], by rw [extend_nil, Except.ok.inj h], trivial⟩
  | append_singleton l a ih =>
    rw [List.foldlM_append] at h
    obtain ⟨s₁, hs₁, h⟩ := bind_ok.mp h
    simp only [List.foldlM_cons, List.foldlM_nil, bind_pure] at h
    obtain ⟨ps, hps, hall⟩ := ih (fun as a' bs s₁ s₂ hl => hstep as a' (bs ++ [a]) s₁ s₂
      (by rw [hl, List.append_assoc, List.cons_append])) hs₁
    obtain ⟨qs, hqs, hall'⟩ := hstep l a [] s₁ s' rfl hs₁ h
    refine ⟨ps ++ qs, by rw [hqs, hps, extend_extend], ?_⟩
    rw [hps, extend, List.length_append] at hall'
    exact allAt_append.mpr ⟨hall, hall'⟩

/-! ## Where an instruction stands -/

/-- Instruction `i` of the function is emitted behind `e`. -/
def Site (iu : IrUnit) (extFunc : BitVec 32 → Bool) (f : Function) (next : Option ℕ) (e : Emission)
    (i : Instr) : Prop :=
  ∃ before b after is js s, withNext f.bbs = before ++ (b, next) :: after
    ∧ emitBlocks iu extFunc f start before = .ok s ∧ b.instrs = is ++ i :: js
    ∧ emitInstrs iu extFunc f next s.emission is = .ok e

/-- The operation at `off` was recorded for `branch_fixup`; its outcomes are the blocks `named`. -/
def Recorded (iu : IrUnit) (extFunc : BitVec 32 → Bool) (f : Function) (off : ℕ)
    (named : List ℕ) : Prop :=
  ∃ next e e' i, Site iu extFunc f next e i ∧ emitInstr iu extFunc f next e i = .ok e'
    ∧ e'.branchFixups = e.branchFixups ++ [off] ∧ named = blocksOf iu i

/-- A branching piece is a recorded operation. -/
def Traced (iu : IrUnit) (extFunc : BitVec 32 → Bool) (f : Function) (pos : ℕ) (p : Piece) : Prop :=
  match p with
  | .plain _ => True
  | .branching o args js _ _ =>
    ∃ named, Recorded iu extFunc f pos named ∧ NamesBlocks o args js named

theorem shape_recorded {e e' : Emission} {named : List ℕ} (h : Shape e e' named) :
    ∃ cells o args js hslots hlt,
      e' = extend e [.plain cells, .branching o args js hslots hlt] ∧ NamesBlocks o args js named
        ∧ e'.branchFixups = e.branchFixups ++ [e.text.length + cells.length] := by
  obtain ⟨cells, o, args, js, hslots, hlt, rfl, hn⟩ := h
  exact ⟨cells, o, args, js, hslots, hlt, rfl, hn, rfl⟩

theorem emitInstr_traced {next : Option ℕ} {e e' : Emission} {i : Instr}
    (hsite : Site iu extFunc f next e i) (h : emitInstr iu extFunc f next e i = .ok e') :
    ∃ ps, e' = extend e ps ∧ AllAt (Traced iu extFunc f) e.text.length ps := by
  rcases emitInstr_cases h with ⟨cells, rfl, -⟩ | hshape
  · exact ⟨_, rfl, trivial, trivial⟩
  · obtain ⟨cells, o, args, js, hslots, hlt, he', hn, hoff⟩ := shape_recorded hshape
    exact ⟨_, he', trivial, ⟨blocksOf iu i, ⟨next, e, e', i, hsite, h, hoff, rfl⟩, hn⟩, trivial⟩

theorem emitBlocks_append (s : Emitted) (bs cs : List (Block × Option ℕ)) :
    emitBlocks iu extFunc f s (bs ++ cs)
      = emitBlocks iu extFunc f s bs >>= fun s => emitBlocks iu extFunc f s cs :=
  List.foldlM_append

theorem emitInstrs_append (next : Option ℕ) (e : Emission) (is js : List Instr) :
    emitInstrs iu extFunc f next e (is ++ js)
      = emitInstrs iu extFunc f next e is >>= fun e => emitInstrs iu extFunc f next e js :=
  List.foldlM_append

theorem emitBlocks_traced {s : Emitted}
    (hs : emitBlocks iu extFunc f start (withNext f.bbs) = .ok s) :
    ∃ ps, s.emission = extend start.emission ps ∧ AllAt (Traced iu extFunc f) 0 ps := by
  refine foldlM_pieces Emitted.emission ?_ hs
  rintro before ⟨b, next⟩ after s₁ s₂ hbbs hs₁ hs₂
  obtain ⟨e, he, hs₂⟩ := bind_ok.mp hs₂
  obtain rfl := Except.ok.inj hs₂
  refine foldlM_pieces id ?_ he
  intro is i js e₁ e₂ his he₁ he₂
  exact emitInstr_traced ⟨before, b, after, is, js, s₁, hbbs, hs₁, his, he₁⟩ he₂

theorem allAt_true (pos : ℕ) (ps : List Piece) : AllAt (fun _ _ => True) pos ps := by
  induction ps generalizing pos with
  | nil => trivial
  | cons p ps ih => exact ⟨trivial, ih _⟩

/-- The instructions `is'` stand one behind the other in a block, and are emitted behind `e`. -/
def Sites (iu : IrUnit) (extFunc : BitVec 32 → Bool) (f : Function) (next : Option ℕ) (e : Emission)
    (is' : List Instr) : Prop :=
  ∃ before b after is js s, withNext f.bbs = before ++ (b, next) :: after
    ∧ emitBlocks iu extFunc f start before = .ok s ∧ b.instrs = is ++ is' ++ js
    ∧ emitInstrs iu extFunc f next s.emission is = .ok e

theorem emitInstrs_pieces {next : Option ℕ} {e e' : Emission} {is : List Instr}
    (h : emitInstrs iu extFunc f next e is = .ok e') : ∃ ps, e' = extend e ps := by
  obtain ⟨ps, hps, -⟩ := foldlM_pieces id (P := fun _ _ => True)
    (fun as a bs e₁ e₂ _ _ h => by
      rcases emitInstr_cases h with ⟨cells, h, -⟩ | ⟨cells, o, args, js, hslots, hlt, h, -⟩
      · exact ⟨_, h, allAt_true _ _⟩
      · exact ⟨_, h, allAt_true _ _⟩) h
  exact ⟨ps, hps⟩

theorem emitBlocks_pieces {s s' : Emitted} {bbs : List (Block × Option ℕ)}
    (h : emitBlocks iu extFunc f s bbs = .ok s') : ∃ ps, s'.emission = extend s.emission ps := by
  obtain ⟨ps, hps, -⟩ := foldlM_pieces Emitted.emission (P := fun _ _ => True)
    (fun as a bs s₁ s₂ _ _ h => by
      obtain ⟨e, he, hs₂⟩ := bind_ok.mp h
      obtain ⟨ps, hps⟩ := emitInstrs_pieces he
      rw [← Except.ok.inj hs₂]
      exact ⟨ps, hps, allAt_true _ _⟩) h
  exact ⟨ps, hps⟩

theorem Sites.pieces {next : Option ℕ} {e : Emission} {is' : List Instr} {s : Emitted}
    (hsite : Sites iu extFunc f next e is')
    (hs : emitBlocks iu extFunc f start (withNext f.bbs) = .ok s) :
    ∃ ps e' qs, e = extend start.emission ps ∧ emitInstrs iu extFunc f next e is' = .ok e'
      ∧ s.emission = extend e' qs := by
  obtain ⟨before, b, after, is, js, s₀, hbbs, hs₀, his, he⟩ := hsite
  rw [hbbs, emitBlocks_append, hs₀, ok_bind] at hs
  obtain ⟨s₁, hs₁, hs⟩ := bind_ok.mp hs
  obtain ⟨e₁, he₁, hs₁⟩ := bind_ok.mp hs₁
  rw [his, List.append_assoc, emitInstrs_append, he, ok_bind, emitInstrs_append] at he₁
  obtain ⟨e', he', hrest⟩ := bind_ok.mp he₁
  obtain ⟨ps₀, hps₀⟩ := emitBlocks_pieces hs₀
  obtain ⟨ps₁, rfl⟩ := emitInstrs_pieces he
  obtain ⟨qs₀, rfl⟩ := emitInstrs_pieces hrest
  obtain rfl := Except.ok.inj hs₁
  obtain ⟨qs₁, hqs₁⟩ := emitBlocks_pieces hs
  refine ⟨ps₀ ++ ps₁, e', qs₀ ++ qs₁, ?_, he', ?_⟩
  · rw [hps₀, extend_extend]
  · rw [hqs₁, extend_extend]

theorem Site.pieces {next : Option ℕ} {e : Emission} {i : Instr} {s : Emitted}
    (hsite : Site iu extFunc f next e i)
    (hs : emitBlocks iu extFunc f start (withNext f.bbs) = .ok s) :
    ∃ ps e' qs, e = extend start.emission ps ∧ emitInstr iu extFunc f next e i = .ok e'
      ∧ s.emission = extend e' qs := by
  obtain ⟨before, b, after, is, js, s₀, hbbs, hs₀, his, he⟩ := hsite
  have hsites : Sites iu extFunc f next e [i] :=
    ⟨before, b, after, is, js, s₀, hbbs, hs₀, by rw [his, List.append_assoc]; rfl, he⟩
  obtain ⟨ps, e', qs, hps, he', hqs⟩ := hsites.pieces hs
  rw [emitInstrs, List.foldlM_cons] at he'
  obtain ⟨e₁, he₁, he'⟩ := bind_ok.mp he'
  obtain rfl := Except.ok.inj he'
  exact ⟨ps, _, qs, hps, he₁, hqs⟩

end
end Vmir.EmitFunction
