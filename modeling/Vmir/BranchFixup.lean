import Vmir.ProgramText
import Vmir.SwitchTables

set_option autoImplicit false

/-!
# Finalizing branches

A branching operation is emitted with the ids of its blocks in place of distances. `branch_fixup`
goes through the recorded positions when all blocks are placed.
-/
namespace Vmir.BranchFixup
open ByteStore CodePieces Ir VmOps VmControl ProgramText SwitchTables

/-- `ib_text_offset` of the block that `bb_find` finds, in units. -/
abbrev Layout := ℕ → Option ℕ

def bbToOffsetDelta (layout : Layout) (bbi : BitVec 16) (off : ℕ) : Except Fault (BitVec 16) :=
  match layout bbi.toNat with
  | none => .error .abort
  | some start =>
    let o : ℤ := 2 * start - (2 * off + 2)
    if -2 ^ 15 ≤ o ∧ o < 2 ^ 15 then .ok (BitVec.ofInt 16 o) else .error .abort

/-- The units behind the opcode that name a block. -/
def slots (o : Opcode) (I : Units) : Except Fault (List ℕ) :=
  let p := (I 1).toNat
  match o with
  | .control .b => .ok [0]
  | .control .bcond => .ok [1, 2]
  | .call .invoke | .call .invokeVm | .call .invokeExt | .call .invokeR => .ok [3, 4]
  | .control (.cmpBr8 _) | .control (.cmpBr8C _) | .control (.cmpBr32 _) | .control (.cmpBr32C _) =>
    .ok [0, 1]
  | .control .jumptable => .ok ((List.range p).map (2 + ·))
  | .control .switch8Bs => .ok ((List.range (p + 1)).map (2 + p + ·))
  | .control .switch32Bs => .ok ((List.range (p + 1)).map (2 + 2 * p + ·))
  | .control .switch64Bs => .ok ((List.range (p + 1)).map (2 + 4 * p + ·))
  | _ => .error (.parserError "Bad branch temporary opcode %d")

def fixupUnit (layout : Layout) (off : ℕ) (t : Text) (j : ℕ) : Except Fault Text := do
  let d ← bbToOffsetDelta layout (unitsAt t (off + 1) j) off
  return t.set (off + 1 + j) (.half d)

def fixupOne (layout : Layout) (t : Text) (off : ℕ) : Except Fault Text :=
  match t[off]? with
  | some (.op o) => do
    let js ← slots o (unitsAt t (off + 1))
    js.foldlM (fixupUnit layout off) t
  | _ => .error (.parserError "Bad branch temporary opcode %d")

def branchFixup (layout : Layout) (branchFixups : List ℕ) (t : Text) : Except Fault Text :=
  branchFixups.foldlM (fixupOne layout) t

/-! ## Distances -/

theorem bbToOffsetDelta_ok {layout : Layout} {bbi d : BitVec 16} {off : ℕ}
    (h : bbToOffsetDelta layout bbi off = .ok d) :
    ∃ start, layout bbi.toNat = some start ∧ target (off + 1) d = some start := by
  unfold bbToOffsetDelta at h
  cases hl : layout bbi.toNat with
  | none =>
    rw [hl] at h
    cases h
  | some start =>
    rw [hl] at h
    simp only at h
    split at h
    · next hfit =>
      obtain rfl := Except.ok.inj h
      have hint : (BitVec.ofInt 16 (2 * (start : ℤ) - (2 * off + 2))).toInt
          = 2 * start - (2 * off + 2) := by
        rw [BitVec.toInt_ofInt]
        exact Int.bmod_eq_of_le (by omega) (by omega)
      refine ⟨start, rfl, ?_⟩
      simp only [target]
      rw [hint, if_pos (by push_cast; omega)]
      congr 1
      push_cast
      omega
    · cases h

/-- The distance from the operation at `off` to the unit `start` has 16 bits. -/
def InReach (off start : ℕ) : Prop :=
  -2 ^ 15 ≤ (2 * start - (2 * off + 2) : ℤ) ∧ (2 * start - (2 * off + 2) : ℤ) < 2 ^ 15

theorem bbToOffsetDelta_of_inReach {layout : Layout} {bbi : BitVec 16} {off start : ℕ}
    (hl : layout bbi.toNat = some start) (hfit : InReach off start) :
    ∃ d, bbToOffsetDelta layout bbi off = .ok d := by
  refine ⟨BitVec.ofInt 16 (2 * (start : ℤ) - (2 * off + 2)), ?_⟩
  rw [bbToOffsetDelta, hl]
  exact if_pos hfit

/-! ## One operation -/

def branchingCells (o : Opcode) (args : List (BitVec 16)) : List Cell := .op o :: args.map .half

/-- The operands that take the place of `args`. -/
def resolveArgs (layout : Layout) (off : ℕ) (js : List ℕ) (args : List (BitVec 16)) :
    Except Fault (List (BitVec 16)) :=
  js.foldlM (fun args j => do return args.set j (← bbToOffsetDelta layout (operands args j) off)) args

section
variable {layout : Layout} {o : Opcode} {args : List (BitVec 16)} (t post : Text)

theorem branchingCells_length : (branchingCells o args).length = args.length + 1 := by
  rw [branchingCells, List.length_cons, List.length_map]

theorem unitsAt_branching {j : ℕ} (hj : j < args.length) :
    unitsAt (t ++ branchingCells o args ++ post) (t.length + 1) j = operands args j := by
  have hcell : (t ++ branchingCells o args ++ post)[t.length + 1 + j]? = some (.half args[j]) := by
    rw [show t.length + 1 + j = t.length + (j + 1) by omega,
      codeAt_self t (branchingCells o args) post (j + 1) (by rw [branchingCells_length]; omega),
      branchingCells, List.getElem?_cons_succ, List.getElem?_map, List.getElem?_eq_getElem hj,
      Option.map_some]
  rw [unitsAt, hcell, operands, List.getD_eq_getElem?_getD, List.getElem?_eq_getElem hj]
  rfl

theorem getElem?_branching :
    (t ++ branchingCells o args ++ post)[t.length]? = some (.op o) := by
  have h := codeAt_self t (branchingCells o args) post
  exact h.head

theorem set_branching {j : ℕ} (hj : j < args.length) (d : BitVec 16) :
    (t ++ branchingCells o args ++ post).set (t.length + 1 + j) (.half d)
      = t ++ branchingCells o (args.set j d) ++ post := by
  rw [List.append_assoc, List.set_append_right _ _ (by omega),
    show t.length + 1 + j - t.length = j + 1 by omega,
    List.set_append_left _ _ (by rw [branchingCells_length]; omega), branchingCells,
    List.set_cons_succ, ← List.map_set, ← branchingCells, List.append_assoc]

theorem fixupUnits_branching (js : List ℕ) (hjs : ∀ j ∈ js, j < args.length) :
    js.foldlM (fixupUnit layout t.length) (t ++ branchingCells o args ++ post)
      = (resolveArgs layout t.length js args).map fun args => t ++ branchingCells o args ++ post := by
  induction js generalizing args with
  | nil => rfl
  | cons j js ih =>
    have hj := hjs j (List.mem_cons_self ..)
    rw [List.foldlM_cons, resolveArgs, List.foldlM_cons, fixupUnit, unitsAt_branching t post hj]
    cases bbToOffsetDelta layout (operands args j) t.length with
    | error e => rfl
    | ok d =>
      change List.foldlM _ ((t ++ branchingCells o args ++ post).set _ _) js = _
      rw [set_branching t post hj d]
      exact ih fun i hi => by rw [List.length_set]; exact hjs i (List.mem_cons_of_mem _ hi)

end

theorem resolveArgs_length {layout : Layout} {off : ℕ} {js : List ℕ} {args args' : List (BitVec 16)}
    (h : resolveArgs layout off js args = .ok args') : args'.length = args.length := by
  induction js generalizing args with
  | nil => rw [Except.ok.inj h]
  | cons j js ih =>
    rw [resolveArgs, List.foldlM_cons] at h
    obtain ⟨args₁, h₁, h₂⟩ := bind_ok.mp h
    obtain ⟨d, -, hd⟩ := bind_ok.mp h₁
    rw [ih h₂, ← Except.ok.inj hd, List.length_set]

theorem operands_set {args : List (BitVec 16)} {j : ℕ} (d : BitVec 16) (i : ℕ)
    (hj : j < args.length) : operands (args.set j d) i = if i = j then d else operands args i := by
  rw [operands, operands, List.getD_eq_getElem?_getD, List.getD_eq_getElem?_getD,
    List.getElem?_set]
  by_cases hij : j = i
  · subst hij
    rw [if_pos rfl, if_pos hj, if_pos rfl]
    rfl
  · rw [if_neg hij, if_neg (Ne.symm hij)]

theorem resolveArgs_units {layout : Layout} {off : ℕ} {js : List ℕ} {args args' : List (BitVec 16)}
    (hnodup : js.Nodup) (hjs : ∀ j ∈ js, j < args.length)
    (h : resolveArgs layout off js args = .ok args') (i : ℕ) :
    if i ∈ js then bbToOffsetDelta layout (operands args i) off = .ok (operands args' i)
    else operands args' i = operands args i := by
  induction js generalizing args with
  | nil => rw [if_neg List.not_mem_nil, Except.ok.inj h]
  | cons j js ih =>
    rw [resolveArgs, List.foldlM_cons] at h
    obtain ⟨args₁, h₁, h₂⟩ := bind_ok.mp h
    obtain ⟨d, hd, hset⟩ := bind_ok.mp h₁
    obtain rfl := Except.ok.inj hset
    obtain ⟨hj, hnodup⟩ := List.nodup_cons.mp hnodup
    have hlt := hjs j (List.mem_cons_self ..)
    have hrest := ih hnodup
      (fun i hi => by rw [List.length_set]; exact hjs i (List.mem_cons_of_mem _ hi)) h₂
    simp only [operands_set d i hlt] at hrest
    by_cases hij : i = j
    · subst hij
      rw [if_neg hj, if_pos rfl] at hrest
      rw [if_pos (List.mem_cons_self ..), hrest]
      exact hd
    · rw [if_neg hij] at hrest
      simp only [List.mem_cons, hij, false_or]
      exact hrest

theorem resolveArgs_exists {layout : Layout} {off : ℕ} {js : List ℕ} {args : List (BitVec 16)}
    (hnodup : js.Nodup) (hjs : ∀ j ∈ js, j < args.length)
    (h : ∀ j ∈ js, ∃ d, bbToOffsetDelta layout (operands args j) off = .ok d) :
    ∃ args', resolveArgs layout off js args = .ok args' := by
  induction js generalizing args with
  | nil => exact ⟨args, rfl⟩
  | cons j js ih =>
    obtain ⟨d, hd⟩ := h j (List.mem_cons_self ..)
    obtain ⟨hj, hnodup⟩ := List.nodup_cons.mp hnodup
    have hlt := hjs j (List.mem_cons_self ..)
    obtain ⟨args', hargs⟩ := @ih (args.set j d) hnodup
      (fun i hi => by rw [List.length_set]; exact hjs i (List.mem_cons_of_mem _ hi))
      fun i hi => by
        have hij : i ≠ j := by
          rintro rfl
          exact hj hi
        rw [operands_set d i hlt, if_neg hij]
        exact h i (List.mem_cons_of_mem _ hi)
    refine ⟨args', ?_⟩
    rw [resolveArgs, List.foldlM_cons, hd]
    exact hargs

/-! ## The whole text -/

/-- What the emitter appends: code without branches, or a branching operation whose blocks are
named by operands that it has. -/
inductive Piece
  | plain (cells : List Cell)
  | branching (o : Opcode) (args : List (BitVec 16)) (js : List ℕ)
      (hslots : ∀ I : Units, (∀ i < args.length, I i = operands args i) → slots o I = .ok js)
      (hlt : ∀ j ∈ js, j < args.length)

def Piece.cells (p : Piece) : List Cell :=
  match p with
  | .plain cells => cells
  | .branching o args _ _ _ => branchingCells o args

/-- The positions that `branch_fixup` goes to. -/
def Piece.fixups (pos : ℕ) (p : Piece) : List ℕ :=
  match p with
  | .plain _ => []
  | .branching _ _ _ _ _ => [pos]

/-- What `branch_fixup` makes of the piece at `pos`. -/
def Piece.resolve (layout : Layout) (pos : ℕ) (p : Piece) : Except Fault (List Cell) :=
  match p with
  | .plain cells => .ok cells
  | .branching o args js _ _ => (resolveArgs layout pos js args).map (branchingCells o)

def codeOf (ps : List Piece) : List Cell := ps.flatMap Piece.cells

def fixupsOf (pos : ℕ) (ps : List Piece) : List ℕ :=
  match ps with
  | [] => []
  | p :: ps => p.fixups pos ++ fixupsOf (pos + p.cells.length) ps

def resolveAll (layout : Layout) (pos : ℕ) (ps : List Piece) : Except Fault (List Cell) :=
  match ps with
  | [] => .ok []
  | p :: ps => do
    let cells ← p.resolve layout pos
    return cells ++ (← resolveAll layout (pos + p.cells.length) ps)

theorem codeOf_append (ps qs : List Piece) : codeOf (ps ++ qs) = codeOf ps ++ codeOf qs :=
  List.flatMap_append

theorem codeOf_cons (p : Piece) (ps : List Piece) : codeOf (p :: ps) = p.cells ++ codeOf ps :=
  List.flatMap_cons

theorem fixupsOf_append (pos : ℕ) (ps qs : List Piece) :
    fixupsOf pos (ps ++ qs) = fixupsOf pos ps ++ fixupsOf (pos + (codeOf ps).length) qs := by
  induction ps generalizing pos with
  | nil => rfl
  | cons p ps ih =>
    rw [List.cons_append, fixupsOf, fixupsOf, ih, List.append_assoc, codeOf_cons,
      List.length_append, Nat.add_assoc]

theorem fixupOne_branching {layout : Layout} {o : Opcode} {args : List (BitVec 16)} {js : List ℕ}
    (hslots : ∀ I : Units, (∀ i < args.length, I i = operands args i) → slots o I = .ok js)
    (hlt : ∀ j ∈ js, j < args.length) (t post : Text) :
    fixupOne layout (t ++ branchingCells o args ++ post) t.length
      = (resolveArgs layout t.length js args).map
        fun args => t ++ branchingCells o args ++ post := by
  have hjs := hslots (unitsAt (t ++ branchingCells o args ++ post) (t.length + 1))
    fun i hi => unitsAt_branching t post hi
  rw [fixupOne, getElem?_branching]
  simp only [hjs, ok_bind]
  exact fixupUnits_branching t post js hlt

/-- `branch_fixup` works on each branching operation by itself. -/
theorem branchFixup_codeOf (layout : Layout) (t : Text) (ps : List Piece) :
    branchFixup layout (fixupsOf t.length ps) (t ++ codeOf ps)
      = (resolveAll layout t.length ps).map (t ++ ·) := by
  induction ps generalizing t with
  | nil =>
    rw [codeOf, List.flatMap_nil, List.append_nil]
    exact congrArg Except.ok (List.append_nil t).symm
  | cons p ps ih =>
    rw [codeOf_cons, ← List.append_assoc, fixupsOf, branchFixup,
      List.foldlM_append, resolveAll]
    cases p with
    | plain cells =>
      have hrest := ih (t ++ cells)
      rw [List.length_append] at hrest
      change branchFixup layout _ _ = _
      rw [Piece.cells, hrest, Piece.resolve, ok_bind]
      cases resolveAll layout (t.length + cells.length) ps with
      | error e => rfl
      | ok out => exact congrArg Except.ok (List.append_assoc t cells out)
    | branching o args js hslots hlt =>
      rw [Piece.fixups, Piece.cells, List.foldlM_cons, fixupOne_branching hslots hlt, Piece.resolve]
      cases hargs : resolveArgs layout t.length js args with
      | error e => rfl
      | ok args' =>
        have hrest := ih (t ++ branchingCells o args')
        have hlen : (branchingCells o args').length = (branchingCells o args).length := by
          rw [branchingCells_length, branchingCells_length, resolveArgs_length hargs]
        rw [List.length_append, hlen] at hrest
        change branchFixup layout _ _ = _
        rw [hrest]
        change _ = Except.map _ (Except.ok _ >>= _)
        rw [ok_bind]
        cases resolveAll layout (t.length + (branchingCells o args).length) ps with
        | error e => rfl
        | ok out => exact congrArg Except.ok (List.append_assoc t _ out)

/-! ## Where a branch goes -/

/-- The entry that a `SWITCH*_BS` operation takes. -/
def switchOutcome {w : ℕ} (I : Units) (units : ℕ) (entry : ℕ → BitVec w) (v : BitVec w) : ℕ :=
  (tableIndex (I 1).toNat (fun i => (entry (2 + units * i.toNat)).ult v)
    (fun i => entry (2 + units * i.toNat) == v)).toNat

/-- Which of its blocks an operation goes to: 0 and 1 stand for true and false. -/
def outcome (c : Control) (I : Units) (f : Bytes) : ℕ :=
  match c with
  | .b => 0
  | .bcond => if read32 f (reg I 0) != 0 then 0 else 1
  | .cmpBr8 p =>
    if icmp p ((read32 f (reg I 2)).setWidth 8) ((read32 f (reg I 3)).setWidth 8) then 0 else 1
  | .cmpBr8C p => if icmp p ((read32 f (reg I 2)).setWidth 8) ((I 3).setWidth 8) then 0 else 1
  | .cmpBr32 p => if icmp p (read32 f (reg I 2)) (read32 f (reg I 3)) then 0 else 1
  | .cmpBr32C p => if icmp p (read32 f (reg I 2)) (imm32 I 3) then 0 else 1
  | .jumptable => (r8 (read32 f (reg I 0)) &&& ((I 1).setWidth 32 - 1)).toNat
  | .switch8Bs => switchOutcome I 1 (fun i => (I i).setWidth 8) ((read32 f (reg I 0)).setWidth 8)
  | .switch32Bs => switchOutcome I 2 (imm32 I) (read32 f (reg I 0))
  | .switch64Bs => switchOutcome I 4 (imm64 I) (read64 f (reg I 0))

theorem switchOutcome_le {w : ℕ} (I : Units) (units : ℕ) (entry : ℕ → BitVec w) (v : BitVec w) :
    switchOutcome I units entry v ≤ (I 1).toNat := by
  obtain ⟨n, hn, hle⟩ := tableIndex_range (I 1).toNat
    (fun i => (entry (2 + units * i.toNat)).ult v) (fun i => entry (2 + units * i.toNat) == v)
  rw [switchOutcome, hn, Int.toNat_natCast]
  exact hle

theorem switchOutcome_congr {w : ℕ} {I I' : Units} (units : ℕ) {entry entry' : ℕ → BitVec w}
    (v : BitVec w) (hlen : I' 1 = I 1)
    (hentry : ∀ i < (I 1).toNat, entry' (2 + units * i) = entry (2 + units * i)) :
    switchOutcome I' units entry' v = switchOutcome I units entry v := by
  rw [switchOutcome, switchOutcome, hlen]
  congr 1
  refine tableIndex_congr (fun i hi => ?_) fun i hi => ?_
  · simp only [Int.toNat_natCast, hentry i hi]
  · simp only [Int.toNat_natCast, hentry i hi]

theorem jumptable_index_lt (x : BitVec 32) {n : BitVec 16} (hn : 0 < n.toNat) :
    (x &&& (n.setWidth 32 - 1)).toNat < n.toNat := by
  have hlt := n.isLt
  have hsub : (n.setWidth 32 - 1 : BitVec 32).toNat = n.toNat - 1 := by
    rw [BitVec.toNat_sub, BitVec.toNat_setWidth]
    change (2 ^ 32 - 1 + n.toNat % 2 ^ 32) % 2 ^ 32 = _
    omega
  rw [BitVec.toNat_and, hsub]
  have := Nat.and_le_right (n := x.toNat) (m := n.toNat - 1)
  omega

/-- How many units an operation has behind its opcode. -/
def unitCount (c : Control) (I : Units) : ℕ :=
  let p := (I 1).toNat
  match c with
  | .b => 1
  | .bcond => 3
  | .cmpBr8 _ | .cmpBr8C _ | .cmpBr32 _ => 4
  | .cmpBr32C _ => 5
  | .jumptable => 2 + p
  | .switch8Bs => 2 + p + (p + 1)
  | .switch32Bs => 2 + 2 * p + (p + 1)
  | .switch64Bs => 2 + 4 * p + (p + 1)

theorem same_before {c : Control} {I I' : Units} {js : List ℕ} {a n : ℕ}
    (hsame : ∀ i < unitCount c I, i ∉ js → I' i = I i) (hjs : (List.range n).map (a + ·) = js)
    (ha : a ≤ unitCount c I) {i : ℕ} (hi : i < a) : I' i = I i := by
  refine hsame i (by omega) fun hmem => ?_
  rw [← hjs] at hmem
  obtain ⟨j, -, hj⟩ := List.mem_map.mp hmem
  omega

theorem slots_congr {c : Control} {I I' : Units} {js : List ℕ}
    (hslots : slots (.control c) I = .ok js)
    (hsame : ∀ i < unitCount c I, i ∉ js → I' i = I i) : slots (.control c) I' = .ok js := by
  cases c with
  | b | bcond | cmpBr8 p | cmpBr8C p | cmpBr32 p | cmpBr32C p => exact hslots
  | jumptable | switch8Bs | switch32Bs | switch64Bs =>
    have h1 : I' 1 = I 1 :=
      same_before hsame (Except.ok.inj hslots) (by simp only [unitCount]; omega) (by omega)
    simp only [slots, h1]
    exact hslots

theorem outcome_congr {c : Control} {I I' : Units} {js : List ℕ} (f : Bytes)
    (hslots : slots (.control c) I = .ok js)
    (hsame : ∀ i < unitCount c I, i ∉ js → I' i = I i) : outcome c I' f = outcome c I f := by
  cases c with
  | b => rfl
  | bcond =>
    obtain rfl := Except.ok.inj hslots
    have h0 : I' 0 = I 0 := hsame 0 (by decide : 0 < 3) (by decide)
    rw [outcome, outcome, reg, reg, h0]
  | cmpBr8 p | cmpBr8C p | cmpBr32 p =>
    obtain rfl := Except.ok.inj hslots
    have h2 : I' 2 = I 2 := hsame 2 (by decide : 2 < 4) (by decide)
    have h3 : I' 3 = I 3 := hsame 3 (by decide : 3 < 4) (by decide)
    simp only [outcome, reg, h2, h3]
    rfl
  | cmpBr32C p =>
    obtain rfl := Except.ok.inj hslots
    have h2 : I' 2 = I 2 := hsame 2 (by decide : 2 < 5) (by decide)
    have h3 : I' 3 = I 3 := hsame 3 (by decide : 3 < 5) (by decide)
    have h4 : I' 4 = I 4 := hsame 4 (by decide : 4 < 5) (by decide)
    simp only [outcome, reg, imm32, h2, h3, h4]
    rfl
  | jumptable =>
    have hlow (i : ℕ) (hi : i < 2) : I' i = I i :=
      same_before hsame (Except.ok.inj hslots) (by simp only [unitCount]; omega) hi
    simp only [outcome, reg, hlow 0 (by omega), hlow 1 (by omega)]
  | switch8Bs =>
    have hlow (i : ℕ) (hi : i < 2 + (I 1).toNat) : I' i = I i :=
      same_before hsame (Except.ok.inj hslots) (by simp only [unitCount]; omega) hi
    rw [outcome, outcome, reg, reg, hlow 0 (by omega)]
    exact switchOutcome_congr 1 _ (hlow 1 (by omega)) fun i hi => by rw [hlow _ (by omega)]
  | switch32Bs =>
    have hlow (i : ℕ) (hi : i < 2 + 2 * (I 1).toNat) : I' i = I i :=
      same_before hsame (Except.ok.inj hslots) (by simp only [unitCount]; omega) hi
    rw [outcome, outcome, reg, reg, hlow 0 (by omega)]
    exact switchOutcome_congr 2 _ (hlow 1 (by omega))
      fun i hi => by rw [imm32, imm32, hlow _ (by omega), hlow _ (by omega)]
  | switch64Bs =>
    have hlow (i : ℕ) (hi : i < 2 + 4 * (I 1).toNat) : I' i = I i :=
      same_before hsame (Except.ok.inj hslots) (by simp only [unitCount]; omega) hi
    rw [outcome, outcome, reg, reg, hlow 0 (by omega)]
    exact switchOutcome_congr 4 _ (hlow 1 (by omega)) fun i hi => by
      rw [imm64, imm64, imm32, imm32, imm32, imm32, hlow _ (by omega), hlow _ (by omega),
        hlow _ (by omega), hlow _ (by omega)]

theorem getElem?_range_map (a : ℕ) {i n : ℕ} (hi : i < n) :
    ((List.range n).map (a + ·))[i]? = some (a + i) := by
  rw [List.getElem?_map, List.getElem?_range hi]
  rfl

theorem branch_outcome {c : Control} {I : Units} {js : List ℕ} (f : Bytes)
    (hslots : slots (.control c) I = .ok js) (hpos : c = .jumptable → 0 < (I 1).toNat) :
    ∃ j, js[outcome c I f]? = some j ∧ branch c I f = I j := by
  have hite (a b : ℕ) (t : Bool) :
      ∃ j, [a, b][if t then 0 else 1]? = some j ∧ (if t then I a else I b) = I j := by
    cases t with
    | true => exact ⟨a, rfl, rfl⟩
    | false => exact ⟨b, rfl, rfl⟩
  cases c with
  | b =>
    obtain rfl := Except.ok.inj hslots
    exact ⟨0, rfl, rfl⟩
  | bcond =>
    obtain rfl := Except.ok.inj hslots
    exact hite 1 2 _
  | cmpBr8 p | cmpBr8C p | cmpBr32 p | cmpBr32C p =>
    obtain rfl := Except.ok.inj hslots
    exact hite 0 1 _
  | jumptable =>
    obtain rfl := Except.ok.inj hslots
    exact ⟨_, getElem?_range_map 2 (jumptable_index_lt _ (hpos rfl)), rfl⟩
  | switch8Bs =>
    obtain rfl := Except.ok.inj hslots
    have hle := switchOutcome_le I 1 (fun i => (I i).setWidth 8) ((read32 f (reg I 0)).setWidth 8)
    refine ⟨_, getElem?_range_map _ (Nat.lt_succ_of_le hle), ?_⟩
    simp only [branch, outcome, switchBs, switchOutcome, Nat.one_mul]
  | switch32Bs =>
    obtain rfl := Except.ok.inj hslots
    exact ⟨_, getElem?_range_map _ (Nat.lt_succ_of_le (switchOutcome_le I 2 _ _)), rfl⟩
  | switch64Bs =>
    obtain rfl := Except.ok.inj hslots
    exact ⟨_, getElem?_range_map _ (Nat.lt_succ_of_le (switchOutcome_le I 4 _ _)), rfl⟩

theorem slots_nodup {o : Opcode} {I : Units} {js : List ℕ} (h : slots o I = .ok js) :
    js.Nodup := by
  have hrange (a n : ℕ) : ((List.range n).map (a + ·)).Nodup :=
    List.Nodup.map (fun _ _ h => Nat.add_left_cancel h) List.nodup_range
  unfold slots at h
  split at h
  all_goals first
    | (obtain rfl := Except.ok.inj h
       first
       | decide
       | exact hrange _ _)
    | cases h

section
variable {layout : Layout} {pos : ℕ} {args args' : List (BitVec 16)} {js : List ℕ} {T : Text}

theorem unitsAt_of_codeAt {o : Opcode} (hcode : CodeAt T pos (branchingCells o args)) {i : ℕ}
    (hi : i < args.length) : unitsAt T (pos + 1) i = operands args i := by
  have hcell := hcode.tail i (by rw [List.length_map]; exact hi)
  rw [List.getElem?_map, List.getElem?_eq_getElem hi] at hcell
  rw [unitsAt, hcell, operands, List.getD_eq_getElem?_getD, List.getElem?_eq_getElem hi]
  rfl

/-- The units that name no block are as they were emitted. -/
theorem unitsAt_resolved {c : Control} (hcode : CodeAt T pos (branchingCells (.control c) args'))
    (hargs : resolveArgs layout pos js args = .ok args')
    (hslots : slots (.control c) (operands args) = .ok js) (hlt : ∀ j ∈ js, j < args.length)
    (hcount : unitCount c (operands args) ≤ args.length) :
    ∀ i < unitCount c (operands args), i ∉ js → unitsAt T (pos + 1) i = operands args i := by
  intro i hi hmem
  have hunit := resolveArgs_units (slots_nodup hslots) hlt hargs i
  rw [if_neg hmem] at hunit
  have hlen := resolveArgs_length hargs
  rw [unitsAt_of_codeAt hcode (by omega), hunit]

theorem step_resolved {c : Control} (h : VmOps.Host) (f : Bytes) (vm : Vm)
    (hcode : CodeAt T pos (branchingCells (.control c) args'))
    (hargs : resolveArgs layout pos js args = .ok args')
    (hslots : slots (.control c) (operands args) = .ok js) (hlt : ∀ j ∈ js, j < args.length)
    (hcount : unitCount c (operands args) ≤ args.length)
    (hpos : c = .jumptable → 0 < (operands args 1).toNat) :
    ∃ j start, js[outcome c (operands args) f]? = some j
      ∧ layout (operands args j).toNat = some start
      ∧ step h T ⟨pos, f, vm⟩ = some ⟨start, f, vm⟩ := by
  have hunits := resolveArgs_units (slots_nodup hslots) hlt hargs
  have hlen := resolveArgs_length hargs
  have hsame := unitsAt_resolved hcode hargs hslots hlt hcount
  have hslots' := slots_congr hslots hsame
  have hone : c = .jumptable → unitsAt T (pos + 1) 1 = operands args 1 := by
    rintro rfl
    exact same_before hsame (Except.ok.inj hslots) (by simp only [unitCount]; omega) (by omega)
  obtain ⟨j, hj, htaken⟩ := branch_outcome f hslots' fun hc => (hone hc).symm ▸ hpos hc
  rw [outcome_congr f hslots hsame] at hj
  have hmem := List.mem_of_getElem? hj
  have hdelta := hunits j
  rw [if_pos hmem] at hdelta
  obtain ⟨start, hstart, htarget⟩ := bbToOffsetDelta_ok hdelta
  refine ⟨j, start, hj, hstart, ?_⟩
  rw [step]
  simp only [show T[pos]? = some (Cell.op (.control c)) from hcode.head, htaken,
    unitsAt_of_codeAt hcode (show j < args'.length by have := hlt j hmem; omega), htarget,
    Option.map_some]

theorem invoke_resolved {o : CallOp} {r : ℕ}
    (hcode : CodeAt T pos (branchingCells (.call o) args'))
    (hargs : resolveArgs layout pos js args = .ok args')
    (hslots : slots (.call o) (operands args) = .ok js) (hlt : ∀ j ∈ js, j < args.length)
    (hr : 3 + r ∈ js) :
    ∃ start, layout (invokeBranch (operands args) r).toNat = some start
      ∧ target (pos + 1) (invokeBranch (unitsAt T (pos + 1)) r) = some start := by
  have hdelta := resolveArgs_units (slots_nodup hslots) hlt hargs (3 + r)
  rw [if_pos hr] at hdelta
  obtain ⟨start, hstart, htarget⟩ := bbToOffsetDelta_ok hdelta
  refine ⟨start, hstart, ?_⟩
  rw [invokeBranch, unitsAt_of_codeAt hcode (by have := hlt _ hr; have := resolveArgs_length hargs; omega)]
  exact htarget

end

/-! ## An operation in its text -/

theorem Piece.resolve_length {layout : Layout} {pos : ℕ} {p : Piece} {cells : List Cell}
    (h : p.resolve layout pos = .ok cells) : cells.length = p.cells.length := by
  cases p with
  | plain l => rw [← Except.ok.inj h, Piece.cells]
  | branching o args js hslots hlt =>
    rw [Piece.resolve] at h
    cases hargs : resolveArgs layout pos js args with
    | error e =>
      rw [hargs] at h
      cases h
    | ok args' =>
      rw [hargs] at h
      rw [← Except.ok.inj h, Piece.cells, branchingCells_length, branchingCells_length,
        resolveArgs_length hargs]

theorem resolveAll_at {layout : Layout} {pos : ℕ} {ps qs : List Piece} {p : Piece}
    {cells : List Cell} (h : resolveAll layout pos (ps ++ p :: qs) = .ok cells) :
    ∃ cs, p.resolve layout (pos + (codeOf ps).length) = .ok cs
      ∧ CodeAt cells (codeOf ps).length cs := by
  induction ps generalizing pos cells with
  | nil =>
    rw [List.nil_append, resolveAll] at h
    obtain ⟨cs, hcs, h⟩ := bind_ok.mp h
    obtain ⟨ds, hds, h⟩ := bind_ok.mp h
    refine ⟨cs, hcs, ?_⟩
    rw [← Except.ok.inj h]
    have := codeAt_self [] cs ds
    exact this
  | cons p' ps ih =>
    rw [List.cons_append, resolveAll] at h
    obtain ⟨cs', hcs', h⟩ := bind_ok.mp h
    obtain ⟨ds, hds, h⟩ := bind_ok.mp h
    obtain ⟨cs, hcs, hat⟩ := ih hds
    refine ⟨cs, by rw [codeOf_cons, List.length_append, ← Nat.add_assoc]; exact hcs, ?_⟩
    rw [← Except.ok.inj h, codeOf_cons, List.length_append, ← Piece.resolve_length hcs']
    exact hat.behind cs'

/-- Every piece has the property where it stands. -/
def AllAt (P : ℕ → Piece → Prop) (pos : ℕ) (ps : List Piece) : Prop :=
  match ps with
  | [] => True
  | p :: ps => P pos p ∧ AllAt P (pos + p.cells.length) ps

theorem allAt_append {P : ℕ → Piece → Prop} {pos : ℕ} {ps qs : List Piece} :
    AllAt P pos (ps ++ qs) ↔ AllAt P pos ps ∧ AllAt P (pos + (codeOf ps).length) qs := by
  induction ps generalizing pos with
  | nil => exact ⟨fun h => ⟨trivial, h⟩, fun h => h.2⟩
  | cons p ps ih =>
    rw [List.cons_append, AllAt, AllAt, ih, codeOf_cons, List.length_append, Nat.add_assoc, and_assoc]

theorem AllAt.imp {P Q : ℕ → Piece → Prop} (h : ∀ pos p, P pos p → Q pos p) {pos : ℕ}
    {ps : List Piece} (hall : AllAt P pos ps) : AllAt Q pos ps := by
  induction ps generalizing pos with
  | nil => trivial
  | cons p ps ih => exact ⟨h pos p hall.1, ih hall.2⟩

theorem resolveAll_exists {layout : Layout} {pos : ℕ} {ps : List Piece}
    (h : AllAt (fun pos p => ∃ cs, p.resolve layout pos = .ok cs) pos ps) :
    ∃ cells, resolveAll layout pos ps = .ok cells := by
  induction ps generalizing pos with
  | nil => exact ⟨[], rfl⟩
  | cons p ps ih =>
    obtain ⟨⟨cs, hcs⟩, hrest⟩ := h
    obtain ⟨ds, hds⟩ := ih hrest
    refine ⟨cs ++ ds, ?_⟩
    rw [resolveAll, hcs, ok_bind, hds]
    rfl

end Vmir.BranchFixup
