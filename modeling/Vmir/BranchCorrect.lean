import Vmir.EmitFunction

set_option autoImplicit false

/-!
# Branches go to their blocks

After `branch_fixup` every outcome of a recorded operation leads to the start of its block, as long
as no id was cut to 16 bits on the way.
-/
namespace Vmir.BranchCorrect
open CodePieces Ir VmOps VmControl IrTypes ProgramText EmitCmp EmitBranch BranchFixup BranchPieces
open EmitFunction

/-! ## Where blocks start -/

section
variable {iu : IrUnit} {extFunc : BitVec 32 → Bool} {f : Function}

theorem withNext_split {bbs : List Block} {before after : List (Block × Option ℕ)} {b : Block}
    {next : Option ℕ} (h : withNext bbs = before ++ (b, next) :: after) :
    next = after.head?.map (·.1.id) := by
  induction bbs generalizing before with
  | nil => cases before <;> cases h
  | cons b' bbs ih =>
    cases before with
    | nil =>
      injection h with hb hafter
      obtain ⟨-, rfl⟩ := Prod.mk.inj hb
      rw [← hafter]
      cases bbs <;> rfl
    | cons p before =>
      injection h with _ hrest
      exact ih hrest

theorem withNext_ids (bbs : List Block) : (withNext bbs).map (·.1) = bbs := by
  induction bbs with
  | nil => rfl
  | cons b bbs ih => rw [withNext, List.map_cons, ih]

theorem emitBlocks_offsets {s s' : Emitted} {bbs : List (Block × Option ℕ)}
    (h : emitBlocks iu extFunc f s bbs = .ok s') :
    ∃ offs, s'.offsets = s.offsets ++ offs ∧ offs.map Prod.fst = bbs.map (·.1.id) := by
  induction bbs generalizing s with
  | nil => exact ⟨[], by rw [← Except.ok.inj h, List.append_nil], rfl⟩
  | cons b bbs ih =>
    obtain ⟨s₁, hs₁, h⟩ := bind_ok.mp h
    obtain ⟨e, -, hs₁⟩ := bind_ok.mp hs₁
    obtain ⟨offs, hoffs, hids⟩ := ih h
    rw [← Except.ok.inj hs₁] at hoffs
    refine ⟨(b.1.id, s.emission.text.length) :: offs, ?_, ?_⟩
    · rw [hoffs, List.append_assoc, List.singleton_append]
    · rw [List.map_cons, List.map_cons, hids]

/-- A branch to the block behind it was left out at `pos`. -/
def LeftOut (iu : IrUnit) (extFunc : BitVec 32 → Bool) (f : Function) (pos tb : ℕ) : Prop :=
  ∃ e fb, Site iu extFunc f (some tb) e (.br none tb fb) ∧ pos = e.text.length

theorem LeftOut.layout {s : Emitted} {pos tb : ℕ}
    (hs : emitBlocks iu extFunc f start (withNext f.bbs) = .ok s)
    (h : LeftOut iu extFunc f pos tb) : layoutOf s tb = some pos := by
  obtain ⟨e, fb, ⟨before, b, after, is, js, s₀, hbbs, hs₀, his, he⟩, rfl⟩ := h
  have hbs : f.bbs = before.map (·.1) ++ b :: after.map (·.1) := by
    rw [← withNext_ids f.bbs, hbbs, List.map_append, List.map_cons]
  have hmem : b ∈ f.bbs := by
    rw [hbs]
    exact List.mem_append_right _ (List.mem_cons_self ..)
  -- The branch ends its block.
  have hlast : js = [] := by
    cases js with
    | nil => rfl
    | cons j js =>
      refine absurd rfl (f.brLast b hmem (.br none tb fb) ?_ tb fb)
      rw [his, List.dropLast_append_of_ne_nil (by simp)]
      exact List.mem_append_right _ (List.mem_cons_self ..)
  subst hlast
  cases after with
  | nil => cases withNext_split hbbs
  | cons b' after =>
    have hid : b'.1.id = tb := (Option.some.inj (withNext_split hbbs)).symm
    rw [hbbs, emitBlocks_append, hs₀, ok_bind] at hs
    obtain ⟨s₁, hs₁, hs⟩ := bind_ok.mp hs
    obtain ⟨e₁, he₁, hs₁⟩ := bind_ok.mp hs₁
    rw [his, emitInstrs_append, he, ok_bind] at he₁
    have hskip : emitInstr iu extFunc f (some tb) e (.br none tb fb) = .ok e := by
      rw [emitInstr, emitBr, if_pos rfl]
    rw [emitInstrs, List.foldlM_cons, hskip, ok_bind] at he₁
    obtain rfl : e = e₁ := Except.ok.inj he₁
    obtain rfl := Except.ok.inj hs₁
    obtain ⟨s₂, hs₂, hs⟩ := bind_ok.mp hs
    obtain ⟨e₂, -, hs₂⟩ := bind_ok.mp hs₂
    obtain rfl := Except.ok.inj hs₂
    obtain ⟨offs₀, hoffs₀, hids₀⟩ := emitBlocks_offsets hs₀
    obtain ⟨offs, hoffs, -⟩ := emitBlocks_offsets hs
    -- No block before has the id.
    have hids := f.ids
    rw [hbs, List.map_append, List.map_cons, List.map_map, List.map_cons, List.map_cons] at hids
    have hfresh : tb ∉ before.map (·.1.id) := by
      intro hmem
      refine (List.nodup_append.mp hids).2.2 tb hmem tb ?_ rfl
      rw [hid]
      exact List.mem_cons_of_mem _ (List.mem_cons_self ..)
    have hb : tb ≠ b.id := by
      rintro rfl
      refine (List.nodup_cons.mp (List.nodup_append.mp hids).2.1).1 ?_
      rw [hid]
      exact List.mem_cons_self ..
    have hnone : offs₀.lookup tb = none := by
      rw [List.lookup_eq_none_iff]
      intro p hp
      rw [bne_iff_ne]
      rintro rfl
      refine hfresh ?_
      rw [← hids₀]
      exact List.mem_map.mpr ⟨p, hp, rfl⟩
    have hall : s.offsets = offs₀ ++ (b.id, s₀.emission.text.length)
        :: (tb, e.text.length) :: offs := by
      simp [hoffs, hoffs₀, hid, start]
    rw [layoutOf, hall, List.lookup_append, hnone, Option.none_or, List.lookup_cons,
      beq_eq_false_iff_ne.mpr hb]
    exact List.lookup_cons_self

end

/-! ## Recorded operations -/

/-- Each outcome of the operation at `off` leads to the start of its block. -/
structure Leads (layout : Layout) (T : Text) (off : ℕ) (named : List ℕ) : Prop where
  outcomes : ∃ o js, T[off]? = some (.op o) ∧ slots o (unitsAt T (off + 1)) = .ok js ∧
    ∀ i b : ℕ, named[i]? = some b → ∃ j pc, js[i]? = some j ∧ layout b = some pc
      ∧ target (off + 1) (unitsAt T (off + 1) j) = some pc
  next : ∀ h c f vm, T[off]? = some (.op (.control c)) →
    ∃ b pc, named[outcome c (unitsAt T (off + 1)) f]? = some b ∧ layout b = some pc
      ∧ step h T ⟨off, f, vm⟩ = some ⟨pc, f, vm⟩
  invoke : ∀ c r, T[off]? = some (.op (.call c)) → r < 2 →
    ∃ b pc, named[r]? = some b ∧ layout b = some pc
      ∧ target (off + 1) (invokeBranch (unitsAt T (off + 1)) r) = some pc

section
variable {layout : Layout} {T : Text} {off : ℕ} {o : Opcode} {args args' : List (BitVec 16)}
variable {js named : List ℕ}

theorem toNat_blockUnit (b : ℕ) : (blockUnit b).toNat = b % 65536 := BitVec.toNat_ofNat _ _

theorem slots_resolved (hcode : CodeAt T off (branchingCells o args'))
    (hargs : resolveArgs layout off js args = .ok args')
    (hslots : slots o (operands args) = .ok js) (hlt : ∀ j ∈ js, j < args.length)
    (hn : NamesBlocks o args js named) : slots o (unitsAt T (off + 1)) = .ok js := by
  cases o with
  | straight op => cases hslots
  | leave op => cases hslots
  | call c => cases c <;> exact hslots
  | control c =>
    exact slots_congr hslots (unitsAt_resolved hcode hargs hslots hlt (hn.reads c rfl).1)

theorem leads_iff (hcode : CodeAt T off (branchingCells o args'))
    (hargs : resolveArgs layout off js args = .ok args')
    (hslots : slots o (operands args) = .ok js) (hlt : ∀ j ∈ js, j < args.length)
    (hn : NamesBlocks o args js named) :
    Leads layout T off named
      ↔ named.length ≤ 65536 ∧ ∀ b ∈ named, layout (b % 65536) = layout b := by
  have hhead : T[off]? = some (.op o) := hcode.head
  have hjs := slots_resolved hcode hargs hslots hlt hn
  have hunits := resolveArgs_units (slots_nodup hslots) hlt hargs
  -- What a unit that names a block has become.
  have hunit (j : ℕ) (hj : j ∈ js) : ∃ pc, layout (operands args j).toNat = some pc
      ∧ target (off + 1) (unitsAt T (off + 1) j) = some pc := by
    have hdelta := hunits j
    rw [if_pos hj] at hdelta
    rw [unitsAt_of_codeAt hcode (by rw [resolveArgs_length hargs]; exact hlt j hj)]
    exact bbToOffsetDelta_ok hdelta
  constructor
  · intro hl
    obtain ⟨o', js', ho', hjs', hout⟩ := hl.outcomes
    obtain rfl : o = o' := by
      rw [hhead] at ho'
      exact (Cell.op.inj (Option.some.inj ho'))
    obtain rfl := Except.ok.inj (hjs.symm.trans hjs')
    have hlen : named.length ≤ 65536 := by
      by_contra hlong
      obtain ⟨j, -, hj, -⟩ := hout 65536 named[65536] (List.getElem?_eq_getElem (by omega))
      have := (List.getElem?_eq_some_iff.mp hj).1
      have := hn.count
      omega
    refine ⟨hlen, fun b hb => ?_⟩
    obtain ⟨i, hi⟩ := List.mem_iff_getElem?.mp hb
    obtain ⟨j, pc, hj, hpc, htarget⟩ := hout i b hi
    obtain ⟨pc', hpc', htarget'⟩ := hunit j (List.mem_of_getElem? hj)
    rw [hn.block hlen i b j hi hj, toNat_blockUnit] at hpc'
    rw [hpc', hpc, ← htarget', htarget]
  · rintro ⟨hlen, hsame⟩
    have hcount := hn.length hlen
    have hout (i j : ℕ) (hj : js[i]? = some j) : ∃ b pc, named[i]? = some b ∧ layout b = some pc
        ∧ target (off + 1) (unitsAt T (off + 1) j) = some pc := by
      have hi := (List.getElem?_eq_some_iff.mp hj).1
      have hb : named[i]? = some named[i] := List.getElem?_eq_getElem (by omega)
      obtain ⟨pc, hpc, htarget⟩ := hunit j (List.mem_of_getElem? hj)
      rw [hn.block hlen i _ j hb hj, toNat_blockUnit, hsame _ (List.getElem_mem _)] at hpc
      exact ⟨_, pc, hb, hpc, htarget⟩
    refine ⟨⟨o, js, hhead, hjs, fun i b hb => ?_⟩, ?_, ?_⟩
    · have hi := (List.getElem?_eq_some_iff.mp hb).1
      obtain ⟨b', pc, hb', hpc, htarget⟩ := hout i _ (List.getElem?_eq_getElem (by omega))
      rw [hb] at hb'
      obtain rfl := Option.some.inj hb'
      exact ⟨_, pc, List.getElem?_eq_getElem (by omega), hpc, htarget⟩
    · intro h c f vm hc
      obtain rfl : o = .control c := by
        rw [hhead] at hc
        exact Cell.op.inj (Option.some.inj hc)
      obtain ⟨hreads, hpos⟩ := hn.reads c rfl
      have hsameUnits := unitsAt_resolved hcode hargs hslots hlt hreads
      obtain ⟨j, pc, hj, hpc, hstep⟩ := step_resolved h f vm hcode hargs hslots hlt hreads hpos
      obtain ⟨b, pc', hb, hpc', htarget⟩ := hout _ j hj
      rw [outcome_congr f hslots hsameUnits]
      obtain ⟨pc'', hlow, htarget'⟩ := hunit j (List.mem_of_getElem? hj)
      rw [hpc] at hlow
      obtain rfl : pc = pc' := by
        rw [htarget] at htarget'
        exact (Option.some.inj hlow).trans (Option.some.inj htarget').symm
      exact ⟨b, pc, hb, hpc', hstep⟩
    · intro c r hc hr
      obtain rfl : o = .call c := by
        rw [hhead] at hc
        exact Cell.op.inj (Option.some.inj hc)
      have hjs34 := hn.invoke c rfl
      refine hout r (3 + r) ?_
      rw [hjs34]
      match r, hr with
      | 0, _ => rfl
      | 1, _ => rfl

end

/-! ## The function -/

section
variable (iu : IrUnit) (extFunc : BitVec 32 → Bool) (f : Function)

/-- The branches of the function are finalized, and lead where the instructions say. -/
def BranchesResolve (s : Emitted) : Prop :=
  ∃ T, branchFixup (layoutOf s) s.emission.branchFixups s.emission.text = .ok T
    ∧ (∀ off named, Recorded iu extFunc f off named → Leads (layoutOf s) T off named)
    ∧ ∀ pos tb, LeftOut iu extFunc f pos tb → layoutOf s tb = some pos

/-- All blocks are in reach of the operations that name them. -/
def DeltasFit (s : Emitted) : Prop :=
  ∀ off named, Recorded iu extFunc f off named →
    ∀ b ∈ named, ∃ pc, layoutOf s b = some pc ∧ InReach off pc

/-- No id of a block and no number of paths is changed by being cut to 16 bits. -/
def IdsFit (s : Emitted) : Prop :=
  ∀ off named, Recorded iu extFunc f off named →
    named.length ≤ 65536 ∧ ∀ b ∈ named, layoutOf s (b % 65536) = layoutOf s b

end

section
variable {iu : IrUnit} {extFunc : BitVec 32 → Bool} {f : Function} {s : Emitted}

theorem branchFixup_whole {ps : List Piece} (h : s.emission = extend start.emission ps)
    (layout : Layout) :
    branchFixup layout s.emission.branchFixups s.emission.text = resolveAll layout 0 ps := by
  have hps := branchFixup_codeOf layout [] ps
  rw [h]
  refine hps.trans ?_
  cases resolveAll layout 0 ps <;> rfl

theorem leads_iff_of_recorded {T : Text} {off : ℕ} {named : List ℕ}
    (hs : emitBlocks iu extFunc f start (withNext f.bbs) = .ok s)
    (hT : branchFixup (layoutOf s) s.emission.branchFixups s.emission.text = .ok T)
    (hr : Recorded iu extFunc f off named) :
    Leads (layoutOf s) T off named
      ↔ named.length ≤ 65536 ∧ ∀ b ∈ named, layoutOf s (b % 65536) = layoutOf s b := by
  obtain ⟨next, e, e', i, hsite, he', hoff, rfl⟩ := hr
  obtain ⟨ps, e'', qs, hps, he'', hqs⟩ := hsite.pieces hs
  obtain rfl := Except.ok.inj (he'.symm.trans he'')
  rcases emitInstr_cases he' with ⟨cells, rfl, -⟩ | hshape
  · -- Code without branches records nothing.
    rw [extend, fixupsOf, fixupsOf, Piece.fixups, List.append_nil, List.append_nil] at hoff
    have hlen := congrArg List.length hoff
    rw [List.length_append, List.length_singleton] at hlen
    exact absurd hlen (Nat.succ_ne_self _).symm
  · obtain ⟨cells, o, args, js, hslots, hlt, rfl, hn, hoff'⟩ := shape_recorded hshape
    obtain rfl : off = e.text.length + cells.length := by
      rw [hoff] at hoff'
      exact List.singleton_inj.mp (List.append_cancel_left hoff')
    have hwhole : s.emission = extend start.emission
        ((ps ++ [.plain cells]) ++ .branching o args js hslots hlt :: qs) := by
      rw [hqs, hps, extend_extend, extend_extend]
      simp only [List.append_assoc, List.cons_append, List.nil_append]
    rw [branchFixup_whole hwhole] at hT
    obtain ⟨cs, hcs, hat⟩ := resolveAll_at hT
    have hpos : 0 + (codeOf (ps ++ [.plain cells])).length = e.text.length + cells.length := by
      rw [codeOf_append, List.length_append, hps, extend, List.length_append, codeOf_cons,
        List.length_append]
      simp [start, codeOf, Piece.cells]
    rw [Nat.zero_add] at hcs hpos
    rw [hpos] at hcs
    rw [hpos] at hat
    rw [Piece.resolve] at hcs
    cases hargs : resolveArgs (layoutOf s) (e.text.length + cells.length) js args with
    | error fault =>
      rw [hargs] at hcs
      cases hcs
    | ok args' =>
      rw [hargs] at hcs
      obtain rfl := Except.ok.inj hcs
      exact leads_iff hat hargs (hslots _ fun _ _ => rfl) hlt hn

theorem exists_branchFixup (hs : emitBlocks iu extFunc f start (withNext f.bbs) = .ok s)
    (hfit : DeltasFit iu extFunc f s) (hids : IdsFit iu extFunc f s) :
    ∃ T, branchFixup (layoutOf s) s.emission.branchFixups s.emission.text = .ok T := by
  obtain ⟨ps, hps, hall⟩ := emitBlocks_traced hs
  rw [branchFixup_whole hps]
  refine resolveAll_exists (AllAt.imp (fun pos p hp => ?_) hall)
  cases p with
  | plain cells => exact ⟨cells, rfl⟩
  | branching o args js hslots hlt =>
    obtain ⟨named, hr, hn⟩ := hp
    obtain ⟨hlen, hsame⟩ := hids pos named hr
    obtain ⟨args', hargs⟩ : ∃ args', resolveArgs (layoutOf s) pos js args = .ok args' :=
      resolveArgs_exists (slots_nodup (hslots _ fun _ _ => rfl)) hlt fun j hj => by
        obtain ⟨i, hi⟩ := List.mem_iff_getElem?.mp hj
        have hilt := (List.getElem?_eq_some_iff.mp hi).1
        rw [hn.length hlen] at hilt
        have hb : named[i]? = some named[i] := List.getElem?_eq_getElem hilt
        obtain ⟨pc, hpc, hreach⟩ := hfit pos named hr _ (List.getElem_mem hilt)
        refine bbToOffsetDelta_of_inReach ?_ hreach
        rw [hn.block hlen i _ j hb hi, toNat_blockUnit, hsame _ (List.getElem_mem hilt), hpc]
    exact ⟨branchingCells o args', by rw [Piece.resolve, hargs]; rfl⟩

theorem recorded_mem_fixups {off : ℕ} {named : List ℕ}
    (hs : emitBlocks iu extFunc f start (withNext f.bbs) = .ok s)
    (hr : Recorded iu extFunc f off named) : off ∈ s.emission.branchFixups := by
  obtain ⟨next, e, e', i, hsite, he', hoff, -⟩ := hr
  obtain ⟨ps, e'', qs, -, he'', hqs⟩ := hsite.pieces hs
  obtain rfl := Except.ok.inj (he'.symm.trans he'')
  rw [hqs, extend, hoff]
  exact List.mem_append_left _ (List.mem_append_right _ (List.mem_singleton_self _))

theorem recorded_mem_instrs {off : ℕ} {named : List ℕ} (hr : Recorded iu extFunc f off named) :
    ∃ b ∈ f.bbs, ∃ i ∈ b.instrs, named = blocksOf iu i := by
  obtain ⟨next, e, e', i, ⟨before, b, after, is, js, s, hbbs, -, his, -⟩, -, -, hnamed⟩ := hr
  refine ⟨b, ?_, i, ?_, hnamed⟩
  · rw [← withNext_ids f.bbs, hbbs]
    exact List.mem_map.mpr ⟨_, List.mem_append_right _ (List.mem_cons_self ..), rfl⟩
  · rw [his]
    exact List.mem_append_right _ (List.mem_cons_self ..)

end

/-! ## Ids beyond 16 bits -/

def leaveEmitter (o : LeaveOp) : StraightEmitter where
  emit := fun t => emit t [.op (.leave o)]
  appends := fun h => ⟨_, emit_ok h⟩

def conditionUnit : IrUnit where
  types := [.int1]
  values := [⟨.regframe 8, 0⟩]
  textAlloc := fun _ => 0

def farFunction : Function where
  bbs := [⟨0, [.br (some ⟨0, 0⟩) 1 65537]⟩, ⟨1, [.straight (leaveEmitter .retVoid)]⟩,
    ⟨65537, [.straight (leaveEmitter .unreachable)]⟩]
  regframeSize := 16
  ids := by decide
  brLast := by simp

def farEmitted : Emitted where
  emission := ⟨[.op (.control .bcond), .half 8, .half 1, .half 1, .op (.leave .retVoid),
    .op (.leave .unreachable)], [0]⟩
  offsets := [(0, 0), (1, 4), (65537, 5)]

theorem emitBlocks_far : emitBlocks conditionUnit (fun _ => false) farFunction start
    (withNext farFunction.bbs) = .ok farEmitted := rfl

theorem recorded_far {off : ℕ} {named : List ℕ}
    (hr : Recorded conditionUnit (fun _ => false) farFunction off named) :
    off = 0 ∧ (named = [1, 65537] ∨ named = []) := by
  refine ⟨List.mem_singleton.mp (recorded_mem_fixups emitBlocks_far hr), ?_⟩
  obtain ⟨b, hb, i, hi, rfl⟩ := recorded_mem_instrs hr
  simp only [farFunction, List.mem_cons, List.not_mem_nil, or_false] at hb
  rcases hb with rfl | rfl | rfl
  all_goals obtain rfl := List.mem_singleton.mp hi
  · exact Or.inl rfl
  · exact Or.inr rfl
  · exact Or.inr rfl

theorem deltasFit_far : DeltasFit conditionUnit (fun _ => false) farFunction farEmitted := by
  intro off named hr b hb
  obtain ⟨rfl, rfl | rfl⟩ := recorded_far hr
  · rcases List.mem_pair.mp hb with rfl | rfl
    · exact ⟨4, rfl, by decide, by decide⟩
    · exact ⟨5, rfl, by decide, by decide⟩
  · cases hb

/-- The branch to block 65537 goes to block 1. -/
theorem not_branchesResolve_far :
    emitBlocks conditionUnit (fun _ => false) farFunction start (withNext farFunction.bbs)
        = .ok farEmitted
      ∧ DeltasFit conditionUnit (fun _ => false) farFunction farEmitted
      ∧ ¬ BranchesResolve conditionUnit (fun _ => false) farFunction farEmitted := by
  refine ⟨emitBlocks_far, deltasFit_far, ?_⟩
  rintro ⟨T, hT, hleads, -⟩
  have hr : Recorded conditionUnit (fun _ => false) farFunction 0 [1, 65537] :=
    ⟨some 1, ⟨[], []⟩, _, _, ⟨[], _, _, [], [], start, rfl, rfl, rfl, rfl⟩, rfl, rfl, rfl⟩
  obtain ⟨-, hsame⟩ := (leads_iff_of_recorded emitBlocks_far hT hr).mp (hleads 0 _ hr)
  exact absurd (hsame 65537 (by decide)) (by decide)

theorem branchesResolve_iff {iu : IrUnit} {extFunc : BitVec 32 → Bool} {f : Function} {s : Emitted}
    (hs : emitBlocks iu extFunc f start (withNext f.bbs) = .ok s)
    (hfit : DeltasFit iu extFunc f s) :
    BranchesResolve iu extFunc f s ↔ IdsFit iu extFunc f s := by
  constructor
  · rintro ⟨T, hT, hleads, -⟩ off named hr
    exact (leads_iff_of_recorded hs hT hr).mp (hleads off named hr)
  · intro hids
    obtain ⟨T, hT⟩ := exists_branchFixup hs hfit hids
    exact ⟨T, hT, fun off named hr => (leads_iff_of_recorded hs hT hr).mpr (hids off named hr),
      fun pos tb h => h.layout hs⟩

theorem branchesResolve_iff_far :
    BranchesResolve conditionUnit (fun _ => false) farFunction farEmitted
      ↔ IdsFit conditionUnit (fun _ => false) farFunction farEmitted :=
  branchesResolve_iff emitBlocks_far deltasFit_far

end Vmir.BranchCorrect
