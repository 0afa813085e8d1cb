import Vmir.SwitchRuns
import Mathlib.Data.List.Perm.Subperm

set_option autoImplicit false

/-!
# Switches go to the block of their value

The code of a switch brings the value into reach of its table, and goes on where the unit of the
table says. Between `parse_switch`, `emit_switch` and the operation, 64-bit constants lose their low
bit, the number of paths is cut to 16 bits and a one-bit value is compared as a byte.
-/
namespace Vmir.SwitchDispatch
open ByteStore RegisterProgram CodePieces Ir VmOps VmControl IrTypes ProgramText SwitchTables
open EmitCmp EmitBranch BranchFixup BranchPieces EmitFunction IntegerRegisters SwitchPaths
open SwitchRuns

/-! ## Where control goes -/

/-- A step over an operation that does not branch. -/
def straightStep (h : Host) (T : Text) (s : Cpu) : Option Cpu :=
  match T[s.pc]? with
  | some (.op (.straight _)) => step h T s
  | _ => none

/-- From `start` on, the first operation that branches goes to the block `b`. -/
def TransfersTo (h : Host) (layout : Layout) (T : Text) (start : ℕ) (f : Bytes) (vm : Vm) (b : ℕ) :
    Prop :=
  ∃ m c s, Reaches (straightStep h T) ⟨start, f, vm⟩ m ∧ T[m.pc]? = some (.op (.control c))
    ∧ step h T m = some s ∧ layout b = some s.pc

theorem straightStep_control {h : Host} {T : Text} {s : Cpu} {c : Control}
    (hc : T[s.pc]? = some (.op (.control c))) : straightStep h T s = none := by
  rw [straightStep, hc]

theorem reaches_code (h : Host) {T : Text} {pos : ℕ} {op : Op} {args : List (BitVec 16)}
    (hcode : CodeAt T pos (code op args)) (hlen : args.length = skip op) {f f' : Bytes} {vm : Vm}
    (hexec : exec (body h op (operands args)) f vm = some (f', vm)) :
    Reaches (straightStep h T) ⟨pos, f, vm⟩ ⟨pos + (code op args).length, f', vm⟩ := by
  refine Reaches.single ?_
  rw [straightStep, show T[pos]? = some (.op (.straight op)) from hcode.head]
  simp only
  rw [step_code h hcode hlen (f, vm), hexec]
  rfl

/-! ## Code that dispatches -/

/-- Code without branches, and an operation that then takes the unit `taken f` of its operands. -/
structure DispatchCode (h : Host) (cells : List Cell) (c : Control) (args : List (BitVec 16))
    (js : List ℕ) (taken : Bytes → BitVec 16) : Prop where
  reads : unitCount c (operands args) ≤ args.length
  pos : c = .jumptable → 0 < (operands args 1).toNat
  run : ∀ f : Bytes, ∃ f' : Bytes,
    (∀ vm T pos, CodeAt T pos cells →
      Reaches (straightStep h T) ⟨pos, f, vm⟩ ⟨pos + cells.length, f', vm⟩)
    ∧ ∀ j, js[outcome c (operands args) f']? = some j → operands args j = taken f

/-- Such code is emitted, unless the buffer is full. -/
def Dispatching (h : Host) (e : Emission) (r : Except Fault Emission) (taken : Bytes → BitVec 16) :
    Prop :=
  ∃ cells c args js hslots hlt,
    Emits e r [.plain cells, .branching (.control c) args js hslots hlt]
      ∧ DispatchCode h cells c args js taken

theorem Dispatching.congr {h : Host} {e : Emission} {r : Except Fault Emission}
    {taken taken' : Bytes → BitVec 16} (hd : Dispatching h e r taken)
    (heq : ∀ f, taken f = taken' f) : Dispatching h e r taken' := by
  obtain rfl : taken = taken' := funext heq
  exact hd

theorem dispatching_of_fixup (h : Host) (e : Emission) {c : Control} {args : List (BitVec 16)}
    (js : List ℕ) {taken : Bytes → BitVec 16}
    (hslots : ∀ I : Units, (∀ i < args.length, I i = operands args i) →
      slots (.control c) I = .ok js)
    (hlt : ∀ j ∈ js, j < args.length) (hreads : unitCount c (operands args) ≤ args.length)
    (hpos : c = .jumptable → 0 < (operands args 1).toNat)
    (hunit : ∀ f j, js[outcome c (operands args) f]? = some j → operands args j = taken f) :
    Dispatching h e (emitFixup e (.control c) args) taken :=
  ⟨[], c, args, js, hslots, hlt, emitFixup_emits e hslots hlt, hreads, hpos,
    fun f => ⟨f, fun _ _ _ _ => Reaches.refl _, hunit f⟩⟩

theorem extend_plain_plain (e : Emission) (cells cells' : List Cell) (ps : List Piece) :
    extend e ([.plain cells] ++ .plain cells' :: ps)
      = extend e (.plain (cells ++ cells') :: ps) := by
  have hcode : codeOf ([Piece.plain cells] ++ .plain cells' :: ps)
      = codeOf (.plain (cells ++ cells') :: ps) := by
    rw [codeOf_append, codeOf_cons, codeOf_cons, codeOf_cons, Piece.cells, Piece.cells, Piece.cells,
      List.append_assoc, List.append_assoc]
    rfl
  rw [extend, extend, hcode]
  simp only [List.cons_append, List.nil_append, fixupsOf, Piece.fixups, Piece.cells,
    List.length_append, Nat.add_assoc]

/-- Code in front, which leads from the frame `f` to `g f`. -/
theorem Dispatching.behind {h : Host} {e : Emission} {r : Except Fault Emission}
    {k : Emission → Except Fault Emission} {cells : List Cell} {taken : Bytes → BitVec 16}
    {g : Bytes → Bytes} (hr : Emits e r [.plain cells])
    (hrun : ∀ f vm T pos, CodeAt T pos cells →
      Reaches (straightStep h T) ⟨pos, f, vm⟩ ⟨pos + cells.length, g f, vm⟩)
    (hd : Dispatching h (extend e [.plain cells]) (k (extend e [.plain cells])) taken) :
    Dispatching h e (r >>= k) fun f => taken (g f) := by
  obtain ⟨cells', c, args, js, hslots, hlt, hemits, hcode⟩ := hd
  refine ⟨cells ++ cells', c, args, js, hslots, hlt, ?_, hcode.reads, hcode.pos, fun f => ?_⟩
  · have happ := hr.append hemits
    rw [Emits, extend_plain_plain] at happ
    exact happ
  · obtain ⟨f', hrun', hunit⟩ := hcode.run (g f)
    refine ⟨f', fun vm T pos hat => ?_, hunit⟩
    rw [List.length_append, ← Nat.add_assoc]
    exact (hrun f vm T pos hat.left).trans (hrun' vm T _ hat.right)

/-- The code of `vm_align32`. -/
theorem vmAlign32_emits (e : Emission) (odd : Bool) :
    Emits e (continueWith e (vmAlign32 · odd)) [.plain (padding e.text odd)] := by
  by_cases hpad : (odd != (e.text.length % 2 == 1)) = true
  · refine continueWith_emits e ?_
    rw [vmAlign32, padding]
    simp only [hpad, if_true]
    rfl
  · right
    rw [continueWith, vmAlign32, padding]
    simp only [hpad]
    exact congrArg Except.ok (extend_nil e).symm

theorem reaches_padding (h : Host) {T t : Text} {pos : ℕ} {odd : Bool} {f : Bytes} {vm : Vm}
    (hat : CodeAt T pos (padding t odd)) :
    Reaches (straightStep h T) ⟨pos, f, vm⟩ ⟨pos + (padding t odd).length, f, vm⟩ := by
  unfold padding at hat ⊢
  split at hat
  · next hpad =>
    rw [if_pos hpad]
    exact reaches_code h hat rfl rfl
  · next hpad =>
    rw [if_neg hpad]
    exact Reaches.refl _

section
variable {iu : IrUnit} {extFunc : BitVec 32 → Bool} {f : Function} {s : Emitted} {T : Text}
variable {next : Option ℕ} {e : Emission} {i : EmitFunction.Instr} {taken : Bytes → BitVec 16}

theorem Dispatching.transfersTo_iff {h : Host}
    (hd : Dispatching h e (emitInstr iu extFunc f next e i) taken)
    (hsite : Site iu extFunc f next e i)
    (hs : emitBlocks iu extFunc f start (withNext f.bbs) = .ok s)
    (hT : branchFixup (layoutOf s) s.emission.branchFixups s.emission.text = .ok T)
    (frame : Bytes) (vm : Vm) (b : ℕ) :
    TransfersTo h (layoutOf s) T e.text.length frame vm b
      ↔ layoutOf s (taken frame).toNat = layoutOf s b := by
  obtain ⟨cells, c, args, js, hslots, hlt, hemits, hcode⟩ := hd
  obtain ⟨ps, e', qs, hps, he', hqs⟩ := hsite.pieces hs
  obtain rfl := hemits.eq he'
  have hstart : (codeOf ps).length = e.text.length := by
    rw [hps, extend]
    simp [EmitFunction.start]
  have hwhole : s.emission = extend EmitFunction.start.emission
      (ps ++ .plain cells :: .branching (.control c) args js hslots hlt :: qs) := by
    rw [hqs, hps, extend_extend, extend_extend]
    simp only [List.cons_append, List.nil_append]
  rw [BranchCorrect.branchFixup_whole hwhole] at hT
  obtain ⟨cs, hcs, hplain⟩ := resolveAll_at hT
  obtain rfl := Except.ok.inj hcs
  rw [List.append_cons] at hT
  obtain ⟨cs', hcs', hop⟩ := resolveAll_at hT
  have hpos : (codeOf (ps ++ [.plain cells])).length = e.text.length + cells.length := by
    rw [codeOf_append, List.length_append, hstart]
    simp [codeOf, Piece.cells]
  rw [Nat.zero_add, hpos] at hcs'
  rw [hpos] at hop
  rw [hstart] at hplain
  rw [Piece.resolve] at hcs'
  cases hargs : resolveArgs (layoutOf s) (e.text.length + cells.length) js args with
  | error fault =>
    rw [hargs] at hcs'
    cases hcs'
  | ok args' =>
    rw [hargs] at hcs'
    obtain rfl := Except.ok.inj hcs'
    obtain ⟨f', hrun, hunit⟩ := hcode.run frame
    have hreach := hrun vm T _ hplain
    have hhead : T[e.text.length + cells.length]? = some (.op (.control c)) := hop.head
    obtain ⟨j, pc, hj, hpc, hstep⟩ := step_resolved h f' vm hop hargs (hslots _ fun _ _ => rfl) hlt
      hcode.reads hcode.pos
    rw [hunit j hj] at hpc
    rw [hpc]
    constructor
    · rintro ⟨m, c', s', hm, hc', hs', hb⟩
      obtain rfl := hm.unique hreach (straightStep_control hc') (straightStep_control hhead)
      obtain rfl := Option.some.inj (hstep.symm.trans hs')
      exact hb.symm
    · intro hb
      exact ⟨_, c, _, hreach, hhead, hstep, hb.symm⟩

end

/-! ## The tables -/

section
variable {h : Host} {e : Emission} {reg : BitVec 32} {paths : List SwitchPath} {defblock : ℕ}

/-- A table that is searched for the `b` bits that `view` reads of the frame. -/
theorem dispatching_switchTable {b pos : ℕ} {c : Control} (k : ℕ)
    {g : ℕ → BitVec 64 → List (BitVec 16)} (units : BitVec 64 → List (BitVec 16))
    (entry : Units → ℕ → BitVec b) (view : Bytes → BitVec b)
    (hslots : ∀ I, slots (.control c) I
      = .ok ((List.range ((I 1).toNat + 1)).map (2 + k * (I 1).toNat + ·)))
    (hcount : ∀ I, unitCount c I = 2 + k * (I 1).toNat + ((I 1).toNat + 1))
    (hc : c ≠ .jumptable) (hg : ∀ pos v, (g pos v).length = k) (hn : Narrow b paths) (hb : b ≤ 64)
    (hcut : paths.length < 65536 ∨ 0 < k ∧ ∀ pos, ∀ p ∈ paths, g pos p.v64 = units p.v64)
    (hentry : ∀ i (hi : i < paths.length),
      entry (operands (switchArgs g pos reg paths defblock)) (2 + k * i) = paths[i].v64.setWidth b)
    (houtcome : ∀ I f, I 0 = reg.setWidth 16 →
      outcome c I f = switchOutcome I k (entry I) (view f)) :
    Dispatching h e (emitFixup e (.control c) (switchArgs g pos reg paths defblock))
      fun f => tableUnit k units paths defblock ((view f).setWidth 64) := by
  have hlen := switchArgs_length hg pos reg paths defblock
  have hp : (BitVec.ofNat 16 paths.length).toNat = paths.length % 65536 := BitVec.toNat_ofNat _ _
  have hple := Nat.mod_le paths.length 65536
  have hmul : k * (paths.length % 65536) ≤ k * paths.length := Nat.mul_le_mul_left k hple
  refine dispatching_of_fixup h e ((List.range (paths.length % 65536 + 1)).map
    (2 + k * (paths.length % 65536) + ·)) (fun I hI => ?_) (fun j hj => ?_) ?_
    (fun hjump => absurd hjump hc) fun f j hj => ?_
  · rw [hslots, hI 1 (by omega), switchArgs_one, hp]
  · obtain ⟨i, hi, rfl⟩ := List.mem_map.mp hj
    have := List.mem_range.mp hi
    omega
  · rw [hcount, switchArgs_one, hp]
    omega
  · rw [houtcome _ f rfl] at hj
    exact operands_tableUnit hn hb hg hcut reg defblock hentry (view f) hj

theorem dispatching_switch8 (iu : IrUnit) (hn : Narrow 8 paths) (hlen : paths.length < 65536) :
    Dispatching h e (emitSwitch8 iu e reg paths defblock)
      fun f => blockUnit
        (pathTarget paths defblock (((content f reg).setWidth 8).setWidth 64)) := by
  rw [emitSwitch8_eq]
  refine (dispatching_switchTable (b := 8) 1 units64 (fun I i => (I i).setWidth 8)
    (fun f => (content f reg).setWidth 8) (fun I => by rw [Nat.one_mul]; rfl)
    (fun I => by rw [Nat.one_mul]; rfl) (by decide)
    (fun _ _ => rfl) hn (by decide) (Or.inl hlen)
    (fun i hi => entry8_eq reg paths defblock e.text.length iu hi) fun I f hI => ?_).congr
    fun f => if_pos hlen
  have hout : outcome .switch8Bs I f = switchOutcome I 1 (fun i => (I i).setWidth 8)
    ((read32 f (I 0).toInt).setWidth 8) := rfl
  rw [hout, hI, ← BitVec.setWidth_setWidth_of_le (content f reg) (show 8 ≤ 32 by decide),
    content_setWidth]
  rfl

theorem dispatching_switch32 {mask32 : BitVec 32} (hn : Narrow 32 paths)
    (hmask : ∀ p ∈ paths, (p.v64 &&& mask32.setWidth 64).setWidth 32 = p.v64.setWidth 32) :
    Dispatching h e (emitSwitch32 e reg mask32 paths defblock)
      fun f => tableUnit 2 (fun v => units32 (v.setWidth 32)) paths defblock
        (((content f reg).setWidth 32).setWidth 64) := by
  rw [emitSwitch32_eq]
  refine dispatching_switchTable (b := 32) 2 _ imm32 (fun f => (content f reg).setWidth 32)
    (fun I => rfl) (fun I => rfl) (by decide)
    (fun _ _ => rfl) hn (by decide) (Or.inr ⟨by decide, fun _ p hp => ?_⟩) (fun i hi => ?_)
    fun I f hI => ?_
  · rw [entry32, hmask p hp]
  · rw [entry32_eq reg paths defblock e.text.length mask32 hi, hmask _ (List.getElem_mem hi)]
  · change switchOutcome I 2 _ (read32 f ((I 0).toInt)) = _
    rw [hI, content_setWidth]
    rfl

theorem dispatching_switch64 (hn : Narrow 64 paths) :
    Dispatching h e (emitSwitch64 e reg paths defblock)
      fun f => tableUnit 4 units64 paths defblock (content f reg) := by
  rw [emitSwitch64_eq]
  refine (dispatching_switchTable (b := 64) 4 units64 imm64 (fun f => content f reg)
    (fun I => rfl) (fun I => rfl) (by decide) (fun _ _ => rfl) hn
    (by decide) (Or.inr ⟨by decide, fun _ _ _ => rfl⟩) (fun i hi => ?_) fun I f hI => ?_).congr
    fun f => by rw [BitVec.setWidth_eq]
  · rw [entry64_eq, BitVec.setWidth_eq]
  · change switchOutcome I 4 _ (read64 f ((I 0).toInt)) = _
    rw [hI]
    rfl

theorem jumptable_index {w : ℕ} (hw : w ≤ 8) (x : BitVec 64) :
    (r8 (x.setWidth 32) &&& ((BitVec.ofNat 16 (2 ^ w)).setWidth 32 - 1)).toNat
      = (x.setWidth w).toNat := by
  have hpow : 2 ^ w ≤ 2 ^ 8 := Nat.pow_le_pow_right (by omega) hw
  have hpos := Nat.two_pow_pos w
  have hmask : ((BitVec.ofNat 16 (2 ^ w)).setWidth 32 - 1 : BitVec 32).toNat = 2 ^ w - 1 := by
    rw [BitVec.toNat_sub, BitVec.toNat_setWidth, BitVec.toNat_ofNat]
    change (2 ^ 32 - 1 + 2 ^ w % 2 ^ 16 % 2 ^ 32) % 2 ^ 32 = _
    omega
  have hdvd : 2 ^ w ∣ 2 ^ 8 := Nat.pow_dvd_pow 2 hw
  have hbyte : (r8 (x.setWidth 32)).toNat = x.toNat % 2 ^ 8 := by
    rw [r8, BitVec.setWidth_setWidth_of_le x (by omega), BitVec.toNat_setWidth,
      BitVec.toNat_setWidth]
    omega
  rw [BitVec.toNat_and, hmask, Nat.and_two_pow_sub_one_eq_mod, hbyte, BitVec.toNat_setWidth,
    Nat.mod_mod_of_dvd _ hdvd]

theorem pathBlock_eq {w : ℕ} (hw : w < 64) (hn : Narrow w paths)
    (hnodup : (paths.map SwitchPath.v64).Nodup) (v : BitVec w) :
    pathBlock (tableKey (2 ^ w)) paths defblock v.toNat
      = pathTarget paths defblock (v.setWidth 64) := by
  have hpow : 2 ^ w < 2 ^ 64 := Nat.pow_lt_pow_right (by omega) hw
  have hpos := Nat.two_pow_pos w
  let low : BitVec 64 → ℕ := fun u => (u &&& BitVec.ofNat 64 (2 ^ w - 1)).toNat
  have hlow (u : BitVec 64) : low u = u.toNat % 2 ^ w := by
    simp only [low]
    rw [BitVec.toNat_and, BitVec.toNat_ofNat, Nat.mod_eq_of_lt (show 2 ^ w - 1 < 2 ^ 64 by omega),
      Nat.and_two_pow_sub_one_eq_mod]
  have hkey : (v.setWidth 64).toNat = v.toNat := BitVec.toNat_setWidth_of_le (by omega)
  have hv := v.isLt
  have hsmall {p : SwitchPath} (hp : p ∈ paths) : p.v64.toNat < 2 ^ w := by
    rw [← hn.toNat (by omega) hp]
    exact BitVec.isLt _
  have hlowKey : low (v.setWidth 64) = v.toNat := by rw [hlow, hkey, Nat.mod_eq_of_lt hv]
  have hfirst : pathBlock (tableKey (2 ^ w)) paths defblock v.toNat
      = firstBlock (fun p : SwitchPath => low p.v64) SwitchPath.block paths.reverse defblock
        (low (v.setWidth 64)) := by
    have hfind : paths.reverse.find? (fun p => tableKey (2 ^ w) p == v.toNat)
        = paths.reverse.find? (fun p => low p.v64 == v.toNat) := rfl
    rw [hlowKey, pathBlock, firstBlock, hfind]
    cases paths.reverse.find? fun p => low p.v64 == v.toNat <;> rfl
  rw [hfirst, firstBlock_comp fun p hp heq => ?_, firstBlock_perm paths.reverse_perm hnodup]
  · rfl
  · have hp' := hsmall (List.mem_reverse.mp hp)
    rw [hlow, hlowKey, Nat.mod_eq_of_lt hp'] at heq
    exact BitVec.eq_of_toNat_eq (heq.trans hkey.symm)

/-- A jump table for all values of `w` bits. -/
theorem dispatching_jumptable {w : ℕ} (hw : w ≤ 8) (hn : Narrow w paths)
    (hnodup : (paths.map SwitchPath.v64).Nodup) :
    Dispatching h e (emitJumptable e reg (2 ^ w) paths defblock)
      fun f => blockUnit
        (pathTarget paths defblock (((content f reg).setWidth w).setWidth 64)) := by
  have hpow : 2 ^ w ≤ 2 ^ 8 := Nat.pow_le_pow_right (by omega) hw
  have hpos := Nat.two_pow_pos w
  have hsize : (BitVec.ofNat 16 (2 ^ w)).toNat = 2 ^ w := by
    rw [BitVec.toNat_ofNat]
    omega
  have hblocks : (tableBlocks (2 ^ w) paths defblock).length = 2 ^ w := by
    rw [tableBlocks, List.length_map, List.length_range]
  have hlen : ([reg.setWidth 16, BitVec.ofNat 16 (2 ^ w)]
      ++ (tableBlocks (2 ^ w) paths defblock).map blockUnit).length = 2 + 2 ^ w := by
    rw [List.length_append, List.length_map, hblocks]
    rfl
  have hone : operands ([reg.setWidth 16, BitVec.ofNat 16 (2 ^ w)]
      ++ (tableBlocks (2 ^ w) paths defblock).map blockUnit) 1 = BitVec.ofNat 16 (2 ^ w) := rfl
  have hzero : operands ([reg.setWidth 16, BitVec.ofNat 16 (2 ^ w)]
      ++ (tableBlocks (2 ^ w) paths defblock).map blockUnit) 0 = reg.setWidth 16 := rfl
  rw [emitJumptable_eq]
  refine dispatching_of_fixup h e ((List.range (2 ^ w)).map (2 + ·)) (fun I hI => ?_)
    (fun j hj => ?_) ?_ (fun _ => ?_) fun f j hj => ?_
  · simp only [slots, hI 1 (by omega), hone, hsize]
  · obtain ⟨i, hi, rfl⟩ := List.mem_map.mp hj
    have := List.mem_range.mp hi
    omega
  · rw [unitCount, hone, hsize, hlen]
  · rw [hone, hsize]
    exact hpos
  · have houtcome : outcome .jumptable (operands ([reg.setWidth 16, BitVec.ofNat 16 (2 ^ w)]
        ++ (tableBlocks (2 ^ w) paths defblock).map blockUnit)) f
        = ((content f reg).setWidth w).toNat := by
      rw [← jumptable_index hw, content_setWidth, outcome, VmOps.reg, hzero, hone]
      rfl
    have hi : ((content f reg).setWidth w).toNat < 2 ^ w := BitVec.isLt _
    rw [houtcome, getElem?_range_map _ hi] at hj
    rw [← Option.some.inj hj, operands, List.getD_eq_getElem?_getD,
      List.getElem?_append_right (by simp), List.length_cons, List.length_singleton,
      Nat.add_sub_cancel_left, List.getElem?_map, tableBlocks, List.getElem?_map,
      List.getElem?_range hi]
    exact congrArg blockUnit (pathBlock_eq (by omega) hn hnodup _)

end

/-! ## Switches of the bitcode -/

/-- A switch on the value of `w` bits in a register, and the order of its paths. -/
structure IsSwitch (iu : IrUnit) (w : IntWidth) (value : ValueType) (reg : BitVec 32)
    (args : List (ℕ × ℕ)) (cases : List (Case w.bits)) (sorted : List SwitchPath) : Prop where
  type : typeGet iu value.type = .ok w.type
  register : ∃ iv, valueGet iu value.value = .ok iv ∧ iv.cls = .regframe reg
  records : List.Forall₂ (IsCase iu value.type w) args cases
  distinct : (cases.map Case.constant).Nodup
  parsed : ∃ paths, parseSwitchPaths iu value.type args = .ok paths ∧ SwitchSorted paths sorted

section
variable {iu : IrUnit} {w : IntWidth} {value : ValueType} {reg : BitVec 32} {args : List (ℕ × ℕ)}
variable {cases : List (Case w.bits)} {sorted : List SwitchPath} {defblock : ℕ}

theorem IsSwitch.perm (hsw : IsSwitch iu w value reg args cases sorted) :
    sorted.Perm (cases.map casePath) := by
  obtain ⟨paths, hpaths, hperm, -⟩ := hsw.parsed
  rw [parseSwitchPaths_cases hsw.type hsw.records] at hpaths
  rwa [Except.ok.inj hpaths]

theorem IsSwitch.length (hsw : IsSwitch iu w value reg args cases sorted) :
    sorted.length = cases.length := by
  rw [hsw.perm.length_eq, List.length_map]

theorem IsSwitch.length_le (hsw : IsSwitch iu w value reg args cases sorted) :
    cases.length ≤ 2 ^ w.bits := by
  have hnodup : ((cases.map Case.constant).map BitVec.toNat).Nodup :=
    hsw.distinct.map fun _ _ => BitVec.eq_of_toNat_eq
  have hsub : (cases.map Case.constant).map BitVec.toNat ⊆ List.range (2 ^ w.bits) := by
    intro n hn
    obtain ⟨c, -, rfl⟩ := List.mem_map.mp hn
    exact List.mem_range.mpr c.isLt
  have hle := (List.Nodup.subperm hnodup hsub).length_le
  rwa [List.length_map, List.length_map, List.length_range] at hle

theorem IsSwitch.narrow (hsw : IsSwitch iu w value reg args cases sorted) {b : ℕ}
    (hw : w.bits ≤ b) (hb : b ≤ 64) : Narrow b sorted := by
  obtain ⟨paths, -, -, hsorted⟩ := hsw.parsed
  refine ⟨hsorted, fun p hp => ?_⟩
  obtain ⟨c, -, rfl⟩ := List.mem_map.mp (hsw.perm.mem_iff.mp hp)
  rcases Nat.lt_or_ge w.bits 64 with hlt | hge
  · rw [casePath_v64 hlt]
    apply BitVec.eq_of_toNat_eq
    have hc := c.constant.isLt
    have hpow : 2 ^ w.bits ≤ 2 ^ b := Nat.pow_le_pow_right (by omega) hw
    rw [BitVec.toNat_setWidth_of_le hb, BitVec.toNat_setWidth, BitVec.toNat_setWidth_of_le w.le,
      Nat.mod_eq_of_lt (by omega)]
  · obtain rfl : b = 64 := by omega
    rw [BitVec.setWidth_eq, BitVec.setWidth_eq]

theorem IsSwitch.nodup (hsw : IsSwitch iu w value reg args cases sorted) (hw : w.bits < 64) :
    (sorted.map SwitchPath.v64).Nodup := by
  rw [(hsw.perm.map SwitchPath.v64).nodup_iff, List.map_map]
  have heq : cases.map (SwitchPath.v64 ∘ casePath)
      = (cases.map Case.constant).map (BitVec.setWidth 64) := by
    rw [List.map_map]
    exact List.map_congr_left fun c _ => casePath_v64 hw c
  rw [heq]
  refine hsw.distinct.map fun x y hxy => ?_
  have := congrArg (BitVec.setWidth w.bits) hxy
  rwa [BitVec.setWidth_setWidth_of_le _ w.le, BitVec.setWidth_setWidth_of_le _ w.le,
    BitVec.setWidth_eq, BitVec.setWidth_eq] at this

theorem IsSwitch.pathTarget_eq (hsw : IsSwitch iu w value reg args cases sorted)
    (hw : w.bits < 64) (v : BitVec w.bits) :
    pathTarget sorted defblock (v.setWidth 64) = switchTarget cases defblock v := by
  have hnodup := (hsw.perm.map SwitchPath.v64).nodup_iff.mp (hsw.nodup hw)
  rw [pathTarget, firstBlock_perm hsw.perm hnodup, firstBlock_map]
  have hkeys : (fun c : Case w.bits => (casePath c).v64)
      = fun c => c.constant.setWidth 64 := funext fun c => casePath_v64 hw c
  rw [hkeys]
  refine firstBlock_comp (g := BitVec.setWidth 64) fun c _ heq => ?_
  have := congrArg (BitVec.setWidth w.bits) heq
  rwa [BitVec.setWidth_setWidth_of_le _ w.le, BitVec.setWidth_setWidth_of_le _ w.le,
    BitVec.setWidth_eq, BitVec.setWidth_eq] at this

/-! ## All types -/

def switchKey (w : ℕ) (f : Bytes) (reg : BitVec 32) : BitVec 64 :=
  if w = 1 then ((content f reg).setWidth 8).setWidth 64 else (lowBits w f reg).setWidth 64

/-- The units of a constant of `w` bits in a long table. -/
def constantUnits (w : ℕ) (v : BitVec 64) : List (BitVec 16) :=
  if w = 64 then units64 v else units32 (v.setWidth 32)

/-- The unit that a switch on `w` bits takes. -/
def switchUnit (w : ℕ) (paths : List SwitchPath) (defblock : ℕ) (key : BitVec 64) : BitVec 16 :=
  tableUnit (if w = 64 then 4 else 2) (constantUnits w) paths defblock key

theorem switchUnit_short {w defblock : ℕ} {paths : List SwitchPath} (hlen : paths.length < 65536)
    (key : BitVec 64) :
    switchUnit w paths defblock key = blockUnit (pathTarget paths defblock key) := if_pos hlen

theorem switchUnit_word {w defblock : ℕ} (hw : w ≠ 64) (paths : List SwitchPath) (key : BitVec 64) :
    switchUnit w paths defblock key
      = tableUnit 2 (fun v => units32 (v.setWidth 32)) paths defblock key := by
  have hunits : constantUnits w = fun v => units32 (v.setWidth 32) := funext fun v => if_neg hw
  rw [switchUnit, if_neg hw, hunits]

theorem setWidth_key {w : ℕ} (hw : w ≤ 32) {f : Bytes} {reg : BitVec 32} {v : BitVec 32}
    (hv : v.toNat = (content f reg).toNat % 2 ^ w) :
    v.setWidth 64 = (lowBits w f reg).setWidth 64 := by
  apply BitVec.eq_of_toNat_eq
  rw [BitVec.toNat_setWidth_of_le (by omega), BitVec.toNat_setWidth_of_le (by omega), hv, lowBits,
    BitVec.toNat_setWidth]

theorem content_scratch (f : Bytes) (v : BitVec 32) :
    (content (write32 f (frameOffset 0) v) 0).setWidth 32 = v := by
  rw [content_setWidth, read32_write32_same]

theorem IsSwitch.masked (hsw : IsSwitch iu w value reg args cases sorted) (hw : w.bits ≤ 32)
    {mask32 : BitVec 32} (hmask : mask32.toNat = 2 ^ w.bits - 1) :
    ∀ p ∈ sorted, (p.v64 &&& mask32.setWidth 64).setWidth 32 = p.v64.setWidth 32 := by
  intro p hp
  have hfits := hsw.narrow (le_refl _) (by omega)
  have hlt : p.v64.toNat < 2 ^ w.bits := by
    rw [← hfits.toNat (by omega) hp]
    exact BitVec.isLt _
  congr 1
  apply BitVec.eq_of_toNat_eq
  rw [BitVec.toNat_and, BitVec.toNat_setWidth_of_le (by omega), hmask,
    Nat.and_two_pow_sub_one_eq_mod, Nat.mod_eq_of_lt hlt]

theorem IsSwitch.dispatching (hsw : IsSwitch iu w value reg args cases sorted) (defblock : ℕ)
    (hw : w.bits ≤ 32 ∨ w.bits = 64) (h : Host) (e : Emission) :
    Dispatching h e (emitSwitch iu e value sorted defblock)
      fun f => switchUnit w.bits sorted defblock (switchKey w.bits f reg) := by
  obtain ⟨iv, hiv, hcls⟩ := hsw.register
  have hreg : valueReg iv = .ok reg := by rw [valueReg, hcls]
  have hcount : sorted.length ≤ 2 ^ w.bits := hsw.length.le.trans hsw.length_le
  have htype := hsw.type
  unfold emitSwitch
  rw [hiv, ok_bind, htype, ok_bind, hreg, ok_bind]
  by_cases h1 : w.bits = 1
  · -- A bit is compared as a byte.
    rw [h1] at hcount
    rw [show w.type = .int1 by rw [IntWidth.type, if_pos h1]]
    simp only
    rw [if_neg (by omega)]
    refine (dispatching_switch8 iu (hsw.narrow (by omega) (by omega)) (by omega)).congr fun f => ?_
    rw [switchUnit_short (by omega), switchKey, if_pos h1]
  by_cases h8 : w.bits = 8
  · rw [h8] at hcount
    have hkey (f : Bytes) : switchUnit w.bits sorted defblock (switchKey w.bits f reg)
        = blockUnit (pathTarget sorted defblock (((content f reg).setWidth 8).setWidth 64)) := by
      rw [switchUnit_short (by omega), switchKey, if_neg h1, h8]
      rfl
    rw [show w.type = .int8 by rw [IntWidth.type, if_neg h1, if_pos h8]]
    simp only
    split
    · exact (dispatching_jumptable (w := 8) (le_refl 8) (hsw.narrow (by omega) (by omega))
        (hsw.nodup (by omega))).congr fun f => (hkey f).symm
    · exact (dispatching_switch8 iu (hsw.narrow (by omega) (by omega)) (by omega)).congr
        fun f => (hkey f).symm
  by_cases h16 : w.bits = 16
  · -- The low 16 bits go to the scratch register.
    rw [show w.type = .int16 by rw [IntWidth.type, if_neg h1, if_neg h8, if_pos h16]]
    have hmask : (0xffff : BitVec 32).toNat = 2 ^ w.bits - 1 := by rw [h16]; rfl
    have hcast : Emits e (continueWith e (emitOp2 · .cast16Trunc32 0 reg)) _ :=
      continueWith_emits e (emitOp2_eq e.text _ _ _)
    refine (Dispatching.behind (k := fun e => emitSwitch32 e 0 0xffff sorted defblock)
      (g := fun f => write32 f (frameOffset 0) (r16 (read32 f (frameOffset reg)))) hcast
      (fun f vm T pos hat => reaches_code h hat rfl rfl)
      (dispatching_switch32 (hsw.narrow (by omega) (by omega))
        (hsw.masked (by omega) hmask))).congr fun f => ?_
    rw [switchUnit_word (by omega), switchKey, if_neg h1, content_scratch]
    congr 1
    refine setWidth_key (by omega) ?_
    rw [r16, ← content_setWidth,
      BitVec.setWidth_setWidth_of_le (content f reg) (show 16 ≤ 32 by decide),
      BitVec.toNat_setWidth_of_le (by decide), BitVec.toNat_setWidth, h16]
  by_cases h32 : w.bits = 32
  · have hmask : (0xffffffff : BitVec 32).toNat = 2 ^ w.bits - 1 := by rw [h32]; rfl
    rw [show w.type = .int32 by
      rw [IntWidth.type, if_neg h1, if_neg h8, if_neg h16, if_pos h32]]
    refine (dispatching_switch32 (hsw.narrow (by omega) (by omega))
      (hsw.masked (by omega) hmask)).congr fun f => ?_
    rw [switchUnit_word (by omega), switchKey, if_neg h1, h32]
    rfl
  by_cases h64 : w.bits = 64
  · rw [show w.type = .int64 by
      rw [IntWidth.type, if_neg h1, if_neg h8, if_neg h16, if_neg h32, if_pos h64]]
    have hunits : constantUnits 64 = units64 := funext fun v => if_pos rfl
    refine (Dispatching.behind (k := fun e => emitSwitch64 e reg sorted defblock)
      (g := fun f => f) (vmAlign32_emits e true) (fun f vm T pos hat => reaches_padding h hat)
      (dispatching_switch64 (hsw.narrow (by omega) (by omega)))).congr fun f => ?_
    rw [h64, switchUnit, if_pos rfl, hunits, switchKey, if_neg (by decide), lowBits,
      BitVec.setWidth_eq, BitVec.setWidth_eq]
  · have hlt : w.bits < 32 := by omega
    rw [show w.type = .intx w.bits by
      rw [IntWidth.type, if_neg h1, if_neg h8, if_neg h16, if_neg h32, if_neg h64]]
    simp only
    rw [if_neg (by omega)]
    split
    · next h4 =>
      rw [Nat.one_shiftLeft]
      have hpow : 2 ^ w.bits ≤ 2 ^ 4 := Nat.pow_le_pow_right (by omega) h4
      refine (dispatching_jumptable (show w.bits ≤ 8 by omega) (hsw.narrow (le_refl _) w.le)
        (hsw.nodup (by omega))).congr fun f => ?_
      rw [switchUnit_short (by omega), switchKey, if_neg h1]
      rfl
    · -- The masked value goes to the scratch register.
      have hpow : 2 ^ w.bits ≤ 2 ^ 31 := Nat.pow_le_pow_right (by omega) (by omega)
      have hpos := Nat.two_pow_pos w.bits
      let mask32 := BitVec.ofNat 32 (1 <<< w.bits - 1)
      have hmask : mask32.toNat = 2 ^ w.bits - 1 := by
        rw [BitVec.toNat_ofNat, Nat.one_shiftLeft]
        omega
      refine (Dispatching.behind (k := fun e => emitSwitch32 e 0 mask32 sorted defblock)
        (g := fun f => write32 f (frameOffset 0) (read32 f (frameOffset reg) &&& mask32))
        (continueWith_emits e (emitMask_eq e.text reg mask32))
        (fun f vm T pos hat => reaches_code h hat rfl ?_)
        (dispatching_switch32 (hsw.narrow (by omega) (by omega))
          (hsw.masked (by omega) hmask))).congr fun f => ?_
      · have himm : imm32 (operands ([(0 : BitVec 32).setWidth 16, reg.setWidth 16]
            ++ units32 mask32)) 2 = mask32 := imm32_last [_, _] mask32
        change some (write32 f (frameOffset 0) (read32 f (frameOffset reg) &&& imm32 _ 2), vm) = _
        rw [himm]
      · rw [switchUnit_word (by omega), switchKey, if_neg h1, content_scratch]
        congr 1
        refine setWidth_key (by omega) ?_
        rw [BitVec.toNat_and, hmask, Nat.and_two_pow_sub_one_eq_mod, ← content_setWidth,
          BitVec.toNat_setWidth]
        exact Nat.mod_mod_of_dvd _ (Nat.pow_dvd_pow 2 (by omega))

/-! ## The path of a value -/

/-- Of the cases of 64 bits only the even values can be found, and `v + 1` is taken for `v`. -/
theorem IsSwitch.pathTarget64 {value : ValueType} {args : List (ℕ × ℕ)} {cases : List (Case 64)}
    (hsw : IsSwitch iu i64 value reg args cases sorted) (defblock : ℕ) (v : BitVec 64) :
    (v.toNat % 2 = 1 → pathTarget sorted defblock v = defblock)
      ∧ (v.toNat % 2 = 0 → v + 1 ∉ cases.map Case.constant →
        pathTarget sorted defblock v = switchTarget cases defblock v) := by
  have hpath {p : SwitchPath} (hp : p ∈ sorted) : ∃ c ∈ cases, casePath c = p :=
    List.mem_map.mp (hsw.perm.mem_iff.mp hp)
  have hdistinct : (cases.map Case.constant).Nodup := hsw.distinct
  constructor
  · intro hodd
    refine firstBlock_of_not_mem fun hmem => ?_
    obtain ⟨p, hp, rfl⟩ := List.mem_map.mp hmem
    obtain ⟨c, -, rfl⟩ := hpath hp
    rw [casePath_toNat c] at hodd
    omega
  · intro heven hnext
    -- The cases whose paths have the constant `v`.
    have honly {c : Case 64} (hc : c ∈ cases) (hv : (casePath c).v64 = v) : c.constant = v := by
      have htoNat := congrArg BitVec.toNat hv
      rw [casePath_toNat c] at htoNat
      by_contra hne
      refine hnext (List.mem_map.mpr ⟨c, hc, BitVec.eq_of_toNat_eq ?_⟩)
      have hne' : c.constant.toNat ≠ v.toNat := fun h => hne (BitVec.eq_of_toNat_eq h)
      have hlt := c.constant.isLt
      rw [BitVec.toNat_add]
      change _ = (v.toNat + 1) % 2 ^ 64
      omega
    by_cases hv : v ∈ cases.map Case.constant
    · obtain ⟨c, hc, rfl⟩ := List.mem_map.mp hv
      have hkey : (casePath c).v64 = c.constant := by
        apply BitVec.eq_of_toNat_eq
        rw [casePath_toNat c]
        omega
      have hmem : casePath c ∈ sorted := hsw.perm.mem_iff.mpr (List.mem_map_of_mem hc)
      rw [switchTarget, firstBlock_of_mem hdistinct hc]
      refine firstBlock_eq hmem hkey fun p hp hp' => ?_
      obtain ⟨c', hc', rfl⟩ := hpath hp
      have heq := List.inj_on_of_nodup_map hdistinct hc' hc (honly hc' hp')
      rw [heq]
    · rw [switchTarget, firstBlock_of_not_mem hv]
      refine firstBlock_of_not_mem fun hmem => hv ?_
      obtain ⟨p, hp, hpv⟩ := List.mem_map.mp hmem
      obtain ⟨c, hc, rfl⟩ := hpath hp
      exact List.mem_map.mpr ⟨c, hc, honly hc hpv⟩

theorem IsSwitch.pathTarget1 (hsw : IsSwitch iu w value reg args cases sorted) (hw : w.bits = 1)
    (f : Bytes) :
    pathTarget sorted defblock (switchKey w.bits f reg)
      = if ((content f reg).setWidth 8).toNat ≤ 1
        then switchTarget cases defblock (lowBits w.bits f reg) else defblock := by
  rw [switchKey, if_pos hw]
  split
  · next hle =>
    rw [← hsw.pathTarget_eq (by omega)]
    congr 1
    apply BitVec.eq_of_toNat_eq
    rw [BitVec.toNat_setWidth] at hle
    rw [BitVec.toNat_setWidth_of_le (by omega), BitVec.toNat_setWidth_of_le w.le, lowBits,
      BitVec.toNat_setWidth, BitVec.toNat_setWidth, hw]
    omega
  · next hgt =>
    refine firstBlock_of_not_mem fun hmem => hgt ?_
    obtain ⟨p, hp, hpv⟩ := List.mem_map.mp hmem
    have hn := hsw.narrow (le_refl _) w.le
    have hlt := (p.v64.setWidth w.bits).isLt
    rw [hn.toNat w.le hp, hpv, BitVec.toNat_setWidth_of_le (by omega), hw] at hlt
    omega

end

/-! ## Dispatch -/

section
variable {w : IntWidth}

/-- An instruction that goes to the block `id` gets to the block `b`: the id is cut to 16 bits. -/
def LeadsTo (layout : Layout) (id b : ℕ) : Prop := layout (id % 65536) = layout b

/-- Unit `n` of constants that have `k` units each, the lowest first. -/
def constantPart (k : ℕ) (constants : List (BitVec 64)) (n : ℕ) : ℕ :=
  (constants.getD (n / k) 0).toNat / 2 ^ (16 * (n % k)) % 65536

/-- The id that a switch with 65536 or more cases finds: it searches the first `p` constants only,
and behind these stand other constants instead of ids. -/
def longTarget (w : ℕ) (constants : List (BitVec 64)) (key : BitVec 64) : ℕ :=
  let k := if w = 64 then 4 else 2
  let p := constants.length % 65536
  constantPart k constants (k * p + (constants.take p).idxOf key)

/-- The values for which a switch goes to the block of the value. -/
def SwitchFits (w : IntWidth) (cases : List (Case w.bits)) (sorted : List SwitchPath)
    (defblock : ℕ) (layout : Layout) (f : Bytes) (reg : BitVec 32) : Prop :=
  let v := lowBits w.bits f reg
  let b := switchTarget cases defblock v
  if 65536 ≤ cases.length then
    layout (longTarget w.bits (sorted.map SwitchPath.v64) (v.setWidth 64)) = layout b
  else if w.bits = 64 then
    if v.toNat % 2 = 1 then LeadsTo layout defblock b
    else if v + 1 ∈ cases.map Case.constant then
      LeadsTo layout (pathTarget sorted defblock (v.setWidth 64)) b
    else LeadsTo layout b b
  else if w.bits = 1 ∧ 2 ≤ ((content f reg).setWidth 8).toNat then LeadsTo layout defblock b
  else LeadsTo layout b b

theorem getElem?_flatMap_units {α β : Type} {k : ℕ} {units : α → List β}
    (hunits : ∀ a, (units a).length = k) (hk : 0 < k) (l : List α) (n : ℕ) :
    (l.flatMap units)[n]? = l[n / k]?.bind fun a => (units a)[n % k]? := by
  induction l generalizing n with
  | nil => rfl
  | cons a l ih =>
    rw [List.flatMap_cons, List.getElem?_append, hunits]
    by_cases hn : n < k
    · rw [if_pos hn, Nat.div_eq_of_lt hn, Nat.mod_eq_of_lt hn]
      rfl
    · have hle := Nat.le_of_not_lt hn
      rw [if_neg hn, ih, Nat.div_eq_sub_div hk hle, ← Nat.mod_eq_sub_mod hle,
        List.getElem?_cons_succ]

theorem units32_getElem? {r : ℕ} (hr : r < 2) (v : BitVec 64) :
    (units32 (v.setWidth 32))[r]? = some ((v >>> (16 * r)).setWidth 16) := by
  obtain rfl | rfl : r = 0 ∨ r = 1 := by omega
  · refine congrArg some (BitVec.eq_of_toNat_eq ?_)
    simp only [BitVec.toNat_setWidth, BitVec.toNat_ushiftRight, Nat.shiftRight_eq_div_pow]
    omega
  · refine congrArg some (BitVec.eq_of_toNat_eq ?_)
    simp only [BitVec.toNat_setWidth, BitVec.toNat_ushiftRight, Nat.shiftRight_eq_div_pow]
    omega

theorem units64_getElem? {r : ℕ} (hr : r < 4) (v : BitVec 64) :
    (units64 v)[r]? = some ((v >>> (16 * r)).setWidth 16) := by
  unfold units64
  by_cases hlow : r < 2
  · rw [List.getElem?_append_left hlow, units32_getElem? hlow]
  · obtain ⟨r, rfl⟩ := Nat.exists_eq_add_of_le' (Nat.le_of_not_lt hlow)
    have hhigh : 2 ≤ r + 2 := Nat.le_add_left 2 r
    have hshift : 16 * (r + 2) = 32 + 16 * r := by omega
    rw [List.getElem?_append_right hhigh, hshift, BitVec.shiftRight_add]
    exact units32_getElem? (show r < 2 by omega) _

theorem constantUnits_getElem? (w : ℕ) {r : ℕ} (hr : r < if w = 64 then 4 else 2) (v : BitVec 64) :
    (constantUnits w v)[r]? = some ((v >>> (16 * r)).setWidth 16) := by
  unfold constantUnits
  split at hr
  · next hw => rw [if_pos hw, units64_getElem? hr]
  · next hw => rw [if_neg hw, units32_getElem? hr]

theorem toNat_cutUnit (w : ℕ) (paths : List SwitchPath) (key : BitVec 64) :
    (cutUnit (if w = 64 then 4 else 2) (constantUnits w) paths key).toNat
      = longTarget w (paths.map SwitchPath.v64) key := by
  have hpos : 0 < if w = 64 then 4 else 2 := by split <;> decide
  have hlen : ∀ q : SwitchPath, (constantUnits w q.v64).length = if w = 64 then 4 else 2 := by
    intro q
    unfold constantUnits
    split <;> rfl
  unfold cutUnit longTarget constantPart
  dsimp only
  rw [List.length_map, List.map_take]
  generalize (if w = 64 then 4 else 2) * _ + _ = n
  rw [List.getD_eq_getElem?_getD, List.getD_eq_getElem?_getD, getElem?_flatMap_units hlen hpos,
    List.getElem?_map]
  cases paths[n / if w = 64 then 4 else 2]? with
  | none => rw [Option.map_none, Option.bind_none, Option.getD_none, Option.getD_none]; simp
  | some q =>
    rw [Option.bind_some, Option.map_some, Option.getD_some,
      constantUnits_getElem? w (Nat.mod_lt n hpos), Option.getD_some, BitVec.toNat_setWidth,
      BitVec.toNat_ushiftRight, Nat.shiftRight_eq_div_pow]

theorem toNat_switchUnit {w defblock : ℕ} {paths : List SwitchPath} (hlen : paths.length < 65536)
    (key : BitVec 64) :
    (switchUnit w paths defblock key).toNat = pathTarget paths defblock key % 65536 := by
  rw [switchUnit_short hlen]
  exact BitVec.toNat_ofNat _ _

variable {iu : IrUnit} {value : ValueType} {reg : BitVec 32} {args : List (ℕ × ℕ)}
variable {cases : List (Case w.bits)} {sorted : List SwitchPath} {defblock : ℕ}

theorem IsSwitch.unit_iff (hsw : IsSwitch iu w value reg args cases sorted) (defblock : ℕ)
    (layout : Layout) (f : Bytes) :
    layout (switchUnit w.bits sorted defblock (switchKey w.bits f reg)).toNat
        = layout (switchTarget cases defblock (lowBits w.bits f reg))
      ↔ SwitchFits w cases sorted defblock layout f reg := by
  unfold SwitchFits
  have hlen := hsw.length
  have hcount := hsw.length_le
  by_cases hlong : 65536 ≤ cases.length
  · have h1 : w.bits ≠ 1 := by
      intro h1
      have hpow : 2 ^ w.bits = 2 ^ 1 := congrArg (2 ^ ·) h1
      omega
    simp only [if_pos hlong]
    rw [switchUnit, tableUnit, if_neg (by omega), switchKey, if_neg h1, toNat_cutUnit]
  · simp only [if_neg hlong]
    rw [toNat_switchUnit (by omega)]
    by_cases h64 : w.bits = 64
    · obtain ⟨bits, hpos, hle⟩ := w
      simp only at h64
      subst h64
      obtain ⟨hodd, heven⟩ := hsw.pathTarget64 defblock (lowBits 64 f reg)
      have hkey : switchKey 64 f reg = lowBits 64 f reg := by
        rw [switchKey, if_neg (by decide), BitVec.setWidth_eq]
      simp only [if_true]
      rw [hkey, BitVec.setWidth_eq]
      by_cases hlow : (lowBits 64 f reg).toNat % 2 = 1
      · rw [if_pos hlow, hodd hlow]
        rfl
      · rw [if_neg hlow]
        by_cases hnext : lowBits 64 f reg + 1 ∈ cases.map Case.constant
        · rw [if_pos hnext]
          rfl
        · rw [if_neg hnext, heven (by omega) hnext]
          rfl
    · rw [if_neg h64]
      by_cases h1 : w.bits = 1
      · rw [hsw.pathTarget1 h1]
        by_cases hbyte : ((content f reg).setWidth 8).toNat ≤ 1
        · rw [if_pos hbyte, if_neg (by omega)]
          rfl
        · rw [if_neg hbyte, if_pos ⟨h1, by omega⟩]
          rfl
      · rw [if_neg (by omega), switchKey, if_neg h1, hsw.pathTarget_eq (by have := w.le; omega)]
        rfl

theorem IsSwitch.aborts (hsw : IsSwitch iu w value reg args cases sorted) (defblock : ℕ)
    (hlow : 32 < w.bits) (hhigh : w.bits < 64) (e : Emission) :
    emitSwitch iu e value sorted defblock = .error .abort := by
  obtain ⟨iv, hiv, hcls⟩ := hsw.register
  have hreg : valueReg iv = .ok reg := by rw [valueReg, hcls]
  have htype : w.type = .intx w.bits := by
    rw [IntWidth.type, if_neg (by omega), if_neg (by omega), if_neg (by omega), if_neg (by omega),
      if_neg (by omega)]
  unfold emitSwitch
  rw [hiv, ok_bind, hsw.type, ok_bind, hreg, ok_bind, htype]
  simp only
  rw [if_pos (by omega)]
  rfl

theorem IsSwitch.emitted_iff (hsw : IsSwitch iu w value reg args cases sorted) (defblock : ℕ)
    (h : Host) :
    (∀ e, emitSwitch iu e value sorted defblock ≠ .error .abort)
      ↔ w.bits ≤ 32 ∨ w.bits = 64 := by
  constructor
  · intro hemit
    by_contra hw
    have hle := w.le
    exact hemit ⟨[], []⟩ (hsw.aborts defblock (by omega) (by omega) _)
  · intro hw e habort
    obtain ⟨cells, c, args', js, hslots, hlt, hemits, -⟩ :=
      hsw.dispatching defblock hw h e
    rcases hemits with he | he
    · cases habort.symm.trans he
    · cases habort.symm.trans he

end

/-! ### A switch with an odd constant -/

def oddUnit : IrUnit where
  types := [.int64]
  values := [⟨.regframe 8, 0⟩, ⟨.constant 1, 0⟩]
  textAlloc := fun _ => 0

/-- A switch that goes to block 1 for the value 1, and to block 2 for all others. -/
def oddFunction : Function where
  bbs := [⟨0, [.switch ⟨0, 0⟩ [⟨0, 1⟩] 2]⟩,
    ⟨1, [.straight (BranchCorrect.leaveEmitter .retVoid)]⟩,
    ⟨2, [.straight (BranchCorrect.leaveEmitter .unreachable)]⟩]
  regframeSize := 16
  ids := by decide
  brLast := by simp

def oddEmitted : Emitted where
  emission := ⟨[.op (.straight .nop), .op (.control .switch64Bs), .half 8, .half 1, .half 0,
    .half 0, .half 0, .half 0, .half 1, .half 2, .op (.leave .retVoid),
    .op (.leave .unreachable)], [1]⟩
  offsets := [(0, 0), (1, 10), (2, 11)]

def oddText : Text :=
  [.op (.straight .nop), .op (.control .switch64Bs), .half 8, .half 1, .half 0, .half 0, .half 0,
    .half 0, .half 16, .half 18, .op (.leave .retVoid), .op (.leave .unreachable)]

theorem emitBlocks_odd : emitBlocks oddUnit (fun _ => false) oddFunction start
    (withNext oddFunction.bbs) = .ok oddEmitted := rfl

theorem branchFixup_odd : branchFixup (layoutOf oddEmitted) oddEmitted.emission.branchFixups
    oddEmitted.emission.text = .ok oddText := rfl

theorem site_odd : Site oddUnit (fun _ => false) oddFunction (some 1) ⟨[], []⟩
    (.switch ⟨0, 0⟩ [⟨0, 1⟩] 2) :=
  ⟨[], _, _, [], [], start, rfl, rfl, rfl, rfl⟩

theorem isSwitch_odd : IsSwitch oddUnit i64 ⟨0, 0⟩ 8 [(1, 1)] [⟨1, 1⟩] [⟨0, 1⟩] where
  type := rfl
  register := ⟨_, rfl, rfl⟩
  records := .cons ⟨⟨_, 0, rfl, rfl, rfl⟩, ⟨_, rfl, rfl⟩, rfl⟩ .nil
  distinct := List.nodup_singleton _
  parsed := ⟨_, rfl, List.Perm.refl _, List.pairwise_singleton _ _⟩

def oddFrame : Bytes := fun x => if x = 8 then 1 else 0

theorem lowBits_odd : lowBits 64 oddFrame 8 = 1 := by decide

/-- The value 1 goes to block 2. -/
theorem not_transfersTo_odd :
    IsSwitch oddUnit i64 ⟨0, 0⟩ 8 [(1, 1)] [⟨1, 1⟩] [⟨0, 1⟩]
      ∧ emitBlocks oddUnit (fun _ => false) oddFunction start (withNext oddFunction.bbs)
        = .ok oddEmitted
      ∧ branchFixup (layoutOf oddEmitted) oddEmitted.emission.branchFixups oddEmitted.emission.text
        = .ok oddText
      ∧ Site oddUnit (fun _ => false) oddFunction (some 1) ⟨[], []⟩ (.switch ⟨0, 0⟩ [⟨0, 1⟩] 2)
      ∧ switchTarget [⟨1, 1⟩] 2 (lowBits 64 oddFrame 8) = 1
      ∧ ∀ h vm, ¬ TransfersTo h (layoutOf oddEmitted) oddText 0 oddFrame vm 1 := by
  have htarget : switchTarget [⟨1, 1⟩] 2 (lowBits 64 oddFrame 8) = 1 := by
    rw [lowBits_odd]
    rfl
  refine ⟨isSwitch_odd, emitBlocks_odd, branchFixup_odd, site_odd, htarget, fun h vm htr => ?_⟩
  have hunit := ((isSwitch_odd.dispatching 2 (Or.inr rfl) h _).transfersTo_iff
    (i := .switch ⟨0, 0⟩ [⟨0, 1⟩] 2) site_odd emitBlocks_odd branchFixup_odd oddFrame vm 1).mp htr
  have hfits := (isSwitch_odd.unit_iff 2 (layoutOf oddEmitted) oddFrame).mp
    (hunit.trans (congrArg _ htarget.symm))
  have hodd : (lowBits i64.bits oddFrame 8).toNat % 2 = 1 := congrArg (·.toNat % 2) lowBits_odd
  simp only [SwitchFits] at hfits
  rw [if_neg (by decide), if_pos (show i64.bits = 64 from rfl), if_pos hodd] at hfits
  have hblock : layoutOf oddEmitted 2 = layoutOf oddEmitted 1 :=
    hfits.trans (congrArg _ htarget)
  cases hblock

theorem switchDispatch_iff {iu : IrUnit} {w : IntWidth} {value : ValueType} {reg : BitVec 32}
    {args : List (ℕ × ℕ)} {cases : List (Case w.bits)} {sorted : List SwitchPath}
    (hsw : IsSwitch iu w value reg args cases sorted) (defblock : ℕ) (h : Host) :
    ((∀ e, emitSwitch iu e value sorted defblock ≠ .error .abort)
        ↔ (w.bits ≤ 32 ∨ w.bits = 64))
      ∧ ∀ extFunc f next e s T, Site iu extFunc f next e (.switch value sorted defblock) →
        emitBlocks iu extFunc f start (withNext f.bbs) = .ok s →
        branchFixup (layoutOf s) s.emission.branchFixups s.emission.text = .ok T →
        ∀ frame vm, (TransfersTo h (layoutOf s) T e.text.length frame vm
            (switchTarget cases defblock (lowBits w.bits frame reg))
          ↔ SwitchFits w cases sorted defblock (layoutOf s) frame reg) := by
  refine ⟨hsw.emitted_iff defblock h, fun extFunc f next e s T hsite hs hT frame vm => ?_⟩
  obtain ⟨ps, e', qs, -, he', -⟩ := hsite.pieces hs
  have hw : w.bits ≤ 32 ∨ w.bits = 64 := by
    by_contra hw
    have hle := w.le
    have habort := hsw.aborts defblock (by omega) (by omega) e
    cases habort.symm.trans he'
  have hd := hsw.dispatching defblock hw h e
  rw [hd.transfersTo_iff (i := .switch value sorted defblock) hsite hs hT, hsw.unit_iff]

theorem switchDispatch_iff_odd :
    ((∀ e, emitSwitch oddUnit e ⟨0, 0⟩ [⟨0, 1⟩] 2 ≠ .error .abort)
        ↔ (i64.bits ≤ 32 ∨ i64.bits = 64))
      ∧ ∀ frame vm, (TransfersTo zeroHost (layoutOf oddEmitted) oddText 0 frame vm
          (switchTarget [⟨1, 1⟩] 2 (lowBits 64 frame 8))
        ↔ SwitchFits i64 [⟨1, 1⟩] [⟨0, 1⟩] 2 (layoutOf oddEmitted) frame 8) :=
  have h := switchDispatch_iff isSwitch_odd 2 zeroHost
  ⟨h.1, h.2 _ _ _ _ _ _ site_odd emitBlocks_odd branchFixup_odd⟩

end Vmir.SwitchDispatch
