import Vmir.BranchCorrect
import Vmir.SwitchPaths

set_option autoImplicit false

/-!
# Which unit a switch takes

The search in a table that was emitted finds the path with the value. The unit that is then read as
a distance is the one of its block, as long as the number of paths has 16 bits.
-/
namespace Vmir.SwitchRuns
open ByteStore RegisterProgram CodePieces Ir VmOps VmControl IrTypes ProgramText SwitchTables
open EmitCmp EmitBranch BranchFixup BranchPieces EmitFunction IntegerRegisters SwitchPaths

/-! ## The constants of a table -/

section
variable {g : ℕ → BitVec 64 → List (BitVec 16)} {k : ℕ}

theorem tableEntries_append (pos : ℕ) (ps qs : List SwitchPath) :
    tableEntries g pos (ps ++ qs)
      = tableEntries g pos ps ++ tableEntries g (pos + (tableEntries g pos ps).length) qs := by
  induction ps generalizing pos with
  | nil => rfl
  | cons p ps ih =>
    rw [List.cons_append, tableEntries, tableEntries, ih, List.append_assoc, List.length_append,
      Nat.add_assoc]

/-- The units of the entry `i` of a table, with what stands around them. -/
theorem switchArgs_entry (hg : ∀ pos v, (g pos v).length = k) (pos : ℕ) (reg : BitVec 32)
    (paths : List SwitchPath) (defblock : ℕ) {i : ℕ} (hi : i < paths.length) :
    ∃ pre pos' post, switchArgs g pos reg paths defblock = pre ++ (g pos' paths[i].v64 ++ post)
      ∧ pre.length = 2 + k * i := by
  have hsplit : paths = paths.take i ++ paths[i] :: paths.drop (i + 1) := by
    rw [List.getElem_cons_drop, List.take_append_drop]
  have hentries := tableEntries_append (g := g) (pos + 3) (paths.take i)
    (paths[i] :: paths.drop (i + 1))
  rw [← hsplit, tableEntries] at hentries
  let here := pos + 3 + (tableEntries g (pos + 3) (paths.take i)).length
  refine ⟨[reg.setWidth 16, BitVec.ofNat 16 paths.length] ++ tableEntries g (pos + 3)
    (paths.take i), here,
    tableEntries g (here + (g here paths[i].v64).length) (paths.drop (i + 1))
      ++ ((paths.map fun p => blockUnit p.block) ++ [blockUnit defblock]), ?_, ?_⟩
  · rw [switchArgs, hentries]
    simp only [List.append_assoc, here]
  · rw [List.length_append, tableEntries_length hg, List.length_take_of_le hi.le]
    rfl

theorem operands_pre (pre us post : List (BitVec 16)) {j : ℕ} (hj : j < us.length) :
    operands (pre ++ (us ++ post)) (pre.length + j) = us[j] := by
  rw [operands, List.getD_eq_getElem?_getD, List.getElem?_append_right (Nat.le_add_right _ _),
    Nat.add_sub_cancel_left, List.getElem?_append_left hj, List.getElem?_eq_getElem hj]
  rfl

end

section
variable (reg : BitVec 32) (paths : List SwitchPath) (defblock pos : ℕ) {i : ℕ}

theorem entry8_eq (iu : IrUnit) (hi : i < paths.length) :
    (operands (switchArgs (entry8 iu) pos reg paths defblock) (2 + 1 * i)).setWidth 8
      = paths[i].v64.setWidth 8 := by
  obtain ⟨pre, pos', post, hargs, hpre⟩ :=
    switchArgs_entry (g := entry8 iu) (k := 1) (fun _ _ => rfl) pos reg paths defblock hi
  have hunit := operands_pre pre (entry8 iu pos' paths[i].v64) post (j := 0) Nat.one_pos
  rw [Nat.add_zero] at hunit
  rw [hargs, ← hpre, hunit]
  exact BitVec.setWidth_append_eq_right

theorem entry32_eq (mask32 : BitVec 32) (hi : i < paths.length) :
    imm32 (operands (switchArgs (fun _ => entry32 mask32) pos reg paths defblock)) (2 + 2 * i)
      = (paths[i].v64 &&& mask32.setWidth 64).setWidth 32 := by
  obtain ⟨pre, pos', post, hargs, hpre⟩ := switchArgs_entry (g := fun _ => entry32 mask32) (k := 2)
    (fun _ _ => rfl) pos reg paths defblock hi
  rw [hargs, ← hpre]
  exact imm32_operands pre post _

theorem entry64_eq (hi : i < paths.length) :
    imm64 (operands (switchArgs (fun _ => units64) pos reg paths defblock)) (2 + 4 * i)
      = paths[i].v64 := by
  obtain ⟨pre, pos', post, hargs, hpre⟩ := switchArgs_entry (g := fun _ => units64) (k := 4)
    (fun _ _ => rfl) pos reg paths defblock hi
  rw [hargs, ← hpre]
  exact imm64_operands pre post _

end

/-! ## The search -/

theorem switchOutcome_eq {w : ℕ} {I : Units} {units : ℕ} {entry : ℕ → BitVec w}
    {es : List (BitVec w)} (hs : Sorted es) (hlen : I 1 = BitVec.ofNat 16 es.length)
    (hentry : ∀ i (hi : i < es.length), entry (2 + units * i) = es[i]) (v : BitVec w) :
    switchOutcome I units entry v = (es.take (es.length % 65536)).idxOf v := by
  have hp : (I 1).toNat = es.length % 65536 := by rw [hlen, BitVec.toNat_ofNat]
  have hple := Nat.mod_le es.length 65536
  have hcut : (es.take (es.length % 65536)).length = es.length % 65536 :=
    List.length_take_of_le hple
  have hget (i : ℕ) (hi : i < es.length % 65536) :
      (es.take (es.length % 65536)).getD i 0 = entry (2 + units * i) := by
    rw [hentry i (by omega), List.getD_eq_getElem?_getD, List.getElem?_take_of_lt hi,
      List.getElem?_eq_getElem (by omega)]
    rfl
  have hsorted : Sorted (es.take (es.length % 65536)) := hs.sublist (List.take_sublist _ _)
  have hsearch := tableIndex_eq_idxOf hsorted v
  rw [hcut] at hsearch
  rw [switchOutcome, hp]
  have hcongr : tableIndex (es.length % 65536) (fun i => (entry (2 + units * i.toNat)).ult v)
      (fun i => entry (2 + units * i.toNat) == v)
      = tableIndex (es.length % 65536)
        (fun i => ((es.take (es.length % 65536)).getD i.toNat 0).ult v)
        (fun i => (es.take (es.length % 65536)).getD i.toNat 0 == v) := by
    refine tableIndex_congr (fun i hi => ?_) fun i hi => ?_
    · simp only [Int.toNat_natCast, hget i hi]
    · simp only [Int.toNat_natCast, hget i hi]
  rw [hcongr, hsearch, Int.toNat_natCast]

/-! ## The unit that is taken -/

/-- The unit at which the search in the first `n mod 65536` of `n` paths ends, when its units are
those of constants: each has `size` of them. -/
def cutUnit (size : ℕ) (units : BitVec 64 → List (BitVec 16)) (paths : List SwitchPath)
    (key : BitVec 64) : BitVec 16 :=
  let p := paths.length % 65536
  (paths.flatMap fun q => units q.v64).getD
    (size * p + ((paths.take p).map SwitchPath.v64).idxOf key) 0

/-- The unit that a table takes for the constant `key`. -/
def tableUnit (size : ℕ) (units : BitVec 64 → List (BitVec 16)) (paths : List SwitchPath)
    (defblock : ℕ) (key : BitVec 64) : BitVec 16 :=
  if paths.length < 65536 then blockUnit (pathTarget paths defblock key)
  else cutUnit size units paths key

section
variable {g : ℕ → BitVec 64 → List (BitVec 16)} {units : BitVec 64 → List (BitVec 16)} {k : ℕ}

theorem tableEntries_const (pos : ℕ) (paths : List SwitchPath)
    (hsame : ∀ pos, ∀ p ∈ paths, g pos p.v64 = units p.v64) :
    tableEntries g pos paths = paths.flatMap fun q => units q.v64 := by
  induction paths generalizing pos with
  | nil => rfl
  | cons p ps ih =>
    rw [tableEntries, ih _ fun pos q hq => hsame pos q (List.mem_cons_of_mem _ hq),
      hsame _ p (List.mem_cons_self ..), List.flatMap_cons]

theorem operands_cut (hk : 0 < k) (hg : ∀ pos v, (g pos v).length = k) (pos : ℕ)
    (reg : BitVec 32) (paths : List SwitchPath) (defblock : ℕ)
    (hsame : ∀ pos, ∀ p ∈ paths, g pos p.v64 = units p.v64) (hlong : 65536 ≤ paths.length)
    {i : ℕ} (hi : i ≤ paths.length % 65536) :
    operands (switchArgs g pos reg paths defblock) (2 + k * (paths.length % 65536) + i)
      = (paths.flatMap fun q => units q.v64).getD (k * (paths.length % 65536) + i) 0 := by
  have hlt : k * (paths.length % 65536) + i < k * paths.length := by
    have hp := Nat.mod_lt paths.length (show 65536 > 0 by omega)
    have hsum : paths.length % 65536 + 65536 ≤ paths.length := by omega
    have hmul := Nat.mul_le_mul_left k hsum
    rw [Nat.mul_add] at hmul
    have : 65536 ≤ k * 65536 := Nat.le_mul_of_pos_left _ hk
    omega
  have hlen := tableEntries_length hg (pos + 3) paths
  rw [operands, List.getD_eq_getElem?_getD, switchArgs, List.append_assoc,
    List.getElem?_append_right (by rw [List.length_cons, List.length_singleton]; omega),
    List.length_cons, List.length_singleton,
    show 2 + k * (paths.length % 65536) + i - (1 + 1) = k * (paths.length % 65536) + i by omega,
    List.getElem?_append_left (by omega), tableEntries_const _ _ hsame,
    List.getD_eq_getElem?_getD]

end

/-! ## Switch operations -/

/-- The paths are sorted, and their constants have `b` bits. -/
structure Narrow (b : ℕ) (paths : List SwitchPath) : Prop where
  sorted : paths.Pairwise fun p q => p.v64.toNat ≤ q.v64.toNat
  fits : ∀ p ∈ paths, (p.v64.setWidth b).setWidth 64 = p.v64

section
variable {b : ℕ} {paths : List SwitchPath}

theorem Narrow.toNat (h : Narrow b paths) (hb : b ≤ 64) {p : SwitchPath} (hp : p ∈ paths) :
    (p.v64.setWidth b).toNat = p.v64.toNat := by
  have heq := congrArg BitVec.toNat (h.fits p hp)
  rwa [BitVec.toNat_setWidth_of_le hb] at heq

theorem Narrow.entries (h : Narrow b paths) (hb : b ≤ 64) :
    Sorted (paths.map fun p => p.v64.setWidth b) := by
  refine List.pairwise_map.mpr ?_
  refine List.Pairwise.imp_of_mem ?_ h.sorted
  intro p q hp hq hle
  rwa [h.toNat hb hp, h.toNat hb hq]

theorem Narrow.idxOf (h : Narrow b paths) (hb : b ≤ 64) (l : List SwitchPath)
    (hl : ∀ p ∈ l, p ∈ paths) (v : BitVec b) :
    (l.map fun p => p.v64.setWidth b).idxOf v
      = (l.map SwitchPath.v64).idxOf (v.setWidth 64) := by
  induction l with
  | nil => rfl
  | cons p l ih =>
    have hrest := ih fun q hq => hl q (List.mem_cons_of_mem _ hq)
    have hfits := h.fits p (hl p (List.mem_cons_self ..))
    rw [List.map_cons, List.map_cons]
    by_cases hp : p.v64.setWidth b = v
    · rw [List.idxOf_cons_eq _ hp, List.idxOf_cons_eq _ (by rw [← hfits, hp])]
    · have hne : p.v64 ≠ v.setWidth 64 := by
        intro heq
        rw [heq, BitVec.setWidth_setWidth_of_le _ hb, BitVec.setWidth_eq] at hp
        exact hp rfl
      rw [List.idxOf_cons_ne _ hp, List.idxOf_cons_ne _ hne, hrest]

/-- A table that is searched for `v` takes the unit of the path with this constant. -/
theorem operands_tableUnit {g : ℕ → BitVec 64 → List (BitVec 16)} {k pos : ℕ}
    {units : BitVec 64 → List (BitVec 16)} {entry : ℕ → BitVec b} (h : Narrow b paths)
    (hb : b ≤ 64) (hg : ∀ pos v, (g pos v).length = k)
    (hcut : paths.length < 65536 ∨ 0 < k ∧ ∀ pos, ∀ p ∈ paths, g pos p.v64 = units p.v64)
    (reg : BitVec 32) (defblock : ℕ)
    (hentry : ∀ i (hi : i < paths.length), entry (2 + k * i) = paths[i].v64.setWidth b)
    (v : BitVec b) {j : ℕ}
    (hj : ((List.range (paths.length % 65536 + 1)).map
        (2 + k * (paths.length % 65536) + ·))[switchOutcome
          (operands (switchArgs g pos reg paths defblock)) k entry v]? = some j) :
    operands (switchArgs g pos reg paths defblock) j
      = tableUnit k units paths defblock (v.setWidth 64) := by
  have hlen : (paths.map fun p => p.v64.setWidth b).length = paths.length := List.length_map _
  have houtcome : switchOutcome (operands (switchArgs g pos reg paths defblock)) k entry v = _ :=
    switchOutcome_eq (h.entries hb) (by rw [hlen, switchArgs_one])
      (fun i hi => by rw [List.getElem_map]; exact hentry i (by omega)) v
  rw [hlen, ← List.map_take, h.idxOf hb _ fun p hp => List.mem_of_mem_take hp] at houtcome
  rw [houtcome] at hj
  have hle : ((paths.take (paths.length % 65536)).map SwitchPath.v64).idxOf (v.setWidth 64)
      ≤ paths.length % 65536 := by
    refine List.idxOf_le_length.trans ?_
    rw [List.length_map]
    exact List.length_take_le _ _
  rw [getElem?_range_map _ (Nat.lt_succ_of_le hle)] at hj
  obtain rfl := Option.some.inj hj
  unfold tableUnit
  split
  · next hshort =>
    rw [Nat.mod_eq_of_lt hshort, List.take_length]
    exact operands_switchArgs_block hg pos reg paths defblock _ (getElem?_idxOf paths)
  · next hlong =>
    obtain ⟨hk, hsame⟩ := hcut.resolve_left hlong
    exact operands_cut hk hg pos reg paths defblock hsame (by omega) hle

end
end Vmir.SwitchRuns
