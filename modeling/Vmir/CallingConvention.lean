import Vmir.PrepareCall
import Vmir.VmCalls
import Mathlib.Algebra.BigOperators.Group.List.Basic
import Mathlib.Data.BitVec

set_option autoImplicit false

/-!
# Where arguments are

The caller puts the arguments below the frame of the callee, the first one on top. The callee, the
host and `va_arg` find each of them there.
-/
namespace Vmir.CallingConvention
open ByteStore RegisterProgram Ir VmOps IrTypes ProgramText EmitMove PrepareCall VmCalls

/-! ## Slots -/

def slotsOf (iu : IrUnit) (types : List ℕ) : Except Fault (List ℕ) :=
  types.mapM (valueRegframeSlots iu)

theorem slots_cases {iu : IrUnit} {type slots : ℕ} (h : valueRegframeSlots iu type = .ok slots) :
    slots = 1 ∨ slots = 2 := by
  obtain ⟨it, -, h⟩ := bind_ok.mp h
  cases it with
  | intx bits =>
    simp only [pure, Except.pure, Except.ok.injEq] at h
    split at h
    · exact Or.inl h.symm
    · exact Or.inr h.symm
  | int1 | int8 | int16 | int32 | float | pointer | function => exact Or.inl (Except.ok.inj h).symm
  | int64 | double => exact Or.inr (Except.ok.inj h).symm
  | _ => cases h

theorem slotsOf_cons {iu : IrUnit} {type : ℕ} {types : List ℕ} {ss : List ℕ}
    (h : slotsOf iu (type :: types) = .ok ss) :
    ∃ s rest, valueRegframeSlots iu type = .ok s ∧ slotsOf iu types = .ok rest ∧ ss = s :: rest := by
  rw [slotsOf, List.mapM_cons] at h
  obtain ⟨s, hs, h⟩ := bind_ok.mp h
  obtain ⟨rest, hrest, h⟩ := bind_ok.mp h
  exact ⟨s, rest, hs, hrest, (Except.ok.inj h).symm⟩

theorem slotsOf_get {iu : IrUnit} {types ss : List ℕ} (h : slotsOf iu types = .ok ss) {i type s : ℕ}
    (htype : types[i]? = some type) (hs : ss[i]? = some s) :
    valueRegframeSlots iu type = .ok s := by
  induction types generalizing ss i with
  | nil => cases htype
  | cons t types ih =>
    obtain ⟨u, rest, hu, hrest, rfl⟩ := slotsOf_cons h
    cases i with
    | zero =>
      obtain rfl := Option.some.inj htype
      obtain rfl := Option.some.inj hs
      exact hu
    | succ i => exact ih hrest htype hs

theorem slotsOf_slots {iu : IrUnit} {types ss : List ℕ} (h : slotsOf iu types = .ok ss) :
    ∀ s ∈ ss, s = 1 ∨ s = 2 := by
  induction types generalizing ss with
  | nil =>
    obtain rfl : [] = ss := Except.ok.inj h
    exact fun s hs => by cases hs
  | cons t types ih =>
    obtain ⟨u, rest, hu, hrest, rfl⟩ := slotsOf_cons h
    intro s hs
    rcases List.mem_cons.mp hs with rfl | hs
    · exact slots_cases hu
    · exact ih hrest s hs

theorem slotsOf_append {iu : IrUnit} {types types' ss : List ℕ}
    (h : slotsOf iu (types ++ types') = .ok ss) :
    slotsOf iu types = .ok (ss.take types.length) ∧ types.length ≤ ss.length := by
  induction types generalizing ss with
  | nil => exact ⟨rfl, Nat.zero_le _⟩
  | cons t types ih =>
    obtain ⟨u, rest, hu, hrest, rfl⟩ := slotsOf_cons h
    obtain ⟨htake, hlen⟩ := ih hrest
    refine ⟨?_, Nat.succ_le_succ hlen⟩
    rw [slotsOf, List.mapM_cons, hu, ok_bind]
    change (slotsOf iu types >>= _) = _
    rw [htake]
    rfl

theorem sum_take_succ (ss : List ℕ) {i s : ℕ} (hs : ss[i]? = some s) :
    (ss.take (i + 1)).sum = (ss.take i).sum + s := by
  rw [List.take_add_one, hs, List.sum_append]
  rfl

theorem sum_take_le (ss : List ℕ) (i : ℕ) : (ss.take i).sum ≤ ss.sum := by
  have hsplit := congrArg List.sum (List.take_append_drop i ss)
  rw [List.sum_append] at hsplit
  omega

/-! ## The caller -/

/-- The register that an instruction in front of the call writes. -/
def argRegister (iu : IrUnit) (i : ArgInstr) : Except Fault (BitVec 32) :=
  match i with
  | .stackcopy ret _ _ => do
    let iv ← valueGet iu ret.value
    valueReg iv
  | .move rets _ => do
    let (reg, _) ← moveTarget iu rets
    return reg

section
variable {iu : IrUnit} {callArgBase callargtype : ℕ}

theorem prepareArgs_spec {totalSlots total : ℕ} {growth growth' : BitVec 32} {argv : List CallArg}
    {is : List ArgInstr}
    (h : prepareArgs iu callArgBase callargtype totalSlots growth argv = .ok (is, total, growth')) :
    ∃ ss, slotsOf iu (argv.map fun a => a.value.type) = .ok ss ∧ is.length = argv.length
      ∧ ss.length = argv.length ∧ total = totalSlots + ss.sum
      ∧ growth' = growth + (argv.map CallArg.copySize).sum
      ∧ ∀ i a s, argv[i]? = some a → ss[i]? = some s → ∃ instr, is[i]? = some instr
        ∧ prepareArg callargtype s (callArgBase + (totalSlots + (ss.take i).sum)) a
          = .ok instr := by
  induction argv generalizing totalSlots growth is with
  | nil =>
    obtain ⟨rfl, rfl, rfl⟩ : [] = is ∧ totalSlots = total ∧ growth = growth' := by
      simpa [prepareArgs] using h
    exact ⟨[], rfl, rfl, rfl, rfl, (BitVec.add_zero _).symm, fun i a s ha => by cases ha⟩
  | cons a argv ih =>
    obtain ⟨s, hs, h⟩ := bind_ok.mp h
    obtain ⟨instr, hinstr, h⟩ := bind_ok.mp h
    obtain ⟨⟨rest, total', growth''⟩, hrest, h⟩ := bind_ok.mp h
    obtain ⟨rfl, rfl, rfl⟩ : instr :: rest = is ∧ total' = total ∧ growth'' = growth' := by
      simpa [pure, Except.pure] using h
    obtain ⟨ss, hss, hlen, hslen, htotal, hgrowth, hall⟩ := ih hrest
    refine ⟨s :: ss, ?_, congrArg (· + 1) hlen, congrArg (· + 1) hslen, ?_, ?_, ?_⟩
    · rw [slotsOf, List.map_cons, List.mapM_cons, hs, ok_bind]
      change (slotsOf iu _ >>= _) = _
      rw [hss]
      rfl
    · rw [htotal, List.sum_cons]
      omega
    · rw [hgrowth, List.map_cons, List.sum_cons, BitVec.add_assoc]
    · intro i b u hb hu
      cases i with
      | zero =>
        obtain rfl := Option.some.inj hb
        obtain rfl := Option.some.inj hu
        exact ⟨instr, rfl, by simpa using hinstr⟩
      | succ i =>
        obtain ⟨instr', h1, h2⟩ := hall i b u hb hu
        refine ⟨instr', h1, ?_⟩
        rw [List.take_succ_cons, List.sum_cons, ← Nat.add_assoc totalSlots s]
        exact h2

end

section
variable {iu : IrUnit} {callArgBase numCallArgs : ℕ} {regframeSize : BitVec 32}

/-- Temporary `k` of the arguments is `k + 1` words below the end of the frame. -/
theorem valueGet_finalizeCallArgs (regframeSize : BitVec 32)
    (hvalues : callArgBase + numCallArgs ≤ iu.values.length) {k : ℕ}
    (hk : k < numCallArgs) :
    ∃ iv, valueGet (finalizeCallArgs iu callArgBase numCallArgs regframeSize).1 (callArgBase + k)
        = .ok iv
      ∧ valueReg iv = .ok ((finalizeCallArgs iu callArgBase numCallArgs regframeSize).2
        - BitVec.ofNat 32 ((k + 1) * 4)) := by
  have hlt : callArgBase + k < iu.values.length := by omega
  simp only [finalizeCallArgs, valueGet, List.getElem?_mapIdx, List.getElem?_eq_getElem hlt,
    Option.map_some]
  rw [if_pos ⟨by omega, by omega⟩, Nat.add_sub_cancel_left]
  exact ⟨_, rfl, rfl⟩

theorem sub_slot (size : BitVec 32) (n : ℕ) :
    size - BitVec.ofNat 32 ((n + 2) * 4) + 4 = size - BitVec.ofNat 32 ((n + 1) * 4) := by
  have hsum : BitVec.ofNat 32 ((n + 2) * 4) = BitVec.ofNat 32 ((n + 1) * 4) + 4 := by
    rw [show (n + 2) * 4 = (n + 1) * 4 + 4 by omega, BitVec.ofNat_add]
    rfl
  rw [hsum]
  generalize BitVec.ofNat 32 ((n + 1) * 4) = x
  bv_omega

theorem moveTarget_one {r : ValueType} {iv : Value} {it : IrType} {reg : BitVec 32}
    (hiv : valueGet iu r.value = .ok iv) (htype : typeGet iu r.type = .ok it)
    (hreg : valueReg iv = .ok reg) : moveTarget iu [r] = .ok (reg, legalizeType it) := by
  rw [moveTarget, hiv, ok_bind, htype, ok_bind, hreg]
  rfl

theorem moveTarget_two (r₁ r₂ : ValueType) {iv₁ iv₂ : Value} {reg₁ reg₂ : BitVec 32}
    (h₁ : valueGet iu r₁.value = .ok iv₁) (h₂ : valueGet iu r₂.value = .ok iv₂)
    (hreg₁ : valueReg iv₁ = .ok reg₁) (hreg₂ : valueReg iv₂ = .ok reg₂) (hnext : reg₁ + 4 = reg₂)
    (htypes : r₁.type = r₂.type) (hint : typeGet iu r₁.type = .ok .int32) :
    moveTarget iu [r₁, r₂] = .ok (reg₁, .int64) := by
  rw [moveTarget, h₁, ok_bind, h₂, ok_bind, hreg₁, ok_bind, hreg₂, ok_bind,
    if_neg (by rintro (h | h); exacts [h hnext, h htypes]), hint]
  rfl

/-- The caller writes an argument of `slots` slots behind `before` ones to this register. -/
theorem argRegister_prepareArg {callargtype slots before : ℕ} {a : CallArg} {instr : ArgInstr}
    (hvalues : callArgBase + numCallArgs ≤ iu.values.length)
    (hint : typeGet iu callargtype = .ok .int32)
    (hslots : valueRegframeSlots iu a.value.type = .ok slots) (hfit : before + slots ≤ numCallArgs)
    (h : prepareArg callargtype slots (callArgBase + before) a = .ok instr) :
    argRegister (finalizeCallArgs iu callArgBase numCallArgs regframeSize).1 instr
      = .ok ((finalizeCallArgs iu callArgBase numCallArgs regframeSize).2
        - BitVec.ofNat 32 ((before + slots) * 4)) := by
  have hpos : 0 < slots := by
    rcases slots_cases hslots with rfl | rfl
    · exact Nat.one_pos
    · exact Nat.two_pos
  obtain ⟨iv, hiv, hreg⟩ := valueGet_finalizeCallArgs regframeSize hvalues
    (show before < numCallArgs by omega)
  unfold prepareArg at h
  split at h
  · split at h
    · next hone =>
      obtain rfl := Except.ok.inj h
      rw [argRegister, hiv, ok_bind, hreg, hone]
    · cases h
  · split at h
    · next htwo =>
      obtain rfl := Except.ok.inj h
      subst htwo
      obtain ⟨iv', hiv', hreg'⟩ := valueGet_finalizeCallArgs regframeSize hvalues
        (show before + 1 < numCallArgs by omega)
      have htarget := moveTarget_two ⟨callArgBase + before + 1, callargtype⟩
        ⟨callArgBase + before, callargtype⟩ hiv' hiv hreg' hreg (sub_slot _ before) rfl hint
      rw [argRegister, htarget]
      rfl
    · next htwo =>
      obtain rfl := Except.ok.inj h
      obtain rfl : slots = 1 := (slots_cases hslots).resolve_right htwo
      obtain ⟨it, hit, -⟩ := bind_ok.mp hslots
      have htarget := moveTarget_one (r := ⟨callArgBase + before, a.value.type⟩) hiv hit hreg
      rw [argRegister, htarget]
      rfl

/-! ## The callee -/

/-- The registers of the parameters: each parameter is as far below the frame as the slots up to it
and its own. -/
theorem functionArgs_spec {parameters ss : List ℕ} {s : BitVec 32 × List (BitVec 32)}
    (h : slotsOf iu parameters = .ok ss) :
    parameters.foldlM (valueAllocFunctionArg iu) s
      = .ok (s.1 - BitVec.ofNat 32 (ss.sum * 4), s.2 ++ (List.range ss.length).map fun i =>
        s.1 - BitVec.ofNat 32 ((ss.take (i + 1)).sum * 4)) := by
  induction parameters generalizing s ss with
  | nil =>
    obtain rfl : [] = ss := Except.ok.inj h
    simp [pure, Except.pure]
  | cons type parameters ih =>
    obtain ⟨slots, rest, hslots, hrest, rfl⟩ := slotsOf_cons h
    have hsub (n : ℕ) : s.1 - BitVec.ofNat 32 (slots * 4) - BitVec.ofNat 32 (n * 4)
        = s.1 - BitVec.ofNat 32 ((slots + n) * 4) := by
      rw [Nat.add_mul, BitVec.ofNat_add]
      generalize BitVec.ofNat 32 (slots * 4) = x
      generalize BitVec.ofNat 32 (n * 4) = y
      bv_omega
    rw [List.foldlM_cons, valueAllocFunctionArg, hslots, ok_bind]
    refine (ih hrest).trans ?_
    rw [hsub, List.sum_cons, List.length_cons, List.range_succ_eq_map, List.map_cons, List.map_map,
      List.append_assoc]
    congr 4
    rw [List.singleton_append]
    refine List.cons_eq_cons.mpr ⟨?_, ?_⟩
    · simp only [List.take_succ_cons, List.take_zero, List.sum_cons, List.sum_nil, Nat.add_zero]
    · apply List.map_congr_left
      intro i _
      simp only [Function.comp_apply, hsub, List.take_succ_cons, List.sum_cons]

end

/-! ## The words below a frame -/

/-- The arguments, one below the other from `before` slots below `rf` on. -/
def storeArgs (rf : ℤ) (before : ℕ) (m : Bytes) (vs : List Actual) : Bytes :=
  match vs with
  | [] => m
  | v :: vs => storeArgs rf (before + v.slots) (v.store m (rf - 4 * (before + v.slots : ℕ))) vs

theorem slots_eq (v : Actual) : v.slots = 1 ∨ v.slots = 2 := by
  cases v with
  | word v => exact Or.inl rfl
  | wide v => exact Or.inr rfl

theorem store_of_apart (v : Actual) (m : Bytes) {addr x : ℤ}
    (hx : x < addr ∨ addr + 4 * v.slots ≤ x) : v.store m addr x = m x := by
  cases v with
  | word v => exact writeLe_of_not_mem (by simp only [Actual.slots] at hx; omega)
  | wide v => exact writeLe_of_not_mem (by simp only [Actual.slots] at hx; omega)

theorem load_congr {m m' : Bytes} {addr : ℤ} {slots : ℕ} (hslots : slots = 1 ∨ slots = 2)
    (h : ∀ x, addr ≤ x → x < addr + 4 * slots → m' x = m x) :
    load m' addr slots = load m addr slots := by
  have hcongr (n : ℕ) (hn : (n : ℤ) ≤ 4 * slots) : readLe m' addr n = readLe m addr n :=
    readLe_congr fun x hlo hhi => h x hlo (by omega)
  unfold load
  rcases hslots with rfl | rfl
  · rw [if_pos rfl, if_pos rfl, read32, read32, hcongr 4 (by omega)]
  · rw [if_neg (by omega), if_neg (by omega), read64, read64, hcongr 8 (by omega)]

theorem load_store_same (v : Actual) (m : Bytes) (addr : ℤ) :
    load (v.store m addr) addr v.slots = v := by
  cases v with
  | word v => exact congrArg Actual.word (read32_write32_same m addr v)
  | wide v => exact congrArg Actual.wide (read64_write64_same m addr v)

theorem storeArgs_above (rf : ℤ) {before : ℕ} {m : Bytes} {vs : List Actual} {x : ℤ}
    (hx : rf - 4 * before ≤ x) : storeArgs rf before m vs x = m x := by
  induction vs generalizing before m with
  | nil => rfl
  | cons v vs ih =>
    have hpos := slots_eq v
    rw [storeArgs, ih (by push_cast; omega)]
    exact store_of_apart v m (Or.inr (by push_cast; omega))

theorem load_storeArgs (rf : ℤ) (before : ℕ) (m : Bytes) {vs : List Actual} {i : ℕ} {v : Actual}
    (hv : vs[i]? = some v) :
    load (storeArgs rf before m vs)
      (rf - 4 * (before + ((vs.map Actual.slots).take (i + 1)).sum : ℕ)) v.slots = v := by
  induction vs generalizing before m i with
  | nil => cases hv
  | cons u vs ih =>
    cases i with
    | zero =>
      obtain rfl := Option.some.inj hv
      simp only [List.map_cons, List.take_succ_cons, List.take_zero, List.sum_cons, List.sum_nil,
        Nat.add_zero]
      rw [storeArgs, load_congr (slots_eq u) fun x hlo hhi =>
        storeArgs_above rf (m := u.store m _) (by push_cast at hlo ⊢; omega)]
      exact load_store_same u m _
    | succ i =>
      have hrec := @ih (before + u.slots) (u.store m (rf - 4 * (before + u.slots : ℕ))) i hv
      rw [storeArgs, List.map_cons, List.take_succ_cons, List.sum_cons, ← Nat.add_assoc]
      exact hrec

theorem hostArgs_eq (m : Bytes) (rf : ℤ) (before : ℕ) (vs : List Actual)
    (h : ∀ i v, vs[i]? = some v →
      load m (rf - 4 * (before + ((vs.map Actual.slots).take (i + 1)).sum : ℕ)) v.slots = v) :
    hostArgs m (rf - 4 * before) (vs.map Actual.slots) = vs := by
  induction vs generalizing before with
  | nil => rfl
  | cons v vs ih =>
    have hv := h 0 v rfl
    simp only [List.map_cons, List.take_succ_cons, List.take_zero, List.sum_cons, List.sum_nil,
      Nat.add_zero] at hv
    have hrest := @ih (before + v.slots) fun i u hu => by
      have hu' := h (i + 1) u hu
      rw [List.map_cons, List.take_succ_cons, List.sum_cons, ← Nat.add_assoc] at hu'
      exact hu'
    cases v with
    | word v =>
      have haddr : rf - 4 * (before + 1 : ℕ) = rf - 4 * before - 4 := by push_cast; omega
      rw [Actual.slots] at hv hrest
      rw [haddr] at hv hrest
      rw [List.map_cons, Actual.slots, hostArgs, if_pos rfl]
      exact congrArg₂ List.cons hv hrest
    | wide v =>
      have haddr : rf - 4 * (before + 2 : ℕ) = rf - 4 * before - 8 := by push_cast; omega
      rw [Actual.slots] at hv hrest
      rw [haddr] at hv hrest
      rw [List.map_cons, Actual.slots, hostArgs, if_neg (by omega)]
      exact congrArg₂ List.cons hv hrest

theorem hostAddrs_eq (m : Bytes) (rfp : ℤ) {ss : List ℕ} (hslots : ∀ s ∈ ss, s = 1 ∨ s = 2) :
    hostAddrs m rfp ss
      = (List.range ss.length).map fun i => rfp - 4 * ((ss.take (i + 1)).sum : ℕ) := by
  induction ss generalizing rfp with
  | nil => rfl
  | cons s ss ih =>
    have hrest (rfp : ℤ) := ih rfp fun s' hs' => hslots s' (List.mem_cons_of_mem s hs')
    have haddr (i : ℕ) : rfp - 4 * s - 4 * ((ss.take (i + 1)).sum : ℕ)
        = rfp - 4 * (s + (ss.take (i + 1)).sum : ℕ) := by
      push_cast
      omega
    rw [List.length_cons, List.range_succ_eq_map, List.map_cons, List.map_map]
    simp only [List.take_succ_cons, List.take_zero, List.sum_cons, List.sum_nil, Nat.add_zero,
      Function.comp_def, ← haddr]
    rcases hslots s List.mem_cons_self with rfl | rfl
    · rw [hostAddrs, if_pos rfl, hrest]
      rfl
    · rw [hostAddrs, if_neg (by omega), hrest]
      rfl

/-! ## Variable arguments -/

theorem readLe_frameAt (rf : ℤ) (m : Bytes) (x : ℤ) (n : ℕ) :
    readLe (frameAt rf m) x n = readLe m (rf + x) n := by
  induction n generalizing x with
  | zero => rfl
  | succ n ih =>
    rw [readLe, readLe, ih, Int.add_assoc]
    rfl

theorem load_frameAt (rf : ℤ) (m : Bytes) (x : ℤ) (slots : ℕ) :
    load (frameAt rf m) x slots = load m (rf + x) slots := by
  rw [load, load, read32, read64, readLe_frameAt, readLe_frameAt]
  rfl

/-- A list that has come `n` slots down from the frame at the host address `rf`. -/
def ListAt (rf : BitVec 64) (hostmem : Bytes) (ap : ℤ) (n : ℕ) : Prop :=
  read64 hostmem ap = rf - BitVec.ofNat 64 (4 * n)

theorem toInt_below (rf : BitVec 64) {n : ℕ} (hn : 4 * n < 2 ^ 31) :
    (rf - BitVec.ofNat 64 (4 * n) - rf).toInt = -(4 * n : ℕ) := by
  have hneg : rf - BitVec.ofNat 64 (4 * n) - rf = BitVec.ofInt 64 (-(4 * n : ℕ)) := by
    rw [BitVec.ofInt_neg, BitVec.ofInt_natCast]
    generalize BitVec.ofNat 64 (4 * n) = x
    bv_omega
  rw [hneg, BitVec.toInt_ofInt]
  exact Int.bmod_eq_of_le (by push_cast; omega) (by push_cast; omega)

theorem listAt_vaStart (rf : BitVec 64) (hostmem : Bytes) (ap : ℤ) {n : ℕ} (hn : 4 * n < 2 ^ 31) :
    ListAt rf (vaStart rf hostmem ap (0 - BitVec.ofNat 32 (n * 4))) ap n := by
  have hext : (0 - BitVec.ofNat 32 (n * 4)).signExtend 64 = BitVec.ofInt 64 (-(4 * n : ℕ)) := by
    apply BitVec.eq_of_toInt_eq
    have hneg : (0 : BitVec 32) - BitVec.ofNat 32 (n * 4) = BitVec.ofInt 32 (-(4 * n : ℕ)) := by
      rw [BitVec.ofInt_neg, BitVec.ofInt_natCast, Nat.mul_comm 4]
      generalize BitVec.ofNat 32 (n * 4) = x
      bv_omega
    rw [BitVec.toInt_signExtend_of_le (by omega), hneg, BitVec.toInt_ofInt, BitVec.toInt_ofInt,
      Int.bmod_eq_of_le (by push_cast; omega) (by push_cast; omega),
      Int.bmod_eq_of_le (by push_cast; omega) (by push_cast; omega)]
  rw [ListAt, vaStart, read64_write64_same, hext, BitVec.ofInt_neg, BitVec.ofInt_natCast]
  generalize BitVec.ofNat 64 (4 * n) = x
  bv_omega

/-- One `va_arg`: it takes what is there, and the list goes down. -/
theorem vaArg_listAt {rf : BitVec 64} (registers : Bytes) {hostmem : Bytes} {ap : ℤ} {n : ℕ} {v : Actual}
    (hlist : ListAt rf hostmem ap n) (hn : 4 * (n + v.slots) < 2 ^ 31)
    (hv : load registers (-(4 * (n + v.slots) : ℕ)) v.slots = v) :
    (vaArg rf registers hostmem ap v.slots).1 = v
      ∧ ListAt rf (vaArg rf registers hostmem ap v.slots).2 ap (n + v.slots) := by
  have hnext (k : ℕ) : rf - BitVec.ofNat 64 (4 * n) - BitVec.ofNat 64 (4 * k)
      = rf - BitVec.ofNat 64 (4 * (n + k)) := by
    rw [Nat.mul_add, BitVec.ofNat_add]
    generalize BitVec.ofNat 64 (4 * n) = x
    generalize BitVec.ofNat 64 (4 * k) = y
    bv_omega
  rw [ListAt] at hlist
  cases v with
  | word w =>
    have hp : read64 hostmem ap - 4 = rf - BitVec.ofNat 64 (4 * (n + 1)) := by
      rw [hlist]
      exact hnext 1
    rw [Actual.slots] at hn hv ⊢
    rw [vaArg, if_pos rfl, vmVaarg32, hp]
    refine ⟨?_, read64_write64_same _ _ _⟩
    rw [toInt_below rf hn]
    exact hv
  | wide w =>
    have hp : read64 hostmem ap - 8 = rf - BitVec.ofNat 64 (4 * (n + 2)) := by
      rw [hlist]
      exact hnext 2
    rw [Actual.slots] at hn hv ⊢
    rw [vaArg, if_neg (by omega), vmVaarg64, hp]
    refine ⟨?_, read64_write64_same _ _ _⟩
    rw [toInt_below rf hn]
    exact hv

/-- Successive `va_arg`s of the given slots give the values. What runs in between leaves the `size`
bytes of the arguments and the list itself alone. -/
inductive VaReads (rf : BitVec 64) (ap : ℤ) (size : ℕ) (args : Bytes) :
    Bytes → List ℕ → List Actual → Prop
  | nil (hostmem : Bytes) : VaReads rf ap size args hostmem [] []
  | cons {hostmem hostmem' registers : Bytes} {s : ℕ} {ss : List ℕ} {vs : List Actual}
    (hregisters : ∀ x, -(size : ℤ) ≤ x → x < 0 → registers x = args x)
    (hlist : read64 hostmem' ap = read64 hostmem ap)
    (hrest : VaReads rf ap size args (vaArg rf registers hostmem' ap s).2 ss vs) :
    VaReads rf ap size args hostmem (s :: ss) ((vaArg rf registers hostmem' ap s).1 :: vs)

theorem vaReads_eq {rf : BitVec 64} {ap : ℤ} {size : ℕ} {args hostmem : Bytes} {n : ℕ}
    {vs ws : List Actual} (hsize : size < 2 ^ 31)
    (hfit : 4 * (n + (vs.map Actual.slots).sum) ≤ size) (hlist : ListAt rf hostmem ap n)
    (h : ∀ i v, vs[i]? = some v →
      load args (-(4 * (n + ((vs.map Actual.slots).take (i + 1)).sum) : ℕ)) v.slots = v)
    (hreads : VaReads rf ap size args hostmem (vs.map Actual.slots) ws) : ws = vs := by
  induction vs generalizing n hostmem ws with
  | nil =>
    cases hreads
    rfl
  | cons v vs ih =>
    cases hreads with
    | @cons _ hostmem' registers _ _ ws hregisters hlist' hrest =>
      rw [List.map_cons, List.sum_cons] at hfit
      have hv := h 0 v rfl
      simp only [List.map_cons, List.take_succ_cons, List.take_zero, List.sum_cons, List.sum_nil,
        Nat.add_zero] at hv
      have hload : load registers (-(4 * (n + v.slots) : ℕ)) v.slots = v := by
        rw [load_congr (slots_eq v) fun x hlo hhi => hregisters x (by omega) (by omega)]
        exact hv
      have hat : ListAt rf hostmem' ap n := hlist'.trans hlist
      obtain ⟨hfst, hsnd⟩ := vaArg_listAt registers hat (by omega) hload
      rw [hfst]
      congr 1
      refine ih (by omega) hsnd (fun i u hu => ?_) hrest
      have hu' := h (i + 1) u hu
      rw [List.map_cons, List.take_succ_cons, List.sum_cons, ← Nat.add_assoc] at hu'
      exact hu'

theorem load_slots (m : Bytes) (addr : ℤ) {slots : ℕ} (h : slots = 1 ∨ slots = 2) :
    (load m addr slots).slots = slots := by
  rcases h with rfl | rfl <;> rfl

theorem vaReads_exists (rf : BitVec 64) (ap : ℤ) (size : ℕ) (args : Bytes) (ss : List ℕ)
    (hslots : ∀ s ∈ ss, s = 1 ∨ s = 2) (hostmem : Bytes) :
    ∃ ws, VaReads rf ap size args hostmem ss ws ∧ ∀ n i s, ListAt rf hostmem ap n →
      ss[i]? = some s → 4 * (n + (ss.take (i + 1)).sum) < 2 ^ 31 →
      ws[i]? = some (load args (-(4 * (n + (ss.take (i + 1)).sum) : ℕ)) s) := by
  induction ss generalizing hostmem with
  | nil => exact ⟨[], VaReads.nil hostmem, fun n i s _ hs => by cases hs⟩
  | cons s ss ih =>
    obtain ⟨ws, hws, hat⟩ := ih (fun s' hs' => hslots s' (List.mem_cons_of_mem s hs'))
      (vaArg rf args hostmem ap s).2
    refine ⟨(vaArg rf args hostmem ap s).1 :: ws, VaReads.cons (fun x _ _ => rfl) rfl hws, ?_⟩
    intro n i s' hlist hs' hn
    rw [List.take_succ_cons, List.sum_cons] at hn ⊢
    have hload := load_slots args (-(4 * (n + s) : ℕ)) (hslots s List.mem_cons_self)
    obtain ⟨hfst, hsnd⟩ := vaArg_listAt (v := load args (-(4 * (n + s) : ℕ)) s) args hlist
      (by omega) (by rw [hload])
    rw [hload] at hfst hsnd
    cases i with
    | zero =>
      obtain rfl := Option.some.inj hs'
      exact congrArg some hfst
    | succ i =>
      have hrest := hat (n + s) i s' hsnd hs' (by omega)
      rw [Nat.add_assoc] at hrest
      exact hrest

/-! ## Registers in the text -/

/-- The offset of a register, as the unit of an operand gives it. -/
def unitOffset (r : BitVec 32) : ℤ := (r.setWidth 16).toInt

/-- The frame of the callee above that of the caller: `I[1]` is unsigned. -/
def calleeOffset (size : BitVec 32) : ℕ := (size.setWidth 16).toNat

theorem unitOffset_sub (size : BitVec 32) (n : ℕ) :
    unitOffset (size - BitVec.ofNat 32 n) = Int.bmod (calleeOffset size - n) (2 ^ 16) := by
  have hmod : ((size - BitVec.ofNat 32 n).toNat : ℤ) % (2 ^ 16 : ℕ)
      = ((calleeOffset size : ℤ) - n) % (2 ^ 16 : ℕ) := by
    rw [calleeOffset, BitVec.toNat_setWidth, BitVec.toNat_sub, BitVec.toNat_ofNat]
    omega
  rw [unitOffset, BitVec.toInt_setWidth, ← Int.emod_bmod, hmod, Int.emod_bmod]

theorem unitOffset_neg (n : ℕ) :
    unitOffset (0 - BitVec.ofNat 32 n) = Int.bmod (-n) (2 ^ 16) := by
  rw [unitOffset_sub, show calleeOffset 0 = 0 from rfl, Nat.cast_zero, Int.zero_sub]

theorem bmod_eq_self {x : ℤ} : Int.bmod x (2 ^ 16) = x ↔ -32768 ≤ x ∧ x < 32768 := by
  constructor
  · intro h
    rw [← h]
    exact ⟨Int.le_bmod (x := x) (m := 2 ^ 16) (by omega),
      Int.bmod_lt (x := x) (m := 2 ^ 16) (by omega)⟩
  · rintro ⟨hlo, hhi⟩
    exact Int.bmod_eq_of_le hlo hhi

/-! ## The moves in front of the call -/

/-- What they leave when the registers are `rs`. -/
def leaveArgs (rf : ℤ) (m : Bytes) (rs : List (BitVec 32)) (vs : List Actual) : Bytes :=
  (rs.zip vs).foldl (fun m p => p.2.store m (rf + unitOffset p.1)) m

theorem mapM_range {α β : Type} {f : α → Except Fault β} {l : List α} {g : ℕ → β}
    (h : ∀ i a, l[i]? = some a → f a = .ok (g i)) :
    l.mapM f = .ok ((List.range l.length).map g) := by
  induction l generalizing g with
  | nil => rfl
  | cons a l ih =>
    have hrest := ih (g := fun i => g (i + 1)) fun i b hb => h (i + 1) b hb
    rw [List.mapM_cons, h 0 a rfl, ok_bind, hrest, List.length_cons, List.range_succ_eq_map,
      List.map_cons, List.map_map]
    rfl

theorem leaveArgs_eq (rf : ℤ) (m : Bytes) (size : BitVec 32) (before : ℕ) (vs : List Actual)
    (hfit : ∀ i < vs.length, unitOffset
        (size - BitVec.ofNat 32 ((before + ((vs.map Actual.slots).take (i + 1)).sum) * 4))
      = calleeOffset size - 4 * (before + ((vs.map Actual.slots).take (i + 1)).sum : ℕ)) :
    leaveArgs rf m ((List.range vs.length).map fun i =>
        size - BitVec.ofNat 32 ((before + ((vs.map Actual.slots).take (i + 1)).sum) * 4)) vs
      = storeArgs (rf + calleeOffset size) before m vs := by
  induction vs generalizing before m with
  | nil => rfl
  | cons v vs ih =>
    have hrest := @ih (v.store m (rf + calleeOffset size - 4 * (before + v.slots : ℕ)))
      (before + v.slots) fun i hi => by
        have hfit' := hfit (i + 1) (Nat.succ_lt_succ hi)
        rw [List.map_cons, List.take_succ_cons, List.sum_cons, ← Nat.add_assoc] at hfit'
        exact hfit'
    have haddr : rf + unitOffset (size - BitVec.ofNat 32 ((before + v.slots) * 4))
        = rf + calleeOffset size - 4 * (before + v.slots : ℕ) := by
      have hfit' := hfit 0 (Nat.succ_pos _)
      simp only [List.map_cons, List.take_succ_cons, List.take_zero, List.sum_cons, List.sum_nil,
        Nat.add_zero] at hfit'
      rw [hfit']
      omega
    rw [storeArgs, ← hrest, leaveArgs, List.length_cons, List.range_succ_eq_map, List.map_cons,
      List.zip_cons_cons, List.foldl_cons, List.map_map]
    simp only [List.map_cons, List.take_succ_cons, List.take_zero, List.sum_cons, List.sum_nil,
      Nat.add_zero, haddr, Function.comp_def, ← Nat.add_assoc]
    rfl

/-! ## An argument that is not where it is read -/

theorem store_congr (v : Actual) {m m' : Bytes} {addr x : ℤ} (h : m x = m' x) :
    v.store m addr x = v.store m' addr x := by
  cases v <;>
  · simp only [Actual.store, write32, write64, writeLe]
    rw [h]

theorem leaveArgs_congr (rf : ℤ) {m m' : Bytes} {x : ℤ} (rs : List (BitVec 32)) (vs : List Actual)
    (h : m x = m' x) : leaveArgs rf m rs vs x = leaveArgs rf m' rs vs x := by
  induction rs generalizing m m' vs with
  | nil => exact h
  | cons r rs ih =>
    cases vs with
    | nil => exact h
    | cons v vs => exact ih vs (store_congr v h)

theorem leaveArgs_set (rf : ℤ) {m : Bytes} {x : ℤ} {rs : List (BitVec 32)} {vs : List Actual} {i : ℕ}
    {r : BitVec 32} {v : Actual} (w : Actual) (hr : rs[i]? = some r) (hv : vs[i]? = some v)
    (hw : w.slots = v.slots) (hx : x < rf + unitOffset r ∨ rf + unitOffset r + 4 * v.slots ≤ x) :
    leaveArgs rf m rs (vs.set i w) x = leaveArgs rf m rs vs x := by
  induction rs generalizing m vs i with
  | nil => cases hr
  | cons r' rs ih =>
    cases vs with
    | nil => cases hv
    | cons v' vs =>
      cases i with
      | zero =>
        obtain rfl := Option.some.inj hr
        obtain rfl := Option.some.inj hv
        exact leaveArgs_congr rf rs vs
          ((store_of_apart w m (hw ▸ hx)).trans (store_of_apart v' m hx).symm)
      | succ i => exact ih hr hv

theorem toNat_read32 (m : Bytes) (addr : ℤ) : (read32 m addr).toNat = readLe m addr 4 :=
  Nat.mod_eq_of_lt (readLe_lt m addr 4)

theorem toNat_read64 (m : Bytes) (addr : ℤ) : (read64 m addr).toNat = readLe m addr 8 :=
  Nat.mod_eq_of_lt (readLe_lt m addr 8)

theorem store_of_load {m : Bytes} {addr x : ℤ} {v : Actual} (h : load m addr v.slots = v)
    (hlo : addr ≤ x) (hhi : x < addr + 4 * v.slots) : v.store m addr x = m x := by
  have hle (n : ℕ) (hn : (n : ℤ) = 4 * v.slots)
      (hread : readLe (v.store m addr) addr n = readLe m addr n) : v.store m addr x = m x :=
    readLe_inj hread x hlo (by omega)
  have hsame := load_store_same v m addr
  cases v with
  | word v =>
    refine hle 4 rfl ?_
    have hnat := congrArg BitVec.toNat (Actual.word.inj (hsame.trans h.symm))
    rw [toNat_read32, toNat_read32] at hnat
    exact hnat
  | wide v =>
    refine hle 8 rfl ?_
    have hnat := congrArg BitVec.toNat (Actual.wide.inj (hsame.trans h.symm))
    rw [toNat_read64, toNat_read64] at hnat
    exact hnat

/-- An argument of so many slots with the same byte everywhere. -/
def fill (slots : ℕ) (b : Bool) : Actual :=
  if slots = 1 then .word (bif b then BitVec.allOnes 32 else 0)
  else .wide (bif b then BitVec.allOnes 64 else 0)

theorem fill_slots {slots : ℕ} (h : slots = 1 ∨ slots = 2) (b : Bool) :
    (fill slots b).slots = slots := by
  rcases h with rfl | rfl <;> rfl

theorem fill_store {slots : ℕ} (h : slots = 1 ∨ slots = 2) (b : Bool) {m : Bytes} {addr x : ℤ}
    (hlo : addr ≤ x) (hhi : x < addr + 4 * slots) :
    (fill slots b).store m addr x = bif b then 255 else 0 := by
  have hbyte {n v : ℕ} (hn : (n : ℤ) = 4 * slots)
      (hall : ∀ k < n, BitVec.ofNat 8 (v / 256 ^ k) = bif b then 255 else 0) :
      writeLe m addr n v x = bif b then 255 else 0 := by
    rw [writeLe_of_mem hlo (by omega)]
    exact hall _ (by omega)
  rcases h with rfl | rfl
  · cases b
    · exact hbyte (n := 4) rfl (by decide)
    · exact hbyte (n := 4) rfl (by decide)
  · cases b
    · exact hbyte (n := 8) rfl (by decide)
    · exact hbyte (n := 8) rfl (by decide)

/-- If an argument is read at an address whatever the arguments are, this is where it was left. -/
theorem address_of_load {rf : ℤ} (addr : ℤ) {m : Bytes} {rs : List (BitVec 32)} {ss : List ℕ} {i s : ℕ}
    {r : BitVec 32} (hslots : ∀ s ∈ ss, s = 1 ∨ s = 2) (hs : ss[i]? = some s) (hr : rs[i]? = some r)
    (h : ∀ vs v, vs.map Actual.slots = ss → vs[i]? = some v →
      load (leaveArgs rf m rs vs) addr s = v) : addr = rf + unitOffset r := by
  have hs12 := hslots s (List.mem_of_getElem? hs)
  -- a byte that is read but not written
  by_contra hne
  obtain ⟨x, hlo, hhi, hx⟩ : ∃ x, addr ≤ x ∧ x < addr + 4 * s
      ∧ (x < rf + unitOffset r ∨ rf + unitOffset r + 4 * s ≤ x) := by
    rcases lt_or_gt_of_ne hne with hlt | hgt
    · exact ⟨addr, le_rfl, by omega, Or.inl hlt⟩
    · exact ⟨addr + 4 * s - 1, by omega, by omega, Or.inr (by omega)⟩
  let vs := ss.map fun s => fill s false
  have hvs : vs.map Actual.slots = ss := by
    rw [List.map_map]
    exact (List.map_congr_left fun s hs => fill_slots (hslots s hs) false).trans (List.map_id ss)
  have hv : vs[i]? = some (fill s false) := by
    rw [List.getElem?_map, hs]
    rfl
  have hset : (vs.set i (fill s true)).map Actual.slots = ss := by
    obtain ⟨hlt, heq⟩ := List.getElem?_eq_some_iff.mp hs
    rw [List.map_set, hvs, fill_slots hs12, ← heq]
    exact List.set_getElem_self hlt
  have hlt : i < vs.length := (List.getElem?_eq_some_iff.mp hv).1
  have hfalse := h vs _ hvs hv
  have htrue := h (vs.set i (fill s true)) _ hset (List.getElem?_set_self hlt)
  have hbyte {vs' : List Actual} {b : Bool} (hload : load (leaveArgs rf m rs vs') addr s = fill s b) :
      leaveArgs rf m rs vs' x = bif b then 255 else 0 := by
    rw [← fill_store hs12 b hlo hhi (m := leaveArgs rf m rs vs')]
    rw [← fill_slots hs12 b] at hload hhi
    exact (store_of_load (by rw [fill_slots hs12] at hload ⊢; exact hload) hlo hhi).symm
  have hsame := leaveArgs_set rf (m := m) (x := x) (fill s true) hr hv
    (by rw [fill_slots hs12, fill_slots hs12]) (by rw [fill_slots hs12]; exact hx)
  rw [hbyte hfalse, hbyte htrue] at hsame
  exact absurd hsame (by decide)

theorem prepareCalls_spec {iu : IrUnit} {callArgBase callargtype num : ℕ}
    {calls : List (List CallArg)} (h : prepareCalls iu callArgBase callargtype calls = .ok num)
    {argv : List CallArg} (hargv : argv ∈ calls) :
    ∃ p, prepareCall iu callArgBase callargtype argv = .ok p ∧ p.totalSlots ≤ num := by
  have hfold : ∀ (calls : List (List CallArg)) (n : ℕ),
      calls.foldlM (fun n argv => do
        let p ← prepareCall iu callArgBase callargtype argv
        return max n p.totalSlots) n = .ok num →
      n ≤ num ∧ ∀ argv ∈ calls,
        ∃ p, prepareCall iu callArgBase callargtype argv = .ok p ∧ p.totalSlots ≤ num := by
    intro calls
    induction calls with
    | nil =>
      intro n h
      exact ⟨(Except.ok.inj h).le, fun argv hargv => by cases hargv⟩
    | cons argv calls ih =>
      intro n h
      rw [List.foldlM_cons] at h
      obtain ⟨n', hn', h⟩ := bind_ok.mp h
      obtain ⟨p, hp, hn'⟩ := bind_ok.mp hn'
      obtain rfl := Except.ok.inj hn'
      obtain ⟨hle, hall⟩ := ih _ h
      refine ⟨le_trans (le_max_left _ _) hle, fun argv' hargv' => ?_⟩
      rcases List.mem_cons.mp hargv' with rfl | hmem
      · exact ⟨p, hp, le_trans (le_max_right _ _) hle⟩
      · exact hall argv' hmem
  exact (hfold calls 0 h).2 argv hargv

section
variable {iu : IrUnit} {callArgBase callargtype num : ℕ} {regframeSize : BitVec 32}
variable {calls : List (List CallArg)} {argv : List CallArg} {params variadic : List ℕ}

theorem argRegisters_spec (regframeSize : BitVec 32) {p : PreparedCall} {ss : List ℕ}
    (hprep : prepareCall iu callArgBase callargtype argv = .ok p) (hnum : p.totalSlots ≤ num)
    (hvalues : callArgBase + num ≤ iu.values.length) (hint : typeGet iu callargtype = .ok .int32)
    (hss : slotsOf iu (argv.map fun a => a.value.type) = .ok ss) :
    p.totalSlots = ss.sum ∧ ss.length = argv.length ∧
      p.before.mapM (argRegister (finalizeCallArgs iu callArgBase num regframeSize).1)
        = .ok ((List.range ss.length).map fun i =>
          (finalizeCallArgs iu callArgBase num regframeSize).2
            - BitVec.ofNat 32 ((ss.take (i + 1)).sum * 4)) := by
  obtain ⟨⟨is, total, growth⟩, hargs, hp⟩ := bind_ok.mp hprep
  obtain rfl := Except.ok.inj hp
  obtain ⟨ss', hss', hlen, hslen, htotal, -, hall⟩ := prepareArgs_spec hargs
  obtain rfl : ss' = ss := Except.ok.inj (hss'.symm.trans hss)
  rw [Nat.zero_add] at htotal
  refine ⟨htotal, hslen, ?_⟩
  rw [hslen, ← hlen]
  refine mapM_range fun i instr hi => ?_
  have hilt := (List.getElem?_eq_some_iff.mp hi).1
  rw [hlen] at hilt
  have ha : argv[i]? = some argv[i] := List.getElem?_eq_getElem hilt
  have hs : ss'[i]? = some (ss'.get ⟨i, by omega⟩) := List.getElem?_eq_getElem (by omega)
  obtain ⟨instr', hi', hprepare⟩ := hall i _ _ ha hs
  obtain rfl : instr' = instr := Option.some.inj (hi'.symm.trans hi)
  have htype : (argv.map fun a => a.value.type)[i]? = some argv[i].value.type := by
    rw [List.getElem?_map, ha]
    rfl
  have hle := sum_take_le ss' (i + 1)
  rw [sum_take_succ ss' hs] at hle ⊢
  rw [Nat.zero_add] at hprepare
  refine argRegister_prepareArg hvalues hint (slotsOf_get hss htype hs) ?_ hprepare
  exact hle.trans (htotal ▸ hnum)

end

/-! ## Caller and callee -/

section
variable {iu : IrUnit} {size : BitVec 32} {params : ℕ} {ss : List ℕ}

/-- What the callee reads is what the caller left for it, at the same address: the parameters of a
function of the module, the arguments that an external function takes, and those behind the
parameters by `va_arg`. -/
structure CalleeReads (size : BitVec 32) (rs regs : List (BitVec 32)) (params : ℕ)
    (callargSize : BitVec 32) (ss : List ℕ) : Prop where
  addresses : ∀ (i : ℕ) (r s : BitVec 32), rs[i]? = some r → regs[i]? = some s →
    unitOffset r = calleeOffset size + unitOffset s
  parameters : ∀ (rf : ℤ) (m : Bytes) (vs : List Actual), vs.map Actual.slots = ss →
    ∀ (i : ℕ) (v : Actual) (s : BitVec 32), vs[i]? = some v → regs[i]? = some s →
      load (leaveArgs rf m rs vs) (rf + calleeOffset size + unitOffset s) v.slots = v
  hostAddresses : ∀ m : Bytes,
    hostAddrs m (calleeOffset size) (ss.take params) = (rs.take params).map unitOffset
  host : ∀ (rf : ℤ) (m : Bytes) (vs : List Actual), vs.map Actual.slots = ss →
    hostArgs (leaveArgs rf m rs vs) (rf + calleeOffset size) (ss.take params) = vs.take params
  variadic : ∀ (rf : ℤ) (m : Bytes) (vs : List Actual), vs.map Actual.slots = ss →
    ∀ (host : BitVec 64) (ap : ℤ) (hostmem : Bytes) (ws : List Actual),
      VaReads host ap (4 * ss.sum) (frameAt (rf + calleeOffset size) (leaveArgs rf m rs vs))
        (vaStart host hostmem ap callargSize) (ss.drop params) ws → ws = vs.drop params

/-- Every argument is within reach of a unit, from the caller and from the callee. -/
def Fits (size : BitVec 32) (params : ℕ) (ss : List ℕ) : Prop :=
  (∀ i < ss.length, -32768 ≤ (calleeOffset size : ℤ) - 4 * ((ss.take (i + 1)).sum : ℕ)
    ∧ (calleeOffset size : ℤ) - 4 * ((ss.take (i + 1)).sum : ℕ) < 32768)
  ∧ 4 * (ss.take params).sum ≤ 32768

instance (size : BitVec 32) (params : ℕ) (ss : List ℕ) : Decidable (Fits size params ss) :=
  inferInstanceAs (Decidable (_ ∧ _))

def callerRegisters (size : BitVec 32) (ss : List ℕ) : List (BitVec 32) :=
  (List.range ss.length).map fun i => size - BitVec.ofNat 32 ((ss.take (i + 1)).sum * 4)

def calleeRegisters (params : ℕ) (ss : List ℕ) : List (BitVec 32) :=
  (List.range params).map fun i => 0 - BitVec.ofNat 32 ((ss.take (i + 1)).sum * 4)

theorem callerRegisters_get {i : ℕ} (hi : i < ss.length) :
    (callerRegisters size ss)[i]?
      = some (size - BitVec.ofNat 32 ((ss.take (i + 1)).sum * 4)) := by
  rw [callerRegisters, List.getElem?_map, List.getElem?_range hi]
  rfl

theorem calleeRegisters_get {i : ℕ} {s : BitVec 32} (h : (calleeRegisters params ss)[i]? = some s) :
    i < params ∧ s = 0 - BitVec.ofNat 32 ((ss.take (i + 1)).sum * 4) := by
  have hi := (List.getElem?_eq_some_iff.mp h).1
  rw [calleeRegisters, List.length_map, List.length_range] at hi
  rw [calleeRegisters, List.getElem?_map, List.getElem?_range hi] at h
  exact ⟨hi, (Option.some.inj h).symm⟩

theorem unitOffset_caller (n : ℕ) :
    unitOffset (size - BitVec.ofNat 32 (n * 4)) = calleeOffset size - 4 * n
      ↔ -32768 ≤ (calleeOffset size : ℤ) - 4 * n ∧ (calleeOffset size : ℤ) - 4 * n < 32768 := by
  rw [unitOffset_sub, show ((n * 4 : ℕ) : ℤ) = 4 * n by push_cast; omega]
  exact bmod_eq_self

theorem unitOffset_callee (n : ℕ) :
    unitOffset (0 - BitVec.ofNat 32 (n * 4)) = -(4 * n : ℕ) ↔ 4 * n ≤ 32768 := by
  rw [unitOffset_neg, show n * 4 = 4 * n by omega, bmod_eq_self]
  omega

theorem sum_take_mono (ss : List ℕ) {i j : ℕ} (h : i ≤ j) : (ss.take i).sum ≤ (ss.take j).sum := by
  obtain ⟨k, rfl⟩ := Nat.exists_eq_add_of_le h
  rw [List.take_add, List.sum_append]
  omega

theorem calleeReads_of_fits (hslots : ∀ s ∈ ss, s = 1 ∨ s = 2) (hparams : params ≤ ss.length)
    (h : Fits size params ss) :
    CalleeReads size (callerRegisters size ss) (calleeRegisters params ss) params
      (0 - BitVec.ofNat 32 ((ss.take params).sum * 4)) ss := by
  have hcaller {i : ℕ} (hi : i < ss.length) :
      unitOffset (size - BitVec.ofNat 32 ((ss.take (i + 1)).sum * 4))
        = calleeOffset size - 4 * ((ss.take (i + 1)).sum : ℕ) :=
    (unitOffset_caller _).mpr (h.1 i hi)
  have hcallee {i : ℕ} (hi : i < params) :
      unitOffset (0 - BitVec.ofNat 32 ((ss.take (i + 1)).sum * 4))
        = -(4 * (ss.take (i + 1)).sum : ℕ) := by
    have hle := sum_take_mono ss (show i + 1 ≤ params by omega)
    exact (unitOffset_callee _).mpr (by have := h.2; omega)
  have hleave (rf : ℤ) (m : Bytes) {vs : List Actual} (hvs : vs.map Actual.slots = ss) :
      leaveArgs rf m (callerRegisters size ss) vs = storeArgs (rf + calleeOffset size) 0 m vs := by
    subst hvs
    rw [callerRegisters, List.length_map]
    have hstore := leaveArgs_eq rf m size 0 vs fun i hi => by
      rw [Nat.zero_add]
      exact hcaller (by rw [List.length_map]; exact hi)
    simp only [Nat.zero_add] at hstore
    exact hstore
  have hload (rf : ℤ) (m : Bytes) {vs : List Actual} (hvs : vs.map Actual.slots = ss) {i : ℕ}
      {v : Actual} (hv : vs[i]? = some v) :
      load (leaveArgs rf m (callerRegisters size ss) vs)
        (rf + calleeOffset size - 4 * ((ss.take (i + 1)).sum : ℕ)) v.slots = v := by
    have hstored := load_storeArgs (rf + calleeOffset size) 0 m hv
    rw [hvs, Nat.zero_add] at hstored
    rw [hleave rf m hvs]
    exact hstored
  constructor
  case addresses =>
    intro i r s hr hs
    obtain ⟨hi, rfl⟩ := calleeRegisters_get hs
    rw [callerRegisters_get (by omega)] at hr
    obtain rfl := Option.some.inj hr
    rw [hcaller (by omega), hcallee hi]
    omega
  case parameters =>
    intro rf m vs hvs i v s hv hs
    obtain ⟨hi, rfl⟩ := calleeRegisters_get hs
    have haddr : rf + calleeOffset size
        + unitOffset (0 - BitVec.ofNat 32 ((ss.take (i + 1)).sum * 4))
        = rf + calleeOffset size - 4 * ((ss.take (i + 1)).sum : ℕ) := by
      rw [hcallee hi]
      omega
    rw [haddr]
    exact hload rf m hvs hv
  case hostAddresses =>
    intro m
    rw [hostAddrs_eq m _ fun s hs => hslots s (List.mem_of_mem_take hs), List.length_take,
      min_eq_left hparams, callerRegisters, ← List.map_take, List.map_map, List.take_range,
      min_eq_left hparams]
    apply List.map_congr_left
    intro i hi
    have hi' := List.mem_range.mp hi
    rw [List.take_take, min_eq_left (by omega)]
    exact (hcaller (by omega)).symm
  case host =>
    intro rf m vs hvs
    have hhost := hostArgs_eq (leaveArgs rf m (callerRegisters size ss) vs)
      (rf + calleeOffset size) 0 (vs.take params) fun i v hv => by
        rw [List.getElem?_take] at hv
        split at hv
        · rw [List.map_take, hvs, List.take_take, min_eq_left (by omega), Nat.zero_add]
          exact hload rf m hvs hv
        · cases hv
    rw [List.map_take, hvs] at hhost
    rw [show rf + (calleeOffset size : ℤ) - 4 * (0 : ℕ) = rf + calleeOffset size by omega] at hhost
    exact hhost
  case variadic =>
    intro rf m vs hvs host ap hostmem ws hreads
    have hsum : (ss.take params).sum + (ss.drop params).sum = ss.sum := by
      rw [← List.sum_append, List.take_append_drop]
    have htotal : 4 * ss.sum < 2 ^ 31 := by
      cases hlen : ss.length with
      | zero =>
        rw [List.length_eq_zero_iff.mp hlen]
        decide
      | succ i =>
        have hlast := (h.1 i (by omega)).1
        rw [List.take_of_length_le (by omega)] at hlast
        have := (size.setWidth 16).isLt
        rw [calleeOffset] at hlast
        omega
    have hdrop : (vs.drop params).map Actual.slots = ss.drop params := by
      rw [List.map_drop, hvs]
    rw [← hdrop] at hreads
    refine vaReads_eq htotal (n := (ss.take params).sum) ?_
      (listAt_vaStart host hostmem ap (by omega)) ?_ hreads
    · rw [hdrop, hsum]
    · intro i v hv
      rw [List.getElem?_drop] at hv
      rw [hdrop, ← List.sum_append, ← List.take_add, ← Nat.add_assoc, load_frameAt]
      have haddr : rf + (calleeOffset size : ℤ) + -(4 * (ss.take (params + i + 1)).sum : ℕ)
          = rf + calleeOffset size - 4 * ((ss.take (params + i + 1)).sum : ℕ) := by omega
      rw [haddr]
      exact hload rf m hvs hv

theorem fits_of_calleeReads (hslots : ∀ s ∈ ss, s = 1 ∨ s = 2) (hparams : params ≤ ss.length)
    (h : CalleeReads size (callerRegisters size ss) (calleeRegisters params ss) params
      (0 - BitVec.ofNat 32 ((ss.take params).sum * 4)) ss) : Fits size params ss := by
  have hhost {i : ℕ} (hi : i < params) :
      unitOffset (size - BitVec.ofNat 32 ((ss.take (i + 1)).sum * 4))
        = calleeOffset size - 4 * ((ss.take (i + 1)).sum : ℕ) := by
    have haddrs := congrArg (·[i]?) (h.hostAddresses fun _ => 0)
    rw [hostAddrs_eq _ _ fun s hs => hslots s (List.mem_of_mem_take hs), List.getElem?_map,
      List.getElem?_map, List.getElem?_take, if_pos hi, callerRegisters_get (by omega),
      List.getElem?_range (by rw [List.length_take]; omega), Option.map_some, Option.map_some,
      List.take_take, min_eq_left (by omega)] at haddrs
    exact (Option.some.inj haddrs).symm
  have hcallee : 4 * (ss.take params).sum ≤ 32768 := by
    cases params with
    | zero => exact Nat.zero_le _
    | succ i =>
      apply (unitOffset_callee _).mp
      have haddr := h.addresses i _ (0 - BitVec.ofNat 32 ((ss.take (i + 1)).sum * 4))
        (callerRegisters_get (by omega))
        (by rw [calleeRegisters, List.getElem?_map, List.getElem?_range (Nat.lt_succ_self i)]; rfl)
      rw [hhost (Nat.lt_succ_self i)] at haddr
      omega
  have hreach : (calleeOffset size : ℤ) < 65536 := by
    have := (size.setWidth 16).isLt
    rw [calleeOffset]
    omega
  have hstep {i : ℕ} (hi : i < ss.length) (hsmall : 4 * (ss.take i).sum < 2 ^ 30) :
      -32768 ≤ (calleeOffset size : ℤ) - 4 * ((ss.take (i + 1)).sum : ℕ)
        ∧ (calleeOffset size : ℤ) - 4 * ((ss.take (i + 1)).sum : ℕ) < 32768 := by
    apply (unitOffset_caller _).mp
    rcases Nat.lt_or_ge i params with hlt | hge
    · exact hhost hlt
    · obtain ⟨j, rfl⟩ := Nat.exists_eq_add_of_le hge
      have hs : ss[params + j]? = some (ss.get ⟨params + j, hi⟩) := List.getElem?_eq_getElem hi
      have hs12 := hslots _ (List.mem_of_getElem? hs)
      have hsum := sum_take_succ ss hs
      have haddr := address_of_load (m := fun _ => 0)
        (0 + (calleeOffset size - 4 * ((ss.take (params + j + 1)).sum : ℕ))) hslots hs
        (callerRegisters_get hi) fun vs v hvs hv => by
          obtain ⟨ws, hws, hat⟩ := vaReads_exists 0 0 (4 * ss.sum)
            (frameAt (0 + calleeOffset size) (leaveArgs 0 (fun _ => 0) (callerRegisters size ss) vs))
            (ss.drop params) (fun s hs => hslots s (List.mem_of_mem_drop hs))
            (vaStart 0 (fun _ => 0) 0 (0 - BitVec.ofNat 32 ((ss.take params).sum * 4)))
          have hread := hat _ j _ (listAt_vaStart 0 (fun _ => 0) 0 (by omega))
            (by rw [List.getElem?_drop]; exact hs)
            (by rw [← List.sum_append, ← List.take_add, ← Nat.add_assoc]; omega)
          rw [h.variadic 0 (fun _ => 0) vs hvs 0 0 (fun _ => 0) ws hws, List.getElem?_drop, hv,
            ← List.sum_append, ← List.take_add, ← Nat.add_assoc, load_frameAt] at hread
          rw [Option.some.inj hread]
          congr 1
          omega
      omega
  have hsmall : ∀ i ≤ ss.length, 4 * (ss.take i).sum < 2 ^ 30 := by
    intro i
    induction i with
    | zero => exact fun _ => Nat.two_pow_pos 30
    | succ i ih =>
      intro hi
      have hfit := (hstep hi (ih (by omega))).1
      omega
  exact ⟨fun i hi => hstep hi (hsmall i hi.le), hcallee⟩

end

section
variable {iu : IrUnit} {callArgBase callargtype num : ℕ} {regframeSize : BitVec 32}
variable {calls : List (List CallArg)} {argv : List CallArg} {params variadic : List ℕ}

/-- For every call of a function: the callee finds the arguments exactly if the units of the text
reach them. -/
theorem arguments_agree_iff (hcalls : prepareCalls iu callArgBase callargtype calls = .ok num)
    (hargv : argv ∈ calls) (htypes : (argv.map fun a => a.value.type) = params ++ variadic)
    (hvalues : callArgBase + num ≤ iu.values.length) (hint : typeGet iu callargtype = .ok .int32) :
    ∃ p rs callargSize regs ss, prepareCall iu callArgBase callargtype argv = .ok p
      ∧ p.before.mapM (argRegister (finalizeCallArgs iu callArgBase num regframeSize).1) = .ok rs
      ∧ functionArgs iu params = .ok (callargSize, regs)
      ∧ slotsOf iu (params ++ variadic) = .ok ss
      ∧ (CalleeReads (finalizeCallArgs iu callArgBase num regframeSize).2 rs regs params.length
          callargSize ss
        ↔ Fits (finalizeCallArgs iu callArgBase num regframeSize).2 params.length ss) := by
  obtain ⟨p, hp, hnum⟩ := prepareCalls_spec hcalls hargv
  obtain ⟨⟨is, total, growth⟩, hargs, -⟩ := bind_ok.mp hp
  obtain ⟨ss, hss, -, hlen, -⟩ := prepareArgs_spec hargs
  obtain ⟨htotal, hlen', hrs⟩ := argRegisters_spec regframeSize hp hnum hvalues hint hss
  rw [htypes] at hss
  obtain ⟨hparams, hle⟩ := slotsOf_append hss
  have hregs := functionArgs_spec (s := (0, [])) hparams
  have hslots := slotsOf_slots hss
  have hcallee : (List.range (ss.take params.length).length).map (fun i =>
      (0 : BitVec 32) - BitVec.ofNat 32 (((ss.take params.length).take (i + 1)).sum * 4))
        = calleeRegisters params.length ss := by
    rw [calleeRegisters, List.length_take, min_eq_left hle]
    apply List.map_congr_left
    intro i hi
    rw [List.take_take, min_eq_left (by have := List.mem_range.mp hi; omega)]
  rw [List.nil_append, hcallee] at hregs
  exact ⟨p, _, _, _, ss, hp, hrs, hregs, hss, fits_of_calleeReads hslots hle,
    calleeReads_of_fits hslots hle⟩

end

def argUnit : IrUnit :=
  ⟨[.int32, .int64, .pointer (some 0), .double], List.replicate 7 ⟨.temporary, 0⟩, fun _ => 0⟩

theorem arguments_agree_iff_mixed :
    ∃ p rs callargSize regs ss,
      prepareCall argUnit 0 0 [⟨⟨9, 0⟩, 0⟩, ⟨⟨10, 1⟩, 0⟩, ⟨⟨11, 2⟩, 24⟩, ⟨⟨12, 3⟩, 0⟩] = .ok p
      ∧ p.before.mapM (argRegister (finalizeCallArgs argUnit 0 6 16).1) = .ok rs
      ∧ functionArgs argUnit [0, 1, 2] = .ok (callargSize, regs)
      ∧ slotsOf argUnit ([0, 1, 2] ++ [3]) = .ok ss
      ∧ (CalleeReads (finalizeCallArgs argUnit 0 6 16).2 rs regs 3 callargSize ss
        ↔ Fits (finalizeCallArgs argUnit 0 6 16).2 3 ss) :=
  @arguments_agree_iff argUnit 0 0 6 16
    [[⟨⟨9, 0⟩, 0⟩, ⟨⟨10, 1⟩, 0⟩, ⟨⟨11, 2⟩, 24⟩, ⟨⟨12, 3⟩, 0⟩]] _ [0, 1, 2] [3] rfl
    List.mem_cons_self rfl (by decide) rfl

/-- A call with one word out of a function whose own registers take 32768 bytes. -/
theorem arguments_disagree :
    prepareCalls argUnit 0 0 [[⟨⟨9, 0⟩, 0⟩]] = .ok 1
      ∧ (finalizeCallArgs argUnit 0 1 32768).2 = 32772
      ∧ argRegister (finalizeCallArgs argUnit 0 1 32768).1 (.move [⟨0, 0⟩] ⟨9, 0⟩) = .ok 32768
      ∧ functionArgs argUnit [0] = .ok (0 - 4, [0 - 4])
      ∧ ¬ CalleeReads 32772 [32768] [0 - 4] 1 (0 - 4) [1] := by
  refine ⟨rfl, rfl, rfl, rfl, fun h => ?_⟩
  exact absurd (h.addresses 0 32768 (0 - 4) rfl rfl) (by decide)

end Vmir.CallingConvention
