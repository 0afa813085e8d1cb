import Mathlib.Tactic.Linarith
import Vmir.CallingConvention
import Vmir.Coalescing
import Vmir.JitArm

set_option autoImplicit false

/-!
# Colours and places

The colouring gives the two ends of an edge different colours. The second half of `reg_alloc` makes
machine registers and places in the register frame of the colours, one class of values after the
other, and `finalize_call_args` puts the arguments of calls behind them.
-/
namespace Vmir.ColourPlaces
open Ir IrTypes Colouring NeighbourCounts ColourSupply TriangularMatrix

variable {n : ℕ}

/-! ## The colours of neighbours -/

section Colours
variable (hn : n ≤ 46341) {mtx : Bits} (hsize : Sized n mtx)
include hn hsize

theorem colourVertex_avoids {words : ℕ} {colors : ℕ → ℤ} (hcolors : ∀ x, colors x < 32 * words)
    (v : ValueInfo n) (hv : degree (adjOf mtx) v.value < 32 * words)
    (hnew : colors v.value < 0) :
    ∃ c : ℕ, c < 32 * words
      ∧ colourVertex mtx words colors v = .ok (Function.update colors v.value c)
      ∧ ∀ y : Fin n, adjOf mtx v.value y = true → colors y ≠ c := by
  obtain ⟨c, hc, hrun⟩ := colourVertex_coloured hn hsize hcolors v hv
  refine ⟨c, hc, hrun, fun y hadj heq => ?_⟩
  obtain ⟨tab, hfold, htab, hbits⟩ := takeColours hn hsize v.value
    (k := 32 * words) (by exact_mod_cast hcolors) (List.range n) (fun x hx => List.mem_range.mp hx)
    ⟨32 * words, fun _ => true⟩ rfl
  unfold colourVertex at hrun
  rw [regAllocScan_eq hn v.value.isLt, hfold] at hrun
  dsimp only [bind, Except.bind] at hrun
  cases hffs : ffs tab with
  | none =>
    rw [hffs] at hrun
    have hat := congrFun (Except.ok.inj hrun) v.value
    rw [Function.update_self] at hat
    omega
  | some c' =>
    rw [hffs] at hrun
    have hat := congrFun (Except.ok.inj hrun) v.value
    rw [Function.update_self, Function.update_self] at hat
    have hfree := List.find?_some hffs
    exact ((hbits c').mp hfree).2 y (List.mem_range.mpr y.isLt) hadj (heq.trans hat.symm)

theorem colourVertices_proper (hsimple : Simple (adjOf (n := n) mtx)) {words : ℕ}
    (vi : List (ValueInfo n)) (hnodup : (vi.map ValueInfo.value).Nodup)
    (hvi : ∀ v ∈ vi, degree (adjOf mtx) v.value < 32 * words) {colors : ℕ → ℤ}
    (hcolors : ∀ x, colors x < 32 * words) (hnew : ∀ v ∈ vi, colors v.value < 0) :
    ∃ colors', vi.foldlM (colourVertex mtx words) colors = .ok colors'
      ∧ (∀ x : Fin n, (∀ v ∈ vi, v.value ≠ x) → colors' x = colors x)
      ∧ ∀ v ∈ vi, 0 ≤ colors' v.value
        ∧ ∀ y : Fin n, adjOf mtx v.value y = true → colors' v.value ≠ colors' y := by
  induction vi generalizing colors with
  | nil => exact ⟨colors, rfl, fun _ _ => rfl, fun v hv => absurd hv List.not_mem_nil⟩
  | cons v vi ih =>
    obtain ⟨hv, hnodup⟩ := List.nodup_cons.mp hnodup
    obtain ⟨c, hc, hstep, havoids⟩ := colourVertex_avoids hn hsize hcolors v
      (hvi v List.mem_cons_self) (hnew v List.mem_cons_self)
    have hother {x : Fin n} (hx : x ≠ v.value) :
        Function.update colors v.value (c : ℤ) x = colors x :=
      Function.update_of_ne (fun heq => hx (Fin.ext heq)) _ _
    have hne : ∀ u ∈ vi, u.value ≠ v.value := fun u hu heq => hv (heq ▸ List.mem_map_of_mem hu)
    have hcolors₁ : ∀ x, Function.update colors v.value (c : ℤ) x < 32 * words := by
      intro x
      by_cases hx : x = v.value
      · rw [hx, Function.update_self]
        exact_mod_cast hc
      · rw [Function.update_of_ne hx]
        exact hcolors x
    obtain ⟨colors', hrest, hkeep, hall⟩ := ih hnodup
      (fun u hu => hvi u (List.mem_cons_of_mem v hu)) hcolors₁
      (fun u hu => (hother (hne u hu)).trans_lt (hnew u (List.mem_cons_of_mem v hu)))
    have hself : colors' v.value = c :=
      (hkeep v.value hne).trans (Function.update_self _ _ _)
    refine ⟨colors', ?_, fun x hx => ?_, fun u hu => ?_⟩
    · rw [ExceptFold.foldlM_cons_ok hstep]
      exact hrest
    · rw [hkeep x fun u hu => hx u (List.mem_cons_of_mem v hu)]
      exact hother (Ne.symm (hx v List.mem_cons_self))
    · rcases List.mem_cons.mp hu with rfl | hmem
      · refine ⟨hself ▸ Int.natCast_nonneg c, fun y hadj => ?_⟩
        by_cases hy : ∃ w ∈ vi, w.value = y
        · -- a later neighbour has avoided the colour
          obtain ⟨w, hw, rfl⟩ := hy
          exact Ne.symm ((hall w hw).2 u.value ((hsimple.symm _ _).trans hadj))
        · have hyu : y ≠ u.value := Ne.symm (hsimple.ne_of_adj hadj)
          rw [hself, hkeep y fun w hw heq => hy ⟨w, hw, heq⟩, hother hyu]
          exact Ne.symm (havoids y hadj)
      · exact hall u hmem

end Colours

theorem vertices_ok {iu : IrUnit} {jit : Fin n → Bool} {s : State n} {vi : List (ValueInfo n)}
    (h : vertices iu jit s = .ok vi) :
    (vi.map ValueInfo.value).Nodup
      ∧ (∀ x, IsVertex s x ↔ ∃ v ∈ vi, v.value = x)
      ∧ ∀ v ∈ vi, valueInfo iu jit s v.value = .ok v := by
  have hinfos := RelatedLists.forall₂_mapM h
  have hvalues : vi.map ValueInfo.value = (List.finRange n).filter fun x => IsVertex s x := by
    clear h
    generalize (List.finRange n).filter (fun x => IsVertex s x) = l at hinfos
    induction hinfos with
    | nil => rfl
    | cons hinfo _ ih => rw [List.map_cons, ih, (valueInfo_ok hinfo).1]
  refine ⟨?_, fun x => ?_, fun v hv => ?_⟩
  · rw [hvalues]
    exact (List.nodup_finRange n).filter _
  · rw [← List.mem_map, hvalues, List.mem_filter, decide_eq_true_iff]
    exact (and_iff_right (List.mem_finRange x)).symm
  · obtain ⟨x, -, hx⟩ := RelatedLists.forall₂_mem hinfos hv
    rw [(valueInfo_ok hx).1]
    exact hx

theorem colour_proper (hn : n ≤ 46341) {f : Fresh n} {s : State n} (h : Merged f s) {iu : IrUnit}
    {jit : Fin n → Bool} {vi order : List (ValueInfo n)} (hvi : vertices iu jit s = .ok vi)
    (hperm : order.Perm vi) :
    ∃ colors, colour s.mtx order = .ok colors ∧ ∀ v ∈ order, 0 ≤ colors v.value
      ∧ ∀ y : Fin n, State.adj s v.value y = true → colors v.value ≠ colors y := by
  obtain ⟨hnodup, -, hinfo⟩ := vertices_ok hvi
  have hdegree : ∀ v ∈ order, degree (adjOf s.mtx) v.value < 32 * degreeWords order := by
    intro v hv
    have hscore := (valueInfo_ok (hinfo v (hperm.mem_iff.mp hv))).2
    have hcount : (s.values v.value).edges = degree (adjOf s.mtx) v.value := h.counts v.value
    have hle := score_le_graphDegree hv
    have hlt := graphDegree_lt order
    omega
  have hstart : ∀ x : ℕ, (fun _ => -1 : ℕ → ℤ) x < 32 * degreeWords order := by
    intro x
    change (-1 : ℤ) < 32 * degreeWords order
    omega
  obtain ⟨colors, hrun, -, hall⟩ := colourVertices_proper hn h.sized h.simple order
    ((hperm.map _).nodup_iff.mpr hnodup) hdegree hstart (fun _ _ => by decide)
  exact ⟨colors, hrun, hall⟩

/-! ## Places -/

/-- `iv_class` and `iv_reg`, with the number of words of the value. -/
inductive Place
  | machine (reg : ℤ)
  | frame (reg : ℤ) (words : ℕ)
deriving DecidableEq, Repr

def Place.words : Place → ℕ
  | .machine _ => 1
  | .frame _ words => words

/-- A machine register, or a place in that part of the register frame. -/
def Place.Within (first last : ℤ) : Place → Prop
  | .machine reg => 0 ≤ reg ∧ reg < JitArm.jitMachineRegs
  | .frame reg words => first ≤ reg ∧ reg + 4 * words ≤ last

def Place.Apart : Place → Place → Prop
  | .machine r, .machine r' => r ≠ r'
  | .frame a k, .frame b j => a + 4 * k ≤ b ∨ b + 4 * j ≤ a
  | _, _ => True

theorem Place.Apart.symm {p q : Place} (h : p.Apart q) : q.Apart p := by
  cases p with
  | machine r =>
    cases q with
    | machine r' => exact Ne.symm h
    | frame b j => trivial
  | frame a k =>
    cases q with
    | machine r' => trivial
    | frame b j => exact Or.symm h

theorem Place.Within.mono {first last last' : ℤ} {p : Place} (h : p.Within first last)
    (hle : last ≤ last') : p.Within first last' := by
  cases p with
  | machine r => exact h
  | frame a k => exact ⟨h.1, h.2.trans hle⟩

theorem Place.Within.apart {first last reg : ℤ} {p : Place} {words : ℕ} (h : p.Within first last)
    (hle : last ≤ reg) : p.Apart (.frame reg words) := by
  cases p with
  | machine r => trivial
  | frame a k => exact Or.inl (h.2.trans hle)

/-! ## The places of the values -/

/-- The places that have been given in a class, with `regframe_slots`. -/
structure Layout (n : ℕ) where
  place : Fin n → Option Place
  slots : ℤ

/-- A turn of the loop over the vertices, for a class in which `choose` gives a place and the slots
up to it. -/
def placeVertex (choose : ValueInfo n → Option (Place × ℤ)) (l : Layout n) (v : ValueInfo n) :
    Layout n :=
  match choose v with
  | none => l
  | some (place, slots) =>
    ⟨Function.update l.place v.value (some place), max l.slots slots⟩

/-- `RA_CLASS_MACHINEREG_32`, with the values for which there is no register. -/
def machinePlace (colors : ℕ → ℤ) (size : ℤ) (v : ValueInfo n) : Option (Place × ℤ) :=
  if v.cls ≠ .machinereg32 then none
  else if colors v.value < JitArm.jitMachineRegs then some (.machine (colors v.value), 0)
  else
    let rfcol := colors v.value - JitArm.jitMachineRegs
    some (.frame (size + rfcol * 4) 1, rfcol + 1)

def framePlace (cls : RaClass) (words : ℕ) (colors : ℕ → ℤ) (size : ℤ) (v : ValueInfo n) :
    Option (Place × ℤ) :=
  if v.cls ≠ cls then none
  else some (.frame (size + colors v.value * (4 * words)) words, colors v.value + 1)

/-- `VMIR_ALIGN` for sizes, which are not negative. -/
def vmirAlign (size b : ℤ) : ℤ := (size + b - 1) / b * b

/-- The places after `reg_alloc`, and `if_regframe_size`. -/
def regAllocPlaces (vi : List (ValueInfo n)) (colors : ℕ → ℤ) (size : ℤ) :
    (Fin n → Option Place) × ℤ :=
  let l₀ := vi.foldl (placeVertex (machinePlace colors size)) ⟨fun _ => none, 0⟩
  let size₁ := vmirAlign (size + l₀.slots * 4) 4
  let l₁ := vi.foldl (placeVertex (framePlace .regframe32 1 colors size₁)) ⟨l₀.place, 0⟩
  let size₂ := vmirAlign (size₁ + l₁.slots * 4) 8
  let l₂ := vi.foldl (placeVertex (framePlace .regframe64 2 colors size₂)) ⟨l₁.place, 0⟩
  (l₂.place, size₂ + l₂.slots * 8)

/-- `finalize_call_args`, for the `numCallArgs` values from `callArgBase` on. -/
def callArgPlaces (callArgBase numCallArgs : ℕ) (p : (Fin n → Option Place) × ℤ) :
    (Fin n → Option Place) × ℤ :=
  let size := p.2 + numCallArgs * 4
  (fun v => if callArgBase ≤ (v : ℕ) ∧ (v : ℕ) < callArgBase + numCallArgs then
      some (.frame (size - ((v : ℕ) - callArgBase + 1) * 4) 1)
    else p.1 v, size)

theorem le_vmirAlign (size : ℤ) {b : ℤ} (hb : 0 < b) : size ≤ vmirAlign size b := by
  unfold vmirAlign
  have hmod := Int.emod_lt_of_pos (size + b - 1) hb
  have hdiv := Int.emod_add_mul_ediv (size + b - 1) b
  have hcomm := mul_comm b ((size + b - 1) / b)
  omega

/-! ## What the loops give -/

section Loop
variable {choose : ValueInfo n → Option (Place × ℤ)}

theorem slots_le_foldl (vi : List (ValueInfo n)) (l : Layout n) :
    l.slots ≤ (vi.foldl (placeVertex choose) l).slots := by
  induction vi generalizing l with
  | nil => exact le_rfl
  | cons v vi ih =>
    refine le_trans ?_ (ih _)
    unfold placeVertex
    split
    · exact le_rfl
    · exact le_max_left _ _

theorem foldl_place_other (vi : List (ValueInfo n)) (l : Layout n) {x : Fin n}
    (hx : ∀ v ∈ vi, v.value = x → choose v = none) :
    (vi.foldl (placeVertex choose) l).place x = l.place x := by
  induction vi generalizing l with
  | nil => rfl
  | cons v vi ih =>
    rw [List.foldl_cons, ih _ fun u hu => hx u (List.mem_cons_of_mem _ hu)]
    unfold placeVertex
    cases hchoose : choose v with
    | none => rfl
    | some p =>
      apply Function.update_of_ne
      intro heq
      have hnone := hx v List.mem_cons_self heq.symm
      rw [hchoose] at hnone
      cases hnone

theorem foldl_place (vi : List (ValueInfo n)) (l : Layout n)
    (hnodup : (vi.map ValueInfo.value).Nodup) {v : ValueInfo n} (hv : v ∈ vi) {p : Place} {k : ℤ}
    (hchoose : choose v = some (p, k)) :
    (vi.foldl (placeVertex choose) l).place v.value = some p
      ∧ k ≤ (vi.foldl (placeVertex choose) l).slots := by
  induction vi generalizing l with
  | nil => exact absurd hv List.not_mem_nil
  | cons u vi ih =>
    obtain ⟨hu, hnodup⟩ := List.nodup_cons.mp hnodup
    rcases List.mem_cons.mp hv with rfl | hmem
    · have hstep : placeVertex choose l v
          = ⟨Function.update l.place v.value (some p), max l.slots k⟩ := by
        unfold placeVertex
        rw [hchoose]
      rw [List.foldl_cons, hstep]
      constructor
      · rw [foldl_place_other vi _ fun w hw heq => ?_]
        · exact Function.update_self _ _ _
        · exact absurd (heq ▸ List.mem_map_of_mem hw) hu
      · exact le_trans (le_max_right _ _) (slots_le_foldl vi _)
    · exact ih _ hnodup hmem

end Loop

/-- The place of a vertex, where the classes begin at `size`, `size₁` and `size₂`. -/
def colourPlace (colors : ℕ → ℤ) (size size₁ size₂ : ℤ) (v : ValueInfo n) : Place :=
  if v.cls = .machinereg32 then
    if colors v.value < JitArm.jitMachineRegs then .machine (colors v.value)
    else .frame (size + (colors v.value - JitArm.jitMachineRegs) * 4) 1
  else if v.cls = .regframe32 then .frame (size₁ + colors v.value * 4) 1
  else .frame (size₂ + colors v.value * 8) 2

theorem regframe64_of_ne {cls : RaClass} (hmachine : cls ≠ .machinereg32)
    (hword : cls ≠ .regframe32) : cls = .regframe64 := by
  cases cls with
  | machinereg32 => exact absurd rfl hmachine
  | regframe32 => exact absurd rfl hword
  | regframe64 => rfl

/-- The colour of a vertex does not lie behind its class. -/
structure Bounded (colors : ℕ → ℤ) (size size₁ size₂ last : ℤ) (v : ValueInfo n) : Prop where
  machinereg32 : v.cls = .machinereg32 →
    size + (colors v.value - JitArm.jitMachineRegs + 1) * 4 ≤ size₁
  regframe32 : v.cls = .regframe32 → size₁ + (colors v.value + 1) * 4 ≤ size₂
  regframe64 : v.cls = .regframe64 → size₂ + (colors v.value + 1) * 8 ≤ last

theorem regAllocPlaces_spec (vi : List (ValueInfo n)) (colors : ℕ → ℤ) (size : ℤ)
    (hnodup : (vi.map ValueInfo.value).Nodup) :
    ∃ size₁ size₂, size ≤ size₁ ∧ size₁ ≤ size₂ ∧ size₂ ≤ (regAllocPlaces vi colors size).2
      ∧ ∀ v ∈ vi, (regAllocPlaces vi colors size).1 v.value
          = some (colourPlace colors size size₁ size₂ v)
        ∧ Bounded colors size size₁ size₂ (regAllocPlaces vi colors size).2 v := by
  have hother {choose : ValueInfo n → Option (Place × ℤ)} {v : ValueInfo n} (hv : v ∈ vi)
      (hnone : choose v = none) (l : Layout n) :
      (vi.foldl (placeVertex choose) l).place v.value = l.place v.value := by
    refine foldl_place_other vi l fun u hu heq => ?_
    have hsame : u = v := List.inj_on_of_nodup_map hnodup hu hv heq
    rw [hsame, hnone]
  have hslots (choose : ValueInfo n → Option (Place × ℤ)) (p : Fin n → Option Place) :
      0 ≤ (vi.foldl (placeVertex choose) ⟨p, 0⟩).slots := slots_le_foldl vi ⟨p, 0⟩
  unfold regAllocPlaces
  dsimp only
  generalize hl₀ : vi.foldl (placeVertex (machinePlace colors size)) ⟨fun _ => none, 0⟩ = l₀
  have hslots₀ : 0 ≤ l₀.slots := hl₀ ▸ hslots _ _
  have hsize₁ := le_vmirAlign (size + l₀.slots * 4) (b := 4) (by decide)
  generalize vmirAlign (size + l₀.slots * 4) 4 = size₁ at hsize₁ ⊢
  generalize hl₁ : vi.foldl (placeVertex (framePlace .regframe32 1 colors size₁)) ⟨l₀.place, 0⟩ = l₁
  have hslots₁ : 0 ≤ l₁.slots := hl₁ ▸ hslots _ _
  have hsize₂ := le_vmirAlign (size₁ + l₁.slots * 4) (b := 8) (by decide)
  generalize vmirAlign (size₁ + l₁.slots * 4) 8 = size₂ at hsize₂ ⊢
  generalize hl₂ : vi.foldl (placeVertex (framePlace .regframe64 2 colors size₂)) ⟨l₁.place, 0⟩ = l₂
  have hslots₂ : 0 ≤ l₂.slots := hl₂ ▸ hslots _ _
  refine ⟨size₁, size₂, by omega, by omega, by omega, fun v hv => ?_⟩
  unfold colourPlace
  by_cases hmachine : v.cls = .machinereg32
  · have hplace : l₂.place v.value = l₀.place v.value := by
      rw [← hl₂, hother hv (if_pos (by rw [hmachine]; decide)), ← hl₁,
        hother hv (if_pos (by rw [hmachine]; decide))]
    rw [if_pos hmachine, hplace]
    by_cases hreg : colors v.value < JitArm.jitMachineRegs
    · have hchoose : machinePlace colors size v = some (.machine (colors v.value), 0) := by
        unfold machinePlace
        rw [if_neg (not_not.mpr hmachine), if_pos hreg]
      rw [if_pos hreg]
      refine ⟨hl₀ ▸ (foldl_place vi _ hnodup hv hchoose).1, fun _ => by omega, fun h => ?_,
        fun h => ?_⟩
      · exact absurd (h.symm.trans hmachine) (by decide)
      · exact absurd (h.symm.trans hmachine) (by decide)
    · have hchoose : machinePlace colors size v
          = some (.frame (size + (colors v.value - JitArm.jitMachineRegs) * 4) 1,
            colors v.value - JitArm.jitMachineRegs + 1) := by
        unfold machinePlace
        rw [if_neg (not_not.mpr hmachine), if_neg hreg]
      obtain ⟨hplace, hle⟩ := foldl_place vi ⟨fun _ => none, 0⟩ hnodup hv hchoose
      rw [hl₀] at hplace hle
      rw [if_neg hreg]
      refine ⟨hplace, fun _ => by omega, fun h => ?_, fun h => ?_⟩
      · exact absurd (h.symm.trans hmachine) (by decide)
      · exact absurd (h.symm.trans hmachine) (by decide)
  · rw [if_neg hmachine]
    by_cases hword : v.cls = .regframe32
    · have hplace : l₂.place v.value = l₁.place v.value := by
        rw [← hl₂, hother hv (if_pos (by rw [hword]; decide))]
      have hchoose : framePlace .regframe32 1 colors size₁ v
          = some (.frame (size₁ + colors v.value * 4) 1, colors v.value + 1) := by
        unfold framePlace
        rw [if_neg (not_not.mpr hword), Nat.cast_one, mul_one]
      obtain ⟨hplace₁, hle⟩ := foldl_place vi ⟨l₀.place, 0⟩ hnodup hv hchoose
      rw [hl₁] at hplace₁ hle
      rw [if_pos hword, hplace]
      refine ⟨hplace₁, fun h => absurd h hmachine, fun _ => by omega, fun h => ?_⟩
      exact absurd (h.symm.trans hword) (by decide)
    · have hwide : v.cls = .regframe64 := regframe64_of_ne hmachine hword
      have hchoose : framePlace .regframe64 2 colors size₂ v
          = some (.frame (size₂ + colors v.value * 8) 2, colors v.value + 1) := by
        unfold framePlace
        rw [if_neg (not_not.mpr hwide)]
        norm_num
      obtain ⟨hplace, hle⟩ := foldl_place vi ⟨l₁.place, 0⟩ hnodup hv hchoose
      rw [hl₂] at hplace hle
      rw [if_neg hword]
      exact ⟨hplace, fun h => absurd h hmachine, fun h => absurd h hword, fun _ => by omega⟩

theorem colourPlace_apart {colors : ℕ → ℤ} {size size₁ size₂ last : ℤ} {v w : ValueInfo n}
    (hv : Bounded colors size size₁ size₂ last v) (hw : Bounded colors size size₁ size₂ last w)
    (hcv : 0 ≤ colors v.value) (hcw : 0 ≤ colors w.value) (hle : size₁ ≤ size₂) :
    (colourPlace colors size size₁ size₂ v).Apart (colourPlace colors size size₁ size₂ w)
      ∨ v.cls = w.cls ∧ colors v.value = colors w.value := by
  have hregs : (JitArm.jitMachineRegs : ℤ) = 7 := rfl
  obtain ⟨hv₀, hv₁, hv₂⟩ := hv
  obtain ⟨hw₀, hw₁, hw₂⟩ := hw
  by_cases hsame : v.cls = w.cls ∧ colors v.value = colors w.value
  · exact Or.inr hsame
  · left
    unfold colourPlace
    rw [hregs] at hv₀ hw₀ ⊢
    cases hclsv : v.cls <;> cases hclsw : w.cls <;>
      simp only [hclsv, hclsw, true_and, forall_const, reduceCtorEq, false_and, if_true, if_false,
        IsEmpty.forall_iff] at hsame hv₀ hv₁ hv₂ hw₀ hw₁ hw₂ ⊢ <;>
      (try split_ifs) <;> simp only [Place.Apart] <;> omega

theorem colourPlace_within {colors : ℕ → ℤ} {size size₁ size₂ last : ℤ} {v : ValueInfo n}
    (hv : Bounded colors size size₁ size₂ last v) (hcolor : 0 ≤ colors v.value)
    (hle : size ≤ size₁) (hle₁ : size₁ ≤ size₂) (hle₂ : size₂ ≤ last) :
    (colourPlace colors size size₁ size₂ v).Within size last := by
  obtain ⟨hv₀, hv₁, hv₂⟩ := hv
  unfold colourPlace
  by_cases hmachine : v.cls = .machinereg32
  · have hlast := hv₀ hmachine
    rw [if_pos hmachine]
    split_ifs with hreg
    · exact ⟨hcolor, hreg⟩
    · simp only [Place.Within]
      omega
  · rw [if_neg hmachine]
    by_cases hword : v.cls = .regframe32
    · have hlast := hv₁ hword
      rw [if_pos hword]
      simp only [Place.Within]
      omega
    · have hwide : v.cls = .regframe64 := regframe64_of_ne hmachine hword
      have hlast := hv₂ hwide
      rw [if_neg hword]
      simp only [Place.Within]
      omega

theorem colourPlace_words (colors : ℕ → ℤ) (size size₁ size₂ : ℤ) (v : ValueInfo n) :
    (colourPlace colors size size₁ size₂ v).words = if v.cls = .regframe64 then 2 else 1 := by
  unfold colourPlace
  cases v.cls with
  | machinereg32 =>
    simp only [if_true, reduceCtorEq, if_false]
    split_ifs <;> rfl
  | regframe32 => rfl
  | regframe64 => rfl

/-! ## All values -/

theorem valueInfo_cls {iu : IrUnit} {jit : Fin n → Bool} {s : State n} {x : Fin n}
    {v : ValueInfo n} {k : ℕ} (h : valueInfo iu jit s x = .ok v)
    (hk : PrepareCall.valueRegframeSlots iu (s.values x).type = .ok k) :
    k = if v.cls = .regframe64 then 2 else 1 := by
  unfold valueInfo at h
  rw [hk] at h
  dsimp only at h
  by_cases htwo : k = 2
  · rw [if_pos htwo] at h
    cases h
    exact htwo
  · rw [if_neg htwo] at h
    by_cases hone : k = 1
    · rw [if_pos hone] at h
      cases h
      cases jit x with
      | true => exact hone
      | false => exact hone
    · rw [if_neg hone] at h
      cases h

theorem vertices_ends {iu : IrUnit} (jit : Fin n → Bool) {s : State n} {slots : Fin n → ℕ}
    (hslots : ∀ x, (s.values x).cls = .temporary →
      PrepareCall.valueRegframeSlots iu (s.values x).type = .ok (slots x)) :
    ∃ vi, vertices iu jit s = .ok vi := by
  refine RelatedLists.exists_mapM fun x hx => ?_
  have hvertex : IsVertex s x := of_decide_eq_true (List.mem_filter.mp hx).2
  have hx := hslots x hvertex.1
  unfold valueInfo
  rw [hx]
  rcases CallingConvention.slots_cases hx with hone | htwo
  · rw [hone]
    exact ⟨_, rfl⟩
  · rw [htwo]
    exact ⟨_, rfl⟩

/-- Every value that is left has a place, in the part of the frame between `first` and `last` or in
a machine register. Neighbours have places apart. -/
structure Placed (s : State n) (slots : Fin n → ℕ) (first last : ℤ)
    (place : Fin n → Option Place) : Prop where
  total : ∀ x, (s.values x).cls = .temporary →
    ∃ p, place x = some p ∧ p.words = slots x ∧ p.Within first last
  apart : ∀ x y p q, (s.values x).cls = .temporary → (s.values y).cls = .temporary →
    place x = some p → place y = some q → State.adj s x y = true → p.Apart q
  shared : ∀ x y p q, (s.values x).cls = .temporary → (s.values y).cls = .temporary →
    place x = some p → place y = some q → p.Apart q ∨ p = q
  /-- What is precoloured has a place of its own. -/
  argument : ∀ x y p q, (s.values x).cls = .temporary → (s.values y).cls = .temporary →
    place x = some p → place y = some q → (s.values x).precolored ≠ -1 → y ≠ x → p.Apart q

theorem callArgPlaces_placed (hn : n ≤ 46341) {f : Fresh n} {s : State n} (h : Merged f s)
    {iu : IrUnit} {jit : Fin n → Bool} {vi order : List (ValueInfo n)}
    (hvi : vertices iu jit s = .ok vi) (hperm : order.Perm vi) {slots : Fin n → ℕ}
    (hslots : ∀ x, (s.values x).cls = .temporary →
      PrepareCall.valueRegframeSlots iu (s.values x).type = .ok (slots x))
    {callArgBase numCallArgs : ℕ}
    (harguments : ∀ x : Fin n, (s.values x).precolored ≠ -1 ↔
      callArgBase ≤ (x : ℕ) ∧ (x : ℕ) < callArgBase + numCallArgs)
    (hwords : ∀ x : Fin n, (s.values x).precolored ≠ -1 → slots x = 1) (size : ℤ) :
    ∃ colors, colour s.mtx order = .ok colors
      ∧ Placed s slots size
        (callArgPlaces callArgBase numCallArgs (regAllocPlaces order colors size)).2
        (callArgPlaces callArgBase numCallArgs (regAllocPlaces order colors size)).1 := by
  obtain ⟨colors, hcolour, hproper⟩ := colour_proper hn h hvi hperm
  obtain ⟨hnodup, hvertex, hinfo⟩ := vertices_ok hvi
  obtain ⟨size₁, size₂, hsize₁, hsize₂, hlast, hplaces⟩ :=
    regAllocPlaces_spec order colors size ((hperm.map _).nodup_iff.mpr hnodup)
  refine ⟨colors, hcolour, ?_⟩
  generalize regAllocPlaces order colors size = r at hlast hplaces ⊢
  -- a value that is left is a vertex or an argument
  have hcases : ∀ x, (s.values x).cls = .temporary →
      (∃ v ∈ order, v.value = x
        ∧ (callArgPlaces callArgBase numCallArgs r).1 x
          = some (colourPlace colors size size₁ size₂ v)
        ∧ Bounded colors size size₁ size₂ r.2 v
        ∧ (s.values x).precolored = -1)
      ∨ (s.values x).precolored ≠ -1 ∧ callArgBase ≤ (x : ℕ) ∧ (x : ℕ) < callArgBase + numCallArgs
        ∧ (callArgPlaces callArgBase numCallArgs r).1 x
          = some (.frame (r.2 + numCallArgs * 4 - ((x : ℕ) - callArgBase + 1) * 4) 1) := by
    intro x hx
    by_cases hpre : (s.values x).precolored = -1
    · left
      obtain ⟨v, hv, rfl⟩ := (hvertex x).mp ⟨hx, hpre⟩
      obtain ⟨hplace, hbounded⟩ := hplaces v (hperm.mem_iff.mpr hv)
      refine ⟨v, hperm.mem_iff.mpr hv, rfl, ?_, hbounded, hpre⟩
      unfold callArgPlaces
      dsimp only
      rw [if_neg fun hrange => (harguments v.value).mpr hrange hpre]
      exact hplace
    · right
      have hrange := (harguments x).mp hpre
      refine ⟨hpre, hrange.1, hrange.2, ?_⟩
      unfold callArgPlaces
      dsimp only
      rw [if_pos hrange]
  have hend : (callArgPlaces callArgBase numCallArgs r).2 = r.2 + numCallArgs * 4 := rfl
  -- the place of a vertex ends before the arguments
  have hinside : ∀ v ∈ order, (colourPlace colors size size₁ size₂ v).Within size r.2 :=
    fun v hv => colourPlace_within (hplaces v hv).2 (hproper v hv).1 hsize₁ hsize₂ hlast
  have hown : ∀ x y p q, (s.values x).cls = .temporary → (s.values y).cls = .temporary →
      (callArgPlaces callArgBase numCallArgs r).1 x = some p →
      (callArgPlaces callArgBase numCallArgs r).1 y = some q →
      (s.values x).precolored ≠ -1 → y ≠ x → p.Apart q := by
    intro x y p q hx hy hp hq hpre hne
    rcases hcases x hx with ⟨v, -, -, -, -, hnot⟩ | ⟨-, hx₁, hx₂, hplace⟩
    · exact absurd hnot hpre
    · obtain rfl := Option.some.inj (hplace.symm.trans hp)
      rcases hcases y hy with ⟨w, hw, -, hplace', -⟩ | ⟨-, hy₁, hy₂, hplace'⟩
      · obtain rfl := Option.some.inj (hplace'.symm.trans hq)
        exact ((hinside w hw).apart (by omega)).symm
      · obtain rfl := Option.some.inj (hplace'.symm.trans hq)
        have hne' : (y : ℕ) ≠ (x : ℕ) := fun heq => hne (Fin.ext heq)
        simp only [Place.Apart]
        omega
  constructor
  · intro x hx
    rcases hcases x hx with ⟨v, hv, hvalue, hplace, hbounded, -⟩ | ⟨hpre, hx₁, hx₂, hplace⟩
    · refine ⟨_, hplace, ?_, ?_⟩
      · have hk := valueInfo_cls (hinfo v (hperm.mem_iff.mp hv)) (hslots v.value (hvalue ▸ hx))
        rw [colourPlace_words, ← hk, hvalue]
      · exact (hinside v hv).mono (by rw [hend]; omega)
    · refine ⟨_, hplace, (hwords x hpre).symm, ?_⟩
      simp only [Place.Within]
      omega
  · intro x y p q hx hy hp hq hadj
    have hne : y ≠ x := Ne.symm (h.simple.ne_of_adj hadj)
    rcases hcases x hx with ⟨v, hv, hvalue, hplace, hbounded, -⟩ | ⟨hpre, -⟩
    · rcases hcases y hy with ⟨w, hw, hvalue', hplace', hbounded', -⟩ | ⟨hpre, -⟩
      · obtain rfl := Option.some.inj (hplace.symm.trans hp)
        obtain rfl := Option.some.inj (hplace'.symm.trans hq)
        refine (colourPlace_apart hbounded hbounded' (hproper v hv).1 (hproper w hw).1
          hsize₂).resolve_right fun hsame => ?_
        exact (hproper v hv).2 w.value (by rw [hvalue, hvalue']; exact hadj) hsame.2
      · exact (hown y x q p hy hx hq hp hpre (Ne.symm hne)).symm
    · exact hown x y p q hx hy hp hq hpre hne
  · intro x y p q hx hy hp hq
    by_cases hne : y = x
    · subst hne
      exact Or.inr (Option.some.inj (hp.symm.trans hq))
    · rcases hcases x hx with ⟨v, hv, hvalue, hplace, hbounded, -⟩ | ⟨hpre, -⟩
      · rcases hcases y hy with ⟨w, hw, hvalue', hplace', hbounded', -⟩ | ⟨hpre, -⟩
        · obtain rfl := Option.some.inj (hplace.symm.trans hp)
          obtain rfl := Option.some.inj (hplace'.symm.trans hq)
          refine (colourPlace_apart hbounded hbounded' (hproper v hv).1 (hproper w hw).1
            hsize₂).imp_right fun hsame => ?_
          unfold colourPlace
          rw [hsame.1, hsame.2]
        · exact Or.inl (hown y x q p hy hx hq hp hpre (Ne.symm hne)).symm
      · exact Or.inl (hown x y p q hx hy hp hq hpre hne)
  · exact hown

end Vmir.ColourPlaces
