import Mathlib.Data.List.Basic
import Mathlib.Data.Nat.Find
import Mathlib.Logic.Relation

set_option autoImplicit false

/-!
# Sweeps that evaluate on demand

A sweep over numbered nodes visits those that are not done yet. To visit a node is to visit its inner
operand first, if that is not done; its plain operands have to be done already.
-/
namespace Vmir.DemandOrder

variable {inner : ℕ → Option ℕ} {plain : ℕ → List ℕ} {p : ℕ → Prop} [DecidablePred p]

/-- What is done before the node itself, with `visit` for the inner operand. -/
def visitInner (inner : ℕ → Option ℕ) (visit : ℕ → Option (List ℕ)) (done : List ℕ) (u : ℕ) :
    Option (List ℕ) :=
  match inner u with
  | none => some done
  | some v => if v ∈ done then some done else visit v

def visit (inner : ℕ → Option ℕ) (plain : ℕ → List ℕ) : ℕ → List ℕ → ℕ → Option (List ℕ)
  | 0, _, _ => none
  | fuel + 1, done, u => do
    let done ← visitInner inner (visit inner plain fuel done) done u
    if ∀ v ∈ plain u, v ∈ done then some (u :: done) else none

/-- The nodes below `n` with the property `p`, in order. -/
def sweep (inner : ℕ → Option ℕ) (plain : ℕ → List ℕ) (p : ℕ → Prop) [DecidablePred p] (fuel : ℕ) :
    ℕ → Option (List ℕ)
  | 0 => some []
  | n + 1 => do
    let done ← sweep inner plain p fuel n
    if p n ∧ n ∉ done then visit inner plain fuel done n else some done

/-- The node `x` is `u`, or its inner operand, or the inner operand of that, and so on. -/
def Below (inner : ℕ → Option ℕ) : ℕ → ℕ → Prop := Relation.ReflTransGen fun u v => inner u = some v

def Closed (inner : ℕ → Option ℕ) (done : List ℕ) : Prop :=
  ∀ u ∈ done, ∀ v, inner u = some v → v ∈ done

theorem Below.refl (u : ℕ) : Below inner u u := Relation.ReflTransGen.refl

theorem Below.trans {u v w : ℕ} (h : Below inner u v) (h' : Below inner v w) : Below inner u w :=
  Relation.ReflTransGen.trans h h'

theorem below_none {u x : ℕ} (hu : inner u = none) : Below inner u x ↔ x = u := by
  constructor
  · intro h
    rcases Relation.ReflTransGen.cases_head h with rfl | ⟨v, hv, -⟩
    · rfl
    · rw [hu] at hv
      cases hv
  · rintro rfl
    exact Below.refl x

theorem below_some {u v x : ℕ} (hu : inner u = some v) :
    Below inner u x ↔ x = u ∨ Below inner v x := by
  constructor
  · intro h
    rcases Relation.ReflTransGen.cases_head h with rfl | ⟨w, hw, hwx⟩
    · exact Or.inl rfl
    · rw [hu] at hw
      exact Or.inr (Option.some.inj hw ▸ hwx)
  · rintro (rfl | h)
    · exact Below.refl x
    · exact Relation.ReflTransGen.head hu h

theorem Closed.below {done : List ℕ} (hc : Closed inner done) {u x : ℕ} (hu : u ∈ done)
    (h : Below inner u x) : x ∈ done := by
  induction h with
  | refl => exact hu
  | tail _ hstep ih => exact hc _ ih _ hstep

/-! ## A visit -/

theorem visit_some {fuel u : ℕ} {done done' : List ℕ} :
    visit inner plain (fuel + 1) done u = some done'
      ↔ ∃ mid, visitInner inner (visit inner plain fuel done) done u = some mid ∧ (∀ v ∈ plain u, v ∈ mid)
        ∧ done' = u :: mid := by
  change (visitInner inner (visit inner plain fuel done) done u).bind _ = _ ↔ _
  rw [Option.bind_eq_some_iff]
  constructor
  · rintro ⟨mid, hmid, h⟩
    split at h
    · next hplain => exact ⟨mid, hmid, hplain, (Option.some.inj h).symm⟩
    · cases h
  · rintro ⟨mid, hmid, hplain, rfl⟩
    exact ⟨mid, hmid, if_pos hplain⟩

theorem visit_mem {fuel u : ℕ} {done done' : List ℕ} (hc : Closed inner done)
    (h : visit inner plain fuel done u = some done') :
    Closed inner done' ∧ ∀ x, x ∈ done' ↔ x ∈ done ∨ Below inner u x := by
  induction fuel generalizing u done' with
  | zero => cases h
  | succ fuel ih =>
    obtain ⟨mid, hmid, -, rfl⟩ := visit_some.mp h
    unfold visitInner at hmid
    cases hu : inner u with
    | none =>
      rw [hu] at hmid
      obtain rfl := Option.some.inj hmid
      refine ⟨fun y hy w hw => ?_, fun x => ?_⟩
      · rcases List.mem_cons.mp hy with rfl | hy
        · rw [hu] at hw
          cases hw
        · exact List.mem_cons_of_mem _ (hc y hy w hw)
      · rw [below_none hu, List.mem_cons, or_comm]
    | some v =>
      rw [hu] at hmid
      have hmem : Closed inner mid ∧ ∀ x, x ∈ mid ↔ x ∈ done ∨ Below inner v x := by
        dsimp only at hmid
        split at hmid
        · next hv =>
          obtain rfl := Option.some.inj hmid
          exact ⟨hc, fun x => ⟨Or.inl, fun hx => hx.elim id (hc.below hv)⟩⟩
        · exact ih hmid
      refine ⟨fun y hy w hw => ?_, fun x => ?_⟩
      · rcases List.mem_cons.mp hy with rfl | hy
        · obtain rfl := Option.some.inj (hu.symm.trans hw)
          exact List.mem_cons_of_mem _ ((hmem.2 v).mpr (Or.inr (Below.refl v)))
        · exact List.mem_cons_of_mem _ (hmem.1 y hy w hw)
      · rw [below_some hu, List.mem_cons, hmem.2]
        tauto

section
variable {ρ : ℕ → ℕ} (hinner : ∀ u v, inner u = some v → ρ v < ρ u)
  (hplain : ∀ u, ∀ v ∈ plain u, ρ v < ρ u)
include hinner

theorem visitInner_mem {fuel u : ℕ} {done mid : List ℕ} (hc : Closed inner done) (hu : u ∉ done)
    (h : visitInner inner (visit inner plain fuel done) done u = some mid) :
    Closed inner mid ∧ ∀ x, x ∈ mid ↔ x ∈ done ∨ (Below inner u x ∧ x ≠ u) := by
  unfold visitInner at h
  cases hin : inner u with
  | none =>
    rw [hin] at h
    obtain rfl := Option.some.inj h
    refine ⟨hc, fun x => ?_⟩
    rw [below_none hin]
    tauto
  | some v =>
    rw [hin] at h
    have hmem : Closed inner mid ∧ ∀ x, x ∈ mid ↔ x ∈ done ∨ Below inner v x := by
      dsimp only at h
      split at h
      · next hv =>
        obtain rfl := Option.some.inj h
        exact ⟨hc, fun x => ⟨Or.inl, fun hx => hx.elim id (hc.below hv)⟩⟩
      · exact visit_mem hc h
    have hne {x : ℕ} (hx : Below inner v x) : x ≠ u := by
      have hle : ρ x ≤ ρ v := by
        induction hx with
        | refl => exact Nat.le_refl _
        | tail _ hstep ih => exact Nat.le_trans (Nat.le_of_lt (hinner _ _ hstep)) ih
      rintro rfl
      exact absurd (hinner _ _ hin) (Nat.not_lt.mpr hle)
    refine ⟨hmem.1, fun x => ?_⟩
    rw [hmem.2, below_some hin]
    constructor
    · rintro (hx | hx)
      · exact Or.inl hx
      · exact Or.inr ⟨Or.inr hx, hne hx⟩
    · rintro (hx | ⟨hx | hx, hxu⟩)
      · exact Or.inl hx
      · exact absurd hx hxu
      · exact Or.inr hx

include hplain

/-- A visit comes to its end when every plain operand of the nodes that it does is done before, or
below its user. -/
theorem visit_iff {fuel u : ℕ} {done : List ℕ} (hfuel : ρ u < fuel) (hc : Closed inner done)
    (hu : u ∉ done) : (∃ done', visit inner plain fuel done u = some done')
      ↔ ∀ x, Below inner u x → x ∉ done → ∀ v ∈ plain x, v ∈ done ∨ Below inner x v := by
  induction fuel generalizing u with
  | zero => exact absurd hfuel (Nat.not_lt_zero _)
  | succ fuel ih =>
    -- The node itself, once what is inside is done.
    have hself {mid : List ℕ} (hmid : visitInner inner (visit inner plain fuel done) done u = some mid) :
        (∃ done', visit inner plain (fuel + 1) done u = some done')
          ↔ ∀ v ∈ plain u, v ∈ done ∨ Below inner u v := by
      have hmem := (visitInner_mem hinner hc hu hmid).2
      constructor
      · rintro ⟨done', h⟩ v hv
        obtain ⟨mid', hmid', hall, -⟩ := visit_some.mp h
        obtain rfl := Option.some.inj (hmid.symm.trans hmid')
        exact ((hmem v).mp (hall v hv)).imp_right And.left
      · intro hall
        refine ⟨_, visit_some.mpr ⟨mid, hmid, fun v hv => (hmem v).mpr ?_, rfl⟩⟩
        refine (hall v hv).imp_right fun hbelow => ⟨hbelow, ?_⟩
        rintro rfl
        exact absurd (hplain v v hv) (Nat.lt_irrefl _)
    cases hin : inner u with
    | none =>
      have hmid : visitInner inner (visit inner plain fuel done) done u = some done := by
        unfold visitInner
        rw [hin]
      rw [hself hmid]
      constructor
      · intro hall x hx _
        obtain rfl := (below_none hin).mp hx
        exact hall
      · exact fun hall => hall u (Below.refl u) hu
    | some v =>
      by_cases hv : v ∈ done
      · have hmid : visitInner inner (visit inner plain fuel done) done u = some done := by
          unfold visitInner
          rw [hin]
          exact if_pos hv
        rw [hself hmid]
        constructor
        · intro hall x hx hxd
          rcases (below_some hin).mp hx with rfl | hx
          · exact hall
          · exact absurd (hc.below hv hx) hxd
        · exact fun hall => hall u (Below.refl u) hu
      · have hmid : visitInner inner (visit inner plain fuel done) done u = visit inner plain fuel done v := by
          unfold visitInner
          rw [hin]
          exact if_neg hv
        have hrec := ih (Nat.lt_of_lt_of_le (hinner u v hin) (Nat.lt_succ_iff.mp hfuel)) hv
        constructor
        · rintro ⟨done', h⟩
          obtain ⟨mid, hok, -, -⟩ := visit_some.mp h
          have hbelow := hrec.mp ⟨mid, hmid ▸ hok⟩
          intro x hx hxd
          rcases (below_some hin).mp hx with rfl | hx
          · exact (hself hok).mp ⟨done', h⟩
          · exact hbelow x hx hxd
        · intro hall
          obtain ⟨mid, hok⟩ := hrec.mpr fun x hx => hall x ((below_some hin).mpr (Or.inr hx))
          exact (hself (hmid.trans hok)).mpr (hall u (Below.refl u) hu)

/-! ## The sweep -/

omit hinner hplain in
theorem sweep_succ {fuel n : ℕ} {done : List ℕ} :
    sweep inner plain p fuel (n + 1) = some done ↔ ∃ mid, sweep inner plain p fuel n = some mid
      ∧ (if p n ∧ n ∉ mid then visit inner plain fuel mid n else some mid) = some done := by
  change (sweep inner plain p fuel n).bind _ = _ ↔ _
  rw [Option.bind_eq_some_iff]

omit hinner hplain in
theorem sweep_mem {fuel n : ℕ} {done : List ℕ} (h : sweep inner plain p fuel n = some done) :
    Closed inner done ∧ ∀ x, x ∈ done ↔ ∃ w < n, p w ∧ Below inner w x := by
  induction n generalizing done with
  | zero =>
    obtain rfl := Option.some.inj h
    exact ⟨fun u hu => absurd hu List.not_mem_nil,
      fun x => ⟨fun hx => absurd hx List.not_mem_nil, fun ⟨w, hw, _⟩ => absurd hw (Nat.not_lt_zero w)⟩⟩
  | succ n ih =>
    obtain ⟨mid, hmid, hlast⟩ := sweep_succ.mp h
    obtain ⟨hc, hmem⟩ := ih hmid
    have hsplit (x : ℕ) : (∃ w < n + 1, p w ∧ Below inner w x)
        ↔ x ∈ mid ∨ (p n ∧ Below inner n x) := by
      rw [hmem]
      constructor
      · rintro ⟨w, hw, hpw, hwx⟩
        rcases Nat.lt_succ_iff_lt_or_eq.mp hw with hw | rfl
        · exact Or.inl ⟨w, hw, hpw, hwx⟩
        · exact Or.inr ⟨hpw, hwx⟩
      · rintro (⟨w, hw, hpw, hwx⟩ | ⟨hpn, hnx⟩)
        · exact ⟨w, Nat.lt_succ_of_lt hw, hpw, hwx⟩
        · exact ⟨n, Nat.lt_succ_self n, hpn, hnx⟩
    split at hlast
    · next hn =>
      obtain ⟨hc', hmem'⟩ := visit_mem hc hlast
      refine ⟨hc', fun x => ?_⟩
      rw [hmem', hsplit]
      exact or_congr_right ⟨fun hx => ⟨hn.1, hx⟩, And.right⟩
    · next hn =>
      obtain rfl := Option.some.inj hlast
      refine ⟨hc, fun x => ?_⟩
      rw [hsplit]
      refine ⟨Or.inl, fun hx => hx.elim id fun ⟨hpn, hnx⟩ => ?_⟩
      exact hc.below (Decidable.not_not.mp fun hnm => hn ⟨hpn, hnm⟩) hnx

/-- The plain operand `v` of `x` is below it, or some node leads to it before any leads to `x`. -/
def Resolved (inner : ℕ → Option ℕ) (p : ℕ → Prop) (n x v : ℕ) : Prop :=
  Below inner x v ∨ ∀ w < n, p w → Below inner w x → ∃ w' < w, p w' ∧ Below inner w' v

theorem sweep_iff {fuel n : ℕ} (hfuel : ∀ u < n, p u → ρ u < fuel) :
    (∃ done, sweep inner plain p fuel n = some done)
      ↔ ∀ x, ∀ v ∈ plain x, Resolved inner p n x v := by
  induction n with
  | zero =>
    exact ⟨fun _ x v _ => Or.inr fun w hw => absurd hw (Nat.not_lt_zero w), fun _ => ⟨_, rfl⟩⟩
  | succ n ih =>
    have ih := ih fun u hu => hfuel u (Nat.lt_succ_of_lt hu)
    -- What a further node asks for.
    have hmore (x v : ℕ) : Resolved inner p (n + 1) x v ↔ Resolved inner p n x v
        ∧ (Below inner x v ∨ (p n → Below inner n x → ∃ w' < n, p w' ∧ Below inner w' v)) := by
      unfold Resolved
      constructor
      · rintro (h | h)
        · exact ⟨Or.inl h, Or.inl h⟩
        · exact ⟨Or.inr fun w hw => h w (Nat.lt_succ_of_lt hw), Or.inr (h n (Nat.lt_succ_self n))⟩
      · rintro ⟨h | h, h' | h'⟩
        · exact Or.inl h
        · exact Or.inl h
        · exact Or.inl h'
        · refine Or.inr fun w hw hpw hwx => ?_
          rcases Nat.lt_succ_iff_lt_or_eq.mp hw with hw | rfl
          · exact h w hw hpw hwx
          · exact h' hpw hwx
    constructor
    · rintro ⟨done, h⟩ x v hv
      obtain ⟨mid, hmid, hlast⟩ := sweep_succ.mp h
      obtain ⟨hc, hmem⟩ := sweep_mem hmid
      have hbefore := ih.mp ⟨mid, hmid⟩
      refine (hmore x v).mpr ⟨hbefore x v hv, ?_⟩
      by_cases hxm : x ∈ mid
      · obtain ⟨w, hw, hpw, hwx⟩ := (hmem x).mp hxm
        refine (hbefore x v hv).imp_right fun hr _ _ => ?_
        obtain ⟨w', hw', hfound⟩ := hr w hw hpw hwx
        exact ⟨w', Nat.lt_trans hw' hw, hfound⟩
      · by_cases hn : p n ∧ Below inner n x
        · have hnm : n ∉ mid := fun hnm => hxm (hc.below hnm hn.2)
          rw [if_pos ⟨hn.1, hnm⟩] at hlast
          have hvisit := (visit_iff hinner hplain (hfuel n (Nat.lt_succ_self n) hn.1) hc hnm).mp
            ⟨done, hlast⟩
          rcases hvisit x hn.2 hxm v hv with hvm | hbelow
          · exact Or.inr fun _ _ => (hmem v).mp hvm
          · exact Or.inl hbelow
        · exact Or.inr fun hpn hnx => absurd ⟨hpn, hnx⟩ hn
    · intro hall
      obtain ⟨mid, hmid⟩ := ih.mpr fun x v hv => ((hmore x v).mp (hall x v hv)).1
      obtain ⟨hc, hmem⟩ := sweep_mem hmid
      by_cases hn : p n ∧ n ∉ mid
      · obtain ⟨done, hvisit⟩ := (visit_iff hinner hplain (hfuel n (Nat.lt_succ_self n) hn.1) hc
          hn.2).mpr fun x hnx _ v hv => by
            rcases ((hmore x v).mp (hall x v hv)).2 with hbelow | hr
            · exact Or.inr hbelow
            · exact Or.inl ((hmem v).mpr (hr hn.1 hnx))
        exact ⟨done, sweep_succ.mpr ⟨mid, hmid, (if_pos hn).trans hvisit⟩⟩
      · exact ⟨mid, sweep_succ.mpr ⟨mid, hmid, if_neg hn⟩⟩

end

omit [DecidablePred p] in
theorem resolved_of_lt {n x v : ℕ} (hinner : ∀ u w, inner u = some w → w < u) (hp : p v)
    (hv : v < x) : Resolved inner p n x v := by
  refine Or.inr fun w _ _ hwx => ⟨v, Nat.lt_of_lt_of_le hv ?_, hp, Below.refl v⟩
  clear hv
  induction hwx with
  | refl => exact Nat.le_refl _
  | tail _ hstep ih => exact Nat.le_trans (Nat.le_of_lt (hinner _ _ hstep)) ih

end Vmir.DemandOrder
