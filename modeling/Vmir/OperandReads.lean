import Mathlib.Algebra.Group.Nat.Defs
import Mathlib.Data.List.Basic

set_option autoImplicit false

/-!
# Reading the operands of a record

A handler gets the count of the operands and a pointer to the first of them, and steps both. The
operands are those that are left. The handler may read one that is not there, and it may assert that
there is one. Its other faults are of a type `φ`, and what else it works on is of a type `υ`.
-/
namespace Vmir.OperandReads

inductive Stop (φ : Type)
  | outside
  | assertArgc
  | fault (f : φ)
deriving DecidableEq, Repr

structure Cursor (υ : Type) where
  unit : υ
  argc : BitVec 32
  argv : List (BitVec 64)

def start {υ : Type} (u : υ) (argv : List (BitVec 64)) : Cursor υ :=
  ⟨u, BitVec.ofNat 32 argv.length, argv⟩

/-- The pointer is stepped over `n` operands, and the count wraps around. -/
def Cursor.drop {υ : Type} (s : Cursor υ) (n : ℕ) : Cursor υ :=
  { s with argc := s.argc - BitVec.ofNat 32 n, argv := s.argv.drop n }

abbrev Parse (φ υ : Type) := StateT (Cursor υ) (Except (Stop φ))

section
variable {φ υ α β : Type}

def argc : Parse φ υ (BitVec 32) := fun s => .ok (s.argc, s)

/-- `argv[i].i64` -/
def arg (i : ℕ) : Parse φ υ (BitVec 64) := fun s =>
  match s.argv[i]? with
  | some a => .ok (a, s)
  | none => .error .outside

/-- `argv += n; argc -= n;` -/
def advance (n : ℕ) : Parse φ υ Unit := fun s => .ok ((), s.drop n)

/-- `assert(argc > 0);` -/
def assertArgc : Parse φ υ Unit := fun s =>
  if s.argc = 0 then .error .assertArgc else .ok ((), s)

def getUnit : Parse φ υ υ := fun s => .ok (s.unit, s)

def modifyUnit (f : υ → υ) : Parse φ υ Unit := fun s => .ok ((), { s with unit := f s.unit })

def fail (f : φ) : Parse φ υ α := fun _ => .error (.fault f)

def lift (e : Except φ α) : Parse φ υ α := fun s =>
  match e with
  | .ok a => .ok (a, s)
  | .error f => .error (.fault f)

/-- A loop with `n` turns, numbered from `i`. -/
def forArgs (body : ℕ → Parse φ υ α) : ℕ → ℕ → Parse φ υ (List α)
  | 0, _ => pure []
  | n + 1, i => do
    let a ← body i
    let as ← forArgs body n (i + 1)
    pure (a :: as)

/-- `while(argc > 0)`, with turns numbered from `n` and at most as many as the first argument. -/
def whileArgs (exhausted : φ) (body : ℕ → Parse φ υ α) : ℕ → ℕ → Parse φ υ (List α)
  | 0, _ => fail exhausted
  | fuel + 1, n => do
    let c ← argc
    if c = 0 then pure []
    else do
      let a ← body n
      let as ← whileArgs exhausted body fuel (n + 1)
      pure (a :: as)

/-! ## Reading out of bounds -/

variable {s t : Cursor υ} {m : Parse φ υ α} {f : α → Parse φ υ β}

/-- An operand is read that is not there, or the assertion finds that there is none. -/
def Overruns (m : Parse φ υ α) (s : Cursor υ) : Prop :=
  m s = .error .outside ∨ m s = .error .assertArgc

def Cursor.Counted (s : Cursor υ) : Prop := s.argc.toNat = s.argv.length

def Keeps (m : Parse φ υ α) : Prop := ∀ s a t, s.Counted → m s = .ok (a, t) → t.Counted

/-- With the right count, no operand is read that is not there. -/
structure Bounded (m : Parse φ υ α) : Prop where
  keeps : Keeps m
  safe : ∀ s, s.Counted → ¬ Overruns m s

theorem counted_start (u : υ) {argv : List (BitVec 64)} (h : argv.length < 2 ^ 32) :
    (start u argv).Counted := by
  unfold Cursor.Counted start
  rw [BitVec.toNat_ofNat, Nat.mod_eq_of_lt h]

theorem length_lt (hs : s.Counted) : s.argv.length < 2 ^ 32 := by
  rw [← hs]
  exact s.argc.isLt

theorem eq_start (hs : s.Counted) : s = start s.unit s.argv := by
  unfold start
  rw [← hs, BitVec.ofNat_toNat, BitVec.setWidth_eq]

theorem counted_drop {n : ℕ} (hs : s.Counted) (hn : n ≤ s.argv.length) : (s.drop n).Counted := by
  unfold Cursor.Counted at hs ⊢
  unfold Cursor.drop
  have hlt := s.argc.isLt
  rw [BitVec.toNat_sub, BitVec.toNat_ofNat, List.length_drop, ← hs]
  rw [← hs] at hn
  omega

theorem argc_eq_zero_iff (hs : s.Counted) : s.argc = 0 ↔ s.argv = [] := by
  unfold Cursor.Counted at hs
  rw [← List.length_eq_zero_iff, ← hs, ← BitVec.toNat_inj]
  rfl

theorem bind_ok {a : α} (h : m s = .ok (a, t)) : (m >>= f) s = f a t := by
  change (m s >>= fun p => f p.1 p.2) = _
  rw [h]
  rfl

theorem bind_error {e : Stop φ} (h : m s = .error e) : (m >>= f) s = .error e := by
  change (m s >>= fun p => f p.1 p.2) = _
  rw [h]
  rfl

theorem bind_eq_ok {b : β} :
    (m >>= f) s = .ok (b, t) ↔ ∃ a mid, m s = .ok (a, mid) ∧ f a mid = .ok (b, t) := by
  cases hm : m s with
  | error e =>
    rw [bind_error hm]
    simp
  | ok p =>
    rw [bind_ok hm]
    constructor
    · intro h
      exact ⟨p.1, p.2, rfl, h⟩
    · rintro ⟨a, mid, h, hf⟩
      cases h
      exact hf

theorem overruns_bind_ok {a : α} (h : m s = .ok (a, t)) :
    Overruns (m >>= f) s ↔ Overruns (f a) t := by
  unfold Overruns
  rw [bind_ok h]

theorem overruns_bind : Overruns (m >>= f) s
    ↔ Overruns m s ∨ ∃ a t, m s = .ok (a, t) ∧ Overruns (f a) t := by
  cases hm : m s with
  | error e =>
    unfold Overruns
    rw [bind_error hm, hm]
    simp
  | ok p =>
    rw [overruns_bind_ok hm]
    constructor
    · intro h
      exact .inr ⟨p.1, p.2, rfl, h⟩
    · rintro ((h | h) | ⟨a, t, h, hf⟩)
      · rw [hm] at h
        cases h
      · rw [hm] at h
        cases h
      · cases h
        exact hf

theorem overruns_bind_bounded (hs : s.Counted) (hm : Keeps m) (hf : ∀ a, Bounded (f a)) :
    Overruns (m >>= f) s ↔ Overruns m s := by
  rw [overruns_bind]
  constructor
  · rintro (h | ⟨a, t, ha, h⟩)
    · exact h
    · exact absurd h ((hf a).safe t (hm s a t hs ha))
  · exact .inl

theorem overruns_bounded_bind (hs : s.Counted) (hm : Bounded m) :
    Overruns (m >>= f) s ↔ ∃ a t, m s = .ok (a, t) ∧ Overruns (f a) t := by
  rw [overruns_bind]
  constructor
  · rintro (h | h)
    · exact absurd h (hm.safe s hs)
    · exact h
  · exact .inr

theorem keeps_bind (hm : Keeps m) (hf : ∀ a, Keeps (f a)) : Keeps (m >>= f) := by
  intro s b t hs h
  obtain ⟨a, mid, ha, hb⟩ := bind_eq_ok.mp h
  exact hf a mid b t (hm s a mid hs ha) hb

theorem bounded_bind (hm : Bounded m) (hf : ∀ a, Bounded (f a)) : Bounded (m >>= f) where
  keeps := keeps_bind hm.keeps fun a => (hf a).keeps
  safe := fun s hs h => hm.safe s hs ((overruns_bind_bounded hs hm.keeps hf).mp h)

/-! ### Each step -/

theorem not_overruns_of_ok {a : α} (h : m s = .ok (a, t)) : ¬ Overruns m s := by
  unfold Overruns
  rw [h]
  simp

theorem bounded_of_ok (h : ∀ s, ∃ a t, m s = .ok (a, t) ∧ t.argc = s.argc ∧ t.argv = s.argv) :
    Bounded m := by
  constructor
  · intro s a t hs hm
    obtain ⟨a', t', hm', hc, hv⟩ := h s
    rw [hm'] at hm
    cases hm
    unfold Cursor.Counted at hs ⊢
    rw [hc, hv, hs]
  · intro s hs
    obtain ⟨a, t, hm, -⟩ := h s
    exact not_overruns_of_ok hm

theorem bounded_pure (a : α) : Bounded (pure a : Parse φ υ α) :=
  bounded_of_ok fun s => ⟨a, s, rfl, rfl, rfl⟩

theorem bounded_argc : Bounded (argc : Parse φ υ (BitVec 32)) :=
  bounded_of_ok fun s => ⟨s.argc, s, rfl, rfl, rfl⟩

theorem bounded_getUnit : Bounded (getUnit : Parse φ υ υ) :=
  bounded_of_ok fun s => ⟨s.unit, s, rfl, rfl, rfl⟩

theorem bounded_modifyUnit (g : υ → υ) : Bounded (modifyUnit g : Parse φ υ Unit) :=
  bounded_of_ok fun s => ⟨(), { s with unit := g s.unit }, rfl, rfl, rfl⟩

theorem not_overruns_fault {e : φ} (h : m s = .error (.fault e)) : ¬ Overruns m s := by
  unfold Overruns
  rw [h]
  simp

theorem bounded_fail (e : φ) : Bounded (fail e : Parse φ υ α) where
  keeps := nofun
  safe := fun _ _ => not_overruns_fault rfl

theorem bounded_lift (e : Except φ α) : Bounded (lift e : Parse φ υ α) := by
  cases e with
  | ok a => exact bounded_pure a
  | error e => exact bounded_fail e

theorem bounded_ite {c : Prop} [Decidable c] {m m' : Parse φ υ α} (hm : Bounded m)
    (hm' : Bounded m') : Bounded (if c then m else m') := by
  split
  · exact hm
  · exact hm'

theorem bounded_forArgs {body : ℕ → Parse φ υ α} (h : ∀ i, Bounded (body i)) (n i : ℕ) :
    Bounded (forArgs body n i) := by
  induction n generalizing i with
  | zero => exact bounded_pure []
  | succ n ih => exact bounded_bind (h i) fun a => bounded_bind (ih (i + 1)) fun as => bounded_pure _

theorem keeps_arg (i : ℕ) : Keeps (arg i : Parse φ υ (BitVec 64)) := by
  intro s a t hs h
  unfold arg at h
  split at h
  · cases h
    exact hs
  · cases h

theorem arg_eq {i : ℕ} (h : i < s.argv.length) :
    (arg i : Parse φ υ (BitVec 64)) s = .ok (s.argv[i], s) := by
  unfold arg
  rw [List.getElem?_eq_getElem h]

theorem overruns_arg {i : ℕ} : Overruns (arg i : Parse φ υ (BitVec 64)) s ↔ s.argv.length ≤ i := by
  constructor
  · intro h
    by_contra hlt
    exact not_overruns_of_ok (arg_eq (Nat.lt_of_not_le hlt)) h
  · intro h
    unfold Overruns arg
    rw [List.getElem?_eq_none h]
    exact .inl rfl

theorem overruns_arg_bind {i : ℕ} {f : BitVec 64 → Parse φ υ β} (h : i < s.argv.length) :
    Overruns (arg i >>= f) s ↔ Overruns (f s.argv[i]) s := overruns_bind_ok (arg_eq h)

theorem overruns_arg_bounded {i : ℕ} {f : BitVec 64 → Parse φ υ β} (hs : s.Counted)
    (hf : ∀ a, Bounded (f a)) : Overruns (arg i >>= f) s ↔ s.argv.length ≤ i := by
  rw [overruns_bind_bounded hs (keeps_arg i) hf, overruns_arg]

theorem overruns_arg_arg {i j : ℕ} {f : BitVec 64 → BitVec 64 → Parse φ υ β} (hs : s.Counted)
    (hf : ∀ a b, Bounded (f a b)) :
    Overruns (arg i >>= fun a => arg j >>= f a) s ↔ s.argv.length ≤ i ∨ s.argv.length ≤ j := by
  by_cases hi : i < s.argv.length
  · rw [overruns_arg_bind hi, overruns_arg_bounded hs (hf _)]
    exact (or_iff_right (Nat.not_le.mpr hi)).symm
  · apply iff_of_true ?_ (.inl (Nat.not_lt.mp hi))
    rw [overruns_bind]
    exact .inl (overruns_arg.mpr (Nat.not_lt.mp hi))

theorem overruns_argc_bind {f : BitVec 32 → Parse φ υ β} :
    Overruns (argc >>= f) s ↔ Overruns (f s.argc) s := overruns_bind_ok rfl

theorem overruns_getUnit_bind {f : υ → Parse φ υ β} :
    Overruns (getUnit >>= f) s ↔ Overruns (f s.unit) s := overruns_bind_ok rfl

theorem overruns_advance_bind {n : ℕ} {f : Unit → Parse φ υ β} :
    Overruns (advance n >>= f) s ↔ Overruns (f ()) (s.drop n) := overruns_bind_ok rfl

theorem overruns_modifyUnit_bind {g : υ → υ} {f : Unit → Parse φ υ β} :
    Overruns (modifyUnit g >>= f) s ↔ Overruns (f ()) { s with unit := g s.unit } :=
  overruns_bind_ok rfl

theorem overruns_assertArgc_bounded {f : Unit → Parse φ υ β} (hs : s.Counted)
    (hf : s.argv ≠ [] → ¬ Overruns (f ()) s) :
    Overruns (assertArgc >>= f) s ↔ s.argv = [] := by
  by_cases hc : s.argc = 0
  · have hrun : (assertArgc : Parse φ υ Unit) s = .error .assertArgc := if_pos hc
    apply iff_of_true
    · unfold Overruns
      exact .inr (bind_error hrun)
    · exact (argc_eq_zero_iff hs).mp hc
  · have hrun : (assertArgc : Parse φ υ Unit) s = .ok ((), s) := if_neg hc
    have hne : s.argv ≠ [] := fun h => hc ((argc_eq_zero_iff hs).mpr h)
    rw [overruns_bind_ok hrun]
    exact iff_of_false (hf hne) hne

theorem overruns_lift_bind {e : Except φ α} :
    Overruns (lift e >>= f) s ↔ ∃ a, e = .ok a ∧ Overruns (f a) s := by
  cases e with
  | ok a =>
    rw [overruns_bind_ok (t := s) rfl]
    simp
  | error e => exact iff_of_false (not_overruns_fault rfl) (by simp)

/-! ### Loops over operands -/

def Still (m : Parse φ υ α) : Prop :=
  ∀ s a t, m s = .ok (a, t) → t.argc = s.argc ∧ t.argv = s.argv

theorem still_keeps (h : Still m) : Keeps m := by
  intro s a t hs hm
  obtain ⟨hc, hv⟩ := h s a t hm
  unfold Cursor.Counted at hs ⊢
  rw [hc, hv, hs]

theorem still_pure (a : α) : Still (pure a : Parse φ υ α) := by
  intro s a t h
  cases h
  exact ⟨rfl, rfl⟩

theorem still_getUnit : Still (getUnit : Parse φ υ υ) := by
  intro s a t h
  cases h
  exact ⟨rfl, rfl⟩

theorem still_fail (e : φ) : Still (fail e : Parse φ υ α) := nofun

theorem still_lift (e : Except φ α) : Still (lift e : Parse φ υ α) := by
  cases e with
  | ok a => exact still_pure a
  | error e => exact nofun

theorem still_ite {c : Prop} [Decidable c] {m m' : Parse φ υ α} (hm : Still m) (hm' : Still m') :
    Still (if c then m else m') := by
  split
  · exact hm
  · exact hm'

theorem still_arg (i : ℕ) : Still (arg i : Parse φ υ (BitVec 64)) := by
  intro s a t h
  unfold arg at h
  split at h
  · cases h
    exact ⟨rfl, rfl⟩
  · cases h

theorem still_bind (hm : Still m) (hf : ∀ a, Still (f a)) : Still (m >>= f) := by
  intro s b t h
  obtain ⟨a, mid, ha, hb⟩ := bind_eq_ok.mp h
  obtain ⟨hc, hv⟩ := hm s a mid ha
  obtain ⟨hc', hv'⟩ := hf a mid b t hb
  exact ⟨hc'.trans hc, hv'.trans hv⟩

theorem still_forArgs {body : ℕ → Parse φ υ α} (h : ∀ i, Still (body i)) (n i : ℕ) :
    Still (forArgs body n i) := by
  induction n generalizing i with
  | zero => exact still_pure []
  | succ n ih => exact still_bind (h i) fun a => still_bind (ih (i + 1)) fun as => still_pure _

theorem not_overruns_forArgs {body : ℕ → Parse φ υ α} {argv : List (BitVec 64)} {k : ℕ}
    (hstill : ∀ i, Still (body i))
    (hbody : ∀ i (s : Cursor υ), i < k → s.argv = argv → ¬ Overruns (body i) s)
    (n i : ℕ) (hn : i + n ≤ k) {s : Cursor υ} (hs : s.argv = argv) :
    ¬ Overruns (forArgs body n i) s := by
  induction n generalizing i s with
  | zero => exact not_overruns_of_ok rfl
  | succ n ih =>
    unfold forArgs
    rw [overruns_bind]
    rintro (h | ⟨a, t, ha, h⟩)
    · exact hbody i s (by omega) hs h
    · rw [overruns_bind] at h
      have ht : t.argv = argv := (hstill i s a t ha).2.trans hs
      rcases h with h | ⟨as, t', -, h⟩
      · exact ih (i + 1) (by omega) ht h
      · exact not_overruns_of_ok rfl h

theorem overruns_map {g : α → β} : Overruns (m >>= fun a => pure (g a)) s ↔ Overruns m s := by
  rw [overruns_bind]
  constructor
  · rintro (h | ⟨a, t, -, h⟩)
    · exact h
    · exact absurd h (not_overruns_of_ok rfl)
  · exact .inl

theorem not_overruns_whileArgs {exhausted : φ} {body : ℕ → Parse φ υ α} {fuel n : ℕ}
    (hc : s.argc = 0) : ¬ Overruns (whileArgs exhausted body (fuel + 1) n) s := by
  unfold whileArgs
  rw [overruns_argc_bind, if_pos hc]
  exact not_overruns_of_ok rfl

theorem overruns_whileArgs_ok {exhausted : φ} {body : ℕ → Parse φ υ α} {fuel n : ℕ} {a : α}
    (hc : s.argc ≠ 0) (hrun : body n s = .ok (a, t)) :
    Overruns (whileArgs exhausted body (fuel + 1) n) s
      ↔ Overruns (whileArgs exhausted body fuel (n + 1)) t := by
  rw [whileArgs, overruns_argc_bind, if_neg hc, overruns_bind_ok hrun, overruns_map]

theorem not_overruns_whileArgs_fault {exhausted : φ} {body : ℕ → Parse φ υ α} {fuel n : ℕ} {e : φ}
    (hc : s.argc ≠ 0) (hrun : body n s = .error (.fault e)) :
    ¬ Overruns (whileArgs exhausted body (fuel + 1) n) s := by
  rw [whileArgs, overruns_argc_bind, if_neg hc]
  exact not_overruns_fault (bind_error hrun)

/-- The operands `g i` are there. -/
theorem not_overruns_args {g : ℕ → ℕ} {n : ℕ} (hg : ∀ i < n, g i < s.argv.length) :
    ¬ Overruns (forArgs (fun i => arg (g i)) n 0 : Parse φ υ (List (BitVec 64))) s := by
  apply not_overruns_forArgs (fun i => still_arg (g i)) ?_ n 0 (Nat.le_of_eq (Nat.zero_add n)) rfl
  intro i t hi ht h
  have hlen := overruns_arg.mp h
  rw [ht] at hlen
  exact absurd (hg i hi) (Nat.not_lt.mpr hlen)

end

end Vmir.OperandReads
