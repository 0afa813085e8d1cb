import Vmir.ProgramText
import Vmir.ValueTable

set_option autoImplicit false

/-!
# The value table over a run

A place of the table holds an object from the first reference or the definition of the value up to
the end of its scope. Places between the next index and a forward reference are empty, but within
the vector.
-/
namespace Vmir.ValueTableRuns
open Ir ValueTable
open IrTypes hiding valueGet
open ProgramText (bind_ok)

/-- The place `i` holds the object `a`. -/
def Holds (s : Values) (i a : ℕ) : Prop := s.items[i]? = some (some a)

/-- The values in front of the next index and the forward references are objects of their own. -/
structure Sound (s : Values) (fs : List ℕ) : Prop where
  next_le : s.next ≤ s.items.length
  held_iff : ∀ i, (∃ a, Holds s i a) ↔ i < s.next ∨ i ∈ fs
  old : ∀ i a, Holds s i a → a < s.fresh
  apart : ∀ i j a, Holds s i a → Holds s j a → i = j

/-- The place `i` has got an object, if it had none. -/
structure Fills (s s' : Values) (i a : ℕ) : Prop where
  self : Holds s' i a
  object : ∀ b, Holds s i b → a = b
  new : (∀ b, ¬ Holds s i b) → a = s.fresh
  others : ∀ j b, j ≠ i → (Holds s' j b ↔ Holds s j b)
  objects : ∀ b < s.fresh, s'.objects b = s.objects b
  fresh : s.fresh ≤ s'.fresh
  below : a < s'.fresh
  length : s.items.length ≤ s'.items.length

section
variable {s s' : Values} {fs : List ℕ} {i a : ℕ}

theorem Fills.next {n : ℕ} (h : Fills s s' i a) : Fills s { s' with next := n } i a :=
  ⟨h.self, h.object, h.new, h.others, h.objects, h.fresh, h.below, h.length⟩

theorem create_fills (h : s.items[i]? = some none) : Fills s (create s i) i s.fresh := by
  have hlt : i < s.items.length := (List.getElem?_eq_some_iff.mp h).1
  have hself : Holds (create s i) i s.fresh := by
    change (s.items.set i (some s.fresh))[i]? = _
    rw [List.getElem?_set_self hlt]
  have hnone : ∀ b, ¬ Holds s i b := by
    intro b hb
    unfold Holds at hb
    rw [h] at hb
    cases hb
  constructor
  · exact hself
  · exact fun b hb => absurd hb (hnone b)
  · exact fun _ => rfl
  · intro j b hne
    change (s.items.set i (some s.fresh))[j]? = _ ↔ s.items[j]? = _
    rw [List.getElem?_set_ne hne.symm]
  · intro b hb
    exact Function.update_of_ne (Nat.ne_of_lt hb) _ _
  · exact Nat.le_succ _
  · exact Nat.lt_succ_self _
  · exact Nat.le_of_eq List.length_set.symm

theorem holds_append {n j b : ℕ} :
    Holds { s with items := s.items ++ List.replicate n none } j b ↔ Holds s j b := by
  unfold Holds
  rcases Nat.lt_or_ge j s.items.length with hlt | hge
  · rw [List.getElem?_append_left hlt]
  · change (s.items ++ List.replicate n none)[j]? = _ ↔ s.items[j]? = _
    rw [List.getElem?_append_right hge, List.getElem?_eq_none hge]
    constructor
    · intro h
      obtain ⟨hlt, heq⟩ := List.getElem?_eq_some_iff.mp h
      rw [List.getElem_replicate] at heq
      cases heq
    · intro h
      cases h

theorem Fills.appended {n : ℕ}
    (h : Fills { s with items := s.items ++ List.replicate n none } s' i a) : Fills s s' i a := by
  constructor
  · exact h.self
  · exact fun b hb => h.object b (holds_append.mpr hb)
  · exact fun hno => h.new fun b hb => hno b (holds_append.mp hb)
  · exact fun j b hne => (h.others j b hne).trans holds_append
  · exact h.objects
  · exact h.fresh
  · exact h.below
  · have hlen := h.length
    change (s.items ++ List.replicate n none).length ≤ _ at hlen
    rw [List.length_append] at hlen
    exact Nat.le_of_add_right_le hlen

theorem item_of_holds (h : Holds s i a) : item s i = .ok a := by
  unfold item
  rw [show s.items[i]? = some (some a) from h]

theorem holds_unique {b : ℕ} (h : Holds s i a) (hb : Holds s i b) : a = b :=
  Option.some.inj (Option.some.inj (h.symm.trans hb))

theorem fills_refl (h : Holds s i a) (ha : a < s.fresh) : Fills s s i a :=
  ⟨h, fun _ hb => holds_unique h hb, fun hno => absurd h (hno a), fun _ _ _ => Iff.rfl,
    fun _ _ => rfl, Nat.le_refl _, ha, Nat.le_refl _⟩

/-! ## The operations -/

theorem valueAppend_fills (hs : Sound s fs) (hnext : s.next + 1 < 2 ^ 31) :
    ∃ s' a, valueAppend s = .ok (s', s.next) ∧ Fills s s' s.next a ∧ s'.next = s.next + 1 := by
  unfold valueAppend
  rw [if_neg (Nat.not_le_of_lt hnext)]
  by_cases hlen : s.next = s.items.length
  · rw [if_pos hlen]
    have hfills : Fills { s with items := s.items ++ List.replicate 1 none }
        (create { s with items := s.items ++ [none] } s.next) s.next s.fresh := by
      apply create_fills
      change (s.items ++ [none])[s.next]? = _
      rw [hlen, List.getElem?_concat_length]
    exact ⟨_, _, rfl, hfills.appended.next, rfl⟩
  · rw [if_neg hlen]
    have hlt : s.next < s.items.length := Nat.lt_of_le_of_ne hs.next_le hlen
    cases hitem : s.items[s.next]? with
    | none =>
      rw [List.getElem?_eq_none_iff] at hitem
      exact absurd hlt (Nat.not_lt_of_le hitem)
    | some p =>
      cases p with
      | none => exact ⟨_, _, rfl, (create_fills hitem).next, rfl⟩
      | some a => exact ⟨_, _, rfl, (fills_refl hitem (hs.old _ a hitem)).next, rfl⟩

theorem materialize_fills (hold : ∀ j b, Holds s j b → b < s.fresh) (h : i < s.items.length) :
    ∃ a, Fills s (materialize s i) i a ∧ (materialize s i).next = s.next := by
  unfold materialize
  cases hitem : s.items[i]? with
  | none =>
    rw [List.getElem?_eq_none_iff] at hitem
    exact absurd h (Nat.not_lt_of_le hitem)
  | some p =>
    cases p with
    | none => exact ⟨_, create_fills hitem, rfl⟩
    | some a => exact ⟨a, fills_refl hitem (hold i a hitem), rfl⟩

theorem reference_fills (hs : Sound s fs) (hi : i + 1 < 2 ^ 31) :
    ∃ s₁ a, grow s i = .ok s₁ ∧ Fills s (materialize s₁ i) i a
      ∧ (materialize s₁ i).next = s.next := by
  unfold grow
  by_cases hlt : i < s.items.length
  · rw [if_pos hlt]
    obtain ⟨a, hfills, hnext⟩ := materialize_fills hs.old hlt
    exact ⟨s, a, rfl, hfills, hnext⟩
  · rw [if_neg hlt, if_neg (Nat.not_le_of_lt hi)]
    have hlen : i < (s.items ++ List.replicate (i + 1 - s.items.length) none).length := by
      rw [List.length_append, List.length_replicate]
      omega
    have hold : ∀ j b,
        Holds { s with items := s.items ++ List.replicate (i + 1 - s.items.length) none } j b →
          b < s.fresh := by
      intro j b hb
      exact hs.old j b (holds_append.mp hb)
    obtain ⟨a, hfills, hnext⟩ := materialize_fills hold hlen
    exact ⟨_, a, rfl, hfills.appended, hnext⟩

theorem Fills.own (hs : Sound s fs) (h : Fills s s' i a) : ∀ j, j ≠ i → ¬ Holds s j a := by
  intro j hj hb
  by_cases hold : ∃ b, Holds s i b
  · obtain ⟨b, hib⟩ := hold
    rw [← h.object b hib] at hib
    exact hj (hs.apart j i a hb hib)
  · have hfresh := h.new fun b hib => hold ⟨b, hib⟩
    exact absurd (hs.old j a hb) (Nat.not_lt_of_le (Nat.le_of_eq hfresh.symm))

theorem Fills.cases (h : Fills s s' i a) {j b : ℕ} (hb : Holds s' j b) :
    j = i ∧ b = a ∨ j ≠ i ∧ Holds s j b := by
  by_cases hj : j = i
  · subst hj
    exact Or.inl ⟨rfl, holds_unique hb h.self⟩
  · exact Or.inr ⟨hj, (h.others j b hj).mp hb⟩

theorem Fills.keeps (h : Fills s s' i a) {j b : ℕ} (hb : Holds s j b) : Holds s' j b := by
  by_cases hj : j = i
  · subst hj
    rw [← h.object b hb]
    exact h.self
  · exact (h.others j b hj).mpr hb

theorem Fills.sound (hs : Sound s fs) (h : Fills s s' i a) {f : ℕ → Object} {n : ℕ}
    {fs' : List ℕ} (hn : n ≤ s'.items.length)
    (hheld : ∀ j, j < n ∨ j ∈ fs' ↔ j = i ∨ j < s.next ∨ j ∈ fs) :
    Sound { s' with objects := f, next := n } fs' := by
  constructor
  · exact hn
  · intro j
    change (∃ b, Holds s' j b) ↔ j < n ∨ j ∈ fs'
    rw [hheld, ← hs.held_iff j]
    constructor
    · rintro ⟨b, hb⟩
      rcases h.cases hb with ⟨rfl, -⟩ | ⟨-, hold⟩
      · exact Or.inl rfl
      · exact Or.inr ⟨b, hold⟩
    · rintro (rfl | ⟨b, hb⟩)
      · exact ⟨a, h.self⟩
      · exact ⟨b, h.keeps hb⟩
  · intro j b hb
    rcases h.cases hb with ⟨-, rfl⟩ | ⟨-, hold⟩
    · exact h.below
    · exact Nat.lt_of_lt_of_le (hs.old j b hold) h.fresh
  · intro j k b hj hk
    rcases h.cases hj with ⟨rfl, rfl⟩ | ⟨hji, hjold⟩
    · rcases h.cases hk with ⟨rfl, -⟩ | ⟨hki, hkold⟩
      · rfl
      · exact absurd hkold (h.own hs k hki)
    · rcases h.cases hk with ⟨rfl, rfl⟩ | ⟨-, hkold⟩
      · exact absurd hjold (h.own hs j hji)
      · exact hs.apart j k b hjold hkold

/-- The places in front of `n` keep their objects, those that are defined the contents too. -/
structure Advances (s s' : Values) (n : ℕ) : Prop where
  holds : ∀ i < n, ∀ a, Holds s i a → Holds s' i a
  objects : ∀ i < n, i < s.next → ∀ a, Holds s i a → s'.objects a = s.objects a
  next : ∀ i < n, i < s.next → i < s'.next

theorem advances_refl {n : ℕ} : Advances s s n :=
  ⟨fun _ _ _ h => h, fun _ _ _ _ _ => rfl, fun _ _ h => h⟩

theorem Advances.trans {s'' : Values} {n : ℕ} (h : Advances s s' n) (h' : Advances s' s'' n) :
    Advances s s'' n := by
  constructor
  · exact fun i hi a ha => h'.holds i hi a (h.holds i hi a ha)
  · intro i hi hnext a ha
    rw [h'.objects i hi (h.next i hi hnext) a (h.holds i hi a ha), h.objects i hi hnext a ha]
  · exact fun i hi hnext => h'.next i hi (h.next i hi hnext)

theorem Advances.mono {n m : ℕ} (h : Advances s s' n) (hm : m ≤ n) : Advances s s' m := by
  constructor
  · exact fun i hi => h.holds i (Nat.lt_of_lt_of_le hi hm)
  · exact fun i hi => h.objects i (Nat.lt_of_lt_of_le hi hm)
  · exact fun i hi => h.next i (Nat.lt_of_lt_of_le hi hm)

theorem Fills.advances (hs : Sound s fs) (h : Fills s s' i a) (hi : s.next ≤ i) {o : Object}
    {m n : ℕ} (hm : s.next ≤ m) :
    Advances s { s' with objects := Function.update s'.objects a o, next := m } n := by
  constructor
  · exact fun j _ b hb => h.keeps hb
  · intro j _ hnext b hb
    have hne : b ≠ a := by
      rintro rfl
      exact h.own hs j (Nat.ne_of_lt (Nat.lt_of_lt_of_le hnext hi)) hb
    change Function.update s'.objects a o b = s.objects b
    rw [Function.update_of_ne hne]
    exact h.objects b (hs.old j b hb)
  · exact fun j _ hnext => Nat.lt_of_lt_of_le hnext hm

/-! ## The calls -/

theorem define_sound (hs : Sound s fs) (hnext : s.next + 1 < 2 ^ 31) (cls : ValueClass)
    (type : BitVec 32) :
    ∃ s' a, define s cls type = .ok (s', a) ∧ Sound s' fs ∧ (∀ n, Advances s s' n)
      ∧ s'.next = s.next + 1 ∧ Holds s' s.next a ∧ s'.objects a = ⟨cls, type⟩
      ∧ ∀ b, Holds s s.next b → a = b := by
  obtain ⟨s₁, a, happend, hfills, hs₁⟩ := valueAppend_fills hs hnext
  have hdefine : define s cls type
      = .ok ({ s₁ with objects := Function.update s₁.objects a ⟨cls, type⟩, next := s₁.next }, a) := by
    unfold define
    rw [happend]
    change (item s₁ s.next >>= _) = _
    rw [item_of_holds hfills.self]
    rfl
  have hlen : s₁.next ≤ s₁.items.length := by
    rw [hs₁]
    exact (List.getElem?_eq_some_iff.mp hfills.self).1
  have hheld : ∀ j, j < s₁.next ∨ j ∈ fs ↔ j = s.next ∨ j < s.next ∨ j ∈ fs := by
    intro j
    rw [hs₁]
    constructor
    · rintro (hlt | hmem)
      · rcases Nat.lt_succ_iff_lt_or_eq.mp hlt with hlt | heq
        · exact Or.inr (Or.inl hlt)
        · exact Or.inl heq
      · exact Or.inr (Or.inr hmem)
    · rintro (rfl | hlt | hmem)
      · exact Or.inl (Nat.lt_succ_self _)
      · exact Or.inl (Nat.lt_succ_of_lt hlt)
      · exact Or.inr hmem
  refine ⟨_, a, hdefine, hfills.sound hs hlen hheld, ?_, hs₁, hfills.self, ?_, hfills.object⟩
  · intro n
    apply hfills.advances hs (Nat.le_refl _)
    rw [hs₁]
    exact Nat.le_succ _
  · exact Function.update_self _ _ _

theorem backward_sound (hs : Sound s fs) {code : BitVec 64} (h : relative s code < s.next)
    (type : BitVec 64) :
    ∃ a, instrGetVtp s code type = .ok (s, a) ∧ Holds s (relative s code) a := by
  obtain ⟨a, ha⟩ := (hs.held_iff (relative s code)).mpr (Or.inl h)
  refine ⟨a, ?_, ha⟩
  unfold instrGetVtp
  rw [if_pos h, item_of_holds ha]
  rfl

theorem forward_sound (hs : Sound s fs) {code : BitVec 64} (h : ¬ relative s code < s.next)
    (hfit : relative s code + 1 < 2 ^ 31) (type : BitVec 64) :
    ∃ s' a, instrGetVtp s code type = .ok (s', a) ∧ Sound s' (relative s code :: fs)
      ∧ (∀ n, Advances s s' n) ∧ s'.next = s.next ∧ Holds s' (relative s code) a
      ∧ (s'.objects a).type = type.setWidth 32 ∧ ∀ b, Holds s (relative s code) b → a = b := by
  obtain ⟨s₁, a, hgrow, hfills, hs₁⟩ := reference_fills hs hfit
  have hget : instrGetVtp s code type
      = .ok ({ materialize s₁ (relative s code) with
          objects := Function.update (materialize s₁ (relative s code)).objects a
            { (materialize s₁ (relative s code)).objects a with type := type.setWidth 32 }
          next := (materialize s₁ (relative s code)).next }, a) := by
    unfold instrGetVtp
    rw [if_neg h, hgrow]
    change (item (materialize s₁ (relative s code)) (relative s code) >>= _) = _
    rw [item_of_holds hfills.self]
    rfl
  have hlen : (materialize s₁ (relative s code)).next
      ≤ (materialize s₁ (relative s code)).items.length := by
    rw [hs₁]
    exact Nat.le_trans hs.next_le hfills.length
  have hheld : ∀ j, j < (materialize s₁ (relative s code)).next ∨ j ∈ relative s code :: fs
      ↔ j = relative s code ∨ j < s.next ∨ j ∈ fs := by
    intro j
    rw [hs₁, List.mem_cons]
    exact or_left_comm
  refine ⟨_, a, hget, hfills.sound hs hlen hheld, ?_, hs₁, hfills.self, ?_, hfills.object⟩
  · intro n
    apply hfills.advances hs (Nat.le_of_not_lt h)
    exact Nat.le_of_eq hs₁.symm
  · simp only [Function.update_self]

theorem resize_holds {newsize : ℕ} (h : valueResize s newsize = .ok s') {j b : ℕ} :
    Holds s' j b ↔ j < newsize ∧ Holds s j b := by
  unfold valueResize at h
  split at h
  · cases h
  rename_i hle
  cases h
  have htake : (s.items.take newsize).length = newsize := by
    rw [List.length_take]
    exact Nat.min_eq_left (Nat.le_of_not_lt hle)
  unfold Holds
  rcases Nat.lt_or_ge j newsize with hlt | hge
  · rw [List.getElem?_append_left (Nat.lt_of_lt_of_le hlt (Nat.le_of_eq htake.symm)),
      List.getElem?_take_of_lt hlt]
    exact (and_iff_right hlt).symm
  · rw [List.getElem?_append_right (Nat.le_trans (Nat.le_of_eq htake) hge)]
    constructor
    · intro heq
      obtain ⟨hlt, hnone⟩ := List.getElem?_eq_some_iff.mp heq
      rw [List.getElem_replicate] at hnone
      cases hnone
    · intro hand
      exact absurd hand.1 (Nat.not_lt_of_le hge)

theorem resize_sound (hs : Sound s fs) {newsize : ℕ} (hle : newsize ≤ s.next) :
    ∃ s', valueResize s newsize = .ok s' ∧ Sound s' (fs.filter (· < newsize))
      ∧ (∀ n ≤ newsize, Advances s s' n) ∧ s'.next = newsize
      ∧ ∀ i, newsize ≤ i → i < s'.items.length → s'.items[i]? = some none := by
  have hlen : newsize ≤ s.items.length := Nat.le_trans hle hs.next_le
  obtain ⟨s', hresize⟩ : ∃ s', valueResize s newsize = .ok s' := by
    unfold valueResize
    rw [if_neg (Nat.not_lt_of_le hlen)]
    exact ⟨_, rfl⟩
  have hitems : s'.items = s.items.take newsize
      ++ List.replicate (s.items.length - newsize) none ∧ s'.next = newsize
      ∧ s'.objects = s.objects ∧ s'.fresh = s.fresh := by
    have hcopy := hresize
    unfold valueResize at hcopy
    rw [if_neg (Nat.not_lt_of_le hlen)] at hcopy
    cases hcopy
    exact ⟨rfl, rfl, rfl, rfl⟩
  obtain ⟨hitems, hnext, hobjects, hfresh⟩ := hitems
  have htake : (s.items.take newsize).length = newsize := by
    rw [List.length_take]
    exact Nat.min_eq_left hlen
  refine ⟨s', hresize, ?_, ?_, hnext, ?_⟩
  · constructor
    · rw [hnext, hitems, List.length_append, htake]
      exact Nat.le_add_right _ _
    · intro i
      have hholds : (∃ a, Holds s' i a) ↔ i < newsize ∧ ∃ a, Holds s i a := by
        simp only [resize_holds hresize, exists_and_left]
      rw [hholds, hs.held_iff, hnext, List.mem_filter, decide_eq_true_eq]
      constructor
      · exact fun h => Or.inl h.1
      · rintro (h | h)
        · exact ⟨h, Or.inl (Nat.lt_of_lt_of_le h hle)⟩
        · exact ⟨h.2, Or.inr h.1⟩
    · intro i a ha
      rw [hfresh]
      exact hs.old i a ((resize_holds hresize).mp ha).2
    · intro i j a hi hj
      exact hs.apart i j a ((resize_holds hresize).mp hi).2 ((resize_holds hresize).mp hj).2
  · intro n hn
    constructor
    · exact fun i hi a ha => (resize_holds hresize).mpr ⟨Nat.lt_of_lt_of_le hi hn, ha⟩
    · intro i _ _ a _
      rw [hobjects]
    · intro i hi _
      rw [hnext]
      exact Nat.lt_of_lt_of_le hi hn
  · intro i hge hlt
    rw [hitems, List.length_append, htake, List.length_replicate] at hlt
    rw [hitems, List.getElem?_append_right (Nat.le_trans (Nat.le_of_eq htake) hge), htake,
      List.getElem?_replicate]
    apply if_pos
    omega

theorem lookup_cases (hs : Sound s fs) (h : i < s.next ∨ i ∈ fs ∨ s.items.length ≤ i) :
    (∃ a, Holds s i a) ∨ s.items[i]? = none := by
  rcases h with hlt | hmem | hge
  · exact Or.inl ((hs.held_iff i).mpr (Or.inl hlt))
  · exact Or.inl ((hs.held_iff i).mpr (Or.inr hmem))
  · exact Or.inr (List.getElem?_eq_none hge)

theorem valueGet_sound (hs : Sound s fs) {index : BitVec 32} (h : Meets s fs (.valueGet index)) :
    (∃ a, valueGet s index = .ok (some a) ∧ Holds s index.toNat a)
      ∨ valueGet s index = .error (.parserError "Bad value index %d") := by
  unfold valueGet
  rcases lookup_cases hs h with ⟨a, ha⟩ | hnone
  · rw [show s.items[index.toNat]? = some (some a) from ha]
    exact Or.inl ⟨a, rfl, ha⟩
  · rw [hnone]
    exact Or.inr rfl

theorem valueFunction_sound (hs : Sound s fs) {id : BitVec 32}
    (h : Meets s fs (.valueFunction id)) :
    (∃ a g, valueFunction s id = .ok (some a) ∧ Holds s id.toNat a
        ∧ (s.objects a).cls = .function g)
      ∨ valueFunction s id = .ok none := by
  unfold valueFunction
  by_cases hmsb : id.msb
  · rw [if_pos hmsb]
    exact Or.inr rfl
  · rw [if_neg hmsb]
    rcases lookup_cases hs h with ⟨a, ha⟩ | hnone
    · rw [show s.items[id.toNat]? = some (some a) from ha]
      cases hcls : (s.objects a).cls
      case function g =>
        refine Or.inl ⟨a, g, ?_, ha, hcls⟩
        simp only [hcls]
      all_goals
        right
        simp only [hcls]
    · rw [hnone]
      exact Or.inr rfl

/-! ## Runs -/

theorem step_define {cls : ValueClass} {type : BitVec 32} {a : ℕ}
    (h : define s cls type = .ok (s', a)) : step s (.define cls type) = .ok (s', some a) := by
  change (define s cls type >>= _) = _
  rw [h]
  rfl

theorem step_instrGetVtp {code type : BitVec 64} {a : ℕ}
    (h : instrGetVtp s code type = .ok (s', a)) :
    step s (.instrGetVtp code type) = .ok (s', some a) := by
  change (instrGetVtp s code type >>= _) = _
  rw [h]
  rfl

theorem step_valueResize {newsize : ℕ} (h : valueResize s newsize = .ok s') :
    step s (.valueResize newsize) = .ok (s', none) := by
  change (valueResize s newsize >>= _) = _
  rw [h]
  rfl

theorem step_valueGet {index : BitVec 32} {p : Option ℕ} (h : valueGet s index = .ok p) :
    step s (.valueGet index) = .ok (s, p) := by
  change (valueGet s index >>= _) = _
  rw [h]
  rfl

theorem step_valueFunction {id : BitVec 32} {p : Option ℕ} (h : valueFunction s id = .ok p) :
    step s (.valueFunction id) = .ok (s, p) := by
  change (valueFunction s id >>= _) = _
  rw [h]
  rfl

/-- The call does not remove a place in front of `n`. -/
def From (n : ℕ) : Call → Prop
  | .valueResize newsize => n ≤ newsize
  | _ => True

theorem step_sound (hs : Sound s fs) {c : Call} (hp : Parses s c) (hm : Meets s fs c) :
    (∃ s' p, step s c = .ok (s', p) ∧ Sound s' (forwards s fs c)
        ∧ ∀ n, From n c → Advances s s' n)
      ∨ step s c = .error (.parserError "Bad value index %d") := by
  cases c with
  | define cls type =>
    obtain ⟨s', a, hdefine, hs', hadv, -⟩ := define_sound hs hm cls type
    exact Or.inl ⟨s', some a, step_define hdefine, hs', fun n _ => hadv n⟩
  | instrGetVtp code type =>
    left
    by_cases hlt : relative s code < s.next
    · obtain ⟨a, hget, -⟩ := backward_sound hs hlt type
      refine ⟨s, some a, step_instrGetVtp hget, ?_, fun _ _ => advances_refl⟩
      change Sound s (if relative s code < s.next then fs else relative s code :: fs)
      rw [if_pos hlt]
      exact hs
    · obtain ⟨s', a, hget, hs', hadv, -⟩ :=
        forward_sound hs hlt (hm.resolve_left hlt) type
      refine ⟨s', some a, step_instrGetVtp hget, ?_, fun n _ => hadv n⟩
      change Sound s' (if relative s code < s.next then fs else relative s code :: fs)
      rw [if_neg hlt]
      exact hs'
  | valueResize newsize =>
    obtain ⟨s', hresize, hs', hadv, -⟩ := resize_sound hs hp
    exact Or.inl ⟨s', none, step_valueResize hresize, hs', hadv⟩
  | valueGet index =>
    rcases valueGet_sound hs hm with ⟨a, hget, -⟩ | hget
    · exact Or.inl ⟨s, some a, step_valueGet hget, hs, fun _ _ => advances_refl⟩
    · right
      change (valueGet s index >>= _) = _
      rw [hget]
      rfl
  | valueFunction id =>
    left
    rcases valueFunction_sound hs hm with ⟨a, g, hget, -⟩ | hget
    · exact ⟨s, some a, step_valueFunction hget, hs, fun _ _ => advances_refl⟩
    · exact ⟨s, none, step_valueFunction hget, hs, fun _ _ => advances_refl⟩

/-- A run that removes no place in front of `n`. -/
inductive Within (n : ℕ) : Values → List ℕ → Values → List ℕ → Prop
  | refl (s : Values) (fs : List ℕ) : Within n s fs s fs
  | step {s s' s'' : Values} {fs fs' : List ℕ} {c : Call} {p : Option ℕ} : Within n s fs s' fs' →
    Parses s' c → Meets s' fs' c → From n c → ValueTable.step s' c = .ok (s'', p) →
    Within n s fs s'' (forwards s' fs' c)

theorem within_sound {n : ℕ} {fs' : List ℕ} (hs : Sound s fs) (h : Within n s fs s' fs') :
    Sound s' fs' ∧ Advances s s' n := by
  induction h with
  | refl => exact ⟨hs, advances_refl⟩
  | step _ hp hm hfrom hstep ih =>
    obtain ⟨hs', hadv⟩ := ih hs
    rcases step_sound hs' hp hm with ⟨s₂, p₂, hstep₂, hs₂, hadv₂⟩ | herr
    · rw [hstep] at hstep₂
      cases hstep₂
      exact ⟨hs₂, hadv.trans (hadv₂ n hfrom)⟩
    · rw [hstep] at herr
      cases herr

theorem empty_sound : Sound empty [] := by
  have hnot : ∀ i a, ¬ Holds empty i a := by
    intro i a h
    unfold Holds at h
    cases h
  constructor
  · exact Nat.le_refl _
  · intro i
    constructor
    · rintro ⟨a, ha⟩
      exact absurd ha (hnot i a)
    · rintro (h | h)
      · exact absurd h (Nat.not_lt_zero i)
      · cases h
  · exact fun i a h => absurd h (hnot i a)
  · exact fun i j a h => absurd h (hnot i a)

theorem reach_sound (h : Reach Meets s fs) : Sound s fs := by
  induction h with
  | start => exact empty_sound
  | step _ hp hm hstep ih =>
    rcases step_sound ih hp hm with ⟨s₂, p₂, hstep₂, hs₂, -⟩ | herr
    · rw [hstep] at hstep₂
      cases hstep₂
      exact hs₂
    · rw [hstep] at herr
      cases herr

/-- What the table promises in a state of a run. -/
structure Correct (s : Values) (fs : List ℕ) : Prop where
  next_le : s.next ≤ s.items.length
  defined : ∀ i < s.next, ∃ a, Holds s i a
  apart : ∀ i j a, Holds s i a → Holds s j a → i = j
  /-- A call returns, or it reports a bad index. -/
  ends : ∀ c, Parses s c → Meets s fs c →
    (∃ s' p, step s c = .ok (s', p)) ∨ ∃ text, step s c = .error (.parserError text)
  accepted : ∀ index p, Meets s fs (.valueGet index) → valueGet s index = .ok p →
    ∃ a, p = some a ∧ Holds s index.toNat a
  functions : ∀ id, Meets s fs (.valueFunction id) → ∃ p, valueFunction s id = .ok p
    ∧ ∀ a, p = some a → Holds s id.toNat a ∧ ∃ g, (s.objects a).cls = .function g
  /-- What is defined here stays until a resize removes it. -/
  keeps : ∀ n s' fs', Within n s fs s' fs' → ∀ i < n, i < s.next → ∀ a, Holds s i a →
    i < s'.next ∧ Holds s' i a ∧ s'.objects a = s.objects a
  /-- A definition gives its value the class and the type. -/
  defines : ∀ cls type s' a, define s cls type = .ok (s', a) → Meets s fs (.define cls type) →
    Holds s' s.next a ∧ s.next < s'.next ∧ s'.objects a = ⟨cls, type⟩
  /-- The definition takes the object of the forward reference. -/
  forward : ∀ code type s₁ a, instrGetVtp s code type = .ok (s₁, a) →
    Meets s fs (.instrGetVtp code type) → s.next ≤ relative s code →
    Holds s₁ (relative s code) a ∧
    ∀ s₂ fs₂, Within (relative s code + 1) s₁ (relative s code :: fs) s₂ fs₂ →
      s₂.next = relative s code →
      ∀ cls type' s₃ b, define s₂ cls type' = .ok (s₃, b) → Meets s₂ fs₂ (.define cls type') →
        b = a ∧ s₃.objects a = ⟨cls, type'⟩
  /-- A resize to the size at the start of a scope removes what the scope has added. -/
  resizes : ∀ s' fs', Within s.next s fs s' fs' → ∃ s'', valueResize s' s.next = .ok s''
    ∧ s''.next = s.next ∧ (∀ i a, Holds s'' i a ↔ i < s.next ∧ Holds s i a)
    ∧ (∀ i < s.next, ∀ a, Holds s i a → s''.objects a = s.objects a)
    ∧ ∀ i, s.next ≤ i → i < s''.items.length → s''.items[i]? = some none

theorem define_forward (hs : Sound s fs) {code type : BitVec 64}
    (hget : instrGetVtp s code type = .ok (s', a)) (hm : Meets s fs (.instrGetVtp code type))
    (hge : s.next ≤ relative s code) :
    Holds s' (relative s code) a ∧
    ∀ s₂ fs₂, Within (relative s code + 1) s' (relative s code :: fs) s₂ fs₂ →
      s₂.next = relative s code →
      ∀ cls type' s₃ b, define s₂ cls type' = .ok (s₃, b) → Meets s₂ fs₂ (.define cls type') →
        b = a ∧ s₃.objects a = ⟨cls, type'⟩ := by
  have hlt : ¬ relative s code < s.next := Nat.not_lt_of_le hge
  obtain ⟨s₁, a₁, hget₁, hs₁, -, -, hself, -⟩ := forward_sound hs hlt (hm.resolve_left hlt) type
  rw [hget] at hget₁
  cases hget₁
  refine ⟨hself, ?_⟩
  intro s₂ fs₂ hwithin hnext cls type' s₃ b hdefine hfit
  obtain ⟨hs₂, hadv⟩ := within_sound hs₁ hwithin
  have hheld : Holds s₂ (relative s code) a := hadv.holds _ (Nat.lt_succ_self _) a hself
  obtain ⟨s₄, b₄, hdefine₄, -, -, -, -, hobject, hsame⟩ := define_sound hs₂ hfit cls type'
  rw [hdefine] at hdefine₄
  cases hdefine₄
  have heq : b = a := hsame a (by rw [hnext]; exact hheld)
  rw [← heq]
  exact ⟨rfl, hobject⟩

theorem resize_scope (hs : Sound s fs) {fs' : List ℕ} (h : Within s.next s fs s' fs') :
    ∃ s'', valueResize s' s.next = .ok s''
      ∧ s''.next = s.next ∧ (∀ i a, Holds s'' i a ↔ i < s.next ∧ Holds s i a)
      ∧ (∀ i < s.next, ∀ a, Holds s i a → s''.objects a = s.objects a)
      ∧ ∀ i, s.next ≤ i → i < s''.items.length → s''.items[i]? = some none := by
  obtain ⟨hs', hadv⟩ := within_sound hs h
  have hle : s.next ≤ s'.next := by
    rcases Nat.eq_zero_or_pos s.next with hzero | hpos
    · omega
    · have := hadv.next (s.next - 1) (by omega) (by omega)
      omega
  obtain ⟨s'', hresize, hs'', hadv', hnext, hnone⟩ := resize_sound hs' hle
  have hall := hadv.trans (hadv' s.next (Nat.le_refl _))
  refine ⟨s'', hresize, hnext, ?_, fun i hi => hall.objects i hi hi, hnone⟩
  intro i a
  constructor
  · intro ha
    have hlt : i < s.next := ((resize_holds hresize).mp ha).1
    obtain ⟨b, hb⟩ := (hs.held_iff i).mpr (Or.inl hlt)
    have heq : b = a := holds_unique (hall.holds i hlt b hb) ha
    rw [← heq]
    exact ⟨hlt, hb⟩
  · exact fun h => hall.holds i h.1 a h.2

theorem Sound.correct (hs : Sound s fs) : Correct s fs := by
  constructor
  · exact hs.next_le
  · exact fun i hi => (hs.held_iff i).mpr (Or.inl hi)
  · exact hs.apart
  · intro c hp hm
    rcases step_sound hs hp hm with ⟨s', p, hstep, -⟩ | herr
    · exact Or.inl ⟨s', p, hstep⟩
    · exact Or.inr ⟨_, herr⟩
  · intro index p hm hget
    rcases valueGet_sound hs hm with ⟨a, hget', ha⟩ | herr
    · rw [hget] at hget'
      cases hget'
      exact ⟨a, rfl, ha⟩
    · rw [hget] at herr
      cases herr
  · intro id hm
    rcases valueFunction_sound hs hm with ⟨a, g, hget, ha, hcls⟩ | hnone
    · refine ⟨some a, hget, ?_⟩
      intro b hb
      cases hb
      exact ⟨ha, g, hcls⟩
    · exact ⟨none, hnone, fun _ hb => nomatch hb⟩
  · intro n s' fs' h i hi hlt a ha
    obtain ⟨-, hadv⟩ := within_sound hs h
    exact ⟨hadv.next i hi hlt, hadv.holds i hi a ha, hadv.objects i hi hlt a ha⟩
  · intro cls type s' a hdefine hfit
    obtain ⟨s₁, a₁, hdefine₁, -, -, hnext, hself, hobject, -⟩ := define_sound hs hfit cls type
    rw [hdefine] at hdefine₁
    cases hdefine₁
    refine ⟨hself, ?_, hobject⟩
    rw [hnext]
    exact Nat.lt_succ_self _
  · exact fun code type s₁ a hget hm hge => define_forward hs hget hm hge
  · exact fun s' fs' h => resize_scope hs h

/-- In a run whose indices fit and that looks up only what has been referred to, the table keeps
its promises in every state. -/
theorem table_correct (h : Reach Meets s fs) : Correct s fs :=
  (reach_sound h).correct

end

/-- One value, and a reference to the value three places behind it. -/
def oneReference : Values :=
  ⟨[some 0, none, none, some 1], 1, Function.update (Function.update (Function.update
    (Function.update (fun _ => zeroed) 0 zeroed) 0 ⟨.temporary, 2⟩) 1 zeroed) 1 ⟨.undef, 2⟩, 2⟩

theorem oneReference_reach {allowed : Values → List ℕ → Call → Prop}
    (hdefine : allowed empty [] (.define .temporary 2))
    (href : ∀ s, s.next = 1 → allowed s [] (.instrGetVtp (-2) 2)) :
    Reach allowed oneReference [3] := by
  have hfirst : Reach allowed ⟨[some 0], 1, Function.update
      (Function.update (fun _ => zeroed) 0 zeroed) 0 ⟨.temporary, 2⟩, 1⟩ [] :=
    Reach.step (c := .define .temporary 2) (p := some 0) Reach.start trivial hdefine rfl
  exact Reach.step (c := .instrGetVtp (-2) 2) (p := some 1) hfirst trivial (href _ rfl) rfl

theorem oneReference_correct : Correct oneReference [3] := by
  apply table_correct
  apply oneReference_reach
  · change 0 + 1 < 2 ^ 31
    decide
  · intro s hs
    right
    unfold relative
    rw [hs]
    decide

/-- The index behind the one value is accepted, but there is no value. -/
theorem hole_accepted : ¬ ∀ s fs, Reach (fun _ _ _ => True) s fs → ∀ index p,
    valueGet s index = .ok p → p ≠ none := by
  intro h
  exact h oneReference [3] (oneReference_reach trivial fun _ _ => trivial) 1 none rfl rfl

end Vmir.ValueTableRuns
