import Mathlib.Data.List.Induction
import Mathlib.Data.List.Nodup
import Mathlib.Logic.Function.Basic

set_option autoImplicit false

/-!
# Intrusive doubly linked lists

The `LIST_*` macros of the BSD `sys/queue.h`. An element keeps its own links after it has been
unlinked, so unlinking it again acts through links that may be out of date. `Linked` says that
the links spell out a given sequence; `remove_again` is the one case in which a second unlink is
harmless.
-/
namespace Vmir.IntrusiveList

/-- `prev e = none` is the address of the list head, `prev e = some p` that of `p`'s next link. -/
structure Links (α : Type) where
  first : Option α
  next : α → Option α
  prev : α → Option α

variable {α : Type}

/-- `LIST_INIT`; the links of elements outside the list are arbitrary memory, here null. -/
def init : Links α := ⟨none, fun _ => none, fun _ => none⟩

variable [DecidableEq α]

/-- The first half of both macros: the element after `e`, if any, gets a new back link. -/
def setPrev (prev : α → Option α) (at? : Option α) (p : Option α) : α → Option α :=
  match at? with
  | some n => Function.update prev n p
  | none => prev

/-- `LIST_INSERT_HEAD`. -/
def insertHead (q : Links α) (e : α) : Links α where
  first := some e
  next := Function.update q.next e q.first
  prev := Function.update (setPrev q.prev q.first (some e)) e none

/-- `LIST_REMOVE`. -/
def remove (q : Links α) (e : α) : Links α :=
  let prev := setPrev q.prev (q.next e) (q.prev e)
  match q.prev e with
  | none => { q with first := q.next e, prev := prev }
  | some p => { q with next := Function.update q.next p (q.next e), prev := prev }

/-- The links of the elements of a segment whose left neighbour is `p`. -/
def Segment (q : Links α) : Option α → List α → Prop
  | _, [] => True
  | p, e :: l => q.prev e = p ∧ q.next e = l.head? ∧ Segment q (some e) l

/-- The links spell out the sequence `l`. -/
structure Linked (q : Links α) (l : List α) : Prop where
  first : q.first = l.head?
  segment : Segment q none l
  nodup : l.Nodup

omit [DecidableEq α] in
theorem linked_init : Linked (init : Links α) [] := ⟨rfl, trivial, List.nodup_nil⟩

omit [DecidableEq α] in
theorem segment_congr {q r : Links α} {p : Option α} {l : List α}
    (hp : ∀ e ∈ l, r.prev e = q.prev e) (hn : ∀ e ∈ l, r.next e = q.next e)
    (h : Segment q p l) : Segment r p l := by
  induction l generalizing p with
  | nil => trivial
  | cons e l ih =>
    obtain ⟨h1, h2, h3⟩ := h
    refine ⟨(hp e (by simp)).trans h1, (hn e (by simp)).trans h2, ih ?_ ?_ h3⟩
    · exact fun x hx => hp x (List.mem_cons_of_mem _ hx)
    · exact fun x hx => hn x (List.mem_cons_of_mem _ hx)

theorem insertHead_linked {q : Links α} {l : List α} {e : α} (h : Linked q l) (he : e ∉ l) :
    Linked (insertHead q e) (e :: l) := by
  refine ⟨rfl, ⟨by simp [insertHead], by simp [insertHead, h.first], ?_⟩,
    List.nodup_cons.mpr ⟨he, h.nodup⟩⟩
  cases l with
  | nil => trivial
  | cons f l =>
    obtain ⟨_, hf, hs⟩ := h.segment
    have hfirst : q.first = some f := h.first
    have hne : f ≠ e := fun he' => he (by simp [he'])
    refine ⟨by simp [insertHead, hfirst, setPrev, hne], by simpa [insertHead, hne] using hf,
      segment_congr ?_ ?_ hs⟩
    · intro x hx
      have hxe : x ≠ e := fun h' => he (by simp [← h', hx])
      have hxf : x ≠ f := fun h' => (List.nodup_cons.mp h.nodup).1 (h' ▸ hx)
      simp [insertHead, hfirst, setPrev, hxe, hxf]
    · intro x hx
      have hxe : x ≠ e := fun h' => he (by simp [← h', hx])
      simp [insertHead, hxe]

/-- The left neighbour of what follows `l`, when the left neighbour of `l` itself is `p`. -/
def lastOr (p : Option α) : List α → Option α
  | [] => p
  | e :: l => lastOr (some e) l

omit [DecidableEq α] in
theorem lastOr_mem {p : Option α} {l : List α} {x : α} (h : lastOr p l = some x) (hx : p ≠ some x) :
    x ∈ l := by
  induction l generalizing p with
  | nil => exact absurd h hx
  | cons e l ih =>
    by_cases he : e = x
    · simp [he]
    · exact List.mem_cons_of_mem _ (ih h (by simpa using he))

omit [DecidableEq α] in
theorem lastOr_concat (p : Option α) (l : List α) (x : α) : lastOr p (l ++ [x]) = some x := by
  induction l generalizing p with
  | nil => rfl
  | cons e l ih => exact ih (some e)

omit [DecidableEq α] in
theorem lastOr_none_iff {l : List α} : lastOr none l = none ↔ l = [] := by
  cases l using List.reverseRecOn with
  | nil => simp [lastOr]
  | append_singleton l x => simp [lastOr_concat]

omit [DecidableEq α] in
theorem lastOr_some_iff {l : List α} {x : α} : lastOr none l = some x ↔ ∃ m, l = m ++ [x] := by
  cases l using List.reverseRecOn with
  | nil => simp [lastOr]
  | append_singleton l y => simp [lastOr_concat]

omit [DecidableEq α] in
theorem segment_append {q : Links α} {p : Option α} {l m : List α} :
    Segment q p (l ++ m) → Segment q (lastOr p l) m := by
  induction l generalizing p with
  | nil => exact id
  | cons e l ih => exact fun h => ih h.2.2

omit [DecidableEq α] in
theorem linked_links {q : Links α} {l m : List α} {e : α} (h : Linked q (l ++ e :: m)) :
    q.prev e = lastOr none l ∧ q.next e = m.head? := by
  have hs := segment_append (l := l) h.segment
  exact ⟨hs.1, hs.2.1⟩

omit [DecidableEq α] in
/-- Removing the element after `l` keeps `l`, whose last element now points past it. -/
theorem segment_unlink {q r : Links α} {p : Option α} {l m : List α} {e : α}
    (hnd : (l ++ e :: m).Nodup) (hp : ∀ x, p = some x → x ∉ l ++ e :: m)
    (hprev : ∀ x, x ∉ m.head? → r.prev x = q.prev x)
    (hhead : ∀ x ∈ m.head?, r.prev x = lastOr p l)
    (hnext : ∀ x, lastOr p l ≠ some x → r.next x = q.next x)
    (hlast : ∀ x ∈ l, lastOr p l = some x → r.next x = m.head?)
    (h : Segment q p (l ++ e :: m)) : Segment r p (l ++ m) := by
  induction l generalizing p with
  | nil =>
    obtain ⟨_, _, hm⟩ := h
    cases m with
    | nil => trivial
    | cons f m =>
      obtain ⟨_, hf, hs⟩ := hm
      have hnd' : (e :: f :: m).Nodup := hnd
      have hne : ∀ x ∈ f :: m, p ≠ some x := fun x hx h' => hp x h' (by
        simp only [List.nil_append, List.mem_cons]
        exact Or.inr (by simpa using hx))
      refine ⟨hhead f (by simp), (hnext f (hne f (by simp))).trans hf, segment_congr ?_ ?_ hs⟩
      · intro x hx
        refine hprev x ?_
        have := (List.nodup_cons.mp (List.nodup_cons.mp hnd').2).1
        simp only [List.head?_cons, Option.mem_def, Option.some.injEq]
        rintro rfl
        exact this hx
      · exact fun x hx => hnext x (hne x (List.mem_cons_of_mem _ hx))
  | cons a l ih =>
    obtain ⟨h1, h2, h3⟩ := h
    have hnd' := List.nodup_cons.mp hnd
    have ham : a ∉ m.head? := fun ha => hnd'.1 (by
      have := List.mem_of_mem_head? ha
      simp [this])
    refine ⟨(hprev a ham).trans h1, ?_, ?_⟩
    · cases l with
      | nil => exact hlast a (by simp) rfl
      | cons b l =>
        have hb : lastOr p (a :: b :: l) ≠ some a := fun hb => by
          have := lastOr_mem (p := some b) (l := l) hb (by
            simp only [ne_eq, Option.some.injEq]
            rintro rfl
            exact hnd'.1 (by simp))
          exact hnd'.1 (by simp [this])
        exact (hnext a hb).trans (by simpa using h2)
    · refine ih hnd'.2 ?_ ?_ ?_ ?_ h3
      · intro x hx
        simp only [Option.some.injEq] at hx
        exact hx ▸ hnd'.1
      · exact hhead
      · exact hnext
      · exact fun x hx h' => hlast x (List.mem_cons_of_mem _ hx) h'

theorem remove_linked {q : Links α} {l m : List α} {e : α} (h : Linked q (l ++ e :: m)) :
    Linked (remove q e) (l ++ m) := by
  obtain ⟨hprev, hnext⟩ := linked_links h
  have hnd : (l ++ m).Nodup := h.nodup.sublist (by simp)
  have hset : ∀ x, x ∉ m.head? → setPrev q.prev (q.next e) (q.prev e) x = q.prev x := by
    intro x hx
    rw [hnext]
    cases m with
    | nil => rfl
    | cons f m =>
      have : x ≠ f := fun h' => hx (by simp [h'])
      simp [setPrev, this]
  have hseth : ∀ x ∈ m.head?, setPrev q.prev (q.next e) (q.prev e) x = lastOr none l := by
    intro x hx
    cases m with
    | nil => simp at hx
    | cons f m =>
      have : f = x := by simpa using hx
      rw [hnext, hprev, ← this]
      simp [setPrev]
  cases hl : lastOr none l with
  | none =>
    obtain rfl := lastOr_none_iff.mp hl
    have hq : remove q e =
        { q with first := q.next e, prev := setPrev q.prev (q.next e) (q.prev e) } := by
      have : q.prev e = none := hprev
      simp [remove, this]
    refine ⟨by simp [hq, hnext], ?_, hnd⟩
    refine segment_unlink h.nodup (by simp) (by simpa [hq] using hset) (by simpa [hq] using hseth)
      (by simp [hq]) (by simp) h.segment
  | some p =>
    have hq : remove q e = { q with
        next := Function.update q.next p (q.next e)
        prev := setPrev q.prev (q.next e) (q.prev e) } := by
      have : q.prev e = some p := hprev.trans hl
      simp [remove, this]
    have hfirst : (l ++ m).head? = (l ++ e :: m).head? := by
      cases l with
      | nil => simp [lastOr] at hl
      | cons a l => rfl
    refine ⟨by rw [hfirst, hq]; exact h.first, ?_, hnd⟩
    refine segment_unlink h.nodup (by simp) (by simpa [hq] using hset) (by simpa [hq] using hseth)
      ?_ ?_ h.segment
    · intro x hx
      have : x ≠ p := fun h' => hx (by rw [hl, h'])
      simp [hq, this]
    · intro x _ hx
      have : x = p := by simpa [hl] using hx.symm
      simp [hq, this, hnext]

/-- What `e` still remembers of its neighbours is what stands around the gap it left. -/
def Gap (q : Links α) (e : α) (l m : List α) : Prop :=
  q.prev e = lastOr none l ∧ q.next e = m.head?

theorem remove_gap {q : Links α} {l m : List α} {e : α} (h : Linked q (l ++ e :: m)) :
    Gap (remove q e) e l m := by
  obtain ⟨hprev, hnext⟩ := linked_links h
  have hem : e ∉ l ++ m := by
    have := h.nodup
    rw [List.nodup_middle] at this
    exact (List.nodup_cons.mp this).1
  have he : e ∉ m.head? := fun h' => hem (by simp [List.mem_of_mem_head? h'])
  have hset : setPrev q.prev (q.next e) (q.prev e) e = q.prev e := by
    rw [hnext]
    cases m with
    | nil => rfl
    | cons f m =>
      have : e ≠ f := fun h' => he (by simp [h'])
      simp [setPrev, this]
  unfold remove
  cases hp : q.prev e with
  | none => exact ⟨by simpa [hp] using hset.trans hprev, hnext⟩
  | some p =>
    have hpe : e ≠ p := by
      rintro rfl
      exact hem (by simp [lastOr_mem (p := none) (l := l) (hprev.symm.trans hp) (by simp)])
    exact ⟨by simpa [hp] using hset.trans hprev, by simp [hpe, hnext]⟩

/-- Unlinking `e` once more changes nothing as long as its old neighbours are still adjacent. -/
theorem remove_again {q : Links α} {l m : List α} {e : α} (h : Linked q (l ++ m))
    (hg : Gap q e l m) : remove q e = q := by
  obtain ⟨hprev, hnext⟩ := hg
  have hset : setPrev q.prev (q.next e) (q.prev e) = q.prev := by
    rw [hnext, hprev]
    cases m with
    | nil => rfl
    | cons f m =>
      have hf := (segment_append (l := l) h.segment).1
      simp only [setPrev, List.head?_cons]
      rw [← hf, Function.update_eq_self]
  unfold remove
  rw [hset]
  cases hp : q.prev e with
  | none =>
    obtain rfl := lastOr_none_iff.mp (hprev.symm.trans hp)
    have : q.next e = q.first := hnext.trans h.first.symm
    simp [this]
  | some p =>
    have hnp : q.next p = m.head? := by
      obtain ⟨l', rfl⟩ := lastOr_some_iff.mp (hprev.symm.trans hp)
      exact (linked_links (l := l') (e := p) (m := m) (by simpa using h)).2
    simp only [hnext]
    rw [← hnp, Function.update_eq_self]

end Vmir.IntrusiveList
