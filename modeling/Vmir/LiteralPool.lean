import Vmir.ArmCore
import Vmir.ExceptFold
import Vmir.JitBuffer
import Vmir.JitEmit

set_option autoImplicit false

/-!
# The bounds of the literal pool

A function is a row of stretches, each the items between two flushes of the pool. The assertions
about the pool hold, and each load addresses its own constant, exactly when all stretches are short.
-/
namespace Vmir.LiteralPool
open Ir JitArm JitBuffer JitEmit ExceptFold

/-! ## Stretches -/

/-- What the chunks append between two flushes, behind `items` that wait for one. -/
def stretchesFrom (items : List Item) (chunks : List Chunk) : List (List Item) :=
  match chunks with
  | [] => [items]
  | c :: cs =>
    if c.pushPool then (items ++ c.items) :: stretchesFrom [] cs
    else stretchesFrom (items ++ c.items) cs

def stretches (chunks : List Chunk) : List (List Item) := stretchesFrom [] chunks

def wordsIn (items : List Item) : ℕ := (items.flatMap wordsOf).length

def literals (items : List Item) : List PoolEntry := entriesFrom 0 items

/-- Of the stretch at the word `start`: no load is more than the 256th, and each is within 4095
bytes of its entry, as far as the buffer has room for the words in front of the load and of the
entry. -/
def Short (start : ℕ) (items : List Item) : Prop :=
  ∀ p ∈ (literals items).zipIdx,
    (Reached (start + p.1.instr) → p.2 < literalPoolMaxSize) ∧
    (Reached (start + wordsIn items + p.2) → wordsIn items + p.2 ≤ p.1.instr + 1025)

def pushStretch (s : Jit) (items : List Item) : Except Stop Jit := do
  let s ← items.foldlM perform s
  jitPushLiteralPool s

theorem pushChunks_stretches (chunks : List Chunk) : ∀ (items : List Item) (s : Jit),
    (do
      let s ← items.foldlM perform s
      let s ← chunks.foldlM pushChunk s
      jitPushLiteralPool s) = (stretchesFrom items chunks).foldlM pushStretch s := by
  induction chunks with
  | nil =>
    intro items s
    change items.foldlM perform s >>= jitPushLiteralPool = pushStretch s items >>= fun s => pure s
    rw [bind_pure]
    rfl
  | cons c cs ih =>
    intro items s
    unfold stretchesFrom
    cases hpush : c.pushPool with
    | true =>
      rw [if_pos rfl, List.foldlM_cons]
      simp only [List.foldlM_cons, pushChunk, pushStretch, hpush, if_pos, bind_assoc,
        List.foldlM_append, ← ih, List.foldlM_nil, pure_bind]
    | false =>
      rw [if_neg Bool.false_ne_true, ← ih]
      simp only [List.foldlM_cons, pushChunk, hpush, Bool.false_eq_true, if_false, bind_assoc,
        List.foldlM_append, bind_pure]

theorem pushFunction_stretches (s : Jit) (chunks : List Chunk) :
    pushFunction s chunks
      = (stretches chunks).foldlM pushStretch { s with pool := [], vmbbFixups := [] } :=
  pushChunks_stretches chunks [] _

/-! ## One stretch -/

theorem entriesFrom_shift (items : List Item) : ∀ n m : ℕ,
    entriesFrom (n + m) items
      = (entriesFrom m items).map fun e => { e with instr := n + e.instr } := by
  induction items with
  | nil =>
    intro n m
    rfl
  | cons i is ih =>
    intro n m
    have hhead : entriesOf (n + m) i
        = (entriesOf m i).map fun e => { e with instr := n + e.instr } := by
      cases i with
      | push opcode => rfl
      | literal imm rd vmbb cond => rfl
      | table entries => rfl
    change entriesOf _ i ++ entriesFrom _ is = List.map _ (entriesOf _ i ++ entriesFrom _ is)
    rw [List.map_append, ← hhead, ← ih, Nat.add_assoc]

theorem entriesFrom_literals (items : List Item) (start : ℕ) :
    entriesFrom start items
      = (literals items).map fun e => { e with instr := start + e.instr } :=
  entriesFrom_shift items start 0

theorem entriesFrom_length (items : List Item) (start : ℕ) :
    (entriesFrom start items).length = (literals items).length := by
  rw [entriesFrom_literals, List.length_map]

theorem entriesFrom_get {items : List Item} {k : ℕ} {e : PoolEntry} (start : ℕ)
    (h : (literals items)[k]? = some e) :
    (entriesFrom start items)[k]? = some { e with instr := start + e.instr } := by
  rw [entriesFrom_literals, List.getElem?_map, h]
  rfl

theorem offsetTo_shift (e : PoolEntry) (start n : ℕ) :
    offsetTo { e with instr := start + e.instr } (start + n) < 4096 ↔ n ≤ e.instr + 1025 := by
  unfold offsetTo
  push_cast
  omega

theorem short_of_full {start : ℕ} {items : List Item} (h : ¬Reached start) : Short start items := by
  intro p _
  constructor
  · intro hreached
    exact absurd (hreached.mono (Nat.le_add_right _ _)) h
  · intro hreached
    exact absurd (hreached.mono (by omega)) h

section
variable {s s' : Jit} {items : List Item}

theorem perform_bounded {item : Item} (hs : s.pool.length ≤ literalPoolMaxSize)
    (h : perform s item = .ok s') : s'.pool.length ≤ literalPoolMaxSize := by
  rw [(perform_ok h).2.1, List.length_append]
  cases item with
  | push opcode => exact hs
  | table entries => exact hs
  | literal imm rd vmbb cond =>
    change (if s.pool.length = literalPoolMaxSize then _ else _) = Except.ok s' at h
    split at h
    · exact absurd h (by simp)
    · next hroom =>
      change s.pool.length + 1 ≤ _
      omega

theorem performs_bounded (hs : s.pool.length ≤ literalPoolMaxSize)
    (h : items.foldlM perform s = .ok s') : s'.pool.length ≤ literalPoolMaxSize := by
  have hstep : ∀ (b : Jit) (a : Item) (b' : Jit), b.pool.length ≤ literalPoolMaxSize → a ∈ items →
      perform b a = .ok b' → b'.pool.length ≤ literalPoolMaxSize ∧ True :=
    fun b a b' hb _ hrun => ⟨perform_bounded hb hrun, trivial⟩
  exact (foldlM_ok hstep hs h).1

/-- What the items of a stretch leave, from an empty pool on. -/
structure Ran (s s' : Jit) (items : List Item) : Prop where
  mem : s'.mem = s.mem ++ items.flatMap wordsOf
  pool : s'.pool = entriesFrom s.mem.length items
  length : s'.mem.length = s.mem.length + wordsIn items
  bounded : (literals items).length ≤ literalPoolMaxSize
  reached : items ≠ [] → Reached (s.mem.length + wordsIn items)

theorem stretch_run (hpool : s.pool = []) (h : items.foldlM perform s = .ok s') :
    Ran s s' items := by
  obtain ⟨hmem, hentries, hreached⟩ := performs_ok h
  rw [hpool, List.nil_append] at hentries
  have hlen : s'.mem.length = s.mem.length + wordsIn items := by
    rw [hmem, List.length_append]
    rfl
  refine ⟨hmem, hentries, hlen, ?_, ?_⟩
  · rw [← entriesFrom_length items s.mem.length, ← hentries]
    exact performs_bounded (by rw [hpool]; exact Nat.zero_le _) h
  · rw [← hlen]
    exact hreached

theorem stretch_keeps {s₁ : Jit} (hran : Ran s s₁ items) : s.mem <+: placed s₁.mem s₁.pool := by
  obtain ⟨hrange, _⟩ := entriesFrom_sorted items s.mem.length
  have hlen := hran.length
  rw [List.prefix_iff_getElem?]
  intro i hi
  have hother : ∀ e ∈ s₁.pool, e.instr ≠ i := by
    intro e he
    rw [hran.pool] at he
    have hle := (hrange e he).1
    omega
  rw [placed_other _ _ (by omega) hother, hran.mem, List.getElem?_append_left hi]
  exact List.getElem?_eq_getElem hi

structure Pushed (s s' : Jit) (items : List Item) : Prop where
  short : Short s.mem.length items
  emptied : s'.pool = []
  length : s'.mem.length = s.mem.length + wordsIn items + (literals items).length
  keeps : s.mem <+: s'.mem
  codeOf : CodeOf items s.mem.length s'.mem

theorem pushStretch_ok (hpool : s.pool = []) (h : pushStretch s items = .ok s') :
    Pushed s s' items := by
  unfold pushStretch at h
  cases hrun : items.foldlM perform s with
  | error e =>
    rw [hrun] at h
    exact absurd h (by simp [bind, Except.bind])
  | ok s₁ =>
    rw [hrun] at h
    change jitPushLiteralPool s₁ = .ok s' at h
    have hran := stretch_run hpool hrun
    obtain ⟨hplaced, hemptied, hfits⟩ := jitPushLiteralPool_ok h
    rw [hran.pool, hran.length] at hfits
    refine ⟨?_, hemptied, ?_, ?_, ?_⟩
    · intro p hp
      obtain ⟨e, k⟩ := p
      rw [List.mem_zipIdx_iff_getElem?] at hp
      constructor
      · intro _
        exact Nat.lt_of_lt_of_le (List.getElem?_eq_some_iff.mp hp).1 hran.bounded
      · intro _
        rw [← offsetTo_shift e s.mem.length, ← Nat.add_assoc]
        exact hfits _ _ (entriesFrom_get _ hp)
    · rw [hplaced, placed_length, hran.length, hran.pool, entriesFrom_length]
    · rw [hplaced]
      exact stretch_keeps hran
    · exact ⟨s, s₁, s', hpool, rfl, hrun, h, List.prefix_refl _⟩

/-! ## Stops -/

theorem perform_stops {item : Item} {e : Stop} (h : perform s item = .error e) :
    (e = .jitMemory ∧ ¬Reached (s.mem.length + (wordsOf item).length) ∧
      (s.pool.length ≤ literalPoolMaxSize →
        ∀ start, s.pool.length + (entriesOf start item).length ≤ literalPoolMaxSize)) ∨
    (e ≠ .jitMemory ∧ s.pool.length = literalPoolMaxSize ∧
      ∀ start, ∃ entry : PoolEntry, entriesOf start item = [entry] ∧ entry.instr = start) := by
  cases item with
  | push opcode =>
    obtain ⟨hmemory, hfull⟩ := appendWords_stops h
    exact .inl ⟨hmemory, hfull, fun hle _ => hle⟩
  | table entries =>
    obtain ⟨hmemory, hfull⟩ := appendWords_stops h
    exact .inl ⟨hmemory, hfull, fun hle _ => hle⟩
  | literal imm rd vmbb cond =>
    change (if s.pool.length = literalPoolMaxSize then _ else _) = Except.error e at h
    split at h
    · next hpool =>
      injection h with h
      rw [← h]
      exact .inr ⟨by decide, hpool, fun start => ⟨_, rfl, rfl⟩⟩
    · next hroom =>
      obtain ⟨hmemory, hfull⟩ := appendWords_stops h
      refine .inl ⟨hmemory, hfull, fun hle start => ?_⟩
      change s.pool.length + 1 ≤ _
      omega

theorem placeLiteral_stops {entry : PoolEntry} {e : Stop}
    (h : placeLiteral s entry = .error e) :
    (e = .jitMemory ∧ ¬Reached (s.mem.length + 1) ∧ offsetTo entry s.mem.length < 4096) ∨
    (e ≠ .jitMemory ∧ 4096 ≤ offsetTo entry s.mem.length) := by
  change (if 4096 ≤ offsetTo entry s.mem.length then _ else _) = Except.error e at h
  split at h
  · next hfar =>
    injection h with h
    rw [← h]
    exact .inr ⟨by decide, hfar⟩
  · next hnear =>
    obtain ⟨hmemory, hfull⟩ := appendWords_stops h
    refine .inl ⟨hmemory, ?_, by omega⟩
    rw [List.length_modify] at hfull
    exact hfull

theorem pushStretch_error {e : Stop} (h : pushStretch s items = .error e) :
    (∃ before item after s₁, items = before ++ item :: after ∧
      before.foldlM perform s = .ok s₁ ∧ perform s₁ item = .error e) ∨
    ∃ s₁ before entry after s₂, items.foldlM perform s = .ok s₁ ∧
      s₁.pool = before ++ entry :: after ∧ before.foldlM placeLiteral s₁ = .ok s₂ ∧
      placeLiteral s₂ entry = .error e := by
  unfold pushStretch at h
  cases hrun : items.foldlM perform s with
  | error e' =>
    rw [hrun] at h
    injection h with h
    rw [h] at hrun
    obtain ⟨before, item, after, s₁, hsplit⟩ := foldlM_error hrun
    exact .inl ⟨before, item, after, s₁, hsplit⟩
  | ok s₁ =>
    rw [hrun] at h
    change jitPushLiteralPool s₁ = .error e at h
    unfold jitPushLiteralPool at h
    cases hplace : s₁.pool.foldlM placeLiteral s₁ with
    | ok s₂ =>
      rw [hplace] at h
      exact absurd h (by simp [bind, Except.bind, pure, Except.pure])
    | error e' =>
      rw [hplace] at h
      injection h with h
      rw [h] at hplace
      obtain ⟨before, entry, after, s₂, hsplit⟩ := foldlM_error hplace
      exact .inr ⟨s₁, before, entry, after, s₂, rfl, hsplit⟩

theorem literals_append (before after : List Item) :
    literals (before ++ after) = literals before ++ entriesFrom (wordsIn before) after := by
  have happend := entriesFrom_append before after 0
  rw [Nat.zero_add] at happend
  exact happend

theorem wordsIn_append (before after : List Item) :
    wordsIn (before ++ after) = wordsIn before + wordsIn after := by
  unfold wordsIn
  rw [List.flatMap_append, List.length_append]

theorem literals_split (before after : List Item) {k : ℕ} {e : PoolEntry}
    (h : (literals (before ++ after))[k]? = some e) :
    k < (literals before).length ∨ wordsIn before ≤ e.instr := by
  by_cases hk : k < (literals before).length
  · exact .inl hk
  · right
    rw [literals_append, List.getElem?_append_right (by omega)] at h
    exact ((entriesFrom_sorted after _).1 e (List.mem_of_getElem? h)).1

theorem short_of_full_item {before after : List Item} {item : Item} {start : ℕ}
    (hcount : (literals (before ++ [item])).length ≤ literalPoolMaxSize)
    (hfull : ¬Reached (start + wordsIn (before ++ [item]))) :
    Short start (before ++ [item] ++ after) := by
  have hwords := wordsIn_append (before ++ [item]) after
  intro p hp
  obtain ⟨e, k⟩ := p
  rw [List.mem_zipIdx_iff_getElem?] at hp
  constructor
  · intro hreached
    rcases literals_split _ after hp with hk | hlater
    · exact Nat.lt_of_lt_of_le hk hcount
    · exact absurd (hreached.mono (Nat.add_le_add_left hlater start)) hfull
  · intro hreached
    exact absurd (hreached.mono (by omega)) hfull

theorem short_of_full_entry {start n : ℕ}
    (hcount : (literals items).length ≤ literalPoolMaxSize)
    (hnear : ∀ k e, k ≤ n → (entriesFrom start items)[k]? = some e →
      offsetTo e (start + (wordsIn items + k)) < 4096)
    (hfull : ¬Reached (start + wordsIn items + (n + 1))) : Short start items := by
  intro p hp
  obtain ⟨e, k⟩ := p
  rw [List.mem_zipIdx_iff_getElem?] at hp
  constructor
  · intro _
    exact Nat.lt_of_lt_of_le (List.getElem?_eq_some_iff.mp hp).1 hcount
  · intro hreached
    have hk : k ≤ n := by
      by_contra hlater
      exact hfull (hreached.mono (Nat.add_le_add_left (by omega) _))
    exact (offsetTo_shift e start _).mp (hnear k _ hk (entriesFrom_get start hp))

/-- A stretch that fills the buffer has kept the bounds so far. -/
theorem pushStretch_memory (hpool : s.pool = [])
    (h : pushStretch s items = .error .jitMemory) :
    Short s.mem.length items ∧
    ¬Reached (s.mem.length + wordsIn items + (literals items).length) := by
  rcases pushStretch_error h with ⟨before, item, after, s₁, hsplit, hbefore, hitem⟩ |
    ⟨s₁, before, entry, after, s₂, hrun, hsplit, hbefore, hentry⟩
  · rcases perform_stops hitem with ⟨_, hfull, hroom⟩ | ⟨hmemory, _⟩
    · have hran := stretch_run hpool hbefore
      have hpool₁ : s₁.pool.length = (literals before).length := by
        rw [hran.pool, entriesFrom_length]
      have hcount : (literals (before ++ [item])).length ≤ literalPoolMaxSize := by
        rw [literals_append, List.length_append, ← hpool₁]
        change _ + (entriesOf _ item ++ []).length ≤ _
        rw [List.append_nil]
        exact hroom (hpool₁ ▸ hran.bounded) _
      have hwords : wordsIn (before ++ [item]) = wordsIn before + (wordsOf item).length := by
        rw [wordsIn_append]
        unfold wordsIn
        rw [List.flatMap_singleton]
      have hfull' : ¬Reached (s.mem.length + wordsIn (before ++ [item])) := by
        rw [hwords, ← Nat.add_assoc, ← hran.length]
        exact hfull
      have hall : items = before ++ [item] ++ after := by
        rw [hsplit, List.append_assoc]
        rfl
      have hlater := wordsIn_append (before ++ [item]) after
      rw [hall]
      refine ⟨short_of_full_item hcount hfull', ?_⟩
      intro hreached
      exact hfull' (hreached.mono (by omega))
    · exact absurd rfl hmemory
  · rcases placeLiteral_stops hentry with ⟨_, hfull, hnear⟩ | ⟨hmemory, _⟩
    · have hran := stretch_run hpool hrun
      obtain ⟨hmem₂, hfits, _⟩ := placeLiterals_ok hbefore
      have hlen₂ : s₂.mem.length = s.mem.length + (wordsIn items + before.length) := by
        rw [hmem₂, placed_length, hran.length, Nat.add_assoc]
      have hfull' : ¬Reached (s.mem.length + wordsIn items + (before.length + 1)) := by
        rw [hlen₂] at hfull
        intro hreached
        exact hfull (hreached.mono (by omega))
      have hcount : (literals items).length = before.length + 1 + after.length := by
        rw [← entriesFrom_length items s.mem.length, ← hran.pool, hsplit, List.length_append,
          List.length_cons]
        omega
      constructor
      · apply short_of_full_entry hran.bounded _ hfull'
        intro k e hk he
        rw [← hran.pool, hsplit] at he
        by_cases hlast : k = before.length
        · rw [hlast, List.getElem?_append_right (Nat.le_refl _), Nat.sub_self] at he
          injection he with he
          rw [← he, hlast, ← hlen₂]
          exact hnear
        · rw [List.getElem?_append_left (by omega)] at he
          have hoff := hfits k e he
          rw [hran.length, Nat.add_assoc] at hoff
          exact hoff
      · intro hreached
        exact hfull' (hreached.mono (by omega))
    · exact absurd rfl hmemory

theorem pushStretch_fails {e : Stop} (hpool : s.pool = []) (he : e ≠ .jitMemory)
    (h : pushStretch s items = .error e) : ¬Short s.mem.length items := by
  intro hshort
  rcases pushStretch_error h with ⟨before, item, after, s₁, hsplit, hbefore, hitem⟩ |
    ⟨s₁, before, entry, after, s₂, hrun, hsplit, hbefore, hentry⟩
  · rcases perform_stops hitem with ⟨hmemory, _⟩ | ⟨_, hfull, hone⟩
    · exact he hmemory
    · have hran := stretch_run hpool hbefore
      obtain ⟨entry, hentry, hinstr⟩ := hone (wordsIn before)
      have hcount : (literals before).length = literalPoolMaxSize := by
        rw [← entriesFrom_length before s.mem.length, ← hran.pool, hfull]
      have hne : before ≠ [] := by
        intro hnil
        rw [hnil] at hcount
        exact absurd hcount (by decide)
      have hat : (literals items)[literalPoolMaxSize]? = some entry := by
        rw [hsplit, literals_append, List.getElem?_append_right (Nat.le_of_eq hcount)]
        change (entriesOf (wordsIn before) item ++ _)[_ - (literals before).length]? = _
        rw [hcount, Nat.sub_self, hentry]
        rfl
      have hlt := (hshort (entry, literalPoolMaxSize) (List.mem_zipIdx_iff_getElem?.mpr hat)).1
      change Reached (s.mem.length + entry.instr) → _ at hlt
      rw [hinstr] at hlt
      exact absurd (hlt (hran.reached hne)) (Nat.lt_irrefl _)
  · rcases placeLiteral_stops hentry with ⟨hmemory, _⟩ | ⟨_, hfar⟩
    · exact he hmemory
    · have hran := stretch_run hpool hrun
      obtain ⟨hmem₂, _, hreached₂⟩ := placeLiterals_ok hbefore
      have hlen₂ : s₂.mem.length = s.mem.length + (wordsIn items + before.length) := by
        rw [hmem₂, placed_length, hran.length, Nat.add_assoc]
      have hne : items ≠ [] := by
        intro hnil
        rw [hran.pool, hnil] at hsplit
        exact absurd hsplit (by simp [entriesFrom])
      have hreached : Reached s₂.mem.length := by
        cases before with
        | nil =>
          rw [hlen₂, List.length_nil, Nat.add_zero]
          exact hran.reached hne
        | cons e' es => exact hreached₂ (by simp)
      have hat : (entriesFrom s.mem.length items)[before.length]? = some entry := by
        rw [← hran.pool, hsplit, List.getElem?_append_right (Nat.le_refl _), Nat.sub_self]
        rfl
      rw [entriesFrom_literals, List.getElem?_map] at hat
      cases he₀ : (literals items)[before.length]? with
      | none =>
        rw [he₀] at hat
        exact absurd hat (by simp)
      | some e₀ =>
        rw [he₀] at hat
        injection hat with hat
        have hle := (hshort (e₀, before.length) (List.mem_zipIdx_iff_getElem?.mpr he₀)).2
        rw [Nat.add_assoc, ← hlen₂] at hle
        have hoff := (offsetTo_shift e₀ s.mem.length _).mpr (hle hreached)
        rw [hlen₂, ← hat] at hfar
        exact absurd hoff (not_lt.mpr hfar)

theorem codeOf_exists {start : ℕ} {items : List Item} (hshort : Short start items)
    (hroom : Reached (start + wordsIn items + (literals items).length)) :
    ∃ code, CodeOf items start code := by
  have hstart : (⟨List.replicate start 0, [], []⟩ : Jit).mem.length = start := List.length_replicate
  cases hpush : pushStretch ⟨List.replicate start 0, [], []⟩ items with
  | error e =>
    by_cases he : e = .jitMemory
    · rw [he] at hpush
      have hfull := (pushStretch_memory rfl hpush).2
      rw [hstart] at hfull
      exact absurd hroom hfull
    · have hnot := pushStretch_fails rfl he hpush
      rw [hstart] at hnot
      exact absurd hshort hnot
  | ok s' =>
    have hcode := (pushStretch_ok rfl hpush).codeOf
    rw [hstart] at hcode
    exact ⟨_, hcode⟩

end

/-! ## All stretches -/

/-- The stretches with the words at which they start. -/
def layoutFrom (start : ℕ) (stretches : List (List Item)) : List (ℕ × List Item) :=
  match stretches with
  | [] => []
  | items :: rest =>
    (start, items) :: layoutFrom (start + wordsIn items + (literals items).length) rest

theorem layoutFrom_full (Ss : List (List Item)) : ∀ {start : ℕ}, ¬Reached start →
    ∀ p ∈ layoutFrom start Ss, Short p.1 p.2 := by
  induction Ss with
  | nil =>
    intro start _ p hp
    exact absurd hp List.not_mem_nil
  | cons S Ss ih =>
    intro start hfull p hp
    rcases List.mem_cons.mp hp with hp | hp
    · rw [hp]
      exact short_of_full hfull
    · apply ih _ p hp
      intro hreached
      exact hfull (hreached.mono (by omega))

theorem pushStretches_ok (Ss : List (List Item)) : ∀ {s s' : Jit}, s.pool = [] →
    Ss.foldlM pushStretch s = .ok s' →
    s.mem <+: s'.mem ∧
    ∀ p ∈ layoutFrom s.mem.length Ss, Short p.1 p.2 ∧ CodeOf p.2 p.1 s'.mem := by
  induction Ss with
  | nil =>
    intro s s' _ h
    injection h with h
    rw [← h]
    exact ⟨List.prefix_refl _, fun p hp => absurd hp List.not_mem_nil⟩
  | cons S Ss ih =>
    intro s s' hpool h
    cases hS : pushStretch s S with
    | error e =>
      rw [List.foldlM_cons, hS] at h
      exact absurd h (by simp [bind, Except.bind])
    | ok t =>
      rw [foldlM_cons_ok hS] at h
      have hpushed := pushStretch_ok hpool hS
      obtain ⟨hkeeps, hall⟩ := ih hpushed.emptied h
      refine ⟨hpushed.keeps.trans hkeeps, ?_⟩
      intro p hp
      rcases List.mem_cons.mp hp with hp | hp
      · rw [hp]
        exact ⟨hpushed.short, codeOf_mono hpushed.codeOf hkeeps⟩
      · rw [← hpushed.length] at hp
        exact hall p hp

theorem pushStretches_error {e : Stop} (Ss : List (List Item)) : ∀ {s : Jit}, s.pool = [] →
    Ss.foldlM pushStretch s = .error e →
    ((∀ p ∈ layoutFrom s.mem.length Ss, Short p.1 p.2) ↔ e = .jitMemory) := by
  induction Ss with
  | nil =>
    intro s _ h
    change Except.ok s = Except.error e at h
    exact absurd h (by simp)
  | cons S Ss ih =>
    intro s hpool h
    cases hS : pushStretch s S with
    | error e' =>
      rw [List.foldlM_cons, hS] at h
      injection h with h
      rw [h] at hS
      constructor
      · intro hall
        by_contra hmemory
        exact pushStretch_fails hpool hmemory hS (hall _ List.mem_cons_self)
      · intro hmemory p hp
        rw [hmemory] at hS
        obtain ⟨hshort, hfull⟩ := pushStretch_memory hpool hS
        rcases List.mem_cons.mp hp with hp | hp
        · rw [hp]
          exact hshort
        · exact layoutFrom_full Ss hfull p hp
    | ok t =>
      rw [foldlM_cons_ok hS] at h
      have hpushed := pushStretch_ok hpool hS
      have hrest := ih hpushed.emptied h
      rw [hpushed.length] at hrest
      rw [← hrest]
      constructor
      · intro hall p hp
        exact hall p (List.mem_cons_of_mem _ hp)
      · intro hall p hp
        rcases List.mem_cons.mp hp with hp | hp
        · rw [hp]
          exact hpushed.short
        · exact hall p hp

/-! ## What stands in front of a flush -/

def isLiteral (item : Item) : Bool :=
  match item with
  | .literal _ _ _ _ => true
  | _ => false

def Flushable (items : List Item) : Prop :=
  ∃ front last, items = front ++ [last] ∧ isLiteral last = false

theorem flushable_append {items : List Item} (before : List Item) (h : Flushable items) :
    Flushable (before ++ items) := by
  obtain ⟨front, last, hitems, hlast⟩ := h
  refine ⟨before ++ front, last, ?_, hlast⟩
  rw [hitems, List.append_assoc]

theorem flushable_push (front : List Item) (opcode : BitVec 32) :
    Flushable (front ++ [.push opcode]) := ⟨front, _, rfl, rfl⟩

/-- The block in front may run into the block without a jump. -/
def runsOn (ib : JitBb) : Bool := ib.jit && ib.onlyJitSucessors

/-- What an emitter leaves at the end of a block: something that the pool can follow, or the
promise that the next block is compiled. -/
def EndsBlock (next : Option JitBb) (pushPool : Bool) (items : List Item) : Prop :=
  (pushPool = true ∧ Flushable items)
    ∨ (pushPool = false ∧ ∃ ib, next = some ib ∧ runsOn ib = true)

section
variable {u : JitUnit} {bbs : List JitBb} {next : Option JitBb} {is is' : List Item} {b : Bool}

theorem jitExit_flushable {bb : ℕ} {cond : BitVec 32}
    (h : (jitExit bb cond).run is = .ok ((), is')) : Flushable is' := by
  injection h with h
  injection h with _ h
  rw [← h]
  exact flushable_push _ _

theorem jitJump_ends {ib : JitBb} {bb : ℕ} {cond : BitVec 32}
    (h : (jitJump next ib bb cond).run is = .ok (b, is')) : EndsBlock next b is' := by
  unfold jitJump at h
  split at h
  · next hjit =>
    split at h
    · next hskip =>
      injection h with h
      injection h with hb _
      unfold skipsTo at hskip
      rw [Bool.and_eq_true, decide_eq_true_eq] at hskip
      exact .inr ⟨hb.symm, ib, hskip.2, Bool.and_eq_true_iff.mpr ⟨hjit, hskip.1⟩⟩
    · injection h with h
      injection h with hb h
      rw [← h]
      exact .inl ⟨hb.symm, flushable_push _ _⟩
  · obtain ⟨_, _, hexit, h⟩ := bind_ok h
    injection h with h
    injection h with hb h
    rw [← h]
    exact .inl ⟨hb.symm, jitExit_flushable hexit⟩

theorem jitEmitConditionalBranch_ends {trueBb falseBb : ℕ} {pred : IcmpPred}
    (h : (jitEmitConditionalBranch bbs next trueBb falseBb pred).run is = .ok (b, is')) :
    EndsBlock next b is' := by
  unfold jitEmitConditionalBranch at h
  obtain ⟨tib, _, h⟩ := lift_bind_ok h
  obtain ⟨fib, _, h⟩ := lift_bind_ok h
  obtain ⟨jumped, is₁, htrue, h⟩ := bind_ok h
  obtain ⟨jumped', is₂, hfalse, h⟩ := bind_ok h
  injection h with h
  injection h with hb h
  rw [← hb, ← h]
  rcases jitJump_ends htrue with ⟨ht, _⟩ | ⟨ht, hnext⟩
  · rw [ht, Bool.true_and]
    exact jitJump_ends hfalse
  · rw [ht, Bool.false_and]
    exact .inr ⟨rfl, hnext⟩

theorem jitBr_ends {condition : Option ValueType} {trueBranch falseBranch : ℕ}
    (h : (jitBr u bbs next condition trueBranch falseBranch).run is = .ok (b, is')) :
    EndsBlock next b is' := by
  unfold jitBr at h
  cases condition with
  | some vt =>
    obtain ⟨_, _, _, h⟩ := bind_ok h
    obtain ⟨_, _, _, h⟩ := bind_ok h
    exact jitEmitConditionalBranch_ends h
  | none =>
    obtain ⟨ib, _, h⟩ := lift_bind_ok h
    exact jitJump_ends h

theorem jitCmpBr_ends {op : Pred} {lhs rhs : ValueType} {trueBranch falseBranch : ℕ}
    (h : (jitCmpBr u bbs next op lhs rhs trueBranch falseBranch).run is = .ok (b, is')) :
    EndsBlock next b is' := by
  unfold jitCmpBr at h
  obtain ⟨_, _, _, h⟩ := bind_ok h
  obtain ⟨_, _, h⟩ := lift_bind_ok h
  exact jitEmitConditionalBranch_ends h

theorem jitJumptable_ends {value : ValueType} {defblock : ℕ} {paths : List Path}
    (h : (jitJumptable u value defblock paths).run is = .ok (b, is')) : EndsBlock next b is' := by
  unfold jitJumptable at h
  obtain ⟨_, _, h⟩ := lift_bind_ok h
  obtain ⟨_, _, h⟩ := lift_bind_ok h
  obtain ⟨_, _, _, h⟩ := bind_ok h
  obtain ⟨_, _, _, h⟩ := bind_ok h
  obtain ⟨_, _, _, h⟩ := bind_ok h
  injection h with h
  injection h with hb h
  rw [← h]
  exact .inl ⟨hb.symm, _, _, rfl, rfl⟩

theorem jitRet_ends {value : Option ValueType}
    (h : (jitRet u value).run is = .ok (b, is')) : EndsBlock next b is' := by
  unfold jitRet at h
  obtain ⟨_, _, _, h⟩ := bind_ok h
  obtain ⟨_, _, _, h⟩ := bind_ok h
  injection h with h
  injection h with hb h
  rw [← h]
  exact .inl ⟨hb.symm, flushable_push _ _⟩

theorem jitInstrs_ends (instrs : List Instr) : ∀ {is : List Item},
    (jitInstrs u bbs next instrs).run is = .ok (b, is') → EndsBlock next b is' := by
  induction instrs with
  | nil =>
    intro is h
    change Except.error _ = Except.ok _ at h
    exact absurd h (by simp)
  | cons ii rest ih =>
    intro is h
    unfold jitInstrs at h
    split at h
    case h_5 =>
      obtain ⟨_, _, _, h⟩ := bind_ok h
      exact ih h
    case h_11 => exact jitBr_ends h
    case h_12 => exact jitCmpBr_ends h
    case h_13 => exact jitJumptable_ends h
    case h_14 => exact jitRet_ends h
    case h_15 =>
      change Except.error _ = Except.ok _ at h
      exact absurd h (by simp)
    -- the instructions with a result, which do not end the block
    all_goals
      obtain ⟨_, _, h⟩ := lift_bind_ok h
      obtain ⟨_, _, _, h⟩ := bind_ok h
      exact ih h

theorem chunkOf_ok {e : Emit Bool} {c : Chunk} (h : chunkOf e = .ok c) :
    e.run [] = .ok (c.pushPool, c.items) := by
  unfold chunkOf at h
  cases he : e.run [] with
  | error fault =>
    rw [he] at h
    exact absurd h (by simp [bind, Except.bind])
  | ok p =>
    rw [he] at h
    injection h with h
    rw [← h]

theorem emitBb_ends {fullJit : Bool} {ib : JitBb} {c : Chunk}
    (h : emitBb u bbs fullJit ib next = .ok c) :
    EndsBlock next c.pushPool c.items ∨ (c.pushPool = false ∧ c.items = [] ∧ ib.jit = false) := by
  unfold emitBb at h
  split at h
  · have hrun := chunkOf_ok h
    unfold jitEmit at hrun
    obtain ⟨_, _, _, hrun⟩ := bind_ok hrun
    exact .inl (jitInstrs_ends _ hrun)
  · next hjit =>
    rw [Bool.or_eq_true, not_or, Bool.not_eq_true, Bool.not_eq_true] at hjit
    split at h
    · have hrun := chunkOf_ok h
      injection hrun with hrun
      injection hrun with hb hitems
      rw [← hb, ← hitems]
      exact .inl (.inl ⟨rfl, flushable_push _ _⟩)
    · injection h with h
      rw [← h]
      exact .inr ⟨rfl, rfl, hjit.2⟩

theorem emitBbs_flushable {fullJit : Bool} (rest : List JitBb) :
    ∀ {chunks : List Chunk} (items : List Item), emitBbs u bbs fullJit rest = .ok chunks →
      (items = [] ∨ ∃ ib, rest.head? = some ib ∧ runsOn ib = true) →
      ∀ S ∈ stretchesFrom items chunks, S = [] ∨ Flushable S := by
  induction rest with
  | nil =>
    intro chunks items h hitems S hS
    injection h with h
    rw [← h] at hS
    rcases hitems with hitems | ⟨ib, hib, _⟩
    · exact .inl (hitems ▸ List.mem_singleton.mp hS)
    · exact absurd hib (by simp)
  | cons ib rest ih =>
    intro chunks items h hitems S hS
    unfold emitBbs at h
    cases hc : emitBb u bbs fullJit ib rest.head? with
    | error fault =>
      rw [hc] at h
      exact absurd h (by simp [bind, Except.bind])
    | ok c =>
      rw [hc] at h
      cases hcs : emitBbs u bbs fullJit rest with
      | error fault =>
        rw [hcs] at h
        exact absurd h (by simp [bind, Except.bind])
      | ok cs =>
        rw [hcs] at h
        injection h with h
        rw [← h] at hS
        unfold stretchesFrom at hS
        rcases emitBb_ends hc with (⟨hpush, hlast⟩ | ⟨hpush, hnext⟩) | ⟨hpush, hnone, hjit⟩
        · rw [if_pos hpush] at hS
          rcases List.mem_cons.mp hS with hS | hS
          · rw [hS]
            exact .inr (flushable_append items hlast)
          · exact ih [] hcs (.inl rfl) S hS
        · rw [hpush, if_neg Bool.false_ne_true] at hS
          exact ih _ hcs (.inr hnext) S hS
        · rw [hpush, if_neg Bool.false_ne_true, hnone, List.append_nil] at hS
          rcases hitems with hitems | ⟨ib', hib', hjit'⟩
          · exact ih _ hcs (.inl hitems) S hS
          · injection hib' with hib'
            rw [hib', (Bool.and_eq_true_iff.mp hjit').1] at hjit
            exact absurd hjit (by simp)

end

/-! ## The bounds -/

/-- Every load of the stretch at word `start` addresses the word with its own constant. -/
def Addressed (code : List (BitVec 32)) (start : ℕ) (items : List Item) : Prop :=
  ∀ before imm rd vmbb cond after, items = before ++ .literal imm rd vmbb cond :: after →
    ∃ offset : BitVec 12, offset.toNat % 4 = 0 ∧
      code[start + wordsIn before]? = some (loadLiteral rd cond ||| offset.setWidth 32) ∧
      code[start + wordsIn before + 2 + offset.toNat / 4]? = some imm ∧
      wordsIn before + 2 + offset.toNat / 4 = wordsIn items + (literals before).length

/-- The assertions about the pool hold, and with the function done the loads address their
constants. -/
def PoolHolds (s : Jit) (chunks : List Chunk) : Prop :=
  (∀ e, pushFunction s chunks = .error e → e = .jitMemory) ∧
  ∀ s', pushFunction s chunks = .ok s' →
    ∀ p ∈ layoutFrom s.mem.length (stretches chunks), Addressed s'.mem p.1 p.2

theorem addressed_of_codeOf {code : List (BitVec 32)} {start : ℕ} {items : List Item}
    (hends : items = [] ∨ Flushable items) (h : CodeOf items start code) :
    Addressed code start items := by
  intro before imm rd vmbb cond after hsplit
  have hafter : after ≠ [] := by
    intro hnil
    rw [hnil] at hsplit
    rcases hends with hempty | ⟨front, last, hitems, hlast⟩
    · rw [hempty] at hsplit
      exact absurd hsplit (by simp)
    · rw [hsplit] at hitems
      obtain ⟨_, hsame⟩ := List.append_inj' hitems rfl
      injection hsame with hsame
      rw [← hsame] at hlast
      exact absurd hlast (by simp [isLiteral])
  rw [hsplit] at h
  obtain ⟨offset, hmod, hload, hvalue, hslot⟩ := codeOf_literal hafter h
  refine ⟨offset, hmod, hload, hvalue, ?_⟩
  rw [← entriesFrom_length before start, hsplit]
  exact hslot

theorem layoutFrom_mem (Ss : List (List Item)) : ∀ {start : ℕ} {p : ℕ × List Item},
    p ∈ layoutFrom start Ss → p.2 ∈ Ss := by
  induction Ss with
  | nil =>
    intro start p hp
    exact absurd hp List.not_mem_nil
  | cons S Ss ih =>
    intro start p hp
    rcases List.mem_cons.mp hp with hp | hp
    · rw [hp]
      exact List.mem_cons_self
    · exact List.mem_cons_of_mem _ (ih hp)

section
variable {u : JitUnit} {bbs : List JitBb} {fullJit : Bool} {chunks : List Chunk}

theorem poolHolds_of_short (s : Jit) (hemit : vmEmitFunction u bbs fullJit = .ok chunks)
    (hshort : ∀ p ∈ layoutFrom s.mem.length (stretches chunks), Short p.1 p.2) :
    PoolHolds s chunks := by
  have hrun := pushFunction_stretches s chunks
  constructor
  · intro e he
    rw [hrun] at he
    exact (pushStretches_error _ rfl he).mp hshort
  · intro s' hs' p hp
    have hstretches := hs'
    rw [hrun] at hstretches
    obtain ⟨_, hall⟩ := pushStretches_ok _ rfl hstretches
    apply addressed_of_codeOf _ (hall p hp).2
    exact emitBbs_flushable bbs [] hemit (.inl rfl) p.2 (layoutFrom_mem _ hp)

/-- The bounds of the pool are kept exactly when every stretch between two flushes is short. -/
theorem poolHolds_iff (s : Jit) (hemit : vmEmitFunction u bbs fullJit = .ok chunks) :
    PoolHolds s chunks ↔ ∀ p ∈ layoutFrom s.mem.length (stretches chunks), Short p.1 p.2 := by
  constructor
  · intro hholds
    have hrun := pushFunction_stretches s chunks
    cases hpush : pushFunction s chunks with
    | error e =>
      rw [hpush] at hrun
      exact (pushStretches_error _ rfl hrun.symm).mpr (hholds.1 e hpush)
    | ok s' =>
      rw [hpush] at hrun
      obtain ⟨_, hall⟩ := pushStretches_ok _ rfl hrun.symm
      intro p hp
      exact (hall p hp).1
  · exact poolHolds_of_short s hemit

end

instance (n : ℕ) : Decidable (Reached n) := inferInstanceAs (Decidable (_ < _))

instance (start : ℕ) (items : List Item) : Decidable (Short start items) :=
  inferInstanceAs (Decidable (∀ p ∈ (literals items).zipIdx, _ ∧ _))

/-- A word constant is stored through a pointer in a machine register. -/
def storesUnit : JitUnit where
  iu := ⟨[.int32, .pointer (some 0)], [⟨.machinereg, 1⟩, ⟨.constant 0x12345678, 0⟩], fun _ => 0⟩
  ivReg _ := ⟨0, by decide⟩
  jitCpuflags := 0

def storesBlock (n : ℕ) : JitBb where
  id := 0
  instrs := List.replicate n ⟨[], .store ⟨0, 1⟩ ⟨1, 0⟩ 0⟩ ++ [⟨[], .ret none⟩]
  jit := true
  onlyJitSucessors := false
  forceJitEntrypoint := false

def oneStore : List Item :=
  [.push 0xe92d4ff0, .literal 0x12345678 9 false 0xe0000000, .push 0xe7839004, .push 0xe3a00000,
    .push 0xe8bd8ff0]

theorem poolHolds_iff_store : PoolHolds ⟨[], [], []⟩ [⟨oneStore, true⟩] := by
  have hemit : vmEmitFunction storesUnit [storesBlock 1] true = .ok [⟨oneStore, true⟩] := by
    decide +kernel
  exact (poolHolds_iff ⟨[], [], []⟩ hemit).mpr (by decide +kernel)

/-- The 257th store of a block finds the pool full. -/
theorem many_constants_overflow : ∃ chunks,
    vmEmitFunction storesUnit [storesBlock 257] true = .ok chunks ∧
    pushFunction ⟨[], [], []⟩ chunks = .error .literalPoolFull ∧
    ¬PoolHolds ⟨[], [], []⟩ chunks := by
  have hstop : (vmEmitFunction storesUnit [storesBlock 257] true).map (pushFunction ⟨[], [], []⟩)
      = .ok (.error .literalPoolFull) := by decide +kernel
  cases hemit : vmEmitFunction storesUnit [storesBlock 257] true with
  | error fault =>
    rw [hemit] at hstop
    exact absurd hstop (by simp [Except.map])
  | ok chunks =>
    rw [hemit] at hstop
    injection hstop with hstop
    refine ⟨chunks, rfl, hstop, ?_⟩
    intro hholds
    exact absurd (hholds.1 _ hstop) (by decide)

end Vmir.LiteralPool
