import Vmir.JitArm

set_option autoImplicit false

/-!
# What the code buffer holds

The words and pool entries of a run of items, the words that a flush of the literal pool patches
and appends, and the checks that a run and a flush have passed when they return.
-/
namespace Vmir.JitBuffer
open JitArm

def wordsOf (item : Item) : List (BitVec 32) :=
  match item with
  | .push opcode => [opcode]
  | .literal _ rd _ cond => [loadLiteral rd cond]
  | .table entries => 0 :: entries

def entriesOf (start : ℕ) (item : Item) : List PoolEntry :=
  match item with
  | .literal imm _ vmbb _ => [⟨imm, start, vmbb⟩]
  | _ => []

def entriesFrom (start : ℕ) (items : List Item) : List PoolEntry :=
  match items with
  | [] => []
  | i :: is => entriesOf start i ++ entriesFrom (start + (wordsOf i).length) is

/-! ## Items -/

theorem wordsOf_pos (item : Item) : 0 < (wordsOf item).length := by
  cases item <;> simp [wordsOf]

theorem flatMap_words_pos {items : List Item} (h : items ≠ []) :
    0 < (items.flatMap wordsOf).length := by
  cases items with
  | nil => exact absurd rfl h
  | cons i is =>
    have hpos := wordsOf_pos i
    rw [List.flatMap_cons, List.length_append]
    omega

theorem entriesFrom_append (xs ys : List Item) : ∀ start, entriesFrom start (xs ++ ys)
    = entriesFrom start xs ++ entriesFrom (start + (xs.flatMap wordsOf).length) ys := by
  induction xs with
  | nil =>
    intro start
    rfl
  | cons x xs ih =>
    intro start
    change entriesOf start x ++ entriesFrom _ (xs ++ ys) = entriesOf start x ++ _ ++ _
    rw [ih, List.flatMap_cons, List.length_append, List.append_assoc, Nat.add_assoc]

/-- The entries are those of the words from `start` on, in the order of the words. -/
theorem entriesFrom_sorted (items : List Item) : ∀ start,
    (∀ e ∈ entriesFrom start items,
      start ≤ e.instr ∧ e.instr < start + (items.flatMap wordsOf).length) ∧
    (entriesFrom start items).Pairwise (fun a b => a.instr < b.instr) := by
  induction items with
  | nil =>
    intro start
    exact ⟨fun e he => absurd he List.not_mem_nil, List.Pairwise.nil⟩
  | cons x xs ih =>
    intro start
    obtain ⟨hrange, hsorted⟩ := ih (start + (wordsOf x).length)
    have hpos := wordsOf_pos x
    have hfirst : ∀ e ∈ entriesOf start x, e.instr = start := by
      intro e he
      cases x with
      | literal imm rd vmbb cond =>
        rw [List.mem_singleton.mp he]
      | push opcode => exact absurd he List.not_mem_nil
      | table entries => exact absurd he List.not_mem_nil
    constructor
    · intro e he
      rw [List.flatMap_cons, List.length_append]
      rcases List.mem_append.mp he with he | he
      · rw [hfirst e he]
        omega
      · have hin := hrange e he
        omega
    · apply List.pairwise_append.mpr
      refine ⟨?_, hsorted, ?_⟩
      · cases x with
        | literal imm rd vmbb cond => exact List.pairwise_singleton _ _
        | push opcode => exact List.Pairwise.nil
        | table entries => exact List.Pairwise.nil
      · intro a ha b hb
        have hin := hrange b hb
        rw [hfirst a ha]
        omega

/-! ## A run of items -/

def Reached (n : ℕ) : Prop := 4 * n < jitMemAlloced

theorem Reached.mono {n m : ℕ} (h : Reached m) (hle : n ≤ m) : Reached n := by
  unfold Reached at *
  omega

theorem appendWords_ok {s s' : Jit} {ws : List (BitVec 32)} (h : appendWords s ws = .ok s') :
    s' = { s with mem := s.mem ++ ws } ∧ Reached s'.mem.length := by
  unfold appendWords at h
  split at h
  · exact absurd h (by simp)
  · next hroom =>
    injection h with h
    rw [← h]
    refine ⟨rfl, ?_⟩
    unfold Reached
    rw [List.length_append]
    omega

theorem appendWords_stops {s : Jit} {ws : List (BitVec 32)} {e : Stop}
    (h : appendWords s ws = .error e) :
    e = .jitMemory ∧ ¬Reached (s.mem.length + ws.length) := by
  unfold appendWords at h
  split at h
  · next hfull =>
    injection h with h
    refine ⟨h.symm, ?_⟩
    unfold Reached
    omega
  · exact absurd h (by simp)

theorem perform_ok {s s' : Jit} {item : Item} (h : perform s item = .ok s') :
    s'.mem = s.mem ++ wordsOf item ∧ s'.pool = s.pool ++ entriesOf s.mem.length item ∧
    Reached s'.mem.length := by
  cases item with
  | push opcode =>
    obtain ⟨hs, hreached⟩ := appendWords_ok h
    refine ⟨?_, ?_, hreached⟩
    · rw [hs]
      rfl
    · rw [hs]
      exact (List.append_nil _).symm
  | table entries =>
    obtain ⟨hs, hreached⟩ := appendWords_ok h
    refine ⟨?_, ?_, hreached⟩
    · rw [hs]
      rfl
    · rw [hs]
      exact (List.append_nil _).symm
  | literal imm rd vmbb cond =>
    change (if s.pool.length = literalPoolMaxSize then _ else _) = Except.ok s' at h
    split at h
    · exact absurd h (by simp)
    · obtain ⟨hs, hreached⟩ := appendWords_ok h
      refine ⟨?_, ?_, hreached⟩
      · rw [hs]
        rfl
      · rw [hs]
        rfl

theorem performs_ok {items : List Item} : ∀ {s s' : Jit}, items.foldlM perform s = .ok s' →
    s'.mem = s.mem ++ items.flatMap wordsOf ∧
    s'.pool = s.pool ++ entriesFrom s.mem.length items ∧
    (items ≠ [] → Reached s'.mem.length) := by
  induction items with
  | nil =>
    intro s s' h
    injection h with h
    rw [← h]
    exact ⟨(List.append_nil _).symm, (List.append_nil _).symm, fun hne => absurd rfl hne⟩
  | cons i is ih =>
    intro s s' h
    rw [List.foldlM_cons] at h
    cases hi : perform s i with
    | error e =>
      rw [hi] at h
      exact absurd h (by simp [bind, Except.bind])
    | ok t =>
      rw [hi] at h
      obtain ⟨hmem, hpool, hreached⟩ := perform_ok hi
      obtain ⟨hmem', hpool', hreached'⟩ := ih h
      refine ⟨?_, ?_, ?_⟩
      · rw [hmem', hmem, List.append_assoc]
        rfl
      · rw [hpool', hmem, hpool, List.length_append, List.append_assoc]
        rfl
      · intro _
        cases is with
        | nil =>
          injection h with h
          rw [← h]
          exact hreached
        | cons i' is => exact hreached' (by simp)

/-! ## A flush -/

/-- What the load of an entry gets when the entry is appended to `n` words. -/
def offsetTo (e : PoolEntry) (n : ℕ) : ℤ := 4 * (n : ℤ) - 4 * e.instr - 8

def placed (mem : List (BitVec 32)) (pool : List PoolEntry) : List (BitVec 32) :=
  match pool with
  | [] => mem
  | e :: es =>
    placed (mem.modify e.instr (· ||| BitVec.ofInt 32 (offsetTo e mem.length)) ++ [e.value]) es

theorem placed_length (pool : List PoolEntry) : ∀ mem,
    (placed mem pool).length = mem.length + pool.length := by
  induction pool with
  | nil =>
    intro mem
    rfl
  | cons e es ih =>
    intro mem
    rw [placed, ih, List.length_append, List.length_modify, List.length_singleton]
    change _ = mem.length + (es.length + 1)
    omega

theorem placed_other {i : ℕ} (pool : List PoolEntry) : ∀ mem : List (BitVec 32), i < mem.length →
    (∀ e ∈ pool, e.instr ≠ i) → (placed mem pool)[i]? = mem[i]? := by
  induction pool with
  | nil =>
    intro mem hi hother
    rfl
  | cons e es ih =>
    intro mem hi hother
    have hlen : i < (mem.modify e.instr
        (· ||| BitVec.ofInt 32 (offsetTo e mem.length)) ++ [e.value]).length := by
      rw [List.length_append, List.length_modify]
      omega
    rw [placed, ih _ hlen fun e' he' => hother e' (List.mem_cons_of_mem _ he'),
      List.getElem?_append_left (by rw [List.length_modify]; exact hi),
      List.getElem?_modify_ne _ _ (hother e List.mem_cons_self)]

theorem placed_value (pool : List PoolEntry) : ∀ (mem : List (BitVec 32)) (k : ℕ) (e : PoolEntry),
    pool[k]? = some e → (∀ e ∈ pool, e.instr < mem.length) →
    (placed mem pool)[mem.length + k]? = some e.value := by
  induction pool with
  | nil =>
    intro mem k e hk _
    exact absurd hk (by simp)
  | cons e₀ es ih =>
    intro mem k e hk hin
    rw [placed]
    generalize hm : mem.modify e₀.instr (· ||| BitVec.ofInt 32 (offsetTo e₀ mem.length)) = mem₀
    have hlen : mem₀.length = mem.length := by
      rw [← hm, List.length_modify]
    have hlen' : (mem₀ ++ [e₀.value]).length = mem.length + 1 := by
      rw [List.length_append, hlen, List.length_singleton]
    have hbelow : ∀ e ∈ es, e.instr < mem.length := fun e he => hin e (List.mem_cons_of_mem _ he)
    cases k with
    | zero =>
      injection hk with hk
      rw [Nat.add_zero, placed_other es _ (by omega) fun e he => (hbelow e he).ne,
        List.getElem?_append_right (by omega), hlen, Nat.sub_self, hk]
      rfl
    | succ k =>
      have hnext := ih (mem₀ ++ [e₀.value]) k e hk fun e he => by
        have := hbelow e he
        omega
      rw [hlen'] at hnext
      rw [← hnext]
      congr 1
      omega

theorem placed_load (pool : List PoolEntry) : ∀ (mem : List (BitVec 32)) (k : ℕ) (e : PoolEntry),
    pool[k]? = some e → (∀ e ∈ pool, e.instr < mem.length) →
    pool.Pairwise (fun a b => a.instr < b.instr) →
    (placed mem pool)[e.instr]?
      = mem[e.instr]?.map (· ||| BitVec.ofInt 32 (offsetTo e (mem.length + k))) := by
  induction pool with
  | nil =>
    intro mem k e hk _ _
    exact absurd hk (by simp)
  | cons e₀ es ih =>
    intro mem k e hk hin hsorted
    obtain ⟨hfirst, hrest⟩ := List.pairwise_cons.mp hsorted
    rw [placed]
    generalize hm : mem.modify e₀.instr (· ||| BitVec.ofInt 32 (offsetTo e₀ mem.length)) = mem₀
    have hlen : mem₀.length = mem.length := by
      rw [← hm, List.length_modify]
    have hlen' : (mem₀ ++ [e₀.value]).length = mem.length + 1 := by
      rw [List.length_append, hlen, List.length_singleton]
    have hbelow : ∀ e ∈ es, e.instr < mem.length := fun e he => hin e (List.mem_cons_of_mem _ he)
    have hhere : e.instr < mem₀.length := by
      rw [hlen]
      exact hin e (List.mem_of_getElem? hk)
    cases k with
    | zero =>
      injection hk with hk
      subst hk
      rw [placed_other es _ (by omega) fun e he => (hfirst e he).ne', Nat.add_zero,
        List.getElem?_append_left hhere, ← hm, List.getElem?_modify_eq]
      rfl
    | succ k =>
      have hlater := hfirst e (List.mem_of_getElem? hk)
      rw [ih (mem₀ ++ [e₀.value]) k e hk (fun e he => by have := hbelow e he; omega) hrest,
        List.getElem?_append_left hhere, ← hm, List.getElem?_modify_ne _ _ hlater.ne, hm, hlen',
        Nat.add_assoc, Nat.add_comm 1 k]

theorem placeLiteral_ok {s s' : Jit} {e : PoolEntry} (h : placeLiteral s e = .ok s') :
    offsetTo e s.mem.length < 4096 ∧
    s'.mem = s.mem.modify e.instr (· ||| BitVec.ofInt 32 (offsetTo e s.mem.length)) ++ [e.value] ∧
    Reached s'.mem.length := by
  change (if 4096 ≤ offsetTo e s.mem.length then _ else _) = Except.ok s' at h
  split at h
  · exact absurd h (by simp)
  · next hfits =>
    obtain ⟨hs, hreached⟩ := appendWords_ok h
    refine ⟨by omega, ?_, hreached⟩
    rw [hs]
    rfl

theorem placeLiterals_ok {pool : List PoolEntry} : ∀ {s s' : Jit},
    pool.foldlM placeLiteral s = .ok s' →
    s'.mem = placed s.mem pool ∧
    (∀ k e, pool[k]? = some e → offsetTo e (s.mem.length + k) < 4096) ∧
    (pool ≠ [] → Reached s'.mem.length) := by
  induction pool with
  | nil =>
    intro s s' h
    injection h with h
    rw [← h]
    exact ⟨rfl, fun k e he => absurd he (by simp), fun hne => absurd rfl hne⟩
  | cons e₀ es ih =>
    intro s s' h
    rw [List.foldlM_cons] at h
    cases hi : placeLiteral s e₀ with
    | error e =>
      rw [hi] at h
      exact absurd h (by simp [bind, Except.bind])
    | ok t =>
      rw [hi] at h
      obtain ⟨hfits, hmem, hreached⟩ := placeLiteral_ok hi
      obtain ⟨hmem', hfits', hreached'⟩ := ih h
      have hlen : t.mem.length = s.mem.length + 1 := by
        rw [hmem, List.length_append, List.length_modify, List.length_singleton]
      refine ⟨by rw [hmem', hmem, placed], ?_, ?_⟩
      · intro k e hk
        cases k with
        | zero =>
          injection hk with hk
          rw [← hk]
          exact hfits
        | succ k =>
          have hlater := hfits' k e hk
          rw [hlen, Nat.add_assoc, Nat.add_comm 1 k] at hlater
          exact hlater
      · intro _
        cases es with
        | nil =>
          injection h with h
          rw [← h]
          exact hreached
        | cons e' es => exact hreached' (by simp)

theorem jitPushLiteralPool_ok {s s' : Jit} (h : jitPushLiteralPool s = .ok s') :
    s'.mem = placed s.mem s.pool ∧ s'.pool = [] ∧
    ∀ k e, s.pool[k]? = some e → offsetTo e (s.mem.length + k) < 4096 := by
  unfold jitPushLiteralPool at h
  cases hp : s.pool.foldlM placeLiteral s with
  | error e =>
    rw [hp] at h
    exact absurd h (by simp [bind, Except.bind])
  | ok t =>
    rw [hp] at h
    injection h with h
    obtain ⟨hmem, hfits, _⟩ := placeLiterals_ok hp
    rw [← h]
    exact ⟨hmem, rfl, hfits⟩

/-! ## Code that has been flushed -/

/-- The code of the items from the word `start` on, after the flush behind them and whatever else
is appended then. -/
def CodeOf (items : List Item) (start : ℕ) (code : List (BitVec 32)) : Prop :=
  ∃ s s₁ s₂ : Jit, s.pool = [] ∧ s.mem.length = start ∧ items.foldlM perform s = .ok s₁ ∧
    jitPushLiteralPool s₁ = .ok s₂ ∧ s₂.mem <+: code

theorem codeOf_mono {items : List Item} {start : ℕ} {code code' : List (BitVec 32)}
    (h : CodeOf items start code) (hcode : code <+: code') : CodeOf items start code' := by
  obtain ⟨s, s₁, s₂, hpool, hstart, hrun, hflush, hprefix⟩ := h
  exact ⟨s, s₁, s₂, hpool, hstart, hrun, hflush, hprefix.trans hcode⟩

section
variable {before after : List Item} {start : ℕ} {code : List (BitVec 32)}

theorem codeOf_push {opcode : BitVec 32}
    (h : CodeOf (before ++ .push opcode :: after) start code) :
    code[start + (before.flatMap wordsOf).length]? = some opcode := by
  obtain ⟨s, s₁, s₂, hpool, hstart, hrun, hflush, rest, hcode⟩ := h
  obtain ⟨hmem, hpool₁, _⟩ := performs_ok hrun
  obtain ⟨hplaced, _, _⟩ := jitPushLiteralPool_ok hflush
  rw [hpool, hstart, List.nil_append, entriesFrom_append] at hpool₁
  obtain ⟨hrange, _⟩ := entriesFrom_sorted before start
  have hword : s₁.mem[start + (before.flatMap wordsOf).length]? = some opcode := by
    rw [hmem, List.getElem?_append_right (by omega), hstart, Nat.add_sub_cancel_left,
      List.flatMap_append, List.getElem?_append_right (Nat.le_refl _), Nat.sub_self]
    rfl
  have hother : ∀ e ∈ s₁.pool, e.instr ≠ start + (before.flatMap wordsOf).length := by
    intro e he
    rw [hpool₁] at he
    rcases List.mem_append.mp he with he | he
    · exact (hrange e he).2.ne
    · obtain ⟨hlater, _⟩ := (entriesFrom_sorted after _).1 e he
      have hone : (wordsOf (.push opcode)).length = 1 := rfl
      omega
  have hlt : start + (before.flatMap wordsOf).length < s₁.mem.length := by
    by_contra hge
    rw [List.getElem?_eq_none (by omega)] at hword
    exact absurd hword (by simp)
  rw [← hcode, hplaced, List.getElem?_append_left (by rw [placed_length]; omega),
    placed_other _ _ hlt hother, hword]

theorem codeOf_literal {imm : BitVec 32} {rd : Reg} {vmbb : Bool} {cond : BitVec 32}
    (hafter : after ≠ []) (h : CodeOf (before ++ .literal imm rd vmbb cond :: after) start code) :
    ∃ offset : BitVec 12, offset.toNat % 4 = 0 ∧
      code[start + (before.flatMap wordsOf).length]?
        = some (loadLiteral rd cond ||| offset.setWidth 32) ∧
      code[start + (before.flatMap wordsOf).length + 2 + offset.toNat / 4]? = some imm ∧
      (before.flatMap wordsOf).length + 2 + offset.toNat / 4
        = ((before ++ .literal imm rd vmbb cond :: after).flatMap wordsOf).length
          + (entriesFrom start before).length := by
  obtain ⟨s, s₁, s₂, hpool, hstart, hrun, hflush, rest, hcode⟩ := h
  obtain ⟨hmem, hpool₁, _⟩ := performs_ok hrun
  obtain ⟨hplaced, _, hfits⟩ := jitPushLiteralPool_ok hflush
  obtain ⟨hrange, hsorted⟩ :=
    entriesFrom_sorted (before ++ .literal imm rd vmbb cond :: after) start
  have hall : s₁.pool = entriesFrom start (before ++ .literal imm rd vmbb cond :: after) := by
    rw [hpool₁, hpool, hstart, List.nil_append]
  rw [← hall] at hrange hsorted
  generalize hat : start + (before.flatMap wordsOf).length = i at *
  have hentry : s₁.pool[(entriesFrom start before).length]? = some ⟨imm, i, vmbb⟩ := by
    rw [hall, entriesFrom_append, List.getElem?_append_right (Nat.le_refl _), Nat.sub_self, hat]
    rfl
  have hlen : s₁.mem.length = i + 1 + (after.flatMap wordsOf).length := by
    rw [hmem, List.length_append, List.flatMap_append, List.length_append, List.flatMap_cons,
      List.length_append, hstart]
    change start + (_ + (1 + _)) = _
    omega
  have hend : start + ((before ++ .literal imm rd vmbb cond :: after).flatMap wordsOf).length
      = s₁.mem.length := by
    rw [hmem, List.length_append, hstart]
  have hlater := flatMap_words_pos hafter
  have hbelow : ∀ e ∈ s₁.pool, e.instr < s₁.mem.length := by
    intro e he
    have hin := (hrange e he).2
    rw [hmem, List.length_append, hstart]
    exact hin
  have hword : s₁.mem[i]? = some (loadLiteral rd cond) := by
    rw [hmem, List.getElem?_append_right (by omega), hstart, ← hat, Nat.add_sub_cancel_left,
      List.flatMap_append, List.getElem?_append_right (Nat.le_refl _), Nat.sub_self]
    rfl
  have hoff := hfits _ _ hentry
  have hload := placed_load _ _ _ _ hentry hbelow hsorted
  have hvalue := placed_value _ _ _ _ hentry hbelow
  have hklt : (entriesFrom start before).length < s₁.pool.length :=
    (List.getElem?_eq_some_iff.mp hentry).1
  generalize (entriesFrom start before).length = k at *
  generalize (before ++ .literal imm rd vmbb cond :: after).flatMap wordsOf = all at hend ⊢
  -- the offset, in words
  have hoffset : offsetTo ⟨imm, i, vmbb⟩ (s₁.mem.length + k)
      = ((4 * ((after.flatMap wordsOf).length - 1 + k) : ℕ) : ℤ) := by
    unfold offsetTo
    rw [hlen]
    push_cast
    omega
  generalize hd : (after.flatMap wordsOf).length - 1 + k = d at *
  rw [hoffset] at hoff hload
  have hd4096 : 4 * d < 4096 := by omega
  refine ⟨BitVec.ofNat 12 (4 * d), ?_, ?_, ?_, ?_⟩
  · rw [BitVec.toNat_ofNat]
    omega
  · rw [← hcode, hplaced, List.getElem?_append_left (by rw [placed_length]; omega), hload, hword]
    have hsame : BitVec.ofInt 32 ((4 * d : ℕ) : ℤ) = (BitVec.ofNat 12 (4 * d)).setWidth 32 := by
      apply BitVec.eq_of_toNat_eq
      rw [BitVec.ofInt_natCast, BitVec.toNat_ofNat, BitVec.toNat_setWidth, BitVec.toNat_ofNat]
      omega
    rw [hsame]
    rfl
  · rw [← hcode, hplaced, BitVec.toNat_ofNat, Nat.mod_eq_of_lt hd4096,
      Nat.mul_div_cancel_left d (by omega)]
    have hwhere : i + 2 + d = s₁.mem.length + k := by omega
    rw [hwhere, List.getElem?_append_left (by rw [placed_length]; omega), hvalue]
  · rw [BitVec.toNat_ofNat, Nat.mod_eq_of_lt hd4096, Nat.mul_div_cancel_left d (by omega)]
    omega

end

/-! ## Runs of emitters -/

section
variable {α β : Type} {is : List Item}

theorem bind_ok {x : Emit α} {f : α → Emit β} {r : β × List Item}
    (h : (x >>= f).run is = .ok r) :
    ∃ a is', x.run is = .ok (a, is') ∧ (f a).run is' = .ok r := by
  change x.run is >>= (fun p => (f p.1).run p.2) = .ok r at h
  cases hx : x.run is with
  | error e =>
    rw [hx] at h
    exact absurd h (by simp [bind, Except.bind])
  | ok p =>
    rw [hx] at h
    exact ⟨p.1, p.2, rfl, h⟩

theorem lift_bind_ok {x : Except Ir.Fault α} {f : α → Emit β} {r : β × List Item}
    (h : ((liftM x : Emit α) >>= f).run is = .ok r) : ∃ a, x = .ok a ∧ (f a).run is = .ok r := by
  cases x with
  | error e =>
    change Except.error e = Except.ok r at h
    exact absurd h (by simp)
  | ok a => exact ⟨a, rfl, h⟩

theorem bind_run {x : Emit α} {f : α → Emit β} {a : α} {is' : List Item}
    (h : x.run is = .ok (a, is')) : (x >>= f).run is = (f a).run is' := by
  change x.run is >>= (fun p => (f p.1).run p.2) = _
  rw [h]
  rfl

theorem lift_bind_run {x : Except Ir.Fault α} {f : α → Emit β} {a : α} (h : x = .ok a) :
    ((liftM x : Emit α) >>= f).run is = (f a).run is := by
  rw [h]
  rfl

end

end Vmir.JitBuffer
