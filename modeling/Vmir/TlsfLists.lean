import Mathlib.Data.List.Pairwise
import Vmir.IntrusiveList
import Vmir.TlsfHeaders
import Vmir.TlsfMapping

set_option autoImplicit false

/-!
# The free lists of TLSF

Each class has a list of free blocks, which ends in `block_null` on both sides. The bitmaps say which
lists are not empty.
-/
namespace Vmir.TlsfLists
open BitCounts IntrusiveList Tlsf TlsfMapping TlsfHeaders

/-- The pointer to a block of a list; the null block is the end of the list. -/
def blockOf (null p : ℕ) : Option ℕ := if p = null then none else some p

def links (s : Pool) (c : ℕ × ℕ) : Links ℕ where
  first := blockOf s.address (s.blocks c.1 c.2)
  next := fun y => blockOf s.address (s.mem.word (y + 16))
  prev := fun y => blockOf s.address (s.mem.word (y + 24))

def InTable (c : ℕ × ℕ) : Prop := c.1 < flIndexCount ∧ c.2 < slIndexCount

/-- A block, given with its size, that a free list can have. -/
structure Listable (null : ℕ) (b : ℕ × ℕ) : Prop where
  above : null + 32 ≤ b.1
  below : b.1 + 32 ≤ 2 ^ 64
  aligned : b.1 % 8 = 0
  small : b.2 < 2 ^ 32

/-- The headers of the blocks do not overlap. -/
def Apart (b d : ℕ × ℕ) : Prop := b.1 + 32 ≤ d.1 ∨ d.1 + 32 ≤ b.1

instance : Std.Symm Apart := ⟨fun _ _ h => h.symm⟩

/-- The lists are made of the blocks `G`, each in the list of its class. -/
structure Listed (s : Pool) (G : List (ℕ × ℕ)) (L : ℕ × ℕ → List ℕ) : Prop where
  null : s.address ≠ 0
  listable : ∀ b ∈ G, Listable s.address b
  apart : G.Pairwise Apart
  linked : ∀ c, InTable c → Linked (links s c) (L c)
  mem_iff : ∀ c y, y ∈ L c ↔ ∃ n, (y, n) ∈ G ∧ mappingInsert n = c
  slBit : ∀ c, InTable c → ((s.slBitmap c.1).getLsbD c.2 = true ↔ L c ≠ [])
  flBit : ∀ fl, s.flBitmap.getLsbD fl = true ↔ fl < flIndexCount ∧ s.slBitmap fl ≠ 0

section
variable {s : Pool} {G : List (ℕ × ℕ)} {L : ℕ × ℕ → List ℕ}

theorem inTable_mapping {n : ℕ} (hn : n < 2 ^ 32) : InTable (mappingInsert n) := by
  rw [mappingInsert_eq (by omega)]
  have hclass := (sizeClass_lt_iff n).mpr hn
  unfold InTable flIndexCount slIndexCount
  omega

theorem inTable_ok {c : ℕ × ℕ} (h : InTable c) : inTable c.1 c.2 = .ok () := if_pos h

theorem blockOf_ne {null p : ℕ} (h : p ≠ null) : blockOf null p = some p := if_neg h

theorem blockOf_null (null : ℕ) : blockOf null null = none := if_pos rfl

theorem blockOf_some {null p y : ℕ} (h : blockOf null p = some y) : p = y := by
  unfold blockOf at h
  split at h
  · cases h
  · exact Option.some.inj h

theorem blockOf_none {null p : ℕ} (h : blockOf null p = none) : p = null := by
  unfold blockOf at h
  split at h
  · assumption
  · cases h

theorem linked_congr {q r : Links ℕ} {l : List ℕ} (h : Linked q l) (hfirst : r.first = q.first)
    (hnext : ∀ e ∈ l, r.next e = q.next e) (hprev : ∀ e ∈ l, r.prev e = q.prev e) :
    Linked r l :=
  ⟨hfirst.trans h.first, segment_congr hprev hnext h.segment, h.nodup⟩

theorem Listed.same (h : Listed s G L) {b d : ℕ × ℕ} (hb : b ∈ G) (hd : d ∈ G)
    (heq : b.1 = d.1) : b = d := by
  by_contra hne
  rcases h.apart.forall hb hd hne with hap | hap
  · omega
  · omega

theorem Listed.of_mem (h : Listed s G L) {c : ℕ × ℕ} {y : ℕ} (hy : y ∈ L c) :
    ∃ n, (y, n) ∈ G ∧ mappingInsert n = c ∧ Listable s.address (y, n) := by
  obtain ⟨n, hmem, hc⟩ := (h.mem_iff c y).mp hy
  exact ⟨n, hmem, hc, h.listable _ hmem⟩

theorem Listed.one (h : Listed s G L) {c d : ℕ × ℕ} {y : ℕ} (hc : y ∈ L c) (hd : y ∈ L d) :
    c = d := by
  obtain ⟨n, hn, hcn, -⟩ := h.of_mem hc
  obtain ⟨k, hk, hdk, -⟩ := h.of_mem hd
  have heq := congrArg Prod.snd (h.same hn hk rfl)
  rw [← hcn, ← hdk]
  exact congrArg mappingInsert heq

theorem Listed.congr (h : Listed s G L) {m : Mem}
    (hm : ∀ b ∈ G, m.word (b.1 + 16) = s.mem.word (b.1 + 16)
      ∧ m.word (b.1 + 24) = s.mem.word (b.1 + 24)) :
    Listed { s with mem := m } G L where
  null := h.null
  listable := h.listable
  apart := h.apart
  mem_iff := h.mem_iff
  slBit := h.slBit
  flBit := h.flBit
  linked c hc := by
    refine linked_congr (h.linked c hc) rfl (fun e he => ?_) fun e he => ?_
    · obtain ⟨n, hn, -⟩ := h.of_mem he
      exact congrArg (blockOf s.address) (hm _ hn).1
    · obtain ⟨n, hn, -⟩ := h.of_mem he
      exact congrArg (blockOf s.address) (hm _ hn).2

/-- The lists do not depend on the order of `G`. -/
theorem Listed.perm (h : Listed s G L) {G' : List (ℕ × ℕ)} (hperm : G'.Perm G) :
    Listed s G' L where
  null := h.null
  listable b hb := h.listable b (hperm.mem_iff.mp hb)
  apart := h.apart.perm hperm.symm fun hab => hab.symm
  linked := h.linked
  mem_iff c y := by
    rw [h.mem_iff]
    exact exists_congr fun n => and_congr_left' hperm.mem_iff.symm
  slBit := h.slBit
  flBit := h.flBit

theorem Listed.head (h : Listed s G L) {c : ℕ × ℕ} (hc : InTable c) :
    s.blocks c.1 c.2 = ((L c).head?).getD s.address := by
  have hfirst := (h.linked c hc).first
  cases hl : L c with
  | nil =>
    rw [hl] at hfirst
    exact blockOf_none hfirst
  | cons y l =>
    rw [hl] at hfirst
    exact blockOf_some hfirst

end

/-! ## Bitmaps -/

theorem getLsbD_bit {i : ℕ} (hi : i < 32) (j : ℕ) :
    ((1 : BitVec 32) <<< i).getLsbD j = true ↔ j = i := by
  rw [BitVec.getLsbD_shiftLeft, Bool.and_eq_true, Bool.and_eq_true, Bool.not_eq_true',
    decide_eq_true_iff, decide_eq_false_iff_not, show (1 : BitVec 32) = 1#32 from rfl,
    BitVec.getLsbD_one]
  simp only [Bool.and_eq_true, decide_eq_true_iff]
  omega

theorem getLsbD_set {bm : BitVec 32} {i : ℕ} (hi : i < 32) (j : ℕ) :
    (bm ||| ((1 : BitVec 32) <<< i)).getLsbD j = true ↔ bm.getLsbD j = true ∨ j = i := by
  rw [BitVec.getLsbD_or, Bool.or_eq_true, getLsbD_bit hi]

theorem getLsbD_clear {bm : BitVec 32} {i : ℕ} (hi : i < 32) (j : ℕ) :
    (bm &&& ~~~((1 : BitVec 32) <<< i)).getLsbD j = true ↔ bm.getLsbD j = true ∧ j ≠ i := by
  rw [BitVec.getLsbD_and, Bool.and_eq_true, BitVec.getLsbD_not, Bool.and_eq_true,
    decide_eq_true_iff, Bool.not_eq_true', ← Bool.not_eq_true, getLsbD_bit hi]
  constructor
  · rintro ⟨h, -, hne⟩
    exact ⟨h, hne⟩
  · rintro ⟨h, hne⟩
    exact ⟨h, BitVec.lt_of_getLsbD h, hne⟩

theorem ne_zero_iff {bm : BitVec 32} : bm ≠ 0 ↔ ∃ i, bm.getLsbD i = true := by
  constructor
  · intro h
    by_contra hno
    refine h (BitVec.eq_of_getLsbD_eq fun i _ => ?_)
    rw [show (0 : BitVec 32) = 0#32 from rfl, BitVec.getLsbD_zero]
    exact Bool.not_eq_true _ |>.mp fun hi => hno ⟨i, hi⟩
  · rintro ⟨i, hi⟩ rfl
    rw [show (0 : BitVec 32) = 0#32 from rfl, BitVec.getLsbD_zero] at hi
    cases hi

/-! ## Inserting a block -/

/-- The words with the links of the blocks `G` and of the null block. -/
def LinkWord (null : ℕ) (G : List (ℕ × ℕ)) (x : ℕ) : Prop :=
  ∃ y, (y = null ∨ ∃ n, (y, n) ∈ G) ∧ (x = y + 16 ∨ x = y + 24)

theorem setHead_same (blocks : ℕ → ℕ → ℕ) (fl sl b : ℕ) : setHead blocks fl sl b fl sl = b := by
  unfold setHead
  rw [Function.update_self, Function.update_self]

theorem setHead_ne {blocks : ℕ → ℕ → ℕ} {c d : ℕ × ℕ} (h : d ≠ c) (b : ℕ) :
    setHead blocks c.1 c.2 b d.1 d.2 = blocks d.1 d.2 := by
  unfold setHead
  by_cases hfl : d.1 = c.1
  · have hsl : d.2 ≠ c.2 := fun hsl => h (Prod.ext hfl hsl)
    rw [hfl, Function.update_self, Function.update_of_ne hsl]
  · rw [Function.update_of_ne hfl]

section
variable {s : Pool} {G : List (ℕ × ℕ)} {L : ℕ × ℕ → List ℕ}

theorem Listed.null_or (h : Listed s G L) {c : ℕ × ℕ} {y : ℕ} (hy : y ∈ L c) :
    s.address + 32 ≤ y := by
  obtain ⟨n, -, -, hlist⟩ := h.of_mem hy
  exact hlist.above

theorem Listed.mem_apart (h : Listed s G L) {c d : ℕ × ℕ} {y z : ℕ} (hy : y ∈ L c) (hz : z ∈ L d)
    (hne : y ≠ z) : y + 32 ≤ z ∨ z + 32 ≤ y := by
  obtain ⟨n, hn, -⟩ := h.of_mem hy
  obtain ⟨k, hk, -⟩ := h.of_mem hz
  exact h.apart.forall hn hk fun heq => hne (congrArg Prod.fst heq)

/-- The pool with a new head `y` of the list `c`, in front of `current`. -/
def inserted (s : Pool) (y : ℕ) (c : ℕ × ℕ) (current : ℕ) : Pool :=
  { s with
    mem := ((s.mem.write (y + 16) current).write (y + 24) s.address).write (current + 24) y
    blocks := setHead s.blocks c.1 c.2 y
    flBitmap := s.flBitmap ||| ((1 : BitVec 32) <<< c.1)
    slBitmap := Function.update s.slBitmap c.1 (s.slBitmap c.1 ||| ((1 : BitVec 32) <<< c.2)) }

theorem Listed.head_cases (h : Listed s G L) {c : ℕ × ℕ} (hc : InTable c) :
    L c = [] ∧ s.blocks c.1 c.2 = s.address
      ∨ ∃ l, L c = s.blocks c.1 c.2 :: l ∧ s.address + 32 ≤ s.blocks c.1 c.2 := by
  have hhead := h.head hc
  cases hl : L c with
  | nil =>
    rw [hl] at hhead
    exact Or.inl ⟨rfl, hhead⟩
  | cons y l =>
    rw [hl] at hhead
    obtain rfl : s.blocks c.1 c.2 = y := hhead
    exact Or.inr ⟨l, rfl, h.null_or (hl ▸ List.mem_cons_self)⟩

theorem insertFreeBlock_eq (h : Listed s G L) {y n : ℕ} (hy : Listable s.address (y, n)) :
    insertFreeBlock s y (mappingInsert n).1 (mappingInsert n).2
      = .ok (inserted s y (mappingInsert n) (s.blocks (mappingInsert n).1 (mappingInsert n).2)) := by
  have hc : InTable (mappingInsert n) := inTable_mapping hy.small
  have hpos := Nat.pos_of_ne_zero h.null
  have habove : s.address + 32 ≤ y := hy.above
  unfold insertFreeBlock
  simp only
  rw [inTable_ok hc, ok_bind, tlsfAssert_ok, ok_bind, tlsfAssert_ok (by omega), ok_bind,
    assertAligned_ok hy.aligned hy.below, ok_bind]
  · rfl
  · rcases h.head_cases hc with ⟨-, hhead⟩ | ⟨l, -, hhead⟩ <;> omega

theorem inserted_word {y current : ℕ} {c : ℕ × ℕ} {x : ℕ} (h16 : x ≠ y + 16) (h24 : x ≠ y + 24)
    (hcur : x ≠ current + 24) : (inserted s y c current).mem.word x = s.mem.word x := by
  unfold inserted
  rw [word_write_ne hcur, word_write_ne h24, word_write_ne h16]

theorem inserted_linked (h : Listed s G L) {y n : ℕ} (hy : Listable s.address (y, n))
    (hap : ∀ b ∈ G, Apart (y, n) b) {c : ℕ × ℕ} (hc : InTable c) (hcn : mappingInsert n = c)
    {d : ℕ × ℕ} (hd : InTable d) :
    Linked (links (inserted s y c (s.blocks c.1 c.2)) d) (Function.update L c (y :: L c) d) := by
  have hfar {e : ℕ} {d : ℕ × ℕ} (he : e ∈ L d) : y + 32 ≤ e ∨ e + 32 ≤ y := by
    obtain ⟨k, hk, -⟩ := h.of_mem he
    exact hap _ hk
  have habove : s.address + 32 ≤ y := hy.above
  have hhead := h.head_cases hc
  by_cases heq : d = c
  · subst heq
    rw [Function.update_self]
    have hnotin : y ∉ L d := by
      intro hmem
      have := hfar hmem
      omega
    refine linked_congr (insertHead_linked (h.linked d hd) hnotin) ?_ (fun e he => ?_)
      fun e he => ?_
    · change blockOf s.address (setHead s.blocks d.1 d.2 y d.1 d.2) = some y
      rw [setHead_same]
      exact blockOf_ne (by omega)
    · change blockOf s.address ((inserted s y d _).mem.word (e + 16))
        = Function.update (links s d).next y (links s d).first e
      rcases List.mem_cons.mp he with rfl | he
      · rw [Function.update_self]
        unfold inserted
        rw [word_write_ne, word_write_ne (by omega), word_write_same]
        · rfl
        · rcases hhead with ⟨-, hcur⟩ | ⟨l, hl, -⟩
          · omega
          · have := hfar (hl ▸ List.mem_cons_self : s.blocks d.1 d.2 ∈ L d)
            omega
      · have hey := hfar he
        rw [Function.update_of_ne (by omega), inserted_word (by omega) (by omega)]
        · rfl
        · rcases hhead with ⟨hl, -⟩ | ⟨l, hl, -⟩
          · rw [hl] at he
            cases he
          · by_cases hec : e = s.blocks d.1 d.2
            · omega
            · have := h.mem_apart he (hl ▸ List.mem_cons_self : s.blocks d.1 d.2 ∈ L d) hec
              omega
    · change blockOf s.address ((inserted s y d _).mem.word (e + 24))
        = Function.update (setPrev (links s d).prev (links s d).first (some y)) y none e
      rcases List.mem_cons.mp he with rfl | he
      · rw [Function.update_self]
        unfold inserted
        rw [word_write_ne, word_write_same]
        · exact blockOf_null s.address
        · rcases hhead with ⟨-, hcur⟩ | ⟨l, hl, -⟩
          · omega
          · have := hfar (hl ▸ List.mem_cons_self : s.blocks d.1 d.2 ∈ L d)
            omega
      · have hey := hfar he
        rw [Function.update_of_ne (by omega)]
        rcases hhead with ⟨hl, -⟩ | ⟨l, hl, hcur⟩
        · rw [hl] at he
          cases he
        · have hfirst : (links s d).first = some (s.blocks d.1 d.2) := blockOf_ne (by omega)
          rw [hfirst]
          by_cases hec : e = s.blocks d.1 d.2
          · subst hec
            unfold inserted setPrev
            simp only
            rw [Function.update_self, word_write_same]
            exact blockOf_ne (by omega)
          · have := h.mem_apart he (hl ▸ List.mem_cons_self : s.blocks d.1 d.2 ∈ L d) hec
            unfold setPrev
            simp only
            rw [Function.update_of_ne hec, inserted_word (by omega) (by omega) (by omega)]
            rfl
  · rw [Function.update_of_ne heq]
    -- The head of `c` is in no other list.
    have hother {e : ℕ} (he : e ∈ L d) : e + 32 ≤ s.blocks c.1 c.2 ∨ s.blocks c.1 c.2 + 32 ≤ e := by
      rcases hhead with ⟨-, hcur⟩ | ⟨l, hl, -⟩
      · have := h.null_or he
        omega
      · have hmem : s.blocks c.1 c.2 ∈ L c := hl ▸ List.mem_cons_self
        refine h.mem_apart he hmem fun heq' => heq ?_
        exact h.one he (heq' ▸ hmem)
    refine linked_congr (h.linked d hd) ?_ (fun e he => ?_) fun e he => ?_
    · change blockOf s.address (setHead s.blocks c.1 c.2 y d.1 d.2) = _
      rw [setHead_ne heq]
      rfl
    all_goals
      have hey := hfar he
      have hec := hother he
      exact congrArg (blockOf s.address) (inserted_word (by omega) (by omega) (by omega))

theorem inserted_listed (h : Listed s G L) {y n : ℕ} (hy : Listable s.address (y, n))
    (hap : ∀ b ∈ G, Apart (y, n) b) {c : ℕ × ℕ} (hcn : mappingInsert n = c) :
    Listed (inserted s y c (s.blocks c.1 c.2)) ((y, n) :: G) (Function.update L c (y :: L c)) := by
  have hc : InTable c := hcn ▸ inTable_mapping hy.small
  have hsl32 : c.2 < 32 := hc.2
  have hfl32 : c.1 < 32 := lt_trans hc.1 (by decide)
  constructor
  · exact h.null
  · intro b hb
    rcases List.mem_cons.mp hb with rfl | hb
    · exact hy
    · exact h.listable b hb
  · exact List.pairwise_cons.mpr ⟨hap, h.apart⟩
  · exact fun d hd => inserted_linked h hy hap hc hcn hd
  · intro d z
    by_cases heq : d = c
    · subst heq
      rw [Function.update_self, List.mem_cons, h.mem_iff]
      constructor
      · rintro (rfl | ⟨k, hk, hkc⟩)
        · exact ⟨n, List.mem_cons_self, hcn⟩
        · exact ⟨k, List.mem_cons_of_mem _ hk, hkc⟩
      · rintro ⟨k, hk, hkc⟩
        rcases List.mem_cons.mp hk with heq | hk
        · exact Or.inl (congrArg Prod.fst heq)
        · exact Or.inr ⟨k, hk, hkc⟩
    · rw [Function.update_of_ne heq, h.mem_iff]
      refine exists_congr fun k => and_congr_left fun hkc => ?_
      rw [List.mem_cons, or_iff_right]
      intro hyk
      obtain ⟨rfl, rfl⟩ := Prod.mk.inj hyk
      exact heq (hkc.symm.trans hcn)
  · intro d hd
    change (Function.update s.slBitmap c.1 _ d.1).getLsbD d.2 = true ↔ _
    by_cases heq : d = c
    · subst heq
      rw [Function.update_self, Function.update_self, getLsbD_set hsl32]
      exact iff_of_true (Or.inr rfl) (List.cons_ne_nil _ _)
    · rw [Function.update_of_ne heq, ← h.slBit d hd]
      by_cases hfl : d.1 = c.1
      · have hsl : d.2 ≠ c.2 := fun hsl => heq (Prod.ext hfl hsl)
        rw [hfl, Function.update_self, getLsbD_set hsl32, or_iff_left hsl]
      · rw [Function.update_of_ne hfl]
  · intro fl
    change (s.flBitmap ||| _).getLsbD fl = true ↔ _ ∧ Function.update s.slBitmap c.1 _ fl ≠ 0
    rw [getLsbD_set hfl32, h.flBit]
    by_cases hfl : fl = c.1
    · subst hfl
      rw [Function.update_self]
      refine iff_of_true (Or.inr rfl) ⟨hc.1, ne_zero_iff.mpr ⟨c.2, ?_⟩⟩
      exact (getLsbD_set hsl32 _).mpr (Or.inr rfl)
    · rw [Function.update_of_ne hfl, or_iff_left hfl]

/-- `insert_free_block` puts the block into the list of its class. -/
theorem insertFreeBlock_spec (h : Listed s G L) {y n : ℕ} (hy : Listable s.address (y, n))
    (hap : ∀ b ∈ G, Apart (y, n) b) :
    ∃ s' L', insertFreeBlock s y (mappingInsert n).1 (mappingInsert n).2 = .ok s'
      ∧ s'.address = s.address ∧ Listed s' ((y, n) :: G) L'
      ∧ ∀ x, ¬ LinkWord s.address ((y, n) :: G) x → s'.mem.word x = s.mem.word x := by
  have hc : InTable (mappingInsert n) := inTable_mapping hy.small
  refine ⟨_, _, insertFreeBlock_eq h hy, rfl, inserted_listed h hy hap rfl, fun x hx => ?_⟩
  refine inserted_word (fun h16 => hx ⟨y, Or.inr ⟨n, List.mem_cons_self⟩, Or.inl h16⟩)
    (fun h24 => hx ⟨y, Or.inr ⟨n, List.mem_cons_self⟩, Or.inr h24⟩) fun hcur => hx ⟨_, ?_, Or.inr hcur⟩
  rcases h.head_cases hc with ⟨-, hhead⟩ | ⟨l, hl, -⟩
  · exact Or.inl hhead
  · obtain ⟨k, hk, -⟩ := h.of_mem (hl ▸ List.mem_cons_self : s.blocks _ _ ∈ L _)
    exact Or.inr ⟨k, List.mem_cons_of_mem _ hk⟩

end

/-! ## Removing a block -/

section
variable {s : Pool} {G : List (ℕ × ℕ)} {L : ℕ × ℕ → List ℕ}

/-- The pool without the block `y` of the list `c`, which stands between `p` and `q`. -/
def removed (s : Pool) (y : ℕ) (c : ℕ × ℕ) (p q : ℕ) : Pool :=
  let s' := { s with mem := (s.mem.write (q + 24) p).write (p + 16) q }
  if s.blocks c.1 c.2 = y then replaceHead s' q c.1 c.2 else s'

theorem removed_mem (s : Pool) (y : ℕ) (c : ℕ × ℕ) (p q : ℕ) :
    (removed s y c p q).mem = (s.mem.write (q + 24) p).write (p + 16) q := by
  unfold removed replaceHead
  simp only
  split
  · split <;> rfl
  · rfl

theorem removed_address (s : Pool) (y : ℕ) (c : ℕ × ℕ) (p q : ℕ) :
    (removed s y c p q).address = s.address := by
  unfold removed replaceHead
  simp only
  split
  · split <;> rfl
  · rfl

theorem removed_blocks (s : Pool) (y : ℕ) (c : ℕ × ℕ) (p q : ℕ) : (removed s y c p q).blocks
    = if s.blocks c.1 c.2 = y then setHead s.blocks c.1 c.2 q else s.blocks := by
  unfold removed replaceHead
  simp only
  split
  · split <;> rfl
  · rfl

theorem removed_slBitmap (s : Pool) (y : ℕ) (c : ℕ × ℕ) (p q : ℕ) : (removed s y c p q).slBitmap
    = if s.blocks c.1 c.2 = y then
        if q = s.address then Function.update s.slBitmap c.1
          (s.slBitmap c.1 &&& ~~~((1 : BitVec 32) <<< c.2)) else s.slBitmap
      else s.slBitmap := by
  unfold removed replaceHead
  simp only
  split
  · split <;> rfl
  · rfl

theorem removed_flBitmap (s : Pool) (y : ℕ) (c : ℕ × ℕ) (p q : ℕ) : (removed s y c p q).flBitmap
    = if s.blocks c.1 c.2 = y then
        if q = s.address then
          if s.slBitmap c.1 &&& ~~~((1 : BitVec 32) <<< c.2) = 0
          then s.flBitmap &&& ~~~((1 : BitVec 32) <<< c.1) else s.flBitmap
        else s.flBitmap
      else s.flBitmap := by
  unfold removed replaceHead
  simp only
  split
  · split <;> rfl
  · rfl

theorem remove_first (q : Links ℕ) (e : ℕ) :
    (remove q e).first = if q.prev e = none then q.next e else q.first := by
  unfold remove
  cases q.prev e <;> rfl

theorem remove_next (q : Links ℕ) (e : ℕ) :
    (remove q e).next = (q.prev e).elim q.next fun p => Function.update q.next p (q.next e) := by
  unfold remove
  cases q.prev e <;> rfl

theorem remove_prev (q : Links ℕ) (e : ℕ) :
    (remove q e).prev = setPrev q.prev (q.next e) (q.prev e) := by
  unfold remove
  cases q.prev e <;> rfl

structure Stands (s : Pool) (L : ℕ × ℕ → List ℕ) (c : ℕ × ℕ) (y p q : ℕ) (l m : List ℕ) : Prop where
  list : L c = l ++ y :: m
  prev : blockOf s.address p = lastOr none l
  next : blockOf s.address q = m.head?
  prevWord : s.mem.word (y + 24) = p
  nextWord : s.mem.word (y + 16) = q

theorem Listed.stands (h : Listed s G L) {c : ℕ × ℕ} (hc : InTable c) {y : ℕ} (hy : y ∈ L c) :
    ∃ p q l m, Stands s L c y p q l m := by
  obtain ⟨l, m, hl⟩ := List.append_of_mem hy
  obtain ⟨hprev, hnext⟩ := linked_links (hl ▸ h.linked c hc)
  exact ⟨_, _, l, m, hl, hprev, hnext, rfl, rfl⟩

section
variable {c : ℕ × ℕ} {y p q : ℕ} {l m : List ℕ}

theorem Stands.mem (hs : Stands s L c y p q l m) : y ∈ L c := by
  rw [hs.list]
  exact List.mem_append_right l List.mem_cons_self

theorem Stands.rest (hs : Stands s L c y p q l m) {e : ℕ} (he : e ∈ l ++ m) : e ∈ L c := by
  rw [hs.list]
  rcases List.mem_append.mp he with he | he
  · exact List.mem_append_left _ he
  · exact List.mem_append_right l (List.mem_cons_of_mem y he)

theorem Stands.not_mem (hs : Stands s L c y p q l m) (h : Listed s G L) (hc : InTable c) :
    y ∉ l ++ m := by
  have hnodup := (h.linked c hc).nodup
  rw [hs.list, List.nodup_middle] at hnodup
  exact (List.nodup_cons.mp hnodup).1

theorem Stands.prev_cases (hs : Stands s L c y p q l m) :
    p = s.address ∧ l = [] ∨ p ∈ l := by
  have hprev := hs.prev
  cases hlast : lastOr none l with
  | none =>
    rw [hlast] at hprev
    exact Or.inl ⟨blockOf_none hprev, lastOr_none_iff.mp hlast⟩
  | some x =>
    rw [hlast] at hprev
    rw [blockOf_some hprev]
    exact Or.inr (lastOr_mem hlast (by simp))

theorem Stands.next_cases (hs : Stands s L c y p q l m) :
    q = s.address ∧ m = [] ∨ q ∈ m := by
  have hnext := hs.next
  cases m with
  | nil => exact Or.inl ⟨blockOf_none hnext, rfl⟩
  | cons x m =>
    rw [blockOf_some hnext]
    exact Or.inr List.mem_cons_self

theorem Stands.head_iff (hs : Stands s L c y p q l m) (h : Listed s G L) (hc : InTable c) :
    s.blocks c.1 c.2 = y ↔ l = [] := by
  have hhead := h.head hc
  rw [hs.list] at hhead
  cases l with
  | nil => exact iff_of_true hhead rfl
  | cons x l =>
    refine iff_of_false (fun heq => hs.not_mem h hc ?_) (List.cons_ne_nil x l)
    rw [← heq, hhead]
    exact List.mem_append_left m List.mem_cons_self

theorem Stands.apart (hs : Stands s L c y p q l m) (h : Listed s G L) {d : ℕ × ℕ} {e : ℕ}
    (he : e ∈ L d) : (e = p ∨ e + 32 ≤ p ∨ p + 32 ≤ e) ∧ (e = q ∨ e + 32 ≤ q ∨ q + 32 ≤ e) := by
  have habove := h.null_or he
  have hmem {x : ℕ} (hx : x ∈ L c) : e = x ∨ e + 32 ≤ x ∨ x + 32 ≤ e := by
    by_cases heq : e = x
    · exact Or.inl heq
    · exact Or.inr (h.mem_apart he hx heq)
  constructor
  · rcases hs.prev_cases with ⟨hp, -⟩ | hp
    · omega
    · exact hmem (hs.rest (List.mem_append_left m hp))
  · rcases hs.next_cases with ⟨hq, -⟩ | hq
    · omega
    · exact hmem (hs.rest (List.mem_append_right l hq))

theorem Stands.linked (hs : Stands s L c y p q l m) (h : Listed s G L) (hc : InTable c) :
    Linked (links (removed s y c p q) c) (l ++ m) := by
  have hremove := remove_linked (hs.list ▸ h.linked c hc)
  have hqprev : (links s c).prev y = lastOr none l := by
    rw [← hs.prev, ← hs.prevWord]
    rfl
  have hqnext : (links s c).next y = m.head? := by
    rw [← hs.next, ← hs.nextWord]
    rfl
  refine linked_congr hremove ?_ (fun e he => ?_) fun e he => ?_
  · change blockOf _ ((removed s y c p q).blocks c.1 c.2) = _
    rw [removed_blocks, removed_address, remove_first, hqprev]
    by_cases hl : l = []
    · rw [if_pos ((hs.head_iff h hc).mpr hl), if_pos (lastOr_none_iff.mpr hl), setHead_same, hqnext]
      exact hs.next
    · rw [if_neg fun heq => hl ((hs.head_iff h hc).mp heq), if_neg fun heq => hl (lastOr_none_iff.mp heq)]
      rfl
  · have hey := hs.rest he
    obtain ⟨hep, heq⟩ := hs.apart h hey
    have hword : (removed s y c p q).mem.word (e + 16)
        = if e = p then q else s.mem.word (e + 16) := by
      rw [removed_mem]
      split
      · next hp => rw [hp, word_write_same]
      · next hp => rw [word_write_ne (by omega), word_write_ne (by omega)]
    change blockOf _ ((removed s y c p q).mem.word (e + 16)) = _
    have hp := hs.prev
    rw [hword, removed_address, remove_next, hqprev, hqnext, ← hp]
    have hnull := h.null_or hey
    by_cases hpnull : p = s.address
    · rw [if_neg (by omega), hpnull, blockOf_null]
      rfl
    · rw [blockOf_ne hpnull]
      change _ = Function.update (links s c).next p m.head? e
      by_cases hep' : e = p
      · rw [if_pos hep', hep', Function.update_self]
        exact hs.next
      · rw [if_neg hep', Function.update_of_ne hep']
        rfl
  · have hey := hs.rest he
    obtain ⟨hep, heq⟩ := hs.apart h hey
    have hword : (removed s y c p q).mem.word (e + 24)
        = if e = q then p else s.mem.word (e + 24) := by
      rw [removed_mem, word_write_ne (by omega)]
      split
      · next hq => rw [hq, word_write_same]
      · next hq => rw [word_write_ne (by omega)]
    change blockOf _ ((removed s y c p q).mem.word (e + 24)) = _
    have hnext := hs.next
    rw [hword, removed_address, remove_prev, hqnext, hqprev, ← hnext]
    have hnull := h.null_or hey
    by_cases hqnull : q = s.address
    · rw [if_neg (by omega), hqnull, blockOf_null]
      rfl
    · rw [blockOf_ne hqnull]
      change _ = Function.update (links s c).prev q (lastOr none l) e
      by_cases heq' : e = q
      · rw [if_pos heq', heq', Function.update_self]
        exact hs.prev
      · rw [if_neg heq', Function.update_of_ne heq']
        rfl

theorem Stands.linked_other (hs : Stands s L c y p q l m) (h : Listed s G L) {d : ℕ × ℕ} (hd : InTable d)
    (hne : d ≠ c) : Linked (links (removed s y c p q) d) (L d) := by
  have hfar {e : ℕ} (he : e ∈ L d) : (removed s y c p q).mem.word (e + 16) = s.mem.word (e + 16)
      ∧ (removed s y c p q).mem.word (e + 24) = s.mem.word (e + 24) := by
    have hnull := h.null_or he
    have hother {x : ℕ} (hx : x ∈ l ++ m) : e ≠ x := by
      rintro rfl
      exact hne (h.one he (hs.rest hx))
    have hep : e ≠ p := by
      rcases hs.prev_cases with ⟨hp, -⟩ | hp
      · omega
      · exact hother (List.mem_append_left m hp)
    have heq : e ≠ q := by
      rcases hs.next_cases with ⟨hq, -⟩ | hq
      · omega
      · exact hother (List.mem_append_right l hq)
    obtain ⟨h₁, h₂⟩ := hs.apart h he
    rw [removed_mem]
    refine ⟨?_, ?_⟩
    all_goals rw [word_write_ne (by omega), word_write_ne (by omega)]
  refine linked_congr (h.linked d hd) ?_ (fun e he => ?_) fun e he => ?_
  · change blockOf _ ((removed s y c p q).blocks d.1 d.2) = blockOf s.address (s.blocks d.1 d.2)
    rw [removed_address, removed_blocks]
    split
    · rw [setHead_ne hne]
    · rfl
  · change blockOf _ _ = blockOf _ _
    rw [removed_address, (hfar he).1]
  · change blockOf _ _ = blockOf _ _
    rw [removed_address, (hfar he).2]

theorem Stands.empty_iff (hs : Stands s L c y p q l m) (h : Listed s G L) (hc : InTable c) :
    (s.blocks c.1 c.2 = y ∧ q = s.address) ↔ l ++ m = [] := by
  rw [List.append_eq_nil_iff, hs.head_iff h hc]
  refine and_congr_right fun _ => ?_
  rcases hs.next_cases with ⟨hq, hm⟩ | hq
  · exact iff_of_true hq hm
  · have hnull := h.null_or (hs.rest (List.mem_append_right l hq))
    exact iff_of_false (by omega) (List.ne_nil_of_mem hq)

theorem removed_slBit (hs : Stands s L c y p q l m) (h : Listed s G L) (hc : InTable c) (fl i : ℕ) :
    ((removed s y c p q).slBitmap fl).getLsbD i = true
      ↔ (s.slBitmap fl).getLsbD i = true ∧ ((fl, i) = c → l ++ m ≠ []) := by
  have hsl32 : c.2 < 32 := hc.2
  have hempty := hs.empty_iff h hc
  rw [removed_slBitmap]
  by_cases hgone : l ++ m = []
  · obtain ⟨hhead, hq⟩ := hempty.mpr hgone
    rw [if_pos hhead, if_pos hq]
    by_cases hfl : fl = c.1
    · subst hfl
      rw [Function.update_self, getLsbD_clear hsl32]
      refine and_congr_right fun _ => ⟨fun hne heq => absurd (congrArg Prod.snd heq) hne,
        fun hne heq => hne (Prod.ext rfl heq) hgone⟩
    · rw [Function.update_of_ne hfl]
      exact (and_iff_left fun heq => absurd (congrArg Prod.fst heq) hfl).symm
  · rw [and_iff_left fun _ => hgone]
    split
    · next hhead => rw [if_neg fun hq => hgone (hempty.mp ⟨hhead, hq⟩)]
    · rfl

theorem removed_flBit (h : Listed s G L) (hc : InTable c) (fl : ℕ) :
    (removed s y c p q).flBitmap.getLsbD fl = true
      ↔ fl < flIndexCount ∧ (removed s y c p q).slBitmap fl ≠ 0 := by
  have hfl32 : c.1 < 32 := lt_trans hc.1 (by decide)
  rw [removed_slBitmap, removed_flBitmap]
  split
  · split
    · by_cases hfl : fl = c.1
      · subst hfl
        rw [Function.update_self]
        split
        · next hzero =>
          rw [getLsbD_clear hfl32]
          exact iff_of_false (fun hbit => hbit.2 rfl) fun hbit => hbit.2 hzero
        · next hzero =>
          refine (h.flBit _).trans (and_congr_right fun _ => iff_of_true (fun h0 => hzero ?_) hzero)
          rw [h0]
          exact BitVec.zero_and
      · rw [Function.update_of_ne hfl]
        split
        · rw [getLsbD_clear hfl32, and_iff_left hfl]
          exact h.flBit fl
        · exact h.flBit fl
    · exact h.flBit fl
  · exact h.flBit fl

theorem removed_listed {n : ℕ} (hs : Stands s L c y p q l m) (h : Listed s ((y, n) :: G) L)
    (hc : InTable c) (hcn : mappingInsert n = c) :
    Listed (removed s y c p q) G (Function.update L c (l ++ m)) := by
  have hgone {k : ℕ} : (y, k) ∉ G := by
    intro hk
    have := (List.pairwise_cons.mp h.apart).1 _ hk
    unfold Apart at this
    omega
  constructor
  · rw [removed_address]
    exact h.null
  · rw [removed_address]
    exact fun b hb => h.listable b (List.mem_cons_of_mem _ hb)
  · exact (List.pairwise_cons.mp h.apart).2
  · intro d hd
    by_cases heq : d = c
    · rw [heq, Function.update_self]
      exact hs.linked h hc
    · rw [Function.update_of_ne heq]
      exact hs.linked_other h hd heq
  · intro d z
    by_cases heq : d = c
    · subst heq
      rw [Function.update_self]
      constructor
      · intro hz
        obtain ⟨k, hk, hkd, -⟩ := h.of_mem (hs.rest hz)
        rcases List.mem_cons.mp hk with heq | hk
        · have hzy : z = y := congrArg Prod.fst heq
          exact absurd (hzy ▸ hz) (hs.not_mem h hc)
        · exact ⟨k, hk, hkd⟩
      · rintro ⟨k, hk, hkd⟩
        have hz := (h.mem_iff d z).mpr ⟨k, List.mem_cons_of_mem _ hk, hkd⟩
        rw [hs.list, List.mem_append, List.mem_cons] at hz
        rcases hz with hz | rfl | hz
        · exact List.mem_append_left m hz
        · exact absurd hk hgone
        · exact List.mem_append_right l hz
    · rw [Function.update_of_ne heq, h.mem_iff]
      refine exists_congr fun k => and_congr_left fun hkd => ?_
      rw [List.mem_cons, or_iff_right]
      intro hyk
      obtain ⟨rfl, rfl⟩ := Prod.mk.inj hyk
      exact heq (hkd.symm.trans hcn)
  · intro d hd
    rw [removed_slBit hs h hc, h.slBit d hd]
    by_cases heq : d = c
    · rw [heq, Function.update_self]
      exact ⟨fun hbit => hbit.2 rfl, fun hne => ⟨List.ne_nil_of_mem hs.mem, fun _ => hne⟩⟩
    · rw [Function.update_of_ne heq]
      exact and_iff_left fun heq' => absurd heq' heq
  · exact removed_flBit h hc

end

/-- `remove_free_block` takes the block out of the list of its class. -/
theorem removeFreeBlock_spec {y n : ℕ} (h : Listed s ((y, n) :: G) L) :
    ∃ s' L', removeFreeBlock s y (mappingInsert n).1 (mappingInsert n).2 = .ok s'
      ∧ s'.address = s.address ∧ Listed s' G L'
      ∧ ∀ x, ¬ LinkWord s.address G x → s'.mem.word x = s.mem.word x := by
  have hc : InTable (mappingInsert n) := inTable_mapping (h.listable _ List.mem_cons_self).small
  have hy : y ∈ L (mappingInsert n) := (h.mem_iff _ y).mpr ⟨n, List.mem_cons_self, rfl⟩
  obtain ⟨p, q, l, m, hs⟩ := h.stands hc hy
  have hother {x : ℕ} (hx : x ∈ l ++ m) : ∃ k, (x, k) ∈ G := by
    obtain ⟨k, hk, -⟩ := h.of_mem (hs.rest hx)
    rcases List.mem_cons.mp hk with heq | hk
    · have hxy : x = y := congrArg Prod.fst heq
      exact absurd (hxy ▸ hx) (hs.not_mem h hc)
    · exact ⟨k, hk⟩
  have hp : p = s.address ∨ ∃ k, (p, k) ∈ G := by
    rcases hs.prev_cases with ⟨hp, -⟩ | hp
    · exact Or.inl hp
    · exact Or.inr (hother (List.mem_append_left m hp))
  have hq : q = s.address ∨ ∃ k, (q, k) ∈ G := by
    rcases hs.next_cases with ⟨hq, -⟩ | hq
    · exact Or.inl hq
    · exact Or.inr (hother (List.mem_append_right l hq))
  have hpos {x : ℕ} (hx : x = s.address ∨ ∃ k, (x, k) ∈ G) : x ≠ 0 := by
    have hnull := Nat.pos_of_ne_zero h.null
    rcases hx with rfl | ⟨k, hk⟩
    · exact h.null
    · have : s.address + 32 ≤ x := (h.listable _ (List.mem_cons_of_mem _ hk)).above
      omega
  refine ⟨removed s y (mappingInsert n) p q, _, ?_, removed_address .., removed_listed hs h hc rfl,
    fun x hx => ?_⟩
  · unfold removeFreeBlock
    simp only [hs.prevWord, hs.nextWord]
    rw [tlsfAssert_ok (hpos hp), ok_bind, tlsfAssert_ok (hpos hq), ok_bind, inTable_ok hc, ok_bind]
    rfl
  · rw [removed_mem, word_write_ne fun heq => hx ⟨p, hp, Or.inl heq⟩,
      word_write_ne fun heq => hx ⟨q, hq, Or.inr heq⟩]

end

end Vmir.TlsfLists
