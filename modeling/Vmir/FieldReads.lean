import Vmir.BitReads
import Vmir.Ir

set_option autoImplicit false

/-!
# Readers of fields

A piece of a bit stream is a row of fields. What a reader of the piece returns is settled by its
fields, up to the first one that begins inside the last byte: from there on the reader is at the end
of the data and does not move.
-/
namespace Vmir.FieldReads
open BitSlices BitReader BitReads Ir

abbrev Read (α : Type) := StateT BcBitStream (Except Fault) α

variable {α β : Type}

theorem read_bind_ok {r : Read α} {f : α → Read β} {bs bs' : BcBitStream} {b : β} :
    (r >>= f) bs = .ok (b, bs')
      ↔ ∃ a mid, r bs = .ok (a, mid) ∧ f a mid = .ok (b, bs') := by
  change Except.bind (r bs) (fun x => f x.1 x.2) = _ ↔ _
  cases h : r bs with
  | error e => exact ⟨nofun, fun ⟨_, _, h', _⟩ => nomatch h'⟩
  | ok x =>
    constructor
    · intro hf
      exact ⟨x.1, x.2, rfl, hf⟩
    · rintro ⟨a, mid, ha, hf⟩
      obtain rfl := Except.ok.inj ha
      exact hf

theorem read_pure_ok {a b : α} {bs bs' : BcBitStream} :
    (pure a : Read α) bs = .ok (b, bs') ↔ b = a ∧ bs' = bs := by
  constructor
  · intro h
    have hpair := Except.ok.inj h
    exact ⟨(Prod.ext_iff.mp hpair).1.symm, (Prod.ext_iff.mp hpair).2.symm⟩
  · rintro ⟨rfl, rfl⟩
    rfl

theorem read_throw {b : β} {e : Fault} {bs bs' : BcBitStream} :
    (throw e : Read β) bs ≠ .ok (b, bs') := nofun

def bits (rdata : List (BitVec 8)) (num : ℕ) : Read (BitVec 32) :=
  fun bs => .ok (readBits rdata bs num)

theorem bits_bind (rdata : List (BitVec 8)) (num : ℕ) (f : BitVec 32 → Read β) (bs : BcBitStream) :
    (bits rdata num >>= f) bs = f (readBits rdata bs num).1 (readBits rdata bs num).2 := rfl

/-! ## Fields -/

/-- `value` in `width` bits. -/
structure Field where
  width : ℕ
  value : ℕ
deriving DecidableEq, Repr

def size (fs : List Field) : ℕ := (fs.map Field.width).sum

@[simp] theorem size_nil : size [] = 0 := rfl

@[simp] theorem size_cons (f : Field) (fs : List Field) : size (f :: fs) = f.width + size fs := by
  simp [size]

@[simp] theorem size_append (fs gs : List Field) : size (fs ++ gs) = size fs + size gs := by
  simp [size]

theorem le_size_flatMap {enc : α → List Field} {k : ℕ} (h : ∀ x, k ≤ size (enc x)) (xs : List α) :
    k * xs.length ≤ size (xs.flatMap enc) := by
  induction xs with
  | nil => exact Nat.zero_le _
  | cons x xs ih =>
    rw [List.flatMap_cons, size_append, List.length_cons, Nat.mul_succ, Nat.add_comm]
    exact Nat.add_le_add (h x) ih

/-- The fields stand in the data from bit `p` on. -/
def At (rdata : List (BitVec 8)) : ℕ → List Field → Prop
  | _, [] => True
  | p, f :: fs => slice (ofBytes rdata) p f.width = f.value
      ∧ p + f.width ≤ 8 * rdata.length ∧ At rdata (p + f.width) fs

def Clear (rdata : List (BitVec 8)) : ℕ → List Field → Prop
  | _, [] => True
  | p, f :: fs => (f.width = 0 ∨ p % 8 = 0 ∨ p / 8 + 1 < rdata.length)
      ∧ Clear rdata (p + f.width) fs

instance decidableAt (rdata : List (BitVec 8)) (p : ℕ) (fs : List Field) :
    Decidable (At rdata p fs) :=
  match fs with
  | [] => isTrue trivial
  | f :: fs =>
    @instDecidableAnd _ _ _ (@instDecidableAnd _ _ _ (decidableAt rdata (p + f.width) fs))

instance decidableClear (rdata : List (BitVec 8)) (p : ℕ) (fs : List Field) :
    Decidable (Clear rdata p fs) :=
  match fs with
  | [] => isTrue trivial
  | f :: fs => @instDecidableAnd _ _ _ (decidableClear rdata (p + f.width) fs)

variable {rdata : List (BitVec 8)} {p : ℕ} {fs gs : List Field}

theorem at_append : At rdata p (fs ++ gs) ↔ At rdata p fs ∧ At rdata (p + size fs) gs := by
  induction fs generalizing p with
  | nil => exact (iff_of_eq (true_and _)).symm
  | cons f fs ih =>
    rw [size_cons, ← Nat.add_assoc]
    change _ ∧ _ ∧ At rdata (p + f.width) (fs ++ gs) ↔ (_ ∧ _ ∧ _) ∧ _
    rw [ih, and_assoc, and_assoc]

theorem clear_append :
    Clear rdata p (fs ++ gs) ↔ Clear rdata p fs ∧ Clear rdata (p + size fs) gs := by
  induction fs generalizing p with
  | nil => exact (iff_of_eq (true_and _)).symm
  | cons f fs ih =>
    rw [size_cons, ← Nat.add_assoc]
    change _ ∧ Clear rdata (p + f.width) (fs ++ gs) ↔ (_ ∧ _) ∧ _
    rw [ih, and_assoc]

theorem At.size_le (h : At rdata p fs) (hne : 0 < size fs) : p + size fs ≤ 8 * rdata.length := by
  induction fs generalizing p with
  | nil => exact absurd hne (Nat.lt_irrefl 0)
  | cons f fs ih =>
    rw [size_cons] at hne ⊢
    by_cases hfs : size fs = 0
    · rw [hfs]
      exact h.2.1
    · have hrest := ih h.2.2 (Nat.pos_of_ne_zero hfs)
      omega

theorem clear_of_later {q : ℕ} (h : p + size fs ≤ q) (hq : q < 8 * rdata.length)
    (hclear : q % 8 = 0 ∨ q / 8 + 1 < rdata.length) : Clear rdata p fs := by
  induction fs generalizing p with
  | nil => trivial
  | cons f fs ih =>
    rw [size_cons, ← Nat.add_assoc] at h
    refine ⟨?_, ih h⟩
    by_cases hwidth : f.width = 0
    · exact Or.inl hwidth
    · right
      right
      omega

/-! ## What a reader does -/

/-- At the end of the data the reader does not move. -/
def Stays (rdata : List (BitVec 8)) (r : Read α) : Prop :=
  ∀ bs a bs', rdata.length ≤ bs.bytesOffset → r bs = .ok (a, bs') → bs' = bs

/-- Over the fields the reader returns nothing but `a`, behind them; it comes to the end of the data
before when they are not clear. -/
def Reads (rdata : List (BitVec 8)) (r : Read α) (fs : List Field) (a : α) : Prop :=
  ∀ bs a' bs', Between rdata bs → At rdata (position bs) fs → r bs = .ok (a', bs') →
    Between rdata bs'
      ∧ (Clear rdata (position bs) fs ∧ a' = a ∧ position bs' = position bs + size fs
        ∨ ¬ Clear rdata (position bs) fs ∧ rdata.length ≤ bs'.bytesOffset
          ∧ position bs' < position bs + size fs)

/-- Over clear fields the reader returns `a`. -/
def Gives (rdata : List (BitVec 8)) (r : Read α) (fs : List Field) (a : α) : Prop :=
  ∀ bs, Between rdata bs → At rdata (position bs) fs → Clear rdata (position bs) fs →
    ∃ bs', r bs = .ok (a, bs') ∧ Between rdata bs' ∧ position bs' = position bs + size fs

theorem Stays.pure (a : α) : Stays rdata (pure a : Read α) :=
  fun _ _ _ _ h => (read_pure_ok.mp h).2

theorem Stays.throw (e : Fault) : Stays rdata (throw e : Read α) :=
  fun _ _ _ _ h => absurd h read_throw

theorem Stays.bind {r : Read α} {f : α → Read β} (hr : Stays rdata r)
    (hf : ∀ a, Stays rdata (f a)) : Stays rdata (r >>= f) := by
  intro bs b bs' hend h
  obtain ⟨a, mid, hra, hfb⟩ := read_bind_ok.mp h
  obtain rfl := hr bs a mid hend hra
  exact hf a mid b bs' hend hfb

theorem Stays.ite {c : Prop} [Decidable c] {r q : Read α} (hr : Stays rdata r)
    (hq : Stays rdata q) : Stays rdata (if c then r else q) := by
  split
  · exact hr
  · exact hq

theorem Reads.pure (a : α) : Reads rdata (pure a : Read α) [] a := by
  intro bs a' bs' hb _ h
  obtain ⟨rfl, rfl⟩ := read_pure_ok.mp h
  exact ⟨hb, Or.inl ⟨trivial, rfl, rfl⟩⟩

theorem Reads.throw (e : Fault) (fs : List Field) (a : α) :
    Reads rdata (throw e : Read α) fs a :=
  fun _ _ _ _ _ h => absurd h read_throw

theorem Reads.bind {r : Read α} {f : α → Read β} {a : α} {b : β} (hr : Reads rdata r fs a)
    (hf : Reads rdata (f a) gs b) (hstays : ∀ a, Stays rdata (f a)) :
    Reads rdata (r >>= f) (fs ++ gs) b := by
  intro bs b' bs' hb hat h
  obtain ⟨a', mid, hra, hfb⟩ := read_bind_ok.mp h
  obtain ⟨hatf, hatg⟩ := at_append.mp hat
  rw [clear_append, size_append, ← Nat.add_assoc]
  obtain ⟨hbmid, ⟨hclear, rfl, hpos⟩ | ⟨hclear, hend, hpos⟩⟩ := hr bs a' mid hb hatf hra
  · rw [← hpos] at hatg ⊢
    obtain ⟨hb', ⟨hclear', hval, hpos'⟩ | ⟨hclear', hend', hpos'⟩⟩ :=
      hf mid b' bs' hbmid hatg hfb
    · exact ⟨hb', Or.inl ⟨⟨hclear, hclear'⟩, hval, hpos'⟩⟩
    · exact ⟨hb', Or.inr ⟨fun hboth => hclear' hboth.2, hend', hpos'⟩⟩
  · -- The rest is read at the end of the data.
    obtain rfl := hstays a' mid b' bs' hend hfb
    exact ⟨hbmid, Or.inr ⟨fun hboth => hclear hboth.1, hend,
      Nat.lt_of_lt_of_le hpos (Nat.le_add_right _ _)⟩⟩

theorem Gives.pure (a : α) : Gives rdata (pure a : Read α) [] a :=
  fun bs hb _ _ => ⟨bs, rfl, hb, rfl⟩

theorem Gives.bind {r : Read α} {f : α → Read β} {a : α} {b : β} (hr : Gives rdata r fs a)
    (hf : Gives rdata (f a) gs b) : Gives rdata (r >>= f) (fs ++ gs) b := by
  intro bs hb hat hclear
  obtain ⟨hatf, hatg⟩ := at_append.mp hat
  obtain ⟨hclearf, hclearg⟩ := clear_append.mp hclear
  obtain ⟨mid, hra, hbmid, hpos⟩ := hr bs hb hatf hclearf
  rw [← hpos] at hatg hclearg
  obtain ⟨bs', hfb, hb', hpos'⟩ := hf mid hbmid hatg hclearg
  refine ⟨bs', read_bind_ok.mpr ⟨a, mid, hra, hfb⟩, hb', ?_⟩
  rw [hpos', hpos, size_append, Nat.add_assoc]

/-! ## A function of what is read -/

variable {r : Read α} {a : α}

theorem Stays.thenPure (hr : Stays rdata r) (g : α → β) :
    Stays rdata (r >>= fun x => Pure.pure (g x)) :=
  hr.bind fun x => Stays.pure (g x)

theorem Reads.last {f : α → Read β} {b : β} (hr : Reads rdata r fs a) (hf : Reads rdata (f a) [] b)
    (hstays : ∀ a, Stays rdata (f a)) : Reads rdata (r >>= f) fs b := by
  have h := hr.bind hf hstays
  rwa [List.append_nil] at h

theorem Gives.last {f : α → Read β} {b : β} (hr : Gives rdata r fs a)
    (hf : Gives rdata (f a) [] b) : Gives rdata (r >>= f) fs b := by
  have h := hr.bind hf
  rwa [List.append_nil] at h

theorem Reads.head {f : α → Read β} {b : β} {fld : Field} (hr : Reads rdata r [fld] a)
    (hf : Reads rdata (f a) gs b) (hstays : ∀ a, Stays rdata (f a)) :
    Reads rdata (r >>= f) (fld :: gs) b := hr.bind hf hstays

theorem Gives.head {f : α → Read β} {b : β} {fld : Field} (hr : Gives rdata r [fld] a)
    (hf : Gives rdata (f a) gs b) : Gives rdata (r >>= f) (fld :: gs) b := hr.bind hf

theorem Reads.thenPure (hr : Reads rdata r fs a) (g : α → β) :
    Reads rdata (r >>= fun x => Pure.pure (g x)) fs (g a) :=
  hr.last (Reads.pure (g a)) fun x => Stays.pure (g x)

theorem Gives.thenPure (hr : Gives rdata r fs a) (g : α → β) :
    Gives rdata (r >>= fun x => Pure.pure (g x)) fs (g a) :=
  Gives.last (f := fun x => Pure.pure (g x)) hr (Gives.pure (g a))

/-! ## One field -/

theorem stays_bits (num : ℕ) : Stays rdata (bits rdata num) := by
  intro bs a bs' hend h
  by_cases hnum : num = 0
  · subst hnum
    have hread : readBits rdata bs 0 = (0, bs) := by rw [readBits, readBitsLoop, if_pos rfl]
    rw [bits, hread] at h
    exact (Prod.ext_iff.mp (Except.ok.inj h)).2.symm
  · rw [bits, readBits_end hnum hend] at h
    exact (Prod.ext_iff.mp (Except.ok.inj h)).2.symm

theorem at_single {num v : ℕ} : At rdata p [⟨num, v⟩]
    ↔ slice (ofBytes rdata) p num = v ∧ p + num ≤ 8 * rdata.length :=
  ⟨fun h => ⟨h.1, h.2.1⟩, fun h => ⟨h.1, h.2, trivial⟩⟩

theorem clear_single {num v : ℕ} :
    Clear rdata p [⟨num, v⟩] ↔ num = 0 ∨ p % 8 = 0 ∨ p / 8 + 1 < rdata.length :=
  and_iff_left trivial

variable {bs : BcBitStream}

theorem clear_single_iff {num v : ℕ} (hb : Between rdata bs)
    (hat : At rdata (position bs) [⟨num, v⟩]) :
    Clear rdata (position bs) [⟨num, v⟩] ↔ num = 0 ∨ bs.bytesOffset < rdata.length := by
  have hin := (at_single.mp hat).2
  rw [clear_single]
  by_cases hnum : num = 0
  · simp only [hnum, true_or]
  · rw [before_end_iff hb.holds hb.remain (by omega)]

theorem between_bits (hb : Between rdata bs) (num : ℕ) : Between rdata (readBits rdata bs num).2 :=
  ⟨readBitsLoop_holds hb.holds num 0 0, readBits_remain hb.remain num⟩

theorem gives_bits {num : ℕ} (hnum : num ≤ 32) (v : ℕ) :
    Gives rdata (bits rdata num) [⟨num, v⟩] (BitVec.ofNat 32 v) := by
  intro bs hb hat hclear
  obtain ⟨hv, hin⟩ := at_single.mp hat
  obtain ⟨bs', hread, -, hpos⟩ :=
    readBits_ok hb.holds hin hnum ((clear_single_iff hb hat).mp hclear)
  rw [hv] at hread
  have hb' := between_bits hb num
  rw [hread] at hb'
  exact ⟨bs', congrArg Except.ok hread, hb', hpos⟩

theorem reads_bits {num : ℕ} (hnum : num ≤ 32) (v : ℕ) :
    Reads rdata (bits rdata num) [⟨num, v⟩] (BitVec.ofNat 32 v) := by
  intro bs a bs' hb hat h
  by_cases hclear : Clear rdata (position bs) [⟨num, v⟩]
  · obtain ⟨bs'', hread, hb', hpos⟩ := gives_bits hnum v bs hb hat hclear
    obtain ⟨ha, hbs⟩ := Prod.ext_iff.mp (Except.ok.inj (h.symm.trans hread))
    change a = _ at ha
    change bs' = _ at hbs
    rw [hbs]
    exact ⟨hb', Or.inl ⟨hclear, ha, hpos⟩⟩
  · obtain ⟨hnum0, hend⟩ := not_or.mp (mt (clear_single_iff hb hat).mpr hclear)
    have hend := Nat.le_of_not_lt hend
    obtain rfl := stays_bits num bs a bs' hend h
    refine ⟨hb, Or.inr ⟨hclear, hend, ?_⟩⟩
    change position bs' < position bs' + (num + 0)
    omega

/-! ## A row of readers -/

def readMany (r : Read α) : ℕ → Read (List α)
  | 0 => pure []
  | n + 1 => do
    let a ← r
    let as ← readMany r n
    pure (a :: as)

theorem Stays.readMany {r : Read α} (hr : Stays rdata r) (n : ℕ) :
    Stays rdata (readMany r n) := by
  induction n with
  | zero => exact Stays.pure []
  | succ n ih => exact hr.bind fun a => ih.thenPure (a :: ·)

theorem Reads.readMany {r : Read α} {enc : β → List Field} {val : β → α} {xs : List β}
    (hr : ∀ x ∈ xs, Reads rdata r (enc x) (val x)) (hstays : Stays rdata r) :
    Reads rdata (readMany r xs.length) (xs.flatMap enc) (xs.map val) := by
  induction xs with
  | nil => exact Reads.pure []
  | cons x xs ih =>
    have hrest := (ih fun y hy => hr y (List.mem_cons_of_mem x hy)).thenPure (val x :: ·)
    exact (hr x List.mem_cons_self).bind hrest fun a =>
      (hstays.readMany xs.length).thenPure (a :: ·)

theorem Gives.readMany {r : Read α} {enc : β → List Field} {val : β → α} {xs : List β}
    (hr : ∀ x ∈ xs, Gives rdata r (enc x) (val x)) :
    Gives rdata (readMany r xs.length) (xs.flatMap enc) (xs.map val) := by
  induction xs with
  | nil => exact Gives.pure []
  | cons x xs ih =>
    have hrest := (ih fun y hy => hr y (List.mem_cons_of_mem x hy)).thenPure (val x :: ·)
    exact (hr x List.mem_cons_self).bind hrest

/-- The reader returns `a` over the fields if they are clear, and nothing else if it returns. -/
structure Exact (rdata : List (BitVec 8)) (r : Read α) (fs : List Field) (a : α) : Prop where
  reads : Reads rdata r fs a
  gives : Gives rdata r fs a

theorem Exact.pure (a : α) : Exact rdata (Pure.pure a : Read α) [] a :=
  ⟨Reads.pure a, Gives.pure a⟩

theorem Exact.bind {f : α → Read β} {b : β} (hr : Exact rdata r fs a)
    (hf : Exact rdata (f a) gs b) (hstays : ∀ a, Stays rdata (f a)) :
    Exact rdata (r >>= f) (fs ++ gs) b :=
  ⟨hr.reads.bind hf.reads hstays, hr.gives.bind hf.gives⟩

theorem Exact.last {f : α → Read β} {b : β} (hr : Exact rdata r fs a) (hf : Exact rdata (f a) [] b)
    (hstays : ∀ a, Stays rdata (f a)) : Exact rdata (r >>= f) fs b :=
  ⟨hr.reads.last hf.reads hstays, hr.gives.last hf.gives⟩

theorem Exact.head {f : α → Read β} {b : β} {fld : Field} (hr : Exact rdata r [fld] a)
    (hf : Exact rdata (f a) gs b) (hstays : ∀ a, Stays rdata (f a)) :
    Exact rdata (r >>= f) (fld :: gs) b := hr.bind hf hstays

theorem Exact.thenPure (hr : Exact rdata r fs a) (g : α → β) :
    Exact rdata (r >>= fun x => Pure.pure (g x)) fs (g a) :=
  ⟨hr.reads.thenPure g, hr.gives.thenPure g⟩

theorem exact_bits {num : ℕ} (hnum : num ≤ 32) (v : ℕ) :
    Exact rdata (bits rdata num) [⟨num, v⟩] (BitVec.ofNat 32 v) :=
  ⟨reads_bits hnum v, gives_bits hnum v⟩

theorem Exact.readMany {enc : β → List Field} {val : β → α} {xs : List β}
    (hr : ∀ x ∈ xs, Exact rdata r (enc x) (val x)) (hstays : Stays rdata r) :
    Exact rdata (readMany r xs.length) (xs.flatMap enc) (xs.map val) :=
  ⟨Reads.readMany (fun x hx => (hr x hx).reads) hstays, Gives.readMany fun x hx => (hr x hx).gives⟩

theorem readMany_all {q : α → Prop} (hq : ∀ bs a bs', r bs = .ok (a, bs') → q a)
    {n : ℕ} {bs bs' : BcBitStream} {as : List α} (h : readMany r n bs = .ok (as, bs')) :
    as.length = n ∧ ∀ a ∈ as, q a := by
  induction n generalizing bs as with
  | zero =>
    obtain ⟨rfl, -⟩ := read_pure_ok.mp h
    exact ⟨rfl, nofun⟩
  | succ n ih =>
    obtain ⟨a, mid, ha, hrest⟩ := read_bind_ok.mp h
    obtain ⟨as', mid', has, hcons⟩ := read_bind_ok.mp hrest
    obtain ⟨rfl, rfl⟩ := read_pure_ok.mp hcons
    obtain ⟨hlen, hall⟩ := ih has
    exact ⟨congrArg Nat.succ hlen, List.forall_mem_cons.mpr ⟨hq bs a mid ha, hall⟩⟩

end Vmir.FieldReads
