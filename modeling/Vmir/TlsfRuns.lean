import Vmir.TlsfCreate
import Vmir.TlsfRealloc

set_option autoImplicit false

/-!
# Runs of the allocator

Calls in any order, with a ledger of the live blocks and of the words that the client may rely on.
-/
namespace Vmir.TlsfRuns
open Tlsf TlsfHeaders TlsfRows TlsfPool TlsfInterface TlsfCalls TlsfRealloc TlsfCreate

/-- `store` is a store by the client. -/
inductive Call
  | malloc (size : ℕ)
  | free (ptr : ℕ)
  | realloc (ptr size : ℕ)
  | store (addr value : ℕ)
deriving DecidableEq, Repr

def exec (s : Pool) : Call → Except Fault (Pool × ℕ)
  | .malloc size => tlsfMalloc s size
  | .free ptr => do
    let s ← tlsfFree s ptr
    .ok (s, 0)
  | .realloc ptr size => tlsfRealloc s ptr size
  | .store addr value => .ok ({ s with mem := s.mem.write addr value }, 0)

def Call.asked : Call → ℕ
  | .malloc size => size
  | .realloc _ size => size
  | _ => 0

/-- The live blocks with their sizes, and the words whose values are known. -/
structure Ledger where
  blocks : ℕ → Option ℕ
  known : ℕ → Option ℕ

def Ledger.give (l : Ledger) (p : ℕ) : Ledger :=
  { l with blocks := Function.update l.blocks p none }

def Ledger.take (l : Ledger) (p k : ℕ) (words : ℕ → Option ℕ) : Ledger where
  blocks := Function.update l.blocks p (some k)
  known x := if p ≤ x ∧ x < p + k then words (x - p) else l.known x

/-- The ledger after a call with the result `r`, whose block has the size `k`. The words of a new block
are not known; a block that is reallocated keeps its words. -/
def Ledger.after (l : Ledger) : Call → ℕ → ℕ → Ledger
  | .malloc _, r, k => if r = 0 then l else l.take r k fun _ => none
  | .free p, _, _ => l.give p
  | .realloc p size, r, k =>
    if r = 0 then if size = 0 then l.give p else l
    else (l.give p).take r k fun i => if i < (l.blocks p).getD 0 then l.known (p + i) else none
  | .store a v, _, _ => { l with known := Function.update l.known a (some v) }

section
variable (address bytes : ℕ)

/-- The words that are the client's: those of the live blocks and outside of the region. -/
def Mine (l : Ledger) (x : ℕ) : Prop :=
  (∃ p k, l.blocks p = some k ∧ p ≤ x ∧ x < p + k) ∨ x < address ∨ address + bytes ≤ x

/-- Sizes that are searched in the tables, or for which `tlsf_malloc` does not search. -/
def Sized (size : ℕ) : Prop := size ≤ 2 ^ 32 - 2 ^ 26 ∨ 2 ^ 32 ≤ size

/-- What the client may call: only live blocks are freed and reallocated, and only the client's own words
are written. -/
def Allowed (l : Ledger) : Call → Prop
  | .malloc size => Sized size
  | .free p => p = 0 ∨ l.blocks p ≠ none
  | .realloc p size => if p = 0 then Sized size else l.blocks p ≠ none ∧ size ≤ 2 ^ 32 - 2 ^ 26
  | .store a _ => Mine address bytes l a

/-- The pools that calls lead to, from a region of memory on, with their ledgers. -/
inductive Reach : Pool → Ledger → Prop
  | start {m : Mem} {s : Pool} (hcreate : tlsfCreate m address bytes = .ok (some s)) :
    Reach s ⟨fun _ => none, fun x => some (m.word x)⟩
  | call {s s' : Pool} {l : Ledger} {c : Call} {r : ℕ} (hs : Reach s l)
    (hc : Allowed address bytes l c) (hexec : exec s c = .ok (s', r)) :
    Reach s' (l.after c r (tlsfBlockSize s' r))

structure Region : Prop where
  pos : address ≠ 0
  aligned : address % 8 = 0
  below : address + bytes ≤ 2 ^ 64
  min : tlsfOverhead + blockSizeMin ≤ bytes
  max : bytes < tlsfOverhead + 2 ^ 32

end

/-! ## What the ledger says -/

/-- The live blocks are the used blocks `B`. -/
def Holds (l : Ledger) (B : List (ℕ × ℕ)) : Prop :=
  ∀ p k, l.blocks p = some k ↔ ∃ y, (y, k) ∈ B ∧ p = y + 16

/-- The words of the blocks `B`, and those outside of the region, are as they are known. -/
def Knows (lo hi : ℕ) (l : Ledger) (B : List (ℕ × ℕ)) (m : Mem) : Prop :=
  ∀ x v, ((∃ b ∈ B, InBlock b x) ∨ x < lo ∨ hi ≤ x) → l.known x = some v → m.word x = v

section
variable {l : Ledger} {B R : List (ℕ × ℕ)} {y n z k lo hi : ℕ} {m m' : Mem}

theorem Holds.perm (h : Holds l B) (hperm : B.Perm R) : Holds l R := fun p k =>
  (h p k).trans (exists_congr fun _ => and_congr_left' hperm.mem_iff)

theorem Holds.give (h : Holds l ((y, n) :: R)) (hclear : ∀ d ∈ R, Clear (y, n) d) :
    Holds (l.give (y + 16)) R := by
  intro p k
  change Function.update l.blocks (y + 16) none p = some k ↔ _
  by_cases hp : p = y + 16
  · subst hp
    rw [Function.update_self]
    refine iff_of_false (by simp) ?_
    rintro ⟨z, hz, heq⟩
    obtain rfl : z = y := by omega
    have := hclear _ hz
    unfold Clear at this
    omega
  · rw [Function.update_of_ne hp, h p k]
    constructor
    · rintro ⟨z, hz, rfl⟩
      rcases List.mem_cons.mp hz with heq | hz
      · exact absurd (congrArg (·.1 + 16) heq) hp
      · exact ⟨z, hz, rfl⟩
    · rintro ⟨z, hz, rfl⟩
      exact ⟨z, List.mem_cons_of_mem _ hz, rfl⟩

theorem Holds.take (h : Holds l R) (hclear : ∀ d ∈ R, Clear (z, k) d) (words : ℕ → Option ℕ) :
    Holds (l.take (z + 16) k words) ((z, k) :: R) := by
  intro p j
  change Function.update l.blocks (z + 16) (some k) p = some j ↔ _
  by_cases hp : p = z + 16
  · subst hp
    rw [Function.update_self]
    constructor
    · intro heq
      obtain rfl := Option.some.inj heq
      exact ⟨z, List.mem_cons_self, rfl⟩
    · rintro ⟨y, hy, heq⟩
      obtain rfl : y = z := by omega
      rcases List.mem_cons.mp hy with heq | hy
      · rw [(Prod.mk.inj heq).2]
      · have := hclear _ hy
        unfold Clear at this
        omega
  · rw [Function.update_of_ne hp, h p j]
    constructor
    · rintro ⟨y, hy, rfl⟩
      exact ⟨y, List.mem_cons_of_mem _ hy, rfl⟩
    · rintro ⟨y, hy, rfl⟩
      rcases List.mem_cons.mp hy with heq | hy
      · exact absurd (congrArg (·.1 + 16) heq) hp
      · exact ⟨y, hy, rfl⟩

theorem Knows.perm (h : Knows lo hi l B m) (hperm : B.Perm R) : Knows lo hi l R m := by
  intro x v hx
  refine h x v (hx.imp_left ?_)
  rintro ⟨b, hb, hin⟩
  exact ⟨b, hperm.mem_iff.mpr hb, hin⟩

theorem Knows.give (h : Knows lo hi l ((y, n) :: R) m) (p : ℕ) : Knows lo hi (l.give p) R m := by
  intro x v hx
  refine h x v (hx.imp_left ?_)
  rintro ⟨b, hb, hin⟩
  exact ⟨b, List.mem_cons_of_mem _ hb, hin⟩

theorem Knows.take (h : Knows lo hi l R m) {words : ℕ → Option ℕ}
    (hwords : ∀ i v, i < k → words i = some v → m.word (z + 16 + i) = v) :
    Knows lo hi (l.take (z + 16) k words) ((z, k) :: R) m := by
  intro x v hx hv
  unfold Ledger.take at hv
  dsimp only at hv
  split at hv
  · next hin =>
    have := hwords (x - (z + 16)) v (by omega) hv
    rwa [show z + 16 + (x - (z + 16)) = x by omega] at this
  · next hout =>
    refine h x v (hx.imp_left ?_) hv
    rintro ⟨b, hb, hin⟩
    rcases List.mem_cons.mp hb with rfl | hb
    · exact absurd hin hout
    · exact ⟨b, hb, hin⟩

theorem Knows.congr (h : Knows lo hi l B m)
    (hm : ∀ x, (∃ b ∈ B, InBlock b x) ∨ x < lo ∨ hi ≤ x → m'.word x = m.word x) :
    Knows lo hi l B m' := fun x v hx hv => (hm x hx).trans (h x v hx hv)

end

/-! ## One call -/

/-- The blocks `bs` fill the pool, and the ledger is right about them. -/
structure Backed (address bytes : ℕ) (s : Pool) (l : Ledger) (bs : List Blk) : Prop where
  inv : Inv s bs
  place : s.address = address
  ends : stop (first s) bs = firstBlock address + 8 + poolBytes bytes
  holds : Holds l (used s bs)
  knows : Knows address (address + bytes) l (used s bs) s.mem

section
variable {address bytes : ℕ} {s s' : Pool} {l : Ledger} {bs bs' : List Blk} {y n z k : ℕ}
  {R : List (ℕ × ℕ)}

theorem Region.fits (hr : Region address bytes) :
    firstBlock address + 8 + poolBytes bytes + 16 ≤ address + bytes := by
  have hmin := hr.min
  unfold firstBlock poolBytes
  unfold tlsfOverhead sizeofPool blockHeaderOverhead blockSizeMin at *
  omega

theorem Moves.knows (hr : Region address bytes) (h : Backed address bytes s l bs)
    (hmoves : Moves s s' bs bs' R) {l' : Ledger}
    (hknows : Knows address (address + bytes) l' R s.mem) :
    Knows address (address + bytes) l' R s'.mem := by
  refine hknows.congr fun x hx => ?_
  rcases hx with ⟨b, hb, hin⟩ | hx
  · exact hmoves.blocks b hb x hin
  · refine hmoves.outside x ?_
    have hfits := hr.fits
    rw [h.place, h.ends]
    omega

theorem Moves.stop_eq (h : Backed address bytes s l bs) (hmoves : Moves s s' bs bs' R) :
    stop (first s') bs' = firstBlock address + 8 + poolBytes bytes := by
  rw [show first s' = first s from congrArg firstBlock hmoves.address, hmoves.stop, h.ends]

theorem Backed.taken (hr : Region address bytes) (h : Backed address bytes s l bs)
    (hinv : Inv s' bs') (hperm : (used s' bs').Perm ((z, k) :: used s bs))
    (hmoves : Moves s s' bs bs' (used s bs)) :
    Backed address bytes s' (l.take (z + 16) k fun _ => none) bs' where
  inv := hinv
  place := hmoves.address.trans h.place
  ends := Moves.stop_eq h hmoves
  holds := (h.holds.take (fun _ hd => clear_of_perm hperm hd) _).perm hperm.symm
  knows := ((Moves.knows hr h hmoves h.knows).take fun _ _ _ hv => by cases hv).perm hperm.symm

theorem Backed.given (hr : Region address bytes) (h : Backed address bytes s l bs)
    (hinv : Inv s' bs') (hperm : (used s bs).Perm ((y, n) :: used s' bs'))
    (hmoves : Moves s s' bs bs' (used s' bs')) :
    Backed address bytes s' (l.give (y + 16)) bs' where
  inv := hinv
  place := hmoves.address.trans h.place
  ends := Moves.stop_eq h hmoves
  holds := (h.holds.perm hperm).give fun _ hd => clear_of_perm hperm hd
  knows := Moves.knows hr h hmoves ((h.knows.perm hperm).give _)

theorem Backed.resized (hr : Region address bytes) (h : Backed address bytes s l bs)
    (hresized : Resized s s' bs bs' (y, n) (z, k)) :
    Backed address bytes s' ((l.give (y + 16)).take (z + 16) k fun i =>
      if i < (l.blocks (y + 16)).getD 0 then l.known (y + 16 + i) else none) bs' := by
  obtain ⟨hinv, ⟨R, hperm, hperm', hmoves⟩, hwords⟩ := hresized
  have hblock : l.blocks (y + 16) = some n :=
    (h.holds _ _).mpr ⟨y, hperm.mem_iff.mpr List.mem_cons_self, rfl⟩
  have hgive := (h.holds.perm hperm).give fun _ hd => clear_of_perm hperm hd
  have hknows := Moves.knows hr h hmoves ((h.knows.perm hperm).give (y + 16))
  refine ⟨hinv, hmoves.address.trans h.place, Moves.stop_eq h hmoves,
    (hgive.take (fun _ hd => clear_of_perm hperm' hd) _).perm hperm'.symm,
    (hknows.take fun i v hi hv => ?_).perm hperm'.symm⟩
  rw [hblock, Option.getD_some] at hv
  split at hv
  · next hin =>
    rw [hwords i (lt_min hin hi)]
    exact h.knows _ v (Or.inl ⟨(y, n), hperm.mem_iff.mpr List.mem_cons_self, Nat.le_add_right ..,
      Nat.add_lt_add_left hin _⟩) hv
  · cases hv

theorem Backed.store (hr : Region address bytes) (h : Backed address bytes s l bs) {a v : ℕ}
    (ha : Mine address bytes l a) : Backed address bytes { s with mem := s.mem.write a v }
      { l with known := Function.update l.known a (some v) } bs := by
  refine ⟨Inv.write h.inv fun x hx hin => word_write_ne ?_, h.place, h.ends, h.holds, ?_⟩
  · rintro rfl
    rcases ha with ⟨p, k, hp, hlo, hhi⟩ | hout
    · obtain ⟨y, hy, rfl⟩ := (h.holds p k).mp hp
      exact hx ⟨y, k, hy, hlo, by omega⟩
    · have hfits := hr.fits
      rw [h.place, h.ends] at hin
      omega
  · intro x w hx hw
    change Function.update l.known a (some v) x = some w at hw
    by_cases heq : x = a
    · subst heq
      rw [Function.update_self] at hw
      exact (word_write_same ..).trans (Option.some.inj hw)
    · rw [Function.update_of_ne heq] at hw
      exact (word_write_ne heq).trans (h.knows x w hx hw)

theorem Backed.blockSize (h : Backed address bytes s l bs) (hmem : (z, k) ∈ used s bs) :
    tlsfBlockSize s (z + 16) = k := by
  unfold tlsfBlockSize blockFromPtr
  rw [if_pos (by omega), Nat.add_sub_cancel]
  exact h.inv.mid.blockSize hmem

theorem used_aligned (h : Inv s bs) (hmem : (z, k) ∈ used s bs) : z % 8 = 0 := by
  obtain ⟨xs, ys, rfl, rfl⟩ := mem_pick.mp hmem
  exact TlsfMerge.mid_aligned h.mid

/-- What comes of a call: the ledger is right afterwards, and a pointer that is returned is to a block
that is large enough. -/
def Done (address bytes : ℕ) (l : Ledger) (c : Call) (s' : Pool) (r : ℕ) : Prop :=
  (∃ bs', Backed address bytes s' (l.after c r (tlsfBlockSize s' r)) bs')
    ∧ (r ≠ 0 → r % 8 = 0 ∧ c.asked ≤ tlsfBlockSize s' r)

theorem null_blocks (h : Backed address bytes s l bs) : l.blocks 0 = none :=
  Option.eq_none_iff_forall_ne_some.mpr fun k hk => by
    obtain ⟨y, -, heq⟩ := (h.holds 0 k).mp hk
    omega

theorem give_null (h : Backed address bytes s l bs) : l.give 0 = l := by
  unfold Ledger.give
  rw [← null_blocks h, Function.update_eq_self]

theorem malloc_done (hr : Region address bytes) (h : Backed address bytes s l bs) {size : ℕ}
    (hsize : Sized size) :
    ∃ s' r, tlsfMalloc s size = .ok (s', r) ∧ Done address bytes l (.malloc size) s' r := by
  by_cases hnone : size = 0 ∨ 2 ^ 32 ≤ size
  · exact ⟨s, 0, tlsfMalloc_none s hnone, ⟨bs, h⟩, fun hr => absurd rfl hr⟩
  · have hmax : size ≤ 2 ^ 32 - 2 ^ 26 := hsize.resolve_right fun h => hnone (Or.inr h)
    rcases malloc_spec h.inv (by omega) hmax with
      ⟨hfails, -⟩ | ⟨s', bs', y, k, hmalloc, hinv, hk, hperm, hmoves⟩
    · exact ⟨s, 0, hfails, ⟨bs, h⟩, fun hr => absurd rfl hr⟩
    · have hmem : (y, k) ∈ used s' bs' := hperm.mem_iff.mpr List.mem_cons_self
      have hbacked := h.taken hr hinv hperm hmoves
      have hblock := hbacked.blockSize hmem
      have hgood := rounded_good size
      have haligned := used_aligned hinv hmem
      refine ⟨s', y + 16, hmalloc, ⟨bs', ?_⟩, fun _ => ⟨by omega, ?_⟩⟩
      · rw [hblock, Ledger.after, if_neg (by omega)]
        exact hbacked
      · rw [hblock]
        exact le_trans hgood.2.2 hk

theorem free_done (hr : Region address bytes) (h : Backed address bytes s l bs) {p : ℕ}
    (hp : p = 0 ∨ l.blocks p ≠ none) :
    ∃ s', tlsfFree s p = .ok s' ∧ ∃ bs', Backed address bytes s' (l.give p) bs' := by
  by_cases hnull : p = 0
  · subst hnull
    refine ⟨s, rfl, bs, ?_⟩
    rwa [give_null h]
  · obtain ⟨n, hn⟩ := Option.ne_none_iff_exists'.mp (hp.resolve_left hnull)
    obtain ⟨y, hy, rfl⟩ := (h.holds p n).mp hn
    obtain ⟨s', bs', hfree, hinv, hperm, hmoves⟩ := free_spec h.inv hy
    exact ⟨s', hfree, bs', h.given hr hinv hperm hmoves⟩

theorem realloc_done (hr : Region address bytes) (h : Backed address bytes s l bs) {p size : ℕ}
    (hc : Allowed address bytes l (.realloc p size)) :
    ∃ s' r, tlsfRealloc s p size = .ok (s', r) ∧ Done address bytes l (.realloc p size) s' r := by
  by_cases hnull : p = 0
  · subst hnull
    have hmalloc : tlsfRealloc s 0 size = tlsfMalloc s size := by
      unfold tlsfRealloc
      rw [if_neg fun h => h.1 rfl, if_pos rfl]
    obtain ⟨s', r, hexec, hbacked, hanswer⟩ := malloc_done hr h (show Sized size from hc)
    have hafter (k : ℕ) : l.after (.realloc 0 size) r k = l.after (.malloc size) r k := by
      rw [Ledger.after, Ledger.after, give_null h, null_blocks h, ite_self]
      rfl
    refine ⟨s', r, hmalloc.trans hexec, ?_, hanswer⟩
    rwa [hafter]
  · obtain ⟨hlive, hmax⟩ : l.blocks p ≠ none ∧ size ≤ 2 ^ 32 - 2 ^ 26 := by
      rwa [Allowed, if_neg hnull] at hc
    by_cases hzero : size = 0
    · subst hzero
      obtain ⟨s', hfree, hbacked⟩ := free_done hr h (Or.inr hlive)
      refine ⟨s', 0, ?_, ?_, fun hr => absurd rfl hr⟩
      · unfold tlsfRealloc
        rw [if_pos ⟨hnull, rfl⟩, hfree]
        rfl
      · exact hbacked
    · obtain ⟨n, hn⟩ := Option.ne_none_iff_exists'.mp hlive
      obtain ⟨y, hy, rfl⟩ := (h.holds p n).mp hn
      rcases realloc_spec h.inv hy (by omega) hmax with
        ⟨hfails, -⟩ | ⟨s', bs', z, k, hrealloc, hk, hresized⟩
      · refine ⟨s, 0, hfails, ⟨bs, ?_⟩, fun hr => absurd rfl hr⟩
        rw [Ledger.after, if_pos rfl, if_neg hzero]
        exact h
      · obtain ⟨R, -, hperm, -⟩ := hresized.rest
        have hmem : (z, k) ∈ used s' bs' := hperm.mem_iff.mpr List.mem_cons_self
        have hbacked := h.resized hr hresized
        have hblock := hbacked.blockSize hmem
        have hgood := rounded_good size
        have haligned := used_aligned hresized.inv hmem
        refine ⟨s', z + 16, hrealloc, ⟨bs', ?_⟩, fun _ => ⟨by omega, ?_⟩⟩
        · rw [hblock, Ledger.after, if_neg (by omega)]
          exact hbacked
        · rw [hblock]
          exact le_trans hgood.2.2 hk

theorem exec_done (hr : Region address bytes) (h : Backed address bytes s l bs) {c : Call}
    (hc : Allowed address bytes l c) :
    ∃ s' r, exec s c = .ok (s', r) ∧ Done address bytes l c s' r := by
  cases c with
  | malloc size => exact malloc_done hr h hc
  | free p =>
    obtain ⟨s', hfree, hbacked⟩ := free_done hr h hc
    refine ⟨s', 0, ?_, hbacked, fun hr => absurd rfl hr⟩
    rw [exec, hfree]
    rfl
  | realloc p size => exact realloc_done hr h hc
  | store a v => exact ⟨_, 0, rfl, ⟨bs, h.store hr hc⟩, fun hr => absurd rfl hr⟩

end

/-! ## Room -/

theorem gap_in_block {q : Bool} {a g w : ℕ} {bs : List Blk} (hc : Coalesced q bs) (hw : 0 < w)
    (hlo : a ≤ g) (hhi : g + w ≤ TlsfRows.stop a bs)
    (hgap : ∀ b ∈ pick false a bs, b.1 + 8 + b.2 ≤ g ∨ g + w ≤ b.1) :
    ∃ b ∈ pick true a bs, b.1 ≤ g ∧ g + w ≤ b.1 + 8 + b.2 := by
  induction bs generalizing q a with
  | nil =>
    change g + w ≤ a at hhi
    omega
  | cons b bs ih =>
    obtain ⟨k, f⟩ := b
    have hcons {f : Bool} (d : ℕ × ℕ) (hd : d ∈ pick f (a + 8 + k) bs) (f' : Bool) :
        d ∈ pick f a (⟨k, f'⟩ :: bs) := by
      rw [pick]
      split
      · exact List.mem_cons_of_mem _ hd
      · exact hd
    by_cases hin : a + 8 + k ≤ g
    · obtain ⟨b, hb, hbounds⟩ := ih hc.2 hin hhi fun b hb => hgap b (hcons b hb f)
      exact ⟨b, hcons b hb f, hbounds⟩
    · cases f with
      | false =>
        have hhead : (a, k) ∈ pick false a (⟨k, false⟩ :: bs) := List.mem_cons_self
        have := hgap _ hhead
        omega
      | true =>
        refine ⟨(a, k), List.mem_cons_self, hlo, ?_⟩
        by_contra hle
        rcases bs with _ | ⟨⟨j, _ | _⟩, bs⟩
        · change g + w ≤ a + 8 + k at hhi
          omega
        · have hnext : (a + 8 + k, j) ∈ pick false (a + 8 + k) (⟨j, false⟩ :: bs) :=
            List.mem_cons_self
          have := hgap _ (hcons _ hnext true)
          omega
        · exact hc.2.1 ⟨rfl, rfl⟩

section
variable {address bytes : ℕ} {s s' : Pool} {l : Ledger}

theorem Backed.finds {bs : List Blk} (hbacked : Backed address bytes s l bs) {size g w : ℕ}
    (hpos : 0 < size) (hmax : size ≤ 2 ^ 32 - 2 ^ 26) (hlo : firstBlock address ≤ g)
    (hhi : g + w ≤ firstBlock address + 8 + poolBytes bytes)
    (hgap : ∀ p k, l.blocks p = some k → p + k ≤ g + 8 ∨ g + w + 16 ≤ p)
    (hw : rounded size + rounded size / 32 + 8 ≤ w) :
    ∃ s' r, exec s (.malloc size) = .ok (s', r) ∧ r ≠ 0 := by
  have hplace : first s = firstBlock address := congrArg firstBlock hbacked.place
  rcases malloc_spec hbacked.inv hpos hmax with ⟨-, hnone⟩ | ⟨s', bs', y, k, hmalloc, -⟩
  · have hends := hbacked.ends
    obtain ⟨⟨y, n⟩, hmem, hbelow, hin⟩ := gap_in_block hbacked.inv.coalesced (a := first s) (g := g)
      (w := w) (by omega) (by omega) (by omega) fun b hb => by
        have := hgap (b.1 + 16) b.2 ((hbacked.holds _ _).mpr ⟨b.1, hb, rfl⟩)
        omega
    have := hnone y n hmem
    omega
  · exact ⟨s', y + 16, hmalloc, by omega⟩

end

/-! ## Runs -/

section
variable {address bytes : ℕ} {s s' : Pool} {l : Ledger}

theorem reach_backed (hr : Region address bytes) (hs : Reach address bytes s l) :
    ∃ bs, Backed address bytes s l bs := by
  induction hs with
  | start hcreate =>
    obtain ⟨s₀, hok, haddr, hinv, hout⟩ :=
      tlsfCreate_spec hr.pos hr.aligned hr.below hr.min hr.max _
    obtain rfl := Option.some.inj (Except.ok.inj (hcreate.symm.trans hok))
    refine ⟨_, hinv, haddr, ?_, fun p k => ?_, fun x v hx hv => ?_⟩
    · unfold first
      rw [haddr]
      rfl
    · refine iff_of_false (by simp) ?_
      rintro ⟨y, hy, -⟩
      exact absurd hy List.not_mem_nil
    · rw [hout x (hx.resolve_left fun ⟨b, hb, _⟩ => absurd hb List.not_mem_nil)]
      exact Option.some.inj hv
  | call hs hc hexec ih =>
    obtain ⟨bs, hbacked⟩ := ih
    obtain ⟨s', r, hok, hdone, -⟩ := exec_done hr hbacked hc
    obtain ⟨rfl, rfl⟩ := Prod.mk.inj (Except.ok.inj (hexec.symm.trans hok))
    exact hdone

/-! ### Runs that can be executed -/

instance (size : ℕ) : Decidable (Sized size) := inferInstanceAs (Decidable (_ ∨ _))

/-- Calls that the ledger shows to be allowed; only the first words of live blocks are written. -/
def Seen (l : Ledger) : Call → Prop
  | .malloc size => Sized size
  | .free p => l.blocks p ≠ none
  | .realloc p size => p ≠ 0 ∧ l.blocks p ≠ none ∧ size ≤ 2 ^ 32 - 2 ^ 26
  | .store a _ => 0 < (l.blocks a).getD 0

instance (l : Ledger) (c : Call) : Decidable (Seen l c) := by
  cases c <;> unfold Seen <;> infer_instance

/-- A pool, its ledger, and all pointers that calls returned. -/
structure Trace where
  pool : Pool
  ledger : Ledger
  returned : List ℕ

def play (t : Trace) : List Call → Option Trace
  | [] => some t
  | c :: cs =>
    if Seen t.ledger c then
      match exec t.pool c with
      | .ok (s, r) => play ⟨s, t.ledger.after c r (tlsfBlockSize s r), r :: t.returned⟩ cs
      | .error _ => none
    else none

/-- The calls from the pool that `tlsf_create` made, with the words that it was given. -/
def playFrom (created : Except Fault (Option Pool)) (m : Mem) (cs : List Call) : Option Trace :=
  match created with
  | .ok (some s) => play ⟨s, ⟨fun _ => none, fun x => some (m.word x)⟩, []⟩ cs
  | _ => none

theorem Seen.allowed {c : Call} (h : Seen l c) : Allowed address bytes l c := by
  cases c with
  | malloc size => exact h
  | free p => exact Or.inr h
  | realloc p size =>
    obtain ⟨hnull, hlive⟩ := h
    rw [Allowed, if_neg hnull]
    exact hlive
  | store a v =>
    cases hblock : l.blocks a with
    | none =>
      rw [Seen, hblock] at h
      exact absurd h (lt_irrefl 0)
    | some k =>
      rw [Seen, hblock] at h
      exact Or.inl ⟨a, k, hblock, le_rfl, Nat.lt_add_of_pos_right h⟩

theorem after_blocks {c : Call} {r k p : ℕ} (h : (l.after c r k).blocks p ≠ none) :
    l.blocks p ≠ none ∨ p = r := by
  have hgive {q : ℕ} (h : (l.give q).blocks p ≠ none) : l.blocks p ≠ none := by
    by_cases heq : p = q
    · exact absurd (heq ▸ Function.update_self ..) h
    · change Function.update l.blocks q none p ≠ none at h
      rwa [Function.update_of_ne heq] at h
  have htake {l' : Ledger} {q j : ℕ} {words : ℕ → Option ℕ}
      (h : (l'.take q j words).blocks p ≠ none) : l'.blocks p ≠ none ∨ p = q := by
    by_cases heq : p = q
    · exact Or.inr heq
    · change Function.update l'.blocks q (some j) p ≠ none at h
      rw [Function.update_of_ne heq] at h
      exact Or.inl h
  cases c with
  | malloc size =>
    rw [Ledger.after] at h
    split at h
    · exact Or.inl h
    · exact htake h
  | free q => exact Or.inl (hgive h)
  | realloc q size =>
    rw [Ledger.after] at h
    split at h
    · split at h
      · exact Or.inl (hgive h)
      · exact Or.inl h
    · exact (htake h).imp_left hgive
  | store a v => exact Or.inl h

theorem play_reach {t t' : Trace} {cs : List Call} (ht : Reach address bytes t.pool t.ledger)
    (hlive : ∀ p, t.ledger.blocks p ≠ none → p ∈ t.returned) (hplay : play t cs = some t') :
    Reach address bytes t'.pool t'.ledger
      ∧ ∀ p, t'.ledger.blocks p ≠ none → p ∈ t'.returned := by
  induction cs generalizing t with
  | nil =>
    obtain rfl := Option.some.inj hplay
    exact ⟨ht, hlive⟩
  | cons c cs ih =>
    rw [play] at hplay
    split at hplay
    case isFalse => cases hplay
    case isTrue hseen =>
      cases hexec : exec t.pool c with
      | error fault =>
        rw [hexec] at hplay
        cases hplay
      | ok x =>
        obtain ⟨s, r⟩ := x
        rw [hexec] at hplay
        refine ih (ht.call hseen.allowed hexec) (fun p hp => ?_) hplay
        rcases after_blocks hp with hp | rfl
        · exact List.mem_cons_of_mem _ (hlive p hp)
        · exact List.mem_cons_self

theorem playFrom_reach {m : Mem} {created : Except Fault (Option Pool)} {t : Trace} {cs : List Call}
    (hcreate : tlsfCreate m address bytes = created) (h : playFrom created m cs = some t) :
    Reach address bytes t.pool t.ledger ∧ ∀ p, t.ledger.blocks p ≠ none → p ∈ t.returned := by
  cases created with
  | error fault => cases h
  | ok pool =>
    cases pool with
    | none => cases h
    | some s => exact play_reach (.start hcreate) (fun p hp => absurd rfl hp) h

theorem region_small : Region 8 8192 := ⟨by decide, by decide, by decide, by decide, by decide⟩

/-- Two blocks, of which the first is written, made larger, and so moved behind the second; a third
one is given back. -/
def twoBlocks : List Call :=
  [.malloc 100, .malloc 200, .store 6552 42, .realloc 6552 300, .malloc 60, .free 6552]

theorem play_twoBlocks : ∃ t,
    playFrom (tlsfCreate ⟨fun _ => 0⟩ 8 8192) ⟨fun _ => 0⟩ twoBlocks = some t
    ∧ (t.returned.map fun p => (p, t.ledger.blocks p), t.ledger.known 6872)
      = ([(0, none), (6552, none), (6872, some 304), (0, none), (6664, some 200),
        (6552, none)], some 42) := by
  refine Option.map_eq_some_iff.mp ?_
  decide +kernel

theorem reach_twoBlocks : ∃ s l, Reach 8 8192 s l ∧ l.blocks 6664 = some 200
    ∧ l.blocks 6872 = some 304 ∧ l.known 6872 = some 42
    ∧ ∀ p, l.blocks p ≠ none → p = 6664 ∨ p = 6872 := by
  obtain ⟨t, ht, hfacts⟩ := play_twoBlocks
  obtain ⟨hreach, hreturned⟩ := playFrom_reach rfl ht
  obtain ⟨hblocks, hknown⟩ := Prod.mk.inj hfacts
  have hat {x : ℕ × Option ℕ} (hx : x ∈ t.returned.map fun p => (p, t.ledger.blocks p)) :
      t.ledger.blocks x.1 = x.2 := by
    obtain ⟨p, -, rfl⟩ := List.mem_map.mp hx
    rfl
  rw [hblocks] at hat
  have hfirst : t.ledger.blocks 6664 = some 200 := hat (x := (6664, some 200)) (by simp)
  have hsecond : t.ledger.blocks 6872 = some 304 := hat (x := (6872, some 304)) (by simp)
  refine ⟨t.pool, t.ledger, hreach, hfirst, hsecond, hknown, fun p hp => ?_⟩
  have hmem := List.mem_map_of_mem (f := fun p => (p, t.ledger.blocks p)) (hreturned p hp)
  rw [hblocks] at hmem
  simp only [List.mem_cons, List.not_mem_nil, or_false, Prod.mk.injEq, hp, and_false, false_or]
    at hmem
  exact (hmem.imp And.left And.left).symm

/-! ### What holds in every run -/

/-- In every run, each allowed call returns, and a block that it returns is aligned and has the size
that was asked for at least. -/
theorem reach_returns (hr : Region address bytes) (hs : Reach address bytes s l) {c : Call}
    (hc : Allowed address bytes l c) :
    ∃ s' r, exec s c = .ok (s', r)
      ∧ (r ≠ 0 → r % 8 = 0 ∧ c.asked ≤ tlsfBlockSize s' r) := by
  obtain ⟨bs, hbacked⟩ := reach_backed hr hs
  obtain ⟨s', r, hok, -, hanswer⟩ := exec_done hr hbacked hc
  exact ⟨s', r, hok, hanswer⟩

theorem reach_returns_moved : ∃ s l s' r, Reach 8 8192 s l ∧ l.blocks 6664 = some 200
    ∧ l.blocks 6872 = some 304 ∧ exec s (.realloc 6664 400) = .ok (s', r)
    ∧ (r ≠ 0 → r % 8 = 0 ∧ 400 ≤ tlsfBlockSize s' r) := by
  obtain ⟨s, l, hs, hfirst, hsecond, -⟩ := reach_twoBlocks
  have hallowed : Allowed 8 8192 l (.realloc 6664 400) := by
    rw [Allowed, if_neg (by decide), hfirst]
    exact ⟨Option.some_ne_none _, by decide⟩
  obtain ⟨s', r, h⟩ := reach_returns region_small hs hallowed
  exact ⟨s, l, s', r, hs, hfirst, hsecond, h⟩

/-- In every run, `tlsf_malloc` returns if and only if the search for the request does not begin behind
the tables; else it leaves them. -/
theorem reach_malloc_iff (hr : Region address bytes) (hs : Reach address bytes s l) (size : ℕ) :
    ((∃ s' r, tlsfMalloc s size = .ok (s', r)) ↔ Sized size)
      ∧ (¬ Sized size → tlsfMalloc s size = .error .bounds) := by
  have hbetween (hnot : ¬ Sized size) : tlsfMalloc s size = .error .bounds := by
    unfold Sized at hnot
    exact tlsfMalloc_overrun s (by omega) (by omega)
  refine ⟨⟨?_, fun hsize => ?_⟩, hbetween⟩
  · rintro ⟨s', r, hmalloc⟩
    by_contra hnot
    rw [hbetween hnot] at hmalloc
    cases hmalloc
  · obtain ⟨bs, hbacked⟩ := reach_backed hr hs
    obtain ⟨s', r, hmalloc, -⟩ := malloc_done hr hbacked hsize
    exact ⟨s', r, hmalloc⟩

theorem reach_malloc_iff_limit : ∃ s l, Reach 8 8192 s l ∧ l.blocks 6664 = some 200
    ∧ l.blocks 6872 = some 304 ∧ (∃ s' r, tlsfMalloc s (2 ^ 32 - 2 ^ 26) = .ok (s', r))
    ∧ tlsfMalloc s (2 ^ 32 - 1) = .error .bounds := by
  obtain ⟨s, l, hs, hfirst, hsecond, -⟩ := reach_twoBlocks
  exact ⟨s, l, hs, hfirst, hsecond,
    (reach_malloc_iff region_small hs _).1.mpr (Or.inl (le_refl _)),
    (reach_malloc_iff region_small hs _).2 (by decide)⟩

/-- In every run, the live blocks are inside of the region, have the sizes of the ledger, and do not
overlap; between two of them there is at least a word. -/
theorem reach_apart (hr : Region address bytes) (hs : Reach address bytes s l) {p k : ℕ}
    (hp : l.blocks p = some k) :
    (address + sizeofPool ≤ p ∧ p + k + 8 ≤ address + bytes ∧ tlsfBlockSize s p = k)
      ∧ ∀ q j, l.blocks q = some j → q ≠ p → p + k + 8 ≤ q ∨ q + j + 8 ≤ p := by
  obtain ⟨bs, hbacked⟩ := reach_backed hr hs
  obtain ⟨y, hy, rfl⟩ := (hbacked.holds p k).mp hp
  have hbounds := pick_bounds hy
  have hfits := hr.fits
  rw [hbacked.ends, first, hbacked.place] at hbounds
  refine ⟨⟨?_, by omega, hbacked.blockSize hy⟩, fun q j hq hne => ?_⟩
  · unfold firstBlock blockHeaderOverhead at hbounds
    omega
  · obtain ⟨z, hz, rfl⟩ := (hbacked.holds q j).mp hq
    rcases pick_apart hy hz with ⟨heq, -, -⟩ | h | h
    · exact absurd (congrArg (· + 16) heq.symm) hne
    · exact Or.inl (by omega)
    · exact Or.inr (by omega)

theorem reach_apart_moved : ∃ s l, Reach 8 8192 s l ∧ (6544 ≤ 6664 ∧ 6664 + 200 + 8 ≤ 8200
    ∧ tlsfBlockSize s 6664 = 200) ∧ (6664 + 200 + 8 ≤ 6872 ∨ 6872 + 304 + 8 ≤ 6664) := by
  obtain ⟨s, l, hs, hfirst, hsecond, -⟩ := reach_twoBlocks
  obtain ⟨hinside, hapart⟩ := reach_apart region_small hs hfirst
  exact ⟨s, l, hs, hinside, hapart _ _ hsecond (by decide)⟩

/-- In every run, the words of the live blocks, and those outside of the region, are what the client
has made of them. -/
theorem reach_known (hr : Region address bytes) (hs : Reach address bytes s l) {x v : ℕ}
    (hx : Mine address bytes l x) (hv : l.known x = some v) : s.mem.word x = v := by
  obtain ⟨bs, hbacked⟩ := reach_backed hr hs
  refine hbacked.knows x v (hx.imp_left ?_) hv
  rintro ⟨p, k, hp, hin⟩
  obtain ⟨y, hy, rfl⟩ := (hbacked.holds p k).mp hp
  exact ⟨(y, k), hy, hin⟩

theorem reach_known_moved : ∃ s l, Reach 8 8192 s l ∧ l.blocks 6872 = some 304
    ∧ s.mem.word 6872 = 42 := by
  obtain ⟨s, l, hs, -, hsecond, hknown, -⟩ := reach_twoBlocks
  have hmine : Mine 8 8192 l 6872 := Or.inl ⟨6872, 304, hsecond, le_rfl, by decide⟩
  exact ⟨s, l, hs, hsecond, reach_known region_small hs hmine hknown⟩

/-- In every run, `tlsf_malloc` fails only if no space between the live blocks has room for the request,
one part in 32 more, and a header. -/
theorem reach_finds (hr : Region address bytes) (hs : Reach address bytes s l) {size g w : ℕ}
    (hpos : 0 < size) (hmax : size ≤ 2 ^ 32 - 2 ^ 26) (hlo : firstBlock address ≤ g)
    (hhi : g + w ≤ firstBlock address + 8 + poolBytes bytes)
    (hgap : ∀ p k, l.blocks p = some k → p + k ≤ g + 8 ∨ g + w + 16 ≤ p)
    (hw : rounded size + rounded size / 32 + 8 ≤ w) :
    ∃ s' r, exec s (.malloc size) = .ok (s', r) ∧ r ≠ 0 := by
  obtain ⟨bs, hbacked⟩ := reach_backed hr hs
  exact hbacked.finds hpos hmax hlo hhi hgap hw

/-- There is room behind the two blocks. -/
theorem reach_finds_behind : ∃ s l s' r, Reach 8 8192 s l ∧ l.blocks 6664 = some 200
    ∧ l.blocks 6872 = some 304 ∧ exec s (.malloc 960) = .ok (s', r) ∧ r ≠ 0 := by
  obtain ⟨s, l, hs, hfirst, hsecond, -, hlive⟩ := reach_twoBlocks
  have hgap : ∀ p k, l.blocks p = some k → p + k ≤ 7168 + 8 ∨ 7168 + 1016 + 16 ≤ p := by
    intro p k hp
    rcases hlive p (hp ▸ Option.some_ne_none k) with rfl | rfl
    · obtain rfl := Option.some.inj (hp.symm.trans hfirst)
      exact Or.inl (by decide)
    · obtain rfl := Option.some.inj (hp.symm.trans hsecond)
      exact Or.inl (by decide)
  obtain ⟨s', r, h⟩ := reach_finds region_small hs (show 0 < 960 by decide) (by decide)
    (show firstBlock 8 ≤ 7168 by decide) (by decide) hgap (by decide)
  exact ⟨s, l, s', r, hs, hfirst, hsecond, h⟩

/-- When all blocks have been given back, the pool is one free block again. -/
theorem reach_freed (hr : Region address bytes) (hs : Reach address bytes s l)
    (hnone : ∀ p, l.blocks p = none) : Inv s [⟨poolBytes bytes, true⟩] := by
  obtain ⟨bs, hbacked⟩ := reach_backed hr hs
  have hused : pick false (first s) bs = [] := List.eq_nil_iff_forall_not_mem.mpr fun b hb => by
    have := (hbacked.holds (b.1 + 16) b.2).mpr ⟨b.1, hb, rfl⟩
    rw [hnone] at this
    cases this
  have hends := hbacked.ends
  have hinv := hbacked.inv
  rw [show first s = firstBlock address from congrArg firstBlock hbacked.place] at hends
  rcases bs with _ | ⟨⟨k, _ | _⟩, _ | ⟨⟨j, _ | _⟩, bs⟩⟩
  · change firstBlock address = _ at hends
    omega
  · cases hused
  · cases hused
  · cases hused
  · change firstBlock address + 8 + k = _ at hends
    obtain rfl : k = poolBytes bytes := by omega
    exact hinv
  · cases hused
  · exact absurd ⟨rfl, rfl⟩ hinv.coalesced.2.1

theorem play_allFreed : ∃ t, playFrom (tlsfCreate ⟨fun _ => 0⟩ 8 8192) ⟨fun _ => 0⟩
      (twoBlocks ++ [.free 6872, .free 6664]) = some t
    ∧ t.returned.map t.ledger.blocks = List.replicate 8 none := by
  refine Option.map_eq_some_iff.mp ?_
  decide +kernel

theorem reach_freed_all : ∃ s l, Reach 8 8192 s l ∧ Inv s [⟨poolBytes 8192, true⟩] := by
  obtain ⟨t, ht, hgone⟩ := play_allFreed
  obtain ⟨hreach, hreturned⟩ := playFrom_reach rfl ht
  refine ⟨t.pool, t.ledger, hreach, reach_freed region_small hreach fun p => ?_⟩
  by_contra hp
  have hmem := List.mem_map_of_mem (f := t.ledger.blocks) (hreturned p hp)
  rw [hgone] at hmem
  exact hp (List.eq_of_mem_replicate hmem)

end

end Vmir.TlsfRuns
