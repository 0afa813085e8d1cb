import Vmir.TlsfRuns

set_option autoImplicit false

/-!
# The checks of the heap

`tlsf_walk_heap`, on which `vmir_walk_heap` is built, and `tlsf_check_heap`. The loops have a bound; a
loop that comes to it has no result.
-/
namespace Vmir.TlsfWalk
open Tlsf TlsfMapping TlsfHeaders TlsfLists TlsfRows TlsfRowOps TlsfPool TlsfMerge TlsfInterface
open TlsfCalls TlsfRuns

/-- A call of the walker: the pointer, the size and whether the block is used. -/
structure Visit where
  ptr : ℕ
  size : ℕ
  used : Bool
deriving DecidableEq, Repr

/-- `tlsf_walk_heap` from a block on -/
def walkFrom (m : Mem) : ℕ → ℕ → Except Fault (Option (List Visit))
  | 0, _ => .ok none
  | fuel + 1, block =>
    if block ≠ 0 ∧ ¬ blockIsLast m block then do
      let visit := ⟨blockToPtr block, blockSize m block, !decide (blockIsFree m block)⟩
      let next ← blockNext m block
      let visits ← walkFrom m fuel next
      .ok (visits.map (visit :: ·))
    else .ok (some [])

def tlsfWalkHeap (s : Pool) (fuel : ℕ) : Except Fault (Option (List Visit)) :=
  walkFrom s.mem fuel (firstBlock s.address)

/-- `tlsf_insist` -/
def tlsfInsist (p : Prop) [Decidable p] (status : ℤ) : Except Fault ℤ := do
  tlsfAssert p
  .ok (if p then status else status - 1)

/-- The walker of the check; it is told whether the block before is free. -/
def integrityWalker (m : Mem) (integ : Bool × ℤ) (visit : Visit) : Except Fault (Bool × ℤ) := do
  let block := blockFromPtr visit.ptr
  let status ← tlsfInsist (integ.1 = decide (blockIsPrevFree m block)) 0
  let status ← tlsfInsist (visit.size = blockSize m block) status
  .ok (decide (blockIsFree m block), integ.2 + status)

def checkList (s : Pool) (fl sl : ℕ) : ℕ → ℕ → ℤ → Except Fault (Option ℤ)
  | 0, _, _ => .ok none
  | fuel + 1, block, status =>
    if block ≠ s.address then do
      let status ← tlsfInsist (blockIsFree s.mem block) status
      let status ← tlsfInsist (¬ blockIsPrevFree s.mem block) status
      let next ← blockNext s.mem block
      let status ← tlsfInsist (¬ blockIsFree s.mem next) status
      let status ← tlsfInsist (blockIsPrevFree s.mem next) status
      let status ← tlsfInsist (blockSizeMin ≤ blockSize s.mem block) status
      let status ← tlsfInsist (mappingInsert (blockSize s.mem block) = (fl, sl)) status
      checkList s fl sl fuel (s.mem.word (block + 16)) status
    else .ok (some status)

def checkClass (s : Pool) (fuel fl sl : ℕ) (status : ℤ) : Except Fault (Option ℤ) := do
  let flMap := s.flBitmap &&& ((1 : BitVec 32) <<< fl)
  let slList := s.slBitmap fl
  let slMap := slList &&& ((1 : BitVec 32) <<< sl)
  let block := s.blocks fl sl
  let status ← if flMap = 0 then tlsfInsist (slMap = 0) status else .ok status
  if slMap = 0 then do
    let status ← tlsfInsist (block = s.address) status
    .ok (some status)
  else do
    let status ← tlsfInsist (slList ≠ 0) status
    let status ← tlsfInsist (block ≠ s.address) status
    checkList s fl sl fuel block status

def classes : List (ℕ × ℕ) := (List.range flIndexCount).flatMap fun fl =>
  (List.range slIndexCount).map fun sl => (fl, sl)

def checkClasses (s : Pool) (fuel : ℕ) : List (ℕ × ℕ) → ℤ → Except Fault (Option ℤ)
  | [], status => .ok (some status)
  | c :: cs, status => do
    match ← checkClass s fuel c.1 c.2 status with
    | some status => checkClasses s fuel cs status
    | none => .ok none

def tlsfCheckHeap (s : Pool) (fuel : ℕ) : Except Fault (Option ℤ) := do
  match ← tlsfWalkHeap s fuel with
  | some visits => do
    let integ ← visits.foldlM (integrityWalker s.mem) (false, 0)
    checkClasses s fuel classes integ.2
  | none => .ok none

/-! ## The walk -/

def visits : ℕ → List Blk → List Visit
  | _, [] => []
  | a, b :: bs => ⟨a + 16, b.size, !b.free⟩ :: visits (a + 8 + b.size) bs

section
variable {m : Mem} {p : Bool} {a fuel : ℕ} {bs : List Blk} {s : Pool}

theorem walkFrom_row (h : Row m p a bs) (hpos : 0 < a) (hend : stop a bs < 2 ^ 64)
    (hfuel : bs.length < fuel) : walkFrom m fuel a = .ok (some (visits a bs)) := by
  induction bs generalizing p a fuel with
  | nil =>
    obtain ⟨fuel, rfl⟩ : ∃ k, fuel = k + 1 := ⟨fuel - 1, by omega⟩
    have hlast : blockIsLast m a := (row_headed h hend).size
    rw [walkFrom, if_neg fun hs => hs.2 hlast]
    rfl
  | cons b bs ih =>
    obtain ⟨fuel, rfl⟩ : ∃ k, fuel = k + 1 := ⟨fuel - 1, by omega⟩
    obtain ⟨n, f⟩ := b
    have hhead := row_headed h hend
    have hahead := ahead_of_row h hend
    have hlarge := hahead.large
    have hlast : ¬ blockIsLast m a := by
      rw [blockIsLast, hahead.headed.size]
      omega
    have hfree : decide (blockIsFree m a) = f := by
      rw [Bool.decide_congr hahead.headed.isFree]
      cases f <;> rfl
    rw [walkFrom, if_pos ⟨by omega, hlast⟩, hahead.next, ok_bind,
      ih hahead.row (by omega) hahead.fits (by simpa using hfuel), ok_bind, hfree,
      hahead.headed.size]
    rfl

theorem integrity_row (h : Row m p a bs) (hend : stop a bs < 2 ^ 64) (status : ℤ) :
    (visits a bs).foldlM (integrityWalker m) (p, status) = .ok (lastFree p bs, status) := by
  induction bs generalizing p a with
  | nil => rfl
  | cons b bs ih =>
    obtain ⟨n, f⟩ := b
    have hahead := ahead_of_row h hend
    have hhead := hahead.headed
    have hfree : decide (blockIsFree m a) = f := by
      rw [Bool.decide_congr hhead.isFree]
      cases f <;> rfl
    have hprev : p = decide (blockIsPrevFree m a) := by
      rw [Bool.decide_congr hhead.isPrevFree]
      cases p <;> rfl
    have hstep : integrityWalker m (p, status) ⟨a + 16, n, !f⟩ = .ok (f, status) := by
      unfold integrityWalker tlsfInsist blockFromPtr
      dsimp only
      rw [Nat.add_sub_cancel, if_pos hprev, tlsfAssert_ok hprev, ok_bind, ok_bind,
        tlsfAssert_ok hhead.size.symm, ok_bind, if_pos hhead.size.symm, ok_bind, hfree, add_zero]
    rw [visits, List.foldlM_cons, hstep]
    exact ih hahead.row hahead.fits

end

/-! ## The lists -/

theorem tlsfInsist_ok {p : Prop} [Decidable p] (h : p) (status : ℤ) : tlsfInsist p status = .ok status := by
  unfold tlsfInsist
  rw [tlsfAssert_ok h, ok_bind, if_pos h]

theorem bit_clear {bm : BitVec 32} {i : ℕ} (hi : i < 32) :
    bm &&& ((1 : BitVec 32) <<< i) = 0 ↔ ¬ bm.getLsbD i = true := by
  rw [← not_iff_not, not_not]
  refine ne_zero_iff.trans ?_
  constructor
  · rintro ⟨j, hj⟩
    rw [BitVec.getLsbD_and, Bool.and_eq_true, getLsbD_bit hi] at hj
    exact hj.2 ▸ hj.1
  · intro h
    refine ⟨i, ?_⟩
    rw [BitVec.getLsbD_and, h, Bool.true_and]
    exact (getLsbD_bit hi i).mpr rfl

section
variable {s : Pool} {bs : List Blk} {y n fuel : ℕ}

theorem free_block (h : Inv s bs) (hmem : (y, n) ∈ pick true (first s) bs) :
    blockIsFree s.mem y ∧ ¬ blockIsPrevFree s.mem y ∧ blockNext s.mem y = .ok (y + 8 + n)
      ∧ ¬ blockIsFree s.mem (y + 8 + n) ∧ blockIsPrevFree s.mem (y + 8 + n)
      ∧ blockSize s.mem y = n ∧ 24 ≤ n := by
  obtain ⟨xs, ys, rfl, rfl⟩ := mem_pick.mp hmem
  have hahead := mid_ahead h.mid
  have hnext := row_headed hahead.row hahead.fits
  obtain ⟨-, hlast, hys⟩ := coalesced_mid.mp h.coalesced
  refine ⟨hahead.headed.isFree.mpr rfl, fun hp => hlast ⟨hahead.headed.isPrevFree.mp hp, rfl⟩,
    hahead.next, fun hf => ?_, hnext.isPrevFree.mpr rfl, hahead.headed.size, hahead.large⟩
  exact Bool.false_ne_true (hys.head.symm.trans (hnext.isFree.mp hf))

theorem checkList_ok (h : Inv s bs) {c : ℕ × ℕ} {p : Option ℕ} {l : List ℕ}
    (hl : ∀ y ∈ l, ∃ n, (y, n) ∈ pick true (first s) bs ∧ mappingInsert n = c)
    (hlinks : IntrusiveList.Segment (links s c) p l) (hfuel : l.length < fuel) (status : ℤ) :
    checkList s c.1 c.2 fuel (l.head?.getD s.address) status = .ok (some status) := by
  induction l generalizing p fuel with
  | nil =>
    obtain ⟨fuel, rfl⟩ : ∃ k, fuel = k + 1 := ⟨fuel - 1, by omega⟩
    exact if_neg fun h => h rfl
  | cons y l ih =>
    obtain ⟨fuel, rfl⟩ : ∃ k, fuel = k + 1 := ⟨fuel - 1, by omega⟩
    obtain ⟨n, hmem, rfl⟩ := hl y List.mem_cons_self
    obtain ⟨-, hnext, hrest⟩ := hlinks
    obtain ⟨hfree, hprev, hbehind, hused, htold, hsize, hlarge⟩ := free_block h hmem
    have habove := (h.mid.listable hmem).above
    change s.address + 32 ≤ y at habove
    have hword : s.mem.word (y + 16) = l.head?.getD s.address := by
      change blockOf s.address (s.mem.word (y + 16)) = l.head? at hnext
      cases hl : l.head? with
      | none =>
        rw [hl] at hnext
        exact blockOf_none hnext
      | some z =>
        rw [hl] at hnext
        exact blockOf_some hnext
    have hmin : blockSizeMin ≤ n := hlarge
    change checkList s _ _ (fuel + 1) y status = _
    rw [checkList, if_pos (by omega), tlsfInsist_ok hfree, ok_bind, tlsfInsist_ok hprev, ok_bind,
      hbehind, ok_bind, tlsfInsist_ok hused, ok_bind, tlsfInsist_ok htold, ok_bind, hsize,
      tlsfInsist_ok hmin, ok_bind, tlsfInsist_ok rfl, ok_bind, hword]
    exact ih (fun z hz => hl z (List.mem_cons_of_mem _ hz)) hrest (by simpa using hfuel)

theorem pick_length (f : Bool) (a : ℕ) (bs : List Blk) : (pick f a bs).length ≤ bs.length := by
  induction bs generalizing a with
  | nil => exact le_refl 0
  | cons b bs ih =>
    have hle := ih (a + 8 + b.size)
    rw [pick, List.length_cons]
    split
    · exact Nat.succ_le_succ hle
    · exact le_trans hle (Nat.le_succ _)

theorem checkClass_ok (h : Inv s bs) (hfuel : bs.length < fuel) {c : ℕ × ℕ} (hc : InTable c)
    (status : ℤ) : checkClass s fuel c.1 c.2 status = .ok (some status) := by
  obtain ⟨L, hL⟩ := h.mid.listed
  have hfl : c.1 < 32 := lt_trans hc.1 (by decide)
  have hsl : c.2 < 32 := hc.2
  have hmem : ∀ y ∈ L c, ∃ n, (y, n) ∈ pick true (first s) bs ∧ mappingInsert n = c :=
    fun y hy => (hL.mem_iff c y).mp hy
  have hlength : (L c).length < fuel := by
    have hsub : L c ⊆ (pick true (first s) bs).map Prod.fst := fun y hy => by
      obtain ⟨n, hn, -⟩ := hmem y hy
      exact List.mem_map.mpr ⟨(y, n), hn, rfl⟩
    have hle := ((hL.linked c hc).nodup.subperm hsub).length_le
    rw [List.length_map] at hle
    exact lt_of_le_of_lt (le_trans hle (pick_length true (first s) bs)) hfuel
  have hbit := hL.slBit c hc
  have hclear : s.slBitmap c.1 &&& ((1 : BitVec 32) <<< c.2) = 0 ↔ _ := bit_clear hsl
  unfold checkClass
  dsimp only
  by_cases hempty : L c = []
  · have hslmap : s.slBitmap c.1 &&& ((1 : BitVec 32) <<< c.2) = 0 :=
      hclear.mpr fun hb => hbit.mp hb hempty
    have hblock : s.blocks c.1 c.2 = s.address := by
      rw [hL.head hc, hempty]
      rfl
    by_cases hflmap : s.flBitmap &&& ((1 : BitVec 32) <<< c.1) = 0
    · rw [if_pos hflmap, tlsfInsist_ok hslmap, ok_bind, if_pos hslmap, tlsfInsist_ok hblock, ok_bind]
    · rw [if_neg hflmap, ok_bind, if_pos hslmap, tlsfInsist_ok hblock, ok_bind]
  · have hset : (s.slBitmap c.1).getLsbD c.2 = true := hbit.mpr hempty
    have hslmap : s.slBitmap c.1 &&& ((1 : BitVec 32) <<< c.2) ≠ 0 := fun h0 => hclear.mp h0 hset
    have hslist : s.slBitmap c.1 ≠ 0 := ne_zero_iff.mpr ⟨_, hset⟩
    have hflmap : s.flBitmap &&& ((1 : BitVec 32) <<< c.1) ≠ 0 := fun h0 =>
      (bit_clear hfl).mp h0 ((hL.flBit c.1).mpr ⟨hc.1, hslist⟩)
    have hblock : s.blocks c.1 c.2 ≠ s.address := by
      rcases hL.head_cases hc with ⟨hnil, -⟩ | ⟨l, -, hge⟩
      · exact absurd hnil hempty
      · omega
    rw [if_neg hflmap, ok_bind, if_neg hslmap, tlsfInsist_ok hslist, ok_bind, tlsfInsist_ok hblock,
      ok_bind, hL.head hc]
    exact checkList_ok h hmem (hL.linked c hc).segment hlength status

theorem checkClasses_ok (h : Inv s bs) (hfuel : bs.length < fuel) {cs : List (ℕ × ℕ)}
    (hcs : ∀ c ∈ cs, InTable c) (status : ℤ) : checkClasses s fuel cs status = .ok (some status) := by
  induction cs with
  | nil => rfl
  | cons c cs ih =>
    rw [checkClasses, checkClass_ok h hfuel (hcs c List.mem_cons_self), ok_bind]
    exact ih fun d hd => hcs d (List.mem_cons_of_mem _ hd)

theorem inTable_classes {c : ℕ × ℕ} (hc : c ∈ classes) : InTable c := by
  obtain ⟨fl, hfl, hc⟩ := List.mem_flatMap.mp hc
  obtain ⟨sl, hsl, rfl⟩ := List.mem_map.mp hc
  exact ⟨List.mem_range.mp hfl, List.mem_range.mp hsl⟩

theorem walkHeap_ok (h : Inv s bs) (hfuel : bs.length < fuel) :
    tlsfWalkHeap s fuel = .ok (some (visits (first s) bs)) := by
  have hbelow := h.mid.arena.below
  exact walkFrom_row h.mid.row (first_pos s []) (show stop (first s) bs < 2 ^ 64 by omega) hfuel

theorem checkHeap_ok (h : Inv s bs) (hfuel : bs.length < fuel) : tlsfCheckHeap s fuel = .ok (some 0) := by
  have hbelow := h.mid.arena.below
  unfold tlsfCheckHeap
  rw [walkHeap_ok h hfuel, ok_bind]
  dsimp only
  rw [integrity_row h.mid.row (by omega), ok_bind]
  exact checkClasses_ok h hfuel (fun c hc => inTable_classes hc) 0

end

/-! ## In every run -/

section
variable {address bytes : ℕ} {s : Pool} {l : Ledger}

theorem row_length {m : Mem} {p : Bool} {a : ℕ} {bs : List Blk} (h : Row m p a bs) :
    a + 32 * bs.length ≤ stop a bs := by
  induction bs generalizing p a with
  | nil => exact le_refl a
  | cons b bs ih =>
    obtain ⟨-, ⟨hlarge, -⟩, -, hrest⟩ := row_cons.mp h
    have := ih hrest
    rw [List.length_cons, stop]
    omega

theorem length_lt (hr : Region address bytes) {bs : List Blk} (h : Backed address bytes s l bs)
    {fuel : ℕ} (hfuel : bytes < 32 * fuel) : bs.length < fuel := by
  have hlength := row_length h.inv.mid.row
  have hfits := hr.fits
  rw [h.ends, first, h.place] at hlength
  unfold firstBlock sizeofPool blockHeaderOverhead at hlength hfits
  omega

theorem mem_visits {a p k : ℕ} {bs : List Blk} {f : Bool} :
    (⟨p, k, !f⟩ : Visit) ∈ visits a bs ↔ ∃ y, (y, k) ∈ pick f a bs ∧ p = y + 16 := by
  induction bs generalizing a with
  | nil => exact iff_of_false List.not_mem_nil fun ⟨y, hy, _⟩ => absurd hy List.not_mem_nil
  | cons b bs ih =>
    rw [visits, List.mem_cons, ih, pick]
    by_cases hf : b.free = f
    · rw [if_pos hf, hf]
      constructor
      · rintro (heq | ⟨y, hy, rfl⟩)
        · obtain ⟨rfl, rfl, -⟩ := Visit.mk.inj heq
          exact ⟨a, List.mem_cons_self, rfl⟩
        · exact ⟨y, List.mem_cons_of_mem _ hy, rfl⟩
      · rintro ⟨y, hy, rfl⟩
        rcases List.mem_cons.mp hy with heq | hy
        · obtain ⟨rfl, rfl⟩ := Prod.mk.inj heq
          exact Or.inl rfl
        · exact Or.inr ⟨y, hy, rfl⟩
    · rw [if_neg hf]
      refine or_iff_right fun heq => hf ?_
      exact (Bool.not_inj (congrArg Visit.used heq)).symm

theorem visits_chain {q : Bool} {a : ℕ} {bs : List Blk} (h : Coalesced q bs) :
    (visits a bs).IsChain fun v w => w.ptr = v.ptr + 8 + v.size ∧ (v.used = true ∨ w.used = true) := by
  induction bs generalizing q a with
  | nil => exact List.IsChain.nil
  | cons b bs ih =>
    have htail := ih (a := a + 8 + b.size) h.2
    cases bs with
    | nil => exact List.IsChain.singleton _
    | cons d bs =>
      refine List.isChain_cons_cons.mpr ⟨⟨?_, ?_⟩, htail⟩
      · change a + 8 + b.size + 16 = a + 16 + 8 + b.size
        omega
      · have hpair := h.2.1
        change (!b.free) = true ∨ (!d.free) = true
        revert hpair
        cases b.free <;> cases d.free <;> decide

/-- In every run, `tlsf_check_heap` ends and finds nothing. -/
theorem reach_checks (hr : Region address bytes) (hs : Reach address bytes s l) {fuel : ℕ}
    (hfuel : bytes < 32 * fuel) : tlsfCheckHeap s fuel = .ok (some 0) := by
  obtain ⟨bs, hbacked⟩ := reach_backed hr hs
  exact checkHeap_ok hbacked.inv (length_lt hr hbacked hfuel)

/-- In every run, `tlsf_walk_heap` ends; the used blocks that it shows are the live ones. -/
theorem reach_walks (hr : Region address bytes) (hs : Reach address bytes s l) {fuel : ℕ}
    (hfuel : bytes < 32 * fuel) :
    ∃ vs, tlsfWalkHeap s fuel = .ok (some vs)
      ∧ (∀ p k, l.blocks p = some k ↔ ⟨p, k, true⟩ ∈ vs)
      ∧ vs.IsChain fun v w => w.ptr = v.ptr + 8 + v.size ∧ (v.used = true ∨ w.used = true) := by
  obtain ⟨bs, hbacked⟩ := reach_backed hr hs
  refine ⟨_, walkHeap_ok hbacked.inv (length_lt hr hbacked hfuel), fun p k => ?_,
    visits_chain hbacked.inv.coalesced⟩
  exact (hbacked.holds p k).trans (mem_visits (f := false)).symm

theorem reach_checks_moved : ∃ s l, Reach 8 8192 s l ∧ l.blocks 6664 = some 200
    ∧ l.blocks 6872 = some 304 ∧ tlsfCheckHeap s 257 = .ok (some 0) := by
  obtain ⟨s, l, hs, hfirst, hsecond, -⟩ := reach_twoBlocks
  exact ⟨s, l, hs, hfirst, hsecond, reach_checks region_small hs (by decide)⟩

theorem reach_walks_moved : ∃ s l vs, Reach 8 8192 s l ∧ tlsfWalkHeap s 257 = .ok (some vs)
    ∧ (∀ v ∈ vs, v.used = true → v.ptr = 6664 ∨ v.ptr = 6872)
    ∧ ⟨6664, 200, true⟩ ∈ vs ∧ ⟨6872, 304, true⟩ ∈ vs
    ∧ vs.IsChain fun v w => w.ptr = v.ptr + 8 + v.size ∧ (v.used = true ∨ w.used = true) := by
  obtain ⟨s, l, hs, hfirst, hsecond, -, hlive⟩ := reach_twoBlocks
  obtain ⟨vs, hwalk, hused, hchain⟩ := reach_walks region_small hs (show 8192 < 32 * 257 by decide)
  refine ⟨s, l, vs, hs, hwalk, fun v hv hu => ?_, (hused _ _).mp hfirst, (hused _ _).mp hsecond,
    hchain⟩
  obtain ⟨p, k, used⟩ := v
  obtain rfl : used = true := hu
  exact hlive p ((hused p k).mpr hv ▸ Option.some_ne_none k)

end

end Vmir.TlsfWalk
