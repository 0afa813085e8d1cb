import Vmir.TlsfRowOps
import Vmir.TlsfSearch

set_option autoImplicit false

/-!
# Pools in the course of an operation

The row of the blocks and the free lists together. While an operation runs, a free block may not yet
be, or no longer be, in a list.
-/
namespace Vmir.TlsfPool
open Tlsf TlsfMapping TlsfHeaders TlsfLists TlsfRows TlsfRowOps TlsfSearch

def first (s : Pool) : ℕ := firstBlock s.address

/-- The memory from the pool structure to the sentinel `e`. -/
structure Arena (null e : ℕ) : Prop where
  pos : null ≠ 0
  aligned : null % 8 = 0
  below : e + 16 ≤ 2 ^ 64
  small : e ≤ firstBlock null + 2 ^ 32

/-- The blocks `bs` are laid out, and the free lists have the blocks `G` of them. -/
structure Mid (s : Pool) (bs : List Blk) (G : List (ℕ × ℕ)) : Prop where
  arena : Arena s.address (stop (first s) bs)
  row : Row s.mem false (first s) bs
  listed : ∃ L, Listed s G L
  sub : ∀ b ∈ G, b ∈ pick true (first s) bs

/-- The words of the used blocks `bs`, and those outside of the pool, are as they were. -/
structure Kept (bs : List Blk) (s s' : Pool) : Prop where
  address : s'.address = s.address
  payload : ∀ x, Payload (first s) bs x → s'.mem.word x = s.mem.word x
  outside : ∀ x, x < s.address ∨ stop (first s) bs + 8 < x → s'.mem.word x = s.mem.word x

theorem Kept.refl (bs : List Blk) (s : Pool) : Kept bs s s := ⟨rfl, fun _ _ => rfl, fun _ _ => rfl⟩

theorem Kept.trans {bs : List Blk} {s s' s'' : Pool} (h : Kept bs s s') (h' : Kept bs s' s'') :
    Kept bs s s'' := by
  have hfirst : first s' = first s := congrArg firstBlock h.address
  refine ⟨h'.address.trans h.address, fun x hx => (h'.payload x ?_).trans (h.payload x hx),
    fun x hx => (h'.outside x ?_).trans (h.outside x hx)⟩
  · rwa [hfirst]
  · rwa [hfirst, h.address]

theorem Kept.mono {bs bs' : List Blk} {s s' : Pool} (h : Kept bs' s s')
    (hfewer : Fewer (first s) bs bs') : Kept bs s s' :=
  ⟨h.address, fun x hx => h.payload x (hfewer.payload x hx),
    fun x hx => h.outside x (hfewer.stop.symm ▸ hx)⟩

theorem first_bounds (null : ℕ) : null + 32 ≤ firstBlock null := by
  unfold firstBlock sizeofPool blockHeaderOverhead
  omega

section
variable {s s' : Pool} {bs bs' xs ys : List Blk} {G G' : List (ℕ × ℕ)} {y n k : ℕ} {m : Mem}
  {p q : Bool} {a : ℕ}

theorem stop_mod (h : Seg m p a xs) : stop a xs % 8 = a % 8 := by
  induction xs generalizing p a with
  | nil => rfl
  | cons b xs ih =>
    obtain ⟨-, ⟨-, h8⟩, -, hrest⟩ := h
    rw [stop, ih hrest]
    omega

theorem Mid.first_mod (h : Mid s bs G) : first s % 8 = 0 := by
  have := h.arena.aligned
  unfold first firstBlock sizeofPool blockHeaderOverhead
  omega

theorem Mid.perm (h : Mid s bs G) (hperm : G'.Perm G) : Mid s bs G' where
  arena := h.arena
  row := h.row
  listed := by
    obtain ⟨L, hL⟩ := h.listed
    exact ⟨L, hL.perm hperm⟩
  sub b hb := h.sub b (hperm.mem_iff.mp hb)

theorem Mid.listable (h : Mid s bs G) (hmem : (y, n) ∈ pick true (first s) bs) :
    Listable s.address (y, n) := by
  obtain ⟨hlarge, h8⟩ := h.row.good hmem
  have hbounds := pick_bounds hmem
  have hnull := first_bounds s.address
  have hbelow := h.arena.below
  have hsmall := h.arena.small
  have hmod := h.first_mod
  change s.address + 32 ≤ first s at hnull
  change _ ≤ first s + 2 ^ 32 at hsmall
  obtain ⟨xs, ys, rfl, rfl⟩ := mem_pick.mp hmem
  refine ⟨by omega, by omega, ?_, by omega⟩
  rw [stop_mod (row_append.mp h.row).1]
  exact hmod

theorem Mid.blockSize (h : Mid s bs G) {f : Bool} (hmem : (y, n) ∈ pick f (first s) bs) :
    blockSize s.mem y = n := by
  obtain ⟨q, hword⟩ := h.row.header hmem
  obtain ⟨-, h8⟩ := h.row.good hmem
  have hbounds := pick_bounds hmem
  have hbelow := h.arena.below
  have hhead : Headed s.mem y n f q := ⟨hword, by omega, by omega⟩
  exact hhead.size

/-! ## What the headers and the links are apart from -/

theorem rowWord_not_link (hrow : Row m p (firstBlock a) bs) {x : ℕ}
    (hx : RowWord (firstBlock a) bs x) (hG : ∀ b ∈ G, b ∈ pick true (firstBlock a) bs) :
    ¬ LinkWord a G x := by
  rintro ⟨y, rfl | ⟨n, hmem⟩, h⟩
  · have := (rowWord_bounds hx).1
    have := first_bounds y
    omega
  · have hlarge := (hrow.good (hG _ hmem)).1
    rcases rowWord_apart (hG _ hmem) hx with h' | ⟨-, h'⟩ | h' <;> omega

theorem link_not_payload (hrow : Row m p (firstBlock a) bs) {x : ℕ} (hx : LinkWord a G x)
    (hG : ∀ b ∈ G, b ∈ pick true (firstBlock a) bs) : ¬ Payload (firstBlock a) bs x := by
  obtain ⟨y, rfl | ⟨n, hmem⟩, h⟩ := hx
  · rintro ⟨z, k, hmem, hlo, -⟩
    have := (pick_bounds hmem).1
    have := first_bounds y
    omega
  · have hlarge := (hrow.good (hG _ hmem)).1
    exact free_not_payload (hG _ hmem) (by omega) (by omega)

theorem linkWord_bounds (hrow : Row m p (firstBlock a) bs) {x : ℕ} (hx : LinkWord a G x)
    (hG : ∀ b ∈ G, b ∈ pick true (firstBlock a) bs) : a ≤ x ∧ x ≤ stop (firstBlock a) bs := by
  obtain ⟨y, rfl | ⟨n, hmem⟩, h⟩ := hx
  · have := first_bounds y
    have := le_stop (firstBlock y) bs
    omega
  · have hlarge := (hrow.good (hG _ hmem)).1
    have hbounds := pick_bounds (hG _ hmem)
    have := first_bounds a
    omega

theorem Mid.setMem (h : Mid s bs G) {m' : Mem} (hrow : Row m' false (first s) bs')
    (hstop : stop (first s) bs' = stop (first s) bs)
    (hsub : ∀ b ∈ G, b ∈ pick true (first s) bs')
    (hsame : Same (fun x => RowWord (first s) bs x ∨ RowWord (first s) bs' x) s.mem m') :
    Mid { s with mem := m' } bs' G where
  arena := by
    change Arena s.address (stop (first s) bs')
    rw [hstop]
    exact h.arena
  row := hrow
  sub := hsub
  listed := by
    obtain ⟨L, hL⟩ := h.listed
    have hlink {x : ℕ} (hx : LinkWord s.address G x) : m'.word x = s.mem.word x :=
      hsame x fun hor => hor.elim (fun hw => rowWord_not_link h.row hw h.sub hx)
        fun hw => rowWord_not_link hrow hw hsub hx
    exact ⟨L, hL.congr fun b hb => ⟨hlink ⟨b.1, Or.inr ⟨b.2, hb⟩, Or.inl rfl⟩,
      hlink ⟨b.1, Or.inr ⟨b.2, hb⟩, Or.inr rfl⟩⟩⟩

theorem kept_setMem {m' : Mem}
    (hsame : Same (fun x => RowWord (first s) bs x ∨ RowWord (first s) bs' x) s.mem m')
    {cs : List Blk} (hfewer : Fewer (first s) cs bs) (hfewer' : Fewer (first s) cs bs') :
    Kept cs s { s with mem := m' } := by
  refine ⟨rfl, fun x hx => hsame x ?_, fun x hx => hsame x ?_⟩
  · exact fun hor => hor.elim (fun hw => rowWord_not_payload hw (hfewer.payload x hx))
      fun hw => rowWord_not_payload hw (hfewer'.payload x hx)
  · have hnull := first_bounds s.address
    have hstop := hfewer.stop
    have hstop' := hfewer'.stop
    change s.address + 32 ≤ first s at hnull
    rintro (hw | hw)
    · have := rowWord_bounds hw
      omega
    · have := rowWord_bounds hw
      omega

theorem row_lift {m' : Mem} (hrow : Row m p a (xs ++ ys))
    (hrow' : Row m' (lastFree p xs) (stop a xs) bs')
    (hsame : ∀ x, x < stop a xs + 8 → m'.word x = m.word x) : Row m' p a (xs ++ bs') :=
  row_append.mpr ⟨(row_append.mp hrow).1.congr fun x hx => hsame x (by omega), hrow'⟩

/-! ## The lists -/

theorem Mid.relink (h : Mid s bs G) (hsub : ∀ b ∈ G', b ∈ pick true (first s) bs)
    {L' : ℕ × ℕ → List ℕ} (hlisted : Listed s' G' L') (haddr : s'.address = s.address)
    (hframe : ∀ x, ¬ LinkWord s.address (pick true (first s) bs) x →
      s'.mem.word x = s.mem.word x) :
    Mid s' bs G' ∧ Kept bs s s' := by
  have hfirst : first s' = first s := congrArg firstBlock haddr
  have hrow : Row s'.mem false (first s) bs := h.row.congr fun x hx =>
    hframe x (rowWord_not_link h.row hx fun b hb => hb)
  refine ⟨⟨?_, hfirst.symm ▸ hrow, ⟨L', hlisted⟩, hfirst.symm ▸ hsub⟩,
    ⟨haddr, fun x hx => hframe x fun hlink =>
      link_not_payload h.row hlink (fun b hb => hb) hx, fun x hx => hframe x fun hlink => ?_⟩⟩
  · rw [hfirst, haddr]
    exact h.arena
  · have := linkWord_bounds h.row hlink fun b hb => hb
    change _ ∧ x ≤ stop (first s) bs at this
    omega

theorem linkWord_mono {null x : ℕ} (h : LinkWord null G x) (hsub : ∀ b ∈ G, b ∈ G') :
    LinkWord null G' x := by
  obtain ⟨y, hy, hx⟩ := h
  exact ⟨y, hy.imp_right fun ⟨n, hn⟩ => ⟨n, hsub _ hn⟩, hx⟩

theorem Mid.insert (h : Mid s bs G) (hmem : (y, n) ∈ pick true (first s) bs) (hnew : (y, n) ∉ G) :
    ∃ s', blockInsert s y = .ok s' ∧ Mid s' bs ((y, n) :: G) ∧ Kept bs s s' := by
  obtain ⟨L, hL⟩ := h.listed
  have hap : ∀ b ∈ G, Apart (y, n) b := by
    rintro ⟨z, k⟩ hb
    have hn := (h.row.good hmem).1
    have hk := (h.row.good (h.sub _ hb)).1
    rcases pick_apart hmem (h.sub _ hb) with ⟨rfl, rfl, -⟩ | hap | hap
    · exact absurd hb hnew
    · exact Or.inl (show y + 32 ≤ z by omega)
    · exact Or.inr (show z + 32 ≤ y by omega)
  obtain ⟨s', L', hinsert, haddr, hlisted, hframe⟩ :=
    insertFreeBlock_spec hL (h.listable hmem) hap
  have hsub : ∀ b ∈ (y, n) :: G, b ∈ pick true (first s) bs := by
    intro b hb
    rcases List.mem_cons.mp hb with rfl | hb
    · exact hmem
    · exact h.sub b hb
  obtain ⟨hmid, hkept⟩ := h.relink hsub hlisted haddr fun x hx =>
    hframe x fun hlink => hx (linkWord_mono hlink hsub)
  refine ⟨s', ?_, hmid, hkept⟩
  rw [← hinsert, ← h.blockSize hmem]
  rfl

theorem Mid.remove (h : Mid s bs ((y, n) :: G)) :
    ∃ s', blockRemove s y = .ok s' ∧ Mid s' bs G ∧ Kept bs s s' := by
  obtain ⟨L, hL⟩ := h.listed
  obtain ⟨s', L', hremove, haddr, hlisted, hframe⟩ := removeFreeBlock_spec hL
  have hsub : ∀ b ∈ G, b ∈ pick true (first s) bs := fun b hb =>
    h.sub b (List.mem_cons_of_mem _ hb)
  obtain ⟨hmid, hkept⟩ := h.relink hsub hlisted haddr fun x hx =>
    hframe x fun hlink => hx (linkWord_mono hlink hsub)
  refine ⟨s', ?_, hmid, hkept⟩
  rw [← hremove, ← h.blockSize (h.sub _ List.mem_cons_self)]
  rfl

end

end Vmir.TlsfPool
