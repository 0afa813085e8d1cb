import Vmir.TlsfInterface

set_option autoImplicit false

/-!
# `tlsf_create`

A new pool has one free block and the sentinel behind it.
-/
namespace Vmir.TlsfCreate
open Tlsf TlsfMapping TlsfHeaders TlsfLists TlsfRows TlsfRowOps TlsfPool TlsfInterface

/-- The size of the block that a pool of that many bytes begins with. -/
def poolBytes (bytes : ℕ) : ℕ := (bytes - tlsfOverhead) / 8 * 8

theorem alignDown_eq (x : ℕ) : alignDown x 8 = .ok (x / 8 * 8) := by
  unfold alignDown
  rw [tlsfAssert_ok (by decide), ok_bind]
  change Except.ok (x - (x &&& 2 ^ 3 - 1)) = _
  rw [Nat.and_two_pow_sub_one_eq_mod]
  congr 1
  omega

/-- The difference of two `size_t` is large if it is negative. -/
theorem poolBytes_eq {bytes : ℕ} (hb : bytes < 2 ^ 64) :
    alignDown ((bytes + (2 ^ 64 - tlsfOverhead)) % 2 ^ 64) 8
      = .ok (if tlsfOverhead ≤ bytes then poolBytes bytes
        else (bytes + (2 ^ 64 - tlsfOverhead)) / 8 * 8) := by
  rw [alignDown_eq]
  unfold poolBytes tlsfOverhead sizeofPool blockHeaderOverhead
  split
  · rw [show (bytes + (2 ^ 64 - (6536 + 2 * 8))) % 2 ^ 64 = bytes - (6536 + 2 * 8) by omega]
  · rw [Nat.mod_eq_of_lt (by omega)]

theorem construct_listed {address : ℕ} (h0 : address ≠ 0) (m m' : Mem) :
    Listed { poolConstruct address m with mem := m' } [] fun _ => [] where
  null := h0
  listable b hb := absurd hb List.not_mem_nil
  apart := List.Pairwise.nil
  linked c _ := ⟨blockOf_null address, trivial, List.nodup_nil⟩
  mem_iff c y := iff_of_false List.not_mem_nil fun ⟨n, hn, _⟩ => absurd hn List.not_mem_nil
  slBit c _ := iff_of_false (by simp [poolConstruct]) (fun h => h rfl)
  flBit fl := iff_of_false (by simp [poolConstruct]) fun h => h.2 rfl

theorem same_thrice (m : Mem) (a u v w : ℕ) :
    Same (fun x => x = a) m (((m.write a u).write a v).write a w) := by
  intro x hx
  rw [word_write_ne hx, word_write_ne hx, word_write_ne hx]

theorem firstHeader (m : Mem) (b : ℕ) {n : ℕ} (h4 : n % 4 = 0) (hn : n < 2 ^ 64) :
    ∃ m', blockSetPrevUsed (blockSetFree (blockSetSize m b n) b) b = m'
      ∧ m'.word (b + 8) = tag n true false ∧ Same (fun x => x = b + 8) m m' := by
  obtain ⟨f, p, hsize⟩ := exists_setSize m b h4
  rw [hsize, (headed_write m b h4 hn f p).setFree, (headed_write _ b h4 hn true p).setPrevUsed]
  exact ⟨_, rfl, word_write_same .., same_thrice _ _ _ _ _⟩

theorem sentinelHeader (m : Mem) (b : ℕ) :
    ∃ m', blockSetPrevFree (blockSetUsed (blockSetSize m b 0) b) b = m'
      ∧ m'.word (b + 8) = tag 0 false true ∧ Same (fun x => x = b + 8) m m' := by
  obtain ⟨f, p, hsize⟩ := exists_setSize m b (k := 0) rfl
  rw [hsize, (headed_write m b rfl (by decide) f p).setUsed,
    (headed_write _ b rfl (by decide) false p).setPrevFree]
  exact ⟨_, rfl, word_write_same .., same_thrice _ _ _ _ _⟩

section
variable {address bytes : ℕ}

theorem tlsfCreate_spec (h0 : address ≠ 0) (h8 : address % 8 = 0)
    (hend : address + bytes ≤ 2 ^ 64) (hmin : tlsfOverhead + blockSizeMin ≤ bytes)
    (hmax : bytes < tlsfOverhead + 2 ^ 32) (m : Mem) :
    ∃ s, tlsfCreate m address bytes = .ok (some s) ∧ s.address = address
      ∧ Inv s [⟨poolBytes bytes, true⟩]
      ∧ ∀ x, x < address ∨ address + bytes ≤ x → s.mem.word x = m.word x := by
  have hlt : bytes < 2 ^ 64 := by
    clear hmin hmax
    omega
  have hfirst : firstBlock address = address + 6528 := rfl
  have hn : poolBytes bytes % 8 = 0 ∧ 24 ≤ poolBytes bytes ∧ poolBytes bytes < 2 ^ 32
      ∧ firstBlock address + 8 + poolBytes bytes + 16 ≤ address + bytes := by
    unfold poolBytes
    unfold tlsfOverhead sizeofPool blockHeaderOverhead blockSizeMin at *
    omega
  have hbytes := poolBytes_eq hlt
  have hrange : ¬ (poolBytes bytes < blockSizeMin ∨ blockSizeMax < poolBytes bytes) := by
    unfold blockSizeMin blockSizeMax
    omega
  rw [if_pos (le_trans (Nat.le_add_right ..) hmin)] at hbytes
  unfold tlsfCreate
  rw [hbytes, ok_bind, if_neg hrange]
  generalize poolBytes bytes = n at hn
  obtain ⟨hn8, hn24, hn32, hnend⟩ := hn
  dsimp only
  obtain ⟨m₁, hhead, hword, hsame₁⟩ := firstHeader (poolConstruct address m).mem (firstBlock address)
    (n := n) (by omega) (by omega)
  have hlistable : Listable address (firstBlock address, n) :=
    ⟨first_bounds address, show firstBlock address + 32 ≤ 2 ^ 64 by omega,
      show firstBlock address % 8 = 0 by omega, hn32⟩
  obtain ⟨s₁, L, hinsert, haddr, hlisted, hframe⟩ := insertFreeBlock_spec
    (construct_listed h0 m m₁) hlistable fun b hb => absurd hb List.not_mem_nil
  have hsize : blockSize m₁ (firstBlock address) = n := by
    rw [blockSize, hword]
    exact tag_size (by omega) (by omega)
  have hword₁ : s₁.mem.word (firstBlock address + 8) = tag n true false := by
    rw [hframe, hword]
    rintro ⟨y, hy | ⟨k, hk⟩, hx⟩
    · change y = address at hy
      omega
    · obtain ⟨rfl, rfl⟩ := Prod.mk.inj (List.mem_singleton.mp hk)
      omega
  have hinsert' : blockInsert { poolConstruct address m with mem := m₁ } (firstBlock address)
      = .ok s₁ := by
    rw [← hinsert, ← hsize]
    rfl
  have haddr' : s₁.address = address := haddr
  have hheaded : Headed s₁.mem (firstBlock address) n true false := ⟨hword₁, by omega, by omega⟩
  obtain ⟨m₃, hsentinel, hend', hsame₃⟩ := sentinelHeader
    (s₁.mem.write (firstBlock address + 8 + n) (firstBlock address)) (firstBlock address + 8 + n)
  have hkept {x : ℕ} (hx : x ≠ firstBlock address + 8 + n) (hx' : x ≠ firstBlock address + 8 + n + 8) :
      m₃.word x = s₁.mem.word x := (hsame₃ x hx').trans (word_write_ne hx)
  have hrow : Row m₃ false (firstBlock address) [⟨n, true⟩] := by
    refine row_mk.mpr ⟨?_, ⟨hn24, hn8⟩, fun _ => ?_, trivial, hend'⟩
    · rw [hkept (by omega) (by omega), hword₁]
    · rw [hsame₃ _ (by omega), word_write_same]
  have hpick : pick true (firstBlock s₁.address) [⟨n, true⟩] = [(firstBlock address, n)] := by
    rw [haddr']
    rfl
  refine ⟨{ s₁ with mem := m₃ }, ?_, haddr', ⟨⟨?_, ?_, ⟨L, ?_⟩, fun b hb => hb⟩, ?_⟩, fun x hx => ?_⟩
  · rw [hhead, hinsert', ok_bind]
    unfold blockLinkNext
    rw [hheaded.next (by omega), ok_bind, ok_bind]
    dsimp only
    rw [hsentinel]
  · change Arena s₁.address (firstBlock s₁.address + 8 + n)
    rw [haddr']
    exact ⟨h0, h8, by omega, by omega⟩
  · change Row m₃ false (firstBlock s₁.address) _
    rwa [haddr']
  · change Listed { s₁ with mem := m₃ } (pick true (firstBlock s₁.address) _) L
    rw [hpick]
    refine hlisted.congr fun b hb => ?_
    obtain rfl := List.mem_singleton.mp hb
    exact ⟨hkept (by omega) (by omega), hkept (by omega) (by omega)⟩
  · exact ⟨fun h => Bool.false_ne_true h.1, trivial⟩
  · have hlink : ¬ LinkWord address [(firstBlock address, n)] x := by
      rintro ⟨y, rfl | ⟨k, hk⟩, hx'⟩
      · omega
      · obtain ⟨rfl, rfl⟩ := Prod.mk.inj (List.mem_singleton.mp hk)
        omega
    have hconstruct : (poolConstruct address m).mem.word x = m.word x := by
      unfold poolConstruct
      rw [word_write_ne (by omega), word_write_ne (by omega)]
    calc m₃.word x = s₁.mem.word x := hkept (by omega) (by omega)
      _ = m₁.word x := hframe x hlink
      _ = m.word x := (hsame₁ x (by omega)).trans hconstruct

end

end Vmir.TlsfCreate
