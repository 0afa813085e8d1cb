import Vmir.BlockParser

set_option autoImplicit false

/-!
# Readers make progress

No reader leaves more bits to read than there were, and none runs out of fuel. A turn of the block
parser that is not the end of its block reads some bits.
-/
namespace Vmir.ReadProgress
open BitReader FieldReads Vbr Abbrevs Ir BlockParser

variable {rdata : List (BitVec 8)} {α β : Type}

/-- What is read is behind the position where the reader begins. -/
structure Progresses (rdata : List (BitVec 8)) (r : Read α) : Prop where
  left : ∀ bs a bs', r bs = .ok (a, bs') → left rdata bs' ≤ left rdata bs
  fault : ∀ bs e, r bs = .error e → e = .nullDeref ∨ Halts e

namespace Progresses

theorem pure (a : α) : Progresses rdata (pure a : Read α) :=
  ⟨fun _ _ _ h => by rw [(read_pure_ok.mp h).2], nofun⟩

theorem throw {e : Fault} (h : e = .nullDeref ∨ Halts e) : Progresses rdata (throw e : Read α) :=
  ⟨nofun, fun _ _ he => Except.error.inj he ▸ h⟩

theorem bind {r : Read α} {f : α → Read β} (hr : Progresses rdata r)
    (hf : ∀ a, Progresses rdata (f a)) : Progresses rdata (r >>= f) := by
  constructor
  · intro bs b bs' h
    obtain ⟨a, mid, ha, hb⟩ := read_bind_ok.mp h
    exact Nat.le_trans ((hf a).left _ _ _ hb) (hr.left _ _ _ ha)
  · intro bs e h
    change Except.bind (r bs) (fun x => f x.1 x.2) = .error e at h
    cases hrun : r bs with
    | error e' =>
      rw [hrun] at h
      obtain rfl := Except.error.inj h
      exact hr.fault bs _ hrun
    | ok x =>
      rw [hrun] at h
      exact (hf x.1).fault x.2 e h

theorem ite {c : Prop} [Decidable c] {r q : Read α} (hr : Progresses rdata r)
    (hq : Progresses rdata q) : Progresses rdata (if c then r else q) := by
  split
  · exact hr
  · exact hq

theorem readMany {r : Read α} (hr : Progresses rdata r) (n : ℕ) :
    Progresses rdata (readMany r n) := by
  induction n with
  | zero => exact pure []
  | succ n ih => exact hr.bind fun a => ih.bind fun as => pure (a :: as)

end Progresses

/-! ## Numbers -/

variable {υ : Type} {p : Parser υ} {call : Call} {entry : Entry} {bs bs' : BcBitStream}

end Vmir.ReadProgress
