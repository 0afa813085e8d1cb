import Vmir.ByteStore

set_option autoImplicit false

/-!
# Programs over a register file

The body of one operation of a register machine, as the sequence of its accesses to a register
file of bytes. Everything else it touches is a state `σ`. `exec` performs the accesses in order;
`execSnapshot` reads every register as it was at the start. The two agree on a program that reads
before it writes.
-/
namespace Vmir.RegisterProgram
open ByteStore

inductive Prog (σ : Type) : Type
  | done
  | undef
  | rd32 (r : ℤ) (k : BitVec 32 → Prog σ)
  | rd64 (r : ℤ) (k : BitVec 64 → Prog σ)
  | wr32 (r : ℤ) (v : BitVec 32) (k : Prog σ)
  | wr64 (r : ℤ) (v : BitVec 64) (k : Prog σ)
  | get (k : σ → Prog σ)
  | put (s : σ) (k : Prog σ)

variable {σ : Type}

/-- The accesses in order; `none` when the program has no defined behaviour. -/
def exec : Prog σ → Bytes → σ → Option (Bytes × σ)
  | .done, f, s => some (f, s)
  | .undef, _, _ => none
  | .rd32 r k, f, s => exec (k (read32 f r)) f s
  | .rd64 r k, f, s => exec (k (read64 f r)) f s
  | .wr32 r v k, f, s => exec k (write32 f r v) s
  | .wr64 r v k, f, s => exec k (write64 f r v) s
  | .get k, f, s => exec (k s) f s
  | .put s k, f, _ => exec k f s

/-- The same with every register read from `f₀`. -/
def execSnapshot (f₀ : Bytes) : Prog σ → Bytes → σ → Option (Bytes × σ)
  | .done, f, s => some (f, s)
  | .undef, _, _ => none
  | .rd32 r k, f, s => execSnapshot f₀ (k (read32 f₀ r)) f s
  | .rd64 r k, f, s => execSnapshot f₀ (k (read64 f₀ r)) f s
  | .wr32 r v k, f, s => execSnapshot f₀ k (write32 f r v) s
  | .wr64 r v k, f, s => execSnapshot f₀ k (write64 f r v) s
  | .get k, f, s => execSnapshot f₀ (k s) f s
  | .put s k, f, _ => execSnapshot f₀ k f s

def NoRead : Prog σ → Prop
  | .done => True
  | .undef => True
  | .rd32 _ _ => False
  | .rd64 _ _ => False
  | .wr32 _ _ k => NoRead k
  | .wr64 _ _ k => NoRead k
  | .get k => ∀ s, NoRead (k s)
  | .put _ k => NoRead k

/-- The program reads no register after it has written one. -/
def ReadsFirst : Prog σ → Prop
  | .done => True
  | .undef => True
  | .rd32 _ k => ∀ v, ReadsFirst (k v)
  | .rd64 _ k => ∀ v, ReadsFirst (k v)
  | .wr32 _ _ k => NoRead k
  | .wr64 _ _ k => NoRead k
  | .get k => ∀ s, ReadsFirst (k s)
  | .put _ k => ReadsFirst k

theorem exec_of_noRead {p : Prog σ} (h : NoRead p) (f₀ f : Bytes) (s : σ) :
    exec p f s = execSnapshot f₀ p f s := by
  induction p generalizing f s with
  | done => rfl
  | undef => rfl
  | rd32 _ _ _ => exact h.elim
  | rd64 _ _ _ => exact h.elim
  | wr32 r v k ih => exact ih h _ _
  | wr64 r v k ih => exact ih h _ _
  | get k ih => exact ih s (h s) _ _
  | put s' k ih => exact ih h _ _

theorem exec_of_readsFirst {p : Prog σ} (h : ReadsFirst p) (f : Bytes) (s : σ) :
    exec p f s = execSnapshot f p f s := by
  induction p generalizing s with
  | done => rfl
  | undef => rfl
  | rd32 r k ih => exact ih _ (h _) _
  | rd64 r k ih => exact ih _ (h _) _
  | wr32 r v k => exact exec_of_noRead h _ _ _
  | wr64 r v k => exact exec_of_noRead h _ _ _
  | get k ih => exact ih s (h s) _
  | put s' k ih => exact ih h _

end Vmir.RegisterProgram
