import Mathlib.Data.List.Chain
import Vmir.Alignment

set_option autoImplicit false

/-!
# Layouts of records

Fields one after the other, each at the next multiple of its alignment, or packed. A field is its
size and its alignment.
-/
namespace Vmir.RecordLayout
open Vmir.Alignment

/-- The place from `p` on that an alignment of `a` leaves. -/
def place (packed : Bool) (p a : ℕ) : ℕ := if packed then p else roundUp p a

def offsets (packed : Bool) : ℕ → List (ℕ × ℕ) → List ℕ
  | _, [] => []
  | p, f :: fs => place packed p f.2 :: offsets packed (place packed p f.2 + f.1) fs

def finish (packed : Bool) : ℕ → List (ℕ × ℕ) → ℕ
  | p, [] => p
  | p, f :: fs => finish packed (place packed p f.2 + f.1) fs

def alignFrom (packed : Bool) : ℕ → List (ℕ × ℕ) → ℕ
  | b, [] => b
  | b, f :: fs => alignFrom packed (if packed then b else max b f.2) fs

def recordLayout (packed : Bool) (fs : List (ℕ × ℕ)) : ℕ × ℕ :=
  (place packed (finish packed 0 fs) (alignFrom packed 1 fs), alignFrom packed 1 fs)

variable {packed : Bool} {p b : ℕ} {f : ℕ × ℕ} {fs : List (ℕ × ℕ)}

theorem le_place {a : ℕ} (h : packed = false → 0 < a) : p ≤ place packed p a := by
  unfold place
  cases packed with
  | true => exact le_refl p
  | false => exact le_roundUp p (h rfl)

theorem offsets_length (packed : Bool) (p : ℕ) (fs : List (ℕ × ℕ)) :
    (offsets packed p fs).length = fs.length := by
  induction fs generalizing p with
  | nil => rfl
  | cons f fs ih => exact congrArg (· + 1) (ih _)

section
variable (hpos : packed = false → ∀ f ∈ fs, 0 < f.2)
include hpos

theorem le_finish : p ≤ finish packed p fs := by
  induction fs generalizing p with
  | nil => exact le_refl p
  | cons f fs ih =>
    have hle := le_place (p := p) fun hp => hpos hp f List.mem_cons_self
    have hrest := @ih (place packed p f.2 + f.1)
      fun hp g hg => hpos hp g (List.mem_cons_of_mem _ hg)
    exact (hle.trans (Nat.le_add_right ..)).trans hrest

/-- The fields from `p` on lie between `p` and the end. -/
theorem offsets_bounds : ∀ fo ∈ fs.zip (offsets packed p fs),
    p ≤ fo.2 ∧ fo.2 + fo.1.1 ≤ finish packed p fs := by
  induction fs generalizing p with
  | nil => exact fun _ hfo => absurd hfo List.not_mem_nil
  | cons f fs ih =>
    have hrest : packed = false → ∀ g ∈ fs, 0 < g.2 :=
      fun hp g hg => hpos hp g (List.mem_cons_of_mem _ hg)
    have hle := le_place (p := p) fun hp => hpos hp f List.mem_cons_self
    intro fo hfo
    rcases List.mem_cons.mp hfo with rfl | hfo
    · exact ⟨hle, le_finish hrest⟩
    · obtain ⟨hlo, hhi⟩ := ih hrest fo hfo
      exact ⟨(hle.trans (Nat.le_add_right ..)).trans hlo, hhi⟩

theorem offsets_pairwise :
    (fs.zip (offsets packed p fs)).Pairwise fun x y => x.2 + x.1.1 ≤ y.2 := by
  induction fs generalizing p with
  | nil => exact List.Pairwise.nil
  | cons f fs ih =>
    have hrest : packed = false → ∀ g ∈ fs, 0 < g.2 :=
      fun hp g hg => hpos hp g (List.mem_cons_of_mem _ hg)
    exact List.pairwise_cons.mpr ⟨fun y hy => (offsets_bounds hrest y hy).1, ih hrest⟩

end

theorem offsets_aligned (h : packed = false) :
    ∀ fo ∈ fs.zip (offsets packed p fs), fo.1.2 ∣ fo.2 := by
  subst h
  induction fs generalizing p with
  | nil => exact fun _ hfo => absurd hfo List.not_mem_nil
  | cons f fs ih =>
    intro fo hfo
    rcases List.mem_cons.mp hfo with rfl | hfo
    · exact dvd_roundUp ..
    · exact ih fo hfo

theorem offsets_packed (h : packed = true) :
    (fs.zip (offsets packed p fs)).IsChain (fun x y => y.2 = x.2 + x.1.1)
      ∧ ∀ fo ∈ (fs.zip (offsets packed p fs)).head?, fo.2 = p := by
  subst h
  induction fs generalizing p with
  | nil => exact ⟨List.IsChain.nil, nofun⟩
  | cons f fs ih =>
    obtain ⟨hchain, hhead⟩ := @ih (p + f.1)
    refine ⟨List.isChain_cons.mpr ⟨hhead, hchain⟩, ?_⟩
    intro fo hfo
    obtain rfl := Option.some.inj hfo
    rfl

theorem le_alignFrom : b ≤ alignFrom packed b fs := by
  induction fs generalizing b with
  | nil => exact le_refl b
  | cons f fs ih =>
    refine le_trans ?_ (ih (b := if packed then b else max b f.2))
    split
    · exact le_refl b
    · exact le_max_left ..

theorem alignFrom_induction {P : ℕ → Prop} (hb : P b) (hfs : packed = false → ∀ f ∈ fs, P f.2) :
    P (alignFrom packed b fs) := by
  induction fs generalizing b with
  | nil => exact hb
  | cons f fs ih =>
    refine ih ?_ fun hp g hg => hfs hp g (List.mem_cons_of_mem _ hg)
    cases packed with
    | true => exact hb
    | false =>
      rcases Nat.le_total b f.2 with hle | hle
      · exact (Nat.max_eq_right hle).symm ▸ hfs rfl f List.mem_cons_self
      · exact (Nat.max_eq_left hle).symm ▸ hb

theorem alignFrom_pos : 0 < (recordLayout packed fs).2 :=
  Nat.lt_of_lt_of_le Nat.one_pos le_alignFrom

theorem finish_le_size : finish packed 0 fs ≤ (recordLayout packed fs).1 :=
  le_place fun _ => alignFrom_pos

theorem alignment_dvd_size : (recordLayout packed fs).2 ∣ (recordLayout packed fs).1 := by
  unfold recordLayout place
  cases packed with
  | true =>
    have hone : alignFrom true 1 fs ∣ 1 :=
      alignFrom_induction (P := fun a => a ∣ 1) (Nat.dvd_refl 1) fun h => absurd h (by decide)
    exact hone.trans (Nat.one_dvd _)
  | false => exact dvd_roundUp ..

end Vmir.RecordLayout
