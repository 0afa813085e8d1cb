import Vmir.DefUse

set_option autoImplicit false

/-!
# What the links say

A function is sound, apart from some instructions that are being rewritten, if every temporary that
an instruction reads or writes has a link to that instruction, and no instruction names a value that
is dead. Each of the functions that make, bind and destroy instructions keeps this.
-/
namespace Vmir.DefUseBinding
open Ir IrTypes DefUse
open DeadCode (operands)

/-- The instruction reads or writes the value. -/
def Named (i : Instr) (v : ℕ) : Prop := v ∈ (i.rets ++ operands i.cls).map ValueType.value

/-- The links of an instruction name all temporaries that it reads and writes. -/
structure Bound (f : Function) (l : Linked) : Prop where
  inputs : ∀ vt ∈ operands l.instr.cls, isTemporary f vt.value = true →
    ⟨vt.value, l.ref, .input⟩ ∈ f.links
  outputs : ∀ vt ∈ l.instr.rets, isTemporary f vt.value = true →
    ⟨vt.value, l.ref, .output⟩ ∈ f.links

/-- The value is in the value table, and not dead. -/
def Alive (f : Function) (v : ℕ) : Prop :=
  v < f.iu.values.length ∧ classOf f v ≠ some .dead

def IsPhi (i : Instr) : Prop := ∃ nodes, i.cls = .phi nodes

/-- The function is in order, apart from the bindings of the instructions `s`. -/
structure Sound (s : Set ℕ) (f : Function) : Prop where
  bound : ∀ l ∈ instrs f, l.ref ∉ s → Bound f l
  alive : ∀ l ∈ instrs f, ∀ v, Named l.instr v → Alive f v
  refs : ∀ l ∈ instrs f, ∀ l' ∈ instrs f, l.ref = l'.ref →
    l = l' ∨ (IsPhi l.instr ∧ IsPhi l'.instr)
  oldInstrs : ∀ l ∈ instrs f, l.ref < f.nextRef
  oldLinks : ∀ k ∈ f.links, k.instr < f.nextRef

section
variable {f : Function}

theorem isTemporary_iff {v : ℕ} : isTemporary f v = true ↔ classOf f v = some .temporary :=
  decide_eq_true_iff

theorem mem_instrs {l : Linked} : l ∈ instrs f ↔ ∃ b ∈ f.bbs, l ∈ b.instrs := List.mem_flatMap

theorem instrAt_ok {r : ℕ} {l : Linked} (h : instrAt f r = .ok l) : l ∈ instrs f ∧ l.ref = r := by
  unfold instrAt at h
  cases hfind : (instrs f).find? (fun l => l.ref = r) with
  | none =>
    rw [hfind] at h
    cases h
  | some l' =>
    rw [hfind] at h
    cases h
    have href := List.find?_some hfind
    exact ⟨List.mem_of_find?_eq_some hfind, of_decide_eq_true href⟩

theorem Bound.mono {g : Function} {l : Linked} (h : Bound f l)
    (hlinks : ∀ k ∈ f.links, k.instr = l.ref → k ∈ g.links)
    (htemp : ∀ v, Named l.instr v → isTemporary g v = true → isTemporary f v = true) :
    Bound g l := by
  constructor
  · intro vt hvt ht
    have hnamed : Named l.instr vt.value :=
      List.mem_map_of_mem (List.mem_append_right _ hvt)
    exact hlinks _ (h.inputs vt hvt (htemp _ hnamed ht)) rfl
  · intro vt hvt ht
    have hnamed : Named l.instr vt.value :=
      List.mem_map_of_mem (List.mem_append_left _ hvt)
    exact hlinks _ (h.outputs vt hvt (htemp _ hnamed ht)) rfl

theorem Sound.mono {s t : Set ℕ} (h : Sound s f) (hst : s ⊆ t) : Sound t f :=
  ⟨fun l hl href => h.bound l hl fun hs => href (hst hs), h.alive, h.refs, h.oldInstrs, h.oldLinks⟩

theorem Sound.close {s t : Set ℕ} (h : Sound s f)
    (hbound : ∀ l ∈ instrs f, l.ref ∈ s → l.ref ∉ t → Bound f l) : Sound t f := by
  refine ⟨fun l hl href => ?_, h.alive, h.refs, h.oldInstrs, h.oldLinks⟩
  by_cases hs : l.ref ∈ s
  · exact hbound l hl hs href
  · exact h.bound l hl hs

/-! ## Bindings -/

theorem bindValue_eq (r : ℕ) (f : Function) (b : Relation × ValueType) :
    (bindValue r f b).bbs = f.bbs ∧ (bindValue r f b).iu = f.iu
      ∧ (bindValue r f b).nextRef = f.nextRef ∧ (bindValue r f b).elements = f.elements := by
  obtain ⟨rel, vt⟩ := b
  cases rel with
  | output => exact ⟨rfl, rfl, rfl, rfl⟩
  | input =>
    unfold bindValue instrBindInput
    dsimp only
    split
    · exact ⟨rfl, rfl, rfl, rfl⟩
    · exact ⟨rfl, rfl, rfl, rfl⟩

theorem foldl_bindValue_eq (r : ℕ) (f : Function) (bs : List (Relation × ValueType)) :
    (bs.foldl (bindValue r) f).bbs = f.bbs ∧ (bs.foldl (bindValue r) f).iu = f.iu
      ∧ (bs.foldl (bindValue r) f).nextRef = f.nextRef
      ∧ (bs.foldl (bindValue r) f).elements = f.elements := by
  induction bs generalizing f with
  | nil => exact ⟨rfl, rfl, rfl, rfl⟩
  | cons b bs ih =>
    obtain ⟨hbbs, hiu, hnext, helems⟩ := ih (bindValue r f b)
    obtain ⟨hbbs', hiu', hnext', helems'⟩ := bindValue_eq r f b
    exact ⟨hbbs.trans hbbs', hiu.trans hiu', hnext.trans hnext', helems.trans helems'⟩

theorem mem_links_bindValue {r : ℕ} {b : Relation × ValueType} {k : Link} :
    k ∈ (bindValue r f b).links ↔ k ∈ f.links
      ∨ (k = ⟨b.2.value, r, b.1⟩ ∧ (b.1 = .input → isTemporary f b.2.value = true)) := by
  obtain ⟨rel, vt⟩ := b
  cases rel with
  | output =>
    change k ∈ _ :: f.links ↔ _
    rw [List.mem_cons]
    constructor
    · rintro (rfl | hk)
      · exact Or.inr ⟨rfl, fun h => by cases h⟩
      · exact Or.inl hk
    · rintro (hk | ⟨rfl, -⟩)
      · exact Or.inr hk
      · exact Or.inl rfl
  | input =>
    change k ∈ (instrBindInput f vt r).links ↔ _
    unfold instrBindInput
    split
    · rename_i ht
      change k ∈ _ :: f.links ↔ _
      rw [List.mem_cons]
      constructor
      · rintro (rfl | hk)
        · exact Or.inr ⟨rfl, fun _ => ht⟩
        · exact Or.inl hk
      · rintro (hk | ⟨rfl, -⟩)
        · exact Or.inr hk
        · exact Or.inl rfl
    · rename_i ht
      constructor
      · exact Or.inl
      · rintro (hk | ⟨-, h⟩)
        · exact hk
        · exact absurd (h rfl) ht

theorem isTemporary_of_iu {g : Function} (h : g.iu = f.iu) (v : ℕ) :
    isTemporary g v = isTemporary f v := by
  unfold isTemporary classOf
  rw [h]

theorem mem_links_foldl {r : ℕ} {bs : List (Relation × ValueType)} {k : Link} :
    k ∈ (bs.foldl (bindValue r) f).links ↔ k ∈ f.links
      ∨ ∃ b ∈ bs, k = ⟨b.2.value, r, b.1⟩
        ∧ (b.1 = .input → isTemporary f b.2.value = true) := by
  induction bs generalizing f with
  | nil => simp
  | cons b bs ih =>
    have hiu := (bindValue_eq r f b).2.1
    rw [List.foldl_cons, ih, mem_links_bindValue, List.exists_mem_cons_iff, or_assoc]
    simp only [isTemporary_of_iu hiu]

theorem Sound.bind {s : Set ℕ} {r : ℕ} (h : Sound s f) (hr : r < f.nextRef)
    (bs : List (Relation × ValueType)) : Sound s (bs.foldl (bindValue r) f) := by
  obtain ⟨hbbs, hiu, hnext, -⟩ := foldl_bindValue_eq r f bs
  have hinstrs : instrs (bs.foldl (bindValue r) f) = instrs f := by
    unfold instrs
    rw [hbbs]
  constructor
  · intro l hl href
    rw [hinstrs] at hl
    refine (h.bound l hl href).mono (fun k hk _ => mem_links_foldl.mpr (Or.inl hk)) ?_
    intro v _ ht
    rw [isTemporary_of_iu hiu] at ht
    exact ht
  · intro l hl v hv
    rw [hinstrs] at hl
    unfold Alive classOf
    rw [hiu]
    exact h.alive l hl v hv
  · rw [hinstrs]
    exact h.refs
  · rw [hinstrs, hnext]
    exact h.oldInstrs
  · intro k hk
    rw [hnext]
    rcases mem_links_foldl.mp hk with hk | ⟨b, -, rfl, -⟩
    · exact h.oldLinks k hk
    · exact hr

theorem bound_of_binds {g : Function} {l : Linked} {bs : List (Relation × ValueType)}
    (hg : g = bs.foldl (bindValue l.ref) f) (hrets : ∀ vt ∈ l.instr.rets, (.output, vt) ∈ bs)
    (hoperands : ∀ vt ∈ operands l.instr.cls, (.input, vt) ∈ bs) : Bound g l := by
  have hiu := (foldl_bindValue_eq l.ref f bs).2.1
  rw [hg]
  constructor
  · intro vt hvt ht
    rw [isTemporary_of_iu hiu] at ht
    exact mem_links_foldl.mpr (Or.inr ⟨_, hoperands vt hvt, rfl, fun _ => ht⟩)
  · intro vt hvt _
    exact mem_links_foldl.mpr (Or.inr ⟨_, hrets vt hvt, rfl, fun h => by cases h⟩)

/-! ## New instructions -/

theorem mem_instrs_add {place : Place} {anchor : ℕ} {i : Instr} {l : Linked}
    (h : l ∈ instrs (instrAdd f place anchor i)) : l = ⟨f.nextRef, i⟩ ∨ l ∈ instrs f := by
  obtain ⟨b, hb, hl⟩ := mem_instrs.mp h
  obtain ⟨b₀, hb₀, rfl⟩ := List.mem_map.mp hb
  obtain ⟨l₀, hl₀, hmem⟩ := List.mem_flatMap.mp hl
  have hold : l₀ ∈ instrs f := mem_instrs.mpr ⟨b₀, hb₀, hl₀⟩
  split at hmem
  · cases place with
    | before =>
      rcases List.mem_cons.mp hmem with rfl | hmem
      · exact Or.inl rfl
      · rw [List.mem_singleton.mp hmem]
        exact Or.inr hold
    | after =>
      rcases List.mem_cons.mp hmem with rfl | hmem
      · exact Or.inr hold
      · exact Or.inl (List.mem_singleton.mp hmem)
  · rw [List.mem_singleton.mp hmem]
    exact Or.inr hold

theorem Sound.add {s : Set ℕ} (h : Sound s f) (place : Place) (anchor : ℕ) {i : Instr}
    (halive : ∀ v, Named i v → Alive f v) :
    Sound (insert f.nextRef s) (instrAdd f place anchor i) := by
  constructor
  · intro l hl href
    rcases mem_instrs_add hl with rfl | hl
    · exact absurd (Set.mem_insert _ _) href
    · exact (h.bound l hl fun hs => href (Set.mem_insert_of_mem _ hs)).mono
        (fun k hk _ => hk) fun v _ ht => ht
  · intro l hl v hv
    rcases mem_instrs_add hl with rfl | hl
    · exact halive v hv
    · exact h.alive l hl v hv
  · intro l hl l' hl' href
    rcases mem_instrs_add hl with rfl | hl
    · rcases mem_instrs_add hl' with rfl | hl'
      · exact Or.inl rfl
      · exact absurd href.symm (Nat.ne_of_lt (h.oldInstrs l' hl'))
    · rcases mem_instrs_add hl' with rfl | hl'
      · exact absurd href (Nat.ne_of_lt (h.oldInstrs l hl))
      · exact h.refs l hl l' hl' href
  · intro l hl
    rcases mem_instrs_add hl with rfl | hl
    · exact Nat.lt_succ_self _
    · exact Nat.lt_succ_of_lt (h.oldInstrs l hl)
  · intro k hk
    exact Nat.lt_succ_of_lt (h.oldLinks k hk)

theorem create_eq (place : Place) (anchor : ℕ) (i : Instr) (bs : List (Relation × ValueType)) :
    (create f place anchor i bs).iu = f.iu
      ∧ (create f place anchor i bs).nextRef = f.nextRef + 1
      ∧ (create f place anchor i bs).elements = f.elements := by
  obtain ⟨-, hiu, hnext, helems⟩ :=
    foldl_bindValue_eq f.nextRef (instrAdd f place anchor i) bs
  exact ⟨hiu, hnext, helems⟩

theorem instrs_create (place : Place) (anchor : ℕ) (i : Instr)
    (bs : List (Relation × ValueType)) :
    instrs (create f place anchor i bs) = instrs (instrAdd f place anchor i) := by
  unfold instrs create
  rw [(foldl_bindValue_eq f.nextRef (instrAdd f place anchor i) bs).1]

theorem mem_instrs_create {place : Place} {anchor : ℕ} {i : Instr}
    {bs : List (Relation × ValueType)} {l : Linked}
    (h : l ∈ instrs (create f place anchor i bs)) : l = ⟨f.nextRef, i⟩ ∨ l ∈ instrs f := by
  rw [instrs_create] at h
  exact mem_instrs_add h

theorem mem_links_create {place : Place} {anchor : ℕ} {i : Instr}
    {bs : List (Relation × ValueType)} {k : Link} :
    k ∈ (create f place anchor i bs).links ↔ k ∈ f.links
      ∨ ∃ b ∈ bs, k = ⟨b.2.value, f.nextRef, b.1⟩
        ∧ (b.1 = .input → isTemporary f b.2.value = true) := mem_links_foldl

theorem Sound.create {s : Set ℕ} (h : Sound s f) (place : Place) (anchor : ℕ) {i : Instr}
    {bs : List (Relation × ValueType)} (halive : ∀ v, Named i v → Alive f v)
    (hrets : ∀ vt ∈ i.rets, (.output, vt) ∈ bs)
    (hoperands : ∀ vt ∈ operands i.cls, (.input, vt) ∈ bs) :
    Sound s (create f place anchor i bs) := by
  have hadd := (h.add place anchor halive).bind (r := f.nextRef) (Nat.lt_succ_self _) bs
  apply hadd.close
  intro l hl hins hs
  have href : l.ref = f.nextRef := (Set.mem_insert_iff.mp hins).resolve_right hs
  have hl' : l ∈ instrs (DefUse.create f place anchor i bs) := hl
  rcases mem_instrs_create hl' with rfl | hold
  · exact bound_of_binds rfl hrets hoperands
  · exact absurd href (Nat.ne_of_lt (h.oldInstrs l hold))

/-! ## Other instructions -/

theorem mem_instrs_destroy {r : ℕ} {l : Linked} :
    l ∈ instrs (instrDestroy f r) ↔ l ∈ instrs f ∧ l.ref ≠ r := by
  rw [mem_instrs, mem_instrs]
  constructor
  · rintro ⟨b, hb, hl⟩
    obtain ⟨b₀, hb₀, rfl⟩ := List.mem_map.mp hb
    obtain ⟨hmem, hne⟩ := List.mem_filter.mp hl
    exact ⟨⟨b₀, hb₀, hmem⟩, of_decide_eq_true hne⟩
  · rintro ⟨⟨b, hb, hl⟩, hne⟩
    exact ⟨_, List.mem_map_of_mem hb, List.mem_filter.mpr ⟨hl, decide_eq_true hne⟩⟩

theorem mem_links_destroy {r : ℕ} {k : Link} :
    k ∈ (instrDestroy f r).links ↔ k ∈ f.links ∧ k.instr ≠ r := by
  change k ∈ f.links.filter _ ↔ _
  rw [List.mem_filter, decide_eq_true_eq]

theorem Sound.destroy {s : Set ℕ} (h : Sound s f) (r : ℕ) : Sound (s \ {r}) (instrDestroy f r) := by
  constructor
  · intro l hl href
    obtain ⟨hl, hne⟩ := mem_instrs_destroy.mp hl
    refine (h.bound l hl fun hs => href ⟨hs, hne⟩).mono ?_ fun v _ ht => ht
    intro k hk hkr
    exact mem_links_destroy.mpr ⟨hk, hkr ▸ hne⟩
  · intro l hl v hv
    exact h.alive l (mem_instrs_destroy.mp hl).1 v hv
  · intro l hl l' hl' href
    exact h.refs l (mem_instrs_destroy.mp hl).1 l' (mem_instrs_destroy.mp hl').1 href
  · intro l hl
    exact h.oldInstrs l (mem_instrs_destroy.mp hl).1
  · intro k hk
    exact h.oldLinks k (mem_links_destroy.mp hk).1

theorem mem_instrs_set {r : ℕ} {i : Instr} {l : Linked} (h : l ∈ instrs (setInstr f r i)) :
    (l = ⟨r, i⟩ ∧ ∃ l₀ ∈ instrs f, l₀.ref = r) ∨ (l ∈ instrs f ∧ l.ref ≠ r) := by
  obtain ⟨b, hb, hl⟩ := mem_instrs.mp h
  obtain ⟨b₀, hb₀, rfl⟩ := List.mem_map.mp hb
  obtain ⟨l₀, hl₀, rfl⟩ := List.mem_map.mp hl
  have hold : l₀ ∈ instrs f := mem_instrs.mpr ⟨b₀, hb₀, hl₀⟩
  by_cases href : l₀.ref = r
  · rw [if_pos href]
    exact Or.inl ⟨by rw [← href], l₀, hold, href⟩
  · rw [if_neg href]
    exact Or.inr ⟨hold, href⟩

theorem Sound.set {s : Set ℕ} (h : Sound s f) (r : ℕ) {i : Instr}
    (halive : ∀ v, Named i v → Alive f v) : Sound (insert r s) (setInstr f r i) := by
  constructor
  · intro l hl href
    rcases mem_instrs_set hl with ⟨rfl, -⟩ | ⟨hl, -⟩
    · exact absurd (Set.mem_insert _ _) href
    · exact (h.bound l hl fun hs => href (Set.mem_insert_of_mem _ hs)).mono
        (fun k hk _ => hk) fun v _ ht => ht
  · intro l hl v hv
    rcases mem_instrs_set hl with ⟨rfl, -⟩ | ⟨hl, -⟩
    · exact halive v hv
    · exact h.alive l hl v hv
  · intro l hl l' hl' href
    rcases mem_instrs_set hl with ⟨rfl, -⟩ | ⟨hl, hne⟩
    · rcases mem_instrs_set hl' with ⟨rfl, -⟩ | ⟨-, hne'⟩
      · exact Or.inl rfl
      · exact absurd href.symm hne'
    · rcases mem_instrs_set hl' with ⟨rfl, -⟩ | ⟨hl', -⟩
      · exact absurd href hne
      · exact h.refs l hl l' hl' href
  · intro l hl
    rcases mem_instrs_set hl with ⟨rfl, l₀, hl₀, href⟩ | ⟨hl, -⟩
    · rw [← href]
      exact h.oldInstrs l₀ hl₀
    · exact h.oldInstrs l hl
  · exact h.oldLinks

theorem Sound.rebind {s : Set ℕ} {r : ℕ} {i : Instr} {bs : List (Relation × ValueType)}
    (h : Sound (insert r s) f) (hr : r < f.nextRef)
    (hinstr : ∀ l ∈ instrs f, l.ref = r → l.instr = i)
    (hrets : ∀ vt ∈ i.rets, (.output, vt) ∈ bs)
    (hoperands : ∀ vt ∈ operands i.cls, (.input, vt) ∈ bs) :
    Sound s (bs.foldl (bindValue r) f) := by
  have hinstrs : instrs (bs.foldl (bindValue r) f) = instrs f := by
    unfold instrs
    rw [(foldl_bindValue_eq r f bs).1]
  apply (h.bind hr bs).close
  intro l hl hins hs
  have href : l.ref = r := (Set.mem_insert_iff.mp hins).resolve_right hs
  rw [hinstrs] at hl
  have hli := hinstr l hl href
  apply bound_of_binds (f := f) (by rw [href])
  · rw [hli]
    exact hrets
  · rw [hli]
    exact hoperands

theorem Sound.unlink {s : Set ℕ} (h : Sound s f) {r : ℕ} {ks : List Link}
    (hsub : ∀ k ∈ ks, k ∈ f.links) (hkeep : ∀ k ∈ f.links, k.instr ≠ r → k ∈ ks) :
    Sound (insert r s) { f with links := ks } := by
  constructor
  · intro l hl href
    have hne : l.ref ≠ r := fun heq => href (heq ▸ Set.mem_insert _ _)
    refine (h.bound l hl fun hs => href (Set.mem_insert_of_mem _ hs)).mono ?_ fun v _ ht => ht
    intro k hk hkr
    exact hkeep k hk (hkr ▸ hne)
  · exact h.alive
  · exact h.refs
  · exact h.oldInstrs
  · exact fun k hk => h.oldLinks k (hsub k hk)

theorem Sound.clear {s : Set ℕ} (h : Sound s f) (r : ℕ) :
    Sound (insert r s) (instrBindClear f r) := by
  apply h.unlink
  · exact fun k hk => (List.mem_filter.mp hk).1
  · exact fun k hk hne => List.mem_filter.mpr ⟨hk, decide_eq_true hne⟩

/-! ## Classes of values -/

theorem classOf_setClass (v w : ℕ) (cls : ValueClass) : classOf (setClass f v cls) w
    = if v = w then (classOf f w).map fun _ => cls else classOf f w := by
  unfold classOf
  change ((f.iu.values.modify v _)[w]?).map Value.cls = _
  rw [List.getElem?_modify]
  by_cases hvw : v = w
  · subst hvw
    rw [if_pos rfl]
    cases f.iu.values[v]? with
    | none => rfl
    | some iv =>
      change some (Value.cls (if v = v then _ else iv)) = some cls
      rw [if_pos rfl]
  · rw [if_neg hvw]
    cases f.iu.values[w]? with
    | none => rfl
    | some iv =>
      change some (Value.cls (if v = w then _ else iv)) = some iv.cls
      rw [if_neg hvw]

theorem classOf_setClass_ne {v w : ℕ} (hvw : v ≠ w) (cls : ValueClass) :
    classOf (setClass f v cls) w = classOf f w := by
  rw [classOf_setClass, if_neg hvw]

theorem isTemporary_setClass {v w : ℕ} (h : isTemporary (setClass f v .dead) w = true) :
    isTemporary f w = true := by
  rw [isTemporary_iff, classOf_setClass] at h
  by_cases hvw : v = w
  · rw [if_pos hvw] at h
    cases hc : classOf f w with
    | none =>
      rw [hc] at h
      cases h
    | some c =>
      rw [hc] at h
      cases h
  · rw [if_neg hvw] at h
    exact isTemporary_iff.mpr h

theorem Sound.kill {s : Set ℕ} (h : Sound s f) {v : ℕ}
    (hv : ∀ l ∈ instrs f, ¬ Named l.instr v) : Sound s (setClass f v .dead) := by
  constructor
  · intro l hl href
    exact (h.bound l hl href).mono (fun k hk _ => hk) fun w _ ht => isTemporary_setClass ht
  · intro l hl w hw
    obtain ⟨hlt, hdead⟩ := h.alive l hl w hw
    have hvw : v ≠ w := by
      rintro rfl
      exact hv l hl hw
    refine ⟨?_, ?_⟩
    · change w < (f.iu.values.modify v _).length
      rw [List.length_modify]
      exact hlt
    · rw [classOf_setClass_ne hvw]
      exact hdead
  · exact h.refs
  · exact h.oldInstrs
  · exact h.oldLinks

theorem classOf_append {iv : Value} {v : ℕ} (hv : v < f.iu.values.length) :
    classOf { f with iu := { f.iu with values := f.iu.values ++ [iv] } } v = classOf f v := by
  unfold classOf
  rw [List.getElem?_append_left hv]

theorem alive_append {iv : Value} {v : ℕ} (h : Alive f v) :
    Alive { f with iu := { f.iu with values := f.iu.values ++ [iv] } } v := by
  refine ⟨?_, ?_⟩
  · change v < (f.iu.values ++ [iv]).length
    rw [List.length_append]
    exact Nat.lt_add_right _ h.1
  · rw [classOf_append h.1]
    exact h.2

theorem Sound.append {s : Set ℕ} (h : Sound s f) (iv : Value) :
    Sound s { f with iu := { f.iu with values := f.iu.values ++ [iv] } } := by
  constructor
  · intro l hl href
    refine (h.bound l hl href).mono (fun k hk _ => hk) fun v hv ht => ?_
    rw [isTemporary_iff, classOf_append (h.alive l hl v hv).1] at ht
    exact isTemporary_iff.mpr ht
  · exact fun l hl v hv => alive_append (h.alive l hl v hv)
  · exact h.refs
  · exact h.oldInstrs
  · exact h.oldLinks

theorem alive_new {iv : Value} (h : iv.cls ≠ .dead) :
    Alive { f with iu := { f.iu with values := f.iu.values ++ [iv] } } f.iu.values.length := by
  refine ⟨?_, ?_⟩
  · change _ < (f.iu.values ++ [iv]).length
    rw [List.length_append]
    exact Nat.lt_succ_self _
  · unfold classOf
    rw [List.getElem?_concat_length]
    exact fun heq => h (Option.some.inj heq)

theorem Sound.linked (h : Sound ∅ f) {v : ℕ} (hv : isTemporary f v = true) {l : Linked}
    (hl : l ∈ instrs f) (hnamed : Named l.instr v) :
    ∃ k ∈ f.links, k.value = v ∧ k.instr = l.ref := by
  have hbound := h.bound l hl (Set.notMem_empty _)
  obtain ⟨vt, hvt, rfl⟩ := List.mem_map.mp hnamed
  rcases List.mem_append.mp hvt with hret | hop
  · exact ⟨_, hbound.outputs vt hret hv, rfl, rfl⟩
  · exact ⟨_, hbound.inputs vt hop hv, rfl, rfl⟩

theorem mem_ivInstructions {v : ℕ} {k : Link} :
    k ∈ ivInstructions f v ↔ k ∈ f.links ∧ k.value = v := by
  unfold ivInstructions
  rw [List.mem_filter, decide_eq_true_eq]

end

end Vmir.DefUseBinding
