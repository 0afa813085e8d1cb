import Mathlib.Data.List.Perm.Basic
import Mathlib.Data.List.Range
import Vmir.FdTable

set_option autoImplicit false

/-!
# Runs on the table of file descriptors

Creations, lookups and closes in any order, with a ledger of the descriptors that are open.
-/
namespace Vmir.FdTableRuns
open SlotChain FdTable

variable {ρ : Type}

/-- A descriptor that was created; `serial` counts the creations. -/
structure Descriptor (ρ : Type) where
  fd : BitVec 32
  serial : ℕ
  handle : BitVec 64
  type : BitVec 32
  release : Option ρ
deriving DecidableEq, Repr

def Descriptor.call (d : Descriptor ρ) : Option (ρ × BitVec 64) :=
  d.release.map fun f => (f, d.handle)

structure Session (ρ : Type) where
  table : VfdTable ρ
  created : ℕ
  opened : List (Descriptor ρ)
  closed : List (Descriptor ρ)
  calls : List (ρ × BitVec 64)

def begin : Session ρ := ⟨start, 0, [], [], []⟩

def Session.after (s : Session ρ) (t : VfdTable ρ) (call : Option (ρ × BitVec 64)) :
    FdOp ρ → FdAnswer → Session ρ
  | .create handle type relfunc, .created fd =>
    ⟨t, s.created + 1, ⟨fd, s.created, handle, type, relfunc⟩ :: s.opened, s.closed,
      s.calls ++ call.toList⟩
  | .close fd, _ =>
    ⟨t, s.created, s.opened.filter fun d => d.fd ≠ fd,
      s.closed ++ s.opened.filter fun d => d.fd = fd, s.calls ++ call.toList⟩
  | _, _ => ⟨t, s.created, s.opened, s.closed, s.calls ++ call.toList⟩

/-- The types of descriptors are numbers from 1 to 255; any number may be looked up or closed. -/
def Allowed : FdOp ρ → Prop
  | .create _ type _ => 0 < type.toNat ∧ type.toNat < 256
  | _ => True

/-- The sessions that operations which are all `ok` lead to. -/
inductive Reach (ok : Session ρ → FdOp ρ → Prop) : Session ρ → Prop
  | begin : Reach ok begin
  | step {s : Session ρ} (hs : Reach ok s) {op : FdOp ρ} (hallowed : Allowed op) (hok : ok s op)
    {a : FdAnswer} {t : VfdTable ρ} {call : Option (ρ × BitVec 64)}
    (hexec : exec s.table op = some (a, t, call)) : Reach ok (s.after t call op a)

/-- A creation gives a number that is not open, a lookup finds the open descriptors of the type and
their handles, and a close calls the release function of the descriptor. -/
def Right (s : Session ρ) (t : VfdTable ρ) (call : Option (ρ × BitVec 64)) :
    FdOp ρ → FdAnswer → Prop
  | .create _ _ _, a => ∃ fd, a = .created fd ∧ (∀ d ∈ s.opened, d.fd ≠ fd) ∧ call = none
  | .get fd type, a => ∃ found fh, a = .handle found fh ∧ t = s.table ∧ call = none
      ∧ (found = true ↔ ∃ d ∈ s.opened, d.fd = fd ∧ (type = -1 ∨ d.type = type))
      ∧ (found = true → ∀ d ∈ s.opened, d.fd = fd → fh = d.handle)
  | .close fd, a => a = .closed ∧ (∀ d ∈ s.opened, d.fd = fd → call = d.call)
      ∧ ((∀ d ∈ s.opened, d.fd ≠ fd) → t = s.table ∧ call = none)

def Answers (s : Session ρ) (op : FdOp ρ) : Prop :=
  ∃ a t call, exec s.table op = some (a, t, call) ∧ Right s t call op a

/-- Where the free list starts, and the slot behind a slot of it. -/
def slotOf (fd : BitVec 32) : Option ℕ := if fd = -1 then none else some fd.toNat

def nextFree (vfds : List (VmirFd ρ)) (i : ℕ) : Option ℕ :=
  vfds[i]?.bind fun vfd => slotOf vfd.freelist

/-- The number is that of an item without a descriptor. -/
def Vacant (s : Session ρ) (i : ℕ) : Prop :=
  i < s.table.vfds.length ∧ ∀ d ∈ s.opened, d.fd.toNat ≠ i

/-- The free list ends and passes each closed descriptor once and nothing else, no two descriptors
have one number, and the calls are those of the closed descriptors, each of which was closed once.
-/
structure Sound (s : Session ρ) : Prop where
  free : ∃ l, Chain (nextFree s.table.vfds) (slotOf s.table.vfdFree) l ∧ l.Nodup
    ∧ ∀ i, i ∈ l ↔ Vacant s i
  distinct : (s.opened.map Descriptor.fd).Nodup
  once : ((s.closed ++ s.opened).map Descriptor.serial).Perm (List.range s.created)
  calls : s.calls = s.closed.filterMap Descriptor.call

/-- Fewer than `2 ^ 31` descriptors are open when one is created. -/
def Fits (s : Session ρ) : FdOp ρ → Prop
  | .create _ _ _ => s.opened.length < 2 ^ 31
  | _ => True

/-! ## Items of the vector -/

section
variable {vfds : List (VmirFd ρ)} {fd : BitVec 32}

theorem vectorItem_of_lt (h : fd.toNat < 2 ^ 31) : vectorItem vfds fd = vfds[fd.toNat]? := by
  unfold vectorItem
  rw [BitVec.toInt_eq_toNat_of_lt (by omega), if_neg (by omega)]

theorem vectorItem_of_ge (h : 2 ^ 31 ≤ fd.toNat) : vectorItem vfds fd = none := by
  have hneg : fd.toInt < 0 := by
    rw [BitVec.toInt_eq_toNat_cond, if_neg (by omega)]
    have := fd.isLt
    omega
  exact if_pos hneg

theorem setVectorItem_of_lt (h : fd.toNat < 2 ^ 31) {vfd : VmirFd ρ}
    (hitem : vfds[fd.toNat]? = some vfd) (f : VmirFd ρ → VmirFd ρ) :
    setVectorItem vfds fd f = some (vfds.set fd.toNat (f vfd)) := by
  unfold setVectorItem
  rw [vectorItem_of_lt h, hitem]
  rfl

theorem setVectorItem_of_ge (h : 2 ^ 31 ≤ fd.toNat) (f : VmirFd ρ → VmirFd ρ) :
    setVectorItem vfds fd f = none := by
  unfold setVectorItem
  rw [vectorItem_of_ge h]
  rfl

theorem freelist_setFreelist (vfd : VmirFd ρ) : (vfd.setFreelist fd).freelist = fd := by
  unfold VmirFd.freelist VmirFd.setFreelist
  exact BitVec.setWidth_append_eq_right

theorem slotOf_of_ne (h : fd ≠ -1) : slotOf fd = some fd.toNat := if_neg h

theorem nextFree_set_ne {i j : ℕ} (vfd : VmirFd ρ) (h : j ≠ i) :
    nextFree (vfds.set i vfd) j = nextFree vfds j := by
  unfold nextFree
  rw [List.getElem?_set_ne h.symm]

end

/-! ## The invariant -/

structure Inv (s : Session ρ) : Prop where
  small : s.table.vfds.length ≤ 2 ^ 31
  sound : Sound s
  item : ∀ d ∈ s.opened,
    s.table.vfds[d.fd.toNat]? = some ⟨d.handle, d.release, d.type.setWidth 8⟩
      ∧ 0 < d.type.toNat ∧ d.type.toNat < 256
  vacant : ∀ i vfd, Vacant s i → s.table.vfds[i]? = some vfd → vfd.type = 0

variable {s : Session ρ}

theorem begin_inv : Inv (begin : Session ρ) where
  small := Nat.zero_le _
  sound := by
    refine ⟨⟨[], rfl, List.nodup_nil, fun i => ?_⟩, List.nodup_nil, .nil, rfl⟩
    exact iff_of_false List.not_mem_nil fun h => absurd h.1 (Nat.not_lt_zero i)
  item := nofun
  vacant := fun i _ h => absurd h.1 (Nat.not_lt_zero i)

theorem Inv.fd_lt (h : Inv s) {d : Descriptor ρ} (hd : d ∈ s.opened) :
    d.fd.toNat < s.table.vfds.length :=
  (List.getElem?_eq_some_iff.mp (h.item d hd).1).1

theorem open_or_vacant {i : ℕ} (hi : i < s.table.vfds.length) :
    (∃ d ∈ s.opened, d.fd.toNat = i) ∨ Vacant s i := by
  by_cases hopen : ∃ d ∈ s.opened, d.fd.toNat = i
  · exact Or.inl hopen
  · exact Or.inr ⟨hi, fun d hd heq => hopen ⟨d, hd, heq⟩⟩

theorem setWidth_type {type : BitVec 32} (h : type.toNat < 256) :
    (type.setWidth 8).setWidth 32 = type := by
  apply BitVec.eq_of_toNat_eq
  rw [BitVec.toNat_setWidth, BitVec.toNat_setWidth]
  omega

theorem setWidth_type_ne_zero {type : BitVec 32} (h1 : 0 < type.toNat) (h2 : type.toNat < 256) :
    type.setWidth 8 ≠ 0 := by
  intro heq
  have hzero : (type.setWidth 8).toNat = 0 := congrArg BitVec.toNat heq
  rw [BitVec.toNat_setWidth] at hzero
  omega

theorem Inv.vfdGet_iff (h : Inv s) {fd type : BitVec 32} {vfd : VmirFd ρ} :
    vfdGet s.table fd type = some vfd ↔ ∃ d ∈ s.opened, d.fd = fd ∧ (type = -1 ∨ d.type = type)
      ∧ vfd = ⟨d.handle, d.release, d.type.setWidth 8⟩ := by
  unfold vfdGet
  constructor
  · intro hget
    cases hitem : s.table.vfds[fd.toNat]? with
    | none =>
      rw [hitem] at hget
      exact absurd hget nofun
    | some v =>
      rw [hitem] at hget
      change (if _ then _ else _) = _ at hget
      split at hget
      · exact absurd hget nofun
      · rename_i hgood
        obtain ⟨htype, hsame⟩ := not_or.mp hgood
        cases hget
        rcases open_or_vacant (List.getElem?_eq_some_iff.mp hitem).1 with ⟨d, hd, hfd⟩ | hvacant
        · obtain ⟨hd', -, hlt⟩ := h.item d hd
          rw [hfd, hitem] at hd'
          have hv := Option.some.inj hd'
          refine ⟨d, hd, BitVec.eq_of_toNat_eq hfd, ?_, hv⟩
          by_cases hany : type = -1
          · exact Or.inl hany
          · right
            have := not_not.mp fun hne => hsame ⟨hany, hne⟩
            rwa [hv, setWidth_type hlt] at this
        · exact absurd (h.vacant _ _ hvacant hitem) htype
  · rintro ⟨d, hd, rfl, htype, rfl⟩
    obtain ⟨hitem, hpos, hlt⟩ := h.item d hd
    rw [hitem]
    refine if_neg (not_or.mpr ⟨setWidth_type_ne_zero hpos hlt, ?_⟩)
    rintro ⟨hany, hne⟩
    rw [setWidth_type hlt] at hne
    exact htype.elim hany hne

theorem Inv.eq_of_fd (h : Inv s) {d e : Descriptor ρ} (hd : d ∈ s.opened) (he : e ∈ s.opened)
    (heq : d.fd = e.fd) : d = e :=
  List.inj_on_of_nodup_map h.sound.distinct hd he heq

/-! ## Creations -/

/-- The item `new` is put at the number `fd`, which was vacant or is behind the others. -/
structure Made (s : Session ρ) (fd : BitVec 32) (new : VmirFd ρ) (t : VfdTable ρ) : Prop where
  fresh : ∀ d ∈ s.opened, d.fd ≠ fd
  item : t.vfds[fd.toNat]? = some new
  other : ∀ j, j ≠ fd.toNat → t.vfds[j]? = s.table.vfds[j]?
  length : ∀ j, j < t.vfds.length ↔ j = fd.toNat ∨ j < s.table.vfds.length
  small : t.vfds.length ≤ 2 ^ 31
  free : ∃ l, Chain (nextFree t.vfds) (slotOf t.vfdFree) l ∧ l.Nodup
    ∧ ∀ i, i ∈ l ↔ Vacant s i ∧ i ≠ fd.toNat

section
variable (handle : BitVec 64) (type : BitVec 32) (relfunc : Option ρ)

theorem Inv.create_reuse (h : Inv s) (hfree : s.table.vfdFree ≠ -1) :
    ∃ t, vmirFdCreate s.table handle type relfunc = some (s.table.vfdFree, t)
      ∧ Made s s.table.vfdFree ⟨handle, relfunc, type.setWidth 8⟩ t := by
  obtain ⟨l, hchain, hnodup, hmem⟩ := h.sound.free
  rw [slotOf_of_ne hfree] at hchain
  obtain ⟨l', rfl, hrest⟩ := hchain.cons
  obtain ⟨hnot, hnodup'⟩ := List.nodup_cons.mp hnodup
  have hvacant := (hmem _).mp List.mem_cons_self
  have hlt : s.table.vfdFree.toNat < s.table.vfds.length := hvacant.1
  have hsmall := h.small
  have hword : s.table.vfdFree.toNat < 2 ^ 31 := by omega
  obtain ⟨vfd, hitem⟩ : ∃ vfd, s.table.vfds[s.table.vfdFree.toNat]? = some vfd :=
    ⟨_, List.getElem?_eq_getElem hlt⟩
  have hitem' : (s.table.vfds.set s.table.vfdFree.toNat { vfd with type := type.setWidth 8 })[
      s.table.vfdFree.toNat]? = some { vfd with type := type.setWidth 8 } :=
    List.getElem?_set_self hlt
  have hcreate : vfdCreate s.table type = some (s.table.vfdFree,
      ⟨s.table.vfds.set s.table.vfdFree.toNat { vfd with type := type.setWidth 8 },
        vfd.freelist⟩) := by
    unfold vfdCreate
    rw [if_pos hfree, vectorItem_of_lt hword, hitem, setVectorItem_of_lt hword hitem]
    rfl
  refine ⟨⟨s.table.vfds.set s.table.vfdFree.toNat ⟨handle, relfunc, type.setWidth 8⟩,
    vfd.freelist⟩, ?_, ?_⟩
  · unfold vmirFdCreate
    rw [hcreate]
    change (setVectorItem (s.table.vfds.set _ _) _ _ >>= _) = _
    rw [setVectorItem_of_lt hword hitem', List.set_set]
    rfl
  · constructor
    · intro d hd heq
      exact hvacant.2 d hd (congrArg BitVec.toNat heq)
    · exact List.getElem?_set_self hlt
    · intro j hj
      exact List.getElem?_set_ne (Ne.symm hj)
    · intro j
      rw [List.length_set]
      omega
    · rw [List.length_set]
      exact hsmall
    · have hlink : nextFree s.table.vfds s.table.vfdFree.toNat = slotOf vfd.freelist := by
        unfold nextFree
        rw [hitem]
        rfl
      rw [hlink] at hrest
      refine ⟨l', hrest.congr fun i hi => nextFree_set_ne _ fun heq => hnot (heq ▸ hi), hnodup',
        fun i => ?_⟩
      constructor
      · intro hi
        exact ⟨(hmem i).mp (List.mem_cons_of_mem _ hi), fun heq => hnot (heq ▸ hi)⟩
      · rintro ⟨hi, hne⟩
        exact (List.mem_cons.mp ((hmem i).mpr hi)).resolve_left hne

theorem Inv.length_opened (h : Inv s) (hfree : s.table.vfdFree = -1) :
    s.opened.length = s.table.vfds.length := by
  obtain ⟨l, hchain, -, hmem⟩ := h.sound.free
  have hnil : l = [] := chain_nil_iff.mp (by rwa [hfree] at hchain)
  have hnodup : (s.opened.map fun d => d.fd.toNat).Nodup := by
    have := h.sound.distinct.map (fun _ _ heq => BitVec.eq_of_toNat_eq heq : Function.Injective
      (BitVec.toNat : BitVec 32 → ℕ))
    rwa [List.map_map] at this
  have hperm : (s.opened.map fun d => d.fd.toNat).Perm (List.range s.table.vfds.length) := by
    refine (List.perm_ext_iff_of_nodup hnodup List.nodup_range).mpr fun i => ?_
    rw [List.mem_range, List.mem_map]
    constructor
    · rintro ⟨d, hd, rfl⟩
      exact h.fd_lt hd
    · intro hi
      rcases open_or_vacant hi with hopen | hvacant
      · exact hopen
      · have hin := (hmem i).mpr hvacant
        rw [hnil] at hin
        exact absurd hin List.not_mem_nil
  have hlength := hperm.length_eq
  rwa [List.length_map, List.length_range] at hlength

theorem Inv.create_append (h : Inv s) (hfree : s.table.vfdFree = -1)
    (hfits : s.opened.length < 2 ^ 31) : ∃ fd t, vmirFdCreate s.table handle type relfunc
        = some (fd, t) ∧ Made s fd ⟨handle, relfunc, type.setWidth 8⟩ t := by
  obtain ⟨l, hchain, hnodup, hmem⟩ := h.sound.free
  have hnil : l = [] := chain_nil_iff.mp (by rwa [hfree] at hchain)
  have hlength := h.length_opened hfree
  have hnat : (BitVec.ofNat 32 s.table.vfds.length).toNat = s.table.vfds.length :=
    Nat.mod_eq_of_lt (by omega)
  have hword : (BitVec.ofNat 32 s.table.vfds.length).toNat < 2 ^ 31 := by omega
  have hlast : ∀ v : VmirFd ρ, (s.table.vfds ++ [v])[
      (BitVec.ofNat 32 s.table.vfds.length).toNat]? = some v := by
    intro v
    rw [hnat]
    exact List.getElem?_concat_length
  have hset : ∀ v w : VmirFd ρ, (s.table.vfds ++ [v]).set
      (BitVec.ofNat 32 s.table.vfds.length).toNat w = s.table.vfds ++ [w] := by
    intro v w
    rw [hnat, List.set_append_right _ _ (Nat.le_refl _), Nat.sub_self]
    rfl
  have hcreate : vfdCreate s.table type = some (BitVec.ofNat 32 s.table.vfds.length,
      ⟨s.table.vfds ++ [⟨0, none, type.setWidth 8⟩], s.table.vfdFree⟩) := by
    unfold vfdCreate
    rw [if_neg (not_not.mpr hfree)]
    change (setVectorItem (s.table.vfds ++ _) _ _ >>= _) = _
    rw [setVectorItem_of_lt hword (hlast _), hset]
    rfl
  refine ⟨BitVec.ofNat 32 s.table.vfds.length,
    ⟨s.table.vfds ++ [⟨handle, relfunc, type.setWidth 8⟩], s.table.vfdFree⟩, ?_, ?_⟩
  · unfold vmirFdCreate
    rw [hcreate]
    change (setVectorItem (s.table.vfds ++ _) _ _ >>= _) = _
    rw [setVectorItem_of_lt hword (hlast _), hset]
    rfl
  · constructor
    · intro d hd heq
      have := h.fd_lt hd
      rw [heq] at this
      omega
    · exact hlast _
    · intro j hj
      rw [hnat] at hj
      by_cases hjlt : j < s.table.vfds.length
      · exact List.getElem?_append_left hjlt
      · rw [List.getElem?_eq_none (by rw [List.length_append, List.length_singleton]; omega),
          List.getElem?_eq_none (by omega)]
    · intro j
      rw [List.length_append, List.length_singleton, hnat]
      omega
    · rw [List.length_append, List.length_singleton]
      omega
    · refine ⟨[], ?_, List.nodup_nil, fun i => ?_⟩
      · change slotOf s.table.vfdFree = none
        rw [hfree]
        rfl
      · refine iff_of_false List.not_mem_nil fun ⟨hi, _⟩ => ?_
        have hin := (hmem i).mpr hi
        rw [hnil] at hin
        exact absurd hin List.not_mem_nil

theorem Inv.create (h : Inv s) (hfits : s.opened.length < 2 ^ 31) :
    ∃ fd t, vmirFdCreate s.table handle type relfunc = some (fd, t)
      ∧ Made s fd ⟨handle, relfunc, type.setWidth 8⟩ t := by
  by_cases hfree : s.table.vfdFree = -1
  · exact h.create_append handle type relfunc hfree hfits
  · exact ⟨_, h.create_reuse handle type relfunc hfree⟩

end

theorem Inv.create_full (h : Inv s) (hfits : 2 ^ 31 ≤ s.opened.length) (handle : BitVec 64)
    (type : BitVec 32) (relfunc : Option ρ) :
    vmirFdCreate s.table handle type relfunc = none := by
  have hsmall := h.small
  have hfree : s.table.vfdFree = -1 := by
    by_contra hne
    obtain ⟨l, hchain, -, hmem⟩ := h.sound.free
    rw [slotOf_of_ne hne] at hchain
    obtain ⟨l', rfl, -⟩ := hchain.cons
    have hvacant := (hmem _).mp List.mem_cons_self
    have hnodup : ((s.table.vfdFree :: s.opened.map Descriptor.fd).map BitVec.toNat).Nodup := by
      refine List.Nodup.map (fun _ _ heq => BitVec.eq_of_toNat_eq heq)
        (List.nodup_cons.mpr ⟨fun hin => ?_, h.sound.distinct⟩)
      obtain ⟨d, hd, heq⟩ := List.mem_map.mp hin
      exact hvacant.2 d hd (congrArg BitVec.toNat heq)
    have hsub : (s.table.vfdFree :: s.opened.map Descriptor.fd).map BitVec.toNat
        ⊆ List.range s.table.vfds.length := by
      intro i hi
      obtain ⟨fd, hfd, rfl⟩ := List.mem_map.mp hi
      rw [List.mem_range]
      rcases List.mem_cons.mp hfd with rfl | hfd
      · exact hvacant.1
      · obtain ⟨d, hd, rfl⟩ := List.mem_map.mp hfd
        exact h.fd_lt hd
    have hle := (hnodup.subperm hsub).length_le
    rw [List.length_map, List.length_cons, List.length_map, List.length_range] at hle
    omega
  have hlength := h.length_opened hfree
  have hnat : (BitVec.ofNat 32 s.table.vfds.length).toNat = s.table.vfds.length :=
    Nat.mod_eq_of_lt (by omega)
  have hcreate : vfdCreate s.table type = none := by
    unfold vfdCreate
    rw [if_neg (not_not.mpr hfree)]
    change (setVectorItem (s.table.vfds ++ _) _ _ >>= _) = _
    rw [setVectorItem_of_ge (by omega)]
    rfl
  unfold vmirFdCreate
  rw [hcreate]
  rfl

theorem Made.inv (h : Inv s) {fd : BitVec 32} {handle : BitVec 64} {type : BitVec 32}
    {relfunc : Option ρ} {t : VfdTable ρ} (hpos : 0 < type.toNat) (hlt : type.toNat < 256)
    (hmade : Made s fd ⟨handle, relfunc, type.setWidth 8⟩ t) :
    Inv (s.after t none (.create handle type relfunc) (.created fd)) := by
  have hvacant : ∀ i, Vacant (s.after t none (.create handle type relfunc) (.created fd)) i
      ↔ Vacant s i ∧ i ≠ fd.toNat := by
    intro i
    unfold Vacant
    change (i < t.vfds.length ∧ ∀ d ∈ _ :: s.opened, _) ↔ _
    rw [hmade.length, List.forall_mem_cons]
    constructor
    · rintro ⟨hi, hne, hold⟩
      exact ⟨⟨hi.resolve_left (Ne.symm hne), hold⟩, Ne.symm hne⟩
    · rintro ⟨⟨hi, hold⟩, hne⟩
      exact ⟨Or.inr hi, Ne.symm hne, hold⟩
  constructor
  · exact hmade.small
  · obtain ⟨l, hchain, hnodup, hmem⟩ := hmade.free
    constructor
    · exact ⟨l, hchain, hnodup, fun i => (hmem i).trans (hvacant i).symm⟩
    · refine List.nodup_cons.mpr ⟨fun hin => ?_, h.sound.distinct⟩
      obtain ⟨d, hd, heq⟩ := List.mem_map.mp hin
      exact hmade.fresh d hd heq
    · change ((s.closed ++ _ :: s.opened).map Descriptor.serial).Perm (List.range (s.created + 1))
      rw [List.map_append, List.map_cons, List.range_succ]
      have hold := h.sound.once
      rw [List.map_append] at hold
      exact List.perm_middle.trans ((hold.cons _).trans (List.perm_append_singleton _ _).symm)
    · change s.calls ++ [] = _
      rw [List.append_nil]
      exact h.sound.calls
  · intro d hd
    rcases List.mem_cons.mp hd with rfl | hd
    · exact ⟨hmade.item, hpos, hlt⟩
    · obtain ⟨hitem, htype⟩ := h.item d hd
      refine ⟨?_, htype⟩
      rw [← hitem]
      exact hmade.other _ fun heq => hmade.fresh d hd (BitVec.eq_of_toNat_eq heq)
  · intro i vfd hi hvfd
    obtain ⟨hold, hne⟩ := (hvacant i).mp hi
    rw [show (s.after t none (.create handle type relfunc) (.created fd)).table = t from rfl,
      hmade.other i hne] at hvfd
    exact h.vacant i vfd hold hvfd

/-! ## Closes -/

theorem Inv.close_unknown (h : Inv s) {fd : BitVec 32} (hfd : ∀ d ∈ s.opened, d.fd ≠ fd) :
    vmirFdClose s.table fd = (s.table, none) := by
  unfold vmirFdClose
  cases hget : vfdGet s.table fd (-1) with
  | none => rfl
  | some vfd =>
    obtain ⟨d, hd, heq, -⟩ := h.vfdGet_iff.mp hget
    exact absurd heq (hfd d hd)

theorem after_unknown {fd : BitVec 32} (hfd : ∀ d ∈ s.opened, d.fd ≠ fd)
    (a : FdAnswer) : s.after s.table none (.close fd) a = s := by
  have hkeep : (s.opened.filter fun d => d.fd ≠ fd) = s.opened :=
    List.filter_eq_self.mpr fun d hd => decide_eq_true (hfd d hd)
  have hdrop : (s.opened.filter fun d => d.fd = fd) = [] :=
    List.filter_eq_nil_iff.mpr fun d hd heq => hfd d hd (of_decide_eq_true heq)
  change (⟨s.table, s.created, s.opened.filter fun d => d.fd ≠ fd,
    s.closed ++ s.opened.filter fun d => d.fd = fd, s.calls ++ []⟩ : Session ρ) = s
  rw [hkeep, hdrop, List.append_nil, List.append_nil]

theorem Inv.closed_single (h : Inv s) {d : Descriptor ρ} (hd : d ∈ s.opened) :
    (s.opened.filter fun e => e.fd = d.fd) = [d] := by
  have hnodup : (s.opened.filter fun e => e.fd = d.fd).Nodup :=
    (List.Nodup.of_map _ h.sound.distinct).filter _
  refine List.perm_singleton.mp ((List.perm_ext_iff_of_nodup hnodup (List.nodup_singleton d)).mpr
    fun e => ?_)
  rw [List.mem_filter, List.mem_singleton, decide_eq_true_iff]
  constructor
  · rintro ⟨he, heq⟩
    exact h.eq_of_fd he hd heq
  · rintro rfl
    exact ⟨hd, rfl⟩

theorem Inv.close (h : Inv s) {d : Descriptor ρ} (hd : d ∈ s.opened) :
    ∃ t, vmirFdClose s.table d.fd = (t, d.call)
      ∧ Inv (s.after t d.call (.close d.fd) .closed) := by
  obtain ⟨hitem, hpos, hlt⟩ := h.item d hd
  have hfdlt := h.fd_lt hd
  have hsmall := h.small
  have hget : vfdGet s.table d.fd (-1) = some ⟨d.handle, d.release, d.type.setWidth 8⟩ :=
    h.vfdGet_iff.mpr ⟨d, hd, rfl, Or.inl rfl, rfl⟩
  refine ⟨⟨s.table.vfds.set d.fd.toNat
    (VmirFd.setFreelist ⟨d.handle, d.release, 0⟩ s.table.vfdFree), d.fd⟩, ?_, ?_⟩
  · unfold vmirFdClose
    rw [hget]
    rfl
  · have hmem : ∀ e, e ∈ (s.opened.filter fun e => e.fd ≠ d.fd) ↔ e ∈ s.opened ∧ e.fd ≠ d.fd :=
      fun e => by rw [List.mem_filter, decide_eq_true_iff]
    obtain ⟨l, hchain, hnodup, hl⟩ := h.sound.free
    have hnot : d.fd.toNat ∉ l := fun hin => ((hl _).mp hin).2 d hd rfl
    have hvacant : ∀ i, Vacant (s.after ⟨s.table.vfds.set d.fd.toNat
        (VmirFd.setFreelist ⟨d.handle, d.release, 0⟩ s.table.vfdFree), d.fd⟩ d.call
        (.close d.fd) .closed) i ↔ i = d.fd.toNat ∨ Vacant s i := by
      intro i
      unfold Vacant
      change (i < (s.table.vfds.set _ _).length ∧ ∀ e ∈ s.opened.filter _, _) ↔ _
      rw [List.length_set]
      constructor
      · rintro ⟨hi, hnone⟩
        by_cases heq : i = d.fd.toNat
        · exact Or.inl heq
        · refine Or.inr ⟨hi, fun e he hei => ?_⟩
          exact hnone e ((hmem e).mpr ⟨he, fun hed => heq (by rw [← hei, hed])⟩) hei
      · rintro (rfl | ⟨hi, hnone⟩)
        · refine ⟨hfdlt, fun e he hei => ?_⟩
          exact ((hmem e).mp he).2 (BitVec.eq_of_toNat_eq hei)
        · exact ⟨hi, fun e he => hnone e ((hmem e).mp he).1⟩
    constructor
    · change (s.table.vfds.set _ _).length ≤ _
      rw [List.length_set]
      exact hsmall
    · constructor
      · refine ⟨d.fd.toNat :: l, ?_, List.nodup_cons.mpr ⟨hnot, hnodup⟩, fun i => ?_⟩
        · have hne : d.fd ≠ -1 := by
            intro heq
            rw [heq] at hfdlt
            have : (-1 : BitVec 32).toNat = 2 ^ 32 - 1 := rfl
            omega
          change Chain (nextFree (s.table.vfds.set _ _)) (slotOf d.fd) _
          rw [slotOf_of_ne hne]
          refine hchain.push hnot ?_ fun j hj => nextFree_set_ne _ hj
          unfold nextFree
          rw [List.getElem?_set_self hfdlt]
          exact congrArg slotOf (freelist_setFreelist _)
        · rw [List.mem_cons, hl, hvacant]
      · exact h.sound.distinct.sublist (List.filter_sublist.map Descriptor.fd)
      · change ((s.closed ++ (s.opened.filter fun e => e.fd = d.fd)
          ++ s.opened.filter fun e => e.fd ≠ d.fd).map Descriptor.serial).Perm _
        have hsplit := List.filter_append_perm (fun e => decide (e.fd = d.fd)) s.opened
        simp only [← decide_not] at hsplit
        rw [List.append_assoc]
        exact ((hsplit.append_left _).map _).trans h.sound.once
      · change s.calls ++ _ = (s.closed ++ s.opened.filter _).filterMap _
        rw [h.closed_single hd, List.filterMap_append, h.sound.calls]
        cases hcall : d.call with
        | none => simp [hcall]
        | some c => simp [hcall]
    · intro e he
      obtain ⟨he, hne⟩ := (hmem e).mp he
      obtain ⟨hold, htype⟩ := h.item e he
      refine ⟨?_, htype⟩
      rw [← hold]
      exact List.getElem?_set_ne fun heq => hne (BitVec.eq_of_toNat_eq heq.symm)
    · intro i vfd hi hvfd
      by_cases heq : i = d.fd.toNat
      · subst heq
        change (s.table.vfds.set _ _)[_]? = _ at hvfd
        rw [List.getElem?_set_self hfdlt] at hvfd
        cases hvfd
        rfl
      · change (s.table.vfds.set _ _)[_]? = _ at hvfd
        rw [List.getElem?_set_ne (Ne.symm heq)] at hvfd
        exact h.vacant i vfd (((hvacant i).mp hi).resolve_left heq) hvfd

/-! ## Runs -/

section
variable {t t' : VfdTable ρ} {handle : BitVec 64} {type fd : BitVec 32} {relfunc : Option ρ}

theorem exec_create (h : vmirFdCreate t handle type relfunc = some (fd, t')) :
    exec t (.create handle type relfunc) = some (.created fd, t', none) := by
  change (vmirFdCreate t handle type relfunc >>= _) = _
  rw [h]
  rfl

theorem exec_create_none (h : vmirFdCreate t handle type relfunc = none) :
    exec t (.create handle type relfunc) = none := by
  change (vmirFdCreate t handle type relfunc >>= _) = _
  rw [h]
  rfl

theorem exec_close {call : Option (ρ × BitVec 64)} (h : vmirFdClose t fd = (t', call)) :
    exec t (.close fd) = some (.closed, t', call) := by
  unfold FdTable.exec
  dsimp only
  rw [h]

end

theorem Inv.exec (h : Inv s) {op : FdOp ρ} (hallowed : Allowed op) (hfits : Fits s op) :
    ∃ a t call, exec s.table op = some (a, t, call) ∧ Right s t call op a
      ∧ Inv (s.after t call op a) := by
  cases op with
  | create handle type relfunc =>
    obtain ⟨fd, t, hcreate, hmade⟩ := h.create handle type relfunc hfits
    exact ⟨.created fd, t, none, exec_create hcreate, ⟨fd, rfl, hmade.fresh, rfl⟩,
      hmade.inv h hallowed.1 hallowed.2⟩
  | get fd type =>
    refine ⟨_, s.table, none, rfl, ⟨_, _, rfl, rfl, rfl, ?_, ?_⟩, ?_⟩
    · rw [Option.isSome_iff_exists]
      constructor
      · rintro ⟨vfd, hget⟩
        obtain ⟨d, hd, heq, htype, -⟩ := h.vfdGet_iff.mp hget
        exact ⟨d, hd, heq, htype⟩
      · rintro ⟨d, hd, heq, htype⟩
        exact ⟨_, h.vfdGet_iff.mpr ⟨d, hd, heq, htype, rfl⟩⟩
    · intro hfound d hd heq
      obtain ⟨vfd, hget⟩ := Option.isSome_iff_exists.mp hfound
      obtain ⟨e, he, heq', -, rfl⟩ := h.vfdGet_iff.mp hget
      obtain rfl := h.eq_of_fd hd he (heq.trans heq'.symm)
      unfold vmirFdGet
      rw [hget]
    · change Inv ⟨s.table, s.created, s.opened, s.closed, s.calls ++ []⟩
      rw [List.append_nil]
      exact h
  | close fd =>
    by_cases hopen : ∃ d ∈ s.opened, d.fd = fd
    · obtain ⟨d, hd, rfl⟩ := hopen
      obtain ⟨t, hclose, hinv⟩ := h.close hd
      refine ⟨.closed, t, d.call, exec_close hclose, ⟨rfl, ?_, ?_⟩, hinv⟩
      · intro e he heq
        rw [h.eq_of_fd he hd heq]
      · intro hnone
        exact absurd rfl (hnone d hd)
    · have hnone : ∀ d ∈ s.opened, d.fd ≠ fd := fun d hd heq => hopen ⟨d, hd, heq⟩
      refine ⟨.closed, s.table, none, exec_close (h.close_unknown hnone),
        ⟨rfl, ?_, fun _ => ⟨rfl, rfl⟩⟩, ?_⟩
      · intro d hd heq
        exact absurd heq (hnone d hd)
      · rw [after_unknown hnone]
        exact h

theorem reach_inv (hs : Reach Fits s) : Inv s := by
  induction hs with
  | begin => exact begin_inv
  | step _ hallowed hok hexec ih =>
    obtain ⟨a, t, call, hexec', -, hinv⟩ := ih.exec hallowed hok
    rw [hexec] at hexec'
    cases hexec'
    exact hinv

theorem Reach.mono {ok ok' : Session ρ → FdOp ρ → Prop} (h : ∀ s op, ok s op → ok' s op)
    (hs : Reach ok s) : Reach ok' s := by
  induction hs with
  | begin => exact .begin
  | step _ hallowed hok hexec ih => exact .step ih hallowed (h _ _ hok) hexec

/-- Any number of descriptors up to `2 ^ 31` can be open. -/
theorem reach_opened (n : ℕ) (hn : n ≤ 2 ^ 31) :
    ∃ s : Session Unit, Reach Fits s ∧ s.opened.length = n := by
  induction n with
  | zero => exact ⟨begin, .begin, rfl⟩
  | succ n ih =>
    obtain ⟨s, hs, hlength⟩ := ih (by omega)
    have hfits : Fits s (.create 0 1 none) := by
      change s.opened.length < 2 ^ 31
      omega
    have hallowed : Allowed (.create 0 1 none : FdOp Unit) := ⟨by decide, by decide⟩
    obtain ⟨a, t, call, hexec, ⟨fd, rfl, -⟩, -⟩ := (reach_inv hs).exec hallowed hfits
    exact ⟨_, .step hs hallowed hfits hexec, congrArg (· + 1) hlength⟩

/-- With `2 ^ 31` open descriptors another one cannot be created. -/
theorem full_table_stuck : ¬ ∀ s : Session Unit, Reach (fun _ _ => True) s →
    Sound s ∧ ∀ op, Allowed op → Answers s op := by
  intro h
  obtain ⟨s, hs, hlength⟩ := reach_opened (2 ^ 31) (Nat.le_refl _)
  obtain ⟨-, hanswers⟩ := h s (hs.mono fun _ _ _ => trivial)
  obtain ⟨a, t, call, hexec, -⟩ := hanswers (.create 0 1 none) ⟨by decide, by decide⟩
  rw [exec_create_none ((reach_inv hs).create_full (Nat.le_of_eq hlength.symm) _ _ _)] at hexec
  exact absurd hexec nofun

/-- The table is sound in every run of creations that fit, and then an operation is answered
rightly if and only if it fits. -/
theorem fdTable_sound (hs : Reach Fits s) :
    Sound s ∧ ∀ op, Allowed op → (Answers s op ↔ Fits s op) := by
  have h := reach_inv hs
  refine ⟨h.sound, fun op hallowed => ⟨?_, fun hfits => ?_⟩⟩
  · rintro ⟨a, t, call, hexec, -⟩
    cases op with
    | create handle type relfunc =>
      by_contra hfull
      rw [exec_create_none (h.create_full (Nat.le_of_not_lt hfull) _ _ _)] at hexec
      exact absurd hexec nofun
    | get fd type => trivial
    | close fd => trivial
  · obtain ⟨a, t, call, hexec, hright, -⟩ := h.exec hallowed hfits
    exact ⟨a, t, call, hexec, hright⟩

/-- Two descriptors were created, and the first of them was closed. -/
def firstClosed : Session Unit :=
  ⟨⟨[⟨0xffffffff, some (), 0⟩, ⟨11, none, 2⟩], 0⟩, 2, [⟨1, 1, 11, 2, none⟩],
    [⟨0, 0, 10, 1, some ()⟩], [((), 10)]⟩

theorem firstClosed_reached : Reach Fits firstClosed := by
  have hfirst : Allowed (.create 10 1 (some ()) : FdOp Unit) := ⟨by decide, by decide⟩
  have hsecond : Allowed (.create 11 2 none : FdOp Unit) := ⟨by decide, by decide⟩
  have hone : Reach Fits ((begin : Session Unit).after ⟨[⟨10, some (), 1⟩], -1⟩ none
      (.create 10 1 (some ())) (.created 0)) :=
    .step .begin hfirst (by decide : 0 < 2 ^ 31) rfl
  have htwo : Reach Fits (((begin : Session Unit).after ⟨[⟨10, some (), 1⟩], -1⟩ none
      (.create 10 1 (some ())) (.created 0)).after ⟨[⟨10, some (), 1⟩, ⟨11, none, 2⟩], -1⟩ none
      (.create 11 2 none) (.created 1)) :=
    .step hone hsecond (by decide : 1 < 2 ^ 31) rfl
  exact @Reach.step Unit Fits _ htwo (.close 0) trivial trivial .closed firstClosed.table
    (some ((), 10)) rfl

theorem fdTable_sound_firstClosed : Sound firstClosed
    ∧ ∀ op, Allowed op → (Answers firstClosed op ↔ Fits firstClosed op) :=
  fdTable_sound firstClosed_reached

end Vmir.FdTableRuns
