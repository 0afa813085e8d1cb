import Mathlib.Data.List.Perm.Basic
import Vmir.HostCalls

set_option autoImplicit false

/-!
# Who owns the stack blocks
-/
namespace Vmir.StackOwnership
open Ir IrTypes FirstFitHeap HeapBlocks HeapSafety HostCalls

variable {A : Allocator}

def inUse (s : State A) : List (BitVec 32) := s.active.map Activation.allocaptr

def stashed (s : State A) : List (BitVec 32) :=
  if s.iuStackStash = 0 then [] else [s.iuStackStash]

def blocks (s : State A) : List (BitVec 32) := inUse s ++ stashed s

/-- The only text with the code of a stop read as a string is that of a bad function. -/
def Loggable (hostString : BitVec 32 → Bool) (s : State A) : Action A → Prop
  | .bodyReturn r => r = vmStopBadFunction → hostString s.iuExitCode
  | .vmStop reason code => reason = vmStopBadFunction → hostString code
  | _ => True

/-- Active calls have stacks of their own, no block is owned twice or by the guest as well, every
block that was allocated was freed or is stashed or in use, once for each time, the innermost call's
buffer is the one installed, and whatever comes next is carried out, if its result can be logged. -/
structure OwnStacks (iuAsize : A.Request) (hostString : BitVec 32 → Bool) (s : State A) : Prop where
  apart : (inUse s).Nodup
  once : (blocks s ++ s.guest).Nodup
  accounted : s.taken.Perm (s.freed ++ blocks s)
  installed : s.iuErrJmpbuf = s.active.head?.map Activation.jb
  answers : ∀ act, Allowed s act → Loggable hostString s act →
    ∃ s' r, step iuAsize hostString s act = .ok (s', r)

/-- The call `a` has ended: the buffer that it found is installed, and its block is stashed, or freed
where another one is stashed. -/
structure Ended (s s' : State A) (a : Activation) (active : List Activation) : Prop where
  active : s'.active = active
  restored : s'.iuErrJmpbuf = a.prevjb
  kept : (s.iuStackStash = 0 ∧ s'.iuStackStash = a.allocaptr ∧ s'.freed = s.freed)
    ∨ (s.iuStackStash ≠ 0 ∧ s'.iuStackStash = s.iuStackStash ∧ s'.freed = a.allocaptr :: s.freed)
  others : s'.taken = s.taken ∧ s'.guest = s.guest

/-- Whichever way its body is left, it is the innermost call that ends, before its result is logged. -/
def EndsInnermost (hostString : BitVec 32 → Bool) (s : State A) : Prop :=
  ∀ a active, s.active = a :: active →
    (∀ r, ∃ s', Ended s s' a active ∧ bodyReturn hostString s r
      = (logResult hostString (if r = 1 then vmStopUncaughtException else r) s.iuExitCode).map
        fun _ => (s', some (if r = 1 then vmStopUncaughtException else r))) ∧
    ∀ reason code, ∃ s', Ended s s' a active ∧ vmStop hostString s reason code
      = (logResult hostString (if reason = 0 then 1 else reason) code).map
        fun _ => (s', some (if reason = 0 then 1 else reason))

/-! ## Pointers -/

theorem mem_offsets {l : List (BitVec 32)} {addr : BitVec 32} :
    (addr.toNat : ℤ) ∈ offsets l ↔ addr ∈ l := by
  constructor
  · rintro ⟨b, hb, heq⟩
    have hnat : addr.toNat = b.toNat := Int.ofNat.inj heq
    rwa [BitVec.eq_of_toNat_eq hnat]
  · intro h
    exact ⟨addr, h, rfl⟩

theorem offsets_congr {l l' : List (BitVec 32)} (h : ∀ b, b ∈ l ↔ b ∈ l') :
    offsets l = offsets l' := by
  ext p
  constructor
  · rintro ⟨b, hb, rfl⟩
    exact ⟨b, (h b).mp hb, rfl⟩
  · rintro ⟨b, hb, rfl⟩
    exact ⟨b, (h b).mpr hb, rfl⟩

theorem offsets_cons (addr : BitVec 32) (l : List (BitVec 32)) :
    offsets (addr :: l) = insert (addr.toNat : ℤ) (offsets l) := by
  ext p
  rw [Set.mem_insert_iff]
  constructor
  · rintro ⟨b, hb, rfl⟩
    rcases List.mem_cons.mp hb with rfl | hb
    · exact Or.inl rfl
    · exact Or.inr ⟨b, hb, rfl⟩
  · rintro (rfl | ⟨b, hb, rfl⟩)
    · exact ⟨addr, List.mem_cons_self, rfl⟩
    · exact ⟨b, List.mem_cons_of_mem addr hb, rfl⟩

theorem offsets_erase {l : List (BitVec 32)} (h : l.Nodup) (addr : BitVec 32) :
    offsets (l.erase addr) = offsets l \ {(addr.toNat : ℤ)} := by
  ext p
  rw [Set.mem_sdiff, Set.mem_singleton_iff]
  constructor
  · rintro ⟨b, hb, rfl⟩
    obtain ⟨hne, hb⟩ := (List.Nodup.mem_erase_iff h).mp hb
    refine ⟨⟨b, hb, rfl⟩, fun heq => hne ?_⟩
    exact BitVec.eq_of_toNat_eq (Int.ofNat.inj heq)
  · rintro ⟨⟨b, hb, rfl⟩, hne⟩
    refine ⟨b, (List.Nodup.mem_erase_iff h).mpr ⟨?_, hb⟩, rfl⟩
    rintro rfl
    exact hne rfl

theorem vmirMemAlloc_spec {h : A.State} {l : List (BitVec 32)} (size : A.Request)
    (hholds : A.Holds h (offsets l)) {addr : BitVec 32} {h' : A.State}
    (halloc : vmirMemAlloc h size = (addr, h')) :
    (addr = 0 ∧ A.Holds h' (offsets l))
      ∨ (addr ≠ 0 ∧ addr ∉ l ∧ A.Holds h' (offsets (addr :: l))) := by
  unfold vmirMemAlloc at halloc
  cases hm : A.malloc h size with
  | mk p heap =>
    rw [hm] at halloc
    cases p with
    | none =>
      obtain ⟨rfl, rfl⟩ := Prod.mk.inj halloc
      exact Or.inl ⟨rfl, A.malloc_none hholds hm⟩
    | some p =>
      obtain ⟨haddr, rfl⟩ := Prod.mk.inj halloc
      obtain ⟨hholds', hfresh, hpos, hlt⟩ := A.malloc_some hholds hm
      have hp : (addr.toNat : ℤ) = p := by
        rw [← haddr, BitVec.toNat_ofInt]
        omega
      rw [← hp] at hfresh hholds'
      refine Or.inr ⟨?_, fun hin => hfresh (mem_offsets.mpr hin), ?_⟩
      · rintro rfl
        have hzero : (0 : ℤ) = p := hp
        omega
      · rw [offsets_cons]
        exact hholds'

theorem vmirMemFree_spec {h : A.State} {l : List (BitVec 32)} (hholds : A.Holds h (offsets l))
    (hnodup : l.Nodup) {addr : BitVec 32} (hmem : addr ∈ l) :
    ∃ h', vmirMemFree h addr = .ok h' ∧ A.Holds h' (offsets (l.erase addr)) := by
  obtain ⟨h', hfree, hholds'⟩ := A.free_held hholds (mem_offsets.mpr hmem)
  refine ⟨h', hfree, ?_⟩
  rw [offsets_erase hnodup]
  exact hholds'

/-! ## The invariant -/

/-- Each call's buffer is the one that the next call inside it found. -/
def Chained : List Activation → Option ℕ → Prop
  | [], jb => jb = none
  | a :: active, jb => jb = some a.jb ∧ Chained active a.prevjb

structure Sound (s : State A) : Prop where
  holds : A.Holds s.heap (offsets (blocks s ++ s.guest))
  nodup : (blocks s ++ s.guest).Nodup
  nonzero : ∀ b ∈ inUse s, b ≠ 0
  accounted : s.taken.Perm (s.freed ++ blocks s)
  chained : Chained s.active s.iuErrJmpbuf

theorem Sound.installed {s : State A} (h : Sound s) :
    s.iuErrJmpbuf = s.active.head?.map Activation.jb := by
  have hchained := h.chained
  cases hactive : s.active with
  | nil =>
    rw [hactive] at hchained
    exact hchained
  | cons a active =>
    rw [hactive] at hchained
    exact hchained.1

theorem loaded_sound {heap : A.State} {guest : List (BitVec 32)}
    (hheap : A.Holds heap (offsets guest)) (hguest : guest.Nodup) :
    Sound (A := A) ⟨heap, 0, none, 0, [], guest, [], []⟩ where
  holds := hheap
  nodup := hguest
  nonzero := nofun
  accounted := List.Perm.nil
  chained := rfl

theorem setjmp_sound {s t : State A} (hs : Sound s) {addr : BitVec 32} (hne : addr ≠ 0) (jb : ℕ)
    (hguest : t.guest = s.guest) (hactive : t.active = s.active) (hjb : t.iuErrJmpbuf = s.iuErrJmpbuf)
    (hstash : stashed t = []) (hholds : A.Holds t.heap (offsets (addr :: (inUse s ++ s.guest))))
    (hnodup : (addr :: (inUse s ++ s.guest)).Nodup)
    (haccounted : t.taken.Perm (t.freed ++ addr :: inUse s)) : Sound (setjmp t jb addr) := by
  have hblocks : blocks (setjmp t jb addr) = addr :: inUse s := by
    change (addr :: t.active.map Activation.allocaptr) ++ stashed t = _
    rw [hstash, hactive, List.append_nil]
    rfl
  have hguest' : (setjmp t jb addr).guest = s.guest := hguest
  refine ⟨?_, ?_, ?_, ?_, rfl, ?_⟩
  · rw [hblocks, hguest']
    exact hholds
  · rw [hblocks, hguest']
    exact hnodup
  · intro b hb
    change b ∈ addr :: t.active.map Activation.allocaptr at hb
    rw [hactive] at hb
    rcases List.mem_cons.mp hb with rfl | hb
    · exact hne
    · exact hs.nonzero b hb
  · rw [hblocks]
    exact haccounted
  · change Chained t.active t.iuErrJmpbuf
    rw [hactive, hjb]
    exact hs.chained

theorem vmirVmFunctionCall_sound (iuAsize : A.Request) {s : State A} (hs : Sound s)
    (parameters : List IrType) (jb : ℕ) {t : State A} {r : Option ℤ}
    (hcall : vmirVmFunctionCall iuAsize s parameters jb = (t, r)) :
    Sound t ∧ ((r = none ∧ ∃ a, t.active = a :: s.active) ∨ (r ≠ none ∧ t.active = s.active)) := by
  unfold vmirVmFunctionCall at hcall
  by_cases hargs : parameters.all encodes = true
  · rw [if_pos hargs] at hcall
    by_cases hstash : s.iuStackStash ≠ 0
    · rw [if_pos hstash] at hcall
      obtain ⟨rfl, rfl⟩ := Prod.mk.inj hcall
      have hstashed : stashed s = [s.iuStackStash] := if_neg hstash
      have hperm : (blocks s ++ s.guest).Perm (s.iuStackStash :: (inUse s ++ s.guest)) := by
        unfold blocks
        rw [hstashed, List.append_assoc]
        exact List.perm_middle
      refine ⟨setjmp_sound hs hstash jb rfl rfl rfl (if_pos rfl) ?_ (hperm.nodup hs.nodup) ?_,
        Or.inl ⟨rfl, _, rfl⟩⟩
      · rw [← offsets_congr fun b => hperm.mem_iff]
        exact hs.holds
      · refine hs.accounted.trans (List.Perm.append_left _ ?_)
        unfold blocks
        rw [hstashed]
        exact List.perm_append_singleton _ _
    · rw [if_neg hstash] at hcall
      have hstashed : stashed s = [] := if_pos (not_not.mp hstash)
      have hblocks : blocks s = inUse s := by
        unfold blocks
        rw [hstashed, List.append_nil]
      cases halloc : vmirMemAlloc s.heap iuAsize with
      | mk addr heap =>
        rw [halloc] at hcall
        have hspec := vmirMemAlloc_spec iuAsize hs.holds halloc
        rw [hblocks] at hspec
        by_cases haddr : addr = 0
        · simp only [haddr, if_true] at hcall
          obtain ⟨rfl, rfl⟩ := Prod.mk.inj hcall
          rcases hspec with ⟨-, hholds⟩ | ⟨hne, -⟩
          · refine ⟨⟨?_, hs.nodup, hs.nonzero, hs.accounted, hs.chained⟩, Or.inr ⟨nofun, rfl⟩⟩
            change A.Holds heap (offsets (blocks s ++ s.guest))
            rw [hblocks]
            exact hholds
          · exact absurd haddr hne
        · simp only [haddr, if_false] at hcall
          obtain ⟨rfl, rfl⟩ := Prod.mk.inj hcall
          rcases hspec with ⟨hzero, -⟩ | ⟨-, hfresh, hholds⟩
          · exact absurd hzero haddr
          · have hnodup := hs.nodup
            rw [hblocks] at hnodup
            refine ⟨setjmp_sound hs haddr jb rfl rfl rfl hstashed hholds
              (List.nodup_cons.mpr ⟨hfresh, hnodup⟩) ?_, Or.inl ⟨rfl, _, rfl⟩⟩
            have haccounted := hs.accounted
            rw [hblocks] at haccounted
            exact (haccounted.cons addr).trans List.perm_middle.symm
  · rw [if_neg hargs] at hcall
    obtain ⟨rfl, rfl⟩ := Prod.mk.inj hcall
    exact ⟨hs, Or.inr ⟨nofun, rfl⟩⟩

theorem leaveStack_sound {s : State A} (hs : Sound s) {a : Activation}
    {active : List Activation} (hactive : s.active = a :: active) :
    ∃ s', leaveStack s a active = .ok s' ∧ Sound s' ∧ Ended s s' a active
      ∧ s'.iuExitCode = s.iuExitCode := by
  have hchained := hs.chained
  have hnonzero := hs.nonzero
  have hinUse : inUse s = a.allocaptr :: active.map Activation.allocaptr := by
    unfold inUse
    rw [hactive]
    rfl
  rw [hactive] at hchained
  rw [hinUse] at hnonzero
  have hrest : ∀ b ∈ active.map Activation.allocaptr, b ≠ 0 := fun b hb =>
    hnonzero b (List.mem_cons_of_mem _ hb)
  unfold leaveStack
  by_cases hstash : s.iuStackStash = 0
  · rw [if_pos hstash]
    have hstashed : stashed s = [] := if_pos hstash
    have hold : blocks s = a.allocaptr :: active.map Activation.allocaptr := by
      unfold blocks
      rw [hstashed, List.append_nil, hinUse]
    let s' : State A :=
      { s with active := active, iuErrJmpbuf := a.prevjb, iuStackStash := a.allocaptr }
    have hnew : blocks s' = active.map Activation.allocaptr ++ [a.allocaptr] :=
      congrArg (active.map Activation.allocaptr ++ ·) (if_neg (hnonzero _ List.mem_cons_self))
    have hperm : (blocks s).Perm (blocks s') := by
      rw [hold, hnew]
      exact (List.perm_append_singleton _ _).symm
    refine ⟨s', rfl, ⟨?_, ?_, hrest, ?_, hchained.2⟩,
      ⟨rfl, rfl, Or.inl ⟨hstash, rfl, rfl⟩, rfl, rfl⟩, rfl⟩
    · rw [← offsets_congr fun b => (hperm.append_right s.guest).mem_iff]
      exact hs.holds
    · exact (hperm.append_right s.guest).nodup hs.nodup
    · exact hs.accounted.trans (List.Perm.append_left _ hperm)
  · rw [if_neg hstash]
    have hold : blocks s = a.allocaptr :: (active.map Activation.allocaptr ++ stashed s) := by
      unfold blocks
      rw [hinUse, List.cons_append]
    have hmem : a.allocaptr ∈ blocks s ++ s.guest := by
      rw [hold]
      exact List.mem_cons_self
    obtain ⟨heap, hfree, hholds⟩ := vmirMemFree_spec hs.holds hs.nodup hmem
    have hnodup := hs.nodup
    have haccounted := hs.accounted
    rw [hold, List.cons_append] at hholds hnodup
    rw [List.erase_cons_head] at hholds
    rw [hold] at haccounted
    rw [hfree]
    exact ⟨_, rfl, ⟨hholds, hnodup.of_cons, hrest, haccounted.trans List.perm_middle, hchained.2⟩,
      ⟨rfl, rfl, Or.inr ⟨hstash, rfl, rfl⟩, rfl, rfl⟩, rfl⟩

variable (hostString : BitVec 32 → Bool)

theorem functionCallEnd_spec {s : State A} (hs : Sound s) {a : Activation}
    {active : List Activation} (hactive : s.active = a :: active) (r : ℤ) :
    ∃ s', Sound s' ∧ Ended s s' a active ∧ functionCallEnd hostString s a active r
      = (logResult hostString r s.iuExitCode).map fun _ => (s', some r) := by
  obtain ⟨s', hleave, hs', hended, hcode⟩ := leaveStack_sound hs hactive
  refine ⟨s', hs', hended, ?_⟩
  unfold functionCallEnd
  rw [hleave, ← hcode]
  change (logResult hostString r s'.iuExitCode >>= _) = _
  cases logResult hostString r s'.iuExitCode with
  | error e => rfl
  | ok text => rfl

theorem bodyReturn_spec {s : State A} (hs : Sound s) {a : Activation} {active : List Activation}
    (hactive : s.active = a :: active) (r : ℤ) :
    ∃ s', Sound s' ∧ Ended s s' a active ∧ bodyReturn hostString s r
      = (logResult hostString (if r = 1 then vmStopUncaughtException else r) s.iuExitCode).map
        fun _ => (s', some (if r = 1 then vmStopUncaughtException else r)) := by
  have hend := functionCallEnd_spec hostString hs hactive (if r = 1 then vmStopUncaughtException else r)
  unfold bodyReturn
  rw [hactive]
  exact hend

/-- `vm_stop` ends the innermost call: no other buffer is ever installed. -/
theorem vmStop_innermost {s : State A} {a : Activation} {active : List Activation}
    (hactive : s.active = a :: active) (hjb : s.iuErrJmpbuf = some a.jb) (reason : ℤ)
    (code : BitVec 32) : vmStop hostString s reason code
      = functionCallEnd hostString { s with iuExitCode := code } a active
        (if reason = 0 then 1 else reason) := by
  have hland : (s.active.dropWhile fun b => b.jb ≠ a.jb) = a :: active := by
    rw [hactive]
    exact List.dropWhile_cons_of_neg (by simp)
  unfold vmStop
  simp only [hjb, hland]

theorem vmStop_spec {s : State A} (hs : Sound s) {a : Activation} {active : List Activation}
    (hactive : s.active = a :: active) (reason : ℤ) (code : BitVec 32) :
    ∃ s', Sound s' ∧ Ended s s' a active ∧ vmStop hostString s reason code
      = (logResult hostString (if reason = 0 then 1 else reason) code).map
        fun _ => (s', some (if reason = 0 then 1 else reason)) := by
  have hchained := hs.chained
  rw [hactive] at hchained
  have hcode : Sound { s with iuExitCode := code } :=
    ⟨hs.holds, hs.nodup, hs.nonzero, hs.accounted, hs.chained⟩
  obtain ⟨s', hs', hended, hend⟩ :=
    functionCallEnd_spec hostString hcode hactive (if reason = 0 then 1 else reason)
  rw [vmStop_innermost hostString hactive hchained.1]
  exact ⟨s', hs', ⟨hended.active, hended.restored, hended.kept, hended.others⟩, hend⟩

theorem endsInnermost {s : State A} (hs : Sound s) : EndsInnermost hostString s := by
  intro a active hactive
  constructor
  · intro r
    obtain ⟨s', -, hended, hreturn⟩ := bodyReturn_spec hostString hs hactive r
    exact ⟨s', hended, hreturn⟩
  · intro reason code
    obtain ⟨s', -, hended, hstop⟩ := vmStop_spec hostString hs hactive reason code
    exact ⟨s', hended, hstop⟩

theorem logResult_ok {r : ℤ} {code : BitVec 32} (h : r = vmStopBadFunction → hostString code) :
    ∃ text, logResult hostString r code = .ok text := by
  unfold logResult
  by_cases hbad : r = vmStopBadFunction
  · subst hbad
    rw [h rfl]
    exact ⟨_, rfl⟩
  · split_ifs <;> exact ⟨_, rfl⟩

theorem guestMalloc_active (s : State A) (size : A.Request) :
    (guestMalloc s size).active = s.active := by
  unfold guestMalloc
  cases vmirMemAlloc s.heap size
  rfl

theorem guestMalloc_sound {s : State A} (hs : Sound s) (size : A.Request) :
    Sound (guestMalloc s size) := by
  unfold guestMalloc
  cases halloc : vmirMemAlloc s.heap size with
  | mk addr heap =>
    rcases vmirMemAlloc_spec size hs.holds halloc with ⟨rfl, hholds⟩ | ⟨hne, hfresh, hholds⟩
    · exact ⟨hholds, hs.nodup, hs.nonzero, hs.accounted, hs.chained⟩
    · have hperm : (addr :: (blocks s ++ s.guest)).Perm (blocks s ++ addr :: s.guest) :=
        List.perm_middle.symm
      simp only [hne, if_false]
      refine ⟨?_, hperm.nodup (List.nodup_cons.mpr ⟨hfresh, hs.nodup⟩), hs.nonzero,
        hs.accounted, hs.chained⟩
      rw [offsets_congr fun b => hperm.mem_iff] at hholds
      exact hholds

theorem guestFree_sound {s : State A} (hs : Sound s) {addr : BitVec 32} (hmem : addr ∈ s.guest) :
    ∃ s', guestFree s addr = .ok s' ∧ Sound s' ∧ s'.active = s.active := by
  have hnot : addr ∉ blocks s := fun hin =>
    (List.nodup_append.mp hs.nodup).2.2 addr hin addr hmem rfl
  obtain ⟨heap, hfree, hholds⟩ :=
    vmirMemFree_spec hs.holds hs.nodup (List.mem_append_right (blocks s) hmem)
  have herase : (blocks s ++ s.guest).erase addr = blocks s ++ s.guest.erase addr :=
    List.erase_append_right _ hnot
  have hnodup := hs.nodup.erase addr
  rw [herase] at hholds hnodup
  unfold guestFree
  rw [hfree]
  exact ⟨_, rfl, ⟨hholds, hnodup, hs.nonzero, hs.accounted, hs.chained⟩, rfl⟩

/-- One action makes at most one call active or inactive. -/
def Moves (s s' : State A) : Prop :=
  s'.active = s.active ∨ (∃ a, s'.active = a :: s.active) ∨ ∃ a, s.active = a :: s'.active

theorem step_sound (iuAsize : A.Request) {s s' : State A} (hs : Sound s) {act : Action A}
    (hallowed : Allowed s act) {r : Option ℤ}
    (hstep : step iuAsize hostString s act = .ok (s', r)) :
    Sound s' ∧ Moves s s' ∧ (Ending act → ∃ a, s.active = a :: s'.active) := by
  have hend {e : Except Fault (Option String)} {t : State A} {q : ℤ} {a : Activation}
      {active : List Activation} (hactive : s.active = a :: active) (ht : Sound t)
      (hended : Ended s t a active) (hrun : e.map (fun _ => (t, some q)) = .ok (s', r)) :
      Sound s' ∧ Moves s s' ∧ (Ending act → ∃ a, s.active = a :: s'.active) := by
    cases e with
    | error fault => exact absurd hrun nofun
    | ok text =>
      obtain ⟨rfl, -⟩ := Prod.mk.inj (Except.ok.inj hrun)
      have hpop : ∃ a, s.active = a :: t.active := ⟨a, hactive.trans (by rw [hended.active])⟩
      exact ⟨ht, Or.inr (Or.inr hpop), fun _ => hpop⟩
  cases act with
  | call parameters jb =>
    obtain ⟨hs', hmove⟩ := vmirVmFunctionCall_sound iuAsize hs parameters jb (Except.ok.inj hstep)
    exact ⟨hs', hmove.elim (fun h => Or.inr (Or.inl h.2)) (fun h => Or.inl h.2), nofun⟩
  | bodyReturn q =>
    obtain ⟨a, active, hactive⟩ := List.exists_cons_of_ne_nil hallowed
    obtain ⟨t, ht, hended, hreturn⟩ := bodyReturn_spec hostString hs hactive q
    exact hend hactive ht hended (hreturn.symm.trans hstep)
  | vmStop reason code =>
    obtain ⟨a, active, hactive⟩ := List.exists_cons_of_ne_nil hallowed
    obtain ⟨t, ht, hended, hstop⟩ := vmStop_spec hostString hs hactive reason code
    exact hend hactive ht hended (hstop.symm.trans hstep)
  | malloc size =>
    obtain ⟨rfl, -⟩ := Prod.mk.inj (Except.ok.inj hstep)
    exact ⟨guestMalloc_sound hs size, Or.inl (guestMalloc_active s size), nofun⟩
  | free addr =>
    obtain ⟨t, hfree, ht, hactive⟩ := guestFree_sound hs hallowed
    change (guestFree s addr >>= _) = _ at hstep
    rw [hfree] at hstep
    obtain ⟨rfl, -⟩ := Prod.mk.inj (Except.ok.inj hstep)
    exact ⟨ht, Or.inl hactive, nofun⟩

theorem step_answers (iuAsize : A.Request) {s : State A} (hs : Sound s) {act : Action A}
    (hallowed : Allowed s act) (hlog : Loggable hostString s act) :
    ∃ s' r, step iuAsize hostString s act = .ok (s', r) := by
  cases act with
  | call parameters jb => exact ⟨_, _, rfl⟩
  | bodyReturn q =>
    obtain ⟨a, active, hactive⟩ := List.exists_cons_of_ne_nil hallowed
    obtain ⟨t, -, -, hreturn⟩ := bodyReturn_spec hostString hs hactive q
    have hcode : (if q = 1 then vmStopUncaughtException else q) = vmStopBadFunction →
        hostString s.iuExitCode := by
      intro hq
      split at hq
      · exact absurd hq (by decide)
      · exact hlog hq
    obtain ⟨text, htext⟩ := logResult_ok hostString hcode
    rw [htext] at hreturn
    exact ⟨_, _, hreturn⟩
  | vmStop reason code =>
    obtain ⟨a, active, hactive⟩ := List.exists_cons_of_ne_nil hallowed
    obtain ⟨t, -, -, hstop⟩ := vmStop_spec hostString hs hactive reason code
    have hcode : (if reason = 0 then 1 else reason) = vmStopBadFunction → hostString code := by
      intro hreason
      split at hreason
      · exact absurd hreason (by decide)
      · exact hlog hreason
    obtain ⟨text, htext⟩ := logResult_ok hostString hcode
    rw [htext] at hstop
    exact ⟨_, _, hstop⟩
  | malloc size => exact ⟨_, _, rfl⟩
  | free addr =>
    obtain ⟨t, hfree, -⟩ := guestFree_sound hs hallowed
    refine ⟨t, none, ?_⟩
    change (guestFree s addr >>= _) = _
    rw [hfree]
    rfl

/-! ## Runs -/

variable {iuAsize : A.Request} {hostString : BitVec 32 → Bool} {s t u : State A}

theorem reach_sound (hs : Reach iuAsize hostString s) : Sound s := by
  induction hs with
  | loaded hheap hguest => exact loaded_sound hheap hguest
  | step _ hallowed hstep ih => exact (step_sound hostString iuAsize ih hallowed hstep).1

theorem inside_sound {base : List Activation} (hrun : Inside iuAsize hostString base.length t u)
    (ht : Sound t) (hactive : ∃ l, t.active = l ++ base) : Sound u ∧ ∃ l, u.active = l ++ base := by
  induction hrun with
  | refl _ => exact ⟨ht, hactive⟩
  | @step v w _ act hallowed r hstep hlen ih =>
    obtain ⟨hv, l, hl⟩ := ih
    obtain ⟨hw, hmoves, -⟩ := step_sound hostString iuAsize hv hallowed hstep
    refine ⟨hw, ?_⟩
    rcases hmoves with hsame | ⟨a, hpush⟩ | ⟨a, hpop⟩
    · exact ⟨l, hsame.trans hl⟩
    · exact ⟨a :: l, hpush.trans (congrArg (a :: ·) hl)⟩
    · rw [hl] at hpop
      cases l with
      | nil =>
        have hcount : base.length = w.active.length + 1 := congrArg List.length hpop
        omega
      | cons b l => exact ⟨l, (List.cons.inj hpop).2.symm⟩

theorem returns_active {s' : State A} {parameters : List IrType} {jb : ℕ} (hs : Sound s)
    (hreturns : Returns iuAsize hostString s s' parameters jb) : Sound s' ∧ s'.active = s.active := by
  rcases hreturns with ⟨r, hcall⟩ | ⟨t, u, act, r, hcall, hinside, hlen, hending, hstep⟩
  · obtain ⟨hs', hmove⟩ := vmirVmFunctionCall_sound iuAsize hs parameters jb (Except.ok.inj hcall)
    exact ⟨hs', hmove.elim (fun h => absurd h.1 nofun) fun h => h.2⟩
  · obtain ⟨ht, hmove⟩ := vmirVmFunctionCall_sound iuAsize hs parameters jb (Except.ok.inj hcall)
    have habove : ∃ l, t.active = l ++ s.active := by
      rcases hmove with ⟨-, a, hpush⟩ | ⟨hne, -⟩
      · exact ⟨[a], hpush⟩
      · exact absurd rfl hne
    obtain ⟨hu, l, hl⟩ := inside_sound hinside ht habove
    have hactive : u.active ≠ [] := by
      intro hnil
      rw [hnil] at hlen
      exact absurd hlen (Nat.succ_ne_zero _).symm
    have hallowed : Allowed u act := by
      cases act with
      | bodyReturn q | vmStop reason code => exact hactive
      | call parameters jb | malloc size | free addr => exact hending.elim
    obtain ⟨hs', -, hpop⟩ := step_sound hostString iuAsize hu hallowed hstep
    obtain ⟨a, hpop⟩ := hpop hending
    refine ⟨hs', ?_⟩
    -- the call's own activation is the only one above those of `s`
    have hone : l.length = 1 := by
      rw [hl, List.length_append] at hlen
      omega
    obtain ⟨b, rfl⟩ := List.length_eq_one_iff.mp hone
    rw [hl] at hpop
    exact (List.cons.inj hpop).2.symm

/-- In every run the calls own their stacks, and a call leaves the buffer that it found. The innermost
call is the one that ends, and its block is stashed or freed. With no call active at most one block
is left, the stashed one. -/
theorem stacks_owned (hs : Reach iuAsize hostString s) :
    OwnStacks iuAsize hostString s
      ∧ EndsInnermost hostString s
      ∧ (s.active = [] → blocks s = stashed s ∧ (stashed s).length ≤ 1)
      ∧ ∀ s' parameters jb, Returns iuAsize hostString s s' parameters jb →
        s'.active = s.active ∧ s'.iuErrJmpbuf = s.iuErrJmpbuf := by
  have hsound := reach_sound hs
  refine ⟨⟨?_, hsound.nodup, hsound.accounted, hsound.installed, ?_⟩, endsInnermost hostString hsound,
    ?_, ?_⟩
  · exact (hsound.nodup.of_append_left).of_append_left
  · exact fun act hallowed hlog => step_answers hostString iuAsize hsound hallowed hlog
  · intro hidle
    refine ⟨?_, ?_⟩
    · unfold blocks inUse
      rw [hidle]
      rfl
    · unfold stashed
      split <;> simp
  · intro s' parameters jb hreturns
    obtain ⟨hsound', hactive⟩ := returns_active hsound hreturns
    refine ⟨hactive, ?_⟩
    rw [hsound'.installed, hsound.installed, hactive]

/-! ## A call within a call -/

def smallBuild : Allocator := firstFit 4096 65536 (fun _ _ => 0) smallRegion (by decide)

def smallStack : smallBuild.Request := ⟨4096, Nat.lt_of_sub_pos (by decide)⟩

def smallUnit : State smallBuild :=
  ⟨vmirHeapInit 4096 (fun _ _ => 0) 65536 (fun _ => 0), 0, none, 0, [], [], [], []⟩

theorem smallUnit_reach : Reach smallStack (fun _ => false) smallUnit := by
  refine Reach.loaded ⟨[], init_serves smallRegion _, fun p => ⟨?_, nofun⟩⟩ List.nodup_nil
  rintro ⟨b, hb, -⟩
  exact absurd hb List.not_mem_nil

/-- An external function that was called calls back. -/
def nestedCalls : State smallBuild :=
  (vmirVmFunctionCall smallStack (vmirVmFunctionCall smallStack smallUnit [] 1).1 [.int32] 2).1

theorem nestedCalls_reach : Reach smallStack (fun _ => false) nestedCalls := by
  have hcall : ∀ {s : State smallBuild}, Reach smallStack (fun _ => false) s → ∀ params n,
      Reach smallStack (fun _ => false) (vmirVmFunctionCall smallStack s params n).1 :=
    fun h params n => @Reach.step _ _ _ _ _ h (.call params n) trivial _ rfl
  exact hcall (hcall smallUnit_reach [] 1) [.int32] 2

/-- The inner call of two is stopped: its block is stashed, and the outer call's buffer installed. -/
theorem stacks_owned_nested : inUse nestedCalls = [8264, 4136]
    ∧ OwnStacks smallStack (fun _ => false) nestedCalls
    ∧ ∃ s', vmStop (fun _ => false) nestedCalls 1 7 = .ok (s', some 1)
      ∧ inUse s' = [4136] ∧ s'.iuStackStash = 8264 ∧ s'.iuErrJmpbuf = some 1 := by
  obtain ⟨howned, hends, -⟩ := stacks_owned nestedCalls_reach
  obtain ⟨s', hended, hstop⟩ := (hends _ _ rfl).2 1 7
  refine ⟨by decide, howned, s', hstop, ?_, ?_, hended.restored⟩
  · unfold inUse
    rw [hended.active]
    decide
  · rcases hended.kept with ⟨-, hstash, -⟩ | ⟨hstash, -⟩
    · exact hstash
    · exact absurd rfl hstash

end Vmir.StackOwnership
