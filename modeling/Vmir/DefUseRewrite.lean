import Vmir.DefUseStart
import Vmir.DefUsePasses

set_option autoImplicit false

/-!
# Moves, calls and aggregates

The passes from the exit from SSA form to the legalizing of instructions. What they make is bound as
it is made, except for the stores behind the first that an aggregate is split into.
-/
namespace Vmir.DefUseRewrite
open Ir IrTypes DefUse DefUseBinding DefUseCombine DefUsePasses ProgramText
open DeadCode (operands)

/-- The values stay, others may be new, and output links are kept. -/
structure Frame (f g : Function) : Prop where
  length : f.iu.values.length ≤ g.iu.values.length
  classes : ∀ v < f.iu.values.length, classOf g v = classOf f v
  outputs : ∀ k ∈ f.links, k.relation = .output → k ∈ g.links
  next : f.nextRef ≤ g.nextRef
  elements : g.elements = f.elements

structure Grows (f g : Function) : Prop extends Frame f g where
  inputs : ∀ k ∈ f.links, k.relation = .input → k ∈ g.links

def LiveElements (f : Function) : Prop := ∀ e ∈ f.elements, ∀ vt ∈ e.2, Alive f vt.value

section
variable {f g : Function}

theorem Frame.refl (f : Function) : Frame f f :=
  ⟨Nat.le_refl _, fun _ _ => rfl, fun _ hk _ => hk, Nat.le_refl _, rfl⟩

theorem Frame.trans {g' : Function} (h : Frame f g) (h' : Frame g g') : Frame f g' := by
  constructor
  · exact h.length.trans h'.length
  · intro v hv
    rw [h'.classes v (Nat.lt_of_lt_of_le hv h.length), h.classes v hv]
  · exact fun k hk hrel => h'.outputs k (h.outputs k hk hrel) hrel
  · exact h.next.trans h'.next
  · exact h'.elements.trans h.elements

theorem Frame.alive (h : Frame f g) {v : ℕ} (hv : Alive f v) : Alive g v := by
  refine ⟨Nat.lt_of_lt_of_le hv.1 h.length, ?_⟩
  rw [h.classes v hv.1]
  exact hv.2

theorem Frame.temporary (h : Frame f g) {v : ℕ} (hv : Alive f v) :
    isTemporary g v = isTemporary f v := by
  unfold isTemporary
  rw [h.classes v hv.1]

theorem Frame.liveElements (h : Frame f g) (he : LiveElements f) : LiveElements g := by
  intro e hmem vt hvt
  rw [h.elements] at hmem
  exact h.alive (he e hmem vt hvt)

theorem Grows.refl (f : Function) : Grows f f := ⟨Frame.refl f, fun _ hk _ => hk⟩

theorem Grows.trans {g' : Function} (h : Grows f g) (h' : Grows g g') : Grows f g' :=
  ⟨h.toFrame.trans h'.toFrame, fun k hk hrel => h'.inputs k (h.inputs k hk hrel) hrel⟩

theorem Grows.links (h : Grows f g) {k : Link} (hk : k ∈ f.links) : k ∈ g.links := by
  cases hrel : k.relation with
  | input => exact h.inputs k hk hrel
  | output => exact h.outputs k hk hrel

theorem grows_of_iu (hiu : g.iu = f.iu) (hlinks : ∀ k ∈ f.links, k ∈ g.links)
    (hnext : f.nextRef ≤ g.nextRef) (helems : g.elements = f.elements) : Grows f g := by
  refine ⟨⟨?_, ?_, fun k hk _ => hlinks k hk, hnext, helems⟩, fun k hk _ => hlinks k hk⟩
  · rw [hiu]
  · intro v _
    unfold classOf
    rw [hiu]

theorem grows_create (f : Function) (place : Place) (anchor : ℕ) (i : Instr)
    (bs : List (Relation × ValueType)) : Grows f (create f place anchor i bs) := by
  obtain ⟨hiu, hnext, helems⟩ := create_eq (f := f) place anchor i bs
  refine grows_of_iu hiu (fun k hk => mem_links_create.mpr (Or.inl hk)) ?_ helems
  rw [hnext]
  exact Nat.le_succ _

theorem grows_set (f : Function) (r : ℕ) (i : Instr) : Grows f (setInstr f r i) :=
  grows_of_iu rfl (fun _ hk => hk) (Nat.le_refl _) rfl

theorem grows_bind (f : Function) (r : ℕ) (b : Relation × ValueType) :
    Grows f (bindValue r f b) := by
  obtain ⟨-, hiu, hnext, helems⟩ := bindValue_eq r f b
  exact grows_of_iu hiu (fun k hk => mem_links_bindValue.mpr (Or.inl hk)) (Nat.le_of_eq hnext.symm)
    helems

theorem grows_append (f : Function) (iv : Value) :
    Grows f { f with iu := { f.iu with values := f.iu.values ++ [iv] } } := by
  refine ⟨⟨?_, fun v hv => classOf_append hv, fun k hk _ => hk, Nat.le_refl _, rfl⟩,
    fun k hk _ => hk⟩
  change _ ≤ (f.iu.values ++ [iv]).length
  rw [List.length_append]
  exact Nat.le_add_right _ _

/-! ## Moves -/

theorem named_move {dest source : ValueType} {v : ℕ} (h : Named ⟨[dest], .move source⟩ v) :
    v = dest.value ∨ v = source.value := by
  rcases named_iff.mp h with ⟨vt, hvt, rfl⟩ | ⟨vt, hvt, rfl⟩
  · rw [List.mem_singleton.mp hvt]
    exact Or.inl rfl
  · rw [List.mem_singleton.mp hvt]
    exact Or.inr rfl

theorem insertMove_sound {s : Set ℕ} (h : Sound s f) {dest source : ValueType}
    (hdest : Alive f dest.value) (hsource : Alive f source.value) (before : ℕ) :
    Sound s (insertMove f dest source before) := by
  apply h.create
  · intro v hv
    rcases named_move hv with rfl | rfl
    · exact hdest
    · exact hsource
  · intro vt hvt
    rw [List.mem_singleton.mp hvt]
    exact List.mem_cons_self
  · intro vt hvt
    rw [List.mem_singleton.mp hvt]
    exact List.mem_cons_of_mem _ List.mem_cons_self

theorem insertMoves_sound {s : Set ℕ} {moves : List (ValueType × ValueType)} (before : ℕ)
    (h : Sound s f) (halive : ∀ m ∈ moves, Alive f m.1.value ∧ Alive f m.2.value) :
    Sound s (insertMoves f moves before) ∧ Grows f (insertMoves f moves before) := by
  unfold insertMoves
  induction moves generalizing f with
  | nil => exact ⟨h, Grows.refl f⟩
  | cons m moves ih =>
    obtain ⟨hdest, hsource⟩ := halive m List.mem_cons_self
    have hgrows : Grows f (insertMove f m.1 m.2 before) := grows_create f _ _ _ _
    obtain ⟨hsound, hgrows'⟩ := ih (insertMove_sound h hdest hsource before) fun m' hm' =>
      have hm := halive m' (List.mem_cons_of_mem _ hm')
      ⟨hgrows.alive hm.1, hgrows.alive hm.2⟩
    exact ⟨hsound, hgrows.trans hgrows'⟩

/-! ## Calls -/

/-- The value may be read by the instruction `r`. -/
def Fed (f : Function) (r : ℕ) (vt : ValueType) : Prop :=
  Alive f vt.value ∧ (isTemporary f vt.value = true → ⟨vt.value, r, .input⟩ ∈ f.links)

theorem Fed.grows {r : ℕ} {vt : ValueType} (h : Fed f r vt) (hg : Grows f g) : Fed g r vt := by
  refine ⟨hg.alive h.1, fun ht => hg.links (h.2 ?_)⟩
  rw [hg.temporary h.1] at ht
  exact ht

theorem fed_bind {r : ℕ} {vt : ValueType} (h : Alive f vt.value) :
    Fed (instrBindInput f vt r) r vt := by
  have hgrows : Grows f (instrBindInput f vt r) := grows_bind f r (.input, vt)
  refine ⟨hgrows.alive h, fun ht => ?_⟩
  rw [hgrows.temporary h] at ht
  exact (mem_links_bindValue (b := (.input, vt))).mpr (Or.inr ⟨rfl, fun _ => ht⟩)

theorem sound_bindInput {s : Set ℕ} {r : ℕ} (h : Sound s f) (hr : r < f.nextRef) (vt : ValueType) :
    Sound s (instrBindInput f vt r) := h.bind hr [(.input, vt)]

theorem allocCallArgs_grows (type n : ℕ) (f : Function) : Grows f (allocCallArgs type n f) := by
  induction n generalizing f with
  | zero => exact Grows.refl f
  | succ n ih => exact (grows_append f _).trans (ih _)

theorem allocCallArgs_length (type n : ℕ) (f : Function) :
    (allocCallArgs type n f).iu.values.length = f.iu.values.length + n := by
  induction n generalizing f with
  | zero => rfl
  | succ n ih =>
    change (allocCallArgs type n _).iu.values.length = _
    rw [ih]
    change (f.iu.values ++ [_]).length + n = _
    rw [List.length_append, List.length_singleton]
    omega

theorem allocCallArgs_sound {s : Set ℕ} (h : Sound s f) (type n : ℕ) :
    Sound s (allocCallArgs type n f) := by
  induction n generalizing f with
  | zero => exact h
  | succ n ih => exact ih (h.append _)

theorem allocCallArgs_alive (type n : ℕ) (f : Function) {v : ℕ} (hold : f.iu.values.length ≤ v)
    (hnew : v < f.iu.values.length + n) : Alive (allocCallArgs type n f) v := by
  induction n generalizing f with
  | zero => exact absurd hold (Nat.not_le_of_lt hnew)
  | succ n ih =>
    have hlen : (valueAllocTemporary f type).1.iu.values.length = f.iu.values.length + 1 :=
      List.length_append
    rcases Nat.eq_or_lt_of_le hold with heq | hlt
    · rw [← heq]
      exact (allocCallArgs_grows type n _).alive (alive_new nofun)
    · apply ih
      · rw [hlen]
        exact hlt
      · rw [hlen]
        omega

theorem valueRegframeSlots_ok {iu : IrUnit} {type slots : ℕ}
    (h : PrepareCall.valueRegframeSlots iu type = .ok slots) : slots = 1 ∨ slots = 2 := by
  unfold PrepareCall.valueRegframeSlots at h
  obtain ⟨it, -, h⟩ := bind_ok.mp h
  have hpure : ∀ n, (pure n : Except Fault ℕ) = .ok slots → n = slots :=
    fun n heq => Except.ok.inj heq
  split at h
  case h_10 bits =>
    have hbits := hpure _ h
    split at hbits
    · exact Or.inl hbits.symm
    · exact Or.inr hbits.symm
  case h_11 => cases h
  case h_8 | h_9 => exact Or.inr (hpure _ h).symm
  all_goals exact Or.inl (hpure _ h).symm

theorem prepareArg_ok {callargtype slots arg : ℕ} {a : PrepareCall.CallArg}
    {i : PrepareCall.ArgInstr} (hslots : slots = 1 ∨ slots = 2)
    (h : PrepareCall.prepareArg callargtype slots arg a = .ok i) :
    operands (argInstr i).cls = [a.value]
      ∧ ∀ vt ∈ (argInstr i).rets, arg ≤ vt.value ∧ vt.value < arg + slots := by
  have hsingle : ∀ type, ∀ vt ∈ [(⟨arg, type⟩ : ValueType)],
      arg ≤ vt.value ∧ vt.value < arg + slots := by
    intro type vt hvt
    rw [List.mem_singleton.mp hvt]
    exact ⟨Nat.le_refl arg, Nat.lt_add_of_pos_right (by omega)⟩
  unfold PrepareCall.prepareArg at h
  split at h
  · split at h
    · cases h
      exact ⟨rfl, hsingle _⟩
    · cases h
  · split at h
    · rename_i htwo
      cases h
      refine ⟨rfl, fun vt hvt => ?_⟩
      rcases List.mem_cons.mp hvt with rfl | hvt
      · exact ⟨Nat.le_succ arg, Nat.add_lt_add_left (by omega) arg⟩
      · exact hsingle _ vt hvt
    · cases h
      exact ⟨rfl, hsingle _⟩

/-- The loop of `prepare_call` for the call `r` of `f₀`; the temporaries of calls begin at `base`. -/
structure ArgLoop (f₀ : Function) (r base : ℕ) (callee : ValueType) (s : CallLoop) : Prop where
  sound : Sound {r} s.f
  frame : Frame f₀ s.f
  length : s.f.iu.values.length = base + s.numCallArgs
  args : ∀ v, base ≤ v → v < s.f.iu.values.length → Alive s.f v
  fed : ∀ vt ∈ callee :: s.argv.map Arg.value, Fed s.f r vt

theorem ArgLoop.next {f₀ : Function} {r base callargtype : ℕ} {callee : ValueType}
    {s s' : CallLoop} {a : Arg} (h : ArgLoop f₀ r base callee s) (hr : r < f₀.nextRef)
    (ha : Alive f₀ a.value.value) (hs : prepareArg r base callargtype s a = .ok s') :
    ArgLoop f₀ r base callee s' := by
  unfold prepareArg at hs
  obtain ⟨slots, hslots, hs⟩ := bind_ok.mp hs
  obtain ⟨i, hi, hs⟩ := bind_ok.mp hs
  cases hs
  obtain ⟨hops, hrets⟩ := prepareArg_ok (valueRegframeSlots_ok hslots) hi
  have hpos := valueRegframeSlots_ok hslots
  let more := s.totalSlots + slots - s.numCallArgs
  let f₁ := allocCallArgs callargtype more s.f
  have hgrows₁ : Grows s.f f₁ := allocCallArgs_grows callargtype more s.f
  have hlen₁ : f₁.iu.values.length = base + max s.numCallArgs (s.totalSlots + slots) := by
    have hlen : f₁.iu.values.length = s.f.iu.values.length + more :=
      allocCallArgs_length callargtype more s.f
    rw [hlen, h.length]
    omega
  have hargs₁ : ∀ v, base ≤ v → v < f₁.iu.values.length → Alive f₁ v := by
    intro v hv hlt
    rcases Nat.lt_or_ge v s.f.iu.values.length with hold | hnew
    · exact hgrows₁.alive (h.args v hv hold)
    · apply allocCallArgs_alive callargtype more s.f hnew
      rw [← allocCallArgs_length callargtype more s.f]
      exact hlt
  have ha₁ : Alive f₁ a.value.value := hgrows₁.alive (h.frame.alive ha)
  -- the instruction in front of the call
  let binds := inputs [a.value] ++ outputs (argInstr i).rets
  let f₂ := create f₁ .before r (argInstr i) binds
  have hgrows₂ : Grows f₁ f₂ := grows_create f₁ .before r (argInstr i) binds
  have hsound₂ : Sound {r} f₂ := by
    apply (allocCallArgs_sound h.sound callargtype more).create
    · intro v hv
      rcases named_iff.mp hv with ⟨vt, hvt, rfl⟩ | ⟨vt, hvt, rfl⟩
      · obtain ⟨hle, hlt⟩ := hrets vt hvt
        apply hargs₁
        · omega
        · rw [hlen₁]
          omega
      · rw [hops] at hvt
        rw [List.mem_singleton.mp hvt]
        exact ha₁
    · exact fun vt hvt => List.mem_append_right _ (List.mem_map_of_mem hvt)
    · intro vt hvt
      rw [hops] at hvt
      exact List.mem_append_left _ (List.mem_map_of_mem hvt)
  -- the argument of the call
  let arg : ValueType := ⟨base + s.totalSlots, a.value.type⟩
  let f₃ := instrBindInput f₂ arg r
  have hgrows₃ : Grows f₂ f₃ := grows_bind f₂ r (.input, arg)
  have hgrows : Grows s.f f₃ := (hgrows₁.trans hgrows₂).trans hgrows₃
  have hiu : f₃.iu = f₁.iu := by
    have hbind : f₃.iu = f₂.iu := (bindValue_eq r f₂ (.input, arg)).2.1
    exact hbind.trans (create_eq (f := f₁) .before r (argInstr i) binds).1
  have halive₂ : Alive f₂ arg.value := by
    apply hgrows₂.alive
    apply hargs₁
    · exact Nat.le_add_right _ _
    · rw [hlen₁]
      change base + s.totalSlots < _
      omega
  constructor
  · apply sound_bindInput hsound₂
    exact Nat.lt_of_lt_of_le hr (h.frame.next.trans (hgrows₁.trans hgrows₂).next)
  · exact h.frame.trans hgrows.toFrame
  · change f₃.iu.values.length = _
    rw [hiu]
    exact hlen₁
  · intro v hv hlt
    change v < f₃.iu.values.length at hlt
    rw [hiu] at hlt
    exact (hgrows₂.trans hgrows₃).alive (hargs₁ v hv hlt)
  · intro vt hvt
    change vt ∈ callee :: (s.argv ++ [{ a with value := arg }]).map Arg.value at hvt
    rw [List.map_append, ← List.cons_append] at hvt
    rcases List.mem_append.mp hvt with hvt | hvt
    · exact (h.fed vt hvt).grows hgrows
    · rw [List.mem_singleton.mp hvt]
      exact fed_bind halive₂

theorem callParts_some {cls : InstrClass} {callee : ValueType} {argv : List Arg}
    {withArgs : List Arg → InstrClass} (h : callParts cls = some (callee, argv, withArgs)) :
    operands cls = callee :: argv.map Arg.value
      ∧ ∀ argv', operands (withArgs argv') = callee :: argv'.map Arg.value := by
  unfold callParts at h
  split at h <;> cases h <;> exact ⟨rfl, fun _ => rfl⟩

/-- The loop of `prepare_calls`. -/
structure CallsLoop (f₀ : Function) (base : ℕ) (state : Function × ℕ) : Prop where
  sound : Sound ∅ state.1
  frame : Frame f₀ state.1
  length : state.1.iu.values.length = base + state.2
  args : ∀ v, base ≤ v → v < state.1.iu.values.length → Alive state.1 v

theorem CallsLoop.next {f₀ : Function} {base callargtype : ℕ} {state state' : Function × ℕ}
    {l : Linked} (h : CallsLoop f₀ base state) (hs₀ : Sound ∅ f₀) (hl : l ∈ instrs f₀)
    (hg : prepareCall base callargtype state l = .ok state') : CallsLoop f₀ base state' := by
  unfold prepareCall at hg
  cases hparts : callParts l.instr.cls with
  | none =>
    rw [hparts] at hg
    cases hg
    exact h
  | some parts =>
    obtain ⟨callee, argv, withArgs⟩ := parts
    rw [hparts] at hg
    obtain ⟨hops, hops'⟩ := callParts_some hparts
    obtain ⟨s, hloop, hg⟩ := bind_ok.mp hg
    have hr : l.ref < f₀.nextRef := hs₀.oldInstrs l hl
    have halive : ∀ vt ∈ callee :: argv.map Arg.value, Alive f₀ vt.value := by
      intro vt hvt
      rw [← hops] at hvt
      exact hs₀.alive l hl _ (named_operand hvt)
    -- the operands of the call are unbound, and the callee is bound again
    let f₁ := instrBindClearInputs state.1 l.ref
    have hframe₁ : Frame state.1 f₁ := by
      refine ⟨Nat.le_refl _, fun _ _ => rfl, fun k hk hrel => ?_, Nat.le_refl _, rfl⟩
      apply List.mem_filter.mpr ⟨hk, ?_⟩
      rw [decide_eq_true_eq, hrel]
      exact fun hand => by cases hand.2
    have hsound₁ : Sound {l.ref} f₁ := by
      apply (h.sound.unlink (r := l.ref) ?_ ?_).mono
      · intro r hmem
        exact hmem.resolve_right (Set.notMem_empty _)
      · exact fun k hk => (List.mem_filter.mp hk).1
      · intro k hk hne
        exact List.mem_filter.mpr ⟨hk, decide_eq_true fun hand => hne hand.1⟩
    let f₂ := instrBindInput f₁ callee l.ref
    have hgrows₂ : Grows f₁ f₂ := grows_bind f₁ l.ref (.input, callee)
    have hframe₂ : Frame f₀ f₂ := (h.frame.trans hframe₁).trans hgrows₂.toFrame
    have hiu₂ : f₂.iu = state.1.iu := (bindValue_eq l.ref f₁ (.input, callee)).2.1
    have hstart : ArgLoop f₀ l.ref base callee ⟨f₂, 0, state.2, 0, []⟩ := by
      constructor
      · apply sound_bindInput hsound₁
        exact Nat.lt_of_lt_of_le hr (h.frame.trans hframe₁).next
      · exact hframe₂
      · change f₂.iu.values.length = _
        rw [hiu₂]
        exact h.length
      · intro v hv hlt
        change v < f₂.iu.values.length at hlt
        rw [hiu₂] at hlt
        exact (hframe₁.trans hgrows₂.toFrame).alive (h.args v hv hlt)
      · intro vt hvt
        rw [List.mem_singleton.mp hvt]
        exact fed_bind ((h.frame.trans hframe₁).alive (halive callee List.mem_cons_self))
    have hrun : ∀ (as : List Arg) (s₁ : CallLoop), (∀ a ∈ as, Alive f₀ a.value.value) →
        ArgLoop f₀ l.ref base callee s₁ →
        as.foldlM (prepareArg l.ref base callargtype) s₁ = .ok s →
        ArgLoop f₀ l.ref base callee s := by
      intro as
      induction as with
      | nil =>
        intro s₁ _ hs₁ heq
        cases heq
        exact hs₁
      | cons a as ih =>
        intro s₁ hmem hs₁ heq
        rw [List.foldlM_cons] at heq
        obtain ⟨s₂, hs₂, heq⟩ := bind_ok.mp heq
        exact ih s₂ (fun a' ha' => hmem a' (List.mem_cons_of_mem _ ha'))
          (hs₁.next hr (hmem a List.mem_cons_self) hs₂) heq
    have hend := hrun argv _
      (fun a ha => halive _ (List.mem_cons_of_mem _ (List.mem_map_of_mem ha))) hstart hloop
    -- the call with its new arguments
    let i : Instr := ⟨l.instr.rets, withArgs s.argv⟩
    let f₃ := setInstr s.f l.ref i
    have hgrows₃ : Grows s.f f₃ := grows_set s.f l.ref i
    have hsound₃ : Sound ∅ f₃ := by
      apply (hend.sound.set l.ref ?_).close
      · intro l' hl' _ _
        rcases mem_instrs_set hl' with ⟨rfl, -⟩ | ⟨hl', hne⟩
        · constructor
          · intro vt hvt ht
            rw [hops'] at hvt
            exact (hend.fed vt hvt).2 ht
          · intro vt hvt ht
            have hret : vt ∈ l.instr.rets := hvt
            have hlive : Alive f₀ vt.value := hs₀.alive l hl _ (named_ret hret)
            apply hend.frame.outputs
            · apply (hs₀.bound l hl (Set.notMem_empty _)).outputs vt hret
              rw [← hend.frame.temporary hlive]
              exact ht
            · rfl
        · exact (hend.sound.bound l' hl' hne).mono (fun k hk _ => hk) fun v _ ht => ht
      · intro v hv
        rcases named_iff.mp hv with ⟨vt, hvt, rfl⟩ | ⟨vt, hvt, rfl⟩
        · exact hend.frame.alive (hs₀.alive l hl _ (named_ret hvt))
        · rw [hops'] at hvt
          exact (hend.fed vt hvt).1
    split at hg
    · cases hg
      have hgrows₄ := grows_create f₃ .after l.ref ⟨[], .stackshrink s.stackgrowth.toNat⟩ []
      constructor
      · apply hsound₃.create
        · intro v hv
          rcases named_iff.mp hv with ⟨vt, hvt, -⟩ | ⟨vt, hvt, -⟩
          · exact absurd hvt List.not_mem_nil
          · exact absurd hvt List.not_mem_nil
        · exact fun vt hvt => absurd hvt List.not_mem_nil
        · exact fun vt hvt => absurd hvt List.not_mem_nil
      · exact (hend.frame.trans hgrows₃.toFrame).trans hgrows₄.toFrame
      · exact hend.length
      · exact fun v hv hlt => (hgrows₃.trans hgrows₄).alive (hend.args v hv hlt)
    · cases hg
      exact ⟨hsound₃, hend.frame.trans hgrows₃.toFrame, hend.length,
        fun v hv hlt => hgrows₃.alive (hend.args v hv hlt)⟩

theorem prepareCalls_sound {callargtype : ℕ} (h : Sound ∅ f)
    (hg : prepareCalls callargtype f = .ok g) : Sound ∅ g ∧ Frame f g := by
  unfold prepareCalls at hg
  obtain ⟨state, hloop, hg⟩ := bind_ok.mp hg
  cases hg
  have hrun : ∀ (ls : List Linked) (state₁ : Function × ℕ), (∀ l ∈ ls, l ∈ instrs f) →
      CallsLoop f f.iu.values.length state₁ →
      ls.foldlM (prepareCall f.iu.values.length callargtype) state₁ = .ok state →
      CallsLoop f f.iu.values.length state := by
    intro ls
    induction ls with
    | nil =>
      intro state₁ _ h₁ heq
      cases heq
      exact h₁
    | cons l ls ih =>
      intro state₁ hmem h₁ heq
      rw [List.foldlM_cons] at heq
      obtain ⟨state₂, hstate₂, heq⟩ := bind_ok.mp heq
      exact ih state₂ (fun l' hl' => hmem l' (List.mem_cons_of_mem _ hl'))
        (h₁.next h (hmem l List.mem_cons_self) hstate₂) heq
  have hend := hrun (instrs f) (f, 0) (fun _ hl => hl)
    ⟨h, Frame.refl f, rfl, fun v hv hlt => absurd hlt (Nat.not_lt_of_le hv)⟩ hloop
  exact ⟨hend.sound, hend.frame⟩

end

end Vmir.DefUseRewrite
