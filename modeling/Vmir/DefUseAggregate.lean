import Vmir.DefUseRewrite

set_option autoImplicit false

/-!
# Aggregates and loads

The elements of an aggregate get values of their own, the instructions that name the aggregate name
these instead, one link of the aggregate after the other, and the aggregate is given up.
-/
namespace Vmir.DefUseAggregate
open Ir IrTypes DefUse DefUseBinding DefUseCombine DefUsePasses DefUseRewrite ProgramText
open DeadCode (operands)

section
variable {f g : Function}

theorem elementsOf_alive (he : LiveElements f) {v : ℕ} :
    ∀ vt ∈ elementsOf f v, Alive f vt.value := by
  intro vt hvt
  unfold elementsOf at hvt
  cases hfind : f.elements.find? (fun e => e.1 = v) with
  | none =>
    rw [hfind] at hvt
    exact absurd hvt List.not_mem_nil
  | some e =>
    rw [hfind] at hvt
    exact he e (List.mem_of_find?_eq_some hfind) vt hvt

/-! ## New values -/

theorem allocTemporaries_sound {s : Set ℕ} (es : List StructElement) (h : Sound s f) :
    Sound s (allocTemporaries es f).1 ∧ Grows f (allocTemporaries es f).1
      ∧ ∀ vt ∈ (allocTemporaries es f).2, Alive (allocTemporaries es f).1 vt.value := by
  induction es generalizing f with
  | nil => exact ⟨h, Grows.refl f, fun vt hvt => absurd hvt List.not_mem_nil⟩
  | cons e es ih =>
    have hgrows := grows_append f ⟨.temporary, e.type⟩
    obtain ⟨hsound, hgrows', halive⟩ := ih (h.append ⟨.temporary, e.type⟩)
    refine ⟨hsound, hgrows.trans hgrows', fun vt hvt => ?_⟩
    rcases List.mem_cons.mp hvt with rfl | hvt
    · exact hgrows'.alive (alive_new nofun)
    · exact halive vt hvt

theorem allocElements_sound {fuel i : ℕ} (h : Sound ∅ f) (he : LiveElements f)
    (hg : allocElements fuel i f = .ok g) : Sound ∅ g ∧ LiveElements g := by
  induction fuel generalizing f i with
  | zero => cases hg
  | succ fuel ih =>
    unfold allocElements at hg
    split at hg
    · cases hg
      exact ⟨h, he⟩
    · rename_i iv _
      split at hg
      · obtain ⟨type, -, hg⟩ := bind_ok.mp hg
        split at hg
        · rename_i s
          obtain ⟨hsound, hgrows, halive⟩ := allocTemporaries_sound s.elements h
          refine ih ?_ ?_ hg
          · exact ⟨fun l hl href => (hsound.bound l hl href).mono (fun _ hk _ => hk)
              fun _ _ ht => ht, hsound.alive, hsound.refs, hsound.oldInstrs, hsound.oldLinks⟩
          intro e hmem vt hvt
          rcases List.mem_cons.mp hmem with rfl | hmem
          · exact halive vt hvt
          · exact hgrows.liveElements he e hmem vt hvt
        · exact ih h he hg
      · exact ih h he hg

/-! ## One turn for a link -/

theorem Sound.rewrite (h : Sound ∅ f) {ii : Linked} (hii : ii ∈ instrs f) {i : Instr}
    (halive : ∀ v, Named i v → Alive f v) (hbbs : g.bbs = (setInstr f ii.ref i).bbs)
    (hiu : g.iu = f.iu) (hnext : g.nextRef = f.nextRef)
    (hkeep : ∀ k ∈ f.links, k.instr ≠ ii.ref → k ∈ g.links)
    (hnew : ∀ k ∈ g.links, k ∈ f.links ∨ k.instr = ii.ref)
    (hbound : Bound g ⟨ii.ref, i⟩) : Sound ∅ g := by
  have hset := h.set ii.ref halive
  have hinstrs : instrs g = instrs (setInstr f ii.ref i) := by
    unfold instrs
    rw [hbbs]
  constructor
  · intro l hl _
    rw [hinstrs] at hl
    rcases mem_instrs_set hl with ⟨rfl, -⟩ | ⟨hl, hne⟩
    · exact hbound
    · apply (h.bound l hl (Set.notMem_empty _)).mono
      · exact fun k hk href => hkeep k hk (href ▸ hne)
      · intro v _ ht
        rw [isTemporary_of_iu hiu] at ht
        exact ht
  · intro l hl v hv
    rw [hinstrs] at hl
    unfold Alive classOf
    rw [hiu]
    exact hset.alive l hl v hv
  · rw [hinstrs]
    exact hset.refs
  · rw [hinstrs, hnext]
    exact hset.oldInstrs
  · intro k hk
    rw [hnext]
    rcases hnew k hk with hk | href
    · exact h.oldLinks k hk
    · rw [href]
      exact h.oldInstrs ii hii

theorem bindAll_eq (f : Function) (values : List ValueType) (r : ℕ) (relation : Relation) :
    (bindAll f values r relation).bbs = f.bbs ∧ (bindAll f values r relation).iu = f.iu
      ∧ (bindAll f values r relation).nextRef = f.nextRef
      ∧ (bindAll f values r relation).elements = f.elements := by
  induction values generalizing f with
  | nil => exact ⟨rfl, rfl, rfl, rfl⟩
  | cons v values ih => exact ih (valueBindInstr f v.value r relation)

theorem mem_links_bindAll {values : List ValueType} {r : ℕ} {relation : Relation} {k : Link} :
    k ∈ (bindAll f values r relation).links
      ↔ k ∈ f.links ∨ ∃ v ∈ values, k = ⟨v.value, r, relation⟩ := by
  induction values generalizing f with
  | nil =>
    constructor
    · exact Or.inl
    · rintro (hk | ⟨v, hv, -⟩)
      · exact hk
      · exact absurd hv List.not_mem_nil
  | cons v values ih =>
    change k ∈ (bindAll (valueBindInstr f v.value r relation) values r relation).links ↔ _
    rw [ih]
    change k ∈ _ :: f.links ∨ _ ↔ _
    rw [List.mem_cons, List.exists_mem_cons_iff, or_assoc, or_left_comm]

theorem LiveElements.of_eq (he : LiveElements f) (hiu : g.iu = f.iu)
    (helems : g.elements = f.elements) : LiveElements g := by
  intro e hmem vt hvt
  unfold Alive classOf
  rw [hiu]
  exact he e (helems ▸ hmem) vt hvt

section
variable {ivi : Link} {ii : Linked}

theorem erase_sound (h : Sound ∅ f) (ivi : Link) :
    Sound {ivi.instr} { f with links := f.links.erase ivi } := by
  apply (h.unlink (r := ivi.instr) ?_ ?_).mono
  · intro r hr
    exact hr.resolve_right (Set.notMem_empty _)
  · exact fun k hk => List.mem_of_mem_erase hk
  · intro k hk hne
    exact (List.mem_erase_of_ne fun heq => hne (congrArg Link.instr heq)).mpr hk

theorem destroy_alone {r : ℕ} (h : Sound {r} f) : Sound ∅ (instrDestroy f r) := by
  have hdestroy := h.destroy r
  rw [Set.sdiff_self] at hdestroy
  exact hdestroy

theorem elementsOf_mem_zip {xs ys : List ValueType} (hx : ∀ vt ∈ xs, Alive f vt.value)
    (hy : ∀ vt ∈ ys, Alive f vt.value) :
    ∀ m ∈ xs.zip ys, Alive f m.1.value ∧ Alive f m.2.value :=
  fun _ hm => ⟨hx _ (List.of_mem_zip hm).1, hy _ (List.of_mem_zip hm).2⟩

theorem move_sound (h : Sound {ii.ref} f) (he : LiveElements f) {value : ValueType}
    (hg : legalizeAggregateMove f ii value = .ok g) :
    Sound ∅ g ∧ LiveElements g := by
  unfold legalizeAggregateMove at hg
  obtain ⟨ret, -, hg⟩ := bind_ok.mp hg
  dsimp only at hg
  split at hg
  · cases hg
    obtain ⟨hsound, hgrows⟩ := insertMoves_sound ii.ref h
      (elementsOf_mem_zip (elementsOf_alive he (v := ret.value))
        (elementsOf_alive he (v := value.value)))
    exact ⟨destroy_alone hsound, hgrows.liveElements he⟩
  · cases hg

theorem selectElements_sound {s : Set ℕ} (r : ℕ) (pred : ValueType)
    (es : List (ValueType × ValueType × ValueType)) (h : Sound s f)
    (hpred : Alive f pred.value)
    (halive : ∀ e ∈ es, Alive f e.1.value ∧ Alive f e.2.1.value ∧ Alive f e.2.2.value) :
    Sound s (es.foldl (selectElement r pred) f) ∧ Grows f (es.foldl (selectElement r pred) f) := by
  induction es generalizing f with
  | nil => exact ⟨h, Grows.refl f⟩
  | cons e es ih =>
    obtain ⟨hd, ht, hf⟩ := halive e List.mem_cons_self
    have hgrows : Grows f (selectElement r pred f e) := grows_create f _ _ _ _
    have hsound : Sound s (selectElement r pred f e) := by
      apply h.create
      · intro v hv
        rcases named_iff.mp hv with ⟨vt, hvt, rfl⟩ | ⟨vt, hvt, rfl⟩
        · rw [List.mem_singleton.mp hvt]
          exact hd
        · rcases List.mem_cons.mp hvt with rfl | hvt
          · exact ht
          · rcases List.mem_cons.mp hvt with rfl | hvt
            · exact hf
            · rw [List.mem_singleton.mp hvt]
              exact hpred
      · exact fun vt hvt => List.mem_append_left _ (List.mem_map_of_mem hvt)
      · intro vt hvt
        apply List.mem_append_right _ (List.mem_map_of_mem _)
        rcases List.mem_cons.mp hvt with rfl | hvt
        · exact List.mem_cons_of_mem _ List.mem_cons_self
        · rcases List.mem_cons.mp hvt with rfl | hvt
          · exact List.mem_cons_of_mem _ (List.mem_cons_of_mem _ List.mem_cons_self)
          · rw [List.mem_singleton.mp hvt]
            exact List.mem_cons_self
    obtain ⟨hsound', hgrows'⟩ := ih hsound (hgrows.alive hpred) fun e' he' =>
      have hm := halive e' (List.mem_cons_of_mem _ he')
      ⟨hgrows.alive hm.1, hgrows.alive hm.2.1, hgrows.alive hm.2.2⟩
    exact ⟨hsound', hgrows.trans hgrows'⟩

theorem select_sound (h : Sound {ii.ref} f) (he : LiveElements f)
    {trueValue falseValue pred : ValueType} (hpred : Alive f pred.value)
    (hg : legalizeAggregateSelect f ii trueValue falseValue pred = .ok g) :
    Sound ∅ g ∧ LiveElements g := by
  unfold legalizeAggregateSelect at hg
  obtain ⟨ret, -, hg⟩ := bind_ok.mp hg
  dsimp only at hg
  split at hg
  · cases hg
    obtain ⟨hsound, hgrows⟩ := selectElements_sound ii.ref pred ((elementsOf f ret.value).zip
        ((elementsOf f trueValue.value).zip (elementsOf f falseValue.value))) h hpred (by
      intro e hmem
      obtain ⟨hd, hs⟩ := List.of_mem_zip hmem
      obtain ⟨ht, hf⟩ := List.of_mem_zip hs
      exact ⟨elementsOf_alive he _ hd, elementsOf_alive he _ ht, elementsOf_alive he _ hf⟩)
    exact ⟨destroy_alone hsound, hgrows.liveElements he⟩
  · cases hg

theorem insertElement_sound {s : Set ℕ} (ins index n : ℕ) {replacement d : ValueType}
    {sv : List ValueType} (h : Sound s f) (hreplacement : Alive f replacement.value)
    (hsv : ∀ vt ∈ sv, Alive f vt.value) (hd : Alive f d.value) :
    Sound s (insertElement ins index replacement sv f n d)
      ∧ Grows f (insertElement ins index replacement sv f n d) := by
  unfold insertElement
  split
  · exact ⟨insertMove_sound h hd hreplacement ins, grows_create f _ _ _ _⟩
  · split
    · rename_i source hsource
      exact ⟨insertMove_sound h hd (hsv source (List.mem_of_getElem? hsource)) ins,
        grows_create f _ _ _ _⟩
    · have hgrows := grows_append f ⟨.constant 0, d.type⟩
      refine ⟨?_, hgrows.trans (grows_create _ _ _ _ _)⟩
      have hzero : ValueClass.constant 0 ≠ .dead := nofun
      exact insertMove_sound (h.append ⟨.constant 0, d.type⟩) (hgrows.alive hd)
        (alive_new hzero) ins

theorem insertElements_sound {s : Set ℕ} {ins index n : ℕ} {replacement : ValueType}
    {sv dv : List ValueType} (h : Sound s f) (hreplacement : Alive f replacement.value)
    (hsv : ∀ vt ∈ sv, Alive f vt.value) (hdv : ∀ vt ∈ dv, Alive f vt.value) :
    Sound s (insertElements ins index replacement sv n dv f)
      ∧ Grows f (insertElements ins index replacement sv n dv f) := by
  induction dv generalizing f n with
  | nil => exact ⟨h, Grows.refl f⟩
  | cons d dv ih =>
    obtain ⟨hsound, hgrows⟩ := insertElement_sound ins index n h hreplacement hsv
      (hdv d List.mem_cons_self)
    obtain ⟨hsound', hgrows'⟩ := ih (n := n + 1) hsound (hgrows.alive hreplacement)
      (fun vt hvt => hgrows.alive (hsv vt hvt))
      (fun vt hvt => hgrows.alive (hdv vt (List.mem_cons_of_mem _ hvt)))
    exact ⟨hsound', hgrows.trans hgrows'⟩

theorem insertval_sound (h : Sound {ii.ref} f) (he : LiveElements f)
    {src replacement : ValueType} {indicies : List ℕ} (hreplacement : Alive f replacement.value)
    (hg : legalizeAggregateInsertval f ii src replacement indicies = .ok g) :
    Sound ∅ g ∧ LiveElements g := by
  unfold legalizeAggregateInsertval at hg
  split at hg
  · obtain ⟨ret, -, hg⟩ := bind_ok.mp hg
    dsimp only at hg
    split at hg
    · cases hg
      obtain ⟨hsound, hgrows⟩ := insertElements_sound h hreplacement
        (fun vt hvt => elementsOf_alive he (v := src.value) vt hvt)
        (fun vt hvt => elementsOf_alive he (v := ret.value) vt hvt)
      exact ⟨destroy_alone hsound, hgrows.liveElements he⟩
    · cases hg
  · cases hg

theorem output_sound (h : Sound ∅ f) (hii : ii ∈ instrs f) (href : ii.ref = ivi.instr)
    (hrel : ivi.relation = .output) {values : List ValueType}
    (hvalues : ∀ vt ∈ values, Alive f vt.value) :
    Sound ∅ (bindAll (setInstr { f with links := f.links.erase ivi } ii.ref
      ⟨values, ii.instr.cls⟩) values ii.ref .output) := by
  obtain ⟨hbbs, hiu, hnext, -⟩ := bindAll_eq (setInstr { f with links := f.links.erase ivi } ii.ref
      ⟨values, ii.instr.cls⟩) values ii.ref .output
  apply Sound.rewrite h hii ?_ hbbs hiu hnext
  · intro k hk hne
    apply mem_links_bindAll.mpr (Or.inl _)
    exact (List.mem_erase_of_ne fun heq => hne ((congrArg Link.instr heq).trans href.symm)).mpr hk
  · intro k hk
    rcases mem_links_bindAll.mp hk with hk | ⟨v, -, rfl⟩
    · exact Or.inl (List.mem_of_mem_erase hk)
    · exact Or.inr rfl
  · constructor
    · intro vt hvt ht
      rw [isTemporary_of_iu hiu] at ht
      apply mem_links_bindAll.mpr (Or.inl _)
      apply (List.mem_erase_of_ne _).mpr
      · exact (h.bound ii hii (Set.notMem_empty _)).inputs vt hvt ht
      · rintro rfl
        cases hrel
    · exact fun vt hvt _ => mem_links_bindAll.mpr (Or.inr ⟨vt, hvt, rfl⟩)
  · intro v hv
    rcases named_iff.mp hv with ⟨vt, hvt, rfl⟩ | ⟨vt, hvt, rfl⟩
    · exact hvalues vt hvt
    · exact h.alive ii hii _ (named_operand hvt)

theorem input_sound (h : Sound ∅ f) (hii : ii ∈ instrs f)
    (href : ii.ref = ivi.instr) (hrel : ivi.relation = .input)
    {values : List ValueType} (hvalues : ∀ vt ∈ values, Alive f vt.value) {cls : InstrClass}
    (hcls : operands cls = values) :
    Sound ∅ (bindAll (setInstr { f with links := f.links.erase ivi } ii.ref
      ⟨ii.instr.rets, cls⟩) values ii.ref .input) := by
  obtain ⟨hbbs, hiu, hnext, -⟩ := bindAll_eq (setInstr { f with links := f.links.erase ivi } ii.ref
      ⟨ii.instr.rets, cls⟩) values ii.ref .input
  apply Sound.rewrite h hii ?_ hbbs hiu hnext
  · intro k hk hne
    apply mem_links_bindAll.mpr (Or.inl _)
    exact (List.mem_erase_of_ne fun heq => hne ((congrArg Link.instr heq).trans href.symm)).mpr hk
  · intro k hk
    rcases mem_links_bindAll.mp hk with hk | ⟨v, -, rfl⟩
    · exact Or.inl (List.mem_of_mem_erase hk)
    · exact Or.inr rfl
  · constructor
    · intro vt hvt _
      exact mem_links_bindAll.mpr (Or.inr ⟨vt, hcls ▸ hvt, rfl⟩)
    · intro vt hvt ht
      rw [isTemporary_of_iu hiu] at ht
      apply mem_links_bindAll.mpr (Or.inl _)
      apply (List.mem_erase_of_ne _).mpr
      · exact (h.bound ii hii (Set.notMem_empty _)).outputs vt hvt ht
      · rintro rfl
        cases hrel
  · intro v hv
    rcases named_iff.mp hv with ⟨vt, hvt, rfl⟩ | ⟨vt, hvt, rfl⟩
    · exact h.alive ii hii _ (named_ret hvt)
    · exact hvalues vt (hcls ▸ hvt)

theorem legalizeInput_sound (h : Sound ∅ f) (he : LiveElements f) (hii : ii ∈ instrs f)
    (href : ii.ref = ivi.instr) (hrel : ivi.relation = .input) {values : List ValueType}
    (hvalues : ∀ vt ∈ values, Alive f vt.value)
    (hstore : ∀ ptr value immediateOffset, ii.instr.cls ≠ .store ptr value immediateOffset)
    (hg : legalizeInput { f with links := f.links.erase ivi } ii values = .ok g) :
    Sound ∅ g ∧ LiveElements g := by
  have hbind : ∀ vs cls, (∀ vt ∈ vs, Alive f vt.value) → operands cls = vs →
      g = bindAll (setInstr { f with links := f.links.erase ivi } ii.ref ⟨ii.instr.rets, cls⟩)
        vs ii.ref .input → Sound ∅ g ∧ LiveElements g := by
    rintro vs cls hvs hcls rfl
    obtain ⟨-, hiu, -, helems⟩ := bindAll_eq (setInstr { f with links := f.links.erase ivi }
      ii.ref ⟨ii.instr.rets, cls⟩) vs ii.ref .input
    exact ⟨input_sound h hii href hrel hvs hcls, LiveElements.of_eq he hiu helems⟩
  unfold legalizeInput at hg
  split at hg
  · split at hg
    · split at hg
      · rename_i v hv
        cases hg
        apply hbind [v] (.move v) _ rfl rfl
        intro vt hvt
        rw [List.mem_singleton.mp hvt]
        exact hvalues v (List.mem_of_getElem? hv)
      · cases hg
    · cases hg
  · rename_i hcls
    exact absurd hcls (hstore _ _ _)
  · split at hg
    · cases hg
      exact hbind values (.resume values) hvalues rfl rfl
    · cases hg
  · cases hg

end

def StoresNot (f : Function) (iv : ℕ) : Prop :=
  ∀ ivi ii, (ivInstructions f iv).head? = some ivi → ii ∈ instrs f → ii.ref = ivi.instr →
    ∀ ptr value immediateOffset, ii.instr.cls ≠ .store ptr value immediateOffset

theorem legalizeAggregate_sound {iv : ℕ} (h : Sound ∅ f) (he : LiveElements f)
    (hstore : StoresNot f iv) (hg : legalizeAggregate f iv = .ok g) :
    Sound ∅ g ∧ LiveElements g := by
  unfold legalizeAggregate at hg
  dsimp only at hg
  split at hg
  · cases hg
  · split at hg
    · cases hg
      exact ⟨h, he⟩
    · rename_i ivi ivis hivis
      obtain ⟨ii, hii, hg⟩ := bind_ok.mp hg
      obtain ⟨hmem, href⟩ := instrAt_ok hii
      have hmem' : ii ∈ instrs f := hmem
      have hhead : (ivInstructions f iv).head? = some ivi := by
        rw [hivis]
        rfl
      have hvalues := elementsOf_alive he (v := iv)
      have herase : Sound {ii.ref} { f with links := f.links.erase ivi } := by
        rw [href]
        exact erase_sound h ivi
      have he' : LiveElements { f with links := f.links.erase ivi } := he
      split at hg
      · exact move_sound herase he' hg
      · rename_i src replacement indicies hcls
        have hreplacement : Alive f replacement.value := by
          apply h.alive ii hmem' _ (named_operand _)
          rw [hcls]
          exact List.mem_cons_of_mem _ List.mem_cons_self
        exact insertval_sound herase he' hreplacement hg
      · rename_i trueValue falseValue pred hcls
        have hpred : Alive f pred.value := by
          apply h.alive ii hmem' _ (named_operand _)
          rw [hcls]
          exact List.mem_cons_of_mem _ (List.mem_cons_of_mem _ List.mem_cons_self)
        exact select_sound herase he' hpred hg
      · rename_i hrel _ _ _
        cases hg
        obtain ⟨-, hiu, -, helems⟩ := bindAll_eq (setInstr { f with links := f.links.erase ivi }
          ii.ref ⟨elementsOf f iv, ii.instr.cls⟩) (elementsOf f iv) ii.ref .output
        exact ⟨output_sound h hmem' href hrel hvalues, LiveElements.of_eq he hiu helems⟩
      · rename_i hrel _ _ _
        exact legalizeInput_sound h he hmem' href hrel hvalues (hstore ivi ii hhead hmem' href) hg

/-! ## The aggregates are given up -/

theorem classOf_killAggregates (f : Function) (v : ℕ) : classOf (killAggregates f) v
    = if isTemporary f v = true ∧ elementsOf f v ≠ [] then some .dead else classOf f v := by
  unfold classOf
  change ((f.iu.values.mapIdx _)[v]?).map Value.cls = _
  rw [List.getElem?_mapIdx]
  cases hv : f.iu.values[v]? with
  | none =>
    have htemp : isTemporary f v = false := by
      unfold isTemporary classOf
      rw [hv]
      rfl
    rw [if_neg]
    · rfl
    · rw [htemp]
      exact fun h => by cases h.1
  | some iv =>
    have htemp : isTemporary f v = true ↔ iv.cls = .temporary := by
      rw [isTemporary_iff]
      unfold classOf
      rw [hv]
      exact ⟨fun h => Option.some.inj h, fun h => congrArg some h⟩
    simp only [Option.map_some, htemp]
    split <;> rfl

def AggregatesFree (f : Function) : Prop :=
  ∀ v, isTemporary f v = true → elementsOf f v ≠ [] → ivInstructions f v = []

theorem killAggregates_sound (h : Sound ∅ f) (hfree : AggregatesFree f) :
    Sound ∅ (killAggregates f) := by
  have hnamed : ∀ l ∈ instrs f, ∀ v, Named l.instr v →
      classOf (killAggregates f) v = classOf f v := by
    intro l hl v hv
    rw [classOf_killAggregates, if_neg]
    rintro ⟨htemp, hne⟩
    obtain ⟨k, hk, hval, -⟩ := h.linked htemp hl hv
    have hmem := mem_ivInstructions.mpr ⟨hk, hval⟩
    rw [hfree v htemp hne] at hmem
    exact List.not_mem_nil hmem
  constructor
  · intro l hl href
    refine (h.bound l hl href).mono (fun _ hk _ => hk) ?_
    intro v hv ht
    unfold isTemporary at ht ⊢
    rw [hnamed l hl v hv] at ht
    exact ht
  · intro l hl v hv
    obtain ⟨hlt, hdead⟩ := h.alive l hl v hv
    refine ⟨?_, ?_⟩
    · change v < (f.iu.values.mapIdx _).length
      rw [List.length_mapIdx]
      exact hlt
    · rw [hnamed l hl v hv]
      exact hdead
  · exact h.refs
  · exact h.oldInstrs
  · exact h.oldLinks

/-! ## Loads -/

theorem emitPartialLoad_sound (orig : LoadFields) {state : Function × ℕ} {e : ℤ × ValueType}
    (h : Sound ∅ state.1) (hret : Alive state.1 e.2.value)
    (hops : ∀ vt ∈ orig.ptr :: orig.valueOffset.toList, Alive state.1 vt.value) :
    Sound ∅ (emitPartialLoad orig state e).1
      ∧ Grows state.1 (emitPartialLoad orig state e).1 := by
  refine ⟨?_, grows_create _ _ _ _ _⟩
  apply h.create
  · intro v hv
    rcases named_iff.mp hv with ⟨vt, hvt, rfl⟩ | ⟨vt, hvt, rfl⟩
    · rw [List.mem_singleton.mp hvt]
      exact hret
    · exact hops vt hvt
  · exact fun vt hvt => List.mem_append_left _ (List.mem_map_of_mem hvt)
  · exact fun vt hvt => List.mem_append_right _ (List.mem_map_of_mem hvt)

theorem splitAggregatedLoad_sound {depth : ℕ} {ii : Linked} (h : Sound ∅ f) (hii : ii ∈ instrs f)
    (hg : splitAggregatedLoad f depth ii = .ok g) : Sound ∅ g := by
  unfold splitAggregatedLoad at hg
  split at hg
  · rename_i ptr immediateOffset valueOffset valueOffsetMultiply cast loadType hcls
    split at hg
    · cases hg
      exact h
    · obtain ⟨aggty, -, hg⟩ := bind_ok.mp hg
      obtain ⟨offsets, -, hg⟩ := bind_ok.mp hg
      split at hg
      · cases hg
      · cases hg
        have hrun : ∀ (es : List (ℤ × ValueType)) (state : Function × ℕ), Sound ∅ state.1 →
            Grows f state.1 → (∀ e ∈ es, e.2 ∈ ii.instr.rets) →
            Sound ∅ (es.foldl (emitPartialLoad
              ⟨ptr, immediateOffset, valueOffset, valueOffsetMultiply⟩) state).1 := by
          intro es
          induction es with
          | nil => exact fun state hs _ _ => hs
          | cons e es ih =>
            intro state hs hgrows hmem
            have hret : Alive f e.2.value :=
              h.alive ii hii _ (named_ret (hmem e List.mem_cons_self))
            obtain ⟨hs', hgrows'⟩ := emitPartialLoad_sound
              ⟨ptr, immediateOffset, valueOffset, valueOffsetMultiply⟩ hs (hgrows.alive hret) (by
                intro vt hvt
                apply hgrows.alive (h.alive ii hii _ (named_operand _))
                rw [hcls]
                exact hvt)
            exact ih _ hs' (hgrows.trans hgrows') fun e' he' => hmem e' (List.mem_cons_of_mem _ he')
        have hend := hrun (offsets.zip ii.instr.rets) (f, ii.ref) h (Grows.refl f)
          fun e he => (List.of_mem_zip he).2
        have hdestroy := hend.destroy ii.ref
        rw [Set.empty_sdiff] at hdestroy
        exact hdestroy
  · cases hg
    exact h

end

end Vmir.DefUseAggregate
