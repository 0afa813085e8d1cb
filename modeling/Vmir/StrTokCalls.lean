import Vmir.ProgramText
import Vmir.StrTok
import Mathlib.Data.List.TakeWhile

set_option autoImplicit false

/-!
# The calls of a tokenisation

The call with the string finds the first token. A null pointer of the guest is not a null pointer of
the host, so that the calls with it start at the address 0 of the guest.
-/
namespace Vmir.StrTokCalls
open ByteStore Ir StrTok
open ProgramText (ok_bind bind_ok)

/-! ## Spans -/

section
variable {g : Guest} {s delims : List Byte} {p d : BitVec 32} {stop : Byte → Bool}

theorem scan_ge {mem : Bytes} {n : ℕ} {a e : ℤ} (h : scan mem stop n a = .ok e) : a ≤ e := by
  induction n generalizing a with
  | zero => cases h
  | succ n ih =>
    rw [scan] at h
    split at h
    · exact Int.le_of_eq (Except.ok.inj h)
    · have := ih h
      omega

theorem scan_string {mem : Bytes} {a : ℤ} {n : ℕ}
    (hbytes : ∀ i (hi : i < s.length), mem (a + i) = s.get ⟨i, hi⟩) (hnonzero : ∀ c ∈ s, c ≠ 0)
    (hnul : mem (a + s.length) = 0) (hn : s.length < n) :
    scan mem stop n a = .ok (a + (s.takeWhile fun c => !stop c).length) := by
  induction s generalizing a n with
  | nil =>
    obtain ⟨n, rfl⟩ := Nat.exists_eq_add_of_lt hn
    have hzero : mem a = 0 := by simpa using hnul
    rw [scan, if_pos (Or.inl hzero)]
    simp
  | cons c s ih =>
    obtain ⟨n, rfl⟩ := Nat.exists_eq_add_of_lt (Nat.zero_lt_of_lt hn)
    have hhead : mem a = c := by simpa using hbytes 0 (Nat.zero_lt_succ _)
    have hc : c ≠ 0 := hnonzero c List.mem_cons_self
    rw [scan, hhead]
    by_cases hstop : stop c
    · rw [if_pos (Or.inr hstop), List.takeWhile_cons_of_neg (by simp [hstop])]
      simp
    · have htail : ∀ i (hi : i < s.length), mem (a + 1 + i) = s.get ⟨i, hi⟩ := by
        intro i hi
        have := hbytes (i + 1) (Nat.succ_lt_succ hi)
        rw [show a + 1 + (i : ℤ) = a + ((i + 1 : ℕ) : ℤ) by push_cast; omega]
        exact this
      have hnul' : mem (a + 1 + s.length) = 0 := by
        rw [show a + 1 + (s.length : ℤ) = a + ((c :: s).length : ℤ) by
          rw [List.length_cons]; push_cast; omega]
        exact hnul
      rw [if_neg (fun h => h.elim hc hstop),
        ih htail (fun x hx => hnonzero x (List.mem_cons_of_mem c hx)) hnul'
          (by rw [List.length_cons] at hn; omega),
        List.takeWhile_cons_of_pos (by simp [hstop]), List.length_cons]
      congr 1
      push_cast
      omega

theorem stringAt_bytesLeft (h : StringAt g p s) {pos : ℕ} (hpos : pos ≤ s.length) :
    (s.drop pos).length < bytesLeft g (g.iuMem + p.toNat + pos) := by
  have := h.fits
  unfold bytesLeft
  rw [List.length_drop]
  omega

theorem scan_stringAt (h : StringAt g p s) {pos : ℕ} (hpos : pos ≤ s.length) :
    scan g.mem stop (bytesLeft g (g.iuMem + p.toNat + pos)) (g.iuMem + p.toNat + pos)
      = .ok (g.iuMem + p.toNat + (pos + ((s.drop pos).takeWhile fun c => !stop c).length : ℕ)) := by
  rw [scan_string (s := s.drop pos) ?_ ?_ ?_ (stringAt_bytesLeft h hpos)]
  · congr 1
    push_cast
    omega
  · intro i hi
    rw [List.length_drop] at hi
    have hbyte := h.bytes (pos + i) (by omega)
    rw [show g.iuMem + p.toNat + (pos : ℤ) + i = g.iuMem + p.toNat + ((pos + i : ℕ) : ℤ) by
      push_cast; omega, hbyte]
    simp
  · exact fun c hc => h.nonzero c (List.mem_of_mem_drop hc)
  · rw [List.length_drop, show g.iuMem + p.toNat + (pos : ℤ) + ((s.length - pos : ℕ) : ℤ)
      = g.iuMem + p.toNat + s.length by omega]
    exact h.nul

theorem stringFrom_stringAt (h : StringAt g d delims) :
    stringFrom g (vmirVmPtr g d)
      = .ok (delims, g.iuMem + d.toNat + delims.length) := by
  have hptr : vmirVmPtr g d = g.iuMem + d.toNat + ((0 : ℕ) : ℤ) := by
    unfold vmirVmPtr
    push_cast
    omega
  unfold stringFrom
  rw [hptr, scan_stringAt h (Nat.zero_le _), ok_bind]
  have hall : (delims.drop 0).takeWhile (fun c => !(fun _ => false) c) = delims := by
    rw [List.drop_zero, List.takeWhile_eq_self_iff]
    intro c _
    rfl
  rw [hall, Nat.zero_add]
  congr 2
  apply List.ext_getElem
  · rw [List.length_map, List.length_range]
    omega
  · intro i h1 h2
    rw [List.getElem_map, List.getElem_range]
    have hbyte := h.bytes i h2
    rw [← show g.iuMem + d.toNat + ((0 : ℕ) : ℤ) + i = g.iuMem + d.toNat + i by push_cast; omega]
      at hbyte
    exact hbyte

/-- `strspn` from a place of the string on. -/
theorem strspn_string (hs : StringAt g p s) (hd : StringAt g d delims) {pos : ℕ}
    (hpos : pos ≤ s.length) :
    strspn g (g.iuMem + p.toNat + pos) (vmirVmPtr g d)
      = .ok (g.iuMem + p.toNat + (pos + ((s.drop pos).takeWhile (· ∈ delims)).length : ℕ),
        [(g.iuMem + p.toNat + pos,
            g.iuMem + p.toNat + (pos + ((s.drop pos).takeWhile (· ∈ delims)).length : ℕ)),
          (vmirVmPtr g d, g.iuMem + d.toNat + delims.length)]) := by
  have hstop : (fun c : Byte => !decide (c ∉ delims)) = fun c => decide (c ∈ delims) := by
    funext c
    rw [decide_not, Bool.not_not]
  unfold strspn
  rw [stringFrom_stringAt hd, ok_bind]
  simp only [scan_stringAt hs hpos, hstop]
  rfl

theorem strcspn_string (hs : StringAt g p s) (hd : StringAt g d delims) {pos : ℕ}
    (hpos : pos ≤ s.length) :
    strcspn g (g.iuMem + p.toNat + pos) (vmirVmPtr g d)
      = .ok (g.iuMem + p.toNat + (pos + ((s.drop pos).takeWhile (· ∉ delims)).length : ℕ),
        [(g.iuMem + p.toNat + pos,
            g.iuMem + p.toNat + (pos + ((s.drop pos).takeWhile (· ∉ delims)).length : ℕ)),
          (vmirVmPtr g d, g.iuMem + d.toNat + delims.length)]) := by
  have hstop : (fun c : Byte => !decide (c ∈ delims)) = fun c => decide (c ∉ delims) := by
    funext c
    rw [decide_not]
  unfold strcspn
  rw [stringFrom_stringAt hd, ok_bind]
  simp only [scan_stringAt hs hpos, hstop]
  rfl

theorem span_le (pos : ℕ) (keep : Byte → Bool) (hpos : pos ≤ s.length) :
    pos + ((s.drop pos).takeWhile keep).length ≤ s.length := by
  have hle := (List.takeWhile_prefix (l := s.drop pos) keep).length_le
  rw [List.length_drop] at hle
  omega

/-! ## The call with the string -/

/-- Saving the next pointer touches bytes of the slot only. -/
structure Saves (g : Guest) (s : List Byte) (p : BitVec 32) (delims : List (BitVec 32 × List Byte))
    (slot : Option (BitVec 32)) (save : Guest → ℤ → Guest) (saved : List (ℤ × ℤ)) : Prop where
  keeps : ∀ g' next x, g'.iuMem = g.iuMem → g.iuMem + p.toNat ≤ x →
    x ≤ g.iuMem + p.toNat + s.length → (save g' next).mem x = g'.mem x
  allowed : ∀ r ∈ saved, ∀ x, r.1 ≤ x → x ≤ r.2 → Allowed g s p delims slot x

theorem tokenFrom_string {ds : List (BitVec 32 × List Byte)} {slot : Option (BitVec 32)}
    {save : Guest → ℤ → Guest} {saved : List (ℤ × ℤ)} (hv : Valid g s p ds slot)
    (hd : (d, delims) ∈ ds) (hsave : Saves g s p ds slot save saved) :
    ∃ o, tokenFrom g (g.iuMem + p.toNat) (vmirVmPtr g d) save saved = .ok o
      ∧ Right g s p ds slot o (token s 0 delims) := by
  have hdelims := (hv.delims (d, delims) hd).1
  have hspn := strspn_string hv.string hdelims (Nat.zero_le _)
  rw [Nat.cast_zero, Int.add_zero, Nat.zero_add, List.drop_zero] at hspn
  have hstart_le : (s.takeWhile (· ∈ delims)).length ≤ s.length :=
    (List.takeWhile_prefix _).length_le
  have hcspn := strcspn_string hv.string hdelims hstart_le
  have hstop_le := span_le (s.takeWhile (· ∈ delims)).length (fun c => decide (c ∉ delims)) hstart_le
  set start := (s.takeWhile (· ∈ delims)).length with hstart
  set stop := start + ((s.drop start).takeWhile (· ∉ delims)).length with hstop
  have hstring : ∀ x, g.iuMem + p.toNat ≤ x → x ≤ g.iuMem + p.toNat + s.length →
      Allowed g s p ds slot x := fun x h1 h2 => Or.inl ⟨h1, h2⟩
  have hdelim : ∀ x, vmirVmPtr g d ≤ x → x ≤ g.iuMem + d.toNat + delims.length →
      Allowed g s p ds slot x := by
    intro x h1 h2
    unfold vmirVmPtr at h1
    have h1' : g.iuMem + d.toNat ≤ x := by omega
    exact Or.inr (Or.inl ⟨(d, delims), hd, h1', h2⟩)
  have hreads : ∀ (b e : ℕ), b ≤ e → e ≤ s.length → ∀ r ∈ [((g.iuMem + p.toNat + b : ℤ),
      (g.iuMem + p.toNat + e : ℤ)), (vmirVmPtr g d, g.iuMem + d.toNat + delims.length)],
      ∀ x, r.1 ≤ x → x ≤ r.2 → Allowed g s p ds slot x := by
    intro b e hbe he r hr x h1 h2
    rcases List.mem_cons.mp hr with rfl | hr
    · apply hstring
      · change g.iuMem + p.toNat + (b : ℤ) ≤ x at h1
        omega
      · change x ≤ g.iuMem + p.toNat + (e : ℤ) at h2
        omega
    · obtain rfl := List.mem_singleton.mp hr
      exact hdelim x h1 h2
  have htoken : token s 0 delims = if start < s.length then some (start, stop) else none := by
    unfold token
    rw [Nat.zero_add, List.drop_zero]
  have hspan := hreads 0 start (Nat.zero_le _) hstart_le
  rw [Nat.cast_zero, Int.add_zero] at hspan
  unfold tokenFrom
  rw [hspn, ok_bind, htoken]
  by_cases hlt : start < s.length
  · have hbyte := hv.string.bytes start hlt
    have hne : g.mem (g.iuMem + p.toNat + start) ≠ 0 := by
      rw [hbyte]
      exact hv.string.nonzero _ (List.get_mem s ⟨start, hlt⟩)
    have haddr : guestAddr g (g.iuMem + p.toNat + start) = BitVec.ofNat 32 (p.toNat + start) := by
      have hpos := hv.iuMem_pos
      unfold guestAddr
      rw [if_neg (by omega), show g.iuMem + p.toNat + (start : ℤ) - g.iuMem
        = ((p.toNat + start : ℕ) : ℤ) by push_cast; omega, BitVec.ofInt_natCast]
    simp only [if_pos hlt, if_neg hne, hcspn, ok_bind]
    have hspans : ∀ r ∈ [((g.iuMem + p.toNat : ℤ), (g.iuMem + p.toNat + start : ℤ)),
        (vmirVmPtr g d, g.iuMem + d.toNat + delims.length)]
        ++ [((g.iuMem + p.toNat + start : ℤ), (g.iuMem + p.toNat + stop : ℤ)),
          (vmirVmPtr g d, g.iuMem + d.toNat + delims.length)],
        ∀ x, r.1 ≤ x → x ≤ r.2 → Allowed g s p ds slot x := by
      intro r hr
      rcases List.mem_append.mp hr with hr | hr
      · exact hspan r hr
      · exact hreads start stop (Nat.le_add_right _ _) hstop_le r hr
    by_cases hend : g.mem (g.iuMem + p.toNat + stop) = 0
    · rw [if_pos hend]
      refine ⟨_, rfl, haddr, ?_, ?_, ?_⟩
      · rintro b e heq
        cases heq
        change (save g _).mem _ = 0
        rw [hsave.keeps g _ _ rfl (by omega) (by omega)]
        exact hend
      · rintro b e heq i hi hbi hie
        cases heq
        change (save g _).mem _ = _
        rw [hsave.keeps g _ _ rfl (by omega) (by omega)]
        exact hv.string.bytes i hi
      · intro r hr
        rcases List.mem_append.mp hr with hr | hr
        · exact hspans r hr
        · exact hsave.allowed r hr
    · rw [if_neg hend]
      refine ⟨_, rfl, haddr, ?_, ?_, ?_⟩
      · rintro b e heq
        cases heq
        refine (hsave.keeps _ _ _ ?_ ?_ ?_).trans ?_
        · rfl
        · omega
        · omega
        · exact Function.update_self _ _ _
      · rintro b e heq i hi hbi hie
        cases heq
        refine (hsave.keeps _ _ _ ?_ ?_ ?_).trans ?_
        · rfl
        · omega
        · omega
        · change Function.update g.mem _ 0 _ = _
          rw [Function.update_of_ne (by omega)]
          exact hv.string.bytes i hi
      · intro r hr
        rcases List.mem_append.mp hr with hr | hr
        · exact hspans r hr
        · rcases List.mem_cons.mp hr with rfl | hr
          · intro x h1 h2
            apply hstring
            · change g.iuMem + p.toNat + (stop : ℤ) ≤ x at h1
              omega
            · change x ≤ g.iuMem + p.toNat + (stop : ℤ) at h2
              omega
          · exact hsave.allowed r hr
  · have heq : start = s.length := Nat.le_antisymm hstart_le (Nat.le_of_not_lt hlt)
    have hzero : g.mem (g.iuMem + p.toNat + start) = 0 := by
      rw [heq]
      exact hv.string.nul
    simp only [if_neg hlt, if_pos hzero]
    refine ⟨_, rfl, rfl, ?_, ?_, ?_⟩
    · rintro b e heq
      cases heq
    · rintro b e heq
      cases heq
    · intro r hr
      rw [List.append_nil] at hr
      exact hspan r hr

end

/-! ## The two functions -/

section
variable {g : Guest} {s : List Byte} {p : BitVec 32} {ds : List (BitVec 32 × List Byte)}
  {slot : Option (BitVec 32)}

theorem ptr_ne_zero (h : 0 < g.iuMem) (v : BitVec 32) : vmirVmPtr g v ≠ 0 := by
  unfold vmirVmPtr
  omega

theorem vmirStrtok_eq (h : 0 < g.iuMem) (str delim : BitVec 32) :
    vmirStrtok g str delim = tokenFrom g (g.iuMem + str.toNat) (vmirVmPtr g delim)
      (fun g next => { g with strtokTmp := next }) [] := by
  unfold vmirStrtok
  simp only [if_neg (ptr_ne_zero h str)]
  rw [vmirVmPtr, Int.add_comm]

theorem vmirStrtokR_eq (h : 0 < g.iuMem) (nextp str delim : BitVec 32) :
    vmirStrtokR nextp g str delim = tokenFrom g (g.iuMem + str.toNat) (vmirVmPtr g delim)
      (fun g => memWrptr g nextp) [(g.iuMem + nextp.toNat, g.iuMem + nextp.toNat + 3)] := by
  unfold vmirStrtokR
  simp only [if_neg (ptr_ne_zero h str)]
  rw [vmirVmPtr, Int.add_comm]

theorem strtok_saves : Saves g s p ds slot (fun g next => { g with strtokTmp := next }) [] :=
  ⟨fun _ _ _ _ _ _ => rfl, fun _ hr => nomatch hr⟩

theorem strtokR_saves {nextp : BitVec 32} (hv : Valid g s p ds (some nextp)) :
    Saves g s p ds (some nextp) (fun g => memWrptr g nextp)
      [(g.iuMem + nextp.toNat, g.iuMem + nextp.toNat + 3)] := by
  have hapart := hv.slot_apart nextp rfl
  constructor
  · intro g' next x hmem h1 h2
    apply writeLe_of_not_mem
    rw [hmem]
    omega
  · intro r hr x h1 h2
    obtain rfl := List.mem_singleton.mp hr
    exact Or.inr (Or.inr ⟨nextp, rfl, h1, h2⟩)

/-- What is left of either function for pointers of the host that are not NULL. -/
def Starts (call : Guest → BitVec 32 → BitVec 32 → Except Fault Outcome)
    (save : Guest → ℤ → Guest) (saved : Guest → List (ℤ × ℤ)) : Prop :=
  ∀ g : Guest, 0 < g.iuMem → ∀ str delim : BitVec 32,
    call g str delim = tokenFrom g (g.iuMem + str.toNat) (vmirVmPtr g delim) save (saved g)

variable {call : Guest → BitVec 32 → BitVec 32 → Except Fault Outcome} {save : Guest → ℤ → Guest}
  {saved : Guest → List (ℤ × ℤ)}

theorem tokenises_first {d : BitVec 32 × List Byte} (hcall : Starts call save saved)
    (hv : Valid g s p [d] slot) (hsave : Saves g s p [d] slot save (saved g)) :
    Tokenises call g s p [d] slot := by
  obtain ⟨o, hrun, hright⟩ :=
    tokenFrom_string (d := d.1) hv List.mem_cons_self hsave
  refine ⟨[o], ?_, ?_⟩
  · change (call g p d.1 >>= _) = _
    rw [hcall g hv.iuMem_pos, hrun]
    rfl
  · have htokens : tokens s 0 ([d].map Prod.snd) = [token s 0 d.2] := by
      rw [List.map_singleton, tokens]
      cases token s 0 d.2
      all_goals rfl
    rw [htokens]
    exact List.Forall₂.cons hright List.Forall₂.nil

theorem tokenFrom_reads {str delim : ℤ} {saved : List (ℤ × ℤ)} {o : Outcome}
    (h : tokenFrom g str delim save saved = .ok o) : ∃ e, str ≤ e ∧ (str, e) ∈ o.reads := by
  obtain ⟨⟨ret, reads⟩, hspn, h⟩ := bind_ok.mp h
  have hreads : str ≤ ret ∧ (str, ret) ∈ reads := by
    obtain ⟨⟨delims, last⟩, -, hspn⟩ := bind_ok.mp hspn
    obtain ⟨e, hscan, hspn⟩ := bind_ok.mp hspn
    cases hspn
    exact ⟨scan_ge hscan, List.mem_cons_self⟩
  change (if g.mem ret = 0 then _ else _) = _ at h
  by_cases hzero : g.mem ret = 0
  · rw [if_pos hzero] at h
    cases h
    exact ⟨ret, hreads⟩
  · rw [if_neg hzero] at h
    obtain ⟨⟨stop, reads'⟩, -, h⟩ := bind_ok.mp h
    change (if g.mem stop = 0 then _ else _) = _ at h
    split at h
    all_goals
      cases h
      exact ⟨ret, hreads.1, List.mem_append_left _ hreads.2⟩

theorem tokenFrom_iuMem {str delim : ℤ} {saved : List (ℤ × ℤ)} {o : Outcome}
    (hsave : ∀ g next, (save g next).iuMem = g.iuMem)
    (h : tokenFrom g str delim save saved = .ok o) : o.guest.iuMem = g.iuMem := by
  obtain ⟨⟨ret, reads⟩, -, h⟩ := bind_ok.mp h
  change (if g.mem ret = 0 then _ else _) = _ at h
  by_cases hzero : g.mem ret = 0
  · rw [if_pos hzero] at h
    cases h
    rfl
  · rw [if_neg hzero] at h
    obtain ⟨⟨stop, reads'⟩, -, h⟩ := bind_ok.mp h
    change (if g.mem stop = 0 then _ else _) = _ at h
    split at h
    all_goals
      cases h
      exact hsave _ _

theorem zero_not_allowed (hv : Valid g s p ds slot) : ¬ Allowed g s p ds slot g.iuMem := by
  rintro (⟨h, -⟩ | ⟨d, hd, h, -⟩ | ⟨n, hn, h, -⟩)
  · have := hv.string_pos
    omega
  · have := (hv.delims d hd).2
    omega
  · have := hv.slot_pos n hn
    omega

theorem not_tokenises_second {d d' : BitVec 32 × List Byte} {rest : List (BitVec 32 × List Byte)}
    (hcall : Starts call save saved) (hsave : ∀ g next, (save g next).iuMem = g.iuMem)
    (hv : Valid g s p (d :: d' :: rest) slot) :
    ¬ Tokenises call g s p (d :: d' :: rest) slot := by
  rintro ⟨os, hrun, hright⟩
  obtain ⟨o, hfirst, hrun⟩ := bind_ok.mp hrun
  obtain ⟨os', hothers, hrun⟩ := bind_ok.mp hrun
  obtain ⟨o', hsecond, hothers⟩ := bind_ok.mp hothers
  obtain ⟨os'', -, hothers⟩ := bind_ok.mp hothers
  cases hothers
  cases hrun
  rw [hcall g hv.iuMem_pos] at hfirst
  have hmem := tokenFrom_iuMem hsave hfirst
  rw [hcall o.guest (by rw [hmem]; exact hv.iuMem_pos), hmem] at hsecond
  obtain ⟨e, hle, hread⟩ := tokenFrom_reads hsecond
  obtain ⟨t, ts, -, htail, -⟩ := List.forall₂_cons_left_iff.mp hright
  obtain ⟨t', ts', ht, -, -⟩ := List.forall₂_cons_left_iff.mp htail
  have hallowed := ht.accesses _ (List.mem_append_left _ hread) g.iuMem
    (Int.le_of_eq (Int.add_zero _)) (by
      change g.iuMem + ((0 : BitVec 32).toNat : ℤ) ≤ e at hle
      change g.iuMem ≤ e
      rw [show ((0 : BitVec 32).toNat : ℤ) = 0 from rfl] at hle
      omega)
  exact zero_not_allowed hv hallowed

end

/-- The two functions are right for the call with the string, and wrong from the first call with a
null pointer on. -/
theorem tokenises_iff {g : Guest} {s : List Byte} {p : BitVec 32} {d : BitVec 32 × List Byte}
    {rest : List (BitVec 32 × List Byte)} :
    (Valid g s p (d :: rest) none →
      (Tokenises vmirStrtok g s p (d :: rest) none ↔ rest = [])) ∧
    ∀ nextp, Valid g s p (d :: rest) (some nextp) →
      (Tokenises (vmirStrtokR nextp) g s p (d :: rest) (some nextp) ↔ rest = []) := by
  have hstrtok : Starts vmirStrtok (fun g next => { g with strtokTmp := next }) fun _ => [] :=
    fun g h => vmirStrtok_eq h
  have hstrtokR : ∀ nextp, Starts (vmirStrtokR nextp) (fun g => memWrptr g nextp)
      fun g => [(g.iuMem + nextp.toNat, g.iuMem + nextp.toNat + 3)] :=
    fun nextp g h => vmirStrtokR_eq h nextp
  constructor
  · intro hv
    constructor
    · intro htok
      cases rest with
      | nil => rfl
      | cons d' rest => exact absurd htok (not_tokenises_second hstrtok (fun _ _ => rfl) hv)
    · rintro rfl
      exact tokenises_first hstrtok hv strtok_saves
  · intro nextp hv
    constructor
    · intro htok
      cases rest with
      | nil => rfl
      | cons d' rest =>
        exact absurd htok (not_tokenises_second (hstrtokR nextp) (fun _ _ => rfl) hv)
    · rintro rfl
      exact tokenises_first (hstrtokR nextp) hv (strtokR_saves hv)

/-- The string `a b` at 16 and the delimiter at 32. -/
def twoTokens : Guest where
  mem x := if x = 1016 then 97 else if x = 1017 then 32 else if x = 1018 then 98
    else if x = 1032 then 32 else 0
  iuMem := 1000
  memsize := 64
  strtokTmp := 0

theorem twoTokens_valid {ds : List (BitVec 32 × List Byte)} {slot : Option (BitVec 32)}
    (hds : ∀ d ∈ ds, d = (32, [32])) (hslot : ∀ n ∈ slot, n = 48) :
    Valid twoTokens [97, 32, 98] 16 ds slot := by
  constructor
  · decide
  · decide
  · exact ⟨by decide, by decide, rfl, by decide⟩
  · decide
  · intro d hd
    obtain rfl := hds d hd
    exact ⟨⟨by decide, by decide, rfl, by decide⟩, by decide⟩
  all_goals
    intro n hn
    obtain rfl := hslot n hn
    decide

/-- The first calls of `strtok`, and of `strtok_r` with a slot at 48. -/
theorem tokenises_iff_twoTokens :
    Tokenises vmirStrtok twoTokens [97, 32, 98] 16 [(32, [32])] none ∧
      Tokenises (vmirStrtokR 48) twoTokens [97, 32, 98] 16 [(32, [32])] (some 48) :=
  ⟨(tokenises_iff.1 (twoTokens_valid (by simp) (by simp))).mpr rfl,
    (tokenises_iff.2 48 (twoTokens_valid (by simp) (by simp))).mpr rfl⟩

/-- The second token is not found by either function. -/
theorem twoTokens_second :
    ¬ Tokenises vmirStrtok twoTokens [97, 32, 98] 16 [(32, [32]), (32, [32])] none ∧
      ¬ Tokenises (vmirStrtokR 48) twoTokens [97, 32, 98] 16 [(32, [32]), (32, [32])]
        (some 48) := by
  have hstrtok : Starts vmirStrtok (fun g next => { g with strtokTmp := next }) fun _ => [] :=
    fun g h => vmirStrtok_eq h
  have hstrtokR : Starts (vmirStrtokR 48) (fun g => memWrptr g 48)
      fun g => [(g.iuMem + (48 : BitVec 32).toNat, g.iuMem + (48 : BitVec 32).toNat + 3)] :=
    fun g h => vmirStrtokR_eq h 48
  constructor
  · exact not_tokenises_second hstrtok (fun _ _ => rfl) (twoTokens_valid (by simp) (by simp))
  · exact not_tokenises_second hstrtokR (fun _ _ => rfl) (twoTokens_valid (by simp) (by simp))

end Vmir.StrTokCalls
