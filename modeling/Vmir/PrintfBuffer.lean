import Vmir.GlobalInit
import Vmir.PrintfArguments

set_option autoImplicit false

/-!
# Output into a buffer

`fmt_sn` copies what fits in front of the terminating NUL and adds up the lengths of everything.
-/
namespace Vmir.PrintfBuffer
open ByteStore Ir PrepareCall Printf PrintfArguments
open GlobalInit (copyBytes)

structure FmtSnAux where
  mem : Bytes
  dst : ℤ
  remain : BitVec 32
  total : BitVec 32

def fmtSn (aux : FmtSnAux) (str : List Byte) : FmtSnAux :=
  let len := BitVec.ofNat 32 str.length
  let aux := { aux with total := aux.total + len }
  if aux.remain = 0 then aux
  else
    let toCopy := if aux.remain - 1 < len then aux.remain - 1 else len
    { aux with
      mem := copyBytes aux.mem aux.dst (str.take toCopy.toNat)
      dst := aux.dst + toCopy.toInt
      remain := aux.remain - toCopy }

def terminate (aux : FmtSnAux) : Bytes × BitVec 32 :=
  (if aux.remain = 0 then aux.mem else copyBytes aux.mem aux.dst [0], aux.total)

/-- `vmir_vm_ptr` -/
def vmirVmPtr (m : Bytes) (iuMem rfp : ℤ) : ℤ × ℤ :=
  let v := vmirVmArg32 m rfp
  (v.1.toNat + iuMem, v.2)

/-- The format is the string at the second pointer. -/
def vmirSnprintf (h : Host) (m : Bytes) (iuMem : ℤ) (fmt : List Byte) (rf : ℤ) :
    Except Fault (Bytes × BitVec 32) := do
  let dst := vmirVmPtr m iuMem rf
  let dstlen := vmirVmArg32 m dst.2
  let format := vmirVmPtr m iuMem dstlen.2
  let aux ← dofmt h m fmtSn none fmt ⟨m, dst.1, dstlen.1, 0⟩ format.2
  .ok (terminate aux)

/-- A `va_list` is the address of the arguments in the host. -/
def vmirVsnprintf (h : Host) (m : Bytes) (iuMem : ℤ) (fmt : List Byte) (rf : ℤ) :
    Except Fault (Bytes × BitVec 32) := do
  let dst := vmirVmPtr m iuMem rf
  let dstlen := vmirVmArg32 m dst.2
  let format := vmirVmPtr m iuMem dstlen.2
  let vaRf := read64 m (vmirVmPtr m iuMem format.2).1
  let aux ← dofmt h m fmtSn none fmt ⟨m, dst.1, dstlen.1, 0⟩ vaRf.toNat
  .ok (terminate aux)

/-- The argument `str` of `output`, whose length is an `int`. -/
abbrev Chunk := { str : List Byte // str.length < 2 ^ 31 }

def concat (chunks : List Chunk) : List Byte := chunks.flatMap Subtype.val

/-- The destination has the output as far as it fits, and a NUL. -/
structure Truncates (m : Bytes) (dst : ℤ) (n : BitVec 32) (out : List Byte)
    (r : Bytes × BitVec 32) : Prop where
  written : ∀ i (hi : i < out.length), i < n.toNat - 1 → r.1 (dst + i) = out.get ⟨i, hi⟩
  terminated : 0 < n.toNat → r.1 (dst + (min out.length (n.toNat - 1) : ℕ)) = 0
  unwritten : n.toNat = 0 → r.1 = m
  others : ∀ x, x < dst ∨ dst + (min out.length (n.toNat - 1) : ℕ) < x → r.1 x = m x
  frame : ∀ x, x < dst ∨ dst + n.toNat ≤ x → r.1 x = m x
  result : r.2.toNat = out.length

/-- The calls of `output` that `dofmt` makes. -/
def Outputs (h : Host) (m : Bytes) (fmt : List Byte) (va : ℤ) (chunks : List Chunk) : Prop :=
  ∀ (σ : Type) (output : σ → List Byte → σ) (s : σ),
    dofmt h m output none fmt s va = .ok ((chunks.map Subtype.val).foldl output s)

theorem copyBytes_append (m : Bytes) (a : ℤ) (xs ys : List Byte) :
    copyBytes (copyBytes m a xs) (a + xs.length) ys = copyBytes m a (xs ++ ys) := by
  funext x
  unfold copyBytes
  rw [List.length_append]
  by_cases hx : a ≤ x ∧ x < a + xs.length
  · rw [if_neg (by omega), if_pos hx, if_pos (by omega)]
    rw [List.getD_append _ _ _ _ (by omega)]
  · by_cases hy : a + xs.length ≤ x ∧ x < a + xs.length + ys.length
    · rw [if_pos hy, if_pos (by omega), List.getD_append_right _ _ _ _ (by omega)]
      congr 1
      omega
    · rw [if_neg hy, if_neg hx, if_neg (by omega)]

theorem copyBytes_nil (m : Bytes) (a : ℤ) : copyBytes m a [] = m := by
  funext x
  unfold copyBytes
  rw [if_neg]
  rw [List.length_nil]
  omega

/-- Between two chunks: as much of the output as fits is in the destination. -/
structure Filled (m : Bytes) (dst : ℤ) (n : BitVec 32) (out : List Byte) (aux : FmtSnAux) :
    Prop where
  mem : aux.mem = copyBytes m dst (out.take (n.toNat - 1))
  dst : aux.dst = dst + (min out.length (n.toNat - 1) : ℕ)
  remain : aux.remain.toNat = n.toNat - min out.length (n.toNat - 1)
  total : aux.total = BitVec.ofNat 32 out.length

section
variable {m : Bytes} {dst : ℤ} {n : BitVec 32} {out : List Byte} {aux : FmtSnAux}

theorem filled_start : Filled m dst n [] ⟨m, dst, n, 0⟩ := by
  constructor
  · rw [List.take_nil, copyBytes_nil]
  · rw [List.length_nil, Nat.zero_min, Nat.cast_zero, Int.add_zero]
  · rw [List.length_nil, Nat.zero_min, Nat.sub_zero]
  · rfl

def toCopy (remain : BitVec 32) (c : Chunk) : BitVec 32 :=
  if remain - 1 < BitVec.ofNat 32 c.val.length then remain - 1 else BitVec.ofNat 32 c.val.length

theorem toCopy_toNat {remain : BitVec 32} (hne : remain ≠ 0) (c : Chunk) :
    (toCopy remain c).toNat = min (remain.toNat - 1) c.val.length := by
  have hpos : 0 < remain.toNat := by
    apply Nat.pos_of_ne_zero
    intro hzero
    exact hne (BitVec.eq_of_toNat_eq hzero)
  have hremain : (remain - 1).toNat = remain.toNat - 1 := by
    have := remain.isLt
    rw [BitVec.toNat_sub]
    change (2 ^ 32 - 1 + remain.toNat) % 2 ^ 32 = _
    omega
  have hlen : (BitVec.ofNat 32 c.val.length).toNat = c.val.length := by
    have := c.property
    rw [BitVec.toNat_ofNat]
    omega
  unfold toCopy
  by_cases hlt : remain - 1 < BitVec.ofNat 32 c.val.length
  · rw [if_pos hlt]
    rw [BitVec.lt_def, hremain, hlen] at hlt
    omega
  · rw [if_neg hlt]
    rw [BitVec.lt_def, hremain, hlen] at hlt
    omega

theorem toCopy_toInt {remain : BitVec 32} (hne : remain ≠ 0) (c : Chunk) :
    (toCopy remain c).toInt = (toCopy remain c).toNat := by
  apply BitVec.toInt_eq_toNat_of_lt
  have := toCopy_toNat hne c
  have := c.property
  omega

theorem filled_step (hf : Filled m dst n out aux) (c : Chunk) :
    Filled m dst n (out ++ c.val) (fmtSn aux c.val) := by
  have htotal : aux.total + BitVec.ofNat 32 c.val.length
      = BitVec.ofNat 32 (out ++ c.val).length := by
    rw [hf.total, List.length_append, BitVec.ofNat_add]
  by_cases hzero : aux.remain = 0
  · have hn : n.toNat = 0 := by
      have hremain := hf.remain
      rw [hzero] at hremain
      change 0 = _ at hremain
      omega
    have hstep : fmtSn aux c.val = { aux with total := aux.total + BitVec.ofNat 32 c.val.length } :=
      if_pos hzero
    rw [hstep]
    constructor
    · change aux.mem = _
      rw [hf.mem, hn, List.take_zero, List.take_zero]
    · change aux.dst = _
      rw [hf.dst, hn, Nat.zero_sub, Nat.min_zero, Nat.min_zero]
    · change aux.remain.toNat = _
      rw [hf.remain, hn, Nat.zero_sub, Nat.zero_sub]
    · exact htotal
  · have hstep : fmtSn aux c.val = ⟨copyBytes aux.mem aux.dst (c.val.take (toCopy aux.remain c).toNat),
        aux.dst + (toCopy aux.remain c).toInt, aux.remain - toCopy aux.remain c,
        aux.total + BitVec.ofNat 32 c.val.length⟩ := if_neg hzero
    have hcopy := toCopy_toNat hzero c
    have hremain := hf.remain
    have hpos : 0 < aux.remain.toNat := by
      apply Nat.pos_of_ne_zero
      intro h
      exact hzero (BitVec.eq_of_toNat_eq h)
    rw [hstep]
    constructor
    · change copyBytes aux.mem aux.dst _ = _
      have htake : c.val.take (toCopy aux.remain c).toNat
          = c.val.take (n.toNat - 1 - out.length) := by
        rw [hcopy]
        by_cases hle : n.toNat - 1 - out.length ≤ c.val.length
        · congr 1
          omega
        · rw [List.take_of_length_le (by omega), List.take_of_length_le (by omega)]
      have hdst : aux.dst = dst + (out.take (n.toNat - 1)).length := by
        rw [hf.dst, List.length_take, Nat.min_comm]
      rw [htake, hf.mem, hdst, copyBytes_append, List.take_append]
    · change aux.dst + (toCopy aux.remain c).toInt = _
      rw [toCopy_toInt hzero, hf.dst, hcopy, List.length_append]
      omega
    · change (aux.remain - toCopy aux.remain c).toNat = _
      rw [BitVec.toNat_sub_of_le (by rw [BitVec.le_def]; omega), List.length_append]
      omega
    · exact htotal

theorem filled_chunks (chunks : List Chunk) (hf : Filled m dst n out aux) :
    Filled m dst n (out ++ concat chunks) ((chunks.map Subtype.val).foldl fmtSn aux) := by
  induction chunks generalizing out aux with
  | nil =>
    change Filled m dst n (out ++ []) aux
    rw [List.append_nil]
    exact hf
  | cons c chunks ih =>
    have hrest := ih (filled_step hf c)
    rw [List.append_assoc] at hrest
    exact hrest

theorem terminate_truncates (hf : Filled m dst n out aux) (htotal : out.length ≤ 2 ^ 32 - 1) :
    Truncates m dst n out (terminate aux) := by
  have hremain := hf.remain
  have hresult : (terminate aux).2.toNat = out.length := by
    change aux.total.toNat = _
    rw [hf.total, BitVec.toNat_ofNat]
    omega
  have hlen : (out.take (n.toNat - 1)).length = min out.length (n.toNat - 1) := by
    rw [List.length_take, Nat.min_comm]
  by_cases hzero : aux.remain = 0
  · have hn : n.toNat = 0 := by
      rw [hzero] at hremain
      change 0 = _ at hremain
      omega
    have hmem : (terminate aux).1 = m := by
      change (if aux.remain = 0 then aux.mem else _) = m
      rw [if_pos hzero, hf.mem, hn, List.take_zero, copyBytes_nil]
    constructor
    · intro i hi hlt
      omega
    · intro hpos
      omega
    · exact fun _ => hmem
    · exact fun x _ => congrFun hmem x
    · exact fun x _ => congrFun hmem x
    · exact hresult
  · have hpos : 0 < aux.remain.toNat := by
      apply Nat.pos_of_ne_zero
      intro h
      exact hzero (BitVec.eq_of_toNat_eq h)
    have hmem : (terminate aux).1 = copyBytes m dst (out.take (n.toNat - 1) ++ [0]) := by
      change (if aux.remain = 0 then aux.mem else _) = _
      rw [if_neg hzero, hf.mem, hf.dst, ← hlen, copyBytes_append]
    have hothers : ∀ x, x < dst ∨ dst + (min out.length (n.toNat - 1) : ℕ) < x →
        (terminate aux).1 x = m x := by
      intro x hx
      rw [hmem]
      unfold copyBytes
      rw [List.length_append, hlen, List.length_singleton, if_neg (by omega)]
    constructor
    · intro i hi hlt
      rw [hmem]
      unfold copyBytes
      rw [List.length_append, hlen, List.length_singleton, if_pos (by omega)]
      have hindex : (dst + (i : ℤ) - dst).toNat = i := by omega
      rw [hindex, List.getD_append _ _ _ _ (by omega), List.getD_eq_getElem _ _ (by omega),
        List.getElem_take]
      rfl
    · intro _
      rw [hmem]
      unfold copyBytes
      rw [List.length_append, hlen, List.length_singleton, if_pos (by omega)]
      have hindex : (dst + ((min out.length (n.toNat - 1) : ℕ) : ℤ) - dst).toNat
          = (out.take (n.toNat - 1)).length := by omega
      rw [hindex, List.getD_append_right _ _ _ _ (Nat.le_refl _), Nat.sub_self]
      rfl
    · intro hn
      omega
    · exact hothers
    · intro x hx
      apply hothers
      omega
    · exact hresult

end

/-- `dofmt` makes a list of calls, whatever the format and the arguments are. -/
theorem outputs_exists (h : Host) (m : Bytes) (fmt : List Byte) (va : ℤ) :
    ∃ chunks, Outputs h m fmt va chunks := by
  obtain ⟨calls, hlen, hcalls⟩ := dofmt_calls h m none fmt va
  have hattach : ∃ chunks : List Chunk, chunks.map Subtype.val = calls := by
    clear hcalls
    induction calls with
    | nil => exact ⟨[], rfl⟩
    | cons c calls ih =>
      obtain ⟨chunks, rfl⟩ := ih fun x hx => hlen x (List.mem_cons_of_mem c hx)
      exact ⟨⟨c, hlen c List.mem_cons_self⟩ :: chunks, rfl⟩
  obtain ⟨chunks, rfl⟩ := hattach
  exact ⟨chunks, hcalls⟩

section
variable {chunks : List Chunk}

theorem chunks_truncates (htotal : (concat chunks).length ≤ 2 ^ 32 - 1) (m : Bytes) (dst : ℤ)
    (n : BitVec 32) :
    Truncates m dst n (concat chunks)
      (terminate ((chunks.map Subtype.val).foldl fmtSn ⟨m, dst, n, 0⟩)) := by
  have hfilled := filled_chunks chunks (@filled_start m dst n)
  rw [List.nil_append] at hfilled
  exact terminate_truncates hfilled htotal

theorem vmirSnprintf_eq {h : Host} {m : Bytes} {iuMem : ℤ} {fmt : List Byte} {rf : ℤ}
    (hout : Outputs h m fmt (rf - 4 - 4 - 4) chunks) :
    vmirSnprintf h m iuMem fmt rf = .ok (terminate ((chunks.map Subtype.val).foldl fmtSn
      ⟨m, (read32 m (rf - 4)).toNat + iuMem, read32 m (rf - 4 - 4), 0⟩)) := by
  unfold vmirSnprintf
  have hrun := hout _ fmtSn ⟨m, (read32 m (rf - 4)).toNat + iuMem, read32 m (rf - 4 - 4), 0⟩
  simp only [vmirVmPtr, vmirVmArg32]
  rw [hrun]
  rfl

theorem vmirVsnprintf_eq {h : Host} {m : Bytes} {iuMem : ℤ} {fmt : List Byte} {rf : ℤ}
    (hout : Outputs h m fmt
      (read64 m ((read32 m (rf - 4 - 4 - 4 - 4)).toNat + iuMem)).toNat chunks) :
    vmirVsnprintf h m iuMem fmt rf = .ok (terminate ((chunks.map Subtype.val).foldl fmtSn
      ⟨m, (read32 m (rf - 4)).toNat + iuMem, read32 m (rf - 4 - 4), 0⟩)) := by
  unfold vmirVsnprintf
  have hrun := hout _ fmtSn ⟨m, (read32 m (rf - 4)).toNat + iuMem, read32 m (rf - 4 - 4), 0⟩
  simp only [vmirVmPtr, vmirVmArg32]
  rw [hrun]
  rfl

/-- Output that an `unsigned int` can count is truncated to the size, for any chunks and for those
of the two functions, which every format has. -/
theorem snprintf_truncates (htotal : (concat chunks).length ≤ 2 ^ 32 - 1) :
    (∀ (m : Bytes) (dst : ℤ) (n : BitVec 32), Truncates m dst n (concat chunks)
      (terminate ((chunks.map Subtype.val).foldl fmtSn ⟨m, dst, n, 0⟩)))
    ∧ (∀ (h : Host) (m : Bytes) (iuMem : ℤ) (fmt : List Byte) (rf : ℤ),
      Outputs h m fmt (rf - 4 - 4 - 4) chunks → ∃ r, vmirSnprintf h m iuMem fmt rf = .ok r
        ∧ Truncates m ((read32 m (rf - 4)).toNat + iuMem) (read32 m (rf - 4 - 4)) (concat chunks) r)
    ∧ (∀ (h : Host) (m : Bytes) (iuMem : ℤ) (fmt : List Byte) (rf : ℤ),
      Outputs h m fmt (read64 m ((read32 m (rf - 4 - 4 - 4 - 4)).toNat + iuMem)).toNat chunks →
      ∃ r, vmirVsnprintf h m iuMem fmt rf = .ok r
        ∧ Truncates m ((read32 m (rf - 4)).toNat + iuMem) (read32 m (rf - 4 - 4)) (concat chunks) r)
    ∧ ∀ (h : Host) (m : Bytes) (fmt : List Byte) (va : ℤ),
      ∃ output, Outputs h m fmt va output := by
  refine ⟨chunks_truncates htotal, ?_, ?_, outputs_exists⟩
  · intro h m iuMem fmt rf hout
    exact ⟨_, vmirSnprintf_eq hout, chunks_truncates htotal m _ _⟩
  · intro h m iuMem fmt rf hout
    exact ⟨_, vmirVsnprintf_eq hout, chunks_truncates htotal m _ _⟩

end

def twoChunks : List Chunk := [⟨[1, 2], by decide⟩, ⟨[3, 4, 5], by decide⟩]

theorem snprintf_truncates_twoChunks :
    Truncates (fun _ => 7) 100 4 [1, 2, 3, 4, 5]
      (terminate ((twoChunks.map Subtype.val).foldl fmtSn ⟨fun _ => 7, 100, 4, 0⟩)) :=
  (@snprintf_truncates twoChunks (by decide)).1 (fun _ => 7) 100 4

end Vmir.PrintfBuffer
