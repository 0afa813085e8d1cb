import Vmir.Ir
import Vmir.ByteStore
import Mathlib.Logic.Function.Basic

set_option autoImplicit false

/-!
# Tokens of a string

`vmir_strtok` and `vmir_strtok_r` with the bytes of the memory that they read and write. Pointers
are addresses of the host, NULL is 0.
-/
namespace Vmir.StrTok
open ByteStore Ir

abbrev Byte := BitVec 8

/-- The memory of the guest within the host, and `iu_strtok_tmp`. -/
structure Guest where
  mem : Bytes
  iuMem : ℤ
  memsize : ℕ
  strtokTmp : ℤ

/-- `vmir_vm_ptr` -/
def vmirVmPtr (g : Guest) (v : BitVec 32) : ℤ := v.toNat + g.iuMem

def guestAddr (g : Guest) (p : ℤ) : BitVec 32 := if p = 0 then 0 else BitVec.ofInt 32 (p - g.iuMem)

def memWrptr (g : Guest) (offset : BitVec 32) (p : ℤ) : Guest :=
  { g with mem := write32 g.mem (g.iuMem + offset.toNat) (guestAddr g p) }

def memRdptr (g : Guest) (offset : BitVec 32) : ℤ :=
  let p := read32 g.mem (g.iuMem + offset.toNat)
  if p = 0 then 0 else g.iuMem + p.toNat

/-- The first byte from an address on that is NUL or has the property. Behind the memory there is
nothing to read. -/
def scan (mem : Bytes) (stop : Byte → Bool) (bytesLeft : ℕ) (a : ℤ) : Except Fault ℤ :=
  match bytesLeft with
  | 0 => .error .nullDeref
  | n + 1 => if mem a = 0 ∨ stop (mem a) then .ok a else scan mem stop n (a + 1)

def bytesLeft (g : Guest) (a : ℤ) : ℕ := (g.iuMem + g.memsize - a).toNat

def stringFrom (g : Guest) (a : ℤ) : Except Fault (List Byte × ℤ) := do
  let e ← scan g.mem (fun _ => false) (bytesLeft g a) a
  .ok ((List.range (e - a).toNat).map fun i : ℕ => g.mem (a + i), e)

/-- The end of the span, and what has been read, as intervals with both ends. -/
def strspn (g : Guest) (str delim : ℤ) : Except Fault (ℤ × List (ℤ × ℤ)) := do
  let (delims, last) ← stringFrom g delim
  let e ← scan g.mem (fun c => c ∉ delims) (bytesLeft g str) str
  .ok (e, [(str, e), (delim, last)])

def strcspn (g : Guest) (str delim : ℤ) : Except Fault (ℤ × List (ℤ × ℤ)) := do
  let (delims, last) ← stringFrom g delim
  let e ← scan g.mem (fun c => c ∈ delims) (bytesLeft g str) str
  .ok (e, [(str, e), (delim, last)])

/-- A call: the state after it, what it returns and the bytes that it has read and written. -/
structure Outcome where
  guest : Guest
  result : BitVec 32
  reads : List (ℤ × ℤ)
  writes : List (ℤ × ℤ)

/-- What the two functions do with the pointer that they start from, up to saving the next one. -/
def tokenFrom (g : Guest) (str delim : ℤ) (save : Guest → ℤ → Guest) (saved : List (ℤ × ℤ)) :
    Except Fault Outcome := do
  let (ret, reads) ← strspn g str delim
  if g.mem ret = 0 then
    .ok ⟨g, 0, reads, []⟩
  else do
    let (stop, reads') ← strcspn g ret delim
    if g.mem stop = 0 then
      .ok ⟨save g stop, guestAddr g ret, reads ++ reads', saved⟩
    else
      .ok ⟨save { g with mem := Function.update g.mem stop 0 } (stop + 1), guestAddr g ret,
        reads ++ reads', (stop, stop) :: saved⟩

def vmirStrtok (g : Guest) (str delim : BitVec 32) : Except Fault Outcome :=
  let p := vmirVmPtr g str
  let p := if p = 0 then g.strtokTmp else p
  tokenFrom g p (vmirVmPtr g delim) (fun g next => { g with strtokTmp := next }) []

def vmirStrtokR (nextp : BitVec 32) (g : Guest) (str delim : BitVec 32) : Except Fault Outcome :=
  let slot := g.iuMem + nextp.toNat
  let p := vmirVmPtr g str
  if p = 0 then do
    let o ← tokenFrom g (memRdptr g nextp) (vmirVmPtr g delim) (fun g => memWrptr g nextp)
      [(slot, slot + 3)]
    .ok { o with reads := (slot, slot + 3) :: o.reads }
  else
    tokenFrom g p (vmirVmPtr g delim) (fun g => memWrptr g nextp) [(slot, slot + 3)]

/-- A call with the string and then calls with a null pointer, each with its delimiters. -/
def session (call : Guest → BitVec 32 → BitVec 32 → Except Fault Outcome) (g : Guest)
    (str : BitVec 32) : List (BitVec 32) → Except Fault (List Outcome)
  | [] => .ok []
  | delim :: delims => do
    let o ← call g str delim
    let os ← session call o.guest 0 delims
    .ok (o :: os)

/-! ## What the C standard says -/

/-- The next token of a string from a position on: where it begins and where it ends. -/
def token (s : List Byte) (pos : ℕ) (delims : List Byte) : Option (ℕ × ℕ) :=
  let start := pos + ((s.drop pos).takeWhile (· ∈ delims)).length
  if start < s.length then
    some (start, start + ((s.drop start).takeWhile (· ∉ delims)).length)
  else none

/-- The tokens that a sequence of calls returns. After the last one there are no more. -/
def tokens (s : List Byte) : ℕ → List (List Byte) → List (Option (ℕ × ℕ))
  | _, [] => []
  | pos, delims :: rest =>
    match token s pos delims with
    | none => none :: tokens s s.length rest
    | some t => some t :: tokens s (t.2 + 1) rest

/-- A NUL-terminated string in the memory of the guest. -/
structure StringAt (g : Guest) (p : BitVec 32) (s : List Byte) : Prop where
  bytes : ∀ i (hi : i < s.length), g.mem (g.iuMem + p.toNat + i) = s.get ⟨i, hi⟩
  nonzero : ∀ c ∈ s, c ≠ 0
  nul : g.mem (g.iuMem + p.toNat + s.length) = 0
  fits : p.toNat + s.length < g.memsize

/-- The string and the delimiters of the calls, and the save slot if there is one. No object has the
address 0. -/
structure Valid (g : Guest) (s : List Byte) (p : BitVec 32) (delims : List (BitVec 32 × List Byte))
    (slot : Option (BitVec 32)) : Prop where
  iuMem_pos : 0 < g.iuMem
  memsize_le : g.memsize ≤ 2 ^ 32
  string : StringAt g p s
  string_pos : 0 < p.toNat
  delims : ∀ d ∈ delims, StringAt g d.1 d.2 ∧ 0 < d.1.toNat
  slot_pos : ∀ n ∈ slot, 0 < n.toNat
  slot_fits : ∀ n ∈ slot, n.toNat + 4 ≤ g.memsize
  slot_apart : ∀ n ∈ slot, n.toNat + 4 ≤ p.toNat ∨ p.toNat + s.length < n.toNat

/-- The bytes of the string, of the delimiters and of the slot. -/
def Allowed (g : Guest) (s : List Byte) (p : BitVec 32) (delims : List (BitVec 32 × List Byte))
    (slot : Option (BitVec 32)) (x : ℤ) : Prop :=
  (g.iuMem + p.toNat ≤ x ∧ x ≤ g.iuMem + p.toNat + s.length)
  ∨ (∃ d ∈ delims, g.iuMem + d.1.toNat ≤ x ∧ x ≤ g.iuMem + d.1.toNat + d.2.length)
  ∨ ∃ n ∈ slot, g.iuMem + n.toNat ≤ x ∧ x ≤ g.iuMem + n.toNat + 3

/-- The call returns the token, which has been terminated, and touches no other bytes. -/
structure Right (g : Guest) (s : List Byte) (p : BitVec 32) (delims : List (BitVec 32 × List Byte))
    (slot : Option (BitVec 32)) (o : Outcome) (t : Option (ℕ × ℕ)) : Prop where
  result : o.result = match t with
    | none => 0
    | some (start, _) => BitVec.ofNat 32 (p.toNat + start)
  terminated : ∀ start stop, t = some (start, stop) → o.guest.mem (g.iuMem + p.toNat + stop) = 0
  contents : ∀ start stop, t = some (start, stop) → ∀ i (hi : i < s.length), start ≤ i → i < stop →
    o.guest.mem (g.iuMem + p.toNat + i) = s.get ⟨i, hi⟩
  accesses : ∀ r ∈ o.reads ++ o.writes, ∀ x, r.1 ≤ x → x ≤ r.2 → Allowed g s p delims slot x

/-- The calls return the tokens of the string in order, and then null. -/
def Tokenises (call : Guest → BitVec 32 → BitVec 32 → Except Fault Outcome) (g : Guest)
    (s : List Byte) (p : BitVec 32) (delims : List (BitVec 32 × List Byte))
    (slot : Option (BitVec 32)) : Prop :=
  ∃ os, session call g p (delims.map Prod.fst) = .ok os
    ∧ List.Forall₂ (Right g s p delims slot) os (tokens s 0 (delims.map Prod.snd))

end Vmir.StrTok
