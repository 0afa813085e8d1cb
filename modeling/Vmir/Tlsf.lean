import Mathlib.Logic.Function.Basic
import Vmir.BitCounts

set_option autoImplicit false

/-!
# The TLSF allocator

`tlsf.c` and `tlsfbits.h` as they are built for 64-bit hosts. Memory is made of words of 8 bytes;
`word a` is the one at the address `a`. The bitmaps and the heads of the free lists are apart from
it: no block reaches into them. The fields of a block header are the words at `block`,
`block + 8`, `block + 16` and `block + 24`.
-/
namespace Vmir.Tlsf
open BitCounts

structure Mem where
  word : ℕ → ℕ

/-- An assertion fails, or a table is accessed out of its bounds. -/
inductive Fault
  | assertion
  | bounds
deriving DecidableEq, Repr

/-- The pool structure; `block_null` is at its start. -/
structure Pool where
  address : ℕ
  mem : Mem
  flBitmap : BitVec 32
  slBitmap : ℕ → BitVec 32
  blocks : ℕ → ℕ → ℕ

def Mem.write (m : Mem) (a v : ℕ) : Mem := ⟨Function.update m.word a v⟩

/-- `~` on a `size_t` -/
def lnot (x : ℕ) : ℕ := 2 ^ 64 - 1 - x

def tlsfAssert (p : Prop) [Decidable p] : Except Fault Unit :=
  if p then .ok () else .error .assertion

/-! ## Sizes and classes -/

def flIndexCount : ℕ := 25

def slIndexCount : ℕ := 32

def blockHeaderOverhead : ℕ := 8

def blockSizeMin : ℕ := 24

def blockSizeMax : ℕ := 2 ^ 32

/-- `sizeof(pool_t)` -/
def sizeofPool : ℕ := 6536

/-- `sizeof(block_header_t)` -/
def sizeofBlockHeader : ℕ := 32

/-- -1 in the source for the word 0, of which it is not taken. -/
def tlsfFfs (word : BitVec 32) : ℕ := trailingZeros word

def tlsfFls (word : BitVec 32) : ℕ := 31 - leadingZeros word

def tlsfFlsSizet (size : ℕ) : ℕ :=
  let high := BitVec.ofNat 32 (size >>> 32)
  if high ≠ 0 then 32 + tlsfFls high else tlsfFls (BitVec.ofNat 32 size)

def mappingInsert (size : ℕ) : ℕ × ℕ :=
  if size < 256 then (0, size / 8)
  else
    let fl := tlsfFlsSizet size
    (fl - 7, (size >>> (fl - 5)) ^^^ 32)

def mappingSearch (size : ℕ) : ℕ × ℕ :=
  if 32 ≤ size then mappingInsert (size + ((1 <<< (tlsfFlsSizet size - 5)) - 1))
  else mappingInsert size

def alignUp (x align : ℕ) : Except Fault ℕ := do
  tlsfAssert (align &&& (align - 1) = 0)
  .ok ((x + (align - 1)) &&& lnot (align - 1))

def alignDown (x align : ℕ) : Except Fault ℕ := do
  tlsfAssert (align &&& (align - 1) = 0)
  .ok (x - (x &&& (align - 1)))

def adjustRequestSize (size align : ℕ) : Except Fault ℕ :=
  if size ≠ 0 ∧ size < blockSizeMax then do
    let aligned ← alignUp size align
    .ok (max aligned blockSizeMin)
  else .ok 0

/-! ## Block headers -/

def blockSize (m : Mem) (block : ℕ) : ℕ := m.word (block + 8) &&& lnot (1 ||| 2)

def blockSetSize (m : Mem) (block size : ℕ) : Mem :=
  m.write (block + 8) (size ||| (m.word (block + 8) &&& (1 ||| 2)))

def blockIsLast (m : Mem) (block : ℕ) : Prop := blockSize m block = 0

instance (m : Mem) (block : ℕ) : Decidable (blockIsLast m block) :=
  inferInstanceAs (Decidable (_ = _))

def blockIsFree (m : Mem) (block : ℕ) : Prop := m.word (block + 8) &&& 1 ≠ 0

instance (m : Mem) (block : ℕ) : Decidable (blockIsFree m block) :=
  inferInstanceAs (Decidable (_ ≠ _))

def blockSetFree (m : Mem) (block : ℕ) : Mem := m.write (block + 8) (m.word (block + 8) ||| 1)

def blockSetUsed (m : Mem) (block : ℕ) : Mem := m.write (block + 8) (m.word (block + 8) &&& lnot 1)

def blockIsPrevFree (m : Mem) (block : ℕ) : Prop := m.word (block + 8) &&& 2 ≠ 0

instance (m : Mem) (block : ℕ) : Decidable (blockIsPrevFree m block) :=
  inferInstanceAs (Decidable (_ ≠ _))

def blockSetPrevFree (m : Mem) (block : ℕ) : Mem := m.write (block + 8) (m.word (block + 8) ||| 2)

def blockSetPrevUsed (m : Mem) (block : ℕ) : Mem :=
  m.write (block + 8) (m.word (block + 8) &&& lnot 2)

def blockFromPtr (ptr : ℕ) : ℕ := ptr - 16

def blockToPtr (block : ℕ) : ℕ := block + 16

/-- The block behind one whose size is `size`, less the overhead. -/
def blockBehind (block size : ℕ) : ℕ := blockToPtr block + size - blockHeaderOverhead

def blockPrev (m : Mem) (block : ℕ) : ℕ := m.word block

def blockNext (m : Mem) (block : ℕ) : Except Fault ℕ := do
  tlsfAssert (¬ blockIsLast m block)
  .ok (blockBehind block (blockSize m block))

def blockLinkNext (m : Mem) (block : ℕ) : Except Fault (Mem × ℕ) := do
  let next ← blockNext m block
  .ok (m.write next block, next)

def blockMarkAsFree (m : Mem) (block : ℕ) : Except Fault Mem := do
  let (m, next) ← blockLinkNext m block
  .ok (blockSetFree (blockSetPrevFree m next) block)

def blockMarkAsUsed (m : Mem) (block : ℕ) : Except Fault Mem := do
  let next ← blockNext m block
  .ok (blockSetUsed (blockSetPrevUsed m next) block)

/-- `block_to_ptr(block) == align_ptr(block_to_ptr(block), ALIGN_SIZE)` -/
def assertAligned (block : ℕ) : Except Fault Unit := do
  let aligned ← alignUp (blockToPtr block) 8
  tlsfAssert (blockToPtr block = aligned)

def blockCanSplit (m : Mem) (block size : ℕ) : Prop := sizeofBlockHeader + size ≤ blockSize m block

instance (m : Mem) (block size : ℕ) : Decidable (blockCanSplit m block size) :=
  inferInstanceAs (Decidable (_ ≤ _))

def blockSplit (m : Mem) (block size : ℕ) : Except Fault (Mem × ℕ) := do
  let remaining := blockBehind block size
  let remainSize := blockSize m block - (size + blockHeaderOverhead)
  assertAligned remaining
  tlsfAssert (blockSize m block = remainSize + size + blockHeaderOverhead)
  let m := blockSetSize m remaining remainSize
  tlsfAssert (blockSizeMin ≤ blockSize m remaining)
  let m := blockSetSize m block size
  let m ← blockMarkAsFree m remaining
  .ok (m, remaining)

def blockAbsorb (m : Mem) (prev block : ℕ) : Except Fault (Mem × ℕ) := do
  tlsfAssert (¬ blockIsLast m prev)
  let m := m.write (prev + 8) (m.word (prev + 8) + (blockSize m block + blockHeaderOverhead))
  let (m, _) ← blockLinkNext m prev
  .ok (m, prev)

/-! ## Free lists -/

def inTable (fl sl : ℕ) : Except Fault Unit :=
  if fl < flIndexCount ∧ sl < slIndexCount then .ok () else .error .bounds

def setHead (blocks : ℕ → ℕ → ℕ) (fl sl block : ℕ) : ℕ → ℕ → ℕ :=
  Function.update blocks fl (Function.update (blocks fl) sl block)

def searchSuitableBlock (pool : Pool) (fl sl : ℕ) : Except Fault (Option (ℕ × ℕ × ℕ)) := do
  inTable fl sl
  let slMap := pool.slBitmap fl &&& (BitVec.allOnes 32 <<< sl)
  if slMap ≠ 0 then
    let sl := tlsfFfs slMap
    .ok (some (pool.blocks fl sl, fl, sl))
  else
    let flMap := pool.flBitmap &&& (BitVec.allOnes 32 <<< (fl + 1))
    if flMap = 0 then .ok none
    else do
      let fl := tlsfFfs flMap
      inTable fl 0
      let slMap := pool.slBitmap fl
      tlsfAssert (slMap ≠ 0)
      let sl := tlsfFfs slMap
      .ok (some (pool.blocks fl sl, fl, sl))

def replaceHead (pool : Pool) (next fl sl : ℕ) : Pool :=
  let blocks := setHead pool.blocks fl sl next
  if next = pool.address then
    let slMap := pool.slBitmap fl &&& ~~~((1 : BitVec 32) <<< sl)
    { pool with
      blocks := blocks
      slBitmap := Function.update pool.slBitmap fl slMap
      flBitmap := if slMap = 0 then pool.flBitmap &&& ~~~((1 : BitVec 32) <<< fl) else pool.flBitmap }
  else { pool with blocks := blocks }

def removeFreeBlock (pool : Pool) (block fl sl : ℕ) : Except Fault Pool := do
  let prev := pool.mem.word (block + 24)
  let next := pool.mem.word (block + 16)
  tlsfAssert (prev ≠ 0)
  tlsfAssert (next ≠ 0)
  inTable fl sl
  let pool := { pool with mem := (pool.mem.write (next + 24) prev).write (prev + 16) next }
  .ok (if pool.blocks fl sl = block then replaceHead pool next fl sl else pool)

def insertFreeBlock (pool : Pool) (block fl sl : ℕ) : Except Fault Pool := do
  inTable fl sl
  let current := pool.blocks fl sl
  tlsfAssert (current ≠ 0)
  tlsfAssert (block ≠ 0)
  assertAligned block
  .ok { pool with
    mem := ((pool.mem.write (block + 16) current).write (block + 24) pool.address).write
      (current + 24) block
    blocks := setHead pool.blocks fl sl block
    flBitmap := pool.flBitmap ||| ((1 : BitVec 32) <<< fl)
    slBitmap := Function.update pool.slBitmap fl (pool.slBitmap fl ||| ((1 : BitVec 32) <<< sl)) }

def blockRemove (pool : Pool) (block : ℕ) : Except Fault Pool :=
  let (fl, sl) := mappingInsert (blockSize pool.mem block)
  removeFreeBlock pool block fl sl

def blockInsert (pool : Pool) (block : ℕ) : Except Fault Pool :=
  let (fl, sl) := mappingInsert (blockSize pool.mem block)
  insertFreeBlock pool block fl sl

/-! ## Merging and trimming -/

def blockMergePrev (pool : Pool) (block : ℕ) : Except Fault (Pool × ℕ) :=
  if blockIsPrevFree pool.mem block then do
    let prev := blockPrev pool.mem block
    tlsfAssert (prev ≠ 0)
    tlsfAssert (blockIsFree pool.mem prev)
    let pool ← blockRemove pool prev
    let (m, block) ← blockAbsorb pool.mem prev block
    .ok ({ pool with mem := m }, block)
  else .ok (pool, block)

def blockMergeNext (pool : Pool) (block : ℕ) : Except Fault (Pool × ℕ) := do
  let next ← blockNext pool.mem block
  tlsfAssert (next ≠ 0)
  if blockIsFree pool.mem next then do
    tlsfAssert (¬ blockIsLast pool.mem block)
    let pool ← blockRemove pool next
    let (m, block) ← blockAbsorb pool.mem block next
    .ok ({ pool with mem := m }, block)
  else .ok (pool, block)

def blockTrimFree (pool : Pool) (block size : ℕ) : Except Fault Pool := do
  tlsfAssert (blockIsFree pool.mem block)
  if blockCanSplit pool.mem block size then do
    let (m, remaining) ← blockSplit pool.mem block size
    let (m, _) ← blockLinkNext m block
    let m := blockSetPrevFree m remaining
    blockInsert { pool with mem := m } remaining
  else .ok pool

def blockTrimUsed (pool : Pool) (block size : ℕ) : Except Fault Pool := do
  tlsfAssert (¬ blockIsFree pool.mem block)
  if blockCanSplit pool.mem block size then do
    let (m, remaining) ← blockSplit pool.mem block size
    let m := blockSetPrevUsed m remaining
    let (pool, remaining) ← blockMergeNext { pool with mem := m } remaining
    blockInsert pool remaining
  else .ok pool

def blockLocateFree (pool : Pool) (size : ℕ) : Except Fault (Pool × Option ℕ) :=
  if size ≠ 0 then do
    let (fl, sl) := mappingSearch size
    match ← searchSuitableBlock pool fl sl with
    | some (block, fl, sl) => do
      tlsfAssert (size ≤ blockSize pool.mem block)
      let pool ← removeFreeBlock pool block fl sl
      .ok (pool, some block)
    | none => .ok (pool, none)
  else .ok (pool, none)

def blockPrepareUsed (pool : Pool) (block : Option ℕ) (size : ℕ) : Except Fault (Pool × ℕ) :=
  match block with
  | some block => do
    let pool ← blockTrimFree pool block size
    let m ← blockMarkAsUsed pool.mem block
    .ok ({ pool with mem := m }, blockToPtr block)
  | none => .ok (pool, 0)

/-! ## The interface -/

def tlsfMalloc (pool : Pool) (size : ℕ) : Except Fault (Pool × ℕ) := do
  let adjust ← adjustRequestSize size 8
  let (pool, block) ← blockLocateFree pool adjust
  blockPrepareUsed pool block adjust

def tlsfFree (pool : Pool) (ptr : ℕ) : Except Fault Pool :=
  if ptr ≠ 0 then do
    let block := blockFromPtr ptr
    let m ← blockMarkAsFree pool.mem block
    let (pool, block) ← blockMergePrev { pool with mem := m } block
    let (pool, block) ← blockMergeNext pool block
    blockInsert pool block
  else .ok pool

/-- `n` bytes between addresses of words; the last word takes its low bytes from the source. -/
def memcpy (m : Mem) (dst src n : ℕ) : Mem where
  word := fun a =>
    if dst ≤ a ∧ a < dst + n / 8 * 8 then m.word (a - dst + src)
    else if a = dst + n / 8 * 8 then
      m.word a / 256 ^ (n % 8) * 256 ^ (n % 8) + m.word (src + n / 8 * 8) % 256 ^ (n % 8)
    else m.word a

def tlsfRealloc (pool : Pool) (ptr size : ℕ) : Except Fault (Pool × ℕ) :=
  if ptr ≠ 0 ∧ size = 0 then do
    let pool ← tlsfFree pool ptr
    .ok (pool, 0)
  else if ptr = 0 then tlsfMalloc pool size
  else do
    let block := blockFromPtr ptr
    let next ← blockNext pool.mem block
    let cursize := blockSize pool.mem block
    let combined := cursize + blockSize pool.mem next + blockHeaderOverhead
    let adjust ← adjustRequestSize size 8
    if cursize < adjust ∧ (¬ blockIsFree pool.mem next ∨ combined < adjust) then do
      let (pool, p) ← tlsfMalloc pool size
      if p ≠ 0 then do
        let m := memcpy pool.mem p ptr (min cursize size)
        let pool ← tlsfFree { pool with mem := m } ptr
        .ok (pool, p)
      else .ok (pool, p)
    else do
      let pool ← if cursize < adjust then do
          let (pool, _) ← blockMergeNext pool block
          let m ← blockMarkAsUsed pool.mem block
          .ok { pool with mem := m }
        else .ok pool
      let pool ← blockTrimUsed pool block adjust
      .ok (pool, ptr)

def tlsfBlockSize (pool : Pool) (ptr : ℕ) : ℕ :=
  if ptr ≠ 0 then blockSize pool.mem (blockFromPtr ptr) else 0

def tlsfOverhead : ℕ := sizeofPool + 2 * blockHeaderOverhead

def poolConstruct (address : ℕ) (m : Mem) : Pool where
  address := address
  mem := (m.write (address + 16) address).write (address + 24) address
  flBitmap := 0
  slBitmap := fun _ => 0
  blocks := fun _ _ => address

/-- The first block: its `prev_phys_block` is the last word of the pool structure. -/
def firstBlock (address : ℕ) : ℕ := address + sizeofPool - blockHeaderOverhead

def tlsfCreate (m : Mem) (address bytes : ℕ) : Except Fault (Option Pool) := do
  let poolBytes ← alignDown ((bytes + (2 ^ 64 - tlsfOverhead)) % 2 ^ 64) 8
  if poolBytes < blockSizeMin ∨ blockSizeMax < poolBytes then .ok none
  else do
    let pool := poolConstruct address m
    let block := firstBlock address
    let m := blockSetPrevUsed (blockSetFree (blockSetSize pool.mem block poolBytes) block) block
    let pool ← blockInsert { pool with mem := m } block
    let (m, next) ← blockLinkNext pool.mem block
    let m := blockSetPrevFree (blockSetUsed (blockSetSize m next 0) next) next
    .ok (some { pool with mem := m })

end Vmir.Tlsf
