import Mathlib.Data.Nat.Bitwise
import Mathlib.Logic.Function.Basic

/-! The two-level segregated fit allocator: words of memory, bitmaps and lists of free blocks. -/
namespace Bipscript

/-- The memory as words by byte address, and the control structure. The control structure begins
with `block_null`, so that its address is the null block's; its bitmaps and its list heads are kept
here as fields, indexed as its arrays are. -/
structure Tlsf where
  control : ℕ
  words : ℕ → ℕ
  flBitmap : ℕ
  slBitmap : ℕ → ℕ
  blocks : ℕ → ℕ → ℕ

namespace Tlsf

def SL_INDEX_COUNT_LOG2 : ℕ := 5

def ALIGN_SIZE_LOG2 : ℕ := 3

def ALIGN_SIZE : ℕ := 1 <<< ALIGN_SIZE_LOG2

def FL_INDEX_MAX : ℕ := 32

def SL_INDEX_COUNT : ℕ := 1 <<< SL_INDEX_COUNT_LOG2

def FL_INDEX_SHIFT : ℕ := SL_INDEX_COUNT_LOG2 + ALIGN_SIZE_LOG2

def FL_INDEX_COUNT : ℕ := FL_INDEX_MAX - FL_INDEX_SHIFT + 1

def SMALL_BLOCK_SIZE : ℕ := 1 <<< FL_INDEX_SHIFT

/-- `sizeof(block_header_t)`: four words. -/
def blockHeaderSize : ℕ := 32

def blockHeaderFreeBit : ℕ := 1 <<< 0

def blockHeaderPrevFreeBit : ℕ := 1 <<< 1

def blockHeaderOverhead : ℕ := 8

def blockStartOffset : ℕ := 16

def blockSizeMin : ℕ := blockHeaderSize - 8

def blockSizeMax : ℕ := 1 <<< FL_INDEX_MAX

/-! Bits of a word. -/

/-- `word & ~mask`. -/
def clearBits (word mask : ℕ) : ℕ := word ^^^ (word &&& mask)

/-- `~0U << n`, of 32 bits. -/
def onesFrom (n : ℕ) : ℕ := 0xffffffff <<< n % 0x100000000

/-- The index of the lowest bit set, plus one; zero if there is none. -/
def builtinFfs (word : ℕ) : ℕ :=
  match (List.range 32).find? fun i => word.testBit i with
  | none => 0
  | some i => i + 1

/-- The number of zeroes above the highest bit set of a word that is not zero. -/
def builtinClz (word : ℕ) : ℕ := 31 - Nat.log2 word

def tlsfFfs (word : ℕ) : ℤ := builtinFfs word - 1

def tlsfFls (word : ℕ) : ℤ := (if word ≠ 0 then 32 - (builtinClz word : ℤ) else 0) - 1

def tlsfFlsSizet (size : ℕ) : ℤ :=
  let high := size >>> 32
  if high ≠ 0 then 32 + tlsfFls high else tlsfFls (size &&& 0xffffffff)

/-! Sizes and addresses. -/

def alignUp (x align : ℕ) : ℕ := clearBits (x + (align - 1)) (align - 1)

def alignDown (x align : ℕ) : ℕ := x - (x &&& (align - 1))

def alignPtr (ptr : ℕ) (align : ℕ) : ℕ := clearBits (ptr + (align - 1)) (align - 1)

def adjustRequestSize (size align : ℕ) : ℕ :=
  if size ≠ 0 ∧ size < blockSizeMax then max (alignUp size align) blockSizeMin else 0

/-- The first- and second-level indexes of the list a block of this size is in. -/
def mappingInsert (size : ℕ) : ℕ × ℕ :=
  if size < SMALL_BLOCK_SIZE then
    (0, size / (SMALL_BLOCK_SIZE / SL_INDEX_COUNT))
  else
    let fl := (tlsfFlsSizet size).toNat
    let sl := (size >>> (fl - SL_INDEX_COUNT_LOG2)) ^^^ (1 <<< SL_INDEX_COUNT_LOG2)
    (fl - (FL_INDEX_SHIFT - 1), sl)

/-- This version rounds up to the next block size. -/
def mappingSearch (size : ℕ) : ℕ × ℕ :=
  if SMALL_BLOCK_SIZE ≤ size then
    mappingInsert (size + (1 <<< ((tlsfFlsSizet size).toNat - SL_INDEX_COUNT_LOG2) - 1))
  else mappingInsert size

def blockFromPtr (ptr : ℕ) : ℕ := ptr - blockStartOffset

def blockToPtr (block : ℕ) : ℕ := block + blockStartOffset

def offsetToBlock (ptr : ℕ) (size : ℤ) : ℕ := (ptr + size).toNat

/-! The fields of a block header. -/

/-- An assertion: the program stops where it fails. -/
def tlsfAssert (p : Prop) [Decidable p] : Option Unit := if p then some () else none

def write (s : Tlsf) (a : ℕ) (v : ℕ) : Tlsf :=
  { s with words := Function.update s.words a v }

def prevPhysBlock (s : Tlsf) (block : ℕ) : ℕ := s.words block

def sizeField (s : Tlsf) (block : ℕ) : ℕ := s.words (block + 8)

def nextFree (s : Tlsf) (block : ℕ) : ℕ := s.words (block + 16)

def prevFree (s : Tlsf) (block : ℕ) : ℕ := s.words (block + 24)

def setPrevPhysBlock (s : Tlsf) (block v : ℕ) : Tlsf := s.write block v

def setSizeField (s : Tlsf) (block : ℕ) (v : ℕ) : Tlsf := s.write (block + 8) v

def setNextFree (s : Tlsf) (block v : ℕ) : Tlsf := s.write (block + 16) v

def setPrevFree (s : Tlsf) (block v : ℕ) : Tlsf := s.write (block + 24) v

def blockSize (s : Tlsf) (block : ℕ) : ℕ :=
  clearBits (s.sizeField block) (blockHeaderFreeBit ||| blockHeaderPrevFreeBit)

def blockSetSize (s : Tlsf) (block : ℕ) (size : ℕ) : Tlsf :=
  s.setSizeField block
    (size ||| (s.sizeField block &&& (blockHeaderFreeBit ||| blockHeaderPrevFreeBit)))

def blockIsLast (s : Tlsf) (block : ℕ) : Prop := s.blockSize block = 0

def blockIsFree (s : Tlsf) (block : ℕ) : Prop :=
  s.sizeField block &&& blockHeaderFreeBit ≠ 0

def blockIsPrevFree (s : Tlsf) (block : ℕ) : Prop :=
  s.sizeField block &&& blockHeaderPrevFreeBit ≠ 0

instance (s : Tlsf) (block : ℕ) : Decidable (s.blockIsLast block) :=
  inferInstanceAs (Decidable (_ = _))

instance (s : Tlsf) (block : ℕ) : Decidable (s.blockIsFree block) :=
  inferInstanceAs (Decidable (_ ≠ _))

instance (s : Tlsf) (block : ℕ) : Decidable (s.blockIsPrevFree block) :=
  inferInstanceAs (Decidable (_ ≠ _))

def blockSetFree (s : Tlsf) (block : ℕ) : Tlsf :=
  s.setSizeField block (s.sizeField block ||| blockHeaderFreeBit)

def blockSetUsed (s : Tlsf) (block : ℕ) : Tlsf :=
  s.setSizeField block (clearBits (s.sizeField block) blockHeaderFreeBit)

def blockSetPrevFree (s : Tlsf) (block : ℕ) : Tlsf :=
  s.setSizeField block (s.sizeField block ||| blockHeaderPrevFreeBit)

def blockSetPrevUsed (s : Tlsf) (block : ℕ) : Tlsf :=
  s.setSizeField block (clearBits (s.sizeField block) blockHeaderPrevFreeBit)

def blockPrev (s : Tlsf) (block : ℕ) : Option ℕ := do
  tlsfAssert (s.blockIsPrevFree block)
  pure (s.prevPhysBlock block)

def blockNext (s : Tlsf) (block : ℕ) : Option ℕ := do
  let next := offsetToBlock (blockToPtr block) (s.blockSize block - blockHeaderOverhead)
  tlsfAssert (¬ s.blockIsLast block)
  pure next

/-- Links a block with its physical neighbor and returns the neighbor. -/
def blockLinkNext (s : Tlsf) (block : ℕ) : Option (ℕ × Tlsf) := do
  let next ← s.blockNext block
  pure (next, s.setPrevPhysBlock next block)

def blockMarkAsFree (s : Tlsf) (block : ℕ) : Option Tlsf := do
  let (next, s) ← s.blockLinkNext block
  pure ((s.blockSetPrevFree next).blockSetFree block)

def blockMarkAsUsed (s : Tlsf) (block : ℕ) : Option Tlsf := do
  let next ← s.blockNext block
  pure ((s.blockSetPrevUsed next).blockSetUsed block)

/-! The lists of free blocks. -/

def setHead (s : Tlsf) (fl sl : ℕ) (block : ℕ) : Tlsf :=
  { s with blocks := Function.update s.blocks fl (Function.update (s.blocks fl) sl block) }

/-- The search for a list that is not empty, from the indexes given on: its first block and its own
indexes, or null. -/
def searchSuitableBlock (s : Tlsf) (fl sl : ℕ) : Option (Option (ℕ × ℕ × ℕ)) := do
  let slMap := s.slBitmap fl &&& onesFrom sl
  if slMap ≠ 0 then
    let sl := (tlsfFfs slMap).toNat
    pure (some (s.blocks fl sl, fl, sl))
  else
    let flMap := s.flBitmap &&& onesFrom (fl + 1)
    if flMap = 0 then pure none
    else
      let fl := (tlsfFfs flMap).toNat
      let slMap := s.slBitmap fl
      tlsfAssert (slMap ≠ 0)
      let sl := (tlsfFfs slMap).toNat
      pure (some (s.blocks fl sl, fl, sl))

def removeFreeBlock (s : Tlsf) (block : ℕ) (fl sl : ℕ) : Option Tlsf := do
  let prev := s.prevFree block
  let next := s.nextFree block
  tlsfAssert (prev ≠ 0)
  tlsfAssert (next ≠ 0)
  let s := s.setPrevFree next prev
  let s := s.setNextFree prev next
  if s.blocks fl sl = block then
    let s := s.setHead fl sl next
    if next = s.control then
      let slMap := clearBits (s.slBitmap fl) (1 <<< sl)
      let s := { s with slBitmap := Function.update s.slBitmap fl slMap }
      if slMap = 0 then pure { s with flBitmap := clearBits s.flBitmap (1 <<< fl) } else pure s
    else pure s
  else pure s

def insertFreeBlock (s : Tlsf) (block : ℕ) (fl sl : ℕ) : Option Tlsf := do
  let current := s.blocks fl sl
  tlsfAssert (current ≠ 0)
  tlsfAssert (block ≠ 0)
  let s := s.setNextFree block current
  let s := s.setPrevFree block s.control
  let s := s.setPrevFree current block
  tlsfAssert (blockToPtr block = alignPtr (blockToPtr block) ALIGN_SIZE)
  let s := s.setHead fl sl block
  pure
    { s with
      flBitmap := s.flBitmap ||| (1 <<< fl)
      slBitmap := Function.update s.slBitmap fl (s.slBitmap fl ||| (1 <<< sl)) }

def blockRemove (s : Tlsf) (block : ℕ) : Option Tlsf :=
  let (fl, sl) := mappingInsert (s.blockSize block)
  s.removeFreeBlock block fl sl

def blockInsert (s : Tlsf) (block : ℕ) : Option Tlsf :=
  let (fl, sl) := mappingInsert (s.blockSize block)
  s.insertFreeBlock block fl sl

/-! Splitting and merging. -/

def blockCanSplit (s : Tlsf) (block : ℕ) (size : ℕ) : Prop :=
  blockHeaderSize + size ≤ s.blockSize block

instance (s : Tlsf) (block : ℕ) (size : ℕ) : Decidable (s.blockCanSplit block size) :=
  inferInstanceAs (Decidable (_ ≤ _))

/-- Splits a block in two, the second of which is free. -/
def blockSplit (s : Tlsf) (block : ℕ) (size : ℕ) : Option (ℕ × Tlsf) := do
  let remaining := offsetToBlock (blockToPtr block) (size - blockHeaderOverhead)
  let remainSize := s.blockSize block - (size + blockHeaderOverhead)
  tlsfAssert (blockToPtr remaining = alignPtr (blockToPtr remaining) ALIGN_SIZE)
  tlsfAssert (s.blockSize block = remainSize + size + blockHeaderOverhead)
  let s := s.blockSetSize remaining remainSize
  tlsfAssert (blockSizeMin ≤ s.blockSize remaining)
  let s := s.blockSetSize block size
  let s ← s.blockMarkAsFree remaining
  pure (remaining, s)

/-- Absorbs a block's storage into the free one before it. -/
def blockAbsorb (s : Tlsf) (prev block : ℕ) : Option (ℕ × Tlsf) := do
  tlsfAssert (¬ s.blockIsLast prev)
  let s := s.setSizeField prev (s.sizeField prev + (s.blockSize block + blockHeaderOverhead))
  let (_, s) ← s.blockLinkNext prev
  pure (prev, s)

def blockMergePrev (s : Tlsf) (block : ℕ) : Option (ℕ × Tlsf) := do
  if s.blockIsPrevFree block then
    let prev ← s.blockPrev block
    tlsfAssert (prev ≠ 0)
    tlsfAssert (s.blockIsFree prev)
    let s ← s.blockRemove prev
    s.blockAbsorb prev block
  else pure (block, s)

def blockMergeNext (s : Tlsf) (block : ℕ) : Option (ℕ × Tlsf) := do
  let next ← s.blockNext block
  tlsfAssert (next ≠ 0)
  if s.blockIsFree next then
    tlsfAssert (¬ s.blockIsLast block)
    let s ← s.blockRemove next
    s.blockAbsorb block next
  else pure (block, s)

/-- Trims a free block to the size wanted, the rest going back to the lists. -/
def blockTrimFree (s : Tlsf) (block : ℕ) (size : ℕ) : Option Tlsf := do
  tlsfAssert (s.blockIsFree block)
  if s.blockCanSplit block size then
    let (remainingBlock, s) ← s.blockSplit block size
    let (_, s) ← s.blockLinkNext block
    (s.blockSetPrevFree remainingBlock).blockInsert remainingBlock
  else pure s

/-- A free block for `size` bytes, taken out of its list, or null. -/
def blockLocateFree (s : Tlsf) (size : ℕ) : Option (Option ℕ × Tlsf) := do
  if size = 0 then pure (none, s)
  else
    let (fl, sl) := mappingSearch size
    match ← s.searchSuitableBlock fl sl with
    | none => pure (none, s)
    | some (block, fl, sl) =>
      tlsfAssert (size ≤ s.blockSize block)
      let s ← s.removeFreeBlock block fl sl
      pure (some block, s)

def blockPrepareUsed (s : Tlsf) (block : Option ℕ) (size : ℕ) :
    Option (Option ℕ × Tlsf) := do
  match block with
  | none => pure (none, s)
  | some block =>
    tlsfAssert (size ≠ 0)
    let s ← s.blockTrimFree block size
    let s ← s.blockMarkAsUsed block
    pure (some (blockToPtr block), s)

/-! The interface. -/

/-- `sizeof(control_t)`: the null block, the bitmaps and the list heads. -/
def tlsfSize : ℕ := blockHeaderSize + 4 + 4 * FL_INDEX_COUNT + 8 * (FL_INDEX_COUNT * SL_INDEX_COUNT)

def tlsfPoolOverhead : ℕ := 2 * blockHeaderOverhead

/-- All lists empty: their heads point at the null block. -/
def controlConstruct (mem : ℕ) (words : ℕ → ℕ) : Tlsf where
  control := mem
  words := Function.update (Function.update words (mem + 16) mem) (mem + 24) mem
  flBitmap := 0
  slBitmap := fun _ => 0
  blocks := fun _ _ => mem

def tlsfCreate (mem : ℕ) (words : ℕ → ℕ) : Option Tlsf :=
  if mem % ALIGN_SIZE ≠ 0 then none else some (controlConstruct mem words)

/-- A pool that is not aligned, or of a size out of range, is not added. -/
def tlsfAddPool (s : Tlsf) (mem : ℕ) (bytes : ℕ) : Option Tlsf := do
  let poolBytes := alignDown (bytes - tlsfPoolOverhead) ALIGN_SIZE
  if mem % ALIGN_SIZE ≠ 0 then pure s
  else if poolBytes < blockSizeMin ∨ blockSizeMax < poolBytes then pure s
  else
    let block := offsetToBlock mem (-(blockHeaderOverhead : ℤ))
    let s := s.blockSetSize block poolBytes
    let s := s.blockSetFree block
    let s := s.blockSetPrevUsed block
    let s ← s.blockInsert block
    let (next, s) ← s.blockLinkNext block
    let s := s.blockSetSize next 0
    let s := s.blockSetUsed next
    pure (s.blockSetPrevFree next)

def tlsfCreateWithPool (mem : ℕ) (bytes : ℕ) (words : ℕ → ℕ) : Option Tlsf := do
  let s ← tlsfCreate mem words
  s.tlsfAddPool (mem + tlsfSize) (bytes - tlsfSize)

def tlsfMalloc (s : Tlsf) (size : ℕ) : Option (Option ℕ × Tlsf) := do
  let adjust := adjustRequestSize size ALIGN_SIZE
  let (block, s) ← s.blockLocateFree adjust
  s.blockPrepareUsed block adjust

def tlsfFree (s : Tlsf) (ptr : Option ℕ) : Option Tlsf := do
  match ptr with
  | none => pure s
  | some ptr =>
    let block := blockFromPtr ptr
    tlsfAssert (¬ s.blockIsFree block)
    let s ← s.blockMarkAsFree block
    let (block, s) ← s.blockMergePrev block
    let (block, s) ← s.blockMergeNext block
    s.blockInsert block

end Tlsf

end Bipscript
