import HeisenKernel.Base
import HeisenKernel.Lib.Bitmap
import Mathlib.Data.Nat.Bitwise

/-!
# The physical memory manager

Translation of `core/physicalmemory.h` and `core/physicalmemory.cpp`. One bit of `memoryArray` says
whether a block (a page frame of 4 KB) is in use.
-/

namespace HeisenKernel

/-- `BLOCK_SIZE` (`physicalmemory.h:14`). -/
def blockSize : Nat := 4096

/-- `BLOCKS_PER_BYTE` (`physicalmemory.h:15`). -/
def blocksPerByte : Nat := 8

/-- `(uint32_t)-1`, what the searches return when they find nothing. -/
def noFrame : Nat := 2 ^ 32 - 1

/-- The static state of `PhysicalMemoryManager`, with the words of memory from the bitmap on. -/
structure PhysicalMemoryManager where
  memorySize : Nat
  usedBlocks : Nat
  maximumBlocks : Nat
  memoryArray : Nat → BitVec 32
  touched : List Nat

namespace PhysicalMemoryManager

section
variable (m : PhysicalMemoryManager)

/-- `SetBit` (`physicalmemory.h:34`). -/
def setBit (bit : Nat) : PhysicalMemoryManager :=
  { m with
    memoryArray := Function.update m.memoryArray (bit / 32) (m.memoryArray (bit / 32) ||| 1#32 <<< (bit % 32))
    touched := bit :: m.touched }

/-- `UnsetBit` (`physicalmemory.h:38`). -/
def unsetBit (bit : Nat) : PhysicalMemoryManager :=
  { m with
    memoryArray := Function.update m.memoryArray (bit / 32)
      (m.memoryArray (bit / 32) &&& ~~~(1#32 <<< (bit % 32)))
    touched := bit :: m.touched }

/-- `TestBit` (`physicalmemory.h:42`). -/
def testBit (bit : Nat) : Bool :=
  m.memoryArray (bit / 32) &&& 1#32 <<< (bit % 32) != 0#32

/-- `FreeBlocks()` (`physicalmemory.cpp:196`). -/
def freeBlockCount : Nat := sub32 m.maximumBlocks m.usedBlocks

/-- `GetBitmapSize` (`physicalmemory.cpp:204`), in bytes. -/
def getBitmapSize : Nat := m.memorySize / blockSize / blocksPerByte

/-- The two nested loops of the searches: the first clear bit of the first `TotalBlocks()` words
that `accept` takes. A word with all bits set is skipped. -/
def firstAccepted (accept : Nat → Bool) : Nat :=
  ((List.range m.maximumBlocks).findSome? fun i =>
    if m.memoryArray i = 0xffffffff#32 then none
    else (List.range 32).findSome? fun j =>
      if m.memoryArray i &&& 1#32 <<< j = 0#32 then
        if accept (i * 4 * 8 + j) then some (i * 4 * 8 + j) else none
      else none).getD noFrame

/-- `FirstFree` (`physicalmemory.cpp:14`). -/
def firstFree : Nat := m.firstAccepted fun _ => true

/-- The loop over the bits from `startingBit` on (`physicalmemory.cpp:49`) from `count` with `left`
passes to go: whether the number of clear bits seen reaches `size`. It is not reset at a set bit. -/
def enoughFree (size startingBit : Nat) : (left count free : Nat) → Bool
  | 0, _, _ => false
  | left + 1, count, free =>
    let free := if !m.testBit (u32 (startingBit + count)) then free + 1 else free
    if free = size then true else enoughFree size startingBit left (count + 1) free

/-- `FirstFreeSize` (`physicalmemory.cpp:28`). The loop over `count` runs from 0 to `size`
inclusive. -/
def firstFreeSize (size : Nat) : Nat :=
  if size = 0 then noFrame
  else if size = 1 then m.firstFree
  else m.firstAccepted fun startingBit => m.enoughFree size startingBit (size + 1) 0 0

/-- `AllocateBlock` (`physicalmemory.cpp:133`): the address of the block, 0 for none. -/
def allocateBlock : Nat × PhysicalMemoryManager :=
  if m.freeBlockCount ≤ 0 then (0, m)
  else if m.firstFree = noFrame then (0, m)
  else (u32 (m.firstFree * blockSize), { m.setBit m.firstFree with usedBlocks := u32 (m.usedBlocks + 1) })

/-- `FreeBlock` (`physicalmemory.cpp:150`). -/
def freeBlock (ptr : Nat) : PhysicalMemoryManager :=
  { m.unsetBit (ptr / blockSize) with usedBlocks := sub32 m.usedBlocks 1 }

/-- The blocks of the loop `for (i = 0; i < size; i++)` from `frame` on. -/
def blocksFrom (frame size : Nat) : List Nat := (List.range size).map fun i => u32 (frame + i)

/-- `AllocateBlocks` (`physicalmemory.cpp:159`): the address of the first block, 0 for none. -/
def allocateBlocks (size : Nat) : Nat × PhysicalMemoryManager :=
  if m.freeBlockCount ≤ size then (0, m)
  else if m.firstFreeSize size = noFrame then (0, m)
  else (u32 (m.firstFreeSize size * blockSize),
    { (blocksFrom (m.firstFreeSize size) size).foldl setBit m with usedBlocks := u32 (m.usedBlocks + size) })

/-- `FreeBlocks(ptr, size)` (`physicalmemory.cpp:177`). -/
def freeBlocks (ptr size : Nat) : PhysicalMemoryManager :=
  { (blocksFrom (ptr / blockSize) size).foldl unsetBit m with usedBlocks := sub32 m.usedBlocks size }

/-- `SetRegionFree` (`physicalmemory.cpp:83`). -/
def setRegionFree (base size : Nat) : PhysicalMemoryManager :=
  ((blocksFrom (base / blockSize) (size / blockSize)).foldl
    (fun m block => { m.unsetBit block with usedBlocks := sub32 m.usedBlocks 1 }) m).setBit 0

/-- `SetRegionUsed` (`physicalmemory.cpp:95`). -/
def setRegionUsed (base size : Nat) : PhysicalMemoryManager :=
  ((blocksFrom (base / blockSize) (size / blockSize)).foldl
    (fun m block => { m.setBit block with usedBlocks := u32 (m.usedBlocks + 1) }) m).setBit 0

end

variable {m : PhysicalMemoryManager}

theorem testBit_eq (b : Nat) : m.testBit b = Lib.Bitmap.bit m.memoryArray b := by
  have h := Lib.Bitmap.and_shift_eq_zero (m.memoryArray (b / 32)) (Nat.mod_lt b (by decide : 32 > 0))
  unfold testBit Lib.Bitmap.bit
  cases hb : (m.memoryArray (b / 32)).getLsbD (b % 32) with
  | false => simpa using h.2 hb
  | true => simp [h, hb]

@[simp] theorem testBit_setBit (a b : Nat) : (m.setBit a).testBit b = (m.testBit b || decide (b = a)) := by
  rw [testBit_eq, testBit_eq]
  exact Lib.Bitmap.bit_set a b

@[simp] theorem testBit_unsetBit (a b : Nat) :
    (m.unsetBit a).testBit b = (m.testBit b && !decide (b = a)) := by
  rw [testBit_eq, testBit_eq]
  exact Lib.Bitmap.bit_unset a b

theorem testBit_foldl_setBit (l : List Nat) (b : Nat) :
    (l.foldl setBit m).testBit b = (m.testBit b || decide (b ∈ l)) := by
  induction l generalizing m with
  | nil => simp
  | cons a l ih => simp [ih, Bool.or_assoc]

theorem testBit_foldl_unsetBit (l : List Nat) (b : Nat) :
    (l.foldl unsetBit m).testBit b = (m.testBit b && !decide (b ∈ l)) := by
  induction l generalizing m with
  | nil => simp
  | cons a l ih => simp [ih, Bool.and_assoc]

@[simp] theorem length_blocksFrom {frame size : Nat} : (blocksFrom frame size).length = size := by
  simp [blocksFrom]

theorem mem_blocksFrom {frame size b : Nat} (h : frame + size ≤ 2 ^ 32) :
    b ∈ blocksFrom frame size ↔ frame ≤ b ∧ b < frame + size :=
  mem_map_u32 h

theorem firstAccepted_eq (accept : Nat → Bool) : m.firstAccepted accept =
    ((List.range (m.maximumBlocks * 32)).find? fun b => !m.testBit b && accept b).getD noFrame := by
  have hfind : m.firstAccepted accept =
      (Lib.Bitmap.findClear m.memoryArray m.maximumBlocks accept).getD noFrame := by
    simp only [firstAccepted, mul_assoc]
    rfl
  rw [hfind, Lib.Bitmap.findClear_eq]
  simp only [testBit_eq]

end PhysicalMemoryManager

end HeisenKernel
