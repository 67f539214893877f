import HeisenKernel.Base

/-!
# The kernel heap

`KernelHeap` (`system/memory/heap.cpp`) keeps the blocks of one address range in a doubly linked
list of headers that lie in front of the blocks, inside the range itself.
-/

namespace HeisenKernel

/-- `PAGE_SIZE` (`virtualmemory.h:29`). -/
def pageSize : Nat := 4096

/-- `MEMORY_HEADER_MAGIC` (`heap.h:18`). -/
def memoryHeaderMagic : Nat := 1234567890

/-- `MINIMAL_SPLIT_SIZE` (`heap.h:15`). -/
def minimalSplitSize : Nat := 4

/-- The words of a `MemoryHeader` (`heap.h:25`). -/
inductive Field where
  | magic
  | next
  | prev
  | allocated
  | size
deriving Repr, DecidableEq

/-- Byte offset of a word of the packed `MemoryHeader`. -/
def Field.offset : Field → Nat
  | .magic => 0
  | .next => 4
  | .prev => 8
  | .allocated => 12
  | .size => 16

/-- `sizeof(MemoryHeader)`. -/
def sizeofMemoryHeader : Nat := 20

/-- `align_up` (`heap.h:21`) of a 32-bit number. -/
def alignUp (num align : Nat) : Nat :=
  u32 (num + (align - 1)) &&& (2 ^ 32 - 1 - (align - 1))

/-- The static members of `KernelHeap` (`heap.cpp:9`) and the memory the headers lie in: the word
at each address. -/
structure KernelHeap where
  mem : Nat → Nat
  startAddress : Nat
  endAddress : Nat
  firstHeader : Nat

namespace KernelHeap

/-- `block->field`. -/
def field (h : KernelHeap) (block : Nat) (f : Field) : Nat := h.mem (block + f.offset)

/-- A store of the word `value` at the address `addr`. -/
def store (h : KernelHeap) (addr value : Nat) : KernelHeap :=
  { h with mem := Function.update h.mem addr value }

/-- `block->field = value`. -/
def set (h : KernelHeap) (block : Nat) (f : Field) (value : Nat) : KernelHeap :=
  h.store (block + f.offset) value

/-- `KernelHeap::Initialize` (`heap.cpp:14`), over the memory `mem`. -/
def initializeRange (mem : Nat → Nat) (start stop : Nat) : Exec KernelHeap :=
  if start % pageSize ≠ 0 ∨ stop % pageSize ≠ 0 then .error .panic
  else
    let h : KernelHeap := ⟨mem, start, stop, start⟩
    let h := h.set start .allocated 0
    let h := h.set start .prev 0
    let h := h.set start .next 0
    let h := h.set start .size (sub32 (sub32 stop start) sizeofMemoryHeader)
    .ok (h.set start .magic memoryHeaderMagic)

/-- The loop of `KernelHeap::FirstFree` (`heap.cpp:35`) from `block` on, for at most `fuel` headers.
It gives `0` when no block is large enough. -/
def firstFree (h : KernelHeap) (size : Nat) : Nat → Nat → Exec Nat
  | 0, _ => .error .loop
  | fuel + 1, block =>
    if block ≠ 0 ∧ h.field block .magic = memoryHeaderMagic then
      if h.field block .allocated ≠ 0 ∨ h.field block .size < size then
        firstFree h size fuel (h.field block .next)
      else .ok block
    else .ok 0

/-- The part of `InternalAllocate` (`heap.cpp:73`) that splits `freeBlock` behind `size` bytes. -/
def split (h : KernelHeap) (freeBlock size : Nat) : KernelHeap :=
  let nextBlock := u32 (freeBlock + size + sizeofMemoryHeader)
  let h := h.set nextBlock .allocated 0
  let h := h.set nextBlock .size (sub32 (sub32 (h.field freeBlock .size) size) sizeofMemoryHeader)
  let h := h.set nextBlock .prev freeBlock
  let h := h.set nextBlock .next (h.field freeBlock .next)
  let h := if h.field freeBlock .next ≠ 0 then h.set (h.field freeBlock .next) .prev nextBlock else h
  let h := h.set nextBlock .magic memoryHeaderMagic
  h.set freeBlock .next nextBlock

/-- `KernelHeap::InternalAllocate` (`heap.cpp:49`). A list of headers in 32-bit memory has less than
`2 ^ 32` of them, so a search that takes more steps goes round for ever. -/
def internalAllocate (h : KernelHeap) (request : Nat) : Exec (Nat × KernelHeap) := do
  let size := alignUp request 4
  let freeBlock ← h.firstFree size (2 ^ 32) h.firstHeader
  if freeBlock = 0 then
    .error .panic
  else
    let h := if h.field freeBlock .size ≥ u32 (size + sizeofMemoryHeader + minimalSplitSize)
      then h.split freeBlock size else h
    let h := h.set freeBlock .allocated 1
    let h := h.set freeBlock .size size
    .ok (u32 (freeBlock + sizeofMemoryHeader), h)

/-- `KernelHeap::malloc` (`heap.cpp:151`) without the physical address it can return. -/
def malloc (h : KernelHeap) (size : Nat) : Exec (Nat × KernelHeap) := h.internalAllocate size

/-- The first merge of `free` (`heap.cpp:117`): a free block in front of `block` takes it in. The
result is the block to go on with. -/
def mergePrev (h : KernelHeap) (block : Nat) : Nat × KernelHeap :=
  let prev := h.field block .prev
  if prev ≠ 0 ∧ h.field prev .allocated = 0 then
    let h := h.set prev .next (h.field block .next)
    let h := h.set prev .size (u32 (h.field prev .size + (h.field block .size + sizeofMemoryHeader)))
    let h := if h.field block .next ≠ 0
      then h.set (h.field block .next) .prev (h.field block .prev) else h
    (h.field block .prev, h)
  else (block, h)

/-- The second merge of `free` (`heap.cpp:134`): `block` takes in a free block behind it. -/
def mergeNext (h : KernelHeap) (block : Nat) : KernelHeap :=
  let next := h.field block .next
  if next ≠ 0 ∧ h.field next .allocated = 0 then
    let h := h.set block .size (u32 (h.field block .size + (h.field next .size + sizeofMemoryHeader)))
    let h := h.set block .next (h.field (h.field block .next) .next)
    if h.field block .next ≠ 0 then h.set (h.field block .next) .prev block else h
  else h

/-- `KernelHeap::free` (`heap.cpp:98`). -/
def free (h : KernelHeap) (ptr : Nat) : Exec KernelHeap :=
  let block := sub32 ptr sizeofMemoryHeader
  if h.field block .magic ≠ memoryHeaderMagic ∨ h.field block .allocated = 0 then .error .panic
  else
    let h := h.set block .allocated 0
    let (block, h) := h.mergePrev block
    .ok (h.mergeNext block)

end KernelHeap

end HeisenKernel
