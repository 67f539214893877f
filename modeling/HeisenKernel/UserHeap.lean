import HeisenKernel.Bytes
import HeisenKernel.PhysicalMemory.Boot

/-!
# The user heap

`UserHeap` (`lib/src/heap.cpp`) is the heap that a process has of its own. It is built like the
kernel heap, with packed headers of 13 bytes in front of the blocks, and asks the kernel for a
larger heap when no block is large enough.
-/

namespace HeisenKernel

/-- `HEAP_INCREASE_SIZE` (`lib/include/heap.h:16`). -/
def heapIncreaseSize : Nat := 10 * 2 ^ 20

/-- The fields of the `MemoryHeader` of the user heap (`lib/include/heap.h:18`). -/
inductive HeaderField where
  | next
  | prev
  | allocated
  | size
deriving Repr, DecidableEq

/-- Byte offset of a field of the packed header. -/
def HeaderField.offset : HeaderField → Nat
  | .next => 0
  | .prev => 4
  | .allocated => 8
  | .size => 9

/-- The number of values that a field can hold. -/
def HeaderField.bound : HeaderField → Nat
  | .allocated => 256
  | _ => 2 ^ 32

/-- `sizeof(MemoryHeader)` in the user heap: two pointers, a `bool` and a 32-bit size. -/
def sizeofUserHeader : Nat := 13

/-- The static members of `UserHeap` (`lib/src/heap.cpp:7`) and the memory of the process. -/
structure UserHeap where
  mem : Buffer
  startAddress : Nat
  endAddress : Nat
  firstHeader : Nat

namespace UserHeap

/-- `hdr->field`. -/
def field (h : UserHeap) (hdr : Nat) : HeaderField → Nat
  | .allocated => (h.mem (hdr + HeaderField.allocated.offset)).toNat
  | f => word32 h.mem (hdr + f.offset)

/-- `hdr->field = value`. -/
def set (h : UserHeap) (hdr : Nat) (f : HeaderField) (value : Nat) : UserHeap :=
  { h with mem := match f with
    | .allocated => putByte h.mem (hdr + HeaderField.allocated.offset) value
    | f => putWord32 h.mem (hdr + f.offset) value }

/-- `UserHeap::Initialize` (`lib/src/heap.cpp:100`), with what the system calls answer for the start
and the end of the heap. -/
def initializeHeap (mem : Buffer) (heapStart heapEnd : Nat) : UserHeap :=
  let h : UserHeap := ⟨mem, heapStart, heapEnd, heapStart⟩
  let h := h.set heapStart .allocated 0
  let h := h.set heapStart .prev 0
  let h := h.set heapStart .next 0
  h.set heapStart .size (sub32 (sub32 heapEnd heapStart) sizeofUserHeader)

/-- The first loop of `Malloc` (`lib/src/heap.cpp:30`) from `hdr` on, for at most `fuel` headers. It
gives `0` when no block is large enough. -/
def findFree (h : UserHeap) (size : Nat) : (fuel hdr : Nat) → Exec Nat
  | 0, _ => .error .loop
  | fuel + 1, hdr =>
    if hdr ≠ 0 then
      if h.field hdr .size > size ∧ h.field hdr .allocated = 0 then .ok hdr
      else findFree h size fuel (h.field hdr .next)
    else .ok 0

/-- The loop `Find last block` of `Malloc` (`lib/src/heap.cpp:44`): the last header that is free. -/
def lastFree (h : UserHeap) : (fuel hdr lastHeader : Nat) → Exec Nat
  | 0, _, _ => .error .loop
  | fuel + 1, hdr, lastHeader =>
    if hdr ≠ 0 then
      lastFree h fuel (h.field hdr .next) (if h.field hdr .allocated = 0 then hdr else lastHeader)
    else .ok lastHeader

/-- The part of `Malloc` (`lib/src/heap.cpp:61`) that splits `freeBlock` behind `size` bytes. -/
def split (h : UserHeap) (freeBlock size : Nat) : UserHeap :=
  let temp := u32 (freeBlock + sizeofUserHeader + size)
  let h := h.set temp .allocated 0
  let h := h.set temp .size (sub32 (sub32 (h.field freeBlock .size) size) sizeofUserHeader)
  let h := h.set temp .prev freeBlock
  let h := h.set temp .next (h.field freeBlock .next)
  let h := if h.field temp .next ≠ 0 then h.set (h.field temp .next) .prev temp else h
  let h := h.set freeBlock .size size
  h.set freeBlock .next temp

/-- The end of `Malloc` (`lib/src/heap.cpp:59`): the block is handed out, and what is left of it
becomes a block of its own. -/
def allocate (h : UserHeap) (freeBlock size : Nat) : Nat × UserHeap :=
  let h := if h.field freeBlock .size ≥ u32 (size + sizeofUserHeader) then h.split freeBlock size
    else h
  (u32 (freeBlock + sizeofUserHeader), h.set freeBlock .allocated 1)

/-- `UserHeap::Malloc` (`lib/src/heap.cpp:26`) with at most `fuel` calls of itself. A list of headers
has less than `2 ^ 32` of them. -/
def malloc (h : UserHeap) (size : Nat) : (fuel : Nat) → Exec (Nat × UserHeap)
  | 0 => .error .loop
  | fuel + 1 => do
    let freeBlock ← h.findFree size (2 ^ 32) h.firstHeader
    if freeBlock = 0 then
      let heapEnd := pageRoundUp (u32 (h.endAddress + size + heapIncreaseSize))
      let lastHeader ← h.lastFree (2 ^ 32) h.firstHeader 0
      if lastHeader = 0 then .error .memory
      else
        let h := h.set lastHeader .size (u32 (h.field lastHeader .size + (size + heapIncreaseSize)))
        malloc { h with endAddress := heapEnd } size fuel
    else .ok (h.allocate freeBlock size)

/-- The first merge of `Free` (`lib/src/heap.cpp:82`). The result is the chunk to go on with. -/
def mergePrev (h : UserHeap) (chunk : Nat) : Nat × UserHeap :=
  if h.field chunk .prev ≠ 0 ∧ h.field (h.field chunk .prev) .allocated = 0 then
    let h := h.set (h.field chunk .prev) .next (h.field chunk .next)
    let h := h.set (h.field chunk .prev) .size
      (u32 (h.field (h.field chunk .prev) .size + (h.field chunk .size + sizeofUserHeader)))
    let h := if h.field chunk .next ≠ 0
      then h.set (h.field chunk .next) .prev (h.field chunk .prev) else h
    (h.field chunk .prev, h)
  else (chunk, h)

/-- The second merge of `Free` (`lib/src/heap.cpp:92`). -/
def mergeNext (h : UserHeap) (chunk : Nat) : UserHeap :=
  if h.field chunk .next ≠ 0 ∧ h.field (h.field chunk .next) .allocated = 0 then
    let h := h.set chunk .size
      (u32 (h.field chunk .size + (h.field (h.field chunk .next) .size + sizeofUserHeader)))
    let h := h.set chunk .next (h.field (h.field chunk .next) .next)
    if h.field chunk .next ≠ 0 then h.set (h.field chunk .next) .prev chunk else h
  else h

/-- `UserHeap::Free` (`lib/src/heap.cpp:76`). -/
def free (h : UserHeap) (ptr : Nat) : UserHeap :=
  let chunk := sub32 ptr sizeofUserHeader
  let h := h.set chunk .allocated 0
  let (chunk, h) := h.mergePrev chunk
  h.mergeNext chunk

end UserHeap

end HeisenKernel
