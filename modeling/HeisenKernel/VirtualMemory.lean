import HeisenKernel.KernelHeap
import HeisenKernel.PhysicalMemory.Boot

/-!
# Virtual memory

Translation of the page handling of `core/virtualmemory.cpp`, of `memory/sharedmem.cpp` and of what
`tasking/process.cpp` does to the memory of a process.

A page directory or page table is a frame of 1024 entries.
-/

namespace HeisenKernel

open Function

/-- `PageDirectoryEntry` and `PageTableEntry` (`virtualmemory.h:46`): what the kernel uses of them. -/
structure PageEntry where
  present : Bool
  readWrite : Bool
  isUser : Bool
  frame : Nat
deriving DecidableEq, Repr

/-- An entry of zeros. -/
def PageEntry.zero : PageEntry := ⟨false, false, false, 0⟩

/-- A pointer to an entry of a page table: the number of the table and the index in it. -/
structure PagePtr where
  table : Nat
  index : Nat
deriving DecidableEq, Repr

/-- `PAGEDIR_INDEX` (`virtualmemory.h:40`). -/
def pageDirIndex (addr : Nat) : Nat := addr / 2 ^ 22

/-- `PAGETBL_INDEX` (`virtualmemory.h:41`). -/
def pageTableIndex (addr : Nat) : Nat := addr / 2 ^ 12 % 1024

/-- `KERNEL_VIRT_ADDR` (`virtualmemory.h:27`). -/
def kernelVirtAddr : Nat := 3 * 2 ^ 30

/-- `USER_STACK_SIZE` (`virtualmemory.h:28`). -/
def userStackSize : Nat := 32 * 2 ^ 10

/-- `USER_STACK` (`virtualmemory.h:30`). -/
def userStack : Nat := kernelVirtAddr - userStackSize

/-- `PROC_USER_HEAP_SIZE` (`process.h:21`). -/
def procUserHeapSize : Nat := 2 ^ 20

/-- The loop `for(uint32_t i = start; i < stop; i += PAGE_SIZE)`, from `i` on and for at most `fuel`
passes. There are `2 ^ 20` values of `i`, so that a loop with more passes has no end. -/
def forPages {σ : Type} (body : σ → Nat → Exec σ) (stop : Nat) : (fuel i : Nat) → σ → Exec σ
  | 0, _, _ => .error .loop
  | fuel + 1, i, s =>
    if i < stop then do
      let s ← body s i
      forPages body stop fuel (u32 (i + pageSize)) s
    else .ok s

/-- The frames read as page tables, the bitmap of the frames and the current page directory. -/
structure VirtualMemory where
  manager : PhysicalMemoryManager
  entries : Nat → Nat → PageEntry
  cr3 : Nat
  pageTables : List Nat
  released : List (Nat × Bool)

namespace VirtualMemory

section
variable (v : VirtualMemory)

/-- A page table with one entry replaced. -/
def setEntry (table index : Nat) (e : PageEntry) : VirtualMemory :=
  { v with entries := update v.entries table (update (v.entries table) index e) }

/-- The frame behind `GetPageTableAddress(number)` (`virtualmemory.cpp:153`), and behind
`PAGE_DIRECTORY_ADDRESS` for the last number. -/
def pageTableFrame (number : Nat) : Exec Nat :=
  if (v.entries (v.cr3 / pageSize) 1023).present then
    let e := v.entries (v.entries (v.cr3 / pageSize) 1023).frame number
    if e.present then .ok e.frame else .error .panic
  else .error .panic

/-- The entry a pointer points to. -/
def readPage (page : PagePtr) : Exec PageEntry := do
  let table ← v.pageTableFrame page.table
  .ok (v.entries table page.index)

/-- A change of the entry a pointer points to. -/
def modifyPage (page : PagePtr) (f : PageEntry → PageEntry) : Exec VirtualMemory := do
  let table ← v.pageTableFrame page.table
  .ok (v.setEntry table page.index (f (v.entries table page.index)))

/-- `GetPageForAddress` (`virtualmemory.cpp:104`). A page table is created without a look at whether
`AllocateBlock` found a frame for it. -/
def getPageForAddress (virtualAddress : Nat) (shouldCreate readWrite userPages : Bool) :
    Exec (PagePtr × VirtualMemory) := do
  let pageDir ← v.pageTableFrame 1023
  let page : PagePtr := ⟨pageDirIndex virtualAddress, pageTableIndex virtualAddress⟩
  if (v.entries pageDir page.table).present = false ∧ shouldCreate = true then
    let (pageTablePhys, manager) := v.manager.allocateBlock
    let v := { v with
      manager := manager
      pageTables := if pageTablePhys = 0 then v.pageTables else pageTablePhys / pageSize :: v.pageTables }
    let v := v.setEntry pageDir page.table ⟨true, readWrite, userPages, pageTablePhys / pageSize⟩
    let pageTable ← v.pageTableFrame page.table
    .ok (page, { v with entries := update v.entries pageTable fun _ => .zero })
  else .ok (page, v)

/-- `AllocatePage` (`virtualmemory.cpp:129`). It says nothing when there is no frame. -/
def allocatePage (page : PagePtr) (kernel writeable : Bool) : Exec VirtualMemory :=
  let (p, manager) := v.manager.allocateBlock
  let v := { v with manager := manager }
  if p = 0 then .ok v
  else v.modifyPage page fun _ => ⟨true, writeable, !kernel, p / pageSize⟩

/-- The first half of `FreePage` (`virtualmemory.cpp:144`): the frame is given back if it is not 0. -/
def releaseFrame (frame : Nat) : VirtualMemory :=
  if frame * pageSize ≠ 0 then { v with
    manager := v.manager.freeBlock (frame * pageSize)
    released := (frame, v.manager.testBit frame) :: v.released }
  else v

/-- `FreePage` (`virtualmemory.cpp:142`). The number of the frame stays in the entry. -/
def freePage (page : PagePtr) : Exec VirtualMemory := do
  let e ← v.readPage page
  (v.releaseFrame e.frame).modifyPage page fun e => { e with present := false }

/-- The frame that the processor finds for an address, from the directory at `pageDirPhys` on. -/
def translate (pageDirPhys addr : Nat) : Option Nat :=
  let pde := v.entries (pageDirPhys / pageSize) (pageDirIndex addr)
  if pde.present then
    let pte := v.entries pde.frame (pageTableIndex addr)
    if pte.present then some pte.frame else none
  else none

end

end VirtualMemory

/-- `Process` (`process.h:25`): what the memory management uses of it. A stack is the address and
the size of the user stack of a thread. -/
structure ProcessMemory where
  pageDirPhys : Nat
  isUserspace : Bool
  memBase : Nat
  memSize : Nat
  heapStart : Nat
  heapEnd : Nat
  threadStacks : List (Nat × Nat)
deriving DecidableEq, Repr

namespace VirtualMemory

/-- One page of `CreateSharedRegion` (`sharedmem.cpp:36`). -/
def mapShared (physMemStart virtStart : Nat) (v : VirtualMemory) (memAddr : Nat) : Exec VirtualMemory := do
  let (page, v) ← v.getPageForAddress (u32 (memAddr + virtStart)) true true true
  v.modifyPage page fun _ => ⟨true, true, true, u32 (physMemStart + memAddr) / pageSize⟩

/-- `FreePage` of the page of an address, as `RemoveSharedRegion` and `RemoveProcess` call it. -/
def freeAddress (v : VirtualMemory) (addr : Nat) : Exec VirtualMemory := do
  let (page, v) ← v.getPageForAddress addr false true false
  v.freePage page

/-- `SharedMemory::CreateSharedRegion` (`sharedmem.cpp:14`), `none` for the null pointer. -/
def createSharedRegion (v : VirtualMemory) (proc1 proc2 : Option ProcessMemory)
    (virtStart1 virtStart2 len : Nat) : Exec (Bool × VirtualMemory) :=
  match proc1, proc2 with
  | some proc1, some proc2 =>
    if len ≤ 0 then .ok (false, v)
    else do
      let oldCR3 := v.cr3
      let (physMemStart, manager) := v.manager.allocateBlocks (len / pageSize)
      let v := { v with manager := manager, cr3 := proc1.pageDirPhys }
      let v ← forPages (mapShared physMemStart virtStart1) len (2 ^ 20 + 1) 0 v
      let v := { v with cr3 := proc2.pageDirPhys }
      let v ← forPages (mapShared physMemStart virtStart2) len (2 ^ 20 + 1) 0 v
      .ok (true, { v with cr3 := oldCR3 })
  | _, _ => .ok (false, v)

/-- `SharedMemory::RemoveSharedRegion` (`sharedmem.cpp:70`). -/
def removeSharedRegion (v : VirtualMemory) (proc1 proc2 : Option ProcessMemory)
    (virtStart1 virtStart2 len : Nat) : Exec (Bool × VirtualMemory) :=
  match proc1, proc2 with
  | some proc1, some proc2 =>
    if len ≤ 0 then .ok (false, v)
    else do
      let oldCR3 := v.cr3
      let v := { v with cr3 := proc1.pageDirPhys }
      let v ← forPages (fun v memAddr => v.freeAddress (u32 (memAddr + virtStart1))) len (2 ^ 20 + 1) 0 v
      let v := { v with cr3 := proc2.pageDirPhys }
      let v ← forPages (fun v memAddr => v.freeAddress (u32 (memAddr + virtStart2))) len (2 ^ 20 + 1) 0 v
      .ok (true, { v with cr3 := oldCR3 })
  | _, _ => .ok (false, v)

/-- `AllocatePage` of the page of an address, as the loops of `Create` and `UpdateHeap` call it. -/
def allocateAddress (kernel writeable : Bool) (v : VirtualMemory) (addr : Nat) : Exec VirtualMemory := do
  let (page, v) ← v.getPageForAddress addr true true (!kernel)
  v.allocatePage page kernel writeable

/-- The kernel writes `len` bytes from `addr` on, which takes a page fault at a page that is not
present. -/
def touch (v : VirtualMemory) (addr len : Nat) : Exec Unit :=
  if (List.range (if len = 0 then 0 else (addr % pageSize + len - 1) / pageSize + 1)).all
      fun k => (v.translate v.cr3 (u32 (addr / pageSize * pageSize + k * pageSize))).isSome
  then .ok () else .error .panic

end VirtualMemory

/-- `ElfProgramHeader` (`elf.h:46`): what `Create` uses of it. -/
structure ElfProgramHeader where
  pType : Nat
  pVaddr : Nat
  pFilesz : Nat
  pMemsz : Nat
  pFlags : Nat
deriving DecidableEq, Repr

/-- The range of the executable and the memory while the segments are loaded. -/
structure Loading where
  memBase : Nat
  memSize : Nat
  memory : VirtualMemory

namespace VirtualMemory

/-- The pages of one segment (`process.cpp:106`). -/
def loadSegment (isKernel : Bool) (l : Loading) (h : ElfProgramHeader) : Exec Loading :=
  if h.pType = 1 then do
    let rw := h.pFlags / 2 % 2 = 1
    let v ← forPages (fun v x => allocateAddress isKernel rw v (u32 (h.pVaddr + x))) h.pMemsz
      (2 ^ 20 + 1) 0 l.memory
    let memBase := if h.pVaddr < l.memBase ∨ l.memBase = 0 then h.pVaddr else l.memBase
    let size := sub32 (u32 (h.pVaddr + h.pMemsz)) memBase
    .ok ⟨memBase, if size > l.memSize then size else l.memSize, v⟩
  else .ok l

/-- The bytes of one segment (`process.cpp:131`). -/
def copySegment (v : VirtualMemory) (h : ElfProgramHeader) : Exec Unit :=
  if h.pType = 1 then do
    v.touch h.pVaddr h.pFilesz
    v.touch (u32 (h.pVaddr + h.pFilesz)) (sub32 h.pMemsz h.pFilesz)
  else .ok ()

/-- The entries that a new directory takes over from `BootPageDirectory`: the kernel, its heap and
the heap of the devices (`process.cpp:61`). -/
def isKernelEntry (i : Nat) : Bool := (768 ≤ i && i ≤ 772) || (774 ≤ i && i ≤ 798)

/-- `ProcessHelper::Create` (`process.cpp:18`) for the segments of an executable, from the creation of
the page directory on, which lies in the kernel heap at `pageDirPhys`. -/
def createProcess (v : VirtualMemory) (bootPageDirectory pageDirPhys : Nat)
    (headers : List ElfProgramHeader) (isKernel : Bool) : Exec (ProcessMemory × VirtualMemory) := do
  let oldCR3 := v.cr3
  let v := { v with
    entries := update v.entries (pageDirPhys / pageSize) fun i =>
      if i = 1023 then ⟨true, true, false, pageDirPhys / pageSize⟩
      else if isKernelEntry i then v.entries (bootPageDirectory / pageSize) i
      else .zero
    cr3 := pageDirPhys }
  let l ← headers.foldlM (loadSegment isKernel) ⟨0, 0, v⟩
  headers.forM l.memory.copySegment
  let v ← forPages (allocateAddress isKernel true) (userStack + userStackSize) (2 ^ 20 + 1) userStack l.memory
  let heapStart := pageRoundUp (u32 (l.memBase + l.memSize))
  let v ← forPages (fun v i => allocateAddress isKernel true v (u32 (heapStart + i)))
    procUserHeapSize (2 ^ 20 + 1) 0 v
  .ok (⟨pageDirPhys, !isKernel, l.memBase, l.memSize, heapStart, u32 (heapStart + procUserHeapSize),
    [(userStack, userStackSize)]⟩, { v with cr3 := oldCR3 })

/-- `ProcessHelper::UpdateHeap` (`process.cpp:252`). -/
def updateHeap (v : VirtualMemory) (proc : ProcessMemory) (newEndAddr : Nat) :
    Exec (ProcessMemory × VirtualMemory) :=
  if proc.heapEnd < newEndAddr then do
    let v ← forPages (allocateAddress (!proc.isUserspace) true) (pageRoundUp newEndAddr)
      (2 ^ 20 + 1) proc.heapEnd v
    .ok ({ proc with heapEnd := pageRoundUp newEndAddr }, v)
  else if proc.heapEnd > newEndAddr then do
    let v ← forPages freeAddress proc.heapEnd (2 ^ 20 + 1) (pageRoundUp newEndAddr) v
    .ok ({ proc with heapEnd := pageRoundUp newEndAddr }, v)
  else .ok (proc, v)

/-- The pages of the user stack of a thread in `RemoveThread` (`thread.cpp:66`). -/
def removeStack (v : VirtualMemory) (stack : Nat × Nat) : Exec VirtualMemory :=
  forPages freeAddress (u32 (stack.1 + stack.2)) (2 ^ 20 + 1) stack.1 v

/-- The pages of a process in `ProcessHelper::RemoveProcess` (`process.cpp:215`): the stacks of its
threads, its executable and its heap. -/
def removeProcess (v : VirtualMemory) (proc : ProcessMemory) : Exec VirtualMemory := do
  let v ← proc.threadStacks.foldlM removeStack v
  let v ← forPages freeAddress (u32 (proc.memBase + proc.memSize)) (2 ^ 20 + 1) proc.memBase v
  forPages freeAddress proc.heapEnd (2 ^ 20 + 1) proc.heapStart v

end VirtualMemory

end HeisenKernel
