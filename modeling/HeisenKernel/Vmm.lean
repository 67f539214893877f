import HeisenKernel.Base
import HeisenKernel.Lib.Bitmap

/-!
# The virtual memory manager of the AliNix kernel

Translation of `kernel/drivers/vmm/vmm.c` and of the part of `kernel/drivers/mm/mm.c` that it calls.
-/

namespace HeisenKernel.Vmm

/-- `uint32_t`, `page_dir_t`, `vmm_addr_t` and `mm_addr_t`. -/
abbrev Word := BitVec 32

/-- `PAGE_SIZE` (`paging.h:33`) and `BLOCKS_LEN` (`mm.h:33`). -/
def pageSize : Nat := 4096

/-- `PAGEDIR_SIZE` (`paging.h:43`): the entries of a page directory. -/
def pagedirSize : Nat := 1024

/-- `PAGE_PRESENT` (`paging.h:35`). -/
def pagePresent : Word := 0x1

/-- `PAGE_FRAME_MASK` (`paging.h:39`). -/
def pageFrameMask : Word := 0x7FFFF000

/-- `KERNEL_SPACE_END` (`mm.h:38`). -/
def kernelSpaceEnd : Word := 0x401000

/-- `MAX_BLOCKS` (`vmm.c:256`). -/
def maxBlocks : Nat := 512

/-- `PAGE_START` (`vmm.c:257`). -/
def pageStart : Nat := 0x200000

/-- The state of the physical memory manager (`mm.h:48`): the words of memory from its bitmap on, and its
counters. -/
structure Pmm where
  usedBlocks : Word
  maxBlocks : Word
  map : Nat → Word

/-- The static state of `vmm.c`, with the memory of the machine: the word at each address. -/
structure Paging where
  memory : Nat → Word
  bitmap : Nat → Word
  usedBlocks : Word
  pmm : Pmm

/-- The word `p[i]` of an array of words. -/
def Paging.word (s : Paging) (p : Word) (i : Nat) : Word := s.memory (p.toNat + 4 * i)

/-- The memory after `p[i] = w`. -/
def Paging.setWord (s : Paging) (p : Word) (i : Nat) (w : Word) : Paging :=
  { s with memory := Function.update s.memory (p.toNat + 4 * i) w }

/-- `memset(p, 0, PAGE_SIZE)`. -/
def Paging.clearPage (s : Paging) (p : Word) : Paging :=
  { s with memory := fun a =>
      if p.toNat ≤ a ∧ a < p.toNat + pageSize then 0 else s.memory a }

/-- `memcpy(p, q, PAGE_SIZE)`. -/
def Paging.copyPage (s : Paging) (p q : Word) : Paging :=
  { s with memory := fun a =>
      if p.toNat ≤ a ∧ a < p.toNat + pageSize then s.memory (q.toNat + (a - p.toNat)) else s.memory a }

/-- The index of an address in the page directory. -/
def dirIndex (virt : Word) : Nat := (virt >>> 22).toNat

/-- The index of an address in its page table. -/
def tableIndex (virt : Word) : Nat := (virt <<< 10 >>> 10 >>> 12).toNat

/-- `paging_first_free` (`vmm.c:294`). -/
def pagingFirstFree (s : Paging) : Int :=
  match Lib.Bitmap.findClear s.bitmap (maxBlocks / 32) fun _ => true with
  | some p => p
  | none => -1

/-- `paging_set_bit` (`vmm.c:280`), for a bit that the search has found. -/
def pagingSetBit (bit : Nat) (s : Paging) : Paging := { s with bitmap := Lib.Bitmap.set s.bitmap bit }

/-- `paging_unset_bit` (`vmm.c:287`). The argument is signed, and the array has 16 words. -/
def pagingUnsetBit (bit : Int) (s : Paging) : Exec Paging :=
  if 0 ≤ bit ∧ bit < 16 * 32 then .ok { s with bitmap := Lib.Bitmap.unset s.bitmap bit.toNat }
  else .error .memory

/-- The address of a block. -/
def blockAddr (p : Nat) : Word := BitVec.ofNat 32 (pageSize * p + pageStart)

/-- `page_table_malloc` (`vmm.c:266`): a page of zeros, `none` for the null pointer. -/
def pageTableMalloc (s : Paging) : Option Word × Paging :=
  if pagingFirstFree s = -1 then (none, s)
  else
    let p := (pagingFirstFree s).toNat
    (some (blockAddr p), { pagingSetBit p s with usedBlocks := s.usedBlocks + 1 }.clearPage (blockAddr p))

/-- `page_table_free` (`vmm.c:313`). The difference is that of unsigned words, and the parameter of
`paging_unset_bit` is signed. -/
def pageTableFree (addr : Word) (s : Paging) : Exec Paging := do
  let s ← pagingUnsetBit (addr / BitVec.ofNat 32 pageSize - BitVec.ofNat 32 pageStart).toInt s
  pure { s with usedBlocks := s.usedBlocks - 1 }

/-- `vmm_create_page_table` (`vmm.c:131`). -/
def vmmCreatePageTable (pdir virt flags : Word) (s : Paging) : Bool × Paging :=
  match (pageTableMalloc s).1 with
  | none => (false, (pageTableMalloc s).2)
  | some pt => (true, (pageTableMalloc s).2.setWord pdir (dirIndex virt) (pt ||| flags))

/-- The page table of the address in a directory. -/
def Paging.table (s : Paging) (pdir : Word) (i : Nat) : Word := s.word pdir i &&& ~~~0xFFF#32

/-- The page table of the address, which is created when there is none (`vmm.c:168`). -/
def ensureTable (pdir virt flags : Word) (s : Paging) : Bool × Paging :=
  if s.word pdir (dirIndex virt) = 0 then vmmCreatePageTable pdir virt flags s else (true, s)

/-- `vmm_map_phys` (`vmm.c:166`). -/
def vmmMapPhys (pdir virt phys flags : Word) (s : Paging) : Bool × Paging :=
  let r := ensureTable pdir virt flags s
  if r.1 then
    (true, r.2.setWord (r.2.table pdir (dirIndex virt)) (tableIndex virt) (phys ||| flags))
  else (false, r.2)

/-- `get_phys_addr` (`vmm.c:183`). -/
def getPhysAddr (s : Paging) (pdir virt : Word) : Word :=
  if s.word pdir (dirIndex virt) = 0 then 0
  else s.word (s.table pdir (dirIndex virt)) (tableIndex virt) >>> 12 <<< 12

/-- `vmm_unmap_phys` (`vmm.c:250`). -/
def vmmUnmapPhys (pdir virt : Word) (s : Paging) : Paging :=
  if s.word pdir (dirIndex virt) ≠ 0 then
    s.setWord (s.table pdir (dirIndex virt)) (tableIndex virt) 0
  else s

/-- `PAGE_RW` (`paging.h:36`). -/
def pageRw : Word := 0x2

/-- `PAGE_USER` (`paging.h:37`). -/
def pageUser : Word := 0x4

/-- `RETURN_ADDR` (`vmm.c:36`). -/
def returnAddr : Word := 0x400000

/-- The loop of `map_kernel` (`vmm.c:80`), whose body is that of `vmm_map_phys`: whether it comes to its
end. -/
def identityMap (pdir : Word) : (left : Nat) → (addr : Word) → Paging → Bool × Paging
  | 0, _, s => (true, s)
  | left + 1, addr, s =>
    let r := vmmMapPhys pdir addr addr (pagePresent ||| pageRw) s
    if r.1 then identityMap pdir left (addr + BitVec.ofNat 32 pageSize) r.2 else (false, r.2)

/-- `map_kernel` (`vmm.c:75`). -/
def mapKernel (pdir : Word) (s : Paging) : Paging :=
  let r := identityMap pdir 1024 0 s
  if r.1 then
    let t := vmmCreatePageTable pdir returnAddr (pagePresent ||| pageRw ||| pageUser) r.2
    if t.1 then
      t.2.setWord (t.2.table pdir (dirIndex returnAddr)) (tableIndex returnAddr)
        (returnAddr ||| pagePresent ||| pageRw ||| pageUser)
    else t.2
  else r.2

/-- `vmm_init` (`vmm.c:64`). The sizes of `memset` are in bytes: a quarter of the directory and four words
of the bitmap. -/
def vmmInit (kernDir : Word) (s : Paging) : Paging :=
  mapKernel kernDir
    { s with
      memory := fun a =>
        if kernDir.toNat ≤ a ∧ a < kernDir.toNat + pagedirSize then 0 else s.memory a
      bitmap := fun i => if i < 4 then 0 else s.bitmap i }

/-- The loop of `create_address_space` (`vmm.c:200`) from the entry `i` on: whether it comes to its
end. -/
def cloneFrom (kernDir pdir : Word) : (left i : Nat) → (addr : Word) → Paging → Bool × Paging
  | 0, _, _, s => (true, s)
  | left + 1, i, addr, s =>
    if s.word kernDir i &&& pagePresent ≠ 0 then
      let r := vmmCreatePageTable pdir addr (s.word kernDir i <<< 20 >>> 20) s
      if r.1 then
        cloneFrom kernDir pdir left (i + 1) (addr + kernelSpaceEnd)
          (r.2.copyPage (r.2.word pdir i >>> 12 <<< 12) (r.2.word kernDir i >>> 12 <<< 12))
      else (false, r.2)
    else cloneFrom kernDir pdir left (i + 1) (addr + kernelSpaceEnd) s

/-- `create_address_space` (`vmm.c:192`). The argument is the address of the static array
`kern_dir`. -/
def createAddressSpace (kernDir : Word) (s : Paging) : Option Word × Paging :=
  match (pageTableMalloc s).1 with
  | none => (none, (pageTableMalloc s).2)
  | some pdir =>
    let r := cloneFrom kernDir pdir pagedirSize 0 0 (pageTableMalloc s).2
    if r.1 then (some pdir, r.2) else (none, r.2)

/-- `vmm_unmap_page_table` (`vmm.c:225`). -/
def vmmUnmapPageTable (pdir virt : Word) (s : Paging) : Exec Paging := do
  let s ← pageTableFree (s.word pdir (dirIndex virt) &&& pageFrameMask) s
  pure (s.setWord pdir (dirIndex virt) 0)

/-- `delete_address_space` (`vmm.c:214`). -/
def deleteAddressSpace (pdir : Word) (s : Paging) : Exec Paging :=
  (List.range pagedirSize).foldlM (fun s i =>
    if s.word pdir ((i * pageSize) >>> 22) ≠ 0 then
      vmmUnmapPageTable pdir (BitVec.ofNat 32 (i * pageSize)) s
    else .ok s) s

/-- `pmm_first_free` (`mm.c:86`). -/
def pmmFirstFree (p : Pmm) : Int :=
  match Lib.Bitmap.findClear p.map (p.maxBlocks.toNat / 32) fun _ => true with
  | some b => b
  | none => -1

/-- `pmm_set_bit` (`mm.c:72`). The behaviour is not defined for a negative bit: the shift by a negative
number, or the word in front of the bitmap. -/
def pmmSetBit (bit : Int) (p : Pmm) : Exec Pmm :=
  if 0 ≤ bit then .ok { p with map := Lib.Bitmap.set p.map bit.toNat } else .error .memory

/-- `pmm_malloc` (`mm.c:137`). That no block is free is not checked. -/
def pmmMalloc (p : Pmm) : Exec (Word × Pmm) :=
  if pmmFirstFree p = 0 then .ok (0, p)
  else do
    let p' ← pmmSetBit (pmmFirstFree p) p
    pure (BitVec.ofInt 32 (pageSize * pmmFirstFree p), { p' with usedBlocks := p'.usedBlocks + 1 })

/-- `vmm_map` (`vmm.c:142`). Behind the allocation it is the body of `vmm_map_phys` again. -/
def vmmMap (pdir virt flags : Word) (s : Paging) : Exec (Bool × Paging) := do
  let r ← pmmMalloc s.pmm
  let s := { s with pmm := r.2 }
  if r.1 = 0 then pure (false, s)
  else pure (vmmMapPhys pdir virt r.1 flags s)

end HeisenKernel.Vmm
