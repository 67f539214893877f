import HeisenKernel.VirtualMemory.Processes

/-!
# Loading an executable

`ProcessHelper::Create` (`process.cpp:18`) with the bytes that it writes: `create` is
`createProcess` on memory that also has contents.
-/

namespace HeisenKernel

open PhysicalMemoryManager Function List

/-- `ElfProgramHeader` (`elf.h:46`) with the place of the segment in the file. -/
structure ElfSegment extends ElfProgramHeader where
  pOffset : Nat
deriving DecidableEq, Repr

/-- The bytes of the frames. -/
abbrev Contents := Nat → Nat → UInt8

namespace VirtualMemory

/-- The kernel writes one byte of `MemoryOperations::memcpy` or `memset`. Whether the page is read
only does not matter: the kernel runs with `CR0.WP` clear (`loader.s:62`). -/
def writeByte (v : VirtualMemory) (value : Nat → UInt8) (addr : Nat) (m : Contents) (k : Nat) :
    Exec Contents :=
  match v.translate v.cr3 (u32 (addr + k)) with
  | none => .error .panic
  | some frame => .ok (update m frame (update (m frame) (u32 (addr + k) % pageSize) (value k)))

/-- `len` bytes from `addr` on. -/
def writeBytes (v : VirtualMemory) (value : Nat → UInt8) (addr len : Nat) (m : Contents) : Exec Contents :=
  (List.range len).foldlM (v.writeByte value addr) m

/-- The bytes of one segment (`process.cpp:131`); `file` is the memory from `fileBuffer` on. -/
def loadBytes (v : VirtualMemory) (file : Nat → UInt8) (m : Contents) (s : ElfSegment) : Exec Contents :=
  if s.pType = 1 then do
    let m ← v.writeBytes (fun k => file (s.pOffset + k)) s.pVaddr s.pFilesz m
    v.writeBytes (fun _ => 0) (u32 (s.pVaddr + s.pFilesz)) (sub32 s.pMemsz s.pFilesz) m
  else .ok m

/-- The page directory of the new process is current (`process.cpp:56`). -/
def newDirectory (v : VirtualMemory) (bootPageDirectory pageDirPhys : Nat) : VirtualMemory :=
  { v with
    entries := update v.entries (pageDirPhys / pageSize) fun i =>
      if i = 1023 then ⟨true, true, false, pageDirPhys / pageSize⟩
      else if isKernelEntry i then v.entries (bootPageDirectory / pageSize) i
      else .zero
    cr3 := pageDirPhys }

/-- What `Create` does when the executable is in memory: the stack and the heap
(`process.cpp:150`). -/
def addStackAndHeap (isKernel : Bool) (pageDirPhys oldCR3 : Nat) (l : Loading) :
    Exec (ProcessMemory × VirtualMemory) := do
  let v ← forPages (allocateAddress isKernel true) (userStack + userStackSize) (2 ^ 20 + 1) userStack l.memory
  let heapStart := pageRoundUp (u32 (l.memBase + l.memSize))
  let v ← forPages (fun v i => allocateAddress isKernel true v (u32 (heapStart + i)))
    procUserHeapSize (2 ^ 20 + 1) 0 v
  .ok (⟨pageDirPhys, !isKernel, l.memBase, l.memSize, heapStart, u32 (heapStart + procUserHeapSize),
    [(userStack, userStackSize)]⟩, { v with cr3 := oldCR3 })

/-- `ProcessHelper::Create` (`process.cpp:18`) with the contents of the frames. -/
def create (v : VirtualMemory) (m : Contents) (file : Nat → UInt8) (bootPageDirectory pageDirPhys : Nat)
    (segments : List ElfSegment) (isKernel : Bool) : Exec (ProcessMemory × VirtualMemory × Contents) := do
  let l ← (segments.map (·.toElfProgramHeader)).foldlM (loadSegment isKernel)
    ⟨0, 0, v.newDirectory bootPageDirectory pageDirPhys⟩
  let m ← segments.foldlM (l.memory.loadBytes file) m
  let (p, v) ← addStackAndHeap isKernel pageDirPhys v.cr3 l
  .ok (p, v, m)

theorem createProcess_eq (v : VirtualMemory) (bootPageDirectory pageDirPhys : Nat)
    (headers : List ElfProgramHeader) (isKernel : Bool) :
    v.createProcess bootPageDirectory pageDirPhys headers isKernel = (do
      let l ← headers.foldlM (loadSegment isKernel) ⟨0, 0, v.newDirectory bootPageDirectory pageDirPhys⟩
      headers.forM l.memory.copySegment
      addStackAndHeap isKernel pageDirPhys v.cr3 l) := rfl

variable {v v₀ : VirtualMemory} {K : Set Nat} {owner : Nat → Option FrameRole} {pageDirPhys : Nat}
  {log : List (Nat × Nat)}

/-- The frame of the page `n` of a directory, if the page is present. -/
def frameAt (v : VirtualMemory) (d n : Nat) : Option Nat :=
  (v.pageAt d n).bind fun e => if e.present then some e.frame else none

theorem translate_eq_frameAt (v : VirtualMemory) (pageDirPhys addr : Nat) :
    v.translate pageDirPhys addr = v.frameAt (pageDirPhys / pageSize) (addr / pageSize) := by
  simp only [translate, frameAt, pageAt, pageDirIndex_eq, pageTableIndex_eq]
  split <;> rfl

/-- The pages of a directory after the pages of `log`, the last one first, were allocated in it. -/
structure Filled (K : Set Nat) (pageDirPhys : Nat) (v₀ : VirtualMemory) (log : List (Nat × Nat))
    (owner : Nat → Option FrameRole) (v : VirtualMemory) : Prop where
  owned : Owned K {pageDirPhys / pageSize} owner v
  cr3 : v.cr3 = pageDirPhys
  max : v.manager.maximumBlocks = v₀.manager.maximumBlocks
  found : ∀ n < userPages, v.frameAt (pageDirPhys / pageSize) n = log.lookup n
  held : ∀ n < userPages, v.Held (pageDirPhys / pageSize) n
  page_lt : ∀ x ∈ log, x.1 < userPages
  role : ∀ x ∈ log, owner x.2 = some (.page (pageDirPhys / pageSize) x.1)
  nodup : (log.map Prod.snd).Nodup
  used : ∀ f, v.manager.testBit f = true → v₀.manager.testBit f = true ∨ f ∈ log.map Prod.snd ∨
    ∃ i < 768, (v.entries (pageDirPhys / pageSize) i).present = true ∧
      (v.entries (pageDirPhys / pageSize) i).frame = f

theorem testBit_takeFrame (v : VirtualMemory) (b : Nat) (tables : List Nat) (f : Nat) :
    (v.takeFrame b tables).manager.testBit f = (v.manager.testBit f || decide (f = b)) :=
  testBit_setBit b f

theorem Filled.getPageForAddress (h : Filled K pageDirPhys v₀ log owner v)
    (haddr : addr < kernelVirtAddr) (hframes : 1 ≤ v.manager.freeBlockCount) (rw user : Bool) :
    ∃ v' owner', v.getPageForAddress addr true rw user = .ok (⟨pageDirIndex addr, pageTableIndex addr⟩, v') ∧
      Filled K pageDirPhys v₀ log owner' v' ∧
      (v'.entries (pageDirPhys / pageSize) (pageDirIndex addr)).present = true ∧
      v.manager.freeBlockCount ≤ v'.manager.freeBlockCount + 1 := by
  obtain rfl := h.cr3
  rcases h.owned.getPageForAddress_cases rfl haddr (.inl hframes) rw user with
    ⟨hp, he⟩ | ⟨b, hp, hpos, hlt, hfree, he⟩
  · exact ⟨v, owner, he, h, hp, Nat.le_succ _⟩
  · have hassign := h.owned.assign (.table (v.cr3 / pageSize) (pageDirIndex addr)) hpos hlt hfree
      (b :: v.pageTables)
    have hi := pageDirIndex_lt_user haddr
    obtain ⟨howned, hpage⟩ := hassign.newTable rfl hi (update_self ..) rw user
    generalize hw : (v.takeFrame b (b :: v.pageTables)).withTable (v.takeFrame b (b :: v.pageTables)).manager
      (v.takeFrame b (b :: v.pageTables)).pageTables (pageDirIndex addr) b rw user = w at he howned hpage
    have hcr3 : w.cr3 = v.cr3 := hw ▸ rfl
    have hmanager : w.manager = (v.takeFrame b (b :: v.pageTables)).manager := hw ▸ rfl
    have hrow : ∀ i, w.entries (v.cr3 / pageSize) i =
        if i = pageDirIndex addr then ⟨true, rw, user, b⟩ else v.entries (v.cr3 / pageSize) i := by
      intro i
      rw [← hw, entries_withTable, if_neg (hassign.table_ne (update_self ..) rfl)]
      simp [takeFrame]
    have hat : ∀ n < userPages, w.pageAt (v.cr3 / pageSize) n =
        if n / 1024 = pageDirIndex addr then some .zero else v.pageAt (v.cr3 / pageSize) n := by
      intro n hn
      rw [hpage _ rfl n hn]
      by_cases hsame : n / 1024 = pageDirIndex addr
      · rw [if_pos ⟨rfl, hsame⟩, if_pos hsame]
      · rw [if_neg fun hboth => hsame hboth.2, if_neg hsame]
        rfl
    refine ⟨w, _, he, ⟨howned, hcr3, hmanager ▸ h.max, fun n hn => ?_, fun n hn e => ?_, h.page_lt,
      fun x hx => ?_, h.nodup, fun f hf => ?_⟩, ?_, ?_⟩
    · rw [← h.found n hn, frameAt, hat n hn]
      split
      · next hsame =>
        rw [frameAt, pageAt, hsame, hp]
        rfl
      · rfl
    · rw [hat n hn]
      split
      · intro hz
        obtain rfl := Option.some.inj hz
        exact .inr rfl
      · exact h.held n hn e
    · have hrole := h.role x hx
      have hne : x.2 ≠ b := by
        intro hxb
        rw [hxb, h.owned.owner_eq_none hfree] at hrole
        cases hrole
      rw [update_of_ne hne, hrole]
    · rw [hmanager, testBit_takeFrame, Bool.or_eq_true, decide_eq_true_iff] at hf
      rcases hf with hf | rfl
      · refine (h.used f hf).imp_right (Or.imp_right ?_)
        rintro ⟨i, hi', hpresent, hframe⟩
        have hne : i ≠ pageDirIndex addr := by
          rintro rfl
          rw [hp] at hpresent
          cases hpresent
        exact ⟨i, hi', by rw [hrow, if_neg hne]; exact hpresent, by rw [hrow, if_neg hne]; exact hframe⟩
      · exact .inr (.inr ⟨_, hi, by rw [hrow, if_pos rfl], by rw [hrow, if_pos rfl]⟩)
    · rw [hrow, if_pos rfl]
    · rw [hmanager]
      exact freeBlockCount_takeFrame h.owned.counted hassign.counted

theorem Filled.allocateAddress (h : Filled K pageDirPhys v₀ log owner v)
    (haddr : addr < kernelVirtAddr) (hframes : 2 ≤ v.manager.freeBlockCount)
    (kernel writeable : Bool) :
    ∃ v' owner' f, VirtualMemory.allocateAddress kernel writeable v addr = .ok v' ∧ Filled K pageDirPhys v₀
      ((addr / pageSize, f) :: log) owner' v' ∧ v.manager.freeBlockCount ≤ v'.manager.freeBlockCount + 2 := by
  obtain ⟨v1, owner1, hget, h1, hp, hcount⟩ := h.getPageForAddress haddr (by omega) true (!kernel)
  obtain rfl := h1.cr3
  have hn := div_lt_userPages haddr
  have hsome : ¬ v1.manager.freeBlockCount = 0 := by omega
  obtain ⟨b, hpos, hlt, hfree, -, hblock⟩ := h1.owned.counted.allocateBlock.resolve_left
    fun hall => hsome (h1.owned.counted.freeBlockCount_eq_zero.2 hall.1)
  have hassign := h1.owned.assign (.page (v1.cr3 / pageSize) (addr / pageSize)) hpos hlt hfree v1.pageTables
  rw [pageDirIndex_eq] at hp
  have he := h1.owned.allocatePage_eq addr rfl hp hblock hpos kernel writeable
  have howned := hassign.setEntry rfl hn hp (e := ⟨true, writeable, !kernel, b⟩) fun _ => update_self ..
  have hat : ∀ n < userPages, _ := fun n hn' =>
    hassign.pageAt_setEntry rfl hn hp ⟨true, writeable, !kernel, b⟩ rfl hn'
  generalize hw : (v1.takeFrame b v1.pageTables).setEntry
    ((v1.takeFrame b v1.pageTables).entries (v1.cr3 / pageSize) (addr / pageSize / 1024)).frame
    (addr / pageSize % 1024) ⟨true, writeable, !kernel, b⟩ = w at he howned hat
  have hcr3 : w.cr3 = v1.cr3 := hw ▸ rfl
  have hmanager : w.manager = (v1.takeFrame b v1.pageTables).manager := hw ▸ rfl
  have hrow : ∀ i, w.entries (v1.cr3 / pageSize) i = v1.entries (v1.cr3 / pageSize) i := by
    intro i
    have htable := hassign.tables _ rfl _ (div_lt_of_userPages hn) hp
    rw [← hw, entries_setEntry, if_neg fun hsame => hassign.table_ne htable rfl hsame.1]
    rfl
  have hother : ∀ x ∈ log, x.2 ≠ b := by
    intro x hx hxb
    have hrole := h1.role x hx
    rw [hxb, h1.owned.owner_eq_none hfree] at hrole
    cases hrole
  refine ⟨w, _, b, (bind_of_ok hget).trans he, ⟨howned, hcr3, hmanager ▸ h1.max, fun n hn' => ?_,
    fun n hn' e hpe => ?_, ?_, ?_, ?_, fun f hf => ?_⟩, ?_⟩
  · rw [lookup_cons, ← h1.found n hn', frameAt, hat n hn']
    by_cases hsame : n = addr / pageSize
    · simp [hsame]
    · have hne : (n == addr / pageSize) = false := beq_false_of_ne hsame
      rw [if_neg fun hboth => hsame hboth.2, hne]
      rfl
  · rw [hat n hn'] at hpe
    split at hpe
    · obtain rfl := Option.some.inj hpe
      exact .inl rfl
    · exact h1.held n hn' e hpe
  · rintro x (_ | ⟨_, hx⟩)
    · exact hn
    · exact h1.page_lt x hx
  · rintro x (_ | ⟨_, hx⟩)
    · exact update_self ..
    · rw [update_of_ne (hother x hx), h1.role x hx]
  · rw [map_cons, nodup_cons]
    refine ⟨fun hmem => ?_, h1.nodup⟩
    obtain ⟨x, hx, hxb⟩ := mem_map.1 hmem
    exact hother x hx hxb
  · rw [hmanager, testBit_takeFrame, Bool.or_eq_true, decide_eq_true_iff] at hf
    rw [map_cons, mem_cons]
    rcases hf with hf | rfl
    · rcases h1.used f hf with hold | hlog | ⟨i, hi, hpresent, hframe⟩
      · exact .inl hold
      · exact .inr (.inl (.inr hlog))
      · exact .inr (.inr ⟨i, hi, by rw [hrow]; exact hpresent, by rw [hrow]; exact hframe⟩)
    · exact .inr (.inl (.inl rfl))
  · have htake := freeBlockCount_takeFrame h1.owned.counted hassign.counted
    rw [hmanager]
    omega

theorem Filled.allocateAll (l : List Nat) (h : Filled K pageDirPhys v₀ log owner v)
    (haddr : ∀ a ∈ l, a < kernelVirtAddr) (hframes : 2 * l.length ≤ v.manager.freeBlockCount)
    (kernel writeable : Bool) :
    ∃ v' owner' new, l.foldlM (VirtualMemory.allocateAddress kernel writeable) v = .ok v' ∧ Filled K
      pageDirPhys v₀ (new ++ log) owner' v' ∧ new.map Prod.fst = (l.map (· / pageSize)).reverse ∧
      v.manager.freeBlockCount ≤ v'.manager.freeBlockCount + 2 * l.length := by
  induction l generalizing v owner log with
  | nil => exact ⟨v, owner, [], rfl, h, rfl, by simp⟩
  | cons a l ih =>
    rw [length_cons] at hframes
    obtain ⟨v1, owner1, f, hstep, h1, hcount1⟩ := h.allocateAddress (haddr a mem_cons_self)
      (by omega) kernel writeable
    obtain ⟨v2, owner2, new, hloop, h2, hpages, hcount2⟩ := ih h1
      (forall_mem_cons.1 haddr).2 (by omega)
    refine ⟨v2, owner2, new ++ [(a / pageSize, f)], ?_, ?_, ?_, ?_⟩
    · rw [foldlM_cons]
      exact (bind_of_ok hstep).trans hloop
    · rw [append_assoc]
      exact h2
    · simp [hpages]
    · rw [length_cons]
      omega

theorem Filled.allocateRange (start len : Nat) (h : Filled K pageDirPhys v₀ log owner v)
    (hend : start + len ≤ kernelVirtAddr)
    (hframes : 2 * (pages 0 len).length ≤ v.manager.freeBlockCount) (kernel writeable : Bool) :
    ∃ v' owner' new, forPages (fun v x => VirtualMemory.allocateAddress kernel writeable v
        (u32 (start + x))) len (2 ^ 20 + 1) 0 v = .ok v' ∧
      Filled K pageDirPhys v₀ (new ++ log) owner' v' ∧
      new.map Prod.fst = ((pages 0 len).map fun x => (start + x) / pageSize).reverse ∧
      v.manager.freeBlockCount ≤ v'.manager.freeBlockCount + 2 * (pages 0 len).length := by
  obtain ⟨haddr, hrange⟩ := forPages_offset hend (VirtualMemory.allocateAddress kernel writeable) v
  obtain ⟨v', owner', new, hloop, h', hpages, hcount⟩ := h.allocateAll _ haddr
    (by rwa [length_map]) kernel writeable
  rw [length_map] at hcount
  rw [map_map] at hpages
  exact ⟨v', owner', new, hrange.trans hloop, h', hpages, hcount⟩

end VirtualMemory

/-- The range of the executable with one more segment (`process.cpp:110`). -/
def growImage (image : Nat × Nat) (h : ElfProgramHeader) : Nat × Nat :=
  if h.pType = 1 then
    let memBase := if h.pVaddr < image.1 ∨ image.1 = 0 then h.pVaddr else image.1
    let size := sub32 (u32 (h.pVaddr + h.pMemsz)) memBase
    (memBase, if size > image.2 then size else image.2)
  else image

/-- The base and the size of the executable. -/
def imageRange (headers : List ElfProgramHeader) : Nat × Nat := headers.foldl growImage (0, 0)

/-- The end of the executable as `Create` computes it, behind which it puts the heap. -/
def imageTop (headers : List ElfProgramHeader) : Nat :=
  (imageRange headers).1 + (imageRange headers).2

/-- The pages that `Create` allocates for a segment, from the start of it in steps of a page. -/
def steppedPages (h : ElfProgramHeader) : List Nat :=
  if h.pType = 1 then (pages 0 h.pMemsz).map fun x => (h.pVaddr + x) / pageSize else []

/-- The pages that `Create` allocates for the stack. -/
def stackPages : List Nat := (pages userStack (userStack + userStackSize)).map (· / pageSize)

/-- The pages that `Create` allocates for the heap behind an executable that ends at `top`. -/
def heapPages (top : Nat) : List Nat :=
  (pages 0 procUserHeapSize).map fun x => (pageRoundUp (u32 top) + x) / pageSize

/-- All segments end below the kernel, and so does the heap that is put behind them. -/
structure BelowKernel (headers : List ElfProgramHeader) : Prop where
  segments : ∀ h ∈ headers, h.pType = 1 → h.pVaddr + h.pMemsz ≤ kernelVirtAddr
  heap : imageTop headers + procUserHeapSize ≤ kernelVirtAddr

namespace VirtualMemory

/-- The frames in use before the process is created. -/
def usedFrames (v : VirtualMemory) : Set Nat :=
  {f | 0 < f ∧ f < v.manager.maximumBlocks ∧ v.manager.testBit f = true}

variable {log : List (Nat × Nat)}

theorem Filled.initial (bootPageDirectory : Nat) (hcounted : v.manager.Counted)
    (hreleased : v.released = []) (hdir : pageDirPhys / pageSize ∈ v.usedFrames) :
    ∃ owner, Filled v.usedFrames pageDirPhys v [] owner (v.newDirectory bootPageDirectory pageDirPhys) := by
  obtain ⟨owner, howned⟩ := (Machine.Inv.initial hcounted (fun f hf => hf) hreleased).owned
  obtain ⟨howned', -, hempty⟩ := howned.createDirectory hdir (by simp [Machine.dirs])
    (v.entries (bootPageDirectory / pageSize))
  refine ⟨owner, howned'.mono (by simp), rfl, rfl, fun n hn => ?_,
    fun n hn => held_of_pageAt_eq_none (hempty n hn), by simp, by simp, by simp,
    fun f hf => .inl hf⟩
  have hnone : (v.newDirectory bootPageDirectory pageDirPhys).pageAt _ n = none := hempty n hn
  rw [frameAt, hnone]
  rfl

theorem Filled.loadSegments (headers : List ElfProgramHeader) (isKernel : Bool)
    (h : Filled K pageDirPhys v₀ log owner l.memory)
    (hbelow : ∀ h ∈ headers, h.pType = 1 → h.pVaddr + h.pMemsz ≤ kernelVirtAddr)
    (hframes : 2 * segmentPages headers ≤ l.memory.manager.freeBlockCount) :
    ∃ l' owner' new, headers.foldlM (loadSegment isKernel) l = .ok l' ∧ Filled K pageDirPhys v₀ (new ++ log)
      owner' l'.memory ∧ new.map Prod.fst = (headers.flatMap steppedPages).reverse ∧
      (l'.memBase, l'.memSize) = headers.foldl growImage (l.memBase, l.memSize) ∧
      l.memory.manager.freeBlockCount ≤ l'.memory.manager.freeBlockCount + 2 * segmentPages headers := by
  induction headers generalizing l owner log with
  | nil => exact ⟨l, owner, [], rfl, h, rfl, rfl, by simp [segmentPages]⟩
  | cons hd headers ih =>
    have hbelow' := (forall_mem_cons.1 hbelow).2
    rw [segmentPages, map_cons, sum_cons, ← segmentPages] at hframes ⊢
    simp only [foldlM_cons, loadSegment, flatMap_cons, foldl_cons]
    by_cases htype : hd.pType = 1
    · simp only [if_pos htype, steppedPages, growImage] at hframes ⊢
      obtain ⟨v1, owner1, new1, hloop, h1, hpages1, hcount1⟩ := h.allocateRange _ _
        (hbelow hd mem_cons_self htype) (by omega) isKernel (decide (hd.pFlags / 2 % 2 = 1))
      rw [bind_of_ok hloop]
      obtain ⟨l2, owner2, new2, hrest, h2, hpages2, hrange, hcount2⟩ := ih (l := ⟨_, _, v1⟩) h1
        hbelow' (by show _ ≤ v1.manager.freeBlockCount; omega)
      refine ⟨l2, owner2, new2 ++ new1, (bind_of_ok rfl).trans hrest, ?_, ?_, hrange, ?_⟩
      · rw [append_assoc]
        exact h2
      · rw [map_append, hpages2, hpages1, reverse_append]
      · have hcount2 : v1.manager.freeBlockCount ≤ _ := hcount2
        omega
    · simp only [if_neg htype, zero_add, steppedPages, growImage, nil_append] at hframes ⊢
      exact ih h hbelow' hframes

theorem heapStart_below (h : top + procUserHeapSize ≤ kernelVirtAddr) :
    top ≤ pageRoundUp (u32 top) ∧ pageRoundUp (u32 top) + procUserHeapSize ≤ kernelVirtAddr := by
  have hsmall : kernelVirtAddr + pageSize < 2 ^ 32 := by decide
  rw [u32_eq (by omega), pageRoundUp_eq (by omega)]
  simp only [kernelVirtAddr, procUserHeapSize, pageSize] at h ⊢
  omega

theorem Filled.addStackAndHeap (isKernel : Bool) (oldCR3 : Nat)
    (h : Filled K pageDirPhys v₀ log owner l.memory)
    (hheap : l.memBase + l.memSize + procUserHeapSize ≤ kernelVirtAddr)
    (hframes : 2 * (userStackSize / pageSize + procUserHeapSize / pageSize) ≤
      l.memory.manager.freeBlockCount) :
    ∃ v' owner' new, VirtualMemory.addStackAndHeap isKernel pageDirPhys oldCR3 l =
        .ok (⟨pageDirPhys, !isKernel, l.memBase, l.memSize, pageRoundUp (u32 (l.memBase + l.memSize)),
          pageRoundUp (u32 (l.memBase + l.memSize)) + procUserHeapSize,
          [(userStack, userStackSize)]⟩, { v' with cr3 := oldCR3 }) ∧
      Filled K pageDirPhys v₀ (new ++ log) owner' v' ∧
      new.map Prod.fst = (stackPages ++ heapPages (l.memBase + l.memSize)).reverse := by
  have hstack : (pages userStack (userStack + userStackSize)).length = 8 := by
    rfl
  have hlen : (pages 0 procUserHeapSize).length = 256 := by
    rw [length_pages]
    rfl
  rw [show userStackSize / pageSize = 8 by decide, show procUserHeapSize / pageSize = 256 by decide]
    at hframes
  obtain ⟨-, hheapEnd⟩ := heapStart_below hheap
  have hend : userStack + userStackSize + pageSize ≤ 2 ^ 32 := by decide
  have hsmall : kernelVirtAddr < 2 ^ 32 := by decide
  obtain ⟨v1, owner1, new1, hloop1, h1, hpages1, hcount1⟩ := h.allocateAll
    (pages userStack (userStack + userStackSize)) (fun a ha => (mem_pages.1 ha).choose_spec.2)
    (by omega) isKernel true
  obtain ⟨v2, owner2, new2, hloop2, h2, hpages2, -⟩ := h1.allocateRange
    (pageRoundUp (u32 (l.memBase + l.memSize))) procUserHeapSize hheapEnd (by omega) isKernel true
  refine ⟨v2, owner2, new2 ++ new1, ?_, ?_, ?_⟩
  · unfold VirtualMemory.addStackAndHeap
    rw [forPages_eq _ hend _ _ (length_pages_lt hend), bind_of_ok hloop1]
    have hword : u32 (pageRoundUp (u32 (l.memBase + l.memSize)) + procUserHeapSize) =
        pageRoundUp (u32 (l.memBase + l.memSize)) + procUserHeapSize := u32_eq (by omega)
    simp only [hword]
    rw [bind_of_ok hloop2]
  · rw [append_assoc]
    exact h2
  · rw [map_append, hpages1, hpages2, reverse_append]
    rfl

end VirtualMemory

end HeisenKernel
