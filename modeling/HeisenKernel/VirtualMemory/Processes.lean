import HeisenKernel.VirtualMemory.Ownership

/-!
# Memory of processes

Runs of process creations, heap-size system calls and process exits.
-/

namespace HeisenKernel

open Lib PhysicalMemoryManager VirtualMemory Function List Set

theorem nodup_pages_div (start stop : Nat) : ((pages start stop).map (· / pageSize)).Nodup := by
  rw [pages, map_map]
  refine nodup_range.map_on fun k _ l _ hkl => ?_
  simp only [comp_apply, pageSize] at hkl
  omega

namespace ProcessMemory

/-- Where the memory of a process lies: the executable, behind it the heap, and behind that the
stack, which ends where the kernel begins. -/
structure Laid (p : ProcessMemory) : Prop where
  stack : p.threadStacks = [(userStack, userStackSize)]
  image : p.memBase + p.memSize ≤ p.heapStart
  heap : p.heapStart ≤ p.heapEnd
  top : p.heapEnd ≤ userStack
  start_aligned : p.heapStart % pageSize = 0
  end_aligned : p.heapEnd % pageSize = 0

/-- The pages of a process that may be freed again: all but those between its heap and its stack. -/
def HasPage (p : ProcessMemory) (n : Nat) : Prop :=
  n < userPages ∧ (n * pageSize < p.heapEnd ∨ userStack ≤ n * pageSize)

theorem Laid.hasPage_of_lt {p : ProcessMemory} (h : p.Laid) {n : Nat} (hn : n * pageSize < p.heapEnd) :
    p.HasPage n := by
  refine ⟨?_, .inl hn⟩
  have htop := h.top
  simp only [userPages, kernelVirtAddr, userStack, userStackSize, pageSize] at hn htop ⊢
  omega

end ProcessMemory

/-- The number of pages that `Create` allocates for the segments of an executable. -/
def segmentPages (headers : List ElfProgramHeader) : Nat :=
  (headers.map fun h => if h.pType = 1 then (pages 0 h.pMemsz).length else 0).sum

/-- The end of the last address range that an executable may have, with room for the heap below the
stack. -/
def imageEnd : Nat := userStack - procUserHeapSize - pageSize

/-- The segments of an executable lie where a process has its memory. -/
def SegmentsFit (headers : List ElfProgramHeader) : Prop :=
  ∀ h ∈ headers, h.pType = 1 → 0 < h.pVaddr ∧ h.pVaddr + h.pMemsz ≤ imageEnd

namespace VirtualMemory

variable {v : VirtualMemory}

theorem forPages_offset (h : start + len ≤ kernelVirtAddr) (f : VirtualMemory → Nat → Exec VirtualMemory)
    (v : VirtualMemory) : (∀ a ∈ (pages 0 len).map (start + ·), a < kernelVirtAddr) ∧
    forPages (fun v x => f v (u32 (start + x))) len (2 ^ 20 + 1) 0 v =
      ((pages 0 len).map (start + ·)).foldlM f v := by
  have hlt : ∀ x ∈ pages 0 len, start + x < kernelVirtAddr := fun x hx => by
    obtain ⟨k, -, hlt⟩ := mem_pages.1 hx
    omega
  refine ⟨(forall_mem_map.2 fun x hx => ?_), ?_⟩
  · exact hlt x hx
  · have hlen : len + pageSize ≤ 2 ^ 32 := by
      simp only [kernelVirtAddr, pageSize] at h ⊢
      omega
    rw [forPages_eq _ hlen _ _ (length_pages_lt hlen), foldlM_map]
    exact foldlM_congr (fun x hx w => by rw [u32_eq ((hlt x hx).trans (by decide))]) v

theorem Owned.allocateRange (start len : Nat) (h : Owned K D owner v) (hcr3 : v.cr3 / pageSize ∈ D)
    (hend : start + len ≤ kernelVirtAddr)
    (hframes : 2 * (pages 0 len).length ≤ v.manager.freeBlockCount) (kernel writeable : Bool) :
    ∃ v' owner', forPages (fun v x => VirtualMemory.allocateAddress kernel writeable v
        (u32 (start + x))) len (2 ^ 20 + 1) 0 v = .ok v' ∧ Owned K D owner' v' ∧ Kept D v v' ∧
      v.manager.freeBlockCount ≤ v'.manager.freeBlockCount + 2 * (pages 0 len).length := by
  obtain ⟨haddr, hpages⟩ := forPages_offset hend (VirtualMemory.allocateAddress kernel writeable) v
  obtain ⟨v', owner', hloop, howned, hkept, -, hcount⟩ := h.allocateAll _ hcr3 haddr
    (.inl (by rwa [length_map])) kernel writeable
  rw [length_map] at hcount
  exact ⟨v', owner', hpages.trans hloop, howned, hkept, hcount⟩

theorem image_add_segment (hpos : 0 < vaddr) (hend : vaddr + memsz ≤ imageEnd)
    (himage : memBase + memSize ≤ imageEnd) (hzero : memBase = 0 → memSize = 0) :
    let base := if vaddr < memBase ∨ memBase = 0 then vaddr else memBase
    let size := sub32 (u32 (vaddr + memsz)) base
    base ≠ 0 ∧ base + (if size > memSize then size else memSize) ≤ imageEnd := by
  have hsmall : imageEnd < 2 ^ 32 := by decide
  intro base size
  have hbase : base = vaddr ∧ (vaddr < memBase ∨ memBase = 0) ∨
      base = memBase ∧ memBase ≤ vaddr ∧ memBase ≠ 0 := by
    show (if _ then _ else _) = _ ∧ _ ∨ (if _ then _ else _) = _ ∧ _
    split <;> omega
  have hsize : size = vaddr + memsz - base := by
    show sub32 (u32 (vaddr + memsz)) base = _
    rw [u32_eq (by omega), sub32_eq (by omega) (by omega)]
  refine ⟨by omega, ?_⟩
  split
  · omega
  · rcases hbase with ⟨hb, hlt | h0⟩ | ⟨hb, -⟩
    · omega
    · rw [hzero h0]
      omega
    · omega

theorem Owned.loadSegments (isKernel : Bool) (headers : List ElfProgramHeader)
    (h : Owned K D owner l.memory) (hcr3 : l.memory.cr3 / pageSize ∈ D)
    (hfit : SegmentsFit headers) (himage : l.memBase + l.memSize ≤ imageEnd)
    (hzero : l.memBase = 0 → l.memSize = 0)
    (hframes : 2 * segmentPages headers ≤ l.memory.manager.freeBlockCount) :
    ∃ l' owner', headers.foldlM (loadSegment isKernel) l = .ok l' ∧ Owned K D owner' l'.memory ∧
      Kept D l.memory l'.memory ∧ l'.memBase + l'.memSize ≤ imageEnd ∧
      l.memory.manager.freeBlockCount ≤ l'.memory.manager.freeBlockCount + 2 * segmentPages headers := by
  induction headers generalizing l owner with
  | nil => exact ⟨l, owner, rfl, h, .refl D l.memory, himage, by simp [segmentPages]⟩
  | cons hd headers ih =>
    have hfit' : SegmentsFit headers := (forall_mem_cons.1 hfit).2
    rw [segmentPages, map_cons, sum_cons, ← segmentPages] at hframes ⊢
    simp only [foldlM_cons, loadSegment]
    by_cases htype : hd.pType = 1
    · obtain ⟨hpos, hend⟩ := hfit hd mem_cons_self htype
      have hkernel : imageEnd ≤ kernelVirtAddr := by decide
      simp only [if_pos htype] at hframes ⊢
      obtain ⟨v₁, owner1, hloop, howned1, hkept1, hcount1⟩ := h.allocateRange _ _ hcr3
        (hend.trans hkernel) (by omega) isKernel (decide (hd.pFlags / 2 % 2 = 1))
      obtain ⟨hbase, himage'⟩ := image_add_segment hpos hend himage hzero
      rw [bind_of_ok hloop]
      obtain ⟨l2, owner2, hrest, howned2, hkept2, himage2, hcount2⟩ := ih
        (l := ⟨_, _, v₁⟩) howned1 (by rw [hkept1.cr3]; exact hcr3) hfit' himage'
        (fun h0 => absurd h0 hbase) (by show _ ≤ v₁.manager.freeBlockCount; omega)
      refine ⟨l2, owner2, (bind_of_ok rfl).trans hrest, howned2, hkept1.trans hkept2, himage2, ?_⟩
      have hcount2 : v₁.manager.freeBlockCount ≤ _ := hcount2
      omega
    · simp only [if_neg htype, zero_add] at hframes ⊢
      exact ih h hcr3 hfit' himage hzero hframes

theorem heapStart_spec {imageTop : Nat} (h : imageTop ≤ imageEnd) :
    imageTop ≤ pageRoundUp (u32 imageTop) ∧ pageRoundUp (u32 imageTop) + procUserHeapSize ≤
      userStack ∧ pageRoundUp (u32 imageTop) % pageSize = 0 := by
  have hsmall : imageEnd + pageSize < 2 ^ 32 := by decide
  rw [u32_eq (by omega), pageRoundUp_eq (by omega)]
  simp only [imageEnd, pageSize, userStack, kernelVirtAddr, userStackSize, procUserHeapSize] at h ⊢
  omega

theorem Owned.createDirectory (h : Owned K D owner v)
    (hK : pageDirPhys / pageSize ∈ K) (hnew : pageDirPhys / pageSize ∉ D) (boot : Nat → PageEntry) :
    let w : VirtualMemory := { v with
      entries := Function.update v.entries (pageDirPhys / pageSize) fun i =>
        if i = 1023 then ⟨true, true, false, pageDirPhys / pageSize⟩
        else if isKernelEntry i then boot i else .zero
      cr3 := pageDirPhys }
    Owned K (insert (pageDirPhys / pageSize) D) owner w ∧ (∀ d ∈ D, ∀ n < userPages, v.Held d n → w.Held d n)
      ∧ ∀ n < userPages, w.pageAt (pageDirPhys / pageSize) n = none := by
  intro w
  obtain ⟨howned, hold, hempty⟩ := (h.setCr3 pageDirPhys).newDirectory hK hnew
    (fun i => if i = 1023 then ⟨true, true, false, pageDirPhys / pageSize⟩
      else if isKernelEntry i then boot i else .zero)
    ⟨rfl, rfl⟩ (by
      intro i hi
      have hne : i ≠ 1023 := by omega
      have hkernel : isKernelEntry i = false := by
        simp only [isKernelEntry, Bool.or_eq_false_iff, Bool.and_eq_false_iff, decide_eq_false_iff_not]
        omega
      simp [hne, hkernel, PageEntry.zero])
  exact ⟨howned, fun d hd n hn => held_of_pageAt_eq (hold d hd n hn), hempty⟩

theorem Owned.createProcess
    (h : Owned K D owner v) (hK : pageDirPhys / pageSize ∈ K) (hnew : pageDirPhys / pageSize ∉ D)
    (hfit : SegmentsFit headers)
    (hframes : 2 * (segmentPages headers + userStackSize / pageSize + procUserHeapSize / pageSize) ≤
      v.manager.freeBlockCount) (bootPageDirectory : Nat) (isKernel : Bool) :
    ∃ (l : Loading) (p : ProcessMemory) (v' : VirtualMemory) (owner' : Nat → Option FrameRole),
      v.createProcess bootPageDirectory pageDirPhys headers isKernel =
        (headers.forM l.memory.copySegment).map (fun _ => (p, v')) ∧
      Owned K (insert (pageDirPhys / pageSize) D) owner' v' ∧ p.pageDirPhys = pageDirPhys ∧ p.Laid ∧
      (∀ d ∈ D, ∀ n < userPages, v.Held d n → v'.Held d n) ∧
      ∀ n < userPages, v'.Held (pageDirPhys / pageSize) n := by
  have hstack : (pages userStack (userStack + userStackSize)).length = 8 := by
    rfl
  have hheap : (pages 0 procUserHeapSize).length = 256 := by
    rw [length_pages]
    rfl
  rw [show userStackSize / pageSize = 8 by decide, show procUserHeapSize / pageSize = 256 by decide]
    at hframes
  obtain ⟨howned, hold, hempty⟩ := h.createDirectory hK hnew (v.entries (bootPageDirectory / pageSize))
  obtain ⟨l, owner1, hsegments, howned1, hkept1, himage, hcount1⟩ := howned.loadSegments isKernel
    headers (l := ⟨0, 0, _⟩) (mem_insert _ _) hfit (Nat.zero_le _) (fun _ => rfl)
    (show _ ≤ v.manager.freeBlockCount by omega)
  have hcount1 : v.manager.freeBlockCount ≤ _ := hcount1
  have hcr31 : l.memory.cr3 = pageDirPhys := hkept1.cr3
  obtain ⟨v₂, owner2, hloop2, howned2, hkept2, -, hcount2⟩ := howned1.allocateAll
    (pages userStack (userStack + userStackSize)) (by rw [hcr31]; exact mem_insert _ _)
    (fun a ha => (mem_pages.1 ha).choose_spec.2) (.inl (by omega)) isKernel true
  have hcr32 : v₂.cr3 = pageDirPhys := hkept2.cr3.trans hcr31
  obtain ⟨himage', htop, haligned⟩ := heapStart_spec himage
  generalize hheapStart : pageRoundUp (u32 (l.memBase + l.memSize)) = heapStart
    at himage' htop haligned
  have hstackTop : userStack < kernelVirtAddr := by decide
  have hsmall : userStack < 2 ^ 32 := by decide
  obtain ⟨v₃, owner3, hloop3, howned3, hkept3, hcount3⟩ := howned2.allocateRange heapStart
    procUserHeapSize (by rw [hcr32]; exact mem_insert _ _) (by omega) (by omega) isKernel true
  have hkept := (hkept1.trans hkept2).trans hkept3
  refine ⟨l, ⟨pageDirPhys, !isKernel, l.memBase, l.memSize, heapStart,
    heapStart + procUserHeapSize, [(userStack, userStackSize)]⟩, { v₃ with cr3 := v.cr3 }, owner3, ?_,
    howned3.setCr3 _, rfl, ⟨rfl, himage', Nat.le_add_right _ _, htop, haligned, ?_⟩, ?_, ?_⟩
  · unfold VirtualMemory.createProcess
    rw [bind_of_ok hsegments]
    cases hcopy : headers.forM l.memory.copySegment with
    | error e => rfl
    | ok u =>
      have hend : userStack + userStackSize + pageSize ≤ 2 ^ 32 := by decide
      rw [bind_of_ok rfl, forPages_eq _ hend _ _ (length_pages_lt hend), bind_of_ok hloop2]
      simp only [hheapStart]
      rw [bind_of_ok hloop3, u32_eq (by omega)]
      rfl
  · simp only [procUserHeapSize, pageSize] at haligned ⊢
    omega
  · intro d hd n hn hheld
    exact hkept.held d (mem_insert_of_mem _ hd) n hn (hold d hd n hn hheld)
  · intro n hn
    exact hkept.held _ (mem_insert _ _) n hn (held_of_pageAt_eq_none (hempty n hn))

theorem Owned.freeRange (h : Owned K D owner v) (hcr3 : v.cr3 / pageSize ∈ D)
    (hstop : stop ≤ kernelVirtAddr)
    (hheld : ∀ n, start / pageSize ≤ n → n * pageSize < stop → v.Held (v.cr3 / pageSize) n)
    (hv : forPages VirtualMemory.freeAddress stop (2 ^ 20 + 1) start v = .ok v') :
    ∃ owner', Owned K D owner' v' ∧ v'.cr3 = v.cr3 ∧ ∀ d ∈ D, ∀ n < userPages,
      ¬ (d = v.cr3 / pageSize ∧ start / pageSize ≤ n ∧ n * pageSize < stop) →
        v'.pageAt d n = v.pageAt d n := by
  have hspace : stop + pageSize ≤ 2 ^ 32 := by
    simp only [kernelVirtAddr, pageSize] at hstop ⊢
    omega
  have hrange : ∀ a ∈ pages start stop, start / pageSize ≤ a / pageSize ∧ a / pageSize * pageSize < stop := by
    intro a ha
    obtain ⟨k, rfl, hlt⟩ := mem_pages.1 ha
    simp only [pageSize] at hlt ⊢
    omega
  rw [forPages_eq _ hspace _ _ (length_pages_lt hspace)] at hv
  obtain ⟨owner', howned, hcr3', hpage⟩ := h.freeAll (pages start stop) hcr3
    (fun a ha => (mem_pages.1 ha).choose_spec.2.trans_le hstop) (nodup_pages_div start stop)
    (fun a ha => hheld _ (hrange a ha).1 (hrange a ha).2) hv
  refine ⟨owner', howned, hcr3', fun d hd n hn hne => hpage d hd n hn ?_⟩
  rintro ⟨rfl, hmem⟩
  obtain ⟨a, ha, rfl⟩ := mem_map.1 hmem
  exact hne ⟨rfl, hrange a ha⟩

/-- What `UpdateHeap` needs: the end is not below the start of the heap and not inside the stack, and
when the heap grows, there are two frames for every new page, or its page tables are there and no new
page has a frame left in its entry. -/
structure HeapFits (v : VirtualMemory) (p : ProcessMemory) (newEndAddr : Nat) : Prop where
  start_le : p.heapStart ≤ pageRoundUp newEndAddr
  le_stack : newEndAddr ≤ userStack
  frames : 2 * (pages p.heapEnd (pageRoundUp newEndAddr)).length ≤ v.manager.freeBlockCount ∨
    ∀ a ∈ pages p.heapEnd (pageRoundUp newEndAddr),
      (v.entries (p.pageDirPhys / pageSize) (pageDirIndex a)).present = true ∧
        v.Held (p.pageDirPhys / pageSize) (a / pageSize)

theorem HeapFits.round (h : v.HeapFits p newEndAddr)
    (hlaid : p.Laid) : pageRoundUp newEndAddr ≤ userStack ∧ pageRoundUp newEndAddr % pageSize = 0 ∧
      (newEndAddr < p.heapEnd → pageRoundUp newEndAddr ≤ p.heapEnd) := by
  have hle := h.le_stack
  have halign := hlaid.end_aligned
  rw [pageRoundUp_eq ((Nat.add_le_add_right hle _).trans (by decide))]
  simp only [pageSize, userStack, kernelVirtAddr, userStackSize] at hle halign ⊢
  omega

theorem Owned.updateHeap {p p' : ProcessMemory} {newEndAddr : Nat} (h : Owned K D owner v)
    (hp : p.pageDirPhys / pageSize ∈ D) (hcr3 : v.cr3 = p.pageDirPhys) (hlaid : p.Laid)
    (hheld : ∀ n, p.HasPage n → v.Held (p.pageDirPhys / pageSize) n)
    (hfits : v.HeapFits p newEndAddr) (hv : v.updateHeap p newEndAddr = .ok (p', v')) :
    p'.pageDirPhys = p.pageDirPhys ∧ p'.Laid ∧ (∃ owner', Owned K D owner' v') ∧
      (∀ n, p'.HasPage n → v'.Held (p.pageDirPhys / pageSize) n) ∧
      ∀ d ∈ D, d ≠ p.pageDirPhys / pageSize → ∀ n < userPages, v.Held d n → v'.Held d n := by
  have hkernel : userStack ≤ kernelVirtAddr := by decide
  obtain ⟨htop, haligned, hshrink⟩ := hfits.round hlaid
  have hlaid' : ProcessMemory.Laid { p with heapEnd := pageRoundUp newEndAddr } :=
    ⟨hlaid.stack, hlaid.image, hfits.start_le, htop, hlaid.start_aligned, haligned⟩
  have hcr3D : v.cr3 / pageSize ∈ D := by
    rw [hcr3]
    exact hp
  unfold VirtualMemory.updateHeap at hv
  split at hv
  · -- the heap grows
    have hstop : pageRoundUp newEndAddr + pageSize ≤ 2 ^ 32 := (Nat.add_le_add_right htop _).trans (by decide)
    obtain ⟨v₁, owner1, hloop, howned, hkept, hnew, -⟩ := h.allocateAll
      (pages p.heapEnd (pageRoundUp newEndAddr)) hcr3D
      (fun a ha => ((mem_pages.1 ha).choose_spec.2.trans_le htop).trans_le hkernel)
      (by rw [hcr3]; exact hfits.frames) (!p.isUserspace) true
    rw [forPages_eq _ hstop _ _ (length_pages_lt hstop), bind_of_ok hloop] at hv
    cases hv
    refine ⟨rfl, hlaid', ⟨owner1, howned⟩, ?_, fun d hd _ n hn => hkept.held d hd n hn⟩
    rintro n ⟨hn, hpage⟩
    by_cases hold : n * pageSize < p.heapEnd ∨ userStack ≤ n * pageSize
    · exact hkept.held _ hp n hn (hheld n ⟨hn, hold⟩)
    · have hmem : n * pageSize ∈ pages p.heapEnd (pageRoundUp newEndAddr) := by
        refine mem_pages.2 ⟨n - p.heapEnd / pageSize, ?_, by dsimp only at hpage; omega⟩
        have halign := hlaid.end_aligned
        simp only [pageSize] at hold halign ⊢
        omega
      have hheld' := hnew _ hmem
      rwa [hcr3, Nat.mul_div_cancel _ (by decide)] at hheld'
  · split at hv
    · -- the heap shrinks
      next hgt =>
      obtain ⟨v₁, hloop, hv⟩ := bind_eq_ok.1 hv
      cases hv
      obtain ⟨owner1, howned, -, hpage⟩ := h.freeRange hcr3D (hlaid.top.trans hkernel)
        (fun n _ hlt => hcr3 ▸ hheld n (hlaid.hasPage_of_lt hlt)) hloop
      refine ⟨rfl, hlaid', ⟨owner1, howned⟩, ?_, ?_⟩
      · rintro n ⟨hn, hpn⟩
        have hend := hlaid.top
        dsimp only at hpn
        refine held_of_pageAt_eq (hpage _ hp n hn ?_) (hheld n ⟨hn, by omega⟩)
        simp only [pageSize] at hpn haligned ⊢
        omega
      · intro d hd hne n hn hheld
        refine held_of_pageAt_eq (hpage d hd n hn ?_) hheld
        rintro ⟨rfl, -⟩
        rw [hcr3] at hne
        exact hne rfl
    · cases hv
      exact ⟨rfl, hlaid, ⟨owner, h⟩, hheld, fun _ _ _ _ _ hheld => hheld⟩

theorem Owned.removeProcess {p : ProcessMemory} (h : Owned K D owner v)
    (hp : p.pageDirPhys / pageSize ∈ D) (hcr3 : v.cr3 = p.pageDirPhys) (hlaid : p.Laid)
    (hheld : ∀ n, p.HasPage n → v.Held (p.pageDirPhys / pageSize) n)
    (hv : v.removeProcess p = .ok v') :
    (∃ owner', Owned K D owner' v') ∧
      ∀ d ∈ D, d ≠ p.pageDirPhys / pageSize → ∀ n < userPages, v'.pageAt d n = v.pageAt d n := by
  have hkernel : userStack ≤ kernelVirtAddr := by decide
  have himage := hlaid.image
  have hheap := hlaid.heap
  have htop := hlaid.top
  have hsmall : p.memBase + p.memSize < 2 ^ 32 := by
    have : userStack < 2 ^ 32 := by decide
    omega
  unfold VirtualMemory.removeProcess at hv
  rw [hlaid.stack] at hv
  obtain ⟨v₁, hloop1, hv⟩ := bind_eq_ok.1 hv
  obtain ⟨v₂, hloop2, hloop3⟩ := bind_eq_ok.1 hv
  obtain ⟨v1', hstack, hnil⟩ := bind_eq_ok.1 hloop1
  cases hnil
  rw [u32_eq hsmall] at hloop2
  -- the stack, the executable and the heap are three ranges that do not meet
  obtain ⟨owner1, howned1, hcr31, hpage1⟩ := h.freeRange (by rw [hcr3]; exact hp)
    (show u32 (userStack + userStackSize) ≤ kernelVirtAddr by decide) (by
      intro n hn hlt
      rw [hcr3]
      refine hheld n ⟨?_, .inr ?_⟩
      · have hend : u32 (userStack + userStackSize) = kernelVirtAddr := by decide
        rw [hend] at hlt
        simp only [userPages, pageSize, kernelVirtAddr] at hlt ⊢
        omega
      · simp only [userStack, kernelVirtAddr, userStackSize, pageSize] at hn ⊢
        omega) hstack
  rw [hcr3] at hcr31 hpage1
  have hheld1 : ∀ n, n * pageSize < p.heapEnd → v₁.Held (p.pageDirPhys / pageSize) n := by
    intro n hlt
    have hpn := hlaid.hasPage_of_lt hlt
    refine held_of_pageAt_eq (hpage1 _ hp n hpn.1 ?_) (hheld n hpn)
    simp only [userStack, kernelVirtAddr, userStackSize, pageSize] at hlt htop ⊢
    omega
  obtain ⟨owner2, howned2, hcr32, hpage2⟩ := howned1.freeRange (by rw [hcr31]; exact hp)
    (show p.memBase + p.memSize ≤ kernelVirtAddr by omega) (fun n _ hlt => hcr31 ▸ hheld1 n (by omega)) hloop2
  rw [hcr31] at hcr32 hpage2
  obtain ⟨owner3, howned3, -, hpage3⟩ := howned2.freeRange (by rw [hcr32]; exact hp)
    (htop.trans hkernel) (by
      intro n hn hlt
      rw [hcr32]
      refine held_of_pageAt_eq (hpage2 _ hp n (hlaid.hasPage_of_lt hlt).1 ?_) (hheld1 n hlt)
      have halign := hlaid.start_aligned
      simp only [pageSize] at hn halign ⊢
      omega) hloop3
  rw [hcr32] at hpage3
  refine ⟨⟨owner3, howned3⟩, fun d hd hne n hn => ?_⟩
  rw [hpage3 d hd n hn fun hr => hne hr.1, hpage2 d hd n hn fun hr => hne hr.1,
    hpage1 d hd n hn fun hr => hne hr.1]

end VirtualMemory

/-- The memory, the processes that run, and the frames of the kernel heap in which a page directory
was ever created: `RemoveProcess` does not free it. -/
structure Machine where
  memory : VirtualMemory
  processes : List ProcessMemory
  directories : List Nat

/-- What changes the memory of the processes: `Create` with a page directory at `pageDirPhys`, the
heap-size system call of a process and its exit. -/
inductive MemoryRequest where
  | create (pageDirPhys : Nat) (headers : List ElfProgramHeader) (isKernel : Bool)
  | setHeapSize (p : ProcessMemory) (newEndAddr : Nat)
  | exit (p : ProcessMemory)

namespace Machine

/-- One request that the kernel survives. `K` are the frames of the kernel: its heap gives every
process a page directory of its own. A process calls the kernel with its own directory in `cr3`. -/
inductive Step (K : Set Nat) (bootPageDirectory : Nat) : Machine → MemoryRequest → Machine → Prop
  | create {m : Machine} {pageDirPhys : Nat} {headers : List ElfProgramHeader} {isKernel : Bool}
      {p : ProcessMemory} {memory : VirtualMemory} :
      pageDirPhys / pageSize ∈ K → pageDirPhys / pageSize ∉ m.directories →
      m.memory.createProcess bootPageDirectory pageDirPhys headers isKernel = .ok (p, memory) →
      Step K bootPageDirectory m (.create pageDirPhys headers isKernel)
        ⟨memory, p :: m.processes, pageDirPhys / pageSize :: m.directories⟩
  | setHeapSize {m : Machine} {p p' : ProcessMemory} {newEndAddr : Nat} {memory : VirtualMemory} :
      p ∈ m.processes → newEndAddr < 2 ^ 32 →
      updateHeap { m.memory with cr3 := p.pageDirPhys } p newEndAddr = .ok (p', memory) →
      Step K bootPageDirectory m (.setHeapSize p newEndAddr)
        ⟨memory, p' :: m.processes.erase p, m.directories⟩
  | exit {m : Machine} {p : ProcessMemory} {memory : VirtualMemory} : p ∈ m.processes →
      removeProcess { m.memory with cr3 := p.pageDirPhys } p = .ok memory → Step K bootPageDirectory
      m (.exit p) ⟨memory, m.processes.erase p, m.directories⟩

/-- The condition under which a request does no harm. -/
def Safe (m : Machine) : MemoryRequest → Prop
  | .create _ headers _ => SegmentsFit headers ∧
      2 * (segmentPages headers + userStackSize / pageSize + procUserHeapSize / pageSize) ≤
        m.memory.manager.freeBlockCount
  | .setHeapSize p newEndAddr => m.memory.HeapFits p newEndAddr
  | .exit _ => True

/-- Frames of user pages are marked and belong to one process, and every frame that was given back
was marked when it was. -/
structure FramesOk (m : Machine) : Prop where
  marked : ∀ p ∈ m.processes, ∀ addr < kernelVirtAddr, ∀ frame,
    m.memory.translate p.pageDirPhys addr = some frame → m.memory.manager.testBit frame = true
  apart : ∀ p ∈ m.processes, ∀ q ∈ m.processes, p ≠ q → ∀ a < kernelVirtAddr, ∀ b < kernelVirtAddr,
    ∀ frame, m.memory.translate p.pageDirPhys a = some frame → m.memory.translate q.pageDirPhys b ≠ some frame
  released : ∀ r ∈ m.memory.released, r.2 = true

/-- The frames of the directories of the processes. -/
def dirs (m : Machine) : Set Nat := {d | ∃ p ∈ m.processes, p.pageDirPhys / pageSize = d}

/-- Every frame has one owner, and the pages of every process are held. -/
structure Inv (K : Set Nat) (m : Machine) : Prop where
  owned : ∃ owner, Owned K m.dirs owner m.memory
  nodup : (m.processes.map (·.pageDirPhys / pageSize)).Nodup
  known : ∀ p ∈ m.processes, p.pageDirPhys / pageSize ∈ m.directories
  laid : ∀ p ∈ m.processes, p.Laid
  held : ∀ p ∈ m.processes, ∀ n, p.HasPage n → m.memory.Held (p.pageDirPhys / pageSize) n

variable {K : Set Nat} {bootPageDirectory : Nat} {m m' : Machine} {r : MemoryRequest}

theorem pageAt_of_translate {v : VirtualMemory} {pageDirPhys addr frame : Nat}
    (h : v.translate pageDirPhys addr = some frame) :
    ∃ e, v.pageAt (pageDirPhys / pageSize) (addr / pageSize) = some e ∧ e.present = true ∧
      e.frame = frame := by
  unfold VirtualMemory.translate at h
  rw [pageDirIndex_eq, pageTableIndex_eq] at h
  unfold pageAt
  grind

theorem Inv.framesOk (h : m.Inv K) : m.FramesOk := by
  obtain ⟨owner, howned⟩ := h.owned
  have howner : ∀ p ∈ m.processes, ∀ addr < kernelVirtAddr, ∀ frame,
      m.memory.translate p.pageDirPhys addr = some frame →
        owner frame = some (.page (p.pageDirPhys / pageSize) (addr / pageSize)) := by
    intro p hp addr haddr frame hframe
    obtain ⟨e, he, hpresent, rfl⟩ := pageAt_of_translate hframe
    exact howned.backed _ ⟨p, hp, rfl⟩ _ (div_lt_userPages haddr) e he hpresent
  refine ⟨?_, ?_, howned.released⟩
  · intro p hp addr haddr frame hframe
    exact (howned.marked _ _ (howner p hp addr haddr frame hframe)).2.2
  · intro p hp q hq hne a ha b hb frame hpa hqb
    have hrole := howner p hp a ha frame hpa
    rw [howner q hq b hb frame hqb, Option.some.injEq, FrameRole.page.injEq] at hrole
    exact hne (inj_on_of_nodup_map h.nodup hp hq hrole.1.symm)

theorem Inv.create {memory : VirtualMemory} (h : m.Inv K) (hK : pageDirPhys / pageSize ∈ K)
    (hnew : pageDirPhys / pageSize ∉ m.directories) (hsafe : m.Safe (.create pageDirPhys headers isKernel))
    (hv : m.memory.createProcess bootPageDirectory pageDirPhys headers isKernel = .ok (p, memory)) : Inv K
    ⟨memory, p :: m.processes, pageDirPhys / pageSize :: m.directories⟩ := by
  obtain ⟨owner, howned⟩ := h.owned
  have hdir : pageDirPhys / pageSize ∉ m.dirs := by
    rintro ⟨q, hq, he⟩
    exact hnew (he ▸ h.known q hq)
  obtain ⟨l, p', v', owner', heq, howned', hphys, hlaid, hold, hheld⟩ :=
    howned.createProcess hK hdir hsafe.1 hsafe.2 bootPageDirectory isKernel
  rw [heq] at hv
  obtain ⟨-, -, hpair⟩ := map_eq_ok hv
  cases hpair
  refine ⟨⟨owner', ?_⟩, ?_, ?_, ?_, ?_⟩
  · have hdirs : dirs ⟨memory, p :: m.processes, pageDirPhys / pageSize :: m.directories⟩ =
        insert (pageDirPhys / pageSize) m.dirs := by
      ext d
      simp [dirs, hphys, eq_comm]
    rw [hdirs]
    exact howned'
  · rw [map_cons, nodup_cons, hphys]
    exact ⟨fun hmem => hdir (by simpa [dirs] using hmem), h.nodup⟩
  · rintro q (_ | ⟨_, hq⟩)
    · rw [hphys]
      exact mem_cons_self
    · exact mem_cons_of_mem _ (h.known q hq)
  · rintro q (_ | ⟨_, hq⟩)
    · exact hlaid
    · exact h.laid q hq
  · rintro q (_ | ⟨_, hq⟩) n hn
    · rw [hphys]
      exact hheld n hn.1
    · exact hold _ ⟨q, hq, rfl⟩ n hn.1 (h.held q hq n hn)

theorem Inv.erase (h : m.Inv K) (hp : p ∈ m.processes) (hq : q ∈ m.processes.erase p) : q ∈ m.processes ∧
    q.pageDirPhys / pageSize ≠ p.pageDirPhys / pageSize := by
  have hmem := mem_of_mem_erase hq
  refine ⟨hmem, fun he => ?_⟩
  obtain rfl := inj_on_of_nodup_map h.nodup hmem hp he
  exact h.nodup.of_map.not_mem_erase hq

theorem Inv.setHeapSize {memory : VirtualMemory}
    (h : m.Inv K) (hp : p ∈ m.processes) (hsafe : m.Safe (.setHeapSize p newEndAddr))
    (hv : updateHeap { m.memory with cr3 := p.pageDirPhys } p newEndAddr = .ok (p', memory)) :
    Inv K ⟨memory, p' :: m.processes.erase p, m.directories⟩ := by
  obtain ⟨owner, howned⟩ := h.owned
  obtain ⟨hphys, hlaid, ⟨owner', howned'⟩, hheld, hold⟩ :=
    (howned.setCr3 p.pageDirPhys).updateHeap ⟨p, hp, rfl⟩ rfl (h.laid p hp) (h.held p hp)
      ⟨hsafe.start_le, hsafe.le_stack, hsafe.frames⟩ hv
  refine ⟨⟨owner', howned'.mono ?_⟩, ?_, ?_, ?_, ?_⟩
  · rintro d ⟨q, _ | ⟨_, hq⟩, rfl⟩
    · exact ⟨p, hp, by rw [hphys]⟩
    · exact ⟨q, (h.erase hp hq).1, rfl⟩
  · have hperm := (perm_cons_erase hp).map (·.pageDirPhys / pageSize)
    have hnodup := hperm.nodup_iff.1 h.nodup
    rw [map_cons] at hnodup ⊢
    rw [hphys]
    exact hnodup
  · rintro q (_ | ⟨_, hq⟩)
    · rw [hphys]
      exact h.known p hp
    · exact h.known q (h.erase hp hq).1
  · rintro q (_ | ⟨_, hq⟩)
    · exact hlaid
    · exact h.laid q (h.erase hp hq).1
  · rintro q (_ | ⟨_, hq⟩) n hn
    · rw [hphys]
      exact hheld n hn
    · obtain ⟨hmem, hne⟩ := h.erase hp hq
      exact hold _ ⟨q, hmem, rfl⟩ hne n hn.1 (h.held q hmem n hn)

theorem Inv.exit {p : ProcessMemory} {memory : VirtualMemory} (h : m.Inv K) (hp : p ∈ m.processes)
    (hv : removeProcess { m.memory with cr3 := p.pageDirPhys } p = .ok memory) :
    Inv K ⟨memory, m.processes.erase p, m.directories⟩ := by
  obtain ⟨owner, howned⟩ := h.owned
  obtain ⟨⟨owner', howned'⟩, hpage⟩ := (howned.setCr3 p.pageDirPhys).removeProcess ⟨p, hp, rfl⟩ rfl
    (h.laid p hp) (h.held p hp) hv
  refine ⟨⟨owner', howned'.mono ?_⟩, ?_, ?_, ?_, ?_⟩
  · rintro d ⟨q, hq, rfl⟩
    exact ⟨q, (h.erase hp hq).1, rfl⟩
  · exact h.nodup.sublist (erase_sublist.map _)
  · intro q hq
    exact h.known q (h.erase hp hq).1
  · intro q hq
    exact h.laid q (h.erase hp hq).1
  · intro q hq n hn
    obtain ⟨hmem, hne⟩ := h.erase hp hq
    exact held_of_pageAt_eq (hpage _ ⟨q, hmem, rfl⟩ hne n hn.1) (h.held q hmem n hn)

theorem Inv.step (h : m.Inv K) (hs : guarded Safe (Step K bootPageDirectory) m r m') : m'.Inv K := by
  obtain ⟨hsafe, hs⟩ := hs
  cases hs with
  | create hK hnew hv => exact h.create hK hnew hsafe hv
  | setHeapSize hp _ hv => exact h.setHeapSize hp hsafe hv
  | exit hp hv => exact h.exit hp hv

open Classical in
theorem Inv.initial (hcounted : v.manager.Counted)
    (hK : ∀ f ∈ K, 0 < f ∧ f < v.manager.maximumBlocks ∧ v.manager.testBit f = true)
    (hreleased : v.released = []) : Inv K ⟨v, [], []⟩ := by
  refine ⟨⟨fun f => if f ∈ K then some .kernel else none, hcounted, ?_, ?_, ?_, ?_, ?_, ?_, ?_⟩, ?_, ?_,
    ?_, ?_⟩
  · intro f r hf
    by_cases hmem : f ∈ K
    · exact hK f hmem
    · simp [hmem] at hf
  · intro f hf
    simp [hf]
  all_goals simp [dirs, hreleased]

/-- In every run of process creations, heap-size calls and exits whose requests are safe: every frame
of a present user page is marked, no frame backs pages of two processes, and every frame given back
was marked. -/
theorem frames_ok_of_safe (K : Set Nat) (bootPageDirectory : Nat) (v : VirtualMemory)
    (hcounted : v.manager.Counted)
    (hK : ∀ f ∈ K, 0 < f ∧ f < v.manager.maximumBlocks ∧ v.manager.testBit f = true)
    (hreleased : v.released = []) (rs : List MemoryRequest) (m : Machine)
    (hrun : Run (guarded Safe (Step K bootPageDirectory)) ⟨v, [], []⟩ rs m) : m.FramesOk :=
  (hrun.invariant (Inv.initial hcounted hK hreleased) fun _ _ _ hi hs => hi.step hs).framesOk

/-- A machine of 1024 blocks, of which the first four are in use. -/
def emptyMachine : VirtualMemory where
  manager := ⟨1024 * blockSize, 4, 1024, fun i => if i = 0 then 0xf#32 else 0#32, []⟩
  entries := fun _ _ => .zero
  cr3 := 0
  pageTables := []
  released := []

theorem emptyMachine_counted : emptyMachine.manager.Counted :=
  ⟨by decide, by decide, by decide +kernel⟩

/-- The first process of `emptyMachine` gets its stack and its heap. -/
theorem frames_ok_of_safe_emptyMachine : ∃ m p,
    Run (guarded Safe (Step {2} 0)) ⟨emptyMachine, [], []⟩ [.create (2 * pageSize) [] false] m ∧
      m.processes = [p] ∧ m.FramesOk := by
  have hcounted := emptyMachine_counted
  have hK : ∀ f ∈ ({2} : Set Nat), 0 < f ∧ f < emptyMachine.manager.maximumBlocks ∧
      emptyMachine.manager.testBit f = true := by
    rintro f rfl
    decide
  have hsafe : Safe ⟨emptyMachine, [], []⟩ (.create (2 * pageSize) [] false) :=
    ⟨fun h hmem => absurd hmem (not_mem_nil), by decide⟩
  obtain ⟨owner, howned⟩ := (Inv.initial hcounted hK rfl).owned
  obtain ⟨l, p, v', owner', heq, -⟩ := howned.createProcess
    (show 2 * pageSize / pageSize ∈ ({2} : Set Nat) from rfl) (by simp [dirs]) hsafe.1 hsafe.2 0 false
  have hstep : guarded Safe (Step {2} 0) ⟨emptyMachine, [], []⟩ (.create (2 * pageSize) [] false)
      ⟨v', [p], [2 * pageSize / pageSize]⟩ := ⟨hsafe, .create rfl (not_mem_nil) heq⟩
  have hrun := Run.nil.snoc hstep
  exact ⟨_, p, hrun, rfl, frames_ok_of_safe {2} 0 emptyMachine hcounted hK rfl _ _ hrun⟩

/-- A machine of seven blocks, of which the first four are in use. -/
def threeFrames : VirtualMemory where
  manager := ⟨7 * blockSize, 4, 7, fun i => if i = 0 then 0xffffff8f#32 else 0xffffffff#32, []⟩
  entries := fun _ _ => .zero
  cr3 := 0
  pageTables := []
  released := []

/-- An executable of one page at `0x1000`. -/
def onePage : List ElfProgramHeader := [⟨1, 0x1000, 0x1000, 0x1000, 2⟩]

/-- The process that runs `onePage`. -/
def onePageProcess (heapEnd : Nat) : ProcessMemory :=
  ⟨2 * pageSize, true, 0x1000, 0x1000, 0x2000, heapEnd, [(userStack, userStackSize)]⟩

/-- `pageRoundUp(0xFFFFFFFF)` is 0, and a heap that ends at 0 grows and shrinks over the page of the
executable: its frame, 5, is given back by the heap-size call and again at the exit. -/
theorem frames_released_twice : threeFrames.manager.Counted ∧ ∃ m,
    Run (Step {2} 0) ⟨threeFrames, [], []⟩ [.create (2 * pageSize) onePage false,
      .setHeapSize (onePageProcess 0x102000) 0xFFFFFFFF, .setHeapSize (onePageProcess 0) 0x2000,
      .setHeapSize (onePageProcess 0x2000) 0x1000, .exit (onePageProcess 0x1000)] m ∧
    m.memory.released = [(5, false), (5, true)] ∧ ¬ m.FramesOk := by
  refine ⟨⟨by decide, by decide, by decide⟩, ?_⟩
  have hcalls : (do
      let (p₁, v) ← threeFrames.createProcess 0 (2 * pageSize) onePage false
      let (p₂, v) ← updateHeap { v with cr3 := p₁.pageDirPhys } p₁ 0xFFFFFFFF
      let (p₃, v) ← updateHeap { v with cr3 := p₂.pageDirPhys } p₂ 0x2000
      let (p₄, v) ← updateHeap { v with cr3 := p₃.pageDirPhys } p₃ 0x1000
      let v ← removeProcess { v with cr3 := p₄.pageDirPhys } p₄
      .ok ([p₁, p₂, p₃, p₄], v.released) : Exec (List ProcessMemory × List (Nat × Bool))) =
        .ok ([onePageProcess 0x102000, onePageProcess 0, onePageProcess 0x2000,
          onePageProcess 0x1000], [(5, false), (5, true)]) := by decide +kernel
  obtain ⟨⟨p₁, v₁⟩, h₁, hcalls⟩ := bind_eq_ok.1 hcalls
  obtain ⟨⟨p₂, v₂⟩, h₂, hcalls⟩ := bind_eq_ok.1 hcalls
  obtain ⟨⟨p₃, v₃⟩, h₃, hcalls⟩ := bind_eq_ok.1 hcalls
  obtain ⟨⟨p₄, v₄⟩, h₄, hcalls⟩ := bind_eq_ok.1 hcalls
  obtain ⟨v₅, h₅, hcalls⟩ := bind_eq_ok.1 hcalls
  simp only [Except.ok.injEq, Prod.mk.injEq, List.cons.injEq, and_true] at hcalls
  obtain ⟨⟨rfl, rfl, rfl, rfl⟩, hreleased⟩ := hcalls
  have hrun₁ := Run.nil.snoc (Step.create (K := {2}) (m := ⟨threeFrames, [], []⟩) rfl (not_mem_nil) h₁)
  have hrun₂ := hrun₁.snoc (Step.setHeapSize mem_cons_self (by decide) h₂)
  have hrun₃ := hrun₂.snoc (Step.setHeapSize mem_cons_self (by decide) h₃)
  have hrun₄ := hrun₃.snoc (Step.setHeapSize mem_cons_self (by decide) h₄)
  have hrun₅ := hrun₄.snoc (Step.exit mem_cons_self h₅)
  refine ⟨_, hrun₅, hreleased, fun hok => ?_⟩
  have htrue := hok.released (5, false) (by rw [hreleased]; exact mem_cons_self)
  cases htrue

end Machine

end HeisenKernel
