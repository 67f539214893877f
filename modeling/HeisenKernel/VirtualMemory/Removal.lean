import HeisenKernel.VirtualMemory.Segments

/-!
# Removing a process

`ProcessHelper::RemoveProcess` (`process.cpp:215`) frees the pages of the stacks, of the executable
and of the heap.
-/

namespace HeisenKernel

open PhysicalMemoryManager Lib Machine List VirtualMemory Prod

theorem BelowKernel.ranges (h : BelowKernel headers) :
    u32 (userStack + userStackSize) ≤ kernelVirtAddr ∧ u32 ((imageRange headers).1 + (imageRange headers).2)
      ≤ kernelVirtAddr ∧ pageRoundUp (u32 (imageTop headers)) + procUserHeapSize ≤ kernelVirtAddr := by
  have hsmall : kernelVirtAddr < 2 ^ 32 := by decide
  have hheap := h.heap
  refine ⟨by decide, ?_, (heapStart_below hheap).2⟩
  rw [← imageTop, u32_eq (by omega)]
  omega

namespace VirtualMemory

/-- The memory `w` after pages of the directory `d` of `v` were freed. -/
structure Emptied (d : Nat) (owner : Nat → Option FrameRole) (v w : VirtualMemory) : Prop where
  cr3 : w.cr3 = v.cr3
  row : ∀ i, w.entries d i = v.entries d i
  frame : ∀ n < userPages, ∀ e, w.pageAt d n = some e → e.frame = 0 ∨ owner e.frame = some (.page d n)
  bits : ∀ t i, owner t = some (.table d i) → w.manager.testBit t = true

variable {w : VirtualMemory}

theorem Emptied.refl (h : Owned K {d} owner v) (hheld : ∀ n < userPages, v.Held d n) :
    Emptied d owner v v := by
  refine ⟨rfl, fun _ => rfl, fun n hn e he => ?_, fun t i ht => (h.marked t _ ht).2.2⟩
  rcases hheld n hn e he with hpresent | hzero
  · exact .inr (h.backed d rfl n hn e he hpresent)
  · exact .inl hzero

theorem testBit_releaseFrame (h : f = 0 ∨ t ≠ f) (ht : w.manager.testBit t = true) :
    (w.releaseFrame f).manager.testBit t = true := by
  unfold releaseFrame
  split
  · next hne =>
    have hdiv : f * pageSize / blockSize = f := Nat.mul_div_cancel _ (by decide)
    have hne' : t ≠ f := h.resolve_left fun hzero => hne (by rw [hzero, zero_mul])
    show (w.manager.unsetBit (f * pageSize / blockSize)).testBit t = true
    rw [hdiv, testBit_unsetBit, ht]
    simp [hne']
  · exact ht

theorem Emptied.selfMapped (h : Owned K {d} owner v) (hcr3 : v.cr3 / pageSize = d) (he : Emptied d owner v w) :
    w.cr3 / pageSize = d ∧ w.SelfMapped (w.cr3 / pageSize) := by
  have hd : w.cr3 / pageSize = d := by rw [he.cr3, hcr3]
  obtain ⟨hpresent, hframe⟩ := h.self d rfl
  refine ⟨hd, ?_⟩
  rw [hd]
  exact ⟨by rw [he.row]; exact hpresent, by rw [he.row]; exact hframe⟩

theorem Emptied.freeAddress (h : Owned K {d} owner v) (hcr3 : v.cr3 / pageSize = d) (he : Emptied d owner v w)
    (haddr : addr < kernelVirtAddr) (hp : (v.entries d (pageDirIndex addr)).present = true) : ∃ w',
    w.freeAddress addr = .ok w' ∧ Emptied d owner v w' := by
  obtain ⟨hd, hself⟩ := he.selfMapped h hcr3
  have hn := div_lt_userPages haddr
  have htable := h.tables d rfl _ (pageDirIndex_lt_user haddr) hp
  have hfree := @freeAddress_eq w addr hself (by rw [hd, he.row]; exact hp)
  simp only [hd, he.row] at hfree
  -- the entry of the page
  generalize heq : w.entries (v.entries d (pageDirIndex addr)).frame (pageTableIndex addr) = e at hfree
  have hframe : e.frame = 0 ∨ owner e.frame = some (.page d (addr / pageSize)) := by
    refine he.frame _ hn e ?_
    rw [pageAt, he.row, ← pageDirIndex_eq, if_pos hp, ← pageTableIndex_eq, heq]
  have hentries : (w.releaseFrame e.frame).entries = w.entries := by
    unfold releaseFrame
    split <;> rfl
  have hcr3' : (w.releaseFrame e.frame).cr3 = w.cr3 := by
    unfold releaseFrame
    split <;> rfl
  generalize hw' : (w.releaseFrame e.frame).setEntry (v.entries d (pageDirIndex addr)).frame
    (pageTableIndex addr) { e with present := false } = w' at hfree
  have hw : ∀ t i, w'.entries t i =
      if t = (v.entries d (pageDirIndex addr)).frame ∧ i = pageTableIndex addr then
        { e with present := false } else w.entries t i := by
    intro t i
    rw [← hw', entries_setEntry, hentries]
  have hbits : w'.manager = (w.releaseFrame e.frame).manager := by rw [← hw']; rfl
  have hcr3'' : w'.cr3 = v.cr3 := by rw [← hw']; exact hcr3'.trans he.cr3
  have hrow : ∀ i, w'.entries d i = v.entries d i := by
    intro i
    rw [hw, if_neg fun hsame => h.table_ne htable rfl hsame.1, he.row]
  refine ⟨w', hfree, hcr3'', hrow, fun n' hn' e' he' => ?_, fun t i ht => ?_⟩
  · unfold pageAt at he'
    rw [hrow] at he'
    split at he'
    · next hp' =>
      rw [hw] at he'
      split at he'
      · next hsame =>
        -- the entry that was freed is that of this page only
        have htable' := h.tables d rfl _ (div_lt_of_userPages hn') hp'
        rw [hsame.1, htable, Option.some.injEq, FrameRole.table.injEq] at htable'
        have hpage : n' = addr / pageSize := by
          have hindex := hsame.2
          rw [pageTableIndex_eq] at hindex
          rw [pageDirIndex_eq] at htable'
          omega
        obtain rfl := Option.some.inj he'
        rw [hpage]
        exact hframe
      · refine he.frame n' hn' e' ?_
        rw [pageAt, he.row, if_pos hp', he']
    · cases he'
  · rw [hbits]
    refine testBit_releaseFrame (hframe.imp_right fun hpage => ?_) (he.bits t i ht)
    rintro rfl
    rw [ht] at hpage
    cases hpage

theorem Emptied.present_of_freeAddress (h : Owned K {d} owner v) (hcr3 : v.cr3 / pageSize = d)
    (he : Emptied d owner v w) (hw : w.freeAddress addr = .ok w') :
    (v.entries d (pageDirIndex addr)).present = true := by
  obtain ⟨hd, hself⟩ := he.selfMapped h hcr3
  by_contra hp
  rw [Bool.not_eq_true] at hp
  unfold VirtualMemory.freeAddress VirtualMemory.getPageForAddress at hw
  rw [pageTableFrame_eq hself, if_pos hself.present, bind_of_ok rfl, if_neg (by simp), bind_of_ok rfl] at hw
  simp only [freePage, readPage] at hw
  rw [pageTableFrame_eq hself, hd, he.row, hp] at hw
  cases hw

theorem Emptied.freeRange (start : Nat) (h : Owned K {d} owner v) (hcr3 : v.cr3 / pageSize = d)
    (he : Emptied d owner v w) (hstop : stop ≤ kernelVirtAddr)
    (hp : ∀ a ∈ pages start stop, (v.entries d (pageDirIndex a)).present = true) :
    ∃ w', forPages VirtualMemory.freeAddress stop (2 ^ 20 + 1) start w = .ok w' ∧ Emptied d owner v w' := by
  have hspace : stop + pageSize ≤ 2 ^ 32 := (Nat.add_le_add_right hstop _).trans (by decide)
  rw [forPages_eq _ hspace _ _ (length_pages_lt hspace)]
  exact foldlM_returns (fun a ha s hs => hs.freeAddress h hcr3
    ((mem_pages.1 ha).choose_spec.2.trans_le hstop) (hp a ha)) he

theorem Emptied.of_freeRange (h : Owned K {d} owner v) (hcr3 : v.cr3 / pageSize = d)
    (he : Emptied d owner v w) (hstop : stop ≤ kernelVirtAddr)
    (hw : forPages VirtualMemory.freeAddress stop (2 ^ 20 + 1) start w = .ok w') : Emptied d owner v w' := by
  have hspace : stop + pageSize ≤ 2 ^ 32 := (Nat.add_le_add_right hstop _).trans (by decide)
  rw [forPages_eq _ hspace _ _ (length_pages_lt hspace)] at hw
  refine foldlM_rel (R := fun s s' => Emptied d owner v s → Emptied d owner v s') (fun _ hs => hs)
    (fun h₁ h2 hs => h2 (h₁ hs)) (fun a ha s s' hstep hs => ?_) hw he
  obtain ⟨s'', hok, hs''⟩ := hs.freeAddress h hcr3 ((mem_pages.1 ha).choose_spec.2.trans_le hstop)
    (hs.present_of_freeAddress h hcr3 hstep)
  rw [hstep] at hok
  cases hok
  exact hs''

variable {log : List (Nat × Nat)}

theorem Filled.table_present (h : Filled v.usedFrames pageDirPhys v log owner v')
    (hn : n ∈ log.map fst) : (v'.entries (pageDirPhys / pageSize) (n / 1024)).present = true := by
  obtain ⟨x, hx, rfl⟩ := mem_map.1 hn
  have hsome := lookup_isSome_iff.2 hn
  rw [← h.found _ (h.page_lt x hx)] at hsome
  unfold frameAt pageAt at hsome
  by_contra hne
  rw [if_neg hne] at hsome
  cases hsome

theorem Filled.stackTable (h : Filled v.usedFrames pageDirPhys v log owner v')
    (hstack : userStack / pageSize ∈ log.map fst) :
    ∃ t, owner t = some (.table (pageDirPhys / pageSize) 767) ∧ v.manager.testBit t = false := by
  have hp := h.table_present hstack
  have howner := h.owned.tables _ rfl 767 (by decide) hp
  obtain ⟨hpos, hlt, -⟩ := h.owned.marked _ _ howner
  refine ⟨_, howner, Bool.eq_false_iff.2 fun hold => ?_⟩
  rw [h.owned.kernel _ ⟨hpos, h.max ▸ hlt, hold⟩] at howner
  cases howner

theorem removeProcess_oneThread
    (h : p.threadStacks = [stack]) (v : VirtualMemory) :
    v.removeProcess p = (do
      let v ← v.removeStack stack
      let v ← forPages freeAddress (u32 (p.memBase + p.memSize)) (2 ^ 20 + 1) p.memBase v
      forPages freeAddress p.heapEnd (2 ^ 20 + 1) p.heapStart v) := by
  unfold removeProcess
  rw [h]
  simp only [foldlM_cons, foldlM_nil, bind_pure]

theorem stack_mem_pages {new log : List (Nat × Nat)}
    (hpages : new.map fst = (stackPages ++ heapPages (imageTop headers)).reverse) :
    userStack / pageSize ∈ (new ++ log).map fst := by
  have hstack : userStack / pageSize ∈ stackPages := mem_cons_self
  rw [map_append, hpages, mem_append, mem_reverse, mem_append]
  exact .inl (.inl hstack)

/-- For every executable that ends below the kernel, and with enough free frames: the creation and the
removal of the process do not leave the frames as they were. The frame of the page table of the
stack stays in use. -/
theorem create_remove_leaks (v : VirtualMemory) (bootPageDirectory pageDirPhys : Nat)
    (headers : List ElfProgramHeader) (isKernel : Bool) (hcounted : v.manager.Counted)
    (hreleased : v.released = []) (hdir : pageDirPhys / pageSize ∈ v.usedFrames)
    (hbelow : BelowKernel headers)
    (hframes : 2 * (segmentPages headers + userStackSize / pageSize + procUserHeapSize / pageSize) ≤
      v.manager.freeBlockCount) :
    ¬ ∃ p v₁ v₂, v.createProcess bootPageDirectory pageDirPhys headers isKernel = .ok (p, v₁) ∧ removeProcess
      { v₁ with cr3 := p.pageDirPhys } p = .ok v₂ ∧ ∀ f, v₂.manager.testBit f = v.manager.testBit f := by
  obtain ⟨l, owner₁, log, p, v', owner₂, new, hsegments, -, -, hrest, rfl, h, hpages⟩ :=
    create_phases isKernel bootPageDirectory hcounted hreleased hdir hbelow hframes
  rintro ⟨p, v₁, v₂, hcreate, hremove, hsame⟩
  rw [createProcess_eq, bind_of_ok hsegments] at hcreate
  obtain ⟨-, -, hcreate⟩ := bind_eq_ok.1 hcreate
  rw [hrest] at hcreate
  cases hcreate
  obtain ⟨t, ht, hfree⟩ := h.stackTable (stack_mem_pages hpages)
  have hmemory : ({ v' with cr3 := pageDirPhys } : VirtualMemory) = v' := by
    rw [← h.cr3]
  have hcr3 : v'.cr3 / pageSize = pageDirPhys / pageSize := by rw [h.cr3]
  -- the stack, the executable and the heap
  obtain ⟨hstack, himage, hheap⟩ := hbelow.ranges
  rw [removeProcess_oneThread rfl] at hremove
  obtain ⟨w₁, hloop₁, hremove⟩ := bind_eq_ok.1 hremove
  obtain ⟨w₂, hloop₂, hloop₃⟩ := bind_eq_ok.1 hremove
  have he := Emptied.refl h.owned h.held
  have he₁ := he.of_freeRange h.owned hcr3 hstack (hmemory ▸ hloop₁)
  have he₂ := he₁.of_freeRange h.owned hcr3 himage hloop₂
  have he₃ := he₂.of_freeRange h.owned hcr3 hheap hloop₃
  have hused := he₃.bits t _ ht
  rw [hsame, hfree] at hused
  cases hused

theorem create_remove_leaks_onePage : ¬ ∃ p v₁ v₂,
    emptyMachine.createProcess 0 (2 * pageSize) onePage false = .ok (p, v₁) ∧
      removeProcess { v₁ with cr3 := p.pageDirPhys } p = .ok v₂ ∧
      ∀ f, v₂.manager.testBit f = emptyMachine.manager.testBit f :=
  create_remove_leaks emptyMachine 0 (2 * pageSize) onePage false
    emptyMachine_counted rfl emptyMachine_usedFrames ⟨by decide, by decide⟩ (by decide)

/-- A process of one page is created and removed, and a frame stays in use. -/
theorem onePage_keeps_frame : ∃ p v₁ v₂,
    emptyMachine.createProcess 0 (2 * pageSize) onePage false = .ok (p, v₁) ∧
      removeProcess { v₁ with cr3 := p.pageDirPhys } p = .ok v₂ ∧
      ¬ ∀ f, v₂.manager.testBit f = emptyMachine.manager.testBit f := by
  have hbelow : BelowKernel onePage := ⟨by decide, by decide⟩
  obtain ⟨l, owner₁, log, p, v', owner₂, new, hsegments, h₁, hlog, hrest, rfl, h, hpages⟩ :=
    create_phases false 0 emptyMachine_counted rfl emptyMachine_usedFrames hbelow (by decide)
  have hpage : 1 ∈ log.map fst := by
    rw [hlog]
    decide
  have hcopy : onePage.forM l.memory.copySegment = .ok () := by
    have hload : (onePage.foldlM (loadSegment false)
        ⟨0, 0, emptyMachine.newDirectory 0 (2 * pageSize)⟩ >>= fun l =>
          onePage.forM l.memory.copySegment) = .ok () := by decide +kernel
    rwa [bind_of_ok hsegments] at hload
  have hcreate := (createProcess_eq emptyMachine 0 (2 * pageSize) onePage false).trans
    ((bind_of_ok hsegments).trans ((bind_of_ok hcopy).trans hrest))
  -- the page tables of the stack, of the executable and of the heap are there
  have hstack := h.table_present (stack_mem_pages hpages)
  have himage : (v'.entries (2 * pageSize / pageSize) 0).present = true := by
    refine h.table_present (n := 1) ?_
    rw [map_append]
    exact mem_append_right _ hpage
  have hcr3 : v'.cr3 / pageSize = 2 * pageSize / pageSize := by rw [h.cr3]
  have hmemory : ({ v' with cr3 := 2 * pageSize } : VirtualMemory) = v' := by
    rw [← h.cr3]
  have hlow : ∀ start stop, stop ≤ 2 ^ 22 → ∀ a ∈ pages start stop,
      (v'.entries (2 * pageSize / pageSize) (pageDirIndex a)).present = true := by
    intro start stop hstop a ha
    obtain ⟨k, -, hlt⟩ := mem_pages.1 ha
    have hindex : pageDirIndex a = 0 := Nat.div_eq_of_lt (hlt.trans_le hstop)
    rw [hindex]
    exact himage
  obtain ⟨hstackEnd, himageEnd, hheapEnd⟩ := hbelow.ranges
  obtain ⟨w₁, hloop₁, he₁⟩ := (Emptied.refl h.owned h.held).freeRange userStack h.owned hcr3
    hstackEnd (by
      intro a ha
      obtain ⟨k, rfl, hlt⟩ := mem_pages.1 ha
      have hindex : pageDirIndex (userStack + k * pageSize) = userStack / pageSize / 1024 := by
        rw [show u32 (userStack + userStackSize) = kernelVirtAddr by decide] at hlt
        simp only [pageDirIndex, userStack, kernelVirtAddr, userStackSize, pageSize] at hlt ⊢
        omega
      rw [hindex]
      exact hstack)
  obtain ⟨w₂, hloop₂, he₂⟩ := he₁.freeRange (imageRange onePage).1 h.owned hcr3
    himageEnd (hlow _ _ (by decide))
  obtain ⟨w₃, hloop₃, he₃⟩ := he₂.freeRange (pageRoundUp (u32 (imageTop onePage)))
    h.owned hcr3 hheapEnd (hlow _ _ (by decide))
  refine ⟨_, _, w₃, hcreate, ?_, fun hsame => ?_⟩
  · rw [removeProcess_oneThread rfl]
    rw [hmemory]
    exact (bind_of_ok hloop₁).trans ((bind_of_ok hloop₂).trans hloop₃)
  · obtain ⟨t, ht, hfree⟩ := h.stackTable (stack_mem_pages hpages)
    have hused := he₃.bits t _ ht
    rw [hsame, hfree] at hused
    cases hused

end VirtualMemory

end HeisenKernel
