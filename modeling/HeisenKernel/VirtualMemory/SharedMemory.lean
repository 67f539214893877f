import HeisenKernel.VirtualMemory.Pages
import HeisenKernel.PhysicalMemory.AllocateBlocks

/-!
# Shared memory

`CreateSharedRegion` allocates `len / PAGE_SIZE` blocks at once and maps a page for every step of
`PAGE_SIZE` below `len` in both processes; `RemoveSharedRegion` calls `FreePage` for each of these
pages in each of the processes.
-/

namespace HeisenKernel

namespace PhysicalMemoryManager

variable {m : PhysicalMemoryManager}

theorem count_foldl_setBit_le (l : List Nat) (n : Nat) :
    Nat.count (fun b => (l.foldl setBit m).testBit b = true) n ≤
      Nat.count (fun b => m.testBit b = true) n + l.length := by
  induction l generalizing m with
  | nil => exact le_refl _
  | cons a l ih =>
    rw [List.foldl_cons, List.length_cons]
    have hfirst := count_setBit_le (m := m) (b := a) n
    have hrest := ih (m := m.setBit a)
    omega

theorem Covered.allocateBlocks (h : m.Covered) (n : Nat) : (m.allocateBlocks n).2.Covered ∧
    ∃ k ≤ n, (m.allocateBlocks n).2.usedBlocks = m.usedBlocks + k := by
  have hsmall := h.small
  have hused := h.usedBlocks_le
  have hcount : m.freeBlockCount = m.maximumBlocks - m.usedBlocks := sub32_eq (by omega) hused
  rcases allocateBlocks_cases m n with ⟨-, he⟩ | ⟨hfree, -, he⟩
  · rw [he]
    exact ⟨h, 0, Nat.zero_le n, rfl⟩
  · have hn : u32 (m.usedBlocks + n) = m.usedBlocks + n := u32_eq (by omega)
    rw [he, hn]
    refine ⟨⟨?_, ?_, ?_, ?_⟩, n, le_rfl, rfl⟩
    · exact (maximumBlocks_foldl_setBit _).trans_le hsmall
    · exact (testBit_foldl_setBit _ 0).trans (by rw [h.first, Bool.true_or])
    · rw [maximumBlocks_foldl_setBit]
      refine (count_foldl_setBit_le _ _).trans ?_
      rw [length_blocksFrom]
      exact Nat.add_le_add_right h.count_le n
    · show m.usedBlocks + n ≤ ((blocksFrom _ n).foldl setBit m).maximumBlocks
      rw [maximumBlocks_foldl_setBit]
      omega

end PhysicalMemoryManager

open Lib PhysicalMemoryManager List

namespace VirtualMemory

/-- The directories `D` name themselves, their frames are in use, and none of them is the page table
of another. -/
structure Directories (v : VirtualMemory) (D : Set Nat) : Prop where
  covered : v.manager.Covered
  used : ∀ d ∈ D, v.manager.testBit d = true ∧ d ≠ 0
  self : ∀ d ∈ D, v.SelfMapped d
  apart : ∀ d ∈ D, ∀ i < 1023, (v.entries d i).present = true → (v.entries d i).frame ∉ D

/-- The page tables created on the way from one state to another are all that was allocated. -/
def OnlyTables (v v' : VirtualMemory) : Prop :=
  ∃ tables, v'.pageTables = tables ++ v.pageTables ∧
    v'.manager.usedBlocks = v.manager.usedBlocks + tables.length

variable {v v' w : VirtualMemory} {D : Set Nat}

theorem OnlyTables.refl (v : VirtualMemory) : v.OnlyTables v := ⟨[], rfl, rfl⟩

theorem OnlyTables.trans (h : v.OnlyTables v') (h' : v'.OnlyTables w) : v.OnlyTables w := by
  obtain ⟨l, hl, hused⟩ := h
  obtain ⟨l', hl', hused'⟩ := h'
  refine ⟨l' ++ l, by rw [hl', hl, append_assoc], ?_⟩
  rw [hused', hused, length_append]
  omega

section
variable (h : v.Directories D)
include h

theorem Directories.setEntry (ht : t ∉ D) (i : Nat) (e : PageEntry) : (v.setEntry t i e).Directories D := by
  have hentries : ∀ d ∈ D, (v.setEntry t i e).entries d = v.entries d := by
    intro d hd
    have hne : d ≠ t := fun he => ht (he ▸ hd)
    exact Function.update_of_ne hne _ _
  refine ⟨h.covered, h.used, fun d hd => ?_, fun d hd => ?_⟩
  · obtain ⟨hp, hf⟩ := h.self d hd
    exact ⟨by rw [hentries d hd]; exact hp, by rw [hentries d hd]; exact hf⟩
  · rw [hentries d hd]
    exact h.apart d hd

theorem Directories.withTable (hcr3 : v.cr3 / pageSize ∈ D)
    {manager : PhysicalMemoryManager} {number frame : Nat} (tables : List Nat) (rw user : Bool)
    (hcovered : manager.Covered) (hbits : ∀ b, v.manager.testBit b = true → manager.testBit b = true)
    (hnumber : number < 1023) (hframe : frame ∉ D) :
    (v.withTable manager tables number frame rw user).Directories D ∧
      ((v.withTable manager tables number frame rw user).entries (v.cr3 / pageSize) number).present =
        true := by
  have hentries : ∀ d ∈ D, ∀ i, (v.withTable manager tables number frame rw user).entries d i =
      if d = v.cr3 / pageSize ∧ i = number then ⟨true, rw, user, frame⟩ else v.entries d i := by
    intro d hd i
    have hne : d ≠ frame := fun he => hframe (he ▸ hd)
    rw [entries_withTable, if_neg hne]
  have hlast : ∀ d, ¬ (d = v.cr3 / pageSize ∧ 1023 = number) := by omega
  refine ⟨⟨hcovered, fun d hd => ⟨hbits d (h.used d hd).1, (h.used d hd).2⟩, ?_, ?_⟩, ?_⟩
  · intro d hd
    obtain ⟨hp, hf⟩ := h.self d hd
    exact ⟨by rw [hentries d hd, if_neg (hlast d)]; exact hp,
      by rw [hentries d hd, if_neg (hlast d)]; exact hf⟩
  · intro d hd i hi
    rw [hentries d hd]
    split
    · intro _
      exact hframe
    · exact h.apart d hd i hi
  · rw [hentries _ hcr3, if_pos ⟨rfl, rfl⟩]

theorem Directories.getPageForAddress (hcr3 : v.cr3 / pageSize ∈ D)
    (haddr : addr < pageTableAddress) (rw user : Bool) :
    ∃ v', v.getPageForAddress addr true rw user =
        .ok (⟨pageDirIndex addr, pageTableIndex addr⟩, v') ∧ v'.Directories D ∧ v'.cr3 = v.cr3 ∧
      v.OnlyTables v' ∧ (v'.entries (v.cr3 / pageSize) (pageDirIndex addr)).present = true := by
  have hself := h.self _ hcr3
  cases hp : (v.entries (v.cr3 / pageSize) (pageDirIndex addr)).present with
  | true => exact ⟨v, getPageForAddress_present hself hp _ _ _, h, rfl, .refl v, hp⟩
  | false =>
    refine ⟨_, getPageForAddress_absent hself haddr hp rw user, ?_⟩
    rcases h.covered.allocateBlock with ⟨-, he⟩ | ⟨hused, b, hpos, -, hfree, -, he⟩
    · -- there is no frame, and the table lies in frame 0
      have hzero : 0 ∉ D := fun h0 => (h.used 0 h0).2 rfl
      obtain ⟨hdirs, hpresent⟩ := h.withTable hcr3 v.pageTables rw user h.covered (fun _ hb => hb)
        (pageDirIndex_lt haddr) hzero
      rw [he, if_pos rfl, Nat.zero_div]
      exact ⟨hdirs, rfl, .refl v, hpresent⟩
    · have haddress : b * blockSize ≠ 0 := by
        simp only [blockSize]
        omega
      have hb : b ∉ D := by
        intro hmem
        rw [(h.used b hmem).1] at hfree
        cases hfree
      obtain ⟨hdirs, hpresent⟩ := h.withTable hcr3 (b :: v.pageTables) rw user (h.covered.mark hused)
        (fun a ha => (testBit_setBit b a).trans (by rw [ha, Bool.true_or])) (pageDirIndex_lt haddr) hb
      rw [he, if_neg haddress, block_div]
      exact ⟨hdirs, rfl, ⟨[b], rfl, rfl⟩, hpresent⟩

theorem Directories.setCr3 (cr3 : Nat) : Directories { v with cr3 := cr3 } D :=
  ⟨h.covered, h.used, fun d hd => ⟨(h.self d hd).present, (h.self d hd).frame⟩, h.apart⟩

theorem Directories.mapShared (hcr3 : v.cr3 / pageSize ∈ D)
    (physMemStart : Nat)
    (haddr : u32 (memAddr + virtStart) < pageTableAddress) :
    ∃ v', VirtualMemory.mapShared physMemStart virtStart v memAddr = .ok v' ∧ v'.Directories D ∧
      v'.cr3 = v.cr3 ∧ v.OnlyTables v' := by
  obtain ⟨v1, hget, hdirs, hcr31, htables, hpresent⟩ := h.getPageForAddress hcr3 haddr true true
  rw [← hcr31] at hcr3 hpresent
  refine ⟨_, (bind_of_ok hget).trans (modifyPage_eq (hdirs.self _ hcr3) _ hpresent _), ?_, hcr31, htables⟩
  exact hdirs.setEntry (hdirs.apart _ hcr3 _ (pageDirIndex_lt haddr) hpresent) _ _

theorem Directories.mapRegion (hcr3 : v.cr3 / pageSize ∈ D)
    (physMemStart : Nat) (hregion : virtStart + len ≤ pageTableAddress) :
    ∃ v', forPages (VirtualMemory.mapShared physMemStart virtStart) len (2 ^ 20 + 1) 0 v = .ok v' ∧
      v'.Directories D ∧ v.OnlyTables v' := by
  have hlen : len + pageSize ≤ 2 ^ 32 := by
    simp only [pageTableAddress, pageSize] at hregion ⊢
    omega
  obtain ⟨v', hloop, hdirs, -, htables⟩ := foldlM_returns
   
    (I := fun w => w.Directories D ∧ w.cr3 = v.cr3 ∧ v.OnlyTables w) (l := pages 0 len)
    (fun memAddr hmem w hI => by
      obtain ⟨hw, hwcr3, hwtables⟩ := hI
      obtain ⟨k, -, hlt⟩ := mem_pages.1 hmem
      have haddr : u32 (memAddr + virtStart) < pageTableAddress := by
        rw [u32_eq] <;> simp only [pageTableAddress] at hregion ⊢ <;> omega
      obtain ⟨w', hstep, hw', hw'cr3, hw'tables⟩ := hw.mapShared (hwcr3 ▸ hcr3) physMemStart haddr
      exact ⟨w', hstep, hw', hw'cr3.trans hwcr3, hwtables.trans hw'tables⟩)
    ⟨h, rfl, .refl v⟩
  refine ⟨v', ?_, hdirs, htables⟩
  rw [forPages_eq _ hlen _ _ (length_pages_lt hlen)]
  exact hloop

theorem Directories.createSharedRegion (hp : p.pageDirPhys / pageSize ∈ D) (hq : q.pageDirPhys / pageSize ∈ D)
    (hlen : 0 < len) (hregion1 : virtStart1 + len ≤ pageTableAddress)
    (hregion2 : virtStart2 + len ≤ pageTableAddress) :
    ∃ v', v.createSharedRegion (some p) (some q) virtStart1 virtStart2 len = .ok (true, v') ∧
      v'.Directories D ∧ ∃ k ≤ len / pageSize, ∃ tables, v'.pageTables = tables ++ v.pageTables ∧
        v'.manager.usedBlocks = v.manager.usedBlocks + k + tables.length := by
  obtain ⟨hcovered, k, hk, hused⟩ := h.covered.allocateBlocks (len / pageSize)
  have hdirs : Directories { v with manager := (v.manager.allocateBlocks (len / pageSize)).2 } D :=
    ⟨hcovered, fun d hd => ⟨testBit_allocateBlocks (h.used d hd).1, (h.used d hd).2⟩,
      fun d hd => ⟨(h.self d hd).present, (h.self d hd).frame⟩, h.apart⟩
  obtain ⟨v1, hloop1, hdirs1, htables1⟩ := (hdirs.setCr3 p.pageDirPhys).mapRegion hp
    (v.manager.allocateBlocks (len / pageSize)).1 hregion1
  obtain ⟨v2, hloop2, hdirs2, htables2⟩ := (hdirs1.setCr3 q.pageDirPhys).mapRegion hq
    (v.manager.allocateBlocks (len / pageSize)).1 hregion2
  obtain ⟨tables, htables, hcount⟩ := htables1.trans htables2
  refine ⟨{ v2 with cr3 := v.cr3 }, ?_, hdirs2.setCr3 _, k, hk, tables, htables, ?_⟩
  · simp only [VirtualMemory.createSharedRegion, if_neg (not_le.2 hlen)]
    exact (bind_of_ok hloop1).trans (bind_of_ok hloop2)
  · rw [← hused]
    exact hcount

/-- `k` calls of `FreePage` that gave a frame back. They leave the directories as they are, and in
the page tables the numbers of the frames. -/
structure Freed (D : Set Nat) (v w : VirtualMemory) (k : Nat) : Prop where
  dirs : ∀ d ∈ D, w.entries d = v.entries d
  frames : ∀ t i, (w.entries t i).frame = (v.entries t i).frame
  pageTables : w.pageTables = v.pageTables
  usedBlocks : w.manager.usedBlocks = sub32 v.manager.usedBlocks k

theorem Freed.freeAddress (hw : Freed D v w k)
    (hcr3 : w.cr3 = pageDirPhys) (hmem : pageDirPhys / pageSize ∈ D) (haddr : addr < pageTableAddress)
    (hmapped : v.translate pageDirPhys addr = some frame) (hframe : frame ≠ 0) :
    ∃ w', w.freeAddress addr = .ok w' ∧ Freed D v w' (k + 1) ∧ w'.cr3 = pageDirPhys := by
  subst hcr3
  have hself : w.SelfMapped (w.cr3 / pageSize) := by
    obtain ⟨hp, hf⟩ := h.self _ hmem
    exact ⟨by rw [hw.dirs _ hmem]; exact hp, by rw [hw.dirs _ hmem]; exact hf⟩
  obtain ⟨hpde, hpte⟩ : (v.entries (w.cr3 / pageSize) (pageDirIndex addr)).present = true ∧
      (v.entries (v.entries (w.cr3 / pageSize) (pageDirIndex addr)).frame
        (pageTableIndex addr)).frame = frame := by
    unfold VirtualMemory.translate at hmapped
    grind
  have htable := h.apart _ hmem _ (pageDirIndex_lt haddr) hpde
  refine ⟨_, freeAddress_eq hself (by rw [hw.dirs _ hmem]; exact hpde), ?_⟩
  rw [hw.dirs _ hmem, hw.frames, hpte]
  have hrelease : w.releaseFrame frame = { w with
      manager := w.manager.freeBlock (frame * pageSize)
      released := (frame, w.manager.testBit frame) :: w.released } := by
    refine if_pos ?_
    simp only [pageSize]
    omega
  rw [hrelease]
  refine ⟨⟨fun d hd => ?_, fun t i => ?_, hw.pageTables, ?_⟩, rfl⟩
  · have hne : d ≠ (v.entries (w.cr3 / pageSize) (pageDirIndex addr)).frame :=
      fun he => htable (he ▸ hd)
    exact (Function.update_of_ne hne _ _).trans (hw.dirs d hd)
  · rw [entries_setEntry]
    split
    · next he => rw [he.1, he.2, hpte]
    · exact hw.frames t i
  · show sub32 w.manager.usedBlocks 1 = _
    rw [hw.usedBlocks]
    unfold sub32
    omega

theorem Freed.foldlM (virtStart : Nat) (l : List Nat)
    (hw : Freed D v w k) (hcr3 : w.cr3 = pageDirPhys) (hmem : pageDirPhys / pageSize ∈ D)
    (hmapped : ∀ memAddr ∈ l, u32 (memAddr + virtStart) < pageTableAddress ∧
      ∃ frame, v.translate pageDirPhys (u32 (memAddr + virtStart)) = some frame ∧ frame ≠ 0) :
    ∃ w', l.foldlM (fun w memAddr => w.freeAddress (u32 (memAddr + virtStart))) w = .ok w' ∧
      Freed D v w' (k + l.length) := by
  induction l generalizing w k with
  | nil => exact ⟨w, rfl, hw⟩
  | cons a l ih =>
    obtain ⟨haddr, frame, htranslate, hframe⟩ := hmapped a mem_cons_self
    obtain ⟨w1, hstep, hw1, hcr31⟩ := hw.freeAddress h hcr3 hmem haddr htranslate hframe
    obtain ⟨w2, hloop, hw2⟩ := ih hw1 hcr31 (forall_mem_cons.1 hmapped).2
    refine ⟨w2, ?_, ?_⟩
    · rw [foldlM_cons]
      exact (bind_of_ok hstep).trans hloop
    · rw [length_cons, show k + (l.length + 1) = k + 1 + l.length by omega]
      exact hw2

theorem Directories.removeSharedRegion (hp : p.pageDirPhys / pageSize ∈ D) (hq : q.pageDirPhys / pageSize ∈ D)
    (hlen : 0 < len) (hregion1 : virtStart1 + len ≤ pageTableAddress)
    (hregion2 : virtStart2 + len ≤ pageTableAddress)
    (hmapped : ∀ memAddr ∈ pages 0 len, ∃ frame, frame ≠ 0 ∧
      v.translate p.pageDirPhys (u32 (memAddr + virtStart1)) = some frame ∧
      v.translate q.pageDirPhys (u32 (memAddr + virtStart2)) = some frame) :
    ∃ w, v.removeSharedRegion (some p) (some q) virtStart1 virtStart2 len = .ok (true, w) ∧
      w.pageTables = v.pageTables ∧ w.manager.usedBlocks =
        sub32 v.manager.usedBlocks ((pages 0 len).length + (pages 0 len).length) := by
  have hstop : len + pageSize ≤ 2 ^ 32 := by
    simp only [pageTableAddress, pageSize] at hregion1 ⊢
    omega
  have haddr : ∀ memAddr ∈ pages 0 len, ∀ virtStart, virtStart + len ≤ pageTableAddress →
      u32 (memAddr + virtStart) < pageTableAddress := by
    intro memAddr hmem virtStart hregion
    obtain ⟨k, -, hlt⟩ := mem_pages.1 hmem
    rw [u32_eq] <;> simp only [pageTableAddress] at hregion ⊢ <;> omega
  have hstart : Freed D v { v with cr3 := p.pageDirPhys } 0 := by
    refine ⟨fun _ _ => rfl, fun _ _ => rfl, rfl, (sub32_eq ?_ (Nat.zero_le _)).symm⟩
    have hsmall := h.covered.usedBlocks_le.trans h.covered.small
    show v.manager.usedBlocks < 2 ^ 32
    omega
  obtain ⟨w1, hloop1, hw1⟩ := hstart.foldlM h virtStart1 (pages 0 len) rfl hp
    fun memAddr hmem => by
      obtain ⟨frame, hne, htranslate, -⟩ := hmapped memAddr hmem
      exact ⟨haddr memAddr hmem _ hregion1, frame, htranslate, hne⟩
  have hnext : Freed D v { w1 with cr3 := q.pageDirPhys } (0 + (pages 0 len).length) :=
    ⟨hw1.dirs, hw1.frames, hw1.pageTables, hw1.usedBlocks⟩
  obtain ⟨w2, hloop2, hw2⟩ := hnext.foldlM h virtStart2 (pages 0 len) rfl hq
    fun memAddr hmem => by
      obtain ⟨frame, hne, -, htranslate⟩ := hmapped memAddr hmem
      exact ⟨haddr memAddr hmem _ hregion2, frame, htranslate, hne⟩
  refine ⟨{ w2 with cr3 := v.cr3 }, ?_, hw2.pageTables, ?_⟩
  · simp only [VirtualMemory.removeSharedRegion, if_neg (not_le.2 hlen),
      forPages_eq _ hstop _ _ (length_pages_lt hstop)]
    exact (bind_of_ok hloop1).trans (bind_of_ok hloop2)
  · rw [← zero_add (pages 0 len).length]
    simpa using hw2.usedBlocks

end

/-- Every page of the region is mapped in both processes to one frame, which was free before and is
marked now. -/
def RegionMapped (v v' : VirtualMemory) (p q : ProcessMemory) (virtStart1 virtStart2 len : Nat) : Prop :=
  ∀ memAddr ∈ pages 0 len, ∃ frame, v'.translate p.pageDirPhys (u32 (memAddr + virtStart1)) = some
    frame ∧ v'.translate q.pageDirPhys (u32 (memAddr + virtStart2)) = some frame ∧ v.manager.testBit
    frame = false ∧ v'.manager.testBit frame = true

/-- No page of the region is mapped, and apart from the page tables created since, the bitmap and the
number of used blocks are those from before. -/
structure RegionRestored (v v' : VirtualMemory) (p q : ProcessMemory)
    (virtStart1 virtStart2 len : Nat) : Prop where
  unmapped : ∀ memAddr ∈ pages 0 len, v'.translate p.pageDirPhys (u32 (memAddr + virtStart1)) = none
    ∧ v'.translate q.pageDirPhys (u32 (memAddr + virtStart2)) = none
  restored : ∃ tables, v'.pageTables = tables ++ v.pageTables ∧ v'.manager.usedBlocks = v.manager.usedBlocks
    + tables.length ∧ ∀ b < v.manager.maximumBlocks, b ∉ tables → v'.manager.testBit b = v.manager.testBit b

/-- What creating and removing a shared region is meant to do. -/
def SharedRegionOk (v : VirtualMemory) (proc1 proc2 : Option ProcessMemory)
    (virtStart1 virtStart2 len : Nat) : Prop :=
  ∀ v', v.createSharedRegion proc1 proc2 virtStart1 virtStart2 len = .ok (true, v') →
    ∃ p q, proc1 = some p ∧ proc2 = some q ∧ v.RegionMapped v' p q virtStart1 virtStart2 len ∧
      ∃ v'', v'.removeSharedRegion proc1 proc2 virtStart1 virtStart2 len = .ok (true, v'') ∧
        v.RegionRestored v'' p q virtStart1 virtStart2 len

/-- A shared region is what it is meant to be exactly if none is created: the blocks of a region that
lies below the page tables are given back twice. -/
theorem sharedRegionOk_iff (v : VirtualMemory) (proc1 proc2 : Option ProcessMemory)
    (virtStart1 virtStart2 len : Nat)
    (hprocs : ∀ p q, proc1 = some p → proc2 = some q →
      v.Directories {p.pageDirPhys / pageSize, q.pageDirPhys / pageSize}) :
    (proc1 = none ∨ proc2 = none ∨ len = 0 → v.SharedRegionOk proc1 proc2 virtStart1 virtStart2 len) ∧
    (virtStart1 + len ≤ pageTableAddress → virtStart2 + len ≤ pageTableAddress →
      v.SharedRegionOk proc1 proc2 virtStart1 virtStart2 len →
      proc1 = none ∨ proc2 = none ∨ len = 0) := by
  constructor
  · intro hnone v' hcreate
    have hfalse : v.createSharedRegion proc1 proc2 virtStart1 virtStart2 len = .ok (false, v) := by
      rcases hnone with rfl | rfl | rfl
      · rfl
      · cases proc1 <;> rfl
      · cases proc1 <;> cases proc2 <;> rfl
    rw [hfalse] at hcreate
    cases hcreate
  · intro hregion1 hregion2 hok
    by_contra hsome
    obtain ⟨p, rfl⟩ : ∃ p, proc1 = some p := Option.ne_none_iff_exists'.1 fun h => hsome (.inl h)
    obtain ⟨q, rfl⟩ : ∃ q, proc2 = some q := Option.ne_none_iff_exists'.1 fun h => hsome (.inr (.inl h))
    have hlen : 0 < len := pos_of_ne_zero fun h => hsome (.inr (.inr h))
    have hdirs := hprocs p q rfl rfl
    obtain ⟨v', hcreate, hdirs', k, hk, tables, htables, hused⟩ :=
      hdirs.createSharedRegion (.inl rfl) (.inr rfl) hlen hregion1 hregion2
    obtain ⟨p', q', hp', hq', hmapped, v'', hremove, -, tables', htables', hused', -⟩ := hok v' hcreate
    cases hp'
    cases hq'
    -- block 0 was in use, so that no page of the region has frame 0
    obtain ⟨w, hw, hwtables, hwused⟩ := hdirs'.removeSharedRegion (.inl rfl) (.inr rfl) hlen hregion1
      hregion2 fun memAddr hmem => by
        obtain ⟨frame, htranslate1, htranslate2, hfree, -⟩ := hmapped memAddr hmem
        refine ⟨frame, ?_, htranslate1, htranslate2⟩
        rintro rfl
        rw [hdirs.covered.first] at hfree
        cases hfree
    rw [hw] at hremove
    cases hremove
    have hlength : tables'.length = tables.length := by
      rw [hwtables, htables] at htables'
      rw [append_cancel_right htables']
    rw [hwused, length_pages] at hused'
    simp only [pageTableAddress, pageSize] at hregion1 hk hused'
    unfold sub32 at hused'
    omega

/-- Two processes whose directories, in the frames 2 and 3 of a machine of 16 blocks, have nothing in
them but themselves. -/
def twoProcesses : VirtualMemory where
  manager := ⟨16 * blockSize, 4, 16, fun i => if i = 0 then 0xffff000f#32 else 0xffffffff#32, []⟩
  entries := fun t i => if i = 1023 then ⟨true, true, false, t⟩ else .zero
  cr3 := 2 * pageSize
  pageTables := []
  released := []

/-- A process with its directory in `frame`. -/
def processIn (frame : Nat) : ProcessMemory := ⟨frame * pageSize, true, 0, 0, 0, 0, []⟩

/-- The processes of `twoProcesses` cannot share a page. -/
theorem sharedRegionOk_iff_twoProcesses :
    ¬ twoProcesses.SharedRegionOk (some (processIn 2)) (some (processIn 3)) 0x400000 0x800000 4096 := by
  have hdirs : twoProcesses.Directories {2, 3} := by
    refine ⟨⟨by decide, by decide, by decide, by decide⟩, ?_, ?_, ?_⟩
    · rintro d (rfl | rfl) <;> decide
    · rintro d (rfl | rfl) <;> exact ⟨rfl, rfl⟩
    · intro d _ i hi hpresent
      simp [twoProcesses, hi.ne, PageEntry.zero] at hpresent
  intro hok
  have hnone := (sharedRegionOk_iff twoProcesses (some (processIn 2)) (some (processIn 3)) 0x400000
    0x800000 4096 (by rintro p q ⟨⟩ ⟨⟩; exact hdirs)).2 (by decide) (by decide) hok
  simp at hnone

/-- One page is shared and removed again: of the four blocks in use before and the two page tables
created on the way, five are counted. -/
theorem sharedRegion_counts_twice :
    (twoProcesses.createSharedRegion (some (processIn 2)) (some (processIn 3)) 0x400000 0x800000
      4096).map (fun r => (r.1, r.2.manager.usedBlocks, r.2.pageTables)) = .ok (true, 7, [6, 5]) ∧
    (twoProcesses.createSharedRegion (some (processIn 2)) (some (processIn 3)) 0x400000 0x800000
      4096 >>= fun r => r.2.removeSharedRegion (some (processIn 2)) (some (processIn 3)) 0x400000
        0x800000 4096).map (fun r => (r.1, r.2.manager.usedBlocks, r.2.pageTables)) =
      .ok (true, 5, [6, 5]) ∧
    twoProcesses.manager.usedBlocks = 4 ∧
    ¬ twoProcesses.SharedRegionOk (some (processIn 2)) (some (processIn 3)) 0x400000 0x800000 4096 := by
  refine ⟨?create, ?remove, rfl, fun hok => ?_⟩
  pick_goal 3
  have hcreate := ?create
  have hremove := ?remove
  obtain ⟨⟨created, v'⟩, hv', hresult⟩ := map_eq_ok hcreate
  obtain rfl : created = true := congrArg Prod.fst hresult
  obtain ⟨p, q, -, -, -, v'', hv'', -, tables, htables, hused, -⟩ := hok v' hv'
  rw [bind_of_ok hv', hv''] at hremove
  have hpair := congrArg Prod.snd (Except.ok.inj hremove)
  dsimp only at hpair
  rw [Prod.mk.injEq, hused, htables] at hpair
  have hlength := congrArg length hpair.2
  have hcount : 4 + tables.length = 5 := hpair.1
  simp [twoProcesses] at hlength
  omega
  all_goals decide +kernel

end VirtualMemory

end HeisenKernel
