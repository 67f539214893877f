import HeisenKernel.VirtualMemory.Pages

/-!
# Mapping pages

Translation of `virtualToPhysical` and `mapVirtualToPhysical` (`virtualmemory.cpp:160`).
-/

namespace HeisenKernel

/-- `PAGEFRAME_INDEX` (`virtualmemory.h:42`). -/
def pageFrameIndex (addr : Nat) : Nat := addr &&& 0xfff

theorem pageFrameIndex_eq (addr : Nat) : pageFrameIndex addr = addr % pageSize :=
  Nat.and_two_pow_sub_one_eq_mod addr 12

namespace VirtualMemory

section
variable (v : VirtualMemory)

/-- `virtualToPhysical` (`virtualmemory.cpp:160`). The present bit is not looked at. -/
def virtualToPhysical (virtAddress : Nat) : Exec Nat := do
  let pageTableEntry ← v.readPage ⟨pageDirIndex virtAddress, pageTableIndex virtAddress⟩
  .ok (pageTableEntry.frame * pageSize ||| pageFrameIndex virtAddress)

/-- `mapVirtualToPhysical` for one page (`virtualmemory.cpp:174`). -/
def mapVirtualToPhysical (physAddress virtAddress : Nat) (kernel writeable : Bool) : Exec VirtualMemory := do
  let (page, v) ← v.getPageForAddress virtAddress true writeable (!kernel)
  v.modifyPage page fun _ => ⟨true, writeable, !kernel, physAddress / pageSize⟩

/-- The physical address that the processor finds for an address in the current directory, whose
entries `large` are pages of 4 MB. -/
def physical (large : Nat → Bool) (addr : Nat) : Option Nat :=
  let pde := v.entries (v.cr3 / pageSize) (pageDirIndex addr)
  if pde.present then
    if large (pageDirIndex addr) then some (pde.frame * pageSize + addr % 2 ^ 22)
    else
      let pte := v.entries pde.frame (pageTableIndex addr)
      if pte.present then some (pte.frame * pageSize + addr % pageSize) else none
  else none

end

variable {v v' : VirtualMemory} {large : Nat → Bool} {i j : Nat}

/-- The entry `i` of the current directory names a table. -/
structure HasTable (v : VirtualMemory) (large : Nat → Bool) (i : Nat) : Prop where
  lt : i < 1024
  present : (v.entries (v.cr3 / pageSize) i).present = true
  small : large i = false

/-- The table that the entry `i` of the current directory names. -/
def tableOf (v : VirtualMemory) (i : Nat) : Nat := (v.entries (v.cr3 / pageSize) i).frame

section
variable (hself : v.SelfMapped (v.cr3 / pageSize))
include hself

theorem readPage_eq
    (hp : (v.entries (v.cr3 / pageSize) (pageDirIndex addr)).present = true) :
    v.readPage ⟨pageDirIndex addr, pageTableIndex addr⟩ =
      .ok (v.entries (v.tableOf (pageDirIndex addr)) (pageTableIndex addr)) := by
  unfold readPage
  rw [pageTableFrame_eq hself, if_pos hp]
  rfl

theorem virtualToPhysical_eq
    (hp : (v.entries (v.cr3 / pageSize) (pageDirIndex addr)).present = true) :
    v.virtualToPhysical addr =
      .ok ((v.entries (v.tableOf (pageDirIndex addr)) (pageTableIndex addr)).frame * pageSize +
        addr % pageSize) := by
  unfold virtualToPhysical
  rw [readPage_eq hself hp, bind_of_ok rfl, pageFrameIndex_eq]
  have hlt : addr % pageSize < 2 ^ 12 := Nat.mod_lt _ (by decide)
  rw [show pageSize = 2 ^ 12 from rfl] at hlt ⊢
  rw [← Nat.shiftLeft_eq, ← Nat.shiftLeft_add_eq_or_of_lt hlt]

/-- What a mapping leaves: the entries of the directory that are present, and the entries of its
tables that are present, but for the one of the page. -/
structure Mapped (v : VirtualMemory) (large : Nat → Bool) (virt : Nat) (e : PageEntry)
    (v' : VirtualMemory) : Prop where
  cr3 : v'.cr3 = v.cr3
  present : (v'.entries (v'.cr3 / pageSize) (pageDirIndex virt)).present = true
  entry : v'.entries (v'.tableOf (pageDirIndex virt)) (pageTableIndex virt) = e
  directory : ∀ i, (v.entries (v.cr3 / pageSize) i).present = true →
    v'.entries (v'.cr3 / pageSize) i = v.entries (v.cr3 / pageSize) i
  tables : ∀ i j, v.HasTable large i → (v.entries (v.tableOf i) j).present = true →
    (i ≠ pageDirIndex virt ∨ j ≠ pageTableIndex virt) → v'.entries (v.tableOf i) j = v.entries (v.tableOf i) j

theorem mapVirtualToPhysical_present (hvirt : virt < pageTableAddress)
    (hp : (v.entries (v.cr3 / pageSize) (pageDirIndex virt)).present = true)
    (h1023 : large 1023 = false)
    (hown : ∀ i, v.HasTable large i → i ≠ pageDirIndex virt → v.tableOf i ≠ v.tableOf (pageDirIndex virt)) :
    ∃ v', v.mapVirtualToPhysical phys virt kernel writeable = .ok v' ∧
      Mapped v large virt ⟨true, writeable, !kernel, phys / pageSize⟩ v' := by
  have hdir : v.cr3 / pageSize ≠ v.tableOf (pageDirIndex virt) := by
    have := hown 1023 ⟨by decide, hself.present, h1023⟩ (pageDirIndex_lt hvirt).ne'
    rwa [tableOf, hself.frame] at this
  have hdirectory : ∀ e i, (v.setEntry (v.tableOf (pageDirIndex virt)) (pageTableIndex virt) e).entries
      (v.cr3 / pageSize) i = v.entries (v.cr3 / pageSize) i := fun e i => by
    rw [entries_setEntry, if_neg fun h => hdir h.1]
  refine ⟨v.setEntry (v.tableOf (pageDirIndex virt)) (pageTableIndex virt)
    ⟨true, writeable, !kernel, phys / pageSize⟩, ?_, rfl, ?_, ?_, ?_, ?_⟩
  · unfold mapVirtualToPhysical
    rw [getPageForAddress_present hself hp, bind_of_ok rfl]
    exact modifyPage_eq hself _ hp _
  · exact (hdirectory _ _).symm ▸ hp
  · have htable : (v.setEntry (v.tableOf (pageDirIndex virt)) (pageTableIndex virt)
        ⟨true, writeable, !kernel, phys / pageSize⟩).tableOf (pageDirIndex virt) =
        v.tableOf (pageDirIndex virt) := congrArg PageEntry.frame (hdirectory _ _)
    rw [htable, entries_setEntry, if_pos ⟨rfl, rfl⟩]
  · exact fun i _ => hdirectory _ i
  · intro i j hi _ hne
    rw [entries_setEntry, if_neg]
    rintro ⟨ht, rfl⟩
    by_cases hidx : i = pageDirIndex virt
    · exact hne.elim (fun h => h hidx) fun h => h rfl
    · exact hown i hi hidx ht

theorem mapVirtualToPhysical_absent (hvirt : virt < pageTableAddress)
    (hp : (v.entries (v.cr3 / pageSize) (pageDirIndex virt)).present = false)
    (h1023 : large 1023 = false) (hb : v.manager.allocateBlock.1 / pageSize = b)
    (hfree : ∀ i, v.HasTable large i → v.tableOf i ≠ b) :
    ∃ v', v.mapVirtualToPhysical phys virt kernel writeable = .ok v' ∧
      Mapped v large virt ⟨true, writeable, !kernel, phys / pageSize⟩ v' := by
  have hne : (1023 : Nat) ≠ pageDirIndex virt := (pageDirIndex_lt hvirt).ne'
  have hdir : v.cr3 / pageSize ≠ b := by
    have := hfree 1023 ⟨by decide, hself.present, h1023⟩
    rwa [tableOf, hself.frame] at this
  obtain ⟨v1, hget, hcr3, hentries⟩ : ∃ v1, v.getPageForAddress virt true writeable (!kernel) =
      .ok (⟨pageDirIndex virt, pageTableIndex virt⟩, v1) ∧ v1.cr3 = v.cr3 ∧
      ∀ t i, v1.entries t i = if t = b then .zero
        else if t = v.cr3 / pageSize ∧ i = pageDirIndex virt then ⟨true, writeable, !kernel, b⟩
        else v.entries t i :=
    ⟨_, getPageForAddress_absent hself hvirt hp writeable (!kernel), rfl, fun t i => by
      rw [entries_withTable, hb]⟩
  have hdirEntry : ∀ i, v1.entries (v.cr3 / pageSize) i =
      if i = pageDirIndex virt then ⟨true, writeable, !kernel, b⟩
      else v.entries (v.cr3 / pageSize) i := fun i => by
    rw [hentries, if_neg hdir]
    simp
  have hself1 : v1.SelfMapped (v1.cr3 / pageSize) := by
    refine ⟨?_, ?_⟩
    · rw [hcr3, hdirEntry, if_neg hne]
      exact hself.present
    · rw [hcr3, hdirEntry, if_neg hne]
      exact hself.frame
  have hown : v1.entries (v1.cr3 / pageSize) (pageDirIndex virt) = ⟨true, writeable, !kernel, b⟩ := by
    rw [hcr3, hdirEntry, if_pos rfl]
  have hdirectory : ∀ e i, (v1.setEntry b (pageTableIndex virt) e).entries (v.cr3 / pageSize) i =
      v1.entries (v.cr3 / pageSize) i := fun e i => by
    rw [entries_setEntry, if_neg fun h => hdir h.1]
  refine ⟨v1.setEntry b (pageTableIndex virt) ⟨true, writeable, !kernel, phys / pageSize⟩,
    ?_, hcr3, ?_, ?_, ?_, ?_⟩
  · unfold mapVirtualToPhysical
    rw [hget, bind_of_ok rfl]
    dsimp only
    rw [modifyPage_eq hself1 _ (by rw [hown]), hown]
  · change ((v1.setEntry b _ _).entries (v1.cr3 / pageSize) _).present = true
    rw [hcr3, hdirectory, ← hcr3, hown]
  · have htable : (v1.setEntry b (pageTableIndex virt)
        ⟨true, writeable, !kernel, phys / pageSize⟩).tableOf (pageDirIndex virt) = b := by
      change ((v1.setEntry b _ _).entries (v1.cr3 / pageSize) _).frame = b
      rw [hcr3, hdirectory, ← hcr3, hown]
    rw [htable, entries_setEntry, if_pos ⟨rfl, rfl⟩]
  · intro i hi
    change (v1.setEntry b _ _).entries (v1.cr3 / pageSize) i = _
    rw [hcr3, hdirectory, hdirEntry, if_neg]
    rintro rfl
    rw [hp] at hi
    cases hi
  · intro i j hi hj _
    have hib : v.tableOf i ≠ b := hfree i hi
    rw [entries_setEntry, if_neg fun h => hib h.1, hentries, if_neg hib, if_neg]
    rintro ⟨hd, rfl⟩
    rw [hd, hp] at hj
    cases hj

end

theorem Mapped.selfMapped (hm : Mapped v large virt e v')
    (hself : v.SelfMapped (v.cr3 / pageSize)) : v'.SelfMapped (v'.cr3 / pageSize) := by
  refine ⟨?_, ?_⟩
  · rw [hm.directory 1023 hself.present]
    exact hself.present
  · rw [hm.directory 1023 hself.present, hm.cr3]
    exact hself.frame

theorem physical_eq_some : v.physical large addr = some p ↔
    (v.entries (v.cr3 / pageSize) (pageDirIndex addr)).present = true ∧
      (large (pageDirIndex addr) = true ∧
        (v.entries (v.cr3 / pageSize) (pageDirIndex addr)).frame * pageSize + addr % 2 ^ 22 = p ∨
      large (pageDirIndex addr) = false ∧
        (v.entries (v.tableOf (pageDirIndex addr)) (pageTableIndex addr)).present = true ∧
        (v.entries (v.tableOf (pageDirIndex addr)) (pageTableIndex addr)).frame * pageSize +
          addr % pageSize = p) := by
  simp only [physical, tableOf]
  cases large (pageDirIndex addr) <;> simp

theorem virtualToPhysical_of_physical (hself : v.SelfMapped (v.cr3 / pageSize))
    (h : v.physical large addr = some p) (hsmall : large (pageDirIndex addr) = false) :
    v.virtualToPhysical addr = .ok p := by
  obtain ⟨hp, ⟨hlarge, -⟩ | ⟨-, -, rfl⟩⟩ := physical_eq_some.1 h
  · rw [hsmall] at hlarge
    cases hlarge
  · exact virtualToPhysical_eq hself hp

theorem page_ne (h : a / pageSize ≠ b / pageSize) :
    pageDirIndex a ≠ pageDirIndex b ∨ pageTableIndex a ≠ pageTableIndex b := by
  simp only [pageSize, pageDirIndex, pageTableIndex] at h ⊢
  omega

theorem Mapped.physical (hm : Mapped v large virt e v')
    (hsmall : (v.entries (v.cr3 / pageSize) (pageDirIndex virt)).present = true →
      large (pageDirIndex virt) = false)
    (haddr : addr < 2 ^ 32) (hne : addr / pageSize ≠ virt / pageSize)
    (h : v.physical large addr = some p) :
    v'.physical (Function.update large (pageDirIndex virt) false) addr = some p := by
  obtain ⟨hp, hrest⟩ := physical_eq_some.1 h
  rw [physical_eq_some, tableOf, hm.directory _ hp]
  refine ⟨hp, ?_⟩
  obtain ⟨hlarge, hframe⟩ | ⟨hfalse, hpte, hframe⟩ := hrest
  · have hidx : pageDirIndex addr ≠ pageDirIndex virt := by
      intro he
      rw [he] at hp hlarge
      rw [hsmall hp] at hlarge
      cases hlarge
    exact .inl ⟨by rwa [Function.update_of_ne hidx], hframe⟩
  · have hidx : pageDirIndex addr < 1024 := by
      simp only [pageDirIndex]
      omega
    have hkept := hm.tables _ _ ⟨hidx, hp, hfalse⟩ hpte (page_ne hne)
    rw [tableOf] at hkept hpte hframe
    refine .inr ⟨?_, by rwa [hkept], by rwa [hkept]⟩
    rw [Function.update_apply]
    split
    · rfl
    · exact hfalse

theorem Mapped.virtualToPhysical (hm : Mapped v large virt e v')
    (hself : v.SelfMapped (v.cr3 / pageSize)) (hpage : addr / pageSize = virt / pageSize) :
    v'.virtualToPhysical addr = .ok (e.frame * pageSize + addr % pageSize) := by
  have hdir : pageDirIndex addr = pageDirIndex virt := by
    simp only [pageSize, pageDirIndex] at hpage ⊢
    omega
  have htable : pageTableIndex addr = pageTableIndex virt := by
    simp only [pageSize, pageTableIndex] at hpage ⊢
    omega
  rw [virtualToPhysical_eq (hm.selfMapped hself) (hdir ▸ hm.present), hdir, htable, hm.entry]

end VirtualMemory

open VirtualMemory PhysicalMemoryManager

/-- After a mapping every address of the page is translated to the matching physical address, and the
translation of every other mapped page is unchanged: if the table of the page is there, no other
entry of the directory names it; if it has to be created, there is a free frame, and the directory
and its tables are not marked as free. -/
theorem mapVirtualToPhysical_translates (v : VirtualMemory) (large : Nat → Bool) (phys virt : Nat)
    (kernel writeable : Bool) (hself : v.SelfMapped (v.cr3 / pageSize)) (hlast : large 1023 = false)
    (hvirt : virt < pageTableAddress)
    (hpresent : (v.entries (v.cr3 / pageSize) (pageDirIndex virt)).present = true →
      large (pageDirIndex virt) = false ∧ ∀ i, v.HasTable large i → i ≠ pageDirIndex virt →
        v.tableOf i ≠ v.tableOf (pageDirIndex virt))
    (habsent : (v.entries (v.cr3 / pageSize) (pageDirIndex virt)).present = false →
      v.manager.Covered ∧ v.manager.allocateBlock.1 ≠ 0 ∧
        ∀ i, v.HasTable large i → v.manager.testBit (v.tableOf i) = true) :
    ∃ v', v.mapVirtualToPhysical phys virt kernel writeable = .ok v' ∧
      (∀ a, a / pageSize = virt / pageSize →
        v'.virtualToPhysical a = .ok (phys / pageSize * pageSize + a % pageSize)) ∧
      ∀ a p, a < 2 ^ 32 → a / pageSize ≠ virt / pageSize → v.physical large a = some p →
        v'.physical (Function.update large (pageDirIndex virt) false) a = some p ∧
        (large (pageDirIndex a) = false →
          v.virtualToPhysical a = .ok p ∧ v'.virtualToPhysical a = .ok p) := by
  obtain ⟨v', hmap, hm⟩ : ∃ v', v.mapVirtualToPhysical phys virt kernel writeable = .ok v' ∧
      Mapped v large virt ⟨true, writeable, !kernel, phys / pageSize⟩ v' := by
    cases hp : (v.entries (v.cr3 / pageSize) (pageDirIndex virt)).present with
    | true => exact mapVirtualToPhysical_present hself hvirt hp hlast (hpresent hp).2
    | false =>
      obtain ⟨hcovered, halloc, hused⟩ := habsent hp
      obtain ⟨-, hnone⟩ | ⟨-, b, -, -, hfree, -, heq⟩ := hcovered.allocateBlock
      · rw [hnone] at halloc
        exact absurd rfl halloc
      · have hb : v.manager.allocateBlock.1 / pageSize = b := by
          rw [heq]
          exact Nat.mul_div_cancel b (by decide)
        refine mapVirtualToPhysical_absent hself hvirt hp hlast hb fun i hi he => ?_
        rw [← he, hused i hi] at hfree
        cases hfree
  refine ⟨v', hmap, fun a ha => hm.virtualToPhysical hself ha, fun a p ha hne h => ?_⟩
  have h' := hm.physical (fun hp => (hpresent hp).1) ha hne h
  refine ⟨h', fun hsmall => ⟨virtualToPhysical_of_physical hself h hsmall, ?_⟩⟩
  refine virtualToPhysical_of_physical (hm.selfMapped hself) h' ?_
  rw [Function.update_apply]
  split
  · rfl
  · exact hsmall

/-- A directory in the frame 10 without tables. -/
def emptyDirectory : VirtualMemory where
  manager := fourBlocks
  entries := fun t i => if t = 10 ∧ i = 1023 then ⟨true, true, false, 10⟩ else .zero
  cr3 := 10 * pageSize
  pageTables := []
  released := []

/-- The first page of a directory is mapped with a table in the free frame 1. -/
theorem mapVirtualToPhysical_translates_emptyDirectory : ∃ v',
    emptyDirectory.mapVirtualToPhysical 0x5000 0x1000 true true = .ok v' ∧
      v'.virtualToPhysical 0x1234 = .ok 0x5234 := by
  have htable : ∀ i, emptyDirectory.HasTable (fun _ => false) i → i = 1023 := by
    rintro i ⟨-, hp, -⟩
    by_contra hi
    simp [emptyDirectory, hi, PageEntry.zero] at hp
  obtain ⟨v', hmap, htranslated, -⟩ := mapVirtualToPhysical_translates emptyDirectory (fun _ => false)
    0x5000 0x1000 true true ⟨rfl, rfl⟩ rfl (by decide) (fun hp => by cases hp)
    (fun _ => ⟨Counted.covered ⟨by decide, by decide, by decide⟩, by decide, fun i hi => by
      rw [htable i hi]
      decide⟩)
  exact ⟨v', hmap, htranslated 0x1234 (by decide)⟩

/-- A directory in the frame 10 whose first two entries name the same table, with one page in it. -/
def sharedTable : VirtualMemory where
  manager := fourBlocks
  entries := fun t i =>
    if t = 10 ∧ i = 1023 then ⟨true, true, false, 10⟩
    else if t = 10 ∧ (i = 0 ∨ i = 1) then ⟨true, true, false, 11⟩
    else if t = 11 ∧ i = 0 then ⟨true, true, false, 7⟩ else .zero
  cr3 := 10 * pageSize
  pageTables := []
  released := []

/-- A mapping of the first page changes the translation of the page that has its entry in the same
table. -/
theorem mapVirtualToPhysical_sharedTable : ∃ v',
    sharedTable.SelfMapped (sharedTable.cr3 / pageSize) ∧
    sharedTable.mapVirtualToPhysical 0x5000 0 true true = .ok v' ∧ sharedTable.physical (fun _ => false)
      0x400000 = some 0x7000 ∧ v'.physical (Function.update (fun _ => false) 0 false) 0x400000 = some 0x5000
      ∧ sharedTable.virtualToPhysical 0x400000 = .ok 0x7000 ∧ v'.virtualToPhysical 0x400000 = .ok 0x5000 :=
  ⟨_, ⟨rfl, rfl⟩, rfl, by decide, by decide, rfl, rfl⟩

end HeisenKernel
