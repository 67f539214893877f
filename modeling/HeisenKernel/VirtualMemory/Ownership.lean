import HeisenKernel.VirtualMemory.Pages

/-!
# Owners of frames

A frame of the machine belongs to the kernel, or it is one page table or one page of one process
(`FrameRole`).
-/

namespace HeisenKernel

open PhysicalMemoryManager Function List Option

/-- What a frame is used for: by the kernel (its page directories are part of its heap), as the page
table `i` of a directory, as the page `n` of a directory. -/
inductive FrameRole where
  | kernel
  | table (d i : Nat)
  | page (d n : Nat)

/-- The number of pages below the kernel. -/
def userPages : Nat := kernelVirtAddr / pageSize

namespace VirtualMemory

/-- The entry for the page `n` of a directory, if the page table is there. -/
def pageAt (v : VirtualMemory) (d n : Nat) : Option PageEntry :=
  if (v.entries d (n / 1024)).present then
    some (v.entries (v.entries d (n / 1024)).frame (n % 1024))
  else none

/-- The page `n` of a directory is present or has no frame: `FreePage` does no harm. -/
def Held (v : VirtualMemory) (d n : Nat) : Prop :=
  ∀ e, v.pageAt d n = some e → e.present = true ∨ e.frame = 0

/-- The directories `D` agree with the roles that `owner` gives to the frames, of which those in `K`
belong to the kernel. -/
structure Owned (K D : Set Nat) (owner : Nat → Option FrameRole) (v : VirtualMemory) : Prop where
  counted : v.manager.Counted
  marked : ∀ f r, owner f = some r → 0 < f ∧ f < v.manager.maximumBlocks ∧ v.manager.testBit f = true
  kernel : ∀ f ∈ K, owner f = some .kernel
  subset : D ⊆ K
  self : ∀ d ∈ D, v.SelfMapped d
  tables : ∀ d ∈ D, ∀ i < 768, (v.entries d i).present = true →
    owner (v.entries d i).frame = some (.table d i)
  backed : ∀ d ∈ D, ∀ n < userPages, ∀ e, v.pageAt d n = some e → e.present = true →
    owner e.frame = some (.page d n)
  released : ∀ r ∈ v.released, r.2 = true

variable {v v' : VirtualMemory} {D : Set Nat} {d n i b : Nat}

theorem div_lt_of_userPages (hn : n < userPages) : n / 1024 < 768 := by
  simp only [userPages, kernelVirtAddr, pageSize] at hn
  omega

section
variable (h : Owned K D owner v)
include h

theorem Owned.mono (hsub : D' ⊆ D) : Owned K D' owner v where
  counted := h.counted
  marked := h.marked
  kernel := h.kernel
  subset := hsub.trans h.subset
  self := fun d hd => h.self d (hsub hd)
  tables := fun d hd => h.tables d (hsub hd)
  backed := fun d hd => h.backed d (hsub hd)
  released := h.released

theorem Owned.setCr3 (cr3 : Nat) : Owned K D owner { v with cr3 := cr3 } where
  counted := h.counted
  marked := h.marked
  kernel := h.kernel
  subset := h.subset
  self := fun d hd => ⟨(h.self d hd).present, (h.self d hd).frame⟩
  tables := h.tables
  backed := h.backed
  released := h.released

theorem Owned.owner_eq_none (hfree : v.manager.testBit b = false) : owner b = none := by
  cases hb : owner b with
  | none => rfl
  | some r =>
    rw [(h.marked b r hb).2.2] at hfree
    cases hfree

theorem Owned.table_ne (ht : owner t = some (.table d i)) (hd' : d' ∈ D) : d' ≠ t := by
  rintro rfl
  rw [h.kernel _ (h.subset hd')] at ht
  cases ht

/-- The memory after `AllocateBlock` handed out the frame `b`. -/
def takeFrame (v : VirtualMemory) (b : Nat) (tables : List Nat) : VirtualMemory :=
  { v with
    manager := { v.manager.setBit b with usedBlocks := v.manager.usedBlocks + 1 }
    pageTables := tables }

theorem Owned.assign (r : FrameRole) (hpos : 0 < b)
    (hlt : b < v.manager.maximumBlocks) (hfree : v.manager.testBit b = false) (tables : List Nat) :
    Owned K D (update owner b (some r)) (v.takeFrame b tables) := by
  have hnone := h.owner_eq_none hfree
  have hother : ∀ f r', owner f = some r' → update owner b (some r) f = some r' := by
    intro f r' hf
    have hne : f ≠ b := by
      rintro rfl
      rw [hnone] at hf
      cases hf
    rw [update_of_ne hne, hf]
  have hbit : ∀ a, (v.takeFrame b tables).manager.testBit a =
      (v.manager.testBit a || decide (a = b)) := fun a => testBit_setBit b a
  refine ⟨h.counted.mark hlt hfree, fun f r' hf => ?_, fun f hf => hother f _ (h.kernel f hf),
    h.subset, fun d hd => ⟨(h.self d hd).present, (h.self d hd).frame⟩,
    fun d hd i hi hp => hother _ _ (h.tables d hd i hi hp),
    fun d hd n hn e he hp => hother _ _ (h.backed d hd n hn e he hp), h.released⟩
  by_cases hfb : f = b
  · subst hfb
    exact ⟨hpos, hlt, by simp [hbit]⟩
  · rw [update_of_ne hfb] at hf
    obtain ⟨hfpos, hflt, hfset⟩ := h.marked f r' hf
    exact ⟨hfpos, hflt, by simp [hbit, hfset]⟩

theorem Owned.pageAt_setEntry (hd : d ∈ D) (hn : n < userPages)
    (hp : (v.entries d (n / 1024)).present = true) (e : PageEntry) (hd' : d' ∈ D)
    (hn' : n' < userPages) :
    (v.setEntry (v.entries d (n / 1024)).frame (n % 1024) e).pageAt d' n' =
      if d' = d ∧ n' = n then some e else v.pageAt d' n' := by
  have howner := h.tables d hd _ (div_lt_of_userPages hn) hp
  have hdir : ∀ i, (v.setEntry (v.entries d (n / 1024)).frame (n % 1024) e).entries d' i =
      v.entries d' i := by
    intro i
    rw [entries_setEntry, if_neg fun he => h.table_ne howner hd' he.1]
  unfold pageAt
  rw [hdir]
  cases hp' : (v.entries d' (n' / 1024)).present with
  | false =>
    have hne : ¬ (d' = d ∧ n' = n) := by
      rintro ⟨rfl, rfl⟩
      rw [hp] at hp'
      cases hp'
    rw [if_neg hne]
    rfl
  | true =>
    simp only [if_true, entries_setEntry]
    have howner' := h.tables d' hd' _ (div_lt_of_userPages hn') hp'
    by_cases hsame : d' = d ∧ n' = n
    · obtain ⟨rfl, rfl⟩ := hsame
      simp
    · rw [if_neg hsame, if_neg]
      rintro ⟨hframe, hindex⟩
      rw [hframe, howner, some.injEq, FrameRole.table.injEq] at howner'
      exact hsame ⟨howner'.1.symm, by omega⟩

theorem Owned.setEntry (hd : d ∈ D) (hn : n < userPages) (hp : (v.entries d (n / 1024)).present = true)
    (he : e.present = true → owner e.frame = some (.page d n)) : Owned K D owner
    (v.setEntry (v.entries d (n / 1024)).frame (n % 1024) e) := by
  have howner := h.tables d hd _ (div_lt_of_userPages hn) hp
  have hdir : ∀ d' ∈ D, ∀ i, (v.setEntry (v.entries d (n / 1024)).frame (n % 1024) e).entries d' i =
      v.entries d' i := by
    intro d' hd' i
    rw [entries_setEntry, if_neg fun he => h.table_ne howner hd' he.1]
  refine ⟨h.counted, h.marked, h.kernel, h.subset, fun d' hd' => ?_, fun d' hd' i hi => ?_, ?_, h.released⟩
  · obtain ⟨hpresent, hframe⟩ := h.self d' hd'
    exact ⟨by rw [hdir d' hd']; exact hpresent, by rw [hdir d' hd']; exact hframe⟩
  · rw [hdir d' hd']
    exact h.tables d' hd' i hi
  · intro d' hd' n' hn' e' he' hp'
    rw [h.pageAt_setEntry hd hn hp e hd' hn'] at he'
    split at he'
    · next hsame =>
      obtain rfl := some.inj he'
      rw [hsame.1, hsame.2]
      exact he hp'
    · exact h.backed d' hd' n' hn' e' he' hp'

theorem Owned.newTable (hd : v.cr3 / pageSize ∈ D) (hi : i < 768)
    (hb : owner b = some (.table (v.cr3 / pageSize) i)) (rw user : Bool) :
    Owned K D owner (v.withTable v.manager v.pageTables i b rw user) ∧
      ∀ d' ∈ D, ∀ n < userPages, (v.withTable v.manager v.pageTables i b rw user).pageAt d' n =
        if d' = v.cr3 / pageSize ∧ n / 1024 = i then some .zero else v.pageAt d' n := by
  have hdir : ∀ d' ∈ D, ∀ j, (v.withTable v.manager v.pageTables i b rw user).entries d' j =
      if d' = v.cr3 / pageSize ∧ j = i then ⟨true, rw, user, b⟩ else v.entries d' j := by
    intro d' hd' j
    rw [entries_withTable, if_neg (h.table_ne hb hd')]
  have hpage : ∀ d' ∈ D, ∀ n < userPages,
      (v.withTable v.manager v.pageTables i b rw user).pageAt d' n =
        if d' = v.cr3 / pageSize ∧ n / 1024 = i then some .zero else v.pageAt d' n := by
    intro d' hd' n hn
    unfold pageAt
    rw [hdir d' hd']
    by_cases hsame : d' = v.cr3 / pageSize ∧ n / 1024 = i
    · simp [hsame, entries_withTable]
    · simp only [if_neg hsame]
      split
      · next hp' =>
        -- the other tables are other frames, and no directories
        have howner := h.tables d' hd' _ (div_lt_of_userPages hn) hp'
        rw [entries_withTable, if_neg, if_neg fun he => h.table_ne howner hd he.1.symm]
        intro he
        rw [he, hb, some.injEq, FrameRole.table.injEq] at howner
        exact hsame ⟨howner.1.symm, howner.2.symm⟩
      · rfl
  refine ⟨⟨h.counted, h.marked, h.kernel, h.subset, fun d' hd' => ?_, fun d' hd' j hj => ?_, ?_,
    h.released⟩, hpage⟩
  · obtain ⟨hpresent, hframe⟩ := h.self d' hd'
    have hlast : ¬ (d' = v.cr3 / pageSize ∧ 1023 = i) := by omega
    exact ⟨by rw [hdir d' hd', if_neg hlast]; exact hpresent, by rw [hdir d' hd', if_neg hlast]; exact hframe⟩
  · rw [hdir d' hd']
    split
    · next hsame =>
      intro _
      rw [hsame.1, hsame.2]
      exact hb
    · exact h.tables d' hd' j hj
  · intro d' hd' n hn e he hp'
    rw [hpage d' hd' n hn] at he
    split at he
    · obtain rfl := some.inj he
      cases hp'
    · exact h.backed d' hd' n hn e he hp'

theorem Owned.newDirectory (hd : d ∈ K) (hnew : d ∉ D)
    (entries : Nat → PageEntry) (hself : (entries 1023).present = true ∧ (entries 1023).frame = d)
    (huser : ∀ i < 768, (entries i).present = false) :
    Owned K (insert d D) owner { v with entries := update v.entries d entries } ∧
      (∀ d' ∈ D, ∀ n < userPages,
        pageAt { v with entries := update v.entries d entries } d' n = v.pageAt d' n) ∧
      ∀ n < userPages, pageAt { v with entries := update v.entries d entries } d n = none := by
  have hold : ∀ d' ∈ D, update v.entries d entries d' = v.entries d' := by
    intro d' hd'
    have hne : d' ≠ d := fun he => hnew (he ▸ hd')
    exact update_of_ne hne _ _
  have htable : ∀ t d' i, owner t = some (.table d' i) → update v.entries d entries t = v.entries t := by
    intro t d' i ht
    refine update_of_ne ?_ _ _
    rintro rfl
    rw [h.kernel _ hd] at ht
    cases ht
  have hpage : ∀ d' ∈ D, ∀ n < userPages,
      pageAt { v with entries := update v.entries d entries } d' n = v.pageAt d' n := by
    intro d' hd' n hn
    simp only [pageAt, hold d' hd']
    split
    · next hp => rw [htable _ _ _ (h.tables d' hd' _ (div_lt_of_userPages hn) hp)]
    · rfl
  have hnone : ∀ n < userPages, pageAt { v with entries := update v.entries d entries } d n = none := by
    intro n hn
    simp only [pageAt, update_self, huser _ (div_lt_of_userPages hn)]
    rfl
  refine ⟨⟨h.counted, h.marked, h.kernel, Set.insert_subset hd h.subset, ?_, ?_, ?_, h.released⟩,
    hpage, hnone⟩
  · rintro d' (rfl | hd')
    · exact ⟨by simpa using hself.1, by simpa using hself.2⟩
    · obtain ⟨hpresent, hframe⟩ := h.self d' hd'
      exact ⟨by simp only [hold d' hd']; exact hpresent, by simp only [hold d' hd']; exact hframe⟩
  · rintro d' (rfl | hd') i hi hp
    · simp only [update_self, huser i hi] at hp
      cases hp
    · simp only [hold d' hd'] at hp ⊢
      exact h.tables d' hd' i hi hp
  · rintro d' (rfl | hd') n hn e he hp
    · rw [hnone n hn] at he
      cases he
    · rw [hpage d' hd' n hn] at he
      exact h.backed d' hd' n hn e he hp

theorem Owned.unassign (hb : owner b = some (.page d n))
    (habsent : ∀ e, v.pageAt d n = some e → e.present = false) :
    Owned K D (update owner b none) { v with
      manager := v.manager.freeBlock (b * pageSize)
      released := (b, v.manager.testBit b) :: v.released } := by
  obtain ⟨hpos, hlt, hset⟩ := h.marked b _ hb
  have hother : ∀ f r, owner f = some r → r ≠ .page d n → update owner b none f = some r := by
    intro f r hf hr
    have hne : f ≠ b := by
      rintro rfl
      rw [hb] at hf
      exact hr (some.inj hf).symm
    rw [update_of_ne hne, hf]
  have hdiv : b * pageSize / blockSize = b := Nat.mul_div_cancel _ (by decide)
  refine ⟨h.counted.freeBlock hpos hlt hset, fun f r hf => ?_,
    fun f hf => hother f _ (h.kernel f hf) (by simp), h.subset,
    fun d hd => ⟨(h.self d hd).present, (h.self d hd).frame⟩,
    fun d hd i hi hp => hother _ _ (h.tables d hd i hi hp) (by simp),
    fun d' hd' n' hn' e he hp => ?_, ?_⟩
  · have hfb : f ≠ b := by
      rintro rfl
      rw [update_self] at hf
      cases hf
    rw [update_of_ne hfb] at hf
    obtain ⟨hfpos, hflt, hfset⟩ := h.marked f r hf
    refine ⟨hfpos, hflt, ?_⟩
    show (v.manager.unsetBit (b * pageSize / blockSize)).testBit f = true
    rw [hdiv, testBit_unsetBit, hfset]
    simp [hfb]
  · refine hother _ _ (h.backed d' hd' n' hn' e he hp) fun hr => ?_
    rw [FrameRole.page.injEq] at hr
    have hfalse := habsent e (by rw [← hr.1, ← hr.2]; exact he)
    rw [hp] at hfalse
    cases hfalse
  · rintro r (_ | ⟨_, hr⟩)
    · exact hset
    · exact h.released r hr

end

/-- What the calls leave of the pages of the directories `D`. -/
structure Kept (D : Set Nat) (v v' : VirtualMemory) : Prop where
  cr3 : v'.cr3 = v.cr3
  held : ∀ d ∈ D, ∀ n < userPages, v.Held d n → v'.Held d n
  present : ∀ d ∈ D, ∀ i, (v.entries d i).present = true → (v'.entries d i).present = true
  frames : v'.manager.maximumBlocks = v.manager.maximumBlocks

theorem Kept.refl (D : Set Nat) (v : VirtualMemory) : Kept D v v :=
  ⟨rfl, fun _ _ _ _ h => h, fun _ _ _ h => h, rfl⟩

theorem Kept.trans (h : Kept D v v') (h' : Kept D v' w) : Kept D v w :=
  ⟨h'.cr3.trans h.cr3, fun d hd n hn hheld => h'.held d hd n hn (h.held d hd n hn hheld),
    fun d hd i hp => h'.present d hd i (h.present d hd i hp), h'.frames.trans h.frames⟩

theorem held_of_pageAt_eq (h : v'.pageAt d n = v.pageAt d n) (hheld : v.Held d n) : v'.Held d n := by
  intro e he
  exact hheld e (h ▸ he)

theorem held_of_pageAt_eq_none (h : v.pageAt d n = none) : v.Held d n := by
  intro e he
  rw [h] at he
  cases he

theorem pageDirIndex_eq (addr : Nat) : pageDirIndex addr = addr / pageSize / 1024 := by
  simp only [pageDirIndex, pageSize]
  omega

theorem pageTableIndex_eq (addr : Nat) : pageTableIndex addr = addr / pageSize % 1024 := rfl

theorem pageDirIndex_lt_user (h : addr < kernelVirtAddr) : pageDirIndex addr < 768 := by
  simp only [pageDirIndex, kernelVirtAddr] at h ⊢
  omega

theorem div_lt_userPages (h : addr < kernelVirtAddr) : addr / pageSize < userPages := by
  simp only [userPages, kernelVirtAddr, pageSize] at h ⊢
  omega

theorem Owned.getPageForAddress_cases (h : Owned K D owner v)
    (hcr3 : v.cr3 / pageSize ∈ D) (haddr : addr < kernelVirtAddr)
    (hframes : 1 ≤ v.manager.freeBlockCount ∨
      (v.entries (v.cr3 / pageSize) (pageDirIndex addr)).present = true) (rw user : Bool) :
    ((v.entries (v.cr3 / pageSize) (pageDirIndex addr)).present = true ∧
      v.getPageForAddress addr true rw user =
        .ok (⟨pageDirIndex addr, pageTableIndex addr⟩, v)) ∨
    ∃ b, (v.entries (v.cr3 / pageSize) (pageDirIndex addr)).present = false ∧ 0 < b ∧
      b < v.manager.maximumBlocks ∧ v.manager.testBit b = false ∧
      v.getPageForAddress addr true rw user = .ok (⟨pageDirIndex addr, pageTableIndex addr⟩,
        (v.takeFrame b (b :: v.pageTables)).withTable (v.takeFrame b (b :: v.pageTables)).manager
          (v.takeFrame b (b :: v.pageTables)).pageTables (pageDirIndex addr) b rw user) := by
  have hself := h.self _ hcr3
  cases hp : (v.entries (v.cr3 / pageSize) (pageDirIndex addr)).present with
  | true => exact .inl ⟨rfl, getPageForAddress_present hself hp _ _ _⟩
  | false =>
    have hlow : addr < pageTableAddress := by
      simp only [kernelVirtAddr, pageTableAddress] at haddr ⊢
      omega
    have hfull : ¬ v.manager.freeBlockCount = 0 := by
      rw [hp] at hframes
      simp only [Bool.false_eq_true, or_false] at hframes
      omega
    obtain ⟨b, hpos, hlt, hfree, -, he⟩ := h.counted.allocateBlock.resolve_left
      fun hall => hfull (h.counted.freeBlockCount_eq_zero.2 hall.1)
    have haddress : b * blockSize ≠ 0 := by
      simp only [blockSize]
      omega
    refine .inr ⟨b, rfl, hpos, hlt, hfree, ?_⟩
    rw [getPageForAddress_absent hself hlow hp rw user, he, if_neg haddress, block_div]
    rfl

theorem freeBlockCount_takeFrame (h : v.manager.Counted) (h' : (v.takeFrame b tables).manager.Counted) :
    v.manager.freeBlockCount ≤ (v.takeFrame b tables).manager.freeBlockCount + 1 := by
  rw [h'.freeBlockCount_eq, h.freeBlockCount_eq]
  show v.manager.maximumBlocks - v.manager.usedBlocks ≤
    v.manager.maximumBlocks - (v.manager.usedBlocks + 1) + 1
  omega

theorem Owned.getPageForAddress (h : Owned K D owner v) (hcr3 : v.cr3 / pageSize ∈ D)
    (haddr : addr < kernelVirtAddr) (hframes : 1 ≤ v.manager.freeBlockCount ∨
      (v.entries (v.cr3 / pageSize) (pageDirIndex addr)).present = true) (rw user : Bool) :
    ∃ v' owner', v.getPageForAddress addr true rw user =
        .ok (⟨pageDirIndex addr, pageTableIndex addr⟩, v') ∧ Owned K D owner' v' ∧ Kept D v v' ∧
      (v'.entries (v.cr3 / pageSize) (pageDirIndex addr)).present = true ∧
      v.manager.freeBlockCount ≤ v'.manager.freeBlockCount + 1 := by
  rcases h.getPageForAddress_cases hcr3 haddr hframes rw user with ⟨hp, he⟩ | ⟨b, hp, hpos, hlt, hfree, he⟩
  · exact ⟨v, owner, he, h, .refl D v, hp, Nat.le_succ _⟩
  · have hassign := h.assign (.table (v.cr3 / pageSize) (pageDirIndex addr)) hpos hlt hfree
      (b :: v.pageTables)
    obtain ⟨howned, hpage⟩ := hassign.newTable hcr3 (pageDirIndex_lt_user haddr) (update_self ..) rw user
    refine ⟨_, _, he, howned, ⟨rfl, ?_, ?_, rfl⟩, ?_, freeBlockCount_takeFrame h.counted hassign.counted⟩
    · intro d hd n hn hheld e hpe
      rw [hpage d hd n hn] at hpe
      split at hpe
      · obtain rfl := some.inj hpe
        exact .inr rfl
      · exact hheld e hpe
    · intro d hd i hpresent
      rw [entries_withTable, if_neg (hassign.table_ne (update_self ..) hd)]
      split
      · rfl
      · exact hpresent
    · rw [entries_withTable, if_neg (hassign.table_ne (update_self ..) hcr3),
        if_pos ⟨rfl, rfl⟩]

theorem Owned.allocatePage_eq (addr : Nat) (h : Owned K D owner v) (hcr3 : v.cr3 / pageSize ∈ D)
    (hp : (v.entries (v.cr3 / pageSize) (addr / pageSize / 1024)).present = true)
    (hb : v.manager.allocateBlock = (b * blockSize, { v.manager.setBit b with
      usedBlocks := v.manager.usedBlocks + 1 })) (hpos : 0 < b) (kernel writeable : Bool) :
    v.allocatePage ⟨pageDirIndex addr, pageTableIndex addr⟩ kernel writeable =
      .ok ((v.takeFrame b v.pageTables).setEntry
        ((v.takeFrame b v.pageTables).entries (v.cr3 / pageSize) (addr / pageSize / 1024)).frame
        (addr / pageSize % 1024) ⟨true, writeable, !kernel, b⟩) := by
  have haddress : b * blockSize ≠ 0 := by
    simp only [blockSize]
    omega
  have hself := h.self _ hcr3
  have hself' : (v.takeFrame b v.pageTables).SelfMapped
      ((v.takeFrame b v.pageTables).cr3 / pageSize) := ⟨hself.present, hself.frame⟩
  unfold VirtualMemory.allocatePage
  rw [hb]
  simp only [if_neg haddress, block_div, pageTableIndex_eq, pageDirIndex_eq]
  exact modifyPage_eq hself' ⟨addr / pageSize / 1024, addr / pageSize % 1024⟩ hp _

theorem Owned.allocatePage (h : Owned K D owner v) (hcr3 : v.cr3 / pageSize ∈ D)
    (haddr : addr < kernelVirtAddr)
    (hp : (v.entries (v.cr3 / pageSize) (pageDirIndex addr)).present = true)
    (hframes : 1 ≤ v.manager.freeBlockCount ∨ v.Held (v.cr3 / pageSize) (addr / pageSize))
    (kernel writeable : Bool) :
    ∃ v' owner', v.allocatePage ⟨pageDirIndex addr, pageTableIndex addr⟩ kernel writeable = .ok v' ∧
      Owned K D owner' v' ∧ Kept D v v' ∧ v'.Held (v.cr3 / pageSize) (addr / pageSize) ∧
      v.manager.freeBlockCount ≤ v'.manager.freeBlockCount + 1 := by
  have hn := div_lt_userPages haddr
  rcases h.counted.allocateBlock with ⟨hall, he⟩ | ⟨b, hpos, hlt, hfree, -, he⟩
  · have hheld := hframes.resolve_left (by
      rw [h.counted.freeBlockCount_eq_zero.2 hall]
      omega)
    refine ⟨v, owner, ?_, h, .refl D v, hheld, Nat.le_succ _⟩
    unfold VirtualMemory.allocatePage
    rw [he]
    rfl
  · have hassign := h.assign (.page (v.cr3 / pageSize) (addr / pageSize)) hpos hlt hfree v.pageTables
    rw [pageDirIndex_eq] at hp
    have howned := hassign.setEntry hcr3 hn hp (e := ⟨true, writeable, !kernel, b⟩) fun _ => update_self ..
    have hpage := fun d (hd : d ∈ D) n (hn' : n < userPages) =>
      hassign.pageAt_setEntry hcr3 hn hp ⟨true, writeable, !kernel, b⟩ hd hn'
    refine ⟨_, _, h.allocatePage_eq addr hcr3 hp he hpos kernel writeable, howned, ⟨rfl, ?_, ?_, rfl⟩, ?_,
      freeBlockCount_takeFrame h.counted hassign.counted⟩
    · intro d hd n hn' hheld e hpe
      rw [hpage d hd n hn'] at hpe
      split at hpe
      · obtain rfl := some.inj hpe
        exact .inl rfl
      · exact hheld e hpe
    · intro d hd i hpresent
      have howner := hassign.tables _ hcr3 _ (div_lt_of_userPages hn) hp
      rw [entries_setEntry, if_neg fun hsame => hassign.table_ne howner hd hsame.1]
      exact hpresent
    · intro e hpe
      rw [hpage _ hcr3 _ hn, if_pos ⟨rfl, rfl⟩] at hpe
      obtain rfl := some.inj hpe
      exact .inl rfl

theorem Owned.allocateAddress (h : Owned K D owner v) (hcr3 : v.cr3 / pageSize ∈ D)
    (haddr : addr < kernelVirtAddr) (hframes : 2 ≤ v.manager.freeBlockCount ∨
      (v.entries (v.cr3 / pageSize) (pageDirIndex addr)).present = true ∧
        v.Held (v.cr3 / pageSize) (addr / pageSize)) (kernel writeable : Bool) :
    ∃ v' owner', VirtualMemory.allocateAddress kernel writeable v addr = .ok v' ∧
      Owned K D owner' v' ∧ Kept D v v' ∧ v'.Held (v.cr3 / pageSize) (addr / pageSize) ∧
      v.manager.freeBlockCount ≤ v'.manager.freeBlockCount + 2 := by
  obtain ⟨v1, owner1, hget, howned1, hkept1, hp1, hcount1⟩ := h.getPageForAddress hcr3 haddr
    (hframes.imp (by omega) And.left) true (!kernel)
  rw [← hkept1.cr3] at hcr3 hp1
  have hframes1 : 1 ≤ v1.manager.freeBlockCount ∨ v1.Held (v1.cr3 / pageSize) (addr / pageSize) := by
    refine hframes.imp (by omega) fun hright => ?_
    refine hkept1.held _ hcr3 _ (div_lt_userPages haddr) ?_
    rw [hkept1.cr3]
    exact hright.2
  obtain ⟨v2, owner2, hallocate, howned2, hkept2, hheld, hcount2⟩ :=
    howned1.allocatePage hcr3 haddr hp1 hframes1 kernel writeable
  refine ⟨v2, owner2, (bind_of_ok hget).trans hallocate, howned2, hkept1.trans hkept2, ?_, by omega⟩
  rw [← hkept1.cr3]
  exact hheld

theorem Owned.allocateAll (l : List Nat) (h : Owned K D owner v) (hcr3 : v.cr3 / pageSize ∈ D)
    (haddr : ∀ a ∈ l, a < kernelVirtAddr) (hframes : 2 * l.length ≤ v.manager.freeBlockCount ∨
      ∀ a ∈ l, (v.entries (v.cr3 / pageSize) (pageDirIndex a)).present = true ∧
        v.Held (v.cr3 / pageSize) (a / pageSize)) (kernel writeable : Bool) :
    ∃ v' owner', l.foldlM (VirtualMemory.allocateAddress kernel writeable) v = .ok v' ∧
      Owned K D owner' v' ∧ Kept D v v' ∧ (∀ a ∈ l, v'.Held (v.cr3 / pageSize) (a / pageSize)) ∧
      v.manager.freeBlockCount ≤ v'.manager.freeBlockCount + 2 * l.length := by
  induction l generalizing v owner with
  | nil => exact ⟨v, owner, rfl, h, .refl D v, by simp, by simp⟩
  | cons a l ih =>
    rw [length_cons] at hframes
    have ha := haddr a mem_cons_self
    obtain ⟨v1, owner1, hstep, howned1, hkept1, hheld1, hcount1⟩ := h.allocateAddress hcr3 ha
      (hframes.imp (by omega) fun hall => hall a mem_cons_self) kernel writeable
    have hcr31 : v1.cr3 / pageSize ∈ D := by
      rw [hkept1.cr3]
      exact hcr3
    obtain ⟨v2, owner2, hloop, howned2, hkept2, hheld2, hcount2⟩ := ih howned1 hcr31
      (forall_mem_cons.1 haddr).2 (by
        refine hframes.imp (by omega) fun hall b hb => ?_
        obtain ⟨hp, hheld⟩ := hall b (mem_cons_of_mem a hb)
        rw [hkept1.cr3]
        exact ⟨hkept1.present _ hcr3 _ hp, hkept1.held _ hcr3 _
          (div_lt_userPages (haddr b (mem_cons_of_mem a hb))) hheld⟩)
    refine ⟨v2, owner2, ?_, howned2, hkept1.trans hkept2, ?_, ?_⟩
    · rw [foldlM_cons]
      exact (bind_of_ok hstep).trans hloop
    · rw [← hkept1.cr3] at hcr3 hheld1 ⊢
      exact forall_mem_cons.2 ⟨hkept2.held _ hcr3 _ (div_lt_userPages ha) hheld1, hheld2⟩
    · rw [length_cons]
      omega

theorem Owned.freeAddress (h : Owned K D owner v) (hcr3 : v.cr3 / pageSize ∈ D)
    (haddr : addr < kernelVirtAddr) (hheld : v.Held (v.cr3 / pageSize) (addr / pageSize))
    (hv : v.freeAddress addr = .ok v') :
    ∃ owner', Owned K D owner' v' ∧ v'.cr3 = v.cr3 ∧ ∀ d ∈ D, ∀ n < userPages,
      ¬ (d = v.cr3 / pageSize ∧ n = addr / pageSize) → v'.pageAt d n = v.pageAt d n := by
  have hself := h.self _ hcr3
  have hn := div_lt_userPages haddr
  cases hp : (v.entries (v.cr3 / pageSize) (pageDirIndex addr)).present with
  | false =>
    -- without a page table the access to the entry is a page fault
    exfalso
    unfold VirtualMemory.freeAddress VirtualMemory.getPageForAddress at hv
    rw [pageTableFrame_eq hself, if_pos hself.present, bind_of_ok rfl, if_neg (by simp), bind_of_ok rfl] at hv
    simp only [freePage, readPage] at hv
    rw [pageTableFrame_eq hself, hp] at hv
    cases hv
  | true =>
    have he := freeAddress_eq hself hp
    rw [hv, Except.ok.injEq] at he
    simp only [pageDirIndex_eq, pageTableIndex_eq] at hp he
    have hentry : v.pageAt (v.cr3 / pageSize) (addr / pageSize) =
        some (v.entries (v.entries (v.cr3 / pageSize) (addr / pageSize / 1024)).frame
          (addr / pageSize % 1024)) := if_pos hp
    generalize v.entries (v.entries (v.cr3 / pageSize) (addr / pageSize / 1024)).frame
      (addr / pageSize % 1024) = e at hentry he
    have hset := h.setEntry hcr3 hn hp (e := { e with present := false }) (by simp)
    have hpage := fun d (hd : d ∈ D) n (hn' : n < userPages) =>
      h.pageAt_setEntry hcr3 hn hp { e with present := false } hd hn'
    cases hpe : e.present with
    | false =>
      have hzero := (hheld e hentry).resolve_left (by simp [hpe])
      rw [releaseFrame, if_neg (by simp [hzero])] at he
      subst he
      refine ⟨owner, hset, rfl, fun d hd n hn' hne => ?_⟩
      rw [hpage d hd n hn', if_neg hne]
    | true =>
      have howner := h.backed _ hcr3 _ hn e hentry hpe
      have hframe : e.frame * pageSize ≠ 0 := by
        have := (h.marked _ _ howner).1
        simp only [pageSize]
        omega
      rw [releaseFrame, if_pos hframe] at he
      subst he
      refine ⟨_, hset.unassign howner ?_, rfl, fun d hd n hn' hne => ?_⟩
      · intro e' he'
        rw [hpage _ hcr3 _ hn, if_pos ⟨rfl, rfl⟩] at he'
        obtain rfl := some.inj he'
        rfl
      · exact (hpage d hd n hn').trans (if_neg hne)

theorem Owned.freeAll (l : List Nat) (h : Owned K D owner v) (hcr3 : v.cr3 / pageSize ∈ D)
    (haddr : ∀ a ∈ l, a < kernelVirtAddr) (hnodup : (l.map (· / pageSize)).Nodup)
    (hheld : ∀ a ∈ l, v.Held (v.cr3 / pageSize) (a / pageSize))
    (hv : l.foldlM VirtualMemory.freeAddress v = .ok v') :
    ∃ owner', Owned K D owner' v' ∧ v'.cr3 = v.cr3 ∧ ∀ d ∈ D, ∀ n < userPages,
      ¬ (d = v.cr3 / pageSize ∧ n ∈ l.map (· / pageSize)) → v'.pageAt d n = v.pageAt d n := by
  induction l generalizing v owner with
  | nil =>
    cases hv
    exact ⟨owner, h, rfl, fun _ _ _ _ _ => rfl⟩
  | cons a l ih =>
    obtain ⟨v1, hstep, hloop⟩ := bind_eq_ok.1 hv
    rw [map_cons, nodup_cons] at hnodup
    obtain ⟨owner1, howned1, hcr31, hpage1⟩ := h.freeAddress hcr3 (haddr a mem_cons_self)
      (hheld a mem_cons_self) hstep
    obtain ⟨owner2, howned2, hcr32, hpage2⟩ := ih howned1 (hcr31 ▸ hcr3)
      (forall_mem_cons.1 haddr).2 hnodup.2 (by
        intro b hb
        rw [hcr31]
        refine held_of_pageAt_eq (hpage1 _ hcr3 _ ?_ ?_) (hheld b (mem_cons_of_mem a hb))
        · exact div_lt_userPages (haddr b (mem_cons_of_mem a hb))
        · rintro ⟨-, hsame⟩
          exact hnodup.1 (mem_map.2 ⟨b, hb, hsame⟩)) hloop
    refine ⟨owner2, howned2, hcr32.trans hcr31, fun d hd n hn hne => ?_⟩
    rw [map_cons, mem_cons] at hne
    rw [hcr31] at hpage2
    rw [hpage2 d hd n hn fun hl => hne ⟨hl.1, .inr hl.2⟩, hpage1 d hd n hn fun ha => hne ⟨ha.1, .inl ha.2⟩]

end VirtualMemory

end HeisenKernel
