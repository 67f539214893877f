import HeisenKernel.Lib.Run
import HeisenKernel.Vmm.Pages

/-!
# The translation of the page directories

The abstract state of a set of page directories is a map from directories and pages to physical
pages (`Mappings`).
-/

namespace HeisenKernel.Vmm

open Lib Paging List System

/-- The physical page of each page of each directory, zero for none. -/
abbrev Mappings := Word → Word → Word

/-- The map with another physical page for one page of one directory. -/
def Mappings.set (m : Mappings) (pdir page phys : Word) : Mappings := fun d p =>
  if d = pdir ∧ p = page then phys else m d p

/-- The calls: a new page directory, a mapping and an unmapping. -/
inductive Call where
  | pageTableMalloc
  | mapPhys (pdir virt phys flags : Word)
  | unmapPhys (pdir virt : Word)

/-- The paging structures, the directories that were obtained, and what is mapped in them. -/
structure System where
  paging : Paging
  dirs : List Word
  mappings : Mappings

/-- A call is on a directory that was obtained, with the address of a physical page and flags in the low
12 bits. -/
def Call.Valid (s : System) : Call → Prop
  | .pageTableMalloc => True
  | .mapPhys pdir _ phys flags => pdir ∈ s.dirs ∧ Aligned phys ∧ flags.toNat < pageSize
  | .unmapPhys pdir _ => pdir ∈ s.dirs

/-- The state behind a call. -/
def System.exec (s : System) : Call → System
  | .pageTableMalloc =>
    { s with
      paging := (Vmm.pageTableMalloc s.paging).2
      dirs := (Vmm.pageTableMalloc s.paging).1.toList ++ s.dirs }
  | .mapPhys pdir virt phys flags =>
    { s with
      paging := (vmmMapPhys pdir virt phys flags s.paging).2
      mappings := if (vmmMapPhys pdir virt phys flags s.paging).1 then
        s.mappings.set pdir (virt >>> 12) phys else s.mappings }
  | .unmapPhys pdir virt =>
    { s with
      paging := vmmUnmapPhys pdir virt s.paging
      mappings := s.mappings.set pdir (virt >>> 12) 0 }

/-- A valid call. -/
def System.Step (s : System) (call : Call) (s' : System) : Prop := call.Valid s ∧ s' = s.exec call

/-- The directory has a page of its own for each table. -/
def Paging.Distinct (s : Paging) (d : Word) : Prop :=
  ∀ i < pagedirSize, ∀ j < pagedirSize, s.word d i ≠ 0 → s.word d j ≠ 0 → s.table d i = s.table d j → i = j

/-- The directories are settled and have no pages in common, and their translations are the map. -/
structure System.Inv (s : System) : Prop where
  settled : ∀ d ∈ s.dirs, s.paging.Settled d
  distinct : ∀ d ∈ s.dirs, s.paging.Distinct d
  apart : ∀ d ∈ s.dirs, ∀ d' ∈ s.dirs, d ≠ d' → s.paging.Apart d d'
  mapped : ∀ d ∈ s.dirs, ∀ virt, getPhysAddr s.paging d virt = s.mappings d (virt >>> 12)
  unmapped : ∀ d, d ∉ s.dirs → ∀ page, s.mappings d page = 0

variable {s : Paging} {d virt virt' phys flags : Word}

theorem NewTable.getPhysAddr_eq (h : NewTable s s' d (dirIndex virt) b flags) (hd : s.Settled d)
    (hflags : flags.toNat < pageSize) (hzero : s.word d (dirIndex virt) = 0) :
    getPhysAddr s' d virt' = getPhysAddr s d virt' := by
  by_cases hi : dirIndex virt' = dirIndex virt
  · rw [getPhysAddr, getPhysAddr, hi, if_neg h.entry_ne_zero, if_pos hzero, h.table_eq hflags,
      h.zero _ tableIndex_lt]
    rfl
  · have hword := h.word d hd.aligned (fun heq => hd.not_free d (.inl rfl) (heq ▸ h.isFree)) _
      (@dirIndex_lt virt') fun _ => hi
    have htable : s'.table d (dirIndex virt') = s.table d (dirIndex virt') := by
      rw [table, hword]
      rfl
    rw [getPhysAddr, getPhysAddr, hword, htable]
    split
    · rfl
    · next hne =>
      have hheld : s.Holds d (s.table d (dirIndex virt')) := .inr ⟨_, dirIndex_lt, hne, rfl⟩
      rw [h.word _ aligned_table (fun heq => hd.not_free _ hheld (heq ▸ h.isFree)) _ tableIndex_lt
        fun heq => absurd heq (hd.table_ne _ dirIndex_lt hne)]

theorem NewTable.distinct (h : NewTable s s' d i b flags) (hd : s.Settled d)
    (hflags : flags.toNat < pageSize) (hdist : s.Distinct d) : s'.Distinct d := by
  have hold : ∀ j < pagedirSize, j ≠ i → s'.word d j = s.word d j := fun j hj hji =>
    h.word d hd.aligned (fun heq => hd.not_free d (.inl rfl) (heq ▸ h.isFree)) j hj fun _ => hji
  -- the new table is none of the others, which are not free
  have hnew : ∀ j < pagedirSize, j ≠ i → s'.word d j ≠ 0 → s'.table d j ≠ s'.table d i := by
    intro j hj hji hne
    rw [hold j hj hji] at hne
    rw [h.table_eq hflags, table, hold j hj hji]
    intro heq
    refine hd.not_free _ (.inr ⟨j, hj, hne, rfl⟩) ?_
    rw [table, heq]
    exact h.isFree
  intro j hj k hk hj0 hk0 heq
  by_cases hji : j = i
  · by_contra hjk
    subst hji
    exact hnew k hk (fun h => hjk h.symm) hk0 heq.symm
  · by_cases hki : k = i
    · subst hki
      exact absurd heq (hnew j hj hji hj0)
    · rw [hold j hj hji] at hj0
      rw [hold k hk hki] at hk0
      rw [table, table, hold j hj hji, hold k hk hki] at heq
      exact hdist j hj k hk hj0 hk0 heq

theorem getPhysAddr_setWord (hd : s.Settled d) (hdist : s.Distinct d)
    (hne : s.word d (dirIndex virt) ≠ 0) (w : Word) :
    getPhysAddr (s.setWord (s.table d (dirIndex virt)) (tableIndex virt) w) d virt' =
      if virt' >>> 12 = virt >>> 12 then w >>> 12 <<< 12 else getPhysAddr s d virt' := by
  have hword : (s.setWord (s.table d (dirIndex virt)) (tableIndex virt) w).word d (dirIndex virt') =
      s.word d (dirIndex virt') := by
    rw [word_setWord aligned_table hd.aligned tableIndex_lt dirIndex_lt,
      if_neg fun h => hd.table_ne _ dirIndex_lt hne h.1.symm]
  have htable := congrArg (· &&& ~~~0xFFF#32) hword
  rw [getPhysAddr, hword]
  split
  · next hzero =>
    rw [if_neg, getPhysAddr, if_pos hzero]
    intro hpage
    rw [(page_eq_iff.1 hpage).1] at hzero
    exact hne hzero
  · next hne' =>
    rw [getPhysAddr, if_neg hne']
    simp only [table] at htable ⊢
    rw [htable, word_setWord (aligned_and_flagMask _) (aligned_and_flagMask _) tableIndex_lt tableIndex_lt]
    by_cases hpage : virt' >>> 12 = virt >>> 12
    · obtain ⟨hi, hj⟩ := page_eq_iff.1 hpage
      rw [if_pos hpage, hi, hj, if_pos ⟨rfl, rfl⟩]
    · rw [if_neg hpage, if_neg]
      rintro ⟨heq, hj⟩
      exact hpage (page_eq_iff.2 ⟨hdist _ dirIndex_lt _ dirIndex_lt hne' hne heq, hj⟩)

theorem distinct_setWord (hd : s.Settled d) (hdist : s.Distinct d) (hi : i < pagedirSize)
    (hne : s.word d i ≠ 0) (hk : k < pagedirSize) (w : Word) : (s.setWord (s.table d i) k w).Distinct d := by
  have hword : ∀ j < pagedirSize, (s.setWord (s.table d i) k w).word d j = s.word d j := by
    intro j hj
    rw [word_setWord aligned_table hd.aligned hk hj, if_neg fun h => hd.table_ne i hi hne h.1.symm]
  have htable : ∀ j < pagedirSize, (s.setWord (s.table d i) k w).table d j = s.table d j :=
    fun j hj => congrArg (· &&& ~~~0xFFF#32) (hword j hj)
  intro j hj l hl hj0 hl0 heq
  rw [hword j hj] at hj0
  rw [hword l hl] at hl0
  rw [htable j hj, htable l hl] at heq
  exact hdist j hj l hl hj0 hl0 heq

theorem Kept.distinct (h : Kept s s' d) (hd : s.Settled d) (hdist : s.Distinct d) : s'.Distinct d := by
  intro i hi j hj
  rw [h.dir_eq hd hi, h.dir_eq hd hj, h.table_eq hd hi, h.table_eq hd hj]
  exact hdist i hi j hj

theorem vmmMapPhys_spec (virt : Word) (hd : s.Settled d) (hdist : s.Distinct d) (hphys : Aligned phys)
    (hflags : flags.toNat < pageSize) :
    (vmmMapPhys d virt phys flags s = (false, s) ∨ (vmmMapPhys d virt phys flags s).1 = true ∧
      ∀ virt', getPhysAddr (vmmMapPhys d virt phys flags s).2 d virt' =
        if virt' >>> 12 = virt >>> 12 then phys else getPhysAddr s d virt') ∧
    (vmmMapPhys d virt phys flags s).2.Distinct d := by
  have hentry : (phys ||| flags) >>> 12 <<< 12 = phys := by
    rw [shift_eq_and_flagMask, or_and_flagMask hphys hflags]
  rw [vmmMapPhys]
  rcases ensureTable_cases virt flags hd with ⟨hne, heq⟩ | ⟨hzero, ⟨heq, -⟩ | ⟨b, s', heq, hnew⟩⟩
  · rw [heq]
    refine ⟨.inr ⟨rfl, fun virt' => ?_⟩, distinct_setWord hd hdist dirIndex_lt hne tableIndex_lt _⟩
    show getPhysAddr (s.setWord _ _ _) d virt' = _
    rw [getPhysAddr_setWord hd hdist hne, hentry]
  · rw [heq]
    exact ⟨.inl rfl, hdist⟩
  · rw [heq]
    have hd' := hnew.settled hd hflags
    have hdist' := hnew.distinct hd hflags hdist
    refine ⟨.inr ⟨rfl, fun virt' => ?_⟩,
      distinct_setWord hd' hdist' dirIndex_lt hnew.entry_ne_zero tableIndex_lt _⟩
    show getPhysAddr (s'.setWord _ _ _) d virt' = _
    rw [getPhysAddr_setWord hd' hdist' hnew.entry_ne_zero, hentry, hnew.getPhysAddr_eq hd hflags hzero]

theorem vmmUnmapPhys_spec (virt : Word) (hd : s.Settled d) (hdist : s.Distinct d) :
    (∀ virt', getPhysAddr (vmmUnmapPhys d virt s) d virt' =
      if virt' >>> 12 = virt >>> 12 then 0 else getPhysAddr s d virt') ∧
    (vmmUnmapPhys d virt s).Distinct d := by
  unfold vmmUnmapPhys
  split
  · next hne =>
    exact ⟨fun virt' => getPhysAddr_setWord hd hdist hne 0,
      distinct_setWord hd hdist dirIndex_lt hne tableIndex_lt 0⟩
  · next hzero =>
    refine ⟨fun virt' => ?_, hdist⟩
    split
    · next hpage =>
      rw [getPhysAddr, (page_eq_iff.1 hpage).1, if_pos (not_not.1 hzero)]
    · rfl

variable {s s' : System}

theorem System.Inv.of_changes (h : s.Inv) (hd : d ∈ s.dirs) (hdirs : s'.dirs = s.dirs)
    (hchange : Changes s.paging s'.paging d) (hdist : s'.paging.Distinct d)
    (hself : ∀ virt, getPhysAddr s'.paging d virt =
      if virt >>> 12 = page then phys else getPhysAddr s.paging d virt)
    (hmap : s'.mappings = s.mappings.set d page phys) : s'.Inv := by
  have hkept : ∀ d' ∈ s.dirs, d ≠ d' → Kept s.paging s'.paging d' := fun d' hd' hne =>
    hchange.kept (h.settled d' hd') (h.apart d hd d' hd' hne)
  rw [← hdirs] at hd
  constructor
  · intro d' hd'
    rw [hdirs] at hd'
    by_cases heq : d = d'
    · exact heq ▸ hchange.settled
    · exact (hkept d' hd' heq).settled (h.settled d' hd')
  · intro d' hd'
    rw [hdirs] at hd'
    by_cases heq : d = d'
    · exact heq ▸ hdist
    · exact (hkept d' hd' heq).distinct (h.settled d' hd') (h.distinct d' hd')
  · intro d1 hd1 d2 hd2 hne
    rw [hdirs] at hd hd1 hd2
    by_cases h1 : d = d1
    · subst h1
      exact hchange.apart (h.settled d2 hd2) (h.apart d hd d2 hd2 hne)
    · by_cases h2 : d = d2
      · subst h2
        exact (hchange.apart (h.settled d1 hd1) (h.apart d hd d1 hd1 h1)).symm
      · exact (h.apart d1 hd1 d2 hd2 hne).of_kept (h.settled d1 hd1) (h.settled d2 hd2)
          (hkept d1 hd1 h1) (hkept d2 hd2 h2)
  · intro d' hd' virt
    rw [hdirs] at hd hd'
    rw [hmap, Mappings.set]
    by_cases heq : d = d'
    · subst heq
      rw [hself virt, h.mapped d hd virt]
      simp only [true_and]
    · rw [if_neg fun hset => heq hset.1.symm,
        (hkept d' hd' heq).getPhysAddr_eq (h.settled d' hd'), h.mapped d' hd' virt]
  · intro d' hd' page'
    rw [hdirs] at hd hd'
    rw [hmap, Mappings.set, if_neg, h.unmapped d' hd' page']
    rintro ⟨rfl, -⟩
    exact hd' hd

theorem System.Inv.pageTableMalloc (h : s.Inv) : (s.exec .pageTableMalloc).Inv := by
  rcases hmalloc : Vmm.pageTableMalloc s.paging with ⟨_ | d, t⟩
  · have ht : t = s.paging := by
      rcases pageTableMalloc_cases s.paging with ⟨heq, -⟩ | ⟨b, -, -, heq⟩
      · rw [hmalloc] at heq
        exact congrArg Prod.snd heq
      · rw [hmalloc] at heq
        cases heq
    have hexec : s.exec .pageTableMalloc = s := by
      rw [exec, hmalloc, ht]
      rfl
    rw [hexec]
    exact h
  · have hexec : s.exec .pageTableMalloc = ⟨t, d :: s.dirs, s.mappings⟩ := by
      rw [exec, hmalloc]
      rfl
    have hnew := pageTableMalloc_newPage hmalloc
    have hkept : ∀ d' ∈ s.dirs, Kept s.paging t d' := fun d' hd' => hnew.kept (h.settled d' hd')
    have hnot : d ∉ s.dirs := fun hmem => hnew.ne_of_holds (h.settled d hmem) (.inl rfl) rfl
    rw [hexec]
    constructor
    · exact forall_mem_cons.2 ⟨hnew.settled, fun d' hd' => (hkept d' hd').settled (h.settled d' hd')⟩
    · exact forall_mem_cons.2 ⟨fun i hi _ _ hne => absurd (hnew.zero i hi) hne,
        fun d' hd' => (hkept d' hd').distinct (h.settled d' hd') (h.distinct d' hd')⟩
    · intro d1 hmem1 d2 hmem2 hne
      rcases mem_cons.1 hmem1 with rfl | hd1
      · exact hnew.apart (h.settled d2 ((mem_cons.1 hmem2).resolve_left fun heq => hne heq.symm))
      · rcases mem_cons.1 hmem2 with rfl | hd2
        · exact (hnew.apart (h.settled d1 hd1)).symm
        · exact (h.apart d1 hd1 d2 hd2 hne).of_kept (h.settled d1 hd1) (h.settled d2 hd2)
            (hkept d1 hd1) (hkept d2 hd2)
    · intro d' hd' virt
      rcases mem_cons.1 hd' with rfl | hd'
      · rw [getPhysAddr, if_pos (hnew.zero _ dirIndex_lt), h.unmapped _ hnot]
      · rw [(hkept d' hd').getPhysAddr_eq (h.settled d' hd'), h.mapped d' hd' virt]
    · exact fun d' hd' => h.unmapped d' fun hmem => hd' (mem_cons_of_mem _ hmem)

theorem System.Inv.step {call : Call} (h : s.Inv) (hstep : s.Step call s') : s'.Inv := by
  obtain ⟨hvalid, rfl⟩ := hstep
  cases call with
  | pageTableMalloc => exact h.pageTableMalloc
  | mapPhys d virt phys flags =>
    obtain ⟨hd, hphys, hflags⟩ := hvalid
    obtain ⟨hspec, hdist⟩ := vmmMapPhys_spec virt (h.settled d hd) (h.distinct d hd) hphys hflags
    rcases hspec with heq | ⟨hok, hself⟩
    · have hexec : s.exec (.mapPhys d virt phys flags) = s := by
        rw [exec, heq]
        rfl
      rw [hexec]
      exact h
    · exact h.of_changes hd rfl (vmmMapPhys_changes virt phys (h.settled d hd) hflags) hdist hself (if_pos hok)
  | unmapPhys d virt =>
    obtain ⟨hself, hdist⟩ := vmmUnmapPhys_spec virt (h.settled d hvalid) (h.distinct d hvalid)
    exact h.of_changes hvalid rfl (vmmUnmapPhys_changes (h.settled d hvalid)) hdist hself rfl

/-- The state before any directory was obtained, with any contents of the memory and the bitmaps. -/
def System.start (paging : Paging) : System := ⟨paging, [], fun _ _ => 0⟩

theorem System.start_inv (paging : Paging) : (start paging).Inv where
  settled := fun _ hd => absurd hd not_mem_nil
  distinct := fun _ hd => absurd hd not_mem_nil
  apart := fun _ hd => absurd hd not_mem_nil
  mapped := fun _ hd => absurd hd not_mem_nil
  unmapped := fun _ _ _ => rfl

/-- In every run, from any contents of the memory and the bitmaps on, `get_phys_addr` of a directory that
was obtained is what the last successful mapping of the page, or an unmapping since, has set; and the next
call changes at most the one page of the one directory that it is for, and nothing when it fails. -/
theorem getPhysAddr_eq_mappings {paging : Paging} {calls : List Call}
    (hrun : Run System.Step (System.start paging) calls s) :
    (∀ d ∈ s.dirs, ∀ virt : Word, getPhysAddr s.paging d virt = s.mappings d (virt >>> 12)) ∧
    ∀ pdir virt : Word, pdir ∈ s.dirs → (∀ phys flags : Word, Aligned phys → flags.toNat < pageSize →
      (∀ d ∈ s.dirs, ∀ virt' : Word, (d = pdir → virt' >>> 12 ≠ virt >>> 12) →
        getPhysAddr (vmmMapPhys pdir virt phys flags s.paging).2 d virt' =
          getPhysAddr s.paging d virt') ∧
      ((vmmMapPhys pdir virt phys flags s.paging).1 = false → ∀ d ∈ s.dirs, ∀ virt' : Word,
        getPhysAddr (vmmMapPhys pdir virt phys flags s.paging).2 d virt' =
          getPhysAddr s.paging d virt')) ∧
      ∀ d ∈ s.dirs, ∀ virt' : Word, (d = pdir → virt' >>> 12 ≠ virt >>> 12) →
        getPhysAddr (vmmUnmapPhys pdir virt s.paging) d virt' = getPhysAddr s.paging d virt' := by
  have hinv : s.Inv := hrun.invariant (System.start_inv paging) fun _ _ _ h hstep => h.step hstep
  have hother : ∀ (call : Call) {pdir page phys : Word}, call.Valid s →
      (s.exec call).dirs = s.dirs → (s.exec call).mappings = s.mappings.set pdir page phys →
      ∀ d ∈ s.dirs, ∀ virt' : Word, (d = pdir → virt' >>> 12 ≠ page) →
        getPhysAddr (s.exec call).paging d virt' = getPhysAddr s.paging d virt' := by
    intro call pdir page phys hvalid hdirs hmap d hd virt' hne
    rw [(hinv.step ⟨hvalid, rfl⟩).mapped d (hdirs ▸ hd) virt', hmap, Mappings.set,
      if_neg fun h => hne h.1 h.2, hinv.mapped d hd virt']
  refine ⟨hinv.mapped, fun pdir virt hpdir => ⟨fun phys flags hphys hflags => ?_, ?_⟩⟩
  · have hvalid : Call.Valid s (.mapPhys pdir virt phys flags) := ⟨hpdir, hphys, hflags⟩
    rcases (vmmMapPhys_spec virt (hinv.settled pdir hpdir) (hinv.distinct pdir hpdir) hphys
      hflags).1 with heq | ⟨hok, -⟩
    · rw [heq]
      exact ⟨fun _ _ _ _ => rfl, fun _ _ _ _ => rfl⟩
    · refine ⟨hother _ hvalid rfl (if_pos hok), fun hfail => ?_⟩
      rw [hok] at hfail
      cases hfail
  · exact hother (.unmapPhys pdir virt) hpdir rfl rfl

/-- The paging structures of an empty memory. -/
def Paging.empty : Paging := ⟨fun _ => 0, fun _ => 0, 0, ⟨0, 0, fun _ => 0⟩⟩

/-- A directory is obtained, and a page of it mapped. -/
theorem getPhysAddr_eq_mappings_empty :
    getPhysAddr (((System.start .empty).exec .pageTableMalloc).exec
      (.mapPhys 0x200000 0x403000 0x7000 3)).paging 0x200000 0x403008 = 0x7000 := by
  have hmem : 0x200000#32 ∈ ((System.start .empty).exec .pageTableMalloc).dirs := by decide
  have hnew : (System.start .empty).Step .pageTableMalloc
      ((System.start .empty).exec .pageTableMalloc) := ⟨trivial, rfl⟩
  have hmap : ((System.start .empty).exec .pageTableMalloc).Step
      (.mapPhys 0x200000 0x403000 0x7000 3) (((System.start .empty).exec .pageTableMalloc).exec
        (.mapPhys 0x200000 0x403000 0x7000 3)) := ⟨⟨hmem, by decide, by decide⟩, rfl⟩
  rw [(getPhysAddr_eq_mappings ((Run.nil.snoc hnew).snoc hmap)).1 0x200000 hmem 0x403008]
  decide

end HeisenKernel.Vmm
