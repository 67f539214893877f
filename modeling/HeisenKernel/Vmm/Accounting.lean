import HeisenKernel.Vmm.AddressSpace

/-!
# Blocks that are given back

What `delete_address_space` and the failures of `create_address_space` and `vmm_map` do to the two
bitmaps and the two counters.
-/

namespace HeisenKernel.Vmm

open Lib Bitmap BitVec List

/-- The bitmaps and the counters are the same. -/
structure SameBlocks (s s' : Paging) : Prop where
  bitmap : s'.bitmap = s.bitmap
  usedBlocks : s'.usedBlocks = s.usedBlocks
  map : s'.pmm.map = s.pmm.map
  pmmUsedBlocks : s'.pmm.usedBlocks = s.pmm.usedBlocks

/-- From this state on, an address space that is created and deleted leaves the paging bitmap and its
counter as they were; and so do, with those of the physical memory, `create_address_space` and `vmm_map`
when they fail. -/
def Restores (kernDir pdir virt flags : Word) (s : Paging) : Prop :=
  (∀ d s', createAddressSpace kernDir s = (some d, s') → ∃ s'', deleteAddressSpace d s' = .ok s'' ∧
    s''.bitmap = s.bitmap ∧ s''.usedBlocks = s.usedBlocks) ∧
  (∀ s', createAddressSpace kernDir s = (none, s') → SameBlocks s s') ∧
  ∃ r, vmmMap pdir virt flags s = .ok r ∧ (r.1 = false → SameBlocks s r.2)

variable {s s' : Paging} {d k pdir virt flags : Word} {b : Nat}

theorem index_deleteAddressSpace (hi : i < pagedirSize) : (i * pageSize) >>> 22 = 0 := by
  unfold pagedirSize at hi
  rw [pageSize, Nat.shiftRight_eq_div_pow]
  omega

theorem deleteAddressSpace_of_zero (hzero : s.word d 0 = 0) : deleteAddressSpace d s = .ok s := by
  unfold deleteAddressSpace
  have hpass : ∀ is : List Nat, (∀ i ∈ is, i < pagedirSize) → is.foldlM (fun s i =>
      if s.word d ((i * pageSize) >>> 22) ≠ 0 then
        vmmUnmapPageTable d (BitVec.ofNat 32 (i * pageSize)) s
      else .ok s) s = .ok s := by
    intro is
    induction is with
    | nil => exact fun _ => rfl
    | cons i is ih =>
      intro hmem
      rw [foldlM_cons, index_deleteAddressSpace (hmem i mem_cons_self),
        if_neg (not_not.2 hzero)]
      exact ih (forall_mem_cons.1 hmem).2
  exact hpass _ fun i hi => List.mem_range.1 hi

theorem pageTableFree_blockAddr (hb : b < maxBlocks) : pageTableFree (blockAddr b) s = .error .memory := by
  have hbit : (blockAddr b / BitVec.ofNat 32 pageSize - BitVec.ofNat 32 pageStart).toInt < 0 := by
    have haddr := toNat_blockAddr hb
    unfold maxBlocks at hb
    rw [pageSize, pageStart] at haddr
    have hsize : (BitVec.ofNat 32 pageSize).toNat = 4096 := rfl
    have hstart : (BitVec.ofNat 32 pageStart).toNat = 2097152 := rfl
    rw [toInt_eq_toNat_cond, toNat_sub, toNat_udiv, haddr, hsize, hstart]
    split <;> omega
  rw [pageTableFree, pagingUnsetBit, if_neg fun h => absurd h.1 (Int.not_le.2 hbit)]
  rfl

theorem and_pageFrameMask (hb : b < maxBlocks) (h : w &&& ~~~0xFFF#32 = blockAddr b) :
    w &&& pageFrameMask = blockAddr b := by
  have hmask : w &&& pageFrameMask = blockAddr b &&& 0x7FFFFFFF#32 := by
    rw [← h, BitVec.and_assoc]
    rfl
  have haddr := toNat_blockAddr hb
  unfold maxBlocks at hb
  rw [pageSize, pageStart] at haddr
  rw [hmask, ← toNat_inj, toNat_and, haddr]
  exact (Nat.and_two_pow_sub_one_eq_mod _ 31).trans (Nat.mod_eq_of_lt (by omega))

theorem deleteAddressSpace_of_block (hb : b < maxBlocks) (hne : s.word d 0 ≠ 0)
    (htable : s.table d 0 = blockAddr b) : deleteAddressSpace d s = .error .memory := by
  have hrange : range pagedirSize = 0 :: (range (pagedirSize - 1)).map Nat.succ := range_succ_eq_map
  have hword : s.word d ((0 * pageSize) >>> 22) = s.word d 0 := by
    rw [index_deleteAddressSpace (by decide)]
  have hunmap : vmmUnmapPageTable d (BitVec.ofNat 32 (0 * pageSize)) s = .error .memory := by
    rw [vmmUnmapPageTable, Nat.zero_mul, show dirIndex (BitVec.ofNat 32 0) = 0 from rfl,
      and_pageFrameMask hb htable, pageTableFree_blockAddr hb]
    rfl
  rw [deleteAddressSpace, hrange, foldlM_cons, if_pos (hword ▸ hne), hunmap]
  rfl

theorem createAddressSpace_takes (hfree : ∃ b < maxBlocks, bit s.bitmap b = false) :
    ∃ d, s.Free d ∧ ¬(createAddressSpace k s).2.Free d ∧
      ((createAddressSpace k s).1 = none ∨ (createAddressSpace k s).1 = some d ∧
        ((createAddressSpace k s).2.word d 0 = 0 ∨ (createAddressSpace k s).2.word d 0 ≠ 0 ∧
          ∃ b < maxBlocks, (createAddressSpace k s).2.table d 0 = blockAddr b)) := by
  rcases hmalloc : pageTableMalloc s with ⟨_ | d, t⟩
  · obtain ⟨b, hb, hclear⟩ := hfree
    rcases pageTableMalloc_cases s with ⟨-, hfull⟩ | ⟨c, -, -, heq⟩
    · rw [hfull b hb] at hclear
      cases hclear
    · rw [hmalloc] at heq
      cases heq
  · have hnew := pageTableMalloc_newPage hmalloc
    have hloop : Changes t (cloneFrom k d pagedirSize 0 0 t).2 d :=
      cloneFrom_changes hnew.settled (zero_add pagedirSize)
    have hsnd : (createAddressSpace k s).2 = (cloneFrom k d pagedirSize 0 0 t).2 := by
      rw [createAddressSpace, hmalloc]
      dsimp only
      split <;> rfl
    have hfst : (createAddressSpace k s).1 = none ∨ (createAddressSpace k s).1 = some d := by
      rw [createAddressSpace, hmalloc]
      dsimp only
      split
      · exact .inr rfl
      · exact .inl rfl
    rw [hsnd]
    refine ⟨d, hnew.isFree, hloop.settled.not_free d (.inl rfl), hfst.imp_right fun h => ⟨h, ?_⟩⟩
    by_cases hzero : (cloneFrom k d pagedirSize 0 0 t).2.word d 0 = 0
    · exact .inl hzero
    · have hd : (0 : Nat) < pagedirSize := by decide
      -- a table of the new directory is a block that was free before
      rcases hloop.holds _ (.inr ⟨0, hd, hzero, rfl⟩) with hold | ⟨b, hb, -, heq⟩
      · exact absurd (hnew.holds_iff.1 hold) (hloop.settled.table_ne 0 hd hzero)
      · exact .inr ⟨hzero, b, hb, heq⟩

theorem free_congr (h : s'.bitmap = s.bitmap) : s'.Free p ↔ s.Free p := by
  rw [Paging.Free, Paging.Free, h]

theorem full_of_restores (h : Restores k pdir virt flags s) (hb : b < maxBlocks) : bit s.bitmap b = true := by
  by_contra hclear
  obtain ⟨hdelete, hfail, -⟩ := h
  obtain ⟨d, hfree, htaken, hnone | ⟨hsome, hfirst⟩⟩ :=
    createAddressSpace_takes ⟨b, hb, Bool.eq_false_iff.2 hclear⟩
  · exact htaken ((free_congr (hfail _ (Prod.ext hnone rfl)).bitmap).2 hfree)
  · obtain ⟨s'', hok, hbitmap, -⟩ := hdelete d _ (Prod.ext hsome rfl)
    rcases hfirst with hzero | ⟨hne, c, hc, htable⟩
    · rw [deleteAddressSpace_of_zero hzero] at hok
      cases hok
      exact htaken ((free_congr hbitmap).2 hfree)
    · rw [deleteAddressSpace_of_block hc hne htable] at hok
      cases hok

theorem createAddressSpace_of_full (hfull : ∀ b < maxBlocks, bit s.bitmap b = true) :
    createAddressSpace k s = (none, s) := by
  rcases pageTableMalloc_cases s with ⟨heq, -⟩ | ⟨b, hb, hclear, -⟩
  · rw [createAddressSpace, heq]
  · rw [hfull b hb] at hclear
    cases hclear

theorem ofInt_pageSize_mul_eq_zero : BitVec.ofInt 32 ((pageSize : Int) * (b : Int)) = 0 ↔ b % 2 ^ 20 = 0 := by
  have hzero : (0 : Word).toNat = 0 := rfl
  rw [← Int.natCast_mul, ofInt_natCast, ← toNat_inj, toNat_ofNat, pageSize, hzero]
  omega

/-- The state behind the allocation of a block of physical memory. -/
def Paging.takeBlock (s : Paging) (b : Nat) : Paging :=
  { s with pmm := { s.pmm with
    map := set s.pmm.map b
    usedBlocks := s.pmm.usedBlocks + 1 } }

theorem vmmMap_eq (h : findClear s.pmm.map (s.pmm.maxBlocks.toNat / 32) (fun _ => true) = some b)
    (hb : b ≠ 0) : vmmMap pdir virt flags s =
      if b % 2 ^ 20 = 0 then .ok (false, s.takeBlock b)
      else .ok (vmmMapPhys pdir virt (BitVec.ofInt 32 (pageSize * b)) flags (s.takeBlock b)) := by
  have hfirst : pmmFirstFree s.pmm = b := by rw [pmmFirstFree, h]
  have hmalloc : pmmMalloc s.pmm = .ok (BitVec.ofInt 32 (pageSize * b), (s.takeBlock b).pmm) := by
    rw [pmmMalloc, hfirst, if_neg (by exact_mod_cast hb), pmmSetBit, if_pos (Int.natCast_nonneg b)]
    rfl
  rw [vmmMap, hmalloc]
  show (if BitVec.ofInt 32 (pageSize * b) = 0 then _ else _) = _
  simp only [ofInt_pageSize_mul_eq_zero]
  split <;> rfl

theorem not_sameBlocks_takeBlock (h : bit s.pmm.map b = false) : ¬SameBlocks s (s.takeBlock b) := by
  intro hsame
  have hmap : set s.pmm.map b = s.pmm.map := hsame.map
  have hbit : bit (set s.pmm.map b) b = true := by
    rw [bit_set, decide_eq_true rfl, Bool.or_true]
  rw [hmap, h] at hbit
  cases hbit

theorem vmmMapPhys_of_full (hfull : ∀ b < maxBlocks, bit s.bitmap b = true) (pdir virt phys flags : Word) :
    (s.word pdir (dirIndex virt) = 0 → vmmMapPhys pdir virt phys flags s = (false, s)) ∧
    (s.word pdir (dirIndex virt) ≠ 0 → (vmmMapPhys pdir virt phys flags s).1 = true) := by
  constructor
  · intro hzero
    rcases pageTableMalloc_cases s with ⟨heq, -⟩ | ⟨b, hb, hclear, -⟩
    · rw [vmmMapPhys, ensureTable, if_pos hzero, vmmCreatePageTable, heq]
      rfl
    · rw [hfull b hb] at hclear
      cases hclear
  · intro hne
    rw [vmmMapPhys, ensureTable, if_neg hne]
    rfl

theorem vmmMap_restores_iff (hfull : ∀ b < maxBlocks, bit s.bitmap b = true) :
    (∃ r, vmmMap pdir virt flags s = .ok r ∧ (r.1 = false → SameBlocks s r.2)) ↔
    ∃ b < s.pmm.maxBlocks.toNat / 32 * 32, bit s.pmm.map b = false ∧ (∀ a < b, bit s.pmm.map a = true) ∧
      (b = 0 ∨ b % 2 ^ 20 ≠ 0 ∧ s.word pdir (dirIndex virt) ≠ 0) := by
  cases hfind : findClear s.pmm.map (s.pmm.maxBlocks.toNat / 32) fun _ => true with
  | none =>
    have hall := findClear_eq_none.1 hfind
    have hfault : vmmMap pdir virt flags s = .error .memory := by
      rw [vmmMap, pmmMalloc, pmmFirstFree, hfind]
      rfl
    constructor
    · rintro ⟨r, hr, -⟩
      rw [hfault] at hr
      cases hr
    · rintro ⟨b, hb, hclear, -⟩
      rw [hall b hb] at hclear
      cases hclear
  | some c =>
    obtain ⟨hc, hclear, hbefore⟩ := findClear_eq_some hfind
    -- the first clear bit is determined
    have huniq : (∃ b < s.pmm.maxBlocks.toNat / 32 * 32, bit s.pmm.map b = false ∧
        (∀ a < b, bit s.pmm.map a = true) ∧
        (b = 0 ∨ b % 2 ^ 20 ≠ 0 ∧ s.word pdir (dirIndex virt) ≠ 0)) ↔
        (c = 0 ∨ c % 2 ^ 20 ≠ 0 ∧ s.word pdir (dirIndex virt) ≠ 0) := by
      constructor
      · rintro ⟨b, -, hb, hbb, hcond⟩
        have hbc : b = c := by
          rcases Nat.lt_trichotomy b c with hlt | heq | hgt
          · rw [hbefore b hlt] at hb
            cases hb
          · exact heq
          · rw [hbb c hgt] at hclear
            cases hclear
        exact hbc ▸ hcond
      · exact fun hcond => ⟨c, hc, hclear, hbefore, hcond⟩
    rw [huniq]
    by_cases hc0 : c = 0
    · have hzero : vmmMap pdir virt flags s = .ok (false, s) := by
        rw [vmmMap, pmmMalloc, pmmFirstFree, hfind, hc0]
        rfl
      exact ⟨fun _ => .inl hc0, fun _ => ⟨_, hzero, fun _ => ⟨rfl, rfl, rfl, rfl⟩⟩⟩
    · have hnot := not_sameBlocks_takeBlock hclear
      have hphys := vmmMapPhys_of_full (s := s.takeBlock c) hfull pdir virt
        (BitVec.ofInt 32 (pageSize * c)) flags
      rw [vmmMap_eq hfind hc0]
      split
      · next hmod =>
        constructor
        · rintro ⟨r, hr, hsame⟩
          cases hr
          exact absurd (hsame rfl) hnot
        · rintro (h | ⟨h, -⟩)
          · exact absurd h hc0
          · exact absurd hmod h
      · next hmod =>
        constructor
        · rintro ⟨r, hr, hsame⟩
          cases hr
          refine .inr ⟨hmod, fun hzero => hnot ?_⟩
          rw [hphys.1 hzero] at hsame
          exact hsame rfl
        · rintro (h | ⟨-, hne⟩)
          · exact absurd h hc0
          · refine ⟨_, rfl, fun hfail => ?_⟩
            rw [hphys.2 hne] at hfail
            cases hfail

/-- Everything is restored exactly in a state where nothing is taken: no block for paging structures is
free, so that no address space is created, and the first free block of the physical memory is block 0, or it
is another whose address is not zero and goes into a table that is there. -/
theorem restores_iff (kernDir pdir virt flags : Word) (s : Paging) :
    Restores kernDir pdir virt flags s ↔ (∀ b < maxBlocks, bit s.bitmap b = true) ∧
      ∃ b < s.pmm.maxBlocks.toNat / 32 * 32, bit s.pmm.map b = false ∧ (∀ a < b, bit s.pmm.map a = true) ∧
        (b = 0 ∨ b % 2 ^ 20 ≠ 0 ∧ s.word pdir (dirIndex virt) ≠ 0) := by
  constructor
  · intro h
    have hfull : ∀ b < maxBlocks, bit s.bitmap b = true := fun b hb => full_of_restores h hb
    exact ⟨hfull, (vmmMap_restores_iff hfull).1 h.2.2⟩
  · rintro ⟨hfull, hmap⟩
    have hcreate := createAddressSpace_of_full (k := kernDir) hfull
    refine ⟨fun d s' h => ?_, fun s' h => ?_, (vmmMap_restores_iff hfull).2 hmap⟩
    · rw [hcreate] at h
      cases h
    · rw [hcreate] at h
      cases h
      exact ⟨rfl, rfl, rfl, rfl⟩

/-- With no block for a table, a mapping fails with a block of physical memory that stays in use. -/
theorem vmmMap_leaks : ¬Restores 0x100000 0x100000 0x800000 3
    ⟨fun _ => 0, fun _ => 0xFFFFFFFF, 512, ⟨1, 64, fun _ => 1⟩⟩ := by
  rintro ⟨-, -, r, hr, hsame⟩
  have hmap : vmmMap 0x100000 0x800000 3
      ⟨fun _ => 0, fun _ => 0xFFFFFFFF, 512, ⟨1, 64, fun _ => 1⟩⟩ = .ok (false,
        ⟨fun _ => 0, fun _ => 0xFFFFFFFF, 512, ⟨2, 64, set (fun _ => 1) 1⟩⟩) := rfl
  rw [hmap] at hr
  cases hr
  have hused := (hsame rfl).pmmUsedBlocks
  revert hused
  decide

end HeisenKernel.Vmm
