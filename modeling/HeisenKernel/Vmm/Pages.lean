import HeisenKernel.Vmm

/-!
# Pages of directories and tables

A directory holds its own page and the pages of its tables (`Holds`). It is settled when none of
these is a free block and no table is the directory itself (`Settled`).
-/

namespace HeisenKernel.Vmm

open Lib Bitmap BitVec Nat Paging

/-- The address is that of a page. -/
def Aligned (p : Word) : Prop := p.toNat % pageSize = 0

instance (p : Word) : Decidable (Aligned p) := inferInstanceAs (Decidable (_ = _))

/-- The page is a free block. -/
def Paging.Free (s : Paging) (p : Word) : Prop :=
  ∃ b < maxBlocks, bit s.bitmap b = false ∧ p = blockAddr b

/-- The page is the directory or one of its tables. -/
def Paging.Holds (s : Paging) (d p : Word) : Prop :=
  p = d ∨ ∃ i < pagedirSize, s.word d i ≠ 0 ∧ p = s.table d i

/-- The directory and its tables are pages that are in use, and no table is the directory. -/
structure Paging.Settled (s : Paging) (d : Word) : Prop where
  aligned : Aligned d
  table_ne : ∀ i < pagedirSize, s.word d i ≠ 0 → s.table d i ≠ d
  not_free : ∀ p, s.Holds d p → ¬s.Free p

/-- The directories have no page in common. -/
def Paging.Apart (s : Paging) (d d' : Word) : Prop := ∀ p, s.Holds d p → ¬s.Holds d' p

/-- What a call on the directory may change. -/
structure Changes (s s' : Paging) (d : Word) : Prop where
  word : ∀ p, Aligned p → ¬s.Holds d p → ¬s.Free p → ∀ j < pagedirSize, s'.word p j = s.word p j
  holds : ∀ p, s'.Holds d p → s.Holds d p ∨ s.Free p
  free : ∀ p, s'.Free p → s.Free p
  settled : s'.Settled d

/-- The pages of the directory are left alone. -/
structure Kept (s s' : Paging) (d : Word) : Prop where
  word : ∀ p, s.Holds d p → Aligned p → ∀ j < pagedirSize, s'.word p j = s.word p j
  free : ∀ p, s'.Free p → s.Free p

variable {s : Paging} {p q w virt virt' : Word} {i j : Nat}

theorem getLsbD_flagMask (hi : i < 32) : (0xFFF#32).getLsbD i = decide (i < 12) := by
  revert i
  decide

theorem getLsbD_of_aligned (h : Aligned p) (hi : i < 12) : p.getLsbD i = false := by
  have hbit := testBit_mod_two_pow p.toNat 12 i
  rw [show p.toNat % 2 ^ 12 = 0 from h, zero_testBit] at hbit
  simpa [hi, getLsbD] using hbit.symm

theorem getLsbD_of_flags (h : w.toNat < pageSize) (hi : 12 ≤ i) : w.getLsbD i = false :=
  Nat.testBit_lt_two_pow (lt_of_lt_of_le h (Nat.pow_le_pow_right Nat.two_pos hi))

theorem or_and_flagMask (h : Aligned p) (hflags : flags.toNat < pageSize) :
    (p ||| flags) &&& ~~~0xFFF#32 = p := by
  refine eq_of_getLsbD_eq fun i hi => ?_
  rw [getLsbD_and, getLsbD_or, getLsbD_not, getLsbD_flagMask hi]
  rcases lt_or_ge i 12 with hlow | hhigh
  · rw [getLsbD_of_aligned h hlow]
    simp [hlow]
  · rw [getLsbD_of_flags hflags hhigh]
    simp [not_lt.2 hhigh, hi]

theorem shift_eq_and_flagMask : w >>> 12 <<< 12 = w &&& ~~~0xFFF#32 := by
  refine eq_of_getLsbD_eq fun i hi => ?_
  rw [getLsbD_and, getLsbD_not, getLsbD_flagMask hi, getLsbD_shiftLeft, getLsbD_ushiftRight]
  rcases lt_or_ge i 12 with hlow | hhigh
  · simp [hlow]
  · simp [Nat.not_lt.2 hhigh, hi, Nat.add_sub_cancel' hhigh]

theorem aligned_and_flagMask (w : Word) : Aligned (w &&& ~~~0xFFF#32) := by
  rw [← shift_eq_and_flagMask, Aligned, pageSize, toNat_shiftLeft, toNat_ushiftRight,
    Nat.shiftLeft_eq, Nat.shiftRight_eq_div_pow]
  omega

theorem aligned_table : Aligned (s.table p i) := aligned_and_flagMask _

theorem toNat_blockAddr (hb : b < maxBlocks) : (blockAddr b).toNat = pageSize * b + pageStart := by
  unfold maxBlocks at hb
  rw [blockAddr, toNat_ofNat, pageSize, pageStart]
  exact mod_eq_of_lt (by omega)

theorem aligned_blockAddr (hb : b < maxBlocks) : Aligned (blockAddr b) := by
  rw [Aligned, toNat_blockAddr hb, pageSize, pageStart]
  omega

theorem blockAddr_ne_zero (hb : b < maxBlocks) : blockAddr b ≠ 0 := by
  intro h
  have := congrArg BitVec.toNat h
  rw [toNat_blockAddr hb, pageStart] at this
  simp at this

theorem blockAddr_inj (hb : b < maxBlocks) (hi : i < maxBlocks) (h : blockAddr b = blockAddr i) : b = i := by
  have := congrArg BitVec.toNat h
  rw [toNat_blockAddr hb, toNat_blockAddr hi, pageSize, pageStart] at this
  omega

theorem or_ne_zero (h : p ≠ 0) : p ||| w ≠ 0 := by
  intro hor
  refine h (eq_of_getLsbD_eq fun i hi => ?_)
  have hbit := congrArg (·.getLsbD i) hor
  simp only [getLsbD_or, ofNat_eq_ofNat, getLsbD_zero, Bool.or_eq_false_iff] at hbit
  simpa using hbit.1

theorem dirIndex_eq : dirIndex virt = virt.toNat / 2 ^ 22 := by
  rw [dirIndex, toNat_ushiftRight, shiftRight_eq_div_pow]

theorem tableIndex_eq : tableIndex virt = virt.toNat / pageSize % pagedirSize := by
  rw [tableIndex, toNat_ushiftRight, toNat_ushiftRight, toNat_shiftLeft,
    Nat.shiftLeft_eq, Nat.shiftRight_eq_div_pow, Nat.shiftRight_eq_div_pow, pageSize, pagedirSize]
  omega

theorem dirIndex_lt : dirIndex virt < pagedirSize := by
  rw [dirIndex_eq, pagedirSize]
  omega

theorem tableIndex_lt : tableIndex virt < pagedirSize := by
  rw [tableIndex_eq]
  exact mod_lt _ (by decide)

theorem page_eq_iff : virt >>> 12 = virt' >>> 12 ↔
    dirIndex virt = dirIndex virt' ∧ tableIndex virt = tableIndex virt' := by
  rw [← toNat_inj, toNat_ushiftRight, toNat_ushiftRight,
    shiftRight_eq_div_pow, shiftRight_eq_div_pow, dirIndex_eq, dirIndex_eq, tableIndex_eq,
    tableIndex_eq, pageSize, pagedirSize]
  omega

section
variable (hp : Aligned p) (hq : Aligned q)
include hp hq

theorem word_setWord (hi : i < pagedirSize) (hj : j < pagedirSize) : (s.setWord p i w).word q j = if
    q = p ∧ j = i then w else s.word q j := by
  have hiff : q.toNat + 4 * j = p.toNat + 4 * i ↔ q = p ∧ j = i := by
    unfold Aligned pageSize at hp hq
    unfold pagedirSize at hi hj
    rw [← toNat_inj]
    omega
  have hupdate := Function.update_apply s.memory (p.toNat + 4 * i) w (q.toNat + 4 * j)
  exact hupdate.trans (if_congr hiff rfl rfl)

theorem page_mem_iff (hj : j < pagedirSize) :
    p.toNat ≤ q.toNat + 4 * j ∧ q.toNat + 4 * j < p.toNat + pageSize ↔ q = p := by
  unfold Aligned pageSize at *
  unfold pagedirSize at hj
  rw [← toNat_inj]
  omega

theorem word_clearPage (hj : j < pagedirSize) : (s.clearPage p).word q j = if q = p then 0 else s.word q j :=
  if_congr (page_mem_iff hp hq hj) rfl rfl

theorem word_copyPage (hj : j < pagedirSize) :
    (s.copyPage p r).word q j = if q = p then s.word r j else s.word q j := by
  have hcopy : (s.copyPage p r).word q j =
      if q = p then s.memory (r.toNat + (q.toNat + 4 * j - p.toNat)) else s.word q j :=
    if_congr (page_mem_iff hp hq hj) rfl rfl
  rw [hcopy]
  split
  · next h =>
    rw [h, Nat.add_sub_cancel_left]
    rfl
  · rfl

end

/-- A free block was put into the directory as the table of the entry `i`. -/
structure NewTable (s s' : Paging) (d : Word) (i b : Nat) (flags : Word) : Prop where
  block : b < maxBlocks
  clear : bit s.bitmap b = false
  bitmap : s'.bitmap = set s.bitmap b
  entry : s'.word d i = blockAddr b ||| flags
  zero : ∀ j < pagedirSize, s'.word (blockAddr b) j = 0
  word : ∀ p, Aligned p → p ≠ blockAddr b → ∀ j < pagedirSize, (p = d → j ≠ i) → s'.word p j = s.word p j

variable {s' : Paging} {d : Word}

theorem pageTableMalloc_cases (s : Paging) :
    (pageTableMalloc s = (none, s) ∧ ∀ b < maxBlocks, bit s.bitmap b = true) ∨
    ∃ b < maxBlocks, bit s.bitmap b = false ∧ pageTableMalloc s = (some (blockAddr b),
      { pagingSetBit b s with usedBlocks := s.usedBlocks + 1 }.clearPage (blockAddr b)) := by
  unfold pageTableMalloc pagingFirstFree
  cases hfind : findClear s.bitmap (maxBlocks / 32) fun _ => true with
  | none => exact .inl ⟨if_pos rfl, findClear_eq_none.1 hfind⟩
  | some b =>
    obtain ⟨hb, hclear, -⟩ := findClear_eq_some hfind
    exact .inr ⟨b, hb, hclear, if_neg (by simp)⟩

theorem vmmCreatePageTable_cases (virt flags : Word) (hd : Aligned d) (hfree : ¬s.Free d) :
    (vmmCreatePageTable d virt flags s = (false, s) ∧ ∀ b < maxBlocks, bit s.bitmap b = true) ∨
    ∃ b s', vmmCreatePageTable d virt flags s = (true, s') ∧ NewTable s s' d (dirIndex virt) b flags := by
  rcases pageTableMalloc_cases s with ⟨heq, hfull⟩ | ⟨b, hb, hclear, heq⟩
  · exact .inl ⟨by rw [vmmCreatePageTable, heq], hfull⟩
  · have hne : d ≠ blockAddr b := fun h => hfree ⟨b, hb, hclear, h⟩
    have ha := aligned_blockAddr hb
    have hi := @dirIndex_lt virt
    refine .inr ⟨b, _, by rw [vmmCreatePageTable, heq], hb, hclear, rfl, ?_, fun j hj => ?_,
      fun p hp hpb j hj hij => ?_⟩
    · rw [word_setWord hd hd hi hi, if_pos ⟨rfl, rfl⟩]
    · rw [word_setWord hd ha hi hj, if_neg fun h => hne h.1.symm, word_clearPage ha ha hj, if_pos rfl]
    · rw [word_setWord hd hp hi hj, if_neg fun h => hij h.1 h.2, word_clearPage ha hp hj, if_neg hpb]
      rfl

section
variable (h : NewTable s s' d i b flags)
include h

theorem NewTable.entry_ne_zero : s'.word d i ≠ 0 := by
  rw [h.entry]
  exact or_ne_zero (blockAddr_ne_zero h.block)

theorem NewTable.table_eq (hflags : flags.toNat < pageSize) : s'.table d i = blockAddr b := by
  rw [table, h.entry, or_and_flagMask (aligned_blockAddr h.block) hflags]

theorem NewTable.isFree : s.Free (blockAddr b) :=
  ⟨b, h.block, h.clear, rfl⟩

theorem NewTable.free_iff : s'.Free p ↔ s.Free p ∧ p ≠ blockAddr b := by
  constructor
  · rintro ⟨c, hc, hclear, rfl⟩
    rw [h.bitmap, bit_set, Bool.or_eq_false_iff, decide_eq_false_iff_not] at hclear
    exact ⟨⟨c, hc, hclear.1, rfl⟩, fun heq => hclear.2 (blockAddr_inj hc h.block heq)⟩
  · rintro ⟨⟨c, hc, hclear, rfl⟩, hne⟩
    refine ⟨c, hc, ?_, rfl⟩
    rw [h.bitmap, bit_set, hclear, Bool.false_or, decide_eq_false_iff_not]
    rintro rfl
    exact hne rfl

section
variable (hd : s.Settled d) (hflags : flags.toNat < pageSize)
include hd hflags

theorem NewTable.holds (hp : s'.Holds d p) : s.Holds d p ∨ p = blockAddr b := by
  rcases hp with rfl | ⟨j, hj, hne, rfl⟩
  · exact .inl (.inl rfl)
  · by_cases hji : j = i
    · rw [hji, h.table_eq hflags]
      exact .inr rfl
    · have hword := h.word d hd.aligned (fun heq => hd.not_free d (.inl rfl) (heq ▸ h.isFree)) j hj
        fun _ => hji
      rw [hword] at hne
      rw [table, hword]
      exact .inl (.inr ⟨j, hj, hne, rfl⟩)

theorem NewTable.settled : s'.Settled d := by
  have hdb : d ≠ blockAddr b := fun heq => hd.not_free d (.inl rfl) (heq ▸ h.isFree)
  refine ⟨hd.aligned, fun j hj hne => ?_, fun p hp hfree => ?_⟩
  · by_cases hji : j = i
    · rw [hji, h.table_eq hflags]
      exact hdb.symm
    · have hword := h.word d hd.aligned hdb j hj fun _ => hji
      rw [hword] at hne
      rw [table, hword]
      exact hd.table_ne j hj hne
  · rw [h.free_iff] at hfree
    rcases h.holds hd hflags hp with hp | rfl
    · exact hd.not_free p hp hfree.1
    · exact hfree.2 rfl

theorem NewTable.changes : Changes s s' d where
  word := by
    intro p hp hout hfree j hj
    exact h.word p hp (fun heq => hfree (heq ▸ h.isFree)) j hj fun heq => absurd (.inl heq) hout
  holds := by
    intro p hp
    rcases h.holds hd hflags hp with hp | rfl
    · exact .inl hp
    · exact .inr h.isFree
  free := fun p hp => (h.free_iff.1 hp).1
  settled := h.settled hd hflags

end

end

theorem changes_of_table (hd : s.Settled d) (hi : i < pagedirSize) (hne : s.word d i ≠ 0)
    (h : ∀ p, Aligned p → p ≠ s.table d i → ∀ j < pagedirSize, s'.word p j = s.word p j)
    (hfree : ∀ p, s'.Free p → s.Free p) : Changes s s' d := by
  have hword := h d hd.aligned (hd.table_ne i hi hne).symm
  have htable : ∀ j < pagedirSize, s'.table d j = s.table d j :=
    fun j hj => congrArg (· &&& ~~~0xFFF#32) (hword j hj)
  have hholds : ∀ p, s'.Holds d p ↔ s.Holds d p := by
    intro p
    refine or_congr Iff.rfl (exists_congr fun j => and_congr_right fun hj => ?_)
    rw [htable j hj, hword j hj]
  refine ⟨fun p hp hout _ => h p hp ?_, fun p hp => .inl ((hholds p).1 hp), hfree,
    hd.aligned, fun j hj hj0 => ?_, fun p hp hf => hd.not_free p ((hholds p).1 hp) (hfree p hf)⟩
  · rintro rfl
    exact hout (.inr ⟨i, hi, hne, rfl⟩)
  · rw [hword j hj] at hj0
    rw [htable j hj]
    exact hd.table_ne j hj hj0

theorem setWord_changes (hd : s.Settled d) (hi : i < pagedirSize) (hne : s.word d i ≠ 0)
    (hk : k < pagedirSize) (w : Word) : Changes s (s.setWord (s.table d i) k w) d := by
  refine changes_of_table hd hi hne (fun p hp hpt j hj => ?_) fun _ hf => hf
  rw [word_setWord aligned_table hp hk hj, if_neg fun h => hpt h.1]

theorem Changes.refl (hd : s.Settled d) : Changes s s d :=
  ⟨fun _ _ _ _ _ _ => rfl, fun _ hp => .inl hp, fun _ hp => hp, hd⟩

theorem Changes.trans (h1 : Changes s1 s2 d) (h2 : Changes s2 s3 d) :
    Changes s1 s3 d where
  word := by
    intro p hp hout hfree j hj
    rw [h2.word p hp (fun hin => (h1.holds p hin).elim hout hfree) (fun hf => hfree (h1.free p hf)) j
      hj, h1.word p hp hout hfree j hj]
  holds := by
    intro p hp
    rcases h2.holds p hp with hp | hp
    · exact h1.holds p hp
    · exact .inr (h1.free p hp)
  free := fun p hp => h1.free p (h2.free p hp)
  settled := h2.settled

theorem ensureTable_cases (virt flags : Word) (hd : s.Settled d) :
    (s.word d (dirIndex virt) ≠ 0 ∧ ensureTable d virt flags s = (true, s)) ∨
    s.word d (dirIndex virt) = 0 ∧
      ((ensureTable d virt flags s = (false, s) ∧ ∀ b < maxBlocks, bit s.bitmap b = true) ∨
      ∃ b s', ensureTable d virt flags s = (true, s') ∧
        NewTable s s' d (dirIndex virt) b flags) := by
  by_cases hzero : s.word d (dirIndex virt) = 0
  · rw [ensureTable, if_pos hzero]
    exact .inr ⟨hzero, vmmCreatePageTable_cases virt flags hd.aligned (hd.not_free d (.inl rfl))⟩
  · rw [ensureTable, if_neg hzero]
    exact .inl ⟨hzero, rfl⟩

theorem ensureTable_changes (virt : Word) (hd : s.Settled d) (hflags : flags.toNat < pageSize) :
    Changes s (ensureTable d virt flags s).2 d ∧
      ((ensureTable d virt flags s).1 = true →
        (ensureTable d virt flags s).2.word d (dirIndex virt) ≠ 0) := by
  rcases ensureTable_cases virt flags hd with ⟨hne, heq⟩ | ⟨-, ⟨heq, -⟩ | ⟨b, s', heq, hnew⟩⟩
  · rw [heq]
    exact ⟨.refl hd, fun _ => hne⟩
  · rw [heq]
    exact ⟨.refl hd, fun h => by cases h⟩
  · rw [heq]
    exact ⟨hnew.changes hd hflags, fun _ => hnew.entry_ne_zero⟩

theorem vmmMapPhys_changes (virt phys : Word) (hd : s.Settled d) (hflags : flags.toNat < pageSize) :
    Changes s (vmmMapPhys d virt phys flags s).2 d := by
  obtain ⟨hchange, hentry⟩ := ensureTable_changes virt hd hflags
  rw [vmmMapPhys]
  split
  · next hok =>
    exact hchange.trans (setWord_changes hchange.settled dirIndex_lt (hentry hok) tableIndex_lt _)
  · exact hchange

theorem vmmUnmapPhys_changes (hd : s.Settled d) : Changes s (vmmUnmapPhys d virt s) d := by
  unfold vmmUnmapPhys
  split
  · next hne => exact setWord_changes hd dirIndex_lt hne tableIndex_lt 0
  · exact .refl hd

namespace Kept
variable (h : Kept s s' d) (hd : s.Settled d)

include h hd

theorem dir_eq (hj : j < pagedirSize) : s'.word d j = s.word d j :=
  h.word d (.inl rfl) hd.aligned j hj

theorem table_eq (hj : j < pagedirSize) : s'.table d j = s.table d j := by
  rw [table, h.dir_eq hd hj]
  rfl

theorem holds_iff : s'.Holds d p ↔ s.Holds d p := by
  refine or_congr Iff.rfl (exists_congr fun j => and_congr_right fun hj => ?_)
  rw [h.table_eq hd hj, h.dir_eq hd hj]

theorem tableWord_eq (hj : j < pagedirSize) (hne : s.word d j ≠ 0)
    (hk : k < pagedirSize) : s'.word (s'.table d j) k = s.word (s.table d j) k := by
  rw [h.table_eq hd hj, h.word _ (.inr ⟨j, hj, hne, rfl⟩) aligned_table k hk]

theorem getPhysAddr_eq (virt : Word) : getPhysAddr s' d virt = getPhysAddr s d virt := by
  rw [getPhysAddr, getPhysAddr, h.dir_eq hd dirIndex_lt]
  split
  · rfl
  · next hne => rw [h.tableWord_eq hd dirIndex_lt hne tableIndex_lt]

theorem settled : s'.Settled d where
  aligned := hd.aligned
  table_ne := by
    intro i hi hne
    rw [h.dir_eq hd hi] at hne
    rw [h.table_eq hd hi]
    exact hd.table_ne i hi hne
  not_free := fun p hp hfree => hd.not_free p ((h.holds_iff hd).1 hp) (h.free p hfree)

end Kept

theorem Changes.kept (h : Changes s s' d) (hd' : s.Settled d') (hapart : s.Apart d d') :
    Kept s s' d' where
  word := fun p hp ha => h.word p ha (fun hin => hapart p hin hp) (hd'.not_free p hp)
  free := h.free

theorem Changes.apart (h : Changes s s' d) (hd' : s.Settled d') (hapart : s.Apart d d') : s'.Apart d d' := by
  intro p hp hp'
  rw [(h.kept hd' hapart).holds_iff hd'] at hp'
  rcases h.holds p hp with hin | hfree
  · exact hapart p hin hp'
  · exact hd'.not_free p hp' hfree

theorem Paging.Apart.symm (h : s.Apart d d') : s.Apart d' d := fun p hp hp' => h p hp' hp

theorem Paging.Apart.of_kept (h : s.Apart d d') (hd : s.Settled d) (hd' : s.Settled d')
    (hk : Kept s s' d) (hk' : Kept s s' d') : s'.Apart d d' := fun p hp hp' =>
  h p ((hk.holds_iff hd).1 hp) ((hk'.holds_iff hd').1 hp')

/-- A free block was taken as an empty directory. -/
structure NewPage (s s' : Paging) (d : Word) : Prop where
  isFree : s.Free d
  zero : ∀ i < pagedirSize, s'.word d i = 0
  word : ∀ p, Aligned p → p ≠ d → ∀ j < pagedirSize, s'.word p j = s.word p j
  free_iff : ∀ p, s'.Free p ↔ s.Free p ∧ p ≠ d

theorem pageTableMalloc_newPage (h : pageTableMalloc s = (some d, s')) : NewPage s s' d := by
  rcases pageTableMalloc_cases s with ⟨heq, -⟩ | ⟨b, hb, hclear, heq⟩
  · rw [heq] at h
    cases h
  · rw [heq, Prod.mk.injEq, Option.some.injEq] at h
    obtain ⟨rfl, rfl⟩ := h
    have ha := aligned_blockAddr hb
    refine ⟨⟨b, hb, hclear, rfl⟩, fun i hi => ?_, fun p hp hne j hj => ?_, fun p => ⟨?_, ?_⟩⟩
    · rw [word_clearPage ha ha hi, if_pos rfl]
    · rw [word_clearPage ha hp hj, if_neg hne]
      rfl
    · rintro ⟨c, hc, hclear', rfl⟩
      have hset : bit (set s.bitmap b) c = false := hclear'
      rw [bit_set, Bool.or_eq_false_iff, decide_eq_false_iff_not] at hset
      exact ⟨⟨c, hc, hset.1, rfl⟩, fun heq => hset.2 (blockAddr_inj hc hb heq)⟩
    · rintro ⟨⟨c, hc, hclear', rfl⟩, hne⟩
      refine ⟨c, hc, ?_, rfl⟩
      show bit (set s.bitmap b) c = false
      rw [bit_set, hclear', Bool.false_or, decide_eq_false_iff_not]
      rintro rfl
      exact hne rfl

namespace NewPage
variable (h : NewPage s s' d)

include h

theorem aligned : Aligned d := by
  obtain ⟨b, hb, -, rfl⟩ := h.isFree
  exact aligned_blockAddr hb

theorem holds_iff : s'.Holds d p ↔ p = d := by
  refine ⟨?_, .inl⟩
  rintro (rfl | ⟨i, hi, hne, -⟩)
  · rfl
  · exact absurd (h.zero i hi) hne

theorem settled : s'.Settled d where
  aligned := h.aligned
  table_ne := fun i hi hne => absurd (h.zero i hi) hne
  not_free := fun p hp hfree => ((h.free_iff p).1 hfree).2 (h.holds_iff.1 hp)

theorem ne_of_holds (hd' : s.Settled d') (hp : s.Holds d' p) : p ≠ d := fun heq =>
  hd'.not_free p hp (heq ▸ h.isFree)

theorem kept (hd' : s.Settled d') : Kept s s' d' where
  word := fun p hp ha => h.word p ha (h.ne_of_holds hd' hp)
  free := fun p hp => ((h.free_iff p).1 hp).1

theorem apart (hd' : s.Settled d') : s'.Apart d d' := fun _ hp hp' =>
  h.ne_of_holds hd' (((h.kept hd').holds_iff hd').1 hp') (h.holds_iff.1 hp)

end NewPage

end HeisenKernel.Vmm
