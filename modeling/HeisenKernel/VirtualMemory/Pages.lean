import HeisenKernel.VirtualMemory
import HeisenKernel.PhysicalMemory.AllocateBlock

/-!
# Pages of a directory

What the calls on pages do below `PAGE_TABLE_ADDRESS` when the directory names itself in its last
entry (`SelfMapped`): `GetPageForAddress` finds the table that the directory has for the address, or
puts a new one there (`getPageForAddress_eq`); `FreePage` gives back the frame of the entry and
clears its present bit (`freeAddress_eq`).
-/

namespace HeisenKernel

open Function List Nat

/-- `PAGE_TABLE_ADDRESS` (`virtualmemory.h:35`). -/
def pageTableAddress : Nat := 0xFFC00000

theorem block_div (b : Nat) : b * blockSize / pageSize = b := Nat.mul_div_cancel _ (by decide)

theorem and_mask_eq (h : a < 2 ^ 32) : a &&& 0xFFFFF000 = a / pageSize * pageSize := by
  refine eq_of_testBit_eq fun i => ?_
  rw [show (0xFFFFF000 : Nat) = (2 ^ 20 - 1) * 2 ^ 12 by decide, show pageSize = 2 ^ 12 from rfl,
    testBit_and, testBit_mul_two_pow, testBit_mul_two_pow, testBit_div_two_pow,
    testBit_two_pow_sub_one]
  by_cases hi : 12 ≤ i
  · by_cases hhigh : i < 32
    · have : i - 12 < 20 := by omega
      simp [hi, this]
    · have hfalse : a.testBit i = false :=
        Nat.testBit_lt_two_pow (h.trans_le (Nat.pow_le_pow_right (by decide) (by omega)))
      simp [hi, hfalse]
  · simp [hi]

theorem pageRoundUp_eq (h : a + pageSize ≤ 2 ^ 32) :
    pageRoundUp a = (a + (pageSize - 1)) / pageSize * pageSize := by
  simp only [pageSize] at h
  unfold pageRoundUp
  rw [and_mask_eq (by omega)]
  split
  · next hne =>
    simp only [pageSize] at hne ⊢
    rw [u32_eq] <;> omega
  · next heq =>
    simp only [pageSize, ne_eq, not_not] at heq ⊢
    omega

/-- The addresses that `for(uint32_t i = start; i < stop; i += PAGE_SIZE)` visits. -/
def pages (start stop : Nat) : List Nat :=
  (List.range ((stop - start + (pageSize - 1)) / pageSize)).map (start + · * pageSize)

theorem mem_pages : a ∈ pages start stop ↔ ∃ k, a = start + k * pageSize ∧ a < stop := by
  simp only [pages, mem_map, mem_range, pageSize]
  constructor
  · rintro ⟨k, hk, rfl⟩
    exact ⟨k, rfl, by omega⟩
  · rintro ⟨k, rfl, hlt⟩
    exact ⟨k, by omega, rfl⟩

theorem length_pages (start stop : Nat) :
    (pages start stop).length = (stop - start + (pageSize - 1)) / pageSize := by simp [pages]

theorem pages_of_le (h : stop ≤ start) : pages start stop = [] := by
  rw [← length_eq_zero_iff, length_pages]
  simp only [pageSize]
  omega

theorem pages_of_lt (h : start < stop) : pages start stop = start :: pages (start + pageSize) stop := by
  have hn : (stop - start + (pageSize - 1)) / pageSize =
      (stop - (start + pageSize) + (pageSize - 1)) / pageSize + 1 := by
    simp only [pageSize]
    omega
  rw [pages, hn, range_succ_eq_map, map_cons, map_map, pages]
  refine congrArg₂ _ (by omega) (map_congr_left fun k _ => ?_)
  simp only [comp_apply, pageSize]
  omega

theorem forPages_eq (body : σ → Nat → Exec σ)
    (hstop : stop + pageSize ≤ 2 ^ 32) (fuel start : Nat) (hfuel : (pages start stop).length < fuel)
    (s : σ) : forPages body stop fuel start s = (pages start stop).foldlM body s := by
  induction fuel generalizing start s with
  | zero => omega
  | succ fuel ih =>
    unfold forPages
    split
    · next hlt =>
      have hnext : u32 (start + pageSize) = start + pageSize := by
        refine u32_eq ?_
        simp only [pageSize] at hstop ⊢
        omega
      rw [pages_of_lt hlt] at hfuel ⊢
      rw [foldlM_cons, hnext]
      rw [length_cons] at hfuel
      exact congrArg (body s start >>= ·) (funext (ih _ (lt_of_succ_lt_succ hfuel)))
    · next hle =>
      rw [pages_of_le (by omega)]
      rfl

theorem length_pages_lt (hstop : stop + pageSize ≤ 2 ^ 32) : (pages start stop).length < 2 ^ 20 + 1 := by
  rw [length_pages]
  simp only [pageSize] at hstop ⊢
  omega

theorem pageDirIndex_lt (h : addr < pageTableAddress) : pageDirIndex addr < 1023 := by
  simp only [pageTableAddress, pageDirIndex] at h ⊢
  omega

namespace VirtualMemory

variable {v : VirtualMemory} {d addr : Nat}

theorem entries_setEntry (table index : Nat) (e : PageEntry) (t i : Nat) :
    (v.setEntry table index e).entries t i =
      if t = table ∧ i = index then e else v.entries t i := by
  simp only [setEntry, update_apply]
  by_cases ht : t = table
  · subst ht
    simp [update_apply]
  · simp [ht]

/-- The last entry of a directory is the directory itself. -/
structure SelfMapped (v : VirtualMemory) (d : Nat) : Prop where
  present : (v.entries d 1023).present = true
  frame : (v.entries d 1023).frame = d

theorem pageTableFrame_eq (h : v.SelfMapped (v.cr3 / pageSize)) (number : Nat) :
    v.pageTableFrame number = if (v.entries (v.cr3 / pageSize) number).present then
      .ok (v.entries (v.cr3 / pageSize) number).frame else .error .panic := by
  unfold pageTableFrame
  rw [if_pos h.present, h.frame]

theorem modifyPage_eq (h : v.SelfMapped (v.cr3 / pageSize)) (page : PagePtr)
    (hp : (v.entries (v.cr3 / pageSize) page.table).present = true) (f : PageEntry → PageEntry) :
    v.modifyPage page f = .ok (v.setEntry (v.entries (v.cr3 / pageSize) page.table).frame page.index
      (f (v.entries (v.entries (v.cr3 / pageSize) page.table).frame page.index))) := by
  unfold modifyPage
  rw [pageTableFrame_eq h, if_pos hp]
  rfl

/-- The memory with a new page table for the current directory in `frame`. -/
def withTable (v : VirtualMemory) (manager : PhysicalMemoryManager) (pageTables : List Nat)
    (number frame : Nat) (readWrite userPages : Bool) : VirtualMemory :=
  { v with
    manager := manager
    pageTables := pageTables
    entries := Function.update
      (Function.update v.entries (v.cr3 / pageSize)
        (Function.update (v.entries (v.cr3 / pageSize)) number ⟨true, readWrite, userPages, frame⟩))
      frame fun _ => .zero }

theorem entries_withTable (manager : PhysicalMemoryManager) (tables : List Nat) (number frame : Nat)
    (rw user : Bool) (t i : Nat) :
    (v.withTable manager tables number frame rw user).entries t i =
      if t = frame then .zero
      else if t = v.cr3 / pageSize ∧ i = number then ⟨true, rw, user, frame⟩ else v.entries t i := by
  simp only [withTable, update_apply]
  by_cases hframe : t = frame
  · simp [hframe]
  · by_cases hd : t = v.cr3 / pageSize
    · subst hd
      simp [hframe, update_apply]
    · simp [hframe, hd]

theorem getPageForAddress_present (h : v.SelfMapped (v.cr3 / pageSize))
    (hp : (v.entries (v.cr3 / pageSize) (pageDirIndex addr)).present = true)
    (shouldCreate readWrite userPages : Bool) :
    v.getPageForAddress addr shouldCreate readWrite userPages =
      .ok (⟨pageDirIndex addr, pageTableIndex addr⟩, v) := by
  unfold getPageForAddress
  rw [pageTableFrame_eq h, if_pos h.present, h.frame, bind_of_ok rfl, if_neg (by simp [hp])]

theorem getPageForAddress_absent (h : v.SelfMapped (v.cr3 / pageSize)) (haddr : addr < pageTableAddress)
    (hp : (v.entries (v.cr3 / pageSize) (pageDirIndex addr)).present = false)
    (readWrite userPages : Bool) :
    v.getPageForAddress addr true readWrite userPages =
      .ok (⟨pageDirIndex addr, pageTableIndex addr⟩, v.withTable v.manager.allocateBlock.2
        (if v.manager.allocateBlock.1 = 0 then v.pageTables
          else v.manager.allocateBlock.1 / pageSize :: v.pageTables)
        (pageDirIndex addr) (v.manager.allocateBlock.1 / pageSize) readWrite userPages) := by
  have hne : (1023 : Nat) ≠ pageDirIndex addr := (pageDirIndex_lt haddr).ne'
  unfold getPageForAddress
  rw [pageTableFrame_eq h, if_pos h.present, h.frame, bind_of_ok rfl, if_pos ⟨hp, rfl⟩]
  simp only [setEntry]
  rw [pageTableFrame_eq ⟨by simp [hne, h.present], by simp [hne, h.frame]⟩]
  simp [withTable, bind_of_ok]

theorem freeAddress_eq (h : v.SelfMapped (v.cr3 / pageSize))
    (hp : (v.entries (v.cr3 / pageSize) (pageDirIndex addr)).present = true) :
    v.freeAddress addr =
      let table := (v.entries (v.cr3 / pageSize) (pageDirIndex addr)).frame
      let e := v.entries table (pageTableIndex addr)
      .ok ((v.releaseFrame e.frame).setEntry table (pageTableIndex addr) { e with present := false }) := by
  have hentries : ∀ f, (v.releaseFrame f).entries = v.entries := fun f => by
    unfold releaseFrame
    split <;> rfl
  have hcr3 : ∀ f, (v.releaseFrame f).cr3 = v.cr3 := fun f => by
    unfold releaseFrame
    split <;> rfl
  unfold freeAddress
  rw [getPageForAddress_present h hp, bind_of_ok rfl]
  simp only [freePage, readPage]
  rw [pageTableFrame_eq h, if_pos hp, bind_of_ok rfl, bind_of_ok rfl, modifyPage_eq]
  · simp only [hentries, hcr3]
  · exact ⟨by rw [hentries, hcr3]; exact h.present, by rw [hentries, hcr3]; exact h.frame⟩
  · rw [hentries, hcr3]
    exact hp

end VirtualMemory

end HeisenKernel
