import HeisenKernel.VirtualMemory.Pages

/-!
# The heap of the contexts

`ContextHeap` (`lib/src/gui/contextheap.cpp`) reserves areas of virtual memory for contexts, in
blocks of 4 KB from `0xA0000000` on, with one bit for each block.
-/

namespace HeisenKernel.Gui

open Lib Bitmap List

namespace ContextHeap

/-- `startAddress` (`contextheap.cpp:13`). -/
def startAddress : Nat := 0xA0000000

/-- `endAddress` (`contextheap.cpp:14`). -/
def endAddress : Nat := 0xAB000000

/-- `blockCount` (`contextheap.cpp:64`). -/
def blockCount : Nat := (endAddress - startAddress) / 0x1000

/-- `ARRAY_ENTRIES` (`contextheap.cpp:10`). -/
def arrayEntries : Nat := blockCount / 8 / 4

/-- `memoryBitmap` (`contextheap.cpp:16`), with the words that lie behind it. -/
abbrev Words := Nat → BitVec 32

/-- `ContextHeap::Init` (`contextheap.cpp:61`). -/
def init (behind : Words) : Words := fun i => if i < arrayEntries then 0#32 else behind i

/-- `FirstFreeSize` (`contextheap.cpp:36`), with `none` for the `-1` of the source. -/
def firstFreeSize (size : Nat) (w : Words) : Option Nat :=
  findClear w arrayEntries fun startingBit =>
    enough (fun count => !bit w (u32 (startingBit + count))) size (size + 1) 0 0

/-- The blocks of a loop over `i < blocks`. -/
def blocksFrom (frame blocks : Nat) : List Nat := (List.range blocks).map fun i => u32 (frame + i)

/-- `ContextHeap::AllocateArea` (`contextheap.cpp:72`): the address, or 0. -/
def allocateArea (blocks : Nat) (w : Words) : Nat × Words :=
  match firstFreeSize blocks w with
  | none => (0, w)
  | some frame => (u32 (startAddress + frame * 0x1000), (blocksFrom frame blocks).foldl set w)

/-- `ContextHeap::FreeArea` (`contextheap.cpp:88`). -/
def freeArea (addr blocks : Nat) (w : Words) : Words :=
  (blocksFrom (sub32 addr startAddress / 0x1000) blocks).foldl unset w

/-- There is a block that is free and has `n` free ones among itself and the `n` behind it. -/
def HasRoom (w : Words) (n : Nat) : Prop :=
  0 < n ∧ ∃ b < blockCount, bit w b = false ∧ n ≤ Nat.count (fun k => bit w (u32 (b + k)) = false) (n + 1)

theorem arrayEntries_mul : arrayEntries * 32 = blockCount := by decide

theorem enough_window_iff (hn : 0 < n) :
    enough (fun count => !bit w (u32 (b + count))) n (n + 1) 0 0 = true ↔
      n ≤ Nat.count (fun k => bit w (u32 (b + k)) = false) (n + 1) := by
  rw [enough_iff _ _ _ hn]
  simp only [zero_add, Bool.not_eq_true']

theorem firstFreeSize_eq_none_iff : firstFreeSize n w = none ↔ ¬HasRoom w n := by
  rw [firstFreeSize, findClear_eq_none_iff, arrayEntries_mul]
  rcases Nat.eq_zero_or_pos n with rfl | hn
  · refine ⟨fun _ hroom => absurd hroom.1 (lt_irrefl 0), fun _ b hb hclear => ?_⟩
    have hlt : u32 (b + 0) = b := u32_eq (lt_trans hb (by decide))
    simp only [enough, hlt, hclear]
    rfl
  · constructor
    · rintro h ⟨-, b, hb, hclear, hcount⟩
      have hfalse := h b hb hclear
      rw [(enough_window_iff hn).2 hcount] at hfalse
      cases hfalse
    · intro h b hb hclear
      refine Bool.eq_false_iff.2 fun htrue => h ⟨hn, b, hb, hclear, (enough_window_iff hn).1 htrue⟩

theorem firstFreeSize_eq_some (h : firstFreeSize n w = some b) :
    0 < n ∧ b < blockCount ∧ bit w b = false := by
  refine ⟨Nat.pos_of_ne_zero ?_, ?_⟩
  · rintro rfl
    have hnone : firstFreeSize 0 w = none := firstFreeSize_eq_none_iff.2 fun hroom => absurd hroom.1 (by decide)
    rw [hnone] at h
    cases h
  · obtain ⟨hlt, hclear, -⟩ := findClear_eq_some_iff.1 h
    exact ⟨arrayEntries_mul ▸ hlt, hclear.1⟩

theorem firstFreeSize_of_stacked (hn : 0 < n) (hfit : used + n ≤ blockCount)
    (hbits : ∀ b < blockCount, bit w b = decide (b < used)) : firstFreeSize n w = some used := by
  have hcount : blockCount < 2 ^ 32 := by decide
  have hfree : ∀ k < n, bit w (u32 (used + k)) = false := by
    intro k hk
    rw [u32_eq (by omega), hbits _ (by omega)]
    exact decide_eq_false (by omega)
  rw [firstFreeSize, findClear_eq_some_iff, arrayEntries_mul]
  refine ⟨by omega, ⟨?_, (enough_window_iff hn).2 ?_⟩, fun a ha hclear => ?_⟩
  · rw [hbits _ (by omega)]
    exact decide_eq_false (lt_irrefl used)
  · calc n = Nat.count (fun k => bit w (u32 (used + k)) = false) n :=
          (Nat.count_iff_forall.2 hfree).symm
      _ ≤ _ := Nat.count_monotone _ (Nat.le_succ n)
  · rw [hbits _ (by omega), decide_eq_false_iff_not] at hclear
    exact absurd ha hclear

theorem mem_blocksFrom (h : frame + n ≤ 2 ^ 32) : b ∈ blocksFrom frame n ↔ frame ≤ b ∧ b < frame + n :=
  mem_map_u32 h

theorem address_eq (h : b < blockCount) :
    u32 (startAddress + b * 0x1000) = startAddress + b * 0x1000 ∧
      startAddress + b * 0x1000 + 0x1000 ≤ endAddress := by
  have hcount : blockCount = 45056 := by decide
  have hstart : startAddress = 0xA0000000 := rfl
  have hend : endAddress = 0xAB000000 := rfl
  refine ⟨u32_eq ?_, ?_⟩ <;> omega

theorem allocateArea_of_none (h : firstFreeSize n w = none) : allocateArea n w = (0, w) := by
  unfold allocateArea
  simp only [h]

theorem allocateArea_of_some (h : firstFreeSize n w = some b) :
    allocateArea n w = (u32 (startAddress + b * 0x1000), (blocksFrom b n).foldl set w) := by
  unfold allocateArea
  simp only [h]

theorem bit_allocateArea (h : bit w b = true) : bit (allocateArea n w).2 b = true := by
  unfold allocateArea
  split
  · exact h
  · rw [bit_foldl_set, h]
    rfl

theorem allocateArea_ne (h : HasRoom w n) : (allocateArea n w).2 ≠ w := by
  cases hfirst : firstFreeSize n w with
  | none => exact absurd h (firstFreeSize_eq_none_iff.1 hfirst)
  | some frame =>
    obtain ⟨hn, hlt, hclear⟩ := firstFreeSize_eq_some hfirst
    have hcount : blockCount < 2 ^ 32 := by decide
    have hmem : frame ∈ blocksFrom frame n := mem_map.2 ⟨0, mem_range.2 hn, u32_eq (lt_trans hlt hcount)⟩
    intro heq
    have hset : bit (allocateArea n w).2 frame = true := by
      rw [allocateArea_of_some hfirst, bit_foldl_set, decide_eq_true hmem, Bool.or_true]
    rw [heq, hclear] at hset
    cases hset

theorem bit_init (h : b < blockCount) : bit (init behind) b = false := by
  have hword : b / 32 < arrayEntries := by
    have := arrayEntries_mul
    omega
  rw [bit, init, if_pos hword]
  exact BitVec.getLsbD_zero

end ContextHeap

end HeisenKernel.Gui
