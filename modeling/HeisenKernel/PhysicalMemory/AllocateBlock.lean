import HeisenKernel.PhysicalMemory
import HeisenKernel.Lib.Run

/-!
# Allocation of single blocks

`FirstFree` looks at `TotalBlocks()` words, most of which lie behind the bitmap.
-/

namespace HeisenKernel

open Lib Nat Finset

namespace PhysicalMemoryManager

/-- Block 0 is in use, and `usedBlocks` is the number of blocks of the machine that are. -/
structure Counted (m : PhysicalMemoryManager) : Prop where
  small : m.maximumBlocks ≤ 2 ^ 20
  first : m.testBit 0 = true
  count : m.usedBlocks = Nat.count (fun b => m.testBit b = true) m.maximumBlocks

variable {m : PhysicalMemoryManager} {b : Nat}

theorem Counted.usedBlocks_le (h : m.Counted) : m.usedBlocks ≤ m.maximumBlocks :=
  h.count ▸ count_le _

theorem Counted.freeBlockCount_eq (h : m.Counted) : m.freeBlockCount = m.maximumBlocks - m.usedBlocks :=
  sub32_eq (by have := h.small; omega) h.usedBlocks_le

theorem Counted.freeBlockCount_eq_zero (h : m.Counted) :
    m.freeBlockCount = 0 ↔ ∀ b < m.maximumBlocks, m.testBit b = true := by
  rw [h.freeBlockCount_eq, ← count_iff_forall, ← h.count]
  have := h.usedBlocks_le
  omega

theorem firstFree_eq (hb : b < m.maximumBlocks) (hfree : m.testBit b = false)
    (hmin : ∀ a < b, m.testBit a = true) : m.firstFree = b := by
  have hfind : (List.range (m.maximumBlocks * 32)).find? (fun b => !m.testBit b && true) = some b := by
    rw [List.find?_range_eq_some]
    refine ⟨by simp [hfree], mem_range.2 (by omega), fun a ha => ?_⟩
    simp [hmin a ha]
  rw [firstFree, firstAccepted_eq, hfind]
  rfl

/-- Block 0 is in use, and `usedBlocks` is at least the number of blocks of the machine that are: what
is left of `Counted` when `AllocateBlocks` has counted a block twice. -/
structure Covered (m : PhysicalMemoryManager) : Prop where
  small : m.maximumBlocks ≤ 2 ^ 20
  first : m.testBit 0 = true
  count_le : Nat.count (fun b => m.testBit b = true) m.maximumBlocks ≤ m.usedBlocks
  usedBlocks_le : m.usedBlocks ≤ m.maximumBlocks

theorem Counted.covered (h : m.Counted) : m.Covered :=
  ⟨h.small, h.first, h.count.ge, h.usedBlocks_le⟩

theorem Covered.allocateBlock (h : m.Covered) :
    m.usedBlocks = m.maximumBlocks ∧ m.allocateBlock = (0, m) ∨ m.usedBlocks < m.maximumBlocks ∧
    ∃ b, 0 < b ∧ b < m.maximumBlocks ∧ m.testBit b = false ∧ (∀ a < b, m.testBit a = true) ∧
      m.allocateBlock = (b * blockSize, { m.setBit b with usedBlocks := m.usedBlocks + 1 }) := by
  have hsmall := h.small
  have hused := h.usedBlocks_le
  have hcount : m.freeBlockCount = m.maximumBlocks - m.usedBlocks := sub32_eq (by omega) hused
  by_cases hfull : m.usedBlocks = m.maximumBlocks
  · refine .inl ⟨hfull, ?_⟩
    rw [PhysicalMemoryManager.allocateBlock, if_pos (by omega)]
  · have hexists : ∃ b, b < m.maximumBlocks ∧ m.testBit b = false := by
      have hne : count (fun b => m.testBit b = true) m.maximumBlocks ≠ m.maximumBlocks := by
        have := h.count_le
        omega
      rw [Ne, count_iff_forall] at hne
      simpa using hne
    obtain ⟨hlt, hfree⟩ := Nat.find_spec hexists
    have hmin : ∀ a < Nat.find hexists, m.testBit a = true := by
      intro a ha
      have hnot := Nat.find_min hexists ha
      simpa [ha.trans hlt] using hnot
    have hpos : 0 < Nat.find hexists := by
      refine Nat.pos_of_ne_zero fun h0 => ?_
      rw [h0, h.first] at hfree
      cases hfree
    refine .inr ⟨by omega, Nat.find hexists, hpos, hlt, hfree, hmin, ?_⟩
    have hframe := firstFree_eq hlt hfree hmin
    rw [PhysicalMemoryManager.allocateBlock, if_neg (by omega), hframe, if_neg, u32_eq, u32_eq]
    · omega
    · simp only [blockSize]
      omega
    · simp only [noFrame]
      omega

theorem Counted.allocateBlock (h : m.Counted) :
    (∀ b < m.maximumBlocks, m.testBit b = true) ∧ m.allocateBlock = (0, m) ∨
    ∃ b, 0 < b ∧ b < m.maximumBlocks ∧ m.testBit b = false ∧ (∀ a < b, m.testBit a = true) ∧
      m.allocateBlock = (b * blockSize, { m.setBit b with usedBlocks := m.usedBlocks + 1 }) := by
  refine h.covered.allocateBlock.imp (fun ⟨hfull, he⟩ => ⟨?_, he⟩) And.right
  rw [← h.freeBlockCount_eq_zero, h.freeBlockCount_eq, hfull, Nat.sub_self]

theorem count_setBit_le (n : Nat) : count (fun a => (m.setBit b).testBit a = true) n ≤
    count (fun a => m.testBit a = true) n + 1 := by
  rw [count_eq_card_filter_range, count_eq_card_filter_range]
  have hsub : (range n).filter (fun a => (m.setBit b).testBit a = true) ⊆
      insert b ((range n).filter fun a => m.testBit a = true) := by
    intro a ha
    simp only [mem_insert, mem_filter, testBit_setBit, Bool.or_eq_true,
      decide_eq_true_eq] at ha ⊢
    rcases ha with ⟨hlt, hset | rfl⟩
    · exact .inr ⟨hlt, hset⟩
    · exact .inl rfl
  exact (card_le_card hsub).trans (card_insert_le _ _)

theorem Covered.mark (h : m.Covered) (hlt : m.usedBlocks < m.maximumBlocks) :
    Covered { m.setBit b with usedBlocks := m.usedBlocks + 1 } where
  small := h.small
  first := (testBit_setBit b 0).trans (by rw [h.first, Bool.true_or])
  count_le := (count_setBit_le m.maximumBlocks).trans (succ_le_succ h.count_le)
  usedBlocks_le := hlt

theorem Counted.mark (h : m.Counted) (hb : b < m.maximumBlocks) (hfree : m.testBit b = false) :
    Counted { m.setBit b with usedBlocks := m.usedBlocks + 1 } := by
  have hbit : ∀ a, testBit { m.setBit b with usedBlocks := m.usedBlocks + 1 } a =
      (m.testBit a || decide (a = b)) := fun a => testBit_setBit b a
  refine ⟨h.small, by rw [hbit, h.first]; rfl, ?_⟩
  simp only [hbit, Bool.or_eq_true, decide_eq_true_eq]
  rw [h.count]
  exact (Bitmap.count_insert hb (by simp [hfree]) (.inr rfl) fun k hk => by simp [hk]).symm

theorem Counted.freeBlock (h : m.Counted) (hpos : 0 < b) (hb : b < m.maximumBlocks)
    (hused : m.testBit b = true) : (m.freeBlock (b * blockSize)).Counted := by
  have hdiv : b * blockSize / blockSize = b := Nat.mul_div_cancel _ (by decide)
  have hbit : ∀ a, (m.freeBlock (b * blockSize)).testBit a = (m.testBit a && !decide (a = b)) := by
    intro a
    unfold PhysicalMemoryManager.freeBlock
    rw [hdiv]
    exact testBit_unsetBit b a
  have hcount : Nat.count (fun a => m.testBit a = true) m.maximumBlocks =
      Nat.count (fun a => (m.freeBlock (b * blockSize)).testBit a = true) m.maximumBlocks + 1 := by
    refine Bitmap.count_insert hb ?_ hused fun k hk => ?_
    · simp [hbit]
    · simp [hbit, hk]
  have hle := h.usedBlocks_le
  have hsmall := h.small
  refine ⟨h.small, ?_, ?_⟩
  · have hne : (0 : Nat) ≠ b := by omega
    simp [hbit, h.first, hne]
  · show sub32 m.usedBlocks 1 = _
    rw [sub32_eq (by omega) (by rw [h.count, hcount]; omega), h.count, hcount]
    rfl

end PhysicalMemoryManager

open PhysicalMemoryManager

/-- A manager with the addresses of the blocks handed out and not yet freed. -/
structure FrameOwners where
  manager : PhysicalMemoryManager
  live : List Nat

/-- The calls, and what the rest of the kernel writes into the words behind the bitmap. -/
inductive FrameRequest where
  | allocate
  | free (ptr : Nat)
  | other (memory : Nat → BitVec 32)

namespace FrameOwners

/-- One request. Only blocks that were handed out and not yet freed are freed. -/
inductive Step : FrameOwners → FrameRequest → FrameOwners → Prop
  | allocate {o : FrameOwners} :
      Step o .allocate ⟨o.manager.allocateBlock.2,
        if o.manager.allocateBlock.1 = 0 then o.live else o.manager.allocateBlock.1 :: o.live⟩
  | free {o : FrameOwners} {ptr : Nat} :
      ptr ∈ o.live → Step o (.free ptr) ⟨o.manager.freeBlock ptr, o.live.erase ptr⟩
  | other {o : FrameOwners} {memory : Nat → BitVec 32} :
      (∀ b < o.manager.maximumBlocks,
        testBit { o.manager with memoryArray := memory } b = o.manager.testBit b) →
      testBit { o.manager with memoryArray := memory } 0 = true →
      Step o (.other memory) { o with manager := { o.manager with memoryArray := memory } }

/-- The bits are counted, and the blocks handed out are marked blocks of the machine. -/
structure Inv (o : FrameOwners) : Prop where
  counted : o.manager.Counted
  nodup : o.live.Nodup
  marked : ∀ p ∈ o.live, ∃ b, p = b * blockSize ∧ 0 < b ∧ b < o.manager.maximumBlocks ∧
    o.manager.testBit b = true

variable {o o' : FrameOwners} {r : FrameRequest}

theorem Inv.not_mem (h : o.Inv) (hfree : o.manager.testBit b = false) : b * blockSize ∉ o.live := by
  intro hmem
  obtain ⟨a, ha, -, -, hset⟩ := h.marked _ hmem
  obtain rfl : b = a := eq_of_mul_eq_mul_right (by decide) ha
  rw [hfree] at hset
  cases hset

theorem Inv.allocate (h : o.Inv) : Inv ⟨o.manager.allocateBlock.2,
    if o.manager.allocateBlock.1 = 0 then o.live else o.manager.allocateBlock.1 :: o.live⟩ := by
  rcases h.counted.allocateBlock with ⟨-, he⟩ | ⟨b, hpos, hlt, hfree, -, he⟩
  · rw [he]
    exact h
  · have haddr : b * blockSize ≠ 0 := by
      simp only [blockSize]
      omega
    have hbit : ∀ a, testBit { o.manager.setBit b with usedBlocks := o.manager.usedBlocks + 1 } a =
        (o.manager.testBit a || decide (a = b)) := fun a => testBit_setBit b a
    rw [he, if_neg haddr]
    refine ⟨h.counted.mark hlt hfree, List.nodup_cons.2 ⟨h.not_mem hfree, h.nodup⟩, ?_⟩
    rintro p (_ | ⟨_, hp⟩)
    · exact ⟨b, rfl, hpos, hlt, by simp [hbit]⟩
    · obtain ⟨a, ha, hapos, halt, haset⟩ := h.marked p hp
      exact ⟨a, ha, hapos, halt, by simp [hbit, haset]⟩

theorem Inv.free (h : o.Inv) {ptr : Nat} (hp : ptr ∈ o.live) :
    Inv ⟨o.manager.freeBlock ptr, o.live.erase ptr⟩ := by
  obtain ⟨b, rfl, hpos, hlt, hset⟩ := h.marked ptr hp
  refine ⟨h.counted.freeBlock hpos hlt hset, h.nodup.erase _, fun p hpe => ?_⟩
  obtain ⟨hne, hpl⟩ := h.nodup.mem_erase_iff.1 hpe
  obtain ⟨a, rfl, hapos, halt, haset⟩ := h.marked p hpl
  have hab : a ≠ b := fun he => hne (by rw [he])
  refine ⟨a, rfl, hapos, halt, ?_⟩
  have hdiv : b * blockSize / blockSize = b := Nat.mul_div_cancel _ (by decide)
  show (o.manager.unsetBit (b * blockSize / blockSize)).testBit a = true
  rw [hdiv, testBit_unsetBit, haset]
  simp [hab]

theorem Inv.step (h : o.Inv) (hs : o.Step r o') :
    o'.Inv ∧ o'.manager.maximumBlocks = o.manager.maximumBlocks := by
  cases hs with
  | allocate =>
    refine ⟨h.allocate, ?_⟩
    rcases h.counted.allocateBlock with ⟨-, he⟩ | ⟨b, -, -, -, -, he⟩
    · rw [he]
    · rw [he]
      rfl
  | free hp => exact ⟨h.free hp, rfl⟩
  | @other memory hsame h0 =>
    refine ⟨⟨⟨h.counted.small, h0, ?_⟩, h.nodup, ?_⟩, rfl⟩
    · rw [h.counted.count, count_eq_card_filter_range, count_eq_card_filter_range]
      refine congrArg card (filter_congr fun b hb => ?_)
      rw [hsame b (mem_range.1 hb)]
    · intro p hp
      obtain ⟨b, hpb, hpos, hlt, hset⟩ := h.marked p hp
      exact ⟨b, hpb, hpos, hlt, (hsame b hlt).trans hset⟩

end FrameOwners

/-- From every bitmap that is counted, after every sequence of `AllocateBlock` and `FreeBlock` calls:
the bits are counted again, and `AllocateBlock` returns the lowest free block of the machine, which
nobody owns, or 0 exactly if there is none. -/
theorem allocateBlock_lowest_free (m : PhysicalMemoryManager) (hmax : m.maximumBlocks ≤ 2 ^ 20)
    (hfirst : m.testBit 0 = true)
    (hused : m.usedBlocks = Nat.count (fun b => m.testBit b = true) m.maximumBlocks)
    (rs : List FrameRequest) (o : FrameOwners) (hrun : Run FrameOwners.Step ⟨m, []⟩ rs o) :
    o.manager.maximumBlocks = m.maximumBlocks ∧ o.live.Nodup ∧
      o.manager.usedBlocks = Nat.count (fun b => o.manager.testBit b = true) m.maximumBlocks ∧
      (o.manager.allocateBlock.1 = 0 ↔ ∀ b < m.maximumBlocks, o.manager.testBit b = true) ∧
      (o.manager.allocateBlock.1 ≠ 0 → ∃ b < m.maximumBlocks,
        o.manager.allocateBlock.1 = b * blockSize ∧ o.manager.testBit b = false ∧
        (∀ a < b, o.manager.testBit a = true) ∧ o.manager.allocateBlock.1 ∉ o.live) := by
  obtain ⟨hinv, heq⟩ := hrun.invariant
    (I := fun o => o.Inv ∧ o.manager.maximumBlocks = m.maximumBlocks)
    ⟨⟨⟨hmax, hfirst, hused⟩, .nil, by simp⟩, rfl⟩ fun o r o' hi hs => by
      obtain ⟨hinv', heq'⟩ := hi.1.step hs
      exact ⟨hinv', heq'.trans hi.2⟩
  rw [← heq]
  refine ⟨rfl, hinv.nodup, hinv.counted.count, ?_⟩
  rcases hinv.counted.allocateBlock with ⟨hall, he⟩ | ⟨b, hpos, hlt, hfree, hmin, he⟩
  · rw [he]
    exact ⟨⟨fun _ => hall, fun _ => rfl⟩, fun h => absurd rfl h⟩
  · have haddr : b * blockSize ≠ 0 := by
      simp only [blockSize]
      omega
    rw [he]
    refine ⟨⟨fun h => absurd h haddr, fun hall => ?_⟩, fun _ => ?_⟩
    · rw [hall b hlt] at hfree
      cases hfree
    · exact ⟨b, hlt, rfl, hfree, hmin, hinv.not_mem hfree⟩

/-- Four blocks of which only block 0 is in use; the words behind the bitmap are ones. -/
def fourBlocks : PhysicalMemoryManager :=
  ⟨4 * blockSize, 1, 4, fun i => if i = 0 then 0xfffffff1#32 else 0xffffffff#32, []⟩

/-- The first block handed out of `fourBlocks` is block 1, and the next one is another. -/
theorem allocateBlock_lowest_free_fourBlocks :
    fourBlocks.allocateBlock.1 = 4096 ∧ fourBlocks.allocateBlock.2.allocateBlock.1 = 8192 ∧
      fourBlocks.allocateBlock.2.allocateBlock.1 ∉ [4096] := by
  have hrun : Run FrameOwners.Step ⟨fourBlocks, []⟩ [.allocate]
      ⟨fourBlocks.allocateBlock.2, [4096]⟩ := Run.nil.snoc .allocate
  obtain ⟨-, -, -, -, hnext⟩ := allocateBlock_lowest_free fourBlocks (by decide) (by decide)
    (by decide) _ _ hrun
  obtain ⟨b, -, -, -, -, hnot⟩ := hnext (by decide)
  exact ⟨rfl, rfl, hnot⟩

end HeisenKernel
