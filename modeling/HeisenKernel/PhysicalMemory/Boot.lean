import HeisenKernel.PhysicalMemory
import Mathlib.Data.Nat.ModEq

/-!
# The bitmap at boot

`kernelMain` sets the bitmap up in four steps: `Initialize` marks every block, `ParseMemoryMap`
clears the blocks of the available regions of the loader's memory map, and two calls of
`SetRegionUsed` mark the blocks of the kernel and of the boot module again (`kernel.cpp:204`).
-/

namespace HeisenKernel

open List PhysicalMemoryManager

/-- `MULTIBOOT_MEMORY_AVAILABLE` (`multiboot.h:235`). -/
def multibootMemoryAvailable : BitVec 32 := 1

/-- A region of the loader's memory map, `grub_multiboot_memory_map_t` (`physicalmemory.h:17`). -/
structure MemoryMapEntry where
  baseAddrLow : BitVec 32
  baseAddrHigh : BitVec 32
  lengthLow : BitVec 32
  lengthHigh : BitVec 32
  type : BitVec 32

/-- `size` bytes of memory from `base` on. -/
structure Region where
  base : Nat
  size : Nat
deriving DecidableEq

/-- The bytes of a region of the memory map. -/
def MemoryMapEntry.region (e : MemoryMapEntry) : Region :=
  ⟨e.baseAddrHigh.toNat * 2 ^ 32 + e.baseAddrLow.toNat, e.lengthHigh.toNat * 2 ^ 32 + e.lengthLow.toNat⟩

/-- What `ParseMemoryMap` takes for the region. -/
def MemoryMapEntry.lowRegion (e : MemoryMapEntry) : Region :=
  ⟨e.baseAddrLow.toNat, e.lengthLow.toNat⟩

/-- The byte `x` lies in the region. -/
def Region.HasByte (r : Region) (x : Nat) : Prop := r.base ≤ x ∧ x < r.base + r.size

/-- The number of blocks that `SetRegionFree` and `SetRegionUsed` make of a region. -/
def Region.count (r : Region) : Nat := r.size / blockSize

/-- The block `i` is one of those that `SetRegionFree` and `SetRegionUsed` make of a region. -/
def Region.HasBlock (r : Region) (i : Nat) : Prop :=
  r.base / blockSize ≤ i ∧ i < r.base / blockSize + r.count

instance (r : Region) (i : Nat) : Decidable (r.HasBlock i) := inferInstanceAs (Decidable (_ ∧ _))

/-- The byte `x` lies in the block `i`. -/
def BlockHasByte (i x : Nat) : Prop := i * blockSize ≤ x ∧ x < (i + 1) * blockSize

/-- `pageRoundUp` (`physicalmemory.cpp:213`). -/
def pageRoundUp (address : Nat) : Nat :=
  if address &&& 0xFFFFF000 ≠ address then u32 ((address &&& 0xFFFFF000) + 0x1000) else address

/-- `memset(memory, 0xFF, bytes)` on words of memory. -/
def memsetOnes (memory : Nat → BitVec 32) (bytes : Nat) : Nat → BitVec 32 :=
  fun i => memory i ||| BitVec.ofNat 32 (2 ^ (8 * min 4 (bytes - 4 * i)) - 1)

namespace PhysicalMemoryManager

/-- `Initialize` (`physicalmemory.cpp:64`), over the memory from the bitmap's address on. -/
def initializeBitmap (size : Nat) (memory : Nat → BitVec 32) : PhysicalMemoryManager where
  memorySize := size
  usedBlocks := size / blockSize
  maximumBlocks := size / blockSize
  memoryArray := memsetOnes memory (size / blockSize / blocksPerByte)
  touched := []

/-- `ParseMemoryMap` (`physicalmemory.cpp:107`). -/
def parseMemoryMap (m : PhysicalMemoryManager) (mmap : List MemoryMapEntry) : PhysicalMemoryManager :=
  mmap.foldl (fun m e => if e.type = multibootMemoryAvailable then
    m.setRegionFree e.baseAddrLow.toNat e.lengthLow.toNat else m) m

end PhysicalMemoryManager

/-- What `kernelMain` works on: `size` is `mem_upper * 1_KB`, `kernelSize` the size of the kernel's
image, `modStart` and `modEnd` are the bounds of the first boot module, and `memory` is what the
memory from the bitmap's address on holds. -/
structure Boot where
  size : BitVec 32
  kernelSize : BitVec 32
  mmap : List MemoryMapEntry
  modStart : BitVec 32
  modEnd : BitVec 32
  memory : Nat → BitVec 32

namespace Boot

/-- The number of blocks of the machine. -/
def blocks (boot : Boot) : Nat := boot.size.toNat / blockSize

/-- The first region that `kernelMain` marks: the first megabyte, the kernel and the bitmap
(`kernel.cpp:220`). -/
def kernelRegion (boot : Boot) : Region :=
  ⟨0, pageRoundUp (u32 (1048576 + boot.kernelSize.toNat + boot.blocks / blocksPerByte))⟩

/-- The second region that `kernelMain` marks: the boot module (`kernel.cpp:221`). -/
def moduleRegion (boot : Boot) : Region :=
  ⟨boot.modStart.toNat, sub32 boot.modEnd.toNat boot.modStart.toNat⟩

/-- The bitmap after `kernelMain` has set it up (`kernel.cpp:204`, `215`, `220`, `221`). -/
def bitmap (boot : Boot) : PhysicalMemoryManager :=
  let m := initializeBitmap boot.size.toNat boot.memory
  let m := m.parseMemoryMap boot.mmap
  let m := m.setRegionUsed 0 (pageRoundUp (u32 (1048576 + boot.kernelSize.toNat + m.getBitmapSize)))
  m.setRegionUsed boot.modStart.toNat (sub32 boot.modEnd.toNat boot.modStart.toNat)

/-- The regions of the memory map that are marked available. -/
def available (boot : Boot) : List MemoryMapEntry :=
  boot.mmap.filter fun e => e.type = multibootMemoryAvailable

/-- What the bitmap has to be: `usedBlocks` is the number of its set bits, only bits of the bitmap
were written, and every free block lies wholly in an available region and outside the regions that
were marked used. -/
structure Ok (boot : Boot) : Prop where
  used : boot.bitmap.usedBlocks =
    ((Finset.range boot.blocks).filter fun i => boot.bitmap.testBit i = true).card
  touched : ∀ i ∈ boot.bitmap.touched, i < boot.blocks
  free : ∀ i < boot.blocks, boot.bitmap.testBit i = false →
    (∃ e ∈ boot.available, ∀ x, BlockHasByte i x → e.region.HasByte x) ∧
    ∀ x, BlockHasByte i x → ¬ boot.kernelRegion.HasByte x ∧ ¬ boot.moduleRegion.HasByte x

/-- The blocks that are free in the end: not block 0, not of a region marked used, and of an
available region by its low words or in the rounded-off end of the bitmap over a bit that was clear
in memory before. -/
def LeftFree (boot : Boot) (i : Nat) : Prop :=
  i ≠ 0 ∧ ¬ boot.kernelRegion.HasBlock i ∧ ¬ boot.moduleRegion.HasBlock i ∧
    ((∃ e ∈ boot.available, e.lowRegion.HasBlock i) ∨
      boot.blocks / blocksPerByte * blocksPerByte ≤ i ∧
        (boot.memory (i / 32)).getLsbD (i % 32) = false)

instance (boot : Boot) : DecidablePred boot.LeftFree := fun _ => inferInstanceAs (Decidable (_ ∧ _))

/-- The memory maps that give a right bitmap: as many blocks are cleared as are marked again or left
free, every region ends inside the bitmap, and the blocks left free lie in available regions of the
64-bit map and outside the bytes of the regions marked used. -/
structure Safe (boot : Boot) : Prop where
  balanced : (boot.available.map fun e => e.lowRegion.count).sum ≡ boot.kernelRegion.count +
    boot.moduleRegion.count + ((Finset.range boot.blocks).filter boot.LeftFree).card [MOD 2 ^ 32]
  inside : 0 < boot.blocks ∧ ∀ r ∈ boot.kernelRegion :: boot.moduleRegion ::
    boot.available.map MemoryMapEntry.lowRegion, r.count = 0 ∨ r.base / blockSize + r.count ≤ boot.blocks
  free : ∀ i < boot.blocks, boot.LeftFree i →
    (∃ e ∈ boot.available, ∀ x, BlockHasByte i x → e.region.HasByte x) ∧
    ∀ x, BlockHasByte i x → ¬ boot.kernelRegion.HasByte x ∧ ¬ boot.moduleRegion.HasByte x

end Boot

namespace PhysicalMemoryManager

variable {m : PhysicalMemoryManager} {i : Nat}

theorem mem_blocksFrom_region {r : Region} (hb : r.base < 2 ^ 32) (hs : r.size < 2 ^ 32) :
    i ∈ blocksFrom (r.base / blockSize) (r.size / blockSize) ↔ r.HasBlock i :=
  mem_blocksFrom (by simp only [blockSize]; omega)

theorem foldl_unset_spec (l : List Nat) :
    let m' := l.foldl (fun m block => { m.unsetBit block with usedBlocks := sub32 m.usedBlocks 1 }) m
    m'.usedBlocks + l.length ≡ m.usedBlocks [MOD 2 ^ 32] ∧ (m.usedBlocks < 2 ^ 32 → m'.usedBlocks < 2 ^ 32)
      ∧ m'.memorySize = m.memorySize ∧ (∀ i, m'.testBit i = (m.testBit i && !decide (i ∈ l))) ∧ ∀ i, i ∈
      m'.touched ↔ i ∈ l ∨ i ∈ m.touched := by
  induction l generalizing m with
  | nil => exact ⟨Nat.ModEq.refl _, id, rfl, by simp, by simp⟩
  | cons a l ih =>
    obtain ⟨hu, hlt, hsz, hb, ht⟩ := ih
    refine ⟨?_, fun _ => hlt (sub32_lt _ _), hsz, fun i => ?_, fun i => ?_⟩
    · rw [length_cons, ← add_assoc]
      refine (hu.add_right 1).trans ?_
      simp only [sub32, Nat.ModEq]
      omega
    · rw [foldl_cons, hb]
      change ((m.unsetBit a).testBit i && _) = _
      simp [Bool.and_assoc]
    · rw [foldl_cons, ht]
      simp [unsetBit, or_left_comm, or_assoc]

theorem foldl_set_spec (l : List Nat) :
    let m' := l.foldl (fun m block => { m.setBit block with usedBlocks := u32 (m.usedBlocks + 1) }) m
    m'.usedBlocks ≡ m.usedBlocks + l.length [MOD 2 ^ 32] ∧ (m.usedBlocks < 2 ^ 32 → m'.usedBlocks < 2 ^ 32)
      ∧ m'.memorySize = m.memorySize ∧ (∀ i, m'.testBit i = (m.testBit i || decide (i ∈ l))) ∧ ∀ i, i ∈
      m'.touched ↔ i ∈ l ∨ i ∈ m.touched := by
  induction l generalizing m with
  | nil => exact ⟨Nat.ModEq.refl _, id, rfl, by simp, by simp⟩
  | cons a l ih =>
    obtain ⟨hu, hlt, hsz, hb, ht⟩ := ih
    refine ⟨?_, fun _ => hlt (u32_lt _), hsz, fun i => ?_, fun i => ?_⟩
    · refine hu.trans ?_
      simp only [u32, Nat.ModEq, length_cons]
      omega
    · rw [foldl_cons, hb]
      change ((m.setBit a).testBit i || _) = _
      simp [Bool.or_assoc]
    · rw [foldl_cons, ht]
      simp [setBit, or_left_comm, or_assoc]

theorem setRegionFree_spec {r : Region} (hr : r.base < 2 ^ 32) (hs : r.size < 2 ^ 32) :
    (m.setRegionFree r.base r.size).usedBlocks + r.count ≡ m.usedBlocks [MOD 2 ^ 32] ∧
      (m.usedBlocks < 2 ^ 32 → (m.setRegionFree r.base r.size).usedBlocks < 2 ^ 32) ∧
      (m.setRegionFree r.base r.size).memorySize = m.memorySize ∧
      (∀ i ≠ 0, (m.setRegionFree r.base r.size).testBit i = (m.testBit i && !decide (r.HasBlock i))) ∧
      ∀ i, i ∈ (m.setRegionFree r.base r.size).touched ↔ i = 0 ∨ r.HasBlock i ∨ i ∈ m.touched := by
  obtain ⟨hu, hlt, hsz, hb, ht⟩ := foldl_unset_spec (blocksFrom (r.base / blockSize) (r.size / blockSize))
  rw [length_blocksFrom] at hu
  refine ⟨hu, hlt, hsz, fun i hi => ?_, fun i => ?_⟩
  · rw [setRegionFree, testBit_setBit, hb]
    simp [hi, mem_blocksFrom_region hr hs]
  · rw [← mem_blocksFrom_region hr hs, ← ht]
    exact mem_cons

theorem setRegionUsed_spec {r : Region} (hr : r.base < 2 ^ 32) (hs : r.size < 2 ^ 32) :
    (m.setRegionUsed r.base r.size).usedBlocks ≡ m.usedBlocks + r.count [MOD 2 ^ 32] ∧
      (m.usedBlocks < 2 ^ 32 → (m.setRegionUsed r.base r.size).usedBlocks < 2 ^ 32) ∧
      (∀ i, (m.setRegionUsed r.base r.size).testBit i =
        (m.testBit i || decide (r.HasBlock i) || decide (i = 0))) ∧
      ∀ i, i ∈ (m.setRegionUsed r.base r.size).touched ↔ i = 0 ∨ r.HasBlock i ∨ i ∈ m.touched := by
  obtain ⟨hu, hlt, -, hb, ht⟩ := foldl_set_spec (blocksFrom (r.base / blockSize) (r.size / blockSize))
  rw [length_blocksFrom] at hu
  refine ⟨hu, hlt, fun i => ?_, fun i => ?_⟩
  · rw [setRegionUsed, testBit_setBit, hb]
    simp [mem_blocksFrom_region hr hs]
  · rw [← mem_blocksFrom_region hr hs, ← ht]
    exact mem_cons

theorem parseMemoryMap_spec (mmap : List MemoryMapEntry) :
    let available := mmap.filter fun e => e.type = multibootMemoryAvailable
    (m.parseMemoryMap mmap).usedBlocks + (available.map fun e => e.lowRegion.count).sum ≡
        m.usedBlocks [MOD 2 ^ 32] ∧
      (m.usedBlocks < 2 ^ 32 → (m.parseMemoryMap mmap).usedBlocks < 2 ^ 32) ∧
      (m.parseMemoryMap mmap).memorySize = m.memorySize ∧
      (∀ i ≠ 0, (m.parseMemoryMap mmap).testBit i =
        (m.testBit i && !decide (∃ e ∈ available, e.lowRegion.HasBlock i))) ∧
      ∀ i, i = 0 ∨ i ∈ (m.parseMemoryMap mmap).touched ↔
        i = 0 ∨ (∃ e ∈ available, e.lowRegion.HasBlock i) ∨ i ∈ m.touched := by
  induction mmap generalizing m with
  | nil => exact ⟨Nat.ModEq.refl _, id, rfl, by simp [parseMemoryMap], by simp [parseMemoryMap]⟩
  | cons e mmap ih =>
    by_cases hav : e.type = multibootMemoryAvailable
    · have hstep : m.parseMemoryMap (e :: mmap) =
          (m.setRegionFree e.lowRegion.base e.lowRegion.size).parseMemoryMap mmap := by
        rw [parseMemoryMap, foldl_cons, if_pos hav]
        rfl
      obtain ⟨hu, hlt, hsz, hb, ht⟩ := ih
      obtain ⟨hu', hlt', hsz', hb', ht'⟩ := setRegionFree_spec (r := e.lowRegion)
        e.baseAddrLow.isLt e.lengthLow.isLt
      rw [hstep]
      simp only [hav, decide_true, filter_cons_of_pos, map_cons, sum_cons, mem_cons, exists_eq_or_imp]
      refine ⟨?_, fun h => hlt (hlt' h), hsz.trans hsz', fun i hi => ?_, fun i => ?_⟩
      · rw [add_comm e.lowRegion.count, ← add_assoc]
        exact (hu.add_right _).trans hu'
      · rw [hb i hi, hb' i hi]
        simp [Bool.and_assoc]
      · rw [ht i, ht' i]
        grind
    · have hstep : m.parseMemoryMap (e :: mmap) = m.parseMemoryMap mmap := by
        simp only [parseMemoryMap, foldl_cons, if_neg hav]
      rw [hstep, filter_cons_of_neg (by simpa using hav)]
      exact ih

end PhysicalMemoryManager

namespace Boot

variable {boot : Boot} {i : Nat}

theorem pageRoundUp_lt (h : a < 2 ^ 32) : pageRoundUp a < 2 ^ 32 := by
  unfold pageRoundUp
  split
  · exact u32_lt _
  · exact h

theorem getLsbD_memsetOnes (memory : Nat → BitVec 32) (bytes i : Nat) :
    (memsetOnes memory bytes (i / 32)).getLsbD (i % 32) =
      ((memory (i / 32)).getLsbD (i % 32) || decide (i < 8 * bytes)) := by
  have hi : i % 32 < 32 := Nat.mod_lt _ (by decide)
  have hiff : i % 32 < 8 * min 4 (bytes - 4 * (i / 32)) ↔ i < 8 * bytes := by omega
  rw [memsetOnes, BitVec.getLsbD_or, BitVec.getLsbD_ofNat, Nat.testBit_two_pow_sub_one]
  simp [hi, hiff]

theorem testBit_initializeBitmap (size : Nat) (memory : Nat → BitVec 32) :
    (initializeBitmap size memory).testBit i =
      ((memory (i / 32)).getLsbD (i % 32) ||
        decide (i < size / blockSize / blocksPerByte * blocksPerByte)) := by
  rw [testBit_eq, initializeBitmap, Lib.Bitmap.bit, getLsbD_memsetOnes, blocksPerByte, mul_comm]

theorem bitmap_spec (boot : Boot) :
    boot.bitmap.usedBlocks + (boot.available.map fun e => e.lowRegion.count).sum ≡
        boot.blocks + boot.kernelRegion.count + boot.moduleRegion.count [MOD 2 ^ 32] ∧
      boot.bitmap.usedBlocks < 2 ^ 32 ∧
      (∀ i, boot.bitmap.testBit i = false ↔ boot.LeftFree i) ∧
      ∀ i, i ∈ boot.bitmap.touched ↔ i = 0 ∨ ∃ r ∈ boot.kernelRegion :: boot.moduleRegion ::
        boot.available.map MemoryMapEntry.lowRegion, r.HasBlock i := by
  set m0 := initializeBitmap boot.size.toNat boot.memory with hm0
  obtain ⟨hu1, hlt1, hsz1, hb1, ht1⟩ := parseMemoryMap_spec boot.mmap
  set m1 := m0.parseMemoryMap boot.mmap with hm1
  obtain ⟨hu2, hlt2, hb2, ht2⟩ := setRegionUsed_spec
    (r := boot.kernelRegion) (show 0 < 2 ^ 32 by decide) (pageRoundUp_lt (u32_lt _))
  set m2 := m1.setRegionUsed boot.kernelRegion.base boot.kernelRegion.size with hm2
  obtain ⟨hu3, hlt3, hb3, ht3⟩ := setRegionUsed_spec
    (r := boot.moduleRegion) boot.modStart.isLt (sub32_lt _ _)
  have hbitmap : boot.bitmap = m2.setRegionUsed boot.moduleRegion.base boot.moduleRegion.size := by
    have hsize : m1.getBitmapSize = boot.blocks / blocksPerByte := by
      rw [getBitmapSize, hsz1]
      rfl
    rw [hm2, kernelRegion, ← hsize]
    rfl
  rw [hbitmap]
  refine ⟨?_, hlt3 (hlt2 (hlt1 ?_)), fun i => ?_, fun i => ?_⟩
  · calc _ ≡ m1.usedBlocks + boot.kernelRegion.count + boot.moduleRegion.count +
          (boot.available.map fun e => e.lowRegion.count).sum [MOD 2 ^ 32] :=
        (hu3.trans (hu2.add_right _)).add_right _
      _ = m1.usedBlocks + (boot.available.map fun e => e.lowRegion.count).sum +
          (boot.kernelRegion.count + boot.moduleRegion.count) := by omega
      _ ≡ boot.blocks + (boot.kernelRegion.count + boot.moduleRegion.count) [MOD 2 ^ 32] := hu1.add_right _
      _ = _ := by omega
  · exact lt_of_le_of_lt (Nat.div_le_self _ _) boot.size.isLt
  · rw [hb3, hb2]
    by_cases hi : i = 0
    · simp [hi, LeftFree]
    · rw [hb1 i hi, testBit_initializeBitmap]
      simp only [LeftFree, hi, decide_false, Bool.or_false, Bool.or_eq_false_iff,
        Bool.and_eq_false_iff, Bool.not_eq_false', decide_eq_true_eq, decide_eq_false_iff_not, not_lt,
        ne_eq, not_false_eq_true, true_and]
      constructor
      · rintro ⟨⟨h | h, hk⟩, hm⟩
        · exact ⟨hk, hm, .inr ⟨h.2, h.1⟩⟩
        · exact ⟨hk, hm, .inl h⟩
      · rintro ⟨hk, hm, h | h⟩
        · exact ⟨⟨.inr h, hk⟩, hm⟩
        · exact ⟨⟨.inl ⟨h.2, h.1⟩, hk⟩, hm⟩
  · have hnil : i ∉ m0.touched := not_mem_nil
    have ht1 : i = 0 ∨ i ∈ m1.touched ↔
        i = 0 ∨ (∃ e ∈ boot.available, e.lowRegion.HasBlock i) ∨ i ∈ m0.touched := ht1 i
    have hmap : (∃ r ∈ boot.available.map MemoryMapEntry.lowRegion, r.HasBlock i) ↔
        ∃ e ∈ boot.available, e.lowRegion.HasBlock i := by
      simp only [mem_map, exists_exists_and_eq_and]
    rw [ht3, ht2]
    simp only [mem_cons, exists_eq_or_imp, hmap]
    by_cases hi : i = 0
    · simp [hi]
    · simp only [hi, false_or, hnil, or_false] at ht1 ⊢
      rw [ht1, or_left_comm]

theorem forall_hasBlock_lt (r : Region) (n : Nat) :
    (∀ i, r.HasBlock i → i < n) ↔ r.count = 0 ∨ r.base / blockSize + r.count ≤ n := by
  constructor
  · intro h
    rcases Nat.eq_zero_or_pos r.count with h0 | hpos
    · exact .inl h0
    · have := h (r.base / blockSize + (r.count - 1)) ⟨Nat.le_add_right _ _, by omega⟩
      exact .inr (by omega)
  · rintro (h0 | hle) i ⟨hlo, hhi⟩
    · omega
    · omega

theorem card_set_add_card_leftFree (boot : Boot) :
    ((Finset.range boot.blocks).filter fun i => boot.bitmap.testBit i = true).card +
      ((Finset.range boot.blocks).filter boot.LeftFree).card = boot.blocks := by
  have hset : ∀ i, boot.bitmap.testBit i = true ↔ ¬ boot.LeftFree i := fun i => by
    rw [← (bitmap_spec boot).2.2.1 i, Bool.not_eq_false]
  simp only [hset]
  rw [add_comm, Finset.card_filter_add_card_filter_not, Finset.card_range]

/-- After `Initialize`, `ParseMemoryMap` and the two calls of `SetRegionUsed` the count is the number
of set bits, only bits of the bitmap were written and every free block lies in available memory and
outside the memory marked used, exactly for the memory maps that are safe. -/
theorem ok_iff_safe (boot : Boot) : boot.Ok ↔ boot.Safe := by
  obtain ⟨hu, hlt, hbit, htouched⟩ := bitmap_spec boot
  have hcard := card_set_add_card_leftFree boot
  have hblocks : boot.blocks < 2 ^ 32 := lt_of_le_of_lt (Nat.div_le_self _ _) boot.size.isLt
  constructor
  · intro h
    refine ⟨?_, ⟨h.touched 0 ((htouched 0).2 (.inl rfl)), fun r hr =>
      (forall_hasBlock_lt _ _).1 fun i hi => ?_⟩, fun i hi hf => h.free i hi ((hbit i).2 hf)⟩
    · have hused := h.used
      simp only [Nat.ModEq] at hu ⊢
      omega
    · exact h.touched i ((htouched i).2 (.inr ⟨r, hr, hi⟩))
  · intro h
    refine ⟨?_, fun i hi => ?_, fun i hi hf => h.free i hi ((hbit i).1 hf)⟩
    · have hbalanced := h.balanced
      simp only [Nat.ModEq] at hu hbalanced
      omega
    · rcases (htouched i).1 hi with rfl | ⟨r, hr, hi⟩
      · exact h.inside.1
      · exact (forall_hasBlock_lt _ _).2 (h.inside.2 r hr) i hi

end Boot

/-- A machine of 2 MB whose memory is one available region, with a module of one page. -/
def smallMachine : Boot where
  size := 0x200000
  kernelSize := 4000
  mmap := [⟨0, 0, 0x200000, 0, multibootMemoryAvailable⟩]
  modStart := 0x180000
  modEnd := 0x181000
  memory := fun _ => 0

/-- The memory map of `smallMachine` is safe. -/
theorem ok_iff_safe_smallMachine : smallMachine.Ok := by
  have hkernel : smallMachine.kernelRegion = ⟨0, 257 * blockSize⟩ := by decide
  have hmodule : smallMachine.moduleRegion = ⟨384 * blockSize, blockSize⟩ := by decide
  refine (Boot.ok_iff_safe smallMachine).2 ⟨?_, by decide, fun i hi ⟨_, hk, hm, _⟩ => ?_⟩
  · have : ((Finset.range 512).filter smallMachine.LeftFree).card = 254 := by decide +kernel
    rw [show smallMachine.blocks = 512 from rfl, this]
    decide
  · have hi : i < 512 := hi
    rw [hkernel, Region.HasBlock] at hk
    rw [hmodule, Region.HasBlock] at hm
    simp only [Region.count, blockSize] at hk hm
    refine ⟨⟨_, mem_cons_self, fun x hx => ?_⟩, fun x hx => ⟨fun h => ?_, fun h => ?_⟩⟩
    · simp only [BlockHasByte, blockSize] at hx
      exact ⟨Nat.zero_le x, show x < 0 + 0x200000 by omega⟩
    · rw [hkernel] at h
      simp only [Region.HasByte, BlockHasByte, blockSize] at h hx
      omega
    · rw [hmodule] at h
      simp only [Region.HasByte, BlockHasByte, blockSize] at h hx
      omega

/-- A machine of 2 MB with one available page at 4 GB + 1.5 MB. -/
def highMachine : Boot where
  size := 0x200000
  kernelSize := 4000
  mmap := [⟨0x180000, 1, 0x1000, 0, multibootMemoryAvailable⟩]
  modStart := 0
  modEnd := 0
  memory := fun _ => 0xffffffff

/-- On `highMachine` block 384 is free in the bitmap, and no available region holds a byte of it. -/
theorem boot_frees_unavailable : highMachine.bitmap.testBit 384 = false ∧
    (∀ e ∈ highMachine.available, ∀ x, BlockHasByte 384 x → ¬ e.region.HasByte x) ∧ ¬ highMachine.Ok := by
  have hfree : highMachine.bitmap.testBit 384 = false :=
    ((Boot.bitmap_spec highMachine).2.2.1 384).2 (by decide +kernel)
  have hout : ∀ e ∈ highMachine.available, ∀ x, BlockHasByte 384 x → ¬ e.region.HasByte x := by
    intro e he x hx h
    obtain rfl := mem_singleton.1 he
    have hlo : 2 ^ 32 + 0x180000 ≤ x := h.1
    simp only [BlockHasByte, blockSize] at hx
    omega
  refine ⟨hfree, hout, fun hok => ?_⟩
  obtain ⟨⟨e, he, hin⟩, -⟩ := hok.free 384 (by decide) hfree
  have hx : BlockHasByte 384 (384 * blockSize) := ⟨le_refl _, by decide⟩
  exact hout e he _ hx (hin _ hx)

end HeisenKernel
