import HeisenKernel.PhysicalMemory
import HeisenKernel.Lib.Run
import Mathlib.Data.Set.Card

/-!
# Allocation of runs of blocks

`FirstFreeSize` counts the clear bits among `size + 1` bits and does not start again at a set bit,
and it looks at `TotalBlocks()` words where the bitmap has `TotalBlocks()` bits.
-/

namespace HeisenKernel

open Lib List Bool

namespace PhysicalMemoryManager

/-- The `n` blocks from `b` on are free. -/
def FreeRun (m : PhysicalMemoryManager) (b n : Nat) : Prop :=
  ∀ k < n, m.testBit (u32 (b + k)) = false

/-- Of the `n + 1` blocks from `b` on one is in use, which is neither the first nor the last. -/
def Holed (m : PhysicalMemoryManager) (b n : Nat) : Prop :=
  ∃ k, 0 < k ∧ k < n ∧ m.testBit (u32 (b + k)) = true ∧ ∀ i ≤ n, i ≠ k → m.testBit (u32 (b + i)) = false

/-- The number of bits that differ between two states of the bitmap. -/
noncomputable def changedBits (m m' : PhysicalMemoryManager) : Nat := {b | m.testBit b ≠ m'.testBit b}.ncard

/-- What a call of `AllocateBlocks(n)` has to do: a call that succeeds returns the address of `n`
consecutive blocks of the machine that were free and marks them, and `usedBlocks` goes up by the
number of bits that changed. -/
structure AllocationOk (m : PhysicalMemoryManager) (n : Nat) : Prop where
  frames : (m.allocateBlocks n).1 ≠ 0 → ∃ frame, (m.allocateBlocks n).1 = frame * blockSize ∧
    frame + n ≤ m.maximumBlocks ∧ (∀ b, frame ≤ b → b < frame + n → m.testBit b = false) ∧
    ∀ b, frame ≤ b → b < frame + n → (m.allocateBlocks n).2.testBit b = true
  used : (m.allocateBlocks n).2.usedBlocks ≡ m.usedBlocks + changedBits m (m.allocateBlocks n).2 [MOD 2 ^ 32]

/-- The bitmaps on which `AllocateBlocks(n)` does it: the call gives up at once, or every window
with a hole comes after a free run, and the first free run lies inside the machine (or starts where
the address wraps to 0, so that the call reports a failure). -/
def AllocationSafe (m : PhysicalMemoryManager) (n : Nat) : Prop :=
  m.freeBlockCount ≤ n ∨ ∀ b < m.maximumBlocks * 32, (m.Holed b n → ∃ a < b, m.FreeRun a n) ∧
    (m.FreeRun b n → (∃ a < b, m.FreeRun a n) ∨ b + n ≤ m.maximumBlocks ∨ 2 ^ 20 ∣ b)

variable {m : PhysicalMemoryManager} {n b : Nat}

theorem enoughFree_iff {size start : Nat} (left count free : Nat) (hf : free < size) :
    m.enoughFree size start left count free = true ↔
      size ≤ free + Nat.count (fun k => m.testBit (u32 (start + (count + k))) = false) left := by
  induction left generalizing count free with
  | zero => simp [enoughFree]; omega
  | succ left ih =>
    have hshift : (fun k => m.testBit (u32 (start + (count + (k + 1)))) = false) =
        fun k => m.testBit (u32 (start + (count + 1 + k))) = false := by
      funext k
      rw [add_right_comm, add_assoc count]
    simp only [Nat.count_succ', enoughFree, hshift, add_zero]
    cases htest : m.testBit (u32 (start + count)) with
    | true =>
      simp only [Bool.not_true, false_eq_true, if_false, if_neg (ne_of_lt hf), ih _ _ hf]
      simp
    | false =>
      simp only [Bool.not_false, if_true]
      split
      · next he => simp; omega
      · next hne =>
        rw [ih _ _ (by omega)]
        omega

theorem count_window_iff (hn : 0 < n) : (m.testBit (u32 b) = false ∧
    n ≤ Nat.count (fun k => m.testBit (u32 (b + k)) = false) (n + 1)) ↔
      m.FreeRun b n ∨ m.Holed b n := by
  have hsplit : Nat.count (fun k => m.testBit (u32 (b + k)) = false) (n + 1) +
      ((Finset.range (n + 1)).filter fun k => m.testBit (u32 (b + k)) = true).card = n + 1 := by
    rw [Nat.count_eq_card_filter_range, ← Finset.card_range (n + 1)]
    have := Finset.card_filter_add_card_filter_not (s := Finset.range (n + 1))
      fun k => m.testBit (u32 (b + k)) = false
    simpa using this
  have hle : n ≤ Nat.count (fun k => m.testBit (u32 (b + k)) = false) (n + 1) ↔
      ((Finset.range (n + 1)).filter fun k => m.testBit (u32 (b + k)) = true).card ≤ 1 := by omega
  rw [hle, Finset.card_le_one]
  simp only [Finset.mem_filter, Finset.mem_range, and_imp]
  constructor
  · rintro ⟨hb, hone⟩
    by_cases hrun : m.FreeRun b n
    · exact .inl hrun
    · simp only [FreeRun, not_forall, not_eq_false] at hrun
      obtain ⟨k, hk, hset⟩ := hrun
      refine .inr ⟨k, pos_of_ne_zero ?_, hk, hset, fun i hi hik => ?_⟩
      · rintro rfl
        rw [add_zero, hb] at hset
        cases hset
      · by_contra hi'
        exact hik (hone i (by omega) (by simpa using hi') k (by omega) hset)
  · rintro (hrun | ⟨k, hk0, hkn, hset, hclear⟩)
    · refine ⟨hrun 0 hn, fun i hi hiset k hk hkset => ?_⟩
      have hni : ∀ j < n + 1, m.testBit (u32 (b + j)) = true → j = n := fun j hj hjs => by
        by_contra hne
        rw [hrun j (by omega)] at hjs
        cases hjs
      rw [hni i hi hiset, hni k hk hkset]
    · have hat : ∀ j < n + 1, m.testBit (u32 (b + j)) = true → j = k := fun j hj hjs => by
        by_contra hne
        rw [hclear j (by omega) hne] at hjs
        cases hjs
      exact ⟨hclear 0 (by omega) (by omega), fun i hi his j hj hjs =>
        (hat i hi his).trans (hat j hj hjs).symm⟩

theorem firstFreeSize_cases (hmax : m.maximumBlocks ≤ 2 ^ 20) (hn : 0 < n) :
    (m.firstFreeSize n = noFrame ∧ ∀ b < m.maximumBlocks * 32, ¬ (m.FreeRun b n ∨ m.Holed b n)) ∨
    (m.firstFreeSize n < m.maximumBlocks * 32 ∧
      (m.FreeRun (m.firstFreeSize n) n ∨ m.Holed (m.firstFreeSize n) n) ∧
      ∀ a < m.firstFreeSize n, ¬ (m.FreeRun a n ∨ m.Holed a n)) := by
  obtain ⟨accept, heq, hacc⟩ : ∃ accept : Nat → Bool, m.firstFreeSize n = m.firstAccepted accept ∧
      ∀ b < m.maximumBlocks * 32, (!m.testBit b && accept b) = true ↔ m.FreeRun b n ∨ m.Holed b n := by
    by_cases hone : n = 1
    · refine ⟨fun _ => true, by simp [firstFreeSize, hone, firstFree], fun b hb => ?_⟩
      subst hone
      have : ¬ m.Holed b 1 := fun ⟨k, hk0, hk1, _⟩ => by omega
      simp [this, FreeRun, u32_eq (show b < 2 ^ 32 by omega)]
    · refine ⟨fun b => m.enoughFree n b (n + 1) 0 0,
        by simp [firstFreeSize, hone, ne_of_gt hn], fun b hb => ?_⟩
      rw [← count_window_iff hn, and_eq_true, enoughFree_iff _ _ _ hn, u32_eq (show b < 2 ^ 32 by omega)]
      simp
  rw [heq, firstAccepted_eq]
  cases hfind : (range (m.maximumBlocks * 32)).find? fun b => !m.testBit b && accept b with
  | none =>
    refine .inl ⟨rfl, fun b hb => ?_⟩
    rw [← hacc b hb]
    exact find?_eq_none.1 hfind b (mem_range.2 hb)
  | some b =>
    obtain ⟨hb, hlt, hmin⟩ := find?_range_eq_some.1 hfind
    rw [mem_range] at hlt
    refine .inr ⟨hlt, (hacc b hlt).1 hb, fun a ha => ?_⟩
    rw [← hacc a (by rw [Option.getD_some] at ha; omega)]
    simpa only [not_eq_true', not_eq_true] using hmin a ha

theorem nodup_blocksFrom (hn : n ≤ 2 ^ 32) : (blocksFrom frame n).Nodup := by
  refine List.Nodup.map_on (fun i hi j hj h => ?_) nodup_range
  rw [mem_range] at hi hj
  unfold u32 at h
  omega

theorem changedBits_eq (hn : n ≤ 2 ^ 32)
    (h : ∀ b, m.testBit b ≠ m'.testBit b ↔ b ∈ blocksFrom frame n ∧ p b = true) :
    changedBits m m' = (blocksFrom frame n).countP p := by
  have hset : {b | m.testBit b ≠ m'.testBit b} = ↑((blocksFrom frame n).filter p).toFinset := by
    ext b
    simpa using h b
  rw [changedBits, hset, Set.ncard_coe_finset, toFinset_card_of_nodup
    ((nodup_blocksFrom hn).filter _), countP_eq_length_filter]

theorem changedBits_setBit (hn : n ≤ 2 ^ 32) :
    changedBits m { (blocksFrom frame n).foldl setBit m with usedBlocks := u } =
      (blocksFrom frame n).countP fun b => !m.testBit b := by
  refine changedBits_eq hn fun b => ?_
  change m.testBit b ≠ ((blocksFrom frame n).foldl setBit m).testBit b ↔ _
  rw [testBit_foldl_setBit]
  cases hb : m.testBit b <;> simp

theorem changedBits_unsetBit (hn : n ≤ 2 ^ 32) :
    changedBits m { (blocksFrom frame n).foldl unsetBit m with usedBlocks := u } =
      (blocksFrom frame n).countP fun b => m.testBit b := by
  refine changedBits_eq hn fun b => ?_
  change m.testBit b ≠ ((blocksFrom frame n).foldl unsetBit m).testBit b ↔ _
  rw [testBit_foldl_unsetBit]
  cases hb : m.testBit b <;> simp

@[simp] theorem changedBits_self : changedBits m m = 0 := by simp [changedBits]

theorem countP_freeRun (h : m.FreeRun b n) : ((blocksFrom b n).countP fun i => !m.testBit i) = n := by
  rw [countP_eq_length.2, length_blocksFrom]
  refine forall_mem_map.2 fun k hk => ?_
  simpa using h k (mem_range.1 hk)

theorem countP_holed (h : m.Holed b n) : ((blocksFrom b n).countP fun i => !m.testBit i) < n := by
  obtain ⟨k, -, hkn, hset, -⟩ := h
  refine lt_of_le_of_ne ((countP_le_length).trans length_blocksFrom.le) fun he => ?_
  have := countP_eq_length.1 (he.trans length_blocksFrom.symm) (u32 (b + k))
    (mem_map.2 ⟨k, mem_range.2 hkn, rfl⟩)
  simp [hset] at this

theorem allocateBlocks_cases (m : PhysicalMemoryManager) (n : Nat) :
    (m.freeBlockCount ≤ n ∨ m.firstFreeSize n = noFrame) ∧ m.allocateBlocks n = (0, m) ∨
    ¬ m.freeBlockCount ≤ n ∧ m.firstFreeSize n ≠ noFrame ∧
      m.allocateBlocks n = (u32 (m.firstFreeSize n * blockSize),
        { (blocksFrom (m.firstFreeSize n) n).foldl setBit m with usedBlocks := u32 (m.usedBlocks + n) }) := by
  unfold allocateBlocks
  split
  · next h => exact .inl ⟨.inl h, rfl⟩
  · next h =>
    split
    · next h' => exact .inl ⟨.inr h', rfl⟩
    · next h' => exact .inr ⟨h, h', rfl⟩

theorem testBit_allocateBlocks (h : m.testBit b = true) : (m.allocateBlocks n).2.testBit b = true := by
  rcases allocateBlocks_cases m n with ⟨-, he⟩ | ⟨-, -, he⟩ <;> rw [he]
  · exact h
  · change ((blocksFrom (m.firstFreeSize n) n).foldl setBit m).testBit b = true
    simp [testBit_foldl_setBit, h]

@[simp] theorem maximumBlocks_foldl_setBit (l : List Nat) :
    (l.foldl setBit m).maximumBlocks = m.maximumBlocks := by
  induction l generalizing m with
  | nil => rfl
  | cons a l ih => exact ih

@[simp] theorem maximumBlocks_foldl_unsetBit (l : List Nat) :
    (l.foldl unsetBit m).maximumBlocks = m.maximumBlocks := by
  induction l generalizing m with
  | nil => rfl
  | cons a l ih => exact ih

@[simp] theorem maximumBlocks_freeBlocks : (m.freeBlocks ptr n).maximumBlocks = m.maximumBlocks := by
  simp only [freeBlocks, maximumBlocks_foldl_unsetBit]

theorem testBit_freeBlocks : (m.freeBlocks ptr n).testBit b =
    (m.testBit b && !decide (b ∈ blocksFrom (ptr / blockSize) n)) := by
  rw [← testBit_foldl_unsetBit]
  simp only [freeBlocks, testBit]

@[simp] theorem maximumBlocks_allocateBlocks : (m.allocateBlocks n).2.maximumBlocks = m.maximumBlocks := by
  rcases allocateBlocks_cases m n with ⟨-, he⟩ | ⟨-, -, he⟩ <;> simp [he]

theorem AllocationOk.not_holed (h : m.AllocationOk n) (hfree : ¬ m.freeBlockCount ≤ n)
    (hframe : m.firstFreeSize n ≠ noFrame) : ¬ m.Holed (m.firstFreeSize n) n := by
  intro hh
  have hn : n < 2 ^ 32 := (not_le.1 hfree).trans (sub32_lt _ _)
  rcases allocateBlocks_cases m n with ⟨hc | hc, -⟩ | ⟨-, -, he⟩
  · exact hfree hc
  · exact hframe hc
  · have hu := h.used
    rw [he, changedBits_setBit hn.le] at hu
    have hlt := countP_holed hh
    simp only [u32, Nat.ModEq, Nat.mod_mod] at hu
    omega

theorem frame_eq_of_first (hmax : m.maximumBlocks ≤ 2 ^ 20)
    (haddr : u32 (first * blockSize) = frame * blockSize) (hlt : frame + n ≤ m.maximumBlocks)
    (hfree : ∀ b, frame ≤ b → b < frame + n → m.testBit b = false)
    (hmin : ∀ a < first, ¬ (m.FreeRun a n ∨ m.Holed a n)) : frame = first := by
  have hle : frame ≤ first := by simp only [u32, blockSize] at haddr; omega
  refine (lt_or_eq_of_le hle).resolve_left fun h => hmin frame h (.inl fun k hk => ?_)
  rw [u32_eq (by omega)]
  exact hfree _ (by omega) (by omega)

theorem AllocationOk.of_none (h : m.allocateBlocks n = (0, m)) : m.AllocationOk n := by
  constructor <;> rw [h]
  · exact fun h => absurd rfl h
  · rw [changedBits_self]
    exact Nat.ModEq.refl _

theorem AllocationSafe.ok (hsafe : m.AllocationSafe n) (hmax : m.maximumBlocks ≤ 2 ^ 20) :
    m.AllocationOk n := by
  rcases allocateBlocks_cases m n with ⟨-, he⟩ | ⟨hfree, hframe, he⟩
  · exact .of_none he
  have hn : 0 < n := pos_of_ne_zero fun h => hframe (by simp [h, firstFreeSize])
  have hn32 : n < 2 ^ 32 := (not_le.1 hfree).trans (sub32_lt _ _)
  rcases firstFreeSize_cases hmax hn with ⟨hnone, -⟩ | ⟨hlt, hhit, hmin⟩
  · exact absurd hnone hframe
  obtain ⟨hholed, hfirst⟩ := hsafe.resolve_left hfree _ hlt
  have hrun : m.FreeRun (m.firstFreeSize n) n := hhit.resolve_right fun hh =>
    let ⟨a, ha, hr⟩ := hholed hh
    hmin a ha (.inl hr)
  have hin := (hfirst hrun).resolve_left fun ⟨a, ha, hr⟩ => hmin a ha (.inl hr)
  constructor <;> rw [he]
  · intro haddr
    have hin : m.firstFreeSize n + n ≤ m.maximumBlocks := hin.resolve_right fun hd => haddr (by
      simp only [u32, blockSize]; omega)
    refine ⟨m.firstFreeSize n, u32_eq (by simp only [blockSize]; omega), hin, fun b hb hbn => ?_,
      fun b hb hbn => ?_⟩
    · have := hrun (b - m.firstFreeSize n) (by omega)
      rwa [u32_eq (by omega), Nat.add_sub_cancel' hb] at this
    · change ((blocksFrom (m.firstFreeSize n) n).foldl setBit m).testBit b = true
      simp [testBit_foldl_setBit, mem_blocksFrom (show m.firstFreeSize n + n ≤ 2 ^ 32 by omega), hb, hbn]
  · rw [changedBits_setBit hn32.le, countP_freeRun hrun]
    exact Nat.mod_modEq _ _

theorem allocationOk_iff (hmax : m.maximumBlocks ≤ 2 ^ 20) : m.AllocationOk n ↔ m.AllocationSafe n := by
  refine ⟨fun hok => ?_, fun hsafe => hsafe.ok hmax⟩
  by_cases hfree : m.freeBlockCount ≤ n
  · exact .inl hfree
  refine .inr fun b hb => ?_
  rcases eq_zero_or_pos n with rfl | hn
  · -- of zero blocks every run is free, and the first one starts at block 0
    refine ⟨fun ⟨k, _, hk, _⟩ => absurd hk (Nat.not_lt_zero k), fun _ => ?_⟩
    rcases eq_zero_or_pos b with rfl | hb0
    · exact .inr (.inr (dvd_zero _))
    · exact .inl ⟨0, hb0, fun k hk => absurd hk (Nat.not_lt_zero k)⟩
  rcases firstFreeSize_cases hmax hn with ⟨-, hnone⟩ | ⟨hlt, hhit, hmin⟩
  · exact ⟨fun h => absurd (.inr h) (hnone b hb), fun h => absurd (.inl h) (hnone b hb)⟩
  have hframe : m.firstFreeSize n ≠ noFrame := by unfold noFrame; omega
  have hnot := hok.not_holed hfree hframe
  have hrun : m.FreeRun (m.firstFreeSize n) n := hhit.resolve_right hnot
  rcases lt_trichotomy b (m.firstFreeSize n) with hbf | rfl | hbf
  · exact ⟨fun h => absurd (.inr h) (hmin b hbf), fun h => absurd (.inl h) (hmin b hbf)⟩
  · refine ⟨fun h => absurd h hnot, fun _ => .inr ?_⟩
    rcases allocateBlocks_cases m n with ⟨hc, -⟩ | ⟨-, -, he⟩
    · exact absurd hc (not_or.2 ⟨hfree, hframe⟩)
    have hframes := hok.frames
    rw [he] at hframes
    by_cases haddr : u32 (m.firstFreeSize n * blockSize) = 0
    · simp only [u32, blockSize] at haddr
      exact .inr (by omega)
    · obtain ⟨frame, hfa, hin, hclear, -⟩ := hframes haddr
      rw [frame_eq_of_first hmax hfa hin hclear hmin] at hin
      exact .inl hin
  · exact ⟨fun _ => ⟨_, hbf, hrun⟩, fun _ => .inl ⟨_, hbf, hrun⟩⟩

end PhysicalMemoryManager

open PhysicalMemoryManager

/-- A manager with the runs of blocks handed out and not yet freed: address and number of blocks. -/
structure Owners where
  manager : PhysicalMemoryManager
  live : List (Nat × Nat)

/-- The calls, and what the rest of the kernel writes into the words behind the bitmap. -/
inductive BlockRequest where
  | allocate (n : Nat)
  | free (ptr n : Nat)
  | other (memory : Nat → BitVec 32)

namespace Owners

/-- One request. A call that returns 0 has handed out nothing; only runs that were handed out are
freed, with the same count. -/
inductive Step : Owners → BlockRequest → Owners → Prop
  | allocate {o : Owners} {n : Nat} :
      Step o (.allocate n) ⟨(o.manager.allocateBlocks n).2,
        if (o.manager.allocateBlocks n).1 = 0 then o.live
        else ((o.manager.allocateBlocks n).1, n) :: o.live⟩
  | free {o : Owners} {ptr n : Nat} : (ptr, n) ∈ o.live → Step o (.free ptr n)
      ⟨o.manager.freeBlocks ptr n, o.live.erase (ptr, n)⟩
  | other {o : Owners} {memory : Nat → BitVec 32} :
      (∀ b < o.manager.maximumBlocks,
        testBit { o.manager with memoryArray := memory } b = o.manager.testBit b) →
      Step o (.other memory) { o with manager := { o.manager with memoryArray := memory } }

/-- The condition on a request: allocations are made on bitmaps that are safe for them. -/
def Safe (o : Owners) : BlockRequest → Prop
  | .allocate n => o.manager.AllocationSafe n
  | _ => True

/-- What a request has to do: `AllocateBlocks` as `AllocationOk` says, and `FreeBlocks` takes the
number of bits that changed from `usedBlocks`. -/
def StepOk (o : Owners) (o' : Owners) : BlockRequest → Prop
  | .allocate n => o.manager.AllocationOk n
  | .free .. => o'.manager.usedBlocks + changedBits o.manager o'.manager ≡ o.manager.usedBlocks [MOD 2 ^ 32]
  | .other _ => o'.manager.usedBlocks = o.manager.usedBlocks

/-- The block `b` belongs to the allocation `p`. -/
def Owns (p : Nat × Nat) (b : Nat) : Prop := p.1 / blockSize ≤ b ∧ b < p.1 / blockSize + p.2

/-- No block has two owners, and the blocks with an owner are marked blocks of the machine. -/
structure Disjoint (o : Owners) : Prop where
  inside : ∀ p ∈ o.live, ∀ b, Owns p b → b < o.manager.maximumBlocks ∧ o.manager.testBit b = true
  apart : o.live.Pairwise fun p q => ∀ b, ¬ (Owns p b ∧ Owns q b)

variable {o o' : Owners} {r : BlockRequest}

theorem Disjoint.le (hd : o.Disjoint) (hp : p ∈ o.live) :
    p.2 = 0 ∨ p.1 / blockSize + p.2 ≤ o.manager.maximumBlocks := by
  rcases eq_zero_or_pos p.2 with h0 | hpos
  · exact .inl h0
  · have hlast := (hd.inside p hp (p.1 / blockSize + (p.2 - 1)) ⟨Nat.le_add_right _ _, by omega⟩).1
    exact .inr (by omega)

theorem Disjoint.mem_blocksFrom (hd : o.Disjoint) (hmax : o.manager.maximumBlocks ≤ 2 ^ 20)
    (hp : p ∈ o.live) (b : Nat) : b ∈ blocksFrom (p.1 / blockSize) p.2 ↔ Owns p b := by
  rcases hd.le hp with h0 | hle
  · simp [h0, blocksFrom, Owns]
  · exact PhysicalMemoryManager.mem_blocksFrom (by omega)

theorem Disjoint.free {p : Nat × Nat} (hd : o.Disjoint) (hp : p ∈ o.live)
    (hmax : o.manager.maximumBlocks ≤ 2 ^ 20) : Disjoint ⟨o.manager.freeBlocks p.1 p.2, o.live.erase p⟩ := by
  have hperm := perm_cons_erase hp
  obtain ⟨hapart, hrest⟩ := pairwise_cons.1 ((hperm.pairwise_iff fun h b hb => h b hb.symm).1 hd.apart)
  refine ⟨fun q hq b hb => ?_, hrest⟩
  obtain ⟨hlt, hset⟩ := hd.inside q (mem_of_mem_erase hq) b hb
  have hnot : b ∉ blocksFrom (p.1 / blockSize) p.2 := fun hb' =>
    hapart q hq b ⟨(hd.mem_blocksFrom hmax hp b).1 hb', hb⟩
  rw [maximumBlocks_freeBlocks, testBit_freeBlocks]
  simp [hlt, hset, hnot]

theorem Disjoint.used_free (hd : o.Disjoint) (hp : p ∈ o.live)
    (hmax : o.manager.maximumBlocks ≤ 2 ^ 20) :
    (o.manager.freeBlocks p.1 p.2).usedBlocks +
      changedBits o.manager (o.manager.freeBlocks p.1 p.2) ≡ o.manager.usedBlocks [MOD 2 ^ 32] := by
  have hn : p.2 ≤ 2 ^ 32 := by
    rcases hd.le hp with h0 | hle
    · omega
    · exact (Nat.le_of_add_left_le hle).trans (by omega)
  have hall : (blocksFrom (p.1 / blockSize) p.2).countP o.manager.testBit = p.2 := by
    rw [countP_eq_length.2 fun b hb =>
      (hd.inside p hp b ((hd.mem_blocksFrom hmax hp b).1 hb)).2, length_blocksFrom]
  unfold freeBlocks
  rw [changedBits_unsetBit hn, hall]
  simp only [sub32, Nat.ModEq]
  omega

theorem Disjoint.allocate (hd : o.Disjoint) (hok : o.manager.AllocationOk n) :
    Disjoint ⟨(o.manager.allocateBlocks n).2, if (o.manager.allocateBlocks n).1 = 0 then o.live
      else ((o.manager.allocateBlocks n).1, n) :: o.live⟩ := by
  have hold : ∀ p ∈ o.live, ∀ b, Owns p b → b < (o.manager.allocateBlocks n).2.maximumBlocks ∧
      (o.manager.allocateBlocks n).2.testBit b = true := fun p hp b hb => by
    obtain ⟨hlt, hset⟩ := hd.inside p hp b hb
    exact ⟨by rwa [maximumBlocks_allocateBlocks], testBit_allocateBlocks hset⟩
  split
  · exact ⟨hold, hd.apart⟩
  · next haddr =>
    obtain ⟨frame, hframe, hin, hclear, hmark⟩ := hok.frames haddr
    have hdiv : (o.manager.allocateBlocks n).1 / blockSize = frame := by
      rw [hframe]
      exact Nat.mul_div_cancel _ (by decide)
    refine ⟨fun p hp b hb => ?_, pairwise_cons.2 ⟨fun q hq b hb => ?_, hd.apart⟩⟩
    · rcases mem_cons.1 hp with rfl | hp
      · simp only [Owns, hdiv] at hb
        exact ⟨by rw [maximumBlocks_allocateBlocks]; omega, hmark b hb.1 hb.2⟩
      · exact hold p hp b hb
    · simp only [Owns, hdiv] at hb
      have hset := (hd.inside q hq b hb.2).2
      rw [hclear b hb.1.1 hb.1.2] at hset
      cases hset

theorem Disjoint.step (hd : o.Disjoint) (hmax : o.manager.maximumBlocks ≤ 2 ^ 20)
    (hs : guarded Safe Step o r o') : StepOk o o' r ∧ o'.Disjoint ∧ o'.manager.maximumBlocks ≤ 2 ^ 20 := by
  obtain ⟨hsafe, hstep⟩ := hs
  cases hstep with
  | allocate =>
    have hok := AllocationSafe.ok hsafe hmax
    exact ⟨hok, hd.allocate hok, by rwa [maximumBlocks_allocateBlocks]⟩
  | free hp => exact ⟨hd.used_free hp hmax, hd.free hp hmax, by rwa [maximumBlocks_freeBlocks]⟩
  | other hsame =>
    refine ⟨rfl, ⟨fun p hp b hb => ?_, hd.apart⟩, hmax⟩
    obtain ⟨hlt, hset⟩ := hd.inside p hp b hb
    exact ⟨hlt, (hsame b hlt).trans hset⟩

end Owners

/-- `AllocateBlocks(n)` returns `n` consecutive free blocks of the machine, and counts them,
exactly on the bitmaps that are safe for it. In every run of `AllocateBlocks` and `FreeBlocks` whose
allocations are made on safe bitmaps no block ever has two owners, the blocks with an owner are
marked blocks of the machine, and each call changes `usedBlocks` by the number of bits it changes. -/
theorem allocateBlocks_iff_safe (m : PhysicalMemoryManager) (hmax : m.maximumBlocks ≤ 2 ^ 20) :
    (∀ n, m.AllocationOk n ↔ m.AllocationSafe n) ∧
      ∀ rs o, Run (guarded Owners.Safe Owners.Step) ⟨m, []⟩ rs o →
        o.Disjoint ∧ ∀ r o', guarded Owners.Safe Owners.Step o r o' → Owners.StepOk o o' r := by
  refine ⟨fun n => allocationOk_iff hmax, fun rs o hrun => ?_⟩
  have hinv := hrun.invariant (I := fun o => o.Disjoint ∧ o.manager.maximumBlocks ≤ 2 ^ 20)
    ⟨⟨nofun, .nil⟩, hmax⟩ fun o r o' ⟨hd, hm⟩ hs => (hd.step hm hs).2
  exact ⟨hinv.1, fun r o' hs => (hinv.1.step hinv.2 hs).1⟩

/-- Eight blocks of which only block 0 is in use; the words behind the bitmap are ones. -/
def eightBlocks : PhysicalMemoryManager :=
  ⟨8 * blockSize, 1, 8, fun i => if i = 0 then 0xffffff01#32 else 0xffffffff#32, []⟩

/-- On `eightBlocks` a request for three blocks is safe, and it gets blocks 1 to 3. -/
theorem allocateBlocks_iff_safe_eightBlocks :
    eightBlocks.AllocationOk 3 ∧ (eightBlocks.allocateBlocks 3).1 = 4096 := by
  have hrun : eightBlocks.FreeRun 1 3 := by unfold FreeRun; decide
  refine ⟨((allocateBlocks_iff_safe eightBlocks (by decide)).1 3).2 (.inr fun b _ => ?_), rfl⟩
  rcases lt_trichotomy b 1 with h | rfl | h
  · have hused : eightBlocks.testBit (u32 (0 + 0)) = true := by decide
    obtain rfl : b = 0 := by omega
    refine ⟨fun ⟨k, hk, _, _, hclear⟩ => ?_, fun hr => ?_⟩
    · rw [hclear 0 (by omega) (by omega)] at hused
      cases hused
    · rw [hr 0 (by decide)] at hused
      cases hused
  · refine ⟨fun ⟨k, _, hk, hset, _⟩ => ?_, fun _ => .inr (.inl (by decide))⟩
    rw [hrun k hk] at hset
    cases hset
  · exact ⟨fun _ => ⟨1, h, hrun⟩, fun _ => .inl ⟨1, h, hrun⟩⟩

/-- Sixteen blocks of which 0 and 2 are in use. -/
def sixteenBlocks : PhysicalMemoryManager :=
  ⟨16 * blockSize, 2, 16, fun i => if i = 0 then 0xffff0005#32 else 0xffffffff#32, []⟩

/-- A request for three of the `sixteenBlocks` returns blocks 1 to 3, and block 2 is in use. -/
theorem allocateBlocks_takes_used_block :
    (sixteenBlocks.allocateBlocks 3).1 = 1 * blockSize ∧ sixteenBlocks.testBit 2 = true ∧
      ¬ sixteenBlocks.AllocationOk 3 := by
  refine ⟨rfl, by decide, fun hok => ?_⟩
  obtain ⟨frame, hframe, -, hclear, -⟩ := hok.frames (by decide)
  have h1 : (sixteenBlocks.allocateBlocks 3).1 = 1 * blockSize := rfl
  rw [h1] at hframe
  obtain rfl : frame = 1 := by simp only [blockSize] at hframe; omega
  have := hclear 2 (by decide) (by decide)
  revert this
  decide

end HeisenKernel
