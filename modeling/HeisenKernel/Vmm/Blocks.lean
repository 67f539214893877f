import HeisenKernel.Vmm
import HeisenKernel.PhysicalMemory.Boot
import HeisenKernel.Lib.Run

/-!
# The blocks of physical memory in AliNix

`kernel/drivers/mm/mm.c` keeps one bit for each block of 4 KB. `pmm_init` marks the blocks, clears
those of the available regions of the loader's memory map and marks the blocks of the kernel again.
-/

namespace HeisenKernel.Vmm

open Lib List Bitmap Classical

/-- `BITMAP_LEN` (`mm.h:35`): the words of the bitmap. -/
def bitmapLen : Nat := 0x8000

/-- An entry of the memory map, `mem_region_t` (`mm.h:58`). -/
structure MemRegion where
  size : Word
  addrLow : Word
  addrHigh : Word
  lenLow : Word
  lenHigh : Word
  type : Word
deriving Repr, DecidableEq

namespace MemRegion

/-- The entry at an address. -/
def read (memory : Nat → Word) (a : Nat) : MemRegion where
  size := memory a
  addrLow := memory (a + 4)
  addrHigh := memory (a + 8)
  lenLow := memory (a + 12)
  lenHigh := memory (a + 16)
  type := memory (a + 20)

/-- The memory that the entry describes. -/
def region (e : MemRegion) : Region :=
  ⟨e.addrHigh.toNat * 2 ^ 32 + e.addrLow.toNat, e.lenHigh.toNat * 2 ^ 32 + e.lenLow.toNat⟩

/-- What `pmm_init` takes for it. -/
def lowRegion (e : MemRegion) : Region := ⟨e.addrLow.toNat, e.lenLow.toNat⟩

end MemRegion

/-- `pmm_unset_bit` (`mm.c:79`), inside the bitmap. -/
def pmmUnsetBit (bit : Nat) (p : Pmm) : Exec Pmm :=
  if bit / 32 < bitmapLen then .ok { p with map := unset p.map bit } else .error .memory

/-- `pmm_init_reg` (`mm.c:105`). -/
def pmmInitReg (addr size : Word) (p : Pmm) : Exec Pmm := do
  let p ← (List.range' (addr.toNat / pageSize) (size.toNat / pageSize)).foldlM
    (fun p align => (pmmUnsetBit align p).map fun p => { p with usedBlocks := p.usedBlocks - 1 }) p
  pmmSetBit 0 p

/-- `pmm_deinit_reg` (`mm.c:119`). -/
def pmmDeinitReg (addr size : Word) (p : Pmm) : Exec Pmm :=
  (List.range' (addr.toNat / pageSize) (size.toNat / pageSize)).foldlM
    (fun p (align : Nat) => (pmmSetBit align p).map fun p => { p with usedBlocks := p.usedBlocks + 1 }) p

/-- The body of the loop over the memory map (`mm.c:58`). -/
def pmmInitEntry (p : Pmm) (e : MemRegion) : Exec Pmm :=
  if e.type = 1 then pmmInitReg e.addrLow e.lenLow p else .ok p

/-- The loop over the memory map (`mm.c:57`). A loop that has not ended after as many passes as there are
pointers does not end. -/
def parseLoop (memory : Nat → Word) (stop : Word) : Nat → Word → Pmm → Exec Pmm
  | 0, _, _ => .error .loop
  | fuel + 1, reg, p =>
    if reg < stop then do
      let p ← pmmInitEntry p (MemRegion.read memory reg.toNat)
      parseLoop memory stop fuel (reg + (MemRegion.read memory reg.toNat).size + 4) p
    else .ok p

/-- `pmm_init` (`mm.c:46`). The bitmap is cleared when the kernel is loaded, and `memset` takes bytes. -/
def pmmInit (memSize : Word) (memory : Nat → Word) (mmapAddr mmapLen : Word) (behind : Nat → Word) :
    Exec Pmm := do
  let p : Pmm :=
    { usedBlocks := memSize / 4
      maxBlocks := memSize / 4
      map := fun i => if i < bitmapLen / 4 then 0xffffffff#32 else if i < bitmapLen then 0#32 else behind i }
  let p ← parseLoop memory (mmapAddr + 24 * mmapLen) (2 ^ 32) mmapAddr p
  pmmDeinitReg 0 kernelSpaceEnd p

/-- `pmm_free` (`mm.c:148`). -/
def pmmFree (addr : Word) (p : Pmm) : Exec Pmm :=
  if addr < kernelSpaceEnd then .ok p
  else (pmmUnsetBit (addr.toNat / pageSize) p).map fun p => { p with usedBlocks := p.usedBlocks - 1 }

/-- The memory from `a` to `stop` holds the entries, one behind the other. -/
def Lists (memory : Nat → Word) (stop : Nat) : Nat → List MemRegion → Prop
  | a, [] => a = stop
  | a, e :: entries => MemRegion.read memory a = e ∧ Lists memory stop (a + e.size.toNat + 4) entries

/-- What `pmm_init` is called with: at most 4 GB of memory, and a memory map of `mmapLen` bytes. -/
structure PmmBoot where
  memSize : Word
  memory : Nat → Word
  mmapAddr : Word
  mmapLen : Word
  behind : Nat → Word
  entries : List MemRegion
  memSize_le : memSize.toNat ≤ 2 ^ 22
  lists : Lists memory (mmapAddr.toNat + mmapLen.toNat) mmapAddr.toNat entries

namespace PmmBoot

/-- `pmm_init`. -/
def init (boot : PmmBoot) : Exec Pmm :=
  pmmInit boot.memSize boot.memory boot.mmapAddr boot.mmapLen boot.behind

/-- The blocks of the machine. -/
def blocks (boot : PmmBoot) : Nat := boot.memSize.toNat / 4

/-- The blocks that `pmm_first_free` looks at. -/
def searched (boot : PmmBoot) : Nat := boot.blocks / 32 * 32

/-- The block lies wholly in an available region. -/
def Available (boot : PmmBoot) (b : Nat) : Prop :=
  ∃ e ∈ boot.entries, e.type = 1 ∧ ∀ x, BlockHasByte b x → e.region.HasByte x

/-- A free block that may be handed out. -/
def Usable (boot : PmmBoot) (p : Pmm) (b : Nat) : Prop :=
  bit p.map b = false ∧ b < boot.blocks ∧ boot.Available b ∧ kernelSpaceEnd.toNat ≤ pageSize * b

/-- `used_blocks` is the number of blocks that are not free. -/
def Counted (boot : PmmBoot) (p : Pmm) : Prop := p.usedBlocks.toNat = ones p.map boot.blocks

/-- `pmm_malloc` hands out a block that may be handed out, or the null pointer if there is none. -/
def Serves (boot : PmmBoot) (p : Pmm) : Prop :=
  ∃ r, pmmMalloc p = .ok r ∧ ((r.1 = 0 ∧ ∀ b, ¬boot.Usable p b) ∨
    ∃ b, r.1.toNat = pageSize * b ∧ boot.Usable p b)

end PmmBoot

/-- The physical memory manager, with the blocks that were returned and not yet freed. -/
structure PmmSystem where
  pmm : Pmm
  live : List Word

/-- A call of the physical memory manager. -/
inductive PmmCall where
  | malloc
  | free (addr : Word)
deriving Repr, DecidableEq

/-- The steps: `pmm_free` is called for live blocks only. -/
inductive PmmStep : PmmSystem → PmmCall → PmmSystem → Prop where
  | malloc {s : PmmSystem} {addr : Word} {p : Pmm} (h : pmmMalloc s.pmm = .ok (addr, p)) :
    PmmStep s .malloc ⟨p, if addr = 0 then s.live else addr :: s.live⟩
  | free {s : PmmSystem} {addr : Word} {p : Pmm} (hlive : addr ∈ s.live) (h : pmmFree addr s.pmm = .ok p) :
    PmmStep s (.free addr) ⟨p, s.live.erase addr⟩

namespace PmmBoot

/-- The calls that are right: `pmm_malloc` only when a block of the words that it searches is free. -/
def Allowed (boot : PmmBoot) (s : PmmSystem) : PmmCall → Prop
  | .malloc => ∃ b < boot.searched, bit s.pmm.map b = false
  | .free _ => True

/-- The entries that the loop over the memory map visits: those up to 24 times the length of the map, as long as
there are pointers. -/
def visitedFrom (memory : Nat → Word) (stop : Word) : Nat → Word → Option (List MemRegion)
  | 0, _ => none
  | fuel + 1, reg =>
    if reg < stop then
      (visitedFrom memory stop fuel (reg + (MemRegion.read memory reg.toNat).size + 4)).map
        (MemRegion.read memory reg.toNat :: ·)
    else some []

/-- The entries that `pmm_init` visits, or `none` if it does not come to an end. -/
def visited (boot : PmmBoot) : Option (List MemRegion) :=
  visitedFrom boot.memory (boot.mmapAddr + 24 * boot.mmapLen) (2 ^ 32) boot.mmapAddr

/-- The blocks that available entries have together. -/
def freed : List MemRegion → Nat
  | [] => 0
  | e :: entries => (if e.type = 1 then e.lowRegion.count else 0) + freed entries

/-- The blocks that are free behind `pmm_init`: above the kernel, and of a visited available entry by its low
words or in the part of the bitmap that `memset` does not reach. -/
def LeftFree (entries : List MemRegion) (b : Nat) : Prop :=
  kernelSpaceEnd.toNat / pageSize ≤ b ∧
    ((∃ e ∈ entries, e.type = 1 ∧ e.lowRegion.HasBlock b) ∨ bitmapLen * 8 ≤ b)

instance (entries : List MemRegion) : DecidablePred (LeftFree entries) :=
  fun _ => inferInstanceAs (Decidable (_ ∧ _))

/-- The memory maps that `pmm_init` is right for. It comes to an end and stays in the bitmap; the available
entries that it visits have as many blocks as the kernel and the blocks left free together; and the blocks left
free that are searched lie in available regions. -/
structure SafeFor (boot : PmmBoot) (entries : List MemRegion) : Prop where
  visited : boot.visited = some entries
  inside : ∀ e ∈ entries, e.type = 1 →
    e.lowRegion.count = 0 ∨ e.lowRegion.base / blockSize + e.lowRegion.count ≤ bitmapLen * 32
  balanced : freed entries % 2 ^ 32 =
    (kernelSpaceEnd.toNat / pageSize + Nat.count (LeftFree entries) boot.blocks) % 2 ^ 32
  available : ∀ b < boot.searched, LeftFree entries b → boot.Available b

/-- The memory map is safe. -/
def Safe (boot : PmmBoot) : Prop := ∃ entries, boot.SafeFor entries

end PmmBoot

variable {entries : List MemRegion}

theorem foldlM_unset (l : List Nat) (p : Pmm) :
    l.foldlM (fun p align => (pmmUnsetBit align p).map fun p => { p with usedBlocks := p.usedBlocks - 1 }) p =
      if ∀ b ∈ l, b / 32 < bitmapLen then
        .ok { p with usedBlocks := p.usedBlocks - BitVec.ofNat 32 l.length, map := l.foldl unset p.map }
      else .error .memory := by
  induction l generalizing p with
  | nil => simp; rfl
  | cons b l ih =>
    rw [foldlM_cons, pmmUnsetBit]
    by_cases hb : b / 32 < bitmapLen
    · rw [if_pos hb]
      refine (ih _).trans ?_
      have hused : p.usedBlocks - 1 - BitVec.ofNat 32 l.length =
          p.usedBlocks - BitVec.ofNat 32 (b :: l).length := by
        rw [length_cons, BitVec.ofNat_add]
        bv_omega
      simp only [forall_mem_cons, hb, true_and, hused, foldl_cons]
    · rw [if_neg hb, if_neg fun h => hb (h b mem_cons_self)]
      rfl

theorem foldlM_set (l : List Nat) (p : Pmm) :
    l.foldlM (fun p (align : Nat) => (pmmSetBit align p).map fun p => { p with usedBlocks := p.usedBlocks + 1 }) p =
      .ok { p with usedBlocks := p.usedBlocks + BitVec.ofNat 32 l.length, map := l.foldl set p.map } := by
  induction l generalizing p with
  | nil => simp; rfl
  | cons b l ih =>
    refine (ih _).trans ?_
    have hused : p.usedBlocks + 1 + BitVec.ofNat 32 l.length =
        p.usedBlocks + BitVec.ofNat 32 (b :: l).length := by
      rw [length_cons, BitVec.ofNat_add]
      bv_omega
    simp only [hused, foldl_cons, Int.toNat_natCast]

/-- The blocks of a region lie in the bitmap. -/
def MemRegion.Inside (e : MemRegion) : Prop :=
  e.lowRegion.count = 0 ∨ e.lowRegion.base / blockSize + e.lowRegion.count ≤ bitmapLen * 32

theorem MemRegion.inside_iff (e : MemRegion) :
    (∀ b ∈ List.range' (e.addrLow.toNat / pageSize) (e.lenLow.toNat / pageSize), b / 32 < bitmapLen) ↔
      e.Inside := by
  rw [MemRegion.Inside, ← Boot.forall_hasBlock_lt]
  refine forall_congr' fun b => ?_
  rw [mem_range'_1]
  have hlt : b / 32 < bitmapLen ↔ b < bitmapLen * 32 := Nat.div_lt_iff_lt_mul (by decide)
  rw [hlt]
  rfl

theorem pmmInitEntry_eq_ok (h : pmmInitEntry p e = .ok p') :
    (e.type = 1 → e.Inside) ∧ p'.maxBlocks = p.maxBlocks ∧
      p'.usedBlocks = p.usedBlocks - BitVec.ofNat 32 (PmmBoot.freed [e]) ∧
      ∀ b ≠ 0, bit p'.map b = (bit p.map b && !decide (e.type = 1 ∧ e.lowRegion.HasBlock b)) := by
  rw [pmmInitEntry] at h
  by_cases htype : e.type = 1
  · rw [if_pos htype, pmmInitReg] at h
    obtain ⟨q, hq, h⟩ := bind_eq_ok.1 h
    rw [foldlM_unset] at hq
    by_cases hinside : ∀ b ∈ range' (e.addrLow.toNat / pageSize) (e.lenLow.toNat / pageSize),
        b / 32 < bitmapLen
    · rw [if_pos hinside] at hq
      cases hq
      cases h
      refine ⟨fun _ => e.inside_iff.1 hinside, rfl, ?_, fun b hb => ?_⟩
      · simp only [PmmBoot.freed, if_pos htype, length_range', add_zero]
        rfl
      · have hmem : b ∈ range' (e.addrLow.toNat / pageSize) (e.lenLow.toNat / pageSize) ↔
            e.lowRegion.HasBlock b := mem_range'_1
        show bit (set _ 0) b = _
        rw [bit_set, bit_foldl_unset, decide_eq_false hb, Bool.or_false]
        simp only [hmem, htype, true_and]
    · rw [if_neg hinside] at hq
      cases hq
  · rw [if_neg htype] at h
    cases h
    refine ⟨fun h => absurd h htype, rfl, ?_, fun b _ => ?_⟩
    · rw [PmmBoot.freed, if_neg htype]
      exact (BitVec.sub_zero _).symm
    · rw [decide_eq_false fun h => htype h.1]
      exact (Bool.and_true _).symm

theorem exists_pmmInitEntry (h : e.type = 1 → e.Inside) (p : Pmm) : ∃ p', pmmInitEntry p e = .ok p' := by
  rw [pmmInitEntry]
  by_cases htype : e.type = 1
  · rw [if_pos htype, pmmInitReg, foldlM_unset, if_pos (e.inside_iff.2 (h htype))]
    exact ⟨_, rfl⟩
  · exact ⟨p, if_neg htype⟩

theorem foldlM_initEntry_eq_ok (h : entries.foldlM pmmInitEntry p = .ok p') :
    (∀ e ∈ entries, e.type = 1 → e.Inside) ∧ p'.maxBlocks = p.maxBlocks ∧
      p'.usedBlocks = p.usedBlocks - BitVec.ofNat 32 (PmmBoot.freed entries) ∧
      ∀ b ≠ 0, bit p'.map b =
        (bit p.map b && !decide (∃ e ∈ entries, e.type = 1 ∧ e.lowRegion.HasBlock b)) := by
  induction entries generalizing p with
  | nil =>
    cases h
    simp [PmmBoot.freed]
  | cons e entries ih =>
    obtain ⟨q, hq, h⟩ := bind_eq_ok.1 h
    obtain ⟨hin, hmax, hused, hbit⟩ := pmmInitEntry_eq_ok hq
    obtain ⟨hins, hmaxs, huseds, hbits⟩ := ih h
    refine ⟨forall_mem_cons.2 ⟨hin, hins⟩, hmaxs.trans hmax, ?_, fun b hb => ?_⟩
    · rw [huseds, hused, PmmBoot.freed, PmmBoot.freed, PmmBoot.freed, add_zero, BitVec.ofNat_add]
      bv_omega
    · rw [hbits b hb, hbit b hb]
      simp only [mem_cons, exists_eq_or_imp, Bool.and_assoc]
      rw [← Bool.not_or, ← Bool.decide_or]

theorem exists_foldlM_initEntry (h : ∀ e ∈ entries, e.type = 1 → e.Inside) (p : Pmm) :
    ∃ p', entries.foldlM pmmInitEntry p = .ok p' := by
  induction entries generalizing p with
  | nil => exact ⟨p, rfl⟩
  | cons e entries ih =>
    obtain ⟨he, hes⟩ := forall_mem_cons.1 h
    obtain ⟨q, hq⟩ := exists_pmmInitEntry he p
    rw [foldlM_cons, bind_of_ok hq]
    exact ih hes q

theorem parseLoop_eq_ok :
    parseLoop memory stop fuel reg p = .ok p' ↔
      ∃ entries, PmmBoot.visitedFrom memory stop fuel reg = some entries ∧
        entries.foldlM pmmInitEntry p = .ok p' := by
  induction fuel generalizing reg p with
  | zero =>
    constructor
    · intro h
      cases h
    · rintro ⟨_, h, _⟩
      cases h
  | succ fuel ih =>
    rw [parseLoop, PmmBoot.visitedFrom]
    by_cases hlt : reg < stop
    · rw [if_pos hlt, if_pos hlt, bind_eq_ok]
      simp only [ih, Option.map_eq_some_iff]
      constructor
      · rintro ⟨q, hq, entries, hvisited, h⟩
        exact ⟨_, ⟨entries, hvisited, rfl⟩, by rw [foldlM_cons, bind_of_ok hq, h]⟩
      · rintro ⟨_, ⟨entries, hvisited, rfl⟩, h⟩
        obtain ⟨q, hq, h⟩ := bind_eq_ok.1 h
        exact ⟨q, hq, entries, hvisited, h⟩
    · rw [if_neg hlt, if_neg hlt]
      constructor
      · intro h
        exact ⟨[], rfl, h⟩
      · rintro ⟨_, hvisited, h⟩
        cases hvisited
        exact h

theorem pmmMalloc_of_clear (h0 : bit p.map 0 = true)
    (h : ∃ b < p.maxBlocks.toNat / 32 * 32, bit p.map b = false) :
    ∃ b < p.maxBlocks.toNat / 32 * 32, bit p.map b = false ∧ (∀ a < b, bit p.map a = true) ∧
      pmmMalloc p = .ok (BitVec.ofNat 32 (pageSize * b),
        { p with usedBlocks := p.usedBlocks + 1, map := set p.map b }) := by
  cases hfind : findClear p.map (p.maxBlocks.toNat / 32) fun _ => true with
  | none =>
    obtain ⟨b, hb, hclear⟩ := h
    rw [findClear_eq_none.1 hfind b hb] at hclear
    cases hclear
  | some b =>
    obtain ⟨hb, hclear, hbefore⟩ := findClear_eq_some hfind
    have hfirst : pmmFirstFree p = b := by rw [pmmFirstFree, hfind]
    have hne : (b : Int) ≠ 0 := by
      rintro hzero
      rw [Int.natCast_eq_zero.1 hzero, h0] at hclear
      cases hclear
    refine ⟨b, hb, hclear, hbefore, ?_⟩
    rw [pmmMalloc, hfirst, if_neg hne, pmmSetBit, if_pos (Int.natCast_nonneg b)]
    rfl

theorem pmmMalloc_of_full (h : ∀ b < p.maxBlocks.toNat / 32 * 32, bit p.map b = true) :
    pmmMalloc p = .error .memory := by
  have hfirst : pmmFirstFree p = -1 := by rw [pmmFirstFree, findClear_eq_none.2 h]
  rw [pmmMalloc, hfirst, if_neg (by decide)]
  rfl

namespace PmmBoot

variable {boot : PmmBoot} {p : Pmm} {s s' : PmmSystem}

theorem blocks_le (boot : PmmBoot) : boot.blocks ≤ 2 ^ 20 := by
  have := boot.memSize_le
  rw [blocks]
  omega

theorem toNat_maxBlocks (boot : PmmBoot) : (boot.memSize / 4).toNat = boot.blocks := BitVec.toNat_udiv

theorem searched_le (boot : PmmBoot) : boot.searched ≤ boot.blocks := Nat.div_mul_le_self _ _

theorem bit_memset {behind : Nat → Word} (hb : b < bitmapLen * 32) :
    bit (fun i => if i < bitmapLen / 4 then 0xffffffff#32 else if i < bitmapLen then 0#32
      else behind i) b = decide (b < bitmapLen * 8) := by
  have hlen : bitmapLen = 0x8000 := rfl
  rw [bit]
  by_cases hlow : b < bitmapLen * 8
  · rw [if_pos (by omega), decide_eq_true hlow]
    have hall : 0xffffffff#32 = BitVec.allOnes 32 := by decide
    rw [hall, BitVec.getLsbD_allOnes, decide_eq_true (Nat.mod_lt _ (by decide))]
  · rw [if_neg (by omega), if_pos (by omega), decide_eq_false hlow]
    exact BitVec.getLsbD_zero

theorem init_eq_ok (h : boot.init = .ok p) : ∃ entries, boot.visited = some entries ∧
    (∀ e ∈ entries, e.type = 1 → e.Inside) ∧ p.maxBlocks = boot.memSize / 4 ∧
    p.usedBlocks = boot.memSize / 4 - BitVec.ofNat 32 (freed entries) +
      BitVec.ofNat 32 (kernelSpaceEnd.toNat / pageSize) ∧
    ∀ b < bitmapLen * 32, bit p.map b = false ↔ LeftFree entries b := by
  obtain ⟨q, hloop, h⟩ := bind_eq_ok.1 h
  obtain ⟨entries, hvisited, hfold⟩ := parseLoop_eq_ok.1 hloop
  obtain ⟨hinside, hmax, hused, hbits⟩ := foldlM_initEntry_eq_ok hfold
  rw [pmmDeinitReg, foldlM_set] at h
  obtain rfl := Except.ok.inj h
  refine ⟨entries, hvisited, hinside, hmax, ?_, fun b hb => ?_⟩
  · dsimp only
    rw [hused, length_range']
  · dsimp only
    have hmem : b ∈ range' ((0 : Word).toNat / pageSize) (kernelSpaceEnd.toNat / pageSize) ↔
        b < kernelSpaceEnd.toNat / pageSize := by
      rw [mem_range'_1]
      exact ⟨fun h => by simpa using h.2, fun h => ⟨Nat.zero_le b, by simpa using h⟩⟩
    rw [bit_foldl_set, Bool.or_eq_false_iff, decide_eq_false_iff_not, hmem, LeftFree, not_lt]
    rw [and_comm]
    refine and_congr_right fun hkernel => ?_
    have hne : b ≠ 0 := by
      rintro rfl
      exact absurd hkernel (by decide)
    rw [hbits b hne]
    rw [bit_memset hb, Bool.and_eq_false_iff, Bool.not_eq_false', decide_eq_true_eq,
      decide_eq_false_iff_not, not_lt, or_comm]

theorem exists_init (hvisited : boot.visited = some entries) (h : ∀ e ∈ entries, e.type = 1 → e.Inside) :
    ∃ p, boot.init = .ok p := by
  obtain ⟨q, hq⟩ := exists_foldlM_initEntry h
    { usedBlocks := boot.memSize / 4
      maxBlocks := boot.memSize / 4
      map := fun i => if i < bitmapLen / 4 then 0xffffffff#32 else if i < bitmapLen then 0#32
        else boot.behind i }
  rw [init, pmmInit, bind_of_ok (parseLoop_eq_ok.2 ⟨entries, hvisited, hq⟩), pmmDeinitReg, foldlM_set]
  exact ⟨_, rfl⟩

theorem counted_iff (hused : p.usedBlocks = boot.memSize / 4 - BitVec.ofNat 32 (freed entries) +
      BitVec.ofNat 32 (kernelSpaceEnd.toNat / pageSize))
    (hbits : ∀ b < bitmapLen * 32, bit p.map b = false ↔ LeftFree entries b) :
    boot.Counted p ↔ freed entries % 2 ^ 32 =
      (kernelSpaceEnd.toNat / pageSize + Nat.count (LeftFree entries) boot.blocks) % 2 ^ 32 := by
  have hblocks := boot.blocks_le
  have hlen : bitmapLen * 32 = 2 ^ 20 := by decide
  have hall := ones_add_count (n := boot.blocks) fun b hb => hbits b (by omega)
  have hmax := boot.toNat_maxBlocks
  rw [Counted, hused, BitVec.toNat_add, BitVec.toNat_sub, hmax, BitVec.toNat_ofNat, BitVec.toNat_ofNat]
  omega

/-- What the calls keep: the count, the blocks of the kernel in use, and the free blocks that are searched and
the live blocks available, the latter in use and different from each other. -/
structure Inv (boot : PmmBoot) (s : PmmSystem) : Prop where
  max : s.pmm.maxBlocks = boot.memSize / 4
  counted : boot.Counted s.pmm
  kernel : ∀ b < kernelSpaceEnd.toNat / pageSize, bit s.pmm.map b = true
  free : ∀ b < boot.searched, bit s.pmm.map b = false → boot.Available b
  live : ∀ addr ∈ s.live, ∃ b < boot.searched, addr.toNat = pageSize * b ∧
    kernelSpaceEnd.toNat ≤ pageSize * b ∧ bit s.pmm.map b = true ∧ boot.Available b
  nodup : s.live.Nodup

theorem kernelSpaceEnd_le (h : kernelSpaceEnd.toNat / pageSize ≤ b) :
    kernelSpaceEnd.toNat ≤ pageSize * b := by
  have hkernel : kernelSpaceEnd.toNat = 0x401000 := rfl
  have hpage : pageSize = 4096 := rfl
  rw [hkernel, hpage] at h ⊢
  omega

theorem toNat_address (h : b < boot.searched) : (BitVec.ofNat 32 (pageSize * b)).toNat = pageSize * b := by
  have hblocks := boot.blocks_le
  have hsearched := boot.searched_le
  have hpage : pageSize = 4096 := rfl
  rw [BitVec.toNat_ofNat, hpage, Nat.mod_eq_of_lt (by omega)]

theorem malloc_of_allowed (hmax : s.pmm.maxBlocks = boot.memSize / 4)
    (hkernel : ∀ b < kernelSpaceEnd.toNat / pageSize, bit s.pmm.map b = true)
    (ha : boot.Allowed s .malloc) : ∃ b < boot.searched, bit s.pmm.map b = false ∧
      (∀ a < b, bit s.pmm.map a = true) ∧ kernelSpaceEnd.toNat ≤ pageSize * b ∧
      pmmMalloc s.pmm = .ok (BitVec.ofNat 32 (pageSize * b),
        { s.pmm with usedBlocks := s.pmm.usedBlocks + 1, map := set s.pmm.map b }) := by
  have hsearched : s.pmm.maxBlocks.toNat / 32 * 32 = boot.searched := by
    rw [hmax, toNat_maxBlocks, searched]
  have hclear := pmmMalloc_of_clear (hkernel 0 (by decide)) (by rw [hsearched]; exact ha)
  rw [hsearched] at hclear
  obtain ⟨b, hb, hfree, hbefore, hmalloc⟩ := hclear
  refine ⟨b, hb, hfree, hbefore, kernelSpaceEnd_le (Nat.le_of_not_lt fun hlt => ?_), hmalloc⟩
  rw [hkernel b hlt] at hfree
  cases hfree

theorem address_ne_zero (hb : b < boot.searched) (h : kernelSpaceEnd.toNat ≤ pageSize * b) :
    BitVec.ofNat 32 (pageSize * b) ≠ 0 := by
  intro hzero
  have haddr := toNat_address hb
  rw [hzero] at haddr
  have hkernel : kernelSpaceEnd.toNat = 0x401000 := rfl
  have hnull : (0 : Word).toNat = 0 := rfl
  omega

theorem Inv.serves (h : boot.Inv s) (ha : boot.Allowed s .malloc) : boot.Serves s.pmm := by
  obtain ⟨b, hb, hfree, -, hend, hmalloc⟩ := malloc_of_allowed h.max h.kernel ha
  exact ⟨_, hmalloc, .inr ⟨b, toNat_address hb, hfree, lt_of_lt_of_le hb boot.searched_le,
    h.free b hb hfree, hend⟩⟩

theorem Inv.not_serves (h : boot.Inv s) (ha : ¬boot.Allowed s .malloc) : ¬boot.Serves s.pmm := by
  rintro ⟨r, hr, -⟩
  have hfull : ∀ b < s.pmm.maxBlocks.toNat / 32 * 32, bit s.pmm.map b = true := by
    intro b hb
    rw [h.max, toNat_maxBlocks] at hb
    exact Bool.eq_true_of_not_eq_false fun hclear => ha ⟨b, hb, hclear⟩
  rw [pmmMalloc_of_full hfull] at hr
  cases hr

theorem Inv.malloc (h : boot.Inv s) (ha : boot.Allowed s .malloc) (hstep : PmmStep s .malloc s') :
    boot.Inv s' := by
  obtain ⟨b, hb, hfree, -, hend, hmalloc⟩ := malloc_of_allowed h.max h.kernel ha
  cases hstep with
  | malloc hcall =>
    rw [hmalloc] at hcall
    cases hcall
    rw [if_neg (address_ne_zero hb hend)]
    have hlt : b < boot.blocks := lt_of_lt_of_le hb boot.searched_le
    have hones := ones_set hlt hfree
    have hle : ones (set s.pmm.map b) boot.blocks ≤ boot.blocks := ones_le
    have hcounted := h.counted
    have hblocks := boot.blocks_le
    have hkept : ∀ a, bit s.pmm.map a = true → bit (set s.pmm.map b) a = true := by
      intro a hset
      rw [bit_set, hset, Bool.true_or]
    refine ⟨h.max, ?_, fun a ha => hkept a (h.kernel a ha), fun a ha hclear => ?_, ?_, ?_⟩
    · rw [Counted] at hcounted ⊢
      have hone : (1 : Word).toNat = 1 := rfl
      rw [BitVec.toNat_add, hone, hcounted, hones]
      omega
    · refine h.free a ha (Bool.eq_false_of_not_eq_true fun hset => ?_)
      rw [hkept a hset] at hclear
      cases hclear
    · refine forall_mem_cons.2 ⟨⟨b, hb, toNat_address hb, hend, ?_, h.free b hb hfree⟩, fun addr hlive => ?_⟩
      · simp
      · obtain ⟨a, ha, haddr, haend, hset, havailable⟩ := h.live addr hlive
        exact ⟨a, ha, haddr, haend, hkept a hset, havailable⟩
    · refine nodup_cons.2 ⟨fun hlive => ?_, h.nodup⟩
      obtain ⟨a, ha, haddr, -, hset, -⟩ := h.live _ hlive
      rw [toNat_address hb] at haddr
      rw [← Nat.eq_of_mul_eq_mul_left (by decide) haddr, hfree] at hset
      cases hset

theorem Inv.pmmFree (h : boot.Inv s) (hstep : PmmStep s (.free addr) s') : boot.Inv s' := by
  cases hstep with
  | free hlive hcall =>
    obtain ⟨b, hb, haddr, hend, hset, havailable⟩ := h.live addr hlive
    have hlt : b < boot.blocks := lt_of_lt_of_le hb boot.searched_le
    have hblock : addr.toNat / pageSize = b := by
      rw [haddr]
      exact Nat.mul_div_cancel_left b (by decide)
    have hin : b / 32 < bitmapLen := by
      have hblocks := boot.blocks_le
      have hlen : bitmapLen = 0x8000 := rfl
      omega
    have habove : ¬addr < kernelSpaceEnd := by
      rw [BitVec.lt_def]
      omega
    rw [Vmm.pmmFree, if_neg habove, hblock, pmmUnsetBit, if_pos hin] at hcall
    cases hcall
    have hones := ones_unset hlt hset
    have hcounted := h.counted
    have hkept : ∀ a ≠ b, bit (unset s.pmm.map b) a = bit s.pmm.map a := by
      intro a hne
      simp [hne]
    refine ⟨h.max, ?_, fun a ha => ?_, fun a ha hclear => ?_, fun addr' hlive' => ?_, h.nodup.erase addr⟩
    · rw [Counted] at hcounted ⊢
      dsimp only
      have hone : (1 : Word).toNat = 1 := rfl
      rw [BitVec.toNat_sub, hone, hcounted]
      omega
    · have hne : a ≠ b := by
        rintro rfl
        have hpage : pageSize = 4096 := rfl
        rw [hpage] at ha hend
        omega
      exact (hkept a hne).trans (h.kernel a ha)
    · rcases eq_or_ne a b with rfl | hne
      · exact havailable
      · exact h.free a ha ((hkept a hne).symm.trans hclear)
    · obtain ⟨hne, hmem⟩ := (List.Nodup.mem_erase_iff h.nodup).1 hlive'
      obtain ⟨a, ha, haddr', haend, haset, haavailable⟩ := h.live addr' hmem
      refine ⟨a, ha, haddr', haend, (hkept a fun heq => hne ?_).trans haset, haavailable⟩
      apply BitVec.eq_of_toNat_eq
      rw [haddr', haddr, heq]

theorem not_serves_of_unavailable (hb : b < boot.searched)
    (hend : kernelSpaceEnd.toNat ≤ pageSize * b) (hmalloc : pmmMalloc p = .ok (BitVec.ofNat 32 (pageSize * b), p'))
    (hnot : ¬boot.Available b) : ¬boot.Serves p := by
  rintro ⟨r, hr, hcases⟩
  rw [hmalloc] at hr
  obtain rfl := Except.ok.inj hr
  rcases hcases with ⟨hnull, -⟩ | ⟨a, haddr, -, -, havailable, -⟩
  · exact address_ne_zero hb hend hnull
  · rw [toNat_address hb] at haddr
    rw [← Nat.eq_of_mul_eq_mul_left (by decide) haddr] at havailable
    exact hnot havailable

theorem exists_not_serves (hmax : s.pmm.maxBlocks = boot.memSize / 4)
    (hkernel : ∀ b < kernelSpaceEnd.toNat / pageSize, bit s.pmm.map b = true)
    (hb : b < boot.searched) (hfree : bit s.pmm.map b = false) (hnot : ¬boot.Available b) :
    ∃ calls s', Run (guarded boot.Allowed PmmStep) s calls s' ∧ boot.Allowed s' .malloc ∧
      ¬boot.Serves s'.pmm := by
  -- The blocks that are free below `b` become fewer with each call.
  obtain ⟨n, hn⟩ : ∃ n, b - ones s.pmm.map b < n := ⟨_, Nat.lt_succ_self _⟩
  induction n generalizing s with
  | zero => exact absurd hn (Nat.not_lt_zero _)
  | succ n ih =>
    have ha : boot.Allowed s .malloc := ⟨b, hb, hfree⟩
    obtain ⟨f, hf, hffree, hbefore, hend, hmalloc⟩ := malloc_of_allowed hmax hkernel ha
    by_cases hfavailable : boot.Available f
    · have hlt : f < b := by
        refine lt_of_le_of_ne (Nat.le_of_not_lt fun hlt => ?_) fun heq => hnot (heq ▸ hfavailable)
        rw [hbefore b hlt] at hfree
        cases hfree
      have hones := ones_set hlt hffree
      have hle : ones (set s.pmm.map f) b ≤ b := ones_le
      obtain ⟨t, hstep, hmax', hmap⟩ : ∃ t, PmmStep s .malloc t ∧ t.pmm.maxBlocks = s.pmm.maxBlocks ∧
        t.pmm.map = set s.pmm.map f := ⟨_, .malloc hmalloc, rfl, rfl⟩
      have hkernel' : ∀ a < kernelSpaceEnd.toNat / pageSize, bit t.pmm.map a = true := by
        intro a hlow
        rw [hmap, bit_set, hkernel a hlow, Bool.true_or]
      have hfree' : bit t.pmm.map b = false := by
        rw [hmap, bit_set, hfree, decide_eq_false (ne_of_gt hlt)]
        rfl
      obtain ⟨calls, s', hrun, hallowed, hwrong⟩ := ih (hmax'.trans hmax) hkernel' hfree'
        (by rw [hmap, hones]; omega)
      exact ⟨_, s', (Run.nil.snoc ⟨ha, hstep⟩).append hrun, hallowed, hwrong⟩
    · exact ⟨[], s, .nil, ha, not_serves_of_unavailable hf hend hmalloc hfavailable⟩

theorem bit_kernel (hbits : ∀ b < bitmapLen * 32, bit p.map b = false ↔ LeftFree entries b) :
    ∀ b < kernelSpaceEnd.toNat / pageSize, bit p.map b = true := by
  intro b hb
  have hkernel : kernelSpaceEnd.toNat / pageSize = 0x401 := by decide
  have hlen : bitmapLen * 32 = 2 ^ 20 := by decide
  refine Bool.eq_true_of_not_eq_false fun hclear => ?_
  exact absurd ((hbits b (by omega)).1 hclear).1 (not_le.2 hb)

/-- Behind `pmm_init` with a safe memory map, `used_blocks` is right in every state that is reached by calls of
`pmm_free` for live blocks and calls of `pmm_malloc` while a block of the searched words is free, and these
calls of `pmm_malloc` are right and no others. With any other memory map `pmm_init` does not return, or its count
is wrong, or one of these calls hands out a block that is not available. -/
theorem pmm_right (boot : PmmBoot) :
    (boot.Safe → ∃ p, boot.init = .ok p ∧
      ∀ calls s, Run (guarded boot.Allowed PmmStep) ⟨p, []⟩ calls s →
        boot.Counted s.pmm ∧ (boot.Serves s.pmm ↔ boot.Allowed s .malloc)) ∧
    (¬boot.Safe → ∀ p, boot.init = .ok p → ¬boot.Counted p ∨
      ∃ calls s, Run (guarded boot.Allowed PmmStep) ⟨p, []⟩ calls s ∧ boot.Allowed s .malloc ∧
        ¬boot.Serves s.pmm) := by
  have hlen : bitmapLen * 32 = 2 ^ 20 := by decide
  have hblocks := boot.blocks_le
  have hsearched := boot.searched_le
  constructor
  · rintro ⟨entries, hsafe⟩
    obtain ⟨p, hp⟩ := exists_init hsafe.visited hsafe.inside
    obtain ⟨entries', hvisited, -, hmax, hused, hbits⟩ := init_eq_ok hp
    obtain rfl := Option.some.inj (hsafe.visited.symm.trans hvisited)
    have hinit : boot.Inv ⟨p, []⟩ := by
      refine ⟨hmax, (counted_iff hused hbits).2 hsafe.balanced, bit_kernel hbits, fun b hb hclear => ?_,
        fun addr h => absurd h not_mem_nil, nodup_nil⟩
      exact hsafe.available b hb ((hbits b (by omega)).1 hclear)
    refine ⟨p, hp, fun calls s hrun => ?_⟩
    have hinv : boot.Inv s := by
      refine hrun.invariant hinit fun s call s' hs hstep => ?_
      cases call with
      | malloc => exact hs.malloc hstep.1 hstep.2
      | free addr => exact hs.pmmFree hstep.2
    refine ⟨hinv.counted, fun hserves => ?_, hinv.serves⟩
    exact byContradiction fun ha => hinv.not_serves ha hserves
  · intro hunsafe p hp
    obtain ⟨entries, hvisited, hinside, hmax, hused, hbits⟩ := init_eq_ok hp
    rw [counted_iff hused hbits, or_iff_not_imp_left, not_not]
    intro hbalanced
    by_contra hright
    refine hunsafe ⟨entries, hvisited, hinside, hbalanced, fun b hb hfree => ?_⟩
    by_contra hnot
    exact hright (exists_not_serves hmax (bit_kernel hbits) hb ((hbits b (by omega)).2 hfree) hnot)

/-- A memory map of one available entry of `len` bytes at `0x1000`. -/
def mapOf (len : Word) : Nat → Word := fun a =>
  if a = 0x1000 then 20 else if a = 0x100C then len else if a = 0x1014 then 1 else 0

theorem lists_mapOf (len : Word) : Lists (mapOf len) (0x1000 + 24) 0x1000 [⟨20, 0, 0, len, 0, 1⟩] := ⟨rfl, rfl⟩

theorem memSize_small {memSize : Word} (h : memSize ≤ 8192) : memSize.toNat ≤ 2 ^ 22 := le_trans h (by decide)

/-- A machine whose memory is one available region, with its memory map. -/
def machine (memSize len : Word) (h : memSize ≤ 8192) : PmmBoot where
  memSize := memSize
  memory := mapOf len
  mmapAddr := 0x1000
  mmapLen := 24
  behind := fun _ => 0
  entries := [⟨20, 0, 0, len, 0, 1⟩]
  memSize_le := memSize_small h
  lists := lists_mapOf len

/-- The entries that are visited in the memory map of a machine: behind the one of the map zeros. -/
def machineEntries (len : Word) : List MemRegion := ⟨20, 0, 0, len, 0, 1⟩ :: List.replicate 138 ⟨0, 0, 0, 0, 0, 0⟩

/-- A machine of 8 MB: a first block is handed out, and the count is right. -/
theorem pmm_right_machine : ∃ (boot : PmmBoot) (p : Pmm) (s : PmmSystem), boot.memSize = 8192 ∧ boot.init = .ok p ∧
    Run (guarded boot.Allowed PmmStep) ⟨p, []⟩ [.malloc] s ∧ boot.Counted s.pmm ∧
    boot.Serves s.pmm := by
  let boot := machine 8192 0x800000 (by decide)
  have hsafe : boot.SafeFor (machineEntries 0x800000) := by
    refine ⟨by decide +kernel, by decide +kernel, by decide +kernel, fun b hb _ => ?_⟩
    refine ⟨_, mem_singleton_self _, rfl, fun x hx => ⟨Nat.zero_le x, ?_⟩⟩
    have hsearched : boot.searched = 2048 := by decide +kernel
    have hx : x < (b + 1) * 4096 := hx.2
    show x < 0 * 2 ^ 32 + 0 + (0 * 2 ^ 32 + 0x800000)
    omega
  obtain ⟨p, hp, hruns⟩ := (pmm_right boot).1 ⟨_, hsafe⟩
  obtain ⟨entries, hvisited, -, hmax, -, hbits⟩ := init_eq_ok hp
  obtain rfl := Option.some.inj (hsafe.visited.symm.trans hvisited)
  have hclear : ∀ b, b = 1025 ∨ b = 1026 → bit p.map b = false := by
    rintro b (rfl | rfl)
    · exact (hbits _ (by decide)).2 (by decide +kernel)
    · exact (hbits _ (by decide)).2 (by decide +kernel)
  have ha : boot.Allowed ⟨p, []⟩ .malloc := ⟨1025, by decide, hclear 1025 (.inl rfl)⟩
  obtain ⟨b, -, -, hbefore, -, hmalloc⟩ := malloc_of_allowed (s := ⟨p, []⟩) hmax (bit_kernel hbits) ha
  have hrun : Run (guarded boot.Allowed PmmStep) ⟨p, []⟩ [.malloc] _ := Run.nil.snoc ⟨ha, .malloc hmalloc⟩
  obtain ⟨hcounted, hserves⟩ := hruns _ _ hrun
  refine ⟨boot, p, _, rfl, hp, hrun, hcounted, hserves.2 ⟨1026, by decide, ?_⟩⟩
  have hle : b ≤ 1025 := Nat.le_of_not_lt fun hlt => by
    have hset := hbefore 1025 hlt
    rw [hclear 1025 (.inl rfl)] at hset
    cases hset
  show bit (set p.map b) 1026 = false
  rw [bit_set, hclear 1026 (.inr rfl), decide_eq_false (by omega)]
  rfl

/-- On a machine whose memory ends with the kernel there is no block to hand out, and `pmm_malloc` does not
return the null pointer. -/
theorem pmmMalloc_not_null : ∃ (boot : PmmBoot) (p : Pmm), boot.init = .ok p ∧ (∀ b, ¬boot.Usable p b) ∧
    ∀ p', pmmMalloc p ≠ .ok (0, p') := by
  let boot := machine 4100 0x401000 (by decide)
  have hvisited : boot.visited = some (machineEntries 0x401000) := by decide +kernel
  have hinside : ∀ e ∈ machineEntries 0x401000, e.type = 1 →
      e.lowRegion.count = 0 ∨ e.lowRegion.base / blockSize + e.lowRegion.count ≤ bitmapLen * 32 := by
    decide +kernel
  obtain ⟨p, hp⟩ := exists_init hvisited hinside
  obtain ⟨entries, -, -, hmax, -, hbits⟩ := init_eq_ok hp
  have hset : ∀ b < boot.blocks, bit p.map b = true := by
    have hblocks : boot.blocks = kernelSpaceEnd.toNat / pageSize := by decide +kernel
    rw [hblocks]
    exact bit_kernel hbits
  refine ⟨boot, p, hp, fun b hb => ?_, fun p' h => ?_⟩
  · rw [Usable, hset b hb.2.1] at hb
    exact absurd hb.1 (by decide)
  · have hfull : pmmMalloc p = .error .memory := by
      refine pmmMalloc_of_full fun b hb => hset b ?_
      rw [hmax, toNat_maxBlocks] at hb
      exact lt_of_lt_of_le hb boot.searched_le
    rw [hfull] at h
    cases h

end PmmBoot

end HeisenKernel.Vmm
