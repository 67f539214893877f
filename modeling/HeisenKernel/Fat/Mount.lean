import HeisenKernel.Fat

/-!
# Mounting a FAT volume

The boot sector with its BIOS parameter block, and `FAT::Initialize`, which computes from it the
geometry that the other functions of the driver use.
-/

namespace HeisenKernel

open List

/-- The integer fields of `FAT32_BPB` (`fat.h:10`). -/
inductive BpbField where
  | bytesPerSector
  | sectorsPerCluster
  | reservedSectors
  | numOfFats
  | numDirEntries
  | totalSectorsSmall
  | mediaDescriptorType
  | sectorsPerFat12
  | sectorsPerTrack
  | numHeads
  | hiddenSectors
  | totalSectorsBig
  | sectorsPerFat32
  | flags
  | fatVersionNum
  | rootDirCluster
  | fsInfoSector
  | backupBootSector
  | driveNum
  | winNTFlags
  | signature
  | volumeIDSerial
  | bootSignature
deriving Repr, DecidableEq

namespace BpbField

/-- The fields in their order. -/
def all : List BpbField :=
  [bytesPerSector, sectorsPerCluster, reservedSectors, numOfFats, numDirEntries, totalSectorsSmall,
    mediaDescriptorType, sectorsPerFat12, sectorsPerTrack, numHeads, hiddenSectors, totalSectorsBig,
    sectorsPerFat32, flags, fatVersionNum, rootDirCluster, fsInfoSector, backupBootSector, driveNum,
    winNTFlags, signature, volumeIDSerial, bootSignature]

/-- Offset of a field in the sector. -/
def offset : BpbField → Nat
  | bytesPerSector => 11
  | sectorsPerCluster => 13
  | reservedSectors => 14
  | numOfFats => 16
  | numDirEntries => 17
  | totalSectorsSmall => 19
  | mediaDescriptorType => 21
  | sectorsPerFat12 => 22
  | sectorsPerTrack => 24
  | numHeads => 26
  | hiddenSectors => 28
  | totalSectorsBig => 32
  | sectorsPerFat32 => 36
  | flags => 40
  | fatVersionNum => 42
  | rootDirCluster => 44
  | fsInfoSector => 48
  | backupBootSector => 50
  | driveNum => 64
  | winNTFlags => 65
  | signature => 66
  | volumeIDSerial => 67
  | bootSignature => 510

/-- Bytes of a field: one, two or four. -/
def width : BpbField → Nat
  | sectorsPerCluster | numOfFats | mediaDescriptorType | driveNum | winNTFlags | signature => 1
  | bytesPerSector | reservedSectors | numDirEntries | totalSectorsSmall | sectorsPerFat12
  | sectorsPerTrack | numHeads | flags | fatVersionNum | fsInfoSector | backupBootSector
  | bootSignature => 2
  | hiddenSectors | totalSectorsBig | sectorsPerFat32 | rootDirCluster | volumeIDSerial => 4

/-- The value of a field. -/
def get (f : BpbField) (bpb : Buffer) : Nat :=
  match f.width with
  | 1 => (bpb f.offset).toNat
  | 2 => word16 bpb f.offset
  | _ => word32 bpb f.offset

/-- The block with a field set. -/
def put (f : BpbField) (v : Nat) (bpb : Buffer) : Buffer :=
  match f.width with
  | 1 => putByte bpb f.offset v
  | 2 => putWord16 bpb f.offset v
  | _ => putWord32 bpb f.offset v

end BpbField

/-- The type of a volume with that many clusters (`fat.cpp:53`). -/
def fatTypeOf (totalClusters : Nat) : FatType :=
  if totalClusters < 4085 then .fat12 else if totalClusters < 65525 then .fat16 else .fat32

/-- What `FAT::Initialize` computes from the boot sector (`fat.cpp:30`). -/
def geometryOf (startLBA : Nat) (bpb : Buffer) : Geometry :=
  let bytesPerSector := BpbField.bytesPerSector.get bpb
  let sectorsPerCluster := BpbField.sectorsPerCluster.get bpb
  let rootDirSectors := (BpbField.numDirEntries.get bpb * 32 + (bytesPerSector - 1)) / bytesPerSector
  let fatSize := if BpbField.sectorsPerFat12.get bpb ≠ 0 then BpbField.sectorsPerFat12.get bpb
    else BpbField.sectorsPerFat32.get bpb
  let totalSectors := if BpbField.totalSectorsSmall.get bpb ≠ 0 then
    BpbField.totalSectorsSmall.get bpb else BpbField.totalSectorsBig.get bpb
  let reserved := BpbField.reservedSectors.get bpb
  let fats := BpbField.numOfFats.get bpb * fatSize
  let totalClusters := sub32 totalSectors (u32 (reserved + fats + rootDirSectors)) / sectorsPerCluster
  { fatType := fatTypeOf totalClusters
    startLBA
    bytesPerSector
    rootDirSectors
    sectorsPerCluster
    firstDataSector := u32 (reserved + fats + rootDirSectors)
    firstFatSector := reserved
    rootDirCluster :=
      if fatTypeOf totalClusters = .fat32 then BpbField.rootDirCluster.get bpb
      else u32 (reserved + fats)
    totalClusters }

/-- Offset of `startSearchCluster` in `FAT32_FSInfo` (`fat.h:43`). -/
def startSearchOffset : Nat := 492

/-- The cluster at which the search for a free one starts (`fat.cpp:88`), from what is in `fsInfo`. -/
def searchStart (fatType : FatType) (fsInfo : Nat) : Nat :=
  if fsInfo = 0xFFFFFFFF ∨ fatType ≠ .fat32 then 2 else fsInfo

/-- The constructor `FAT::FAT` (`fat.cpp:10`), which clears `fsInfo`, and `FAT::Initialize`
(`fat.cpp:22`): nothing when a transfer fails. A boot sector with a zero in one of the two divisors is a
fault of the processor. -/
def mount (startLBA : Nat) : FatM (Option Geometry) := do
  match ← readSector startLBA with
  | none => pure none
  | some bpb =>
    if BpbField.bytesPerSector.get bpb = 0 ∨ BpbField.sectorsPerCluster.get bpb = 0 then
      fun _ => .error .panic
    else
      let g := geometryOf startLBA bpb
      if g.fatType = .fat32 ∧ 0 < BpbField.fsInfoSector.get bpb then
        match ← readSector (u32 (startLBA + BpbField.fsInfoSector.get bpb)) with
        | none => pure none
        | some fsInfo =>
          modify fun s => { s with
            startSearchCluster := searchStart g.fatType (word32 fsInfo startSearchOffset) }
          pure (some g)
      else
        modify fun s => { s with startSearchCluster := searchStart g.fatType 0 }
        pure (some g)

namespace BpbField

variable {f f' : BpbField} {bpb bpb' : Buffer} {v : Nat}

theorem width_cases (f : BpbField) : f.width = 1 ∨ f.width = 2 ∨ f.width = 4 := by
  cases f <;> decide

theorem disjoint_of_ne : ∀ {f f' : BpbField}, f ≠ f' →
    f.offset + f.width ≤ f'.offset ∨ f'.offset + f'.width ≤ f.offset := by
  intro f f' hne
  cases f <;> cases f' <;> first | exact absurd rfl hne | decide

theorem get_congr (h : ∀ i, f.offset ≤ i → i < f.offset + f.width → bpb i = bpb' i) :
    f.get bpb = f.get bpb' := by
  rcases width_cases f with hw | hw | hw
  · rw [hw] at h
    simp only [get, hw]
    rw [h f.offset (by omega) (by omega)]
  · rw [hw] at h
    simp only [get, hw]
    exact word16_congr (h _ (by omega) (by omega)) (h _ (by omega) (by omega))
  · rw [hw] at h
    simp only [get, hw, word32]
    rw [word16_congr (h _ (by omega) (by omega)) (h _ (by omega) (by omega)),
      word16_congr (h _ (by omega) (by omega)) (h _ (by omega) (by omega))]

theorem put_apply_of_not_mem (h : i < f.offset ∨ f.offset + f.width ≤ i) : f.put v bpb i = bpb i := by
  rcases width_cases f with hw | hw | hw
  · rw [hw] at h
    simp only [put, hw]
    exact putByte_ne (by omega)
  · rw [hw] at h
    simp only [put, hw]
    exact putWord16_ne (by omega) (by omega)
  · rw [hw] at h
    simp only [put, hw]
    exact putWord32_ne h

theorem get_put_self : f.get (f.put v bpb) = v % 256 ^ f.width := by
  rcases width_cases f with hw | hw | hw
  · simp only [get, put, hw]
    rw [putByte_self, UInt8.toNat_ofNat']
    rfl
  · simp only [get, put, hw]
    exact word16_putWord16
  · simp only [get, put, hw]
    exact word32_putWord32

theorem get_put_of_ne (h : f ≠ f') : f.get (f'.put v bpb) = f.get bpb := by
  refine get_congr fun i hi hi' => put_apply_of_not_mem ?_
  rcases disjoint_of_ne h with hlt | hlt
  · exact .inl (by omega)
  · exact .inr (by omega)

theorem get_foldl_put (value : BpbField → Nat) (l : List BpbField) : ∀ bpb : Buffer,
    f.get (l.foldl (fun bpb f => f.put (value f) bpb) bpb) =
      if f ∈ l then value f % 256 ^ f.width else f.get bpb := by
  induction l with
  | nil => exact fun bpb => (if_neg not_mem_nil).symm
  | cons a l ih =>
    intro bpb
    rw [foldl_cons, ih]
    by_cases hl : f ∈ l
    · rw [if_pos hl, if_pos (mem_cons_of_mem a hl)]
    · rw [if_neg hl]
      by_cases ha : f = a
      · rw [if_pos (ha ▸ mem_cons_self), ha, get_put_self]
      · rw [if_neg (by simp [ha, hl]), get_put_of_ne ha]

theorem mem_all (f : BpbField) : f ∈ all := by
  cases f <;> decide

end BpbField

/-- `FatSize` (`fat.cpp:40`). -/
def fatSize (bpb : Buffer) : Nat :=
  if BpbField.sectorsPerFat12.get bpb ≠ 0 then BpbField.sectorsPerFat12.get bpb
  else BpbField.sectorsPerFat32.get bpb

/-- `TotalSectors` (`fat.cpp:46`). -/
def totalSectors (bpb : Buffer) : Nat :=
  if BpbField.totalSectorsSmall.get bpb ≠ 0 then BpbField.totalSectorsSmall.get bpb
  else BpbField.totalSectorsBig.get bpb

/-- The sectors in front of the data region, without a wrap. -/
def metaSectors (bpb : Buffer) : Nat :=
  BpbField.reservedSectors.get bpb + BpbField.numOfFats.get bpb * fatSize bpb +
    (BpbField.numDirEntries.get bpb * 32 + (BpbField.bytesPerSector.get bpb - 1)) / BpbField.bytesPerSector.get bpb

/-- The end of the entry of a cluster in a table, without a wrap. -/
def entryEnd (fatType : FatType) (c : Nat) : Nat :=
  match fatType with
  | .fat32 => c * 4 + 4
  | .fat16 => c * 2 + 2
  | .fat12 => c + c / 2 + 2

/-- The areas of the volume lie one behind the other in a partition of `size` sectors, and the clusters have
their entries in one table. -/
structure Geometry.Consistent (g : Geometry) (size : Nat) (bpb : Buffer) : Prop where
  sector : 512 ≤ g.bytesPerSector ∧ g.bytesPerSector % 32 = 0
  order : g.firstFatSector + BpbField.numOfFats.get bpb * fatSize bpb + g.rootDirSectors ≤ g.firstDataSector
  inside : g.firstDataSector + g.totalClusters * g.sectorsPerCluster ≤ totalSectors bpb ∧
    g.firstDataSector + g.totalClusters * g.sectorsPerCluster ≤ size
  table : ∀ c, 2 ≤ c → c ≤ g.totalClusters + 1 → entryEnd g.fatType c ≤ fatSize bpb * g.bytesPerSector

/-- What a boot sector has to say for that. -/
structure Sane (size : Nat) (bpb : Buffer) : Prop where
  sector : 512 ≤ BpbField.bytesPerSector.get bpb ∧ BpbField.bytesPerSector.get bpb % 32 = 0
  front : metaSectors bpb ≤ totalSectors bpb
  inside : metaSectors bpb + (totalSectors bpb - metaSectors bpb) / BpbField.sectorsPerCluster.get bpb *
    BpbField.sectorsPerCluster.get bpb ≤ size
  table : ∀ n, n = (totalSectors bpb - metaSectors bpb) / BpbField.sectorsPerCluster.get bpb → 0 < n →
    entryEnd (fatTypeOf n) (n + 1) ≤ fatSize bpb * BpbField.bytesPerSector.get bpb

variable {size : Nat}

theorem totalSectors_lt : totalSectors bpb < 2 ^ 32 := by
  unfold totalSectors
  split
  · have hlt : word16 bpb 19 < 2 ^ 16 := by
      have hlow := (bpb 19).toNat_lt
      have hhigh := (bpb (19 + 1)).toNat_lt
      unfold word16
      omega
    exact Nat.lt_trans hlt (by decide)
  · exact word32_lt bpb 32

theorem entryEnd_mono (h : c ≤ c') : entryEnd fatType c ≤ entryEnd fatType c' := by
  cases fatType <;> simp only [entryEnd] <;> omega

theorem consistent_iff : (geometryOf startLBA bpb).Consistent size bpb ↔ Sane size bpb := by
  have hdata : (geometryOf startLBA bpb).firstDataSector = u32 (metaSectors bpb) := rfl
  have htotal : (geometryOf startLBA bpb).totalClusters =
      sub32 (totalSectors bpb) (u32 (metaSectors bpb)) / BpbField.sectorsPerCluster.get bpb := rfl
  have hclusters : metaSectors bpb ≤ totalSectors bpb → u32 (metaSectors bpb) = metaSectors bpb ∧
      (geometryOf startLBA bpb).totalClusters =
        (totalSectors bpb - metaSectors bpb) / BpbField.sectorsPerCluster.get bpb := by
    intro hle
    have hu : u32 (metaSectors bpb) = metaSectors bpb := u32_eq (Nat.lt_of_le_of_lt hle totalSectors_lt)
    rw [htotal, hu, sub32_eq totalSectors_lt hle]
    exact ⟨rfl, rfl⟩
  constructor
  · rintro ⟨hsector, horder, hinside, htable⟩
    have hle : metaSectors bpb ≤ totalSectors bpb :=
      Nat.le_trans horder (Nat.le_trans (Nat.le_add_right _ _) hinside.1)
    obtain ⟨hu, hn⟩ := hclusters hle
    rw [hdata, hu, hn] at hinside
    refine ⟨hsector, hle, hinside.2, fun n heq hpos => ?_⟩
    have hfat : (geometryOf startLBA bpb).fatType = fatTypeOf n := by
      rw [heq, ← hn]
      rfl
    have hlast := htable (n + 1) (by omega) (Nat.le_of_eq (by rw [hn, heq]))
    rwa [hfat] at hlast
  · rintro ⟨hsector, hle, hinside, htable⟩
    obtain ⟨hu, hn⟩ := hclusters hle
    refine ⟨hsector, ?_, ?_, fun c h2 hc => ?_⟩
    · exact Nat.le_of_eq (hdata.trans hu).symm
    · rw [hdata, hu, hn]
      refine ⟨?_, hinside⟩
      have hdiv := Nat.div_mul_le_self (totalSectors bpb - metaSectors bpb) (BpbField.sectorsPerCluster.get bpb)
      exact Nat.le_trans (Nat.add_le_add_left hdiv _) (Nat.le_of_eq (Nat.add_sub_cancel' hle))
    · exact Nat.le_trans (entryEnd_mono hc) (htable _ hn (Nat.succ_le_succ_iff.1 (Nat.le_trans h2 hc)))

/-- A sector that `FAT::Initialize` needs cannot be read. -/
def MountFails (startLBA : Nat) (s : Fat) : Prop :=
  s.failures 0 = true ∨ BpbField.bytesPerSector.get (s.disk startLBA) ≠ 0 ∧
    BpbField.sectorsPerCluster.get (s.disk startLBA) ≠ 0 ∧ (geometryOf startLBA (s.disk startLBA)).fatType = .fat32 ∧
    0 < BpbField.fsInfoSector.get (s.disk startLBA) ∧ s.failures 1 = true

theorem mount_cases (startLBA : Nat) (s : Fat) :
    (MountFails startLBA s ∧ ∃ s', mount startLBA s = .ok (none, s')) ∨
    (¬MountFails startLBA s ∧ mount startLBA s = .error .panic ∧
      (BpbField.bytesPerSector.get (s.disk startLBA) = 0 ∨ BpbField.sectorsPerCluster.get (s.disk startLBA) = 0)) ∨
    (¬MountFails startLBA s ∧ (∃ s', mount startLBA s = .ok (some (geometryOf startLBA (s.disk startLBA)), s')) ∧
      BpbField.bytesPerSector.get (s.disk startLBA) ≠ 0 ∧ BpbField.sectorsPerCluster.get (s.disk startLBA) ≠ 0) := by
  unfold MountFails mount readSector
  simp only [bind, StateT.bind, Except.bind]
  cases h0 : s.failures 0 with
  | true => exact .inl ⟨.inl rfl, _, rfl⟩
  | false =>
    by_cases hzero : BpbField.bytesPerSector.get (s.disk startLBA) = 0 ∨
        BpbField.sectorsPerCluster.get (s.disk startLBA) = 0
    · refine .inr (.inl ⟨?_, congrFun (if_pos hzero) _, hzero⟩)
      rintro (h | ⟨hb, hc, -⟩)
      · cases h
      · exact hzero.elim hb hc
    · simp only [Bool.false_eq_true, if_false, if_neg hzero]
      rw [not_or] at hzero
      by_cases hinfo : (geometryOf startLBA (s.disk startLBA)).fatType = .fat32 ∧
          0 < BpbField.fsInfoSector.get (s.disk startLBA)
      · simp only [if_pos hinfo]
        cases h1 : s.failures 1 with
        | true =>
          refine .inl ⟨.inr ⟨hzero.1, hzero.2, hinfo.1, hinfo.2, rfl⟩, ?_⟩
          simp only [StateT.bind, bind, Except.bind, h1]
          exact ⟨_, rfl⟩
        | false =>
          refine .inr (.inr ⟨by simp, ?_, hzero⟩)
          simp only [StateT.bind, bind, Except.bind, h1]
          exact ⟨_, rfl⟩
      · simp only [if_neg hinfo]
        refine .inr (.inr ⟨?_, ⟨_, rfl⟩, hzero⟩)
        rintro (h | ⟨-, -, ht, hf, -⟩)
        · cases h
        · exact hinfo ⟨ht, hf⟩

/-- `FAT::Initialize` divides by no zero and accepts only consistent volumes. -/
def InitializesRight (startLBA size : Nat) (s : Fat) : Prop :=
  (∃ r, mount startLBA s = .ok r) ∧
    ∀ g s', mount startLBA s = .ok (some g, s') → g.Consistent size (s.disk startLBA)

/-- That is so when a sector cannot be read, or the divisors are not zero and the boot sector is sane. -/
theorem initializes_right_iff (startLBA size : Nat) (s : Fat) : InitializesRight startLBA size s ↔
    MountFails startLBA s ∨ BpbField.bytesPerSector.get (s.disk startLBA) ≠ 0 ∧
      BpbField.sectorsPerCluster.get (s.disk startLBA) ≠ 0 ∧ Sane size (s.disk startLBA) := by
  unfold InitializesRight
  rcases mount_cases startLBA s with ⟨hfails, s', heq⟩ | ⟨hreads, heq, hzero⟩ | ⟨hreads, ⟨s', heq⟩, hb, hc⟩
  · rw [heq]
    exact ⟨fun _ => .inl hfails, fun _ => ⟨⟨_, rfl⟩, nofun⟩⟩
  · rw [heq]
    constructor
    · rintro ⟨⟨r, hr⟩, -⟩
      cases hr
    · intro h
      obtain ⟨hb, hc, -⟩ := h.resolve_left hreads
      exact absurd hzero (not_or.2 ⟨hb, hc⟩)
  · rw [heq]
    constructor
    · rintro ⟨-, h⟩
      exact .inr ⟨hb, hc, consistent_iff.1 (h _ _ rfl)⟩
    · intro h
      refine ⟨⟨_, rfl⟩, fun g t ht => ?_⟩
      cases ht
      exact consistent_iff.2 (h.resolve_left hreads).2.2

/-- A disk of zeros. -/
def zeroDisk : Fat := ⟨fun _ _ => 0, 0, fun _ => false, ⟨0, 0, 0, 0, 0, 0⟩, 0⟩

theorem mount_divides_by_zero : mount 0 zeroDisk = .error .panic ∧ ¬InitializesRight 0 64 zeroDisk := by
  have hfault : mount 0 zeroDisk = .error .panic := rfl
  refine ⟨hfault, ?_⟩
  rintro ⟨⟨r, hr⟩, -⟩
  cases hr

end HeisenKernel
