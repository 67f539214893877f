import HeisenKernel.Division
import HeisenKernel.Fat.Mount
import HeisenKernel.Fat.Table

/-!
# The installer's FAT32 partition

`Installer::CreateFatPartition` (`installer/installer.cpp:447`) fills in the partition table entry,
computes a BIOS parameter block from the number of sectors, and writes the reserved sectors, two
tables, the first sector of the root directory, and at last the boot sector and the FSInfo sector.
-/

namespace HeisenKernel

open Function FatM List

/-- `PartitionTableEntry` (`partitionmanager.h:11`). -/
structure PartitionTableEntry where
  bootable : Nat
  startHead : Nat
  startSector : Nat
  startCylinder : Nat
  partitionId : Nat
  endHead : Nat
  endSector : Nat
  endCylinder : Nat
  startLba : Nat
  length : Nat
deriving Repr, DecidableEq

/-- `SECTORS_PER_TRACK` (`installer.cpp:13`). -/
def sectorsPerTrack : Int := 80

/-- `LBAToCHS` (`installer.cpp:61`): head, track and sector. The address is a signed number. -/
def lbaToChs (lba : Int) : Int × Int × Int :=
  ((lba.tmod (sectorsPerTrack * 2)).tdiv sectorsPerTrack, lba.tdiv (sectorsPerTrack * 2),
    lba.tmod sectorsPerTrack + 1)

/-- The low bits of a signed number, as a bit field keeps them. -/
def bitField (width : Nat) (i : Int) : Nat := (i % 2 ^ width).toNat

/-- The entry that `CreateFatPartition` fills in (`installer.cpp:450`), for a disk of `size` bytes. -/
def newPartition (size : Nat) : PartitionTableEntry :=
  let startLba := 2048
  let length := sub32 (sub32 (u32 (divide64 size 512).1) startLba) (1024 * 1024 / 512)
  let first := lbaToChs (BitVec.ofNat 32 startLba).toInt
  let last := lbaToChs (BitVec.ofNat 32 (startLba + length)).toInt
  { bootable := 1 <<< 7
    startHead := bitField 8 first.1
    startSector := bitField 6 first.2.2
    startCylinder := bitField 10 first.2.1
    partitionId := 0x0B
    endHead := bitField 8 last.1
    endSector := bitField 6 last.2.2
    endCylinder := bitField 10 last.2.1
    startLba
    length }

/-- `alignSector` (`installer.cpp:428`). -/
def alignSector (sectors clusterSize : Nat) : Nat :=
  ((BitVec.ofNat 32 sectors + BitVec.ofNat 32 clusterSize - 1) &&& ~~~(BitVec.ofNat 32 clusterSize - 1)).toNat

/-- `cdiv` (`installer.cpp:433`). -/
def cdiv (a b : Nat) : Nat := sub32 (u32 (a + b)) 1 / b

/-- `sizeMB` (`installer.cpp:475`). -/
def sizeMB (length : Nat) : Nat := u32 (length / 1024 * 512) / 1024

/-- `SectorsPerCluster` (`installer.cpp:486`). -/
def formatSectorsPerCluster (length : Nat) : Nat :=
  if sizeMB length > 32 * 1024 then 64
  else if sizeMB length > 16 * 1024 then 32
  else if sizeMB length > 8 * 1024 then 16
  else if sizeMB length > 260 then 8
  else 1

/-- `ReservedSectors` (`installer.cpp:487`). -/
def formatReservedSectors : Nat := 32

/-- `NumOfFats` (`installer.cpp:488`). -/
def formatNumOfFats : Nat := 2

/-- `nClusters` (`installer.cpp:500`). -/
def formatClusters (length : Nat) : Nat :=
  u32 (divide64 (u64 (length * 512 + formatNumOfFats * 8))
    (formatSectorsPerCluster length * 512 + formatNumOfFats * 4)).1

/-- `SectorsPerFat32` (`installer.cpp:501`). -/
def formatSectorsPerFat (length : Nat) : Nat :=
  alignSector (cdiv (u32 (u32 (formatClusters length + 2) * 4)) 512) (formatSectorsPerCluster length)

/-- `"CactusOS"`. -/
def cactusOs : List UInt8 := [0x43, 0x61, 0x63, 0x74, 0x75, 0x73, 0x4F, 0x53]

/-- A buffer with bytes copied to an offset. -/
def putBytes (buffer : Buffer) (o : Nat) (bytes : List UInt8) : Buffer := fun i =>
  if o ≤ i ∧ i < o + bytes.length then bytes.getD (i - o) 0 else buffer i

/-- `volumeID` (`installer.cpp:514`), the four bytes as a word. -/
def volumeId (rtc : RealTimeClock) : Nat :=
  rtc.second % 256 + 256 * (rtc.day % 256) + 65536 * (rtc.month % 256) +
    16777216 * (bitField 8 (rtc.year - 2000))

/-- The values that the fields of the BIOS parameter block are set to (`installer.cpp:485`). -/
def bpbValue (entry : PartitionTableEntry) (rtc : RealTimeClock) : BpbField → Nat
  | .bytesPerSector => 512
  | .sectorsPerCluster => formatSectorsPerCluster entry.length
  | .reservedSectors => formatReservedSectors
  | .numOfFats => formatNumOfFats
  | .numDirEntries => 0
  | .totalSectorsSmall => 0
  | .mediaDescriptorType => 0xF8
  | .sectorsPerFat12 => 0
  | .sectorsPerTrack => 32
  | .numHeads => 64
  | .hiddenSectors => entry.startLba
  | .totalSectorsBig => entry.length
  | .sectorsPerFat32 => formatSectorsPerFat entry.length
  | .flags => 0
  | .fatVersionNum => 0
  | .rootDirCluster => 2
  | .fsInfoSector => 1
  | .backupBootSector => 0
  | .driveNum => 0x80
  | .winNTFlags => 0
  | .signature => 0x29
  | .volumeIDSerial => volumeId rtc
  | .bootSignature => 0xAA55

/-- The BIOS parameter block (`installer.cpp:471`): the texts and the fields, at places of their own in a
sector of zeros. -/
def biosParameterBlock (entry : PartitionTableEntry) (rtc : RealTimeClock) : Buffer :=
  let bpb : Buffer := fun _ => 0
  let bpb := putBytes bpb 0 [0xEB, 0x3C, 0x90]
  let bpb := putBytes bpb 3 cactusOs
  -- the volume label "CactusOS HD" and the type "FAT32   "
  let bpb := putBytes bpb 71 (cactusOs ++ [0x20, 0x48, 0x44])
  let bpb := putBytes bpb 82 [0x46, 0x41, 0x54, 0x33, 0x32, 0x20, 0x20, 0x20]
  BpbField.all.foldl (fun bpb f => f.put (bpbValue entry rtc f) bpb) bpb

/-- The FSInfo sector (`installer.cpp:520`): the number of free clusters and the start of the search are not
known. -/
def formatFsInfo : Buffer :=
  let fsInfo := putWord32 (fun _ => 0) 0 0x41615252
  let fsInfo := putWord32 fsInfo 484 0x61417272
  let fsInfo := putWord32 fsInfo 488 0xFFFFFFFF
  let fsInfo := putWord32 fsInfo startSearchOffset 0xFFFFFFFF
  putWord32 fsInfo 508 0xAA550000

/-- `setClusterValue` (`installer.cpp:438`). -/
def setClusterValue (fat : Buffer) (cluster value : Nat) : Buffer :=
  putWord32 fat (4 * cluster) (value % 2 ^ 28)

/-- The first sector of a table (`installer.cpp:538`): the root directory is one cluster. -/
def formatFatTable : Buffer :=
  let fatTable := setClusterValue (fun _ => 0) 0 0xFFFFFFFF
  let fatTable := setClusterValue fatTable 1 0xFFFFFFFF
  let fatTable := putByte fatTable 0 0xF8
  setClusterValue fatTable 2 0x0FFFFFF8

/-- The first sector of the root directory (`installer.cpp:548`): an entry with an attribute and no name. -/
def formatRootDir : Buffer := putByte (fun _ => 0) 11 0x08

/-- `Installer::SetupError`, which waits for ever. -/
def setupError {α : Type} : FatM α := fun _ => .error .loop

/-- `if(selectedDisk->WriteSector(lba, buffer) != 0) SetupError();` -/
def writeOrStop (lba : Nat) (buffer : Buffer) : FatM Unit := do
  if ← writeSector lba buffer then pure () else setupError

/-- The same sector written to several addresses. -/
def writeAll (buffer : Buffer) (lbas : List Nat) : FatM Unit := lbas.forM fun lba => writeOrStop lba buffer

/-- Address of the first sector of a table. -/
def fatStart (entry : PartitionTableEntry) (i : Nat) : Nat :=
  u32 (entry.startLba + formatReservedSectors + i * formatSectorsPerFat entry.length)

/-- Address of the first sector of the root directory (`installer.cpp:579`). -/
def rootDirLba (entry : PartitionTableEntry) : Nat :=
  u32 (entry.startLba + formatReservedSectors + formatNumOfFats * formatSectorsPerFat entry.length)

/-- One of the tables (`installer.cpp:565`). -/
def writeFat (entry : PartitionTableEntry) (i : Nat) : FatM Unit := do
  writeOrStop (fatStart entry i) formatFatTable
  writeAll (fun _ => 0) ((List.range (sub32 (formatSectorsPerFat entry.length) 1)).map fun c =>
    u32 (fatStart entry i + c + 1))

/-- The writes of `CreateFatPartition` (`installer.cpp:556`). -/
def writePartition (entry : PartitionTableEntry) (rtc : RealTimeClock) : FatM Unit := do
  writeAll (fun _ => 0) ((List.range formatReservedSectors).map fun i => u32 (entry.startLba + i))
  (List.range formatNumOfFats).forM fun i => writeFat entry i
  writeOrStop (rootDirLba entry) formatRootDir
  writeOrStop entry.startLba (biosParameterBlock entry rtc)
  writeOrStop (u32 (entry.startLba + 1)) formatFsInfo

/-- `Installer::CreateFatPartition` (`installer.cpp:447`) for a selected disk of `size` bytes, with the
entry that it fills in. -/
def createFatPartition (size : Nat) : FatM PartitionTableEntry := do
  let s ← get
  writePartition (newPartition size) s.rtc
  pure (newPartition size)

/-- The disk with the same sector at several addresses. -/
def putAll (buffer : Buffer) (lbas : List Nat) (disk : Nat → Buffer) : Nat → Buffer := fun lba =>
  if lba ∈ lbas then buffer else disk lba

/-- The disk with one of the tables. -/
def putFat (entry : PartitionTableEntry) (disk : Nat → Buffer) (i : Nat) : Nat → Buffer :=
  putAll (fun _ => 0) ((List.range (sub32 (formatSectorsPerFat entry.length) 1)).map fun c =>
    u32 (fatStart entry i + c + 1)) (update disk (fatStart entry i) formatFatTable)

/-- The disk behind `CreateFatPartition`. -/
def formattedDisk (entry : PartitionTableEntry) (rtc : RealTimeClock) (disk : Nat → Buffer) : Nat → Buffer :=
  let disk := putAll (fun _ => 0)
    ((List.range formatReservedSectors).map fun i => u32 (entry.startLba + i)) disk
  let disk := (List.range formatNumOfFats).foldl (putFat entry) disk
  let disk := update disk (rootDirLba entry) formatRootDir
  let disk := update disk entry.startLba (biosParameterBlock entry rtc)
  update disk (u32 (entry.startLba + 1)) formatFsInfo

/-- The number of sectors that are written. -/
def formatWrites (entry : PartitionTableEntry) : Nat :=
  formatReservedSectors + formatNumOfFats * (1 + sub32 (formatSectorsPerFat entry.length) 1) + 3

/-- The state behind `n` transfers that did not fail. -/
def Fat.transferred (s : Fat) (n : Nat) (disk : Nat → Buffer) : Fat :=
  { s with
    disk
    failures := fun i => s.failures (n + i) }

variable {s : Fat}

/-- An operation of `n` writes: it returns exactly when none of them fails. -/
def Writes (x : FatM Unit) (n : Nat) (f : (Nat → Buffer) → Nat → Buffer) : Prop :=
  ∀ s : Fat, x s = if ∀ i < n, s.failures i = false then .ok ((), s.transferred n (f s.disk))
    else .error .loop

theorem Writes.bind (hx : Writes x n f) (hy : Writes y m h) : Writes (x >>= fun _ => y) (n + m) fun disk =>
    h (f disk) := by
  intro s
  by_cases hn : ∀ i < n, s.failures i = false
  · have hxs : x s = .ok ((), s.transferred n (f s.disk)) := by rw [hx, if_pos hn]
    rw [bind_eq hxs, hy]
    have hiff : (∀ i < m, (s.transferred n (f s.disk)).failures i = false) ↔
        ∀ i < n + m, s.failures i = false := by
      constructor
      · intro hm i hi
        rcases lt_or_ge i n with hlt | hge
        · exact hn i hlt
        · have hi' : s.failures (n + (i - n)) = false := hm (i - n) (by omega)
          rwa [Nat.add_sub_cancel' hge] at hi'
      · exact fun hall i hi => hall (n + i) (by omega)
    refine if_congr hiff ?_ rfl
    simp only [Fat.transferred, add_assoc]
  · have hxs : x s = .error .loop := by rw [hx, if_neg hn]
    rw [bind_error hxs, if_neg fun hall => hn fun i hi => hall i (by omega)]

theorem writes_pure : Writes (pure ()) 0 fun disk => disk := by
  intro s
  rw [if_pos fun i hi => absurd hi (Nat.not_lt_zero i)]
  simp only [Fat.transferred, zero_add]
  rfl

theorem writes_writeOrStop (lba : Nat) (buffer : Buffer) :
    Writes (writeOrStop lba buffer) 1 fun disk => update disk lba buffer := by
  intro s
  have hiff : (∀ i < 1, s.failures i = false) ↔ s.failures 0 = false :=
    ⟨fun h => h 0 Nat.one_pos, fun h i hi => by rwa [Nat.lt_one_iff.1 hi]⟩
  simp only [hiff, Fat.transferred]
  cases h0 : s.failures 0 with
  | false =>
    have hw : writeSector lba buffer s = .ok (true, { s with
        disk := update s.disk lba buffer
        failures := fun n => s.failures (n + 1) }) := by
      rw [writeSector, h0]
      rfl
    rw [writeOrStop, bind_eq hw, if_pos rfl, if_pos rfl]
    simp only [add_comm 1]
    rfl
  | true =>
    have hw : writeSector lba buffer s = .ok (false, { s with
        failures := fun n => s.failures (n + 1) }) := by
      rw [writeSector, h0]
      rfl
    rw [writeOrStop, bind_eq hw]
    rfl

theorem writes_forM (hx : ∀ i, Writes (x i) n fun disk => f disk i) (l : List Nat) : Writes (l.forM x)
    (l.length * n) fun disk => l.foldl f disk := by
  induction l with
  | nil =>
    rw [length_nil, zero_mul]
    exact writes_pure
  | cons i l ih =>
    rw [length_cons, Nat.succ_mul, add_comm]
    exact (hx i).bind ih

theorem foldl_update_eq_putAll (buffer : Buffer) (lbas : List Nat) : ∀ disk : Nat → Buffer,
    lbas.foldl (fun disk lba => update disk lba buffer) disk = putAll buffer lbas disk := by
  induction lbas with
  | nil =>
    intro disk
    funext lba
    exact (if_neg not_mem_nil).symm
  | cons a lbas ih =>
    intro disk
    rw [foldl_cons, ih]
    funext lba
    simp only [putAll, update_apply, mem_cons]
    by_cases hmem : lba ∈ lbas
    · rw [if_pos hmem, if_pos (.inr hmem)]
    · rw [if_neg hmem]
      exact if_congr (by simp [hmem]) rfl rfl

theorem writes_writeAll (buffer : Buffer) (lbas : List Nat) :
    Writes (writeAll buffer lbas) lbas.length (putAll buffer lbas) := by
  have h := writes_forM (fun lba => writes_writeOrStop lba buffer) lbas
  simp only [mul_one, foldl_update_eq_putAll] at h
  exact h

theorem writes_writeFat (entry : PartitionTableEntry) (i : Nat) :
    Writes (writeFat entry i) (1 + sub32 (formatSectorsPerFat entry.length) 1) fun disk =>
      putFat entry disk i := by
  have h := (writes_writeOrStop (fatStart entry i) formatFatTable).bind
    (writes_writeAll (fun _ => 0) ((range (sub32 (formatSectorsPerFat entry.length) 1)).map
      fun c => u32 (fatStart entry i + c + 1)))
  rw [length_map, length_range] at h
  exact h

theorem writes_writePartition (entry : PartitionTableEntry) (rtc : RealTimeClock) :
    Writes (writePartition entry rtc) (formatWrites entry) (formattedDisk entry rtc) := by
  have hreserved := writes_writeAll (fun _ => 0)
    ((range formatReservedSectors).map fun i => u32 (entry.startLba + i))
  have hfats := writes_forM (writes_writeFat entry) (range formatNumOfFats)
  rw [length_map, length_range] at hreserved
  rw [length_range] at hfats
  have hcount : formatWrites entry = formatReservedSectors +
      (formatNumOfFats * (1 + sub32 (formatSectorsPerFat entry.length) 1) + (1 + (1 + 1))) :=
    add_assoc _ _ _
  rw [hcount]
  exact hreserved.bind (hfats.bind ((writes_writeOrStop (rootDirLba entry) formatRootDir).bind
    ((writes_writeOrStop entry.startLba (biosParameterBlock entry rtc)).bind
      (writes_writeOrStop (u32 (entry.startLba + 1)) formatFsInfo))))

theorem createFatPartition_eq (size : Nat) (s : Fat) : createFatPartition size s =
    if ∀ i < formatWrites (newPartition size), s.failures i = false then
      .ok (newPartition size, s.transferred (formatWrites (newPartition size))
        (formattedDisk (newPartition size) s.rtc s.disk))
    else .error .loop := by
  have hwrite := writes_writePartition (newPartition size) s.rtc s
  rw [createFatPartition, bind_eq get_eq]
  split
  · next hok =>
    rw [if_pos hok] at hwrite
    rw [bind_eq hwrite]
    rfl
  · next hfail =>
    rw [if_neg hfail] at hwrite
    exact bind_error hwrite

end HeisenKernel
