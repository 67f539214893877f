import HeisenKernel.Bytes
import HeisenKernel.CString
import HeisenKernel.Lib.Loop

/-!
# The FAT file system: disk, allocation table and clusters

The driver of `system/vfs/fat.cpp` for FAT12, FAT16 and FAT32 volumes. What `FAT::Initialize`
computes from the boot sector is a `Geometry`; what the calls change is the state `Fat`: the disk
and the cluster at which the search for a free one starts.
-/

namespace HeisenKernel

open Lib

/-- `FATType` (`fat.h:125`). -/
inductive FatType where
  | fat12
  | fat16
  | fat32
deriving Repr, DecidableEq

/-- What `FAT::Initialize` (`fat.cpp:22`) computes from the boot sector. -/
structure Geometry where
  fatType : FatType
  startLBA : Nat
  bytesPerSector : Nat
  rootDirSectors : Nat
  sectorsPerCluster : Nat
  firstDataSector : Nat
  firstFatSector : Nat
  rootDirCluster : Nat
  totalClusters : Nat
deriving Repr, DecidableEq

namespace Geometry

/-- Bytes of one cluster (`fat.cpp:34`). -/
def clusterSize (g : Geometry) : Nat := u32 (g.bytesPerSector * g.sectorsPerCluster)

/-- `CLUSTER_END` (`fat.h:106`): this and every larger table entry ends a chain. The value of a
free entry (`CLUSTER_FREE`) is zero for the three types. -/
def clusterEnd (g : Geometry) : Nat :=
  match g.fatType with
  | .fat12 => 0xFF8
  | .fat16 => 0xFFF8
  | .fat32 => 0x0FFFFFF8

/-- `FAT::ClusterToSector` (`fat.cpp:99`). -/
def clusterToSector (g : Geometry) (cluster : Nat) : Nat :=
  u32 (sub32 cluster 2 * g.sectorsPerCluster + g.firstDataSector)

/-- `rootDirectory && FatType != FAT32`: the directory is the root of a FAT12 or FAT16 volume, which
lies in front of the data region and has no chain. -/
def fixedRoot (g : Geometry) (rootDirectory : Bool) : Bool :=
  rootDirectory && g.fatType != .fat32

/-- First sector of the root directory of a FAT12 or FAT16 volume. -/
def rootStart (g : Geometry) : Nat := sub32 g.firstDataSector g.rootDirSectors

/-- Slots of one sector of a directory. -/
def slotsPerSector (g : Geometry) : Nat := g.bytesPerSector / 32

end Geometry

/-- The clock, read by `FAT::FatTime` and `FAT::FatDate`. -/
structure RealTimeClock where
  hour : Nat
  minute : Nat
  second : Nat
  year : Nat
  month : Nat
  day : Nat
deriving Repr, DecidableEq

/-- The volume and what the driver keeps of it in memory. `failures n` tells whether the transfer
behind the next `n` ones fails. `bufferRead` is a ghost field: the end of the part that `WriteFile`
has read of the buffer of its caller. -/
structure Fat where
  disk : Nat → Buffer
  startSearchCluster : Nat
  failures : Nat → Bool
  rtc : RealTimeClock
  bufferRead : Nat

/-- A call of the driver: it changes the volume, and may not return. -/
abbrev FatM (α : Type) := StateT Fat (Except Fault) α

/-- A computation that does not use the volume. -/
def liftExec {α : Type} (x : Exec α) : FatM α := fun s => x >>= fun a => .ok (a, s)

/-- An access outside the buffer at hand. -/
def memoryFault {α : Type} : FatM α := fun _ => .error .memory

/-- `Disk::ReadSector`: the sector, or nothing when the transfer fails. -/
def readSector (lba : Nat) : FatM (Option Buffer) := fun s =>
  .ok (if s.failures 0 then none else some (s.disk lba), { s with failures := fun n => s.failures (n + 1) })

/-- `Disk::WriteSector`: true when the transfer succeeds. -/
def writeSector (lba : Nat) (buffer : Buffer) : FatM Bool := fun s =>
  if s.failures 0 then .ok (false, { s with failures := fun n => s.failures (n + 1) })
  else .ok (true, { s with
    disk := Function.update s.disk lba buffer
    failures := fun n => s.failures (n + 1) })

/-- Offset of the entry of a cluster in the table (`fat.cpp:113`, `fat.cpp:125`, `fat.cpp:136`). -/
def Geometry.fatOffset (g : Geometry) (cluster : Nat) : Nat :=
  match g.fatType with
  | .fat32 => u32 (cluster * 4)
  | .fat16 => u32 (cluster * 2)
  | .fat12 => u32 (cluster + cluster / 2)

/-- Bytes of the word that holds an entry. -/
def Geometry.entryBytes (g : Geometry) : Nat :=
  match g.fatType with
  | .fat32 => 4
  | .fat16 | .fat12 => 2

/-- Address of the sector of the table that holds the entry of a cluster. -/
def Geometry.fatLBA (g : Geometry) (cluster : Nat) : Nat :=
  u32 (g.startLBA + (g.firstFatSector + g.fatOffset cluster / g.bytesPerSector))

/-- The entry of a cluster in the buffered sector: the high four bits of a FAT32 entry are ignored,
and two FAT12 entries share the middle one of three bytes. -/
def Geometry.decodeEntry (g : Geometry) (cluster : Nat) (buffer : Buffer) (o : Nat) : Nat :=
  match g.fatType with
  | .fat32 => word32 buffer o % 2 ^ 28
  | .fat16 => word16 buffer o
  | .fat12 => if cluster % 2 = 1 then word16 buffer o / 16 else word16 buffer o % 4096

/-- The buffered sector with the entry of a cluster replaced. The masks of FAT12 keep the four bits
that belong to the neighbour (`fat.cpp:198`). -/
def Geometry.encodeEntry (g : Geometry) (cluster value : Nat) (buffer : Buffer) (o : Nat) : Buffer :=
  match g.fatType with
  | .fat32 => putWord32 buffer o value
  | .fat16 => putWord16 buffer o value
  | .fat12 =>
    if cluster % 2 = 1 then putWord16 buffer o (word16 buffer o % 16 + 16 * value)
    else putWord16 buffer o (word16 buffer o / 4096 * 4096 + value % 4096)

/-- `FAT::ReadTable` (`fat.cpp:104`). -/
def readTable (g : Geometry) (cluster : Nat) : FatM Nat := do
  if cluster < 2 ∨ g.totalClusters < cluster then
    pure 0
  else
    match ← readSector (g.fatLBA cluster) with
    | none => pure 0
    | some buffer =>
      let entOffset := g.fatOffset cluster % g.bytesPerSector
      if entOffset + g.entryBytes ≤ g.bytesPerSector then
        pure (g.decodeEntry cluster buffer entOffset)
      else memoryFault

/-- `FAT::WriteTable` (`fat.cpp:154`). A failed transfer is only logged. -/
def writeTable (g : Geometry) (cluster value : Nat) : FatM Unit := do
  if cluster < 2 ∨ g.totalClusters < cluster then
    pure ()
  else
    match ← readSector (g.fatLBA cluster) with
    | none => pure ()
    | some buffer =>
      let entOffset := g.fatOffset cluster % g.bytesPerSector
      if entOffset + g.entryBytes ≤ g.bytesPerSector then
        let _ ← writeSector (g.fatLBA cluster) (g.encodeEntry cluster value buffer entOffset)
        pure ()
      else memoryFault

/-- The loop of `FAT::AllocateCluster`, which has `left` clusters left to try from `cluster` on. -/
def allocateFrom (g : Geometry) : (left cluster : Nat) → FatM Nat
  | 0, _ => pure 0
  | left + 1, cluster => do
    let value ← readTable g cluster
    if value = 0 then
      modify fun s => { s with startSearchCluster := cluster }
      writeTable g cluster g.clusterEnd
      pure cluster
    else allocateFrom g left (cluster + 1)

/-- `FAT::AllocateCluster` (`fat.cpp:213`): the first free cluster from `startSearchCluster` on and
below `totalClusters`, marked as the end of a chain; zero when there is none. -/
def allocateCluster (g : Geometry) : FatM Nat := do
  let s ← get
  allocateFrom g (g.totalClusters - s.startSearchCluster) s.startSearchCluster

/-- One sector in `FAT::ClearCluster`, which is given up at the first failure. -/
def clearSector (g : Geometry) (cluster : Nat) (_ : Unit) (i : Nat) : FatM (Unit ⊕ Unit) := do
  if ← writeSector (u32 (g.startLBA + (g.clusterToSector cluster + i))) fun _ => 0 then
    pure (.inl ())
  else pure (.inr ())

/-- `FAT::ClearCluster` (`fat.cpp:234`). -/
def clearCluster (g : Geometry) (cluster : Nat) : FatM Unit := do
  let _ ← forReturn (clearSector g cluster) () (List.range g.sectorsPerCluster)
  pure ()

end HeisenKernel
