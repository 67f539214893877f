import HeisenKernel.Fat.Directory

/-!
# The FAT file system: files

The calls of the virtual file system: reading and writing a whole file, its size, and the creation
of files and directories (`fat.cpp:1004` to `fat.cpp:1179`).
-/

namespace HeisenKernel

open Lib

/-- `FAT::CreateFile` (`fat.cpp:1142`). -/
def createFile (g : Geometry) (path : List UInt8) : FatM Int := createNewDirFileEntry g path 0

/-- `FAT::CreateDirectory` (`fat.cpp:1147`). -/
def createDirectory (g : Geometry) (path : List UInt8) : FatM Int :=
  createNewDirFileEntry g path 0x10

/-- `FAT::FileExists` (`fat.cpp:1152`). -/
def fileExists (g : Geometry) (path : List UInt8) : FatM Bool := do
  match ← getEntryByPath g path with
  | none => pure false
  | some entry => pure !entry.entry.isDirectory

/-- `FAT::DirectoryExists` (`fat.cpp:1166`). -/
def directoryExists (g : Geometry) (path : List UInt8) : FatM Bool := do
  match ← getEntryByPath g path with
  | none => pure false
  | some entry => pure entry.entry.isDirectory

/-- `FAT::GetFileSize` (`fat.cpp:1004`): `0xFFFFFFFF` for a directory. -/
def getFileSize (g : Geometry) (path : List UInt8) : FatM Nat := do
  match ← getEntryByPath g path with
  | none => pure 0
  | some entry => pure (if entry.entry.isDirectory then 0xFFFFFFFF else entry.entry.fileSize)

/-- A buffer with `n` bytes from an offset on replaced. -/
def copyInto (out : Buffer) (o n : Nat) (bytes : Buffer) : Buffer := fun i =>
  if o ≤ i ∧ i < o + n then bytes (i - o) else out i

/-- The sectors of one cluster in `FAT::ReadFile` (`fat.cpp:1048`). The state is the number of bytes
read, which is also the place in the buffer of the caller, and that buffer. -/
def readClusterSectors (g : Geometry) (len sector : Nat) (acc : Nat × Buffer) :
    FatM ((Nat × Buffer) ⊕ Buffer) :=
  forReturn (fun acc i => do
    match ← readSector (u32 (g.startLBA + (sector + i))) with
    | none => pure (.inr acc.2)
    | some buffer =>
      let remainingBytes := sub32 len acc.1
      pure (.inl (u32 (acc.1 + g.bytesPerSector),
        copyInto acc.2 acc.1 (min remainingBytes g.bytesPerSector) buffer)))
    acc (List.range g.sectorsPerCluster)

/-- The loop of `FAT::ReadFile` over the chain of the file. -/
def readFileFrom (g : Geometry) (len : Nat) : (fuel cluster : Nat) → Nat × Buffer → FatM (Int × Buffer)
  | 0, _, _ => liftExec (.error .loop)
  | fuel + 1, cluster, acc =>
    if cluster ≠ 0 ∧ cluster < g.clusterEnd then do
      match ← readClusterSectors g len (g.clusterToSector cluster) acc with
      | .inr out => pure (-1, out)
      | .inl acc =>
        let next ← readTable g cluster
        readFileFrom g len fuel next acc
    else pure (0, acc.2)

/-- The length to read: that of the whole file when the argument is `-1` (`fat.cpp:1023`). -/
def readLength (g : Geometry) (path : List UInt8) (len : Nat) : FatM Nat :=
  if len = 0xFFFFFFFF then getFileSize g path else pure len

/-- `FAT::ReadFile` (`fat.cpp:1021`): the result, and the buffer of the caller after the call. The
argument `offset` is not used. -/
def readFile (g : Geometry) (path : List UInt8) (out : Buffer) (len : Nat) : FatM (Int × Buffer) := do
  let len ← readLength g path len
  match ← getEntryByPath g path with
  | none => pure (-1, out)
  | some entry =>
    if entry.entry.isDirectory then pure (-1, out)
    else readFileFrom g len walkFuel entry.entry.cluster (0, out)

/-- The ghost record of an access to the `n` bytes at `o` of the buffer of the caller. -/
def readCaller (o n : Nat) : FatM Unit :=
  modify fun s => { s with bufferRead := if n = 0 then s.bufferRead else max s.bufferRead (o + n) }

/-- One sector of the `i`-th cluster in `FAT::WriteFile` (`fat.cpp:1090`): the last one is filled up
with zeros. The state is the number of bytes written. -/
def writeFileSector (g : Geometry) (buffer : Buffer) (len i sector : Nat) (bytesWritten s : Nat) :
    FatM (Nat ⊕ Unit) := do
  let bytesLeft := sub32 len bytesWritten
  let o := u32 (i * g.clusterSize + s * g.bytesPerSector)
  let lba := u32 (g.startLBA + (sector + s))
  if bytesLeft < g.bytesPerSector then
    readCaller o bytesLeft
    if ← writeSector lba (fun k => if k < bytesLeft then buffer (o + k) else 0) then
      pure (.inl (u32 (bytesWritten + g.bytesPerSector)))
    else pure (.inr ())
  else
    readCaller o g.bytesPerSector
    if ← writeSector lba (fun k => buffer (o + k)) then
      pure (.inl (u32 (bytesWritten + g.bytesPerSector)))
    else pure (.inr ())

/-- One cluster in `FAT::WriteFile` (`fat.cpp:1088`). The state is the cluster and the number of
bytes written; behind every cluster, the last one too, another one is linked to the chain. -/
def writeFileCluster (g : Geometry) (buffer : Buffer) (len : Nat) (acc : Nat × Nat) (i : Nat) :
    FatM ((Nat × Nat) ⊕ Unit) := do
  match ← forReturn (writeFileSector g buffer len i (g.clusterToSector acc.1)) acc.2
      (List.range g.sectorsPerCluster) with
  | .inr () => pure (.inr ())
  | .inl bytesWritten =>
    let newCluster ← allocateCluster g
    writeTable g acc.1 newCluster
    pure (.inl (newCluster, bytesWritten))

/-- Clusters for a file of a length (`fat.cpp:1080`). -/
def requiredClusters (g : Geometry) (len : Nat) : Nat :=
  if len % g.clusterSize ≠ 0 then len / g.clusterSize + 1 else len / g.clusterSize

/-- The part of `FAT::WriteFile` behind the creation of the file (`fat.cpp:1075`). -/
def overwriteFile (g : Geometry) (path : List UInt8) (buffer : Buffer) (len : Nat) : FatM Int := do
  match ← getEntryByPath g path with
  | none => pure (-1)
  | some entry =>
    match ← forReturn (writeFileCluster g buffer len) (entry.entry.cluster, 0)
        (List.range (requiredClusters g len)) with
    | .inr () => pure (-1)
    | .inl _ =>
      let s ← get
      if ← modifyEntry g entry (entry.entry.modified len (fatTime s.rtc) (fatDate s.rtc)) then
        pure 0
      else pure (-1)

/-- `FAT::WriteFile` (`fat.cpp:1069`). -/
def writeFile (g : Geometry) (path : List UInt8) (buffer : Buffer) (len : Nat) (create : Bool) :
    FatM Int := do
  if (← fileExists g path) = false ∧ create then
    if (← createFile g path) ≠ 0 then pure (-1)
    else overwriteFile g path buffer len
  else overwriteFile g path buffer len

end HeisenKernel
