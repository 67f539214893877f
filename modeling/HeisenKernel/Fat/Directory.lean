import HeisenKernel.Fat.Names

/-!
# The FAT file system: directories

Reading a directory, looking up a path, and the creation of an entry (`fat.cpp:248` to
`fat.cpp:943`). The functions that go through a directory read it sector by sector and look at the
slots of each sector in turn (`walkSectors`).
-/

namespace HeisenKernel

open Lib

/-- `FATEntryInfo` (`fat.h:84`): a short entry, the name of the file, and where the entry lies. -/
structure FATEntryInfo where
  entry : Slot
  filename : List UInt8
  sector : Nat
  offsetInSector : Nat

/-- Passes after which a walk through a directory or a file is no longer counted: a walk over more
clusters or sectors than a volume can have has gone into a cycle. -/
def walkFuel : Nat := 2 ^ 33

variable {σ β : Type}

/-- The slots of `sectorsPerCluster` sectors, one after the other. `body` gets the index of the
sector and the offset of the slot in it; `onError` is what the function returns when a sector cannot
be read. -/
def walkSectors (g : Geometry) (sector : Nat) (onError : σ → β)
    (body : Nat → Nat → σ → Slot → Exec (σ ⊕ β)) (acc : σ) : FatM (σ ⊕ β) :=
  forReturn (fun acc i => do
    match ← readSector (u32 (g.startLBA + (sector + i))) with
    | none => pure (.inr (onError acc))
    | some buffer =>
      liftExec (forReturn (fun acc k => body i (k * 32) acc (slotAt buffer (k * 32))) acc
        (List.range g.slotsPerSector))) acc (List.range g.sectorsPerCluster)

/-- The sector from which the next slots of a directory are read (`fat.cpp:264`). The walk through
the root directory of a FAT12 or FAT16 volume keeps its own sector, which is zero at the start. -/
def walkSector (g : Geometry) (rootDirectory : Bool) (cluster sector : Nat) : Nat :=
  if g.fixedRoot rootDirectory then if sector = 0 then g.rootStart else sector
  else g.clusterToSector cluster

/-- The entries found so far, and the long name slots in front of the next one. -/
structure Listing where
  results : List FATEntryInfo
  lfnEntries : List Slot

/-- The name of an entry (`fat.cpp:307`). -/
def entryName (lfnEntries : List Slot) (e : Slot) : Exec (List UInt8) :=
  if 0 < lfnEntries.length then parseLFNEntries lfnEntries e else parseShortFilename e.fileName

/-- One slot of a directory in `FAT::GetDirectoryEntries` (`fat.cpp:279`). -/
def listSlot (sector offset : Nat) (acc : Listing) (e : Slot) : Exec (Listing ⊕ List FATEntryInfo) :=
  if e.first = 0x00 then .ok (.inr acc.results)
  else if e.first = 0xE5 then .ok (.inl acc)
  else if e.first = 0x2E then .ok (.inl acc)
  else if e.first = 0x05 then .ok (.inl acc)
  else if e.attributes = 0x08 then .ok (.inl acc)
  else if e.attributes = 0x0F then .ok (.inl { acc with lfnEntries := acc.lfnEntries ++ [e] })
  else do
    let filename ← entryName acc.lfnEntries e
    .ok (.inl { results := acc.results ++ [⟨e, filename, sector, offset⟩], lfnEntries := [] })

/-- The loop of `FAT::GetDirectoryEntries` over the clusters of a directory. -/
def getDirectoryEntriesFrom (g : Geometry) (rootDirectory : Bool) :
    (fuel cluster sector : Nat) → Listing → FatM (List FATEntryInfo)
  | 0, _, _, _ => liftExec (.error .loop)
  | fuel + 1, cluster, sector, acc =>
    if cluster ≠ 0 ∧ cluster < g.clusterEnd then do
      let start := walkSector g rootDirectory cluster sector
      match ← walkSectors g start Listing.results
          (fun i offset => listSlot (u32 (start + i)) offset) acc with
      | .inr results => pure results
      | .inl acc =>
        if g.fixedRoot rootDirectory then
          getDirectoryEntriesFrom g rootDirectory fuel cluster (u32 (start + 1)) acc
        else do
          let next ← readTable g cluster
          getDirectoryEntriesFrom g rootDirectory fuel next start acc
    else pure acc.results

/-- `FAT::GetDirectoryEntries` (`fat.cpp:248`). -/
def getDirectoryEntries (g : Geometry) (dirCluster : Nat) (rootDirectory : Bool) : FatM (List FATEntryInfo) :=
  getDirectoryEntriesFrom g rootDirectory walkFuel dirCluster 0 ⟨[], []⟩

/-- `PATH_SEPERATOR_C`, the backslash (`virtualfilesystem.h:14`). -/
def pathSeparator : UInt8 := 0x5C

/-- `FAT::SeachInDirectory` (`fat.cpp:331`): the first entry with the name. -/
def searchInDirectory (g : Geometry) (name : List UInt8) (dirCluster : Nat) (rootDirectory : Bool) :
    FatM (Option FATEntryInfo) := do
  let childs ← getDirectoryEntries g dirCluster rootDirectory
  pure (childs.find? fun item => item.filename = name)

/-- The loop of `FAT::GetEntryByPath` over the components of a path. -/
def searchPath (g : Geometry) : List (List UInt8) → Nat → Bool → FatM (Option FATEntryInfo)
  | [], _, _ => pure none
  | name :: pathList, searchCluster, first => do
    match ← searchInDirectory g name searchCluster first with
    | none => pure none
    | some entry =>
      if pathList = [] then pure (some entry)
      else if entry.entry.isDirectory then searchPath g pathList entry.entry.cluster false
      else pure none

/-- `FAT::GetEntryByPath` (`fat.cpp:350`). -/
def getEntryByPath (g : Geometry) (path : List UInt8) : FatM (Option FATEntryInfo) :=
  let pathList := CString.split path pathSeparator
  if pathList = [] then searchInDirectory g path g.rootDirCluster true
  else searchPath g pathList g.rootDirCluster true

/-- Where a run of free slots starts: the cluster, the sector in it and the offset in the sector. -/
structure Startpoint where
  cluster : Nat
  sector : Nat
  offset : Nat
deriving Repr, DecidableEq

/-- One slot of a directory in `FAT::FindEntryStartpoint` (`fat.cpp:507`): the number of free slots
up to here, and where they start. -/
def findSlot (entryCount cluster i offset : Nat) (acc : Nat × Startpoint) (e : Slot) :
    Exec ((Nat × Startpoint) ⊕ Option Startpoint) :=
  if e.isFree then
    let start := if acc.1 = 0 then ⟨cluster, i, offset⟩ else acc.2
    if acc.1 + 1 = entryCount then .ok (.inr (some start)) else .ok (.inl (acc.1 + 1, start))
  else .ok (.inl (0, ⟨0, 0, 0⟩))

/-- The loop of `FAT::FindEntryStartpoint` over the clusters of a directory. -/
def findEntryStartpointFrom (g : Geometry) (entryCount : Nat) (rootDirectory : Bool) :
    (fuel cluster sector : Nat) → Nat × Startpoint → FatM (Option Startpoint)
  | 0, _, _, _ => liftExec (.error .loop)
  | fuel + 1, cluster, sector, acc =>
    if cluster ≠ 0 ∧ cluster < g.clusterEnd then do
      let start := walkSector g rootDirectory cluster sector
      match ← walkSectors g start (fun _ => none) (findSlot entryCount cluster) acc with
      | .inr found => pure found
      | .inl acc =>
        if g.fixedRoot rootDirectory then
          -- the driver takes every such root directory to have 224 entries
          if u32 (g.rootStart + 224 * 32 / g.bytesPerSector) ≤ u32 (start + 1) then pure none
          else findEntryStartpointFrom g entryCount rootDirectory fuel cluster (u32 (start + 1)) acc
        else do
          let next ← readTable g cluster
          if g.clusterEnd ≤ next then do
            let newCluster ← allocateCluster g
            clearCluster g newCluster
            writeTable g cluster newCluster
            findEntryStartpointFrom g entryCount rootDirectory fuel newCluster start acc
          else findEntryStartpointFrom g entryCount rootDirectory fuel next start acc
    else pure none

/-- `FAT::FindEntryStartpoint` (`fat.cpp:485`). -/
def findEntryStartpoint (g : Geometry) (cluster entryCount : Nat) (rootDirectory : Bool) :
    FatM (Option Startpoint) :=
  findEntryStartpointFrom g entryCount rootDirectory walkFuel cluster 0 (0, ⟨0, 0, 0⟩)

/-- The loop of `FAT::WriteLongFilenameEntries`. The offset of the `i`-th slot is counted from
`sectorOffset` on in every sector. -/
def writeLongFrom (g : Geometry) (rootDirectory : Bool) (targetSector : Nat) :
    List Slot → (i sector targetCluster sectorOffset : Nat) → FatM Bool
  | [], _, _, _, _ => pure true
  | target :: entries, i, sector, targetCluster, sectorOffset => do
    let entryOffset := u32 (sectorOffset + i * 32)
    let start := walkSector g rootDirectory targetCluster sector
    match ← readSector (u32 (g.startLBA + (start + targetSector))) with
    | none => pure false
    | some buffer =>
      if entryOffset + 32 ≤ g.bytesPerSector then
        if ← writeSector (u32 (g.startLBA + (start + targetSector))) (putSlot buffer entryOffset target) then
          if g.bytesPerSector ≤ entryOffset + 32 then
            if g.fixedRoot rootDirectory then
              writeLongFrom g rootDirectory targetSector entries (i + 1) (u32 (start + 1)) targetCluster 0
            else if g.sectorsPerCluster < u32 (start + 1) then do
              let targetCluster ← readTable g targetCluster
              writeLongFrom g rootDirectory targetSector entries (i + 1) start targetCluster sectorOffset
            else
              writeLongFrom g rootDirectory targetSector entries (i + 1) (u32 (start + 1))
                targetCluster sectorOffset
          else
            writeLongFrom g rootDirectory targetSector entries (i + 1) start targetCluster sectorOffset
        else pure false
      else memoryFault

/-- `FAT::WriteLongFilenameEntries` (`fat.cpp:662`). -/
def writeLongFilenameEntries (g : Geometry) (entries : List Slot) (start : Startpoint)
    (rootDirectory : Bool) : FatM Bool :=
  writeLongFrom g rootDirectory start.sector entries 0 0 start.cluster start.offset

/-- `FAT::WriteDirectoryEntry` (`fat.cpp:702`). -/
def writeDirectoryEntry (g : Geometry) (entry : Slot) (targetSector sectorOffset : Nat) : FatM Bool := do
  match ← readSector (u32 (g.startLBA + targetSector)) with
  | none => pure false
  | some buffer =>
    if sectorOffset + 32 ≤ g.bytesPerSector then
      writeSector (u32 (g.startLBA + targetSector)) (putSlot buffer sectorOffset entry)
    else memoryFault

/-- The sector and offset of the short entry behind `count` long name slots (`fat.cpp:748`). -/
def placeShortEntry (g : Geometry) (start : Startpoint) (count : Nat) (rootDirectory : Bool) :
    FatM (Nat × Nat) := do
  let sectorOffset := u32 (start.offset + count * 32)
  if g.fixedRoot rootDirectory then
    if g.bytesPerSector ≤ sectorOffset then
      pure (u32 (g.rootStart + 1), sectorOffset % g.bytesPerSector)
    else pure (g.rootStart, sectorOffset)
  else if g.bytesPerSector ≤ sectorOffset then
    if g.sectorsPerCluster ≤ start.sector + 1 then
      let entryCluster ← readTable g start.cluster
      if g.clusterEnd ≤ entryCluster then
        let tmp ← allocateCluster g
        clearCluster g tmp
        writeTable g entryCluster tmp
        pure (g.clusterToSector tmp, sectorOffset % g.bytesPerSector)
      else pure (g.clusterToSector entryCluster, sectorOffset % g.bytesPerSector)
    else
      pure (u32 (g.clusterToSector start.cluster + (start.sector + 1)), sectorOffset % g.bytesPerSector)
  else pure (u32 (g.clusterToSector start.cluster + start.sector), sectorOffset)

/-- Number of long name slots for a name (`fat.cpp:726`). -/
def requiredLFNEntries (nameLength : Nat) : Nat :=
  if 0 < nameLength % 13 then nameLength / 13 + 1 else nameLength / 13

/-- The short entry of a new file (`fat.cpp:782`). -/
def newEntry (rtc : RealTimeClock) (name : List UInt8) (attr : UInt8) (targetCluster : Nat) : Slot :=
  directoryEntry (createShortFilename name) attr 100 (fatTime rtc) (fatDate rtc) (fatDate rtc)
    targetCluster (fatTime rtc) (fatDate rtc) 0

/-- `FAT::CreateEntry` (`fat.cpp:718`). The entry that was written, `none` for the null pointer. -/
def createEntry (g : Geometry) (parentCluster : Nat) (name : List UInt8) (attr : UInt8)
    (rootDirectory : Bool) (targetCluster : Nat) : FatM (Option Slot) := do
  let nameLength := name.length % 256
  if nameLength = 0 then
    pure none
  else
    let count := requiredLFNEntries nameLength
    match ← findEntryStartpoint g parentCluster (count + 1) rootDirectory with
    | none => pure none
    | some start =>
      let shortName := createShortFilename name
      let lfnEntries := createLFNEntriesFromName name count (checksum shortName)
      if ← writeLongFilenameEntries g lfnEntries start rootDirectory then
        let place ← placeShortEntry g start lfnEntries.length rootDirectory
        let s ← get
        let entry := newEntry s.rtc name attr targetCluster
        if ← writeDirectoryEntry g entry place.1 place.2 then
          pure (some entry)
        else pure none
      else pure none

/-- The short name of the entry of a directory for itself. -/
def dotName : ShortName := fun k => if k.val = 0 then 0x2E else 0x20

/-- The short name of the entry of a directory for its parent. -/
def dotDotName : ShortName := fun k => if k.val < 2 then 0x2E else 0x20

/-- The `.` or `..` entry of a new directory (`fat.cpp:877`). -/
def dotEntry (name : ShortName) (created : Slot) (cluster : Nat) : Slot :=
  directoryEntry name 0x10 created.creationTimeTenth created.creationTime created.creationDate
    created.accessDate cluster created.modifyTime created.modifyDate 0

/-- The part of `FAT::CreateNewDirFileEntry` behind the creation of the entry (`fat.cpp:861`): the
first cluster is cleared, and that of a directory gets its `.` and `..` entries. -/
def finishEntry (g : Geometry) (attributes : UInt8) (entryRootCluster : Nat) : Option Slot → FatM Int
  | none => pure (-1)
  | some created => do
    clearCluster g created.cluster
    if attributes &&& 0x10 ≠ 0 then
      let lba := u32 (g.startLBA + g.clusterToSector created.cluster)
      match ← readSector lba with
      | none => pure (-1)
      | some buffer =>
        if ← writeSector lba (putSlot
            (putSlot buffer 0 (dotEntry dotName created created.cluster)) 32
            (dotEntry dotDotName created entryRootCluster)) then pure 0
        else pure (-1)
    else pure 0

/-- `FAT::CreateNewDirFileEntry` (`fat.cpp:819`). The path is cut at the separator in front of its
last component; without such a separator the code writes in front of the path. -/
def createNewDirFileEntry (g : Geometry) (path : List UInt8) (attributes : UInt8) : FatM Int := do
  let pathParts := CString.split path pathSeparator
  if pathParts = [] then
    let newCluster ← allocateCluster g
    let ret ← createEntry g g.rootDirCluster path attributes true newCluster
    finishEntry g attributes 0 ret
  else
    match CString.indexOf path pathSeparator (sub32 pathParts.length 2) with
    | none => memoryFault
    | some i =>
      match ← getEntryByPath g (path.take i) with
      | none => pure (-1)
      | some parent =>
        let newCluster ← allocateCluster g
        let ret ← createEntry g parent.entry.cluster (path.drop (i + 1)) attributes false newCluster
        finishEntry g attributes parent.entry.cluster ret

/-- `FAT::ModifyEntry` (`fat.cpp:920`): the entry is only replaced when it is still on the disk. -/
def modifyEntry (g : Geometry) (entry : FATEntryInfo) (newVersion : Slot) : FatM Bool := do
  match ← readSector (u32 (g.startLBA + entry.sector)) with
  | none => pure false
  | some buffer =>
    if ∀ k, slotAt buffer entry.offsetInSector k = entry.entry k then
      writeSector (u32 (g.startLBA + entry.sector)) (putSlot buffer entry.offsetInSector newVersion)
    else pure false

end HeisenKernel
