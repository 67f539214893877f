import HeisenKernel.CString
import HeisenKernel.Bytes
import HeisenKernel.Lib.Loop

/-!
# Directories of an ISO 9660 volume

Translation of the directory part of `vfs/iso9660.cpp`.
-/

namespace HeisenKernel

/-- `VFSEntry` (`lib/include/shared.h:32`), with the bytes of the name that are copied. -/
structure VFSEntry where
  size : Nat
  isDir : Bool
  sec : Nat
  min : Nat
  hour : Nat
  day : Nat
  month : Nat
  year : Nat
  name : List UInt8
deriving DecidableEq, Repr

/-- `VFS_NAME_LENGTH` (`shared.h:10`). -/
def vfsNameLength : Nat := 255

/-- `DirectoryRecord` (`iso9660.h:11`): what is used of a copy of one. -/
structure DirectoryRecord where
  length : Nat
  extentLocation : Nat
  dataLength : Nat
  flags : Nat
  nameLength : Nat
  name : List UInt8
deriving DecidableEq, Repr

/-- `CDROM_SECTOR_SIZE` (`iso9660.h:83`). -/
def cdromSectorSize : Nat := 2048

/-- `sizeof(DirectoryRecord)`. -/
def directoryRecordSize : Nat := 255

/-- `sizeof(DirectoryRecord::name)`. -/
def directoryRecordNameSize : Nat := 222

/-- The disk, where a sector that cannot be read is `none`; the memory around `readBuffer`, by the
distance from its start; the directory in which all paths start. -/
structure Iso9660 where
  disk : Nat → Option Buffer
  memory : Int → UInt8
  rootDirectory : DirectoryRecord

namespace Iso9660

/-- A record in memory: the memory and the address of the record in it. -/
structure RecordPtr where
  mem : Int → UInt8
  addr : Int

namespace RecordPtr

variable (r : RecordPtr)

/-- The bytes of the record and behind it. -/
def bytes : Buffer := fun i => r.mem (r.addr + i)

def length : Nat := (r.bytes 0).toNat

def flags : Nat := (r.bytes 25).toNat

def nameLength : Nat := (r.bytes 32).toNat

/-- The character `name[i]`; the index may be any number. -/
def name (i : Int) : UInt8 := r.mem (r.addr + 33 + i)

/-- `memcpy` of `n` characters from `name + i` on. -/
def copyName (i : Int) (n : Nat) : List UInt8 := (List.range n).map fun k => r.name (i + k)

/-- `memcpy` of the record (`iso9660.cpp:166`). -/
def copy : DirectoryRecord where
  length := r.length
  extentLocation := word32 r.bytes 2
  dataLength := word32 r.bytes 10
  flags := r.flags
  nameLength := r.nameLength
  name := r.copyName 0 directoryRecordNameSize

end RecordPtr

/-- A `char` in an expression with integers. -/
def signedChar (c : UInt8) : Int := if c.toNat < 128 then c.toNat else c.toNat - 256

/-- `GetEntryType` gives `Iso_Directory` (`iso9660.cpp:132`). -/
def isDirectory (flags : Nat) : Bool := flags / 2 % 2 = 1

/-- The loop over the entries behind the name (`iso9660.cpp:93`): the text of the first one with the
signature `NM`, `none` at an entry that starts with a zero. A negative length of the text is a copy
of nearly the whole memory. -/
def rockRidge (r : RecordPtr) : (fuel : Nat) → (offset : Int) → Exec (Option (List UInt8))
  | 0, _ => .error .loop
  | fuel + 1, offset =>
    let len := signedChar (r.name (offset + 2))
    if r.name offset = 78 ∧ r.name (offset + 1) = 77 then
      if len - 5 < 0 then .error .memory
      else .ok (some (r.copyName (offset + 5) (len - 5).toNat))
    else if r.name offset = 0 then .ok none
    else rockRidge r fuel (offset + len)

/-- Where `GetRecordName` looks for the first entry behind the name (`iso9660.cpp:89`). -/
def rockRidgeStart (r : RecordPtr) : Int :=
  if (r.nameLength + 1) % 2 = 0 then r.nameLength + 1 - 1 else r.nameLength + 1

/-- The name without an extension (`iso9660.cpp:113`): that of a file ends with `;1`. -/
def shortName (r : RecordPtr) : Exec (List UInt8) :=
  if isDirectory r.flags = false then
    if r.nameLength < 2 then .error .memory else .ok (r.copyName 0 (r.nameLength - 2))
  else .ok (r.copyName 0 r.nameLength)

/-- The search for the Rock Ridge extension (`iso9660.cpp:88`), if there is something behind the
name. -/
def extensionName (fuel : Nat) (r : RecordPtr) : Exec (Option (List UInt8)) :=
  if r.name (r.nameLength + 1) ≠ 0 then rockRidge r fuel (rockRidgeStart r) else .ok none

/-- `GetRecordName` (`iso9660.cpp:82`), `none` for the records `.` and `..`. -/
def getRecordName (fuel : Nat) (r : RecordPtr) : Exec (Option (List UInt8)) :=
  if r.name 0 = 0 ∨ r.name 0 = 1 then .ok none
  else do
    match ← extensionName fuel r with
    | some entry => .ok (some entry)
    | none =>
      let entry ← shortName r
      .ok (some entry)

/-- Where a walk is: the offset in the sector, the number of sectors read, `readBuffer` with the
memory around it, and the sectors asked for so far. -/
structure Cursor where
  offset : Nat
  sectorOffset : Nat
  buffer : Int → UInt8
  reads : List Nat

/-- The record at the cursor. -/
def Cursor.record (c : Cursor) : RecordPtr := ⟨c.buffer, c.offset⟩

section
variable (fs : Iso9660) {σ β : Type}

/-- The memory when `readBuffer` holds a sector. -/
def buffered (sector : Buffer) (i : Int) : UInt8 :=
  if 0 ≤ i ∧ i < cdromSectorSize then sector i.toNat else fs.memory i

/-- The next sector of the extent is read into the buffer; whether the read succeeds. -/
def nextSector (extentLocation : Nat) (c : Cursor) : Cursor × Bool :=
  let sector := u32 (extentLocation + c.sectorOffset)
  match fs.disk sector with
  | none => ({ c with offset := 0, reads := c.reads ++ [sector] }, false)
  | some bytes => (⟨0, c.sectorOffset + 1, fs.buffered bytes, c.reads ++ [sector]⟩, true)

/-- The loop of `SearchInDirectory` and of `DirectoryList`. `ended` tells from the offset whether the
end of the sector is reached, and `visit` is what is done with a record: `.inr` leaves the loop. -/
def walk (ended : Nat → Bool) (visit : σ → RecordPtr → Exec (σ ⊕ β)) (extentLocation : Nat) :
    (fuel : Nat) → Cursor → σ → Exec ((σ ⊕ β) × List Nat)
  | 0, _, _ => .error .loop
  | fuel + 1, c, s =>
    let next := if ended c.offset then fs.nextSector extentLocation c else (c, true)
    if next.2 = false then .ok (.inl s, next.1.reads)
    else if next.1.record.length = 0 then .ok (.inl s, next.1.reads)
    else do
      match ← visit s next.1.record with
      | .inr b => .ok (.inr b, next.1.reads)
      | .inl s =>
        walk ended visit extentLocation fuel { next.1 with offset := next.1.offset + next.1.record.length } s

/-- The first sector of the extent is read, and the walk starts at `offset`. -/
def walkFrom (ended : Nat → Bool) (visit : σ → RecordPtr → Exec (σ ⊕ β))
    (extentLocation offset fuel : Nat) (s : σ) : Exec ((σ ⊕ β) × List Nat) :=
  match fs.disk extentLocation with
  | none => .ok (.inl s, [extentLocation])
  | some bytes =>
    fs.walk ended visit extentLocation fuel ⟨offset, 1, fs.buffered bytes, [extentLocation]⟩ s

/-- A pointer to the record of a directory: `rootDirectory`, or a copy that `GetEntry` made. -/
inductive Place where
  | root
  | found (record : DirectoryRecord)

/-- The record of a directory. -/
def record : Place → DirectoryRecord
  | .root => fs.rootDirectory
  | .found record => record

/-- The offset at which both walks start: in the root directory behind the record of its size. -/
def startOffset : Place → Nat
  | .root => fs.rootDirectory.length
  | .found _ => 0

/-- The test for the end of a sector in `SearchInDirectory` (`iso9660.cpp:149`). -/
def searchEnded (offset : Nat) : Bool :=
  sub32 cdromSectorSize offset < directoryRecordSize - directoryRecordNameSize

/-- What `SearchInDirectory` does with a record (`iso9660.cpp:157`). -/
def searchVisit (fuel : Nat) (name : List UInt8) (_ : Unit) (r : RecordPtr) :
    Exec (Unit ⊕ DirectoryRecord) := do
  match ← getRecordName fuel r with
  | none => .ok (.inl ())
  | some entryName =>
    if CString.ofBuffer entryName = name then
      if r.nameLength < directoryRecordNameSize then
        .ok (.inr { r.copy with name := r.copy.name.set r.nameLength 0 })
      else .error .memory
    else .ok (.inl ())

/-- `SearchInDirectory` (`iso9660.cpp:137`), with the sectors that it asks for. -/
def searchInDirectory (searchIn : Place) (name : List UInt8) (fuel : Nat) :
    Exec (Option DirectoryRecord × List Nat) := do
  let (result, reads) ← fs.walkFrom searchEnded (searchVisit fuel name)
    (fs.record searchIn).extentLocation (fs.startOffset searchIn) fuel ()
  match result with
  | .inl _ => .ok (none, reads)
  | .inr record => .ok (some record, reads)

/-- The loop of `GetEntry` over the parts of a path (`iso9660.cpp:197`). -/
def getEntryFrom (fuel : Nat) : Place → List (List UInt8) → Exec (Option DirectoryRecord)
  | _, [] => .ok none
  | searchIn, part :: parts => do
    let (entry, _) ← fs.searchInDirectory searchIn part fuel
    match entry with
    | none => .ok none
    | some entry => if parts = [] then .ok (some entry) else getEntryFrom fuel (.found entry) parts

/-- `GetEntry` (`iso9660.cpp:188`). -/
def getEntry (path : List UInt8) (fuel : Nat) : Exec (Option DirectoryRecord) :=
  let pathList := CString.split path 92
  if pathList = [] then do
    let (entry, _) ← fs.searchInDirectory .root path fuel
    .ok entry
  else fs.getEntryFrom fuel .root pathList

/-- The test for the end of a sector in `DirectoryList` (`iso9660.cpp:227`). -/
def listEnded (offset : Nat) : Bool := offset + directoryRecordSize > cdromSectorSize

/-- The entry that `DirectoryList` makes of a record with a name (`iso9660.cpp:242`). Seconds and
minutes are both taken from the seconds. -/
def vfsEntry (r : RecordPtr) (entryName : List UInt8) : VFSEntry where
  size := word32 r.bytes 10
  isDir := isDirectory r.flags
  day := (r.bytes 20).toNat
  month := (r.bytes 19).toNat
  year := (r.bytes 18).toNat + 1900
  sec := (r.bytes 23).toNat
  min := (r.bytes 23).toNat
  hour := (r.bytes 21).toNat
  name := (CString.ofBuffer entryName).take vfsNameLength

/-- What `DirectoryList` does with a record (`iso9660.cpp:237`). -/
def listVisit (fuel : Nat) (result : List VFSEntry) (r : RecordPtr) : Exec (List VFSEntry ⊕ Empty) :=
  if r.name 0 ≠ 0 ∧ r.name 0 ≠ 1 then do
    match ← getRecordName fuel r with
    | none => .ok (.inl result)
    | some entryName => .ok (.inl (result ++ [vfsEntry r entryName]))
  else .ok (.inl result)

/-- `DirectoryList` for the directory `parent` (`iso9660.cpp:220`), with the sectors that it asks
for. -/
def listDirectory (parent : Place) (fuel : Nat) : Exec (List VFSEntry × List Nat) := do
  let (result, reads) ← fs.walkFrom listEnded (listVisit fuel) (fs.record parent).extentLocation
    (fs.startOffset parent) fuel []
  match result with
  | .inl entries => .ok (entries, reads)
  | .inr e => e.elim

/-- The directory of a path, the root directory for the empty path (`iso9660.cpp:216`). -/
def directoryOf (path : List UInt8) (fuel : Nat) : Exec (Option Place) :=
  if path ≠ [] then do
    let entry ← fs.getEntry path fuel
    .ok (entry.map Place.found)
  else .ok (some .root)

/-- `DirectoryList` (`iso9660.cpp:213`). -/
def directoryList (path : List UInt8) (fuel : Nat) : Exec (List VFSEntry × List Nat) := do
  match ← fs.directoryOf path fuel with
  | none => .ok ([], [])
  | some parent =>
    if isDirectory (fs.record parent).flags = false then .ok ([], [])
    else fs.listDirectory parent fuel

end

end Iso9660

end HeisenKernel
