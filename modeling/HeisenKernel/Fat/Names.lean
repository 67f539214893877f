import HeisenKernel.Fat

/-!
# The FAT file system: directory slots and file names

A directory is a sequence of slots of 32 bytes. A slot holds the short entry of a file (its 8.3 name,
attributes, first cluster and size) or thirteen characters of the long name of the short entry that
follows (`fat.h:56`).
-/

namespace HeisenKernel

open CString

/-- `DirectoryEntry` and `LFNEntry`: the 32 bytes of a slot of a directory. -/
abbrev Slot := Fin 32 → UInt8

/-- The slot at an offset of a buffer. -/
def slotAt (buffer : Buffer) (o : Nat) : Slot := fun k => buffer (o + k)

/-- A buffer with the slot at an offset replaced. -/
def putSlot (buffer : Buffer) (o : Nat) (e : Slot) : Buffer := fun i =>
  if h : o ≤ i ∧ i < o + 32 then e ⟨i - o, by omega⟩ else buffer i

/-- The 11 bytes of an 8.3 file name, without the dot. -/
abbrev ShortName := Fin 11 → UInt8

namespace Slot

/-- The bytes of a word of a slot. -/
def word (e : Slot) (lo hi : Fin 32) : Nat := (e lo).toNat + 256 * (e hi).toNat

def fileName (e : Slot) : ShortName := fun k => e ⟨k, by omega⟩
def attributes (e : Slot) : UInt8 := e 11
def creationTimeTenth (e : Slot) : UInt8 := e 13
def creationTime (e : Slot) : Nat := e.word 14 15
def creationDate (e : Slot) : Nat := e.word 16 17
def accessDate (e : Slot) : Nat := e.word 18 19
def modifyTime (e : Slot) : Nat := e.word 22 23
def modifyDate (e : Slot) : Nat := e.word 24 25
def fileSize (e : Slot) : Nat := e.word 28 29 + 65536 * e.word 30 31

/-- `GET_CLUSTER` (`fat.h:123`). -/
def cluster (e : Slot) : Nat := e.word 26 27 + 65536 * e.word 20 21

/-- `Attributes & ATTR_DIRECTORY`. -/
def isDirectory (e : Slot) : Bool := e.attributes &&& 0x10 != 0

/-- `FileName[0]`, which marks slots that are free or special. -/
abbrev first (e : Slot) : UInt8 := e 0

/-- `FileName[0]` is `ENTRY_END` or `ENTRY_UNUSED`: the slot may be used for a new entry. -/
def isFree (e : Slot) : Bool := e 0 == 0x00 || e 0 == 0xE5

end Slot

/-- The low and high byte of a `uint16_t`. -/
def bytes16 (v : Nat) : List UInt8 := [UInt8.ofNat v, UInt8.ofNat (v / 256)]

/-- The fields of a `DirectoryEntry` in the order of the structure (`fat.h:56`). -/
def directoryEntry (name : ShortName) (attributes creationTimeTenth : UInt8)
    (creationTime creationDate accessDate cluster modifyTime modifyDate fileSize : Nat) : Slot :=
  fun k => if h : k.val < 11 then name ⟨k, h⟩ else
    ([attributes, 0, creationTimeTenth] ++ bytes16 creationTime ++ bytes16 creationDate ++
      bytes16 accessDate ++ bytes16 (cluster / 65536) ++ bytes16 modifyTime ++ bytes16 modifyDate ++
      bytes16 cluster ++ bytes16 fileSize ++ bytes16 (fileSize / 65536)).getD (k - 11) 0

/-- The entry with another size and time of the last change, as `WriteFile` writes it back
(`fat.cpp:1125`). -/
def Slot.modified (e : Slot) (fileSize modifyTime modifyDate : Nat) : Slot := fun k =>
  if k.val < 22 then e k else
    (bytes16 modifyTime ++ bytes16 modifyDate ++ [e 26, e 27] ++ bytes16 fileSize ++
      bytes16 (fileSize / 65536)).getD (k - 22) 0

/-- `FAT::FatTime` (`fat.cpp:948`). -/
def fatTime (rtc : RealTimeClock) : Nat :=
  (rtc.hour * 2048 ||| rtc.minute * 32 ||| rtc.second / 2) % 65536

/-- `FAT::FatDate` (`fat.cpp:952`). -/
def fatDate (rtc : RealTimeClock) : Nat :=
  (sub32 rtc.year 1980 % 65536 * 512 ||| rtc.month * 32 ||| rtc.day) % 65536

/-- `FAT::Checksum` (`fat.cpp:399`): a sum that is rotated right by one bit before each byte. -/
def checksum (name : ShortName) : UInt8 :=
  (List.finRange 11).foldl (fun sum k =>
    (if sum &&& 1 != 0 then (0x80 : UInt8) else 0) + (sum >>> 1) + name k) 0

/-- The thirteen characters of a long name slot: the low bytes of `namePart1`, `namePart2` and
`namePart3`. -/
def Slot.nameChars (e : Slot) : List UInt8 :=
  [e 1, e 3, e 5, e 7, e 9, e 14, e 16, e 18, e 20, e 22, e 24, e 28, e 30]

/-- A long name slot with the given characters (`fat.h:72`). -/
def lfnEntry (entryIndex checksum : UInt8) (c : Nat → UInt8) : Slot := fun k =>
  [entryIndex, c 0, 0, c 1, 0, c 2, 0, c 3, 0, c 4, 0, 0x0F, 0, checksum,
    c 5, 0, c 6, 0, c 7, 0, c 8, 0, c 9, 0, c 10, 0, 0, 0, c 11, 0, c 12, 0].getD k 0

/-- A character of a name, zero behind its end. -/
def nameChar (name : List UInt8) (i : Nat) : UInt8 := name.getD i 0

/-- `entryIndex` of the slot with the `n`-th thirteen characters of a name in `num` slots: the slots
are counted from one, and the last one is marked with `LFN_ENTRY_END`. -/
def lfnIndex (num n : Nat) : UInt8 :=
  if n + 1 = num then UInt8.ofNat (n + 1) ||| 0x40 else UInt8.ofNat (n + 1)

/-- The slot of `FAT::CreateLFNEntriesFromName` for the `n`-th thirteen characters of a name. -/
def lfnEntryOfName (name : List UInt8) (num : Nat) (sum : UInt8) (n : Nat) : Slot :=
  lfnEntry (lfnIndex num n) sum fun k => nameChar name (13 * n + k)

/-- `FAT::CreateLFNEntriesFromName` (`fat.cpp:605`): every slot is pushed to the front. -/
def createLFNEntriesFromName (name : List UInt8) (num : Nat) (sum : UInt8) : List Slot :=
  ((List.range num).map (lfnEntryOfName name num sum)).reverse

/-- A character of a long name slot as it is copied: zero when it is not printable. -/
def copyChar (c : UInt8) : UInt8 := if 32 ≤ c ∧ c ≤ 127 then c else 0

/-- A list with the bytes from an offset on replaced. -/
def overwrite (buffer : List UInt8) (o : Nat) (bytes : List UInt8) : List UInt8 :=
  buffer.take o ++ bytes ++ buffer.drop (o + bytes.length)

/-- The loop of `FAT::ParseLFNEntries` over the slots, which stops at the first wrong checksum. -/
def parseLFNFrom (sum : UInt8) : List Slot → List UInt8 → Exec (List UInt8)
  | [], longName => .ok longName
  | item :: entries, longName =>
    if item 13 ≠ sum then .ok longName
    else
      let index := (item 0 &&& 0x0F).toNat
      -- `longName + (index - 1) * 13` has to lie in the buffer, with its thirteen bytes
      if 1 ≤ index ∧ (index - 1) * 13 + 13 ≤ longName.length then
        parseLFNFrom sum entries (overwrite longName ((index - 1) * 13) (item.nameChars.map copyChar))
      else .error .memory

/-- `FAT::ParseLFNEntries` (`fat.cpp:410`). -/
def parseLFNEntries (entries : List Slot) (sfnEntry : Slot) : Exec (List UInt8) := do
  let longName ← parseLFNFrom (checksum sfnEntry.fileName) entries
    (List.replicate (entries.length * 13 + 1) 0)
  .ok (ofBuffer longName)

/-- The number of bytes in front of the spaces that end a field. -/
def fieldEnd (field : Nat → UInt8) : Nat → Nat
  | 0 => 0
  | n + 1 => if field n = 0x20 then fieldEnd field n else n + 1

/-- `FAT::ParseShortFilename` (`fat.cpp:460`). The buffer has twelve bytes: a name that fills all of
them has no terminating zero, and `String::Lowercase` reads on behind it. -/
def parseShortFilename (name : ShortName) : Exec (List UInt8) :=
  let byte := fun i => if h : i < 11 then name ⟨i, h⟩ else 0
  let mainEnd := fieldEnd byte 8
  let extEnd := fieldEnd (fun i => byte (i + 8)) 3
  let text := (List.range mainEnd).map byte ++
    if extEnd = 0 then [] else 0x2E :: (List.range extEnd).map fun i => byte (i + 8)
  if text.length = 12 ∧ 0 ∉ text then .error .memory
  else .ok ((ofBuffer text).map lowercase)

/-- `FAT::CreateShortFilename` (`fat.cpp:558`). -/
def createShortFilename (name : List UInt8) : ShortName :=
  let dotIndex := indexOf name 0x2E 0
  let flen := dotIndex.getD name.length
  let upper := fun i => uppercase (nameChar name i)
  fun k =>
    if k.val < 8 then
      if 8 < flen then
        if k.val < 6 then upper k else if k.val = 6 then 0x7E else 0x31
      else if k.val < flen then upper k else 0x20
    else
      match dotIndex with
      | some dot =>
        let charIndex := dot + 1 + (k - 8)
        if name.length ≤ charIndex then 0x20 else upper charIndex
      | none => 0x20

end HeisenKernel
