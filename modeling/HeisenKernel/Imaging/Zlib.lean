import HeisenKernel.Base

/-!
# The ZLIB decompressor

Translation of `BitReader` (`bitreader.h`), `HuffmanTree` (`imaging/pngformat.h`) and
`ZLIBDecompressor` (`imaging/pngformat.cpp`).
-/

namespace HeisenKernel.Imaging

variable {α : Type}

/-- The element of an array at an index. -/
def readAt (l : List α) (i : Nat) : Exec α :=
  match l[i]? with
  | some a => .ok a
  | none => .error .memory

/-- An array with the element at an index replaced. -/
def writeAt (l : List α) (i : Nat) (a : α) : Exec (List α) :=
  if i < l.length then .ok (l.set i a) else .error .memory

theorem readAt_eq (h : l[i]? = some a) : readAt l i = .ok a := by
  rw [readAt, h]

theorem writeAt_eq (a : α) (h : i < l.length) : writeAt l i a = .ok (l.set i a) := if_pos h

/-- `BitReader` (`bitreader.h:9`): the input, the position of the next byte of it, and the bits of
the last one that are not used yet. -/
structure BitReader where
  data : List UInt8
  pos : Nat
  byte : UInt8
  numBits : Nat
deriving Repr, DecidableEq

namespace BitReader

/-- `BitReader::BitReader` (`bitreader.h:18`). -/
def new (data : List UInt8) : BitReader where
  data := data
  pos := 0
  byte := 0
  numBits := 0

/-- `BitReader::ReadByte` (`bitreader.h:27`). The other bits of the last byte are given up. -/
def readByte (reader : BitReader) : Exec (UInt8 × BitReader) := do
  let b ← readAt reader.data reader.pos
  return (b, { reader with numBits := 0, pos := reader.pos + 1 })

/-- `BitReader::ReadBit` (`bitreader.h:37`). -/
def readBit (reader : BitReader) : Exec (Nat × BitReader) := do
  let reader ←
    if reader.numBits = 0 then do
      let (b, reader) ← reader.readByte
      pure { reader with byte := b, numBits := 8 }
    else pure reader
  let bit := (reader.byte &&& 1).toNat
  return (bit, { reader with numBits := reader.numBits - 1, byte := reader.byte >>> 1 })

/-- One pass of the loop of `ReadBits` (`bitreader.h:54`), on `ret` and the reader. -/
def addBit (s : Nat × BitReader) (i : Nat) : Exec (Nat × BitReader) := do
  let (bit, reader) ← s.2.readBit
  return (s.1 ||| bit <<< i, reader)

/-- `BitReader::ReadBits` (`bitreader.h:50`). Every type it is used at has room for the bits. -/
def readBits (reader : BitReader) (n : Nat) : Exec (Nat × BitReader) :=
  (List.range n).foldlM addBit (0, reader)

/-- One pass of the loop of `ReadBytes` (`bitreader.h:65`), on `ret` and the reader. -/
def addByte (s : Nat × BitReader) (i : Nat) : Exec (Nat × BitReader) := do
  let (b, reader) ← s.2.readByte
  return (s.1 ||| b.toNat <<< (i * 8), reader)

/-- `BitReader::ReadBytes` (`bitreader.h:61`). Every type it is used at has room for the bytes. -/
def readBytes (reader : BitReader) (n : Nat) : Exec (Nat × BitReader) :=
  (List.range n).foldlM addByte (0, reader)

end BitReader

/-- `HuffmanNode` (`pngformat.h:52`), or the null pointer. -/
inductive HuffmanNode where
  | null
  | node (symbol : Nat) (left right : HuffmanNode)
deriving Repr, DecidableEq

namespace HuffmanNode

/-- `HuffmanNode::HuffmanNode` (`pngformat.h:59`). -/
def new : HuffmanNode := node 0 null null

/-- The child that `Insert` goes to: a new one where there is none. -/
def orNew : HuffmanNode → HuffmanNode
  | null => new
  | node symbol left right => node symbol left right

/-- `HuffmanTree::Insert` (`pngformat.h:85`) from a node on, for the low `n` bits of the code. -/
def insert (node : HuffmanNode) (codeWord symbol n : Nat) : HuffmanNode :=
  match node, n with
  | null, _ => null
  | .node _ left right, 0 => .node symbol left right
  | .node s left right, n + 1 =>
    if codeWord.testBit n then .node s left (insert right.orNew codeWord symbol n)
    else .node s (insert left.orNew codeWord symbol n) right

end HuffmanNode

/-- `ZLIBDecompressor::DecodeSymbol` (`pngformat.cpp:358`) from a node on. -/
def decodeSymbol : HuffmanNode → BitReader → Exec (Nat × BitReader)
  | .null, _ => .error .memory
  | .node symbol .null .null, reader => .ok (symbol, reader)
  | .node _ left right, reader => do
    let (b, reader) ← reader.readBit
    if b = 1 then decodeSymbol right reader else decodeSymbol left reader

/-- `nextCode` of `BitListToTree` (`pngformat.cpp:411`) before the codes are given out. -/
def nextCodes (blCount : Nat → Nat) : Nat → Nat
  | 0 => 0
  | 1 => 0
  | bits + 2 => (nextCodes blCount (bits + 1) + blCount (bits + 1)) <<< 1

/-- `maxBits` of `BitListToTree` (`pngformat.cpp:395`). -/
def maxBits (bitList : List Nat) : Nat :=
  bitList.foldl (fun maxBits d => if d > maxBits then d else maxBits) 0

/-- `blCount` of `BitListToTree` (`pngformat.cpp:402`). -/
def blCount (bitList : List Nat) (i : Nat) : Nat := bitList.countP fun item => i = item ∧ item ≠ 0

/-- One pass of the loop of `BitListToTree` over the alphabet (`pngformat.cpp:422`), on the tree and
`nextCode`. -/
def insertSymbol (bitList : List Nat) (s : HuffmanNode × (Nat → Nat)) (i : Nat) : HuffmanNode × (Nat → Nat) :=
  let bitLen := bitList.getD i 0
  if bitLen = 0 then s
  else (s.1.insert (s.2 bitLen) i bitLen, Function.update s.2 bitLen (s.2 bitLen + 1))

/-- `ZLIBDecompressor::BitListToTree` (`pngformat.cpp:393`). Of the alphabet only the size is used. -/
def bitListToTree (bitList : List Nat) (alphabetSize : Nat) : Exec HuffmanNode :=
  -- `nextCode[1]` is set whatever the size of the array
  if maxBits bitList = 0 then .error .memory
  else .ok ((List.range alphabetSize).foldl (insertSymbol bitList)
    (HuffmanNode.new, nextCodes (blCount bitList))).1

/-- `lengthExtraBits` (`pngformat.cpp:13`). -/
def lengthExtraBits : List Nat :=
  [0, 0, 0, 0, 0, 0, 0, 0, 1, 1, 1, 1, 2, 2, 2, 2, 3, 3, 3, 3, 4, 4, 4, 4, 5, 5, 5, 5, 0]

/-- `lengthBase` (`pngformat.cpp:23`). -/
def lengthBase : List Nat :=
  [3, 4, 5, 6, 7, 8, 9, 10, 11, 13, 15, 17, 19, 23, 27, 31, 35, 43, 51, 59, 67, 83, 99, 115, 131,
    163, 195, 227, 258]

/-- `distanceBase` (`pngformat.cpp:33`). -/
def distanceBase : List Nat :=
  [1, 2, 3, 4, 5, 7, 9, 13, 17, 25, 33, 49, 65, 97, 129, 193, 257, 385, 513, 769, 1025, 1537, 2049,
    3073, 4097, 6145, 8193, 12289, 16385, 24577, 0, 0]

/-- `distanceExtraBits` (`pngformat.cpp:52`). -/
def distanceExtraBits : List Nat :=
  [0, 0, 0, 0, 1, 1, 2, 2, 3, 3, 4, 4, 5, 5, 6, 6, 7, 7, 8, 8, 9, 9, 10, 10, 11, 11, 12, 12, 13, 13, 0, 0]

/-- `codeLengthCodesOrder` (`pngformat.cpp:71`). -/
def codeLengthCodesOrder : List Nat :=
  [16, 17, 18, 0, 8, 7, 9, 6, 10, 5, 11, 4, 12, 3, 13, 2, 14, 1, 15]

/-- One pass of the loop of `InflateBlockNoCompression` (`pngformat.cpp:355`). -/
def pushByte (s : List UInt8 × BitReader) (_ : Nat) : Exec (List UInt8 × BitReader) := do
  let (b, reader) ← s.2.readByte
  return (s.1 ++ [b], reader)

/-- `ZLIBDecompressor::InflateBlockNoCompression` (`pngformat.cpp:350`). `NLEN` is not compared. -/
def inflateBlockNoCompression (reader : BitReader) (target : List UInt8) : Exec (List UInt8 × BitReader) := do
  let (len, reader) ← reader.readBytes 2
  let (_, reader) ← reader.readBytes 2
  (List.range len).foldlM pushByte (target, reader)

/-- The copy of a back-reference (`pngformat.cpp:387`): `length` times the byte `distance` before the
end is pushed. A distance behind the start gives an index outside the vector. -/
def copyBack (target : List UInt8) (length distance : Nat) : Exec (List UInt8) :=
  if distance ≤ target.length then
    (List.range length).foldlM (fun t i => do
      let b ← readAt t (target.length - distance + i)
      return t ++ [b]) target
  else if length = 0 then .ok target
  else .error .memory

/-- `ZLIBDecompressor::InflateBlockData` (`pngformat.cpp:369`): at most `fuel` symbols are read. -/
def inflateBlockData (literalLengthTree distanceTree : HuffmanNode) :
    Nat → BitReader → List UInt8 → Exec (List UInt8 × BitReader)
  | 0, _, _ => .error .loop
  | fuel + 1, reader, target => do
    let (sym, reader) ← decodeSymbol literalLengthTree reader
    if sym ≤ 255 then
      inflateBlockData literalLengthTree distanceTree fuel reader (target ++ [UInt8.ofNat sym])
    else if sym = 256 then return (target, reader)
    else
      let sym := sym - 257
      let (extra, reader) ← reader.readBits (← readAt lengthExtraBits sym)
      let length := extra + (← readAt lengthBase sym)
      let (distSym, reader) ← decodeSymbol distanceTree reader
      let (extra, reader) ← reader.readBits (← readAt distanceExtraBits distSym)
      let dist := extra + (← readAt distanceBase distSym)
      let target ← copyBack target length dist
      inflateBlockData literalLengthTree distanceTree fuel reader target

/-- The loop of `DecodeTrees` (`pngformat.cpp:470`) that reads `total` code lengths, in at most `fuel`
passes; every pass pushes at least one. -/
def readCodeLengths (codeLengthTree : HuffmanNode) (total : Nat) :
    Nat → BitReader → List Nat → Exec (List Nat × BitReader)
  | 0, reader, bl => if bl.length < total then .error .loop else .ok (bl, reader)
  | fuel + 1, reader, bl =>
    if bl.length < total then do
      let (sym, reader) ← decodeSymbol codeLengthTree reader
      if sym ≤ 15 then readCodeLengths codeLengthTree total fuel reader (bl ++ [sym])
      else if sym = 16 then do
        -- the vector has no element in front of the first one
        if bl.length = 0 then .error .memory
        else
          let prevCodeLength ← readAt bl (bl.length - 1)
          let (n, reader) ← reader.readBits 2
          readCodeLengths codeLengthTree total fuel reader (bl ++ List.replicate (n + 3) prevCodeLength)
      else if sym = 17 then do
        let (n, reader) ← reader.readBits 3
        readCodeLengths codeLengthTree total fuel reader (bl ++ List.replicate (n + 3) 0)
      else if sym = 18 then do
        let (n, reader) ← reader.readBits 7
        readCodeLengths codeLengthTree total fuel reader (bl ++ List.replicate (n + 11) 0)
      else readCodeLengths codeLengthTree total fuel reader bl
    else .ok (bl, reader)

/-- One pass of the loop of `DecodeTrees` over the lengths of the code for code lengths
(`pngformat.cpp:457`). -/
def readCodeLength (s : List Nat × BitReader) (i : Nat) : Exec (List Nat × BitReader) := do
  let (n, reader) ← BitReader.readBits s.2 3
  let bits ← writeAt s.1 (← readAt codeLengthCodesOrder i) n
  return (bits, reader)

/-- `ZLIBDecompressor::DecodeTrees` (`pngformat.cpp:439`). -/
def decodeTrees (reader : BitReader) : Exec (HuffmanNode × HuffmanNode × BitReader) := do
  let (hlit, reader) ← reader.readBits 5
  let hlit := hlit + 257
  let (hdist, reader) ← reader.readBits 5
  let hdist := hdist + 1
  let (hclen, reader) ← reader.readBits 4
  let hclen := hclen + 4
  let (codeLengthTreeBitList, reader) ← (List.range hclen).foldlM readCodeLength (List.replicate 19 0, reader)
  let codeLengthTree ← bitListToTree codeLengthTreeBitList 19
  let (bl, reader) ← readCodeLengths codeLengthTree (hlit + hdist) (hlit + hdist) reader []
  let literalLengthTree ← bitListToTree (bl.take hlit) 286
  let distanceTree ← bitListToTree (bl.drop hlit) 30
  return (literalLengthTree, distanceTree, reader)

/-- `ZLIBDecompressor::InflateBlockDynamic` (`pngformat.cpp:532`). -/
def inflateBlockDynamic (fuel : Nat) (reader : BitReader) (target : List UInt8) :
    Exec (List UInt8 × BitReader) := do
  let (literalLengthTree, distanceTree, reader) ← decodeTrees reader
  inflateBlockData literalLengthTree distanceTree fuel reader target

/-- The code lengths of the literals and lengths of a static block (`pngformat.cpp:553`). -/
def staticLiteralLengths : List Nat :=
  List.replicate 144 8 ++ List.replicate 112 9 ++ List.replicate 24 7 ++ List.replicate 8 8

/-- `ZLIBDecompressor::InflateBlockStatic` (`pngformat.cpp:541`). The trees, which the code keeps
from one call to the next, are built anew. -/
def inflateBlockStatic (fuel : Nat) (reader : BitReader) (target : List UInt8) :
    Exec (List UInt8 × BitReader) := do
  let literalLengthTree ← bitListToTree staticLiteralLengths 286
  let distanceTree ← bitListToTree (List.replicate 30 5) 30
  inflateBlockData literalLengthTree distanceTree fuel reader target

/-- The choice by `blockType` (`pngformat.cpp:336`), for a valid type. Where a symbol takes no bits
the loop over the symbols never ends; otherwise there are no more of them than bits. -/
def inflateBlock (blockType : Nat) (reader : BitReader) (buffer : List UInt8) :
    Exec (List UInt8 × BitReader) :=
  if blockType = 0 then inflateBlockNoCompression reader buffer
  else if blockType = 1 then inflateBlockStatic (8 * reader.data.length + 1) reader buffer
  else inflateBlockDynamic (8 * reader.data.length + 1) reader buffer

/-- The loop of `ZLIBDecompressor::Inflate` (`pngformat.cpp:326`): at most `fuel` blocks are read.
`none` is the null pointer. -/
def inflateBlocks : Nat → BitReader → List UInt8 → Exec (Option (List UInt8) × BitReader)
  | 0, _, _ => .error .loop
  | fuel + 1, reader, buffer => do
    let (endOfBlocks, reader) ← reader.readBit
    let (blockType, reader) ← reader.readBits 2
    if blockType = 3 then return (none, reader)
    let (buffer, reader) ← inflateBlock blockType reader buffer
    if endOfBlocks = 0 then inflateBlocks fuel reader buffer else return (some buffer, reader)

/-- `ZLIBDecompressor::Inflate` (`pngformat.cpp:326`). A block takes three bits at least. -/
def inflate (reader : BitReader) : Exec (Option (List UInt8) × BitReader) :=
  inflateBlocks (8 * reader.data.length + 1) reader []

/-- `ZLIBDecompressor::Decompress` (`pngformat.cpp:296`). -/
def decompress (input : List UInt8) : Exec (Option (List UInt8)) := do
  let reader := BitReader.new input
  let (cmf, reader) ← reader.readByte
  if cmf &&& 0xF ≠ 8 then return none
  if (cmf >>> 4) &&& 0xF > 7 then return none
  let (flg, reader) ← reader.readByte
  if (cmf.toNat * 256 + flg.toNat) % 31 ≠ 0 then return none
  if (flg >>> 5) &&& 1 ≠ 0 then return none
  let (result, reader) ← inflate reader
  let _ ← reader.readBytes 4
  return result

end HeisenKernel.Imaging
