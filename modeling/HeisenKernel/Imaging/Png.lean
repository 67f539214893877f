import HeisenKernel.Imaging.Zlib

/-!
# The PNG decoder

Translation of `PNGDecoder` (`imaging/pngformat.cpp`) and of `Image::Image` (`imaging/image.cpp`).
-/

namespace HeisenKernel.Imaging

/-- `BYTES_PER_PIXEL` (`pngformat.cpp:11`). -/
def bytesPerPixel : Nat := 4

/-- `PNGDecoder::PaethPredictor` (`pngformat.cpp:252`). -/
def paethPredictor (a b c : UInt8) : UInt8 :=
  let p : Int := a.toNat + b.toNat - c.toNat
  let pa := (p - a.toNat).natAbs
  let pb := (p - b.toNat).natAbs
  let pc := (p - c.toNat).natAbs
  if pa ≤ pb ∧ pa ≤ pc then a else if pb ≤ pc then b else c

/-- `PNGDecoder::Recon_a` (`pngformat.cpp:270`). -/
def reconA (recon : List UInt8) (stride r c : Nat) : Exec UInt8 :=
  if c ≥ bytesPerPixel then readAt recon (r * stride + c - bytesPerPixel) else .ok 0

/-- `PNGDecoder::Recon_b` (`pngformat.cpp:276`). -/
def reconB (recon : List UInt8) (stride r c : Nat) : Exec UInt8 :=
  if r > 0 then readAt recon ((r - 1) * stride + c) else .ok 0

/-- `PNGDecoder::Recon_c` (`pngformat.cpp:282`). -/
def reconC (recon : List UInt8) (stride r c : Nat) : Exec UInt8 :=
  if r > 0 ∧ c ≥ bytesPerPixel then readAt recon ((r - 1) * stride + c - bytesPerPixel) else .ok 0

/-- The choice by `filterType` (`pngformat.cpp:211`). An invalid type leaves the byte that was
computed last. -/
def reconByte (recon : List UInt8) (stride r c : Nat) (filterType filtX reconX : UInt8) : Exec UInt8 :=
  if filterType = 0 then .ok filtX
  else if filterType = 1 then return filtX + (← reconA recon stride r c)
  else if filterType = 2 then return filtX + (← reconB recon stride r c)
  else if filterType = 3 then do
    let a ← reconA recon stride r c
    let b ← reconB recon stride r c
    return filtX + UInt8.ofNat ((a.toNat + b.toNat) / 2)
  else if filterType = 4 then do
    let a ← reconA recon stride r c
    let b ← reconB recon stride r c
    let c ← reconC recon stride r c
    return filtX + paethPredictor a b c
  else .ok reconX

/-- What the loops over rows and bytes carry along (`pngformat.cpp:198`). -/
structure ReconState where
  recon : List UInt8
  reconIndex : Nat
  index : Nat
deriving Repr, DecidableEq

/-- One pass of the loop over the bytes of row `r` (`pngformat.cpp:207`): the state and the byte that
was computed last. -/
def reconCell (imageData : List UInt8) (stride r : Nat) (filterType : UInt8)
    (s : ReconState × UInt8) (c : Nat) : Exec (ReconState × UInt8) := do
  let filtX ← readAt imageData s.1.index
  let reconX ← reconByte s.1.recon stride r c filterType filtX s.2
  let recon ← writeAt s.1.recon s.1.reconIndex reconX
  return (⟨recon, s.1.reconIndex + 1, s.1.index + 1⟩, reconX)

/-- One pass of the loop over the rows (`pngformat.cpp:203`). -/
def reconRow (imageData : List UInt8) (stride : Nat) (s : ReconState) (r : Nat) : Exec ReconState := do
  let filterType ← readAt imageData s.index
  let (s, _) ← (List.range stride).foldlM (reconCell imageData stride r filterType)
    ({ s with index := s.index + 1 }, 0)
  return s

/-- The exchange of red and blue in the pixel at `i` (`pngformat.cpp:233`). -/
def swapPixel (recon : List UInt8) (i : Nat) : Exec (List UInt8) := do
  let a ← readAt recon (i + 3)
  let b ← readAt recon (i + 2)
  let g ← readAt recon (i + 1)
  let r ← readAt recon (i + 0)
  let recon ← writeAt recon (i + 3) a
  let recon ← writeAt recon (i + 2) r
  let recon ← writeAt recon (i + 1) g
  writeAt recon (i + 0) b

/-- The reconstruction of `ConvertRAW` (`pngformat.cpp:198`) into the image buffer `recon`. -/
def reconstruct (imageData : List UInt8) (stride height : Nat) (recon : List UInt8) : Exec (List UInt8) := do
  let s ← (List.range height).foldlM (reconRow imageData stride) ⟨recon, 0, 0⟩
  (List.range ((height * stride + 3) / 4)).foldlM (fun recon i => swapPixel recon (4 * i)) s.recon

/-- `memcmp(...) == 0` (`string.cpp:23`) of the bytes at an offset with fixed ones; the comparison
ends at the first difference. -/
def bytesEqual (buffer : List UInt8) (offset : Nat) : List UInt8 → Exec Bool
  | [] => .ok true
  | b :: bs => do
    if (← readAt buffer offset) = b then bytesEqual buffer (u32 (offset + 1)) bs else return false

/-- The `uint32_t` at an offset, as `__builtin_bswap32` gives it. -/
def readBigEndian (buffer : List UInt8) (offset : Nat) : Exec Nat := do
  let b0 ← readAt buffer offset
  let b1 ← readAt buffer (u32 (offset + 1))
  let b2 ← readAt buffer (u32 (offset + 2))
  let b3 ← readAt buffer (u32 (offset + 3))
  return ((b0.toNat * 256 + b1.toNat) * 256 + b2.toNat) * 256 + b3.toNat

/-- The `uint32_t` at an offset. -/
def readLittleEndian (buffer : List UInt8) (offset : Nat) : Exec Nat := do
  let b0 ← readAt buffer offset
  let b1 ← readAt buffer (u32 (offset + 1))
  let b2 ← readAt buffer (u32 (offset + 2))
  let b3 ← readAt buffer (u32 (offset + 3))
  return ((b3.toNat * 256 + b2.toNat) * 256 + b1.toNat) * 256 + b0.toNat

/-- `__builtin_bswap32` of the `uint32_t` at an offset, in place. -/
def swapBytes (buffer : List UInt8) (offset : Nat) : Exec (List UInt8) := do
  let b0 ← readAt buffer offset
  let b1 ← readAt buffer (u32 (offset + 1))
  let b2 ← readAt buffer (u32 (offset + 2))
  let b3 ← readAt buffer (u32 (offset + 3))
  let buffer ← writeAt buffer offset b3
  let buffer ← writeAt buffer (u32 (offset + 1)) b2
  let buffer ← writeAt buffer (u32 (offset + 2)) b1
  writeAt buffer (u32 (offset + 3)) b0

/-- The signature of a PNG file (`pngformat.cpp:114`). -/
def signature : List UInt8 := [137, 80, 78, 71, 13, 10, 26, 10]

/-- The type of the chunk with the image header. -/
def typeIHDR : List UInt8 := [73, 72, 68, 82]

/-- The type of the chunks with the compressed image. -/
def typeIDAT : List UInt8 := [73, 68, 65, 84]

/-- The type of the last chunk. -/
def typeIEND : List UInt8 := [73, 69, 78, 68]

/-- What the loop over the chunks has found (`pngformat.cpp:116`): the file, the offset of the IHDR
data, and offset and length of the data of each IDAT chunk. -/
structure Chunks where
  rawData : List UInt8
  ihdr : Option Nat
  imgData : List (Nat × Nat)
deriving Repr, DecidableEq

/-- The treatment of an IHDR chunk whose data is at an offset (`pngformat.cpp:133`); `none` when the
image is rejected. -/
def readHeader (s : Chunks) (ihdr : Nat) : Exec (Option Chunks) := do
  let rawData ← swapBytes s.rawData ihdr
  let rawData ← swapBytes rawData (u32 (ihdr + 4))
  if (← readAt rawData (u32 (ihdr + 10))) ≠ 0 then return none
  if (← readAt rawData (u32 (ihdr + 11))) ≠ 0 then return none
  if (← readAt rawData (u32 (ihdr + 9))) ≠ 6 then return none
  if (← readAt rawData (u32 (ihdr + 8))) ≠ 8 then return none
  if (← readAt rawData (u32 (ihdr + 12))) ≠ 0 then return none
  return some { s with rawData := rawData, ihdr := some ihdr }

/-- The loop over the chunks (`pngformat.cpp:127`): at most `fuel` chunks are looked at. `none` when
the image is rejected. -/
def readChunks : Nat → Nat → Chunks → Exec (Option Chunks)
  | 0, _, _ => .error .loop
  | fuel + 1, dataPtr, s => do
    let dataLength ← readBigEndian s.rawData dataPtr
    let type := u32 (dataPtr + 4)
    let data := u32 (dataPtr + 8)
    let next := u32 (dataPtr + (12 + dataLength))
    if ← bytesEqual s.rawData type typeIHDR then
      match ← readHeader s data with
      | none => return none
      | some s => readChunks fuel next s
    else if ← bytesEqual s.rawData type typeIDAT then
      readChunks fuel next { s with imgData := s.imgData ++ [(data, dataLength)] }
    else if ← bytesEqual s.rawData type typeIEND then return some s
    else readChunks fuel next s

/-- The copy of the IDAT chunks into one array of `size` bytes (`pngformat.cpp:188`). -/
def gather (rawData : List UInt8) (size : Nat) (imgData : List (Nat × Nat)) : Exec (List UInt8) :=
  imgData.foldlM (fun idat (ptr, len) =>
    (List.range len).foldlM (fun idat i => do
      let b ← readAt rawData (u32 (ptr + i))
      if idat.length < size then return idat ++ [b] else .error .memory) idat) []

/-- `Image` (`image.h:21`) with its buffer by bytes. -/
structure Image where
  width : Nat
  height : Nat
  buffer : List UInt8
deriving Repr, DecidableEq

/-- The bytes of the buffer that `Image::Image` (`image.cpp:15`) allocates: none unless both sizes
are positive as `int`. -/
def imageBytes (width height : Nat) : Nat :=
  if 0 < width ∧ width < 2 ^ 31 ∧ 0 < height ∧ height < 2 ^ 31 then u32 (4 * u32 (width * height))
  else 0

/-- The second part of `ConvertRAW` (`pngformat.cpp:178`), from the chunks to the image; `garbage` is
what the new image buffer holds. -/
def convertChunks (garbage : Nat → UInt8) (s : Chunks) : Exec Image := do
  let idatLength := s.imgData.foldl (fun length data => u32 (length + data.2)) 0
  let idat ← gather s.rawData idatLength s.imgData
  match ← decompress idat with
  -- `imageData->data()` goes through the null pointer
  | none => .error .memory
  | some imageData =>
    match s.ihdr with
    | none => .error .memory
    | some ihdr =>
      let width ← readLittleEndian s.rawData ihdr
      let height ← readLittleEndian s.rawData (u32 (ihdr + 4))
      let stride := u32 (width * bytesPerPixel)
      let recon := (List.range (imageBytes width height)).map garbage
      let buffer ← reconstruct imageData stride height recon
      return ⟨width, height, buffer⟩

/-- `PNGDecoder::ConvertRAW` (`pngformat.cpp:112`), looking at no more than `fuel` chunks. `none` is
the null pointer. -/
def convertRaw (fuel : Nat) (garbage : Nat → UInt8) (rawData : List UInt8) : Exec (Option Image) := do
  if !(← bytesEqual rawData 0 signature) then return none
  match ← readChunks fuel 8 ⟨rawData, none, []⟩ with
  | none => return none
  | some s => return some (← convertChunks garbage s)

end HeisenKernel.Imaging
