import HeisenKernel.Base

/-!
# Words in memory

Bytes at offsets, and the 16-bit and 32-bit words that a little-endian machine reads and writes
there, at any offset.
-/

namespace HeisenKernel

open UInt8

/-- The bytes of a sector, or of any other buffer, by their offset. -/
abbrev Buffer := Nat → UInt8

/-- The `uint16_t` at an offset of a buffer. -/
def word16 (buffer : Buffer) (o : Nat) : Nat :=
  (buffer o).toNat + 256 * (buffer (o + 1)).toNat

/-- The `uint32_t` at an offset of a buffer. -/
def word32 (buffer : Buffer) (o : Nat) : Nat :=
  word16 buffer o + 65536 * word16 buffer (o + 2)

/-- A buffer with a byte of it replaced. -/
def putByte (buffer : Buffer) (o : Nat) (v : Nat) : Buffer :=
  Function.update buffer o (UInt8.ofNat v)

/-- A buffer with the `uint16_t` at an offset replaced. -/
def putWord16 (buffer : Buffer) (o v : Nat) : Buffer :=
  putByte (putByte buffer o v) (o + 1) (v / 256)

/-- A buffer with the `uint32_t` at an offset replaced. -/
def putWord32 (buffer : Buffer) (o v : Nat) : Buffer :=
  putWord16 (putWord16 buffer o v) (o + 2) (v / 65536)

theorem putByte_self : putByte b o v o = ofNat v := Function.update_self ..

theorem putByte_ne (h : i ≠ o) : putByte b o v i = b i := Function.update_of_ne h ..

theorem putWord16_apply (i : Nat) : putWord16 b o v i =
    if i = o then ofNat v else if i = o + 1 then ofNat (v / 256) else b i := by
  rw [putWord16]
  split
  · next h => rw [h, putByte_ne (by omega), putByte_self]
  · next h =>
    split
    · next h' => rw [h', putByte_self]
    · next h' => rw [putByte_ne h', putByte_ne h]

theorem word16_putWord16 : word16 (putWord16 b o v) o = v % 65536 := by
  rw [word16, putWord16_apply, putWord16_apply, if_pos rfl, if_neg (by omega), if_pos rfl,
    toNat_ofNat', toNat_ofNat']
  omega

theorem putWord16_ne (h : i ≠ o) (h' : i ≠ o + 1) : putWord16 b o v i = b i := by
  rw [putWord16_apply, if_neg h, if_neg h']

theorem word16_congr (h : b o = b' o) (h' : b (o + 1) = b' (o + 1)) : word16 b o = word16 b' o := by
  rw [word16, word16, h, h']

theorem word16_putWord16_ne (h : i + 2 ≤ o ∨ o + 2 ≤ i) : word16 (putWord16 b o v) i = word16 b i :=
  word16_congr (putWord16_ne (by omega) (by omega)) (putWord16_ne (by omega) (by omega))

theorem word32_putWord32 : word32 (putWord32 b o v) o = v % 2 ^ 32 := by
  rw [word32, putWord32, word16_putWord16, word16_putWord16_ne (by omega), word16_putWord16]
  omega

theorem word32_putWord32_ne (h : i + 4 ≤ o ∨ o + 4 ≤ i) : word32 (putWord32 b o v) i = word32 b i := by
  rw [word32, putWord32, word16_putWord16_ne (by omega), word16_putWord16_ne (by omega),
    word16_putWord16_ne (by omega), word16_putWord16_ne (by omega), word32]

theorem putWord32_ne (h : i < o ∨ o + 4 ≤ i) : putWord32 b o v i = b i := by
  rw [putWord32, putWord16_ne (by omega) (by omega), putWord16_ne (by omega) (by omega)]

theorem word32_putByte_ne (h : o < i ∨ i + 4 ≤ o) : word32 (putByte b o v) i = word32 b i := by
  rw [word32, word32, word16, word16, word16, word16, putByte_ne (by omega), putByte_ne (by omega),
    putByte_ne (by omega), putByte_ne (by omega)]

theorem word32_lt (b : Buffer) (o : Nat) : word32 b o < 2 ^ 32 := by
  have hbyte : ∀ i, (b i).toNat < 256 := fun i => (b i).toNat_lt
  have h0 := hbyte o
  have h1 := hbyte (o + 1)
  have h2 := hbyte (o + 2)
  have h3 := hbyte (o + 2 + 1)
  simp only [word32, word16]
  omega

end HeisenKernel
