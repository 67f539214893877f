import HeisenKernel.Base
import HeisenKernel.Lib.RingBuffer

/-!
# The keyboard manager and its reader

`KeyboardManager::HandleKeyChange` (`system/input/keyboardmanager.cpp:14`) writes one packet of six
bytes for each key event to a `FIFOStream` (`system/memory/fifostream.cpp`), and the loop of
`Compositor::ProcessEvents` (`apps/compositor/compositor.cpp:314`) reads the packets byte by byte.
-/

namespace HeisenKernel

open Lib

/-- `FIFOStream` (`fifostream.h:12`). -/
abbrev FifoStream := RingBuffer UInt8

namespace FifoStream

/-- `FIFOStream::FIFOStream` (`fifostream.cpp:8`). -/
def new (capacity : Nat) : FifoStream := ⟨fun _ => 0, 0, 0, 0, capacity⟩

/-- `FIFOStream::Write` (`fifostream.cpp:23`): a byte is ignored when the stream is full. -/
def write (item : UInt8) (f : FifoStream) : FifoStream :=
  if f.count = f.capacity then f else f.push item

/-- `FIFOStream::Read` (`fifostream.cpp:38`): zero when the stream is empty. -/
def read (f : FifoStream) : UInt8 × FifoStream :=
  if f.count = 0 then (0, f) else (f.front, f.pop)

/-- `FIFOStream::Available` (`fifostream.cpp:53`). -/
def available (f : FifoStream) : Nat := f.count

end FifoStream

/-- `KEYPACKET_START` (`shared.h:52`). -/
def keypacketStart : UInt8 := 0xFF

/-- `KeypressPacket` (`shared.h:98`) without its start byte, which is the same in all of them. -/
structure KeypressPacket where
  keyCode : UInt8
  flags : UInt32
deriving Repr, DecidableEq

namespace KeypressPacket

/-- The bytes behind the start byte. -/
def body (p : KeypressPacket) : List UInt8 :=
  [p.keyCode, UInt8.ofNat p.flags.toNat, UInt8.ofNat (p.flags.toNat / 256),
    UInt8.ofNat (p.flags.toNat / 65536), UInt8.ofNat (p.flags.toNat / 16777216)]

/-- The bytes of a packet: the structure is packed, and the flags are an `int`. -/
def bytes (p : KeypressPacket) : List UInt8 := keypacketStart :: p.body

/-- The packet with these bytes behind its start byte. -/
def ofBody (l : List UInt8) : KeypressPacket where
  keyCode := l.getD 0 0
  flags := UInt32.ofNat ((l.getD 1 0).toNat + 256 * (l.getD 2 0).toNat + 65536 * (l.getD 3 0).toNat +
    16777216 * (l.getD 4 0).toNat)

end KeypressPacket

/-- `KeyboardType` (`keyboard.h:33`). -/
inductive KeyboardType where
  | ps2
  | usb
deriving Repr, DecidableEq

/-- A `Keyboard` (`keyboard.h:40`) with its modifier keys. -/
structure Keyboard where
  type : KeyboardType
  leftShift : Bool
  rightShift : Bool
  alt : Bool
  altGr : Bool
  leftControl : Bool
  rightControl : Bool
deriving Repr, DecidableEq

/-- The cases of `ConvertToPS2` that are no ranges (`keyboardmanager.cpp:65`). -/
def ps2Table : List (Nat × Nat) :=
  [(0x4, 0x1E), (0x5, 0x30), (0x6, 0x2E), (0x7, 0x20), (0x8, 0x12), (0x9, 0x21), (0xA, 0x22),
    (0xB, 0x23), (0xC, 0x17), (0xD, 0x24), (0xE, 0x25), (0xF, 0x26), (0x10, 0x32), (0x11, 0x31),
    (0x12, 0x18), (0x13, 0x19), (0x14, 0x10), (0x15, 0x13), (0x16, 0x1F), (0x17, 0x14),
    (0x18, 0x16), (0x19, 0x2F), (0x1A, 0x11), (0x1B, 0x2D), (0x1C, 0x15), (0x1D, 0x2C),
    (0x27, 0xB), (0x28, 0x1C), (0x29, 0x1), (0x2A, 0xE), (0x2B, 0xF), (0x2C, 0x39), (0x2D, 0xC),
    (0x2E, 0xD), (0x2F, 0x1A), (0x30, 0x1B), (0x31, 0x2B), (0x32, 0x2B), (0x33, 0x27),
    (0x34, 0x28), (0x35, 0x29), (0x36, 0x33), (0x37, 0x34), (0x38, 0x35), (0x39, 0x3A),
    (0x44, 0x57), (0x45, 0x58), (0x49, 0x52), (0x4A, 0x47), (0x4B, 0x49), (0x4C, 0x53),
    (0x4D, 0x4F), (0x4E, 0x51), (0x4F, 0x4D), (0x50, 0x4B), (0x51, 0x50), (0x52, 0x48),
    (0x53, 0x45), (0x54, 0x35), (0x55, 0x37), (0x56, 0x4A), (0x57, 0x4E), (0x58, 0x1C),
    (0x59, 0x4F), (0x5A, 0x50), (0x5B, 0x51), (0x5C, 0x4B), (0x5D, 0x4C), (0x5E, 0x4D),
    (0x5F, 0x47), (0x60, 0x48), (0x61, 0x49), (0x62, 0x52), (0x63, 0x53)]

/-- `KeyboardManager::ConvertToPS2` (`keyboardmanager.cpp:61`). -/
def convertToPS2 (key : Nat) : Nat :=
  if key < 4 then 0
  else if 0x1E ≤ key ∧ key ≤ 0x26 then key - 0x1E + 2
  else if 0x3A ≤ key ∧ key ≤ 0x43 then key + 1
  else (ps2Table.lookup key).getD 0

/-- `KeyboardManager` (`keyboardmanager.h:14`): its stream and the status that the keyboards share. -/
structure KeyboardManager where
  stream : FifoStream
  capsLock : Bool
  numLock : Bool

/-- `ScreenMode`, as far as it matters here. -/
inductive ScreenMode where
  | textMode
  | graphicsMode
deriving Repr, DecidableEq

/-- A flag of a packet, or `NoFlags`. -/
def flagBit (b : Bool) (bit : Nat) : Nat := if b then 2 ^ bit else 0

/-- The flags of a packet (`KEYPACKET_FLAGS`, `shared.h:53`). -/
def packetFlags (m : KeyboardManager) (src : Keyboard) (pressed : Bool) : Nat :=
  flagBit pressed 0 ||| flagBit m.capsLock 1 ||| flagBit m.numLock 2 ||| flagBit src.leftShift 3 ||| flagBit
    src.rightShift 4 ||| flagBit src.leftControl 5 ||| flagBit src.rightControl 6 ||| flagBit src.alt 7

namespace KeyboardManager

/-- The key code of an event (`keyboardmanager.cpp:16`). -/
def keyOf (src : Keyboard) (key : Nat) : Nat :=
  if src.type = .usb then convertToPS2 key else key

/-- The toggle keys (`keyboardmanager.cpp:27`). -/
def toggle (key : Nat) (pressed : Bool) (m : KeyboardManager) : KeyboardManager :=
  if key = 0x3A ∧ pressed then { m with capsLock := !m.capsLock }
  else if key = 0x45 ∧ pressed then { m with numLock := !m.numLock }
  else m

/-- The packet of an event. -/
def packet (src : Keyboard) (key : Nat) (pressed : Bool) (m : KeyboardManager) : KeypressPacket where
  keyCode := UInt8.ofNat (keyOf src key)
  flags := UInt32.ofNat (packetFlags (m.toggle (keyOf src key) pressed) src pressed)

/-- The bytes written one by one. -/
def writeAll (l : List UInt8) (m : KeyboardManager) : KeyboardManager :=
  { m with stream := l.foldl (fun f b => f.write b) m.stream }

/-- `KeyboardManager::HandleKeyChange` (`keyboardmanager.cpp:14`), without the lights of the
keyboards. -/
def handleKeyChange (screenMode : ScreenMode) (setupMode : Bool) (src : Keyboard) (key : Nat)
    (pressed : Bool) (m : KeyboardManager) : KeyboardManager :=
  let m' := m.toggle (keyOf src key) pressed
  match screenMode with
  | .graphicsMode => m'.writeAll (m.packet src key pressed).bytes
  | .textMode => if setupMode ∧ pressed then m'.writeAll [UInt8.ofNat (keyOf src key)] else m'

end KeyboardManager

/-- Where the loop of the compositor is: in front of `StdInAvailable`, in front of the read of the start
byte, or at a packet of which it has read some bytes. -/
inductive Reader where
  | available
  | start
  | body (read : List UInt8)
deriving Repr, DecidableEq

/-- The manager and the reader, with the packets written and decoded so far and the number of bytes that
the reader took for noise. -/
structure KeySystem where
  manager : KeyboardManager
  reader : Reader
  written : List KeypressPacket
  decoded : List KeypressPacket
  noise : Nat

/-- A key event, or a system call of the reader. -/
inductive KeyEvent where
  | key (src : Keyboard) (key : Nat) (pressed : Bool)
  | read
deriving Repr, DecidableEq

namespace KeySystem

/-- The state with what is left of the stream behind a read. -/
def popByte (s : KeySystem) : KeySystem :=
  { s with manager := { s.manager with stream := s.manager.stream.read.2 } }

/-- The next system call of the loop (`compositor.cpp:314`). -/
def step (s : KeySystem) : KeySystem :=
  match s.reader with
  | .available => if 0 < s.manager.stream.available then { s with reader := .start } else s
  | .start =>
    if s.manager.stream.read.1 ≠ keypacketStart then
      { s.popByte with
        reader := .available
        noise := s.noise + 1 }
    else { s.popByte with reader := .body [] }
  | .body l =>
    let l := l ++ [s.manager.stream.read.1]
    if l.length < 5 then { s.popByte with reader := .body l }
    else
      { s.popByte with
        reader := .available
        decoded := s.decoded ++ [KeypressPacket.ofBody l] }

/-- The state behind an event, in graphics mode. -/
def exec (s : KeySystem) : KeyEvent → KeySystem
  | .key src key pressed =>
    { s with
      manager := s.manager.handleKeyChange .graphicsMode false src key pressed
      written := s.written ++ [s.manager.packet src key pressed] }
  | .read => s.step

/-- The steps of the system. -/
def Step (s : KeySystem) (e : KeyEvent) (s' : KeySystem) : Prop := s' = s.exec e

/-- The system with nothing written, and any status of the toggle keys. -/
def new (capacity : Nat) (capsLock numLock : Bool) : KeySystem :=
  ⟨⟨FifoStream.new capacity, capsLock, numLock⟩, .available, [], [], 0⟩

end KeySystem

end HeisenKernel
