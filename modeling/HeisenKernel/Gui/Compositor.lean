import HeisenKernel.Gui.Desktop
import HeisenKernel.Lib.Writes

/-!
# Drawing a frame

`Compositor::DrawFrame` (`apps/compositor/compositor.cpp:145`) draws the background over the dirty
rectangles, then the contexts from back to front, then the cursor.
-/

namespace HeisenKernel.Gui

open Lib Write

/-- The number of the pixel at a position of `4 * n` bytes. -/
def pixelAt (n : Int) : Nat := (n % 2 ^ 30).toNat

/-- A read in a buffer of `size` pixels. -/
def readPixel (size : Nat) (buffer : Nat → UInt32) (i : Nat) : Exec UInt32 :=
  if i < size then .ok (buffer i) else .error .memory

/-- `Colors::AlphaBlend` (`colors.cpp:11`). -/
def alphaBlend (color1 color2 : UInt32) : UInt32 :=
  let a := (color2 &&& 0xFF000000) >>> 24
  if a = 0 then color1
  else if a = 255 then color2
  else
    let na := 255 - a
    let rb := (na * (color1 &&& 0x00FF00FF) + a * (color2 &&& 0x00FF00FF)) >>> 8
    let ag := na * ((color1 &&& 0xFF00FF00) >>> 8) +
      a * ((0x01000000 : UInt32) ||| ((color2 &&& 0x0000FF00) >>> 8))
    (rb &&& 0x00FF00FF) ||| (ag &&& 0xFF00FF00)

/-- A pixel of the desktop, where the mouse is: its drivers keep it there (`ps2-mouse.cpp:205`). -/
structure Point (d : Desktop) where
  x : Nat
  y : Nat
  x_lt : x < d.width
  y_lt : y < d.height
deriving DecidableEq

/-- `ContextInfo` (`contextinfo.h:32`), with the pixels of its buffer and the first `numDirtyRects` of its dirty
rectangles. -/
structure ContextInfo where
  width : Nat
  height : Nat
  x : Int
  y : Int
  supportsTransparency : Bool
  supportsDirtyRects : Bool
  dirtyRects : List Rectangle
  pixels : Nat → UInt32
  width_lt : width < 2 ^ 32
  height_lt : height < 2 ^ 32
  x_range : IsInt x
  y_range : IsInt y
  dirty_range : ∀ r ∈ dirtyRects, r.InRange

/-- What is drawn of a context: a rectangle of the desktop, and where in the context it begins. -/
structure Part where
  rect : Rectangle
  leftOffset : Nat
  topOffset : Nat

namespace ContextInfo

/-- The pixels that were requested for the buffer (`compositor.cpp:393`), in 32 bits of bytes. -/
def size (c : ContextInfo) : Nat := c.width * c.height % 2 ^ 30

/-- The context as a rectangle; the sizes become `int`. -/
def rectangle (c : ContextInfo) : Rectangle := ⟨int32 c.width, int32 c.height, c.x, c.y⟩

/-- The context as a whole (`compositor.cpp:175`). -/
def fullPart (c : ContextInfo) : Part := ⟨c.rectangle, (-c.x).toNat, (-c.y).toNat⟩

/-- A dirty rectangle of the context (`compositor.cpp:198`). -/
def dirtyPart (dirty : Rectangle) (c : ContextInfo) : Part :=
  ⟨⟨dirty.width, dirty.height, int32 (dirty.x + c.x), int32 (dirty.y + c.y)⟩,
    (dirty.x % 2 ^ 32).toNat, (dirty.y % 2 ^ 32).toNat⟩

/-- What is drawn of the context. -/
def parts (c : ContextInfo) : List Part :=
  if c.supportsDirtyRects then c.dirtyRects.map fun dirty => c.dirtyPart dirty else [c.fullPart]

/-- The dirty rectangles are drawn only once. -/
def drawn (c : ContextInfo) : ContextInfo :=
  if c.supportsDirtyRects then
    { c with
      dirtyRects := []
      dirty_range := fun _ h => absurd h List.not_mem_nil }
  else c

end ContextInfo

/-- The cursor (`cursor.h:13`): 0 is transparent, 1 is black and 2 is white. -/
def cursorBitmap : List (List Nat) :=
  [[1, 0, 0, 0, 0, 0, 0, 0, 0, 0, 0, 0],
    [1, 1, 0, 0, 0, 0, 0, 0, 0, 0, 0, 0],
    [1, 2, 1, 0, 0, 0, 0, 0, 0, 0, 0, 0],
    [1, 2, 2, 1, 0, 0, 0, 0, 0, 0, 0, 0],
    [1, 2, 2, 2, 1, 0, 0, 0, 0, 0, 0, 0],
    [1, 2, 2, 2, 2, 1, 0, 0, 0, 0, 0, 0],
    [1, 2, 2, 2, 2, 2, 1, 0, 0, 0, 0, 0],
    [1, 2, 2, 2, 2, 2, 2, 1, 0, 0, 0, 0],
    [1, 2, 2, 2, 2, 2, 2, 2, 1, 0, 0, 0],
    [1, 2, 2, 2, 2, 2, 2, 2, 2, 1, 0, 0],
    [1, 2, 2, 2, 2, 2, 2, 2, 2, 2, 1, 0],
    [1, 2, 2, 2, 2, 2, 2, 2, 2, 2, 2, 1],
    [1, 2, 2, 2, 2, 2, 2, 1, 1, 1, 1, 1],
    [1, 2, 2, 2, 1, 2, 2, 1, 0, 0, 0, 0],
    [1, 2, 2, 1, 0, 1, 2, 2, 1, 0, 0, 0],
    [1, 2, 1, 0, 0, 1, 2, 2, 1, 0, 0, 0],
    [1, 1, 0, 0, 0, 0, 1, 2, 2, 1, 0, 0],
    [0, 0, 0, 0, 0, 0, 1, 2, 2, 1, 0, 0],
    [0, 0, 0, 0, 0, 0, 0, 1, 1, 0, 0, 0]]

def cursorW : Nat := 12

def cursorH : Nat := 19

/-- How much of the cursor is on the desktop, as a `uint8_t` (`compositor.cpp:119`). -/
def cursorPart (extent pos size : Nat) : Nat := (if pos + extent < size then extent else size - pos) % 256

namespace Desktop
variable (d : Desktop)

/-- The number of pixels of the screen. -/
def size : Nat := d.width * d.height

/-- The number of the pixel in column `i` of line `j`. -/
def index (i j : Int) : Nat := pixelAt (j * d.width + i)

/-- `Compositor::DrawCursor` (`compositor.cpp:116`). -/
def drawCursor (p : Point d) : List (Write Fault UInt32) :=
  ((grid (cursorPart cursorW p.x d.width) (cursorPart cursorH p.y d.height)).filter fun k =>
      (cursorBitmap.getD k.2 []).getD k.1 0 ≠ 0).map fun k =>
    ⟨d.index (p.x + k.1) (p.y + k.2),
      .ok (if (cursorBitmap.getD k.2 []).getD k.1 0 = 2 then 0xFFFFFFFF else 0xFF000000)⟩

/-- `Compositor::RemovePreviousCursor` (`compositor.cpp:133`). -/
def removePreviousCursor (background : Nat → UInt32) (p : Point d) : List (Write Fault UInt32) :=
  ofKeys (grid (cursorPart cursorW p.x d.width) (cursorPart cursorH p.y d.height))
    (fun k => d.index (p.x + k.1) (p.y + k.2))
    fun k => readPixel d.size background (d.index (p.x + k.1) (p.y + k.2))

/-- The background at a dirty rectangle (`compositor.cpp:152`). -/
def drawBackground (background : Nat → UInt32) (rect : Rectangle) : List (Write Fault UInt32) :=
  let rect := d.applyDesktopBounds rect
  let width := if int32 (rect.width + rect.x) ≤ d.width then rect.width
    else rect.width - (rect.x + rect.width - d.width)
  ofKeys (grid (rect.height % 2 ^ 32).toNat (pixelAt width)) (fun k => d.index (rect.x + k.2) (rect.y + k.1))
    fun k => readPixel d.size background (d.index (rect.x + k.2) (rect.y + k.1))

/-- The rows and columns that are drawn of a part of a context: with transparency in loops over `int`, without
it with a `memcpy` for each row. -/
def partGrid (c : ContextInfo) (rect : Rectangle) : List (Nat × Nat) :=
  grid rect.height.toNat (if c.supportsTransparency then rect.width.toNat else pixelAt rect.width)

/-- The colour of a pixel of a part of a context, behind the background colour. -/
def partColor (background : Nat → UInt32) (c : ContextInfo) (p : Part) (rect : Rectangle) (k : Nat × Nat) :
    Exec UInt32 := do
  let color ← readPixel c.size c.pixels (pixelAt ((p.topOffset + k.1) * c.width + (p.leftOffset + k.2)))
  if c.supportsTransparency then
    let below ← readPixel d.size background (d.index (rect.x + k.2) (rect.y + k.1))
    return alphaBlend below color
  else return color

/-- A part of a context (`compositor.cpp:182` and `compositor.cpp:205`). -/
def drawPart (background : Nat → UInt32) (c : ContextInfo) (p : Part) : List (Write Fault UInt32) :=
  let rect := d.applyDesktopBounds p.rect
  ofKeys (partGrid c rect) (fun k => d.index (rect.x + k.2) (rect.y + k.1)) (d.partColor background c p rect)

/-- A context (`compositor.cpp:165`), unless it is right of the desktop or below it. -/
def drawContext (background : Nat → UInt32) (c : ContextInfo) : List (Write Fault UInt32) :=
  if (d.width : Int) ≤ c.x ∨ (d.height : Int) ≤ c.y then [] else c.parts.flatMap (d.drawPart background c)

end Desktop

/-- `Compositor` (`compositor.h:18`), with the contexts from front to back. -/
structure Compositor (d : Desktop) where
  background : Nat → UInt32
  backBuffer : Nat → UInt32
  mouse : Point d
  prevMouse : Option (Point d)
  dirtyRectList : List Rectangle
  contextList : List ContextInfo
  dirty_range : ∀ r ∈ dirtyRectList, r.InRange

namespace Compositor
variable {d : Desktop}

/-- What is drawn in front of the contexts: nothing, where the mouse did not move. -/
def cleanUp (f : Compositor d) : List (Write Fault UInt32) :=
  (match f.prevMouse with
  | none => []
  | some p => if p = f.mouse then [] else d.removePreviousCursor f.background p) ++
    f.dirtyRectList.flatMap (d.drawBackground f.background)

/-- The writes of a frame. -/
def frame (f : Compositor d) : List (Write Fault UInt32) :=
  f.cleanUp ++ (f.contextList.reverse.flatMap (d.drawContext f.background) ++ d.drawCursor f.mouse)

/-- `Compositor::DrawFrame` (`compositor.cpp:145`), up to the copy to the screen. -/
def drawFrame (f : Compositor d) : Exec (Compositor d) := do
  let backBuffer ← runAll .memory d.size f.frame f.backBuffer
  return { f with
    backBuffer
    dirtyRectList := []
    contextList := f.contextList.map fun c =>
      if (d.width : Int) ≤ c.x ∨ (d.height : Int) ≤ c.y then c else c.drawn
    dirty_range := fun _ h => absurd h List.not_mem_nil }

/-- The rectangle of a message `CONTEXT_MOVED` (`compositor.cpp:439`), whose arguments become `int`. -/
def movedRectangle (arg2 arg3 arg4 arg5 : UInt32) : Rectangle :=
  ⟨int32 arg4.toNat, int32 arg5.toNat, int32 arg2.toNat, int32 arg3.toNat⟩

end Compositor

end HeisenKernel.Gui
