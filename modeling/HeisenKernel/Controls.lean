import HeisenKernel.Lib.Loop
import Mathlib.Data.BitVec

/-!
# Resizing of controls (`libcx/lib/src/gui/widgets/control.cpp`, `window.cpp`)

An `int` is a `BitVec 32`: sizes wrap around. Every change of a child is linear in the change of its
parent, whatever its anchor: two changes in a row are their sum (`resizeChilds_add`).
-/

namespace HeisenKernel.Controls

open Lib

structure Rectangle where
  width : BitVec 32
  height : BitVec 32
  x : BitVec 32
  y : BitVec 32
deriving DecidableEq

/-- The bits of a `Direction`. -/
structure Anchor where
  top : Bool
  right : Bool
  bottom : Bool
  left : Bool
deriving DecidableEq

inductive Control where
  | mk (rect : Rectangle) (anchor : Anchor) (childs : List Control)

/-- The rectangle of a child after the changes in the loop of `OnResize`. -/
def Anchor.place (a : Anchor) (dWidth dHeight : BitVec 32) (r : Rectangle) : Rectangle where
  height := if a.top ∧ a.bottom then r.height + dHeight else r.height
  width := if a.right ∧ a.left then r.width + dWidth else r.width
  x := if a.right ∧ ¬a.left then r.x + dWidth else r.x
  y := if a.bottom ∧ ¬a.top then r.y + dHeight else r.y

mutual
/-- The loop of `OnResize` at one child. -/
def resizeChild (dWidth dHeight : BitVec 32) : Control → Control
  | .mk r a childs =>
    let new := a.place dWidth dHeight r
    -- `resized`, and then `child->OnResize(oldSize)`
    if a.top ∧ a.bottom ∨ a.right ∧ a.left then
      .mk new a (resizeChilds (new.width - r.width) (new.height - r.height) childs)
    else .mk new a childs

def resizeChilds (dWidth dHeight : BitVec 32) : List Control → List Control
  | [] => []
  | c :: childs => resizeChild dWidth dHeight c :: resizeChilds dWidth dHeight childs
end

namespace Control

def rect : Control → Rectangle
  | .mk r _ _ => r

/-- `Control::OnResize` (`control.cpp:157`). -/
def onResize (old : Rectangle) : Control → Control
  | .mk r a childs => .mk r a (resizeChilds (r.width - old.width) (r.height - old.height) childs)

/-- The control gets a new rectangle, and `OnResize` the previous one. -/
def resize : Control → Rectangle → Control
  | .mk old a childs, r => (Control.mk r a childs).onResize old

end Control

/-- A window with its close button, which is not one of its childs. -/
structure Window where
  control : Control
  titleBarHeight : BitVec 32
  closeButtonX : BitVec 32

namespace Window

/-- The window after `CreateButtons` (`window.cpp:38`). -/
def create (c : Control) (titleBarHeight : BitVec 32) : Window :=
  ⟨c, titleBarHeight, c.rect.width - titleBarHeight + 5⟩

/-- `Window::OnResize` (`window.cpp:118`), for a window that gets a new rectangle. -/
def resize (w : Window) (r : Rectangle) : Window :=
  { w with control := w.control.resize r, closeButtonX := r.width - w.titleBarHeight + 5 }

end Window

theorem place_place (a : Anchor) : a.place d' e' (a.place d e r) = a.place (d + d') (e + e') r := by
  simp only [Anchor.place, Rectangle.mk.injEq]
  refine ⟨?_, ?_, ?_, ?_⟩ <;> split <;> simp [add_assoc]

theorem place_zero (a : Anchor) : a.place 0 0 r = r := by simp [Anchor.place]

mutual
theorem resizeChild_zero : ∀ c, resizeChild 0 0 c = c
  | .mk r a childs => by
    simp only [resizeChild, place_zero, sub_self]
    rw [resizeChilds_zero childs, ite_self]
theorem resizeChilds_zero : ∀ childs, resizeChilds 0 0 childs = childs
  | [] => rfl
  | c :: childs => by rw [resizeChilds, resizeChild_zero c, resizeChilds_zero childs]
end

mutual
theorem resizeChild_add (d e d' e' : BitVec 32) :
    ∀ c, resizeChild d' e' (resizeChild d e c) = resizeChild (d + d') (e + e') c
  | .mk r a childs => by
    by_cases h : a.top ∧ a.bottom ∨ a.right ∧ a.left
    · simp only [resizeChild, if_pos h, place_place]
      rw [resizeChilds_add _ _ _ _ childs, sub_add_sub_cancel', sub_add_sub_cancel']
    · simp only [resizeChild, if_neg h, place_place]
theorem resizeChilds_add (d e d' e' : BitVec 32) :
    ∀ childs, resizeChilds d' e' (resizeChilds d e childs) = resizeChilds (d + d') (e + e') childs
  | [] => rfl
  | c :: childs => by
    rw [resizeChilds, resizeChilds, resizeChilds, resizeChild_add d e d' e' c, resizeChilds_add d e d' e' childs]
end

theorem Control.resize_resize (c : Control) (r r' : Rectangle) : (c.resize r).resize r' = c.resize r' := by
  obtain ⟨old, a, childs⟩ := c
  simp only [resize, onResize]
  rw [resizeChilds_add, sub_add_sub_cancel', sub_add_sub_cancel']

theorem Control.resize_rect (c : Control) : c.resize c.rect = c := by
  obtain ⟨old, a, childs⟩ := c
  simp only [resize, rect, onResize, sub_self, resizeChilds_zero]

theorem Window.resize_resize (w : Window) (r r' : Rectangle) : (w.resize r).resize r' = w.resize r' := by
  simp only [resize, w.control.resize_resize]

theorem Window.resize_create (c : Control) : (create c h).resize c.rect = create c h := by
  simp only [resize, create, c.resize_rect]

/-- For every tree of controls, every anchor and every sequence of sizes of the root: the layout depends on the
first layout and the last size, and the first size gives the first layout, also for a window. -/
theorem resize_depends_on_last (c : Control) (h : BitVec 32) (rs : List Rectangle) (r : Rectangle) :
    (rs.foldl Control.resize c).resize r = c.resize r ∧ (rs.foldl Control.resize c).resize c.rect = c ∧
      (rs.foldl Window.resize (.create c h)).resize r = (Window.create c h).resize r ∧
      (rs.foldl Window.resize (.create c h)).resize c.rect = .create c h := by
  refine ⟨foldl_last Control.resize_resize rs c r, ?_, foldl_last Window.resize_resize rs _ r, ?_⟩
  · rw [foldl_last Control.resize_resize, c.resize_rect]
  · rw [foldl_last Window.resize_resize, Window.resize_create]

end HeisenKernel.Controls
