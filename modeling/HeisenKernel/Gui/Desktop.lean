import HeisenKernel.Gui.ClipList

/-!
# Rectangles on the desktop

`Compositor::ApplyDesktopBounds` (`apps/compositor/compositor.cpp:98`) cuts a rectangle off at the
edges of the desktop, in `int` arithmetic that wraps.
-/

namespace HeisenKernel.Gui

open Int

/-- The size of the screen (`GUI::Width`, `GUI::Height`). The background and the back buffer, of four bytes
for each pixel, are both in the address space. -/
structure Desktop where
  width : Nat
  height : Nat
  width_pos : 0 < width
  height_pos : 0 < height
  fits : 8 * (width * height) ≤ 2 ^ 32

/-- A value of type `int`. -/
def IsInt (n : Int) : Prop := -2 ^ 31 ≤ n ∧ n < 2 ^ 31

instance (n : Int) : Decidable (IsInt n) := by
  unfold IsInt
  infer_instance

/-- The fields of a rectangle are of type `int`. -/
structure Rectangle.InRange (r : Rectangle) : Prop where
  width : IsInt r.width
  height : IsInt r.height
  x : IsInt r.x
  y : IsInt r.y

/-- `Math::Abs` (`math.cpp:33`); a `long` has 32 bits. -/
def abs32 (v : Int) : Int := if v = 0 then 0 else if v < 0 then int32 (-v) else v

namespace Desktop

/-- `Compositor::ApplyDesktopBounds` (`compositor.cpp:98`). -/
def applyDesktopBounds (rect : Rectangle) (d : Desktop) : Rectangle :=
  let rect := if rect.x < 0 then { rect with width := int32 (rect.width - abs32 rect.x), x := 0 } else rect
  let rect := if rect.y < 0 then { rect with height := int32 (rect.height - abs32 rect.y), y := 0 } else rect
  let rect := if int32 (rect.x + rect.width) ≥ d.width then { rect with width := int32 (d.width - rect.x) }
    else rect
  if int32 (rect.y + rect.height) ≥ d.height then { rect with height := int32 (d.height - rect.y) } else rect

end Desktop

/-- The length that is left of an interval. -/
def clip (size pos len : Int) : Int :=
  let len' := if pos < 0 then int32 (len - abs32 pos) else len
  let pos' := max 0 pos
  if int32 (pos' + len') ≥ size then int32 (size - pos') else len'

theorem Desktop.applyDesktopBounds_eq (d : Desktop) (r : Rectangle) : d.applyDesktopBounds r =
    ⟨clip d.width r.x r.width, clip d.height r.y r.height, max 0 r.x, max 0 r.y⟩ := by
  have hmax : ∀ n : Int, max 0 n = if n < 0 then 0 else n := by
    intro n
    split <;> omega
  simp only [applyDesktopBounds, clip, hmax]
  by_cases hx : r.x < 0 <;> by_cases hy : r.y < 0 <;>
    simp only [hx, hy, if_true, if_false] <;> split <;> split <;> rfl

/-- The intervals that become their part of the desktop. -/
def Clips (size pos len : Int) : Prop :=
  (pos < 0 ∧ 0 ≤ len + pos) ∨ (0 ≤ pos ∧ pos ≤ size ∧ 0 ≤ len ∧ pos + len < 2 ^ 31) ∨
    (pos = -2 ^ 31 ∧ len = -2 ^ 31)

/-- The intervals of which nothing is left. -/
def Vanishes (size pos len : Int) : Prop :=
  (pos < 0 ∧ len + pos = 0) ∨ (0 ≤ pos ∧ pos ≤ size ∧ 0 ≤ len ∧ pos + len < 2 ^ 31 ∧ (pos = size ∨ len = 0))
    ∨ (pos = -2 ^ 31 ∧ len = -2 ^ 31)

variable {size : Int}

theorem Vanishes.clips (h : Vanishes size pos len) : Clips size pos len := by
  unfold Vanishes at h
  unfold Clips
  omega

theorem clip_cases (hsize : 0 < size) (hsize' : size < 2 ^ 31) (hpos : IsInt pos) (hlen : IsInt len) :
    (pos < 0 ∧ -2 ^ 31 ≤ len + pos ∧ clip size pos len = min size (len + pos)) ∨
    (pos < 0 ∧ len + pos < -2 ^ 31 ∧ clip size pos len = min size (len + pos + 2 ^ 32)) ∨
    (0 ≤ pos ∧ pos + len < 2 ^ 31 ∧ clip size pos len = min (size - pos) len) ∨
    (0 ≤ pos ∧ 2 ^ 31 ≤ pos + len ∧ clip size pos len = len) := by
  obtain ⟨hpos1, hpos2⟩ := hpos
  obtain ⟨hlen1, hlen2⟩ := hlen
  unfold clip
  dsimp only
  by_cases hneg : pos < 0
  · have habs : int32 (len - abs32 pos) = int32 (len + pos) := by
      unfold abs32
      unfold int32
      omega
    rw [if_pos hneg, habs, max_eq_left (by omega)]
    unfold int32
    split <;> omega
  · rw [if_neg hneg, max_eq_right (by omega)]
    unfold int32
    split <;> omega

theorem Clips.clip_eq (h : Clips size pos len) (hsize : 0 < size) (hsize' : size < 2 ^ 31)
    (hpos : IsInt pos) (hlen : IsInt len) :
    0 ≤ clip size pos len ∧ max 0 pos + clip size pos len ≤ size ∧
    ∀ i, (max 0 pos ≤ i ∧ i < max 0 pos + clip size pos len) ↔
      (pos ≤ i ∧ i < pos + len) ∧ 0 ≤ i ∧ i < size := by
  have hcases := clip_cases hsize hsize' hpos hlen
  unfold Clips at h
  refine ⟨by omega, by omega, fun i => ?_⟩
  omega

section
variable (hsize : 0 < size) (hsize' : size < 2 ^ 31) (hpos : IsInt pos) (hlen : IsInt len)
include hsize hsize' hpos hlen

theorem clip_eq_zero_iff : clip size pos len = 0 ↔ Vanishes size pos len := by
  have hcases := clip_cases hsize hsize' hpos hlen
  unfold IsInt at hpos hlen
  unfold Vanishes
  omega

theorem not_mem_of_clip_neg (h : clip size pos len < 0) (i : Int) :
    ¬((pos ≤ i ∧ i < pos + len) ∧ 0 ≤ i ∧ i < size) := by
  have hcases := clip_cases hsize hsize' hpos hlen
  omega

theorem clip_of_not_clips (h : ¬Clips size pos len) :
    clip size pos len < 0 ∨ 0 < clip size pos len ∧
      ∃ i, (max 0 pos ≤ i ∧ i < max 0 pos + clip size pos len) ∧
        ¬((pos ≤ i ∧ i < pos + len) ∧ 0 ≤ i ∧ i < size) := by
  have hcases := clip_cases hsize hsize' hpos hlen
  unfold IsInt at hpos hlen
  unfold Clips at h
  rcases Int.lt_or_le (clip size pos len) 0 with hneg | hge
  · exact .inl hneg
  · refine .inr ⟨by omega, max 0 pos + clip size pos len - 1, by omega, by omega⟩

end

theorem clips_or_vanishes (hsize : 0 < size ∧ size < 2 ^ 31)
    (hsize' : 0 < size' ∧ size' < 2 ^ 31) (hpos : IsInt pos) (hlen : IsInt len) (hpos' : IsInt pos')
    (hlen' : IsInt len')
    (hexact : ∀ i j, (max 0 pos ≤ i ∧ i < max 0 pos + clip size pos len) →
      (max 0 pos' ≤ j ∧ j < max 0 pos' + clip size' pos' len') →
      (pos ≤ i ∧ i < pos + len) ∧ 0 ≤ i ∧ i < size)
    (harea : ((∀ i, ¬((pos ≤ i ∧ i < pos + len) ∧ 0 ≤ i ∧ i < size)) ∨
      ∀ j, ¬((pos' ≤ j ∧ j < pos' + len') ∧ 0 ≤ j ∧ j < size')) →
      clip size pos len * clip size' pos' len' = 0) :
    Clips size pos len ∨ Vanishes size' pos' len' := by
  by_cases hclips : Clips size pos len
  · exact .inl hclips
  · refine .inr ((clip_eq_zero_iff hsize'.1 hsize'.2 hpos' hlen').1 ?_)
    rcases clip_of_not_clips hsize.1 hsize.2 hpos hlen hclips with hneg | ⟨hgt, i, hi, hout⟩
    · have hzero := harea (.inl (not_mem_of_clip_neg hsize.1 hsize.2 hpos hlen hneg))
      exact (Int.mul_eq_zero.1 hzero).resolve_left (by omega)
    · rcases lt_trichotomy (clip size' pos' len') 0 with hneg' | hzero' | hgt'
      · have hzero := harea (.inr (not_mem_of_clip_neg hsize'.1 hsize'.2 hpos' hlen' hneg'))
        exact (Int.mul_eq_zero.1 hzero).resolve_left (by omega)
      · exact hzero'
      · exact absurd (hexact i (max 0 pos') hi ⟨le_refl _, by omega⟩) hout

/-- A pixel of a rectangle. -/
def Rectangle.Covers (r : Rectangle) (i j : Int) : Prop :=
  (r.x ≤ i ∧ i < r.x + r.width) ∧ r.y ≤ j ∧ j < r.y + r.height

namespace Desktop
variable (d : Desktop) {r : Rectangle}

/-- A pixel of the desktop. -/
def Shows (i j : Int) : Prop := (0 ≤ i ∧ i < d.width) ∧ 0 ≤ j ∧ j < d.height

/-- The rectangle becomes its intersection with the desktop, with area zero when that is empty. -/
structure ExactClip (r : Rectangle) : Prop where
  covers : ∀ i j, (d.applyDesktopBounds r).Covers i j ↔ r.Covers i j ∧ d.Shows i j
  area : (∀ i j, ¬(r.Covers i j ∧ d.Shows i j)) →
    (d.applyDesktopBounds r).width * (d.applyDesktopBounds r).height = 0

/-- In each direction the rectangle is cut off properly, or nothing is left of it in the other one. -/
def Fits (r : Rectangle) : Prop :=
  (Clips d.width r.x r.width ∨ Vanishes d.height r.y r.height) ∧
    (Clips d.height r.y r.height ∨ Vanishes d.width r.x r.width)

theorem width_lt : (d.width : Int) < 2 ^ 31 := by
  have hfits := d.fits
  have := Nat.le_mul_of_pos_right d.width d.height_pos
  omega

theorem height_lt : (d.height : Int) < 2 ^ 31 := by
  have hfits := d.fits
  have := Nat.le_mul_of_pos_left d.height d.width_pos
  omega

theorem covers_applyDesktopBounds : (d.applyDesktopBounds r).Covers i j ↔
    (max 0 r.x ≤ i ∧ i < max 0 r.x + clip d.width r.x r.width) ∧
      max 0 r.y ≤ j ∧ j < max 0 r.y + clip d.height r.y r.height := by
  rw [d.applyDesktopBounds_eq]
  exact Iff.rfl

theorem fits_of_exactClip (hr : r.InRange) (h : d.ExactClip r) : d.Fits r := by
  have hw : (0 : Int) < d.width ∧ (d.width : Int) < 2 ^ 31 := ⟨by exact_mod_cast d.width_pos, d.width_lt⟩
  have hh : (0 : Int) < d.height ∧ (d.height : Int) < 2 ^ 31 := ⟨by exact_mod_cast d.height_pos, d.height_lt⟩
  have hcovers := fun i j => (d.covers_applyDesktopBounds).symm.trans (h.covers i j)
  have harea := h.area
  rw [d.applyDesktopBounds_eq] at harea
  constructor
  · refine clips_or_vanishes hw hh hr.x hr.width hr.y hr.height ?_ ?_
    · intro i j hi hj
      obtain ⟨hcover, hshow⟩ := (hcovers i j).1 ⟨hi, hj⟩
      exact ⟨hcover.1, hshow.1⟩
    · rintro (hempty | hempty)
      · exact harea fun i j hij => hempty i ⟨hij.1.1, hij.2.1⟩
      · exact harea fun i j hij => hempty j ⟨hij.1.2, hij.2.2⟩
  · refine clips_or_vanishes hh hw hr.y hr.height hr.x hr.width ?_ ?_
    · intro j i hj hi
      obtain ⟨hcover, hshow⟩ := (hcovers i j).1 ⟨hi, hj⟩
      exact ⟨hcover.2, hshow.2⟩
    · rw [mul_comm]
      rintro (hempty | hempty)
      · exact harea fun i j hij => hempty j ⟨hij.1.2, hij.2.2⟩
      · exact harea fun i j hij => hempty i ⟨hij.1.1, hij.2.1⟩

theorem x_le_of_width_eq_zero (hr : r.InRange) (h : (d.applyDesktopBounds r).width = 0) :
    0 ≤ (d.applyDesktopBounds r).x ∧ (d.applyDesktopBounds r).x ≤ d.width := by
  have hw := natCast_pos.2 d.width_pos
  rw [d.applyDesktopBounds_eq] at h ⊢
  have hvanishes := (clip_eq_zero_iff hw d.width_lt hr.x hr.width).1 h
  unfold Vanishes at hvanishes
  exact ⟨le_max_left _ _, by dsimp only; omega⟩

/-- Nothing of a rectangle is inside the desktop, and nothing is left of it. -/
def Hidden (r : Rectangle) : Prop :=
  ((d.applyDesktopBounds r).width = 0 ∨ (d.applyDesktopBounds r).height = 0) ∧
    ∀ i j, ¬(r.Covers i j ∧ d.Shows i j)

theorem hidden_of_vanishes (hr : r.InRange)
    (h : Vanishes d.width r.x r.width ∨ Vanishes d.height r.y r.height) : d.Hidden r := by
  have hw := natCast_pos.2 d.width_pos
  have hh := natCast_pos.2 d.height_pos
  rw [Hidden, d.applyDesktopBounds_eq]
  rcases h with h | h
  · have hzero := (clip_eq_zero_iff hw d.width_lt hr.x hr.width).2 h
    obtain ⟨-, -, hiff⟩ := h.clips.clip_eq hw d.width_lt hr.x hr.width
    refine ⟨.inl hzero, fun i j hij => ?_⟩
    have hi := (hiff i).2 ⟨hij.1.1, hij.2.1⟩
    omega
  · have hzero := (clip_eq_zero_iff hh d.height_lt hr.y hr.height).2 h
    obtain ⟨-, -, hiff⟩ := h.clips.clip_eq hh d.height_lt hr.y hr.height
    refine ⟨.inr hzero, fun i j hij => ?_⟩
    have hj := (hiff j).2 ⟨hij.1.2, hij.2.2⟩
    omega

/-- A rectangle that is inside the desktop, and that has the pixels of `r` there. -/
structure Cut (r rect : Rectangle) : Prop where
  width_pos : 0 < rect.width
  height_pos : 0 < rect.height
  x_nonneg : 0 ≤ rect.x
  y_nonneg : 0 ≤ rect.y
  right_le : rect.x + rect.width ≤ d.width
  bottom_le : rect.y + rect.height ≤ d.height
  covers : ∀ i j, rect.Covers i j ↔ r.Covers i j ∧ d.Shows i j

theorem Fits.cut_or_empty (h : d.Fits r) (hr : r.InRange) :
    d.Cut r (d.applyDesktopBounds r) ∨ d.Hidden r := by
  have hw := natCast_pos.2 d.width_pos
  have hh := natCast_pos.2 d.height_pos
  by_cases hvanishes : Vanishes d.width r.x r.width ∨ Vanishes d.height r.y r.height
  · exact .inr (d.hidden_of_vanishes hr hvanishes)
  · rw [not_or] at hvanishes
    obtain ⟨hw1, hw2, hwiff⟩ := (h.1.resolve_right hvanishes.2).clip_eq hw d.width_lt hr.x hr.width
    obtain ⟨hh1, hh2, hhiff⟩ := (h.2.resolve_right hvanishes.1).clip_eq hh d.height_lt hr.y hr.height
    have hw0 := mt (clip_eq_zero_iff hw d.width_lt hr.x hr.width).1 hvanishes.1
    have hh0 := mt (clip_eq_zero_iff hh d.height_lt hr.y hr.height).1 hvanishes.2
    left
    rw [d.applyDesktopBounds_eq]
    refine ⟨lt_of_le_of_ne hw1 (Ne.symm hw0), lt_of_le_of_ne hh1 (Ne.symm hh0),
      le_max_left _ _, le_max_left _ _, hw2, hh2, fun i j => ?_⟩
    constructor
    · rintro ⟨hi, hj⟩
      have hi' := (hwiff i).1 hi
      have hj' := (hhiff j).1 hj
      exact ⟨⟨hi'.1, hj'.1⟩, hi'.2, hj'.2⟩
    · rintro ⟨⟨hi, hj⟩, hi', hj'⟩
      exact ⟨(hwiff i).2 ⟨hi, hi'⟩, (hhiff j).2 ⟨hj, hj'⟩⟩

theorem Cut.exactClip (h : d.Cut r (d.applyDesktopBounds r)) : d.ExactClip r := by
  refine ⟨h.covers, fun hempty => ?_⟩
  have hcorner : (d.applyDesktopBounds r).Covers (d.applyDesktopBounds r).x (d.applyDesktopBounds r).y := by
    have hwidth := h.width_pos
    have hheight := h.height_pos
    exact ⟨⟨le_refl _, by omega⟩, le_refl _, by omega⟩
  exact absurd ((h.covers _ _).1 hcorner) (hempty _ _)

theorem Hidden.exactClip (h : d.Hidden r) : d.ExactClip r := by
  obtain ⟨hzero, hempty⟩ := h
  refine ⟨fun i j => ⟨fun hcovers => ?_, fun hij => absurd hij (hempty i j)⟩,
    fun _ => Int.mul_eq_zero.2 hzero⟩
  obtain ⟨hi, hj⟩ := hcovers
  omega

theorem exactClip_iff (hr : r.InRange) : d.ExactClip r ↔ d.Fits r := by
  refine ⟨d.fits_of_exactClip hr, fun h => ?_⟩
  exact (h.cut_or_empty d hr).elim (·.exactClip) (·.exactClip)

end Desktop

end HeisenKernel.Gui
