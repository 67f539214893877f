import HeisenKernel.Gui.Compositor

/-!
# Frames inside the buffers

A frame whose rectangles all become their intersections with the desktop writes inside the back
buffer and reads inside the background; and it reads inside the buffers of the contexts when the
pixels that are looked up for what is shown of them are there (`Desktop.Reads`).
-/

namespace HeisenKernel.Gui

open Lib List Write Int Nat

theorem pixelAt_eq (h : 0 ≤ n) (h' : n < 2 ^ 30) : pixelAt n = n.toNat := by
  rw [pixelAt, emod_eq_of_lt h h']

theorem isInt_int32 (n : Int) : IsInt (int32 n) := by
  unfold IsInt int32
  omega

theorem readPixel_isOk (buffer : Nat → UInt32) {size i : Nat} :
    (∃ v, readPixel size buffer i = .ok v) ↔ i < size := by
  unfold readPixel
  split
  · next h => exact ⟨fun _ => h, fun _ => ⟨_, rfl⟩⟩
  · next h => exact ⟨fun ⟨_, hv⟩ => (nomatch hv), fun hi => absurd hi h⟩

namespace Desktop
variable (d : Desktop) {c : ContextInfo} {p : Part}

theorem index_eq (h : d.Shows i j) : d.index i j = (j * d.width + i).toNat ∧ d.index i j < d.size := by
  obtain ⟨⟨hi0, hi⟩, hj0, hj⟩ := h
  have hfits : (8 * (d.width * d.height) : Int) ≤ 2 ^ 32 := by exact_mod_cast d.fits
  have hnonneg : 0 ≤ j * d.width := Int.mul_nonneg hj0 (by omega)
  have hlast : (j + 1) * d.width ≤ d.height * d.width := Int.mul_le_mul_of_nonneg_right (by omega) (by omega)
  rw [Int.add_mul, Int.one_mul, Int.mul_comm d.height] at hlast
  have hindex : d.index i j = (j * d.width + i).toNat := pixelAt_eq (by omega) (by omega)
  refine ⟨hindex, ?_⟩
  rw [hindex, size, toNat_lt (by omega)]
  omega

theorem cursorPart_le (h : extent < 256) (pos size : Nat) :
    cursorPart extent pos size ≤ size - pos ∨ cursorPart extent pos size = extent ∧ pos + extent < size := by
  unfold cursorPart
  split
  · next hlt => exact .inr ⟨mod_eq_of_lt h, hlt⟩
  · next hge => exact .inl (mod_le _ _)

theorem shows_of_cursor (p : Point d)
    (hk : k ∈ grid (cursorPart cursorW p.x d.width) (cursorPart cursorH p.y d.height)) :
    d.Shows (p.x + k.1) (p.y + k.2) := by
  obtain ⟨hx, hy⟩ := mem_grid.1 hk
  have hw := cursorPart_le (show cursorW < 256 by decide) p.x d.width
  have hh := cursorPart_le (show cursorH < 256 by decide) p.y d.height
  unfold Shows
  omega

theorem sound_removePreviousCursor (p : Point d) :
    ∀ w ∈ d.removePreviousCursor background p, w.Sound d.size := by
  refine forall_mem_ofKeys.2 fun k hk => ?_
  have hlt := (d.index_eq (d.shows_of_cursor p hk)).2
  exact ⟨hlt, (readPixel_isOk _).2 hlt⟩

theorem sound_drawCursor (p : Point d) : ∀ w ∈ d.drawCursor p, w.Sound d.size := by
  refine forall_mem_map.2 fun k hk => ?_
  exact ⟨(d.index_eq (d.shows_of_cursor p (mem_filter.1 hk).1)).2, _, rfl⟩

theorem Cut.shows (h : d.Cut r rect) {k : Nat × Nat} (hk1 : (k.1 : Int) < rect.height)
    (hk2 : (k.2 : Int) < rect.width) :
    r.Covers (rect.x + k.2) (rect.y + k.1) ∧ d.Shows (rect.x + k.2) (rect.y + k.1) := by
  refine (h.covers _ _).1 ⟨⟨?_, ?_⟩, ?_, ?_⟩ <;> omega

theorem Cut.pixelAt_width (h : d.Cut r rect) : pixelAt rect.width = rect.width.toNat := by
  have hx := h.x_nonneg
  have hright := h.right_le
  have hpos := h.width_pos
  have hfits := d.fits
  have hle := Nat.le_mul_of_pos_right d.width d.height_pos
  exact pixelAt_eq (by omega) (by omega)

theorem sound_drawBackground (hr : r.InRange) (h : d.Fits r) :
    ∀ w ∈ d.drawBackground background r, w.Sound d.size := by
  refine forall_mem_ofKeys.2 fun k hk => ?_
  obtain ⟨hrow, hcol⟩ := mem_grid.1 hk
  rcases h.cut_or_empty d hr with hcut | ⟨hzero, -⟩
  · have hright := hcut.right_le
    have hx := hcut.x_nonneg
    have hw := hcut.width_pos
    have hh := hcut.height_pos
    have hwidth := d.width_lt
    have hheight := d.height_lt
    rw [int32_eq (by omega) (by omega), if_pos (by omega), hcut.pixelAt_width] at hcol
    have hlt := (d.index_eq (hcut.shows d (k := k) (by omega) (by omega)).2).2
    exact ⟨hlt, (readPixel_isOk _).2 hlt⟩
  · rcases hzero with hzero | hzero
    · obtain ⟨hx0, hx⟩ := d.x_le_of_width_eq_zero hr hzero
      have hwidth := d.width_lt
      rw [hzero, zero_add, int32_eq (by omega) (by omega), if_pos hx] at hcol
      exact absurd hcol (not_lt_zero _)
    · rw [hzero] at hrow
      exact absurd hrow (not_lt_zero _)

/-- The colours of what is shown of a part of a context are in its buffer. -/
def Reads (c : ContextInfo) (p : Part) : Prop :=
  ∀ i j, p.rect.Covers i j → d.Shows i j →
    pixelAt ((p.topOffset + (j - max 0 p.rect.y)) * c.width + (p.leftOffset + (i - max 0 p.rect.x))) < c.size

theorem partColor_isOk_iff :
    (∃ v, d.partColor background c p rect k = .ok v) ↔
      pixelAt ((p.topOffset + k.1) * c.width + (p.leftOffset + k.2)) < c.size ∧
        (c.supportsTransparency → d.index (rect.x + k.2) (rect.y + k.1) < d.size) := by
  rw [← readPixel_isOk c.pixels, ← readPixel_isOk background]
  constructor
  · rintro ⟨v, hv⟩
    obtain ⟨color, hcolor, hrest⟩ := bind_eq_ok.1 hv
    refine ⟨⟨color, hcolor⟩, fun htransparency => ?_⟩
    rw [if_pos htransparency] at hrest
    obtain ⟨below, hbelow, -⟩ := bind_eq_ok.1 hrest
    exact ⟨below, hbelow⟩
  · rintro ⟨⟨color, hcolor⟩, hbackground⟩
    rw [partColor, bind_of_ok hcolor]
    split
    · next htransparency =>
      obtain ⟨below, hbelow⟩ := hbackground htransparency
      exact ⟨_, bind_of_ok hbelow⟩
    · exact ⟨color, rfl⟩

theorem partColor_isOk
    (h : d.index (rect.x + k.2) (rect.y + k.1) < d.size) :
    (∃ v, d.partColor background c p rect k = .ok v) ↔
      pixelAt ((p.topOffset + k.1) * c.width + (p.leftOffset + k.2)) < c.size :=
  d.partColor_isOk_iff.trans (and_iff_left fun _ => h)

theorem Cut.mem_partGrid (h : d.Cut r rect) :
    k ∈ partGrid c rect ↔ (k.1 : Int) < rect.height ∧ (k.2 : Int) < rect.width := by
  rw [partGrid, mem_grid, h.pixelAt_width d, ite_self]
  omega

theorem partGrid_eq_nil (h : rect.width = 0 ∨ rect.height = 0) (k : Nat × Nat) : k ∉ partGrid c rect := by
  intro hk
  obtain ⟨hrow, hcol⟩ := mem_grid.1 hk
  rcases h with h | h
  · rw [h] at hcol
    split at hcol
    · exact not_lt_zero _ hcol
    · exact not_lt_zero _ hcol
  · rw [h] at hrow
    exact not_lt_zero _ hrow

theorem sound_drawPart_iff (hr : p.rect.InRange) (h : d.Fits p.rect) :
    (∀ w ∈ d.drawPart background c p, w.Sound d.size) ↔ d.Reads c p := by
  refine forall_mem_ofKeys.trans ?_
  rcases h.cut_or_empty d hr with hcut | ⟨hzero, hempty⟩
  swap
  · exact ⟨fun _ i j hcovers hshows => absurd ⟨hcovers, hshows⟩ (hempty i j),
      fun _ k hk => absurd hk (partGrid_eq_nil hzero k)⟩
  have hx : (d.applyDesktopBounds p.rect).x = max 0 p.rect.x := by rw [d.applyDesktopBounds_eq]
  have hy : (d.applyDesktopBounds p.rect).y = max 0 p.rect.y := by rw [d.applyDesktopBounds_eq]
  constructor
  · intro hsound i j hcovers hshows
    obtain ⟨⟨hi, hi'⟩, hj, hj'⟩ := (hcut.covers i j).2 ⟨hcovers, hshows⟩
    rw [hy] at hj hj'
    have hk : ((j - max 0 p.rect.y).toNat, (i - max 0 p.rect.x).toNat) ∈
        partGrid c (d.applyDesktopBounds p.rect) := (hcut.mem_partGrid d).2 ⟨by omega, by omega⟩
    obtain ⟨hlt, hcolor⟩ := hsound _ hk
    have hread := (d.partColor_isOk hlt).1 hcolor
    rw [toNat_of_nonneg (by omega), toNat_of_nonneg (by omega)] at hread
    exact hread
  · intro hreads k hk
    obtain ⟨hrow, hcol⟩ := (hcut.mem_partGrid d).1 hk
    obtain ⟨hcovers, hshows⟩ := hcut.shows d hrow hcol
    have hlt := (d.index_eq hshows).2
    refine ⟨hlt, (d.partColor_isOk hlt).2 ?_⟩
    have hread := hreads _ _ hcovers hshows
    rw [← hx, ← hy, add_sub_cancel_left, add_sub_cancel_left] at hread
    exact hread

end Desktop

theorem ContextInfo.parts_inRange (c : ContextInfo) : ∀ p ∈ c.parts, p.rect.InRange := by
  intro p hp
  rw [parts] at hp
  split at hp
  · obtain ⟨dirty, hdirty, rfl⟩ := mem_map.1 hp
    have hrange := c.dirty_range dirty hdirty
    exact ⟨hrange.width, hrange.height, isInt_int32 _, isInt_int32 _⟩
  · obtain rfl := mem_singleton.1 hp
    exact ⟨isInt_int32 _, isInt_int32 _, c.x_range, c.y_range⟩

namespace Compositor
variable {d : Desktop} (f : Compositor d)

/-- The contexts that are not right of the desktop or below it. -/
def visible : List ContextInfo :=
  f.contextList.filter fun c => ¬((d.width : Int) ≤ c.x ∨ (d.height : Int) ≤ c.y)

/-- The rectangles that a frame applies the bounds of the desktop to. -/
def rectangles : List Rectangle := f.dirtyRectList ++ f.visible.flatMap fun c => c.parts.map Part.rect

theorem drawFrame_isOk : (∃ g, f.drawFrame = .ok g) ↔ ∀ w ∈ f.frame, w.Sound d.size := by
  rw [← runAll_eq_ok_iff Fault.memory f.backBuffer]
  constructor
  · rintro ⟨g, hg⟩
    obtain ⟨b, hb, -⟩ := bind_eq_ok.1 hg
    exact ⟨b, hb⟩
  · rintro ⟨b, hb⟩
    exact ⟨_, bind_of_ok hb⟩

theorem sound_frame_iff (hfits : ∀ r ∈ f.dirtyRectList, d.Fits r) : (∀ w ∈ f.frame, w.Sound d.size) ↔
    ∀ c ∈ f.visible, ∀ p ∈ c.parts, ∀ w ∈ d.drawPart f.background c p, w.Sound d.size := by
  have hclean : ∀ w ∈ f.cleanUp, w.Sound d.size := by
    intro w hw
    rcases mem_append.1 hw with hw | hw
    · split at hw
      · exact absurd hw not_mem_nil
      · split at hw
        · exact absurd hw not_mem_nil
        · exact d.sound_removePreviousCursor _ w hw
    · obtain ⟨r, hr, hw⟩ := mem_flatMap.1 hw
      exact d.sound_drawBackground (f.dirty_range r hr) (hfits r hr) w hw
  constructor
  · intro h c hc p hp w hw
    obtain ⟨hc, hvisible⟩ := mem_filter.1 hc
    refine h w (mem_append_right _ (mem_append_left _ ?_))
    refine mem_flatMap.2 ⟨c, mem_reverse.2 hc, ?_⟩
    rw [Desktop.drawContext, if_neg (of_decide_eq_true hvisible)]
    exact mem_flatMap.2 ⟨p, hp, hw⟩
  · intro h w hw
    rcases mem_append.1 hw with hw | hw
    · exact hclean w hw
    rcases mem_append.1 hw with hw | hw
    · obtain ⟨c, hc, hw⟩ := mem_flatMap.1 hw
      rw [Desktop.drawContext] at hw
      split at hw
      · exact absurd hw not_mem_nil
      · next hvisible =>
        obtain ⟨p, hp, hw⟩ := mem_flatMap.1 hw
        exact h c (mem_filter.2 ⟨mem_reverse.1 hc, decide_eq_true hvisible⟩) p hp w hw
    · exact d.sound_drawCursor _ w hw

/-- For every desktop, background, position of the mouse and list of dirty rectangles and contexts: each
rectangle becomes its intersection with the desktop, with area zero when that is empty, and the frame is drawn
inside the buffers, if and only if each rectangle fits and the colours of what is shown of the contexts are in
their buffers. -/
theorem drawFrame_inside_iff : ((∀ r ∈ f.rectangles, d.ExactClip r) ∧ ∃ g, f.drawFrame = .ok g) ↔
    (∀ r ∈ f.rectangles, d.Fits r) ∧ ∀ c ∈ f.visible, ∀ p ∈ c.parts, d.Reads c p := by
  have hrange : ∀ r ∈ f.rectangles, r.InRange := by
    intro r hr
    rcases mem_append.1 hr with hr | hr
    · exact f.dirty_range r hr
    · obtain ⟨c, -, hr⟩ := mem_flatMap.1 hr
      obtain ⟨p, hp, rfl⟩ := mem_map.1 hr
      exact c.parts_inRange p hp
  have hexact := forall₂_congr fun r hr => d.exactClip_iff (hrange r hr)
  rw [hexact, f.drawFrame_isOk]
  refine and_congr_right fun hfits => ?_
  rw [f.sound_frame_iff (forall_mem_append.1 hfits).1]
  refine forall₂_congr fun c hc => forall₂_congr fun p hp => ?_
  have hmem : p.rect ∈ f.rectangles := mem_append_right _ (mem_flatMap.2 ⟨c, hc, mem_map.2 ⟨p, hp, rfl⟩⟩)
  exact d.sound_drawPart_iff (c.parts_inRange p hp) (hfits _ hmem)

theorem movedRectangle_inRange (arg2 arg3 arg4 arg5 : UInt32) :
    (movedRectangle arg2 arg3 arg4 arg5).InRange :=
  ⟨isInt_int32 _, isInt_int32 _, isInt_int32 _, isInt_int32 _⟩

/-- A context of 5 times 5 pixels, ten pixels left of a desktop of 8 times 8, has moved: its dirty rectangle
becomes one of width -5, and more than the back buffer is overwritten. -/
theorem drawFrame_outside : ∃ (d : Desktop) (f : Compositor d), d.width = 8 ∧ d.height = 8 ∧
    f.contextList = [] ∧ f.dirtyRectList = [movedRectangle 0xFFFFFFF6 0 5 5] ∧
    d.applyDesktopBounds (movedRectangle 0xFFFFFFF6 0 5 5) = ⟨-5, 5, 0, 0⟩ ∧
    ¬d.ExactClip (movedRectangle 0xFFFFFFF6 0 5 5) ∧ ¬∃ g, f.drawFrame = .ok g := by
  let d : Desktop := ⟨8, 8, by decide, by decide, by decide⟩
  let f : Compositor d :=
    { background := fun _ => 0
      backBuffer := fun _ => 0
      mouse := ⟨0, 0, by decide, by decide⟩
      prevMouse := none
      dirtyRectList := [movedRectangle 0xFFFFFFF6 0 5 5]
      contextList := []
      dirty_range := forall_mem_singleton.2 (movedRectangle_inRange _ _ _ _) }
  have hmoved : movedRectangle 0xFFFFFFF6 0 5 5 = ⟨5, 5, -10, 0⟩ := by decide +kernel
  have hbounds : d.applyDesktopBounds ⟨5, 5, -10, 0⟩ = ⟨-5, 5, 0, 0⟩ := by decide +kernel
  refine ⟨d, f, rfl, rfl, rfl, rfl, hmoved ▸ hbounds, ?_, ?_⟩
  · intro hexact
    have harea := hexact.area
    rw [hmoved, hbounds] at harea
    refine absurd (harea fun i j hij => ?_) (by decide)
    have hi := hij.1.1
    have hi' := hij.2.1.1
    dsimp only at hi
    omega
  · rw [f.drawFrame_isOk]
    intro hsound
    have hwrite : ⟨d.index 64 0, readPixel d.size f.background (d.index 64 0)⟩ ∈
        d.drawBackground f.background ⟨5, 5, -10, 0⟩ := by
      exact mem_map.2 ⟨(0, 64), mem_grid.2 ⟨by decide +kernel, by decide +kernel⟩, rfl⟩
    have hmem : _ ∈ f.frame := mem_append_left _ (mem_append_right _
      (mem_flatMap.2 ⟨_, mem_singleton.2 hmoved.symm, hwrite⟩))
    exact absurd (hsound _ hmem).1 (by decide +kernel)

end Compositor

end HeisenKernel.Gui
