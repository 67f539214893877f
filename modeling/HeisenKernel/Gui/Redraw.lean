import HeisenKernel.Gui.Frames

/-!
# Whole contexts as dirty rectangles

A context that marks its whole area dirty is drawn at the same pixels as one that is redrawn as a
whole, but the code looks its colours up without the part that is cut off at the left and at the top
(`compositor.cpp:201`).
-/

namespace HeisenKernel.Gui

open Lib List Write

theorem isInt_zero : IsInt 0 := by decide

namespace ContextInfo

/-- The context, redrawn as a whole in every frame. -/
def full (c : ContextInfo) : ContextInfo := { c with supportsDirtyRects := false }

/-- The context, with its whole area dirty (`AddDirtyArea(0, 0, width, height)`). -/
def wholeDirty (c : ContextInfo) : ContextInfo :=
  { c with
    supportsDirtyRects := true
    dirtyRects := [⟨int32 c.width, int32 c.height, 0, 0⟩]
    dirty_range := List.forall_mem_singleton.2
      ⟨isInt_int32 _, isInt_int32 _, isInt_zero, isInt_zero⟩ }

/-- The context with another content. -/
def withPixels (pixels : Nat → UInt32) (c : ContextInfo) : ContextInfo := { c with pixels }

theorem width_withPixels (c : ContextInfo) (pixels : Nat → UInt32) : (c.withPixels pixels).width = c.width :=
  rfl

/-- How far the colours of the whole context are behind those of its dirty rectangle. -/
def cutOff (c : ContextInfo) : Nat := (-c.y).toNat * c.width + (-c.x).toNat

/-- The whole area as a part: the same rectangle, but from the first pixel of the context on. -/
def dirtyWhole (c : ContextInfo) : Part := ⟨c.rectangle, 0, 0⟩

theorem source_dirtyWhole (c : ContextInfo) (k : Nat × Nat) :
    (c.dirtyWhole.topOffset + k.1) * c.width + (c.dirtyWhole.leftOffset + k.2) =
      (k.1 * c.width + k.2 : Int) := by
  rw [dirtyWhole]
  rw [Int.natCast_zero, Int.zero_add, Int.zero_add]

theorem source_fullPart (c : ContextInfo) (k : Nat × Nat) :
    (c.fullPart.topOffset + k.1) * c.width + (c.fullPart.leftOffset + k.2) =
      (c.cutOff + (k.1 * c.width + k.2) : Int) := by
  rw [fullPart, cutOff]
  push_cast
  rw [Int.add_mul]
  omega

theorem parts_wholeDirty (c : ContextInfo) : c.wholeDirty.parts = [c.dirtyWhole] := by
  have hx : int32 (0 + c.x) = c.x := by
    rw [Int.zero_add, int32_eq c.x_range.1 c.x_range.2]
  have hy : int32 (0 + c.y) = c.y := by
    rw [Int.zero_add, int32_eq c.y_range.1 c.y_range.2]
  have hpart : c.wholeDirty.dirtyPart ⟨int32 c.width, int32 c.height, 0, 0⟩ = c.dirtyWhole := by
    rw [dirtyPart, dirtyWhole, rectangle]
    rw [show c.wholeDirty.x = c.x from rfl, show c.wholeDirty.y = c.y from rfl, hx, hy]
    rfl
  exact congrArg (fun p => [p]) hpart

end ContextInfo

theorem pixelAt_add_mul (n : Int) (h : (2 ^ 30 : Int) ∣ m) : pixelAt (m + n) = pixelAt n := by
  obtain ⟨q, rfl⟩ := h
  rw [pixelAt, pixelAt, Int.mul_add_emod_self_left]

theorem dvd_of_pixelAt_eq (h : pixelAt (m + n) = pixelAt n) : (2 ^ 30 : Int) ∣ m := by
  unfold pixelAt at h
  omega

theorem alphaBlend_of_solid {below color : UInt32} (h : (color &&& 0xFF000000) >>> 24 = 255) :
    alphaBlend below color = color := by
  rw [alphaBlend]
  rw [h, if_neg (by decide), if_pos rfl]

namespace Desktop
variable (d : Desktop) {c : ContextInfo}

/-- The pixels of the desktop that a context is drawn at, by their rows and columns in its rectangle. -/
def drawnAt (c : ContextInfo) : List (Nat × Nat) :=
  if (d.width : Int) ≤ c.x ∨ (d.height : Int) ≤ c.y then []
  else partGrid c (d.applyDesktopBounds c.rectangle)

/-- The number of such a pixel. -/
def drawnIndex (c : ContextInfo) (k : Nat × Nat) : Nat :=
  d.index ((d.applyDesktopBounds c.rectangle).x + k.2) ((d.applyDesktopBounds c.rectangle).y + k.1)

theorem drawContext_of_parts (hc' : c' = c.full ∨ c' = c.wholeDirty) (hp : c'.parts = [p])
    (hrect : p.rect = c.rectangle) : d.drawContext background c' =
      ofKeys (d.drawnAt c) (d.drawnIndex c)
        (d.partColor background c p (d.applyDesktopBounds c.rectangle)) := by
  have hpart : d.drawPart background c' p =
      ofKeys (partGrid c (d.applyDesktopBounds c.rectangle)) (d.drawnIndex c)
        (d.partColor background c p (d.applyDesktopBounds c.rectangle)) := by
    rw [drawPart, hrect]
    rcases hc' with rfl | rfl <;> rfl
  have hpos : c'.x = c.x ∧ c'.y = c.y := by
    rcases hc' with rfl | rfl <;> exact ⟨rfl, rfl⟩
  rw [drawContext, drawnAt, hp, hpos.1, hpos.2, flatMap_singleton, hpart]
  split <;> rfl

theorem drawContext_full : d.drawContext background c.full =
    ofKeys (d.drawnAt c) (d.drawnIndex c)
      (d.partColor background c c.fullPart (d.applyDesktopBounds c.rectangle)) :=
  d.drawContext_of_parts (.inl rfl) rfl rfl

theorem drawContext_wholeDirty : d.drawContext background c.wholeDirty =
    ofKeys (d.drawnAt c) (d.drawnIndex c)
      (d.partColor background c c.dirtyWhole (d.applyDesktopBounds c.rectangle)) :=
  d.drawContext_of_parts (.inr rfl) c.parts_wholeDirty rfl

theorem partColor_of_solid
    (hok : ∃ v, d.partColor background c p rect k = .ok v)
    (hsolid : ∀ i, (c.pixels i &&& 0xFF000000) >>> 24 = 255) :
    d.partColor background c p rect k =
      .ok (c.pixels (pixelAt ((p.topOffset + k.1) * c.width + (p.leftOffset + k.2)))) := by
  obtain ⟨hlt, hbackground⟩ := d.partColor_isOk_iff.1 hok
  have hread : readPixel c.size c.pixels
      (pixelAt ((p.topOffset + k.1) * c.width + (p.leftOffset + k.2))) = .ok _ := if_pos hlt
  rw [partColor, bind_of_ok hread]
  split
  · next htransparency =>
    obtain ⟨below, hbelow⟩ := (readPixel_isOk background).2 (hbackground htransparency)
    rw [bind_of_ok hbelow, alphaBlend_of_solid (hsolid _)]
    rfl
  · rfl

end Desktop

namespace Compositor
variable {d : Desktop} (f : Compositor d) {front back : List ContextInfo} {c : ContextInfo}

/-- The compositor with these contexts. -/
def withContexts (contexts : List ContextInfo) : Compositor d := { f with contextList := contexts }

theorem drawFrame_eq_ok : (∃ g, f.drawFrame = .ok g ∧ g.backBuffer = b) ↔
    runAll .memory d.size f.frame f.backBuffer = .ok b := by
  constructor
  · rintro ⟨g, hg, rfl⟩
    obtain ⟨b, hb, hg⟩ := bind_eq_ok.1 hg
    rw [← Except.ok.inj hg]
    exact hb
  · intro h
    exact ⟨_, bind_of_ok h, rfl⟩

/-- The writes behind a context: those of the contexts in front of it, and of the cursor. -/
def overdraw (front : List ContextInfo) : List (Write Fault UInt32) :=
  front.reverse.flatMap (d.drawContext f.background) ++ d.drawCursor f.mouse

theorem frame_withContexts : (f.withContexts (front ++ c :: back)).frame =
    (f.cleanUp ++ back.reverse.flatMap (d.drawContext f.background)) ++
      (d.drawContext f.background c ++ f.overdraw front) := by
  have hcontexts : (front ++ c :: back).reverse.flatMap (d.drawContext f.background) =
      back.reverse.flatMap (d.drawContext f.background) ++
        (d.drawContext f.background c ++ front.reverse.flatMap (d.drawContext f.background)) := by
    rw [reverse_append, reverse_cons, flatMap_append, flatMap_append, flatMap_singleton, append_assoc]
  show f.cleanUp ++ ((front ++ c :: back).reverse.flatMap (d.drawContext f.background) ++
    d.drawCursor f.mouse) = _
  rw [hcontexts, overdraw, append_assoc, append_assoc, append_assoc]

/-- For every content of the context: where the frame with the context redrawn as a whole is drawn, the frame
with its whole area dirty is drawn too, with the same back buffer. -/
def SameFrame (front : List ContextInfo) (c : ContextInfo) (back : List ContextInfo) : Prop :=
  ∀ pixels g, (f.withContexts (front ++ (c.withPixels pixels).full :: back)).drawFrame = .ok g →
    ∃ g', (f.withContexts (front ++ (c.withPixels pixels).wholeDirty :: back)).drawFrame = .ok g' ∧
      g'.backBuffer = g.backBuffer

/-- The context is hidden: every pixel that it is drawn at is drawn again, and its colours are in its
buffer. -/
def Hidden (front : List ContextInfo) (c : ContextInfo) : Prop :=
  ∀ k ∈ d.drawnAt c, pixelAt (k.1 * c.width + k.2) < c.size ∧
    ∃ w ∈ f.overdraw front, w.index = d.drawnIndex c k

theorem frame_full (pixels : Nat → UInt32) :
    (f.withContexts (front ++ (c.withPixels pixels).full :: back)).frame =
      (f.cleanUp ++ back.reverse.flatMap (d.drawContext f.background)) ++
        (ofKeys (d.drawnAt c) (d.drawnIndex c) (d.partColor f.background (c.withPixels pixels)
          c.fullPart (d.applyDesktopBounds c.rectangle)) ++ f.overdraw front) := by
  rw [f.frame_withContexts, d.drawContext_full]
  rfl

theorem frame_wholeDirty (pixels : Nat → UInt32) :
    (f.withContexts (front ++ (c.withPixels pixels).wholeDirty :: back)).frame =
      (f.cleanUp ++ back.reverse.flatMap (d.drawContext f.background)) ++
        (ofKeys (d.drawnAt c) (d.drawnIndex c) (d.partColor f.background (c.withPixels pixels)
          c.dirtyWhole (d.applyDesktopBounds c.rectangle)) ++ f.overdraw front) := by
  rw [f.frame_withContexts, d.drawContext_wholeDirty]
  rfl

theorem drawFrame_full_isOk (pixels : Nat → UInt32)
    (h : ∃ g, (f.withContexts (front ++ c.full :: back)).drawFrame = .ok g) :
    ∃ g, (f.withContexts (front ++ (c.withPixels pixels).full :: back)).drawFrame = .ok g := by
  rw [drawFrame_isOk, frame_full]
  rw [drawFrame_isOk, show c.full = (c.withPixels c.pixels).full from rfl, frame_full] at h
  intro w hw
  rcases mem_append.1 hw with hw | hw
  · exact h w (mem_append_left _ hw)
  rcases mem_append.1 hw with hw | hw
  · obtain ⟨k, hk, rfl⟩ := mem_map.1 hw
    obtain ⟨hlt, hcolor⟩ := h _ (mem_append_right _ (mem_append_left _ (mem_map.2 ⟨k, hk, rfl⟩)))
    have hread := d.partColor_isOk_iff.1 hcolor
    exact ⟨hlt, d.partColor_isOk_iff.2 hread⟩
  · exact h w (mem_append_right _ (mem_append_right _ hw))

theorem partColor_eq_of_dvd (h : 2 ^ 30 ∣ c.cutOff) (k : Nat × Nat) (pixels : Nat → UInt32) :
    d.partColor f.background (c.withPixels pixels) c.fullPart (d.applyDesktopBounds c.rectangle) k =
      d.partColor f.background (c.withPixels pixels) c.dirtyWhole (d.applyDesktopBounds c.rectangle) k := by
  have hdvd : (2 ^ 30 : Int) ∣ c.cutOff := by exact_mod_cast h
  rw [Desktop.partColor, Desktop.partColor, c.width_withPixels,
    c.source_fullPart, c.source_dirtyWhole, pixelAt_add_mul _ hdvd]

theorem sameFrame_of_dvd (h : 2 ^ 30 ∣ c.cutOff) : f.SameFrame front c back := by
  intro pixels g hg
  have hframe : (f.withContexts (front ++ (c.withPixels pixels).wholeDirty :: back)).frame =
      (f.withContexts (front ++ (c.withPixels pixels).full :: back)).frame := by
    rw [frame_full, frame_wholeDirty, funext fun k => f.partColor_eq_of_dvd h k pixels]
  have hrun := (drawFrame_eq_ok _).1 ⟨g, hg, rfl⟩
  rw [← hframe] at hrun
  exact (drawFrame_eq_ok _).2 hrun

theorem sameFrame_of_hidden (h : f.Hidden front c) : f.SameFrame front c back := by
  intro pixels g hg
  have hrun := (drawFrame_eq_ok _).1 ⟨g, hg, rfl⟩
  rw [frame_full] at hrun
  have hsound := sound_of_runAll hrun
  obtain ⟨b, hb⟩ : ∃ b, runAll .memory d.size
      (f.withContexts (front ++ (c.withPixels pixels).wholeDirty :: back)).frame f.backBuffer = .ok b := by
    refine runAll_of_sound _ _ fun w hw => ?_
    rw [frame_wholeDirty] at hw
    rcases mem_append.1 hw with hw | hw
    · exact hsound w (mem_append_left _ hw)
    rcases mem_append.1 hw with hw | hw
    · obtain ⟨k, hk, rfl⟩ := mem_map.1 hw
      have hlt := (hsound _ (mem_append_right _ (mem_append_left _ (mem_map.2 ⟨k, hk, rfl⟩)))).1
      refine ⟨hlt, d.partColor_isOk_iff.2 ⟨?_, fun _ => hlt⟩⟩
      rw [c.width_withPixels, c.source_dirtyWhole]
      exact (h k hk).1
    · exact hsound w (mem_append_right _ (mem_append_right _ hw))
  obtain ⟨g', hg', hback⟩ := (drawFrame_eq_ok _).2 hb
  refine ⟨g', hg', ?_⟩
  rw [frame_wholeDirty] at hb
  rw [hback]
  exact (runAll_hidden hrun hb fun k hk => (h k hk).2).symm

/-- The content with one white pixel, on black. -/
def whiteAt (i j : Nat) : UInt32 := if j = i then 0xFFFFFFFF else 0xFF000000

theorem whiteAt_solid (i j : Nat) : (whiteAt i j &&& 0xFF000000) >>> 24 = 255 := by
  unfold whiteAt
  split <;> decide

theorem dvd_of_shown (hdrawn : ∃ g, (f.withContexts (front ++ c.full :: back)).drawFrame = .ok g)
    (h : f.SameFrame front c back) (hk : k ∈ d.drawnAt c)
    (hshown : ∀ w ∈ f.overdraw front, w.index ≠ d.drawnIndex c k) : 2 ^ 30 ∣ c.cutOff := by
  obtain ⟨l, k', r, hkeys, hk', hr⟩ := exists_last ⟨k, hk, rfl⟩
    (p := fun x => d.drawnIndex c x = d.drawnIndex c k)
  rw [← hk'] at hr hshown
  obtain ⟨g, hg⟩ := f.drawFrame_full_isOk (whiteAt (pixelAt (c.cutOff + (k'.1 * c.width + k'.2)))) hdrawn
  obtain ⟨g', hg', hsame⟩ := h _ g hg
  have hfull := (drawFrame_eq_ok _).1 ⟨g, hg, rfl⟩
  have hdirty := (drawFrame_eq_ok _).1 ⟨g', hg', rfl⟩
  rw [frame_full, hkeys] at hfull
  rw [frame_wholeDirty, hkeys] at hdirty
  have hmem : ∀ {v : Nat × Nat → Exec UInt32}, (⟨d.drawnIndex c k', v k'⟩ : Write Fault UInt32) ∈
      (f.cleanUp ++ back.reverse.flatMap (d.drawContext f.background)) ++
        (ofKeys (l ++ k' :: r) (d.drawnIndex c) v ++ f.overdraw front) := fun {v} =>
    mem_append_right _ (mem_append_left _ (mem_map.2 ⟨k', mem_append_right _ mem_cons_self, rfl⟩))
  have hcolor := d.partColor_of_solid (sound_of_runAll hfull _ hmem).2 (whiteAt_solid _)
  have hcolor' := d.partColor_of_solid (sound_of_runAll hdirty _ hmem).2 (whiteAt_solid _)
  have hvalue := runAll_shown hfull hcolor hr hshown
  have hvalue' := runAll_shown hdirty hcolor' hr hshown
  rw [hsame, hvalue, c.width_withPixels, c.source_fullPart, c.source_dirtyWhole] at hvalue'
  have hwhite : pixelAt (k'.1 * c.width + k'.2) = pixelAt (c.cutOff + (k'.1 * c.width + k'.2)) := by
    by_contra hne
    have hblack := hvalue'.symm
    rw [show (c.withPixels (whiteAt _)).pixels = whiteAt _ from rfl, whiteAt, whiteAt, if_pos rfl,
      if_neg hne] at hblack
    exact absurd hblack (by decide)
  exact_mod_cast dvd_of_pixelAt_eq hwhite.symm

/-- For every compositor, every context and all the contexts in front of it and behind it, such that the frame
with the context redrawn as a whole is drawn inside the buffers: the frame with the whole context dirty is the
same for every content if and only if nothing is cut off at the left and at the top (nothing in 30 bits), or
the context is hidden. -/
theorem sameFrame_iff (hdrawn : ∃ g, (f.withContexts (front ++ c.full :: back)).drawFrame = .ok g) :
    f.SameFrame front c back ↔ 2 ^ 30 ∣ c.cutOff ∨ f.Hidden front c := by
  constructor
  · intro h
    by_contra hnot
    rw [not_or] at hnot
    refine hnot.2 fun k hk => ⟨?_, ?_⟩
    · obtain ⟨g, hg⟩ := hdrawn
      obtain ⟨g', hg', -⟩ := h c.pixels g hg
      have hsound := (drawFrame_isOk _).1 ⟨g', hg'⟩
      rw [frame_wholeDirty] at hsound
      have hcolor := (hsound _ (mem_append_right _ (mem_append_left _ (mem_map.2 ⟨k, hk, rfl⟩)))).2
      have hread := (d.partColor_isOk_iff.1 hcolor).1
      rw [c.width_withPixels, c.source_dirtyWhole] at hread
      exact hread
    · by_contra hshown
      exact hnot.1 (f.dvd_of_shown hdrawn h hk fun w hw hindex => hshown ⟨w, hw, hindex⟩)
  · rintro (h | h)
    · exact f.sameFrame_of_dvd h
    · exact f.sameFrame_of_hidden h

theorem eight_pos : 0 < 8 := by decide

theorem eight_fits : 8 * (8 * 8) ≤ 2 ^ 32 := by decide

theorem seven_lt : 7 < 8 := by decide

theorem one_lt_word : 1 < 2 ^ 32 := by decide

theorem two_lt_word : 2 < 2 ^ 32 := by decide

theorem nil_inRange : ∀ r ∈ ([] : List Rectangle), r.InRange := fun _ h => absurd h not_mem_nil

/-- A black desktop of 8 times 8 pixels, with the mouse in the last one. -/
def blackDesktop : Compositor ⟨8, 8, eight_pos, eight_pos, eight_fits⟩ where
  background := fun _ => 0xFF000000
  backBuffer := fun _ => 0xFF000000
  mouse := ⟨7, 7, seven_lt, seven_lt⟩
  prevMouse := none
  dirtyRectList := []
  contextList := []
  dirty_range := nil_inRange

/-- A context of two pixels. -/
def twoPixels (x : Int) (hx : IsInt x) : ContextInfo where
  width := 2
  height := 1
  x := x
  y := 0
  supportsTransparency := false
  supportsDirtyRects := false
  dirtyRects := []
  pixels := fun i => if i = 0 then 0xFF00FF00 else 0xFF0000FF
  width_lt := two_lt_word
  height_lt := one_lt_word
  x_range := hx
  y_range := isInt_zero
  dirty_range := nil_inRange

/-- In the corner of the desktop, the context can be marked dirty. -/
theorem sameFrame_corner :
    (∃ g, (blackDesktop.withContexts ([] ++ (twoPixels 0 isInt_zero).full :: [])).drawFrame = .ok g) ∧
    blackDesktop.SameFrame [] (twoPixels 0 isInt_zero) [] := by
  have hdrawn : ∃ g, (blackDesktop.withContexts ([] ++ (twoPixels 0 isInt_zero).full :: [])).drawFrame =
      .ok g := by
    cases h : (blackDesktop.withContexts ([] ++ (twoPixels 0 isInt_zero).full :: [])).drawFrame with
    | error e =>
      have hok : (blackDesktop.withContexts ([] ++ (twoPixels 0 isInt_zero).full ::
        [])).drawFrame.toOption.isSome = true := by decide +kernel
      rw [h] at hok
      exact absurd hok Bool.false_ne_true
    | ok g => exact ⟨g, rfl⟩
  exact ⟨hdrawn, (blackDesktop.sameFrame_iff hdrawn).2 (.inl (by decide))⟩

/-- One pixel to the left, the first pixel of the desktop shows the second pixel of the context when it is
redrawn as a whole, and the first one when it is dirty. -/
theorem not_sameFrame_left :
    (blackDesktop.withContexts [(twoPixels (-1) (by decide)).full]).drawFrame.toOption.map
      (fun g => g.backBuffer 0) = some 0xFF0000FF ∧
    (blackDesktop.withContexts [(twoPixels (-1) (by decide)).wholeDirty]).drawFrame.toOption.map
      (fun g => g.backBuffer 0) = some 0xFF00FF00 := by
  decide +kernel

end Compositor

end HeisenKernel.Gui
