import HeisenKernel.Imaging.Png
import HeisenKernel.Lib.Loop
import Mathlib.Data.List.MinMax
import Mathlib.Tactic.IntervalCases
import Mathlib.Tactic.Ring

/-!
# Reconstruction undoes the filters of PNG

The PNG specification takes from every byte of an image a prediction from the byte to its left, the
byte above and the byte above that, by one of five filters for each row.
-/

namespace HeisenKernel.Imaging

open HeisenKernel.Lib List Nat

/-- An RGBA pixel of 8 bits for each sample. -/
structure Pixel where
  red : UInt8
  green : UInt8
  blue : UInt8
  alpha : UInt8
deriving Repr, DecidableEq

/-- The bytes of a pixel in a PNG file. -/
def Pixel.rgba (p : Pixel) : List UInt8 := [p.red, p.green, p.blue, p.alpha]

/-- The bytes of a pixel with red and blue exchanged. -/
def Pixel.bgra (p : Pixel) : List UInt8 := [p.blue, p.green, p.red, p.alpha]

/-- A raster by rows and columns. -/
abbrev Raster := Nat → Nat → Pixel

/-- The byte at index `c` of row `r`. -/
def Raster.sample (raster : Raster) (r c : Nat) : UInt8 := (raster r (c / 4)).rgba.getD (c % 4) 0

/-- The filter types of PNG, of filter method 0. -/
inductive FilterType where
  | none
  | sub
  | up
  | average
  | paeth
deriving Repr, DecidableEq

namespace FilterType

/-- The byte in front of a row. -/
def byte : FilterType → UInt8
  | none => 0
  | sub => 1
  | up => 2
  | average => 3
  | paeth => 4

/-- The neighbour that is nearest to `a + b - c`, the first one if there are several. -/
def nearest (a b c : UInt8) : UInt8 :=
  (([a, b, c].argmin fun x => ((a.toNat + b.toNat - c.toNat : Int) - x.toNat).natAbs).getD 0)

/-- What a filter predicts from the neighbours: `a` to the left, `b` above, `c` above `a`. -/
def predict (a b c : UInt8) : FilterType → UInt8
  | none => 0
  | sub => a
  | up => b
  | average => UInt8.ofNat ((a.toNat + b.toNat) / 2)
  | paeth => nearest a b c

end FilterType

namespace Raster

variable (raster : Raster)

/-- The byte of the pixel to the left; nothing is left of the first pixel. -/
def left (r c : Nat) : UInt8 := if c < 4 then 0 else raster.sample r (c - 4)

/-- The byte above; nothing is above the first row. -/
def above (r c : Nat) : UInt8 := if r = 0 then 0 else raster.sample (r - 1) c

/-- The byte above the pixel to the left. -/
def aboveLeft (r c : Nat) : UInt8 := if r = 0 ∨ c < 4 then 0 else raster.sample (r - 1) (c - 4)

/-- What the filter of row `r` predicts for the byte at `c`. -/
def prediction (types : Nat → FilterType) (r c : Nat) : UInt8 :=
  (types r).predict (raster.left r c) (raster.above r c) (raster.aboveLeft r c)

/-- A filtered row: the filter type and the differences from the predictions. -/
def filteredRow (types : Nat → FilterType) (width r : Nat) : List UInt8 :=
  (types r).byte :: (List.range (4 * width)).map fun c =>
    raster.sample r c - raster.prediction types r c

/-- The filtered bytes of an image. -/
def filtered (types : Nat → FilterType) (width height : Nat) : List UInt8 :=
  (List.range height).flatMap (raster.filteredRow types width)

/-- The bytes of an image with red and blue exchanged, pixel by pixel. -/
def exchanged (width height : Nat) : List UInt8 :=
  (List.range (height * width)).flatMap fun i => (raster (i / width) (i % width)).bgra

end Raster

theorem paethPredictor_eq (a b c : UInt8) : paethPredictor a b c = FilterType.nearest a b c := by
  simp only [paethPredictor, FilterType.nearest, argmin, argAux, foldl]
  split_ifs <;> grind

variable {raster : Raster} {width height : Nat}

/-- The bytes of the image in front of index `n` are rebuilt. -/
def Rebuilt (raster : Raster) (stride n : Nat) (recon : List UInt8) : Prop :=
  ∀ r c, c < stride → r * stride + c < n → recon[r * stride + c]? = some (raster.sample r c)

theorem filtered_type (hr : r < height) :
    (raster.filtered types width height)[r * (4 * width + 1)]? = some (types r).byte := by
  have h := getElem?_flatMap_range (f := raster.filteredRow types width)
    (fun i => by simp [Raster.filteredRow]) hr (succ_pos (4 * width))
  simpa [Raster.filtered, Raster.filteredRow] using h

theorem filtered_byte (hr : r < height) (hc : c < 4 * width) :
    (raster.filtered types width height)[r * (4 * width + 1) + 1 + c]? =
      some (raster.sample r c - raster.prediction types r c) := by
  have h := getElem?_flatMap_range (f := raster.filteredRow types width)
    (fun i => by simp [Raster.filteredRow]) hr (succ_lt_succ hc)
  rw [add_assoc, add_comm 1 c]
  simpa [Raster.filtered, Raster.filteredRow, hc] using h

variable {r c : Nat} {recon : List UInt8}

section
variable (h : Rebuilt raster stride (r * stride + c) recon) (hc : c < stride)
include h hc

theorem Rebuilt.reconA : reconA recon stride r c = .ok (raster.left r c) := by
  unfold Imaging.reconA Raster.left bytesPerPixel
  split
  · next h4 =>
    rw [if_neg (Nat.not_lt.2 h4), Nat.add_sub_assoc h4]
    exact readAt_eq (h r (c - 4) (by omega) (by omega))
  · next h4 => rw [if_pos (not_le.1 h4)]

theorem Rebuilt.reconB : reconB recon stride r c = .ok (raster.above r c) := by
  unfold Imaging.reconB Raster.above
  split
  · next hr =>
    have hrow : (r - 1) * stride + stride = r * stride := by
      rw [← Nat.succ_mul, Nat.succ_eq_add_one, Nat.sub_add_cancel hr]
    rw [if_neg (pos_iff_ne_zero.1 hr)]
    exact readAt_eq (h (r - 1) c hc (by omega))
  · next hr => rw [if_pos (by omega)]

theorem Rebuilt.reconC : reconC recon stride r c = .ok (raster.aboveLeft r c) := by
  unfold Imaging.reconC Raster.aboveLeft bytesPerPixel
  split
  · next hrc =>
    obtain ⟨hr, h4⟩ := hrc
    have hrow : (r - 1) * stride + stride = r * stride := by
      rw [← Nat.succ_mul, Nat.succ_eq_add_one, Nat.sub_add_cancel hr]
    rw [if_neg (by omega), Nat.add_sub_assoc h4]
    exact readAt_eq (h (r - 1) (c - 4) (by omega) (by omega))
  · next hrc => rw [if_pos (by omega)]

theorem Rebuilt.reconByte
    (reconX : UInt8) :
    reconByte recon stride r c (types r).byte
      (raster.sample r c - raster.prediction types r c) reconX = .ok (raster.sample r c) := by
  unfold Raster.prediction
  cases types r <;> simp only [Imaging.reconByte, FilterType.byte, FilterType.predict]
  case none => simp
  case sub => simp [h.reconA hc]
  case up => simp [h.reconB hc]
  case average =>
    simp only [h.reconA hc, h.reconB hc]
    exact congrArg Except.ok (UInt8.sub_add_cancel ..)
  case paeth =>
    simp only [h.reconA hc, h.reconB hc, h.reconC hc, paethPredictor_eq]
    exact congrArg Except.ok (UInt8.sub_add_cancel ..)

theorem Rebuilt.set (hlen : r * stride + c < recon.length) : Rebuilt raster stride (r * stride + (c + 1))
    (recon.set (r * stride + c) (raster.sample r c)) := by
  intro r' c' hc' hlt
  rcases lt_or_ge (r' * stride + c') (r * stride + c) with hbefore | hafter
  · rw [getElem?_set_ne (by omega)]
    exact h r' c' hc' hbefore
  · have heq : r' * stride + c' = r * stride + c := by omega
    have hmod := congrArg (· % stride) heq
    simp only [mul_add_mod', mod_eq_of_lt hc, mod_eq_of_lt hc'] at hmod
    subst hmod
    simp only [add_right_cancel_iff] at heq
    have hr : r' = r := eq_of_mul_eq_mul_right (zero_lt_of_lt hc) heq
    rw [hr, getElem?_set_self hlen]

end

/-- Where the loops stand in front of byte `c` of row `r`. -/
structure RowState (raster : Raster) (width height r c : Nat) (s : ReconState) : Prop where
  length : s.recon.length = height * (4 * width)
  reconIndex : s.reconIndex = r * (4 * width) + c
  rebuilt : Rebuilt raster (4 * width) (r * (4 * width) + c) s.recon

theorem reconCell_filtered (hr : r < height) (hc : c < 4 * width)
    (h : RowState raster width height r c s.1) (hi : s.1.index = r * (4 * width + 1) + 1 + c) :
    ∃ s', reconCell (raster.filtered types width height) (4 * width) r (types r).byte s c = .ok s' ∧
      RowState raster width height r (c + 1) s'.1 ∧ s'.1.index = r * (4 * width + 1) + 1 + (c + 1) := by
  have hlt : r * (4 * width) + c < s.1.recon.length := by
    have := mul_le_mul_right (4 * width) hr
    rw [succ_mul r] at this
    rw [h.length]
    omega
  refine ⟨(⟨s.1.recon.set (r * (4 * width) + c) (raster.sample r c), s.1.reconIndex + 1,
    s.1.index + 1⟩, raster.sample r c), ?_, ⟨?_, ?_, h.rebuilt.set hc hlt⟩, ?_⟩
  · rw [reconCell, bind_of_ok (readAt_eq (hi ▸ filtered_byte hr hc)),
      bind_of_ok (h.rebuilt.reconByte hc _), h.reconIndex, bind_of_ok (writeAt_eq _ hlt)]
    rfl
  · rw [length_set, h.length]
  · rw [h.reconIndex, add_assoc]
  · rw [hi, add_assoc]

theorem reconRow_filtered (hr : r < height)
    (h : RowState raster width height r 0 s) (hi : s.index = r * (4 * width + 1)) :
    ∃ s', reconRow (raster.filtered types width height) (4 * width) s r = .ok s' ∧
      RowState raster width height (r + 1) 0 s' ∧ s'.index = (r + 1) * (4 * width + 1) := by
  obtain ⟨⟨s', x⟩, hloop, hs', hi'⟩ := foldlM_range
   
    (I := fun c s => RowState raster width height r c s.1 ∧ s.1.index = r * (4 * width + 1) + 1 + c)
    (s := ({ s with index := s.index + 1 }, 0)) (fun c hc s hs => reconCell_filtered hr hc hs.1 hs.2)
    ⟨⟨h.length, h.reconIndex, h.rebuilt⟩, by rw [hi]⟩
  refine ⟨s', ?_, ⟨hs'.length, ?_, ?_⟩, ?_⟩
  · rw [reconRow, bind_of_ok (readAt_eq (hi ▸ filtered_type hr))]
    exact bind_of_ok hloop
  · rw [hs'.reconIndex, succ_mul r, add_zero]
  · rw [succ_mul r, add_zero]
    exact hs'.rebuilt
  · rw [hi', succ_mul r]
    omega

/-- The bytes of the first `n` pixels are exchanged, those of the other ones are not. -/
structure Swapped (raster : Raster) (width height n : Nat) (recon : List UInt8) : Prop where
  length : recon.length = 4 * (height * width)
  done : ∀ i < n, ∀ k < 4, recon[4 * i + k]? = (raster (i / width) (i % width)).bgra[k]?
  left : ∀ i, n ≤ i → i < height * width → ∀ k < 4,
    recon[4 * i + k]? = (raster (i / width) (i % width)).rgba[k]?

theorem RowState.swapped (h : RowState raster width height height 0 s) :
    Swapped raster width height 0 s.recon := by
  refine ⟨by rw [h.length, mul_left_comm], by simp, fun i _ hi k hk => ?_⟩
  have hw : 0 < width := Nat.pos_of_lt_mul_left hi
  have hmod : i % width < width := mod_lt i hw
  have hindex : 4 * i + k = i / width * (4 * width) + (4 * (i % width) + k) := by
    have := div_add_mod i width
    calc 4 * i + k = 4 * (width * (i / width) + i % width) + k := by rw [this]
      _ = i / width * (4 * width) + (4 * (i % width) + k) := by ring
  have hrow : i / width < height := Nat.div_lt_of_lt_mul (by rwa [mul_comm])
  have hbound : i / width * (4 * width) + (4 * (i % width) + k) < height * (4 * width) + 0 := by
    have := mul_le_mul_right (4 * width) hrow
    rw [succ_mul (i / width)] at this
    omega
  rw [hindex, h.rebuilt _ _ (by omega) hbound, Raster.sample]
  have hdiv : (4 * (i % width) + k) / 4 = i % width := by omega
  have hrem : (4 * (i % width) + k) % 4 = k := by omega
  rw [hdiv, hrem, getD_eq_getElem?_getD]
  rw [getElem?_eq_getElem (by exact hk)]
  rfl

theorem swapPixel_eq {p : Pixel} (hlen : 4 * i + 3 < recon.length)
    (h : ∀ k < 4, recon[4 * i + k]? = p.rgba[k]?) :
    swapPixel recon (4 * i) =
      .ok ((((recon.set (4 * i + 3) p.alpha).set (4 * i + 2) p.red).set (4 * i + 1) p.green).set
        (4 * i) p.blue) := by
  rw [swapPixel, bind_of_ok (readAt_eq (h 3 (by decide))), bind_of_ok (readAt_eq (h 2 (by decide))),
    bind_of_ok (readAt_eq (h 1 (by decide))), bind_of_ok (readAt_eq (h 0 (by decide))),
    bind_of_ok (writeAt_eq _ hlen), bind_of_ok (writeAt_eq _ (by simp; omega)),
    bind_of_ok (writeAt_eq _ (by simp; omega)), writeAt_eq _ (by simp; omega)]
  rfl

theorem Swapped.step {i : Nat} (hi : i < height * width) (h : Swapped raster width height i recon) : ∃
    recon', swapPixel recon (4 * i) = .ok recon' ∧ Swapped raster width height (i + 1) recon' := by
  have hlen : 4 * i + 3 < recon.length := by
    rw [h.length]
    omega
  refine ⟨_, swapPixel_eq hlen (h.left i (le_refl i) hi), ⟨by simpa using h.length, ?_, ?_⟩⟩
  · intro j hj k hk
    rcases Nat.lt_succ_iff_lt_or_eq.1 hj with hlt | rfl
    · rw [getElem?_set_ne (by omega), getElem?_set_ne (by omega),
        getElem?_set_ne (by omega), getElem?_set_ne (by omega)]
      exact h.done j hlt k hk
    · simp only [getElem?_set, Pixel.bgra]
      interval_cases k <;> simp <;> omega
  · intro j hj hlt k hk
    rw [getElem?_set_ne (by omega), getElem?_set_ne (by omega),
      getElem?_set_ne (by omega), getElem?_set_ne (by omega)]
    exact h.left j (by omega) hlt k hk

theorem Swapped.eq_exchanged (h : Swapped raster width height (height * width) recon) :
    recon = raster.exchanged width height := by
  have hlen : (raster.exchanged width height).length = 4 * (height * width) := by
    simp [Raster.exchanged, length_flatMap, Pixel.bgra, mul_comm]
  refine ext_getElem? fun n => ?_
  rcases lt_or_ge n (4 * (height * width)) with hn | hn
  · have hsplit : n = n / 4 * 4 + n % 4 := (div_add_mod' n 4).symm
    rw [hsplit, Raster.exchanged, getElem?_flatMap_range (w := 4) (fun i => rfl) (by omega) (by omega),
      mul_comm (n / 4) 4]
    exact h.done (n / 4) (by omega) (n % 4) (by omega)
  · rw [getElem?_eq_none (by rw [h.length]; exact hn), getElem?_eq_none (by rw [hlen]; exact hn)]

/-- Reconstruction from the filtered bytes of a raster gives the raster with red and blue exchanged,
whatever the filters of the rows and the contents of the new image buffer. -/
theorem reconstruct_filtered (raster : Raster) (types : Nat → FilterType) (width height : Nat)
    (recon : List UInt8) (hlen : recon.length = height * (4 * width)) :
    reconstruct (raster.filtered types width height) (4 * width) height recon =
      .ok (raster.exchanged width height) := by
  obtain ⟨s, hrows, hs, -⟩ := foldlM_range
    (I := fun r s => RowState raster width height r 0 s ∧ s.index = r * (4 * width + 1)) (s := ⟨recon, 0, 0⟩)
    (fun r hr s hs => reconRow_filtered hr hs.1 hs.2) ⟨⟨hlen, by simp, by simp [Rebuilt]⟩, by simp⟩
  obtain ⟨recon', hswap, hrecon'⟩ := foldlM_range (fun i hi _ h => Swapped.step hi h) hs.swapped
  have hcount : (height * (4 * width) + 3) / 4 = height * width := by
    rw [mul_left_comm]
    omega
  rw [reconstruct, bind_of_ok hrows, hcount, hswap, hrecon'.eq_exchanged]

/-- A row of two pixels under the filter `Sub`. -/
theorem reconstruct_filtered_sub :
    [0, 0, 0, 0, 0, 0, 0, (0 : UInt8)].length = 1 * (4 * 2) ∧
      reconstruct (Raster.filtered (fun _ x => ⟨UInt8.ofNat x, 2, 3, 4⟩) (fun _ => .sub) 2 1) (4 * 2) 1
          [0, 0, 0, 0, 0, 0, 0, 0] =
        .ok (Raster.exchanged (fun _ x => ⟨UInt8.ofNat x, 2, 3, 4⟩) 2 1) :=
  ⟨rfl, reconstruct_filtered _ _ _ _ _ rfl⟩

end HeisenKernel.Imaging
