import HeisenKernel.Base
import HeisenKernel.Lib.Tiling

/-!
# Clip lists

Translation of `Rectangle::Contains`, `Rectangle::Split` and `Rectangle::PushToClipList` of
`gui/rect.cpp`. A rectangle stands for the points that `Contains` accepts, both ends included, so
that a rectangle of width or height -1 has none.
-/

namespace HeisenKernel.Gui

open HeisenKernel.Lib Set

/-- `Rectangle` (`rect.h:12`). -/
structure Rectangle where
  width : Int
  height : Int
  x : Int
  y : Int
deriving DecidableEq, Repr

/-- `Rect` (`rect.cpp:52`): a rectangle by its edges. -/
structure Rect where
  top : Int
  left : Int
  bottom : Int
  right : Int
deriving DecidableEq, Repr

/-- The edges of a rectangle, as `Split` and `PushToClipList` compute them. -/
def Rectangle.edges (r : Rectangle) : Rect where
  top := r.y
  left := r.x
  bottom := r.y + r.height
  right := r.x + r.width

/-- The rectangle that `Split` pushes for a piece. -/
def Rect.rectangle (r : Rect) : Rectangle where
  width := r.right - r.left
  height := r.bottom - r.top
  x := r.left
  y := r.top

/-- `Rectangle::Contains` (`rect.cpp:43`). -/
def Rectangle.contains (r : Rectangle) (x y : Int) : Bool :=
  if x ≥ r.x ∧ x ≤ r.x + r.width then
    if y ≥ r.y ∧ y ≤ r.y + r.height then true else false
  else false

/-- Step 1 of `Split` (`rect.cpp:86`): what lies left of the cutting rectangle. -/
def splitLeft (cutting subject : Rect) : List Rectangle × Rect :=
  if cutting.left ≥ subject.left ∧ cutting.left ≤ subject.right then
    ([{ subject with right := cutting.left - 1 }.rectangle], { subject with left := cutting.left })
  else ([], subject)

/-- Step 2 of `Split` (`rect.cpp:101`): what lies above the cutting rectangle. -/
def splitTop (cutting subject : Rect) : List Rectangle × Rect :=
  if cutting.top ≥ subject.top ∧ cutting.top ≤ subject.bottom then
    ([{ subject with bottom := cutting.top - 1 }.rectangle], { subject with top := cutting.top })
  else ([], subject)

/-- Step 3 of `Split` (`rect.cpp:116`): what lies right of the cutting rectangle. -/
def splitRight (cutting subject : Rect) : List Rectangle × Rect :=
  if cutting.right ≥ subject.left ∧ cutting.right ≤ subject.right then
    ([{ subject with left := cutting.right + 1 }.rectangle], { subject with right := cutting.right })
  else ([], subject)

/-- Step 4 of `Split` (`rect.cpp:131`): what lies below the cutting rectangle. -/
def splitBottom (cutting subject : Rect) : List Rectangle × Rect :=
  if cutting.bottom ≥ subject.top ∧ cutting.bottom ≤ subject.bottom then
    ([{ subject with top := cutting.bottom + 1 }.rectangle], { subject with bottom := cutting.bottom })
  else ([], subject)

/-- `Rectangle::Split` (`rect.cpp:63`) with no output list given. -/
def Rectangle.split (r cutter : Rectangle) : List Rectangle :=
  let cutting := cutter.edges
  let (left, subject) := splitLeft cutting r.edges
  let (top, subject) := splitTop cutting subject
  let (right, subject) := splitRight cutting subject
  let (bottom, _) := splitBottom cutting subject
  left ++ top ++ right ++ bottom

/-- The intersection test of `PushToClipList` (`rect.cpp:171`). -/
def Rect.overlaps (cur subject : Rect) : Bool :=
  cur.left ≤ subject.right && cur.right ≥ subject.left && cur.top ≤ subject.bottom && cur.bottom ≥ subject.top

/-- The points of a rectangle. -/
def Rectangle.points (r : Rectangle) : Set (Int × Int) := {p | r.contains p.1 p.2 = true}

/-- The points between four edges. -/
def Rect.points (r : Rect) : Set (Int × Int) :=
  {p | (r.left ≤ p.1 ∧ p.1 ≤ r.right) ∧ r.top ≤ p.2 ∧ p.2 ≤ r.bottom}

theorem Rect.mem_points {r : Rect} {p : Int × Int} :
    p ∈ r.points ↔ (r.left ≤ p.1 ∧ p.1 ≤ r.right) ∧ r.top ≤ p.2 ∧ p.2 ≤ r.bottom := Iff.rfl

theorem points_edges (r : Rectangle) : r.edges.points = r.points := by
  ext p
  simp [Rect.points, Rectangle.points, Rectangle.contains, Rectangle.edges, and_assoc]

@[simp] theorem edges_rectangle (s : Rect) : s.rectangle.edges = s := by
  cases s
  simp only [Rect.rectangle, Rectangle.edges, Rect.mk.injEq, true_and]
  omega

theorem points_rectangle (s : Rect) : s.rectangle.points = s.points := by
  rw [← points_edges, edges_rectangle]

theorem Rect.overlaps_iff {r s : Rect} :
    r.overlaps s = true ↔ ((r.left ≤ s.right ∧ s.left ≤ r.right) ∧ r.top ≤ s.bottom) ∧ s.top ≤ r.bottom := by
  simp [Rect.overlaps]

theorem disjoint_of_not_overlaps {r s : Rectangle} (h : ¬ r.edges.overlaps s.edges = true) :
    Disjoint r.points s.points := by
  rw [← points_edges r, ← points_edges s]
  refine disjoint_left.2 fun p hr hs => h (Rect.overlaps_iff.2 ?_)
  simp only [Rect.mem_points] at hr hs
  omega

/-- Steps of `Split` have put `out` aside and left `rest` of `subject`; no piece passes the
intersection test with the cutting rectangle. -/
structure Cuts (cutting subject : Rect) (out : List Rectangle) (rest : Rect) : Prop where
  tiles : Tiles Rectangle.points out (subject.points \ rest.points)
  subset : rest.points ⊆ subject.points
  apart : ∀ piece ∈ out, ¬ piece.edges.overlaps cutting = true

namespace Cuts

variable {c s piece rest : Rect}

theorem refl : Cuts c s [] s := by
  refine ⟨?_, subset_rfl, by simp⟩
  rw [sdiff_self]
  exact Tiles.nil

theorem single (ha : ¬ piece.overlaps c = true)
    (h : ∀ p, (p ∈ piece.points ↔ p ∈ s.points ∧ p ∉ rest.points) ∧ (p ∈ rest.points → p ∈ s.points)) :
    Cuts c s [piece.rectangle] rest := by
  refine ⟨(Tiles.singleton _).congr ?_, fun p => (h p).2, by simpa using ha⟩
  exact (points_rectangle piece).trans (ext fun p => (h p).1)

theorem trans (h1 : Cuts c s l t) (h2 : Cuts c t m u) : Cuts c s (l ++ m) u := by
  have hd : Disjoint (s.points \ t.points) (t.points \ u.points) := disjoint_left.2 fun p hp hp' => hp.2 hp'.1
  refine ⟨(h1.tiles.append h2.tiles hd).congr ?_, h2.subset.trans h1.subset, fun piece hp => ?_⟩
  · exact sdiff_union_sdiff_cancel h1.subset h2.subset
  · exact (List.mem_append.1 hp).elim (h1.apart piece) (h2.apart piece)

end Cuts

section
variable (c s : Rect)

theorem splitLeft_cuts : Cuts c s (splitLeft c s).1 (splitLeft c s).2 := by
  unfold splitLeft
  split
  · refine Cuts.single ?_ fun p => ?_
    · simp only [Rect.overlaps_iff]
      omega
    · simp only [Rect.mem_points]
      omega
  · exact Cuts.refl

theorem splitTop_cuts : Cuts c s (splitTop c s).1 (splitTop c s).2 := by
  unfold splitTop
  split
  · refine Cuts.single ?_ fun p => ?_
    · simp only [Rect.overlaps_iff]
      omega
    · simp only [Rect.mem_points]
      omega
  · exact Cuts.refl

theorem splitRight_cuts : Cuts c s (splitRight c s).1 (splitRight c s).2 := by
  unfold splitRight
  split
  · refine Cuts.single ?_ fun p => ?_
    · simp only [Rect.overlaps_iff]
      omega
    · simp only [Rect.mem_points]
      omega
  · exact Cuts.refl

theorem splitBottom_cuts : Cuts c s (splitBottom c s).1 (splitBottom c s).2 := by
  unfold splitBottom
  split
  · refine Cuts.single ?_ fun p => ?_
    · simp only [Rect.overlaps_iff]
      omega
    · simp only [Rect.mem_points]
      omega
  · exact Cuts.refl

/-- What the four steps leave of the subject. -/
def splitRest : Rect :=
  (splitBottom c (splitRight c (splitTop c (splitLeft c s).2).2).2).2

theorem splitRest_subset (ho : s.overlaps c = true) (hw : c.left ≤ c.right)
    (hh : c.top ≤ c.bottom) : (splitRest c s).points ⊆ c.points := by
  rw [Rect.overlaps_iff] at ho
  intro p
  simp only [Rect.mem_points, splitRest, splitLeft, splitTop, splitRight, splitBottom]
  split_ifs <;> dsimp only at * <;> omega

end

theorem split_cuts (r cutter : Rectangle) :
    Cuts cutter.edges r.edges (r.split cutter) (splitRest cutter.edges r.edges) :=
  (((splitLeft_cuts _ _).trans (splitTop_cuts _ _)).trans (splitRight_cuts _ _)).trans (splitBottom_cuts _ _)

theorem split_tiles {r cutter : Rectangle} (ho : r.edges.overlaps cutter.edges = true) (hw : 0 ≤ cutter.width)
    (hh : 0 ≤ cutter.height) : Tiles Rectangle.points (r.split cutter) (r.points \ cutter.points) := by
  have hcuts := split_cuts r cutter
  have hsub : (splitRest cutter.edges r.edges).points ⊆ cutter.points := by
    rw [← points_edges cutter]
    exact splitRest_subset _ _ ho (Int.le_add_of_nonneg_right hw) (Int.le_add_of_nonneg_right hh)
  refine hcuts.tiles.congr ?_
  rw [points_edges]
  ext p
  simp only [mem_sdiff, and_congr_right_iff]
  intro hp
  refine ⟨fun hrest hc => ?_, fun hc hrest => hc (hsub hrest)⟩
  -- a point outside what is left is in some piece, and no piece meets the cutter
  obtain ⟨piece, hpiece, hpp⟩ := (hcuts.tiles.mem_iff p).1 ⟨points_edges r ▸ hp, hrest⟩
  exact disjoint_left.1 (disjoint_of_not_overlaps (hcuts.apart piece hpiece)) hpp hc

theorem countP_split_lt {r : Rectangle} {l : List Rectangle} {i : Nat} (hi : i < l.length)
    (ho : l[i].edges.overlaps r.edges = true) :
    (l.eraseIdx i ++ l[i].split r).countP (fun c => c.edges.overlaps r.edges) <
      l.countP fun c => c.edges.overlaps r.edges := by
  have hsplit : (l[i].split r).countP (fun c => c.edges.overlaps r.edges) = 0 :=
    List.countP_eq_zero.2 (split_cuts l[i] r).apart
  have hall := (List.getElem_cons_eraseIdx_perm hi).countP_eq fun c => c.edges.overlaps r.edges
  rw [List.countP_cons, if_pos ho] at hall
  rw [List.countP_append, hsplit]
  omega

/-- The loop of `PushToClipList` (`rect.cpp:160`) from index `i` on, and the push that follows it.
It ends because a restart has one overlapping entry less. -/
def clipLoop (r : Rectangle) (targetList : List Rectangle) (i : Nat) : List Rectangle :=
  if hi : i < targetList.length then
    if ho : targetList[i].edges.overlaps r.edges then
      -- what overlaps is taken out, its pieces go to the end, and the scan starts over
      clipLoop r (targetList.eraseIdx i ++ targetList[i].split r) 0
    else clipLoop r targetList (i + 1)
  else targetList ++ [r]
termination_by (targetList.countP fun c => c.edges.overlaps r.edges, targetList.length - i)
decreasing_by
  · exact Prod.Lex.left _ _ (countP_split_lt hi ho)
  · exact Prod.Lex.right _ (by omega)

/-- `Rectangle::PushToClipList` (`rect.cpp:147`). -/
def Rectangle.pushToClipList (r : Rectangle) (targetList : List Rectangle) : List Rectangle :=
  clipLoop r targetList 0

theorem clipLoop_tiles (hw : 0 ≤ r.width) (hh : 0 ≤ r.height)
    {S : Set (Int × Int)} (hl : Tiles Rectangle.points l S)
    (hbefore : ∀ j (hj : j < l.length), j < i → ¬ l[j].edges.overlaps r.edges = true) :
    Tiles Rectangle.points (clipLoop r l i) (S ∪ r.points) := by
  fun_induction clipLoop r l i generalizing S with
  | case1 l i hi ho ih =>
    -- the overlapping entry keeps its part outside the new rectangle
    refine (ih (hl.replace hi (split_tiles ho hw hh)) (by simp)).congr ?_
    ext p
    simp only [mem_union, mem_sdiff, mem_inter_iff]
    tauto
  | case2 l i hi ho ih =>
    refine ih hl fun j hj hji => ?_
    rcases Nat.lt_succ_iff_lt_or_eq.1 hji with hlt | rfl
    · exact hbefore j hj hlt
    · exact ho
  | case3 l i hi =>
    refine hl.append (Tiles.singleton r) (disjoint_left.2 fun p hp hr => ?_)
    obtain ⟨c, hc, hpc⟩ := (hl.mem_iff p).1 hp
    obtain ⟨j, hj, rfl⟩ := List.mem_iff_getElem.1 hc
    have hno := hbefore j hj (by omega)
    exact disjoint_left.1 (disjoint_of_not_overlaps hno) hpc hr

/-- `PushToClipList` keeps the rectangles of a list disjoint, and adds to what they cover the points
of the new rectangle and no others. -/
theorem pushToClipList_disjoint_union (r : Rectangle) (l : List Rectangle) (hw : 0 ≤ r.width)
    (hh : 0 ≤ r.height) (hl : l.Pairwise fun a b => Disjoint a.points b.points) :
    (r.pushToClipList l).Pairwise (fun a b => Disjoint a.points b.points) ∧
      (⋃ a ∈ r.pushToClipList l, a.points) = (⋃ a ∈ l, a.points) ∪ r.points := by
  have hold : Tiles Rectangle.points l (⋃ a ∈ l, a.points) := ⟨hl, by simp⟩
  have hnew := clipLoop_tiles hw hh (i := 0) hold (by simp)
  refine ⟨hnew.disjoint, ext fun p => ?_⟩
  rw [hnew.mem_iff]
  simp [Rectangle.pushToClipList]

/-- A rectangle pushed over the corner of another and an empty one. -/
theorem pushToClipList_disjoint_union_corner :
    ((Rectangle.mk 4 4 2 2).pushToClipList [⟨4, 4, 0, 0⟩, ⟨-1, 3, 3, 3⟩]).Pairwise
        (fun a b => Disjoint a.points b.points) ∧
      (⋃ a ∈ (Rectangle.mk 4 4 2 2).pushToClipList [⟨4, 4, 0, 0⟩, ⟨-1, 3, 3, 3⟩], a.points) =
        (⋃ a ∈ [Rectangle.mk 4 4 0 0, ⟨-1, 3, 3, 3⟩], a.points) ∪ (Rectangle.mk 4 4 2 2).points := by
  refine pushToClipList_disjoint_union _ _ (by decide) (by decide) ?_
  refine List.pairwise_pair.2 (disjoint_left.2 fun p _ hp => ?_)
  rw [← points_edges, Rect.mem_points] at hp
  simp only [Rectangle.edges] at hp
  omega

end HeisenKernel.Gui
