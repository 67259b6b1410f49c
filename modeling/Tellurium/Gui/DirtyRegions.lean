import Tellurium.Gui.ClipAlgebra
import Tellurium.Gui.Render

/-!
Which pixels the dirty pass of the compositor covers (`libGUI/Compositor.cpp`,
`createDirtyWindowRegions`). Only dirty windows without a dirty ancestor add their rectangles;
the pixels of the others are covered as far as these rectangles reach.

Coverage is followed without assuming that rectangles are non-empty. A region with pixels takes
only its own pixels out of the list; an empty region that lies across a rectangle cuts a part of
it off, which no piece of the split has.
-/

namespace Tellurium.Gui

open ClipRegions

namespace Rect

/-- What no piece has when `r` is cut out: a side that is not longer than 0 cuts off all that is
behind the corner. -/
def CutsOff (r : Rect) (px py : Int) : Prop :=
  r.getLeft ≤ px ∧ (0 < r.width → px < r.getRight) ∧
    r.getTop ≤ py ∧ (0 < r.height → py < r.getBottom)

instance (r : Rect) (px py : Int) : Decidable (r.CutsOff px py) :=
  inferInstanceAs (Decidable (_ ∧ _))

theorem cutsOff_iff {r : Rect} (hr : r.Positive) (px py : Int) :
    r.CutsOff px py ↔ r.HasPixel px py := by
  simp only [Positive] at hr
  simp only [CutsOff, HasPixel]
  omega

/-- What the four cutting stages keep for rectangles of any size: the pieces and the remaining
copy partition `this`. -/
structure SplitParts (this : Rect) (s : SplitState) : Prop where
  apart : s.splitRects.Pairwise Apart
  copy_apart : ∀ r ∈ s.splitRects, r.Apart s.thisCopy
  cover : ∀ px py, this.HasPixel px py ↔
    (∃ r ∈ s.splitRects, r.HasPixel px py) ∨ s.thisCopy.HasPixel px py

theorem SplitParts.carve {this piece rest : Rect} {s : SplitState} (h : SplitParts this s)
    (hcover : ∀ px py, s.thisCopy.HasPixel px py ↔ piece.HasPixel px py ∨ rest.HasPixel px py)
    (hapart : piece.Apart rest) : SplitParts this ⟨s.splitRects ++ [piece], rest⟩ := by
  refine ⟨?_, ?_, ?_⟩
  · refine List.pairwise_append.mpr ⟨h.apart, List.pairwise_singleton _ _, ?_⟩
    intro r hr q hq px py hin hout
    rw [List.mem_singleton.mp hq] at hout
    exact h.copy_apart r hr px py hin ((hcover px py).mpr (Or.inl hout))
  · intro r hr px py hin hout
    rcases List.mem_append.mp hr with hr | hr
    · exact h.copy_apart r hr px py hin ((hcover px py).mpr (Or.inr hout))
    · rw [List.mem_singleton.mp hr] at hin
      exact hapart px py hin hout
  · intro px py
    rw [h.cover, hcover]
    simp only [List.mem_append, List.mem_singleton, or_and_right, exists_or, exists_eq_left, or_assoc]

section Stages

variable {this cutRect : Rect} {s : SplitState}

theorem SplitParts.splitLeft (h : SplitParts this s) :
    SplitParts this (Rect.splitLeft cutRect s) := by
  unfold Rect.splitLeft
  split_ifs with hcut
  · apply h.carve
    all_goals
      simp only [Apart, HasPixel, getX, getY, getHeight, getLeft, getRight, getTop, getBottom,
        setLeft] at *
      omega
  · exact h

theorem SplitParts.splitTop (h : SplitParts this s) :
    SplitParts this (Rect.splitTop cutRect s) := by
  unfold Rect.splitTop
  split_ifs with hcut
  · apply h.carve
    all_goals
      simp only [Apart, HasPixel, getX, getY, getWidth, getLeft, getRight, getTop, getBottom,
        setTop] at *
      omega
  · exact h

theorem SplitParts.splitRight (h : SplitParts this s) :
    SplitParts this (Rect.splitRight cutRect s) := by
  unfold Rect.splitRight
  split_ifs with hcut
  · apply h.carve
    all_goals
      simp only [Apart, HasPixel, getY, getHeight, getLeft, getRight, getTop, getBottom,
        setRight] at *
      omega
  · exact h

theorem SplitParts.splitBottom (h : SplitParts this s) :
    SplitParts this (Rect.splitBottom cutRect s) := by
  unfold Rect.splitBottom
  split_ifs with hcut
  · apply h.carve
    all_goals
      simp only [Apart, HasPixel, getX, getWidth, getLeft, getRight, getTop, getBottom,
        setBottom] at *
      omega
  · exact h

theorem splitLeft_copy (hover : cutRect.getLeft < s.thisCopy.getRight) :
    (Rect.splitLeft cutRect s).thisCopy.getLeft = max s.thisCopy.getLeft cutRect.getLeft ∧
      (Rect.splitLeft cutRect s).thisCopy.getRight = s.thisCopy.getRight ∧
      (Rect.splitLeft cutRect s).thisCopy.getTop = s.thisCopy.getTop ∧
      (Rect.splitLeft cutRect s).thisCopy.getBottom = s.thisCopy.getBottom := by
  unfold Rect.splitLeft
  split_ifs with hcut
  all_goals
    simp only [getLeft, getRight, getTop, getBottom, setLeft, and_true] at *
    omega

theorem splitTop_copy (hover : cutRect.getTop < s.thisCopy.getBottom) :
    (Rect.splitTop cutRect s).thisCopy.getLeft = s.thisCopy.getLeft ∧
      (Rect.splitTop cutRect s).thisCopy.getRight = s.thisCopy.getRight ∧
      (Rect.splitTop cutRect s).thisCopy.getTop = max s.thisCopy.getTop cutRect.getTop ∧
      (Rect.splitTop cutRect s).thisCopy.getBottom = s.thisCopy.getBottom := by
  unfold Rect.splitTop
  split_ifs with hcut
  all_goals
    simp only [getLeft, getRight, getTop, getBottom, setTop, and_true, true_and] at *
    omega

theorem splitRight_copy : (Rect.splitRight cutRect s).thisCopy.getLeft = s.thisCopy.getLeft ∧
    (Rect.splitRight cutRect s).thisCopy.getRight =
      (if s.thisCopy.getLeft < cutRect.getRight then min s.thisCopy.getRight cutRect.getRight
        else s.thisCopy.getRight) ∧
    (Rect.splitRight cutRect s).thisCopy.getTop = s.thisCopy.getTop ∧
    (Rect.splitRight cutRect s).thisCopy.getBottom = s.thisCopy.getBottom := by
  unfold Rect.splitRight
  split_ifs with hcut
  all_goals
    simp only [getLeft, getRight, getTop, getBottom, setRight, and_true, true_and] at *
  all_goals omega

theorem splitBottom_copy : (Rect.splitBottom cutRect s).thisCopy.getLeft = s.thisCopy.getLeft ∧
    (Rect.splitBottom cutRect s).thisCopy.getRight = s.thisCopy.getRight ∧
    (Rect.splitBottom cutRect s).thisCopy.getTop = s.thisCopy.getTop ∧
    (Rect.splitBottom cutRect s).thisCopy.getBottom =
      (if s.thisCopy.getTop < cutRect.getBottom then min s.thisCopy.getBottom cutRect.getBottom
        else s.thisCopy.getBottom) := by
  unfold Rect.splitBottom
  split_ifs with hcut
  all_goals
    simp only [getLeft, getRight, getTop, getBottom, setBottom, true_and] at *
  all_goals omega

end Stages

/-- One side of the copy that is left, from `l` to `r` before the cuts at `a` and `a + n`. -/
theorem side_left {l a n : Int} (r p : Int) (h : l < a + n) :
    (max l a ≤ p ∧ p < if max l a < a + n then min r (a + n) else r) ↔
      (l ≤ p ∧ p < r) ∧ a ≤ p ∧ (0 < n → p < a + n) := by
  by_cases hlong : max l a < a + n
  · rw [if_pos hlong]
    omega
  · rw [if_neg hlong]
    omega

/-- What is left of the copy is dropped: it is the part of `this` that is cut off. -/
theorem splitState_copy {this cutRect : Rect} (h : this.overlaps cutRect = true) (px py : Int) :
    (splitState this cutRect).thisCopy.HasPixel px py ↔
      this.HasPixel px py ∧ cutRect.CutsOff px py := by
  rw [overlaps_iff] at h
  obtain ⟨hleft, hright, htop, hbottom⟩ := h
  obtain ⟨l₁, r₁, t₁, b₁⟩ := @splitLeft_copy cutRect ⟨[], this⟩ hright
  obtain ⟨l₂, r₂, t₂, b₂⟩ := @splitTop_copy cutRect (Rect.splitLeft cutRect ⟨[], this⟩)
    (b₁.symm ▸ hbottom)
  obtain ⟨l₃, r₃, t₃, b₃⟩ := @splitRight_copy cutRect
    (Rect.splitTop cutRect (Rect.splitLeft cutRect ⟨[], this⟩))
  obtain ⟨l₄, r₄, t₄, b₄⟩ := @splitBottom_copy cutRect
    (Rect.splitRight cutRect (Rect.splitTop cutRect (Rect.splitLeft cutRect ⟨[], this⟩)))
  rw [HasPixel, splitState, l₄, r₄, t₄, b₄, l₃, r₃, t₃, b₃, l₂, r₂, t₂, b₂, l₁, r₁, t₁, b₁]
  have hacross := side_left this.getRight px hleft
  have hdown := side_left this.getBottom py htop
  refine (and_assoc.symm.trans (and_congr hacross hdown)).trans ?_
  simp only [HasPixel, CutsOff]
  constructor
  · rintro ⟨⟨⟨hl, hr⟩, hcut⟩, ⟨ht, hb⟩, hcut'⟩
    exact ⟨⟨hl, hr, ht, hb⟩, hcut.1, hcut.2, hcut'⟩
  · rintro ⟨⟨hl, hr, ht, hb⟩, hx, hx', hcut'⟩
    exact ⟨⟨⟨hl, hr⟩, hx, hx'⟩, ⟨ht, hb⟩, hcut'⟩

theorem splitState_parts (this cutRect : Rect) : SplitParts this (splitState this cutRect) := by
  have hstart : SplitParts this ⟨[], this⟩ := ⟨List.Pairwise.nil, by simp, by simp⟩
  exact hstart.splitLeft.splitTop.splitRight.splitBottom

/-- The pieces have the pixels of `this` that are not cut off. -/
theorem mem_splitRects_iff {this cutRect : Rect} (h : this.overlaps cutRect = true) (px py : Int) :
    (∃ r ∈ this.getSplitRects cutRect, r.HasPixel px py) ↔
      this.HasPixel px py ∧ ¬ cutRect.CutsOff px py := by
  have hparts := splitState_parts this cutRect
  rw [hparts.cover px py, splitState_copy h px py]
  constructor
  · rintro ⟨r, hr, hin⟩
    refine ⟨Or.inl ⟨r, hr, hin⟩, fun hcut => ?_⟩
    have hthis := (hparts.cover px py).mpr (Or.inl ⟨r, hr, hin⟩)
    exact hparts.copy_apart r hr px py hin ((splitState_copy h px py).mpr ⟨hthis, hcut⟩)
  · rintro ⟨hpiece | ⟨-, hcut⟩, hnot⟩
    · exact hpiece
    · exact absurd hcut hnot

/-- The piece of `this` that has the pixel when `cutRect` is cut out. -/
def pieceAt (this cutRect : Rect) (px py : Int) : Rect :=
  ((this.getSplitRects cutRect).find? fun r => r.HasPixel px py).getD this

theorem pieceAt_eq {this cutRect r : Rect} {px py : Int} (hr : r ∈ this.getSplitRects cutRect)
    (hin : r.HasPixel px py) : this.pieceAt cutRect px py = r := by
  obtain ⟨first, hfirst⟩ := Option.isSome_iff_exists.mp
    (List.find?_isSome.mpr ⟨r, hr, decide_eq_true hin⟩ : ((this.getSplitRects cutRect).find?
      fun r => r.HasPixel px py).isSome)
  have hpixel : first.HasPixel px py := by simpa using List.find?_some hfirst
  rw [pieceAt, hfirst, Option.getD_some]
  by_contra hne
  have hsymm : Std.Symm Apart := ⟨fun _ _ h => h.symm⟩
  exact (splitState_parts this cutRect).apart.forall (List.mem_of_find?_eq_some hfirst) hr hne
    px py hpixel hin

/-- The pixel of `r` is not cut off when the regions are cut out one after the other. -/
def Survives (px py : Int) : Rect → List Rect → Prop
  | _, [] => True
  | r, cut :: cuts =>
      if r.overlaps cut then ¬ cut.CutsOff px py ∧ Survives px py (r.pieceAt cut px py) cuts
      else Survives px py r cuts

def Holds (r : Rect) (cuts : List Rect) (px py : Int) : Prop :=
  r.HasPixel px py ∧ Survives px py r cuts

theorem holds_cons_of_clear {r cut : Rect} {cuts : List Rect} {px py : Int}
    (h : r.overlaps cut = false) : r.Holds (cut :: cuts) px py ↔ r.Holds cuts px py := by
  rw [Holds, Survives, if_neg (Bool.eq_false_iff.mp h), Holds]

/-- A pixel that survives a cut is in one of the pieces. -/
theorem holds_cons_of_overlaps {r cut : Rect} {cuts : List Rect} {px py : Int}
    (h : r.overlaps cut = true) :
    r.Holds (cut :: cuts) px py ↔ ∃ piece ∈ r.getSplitRects cut, piece.Holds cuts px py := by
  have hpieces := mem_splitRects_iff h px py
  rw [Holds, Survives, if_pos h]
  constructor
  · rintro ⟨hin, hnot, hrest⟩
    obtain ⟨piece, hpiece, hpixel⟩ := hpieces.mpr ⟨hin, hnot⟩
    rw [pieceAt_eq hpiece hpixel] at hrest
    exact ⟨piece, hpiece, hpixel, hrest⟩
  · rintro ⟨piece, hpiece, hpixel, hrest⟩
    obtain ⟨hin, hnot⟩ := hpieces.mp ⟨piece, hpiece, hpixel⟩
    rw [pieceAt_eq hpiece hpixel]
    exact ⟨hin, hnot, hrest⟩

/-- Regions with pixels cut off none but their own. -/
theorem holds_of_positive {r : Rect} {cuts : List Rect} {px py : Int} (hin : r.HasPixel px py)
    (hpos : ∀ cut ∈ cuts, cut.Positive) (hout : ∀ cut ∈ cuts, ¬ cut.HasPixel px py) :
    r.Holds cuts px py := by
  induction cuts generalizing r with
  | nil => exact ⟨hin, trivial⟩
  | cons cut cuts ih =>
      obtain ⟨hcut, hcuts⟩ := List.forall_mem_cons.mp hpos
      obtain ⟨hclear, hrest⟩ := List.forall_mem_cons.mp hout
      cases hover : r.overlaps cut with
      | false => exact (holds_cons_of_clear hover).mpr (ih hin hcuts hrest)
      | true =>
          have hnot : ¬ cut.CutsOff px py := (cutsOff_iff hcut px py).not.mpr hclear
          obtain ⟨piece, hpiece, hpixel⟩ := (mem_splitRects_iff hover px py).mpr ⟨hin, hnot⟩
          exact (holds_cons_of_overlaps hover).mpr ⟨piece, hpiece, ih hpixel hcuts hrest⟩

end Rect

/-! ### Coverage through the clip operations -/

namespace ClipRegions

variable {ω β : Type*} {rect : Rect} {note : ClipRect ω → β → β} {c : ClipRegions ω} {b : β}
  {i : Nat} {px py : Int}

theorem scanned_clear (hscan : ScannedTo rect c i) (hi : c.clippedRects[i]? = none) :
    ∀ clip ∈ c.clippedRects, clip.rect.overlaps rect = false := by
  intro clip hmem
  obtain ⟨k, hk, hget⟩ := List.getElem_of_mem hmem
  have hlen : c.clippedRects.length ≤ i := List.getElem?_eq_none_iff.mp hi
  exact hscan k (by omega) clip (List.getElem?_eq_some_iff.mpr ⟨hk, hget⟩)

/-- A scan cuts its region out of every rectangle of the list. -/
theorem splitOverlapping_holds (hlost : (splitOverlapping rect note c b i).1.lost = false)
    (hscan : ScannedTo rect c i) (cuts : List Rect) :
    (∃ clip ∈ (splitOverlapping rect note c b i).1.clippedRects, clip.rect.Holds cuts px py) ↔
      ∃ clip ∈ c.clippedRects, clip.rect.Holds (rect :: cuts) px py := by
  induction c, b, i using splitOverlapping.induct rect note with
  | case1 c b i hi =>
      rw [splitOverlapping_end hi]
      refine exists_congr fun clip => and_congr_right fun hclip => ?_
      exact (Rect.holds_cons_of_clear (scanned_clear hscan hi clip hclip)).symm
  | case2 c b i hit hi hover ih =>
      rw [splitOverlapping_hit hi hover] at hlost ⊢
      rw [ih hlost fun k hk => absurd hk (Nat.not_lt_zero k),
        (splitAt_of_not_lost hi (splitOverlapping_lost hlost)).1]
      have hpieces : (∃ clip ∈ splitPieces rect hit, clip.rect.Holds (rect :: cuts) px py) ↔
          hit.rect.Holds (rect :: cuts) px py := by
        rw [Rect.holds_cons_of_overlaps hover]
        simp only [splitPieces, List.mem_map, exists_exists_and_eq_and]
        refine exists_congr fun piece => and_congr_right fun hpiece => ?_
        exact Rect.holds_cons_of_clear (Rect.getSplitRects_not_overlaps hit.rect rect piece hpiece)
      have hmem : ∀ clip, clip ∈ c.clippedRects ↔ clip = hit ∨ clip ∈ c.clippedRects.eraseIdx i :=
        fun clip => (perm_cons_eraseIdx hi).mem_iff.trans List.mem_cons
      simp only [hmem, List.mem_append, or_and_right, exists_or, exists_eq_left, hpieces, or_comm]
  | case3 c b i hit hi hover ih =>
      rw [splitOverlapping_miss hi hover] at hlost ⊢
      exact ih hlost (scannedTo_succ hscan hi hover)

theorem addClippedRegion_holds {win : ω} (hlost : (c.addClippedRegion rect win).lost = false)
    (cuts : List Rect) :
    (∃ clip ∈ (c.addClippedRegion rect win).clippedRects, clip.rect.Holds cuts px py) ↔
      (∃ clip ∈ c.clippedRects, clip.rect.Holds (rect :: cuts) px py) ∨ rect.Holds cuts px py := by
  obtain ⟨happ, hkept⟩ := addClippedRegion_lost hlost
  have hscan : ScannedTo rect c 0 := fun k hk => absurd hk (Nat.not_lt_zero k)
  rw [happ, ← splitOverlapping_holds hkept hscan cuts]
  simp only [List.mem_append, List.mem_singleton, or_and_right, exists_or, exists_eq_left]
  rfl

end ClipRegions

/-- The pixel lies in one of the first rectangles or in a later one, and no rectangle after that
one cuts it off. -/
def Stays (first : List Rect) (rects : List Rect) (px py : Int) : Prop :=
  (∃ r ∈ first, r.Holds rects px py) ∨
    ∃ before r after, rects = before ++ r :: after ∧ r.Holds after px py

theorem stays_cons (first : List Rect) (rect : Rect) (rects : List Rect) (px py : Int) :
    Stays first (rect :: rects) px py ↔
      (∃ r ∈ first, r.Holds (rect :: rects) px py) ∨ rect.Holds rects px py ∨
        ∃ before r after, rects = before ++ r :: after ∧ r.Holds after px py := by
  refine or_congr_right ⟨?_, ?_⟩
  · rintro ⟨before, r, after, heq, hholds⟩
    cases before with
    | nil =>
        cases heq
        exact Or.inl hholds
    | cons q before =>
        cases heq
        exact Or.inr ⟨before, r, after, rfl, hholds⟩
  · rintro (hholds | ⟨before, r, after, rfl, hholds⟩)
    · exact ⟨[], rect, rects, rfl, hholds⟩
    · exact ⟨rect :: before, r, after, rfl, hholds⟩

/-- Without empty rectangles only the last one that has the pixel counts. -/
theorem stays_of_positive {first rects : List Rect} {px py : Int} (hpos : ∀ r ∈ rects, r.Positive)
    (hin : (∃ r ∈ first, r.HasPixel px py) ∨ ∃ r ∈ rects, r.HasPixel px py) :
    Stays first rects px py := by
  induction rects generalizing first with
  | nil =>
      obtain ⟨r, hr, hpixel⟩ := hin.resolve_right (by simp)
      exact Or.inl ⟨r, hr, hpixel, trivial⟩
  | cons rect rects ih =>
      obtain ⟨hrect, hrects⟩ := List.forall_mem_cons.mp hpos
      rw [stays_cons]
      by_cases hlater : ∃ r ∈ rects, r.HasPixel px py
      · exact Or.inr (Or.inr ((@ih [] hrects (Or.inr hlater)).resolve_left (by simp)))
      · have hout : ∀ r ∈ rects, ¬ r.HasPixel px py := fun r hr hpixel => hlater ⟨r, hr, hpixel⟩
        by_cases hthis : rect.HasPixel px py
        · exact Or.inr (Or.inl (Rect.holds_of_positive hthis hrects hout))
        · have hnone : ¬ ∃ r ∈ rect :: rects, r.HasPixel px py := by
            rw [List.exists_mem_cons_iff]
            exact not_or.mpr ⟨hthis, hlater⟩
          obtain ⟨r, hr, hpixel⟩ := hin.resolve_right hnone
          refine Or.inl ⟨r, hr, Rect.holds_of_positive hpixel hpos ?_⟩
          exact List.forall_mem_cons.mpr ⟨hthis, hout⟩

section Regions

variable {regions : List (ClipRect Window)} {c : ClipRegions Window} {px py : Int}

/-- What is covered when the regions are added. -/
theorem covered_addRegions (hlost : (addRegions c regions).lost = false) :
    Covered (addRegions c regions).clippedRects px py ↔
      Stays (c.clippedRects.map ClipRect.rect) (regions.map ClipRect.rect) px py := by
  induction regions generalizing c with
  | nil =>
      simp [addRegions, Covered, Stays, Rect.Holds, Rect.Survives]
  | cons r rest ih =>
      have hadd : (c.addClippedRegion r.rect r.win).lost = false := addRegions_lost hlost
      have hstep := @addClippedRegion_holds _ r.rect c px py r.win hadd (rest.map ClipRect.rect)
      have hrest := ih hlost
      rw [Stays] at hrest
      rw [List.map_cons, stays_cons, ← or_assoc]
      simp only [List.mem_map, exists_exists_and_eq_and] at hrest ⊢
      rw [← hstep]
      exact hrest

end Regions

/-! ### The dirty windows of a tree -/

namespace Window

mutual

/-- The dirty windows without a dirty ancestor, in the order the pass meets them. -/
def topDirty : Window → List Window
  | mk flags surface prev windows =>
      if (mk flags surface prev windows).isDirty then [mk flags surface prev windows]
      else topDirtyChildren windows

def topDirtyChildren : List Window → List Window
  | [] => []
  | w :: ws => topDirty w ++ topDirtyChildren ws

end

/-- The pixels a window occupies or occupied at its last refresh. -/
def Touches (w : Window) (px py : Int) : Prop :=
  w.getWinRect.HasPixel px py ∨ w.getPrevRect.HasPixel px py

/-- The rectangles of the topmost dirty windows: current, then previous. -/
def topRects (root : Window) : List Rect :=
  root.topDirty.flatMap fun w => [w.getWinRect, w.getPrevRect]

end Window

open Window

mutual

theorem dirtyRegions_covered (w : Window) : dirtyRegions w true = [] := by
  cases w with
  | mk flags surface prev windows =>
      simp [dirtyRegions, dirtyChildRegions_covered windows]

theorem dirtyChildRegions_covered (ws : List Window) : dirtyChildRegions ws true = [] := by
  cases ws with
  | nil => rfl
  | cons w ws =>
      rw [dirtyChildRegions, dirtyRegions_covered w, dirtyChildRegions_covered ws]
      rfl

end

mutual

theorem rects_dirtyRegions (w : Window) :
    (dirtyRegions w false).map ClipRect.rect =
      w.topDirty.flatMap fun w => [w.getWinRect, w.getPrevRect] := by
  cases w with
  | mk flags surface prev windows =>
      rw [dirtyRegions, topDirty]
      by_cases hdirty : (Window.mk flags surface prev windows).isDirty = true
      · rw [if_pos hdirty, if_pos hdirty, dirtyChildRegions_covered]
        rfl
      · rw [if_neg hdirty, if_neg hdirty]
        exact rects_dirtyChildRegions windows

theorem rects_dirtyChildRegions (ws : List Window) :
    (dirtyChildRegions ws false).map ClipRect.rect =
      (topDirtyChildren ws).flatMap fun w => [w.getWinRect, w.getPrevRect] := by
  cases ws with
  | nil => rfl
  | cons w ws =>
      rw [dirtyChildRegions, topDirtyChildren, List.map_append, List.flatMap_append,
        rects_dirtyRegions w, rects_dirtyChildRegions ws]

end

theorem isDirty_refreshed (w : Window) : (refreshed w).isDirty = false := by
  cases w with
  | mk flags surface prev windows =>
      rw [refreshed]
      split_ifs with hdirty
      · change ((flags &&& (0xffffffff ^^^ windowFlagsDirty)) &&& windowFlagsDirty != 0) = false
        rw [UInt32.and_assoc, show (0xffffffff ^^^ windowFlagsDirty) &&& windowFlagsDirty = 0 from rfl,
          UInt32.and_zero]
        rfl
      · exact Bool.eq_false_iff.mpr hdirty

theorem prevRect_refreshed {w : Window} (hdirty : w.isDirty = true) :
    (refreshed w).getPrevRect = w.getWinRect := by
  cases w with
  | mk flags surface prev windows =>
      rw [refreshed, if_pos hdirty]
      rfl

/-- What the dirty pass is for: the changed pixels are in the list, and the tree is clean. -/
structure DirtyPass (root : Window) (after : ClipRegions Window) (tree : Window) : Prop where
  covers : ∀ w ∈ root.paintOrder, w.isDirty = true → ∀ px py, w.Touches px py →
    Covered after.clippedRects px py
  clean : ∀ w ∈ tree.paintOrder, w.isDirty = false
  previous : List.Forall₂ (fun w w' : Window => w'.getWinRect = w.getWinRect ∧
    (w.isDirty = true → w'.getPrevRect = w'.getWinRect)) root.paintOrder tree.paintOrder

/-- Every pixel a dirty window has changed is in the list already or in a rectangle of a topmost
dirty window, and no rectangle added later cuts it off. -/
def ChangesStay (root : Window) (clips : ClipRegions Window) : Prop :=
  ∀ w ∈ root.paintOrder, w.isDirty = true → ∀ px py, w.Touches px py →
    Stays (clips.clippedRects.map ClipRect.rect) root.topRects px py

theorem refreshed_clean (root : Window) : ∀ w ∈ (refreshed root).paintOrder, w.isDirty = false := by
  rw [paintOrder_refreshed]
  intro w hw
  obtain ⟨v, -, rfl⟩ := List.mem_map.mp hw
  exact isDirty_refreshed v

theorem refreshed_previous (root : Window) :
    List.Forall₂ (fun w w' : Window => w'.getWinRect = w.getWinRect ∧
      (w.isDirty = true → w'.getPrevRect = w'.getWinRect))
      root.paintOrder (refreshed root).paintOrder := by
  rw [paintOrder_refreshed, List.forall₂_map_right_iff, List.forall₂_same]
  intro w _
  have hrect : (refreshed w).getWinRect = w.getWinRect := by
    rw [getWinRect, surface_refreshed, getWinRect]
  exact ⟨hrect, fun hdirty => (prevRect_refreshed hdirty).trans hrect.symm⟩

/-- If the list does not overflow, the pass covers every change exactly if the dirty windows lie
inside the topmost ones and none of these cuts a changed pixel off. -/
theorem dirty_pass_covers_iff (root : Window) (clips : ClipRegions Window)
    (hlost : (createDirtyWindowRegions root none clips).1.lost = false) :
    DirtyPass root (createDirtyWindowRegions root none clips).1
        (createDirtyWindowRegions root none clips).2 ↔ ChangesStay root clips := by
  rw [createDirtyWindowRegions_eq, Option.isSome_none] at hlost ⊢
  have hcovered : ∀ px py,
      Covered (addRegions clips (dirtyRegions root false)).clippedRects px py ↔
        Stays (clips.clippedRects.map ClipRect.rect) root.topRects px py := by
    intro px py
    rw [covered_addRegions hlost, Window.topRects, ← rects_dirtyRegions]
  constructor
  · intro hpass w hw hdirty px py htouch
    exact (hcovered px py).mp (hpass.covers w hw hdirty px py htouch)
  · intro hstay
    refine ⟨fun w hw hdirty px py htouch => ?_, refreshed_clean root, refreshed_previous root⟩
    exact (hcovered px py).mpr (hstay w hw hdirty px py htouch)

/-- A dirty panel of one pixel that has moved, with a dirty child at `x`. -/
def movedPanel (x : Int) : Window :=
  .mk windowFlagsDirty ⟨⟨0, 0, 1, 1⟩, #[0], rfl⟩ ⟨2, 0, 1, 1⟩
    [.mk windowFlagsDirty ⟨⟨x, 0, 1, 1⟩, #[0], rfl⟩ ⟨x, 0, 1, 1⟩ []]

/-- The pass adds the two places of the panel. -/
theorem movedPanel_pass (x : Int) :
    (createDirtyWindowRegions (movedPanel x) none {clippedRects := []}).1 =
      {clippedRects := [⟨⟨0, 0, 1, 1⟩, (movedPanel x).resetFlags windowFlagsDirty⟩,
        ⟨⟨2, 0, 1, 1⟩, (movedPanel x).resetFlags windowFlagsDirty⟩]} := by
  have hclear : ∀ clip ∈ [(⟨⟨0, 0, 1, 1⟩, (movedPanel x).resetFlags windowFlagsDirty⟩ :
      ClipRect Window)], clip.rect.overlaps ⟨2, 0, 1, 1⟩ = false := by
    intro clip hclip
    rw [List.mem_singleton.mp hclip]
    rfl
  have hregions : dirtyRegions (movedPanel x) false =
      [⟨⟨0, 0, 1, 1⟩, (movedPanel x).resetFlags windowFlagsDirty⟩,
        ⟨⟨2, 0, 1, 1⟩, (movedPanel x).resetFlags windowFlagsDirty⟩] := by
    have hdirty : (movedPanel x).isDirty = true := by
      change (windowFlagsDirty &&& windowFlagsDirty != 0) = true
      decide
    rw [movedPanel, dirtyRegions, dirtyChildRegions_covered]
    exact if_pos hdirty
  rw [createDirtyWindowRegions_eq, Option.isSome_none, hregions, addRegions, List.foldl_cons,
    List.foldl_cons, List.foldl_nil, addClippedRegion_empty, addClippedRegion, removeClippedRegion,
    splitOverlapping_of_clear hclear]
  rfl

theorem dirty_pass_covers_moved_panel :
    DirtyPass (movedPanel 0) (createDirtyWindowRegions (movedPanel 0) none {clippedRects := []}).1
      (createDirtyWindowRegions (movedPanel 0) none {clippedRects := []}).2 := by
  apply (dirty_pass_covers_iff (movedPanel 0) {clippedRects := []} (by rw [movedPanel_pass])).mpr
  have htop : (movedPanel 0).topRects = [⟨0, 0, 1, 1⟩, ⟨2, 0, 1, 1⟩] := rfl
  intro w hw _ px py htouch
  rw [htop]
  apply stays_of_positive (by decide) (Or.inr _)
  -- The child lies inside the place the panel has now.
  rcases List.mem_cons.mp hw with rfl | hw
  · exact ⟨⟨0, 0, 1, 1⟩, by simp, htouch.elim id id⟩
  · rw [List.mem_singleton.mp hw] at htouch
    rcases htouch with hin | hin
    · exact ⟨⟨0, 0, 1, 1⟩, by simp, hin⟩
    · exact ⟨⟨2, 0, 1, 1⟩, by simp, hin⟩

/-- A dirty child beside its dirty parent is not covered. -/
theorem dirty_child_beside_parent :
    (createDirtyWindowRegions (movedPanel 5) none {clippedRects := []}).1.lost = false ∧
      ¬ DirtyPass (movedPanel 5)
        (createDirtyWindowRegions (movedPanel 5) none {clippedRects := []}).1
        (createDirtyWindowRegions (movedPanel 5) none {clippedRects := []}).2 := by
  refine ⟨by rw [movedPanel_pass], fun hpass => ?_⟩
  have hcov := hpass.covers _ (List.mem_cons_self) rfl 5 0 (Or.inl (by decide))
  rw [movedPanel_pass] at hcov
  obtain ⟨clip, hclip, hin⟩ := hcov
  simp only [List.mem_cons, List.not_mem_nil, or_false] at hclip
  rcases hclip with rfl | rfl
  · exact absurd hin (by decide)
  · exact absurd hin (by decide)

end Tellurium.Gui
