import Mathlib.Data.List.Basic

/-!
Rectangles of the GUI library (`libGUI/Rect.cpp`). Coordinates are C++ `int`s;
signed overflow is undefined there, so the model computes in `Int` and describes
every run whose coordinates stay in range. A rectangle covers the half-open set
of pixels `left ≤ x < right`, `top ≤ y < bottom`, which is the convention of
`overlaps` and of the blit loops.
-/

namespace Tellurium.Gui

structure Rect where
  x : Int
  y : Int
  width : Int
  height : Int
deriving DecidableEq, Repr

namespace Rect

def getX (r : Rect) : Int := r.x
def getY (r : Rect) : Int := r.y
def getWidth (r : Rect) : Int := r.width
def getHeight (r : Rect) : Int := r.height
def getLeft (r : Rect) : Int := r.x
def getRight (r : Rect) : Int := r.x + r.width
def getTop (r : Rect) : Int := r.y
def getBottom (r : Rect) : Int := r.y + r.height

def setLeft (r : Rect) (left : Int) : Rect :=
  {r with width := r.width + (r.x - left), x := left}

def setRight (r : Rect) (right : Int) : Rect :=
  {r with width := right - r.x}

def setTop (r : Rect) (top : Int) : Rect :=
  {r with height := r.height + (r.y - top), y := top}

def setBottom (r : Rect) (bottom : Int) : Rect :=
  {r with height := bottom - r.y}

/-- The four guarded side adjustments shared by `getOverlapRect` and `restrictRect`:
each moves one side of `other` to that of `this` if it sticks out. -/
def clampLeft (this other : Rect) : Rect :=
  if other.getLeft < this.getLeft then other.setLeft this.getLeft else other

def clampRight (this other : Rect) : Rect :=
  if other.getRight > this.getRight then other.setRight this.getRight else other

def clampTop (this other : Rect) : Rect :=
  if other.getTop < this.getTop then other.setTop this.getTop else other

def clampBottom (this other : Rect) : Rect :=
  if other.getBottom > this.getBottom then other.setBottom this.getBottom else other

def getOverlapRect (this rect : Rect) : Rect :=
  this.clampBottom (this.clampTop (this.clampRight (this.clampLeft rect)))

def restrictRect (this other : Rect) : Rect :=
  this.clampRight (this.clampLeft (this.clampBottom (this.clampTop other)))

def overlaps (this rect : Rect) : Bool :=
  decide (this.getLeft < rect.getRight) && decide (this.getRight > rect.getLeft) &&
    decide (this.getTop < rect.getBottom) && decide (this.getBottom > rect.getTop)

/-- The output array of `getSplitRects` together with its shrinking local copy. -/
structure SplitState where
  splitRects : List Rect
  thisCopy : Rect

def splitLeft (cutRect : Rect) (s : SplitState) : SplitState :=
  if cutRect.getLeft > s.thisCopy.getLeft ∧ cutRect.getLeft < s.thisCopy.getRight then
    let newWidth := cutRect.getLeft - s.thisCopy.getLeft
    ⟨s.splitRects ++ [⟨s.thisCopy.getX, s.thisCopy.getY, newWidth, s.thisCopy.getHeight⟩],
      s.thisCopy.setLeft cutRect.getLeft⟩
  else s

def splitTop (cutRect : Rect) (s : SplitState) : SplitState :=
  if cutRect.getTop > s.thisCopy.getTop ∧ cutRect.getTop < s.thisCopy.getBottom then
    let newHeight := cutRect.getTop - s.thisCopy.getTop
    ⟨s.splitRects ++ [⟨s.thisCopy.getX, s.thisCopy.getY, s.thisCopy.getWidth, newHeight⟩],
      s.thisCopy.setTop cutRect.getTop⟩
  else s

def splitRight (cutRect : Rect) (s : SplitState) : SplitState :=
  if cutRect.getRight > s.thisCopy.getLeft ∧ cutRect.getRight < s.thisCopy.getRight then
    let newX := cutRect.getRight
    let newWidth := s.thisCopy.getRight - newX
    ⟨s.splitRects ++ [⟨newX, s.thisCopy.getY, newWidth, s.thisCopy.getHeight⟩],
      s.thisCopy.setRight cutRect.getRight⟩
  else s

def splitBottom (cutRect : Rect) (s : SplitState) : SplitState :=
  if cutRect.getBottom > s.thisCopy.getTop ∧ cutRect.getBottom < s.thisCopy.getBottom then
    let newY := cutRect.getBottom
    let newHeight := s.thisCopy.getBottom - newY
    ⟨s.splitRects ++ [⟨s.thisCopy.getX, newY, s.thisCopy.getWidth, newHeight⟩],
      s.thisCopy.setBottom cutRect.getBottom⟩
  else s

def splitState (this cutRect : Rect) : SplitState :=
  splitBottom cutRect (splitRight cutRect (splitTop cutRect (splitLeft cutRect ⟨[], this⟩)))

/-- The pieces of `this` left after cutting `cutRect` out, in source order. -/
def getSplitRects (this cutRect : Rect) : List Rect :=
  (splitState this cutRect).splitRects

/-- The pixels a rectangle covers. -/
def HasPixel (r : Rect) (px py : Int) : Prop :=
  r.getLeft ≤ px ∧ px < r.getRight ∧ r.getTop ≤ py ∧ py < r.getBottom

instance (r : Rect) (px py : Int) : Decidable (r.HasPixel px py) :=
  inferInstanceAs (Decidable (_ ∧ _))

def Positive (r : Rect) : Prop := 0 < r.width ∧ 0 < r.height

instance (r : Rect) : Decidable r.Positive :=
  inferInstanceAs (Decidable (_ ∧ _))

/-- No pixel belongs to both rectangles. -/
def Apart (a b : Rect) : Prop := ∀ px py, a.HasPixel px py → ¬ b.HasPixel px py

theorem Apart.symm {a b : Rect} (h : a.Apart b) : b.Apart a :=
  fun px py hb ha => h px py ha hb

theorem overlaps_iff (a b : Rect) :
    a.overlaps b = true ↔
      a.getLeft < b.getRight ∧ b.getLeft < a.getRight ∧
        a.getTop < b.getBottom ∧ b.getTop < a.getBottom := by
  simp [overlaps, and_assoc]

/-- On non-empty rectangles the comparison in `overlaps` decides whether the two
share a pixel; the shared pixel is the larger of the two top-left corners. -/
theorem overlaps_iff_common_pixel {a b : Rect} (ha : a.Positive) (hb : b.Positive) :
    a.overlaps b = true ↔ ∃ px py, a.HasPixel px py ∧ b.HasPixel px py := by
  rw [overlaps_iff]
  simp only [Positive] at ha hb
  simp only [HasPixel, getLeft, getRight, getTop, getBottom]
  constructor
  · intro h
    exact ⟨max a.x b.x, max a.y b.y, by omega, by omega⟩
  · rintro ⟨px, py, h1, h2⟩
    omega

theorem apart_of_not_overlaps {a b : Rect} (h : a.overlaps b = false) : a.Apart b := by
  intro px py ha hb
  have hno : ¬ a.overlaps b = true := by simp [h]
  rw [overlaps_iff] at hno
  simp only [HasPixel] at ha hb
  omega

theorem clampLeft_sides (this r : Rect) :
    (this.clampLeft r).getLeft = max r.getLeft this.getLeft ∧
      (this.clampLeft r).getRight = r.getRight ∧
      (this.clampLeft r).getTop = r.getTop ∧ (this.clampLeft r).getBottom = r.getBottom := by
  unfold clampLeft
  split_ifs with h
  all_goals
    simp only [getLeft, getRight, getTop, getBottom, setLeft, and_true] at *
    omega

theorem clampRight_sides (this r : Rect) :
    (this.clampRight r).getLeft = r.getLeft ∧
      (this.clampRight r).getRight = min r.getRight this.getRight ∧
      (this.clampRight r).getTop = r.getTop ∧ (this.clampRight r).getBottom = r.getBottom := by
  unfold clampRight
  split_ifs with h
  all_goals
    simp only [getLeft, getRight, getTop, getBottom, setRight, and_true, true_and] at *
    omega

theorem clampTop_sides (this r : Rect) :
    (this.clampTop r).getLeft = r.getLeft ∧ (this.clampTop r).getRight = r.getRight ∧
      (this.clampTop r).getTop = max r.getTop this.getTop ∧
      (this.clampTop r).getBottom = r.getBottom := by
  unfold clampTop
  split_ifs with h
  all_goals
    simp only [getLeft, getRight, getTop, getBottom, setTop, and_true, true_and] at *
    omega

theorem clampBottom_sides (this r : Rect) :
    (this.clampBottom r).getLeft = r.getLeft ∧ (this.clampBottom r).getRight = r.getRight ∧
      (this.clampBottom r).getTop = r.getTop ∧
      (this.clampBottom r).getBottom = min r.getBottom this.getBottom := by
  unfold clampBottom
  split_ifs with h
  all_goals
    simp only [getLeft, getRight, getTop, getBottom, setBottom, true_and] at *
    omega

/-- Both clamping orders give the same four sides. -/
theorem restrictRect_sides (this r : Rect) :
    (this.restrictRect r).getLeft = max r.getLeft this.getLeft ∧
      (this.restrictRect r).getRight = min r.getRight this.getRight ∧
      (this.restrictRect r).getTop = max r.getTop this.getTop ∧
      (this.restrictRect r).getBottom = min r.getBottom this.getBottom := by
  simp only [restrictRect, clampRight_sides, clampLeft_sides, clampBottom_sides,
    clampTop_sides, and_self]

theorem getOverlapRect_sides (this r : Rect) :
    (this.getOverlapRect r).getLeft = max r.getLeft this.getLeft ∧
      (this.getOverlapRect r).getRight = min r.getRight this.getRight ∧
      (this.getOverlapRect r).getTop = max r.getTop this.getTop ∧
      (this.getOverlapRect r).getBottom = min r.getBottom this.getBottom := by
  simp only [getOverlapRect, clampRight_sides, clampLeft_sides, clampBottom_sides,
    clampTop_sides, and_self]

theorem getOverlapRect_hasPixel (this rect : Rect) (px py : Int) :
    (this.getOverlapRect rect).HasPixel px py ↔
      this.HasPixel px py ∧ rect.HasPixel px py := by
  simp only [HasPixel, getOverlapRect_sides]
  omega

theorem positive_iff (r : Rect) :
    r.Positive ↔ r.getLeft < r.getRight ∧ r.getTop < r.getBottom := by
  simp only [Positive, getLeft, getRight, getTop, getBottom]
  omega

theorem positive_of_hasPixel {r : Rect} {px py : Int} (h : r.HasPixel px py) : r.Positive := by
  rw [positive_iff]
  simp only [HasPixel] at h
  omega

theorem getOverlapRect_positive {this rect : Rect} (ht : this.Positive)
    (hr : rect.Positive) (h : rect.overlaps this = true) :
    (this.getOverlapRect rect).Positive := by
  rw [overlaps_iff] at h
  rw [positive_iff] at ht hr ⊢
  simp only [getOverlapRect_sides]
  omega

/-- Restricting clamps each side on its own, so the result may have a negative
size; membership in it is still membership in both rectangles. -/
theorem restrictRect_hasPixel (this other : Rect) (px py : Int) :
    (this.restrictRect other).HasPixel px py ↔
      this.HasPixel px py ∧ other.HasPixel px py := by
  simp only [HasPixel, restrictRect_sides]
  omega

/-- What the four cutting stages keep: the pieces produced so far and the
remaining copy partition `this`. -/
structure SplitInv (this cutRect : Rect) (s : SplitState) : Prop where
  copy_positive : s.thisCopy.Positive
  copy_overlaps : s.thisCopy.overlaps cutRect = true
  pieces_positive : ∀ r ∈ s.splitRects, r.Positive
  pieces_apart : s.splitRects.Pairwise Apart
  copy_apart : ∀ r ∈ s.splitRects, r.Apart s.thisCopy
  cover : ∀ px py, this.HasPixel px py ↔
    (∃ r ∈ s.splitRects, r.HasPixel px py) ∨ s.thisCopy.HasPixel px py

/-- One stage: carving a piece off the copy keeps the partition. -/
theorem SplitInv.carve {this cutRect piece rest : Rect} {s : SplitState}
    (h : SplitInv this cutRect s) (hpiece : piece.Positive) (hrest : rest.Positive)
    (hover : rest.overlaps cutRect = true)
    (hcover : ∀ px py, s.thisCopy.HasPixel px py ↔
      piece.HasPixel px py ∨ rest.HasPixel px py)
    (hapart : piece.Apart rest) :
    SplitInv this cutRect ⟨s.splitRects ++ [piece], rest⟩ := by
  refine ⟨hrest, hover, ?_, ?_, ?_, ?_⟩
  · intro r hr
    rcases List.mem_append.mp hr with hr | hr
    · exact h.pieces_positive r hr
    · rwa [List.mem_singleton.mp hr]
  · rw [List.pairwise_append]
    refine ⟨h.pieces_apart, List.pairwise_singleton _ _, ?_⟩
    intro r hr q hq px py hin hout
    rw [List.mem_singleton.mp hq] at hout
    exact h.copy_apart r hr px py hin ((hcover px py).mpr (Or.inl hout))
  · intro r hr px py hin hout
    rcases List.mem_append.mp hr with hr | hr
    · exact h.copy_apart r hr px py hin ((hcover px py).mpr (Or.inr hout))
    · rw [List.mem_singleton.mp hr] at hin
      exact hapart px py hin hout
  · intro px py
    rw [h.cover px py, hcover px py]
    simp only [List.mem_append, List.mem_singleton]
    constructor
    · rintro (⟨r, hr, hin⟩ | hin | hin)
      · exact Or.inl ⟨r, Or.inl hr, hin⟩
      · exact Or.inl ⟨piece, Or.inr rfl, hin⟩
      · exact Or.inr hin
    · rintro (⟨r, hr | rfl, hin⟩ | hin)
      · exact Or.inl ⟨r, hr, hin⟩
      · exact Or.inr (Or.inl hin)
      · exact Or.inr (Or.inr hin)

theorem SplitInv.start {this cutRect : Rect} (ht : this.Positive)
    (h : this.overlaps cutRect = true) : SplitInv this cutRect ⟨[], this⟩ :=
  ⟨ht, h, by simp, List.Pairwise.nil, by simp, by simp⟩

/-- The left stage shrinks the copy until it does not reach left of the cut. -/
theorem SplitInv.splitLeft {this cutRect : Rect} {s : SplitState}
    (h : SplitInv this cutRect s) (hc : cutRect.Positive) :
    SplitInv this cutRect (Rect.splitLeft cutRect s) ∧
      ∀ px py, (Rect.splitLeft cutRect s).thisCopy.HasPixel px py →
        s.thisCopy.HasPixel px py ∧ cutRect.getLeft ≤ px := by
  have hpos := h.copy_positive
  have hover := h.copy_overlaps
  rw [overlaps_iff] at hover
  simp only [Positive] at hpos hc
  unfold Rect.splitLeft
  split_ifs with hcut
  · refine ⟨h.carve ?_ ?_ ?_ ?_ ?_, ?_⟩
    all_goals
      try rw [overlaps_iff]
      simp only [Positive, Apart, HasPixel, getX, getY, getHeight, getLeft, getRight,
        getTop, getBottom, setLeft] at *
      omega
  · refine ⟨h, fun px py hin => ⟨hin, ?_⟩⟩
    simp only [HasPixel] at hin
    omega

theorem SplitInv.splitTop {this cutRect : Rect} {s : SplitState}
    (h : SplitInv this cutRect s) (hc : cutRect.Positive) :
    SplitInv this cutRect (Rect.splitTop cutRect s) ∧
      ∀ px py, (Rect.splitTop cutRect s).thisCopy.HasPixel px py →
        s.thisCopy.HasPixel px py ∧ cutRect.getTop ≤ py := by
  have hpos := h.copy_positive
  have hover := h.copy_overlaps
  rw [overlaps_iff] at hover
  simp only [Positive] at hpos hc
  unfold Rect.splitTop
  split_ifs with hcut
  · refine ⟨h.carve ?_ ?_ ?_ ?_ ?_, ?_⟩
    all_goals
      try rw [overlaps_iff]
      simp only [Positive, Apart, HasPixel, getX, getY, getWidth, getLeft, getRight,
        getTop, getBottom, setTop] at *
      omega
  · refine ⟨h, fun px py hin => ⟨hin, ?_⟩⟩
    simp only [HasPixel] at hin
    omega

theorem SplitInv.splitRight {this cutRect : Rect} {s : SplitState}
    (h : SplitInv this cutRect s) (hc : cutRect.Positive) :
    SplitInv this cutRect (Rect.splitRight cutRect s) ∧
      ∀ px py, (Rect.splitRight cutRect s).thisCopy.HasPixel px py →
        s.thisCopy.HasPixel px py ∧ px < cutRect.getRight := by
  have hpos := h.copy_positive
  have hover := h.copy_overlaps
  rw [overlaps_iff] at hover
  simp only [Positive] at hpos hc
  unfold Rect.splitRight
  split_ifs with hcut
  · refine ⟨h.carve ?_ ?_ ?_ ?_ ?_, ?_⟩
    all_goals
      try rw [overlaps_iff]
      simp only [Positive, Apart, HasPixel, getY, getHeight, getLeft, getRight,
        getTop, getBottom, setRight] at *
      omega
  · refine ⟨h, fun px py hin => ⟨hin, ?_⟩⟩
    simp only [HasPixel] at hin
    omega

theorem SplitInv.splitBottom {this cutRect : Rect} {s : SplitState}
    (h : SplitInv this cutRect s) (hc : cutRect.Positive) :
    SplitInv this cutRect (Rect.splitBottom cutRect s) ∧
      ∀ px py, (Rect.splitBottom cutRect s).thisCopy.HasPixel px py →
        s.thisCopy.HasPixel px py ∧ py < cutRect.getBottom := by
  have hpos := h.copy_positive
  have hover := h.copy_overlaps
  rw [overlaps_iff] at hover
  simp only [Positive] at hpos hc
  unfold Rect.splitBottom
  split_ifs with hcut
  · refine ⟨h.carve ?_ ?_ ?_ ?_ ?_, ?_⟩
    all_goals
      try rw [overlaps_iff]
      simp only [Positive, Apart, HasPixel, getX, getWidth, getLeft, getRight,
        getTop, getBottom, setBottom] at *
      omega
  · refine ⟨h, fun px py hin => ⟨hin, ?_⟩⟩
    simp only [HasPixel] at hin
    omega

/-- After the four stages what remains of the copy lies inside the cut. -/
theorem splitState_inv {this cutRect : Rect} (ht : this.Positive) (hc : cutRect.Positive)
    (h : this.overlaps cutRect = true) :
    SplitInv this cutRect (splitState this cutRect) ∧
      ∀ px py, (splitState this cutRect).thisCopy.HasPixel px py →
        cutRect.HasPixel px py := by
  obtain ⟨inv1, hleft⟩ := (SplitInv.start ht h).splitLeft hc
  obtain ⟨inv2, htop⟩ := inv1.splitTop hc
  obtain ⟨inv3, hright⟩ := inv2.splitRight hc
  obtain ⟨inv4, hbottom⟩ := inv3.splitBottom hc
  refine ⟨inv4, fun px py hin => ?_⟩
  obtain ⟨h3, hb⟩ := hbottom px py hin
  obtain ⟨h2, hr⟩ := hright px py h3
  obtain ⟨h1, ht'⟩ := htop px py h2
  obtain ⟨_, hl⟩ := hleft px py h1
  exact ⟨hl, hr, ht', hb⟩

theorem getSplitRects_positive {this cutRect : Rect} (ht : this.Positive)
    (hc : cutRect.Positive) (h : this.overlaps cutRect = true) :
    ∀ r ∈ this.getSplitRects cutRect, r.Positive :=
  (splitState_inv ht hc h).1.pieces_positive

theorem getSplitRects_pairwise_apart {this cutRect : Rect} (ht : this.Positive)
    (hc : cutRect.Positive) (h : this.overlaps cutRect = true) :
    (this.getSplitRects cutRect).Pairwise Apart :=
  (splitState_inv ht hc h).1.pieces_apart

/-- The pieces collected so far are clear of the cut. -/
def Clear (cutRect : Rect) (s : SplitState) : Prop :=
  ∀ r ∈ s.splitRects, r.overlaps cutRect = false

private theorem clear_snoc {cutRect piece copy : Rect} {s : SplitState}
    (h : Clear cutRect s)
    (hside : piece.getRight = cutRect.getLeft ∨ piece.getBottom = cutRect.getTop ∨
      piece.getLeft = cutRect.getRight ∨ piece.getTop = cutRect.getBottom) :
    Clear cutRect ⟨s.splitRects ++ [piece], copy⟩ := by
  intro r hr
  rcases List.mem_append.mp hr with hr | hr
  · exact h r hr
  · rw [List.mem_singleton.mp hr, ← Bool.not_eq_true, overlaps_iff]
    omega

theorem Clear.splitLeft {cutRect : Rect} {s : SplitState} (h : Clear cutRect s) :
    Clear cutRect (Rect.splitLeft cutRect s) := by
  unfold Rect.splitLeft
  split_ifs
  · apply clear_snoc h
    left
    simp only [getRight, getLeft, getX]
    omega
  · exact h

theorem Clear.splitTop {cutRect : Rect} {s : SplitState} (h : Clear cutRect s) :
    Clear cutRect (Rect.splitTop cutRect s) := by
  unfold Rect.splitTop
  split_ifs
  · apply clear_snoc h
    right; left
    simp only [getBottom, getTop, getY]
    omega
  · exact h

theorem Clear.splitRight {cutRect : Rect} {s : SplitState} (h : Clear cutRect s) :
    Clear cutRect (Rect.splitRight cutRect s) := by
  unfold Rect.splitRight
  split_ifs
  · exact clear_snoc h (Or.inr (Or.inr (Or.inl rfl)))
  · exact h

theorem Clear.splitBottom {cutRect : Rect} {s : SplitState} (h : Clear cutRect s) :
    Clear cutRect (Rect.splitBottom cutRect s) := by
  unfold Rect.splitBottom
  split_ifs
  · exact clear_snoc h (Or.inr (Or.inr (Or.inr rfl)))
  · exact h

/-- A piece never overlaps the cut, whatever the signs of the sizes: its far side
is the near side of the cut. This is what makes the scan of a clip list end. -/
theorem getSplitRects_not_overlaps (this cutRect : Rect) :
    ∀ r ∈ this.getSplitRects cutRect, r.overlaps cutRect = false := by
  have hstart : Clear cutRect ⟨[], this⟩ := by simp [Clear]
  exact hstart.splitLeft.splitTop.splitRight.splitBottom

/-- The pieces cover exactly the pixels of `this` that the cut does not. -/
theorem getSplitRects_hasPixel {this cutRect : Rect} (ht : this.Positive)
    (hc : cutRect.Positive) (h : this.overlaps cutRect = true) (px py : Int) :
    (∃ r ∈ this.getSplitRects cutRect, r.HasPixel px py) ↔
      this.HasPixel px py ∧ ¬ cutRect.HasPixel px py := by
  obtain ⟨inv, hrest⟩ := splitState_inv ht hc h
  constructor
  · rintro ⟨r, hr, hin⟩
    exact ⟨(inv.cover px py).mpr (Or.inl ⟨r, hr, hin⟩),
      apart_of_not_overlaps (getSplitRects_not_overlaps this cutRect r hr) px py hin⟩
  · rintro ⟨hin, hout⟩
    rcases (inv.cover px py).mp hin with hpiece | hcopy
    · exact hpiece
    · exact absurd (hrest px py hcopy) hout

/-- A stage adds a piece at most. -/
theorem length_stage {cut : Prop} [Decidable cut] (s : SplitState) (piece rest : Rect) :
    (if cut then (⟨s.splitRects ++ [piece], rest⟩ : SplitState) else s).splitRects.length ≤
      s.splitRects.length + 1 := by
  split
  · exact Nat.le_of_eq List.length_append
  · exact Nat.le_succ _

theorem getSplitRects_length (this cutRect : Rect) : (this.getSplitRects cutRect).length ≤ 4 := by
  have hleft : ∀ s, (splitLeft cutRect s).splitRects.length ≤ s.splitRects.length + 1 :=
    fun s => length_stage s _ _
  have htop : ∀ s, (splitTop cutRect s).splitRects.length ≤ s.splitRects.length + 1 :=
    fun s => length_stage s _ _
  have hright : ∀ s, (splitRight cutRect s).splitRects.length ≤ s.splitRects.length + 1 :=
    fun s => length_stage s _ _
  have hbottom : ∀ s, (splitBottom cutRect s).splitRects.length ≤ s.splitRects.length + 1 :=
    fun s => length_stage s _ _
  calc (this.getSplitRects cutRect).length
      ≤ (splitRight cutRect (splitTop cutRect (splitLeft cutRect ⟨[], this⟩))).splitRects.length + 1 :=
        hbottom _
    _ ≤ (splitTop cutRect (splitLeft cutRect ⟨[], this⟩)).splitRects.length + 2 :=
        Nat.succ_le_succ (hright _)
    _ ≤ (splitLeft cutRect ⟨[], this⟩).splitRects.length + 3 := Nat.add_le_add_right (htop _) 2
    _ ≤ 4 := Nat.add_le_add_right (hleft _) 3

/-- The pieces and the overlap are `this`, cut up without a remainder. -/
structure Difference (this cutRect overlap : Rect) (pieces : List Rect) : Prop where
  overlap_positive : overlap.Positive
  overlap_common : ∀ px py, overlap.HasPixel px py ↔ this.HasPixel px py ∧ cutRect.HasPixel px py
  atMostFour : pieces.length ≤ 4
  positive : ∀ r ∈ pieces, r.Positive
  apart : pieces.Pairwise Apart
  contained : ∀ r ∈ pieces, ∀ px py, r.HasPixel px py → this.HasPixel px py
  apart_cut : ∀ r ∈ pieces, r.Apart cutRect
  cover : ∀ px py, this.HasPixel px py ↔
    (∃ r ∈ pieces, r.HasPixel px py) ∨ overlap.HasPixel px py

theorem rect_difference {this cutRect : Rect} (ht : this.Positive) (hc : cutRect.Positive) :
    (this.overlaps cutRect = true ↔ ∃ px py, this.HasPixel px py ∧ cutRect.HasPixel px py) ∧
      (this.overlaps cutRect = true →
        Difference this cutRect (cutRect.getOverlapRect this) (this.getSplitRects cutRect)) := by
  refine ⟨overlaps_iff_common_pixel ht hc, fun hover => ?_⟩
  have hpieces := getSplitRects_hasPixel ht hc hover
  have hoverlap := getOverlapRect_hasPixel cutRect this
  constructor
  case overlap_positive => exact getOverlapRect_positive hc ht hover
  case overlap_common =>
    intro px py
    rw [hoverlap, and_comm]
  case atMostFour => exact getSplitRects_length this cutRect
  case positive => exact getSplitRects_positive ht hc hover
  case apart => exact getSplitRects_pairwise_apart ht hc hover
  case contained =>
    intro r hr px py hin
    exact ((hpieces px py).mp ⟨r, hr, hin⟩).1
  case apart_cut =>
    intro r hr
    exact apart_of_not_overlaps (getSplitRects_not_overlaps this cutRect r hr)
  case cover =>
    intro px py
    rw [hpieces, hoverlap]
    constructor
    · intro hin
      by_cases hcut : cutRect.HasPixel px py
      · exact Or.inr ⟨hcut, hin⟩
      · exact Or.inl ⟨hin, hcut⟩
    · rintro (hin | hin)
      · exact hin.1
      · exact hin.2

/-- A corner cut off leaves two pieces. -/
theorem rect_difference_corner :
    Difference ⟨0, 0, 4, 4⟩ ⟨2, 2, 4, 4⟩ ⟨2, 2, 2, 2⟩ [⟨0, 0, 2, 4⟩, ⟨2, 0, 2, 2⟩] :=
  (rect_difference (by decide) (by decide)).2 (by decide)

end Rect

end Tellurium.Gui
