import Tellurium.Lib.Loop
import Tellurium.Gui.Rect
import Mathlib.Data.Int.Basic
import Mathlib.Tactic.Linarith

/-!
Surfaces and blitting (`libGUI/Surface.cpp`). A surface is a rectangle with one
32-bit ARGB word per pixel, stored row by row. `blit` and `alphaBlit` run the same
double loop over the rectangle clamped to the source, the area and the destination;
they differ only in how the old and the source pixel are combined.
-/

namespace Tellurium.Gui

open Tellurium.Lib

/-- Blend `colorA` in front of `colorB`. The `uint8_t` assignments of the source
truncate, written here as `% 256`. -/
def alphaBlendPixel (colorA colorB : UInt32) : UInt32 :=
  let alphaA := (colorA >>> 24).toNat % 256
  let alphaB := (colorB >>> 24).toNat % 256
  if alphaA = 0xff then colorA
  else if alphaA = 0x00 then colorB
  else
    let alphaB_ := ((alphaB * (256 - alphaA)) >>> 8) % 256
    let alphaOut := (alphaA + alphaB_) % 256
    let channel (shift : UInt32) : Nat :=
      ((((colorA >>> shift) &&& 0xff).toNat * alphaA +
        ((colorB >>> shift) &&& 0xff).toNat * alphaB_) / alphaOut) % 256
    let redOut := channel 16
    let greenOut := channel 8
    let blueOut := channel 0
    UInt32.ofNat ((alphaOut <<< 24) ||| (redOut <<< 16) ||| (greenOut <<< 8) ||| blueOut)

/-- A surface owns exactly one word for each pixel of its rectangle. -/
structure Surface where
  rect : Rect
  buff : Array UInt32
  size_buff : buff.size = (rect.getWidth * rect.getHeight).toNat

namespace Surface

/-- The index of the destination pixel visited at row `i`, column `j`. -/
def destIndex (destWidth : Int) (p : Int × Int) : Nat :=
  (p.1 * destWidth + p.2).toNat

/-- The index of the source pixel read at row `i`, column `j`. -/
def sourceIndex (translateX translateY sourceWidth : Int) (p : Int × Int) : Nat :=
  ((p.1 - translateY) * sourceWidth + (p.2 - translateX)).toNat

/-- The rectangle both blits draw: the source clamped to `area` and to `this`. -/
def drawRect (this source : Surface) (area : Rect) : Rect :=
  this.rect.restrictRect (area.restrictRect source.rect)

/-- The nested loops of `blit` and `alphaBlit` on the destination buffer. -/
def blitBuff (combine : UInt32 → UInt32 → UInt32) (this source : Surface)
    (area : Rect) : Array UInt32 :=
  let translateX := source.rect.getX
  let translateY := source.rect.getY
  let drawRect := this.drawRect source area
  let x := drawRect.getX
  let y := drawRect.getY
  let xMax := drawRect.getRight
  let yMax := drawRect.getBottom
  let destWidth := this.rect.getWidth
  let sourceWidth := source.rect.getWidth
  (intRange y yMax).foldl (fun buff i =>
    (intRange x xMax).foldl (fun buff j =>
      rewriteCell (destIndex destWidth)
        (fun p old =>
          combine old source.buff[sourceIndex translateX translateY sourceWidth p]!)
        buff (i, j)) buff) this.buff

/-- The pixels the loops visit, row by row. -/
def visits (drawRect : Rect) : List (Int × Int) :=
  (intRange drawRect.getY drawRect.getBottom).flatMap fun i =>
    (intRange drawRect.getX drawRect.getRight).map fun j => (i, j)

theorem mem_visits (r : Rect) (p : Int × Int) :
    p ∈ visits r ↔ r.HasPixel p.2 p.1 := by
  simp only [visits, List.mem_flatMap, List.mem_map, mem_intRange, Rect.HasPixel,
    Rect.getLeft, Rect.getTop, Rect.getX, Rect.getY]
  constructor
  · rintro ⟨i, hi, j, hj, rfl⟩
    exact ⟨hj.1, hj.2, hi.1, hi.2⟩
  · rintro ⟨h1, h2, h3, h4⟩
    exact ⟨p.1, ⟨h3, h4⟩, p.2, ⟨h1, h2⟩, rfl⟩

theorem nodup_visits (r : Rect) : (visits r).Nodup := by
  rw [visits, List.nodup_flatMap]
  constructor
  · intro i _
    apply List.Nodup.map _ (nodup_intRange _ _)
    intro a b hab
    exact (Prod.mk.inj hab).2
  · apply (nodup_intRange _ _).imp
    intro i k hik p hi hk
    obtain ⟨j, _, rfl⟩ := List.mem_map.mp hi
    obtain ⟨l, _, hl⟩ := List.mem_map.mp hk
    exact hik (Prod.mk.inj hl).1.symm

theorem blitBuff_eq_foldl (combine : UInt32 → UInt32 → UInt32) (this source : Surface)
    (area : Rect) :
    this.blitBuff combine source area =
      (visits (this.drawRect source area)).foldl
        (rewriteCell (destIndex this.rect.getWidth)
          (fun p old => combine old
            source.buff[sourceIndex source.rect.getX source.rect.getY
              source.rect.getWidth p]!)) this.buff := by
  simp only [blitBuff, visits, List.foldl_flatMap, List.foldl_map]

theorem size_blitBuff (combine : UInt32 → UInt32 → UInt32) (this source : Surface)
    (area : Rect) : (this.blitBuff combine source area).size = this.buff.size := by
  rw [blitBuff_eq_foldl, size_foldl_rewriteCell]

def blitWith (combine : UInt32 → UInt32 → UInt32) (this source : Surface)
    (area : Rect) : Surface where
  rect := this.rect
  buff := this.blitBuff combine source area
  size_buff := by rw [size_blitBuff, this.size_buff]

def blit (this source : Surface) (area : Rect) : Surface :=
  this.blitWith (fun _ src => src) source area

def alphaBlit (this source : Surface) (area : Rect) : Surface :=
  this.blitWith alphaBlendPixel source area

/-- The pixel of a surface at absolute screen coordinates. -/
def pixelAt (s : Surface) (px py : Int) : UInt32 :=
  s.buff[sourceIndex s.rect.getX s.rect.getY s.rect.getWidth (py, px)]!

@[simp] theorem rect_blitWith (combine : UInt32 → UInt32 → UInt32) (this source : Surface)
    (area : Rect) : (this.blitWith combine source area).rect = this.rect := rfl

theorem rowIndex_inj {w i j k l : Int} (hj : 0 ≤ j) (hjw : j < w) (hl : 0 ≤ l)
    (hlw : l < w) (h : i * w + j = k * w + l) : i = k ∧ j = l := by
  have hw : w ≠ 0 := by omega
  have hi : (i * w + j) / w = i := by
    rw [Int.add_comm, Int.add_mul_ediv_right _ _ hw, Int.ediv_eq_zero_of_lt hj hjw,
      Int.zero_add]
  have hk : (k * w + l) / w = k := by
    rw [Int.add_comm, Int.add_mul_ediv_right _ _ hw, Int.ediv_eq_zero_of_lt hl hlw,
      Int.zero_add]
  have hik : i = k := by rw [← hi, ← hk, h]
  subst hik
  exact ⟨rfl, by omega⟩

/-- A surface at the origin: its pixel coordinates are its buffer's rows and columns. -/
def AtOrigin (s : Surface) : Prop := s.rect.getX = 0 ∧ s.rect.getY = 0

theorem pixelAt_of_atOrigin {s : Surface} (h : s.AtOrigin) (px py : Int) :
    s.pixelAt px py = s.buff[destIndex s.rect.getWidth (py, px)]! := by
  simp [pixelAt, sourceIndex, destIndex, h.1, h.2]

/-- Pixels of a surface at the origin have an index inside its buffer. -/
theorem destIndex_lt {s : Surface} (h : s.AtOrigin) {px py : Int}
    (hin : s.rect.HasPixel px py) :
    destIndex s.rect.getWidth (py, px) < s.buff.size := by
  obtain ⟨hx, hy⟩ := h
  simp only [Rect.HasPixel, Rect.getX, Rect.getY, Rect.getLeft, Rect.getRight, Rect.getTop,
    Rect.getBottom] at hin hx hy
  have hrow : py + 1 ≤ s.rect.height := by omega
  have hmul : (py + 1) * s.rect.width ≤ s.rect.height * s.rect.width :=
    Int.mul_le_mul_of_nonneg_right hrow (by omega)
  have hpos : 0 ≤ py * s.rect.width := Int.mul_nonneg (by omega) (by omega)
  rw [s.size_buff]
  simp only [destIndex, Rect.getWidth, Rect.getHeight]
  rw [Int.add_mul, Int.one_mul] at hmul
  rw [Int.mul_comm s.rect.width]
  omega

/-- Both blits, pixel by pixel: the pixels in source, area and destination are
combined with the source pixel under them, every other pixel keeps its value. -/
theorem blitWith_pixelAt (combine : UInt32 → UInt32 → UInt32) (this source : Surface)
    (area : Rect) (horigin : this.AtOrigin) {px py : Int} (hin : this.rect.HasPixel px py) :
    (this.blitWith combine source area).pixelAt px py =
      if source.rect.HasPixel px py ∧ area.HasPixel px py then
        combine (this.pixelAt px py) (source.pixelAt px py)
      else this.pixelAt px py := by
  have hafter : (this.blitWith combine source area).AtOrigin := horigin
  have hvisit : ∀ p, p ∈ visits (this.drawRect source area) ↔
      this.rect.HasPixel p.2 p.1 ∧ area.HasPixel p.2 p.1 ∧ source.rect.HasPixel p.2 p.1 := by
    intro p
    rw [mem_visits, drawRect, Rect.restrictRect_hasPixel, Rect.restrictRect_hasPixel]
  -- two visited pixels with one buffer index are one pixel
  have hsame : ∀ p : Int × Int, this.rect.HasPixel p.2 p.1 →
      destIndex this.rect.getWidth p = destIndex this.rect.getWidth (py, px) →
      p = (py, px) := by
    intro p hp heq
    obtain ⟨hx, hy⟩ := horigin
    simp only [Rect.HasPixel, Rect.getX, Rect.getY, Rect.getLeft, Rect.getRight,
      Rect.getTop, Rect.getBottom] at hin hp hx hy
    simp only [destIndex, Rect.getWidth] at heq
    have h1 : 0 ≤ p.1 * this.rect.width := Int.mul_nonneg (by omega) (by omega)
    have h2 : 0 ≤ py * this.rect.width := Int.mul_nonneg (by omega) (by omega)
    have hidx : p.1 * this.rect.width + p.2 = py * this.rect.width + px := by omega
    obtain ⟨hi, hj⟩ := rowIndex_inj (by omega) (by omega) (by omega) (by omega) hidx
    exact Prod.ext hi hj
  rw [pixelAt_of_atOrigin hafter, pixelAt_of_atOrigin horigin, rect_blitWith]
  change (this.blitBuff combine source area)[_]! = _
  rw [blitBuff_eq_foldl]
  split_ifs with hpix
  · exact foldl_rewriteCell_of_unique_target (destIndex this.rect.getWidth) _ _ this.buff
      (py, px) (nodup_visits _) ((hvisit _).mpr ⟨hin, hpix.2, hpix.1⟩)
      (destIndex_lt horigin hin)
      fun p hp heq => hsame p ((hvisit p).mp hp).1 heq
  · apply foldl_rewriteCell_of_not_target
    intro p hp heq
    have hvis := (hvisit p).mp hp
    have hpp := hsame p hvis.1 heq
    subst hpp
    exact hpix ⟨hvis.2.2, hvis.2.1⟩

/-! ### Checked access

An index outside a buffer is undefined behaviour in the source, so the loops are run a
second time with every access checked. -/

/-- `buff[index]` for the signed index the loops compute. -/
def load (buff : Array UInt32) (index : Int) : Option UInt32 :=
  if 0 ≤ index then buff[index.toNat]? else none

def store (buff : Array UInt32) (index : Int) (pixel : UInt32) : Option (Array UInt32) :=
  if 0 ≤ index ∧ index < buff.size then some (buff.setIfInBounds index.toNat pixel) else none

/-- The nested loops of `blit` and `alphaBlit`; there is no result if an access leaves its
buffer. -/
def blitChecked (combine : UInt32 → UInt32 → UInt32) (this source : Surface)
    (area : Rect) : Option (Array UInt32) :=
  let translateX := source.rect.getX
  let translateY := source.rect.getY
  let drawRect := this.drawRect source area
  let x := drawRect.getX
  let y := drawRect.getY
  let xMax := drawRect.getRight
  let yMax := drawRect.getBottom
  let destWidth := this.rect.getWidth
  let sourceWidth := source.rect.getWidth
  (intRange y yMax).foldlM (fun buff i =>
    (intRange x xMax).foldlM (fun buff j => do
      let old ← load buff (i * destWidth + j)
      let src ← load source.buff ((i - translateY) * sourceWidth + (j - translateX))
      store buff (i * destWidth + j) (combine old src)) buff) this.buff

/-- The pixels a blit is to draw. -/
def Drawn (this source : Surface) (area : Rect) (px py : Int) : Prop :=
  source.rect.HasPixel px py ∧ area.HasPixel px py ∧ this.rect.HasPixel px py

/-- A blit that stays in both buffers and rewrites the drawn pixels and no others. -/
structure BlitExact (combine : UInt32 → UInt32 → UInt32) (this source : Surface) (area : Rect)
    (after : Surface) : Prop where
  inBounds : this.blitChecked combine source area = some after.buff
  rect : after.rect = this.rect
  drawn : ∀ px py, Drawn this source area px py →
    after.pixelAt px py = combine (this.pixelAt px py) (source.pixelAt px py)
  kept : ∀ k, (∀ px py, Drawn this source area px py →
    destIndex this.rect.getWidth (py, px) ≠ k) → after.buff[k]? = this.buff[k]?
  unchanged : (∀ px py, ¬ Drawn this source area px py) → after.buff = this.buff

section Exact

variable {this source : Surface} {area : Rect}

theorem drawRect_hasPixel (px py : Int) :
    (this.drawRect source area).HasPixel px py ↔ Drawn this source area px py := by
  rw [drawRect, Rect.restrictRect_hasPixel, Rect.restrictRect_hasPixel, Drawn]
  tauto

theorem load_eq {buff : Array UInt32} {index : Int} (hlow : 0 ≤ index)
    (hhigh : index < buff.size) : load buff index = some buff[index.toNat]! := by
  have hlt : index.toNat < buff.size := by omega
  rw [load, if_pos hlow, getElem!_pos buff index.toNat hlt, Array.getElem?_eq_getElem hlt]

/-- A pixel of a surface has an index inside its buffer, counted from its corner. -/
theorem index_bounds {s : Surface} {px py : Int} (h : s.rect.HasPixel px py) :
    0 ≤ (py - s.rect.getY) * s.rect.getWidth + (px - s.rect.getX) ∧
      (py - s.rect.getY) * s.rect.getWidth + (px - s.rect.getX) < s.buff.size := by
  simp only [Rect.HasPixel, Rect.getLeft, Rect.getRight, Rect.getTop, Rect.getBottom] at h
  have hrow : (py - s.rect.y + 1) * s.rect.width ≤ s.rect.height * s.rect.width :=
    Int.mul_le_mul_of_nonneg_right (by omega) (by omega)
  have hpos : 0 ≤ (py - s.rect.y) * s.rect.width := Int.mul_nonneg (by omega) (by omega)
  rw [Int.add_mul, Int.one_mul] at hrow
  rw [s.size_buff]
  simp only [Rect.getX, Rect.getY, Rect.getWidth, Rect.getHeight]
  rw [Int.mul_comm s.rect.width]
  omega

/-- One visit of the loops stays in both buffers. -/
theorem checkedCell_eq (combine : UInt32 → UInt32 → UInt32) (horigin : this.AtOrigin)
    {buff : Array UInt32} (hsize : buff.size = this.buff.size) {i j : Int}
    (hpix : (this.drawRect source area).HasPixel j i) :
    (do
      let old ← load buff (i * this.rect.getWidth + j)
      let src ← load source.buff
        ((i - source.rect.getY) * source.rect.getWidth + (j - source.rect.getX))
      store buff (i * this.rect.getWidth + j) (combine old src)) =
    some (rewriteCell (destIndex this.rect.getWidth)
      (fun p old => combine old source.buff[sourceIndex source.rect.getX source.rect.getY
        source.rect.getWidth p]!) buff (i, j)) := by
  obtain ⟨hsource, -, hdest⟩ := (drawRect_hasPixel j i).mp hpix
  have hd := index_bounds hdest
  have hs := index_bounds hsource
  rw [horigin.1, horigin.2, Int.sub_zero, Int.sub_zero, ← hsize] at hd
  rw [load_eq hd.1 hd.2, load_eq hs.1 hs.2]
  exact if_pos hd

/-- No access of the loops leaves its buffer: they run like the unchecked ones. -/
theorem blitChecked_eq (combine : UInt32 → UInt32 → UInt32) (horigin : this.AtOrigin) :
    this.blitChecked combine source area = some (this.blitBuff combine source area) := by
  unfold blitChecked blitBuff
  dsimp only
  -- both loops keep the size of the buffer
  apply (@foldlM_eq_foldl _ _ (fun b : Array UInt32 => b.size = this.buff.size) _ _ _ _ rfl ?_).1
  intro buff hsize i hi
  apply @foldlM_eq_foldl _ _ (fun b : Array UInt32 => b.size = this.buff.size) _ _ _ _ hsize
  intro b hb j hj
  rw [mem_intRange] at hi hj
  exact ⟨checkedCell_eq combine horigin hb ⟨hj.1, hj.2, hi⟩,
    (size_rewriteCell _ _ b (i, j)).trans hb⟩

theorem getElem?_blitWith (combine : UInt32 → UInt32 → UInt32) {k : Nat}
    (h : ∀ px py, Drawn this source area px py →
      destIndex this.rect.getWidth (py, px) ≠ k) :
    (this.blitWith combine source area).buff[k]? = this.buff[k]? := by
  have hsize : (this.blitWith combine source area).buff.size = this.buff.size :=
    size_blitBuff combine this source area
  have hkeep : (this.blitWith combine source area).buff[k]! = this.buff[k]! := by
    change (this.blitBuff combine source area)[k]! = _
    rw [blitBuff_eq_foldl]
    apply foldl_rewriteCell_of_not_target
    intro p hp
    exact h p.2 p.1 ((drawRect_hasPixel p.2 p.1).mp ((mem_visits _ _).mp hp))
  rcases Nat.lt_or_ge k this.buff.size with hk | hk
  · have hk' : k < (this.blitWith combine source area).buff.size := by omega
    rw [getElem!_pos _ k hk', getElem!_pos _ k hk] at hkeep
    rw [Array.getElem?_eq_getElem hk', Array.getElem?_eq_getElem hk, hkeep]
  · rw [Array.getElem?_eq_none_iff.mpr hk, Array.getElem?_eq_none_iff.mpr (by omega)]

theorem blitWith_exact (combine : UInt32 → UInt32 → UInt32) (horigin : this.AtOrigin) :
    BlitExact combine this source area (this.blitWith combine source area) where
  inBounds := blitChecked_eq combine horigin
  rect := rfl
  drawn := by
    rintro px py ⟨hsource, harea, hdest⟩
    rw [blitWith_pixelAt combine this source area horigin hdest, if_pos ⟨hsource, harea⟩]
  kept := fun _ h => getElem?_blitWith combine h
  unchanged := fun hempty => Array.ext_getElem? fun _ =>
    getElem?_blitWith combine fun px py hdrawn => absurd hdrawn (hempty px py)

end Exact

/-- Both blits onto a surface at the origin, for every position of the three rectangles. -/
theorem blits_exact (this source : Surface) (area : Rect) (horigin : this.AtOrigin) :
    BlitExact (fun _ src => src) this source area (this.blit source area) ∧
      BlitExact alphaBlendPixel this source area (this.alphaBlit source area) :=
  ⟨blitWith_exact _ horigin, blitWith_exact _ horigin⟩

/-- A screen of two by two pixels. -/
def smallScreen : Surface := ⟨⟨0, 0, 2, 2⟩, #[1, 2, 3, 4], rfl⟩

/-- A strip that sticks out on the left of the screen. -/
def smallStrip : Surface := ⟨⟨-1, 1, 3, 1⟩, #[5, 6, 7], rfl⟩

theorem blits_exact_strip :
    BlitExact (fun _ src => src) smallScreen smallStrip ⟨-4, 0, 5, 9⟩
        (smallScreen.blit smallStrip ⟨-4, 0, 5, 9⟩) ∧
      BlitExact alphaBlendPixel smallScreen smallStrip ⟨-4, 0, 5, 9⟩
        (smallScreen.alphaBlit smallStrip ⟨-4, 0, 5, 9⟩) :=
  blits_exact smallScreen smallStrip ⟨-4, 0, 5, 9⟩ ⟨rfl, rfl⟩

example : (smallScreen.blit smallStrip ⟨-4, 0, 5, 9⟩).buff = #[1, 2, 6, 4] := by decide

end Surface

end Tellurium.Gui
