import Tellurium.Gui.Surface
import Tellurium.Gui.ClipRegions

/-!
The compositor's traversal of the window tree (`libGUI/Compositor.cpp`) and the
painter's algorithm it is meant to agree with. `drawWindow` walks the tree front to
back, paints each window through the clip list that is still open, and then closes
(opaque window) or retags (transparent window) the part of the list it covered.

The proof looks at one pixel at a time. A pixel is closed, open and not painted yet,
or open and painted by transparent windows only; painting a window moves this state
by `pixelStep`, and folding `pixelStep` over the front-to-back order is the painter.
-/

namespace Tellurium.Gui

open ClipRegions

def windowFlagsTransparent : UInt32 := 0x08
def windowFlagsInvisible : UInt32 := 0x10
def windowFlagsDirty : UInt32 := 0x20

/-- A window with its attached children, in stacking order (last child on top). -/
inductive Window where
  | mk (flags : UInt32) (surface : Surface) (winPrevRect : Rect) (windows : List Window)

namespace Window

def flags : Window → UInt32
  | mk flags _ _ _ => flags

def surface : Window → Surface
  | mk _ surface _ _ => surface

def windows : Window → List Window
  | mk _ _ _ windows => windows

def getFlag (w : Window) (field : UInt32) : Bool :=
  w.flags &&& field != 0

def isTransparent (w : Window) : Bool := w.getFlag windowFlagsTransparent
def isInvisible (w : Window) : Bool := w.getFlag windowFlagsInvisible

mutual

/-- Front-to-back order: children from last to first, each recursively, then the
window itself. -/
def paintOrder : Window → List Window
  | mk flags surface prev windows => paintChildren windows ++ [mk flags surface prev windows]

def paintChildren : List Window → List Window
  | [] => []
  | w :: ws => paintChildren ws ++ paintOrder w

end

end Window

/-- The back surface and the regions still to be drawn. -/
structure Frame where
  bSurface : Surface
  bRenderClips : ClipRegions Window

/-- The loop of `drawWindow` that draws `win` into every clipped region. -/
def drawSelf (win : Window) (clips : List (ClipRect Window)) (bSurface : Surface) : Surface :=
  clips.foldl (fun bSurface clippedRect =>
    if clippedRect.win.isTransparent then bSurface.alphaBlit win.surface clippedRect.rect
    else bSurface.blit win.surface clippedRect.rect) bSurface

/-- The part of `drawWindow` after the recursive calls. -/
def drawAfterChildren (win : Window) (f : Frame) : Frame :=
  if win.isInvisible then f
  else
    let bSurface := drawSelf win f.bRenderClips.clippedRects f.bSurface
    if win.isTransparent then
      ⟨bSurface, f.bRenderClips.divideClippedRegion win.surface.rect win⟩
    else ⟨bSurface, f.bRenderClips.removeClippedRegion win.surface.rect⟩

mutual

def drawWindow : Window → Frame → Frame
  | .mk flags surface prev windows, f =>
      drawAfterChildren (.mk flags surface prev windows) (drawChildren windows f)

/-- `for (int i = numWindows - 1; i >= 0; i--) drawWindow(windows[i])`. -/
def drawChildren : List Window → Frame → Frame
  | [], f => f
  | w :: ws, f => drawWindow w (drawChildren ws f)

end

mutual

theorem drawWindow_eq_foldl (w : Window) (f : Frame) :
    drawWindow w f = w.paintOrder.foldl (fun f v => drawAfterChildren v f) f := by
  cases w with
  | mk flags surface prev windows =>
      rw [drawWindow, Window.paintOrder, List.foldl_append, drawChildren_eq_foldl windows f]
      rfl

theorem drawChildren_eq_foldl (ws : List Window) (f : Frame) :
    drawChildren ws f = (Window.paintChildren ws).foldl (fun f v => drawAfterChildren v f) f := by
  cases ws with
  | nil => rfl
  | cons w ws =>
      rw [drawChildren, Window.paintChildren, List.foldl_append,
        drawChildren_eq_foldl ws f, drawWindow_eq_foldl w]

end

/-- The windows that contribute at a pixel: everything behind the first opaque one is
occluded. -/
def cutAtOpaque : List Window → List Window
  | [] => []
  | w :: ws => if w.isTransparent then w :: cutAtOpaque ws else [w]

def visibleAt (px py : Int) (w : Window) : Bool :=
  !w.isInvisible && decide (w.surface.rect.HasPixel px py)

/-- The windows painted at a pixel, front to back. -/
def paintedAt (root : Window) (px py : Int) : List Window :=
  cutAtOpaque (root.paintOrder.filter (visibleAt px py))

/-- The painter's colour of a pixel: blend the contributing windows front to back. -/
def painterPixel (root : Window) (px py : Int) (old : UInt32) : UInt32 :=
  match paintedAt root px py with
  | [] => old
  | w :: ws => ws.foldl (fun color v => alphaBlendPixel color (v.surface.pixelAt px py))
      (w.surface.pixelAt px py)

/-- How far a pixel has got. -/
inductive Coverage where
  | closed
  | unpainted
  | blended
deriving DecidableEq

def pixelStep (px py : Int) (w : Window) (st : UInt32 × Coverage) : UInt32 × Coverage :=
  if w.isInvisible = false ∧ w.surface.rect.HasPixel px py then
    let next := if w.isTransparent then Coverage.blended else Coverage.closed
    match st.2 with
    | .closed => st
    | .unpainted => (w.surface.pixelAt px py, next)
    | .blended => (alphaBlendPixel st.1 (w.surface.pixelAt px py), next)
  else st

/-- The pixel state a frame is in. -/
def Frame.At (f : Frame) (px py : Int) (st : UInt32 × Coverage) : Prop :=
  f.bSurface.pixelAt px py = st.1 ∧
    match st.2 with
    | .closed => ¬ Covered f.bRenderClips.clippedRects px py
    | .unpainted => ∃ w, Tagged f.bRenderClips.clippedRects px py w ∧ w.isTransparent = false
    | .blended => ∃ w, Tagged f.bRenderClips.clippedRects px py w ∧ w.isTransparent = true

section DrawSelf

variable {px py : Int} {win : Window}

theorem drawSelf_cons (clip : ClipRect Window) (clips : List (ClipRect Window))
    (b : Surface) :
    drawSelf win (clip :: clips) b = drawSelf win clips
      (b.blitWith (if clip.win.isTransparent then alphaBlendPixel else fun _ src => src)
        win.surface clip.rect) := by
  simp only [drawSelf, List.foldl_cons]
  split_ifs <;> rfl

theorem rect_drawSelf (clips : List (ClipRect Window)) (b : Surface) :
    (drawSelf win clips b).rect = b.rect := by
  induction clips generalizing b with
  | nil => rfl
  | cons clip rest ih => rw [drawSelf_cons, ih, Surface.rect_blitWith]

/-- A pixel outside every clipped region is not drawn to. -/
theorem drawSelf_of_not_covered {clips : List (ClipRect Window)} {b : Surface}
    (horigin : b.AtOrigin) (hin : b.rect.HasPixel px py) (h : ¬ Covered clips px py) :
    (drawSelf win clips b).pixelAt px py = b.pixelAt px py := by
  induction clips generalizing b with
  | nil => rfl
  | cons clip rest ih =>
      rw [drawSelf_cons]
      have hrest : ¬ Covered rest px py := by
        rintro ⟨q, hq, hqin⟩
        exact h ⟨q, List.mem_cons_of_mem clip hq, hqin⟩
      have hclip : ¬ clip.rect.HasPixel px py :=
        fun hc => h ⟨clip, List.mem_cons_self, hc⟩
      rw [ih (b := b.blitWith _ win.surface clip.rect) horigin hin hrest,
        Surface.blitWith_pixelAt _ _ _ _ horigin hin, if_neg fun hboth => hclip hboth.2]

/-- In a tiled list the one region that covers a pixel decides how it is drawn. -/
theorem drawSelf_of_tagged {clips : List (ClipRect Window)} {b : Surface} {tag : Window}
    (htiled : Tiled clips) (horigin : b.AtOrigin) (hin : b.rect.HasPixel px py)
    (htag : Tagged clips px py tag) :
    (drawSelf win clips b).pixelAt px py =
      if win.surface.rect.HasPixel px py then
        if tag.isTransparent then alphaBlendPixel (b.pixelAt px py) (win.surface.pixelAt px py)
        else win.surface.pixelAt px py
      else b.pixelAt px py := by
  induction clips generalizing b with
  | nil => simp [Tagged] at htag
  | cons clip rest ih =>
      rw [drawSelf_cons]
      obtain ⟨_, hapart, hrest⟩ := Tiled.cons_iff.mp htiled
      obtain ⟨q, hq, hqin, rfl⟩ := htag
      rcases List.mem_cons.mp hq with rfl | hq
      · have hnot : ¬ Covered rest px py := by
          rintro ⟨r, hr, hrin⟩
          exact hapart r hr px py hqin hrin
        rw [drawSelf_of_not_covered (b := b.blitWith _ win.surface q.rect) horigin hin hnot,
          Surface.blitWith_pixelAt _ _ _ _ horigin hin]
        simp only [hqin, and_true]
        split_ifs <;> rfl
      · have hclip : ¬ clip.rect.HasPixel px py :=
          fun hc => hapart q hq px py hc hqin
        have hkeep : ∀ combine, (b.blitWith combine win.surface clip.rect).pixelAt px py =
            b.pixelAt px py := by
          intro combine
          rw [Surface.blitWith_pixelAt _ _ _ _ horigin hin,
            if_neg fun hboth => hclip hboth.2]
        rw [ih (b := b.blitWith _ win.surface clip.rect) hrest horigin hin
          ⟨q, hq, hqin, rfl⟩, hkeep]

end DrawSelf

/-- What a frame keeps during the traversal. -/
structure Frame.Ready (f : Frame) : Prop where
  origin : f.bSurface.AtOrigin
  tiled : Tiled f.bRenderClips.clippedRects

theorem drawAfterChildren_lost {win : Window} {f : Frame}
    (h : (drawAfterChildren win f).bRenderClips.lost = false) :
    f.bRenderClips.lost = false := by
  unfold drawAfterChildren at h
  split_ifs at h
  · exact h
  · exact divideClippedRegion_lost h
  · exact removeClippedRegion_lost h

theorem rect_drawAfterChildren (win : Window) (f : Frame) :
    (drawAfterChildren win f).bSurface.rect = f.bSurface.rect := by
  unfold drawAfterChildren
  split_ifs
  · rfl
  · exact rect_drawSelf _ _
  · exact rect_drawSelf _ _

theorem drawAfterChildren_ready {win : Window} {f : Frame} (hf : f.Ready)
    (hpos : win.surface.rect.Positive)
    (hlost : (drawAfterChildren win f).bRenderClips.lost = false) :
    (drawAfterChildren win f).Ready := by
  constructor
  · simpa only [Surface.AtOrigin, rect_drawAfterChildren] using hf.origin
  · unfold drawAfterChildren at hlost ⊢
    split_ifs at hlost ⊢
    · exact hf.tiled
    · exact (divideClippedRegion_tagged hpos hf.tiled hlost).1
    · exact (removeClippedRegion_tagged hpos hf.tiled hlost).1

/-- The colour part of one traversal step. -/
theorem drawAfterChildren_pixelAt {win : Window} {f : Frame} {px py : Int}
    {st : UInt32 × Coverage} (hf : f.Ready) (hin : f.bSurface.rect.HasPixel px py)
    (hst : f.At px py st) :
    (drawAfterChildren win f).bSurface.pixelAt px py = (pixelStep px py win st).1 := by
  obtain ⟨color, cov⟩ := st
  obtain ⟨hcolor, hcov⟩ := hst
  dsimp only at hcolor
  have hdrawn : (drawAfterChildren win f).bSurface.pixelAt px py =
      if win.isInvisible then f.bSurface.pixelAt px py
      else (drawSelf win f.bRenderClips.clippedRects f.bSurface).pixelAt px py := by
    unfold drawAfterChildren
    split_ifs <;> rfl
  rw [hdrawn]
  unfold pixelStep
  by_cases hinv : win.isInvisible = true
  · simp [hinv, hcolor]
  · simp only [Bool.not_eq_true] at hinv
    cases cov with
    | closed =>
        simp only [hinv, Bool.false_eq_true, if_false,
          drawSelf_of_not_covered hf.origin hin hcov, hcolor]
        split_ifs <;> rfl
    | unpainted =>
        obtain ⟨w, htag, hw⟩ := hcov
        simp only [hinv, Bool.false_eq_true, if_false,
          drawSelf_of_tagged hf.tiled hf.origin hin htag, hw, hcolor, true_and]
        split_ifs <;> rfl
    | blended =>
        obtain ⟨w, htag, hw⟩ := hcov
        simp only [hinv, Bool.false_eq_true, if_false, if_true,
          drawSelf_of_tagged hf.tiled hf.origin hin htag, hw, hcolor, true_and]
        split_ifs <;> rfl

/-- The clip list after one traversal step, at a pixel the window does not draw. -/
theorem drawAfterChildren_tagged_outside {win : Window} {f : Frame} {px py : Int} {w : Window}
    (hf : f.Ready) (hpos : win.surface.rect.Positive)
    (hlost : (drawAfterChildren win f).bRenderClips.lost = false)
    (hout : ¬ (win.isInvisible = false ∧ win.surface.rect.HasPixel px py)) :
    Tagged (drawAfterChildren win f).bRenderClips.clippedRects px py w ↔
      Tagged f.bRenderClips.clippedRects px py w := by
  unfold drawAfterChildren at hlost ⊢
  split_ifs at hlost ⊢ with hinv htrans
  · exact Iff.rfl
  · have hnot : ¬ win.surface.rect.HasPixel px py := fun h => hout ⟨by simpa using hinv, h⟩
    rw [(divideClippedRegion_tagged hpos hf.tiled hlost).2 px py w]
    simp [hnot]
  · have hnot : ¬ win.surface.rect.HasPixel px py := fun h => hout ⟨by simpa using hinv, h⟩
    rw [(removeClippedRegion_tagged hpos hf.tiled hlost).2 px py w]
    simp [hnot]

/-- The same at a pixel the window draws: a transparent window retags the pixel if it
was still open, an opaque one closes it. -/
theorem drawAfterChildren_tagged_inside {win : Window} {f : Frame} {px py : Int} {w : Window}
    (hf : f.Ready) (hpos : win.surface.rect.Positive)
    (hlost : (drawAfterChildren win f).bRenderClips.lost = false)
    (hvis : win.isInvisible = false) (hin : win.surface.rect.HasPixel px py) :
    Tagged (drawAfterChildren win f).bRenderClips.clippedRects px py w ↔
      win.isTransparent = true ∧ w = win ∧ Covered f.bRenderClips.clippedRects px py := by
  unfold drawAfterChildren at hlost ⊢
  simp only [hvis, Bool.false_eq_true, if_false] at hlost ⊢
  split_ifs at hlost ⊢ with htrans
  · rw [(divideClippedRegion_tagged hpos hf.tiled hlost).2 px py w]
    simp [hin, htrans]
  · rw [(removeClippedRegion_tagged hpos hf.tiled hlost).2 px py w]
    simp [hin, htrans]

/-- One traversal step moves every pixel of the back surface by `pixelStep`. -/
theorem drawAfterChildren_at {win : Window} {f : Frame} {px py : Int}
    {st : UInt32 × Coverage} (hf : f.Ready) (hpos : win.surface.rect.Positive)
    (hlost : (drawAfterChildren win f).bRenderClips.lost = false)
    (hin : f.bSurface.rect.HasPixel px py) (hst : f.At px py st) :
    (drawAfterChildren win f).At px py (pixelStep px py win st) := by
  refine ⟨drawAfterChildren_pixelAt hf hin hst, ?_⟩
  obtain ⟨color, cov⟩ := st
  obtain ⟨_, hcov⟩ := hst
  by_cases hdraw : win.isInvisible = false ∧ win.surface.rect.HasPixel px py
  · have htag := fun w => drawAfterChildren_tagged_inside (w := w) hf hpos hlost hdraw.1 hdraw.2
    rw [pixelStep, if_pos hdraw]
    by_cases htrans : win.isTransparent = true
    · simp only [htrans, if_true, true_and] at htag ⊢
      cases cov with
      | closed =>
          dsimp only at hcov ⊢
          rw [covered_iff_tagged]
          rintro ⟨w, hw⟩
          exact hcov ((htag w).mp hw).2
      | unpainted | blended =>
          obtain ⟨v, hv, _⟩ := hcov
          exact ⟨win, (htag win).mpr ⟨rfl, covered_iff_tagged.mpr ⟨v, hv⟩⟩, htrans⟩
    · have hclosed : ¬ Covered (drawAfterChildren win f).bRenderClips.clippedRects px py := by
        rw [covered_iff_tagged]
        rintro ⟨w, hw⟩
        exact htrans ((htag w).mp hw).1
      rw [if_neg htrans]
      cases cov with
      | closed | unpainted | blended => exact hclosed
  · have htag := fun w => drawAfterChildren_tagged_outside (w := w) hf hpos hlost hdraw
    rw [pixelStep, if_neg hdraw]
    simpa only [covered_iff_tagged, htag] using hcov

theorem foldl_drawAfterChildren_lost (order : List Window) {f : Frame}
    (h : (order.foldl (fun f v => drawAfterChildren v f) f).bRenderClips.lost = false) :
    f.bRenderClips.lost = false := by
  induction order generalizing f with
  | nil => exact h
  | cons w rest ih => exact drawAfterChildren_lost (ih h)

/-- The whole traversal folds `pixelStep` over the front-to-back order. -/
theorem foldl_drawAfterChildren_at (order : List Window) {f : Frame} {px py : Int}
    {st : UInt32 × Coverage} (hf : f.Ready)
    (hpos : ∀ w ∈ order, w.surface.rect.Positive)
    (hlost : (order.foldl (fun f v => drawAfterChildren v f) f).bRenderClips.lost = false)
    (hin : f.bSurface.rect.HasPixel px py) (hst : f.At px py st) :
    (order.foldl (fun f v => drawAfterChildren v f) f).At px py
      (order.foldl (fun st v => pixelStep px py v st) st) := by
  induction order generalizing f st with
  | nil => exact hst
  | cons w rest ih =>
      have hw := hpos w List.mem_cons_self
      have hkept := foldl_drawAfterChildren_lost rest hlost
      exact ih (drawAfterChildren_ready hf hw hkept)
        (fun v hv => hpos v (List.mem_cons_of_mem w hv)) hlost
        (by rwa [rect_drawAfterChildren]) (drawAfterChildren_at hf hw hkept hin hst)

/-- A closed pixel is never drawn again. -/
theorem foldl_pixelStep_closed (order : List Window) (px py : Int) (color : UInt32) :
    order.foldl (fun st v => pixelStep px py v st) (color, .closed) = (color, .closed) := by
  induction order with
  | nil => rfl
  | cons w rest ih =>
      have hstep : pixelStep px py w (color, .closed) = (color, .closed) := by
        unfold pixelStep
        split_ifs <;> rfl
      rw [List.foldl_cons, hstep, ih]

theorem visibleAt_iff (px py : Int) (w : Window) :
    visibleAt px py w = true ↔ w.isInvisible = false ∧ w.surface.rect.HasPixel px py := by
  simp [visibleAt]

theorem foldl_pixelStep_blended (order : List Window) (px py : Int) (color : UInt32) :
    (order.foldl (fun st v => pixelStep px py v st) (color, .blended)).1 =
      (cutAtOpaque (order.filter (visibleAt px py))).foldl
        (fun color v => alphaBlendPixel color (v.surface.pixelAt px py)) color := by
  induction order generalizing color with
  | nil => rfl
  | cons w rest ih =>
      rw [List.foldl_cons, List.filter_cons]
      by_cases hvis : visibleAt px py w = true
      · rw [if_pos hvis, pixelStep, if_pos ((visibleAt_iff px py w).mp hvis), cutAtOpaque]
        by_cases htrans : w.isTransparent = true
        · simp only [htrans, if_true, List.foldl_cons]
          exact ih _
        · simp only [htrans, Bool.false_eq_true, if_false, List.foldl_cons, List.foldl_nil,
            foldl_pixelStep_closed]
      · rw [if_neg hvis, pixelStep, if_neg fun h => hvis ((visibleAt_iff px py w).mpr h)]
        exact ih color

/-- Folding the pixel states of an open, unpainted pixel is the painter's algorithm. -/
theorem foldl_pixelStep_unpainted (order : List Window) (px py : Int) (color : UInt32) :
    (order.foldl (fun st v => pixelStep px py v st) (color, .unpainted)).1 =
      match cutAtOpaque (order.filter (visibleAt px py)) with
      | [] => color
      | w :: ws => ws.foldl (fun color v => alphaBlendPixel color (v.surface.pixelAt px py))
          (w.surface.pixelAt px py) := by
  induction order with
  | nil => rfl
  | cons w rest ih =>
      rw [List.foldl_cons, List.filter_cons]
      by_cases hvis : visibleAt px py w = true
      · rw [if_pos hvis, pixelStep, if_pos ((visibleAt_iff px py w).mp hvis), cutAtOpaque]
        by_cases htrans : w.isTransparent = true
        · simp only [htrans, if_true]
          exact foldl_pixelStep_blended rest px py _
        · simp only [htrans, Bool.false_eq_true, if_false, List.foldl_nil,
            foldl_pixelStep_closed]
      · rw [if_neg hvis, pixelStep, if_neg fun h => hvis ((visibleAt_iff px py w).mpr h)]
        exact ih

/-- Occlusion-culled drawing is the painter's algorithm on the starting clip list:
pixels outside it keep their colour, pixels inside it get the painter's colour. -/
theorem drawWindow_eq_painter (root : Window) (f : Frame)
    (hpos : ∀ w ∈ root.paintOrder, w.surface.rect.Positive)
    (horigin : f.bSurface.AtOrigin)
    (htiled : Tiled f.bRenderClips.clippedRects)
    (hsolid : ∀ clip ∈ f.bRenderClips.clippedRects, clip.win.isTransparent = false)
    (hlost : (drawWindow root f).bRenderClips.lost = false)
    (px py : Int) (hin : f.bSurface.rect.HasPixel px py) :
    (¬ Covered f.bRenderClips.clippedRects px py →
      (drawWindow root f).bSurface.pixelAt px py = f.bSurface.pixelAt px py) ∧
    (Covered f.bRenderClips.clippedRects px py →
      (drawWindow root f).bSurface.pixelAt px py =
        painterPixel root px py (f.bSurface.pixelAt px py)) := by
  rw [drawWindow_eq_foldl] at hlost ⊢
  have hready : f.Ready := ⟨horigin, htiled⟩
  constructor
  · intro hout
    have hst : f.At px py (f.bSurface.pixelAt px py, .closed) := ⟨rfl, hout⟩
    rw [(foldl_drawAfterChildren_at _ hready hpos hlost hin hst).1, foldl_pixelStep_closed]
  · rintro ⟨clip, hmem, hclip⟩
    have hst : f.At px py (f.bSurface.pixelAt px py, .unpainted) :=
      ⟨rfl, clip.win, ⟨clip, hmem, hclip, rfl⟩, hsolid clip hmem⟩
    rw [(foldl_drawAfterChildren_at _ hready hpos hlost hin hst).1,
      foldl_pixelStep_unpainted, painterPixel, paintedAt]

/-- A half-transparent window of one pixel, and an opaque root of two below it. -/
def glass : Window :=
  .mk windowFlagsTransparent ⟨⟨1, 0, 1, 1⟩, #[0x80ff0000], rfl⟩ ⟨1, 0, 1, 1⟩ []

def glassOnRoot : Window :=
  .mk 0 ⟨⟨0, 0, 2, 1⟩, #[0xff0000ff, 0xff00ff00], rfl⟩ ⟨0, 0, 2, 1⟩ [glass]

/-- A black two-pixel back surface, all of it to be drawn. -/
def blankFrame : Frame :=
  ⟨⟨⟨0, 0, 2, 1⟩, #[0, 0], rfl⟩, {clippedRects := [⟨⟨0, 0, 2, 1⟩, glassOnRoot⟩]}⟩

theorem divide_blankFrame :
    blankFrame.bRenderClips.divideClippedRegion ⟨1, 0, 1, 1⟩ glass =
      {clippedRects := [⟨⟨0, 0, 1, 1⟩, glassOnRoot⟩, ⟨⟨1, 0, 1, 1⟩, glass⟩]} := by
  rw [divideClippedRegion, splitOverlapping_hit rfl rfl,
    splitOverlapping_miss rfl (by decide), splitOverlapping_end rfl]
  rfl

theorem drawWindow_glassOnRoot_clips :
    (drawWindow glassOnRoot blankFrame).bRenderClips = {clippedRects := []} := by
  change ((blankFrame.bRenderClips.divideClippedRegion ⟨1, 0, 1, 1⟩ glass).removeClippedRegion
    ⟨0, 0, 2, 1⟩) = _
  rw [divide_blankFrame, removeClippedRegion, splitOverlapping_hit rfl rfl,
    splitOverlapping_hit rfl rfl, splitOverlapping_end rfl]
  rfl

theorem drawWindow_eq_painter_glassOnRoot :
    (drawWindow glassOnRoot blankFrame).bSurface.pixelAt 1 0 =
      painterPixel glassOnRoot 1 0 (blankFrame.bSurface.pixelAt 1 0) := by
  refine (drawWindow_eq_painter glassOnRoot blankFrame ?_ ⟨rfl, rfl⟩ ?_ ?_ ?_ 1 0
    (by decide)).2 ⟨_, List.mem_singleton_self _, by decide⟩
  · simp [glassOnRoot, glass, Window.paintOrder, Window.paintChildren, Window.surface,
      Rect.Positive]
  · exact ⟨by simp [blankFrame, Rect.Positive], List.pairwise_singleton _ _⟩
  · simp [blankFrame, glassOnRoot, Window.isTransparent, Window.getFlag, Window.flags]
  · rw [drawWindow_glassOnRoot_clips]

end Tellurium.Gui
