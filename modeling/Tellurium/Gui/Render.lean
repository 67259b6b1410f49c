import Tellurium.Gui.Compositor

/-!
One frame of the compositor (`libGUI/Compositor.cpp`, `render`). The dirty windows and
the mouse add the regions to redraw, the window tree is drawn into the back surface
inside these regions, the mouse is drawn on top, and the regions are copied to the
front surface.

Everything is again looked at one pixel at a time. The region list decides the pixel:
outside it the front surface keeps what it shows, inside it the tag of the last region
added over the pixel decides whether the old back-surface colour is overwritten or
blended in.
-/

namespace Tellurium.Gui

open ClipRegions

namespace Window

def winPrevRect : Window → Rect
  | mk _ _ winPrevRect _ => winPrevRect

def getWinRect (w : Window) : Rect := w.surface.rect
def getPrevRect (w : Window) : Rect := w.winPrevRect
def isDirty (w : Window) : Bool := w.getFlag windowFlagsDirty

def setFlags (fields : UInt32) : Window → Window
  | mk flags surface prev windows => mk (flags ||| fields) surface prev windows

def resetFlags (fields : UInt32) : Window → Window
  | mk flags surface prev windows =>
      mk (flags &&& (0xffffffff ^^^ fields)) surface prev windows

def updatePrevRect : Window → Window
  | mk flags surface _ windows => mk flags surface surface.rect windows

def setPosition (x y : Int) : Window → Window
  | mk flags surface prev windows =>
      mk flags ⟨⟨x, y, surface.rect.width, surface.rect.height⟩, surface.buff,
        surface.size_buff⟩ prev windows

end Window

/-- The pair of regions a dirty window adds unless a dirty ancestor stands for it. -/
def addDirtyRegions (win : Window) (dirtyAncestor : Option Window)
    (bRenderClips : ClipRegions Window) : ClipRegions Window :=
  match dirtyAncestor with
  | some _ => bRenderClips
  | none =>
      (bRenderClips.addClippedRegion win.getWinRect win).addClippedRegion win.getPrevRect win

mutual

/-- The dirty flags are reset on the way, so the updated window is returned beside the
regions. -/
def createDirtyWindowRegions : Window → Option Window → ClipRegions Window →
    ClipRegions Window × Window
  | .mk flags surface prev windows, dirtyAncestor, bRenderClips =>
      if (Window.mk flags surface prev windows).getFlag windowFlagsDirty then
        let win := (Window.mk flags surface prev windows).resetFlags windowFlagsDirty
        let rest := createDirtyChildRegions windows (some (dirtyAncestor.getD win))
          (addDirtyRegions win dirtyAncestor bRenderClips)
        (rest.1, (Window.mk win.flags surface prev rest.2).updatePrevRect)
      else
        let rest := createDirtyChildRegions windows dirtyAncestor bRenderClips
        (rest.1, .mk flags surface prev rest.2)

/-- The loop over the children, first to last. -/
def createDirtyChildRegions : List Window → Option Window → ClipRegions Window →
    ClipRegions Window × List Window
  | [], _, bRenderClips => (bRenderClips, [])
  | w :: ws, dirtyAncestor, bRenderClips =>
      let first := createDirtyWindowRegions w dirtyAncestor bRenderClips
      let rest := createDirtyChildRegions ws dirtyAncestor first.1
      (rest.1, first.2 :: rest.2)

end

/-- Only the previous rectangle of the mouse is added; the call for the current one is
commented out in the source. -/
def createDirtyMouseRegion (mouse : Window) (bRenderClips : ClipRegions Window) :
    ClipRegions Window × Window :=
  if mouse.getFlag windowFlagsDirty then
    let mouse := mouse.resetFlags windowFlagsDirty
    (bRenderClips.addClippedRegion mouse.getPrevRect mouse, mouse.updatePrevRect)
  else (bRenderClips, mouse)

def ClipRegions.copyRegion {ω : Type*} (this other : ClipRegions ω) : ClipRegions ω :=
  {this with clippedRects := other.clippedRects}

/-- The loop that copies the rendered regions to the front surface. -/
def copyToFront (bSurface : Surface) (clips : List (ClipRect Window)) (fSurface : Surface) :
    Surface :=
  clips.foldl (fun fSurface clip => fSurface.blit bSurface clip.rect) fSurface

section Rects

theorem rect_copyToFront (b : Surface) (clips : List (ClipRect Window)) (s : Surface) :
    (copyToFront b clips s).rect = s.rect := by
  induction clips generalizing s with
  | nil => rfl
  | cons clip rest ih => exact ih (s.blit b clip.rect)

theorem rect_drawWindow (root : Window) (f : Frame) :
    (drawWindow root f).bSurface.rect = f.bSurface.rect := by
  rw [drawWindow_eq_foldl]
  induction root.paintOrder generalizing f with
  | nil => rfl
  | cons w rest ih => rw [List.foldl_cons, ih, rect_drawAfterChildren]

end Rects

/-- The compositor between two frames: both surfaces lie at the origin and are equally
large, and no region is waiting to be drawn. -/
structure Compositor where
  fSurface : Surface
  bSurface : Surface
  fRenderClips : ClipRegions Window
  bRenderClips : ClipRegions Window
  origin : fSurface.AtOrigin
  sameRect : bSurface.rect = fSurface.rect
  idle : bRenderClips.clippedRects = []

namespace Compositor

/-- What `createDirtyWindowRegions(root, nullptr)` leaves: the regions and the tree. -/
def windowPass (c : Compositor) (root : Window) : ClipRegions Window × Window :=
  createDirtyWindowRegions root none c.bRenderClips

/-- What `createDirtyMouseRegion(mouse)` leaves after it: the regions and the mouse. -/
def mousePass (c : Compositor) (root mouse : Window) : ClipRegions Window × Window :=
  createDirtyMouseRegion mouse (c.windowPass root).1

/-- The back surface and the clip list after `drawWindow(root)`. -/
def drawn (c : Compositor) (root mouse : Window) : Frame :=
  drawWindow (c.windowPass root).2 ⟨c.bSurface, (c.mousePass root mouse).1⟩

/-- The back surface with the mouse on top. -/
def withMouse (c : Compositor) (root mouse : Window) : Surface :=
  let mouse' := (c.mousePass root mouse).2
  (c.drawn root mouse).bSurface.blit mouse'.surface mouse'.surface.rect

/-- One frame. The tree and the mouse come back with their dirty flags reset. -/
def render (c : Compositor) (root mouse : Window) : Compositor × Window × Window :=
  let clips := (c.mousePass root mouse).1
  if hclips : clips.numClipped = 0 then
    (⟨c.fSurface, c.bSurface, c.fRenderClips, clips, c.origin, c.sameRect,
        List.length_eq_zero_iff.mp hclips⟩,
      (c.windowPass root).2, (c.mousePass root mouse).2)
  else
    let fRenderClips := c.fRenderClips.copyRegion clips
    let bSurface := c.withMouse root mouse
    let fSurface := copyToFront bSurface fRenderClips.clippedRects c.fSurface
    (⟨fSurface, bSurface, fRenderClips.resetClippedList,
        (c.drawn root mouse).bRenderClips.resetClippedList,
        by simpa only [Surface.AtOrigin, fSurface, rect_copyToFront] using c.origin,
        (rect_drawWindow _ _).trans
          (c.sameRect.trans (rect_copyToFront _ _ _).symm), rfl⟩,
      (c.windowPass root).2, (c.mousePass root mouse).2)

end Compositor

/-! ### The regions of a frame -/

mutual

/-- The regions a tree adds, in the order they are added; `covered` says that a dirty
ancestor stands for the tree. -/
def dirtyRegions : Window → Bool → List (ClipRect Window)
  | .mk flags surface prev windows, covered =>
      let win := Window.mk flags surface prev windows
      if win.isDirty then
        (if covered then [] else
          [⟨surface.rect, win.resetFlags windowFlagsDirty⟩,
            ⟨prev, win.resetFlags windowFlagsDirty⟩]) ++ dirtyChildRegions windows true
      else dirtyChildRegions windows covered

def dirtyChildRegions : List Window → Bool → List (ClipRect Window)
  | [], _ => []
  | w :: ws, covered => dirtyRegions w covered ++ dirtyChildRegions ws covered

end

mutual

/-- The tree after a frame. -/
def refreshed : Window → Window
  | .mk flags surface prev windows =>
      if (Window.mk flags surface prev windows).isDirty then
        .mk (flags &&& (0xffffffff ^^^ windowFlagsDirty)) surface surface.rect
          (refreshedChildren windows)
      else .mk flags surface prev (refreshedChildren windows)

def refreshedChildren : List Window → List Window
  | [] => []
  | w :: ws => refreshed w :: refreshedChildren ws

end

def addRegions (clips : ClipRegions Window) (regions : List (ClipRect Window)) :
    ClipRegions Window :=
  regions.foldl (fun c r => c.addClippedRegion r.rect r.win) clips

theorem addRegions_append (clips : ClipRegions Window) (rs ts : List (ClipRect Window)) :
    addRegions clips (rs ++ ts) = addRegions (addRegions clips rs) ts :=
  List.foldl_append

mutual

theorem createDirtyWindowRegions_eq (w : Window) (anc : Option Window)
    (clips : ClipRegions Window) :
    createDirtyWindowRegions w anc clips =
      (addRegions clips (dirtyRegions w anc.isSome), refreshed w) := by
  cases w with
  | mk flags surface prev windows =>
      rw [createDirtyWindowRegions, dirtyRegions, refreshed]
      simp only [createDirtyChildRegions_eq windows, Option.isSome_some]
      by_cases hdirty : (Window.mk flags surface prev windows).isDirty = true
      · rw [if_pos hdirty, if_pos hdirty]
        cases anc with
        | none => exact if_pos hdirty
        | some v => exact if_pos hdirty
      · rw [if_neg hdirty, if_neg hdirty]
        exact if_neg hdirty

theorem createDirtyChildRegions_eq (ws : List Window) (anc : Option Window)
    (clips : ClipRegions Window) :
    createDirtyChildRegions ws anc clips =
      (addRegions clips (dirtyChildRegions ws anc.isSome), refreshedChildren ws) := by
  cases ws with
  | nil => rfl
  | cons w ws =>
      rw [createDirtyChildRegions, dirtyChildRegions, refreshedChildren,
        createDirtyWindowRegions_eq w, createDirtyChildRegions_eq ws, addRegions_append]

end

/-- The regions of a frame: those of the window tree, then the one of the mouse. -/
def frameRegions (root mouse : Window) : List (ClipRect Window) :=
  dirtyRegions root false ++
    if mouse.isDirty then [⟨mouse.winPrevRect, mouse.resetFlags windowFlagsDirty⟩] else []

/-- The tag of the last region over a pixel. -/
def lastTag (px py : Int) (tag : Option Window) (regions : List (ClipRect Window)) :
    Option Window :=
  regions.foldl (fun tag r => if r.rect.HasPixel px py then some r.win else tag) tag

/-- The window whose region decides how a frame draws a pixel, if any does. -/
def regionTag (root mouse : Window) (px py : Int) : Option Window :=
  lastTag px py none (frameRegions root mouse)

theorem winPrevRect_resetFlags (fields : UInt32) (w : Window) :
    (w.resetFlags fields).winPrevRect = w.winPrevRect := by
  cases w with
  | mk flags surface prev windows => rfl

theorem mousePass_fst (c : Compositor) (root mouse : Window) :
    (c.mousePass root mouse).1 = addRegions c.bRenderClips (frameRegions root mouse) := by
  rw [Compositor.mousePass, Compositor.windowPass, createDirtyWindowRegions_eq,
    createDirtyMouseRegion, frameRegions, addRegions_append]
  by_cases hdirty : mouse.isDirty = true
  · rw [if_pos hdirty, if_pos (show mouse.getFlag windowFlagsDirty = true from hdirty)]
    simp only [Window.getPrevRect, winPrevRect_resetFlags]
    rfl
  · rw [if_neg hdirty, if_neg (show ¬ mouse.getFlag windowFlagsDirty = true from hdirty)]
    rfl

theorem surface_mousePass (c : Compositor) (root mouse : Window) :
    (c.mousePass root mouse).2.surface = mouse.surface := by
  cases mouse with
  | mk flags surface prev windows =>
      rw [Compositor.mousePass, createDirtyMouseRegion]
      split_ifs <;> rfl

theorem windowPass_snd (c : Compositor) (root : Window) :
    (c.windowPass root).2 = refreshed root := by
  rw [Compositor.windowPass, createDirtyWindowRegions_eq]

theorem addRegions_lost {regions : List (ClipRect Window)} {c : ClipRegions Window}
    (h : (addRegions c regions).lost = false) : c.lost = false := by
  induction regions generalizing c with
  | nil => exact h
  | cons r rest ih => exact removeClippedRegion_lost (addClippedRegion_lost (ih h)).2

/-- The list built by a frame is tiled, and each pixel carries the last tag. -/
theorem addRegions_tagged {regions : List (ClipRect Window)} {c : ClipRegions Window}
    {tag : Int → Int → Option Window} (hpos : ∀ r ∈ regions, r.rect.Positive)
    (htiled : Tiled c.clippedRects) (hlost : (addRegions c regions).lost = false)
    (htag : ∀ px py w, Tagged c.clippedRects px py w ↔ tag px py = some w) :
    Tiled (addRegions c regions).clippedRects ∧
      ∀ px py w, Tagged (addRegions c regions).clippedRects px py w ↔
        lastTag px py (tag px py) regions = some w := by
  induction regions generalizing c tag with
  | nil => exact ⟨htiled, htag⟩
  | cons r rest ih =>
      have hkept : (c.addClippedRegion r.rect r.win).lost = false := addRegions_lost hlost
      obtain ⟨hadd, hadded⟩ :=
        addClippedRegion_tagged (hpos r List.mem_cons_self) htiled hkept
      have hnext : ∀ px py w,
          Tagged (c.addClippedRegion r.rect r.win).clippedRects px py w ↔
            (if r.rect.HasPixel px py then some r.win else tag px py) = some w := by
        intro px py w
        rw [hadded px py w]
        split_ifs with hin
        · simp [eq_comm]
        · exact htag px py w
      exact ih (fun q hq => hpos q (List.mem_cons_of_mem r hq)) hadd hlost hnext

/-! ### One pixel through a frame -/

/-- The colours of the windows at a pixel, blended behind a given colour. -/
def blendBehind (root : Window) (px py : Int) (color : UInt32) : UInt32 :=
  (paintedAt root px py).foldl
    (fun color v => alphaBlendPixel color (v.surface.pixelAt px py)) color

/-- Drawing looks at the surface of a window and at two of its flags. -/
theorem pixelStep_congr {v w : Window} (hinv : v.isInvisible = w.isInvisible)
    (htrans : v.isTransparent = w.isTransparent) (hsurface : v.surface = w.surface)
    (px py : Int) (st : UInt32 × Coverage) :
    pixelStep px py v st = pixelStep px py w st := by
  unfold pixelStep
  rw [hinv, htrans, hsurface]

/-- Resetting the dirty flag keeps the two flags that drawing reads. -/
theorem getFlag_resetDirty (w : Window) {field : UInt32}
    (h : (0xffffffff ^^^ windowFlagsDirty) &&& field = field) :
    (w.resetFlags windowFlagsDirty).getFlag field = w.getFlag field := by
  cases w with
  | mk flags surface prev windows =>
      change ((flags &&& (0xffffffff ^^^ windowFlagsDirty)) &&& field != 0) = _
      rw [UInt32.and_assoc, h]
      rfl

theorem pixelStep_refreshed (px py : Int) (w : Window) (st : UInt32 × Coverage) :
    pixelStep px py (refreshed w) st = pixelStep px py w st := by
  cases w with
  | mk flags surface prev windows =>
      rw [refreshed]
      split_ifs
      · apply pixelStep_congr
        · exact getFlag_resetDirty (.mk flags surface prev windows) rfl
        · exact getFlag_resetDirty (.mk flags surface prev windows) rfl
        · rfl
      · exact pixelStep_congr rfl rfl rfl px py st

theorem surface_refreshed (w : Window) : (refreshed w).surface = w.surface := by
  cases w with
  | mk flags surface prev windows =>
      rw [refreshed]
      split_ifs <;> rfl

mutual

theorem paintOrder_refreshed (w : Window) :
    (refreshed w).paintOrder = w.paintOrder.map refreshed := by
  cases w with
  | mk flags surface prev windows =>
      rw [Window.paintOrder, List.map_append, List.map_singleton, ←
        paintChildren_refreshed windows, refreshed]
      split_ifs <;> rfl

theorem paintChildren_refreshed (ws : List Window) :
    Window.paintChildren (refreshedChildren ws) = (Window.paintChildren ws).map refreshed := by
  cases ws with
  | nil => rfl
  | cons w ws =>
      rw [refreshedChildren, Window.paintChildren, Window.paintChildren, List.map_append,
        paintChildren_refreshed ws, paintOrder_refreshed w]

end

theorem foldl_pixelStep_refreshed (root : Window) (px py : Int) (st : UInt32 × Coverage) :
    (refreshed root).paintOrder.foldl (fun st v => pixelStep px py v st) st =
      root.paintOrder.foldl (fun st v => pixelStep px py v st) st := by
  rw [paintOrder_refreshed, List.foldl_map]
  simp only [pixelStep_refreshed]

theorem drawWindow_at {root : Window} {f : Frame} {px py : Int} {st : UInt32 × Coverage}
    (hf : f.Ready) (hpos : ∀ w ∈ root.paintOrder, w.surface.rect.Positive)
    (hlost : (drawWindow (refreshed root) f).bRenderClips.lost = false)
    (hin : f.bSurface.rect.HasPixel px py) (hst : f.At px py st) :
    (drawWindow (refreshed root) f).bSurface.pixelAt px py =
      (root.paintOrder.foldl (fun st v => pixelStep px py v st) st).1 := by
  rw [drawWindow_eq_foldl] at hlost ⊢
  have hpos' : ∀ w ∈ (refreshed root).paintOrder, w.surface.rect.Positive := by
    rw [paintOrder_refreshed]
    intro w hw
    obtain ⟨v, hv, rfl⟩ := List.mem_map.mp hw
    rw [surface_refreshed]
    exact hpos v hv
  rw [(foldl_drawAfterChildren_at _ hf hpos' hlost hin hst).1, foldl_pixelStep_refreshed]

/-- Copying to the front surface: the pixels of the regions come from the back surface. -/
theorem copyToFront_pixelAt {b s : Surface} (clips : List (ClipRect Window)) {px py : Int}
    (horigin : s.AtOrigin) (hrect : b.rect = s.rect) (hin : s.rect.HasPixel px py) :
    (Covered clips px py → (copyToFront b clips s).pixelAt px py = b.pixelAt px py) ∧
    (¬ Covered clips px py → (copyToFront b clips s).pixelAt px py = s.pixelAt px py) := by
  induction clips generalizing s with
  | nil => exact ⟨fun h => by simp [Covered] at h, fun _ => rfl⟩
  | cons clip rest ih =>
      have hblit : (s.blit b clip.rect).pixelAt px py =
          if clip.rect.HasPixel px py then b.pixelAt px py else s.pixelAt px py := by
        rw [Surface.blit, Surface.blitWith_pixelAt _ _ _ _ horigin hin, hrect]
        simp only [hin, true_and]
      obtain ⟨hcov, hnot⟩ := ih (s := s.blit b clip.rect) horigin hrect hin
      have hsplit : Covered (clip :: rest) px py ↔
          clip.rect.HasPixel px py ∨ Covered rest px py := by
        simp [Covered]
      change (_ → (copyToFront b rest (s.blit b clip.rect)).pixelAt px py = _) ∧
        (_ → (copyToFront b rest (s.blit b clip.rect)).pixelAt px py = _)
      rw [hsplit]
      by_cases hrest : Covered rest px py
      · exact ⟨fun _ => hcov hrest, fun h => absurd (Or.inr hrest) h⟩
      · rw [hnot hrest, hblit]
        exact ⟨fun h => if_pos (h.resolve_right hrest), fun h => if_neg fun hc => h (Or.inl hc)⟩

/-- The colour a drawn pixel has before the mouse is put on top: a region of an opaque
window starts afresh, one of a transparent window blends the old colour in. -/
def regionColor (tag root : Window) (px py : Int) (old : UInt32) : UInt32 :=
  if tag.isTransparent then blendBehind root px py old else painterPixel root px py old

namespace Compositor

section Frame

variable {c : Compositor} {root mouse : Window} {px py : Int}

theorem mousePass_tagged (hpos : ∀ r ∈ frameRegions root mouse, r.rect.Positive)
    (hlost : (c.mousePass root mouse).1.lost = false) :
    Tiled (c.mousePass root mouse).1.clippedRects ∧
      ∀ px py w, Tagged (c.mousePass root mouse).1.clippedRects px py w ↔
        regionTag root mouse px py = some w := by
  rw [mousePass_fst] at hlost ⊢
  apply addRegions_tagged hpos _ hlost
  · intro px py w
    simp [c.idle, Tagged]
  · rw [c.idle]
    exact ⟨by simp, List.Pairwise.nil⟩

theorem drawn_lost (h : (c.drawn root mouse).bRenderClips.lost = false) :
    (c.mousePass root mouse).1.lost = false := by
  unfold drawn at h
  rw [drawWindow_eq_foldl] at h
  exact foldl_drawAfterChildren_lost _ h

theorem drawn_pixelAt {tag : Window}
    (hpos : ∀ w ∈ root.paintOrder, w.surface.rect.Positive)
    (hregions : ∀ r ∈ frameRegions root mouse, r.rect.Positive)
    (hlost : (c.drawn root mouse).bRenderClips.lost = false)
    (hin : c.fSurface.rect.HasPixel px py) (htag : regionTag root mouse px py = some tag) :
    (c.drawn root mouse).bSurface.pixelAt px py =
      regionColor tag root px py (c.bSurface.pixelAt px py) := by
  obtain ⟨htiled, htagged⟩ := mousePass_tagged hregions (drawn_lost hlost)
  unfold drawn at hlost ⊢
  rw [windowPass_snd] at hlost ⊢
  have hready : Frame.Ready ⟨c.bSurface, (c.mousePass root mouse).1⟩ :=
    ⟨by simpa only [Surface.AtOrigin, c.sameRect] using c.origin, htiled⟩
  have hback : c.bSurface.rect.HasPixel px py := by rwa [c.sameRect]
  have hmem := (htagged px py tag).mpr htag
  unfold regionColor
  split_ifs with htrans
  · have hst : Frame.At ⟨c.bSurface, (c.mousePass root mouse).1⟩ px py
        (c.bSurface.pixelAt px py, .blended) := ⟨rfl, tag, hmem, htrans⟩
    rw [drawWindow_at hready hpos hlost hback hst, foldl_pixelStep_blended]
    rfl
  · have hst : Frame.At ⟨c.bSurface, (c.mousePass root mouse).1⟩ px py
        (c.bSurface.pixelAt px py, .unpainted) := ⟨rfl, tag, hmem, by simpa using htrans⟩
    rw [drawWindow_at hready hpos hlost hback hst, foldl_pixelStep_unpainted]
    rfl

theorem withMouse_pixelAt (hin : c.fSurface.rect.HasPixel px py) :
    (c.withMouse root mouse).pixelAt px py =
      if mouse.surface.rect.HasPixel px py then mouse.surface.pixelAt px py
      else (c.drawn root mouse).bSurface.pixelAt px py := by
  have hrect : (c.drawn root mouse).bSurface.rect = c.fSurface.rect :=
    (rect_drawWindow _ _).trans c.sameRect
  change ((c.drawn root mouse).bSurface.blit (c.mousePass root mouse).2.surface
    (c.mousePass root mouse).2.surface.rect).pixelAt px py = _
  rw [surface_mousePass, Surface.blit, Surface.blitWith_pixelAt]
  · simp only [and_self]
  · simpa only [Surface.AtOrigin, hrect] using c.origin
  · rwa [hrect]

/-- A frame, pixel by pixel. -/
theorem render_pixelAt (hpos : ∀ w ∈ root.paintOrder, w.surface.rect.Positive)
    (hregions : ∀ r ∈ frameRegions root mouse, r.rect.Positive)
    (hlost : (c.drawn root mouse).bRenderClips.lost = false)
    (hin : c.fSurface.rect.HasPixel px py) :
    (c.render root mouse).1.fSurface.pixelAt px py =
      match regionTag root mouse px py with
      | none => c.fSurface.pixelAt px py
      | some tag =>
          if mouse.surface.rect.HasPixel px py then mouse.surface.pixelAt px py
          else regionColor tag root px py (c.bSurface.pixelAt px py) := by
  obtain ⟨-, htagged⟩ := mousePass_tagged hregions (drawn_lost hlost)
  have hcopy := copyToFront_pixelAt (b := c.withMouse root mouse)
    (c.mousePass root mouse).1.clippedRects c.origin
    ((rect_drawWindow _ _).trans c.sameRect) hin
  have hrender : (c.render root mouse).1.fSurface =
      if (c.mousePass root mouse).1.numClipped = 0 then c.fSurface
      else copyToFront (c.withMouse root mouse) (c.mousePass root mouse).1.clippedRects
        c.fSurface := by
    simp only [render]
    split_ifs <;> rfl
  rw [hrender]
  cases htag : regionTag root mouse px py with
  | none =>
      have hnot : ¬ Covered (c.mousePass root mouse).1.clippedRects px py := by
        rw [covered_iff_tagged]
        rintro ⟨w, hw⟩
        rw [htagged px py w, htag] at hw
        cases hw
      dsimp only
      split_ifs
      · rfl
      · exact hcopy.2 hnot
  | some tag =>
      have hcov : Covered (c.mousePass root mouse).1.clippedRects px py :=
        covered_iff_tagged.mpr ⟨tag, (htagged px py tag).mpr htag⟩
      have hsome : (c.mousePass root mouse).1.numClipped ≠ 0 := by
        obtain ⟨clip, hclip, -⟩ := hcov
        exact (List.length_pos_of_mem hclip).ne'
      rw [if_neg hsome, hcopy.1 hcov, withMouse_pixelAt hin,
        drawn_pixelAt hpos hregions hlost hin htag]

end Frame

end Compositor

/-! ### What the screen should show -/

/-- The mouse on top of the composition of the window tree. -/
def screenPixel (root mouse : Window) (px py : Int) : UInt32 :=
  if mouse.surface.rect.HasPixel px py then mouse.surface.pixelAt px py
  else painterPixel root px py 0

def Shows (s : Surface) (root mouse : Window) : Prop :=
  ∀ px py, s.rect.HasPixel px py → s.pixelAt px py = screenPixel root mouse px py

/-- What may have happened to a window since the last frame. `winPrevRect` is where it
was then, and it kept its rectangle and its pixels unless it is marked as dirty. Its flags and its
place in the painting order are still those of the last frame. -/
structure Tracked (old w : Window) : Prop where
  invisible : w.isInvisible = old.isInvisible
  transparent : w.isTransparent = old.isTransparent
  prevRect : w.winPrevRect = old.surface.rect
  clean : w.isDirty = false → w.surface = old.surface

/-- The situation before a frame: the front surface shows the tree and the mouse of the
last frame, every change since then is marked, and the clip lists are large enough. The
root is the client window, which is visible and as large as the screen. -/
structure Pending (c : Compositor) (oldRoot oldMouse root mouse : Window) : Prop where
  shown : Shows c.fSurface oldRoot oldMouse
  windows : List.Forall₂ Tracked oldRoot.paintOrder root.paintOrder
  pointer : Tracked oldMouse mouse
  rootVisible : root.isInvisible = false
  rootRect : root.surface.rect = c.fSurface.rect
  oldSized : ∀ w ∈ oldRoot.paintOrder, w.surface.rect.Positive
  sized : ∀ w ∈ root.paintOrder, w.surface.rect.Positive
  pointerSized : oldMouse.surface.rect.Positive
  noOverflow : (c.drawn root mouse).bRenderClips.lost = false

/-- The mouse is on the pixel after a move, or a dirty window is or was on it. -/
def Touched (root mouse : Window) (px py : Int) : Prop :=
  (mouse.isDirty = true ∧ mouse.surface.rect.HasPixel px py) ∨
    ∃ w ∈ root.paintOrder, w.isDirty = true ∧
      (w.surface.rect.HasPixel px py ∨ w.winPrevRect.HasPixel px py)

/-- What a pixel needs for a frame to bring it up to date. A touched pixel without a
region must look as before; where the region is one of a transparent window, the
windows blended behind the old back-surface colour must look as they do alone. -/
def Settled (bSurface : Surface) (oldRoot oldMouse root mouse : Window) (px py : Int) : Prop :=
  match regionTag root mouse px py with
  | none => Touched root mouse px py →
      screenPixel root mouse px py = screenPixel oldRoot oldMouse px py
  | some tag => tag.isTransparent = true → ¬ mouse.surface.rect.HasPixel px py →
      blendBehind root px py (bSurface.pixelAt px py) = painterPixel root px py 0

section Regions

mutual

theorem mem_dirtyRegions (w : Window) (covered : Bool) :
    ∀ r ∈ dirtyRegions w covered, ∃ v ∈ w.paintOrder,
      r.rect = v.surface.rect ∨ r.rect = v.winPrevRect := by
  cases w with
  | mk flags surface prev windows =>
      intro r hr
      have hchild : ∀ covered, r ∈ dirtyChildRegions windows covered →
          ∃ v ∈ (Window.mk flags surface prev windows).paintOrder,
            r.rect = v.surface.rect ∨ r.rect = v.winPrevRect := by
        intro covered hr
        obtain ⟨v, hv, hrect⟩ := mem_dirtyChildRegions windows covered r hr
        exact ⟨v, List.mem_append_left _ hv, hrect⟩
      have hself : Window.mk flags surface prev windows ∈
          (Window.mk flags surface prev windows).paintOrder :=
        List.mem_append_right _ (List.mem_singleton_self _)
      rw [dirtyRegions] at hr
      split_ifs at hr with hdirty hcovered
      · exact hchild true hr
      · simp only [List.cons_append, List.nil_append, List.mem_cons] at hr
        rcases hr with rfl | rfl | hr
        · exact ⟨_, hself, Or.inl rfl⟩
        · exact ⟨_, hself, Or.inr rfl⟩
        · exact hchild true hr
      · exact hchild covered hr

theorem mem_dirtyChildRegions (ws : List Window) (covered : Bool) :
    ∀ r ∈ dirtyChildRegions ws covered, ∃ v ∈ Window.paintChildren ws,
      r.rect = v.surface.rect ∨ r.rect = v.winPrevRect := by
  cases ws with
  | nil =>
      intro r hr
      cases hr
  | cons w ws =>
      intro r hr
      rw [dirtyChildRegions] at hr
      rw [Window.paintChildren]
      rcases List.mem_append.mp hr with hr | hr
      · obtain ⟨v, hv, hrect⟩ := mem_dirtyRegions w covered r hr
        exact ⟨v, List.mem_append_right _ hv, hrect⟩
      · obtain ⟨v, hv, hrect⟩ := mem_dirtyChildRegions ws covered r hr
        exact ⟨v, List.mem_append_left _ hv, hrect⟩

end

end Regions

theorem prevRect_positive {olds ws : List Window} (h : List.Forall₂ Tracked olds ws)
    (hpos : ∀ w ∈ olds, w.surface.rect.Positive) : ∀ w ∈ ws, w.winPrevRect.Positive := by
  induction h with
  | nil =>
      intro w hw
      cases hw
  | cons htracked _ ih =>
      obtain ⟨hhead, htail⟩ := List.forall_mem_cons.mp hpos
      exact List.forall_mem_cons.mpr ⟨htracked.prevRect ▸ hhead, ih htail⟩

/-- A window draws an untouched pixel as it did in the last frame. -/
theorem Tracked.pixelStep_eq {old w : Window} (h : Tracked old w) {px py : Int}
    (hout : ¬ (w.isDirty = true ∧
      (w.surface.rect.HasPixel px py ∨ w.winPrevRect.HasPixel px py)))
    (st : UInt32 × Coverage) : pixelStep px py w st = pixelStep px py old st := by
  by_cases hdirty : w.isDirty = true
  · have hnow : ¬ w.surface.rect.HasPixel px py := fun hin => hout ⟨hdirty, Or.inl hin⟩
    have hthen : ¬ old.surface.rect.HasPixel px py := by
      rw [← h.prevRect]
      exact fun hin => hout ⟨hdirty, Or.inr hin⟩
    rw [pixelStep, pixelStep, if_neg fun hin => hnow hin.2, if_neg fun hin => hthen hin.2]
  · exact pixelStep_congr h.invisible h.transparent (h.clean (by simpa using hdirty)) px py st

theorem foldl_pixelStep_tracked {olds ws : List Window} (h : List.Forall₂ Tracked olds ws)
    {px py : Int} (hout : ∀ w ∈ ws, ¬ (w.isDirty = true ∧
      (w.surface.rect.HasPixel px py ∨ w.winPrevRect.HasPixel px py)))
    (st : UInt32 × Coverage) :
    ws.foldl (fun st v => pixelStep px py v st) st =
      olds.foldl (fun st v => pixelStep px py v st) st := by
  induction h generalizing st with
  | nil => rfl
  | cons htracked _ ih =>
      obtain ⟨hhead, htail⟩ := List.forall_mem_cons.mp hout
      rw [List.foldl_cons, List.foldl_cons, htracked.pixelStep_eq hhead]
      exact ih htail _

/-- The painter's colour does not depend on the colour below once the root covers the
pixel. -/
theorem painterPixel_of_covers {root : Window} {px py : Int}
    (hvis : root.isInvisible = false) (hin : root.surface.rect.HasPixel px py)
    (old color : UInt32) : painterPixel root px py old = painterPixel root px py color := by
  have hmem : root ∈ root.paintOrder.filter (visibleAt px py) := by
    apply List.mem_filter.mpr
    refine ⟨?_, (visibleAt_iff px py root).mpr ⟨hvis, hin⟩⟩
    cases root with
    | mk flags surface prev windows =>
        exact List.mem_append_right _ (List.mem_singleton_self _)
  unfold painterPixel paintedAt
  cases hlist : root.paintOrder.filter (visibleAt px py) with
  | nil =>
      rw [hlist] at hmem
      cases hmem
  | cons w ws =>
      rw [cutAtOpaque]
      split_ifs <;> rfl

theorem painterPixel_eq_foldl (root : Window) (px py : Int) (old : UInt32) :
    painterPixel root px py old =
      (root.paintOrder.foldl (fun st v => pixelStep px py v st) (old, .unpainted)).1 :=
  (foldl_pixelStep_unpainted root.paintOrder px py old).symm

namespace Pending

variable {c : Compositor} {oldRoot oldMouse root mouse : Window} {px py : Int}

theorem frameRegions_positive (h : Pending c oldRoot oldMouse root mouse) :
    ∀ r ∈ frameRegions root mouse, r.rect.Positive := by
  intro r hr
  rcases List.mem_append.mp hr with hr | hr
  · obtain ⟨w, hw, hrect | hrect⟩ := mem_dirtyRegions root false r hr
    · rw [hrect]
      exact h.sized w hw
    · rw [hrect]
      exact prevRect_positive h.windows h.oldSized w hw
  · split_ifs at hr
    · rw [List.mem_singleton.mp hr]
      change mouse.winPrevRect.Positive
      rw [h.pointer.prevRect]
      exact h.pointerSized
    · cases hr

/-- Where the mouse was, a move adds a region. -/
theorem not_prevRect_of_no_region (hdirty : mouse.isDirty = true)
    (hnone : regionTag root mouse px py = none) : ¬ mouse.winPrevRect.HasPixel px py := by
  intro hin
  simp [regionTag, frameRegions, lastTag, hdirty, hin] at hnone

/-- A pixel that nothing touched and no region covers should look as before. -/
theorem screenPixel_eq (h : Pending c oldRoot oldMouse root mouse)
    (hnone : regionTag root mouse px py = none) (hout : ¬ Touched root mouse px py) :
    screenPixel root mouse px py = screenPixel oldRoot oldMouse px py := by
  have hwindows : ∀ w ∈ root.paintOrder, ¬ (w.isDirty = true ∧
      (w.surface.rect.HasPixel px py ∨ w.winPrevRect.HasPixel px py)) :=
    fun w hw htouch => hout (Or.inr ⟨w, hw, htouch⟩)
  have hroot : painterPixel root px py 0 = painterPixel oldRoot px py 0 := by
    rw [painterPixel_eq_foldl, painterPixel_eq_foldl,
      foldl_pixelStep_tracked h.windows hwindows]
  unfold screenPixel
  by_cases hdirty : mouse.isDirty = true
  · have hnow : ¬ mouse.surface.rect.HasPixel px py := fun hin => hout (Or.inl ⟨hdirty, hin⟩)
    have hthen : ¬ oldMouse.surface.rect.HasPixel px py := by
      rw [← h.pointer.prevRect]
      exact not_prevRect_of_no_region hdirty hnone
    rw [if_neg hnow, if_neg hthen, hroot]
  · rw [h.pointer.clean (by simpa using hdirty), hroot]

end Pending

theorem rect_render (c : Compositor) (root mouse : Window) :
    (c.render root mouse).1.fSurface.rect = c.fSurface.rect := by
  simp only [Compositor.render]
  split_ifs
  · rfl
  · exact rect_copyToFront _ _ _

/-- A frame brings the screen up to date exactly when every pixel of it is settled. -/
theorem render_shows_iff {c : Compositor} {oldRoot oldMouse root mouse : Window}
    (h : Pending c oldRoot oldMouse root mouse) :
    Shows (c.render root mouse).1.fSurface root mouse ↔
      ∀ px py, c.fSurface.rect.HasPixel px py →
        Settled c.bSurface oldRoot oldMouse root mouse px py := by
  unfold Shows
  rw [rect_render]
  apply forall_congr'
  intro px
  apply forall_congr'
  intro py
  apply forall_congr'
  intro hin
  rw [Compositor.render_pixelAt h.sized h.frameRegions_positive h.noOverflow hin, Settled]
  have hroot : ∀ old, painterPixel root px py old = painterPixel root px py 0 :=
    fun old => painterPixel_of_covers h.rootVisible (h.rootRect ▸ hin) old 0
  cases htag : regionTag root mouse px py with
  | none =>
      dsimp only
      rw [h.shown px py hin]
      constructor
      · intro hshow _
        exact hshow.symm
      · intro hsettled
        by_cases htouch : Touched root mouse px py
        · exact (hsettled htouch).symm
        · exact (h.screenPixel_eq htag htouch).symm
  | some tag =>
      dsimp only
      unfold screenPixel regionColor
      by_cases hmouse : mouse.surface.rect.HasPixel px py
      · simp only [hmouse, if_true, not_true, false_implies, implies_true]
      · simp only [hmouse, if_false, not_false_eq_true, true_implies]
        split_ifs with htrans
        · simp only [htrans, true_implies]
        · simp only [htrans, Bool.false_eq_true, false_implies, iff_true]
          exact hroot _

/-- A mouse event: the mouse moves unless it would leave the screen, and is marked as
dirty (`CWindow::updateMousePos`). -/
def updateMousePos (screen : Rect) (mouse : Window) (deltaX deltaY : Int) : Window :=
  let x := mouse.surface.rect.getX
  let y := mouse.surface.rect.getY
  let xNew := x + deltaX
  let yNew := y - deltaY
  (mouse.setPosition (if 0 ≤ xNew ∧ xNew < screen.getWidth then xNew else x)
    (if 0 ≤ yNew ∧ yNew < screen.getHeight then yNew else y)).setFlags windowFlagsDirty

theorem setDirty_and (flags field : UInt32) :
    (flags ||| windowFlagsDirty) &&& field =
      (flags &&& field) ||| (windowFlagsDirty &&& field) := by
  apply UInt32.toBitVec_inj.mp
  ext i hi
  simp [Bool.and_or_distrib_right]

theorem isDirty_setFlags (w : Window) : (w.setFlags windowFlagsDirty).isDirty = true := by
  cases w with
  | mk flags surface prev windows =>
      have hself : (flags ||| windowFlagsDirty) &&& windowFlagsDirty = windowFlagsDirty := by
        apply UInt32.toBitVec_inj.mp
        ext i hi
        simp only [UInt32.toBitVec_and, UInt32.toBitVec_or, BitVec.getElem_and,
          BitVec.getElem_or]
        grind
      change ((flags ||| windowFlagsDirty) &&& windowFlagsDirty != 0) = true
      rw [hself]
      rfl

/-- Moving the mouse leaves it as a frame expects to find it. -/
theorem updateMousePos_tracked {mouse : Window} (hprev : mouse.winPrevRect = mouse.surface.rect)
    (screen : Rect) (deltaX deltaY : Int) :
    Tracked mouse (updateMousePos screen mouse deltaX deltaY) := by
  cases mouse with
  | mk flags surface prev windows =>
      refine ⟨?_, ?_, hprev, fun hclean => ?_⟩
      · change ((flags ||| windowFlagsDirty) &&& windowFlagsInvisible != 0) = _
        rw [setDirty_and, show windowFlagsDirty &&& windowFlagsInvisible = 0 from rfl,
          UInt32.or_zero]
        rfl
      · change ((flags ||| windowFlagsDirty) &&& windowFlagsTransparent != 0) = _
        rw [setDirty_and, show windowFlagsDirty &&& windowFlagsTransparent = 0 from rfl,
          UInt32.or_zero]
        rfl
      · rw [updateMousePos, isDirty_setFlags] at hclean
        cases hclean

theorem size_two_pixels (a b : UInt32) :
    #[a, b].size = ((⟨0, 0, 2, 1⟩ : Rect).getWidth * (⟨0, 0, 2, 1⟩ : Rect).getHeight).toNat := rfl

/-- A desktop of two pixels, and a pointer of one pixel that moves right by one. -/
def desktop (flags : UInt32) : Window :=
  .mk flags ⟨⟨0, 0, 2, 1⟩, #[0xff0000ff, 0xff00ff00], size_two_pixels _ _⟩ ⟨0, 0, 2, 1⟩ []

def arrow : Window :=
  .mk 0 ⟨⟨0, 0, 1, 1⟩, #[0xffffffff], rfl⟩ ⟨0, 0, 1, 1⟩ []

def arrowMoved : Window := updateMousePos ⟨0, 0, 2, 1⟩ arrow 1 0

/-- The compositor that has just shown the desktop with the pointer on the left. -/
def desktopShown : Compositor where
  fSurface := ⟨⟨0, 0, 2, 1⟩, #[0xffffffff, 0xff00ff00], rfl⟩
  bSurface := ⟨⟨0, 0, 2, 1⟩, #[0xffffffff, 0xff00ff00], rfl⟩
  fRenderClips := {clippedRects := []}
  bRenderClips := {clippedRects := []}
  origin := ⟨rfl, rfl⟩
  sameRect := rfl
  idle := rfl

theorem mem_desktop_rect {px py : Int} :
    Rect.HasPixel ⟨0, 0, 2, 1⟩ px py ↔ (px = 0 ∨ px = 1) ∧ py = 0 := by
  simp only [Rect.HasPixel, Rect.getLeft, Rect.getRight, Rect.getTop, Rect.getBottom]
  omega

theorem addClippedRegion_empty (rect : Rect) (win : Window) :
    ({clippedRects := []} : ClipRegions Window).addClippedRegion rect win =
      {clippedRects := [⟨rect, win⟩]} := by
  rw [addClippedRegion, removeClippedRegion, splitOverlapping_end rfl]
  rfl

theorem drawn_desktop_clean :
    (desktopShown.drawn (desktop 0) arrowMoved).bRenderClips = {clippedRects := []} := by
  have hclips : (desktopShown.mousePass (desktop 0) arrowMoved).1 =
      {clippedRects := [⟨⟨0, 0, 1, 1⟩, arrowMoved.resetFlags windowFlagsDirty⟩]} :=
    addClippedRegion_empty _ _
  rw [Compositor.drawn, hclips]
  change removeClippedRegion {clippedRects := [⟨⟨0, 0, 1, 1⟩, _⟩]} ⟨0, 0, 2, 1⟩ = _
  rw [removeClippedRegion, splitOverlapping_hit rfl rfl, splitOverlapping_end rfl]
  rfl

theorem drawn_desktop_dirty :
    (desktopShown.drawn (desktop windowFlagsDirty) arrowMoved).bRenderClips =
      {clippedRects := []} := by
  have hroot : (desktopShown.windowPass (desktop windowFlagsDirty)).1 =
      {clippedRects := [⟨⟨0, 0, 2, 1⟩, desktop 0⟩]} := by
    change (({clippedRects := []} : ClipRegions Window).addClippedRegion
      ⟨0, 0, 2, 1⟩ (desktop 0)).addClippedRegion ⟨0, 0, 2, 1⟩ (desktop 0) = _
    rw [addClippedRegion_empty, addClippedRegion, removeClippedRegion,
      splitOverlapping_hit rfl rfl, splitOverlapping_end rfl]
    rfl
  have hclips : (desktopShown.mousePass (desktop windowFlagsDirty) arrowMoved).1 =
      {clippedRects := [⟨⟨1, 0, 1, 1⟩, desktop 0⟩,
        ⟨⟨0, 0, 1, 1⟩, arrowMoved.resetFlags windowFlagsDirty⟩]} := by
    rw [Compositor.mousePass, hroot]
    change (({clippedRects := [⟨⟨0, 0, 2, 1⟩, desktop 0⟩]} :
      ClipRegions Window).removeClippedRegion ⟨0, 0, 1, 1⟩).pushRect _ = _
    rw [removeClippedRegion, splitOverlapping_hit rfl rfl,
      splitOverlapping_miss rfl (by decide), splitOverlapping_end rfl]
    rfl
  rw [Compositor.drawn, hclips]
  change removeClippedRegion {clippedRects := [⟨⟨1, 0, 1, 1⟩, _⟩, ⟨⟨0, 0, 1, 1⟩, _⟩]}
    ⟨0, 0, 2, 1⟩ = _
  rw [removeClippedRegion, splitOverlapping_hit rfl rfl, splitOverlapping_hit rfl rfl,
    splitOverlapping_end rfl]
  rfl

/-- The pointer has moved and the frame that follows does not overflow. -/
theorem desktop_pending {flags : UInt32} (hvis : (desktop flags).isInvisible = false)
    (htrans : (desktop flags).isTransparent = false)
    (hclips : (desktopShown.drawn (desktop flags) arrowMoved).bRenderClips =
      {clippedRects := []}) :
    Pending desktopShown (desktop 0) arrow (desktop flags) arrowMoved where
  shown := by
    intro px py hin
    obtain ⟨rfl | rfl, rfl⟩ := mem_desktop_rect.mp hin
    · rfl
    · rfl
  windows := .cons ⟨hvis, htrans, rfl, fun _ => rfl⟩ .nil
  pointer := updateMousePos_tracked rfl _ _ _
  rootVisible := hvis
  rootRect := rfl
  oldSized := by
    intro w hw
    rw [List.mem_singleton.mp hw]
    decide
  sized := by
    intro w hw
    rw [List.mem_singleton.mp hw]
    change Rect.Positive ⟨0, 0, 2, 1⟩
    decide
  pointerSized := by decide
  noOverflow := by rw [hclips]

/-- With the desktop marked as dirty as well, the frame shows the moved pointer. -/
theorem render_shows_dirty_desktop :
    Shows (desktopShown.render (desktop windowFlagsDirty) arrowMoved).1.fSurface
      (desktop windowFlagsDirty) arrowMoved := by
  apply (render_shows_iff (desktop_pending rfl rfl drawn_desktop_dirty)).mpr
  intro px py hin
  obtain ⟨rfl | rfl, rfl⟩ := mem_desktop_rect.mp hin
  · intro htrans
    cases htrans
  · intro htrans
    cases htrans

/-- Alone, the moved pointer does not reach the screen: its new place is not copied. -/
theorem moved_pointer_not_shown :
    Pending desktopShown (desktop 0) arrow (desktop 0) arrowMoved ∧
      arrowMoved.surface.rect.HasPixel 1 0 ∧ arrowMoved.surface.pixelAt 1 0 = 0xffffffff ∧
      (desktopShown.render (desktop 0) arrowMoved).1.fSurface.pixelAt 1 0 = 0xff00ff00 ∧
      ¬ Shows (desktopShown.render (desktop 0) arrowMoved).1.fSurface (desktop 0) arrowMoved := by
  have hpending : Pending desktopShown (desktop 0) arrow (desktop 0) arrowMoved :=
    desktop_pending rfl rfl drawn_desktop_clean
  have hpixel : (desktopShown.render (desktop 0) arrowMoved).1.fSurface.pixelAt 1 0 =
      0xff00ff00 := by
    rw [Compositor.render_pixelAt hpending.sized hpending.frameRegions_positive
      hpending.noOverflow (mem_desktop_rect.mpr ⟨Or.inr rfl, rfl⟩)]
    rfl
  refine ⟨hpending, by decide, rfl, hpixel, ?_⟩
  intro hshows
  have hwant := hshows 1 0 (by rw [rect_render]; decide)
  rw [hpixel] at hwant
  exact absurd hwant (by decide)

end Tellurium.Gui
