import Tellurium.Gui.Render
import Tellurium.Lib.Run

/-!
The pointer over many frames (`CWindow::updateMousePos` and `Compositor::render`), while the windows
stay as they are. Only the place that the pointer leaves is a region of a frame, so it is drawn
where its new rectangle meets the one of the frame before.
-/

namespace Tellurium.Gui

open Lib

inductive PointerStep where
  | move (deltaX deltaY : Int)
  | frame

structure Desk where
  compositor : Compositor
  root : Window
  mouse : Window

namespace Desk

def render (s : Desk) : Desk :=
  ⟨(s.compositor.render s.root s.mouse).1, (s.compositor.render s.root s.mouse).2.1,
    (s.compositor.render s.root s.mouse).2.2⟩

def step (s : Desk) : PointerStep → Desk
  | .move deltaX deltaY =>
      {s with mouse := updateMousePos s.compositor.fSurface.rect s.mouse deltaX deltaY}
  | .frame => s.render

def after (s : Desk) (steps : List PointerStep) : Desk := steps.foldl step s

/-- The clip lists of a frame are large enough. -/
def Fits (s : Desk) : PointerStep → Prop
  | .move _ _ => True
  | .frame => (s.compositor.drawn s.root s.mouse).bRenderClips.lost = false

end Desk

def Window.Clean (w : Window) : Prop := ∀ v ∈ w.paintOrder, v.isDirty = false

mutual

/-- Nothing of a clean tree is drawn anew. -/
theorem dirtyRegions_of_clean (w : Window) (hclean : ∀ v ∈ w.paintOrder, v.isDirty = false)
    (covered : Bool) : dirtyRegions w covered = [] ∧ refreshed w = w := by
  cases w with
  | mk flags surface prev windows =>
      rw [Window.paintOrder] at hclean
      obtain ⟨hchildren, hself⟩ := List.forall_mem_append.mp hclean
      have hnot : ¬ (Window.mk flags surface prev windows).isDirty = true := by
        rw [hself _ (List.mem_singleton_self _)]
        exact Bool.false_ne_true
      obtain ⟨hregions, hsame⟩ := dirtyChildRegions_of_clean windows hchildren covered
      rw [dirtyRegions, refreshed, if_neg hnot, if_neg hnot, hregions, hsame]
      exact ⟨rfl, rfl⟩

theorem dirtyChildRegions_of_clean (ws : List Window)
    (hclean : ∀ v ∈ Window.paintChildren ws, v.isDirty = false) (covered : Bool) :
    dirtyChildRegions ws covered = [] ∧ refreshedChildren ws = ws := by
  cases ws with
  | nil => exact ⟨rfl, rfl⟩
  | cons w ws =>
      rw [Window.paintChildren] at hclean
      obtain ⟨hrest, hfirst⟩ := List.forall_mem_append.mp hclean
      obtain ⟨hregions, hsame⟩ := dirtyRegions_of_clean w hfirst covered
      obtain ⟨hregions', hsame'⟩ := dirtyChildRegions_of_clean ws hrest covered
      rw [dirtyChildRegions, refreshedChildren, hregions, hregions', hsame, hsame']
      exact ⟨rfl, rfl⟩

end

theorem frameRegions_of_clean {root mouse : Window} (hclean : root.Clean) :
    frameRegions root mouse =
      if mouse.isDirty then [⟨mouse.winPrevRect, mouse.resetFlags windowFlagsDirty⟩] else [] := by
  rw [frameRegions, (dirtyRegions_of_clean root hclean false).1, List.nil_append]

/-- The mouse after a frame. -/
theorem render_mouse (c : Compositor) (root mouse : Window) :
    (c.render root mouse).2.2 =
      if mouse.isDirty then (mouse.resetFlags windowFlagsDirty).updatePrevRect else mouse := by
  have hpass : (c.mousePass root mouse).2 =
      if mouse.isDirty then (mouse.resetFlags windowFlagsDirty).updatePrevRect else mouse := by
    rw [Compositor.mousePass, createDirtyMouseRegion, Window.isDirty]
    split_ifs
    · rfl
    · rfl
  rw [← hpass, Compositor.render]
  split_ifs
  · rfl
  · rfl

theorem render_root {root : Window} (hclean : root.Clean) (c : Compositor) (mouse : Window) :
    (c.render root mouse).2.1 = root := by
  have hpass : (c.windowPass root).2 = root := by
    rw [windowPass_snd, (dirtyRegions_of_clean root hclean false).2]
  rw [Compositor.render]
  split_ifs
  · exact hpass
  · exact hpass

/-- A frame of a clean tree redraws the place that the pointer had in the frame before. -/
theorem render_pixelAt_of_clean {c : Compositor} {root mouse : Window} {px py : Int}
    (hclean : root.Clean) (hvisible : root.isInvisible = false)
    (hroot : root.surface.rect = c.fSurface.rect)
    (hsized : ∀ w ∈ root.paintOrder, w.surface.rect.Positive)
    (hprev : mouse.winPrevRect.Positive) (hsolid : mouse.isTransparent = false)
    (hlost : (c.drawn root mouse).bRenderClips.lost = false)
    (hin : c.fSurface.rect.HasPixel px py) :
    (c.render root mouse).1.fSurface.pixelAt px py =
      if mouse.isDirty = true ∧ mouse.winPrevRect.HasPixel px py then
        if mouse.surface.rect.HasPixel px py then mouse.surface.pixelAt px py
        else painterPixel root px py 0
      else c.fSurface.pixelAt px py := by
  have hregions : ∀ r ∈ frameRegions root mouse, r.rect.Positive := by
    rw [frameRegions_of_clean hclean]
    intro r hr
    split_ifs at hr
    · rw [List.mem_singleton.mp hr]
      exact hprev
    · exact absurd hr List.not_mem_nil
  have htag : regionTag root mouse px py =
      if mouse.isDirty = true ∧ mouse.winPrevRect.HasPixel px py then
        some (mouse.resetFlags windowFlagsDirty) else none := by
    rw [regionTag, frameRegions_of_clean hclean]
    by_cases hdirty : mouse.isDirty = true
    · by_cases hthere : mouse.winPrevRect.HasPixel px py
      · simp [lastTag, hdirty, hthere]
      · simp [lastTag, hdirty, hthere]
    · simp [lastTag, hdirty]
  rw [Compositor.render_pixelAt hsized hregions hlost hin, htag]
  by_cases hredrawn : mouse.isDirty = true ∧ mouse.winPrevRect.HasPixel px py
  · rw [if_pos hredrawn, if_pos hredrawn]
    have hplain : ¬ (mouse.resetFlags windowFlagsDirty).isTransparent = true := by
      have hkept : (mouse.resetFlags windowFlagsDirty).isTransparent = mouse.isTransparent :=
        getFlag_resetDirty mouse rfl
      rw [hkept, hsolid]
      exact Bool.false_ne_true
    dsimp only
    rw [regionColor, if_neg hplain, painterPixel_of_covers hvisible (hroot ▸ hin) _ 0]
  · rw [if_neg hredrawn, if_neg hredrawn]

theorem refreshed_mouse (mouse : Window) :
    (mouse.resetFlags windowFlagsDirty).updatePrevRect.surface = mouse.surface ∧
      (mouse.resetFlags windowFlagsDirty).updatePrevRect.winPrevRect = mouse.surface.rect ∧
      (mouse.resetFlags windowFlagsDirty).updatePrevRect.isTransparent = mouse.isTransparent := by
  cases mouse with
  | mk flags surface prev windows =>
      refine ⟨rfl, rfl, ?_⟩
      exact getFlag_resetDirty (.mk flags surface prev windows) rfl

theorem winPrevRect_updateMousePos (screen : Rect) (mouse : Window) (deltaX deltaY : Int) :
    (updateMousePos screen mouse deltaX deltaY).winPrevRect = mouse.winPrevRect := by
  cases mouse with
  | mk flags surface prev windows => rfl

theorem updateMousePos_positive {mouse : Window} (hsized : mouse.surface.rect.Positive)
    (screen : Rect) (deltaX deltaY : Int) :
    (updateMousePos screen mouse deltaX deltaY).surface.rect.Positive := by
  cases mouse with
  | mk flags surface prev windows => exact hsized

theorem updateMousePos_isTransparent (screen : Rect) (mouse : Window) (deltaX deltaY : Int) :
    (updateMousePos screen mouse deltaX deltaY).isTransparent = mouse.isTransparent := by
  cases mouse with
  | mk flags surface prev windows =>
      have hprev : (Window.mk flags surface surface.rect windows).winPrevRect =
          (Window.mk flags surface surface.rect windows).surface.rect := rfl
      exact (updateMousePos_tracked hprev screen deltaX deltaY).transparent

namespace Desk

/-- Outside the place that the pointer had in the last frame, the screen shows the windows. -/
structure Untrailed (screen : Rect) (root : Window) (s : Desk) : Prop where
  tree : s.root = root
  area : s.compositor.fSurface.rect = screen
  solid : s.mouse.isTransparent = false
  sized : s.mouse.surface.rect.Positive
  prevSized : s.mouse.winPrevRect.Positive
  windows : ∀ px py, screen.HasPixel px py → ¬ s.mouse.winPrevRect.HasPixel px py →
    s.compositor.fSurface.pixelAt px py = painterPixel root px py 0

/-- What the run needs of the windows: none is dirty, and the root covers the screen. -/
structure Still (screen : Rect) (root : Window) : Prop where
  clean : root.Clean
  visible : root.isInvisible = false
  rect : root.surface.rect = screen
  sized : ∀ w ∈ root.paintOrder, w.surface.rect.Positive

section Runs

variable {screen : Rect} {root : Window} {s : Desk} {px py : Int}

theorem Untrailed.frame (hstill : Still screen root) (h : Untrailed screen root s)
    (hfits : s.Fits .frame) (hin : screen.HasPixel px py) :
    (s.step .frame).compositor.fSurface.pixelAt px py =
      if s.mouse.isDirty = true ∧ s.mouse.winPrevRect.HasPixel px py then
        if s.mouse.surface.rect.HasPixel px py then s.mouse.surface.pixelAt px py
        else painterPixel root px py 0
      else s.compositor.fSurface.pixelAt px py := by
  obtain rfl := h.tree
  exact render_pixelAt_of_clean hstill.clean hstill.visible (hstill.rect.trans h.area.symm)
    hstill.sized h.prevSized h.solid hfits (h.area ▸ hin)

/-- After a move, a frame shows the part of the pointer that lies where it was before. -/
theorem Untrailed.shown (hstill : Still screen root) (h : Untrailed screen root s)
    (hdirty : s.mouse.isDirty = true) (hfits : s.Fits .frame) (hin : screen.HasPixel px py) :
    (s.step .frame).compositor.fSurface.pixelAt px py =
      if s.mouse.winPrevRect.HasPixel px py ∧ s.mouse.surface.rect.HasPixel px py then
        s.mouse.surface.pixelAt px py
      else painterPixel root px py 0 := by
  rw [h.frame hstill hfits hin]
  by_cases hprev : s.mouse.winPrevRect.HasPixel px py
  · simp only [hdirty, hprev, true_and, and_self, if_true]
  · simp only [hprev, and_false, false_and, if_false]
    exact h.windows px py hin hprev

theorem Untrailed.move (h : Untrailed screen root s) (deltaX deltaY : Int) :
    Untrailed screen root (s.step (.move deltaX deltaY)) where
  tree := h.tree
  area := h.area
  solid := (updateMousePos_isTransparent _ _ _ _).trans h.solid
  sized := updateMousePos_positive h.sized _ _ _
  prevSized := by
    change (updateMousePos _ s.mouse deltaX deltaY).winPrevRect.Positive
    rw [winPrevRect_updateMousePos]
    exact h.prevSized
  windows := by
    intro px py hin hout
    apply h.windows px py hin
    rwa [← winPrevRect_updateMousePos s.compositor.fSurface.rect s.mouse deltaX deltaY]

theorem Untrailed.rendered (hstill : Still screen root) (h : Untrailed screen root s)
    (hfits : s.Fits .frame) : Untrailed screen root (s.step .frame) := by
  have hmouse : (s.step .frame).mouse =
      if s.mouse.isDirty then (s.mouse.resetFlags windowFlagsDirty).updatePrevRect
      else s.mouse := render_mouse _ _ _
  have htree : (s.step .frame).root = root := by
    obtain rfl := h.tree
    exact render_root hstill.clean _ _
  have harea : (s.step .frame).compositor.fSurface.rect = screen :=
    (rect_render _ _ _).trans h.area
  by_cases hdirty : s.mouse.isDirty = true
  · rw [if_pos hdirty] at hmouse
    obtain ⟨hsurface, hprev, hsolid⟩ := refreshed_mouse s.mouse
    refine ⟨htree, harea, ?_, ?_, ?_, fun px py hin hout => ?_⟩
    · rw [hmouse, hsolid]
      exact h.solid
    · rw [hmouse, hsurface]
      exact h.sized
    · rw [hmouse, hprev]
      exact h.sized
    · rw [hmouse, hprev] at hout
      rw [h.shown hstill hdirty hfits hin, if_neg fun hthere => hout hthere.2]
  · rw [if_neg hdirty] at hmouse
    refine ⟨htree, harea, hmouse ▸ h.solid, hmouse ▸ h.sized, hmouse ▸ h.prevSized,
      fun px py hin hout => ?_⟩
    rw [hmouse] at hout
    rw [h.frame hstill hfits hin, if_neg fun hthere => hdirty hthere.1]
    exact h.windows px py hin hout

theorem Untrailed.step (hstill : Still screen root) (h : Untrailed screen root s)
    (a : PointerStep) (hfits : s.Fits a) : Untrailed screen root (s.step a) := by
  cases a with
  | move deltaX deltaY => exact h.move deltaX deltaY
  | frame => exact h.rendered hstill hfits

/-- The pointer leaves no trail. However it was moved and however many frames were drawn, the
windows are shown wherever it was not in the last frame. The next frame after a move shows it only
where it overlaps that place, and the windows everywhere else. -/
theorem pointer_leaves_no_trail {steps : List PointerStep} (hstill : Still screen root)
    (hstart : Untrailed screen root s) (hfits : EveryStep Desk.step Desk.Fits s steps)
    (hin : screen.HasPixel px py) :
    (¬ (s.after steps).mouse.winPrevRect.HasPixel px py →
      (s.after steps).compositor.fSurface.pixelAt px py = painterPixel root px py 0) ∧
    ((s.after steps).mouse.isDirty = true → (s.after steps).Fits .frame →
      ((s.after steps).step .frame).compositor.fSurface.pixelAt px py =
        if (s.after steps).mouse.winPrevRect.HasPixel px py ∧
            (s.after steps).mouse.surface.rect.HasPixel px py then
          (s.after steps).mouse.surface.pixelAt px py
        else painterPixel root px py 0) := by
  have hrun : Untrailed screen root (s.after steps) :=
    hfits.inv (Untrailed screen root) (fun s a h hok => h.step hstill a hok) hstart
      (List.prefix_refl steps)
  exact ⟨hrun.windows px py hin, fun hdirty hfit => hrun.shown hstill hdirty hfit hin⟩

/-- The pointer of one pixel moves to the right, and the frame shows the desktop where it was. -/
theorem pointer_leaves_no_trail_arrow :
    (Desk.step ⟨desktopShown, desktop 0, arrowMoved⟩ .frame).compositor.fSurface.pixelAt 0 0 =
      0xff0000ff := by
  have hstill : Still ⟨0, 0, 2, 1⟩ (desktop 0) := by
    refine ⟨?_, rfl, rfl, ?_⟩
    · intro w hw
      rw [List.mem_singleton.mp hw]
      rfl
    · intro w hw
      rw [List.mem_singleton.mp hw]
      change Rect.Positive ⟨0, 0, 2, 1⟩
      decide
  have hstart : Untrailed ⟨0, 0, 2, 1⟩ (desktop 0) ⟨desktopShown, desktop 0, arrow⟩ := by
    refine ⟨rfl, rfl, rfl, by decide, by decide, fun px py hin hout => ?_⟩
    obtain ⟨rfl | rfl, rfl⟩ := mem_desktop_rect.mp hin
    · exact absurd (by decide) hout
    · rfl
  have hfits : Desk.Fits ⟨desktopShown, desktop 0, arrowMoved⟩ .frame := by
    rw [Fits, drawn_desktop_clean]
  have hrun : EveryStep Desk.step Desk.Fits ⟨desktopShown, desktop 0, arrow⟩ [.move 1 0] :=
    ⟨trivial, trivial⟩
  have hin : Rect.HasPixel ⟨0, 0, 2, 1⟩ 0 0 := mem_desktop_rect.mpr ⟨.inl rfl, rfl⟩
  exact ((pointer_leaves_no_trail hstill hstart hrun hin).2 rfl hfits).trans rfl

end Runs

end Desk

end Tellurium.Gui
