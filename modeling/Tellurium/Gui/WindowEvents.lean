import Tellurium.Gui.WindowStack
import Tellurium.Lib.FocusChain
import Tellurium.LibTellur.DevPoll

/-!
Mouse events in the window tree (`libGUI/Window.cpp`, with the callbacks that
`libGUI/Button.cpp` and `libGUI/MenuBar.cpp` override). An event enters at the root and is
handed down to the child under the mouse. `hoverWindow` and `selectedWindow` are treated by
the same code, so both are one pointer `focused` here.

Recursion is bounded by fuel; a result `none` is a recursion that is too deep, or the null
dereference of a menu bar that is dragged without a parent.
-/

namespace Tellurium.Gui

open Lib DevPoll Relation

def windowFlagsDecoration : UInt32 := 0x01
def buttonFlagsHover : UInt32 := 0x2

namespace WindowHeap

def setFocused (h : WindowHeap) (f : Focus) (w : Nat) (child : Option Nat) : WindowHeap :=
  {h with focused := Function.update h.focused f (Function.update (h.focused f) w child)}

def called (h : WindowHeap) (f : Focus) (w : Nat) (callback : Callback) : WindowHeap :=
  {h with lastCall :=
    Function.update h.lastCall f (Function.update (h.lastCall f) w (some callback))}

def onWindowHover (h : WindowHeap) (w : Nat) : WindowHeap :=
  let h := h.called .hover w .enter
  match h.kind w with
  | .button buttonFlags imgHover =>
      if buttonFlags &&& buttonFlagsHover = 0 then h
      else if imgHover then h.setFlags w windowFlagsDirty else h
  | _ => h

def onWindowUnhover (h : WindowHeap) (w : Nat) : WindowHeap :=
  let h := h.called .hover w .leave
  match h.kind w with
  | .button buttonFlags _ =>
      if buttonFlags &&& buttonFlagsHover = 0 then h else h.setFlags w windowFlagsDirty
  | _ => h

def onWindowSelect (h : WindowHeap) (w : Nat) : WindowHeap := h.called .select w .enter

def onWindowUnselect (h : WindowHeap) (w : Nat) : WindowHeap := h.called .select w .leave

def onEnter (h : WindowHeap) : Focus → Nat → WindowHeap
  | .hover, w => h.onWindowHover w
  | .select, w => h.onWindowSelect w

def onLeave (h : WindowHeap) : Focus → Nat → WindowHeap
  | .hover, w => h.onWindowUnhover w
  | .select, w => h.onWindowUnselect w

/-- `onSubtreeUnhover` and `onSubtreeUnselect`. -/
def onSubtreeLeave (f : Focus) : Nat → Nat → WindowHeap → Option WindowHeap
  | 0, _, _ => none
  | fuel + 1, w, h =>
      let h := h.onLeave f w
      let left := match h.focused f w with
        | some child => onSubtreeLeave f fuel child h
        | none => some h
      left.map fun h => h.setFocused f w none

def onSubtreeUnhover := onSubtreeLeave .hover
def onSubtreeUnselect := onSubtreeLeave .select

def isCoordInBounds (h : WindowHeap) (w : Nat) (x y : Int) : Bool :=
  decide ((h.rect w).getX ≤ x ∧ x ≤ (h.rect w).getX + (h.rect w).getWidth ∧
    (h.rect w).getY ≤ y ∧ y ≤ (h.rect w).getY + (h.rect w).getHeight)

/-- The loop of `getWindowUnderMouse`, with `i` slots left to look at. -/
def scanUnderMouse (h : WindowHeap) (this : Nat) (x y : Int) : Nat → Option Nat
  | 0 => none
  | i + 1 =>
      if h.isCoordInBounds (h.windows this i) x y then some (h.windows this i)
      else scanUnderMouse h this x y i

def getWindowUnderMouse (h : WindowHeap) (this : Nat) (x y : Int) : Option Nat :=
  h.scanUnderMouse this x y (h.numWindows this)

def setX (h : WindowHeap) (w : Nat) (x : Int) : WindowHeap :=
  {h with rect := Function.update h.rect w {h.rect w with x := x}}

def setY (h : WindowHeap) (w : Nat) (y : Int) : WindowHeap :=
  {h with rect := Function.update h.rect w {h.rect w with y := y}}

def updateChildPositions (data : Ps2.MouseData) : Nat → Nat → WindowHeap → Option WindowHeap
  | 0, _, _ => none
  | fuel + 1, w, h => do
      let h ← (h.children w).foldlM (fun h child => updateChildPositions data fuel child h) h
      let h := h.setX w ((h.rect w).getX + data.deltaX)
      some (h.setY w ((h.rect w).getY - data.deltaY))

/-- Only `MenuBar` overrides this callback. -/
def onWindowDrag (depth : Nat) (h : WindowHeap) (w : Nat) (data : Ps2.MouseData) :
    Option WindowHeap :=
  match h.kind w with
  | .menuBar => do
      let parent ← h.parent w
      let h ← updateChildPositions data depth parent h
      some (h.setFlags parent windowFlagsDirty)
  | _ => some h

/-- The cases `MouseMove` and `MouseLeftClick` of `onEvent`, up to the assignment of the
pointer. -/
def moveFocus (depth : Nat) (f : Focus) (h : WindowHeap) (w : Nat) (childWindow : Option Nat) :
    Option WindowHeap :=
  let h := h.onEnter f w
  let left := match h.focused f w with
    | some old => if childWindow ≠ some old then onSubtreeLeave f depth old h else some h
    | none => some h
  left.map fun h => h.setFocused f w childWindow

/-- The end of the case `MouseLeftClick`: a decorated window asks its parent to raise it. -/
def raise (h : WindowHeap) (w : Nat) : WindowHeap :=
  match h.parent w with
  | some parent => if h.getFlag w windowFlagsDecoration then (h.moveToTop parent w).2 else h
  | none => h

/-- The `switch` of `onEvent`. `onWindowRelease` does nothing. -/
def handle (depth : Nat) (event : TellurEvent) (h : WindowHeap) (w : Nat)
    (childWindow : Option Nat) : Option WindowHeap :=
  match event.type with
  | .mouseMove => moveFocus depth .hover h w childWindow
  | .mouseMoveClick => onWindowDrag depth h w event.data
  | .mouseLeftClick => do
      let h ← moveFocus depth .select h w childWindow
      some (h.raise w)
  | .mouseLeftRelease | .mouseDefault | .keyboardDefault | .default => some h

/-- `onEvent` with the mouse at `x`, `y`. -/
def onEvent (depth : Nat) (event : TellurEvent) (x y : Int) :
    Nat → Nat → WindowHeap → Option WindowHeap
  | 0, _, _ => none
  | fuel + 1, w, h => do
      let childWindow := h.getWindowUnderMouse w x y
      let h ← handle depth event h w childWindow
      match childWindow with
      | some child => onEvent depth event x y fuel child h
      | none => some h

/-! What the pointers say about the tree. -/

def IsChild (h : WindowHeap) (p c : Nat) : Prop := c ∈ h.children p

def Within (h : WindowHeap) : Nat → Nat → Prop := ReflTransGen h.IsChild

def On (h : WindowHeap) (f : Focus) (w : Nat) : Prop := h.lastCall f w = some .enter

def IdleAt (h : WindowHeap) (f : Focus) (w : Nat) : Prop :=
  Idle h.IsChild (h.focused f) (h.On f) w

def FocusedAt (h : WindowHeap) (f : Focus) (w : Nat) : Prop :=
  Focused h.IsChild (h.focused f) (h.On f) w

/-- Where the windows are and how they are stacked. -/
structure Layout where
  windowID : Nat → Int
  rect : Nat → Rect
  priority : Nat → Int
  parent : Nat → Option Nat
  windows : Nat → Nat → Nat
  numWindows : Nat → Nat
  kind : Nat → WindowKind

def layout (h : WindowHeap) : Layout :=
  ⟨h.windowID, h.rect, h.priority, h.parent, h.windows, h.numWindows, h.kind⟩

/-- The pointer `f` and the calls that belong to it changed in `S` at most, and those of the
other pointer nowhere. -/
structure Untouched (f : Focus) (h h' : WindowHeap) (S : Nat → Prop) : Prop where
  others : ∀ g, g ≠ f → h'.focused g = h.focused g ∧ h'.lastCall g = h.lastCall g
  outside : ∀ v, ¬ S v → h'.focused f v = h.focused f v ∧ h'.lastCall f v = h.lastCall f v

variable {h h' h'' : WindowHeap} {f : Focus} {w v c p fuel depth : Nat} {S T : Nat → Prop}
  {rank : Nat → Nat} {childWindow : Option Nat} {event : TellurEvent} {x y : Int}

theorem children_of_layout (heq : h'.layout = h.layout) (p : Nat) :
    h'.children p = h.children p := by
  have hwindows : h'.windows = h.windows := congrArg Layout.windows heq
  have hnum : h'.numWindows = h.numWindows := congrArg Layout.numWindows heq
  rw [children, children, hwindows, hnum]

theorem isChild_of_layout (heq : h'.layout = h.layout) : h'.IsChild = h.IsChild := by
  funext p c
  rw [IsChild, IsChild, children_of_layout heq]

theorem Untouched.trans (h₁ : Untouched f h h' S) (h₂ : Untouched f h' h'' S) :
    Untouched f h h'' S := by
  constructor
  · intro g hg
    exact ⟨(h₂.others g hg).1.trans (h₁.others g hg).1, (h₂.others g hg).2.trans (h₁.others g hg).2⟩
  · intro v hv
    exact ⟨(h₂.outside v hv).1.trans (h₁.outside v hv).1,
      (h₂.outside v hv).2.trans (h₁.outside v hv).2⟩

theorem Untouched.mono (hsub : ∀ v, S v → T v) (hun : Untouched f h h' S) : Untouched f h h' T :=
  ⟨hun.others, fun v hv => hun.outside v fun hs => hv (hsub v hs)⟩

/-- What a tree of windows outside `S` sees of the pointer is the same. -/
theorem Untouched.same (hun : Untouched f h h' S) (hapart : ∀ v, h.Within c v → ¬ S v) :
    ∀ v, h.Within c v → h'.focused f v = h.focused f v ∧ (h'.On f v ↔ h.On f v) := by
  intro v hv
  obtain ⟨hfocused, hcall⟩ := hun.outside v (hapart v hv)
  exact ⟨hfocused, by rw [On, On, hcall]⟩

theorem IdleAt.of_untouched (hidle : h.IdleAt f c) (hchild : h'.IsChild = h.IsChild)
    (hun : Untouched f h h' S) (hapart : ∀ v, h.Within c v → ¬ S v) : h'.IdleAt f c := by
  rw [IdleAt, hchild]
  exact hidle.congr (hun.same hapart)

theorem FocusedAt.of_untouched (hfocus : h.FocusedAt f c) (hchild : h'.IsChild = h.IsChild)
    (hun : Untouched f h h' S) (hapart : ∀ v, h.Within c v → ¬ S v) : h'.FocusedAt f c := by
  rw [FocusedAt, hchild]
  exact hfocus.congr (hun.same hapart)

/-- The state of a pointer depends on the windows, the pointers and the last calls only. -/
theorem at_congr (hchild : h'.IsChild = h.IsChild) (hfocused : h'.focused f = h.focused f)
    (hcall : h'.lastCall f = h.lastCall f) (w : Nat) :
    (h'.IdleAt f w ↔ h.IdleAt f w) ∧ (h'.FocusedAt f w ↔ h.FocusedAt f w) := by
  have hon : h'.On f = h.On f := by
    funext v
    rw [On, On, hcall]
  rw [IdleAt, IdleAt, FocusedAt, FocusedAt, hchild, hfocused, hon]
  exact ⟨Iff.rfl, Iff.rfl⟩

theorem setFocused_untouched (h : WindowHeap) (f : Focus) (w : Nat) (childWindow : Option Nat) :
    (h.setFocused f w childWindow).layout = h.layout ∧
      Untouched f h (h.setFocused f w childWindow) (· = w) ∧
      (h.setFocused f w childWindow).focused f w = childWindow := by
  refine ⟨rfl, ⟨fun g hg => ⟨Function.update_of_ne hg _ _, rfl⟩, fun v hv => ⟨?_, rfl⟩⟩, ?_⟩
  · exact (congrFun (Function.update_self ..) v).trans (Function.update_of_ne hv _ _)
  · exact (congrFun (Function.update_self ..) w).trans (Function.update_self ..)

theorem called_untouched (h : WindowHeap) (f : Focus) (w : Nat) (callback : Callback) :
    (h.called f w callback).layout = h.layout ∧ Untouched f h (h.called f w callback) (· = w) ∧
      (h.called f w callback).lastCall f w = some callback := by
  refine ⟨rfl, ⟨fun g hg => ⟨rfl, Function.update_of_ne hg _ _⟩, fun v hv => ⟨rfl, ?_⟩⟩, ?_⟩
  · exact (congrFun (Function.update_self ..) v).trans (Function.update_of_ne hv _ _)
  · exact (congrFun (Function.update_self ..) w).trans (Function.update_self ..)

/-- The callbacks record that they ran; what a button does beyond that is to mark itself
dirty. -/
theorem onEnter_eq (h : WindowHeap) (f : Focus) (w : Nat) :
    ∃ flags, h.onEnter f w = {h.called f w .enter with flags := flags} := by
  cases f with
  | hover =>
      rw [onEnter, onWindowHover]
      dsimp only
      split
      · split_ifs
        · exact ⟨_, rfl⟩
        · exact ⟨_, rfl⟩
        · exact ⟨_, rfl⟩
      · exact ⟨_, rfl⟩
  | select => exact ⟨_, rfl⟩

theorem onLeave_eq (h : WindowHeap) (f : Focus) (w : Nat) :
    ∃ flags, h.onLeave f w = {h.called f w .leave with flags := flags} := by
  cases f with
  | hover =>
      rw [onLeave, onWindowUnhover]
      dsimp only
      split
      · split_ifs
        · exact ⟨_, rfl⟩
        · exact ⟨_, rfl⟩
      · exact ⟨_, rfl⟩
  | select => exact ⟨_, rfl⟩

/-- After a callback at `w`: layout and pointers are the same, and only `w` got a call. -/
structure CalledAt (f : Focus) (h h' : WindowHeap) (w : Nat) (callback : Callback) : Prop where
  layout : h'.layout = h.layout
  focused : h'.focused = h.focused
  untouched : Untouched f h h' (· = w)
  lastCall : h'.lastCall f w = some callback

theorem onEnter_called (h : WindowHeap) (f : Focus) (w : Nat) :
    CalledAt f h (h.onEnter f w) w .enter := by
  obtain ⟨flags, heq⟩ := onEnter_eq h f w
  obtain ⟨hlayout, hun, hcall⟩ := called_untouched h f w .enter
  rw [heq]
  exact ⟨hlayout, rfl, ⟨hun.others, hun.outside⟩, hcall⟩

theorem onLeave_called (h : WindowHeap) (f : Focus) (w : Nat) :
    CalledAt f h (h.onLeave f w) w .leave := by
  obtain ⟨flags, heq⟩ := onLeave_eq h f w
  obtain ⟨hlayout, hun, hcall⟩ := called_untouched h f w .leave
  rw [heq]
  exact ⟨hlayout, rfl, ⟨hun.others, hun.outside⟩, hcall⟩

/-- A window is not inside any of its children. -/
theorem child_apart (hforest : Forest h.IsChild rank) (hc : h.IsChild w c) :
    ∀ v, h.Within c v → ¬ v = w := by
  rintro v hv rfl
  exact hforest.not_within_child hc hv

/-- What a window and its children look like between two events. -/
structure Settled (f : Focus) (h : WindowHeap) (w : Nat) : Prop where
  isChild : ∀ d, h.focused f w = some d → h.IsChild w d
  next : ∀ d, h.focused f w = some d → h.FocusedAt f d
  beside : ∀ c, h.IsChild w c → h.focused f w ≠ some c → h.IdleAt f c

theorem FocusedAt.settled (hfocus : h.FocusedAt f w) : Settled f h w := by
  cases hfocus with
  | mk isOn isChild next beside => exact ⟨isChild, next, beside⟩

theorem IdleAt.settled (hidle : h.IdleAt f w) : Settled f h w := by
  have hnone := (hidle w .refl).1
  refine ⟨?_, ?_, fun c hc _ => hidle.of_parent hc⟩
  · intro d hd
    rw [hnone] at hd
    cases hd
  · intro d hd
    rw [hnone] at hd
    cases hd

/-- After a callback at `w` and the leaving of the child it pointed to, all of its children are
idle. -/
structure Cleared (f : Focus) (h h' : WindowHeap) (w : Nat) (callback : Callback) : Prop where
  layout : h'.layout = h.layout
  untouched : Untouched f h h' (h.Within w)
  lastCall : h'.lastCall f w = some callback
  idle : ∀ c, h.IsChild w c → h'.IdleAt f c

theorem CalledAt.cleared {callback : Callback} (hforest : Forest h.IsChild rank)
    (hsettled : Settled f h w) (hcalled : CalledAt f h h' w callback)
    (hnone : h.focused f w = none) : Cleared f h h' w callback := by
  refine ⟨hcalled.layout, hcalled.untouched.mono ?_, hcalled.lastCall, ?_⟩
  · rintro v rfl
    exact .refl
  · intro c hc
    have hidle := hsettled.beside c hc (by rw [hnone]; nofun)
    exact hidle.of_untouched (isChild_of_layout hcalled.layout) hcalled.untouched
      (child_apart hforest hc)

theorem CalledAt.cleared_of_leave {callback : Callback} {d : Nat} (hforest : Forest h.IsChild rank)
    (hsettled : Settled f h w) (hcalled : CalledAt f h h' w callback) (hd : h.focused f w = some d)
    (hlayout : h''.layout = h'.layout) (hun : Untouched f h' h'' (h'.Within d))
    (hidle : h''.IdleAt f d) : Cleared f h h'' w callback := by
  have hchild₁ := isChild_of_layout hcalled.layout
  have hchild₂ := isChild_of_layout hlayout
  have hdchild := hsettled.isChild d hd
  rw [Within, hchild₁] at hun
  refine ⟨hlayout.trans hcalled.layout, ?_, ?_, ?_⟩
  · refine (hcalled.untouched.mono ?_).trans (hun.mono fun v hv => .head hdchild hv)
    rintro v rfl
    exact .refl
  · rw [(hun.outside w (hforest.not_within_child hdchild)).2]
    exact hcalled.lastCall
  · intro c hc
    by_cases hcd : c = d
    · rwa [hcd]
    have hne : h.focused f w ≠ some c := by
      rw [hd]
      exact fun heq => hcd (Option.some.inj heq).symm
    have hidle₁ := (hsettled.beside c hc hne).of_untouched hchild₁ hcalled.untouched
      (child_apart hforest hc)
    refine hidle₁.of_untouched hchild₂ hun ?_
    rw [Within, hchild₁]
    exact fun v hv => hforest.siblings_apart hc hdchild hcd hv

/-- The pointer of a cleared window is set last; its children stay idle. -/
theorem Cleared.setFocused {callback : Callback} (hforest : Forest h.IsChild rank)
    (hclear : Cleared f h h' w callback) (childWindow : Option Nat) :
    Cleared f h (h'.setFocused f w childWindow) w callback := by
  obtain ⟨hlayout, hun, -⟩ := setFocused_untouched h' f w childWindow
  refine ⟨hlayout.trans hclear.layout, hclear.untouched.trans (hun.mono ?_), hclear.lastCall, ?_⟩
  · rintro v rfl
    exact .refl
  · intro c hc
    refine (hclear.idle c hc).of_untouched (isChild_of_layout hlayout) hun ?_
    rw [Within, isChild_of_layout hclear.layout]
    exact child_apart hforest hc

/-- Leaving a focused subtree makes all of it idle and touches nothing else. -/
theorem onSubtreeLeave_spec (hforest : Forest h.IsChild rank) (hfuel : rank w < fuel)
    (hfocus : h.FocusedAt f w) :
    ∃ h', onSubtreeLeave f fuel w h = some h' ∧ h'.layout = h.layout ∧
      Untouched f h h' (h.Within w) ∧ h'.IdleAt f w := by
  induction fuel generalizing h w with
  | zero => exact absurd hfuel (Nat.not_lt_zero _)
  | succ fuel ih =>
      obtain ⟨h₁, hh₁⟩ : ∃ h₁, h.onLeave f w = h₁ := ⟨_, rfl⟩
      have hcalled := onLeave_called h f w
      rw [hh₁] at hcalled
      have hchild₁ := isChild_of_layout hcalled.layout
      have hsettled := hfocus.settled
      -- the heap before `hoverWindow = nullptr`
      obtain ⟨h₂, hstep, hclear⟩ : ∃ h₂, (match h₁.focused f w with
          | some child => onSubtreeLeave f fuel child h₁
          | none => some h₁) = some h₂ ∧ Cleared f h h₂ w .leave := by
        rw [hcalled.focused]
        cases hold : h.focused f w with
        | none => exact ⟨h₁, rfl, hcalled.cleared hforest hsettled hold⟩
        | some d =>
            have hd := hsettled.isChild d hold
            have hnext := (hsettled.next d hold).of_untouched hchild₁ hcalled.untouched
              (child_apart hforest hd)
            have hrank := hforest.rank_lt hd
            obtain ⟨h₂, heq, hlayout, hun, hidle⟩ := ih (hchild₁ ▸ hforest) (by omega) hnext
            exact ⟨h₂, heq, hcalled.cleared_of_leave hforest hsettled hold hlayout hun hidle⟩
      have hclear := hclear.setFocused hforest none
      have hchild₂ := isChild_of_layout hclear.layout
      refine ⟨_, ?_, hclear.layout, hclear.untouched, ?_⟩
      · rw [onSubtreeLeave, hh₁]
        rw [hstep]
        rfl
      · refine Idle.of_children (setFocused_untouched h₂ f w none).2.2 ?_ ?_
        · rw [On, hclear.lastCall]
          nofun
        · rw [hchild₂]
          intro c hc
          have hidle := hclear.idle c hc
          rwa [IdleAt, hchild₂] at hidle

/-- After `moveFocus` the window is on and points to `childWindow`; the other children are
idle, and `childWindow` is as it was or idle. -/
theorem moveFocus_spec (hforest : Forest h.IsChild rank) (hdepth : rank w ≤ depth)
    (hsettled : Settled f h w) (childWindow : Option Nat) :
    ∃ h', moveFocus depth f h w childWindow = some h' ∧ h'.layout = h.layout ∧
      Untouched f h h' (h.Within w) ∧ h'.On f w ∧ h'.focused f w = childWindow ∧
      ∀ c, h.IsChild w c → h'.IdleAt f c ∨ childWindow = some c ∧ h'.FocusedAt f c := by
  obtain ⟨h₁, hh₁⟩ : ∃ h₁, h.onEnter f w = h₁ := ⟨_, rfl⟩
  have hcalled := onEnter_called h f w
  rw [hh₁] at hcalled
  have hchild₁ := isChild_of_layout hcalled.layout
  by_cases hkeep : ∃ d, h.focused f w = some d ∧ childWindow = some d
  · -- the mouse stays on the same child: nothing is left
    obtain ⟨d, hd, rfl⟩ := hkeep
    obtain ⟨hlayout, hun, hset⟩ := setFocused_untouched h₁ f w (some d)
    have hchild := isChild_of_layout (hlayout.trans hcalled.layout)
    have hunw := hcalled.untouched.trans hun
    refine ⟨_, ?_, hlayout.trans hcalled.layout, hunw.mono ?_, hcalled.lastCall, hset, ?_⟩
    · rw [moveFocus, hh₁]
      rw [hcalled.focused, hd]
      dsimp only
      rw [if_neg (not_not_intro rfl)]
      rfl
    · rintro v rfl
      exact .refl
    · intro c hc
      by_cases hcd : c = d
      · subst hcd
        exact .inr ⟨rfl, (hsettled.next c hd).of_untouched hchild hunw (child_apart hforest hc)⟩
      · have hne : h.focused f w ≠ some c := by
          rw [hd]
          exact fun heq => hcd (Option.some.inj heq).symm
        exact .inl ((hsettled.beside c hc hne).of_untouched hchild hunw (child_apart hforest hc))
  · obtain ⟨h₂, hstep, hclear⟩ : ∃ h₂, (match h₁.focused f w with
        | some old => if childWindow ≠ some old then onSubtreeLeave f depth old h₁ else some h₁
        | none => some h₁) = some h₂ ∧ Cleared f h h₂ w .enter := by
      rw [hcalled.focused]
      cases hold : h.focused f w with
      | none => exact ⟨h₁, rfl, hcalled.cleared hforest hsettled hold⟩
      | some d =>
          have hd := hsettled.isChild d hold
          have hnext := (hsettled.next d hold).of_untouched hchild₁ hcalled.untouched
            (child_apart hforest hd)
          have hrank := hforest.rank_lt hd
          obtain ⟨h₂, heq, hlayout, hun, hidle⟩ :=
            onSubtreeLeave_spec (hchild₁ ▸ hforest) (by omega : rank d < depth) hnext
          refine ⟨h₂, ?_, hcalled.cleared_of_leave hforest hsettled hold hlayout hun hidle⟩
          exact (if_pos fun hsame => hkeep ⟨d, hold, hsame⟩).trans heq
    have hclear := hclear.setFocused hforest childWindow
    refine ⟨_, ?_, hclear.layout, hclear.untouched, hclear.lastCall,
      (setFocused_untouched h₂ f w childWindow).2.2, fun c hc => .inl (hclear.idle c hc)⟩
    rw [moveFocus, hh₁]
    rw [hstep]
    rfl

/-! Raising a window under the mouse. -/

theorem getWindowUnderMouse_eq_find (h : WindowHeap) (p : Nat) (x y : Int) :
    h.getWindowUnderMouse p x y = (h.children p).reverse.find? fun w => h.isCoordInBounds w x y := by
  rw [getWindowUnderMouse, children]
  induction h.numWindows p with
  | zero => rfl
  | succ n ih =>
      have hslots : slots (h.windows p) (n + 1) = slots (h.windows p) n ++ [h.windows p n] := by
        simp [slots, List.range_succ]
      rw [scanUnderMouse, hslots, List.reverse_append, List.reverse_singleton,
        List.singleton_append, List.find?_cons, ih]
      split_ifs with hin
      · rw [hin]
      · rw [Bool.eq_false_iff.mpr hin]

/-- The scan finds `w` if it is in bounds and nothing above it is. -/
theorem getWindowUnderMouse_eq_some_iff : h.getWindowUnderMouse p x y = some w ↔
    ∃ below above, h.children p = below ++ w :: above ∧ h.isCoordInBounds w x y = true ∧
      ∀ v ∈ above, h.isCoordInBounds v x y = false := by
  rw [getWindowUnderMouse_eq_find, List.find?_eq_some_iff_append]
  constructor
  · rintro ⟨hin, front, back, heq, hfront⟩
    refine ⟨back.reverse, front.reverse, ?_, hin, ?_⟩
    · rw [← List.reverse_reverse (h.children p), heq]
      simp
    · intro v hv
      simpa using hfront v (List.mem_reverse.mp hv)
  · rintro ⟨below, above, heq, hin, habove⟩
    refine ⟨hin, above.reverse, below.reverse, ?_, ?_⟩
    · rw [heq]
      simp
    · intro v hv
      simpa using habove v (List.mem_reverse.mp hv)

theorem isChild_of_underMouse (hunder : h.getWindowUnderMouse p x y = some c) : h.IsChild p c := by
  obtain ⟨below, above, heq, -⟩ := getWindowUnderMouse_eq_some_iff.mp hunder
  rw [IsChild, heq]
  exact List.mem_append_right _ List.mem_cons_self

theorem underMouse_congr (hrect : h'.rect = h.rect) (hchildren : h'.children p = h.children p) :
    h'.getWindowUnderMouse p x y = h.getWindowUnderMouse p x y := by
  have hbounds : ∀ w, h'.isCoordInBounds w x y = h.isCoordInBounds w x y := by
    intro w
    rw [isCoordInBounds, isCoordInBounds, hrect]
  rw [getWindowUnderMouse_eq_find, getWindowUnderMouse_eq_find, hchildren]
  simp only [hbounds]

/-- Stacks may have been reordered inside `S` and beside `w`, so that `w` is still under the
mouse where it was before. -/
structure Restacked (h h' : WindowHeap) (w : Nat) (S : Nat → Prop) : Prop where
  rect : h'.rect = h.rect
  kind : h'.kind = h.kind
  parent : h'.parent = h.parent
  isChild : h'.IsChild = h.IsChild
  ok : ∀ q, h'.StackOk q
  outside : ∀ p, ¬ S p → ¬ h.IsChild p w → h'.children p = h.children p
  under : ∀ p x y, h.getWindowUnderMouse p x y = some w → h'.getWindowUnderMouse p x y = some w

theorem Restacked.refl (hok : ∀ q, h.StackOk q) : Restacked h h w S :=
  ⟨rfl, rfl, rfl, rfl, hok, fun _ _ _ => rfl, fun _ _ _ hunder => hunder⟩

/-- A raised window that was under the mouse still is: what is above it now has a greater
priority, and was above it before. -/
theorem Placed.under (hok : h.StackOk p) (hplaced : Placed h h' p w ((h.children p).erase w))
    (hrect : h'.rect = h.rect) (hunder : h.getWindowUnderMouse p x y = some w) :
    h'.getWindowUnderMouse p x y = some w := by
  obtain ⟨below, above, heq, hin, habove⟩ := getWindowUnderMouse_eq_some_iff.mp hunder
  obtain ⟨below', above', hsib, heq', -, hprio⟩ := hplaced.placed
  have hbounds : ∀ v, h'.isCoordInBounds v x y = h.isCoordInBounds v x y := by
    intro v
    rw [isCoordInBounds, isCoordInBounds, hrect]
  refine getWindowUnderMouse_eq_some_iff.mpr ⟨below', above', heq', (hbounds w).trans hin, ?_⟩
  intro v hv
  have hmem : v ∈ h.children p := List.mem_of_mem_erase (hsib ▸ List.mem_append_right _ hv)
  have hsorted := hok.sorted
  rw [heq] at hmem hsorted
  have hlow := (List.pairwise_append.mp hsorted).2.2
  have hlt := hprio v hv
  rw [hbounds]
  rcases List.mem_append.mp hmem with hv | hv
  · have := hlow v hv w List.mem_cons_self
    omega
  · rcases List.mem_cons.mp hv with rfl | hv
    · exact absurd hlt (lt_irrefl _)
    · exact habove v hv

theorem raise_restacked (hok : ∀ q, h.StackOk q)
    (hroot : h.parent w = none ∨ ∃ p, h.IsChild p w) :
    Restacked h (h.raise w) w S ∧ (h.raise w).focused = h.focused ∧
      (h.raise w).lastCall = h.lastCall := by
  cases hparent : h.parent w with
  | none =>
      rw [raise, hparent]
      exact ⟨.refl hok, rfl, rfl⟩
  | some p =>
      have hw : h.IsChild p w := by
        rcases hroot with hnone | ⟨q, hq⟩
        · rw [hparent] at hnone
          cases hnone
        · have hq' := (hok q).parents w hq
          rw [hparent] at hq'
          rwa [Option.some.inj hq']
      rw [raise, hparent]
      dsimp only
      split_ifs
      · obtain ⟨h', heq, hplaced, hok', hsame, hparent'⟩ := moveToTop_spec hok hw
        rw [heq]
        refine ⟨⟨hsame.rect, hsame.kind, hparent', ?_, hok', ?_, ?_⟩, hsame.focused, hsame.lastCall⟩
        · funext q c
          by_cases hq : q = p
          · subst hq
            obtain ⟨below, above, hsib, hchildren, -⟩ := hplaced.placed
            have hperm : (h'.children q).Perm (h.children q) := by
              rw [hchildren]
              refine List.perm_middle.trans ?_
              rw [← hsib]
              exact (List.perm_cons_erase hw).symm
            exact propext hperm.mem_iff
          · rw [IsChild, IsChild, hplaced.elsewhere q hq]
        · intro q _ hq
          exact hplaced.elsewhere q fun heq => hq (heq ▸ hw)
        · intro q x y hunder
          have hqp := (hok q).parents w (isChild_of_underMouse hunder)
          obtain rfl := Option.some.inj (hparent.symm.trans hqp)
          exact hplaced.under (hok p) hsame.rect hunder
      · exact ⟨.refl hok, rfl, rfl⟩

/-! Events that move a pointer. -/

def focusOf : TellurEventType → Option Focus
  | .mouseMove => some .hover
  | .mouseLeftClick => some .select
  | _ => none

theorem stackOk_of_layout (heq : h'.layout = h.layout) (hok : h.StackOk p) : h'.StackOk p := by
  refine hok.congr (children_of_layout heq p) fun w _ => ⟨?_, ?_, ?_⟩
  · rw [show h'.windowID = h.windowID from congrArg Layout.windowID heq]
  · rw [show h'.parent = h.parent from congrArg Layout.parent heq]
  · rw [show h'.priority = h.priority from congrArg Layout.priority heq]

theorem Restacked.of_layout (heq : h'.layout = h.layout) (hre : Restacked h' h'' w S) :
    Restacked h h'' w S := by
  have hrect : h'.rect = h.rect := congrArg Layout.rect heq
  have hchild := isChild_of_layout heq
  have hchildren := children_of_layout heq
  refine ⟨hre.rect.trans hrect, hre.kind.trans (congrArg Layout.kind heq),
    hre.parent.trans (congrArg Layout.parent heq), hre.isChild.trans hchild, hre.ok, ?_, ?_⟩
  · intro p hp hpw
    rw [← hchild] at hpw
    exact (hre.outside p hp hpw).trans (hchildren p)
  · intro p x y hunder
    apply hre.under p x y
    rwa [underMouse_congr hrect (hchildren p)]

theorem handle_focus (hf : focusOf event.type = some f) (hok : ∀ q, h.StackOk q)
    (hforest : Forest h.IsChild rank) (hdepth : rank w ≤ depth)
    (hroot : h.parent w = none ∨ ∃ p, h.IsChild p w) (hsettled : Settled f h w)
    (childWindow : Option Nat) :
    ∃ h', handle depth event h w childWindow = some h' ∧ Restacked h h' w (fun _ => False) ∧
      Untouched f h h' (h.Within w) ∧ h'.On f w ∧ h'.focused f w = childWindow ∧
      ∀ c, h.IsChild w c → h'.IdleAt f c ∨ childWindow = some c ∧ h'.FocusedAt f c := by
  obtain ⟨h₁, heq, hlayout, hun, hon, hset, hchildren⟩ :=
    moveFocus_spec hforest hdepth hsettled childWindow
  have hok₁ : ∀ q, h₁.StackOk q := fun q => stackOk_of_layout hlayout (hok q)
  cases htype : event.type with
  | mouseMove =>
      rw [htype] at hf
      cases hf
      refine ⟨h₁, ?_, (Restacked.refl hok₁).of_layout hlayout, hun, hon, hset, hchildren⟩
      rw [handle, htype]
      exact heq
  | mouseLeftClick =>
      rw [htype] at hf
      cases hf
      have hroot₁ : h₁.parent w = none ∨ ∃ p, h₁.IsChild p w := by
        rw [isChild_of_layout hlayout, show h₁.parent = h.parent from congrArg Layout.parent hlayout]
        exact hroot
      obtain ⟨hre, hfocused, hcall⟩ := raise_restacked (S := fun _ => False) hok₁ hroot₁
      have hsame : Untouched .select h₁ (h₁.raise w) (fun _ => False) := by
        constructor
        · exact fun g _ => ⟨congrFun hfocused g, congrFun hcall g⟩
        · exact fun v _ => ⟨by rw [hfocused], by rw [hcall]⟩
      refine ⟨h₁.raise w, ?_, hre.of_layout hlayout, hun.trans (hsame.mono nofun), ?_, ?_, ?_⟩
      · rw [handle, htype]
        dsimp only
        rw [heq]
        rfl
      · rw [On, hcall]
        exact hon
      · rw [hfocused]
        exact hset
      · intro c hc
        rcases hchildren c hc with hidle | ⟨hcw, hfocus⟩
        · exact .inl (hidle.of_untouched hre.isChild hsame fun _ _ => id)
        · exact .inr ⟨hcw, hfocus.of_untouched hre.isChild hsame fun _ _ => id⟩
  | _ =>
      rw [htype] at hf
      cases hf

/-- A delivered `MouseMove` or `MouseLeftClick` leaves the subtree focused along the windows
under the mouse. -/
theorem onEvent_focus (hf : focusOf event.type = some f) (hok : ∀ q, h.StackOk q)
    (hforest : Forest h.IsChild rank) (hdepth : rank w ≤ depth) (hfuel : rank w < fuel)
    (hroot : h.parent w = none ∨ ∃ p, h.IsChild p w) (hsettled : Settled f h w) :
    ∃ h', onEvent depth event x y fuel w h = some h' ∧ Restacked h h' w (h.Within w) ∧
      Untouched f h h' (h.Within w) ∧ h'.FocusedAt f w ∧
      ∀ v, OnChain (h'.focused f) w v → h'.focused f v = h'.getWindowUnderMouse v x y := by
  induction fuel generalizing h w with
  | zero => exact absurd hfuel (Nat.not_lt_zero _)
  | succ fuel ih =>
      obtain ⟨h₂, heq, hre, hun, hon, hset, hchildren⟩ := handle_focus hf hok hforest hdepth
        hroot hsettled (h.getWindowUnderMouse w x y)
      have hself : ¬ h.IsChild w w := fun hw => Nat.lt_irrefl _ (hforest.rank_lt hw)
      have hunder₂ : h₂.getWindowUnderMouse w x y = h.getWindowUnderMouse w x y :=
        underMouse_congr hre.rect (hre.outside w id hself)
      rw [onEvent, heq]
      cases hchild : h.getWindowUnderMouse w x y with
      | none =>
          rw [hchild] at hset hchildren
          refine ⟨h₂, rfl, ?_, hun, ⟨hon, ?_, ?_, ?_⟩, ?_⟩
          · exact ⟨hre.rect, hre.kind, hre.parent, hre.isChild, hre.ok,
              fun p _ hp => hre.outside p id hp, hre.under⟩
          · rw [hset]
            nofun
          · rw [hset]
            nofun
          · intro c hc _
            rw [hre.isChild] at hc
            exact (hchildren c hc).resolve_right nofun
          · intro v hv
            rcases hv.cases_head with rfl | ⟨d, hd, -⟩
            · rw [hset, hunder₂, hchild]
            · rw [hset] at hd
              cases hd
      | some c =>
          rw [hchild] at hset hchildren hunder₂
          have hc := isChild_of_underMouse hchild
          have hrank := hforest.rank_lt hc
          have hsettled₂ : Settled f h₂ c := by
            rcases hchildren c hc with hidle | ⟨-, hfocus⟩
            · exact hidle.settled
            · exact hfocus.settled
          obtain ⟨h₃, heq₃, hre₃, hun₃, hfocus₃, hmatch⟩ := ih hre.ok (hre.isChild ▸ hforest)
            (by omega) (by omega) (.inr ⟨w, hre.isChild ▸ hc⟩) hsettled₂
          rw [Within, hre.isChild] at hun₃ hre₃
          have hwc : ¬ h.Within c w := hforest.not_within_child hc
          -- no stack but those in the subtree of `c` and that of `w` itself changes below
          have hstay : ∀ p, p ≠ w → ¬ h.Within c p → h₃.children p = h₂.children p := by
            intro p hpw hpc
            apply hre₃.outside p hpc
            rw [hre.isChild]
            exact fun hp => hpw (hforest.unique hp hc)
          have hset₃ : h₃.focused f w = some c := (hun₃.outside w hwc).1.trans hset
          refine ⟨h₃, heq₃, ?_, hun.trans (hun₃.mono fun v hv => .head hc hv), ⟨?_, ?_, ?_, ?_⟩, ?_⟩
          · refine ⟨hre₃.rect.trans hre.rect, hre₃.kind.trans hre.kind, hre₃.parent.trans hre.parent,
              hre₃.isChild.trans hre.isChild, hre₃.ok, ?_, ?_⟩
            · intro p hp hpw
              have hne : p ≠ w := by
                rintro rfl
                exact hp .refl
              exact (hstay p hne fun hpc => hp (.head hc hpc)).trans (hre.outside p id hpw)
            · intro p x y hunder
              have hpw := isChild_of_underMouse hunder
              have hne : p ≠ w := by
                rintro rfl
                exact hself hpw
              have hapart : ¬ h.Within c p := by
                intro hpc
                have := hforest.rank_le hpc
                have := hforest.rank_lt hpw
                omega
              rw [underMouse_congr hre₃.rect (hstay p hne hapart)]
              exact hre.under p x y hunder
          · rw [On, (hun₃.outside w hwc).2]
            exact hon
          · intro d hd
            obtain rfl := Option.some.inj (hset₃.symm.trans hd)
            rw [hre₃.isChild, hre.isChild]
            exact hc
          · intro d hd
            obtain rfl := Option.some.inj (hset₃.symm.trans hd)
            exact hfocus₃
          · intro d hd hne
            rw [hre₃.isChild, hre.isChild] at hd
            have hdc : d ≠ c := by
              rintro rfl
              exact hne hset₃
            have hidle := (hchildren d hd).resolve_right fun hcd => hdc (Option.some.inj hcd.1).symm
            refine hidle.of_untouched hre₃.isChild hun₃ ?_
            rw [Within, hre.isChild]
            exact fun v hv => hforest.siblings_apart hd hc hdc hv
          · intro v hv
            rcases hv.cases_head with rfl | ⟨d, hd, hv⟩
            · rw [hset₃, hre₃.under w x y hunder₂]
            · obtain rfl := Option.some.inj (hset₃.symm.trans hd)
              exact hmatch v hv

/-! The other events. -/

/-- Windows may have moved on the screen and changed flags, nothing else. -/
structure Shifted (h h' : WindowHeap) : Prop where
  windowID : h'.windowID = h.windowID
  priority : h'.priority = h.priority
  parent : h'.parent = h.parent
  windows : h'.windows = h.windows
  numWindows : h'.numWindows = h.numWindows
  kind : h'.kind = h.kind
  focused : h'.focused = h.focused
  lastCall : h'.lastCall = h.lastCall

theorem Shifted.refl (h : WindowHeap) : Shifted h h := ⟨rfl, rfl, rfl, rfl, rfl, rfl, rfl, rfl⟩

theorem Shifted.trans (h₁ : Shifted h h') (h₂ : Shifted h' h'') : Shifted h h'' :=
  ⟨h₂.windowID.trans h₁.windowID, h₂.priority.trans h₁.priority, h₂.parent.trans h₁.parent,
    h₂.windows.trans h₁.windows, h₂.numWindows.trans h₁.numWindows, h₂.kind.trans h₁.kind,
    h₂.focused.trans h₁.focused, h₂.lastCall.trans h₁.lastCall⟩

theorem Shifted.children (hshift : Shifted h h') (p : Nat) : h'.children p = h.children p := by
  rw [WindowHeap.children, WindowHeap.children, hshift.windows, hshift.numWindows]

theorem Shifted.isChild (hshift : Shifted h h') : h'.IsChild = h.IsChild := by
  funext p c
  rw [IsChild, IsChild, hshift.children]

theorem updateChildPositions_shifted {data : Ps2.MouseData}
    (heq : updateChildPositions data fuel w h = some h') : Shifted h h' := by
  induction fuel generalizing h h' w with
  | zero => cases heq
  | succ fuel ih =>
      have hloop : ∀ (ws : List Nat) {h h' : WindowHeap},
          ws.foldlM (fun h child => updateChildPositions data fuel child h) h = some h' →
            Shifted h h' := by
        intro ws
        induction ws with
        | nil =>
            intro h h' heq
            cases heq
            exact .refl _
        | cons child rest ihrest =>
            intro h h' heq
            rw [List.foldlM_cons] at heq
            obtain ⟨h₁, hchild, hrest⟩ := Option.bind_eq_some_iff.mp heq
            exact (ih hchild).trans (ihrest hrest)
      rw [updateChildPositions] at heq
      obtain ⟨h₁, hchildren, heq⟩ := Option.bind_eq_some_iff.mp heq
      cases heq
      have hshift := hloop _ hchildren
      exact ⟨hshift.windowID, hshift.priority, hshift.parent, hshift.windows, hshift.numWindows,
        hshift.kind, hshift.focused, hshift.lastCall⟩

theorem updateChildPositions_total (hforest : Forest h.IsChild rank) (hfuel : rank w < fuel)
    (data : Ps2.MouseData) : ∃ h', updateChildPositions data fuel w h = some h' := by
  induction fuel generalizing h w with
  | zero => exact absurd hfuel (Nat.not_lt_zero _)
  | succ fuel ih =>
      have hloop : ∀ (ws : List Nat) {h : WindowHeap}, Forest h.IsChild rank →
          (∀ c ∈ ws, rank c < fuel) →
            ∃ h', ws.foldlM (fun h child => updateChildPositions data fuel child h) h = some h' := by
        intro ws
        induction ws with
        | nil => exact fun _ _ => ⟨_, rfl⟩
        | cons child rest ihrest =>
            intro h hforest hranks
            obtain ⟨h₁, hchild⟩ := ih hforest (hranks child List.mem_cons_self)
            have hchild₁ := (updateChildPositions_shifted hchild).isChild
            obtain ⟨h₂, hrest⟩ :=
              ihrest (hchild₁ ▸ hforest) fun c hc => hranks c (List.mem_cons_of_mem _ hc)
            refine ⟨h₂, ?_⟩
            rw [List.foldlM_cons, hchild]
            exact hrest
      have hranks : ∀ c ∈ h.children w, rank c < fuel := by
        intro c hc
        have := hforest.rank_lt (p := w) hc
        omega
      obtain ⟨h₁, heq⟩ := hloop _ hforest hranks
      rw [updateChildPositions, heq]
      exact ⟨_, rfl⟩

theorem handle_shifted (hf : focusOf event.type = none)
    (heq : handle depth event h w childWindow = some h') : Shifted h h' := by
  rw [handle] at heq
  cases htype : event.type with
  | mouseMove =>
      rw [htype] at hf
      cases hf
  | mouseLeftClick =>
      rw [htype] at hf
      cases hf
  | mouseMoveClick =>
      rw [htype] at heq
      dsimp only [onWindowDrag] at heq
      split at heq
      · obtain ⟨p, -, heq⟩ := Option.bind_eq_some_iff.mp heq
        obtain ⟨h₁, hmove, heq⟩ := Option.bind_eq_some_iff.mp heq
        cases heq
        have hshift := updateChildPositions_shifted hmove
        exact ⟨hshift.windowID, hshift.priority, hshift.parent, hshift.windows, hshift.numWindows,
          hshift.kind, hshift.focused, hshift.lastCall⟩
      · cases heq
        exact .refl _
  | _ =>
      rw [htype] at heq
      cases heq
      exact .refl _

theorem onEvent_shifted (hf : focusOf event.type = none)
    (heq : onEvent depth event x y fuel w h = some h') : Shifted h h' := by
  induction fuel generalizing h w with
  | zero => cases heq
  | succ fuel ih =>
      rw [onEvent] at heq
      obtain ⟨h₁, hhandle, heq⟩ := Option.bind_eq_some_iff.mp heq
      have hshift := handle_shifted hf hhandle
      cases hchild : h.getWindowUnderMouse w x y with
      | none =>
          rw [hchild] at heq
          cases heq
          exact hshift
      | some c =>
          rw [hchild] at heq
          exact hshift.trans (ih heq)

/-- A drag reaches a menu bar only below its parent, so nothing but a menu bar at the root
stops the delivery. -/
theorem onEvent_total (hf : focusOf event.type = none) (hforest : Forest h.IsChild rank)
    (hok : ∀ q, h.StackOk q) (hfuel : rank w < fuel)
    (hdrag : h.kind w = .menuBar → ∃ p, h.parent w = some p ∧ rank p < depth)
    (hdepth : rank w < depth) : ∃ h', onEvent depth event x y fuel w h = some h' := by
  induction fuel generalizing h w with
  | zero => exact absurd hfuel (Nat.not_lt_zero _)
  | succ fuel ih =>
      obtain ⟨h₁, heq⟩ : ∃ h₁, handle depth event h w (h.getWindowUnderMouse w x y) = some h₁ := by
        rw [handle]
        cases htype : event.type with
        | mouseMove =>
            rw [htype] at hf
            cases hf
        | mouseLeftClick =>
            rw [htype] at hf
            cases hf
        | mouseMoveClick =>
            dsimp only [onWindowDrag]
            split
            · obtain ⟨p, hp, hrank⟩ := hdrag ‹_›
              obtain ⟨h₁, hmove⟩ := updateChildPositions_total hforest hrank event.data
              rw [hp, Option.bind_eq_bind, Option.bind_some, hmove]
              exact ⟨_, rfl⟩
            · exact ⟨_, rfl⟩
        | _ => exact ⟨_, rfl⟩
      have hshift := handle_shifted hf heq
      rw [onEvent, heq]
      cases hchild : h.getWindowUnderMouse w x y with
      | none => exact ⟨h₁, rfl⟩
      | some c =>
          have hc := isChild_of_underMouse hchild
          have hrank := hforest.rank_lt hc
          refine ih (hshift.isChild ▸ hforest) ?_ (by omega) ?_ (by omega)
          · intro q
            apply (hok q).congr (hshift.children q)
            intro v _
            rw [hshift.windowID, hshift.parent, hshift.priority]
            exact ⟨rfl, rfl, rfl⟩
          · intro _
            rw [hshift.parent]
            exact ⟨w, (hok w).parents c hc, hdepth⟩

/-! Whole runs. -/

/-- An event as it reaches the root, with the position of the mouse. -/
structure Delivery where
  event : TellurEvent
  x : Int
  y : Int

def deliver (depth root : Nat) (h : WindowHeap) (d : Delivery) : Option WindowHeap :=
  onEvent depth d.event d.x d.y depth root h

def deliverAll (depth root : Nat) (h : WindowHeap) (ds : List Delivery) : Option WindowHeap :=
  ds.foldlM (deliver depth root) h

/-- An event that moves the pointer `f` is among the deliveries. -/
def Seen (ds : List Delivery) (f : Focus) : Prop := ∃ d ∈ ds, focusOf d.event.type = some f

/-- The tree between two events: it has the windows of `h₀`, and each pointer either is not in
use yet or marks a chain. -/
structure TreeInv (h₀ h : WindowHeap) (root : Nat) : Prop where
  ok : ∀ q, h.StackOk q
  isChild : h.IsChild = h₀.IsChild
  kind : h.kind = h₀.kind
  parent : h.parent root = none
  state : ∀ f, h.IdleAt f root ∨ h.FocusedAt f root

variable {h₀ : WindowHeap} {root : Nat} {d : Delivery} {ds : List Delivery}

theorem TreeInv.settled (hinv : TreeInv h₀ h root) (f : Focus) : Settled f h root := by
  rcases hinv.state f with hidle | hfocus
  · exact hidle.settled
  · exact hfocus.settled

theorem Shifted.treeInv (hinv : TreeInv h₀ h root) (hshift : Shifted h h') : TreeInv h₀ h' root := by
  refine ⟨?_, hshift.isChild.trans hinv.isChild, hshift.kind.trans hinv.kind, ?_, ?_⟩
  · intro q
    apply (hinv.ok q).congr (hshift.children q)
    intro v _
    rw [hshift.windowID, hshift.parent, hshift.priority]
    exact ⟨rfl, rfl, rfl⟩
  · rw [hshift.parent]
    exact hinv.parent
  · intro f
    obtain ⟨hidle, hfocus⟩ := at_congr hshift.isChild (congrFun hshift.focused f)
      (congrFun hshift.lastCall f) root
    exact (hinv.state f).imp hidle.mpr hfocus.mpr

/-- One event: the invariant holds after it, what was focused stays so, and an event that moves
`f` leaves `f` along the windows under the mouse. -/
theorem TreeInv.step (hinv : TreeInv h₀ h root) (hforest : Forest h₀.IsChild rank)
    (hdepth : rank root < depth) (heq : deliver depth root h d = some h') :
    TreeInv h₀ h' root ∧
      (∀ f, h.FocusedAt f root ∨ focusOf d.event.type = some f → h'.FocusedAt f root) ∧
      ∀ f, focusOf d.event.type = some f → ∀ v, OnChain (h'.focused f) root v →
        h'.focused f v = h'.getWindowUnderMouse v d.x d.y := by
  have hforest' : Forest h.IsChild rank := hinv.isChild ▸ hforest
  cases hf : focusOf d.event.type with
  | none =>
      have hshift := onEvent_shifted hf heq
      refine ⟨hshift.treeInv hinv, ?_, nofun⟩
      rintro f (hfocus | hnone)
      · exact (at_congr hshift.isChild (congrFun hshift.focused f) (congrFun hshift.lastCall f)
          root).2.mpr hfocus
      · cases hnone
  | some f =>
      obtain ⟨h'', heq', hre, hun, hfocus, hmatch⟩ := onEvent_focus (x := d.x) (y := d.y) hf hinv.ok
        hforest' (Nat.le_of_lt hdepth) hdepth (.inl hinv.parent) (hinv.settled f)
      obtain rfl : h'' = h' := Option.some.inj (heq'.symm.trans heq)
      -- the other pointer is where it was
      have hother : ∀ g, g ≠ f → (h.IdleAt g root → h''.IdleAt g root) ∧
          (h.FocusedAt g root → h''.FocusedAt g root) := by
        intro g hg
        obtain ⟨hfocused, hcall⟩ := hun.others g hg
        obtain ⟨hidle, hfocused'⟩ := at_congr hre.isChild hfocused hcall root
        exact ⟨hidle.mpr, hfocused'.mpr⟩
      refine ⟨⟨hre.ok, hre.isChild.trans hinv.isChild, hre.kind.trans hinv.kind, ?_, ?_⟩, ?_, ?_⟩
      · rw [hre.parent]
        exact hinv.parent
      · intro g
        by_cases hg : g = f
        · rw [hg]
          exact .inr hfocus
        · exact (hinv.state g).imp (hother g hg).1 (hother g hg).2
      · intro g hgf
        by_cases hg : g = f
        · rwa [hg]
        · refine (hother g hg).2 (hgf.resolve_right ?_)
          exact fun heq => hg (Option.some.inj heq).symm
      · rintro g ⟨⟩
        exact hmatch

theorem TreeInv.run (hinv : TreeInv h₀ h root) (hforest : Forest h₀.IsChild rank)
    (hdepth : rank root < depth) (heq : deliverAll depth root h ds = some h') :
    TreeInv h₀ h' root ∧ ∀ f, h.FocusedAt f root ∨ Seen ds f → h'.FocusedAt f root := by
  induction ds generalizing h with
  | nil =>
      cases heq
      exact ⟨hinv, fun f hf => hf.resolve_right fun ⟨_, hd, _⟩ => absurd hd List.not_mem_nil⟩
  | cons d rest ih =>
      rw [deliverAll, List.foldlM_cons] at heq
      obtain ⟨h₁, hstep, hrest⟩ := Option.bind_eq_some_iff.mp heq
      obtain ⟨hinv₁, hfocus₁, -⟩ := hinv.step hforest hdepth hstep
      obtain ⟨hinv', hfocus'⟩ := ih hinv₁ hrest
      refine ⟨hinv', ?_⟩
      rintro f (hfocus | ⟨e, he, hf⟩)
      · exact hfocus' f (.inl (hfocus₁ f (.inl hfocus)))
      · rcases List.mem_cons.mp he with rfl | he
        · exact hfocus' f (.inl (hfocus₁ f (.inr hf)))
        · exact hfocus' f (.inr ⟨e, he, hf⟩)

theorem TreeInv.total (hinv : TreeInv h₀ h root) (hforest : Forest h₀.IsChild rank)
    (hdepth : rank root < depth) (hkind : h₀.kind root ≠ .menuBar) :
    ∃ h', deliverAll depth root h ds = some h' := by
  induction ds generalizing h with
  | nil => exact ⟨h, rfl⟩
  | cons d rest ih =>
      have hforest' : Forest h.IsChild rank := hinv.isChild ▸ hforest
      obtain ⟨h₁, hstep⟩ : ∃ h₁, deliver depth root h d = some h₁ := by
        cases hf : focusOf d.event.type with
        | none =>
            refine onEvent_total hf hforest' hinv.ok hdepth (fun hmenu => ?_) hdepth
            rw [hinv.kind] at hmenu
            exact absurd hmenu hkind
        | some f =>
            obtain ⟨h₁, heq, -⟩ := onEvent_focus (x := d.x) (y := d.y) hf hinv.ok hforest'
              (Nat.le_of_lt hdepth) hdepth (.inl hinv.parent) (hinv.settled f)
            exact ⟨h₁, heq⟩
      rw [deliverAll, List.foldlM_cons, hstep]
      exact ih (hinv.step hforest hdepth hstep).1

/-- Hover and selection chains of a tree of new windows, after any events. -/
theorem focus_chains (hok : ∀ q, h₀.StackOk q) (hrank : ∀ p, ∀ c ∈ h₀.children p, rank c < rank p)
    (hroot : h₀.parent root = none) (hnew : ∀ f, h₀.IdleAt f root) (hdepth : rank root < depth) :
    (h₀.kind root ≠ .menuBar → ∃ h, deliverAll depth root h₀ ds = some h) ∧
    ∀ h, deliverAll depth root h₀ ds = some h →
      (∀ f, Seen ds f → ∀ v, h.Within root v →
        (h.lastCall f v = some .enter ↔ OnChain (h.focused f) root v) ∧
        (¬ OnChain (h.focused f) root v → h.focused f v = none)) ∧
      ∀ front d f, ds = front ++ [d] → focusOf d.event.type = some f →
        ∀ v, OnChain (h.focused f) root v → h.focused f v = h.getWindowUnderMouse v d.x d.y := by
  have hforest : Forest h₀.IsChild rank := by
    refine ⟨fun {p q c} hp hq => ?_, fun {p c} hc => hrank p c hc⟩
    exact Option.some.inj (((hok p).parents c hp).symm.trans ((hok q).parents c hq))
  have hinv : TreeInv h₀ h₀ root := ⟨hok, rfl, rfl, hroot, fun f => .inl (hnew f)⟩
  refine ⟨hinv.total hforest hdepth, fun h heq => ⟨?_, ?_⟩⟩
  · intro f hseen v hv
    exact ((hinv.run hforest hdepth heq).2 f (.inr hseen)).chain hv
  · rintro front d f rfl hf
    rw [deliverAll, List.foldlM_append] at heq
    obtain ⟨h₁, hfront, hlast⟩ := Option.bind_eq_some_iff.mp heq
    have hstep : deliver depth root h₁ d = some h := by
      simpa using hlast
    exact ((hinv.run hforest hdepth hfront).1.step hforest hdepth hstep).2.2 f hf

/-- A root with two decorated windows side by side. -/
def twoWindows : WindowHeap where
  windowID w := w - 1
  flags _ := windowFlagsDecoration
  rect w := if w = 2 then ⟨20, 0, 10, 10⟩ else ⟨0, 0, 10, 10⟩
  priority _ := 2
  parent w := if w = 1 ∨ w = 2 then some 0 else none
  windows _ i := i + 1
  numWindows w := if w = 0 then 2 else 0
  focused _ _ := none
  lastCall _ _ := none
  kind _ := .window

theorem twoWindows_children (p : Nat) : twoWindows.children p = if p = 0 then [1, 2] else [] := by
  rw [children, twoWindows]
  dsimp only
  split_ifs
  · rfl
  · rfl

theorem twoWindows_stackOk (q : Nat) : twoWindows.StackOk q := by
  by_cases hq : q = 0
  · subst hq
    exact ⟨by decide, by decide, by decide, by decide, by decide⟩
  · exact stackOk_empty (if_neg hq)

/-- The mouse moves over the lower window and clicks it, which raises it. -/
def moveAndClick : List Delivery :=
  [⟨⟨.mouseMove, ⟨0, 1, 1⟩⟩, 5, 5⟩, ⟨⟨.mouseLeftClick, ⟨1, 0, 0⟩⟩, 5, 5⟩]

theorem focus_chains_click : ∃ h, deliverAll 2 0 twoWindows moveAndClick = some h ∧
    h.children 0 = [2, 1] ∧ h.focused .select 0 = some 1 ∧
    h.focused .select 0 = h.getWindowUnderMouse 0 5 5 := by
  have hrank : ∀ p, ∀ c ∈ twoWindows.children p,
      (if c = 0 then 1 else 0) < if p = 0 then 1 else 0 := by
    intro p c hc
    rw [twoWindows_children] at hc
    split_ifs at hc with hp
    · have hne : c ≠ 0 := by
        rintro rfl
        exact absurd hc (by decide)
      simp [hp, hne]
    · exact absurd hc List.not_mem_nil
  have hdepth : (if (0 : Nat) = 0 then 1 else 0) < 2 := by decide
  have hnew : ∀ f, twoWindows.IdleAt f 0 := fun f v _ => ⟨rfl, nofun⟩
  have hchains := @focus_chains 2 _ _ 0 moveAndClick twoWindows_stackOk hrank rfl hnew hdepth
  obtain ⟨h, hrun⟩ := hchains.1 nofun
  have hend : (deliverAll 2 0 twoWindows moveAndClick).map
      (fun h => (h.children 0, h.focused .select 0)) = some ([2, 1], some 1) := by decide
  rw [hrun, Option.map_some, Option.some_inj, Prod.mk_inj] at hend
  refine ⟨h, hrun, hend.1, hend.2, ?_⟩
  exact (hchains.2 h hrun).2 [⟨⟨.mouseMove, ⟨0, 1, 1⟩⟩, 5, 5⟩] _ .select rfl rfl 0 .refl

end WindowHeap

end Tellurium.Gui
