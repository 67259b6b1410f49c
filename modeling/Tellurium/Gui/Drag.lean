import Tellurium.Gui.WindowEvents

/-!
Dragging (`libGUI/MenuBar.cpp`, `Window::updateChildPositions`). A menu bar that gets a drag moves
its parent with all that is attached to it. Positions are absolute in the code, so what a user sees
of a window, its place in the window that it is attached to, has to be kept by the recursion.
-/

namespace Tellurium.Gui

open Lib DevPoll Relation

def Rect.moved (r : Rect) (dx dy : Int) : Rect := {r with x := r.x + dx, y := r.y + dy}

namespace WindowHeap

variable {h h' h'' h₀ : WindowHeap} {w v c p fuel depth root : Nat} {rank : Nat → Nat}
  {event : TellurEvent} {x y : Int} {data : Ps2.MouseData}

theorem within_congr (hshift : Shifted h h') : h'.Within = h.Within := by
  rw [Within, Within, hshift.isChild]

/-- What moves with a list of windows, each with its subtree. -/
def WithinAny (h : WindowHeap) (ws : List Nat) (v : Nat) : Prop := ∃ c ∈ ws, h.Within c v

theorem withinAny_congr {ws : List Nat} (hshift : Shifted h h') :
    h'.WithinAny ws = h.WithinAny ws := by
  funext v
  rw [WithinAny, WithinAny, within_congr hshift]

/-- The windows of `s` move with the mouse, and the others stay. -/
structure Moves (data : Ps2.MouseData) (h h' : WindowHeap) (s : Nat → Prop) : Prop where
  inside : ∀ {v}, s v → h'.rect v = (h.rect v).moved data.deltaX (-data.deltaY)
  outside : ∀ {v}, ¬ s v → h'.rect v = h.rect v

/-- Siblings move one after the other, and none of them moves twice. -/
theorem Moves.foldlM {move : WindowHeap → Nat → Option WindowHeap}
    (hmove : ∀ {h h' : WindowHeap} {c : Nat}, Forest h.IsChild rank →
      (∀ q, (h.children q).Nodup) → move h c = some h' →
      Shifted h h' ∧ Moves data h h' (h.Within c)) :
    ∀ (ws : List Nat) {h h' : WindowHeap}, Forest h.IsChild rank →
      (∀ q, (h.children q).Nodup) → ws.Nodup → (∀ c ∈ ws, h.IsChild w c) →
      ws.foldlM move h = some h' → Moves data h h' (h.WithinAny ws) := by
  intro ws
  induction ws with
  | nil =>
      rintro h h' - - - - heq
      cases heq
      refine ⟨?_, fun _ => rfl⟩
      rintro v ⟨c, hc, -⟩
      exact absurd hc List.not_mem_nil
  | cons child rest ihrest =>
      intro h h' hforest hnodup hws hchildren heq
      rw [List.foldlM_cons] at heq
      obtain ⟨h₁, hfirst, hrest⟩ := Option.bind_eq_some_iff.mp heq
      obtain ⟨hout, hws⟩ := List.nodup_cons.mp hws
      obtain ⟨hchild, hchildren⟩ := List.forall_mem_cons.mp hchildren
      obtain ⟨hshift, hmoved⟩ := hmove hforest hnodup hfirst
      have hlater : Moves data h₁ h' (h.WithinAny rest) := by
        have hlater := ihrest (hshift.isChild ▸ hforest)
          (fun q => (hshift.children q).symm ▸ hnodup q) hws
          (fun c hc => hshift.isChild ▸ hchildren c hc) hrest
        rwa [withinAny_congr hshift] at hlater
      constructor
      · rintro v ⟨c, hc, hcv⟩
        by_cases hv : h.Within child v
        · have hapart : ¬ h.WithinAny rest v := by
            rintro ⟨c, hc, hcv⟩
            have hne : child ≠ c := fun heq => hout (heq ▸ hc)
            exact hforest.siblings_apart hchild (hchildren c hc) hne hv hcv
          exact (hlater.outside hapart).trans (hmoved.inside hv)
        · rcases List.mem_cons.mp hc with rfl | hc
          · exact absurd hcv hv
          · rw [hlater.inside ⟨c, hc, hcv⟩, hmoved.outside hv]
      · intro v hnot
        have hfirst : ¬ h.Within child v := fun hv => hnot ⟨child, List.mem_cons_self, hv⟩
        have hrest : ¬ h.WithinAny rest v := by
          rintro ⟨c, hc, hcv⟩
          exact hnot ⟨c, List.mem_cons_of_mem _ hc, hcv⟩
        exact (hlater.outside hrest).trans (hmoved.outside hfirst)

/-- The recursion moves each window of the subtree once. -/
theorem updateChildPositions_moves (hforest : Forest h.IsChild rank)
    (hnodup : ∀ q, (h.children q).Nodup) (heq : updateChildPositions data fuel w h = some h') :
    Moves data h h' (h.Within w) := by
  induction fuel generalizing h h' w with
  | zero => cases heq
  | succ fuel ih =>
      rw [updateChildPositions] at heq
      obtain ⟨h₁, hchildren, heq⟩ := Option.bind_eq_some_iff.mp heq
      cases heq
      have hloop : Moves data h h₁ (h.WithinAny (h.children w)) := by
        apply Moves.foldlM _ _ hforest hnodup (hnodup w) (fun c hc => hc) hchildren
        intro h h' c hforest hnodup heq
        exact ⟨updateChildPositions_shifted heq, ih hforest hnodup heq⟩
      have hother : ∀ {v}, v ≠ w → ((h₁.setX w ((h₁.rect w).getX + data.deltaX)).setY w
          (((h₁.setX w ((h₁.rect w).getX + data.deltaX)).rect w).getY - data.deltaY)).rect v =
            h₁.rect v := by
        intro v hvw
        simp only [setX, setY, Function.update_of_ne hvw]
      constructor
      · intro v hv
        rcases hv.cases_head with rfl | ⟨c, hc, hcv⟩
        · have hself : ¬ h.WithinAny (h.children w) w := by
            rintro ⟨c, hc, hcw⟩
            exact hforest.not_within_child hc hcw
          simp only [setX, setY, Function.update_self, hloop.outside hself]
          rfl
        · have hvw : v ≠ w := by
            rintro rfl
            exact hforest.not_within_child hc hcv
          exact (hother hvw).trans (hloop.inside ⟨c, hc, hcv⟩)
      · intro v hnot
        have hvw : v ≠ w := fun heq => hnot (heq ▸ .refl)
        have hnone : ¬ h.WithinAny (h.children w) v := by
          rintro ⟨c, hc, hcv⟩
          exact hnot (.head hc hcv)
        exact (hother hvw).trans (hloop.outside hnone)

/-- The window is attached to `p`, or to none. -/
def Holds (h : WindowHeap) (p : Option Nat) (c : Nat) : Prop :=
  match p with
  | some p => h.IsChild p c
  | none => ∀ q, ¬ h.IsChild q c

/-- The place of a window in the one it is attached to, or on the screen. -/
def offset (h : WindowHeap) (p : Option Nat) (c : Nat) : Int × Int :=
  match p with
  | some p => ((h.rect c).x - (h.rect p).x, (h.rect c).y - (h.rect p).y)
  | none => ((h.rect c).x, (h.rect c).y)

theorem within_iff (hforest : Forest h.IsChild rank) {p : Option Nat} (hp : h.Holds p c) (w : Nat) :
    h.Within w c ↔ w = c ∨ ∃ q, p = some q ∧ h.Within w q := by
  constructor
  · intro hw
    rcases hw.cases_tail with heq | ⟨q, hq, hstep⟩
    · exact .inl heq.symm
    · cases p with
      | none => exact absurd hstep (hp q)
      | some q' =>
          obtain rfl := hforest.unique hstep hp
          exact .inr ⟨q, rfl, hq⟩
  · rintro (rfl | ⟨q, rfl, hq⟩)
    · exact .refl
    · exact hq.tail hp

/-- A move of the subtree of `w` moves `w` in its parent, and nothing else in its own. -/
theorem updateChildPositions_offset (hforest : Forest h.IsChild rank)
    (hnodup : ∀ q, (h.children q).Nodup) (heq : updateChildPositions data fuel w h = some h')
    {p : Option Nat} (hp : h.Holds p c) :
    h'.offset p c =
      if w = c then ((h.offset p c).1 + data.deltaX, (h.offset p c).2 - data.deltaY)
      else h.offset p c := by
  have hmoves := updateChildPositions_moves hforest hnodup heq
  have hwithin := within_iff hforest hp w
  cases p with
  | none =>
      simp only [reduceCtorEq, false_and, exists_false, or_false] at hwithin
      split_ifs with hw
      · simp only [offset, hmoves.inside (hwithin.mpr hw), Rect.moved, Int.sub_eq_add_neg]
      · simp only [offset, hmoves.outside (mt hwithin.mp hw)]
  | some p =>
      simp only [Option.some_inj, exists_eq_left'] at hwithin
      split_ifs with hw
      · subst hw
        have hparent : ¬ h.Within w p := hforest.not_within_child hp
        simp only [offset, hmoves.inside .refl, hmoves.outside hparent, Rect.moved,
          Prod.mk.injEq]
        omega
      · by_cases hboth : h.Within w p
        · simp only [offset, hmoves.inside (hwithin.mpr (.inr hboth)), hmoves.inside hboth,
            Rect.moved, Prod.mk.injEq]
          omega
        · have hneither : ¬ h.Within w c := fun hc => (hwithin.mp hc).elim hw hboth
          simp only [offset, hmoves.outside hneither, hmoves.outside hboth]

/-- The windows that get the event, the one it starts at first. -/
def visited (depth : Nat) (event : TellurEvent) (x y : Int) : Nat → Nat → WindowHeap → List Nat
  | 0, _, _ => []
  | fuel + 1, w, h =>
      w :: match handle depth event h w (h.getWindowUnderMouse w x y),
          h.getWindowUnderMouse w x y with
        | some h, some child => visited depth event x y fuel child h
        | _, _ => []

/-- A menu bar of the window. -/
def isMenuBarOf (h : WindowHeap) (c b : Nat) : Bool :=
  decide (h.kind b = .menuBar) && decide (h.parent b = some c)

/-- How many menu bars of the window get the event. -/
def dragCount (depth : Nat) (event : TellurEvent) (x y : Int) (fuel w c : Nat) (h : WindowHeap) :
    Nat :=
  (visited depth event x y fuel w h).countP (h.isMenuBarOf c)

/-- The window `c` keeps its size, and in its parent it goes as far as `n` of its menu bars take
it. -/
structure DraggedBy (data : Ps2.MouseData) (h h' : WindowHeap) (p : Option Nat) (c n : Nat) :
    Prop where
  place : h'.offset p c =
    ((h.offset p c).1 + n * data.deltaX, (h.offset p c).2 - n * data.deltaY)
  width : (h'.rect c).width = (h.rect c).width
  height : (h'.rect c).height = (h.rect c).height

theorem DraggedBy.trans {p : Option Nat} {m n : Nat} (h₁ : DraggedBy data h h' p c m)
    (h₂ : DraggedBy data h' h'' p c n) : DraggedBy data h h'' p c (n + m) := by
  refine ⟨?_, h₂.width.trans h₁.width, h₂.height.trans h₁.height⟩
  rw [h₂.place, h₁.place, Nat.cast_add, Int.add_mul, Int.add_mul]
  simp only [Prod.mk.injEq]
  omega

theorem DraggedBy.of_rect {p : Option Nat} (hrect : h'.rect = h.rect) :
    DraggedBy data h h' p c 0 := by
  refine ⟨?_, by rw [hrect], by rw [hrect]⟩
  simp [offset, hrect]

theorem Holds.congr {p : Option Nat} (hchild : h'.IsChild = h.IsChild) (hp : h.Holds p c) :
    h'.Holds p c := by
  cases p with
  | none => exact fun q hq => hp q (hchild ▸ hq)
  | some p => exact (congrFun (congrFun hchild p) c).mpr hp

theorem isMenuBarOf_shifted (hshift : Shifted h h') : h'.isMenuBarOf c = h.isMenuBarOf c := by
  funext b
  rw [isMenuBarOf, isMenuBarOf, hshift.kind, hshift.parent]

/-- What one window does with a drag. -/
theorem handle_drag (htype : event.type = .mouseMoveClick) (hforest : Forest h.IsChild rank)
    (hnodup : ∀ q, (h.children q).Nodup) {childWindow : Option Nat}
    (heq : handle depth event h w childWindow = some h') {p : Option Nat} (hp : h.Holds p c) :
    DraggedBy event.data h h' p c (if h.isMenuBarOf c w then 1 else 0) := by
  rw [handle, htype] at heq
  dsimp only [onWindowDrag] at heq
  split at heq
  case h_1 hmenu =>
      obtain ⟨q, hq, heq⟩ := Option.bind_eq_some_iff.mp heq
      obtain ⟨h₁, hmove, heq⟩ := Option.bind_eq_some_iff.mp heq
      cases heq
      have hbar : h.isMenuBarOf c w = decide (q = c) := by simp [isMenuBarOf, hmenu, hq]
      have hsize : (h₁.rect c).width = (h.rect c).width ∧
          (h₁.rect c).height = (h.rect c).height := by
        have hmoves := updateChildPositions_moves hforest hnodup hmove
        by_cases hc : h.Within q c
        · rw [hmoves.inside hc]
          exact ⟨rfl, rfl⟩
        · rw [hmoves.outside hc]
          exact ⟨rfl, rfl⟩
      refine ⟨?_, hsize.1, hsize.2⟩
      change h₁.offset p c = _
      rw [hbar, updateChildPositions_offset hforest hnodup hmove hp]
      by_cases hqc : q = c
      · simp [hqc]
      · simp [hqc]
  case h_2 hmenu =>
      cases heq
      have hbar : h.isMenuBarOf c w = false := by
        rw [isMenuBarOf, decide_eq_false hmenu]
        rfl
      rw [hbar]
      exact .of_rect rfl

/-- A drag on its way down the tree. -/
theorem onEvent_drag (htype : event.type = .mouseMoveClick) (hforest : Forest h.IsChild rank)
    (hnodup : ∀ q, (h.children q).Nodup) (heq : onEvent depth event x y fuel w h = some h')
    {p : Option Nat} (hp : h.Holds p c) :
    DraggedBy event.data h h' p c (dragCount depth event x y fuel w c h) := by
  induction fuel generalizing h w with
  | zero => cases heq
  | succ fuel ih =>
      rw [onEvent] at heq
      obtain ⟨h₁, hhandle, heq⟩ := Option.bind_eq_some_iff.mp heq
      have hf : focusOf event.type = none := by rw [htype]; rfl
      have hshift := handle_shifted hf hhandle
      have hfirst := handle_drag htype hforest hnodup hhandle hp
      rw [dragCount, visited, List.countP_cons, hhandle]
      cases hchild : h.getWindowUnderMouse w x y with
      | none =>
          rw [hchild] at heq
          cases heq
          simpa using hfirst
      | some child =>
          rw [hchild] at heq
          have hrest := ih (hshift.isChild ▸ hforest) (fun q => (hshift.children q).symm ▸ hnodup q)
            heq (hp.congr hshift.isChild)
          rw [dragCount, isMenuBarOf_shifted hshift] at hrest
          exact hfirst.trans hrest

/-- The windows that get an event are attached, but for the one that it starts at. -/
theorem mem_visited (hf : focusOf event.type = none) {b : Nat}
    (hb : b ∈ visited depth event x y fuel w h) : b = w ∨ ∃ q, h.IsChild q b := by
  induction fuel generalizing h w with
  | zero => cases hb
  | succ fuel ih =>
      rw [visited] at hb
      rcases List.mem_cons.mp hb with rfl | hb
      · exact .inl rfl
      · split at hb
        case h_1 h₁ child hhandle hchild =>
            have hshift := handle_shifted hf hhandle
            rcases ih hb with rfl | ⟨q, hq⟩
            · exact .inr ⟨w, isChild_of_underMouse hchild⟩
            · exact .inr ⟨q, hshift.isChild ▸ hq⟩
        case h_2 => cases hb

theorem dragCount_eq_zero (hf : focusOf event.type = none) (hok : ∀ q, h.StackOk q)
    (hw : h.parent w = none) (hbars : ∀ b ∈ h.children c, h.kind b ≠ .menuBar) :
    dragCount depth event x y fuel w c h = 0 := by
  rw [dragCount, List.countP_eq_zero]
  intro b hb hbar
  simp only [isMenuBarOf, Bool.and_eq_true, decide_eq_true_eq] at hbar
  rcases mem_visited hf hb with rfl | ⟨q, hq⟩
  · rw [hw] at hbar
    cases hbar.2
  · have hparent := (hok q).parents b hq
    rw [hbar.2] at hparent
    obtain rfl := Option.some.inj hparent
    exact hbars b hq hbar.1

/-- The other events but for moves and clicks go down the tree and change nothing. -/
theorem onEvent_idle (hf : focusOf event.type = none) (htype : event.type ≠ .mouseMoveClick)
    (heq : onEvent depth event x y fuel w h = some h') : h' = h := by
  induction fuel generalizing w with
  | zero => cases heq
  | succ fuel ih =>
      have hhandle : ∀ childWindow, handle depth event h w childWindow = some h := by
        intro childWindow
        rw [handle]
        cases hkind : event.type with
        | mouseMove =>
            rw [hkind] at hf
            cases hf
        | mouseMoveClick => exact absurd hkind htype
        | mouseLeftClick =>
            rw [hkind] at hf
            cases hf
        | _ => rfl
      rw [onEvent] at heq
      obtain ⟨h₁, hsame, heq⟩ := Option.bind_eq_some_iff.mp heq
      rw [hhandle] at hsame
      cases hsame
      cases hchild : h.getWindowUnderMouse w x y with
      | none =>
          rw [hchild] at heq
          cases heq
          rfl
      | some child =>
          rw [hchild] at heq
          exact ih heq

/-- How many menu bars of the window a delivery drags. -/
def drags (depth root c : Nat) (h : WindowHeap) (d : Delivery) : Nat :=
  if d.event.type = .mouseMoveClick then dragCount depth d.event d.x d.y depth root c h else 0

/-- How far a run drags the menu bars of the window. -/
def dragged (depth root c : Nat) : WindowHeap → List Delivery → Int × Int
  | _, [] => (0, 0)
  | h, d :: rest =>
      match deliver depth root h d with
      | some h' =>
          let n := drags depth root c h d
          (n * d.event.data.deltaX + (dragged depth root c h' rest).1,
            n * d.event.data.deltaY + (dragged depth root c h' rest).2)
      | none => (0, 0)

section Run

variable {d : Delivery} {ds : List Delivery} {p : Option Nat}

theorem TreeInv.drag (hinv : TreeInv h₀ h root) (hforest : Forest h₀.IsChild rank)
    (hdepth : rank root < depth) (heq : deliver depth root h d = some h') (hp : h₀.Holds p c) :
    DraggedBy d.event.data h h' p c (drags depth root c h d) := by
  have hforest' : Forest h.IsChild rank := hinv.isChild ▸ hforest
  have hp' : h.Holds p c := hp.congr hinv.isChild
  rw [drags]
  split_ifs with htype
  · exact onEvent_drag htype hforest' (fun q => (hinv.ok q).nodup) heq hp'
  · cases hf : focusOf d.event.type with
    | none => exact .of_rect (congrArg rect (onEvent_idle hf htype heq))
    | some f =>
        obtain ⟨h'', heq', hre, -⟩ := onEvent_focus (x := d.x) (y := d.y) hf hinv.ok
          hforest' (Nat.le_of_lt hdepth) hdepth (.inl hinv.parent) (hinv.settled f)
        obtain rfl : h'' = h' := Option.some.inj (heq'.symm.trans heq)
        exact .of_rect hre.rect

/-- A window is where its own menu bars were dragged. -/
theorem TreeInv.places (hinv : TreeInv h₀ h root) (hforest : Forest h₀.IsChild rank)
    (hdepth : rank root < depth) (heq : deliverAll depth root h ds = some h')
    (hp : h₀.Holds p c) :
    h'.offset p c = ((h.offset p c).1 + (dragged depth root c h ds).1,
      (h.offset p c).2 - (dragged depth root c h ds).2) ∧
    (h'.rect c).width = (h.rect c).width ∧ (h'.rect c).height = (h.rect c).height := by
  induction ds generalizing h with
  | nil =>
      cases heq
      simp [WindowHeap.dragged]
  | cons d rest ih =>
      rw [deliverAll, List.foldlM_cons] at heq
      obtain ⟨h₁, hstep, hrest⟩ := Option.bind_eq_some_iff.mp heq
      obtain ⟨hplace, hwidth, hheight⟩ := hinv.drag hforest hdepth hstep hp
      obtain ⟨hlater, hwidth', hheight'⟩ := ih (hinv.step hforest hdepth hstep).1 hrest
      refine ⟨?_, hwidth'.trans hwidth, hheight'.trans hheight⟩
      rw [hlater, hplace, WindowHeap.dragged, hstep]
      simp only [Prod.mk.injEq]
      omega

/-- A window without a menu bar of its own is not dragged. -/
theorem TreeInv.dragged_eq_zero (hinv : TreeInv h₀ h root) (hforest : Forest h₀.IsChild rank)
    (hdepth : rank root < depth) (hbars : ∀ b ∈ h₀.children c, h₀.kind b ≠ .menuBar) :
    WindowHeap.dragged depth root c h ds = (0, 0) := by
  induction ds generalizing h with
  | nil => rfl
  | cons d rest ih =>
      rw [WindowHeap.dragged]
      cases hstep : deliver depth root h d with
      | none => rfl
      | some h₁ =>
          have hbars' : ∀ b ∈ h.children c, h.kind b ≠ .menuBar := by
            intro b hb
            rw [hinv.kind]
            apply hbars b
            exact (congrFun (congrFun hinv.isChild c) b).mp hb
          have hnone : drags depth root c h d = 0 := by
            rw [drags]
            split_ifs with htype
            · have hf : focusOf d.event.type = none := by rw [htype]; rfl
              exact dragCount_eq_zero hf hinv.ok hinv.parent hbars'
            · rfl
          dsimp only
          rw [hnone, ih (hinv.step hforest hdepth hstep).1]
          simp

end Run

/-- The window is part of `w`: no window on the way to it can be dragged by itself. -/
def PartOf (h : WindowHeap) : Nat → Nat → Prop :=
  ReflTransGen fun p c => h.IsChild p c ∧ ∀ b ∈ h.children c, h.kind b ≠ .menuBar

/-- Windows are dragged as a whole. Whatever events reach a tree of new windows, with the mouse
wherever it is: each window keeps its size, in its parent it is where the drags of its own menu
bars have taken it, and a part of a window never leaves its place in the window. -/
theorem windows_dragged_whole {ds : List Delivery} (hok : ∀ q, h₀.StackOk q)
    (hrank : ∀ p, ∀ c ∈ h₀.children p, rank c < rank p) (hroot : h₀.parent root = none)
    (hnew : ∀ f, h₀.IdleAt f root) (hdepth : rank root < depth)
    (hkind : h₀.kind root ≠ .menuBar) :
    ∃ h, deliverAll depth root h₀ ds = some h ∧
      (∀ p c, h₀.Holds p c →
        h.offset p c = ((h₀.offset p c).1 + (dragged depth root c h₀ ds).1,
          (h₀.offset p c).2 - (dragged depth root c h₀ ds).2) ∧
        (h.rect c).width = (h₀.rect c).width ∧ (h.rect c).height = (h₀.rect c).height) ∧
      ∀ w v, h₀.PartOf w v → h.offset (some w) v = h₀.offset (some w) v := by
  have hforest : Forest h₀.IsChild rank := by
    refine ⟨fun {p q c} hp hq => ?_, fun {p c} hc => hrank p c hc⟩
    exact Option.some.inj (((hok p).parents c hp).symm.trans ((hok q).parents c hq))
  have hinv : TreeInv h₀ h₀ root := ⟨hok, rfl, rfl, hroot, fun f => .inl (hnew f)⟩
  have htotal : ∃ h, deliverAll depth root h₀ ds = some h := hinv.total hforest hdepth hkind
  obtain ⟨h, heq⟩ := htotal
  refine ⟨h, heq, fun p c hp => hinv.places hforest hdepth heq hp, fun w v hpart => ?_⟩
  induction hpart with
  | refl => simp [offset]
  | tail hpart hstep ih =>
      obtain ⟨hchild, hbars⟩ := hstep
      have hplace := (hinv.places hforest hdepth heq (p := some _) hchild).1
      rw [hinv.dragged_eq_zero hforest hdepth hbars] at hplace
      simp only [offset, Prod.mk.injEq] at hplace ih ⊢
      omega

/-- A decorated window with its menu bar and some contents. -/
def decorated : WindowHeap where
  windowID w := if w = 2 then 1 else 0
  flags _ := windowFlagsDecoration
  rect w :=
    if w = 0 then ⟨0, 0, 100, 100⟩ else if w = 1 then ⟨10, 10, 50, 50⟩
    else if w = 2 then ⟨20, 10, 30, 31⟩ else ⟨10, 41, 50, 18⟩
  priority _ := 2
  parent w := if w = 1 then some 0 else if w = 2 ∨ w = 3 then some 1 else none
  windows w i := if w = 0 then 1 else if i = 0 then 3 else 2
  numWindows w := if w = 0 then 1 else if w = 1 then 2 else 0
  focused _ _ := none
  lastCall _ _ := none
  kind w := if w = 2 then .menuBar else .window

theorem decorated_children (p : Nat) :
    decorated.children p = if p = 0 then [1] else if p = 1 then [3, 2] else [] := by
  rw [children, decorated]
  dsimp only
  split_ifs with h₀ h₁
  · subst h₀
    rfl
  · subst h₁
    rfl
  · rfl

theorem decorated_stackOk (q : Nat) : decorated.StackOk q := by
  by_cases h₀ : q = 0
  · subst h₀
    exact ⟨by decide, by decide, by decide, by decide, by decide⟩
  · by_cases h₁ : q = 1
    · subst h₁
      exact ⟨by decide, by decide, by decide, by decide, by decide⟩
    · exact stackOk_empty ((if_neg h₀).trans (if_neg h₁))

/-- The menu bar is dragged by three pixels to the right and two down. -/
theorem windows_dragged_whole_bar :
    ∃ h, deliverAll 3 0 decorated [⟨⟨.mouseMoveClick, ⟨9, 3, -2⟩⟩, 25, 15⟩] = some h ∧
      h.rect 1 = ⟨13, 12, 50, 50⟩ ∧ h.offset (some 1) 3 = (0, 31) := by
  have hrank : ∀ p, ∀ c ∈ decorated.children p,
      (if c = 0 then 2 else if c = 1 then 1 else 0) <
        if p = 0 then 2 else if p = 1 then 1 else 0 := by
    intro p c hc
    rw [decorated_children] at hc
    split_ifs at hc with h₀ h₁
    · subst h₀
      rw [List.mem_singleton.mp hc]
      decide
    · subst h₁
      revert c
      decide
    · exact absurd hc List.not_mem_nil
  have hdepth : (if (0 : Nat) = 0 then 2 else if (0 : Nat) = 1 then 1 else 0) < 3 := by decide
  have hnew : ∀ f, decorated.IdleAt f 0 := by
    intro f v _
    exact ⟨rfl, by simp [On, decorated]⟩
  obtain ⟨h, hrun, -, hwhole⟩ := @windows_dragged_whole decorated 3 0 _
    [⟨⟨.mouseMoveClick, ⟨9, 3, -2⟩⟩, 25, 15⟩] decorated_stackOk hrank rfl hnew hdepth (by decide)
  have hend : (deliverAll 3 0 decorated [⟨⟨.mouseMoveClick, ⟨9, 3, -2⟩⟩, 25, 15⟩]).map
      (fun h => h.rect 1) = some ⟨13, 12, 50, 50⟩ := by decide
  rw [hrun, Option.map_some, Option.some_inj] at hend
  have hmember : 3 ∈ decorated.children 1 := by decide
  have hpart : decorated.PartOf 1 3 := .single ⟨hmember, by decide⟩
  exact ⟨h, hrun, hend, (hwhole 1 3 hpart).trans (by decide)⟩

end WindowHeap

end Tellurium.Gui
