import Tellurium.Gui.Compositor
import Tellurium.Lib.Run
import Tellurium.Lib.Slots

/-!
The stack of child windows (`libGUI/Window.cpp`). Every window keeps its children in an
array, lowest priority first, and every child keeps its index there and its parent. The
windows live in one heap, since these links go both ways.
-/

namespace Tellurium.Gui

open Lib

def windowMax : Nat := 20

/-- What the overridden callbacks of the subclasses read. -/
inductive WindowKind where
  | window
  | menuBar
  | button (buttonFlags : UInt32) (imgHover : Bool)
deriving DecidableEq

/-- The two pointers a window keeps to one of its children, `hoverWindow` and
`selectedWindow`. -/
inductive Focus where
  | hover
  | select
deriving DecidableEq

/-- A call of `onWindowHover` or `onWindowSelect`, or of the callback that undoes it. -/
inductive Callback where
  | enter
  | leave
deriving DecidableEq

/-- The heap of windows, member by member. `windows w` is the array of `w`, of which
`numWindows w` slots are in use; `lastCall` is not a member, it records the last callback
each window got. -/
structure WindowHeap where
  windowID : Nat → Int
  flags : Nat → UInt32
  rect : Nat → Rect
  priority : Nat → Int
  parent : Nat → Option Nat
  windows : Nat → Nat → Nat
  numWindows : Nat → Nat
  focused : Focus → Nat → Option Nat
  lastCall : Focus → Nat → Option Callback
  kind : Nat → WindowKind

namespace WindowHeap

def setWindowID (h : WindowHeap) (w : Nat) (windowID : Int) : WindowHeap :=
  {h with windowID := Function.update h.windowID w windowID}

def setParent (h : WindowHeap) (w : Nat) (parent : Option Nat) : WindowHeap :=
  {h with parent := Function.update h.parent w parent}

/-- `windows[i] = w` in the window `this`. -/
def setSlot (h : WindowHeap) (this i w : Nat) : WindowHeap :=
  {h with windows := Function.update h.windows this (Function.update (h.windows this) i w)}

def setNumWindows (h : WindowHeap) (this n : Nat) : WindowHeap :=
  {h with numWindows := Function.update h.numWindows this n}

def setPriority (h : WindowHeap) (w : Nat) (priority : Int) : WindowHeap :=
  {h with priority := Function.update h.priority w priority}

def getFlag (h : WindowHeap) (w : Nat) (field : UInt32) : Bool :=
  h.flags w &&& field != 0

def setFlags (h : WindowHeap) (w : Nat) (fields : UInt32) : WindowHeap :=
  {h with flags := Function.update h.flags w (h.flags w ||| fields)}

/-- The attached children, lowest first. -/
def children (h : WindowHeap) (this : Nat) : List Nat :=
  slots (h.windows this) (h.numWindows this)

/-- The first loop of `appendWindow`, with `i` slots left to look at. -/
def insertIndex (h : WindowHeap) (this window : Nat) : Nat → Nat
  | 0 => 0
  | i + 1 =>
      if h.priority window ≥ h.priority (h.windows this i) then i + 1
      else insertIndex h this window i

/-- The second loop: the slots from `insertIndex` on move up, the last one first. -/
def shiftUp (this insertIndex : Nat) : Nat → WindowHeap → WindowHeap
  | 0, h => h
  | i + 1, h =>
      if i ≥ insertIndex then
        shiftUp this insertIndex i
          ((h.setSlot this (i + 1) (h.windows this i)).setWindowID (h.windows this i) (i + 1))
      else h

def appendWindow (h : WindowHeap) (this : Nat) (window : Option Nat) : Option Nat × WindowHeap :=
  match window with
  | none => (none, h)
  | some window =>
      if h.numWindows this = windowMax then (none, h)
      else
        let index := h.insertIndex this window (h.numWindows this)
        let h := shiftUp this index (h.numWindows this) h
        let h := ((h.setSlot this index window).setWindowID window index).setParent window this
        (some window, h.setNumWindows this (h.numWindows this + 1))

/-- The loop of `removeWindow` from slot `i` on, with `count` slots left to fill. -/
def shiftDown (this : Nat) : Nat → Nat → WindowHeap → WindowHeap
  | _, 0, h => h
  | i, count + 1, h =>
      shiftDown this (i + 1) count
        ((h.setSlot this i (h.windows this (i + 1))).setWindowID (h.windows this (i + 1)) i)

def removeWindowAt (h : WindowHeap) (this : Nat) (deleteIndex : Int) : Option Nat × WindowHeap :=
  if deleteIndex < 0 ∨ deleteIndex ≥ h.numWindows this then (none, h)
  else
    let index := deleteIndex.toNat
    let window := h.windows this index
    let h := shiftDown this index (h.numWindows this - 1 - index) h
    (some window, (h.setNumWindows this (h.numWindows this - 1)).setParent window none)

def removeWindow (h : WindowHeap) (this : Nat) (window : Option Nat) : Option Nat × WindowHeap :=
  match window with
  | none => (none, h)
  | some window => h.removeWindowAt this (h.windowID window)

/-- `moveToTop`. The source dereferences what `appendWindow` returns; that it is never null
is part of `moveToTop_spec`. -/
def moveToTop (h : WindowHeap) (this child : Nat) : Bool × WindowHeap :=
  if child ≠ h.windows this (h.windowID child).toNat then (false, h)
  else
    let oldWindowID := h.windowID child
    let h := (h.removeWindow this (some child)).2
    match h.appendWindow this (some child) with
    | (some win, h) =>
        (true, if h.windowID win ≠ oldWindowID then h.setFlags this windowFlagsDirty else h)
    | (none, h) => (true, h)

/-- One window's stack is in order: its children are distinct and know their index and their
parent, and their priorities do not decrease towards the top. -/
structure StackOk (h : WindowHeap) (this : Nat) : Prop where
  nodup : (h.children this).Nodup
  bounded : h.numWindows this ≤ windowMax
  ids : ∀ i < h.numWindows this, h.windowID (h.windows this i) = i
  parents : ∀ w ∈ h.children this, h.parent w = some this
  sorted : (h.children this).Pairwise fun v w => h.priority v ≤ h.priority w

def Attached (h : WindowHeap) (w : Nat) : Prop := ∃ this, w ∈ h.children this

variable {h : WindowHeap} {this w v idx n i j : Nat}

theorem mem_children : w ∈ h.children this ↔ ∃ i < h.numWindows this, h.windows this i = w :=
  Slots.mem_iff

theorem getElem?_children (h : WindowHeap) (this i : Nat) :
    (h.children this)[i]? = if i < h.numWindows this then some (h.windows this i) else none :=
  Slots.getElem? ..

/-- A slot in use holds only one index. -/
theorem StackOk.slot_inj (hok : h.StackOk this) (hi : i < h.numWindows this)
    (hj : j < h.numWindows this) (heq : h.windows this i = h.windows this j) : i = j := by
  have hids : ((i : Int) : Int) = j := by rw [← hok.ids i hi, heq, hok.ids j hj]
  exact Int.ofNat.inj hids

theorem StackOk.priority_le (hok : h.StackOk this) (hij : i ≤ j) (hj : j < h.numWindows this) :
    h.priority (h.windows this i) ≤ h.priority (h.windows this j) := by
  rcases Nat.eq_or_lt_of_le hij with rfl | hlt
  · exact le_refl _
  · exact Slots.pairwise_iff.mp hok.sorted i j hlt hj

/-! The scan for the insertion index. -/

theorem insertIndex_le (h : WindowHeap) (this w n : Nat) : h.insertIndex this w n ≤ n := by
  induction n with
  | zero => exact Nat.le_refl 0
  | succ n ih =>
      rw [insertIndex]
      split_ifs
      · exact Nat.le_refl _
      · exact Nat.le_succ_of_le ih

theorem above_insertIndex (hle : h.insertIndex this w n ≤ j) (hj : j < n) :
    h.priority w < h.priority (h.windows this j) := by
  induction n with
  | zero => exact absurd hj (Nat.not_lt_zero j)
  | succ n ih =>
      rw [insertIndex] at hle
      split_ifs at hle with hge
      · omega
      · rcases Nat.lt_succ_iff_lt_or_eq.mp hj with hlt | rfl
        · exact ih hle hlt
        · exact not_le.mp hge

theorem under_insertIndex (hpos : 0 < h.insertIndex this w n) :
    h.priority (h.windows this (h.insertIndex this w n - 1)) ≤ h.priority w := by
  induction n with
  | zero => exact absurd hpos (Nat.lt_irrefl 0)
  | succ n ih =>
      rw [insertIndex] at hpos ⊢
      split_ifs at hpos ⊢ with hge
      · exact hge
      · exact ih hpos

/-! The loop that opens a gap. -/

/-- Only slots of `this` and indices move. -/
theorem shiftUp_frame (this idx n : Nat) (h : WindowHeap) : ∃ windows windowID,
    shiftUp this idx n h = {h with windows := windows, windowID := windowID} := by
  induction n generalizing h with
  | zero => exact ⟨_, _, rfl⟩
  | succ n ih =>
      rw [shiftUp]
      split_ifs
      · obtain ⟨windows, windowID, heq⟩ := ih
          ((h.setSlot this (n + 1) (h.windows this n)).setWindowID (h.windows this n) (n + 1))
        exact ⟨windows, windowID, heq⟩
      · exact ⟨_, _, rfl⟩

theorem shiftUp_windows (this idx n : Nat) (h : WindowHeap) (q j : Nat) :
    (shiftUp this idx n h).windows q j =
      if q = this ∧ idx < j ∧ j ≤ n then h.windows this (j - 1) else h.windows q j := by
  induction n generalizing h with
  | zero =>
      rw [if_neg (by omega)]
      rfl
  | succ n ih =>
      rw [shiftUp]
      split_ifs with hge hcond hcond
      · rw [ih]
        obtain ⟨rfl, hlt, hle⟩ := hcond
        split_ifs with hlow
        · simp [setSlot, setWindowID, Function.update_of_ne (show j - 1 ≠ n + 1 by omega)]
        · obtain rfl : j = n + 1 := by omega
          simp [setSlot, setWindowID]
      · rw [ih, if_neg (by omega)]
        by_cases hq : q = this
        · subst hq
          have hj : j ≠ n + 1 := by omega
          simp [setSlot, setWindowID, hj]
        · simp [setSlot, setWindowID, hq]
      · omega
      · rfl

theorem shiftUp_windowID_other (hw : ∀ j, idx ≤ j → j < n → h.windows this j ≠ w) :
    (shiftUp this idx n h).windowID w = h.windowID w := by
  induction n generalizing h with
  | zero => rfl
  | succ n ih =>
      rw [shiftUp]
      split_ifs with hge
      · have hne : w ≠ h.windows this n := fun heq => hw n hge (Nat.lt_succ_self n) heq.symm
        rw [ih]
        · exact Function.update_of_ne hne _ _
        · intro j hle hlt
          simpa [setSlot, setWindowID, Function.update_of_ne (show j ≠ n + 1 by omega)] using
            hw j hle (Nat.lt_succ_of_lt hlt)
      · rfl

theorem shiftUp_windowID_slot (hinj : ∀ i j, i < n → j < n → h.windows this i = h.windows this j → i = j)
    (hle : idx ≤ j) (hj : j < n) :
    (shiftUp this idx n h).windowID (h.windows this j) = j + 1 := by
  induction n generalizing h with
  | zero => exact absurd hj (Nat.not_lt_zero j)
  | succ n ih =>
      rw [shiftUp, if_pos (by omega)]
      have hslot : ∀ i ≤ n, ((h.setSlot this (n + 1) (h.windows this n)).setWindowID
          (h.windows this n) (n + 1)).windows this i = h.windows this i := by
        intro i hi
        simp [setSlot, setWindowID, Function.update_of_ne (show i ≠ n + 1 by omega)]
      rcases Nat.lt_succ_iff_lt_or_eq.mp hj with hlt | rfl
      · rw [← hslot j (by omega)]
        apply ih _ hlt
        intro i k hi hk heq
        rw [hslot i (by omega), hslot k (by omega)] at heq
        exact hinj i k (by omega) (by omega) heq
      · rw [shiftUp_windowID_other]
        · simp [setSlot, setWindowID]
        · intro i _ hi heq
          rw [hslot i (by omega)] at heq
          have := hinj i j (by omega) (by omega) heq
          omega

/-- Nothing but stacks, parents and flags differs. -/
structure SameButStacks (h h' : WindowHeap) : Prop where
  rect : h'.rect = h.rect
  priority : h'.priority = h.priority
  focused : h'.focused = h.focused
  lastCall : h'.lastCall = h.lastCall
  kind : h'.kind = h.kind

theorem SameButStacks.trans {h' h'' : WindowHeap} (h₁ : SameButStacks h h')
    (h₂ : SameButStacks h' h'') : SameButStacks h h'' :=
  ⟨h₂.rect.trans h₁.rect, h₂.priority.trans h₁.priority, h₂.focused.trans h₁.focused,
    h₂.lastCall.trans h₁.lastCall, h₂.kind.trans h₁.kind⟩

/-- What `appendWindow` does to the stacks when it inserts `w` at `idx`. -/
structure Inserted (h h' : WindowHeap) (this w idx : Nat) : Prop where
  same : SameButStacks h h'
  parent : h'.parent = Function.update h.parent w (some this)
  numWindows : h'.numWindows = Function.update h.numWindows this (h.numWindows this + 1)
  elsewhere : ∀ q, q ≠ this → h'.windows q = h.windows q
  slot : ∀ j, h'.windows this j =
    if j = idx then w
    else if idx < j ∧ j ≤ h.numWindows this then h.windows this (j - 1)
    else h.windows this j
  newID : h'.windowID w = idx
  slotID : ∀ j < h.numWindows this,
    h'.windowID (h.windows this j) = if idx ≤ j then (j : Int) + 1 else j
  otherID : ∀ v, v ≠ w → v ∉ h.children this → h'.windowID v = h.windowID v

theorem not_attached_of_parent (hok : ∀ q, h.StackOk q) (hw : h.parent w = none) :
    ¬ h.Attached w := by
  rintro ⟨q, hq⟩
  have hparent := (hok q).parents w hq
  rw [hw] at hparent
  cases hparent

theorem appendWindow_inserted (hroom : h.numWindows this ≠ windowMax) (hok : h.StackOk this)
    (hw : w ∉ h.children this) :
    ∃ h', h.appendWindow this (some w) = (some w, h') ∧
      Inserted h h' this w (h.insertIndex this w (h.numWindows this)) := by
  obtain ⟨idx, hidx⟩ : ∃ idx, h.insertIndex this w (h.numWindows this) = idx := ⟨_, rfl⟩
  obtain ⟨windows, windowID, hshift⟩ := shiftUp_frame this idx (h.numWindows this) h
  have hwindows := shiftUp_windows this idx (h.numWindows this) h
  have hother : ∀ v, (∀ j, idx ≤ j → j < h.numWindows this → h.windows this j ≠ v) →
      (shiftUp this idx (h.numWindows this) h).windowID v = h.windowID v :=
    fun v hv => shiftUp_windowID_other hv
  have hslot : ∀ j, idx ≤ j → j < h.numWindows this →
      (shiftUp this idx (h.numWindows this) h).windowID (h.windows this j) = j + 1 :=
    fun j hle hj => shiftUp_windowID_slot (fun i k hi hk => hok.slot_inj hi hk) hle hj
  rw [hshift] at hwindows hother hslot
  have hne : ∀ j < h.numWindows this, h.windows this j ≠ w :=
    fun j hj heq => hw (mem_children.mpr ⟨j, hj, heq⟩)
  rw [appendWindow, if_neg hroom]
  dsimp only
  rw [hidx, hshift]
  refine ⟨_, rfl, ⟨⟨rfl, rfl, rfl, rfl, rfl⟩, rfl, rfl, ?_, ?_, Function.update_self .., ?_, ?_⟩⟩
  · intro q hq
    funext j
    refine (congrFun (Function.update_of_ne hq _ _) j).trans ?_
    simpa [hq] using hwindows q j
  · intro j
    refine (congrFun (Function.update_self _ _ _) j).trans ?_
    by_cases hj : j = idx
    · rw [hj, Function.update_self, if_pos rfl]
    · rw [Function.update_of_ne hj, if_neg hj]
      simpa using hwindows this j
  · intro j hj
    refine (Function.update_of_ne (hne j hj) _ _).trans ?_
    split_ifs with hle
    · exact hslot j hle hj
    · refine (hother _ ?_).trans (hok.ids j hj)
      intro k hk hkn heq
      have := hok.slot_inj hkn hj heq
      omega
  · intro v hvw hv
    refine (Function.update_of_ne hvw _ _).trans ?_
    exact hother v fun j _ hj heq => hv (mem_children.mpr ⟨j, hj, heq⟩)

/-- The window stands directly above every sibling of at most its priority, and nothing else
has changed its place. -/
structure Placed (h h' : WindowHeap) (this w : Nat) (siblings : List Nat) : Prop where
  placed : ∃ below above, siblings = below ++ above ∧ h'.children this = below ++ w :: above ∧
    (∀ v ∈ below, h.priority v ≤ h.priority w) ∧ ∀ v ∈ above, h.priority w < h.priority v
  elsewhere : ∀ q, q ≠ this → h'.children q = h.children q

theorem Inserted.placed {h' : WindowHeap} (hok : h.StackOk this)
    (hins : Inserted h h' this w (h.insertIndex this w (h.numWindows this))) :
    Placed h h' this w (h.children this) := by
  obtain ⟨idx, hidx⟩ : ∃ idx, h.insertIndex this w (h.numWindows this) = idx := ⟨_, rfl⟩
  have hidxle : idx ≤ h.numWindows this := hidx ▸ insertIndex_le h this w _
  rw [hidx] at hins
  constructor
  · refine ⟨(h.children this).take idx, (h.children this).drop idx,
      (List.take_append_drop _ _).symm, ?_, ?_, ?_⟩
    · rw [children, hins.numWindows, Function.update_self]
      refine Slots.insert hidxle ?_ ?_ ?_
      · intro j hj
        rw [hins.slot, if_neg (by omega), if_neg (by omega)]
      · rw [hins.slot, if_pos rfl]
      · intro j hle hj
        rw [hins.slot, if_neg (by omega), if_pos (by omega), Nat.add_sub_cancel]
    · intro v hv
      obtain ⟨j, hj, -, rfl⟩ := Slots.exists_of_mem_take hv
      have htop := under_insertIndex (hidx ▸ Nat.zero_lt_of_lt hj)
      rw [hidx] at htop
      exact (hok.priority_le (by omega) (by omega)).trans htop
    · intro v hv
      obtain ⟨j, hle, hj, rfl⟩ := Slots.exists_of_mem_drop hv
      exact above_insertIndex (hidx ▸ hle) hj
  · intro q hq
    rw [children, hins.elsewhere q hq, hins.numWindows, Function.update_of_ne hq]
    rfl

/-- A stack whose children keep their places, indices, parents and priorities stays in order. -/
theorem StackOk.congr {h' : WindowHeap} (hok : h.StackOk this)
    (hchildren : h'.children this = h.children this)
    (hsame : ∀ w ∈ h.children this, h'.windowID w = h.windowID w ∧ h'.parent w = h.parent w ∧
      h'.priority w = h.priority w) : h'.StackOk this := by
  have hnum : h'.numWindows this = h.numWindows this := by
    simpa [children] using congrArg List.length hchildren
  constructor
  · rw [hchildren]
    exact hok.nodup
  · rw [hnum]
    exact hok.bounded
  · intro i hi
    have hslot := getElem?_children h' this i
    rw [hchildren, getElem?_children, if_pos hi, if_pos (hnum ▸ hi)] at hslot
    rw [← Option.some.inj hslot]
    rw [(hsame _ (mem_children.mpr ⟨i, hnum ▸ hi, rfl⟩)).1]
    exact hok.ids i (hnum ▸ hi)
  · rw [hchildren]
    intro w hw
    rw [(hsame w hw).2.1]
    exact hok.parents w hw
  · rw [hchildren]
    refine hok.sorted.imp_of_mem ?_
    intro v w hv hw hle
    rw [(hsame v hv).2.2, (hsame w hw).2.2]
    exact hle

theorem StackOk.not_mem_of_ne {q : Nat} (hq : h.StackOk q) (hthis : h.StackOk this) (hne : q ≠ this)
    (hw : w ∈ h.children q) : w ∉ h.children this := by
  intro hmem
  have hparent := (hq.parents w hw).symm.trans (hthis.parents w hmem)
  exact hne (Option.some.inj hparent)

theorem Inserted.stackOk {h' : WindowHeap} (hok : ∀ q, h.StackOk q) (hw : ¬ h.Attached w)
    (hroom : h.numWindows this ≠ windowMax)
    (hins : Inserted h h' this w (h.insertIndex this w (h.numWindows this))) (q : Nat) :
    h'.StackOk q := by
  have hfree : ∀ q, w ∉ h.children q := fun q hmem => hw ⟨q, hmem⟩
  have hplaced := hins.placed (hok this)
  by_cases hq : q = this
  · subst hq
    obtain ⟨below, above, hsib, hchildren, hbelow, habove⟩ := hplaced.placed
    have hnodup := (hok q).nodup
    have hsorted := (hok q).sorted
    have hparents := (hok q).parents
    have hnot := hfree q
    rw [hsib] at hnodup hsorted hparents hnot
    constructor
    · rw [hchildren, List.nodup_middle]
      exact List.nodup_cons.mpr ⟨hnot, hnodup⟩
    · rw [hins.numWindows, Function.update_self]
      have := (hok q).bounded
      omega
    · intro i hi
      rw [hins.numWindows, Function.update_self] at hi
      rw [hins.slot]
      split_ifs with hidx hgt
      · rw [hins.newID, hidx]
      · rw [hins.slotID _ (by omega), if_pos (by omega)]
        omega
      · have hle := insertIndex_le h q w (h.numWindows q)
        rw [hins.slotID _ (by omega), if_neg (by omega)]
    · rw [hchildren, hins.parent]
      intro v hv
      rw [List.mem_append, List.mem_cons] at hv
      by_cases hvw : v = w
      · rw [hvw, Function.update_self]
      · rw [Function.update_of_ne hvw]
        exact hparents v (List.mem_append.mpr (hv.imp_right fun h => h.resolve_left hvw))
    · rw [hchildren, hins.same.priority]
      obtain ⟨hlow, hhigh, hcross⟩ := List.pairwise_append.mp hsorted
      refine List.pairwise_append.mpr ⟨hlow, ?_, ?_⟩
      · exact List.pairwise_cons.mpr ⟨fun v hv => (habove v hv).le, hhigh⟩
      · intro u hu v hv
        rcases List.mem_cons.mp hv with rfl | hv
        · exact hbelow u hu
        · exact hcross u hu v hv
  · apply (hok q).congr (hplaced.elsewhere q hq)
    intro v hv
    have hvw : v ≠ w := by
      rintro rfl
      exact hfree q hv
    refine ⟨hins.otherID v hvw ((hok q).not_mem_of_ne (hok this) hq hv), ?_, ?_⟩
    · rw [hins.parent, Function.update_of_ne hvw]
    · rw [hins.same.priority]

/-! The loop that closes a gap. -/

theorem shiftDown_frame (this i n : Nat) (h : WindowHeap) : ∃ windows windowID,
    shiftDown this i n h = {h with windows := windows, windowID := windowID} := by
  induction n generalizing i h with
  | zero => exact ⟨_, _, rfl⟩
  | succ n ih =>
      obtain ⟨windows, windowID, heq⟩ := ih (i + 1)
        ((h.setSlot this i (h.windows this (i + 1))).setWindowID (h.windows this (i + 1)) i)
      exact ⟨windows, windowID, heq⟩

theorem shiftDown_windows (this i n : Nat) (h : WindowHeap) (q j : Nat) :
    (shiftDown this i n h).windows q j =
      if q = this ∧ i ≤ j ∧ j < i + n then h.windows this (j + 1) else h.windows q j := by
  induction n generalizing i h with
  | zero =>
      rw [if_neg (by omega)]
      rfl
  | succ n ih =>
      rw [shiftDown, ih]
      by_cases hq : q = this
      · subst hq
        rcases Nat.lt_trichotomy j i with hlt | rfl | hgt
        · rw [if_neg (by omega), if_neg (by omega)]
          simp [setSlot, setWindowID, Function.update_of_ne (Nat.ne_of_lt hlt)]
        · rw [if_neg (by omega), if_pos (by omega)]
          simp [setSlot, setWindowID]
        · have hne : j + 1 ≠ i := by omega
          simp [setSlot, setWindowID, Function.update_of_ne (Nat.ne_of_gt hgt),
            Function.update_of_ne hne, show i ≤ j by omega, Nat.succ_le_iff.mpr hgt,
            Nat.add_comm n 1, ← Nat.add_assoc]
      · rw [if_neg (by simp [hq]), if_neg (by simp [hq])]
        simp [setSlot, setWindowID, hq]

theorem shiftDown_windowID_other (hw : ∀ j, i < j → j ≤ i + n → h.windows this j ≠ w) :
    (shiftDown this i n h).windowID w = h.windowID w := by
  induction n generalizing i h with
  | zero => rfl
  | succ n ih =>
      have hne : w ≠ h.windows this (i + 1) := fun heq => hw (i + 1) (by omega) (by omega) heq.symm
      rw [shiftDown, ih]
      · exact Function.update_of_ne hne _ _
      · intro j hlt hle
        simpa [setSlot, setWindowID, Function.update_of_ne (show j ≠ i by omega)] using
          hw j (by omega) (by omega)

theorem shiftDown_windowID_slot
    (hinj : ∀ k j, i < k → i < j → k ≤ i + n → j ≤ i + n →
      h.windows this k = h.windows this j → k = j)
    (hlt : i < j) (hj : j ≤ i + n) :
    (shiftDown this i n h).windowID (h.windows this j) = j - 1 := by
  induction n generalizing i h with
  | zero => omega
  | succ n ih =>
      rw [shiftDown]
      have hslot : ∀ k, i < k → ((h.setSlot this i (h.windows this (i + 1))).setWindowID
          (h.windows this (i + 1)) i).windows this k = h.windows this k := by
        intro k hk
        simp [setSlot, setWindowID, Function.update_of_ne (Nat.ne_of_gt hk)]
      rcases Nat.eq_or_lt_of_le (Nat.succ_le_of_lt hlt) with rfl | hgt
      · rw [shiftDown_windowID_other]
        · simp [setSlot, setWindowID]
        · intro k hk hkn heq
          rw [hslot k (by omega)] at heq
          have := hinj k (i + 1) (by omega) (by omega) (by omega) (by omega) heq
          omega
      · rw [← hslot j hlt]
        refine ih ?_ hgt (by omega)
        intro k l hk hl hkn hln heq
        rw [hslot k (by omega), hslot l (by omega)] at heq
        exact hinj k l (by omega) (by omega) (by omega) (by omega) heq

/-- What `removeWindow` does to the stacks when it removes slot `idx`. -/
structure Removed (h h' : WindowHeap) (this idx : Nat) : Prop where
  same : SameButStacks h h'
  parent : h'.parent = Function.update h.parent (h.windows this idx) none
  numWindows : h'.numWindows = Function.update h.numWindows this (h.numWindows this - 1)
  elsewhere : ∀ q, q ≠ this → h'.windows q = h.windows q
  slot : ∀ j, h'.windows this j =
    if idx ≤ j ∧ j + 1 < h.numWindows this then h.windows this (j + 1) else h.windows this j
  slotID : ∀ j < h.numWindows this,
    h'.windowID (h.windows this j) = if idx < j then (j : Int) - 1 else j
  otherID : ∀ v, v ∉ h.children this → h'.windowID v = h.windowID v

theorem removeWindowAt_removed (hidx : idx < h.numWindows this) (hok : h.StackOk this) :
    ∃ h', h.removeWindowAt this idx = (some (h.windows this idx), h') ∧ Removed h h' this idx := by
  obtain ⟨n, hn⟩ : ∃ n, h.numWindows this - 1 - idx = n := ⟨_, rfl⟩
  obtain ⟨windows, windowID, hshift⟩ := shiftDown_frame this idx n h
  have hwindows := shiftDown_windows this idx n h
  have hother : ∀ v, (∀ j, idx < j → j ≤ idx + n → h.windows this j ≠ v) →
      (shiftDown this idx n h).windowID v = h.windowID v := fun v hv => shiftDown_windowID_other hv
  have hslot : ∀ j, idx < j → j ≤ idx + n →
      (shiftDown this idx n h).windowID (h.windows this j) = j - 1 := fun j hlt hj =>
    shiftDown_windowID_slot (fun k l _ _ hk hl => hok.slot_inj (by omega) (by omega)) hlt hj
  rw [hshift] at hwindows hother hslot
  rw [removeWindowAt, if_neg (by omega), Int.toNat_natCast]
  dsimp only
  rw [hn, hshift]
  refine ⟨_, rfl, ⟨⟨rfl, rfl, rfl, rfl, rfl⟩, rfl, rfl, ?_, ?_, ?_, ?_⟩⟩
  · intro q hq
    funext j
    refine (hwindows q j).trans (if_neg ?_)
    exact fun hcond => hq hcond.1
  · intro j
    refine (hwindows this j).trans (if_congr ?_ rfl rfl)
    omega
  · intro j hj
    split_ifs with hlt
    · exact hslot j hlt (by omega)
    · refine (hother _ ?_).trans (hok.ids j hj)
      intro k hk hkn heq
      have := hok.slot_inj (by omega) hj heq
      omega
  · intro v hv
    exact hother v fun j _ hj heq => hv (mem_children.mpr ⟨j, by omega, heq⟩)

theorem removeWindowAt_invalid {deleteIndex : Int}
    (hindex : deleteIndex < 0 ∨ deleteIndex ≥ h.numWindows this) :
    h.removeWindowAt this deleteIndex = (none, h) := by
  rw [removeWindowAt, if_pos hindex]

theorem Removed.children_eq {h' : WindowHeap} (hidx : idx < h.numWindows this)
    (hrem : Removed h h' this idx) : h'.children this = (h.children this).eraseIdx idx := by
  obtain ⟨n, hn⟩ : ∃ n, h.numWindows this = n + 1 := ⟨_, (Nat.succ_pred_eq_of_pos (by omega)).symm⟩
  have hnum : h'.numWindows this = n := by
    rw [hrem.numWindows, Function.update_self, hn, Nat.add_sub_cancel]
  rw [children, children, hn, hnum]
  refine Slots.erase (by omega) ?_ ?_
  · intro j hj
    rw [hrem.slot, if_neg (by omega)]
  · intro j hle hj
    rw [hrem.slot, if_pos (by omega)]

theorem Removed.children_elsewhere {h' : WindowHeap} {q : Nat} (hrem : Removed h h' this idx)
    (hq : q ≠ this) : h'.children q = h.children q := by
  rw [children, hrem.elsewhere q hq, hrem.numWindows, Function.update_of_ne hq]
  rfl

theorem Removed.not_mem {h' : WindowHeap} (hok : h.StackOk this) (hidx : idx < h.numWindows this)
    (hrem : Removed h h' this idx) : h.windows this idx ∉ h'.children this := by
  rw [hrem.children_eq hidx, List.mem_eraseIdx_iff_getElem?]
  rintro ⟨j, hne, hj⟩
  rw [getElem?_children] at hj
  split_ifs at hj with hlt
  exact hne (hok.slot_inj hlt hidx (Option.some.inj hj))

theorem Removed.stackOk {h' : WindowHeap} (hok : ∀ q, h.StackOk q) (hidx : idx < h.numWindows this)
    (hrem : Removed h h' this idx) (q : Nat) : h'.StackOk q := by
  have hmem : h.windows this idx ∈ h.children this := mem_children.mpr ⟨idx, hidx, rfl⟩
  by_cases hq : q = this
  · subst hq
    have hchildren := hrem.children_eq hidx
    have hsub : (h'.children q).Sublist (h.children q) := hchildren ▸ List.eraseIdx_sublist ..
    constructor
    · exact (hok q).nodup.sublist hsub
    · rw [hrem.numWindows, Function.update_self]
      exact (Nat.sub_le _ _).trans (hok q).bounded
    · intro i hi
      rw [hrem.numWindows, Function.update_self] at hi
      rw [hrem.slot]
      split_ifs with hle
      · rw [hrem.slotID _ hle.2, if_pos (by omega)]
        omega
      · rw [hrem.slotID _ (by omega), if_neg (by omega)]
    · intro v hv
      have hne : v ≠ h.windows q idx := by
        rintro rfl
        exact hrem.not_mem (hok q) hidx hv
      rw [hrem.parent, Function.update_of_ne hne]
      exact (hok q).parents v (hsub.subset hv)
    · rw [hrem.same.priority]
      exact (hok q).sorted.sublist hsub
  · apply (hok q).congr (hrem.children_elsewhere hq)
    intro v hv
    have hnot := (hok q).not_mem_of_ne (hok this) hq hv
    have hne : v ≠ h.windows this idx := by
      rintro rfl
      exact hnot hmem
    refine ⟨hrem.otherID v hnot, ?_, ?_⟩
    · rw [hrem.parent, Function.update_of_ne hne]
    · rw [hrem.same.priority]

/-- A child is found in its parent's stack at its own index. -/
theorem StackOk.slot_of_child (hok : h.StackOk this) (hw : w ∈ h.children this) :
    ∃ i < h.numWindows this, h.windowID w = i ∧ h.windows this i = w := by
  obtain ⟨i, hi, rfl⟩ := mem_children.mp hw
  exact ⟨i, hi, hok.ids i hi, rfl⟩

theorem removeWindow_removed (hok : h.StackOk this) (hw : w ∈ h.children this) :
    ∃ h' i, h.removeWindow this (some w) = (some w, h') ∧ i < h.numWindows this ∧
      h.windows this i = w ∧ Removed h h' this i := by
  obtain ⟨i, hi, hid, hslot⟩ := hok.slot_of_child hw
  obtain ⟨h', heq, hrem⟩ := removeWindowAt_removed hi hok
  refine ⟨h', i, ?_, hi, hslot, hrem⟩
  rw [removeWindow, hid, heq, hslot]

theorem Removed.not_attached {h' : WindowHeap} (hok : ∀ q, h.StackOk q)
    (hidx : idx < h.numWindows this) (hrem : Removed h h' this idx) :
    ¬ h'.Attached (h.windows this idx) := by
  apply not_attached_of_parent (hrem.stackOk hok hidx)
  rw [hrem.parent, Function.update_self]

theorem Removed.children_erase {h' : WindowHeap} (hok : h.StackOk this)
    (hidx : idx < h.numWindows this) (hrem : Removed h h' this idx) :
    h'.children this = (h.children this).erase (h.windows this idx) := by
  have hslot := getElem?_children h this idx
  rw [if_pos hidx] at hslot
  obtain ⟨hlt, hget⟩ := List.getElem?_eq_some_iff.mp hslot
  rw [hrem.children_eq hidx, ← hget]
  exact (hok.nodup.erase_getElem _ hlt).symm

/-- `moveToTop` of a child succeeds and changes nothing but its place. -/
theorem moveToTop_spec (hok : ∀ q, h.StackOk q) (hw : w ∈ h.children this) :
    ∃ h', h.moveToTop this w = (true, h') ∧ Placed h h' this w ((h.children this).erase w) ∧
      (∀ q, h'.StackOk q) ∧ SameButStacks h h' ∧ h'.parent = h.parent := by
  obtain ⟨h₁, i, hremove, hi, hslot, hrem⟩ := removeWindow_removed (hok this) hw
  have hok₁ := hrem.stackOk hok hi
  have hfree := hrem.not_attached hok hi
  rw [hslot] at hfree
  have hroom : h₁.numWindows this ≠ windowMax := by
    rw [hrem.numWindows, Function.update_self]
    have := (hok this).bounded
    omega
  obtain ⟨h₂, happend, hins⟩ :=
    appendWindow_inserted hroom (hok₁ this) (fun hmem => hfree ⟨this, hmem⟩)
  have hok₂ := hins.stackOk hok₁ hfree hroom
  have hplaced := hins.placed (hok₁ this)
  rw [hrem.children_erase (hok this) hi, hslot] at hplaced
  have hplaced : Placed h h₂ this w ((h.children this).erase w) := by
    refine ⟨?_, fun q hq => (hplaced.elsewhere q hq).trans (hrem.children_elsewhere hq)⟩
    simpa only [hrem.same.priority] using hplaced.placed
  have hparent : h₂.parent = h.parent := by
    rw [hins.parent, hrem.parent, hslot, Function.update_idem, Function.update_eq_self_iff,
      (hok this).parents w hw]
  have hsame := hrem.same.trans hins.same
  obtain ⟨_, _, hid, hchild⟩ := (hok this).slot_of_child hw
  have hfound : ¬ w ≠ h.windows this (h.windowID w).toNat := by
    rw [hid, Int.toNat_natCast, hchild]
    exact not_not_intro rfl
  rw [moveToTop, if_neg hfound, hremove]
  dsimp only
  rw [happend]
  dsimp only
  split_ifs
  · refine ⟨_, rfl, ⟨hplaced.placed, hplaced.elsewhere⟩, ?_, ?_, hparent⟩
    · intro q
      exact (hok₂ q).congr rfl fun v _ => ⟨rfl, rfl, rfl⟩
    · exact ⟨hsame.rect, hsame.priority, hsame.focused, hsame.lastCall, hsame.kind⟩
  · exact ⟨_, rfl, hplaced, hok₂, hsame, hparent⟩

/-! Whole runs. -/

inductive StackOp where
  | appendWindow (this : Nat) (window : Option Nat)
  | removeWindowAt (this : Nat) (deleteIndex : Int)
  | removeWindow (this window : Nat)
  | moveToTop (this child : Nat)
  | setPriority (window : Nat) (priority : Int)

def step (h : WindowHeap) : StackOp → WindowHeap
  | .appendWindow this window => (h.appendWindow this window).2
  | .removeWindowAt this deleteIndex => (h.removeWindowAt this deleteIndex).2
  | .removeWindow this window => (h.removeWindow this (some window)).2
  | .moveToTop this child => (h.moveToTop this child).2
  | .setPriority window priority => h.setPriority window priority

/-- A window is appended, or gets another priority, while it is attached nowhere; what is
removed or raised by pointer is a child. -/
def Allowed (h : WindowHeap) : StackOp → Prop
  | .appendWindow _ window => ∀ w, window = some w → ¬ h.Attached w
  | .removeWindowAt _ _ => True
  | .removeWindow this window => window ∈ h.children this
  | .moveToTop this child => child ∈ h.children this
  | .setPriority window _ => ¬ h.Attached window

/-- The children of `this` become `siblings`; all other stacks stay. -/
def Dropped (h h' : WindowHeap) (this : Nat) (siblings : List Nat) : Prop :=
  h'.children this = siblings ∧ ∀ q, q ≠ this → h'.children q = h.children q

/-- What each operation returns and where it leaves the children. -/
def Meets (h : WindowHeap) : StackOp → Prop
  | .appendWindow this none => h.appendWindow this none = (none, h)
  | .appendWindow this (some w) =>
      if h.numWindows this = windowMax then h.appendWindow this (some w) = (none, h)
      else ∃ h', h.appendWindow this (some w) = (some w, h') ∧ Placed h h' this w (h.children this)
  | .removeWindowAt this deleteIndex =>
      if deleteIndex < 0 ∨ deleteIndex ≥ h.numWindows this then
        h.removeWindowAt this deleteIndex = (none, h)
      else ∃ h', h.removeWindowAt this deleteIndex = (some (h.windows this deleteIndex.toNat), h') ∧
        Dropped h h' this ((h.children this).eraseIdx deleteIndex.toNat)
  | .removeWindow this w =>
      ∃ h', h.removeWindow this (some w) = (some w, h') ∧ Dropped h h' this ((h.children this).erase w)
  | .moveToTop this child =>
      ∃ h', h.moveToTop this child = (true, h') ∧ Placed h h' this child ((h.children this).erase child)
  | .setPriority _ _ => True

theorem step_stackOk {op : StackOp} (hok : ∀ q, h.StackOk q) (hop : h.Allowed op) :
    ∀ q, (h.step op).StackOk q := by
  cases op with
  | appendWindow this window =>
      cases window with
      | none => exact hok
      | some w =>
          by_cases hroom : h.numWindows this = windowMax
          · rw [step, appendWindow, if_pos hroom]
            exact hok
          · have hfree := hop w rfl
            obtain ⟨h', heq, hins⟩ :=
              appendWindow_inserted hroom (hok this) fun hmem => hfree ⟨this, hmem⟩
            rw [step, heq]
            exact hins.stackOk hok hfree hroom
  | removeWindowAt this deleteIndex =>
      by_cases hindex : deleteIndex < 0 ∨ deleteIndex ≥ h.numWindows this
      · rw [step, removeWindowAt_invalid hindex]
        exact hok
      · obtain ⟨i, rfl⟩ := Int.eq_ofNat_of_zero_le (show 0 ≤ deleteIndex by omega)
        have hi : i < h.numWindows this := by omega
        obtain ⟨h', heq, hrem⟩ := removeWindowAt_removed hi (hok this)
        rw [step, heq]
        exact hrem.stackOk hok hi
  | removeWindow this w =>
      obtain ⟨h', i, heq, hi, -, hrem⟩ := removeWindow_removed (hok this) hop
      rw [step, heq]
      exact hrem.stackOk hok hi
  | moveToTop this child =>
      obtain ⟨h', heq, -, hok', -⟩ := moveToTop_spec hok hop
      rw [step, heq]
      exact hok'
  | setPriority w priority =>
      intro q
      have hchildren : (h.setPriority w priority).children q = h.children q := rfl
      apply (hok q).congr hchildren
      intro v hv
      refine ⟨rfl, rfl, Function.update_of_ne ?_ _ _⟩
      rintro rfl
      exact hop ⟨q, hv⟩

theorem step_meets {op : StackOp} (hok : ∀ q, h.StackOk q) (hop : h.Allowed op) : h.Meets op := by
  cases op with
  | appendWindow this window =>
      cases window with
      | none => rfl
      | some w =>
          rw [Meets]
          split_ifs with hroom
          · rw [appendWindow, if_pos hroom]
          · obtain ⟨h', heq, hins⟩ :=
              appendWindow_inserted hroom (hok this) fun hmem => hop w rfl ⟨this, hmem⟩
            exact ⟨h', heq, hins.placed (hok this)⟩
  | removeWindowAt this deleteIndex =>
      rw [Meets]
      split_ifs with hindex
      · exact removeWindowAt_invalid hindex
      · obtain ⟨i, rfl⟩ := Int.eq_ofNat_of_zero_le (show 0 ≤ deleteIndex by omega)
        have hi : i < h.numWindows this := by omega
        obtain ⟨h', heq, hrem⟩ := removeWindowAt_removed hi (hok this)
        exact ⟨h', heq, hrem.children_eq hi, fun q hq => hrem.children_elsewhere hq⟩
  | removeWindow this w =>
      obtain ⟨h', i, heq, hi, hslot, hrem⟩ := removeWindow_removed (hok this) hop
      refine ⟨h', heq, ?_, fun q hq => hrem.children_elsewhere hq⟩
      rw [← hslot]
      exact hrem.children_erase (hok this) hi
  | moveToTop this child =>
      obtain ⟨h', heq, hplaced, -⟩ := moveToTop_spec hok hop
      exact ⟨h', heq, hplaced⟩
  | setPriority w priority => trivial

theorem stackOk_empty {q : Nat} (hempty : h.numWindows q = 0) : h.StackOk q := by
  have hchildren : h.children q = [] := by
    rw [children, hempty]
    rfl
  constructor
  · rw [hchildren]
    exact List.nodup_nil
  · rw [hempty]
    exact Nat.zero_le _
  · intro i hi
    rw [hempty] at hi
    exact absurd hi (Nat.not_lt_zero i)
  · rw [hchildren]
    exact fun w hw => absurd hw List.not_mem_nil
  · rw [hchildren]
    exact List.Pairwise.nil

/-- From newly created windows, whatever is appended, removed and raised where: every stack
stays in order, and every operation moves what it is called for and nothing else. -/
theorem window_stack {h₀ : WindowHeap} {ops : List StackOp} (hempty : ∀ w, h₀.numWindows w = 0)
    (hops : EveryStep step Allowed h₀ ops) :
    (∀ this, (ops.foldl step h₀).StackOk this) ∧
      ∀ op, (ops.foldl step h₀).Allowed op → (ops.foldl step h₀).Meets op := by
  have hok : ∀ q, (ops.foldl step h₀).StackOk q :=
    EveryStep.inv (fun h => ∀ q, h.StackOk q) (fun h op hok hop => step_stackOk hok hop)
      (fun q => stackOk_empty (hempty q)) List.prefix_rfl hops
  exact ⟨hok, fun op hop => step_meets hok hop⟩

/-- New windows: the one at address `w` has priority `w`. -/
def newWindows : WindowHeap where
  windowID _ := -1
  flags _ := 0
  rect _ := ⟨0, 0, 10, 10⟩
  priority w := w
  parent _ := none
  windows _ _ := 0
  numWindows _ := 0
  focused _ _ := none
  lastCall _ _ := none
  kind _ := .window

/-- Three windows in an order that needs both a gap in the middle and a raise. -/
def threeWindows : List StackOp :=
  [.appendWindow 9 (some 2), .appendWindow 9 (some 3), .appendWindow 9 (some 1), .moveToTop 9 2]

theorem window_stack_three :
    (∀ this, (threeWindows.foldl step newWindows).StackOk this) ∧
      (threeWindows.foldl step newWindows).children 9 = [1, 2, 3] := by
  refine ⟨(window_stack (fun _ => rfl) ?_).1, by decide⟩
  have hok₀ : ∀ q, newWindows.StackOk q := fun _ => stackOk_empty rfl
  have hfree : ∀ {h : WindowHeap} {w}, (∀ q, h.StackOk q) → h.parent w = none →
      h.Allowed (.appendWindow 9 (some w)) := by
    rintro h w hok hw _ ⟨⟩
    exact not_attached_of_parent hok hw
  have hop₀ := hfree (w := 2) hok₀ rfl
  have hok₁ := step_stackOk hok₀ hop₀
  have hop₁ := hfree (w := 3) hok₁ (by decide)
  have hok₂ := step_stackOk hok₁ hop₁
  have hop₂ := hfree (w := 1) hok₂ (by decide)
  refine ⟨hop₀, hop₁, hop₂, ?_, trivial⟩
  exact mem_children.mpr ⟨1, by decide, by decide⟩

end WindowHeap

end Tellurium.Gui
