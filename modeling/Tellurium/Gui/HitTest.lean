import Tellurium.Gui.WindowEvents

/-!
Hit testing against painting (`libGUI/Window.cpp`, `getWindowUnderMouse`). Input is routed by
`isCoordInBounds`, which counts the right and the bottom side of a window as inside; the blit
loops stop before both. The two agree at a point unless a window that only touches it with
one of these sides is on top there.
-/

namespace Tellurium.Gui

namespace WindowHeap

variable {h : WindowHeap} {p w : Nat} {x y : Int}

/-- The pixels blitting the surface of a window can write. -/
def PaintedAt (h : WindowHeap) (w : Nat) (x y : Int) : Prop := (h.rect w).HasPixel x y

/-- The right and the bottom side of a window, one pixel beyond its painted area. -/
def OnFarSide (h : WindowHeap) (w : Nat) (x y : Int) : Prop :=
  (h.rect w).getLeft ≤ x ∧ x ≤ (h.rect w).getRight ∧
    (h.rect w).getTop ≤ y ∧ y ≤ (h.rect w).getBottom ∧
    (x = (h.rect w).getRight ∨ y = (h.rect w).getBottom)

/-- The child to find: the one with the highest index that is painted at the point. -/
def TopPainted (h : WindowHeap) (p : Nat) (x y : Int) : Option Nat → Prop
  | some c => ∃ i < h.numWindows p, h.windows p i = c ∧ h.PaintedAt c x y ∧
      ∀ j, i < j → j < h.numWindows p → ¬ h.PaintedAt (h.windows p j) x y
  | none => ∀ i < h.numWindows p, ¬ h.PaintedAt (h.windows p i) x y

theorem isCoordInBounds_iff :
    h.isCoordInBounds w x y = true ↔ h.PaintedAt w x y ∨ h.OnFarSide w x y := by
  rw [isCoordInBounds, decide_eq_true_iff]
  simp only [PaintedAt, OnFarSide, Rect.HasPixel, Rect.getX, Rect.getY, Rect.getWidth,
    Rect.getHeight, Rect.getLeft, Rect.getRight, Rect.getTop, Rect.getBottom]
  omega

theorem OnFarSide.not_painted (hside : h.OnFarSide w x y) : ¬ h.PaintedAt w x y := by
  simp only [OnFarSide, PaintedAt, Rect.HasPixel] at hside ⊢
  omega

/-- The loop stops at the last slot in bounds, counted from below. -/
theorem scanUnderMouse_some {n c : Nat} (hscan : h.scanUnderMouse p x y n = some c) :
    ∃ i < n, h.windows p i = c ∧ h.isCoordInBounds c x y = true ∧
      ∀ j, i < j → j < n → h.isCoordInBounds (h.windows p j) x y = false := by
  induction n with
  | zero => cases hscan
  | succ n ih =>
      rw [scanUnderMouse] at hscan
      split_ifs at hscan with hin
      · cases hscan
        exact ⟨n, Nat.lt_succ_self n, rfl, hin, fun j hlow hhigh => by omega⟩
      · obtain ⟨i, hi, hslot, hbounds, habove⟩ := ih hscan
        refine ⟨i, by omega, hslot, hbounds, fun j hlow hhigh => ?_⟩
        rcases Nat.lt_succ_iff_lt_or_eq.mp hhigh with hlt | rfl
        · exact habove j hlow hlt
        · exact Bool.eq_false_iff.mpr hin

theorem scanUnderMouse_none {n : Nat} (hscan : h.scanUnderMouse p x y n = none) :
    ∀ i < n, h.isCoordInBounds (h.windows p i) x y = false := by
  induction n with
  | zero => exact fun i hi => absurd hi (Nat.not_lt_zero i)
  | succ n ih =>
      rw [scanUnderMouse] at hscan
      split_ifs at hscan with hin
      intro i hi
      rcases Nat.lt_succ_iff_lt_or_eq.mp hi with hlt | rfl
      · exact ih hscan i hlt
      · exact Bool.eq_false_iff.mpr hin

theorem not_painted_of_out (hout : h.isCoordInBounds w x y = false) : ¬ h.PaintedAt w x y := by
  intro hin
  rw [isCoordInBounds_iff.mpr (Or.inl hin)] at hout
  cases hout

/-- Hit testing returns the topmost painted child exactly if every child that touches the
point with its right or bottom side lies below one that is painted there. -/
theorem hit_test_iff (h : WindowHeap) (p : Nat) (x y : Int) :
    h.TopPainted p x y (h.getWindowUnderMouse p x y) ↔
      ∀ i < h.numWindows p, h.OnFarSide (h.windows p i) x y →
        ∃ j, i < j ∧ j < h.numWindows p ∧ h.PaintedAt (h.windows p j) x y := by
  cases hfound : h.getWindowUnderMouse p x y with
  | none =>
      have hout := scanUnderMouse_none hfound
      constructor
      · intro _ i hi hside
        have hin := isCoordInBounds_iff.mpr (Or.inr hside)
        rw [hout i hi] at hin
        cases hin
      · exact fun _ i hi => not_painted_of_out (hout i hi)
  | some c =>
      obtain ⟨i, hi, hslot, hbounds, habove⟩ := scanUnderMouse_some hfound
      constructor
      · rintro ⟨k, hk, -, hpainted, htop⟩ j hj hside
        refine ⟨i, ?_, hi, hslot ▸ hpainted⟩
        -- a child above the one found is not in bounds, and the one found is painted
        rcases Nat.lt_trichotomy i j with hlt | rfl | hgt
        · have hin := isCoordInBounds_iff.mpr (Or.inr hside)
          rw [habove j hlt hj] at hin
          cases hin
        · rw [hslot] at hside
          exact absurd hpainted hside.not_painted
        · exact hgt
      · intro hcond
        refine ⟨i, hi, hslot, ?_, fun j hlow hhigh => not_painted_of_out (habove j hlow hhigh)⟩
        rcases isCoordInBounds_iff.mp hbounds with hin | hside
        · exact hin
        · obtain ⟨j, hlow, hhigh, hpainted⟩ := hcond i hi (hslot ▸ hside)
          exact absurd hpainted (not_painted_of_out (habove j hlow hhigh))

/-- Two windows side by side, the left one (window 2) above the right one (window 1). -/
def sideBySide : WindowHeap :=
  {twoWindows with rect := fun w => if w = 2 then ⟨0, 0, 10, 10⟩ else ⟨10, 0, 10, 10⟩}

/-- A click on the first column of the right window goes to the left one. -/
theorem click_on_shared_side :
    sideBySide.getWindowUnderMouse 0 10 5 = some 2 ∧ sideBySide.TopPainted 0 10 5 (some 1) ∧
      ¬ sideBySide.TopPainted 0 10 5 (sideBySide.getWindowUnderMouse 0 10 5) := by
  have hfound : sideBySide.getWindowUnderMouse 0 10 5 = some 2 := by decide
  have hright : sideBySide.PaintedAt 1 10 5 := by
    unfold PaintedAt
    decide
  have hleft : ¬ sideBySide.PaintedAt 2 10 5 := by
    unfold PaintedAt
    decide
  refine ⟨hfound, ⟨0, by decide, rfl, hright, ?_⟩, ?_⟩
  · intro j hlow hhigh
    have hj : j = 1 := by
      have : j < 2 := hhigh
      omega
    rw [hj]
    exact hleft
  · rw [hfound]
    rintro ⟨-, -, -, hpainted, -⟩
    exact hleft hpainted

end WindowHeap

end Tellurium.Gui
