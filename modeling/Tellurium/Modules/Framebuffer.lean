import Tellurium.Modules.Sgr
import Tellurium.Lib.Loop
import Mathlib.Logic.Function.Basic
import Mathlib.Tactic.Ring

/-!
Drawing into the off-screen buffer of a terminal (`modules/framebuffer.c`). Pixel bases are
32-bit numbers, or 64-bit ones under the cursor; the cursor itself stays below its maxima, so its
counters do not wrap. The terminal keeps a record of the places of `buf1` that are read or written.
-/

namespace Tellurium.Modules

open Tellurium.Lib

/-- `ansiSequence` is what the array holds before its terminator. The last four fields are
records: the places of `buf1` used, the places of `ansi_sequence` written, how much it held
each time an escape character was met, and the indices used by colour sequences. -/
structure Terminal where
  fontHPx : Nat
  fontWPx : Nat
  bitmap : Nat → Nat
  termHPx : Nat
  termWPx : Nat
  buf1 : Nat → Nat
  cursorH : Nat
  cursorV : Nat
  cursorHMax : Nat
  cursorVMax : Nat
  cursorColor : Nat
  cursorEnabled : Bool
  scrollEnabled : Bool
  colors : Colors
  isAnsiState : Bool
  ansiSequence : List Char
  accesses : List Nat := []
  writes : List Nat := []
  starts : List Nat := []
  indices : List TableIndex := []

namespace Terminal

def store (t : Terminal) (place color : Nat) : Terminal :=
  {t with buf1 := Function.update t.buf1 place color, accesses := t.accesses ++ [place]}

/-- `buf1[to] = buf1[from]`. -/
def copy (t : Terminal) (target source : Nat) : Terminal :=
  {t with
    buf1 := Function.update t.buf1 target (t.buf1 source)
    accesses := t.accesses ++ [source, target]}

def isScrollNeeded (t : Terminal) : Prop := t.cursorV + 1 ≥ t.cursorVMax

instance (t : Terminal) : Decidable t.isScrollNeeded := inferInstanceAs (Decidable (_ ≥ _))

def getPxBase (t : Terminal) : Nat :=
  (t.fontHPx * t.termWPx * t.cursorV + t.fontWPx * t.cursorH) % 2 ^ 32

/-- `rows` times `cols` pixels from `pxBase` on, a number of `bits` bits; also the base behind
them. -/
def fillRows (bits : Nat) (color : Nat → Nat → Nat) (rows cols : Nat) (t : Terminal) (pxBase : Nat) :
    Terminal × Nat :=
  rows.fold (fun i _ (s : Terminal × Nat) =>
    (cols.fold (fun j _ t => t.store (s.2 + j) (color i j)) s.1, (s.2 + s.1.termWPx) % 2 ^ bits))
    (t, pxBase)

def clearScreen (t : Terminal) : Terminal :=
  t.termHPx.fold (fun i _ t =>
    t.termWPx.fold (fun j _ t => t.store (t.termWPx * i + j) t.colors.bgDefault) t) t

/-- The rows that move up by `vPxOffset` pixels. -/
def moveRows (vPxOffset rows cols : Nat) (t : Terminal) : Terminal × Nat :=
  rows.fold (fun _ _ (s : Terminal × Nat) =>
    (cols.fold (fun j _ t => t.copy (s.2 + j) ((s.2 + vPxOffset) % 2 ^ 32 + j)) s.1,
      (s.2 + s.1.termWPx) % 2 ^ 32)) (t, 0)

def scrollScreen (t : Terminal) : Terminal :=
  let vPxOffset := t.fontHPx * t.termWPx % 2 ^ 32
  let moved := moveRows vPxOffset ((t.termHPx + 2 ^ 64 - t.fontHPx) % 2 ^ 64) t.termWPx t
  -- The last line is cleared.
  (fillRows 32 (fun _ _ => t.colors.bgDefault) t.fontHPx t.termWPx moved.1 moved.2).1

def newline (t : Terminal) : Terminal :=
  if t.isScrollNeeded then
    if t.scrollEnabled then {t.scrollScreen with cursorH := 0} else t
  else {t with cursorV := t.cursorV + 1, cursorH := 0}

def drawchar (t : Terminal) (c : Char) : Terminal :=
  let curChar := t.fontHPx * (c.toNat % 256) % 2 ^ 32
  let color := fun i j =>
    if (t.bitmap (curChar + i) >>> j) &&& 1 ≠ 0 then t.colors.fg else t.colors.bg
  let t := (fillRows 32 color t.fontHPx t.fontWPx t t.getPxBase).1
  if t.cursorH + 1 ≥ t.cursorHMax then t.newline else {t with cursorH := t.cursorH + 1}

def drawCursor (t : Terminal) (color : Nat) : Terminal :=
  (fillRows 64 (fun _ _ => color) t.fontHPx t.fontWPx t t.getPxBase).1

/-- Only pixels changed, and all of them on the screen. -/
def Paints (t t' : Terminal) : Prop :=
  ∃ buf places, t' = {t with buf1 := buf, accesses := t.accesses ++ places} ∧
    ∀ a ∈ places, a < t.termWPx * t.termHPx

/-- Only pixels and the cursor changed. -/
def Draws (t t' : Terminal) : Prop :=
  ∃ buf places cursorH cursorV, t' = {t with buf1 := buf, accesses := places, cursorH, cursorV}

/-- The cells and the fonts fit the screen. -/
structure Sizes (t : Terminal) : Prop where
  cellsWide : t.fontWPx * t.cursorHMax ≤ t.termWPx
  cellsHigh : t.fontHPx * t.cursorVMax ≤ t.termHPx
  fontHigh : t.fontHPx ≤ t.termHPx
  fontWide : t.fontWPx ≤ t.termWPx
  fontPos : 0 < t.fontWPx
  small : t.termWPx * t.termHPx < 2 ^ 32

/-- The cursor is on a cell, and so far only pixels of the screen were used. -/
structure OnScreen (t : Terminal) : Prop where
  sizes : t.Sizes
  cursorH : t.cursorH < t.cursorHMax
  cursorV : t.cursorV < t.cursorVMax
  accesses : ∀ a ∈ t.accesses, a < t.termWPx * t.termHPx

section Paints

variable {t t' t'' : Terminal}

theorem Paints.refl (t : Terminal) : Paints t t := ⟨t.buf1, [], by rw [List.append_nil], by simp⟩

theorem Paints.trans (h : Paints t t') (h' : Paints t' t'') : Paints t t'' := by
  obtain ⟨buf, places, rfl, hplaces⟩ := h
  obtain ⟨buf', places', rfl, hplaces'⟩ := h'
  exact ⟨buf', places ++ places', by rw [← List.append_assoc],
    List.forall_mem_append.mpr ⟨hplaces, hplaces'⟩⟩

theorem Paints.store {place : Nat} (h : Paints t t') (hplace : place < t.termWPx * t.termHPx)
    (color : Nat) : Paints t (t'.store place color) := by
  obtain ⟨buf, places, rfl, hplaces⟩ := h
  exact ⟨_, places ++ [place], by rw [← List.append_assoc]; rfl,
    List.forall_mem_append.mpr ⟨hplaces, List.forall_mem_singleton.mpr hplace⟩⟩

theorem Paints.copy {target source : Nat} (h : Paints t t')
    (htarget : target < t.termWPx * t.termHPx) (hsource : source < t.termWPx * t.termHPx) :
    Paints t (t'.copy target source) := by
  obtain ⟨buf, places, rfl, hplaces⟩ := h
  exact ⟨_, places ++ [source, target], by rw [← List.append_assoc]; rfl,
    List.forall_mem_append.mpr ⟨hplaces, List.forall_mem_cons.mpr
      ⟨hsource, List.forall_mem_singleton.mpr htarget⟩⟩⟩

theorem Paints.termWPx (h : Paints t t') : t'.termWPx = t.termWPx := by
  obtain ⟨buf, places, rfl, -⟩ := h
  rfl

/-- The sizes are those of the screen, the fonts and the cells alone. -/
theorem Sizes.same (h : t.Sizes)
    (hsame : (t'.termWPx, t'.termHPx, t'.fontWPx, t'.fontHPx, t'.cursorHMax, t'.cursorVMax) =
      (t.termWPx, t.termHPx, t.fontWPx, t.fontHPx, t.cursorHMax, t.cursorVMax)) : t'.Sizes := by
  simp only [Prod.mk.injEq] at hsame
  obtain ⟨hwide, hhigh, hfontWide, hfontHigh, hcellsWide, hcellsHigh⟩ := hsame
  constructor
  · rw [hfontWide, hcellsWide, hwide]
    exact h.cellsWide
  · rw [hfontHigh, hcellsHigh, hhigh]
    exact h.cellsHigh
  · rw [hfontHigh, hhigh]
    exact h.fontHigh
  · rw [hfontWide, hwide]
    exact h.fontWide
  · rw [hfontWide]
    exact h.fontPos
  · rw [hwide, hhigh]
    exact h.small

theorem OnScreen.paints (h : t.OnScreen) (hpaints : Paints t t') : t'.OnScreen := by
  obtain ⟨buf, places, rfl, hplaces⟩ := hpaints
  exact ⟨h.sizes.same rfl, h.cursorH, h.cursorV, List.forall_mem_append.mpr ⟨h.accesses, hplaces⟩⟩

/-- Rows that lie on the screen. -/
theorem fillRows_paints (hsmall : t.termWPx * t.termHPx < 2 ^ 32) {bits : Nat} (hbits : 32 ≤ bits)
    (color : Nat → Nat → Nat) {rows cols base : Nat}
    (hrows : ∀ i < rows, base + i * t.termWPx + cols ≤ t.termWPx * t.termHPx) :
    Paints t (fillRows bits color rows cols t base).1 := by
  have hpow : 2 ^ 32 ≤ 2 ^ bits := Nat.pow_le_pow_right (by decide) hbits
  refine (fold_inv (fun i (s : Terminal × Nat) =>
    Paints t s.1 ∧ (i < rows → s.2 = base + i * t.termWPx)) ?_ ?_).1
  · exact ⟨Paints.refl t, fun _ => by rw [Nat.zero_mul]; rfl⟩
  · intro i hi s hs
    obtain ⟨hpaints, hbase⟩ := hs
    have hrow := hrows i hi
    constructor
    · refine fold_inv (fun _ t' => Paints t t') hpaints ?_
      intro j hj t' ht'
      exact ht'.store (by rw [hbase hi]; omega) _
    · intro hnext
      have hnextRow := hrows (i + 1) hnext
      rw [Nat.succ_mul] at hnextRow ⊢
      rw [hpaints.termWPx, hbase hi, Nat.mod_eq_of_lt (by omega), Nat.add_assoc]

/-- Rows that move up on the screen, and the base behind them. -/
theorem moveRows_paints (hsmall : t.termWPx * t.termHPx < 2 ^ 32) {rows shift : Nat}
    (hrows : rows + shift ≤ t.termHPx) :
    Paints t (moveRows (shift * t.termWPx) rows t.termWPx t).1 ∧
      (moveRows (shift * t.termWPx) rows t.termWPx t).2 = rows * t.termWPx := by
  refine fold_inv (fun i (s : Terminal × Nat) => Paints t s.1 ∧ s.2 = i * t.termWPx) ?_ ?_
  · exact ⟨Paints.refl t, by rw [Nat.zero_mul]⟩
  · intro i hi s hs
    obtain ⟨hpaints, hbase⟩ := hs
    have hlast : (i + 1 + shift) * t.termWPx ≤ t.termHPx * t.termWPx := Nat.mul_le_mul_right _ (by omega)
    rw [Nat.add_mul, Nat.succ_mul, Nat.mul_comm t.termHPx] at hlast
    constructor
    · refine fold_inv (fun _ t' => Paints t t') hpaints ?_
      intro j hj t' ht'
      apply ht'.copy
      · omega
      · rw [hbase, Nat.mod_eq_of_lt (by omega)]
        omega
    · change (s.2 + s.1.termWPx) % 2 ^ 32 = _
      rw [hpaints.termWPx, hbase, Nat.succ_mul, Nat.mod_eq_of_lt (by omega)]

theorem clearScreen_paints (t : Terminal) : Paints t t.clearScreen := by
  refine fold_inv (fun _ t' => Paints t t') (Paints.refl t) ?_
  intro i hi t' ht'
  have hrow : t.termWPx * (i + 1) ≤ t.termWPx * t.termHPx := Nat.mul_le_mul_left _ hi
  rw [Nat.mul_succ] at hrow
  refine fold_inv (fun _ t'' => Paints t t'') ht' ?_
  intro j hj t'' ht''
  rw [ht'.termWPx] at hj
  exact ht''.store (by rw [ht''.termWPx]; omega) _

end Paints

section Draws

variable {t t' t'' : Terminal}

theorem Draws.refl (t : Terminal) : Draws t t := ⟨t.buf1, t.accesses, t.cursorH, t.cursorV, rfl⟩

theorem Draws.trans (h : Draws t t') (h' : Draws t' t'') : Draws t t'' := by
  obtain ⟨_, _, _, _, rfl⟩ := h
  obtain ⟨buf, places, cursorH, cursorV, rfl⟩ := h'
  exact ⟨buf, places, cursorH, cursorV, rfl⟩

theorem Draws.moveTo (h : Draws t t') (cursorH cursorV : Nat) :
    Draws t {t' with cursorH, cursorV} := h.trans ⟨_, _, cursorH, cursorV, rfl⟩

/-- A loop over rows of pixels draws if every pixel does. -/
theorem rows_draws (pixel : Nat → Nat → Nat → Terminal → Terminal) (next : Terminal × Nat → Nat)
    (hpixel : ∀ base i j t, Draws t (pixel base i j t)) (rows cols : Nat) (t : Terminal) (base : Nat) :
    Draws t (rows.fold (fun i _ (s : Terminal × Nat) =>
      (cols.fold (fun j _ t => pixel s.2 i j t) s.1, next s)) (t, base)).1 := by
  refine fold_inv (fun _ (s : Terminal × Nat) => Draws t s.1) (Draws.refl t) ?_
  intro i _ s hs
  refine fold_inv (fun _ t' => Draws t t') hs ?_
  intro j _ t' ht'
  exact ht'.trans (hpixel s.2 i j t')

theorem fillRows_draws (bits : Nat) (color : Nat → Nat → Nat) (rows cols : Nat) (t : Terminal)
    (base : Nat) : Draws t (fillRows bits color rows cols t base).1 :=
  rows_draws (fun base i j t => t.store (base + j) (color i j)) _
    (fun _ _ _ _ => ⟨_, _, _, _, rfl⟩) rows cols t base

theorem moveRows_draws (shift rows cols : Nat) (t : Terminal) :
    Draws t (moveRows shift rows cols t).1 :=
  rows_draws (fun base _ j t => t.copy (base + j) ((base + shift) % 2 ^ 32 + j)) _
    (fun _ _ _ _ => ⟨_, _, _, _, rfl⟩) rows cols t 0

theorem newline_draws (t : Terminal) : Draws t t.newline := by
  rw [newline]
  split
  · split
    · apply Draws.moveTo
      exact (moveRows_draws _ _ _ t).trans (fillRows_draws _ _ _ _ _ _)
    · exact Draws.refl t
  · exact (Draws.refl t).moveTo _ _

theorem drawchar_draws (t : Terminal) (c : Char) : Draws t (t.drawchar c) := by
  rw [drawchar]
  have hdrawn := fillRows_draws 32 (fun i j =>
    if (t.bitmap (t.fontHPx * (c.toNat % 256) % 2 ^ 32 + i) >>> j) &&& 1 ≠ 0 then t.colors.fg
    else t.colors.bg) t.fontHPx t.fontWPx t t.getPxBase
  split
  · exact hdrawn.trans (newline_draws _)
  · exact hdrawn.moveTo _ _

theorem drawCursor_draws (t : Terminal) (color : Nat) : Draws t (t.drawCursor color) :=
  fillRows_draws _ _ _ _ _ _

theorem Paints.draws (h : Paints t t') : Draws t t' := by
  obtain ⟨buf, places, rfl, -⟩ := h
  exact ⟨buf, t.accesses ++ places, t.cursorH, t.cursorV, rfl⟩

theorem clearScreen_draws (t : Terminal) : Draws t t.clearScreen := (clearScreen_paints t).draws

end Draws

section Cursor

variable {t : Terminal}

/-- The pixels of the cell under the cursor. -/
theorem OnScreen.cell (h : t.OnScreen) {i : Nat} (hi : i < t.fontHPx) :
    t.getPxBase + i * t.termWPx + t.fontWPx ≤ t.termWPx * t.termHPx ∧
      t.getPxBase = t.fontHPx * t.termWPx * t.cursorV + t.fontWPx * t.cursorH := by
  obtain ⟨hsizes, hcursorH, hcursorV, -⟩ := h
  have hwide : t.fontWPx * (t.cursorH + 1) ≤ t.termWPx :=
    Nat.le_trans (Nat.mul_le_mul_left _ hcursorH) hsizes.cellsWide
  have hhigh : t.fontHPx * (t.cursorV + 1) ≤ t.termHPx :=
    Nat.le_trans (Nat.mul_le_mul_left _ hcursorV) hsizes.cellsHigh
  have hrow : (t.fontHPx * t.cursorV + i + 1) * t.termWPx ≤ t.termHPx * t.termWPx :=
    Nat.mul_le_mul_right _ (by rw [Nat.mul_succ] at hhigh; omega)
  have hrow' : (t.fontHPx * t.cursorV + i + 1) * t.termWPx =
      t.fontHPx * t.termWPx * t.cursorV + i * t.termWPx + t.termWPx := by ring
  rw [Nat.mul_succ] at hwide
  have hsmall := hsizes.small
  rw [Nat.mul_comm t.termHPx] at hrow
  have hbase : t.getPxBase = t.fontHPx * t.termWPx * t.cursorV + t.fontWPx * t.cursorH :=
    Nat.mod_eq_of_lt (by omega)
  exact ⟨by omega, hbase⟩

theorem OnScreen.fillCell (h : t.OnScreen) {bits : Nat} (hbits : 32 ≤ bits)
    (color : Nat → Nat → Nat) :
    Paints t (fillRows bits color t.fontHPx t.fontWPx t t.getPxBase).1 :=
  fillRows_paints h.sizes.small hbits color fun _ hi => (h.cell hi).1

theorem OnScreen.drawCursor (h : t.OnScreen) (color : Nat) : (t.drawCursor color).OnScreen :=
  h.paints (h.fillCell (by decide) _)

theorem OnScreen.clearScreen (h : t.OnScreen) : t.clearScreen.OnScreen :=
  h.paints (clearScreen_paints t)

theorem OnScreen.scrollScreen_paints (h : t.OnScreen) : Paints t t.scrollScreen := by
  have hsmall := h.sizes.small
  have hfont := h.sizes.fontHigh
  have hwide : 0 < t.termWPx := Nat.lt_of_lt_of_le h.sizes.fontPos h.sizes.fontWide
  have hhigh : t.termHPx ≤ t.termWPx * t.termHPx := Nat.le_mul_of_pos_left _ hwide
  have hfontArea : t.fontHPx * t.termWPx ≤ t.termWPx * t.termHPx := by
    rw [Nat.mul_comm]
    exact Nat.mul_le_mul_left _ hfont
  have hrows : (t.termHPx + 2 ^ 64 - t.fontHPx) % 2 ^ 64 = t.termHPx - t.fontHPx := by omega
  have hoffset : t.fontHPx * t.termWPx % 2 ^ 32 = t.fontHPx * t.termWPx :=
    Nat.mod_eq_of_lt (Nat.lt_of_le_of_lt hfontArea hsmall)
  obtain ⟨hmoved, hbase⟩ := moveRows_paints (t := t) hsmall
    (show t.termHPx - t.fontHPx + t.fontHPx ≤ t.termHPx by omega)
  unfold scrollScreen
  simp only [hoffset, hrows]
  apply hmoved.trans
  generalize moveRows (t.fontHPx * t.termWPx) (t.termHPx - t.fontHPx) t.termWPx t = moved at *
  obtain ⟨t', base⟩ := moved
  obtain ⟨buf, places, rfl, hplaces⟩ := hmoved
  apply fillRows_paints (t := {t with buf1 := buf, accesses := t.accesses ++ places}) hsmall
    (Nat.le_refl 32)
  intro i hi
  -- The cleared rows end with the screen.
  have hrow : (t.termHPx - t.fontHPx + (i + 1)) * t.termWPx ≤ t.termHPx * t.termWPx :=
    Nat.mul_le_mul_right _ (by omega)
  rw [Nat.add_mul, Nat.succ_mul, Nat.mul_comm t.termHPx] at hrow
  simp only at hbase ⊢
  omega

/-- What is not about drawing changes. -/
theorem OnScreen.other (h : t.OnScreen) {t' : Terminal}
    (heq : t' =
      {t with
        cursorEnabled := t'.cursorEnabled
        scrollEnabled := t'.scrollEnabled
        colors := t'.colors
        isAnsiState := t'.isAnsiState
        ansiSequence := t'.ansiSequence
        writes := t'.writes
        starts := t'.starts
        indices := t'.indices}) : t'.OnScreen := by
  rw [heq]
  exact ⟨h.sizes.same rfl, h.cursorH, h.cursorV, h.accesses⟩

/-- The cursor moves to another cell. -/
theorem OnScreen.move (h : t.OnScreen) {cursorH cursorV : Nat} (hcursorH : cursorH < t.cursorHMax)
    (hcursorV : cursorV < t.cursorVMax) : OnScreen {t with cursorH, cursorV} :=
  ⟨h.sizes.same rfl, hcursorH, hcursorV, h.accesses⟩

theorem OnScreen.newline (h : t.OnScreen) : t.newline.OnScreen := by
  have hpos : 0 < t.cursorHMax := Nat.lt_of_le_of_lt (Nat.zero_le _) h.cursorH
  rw [Terminal.newline]
  split
  · split
    · have hscrolled := h.paints h.scrollScreen_paints
      exact hscrolled.move (Nat.lt_of_le_of_lt (Nat.zero_le _) hscrolled.cursorH) hscrolled.cursorV
    · exact h
  · rename_i hroom
    exact h.move hpos (Nat.not_le.mp hroom)

theorem OnScreen.drawchar (h : t.OnScreen) (c : Char) : (t.drawchar c).OnScreen := by
  rw [Terminal.drawchar]
  generalize (fun i j => if (t.bitmap (t.fontHPx * (c.toNat % 256) % 2 ^ 32 + i) >>> j) &&& 1 ≠ 0 then
    t.colors.fg else t.colors.bg) = color
  have hdrawn := h.paints (h.fillCell (Nat.le_refl 32) color)
  split
  · exact hdrawn.newline
  · rename_i hroom
    exact hdrawn.move (Nat.not_le.mp hroom) hdrawn.cursorV

end Cursor

end Terminal

end Tellurium.Modules
