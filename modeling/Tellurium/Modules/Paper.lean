import Tellurium.Modules.Terminal

/-!
What a terminal shows (`modules/framebuffer.c`). Its screen is a window on a roll of paper: a
character types its glyph at the cursor, and where the terminal scrolls the paper is fed by one
line. Nothing moves on the paper. The pixels of `buf1` are those of the window after every run,
and `fb_load_buffer` copies them to the framebuffer.
-/

namespace Tellurium.Modules

open Tellurium.Lib

/-- Places in rows of `w` pixels. -/
theorem place_inj {w y x y₀ x₀ : Nat} (hx : x < w) (hx₀ : x₀ < w) :
    w * y + x = w * y₀ + x₀ ↔ y = y₀ ∧ x = x₀ := by
  constructor
  · intro heq
    have hrow := congrArg (· / w) heq
    have hcol := congrArg (· % w) heq
    have hpos : 0 < w := Nat.lt_of_le_of_lt (Nat.zero_le _) hx
    simp only [Nat.mul_add_div hpos, Nat.div_eq_of_lt hx, Nat.div_eq_of_lt hx₀, Nat.add_zero] at hrow
    simp only [Nat.mul_add_mod, Nat.mod_eq_of_lt hx, Nat.mod_eq_of_lt hx₀] at hcol
    exact ⟨hrow, hcol⟩
  · rintro ⟨rfl, rfl⟩
    rfl

/-- `rows` times `cols` pixels from row `y₀` and column `x₀` on. -/
def InBlock (y₀ x₀ rows cols y x : Nat) : Prop :=
  (y₀ ≤ y ∧ y < y₀ + rows) ∧ x₀ ≤ x ∧ x < x₀ + cols

instance (y₀ x₀ rows cols y x : Nat) : Decidable (InBlock y₀ x₀ rows cols y x) :=
  inferInstanceAs (Decidable (_ ∧ _))

namespace Terminal

def pixel (t : Terminal) (y x : Nat) : Nat := t.buf1 (t.termWPx * y + x)

section Pixels

variable {t t' : Terminal} {y x y₀ x₀ rows cols shift : Nat}

theorem pixel_store (hx : x < t.termWPx) (hx₀ : x₀ < t.termWPx) (color : Nat) :
    (t.store (t.termWPx * y₀ + x₀) color).pixel y x =
      if y = y₀ ∧ x = x₀ then color else t.pixel y x := by
  rw [pixel, pixel, store]
  simp only [Function.update_apply, place_inj hx hx₀]

theorem pixel_copy {y₁ x₁ : Nat} (hx : x < t.termWPx) (hx₀ : x₀ < t.termWPx) :
    (t.copy (t.termWPx * y₀ + x₀) (t.termWPx * y₁ + x₁)).pixel y x =
      if y = y₀ ∧ x = x₀ then t.pixel y₁ x₁ else t.pixel y x := by
  rw [pixel, pixel, copy]
  simp only [Function.update_apply, place_inj hx hx₀]
  rfl

/-- One row of `fillRows`. -/
theorem fillRow_pixel (t : Terminal) (y₀ x₀ cols : Nat) (hcols : x₀ + cols ≤ t.termWPx)
    (color : Nat → Nat) :
    (cols.fold (fun j _ t' => t'.store (t.termWPx * y₀ + x₀ + j) (color j)) t).termWPx = t.termWPx ∧
      ∀ y, ∀ x < t.termWPx,
        (cols.fold (fun j _ t' => t'.store (t.termWPx * y₀ + x₀ + j) (color j)) t).pixel y x =
          if InBlock y₀ x₀ 1 cols y x then color (x - x₀) else t.pixel y x := by
  refine fold_inv (fun j (t' : Terminal) => t'.termWPx = t.termWPx ∧ ∀ y, ∀ x < t.termWPx,
    t'.pixel y x = if InBlock y₀ x₀ 1 j y x then color (x - x₀) else t.pixel y x) ?_ ?_
  · refine ⟨rfl, fun y x hx => ?_⟩
    rw [if_neg]
    rintro ⟨-, hle, hlt⟩
    omega
  · intro j hj t' ht'
    obtain ⟨hwide, hpixel⟩ := ht'
    refine ⟨hwide, fun y x hx => ?_⟩
    rw [Nat.add_assoc, ← hwide, pixel_store (hwide ▸ hx) (by omega), hpixel y x hx]
    by_cases hhere : y = y₀ ∧ x = x₀ + j
    · obtain ⟨rfl, rfl⟩ := hhere
      rw [if_pos ⟨rfl, rfl⟩, if_pos ⟨by omega, by omega⟩, Nat.add_sub_cancel_left]
    · rw [if_neg hhere]
      apply if_congr _ rfl rfl
      unfold InBlock
      omega

theorem fillRows_pixel (hsmall : t.termWPx * t.termHPx < 2 ^ 32) {bits : Nat} (hbits : 32 ≤ bits)
    (y₀ x₀ rows cols : Nat) (hcols : x₀ + cols ≤ t.termWPx) (hrows : y₀ + rows ≤ t.termHPx)
    (color : Nat → Nat → Nat) :
    (fillRows bits color rows cols t (t.termWPx * y₀ + x₀)).1.termWPx = t.termWPx ∧
      ∀ y, ∀ x < t.termWPx,
        (fillRows bits color rows cols t (t.termWPx * y₀ + x₀)).1.pixel y x =
          if InBlock y₀ x₀ rows cols y x then color (y - y₀) (x - x₀) else t.pixel y x := by
  have hpow : 2 ^ 32 ≤ 2 ^ bits := Nat.pow_le_pow_right (by decide) hbits
  refine (fold_inv (fun i (s : Terminal × Nat) =>
    (s.1.termWPx = t.termWPx ∧ ∀ y, ∀ x < t.termWPx, s.1.pixel y x =
      if InBlock y₀ x₀ i cols y x then color (y - y₀) (x - x₀) else t.pixel y x) ∧
    (i < rows → s.2 = t.termWPx * (y₀ + i) + x₀)) ?_ ?_).1
  · refine ⟨⟨rfl, fun y x _ => ?_⟩, fun _ => rfl⟩
    rw [if_neg]
    rintro ⟨⟨hle, hlt⟩, -⟩
    omega
  · intro i hi s hs
    obtain ⟨⟨hwide, hpixel⟩, hbase⟩ := hs
    have hrow := fillRow_pixel s.1 (y₀ + i) x₀ cols (hwide.symm ▸ hcols) (color i)
    rw [hwide] at hrow
    simp only [← hbase hi] at hrow
    refine ⟨⟨hrow.1, fun y x hx => ?_⟩, fun hnext => ?_⟩
    · rw [hrow.2 y x hx]
      by_cases hhere : InBlock (y₀ + i) x₀ 1 cols y x
      · have hy : y = y₀ + i := by
          obtain ⟨⟨hle, hlt⟩, -⟩ := hhere
          omega
        subst hy
        rw [if_pos hhere, Nat.add_sub_cancel_left, if_pos ⟨by omega, hhere.2⟩]
      · rw [if_neg hhere, hpixel y x hx]
        apply if_congr _ rfl rfl
        unfold InBlock at hhere ⊢
        omega
    · have hlast : t.termWPx * (y₀ + (i + 1) + 1) ≤ t.termWPx * t.termHPx :=
        Nat.mul_le_mul_left _ (by omega)
      rw [Nat.mul_succ] at hlast
      have hstep : t.termWPx * (y₀ + (i + 1)) = t.termWPx * (y₀ + i) + t.termWPx := Nat.mul_succ _ _
      rw [hwide, hbase hi, Nat.mod_eq_of_lt (by omega)]
      omega

/-- One row of `moveRows`. -/
theorem moveRow_pixel (t : Terminal) (y₀ shift : Nat) :
    (t.termWPx.fold (fun j _ t' =>
        t'.copy (t.termWPx * y₀ + j) (t.termWPx * (y₀ + shift) + j)) t).termWPx = t.termWPx ∧
      ∀ y, ∀ x < t.termWPx,
        (t.termWPx.fold (fun j _ t' =>
          t'.copy (t.termWPx * y₀ + j) (t.termWPx * (y₀ + shift) + j)) t).pixel y x =
        if y = y₀ then t.pixel (y + shift) x else t.pixel y x := by
  have hrow := @fold_inv Terminal t.termWPx
    (fun j t' => t'.copy (t.termWPx * y₀ + j) (t.termWPx * (y₀ + shift) + j)) t
    (fun j (t' : Terminal) => t'.termWPx = t.termWPx ∧ ∀ y, ∀ x < t.termWPx,
      t'.pixel y x = if y = y₀ ∧ x < j then t.pixel (y + shift) x else t.pixel y x)
    ⟨rfl, fun y x _ => (if_neg fun h => Nat.not_lt_zero _ h.2).symm⟩ ?_
  · refine ⟨hrow.1, fun y x hx => ?_⟩
    rw [hrow.2 y x hx]
    simp only [hx, and_true]
  · intro j hj t' ht'
    obtain ⟨hwide, hpixel⟩ := ht'
    refine ⟨hwide, fun y x hx => ?_⟩
    rw [← hwide, pixel_copy (hwide ▸ hx) (hwide ▸ hj), hpixel y x hx, hpixel _ _ hj]
    by_cases hhere : y = y₀ ∧ x = j
    · obtain ⟨rfl, rfl⟩ := hhere
      rw [if_pos ⟨rfl, rfl⟩, if_neg fun hread => Nat.lt_irrefl _ hread.2,
        if_pos ⟨rfl, Nat.lt_succ_self _⟩]
    · rw [if_neg hhere]
      apply if_congr _ rfl rfl
      omega

/-- The rows move up in order, so none is read after it was written. -/
theorem moveRows_pixel (hsmall : t.termWPx * t.termHPx < 2 ^ 32) (hrows : rows + shift ≤ t.termHPx) :
    (moveRows (shift * t.termWPx) rows t.termWPx t).1.termWPx = t.termWPx ∧
      ∀ y, ∀ x < t.termWPx, (moveRows (shift * t.termWPx) rows t.termWPx t).1.pixel y x =
        if y < rows then t.pixel (y + shift) x else t.pixel y x := by
  refine (fold_inv (fun i (s : Terminal × Nat) =>
    (s.1.termWPx = t.termWPx ∧ ∀ y, ∀ x < t.termWPx, s.1.pixel y x =
      if y < i then t.pixel (y + shift) x else t.pixel y x) ∧ s.2 = t.termWPx * i) ?_ ?_).1
  · exact ⟨⟨rfl, fun y x _ => rfl⟩, rfl⟩
  · intro i hi s hs
    obtain ⟨⟨hwide, hpixel⟩, hbase⟩ := hs
    have hlast : t.termWPx * (i + 1 + shift) ≤ t.termWPx * t.termHPx :=
      Nat.mul_le_mul_left _ (by omega)
    have hsource : t.termWPx * (i + shift) = t.termWPx * i + shift * t.termWPx := by ring
    have hnext : t.termWPx * (i + 1) = t.termWPx * i + t.termWPx := Nat.mul_succ _ _
    rw [Nat.add_right_comm, Nat.mul_succ, hsource] at hlast
    have hmod : (s.2 + shift * t.termWPx) % 2 ^ 32 = t.termWPx * (i + shift) := by
      rw [hbase, Nat.mod_eq_of_lt (by omega), hsource]
    have hrow := moveRow_pixel s.1 i shift
    rw [hwide] at hrow
    simp only [← hmod, ← hbase] at hrow
    refine ⟨⟨hrow.1, fun y x hx => ?_⟩, ?_⟩
    · rw [hrow.2 y x hx, hpixel y x hx, hpixel (y + shift) x hx]
      by_cases hy : y = i
      · subst hy
        rw [if_pos rfl, if_pos (Nat.lt_succ_self _)]
        split_ifs with hread
        · have hzero : shift = 0 := by omega
          rw [hzero, Nat.add_zero]
        · rfl
      · rw [if_neg hy]
        apply if_congr _ rfl rfl
        omega
    · change (s.2 + s.1.termWPx) % 2 ^ 32 = _
      rw [hwide, hbase, Nat.mod_eq_of_lt (by omega), hnext]

/-- The whole screen is cleared. -/
theorem clearScreen_pixel (t : Terminal) :
    ∀ y < t.termHPx, ∀ x < t.termWPx, t.clearScreen.pixel y x = t.colors.bgDefault := by
  have hclear := @fold_inv Terminal t.termHPx
    (fun i t' => t'.termWPx.fold (fun j _ t' =>
      t'.store (t'.termWPx * i + j) t'.colors.bgDefault) t') t
    (fun i (t' : Terminal) => (t'.termWPx = t.termWPx ∧ t'.colors = t.colors) ∧
      ∀ y < i, ∀ x < t.termWPx, t'.pixel y x = t.colors.bgDefault)
    ⟨⟨rfl, rfl⟩, fun y hy => absurd hy (Nat.not_lt_zero y)⟩ ?_
  · exact hclear.2
  · intro i hi t' ht'
    obtain ⟨⟨hwide, hcolors⟩, hpixel⟩ := ht'
    have hrow := @fold_inv Terminal t'.termWPx
      (fun j t' => t'.store (t'.termWPx * i + j) t'.colors.bgDefault) t'
      (fun j (t' : Terminal) => (t'.termWPx = t.termWPx ∧ t'.colors = t.colors) ∧
        (∀ y < i, ∀ x < t.termWPx, t'.pixel y x = t.colors.bgDefault) ∧
        ∀ x < j, t'.pixel i x = t.colors.bgDefault)
      ⟨⟨hwide, hcolors⟩, hpixel, fun x hx => absurd hx (Nat.not_lt_zero x)⟩ ?_
    · refine ⟨hrow.1, fun y hy x hx => ?_⟩
      rcases Nat.lt_succ_iff_lt_or_eq.mp hy with hlt | rfl
      · exact hrow.2.1 y hlt x hx
      · exact hrow.2.2 x (hwide ▸ hx)
    · intro j hj t'' ht''
      obtain ⟨⟨hwide', hcolors'⟩, habove, hleft⟩ := ht''
      refine ⟨⟨hwide', hcolors'⟩, fun y hy x hx => ?_, fun x hx => ?_⟩
      · rw [pixel_store (hwide' ▸ hx) (by omega), hcolors']
        split_ifs with hhere
        · rfl
        · exact habove y hy x hx
      · rw [pixel_store (by omega) (by omega), hcolors']
        split_ifs with hhere
        · rfl
        · exact hleft x (by omega)

/-- The last `font_h_px` rows are cleared, and the others come from so much below. -/
theorem OnScreen.scrollScreen_pixel (h : t.OnScreen) :
    ∀ y < t.termHPx, ∀ x < t.termWPx, t.scrollScreen.pixel y x =
      if y + t.fontHPx < t.termHPx then t.pixel (y + t.fontHPx) x else t.colors.bgDefault := by
  have hsmall := h.sizes.small
  have hfont := h.sizes.fontHigh
  have hwide : 0 < t.termWPx := Nat.lt_of_lt_of_le h.sizes.fontPos h.sizes.fontWide
  have hhigh : t.termHPx ≤ t.termWPx * t.termHPx := Nat.le_mul_of_pos_left _ hwide
  have hfontArea : t.fontHPx * t.termWPx ≤ t.termWPx * t.termHPx := by
    rw [Nat.mul_comm]
    exact Nat.mul_le_mul_left _ hfont
  have hrows : (t.termHPx + 2 ^ 64 - t.fontHPx) % 2 ^ 64 = t.termHPx - t.fontHPx := by omega
  have hoffset : t.fontHPx * t.termWPx % 2 ^ 32 = t.fontHPx * t.termWPx :=
    Nat.mod_eq_of_lt (Nat.lt_of_le_of_lt hfontArea hsmall)
  have hfit : t.termHPx - t.fontHPx + t.fontHPx ≤ t.termHPx := by omega
  obtain ⟨hpaints, hbase⟩ := moveRows_paints (t := t) hsmall hfit
  have hmoved := (moveRows_pixel hsmall hfit).2
  intro y hy x hx
  unfold scrollScreen
  simp only [hoffset, hrows]
  generalize moveRows (t.fontHPx * t.termWPx) (t.termHPx - t.fontHPx) t.termWPx t = moved at *
  obtain ⟨t', base⟩ := moved
  obtain ⟨buf, places, rfl, -⟩ := hpaints
  have hcleared := (fillRows_pixel (t := {t with buf1 := buf, accesses := t.accesses ++ places}) hsmall
    (Nat.le_refl 32) (t.termHPx - t.fontHPx) 0 t.fontHPx t.termWPx (Nat.le_of_eq (Nat.zero_add _)) hfit
    (fun _ _ => t.colors.bgDefault)).2 y x hx
  simp only [Nat.add_zero] at hbase hcleared hmoved
  rw [hbase, Nat.mul_comm, hcleared]
  by_cases hlast : y + t.fontHPx < t.termHPx
  · rw [if_pos hlast, if_neg (fun hin => by have hle := hin.1.1; omega), hmoved y x hx, if_pos (by omega)]
  · rw [if_neg hlast, if_pos ⟨⟨by omega, by omega⟩, by omega, by omega⟩]

end Pixels

end Terminal

/-- The sizes of a terminal, and the colour of its paper. -/
structure Format where
  fontHPx : Nat
  fontWPx : Nat
  termHPx : Nat
  termWPx : Nat
  columns : Nat
  lines : Nat
  blank : Nat

/-- A roll of paper, in rows and columns of pixels. The window shows `termHPx` rows of it behind the
`fed` lines; the lines of the cursor are counted from the start of the roll. -/
structure Paper where
  ink : Nat → Nat → Nat
  fed : Nat
  line : Nat
  column : Nat

/-- What the terminal does on its paper. -/
inductive Stroke where
  | glyph (color : Nat → Nat → Nat) (scroll : Bool)
  | cover (color : Nat)
  | back
  | newline (scroll : Bool)
  | clear

namespace Paper

def paint (f : Format) (p : Paper) (color : Nat → Nat → Nat) : Paper :=
  {p with ink := fun y x =>
    if InBlock (f.fontHPx * p.line) (f.fontWPx * p.column) f.fontHPx f.fontWPx y x then
      color (y - f.fontHPx * p.line) (x - f.fontWPx * p.column)
    else p.ink y x}

/-- The paper that comes into the window is blank. -/
def feed (f : Format) (p : Paper) : Paper :=
  {p with
    ink := fun y x => if f.fontHPx * p.fed + f.termHPx ≤ y then f.blank else p.ink y x
    fed := p.fed + 1}

def newline (f : Format) (p : Paper) (scroll : Bool) : Paper :=
  if p.line + 1 ≥ p.fed + f.lines then
    if scroll then {p.feed f with line := p.line + 1, column := 0} else p
  else {p with line := p.line + 1, column := 0}

def stroke (f : Format) (p : Paper) : Stroke → Paper
  | .glyph color scroll =>
      if p.column + 1 ≥ f.columns then (p.paint f color).newline f scroll
      else {p.paint f color with column := p.column + 1}
  | .cover color => p.paint f fun _ _ => color
  | .back =>
      if p.column = 0 ∧ p.line ≠ p.fed then {p with line := p.line - 1}
      else if p.column ≠ 0 then {p with column := p.column - 1}
      else p
  | .newline scroll => p.newline f scroll
  | .clear =>
      {p with ink := fun y x =>
        if f.fontHPx * p.fed ≤ y ∧ y < f.fontHPx * p.fed + f.termHPx then f.blank else p.ink y x}

end Paper

namespace Terminal

def format (t : Terminal) : Format where
  fontHPx := t.fontHPx
  fontWPx := t.fontWPx
  termHPx := t.termHPx
  termWPx := t.termWPx
  columns := t.cursorHMax
  lines := t.cursorVMax
  blank := t.colors.bgDefault

/-- The pixels that `drawchar` gives a character. -/
def glyph (t : Terminal) (c : Char) (i j : Nat) : Nat :=
  if (t.bitmap (t.fontHPx * (c.toNat % 256) % 2 ^ 32 + i) >>> j) &&& 1 ≠ 0 then t.colors.fg
  else t.colors.bg

/-- What a character asks for. Inside of a sequence nothing is drawn. -/
def strokes (t : Terminal) (c : Char) : List Stroke :=
  if t.isAnsiState then []
  else if c = '\x08' then [.back]
  else if c = '\x1b' then []
  else if c = '\n' then [.newline t.scrollEnabled]
  else if c = '\r' then []
  else if c = '\t' then List.replicate 4 (.glyph (t.glyph ' ') t.scrollEnabled)
  else if c = '\x0b' then []
  else [.glyph (t.glyph c) t.scrollEnabled]

/-- The terminal shows the window of the paper. -/
structure Shows (f : Format) (t : Terminal) (p : Paper) : Prop where
  screen : t.OnScreen
  format : t.format = f
  tall : 0 < f.fontHPx
  line : p.line = p.fed + t.cursorV
  column : p.column = t.cursorH
  pixels : ∀ y < f.termHPx, ∀ x < f.termWPx, t.pixel y x = p.ink (f.fontHPx * p.fed + y) x

end Terminal

/-- What a step of the console draws. -/
def Console.strokes (s : Console) : ConsoleAction → List Stroke
  | .print _ =>
      match s.call with
      | none => if s.terminal.cursorEnabled then [.cover s.terminal.colors.bg] else []
      | some _ => []
  | .char =>
      match s.call with
      | none => []
      | some call =>
          if call.pos = call.text.length then
            if s.terminal.cursorEnabled then [.cover s.terminal.cursorColor] else []
          else
            match call.text[call.pos]? with
            | none => []
            | some c => s.terminal.strokes c
  | .cursor _ | .scroll _ => []
  | .clear =>
      match s.call with
      | none => [.clear]
      | some _ => []

/-- What a run of the console draws, from its first step to its last. -/
def Console.drawn (attrs : Attributes) : Console → List ConsoleAction → List Stroke
  | _, [] => []
  | s, action :: rest => s.strokes action ++ Console.drawn attrs (s.step attrs action) rest

/-- The character that a step of the console takes from its string. -/
def Console.taken (s : Console) : ConsoleAction → Option Char
  | .char => s.call.bind fun call => call.text[call.pos]?
  | _ => none

/-- The characters that a run of the console takes. -/
def Console.typed (attrs : Attributes) : Console → List ConsoleAction → List Char
  | _, [] => []
  | s, action :: rest => (s.taken action).toList ++ Console.typed attrs (s.step attrs action) rest

/-- The callbacks do not change the colour that the screen is cleared with. -/
structure Attributes.KeepBlank (attrs : Attributes) : Prop where
  set : ∀ n c, (attrs.set n c).bgDefault = c.bgDefault
  reset : ∀ n c, (attrs.reset n c).bgDefault = c.bgDefault

theorem keepBlank_defaultAttributes : defaultAttributes.KeepBlank where
  set n c := by
    change ((if n = 0 then resetTextAttribute else noChangeTextAttribute) c).bgDefault = _
    split <;> rfl
  reset _ _ := rfl

section Blank

variable {attrs : Attributes}

theorem applyColor_blank (c : Colors) (color : Nat) :
    (applyColor c color).bgDefault = c.bgDefault := by
  rw [applyColor]
  split <;> rfl

theorem processNormal_blank (h : attrs.KeepBlank) (s : Sgr) (n : Int) :
    (processNormal attrs s n).colors.bgDefault = s.colors.bgDefault := by
  rw [processNormal]
  split_ifs
  · exact h.set _ _
  · exact h.reset _ _
  all_goals rfl

theorem parseSgrLoop_blank (h : attrs.KeepBlank) (s : Sgr) (params : List Int) :
    (parseSgrLoop attrs s params).colors.bgDefault = s.colors.bgDefault := by
  fun_induction parseSgrLoop attrs s params with
  | case1 s => rfl
  | case2 s n rest hstate ih => exact ih.trans (processNormal_blank h s n)
  | case3 s n rest hstate ih =>
      refine ih.trans ?_
      rw [processFgBg]
      split_ifs <;> rfl
  | case4 s n rest hstate ih =>
      refine ih.trans ?_
      rw [processAnsi8]
      split_ifs
      · exact applyColor_blank _ _
      · rfl
  | case5 s n rest hstate hbad ih => exact ih
  | case6 => rfl
  | case7 s n hstate hn s₁ n₁ rest hbad ih => exact ih
  | case8 => rfl
  | case9 s n hstate hn s₁ n₁ hn₁ s₂ n₂ rest hbad ih => exact ih
  | case10 s n => exact applyColor_blank _ _
  | case11 s n hstate hn s₁ n₁ hn₁ s₂ n₂ hn₂ s₃ colored last rest ih =>
      exact ih.trans (applyColor_blank _ _)

theorem terminalParseAnsi_blank (h : attrs.KeepBlank) (t : Terminal) :
    (t.terminalParseAnsi attrs).colors.bgDefault = t.colors.bgDefault := by
  rw [Terminal.terminalParseAnsi]
  split
  · split_ifs
    · simp only [parseSgr]
      split_ifs
      · rfl
      · exact parseSgrLoop_blank h _ _
    · rfl
  · rfl

theorem collectChar_blank (h : attrs.KeepBlank) (t : Terminal) (c : Char) :
    (t.collectChar attrs c).colors.bgDefault = t.colors.bgDefault := by
  rw [Terminal.collectChar]
  split_ifs
  · rfl
  · rfl
  · exact terminalParseAnsi_blank h _

end Blank

namespace Terminal

namespace Shows

variable {f : Format} {t t' : Terminal} {p : Paper}

/-- The cell under the cursor is painted. -/
theorem paint (h : Shows f t p) {bits : Nat} (hbits : 32 ≤ bits) (color : Nat → Nat → Nat) :
    Shows f (fillRows bits color t.fontHPx t.fontWPx t t.getPxBase).1 (p.paint f color) := by
  obtain ⟨hscreen, rfl, htall, hline, hcolumn, hpixels⟩ := h
  have hsizes := hscreen.sizes
  have hwide : t.fontWPx * (t.cursorH + 1) ≤ t.termWPx :=
    Nat.le_trans (Nat.mul_le_mul_left _ hscreen.cursorH) hsizes.cellsWide
  have hhigh : t.fontHPx * (t.cursorV + 1) ≤ t.termHPx :=
    Nat.le_trans (Nat.mul_le_mul_left _ hscreen.cursorV) hsizes.cellsHigh
  have hbase : t.getPxBase = t.termWPx * (t.fontHPx * t.cursorV) + t.fontWPx * t.cursorH := by
    rw [(hscreen.cell htall).2]
    ring
  rw [Nat.mul_succ] at hwide hhigh
  have hpainted := (fillRows_pixel hsizes.small hbits _ _ _ _ hwide hhigh color).2
  rw [← hbase] at hpainted
  have hpaints := hscreen.fillCell hbits color
  generalize fillRows bits color t.fontHPx t.fontWPx t t.getPxBase = painted at *
  obtain ⟨buf, places, heq, hplaces⟩ := hpaints
  refine ⟨hscreen.paints ⟨buf, places, heq, hplaces⟩, by rw [heq]; rfl, htall,
    by rw [heq]; exact hline, by rw [heq]; exact hcolumn, ?_⟩
  intro y hy x hx
  rw [hpainted y x hx, hpixels y hy x hx]
  change _ = (p.paint t.format color).ink (t.fontHPx * p.fed + y) x
  have hcell : t.fontHPx * p.line = t.fontHPx * p.fed + t.fontHPx * t.cursorV := by
    rw [hline, Nat.mul_add]
  simp only [Paper.paint]
  change _ = if InBlock (t.fontHPx * p.line) (t.fontWPx * p.column) t.fontHPx t.fontWPx _ _ then
    color (t.fontHPx * p.fed + y - t.fontHPx * p.line) (x - t.fontWPx * p.column) else _
  rw [hcell, hcolumn, Nat.add_sub_add_left]
  apply if_congr _ rfl rfl
  unfold InBlock
  omega

/-- Only what is not shown changes. -/
theorem other (h : Shows f t p) (hscreen : t'.OnScreen) (hformat : t'.format = t.format)
    (hbuf : t'.buf1 = t.buf1) (hcursorV : t'.cursorV = t.cursorV)
    (hcursorH : t'.cursorH = t.cursorH) : Shows f t' p := by
  refine ⟨hscreen, hformat.trans h.format, h.tall, hcursorV ▸ h.line, hcursorH ▸ h.column, ?_⟩
  intro y hy x hx
  have hwide : t'.termWPx = t.termWPx := congrArg Format.termWPx hformat
  rw [pixel, hbuf, hwide]
  exact h.pixels y hy x hx

/-- The cursor moves to another cell. -/
theorem move (h : Shows f t p) {cursorH cursorV line column : Nat} (hcursorH : cursorH < t.cursorHMax)
    (hcursorV : cursorV < t.cursorVMax) (hline : line = p.fed + cursorV) (hcolumn : column = cursorH) :
    Shows f {t with cursorH, cursorV} {p with line, column} :=
  ⟨h.screen.move hcursorH hcursorV, h.format, h.tall, hline, hcolumn, h.pixels⟩

theorem scrollScreen (h : Shows f t p) :
    Shows f t.scrollScreen {p.feed f with line := p.line + 1} := by
  obtain ⟨hscreen, rfl, htall, hline, hcolumn, hpixels⟩ := h
  have hscrolled := hscreen.scrollScreen_pixel
  have hpaints := hscreen.scrollScreen_paints
  generalize t.scrollScreen = t' at *
  obtain ⟨buf, places, heq, hplaces⟩ := hpaints
  refine ⟨hscreen.paints ⟨buf, places, heq, hplaces⟩, by rw [heq]; rfl, htall,
    by rw [heq]; exact (congrArg (· + 1) hline).trans (Nat.add_right_comm _ _ _),
    by rw [heq]; exact hcolumn, ?_⟩
  intro y hy x hx
  change _ = if t.fontHPx * p.fed + t.termHPx ≤ t.fontHPx * (p.fed + 1) + y then t.colors.bgDefault
    else p.ink (t.fontHPx * (p.fed + 1) + y) x
  have hrow : t.fontHPx * (p.fed + 1) + y = t.fontHPx * p.fed + (y + t.fontHPx) := by
    rw [Nat.mul_succ]
    omega
  rw [hscrolled y hy x hx, hrow]
  split_ifs with hin hout
  · omega
  · exact hpixels _ hin x hx
  · rfl
  · omega

theorem newline (h : Shows f t p) : Shows f t.newline (p.newline f t.scrollEnabled) := by
  have hcursorH : 0 < t.cursorHMax := Nat.lt_of_le_of_lt (Nat.zero_le _) h.screen.cursorH
  have hlines : f.lines = t.cursorVMax := congrArg Format.lines h.format.symm
  have hiff : p.line + 1 ≥ p.fed + f.lines ↔ t.isScrollNeeded := by
    rw [h.line, hlines, isScrollNeeded]
    omega
  rw [Terminal.newline, Paper.newline]
  simp only [hiff]
  split_ifs with hneeded hscroll
  · have hscrolled := h.scrollScreen
    have hdims : t.scrollScreen.cursorHMax = t.cursorHMax ∧ t.scrollScreen.cursorV = t.cursorV := by
      obtain ⟨buf, places, heq, -⟩ := h.screen.scrollScreen_paints
      rw [heq]
      exact ⟨rfl, rfl⟩
    exact hscrolled.move (hdims.1.symm ▸ hcursorH) hscrolled.screen.cursorV hscrolled.line rfl
  · exact h
  · have hroom : t.cursorV + 1 < t.cursorVMax := Nat.not_le.mp hneeded
    exact h.move hcursorH hroom (by rw [h.line, Nat.add_assoc]) rfl

theorem drawchar (h : Shows f t p) (c : Char) :
    Shows f (t.drawchar c) (p.stroke f (.glyph (t.glyph c) t.scrollEnabled)) := by
  have hpainted := h.paint (Nat.le_refl 32) (t.glyph c)
  obtain ⟨buf, places, heq, -⟩ := h.screen.fillCell (Nat.le_refl 32) (t.glyph c)
  have hcolumns : f.columns = t.cursorHMax := congrArg Format.columns h.format.symm
  have hdrawn : t.drawchar c =
      let t' := (fillRows 32 (t.glyph c) t.fontHPx t.fontWPx t t.getPxBase).1
      if t'.cursorH + 1 ≥ t'.cursorHMax then t'.newline
      else {t' with cursorH := t'.cursorH + 1} := rfl
  rw [hdrawn, Paper.stroke]
  generalize (fillRows 32 (t.glyph c) t.fontHPx t.fontWPx t t.getPxBase).1 = t' at *
  have hscroll : t'.scrollEnabled = t.scrollEnabled := by rw [heq]
  have hmax : t'.cursorHMax = t.cursorHMax := by rw [heq]
  have hcursor : p.column = t'.cursorH := hpainted.column
  have hiff : p.column + 1 ≥ f.columns ↔ t'.cursorH + 1 ≥ t'.cursorHMax := by
    rw [hcursor, hcolumns, hmax]
  simp only [hiff]
  split_ifs with hend
  · rw [← hscroll]
    exact hpainted.newline
  · exact hpainted.move (Nat.not_le.mp hend) hpainted.screen.cursorV hpainted.line
      (congrArg (· + 1) hcursor)

/-- A character after drawing that began at `t`. -/
theorem glyph (h : Shows f t' p) (hdraws : Draws t t') (c : Char) :
    Shows f (t'.drawchar c) (p.stroke f (.glyph (t.glyph c) t.scrollEnabled)) := by
  obtain ⟨buf, places, cursorH, cursorV, rfl⟩ := hdraws
  exact h.drawchar c

theorem drawCursor (h : Shows f t p) (color : Nat) :
    Shows f (t.drawCursor color) (p.stroke f (.cover color)) :=
  h.paint (by decide) fun _ _ => color

theorem clearScreen (h : Shows f t p) : Shows f t.clearScreen (p.stroke f .clear) := by
  obtain ⟨hscreen, rfl, htall, hline, hcolumn, hpixels⟩ := h
  have hcleared := t.clearScreen_pixel
  obtain ⟨buf, places, heq, hplaces⟩ := clearScreen_paints t
  refine ⟨hscreen.clearScreen, by rw [heq]; rfl, htall, by rw [heq]; exact hline,
    by rw [heq]; exact hcolumn, ?_⟩
  intro y hy x hx
  rw [hcleared y hy x hx]
  exact (if_pos ⟨Nat.le_add_right _ _, Nat.add_lt_add_left hy _⟩).symm

theorem backspace (h : Shows f t p) : Shows f t.backspace (p.stroke f .back) := by
  have hcursorH := h.screen.cursorH
  have hcursorV := h.screen.cursorV
  have hline := h.line
  have hcolumn := h.column
  have hiff : p.column = 0 ∧ p.line ≠ p.fed ↔ t.cursorH = 0 ∧ t.cursorV ≠ 0 := by omega
  have hleft : p.column ≠ 0 ↔ t.cursorH ≠ 0 := by omega
  rw [Terminal.backspace, Paper.stroke]
  simp only [hiff, hleft]
  split_ifs
  · exact h.move hcursorH (by omega) (by omega) hcolumn
  · exact h.move (by omega) hcursorV hline (by omega)
  · exact h

/-- Outside of sequences. -/
theorem plainChar (h : Shows f t p) (hplain : t.isAnsiState = false) (c : Char) :
    Shows f (t.plainChar c) ((t.strokes c).foldl (Paper.stroke f) p) := by
  rw [Terminal.plainChar, strokes, hplain]
  simp only [Bool.false_eq_true, if_false]
  split_ifs
  · exact h.backspace
  · exact h.other (h.screen.other rfl) rfl rfl rfl rfl
  · exact h.newline
  · exact h
  · have hdraws := drawchar_draws t ' '
    have hdraws' := hdraws.trans (drawchar_draws _ ' ')
    have hdraws'' := hdraws'.trans (drawchar_draws _ ' ')
    exact (((h.drawchar ' ').glyph hdraws ' ').glyph hdraws' ' ').glyph hdraws'' ' '
  · exact h
  · exact h.drawchar c

theorem hideCursor (h : Shows f t p) :
    Shows f (hideCursor t)
      ((if t.cursorEnabled then [.cover t.colors.bg] else []).foldl (Paper.stroke f) p) := by
  rw [Modules.hideCursor]
  split
  · exact h.drawCursor _
  · exact h

theorem showCursor (h : Shows f t p) :
    Shows f (showCursor t)
      ((if t.cursorEnabled then [.cover t.cursorColor] else []).foldl (Paper.stroke f) p) := by
  rw [Modules.showCursor]
  split
  · exact h.drawCursor _
  · exact h

/-- Inside of a sequence nothing is drawn. -/
theorem collectChar {attrs : Attributes} (h : Shows f t p) (hattrs : attrs.KeepBlank) (c : Char) :
    Shows f (t.collectChar attrs c) p := by
  have hblank := collectChar_blank hattrs t c
  obtain ⟨colors, isAnsiState, ansiSequence, writes, indices, heq⟩ := collectChar_frame attrs t c
  rw [heq] at hblank ⊢
  refine h.other ?_ ?_ rfl rfl rfl
  · exact h.screen.other rfl
  · exact congrArg (fun blank => {t.format with blank}) hblank

theorem printChar {attrs : Attributes} (h : Shows f t p) (hattrs : attrs.KeepBlank) (c : Char) :
    Shows f (t.printChar attrs c) ((t.strokes c).foldl (Paper.stroke f) p) := by
  rw [Terminal.printChar]
  cases hansi : t.isAnsiState with
  | false => exact h.plainChar hansi c
  | true =>
      rw [strokes, hansi]
      exact h.collectChar hattrs c

end Shows

end Terminal

/-- One step of the console. -/
theorem Console.shows_step {attrs : Attributes} (hattrs : attrs.KeepBlank) {f : Format} {s : Console}
    {p : Paper} (h : s.terminal.Shows f p) (action : ConsoleAction) :
    (s.step attrs action).terminal.Shows f ((s.strokes action).foldl (Paper.stroke f) p) := by
  cases action with
  | print text =>
      rw [Console.step, Console.strokes]
      cases s.call with
      | none => exact h.hideCursor
      | some call => exact h
  | char =>
      rw [Console.step, Console.strokes]
      cases s.call with
      | none => exact h
      | some call =>
          by_cases hend : call.pos = call.text.length
          · simp only [if_pos hend]
            exact h.showCursor
          · simp only [if_neg hend]
            cases call.text[call.pos]? with
            | none => exact h
            | some c => exact h.printChar hattrs c
  | cursor enabled => exact h.other (h.screen.other rfl) rfl rfl rfl rfl
  | scroll enabled => exact h.other (h.screen.other rfl) rfl rfl rfl rfl
  | clear =>
      rw [Console.step, Console.strokes]
      cases s.call with
      | none => exact h.clearScreen
      | some call => exact h

/-- A run of the console. -/
theorem Console.shows_run {attrs : Attributes} (hattrs : attrs.KeepBlank) {f : Format} {s : Console}
    {p : Paper} (h : s.terminal.Shows f p) (actions : List ConsoleAction) :
    (actions.foldl (Console.step attrs) s).terminal.Shows f
      ((s.drawn attrs actions).foldl (Paper.stroke f) p) := by
  induction actions generalizing s p with
  | nil => exact h
  | cons action rest ih =>
      rw [Console.drawn, List.foldl_append]
      exact ih (Console.shows_step hattrs h action)

/-- What the collection of sequences depends on is the same. -/
structure Terminal.SameAnsi (t t' : Terminal) : Prop where
  isAnsiState : t'.isAnsiState = t.isAnsiState
  ansiSequence : t'.ansiSequence = t.ansiSequence
  writes : t'.writes = t.writes
  starts : t'.starts = t.starts

theorem Terminal.Draws.sameAnsi {t t' : Terminal} (h : Terminal.Draws t t') : t.SameAnsi t' := by
  obtain ⟨_, _, _, _, rfl⟩ := h
  exact ⟨rfl, rfl, rfl, rfl⟩

section Sequences

variable {attrs : Attributes} {s : Console} {action : ConsoleAction} {state : Option Nat} {c : Char}

/-- A step that takes no character leaves the sequence alone. -/
theorem Console.step_idle (attrs : Attributes) (h : s.taken action = none) :
    s.terminal.SameAnsi (s.step attrs action).terminal := by
  have hsame : s.terminal.SameAnsi s.terminal := ⟨rfl, rfl, rfl, rfl⟩
  cases action with
  | print text =>
      rw [Console.step]
      cases s.call with
      | none => exact (hideCursor_draws s.terminal).sameAnsi
      | some call => exact hsame
  | char =>
      rw [Console.taken] at h
      rw [Console.step]
      cases hcall : s.call with
      | none => exact hsame
      | some call =>
          have hchar : call.text[call.pos]? = none := by simpa [hcall] using h
          simp only [hchar]
          split
          · exact (showCursor_draws s.terminal).sameAnsi
          · exact hsame
  | cursor enabled => exact ⟨rfl, rfl, rfl, rfl⟩
  | scroll enabled => exact ⟨rfl, rfl, rfl, rfl⟩
  | clear =>
      rw [Console.step]
      cases s.call with
      | none => exact (Terminal.clearScreen_draws s.terminal).sameAnsi
      | some call => exact hsame

theorem Console.step_taken (attrs : Attributes) (h : s.taken action = some c) :
    (s.step attrs action).terminal = s.terminal.printChar attrs c := by
  cases action with
  | char =>
      obtain ⟨call, hcall, hchar⟩ := Option.bind_eq_some_iff.mp h
      have hpos : call.pos ≠ call.text.length := by
        have hlt := (List.getElem?_eq_some_iff.mp hchar).1
        omega
      simp only [Console.step, hcall, if_neg hpos, hchar]
  | _ => cases h

/-- A run in which no sequence fills the array does not write behind it. -/
theorem Console.clean_run (attrs : Attributes) (h : Collects s.terminal state)
    (hclean : Clean s.terminal) {actions : List ConsoleAction}
    (hshort : Short state (s.typed attrs actions)) :
    Clean (actions.foldl (Console.step attrs) s).terminal := by
  induction actions generalizing s state with
  | nil => exact hclean
  | cons action rest ih =>
      rw [Console.typed] at hshort
      cases htaken : s.taken action with
      | none =>
          rw [htaken] at hshort
          obtain ⟨hstate, hsequence, hwrites, hstarts⟩ := Console.step_idle attrs htaken
          refine ih ⟨hstate.trans h.isAnsiState, ?_⟩ ⟨?_, ?_⟩ hshort
          · rw [hsequence, h.length]
          · rw [hwrites]
            exact hclean.writes
          · rw [hstarts]
            exact hclean.starts
      | some c =>
          rw [htaken] at hshort
          obtain ⟨hroom, hrest⟩ := hshort
          obtain ⟨hnext, hkeeps, -⟩ := h.printChar attrs hroom c
          rw [← Console.step_taken attrs htaken] at hnext hkeeps
          exact ih hnext (hkeeps hclean) hrest

end Sequences

/-- The paper of a new terminal: what was in the buffer is in the window. -/
def AllocArgs.paper (args : AllocArgs) : Paper where
  ink y x := args.buffer1 ((terminalAlloc args).termWPx * y + x)
  fed := 0
  line := 0
  column := 0

theorem AllocArgs.Usable.shows {args : AllocArgs} (h : args.Usable) :
    (terminalAlloc args).Shows (terminalAlloc args).format args.paper where
  screen := onScreen_alloc h
  format := rfl
  tall := h.hFont
  line := rfl
  column := rfl
  pixels y _ x _ := by
    change _ = args.buffer1 ((terminalAlloc args).termWPx * (_ * 0 + y) + x)
    rw [Nat.mul_zero, Nat.zero_add]
    rfl

/-- `fb_load_buffer`: the framebuffer `buf2` has rows of `fbWPx` pixels. -/
def fbLoadBuffer (t : Terminal) (fbWPx : Nat) (buf2 : Nat → Nat) : Nat → Nat :=
  t.termHPx.fold (fun i _ buf => t.termWPx.fold (fun j _ buf =>
    Function.update buf (fbWPx * i + j) (t.buf1 (t.termWPx * i + j))) buf) buf2

/-- The window is copied to the upper left corner of the framebuffer, and the rest of it stays. -/
theorem fbLoadBuffer_pixel (t : Terminal) {fbWPx : Nat} (hwide : t.termWPx ≤ fbWPx) (buf2 : Nat → Nat) :
    ∀ y, ∀ x < fbWPx, fbLoadBuffer t fbWPx buf2 (fbWPx * y + x) =
      if y < t.termHPx ∧ x < t.termWPx then t.pixel y x else buf2 (fbWPx * y + x) := by
  refine fold_inv (n := t.termHPx) (fun i (buf : Nat → Nat) => ∀ y, ∀ x < fbWPx,
    buf (fbWPx * y + x) =
      if y < i ∧ x < t.termWPx then t.pixel y x else buf2 (fbWPx * y + x)) ?_ ?_
  · intro y x _
    rw [if_neg fun hin => Nat.not_lt_zero _ hin.1]
  · intro i hi buf hbuf
    have hrow := @fold_inv (Nat → Nat) t.termWPx
      (fun j buf => Function.update buf (fbWPx * i + j) (t.buf1 (t.termWPx * i + j))) buf
      (fun j (row : Nat → Nat) => ∀ y, ∀ x < fbWPx, row (fbWPx * y + x) =
        if y = i ∧ x < j then t.pixel y x else buf (fbWPx * y + x))
      (fun y x _ => (if_neg fun hin => Nat.not_lt_zero _ hin.2).symm) ?_
    · intro y x hx
      rw [hrow y x hx, hbuf y x hx]
      split_ifs with hhere habove hnext hnext
      · rfl
      · omega
      · rfl
      · omega
      · omega
      · rfl
    · intro j hj row hprefix y x hx
      rw [Function.update_apply]
      simp only [place_inj hx (show j < fbWPx by omega), hprefix y x hx]
      split_ifs with hhere hin hin
      · rw [hhere.1, hhere.2]
        rfl
      · omega
      · rfl
      · omega
      · omega
      · rfl

/-- Whatever strings and sequences are printed, and however calls and flags are mixed: the screen
shows the window of the paper that was typed, and refreshing puts this window on the framebuffer.
A sequence that fills its array is excluded: the characters behind it would be written over the
other fields of the terminal. -/
theorem terminal_shows_paper {attrs : Attributes} (hattrs : attrs.KeepBlank) {args : AllocArgs}
    (h : args.Usable) (actions : List ConsoleAction)
    (hshort : Short none (Console.typed attrs {terminal := terminalAlloc args} actions))
    {t : Terminal} {p : Paper}
    (ht : t = (actions.foldl (Console.step attrs) {terminal := terminalAlloc args}).terminal)
    (hp : p = (Console.drawn attrs {terminal := terminalAlloc args} actions).foldl
      (Paper.stroke (terminalAlloc args).format) args.paper) :
    Clean t ∧ p.line = p.fed + t.cursorV ∧ p.column = t.cursorH ∧
      (∀ y < (terminalAlloc args).termHPx, ∀ x < (terminalAlloc args).termWPx,
        t.pixel y x = p.ink (args.hFont * p.fed + y) x) ∧
      ∀ fbWPx, (terminalAlloc args).termWPx ≤ fbWPx → ∀ buf2 y, ∀ x < fbWPx,
        fbLoadBuffer t fbWPx buf2 (fbWPx * y + x) =
          if y < (terminalAlloc args).termHPx ∧ x < (terminalAlloc args).termWPx then
            p.ink (args.hFont * p.fed + y) x
          else buf2 (fbWPx * y + x) := by
  have hshows := Console.shows_run hattrs (s := {terminal := terminalAlloc args}) h.shows actions
  have hcleaned := Console.clean_run attrs (s := {terminal := terminalAlloc args})
    (collects_alloc args) (clean_alloc args) hshort
  rw [← ht] at hcleaned
  rw [← ht, ← hp] at hshows
  have hwide : t.termWPx = (terminalAlloc args).termWPx :=
    congrArg Format.termWPx hshows.format
  have hhigh : t.termHPx = (terminalAlloc args).termHPx :=
    congrArg Format.termHPx hshows.format
  refine ⟨hcleaned, hshows.line, hshows.column, hshows.pixels, ?_⟩
  intro fbWPx hfb buf2 y x hx
  rw [fbLoadBuffer_pixel t (hwide.symm ▸ hfb) buf2 y x hx, hwide, hhigh]
  split_ifs with hin
  · exact hshows.pixels y hin.1 x hin.2
  · rfl

/-- A line is printed in red, and a second one while the first call is over. -/
theorem terminal_shows_paper_small :
    ∃ t p actions, actions = .print ['\x1b', '[', '3', '1', 'm', 'a', '\n'] ::
        List.replicate 8 ConsoleAction.char ++ [.print ['b'], .char] ∧
      t = (actions.foldl (Console.step defaultAttributes)
        {terminal := terminalAlloc smallScreen}).terminal ∧
      p = (Console.drawn defaultAttributes {terminal := terminalAlloc smallScreen} actions).foldl
        (Paper.stroke (terminalAlloc smallScreen).format) smallScreen.paper ∧
      p.line = p.fed + t.cursorV ∧ p.column = t.cursorH := by
  have husable : smallScreen.Usable := by constructor <;> decide
  have hshort : Short none (Console.typed defaultAttributes {terminal := terminalAlloc smallScreen}
      (.print ['\x1b', '[', '3', '1', 'm', 'a', '\n'] ::
        List.replicate 8 ConsoleAction.char ++ [.print ['b'], .char])) := by decide
  obtain ⟨-, hline, hcolumn, -⟩ :=
    terminal_shows_paper keepBlank_defaultAttributes husable _ hshort rfl rfl
  exact ⟨_, _, _, rfl, rfl, rfl, hline, hcolumn⟩

end Tellurium.Modules
