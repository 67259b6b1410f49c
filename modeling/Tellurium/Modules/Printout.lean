import Tellurium.Modules.Paper

/-!
Text on the paper of a terminal. Where the terminal scrolls, what is typed goes on line by line and
never over what was typed before; the cursor covers only the cell in front of it. So the screen
shows the last lines of all the text that was ever printed, each character with its glyph.
-/

namespace Tellurium.Modules

open Tellurium.Lib

/-- A character that is typed as it stands. -/
def Typed (c : Char) : Prop := c ∉ ['\x08', '\x1b', '\n', '\r', '\t', '\x0b']

/-- The line and the column behind a character. -/
def nextPlace (columns : Nat) (place : Nat × Nat) (c : Char) : Nat × Nat :=
  if c = '\n' ∨ place.2 + 1 ≥ columns then (place.1 + 1, 0) else (place.1, place.2 + 1)

/-- The characters of a text with their lines and columns. -/
def layout (columns : Nat) : Nat × Nat → List Char → List ((Nat × Nat) × Char)
  | _, [] => []
  | place, c :: rest =>
      (if c = '\n' then [] else [(place, c)]) ++ layout columns (nextPlace columns place c) rest

/-- The first line in the window when the cursor is on `line`. -/
def firstLine (lines line : Nat) : Nat := line + 1 - lines

/-- What was typed stands on the paper, in front of the cursor. -/
structure Paper.Reads (f : Format) (font : Char → Nat → Nat → Nat) (p : Paper)
    (typed : List ((Nat × Nat) × Char)) : Prop where
  room : p.line < p.fed + f.lines
  fed : p.fed = firstLine f.lines p.line
  column : p.column < f.columns
  high : f.fontHPx * f.lines ≤ f.termHPx
  front : ∀ entry ∈ typed, entry.1.1 < p.line ∨ entry.1.1 = p.line ∧ entry.1.2 < p.column
  ink : ∀ entry ∈ typed, ∀ i < f.fontHPx, ∀ j < f.fontWPx,
    p.ink (f.fontHPx * entry.1.1 + i) (f.fontWPx * entry.1.2 + j) = font entry.2 i j

theorem le_of_cell {n a b i : Nat} (hi : i < n) (h : n * b ≤ n * a + i) : b ≤ a := by
  apply Nat.le_of_lt_succ
  apply Nat.lt_of_mul_lt_mul_left (a := n)
  rw [Nat.mul_succ]
  omega

/-- A pixel of one cell belongs to no other. -/
theorem inBlock_cell {h w line column line' column' i j : Nat} (hi : i < h) (hj : j < w)
    (hin : InBlock (h * line') (w * column') h w (h * line + i) (w * column + j)) :
    line = line' ∧ column = column' := by
  obtain ⟨⟨hlow, hhigh⟩, hleft, hright⟩ := hin
  have hline : line ≤ line' := le_of_cell (show h - 1 < h by omega) (by omega)
  have hcolumn : column ≤ column' := le_of_cell (show w - 1 < w by omega) (by omega)
  exact ⟨Nat.le_antisymm hline (le_of_cell hi hlow),
    Nat.le_antisymm hcolumn (le_of_cell hj hleft)⟩

namespace Paper

variable {f : Format} {font : Char → Nat → Nat → Nat} {p : Paper}
  {typed : List ((Nat × Nat) × Char)}

theorem paint_ink (f : Format) (p : Paper) (color : Nat → Nat → Nat) (y x : Nat) :
    (p.paint f color).ink y x =
      if InBlock (f.fontHPx * p.line) (f.fontWPx * p.column) f.fontHPx f.fontWPx y x then
        color (y - f.fontHPx * p.line) (x - f.fontWPx * p.column)
      else p.ink y x := rfl

theorem feed_ink (f : Format) (p : Paper) (y x : Nat) :
    (p.feed f).ink y x = if f.fontHPx * p.fed + f.termHPx ≤ y then f.blank else p.ink y x := rfl

namespace Reads

/-- The cell under the cursor is in front of all text. -/
theorem ink_paint (h : Reads f font p typed) (color : Nat → Nat → Nat) :
    ∀ entry ∈ typed, ∀ i < f.fontHPx, ∀ j < f.fontWPx,
      (p.paint f color).ink (f.fontHPx * entry.1.1 + i) (f.fontWPx * entry.1.2 + j) =
        font entry.2 i j := by
  intro entry hentry i hi j hj
  rw [paint_ink, if_neg, h.ink entry hentry i hi j hj]
  intro hin
  obtain ⟨hline, hcolumn⟩ := inBlock_cell hi hj hin
  have hfront := h.front entry hentry
  omega

theorem cover (h : Reads f font p typed) (color : Nat) :
    Reads f font (p.stroke f (.cover color)) typed :=
  ⟨h.room, h.fed, h.column, h.high, h.front, h.ink_paint fun _ _ => color⟩

/-- The cell under the cursor gets the glyph. -/
theorem ink_glyph (h : Reads f font p typed) (c : Char) :
    ∀ entry ∈ typed ++ [((p.line, p.column), c)], ∀ i < f.fontHPx, ∀ j < f.fontWPx,
      (p.paint f (font c)).ink (f.fontHPx * entry.1.1 + i) (f.fontWPx * entry.1.2 + j) =
        font entry.2 i j := by
  intro entry hentry i hi j hj
  rcases List.mem_append.mp hentry with hbefore | hhere
  · exact h.ink_paint (font c) entry hbefore i hi j hj
  · rw [List.mem_singleton.mp hhere, paint_ink, if_pos, Nat.add_sub_cancel_left,
      Nat.add_sub_cancel_left]
    exact ⟨⟨Nat.le_add_right _ _, Nat.add_lt_add_left hi _⟩, Nat.le_add_right _ _,
      Nat.add_lt_add_left hj _⟩

/-- The cursor goes to the next line. The paper that is fed has no text on it. -/
theorem newline (hroom : p.line < p.fed + f.lines) (hfed : p.fed = firstLine f.lines p.line)
    (hcolumns : 0 < f.columns) (hhigh : f.fontHPx * f.lines ≤ f.termHPx)
    (hfront : ∀ entry ∈ typed, entry.1.1 ≤ p.line)
    (hink : ∀ entry ∈ typed, ∀ i < f.fontHPx, ∀ j < f.fontWPx,
      p.ink (f.fontHPx * entry.1.1 + i) (f.fontWPx * entry.1.2 + j) = font entry.2 i j) :
    Reads f font (p.newline f true) typed ∧ (p.newline f true).line = p.line + 1 ∧
      (p.newline f true).column = 0 := by
  unfold firstLine at hfed
  simp only [Paper.newline, if_true]
  split_ifs with hfull
  · refine ⟨⟨?_, ?_, hcolumns, hhigh, ?_, ?_⟩, rfl, rfl⟩
    · change p.line + 1 < p.fed + 1 + f.lines
      omega
    · change p.fed + 1 = p.line + 1 + 1 - f.lines
      omega
    · intro entry hentry
      exact .inl (Nat.lt_succ_of_le (hfront entry hentry))
    · intro entry hentry i hi j hj
      change (p.feed f).ink _ _ = _
      rw [feed_ink, if_neg, hink entry hentry i hi j hj]
      -- The line of the entry ends above the fed paper.
      have hline := hfront entry hentry
      have hend : f.fontHPx * (entry.1.1 + 1) ≤ f.fontHPx * (p.fed + f.lines) :=
        Nat.mul_le_mul_left _ (by omega)
      rw [Nat.mul_succ, Nat.mul_add] at hend
      omega
  · refine ⟨⟨?_, ?_, hcolumns, hhigh, ?_, hink⟩, rfl, rfl⟩
    · change p.line + 1 < p.fed + f.lines
      omega
    · change p.fed = p.line + 1 + 1 - f.lines
      omega
    · intro entry hentry
      exact .inl (Nat.lt_succ_of_le (hfront entry hentry))

/-- A character that is typed as it stands. -/
theorem glyph (h : Reads f font p typed) {c : Char} (hc : c ≠ '\n') :
    Reads f font (p.stroke f (.glyph (font c) true)) (typed ++ [((p.line, p.column), c)]) ∧
      ((p.stroke f (.glyph (font c) true)).line, (p.stroke f (.glyph (font c) true)).column) =
        nextPlace f.columns (p.line, p.column) c := by
  have hcolumns : 0 < f.columns := Nat.lt_of_le_of_lt (Nat.zero_le _) h.column
  rw [Paper.stroke, nextPlace]
  by_cases hend : p.column + 1 ≥ f.columns
  · rw [if_pos hend, if_pos (.inr hend)]
    have hfront : ∀ entry ∈ typed ++ [((p.line, p.column), c)], entry.1.1 ≤ p.line := by
      intro entry hentry
      rcases List.mem_append.mp hentry with hbefore | hhere
      · have hfront := h.front entry hbefore
        omega
      · rw [List.mem_singleton.mp hhere]
    obtain ⟨hreads, hline, hcolumn⟩ :=
      newline (p := p.paint f (font c)) h.room h.fed hcolumns h.high hfront (h.ink_glyph c)
    exact ⟨hreads, Prod.ext hline hcolumn⟩
  · rw [if_neg hend, if_neg (not_or.mpr ⟨hc, hend⟩)]
    refine ⟨⟨h.room, h.fed, Nat.not_le.mp hend, h.high, ?_, h.ink_glyph c⟩, rfl⟩
    intro entry hentry
    change entry.1.1 < p.line ∨ entry.1.1 = p.line ∧ entry.1.2 < p.column + 1
    rcases List.mem_append.mp hentry with hbefore | hhere
    · have hfront := h.front entry hbefore
      omega
    · rw [List.mem_singleton.mp hhere]
      exact .inr ⟨rfl, Nat.lt_succ_self _⟩

/-- One character of a text. -/
theorem char (h : Reads f font p typed) (c : Char) :
    Reads f font (p.stroke f (if c = '\n' then .newline true else .glyph (font c) true))
        (typed ++ if c = '\n' then [] else [((p.line, p.column), c)]) ∧
      ((p.stroke f (if c = '\n' then .newline true else .glyph (font c) true)).line,
        (p.stroke f (if c = '\n' then .newline true else .glyph (font c) true)).column) =
          nextPlace f.columns (p.line, p.column) c := by
  by_cases hc : c = '\n'
  · have hcolumns : 0 < f.columns := Nat.lt_of_le_of_lt (Nat.zero_le _) h.column
    have hfront : ∀ entry ∈ typed, entry.1.1 ≤ p.line := by
      intro entry hentry
      have hbefore := h.front entry hentry
      omega
    obtain ⟨hreads, hline, hcolumn⟩ := newline h.room h.fed hcolumns h.high hfront h.ink
    simp only [if_pos hc, List.append_nil]
    rw [nextPlace, if_pos (.inl hc)]
    exact ⟨hreads, Prod.ext hline hcolumn⟩
  · simp only [if_neg hc]
    exact h.glyph hc

end Reads

end Paper

/-- A text without control characters but the newline. -/
def PlainText (text : List Char) : Prop := ∀ c ∈ text, c = '\n' ∨ Typed c

/-- The terminal shows a text that was typed on it, and nothing but drawing has happened since
`t₀`. -/
structure Terminal.Printed (t₀ t : Terminal) (p : Paper) (typed : List ((Nat × Nat) × Char)) :
    Prop where
  shows : t.Shows t₀.format p
  reads : p.Reads t₀.format t₀.glyph typed
  draws : Terminal.Draws t₀ t

section Printing

variable {attrs : Attributes} {t₀ t : Terminal} {p : Paper} {typed : List ((Nat × Nat) × Char)}
  {text : List Char} {c : Char}

theorem typed_ne (hc : c = '\n' ∨ Typed c) :
    c ≠ '\x08' ∧ c ≠ '\x1b' ∧ c ≠ '\r' ∧ c ≠ '\t' ∧ c ≠ '\x0b' := by
  rcases hc with rfl | htyped
  · decide
  · simp only [Typed, List.mem_cons, List.not_mem_nil, or_false, not_or] at htyped
    obtain ⟨hback, hescape, -, hreturn, htab, hvertical⟩ := htyped
    exact ⟨hback, hescape, hreturn, htab, hvertical⟩

theorem PlainText.short (h : PlainText text) : Short none text ∧ text.foldl scan none = none := by
  induction text with
  | nil => exact ⟨trivial, rfl⟩
  | cons c rest ih =>
      obtain ⟨hc, hrest⟩ := List.forall_mem_cons.mp h
      have hnext : scan none c = none := if_neg (typed_ne hc).2.1
      obtain ⟨hshort, hscan⟩ := ih hrest
      rw [Short, List.foldl_cons, hnext]
      exact ⟨⟨fun n hn => absurd hn (Option.not_mem_none n), hshort⟩, hscan⟩

namespace Terminal.Printed

theorem strokes (h : Printed t₀ t p typed) (hplain : t₀.isAnsiState = false)
    (hscroll : t₀.scrollEnabled = true) (hc : c = '\n' ∨ Typed c) :
    t.strokes c = [if c = '\n' then .newline true else .glyph (t₀.glyph c) true] := by
  obtain ⟨hback, hescape, hreturn, htab, hvertical⟩ := typed_ne hc
  obtain ⟨_, _, _, _, rfl⟩ := h.draws
  rw [Terminal.strokes, hplain, if_neg (by decide), if_neg hback, if_neg hescape, hscroll]
  by_cases hnewline : c = '\n'
  · rw [if_pos hnewline, if_pos hnewline]
  · rw [if_neg hnewline, if_neg hnewline, if_neg hreturn, if_neg htab, if_neg hvertical]
    rfl

/-- One character. -/
theorem printChar (h : Printed t₀ t p typed) (hattrs : attrs.KeepBlank)
    (hplain : t₀.isAnsiState = false) (hscroll : t₀.scrollEnabled = true)
    (hc : c = '\n' ∨ Typed c) :
    ∃ p', Printed t₀ (t.printChar attrs c) p'
        (typed ++ if c = '\n' then [] else [((p.line, p.column), c)]) ∧
      (p'.line, p'.column) = nextPlace t₀.cursorHMax (p.line, p.column) c := by
  have hshows := h.shows.printChar hattrs c
  rw [h.strokes hplain hscroll hc] at hshows
  obtain ⟨hreads, hplace⟩ := h.reads.char c
  have hdraws : Draws t (t.printChar attrs c) := by
    obtain ⟨_, _, _, _, heq⟩ := h.draws
    rw [Terminal.printChar, heq, hplain, if_neg (by decide)]
    exact plainChar_draws _ (typed_ne hc).2.1
  exact ⟨_, ⟨hshows, hreads, h.draws.trans hdraws⟩, hplace⟩

/-- A text without cursors. -/
theorem chars (h : Printed t₀ t p typed) (hattrs : attrs.KeepBlank)
    (hplain : t₀.isAnsiState = false) (hscroll : t₀.scrollEnabled = true) (htext : PlainText text) :
    ∃ p', Printed t₀ (text.foldl (Terminal.printChar attrs) t) p'
        (typed ++ layout t₀.cursorHMax (p.line, p.column) text) ∧
      (p'.line, p'.column) = text.foldl (nextPlace t₀.cursorHMax) (p.line, p.column) := by
  induction text generalizing t p typed with
  | nil =>
      refine ⟨p, ?_, rfl⟩
      rw [layout, List.append_nil]
      exact h
  | cons c rest ih =>
      obtain ⟨hc, hrest⟩ := List.forall_mem_cons.mp htext
      obtain ⟨p₁, hprinted, hplace⟩ := h.printChar hattrs hplain hscroll hc
      obtain ⟨p₂, hprinted', hplace'⟩ := ih hprinted hrest
      rw [hplace] at hprinted' hplace'
      refine ⟨p₂, ?_, hplace'⟩
      rw [layout, ← List.append_assoc]
      exact hprinted'

theorem hideCursor (h : Printed t₀ t p typed) :
    ∃ p', Printed t₀ (hideCursor t) p' typed ∧ p'.line = p.line ∧ p'.column = p.column := by
  refine ⟨_, ⟨h.shows.hideCursor, ?_, h.draws.trans (hideCursor_draws t)⟩, ?_⟩
  · split
    · exact h.reads.cover _
    · exact h.reads
  · split
    · exact ⟨rfl, rfl⟩
    · exact ⟨rfl, rfl⟩

theorem showCursor (h : Printed t₀ t p typed) :
    ∃ p', Printed t₀ (showCursor t) p' typed ∧ p'.line = p.line ∧ p'.column = p.column := by
  refine ⟨_, ⟨h.shows.showCursor, ?_, h.draws.trans (showCursor_draws t)⟩, ?_⟩
  · split
    · exact h.reads.cover _
    · exact h.reads
  · split
    · exact ⟨rfl, rfl⟩
    · exact ⟨rfl, rfl⟩

/-- A call. -/
theorem terminalPrint (h : Printed t₀ t p typed) (hattrs : attrs.KeepBlank)
    (hplain : t₀.isAnsiState = false) (hsequence : t₀.ansiSequence = [])
    (hscroll : t₀.scrollEnabled = true) (htext : PlainText text) {fuel : Nat}
    (hfuel : text.length < fuel) :
    ∃ t' p', Modules.terminalPrint attrs fuel t text = some t' ∧
      Printed t₀ t' p' (typed ++ layout t₀.cursorHMax (p.line, p.column) text) ∧
      (p'.line, p'.column) = text.foldl (nextPlace t₀.cursorHMax) (p.line, p.column) := by
  have hcollects : Collects t none := by
    obtain ⟨_, _, _, _, heq⟩ := h.draws
    rw [heq]
    exact ⟨hplain, congrArg List.length hsequence⟩
  have hrun := (terminalPrint_short attrs hcollects htext.short.1 hfuel).1
  obtain ⟨p₁, hhidden, hline, hcolumn⟩ := h.hideCursor
  obtain ⟨p₂, hprinted, hplace⟩ := hhidden.chars hattrs hplain hscroll htext
  obtain ⟨p₃, hshown, hline', hcolumn'⟩ := hprinted.showCursor
  rw [hline, hcolumn] at hshown hplace
  exact ⟨_, p₃, hrun, hshown, by rw [hline', hcolumn', hplace]⟩

end Terminal.Printed

theorem layout_append (columns : Nat) (place : Nat × Nat) (text later : List Char) :
    layout columns place (text ++ later) =
      layout columns place text ++ layout columns (text.foldl (nextPlace columns) place) later := by
  induction text generalizing place with
  | nil => rfl
  | cons c rest ih =>
      rw [List.cons_append, layout, layout, ih, List.append_assoc]
      rfl

theorem layout_column {columns : Nat} {place : Nat × Nat} (hplace : place.2 < columns)
    (text : List Char) : ∀ entry ∈ layout columns place text, entry.1.2 < columns := by
  induction text generalizing place with
  | nil => exact fun entry hentry => absurd hentry List.not_mem_nil
  | cons c rest ih =>
      have hnext : (nextPlace columns place c).2 < columns := by
        rw [nextPlace]
        split_ifs with hend
        · exact Nat.lt_of_le_of_lt (Nat.zero_le _) hplace
        · exact Nat.not_le.mp (not_or.mp hend).2
      rw [layout, List.forall_mem_append]
      refine ⟨fun entry hentry => ?_, ih hnext⟩
      split at hentry
      · cases hentry
      · rw [List.mem_singleton.mp hentry]
        exact hplace

/-- Any number of calls. -/
theorem Terminal.Printed.terminalPrints (h : Printed t₀ t p typed) (hattrs : attrs.KeepBlank)
    (hplain : t₀.isAnsiState = false) (hsequence : t₀.ansiSequence = [])
    (hscroll : t₀.scrollEnabled = true) {texts : List (List Char)} (htexts : ∀ text ∈ texts, PlainText text)
    {fuel : Nat} (hfuel : ∀ text ∈ texts, text.length < fuel) :
    ∃ t' p', texts.foldlM (Modules.terminalPrint attrs fuel) t = some t' ∧
      Printed t₀ t' p' (typed ++ layout t₀.cursorHMax (p.line, p.column) texts.flatten) ∧
      (p'.line, p'.column) = texts.flatten.foldl (nextPlace t₀.cursorHMax) (p.line, p.column) := by
  induction texts generalizing t p typed with
  | nil =>
      refine ⟨t, p, rfl, ?_, rfl⟩
      rw [List.flatten_nil, layout, List.append_nil]
      exact h
  | cons text rest ih =>
      obtain ⟨htext, hrest⟩ := List.forall_mem_cons.mp htexts
      obtain ⟨hlong, hfuelRest⟩ := List.forall_mem_cons.mp hfuel
      obtain ⟨t₁, p₁, hrun, hprinted, hplace⟩ :=
        h.terminalPrint hattrs hplain hsequence hscroll htext hlong
      obtain ⟨t₂, p₂, hrun', hprinted', hplace'⟩ := ih hprinted hrest hfuelRest
      rw [hplace] at hprinted' hplace'
      refine ⟨t₂, p₂, ?_, ?_, ?_⟩
      · rw [List.foldlM_cons, hrun]
        exact hrun'
      · rw [List.flatten_cons, layout_append, ← List.append_assoc]
        exact hprinted'
      · rw [List.flatten_cons, List.foldl_append]
        exact hplace'

/-- A character on a line of the window is on the screen. -/
theorem Terminal.Printed.pixel {chars : List Char}
    (h : Printed t₀ t p (layout t₀.cursorHMax (0, 0) chars)) :
    ∀ entry ∈ layout t₀.cursorHMax (0, 0) chars, p.fed ≤ entry.1.1 →
      ∀ i < t₀.fontHPx, ∀ j < t₀.fontWPx,
        (t₀.fontHPx * (entry.1.1 - p.fed) + i < t₀.termHPx ∧
          t₀.fontWPx * entry.1.2 + j < t₀.termWPx) ∧
        t.pixel (t₀.fontHPx * (entry.1.1 - p.fed) + i) (t₀.fontWPx * entry.1.2 + j) =
          t₀.glyph entry.2 i j := by
  intro entry hentry hshown i hi j hj
  obtain ⟨hroom, -, hcolumns, hhigh, hfront, hink⟩ := h.reads
  change p.line < p.fed + t₀.cursorVMax at hroom
  change t₀.fontHPx * t₀.cursorVMax ≤ t₀.termHPx at hhigh
  have hbroad : t₀.fontWPx * t₀.cursorHMax ≤ t₀.termWPx := by
    have hsizes := h.shows.screen.sizes
    obtain ⟨_, _, _, _, rfl⟩ := h.draws
    exact hsizes.cellsWide
  have hbefore := hfront entry hentry
  have hcolumn := layout_column (Nat.lt_of_le_of_lt (Nat.zero_le _) hcolumns) _ entry hentry
  have hrow : t₀.fontHPx * (entry.1.1 - p.fed + 1) ≤ t₀.fontHPx * t₀.cursorVMax :=
    Nat.mul_le_mul_left _ (by omega)
  have hcol : t₀.fontWPx * (entry.1.2 + 1) ≤ t₀.fontWPx * t₀.cursorHMax :=
    Nat.mul_le_mul_left _ hcolumn
  have hwhere : t₀.fontHPx * p.fed + (t₀.fontHPx * (entry.1.1 - p.fed) + i) =
      t₀.fontHPx * entry.1.1 + i := by
    rw [← Nat.add_assoc, ← Nat.mul_add, Nat.add_sub_cancel' hshown]
  rw [Nat.mul_succ] at hrow hcol
  have hin : t₀.fontHPx * (entry.1.1 - p.fed) + i < t₀.termHPx ∧
      t₀.fontWPx * entry.1.2 + j < t₀.termWPx := by omega
  refine ⟨hin, ?_⟩
  rw [h.shows.pixels _ hin.1 _ hin.2]
  change p.ink (t₀.fontHPx * p.fed + (t₀.fontHPx * (entry.1.1 - p.fed) + i)) _ = _
  rw [hwhere]
  exact hink entry hentry i hi j hj

end Printing

theorem AllocArgs.Usable.reads {args : AllocArgs} (h : args.Usable) :
    args.paper.Reads (terminalAlloc args).format (terminalAlloc args).glyph [] := by
  have hlines : 0 < (terminalAlloc args).cursorVMax := h.shows.screen.cursorV
  refine ⟨?_, ?_, h.shows.screen.cursorH, h.shows.screen.sizes.cellsHigh, by simp, by simp⟩
  · change 0 < 0 + (terminalAlloc args).cursorVMax
    omega
  · change 0 = 0 + 1 - (terminalAlloc args).cursorVMax
    omega

/-- Text stays readable. After any number of calls that print plain texts, the off-screen buffer shows
the last lines of all of them, and every character on these lines has its glyph: none is overwritten,
moved or lost before it is scrolled off. -/
theorem printed_text_readable {attrs : Attributes} (hattrs : attrs.KeepBlank) {args : AllocArgs}
    (h : args.Usable) (hscroll : args.scrollEnabled = true) {texts : List (List Char)}
    (htexts : ∀ text ∈ texts, PlainText text) {fuel : Nat}
    (hfuel : ∀ text ∈ texts, text.length < fuel) {place : Nat × Nat} {columns first : Nat}
    (hcolumns : columns = (terminalAlloc args).cursorHMax)
    (hplace : place = texts.flatten.foldl (nextPlace columns) (0, 0))
    (hfirst : first = firstLine (terminalAlloc args).cursorVMax place.1) :
    ∃ t, texts.foldlM (terminalPrint attrs fuel) (terminalAlloc args) = some t ∧
      t.cursorV = place.1 - first ∧ t.cursorH = place.2 ∧
      ∀ entry ∈ layout columns (0, 0) texts.flatten, first ≤ entry.1.1 →
        ∀ i < args.hFont, ∀ j < args.wFont,
          t.pixel (args.hFont * (entry.1.1 - first) + i) (args.wFont * entry.1.2 + j) =
            (terminalAlloc args).glyph entry.2 i j := by
  obtain ⟨t, p, hrun, hprinted, hend⟩ := Terminal.Printed.terminalPrints
    ⟨h.shows, h.reads, Terminal.Draws.refl _⟩ hattrs rfl rfl hscroll htexts hfuel
  change (p.line, p.column) = texts.flatten.foldl (nextPlace (terminalAlloc args).cursorHMax) (0, 0)
    at hend
  rw [← hcolumns, ← hplace] at hend
  subst hend hcolumns
  have hfed : p.fed = first := hprinted.reads.fed.trans hfirst.symm
  have hline := hprinted.shows.line
  subst hfed
  refine ⟨t, hrun, ?_, hprinted.shows.column.symm, ?_⟩
  · change t.cursorV = p.line - p.fed
    omega
  · intro entry hentry hshown i hi j hj
    exact (hprinted.pixel entry hentry hshown i hi j hj).2

/-- Three lines on a screen of two. -/
theorem printed_text_readable_small :
    ∃ t, [['a', '\n'], ['b', 'c', '\n', 'd']].foldlM (terminalPrint defaultAttributes 5)
        (terminalAlloc smallScreen) = some t ∧ t.cursorV = 1 ∧
      ∀ i < 8, ∀ j < 5, t.pixel (8 * 0 + i) (5 * 1 + j) = (terminalAlloc smallScreen).glyph 'c' i j := by
  have husable : smallScreen.Usable := by constructor <;> decide
  have hplain : ∀ text ∈ [['a', '\n'], ['b', 'c', '\n', 'd']], PlainText text := by
    simp [PlainText, Typed]
  obtain ⟨t, hrun, hline, -, hshown⟩ := printed_text_readable keepBlank_defaultAttributes husable rfl
    hplain (show ∀ text ∈ [['a', '\n'], ['b', 'c', '\n', 'd']], text.length < 5 by decide) rfl rfl rfl
  exact ⟨t, hrun, hline, hshown ((1, 1), 'c') (by decide) (by decide)⟩

end Tellurium.Modules
