import Tellurium.Modules.Framebuffer
import Tellurium.Lib.Run

/-!
The terminal (`modules/terminal.c`): strings are printed character by character, and an escape
sequence is collected in the array `ansi_sequence` until its code arrives, possibly over several
calls. The array is checked only after a character was appended to it. A sequence that fills it
is abandoned: the array stays full, and the pointer into the string goes back to the one behind
`start`.

Three properties of whole runs: drawing stays on the screen, sequences stay in their array as long
as they are short, and a colour sequence of plain parameters sets the colours it should.
-/

namespace Tellurium.Modules

open Tellurium.Lib Tellurium.Flibc

def ansiSeqLen : Nat := 64

/-- The characters that keep a sequence open. -/
def ansiChars : List Char :=
  ['[', ';', '0', '1', '2', '3', '4', '5', '6', '7', '8', '9', '0']

namespace Terminal

/-- `__strcat` of one character and its terminator. -/
def appendAnsi (t : Terminal) (c : Char) : Terminal :=
  {t with
    ansiSequence := t.ansiSequence ++ [c]
    writes := t.writes ++ [t.ansiSequence.length, t.ansiSequence.length + 1]}

/-- `ansi_sequence[ANSI_SEQ_LEN - 1] != '\0'`. -/
def isFull (t : Terminal) : Prop := ansiSeqLen - 1 < t.ansiSequence.length

instance (t : Terminal) : Decidable t.isFull := inferInstanceAs (Decidable (_ < _))

/-- The code is the last character; its place becomes the end of the parameters. -/
def terminalParseAnsi (attrs : Attributes) (t : Terminal) : Terminal :=
  match t.ansiSequence with
  | '[' :: sequence =>
      let codeIdx := sequence.length - 1
      if sequence.getLast? = some 'm' then
        let (colors, indices, writes) := parseSgr attrs t.colors 1 (sequence.take codeIdx)
        {t with
          colors
          indices := t.indices ++ indices
          writes := t.writes ++ (1 + codeIdx) :: writes}
      else {t with writes := t.writes ++ [1 + codeIdx]}
  | _ => t

def backspace (t : Terminal) : Terminal :=
  if t.cursorH = 0 ∧ t.cursorV ≠ 0 then {t with cursorV := t.cursorV - 1}
  else if t.cursorH ≠ 0 then {t with cursorH := t.cursorH - 1}
  else t

/-- A character in the middle of a sequence. -/
def collectChar (attrs : Attributes) (t : Terminal) (c : Char) : Terminal :=
  let t := t.appendAnsi c
  if t.isFull then {t with isAnsiState := false}
  else if c ∉ ansiChars then
    let t := terminalParseAnsi attrs {t with isAnsiState := false}
    {t with ansiSequence := [], writes := t.writes ++ [0]}
  else t

/-- A character outside of sequences. -/
def plainChar (t : Terminal) (c : Char) : Terminal :=
  if c = '\x08' then t.backspace
  else if c = '\x1b' then
    {t with isAnsiState := true, starts := t.starts ++ [t.ansiSequence.length]}
  else if c = '\n' then t.newline
  else if c = '\r' then t
  else if c = '\t' then (((t.drawchar ' ').drawchar ' ').drawchar ' ').drawchar ' '
  else if c = '\x0b' then t
  else t.drawchar c

/-- What the body of the loop does with a character. -/
def printChar (attrs : Attributes) (t : Terminal) (c : Char) : Terminal :=
  if t.isAnsiState then t.collectChar attrs c else t.plainChar c

end Terminal

/-- A call of `terminal_print`: its string and the places of `start` and `buf` in it. -/
structure Call where
  text : List Char
  start : Nat := 0
  pos : Nat := 0

/-- `buf` behind the character `c`. -/
def Call.advance (call : Call) (t : Terminal) (c : Char) : Call :=
  if t.isAnsiState ∧ (t.appendAnsi c).isFull then
    {call with start := call.start + 1, pos := call.start + 1 + 1}
  else {call with pos := call.pos + 1}

/-- The loop of `terminal_print`; there is no result behind the end of the string. -/
def printLoop (attrs : Attributes) : Nat → Terminal → Call → Option Terminal
  | 0, _, _ => none
  | fuel + 1, t, call =>
      if call.pos = call.text.length then some t
      else
        match call.text[call.pos]? with
        | none => none
        | some c => printLoop attrs fuel (t.printChar attrs c) (call.advance t c)

def hideCursor (t : Terminal) : Terminal := if t.cursorEnabled then t.drawCursor t.colors.bg else t

def showCursor (t : Terminal) : Terminal :=
  if t.cursorEnabled then t.drawCursor t.cursorColor else t

def terminalPrint (attrs : Attributes) (fuel : Nat) (t : Terminal) (text : List Char) :
    Option Terminal :=
  (printLoop attrs fuel (hideCursor t) {text}).map showCursor

/-- The arguments of `terminal_alloc` that count here. `scrollEnabled` is what the memory of the
terminal held: the flag is not set. -/
structure AllocArgs where
  hFont : Nat
  wFont : Nat
  termHPx : Nat
  termWPx : Nat
  fbHPx : Nat
  fbWPx : Nat
  fgColorDefault : Nat
  bgColorDefault : Nat
  bitmap : Nat → Nat
  buffer1 : Nat → Nat
  scrollEnabled : Bool

def terminalAlloc (args : AllocArgs) : Terminal :=
  let termHPx := min args.termHPx args.fbHPx
  let termWPx := min args.termWPx args.fbWPx
  let fgDefault := args.fgColorDefault % 2 ^ 32
  let bgDefault := args.bgColorDefault % 2 ^ 32
  {fontHPx := args.hFont
   fontWPx := args.wFont
   bitmap := args.bitmap
   termHPx
   termWPx
   buf1 := args.buffer1
   cursorH := 0
   cursorV := 0
   cursorHMax := termWPx / args.wFont % 2 ^ 32
   cursorVMax := termHPx / args.hFont % 2 ^ 32
   cursorColor := 0xff808080
   cursorEnabled := true
   scrollEnabled := args.scrollEnabled
   colors := {fgDefault, bgDefault, fg := fgDefault, bg := bgDefault, applyToFg := false,
              ansiState := .normal}
   isAnsiState := false
   ansiSequence := []}

/-- A terminal and the call that prints on it. -/
structure Console where
  terminal : Terminal
  call : Option Call := none

inductive ConsoleAction where
  | print (text : List Char)
  | char
  | cursor (enabled : Bool)
  | scroll (enabled : Bool)
  | clear

/-- The environment calls `terminal_print` or `terminal_clear` when no call is under way and sets
the flags at any time; `char` is one round of the loop, or its end. A call whose pointer left the
string stays where it is. -/
def Console.step (attrs : Attributes) (s : Console) : ConsoleAction → Console
  | .print text =>
      match s.call with
      | none => ⟨hideCursor s.terminal, some {text}⟩
      | some _ => s
  | .char =>
      match s.call with
      | none => s
      | some call =>
          if call.pos = call.text.length then ⟨showCursor s.terminal, none⟩
          else
            match call.text[call.pos]? with
            | none => s
            | some c => ⟨s.terminal.printChar attrs c, some (call.advance s.terminal c)⟩
  | .cursor cursorEnabled => {s with terminal := {s.terminal with cursorEnabled}}
  | .scroll scrollEnabled => {s with terminal := {s.terminal with scrollEnabled}}
  | .clear =>
      match s.call with
      | none => {s with terminal := s.terminal.clearScreen}
      | some _ => s

section Ansi

variable {attrs : Attributes} {t : Terminal} {c : Char}

/-- A sequence is parsed in place: `__strtok_r` and the end of the parameters write only where it
stands. -/
theorem terminalParseAnsi_spec (attrs : Attributes) (t : Terminal) :
    ∃ colors indices writes,
      t.terminalParseAnsi attrs = {t with colors, indices, writes := t.writes ++ writes} ∧
      ∀ w ∈ writes, w ≤ t.ansiSequence.length := by
  unfold Terminal.terminalParseAnsi
  split
  · rename_i sequence hsequence
    rw [hsequence, List.length_cons]
    simp only
    split
    · refine ⟨_, _, _, rfl, ?_⟩
      rw [List.forall_mem_cons]
      constructor
      · omega
      · intro w hw
        unfold parseSgr at hw
        split at hw
        · cases hw
        · have hplace := tokens_writes _ _ w hw
          rw [List.length_take] at hplace
          omega
    · refine ⟨_, _, [_], rfl, ?_⟩
      rw [List.forall_mem_singleton]
      omega
  · exact ⟨t.colors, t.indices, [], by rw [List.append_nil], by simp⟩

theorem collectChar_full (h : ansiSeqLen - 1 ≤ t.ansiSequence.length) :
    t.collectChar attrs c = {t.appendAnsi c with isAnsiState := false} := by
  have hfull : (t.appendAnsi c).isFull := by
    rw [Terminal.isFull, Terminal.appendAnsi, List.length_append, List.length_singleton]
    omega
  rw [Terminal.collectChar, if_pos hfull]

theorem not_isFull (h : t.ansiSequence.length < ansiSeqLen - 1) : ¬ (t.appendAnsi c).isFull := by
  rw [Terminal.isFull, Terminal.appendAnsi, List.length_append, List.length_singleton]
  omega

theorem collectChar_open (h : t.ansiSequence.length < ansiSeqLen - 1) (hc : c ∈ ansiChars) :
    t.collectChar attrs c = t.appendAnsi c := by
  rw [Terminal.collectChar, if_neg (not_isFull h), if_neg (not_not_intro hc)]

/-- The code of a sequence that fits ends it. -/
theorem collectChar_code (attrs : Attributes) (h : t.ansiSequence.length < ansiSeqLen - 1)
    (hc : c ∉ ansiChars) :
    ∃ colors indices writes,
      t.collectChar attrs c =
        {t with
          isAnsiState := false
          ansiSequence := []
          writes := t.writes ++ writes
          colors
          indices} ∧
      ∀ w ∈ writes, w < ansiSeqLen := by
  obtain ⟨colors, indices, writes, hparsed, hwrites⟩ :=
    terminalParseAnsi_spec attrs {t.appendAnsi c with isAnsiState := false}
  refine ⟨colors, indices, [t.ansiSequence.length, t.ansiSequence.length + 1] ++ writes ++ [0], ?_, ?_⟩
  · rw [Terminal.collectChar, if_neg (not_isFull h), if_pos hc, ← List.append_assoc,
      ← List.append_assoc]
    exact congrArg (fun t : Terminal => {t with ansiSequence := [], writes := t.writes ++ [0]}) hparsed
  · intro w hw
    simp only [List.mem_append, List.mem_cons, List.not_mem_nil, or_false] at hw
    obtain ((rfl | rfl) | hw) | rfl := hw
    · omega
    · omega
    · have hplace := hwrites w hw
      simp only [Terminal.appendAnsi, List.length_append, List.length_singleton] at hplace
      omega
    · decide

/-- A character in the middle of a sequence changes the colours and the sequence only. -/
theorem collectChar_frame (attrs : Attributes) (t : Terminal) (c : Char) :
    ∃ colors isAnsiState ansiSequence writes indices,
      t.collectChar attrs c =
        {t with colors, isAnsiState, ansiSequence, writes := t.writes ++ writes, indices} := by
  by_cases hfull : ansiSeqLen - 1 ≤ t.ansiSequence.length
  · rw [collectChar_full hfull]
    exact ⟨_, _, _, _, _, rfl⟩
  · by_cases hc : c ∈ ansiChars
    · rw [collectChar_open (by omega) hc]
      exact ⟨_, _, _, _, _, rfl⟩
    · obtain ⟨colors, indices, writes, hcode, -⟩ := collectChar_code attrs (Nat.not_le.mp hfull) hc
      rw [hcode]
      exact ⟨_, _, _, _, _, rfl⟩

end Ansi

section Plain

variable {attrs : Attributes} {t t' : Terminal} {c : Char}

/-- Outside of sequences a character draws, except for the escape character. -/
theorem plainChar_draws (t : Terminal) (hc : c ≠ '\x1b') : Terminal.Draws t (t.plainChar c) := by
  unfold Terminal.plainChar
  rw [if_neg hc]
  split
  · unfold Terminal.backspace
    split
    · exact (Terminal.Draws.refl t).moveTo _ _
    · split
      · exact (Terminal.Draws.refl t).moveTo _ _
      · exact Terminal.Draws.refl t
  · split
    · exact Terminal.newline_draws t
    · split
      · exact Terminal.Draws.refl t
      · split
        · exact (((Terminal.drawchar_draws t ' ').trans (Terminal.drawchar_draws _ ' ')).trans
            (Terminal.drawchar_draws _ ' ')).trans (Terminal.drawchar_draws _ ' ')
        · split
          · exact Terminal.Draws.refl t
          · exact Terminal.drawchar_draws t c

theorem plainChar_escape (t : Terminal) :
    t.plainChar '\x1b' =
      {t with isAnsiState := true, starts := t.starts ++ [t.ansiSequence.length]} := rfl

theorem hideCursor_draws (t : Terminal) : Terminal.Draws t (hideCursor t) := by
  unfold hideCursor
  split
  · exact Terminal.drawCursor_draws t _
  · exact Terminal.Draws.refl t

theorem showCursor_draws (t : Terminal) : Terminal.Draws t (showCursor t) := by
  unfold showCursor
  split
  · exact Terminal.drawCursor_draws t _
  · exact Terminal.Draws.refl t

/-- The sizes that no operation changes. -/
def Terminal.dims (t : Terminal) : Nat × Nat × Nat × Nat :=
  (t.termWPx, t.termHPx, t.cursorHMax, t.cursorVMax)

theorem dims_draws (h : Terminal.Draws t t') : t'.dims = t.dims := by
  obtain ⟨_, _, _, _, rfl⟩ := h
  rfl

theorem dims_printChar (attrs : Attributes) (t : Terminal) (c : Char) :
    (t.printChar attrs c).dims = t.dims := by
  unfold Terminal.printChar
  split
  · obtain ⟨_, _, _, _, _, heq⟩ := collectChar_frame attrs t c
    rw [heq]
    rfl
  · by_cases hc : c = '\x1b'
    · rw [hc, plainChar_escape]
      rfl
    · exact dims_draws (plainChar_draws t hc)

theorem dims_step (attrs : Attributes) (s : Console) (action : ConsoleAction) :
    (s.step attrs action).terminal.dims = s.terminal.dims := by
  cases action with
  | print text =>
      simp only [Console.step]
      split
      · exact dims_draws (hideCursor_draws _)
      · rfl
  | char =>
      simp only [Console.step]
      split
      · rfl
      · split
        · exact dims_draws (showCursor_draws _)
        · split
          · rfl
          · exact dims_printChar attrs _ _
  | cursor enabled => rfl
  | scroll enabled => rfl
  | clear =>
      simp only [Console.step]
      split
      · exact dims_draws (Terminal.clearScreen_draws _)
      · rfl

end Plain

section Screen

variable {attrs : Attributes} {t : Terminal}

theorem onScreen_backspace (h : t.OnScreen) : t.backspace.OnScreen := by
  have hcursorH := h.cursorH
  have hcursorV := h.cursorV
  unfold Terminal.backspace
  split
  · exact h.move hcursorH (by omega)
  · split
    · exact h.move (by omega) hcursorV
    · exact h

theorem onScreen_plainChar (h : t.OnScreen) (c : Char) : (t.plainChar c).OnScreen := by
  unfold Terminal.plainChar
  split
  · exact onScreen_backspace h
  · split
    · exact h.other rfl
    · split
      · exact h.newline
      · split
        · exact h
        · split
          · exact (((h.drawchar ' ').drawchar ' ').drawchar ' ').drawchar ' '
          · split
            · exact h
            · exact h.drawchar c

theorem onScreen_printChar (h : t.OnScreen) (c : Char) : (t.printChar attrs c).OnScreen := by
  unfold Terminal.printChar
  split
  · obtain ⟨_, _, _, _, _, heq⟩ := collectChar_frame attrs t c
    rw [heq]
    exact h.other rfl
  · exact onScreen_plainChar h c

theorem onScreen_hideCursor (h : t.OnScreen) : (hideCursor t).OnScreen := by
  unfold hideCursor
  split
  · exact h.drawCursor _
  · exact h

theorem onScreen_showCursor (h : t.OnScreen) : (showCursor t).OnScreen := by
  unfold showCursor
  split
  · exact h.drawCursor _
  · exact h

theorem onScreen_step {s : Console} (h : s.terminal.OnScreen) (action : ConsoleAction) :
    (s.step attrs action).terminal.OnScreen := by
  cases action with
  | print text =>
      simp only [Console.step]
      split
      · exact onScreen_hideCursor h
      · exact h
  | char =>
      simp only [Console.step]
      split
      · exact h
      · split
        · exact onScreen_showCursor h
        · split
          · exact h
          · exact onScreen_printChar h _
  | cursor enabled => exact h.other rfl
  | scroll enabled => exact h.other rfl
  | clear =>
      simp only [Console.step]
      split
      · exact h.clearScreen
      · exact h

/-- The arguments that give a usable terminal: fonts that are not empty, room for one of them, and
pixels that 32 bits can count. -/
structure AllocArgs.Usable (args : AllocArgs) : Prop where
  hFont : 0 < args.hFont
  wFont : 0 < args.wFont
  high : args.hFont ≤ min args.termHPx args.fbHPx
  wide : args.wFont ≤ min args.termWPx args.fbWPx
  small : min args.termWPx args.fbWPx * min args.termHPx args.fbHPx < 2 ^ 32

theorem onScreen_alloc {args : AllocArgs} (h : args.Usable) : (terminalAlloc args).OnScreen := by
  obtain ⟨hhFont, hwFont, hhigh, hwide, hsmall⟩ := h
  rw [terminalAlloc]
  generalize min args.termHPx args.fbHPx = termHPx at *
  generalize min args.termWPx args.fbWPx = termWPx at *
  have hcellsH : termWPx / args.wFont < 2 ^ 32 :=
    calc termWPx / args.wFont ≤ termWPx := Nat.div_le_self _ _
      _ ≤ termWPx * termHPx := Nat.le_mul_of_pos_right _ (by omega)
      _ < 2 ^ 32 := hsmall
  have hcellsV : termHPx / args.hFont < 2 ^ 32 :=
    calc termHPx / args.hFont ≤ termHPx := Nat.div_le_self _ _
      _ ≤ termWPx * termHPx := Nat.le_mul_of_pos_left _ (by omega)
      _ < 2 ^ 32 := hsmall
  simp only [Nat.mod_eq_of_lt hcellsH, Nat.mod_eq_of_lt hcellsV]
  exact ⟨⟨Nat.mul_div_le _ _, Nat.mul_div_le _ _, hhigh, hwide, hwFont, hsmall⟩,
    Nat.div_pos hwide hwFont, Nat.div_pos hhigh hhFont, by simp⟩

/-- The invariant of a run: the terminal is on its screen and has the sizes of `t₀`. -/
def Console.Within (t₀ : Terminal) (s : Console) : Prop :=
  s.terminal.OnScreen ∧ s.terminal.dims = t₀.dims

theorem Console.Within.step (attrs : Attributes) {t₀ : Terminal} {s : Console} (h : s.Within t₀)
    (action : ConsoleAction) : (s.step attrs action).Within t₀ := by
  obtain ⟨hscreen, hdims⟩ := h
  constructor
  · exact onScreen_step hscreen action
  · exact (dims_step attrs s action).trans hdims

/-- Whatever is printed, cleared or switched: the cursor stays on the cells and drawing in the
pixels of the terminal. -/
theorem terminal_stays_on_screen (attrs : Attributes) {args : AllocArgs} (h : args.Usable)
    (actions : List ConsoleAction) {t : Terminal}
    (ht : t = (actions.foldl (Console.step attrs) {terminal := terminalAlloc args}).terminal) :
    t.cursorH < (terminalAlloc args).cursorHMax ∧ t.cursorV < (terminalAlloc args).cursorVMax ∧
      ∀ a ∈ t.accesses, a < (terminalAlloc args).termWPx * (terminalAlloc args).termHPx := by
  have hstart : Console.Within (terminalAlloc args) {terminal := terminalAlloc args} :=
    ⟨onScreen_alloc h, rfl⟩
  obtain ⟨hscreen, hdims⟩ := foldl_inv (fun s action (hs : s.Within (terminalAlloc args)) =>
    Console.Within.step attrs hs action) hstart actions
  rw [← ht] at hscreen hdims
  obtain ⟨hw, hh, hhMax, hvMax⟩ : t.termWPx = (terminalAlloc args).termWPx ∧
      t.termHPx = (terminalAlloc args).termHPx ∧ t.cursorHMax = (terminalAlloc args).cursorHMax ∧
      t.cursorVMax = (terminalAlloc args).cursorVMax := by
    simpa only [Terminal.dims, Prod.mk.injEq] using hdims
  rw [← hw, ← hh, ← hhMax, ← hvMax]
  exact ⟨hscreen.cursorH, hscreen.cursorV, hscreen.accesses⟩

/-- Two rows of three cells that do not divide the screen. -/
def smallScreen : AllocArgs :=
  {hFont := 8, wFont := 5, termHPx := 20, termWPx := 17, fbHPx := 600, fbWPx := 800,
   fgColorDefault := 0xff0096aa, bgColorDefault := 0x7f000000, bitmap := fun _ => 0,
   buffer1 := fun _ => 0, scrollEnabled := true}

theorem terminal_stays_on_small_screen :
    smallScreen.Usable ∧
      ∀ a ∈ ([ConsoleAction.print ['a', '\n', '\n'], .char, .char, .char, .char].foldl
        (Console.step defaultAttributes) {terminal := terminalAlloc smallScreen}).terminal.accesses,
        a < 17 * 20 := by
  have husable : smallScreen.Usable := by constructor <;> decide
  exact ⟨husable, (terminal_stays_on_screen defaultAttributes husable
    [.print ['a', '\n', '\n'], .char, .char, .char, .char] rfl).2.2⟩

end Screen

/-- What is under way after a character: how much of a sequence is there. -/
def scan : Option Nat → Char → Option Nat
  | none, c => if c = '\x1b' then some 0 else none
  | some n, c => if c ∈ ansiChars then some (n + 1) else none

/-- No sequence comes to fill the array. -/
def Short : Option Nat → List Char → Prop
  | _, [] => True
  | state, c :: rest => (∀ n ∈ state, n < ansiSeqLen - 1) ∧ Short (scan state c) rest

/-- The terminal is where the scanner is. -/
structure Collects (t : Terminal) (state : Option Nat) : Prop where
  isAnsiState : t.isAnsiState = state.isSome
  length : t.ansiSequence.length = state.getD 0

/-- The array was never overrun, and every escape character found it empty. -/
structure Clean (t : Terminal) : Prop where
  writes : ∀ w ∈ t.writes, w < ansiSeqLen
  starts : ∀ n ∈ t.starts, n = 0

section Collecting

variable {attrs : Attributes} {t t' : Terminal} {c : Char} {state : Option Nat}

theorem Collects.draws (h : Collects t state) (hdraws : Terminal.Draws t t') : Collects t' state := by
  obtain ⟨_, _, _, _, rfl⟩ := hdraws
  exact ⟨h.isAnsiState, h.length⟩

theorem Clean.draws (h : Clean t) (hdraws : Terminal.Draws t t') : Clean t' := by
  obtain ⟨_, _, _, _, rfl⟩ := hdraws
  exact ⟨h.writes, h.starts⟩

theorem Collects.plainChar (h : Collects t none) (c : Char) :
    Collects (t.plainChar c) (scan none c) ∧ (Clean t → Clean (t.plainChar c)) := by
  by_cases hc : c = '\x1b'
  · subst hc
    have hempty : t.ansiSequence.length = 0 := h.length
    refine ⟨⟨rfl, hempty⟩, fun hclean => ⟨hclean.writes, ?_⟩⟩
    rw [plainChar_escape, List.forall_mem_append, List.forall_mem_singleton]
    exact ⟨hclean.starts, hempty⟩
  · have hdraws := plainChar_draws t hc
    rw [scan, if_neg hc]
    exact ⟨h.draws hdraws, fun hclean => hclean.draws hdraws⟩

theorem Collects.collectChar (attrs : Attributes) {n : Nat} (h : Collects t (some n))
    (hn : n < ansiSeqLen - 1) (c : Char) :
    Collects (t.collectChar attrs c) (scan (some n) c) ∧
      (Clean t → Clean (t.collectChar attrs c)) := by
  have hlength : t.ansiSequence.length = n := h.length
  have hroom : t.ansiSequence.length < ansiSeqLen - 1 := by omega
  by_cases hc : c ∈ ansiChars
  · rw [collectChar_open hroom hc, scan, if_pos hc]
    refine ⟨⟨h.isAnsiState, ?_⟩, fun hclean => ⟨?_, hclean.starts⟩⟩
    · rw [Terminal.appendAnsi, List.length_append, List.length_singleton, hlength]
      rfl
    · simp only [Terminal.appendAnsi, List.forall_mem_append, List.forall_mem_cons,
        List.not_mem_nil, false_imp_iff, implies_true, and_true]
      exact ⟨hclean.writes, by omega, by omega⟩
  · obtain ⟨colors, indices, writes, hcode, hwrites⟩ := collectChar_code attrs hroom hc
    rw [hcode, scan, if_neg hc]
    exact ⟨⟨rfl, rfl⟩, fun hclean =>
      ⟨List.forall_mem_append.mpr ⟨hclean.writes, hwrites⟩, hclean.starts⟩⟩

/-- One character of a text whose sequences are short. -/
theorem Collects.printChar (attrs : Attributes) (h : Collects t state)
    (hroom : ∀ n ∈ state, n < ansiSeqLen - 1) (c : Char) :
    Collects (t.printChar attrs c) (scan state c) ∧ (Clean t → Clean (t.printChar attrs c)) ∧
      ∀ call : Call, call.advance t c = {call with pos := call.pos + 1} := by
  cases state with
  | none =>
      have hplain : ¬ t.isAnsiState = true := by rw [h.isAnsiState]; decide
      obtain ⟨hnext, hclean⟩ := h.plainChar c
      rw [Terminal.printChar, if_neg hplain]
      exact ⟨hnext, hclean, fun call => by rw [Call.advance, if_neg fun hfull => hplain hfull.1]⟩
  | some n =>
      have hansi : t.isAnsiState = true := h.isAnsiState
      have hn := hroom n rfl
      have hlength : t.ansiSequence.length = n := h.length
      obtain ⟨hnext, hclean⟩ := h.collectChar attrs hn c
      rw [Terminal.printChar, if_pos hansi]
      exact ⟨hnext, hclean, fun call => by
        rw [Call.advance, if_neg fun hfull => not_isFull (by omega) hfull.2]⟩

end Collecting

section Loop

variable {attrs : Attributes} {t t' : Terminal} {c : Char} {state : Option Nat} {call : Call}
  {fuel : Nat} {rest : List Char}

theorem printLoop_cons (hrest : call.text.drop call.pos = c :: rest) :
    printLoop attrs (fuel + 1) t call =
      printLoop attrs fuel (t.printChar attrs c) (call.advance t c) := by
  have hlength := congrArg List.length hrest
  have hchar := congrArg (fun l => l[0]?) hrest
  simp only [List.length_drop, List.length_cons] at hlength
  simp only [List.getElem?_drop, Nat.add_zero, List.getElem?_cons_zero] at hchar
  rw [printLoop, if_neg (by omega), hchar]

theorem drop_advance {call : Call} (hrest : call.text.drop call.pos = c :: rest) :
    call.text.drop (call.pos + 1) = rest := by
  rw [← List.drop_drop, hrest, List.drop_one, List.tail_cons]

/-- With short sequences the loop takes the string from left to right. -/
theorem printLoop_short (h : Collects t state) (hpos : call.pos ≤ call.text.length)
    (hrest : call.text.drop call.pos = rest) (hshort : Short state rest) (hfuel : rest.length < fuel) :
    printLoop attrs fuel t call = some (rest.foldl (Terminal.printChar attrs) t) ∧
      Collects (rest.foldl (Terminal.printChar attrs) t) (rest.foldl scan state) ∧
      (Clean t → Clean (rest.foldl (Terminal.printChar attrs) t)) := by
  induction rest generalizing t state call fuel with
  | nil =>
      obtain ⟨fuel, rfl⟩ := Nat.exists_eq_succ_of_ne_zero (Nat.ne_of_gt hfuel)
      have hend : call.pos = call.text.length := by
        have hlength := congrArg List.length hrest
        simp only [List.length_drop, List.length_nil] at hlength
        omega
      exact ⟨if_pos hend, h, id⟩
  | cons c rest ih =>
      obtain ⟨fuel, rfl⟩ := Nat.exists_eq_succ_of_ne_zero (Nat.ne_of_gt (Nat.zero_lt_of_lt hfuel))
      obtain ⟨hnext, hclean, hadvance⟩ := h.printChar attrs hshort.1 c
      rw [Nat.succ_eq_add_one, printLoop_cons hrest, hadvance]
      have hlength := congrArg List.length hrest
      simp only [List.length_drop, List.length_cons] at hlength hfuel
      obtain ⟨hrun, hcollects, hcleanRest⟩ := @ih _ _ {call with pos := call.pos + 1} _ hnext
        (by simp only; omega) (drop_advance hrest) hshort.2 (show rest.length < fuel by omega)
      exact ⟨hrun, hcollects, fun h => hcleanRest (hclean h)⟩

/-- More fuel does not change a result. -/
theorem printLoop_more {more : Nat} (hrun : printLoop attrs fuel t call = some t') :
    printLoop attrs (fuel + more) t call = some t' := by
  induction fuel generalizing t call with
  | zero => cases hrun
  | succ fuel ih =>
      rw [Nat.add_right_comm]
      rw [printLoop] at hrun ⊢
      split at hrun
      · rename_i hend
        rw [if_pos hend, hrun]
      · rename_i hend
        rw [if_neg hend]
        split at hrun
        · cases hrun
        · exact ih hrun

theorem printChar_writes (attrs : Attributes) (t : Terminal) (c : Char) :
    t.writes ⊆ (t.printChar attrs c).writes := by
  unfold Terminal.printChar
  split
  · obtain ⟨_, _, _, writes, _, heq⟩ := collectChar_frame attrs t c
    rw [heq]
    exact List.subset_append_left _ _
  · by_cases hc : c = '\x1b'
    · rw [hc, plainChar_escape]
      exact List.Subset.refl _
    · obtain ⟨_, _, _, _, heq⟩ := plainChar_draws t hc
      rw [heq]
      exact List.Subset.refl _

theorem printLoop_writes (hrun : printLoop attrs fuel t call = some t') : t.writes ⊆ t'.writes := by
  induction fuel generalizing t call with
  | zero => cases hrun
  | succ fuel ih =>
      rw [printLoop] at hrun
      split at hrun
      · cases hrun
        exact List.Subset.refl _
      · split at hrun
        · cases hrun
        · exact List.Subset.trans (printChar_writes attrs t _) (ih hrun)

/-- A sequence that fills the array is ended behind it. -/
theorem printLoop_long (h : Collects t state) (hrest : call.text.drop call.pos = rest)
    (hlong : ¬ Short state rest) (hrun : printLoop attrs fuel t call = some t') :
    ∃ w ∈ t'.writes, ansiSeqLen ≤ w := by
  induction rest generalizing t state call fuel with
  | nil => exact absurd trivial hlong
  | cons c rest ih =>
      cases fuel with
      | zero => cases hrun
      | succ fuel =>
          rw [printLoop_cons hrest] at hrun
          by_cases hroom : ∀ n ∈ state, n < ansiSeqLen - 1
          · obtain ⟨hnext, -, hadvance⟩ := h.printChar attrs hroom c
            rw [hadvance] at hrun
            exact ih hnext (drop_advance hrest) (fun hshort => hlong ⟨hroom, hshort⟩) hrun
          · push Not at hroom
            obtain ⟨n, hstate, hn⟩ := hroom
            cases hstate
            have hansi : t.isAnsiState = true := h.isAnsiState
            have hlength : t.ansiSequence.length = n := h.length
            have hwrites := printLoop_writes hrun
            rw [Terminal.printChar, if_pos hansi, collectChar_full (by omega)] at hwrites
            have hwrite : n + 1 ∈ t'.writes := hwrites (by simp [Terminal.appendAnsi, hlength])
            exact ⟨n + 1, hwrite, by omega⟩

end Loop

theorem short_append {state : Option Nat} (text later : List Char) :
    Short state (text ++ later) ↔ Short state text ∧ Short (text.foldl scan state) later := by
  induction text generalizing state with
  | nil => exact (iff_of_eq (true_and _)).symm
  | cons c rest ih =>
      rw [List.cons_append, Short, Short, ih, and_assoc]
      rfl

instance decidableShort : ∀ state text, Decidable (Short state text)
  | _, [] => isTrue trivial
  | state, c :: rest =>
      haveI := decidableShort (scan state c) rest
      inferInstanceAs (Decidable ((∀ n ∈ state, n < ansiSeqLen - 1) ∧ Short (scan state c) rest))

/-- All calls return, the array is never overrun, and every escape character finds it empty. -/
def Harmless (attrs : Attributes) (t : Terminal) (texts : List (List Char)) : Prop :=
  ∃ fuel t', texts.foldlM (terminalPrint attrs fuel) t = some t' ∧
    (∀ w ∈ t'.writes, w < ansiSeqLen) ∧ ∀ n ∈ t'.starts, n = 0

section Calls

variable {attrs : Attributes} {t t' : Terminal} {state : Option Nat} {texts : List (List Char)}
  {text : List Char} {fuel : Nat}

theorem collects_alloc (args : AllocArgs) : Collects (terminalAlloc args) none := ⟨rfl, rfl⟩

theorem clean_alloc (args : AllocArgs) : Clean (terminalAlloc args) :=
  ⟨by simp [terminalAlloc], by simp [terminalAlloc]⟩

/-- A call whose sequences are short prints its characters between the two cursors. -/
theorem terminalPrint_short (attrs : Attributes) (h : Collects t state) (hshort : Short state text)
    (hfuel : text.length < fuel) :
    terminalPrint attrs fuel t text =
        some (showCursor (text.foldl (Terminal.printChar attrs) (hideCursor t))) ∧
      Collects (showCursor (text.foldl (Terminal.printChar attrs) (hideCursor t)))
        (text.foldl scan state) ∧
      (Clean t → Clean (showCursor (text.foldl (Terminal.printChar attrs) (hideCursor t)))) := by
  obtain ⟨hrun, hcollects, hclean⟩ := @printLoop_short attrs _ _ {text} _ _
    (h.draws (hideCursor_draws t)) (Nat.zero_le _) rfl hshort hfuel
  rw [terminalPrint, hrun]
  refine ⟨rfl, hcollects.draws (showCursor_draws _), fun h => ?_⟩
  exact (hclean (h.draws (hideCursor_draws t))).draws (showCursor_draws _)

/-- A call that returned had enough fuel. -/
theorem terminalPrint_collects (h : Collects t state) (hshort : Short state text)
    (hrun : terminalPrint attrs fuel t text = some t') : Collects t' (text.foldl scan state) := by
  obtain ⟨t'', hloop, rfl⟩ := Option.map_eq_some_iff.mp hrun
  obtain ⟨hrun', hcollects, -⟩ := terminalPrint_short attrs h hshort
    (show text.length < fuel + (text.length + 1) by omega)
  rw [terminalPrint, printLoop_more hloop] at hrun'
  rw [← Option.some.inj hrun'] at hcollects
  exact hcollects

theorem terminalPrint_long (h : Collects t state) (hlong : ¬ Short state text)
    (hrun : terminalPrint attrs fuel t text = some t') : ∃ w ∈ t'.writes, ansiSeqLen ≤ w := by
  obtain ⟨t'', hloop, rfl⟩ := Option.map_eq_some_iff.mp hrun
  obtain ⟨w, hw, hlarge⟩ := printLoop_long (h.draws (hideCursor_draws t))
    (show ({text} : Call).text.drop 0 = text from rfl) hlong hloop
  obtain ⟨_, _, _, _, hshow⟩ := showCursor_draws t''
  rw [hshow]
  exact ⟨w, hw, hlarge⟩

theorem terminalPrint_writes (hrun : terminalPrint attrs fuel t text = some t') :
    t.writes ⊆ t'.writes := by
  obtain ⟨t'', hloop, rfl⟩ := Option.map_eq_some_iff.mp hrun
  have hwrites := printLoop_writes hloop
  obtain ⟨_, _, _, _, hhide⟩ := hideCursor_draws t
  obtain ⟨_, _, _, _, hshow⟩ := showCursor_draws t''
  rw [hhide] at hwrites
  rw [hshow]
  exact hwrites

theorem prints_writes (hrun : texts.foldlM (terminalPrint attrs fuel) t = some t') :
    t.writes ⊆ t'.writes := by
  induction texts generalizing t with
  | nil =>
      cases hrun
      exact List.Subset.refl _
  | cons text rest ih =>
      rw [List.foldlM_cons] at hrun
      obtain ⟨t₁, hfirst, hrest⟩ := Option.bind_eq_some_iff.mp hrun
      exact List.Subset.trans (terminalPrint_writes hfirst) (ih hrest)

/-- Calls whose sequences are short, also those that go on in the next call. -/
theorem prints_short (attrs : Attributes) (h : Collects t state) (hshort : Short state texts.flatten)
    (hfuel : ∀ text ∈ texts, text.length < fuel) :
    ∃ t', texts.foldlM (terminalPrint attrs fuel) t = some t' ∧ (Clean t → Clean t') := by
  induction texts generalizing t state with
  | nil => exact ⟨t, rfl, id⟩
  | cons text rest ih =>
      rw [List.flatten_cons, short_append] at hshort
      rw [List.forall_mem_cons] at hfuel
      obtain ⟨hrun, hcollects, hclean⟩ := terminalPrint_short attrs h hshort.1 hfuel.1
      obtain ⟨t', hrest, hcleanRest⟩ := ih hcollects hshort.2 hfuel.2
      rw [List.foldlM_cons, hrun]
      exact ⟨t', hrest, fun h => hcleanRest (hclean h)⟩

theorem prints_long (h : Collects t state) (hlong : ¬ Short state texts.flatten)
    (hrun : texts.foldlM (terminalPrint attrs fuel) t = some t') :
    ∃ w ∈ t'.writes, ansiSeqLen ≤ w := by
  induction texts generalizing t state with
  | nil => exact absurd trivial hlong
  | cons text rest ih =>
      rw [List.foldlM_cons] at hrun
      obtain ⟨t₁, hfirst, hrest⟩ := Option.bind_eq_some_iff.mp hrun
      rw [List.flatten_cons, short_append] at hlong
      by_cases hshort : Short state text
      · exact ih (terminalPrint_collects h hshort hfirst) (fun hlater => hlong ⟨hshort, hlater⟩) hrest
      · obtain ⟨w, hw, hlarge⟩ := terminalPrint_long h hshort hfirst
        exact ⟨w, prints_writes hrest hw, hlarge⟩

theorem not_harmless (h : Collects t none) (hlong : ¬ Short none texts.flatten) :
    ¬ Harmless attrs t texts := by
  rintro ⟨fuel, t', hrun, hwrites, -⟩
  obtain ⟨w, hw, hlarge⟩ := prints_long h hlong hrun
  exact Nat.not_lt.mpr hlarge (hwrites w hw)

/-- Texts are harmless exactly if no sequence comes to fill the array. -/
theorem terminal_harmless_iff (attrs : Attributes) (args : AllocArgs) (texts : List (List Char)) :
    Harmless attrs (terminalAlloc args) texts ↔ Short none texts.flatten := by
  constructor
  · intro hharmless
    by_contra hlong
    exact not_harmless (collects_alloc args) hlong hharmless
  · intro hshort
    have hfuel : ∀ text ∈ texts, text.length < texts.flatten.length + 1 := by
      intro text htext
      exact Nat.lt_succ_of_le (List.sublist_flatten_of_mem htext).length_le
    obtain ⟨t', hrun, hclean⟩ := prints_short attrs (collects_alloc args) hshort hfuel
    have hclean' := hclean (clean_alloc args)
    exact ⟨_, t', hrun, hclean'.writes, hclean'.starts⟩

/-- A sequence of 64 digits. -/
theorem terminal_overlong_harms :
    ¬ ∀ attrs args texts, Harmless attrs (terminalAlloc args) texts := by
  intro hall
  have hlong : ¬ Short none ['\x1b' :: List.replicate 64 '0'].flatten := by decide
  exact not_harmless (collects_alloc smallScreen) hlong (hall defaultAttributes smallScreen _)

end Calls

/-- A colour sequence as it is printed. -/
def sgrText (params : List Nat) : List Char := '\x1b' :: '[' :: (sgrBody params ++ ['m'])

section Colours

variable {attrs : Attributes} {t : Terminal} {params : List Nat} {chars : List Char}

theorem mem_ansiChars_digit {c : Char} (hc : c.isDigit = true) : c ∈ ansiChars := by
  obtain ⟨hlow, hhigh⟩ : 48 ≤ c.toNat ∧ c.toNat ≤ 57 := Char.isDigit_iff_toNat.mp hc
  have hchar : c = Char.ofNat c.toNat := (Char.ofNat_toNat c).symm
  rw [hchar]
  generalize c.toNat = n at *
  interval_cases n <;> decide

theorem sgrBody_chars (params : List Nat) : ∀ c ∈ sgrBody params, c ∈ ansiChars := by
  induction params with
  | nil =>
      intro c hc
      cases hc
  | cons p rest ih =>
      have hdigits : ∀ c ∈ Nat.toDigits 10 p, c ∈ ansiChars := fun c hc =>
        mem_ansiChars_digit (Nat.isDigit_of_mem_toDigits (by decide) (by decide) hc)
      by_cases hrest : rest = []
      · subst hrest
        have hbody : sgrBody [p] = Nat.toDigits 10 p := by simp [sgrBody]
        rw [hbody]
        exact hdigits
      · rw [sgrBody_cons hrest, List.forall_mem_append, List.forall_mem_cons]
        exact ⟨hdigits, by decide, ih⟩

/-- The parameters of a sequence are collected one by one. -/
theorem foldl_collect (attrs : Attributes) (hansi : t.isAnsiState = true)
    (hchars : ∀ c ∈ chars, c ∈ ansiChars)
    (hroom : t.ansiSequence.length + chars.length ≤ ansiSeqLen - 1) :
    ∃ writes, chars.foldl (Terminal.printChar attrs) t =
      {t with ansiSequence := t.ansiSequence ++ chars, writes} := by
  induction chars generalizing t with
  | nil => exact ⟨t.writes, by rw [List.append_nil]; rfl⟩
  | cons c rest ih =>
      rw [List.forall_mem_cons] at hchars
      rw [List.length_cons] at hroom
      rw [List.foldl_cons, Terminal.printChar, if_pos hansi, collectChar_open (by omega) hchars.1]
      obtain ⟨writes, hrest⟩ := @ih (t.appendAnsi c) hansi hchars.2 (by
        rw [Terminal.appendAnsi, List.length_append, List.length_singleton]
        omega)
      refine ⟨writes, ?_⟩
      rw [hrest]
      simp only [Terminal.appendAnsi, List.append_assoc, List.singleton_append]

theorem short_collect {n : Nat} (hchars : ∀ c ∈ chars, c ∈ ansiChars)
    (hroom : n + chars.length < ansiSeqLen - 1) : Short (some n) (chars ++ ['m']) := by
  induction chars generalizing n with
  | nil =>
      refine ⟨?_, trivial⟩
      rintro _ ⟨⟩
      exact hroom
  | cons c rest ih =>
      rw [List.forall_mem_cons] at hchars
      rw [List.length_cons] at hroom
      refine ⟨?_, ?_⟩
      · rintro _ ⟨⟩
        omega
      · rw [scan, if_pos hchars.1]
        exact ih hchars.2 (by omega)

theorem collectChar_sgr (attrs : Attributes) {body : List Char} (hsequence : t.ansiSequence = '[' :: body)
    (hroom : ('[' :: body).length < ansiSeqLen - 1) :
    (t.collectChar attrs 'm').colors = (parseSgr attrs t.colors 1 body).1 ∧
      (t.collectChar attrs 'm').indices = t.indices ++ (parseSgr attrs t.colors 1 body).2.1 := by
  have hcode : (body ++ ['m']).getLast? = some 'm' := List.getLast?_concat
  have hbody : (body ++ ['m']).take ((body ++ ['m']).length - 1) = body := by
    rw [List.length_append, List.length_singleton, Nat.add_sub_cancel, List.take_left]
  have happended : (t.appendAnsi 'm').ansiSequence = '[' :: (body ++ ['m']) := by
    rw [Terminal.appendAnsi, hsequence]
    rfl
  rw [Terminal.collectChar, if_neg (not_isFull (by rw [hsequence]; exact hroom)), if_pos (by decide)]
  unfold Terminal.terminalParseAnsi
  simp only [happended, if_pos hcode, hbody]
  exact ⟨rfl, rfl⟩

/-- A printed sequence is parsed as a whole. -/
theorem foldl_sgrText (attrs : Attributes) (h : Collects t none)
    (hlen : (sgrBody params).length ≤ 60) :
    ((sgrText params).foldl (Terminal.printChar attrs) t).colors =
        (parseSgr attrs t.colors 1 (sgrBody params)).1 ∧
      ((sgrText params).foldl (Terminal.printChar attrs) t).indices =
        t.indices ++ (parseSgr attrs t.colors 1 (sgrBody params)).2.1 := by
  have hplain : ¬ t.isAnsiState = true := by rw [h.isAnsiState]; decide
  have hempty : t.ansiSequence = [] := List.length_eq_zero_iff.mp h.length
  have hchars : ∀ c ∈ '[' :: sgrBody params, c ∈ ansiChars :=
    List.forall_mem_cons.mpr ⟨by decide, sgrBody_chars params⟩
  have hlength : ('[' :: sgrBody params).length < ansiSeqLen - 1 := by
    rw [List.length_cons, ansiSeqLen]
    omega
  obtain ⟨writes, hcollected⟩ := @foldl_collect
    {t with isAnsiState := true, starts := t.starts ++ [t.ansiSequence.length]} _ attrs rfl hchars
    (by simp only [hempty, List.length_nil]; omega)
  have htext : sgrText params = '\x1b' :: (('[' :: sgrBody params) ++ ['m']) := rfl
  rw [htext, List.foldl_cons, List.foldl_append, Terminal.printChar, if_neg hplain, plainChar_escape,
    hcollected, hempty, List.nil_append, List.foldl_cons, List.foldl_nil, Terminal.printChar, if_pos rfl]
  exact collectChar_sgr attrs rfl hlength

theorem terminalPrint_sgr (attrs : Attributes) (h : Collects t none)
    (hlen : (sgrBody params).length ≤ 60) {fuel : Nat} (hfuel : (sgrText params).length < fuel) :
    ∃ t', terminalPrint attrs fuel t (sgrText params) = some t' ∧
      t'.colors = (parseSgr attrs t.colors 1 (sgrBody params)).1 ∧
      t'.indices = t.indices ++ (parseSgr attrs t.colors 1 (sgrBody params)).2.1 := by
  have hshort : Short none (sgrText params) := by
    refine ⟨by simp, @short_collect ('[' :: sgrBody params) _ ?_ ?_⟩
    · exact List.forall_mem_cons.mpr ⟨by decide, sgrBody_chars params⟩
    · rw [List.length_cons, ansiSeqLen]
      omega
  obtain ⟨hrun, -, -⟩ := terminalPrint_short attrs h hshort hfuel
  obtain ⟨_, _, _, _, hhide⟩ := hideCursor_draws t
  have hcollects := h.draws (hideCursor_draws t)
  obtain ⟨hcolors, hindices⟩ := foldl_sgrText attrs hcollects hlen
  obtain ⟨_, _, _, _, hshow⟩ :=
    showCursor_draws ((sgrText params).foldl (Terminal.printChar attrs) (hideCursor t))
  refine ⟨_, hrun, ?_, ?_⟩
  · rw [hshow]
    exact hcolors.trans (by rw [hhide])
  · rw [hshow]
    exact hindices.trans (by rw [hhide])

/-- The sequence of these parameters is printed and sets the colours that they mean. -/
def ReadsColors (attrs : Attributes) (t : Terminal) (params : List Nat) : Prop :=
  ∀ fuel, (sgrText params).length < fuel →
    ∃ t' used, terminalPrint attrs fuel t (sgrText params) = some t' ∧
      t'.colors.fg = (sgrReading t.colors params).fg ∧
      t'.colors.bg = (sgrReading t.colors params).bg ∧
      t'.colors.ansiState = .normal ∧
      t'.indices = t.indices ++ used ∧ ∀ i ∈ used, i.InRange

/-- Between sequences, plain parameters are read as they should be. -/
theorem terminal_reads_colors (hattrs : attrs.Default) (h : Collects t none)
    (hnormal : t.colors.ansiState = .normal) (hparams : ∀ p ∈ params, p < 2 ^ 31)
    (hlen : (sgrBody params).length ≤ 60) (hplain : Plain params) : ReadsColors attrs t params := by
  intro fuel hfuel
  obtain ⟨t', hrun, hcolors, hindices⟩ := terminalPrint_sgr attrs h hlen hfuel
  obtain ⟨hfg, hbg, hstate, hused⟩ := parseSgr_plain hattrs hnormal 1 hparams hplain
  rw [← hcolors] at hfg hbg hstate
  exact ⟨t', _, hrun, hfg, hbg, hstate, hindices, hused⟩

/-- Red on the colour 200, and a 38 that nothing follows up. -/
theorem terminal_reads_red :
    Plain [31, 48, 5, 200, 38, 7] ∧
      ReadsColors defaultAttributes (terminalAlloc smallScreen) [31, 48, 5, 200, 38, 7] := by
  have hplain : Plain [31, 48, 5, 200, 38, 7] := by simp [Plain, Colorless]
  exact ⟨hplain, terminal_reads_colors default_defaultAttributes (collects_alloc smallScreen) rfl
    (by decide) (by decide) hplain⟩

/-- A colour in 24 bits is not over after its last component. -/
theorem terminal_misreads_24_bits :
    ¬ ∀ (attrs : Attributes) (t : Terminal) (params : List Nat), attrs.Default → Collects t none →
        t.colors.ansiState = .normal → (∀ p ∈ params, p < 2 ^ 31) →
        (sgrBody params).length ≤ 60 → ReadsColors attrs t params := by
  intro hall
  have hparams : ∀ p ∈ [38, 2, 1, 2, 3], p < 2 ^ 31 := by decide
  have hlen : (sgrBody [38, 2, 1, 2, 3]).length ≤ 60 := by decide
  obtain ⟨t', _, hrun, -, -, hstate, -⟩ := hall defaultAttributes (terminalAlloc smallScreen)
    [38, 2, 1, 2, 3] default_defaultAttributes (collects_alloc smallScreen) rfl hparams hlen _
    (Nat.lt_succ_self _)
  obtain ⟨t'', hrun', hcolors, -⟩ := terminalPrint_sgr defaultAttributes (collects_alloc smallScreen)
    hlen (Nat.lt_succ_self _)
  rw [hrun] at hrun'
  rw [Option.some.inj hrun', hcolors, parseSgr_cons _ _ _ hparams] at hstate
  exact absurd hstate (by decide)

end Colours

end Tellurium.Modules
