import Tellurium.Flibc.Stdlib
import Tellurium.Flibc.String

/-!
Colour sequences of the terminal (`parse_sgr` of `modules/terminal.c`). The parameters of a
sequence run through a small machine whose state stays in the terminal between sequences. The
loop keeps a record of the indices it uses into its tables.

The reading that the sequences should have is a second definition, from left to right over the
parameters. The machine follows it on lists that are plain: it does so wherever no extended
colour is cut off, given in 24 bits or followed by something that means a colour of its own.
-/

namespace Tellurium.Modules

open Tellurium.Lib Tellurium.Flibc

inductive AnsiColorState where
  | normal
  | fgBg
  | ansi8
  | ansi24
  deriving DecidableEq

/-- The part of the terminal that text attributes work on. -/
structure Colors where
  fgDefault : Nat
  bgDefault : Nat
  fg : Nat
  bg : Nat
  applyToFg : Bool
  ansiState : AnsiColorState

def rgb256 : List Nat :=
  [0x000000, 0xaa0000, 0x00aa00, 0xaaaa00, 0x0000aa, 0xaa00aa, 0x00aaaa, 0xaaaaaa,
   0x555555, 0xff5555, 0x55ff55, 0xffff55, 0x5555ff, 0xff55ff, 0x55ffff, 0xffffff,
   0x000000, 0x000033, 0x000066, 0x000099, 0x0000cc, 0x0000ff, 0x003300, 0x003333,
   0x003366, 0x003399, 0x0033cc, 0x0033ff, 0x006600, 0x006633, 0x006666, 0x006699,
   0x0066cc, 0x0066ff, 0x009900, 0x009933, 0x009966, 0x009999, 0x0099cc, 0x0099ff,
   0x00cc00, 0x00cc33, 0x00cc66, 0x00cc99, 0x00cccc, 0x00ccff, 0x00ff00, 0x00ff33,
   0x00ff66, 0x00ff99, 0x00ffcc, 0x00ffff, 0x330000, 0x330033, 0x330066, 0x330099,
   0x3300cc, 0x3300ff, 0x333300, 0x333333, 0x333366, 0x333399, 0x3333cc, 0x3333ff,
   0x336600, 0x336633, 0x336666, 0x336699, 0x3366cc, 0x3366ff, 0x339900, 0x339933,
   0x339966, 0x339999, 0x3399cc, 0x3399ff, 0x33cc00, 0x33cc33, 0x33cc66, 0x33cc99,
   0x33cccc, 0x33ccff, 0x33ff00, 0x33ff33, 0x33ff66, 0x33ff99, 0x33ffcc, 0x33ffff,
   0x660000, 0x660033, 0x660066, 0x660099, 0x6600cc, 0x6600ff, 0x663300, 0x663333,
   0x663366, 0x663399, 0x6633cc, 0x6633ff, 0x666600, 0x666633, 0x666666, 0x666699,
   0x6666cc, 0x6666ff, 0x669900, 0x669933, 0x669966, 0x669999, 0x6699cc, 0x6699ff,
   0x66cc00, 0x66cc33, 0x66cc66, 0x66cc99, 0x66cccc, 0x66ccff, 0x66ff00, 0x66ff33,
   0x66ff66, 0x66ff99, 0x66ffcc, 0x66ffff, 0x990000, 0x990033, 0x990066, 0x990099,
   0x9900cc, 0x9900ff, 0x993300, 0x993333, 0x993366, 0x993399, 0x9933cc, 0x9933ff,
   0x996600, 0x996633, 0x996666, 0x996699, 0x9966cc, 0x9966ff, 0x999900, 0x999933,
   0x999966, 0x999999, 0x9999cc, 0x9999ff, 0x99cc00, 0x99cc33, 0x99cc66, 0x99cc99,
   0x99cccc, 0x99ccff, 0x99ff00, 0x99ff33, 0x99ff66, 0x99ff99, 0x99ffcc, 0x99ffff,
   0xcc0000, 0xcc0033, 0xcc0066, 0xcc0099, 0xcc00cc, 0xcc00ff, 0xcc3300, 0xcc3333,
   0xcc3366, 0xcc3399, 0xcc33cc, 0xcc33ff, 0xcc6600, 0xcc6633, 0xcc6666, 0xcc6699,
   0xcc66cc, 0xcc66ff, 0xcc9900, 0xcc9933, 0xcc9966, 0xcc9999, 0xcc99cc, 0xcc99ff,
   0xcccc00, 0xcccc33, 0xcccc66, 0xcccc99, 0xcccccc, 0xccccff, 0xccff00, 0xccff33,
   0xccff66, 0xccff99, 0xccffcc, 0xccffff, 0xff0000, 0xff0033, 0xff0066, 0xff0099,
   0xff00cc, 0xff00ff, 0xff3300, 0xff3333, 0xff3366, 0xff3399, 0xff33cc, 0xff33ff,
   0xff6600, 0xff6633, 0xff6666, 0xff6699, 0xff66cc, 0xff66ff, 0xff9900, 0xff9933,
   0xff9966, 0xff9999, 0xff99cc, 0xff99ff, 0xffcc00, 0xffcc33, 0xffcc66, 0xffcc99,
   0xffcccc, 0xffccff, 0xffff00, 0xffff33, 0xffff66, 0xffff99, 0xffffcc, 0xffffff,
   0x000000, 0x0a0a0a, 0x141414, 0x1e1e1e, 0x282828, 0x323232, 0x3c3c3c, 0x464646,
   0x505050, 0x5a5a5a, 0x646464, 0x6e6e6e, 0x787878, 0x828282, 0x8c8c8c, 0x969696,
   0xa0a0a0, 0xaaaaaa, 0xb4b4b4, 0xbebebe, 0xc8c8c8, 0xd2d2d2, 0xdcdcdc, 0xe6e6e6]

/-- The tables of `parse_sgr`. -/
inductive Table where
  | setAttribute
  | resetAttribute
  | palette

def Table.size : Table → Nat
  | setAttribute => 9
  | resetAttribute => 8
  | palette => 256

structure TableIndex where
  table : Table
  index : Nat

def TableIndex.InRange (i : TableIndex) : Prop := i.index < i.table.size

/-- The callbacks of the terminal. What lies behind the end of the first table is here too. -/
structure Attributes where
  set : Nat → Colors → Colors
  reset : Nat → Colors → Colors

def resetTextAttribute (c : Colors) : Colors :=
  {c with ansiState := .normal, fg := c.fgDefault, bg := c.bgDefault}

def noChangeTextAttribute (c : Colors) : Colors := c

/-- The callbacks that `terminal_alloc` sets. -/
def defaultAttributes : Attributes where
  set n := if n = 0 then resetTextAttribute else noChangeTextAttribute
  reset _ := noChangeTextAttribute

/-- The tables hold the callbacks that `terminal_alloc` sets; nothing is known behind them. -/
structure Attributes.Default (attrs : Attributes) : Prop where
  set_zero : attrs.set 0 = resetTextAttribute
  set_other : ∀ n, 1 ≤ n → n < 9 → attrs.set n = noChangeTextAttribute
  reset : ∀ n < 8, attrs.reset n = noChangeTextAttribute

theorem default_defaultAttributes : defaultAttributes.Default where
  set_zero := rfl
  set_other _ hpos _ := if_neg (Nat.ne_of_gt hpos)
  reset _ _ := rfl

def numInByteBounds (n : Int) : Prop := 0 ≤ n ∧ n ≤ 255

instance (n : Int) : Decidable (numInByteBounds n) := inferInstanceAs (Decidable (_ ∧ _))

def applyColor (c : Colors) (color : Nat) : Colors :=
  if c.applyToFg then {c with fg := color} else {c with bg := color}

def paletteColor (n : Nat) : Nat := 0xff000000 ||| rgb256.getD n 0

/-- The loop of `parse_sgr`: its variable `color` and the indices used so far. -/
structure Sgr where
  colors : Colors
  color : Nat := 0
  indices : List TableIndex := []

def Sgr.setState (s : Sgr) (state : AnsiColorState) : Sgr :=
  {s with colors := {s.colors with ansiState := state}}

/-- The case `PROCESS_NORMAL`. -/
def processNormal (attrs : Attributes) (s : Sgr) (n : Int) : Sgr :=
  if 0 ≤ n ∧ n ≤ 9 then
    {s with
      colors := attrs.set n.toNat s.colors
      indices := s.indices ++ [⟨.setAttribute, n.toNat⟩]}
  else if 22 ≤ n ∧ n ≤ 29 then
    {s with
      colors := attrs.reset (n - 22).toNat s.colors
      indices := s.indices ++ [⟨.resetAttribute, (n - 22).toNat⟩]}
  else if n = 38 ∨ n = 48 then
    {s with colors := {s.colors with ansiState := .fgBg, applyToFg := n = 38}}
  else if 30 ≤ n ∧ n ≤ 37 then
    {s with
      colors := {s.colors with fg := paletteColor (n - 30).toNat}
      indices := s.indices ++ [⟨.palette, (n - 30).toNat⟩]}
  else if 90 ≤ n ∧ n ≤ 97 then
    {s with
      colors := {s.colors with fg := paletteColor (n - 90 + 8).toNat}
      indices := s.indices ++ [⟨.palette, (n - 90 + 8).toNat⟩]}
  else if 40 ≤ n ∧ n ≤ 47 then
    {s with
      colors := {s.colors with bg := paletteColor (n - 40).toNat}
      indices := s.indices ++ [⟨.palette, (n - 40).toNat⟩]}
  else if 100 ≤ n ∧ n ≤ 107 then
    {s with
      colors := {s.colors with bg := paletteColor (n - 100 + 8).toNat}
      indices := s.indices ++ [⟨.palette, (n - 100 + 8).toNat⟩]}
  else s

/-- The case `PROCESS_FG_BG`. -/
def processFgBg (s : Sgr) (n : Int) : Sgr :=
  if n ≠ 5 ∧ n ≠ 2 then s.setState .normal
  else s.setState (if n = 5 then .ansi8 else .ansi24)

/-- The case `PROCESS_ANSI8`. -/
def processAnsi8 (s : Sgr) (n : Int) : Sgr :=
  if ¬ numInByteBounds n then s.setState .normal
  else
    let color := paletteColor n.toNat
    {s with
      colors := {applyColor s.colors color with ansiState := .normal}
      color
      indices := s.indices ++ [⟨.palette, n.toNat⟩]}

/-- `color |= n << shift`. -/
def Sgr.orColor (s : Sgr) (n : Int) (shift : Nat) : Sgr := {s with color := s.color ||| n.toNat <<< shift}

/-- The loop over the tokens, as the numbers that `__atoi` makes of them. The case
`PROCESS_ANSI24` takes two more of them itself, keeps its state when it succeeds, and has then
already taken the token that the loop skips. -/
def parseSgrLoop (attrs : Attributes) : Sgr → List Int → Sgr
  | s, [] => s
  | s, n :: rest =>
      match s.colors.ansiState with
      | .normal => parseSgrLoop attrs (processNormal attrs s n) rest
      | .fgBg => parseSgrLoop attrs (processFgBg s n) rest
      | .ansi8 => parseSgrLoop attrs (processAnsi8 s n) rest
      | .ansi24 =>
          if ¬ numInByteBounds n then parseSgrLoop attrs (s.setState .normal) rest
          else
            let s := s.orColor n 0
            match rest with
            | [] => s.setState .normal
            | n :: rest =>
                if ¬ numInByteBounds n then parseSgrLoop attrs (s.setState .normal) rest
                else
                  let s := s.orColor n 8
                  match rest with
                  | [] => s.setState .normal
                  | n :: rest =>
                      if ¬ numInByteBounds n then parseSgrLoop attrs (s.setState .normal) rest
                      else
                        let s := s.orColor n 16
                        let s := {s with colors := applyColor s.colors s.color}
                        match rest with
                        | [] => s
                        | _ :: rest => parseSgrLoop attrs s rest

/-- The tokens of a string that starts at `place` of its array, and the places where `__strtok_r`
ends them. -/
def tokens (place : Nat) (str : List Char) : List (List Char) × List Nat :=
  match _htok : strtokR str [';'] with
  | (none, _) => ([], [])
  | (some tok, rest) =>
      let after := strspn str [';'] + tok.length
      let more := tokens (place + (str.length - rest.length)) rest
      (tok :: more.1, (if after < str.length then [place + after] else []) ++ more.2)
termination_by str.length
decreasing_by exact strtokR_rest_length _htok

/-- The colours after a sequence, the indices used, and the places of the array written. -/
def parseSgr (attrs : Attributes) (c : Colors) (place : Nat) (sequence : List Char) :
    Colors × List TableIndex × List Nat :=
  if sequence.length = 0 then (resetTextAttribute c, [], [])
  else
    let toks := tokens place sequence
    let s := parseSgrLoop attrs {colors := c} (toks.1.map atoi)
    (s.colors, s.indices, toks.2)

/-- What follows a 38 or 48 selects a colour, and this is behind it. -/
def extendedColor : List Nat → Option (Nat × List Nat)
  | 5 :: n :: rest => if n ≤ 255 then some (paletteColor n, rest) else none
  | 2 :: r :: g :: b :: rest =>
      if r ≤ 255 ∧ g ≤ 255 ∧ b ≤ 255 then some (0xff000000 ||| r <<< 16 ||| g <<< 8 ||| b, rest)
      else none
  | _ => none

theorem extendedColor_length {params rest : List Nat} {color : Nat}
    (h : extendedColor params = some (color, rest)) : rest.length < params.length := by
  unfold extendedColor at h
  split at h
  · split at h
    · cases h
      simp only [List.length_cons]
      omega
    · cases h
  · split at h
    · cases h
      simp only [List.length_cons]
      omega
    · cases h
  · cases h

/-- A parameter on its own. -/
def readParameter (c : Colors) (p : Nat) : Colors :=
  if p = 0 then {c with fg := c.fgDefault, bg := c.bgDefault}
  else if 30 ≤ p ∧ p ≤ 37 then {c with fg := paletteColor (p - 30)}
  else if 90 ≤ p ∧ p ≤ 97 then {c with fg := paletteColor (p - 90 + 8)}
  else if 40 ≤ p ∧ p ≤ 47 then {c with bg := paletteColor (p - 40)}
  else if 100 ≤ p ∧ p ≤ 107 then {c with bg := paletteColor (p - 100 + 8)}
  else c

/-- The parameters from left to right. A 38 or 48 that no colour follows has no effect. -/
def readParameters (c : Colors) (params : List Nat) : Colors :=
  match params with
  | [] => c
  | p :: rest =>
      if p = 38 ∨ p = 48 then
        match _hext : extendedColor rest with
        | some (color, rest') =>
            readParameters (if p = 38 then {c with fg := color} else {c with bg := color}) rest'
        | none => readParameters c rest
      else readParameters (readParameter c p) rest
termination_by params.length
decreasing_by
  · have hlt := extendedColor_length _hext
    rw [List.length_cons]
    omega
  · simp
  · simp

/-- The reading of a whole sequence: without parameters it restores the defaults. -/
def sgrReading (c : Colors) (params : List Nat) : Colors :=
  if params = [] then {c with fg := c.fgDefault, bg := c.bgDefault} else readParameters c params

/-- A parameter that means no colour on its own. -/
def Colorless (p : Nat) : Prop :=
  p ≠ 0 ∧ ¬ (30 ≤ p ∧ p ≤ 37) ∧ ¬ (90 ≤ p ∧ p ≤ 97) ∧ ¬ (40 ≤ p ∧ p ≤ 47) ∧ ¬ (100 ≤ p ∧ p ≤ 107)

instance (p : Nat) : Decidable (Colorless p) := inferInstanceAs (Decidable (_ ∧ _))

/-- Lists without the parameters that the machine gets wrong: there is no 9, no 24-bit colour,
no extended colour that ends early, and what is taken after a 38 or 48 although it belongs to no
colour means nothing by itself. -/
def Plain : List Nat → Prop
  | [] => True
  | p :: rest =>
      if p = 38 ∨ p = 48 then
        match rest with
        | [] => False
        | m :: rest =>
            if m = 5 then
              match rest with
              | [] => False
              | _ :: rest => Plain rest
            else if m = 2 then
              match rest with
              | [] => False
              | r :: rest =>
                  if 255 < r then Plain rest
                  else
                    Colorless r ∧
                      match rest with
                      | [] => True
                      | g :: rest =>
                          if 255 < g then Plain rest
                          else
                            Colorless g ∧
                              match rest with
                              | [] => True
                              | b :: rest => 255 < b ∧ Plain rest
            else Colorless m ∧ (m = 38 ∨ m = 48 → extendedColor rest = none) ∧ Plain rest
      else p ≠ 9 ∧ Plain rest

section Reading

variable {c : Colors} {p : Nat} {rest : List Nat}

theorem readParameter_colorless (hp : Colorless p) : readParameter c p = c := by
  obtain ⟨hzero, hfg, hbrightFg, hbg, hbrightBg⟩ := hp
  rw [readParameter, if_neg hzero, if_neg hfg, if_neg hbrightFg, if_neg hbg, if_neg hbrightBg]

/-- A parameter without a meaning of its own is passed over. -/
theorem readParameters_colorless (hp : Colorless p)
    (hext : p = 38 ∨ p = 48 → extendedColor rest = none) :
    readParameters c (p :: rest) = readParameters c rest := by
  rw [readParameters]
  by_cases hextended : p = 38 ∨ p = 48
  · rw [if_pos hextended]
    split
    · rename_i hsome
      rw [hext hextended] at hsome
      cases hsome
    · rfl
  · rw [if_neg hextended, readParameter_colorless hp]

theorem readParameters_extended (hp : p = 38 ∨ p = 48) {color : Nat} {rest' : List Nat}
    (hext : extendedColor rest = some (color, rest')) :
    readParameters c (p :: rest) =
      readParameters (if p = 38 then {c with fg := color} else {c with bg := color}) rest' := by
  rw [readParameters, if_pos hp]
  split
  · rename_i hsome
    rw [hext] at hsome
    cases hsome
    rfl
  · rename_i hnone
    rw [hext] at hnone
    cases hnone

theorem extendedColor_eq_none {params : List Nat}
    (hfive : ∀ n rest, params = 5 :: n :: rest → 255 < n)
    (htwo : ∀ r g b rest, params = 2 :: r :: g :: b :: rest → 255 < r ∨ 255 < g ∨ 255 < b) :
    extendedColor params = none := by
  unfold extendedColor
  split
  · rename_i n rest
    have hn := hfive n rest rfl
    exact if_neg (by omega)
  · rename_i r g b rest
    have hlarge := htwo r g b rest rfl
    exact if_neg (by omega)
  · rfl

theorem colorless_extended (hp : p = 38 ∨ p = 48) : Colorless p := by
  unfold Colorless
  omega

theorem extendedColor_singleton (g : Nat) : extendedColor [g] = none :=
  extendedColor_eq_none (fun _ _ heq => by cases heq) fun _ _ _ _ heq => by cases heq

theorem extendedColor_large {g : Nat} (hg : 255 < g) : extendedColor (g :: rest) = none := by
  apply extendedColor_eq_none
  · intro n rest heq
    have := (List.cons.inj heq).1
    omega
  · intro r g' b rest heq
    have := (List.cons.inj heq).1
    omega

theorem extendedColor_second {g b : Nat} (hb : 255 < b) : extendedColor (g :: b :: rest) = none := by
  apply extendedColor_eq_none
  · intro n rest heq
    cases heq
    exact hb
  · intro r g' b' rest heq
    cases heq
    exact Or.inl hb

/-- What follows a 38 or 48 is passed over with it when it selects no colour. -/
theorem readParameters_pass {m : Nat} (hp : p = 38 ∨ p = 48) (hm : Colorless m)
    (hpext : extendedColor (m :: rest) = none) (hmext : m = 38 ∨ m = 48 → extendedColor rest = none) :
    readParameters c (p :: m :: rest) = readParameters c rest := by
  rw [readParameters_colorless (colorless_extended hp) fun _ => hpext,
    readParameters_colorless hm hmext]

theorem colorless_large (hp : 107 < p) : Colorless p := by
  unfold Colorless
  omega

end Reading

/-- The machine rests, shows the colours `c` and has stayed inside its tables. -/
structure Follows (s : Sgr) (c : Colors) : Prop where
  normal : s.colors.ansiState = .normal
  fg : s.colors.fg = c.fg
  bg : s.colors.bg = c.bg
  fgDefault : s.colors.fgDefault = c.fgDefault
  bgDefault : s.colors.bgDefault = c.bgDefault
  inRange : ∀ i ∈ s.indices, i.InRange

section Machine

variable {attrs : Attributes} {s : Sgr} {c : Colors} {p : Nat} {rest : List Int}

theorem inRange_append {indices : List TableIndex} (h : ∀ i ∈ indices, i.InRange) {i : TableIndex}
    (hi : i.InRange) : ∀ j ∈ indices ++ [i], j.InRange :=
  List.forall_mem_append.mpr ⟨h, List.forall_mem_singleton.mpr hi⟩

/-- A parameter other than 9 that starts no extended colour is read as it should be. -/
theorem Follows.processNormal (hattrs : attrs.Default) (h : Follows s c) (hnine : p ≠ 9)
    (hplain : ¬ (p = 38 ∨ p = 48)) :
    Follows (processNormal attrs s p) (readParameter c p) := by
  obtain ⟨hnormal, hfg, hbg, hfgDefault, hbgDefault, hrange⟩ := h
  unfold Tellurium.Modules.processNormal
  split
  · have hindex := inRange_append hrange (i := ⟨.setAttribute, (p : Int).toNat⟩)
      (show (p : Int).toNat < 9 by omega)
    rw [Int.toNat_natCast] at hindex ⊢
    by_cases hzero : p = 0
    · subst hzero
      rw [readParameter, if_pos rfl, hattrs.set_zero]
      exact ⟨rfl, hfgDefault, hbgDefault, hfgDefault, hbgDefault, hindex⟩
    · rw [readParameter_colorless (by unfold Colorless; omega),
        hattrs.set_other p (by omega) (by omega)]
      exact ⟨hnormal, hfg, hbg, hfgDefault, hbgDefault, hindex⟩
  split
  · rw [readParameter_colorless (by unfold Colorless; omega), hattrs.reset _ (by omega)]
    exact ⟨hnormal, hfg, hbg, hfgDefault, hbgDefault,
      inRange_append hrange (show ((p : Int) - 22).toNat < 8 by omega)⟩
  split
  · omega
  split
  · have hplace : ((p : Int) - 30).toNat = p - 30 := by omega
    rw [readParameter, if_neg (by omega), if_pos (by omega), hplace]
    exact ⟨hnormal, rfl, hbg, hfgDefault, hbgDefault,
      inRange_append hrange (show p - 30 < 256 by omega)⟩
  split
  · have hplace : ((p : Int) - 90 + 8).toNat = p - 90 + 8 := by omega
    rw [readParameter, if_neg (by omega), if_neg (by omega), if_pos (by omega), hplace]
    exact ⟨hnormal, rfl, hbg, hfgDefault, hbgDefault,
      inRange_append hrange (show p - 90 + 8 < 256 by omega)⟩
  split
  · have hplace : ((p : Int) - 40).toNat = p - 40 := by omega
    rw [readParameter, if_neg (by omega), if_neg (by omega), if_neg (by omega), if_pos (by omega),
      hplace]
    exact ⟨hnormal, hfg, rfl, hfgDefault, hbgDefault,
      inRange_append hrange (show p - 40 < 256 by omega)⟩
  split
  · have hplace : ((p : Int) - 100 + 8).toNat = p - 100 + 8 := by omega
    rw [readParameter, if_neg (by omega), if_neg (by omega), if_neg (by omega), if_neg (by omega),
      if_pos (by omega), hplace]
    exact ⟨hnormal, hfg, rfl, hfgDefault, hbgDefault,
      inRange_append hrange (show p - 100 + 8 < 256 by omega)⟩
  · rw [readParameter_colorless (by unfold Colorless; omega)]
    exact ⟨hnormal, hfg, hbg, hfgDefault, hbgDefault, hrange⟩

/-- The machine after a 38 or 48. -/
def Sgr.extend (s : Sgr) (p : Nat) : Sgr :=
  {s with colors := {s.colors with ansiState := .fgBg, applyToFg := (p : Int) = 38}}

theorem parseSgrLoop_extended (h : s.colors.ansiState = .normal) (hp : p = 38 ∨ p = 48) :
    parseSgrLoop attrs s (p :: rest) = parseSgrLoop attrs (s.extend p) rest := by
  have hstep : Tellurium.Modules.processNormal attrs s p = s.extend p := by
    rw [Tellurium.Modules.processNormal, if_neg (by omega), if_neg (by omega), if_pos (by omega)]
    rfl
  rw [parseSgrLoop.eq_def]
  simp only [h, hstep]

/-- The colour that the machine has put aside is out of sight. -/
theorem Follows.extend (h : Follows s c) (color : Nat) (toFg : Bool) :
    Follows {s with colors := {s.colors with ansiState := .normal, applyToFg := toFg}, color} c :=
  ⟨rfl, h.fg, h.bg, h.fgDefault, h.bgDefault, h.inRange⟩

theorem Follows.processAnsi8 (h : Follows s c) {n : Nat} (hn : n ≤ 255) :
    Follows (processAnsi8 ((s.extend p).setState .ansi8) n)
      (if p = 38 then {c with fg := paletteColor n} else {c with bg := paletteColor n}) := by
  obtain ⟨-, hfg, hbg, hfgDefault, hbgDefault, hrange⟩ := h
  have hbyte : ¬ ¬ numInByteBounds (n : Int) := not_not.mpr ⟨by omega, by omega⟩
  have hindex : ∀ i ∈ s.indices ++ [⟨.palette, n⟩], i.InRange :=
    inRange_append hrange (show n < 256 by omega)
  rw [Tellurium.Modules.processAnsi8, if_neg hbyte, Int.toNat_natCast]
  by_cases hp : p = 38
  · have happly : decide ((p : Int) = 38) = true := decide_eq_true (by omega)
    rw [if_pos hp]
    simp only [applyColor, Sgr.setState, Sgr.extend, happly, if_true]
    exact ⟨rfl, rfl, hbg, hfgDefault, hbgDefault, hindex⟩
  · have happly : decide ((p : Int) = 38) = false := decide_eq_false (by omega)
    rw [if_neg hp]
    simp only [applyColor, Sgr.setState, Sgr.extend, happly, Bool.false_eq_true, if_false]
    exact ⟨rfl, hfg, rfl, hfgDefault, hbgDefault, hindex⟩

/-- The second number behind a 38 or 48 that belongs to no colour. -/
theorem parseSgrLoop_swallow (h : s.colors.ansiState = .normal) (hp : p = 38 ∨ p = 48) {m : Nat}
    (hfive : m ≠ 5) (htwo : m ≠ 2) :
    parseSgrLoop attrs s (p :: m :: rest) = parseSgrLoop attrs ((s.extend p).setState .normal) rest := by
  rw [parseSgrLoop_extended h hp, parseSgrLoop.eq_def]
  simp only [Sgr.extend, processFgBg]
  rw [if_pos ⟨by omega, by omega⟩]

theorem parseSgrLoop_five (h : s.colors.ansiState = .normal) (hp : p = 38 ∨ p = 48) :
    parseSgrLoop attrs s (p :: 5 :: rest) = parseSgrLoop attrs ((s.extend p).setState .ansi8) rest := by
  rw [parseSgrLoop_extended h hp, parseSgrLoop.eq_def]
  rfl

theorem parseSgrLoop_two (h : s.colors.ansiState = .normal) (hp : p = 38 ∨ p = 48) :
    parseSgrLoop attrs s (p :: 2 :: rest) = parseSgrLoop attrs ((s.extend p).setState .ansi24) rest := by
  rw [parseSgrLoop_extended h hp, parseSgrLoop.eq_def]
  rfl

/-- What the machine does behind `38;2` or `48;2` when a number is missing or too large: it comes
to rest behind the last number it took. -/
inductive CutTriple : List Nat → List Nat → Prop
  | first {r : Nat} {rest : List Nat} (hr : 255 < r) : CutTriple (r :: rest) rest
  | one {r : Nat} (hr : r ≤ 255 ∧ Colorless r) : CutTriple [r] []
  | second {r g : Nat} {rest : List Nat} (hr : r ≤ 255 ∧ Colorless r) (hg : 255 < g) :
      CutTriple (r :: g :: rest) rest
  | two {r g : Nat} (hr : r ≤ 255 ∧ Colorless r) (hg : g ≤ 255 ∧ Colorless g) : CutTriple [r, g] []
  | third {r g b : Nat} {rest : List Nat} (hr : r ≤ 255 ∧ Colorless r) (hg : g ≤ 255 ∧ Colorless g)
      (hb : 255 < b) : CutTriple (r :: g :: b :: rest) rest

theorem CutTriple.read {params after : List Nat} (hp : p = 38 ∨ p = 48) (h : CutTriple params after) :
    readParameters c (p :: 2 :: params) = readParameters c after := by
  have hpass : extendedColor (2 :: params) = none := by
    apply extendedColor_eq_none
    · intro n rest heq
      exact absurd (List.cons.inj heq).1 (by decide)
    · intro r g b rest heq
      have htail := (List.cons.inj heq).2
      subst htail
      cases h with
      | first hr => exact Or.inl hr
      | second hr hg => exact Or.inr (Or.inl hg)
      | third hr hg hb => exact Or.inr (Or.inr hb)
  rw [readParameters_pass hp (by decide) hpass fun hno => absurd hno (by decide)]
  cases h with
  | first hr => exact readParameters_colorless (colorless_large (by omega)) (by omega)
  | one hr => exact readParameters_colorless hr.2 fun _ => rfl
  | second hr hg =>
      rw [readParameters_colorless hr.2 fun _ => extendedColor_large hg,
        readParameters_colorless (colorless_large (by omega)) (by omega)]
  | two hr hg =>
      rw [readParameters_colorless hr.2 fun _ => extendedColor_singleton _,
        readParameters_colorless hg.2 fun _ => rfl]
  | third hr hg hb =>
      rw [readParameters_colorless hr.2 fun _ => extendedColor_second hb,
        readParameters_colorless hg.2 fun _ => extendedColor_large hb,
        readParameters_colorless (colorless_large (by omega)) (by omega)]

theorem numInByteBounds_natCast {n : Nat} : numInByteBounds (n : Int) ↔ n ≤ 255 := by
  unfold numInByteBounds
  omega

theorem CutTriple.loop (attrs : Attributes) {params after : List Nat} (hs : s.colors.ansiState = .ansi24)
    (h : CutTriple params after) :
    ∃ color, parseSgrLoop attrs s (params.map fun p : Nat => (p : Int)) =
      parseSgrLoop attrs {s.setState .normal with color} (after.map fun p : Nat => (p : Int)) := by
  rw [parseSgrLoop.eq_def]
  cases h with
  | first hr =>
      refine ⟨s.color, ?_⟩
      simp only [List.map_cons, hs, numInByteBounds_natCast]
      rw [if_pos (by omega)]
      rfl
  | @one r hr =>
      refine ⟨(s.orColor r 0).color, ?_⟩
      simp only [List.map_cons, List.map_nil, hs, numInByteBounds_natCast]
      rw [if_neg (by omega)]
      rfl
  | @second r g rest hr hg =>
      refine ⟨(s.orColor r 0).color, ?_⟩
      simp only [List.map_cons, hs, numInByteBounds_natCast]
      rw [if_neg (by omega), if_pos (by omega)]
      rfl
  | @two r g hr hg =>
      refine ⟨((s.orColor r 0).orColor g 8).color, ?_⟩
      simp only [List.map_cons, List.map_nil, hs, numInByteBounds_natCast]
      rw [if_neg (by omega), if_neg (by omega)]
      rfl
  | @third r g b rest hr hg hb =>
      refine ⟨((s.orColor r 0).orColor g 8).color, ?_⟩
      simp only [List.map_cons, hs, numInByteBounds_natCast]
      rw [if_neg (by omega), if_neg (by omega), if_pos (by omega)]
      rfl

theorem Follows.nil (h : Follows s c) :
    Follows (parseSgrLoop attrs s (([] : List Nat).map fun p : Nat => (p : Int)))
      (readParameters c []) := by
  rw [readParameters]
  exact h

/-- A 24-bit colour that is cut off leaves the colours as they are. -/
theorem Follows.cutTriple {params after : List Nat} (h : Follows s c) (hp : p = 38 ∨ p = 48)
    (hcut : CutTriple params after)
    (hafter : ∀ {s : Sgr}, Follows s c →
      Follows (parseSgrLoop attrs s (after.map fun p : Nat => (p : Int))) (readParameters c after)) :
    Follows (parseSgrLoop attrs s ((p :: 2 :: params).map fun p : Nat => (p : Int)))
      (readParameters c (p :: 2 :: params)) := by
  obtain ⟨color, hloop⟩ :=
    hcut.loop attrs (show ((s.extend p).setState .ansi24).colors.ansiState = .ansi24 from rfl)
  simp only [List.map_cons]
  rw [show ((2 : Nat) : Int) = 2 from rfl, parseSgrLoop_two h.normal hp, hloop, hcut.read hp]
  exact hafter (h.extend color _)

/-- On a plain list the machine follows the reading and comes to rest. -/
theorem parseSgrLoop_follows (hattrs : attrs.Default) {params : List Nat} (hplain : Plain params)
    (h : Follows s c) :
    Follows (parseSgrLoop attrs s (params.map fun p : Nat => (p : Int))) (readParameters c params) := by
  induction params using Plain.induct generalizing s c with
  | case1 => exact h.nil
  | case2 p hp =>
      rw [Plain, if_pos hp] at hplain
      exact hplain.elim
  | case3 p hp =>
      rw [Plain, if_pos hp] at hplain
      exact hplain.elim
  | case4 p hp n rest ih =>
      have hrest : Plain rest := by
        rw [Plain.eq_def] at hplain
        simpa only [if_pos hp, if_true] using hplain
      simp only [List.map_cons]
      rw [show ((5 : Nat) : Int) = 5 from rfl, parseSgrLoop_five h.normal hp, parseSgrLoop.eq_def]
      change Follows (parseSgrLoop attrs (Tellurium.Modules.processAnsi8 _ n) _) _
      by_cases hn : n ≤ 255
      · rw [readParameters_extended hp (show extendedColor (5 :: n :: rest) = _ from if_pos hn)]
        exact ih hrest (h.processAnsi8 hn)
      · have hbyte : ¬ numInByteBounds (n : Int) := fun hbyte => hn (by have := hbyte.2; omega)
        rw [readParameters_pass hp (by decide) (show extendedColor (5 :: n :: rest) = none from
            if_neg hn) (fun hno => absurd hno (by decide)),
          readParameters_colorless (colorless_large (by omega)) (by omega),
          Tellurium.Modules.processAnsi8, if_pos hbyte]
        exact ih hrest (h.extend _ _)
  | case5 p hp hne =>
      rw [Plain, if_pos hp] at hplain
      exact hplain.elim
  | case6 p hp r rest hr hne ih =>
      have hrest : Plain rest := by
        rw [Plain.eq_def] at hplain
        simpa only [if_pos hp, if_neg hne, if_true, if_pos hr] using hplain
      exact h.cutTriple hp (CutTriple.first hr) fun h => ih hrest h
  | case7 p hp r rest hr hne ih =>
      have hsmall : r ≤ 255 := by omega
      rw [Plain.eq_def] at hplain
      simp only [if_pos hp, if_neg hne, if_true, if_neg hr] at hplain
      obtain ⟨hcolorless, hplain⟩ := hplain
      cases rest with
      | nil => exact h.cutTriple hp (CutTriple.one ⟨hsmall, hcolorless⟩) fun h => h.nil
      | cons g rest =>
          by_cases hg : 255 < g
          · simp only [if_pos hg] at hplain
            exact h.cutTriple hp (CutTriple.second ⟨hsmall, hcolorless⟩ hg) fun h => ih.1 hplain h
          · simp only [if_neg hg] at hplain
            obtain ⟨hg', hplain⟩ := hplain
            cases rest with
            | nil =>
                exact h.cutTriple hp (CutTriple.two ⟨hsmall, hcolorless⟩ ⟨by omega, hg'⟩)
                  fun h => h.nil
            | cons b rest =>
                exact h.cutTriple hp (CutTriple.third ⟨hsmall, hcolorless⟩ ⟨by omega, hg'⟩ hplain.1)
                  fun h => ih.2 hplain.2 h
  | case8 p hp m rest hfive htwo ih =>
      have hrest : Colorless m ∧ (m = 38 ∨ m = 48 → extendedColor rest = none) ∧ Plain rest := by
        rw [Plain.eq_def] at hplain
        simpa only [if_pos hp, if_neg hfive, if_neg htwo] using hplain
      obtain ⟨hm, hext, hrest⟩ := hrest
      simp only [List.map_cons]
      have hnone : extendedColor (m :: rest) = none :=
        extendedColor_eq_none (fun n rest heq => absurd (List.cons.inj heq).1 hfive)
          fun r g b rest heq => absurd (List.cons.inj heq).1 htwo
      rw [parseSgrLoop_swallow h.normal hp hfive htwo, readParameters_pass hp hm hnone hext]
      exact ih hrest (h.extend _ _)
  | case9 p rest hp ih =>
      have hrest : p ≠ 9 ∧ Plain rest := by
        rw [Plain.eq_def] at hplain
        simpa only [if_neg hp] using hplain
      rw [readParameters, if_neg hp, List.map_cons, parseSgrLoop.eq_def]
      simp only [h.normal]
      exact ih hrest.2 (h.processNormal hattrs hrest.1 hp)

end Machine

/-- The parameters between `[` and `m`. -/
def sgrBody (params : List Nat) : List Char :=
  [';'].intercalate (params.map fun p => Nat.toDigits 10 p)

section Tokens

variable {p : Nat} {rest : List Nat}

theorem toDigits_noDelimiter (p : Nat) : ';' ∉ Nat.toDigits 10 p := fun hmem =>
  absurd (Nat.isDigit_of_mem_toDigits (by decide) (by decide) hmem) (by decide)

theorem sgrBody_cons (hrest : rest ≠ []) :
    sgrBody (p :: rest) = Nat.toDigits 10 p ++ ';' :: sgrBody rest := by
  obtain ⟨q, rest, rfl⟩ := List.exists_cons_of_ne_nil hrest
  rw [sgrBody, List.map_cons, List.map_cons, List.intercalate_cons_cons]
  simp [sgrBody]

theorem tokens_step {place : Nat} {str tok after : List Char}
    (h : strtokR str [';'] = (some tok, after)) :
    tokens place str =
      (tok :: (tokens (place + (str.length - after.length)) after).1,
        (if strspn str [';'] + tok.length < str.length then [place + (strspn str [';'] + tok.length)]
          else []) ++ (tokens (place + (str.length - after.length)) after).2) := by
  rw [tokens]
  split
  · rename_i hnone
    rw [h] at hnone
    cases hnone
  · rename_i hsome
    rw [h] at hsome
    cases hsome
    rfl

theorem tokens_nil (place : Nat) : tokens place [] = ([], []) := by
  rw [tokens]
  rfl

/-- The parameters come back one by one. -/
theorem tokens_sgrBody (place : Nat) (params : List Nat) :
    (tokens place (sgrBody params)).1 = params.map fun p => Nat.toDigits 10 p := by
  induction params generalizing place with
  | nil =>
      change (tokens place []).1 = []
      rw [tokens_nil]
  | cons p rest ih =>
      by_cases hrest : rest = []
      · subst hrest
        have hbody : sgrBody [p] = Nat.toDigits 10 p := by simp [sgrBody]
        rw [hbody, tokens_step (strtokR_rest Nat.toDigits_ne_nil (toDigits_noDelimiter p)), tokens_nil]
        rfl
      · rw [sgrBody_cons hrest, tokens_step (strtokR_token Nat.toDigits_ne_nil (toDigits_noDelimiter p) _),
          ih, List.map_cons]

/-- `__strtok_r` ends its tokens inside the string. -/
theorem tokens_writes (place : Nat) (str : List Char) :
    ∀ w ∈ (tokens place str).2, place ≤ w ∧ w < place + str.length := by
  induction hlen : str.length using Nat.strong_induction_on generalizing place str with
  | _ len ih =>
      cases htok : strtokR str [';'] with
      | mk first after =>
          cases first with
          | none =>
              rw [tokens]
              split
              · simp
              · rename_i hsome
                rw [htok] at hsome
                cases hsome
          | some tok =>
              have hshort := strtokR_rest_length htok
              rw [tokens_step htok]
              simp only [List.forall_mem_append]
              constructor
              · split
                · intro w hw
                  have hplace := List.mem_singleton.mp hw
                  omega
                · simp
              · intro w hw
                have hplace := ih after.length (by omega) (place + (str.length - after.length)) after rfl
                  w hw
                omega

end Tokens

/-- The loop of a sequence runs over its parameters. -/
theorem parseSgr_cons (attrs : Attributes) (c : Colors) (place : Nat) {p : Nat} {rest : List Nat}
    (hparams : ∀ q ∈ p :: rest, q < 2 ^ 31) :
    parseSgr attrs c place (sgrBody (p :: rest)) =
      ((parseSgrLoop attrs {colors := c} ((p :: rest).map fun p : Nat => (p : Int))).colors,
        (parseSgrLoop attrs {colors := c} ((p :: rest).map fun p : Nat => (p : Int))).indices,
        (tokens place (sgrBody (p :: rest))).2) := by
  have hlong : ¬ (sgrBody (p :: rest)).length = 0 := by
    intro hzero
    have htokens := tokens_sgrBody place (p :: rest)
    rw [List.length_eq_zero_iff.mp hzero, tokens_nil] at htokens
    cases htokens
  have hnumbers : (tokens place (sgrBody (p :: rest))).1.map atoi =
      (p :: rest).map fun p : Nat => (p : Int) := by
    rw [tokens_sgrBody, List.map_map]
    apply List.map_congr_left
    intro q hq
    have hvalue := @atoi_toDigits _ (hparams q hq) [] (by simp)
    rwa [List.append_nil] at hvalue
  rw [parseSgr, if_neg hlong]
  simp only [hnumbers]

/-- On a plain list a whole sequence is read as it should be. -/
theorem parseSgr_plain {attrs : Attributes} (hattrs : attrs.Default) {c : Colors}
    (hnormal : c.ansiState = .normal) (place : Nat) {params : List Nat}
    (hparams : ∀ p ∈ params, p < 2 ^ 31) (hplain : Plain params) :
    (parseSgr attrs c place (sgrBody params)).1.fg = (sgrReading c params).fg ∧
      (parseSgr attrs c place (sgrBody params)).1.bg = (sgrReading c params).bg ∧
      (parseSgr attrs c place (sgrBody params)).1.ansiState = .normal ∧
      ∀ i ∈ (parseSgr attrs c place (sgrBody params)).2.1, i.InRange := by
  cases params with
  | nil =>
      have hempty : (sgrBody []).length = 0 := rfl
      rw [parseSgr, if_pos hempty, sgrReading, if_pos rfl]
      exact ⟨rfl, rfl, rfl, by simp⟩
  | cons p rest =>
      have hfollows := parseSgrLoop_follows (s := {colors := c}) hattrs hplain
        ⟨hnormal, rfl, rfl, rfl, rfl, by simp⟩
      rw [parseSgr_cons attrs c place hparams, sgrReading, if_neg (List.cons_ne_nil p rest)]
      exact ⟨hfollows.fg, hfollows.bg, hfollows.normal, hfollows.inRange⟩

end Tellurium.Modules
