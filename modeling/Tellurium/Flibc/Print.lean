import Tellurium.Flibc.Stdlib
import Tellurium.Flibc.String
import Mathlib.Data.List.GetD

/-!
Formatted output (`flibc/print.c`). The format pointer is the rest of the format behind it; the
terminator is the end of the list, and moving behind it is an overrun. What `buf` holds is the
list of the characters written so far, so its length is `cur_idx`. Every character is preceded
by a check of the buffer's limit, which ends the call with -1.

The text that a format specifies is defined apart from the buffer, and the call is shown to
write as much of it as fits.
-/

namespace Tellurium.Flibc

open Tellurium.Lib

/-- The arguments behind the format: 64-bit numbers, characters passed as `int`, strings. -/
inductive Arg where
  | word (v : UInt64)
  | int (v : CInt)
  | str (s : CString)

/-- Why a call ends early: the buffer is full, the format was read behind its terminator, or
there is no argument of the kind a directive asks for. -/
inductive Stop where
  | full (out : List Char)
  | overrun
  | noArgument

/-- `ASSERT_BUFF_LIM` and the write behind it. -/
def put (n : Nat) (out : List Char) (c : Char) : Except Stop (List Char) :=
  if n ≤ out.length then .error (.full out) else .ok (out ++ [c])

def putAll (n : Nat) (out : List Char) : List Char → Except Stop (List Char)
  | [] => .ok out
  | c :: cs => do
      let out ← put n out c
      putAll n out cs

/-- Moving the format pointer. -/
def advance (k : Nat) (format : List Char) : Except Stop (List Char) :=
  if k ≤ format.length then .ok (format.drop k) else .error .overrun

def checkFlags : List Char → Nat × List Char
  | '0' :: format => (1, format)
  | format => (0, format)

/-- The width is a 64-bit number, its digits are counted on an `int`. -/
def checkWidth (format : List Char) : Except Stop (Nat × List Char) :=
  if (format.headD '\x00').isDigit then do
    let width := atoi format
    let format ← advance (divisions width) format
    return ((width % 2 ^ 64).toNat, format)
  else .ok (0, format)

/-- The padding in front of a text of `len` characters. -/
def padding (width len : Nat) : Nat := if len ≥ width ∨ width = 0 then 0 else width - len

def printNumber (n flags width : Nat) (str out : List Char) : Except Stop (List Char) := do
  let paddingChar := if flags = 1 then '0' else ' '
  let out ← putAll n out (List.replicate (padding width str.length) paddingChar)
  putAll n out str

def base (c : Char) : Nat :=
  if c = 'b' then 2 else if c = 'o' then 8 else if c = 'u' then 10 else if c = 'x' then 16 else 0

/-- A number as an `int64_t`. -/
def signed (v : UInt64) : Int := Int.bmod v.toNat (2 ^ 64)

/-- The conversion `c` with the arguments that are left. -/
def convert (n flags width : Nat) (c : Char) (args : List Arg) (out : List Char) :
    Except Stop (List Char × List Arg) :=
  if c = 'i' ∨ c = 'd' then
    match args with
    | .word v :: args => return (← printNumber n flags width (itoa (signed v)) out, args)
    | _ => .error .noArgument
  else if c = 'b' ∨ c = 'o' ∨ c = 'u' ∨ c = 'x' then
    match args with
    | .word v :: args => return (← printNumber n flags width (utoa v.toNat (base c)) out, args)
    | _ => .error .noArgument
  else if c = 'c' then
    match args with
    | .int v :: args => do
        let out ← putAll n out (List.replicate (if width ≠ 0 then width - 1 else 0) ' ')
        return (← put n out (Char.ofNat (v.1 % 256).toNat), args)
    | _ => .error .noArgument
  else if c = 's' then
    match args with
    | .str s :: args => do
        let out ← putAll n out (List.replicate (padding width s.1.length) ' ')
        return (← putAll n out s.1, args)
    | _ => .error .noArgument
  else
    return (← put n out c, args)

/-- One round of the loop, at a character that is not the terminator. -/
def printStep (n : Nat) (format : List Char) (args : List Arg) (out : List Char) :
    Except Stop (List Char × List Arg × List Char) :=
  if format.headD '\x00' ≠ '%' then do
    let out ← put n out (format.headD '\x00')
    return (← advance 1 format, args, out)
  else do
    let (flags, format) := checkFlags (format.drop 1)
    let (width, format) ← checkWidth format
    let (out, args) ← convert n flags width (format.headD '\x00') args out
    return (← advance 1 format, args, out)

/-- A computation that succeeds does so step by step. -/
theorem bind_ok {α β : Type} {x : Except Stop α} {f : α → Except Stop β} {b : β}
    (h : x >>= f = .ok b) : ∃ a, x = .ok a ∧ f a = .ok b := by
  cases x with
  | error e => cases h
  | ok a => exact ⟨a, rfl, h⟩

section Advance

variable {k n : Nat} {format format' : List Char}

theorem advance_length (h : advance k format = .ok format') : format'.length + k = format.length := by
  rw [advance] at h
  split at h
  · cases h
    rw [List.length_drop]
    omega
  · cases h

theorem checkFlags_length (format : List Char) : (checkFlags format).2.length ≤ format.length := by
  rw [checkFlags.eq_def]
  split
  · simp
  · rfl

theorem checkWidth_length {width : Nat} (h : checkWidth format = .ok (width, format')) :
    format'.length ≤ format.length := by
  rw [checkWidth] at h
  split at h
  · obtain ⟨rest, hrest, hret⟩ := bind_ok h
    cases hret
    have hlen := advance_length hrest
    omega
  · cases h
    rfl

/-- Every round moves the format pointer. -/
theorem printStep_length {args args' : List Arg} {out out' : List Char} (hne : format ≠ [])
    (h : printStep n format args out = .ok (format', args', out')) :
    format'.length < format.length := by
  have hpos := List.length_pos_iff.mpr hne
  rw [printStep] at h
  split at h
  · obtain ⟨_, -, h⟩ := bind_ok h
    obtain ⟨rest, hrest, hret⟩ := bind_ok h
    cases hret
    have hlen := advance_length hrest
    omega
  · obtain ⟨⟨width, afterWidth⟩, hwidth, h⟩ := bind_ok h
    obtain ⟨_, -, h⟩ := bind_ok h
    obtain ⟨rest, hrest, hret⟩ := bind_ok h
    cases hret
    have hlen := advance_length hrest
    have hflags := checkFlags_length (format.drop 1)
    have hle : afterWidth.length ≤ (checkFlags (format.drop 1)).2.length := checkWidth_length hwidth
    rw [List.length_drop] at hflags
    omega

end Advance

/-- The loop over the format. -/
def vsnprintfLoop (n : Nat) (format : List Char) (args : List Arg) (out : List Char) :
    Except Stop (List Char) :=
  if _hne : format = [] then .ok out
  else
    match _hstep : printStep n format args out with
    | .error e => .error e
    | .ok (format', args', out') => vsnprintfLoop n format' args' out'
termination_by format.length
decreasing_by exact printStep_length _hne _hstep

/-- What a call does: it returns, having written these characters, or not. -/
inductive Printed where
  | returned (ret : Int) (out : List Char)
  | overrun
  | noArgument

def printed : Except Stop (List Char) → Printed
  | .ok out => .returned (int32 out.length) out
  | .error (.full out) => .returned (-1) out
  | .error .overrun => .overrun
  | .error .noArgument => .noArgument

def vsnprintf (n : Nat) (format : CString) (args : List Arg) : Printed :=
  printed do
    let out ← vsnprintfLoop n format.1 args []
    put n out '\x00'

/-- The conversions of a directive. -/
inductive Conversion where
  | i | d | b | o | u | x | c | s
  deriving DecidableEq

namespace Conversion

def char : Conversion → Char
  | i => 'i'
  | d => 'd'
  | b => 'b'
  | o => 'o'
  | u => 'u'
  | x => 'x'
  | c => 'c'
  | s => 's'

/-- The conversion that a character stands for, if any. -/
def ofChar? (ch : Char) : Option Conversion :=
  [i, d, b, o, u, x, c, s].find? fun conv => conv.char = ch

/-- A number in the digits of a conversion. -/
def numberText (v : UInt64) : Conversion → List Char
  | b => Nat.toDigits 2 v.toNat
  | o => Nat.toDigits 8 v.toNat
  | u => Nat.toDigits 10 v.toNat
  | x => Nat.toDigits 16 v.toNat
  | _ =>
      if signed v < 0 then '-' :: Nat.toDigits 10 (signed v).natAbs
      else Nat.toDigits 10 (signed v).natAbs

/-- The text of a conversion and the arguments behind its own. Only numbers are padded with
zeros. -/
def text (zero : Bool) (width : Nat) : Conversion → List Arg → Option (List Char × List Arg)
  | c, .int v :: args => some (List.leftpad width ' ' [Char.ofNat (v.1 % 256).toNat], args)
  | s, .str str :: args => some (List.leftpad width ' ' str.1, args)
  | c, _ | s, _ => none
  | conv, .word v :: args =>
      some (List.leftpad width (if zero then '0' else ' ') (conv.numberText v), args)
  | _, _ => none

end Conversion

/-- What the loop makes of the format at its pointer: a plain character, or a directive with
whatever character stands where the conversion should. -/
inductive Piece where
  | plain (ch : Char)
  | directive (flags width : Nat) (ch : Char)

/-- A character that is no conversion is printed itself. -/
def Piece.text : Piece → List Arg → Option (List Char × List Arg)
  | plain ch, args => some ([ch], args)
  | directive flags width ch, args =>
      match Conversion.ofChar? ch with
      | some conv => conv.text (flags = 1) width args
      | none => some ([ch], args)

/-- The width at the pointer and the format behind its digits. -/
def fieldWidth (format : List Char) : Nat × List Char :=
  if (format.headD '\x00').isDigit then
    ((atoi format % 2 ^ 64).toNat, format.drop (divisions (atoi format)))
  else (0, format)

/-- The piece at the pointer and the format behind it. A directive that the terminator cuts off
has nothing behind it. -/
def nextPiece (format : List Char) : Piece × Option (List Char) :=
  if format.headD '\x00' ≠ '%' then (.plain (format.headD '\x00'), some (format.drop 1))
  else
    let flags := checkFlags (format.drop 1)
    let width := fieldWidth flags.2
    (.directive flags.1 width.1 (width.2.headD '\x00'),
      if width.2 = [] then none else some (width.2.drop 1))

theorem nextPiece_length {format rest : List Char} {piece : Piece} (hne : format ≠ [])
    (h : nextPiece format = (piece, some rest)) : rest.length < format.length := by
  have hpos := List.length_pos_iff.mpr hne
  rw [nextPiece] at h
  split at h
  · cases h
    rw [List.length_drop]
    omega
  · have hflags := checkFlags_length (format.drop 1)
    have hwidth : (fieldWidth (checkFlags (format.drop 1)).2).2.length ≤
        (checkFlags (format.drop 1)).2.length := by
      rw [fieldWidth]
      split
      · simp
      · rfl
    have hrest : (if (fieldWidth (checkFlags (format.drop 1)).2).2 = [] then none
        else some ((fieldWidth (checkFlags (format.drop 1)).2).2.drop 1)) = some rest :=
      congrArg Prod.snd h
    by_cases hcut : (fieldWidth (checkFlags (format.drop 1)).2).2 = []
    · rw [if_pos hcut] at hrest
      cases hrest
    · rw [if_neg hcut] at hrest
      rw [← Option.some.inj hrest, List.length_drop]
      rw [List.length_drop] at hflags
      omega

/-- The text that a format specifies with its arguments, and whether the format ends with a
whole directive. -/
def specified (format : List Char) (args : List Arg) : Option (List Char × Bool) :=
  if _hne : format = [] then some ([], true)
  else
    match _hnext : nextPiece format with
    | (_, none) => some ([], false)
    | (piece, some rest) => do
        let (text, args) ← piece.text args
        let (more, complete) ← specified rest args
        return (text ++ more, complete)
termination_by format.length
decreasing_by exact nextPiece_length _hne _hnext

section Put

variable {n : Nat} {out cs ds : List Char}

theorem putAll_eq (hout : out.length ≤ n) (cs : List Char) :
    putAll n out cs = if out.length + cs.length ≤ n then .ok (out ++ cs)
      else .error (.full ((out ++ cs).take n)) := by
  induction cs generalizing out with
  | nil => rw [putAll, List.length_nil, Nat.add_zero, if_pos hout, List.append_nil]
  | cons c cs ih =>
      rw [putAll, put]
      by_cases hfull : n ≤ out.length
      · rw [if_pos hfull, if_neg (by rw [List.length_cons]; omega),
          List.take_append_of_le_length hfull, List.take_of_length_le hout]
        rfl
      · rw [if_neg hfull]
        refine (ih (by rw [List.length_append, List.length_singleton]; omega)).trans ?_
        rw [List.append_assoc, List.length_append, List.length_singleton, List.length_cons,
          Nat.add_assoc, Nat.add_comm 1]
        rfl

theorem putAll_append (n : Nat) (out cs ds : List Char) :
    putAll n out (cs ++ ds) = putAll n out cs >>= fun out => putAll n out ds := by
  induction cs generalizing out with
  | nil => rfl
  | cons c cs ih =>
      rw [List.cons_append, putAll, putAll]
      cases put n out c with
      | error e => rfl
      | ok out => exact ih out

theorem putAll_singleton (n : Nat) (out : List Char) (c : Char) : putAll n out [c] = put n out c := by
  rw [putAll]
  cases put n out c with
  | error e => rfl
  | ok out => rfl

end Put

theorem padding_eq (width len : Nat) : padding width len = width - len := by
  rw [padding]
  split <;> omega

theorem signed_bounds (v : UInt64) : -2 ^ 63 ≤ signed v ∧ signed v < 2 ^ 63 :=
  ⟨Int.le_bmod (by decide), Int.bmod_lt (by decide)⟩

section Convert

variable {n flags width : Nat} {args args' : List Arg} {out text : List Char}

theorem printNumber_eq (n flags width : Nat) (str out : List Char) :
    printNumber n flags width str out =
      putAll n out (List.leftpad width (if flags = 1 then '0' else ' ') str) := by
  rw [printNumber, List.leftpad, putAll_append, padding_eq]

/-- What a number's conversion takes and gives. -/
theorem Conversion.text_number {conv : Conversion} (hc : conv ≠ .c) (hs : conv ≠ .s)
    (h : conv.text (flags = 1) width args = some (text, args')) :
    ∃ v, args = .word v :: args' ∧
      text = List.leftpad width (if flags = 1 then '0' else ' ') (conv.numberText v) := by
  cases args with
  | nil => cases conv <;> cases h
  | cons arg args =>
      cases arg with
      | word v =>
          refine ⟨v, ?_⟩
          have hpair : some (List.leftpad width (if decide (flags = 1) = true then '0' else ' ')
              (conv.numberText v), args) = some (text, args') := by
            cases conv <;> first | contradiction | exact h
          obtain ⟨htext, hargs⟩ := Prod.mk.inj (Option.some.inj hpair)
          simp only [decide_eq_true_eq] at htext
          exact ⟨by rw [hargs], htext.symm⟩
      | int v => cases conv <;> contradiction
      | str str => cases conv <;> contradiction

theorem Conversion.text_char (h : Conversion.c.text (flags = 1) width args = some (text, args')) :
    ∃ v, args = .int v :: args' ∧ text = List.leftpad width ' ' [Char.ofNat (v.1 % 256).toNat] := by
  cases args with
  | nil => cases h
  | cons arg args =>
      cases arg with
      | int v =>
          cases h
          exact ⟨v, rfl, rfl⟩
      | word v => cases h
      | str str => cases h

theorem Conversion.text_str (h : Conversion.s.text (flags = 1) width args = some (text, args')) :
    ∃ str, args = .str str :: args' ∧ text = List.leftpad width ' ' str.1 := by
  cases args with
  | nil => cases h
  | cons arg args =>
      cases arg with
      | str str =>
          cases h
          exact ⟨str, rfl, rfl⟩
      | word v => cases h
      | int v => cases h

/-- Returning a result together with the arguments left. -/
theorem bind_map {x y : Except Stop (List Char)} (h : y = x) :
    (x >>= fun out => Except.ok (out, args)) = y.map fun out => (out, args) := by
  rw [h]
  cases x with
  | error e => rfl
  | ok out => rfl

theorem putAll_number {str : List Char} {v : UInt64} (conv : Conversion)
    (hstr : str = conv.numberText v) :
    (printNumber n flags width str out >>= fun out => Except.ok (out, args)) =
      (putAll n out (List.leftpad width (if flags = 1 then '0' else ' ') (conv.numberText v))).map
        fun out => (out, args) := by
  rw [printNumber_eq, hstr]
  exact bind_map rfl

/-- A conversion writes its text, and takes the arguments that the text took. -/
theorem convert_conversion (conv : Conversion) (h : conv.text (flags = 1) width args = some (text, args')) :
    convert n flags width conv.char args out = (putAll n out text).map fun out => (out, args') := by
  by_cases hc : conv = .c
  · obtain ⟨v, rfl, rfl⟩ := Conversion.text_char (hc ▸ h)
    rw [hc, List.leftpad, putAll_append, List.length_singleton]
    have hwidth : (if width ≠ 0 then width - 1 else 0) = width - 1 := by split <;> omega
    have hconvert : convert n flags width Conversion.c.char (.int v :: args') out =
        (putAll n out (List.replicate (if width ≠ 0 then width - 1 else 0) ' ') >>= fun out =>
          put n out (Char.ofNat (v.1 % 256).toNat) >>= fun out => Except.ok (out, args')) := rfl
    rw [hconvert, hwidth]
    cases putAll n out (List.replicate (width - 1) ' ') with
    | error e => rfl
    | ok out => exact bind_map (putAll_singleton n out _)
  by_cases hs : conv = .s
  · obtain ⟨str, rfl, rfl⟩ := Conversion.text_str (hs ▸ h)
    rw [hs, List.leftpad, putAll_append, ← padding_eq]
    have hconvert : convert n flags width Conversion.s.char (.str str :: args') out =
        (putAll n out (List.replicate (padding width str.1.length) ' ') >>= fun out =>
          putAll n out str.1 >>= fun out => Except.ok (out, args')) := rfl
    rw [hconvert]
    cases putAll n out (List.replicate (padding width str.1.length) ' ') with
    | error e => rfl
    | ok out => exact bind_map rfl
  obtain ⟨v, rfl, rfl⟩ := Conversion.text_number hc hs h
  obtain ⟨hlow, hhigh⟩ := signed_bounds v
  cases conv with
  | i => exact putAll_number .i (itoa_eq hlow hhigh)
  | d => exact putAll_number .d (itoa_eq hlow hhigh)
  | b => exact putAll_number .b (utoa_eq (by decide) (by decide) _)
  | o => exact putAll_number .o (utoa_eq (by decide) (by decide) _)
  | u => exact putAll_number .u (utoa_eq (by decide) (by decide) _)
  | x => exact putAll_number .x (utoa_eq (by decide) (by decide) _)
  | c => exact absurd rfl hc
  | s => exact absurd rfl hs

/-- A directive writes the text of its piece. -/
theorem convert_eq {ch : Char} (h : (Piece.directive flags width ch).text args = some (text, args')) :
    convert n flags width ch args out = (putAll n out text).map fun out => (out, args') := by
  rw [Piece.text] at h
  cases hconv : Conversion.ofChar? ch with
  | some conv =>
      rw [hconv] at h
      have hfound := List.find?_some (p := fun conv : Conversion => decide (conv.char = ch)) hconv
      rw [← of_decide_eq_true hfound]
      exact convert_conversion conv h
  | none =>
      rw [hconv] at h
      obtain ⟨rfl, rfl⟩ := Prod.mk.inj (Option.some.inj h)
      have hother : ∀ conv ∈ [Conversion.i, .d, .b, .o, .u, .x, .c, .s], ch ≠ conv.char := by
        intro conv hmem hchar
        have hnone := List.find?_eq_none.mp hconv conv hmem
        exact hnone (decide_eq_true hchar.symm)
      simp only [List.forall_mem_cons, Conversion.char] at hother
      obtain ⟨hi, hd, hb, ho, hu, hx, hc, hs, -⟩ := hother
      unfold convert
      rw [if_neg (not_or.mpr ⟨hi, hd⟩), if_neg (by simp only [hb, ho, hu, hx, or_self,
        not_false_iff]), if_neg hc, if_neg hs]
      exact bind_map (putAll_singleton n out ch)

end Convert

section Width

/-- The digits at the beginning of a string spell an `int` with no more digits than were read,
also when the value wraps. -/
theorem atoiLoop_natAbs {num : Int} {k : Nat} (str : List Char) (hnum : num.natAbs < 10 ^ k)
    (hk : k ≤ 10) : ∃ j ≤ k + str.length, (atoiLoop num str).natAbs < 10 ^ j := by
  induction str generalizing num k with
  | nil => exact ⟨k, Nat.le_refl _, hnum⟩
  | cons c str ih =>
      rw [atoiLoop]
      split
      · rename_i hc
        have hdigit := Char.isDigit_iff_toNat.mp hc
        have hzero : '0'.toNat = 48 := rfl
        have hnine : '9'.toNat = 57 := rfl
        have hsmaller := int32_natAbs_le (num * 10 + c.toNat - 48)
        have hint := int32_bounds (num * 10 + c.toNat - 48)
        rw [List.length_cons]
        by_cases hten : k = 10
        · obtain ⟨j, hj, hvalue⟩ := @ih (int32 (num * 10 + c.toNat - 48)) 10 (by omega)
            (Nat.le_refl 10)
          exact ⟨j, by omega, hvalue⟩
        · have hnext : (int32 (num * 10 + c.toNat - 48)).natAbs < 10 ^ (k + 1) := by
            rw [Nat.pow_succ]
            omega
          obtain ⟨j, hj, hvalue⟩ := ih hnext (by omega)
          exact ⟨j, by omega, hvalue⟩
      · exact ⟨k, by omega, hnum⟩

theorem divisions_atoi_le {format : List Char} (hdigit : (format.headD '\x00').isDigit) :
    divisions (atoi format) ≤ format.length := by
  have hhead : format.head? ≠ some '-' := by
    intro hminus
    rw [List.headD_eq_head?_getD, hminus] at hdigit
    exact absurd hdigit (by decide)
  obtain ⟨j, hj, hvalue⟩ := @atoiLoop_natAbs 0 0 format (by decide) (by decide)
  rw [atoi, if_neg hhead, if_neg hhead, Int.one_mul]
  apply Nat.le_trans (divisions_le (Nat.lt_of_le_of_lt (int32_natAbs_le _) hvalue))
  omega

/-- Counting the digits of the width keeps the pointer inside the format. -/
theorem checkWidth_eq (format : List Char) : checkWidth format = .ok (fieldWidth format) := by
  rw [checkWidth, fieldWidth]
  split
  · rename_i hdigit
    have hinside : advance (divisions (atoi format)) format =
        .ok (format.drop (divisions (atoi format))) := if_pos (divisions_atoi_le hdigit)
    simp only [hinside]
    rfl
  · rfl

end Width

section Loop

variable {n : Nat} {format : List Char} {args args' : List Arg} {out text : List Char}

/-- One round writes the text of the piece at the pointer. -/
theorem printStep_eq {piece : Piece} {rest : Option (List Char)} (hne : format ≠ [])
    (hnext : nextPiece format = (piece, rest)) (htext : piece.text args = some (text, args')) :
    printStep n format args out =
      putAll n out text >>= fun out =>
        rest.elim (.error .overrun) fun rest => .ok (rest, args', out) := by
  have hpos := List.length_pos_iff.mpr hne
  rw [nextPiece] at hnext
  rw [printStep]
  by_cases hplain : format.headD '\x00' ≠ '%'
  · rw [if_pos hplain] at hnext ⊢
    cases hnext
    obtain ⟨rfl, rfl⟩ := Prod.mk.inj (Option.some.inj htext)
    rw [advance, if_pos (by omega), putAll_singleton]
    rfl
  · rw [if_neg hplain] at hnext ⊢
    simp only [checkWidth_eq]
    obtain ⟨hpiece, hrest⟩ := Prod.mk.inj hnext
    subst hpiece hrest
    generalize checkFlags (format.drop 1) = flags at htext ⊢
    generalize fieldWidth flags.2 = width at htext ⊢
    change (convert n flags.1 width.1 (width.2.headD '\x00') args out >>= fun written =>
      advance 1 width.2 >>= fun rest => .ok (rest, written.2, written.1)) = _
    rw [convert_eq htext]
    cases putAll n out text with
    | error e => rfl
    | ok out =>
        by_cases hcut : width.2 = []
        · rw [if_pos hcut, hcut]
          rfl
        · have hrest : 1 ≤ width.2.length := List.length_pos_iff.mpr hcut
          rw [if_neg hcut, advance, if_pos hrest]
          rfl

/-- A cut-off directive prints the terminator it runs into. -/
theorem nextPiece_cut {piece : Piece} (hnext : nextPiece format = (piece, none)) :
    piece.text args = some (['\x00'], args) := by
  rw [nextPiece] at hnext
  by_cases hplain : format.headD '\x00' ≠ '%'
  · rw [if_pos hplain] at hnext
    cases hnext
  · rw [if_neg hplain] at hnext
    obtain ⟨hpiece, hrest⟩ := Prod.mk.inj hnext
    subst hpiece
    generalize fieldWidth (checkFlags (format.drop 1)).2 = width at hrest ⊢
    by_cases hcut : width.2 = []
    · rw [hcut]
      rfl
    · rw [if_neg hcut] at hrest
      cases hrest

theorem vsnprintfLoop_step (hne : format ≠ []) :
    vsnprintfLoop n format args out =
      printStep n format args out >>= fun next => vsnprintfLoop n next.1 next.2.1 next.2.2 := by
  rw [vsnprintfLoop, dif_neg hne]
  split
  · rename_i hstep
    rw [hstep]
    rfl
  · rename_i hstep
    rw [hstep]
    rfl

/-- The loop writes the specified text as far as the buffer goes, and reads on behind a cut-off
directive if there is room left. -/
theorem vsnprintfLoop_eq {complete : Bool} (h : specified format args = some (text, complete))
    (hout : out.length ≤ n) :
    vsnprintfLoop n format args out =
      if n < out.length + text.length ∨ complete = false ∧ n ≤ out.length + text.length then
        .error (.full ((out ++ text).take n))
      else if complete then .ok (out ++ text) else .error .overrun := by
  fun_induction specified format args generalizing out text with
  | case1 args =>
      obtain ⟨rfl, rfl⟩ := Prod.mk.inj (Option.some.inj h)
      rw [vsnprintfLoop, dif_pos rfl, if_neg (by simp; omega), if_pos rfl, List.append_nil]
  | case2 format args hne piece hnext =>
      obtain ⟨rfl, rfl⟩ := Prod.mk.inj (Option.some.inj h)
      rw [vsnprintfLoop_step hne, printStep_eq hne hnext (nextPiece_cut hnext), putAll_singleton, put,
        List.append_nil, List.length_nil, Nat.add_zero]
      by_cases hfull : n ≤ out.length
      · rw [if_pos hfull, if_pos (Or.inr ⟨rfl, hfull⟩), List.take_of_length_le hout]
        rfl
      · rw [if_neg hfull, if_neg (by omega)]
        rfl
  | case3 format args hne piece rest hnext ih =>
      cases htext : piece.text args with
      | none =>
          rw [htext] at h
          cases h
      | some result =>
          obtain ⟨first, args'⟩ := result
          rw [htext] at h
          change (specified rest args' >>= fun more => some (first ++ more.1, more.2)) = _ at h
          cases hmore : specified rest args' with
          | none =>
              rw [hmore] at h
              cases h
          | some result =>
              obtain ⟨more, complete'⟩ := result
              rw [hmore] at h
              obtain ⟨rfl, rfl⟩ := Prod.mk.inj (Option.some.inj h)
              rw [vsnprintfLoop_step hne, printStep_eq hne hnext htext, putAll_eq hout,
                List.length_append, ← Nat.add_assoc, ← List.append_assoc]
              by_cases hfits : out.length + first.length ≤ n
              · rw [if_pos hfits]
                have hmoved := ih args' hmore (show (out ++ first).length ≤ n by
                  rw [List.length_append]
                  exact hfits)
                rw [List.length_append] at hmoved
                exact hmoved
              · have hcut : (out ++ first ++ more).take n = (out ++ first).take n :=
                  List.take_append_of_le_length (by rw [List.length_append]; omega)
                rw [if_neg hfits, if_pos (by omega), hcut]
                rfl

end Loop

/-- What a call makes of the text that its format specifies. -/
theorem vsnprintf_eq {format : CString} {args : List Arg} {text : List Char} {complete : Bool}
    (h : specified format.1 args = some (text, complete)) (n : Nat) :
    vsnprintf n format args =
      if n ≤ text.length then .returned (-1) (text.take n)
      else if complete then .returned (int32 (text.length + 1 : Nat)) (text ++ ['\x00'])
      else .overrun := by
  rw [vsnprintf, vsnprintfLoop_eq h (Nat.zero_le n), List.length_nil, Nat.zero_add, List.nil_append]
  by_cases hlong : n ≤ text.length
  · rw [if_pos hlong]
    by_cases hcut : n < text.length ∨ complete = false ∧ n ≤ text.length
    · rw [if_pos hcut]
      rfl
    · -- The text just fits, and its terminator does not.
      obtain ⟨hle, hends⟩ := not_or.mp hcut
      have hcomplete : complete = true := by
        by_contra hfalse
        exact hends ⟨Bool.not_eq_true _ ▸ hfalse, hlong⟩
      rw [if_neg hcut, if_pos hcomplete, List.take_of_length_le (by omega)]
      change printed (put n text '\x00') = _
      rw [put, if_pos hlong]
      rfl
  · rw [if_neg hlong, if_neg (by omega)]
    cases complete with
    | true =>
        change printed (put n text '\x00') = _
        rw [put, if_neg hlong, printed, List.length_append]
        rfl
    | false => rfl

/-- The parts of a well-formed format. -/
inductive Directive where
  | literal (ch : {ch : Char // ch ≠ '%' ∧ ch ≠ '\x00'})
  | percent
  | field (zero : Bool) (width : Option {w : Nat // 0 < w ∧ w < 2 ^ 31}) (conv : Conversion)

namespace Directive

/-- How the width is written. -/
def widthText (width : Option {w : Nat // 0 < w ∧ w < 2 ^ 31}) : List Char :=
  width.elim [] fun w => Nat.toDigits 10 w.1

def format : Directive → List Char
  | literal ch => [ch.1]
  | percent => ['%', '%']
  | field zero width conv =>
      '%' :: ((if zero then ['0'] else []) ++ (widthText width ++ [conv.char]))

/-- The text of a directive and the arguments behind its own. -/
def text : Directive → List Arg → Option (List Char × List Arg)
  | literal ch, args => some ([ch.1], args)
  | percent, args => some (['%'], args)
  | field zero width conv, args => conv.text zero (width.elim 0 fun w => w.1) args

end Directive

/-- The texts of the directives one after the other, each with the next arguments. -/
def formatText : List Directive → List Arg → Option (List Char)
  | [], _ => some []
  | d :: ds, args => do
      let (text, args) ← d.text args
      let more ← formatText ds args
      return text ++ more

theorem Directive.format_noNul (d : Directive) : '\x00' ∉ d.format := by
  cases d with
  | literal ch => exact fun hmem => ch.2.2 (List.mem_singleton.mp hmem).symm
  | percent => decide
  | field zero width conv =>
      have hwidth : '\x00' ∉ widthText width := by
        cases width with
        | none => exact List.not_mem_nil
        | some w =>
            intro hmem
            have hdigit := Nat.isDigit_of_mem_toDigits (by decide) (by decide) hmem
            exact absurd hdigit (by decide)
      have hconv : '\x00' ∉ [conv.char] := by
        cases conv <;> decide
      have hzero : '\x00' ∉ (if zero then ['0'] else []) := by
        cases zero <;> decide
      simp only [format, List.mem_cons, List.mem_append, not_or] at hconv ⊢
      exact ⟨by decide, hzero, hwidth, hconv⟩

/-- The format that the directives make up. -/
def formatString (ds : List Directive) : CString :=
  ⟨ds.flatMap Directive.format, fun hmem => by
    obtain ⟨d, -, hd⟩ := List.mem_flatMap.mp hmem
    exact d.format_noNul hd⟩

section Directives

variable {rest : List Char} {n : Nat}

theorem Conversion.char_ofChar? (conv : Conversion) : Conversion.ofChar? conv.char = some conv := by
  cases conv <;> rfl

theorem Conversion.char_not_digit (conv : Conversion) : ¬ conv.char.isDigit := by
  cases conv <;> decide

theorem checkFlags_of_ne {ch : Char} (hch : ch ≠ '0') : checkFlags (ch :: rest) = (0, ch :: rest) := by
  unfold checkFlags
  split
  · rename_i heq
    exact absurd (List.cons.inj heq).1 hch
  · rfl

theorem fieldWidth_of_not_digit {ch : Char} (hch : ¬ ch.isDigit) :
    fieldWidth (ch :: rest) = (0, ch :: rest) := if_neg hch

/-- A number starts with a digit other than 0. -/
theorem toDigits_head (hn : 0 < n) :
    ∃ ch cs, Nat.toDigits 10 n = ch :: cs ∧ ch.isDigit ∧ ch ≠ '0' := by
  induction n using Nat.strong_induction_on with
  | _ n ih =>
      by_cases hlt : n < 10
      · refine ⟨n.digitChar, [], Nat.toDigits_of_lt_base hlt, ?_⟩
        interval_cases n <;> decide
      · obtain ⟨ch, cs, hdigits, hch⟩ := ih (n / 10) (by omega) (by omega)
        refine ⟨ch, cs ++ [(n % 10).digitChar], ?_, hch⟩
        rw [Nat.toDigits_of_base_le (by decide) (by omega), hdigits, List.cons_append]

/-- The width is read back, and the pointer moves behind its digits. -/
theorem fieldWidth_digits (hn : 0 < n) (hint : n < 2 ^ 31) {ch : Char} (hch : ¬ ch.isDigit) :
    fieldWidth (Nat.toDigits 10 n ++ ch :: rest) = (n, ch :: rest) := by
  obtain ⟨first, cs, hdigits, hfirst, -⟩ := toDigits_head hn
  have hvalue : atoi (Nat.toDigits 10 n ++ ch :: rest) = n := by
    apply atoi_toDigits hint
    intro other hother
    rw [← Option.some.inj hother]
    exact hch
  have hhead : ((Nat.toDigits 10 n ++ ch :: rest).headD '\x00').isDigit := by
    rw [hdigits]
    exact hfirst
  have hword : ((n : Int) % 2 ^ 64).toNat = n := by omega
  rw [fieldWidth, if_pos hhead, hvalue, hword, divisions_eq hn, List.drop_left]

/-- The flag and the width of a directive are parsed as they were written. -/
theorem fieldWidth_checkFlags (zero : Bool) (width : Option {w : Nat // 0 < w ∧ w < 2 ^ 31})
    (rest : List Char) {ch : Char} (hch : ¬ ch.isDigit) :
    (checkFlags ((if zero then ['0'] else []) ++ (Directive.widthText width ++ ch :: rest))).1 =
        (if zero then 1 else 0) ∧
      fieldWidth (checkFlags ((if zero then ['0'] else []) ++
          (Directive.widthText width ++ ch :: rest))).2 =
        (width.elim 0 fun w => w.1, ch :: rest) := by
  have hflags : checkFlags ((if zero then ['0'] else []) ++
      (Directive.widthText width ++ ch :: rest)) =
        (if zero then 1 else 0, Directive.widthText width ++ ch :: rest) := by
    cases zero with
    | true => rfl
    | false =>
        cases width with
        | none => exact checkFlags_of_ne fun hzero => hch (by rw [hzero]; decide)
        | some w =>
            obtain ⟨first, cs, hdigits, -, hfirst⟩ := toDigits_head w.2.1
            change checkFlags (Nat.toDigits 10 w.1 ++ ch :: rest) =
              (0, Nat.toDigits 10 w.1 ++ ch :: rest)
            rw [hdigits]
            exact checkFlags_of_ne hfirst
  rw [hflags]
  refine ⟨rfl, ?_⟩
  cases width with
  | none => exact fieldWidth_of_not_digit hch
  | some w => exact fieldWidth_digits w.2.1 w.2.2 hch

/-- A directive at the pointer is a piece of its own, with the directive's text. -/
theorem nextPiece_directive (d : Directive) (rest : List Char) :
    ∃ piece, nextPiece (d.format ++ rest) = (piece, some rest) ∧ piece.text = d.text := by
  cases d with
  | literal ch =>
      refine ⟨.plain ch.1, ?_, rfl⟩
      exact if_pos ch.2.1
  | percent => exact ⟨.directive 0 0 '%', rfl, rfl⟩
  | field zero width conv =>
      obtain ⟨hflags, hwidth⟩ := fieldWidth_checkFlags zero width rest conv.char_not_digit
      refine ⟨.directive (if zero then 1 else 0) (width.elim 0 fun w => w.1) conv.char, ?_, ?_⟩
      · have hformat : (Directive.field zero width conv).format ++ rest =
            '%' :: ((if zero then ['0'] else []) ++ (Directive.widthText width ++ conv.char :: rest)) := by
          simp [Directive.format]
        rw [hformat, nextPiece, if_neg (by simp)]
        simp only [List.drop_succ_cons, List.drop_zero, hflags, hwidth]
        rfl
      · funext args
        rw [Piece.text, conv.char_ofChar?]
        cases zero <;> rfl

theorem specified_step {format : List Char} {args : List Arg} {piece : Piece} (hne : format ≠ [])
    (hnext : nextPiece format = (piece, some rest)) :
    specified format args = piece.text args >>= fun first =>
      specified rest first.2 >>= fun more => some (first.1 ++ more.1, more.2) := by
  rw [specified, dif_neg hne]
  split
  · rename_i hcut
    rw [hcut] at hnext
    cases hnext
  · rename_i hpiece
    rw [hpiece] at hnext
    cases hnext
    rfl

/-- A well-formed format specifies the texts of its directives. -/
theorem specified_formatString {ds : List Directive} {args : List Arg} {text : List Char}
    (h : formatText ds args = some text) :
    specified (formatString ds).1 args = some (text, true) := by
  change specified (ds.flatMap Directive.format) args = _
  induction ds generalizing args text with
  | nil =>
      cases h
      rw [List.flatMap_nil, specified, dif_pos rfl]
  | cons d ds ih =>
      obtain ⟨piece, hnext, htext⟩ := nextPiece_directive d (ds.flatMap Directive.format)
      have hne : d.format ++ ds.flatMap Directive.format ≠ [] := by
        cases d <;> simp [Directive.format]
      rw [formatText] at h
      obtain ⟨⟨first, args'⟩, hfirst, h⟩ := Option.bind_eq_some_iff.mp h
      obtain ⟨more, hmore, h⟩ := Option.bind_eq_some_iff.mp h
      cases h
      rw [List.flatMap_cons, specified_step hne hnext, htext, hfirst]
      change (specified (ds.flatMap Directive.format) args' >>= fun more =>
        some (first ++ more.1, more.2)) = _
      rw [ih hmore]
      rfl

end Directives

/-- The character at an index of the buffer after the call. -/
def stored (mem : Nat → Char) (out : List Char) (i : Nat) : Char := out.getD i (mem i)

/-- The call stays inside its format, and leaves a terminated string however it returns. -/
def LeavesString (n : Nat) (format : CString) (args : List Arg) (mem : Nat → Char) : Prop :=
  ∃ ret out, vsnprintf n format args = .returned ret out ∧ ∃ i < n, stored mem out i = '\x00'

section Robust

variable {n : Nat} {format : CString} {args : List Arg} {text : List Char} {mem : Nat → Char}

/-- A buffer that was filled holds a terminator only if the text does. -/
theorem exists_stored_take (mem : Nat → Char) (hlong : n ≤ text.length) :
    (∃ i < n, stored mem (text.take n) i = '\x00') ↔ '\x00' ∈ text.take n := by
  have hlen : (text.take n).length = n := by
    rw [List.length_take]
    omega
  rw [List.mem_iff_getElem]
  constructor
  · rintro ⟨i, hi, hnul⟩
    rw [stored, List.getD_eq_getElem _ _ (by omega)] at hnul
    exact ⟨i, by omega, hnul⟩
  · rintro ⟨i, hi, hnul⟩
    refine ⟨i, by omega, ?_⟩
    rw [stored, List.getD_eq_getElem _ _ hi]
    exact hnul

/-- A whole format leaves a string exactly if its text and the terminator fit, or the part that
fits has a NUL from an argument in it. A format that ends inside a directive is read behind its
end unless the buffer is full before. -/
theorem vsnprintf_leaves_string_iff {complete : Bool}
    (h : specified format.1 args = some (text, complete)) (n : Nat) (mem : Nat → Char) :
    LeavesString n format args mem ↔
      if complete then text.length < n ∨ '\x00' ∈ text.take n
      else n ≤ text.length ∧ '\x00' ∈ text.take n := by
  rw [LeavesString, vsnprintf_eq h]
  by_cases hlong : n ≤ text.length
  · have hreturned : (∃ ret out, Printed.returned (-1) (text.take n) = .returned ret out ∧
        ∃ i < n, stored mem out i = '\x00') ↔ '\x00' ∈ text.take n := by
      rw [← exists_stored_take mem hlong]
      constructor
      · rintro ⟨ret, out, hout, hnul⟩
        cases hout
        exact hnul
      · intro hnul
        exact ⟨_, _, rfl, hnul⟩
    rw [if_pos hlong, hreturned]
    cases complete with
    | true =>
        rw [if_pos rfl]
        constructor
        · exact Or.inr
        · rintro (hshort | hnul)
          · omega
          · exact hnul
    | false =>
        rw [if_neg Bool.false_ne_true]
        exact ⟨fun hnul => ⟨hlong, hnul⟩, And.right⟩
  · rw [if_neg hlong]
    cases complete with
    | true =>
        rw [if_pos rfl, if_pos rfl]
        refine iff_of_true ⟨_, _, rfl, text.length, by omega, ?_⟩ (Or.inl (by omega))
        rw [stored, List.getD_eq_getElem _ _ (by simp)]
        simp
    | false =>
        rw [if_neg Bool.false_ne_true, if_neg Bool.false_ne_true]
        apply iff_of_false
        · rintro ⟨ret, out, hout, -⟩
          cases hout
        · exact fun hfull => hlong hfull.1

end Robust

/-- `<%5d>` with minus 42 takes the eight characters of the buffer: two blanks are put in front of the
number, and the terminator is the last. -/
theorem vsnprintf_leaves_field :
    LeavesString 8 (formatString [.literal ⟨'<', by decide⟩, .field false (some ⟨5, by decide⟩) .d,
        .literal ⟨'>', by decide⟩])
      [.word (UInt64.ofNat (2 ^ 64 - 42))] fun _ => 'z' := by
  have htext : formatText [.literal ⟨'<', by decide⟩, .field false (some ⟨5, by decide⟩) .d,
      .literal ⟨'>', by decide⟩] [.word (UInt64.ofNat (2 ^ 64 - 42))] =
        some ['<', ' ', ' ', '-', '4', '2', '>'] := by
    decide
  rw [vsnprintf_leaves_string_iff (specified_formatString htext), if_pos rfl]
  exact Or.inl (by decide)

/-- Two letters leave no room for the terminator, and a lone percent sign is read behind. -/
theorem vsnprintf_leaves_no_string :
    ¬ LeavesString 2 ⟨['a', 'b'], by decide⟩ [] (fun _ => 'z') ∧
      vsnprintf 8 ⟨['%'], by decide⟩ [] = .overrun := by
  have hletters : specified ['a', 'b'] [] = some (['a', 'b'], true) := by
    simp [specified, nextPiece, Piece.text]
  have hpercent : specified ['%'] [] = some ([], false) := by
    simp [specified, nextPiece, checkFlags, fieldWidth]
  constructor
  · rintro ⟨ret, out, hout, i, hi, hnul⟩
    rw [vsnprintf_eq hletters, if_pos (by decide)] at hout
    cases hout
    interval_cases i
    · exact absurd hnul (by decide)
    · exact absurd hnul (by decide)
  · rw [vsnprintf_eq hpercent, if_neg (by decide), if_neg (by decide)]

/-- Formatted output meets its specification: the text and its terminator are written if they
fit and counted, otherwise the call fails, and it never writes behind the buffer. -/
theorem vsnprintf_meets_spec {ds : List Directive} {args : List Arg} {text : List Char}
    (h : formatText ds args = some text) {n : Nat} (hn : n < 2 ^ 31) :
    ∃ ret out, vsnprintf n (formatString ds) args = .returned ret out ∧ out.length ≤ n ∧
      if text.length + 1 ≤ n then ret = text.length + 1 ∧ out = text ++ ['\x00'] else ret = -1 := by
  rw [vsnprintf_eq (specified_formatString h)]
  by_cases hlong : n ≤ text.length
  · rw [if_pos hlong]
    refine ⟨_, _, rfl, List.length_take_le n text, ?_⟩
    rw [if_neg (by omega)]
  · rw [if_neg hlong, if_pos rfl, int32_of_lt (by omega) (by omega)]
    refine ⟨_, _, rfl, by rw [List.length_append, List.length_singleton]; omega, ?_⟩
    rw [if_pos (by omega)]
    exact ⟨Nat.cast_succ _, rfl⟩

/-- `%05d` with minus three: the zeros stand in front of the sign. -/
theorem vsnprintf_meets_spec_minus_three :
    ∃ ret out, vsnprintf 8 (formatString [.field true (some ⟨5, by decide⟩) .d])
        [.word (UInt64.ofNat (2 ^ 64 - 3))] = .returned ret out ∧ out.length ≤ 8 ∧
      if ['0', '0', '0', '-', '3'].length + 1 ≤ 8 then
        ret = ((['0', '0', '0', '-', '3'] : List Char).length : Int) + 1 ∧
          out = ['0', '0', '0', '-', '3'] ++ ['\x00']
      else ret = -1 :=
  vsnprintf_meets_spec (by decide) (by decide)

end Tellurium.Flibc
