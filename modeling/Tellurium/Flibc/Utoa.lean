import Tellurium.Flibc.Stdlib
import Tellurium.Lib.Buffer
import Mathlib.Data.List.GetD
import Mathlib.Data.Nat.Digits.Lemmas

/-!
`__utoa` and `__itoa` (`flibc/string.c`) in the buffer of their caller: the digits are stored from
the last one on and then swapped in place. What they leave there is the text that `utoa` and
`itoa` name, so these two stand for the calls wherever a caller reads its buffer.
-/

namespace Tellurium.Flibc

open Tellurium.Lib

theorem two_le_of_bounds {base : Nat} (h : 2 ≤ base ∧ base ≤ 36) : 2 ≤ base := h.1

/-- The `do` loop: the buffer and the index behind the last digit. -/
def utoaDigits (base : Nat) (hbase : 2 ≤ base) (value : Nat) (mem : Nat → Char) (i : Nat) :
    (Nat → Char) × Nat :=
  let mem := Function.update mem i (digits.getD (value % base) '0')
  if _more : value / base ≠ 0 then utoaDigits base hbase (value / base) mem (i + 1) else (mem, i + 1)
termination_by value
decreasing_by
  have hvalue : 0 < value := Nat.pos_of_ne_zero fun hzero => _more (by rw [hzero, Nat.zero_div])
  exact Nat.div_lt_self hvalue hbase

/-- The result is a pointer, and the buffer after the call. -/
def utoaAt (value base : Nat) (mem : Nat → Char) (str : Nat) : Option Nat × (Nat → Char) :=
  if h : 2 ≤ base ∧ base ≤ 36 then
    let (mem, i) := utoaDigits base (two_le_of_bounds h) value mem str
    let mem := Function.update mem i '\x00'
    (some str, swapLoop mem str (i - 1))
  else (none, Function.update mem str '\x00')

/-- The sign is stored in front of what the result points to. -/
def itoaAt (value : Int) (mem : Nat → Char) (str : Nat) : Option Nat × (Nat → Char) :=
  if value < 0 then
    utoaAt (Int.bmod (-value) (2 ^ 64) % 2 ^ 64).toNat 10 (Function.update mem str '-') (str + 1)
  else utoaAt (value % 2 ^ 64).toNat 10 mem str

section Storing

variable {base : Nat}

theorem utoaDigits_eq (hbase : 2 ≤ base) (value : Nat) (mem : Nat → Char) (i : Nat) :
    utoaDigits base hbase value mem i =
      (storeList mem i (utoaLoop base hbase value), i + (utoaLoop base hbase value).length) := by
  induction value using Nat.strong_induction_on generalizing mem i with
  | _ value ih =>
      rw [utoaDigits, utoaLoop]
      by_cases hmore : value / base ≠ 0
      · have hvalue : 0 < value := Nat.pos_of_ne_zero fun hzero => hmore (by rw [hzero, Nat.zero_div])
        rw [dif_pos hmore, dif_pos hmore, ih _ (Nat.div_lt_self hvalue hbase), storeList,
          List.length_cons, Nat.add_assoc, Nat.add_comm 1]
      · rw [dif_neg hmore, dif_neg hmore]
        rfl

theorem utoaLoop_ne_nil (hbase : 2 ≤ base) (value : Nat) : utoaLoop base hbase value ≠ [] := by
  rw [utoaLoop]
  exact List.cons_ne_nil _ _

/-- The buffer ends up with the text and its terminator. -/
theorem utoaAt_eq (hbase : 2 ≤ base) (hlarge : base ≤ 36) (value : Nat) (mem : Nat → Char)
    (str : Nat) :
    utoaAt value base mem str = (some str, storeList mem str (utoa value base ++ ['\x00'])) := by
  have hbounds : 2 ≤ base ∧ base ≤ 36 := ⟨hbase, hlarge⟩
  rw [utoaAt, dif_pos hbounds, utoa, dif_pos hbounds, utoaDigits_eq]
  have hend : Function.update (storeList mem str (utoaLoop base hbase value))
      (str + (utoaLoop base hbase value).length) '\x00' =
      storeList mem str (utoaLoop base hbase value ++ ['\x00']) := by
    rw [storeList_append]
    rfl
  simp only [hend]
  rw [swapLoop_storeList mem str (utoaLoop_ne_nil hbase value)]

theorem itoaAt_eq (value : Int) (mem : Nat → Char) (str : Nat) :
    itoaAt value mem str =
      (some (if value < 0 then str + 1 else str), storeList mem str (itoa value ++ ['\x00'])) := by
  rw [itoaAt, itoa]
  split
  · rw [utoaAt_eq (by decide) (by decide)]
    rfl
  · rw [utoaAt_eq (by decide) (by decide)]

end Storing

/-- The number that a digit stands for. -/
def digitValue (c : Char) : Nat := digits.idxOf c

/-- The text is a numeral of the base for the number, as short as can be. -/
structure Numeral (base : Nat) (text : List Char) (value : Nat) : Prop where
  nonempty : text ≠ []
  length : text.length ≤ 64
  digit : ∀ c ∈ text, c ∈ digits.take base
  leading : text.head? = some '0' → text = ['0']
  value : Nat.ofDigits base (text.reverse.map digitValue) = value

section Numerals

variable {base value : Nat}

theorem digit_facts {d : Nat} (hd : d < 36) :
    digitValue (digits.getD d '0') = d ∧ (digits.getD d '0' = '0' → d = 0) := by
  have hall : ∀ d : Fin 36, digitValue (digits.getD d '0') = d ∧
      (digits.getD d '0' = '0' → d = 0) := by decide +kernel
  obtain ⟨hvalue, hzero⟩ := hall ⟨d, hd⟩
  exact ⟨hvalue, fun hdigit => congrArg Fin.val (hzero hdigit)⟩

theorem digit_mem {d : Nat} (hd : d < base) (hbase : base ≤ 36) :
    digits.getD d '0' ∈ digits.take base := by
  have hlength : digits.length = 36 := by decide +kernel
  have hlt : d < (digits.take base).length := by
    rw [List.length_take]
    omega
  have heq : digits.getD d '0' = (digits.take base).get ⟨d, hlt⟩ := by
    rw [List.getD_eq_getElem _ _ (by omega)]
    exact (List.getElem_take).symm
  rw [heq]
  exact List.get_mem _ _

/-- The loop makes the digits of the number, the last one first. -/
theorem utoaLoop_digits (hbase : 2 ≤ base) (hvalue : value ≠ 0) :
    utoaLoop base hbase value = (Nat.digits base value).map fun d => digits.getD d '0' := by
  induction value using Nat.strong_induction_on with
  | _ value ih =>
      have hpos := Nat.pos_of_ne_zero hvalue
      rw [utoaLoop, Nat.digits_def' hbase hpos, List.map_cons]
      by_cases hmore : value / base ≠ 0
      · rw [dif_pos hmore, ih _ (Nat.div_lt_self hpos hbase) hmore]
      · rw [dif_neg hmore, not_not.mp hmore, Nat.digits_zero]
        rfl

theorem utoaLoop_zero (hbase : 2 ≤ base) : utoaLoop base hbase 0 = ['0'] := by
  rw [utoaLoop, Nat.zero_div, dif_neg (not_not.mpr rfl), Nat.zero_mod]
  rfl

theorem numeral_zero (hbase : 2 ≤ base) (hlarge : base ≤ 36) : Numeral base ['0'] 0 := by
  constructor
  case nonempty => exact List.cons_ne_nil _ _
  case length => decide
  case digit =>
    rw [List.forall_mem_singleton]
    exact digit_mem (show 0 < base by omega) hlarge
  case leading => exact fun _ => rfl
  case value =>
    change Nat.ofDigits base [digitValue (digits.getD 0 '0')] = 0
    rw [(digit_facts (by decide)).1, Nat.ofDigits_singleton]

theorem numeral_utoa (hbase : 2 ≤ base) (hlarge : base ≤ 36) (hvalue : value < 2 ^ 64) :
    Numeral base (utoa value base) value := by
  rw [utoa, dif_pos ⟨hbase, hlarge⟩]
  by_cases hzero : value = 0
  · rw [hzero, utoaLoop_zero]
    exact numeral_zero hbase hlarge
  · have hdigits : ∀ d ∈ Nat.digits base value, d < base := fun d hd => Nat.digits_lt_base hbase hd
    rw [utoaLoop_digits hbase hzero]
    constructor
    case nonempty => simpa using Nat.digits_ne_nil_iff_ne_zero.mpr hzero
    case length =>
      rw [List.length_reverse, List.length_map, Nat.digits_length_le_iff hbase]
      exact Nat.lt_of_lt_of_le hvalue (Nat.pow_le_pow_left hbase 64)
    case digit =>
      intro c hc
      obtain ⟨d, hd, rfl⟩ := List.mem_map.mp (List.mem_reverse.mp hc)
      exact digit_mem (hdigits d hd) hlarge
    case leading =>
      -- The leading digit is the last one of the loop, and that is not 0.
      intro hhead
      rw [List.head?_reverse, List.getLast?_map,
        List.getLast?_eq_getLast_of_ne_nil (Nat.digits_ne_nil_iff_ne_zero.mpr hzero)] at hhead
      have hlast := (digit_facts (Nat.lt_of_lt_of_le (hdigits _ (List.getLast_mem _)) hlarge)).2
        (Option.some.inj hhead)
      exact absurd hlast (Nat.getLast_digit_ne_zero base hzero)
    case value =>
      rw [List.reverse_reverse, List.map_map]
      have hvalues : (Nat.digits base value).map (digitValue ∘ fun d => digits.getD d '0') =
          Nat.digits base value := by
        refine (List.map_congr_left fun d hd => ?_).trans (List.map_id _)
        exact (digit_facts (Nat.lt_of_lt_of_le (hdigits d hd) hlarge)).1
      rw [hvalues, Nat.ofDigits_digits]

theorem itoa_sign {value : Int} (hlow : -2 ^ 63 ≤ value) (hhigh : value < 2 ^ 63) :
    itoa value = if value < 0 then '-' :: utoa value.natAbs 10 else utoa value.natAbs 10 := by
  rw [itoa_eq hlow hhigh, utoa_eq (by decide) (by decide)]

/-- What `__utoa` and `__itoa` leave in the buffer. -/
theorem stored_numerals {number : Int} (hbase : 2 ≤ base) (hlarge : base ≤ 36)
    (hvalue : value < 2 ^ 64) (hlow : -2 ^ 63 ≤ number) (hhigh : number < 2 ^ 63)
    (mem : Nat → Char) (str : Nat) :
    (∃ text, utoaAt value base mem str = (some str, storeList mem str (text ++ ['\x00'])) ∧
        Numeral base text value) ∧
      ∃ text, (itoaAt number mem str).2 =
          storeList mem str ((if number < 0 then '-' :: text else text) ++ ['\x00']) ∧
        Numeral 10 text number.natAbs := by
  refine ⟨⟨_, utoaAt_eq hbase hlarge value mem str, numeral_utoa hbase hlarge hvalue⟩,
    utoa number.natAbs 10, ?_, ?_⟩
  · rw [itoaAt_eq, itoa_sign hlow hhigh]
  · exact numeral_utoa (by decide) (by decide) (by omega)

end Numerals

/-- The string at `p`: the characters in front of the first terminator. -/
structure StringAt (mem : Nat → Char) (p : Nat) (text : List Char) : Prop where
  stored : ∀ i c, text[i]? = some c → mem (p + i) = c
  inside : '\x00' ∉ text
  ended : mem (p + text.length) = '\x00'

section Strings

variable {mem : Nat → Char} {p : Nat} {text text' : List Char}

theorem StringAt.length_le (h : StringAt mem p text) (h' : StringAt mem p text') :
    text.length ≤ text'.length := by
  by_contra hlonger
  have hget := List.getElem?_eq_getElem (show text'.length < text.length by omega)
  have hnul := (h.stored _ _ hget).symm.trans h'.ended
  exact h.inside (hnul ▸ List.getElem_mem _)

/-- One place holds one string. -/
theorem StringAt.unique (h : StringAt mem p text) (h' : StringAt mem p text') : text = text' := by
  refine List.ext_getElem (Nat.le_antisymm (h.length_le h') (h'.length_le h)) fun i hi hi' => ?_
  have hleft := h.stored i _ (List.getElem?_eq_getElem hi)
  exact hleft.symm.trans (h'.stored i _ (List.getElem?_eq_getElem hi'))

theorem stringAt_storeList (mem : Nat → Char) (p : Nat) {front text : List Char}
    (hinside : '\x00' ∉ text) :
    StringAt (storeList mem p (front ++ text ++ ['\x00'])) (p + front.length) text := by
  constructor
  case stored =>
    intro i c hc
    rw [Nat.add_assoc]
    apply storeList_in
    have hi := (List.getElem?_eq_some_iff.mp hc).1
    rw [List.append_assoc, List.getElem?_append_right (by omega), Nat.add_sub_cancel_left,
      List.getElem?_append_left hi, hc]
  case inside => exact hinside
  case ended =>
    rw [Nat.add_assoc]
    apply storeList_in
    rw [List.append_assoc, List.getElem?_append_right (by omega), Nat.add_sub_cancel_left,
      List.getElem?_append_right (by omega), Nat.sub_self]
    rfl

theorem Numeral.nul_notMem {base value : Nat} (h : Numeral base text value) : '\x00' ∉ text := by
  intro hnul
  have hdigit : '\x00' ∈ digits := List.mem_of_mem_take (h.digit _ hnul)
  exact absurd hdigit (by decide +kernel)

end Strings

/-- `__atoi` on the result of `__itoa` answers the number. -/
def ReadsBack (number : Int) (mem : Nat → Char) (str : Nat) : Prop :=
  ∃ p text, (itoaAt number mem str).1 = some p ∧ StringAt (itoaAt number mem str).2 p text ∧
    atoi text = number

/-- Both numbers are stored as they are written, and a small one can be read back. -/
structure Rendered (base value : Nat) (number : Int) (mem : Nat → Char) (str : Nat) : Prop where
  utoa : ∃ text, utoaAt value base mem str = (some str, storeList mem str (text ++ ['\x00'])) ∧
    Numeral base text value
  itoa : ∃ text, (itoaAt number mem str).2 =
      storeList mem str ((if number < 0 then '-' :: text else text) ++ ['\x00']) ∧
    Numeral 10 text number.natAbs
  round_trip : number.natAbs < 2 ^ 31 → ReadsBack number mem str

section RoundTrip

variable {number : Int}

/-- The result of `__itoa` points to the numeral without its sign. -/
theorem itoaAt_result (hlow : -2 ^ 63 ≤ number) (hhigh : number < 2 ^ 63) (mem : Nat → Char)
    (str : Nat) :
    ∃ p, (itoaAt number mem str).1 = some p ∧
      StringAt (itoaAt number mem str).2 p (utoa number.natAbs 10) := by
  have hnumeral : Numeral 10 (utoa number.natAbs 10) number.natAbs :=
    numeral_utoa (by decide) (by decide) (by omega)
  have hinside := hnumeral.nul_notMem
  rw [itoaAt_eq, itoa_sign hlow hhigh]
  by_cases hneg : number < 0
  · rw [if_pos hneg, if_pos hneg]
    exact ⟨str + 1, rfl, @stringAt_storeList mem str ['-'] _ hinside⟩
  · rw [if_neg hneg, if_neg hneg]
    exact ⟨str, rfl, @stringAt_storeList mem str [] _ hinside⟩

theorem atoi_utoa {n : Nat} (hn : n < 2 ^ 31) : atoi (utoa n 10) = n := by
  have hread := @atoi_toDigits _ hn [] (by simp)
  rwa [List.append_nil, ← utoa_eq (by decide) (by decide)] at hread

/-- Behind the sign stands the absolute value. -/
theorem readsBack_iff (hsmall : number.natAbs < 2 ^ 31) (mem : Nat → Char) (str : Nat) :
    ReadsBack number mem str ↔ 0 ≤ number := by
  have hlow : -2 ^ 63 ≤ number := by omega
  have hhigh : number < 2 ^ 63 := by omega
  obtain ⟨p, hp, hstring⟩ := itoaAt_result hlow hhigh mem str
  have hread := atoi_utoa hsmall
  constructor
  · rintro ⟨p', text, hp', htext, hatoi⟩
    cases Option.some.inj (hp.symm.trans hp')
    rw [htext.unique hstring, hread] at hatoi
    omega
  · intro hnonneg
    exact ⟨p, _, hp, hstring, by omega⟩

end RoundTrip

/-- Only a negative number of the range of `int` is not read back. -/
theorem numbers_rendered_iff {base value : Nat} {number : Int} (hbase : 2 ≤ base)
    (hlarge : base ≤ 36) (hvalue : value < 2 ^ 64) (hlow : -2 ^ 63 ≤ number)
    (hhigh : number < 2 ^ 63) (mem : Nat → Char) (str : Nat) :
    Rendered base value number mem str ↔ 0 ≤ number ∨ 2 ^ 31 ≤ number.natAbs := by
  obtain ⟨hutoa, hitoa⟩ := stored_numerals hbase hlarge hvalue hlow hhigh mem str
  constructor
  · intro h
    by_cases hsmall : number.natAbs < 2 ^ 31
    · exact Or.inl ((readsBack_iff hsmall mem str).mp (h.round_trip hsmall))
    · exact Or.inr (Nat.not_lt.mp hsmall)
  · intro h
    refine ⟨hutoa, hitoa, fun hsmall => (readsBack_iff hsmall mem str).mpr ?_⟩
    exact h.resolve_right (Nat.not_le.mpr hsmall)

/-- A number in base 36, and the least `int64_t`. -/
theorem numbers_rendered_minimum :
    Rendered 36 255 (-2 ^ 63) (fun _ => 'z') 3 ∧ Rendered 36 255 300 (fun _ => 'z') 3 :=
  ⟨(numbers_rendered_iff (by decide) (by decide) (by decide) (by decide) (by decide) _ 3).mpr
      (Or.inr (by decide)),
    (numbers_rendered_iff (by decide) (by decide) (by decide) (by decide) (by decide) _ 3).mpr
      (Or.inl (by decide))⟩

/-- Minus three hundred is read back without its sign. -/
theorem result_behind_sign :
    (itoaAt (-300) (fun _ => 'z') 3).1 = some 4 ∧
      ¬ ReadsBack (-300) (fun _ => 'z') 3 ∧ ¬ Rendered 10 0 (-300) (fun _ => 'z') 3 := by
  have hlost : ¬ ReadsBack (-300) (fun _ => 'z') 3 := by
    rw [readsBack_iff (by decide)]
    decide
  refine ⟨?_, hlost, fun h => hlost (h.round_trip (by decide))⟩
  rw [itoaAt_eq]
  rfl

end Tellurium.Flibc
