import Tellurium.Lib.Int32
import Mathlib.Data.List.Basic
import Mathlib.Tactic.IntervalCases

/-!
Numbers and their digits (`flibc/stdlib.c`, and `__utoa` and `__itoa` of `flibc/string.c`). A
string is the list of its characters before the terminator. Several callers find out how many
digits a number has by dividing it down to 0; `getNumDigits` of libTellur counts one for 0.
-/

namespace Tellurium.Flibc

open Tellurium.Lib

/-- The loop of `__atoi`. -/
def atoiLoop (num : Int) : List Char → Int
  | [] => num
  | c :: str => if c.isDigit then atoiLoop (int32 (num * 10 + c.toNat - 48)) str else num

def atoi (str : List Char) : Int :=
  let sign : Int := if str.head? = some '-' then -1 else 1
  let str := if str.head? = some '-' then str.tail else str
  int32 (sign * atoiLoop 0 str)

/-- How often a number can be divided by ten until it is 0. -/
def divisions (num : Int) : Nat :=
  if num = 0 then 0 else divisions (num.tdiv 10) + 1
termination_by num.natAbs
decreasing_by
  rw [Int.natAbs_tdiv]
  exact Nat.div_lt_self (by omega) (by decide)

def digits : List Char := "0123456789abcdefghijklmnopqrstuvwxyz".toList

/-- The digits, the last one first. -/
def utoaLoop (base : Nat) (hbase : 2 ≤ base) (value : Nat) : List Char :=
  digits.getD (value % base) '0' ::
    if _more : value / base ≠ 0 then utoaLoop base hbase (value / base) else []
termination_by value
decreasing_by
  have hvalue : 0 < value := Nat.pos_of_ne_zero fun hzero => _more (by rw [hzero, Nat.zero_div])
  exact Nat.div_lt_self hvalue hbase

def utoa (value base : Nat) : List Char :=
  if h : 2 ≤ base ∧ base ≤ 36 then (utoaLoop base h.1 value).reverse else []

/-- The number is an `int64_t`; its negative is passed on as an `uint64_t`. -/
def itoa (value : Int) : List Char :=
  if value < 0 then '-' :: utoa (Int.bmod (-value) (2 ^ 64) % 2 ^ 64).toNat 10
  else utoa (value % 2 ^ 64).toNat 10

section Digits

variable {n : Nat}

theorem digits_getD {r : Nat} (hr : r < 16) : digits.getD r '0' = r.digitChar := by
  interval_cases r <;> rfl

theorem utoaLoop_reverse {base : Nat} (hbase : 2 ≤ base) (hlarge : base ≤ 16) (value : Nat) :
    (utoaLoop base hbase value).reverse = Nat.toDigits base value := by
  induction value using Nat.strong_induction_on with
  | _ value ih =>
      have hdigit : digits.getD (value % base) '0' = (value % base).digitChar :=
        digits_getD (Nat.lt_of_lt_of_le (Nat.mod_lt _ (by omega)) hlarge)
      rw [utoaLoop, hdigit, List.reverse_cons]
      by_cases hlt : value < base
      · rw [dif_neg (not_not.mpr (Nat.div_eq_of_lt hlt)), Nat.mod_eq_of_lt hlt,
          Nat.toDigits_of_lt_base hlt]
        rfl
      · have hge := Nat.not_lt.mp hlt
        have hmore : value / base ≠ 0 := Nat.ne_of_gt (Nat.div_pos hge (by omega))
        rw [dif_pos hmore, ih _ (Nat.div_lt_self (by omega) hbase),
          Nat.toDigits_of_base_le (by omega) hge]

theorem utoa_eq {base : Nat} (hbase : 2 ≤ base) (hlarge : base ≤ 16) (value : Nat) :
    utoa value base = Nat.toDigits base value := by
  rw [utoa, dif_pos ⟨hbase, by omega⟩, utoaLoop_reverse hbase hlarge]

theorem itoa_eq {value : Int} (hlow : -2 ^ 63 ≤ value) (hhigh : value < 2 ^ 63) :
    itoa value = if value < 0 then '-' :: Nat.toDigits 10 value.natAbs
      else Nat.toDigits 10 value.natAbs := by
  rw [itoa, utoa_eq (by decide) (by decide), utoa_eq (by decide) (by decide)]
  split
  · have hword : (Int.bmod (-value) (2 ^ 64) % 2 ^ 64).toNat = value.natAbs := by
      rw [Int.bmod_def]
      split <;> omega
    rw [hword]
  · have hword : (value % 2 ^ 64).toNat = value.natAbs := by omega
    rw [hword]

/-- Dividing by ten finds as many digits as the number has. -/
theorem divisions_eq (hn : 0 < n) : divisions n = (Nat.toDigits 10 n).length := by
  induction n using Nat.strong_induction_on with
  | _ n ih =>
      have hdiv : (n : Int).tdiv 10 = ((n / 10 : Nat) : Int) := rfl
      rw [divisions, if_neg (by omega), hdiv]
      by_cases hlt : n < 10
      · have hzero : n / 10 = 0 := by omega
        rw [hzero, Nat.toDigits_of_lt_base hlt, divisions]
        rfl
      · rw [ih (n / 10) (by omega) (by omega), Nat.toDigits_of_base_le (n := n) (by decide) (by omega),
          List.length_append]
        rfl

/-- An `int` has at most ten digits. -/
theorem divisions_le {num : Int} {k : Nat} (h : num.natAbs < 10 ^ k) : divisions num ≤ k := by
  induction k generalizing num with
  | zero =>
      have hzero : num = 0 := by omega
      rw [hzero, divisions]
      simp
  | succ k ih =>
      rw [divisions]
      split
      · omega
      · apply Nat.succ_le_succ
        apply ih
        rw [Nat.pow_succ, Nat.mul_comm] at h
        rw [Int.natAbs_tdiv]
        exact Nat.div_lt_of_lt_mul h

end Digits

section Atoi

/-- More digits do not make a number smaller. -/
theorem ofDigitChars_ge (ds : List Char) (num : Nat) : num ≤ Nat.ofDigitChars 10 ds num := by
  rw [Nat.ofDigitChars_eq_ofDigitChars_zero]
  have hpos : 0 < 10 ^ ds.length := Nat.pow_pos (by decide)
  have hle : num ≤ 10 ^ ds.length * num := Nat.le_mul_of_pos_left _ hpos
  omega

/-- Digits that spell a number of the range of `int`. -/
theorem atoiLoop_digits {ds rest : List Char} (hds : ∀ c ∈ ds, c.isDigit)
    (hrest : ∀ c ∈ rest.head?, ¬ c.isDigit) {num : Nat}
    (hfits : Nat.ofDigitChars 10 ds num < 2 ^ 31) :
    atoiLoop num (ds ++ rest) = Nat.ofDigitChars 10 ds num := by
  induction ds generalizing num with
  | nil =>
      rw [List.nil_append, Nat.ofDigitChars_nil]
      cases rest with
      | nil => rfl
      | cons c rest => exact if_neg (hrest c rfl)
  | cons c ds ih =>
      obtain ⟨hc, hds⟩ := List.forall_mem_cons.mp hds
      have hdigit := Char.isDigit_iff_toNat.mp hc
      rw [Nat.ofDigitChars_cons] at hfits ⊢
      have hgrows := ofDigitChars_ge ds (10 * num + (c.toNat - '0'.toNat))
      have hnext : int32 (num * 10 + c.toNat - 48) = (10 * num + (c.toNat - '0'.toNat) : Nat) := by
        have hzero : '0'.toNat = 48 := rfl
        rw [int32_of_lt (by omega) (by omega)]
        omega
      rw [List.cons_append, atoiLoop, if_pos hc, hnext]
      exact ih hds hfits

theorem atoiLoop_toDigits {n : Nat} (hn : n < 2 ^ 31) {rest : List Char}
    (hrest : ∀ c ∈ rest.head?, ¬ c.isDigit) : atoiLoop 0 (Nat.toDigits 10 n ++ rest) = n := by
  have hds : ∀ c ∈ Nat.toDigits 10 n, c.isDigit := fun c hc =>
    Nat.isDigit_of_mem_toDigits (by decide) (by decide) hc
  have hloop := @atoiLoop_digits _ _ hds hrest 0 (by rwa [Nat.ofDigitChars_ten_toDigits])
  rwa [Nat.ofDigitChars_ten_toDigits] at hloop

/-- `__atoi` reads back what was written without a sign. -/
theorem atoi_toDigits {n : Nat} (hn : n < 2 ^ 31) {rest : List Char}
    (hrest : ∀ c ∈ rest.head?, ¬ c.isDigit) : atoi (Nat.toDigits 10 n ++ rest) = n := by
  have hhead : (Nat.toDigits 10 n ++ rest).head? ≠ some '-' := by
    cases hcs : Nat.toDigits 10 n with
    | nil => exact absurd hcs Nat.toDigits_ne_nil
    | cons c cs =>
        intro hminus
        have hc : c ∈ Nat.toDigits 10 n := by rw [hcs]; exact List.mem_cons_self
        have hdigit := Nat.isDigit_of_mem_toDigits (by decide) (by decide) hc
        rw [Option.some.inj hminus] at hdigit
        exact absurd hdigit (by decide)
  rw [atoi, if_neg hhead, if_neg hhead, Int.one_mul]
  exact (congrArg int32 (atoiLoop_toDigits hn hrest)).trans (int32_of_lt (by omega) (by omega))

end Atoi

end Tellurium.Flibc
