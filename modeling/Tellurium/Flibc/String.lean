import Mathlib.Data.List.Basic

/-!
String functions of `flibc/string.c` on NUL-terminated strings. A string is the list of
its characters before the terminator; pointers into a string are suffixes of the list.
-/

namespace Tellurium.Flibc

/-- A string is its characters before the terminator. -/
abbrev CString : Type := {s : List Char // '\x00' ∉ s}

/-- The length of the longest prefix made of characters of `str2`. -/
def strspn (str1 str2 : List Char) : Nat := (str1.takeWhile (· ∈ str2)).length

/-- The length of the longest prefix without characters of `str2`. -/
def strcspn (str1 str2 : List Char) : Nat := (str1.takeWhile (· ∉ str2)).length

/-- What `__strncpy` stores before the terminator. -/
def strncpy (src : List Char) (n : Nat) : List Char := src.take n

/-- The next token and the saved pointer. The delimiter after the token is overwritten,
so that the token ends there. -/
def strtokR (str del : List Char) : Option (List Char) × List Char :=
  match str.drop (strspn str del) with
  | [] => (none, [])
  | c :: rest =>
      let str := c :: rest
      (some (str.take (strcspn str del)), str.drop (strcspn str del + 1))

/-- Each token moves the saved pointer forward. -/
theorem strtokR_rest_length {str del tok rest : List Char} (h : strtokR str del = (some tok, rest)) :
    rest.length < str.length := by
  have hlen : (str.drop (strspn str del)).length ≤ str.length := by simp
  unfold strtokR at h
  split at h
  · simp at h
  · rename_i c tail heq
    rw [heq, List.length_cons] at hlen
    simp only [Prod.mk.injEq] at h
    rw [← h.2, List.length_drop, List.length_cons]
    omega

section Tokens

variable {skip tok rest dels : List Char} {del : Char}

theorem takeWhile_prefix {p : Char → Bool} (hfront : ∀ c ∈ skip, p c = true)
    (hstop : ∀ c ∈ rest.head?, p c = false) : (skip ++ rest).takeWhile p = skip := by
  rw [List.takeWhile_append_of_pos hfront]
  cases rest with
  | nil => simp
  | cons c rest =>
      rw [List.takeWhile_cons_of_neg (by simp [hstop c rfl]), List.append_nil]

theorem head?_token (hne : tok ≠ []) (htok : ∀ c ∈ tok, decide (c ∈ dels) = false) :
    ∀ c ∈ (tok ++ rest).head?, decide (c ∈ dels) = false := by
  cases tok with
  | nil => exact absurd rfl hne
  | cons c tok =>
      intro b hb
      cases hb
      exact htok c List.mem_cons_self

/-- Behind delimiters the token is what comes before the next one. -/
theorem strtokR_eq (hskip : ∀ c ∈ skip, decide (c ∈ dels) = true) (hne : tok ≠ [])
    (htok : ∀ c ∈ tok, decide (c ∈ dels) = false)
    (hrest : ∀ c ∈ rest.head?, decide (c ∈ dels) = true) :
    strtokR (skip ++ (tok ++ rest)) dels = (some tok, rest.tail) := by
  have hspan : strspn (skip ++ (tok ++ rest)) dels = skip.length := by
    rw [strspn, takeWhile_prefix hskip (head?_token hne htok)]
  have hfront : ∀ c ∈ tok, decide (c ∉ dels) = true := by simpa using htok
  have hend : ∀ c ∈ rest.head?, decide (c ∉ dels) = false := by simpa using hrest
  have hcspan : strcspn (tok ++ rest) dels = tok.length := by
    rw [strcspn, takeWhile_prefix hfront hend]
  rw [strtokR, hspan, List.drop_left]
  cases tok with
  | nil => exact absurd rfl hne
  | cons c tok =>
      rw [List.cons_append] at hcspan ⊢
      simp only [hcspan]
      rw [← List.cons_append, List.take_left, Nat.add_comm, ← List.drop_drop, List.drop_one]
      simp

theorem not_mem_singleton_token (htok : del ∉ tok) : ∀ c ∈ tok, decide (c ∈ [del]) = false := by
  intro c hc
  simpa using fun heq : c = del => htok (heq ▸ hc)

/-- A token up to the first delimiter. -/
theorem strtokR_token (hne : tok ≠ []) (htok : del ∉ tok) (rest : List Char) :
    strtokR (tok ++ del :: rest) [del] = (some tok, rest) :=
  @strtokR_eq [] tok (del :: rest) [del] (by simp) hne (not_mem_singleton_token htok) (by simp)

/-- A token without a delimiter behind it. -/
theorem strtokR_rest (hne : tok ≠ []) (htok : del ∉ tok) : strtokR tok [del] = (some tok, []) := by
  have h := @strtokR_eq [] tok [] [del] (by simp) hne (not_mem_singleton_token htok) (by simp)
  rwa [List.append_nil] at h

end Tokens

end Tellurium.Flibc
