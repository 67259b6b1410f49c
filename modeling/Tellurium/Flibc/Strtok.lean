import Tellurium.Flibc.String
import Tellurium.Lib.Split
import Mathlib.Data.List.Forall2
import Mathlib.Data.List.GetD

/-!
`__strtok` and `__strtok_r` (`flibc/string.c`) in the memory of the string that they cut up, with
the scans they are built on. The buffer is the list of its characters with a terminator behind
them, and a pointer is an index into it. A caller of `__strtok_r` asks for the next token with
NULL, or with the saved pointer itself as the path lookup does.

Both are shown to find the segments of the string, whatever the number of calls.
-/

namespace Tellurium.Flibc

open Tellurium.Lib

/-- The place of `c` in the string; the terminator is part of it. -/
def strchr : List Char → Char → Option Nat
  | [], c => if '\x00' = c then some 0 else none
  | x :: str, c =>
      if x ≠ '\x00' ∧ x ≠ c then (strchr str c).map (· + 1)
      else if x = c then some 0 else none

def strcspnLoop (str2 : List Char) : List Char → Nat → Nat
  | [], len => len
  | c :: str1, len =>
      if c = '\x00' then len
      else if (strchr str2 c).isSome then len
      else strcspnLoop str2 str1 (len + 1)

def strspnLoop (str2 : List Char) : List Char → Nat → Nat
  | [], len => len
  | c :: str1, len =>
      if c = '\x00' then len
      else if (strchr str2 c).isNone then len
      else strspnLoop str2 str1 (len + 1)

def charAt (buf : List Char) (p : Nat) : Char := buf.getD p '\x00'

/-- The string that a pointer points to. -/
def stringAt (buf : List Char) (p : Nat) : List Char := (buf.drop p).takeWhile (· ≠ '\x00')

/-- The result, the buffer and `*old_ptr` after the call. -/
def strtokRAt (buf : List Char) (str : Option Nat) (del : List Char) (oldPtr : Nat) :
    Option Nat × List Char × Nat :=
  let str := str.getD oldPtr
  if charAt buf str = '\x00' then (none, buf, str)
  else
    let str := str + strspnLoop del (buf.drop str) 0
    if charAt buf str = '\x00' then (none, buf, str)
    else
      let stop := str + strcspnLoop del (buf.drop str) 0
      if charAt buf stop = '\x00' then (some str, buf, stop)
      else (some str, buf.set stop '\x00', stop + 1)

/-- The static `old_str` is passed in and out. -/
def strtokAt (buf : List Char) (str : Option Nat) (del : List Char) (oldStr : Option Nat) :
    Option Nat × List Char × Option Nat :=
  match str.or oldStr with
  | none => (none, buf, none)
  | some old =>
      let old := old + strspnLoop del (buf.drop old) 0
      if charAt buf old = '\x00' then (none, buf, none)
      else
        let token := old
        let old := old + strcspnLoop del (buf.drop old) 0
        if charAt buf old = '\x00' then (some token, buf, none)
        else (some token, buf.set old '\x00', some (old + 1))

section Calls

variable {ι π : Type}

/-- The results of one call after the other, each with the buffer and the pointer that the one
before it left. -/
def calls (call : ι → List Char → π → Option Nat × List Char × π) :
    List ι → List Char → π → List (Option Nat) × List Char × π
  | [], buf, ptr => ([], buf, ptr)
  | i :: later, buf, ptr =>
      let (tok, buf, ptr) := call i buf ptr
      let (toks, buf, ptr) := calls call later buf ptr
      (tok :: toks, buf, ptr)

end Calls

/-- What a caller of `__strtok_r` passes for the next token. -/
inductive Resume where
  | null
  | path
deriving DecidableEq, Repr

def Resume.arg : Resume → Nat → Option Nat
  | .null, _ => none
  | .path, oldPtr => some oldPtr

/-- The first call is on the string, with anything in the saved pointer. -/
def strtokRCalls (s del : List Char) (oldPtr : Nat) (later : List Resume) :
    List (Option Nat) × List Char × Nat :=
  let (tok, buf, ptr) := strtokRAt s (some 0) del oldPtr
  let (toks, buf, ptr) := calls (fun r buf ptr => strtokRAt buf (r.arg ptr) del ptr) later buf ptr
  (tok :: toks, buf, ptr)

def strtokCalls (s del : List Char) (oldStr : Option Nat) (later : Nat) :
    List (Option Nat) × List Char × Option Nat :=
  let (tok, buf, ptr) := strtokAt s (some 0) del oldStr
  let (toks, buf, ptr) :=
    calls (fun (_ : Unit) buf ptr => strtokAt buf none del ptr) (List.replicate later ()) buf ptr
  (tok :: toks, buf, ptr)

/-- A place of the string before and after: it stays, or a delimiter becomes a terminator. -/
def Kept (del : List Char) (a b : Char) : Prop := b = a ∨ a ∈ del ∧ b = '\x00'

/-- The results of `n` calls that cut up `s`: the strings they point to are the segments of `s`
in their order, and NULL when there are no more. -/
structure Tokenised (s del : List Char) (n : Nat) (toks : List (Option Nat)) (buf : List Char)
    (saved : Option Nat) : Prop where
  tokens : toks.map (Option.map (stringAt buf)) =
    (List.range n).map fun k => (segments (fun c => decide (c ∈ del)) s)[k]?
  kept : List.Forall₂ (Kept del) s buf
  saved : ∀ p ∈ saved, p ≤ s.length

section Scans

variable {c : Char} {del str skip tok rest : List Char}

theorem strchr_isSome (hc : c ≠ '\x00') (hdel : '\x00' ∉ del) :
    (strchr del c).isSome = decide (c ∈ del) := by
  induction del with
  | nil => simp [strchr, hc.symm]
  | cons x del ih =>
      have hx : '\x00' ≠ x := List.ne_of_not_mem_cons hdel
      have htail : '\x00' ∉ del := List.not_mem_of_not_mem_cons hdel
      by_cases hxc : x = c
      · simp [strchr, hxc]
      · simp [strchr, Ne.symm hx, hxc, ih htail, Ne.symm hxc]

theorem strspnLoop_eq (hdel : '\x00' ∉ del) (hstr : '\x00' ∉ str) (len : Nat) :
    strspnLoop del str len = len + strspn str del := by
  induction str generalizing len with
  | nil => rfl
  | cons c str ih =>
      have hc : '\x00' ≠ c := List.ne_of_not_mem_cons hstr
      have htail : '\x00' ∉ str := List.not_mem_of_not_mem_cons hstr
      have hchr := strchr_isSome (Ne.symm hc) hdel
      by_cases hmem : c ∈ del
      · have hsome : (strchr del c).isNone = false := by simp [← Option.not_isSome, hchr, hmem]
        rw [strspnLoop, if_neg (Ne.symm hc), hsome, if_neg (by simp), ih htail, strspn, strspn,
          List.takeWhile_cons_of_pos (by simpa using hmem), List.length_cons]
        omega
      · have hnone : (strchr del c).isNone = true := by simp [← Option.not_isSome, hchr, hmem]
        rw [strspnLoop, if_neg (Ne.symm hc), hnone, if_pos rfl, strspn,
          List.takeWhile_cons_of_neg (by simpa using hmem)]
        rfl

theorem strcspnLoop_eq (hdel : '\x00' ∉ del) (hstr : '\x00' ∉ str) (len : Nat) :
    strcspnLoop del str len = len + strcspn str del := by
  induction str generalizing len with
  | nil => rfl
  | cons c str ih =>
      have hc : '\x00' ≠ c := List.ne_of_not_mem_cons hstr
      have htail : '\x00' ∉ str := List.not_mem_of_not_mem_cons hstr
      have hchr := strchr_isSome (Ne.symm hc) hdel
      by_cases hmem : c ∈ del
      · rw [strcspnLoop, if_neg (Ne.symm hc), hchr, if_pos (by simpa using hmem), strcspn,
          List.takeWhile_cons_of_neg (by simpa using hmem)]
        rfl
      · rw [strcspnLoop, if_neg (Ne.symm hc), hchr, if_neg (by simpa using hmem), ih htail, strcspn,
          strcspn, List.takeWhile_cons_of_pos (by simpa using hmem), List.length_cons]
        omega

end Scans

section Pointers

variable {del done skip tok rest : List Char}

theorem charAt_length (done rest : List Char) :
    charAt (done ++ rest) done.length = rest.headD '\x00' := by
  rw [charAt, List.getD_append_right _ _ _ _ le_rfl, Nat.sub_self]
  cases rest with
  | nil => rfl
  | cons c rest => rfl

theorem headD_ne (hne : tok ≠ []) (hnul : '\x00' ∉ tok) : (tok ++ rest).headD '\x00' ≠ '\x00' := by
  cases tok with
  | nil => exact absurd rfl hne
  | cons c tok => exact fun heq => hnul (heq ▸ List.mem_cons_self)

theorem stringAt_token (htok : '\x00' ∉ tok) (hstop : ∀ c ∈ rest.head?, c = '\x00') :
    stringAt (done ++ (skip ++ (tok ++ rest))) (done ++ skip).length = tok := by
  rw [stringAt, ← List.append_assoc, List.drop_left]
  apply takeWhile_prefix
  · intro c hc
    simpa using fun hzero : c = '\x00' => htok (hzero ▸ hc)
  · intro c hc
    simpa using hstop c hc

theorem strspnLoop_skip (hdel : '\x00' ∉ del) (hnul : '\x00' ∉ skip ++ rest)
    (hskip : ∀ c ∈ skip, decide (c ∈ del) = true)
    (hstop : ∀ c ∈ rest.head?, decide (c ∈ del) = false) :
    strspnLoop del ((done ++ (skip ++ rest)).drop done.length) 0 = skip.length := by
  rw [List.drop_left, strspnLoop_eq hdel hnul, Nat.zero_add, strspn, takeWhile_prefix hskip hstop]

theorem strcspnLoop_token (hdel : '\x00' ∉ del) (hnul : '\x00' ∉ tok ++ rest)
    (htok : ∀ c ∈ tok, decide (c ∈ del) = false)
    (hstop : ∀ c ∈ rest.head?, decide (c ∈ del) = true) :
    strcspnLoop del ((done ++ (tok ++ rest)).drop done.length) 0 = tok.length := by
  have hfront : ∀ c ∈ tok, decide (c ∉ del) = true := by simpa using htok
  have hend : ∀ c ∈ rest.head?, decide (c ∉ del) = false := by simpa using hstop
  rw [List.drop_left, strcspnLoop_eq hdel hnul, Nat.zero_add, strcspn, takeWhile_prefix hfront hend]

/-- At the terminator there is nothing to skip, so the first return of `__strtok_r` is a case of
the second. -/
theorem strspnLoop_end {buf : List Char} {p : Nat} (hend : charAt buf p = '\x00')
    (del : List Char) : strspnLoop del (buf.drop p) 0 = 0 := by
  cases hrest : buf.drop p with
  | nil => rfl
  | cons c rest =>
      have hc : c = '\x00' := by
        rw [← hend, charAt, List.getD_eq_getElem?_getD, ← Nat.add_zero p, ← List.getElem?_drop,
          hrest]
        rfl
      rw [strspnLoop, if_pos hc]

end Pointers

/-- What a call does in a buffer `done ++ rest` with its pointer at `rest`: the result, and the
buffer and the pointer after it in the same form. -/
inductive Next (del done : List Char) : List Char → Option Nat → List Char → List Char → Prop where
  | exhausted (skip : List Char) (hskip : ∀ c ∈ skip, decide (c ∈ del) = true) :
      Next del done skip none (done ++ skip) []
  | last (skip tok : List Char) (hskip : ∀ c ∈ skip, decide (c ∈ del) = true) (hne : tok ≠ [])
      (htok : ∀ c ∈ tok, decide (c ∈ del) = false) :
      Next del done (skip ++ tok) (some (done ++ skip).length) (done ++ (skip ++ tok)) []
  | cut (skip tok : List Char) (c : Char) (rest : List Char)
      (hskip : ∀ c ∈ skip, decide (c ∈ del) = true) (hne : tok ≠ [])
      (htok : ∀ c ∈ tok, decide (c ∈ del) = false) (hc : decide (c ∈ del) = true) :
      Next del done (skip ++ (tok ++ c :: rest)) (some (done ++ skip).length)
        (done ++ (skip ++ (tok ++ ['\x00']))) rest

section Step

variable {del done skip tok tail rest : List Char}

/-- Where the two scans stop when there is a token. -/
theorem scan_token (hdel : '\x00' ∉ del) (hnul : '\x00' ∉ skip ++ (tok ++ tail))
    (hskip : ∀ c ∈ skip, decide (c ∈ del) = true) (hne : tok ≠ [])
    (htok : ∀ c ∈ tok, decide (c ∈ del) = false)
    (htail : ∀ c ∈ tail.head?, decide (c ∈ del) = true) :
    let buf := done ++ (skip ++ (tok ++ tail))
    done.length + strspnLoop del (buf.drop done.length) 0 = (done ++ skip).length ∧
    (done ++ skip).length + strcspnLoop del (buf.drop (done ++ skip).length) 0 =
      (done ++ (skip ++ tok)).length ∧
    charAt buf (done ++ skip).length ≠ '\x00' ∧
    charAt buf (done ++ (skip ++ tok)).length = tail.headD '\x00' := by
  intro buf
  have hnul' : '\x00' ∉ tok ++ tail := fun hmem => hnul (List.mem_append_right _ hmem)
  have htok0 : '\x00' ∉ tok := fun hmem => hnul' (List.mem_append_left _ hmem)
  have hbuf : buf = (done ++ skip) ++ (tok ++ tail) := (List.append_assoc _ _ _).symm
  have hbuf' : buf = (done ++ (skip ++ tok)) ++ tail := by simp [buf]
  constructor
  · rw [strspnLoop_skip hdel hnul hskip (head?_token hne htok), List.length_append]
  constructor
  · rw [hbuf, strcspnLoop_token hdel hnul' htok htail, ← List.length_append, List.append_assoc]
  constructor
  · rw [hbuf, charAt_length]
    exact headD_ne hne htok0
  · rw [hbuf', charAt_length]

/-- The part that the two functions share. -/
theorem next_token (hdel : '\x00' ∉ del) (hrest : '\x00' ∉ rest) :
    let start := done.length + strspnLoop del ((done ++ rest).drop done.length) 0
    let stop := start + strcspnLoop del ((done ++ rest).drop start) 0
    (charAt (done ++ rest) start = '\x00' ∧
      start = (done ++ rest).length ∧ Next del done rest none (done ++ rest) []) ∨
    (charAt (done ++ rest) start ≠ '\x00' ∧ charAt (done ++ rest) stop = '\x00' ∧
      stop = (done ++ rest).length ∧ Next del done rest (some start) (done ++ rest) []) ∨
    (charAt (done ++ rest) start ≠ '\x00' ∧ charAt (done ++ rest) stop ≠ '\x00' ∧
      ∃ done' rest', (done ++ rest).set stop '\x00' = done' ++ rest' ∧ stop + 1 = done'.length ∧
        '\x00' ∉ rest' ∧ Next del done rest (some start) done' rest') := by
  cases front (fun c => decide (c ∈ del)) rest with
  | exhausted _ hskip =>
      left
      have hspan := @strspnLoop_skip del done rest [] hdel (by rwa [List.append_nil]) hskip
        (by simp)
      have hend := charAt_length (done ++ rest) []
      rw [List.append_nil] at hspan hend
      rw [hspan, ← List.length_append]
      exact ⟨hend, rfl, .exhausted rest hskip⟩
  | last skip tok hskip hne htok =>
      right; left
      have hscan := @scan_token del done skip tok [] hdel (by rwa [List.append_nil]) hskip hne htok
        (by simp)
      rw [List.append_nil] at hscan
      obtain ⟨hstart, hstop, hfirst, hend⟩ := hscan
      rw [hstart, hstop]
      exact ⟨hfirst, hend, rfl, .last skip tok hskip hne htok⟩
  | cut skip tok c rest hskip hne htok hc =>
      right; right
      obtain ⟨hstart, hstop, hfirst, hend⟩ := @scan_token del done skip tok (c :: rest) hdel hrest
        hskip hne htok (by rintro b ⟨rfl⟩; exact hc)
      have hc0 : c ≠ '\x00' := by
        rintro rfl
        exact hdel (by simpa using hc)
      have hrest' : '\x00' ∉ rest := fun hmem => hrest (by simp [hmem])
      have hset : (done ++ (skip ++ (tok ++ c :: rest))).set (done ++ (skip ++ tok)).length '\x00' =
          (done ++ (skip ++ (tok ++ ['\x00']))) ++ rest := by
        simp
      rw [hstart, hstop, hend]
      exact ⟨hfirst, hc0, _, _, hset, by simp [Nat.add_assoc], hrest',
        .cut skip tok c rest hskip hne htok hc⟩

theorem strtokRAt_next (hdel : '\x00' ∉ del) (hrest : '\x00' ∉ rest) {str : Option Nat}
    {oldPtr : Nat} (hstr : str.getD oldPtr = done.length) :
    ∃ tok done' rest',
      strtokRAt (done ++ rest) str del oldPtr = (tok, done' ++ rest', done'.length) ∧
      '\x00' ∉ rest' ∧ Next del done rest tok done' rest' := by
  have hskip : strtokRAt (done ++ rest) str del oldPtr =
      let start := done.length + strspnLoop del ((done ++ rest).drop done.length) 0
      let stop := start + strcspnLoop del ((done ++ rest).drop start) 0
      if charAt (done ++ rest) start = '\x00' then (none, done ++ rest, start)
      else if charAt (done ++ rest) stop = '\x00' then (some start, done ++ rest, stop)
      else (some start, (done ++ rest).set stop '\x00', stop + 1) := by
    simp only [strtokRAt, hstr]
    split
    · rename_i hend
      rw [strspnLoop_end hend, Nat.add_zero, if_pos hend]
    · rfl
  rw [hskip]
  rcases @next_token del done rest hdel hrest with ⟨hend, hstart, hnext⟩ |
    ⟨hmore, hend, hstop, hnext⟩ | ⟨hmore, hcut, done', rest', hset, hptr, hrest', hnext⟩
  · simp only
    rw [if_pos hend, hstart]
    exact ⟨_, _, [], by rw [List.append_nil], List.not_mem_nil, hnext⟩
  · simp only
    rw [if_neg hmore, if_pos hend, hstop]
    exact ⟨_, _, [], by rw [List.append_nil], List.not_mem_nil, hnext⟩
  · simp only
    rw [if_neg hmore, if_neg hcut, hset, hptr]
    exact ⟨_, _, _, rfl, hrest', hnext⟩

/-- In memory the call returns and leaves what `strtokR` says of the strings. -/
theorem strtokRAt_refines (hdel : '\x00' ∉ del) (hrest : '\x00' ∉ rest) {str : Option Nat}
    {oldPtr : Nat} (hstr : str.getD oldPtr = done.length) :
    let (tok, buf, ptr) := strtokRAt (done ++ rest) str del oldPtr
    strtokR rest del = (tok.map (stringAt buf), buf.drop ptr) := by
  obtain ⟨tok, done', rest', hresult, -, hnext⟩ := strtokRAt_next hdel hrest hstr
  rw [hresult]
  simp only [List.drop_left]
  cases hnext with
  | exhausted _ hskip =>
      have hspan : strspn rest del = rest.length := by
        rw [strspn, ← List.append_nil rest, takeWhile_prefix hskip (by simp), List.append_nil]
      rw [strtokR, hspan, List.drop_length]
      rfl
  | last skip tok hskip hne htok =>
      have htok0 : '\x00' ∉ tok := fun hmem => hrest (List.mem_append_right _ hmem)
      have hstring := @stringAt_token done skip tok [] htok0 (by simp)
      have hpure := @strtokR_eq skip tok [] del hskip hne htok (by simp)
      rw [List.append_nil] at hstring hpure
      rw [hpure, List.append_nil, Option.map_some, hstring]
      rfl
  | cut skip tok c _ hskip hne htok hc =>
      have htok0 : '\x00' ∉ tok := fun hmem => hrest (by simp [hmem])
      have hstring := @stringAt_token done skip tok ('\x00' :: rest') htok0 (by simp)
      have hbuf : done ++ (skip ++ (tok ++ ['\x00'])) ++ rest' =
          done ++ (skip ++ (tok ++ '\x00' :: rest')) := by simp
      rw [strtokR_eq hskip hne htok (by rintro b ⟨rfl⟩; exact hc), hbuf, Option.map_some,
        hstring]
      rfl

/-- The static pointer is at the rest of the string, or NULL once there is no rest. -/
def AtRest (ptr : Option Nat) (done rest : List Char) : Prop :=
  ptr = some done.length ∨ ptr = none ∧ rest = []

theorem strtokAt_next (hdel : '\x00' ∉ del) (hrest : '\x00' ∉ rest) {ptr : Option Nat}
    (hptr : AtRest ptr done rest) :
    ∃ tok done' rest' ptr', strtokAt (done ++ rest) none del ptr = (tok, done' ++ rest', ptr') ∧
      AtRest ptr' done' rest' ∧ '\x00' ∉ rest' ∧ Next del done rest tok done' rest' := by
  rcases hptr with rfl | ⟨rfl, rfl⟩
  · simp only [strtokAt, Option.none_or]
    rcases @next_token del done rest hdel hrest with ⟨hend, -, hnext⟩ |
      ⟨hmore, hend, -, hnext⟩ | ⟨hmore, hcut, done', rest', hset, hstop, hrest', hnext⟩
    · rw [if_pos hend]
      exact ⟨_, _, [], _, by rw [List.append_nil], .inr ⟨rfl, rfl⟩, List.not_mem_nil, hnext⟩
    · rw [if_neg hmore, if_pos hend]
      exact ⟨_, _, [], _, by rw [List.append_nil], .inr ⟨rfl, rfl⟩, List.not_mem_nil, hnext⟩
    · rw [if_neg hmore, if_neg hcut, hset, hstop]
      exact ⟨_, _, _, _, rfl, .inl rfl, hrest', hnext⟩
  · have hnext : Next del done [] none (done ++ []) [] := .exhausted [] (by simp)
    exact ⟨none, _, [], none, by simp [strtokAt], .inr ⟨rfl, rfl⟩, hrest, hnext⟩

end Step

section Runs

variable {ι π : Type} {call : ι → List Char → π → Option Nat × List Char × π}
  {here : π → List Char → List Char → Prop} {del : List Char}

/-- Each call finds the next token, wherever its pointer is. -/
def FindsNext (del : List Char) (call : ι → List Char → π → Option Nat × List Char × π)
    (here : π → List Char → List Char → Prop) : Prop :=
  ∀ i done rest ptr, '\x00' ∉ rest → here ptr done rest →
    ∃ tok done' rest' ptr', call i (done ++ rest) ptr = (tok, done' ++ rest', ptr') ∧
      here ptr' done' rest' ∧ '\x00' ∉ rest' ∧ Next del done rest tok done' rest'

theorem kept_refl (l : List Char) : List.Forall₂ (Kept del) l l :=
  List.forall₂_same.mpr fun _ _ => .inl rfl

/-- Calls that each find the next token find the segments one after the other. What stands in
front of the pointer is not changed any more. -/
theorem calls_tokenised (hcall : FindsNext del call here) (later : List ι)
    {done rest : List Char} {ptr : π} (hrest : '\x00' ∉ rest) (hptr : here ptr done rest) :
    ∃ toks rest' ptr', calls call later (done ++ rest) ptr = (toks, done ++ rest', ptr') ∧
      toks.map (Option.map (stringAt (done ++ rest'))) =
        (List.range later.length).map (fun k => (segments (fun c => decide (c ∈ del)) rest)[k]?) ∧
      List.Forall₂ (Kept del) rest rest' ∧
      ∃ front tail, here ptr' front tail ∧ front ++ tail = done ++ rest' := by
  induction later generalizing done rest ptr with
  | nil => exact ⟨[], rest, ptr, rfl, rfl, kept_refl rest, done, rest, hptr, rfl⟩
  | cons i later ih =>
      obtain ⟨tok, done', rest', ptr', hresult, hptr', hrest', hnext⟩ :=
        hcall i done rest ptr hrest hptr
      obtain ⟨toks, tail, final, hcalls, htokens, hkept, hplace⟩ := ih hrest' hptr'
      have hrun : calls call (i :: later) (done ++ rest) ptr =
          (tok :: toks, done' ++ tail, final) := by
        simp only [calls, hresult, hcalls]
      rw [List.length_cons, List.range_succ_eq_map, List.map_cons, List.map_map]
      cases hnext with
      | exhausted _ hskip =>
          cases hkept
          rw [List.append_nil] at hrun hplace htokens
          refine ⟨_, rest, final, hrun, ?_, kept_refl rest, hplace⟩
          rw [List.map_cons, htokens, segments_exhausted hskip]
          rfl
      | last skip tok hskip hne htok =>
          cases hkept
          rw [List.append_nil] at hrun hplace htokens
          have htok0 : '\x00' ∉ tok := fun hmem => hrest (List.mem_append_right _ hmem)
          have hstring := @stringAt_token done skip tok [] htok0 (by simp)
          rw [List.append_nil] at hstring
          refine ⟨_, skip ++ tok, final, hrun, ?_, kept_refl _, hplace⟩
          rw [List.map_cons, Option.map_some, hstring, htokens, segments_last hskip hne htok]
          rfl
      | cut skip tok c rest hskip hne htok hc =>
          have htok0 : '\x00' ∉ tok := fun hmem => hrest (by simp [hmem])
          have hbuf : done ++ (skip ++ (tok ++ ['\x00'])) ++ tail =
              done ++ (skip ++ (tok ++ '\x00' :: tail)) := by simp
          have hstring := @stringAt_token done skip tok ('\x00' :: tail) htok0 (by simp)
          rw [hbuf] at hrun hplace htokens
          have hdelim : Kept del c '\x00' := .inr ⟨by simpa using hc, rfl⟩
          refine ⟨_, _, final, hrun, ?_, ?_, hplace⟩
          · rw [List.map_cons, Option.map_some, hstring, htokens, segments_cut hskip hne htok hc]
            rfl
          · apply List.rel_append (kept_refl skip)
            exact List.rel_append (kept_refl tok) (.cons hdelim hkept)

theorem tokenised_of_calls (saved : π → Option Nat) (hcall : FindsNext del call here)
    (hsaved : ∀ ptr done rest, here ptr done rest → ∀ p ∈ saved ptr, p ≤ (done ++ rest).length)
    (later : List ι) {s : List Char} {ptr : π} (hs : '\x00' ∉ s) (hptr : here ptr [] s) :
    let r := calls call later s ptr
    Tokenised s del later.length r.1 r.2.1 (saved r.2.2) := by
  obtain ⟨toks, buf, ptr', hrun, htokens, hkept, front, tail, hplace, hbuf⟩ :=
    calls_tokenised hcall later hs hptr
  rw [List.nil_append, List.nil_append] at hrun
  simp only [hrun]
  have hlength : s.length = (front ++ tail).length := by
    rw [hbuf]
    exact hkept.length_eq
  exact ⟨htokens, hkept, fun p hp => hlength ▸ hsaved ptr' front tail hplace p hp⟩

end Runs

section Tokenisers

variable {s del : List Char}

theorem strtokRCalls_tokenised (hs : '\x00' ∉ s) (hdel : '\x00' ∉ del) (oldPtr : Nat)
    (later : List Resume) :
    let r := strtokRCalls s del oldPtr later
    Tokenised s del (later.length + 1) r.1 r.2.1 (some r.2.2) := by
  have hcall : FindsNext del (fun (r : Resume) buf ptr => strtokRAt buf (r.arg ptr) del ptr)
      (fun ptr done _ => ptr = done.length) := by
    intro r done rest ptr hrest hptr
    have harg : (r.arg ptr).getD ptr = done.length := by
      cases r <;> exact hptr
    obtain ⟨tok, done', rest', hresult, hnext⟩ := strtokRAt_next hdel hrest harg
    exact ⟨tok, done', rest', _, hresult, rfl, hnext⟩
  have hsaved : ∀ (ptr : Nat) (done rest : List Char), ptr = done.length →
      ∀ p ∈ some ptr, p ≤ (done ++ rest).length := by
    rintro ptr done rest rfl p ⟨rfl⟩
    simp
  -- The first call is one on the saved pointer, had that been at the string.
  exact tokenised_of_calls some hcall hsaved (.path :: later) hs rfl

theorem strtokCalls_tokenised (hs : '\x00' ∉ s) (hdel : '\x00' ∉ del) (oldStr : Option Nat)
    (later : Nat) :
    let r := strtokCalls s del oldStr later
    Tokenised s del (later + 1) r.1 r.2.1 r.2.2 := by
  have hcall : FindsNext del (fun (_ : Unit) buf ptr => strtokAt buf none del ptr) AtRest :=
    fun _ done rest ptr hrest hptr => strtokAt_next hdel hrest hptr
  have hsaved : ∀ (ptr : Option Nat) (done rest : List Char), AtRest ptr done rest →
      ∀ p ∈ ptr, p ≤ (done ++ rest).length := by
    rintro ptr done rest (rfl | ⟨rfl, -⟩) p hp
    · cases hp
      simp
    · cases hp
  have h := tokenised_of_calls id hcall hsaved (List.replicate (later + 1) ()) hs (.inl rfl)
  rw [List.length_replicate] at h
  exact h

end Tokenisers

/-- For every string and every set of delimiters, and for any number of calls with NULL or with
the saved pointer, `__strtok_r` returns the segments of the string in their order and then NULL,
and so does `__strtok`. Only delimiters are replaced, by terminators. -/
theorem tokenisers_return_segments (s del : CString) (oldPtr : Nat) (oldStr : Option Nat)
    (later : List Resume) :
    let tokR := strtokRCalls s.1 del.1 oldPtr later
    let tok := strtokCalls s.1 del.1 oldStr later.length
    Tokenised s.1 del.1 (later.length + 1) tokR.1 tokR.2.1 (some tokR.2.2) ∧
    Tokenised s.1 del.1 (later.length + 1) tok.1 tok.2.1 tok.2.2 ∧
    tokR.1.map (Option.map (stringAt tokR.2.1)) = tok.1.map (Option.map (stringAt tok.2.1)) := by
  intro tokR tok
  have hR := strtokRCalls_tokenised s.2 del.2 oldPtr later
  have hT := strtokCalls_tokenised s.2 del.2 oldStr later.length
  exact ⟨hR, hT, hR.tokens.trans hT.tokens.symm⟩

end Tellurium.Flibc
