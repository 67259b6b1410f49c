import Tellurium.Lib.Leb128
import Mathlib.Data.Nat.Bitwise

/-!
Reading numbers from a stream of bytes (`libTellur/DataStream.cpp`). The bytes are promoted to
`int` before they are shifted, so a shift keeps 32 bits, and a shift by 32 or more has no
meaning. An `int` that is joined to a `size_t` is sign-extended. The LEB128 decoders therefore
give back only numbers whose groups all fit an `int`.
-/

namespace Tellurium.LibTellur

open Tellurium.Lib

structure DataStream where
  data : Nat → UInt8
  index : Nat

/-- `x << shift` for an `int`, which keeps its 32 bits. -/
def shlInt (x shift : Nat) : Option Int :=
  if shift < 32 then some (Int.bmod (x * 2 ^ shift) (2 ^ 32)) else none

/-- `result |= x` for a `size_t` and an `int`. -/
def orSize (result : Nat) (x : Int) : Nat := result ||| (x % 2 ^ 64).toNat

def decodeUInt16 (s : DataStream) : Nat × DataStream :=
  ((s.data s.index).toNat ||| (s.data (s.index + 1)).toNat <<< 8, {s with index := s.index + 2})

def decodeUInt32 (s : DataStream) : Nat × DataStream :=
  ((s.data s.index).toNat ||| (s.data (s.index + 1)).toNat <<< 8 |||
    (s.data (s.index + 2)).toNat <<< 16 ||| (s.data (s.index + 3)).toNat <<< 24,
    {s with index := s.index + 4})

/-- The `for (;;)` of `decodeLeb128`: the result, the shift and the last byte. -/
def decodeLeb128Loop : Nat → DataStream → Nat → Nat → Option (Nat × Nat × UInt8 × DataStream)
  | 0, _, _, _ => none
  | fuel + 1, s, result, shift => do
      let byte := s.data s.index
      let s := {s with index := s.index + 1}
      let group ← shlInt (0x7f &&& byte).toNat shift
      let result := orSize result group
      let shift := shift + 7
      if 0x80 &&& byte = 0 then return (result, shift, byte, s)
      decodeLeb128Loop fuel s result shift

def decodeLeb128 (fuel : Nat) (s : DataStream) : Option (Int × DataStream) := do
  let (result, shift, byte, s) ← decodeLeb128Loop fuel s 0 0
  if 0x40 &&& byte ≠ 0 then
    let one ← shlInt 1 shift
    let result := orSize result (Int.bmod (-one) (2 ^ 32))
    return (Int.bmod result (2 ^ 64), s)
  return (Int.bmod result (2 ^ 64), s)

def decodeULeb128Loop : Nat → DataStream → Nat → Nat → Option (Nat × DataStream)
  | 0, _, _, _ => none
  | fuel + 1, s, result, shift => do
      let byte := s.data s.index
      let group ← shlInt (0x7f &&& byte).toNat shift
      let result := orSize result group
      let s := {s with index := s.index + 1}
      if 0x80 &&& byte = 0 then return (result, s)
      decodeULeb128Loop fuel s result (shift + 7)

def decodeULeb128 (fuel : Nat) (s : DataStream) : Option (Nat × DataStream) :=
  decodeULeb128Loop fuel s 0 0

/-- The stream goes on with these bytes. -/
def Reads (s : DataStream) (bytes : List UInt8) : Prop :=
  ∀ i (hi : i < bytes.length), s.data (s.index + i) = bytes[i]

def DataStream.skip (s : DataStream) (n : Nat) : DataStream := {s with index := s.index + n}

theorem DataStream.skip_skip (s : DataStream) (a b : Nat) : (s.skip a).skip b = s.skip (a + b) := by
  simp [DataStream.skip, Nat.add_assoc]

section Stream

variable {s : DataStream} {b : UInt8} {bytes : List UInt8} {fuel : Nat}

theorem Reads.head (h : Reads s (b :: bytes)) : s.data s.index = b := h 0 (by simp)

theorem Reads.tail (h : Reads s (b :: bytes)) : Reads (s.skip 1) bytes := by
  intro i hi
  have hbyte := h (i + 1) (by simpa using hi)
  rw [List.getElem_cons_succ] at hbyte
  rw [← hbyte]
  exact congrArg s.data (show s.index + 1 + i = s.index + (i + 1) by omega)

/-- The two loops collect the same result. -/
theorem decodeULeb128Loop_eq (fuel : Nat) (s : DataStream) (result shift : Nat) :
    decodeULeb128Loop fuel s result shift =
      (decodeLeb128Loop fuel s result shift).map fun r => (r.1, r.2.2.2) := by
  induction fuel generalizing s result shift with
  | zero => rfl
  | succ fuel ih =>
      rw [decodeULeb128Loop, decodeLeb128Loop]
      cases shlInt (0x7f &&& s.data s.index).toNat shift with
      | none => rfl
      | some group =>
          simp only [Option.bind_eq_bind, Option.bind_some]
          by_cases hlast : 0x80 &&& s.data s.index = 0
          · rw [if_pos hlast, if_pos hlast]
            rfl
          · rw [if_neg hlast, if_neg hlast, ih]

end Stream

section Groups

variable {g : Nat}

theorem low_bits (hg : g < 256) : (0x7f &&& UInt8.ofNat g).toNat = g % 128 := by
  rw [UInt8.toNat_and, UInt8.toNat_ofNat_of_lt' hg, Nat.and_comm]
  exact Nat.and_two_pow_sub_one_eq_mod g 7

/-- The mask of bit `i` against a byte. -/
theorem mask_eq_zero_iff (g i : Nat) : g &&& 2 ^ i = 0 ↔ g / 2 ^ i % 2 = 0 := by
  have hpos : 0 < 2 ^ i := Nat.two_pow_pos i
  rw [Nat.and_two_pow, Nat.testBit_eq_decide_div_mod_eq]
  by_cases hbit : g / 2 ^ i % 2 = 1
  · simp only [hbit, decide_true, Bool.toNat_true]
    omega
  · simp only [hbit, decide_false, Bool.toNat_false]
    omega

theorem continues_iff (hg : g < 256) : 0x80 &&& UInt8.ofNat g = 0 ↔ g < 128 := by
  rw [← UInt8.toNat_inj, UInt8.toNat_and, UInt8.toNat_ofNat_of_lt' hg, Nat.and_comm]
  change g &&& 2 ^ 7 = 0 ↔ _
  rw [mask_eq_zero_iff]
  omega

theorem sign_iff (hg : g < 128) : 0x40 &&& UInt8.ofNat g ≠ 0 ↔ 64 ≤ g := by
  have hbyte : g < 256 := by omega
  rw [ne_eq, ← UInt8.toNat_inj, UInt8.toNat_and, UInt8.toNat_ofNat_of_lt' hbyte, Nat.and_comm]
  change ¬ g &&& 2 ^ 6 = 0 ↔ _
  rw [mask_eq_zero_iff]
  omega

end Groups

/-- The result after the groups from shift `7 * k` on were joined to it. -/
def orGroups (result : Nat) : Nat → List Nat → Nat
  | _, [] => result
  | k, g :: gs => orGroups (orSize result (Int.bmod (g * 2 ^ (7 * k)) (2 ^ 32))) (k + 1) gs

section Loop

variable {gs : List Nat}

/-- One round at the group `g`, whose byte is `b`. -/
theorem decodeLeb128Loop_round {s : DataStream} {b : UInt8} {g : Nat} (fuel result k : Nat)
    (hhead : s.data s.index = b) (hbits : (0x7f &&& b).toNat = g) :
    decodeLeb128Loop (fuel + 1) s result (7 * k) =
      if k < 5 then
        if 0x80 &&& b = 0 then
          some (orSize result (Int.bmod (g * 2 ^ (7 * k)) (2 ^ 32)), 7 * (k + 1), b, s.skip 1)
        else
          decodeLeb128Loop fuel (s.skip 1) (orSize result (Int.bmod (g * 2 ^ (7 * k)) (2 ^ 32)))
            (7 * (k + 1))
      else none := by
  rw [decodeLeb128Loop, hhead, hbits, shlInt]
  by_cases hk : k < 5
  · rw [if_pos (by omega), if_pos hk]
    rfl
  · rw [if_neg (by omega), if_neg hk]
    rfl

/-- On a list of groups the loop joins them one after the other, and has no result when one of
them lies behind bit 31. -/
theorem decodeLeb128Loop_groups {s : DataStream} (hne : gs ≠ []) (hlt : ∀ g ∈ gs, g < 128)
    (hreads : Reads s (leb128Bytes gs)) (fuel result k : Nat) :
    decodeLeb128Loop fuel s result (7 * k) =
      if gs.length ≤ fuel ∧ k + gs.length ≤ 5 then
        some (orGroups result k gs, 7 * (k + gs.length), UInt8.ofNat (gs.getLast hne),
          s.skip gs.length)
      else none := by
  induction gs generalizing s fuel result k with
  | nil => exact absurd rfl hne
  | cons g gs ih =>
      have hg : g < 128 := hlt g List.mem_cons_self
      cases fuel with
      | zero => rfl
      | succ fuel =>
          cases gs with
          | nil =>
              have hbits := low_bits (g := g) (by omega)
              rw [Nat.mod_eq_of_lt hg] at hbits
              rw [decodeLeb128Loop_round fuel result k hreads.head hbits,
                if_pos ((continues_iff (by omega)).mpr hg)]
              by_cases hk : k < 5
              · rw [if_pos hk, if_pos ⟨by simp, by rw [List.length_singleton]; omega⟩]
                rfl
              · rw [if_neg hk, if_neg (by rw [List.length_singleton]; omega)]
          | cons g' gs =>
              have hbits := low_bits (g := g + 128) (by omega)
              rw [Nat.add_mod_right, Nat.mod_eq_of_lt hg] at hbits
              have hgoes : ¬ 0x80 &&& UInt8.ofNat (g + 128) = 0 := by
                rw [continues_iff (by omega)]
                omega
              rw [decodeLeb128Loop_round fuel result k hreads.head hbits, if_neg hgoes,
                ih (List.cons_ne_nil _ _) (fun x hx => hlt x (List.mem_cons_of_mem _ hx))
                  hreads.tail]
              have hlen : k + (g :: g' :: gs).length = k + 1 + (g' :: gs).length := by
                rw [List.length_cons]
                omega
              rw [hlen]
              by_cases hall : (g :: g' :: gs).length ≤ fuel + 1 ∧ k + 1 + (g' :: gs).length ≤ 5
              · have hrest : (g' :: gs).length ≤ fuel := Nat.le_of_succ_le_succ hall.1
                rw [if_pos hall, if_pos (by omega), if_pos ⟨hrest, hall.2⟩,
                  List.getLast_cons (List.cons_ne_nil g' gs), DataStream.skip_skip, Nat.add_comm 1]
                rfl
              · have hrest : ¬ ((g' :: gs).length ≤ fuel ∧ k + 1 + (g' :: gs).length ≤ 5) := by
                  rwa [List.length_cons, Nat.succ_le_succ_iff] at hall
                rw [if_neg hall, if_neg hrest, ite_self]

end Loop

/-- The 64-bit words that are sign-extended 32-bit words. -/
def SignExtended (x : Nat) : Prop := x < 2 ^ 31 ∨ 2 ^ 64 - 2 ^ 31 ≤ x ∧ x < 2 ^ 64

section Words

variable {x y result k : Nat} {gs : List Nat}

theorem SignExtended.or (hx : SignExtended x) (hy : SignExtended y) : SignExtended (x ||| y) := by
  have hleft : x ≤ x ||| y := Nat.left_le_or
  have hright : y ≤ x ||| y := Nat.right_le_or
  rcases hx with hx | ⟨hxlo, hxhi⟩
  · rcases hy with hy | ⟨hylo, hyhi⟩
    · exact Or.inl (Nat.or_lt_two_pow hx hy)
    · exact Or.inr ⟨by omega, Nat.or_lt_two_pow (by omega) hyhi⟩
  · have hy64 : y < 2 ^ 64 := by
      rcases hy with hy | hy
      · omega
      · exact hy.2
    exact Or.inr ⟨by omega, Nat.or_lt_two_pow hxhi hy64⟩

theorem SignExtended.orSize (h : SignExtended result) (x : Int) :
    SignExtended (orSize result (Int.bmod x (2 ^ 32))) := by
  apply h.or
  have hlow := Int.le_bmod (x := x) (m := 2 ^ 32) (by decide)
  have hhigh := Int.bmod_lt (x := x) (m := 2 ^ 32) (by decide)
  unfold SignExtended
  omega

theorem SignExtended.orGroups (h : SignExtended result) (k : Nat) (gs : List Nat) :
    SignExtended (orGroups result k gs) := by
  induction gs generalizing result k with
  | nil => exact h
  | cons g gs ih => exact ih (h.orSize _) (k + 1)

/-- As a signed number a sign-extended word is an `int`. -/
theorem SignExtended.bmod_bounds (h : SignExtended x) :
    -2 ^ 31 ≤ Int.bmod x (2 ^ 64) ∧ Int.bmod x (2 ^ 64) < 2 ^ 31 := by
  unfold SignExtended at h
  rw [Int.bmod_def]
  split <;> omega

theorem orSize_of_lt (result : Nat) (hx : x < 2 ^ 31) :
    orSize result (Int.bmod x (2 ^ 32)) = result ||| x := by
  have hbmod : Int.bmod x (2 ^ 32) = x := by
    rw [Int.bmod_def]
    split <;> omega
  have hword : ((x : Int) % 2 ^ 64).toNat = x := by omega
  rw [orSize, hbmod, hword]

/-- Groups that stay below bit 31 add up to their value. -/
theorem orGroups_eq (hlt : ∀ g ∈ gs, g < 128) (hresult : result < 2 ^ (7 * k))
    (hfits : result + 2 ^ (7 * k) * groupsValue gs < 2 ^ 31) :
    orGroups result k gs = result + 2 ^ (7 * k) * groupsValue gs := by
  induction gs generalizing result k with
  | nil => rfl
  | cons g gs ih =>
      have hg : g < 128 := hlt g List.mem_cons_self
      have hpow : 2 ^ (7 * (k + 1)) = 2 ^ (7 * k) * 128 := by
        rw [Nat.mul_add, Nat.pow_add]
      have hvalue : 2 ^ (7 * k) * groupsValue (g :: gs) =
          2 ^ (7 * k) * g + 2 ^ (7 * (k + 1)) * groupsValue gs := by
        rw [groupsValue, hpow]
        ring
      have hjoin : result ||| g * 2 ^ (7 * k) = result + 2 ^ (7 * k) * g := by
        rw [Nat.mul_comm, Nat.or_comm, ← Nat.two_pow_add_eq_or_of_lt hresult, Nat.add_comm]
      have hnext : result + 2 ^ (7 * k) * g < 2 ^ (7 * (k + 1)) := by
        have hle : 2 ^ (7 * k) * g ≤ 2 ^ (7 * k) * 127 := Nat.mul_le_mul_left _ (by omega)
        rw [hpow]
        omega
      rw [hvalue] at hfits ⊢
      have hsmall : g * 2 ^ (7 * k) < 2 ^ 31 := by
        rw [Nat.mul_comm]
        omega
      have hword := orSize_of_lt result hsmall
      rw [Nat.cast_mul, Nat.cast_pow, Nat.cast_ofNat] at hword
      rw [orGroups, hword, hjoin, ih (fun x hx => hlt x (List.mem_cons_of_mem _ hx)) hnext (by omega)]
      omega

end Words

section Decode

variable {s : DataStream} {fuel v : Nat} {w : Int}

theorem decodeULeb128_uleb128 (hreads : Reads s (uleb128 v)) (fuel : Nat) :
    decodeULeb128 fuel s =
      if (ulebGroups v).length ≤ fuel ∧ (ulebGroups v).length ≤ 5 then
        some (orGroups 0 0 (ulebGroups v), s.skip (ulebGroups v).length)
      else none := by
  have hloop := decodeLeb128Loop_groups (ulebGroups_ne_nil v) (ulebGroups_lt v) hreads fuel 0 0
  rw [Nat.zero_add] at hloop
  rw [decodeULeb128, decodeULeb128Loop_eq, hloop]
  split
  · rfl
  · rfl

/-- An unsigned number comes back exactly if it fits the positive half of an `int`. -/
theorem decodeULeb128_iff (hreads : Reads s (uleb128 v)) :
    (∃ fuel, decodeULeb128 fuel s = some (v, s.skip (uleb128 v).length)) ↔ v < 2 ^ 31 := by
  have hlen : (ulebGroups v).length ≤ 5 ↔ v < 2 ^ 35 := ulebGroups_length_le_iff v 4
  have hbytes : (uleb128 v).length = (ulebGroups v).length := leb128Bytes_length _
  rw [hbytes]
  constructor
  · rintro ⟨fuel, hret⟩
    rw [decodeULeb128_uleb128 hreads] at hret
    split at hret
    · rename_i hshort
      have hvalue : orGroups 0 0 (ulebGroups v) = v := congrArg Prod.fst (Option.some.inj hret)
      have hword : SignExtended v := hvalue ▸ SignExtended.orGroups (Or.inl (by decide)) 0 _
      have hbound := hlen.mp hshort.2
      unfold SignExtended at hword
      omega
    · cases hret
  · intro hv
    have hvalue := groupsValue_ulebGroups v
    have hjoin := orGroups_eq (k := 0) (ulebGroups_lt v) (Nat.two_pow_pos _)
      (by rw [hvalue]; omega)
    refine ⟨(ulebGroups v).length, ?_⟩
    rw [decodeULeb128_uleb128 hreads, if_pos ⟨Nat.le_refl _, hlen.mpr (by omega)⟩, hjoin, hvalue]
    simp

/-- What the decoder makes of a signed encoding: a negative number also needs the bit behind its
last group to lie in an `int`. -/
theorem decodeLeb128_sleb128 (hreads : Reads s (sleb128 w)) (fuel : Nat) :
    decodeLeb128 fuel s =
      if (slebGroups w).length ≤ fuel ∧ (slebGroups w).length ≤ 5 then
        if w < 0 then
          (shlInt 1 (7 * (slebGroups w).length)).map fun one =>
            (Int.bmod (orSize (orGroups 0 0 (slebGroups w)) (Int.bmod (-one) (2 ^ 32))) (2 ^ 64),
              s.skip (slebGroups w).length)
        else some (Int.bmod (orGroups 0 0 (slebGroups w)) (2 ^ 64), s.skip (slebGroups w).length)
      else none := by
  have hne := slebGroups_ne_nil w
  have hlast : (slebGroups w).getLast hne < 128 := slebGroups_lt w _ (List.getLast_mem hne)
  have hsign := (sign_iff hlast).trans (slebGroups_sign w hne)
  have hloop := decodeLeb128Loop_groups hne (slebGroups_lt w) hreads fuel 0 0
  rw [Nat.zero_add] at hloop
  rw [decodeLeb128, hloop]
  by_cases hshort : (slebGroups w).length ≤ fuel ∧ (slebGroups w).length ≤ 5
  · rw [if_pos hshort, if_pos hshort]
    simp only [Option.bind_eq_bind, Option.bind_some]
    by_cases hneg : w < 0
    · rw [if_pos hneg, if_pos (hsign.mpr hneg), Option.map_eq_bind]
      rfl
    · rw [if_neg hneg, if_neg (hsign.not.mpr hneg)]
      rfl
  · rw [if_neg hshort, if_neg hshort]
    rfl

/-- The sign bits that are joined to a negative number. -/
theorem orSize_sign {result m : Nat} (hm : m ≤ 28) (hresult : result < 2 ^ m) :
    orSize result (Int.bmod (-Int.bmod (2 ^ m : Nat) (2 ^ 32)) (2 ^ 32)) =
      2 ^ 64 - 2 ^ m + result := by
  have hpow : 2 ^ m ≤ 2 ^ 28 := Nat.pow_le_pow_right (by decide) hm
  have hbits : 2 ^ 64 - 2 ^ m = 2 ^ m * (2 ^ (64 - m) - 1) := by
    rw [Nat.mul_sub, ← Nat.pow_add, Nat.mul_one]
    congr 2
    omega
  have hone : Int.bmod (2 ^ m : Nat) (2 ^ 32) = (2 ^ m : Nat) := by
    rw [Int.bmod_def]
    split <;> omega
  have hneg : Int.bmod (-((2 ^ m : Nat) : Int)) (2 ^ 32) = -((2 ^ m : Nat) : Int) := by
    rw [Int.bmod_def]
    split <;> omega
  have hword : (-((2 ^ m : Nat) : Int) % 2 ^ 64).toNat = 2 ^ 64 - 2 ^ m := by omega
  rw [orSize, hone, hneg, hword, hbits, Nat.or_comm, Nat.two_pow_add_eq_or_of_lt hresult]

theorem decodeLeb128_nonneg_iff (hreads : Reads s (sleb128 w)) (hw : 0 ≤ w) :
    (∃ fuel, decodeLeb128 fuel s = some (w, s.skip (slebGroups w).length)) ↔ w < 2 ^ 31 := by
  have hlen : (slebGroups w).length ≤ 5 ↔ -2 ^ 34 ≤ w ∧ w < 2 ^ 34 := slebGroups_length_le_iff w 4
  constructor
  · rintro ⟨fuel, hret⟩
    rw [decodeLeb128_sleb128 hreads, if_neg (show ¬ w < 0 by omega)] at hret
    split at hret
    · obtain ⟨hvalue, -⟩ := Prod.mk.inj (Option.some.inj hret)
      have hword : SignExtended (orGroups 0 0 (slebGroups w)) :=
        SignExtended.orGroups (Or.inl (by decide)) 0 _
      have hbounds := hword.bmod_bounds
      rw [hvalue] at hbounds
      exact hbounds.2
    · cases hret
  · intro hsmall
    have hvalue := groupsValue_slebGroups w
    rw [if_neg (by omega)] at hvalue
    have hjoin := orGroups_eq (k := 0) (slebGroups_lt w) (Nat.two_pow_pos _) (by omega)
    refine ⟨(slebGroups w).length, ?_⟩
    rw [decodeLeb128_sleb128 hreads, if_pos ⟨Nat.le_refl _, hlen.mpr (by omega)⟩,
      if_neg (show ¬ w < 0 by omega), hjoin]
    have hword : Int.bmod ((0 + 2 ^ (7 * 0) * groupsValue (slebGroups w) : Nat) : Int) (2 ^ 64) =
        w := by
      rw [Int.bmod_def]
      split <;> omega
    rw [hword]

theorem decodeLeb128_neg_iff (hreads : Reads s (sleb128 w)) (hw : w < 0) :
    (∃ fuel, decodeLeb128 fuel s = some (w, s.skip (slebGroups w).length)) ↔ -2 ^ 27 ≤ w := by
  have hlen : (slebGroups w).length ≤ 4 ↔ -2 ^ 27 ≤ w ∧ w < 2 ^ 27 := slebGroups_length_le_iff w 3
  constructor
  · rintro ⟨fuel, hret⟩
    rw [decodeLeb128_sleb128 hreads, if_pos hw] at hret
    split at hret
    · obtain ⟨one, hshift, -⟩ := Option.map_eq_some_iff.mp hret
      rw [shlInt] at hshift
      split at hshift
      · exact (hlen.mp (by omega)).1
      · cases hshift
    · cases hret
  · intro hsmall
    have hshort := hlen.mpr ⟨hsmall, by omega⟩
    obtain ⟨n, hn⟩ : ∃ n, (slebGroups w).length = n := ⟨_, rfl⟩
    have hvalue := groupsValue_slebGroups w
    rw [hn] at hshort
    rw [if_pos hw, hn] at hvalue
    have hpow : (2 : Nat) ^ (7 * n) = 128 ^ n := Nat.pow_mul 2 7 n
    have hbound : 128 ^ n ≤ 128 ^ 4 := Nat.pow_le_pow_right (by decide) hshort
    have hrange : ((128 : Int) ^ n) = (128 ^ n : Nat) := by push_cast; rfl
    have hjoin := orGroups_eq (k := 0) (slebGroups_lt w) (Nat.two_pow_pos _) (by omega)
    have hlow : orGroups 0 0 (slebGroups w) < 2 ^ (7 * n) := by
      rw [hjoin, hpow]
      omega
    have hsign := orSize_sign (m := 7 * n) (by omega) hlow
    have hone : ((1 : Nat) : Int) * 2 ^ (7 * n) = (2 ^ (7 * n) : Nat) := by
      push_cast
      ring
    have hword : Int.bmod ((2 ^ 64 - 2 ^ (7 * n) + orGroups 0 0 (slebGroups w) : Nat) : Int)
        (2 ^ 64) = w := by
      rw [hjoin, hpow, Int.bmod_def]
      split <;> omega
    refine ⟨n, ?_⟩
    rw [decodeLeb128_sleb128 hreads, hn, if_pos ⟨Nat.le_refl _, by omega⟩, if_pos hw, shlInt,
      if_pos (by omega), Option.map_some, hone, hsign, hword]

/-- Decoding inverts encoding exactly for the unsigned numbers below `2 ^ 31` and for the signed
ones between `-2 ^ 27` and `2 ^ 31`, and the index then moves over the encoding. -/
theorem leb128_inverts_iff {s s' : DataStream} {v : Nat} {w : Int} (hreads : Reads s (uleb128 v))
    (hreads' : Reads s' (sleb128 w)) :
    ((∃ fuel, decodeULeb128 fuel s = some (v, s.skip (uleb128 v).length)) ↔ v < 2 ^ 31) ∧
      ((∃ fuel, decodeLeb128 fuel s' = some (w, s'.skip (sleb128 w).length)) ↔
        -2 ^ 27 ≤ w ∧ w < 2 ^ 31) := by
  refine ⟨decodeULeb128_iff hreads, ?_⟩
  have hbytes : (sleb128 w).length = (slebGroups w).length := leb128Bytes_length _
  rw [hbytes]
  by_cases hw : w < 0
  · rw [decodeLeb128_neg_iff hreads' hw]
    omega
  · rw [decodeLeb128_nonneg_iff hreads' (by omega)]
    omega

/-- A stream of these bytes and then zeros. -/
def streamOf (bytes : List UInt8) : DataStream := ⟨fun i => bytes.getD i 0, 0⟩

theorem streamOf_reads (bytes : List UInt8) : Reads (streamOf bytes) bytes := by
  intro i hi
  simp [streamOf, hi]

/-- Three hundred in two bytes, and minus three hundred. -/
theorem leb128_inverts_three_hundred :
    (∃ fuel, decodeULeb128 fuel (streamOf (uleb128 300)) =
      some (300, (streamOf (uleb128 300)).skip (uleb128 300).length)) ∧
    ∃ fuel, decodeLeb128 fuel (streamOf (sleb128 (-300))) =
      some (-300, (streamOf (sleb128 (-300))).skip (sleb128 (-300)).length) := by
  have hinverts := @leb128_inverts_iff _ _ 300 (-300) (streamOf_reads _) (streamOf_reads _)
  exact ⟨hinverts.1.mpr (by decide), hinverts.2.mpr (by decide)⟩

/-- The fifth group of `2 ^ 31` is shifted into the sign of the `int`. -/
theorem leb128_sign_extended :
    Reads (streamOf (uleb128 (2 ^ 31))) (uleb128 (2 ^ 31)) ∧
      ¬ ∃ fuel, decodeULeb128 fuel (streamOf (uleb128 (2 ^ 31))) =
        some (2 ^ 31, (streamOf (uleb128 (2 ^ 31))).skip (uleb128 (2 ^ 31)).length) := by
  refine ⟨streamOf_reads _, fun hret => ?_⟩
  exact absurd ((decodeULeb128_iff (streamOf_reads _)).mp hret) (by decide)

end Decode

end Tellurium.LibTellur
