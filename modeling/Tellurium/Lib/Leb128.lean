import Mathlib.Data.List.Basic
import Mathlib.Tactic.Ring

/-!
LEB128. A number is cut into groups of seven bits, lowest first, and each group is one byte,
with the high bit set on all but the last. The unsigned encoding has no group of leading
zeros; the signed one ends with the first group that shows the sign in its bit 6.
-/

namespace Tellurium.Lib

/-- The bytes of a list of groups. -/
def leb128Bytes : List Nat → List UInt8
  | [] => []
  | [g] => [UInt8.ofNat g]
  | g :: gs => UInt8.ofNat (g + 128) :: leb128Bytes gs

/-- The groups of the unsigned encoding. -/
def ulebGroups (v : Nat) : List Nat :=
  if v < 128 then [v] else v % 128 :: ulebGroups (v / 128)

/-- The groups of the signed encoding. -/
def slebGroups (v : Int) : List Nat :=
  if -64 ≤ v ∧ v < 64 then [(v % 128).toNat] else (v % 128).toNat :: slebGroups (v / 128)
termination_by v.natAbs

def uleb128 (v : Nat) : List UInt8 := leb128Bytes (ulebGroups v)

def sleb128 (v : Int) : List UInt8 := leb128Bytes (slebGroups v)

/-- The number that the groups spell. -/
def groupsValue : List Nat → Nat
  | [] => 0
  | g :: gs => g + 128 * groupsValue gs

@[simp] theorem leb128Bytes_length (gs : List Nat) : (leb128Bytes gs).length = gs.length := by
  induction gs with
  | nil => rfl
  | cons g gs ih =>
      cases gs with
      | nil => rfl
      | cons g' gs =>
          rw [leb128Bytes, List.length_cons, ih, List.length_cons (a := g)]
          simp

theorem ulebGroups_ne_nil (v : Nat) : ulebGroups v ≠ [] := by
  rw [ulebGroups]
  split <;> simp

theorem ulebGroups_lt (v : Nat) : ∀ g ∈ ulebGroups v, g < 128 := by
  induction v using ulebGroups.induct with
  | case1 v hsmall =>
      rw [ulebGroups, if_pos hsmall]
      simpa using hsmall
  | case2 v hbig ih =>
      rw [ulebGroups, if_neg hbig]
      exact List.forall_mem_cons.mpr ⟨Nat.mod_lt _ (by decide), ih⟩

theorem groupsValue_ulebGroups (v : Nat) : groupsValue (ulebGroups v) = v := by
  induction v using ulebGroups.induct with
  | case1 v hsmall =>
      rw [ulebGroups, if_pos hsmall, groupsValue, groupsValue]
      omega
  | case2 v hbig ih =>
      rw [ulebGroups, if_neg hbig, groupsValue, ih]
      omega

/-- `k + 1` groups are enough for a number of at most `7 * (k + 1)` bits, and not for more. -/
theorem ulebGroups_length_le_iff (v k : Nat) :
    (ulebGroups v).length ≤ k + 1 ↔ v < 128 ^ (k + 1) := by
  induction k generalizing v with
  | zero =>
      rw [ulebGroups]
      split
      · simpa
      · have hpos := List.length_pos_iff.mpr (ulebGroups_ne_nil (v / 128))
        rw [List.length_cons]
        omega
  | succ k ih =>
      rw [ulebGroups]
      split
      · have hpow : 128 ≤ 128 ^ (k + 1 + 1) := Nat.le_self_pow (by omega) 128
        simp only [List.length_singleton]
        omega
      · rw [List.length_cons, Nat.succ_le_succ_iff, ih, Nat.pow_succ _ (k + 1),
          Nat.div_lt_iff_lt_mul (by decide)]

theorem slebGroups_ne_nil (v : Int) : slebGroups v ≠ [] := by
  rw [slebGroups]
  split <;> simp

theorem slebGroups_lt (v : Int) : ∀ g ∈ slebGroups v, g < 128 := by
  induction v using slebGroups.induct with
  | case1 v hsmall =>
      rw [slebGroups, if_pos hsmall]
      simp only [List.mem_singleton, forall_eq]
      omega
  | case2 v hbig ih =>
      rw [slebGroups, if_neg hbig]
      exact List.forall_mem_cons.mpr ⟨by omega, ih⟩

/-- The groups spell the number in two's complement. -/
theorem groupsValue_slebGroups (v : Int) :
    (groupsValue (slebGroups v) : Int) =
      if v < 0 then v + 128 ^ (slebGroups v).length else v := by
  induction v using slebGroups.induct with
  | case1 v hsmall =>
      rw [slebGroups, if_pos hsmall, groupsValue, groupsValue, List.length_singleton]
      split <;> omega
  | case2 v hbig ih =>
      rw [slebGroups, if_neg hbig, groupsValue, List.length_cons, Int.pow_succ]
      push_cast
      rw [ih]
      split <;> split <;> omega

/-- Bit 6 of the last group is the sign. -/
theorem slebGroups_sign (v : Int) (hne : slebGroups v ≠ []) :
    64 ≤ (slebGroups v).getLast hne ↔ v < 0 := by
  induction v using slebGroups.induct with
  | case1 v hsmall =>
      have hgroups : slebGroups v = [(v % 128).toNat] := by rw [slebGroups, if_pos hsmall]
      rw [List.getLast_congr hne (List.cons_ne_nil _ _) hgroups, List.getLast_singleton]
      omega
  | case2 v hbig ih =>
      have hgroups : slebGroups v = (v % 128).toNat :: slebGroups (v / 128) := by
        rw [slebGroups, if_neg hbig]
      rw [List.getLast_congr hne (List.cons_ne_nil _ _) hgroups,
        List.getLast_cons (slebGroups_ne_nil _), ih]
      omega

theorem slebGroups_length_le_iff (v : Int) (k : Nat) :
    (slebGroups v).length ≤ k + 1 ↔ -(64 * 128 ^ k) ≤ v ∧ v < 64 * 128 ^ k := by
  induction k generalizing v with
  | zero =>
      rw [slebGroups]
      split
      · simpa
      · have hpos := List.length_pos_iff.mpr (slebGroups_ne_nil (v / 128))
        rw [List.length_cons]
        omega
  | succ k ih =>
      have hpow : (1 : Int) ≤ 128 ^ k := Int.pow_pos (by decide)
      rw [slebGroups]
      split
      · simp only [List.length_singleton, Int.pow_succ]
        omega
      · rw [List.length_cons, Nat.succ_le_succ_iff, ih, Int.pow_succ]
        omega

end Tellurium.Lib
