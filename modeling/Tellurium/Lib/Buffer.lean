import Mathlib.Data.List.Basic
import Mathlib.Logic.Function.Basic

/-!
Buffers that are filled place by place. A list is stored at a place one element after the other;
two indices that move towards each other and swap what they point to reverse the places between
them.
-/

namespace Tellurium.Lib

variable {α : Type*}

/-- The buffer after the elements were stored from `p` on. -/
def storeList (mem : Nat → α) (p : Nat) : List α → Nat → α
  | [] => mem
  | a :: l => storeList (Function.update mem p a) (p + 1) l

/-- `for (; j < i; j++, i--)` swaps places `j` and `i`. -/
def swapLoop (mem : Nat → α) (j i : Nat) : Nat → α :=
  if j < i then swapLoop (Function.update (Function.update mem j (mem i)) i (mem j)) (j + 1) (i - 1)
  else mem
termination_by i - j

variable {mem : Nat → α} {p k : Nat} {l l' : List α}

theorem storeList_out (mem : Nat → α) (l : List α) (h : k < p ∨ p + l.length ≤ k) :
    storeList mem p l k = mem k := by
  induction l generalizing mem p with
  | nil => rfl
  | cons a l ih =>
      rw [List.length_cons] at h
      rw [storeList, ih _ (by omega), Function.update_of_ne (by omega)]

theorem storeList_in (mem : Nat → α) {i : Nat} {a : α} (h : l[i]? = some a) :
    storeList mem p l (p + i) = a := by
  induction l generalizing mem p i with
  | nil => cases h
  | cons b l ih =>
      rw [storeList]
      cases i with
      | zero =>
          cases h
          rw [storeList_out _ _ (by omega), Nat.add_zero, Function.update_self]
      | succ i =>
          rw [List.getElem?_cons_succ] at h
          have hnext := @ih (p + 1) (Function.update mem p b) i h
          rwa [Nat.add_assoc, Nat.add_comm 1] at hnext

theorem storeList_append (mem : Nat → α) (p : Nat) (l l' : List α) :
    storeList mem p (l ++ l') = storeList (storeList mem p l) (p + l.length) l' := by
  induction l generalizing mem p with
  | nil => rfl
  | cons a l ih =>
      rw [List.cons_append, storeList, ih, storeList, List.length_cons, Nat.add_assoc, Nat.add_comm 1]

/-- The places between the two indices change their order. -/
theorem swapLoop_apply (mem : Nat → α) (j i k : Nat) :
    swapLoop mem j i k = if j ≤ k ∧ k ≤ i then mem (j + i - k) else mem k := by
  induction hdistance : i - j using Nat.strongRecOn generalizing mem j i with
  | ind distance ih =>
      rw [swapLoop]
      by_cases hlt : j < i
      · rw [if_pos hlt, ih (i - 1 - (j + 1)) (by omega) _ _ _ rfl]
        have hsum : j + 1 + (i - 1) = j + i := by omega
        rw [hsum]
        by_cases hinner : j + 1 ≤ k ∧ k ≤ i - 1
        · rw [if_pos hinner, if_pos (by omega), Function.update_of_ne (by omega),
            Function.update_of_ne (by omega)]
        · rw [if_neg hinner]
          by_cases hki : k = i
          · subst hki
            rw [Function.update_self, if_pos (by omega), Nat.add_sub_cancel]
          · rw [Function.update_of_ne hki]
            by_cases hkj : k = j
            · subst hkj
              rw [Function.update_self, if_pos (by omega), Nat.add_sub_cancel_left]
            · rw [Function.update_of_ne hkj, if_neg (by omega)]
      · rw [if_neg hlt]
        by_cases hk : j ≤ k ∧ k ≤ i
        · have heq : j + i - k = k := by omega
          rw [if_pos hk, heq]
        · rw [if_neg hk]

/-- Swapping the places of a stored list stores the reversed list; what stands behind the list
stays. -/
theorem swapLoop_storeList (mem : Nat → α) (p : Nat) (hne : l ≠ []) (rest : List α) :
    swapLoop (storeList mem p (l ++ rest)) p (p + l.length - 1) =
      storeList mem p (l.reverse ++ rest) := by
  have hpos := List.length_pos_of_ne_nil hne
  funext k
  rw [swapLoop_apply]
  by_cases hk : p ≤ k ∧ k ≤ p + l.length - 1
  · obtain ⟨i, rfl⟩ : ∃ i, k = p + i := ⟨k - p, by omega⟩
    have hi : i < l.length := by omega
    have hmirror : l.length - 1 - i < l.length := by omega
    have hplace : p + (p + l.length - 1) - (p + i) = p + (l.length - 1 - i) := by omega
    have hold : (l ++ rest)[l.length - 1 - i]? = some (l.get ⟨_, hmirror⟩) := by
      rw [List.getElem?_append_left hmirror]
      exact List.getElem?_eq_getElem hmirror
    have hnew : (l.reverse ++ rest)[i]? = some (l.get ⟨_, hmirror⟩) := by
      rw [List.getElem?_append_left (by rwa [List.length_reverse]), List.getElem?_reverse hi]
      exact List.getElem?_eq_getElem hmirror
    rw [if_pos hk, hplace, storeList_in mem hold, storeList_in mem hnew]
  · rw [if_neg hk, storeList_append, storeList_append, List.length_reverse]
    by_cases hrest : p + l.length ≤ k ∧ k < p + l.length + rest.length
    · obtain ⟨i, rfl⟩ : ∃ i, k = p + l.length + i := ⟨k - (p + l.length), by omega⟩
      have hi := List.getElem?_eq_getElem (show i < rest.length by omega)
      rw [storeList_in _ hi, storeList_in _ hi]
    · rw [storeList_out _ _ (by omega), storeList_out _ _ (by omega), storeList_out _ _ (by omega),
        storeList_out _ _ (by rw [List.length_reverse]; omega)]

end Tellurium.Lib
