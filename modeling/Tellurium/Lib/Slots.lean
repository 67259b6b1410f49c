import Mathlib.Data.List.Basic

/-!
Arrays that are filled up to a counter, read as lists. Opening a gap and closing one in the
array are insertion into the list and removal from it.
-/

namespace Tellurium.Lib

variable {α : Type*}

/-- The first `n` slots. -/
def slots (f : Nat → α) (n : Nat) : List α := (List.range n).map f

namespace Slots

variable {f g : Nat → α} {n i : Nat} {x : α}

@[simp] theorem length (f : Nat → α) (n : Nat) : (slots f n).length = n := by
  simp [slots]

theorem getElem? (f : Nat → α) (n j : Nat) :
    (slots f n)[j]? = if j < n then some (f j) else none := by
  rw [slots, List.getElem?_map]
  split_ifs with hj
  · simp [hj]
  · simp [Nat.not_lt.mp hj]

theorem mem_iff : x ∈ slots f n ↔ ∃ j < n, f j = x := by
  simp [slots]

theorem exists_of_mem_take (h : x ∈ (slots f n).take i) : ∃ j < i, j < n ∧ f j = x := by
  obtain ⟨j, hj⟩ := List.mem_iff_getElem?.mp h
  rw [List.getElem?_take, getElem?] at hj
  split_ifs at hj with hi hn
  exact ⟨j, hi, hn, Option.some.inj hj⟩

theorem exists_of_mem_drop (h : x ∈ (slots f n).drop i) : ∃ j, i ≤ j ∧ j < n ∧ f j = x := by
  obtain ⟨j, hj⟩ := List.mem_iff_getElem?.mp h
  rw [List.getElem?_drop, getElem?] at hj
  split_ifs at hj with hn
  exact ⟨i + j, Nat.le_add_right i j, hn, Option.some.inj hj⟩

theorem pairwise_iff {R : α → α → Prop} :
    (slots f n).Pairwise R ↔ ∀ i j, i < j → j < n → R (f i) (f j) := by
  rw [List.pairwise_iff_getElem]
  constructor
  · intro h i j hij hj
    simpa [slots] using h i j (by simpa using Nat.lt_trans hij hj) (by simpa using hj) hij
  · intro h i j hi hj hij
    simpa [slots] using h i j hij (by simpa using hj)

theorem congr (h : ∀ j < n, g j = f j) : slots g n = slots f n :=
  List.map_congr_left fun j hj => h j (List.mem_range.mp hj)

/-- A gap at `i` with `x` put into it. -/
theorem insert (hi : i ≤ n) (hlow : ∀ j < i, g j = f j) (hat : g i = x)
    (hhigh : ∀ j, i ≤ j → j < n → g (j + 1) = f j) :
    slots g (n + 1) = (slots f n).take i ++ x :: (slots f n).drop i := by
  apply List.ext_getElem?
  intro j
  have htake : ((slots f n).take i).length = i := by
    rw [List.length_take, length, Nat.min_eq_left hi]
  rw [getElem?]
  rcases Nat.lt_trichotomy j i with hlt | rfl | hgt
  · rw [List.getElem?_append_left (by omega), List.getElem?_take, if_pos hlt, getElem?,
      if_pos (by omega), if_pos (by omega), hlow j hlt]
  · rw [List.getElem?_append_right (by omega), htake, Nat.sub_self, List.getElem?_cons_zero,
      if_pos (by omega), hat]
  · obtain ⟨k, rfl⟩ := Nat.exists_eq_add_of_lt hgt
    rw [List.getElem?_append_right (by omega), htake, show i + k + 1 - i = k + 1 by omega,
      List.getElem?_cons_succ, List.getElem?_drop, getElem?]
    by_cases hj : i + k < n
    · rw [if_pos (by omega), if_pos hj, hhigh _ (by omega) hj]
    · rw [if_neg (by omega), if_neg hj]

/-- The slots above `i` moved down by one. -/
theorem erase (hi : i ≤ n) (hlow : ∀ j < i, g j = f j)
    (hhigh : ∀ j, i ≤ j → j < n → g j = f (j + 1)) :
    slots g n = (slots f (n + 1)).eraseIdx i := by
  apply List.ext_getElem?
  intro j
  rw [getElem?, List.getElem?_eraseIdx, getElem?, getElem?]
  split_ifs with hj hji
  · rw [hlow j hji]
  · omega
  · rw [hhigh j (by omega) hj]
  all_goals first | rfl | omega

end Slots

end Tellurium.Lib
