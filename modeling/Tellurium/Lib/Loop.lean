import Mathlib.Data.List.Basic
import Mathlib.Data.List.Range
import Mathlib.Data.List.Nodup

/-!
Counting loops over arrays. A C loop `for (int i = lo; i < hi; i++)` is a left fold
over the integers it visits, and a loop whose body rewrites one cell per visit is
described cell by cell: a cell no visit names keeps its value, and a cell named by
exactly one visit holds that visit's result.
-/

namespace Tellurium.Lib

/-- The integers visited by `for (int i = lo; i < hi; i++)`, in order. -/
def intRange (lo hi : Int) : List Int :=
  (List.range (hi - lo).toNat).map fun (k : Nat) => lo + (k : Int)

@[simp] theorem mem_intRange (lo hi i : Int) : i ∈ intRange lo hi ↔ lo ≤ i ∧ i < hi := by
  simp only [intRange, List.mem_map, List.mem_range]
  constructor
  · rintro ⟨k, hk, rfl⟩
    omega
  · intro h
    exact ⟨(i - lo).toNat, by omega, by omega⟩

theorem nodup_intRange (lo hi : Int) : (intRange lo hi).Nodup := by
  apply List.Nodup.map _ List.nodup_range
  intro a b hab
  dsimp only at hab
  omega

section Writes

variable {α β : Type*} [Inhabited β]

/-- Visit `a` rewrites cell `target a` of the array from the value it holds. -/
def rewriteCell (target : α → Nat) (value : α → β → β) (buff : Array β) (a : α) : Array β :=
  buff.setIfInBounds (target a) (value a buff[target a]!)

variable (target : α → Nat) (value : α → β → β)

@[simp] theorem size_rewriteCell (buff : Array β) (a : α) :
    (rewriteCell target value buff a).size = buff.size := by
  simp [rewriteCell]

theorem size_foldl_rewriteCell (visits : List α) (buff : Array β) :
    (visits.foldl (rewriteCell target value) buff).size = buff.size := by
  induction visits generalizing buff with
  | nil => rfl
  | cons a rest ih => rw [List.foldl_cons, ih, size_rewriteCell]

theorem rewriteCell_of_ne (buff : Array β) (a : α) (k : Nat) (h : target a ≠ k) :
    (rewriteCell target value buff a)[k]! = buff[k]! := by
  simp only [rewriteCell, getElem!_def]
  rw [Array.getElem?_setIfInBounds_ne h]

theorem rewriteCell_same (buff : Array β) (a : α) (h : target a < buff.size) :
    (rewriteCell target value buff a)[target a]! = value a buff[target a]! := by
  simp only [rewriteCell, getElem!_def]
  rw [Array.getElem?_setIfInBounds_self_of_lt h]

theorem foldl_rewriteCell_of_not_target (visits : List α) (buff : Array β) (k : Nat)
    (h : ∀ a ∈ visits, target a ≠ k) :
    (visits.foldl (rewriteCell target value) buff)[k]! = buff[k]! := by
  induction visits generalizing buff with
  | nil => rfl
  | cons a rest ih =>
      rw [List.foldl_cons, ih _ fun b hb => h b (List.mem_cons_of_mem a hb)]
      exact rewriteCell_of_ne target value buff a k (h a List.mem_cons_self)

/-- A cell that exactly one visit names is rewritten once, from its first value. -/
theorem foldl_rewriteCell_of_unique_target (visits : List α) (buff : Array β) (a : α)
    (hnodup : visits.Nodup) (hmem : a ∈ visits) (hbound : target a < buff.size)
    (hunique : ∀ b ∈ visits, target b = target a → b = a) :
    (visits.foldl (rewriteCell target value) buff)[target a]! =
      value a buff[target a]! := by
  induction visits generalizing buff with
  | nil => simp at hmem
  | cons b rest ih =>
      obtain ⟨hfresh, hrest⟩ := List.nodup_cons.mp hnodup
      rw [List.foldl_cons]
      by_cases hba : b = a
      · subst hba
        rw [foldl_rewriteCell_of_not_target, rewriteCell_same target value buff b hbound]
        intro c hc htarget
        have hcb := hunique c (List.mem_cons_of_mem b hc) htarget
        exact hfresh (hcb ▸ hc)
      · have hne : target b ≠ target a := fun h => hba (hunique b List.mem_cons_self h)
        have hin : a ∈ rest := (List.mem_cons.mp hmem).resolve_left (Ne.symm hba)
        rw [ih _ hrest hin (by simpa using hbound)
          fun c hc => hunique c (List.mem_cons_of_mem b hc)]
        rw [rewriteCell_of_ne target value buff b _ hne]

end Writes

section Checked

variable {α σ : Type*}

/-- A loop whose body may fail runs like the plain loop if no visit fails from a state that
satisfies the loop invariant. -/
theorem foldlM_eq_foldl {good : σ → Prop} {body : σ → α → Option σ} {plain : σ → α → σ}
    {visits : List α} {start : σ} (hstart : good start)
    (hbody : ∀ s, good s → ∀ a ∈ visits, body s a = some (plain s a) ∧ good (plain s a)) :
    visits.foldlM body start = some (visits.foldl plain start) ∧
      good (visits.foldl plain start) := by
  induction visits generalizing start with
  | nil => exact ⟨rfl, hstart⟩
  | cons a rest ih =>
      obtain ⟨hrun, hgood⟩ := hbody start hstart a List.mem_cons_self
      rw [List.foldlM_cons, List.foldl_cons, hrun]
      exact ih hgood fun s hs b hb => hbody s hs b (List.mem_cons_of_mem a hb)

end Checked

/-- The invariant of a loop that counts up to `n`. -/
theorem fold_inv {σ : Type*} {n : Nat} {body : Nat → σ → σ} {s : σ} (P : Nat → σ → Prop)
    (h₀ : P 0 s) (hstep : ∀ i < n, ∀ s, P i s → P (i + 1) (body i s)) :
    P n (n.fold (fun i _ s => body i s) s) := by
  induction n with
  | zero => exact h₀
  | succ n ih =>
      rw [Nat.fold_succ]
      exact hstep n (Nat.lt_succ_self n) _ (ih fun i hi => hstep i (Nat.lt_succ_of_lt hi))

end Tellurium.Lib
