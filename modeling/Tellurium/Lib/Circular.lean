import Mathlib.Data.List.Basic
import Mathlib.Logic.Function.Basic

/-!
Queues in an array of fixed size with a head, a tail and a counter. Both ends step through
the array and start over at its end. `Holds` is the abstract view: the items in the queue,
oldest first.
-/

namespace Tellurium.Lib

variable {α : Type*}

structure Circular (α : Type*) where
  cells : Nat → α
  head : Nat
  tail : Nat
  count : Nat

namespace Circular

def advance (size i : Nat) : Nat := if i + 1 ≥ size then 0 else i + 1

/-- Store behind the newest item. -/
def enqueue (size : Nat) (q : Circular α) (x : α) : Circular α where
  cells := Function.update q.cells q.tail x
  head := q.head
  tail := advance size q.tail
  count := q.count + 1

/-- The oldest item. -/
def front (q : Circular α) : α := q.cells q.head

def dequeue (size : Nat) (q : Circular α) : Circular α :=
  {q with head := advance size q.head, count := q.count - 1}

/-- The queue holds exactly these items, oldest first. -/
structure Holds (size : Nat) (q : Circular α) (items : List α) : Prop where
  head_lt : q.head < size
  tail_eq : q.tail = (q.head + items.length) % size
  count_eq : q.count = items.length
  length_le : items.length ≤ size
  cell : ∀ i (hi : i < items.length), q.cells ((q.head + i) % size) = items[i]

variable {size : Nat} {q : Circular α} {items : List α} {x : α}

theorem advance_eq {i : Nat} (hi : i < size) : advance size i = (i + 1) % size := by
  unfold advance
  split_ifs with hend
  · rw [show i + 1 = size by omega, Nat.mod_self]
  · rw [Nat.mod_eq_of_lt (by omega)]

theorem holds_empty (cells : Nat → α) (hsize : 0 < size) : Holds size ⟨cells, 0, 0, 0⟩ [] where
  head_lt := hsize
  tail_eq := by simp
  count_eq := rfl
  length_le := Nat.zero_le _
  cell i hi := absurd hi (Nat.not_lt_zero i)

/-- The free cell is none of the occupied ones, since fewer than `size` places lie between
the ends. -/
theorem Holds.enqueue (h : Holds size q items) (hroom : items.length < size) (x : α) :
    Holds size (q.enqueue size x) (items ++ [x]) where
  head_lt := h.head_lt
  tail_eq := by
    have htail : q.tail < size := h.tail_eq ▸ Nat.mod_lt _ (by omega)
    simp only [Circular.enqueue, advance_eq htail, List.length_append, List.length_singleton]
    rw [h.tail_eq, Nat.mod_add_mod, Nat.add_assoc]
  count_eq := by simp [Circular.enqueue, h.count_eq]
  length_le := by
    rw [List.length_append, List.length_singleton]
    exact hroom
  cell i hi := by
    rw [List.length_append, List.length_singleton] at hi
    simp only [Circular.enqueue]
    by_cases hlast : i = items.length
    · subst hlast
      rw [h.tail_eq, Function.update_self, List.getElem_concat_length rfl]
    · have hold : i < items.length := by omega
      have hne : (q.head + i) % size ≠ q.tail := by
        have hhead := h.head_lt
        rw [h.tail_eq, Nat.add_mod_eq_ite, Nat.add_mod_eq_ite, Nat.mod_eq_of_lt hhead,
          Nat.mod_eq_of_lt (show i < size by omega), Nat.mod_eq_of_lt hroom]
        split_ifs <;> omega
      rw [Function.update_of_ne hne, List.getElem_append_left hold]
      exact h.cell i hold

theorem Holds.front (h : Holds size q (x :: items)) : q.front = x := by
  have hcell := h.cell 0 (Nat.succ_pos _)
  rwa [Nat.add_zero, Nat.mod_eq_of_lt h.head_lt] at hcell

theorem Holds.dequeue (h : Holds size q (x :: items)) : Holds size (q.dequeue size) items where
  head_lt := by
    simp only [Circular.dequeue, advance_eq h.head_lt]
    exact Nat.mod_lt _ (Nat.zero_lt_of_lt h.head_lt)
  tail_eq := by
    simp only [Circular.dequeue, advance_eq h.head_lt, h.tail_eq, List.length_cons,
      Nat.mod_add_mod]
    congr 1
    omega
  count_eq := by simp [Circular.dequeue, h.count_eq]
  length_le := Nat.le_of_succ_le h.length_le
  cell i hi := by
    have hcell := h.cell (i + 1) (Nat.succ_lt_succ hi)
    simp only [Circular.dequeue, advance_eq h.head_lt, Nat.mod_add_mod]
    rw [Nat.add_right_comm, Nat.add_assoc, hcell, List.getElem_cons_succ]

theorem Holds.count_eq_zero_iff (h : Holds size q items) : q.count = 0 ↔ items = [] := by
  rw [h.count_eq, List.length_eq_zero_iff]

end Circular

end Tellurium.Lib
