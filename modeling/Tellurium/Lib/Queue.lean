import Mathlib.Data.List.Basic
import Mathlib.Data.List.Nodup
import Mathlib.Data.List.TakeWhile
import Mathlib.Logic.Function.Basic

/-!
Intrusive first-in first-out queues. The elements are numbers, and the link of an element is
kept outside of it. A queue stands for the list that the links visit from its head. Pushing an
element that is already queued makes it the last one and cuts off what was behind it.
-/

namespace Tellurium.Lib

structure Queue where
  head : Option Nat
  tail : Option Nat
  next : Nat → Option Nat

namespace Queue

def empty : Queue := ⟨none, none, fun _ => none⟩

def push (q : Queue) (t : Nat) : Queue :=
  let next :=
    match q.head, q.tail with
    | some _, some last => Function.update q.next last (some t)
    | _, _ => q.next
  {head := some (q.head.getD t), tail := some t, next := Function.update next t none}

def pop (q : Queue) : Option Nat × Queue :=
  match q.head with
  | none => (none, q)
  | some t =>
      (some t, {head := q.next t, tail := if q.next t = none then none else q.tail,
                next := Function.update q.next t none})

/-- The element that `k` links lead to from the head. -/
def nth (q : Queue) : Nat → Option Nat
  | 0 => q.head
  | k + 1 => (q.nth k).bind q.next

def Mem (q : Queue) (t : Nat) : Prop := ∃ k, q.nth k = some t

/-- The element occurs at one position at most. -/
def Once (q : Queue) (t : Nat) : Prop := ∀ i j, q.nth i = some t → q.nth j = some t → i = j

/-- Each element links to the following one, the last one to nothing. -/
def Path (next : Nat → Option Nat) : List Nat → Prop
  | [] => True
  | t :: l => next t = l.head? ∧ Path next l

/-- The queue stands for the list. -/
structure Is (q : Queue) (l : List Nat) : Prop where
  nodup : l.Nodup
  head : q.head = l.head?
  tail : q.tail = l.getLast?
  path : Path q.next l

variable {q : Queue} {next next' : Nat → Option Nat} {l a b : List Nat} {t : Nat}

theorem Path.congr (h : Path next l) (hnext : ∀ x ∈ l, next' x = next x) : Path next' l := by
  induction l with
  | nil => trivial
  | cons x l ih =>
      refine ⟨by rw [hnext x (by simp), h.1], ih h.2 fun y hy => ?_⟩
      exact hnext y (List.mem_cons_of_mem _ hy)

theorem Path.next_getElem (h : Path next l) {k : Nat} (hk : l[k]? = some t) :
    next t = l[k + 1]? := by
  induction l generalizing k with
  | nil => simp at hk
  | cons x l ih =>
      cases k with
      | zero =>
          obtain rfl : x = t := by simpa using hk
          rw [h.1, List.getElem?_cons_succ, List.head?_eq_getElem?]
      | succ k =>
          rw [List.getElem?_cons_succ] at hk ⊢
          exact ih h.2 hk

/-- The path up to an element whose link is cut. -/
theorem Path.truncate (h : Path next (a ++ t :: b)) (ht : next' t = none)
    (hnext : ∀ x ∈ a, next' x = next x) : Path next' (a ++ [t]) := by
  induction a with
  | nil => exact ⟨ht, trivial⟩
  | cons x a ih =>
      refine ⟨?_, ih h.2 fun y hy => hnext y (List.mem_cons_of_mem _ hy)⟩
      rw [hnext x (by simp), h.1]
      cases a <;> rfl

/-- The path with a new element behind the last one. -/
theorem Path.append (h : Path next l) (hnodup : l.Nodup) {last : Nat}
    (hlast : l.getLast? = some last) (hnew : t ∉ l) :
    Path (Function.update (Function.update next last (some t)) t none) (l ++ [t]) := by
  induction l with
  | nil => cases hlast
  | cons x l ih =>
      have hxt : x ≠ t := fun heq => hnew (by simp [heq])
      cases l with
      | nil =>
          obtain rfl : x = last := by simpa using hlast
          exact ⟨by simp [hxt], by simp, trivial⟩
      | cons y l =>
          rw [List.getLast?_cons_cons] at hlast
          have hmem : last ∈ y :: l := List.mem_of_getLast? hlast
          have hxlast : x ≠ last := fun heq => (List.nodup_cons.mp hnodup).1 (heq ▸ hmem)
          refine ⟨?_, ih h.2 (List.nodup_cons.mp hnodup).2 hlast
            fun hmem' => hnew (List.mem_cons_of_mem _ hmem')⟩
          rw [Function.update_of_ne hxt, Function.update_of_ne hxlast, h.1]
          rfl

theorem Is.nth (h : Is q l) (k : Nat) : q.nth k = l[k]? := by
  induction k with
  | zero => rw [Queue.nth, h.head, List.head?_eq_getElem?]
  | succ k ih =>
      rw [Queue.nth, ih]
      cases hk : l[k]? with
      | none =>
          rw [List.getElem?_eq_none_iff] at hk
          rw [Option.bind_none, List.getElem?_eq_none (by omega)]
      | some t => exact h.path.next_getElem hk

theorem Is.mem_iff (h : Is q l) : q.Mem t ↔ t ∈ l := by
  unfold Mem
  simp only [h.nth]
  exact List.mem_iff_getElem?.symm

theorem Is.once (h : Is q l) (t : Nat) : q.Once t := by
  intro i j hi hj
  rw [h.nth] at hi hj
  exact (List.getElem?_inj (List.getElem?_eq_some_iff.mp hi).1 h.nodup).mp (hi.trans hj.symm)

theorem not_mem_of_head_none (h : q.head = none) : ¬ q.Mem t := by
  rintro ⟨k, hk⟩
  have hnone : ∀ k, q.nth k = none := by
    intro k
    induction k with
    | zero => exact h
    | succ k ih => rw [Queue.nth, ih, Option.bind_none]
  rw [hnone k] at hk
  cases hk

theorem is_empty : Is empty [] := ⟨List.nodup_nil, rfl, rfl, trivial⟩

theorem takeWhile_ne_of_not_mem (h : t ∉ l) : l.takeWhile (· ≠ t) = l := by
  rw [List.takeWhile_eq_self_iff]
  intro x hx
  have hne : x ≠ t := fun heq => h (heq ▸ hx)
  simpa using hne

/-- Pushing an element cuts off what was behind it, if it was queued. -/
theorem Is.push (h : Is q l) (t : Nat) : Is (q.push t) (l.takeWhile (· ≠ t) ++ [t]) := by
  by_cases hmem : t ∈ l
  · obtain ⟨a, b, hl, hnot⟩ : ∃ a b, l = a ++ t :: b ∧ t ∉ a := List.eq_append_cons_of_mem hmem
    have hwhile : l.takeWhile (· ≠ t) = a := by
      rw [hl, List.takeWhile_append_of_pos]
      · simp
      · intro x hx
        have hne : x ≠ t := fun heq => hnot (heq ▸ hx)
        simpa using hne
    have hhead : (a ++ [t]).head? = q.head := by
      rw [h.head, hl]
      cases a <;> rfl
    rw [hwhile]
    refine ⟨?_, ?_, by simp [Queue.push], ?_⟩
    · have hnodup := h.nodup
      rw [hl] at hnodup
      exact hnodup.sublist (by simp)
    · rw [hhead]
      cases hq : q.head with
      | none =>
          rw [hq] at hhead
          simp at hhead
      | some x => simp [Queue.push, hq]
    · obtain ⟨last, hlast⟩ : ∃ last, q.tail = some last := by
        rw [h.tail, hl]
        exact ⟨_, List.getLast?_eq_getLast_of_ne_nil (by simp)⟩
      have hpath := h.path
      rw [hl] at hpath
      apply hpath.truncate
      · simp [Queue.push]
      · intro x hx
        have hxt : x ≠ t := fun heq => hnot (heq ▸ hx)
        have hxlast : x ≠ last := by
          have hin : last ∈ t :: b := by
            rw [h.tail, hl, List.getLast?_append_of_ne_nil _ (by simp)] at hlast
            exact List.mem_of_getLast? hlast
          have hnodup := h.nodup
          rw [hl] at hnodup
          exact fun heq => (List.nodup_append.mp hnodup).2.2 x hx last hin heq
        simp only [Queue.push, hlast]
        rw [Function.update_of_ne hxt]
        cases q.head with
        | none => rfl
        | some y => exact Function.update_of_ne hxlast _ _
  · rw [takeWhile_ne_of_not_mem hmem]
    cases l with
    | nil =>
        have hhead : q.head = none := h.head
        refine ⟨List.nodup_singleton t, by simp [Queue.push, hhead], by simp [Queue.push], ?_⟩
        exact ⟨by simp [Queue.push], trivial⟩
    | cons x l =>
        have hhead : q.head = some x := h.head
        obtain ⟨last, hlast⟩ : ∃ last, (x :: l).getLast? = some last :=
          ⟨_, List.getLast?_eq_getLast_of_ne_nil (by simp)⟩
        have htail : q.tail = some last := h.tail.trans hlast
        refine ⟨?_, by simp [Queue.push, hhead], ?_, ?_⟩
        · rw [List.nodup_append]
          refine ⟨h.nodup, List.nodup_singleton t, fun y hy z hz heq => ?_⟩
          rw [List.mem_singleton.mp hz] at heq
          exact hmem (heq ▸ hy)
        · rw [List.getLast?_append_of_ne_nil _ (by simp)]
          rfl
        · have hpath := h.path.append h.nodup hlast hmem
          simpa only [Queue.push, hhead, htail] using hpath

theorem Is.push_new (h : Is q l) (hnew : t ∉ l) : Is (q.push t) (l ++ [t]) := by
  have hpush := h.push t
  rwa [takeWhile_ne_of_not_mem hnew] at hpush

theorem Is.pop_nil (h : Is q []) : q.pop = (none, q) := by
  have hhead : q.head = none := h.head
  rw [Queue.pop, hhead]

theorem Is.pop_cons (h : Is q (t :: l)) : ∃ q', q.pop = (some t, q') ∧ Is q' l := by
  have hhead : q.head = some t := h.head
  have hnext : q.next t = l.head? := h.path.1
  refine ⟨_, by rw [Queue.pop, hhead], (List.nodup_cons.mp h.nodup).2, hnext, ?_, ?_⟩
  · rw [hnext]
    cases l with
    | nil => rfl
    | cons x l => exact h.tail
  · refine h.path.2.congr fun x hx => Function.update_of_ne ?_ _ _
    exact fun heq => (List.nodup_cons.mp h.nodup).1 (heq ▸ hx)

end Queue

end Tellurium.Lib
