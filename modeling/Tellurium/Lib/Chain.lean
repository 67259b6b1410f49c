import Mathlib.Data.List.Chain

/-!
Intrusive singly linked lists. The nodes are numbers, `next` reads a node's link, and a
chain is a list of nodes in which each node's link is the following one; the last element
is where the chain ends, which need not be a node.
-/

namespace Tellurium.Lib

/-- Each element links to the following one. -/
def Linked (next : Nat → Nat) (l : List Nat) : Prop := l.IsChain fun a b => next a = b

variable {next next' : Nat → Nat} {xs ys : List Nat} {p q : Nat}

theorem linked_cons_cons : Linked next (p :: q :: ys) ↔ next p = q ∧ Linked next (q :: ys) :=
  List.isChain_cons_cons

theorem linked_split :
    Linked next (xs ++ p :: ys) ↔ Linked next (xs ++ [p]) ∧ Linked next (p :: ys) :=
  List.isChain_split

/-- A chain is unaffected while the links of its nodes are. -/
theorem Linked.congr (h : Linked next (xs ++ [p])) (hnext : ∀ a ∈ xs, next' a = next a) :
    Linked next' (xs ++ [p]) := by
  induction xs with
  | nil => exact List.isChain_singleton p
  | cons a xs ih =>
      cases xs with
      | nil =>
          rw [List.singleton_append, linked_cons_cons] at h ⊢
          exact ⟨by rw [hnext a (by simp), h.1], List.isChain_singleton p⟩
      | cons b xs =>
          rw [List.cons_append, List.cons_append, linked_cons_cons] at h ⊢
          refine ⟨by rw [hnext a (by simp), h.1], ?_⟩
          exact ih h.2 fun c hc => hnext c (List.mem_cons_of_mem _ hc)

/-- A node that takes over the link of another one continues its chain. -/
theorem Linked.take_over {e : Nat} (h : Linked next (p :: (ys ++ [e]))) (hq : next' q = next p)
    (hnext : ∀ a ∈ ys, next' a = next a) : Linked next' (q :: (ys ++ [e])) := by
  cases ys with
  | nil => exact linked_cons_cons.mpr ⟨hq.trans (linked_cons_cons.mp h).1, List.isChain_singleton e⟩
  | cons b ys =>
      obtain ⟨hb, htail⟩ := linked_cons_cons.mp h
      exact linked_cons_cons.mpr ⟨hq.trans hb, Linked.congr htail hnext⟩

/-- Chains of one length from one node end at one place. -/
theorem Linked.end_unique {e e' : Nat} (h : Linked next (p :: (xs ++ [e])))
    (h' : Linked next (p :: (ys ++ [e']))) (hlen : xs.length = ys.length) : e = e' := by
  induction xs generalizing p ys with
  | nil =>
      obtain rfl := List.length_eq_zero_iff.mp hlen.symm
      exact (linked_cons_cons.mp h).1.symm.trans (linked_cons_cons.mp h').1
  | cons x xs ih =>
      cases ys with
      | nil => cases hlen
      | cons y ys =>
          obtain ⟨hx, htail⟩ := linked_cons_cons.mp h
          obtain ⟨hy, htail'⟩ := linked_cons_cons.mp h'
          obtain rfl : x = y := hx.symm.trans hy
          exact ih htail htail' (Nat.succ.inj hlen)

/-- Two chains from one node that stop where their end first occurs are one chain. -/
theorem Linked.unique {e : Nat} (h : Linked next (p :: (xs ++ [e])))
    (h' : Linked next (p :: (ys ++ [e]))) (hxs : e ∉ xs) (hys : e ∉ ys) : xs = ys := by
  induction xs generalizing p ys with
  | nil =>
      have hend := (linked_cons_cons.mp h).1
      cases ys with
      | nil => rfl
      | cons y ys =>
          have hy : y = e := (linked_cons_cons.mp h').1.symm.trans hend
          exact absurd (hy ▸ List.mem_cons_self) hys
  | cons x xs ih =>
      obtain ⟨hx, htail⟩ := linked_cons_cons.mp h
      cases ys with
      | nil =>
          have hx' : x = e := hx.symm.trans (linked_cons_cons.mp h').1
          exact absurd (hx' ▸ List.mem_cons_self) hxs
      | cons y ys =>
          obtain ⟨hy, htail'⟩ := linked_cons_cons.mp h'
          obtain rfl : x = y := hx.symm.trans hy
          rw [ih htail htail' (fun he => hxs (List.mem_cons_of_mem _ he))
            (fun he => hys (List.mem_cons_of_mem _ he))]

end Tellurium.Lib
