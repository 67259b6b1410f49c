import Tellurium.Arch.Scheduler
import Mathlib.Data.List.ReduceOption

/-!
The links of the ready queue (`pop_thread_from_queue` and `schedule_add_thread` of
`kernel/arch/scheduler.c`). The threads carry a link in each direction and keep whatever was in
them while they are not queued. The forward links are the queue of `Arch.Scheduler`; the backward
ones are a path through the same threads from the tail.
-/

namespace Tellurium.Arch

open Tellurium.Lib

structure ReadyQueue where
  head : Option Nat
  tail : Option Nat
  next : Nat → Option Nat
  prev : Nat → Option Nat

namespace ReadyQueue

def popThreadFromQueue (q : ReadyQueue) : Option Nat × ReadyQueue :=
  match q.head with
  | none => (none, q)
  | some thread =>
      let q :=
        match q.next thread with
        | none => {q with tail := none}
        | some second => {q with prev := Function.update q.prev second none}
      (some thread,
        {q with
          head := q.next thread
          prev := Function.update q.prev thread none
          next := Function.update q.next thread none})

/-- There is no result if `tail->next` is written although `tail` is `NULL`. -/
def scheduleAddThread (q : ReadyQueue) (thread : Nat) : Option ReadyQueue :=
  match q.head, q.tail with
  | none, _ =>
      some {head := some thread
            tail := some thread
            next := Function.update q.next thread none
            prev := Function.update q.prev thread none}
  | some _, none => none
  | some _, some last =>
      some {q with
        tail := some thread
        next := Function.update (Function.update q.next last (some thread)) thread none
        prev := Function.update q.prev thread (some last)}

/-- The queue without its backward links. -/
def forward (q : ReadyQueue) : Queue := ⟨q.head, q.tail, q.next⟩

end ReadyQueue

inductive QueueAction where
  | add (thread : Nat)
  | pop

/-- The calls of a run in their order, and what the pops return. -/
def ReadyQueue.run : ReadyQueue → List QueueAction → Option (ReadyQueue × List (Option Nat))
  | q, [] => some (q, [])
  | q, .add thread :: rest => (q.scheduleAddThread thread).bind fun q => q.run rest
  | q, .pop :: rest =>
      (q.popThreadFromQueue.2.run rest).map fun r => (r.1, q.popThreadFromQueue.1 :: r.2)

/-- The threads that are queued, the next one first. -/
def queued : List Nat → QueueAction → List Nat
  | l, .add thread => l ++ [thread]
  | l, .pop => l.tail

/-- What the pops of a first-in first-out queue return. -/
def answers : List Nat → List QueueAction → List (Option Nat)
  | _, [] => []
  | l, .add thread :: rest => answers (l ++ [thread]) rest
  | l, .pop :: rest => l.head? :: answers l.tail rest

/-- A thread is added only while it is not queued. -/
def AddsNew (l : List Nat) (action : QueueAction) : Prop := ∀ t, action = .add t → t ∉ l

def QueueAction.added : QueueAction → Option Nat
  | .add thread => some thread
  | .pop => none

namespace ReadyQueue

/-- The links run through the list in both directions, and the ends are `NULL`. -/
structure Linked (q : ReadyQueue) (l : List Nat) : Prop where
  acyclic : l.Nodup
  head : q.head = l.head?
  tail : q.tail = l.getLast?
  next : ∀ k t, l[k]? = some t → q.next t = l[k + 1]?
  prev : ∀ k t, l[k]? = some t → q.prev t = if k = 0 then none else l[k - 1]?

/-- The queue stands for the list. -/
structure Is (q : ReadyQueue) (l : List Nat) : Prop where
  forward : q.forward.Is l
  backward : Queue.Path q.prev l.reverse

variable {q : ReadyQueue} {l : List Nat} {t : Nat}

theorem forward_pop (q : ReadyQueue) :
    (q.popThreadFromQueue.1, q.popThreadFromQueue.2.forward) = q.forward.pop := by
  unfold popThreadFromQueue Queue.pop
  cases hhead : q.head with
  | none => simp [forward, hhead]
  | some thread =>
      cases hnext : q.next thread with
      | none => simp [forward, hhead, hnext]
      | some second => simp [forward, hhead, hnext]

theorem forward_add {q' : ReadyQueue} (h : q.scheduleAddThread t = some q') :
    q'.forward = q.forward.push t := by
  unfold scheduleAddThread at h
  split at h
  · rename_i hhead
    cases h
    simp [forward, Queue.push, hhead]
  · cases h
  · rename_i first last hhead htail
    cases h
    simp [forward, Queue.push, hhead, htail]

/-- A thread that is not queued becomes the last one. -/
theorem Is.add (h : q.Is l) (hnew : t ∉ l) : ∃ q', q.scheduleAddThread t = some q' ∧ q'.Is (l ++ [t]) := by
  have hhead : q.head = l.head? := h.forward.head
  have htail : q.tail = l.getLast? := h.forward.tail
  obtain ⟨q', hq', hprev⟩ : ∃ q', q.scheduleAddThread t = some q' ∧
      q'.prev = Function.update q.prev t l.getLast? := by
    rw [← htail]
    cases l with
    | nil =>
        rw [scheduleAddThread, hhead, htail]
        exact ⟨_, rfl, rfl⟩
    | cons x l =>
        obtain ⟨last, hlast⟩ : ∃ last, (x :: l).getLast? = some last :=
          ⟨_, List.getLast?_eq_getLast_of_ne_nil (by simp)⟩
        rw [scheduleAddThread, hhead, htail, hlast]
        exact ⟨_, rfl, rfl⟩
  refine ⟨q', hq', ?_, ?_⟩
  · rw [forward_add hq']
    exact h.forward.push_new hnew
  · rw [hprev, List.reverse_append]
    refine ⟨?_, h.backward.congr fun x hx => ?_⟩
    · rw [Function.update_self]
      exact List.head?_reverse.symm
    · have hne : x ≠ t := fun heq => hnew (heq ▸ List.mem_reverse.mp hx)
      exact Function.update_of_ne hne _ _

theorem Is.pop_nil (h : q.Is []) : q.popThreadFromQueue = (none, q) := by
  have hhead : q.head = none := h.forward.head
  rw [popThreadFromQueue, hhead]

/-- The thread that is popped has no links any more. -/
theorem popped_links (h : q.popThreadFromQueue.1 = some t) :
    q.popThreadFromQueue.2.next t = none ∧ q.popThreadFromQueue.2.prev t = none := by
  unfold popThreadFromQueue at h ⊢
  cases hhead : q.head with
  | none =>
      rw [hhead] at h
      cases h
  | some thread =>
      rw [hhead] at h
      cases h
      cases q.next t with
      | none => exact ⟨Function.update_self _ _ _, Function.update_self _ _ _⟩
      | some second => exact ⟨Function.update_self _ _ _, Function.update_self _ _ _⟩

/-- The first thread leaves the queue, and the second one has no link back to it. -/
theorem Is.pop_cons (h : q.Is (t :: l)) :
    q.popThreadFromQueue.1 = some t ∧ q.popThreadFromQueue.2.Is l := by
  obtain ⟨forward', hpop, hforward⟩ := h.forward.pop_cons
  rw [← forward_pop] at hpop
  obtain ⟨hanswer, rfl⟩ := Prod.mk.inj hpop
  have hhead : q.head = some t := h.forward.head
  have hnext : q.next t = l.head? := h.forward.path.1
  refine ⟨hanswer, hforward, ?_⟩
  cases l with
  | nil => trivial
  | cons second l =>
      have hbackward := h.backward
      have hnodup := h.forward.nodup
      rw [List.nodup_cons, List.nodup_cons] at hnodup
      obtain ⟨ht, hsecond, -⟩ := hnodup
      rw [List.reverse_cons, List.reverse_cons, List.append_assoc] at hbackward
      have hprev : q.popThreadFromQueue.2.prev =
          Function.update (Function.update q.prev second none) t none := by
        rw [popThreadFromQueue, hhead]
        simp only [hnext, List.head?_cons]
      rw [List.reverse_cons, hprev]
      apply hbackward.truncate
      · have hne : second ≠ t := fun heq => ht (heq ▸ List.mem_cons_self)
        rw [Function.update_of_ne hne, Function.update_self]
      · intro x hx
        have hin := List.mem_reverse.mp hx
        have hne : x ≠ t := fun heq => ht (heq ▸ List.mem_cons_of_mem _ hin)
        have hne' : x ≠ second := fun heq => hsecond (heq ▸ hin)
        rw [Function.update_of_ne hne, Function.update_of_ne hne']

/-- Each place of the list read off the links. -/
theorem Is.linked (h : q.Is l) : q.Linked l := by
  constructor
  case acyclic => exact h.forward.nodup
  case head => exact h.forward.head
  case tail => exact h.forward.tail
  case next => exact fun k t hk => h.forward.path.next_getElem hk
  case prev =>
    intro k t hk
    obtain ⟨hlt, -⟩ := List.getElem?_eq_some_iff.mp hk
    -- Place `k` of the list is place `length - 1 - k` of the reversed one.
    have hreverse : l.reverse[l.length - 1 - k]? = some t := by
      rw [List.getElem?_reverse (by omega), ← hk]
      congr 1
      omega
    rw [h.backward.next_getElem hreverse]
    split
    · exact List.getElem?_eq_none (by rw [List.length_reverse]; omega)
    · rw [List.getElem?_reverse (by omega)]
      congr 1
      omega

theorem is_empty (next prev : Nat → Option Nat) : Is ⟨none, none, next, prev⟩ [] :=
  ⟨⟨List.nodup_nil, rfl, rfl, trivial⟩, trivial⟩

/-- A run from a queue that stands for a list. -/
theorem Is.run {actions : List QueueAction} (h : q.Is l)
    (hnew : EveryStep queued AddsNew l actions) :
    ∃ q', q.run actions = some (q', answers l actions) ∧ q'.Is (actions.foldl queued l) := by
  induction actions generalizing q l with
  | nil => exact ⟨q, rfl, h⟩
  | cons action rest ih =>
      cases action with
      | add thread =>
          obtain ⟨q₁, hadd, hq₁⟩ := h.add (hnew.1 thread rfl)
          obtain ⟨q', hrun, hq'⟩ := ih hq₁ hnew.2
          exact ⟨q', by rw [ReadyQueue.run, hadd, Option.bind_some, hrun]; rfl, hq'⟩
      | pop =>
          have hpopped : q.popThreadFromQueue.1 = l.head? ∧ q.popThreadFromQueue.2.Is l.tail := by
            cases l with
            | nil => exact ⟨by rw [h.pop_nil]; rfl, by rw [h.pop_nil]; exact h⟩
            | cons t l => exact h.pop_cons
          obtain ⟨q', hrun, hq'⟩ := ih hpopped.2 hnew.2
          exact ⟨q', by rw [ReadyQueue.run, hrun, hpopped.1]; rfl, hq'⟩

end ReadyQueue

/-- The threads popped and those still queued are the ones added, in this order. -/
theorem answers_queued (l : List Nat) (actions : List QueueAction) :
    (answers l actions).reduceOption ++ actions.foldl queued l =
      l ++ actions.filterMap QueueAction.added := by
  induction actions generalizing l with
  | nil => simp [answers]
  | cons action rest ih =>
      cases action with
      | add thread =>
          rw [answers, List.foldl_cons, queued, ih, List.append_assoc]
          rfl
      | pop =>
          rw [answers, List.foldl_cons, queued]
          cases l with
          | nil =>
              rw [List.head?_nil, List.reduceOption_cons_of_none]
              exact ih []
          | cons t l =>
              rw [List.head?_cons, List.reduceOption_cons_of_some, List.cons_append]
              exact congrArg (t :: ·) (ih l)

/-- Whatever links the threads carry at first. -/
theorem ready_queue_fifo (next prev : Nat → Option Nat) {actions : List QueueAction}
    (hnew : EveryStep queued AddsNew [] actions) :
    ∃ q, ReadyQueue.run ⟨none, none, next, prev⟩ actions = some (q, answers [] actions) ∧
      q.Linked (actions.foldl queued []) ∧ (q.head = none ↔ q.tail = none) ∧
      (answers [] actions).reduceOption ++ actions.foldl queued [] =
        actions.filterMap QueueAction.added ∧
      (q.popThreadFromQueue.1 = none ↔ actions.foldl queued [] = []) ∧
      ∀ t, q.popThreadFromQueue.1 = some t →
        q.popThreadFromQueue.2.next t = none ∧ q.popThreadFromQueue.2.prev t = none := by
  obtain ⟨q, hrun, hq⟩ := (ReadyQueue.is_empty next prev).run hnew
  refine ⟨q, hrun, hq.linked, ?_, answers_queued [] actions, ?_, fun t => ReadyQueue.popped_links⟩
  · have hhead : q.head = _ := hq.forward.head
    have htail : q.tail = _ := hq.forward.tail
    rw [hhead, htail, List.head?_eq_none_iff, List.getLast?_eq_none_iff]
  · generalize actions.foldl queued [] = l at hq
    cases l with
    | nil => simp [hq.pop_nil]
    | cons t l => simp [hq.pop_cons.1]

/-- A thread that is popped and added again while it still carries a link. -/
theorem ready_queue_two_threads :
    ∃ q, ReadyQueue.run ⟨none, none, fun _ => some 7, fun _ => some 7⟩
        [.add 1, .add 2, .pop, .add 1, .pop] = some (q, [some 1, some 2]) ∧ q.Linked [1] := by
  have hnew : EveryStep queued AddsNew [] [.add 1, .add 2, .pop, .add 1, .pop] := by
    simp [EveryStep, queued, AddsNew]
  obtain ⟨q, hrun, hlinked, -⟩ := ready_queue_fifo (fun _ => some 7) (fun _ => some 7) hnew
  exact ⟨q, hrun, hlinked⟩

end Tellurium.Arch
