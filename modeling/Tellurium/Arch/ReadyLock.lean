import Tellurium.Arch.ReadyQueue
import Tellurium.Lib.SpinLock

/-!
The region behind `ready_queue_lock`: `pop_thread_from_queue` and `schedule_add_thread` of
`kernel/arch/scheduler.c`, one statement at a time. Run without a break, the statements do what
the two functions of `Arch.ReadyQueue` do.
-/

namespace Tellurium.Arch

open Tellurium.Lib

/-- The statements of the region, named by what they test or write. -/
inductive QueuePlace where
  | popTestHead
  | popTestNext (thread : Nat)
  | popClearTail (thread : Nat)
  | popClearPrev (thread : Nat)
  | popHead (thread : Nat)
  | popPrev (thread : Nat)
  | popNext (thread : Nat)
  | addTestHead (thread : Nat)
  | addHead (thread : Nat)
  | addFirstPrev (thread : Nat)
  | addTailNext (thread : Nat)
  | addPrev (thread : Nat)
  | addTail (thread : Nat)
  | addNext (thread : Nat)
  deriving DecidableEq

/-- The pointer that is returned, `NULL` also where the function returns nothing. There is no
answer if a link of `NULL` is written or read. -/
abbrev QueueAnswer := Option (Option Nat)

namespace ReadyQueue

def goTo (q : ReadyQueue) (place : QueuePlace) : ReadyQueue × (QueuePlace ⊕ QueueAnswer) :=
  (q, .inl place)

def fault (q : ReadyQueue) : ReadyQueue × (QueuePlace ⊕ QueueAnswer) := (q, .inr none)

def statement (q : ReadyQueue) : QueuePlace → ReadyQueue × (QueuePlace ⊕ QueueAnswer)
  | .popTestHead =>
      match q.head with
      | none => (q, .inr (some none))
      | some thread => q.goTo (.popTestNext thread)
  | .popTestNext thread =>
      match q.head with
      | none => q.fault
      | some first =>
          match q.next first with
          | none => q.goTo (.popClearTail thread)
          | some _ => q.goTo (.popClearPrev thread)
  | .popClearTail thread => {q with tail := none}.goTo (.popHead thread)
  | .popClearPrev thread =>
      match q.head.bind q.next with
      | none => q.fault
      | some second => {q with prev := Function.update q.prev second none}.goTo (.popHead thread)
  | .popHead thread =>
      match q.head with
      | none => q.fault
      | some first => {q with head := q.next first}.goTo (.popPrev thread)
  | .popPrev thread => {q with prev := Function.update q.prev thread none}.goTo (.popNext thread)
  | .popNext thread => ({q with next := Function.update q.next thread none}, .inr (some thread))
  | .addTestHead thread =>
      match q.head with
      | none => q.goTo (.addHead thread)
      | some _ => q.goTo (.addTailNext thread)
  | .addHead thread => {q with head := some thread}.goTo (.addFirstPrev thread)
  | .addFirstPrev thread => {q with prev := Function.update q.prev thread none}.goTo (.addTail thread)
  | .addTailNext thread =>
      match q.tail with
      | none => q.fault
      | some last => {q with next := Function.update q.next last (some thread)}.goTo (.addPrev thread)
  | .addPrev thread => {q with prev := Function.update q.prev thread q.tail}.goTo (.addTail thread)
  | .addTail thread => {q with tail := some thread}.goTo (.addNext thread)
  | .addNext thread => ({q with next := Function.update q.next thread none}, .inr (some none))

end ReadyQueue

def QueueAction.enter : QueueAction → QueuePlace
  | .add thread => .addTestHead thread
  | .pop => .popTestHead

def readyRegion : Region ReadyQueue QueueAction QueuePlace QueueAnswer :=
  ⟨QueueAction.enter, ReadyQueue.statement⟩

/-- The statements that still follow. -/
def QueuePlace.left : QueuePlace → ℕ
  | .popTestHead => 5
  | .popTestNext _ => 4
  | .popClearTail _ | .popClearPrev _ => 3
  | .popHead _ => 2
  | .popPrev _ => 1
  | .popNext _ => 0
  | .addTestHead _ => 4
  | .addHead _ | .addTailNext _ => 3
  | .addFirstPrev _ | .addPrev _ => 2
  | .addTail _ => 1
  | .addNext _ => 0

theorem readyRegion_bounded : readyRegion.Bounded QueuePlace.left := by
  constructor
  intro q place q' place' h
  change q.statement place = (q', .inl place') at h
  cases place <;> simp only [ReadyQueue.statement, ReadyQueue.goTo, ReadyQueue.fault] at h <;>
    (try split at h) <;> (try split at h) <;> cases h <;> simp [QueuePlace.left]

namespace ReadyQueue

variable {q q' : ReadyQueue} {l : List Nat} {t : Nat} {r : QueueAnswer}

/-- The statements of `schedule_add_thread` do what the function does. -/
theorem runs_add (h : readyRegion.Runs q (.addTestHead t) q' r) :
    r = (q.scheduleAddThread t).map (fun _ => none) ∧
      ∀ q₁, q.scheduleAddThread t = some q₁ → q' = q₁ := by
  unfold scheduleAddThread
  cases hhead : q.head with
  | none =>
      have hfirst : q.statement (.addTestHead t) = q.goTo (.addHead t) := by
        rw [statement, hhead]
      obtain ⟨rfl, rfl⟩ := (((h.of_go hfirst).of_go rfl).of_go rfl).of_go rfl |>.of_leave rfl
      refine ⟨rfl, fun q₁ hq₁ => ?_⟩
      cases hq₁
      rfl
  | some first =>
      have hfirst : q.statement (.addTestHead t) = q.goTo (.addTailNext t) := by
        rw [statement, hhead]
      have hlink := h.of_go hfirst
      cases htail : q.tail with
      | none =>
          have hfault : q.statement (.addTailNext t) = q.fault := by
            rw [statement, htail]
          obtain ⟨rfl, rfl⟩ := hlink.of_leave hfault
          exact ⟨rfl, fun q₁ hq₁ => by cases hq₁⟩
      | some last =>
          have hwritten : q.statement (.addTailNext t) =
              {q with next := Function.update q.next last (some t)}.goTo (.addPrev t) := by
            rw [statement, htail]
          obtain ⟨rfl, rfl⟩ := (((hlink.of_go hwritten).of_go rfl).of_go rfl).of_leave rfl
          refine ⟨rfl, fun q₁ hq₁ => ?_⟩
          cases hq₁
          simp only [hhead, htail]

/-- The statements of `pop_thread_from_queue` do what the function does. -/
theorem runs_pop (h : readyRegion.Runs q .popTestHead q' r) :
    r = some q.popThreadFromQueue.1 ∧ q' = q.popThreadFromQueue.2 := by
  unfold popThreadFromQueue
  cases hhead : q.head with
  | none =>
      have hfirst : q.statement .popTestHead = (q, .inr (some none)) := by
        rw [statement, hhead]
      obtain ⟨rfl, rfl⟩ := h.of_leave hfirst
      exact ⟨rfl, rfl⟩
  | some thread =>
      have hfirst : q.statement .popTestHead = q.goTo (.popTestNext thread) := by
        rw [statement, hhead]
      have htest := h.of_go hfirst
      cases hnext : q.next thread with
      | none =>
          have hsecond : q.statement (.popTestNext thread) = q.goTo (.popClearTail thread) := by
            simp only [statement, hhead, hnext]
          have htail := (htest.of_go hsecond).of_go rfl
          have hlast : {q with tail := none}.statement (.popHead thread) =
              {q with tail := none, head := q.next thread}.goTo (.popPrev thread) := by
            simp only [statement, hhead]
          obtain ⟨rfl, rfl⟩ := ((htail.of_go hlast).of_go rfl).of_leave rfl
          simp only [hnext, and_self]
      | some second =>
          have hsecond : q.statement (.popTestNext thread) = q.goTo (.popClearPrev thread) := by
            simp only [statement, hhead, hnext]
          have hclear : q.statement (.popClearPrev thread) =
              {q with prev := Function.update q.prev second none}.goTo (.popHead thread) := by
            simp only [statement, hhead, Option.bind_some, hnext]
          have hprev := (htest.of_go hsecond).of_go hclear
          have hlast : {q with prev := Function.update q.prev second none}.statement
              (.popHead thread) = {q with
                prev := Function.update q.prev second none
                head := q.next thread}.goTo (.popPrev thread) := by
            simp only [statement, hhead]
          obtain ⟨rfl, rfl⟩ := ((hprev.of_go hlast).of_go rfl).of_leave rfl
          simp only [hnext, and_self]

/-- What a whole call returns if the queue stands for the list. -/
def answer (l : List Nat) : QueueAction → QueueAnswer
  | .add _ => some none
  | .pop => some l.head?

theorem Is.runs {c : QueueAction} (h : q.Is l) (hnew : AddsNew l c)
    (hruns : readyRegion.Runs q (readyRegion.enter c) q' r) :
    r = answer l c ∧ q'.Is (queued l c) := by
  cases c with
  | add t =>
      obtain ⟨q₁, hadd, hq₁⟩ := h.add (hnew t rfl)
      obtain ⟨rfl, hsame⟩ := runs_add hruns
      cases hsame q₁ hadd
      exact ⟨by rw [hadd]; rfl, hq₁⟩
  | pop =>
      obtain ⟨rfl, rfl⟩ := runs_pop hruns
      cases l with
      | nil =>
          rw [h.pop_nil]
          exact ⟨rfl, h⟩
      | cons t l =>
          obtain ⟨hanswer, hrest⟩ := h.pop_cons
          exact ⟨by rw [hanswer]; rfl, hrest⟩

/-- Whole calls from the empty queue that add only threads that are not queued. -/
theorem is_of_serial {ι : Type*} {calls : List (ι × QueueAction × QueueAnswer)}
    {next prev : Nat → Option Nat} (h : readyRegion.Serial ⟨none, none, next, prev⟩ calls q)
    (hnew : EveryStep queued AddsNew [] (calls.map fun c => c.2.1)) :
    q.Is ((calls.map fun c => c.2.1).foldl queued []) :=
  h.refines Is.runs (is_empty next prev) hnew

end ReadyQueue

end Tellurium.Arch
