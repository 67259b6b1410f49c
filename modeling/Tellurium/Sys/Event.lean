import Tellurium.Arch.Placement
import Mathlib.Data.List.ReduceOption

/-!
Waiting for events and signalling them (`kernel/sys/event.c`). A signal walks over the
listener slots and gives up at the first thread that is not asleep, so it wakes exactly the
listeners in front of that one.
-/

namespace Tellurium.Sys

open Tellurium.Lib Tellurium.Arch

/-- The threads in the listener slots of an event, in slot order. -/
def listening (s : Scheduler) (event : Nat) : List Nat := (s.events event).listeners.reduceOption

/-- The listeners that a signal wakes: those in front of the first one that is not asleep. -/
def reached (s : Scheduler) (listeners : List Nat) : List Nat :=
  listeners.takeWhile fun t => (s.threads t).state.asleep

section Signals

variable {s : Scheduler} {l ts : List Nat} {t event : Nat}

theorem notifyAll_reduceOption (s : Scheduler) (event : Nat) (slots : List (Option Nat)) :
    notifyAll s event slots = notifyAll s event (slots.reduceOption.map some) := by
  induction slots generalizing s with
  | nil => rfl
  | cons slot rest ih =>
      cases slot with
      | none => exact ih s
      | some t =>
          rw [List.reduceOption_cons_of_some, List.map_cons, notifyAll, notifyAll]
          rcases scheduleNotify s event t with ⟨ok, s'⟩
          cases ok with
          | true => exact ih s'
          | false => rfl

theorem reached_modify {f : Thread → Thread} (hnew : t ∉ ts) :
    reached (scheduleAddThread (s.modify t f) t) ts = reached s ts := by
  unfold reached
  induction ts with
  | nil => rfl
  | cons u ts ih =>
      have hut : u ≠ t := fun heq => hnew (by simp [heq])
      have hsame : (scheduleAddThread (s.modify t f) t).threads u = s.threads u :=
        modify_threads_of_ne s f hut
      rw [List.takeWhile_cons, List.takeWhile_cons, hsame,
        ih fun hmem => hnew (List.mem_cons_of_mem _ hmem)]

/-- What a signal leaves behind. -/
structure Notified (s s' : Scheduler) (event : Nat) (woken : List Nat) : Prop where
  runnable : ∀ t ∈ woken, (s'.threads t).state = .runnable
  received : ∀ t ∈ woken, (s.threads t).state = .waiting →
    (s'.threads t).receivedEvent = some event
  others : ∀ t, t ∉ woken → s'.threads t = s.threads t
  current : s'.current = s.current
  nextThread : s'.nextThread = s.nextThread
  events : s'.events = s.events

theorem notifyAll_spec (event : Nat) (h : Placed s l) (hnodup : ts.Nodup) (hlt : ∀ t ∈ ts, t < s.nextThread) :
    Placed (notifyAll s event (ts.map some)).2 (l ++ reached s ts) ∧
      Notified s (notifyAll s event (ts.map some)).2 event (reached s ts) := by
  induction ts generalizing s l with
  | nil =>
      refine ⟨by simpa [notifyAll, reached] using h, ?_, ?_, fun _ _ => rfl, rfl, rfl, rfl⟩
      · exact fun t ht => absurd ht (by simp [reached])
      · exact fun t ht => absurd ht (by simp [reached])
  | cons t ts ih =>
      obtain ⟨hnew, hnodup⟩ := List.nodup_cons.mp hnodup
      rw [List.map_cons, notifyAll]
      rcases scheduleNotify_cases s event t with ⟨heq, hawake⟩ | ⟨hsleep, f, heq, hrun, hrecv⟩
      · have hnone : reached s (t :: ts) = [] := by simp [reached, hawake]
        rw [heq, hnone, List.append_nil]
        exact ⟨h, fun t ht => absurd ht (by simp), fun t ht => absurd ht (by simp),
          fun _ _ => rfl, rfl, rfl, rfl⟩
      · have hwake := h.wake (hlt t (by simp)) (h.asleep_free hsleep).1 (f := f) (by rw [hrun]; rfl)
        rw [Queue.takeWhile_ne_of_not_mem (h.asleep_free hsleep).2] at hwake
        obtain ⟨hplaced, hnotified⟩ := ih hwake hnodup fun u hu => hlt u (List.mem_cons_of_mem _ hu)
        rw [reached_modify hnew] at hplaced hnotified
        have hcons : reached s (t :: ts) = t :: reached s ts := by simp [reached, hsleep]
        have hout : t ∉ reached s ts :=
          fun hmem => hnew ((List.takeWhile_sublist _).subset hmem)
        have hthread : (scheduleAddThread (s.modify t f) t).threads t = f (s.threads t) :=
          modify_threads_same s t f
        have hother : ∀ u, u ≠ t →
            (scheduleAddThread (s.modify t f) t).threads u = s.threads u :=
          fun u hu => modify_threads_of_ne s f hu
        rw [heq, hcons]
        refine ⟨by rw [List.append_cons]; exact hplaced, fun u hu => ?_, fun u hu hwait => ?_,
          fun u hu => ?_, hnotified.current, hnotified.nextThread, hnotified.events⟩
        · rcases List.mem_cons.mp hu with rfl | hu
          · rw [hnotified.others u hout, hthread, hrun]
          · exact hnotified.runnable u hu
        · rcases List.mem_cons.mp hu with rfl | hu
          · rw [hnotified.others u hout, hthread, hrecv hwait]
          · have hut : u ≠ t := fun heq => hout (heq ▸ hu)
            exact hnotified.received u hu (by rw [hother u hut, hwait])
        · rw [List.mem_cons, not_or] at hu
          obtain ⟨hut, hu⟩ := hu
          rw [hnotified.others u hu, hother u hut]

/-- A signal wakes the listeners up to the first one that is not asleep. -/
theorem eventSignal_spec (h : Placed s l) (hnodup : (listening s event).Nodup)
    (hcount : (s.events event).numListeners = (listening s event).length) :
    Placed (eventSignal s event).2 (l ++ reached s (listening s event)) ∧
      Notified s (eventSignal s event).2 event (reached s (listening s event)) := by
  have hlt : ∀ t ∈ listening s event, t < s.nextThread := by
    intro t ht
    exact h.listener_lt event t (List.reduceOption_mem_iff.mp ht)
  have hspec := notifyAll_spec event h hnodup hlt
  rw [listening, ← notifyAll_reduceOption] at hspec
  unfold eventSignal
  split
  · rename_i hzero
    have hnil : listening s event = [] := List.length_eq_zero_iff.mp (hcount ▸ hzero)
    simp only [hnil, reached, List.takeWhile_nil, List.append_nil]
    exact ⟨h, fun t ht => absurd ht (by simp), fun t ht => absurd ht (by simp),
      fun _ _ => rfl, rfl, rfl, rfl⟩
  · exact hspec

end Signals

/-- The scheduler, and for each thread the event that it waits for in `event_wait`. -/
structure WaitState extends Scheduler where
  waitingOn : Nat → Option Nat

/-- A step of some core. A thread enters and leaves `event_wait` while it is current; in
between it yields, is taken off its core by the IPI, and comes back once it was woken, or
earlier if an interrupt preempts it before the IPI arrives. -/
inductive WaitAction where
  | spawn
  | dispatch (core : Nat)
  | interrupt (core : Nat)
  | yield (core : Nat) (cause : YieldCause)
  | ipi (core : Nat)
  | enter (core event : Nat)
  | leave (core : Nat)
  | signal (event : Nat)
  deriving Repr, DecidableEq

def waitStep (s : WaitState) : WaitAction → WaitState
  | .spawn => {s with toScheduler := spawnThread s.toScheduler}
  | .dispatch core =>
      if s.current core = none then {s with toScheduler := scheduleNextThread s.toScheduler core}
      else s
  | .interrupt core => {s with toScheduler := preempt s.toScheduler core}
  | .yield core cause => {s with toScheduler := scheduleThreadYield s.toScheduler core cause}
  | .ipi core => {s with toScheduler := lapicIpiHandler s.toScheduler core}
  | .enter core event =>
      match s.current core with
      | none => s
      | some t =>
          if s.waitingOn t = none then
            {toScheduler := (attachListener s.toScheduler t event).2
             waitingOn := Function.update s.waitingOn t (some event)}
          else s
  | .leave core =>
      match s.current core with
      | none => s
      | some t =>
          match s.waitingOn t with
          | none => s
          | some event =>
              {toScheduler := (removeListener s.toScheduler t event).2
               waitingOn := Function.update s.waitingOn t none}
  | .signal event => {s with toScheduler := (eventSignal s.toScheduler event).2}

def initWait : WaitState := {initScheduler with waitingOn := fun _ => none}

/-- The signal wakes every thread that sleeps in `event_wait` on the event. -/
def SignalReaches (s : WaitState) (event : Nat) : Prop :=
  ∀ t, s.waitingOn t = some event → (s.threads t).state = .waiting →
    let s' := (eventSignal s.toScheduler event).2
    (s'.threads t).state = .runnable ∧ (s'.threads t).receivedEvent = some event ∧
      s'.ready.Mem t ∧ s'.ready.Once t

/-- Each such thread has a listener slot, and the threads in the slots before it sleep too. -/
def ListenersAsleep (s : WaitState) (event : Nat) : Prop :=
  ∀ t, s.waitingOn t = some event → (s.threads t).state = .waiting →
    ∃ before after, listening s.toScheduler event = before ++ t :: after ∧
      ∀ u ∈ before, (s.threads u).state.asleep = true

/-- `num_listeners` is the number of slots in use. -/
def ListenersCounted (s : Scheduler) : Prop :=
  ∀ event, (s.events event).numListeners = (s.events event).listeners.countP Option.isSome

/-- Only threads inside `event_wait` hold slots, each one at most. -/
structure SlotsOk (s : WaitState) : Prop where
  count : ∀ e, (s.events e).numListeners = (listening s.toScheduler e).length
  nodup : ∀ e, (listening s.toScheduler e).Nodup
  inside : ∀ e, ∀ t ∈ listening s.toScheduler e, s.waitingOn t = some e

section Waits

variable {s : WaitState} {t event : Nat}

theorem reduceOption_set_some {slots : List (Option Nat)} {i : Nat} (hi : slots[i]? = some none)
    (t : Nat) : (slots.set i (some t)).reduceOption.Perm (t :: slots.reduceOption) := by
  induction slots generalizing i with
  | nil => simp at hi
  | cons slot rest ih =>
      cases i with
      | zero =>
          obtain rfl : slot = none := by simpa using hi
          simp
      | succ i =>
          rw [List.getElem?_cons_succ] at hi
          rw [List.set_cons_succ]
          cases slot with
          | none => simpa using ih hi
          | some u =>
              rw [List.reduceOption_cons_of_some, List.reduceOption_cons_of_some]
              exact ((ih hi).cons u).trans (List.Perm.swap t u _)

theorem reduceOption_set_none {slots : List (Option Nat)} {i : Nat}
    (hi : slots[i]? = some (some t)) :
    slots.reduceOption.Perm (t :: (slots.set i none).reduceOption) := by
  obtain ⟨hlt, hget⟩ := List.getElem?_eq_some_iff.mp hi
  have hback : (slots.set i none).set i (some t) = slots := by
    rw [List.set_set, ← hget, List.set_getElem_self]
  have hnone : (slots.set i none)[i]? = some none := by
    rw [List.getElem?_set_self hlt]
  have hperm := reduceOption_set_some hnone t
  rwa [hback] at hperm

theorem SlotsOk.setEvent (h : SlotsOk s) {e : Event} {waitingOn : Nat → Option Nat}
    (hcount : e.numListeners = e.listeners.reduceOption.length)
    (hnodup : e.listeners.reduceOption.Nodup)
    (hinside : ∀ t ∈ e.listeners.reduceOption, waitingOn t = some event)
    (hother : ∀ e' ≠ event, ∀ t ∈ listening s.toScheduler e', waitingOn t = some e') :
    SlotsOk {toScheduler := s.toScheduler.setEvent event e, waitingOn} := by
  have hsame : ∀ e', e' = event ∧ (s.toScheduler.setEvent event e).events e' = e ∨
      e' ≠ event ∧ (s.toScheduler.setEvent event e).events e' = s.events e' := by
    intro e'
    by_cases he : e' = event
    · exact .inl ⟨he, by rw [he, setEvent_same]⟩
    · exact .inr ⟨he, setEvent_of_ne s.toScheduler e he⟩
  refine ⟨fun e' => ?_, fun e' => ?_, fun e' t ht => ?_⟩
  · obtain ⟨-, heq⟩ | ⟨-, heq⟩ := hsame e'
    · simp only [listening, heq, hcount]
    · simp only [listening, heq]
      exact h.count e'
  · obtain ⟨-, heq⟩ | ⟨-, heq⟩ := hsame e'
    · simp only [listening, heq]
      exact hnodup
    · simp only [listening, heq]
      exact h.nodup e'
  · obtain ⟨rfl, heq⟩ | ⟨hne, heq⟩ := hsame e'
    · simp only [listening, heq] at ht
      exact hinside t ht
    · simp only [listening, heq] at ht
      exact hother e' hne t ht

theorem SlotsOk.attach (h : SlotsOk s) (hout : s.waitingOn t = none) (event : Nat) :
    SlotsOk {toScheduler := (attachListener s.toScheduler t event).2
             waitingOn := Function.update s.waitingOn t (some event)} := by
  have hnot : ∀ e, t ∉ listening s.toScheduler e := by
    intro e hmem
    have hin := h.inside e t hmem
    rw [hout] at hin
    cases hin
  have hkeep : ∀ e, ∀ u ∈ listening s.toScheduler e,
      Function.update s.waitingOn t (some event) u = some e := by
    intro e u hu
    have hut : u ≠ t := fun heq => hnot e (heq ▸ hu)
    rw [Function.update_of_ne hut]
    exact h.inside e u hu
  unfold attachListener
  split
  · exact ⟨h.count, h.nodup, hkeep⟩
  · rename_i i hfind
    have hslot : (s.events event).listeners[i]? = some none := by
      obtain ⟨hi, hp, -⟩ := List.findIdx?_eq_some_iff_getElem.mp hfind
      rw [List.getElem?_eq_getElem hi]
      simpa using hp
    have hperm := reduceOption_set_some hslot t
    apply h.setEvent
    · rw [hperm.length_eq, List.length_cons, h.count event]
      rfl
    · exact hperm.nodup_iff.mpr (List.nodup_cons.mpr ⟨hnot event, h.nodup event⟩)
    · intro u hu
      rcases List.mem_cons.mp (hperm.mem_iff.mp hu) with rfl | hold
      · exact Function.update_self ..
      · exact hkeep event u hold
    · exact fun e' _ u hu => hkeep e' u hu

theorem SlotsOk.remove (h : SlotsOk s) (hin : s.waitingOn t = some event) :
    SlotsOk {toScheduler := (removeListener s.toScheduler t event).2
             waitingOn := Function.update s.waitingOn t none} := by
  have hkeep : ∀ e, ∀ u ∈ listening s.toScheduler e, u ≠ t →
      Function.update s.waitingOn t none u = some e := by
    intro e u hu hut
    rw [Function.update_of_ne hut]
    exact h.inside e u hu
  have hother : ∀ e, e ≠ event → ∀ u ∈ listening s.toScheduler e, u ≠ t := by
    rintro e hne u hu rfl
    exact hne (Option.some.inj ((h.inside e u hu).symm.trans hin))
  unfold removeListener
  split
  · rename_i hfind
    have hout : ∀ u ∈ listening s.toScheduler event, u ≠ t := by
      rintro u hu rfl
      have hno := List.findIdx?_eq_none_iff.mp hfind _ (List.reduceOption_mem_iff.mp hu)
      simp at hno
    refine ⟨h.count, h.nodup, fun e u hu => hkeep e u hu ?_⟩
    by_cases he : e = event
    · exact hout u (he ▸ hu)
    · exact hother e he u hu
  · rename_i i hfind
    have hslot : (s.events event).listeners[i]? = some (some t) := by
      obtain ⟨hi, hp, -⟩ := List.findIdx?_eq_some_iff_getElem.mp hfind
      rw [List.getElem?_eq_getElem hi]
      simpa using hp
    have hperm := reduceOption_set_none hslot
    have hnodup := List.nodup_cons.mp (hperm.nodup_iff.mp (h.nodup event))
    apply h.setEvent
    · have hlen : (listening s.toScheduler event).length = _ := hperm.length_eq
      rw [h.count event, hlen, List.length_cons]
      rfl
    · exact hnodup.2
    · intro u hu
      have hut : u ≠ t := fun heq => hnodup.1 (heq ▸ hu)
      exact hkeep event u (hperm.mem_iff.mpr (List.mem_cons_of_mem _ hu)) hut
    · exact fun e' hne u hu => hkeep e' u hu (hother e' hne u hu)

/-- A step that leaves the events alone. -/
theorem SlotsOk.congr (h : SlotsOk s) {s' : Scheduler} (hevents : s'.events = s.events) :
    SlotsOk {s with toScheduler := s'} := by
  refine ⟨fun e => ?_, fun e => ?_, fun e => ?_⟩
  · simp only [listening, hevents]
    exact h.count e
  · simp only [listening, hevents]
    exact h.nodup e
  · simp only [listening, hevents]
    exact h.inside e

theorem scheduleNextThread_events (s : Scheduler) (core : Nat) :
    (scheduleNextThread s core).events = s.events := by
  unfold scheduleNextThread popThreadFromQueue
  cases s.ready.pop.1 <;> rfl

theorem preempt_events (s : Scheduler) (core : Nat) : (preempt s core).events = s.events := by
  unfold preempt
  split
  · exact scheduleNextThread_events s core
  · exact scheduleNextThread_events _ core

theorem lapicIpiHandler_events (s : Scheduler) (core : Nat) :
    (lapicIpiHandler s core).events = s.events := by
  unfold lapicIpiHandler
  split
  · exact scheduleNextThread_events s core
  · split
    · exact scheduleNextThread_events s core
    · exact scheduleNextThread_events _ core

theorem scheduleThreadYield_events (s : Scheduler) (core : Nat) (cause : YieldCause) :
    (scheduleThreadYield s core cause).events = s.events := by
  unfold scheduleThreadYield
  split <;> rfl

/-- The invariant of waits and signals. -/
structure WaitInv (s : WaitState) : Prop where
  placed : ∃ l, Placed s.toScheduler l
  slots : SlotsOk s

theorem waitInv_init : WaitInv initWait where
  placed := ⟨[], placed_init⟩
  slots :=
    ⟨fun _ => rfl, fun _ => List.nodup_nil, fun _ _ ht => absurd ht List.not_mem_nil⟩

theorem WaitInv.step (h : WaitInv s) (action : WaitAction) : WaitInv (waitStep s action) := by
  obtain ⟨l, hplaced⟩ := h.placed
  cases action with
  | spawn => exact ⟨⟨_, hplaced.spawn⟩, h.slots.congr rfl⟩
  | dispatch core =>
      cases hcur : s.current core with
      | none =>
          simp only [waitStep, hcur, if_true]
          exact ⟨⟨_, hplaced.next core⟩, h.slots.congr (scheduleNextThread_events _ core)⟩
      | some t => simpa [waitStep, hcur] using h
  | interrupt core => exact ⟨hplaced.preempt core, h.slots.congr (preempt_events _ core)⟩
  | yield core cause =>
      exact ⟨⟨_, hplaced.yield core cause⟩, h.slots.congr (scheduleThreadYield_events _ core cause)⟩
  | ipi core => exact ⟨hplaced.ipi core, h.slots.congr (lapicIpiHandler_events _ core)⟩
  | enter core event =>
      cases hcur : s.current core with
      | none => simpa only [waitStep, hcur] using h
      | some t =>
          cases hout : s.waitingOn t with
          | none =>
              simp only [waitStep, hcur, hout, if_true]
              exact ⟨⟨_, hplaced.attach (hplaced.current_lt core t hcur) event⟩,
                h.slots.attach hout event⟩
          | some e => simpa [waitStep, hcur, hout] using h
  | leave core =>
      cases hcur : s.current core with
      | none => simpa only [waitStep, hcur] using h
      | some t =>
          cases hin : s.waitingOn t with
          | none => simpa only [waitStep, hcur, hin] using h
          | some event =>
              simp only [waitStep, hcur, hin]
              exact ⟨⟨_, hplaced.remove t event⟩, h.slots.remove hin⟩
  | signal event =>
      have hspec := eventSignal_spec hplaced (h.slots.nodup event) (h.slots.count event)
      exact ⟨⟨_, hspec.1⟩, h.slots.congr hspec.2.events⟩

theorem WaitInv.run (actions : List WaitAction) : WaitInv (actions.foldl waitStep initWait) :=
  foldl_inv (fun _ action h => h.step action) waitInv_init actions

theorem WaitInv.counted (h : WaitInv s) : ListenersCounted s.toScheduler := by
  intro event
  rw [h.slots.count event, listening, List.reduceOption_length_eq, List.countP_eq_length_filter]

theorem mem_reached_iff {s : Scheduler} {ts : List Nat} {t : Nat} : t ∈ reached s ts ↔
    (s.threads t).state.asleep = true ∧ ∃ before after, ts = before ++ t :: after ∧
      ∀ u ∈ before, (s.threads u).state.asleep = true := by
  constructor
  · intro hmem
    obtain ⟨before, after, hsplit⟩ := List.append_of_mem hmem
    have hall : ∀ u ∈ before ++ t :: after, (s.threads u).state.asleep = true := by
      rw [← hsplit]
      intro u hu
      exact List.mem_takeWhile_imp (p := fun t => (s.threads t).state.asleep) hu
    refine ⟨hall t (by simp), before, after ++ ts.dropWhile fun t => (s.threads t).state.asleep,
      ?_, fun u hu => hall u (by simp [hu])⟩
    rw [← List.cons_append, ← List.append_assoc, ← hsplit]
    exact (List.takeWhile_append_dropWhile ..).symm
  · rintro ⟨hsleep, before, after, rfl, hbefore⟩
    rw [reached, List.takeWhile_append_of_pos hbefore]
    simp [hsleep]

theorem WaitInv.reaches_iff (h : WaitInv s) (event : Nat) :
    SignalReaches s event ↔ ListenersAsleep s event := by
  obtain ⟨l, hplaced⟩ := h.placed
  obtain ⟨hplaced', hnotified⟩ :=
    eventSignal_spec hplaced (h.slots.nodup event) (h.slots.count event)
  constructor
  · intro hreach t hin hwait
    have hmem : t ∈ reached s.toScheduler (listening s.toScheduler event) := by
      by_contra hout
      have hrun := (hreach t hin hwait).1
      rw [hnotified.others t hout, hwait] at hrun
      cases hrun
    exact (mem_reached_iff.mp hmem).2
  · intro hasleep t hin hwait
    have hmem : t ∈ reached s.toScheduler (listening s.toScheduler event) :=
      mem_reached_iff.mpr ⟨by rw [hwait]; rfl, hasleep t hin hwait⟩
    exact ⟨hnotified.runnable t hmem, hnotified.received t hmem hwait,
      hplaced'.ready.mem_iff.mpr (List.mem_append_right _ hmem), hplaced'.ready.once t⟩

end Waits

/-- After any sequence of waits and signals, `num_listeners` counts the slots in use, and a
signal reaches every waiter exactly if each of them has a slot and all threads in the slots
before it are asleep. -/
theorem event_signal_iff (actions : List WaitAction) (event : Nat) :
    ListenersCounted (actions.foldl waitStep initWait).toScheduler ∧
      (SignalReaches (actions.foldl waitStep initWait) event ↔
        ListenersAsleep (actions.foldl waitStep initWait) event) :=
  ⟨(WaitInv.run actions).counted, (WaitInv.run actions).reaches_iff event⟩

/-- Thread 0 has taken a slot but is still on its core, thread 1 waits behind it. -/
theorem signal_stops_at_first_listener :
    ¬ SignalReaches ([.spawn, .spawn, .dispatch 0, .dispatch 1, .enter 0 7, .enter 1 7,
      .yield 1 .wait, .ipi 1].foldl waitStep initWait) 7 := by
  intro hreach
  exact absurd (hreach 1 (by decide) (by decide)).1 (by decide)

end Tellurium.Sys
