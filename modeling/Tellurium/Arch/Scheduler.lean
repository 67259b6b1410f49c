import Tellurium.Lib.Queue
import Tellurium.Lib.Run

/-!
The scheduler (`kernel/arch/scheduler.c`), the interrupt handlers that switch threads
(`kernel/devices/lapic.c`, `kernel/devices/ps2.c`) and the events that threads wait for
(`kernel/sys/event.c`). Threads, cores and events are named by numbers. A core without a
current thread runs its idle thread. The regions that a lock protects and the bodies of the
handlers are single functions on the state, so the locks themselves are left out, and so is
the `prev` link of the ready queue, which is written and never read.
-/

namespace Tellurium.Arch

open Tellurium.Lib

inductive ThreadState where
  | created
  | runnable
  | blocked
  | waiting
  | joined
  | delayed
  | running
  | zombie
  deriving Repr, DecidableEq

/-- Cause for an IPI. -/
inductive YieldCause where
  | wait
  | terminate
  | join
  deriving Repr, DecidableEq

structure Thread where
  state : ThreadState
  yieldCause : Option YieldCause
  receivedEvent : Option Nat
  joinThread : Option Nat
  deriving Repr, DecidableEq

/-- The fields that `create_kernel_thread` and `create_user_thread` set. -/
def createThread : Thread := ⟨.created, none, none, none⟩

def listenCapacity : Nat := 0x10
def queueMax : Nat := 100

structure Event where
  numListeners : Nat
  listeners : List (Option Nat)
  deriving Repr, DecidableEq

inductive EventCode where
  | ok
  | err
  | noListeners
  | badThreadState
  deriving Repr, DecidableEq

structure Scheduler where
  threads : Nat → Thread
  nextThread : Nat
  ready : Queue
  current : Nat → Option Nat
  joinedThreads : List (Option Nat)
  events : Nat → Event

def Scheduler.modify (s : Scheduler) (t : Nat) (f : Thread → Thread) : Scheduler :=
  {s with threads := Function.update s.threads t (f (s.threads t))}

def Scheduler.setState (s : Scheduler) (t : Nat) (state : ThreadState) : Scheduler :=
  s.modify t fun thread => {thread with state}

def Scheduler.setCurrent (s : Scheduler) (core : Nat) (t : Option Nat) : Scheduler :=
  {s with current := Function.update s.current core t}

def Scheduler.setEvent (s : Scheduler) (event : Nat) (e : Event) : Scheduler :=
  {s with events := Function.update s.events event e}

def popThreadFromQueue (s : Scheduler) : Option Nat × Scheduler :=
  (s.ready.pop.1, {s with ready := s.ready.pop.2})

def scheduleAddThread (s : Scheduler) (t : Nat) : Scheduler := {s with ready := s.ready.push t}

def threadEntry (s : Scheduler) (core t : Nat) : Scheduler :=
  (s.setCurrent core (some t)).setState t .running

def scheduleNextThread (s : Scheduler) (core : Nat) : Scheduler :=
  match popThreadFromQueue s with
  | (none, s) => s.setCurrent core none
  | (some t, s) => threadEntry s core t

/-- The timer, mouse and keyboard handlers put the current thread back in the same way. -/
def preempt (s : Scheduler) (core : Nat) : Scheduler :=
  match s.current core with
  | none => scheduleNextThread s core
  | some t => scheduleNextThread (scheduleAddThread s t) core

def lapicTimeHandler (s : Scheduler) (core : Nat) : Scheduler := preempt s core
def mouseHandler (s : Scheduler) (core : Nat) : Scheduler := preempt s core
def keyboardHandler (s : Scheduler) (core : Nat) : Scheduler := preempt s core

/-- The state that the IPI handler gives to a thread that yielded. -/
def YieldCause.state : YieldCause → ThreadState
  | .wait => .waiting
  | .terminate => .zombie
  | .join => .joined

def lapicIpiHandler (s : Scheduler) (core : Nat) : Scheduler :=
  match s.current core with
  | none => scheduleNextThread s core
  | some t =>
      match (s.threads t).yieldCause with
      | none => scheduleNextThread s core
      | some cause => scheduleNextThread (s.setState t cause.state) core

/-- What a yield does before its IPI arrives. -/
def scheduleThreadYield (s : Scheduler) (core : Nat) (cause : YieldCause) : Scheduler :=
  match s.current core with
  | none => s
  | some t => s.modify t fun thread => {thread with yieldCause := some cause}

/-- The answer tells whether the thread could be notified. -/
def scheduleNotify (s : Scheduler) (event t : Nat) : Bool × Scheduler :=
  match (s.threads t).state with
  | .waiting =>
      (true, scheduleAddThread
        (s.modify t fun thread => {thread with receivedEvent := some event, state := .runnable}) t)
  | .blocked => (true, scheduleAddThread (s.setState t .runnable) t)
  | _ => (false, s)

/-- The loop over the listeners, which ends at the first one that cannot be notified. -/
def notifyAll (s : Scheduler) (event : Nat) : List (Option Nat) → EventCode × Scheduler
  | [] => (.ok, s)
  | none :: rest => notifyAll s event rest
  | some t :: rest =>
      match scheduleNotify s event t with
      | (true, s) => notifyAll s event rest
      | (false, s) => (.badThreadState, s)

def eventSignal (s : Scheduler) (event : Nat) : EventCode × Scheduler :=
  if (s.events event).numListeners = 0 then (.noListeners, s)
  else notifyAll s event (s.events event).listeners

/-- Neither result is looked at by `event_wait`. -/
def attachListener (s : Scheduler) (t event : Nat) : Bool × Scheduler :=
  match (s.events event).listeners.findIdx? (· = none) with
  | none => (false, s)
  | some i =>
      (true, s.setEvent event
        {numListeners := (s.events event).numListeners + 1
         listeners := (s.events event).listeners.set i (some t)})

def removeListener (s : Scheduler) (t event : Nat) : Bool × Scheduler :=
  match (s.events event).listeners.findIdx? (· = some t) with
  | none => (false, s)
  | some i =>
      (true, s.setEvent event
        {numListeners := (s.events event).numListeners - 1
         listeners := (s.events event).listeners.set i none})

/-- A join names the thread to wait for before it takes the lock. -/
def setJoinThread (s : Scheduler) (core threadToWaitOn : Nat) : Scheduler :=
  match s.current core with
  | none => s
  | some t => s.modify t fun thread => {thread with joinThread := some threadToWaitOn}

/-- The region of `schedule_thread_join`. A full table takes nobody. -/
def joinRegister (s : Scheduler) (core : Nat) : Scheduler :=
  match s.current core with
  | none => s
  | some t =>
      match (s.threads t).joinThread with
      | none => s
      | some threadToWaitOn =>
          if (s.threads threadToWaitOn).state = .zombie then s
          else
            match s.joinedThreads.findIdx? (· = none) with
            | none => s
            | some i => {s with joinedThreads := s.joinedThreads.set i (some t)}

/-- The thread in slot `i` if it waits for `thread`. -/
def joinerAt (s : Scheduler) (thread i : Nat) : Option Nat :=
  match s.joinedThreads.getD i none with
  | none => none
  | some t => if (s.threads t).joinThread = some thread then some t else none

def wakeSlot (thread : Nat) (s : Scheduler) (i : Nat) : Scheduler :=
  match joinerAt s thread i with
  | none => s
  | some t =>
      let s := scheduleAddThread (s.setState t .runnable) t
      {s with joinedThreads := s.joinedThreads.set i none}

/-- The region of `schedule_thread_terminate`. -/
def wakeJoined (s : Scheduler) (thread : Nat) : Scheduler :=
  (List.range queueMax).foldl (wakeSlot thread) s

/-- A new thread is made and added. -/
def spawnThread (s : Scheduler) : Scheduler :=
  scheduleAddThread {s with
    threads := Function.update s.threads s.nextThread createThread
    nextThread := s.nextThread + 1} s.nextThread

/-- Before the first thread: all cores are idle and all tables empty. -/
def initScheduler : Scheduler where
  threads _ := createThread
  nextThread := 0
  ready := Queue.empty
  current _ := none
  joinedThreads := List.replicate queueMax none
  events _ := ⟨0, List.replicate listenCapacity none⟩

end Tellurium.Arch
