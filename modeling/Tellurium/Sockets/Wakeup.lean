import Tellurium.Klib.Ringbuffer
import Tellurium.Sys.Event

/-!
Blocking receives (`unix_socket_recv`, `unix_socket_send` in `kernel/sockets/unix_socket.c`)
over the scheduler and its events. One thread receives on a connected socket and any number of
threads send to it. The check of the ring buffer under the socket's lock, the registration as a
listener, the yield, the IPI that makes the thread wait, and the signal of a sender are steps
of their own. A sender that finds the buffer full waits for the same event. Timer interrupts
come on cores that have no IPI outstanding.
-/

namespace Tellurium.Sockets

open Tellurium.Lib Tellurium.Arch Tellurium.Klib Tellurium.Sys

/-- The events of the receiving socket and of its peer. -/
def dataReceived : Nat := 0
def peerDataReceived : Nat := 1

/-- Where a thread is in its call: it has found nothing to do under the lock, is a listener,
has yielded, or has put bytes into the buffer and then signalled. -/
inductive CallPhase where
  | outside
  | checked
  | attached
  | slept
  | written
  | signalled
  deriving Repr, DecidableEq

/-- The lock and the ring buffer of the receiving socket, and the cores with an IPI on its way. -/
structure RecvState extends WaitState where
  ring : Ringbuffer
  lock : Bool
  phase : Nat → CallPhase
  pending : Nat → Bool

inductive RecvAction where
  | spawn
  | dispatch (core : Nat)
  | timer (core : Nat)
  | recv (core len : Nat)
  | send (core : Nat) (buff : List UInt8)
  | signal (core : Nat)
  | finish (core : Nat)
  | attach (core : Nat)
  | yield (core : Nat)
  | ipi (core : Nat)
  | leave (core : Nat)
  deriving Repr, DecidableEq

def RecvState.setPhase (s : RecvState) (t : Nat) (phase : CallPhase) : RecvState :=
  {s with phase := Function.update s.phase t phase}

def RecvState.setPending (s : RecvState) (core : Nat) (pending : Bool) : RecvState :=
  {s with pending := Function.update s.pending core pending}

def RecvState.wait (s : RecvState) (action : WaitAction) : RecvState :=
  {s with toWaitState := waitStep s.toWaitState action}

/-- `schedule_thread_wait` does nothing for a thread that is not running. -/
def yieldIfRunning (s : RecvState) (core t : Nat) : RecvState :=
  if (s.threads t).state = .running then (s.wait (.yield core .wait)).setPending core true else s

/-- What `event_wait` answers when its thread runs again. -/
def waitFailed (s : RecvState) (t : Nat) : Bool := (s.threads t).receivedEvent ≠ some dataReceived

/-- A step of the thread that is current on a core, or of the core itself. A call whose wait
failed releases the lock, which it does not hold. -/
def recvStep (receiver : Nat) (s : RecvState) : RecvAction → RecvState
  | .spawn => s.wait .spawn
  | .dispatch core => if s.pending core then s else s.wait (.dispatch core)
  | .timer core => if s.pending core then s else s.wait (.interrupt core)
  | .recv core len =>
      if s.current core = some receiver ∧ s.phase receiver = .outside ∧ s.lock = false then
        if ringbufferSize s.ring = 0 then s.setPhase receiver .checked
        else {s.wait (.signal peerDataReceived) with ring := (ringbufferRead s.ring len).2}
      else s
  | .send core buff =>
      match s.current core with
      | none => s
      | some u =>
          if u ≠ receiver ∧ s.phase u = .outside ∧ s.lock = false then
            if ringbufferSize s.ring = ringbufferCapacity s.ring then s.setPhase u .checked
            else {s.setPhase u .written with ring := (ringbufferWrite s.ring buff).2, lock := true}
          else s
  | .signal core =>
      match s.current core with
      | none => s
      | some u =>
          if s.phase u = .written then (s.wait (.signal dataReceived)).setPhase u .signalled else s
  | .finish core =>
      match s.current core with
      | none => s
      | some u => if s.phase u = .signalled then {s.setPhase u .outside with lock := false} else s
  | .attach core =>
      match s.current core with
      | none => s
      | some t =>
          if s.phase t = .checked then (s.wait (.enter core dataReceived)).setPhase t .attached
          else s
  | .yield core =>
      match s.current core with
      | none => s
      | some t =>
          if s.phase t = .attached then (yieldIfRunning s core t).setPhase t .slept else s
  | .ipi core => if s.pending core then (s.wait (.ipi core)).setPending core false else s
  | .leave core =>
      match s.current core with
      | none => s
      | some t =>
          if s.phase t = .slept ∧ s.pending core = false then
            {(s.wait (.leave core)).setPhase t .outside with
              lock := if waitFailed s t then false else s.lock}
          else s

/-- A connected socket with an empty buffer, before the first thread. -/
def initRecv : RecvState where
  toWaitState := initWait
  ring := ringbufferAlloc (fun _ => 0) 0x2000
  lock := false
  phase _ := .outside
  pending _ := false

/-- The receiver waits for data although there is some, and nobody who sent it is still
about to signal. -/
structure LostWakeUp (receiver : Nat) (s : RecvState) : Prop where
  waiting : (s.threads receiver).state = .waiting
  inside : s.phase receiver = .slept
  data : ringbufferSize s.ring ≠ 0
  returned : ∀ u, s.phase u ≠ .written ∧ s.phase u ≠ .signalled

/-- When a sender signals, the receiver is not on its way to sleep, and if it sleeps the signal
reaches it. -/
def SignalInTime (receiver : Nat) (s : RecvState) : RecvAction → Prop
  | .signal core => ∀ u, s.current core = some u → s.phase u = .written →
      s.phase receiver ≠ .checked ∧ s.phase receiver ≠ .attached ∧
      (s.phase receiver = .slept →
        (∀ c, s.pending c = true → s.current c ≠ some receiver) ∧
        ((s.threads receiver).state = .waiting →
          receiver ∈ reached s.toScheduler (listening s.toScheduler dataReceived)))
  | _ => True

/-- The receiver has seen an empty buffer and has not been woken since. -/
def Going (receiver : Nat) (s : RecvState) : Prop :=
  s.phase receiver = .checked ∨ s.phase receiver = .attached ∨
    s.phase receiver = .slept ∧
      ((∃ core, s.pending core = true ∧ s.current core = some receiver) ∨
        (s.threads receiver).state = .waiting)

structure RecvInv (receiver : Nat) (s : RecvState) : Prop where
  waits : WaitInv s.toWaitState
  not_sender : s.phase receiver ≠ .written ∧ s.phase receiver ≠ .signalled
  window : Going receiver s → ringbufferSize s.ring = 0 ∨ ∃ u, s.phase u = .written

section Wakeups

variable {receiver core t : Nat} {s s' : RecvState}

theorem RecvInv.not_lost (h : RecvInv receiver s) : ¬ LostWakeUp receiver s := by
  intro hlost
  rcases h.window (.inr (.inr ⟨hlost.inside, .inr hlost.waiting⟩)) with hempty | ⟨u, hu⟩
  · exact hlost.data hempty
  · exact (hlost.returned u).1 hu

/-- A step of the scheduler that starts no wait of the receiver. -/
theorem RecvInv.schedule (h : RecvInv receiver s) (hwaits : WaitInv s'.toWaitState)
    (hring : s'.ring = s.ring) (hphase : s'.phase = s.phase)
    (hgoing : s.phase receiver = .slept → Going receiver s' → Going receiver s) :
    RecvInv receiver s' := by
  refine ⟨hwaits, by rw [hphase]; exact h.not_sender, fun hgo => ?_⟩
  rw [hring, hphase]
  apply h.window
  have hgo' := hgo
  unfold Going at hgo'
  rw [hphase] at hgo'
  rcases hgo' with hchecked | hattached | ⟨hslept, -⟩
  · exact .inl hchecked
  · exact .inr (.inl hattached)
  · exact hgoing hslept hgo

theorem scheduleNextThread_current {s : Scheduler} {c : Nat} (hc : c ≠ core) :
    (scheduleNextThread s core).current c = s.current c := by
  unfold scheduleNextThread popThreadFromQueue
  cases s.ready.pop.1 with
  | none => exact Function.update_of_ne hc _ _
  | some t => exact Function.update_of_ne hc _ _

theorem scheduleNextThread_waiting {s : Scheduler}
    (ht : ((scheduleNextThread s core).threads t).state = .waiting) :
    (s.threads t).state = .waiting := by
  unfold scheduleNextThread popThreadFromQueue at ht
  cases hpop : s.ready.pop.1 with
  | none =>
      simp only [hpop] at ht
      exact ht
  | some u =>
      simp only [hpop] at ht
      rw [threadEntry_threads] at ht
      split at ht
      · cases ht
      · exact ht

theorem preempt_current {s : Scheduler} {c : Nat} (hc : c ≠ core) :
    (preempt s core).current c = s.current c := by
  unfold preempt
  split
  · exact scheduleNextThread_current hc
  · exact scheduleNextThread_current hc

theorem preempt_waiting {s : Scheduler} (ht : ((preempt s core).threads t).state = .waiting) :
    (s.threads t).state = .waiting := by
  unfold preempt at ht
  split at ht
  · exact scheduleNextThread_waiting ht
  · rename_i u _
    exact scheduleNextThread_waiting (s := scheduleAddThread s u) ht

theorem lapicIpiHandler_current {s : Scheduler} {c : Nat} (hc : c ≠ core) :
    (lapicIpiHandler s core).current c = s.current c := by
  unfold lapicIpiHandler
  split
  · exact scheduleNextThread_current hc
  · split
    · exact scheduleNextThread_current hc
    · exact scheduleNextThread_current hc

/-- Whoever waits after an IPI was taken off the core by it, or waited before. -/
theorem lapicIpiHandler_waiting {s : Scheduler}
    (ht : ((lapicIpiHandler s core).threads t).state = .waiting) :
    s.current core = some t ∨ (s.threads t).state = .waiting := by
  unfold lapicIpiHandler at ht
  split at ht
  · exact .inr (scheduleNextThread_waiting ht)
  · rename_i u hcur
    split at ht
    · exact .inr (scheduleNextThread_waiting ht)
    · rename_i cause _
      have hstate := scheduleNextThread_waiting (s := s.setState u cause.state) ht
      by_cases htu : t = u
      · exact .inl (htu ▸ hcur)
      · rw [Scheduler.setState, modify_threads_of_ne s _ htu] at hstate
        exact .inr hstate

/-- A step of another thread than the receiver, which only changes that thread's phase. -/
theorem RecvInv.other (h : RecvInv receiver s) (hwaits : WaitInv s'.toWaitState) (phase : CallPhase)
    (hother : t ≠ receiver) (hring : s'.ring = s.ring)
    (hphase : s'.phase = Function.update s.phase t phase) (hold : s.phase t ≠ .written)
    (hpending : ∀ c, s'.pending c = true → s'.current c = some receiver →
      s.pending c = true ∧ s.current c = some receiver)
    (hthreads : (s'.threads receiver).state = .waiting → (s.threads receiver).state = .waiting) :
    RecvInv receiver s' := by
  have hsame : s'.phase receiver = s.phase receiver := by
    rw [hphase, Function.update_of_ne hother.symm]
  refine ⟨hwaits, by rw [hsame]; exact h.not_sender, fun hgo => ?_⟩
  have hbefore : Going receiver s := by
    unfold Going at hgo ⊢
    rw [hsame] at hgo
    rcases hgo with hgo | hgo | ⟨hslept, ⟨c, hgo, hc⟩ | hgo⟩
    · exact .inl hgo
    · exact .inr (.inl hgo)
    · exact .inr (.inr ⟨hslept, .inl ⟨c, hpending c hgo hc⟩⟩)
    · exact .inr (.inr ⟨hslept, .inr (hthreads hgo)⟩)
  rw [hring]
  rcases h.window hbefore with hempty | ⟨u, hu⟩
  · exact .inl hempty
  · have hut : u ≠ t := fun heq => hold (heq ▸ hu)
    exact .inr ⟨u, by rw [hphase, Function.update_of_ne hut, hu]⟩

/-- A step of the receiver that leaves it outside of its call. -/
theorem RecvInv.done (hwaits : WaitInv s'.toWaitState) (hphase : s'.phase receiver = .outside) :
    RecvInv receiver s' := by
  refine ⟨hwaits, by simp [hphase], fun hgo => ?_⟩
  simp [Going, hphase] at hgo

/-- A step of the receiver on its way to sleep. -/
theorem RecvInv.onward (h : RecvInv receiver s) (hwaits : WaitInv s'.toWaitState) {phase : CallPhase}
    (hring : s'.ring = s.ring) (hphase : s'.phase = Function.update s.phase receiver phase)
    (hnext : phase ≠ .written ∧ phase ≠ .signalled) (hgoing : Going receiver s) :
    RecvInv receiver s' := by
  have hsame : s'.phase receiver = phase := by rw [hphase, Function.update_self]
  refine ⟨hwaits, by rw [hsame]; exact hnext, fun _ => ?_⟩
  rw [hring]
  rcases h.window hgoing with hempty | ⟨u, hu⟩
  · exact .inl hempty
  · have hur : u ≠ receiver := fun heq => h.not_sender.1 (heq ▸ hu)
    exact .inr ⟨u, by rw [hphase, Function.update_of_ne hur, hu]⟩

/-- A switch of threads on a core without an outstanding IPI. -/
theorem RecvInv.switch (h : RecvInv receiver s) {action : WaitAction} (hcore : s.pending core = false)
    (hcurrent : ∀ c, c ≠ core → (waitStep s.toWaitState action).current c = s.current c)
    (hthreads : ((waitStep s.toWaitState action).threads receiver).state = .waiting →
      (s.threads receiver).state = .waiting) : RecvInv receiver (s.wait action) := by
  refine h.schedule (h.waits.step action) rfl rfl fun hslept hgo => ?_
  rcases hgo with hgo | hgo | ⟨-, ⟨c, hpending, hc⟩ | hgo⟩
  · exact .inl hgo
  · exact .inr (.inl hgo)
  · have hne : c ≠ core := by
      rintro rfl
      exact absurd (hpending.symm.trans hcore) (by simp)
    exact .inr (.inr ⟨hslept, .inl ⟨c, hpending, (hcurrent c hne).symm.trans hc⟩⟩)
  · exact .inr (.inr ⟨hslept, .inr (hthreads hgo)⟩)

theorem RecvInv.ipi (h : RecvInv receiver s) (hcore : s.pending core = true) :
    RecvInv receiver ((s.wait (.ipi core)).setPending core false) := by
  refine h.schedule (h.waits.step (.ipi core)) rfl rfl fun hslept hgo => ?_
  rcases hgo with hgo | hgo | ⟨-, ⟨c, hpending, hc⟩ | hgo⟩
  · exact .inl hgo
  · exact .inr (.inl hgo)
  · have hne : c ≠ core := by
      rintro rfl
      simp [RecvState.setPending] at hpending
    have hold : s.pending c = true := by simpa [RecvState.setPending, RecvState.wait, hne] using hpending
    exact .inr (.inr ⟨hslept, .inl ⟨c, hold, (lapicIpiHandler_current hne).symm.trans hc⟩⟩)
  · rcases lapicIpiHandler_waiting hgo with hcur | hwait
    · exact .inr (.inr ⟨hslept, .inl ⟨core, hcore, hcur⟩⟩)
    · exact .inr (.inr ⟨hslept, .inr hwait⟩)

theorem RecvInv.recv (h : RecvInv receiver s) (core len : Nat) :
    RecvInv receiver (recvStep receiver s (.recv core len)) := by
  simp only [recvStep]
  split
  · rename_i hcall
    split
    · rename_i hempty
      exact ⟨h.waits, by simp [RecvState.setPhase], fun _ => .inl hempty⟩
    · exact RecvInv.done (h.waits.step (.signal peerDataReceived)) hcall.2.1
  · exact h

theorem RecvInv.send (h : RecvInv receiver s) (core : Nat) (buff : List UInt8) :
    RecvInv receiver (recvStep receiver s (.send core buff)) := by
  simp only [recvStep]
  split
  · exact h
  · rename_i u _
    split
    · rename_i hcall
      split
      · exact h.other h.waits .checked hcall.1 rfl rfl (by simp [hcall.2.1])
          (fun c hp hc => ⟨hp, hc⟩) id
      · refine ⟨h.waits, ?_, fun _ => .inr ⟨u, Function.update_self ..⟩⟩
        have hsame : Function.update s.phase u CallPhase.written receiver = s.phase receiver :=
          Function.update_of_ne hcall.1.symm _ _
        simp only [RecvState.setPhase, hsame]
        exact h.not_sender
    · exact h

/-- The signal of a sender ends the receiver's sleep, or finds it elsewhere. -/
theorem RecvInv.signal (h : RecvInv receiver s) {core : Nat}
    (htime : SignalInTime receiver s (.signal core)) :
    RecvInv receiver (recvStep receiver s (.signal core)) := by
  simp only [recvStep]
  split
  · exact h
  · rename_i u hcur
    split
    · rename_i hwritten
      have hur : u ≠ receiver := fun heq => h.not_sender.1 (heq ▸ hwritten)
      have hsame : ((s.wait (.signal dataReceived)).setPhase u .signalled).phase receiver =
          s.phase receiver := Function.update_of_ne hur.symm _ _
      obtain ⟨hchecked, hattached, hslept⟩ := htime u hcur hwritten
      obtain ⟨l, hplaced⟩ := h.waits.placed
      obtain ⟨-, hnotified⟩ := eventSignal_spec hplaced (h.waits.slots.nodup dataReceived)
        (h.waits.slots.count dataReceived)
      refine ⟨h.waits.step (.signal dataReceived), by rw [hsame]; exact h.not_sender, fun hgo => ?_⟩
      unfold Going at hgo
      rw [hsame] at hgo
      rcases hgo with hgo | hgo | ⟨hphase, ⟨c, hpending, hc⟩ | hwait⟩
      · exact absurd hgo hchecked
      · exact absurd hgo hattached
      · have hc' : s.current c = some receiver := by
          have hcurrent : ((s.wait (.signal dataReceived)).setPhase u .signalled).current c =
            s.current c := congrFun hnotified.current c
          exact hcurrent.symm.trans hc
        exact absurd hc' ((hslept hphase).1 c hpending)
      · have hwait' : ((eventSignal s.toScheduler dataReceived).2.threads receiver).state =
            .waiting := hwait
        by_cases hmem : receiver ∈ reached s.toScheduler (listening s.toScheduler dataReceived)
        · rw [hnotified.runnable receiver hmem] at hwait'
          cases hwait'
        · rw [hnotified.others receiver hmem] at hwait'
          exact absurd ((hslept hphase).2 hwait') hmem
    · exact h

theorem RecvInv.finish (h : RecvInv receiver s) (core : Nat) :
    RecvInv receiver (recvStep receiver s (.finish core)) := by
  simp only [recvStep]
  split
  · exact h
  · rename_i u _
    split
    · rename_i hsignalled
      have hur : u ≠ receiver := fun heq => h.not_sender.2 (heq ▸ hsignalled)
      exact h.other h.waits .outside hur rfl rfl (by simp [hsignalled]) (fun c hp hc => ⟨hp, hc⟩) id
    · exact h

theorem attachListener_threads (s : Scheduler) (t event : Nat) :
    (attachListener s t event).2.threads = s.threads ∧
      (attachListener s t event).2.current = s.current := by
  unfold attachListener
  split <;> exact ⟨rfl, rfl⟩

theorem enter_threads (s : WaitState) (core event : Nat) :
    (waitStep s (.enter core event)).threads = s.threads ∧
      (waitStep s (.enter core event)).current = s.current := by
  simp only [waitStep]
  split
  · exact ⟨rfl, rfl⟩
  · split
    · exact attachListener_threads ..
    · exact ⟨rfl, rfl⟩

theorem removeListener_threads (s : Scheduler) (t event : Nat) :
    (removeListener s t event).2.threads = s.threads ∧
      (removeListener s t event).2.current = s.current := by
  unfold removeListener
  split <;> exact ⟨rfl, rfl⟩

theorem leave_threads (s : WaitState) (core : Nat) :
    (waitStep s (.leave core)).threads = s.threads ∧
      (waitStep s (.leave core)).current = s.current := by
  simp only [waitStep]
  split
  · exact ⟨rfl, rfl⟩
  · split
    · exact ⟨rfl, rfl⟩
    · exact removeListener_threads ..

theorem RecvInv.attach (h : RecvInv receiver s) (core : Nat) :
    RecvInv receiver (recvStep receiver s (.attach core)) := by
  simp only [recvStep]
  split
  · exact h
  · rename_i t _
    split
    · rename_i hchecked
      have hwaits := h.waits.step (.enter core dataReceived)
      by_cases htr : t = receiver
      · subst htr
        exact h.onward hwaits rfl rfl (by simp) (.inl hchecked)
      · have hkeep := enter_threads s.toWaitState core dataReceived
        refine h.other hwaits .attached htr rfl rfl (by simp [hchecked]) (fun c hp hc => ?_) fun hw => ?_
        · exact ⟨hp, (congrFun hkeep.2 c).symm.trans hc⟩
        · rw [← hkeep.1]
          exact hw
    · exact h

theorem RecvInv.leave (h : RecvInv receiver s) (core : Nat) :
    RecvInv receiver (recvStep receiver s (.leave core)) := by
  simp only [recvStep]
  split
  · exact h
  · rename_i t _
    split
    · rename_i hslept
      have hwaits := h.waits.step (.leave core)
      by_cases htr : t = receiver
      · subst htr
        exact RecvInv.done hwaits (Function.update_self ..)
      · have hkeep := leave_threads s.toWaitState core
        refine h.other hwaits .outside htr rfl rfl (by simp [hslept.1]) (fun c hp hc => ?_) fun hw => ?_
        · exact ⟨hp, (congrFun hkeep.2 c).symm.trans hc⟩
        · rw [← hkeep.1]
          exact hw
    · exact h

theorem yield_threads (s : WaitState) (core : Nat) (cause : YieldCause) (t : Nat) :
    (waitStep s (.yield core cause)).current = s.current ∧
      ((waitStep s (.yield core cause)).threads t).state = (s.threads t).state := by
  simp only [waitStep, scheduleThreadYield]
  split
  · exact ⟨rfl, rfl⟩
  · rename_i u _
    refine ⟨rfl, ?_⟩
    by_cases htu : t = u
    · rw [htu, modify_threads_same]
    · rw [modify_threads_of_ne _ _ htu]

theorem RecvInv.yield (h : RecvInv receiver s) (core : Nat) :
    RecvInv receiver (recvStep receiver s (.yield core)) := by
  simp only [recvStep]
  split
  · exact h
  · rename_i t hcur
    split
    · rename_i hattached
      by_cases htr : t = receiver
      · subst htr
        unfold yieldIfRunning
        split
        · exact h.onward (h.waits.step (.yield core .wait)) rfl rfl (by simp) (.inr (.inl hattached))
        · exact h.onward h.waits rfl rfl (by simp) (.inr (.inl hattached))
      · unfold yieldIfRunning
        split
        · have hkeep := yield_threads s.toWaitState core .wait receiver
          refine h.other (h.waits.step (.yield core .wait)) .slept htr rfl rfl (by simp [hattached])
            (fun c hp hc => ?_) fun hw => ?_
          · have hc' : s.current c = some receiver := (congrFun hkeep.1 c).symm.trans hc
            have hne : c ≠ core := by
              rintro rfl
              exact htr (Option.some.inj (hcur.symm.trans hc'))
            exact ⟨by simpa [RecvState.setPending, RecvState.setPhase, RecvState.wait, hne] using hp, hc'⟩
          · rw [← hkeep.2]
            exact hw
        · exact h.other h.waits .slept htr rfl rfl (by simp [hattached]) (fun c hp hc => ⟨hp, hc⟩) id
    · exact h

theorem RecvInv.spawn (h : RecvInv receiver s) : RecvInv receiver (s.wait .spawn) := by
  refine h.schedule (h.waits.step .spawn) rfl rfl fun hslept hgo => ?_
  rcases hgo with hgo | hgo | ⟨-, hgo | hgo⟩
  · exact .inl hgo
  · exact .inr (.inl hgo)
  · exact .inr (.inr ⟨hslept, .inl hgo⟩)
  · have hwait : (Function.update s.threads s.nextThread createThread receiver).state = .waiting :=
      hgo
    by_cases hnew : receiver = s.nextThread
    · rw [hnew, Function.update_self] at hwait
      cases hwait
    · rw [Function.update_of_ne hnew] at hwait
      exact .inr (.inr ⟨hslept, .inr hwait⟩)

theorem RecvInv.dispatch (h : RecvInv receiver s) (hcore : s.pending core = false) :
    RecvInv receiver (s.wait (.dispatch core)) := by
  apply h.switch hcore
  · intro c hc
    simp only [waitStep]
    split
    · exact scheduleNextThread_current hc
    · rfl
  · intro hwait
    simp only [waitStep] at hwait
    split at hwait
    · exact scheduleNextThread_waiting hwait
    · exact hwait

theorem RecvInv.step (h : RecvInv receiver s) {action : RecvAction}
    (htime : SignalInTime receiver s action) : RecvInv receiver (recvStep receiver s action) := by
  cases action with
  | spawn => exact h.spawn
  | dispatch core =>
      cases hcore : s.pending core with
      | true => simpa only [recvStep, hcore, if_true] using h
      | false => simpa [recvStep, hcore] using h.dispatch hcore
  | timer core =>
      cases hcore : s.pending core with
      | true => simpa only [recvStep, hcore, if_true] using h
      | false =>
          have hswitch : RecvInv receiver (s.wait (.interrupt core)) :=
            h.switch hcore (fun c hc => preempt_current hc) preempt_waiting
          simpa [recvStep, hcore] using hswitch
  | recv core len => exact h.recv core len
  | send core buff => exact h.send core buff
  | signal core => exact h.signal htime
  | finish core => exact h.finish core
  | attach core => exact h.attach core
  | yield core => exact h.yield core
  | ipi core =>
      cases hcore : s.pending core with
      | true => simpa only [recvStep, hcore, if_true] using h.ipi hcore
      | false => simpa [recvStep, hcore] using h
  | leave core => exact h.leave core

theorem recvInv_init (receiver : Nat) : RecvInv receiver initRecv :=
  RecvInv.done waitInv_init rfl

end Wakeups

/-- In every run in which no sender signals while the receiver is on its way to sleep, and
every signal reaches a sleeping receiver, no wake-up is lost. -/
theorem no_lost_wakeup_in_time (receiver : Nat) {actions reached : List RecvAction}
    (htime : EveryStep (recvStep receiver) (SignalInTime receiver) initRecv actions)
    (hreached : reached <+: actions) :
    ¬ LostWakeUp receiver (reached.foldl (recvStep receiver) initRecv) :=
  (htime.inv (RecvInv receiver) (fun _ _ h htime => h.step htime) (recvInv_init receiver)
    hreached).not_lost

/-- Thread 0 is about to receive on core 0 and thread 1 to send on core 1. -/
def recvAndSend : List RecvAction := [.spawn, .spawn, .dispatch 0, .dispatch 1, .recv 0 16]

/-- Thread 1 sends one byte after thread 0 has fallen asleep. -/
theorem no_lost_wakeup_late_send :
    ¬ LostWakeUp 0 ((recvAndSend ++ [RecvAction.attach 0, .yield 0, .ipi 0, .send 1 [0x61],
      .signal 1, .finish 1]).foldl (recvStep 0) initRecv) := by
  refine no_lost_wakeup_in_time 0 ?_ (List.prefix_refl _)
  refine ⟨trivial, trivial, trivial, trivial, trivial, trivial, trivial, trivial, trivial, ?_,
    trivial, trivial⟩
  intro u _ _
  refine ⟨by decide, by decide, fun _ => ⟨fun c hc => ?_, fun _ => by decide⟩⟩
  match c with
  | 0 => cases hc
  | 1 => cases hc
  | c + 2 => cases hc

/-- Thread 1 sends one byte between the check and the registration of thread 0. -/
theorem send_before_attach_lost :
    LostWakeUp 0 ((recvAndSend ++ [RecvAction.send 1 [0x61], .signal 1, .finish 1, .attach 0,
      .yield 0, .ipi 0]).foldl (recvStep 0) initRecv) where
  waiting := by decide
  inside := by decide
  data := by decide
  returned u := by
    match u with
    | 0 => decide
    | 1 => decide
    | u + 2 => exact ⟨nofun, nofun⟩

end Tellurium.Sockets
