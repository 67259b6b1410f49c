import Tellurium.Sockets.Socket
import Mathlib.Logic.Function.Basic

/-!
Accepting connections on a listening unix socket (`kernel/sockets/unix_socket.c`). An
accept call creates its own end of the connection, then takes a client off the backlog
under the listener's lock; on an empty backlog a blocking call waits and tries again.
The answers of `event_wait` and `event_signal` are inputs of the step. Allocations
succeed. A second machine, `Fifo`, is what the backlog is meant to be.
-/

namespace Tellurium.Sockets

/-- All sockets by address, the address of the next one created, the accept calls that
wait (by their new socket), and the clients connected so far, oldest first. -/
structure State where
  sockets : Nat → Socket
  nextSocket : Nat
  waiting : List Nat
  accepted : List Nat

def State.modify (s : State) (a : Nat) (f : Socket → Socket) : State :=
  {s with sockets := Function.update s.sockets a (f (s.sockets a))}

/-- The listener's type is `SOCK_STREAM`, so creation passes its check. -/
def unixSocketCreate (s : State) : Nat × State :=
  (s.nextSocket, {s.modify s.nextSocket (fun _ => socketInit) with nextSocket := s.nextSocket + 1})

/-- How an accept call leaves the region under the listener's lock. -/
inductive AcceptOutcome where
  | returned (code : SktCode)
  | blocked
  | fault
  deriving Repr, DecidableEq

/-- One round under the lock. A null entry of the backlog would be dereferenced. -/
def acceptLocked (this listenSock : Nat) (nonblock signalErr : Bool) (s : State) :
    AcceptOutcome × State :=
  if (s.sockets this).backlogSize = 0 then
    if nonblock then (.returned .nonblock, s)
    else (.blocked, {s with waiting := listenSock :: s.waiting})
  else
    match socketPopFromBacklog (s.sockets this) with
    | (.ok, some clientSock, popped) =>
        let s := s.modify this fun _ => popped
        let s := s.modify listenSock fun sock =>
          {sock with peer := some clientSock, state := .connected}
        let s := s.modify clientSock fun sock =>
          {sock with peer := some listenSock, state := .connected}
        let s := {s with accepted := s.accepted ++ [clientSock]}
        (.returned (if signalErr then .badEvent else .ok), s)
    | (.ok, none, _) => (.fault, s)
    | (err, _, _) => (.returned err, s)

/-- `addrOk` is the check of `addr` and `*addrlen`. -/
def unixSocketAccept (this : Nat) (addrOk nonblock signalErr : Bool) (s : State) :
    AcceptOutcome × State :=
  if !addrOk then (.returned .badParam, s)
  else if (s.sockets this).state ≠ .listening then (.returned .badState, s)
  else
    let (listenSock, s) := unixSocketCreate s
    acceptLocked this listenSock nonblock signalErr s

/-- The call waiting with `listenSock` comes back from `event_wait`. -/
def resumeAccept (this listenSock : Nat) (waitErr signalErr : Bool) (s : State) :
    AcceptOutcome × State :=
  let s := {s with waiting := s.waiting.erase listenSock}
  if waitErr then (.returned .badEvent, s)
  else acceptLocked this listenSock false signalErr s

/-- What happens to a listening socket. -/
inductive Op where
  | request (client : Nat)
  | withdraw (client : Nat)
  | accept (addrOk nonblock signalErr : Bool)
  | resume (listenSock : Nat) (waitErr signalErr : Bool)
  deriving Repr, DecidableEq

def step (this : Nat) (s : State) : Op → State
  | .request client => s.modify this fun sock => (socketAddToPeerBacklog client sock).2
  | .withdraw client => s.modify this fun sock => (socketBacklogRemove sock client).2
  | .accept addrOk nonblock signalErr => (unixSocketAccept this addrOk nonblock signalErr s).2
  | .resume listenSock waitErr signalErr =>
      if listenSock ∈ s.waiting then (resumeAccept this listenSock waitErr signalErr s).2 else s

/-- The operation gets as far as taking a client off the backlog. -/
def attempts (this : Nat) (s : State) : Op → Bool
  | .request _ => false
  | .withdraw _ => false
  | .accept addrOk _ _ => addrOk && (s.sockets this).state = .listening
  | .resume listenSock waitErr _ => listenSock ∈ s.waiting && !waitErr

/-- The operation would take an entry out of the backlog. -/
def TakesEntry (this : Nat) (s : State) (op : Op) : Prop :=
  match op with
  | .withdraw client => some client ∈ (s.sockets this).inUse
  | op => attempts this s op = true ∧ (s.sockets this).backlogSize ≠ 0

/-- The queue of pending clients that a backlog stands for, with its history. -/
structure Fifo where
  pending : List Nat
  arrived : List Nat
  accepted : List Nat
  withdrawn : List Nat
  deriving Repr, DecidableEq

def Fifo.empty : Fifo := ⟨[], [], [], []⟩

/-- Requests queue up to the capacity, a withdrawal leaves the queue, and an accept takes
the oldest client. -/
def Fifo.step (capacity : Nat) (attempt : Bool) (q : Fifo) : Op → Fifo
  | .request client =>
      if q.pending.length = capacity then q
      else {q with pending := q.pending ++ [client], arrived := q.arrived ++ [client]}
  | .withdraw client =>
      if client ∈ q.pending then
        {q with pending := q.pending.erase client, withdrawn := q.withdrawn ++ [client]}
      else q
  | _ =>
      match attempt, q.pending with
      | true, client :: rest => {q with pending := rest, accepted := q.accepted ++ [client]}
      | _, _ => q

/-- The socket and the queue side by side. -/
def runBoth (this capacity : Nat) : State × Fifo → List Op → State × Fifo
  | sq, [] => sq
  | (s, q), op :: ops =>
      runBoth this capacity (step this s op, q.step capacity (attempts this s op) op) ops

/-- Every connected socket and its peer point at each other. -/
def PeersAgree (s : State) : Prop :=
  ∀ a, (s.sockets a).state = .connected → ∃ b, (s.sockets a).peer = some b ∧
    (s.sockets b).state = .connected ∧ (s.sockets b).peer = some a

/-- The backlog is the queue, and connections are mutual. -/
structure Agreement (this : Nat) (s : State) (q : Fifo) : Prop where
  size : (s.sockets this).backlogSize = q.pending.length
  contents : (s.sockets this).inUse = q.pending.map some
  accepted_eq : s.accepted = q.accepted
  arrival_order : (s.accepted ++ q.pending).Sublist q.arrived
  once : s.accepted.Nodup
  withdrawn_not_accepted : ∀ c ∈ q.withdrawn, c ∉ s.accepted
  peers : PeersAgree s

/-- A listener right after `unix_socket_listen`. -/
structure Initial (this : Nat) (s : State) : Prop where
  listening : (s.sockets this).state = .listening
  backlog_length : (s.sockets this).backlog.length = (s.sockets this).backlogCapacity
  backlog_empty : (s.sockets this).backlogSize = 0
  allocated : this < s.nextSocket
  fresh : ∀ a, s.nextSocket ≤ a → (s.sockets a).state ≠ .connected
  no_waiting : s.waiting = []
  none_accepted : s.accepted = []
  peers : PeersAgree s

section Runs

variable {this capacity : Nat} {s : State} {q : Fifo} {op : Op}

@[simp] theorem modify_sockets_same (s : State) (a : Nat) (f : Socket → Socket) :
    (s.modify a f).sockets a = f (s.sockets a) := by simp [State.modify]

@[simp] theorem modify_sockets_of_ne (s : State) (f : Socket → Socket) {a b : Nat} (h : b ≠ a) :
    (s.modify a f).sockets b = s.sockets b := by simp [State.modify, h]

theorem unixSocketCreate_sockets_of_ne (s : State) {a : Nat} (h : a ≠ s.nextSocket) :
    (unixSocketCreate s).2.sockets a = s.sockets a := by simp [unixSocketCreate, h]

theorem runBoth_append (sq : State × Fifo) (ops ops' : List Op) :
    runBoth this capacity sq (ops ++ ops') =
      runBoth this capacity (runBoth this capacity sq ops) ops' := by
  induction ops generalizing sq with
  | nil => rfl
  | cons op ops ih => exact ih _

/-- The states of runs in which no entry was ever taken out: everything that arrived is still
pending and nothing was accepted. -/
structure Quiet (this capacity : Nat) (s : State) (q : Fifo) : Prop where
  backlog_length : (s.sockets this).backlog.length = capacity
  backlog_capacity : (s.sockets this).backlogCapacity = capacity
  size : (s.sockets this).backlogSize = q.pending.length
  bounded : q.pending.length ≤ capacity
  contents : (s.sockets this).inUse = q.pending.map some
  arrived : q.arrived = q.pending
  none_accepted : s.accepted = [] ∧ q.accepted = []
  none_withdrawn : q.withdrawn = []
  allocated : this < s.nextSocket
  fresh : ∀ a, s.nextSocket ≤ a → (s.sockets a).state ≠ .connected
  peers : PeersAgree s

theorem Initial.quiet (hinit : Initial this s) :
    Quiet this (s.sockets this).backlogCapacity s Fifo.empty where
  backlog_length := hinit.backlog_length
  backlog_capacity := rfl
  size := hinit.backlog_empty
  bounded := Nat.zero_le _
  contents := by simp [Socket.inUse, hinit.backlog_empty, Fifo.empty]
  arrived := rfl
  none_accepted := ⟨hinit.none_accepted, rfl⟩
  none_withdrawn := rfl
  allocated := hinit.allocated
  fresh := hinit.fresh
  peers := hinit.peers

theorem Quiet.agreement (h : Quiet this capacity s q) : Agreement this s q where
  size := h.size
  contents := h.contents
  accepted_eq := h.none_accepted.1.trans h.none_accepted.2.symm
  arrival_order := by rw [h.none_accepted.1, h.arrived, List.nil_append]
  once := by rw [h.none_accepted.1]; exact List.nodup_nil
  withdrawn_not_accepted := by simp [h.none_withdrawn]
  peers := h.peers

/-- A new socket is not connected, so no connection changes. -/
theorem peersAgree_create (hfresh : ∀ a, s.nextSocket ≤ a → (s.sockets a).state ≠ .connected)
    (hpeers : PeersAgree s) : PeersAgree (unixSocketCreate s).2 := by
  have hold : ∀ a, a ≠ s.nextSocket → (unixSocketCreate s).2.sockets a = s.sockets a :=
    fun a ha => unixSocketCreate_sockets_of_ne s ha
  have hnew : ((unixSocketCreate s).2.sockets s.nextSocket).state = .created := by
    simp [unixSocketCreate, socketInit]
  intro a ha
  have hane : a ≠ s.nextSocket := by
    rintro rfl
    simp [hnew] at ha
  rw [hold a hane] at ha ⊢
  obtain ⟨b, hpeer, hb, hback⟩ := hpeers a ha
  have hbne : b ≠ s.nextSocket := by
    rintro rfl
    exact hfresh _ (Nat.le_refl _) hb
  exact ⟨b, hpeer, by rw [hold b hbne]; exact hb, by rw [hold b hbne]; exact hback⟩

theorem Quiet.create (h : Quiet this capacity s q) :
    Quiet this capacity (unixSocketCreate s).2 q := by
  have hthis : (unixSocketCreate s).2.sockets this = s.sockets this :=
    unixSocketCreate_sockets_of_ne s (Nat.ne_of_lt h.allocated)
  refine ⟨?_, ?_, ?_, h.bounded, ?_, h.arrived, h.none_accepted, h.none_withdrawn, ?_, ?_,
    peersAgree_create h.fresh h.peers⟩
  · rw [hthis, h.backlog_length]
  · rw [hthis, h.backlog_capacity]
  · rw [hthis, h.size]
  · rw [hthis, h.contents]
  · exact Nat.lt_succ_of_lt h.allocated
  · intro a ha
    have hane : a ≠ s.nextSocket := Nat.ne_of_gt ha
    rw [unixSocketCreate_sockets_of_ne s hane]
    exact h.fresh a (Nat.le_of_succ_le ha)

/-- On an empty backlog a round under the lock changes no socket. -/
theorem Quiet.acceptLocked (h : Quiet this capacity s q) (hempty : (s.sockets this).backlogSize = 0)
    (listenSock : Nat) (nonblock signalErr : Bool) :
    Quiet this capacity (acceptLocked this listenSock nonblock signalErr s).2 q := by
  rw [Sockets.acceptLocked, if_pos hempty]
  cases nonblock with
  | true => exact h
  | false => exact ⟨h.1, h.2, h.3, h.4, h.5, h.6, h.7, h.8, h.9, h.10, h.11⟩

theorem Fifo.step_accept_idle {attempt : Bool} (h : attempt = true → q.pending = [])
    (hop : (∃ addrOk nonblock signalErr, op = .accept addrOk nonblock signalErr) ∨
      ∃ listenSock waitErr signalErr, op = .resume listenSock waitErr signalErr) :
    q.step capacity attempt op = q := by
  rcases hop with ⟨_, _, _, rfl⟩ | ⟨_, _, _, rfl⟩ <;>
  · cases attempt with
    | false => rfl
    | true => simp [Fifo.step, h rfl]

theorem Quiet.request (h : Quiet this capacity s q) (client : Nat) :
    Quiet this capacity (step this s (.request client))
      (q.step capacity false (.request client)) := by
  have hsame : ∀ a, a ≠ this → (step this s (.request client)).sockets a = s.sockets a :=
    fun a ha => by simp [step, ha]
  have hthis : (step this s (.request client)).sockets this =
      (socketAddToPeerBacklog client (s.sockets this)).2 := by simp [step]
  by_cases hfull : q.pending.length = capacity
  · have hs : step this s (.request client) = s := by
      have hid : (socketAddToPeerBacklog client (s.sockets this)).2 = s.sockets this := by
        rw [socketAddToPeerBacklog, if_pos (by rw [h.size, hfull, h.backlog_capacity])]
      simp only [step, State.modify, hid, Function.update_eq_self]
    rw [hs, Fifo.step, if_pos hfull]
    exact h
  · have hne : (s.sockets this).backlogSize ≠ (s.sockets this).backlogCapacity := by
      rw [h.size, h.backlog_capacity]
      exact hfull
    have hbound := h.bounded
    have hroom : (s.sockets this).backlogSize < (s.sockets this).backlog.length := by
      rw [h.size, h.backlog_length]
      omega
    have hkeep : ∀ a, ((step this s (.request client)).sockets a).state = (s.sockets a).state ∧
        ((step this s (.request client)).sockets a).peer = (s.sockets a).peer := by
      intro a
      by_cases ha : a = this
      · subst ha
        rw [hthis, socketAddToPeerBacklog, if_neg hne]
        exact ⟨rfl, rfl⟩
      · rw [hsame a ha]
        exact ⟨rfl, rfl⟩
    rw [Fifo.step, if_neg hfull]
    refine ⟨?_, ?_, ?_, ?_, ?_, ?_, h.none_accepted, h.none_withdrawn, h.allocated, ?_, ?_⟩
    · rw [hthis, socketAddToPeerBacklog, if_neg hne, List.length_set, h.backlog_length]
    · rw [hthis, socketAddToPeerBacklog, if_neg hne, h.backlog_capacity]
    · rw [hthis, socketAddToPeerBacklog, if_neg hne, h.size, List.length_append]
      rfl
    · rw [List.length_append, List.length_singleton]
      omega
    · rw [hthis, socketAddToPeerBacklog_inUse hroom hne, h.contents, List.map_append]
      rfl
    · rw [h.arrived]
    · intro a ha
      rw [(hkeep a).1]
      exact h.fresh a ha
    · intro a ha
      rw [(hkeep a).1] at ha
      obtain ⟨b, hpeer, hb, hback⟩ := h.peers a ha
      exact ⟨b, by rw [(hkeep a).2, hpeer], by rw [(hkeep b).1, hb], by rw [(hkeep b).2, hback]⟩

/-- As long as no entry is taken out, the backlog stays the queue of all arrivals. -/
theorem Quiet.step (h : Quiet this capacity s q) (hkeep : ¬ TakesEntry this s op) :
    Quiet this capacity (step this s op) (q.step capacity (attempts this s op) op) := by
  have hidle : attempts this s op = true → (s.sockets this).backlogSize ≠ 0 →
      (∀ c, op ≠ .withdraw c) → False := by
    intro hattempt hsize hop
    refine hkeep ?_
    cases op with
    | withdraw c => exact absurd rfl (hop c)
    | request _ => exact ⟨hattempt, hsize⟩
    | accept _ _ _ => exact ⟨hattempt, hsize⟩
    | resume _ _ _ => exact ⟨hattempt, hsize⟩
  have hempty : attempts this s op = true → (∀ c, op ≠ .withdraw c) →
      (s.sockets this).backlogSize = 0 ∧ q.pending = [] := by
    intro hattempt hop
    have hzero : (s.sockets this).backlogSize = 0 := by
      by_contra hne
      exact hidle hattempt hne hop
    exact ⟨hzero, List.length_eq_zero_iff.mp (h.size ▸ hzero)⟩
  cases op with
  | request client => exact h.request client
  | withdraw client =>
      have hmem : some client ∉ (s.sockets this).inUse := hkeep
      have hs : Sockets.step this s (.withdraw client) = s := by
        simp only [Sockets.step, State.modify, socketBacklogRemove_of_not_mem hmem,
          Function.update_eq_self]
      have hq : client ∉ q.pending := by
        rw [h.contents] at hmem
        exact fun hc => hmem (List.mem_map_of_mem hc)
      rw [hs, Fifo.step, if_neg hq]
      exact h
  | accept addrOk nonblock signalErr =>
      rw [Fifo.step_accept_idle (fun ha => (hempty ha (by simp)).2) (Or.inl ⟨_, _, _, rfl⟩)]
      simp only [Sockets.step, unixSocketAccept]
      cases addrOk with
      | false => exact h
      | true =>
          by_cases hstate : (s.sockets this).state = .listening
          · have hzero := (hempty (by simp [attempts, hstate]) (by simp)).1
            simp only [hstate, Bool.not_true, Bool.false_eq_true, if_false, ne_eq, not_true]
            refine Quiet.acceptLocked h.create ?_ _ _ _
            rw [h.create.size, ← h.size, hzero]
          · simp only [hstate, Bool.not_true, Bool.false_eq_true, if_false, ne_eq, not_false_eq_true,
              if_true]
            exact h
  | resume listenSock waitErr signalErr =>
      rw [Fifo.step_accept_idle (fun ha => (hempty ha (by simp)).2) (Or.inr ⟨_, _, _, rfl⟩)]
      by_cases hwaiting : listenSock ∈ s.waiting
      · have hdone : Quiet this capacity {s with waiting := s.waiting.erase listenSock} q :=
          ⟨h.1, h.2, h.3, h.4, h.5, h.6, h.7, h.8, h.9, h.10, h.11⟩
        simp only [Sockets.step, hwaiting, if_true, resumeAccept]
        cases waitErr with
        | true => exact hdone
        | false =>
            have hzero := (hempty (by simp [attempts, hwaiting]) (by simp)).1
            exact hdone.acceptLocked hzero _ _ _
      · simp only [Sockets.step, hwaiting, if_false]
        exact h

theorem quiet_run (hq : Quiet this capacity s q) {ops : List Op}
    (hkeep : ∀ pre op, pre ++ [op] <+: ops →
      ¬ TakesEntry this (runBoth this capacity (s, q) pre).1 op) :
    Quiet this capacity (runBoth this capacity (s, q) ops).1
      (runBoth this capacity (s, q) ops).2 := by
  induction ops generalizing s q with
  | nil => exact hq
  | cons op ops ih =>
      have hfirst : ¬ TakesEntry this s op := hkeep [] op (by simp)
      refine ih (hq.step hfirst) fun pre op' hpre => ?_
      exact hkeep (op :: pre) op' (by simpa using hpre)

/-- Rewriting a socket without touching its backlog size. -/
theorem modify_backlogSize (s : State) (a b : Nat) {f : Socket → Socket}
    (hf : (f (s.sockets a)).backlogSize = (s.sockets a).backlogSize) :
    ((s.modify a f).sockets b).backlogSize = (s.sockets b).backlogSize := by
  by_cases hba : b = a
  · subst hba
    rw [modify_sockets_same, hf]
  · rw [modify_sockets_of_ne s f hba]

theorem acceptLocked_backlogSize (listenSock : Nat) (nonblock signalErr : Bool) (s : State) :
    ((acceptLocked this listenSock nonblock signalErr s).2.sockets this).backlogSize =
      (s.sockets this).backlogSize := by
  have hpop := socketPopFromBacklog_backlogSize (s.sockets this)
  unfold acceptLocked
  split
  · split <;> rfl
  · split
    · rename_i heq
      rw [heq] at hpop
      simp only at hpop ⊢
      rw [modify_backlogSize _ _ _ rfl, modify_backlogSize _ _ _ rfl, modify_backlogSize _ _ _ hpop]
    · rfl
    · rfl

/-- Neither removal path adjusts `backlog_size`. -/
theorem step_backlogSize_of_takesEntry (halloc : this < s.nextSocket)
    (htakes : TakesEntry this s op) :
    ((step this s op).sockets this).backlogSize = (s.sockets this).backlogSize := by
  cases op with
  | request client => exact absurd htakes.1 (by simp [attempts])
  | withdraw client =>
      rw [step, modify_backlogSize s this this (socketBacklogRemove_backlogSize _ client)]
  | accept addrOk nonblock signalErr =>
      simp only [step, unixSocketAccept]
      split
      · rfl
      · split
        · rfl
        · rw [acceptLocked_backlogSize,
            unixSocketCreate_sockets_of_ne s (Nat.ne_of_lt halloc)]
  | resume listenSock waitErr signalErr =>
      simp only [step, resumeAccept]
      split
      · split
        · rfl
        · exact acceptLocked_backlogSize _ _ _ _
      · rfl

/-- The queue gets shorter whenever an entry is taken out. -/
theorem Fifo.step_pending_of_takesEntry (capacity : Nat) (h : Agreement this s q)
    (htakes : TakesEntry this s op) :
    (q.step capacity (attempts this s op) op).pending.length + 1 = q.pending.length := by
  have hcons : (s.sockets this).backlogSize ≠ 0 → ∃ c rest, q.pending = c :: rest := by
    intro hsize
    rw [h.size] at hsize
    exact List.exists_cons_of_ne_nil fun hnil => hsize (by rw [hnil]; rfl)
  cases op with
  | request client => exact absurd htakes.1 (by simp [attempts])
  | withdraw client =>
      have hmem : client ∈ q.pending := by
        have hin : some client ∈ (s.sockets this).inUse := htakes
        rw [h.contents] at hin
        obtain ⟨c, hc, hce⟩ := List.mem_map.mp hin
        exact Option.some.inj hce ▸ hc
      have hpos := List.length_pos_of_mem hmem
      rw [Fifo.step, if_pos hmem, List.length_erase_of_mem hmem]
      omega
  | accept addrOk nonblock signalErr =>
      obtain ⟨c, rest, hpending⟩ := hcons htakes.2
      simp [Fifo.step, htakes.1, hpending]
  | resume listenSock waitErr signalErr =>
      obtain ⟨c, rest, hpending⟩ := hcons htakes.2
      simp [Fifo.step, htakes.1, hpending]

theorem acceptLocked_nextSocket (this listenSock : Nat) (nonblock signalErr : Bool) (s : State) :
    (acceptLocked this listenSock nonblock signalErr s).2.nextSocket = s.nextSocket := by
  unfold acceptLocked
  split
  · split <;> rfl
  · split <;> rfl

theorem nextSocket_le_step (s : State) (op : Op) : s.nextSocket ≤ (step this s op).nextSocket := by
  cases op with
  | request _ => exact Nat.le_refl _
  | withdraw _ => exact Nat.le_refl _
  | accept addrOk nonblock signalErr =>
      simp only [step, unixSocketAccept]
      split
      · exact Nat.le_refl _
      · split
        · exact Nat.le_refl _
        · rw [acceptLocked_nextSocket]
          exact Nat.le_succ _
  | resume listenSock waitErr signalErr =>
      simp only [step, resumeAccept]
      split
      · split
        · exact Nat.le_refl _
        · have hnext := acceptLocked_nextSocket this listenSock false signalErr
            {s with waiting := s.waiting.erase listenSock}
          simp only at hnext
          omega
      · exact Nat.le_refl _

theorem nextSocket_le_run (this capacity : Nat) (sq : State × Fifo) (ops : List Op) :
    sq.1.nextSocket ≤ (runBoth this capacity sq ops).1.nextSocket := by
  induction ops generalizing sq with
  | nil => exact Nat.le_refl _
  | cons op ops ih =>
      obtain ⟨s, q⟩ := sq
      exact Nat.le_trans (nextSocket_le_step s op) (ih (step this s op, _))

/-- Along every run on a fresh listener, the backlog is the queue of its pending clients and
connections are mutual in every state exactly if no step ever takes an entry out of the
backlog: both removal paths forget to lower `backlog_size`. -/
theorem backlog_agreement_iff (hinit : Initial this s) (ops : List Op) :
    (∀ pre, pre <+: ops →
      Agreement this (runBoth this (s.sockets this).backlogCapacity (s, Fifo.empty) pre).1
        (runBoth this (s.sockets this).backlogCapacity (s, Fifo.empty) pre).2) ↔
    ∀ pre op, pre ++ [op] <+: ops →
      ¬ TakesEntry this
        (runBoth this (s.sockets this).backlogCapacity (s, Fifo.empty) pre).1 op := by
  constructor
  · intro hagree pre op hpre htakes
    have hbefore := hagree pre ((List.prefix_append pre [op]).trans hpre)
    have hafter := hagree (pre ++ [op]) hpre
    rw [runBoth_append] at hafter
    have halloc := Nat.lt_of_lt_of_le hinit.allocated
      (nextSocket_le_run this (s.sockets this).backlogCapacity (s, Fifo.empty) pre)
    have hsize := hafter.size
    have hstays := step_backlogSize_of_takesEntry halloc htakes
    have hshrinks :=
      Fifo.step_pending_of_takesEntry (s.sockets this).backlogCapacity hbefore htakes
    have hbeforeSize := hbefore.size
    simp only [runBoth] at hsize
    omega
  · intro hkeep pre hpre
    refine (quiet_run hinit.quiet fun pre' op hpre' => ?_).agreement
    exact hkeep pre' op (hpre'.trans hpre)

/-- A listener at address 0 with room for two clients; nothing is connected. -/
def twoSlots : State where
  sockets a := if a = 0 then
    {state := .listening, peer := none, backlog := [none, none], backlogCapacity := 2,
     backlogSize := 0} else socketInit
  nextSocket := 10
  waiting := []
  accepted := []

theorem twoSlots_initial : Initial 0 twoSlots where
  listening := rfl
  backlog_length := rfl
  backlog_empty := rfl
  allocated := by decide
  fresh a ha := by
    have hne : a ≠ 0 := by
      simp only [twoSlots] at ha
      omega
    simp [twoSlots, hne, socketInit]
  no_waiting := rfl
  none_accepted := rfl
  peers a ha := by
    simp only [twoSlots] at ha
    split at ha <;> simp [socketInit] at ha

theorem backlog_agreement_iff_two_requests :
    Initial 0 twoSlots ∧
      ∀ pre, pre <+: [Op.request 1, Op.request 2] →
        Agreement 0 (runBoth 0 2 (twoSlots, Fifo.empty) pre).1
          (runBoth 0 2 (twoSlots, Fifo.empty) pre).2 := by
  refine ⟨twoSlots_initial,
    (backlog_agreement_iff twoSlots_initial [.request 1, .request 2]).mpr ?_⟩
  intro pre op hpre htakes
  have hmem : op ∈ [Op.request 1, Op.request 2] := hpre.subset (by simp)
  simp only [List.mem_cons, List.not_mem_nil, or_false] at hmem
  rcases hmem with rfl | rfl <;> exact absurd htakes.1 (by simp [attempts])

/-- One request and one accept leave `backlog_size` at one with nobody pending. -/
theorem accept_leaves_backlog_size :
    Initial 0 twoSlots ∧
      ¬ ∀ pre, pre <+: [Op.request 1, Op.accept true true false] →
        Agreement 0 (runBoth 0 2 (twoSlots, Fifo.empty) pre).1
          (runBoth 0 2 (twoSlots, Fifo.empty) pre).2 := by
  refine ⟨twoSlots_initial, fun hagree => ?_⟩
  have hsize := (hagree _ (List.prefix_refl _)).size
  exact absurd hsize (by decide)

end Runs

end Tellurium.Sockets
