import Tellurium.Lib.Run
import Tellurium.Sockets.Stream

/-!
The life cycle of unix sockets (`kernel/sockets/unix_socket.c`): calls on any number of
sockets, in any order. What the file system, the allocator and the events answer is an input
of the call, also that a call of the file system does not come back. A call that waits ends where it starts to wait. What a connect does after its
wait changes no socket, a woken send or receive repeats its region under the lock, and a
woken accept is a step of its own. Pointers that the source does not check are valid. A fault
is a use of a null pointer.
-/

namespace Tellurium.Sockets

open Tellurium.Lib

def afUnix : Nat := 1
def sktBacklogCapacity : Nat := 100

/-- `sizeof(struct sockaddr_un)`. -/
def sockaddrUnSize : Nat := 112

structure Sockaddr where
  family : Nat
  path : List UInt8
  deriving Repr, DecidableEq

/-- Beside the sockets: the local address of each once it is written, the socket that a file
of the file system holds, and the listener that a waiting accept call is for. -/
structure LifeState extends UnixState where
  localAddr : Nat → Option Sockaddr
  fsData : Nat → Option Nat
  listenerOf : Nat → Option Nat

def LifeState.modifySocket (s : LifeState) (a : Nat) (f : Socket → Socket) : LifeState :=
  {s with toState := s.toState.modify a f}

/-- How creating and opening the file of a bound socket ends. -/
inductive BoundFile where
  | createFail
  | openFail
  | fault
  | opened (node : Nat)
  deriving Repr, DecidableEq

/-- How opening the file of a peer ends. -/
inductive PeerFile where
  | openFail
  | fault
  | notSocket
  | socket (node : Nat)
  deriving Repr, DecidableEq

/-- How `unix_socket_create` ends for an accept call. If it fails, the call goes on with a pointer that
nobody has set, and either finds it null or makes use of it. -/
inductive NewSocket where
  | allocated
  | failed (null : Bool)
  deriving Repr, DecidableEq

/-- The path is part of the address, so the check for an abstract address always passes. -/
def unixSocketBind (this : Nat) (addr : Option Sockaddr) (file : BoundFile) (s : LifeState) :
    IoOutcome × LifeState :=
  match addr with
  | none => (.returned .badParam, s)
  | some addr =>
      if addr.family ≠ afUnix then (.returned .invalidDomain, s)
      else
        match file with
        | .createFail => (.returned .bindFail, s)
        | .openFail => (.returned .vfsFail, s)
        | .fault => (.fault, s)
        | .opened node =>
            let s := s.modifySocket this fun sock => {sock with state := .bounded}
            (.returned .ok, {s with
              localAddr := Function.update s.localAddr this (some addr)
              fsData := Function.update s.fsData node (some this)})

/-- `memory` tells whether there is memory for the backlog. -/
def unixSocketListen (this : Nat) (backlog : Int) (memory : Bool) (s : LifeState) :
    IoOutcome × LifeState :=
  if backlog < 0 then (.returned .backlogCapacityInvalid, s)
  else if (s.sockets this).state ≠ .bounded then (.returned .badState, s)
  else
    let capacity := min backlog.toNat sktBacklogCapacity
    if memory then
      (.returned .ok, s.modifySocket this fun sock =>
        {sock with backlog := List.replicate capacity none, backlogCapacity := capacity,
                   backlogSize := 0, state := .listening})
    else
      (.returned .noMem, s.modifySocket this fun sock =>
        {sock with backlog := [], backlogCapacity := capacity, backlogSize := 0})

/-- The region under the peer's lock. -/
def connectLocked (this peer : Nat) (signalErr : Bool) (s : LifeState) : IoOutcome × LifeState :=
  if (s.sockets peer).state ≠ .listening then (.returned .badParam, s)
  else
    match socketAddToPeerBacklog this (s.sockets peer) with
    | (.ok, added) =>
        let s := s.modifySocket peer fun _ => added
        if signalErr then
          (.returned .badEvent, s.modifySocket peer fun sock => (socketBacklogRemove sock this).2)
        else (.blocked, s)
    | (err, _) => (.returned err, s)

def unixSocketConnect (this addrlen : Nat) (addr : Sockaddr) (file : PeerFile) (signalErr : Bool)
    (s : LifeState) : IoOutcome × LifeState :=
  if addrlen > sockaddrUnSize then (.returned .badParam, s)
  else if addr.family ≠ afUnix then (.returned .invalidDomain, s)
  else if (s.sockets this).state ≠ .created then (.returned .badParam, s)
  else
    match file with
    | .openFail => (.returned .vfsFail, s)
    | .fault => (.fault, s)
    | .notSocket => (.returned .badParam, s)
    | .socket node =>
        match s.fsData node with
        | none => (.fault, s)
        | some peer => connectLocked this peer signalErr s

def AcceptOutcome.toIo : AcceptOutcome → IoOutcome
  | .returned code => .returned code
  | .blocked => .blocked
  | .fault => .fault

/-- An accept call together with the allocation that it makes. -/
def unixSocketAcceptNew (this : Nat) (addrOk : Bool) (newSocket : NewSocket)
    (nonblock signalErr : Bool) (s : LifeState) : IoOutcome × LifeState :=
  match newSocket with
  | .allocated =>
      let r := unixSocketAccept this addrOk nonblock signalErr s.toState
      (r.1.toIo, {s with
        toState := r.2
        listenerOf := Function.update s.listenerOf s.nextSocket (some this)})
  | .failed null =>
      if !addrOk then (.returned .badParam, s)
      else if (s.sockets this).state ≠ .listening then (.returned .badState, s)
      else if null then (.returned .noMem, s)
      else (.fault, s)

/-- A call on the socket `this`, with its arguments and the answers it gets. -/
inductive SocketCall where
  | create (memory : Bool)
  | bind (this : Nat) (addr : Option Sockaddr) (file : BoundFile)
  | listen (this : Nat) (backlog : Int) (memory : Bool)
  | connect (this addrlen : Nat) (addr : Sockaddr) (file : PeerFile) (signalErr : Bool)
  | accept (this : Nat) (addrOk : Bool) (newSocket : NewSocket) (nonblock signalErr : Bool)
  | resume (this listenSock : Nat) (waitErr signalErr : Bool)
  | send (this : Nat) (argsOk : Bool) (buff : List UInt8) (flags : Int) (nonblock : Bool)
  | recv (this : Nat) (argsOk : Bool) (len : Nat) (flags : Int) (nonblock : Bool)
  deriving Repr, DecidableEq

def SocketCall.perform (s : LifeState) : SocketCall → IoOutcome × LifeState
  | .create memory =>
      if memory then (.returned .ok, {s with toState := (unixSocketCreate s.toState).2})
      else (.returned .noMem, s)
  | .bind this addr file => unixSocketBind this addr file s
  | .listen this backlog memory => unixSocketListen this backlog memory s
  | .connect this addrlen addr file signalErr =>
      unixSocketConnect this addrlen addr file signalErr s
  | .accept this addrOk newSocket nonblock signalErr =>
      unixSocketAcceptNew this addrOk newSocket nonblock signalErr s
  | .resume this listenSock waitErr signalErr =>
      let r := resumeAccept this listenSock waitErr signalErr s.toState
      (r.1.toIo, {s with toState := r.2})
  | .send this argsOk buff flags nonblock =>
      let r := unixSocketSend this argsOk buff flags nonblock s.toUnixState
      (r.1, {s with toUnixState := r.2.2})
  | .recv this argsOk len flags nonblock =>
      let r := unixSocketRecv this argsOk len flags nonblock s.toUnixState
      (r.1, {s with toUnixState := r.2.2})

/-- A call is made on an existing socket, and not on the new socket of an accept call that
still waits: nobody else knows that one. -/
def SocketCall.possible (s : LifeState) : SocketCall → Prop
  | .create _ => True
  | .bind this _ _ => this < s.nextSocket ∧ this ∉ s.waiting
  | .listen this _ _ => this < s.nextSocket ∧ this ∉ s.waiting
  | .connect this _ _ _ _ => this < s.nextSocket ∧ this ∉ s.waiting
  | .accept this _ _ _ _ => this < s.nextSocket ∧ this ∉ s.waiting
  | .resume this listenSock _ _ => listenSock ∈ s.waiting ∧ s.listenerOf listenSock = some this
  | .send this _ _ _ _ => this < s.nextSocket ∧ this ∉ s.waiting
  | .recv this _ _ _ _ => this < s.nextSocket ∧ this ∉ s.waiting

instance SocketCall.decidablePossible (s : LifeState) :
    (call : SocketCall) → Decidable (call.possible s)
  | .create _ => instDecidableTrue
  | .bind _ _ _ => instDecidableAnd
  | .listen _ _ _ => instDecidableAnd
  | .connect _ _ _ _ _ => instDecidableAnd
  | .accept _ _ _ _ _ => instDecidableAnd
  | .resume _ _ _ _ => instDecidableAnd
  | .send _ _ _ _ _ => instDecidableAnd
  | .recv _ _ _ _ _ => instDecidableAnd

def lifeStep (s : LifeState) (call : SocketCall) : LifeState :=
  if call.possible s then (call.perform s).2 else s

/-- The states in which a call is legal. -/
def SocketCall.legal (s : LifeState) : SocketCall → Prop
  | .create _ => True
  | .bind this _ _ => (s.sockets this).state = .created
  | .listen this _ _ => (s.sockets this).state = .bounded
  | .connect this _ _ _ _ => (s.sockets this).state = .created
  | .accept this _ _ _ _ => (s.sockets this).state = .listening
  | .resume _ _ _ _ => True
  | .send this _ _ _ _ => (s.sockets this).state = .connected
  | .recv this _ _ _ _ => (s.sockets this).state = .connected

/-- The moves of the life cycle. -/
inductive Moves : SocketState → SocketState → Prop where
  | stay (state : SocketState) : Moves state state
  | bind : Moves .created .bounded
  | listen : Moves .bounded .listening
  | connect : Moves .created .connected

/-- Existing sockets move along the life cycle, and an illegal call returns an error and
changes neither a socket nor a local address. -/
structure LifecycleStep (s : LifeState) (call : SocketCall) : Prop where
  moves : ∀ a, a < s.nextSocket → Moves (s.sockets a).state ((call.perform s).2.sockets a).state
  illegal : ¬ call.legal s →
    (∃ code, code ≠ .ok ∧ (call.perform s).1 = .returned code) ∧
      (call.perform s).2.sockets = s.sockets ∧ (call.perform s).2.localAddr = s.localAddr

/-- The client that an accept on `this` takes off the backlog. -/
def nextClient (s : State) (this : Nat) : Option Nat :=
  if (s.sockets this).backlogSize = 0 then none else (s.sockets this).backlog.getD 0 none

/-- A bind that gets through, or does not come back from the file system, is on a created socket, an
accept takes a client that is created or connected, and a send is on a connected socket. -/
def InOrder (s : LifeState) : SocketCall → Prop
  | .bind this addr file =>
      (∃ path, addr = some ⟨afUnix, path⟩) → (file = .fault ∨ ∃ node, file = .opened node) →
        (s.sockets this).state = .created
  | .accept this addrOk newSocket _ _ =>
      addrOk = true → (s.sockets this).state = .listening → newSocket = .allocated →
        ∀ client, nextClient s.toState this = some client →
          (s.sockets client).state = .created ∨ (s.sockets client).state = .connected
  | .resume this _ waitErr _ =>
      waitErr = false →
        ∀ client, nextClient s.toState this = some client →
          (s.sockets client).state = .created ∨ (s.sockets client).state = .connected
  | .send this argsOk _ flags _ =>
      argsOk = true → flags = 0 → (s.sockets this).state = .connected
  | _ => True

/-- What holds of the sockets along a run. -/
structure LifeInv (s : State) : Prop where
  waiting_created : ∀ w ∈ s.waiting, (s.sockets w).state = .created ∧ w < s.nextSocket
  waiting_nodup : s.waiting.Nodup
  backlog : ∀ a c, some c ∈ (s.sockets a).backlog → c < s.nextSocket ∧ c ∉ s.waiting
  peer : ∀ a, (s.sockets a).peer ≠ none → (s.sockets a).state = .connected

section Invariant

variable {s : State} {this listenSock client : Nat} {nonblock signalErr waitErr : Bool}

theorem mem_shiftBacklog {backlog : List (Option Nat)} {i size : Nat} {x : Option Nat}
    (h : x ∈ shiftBacklog backlog i size) : x ∈ backlog ∨ x = none := by
  unfold shiftBacklog at h
  generalize List.range' i (size - 1 - i) = visits at h
  induction visits generalizing backlog with
  | nil => exact .inl h
  | cons j visits ih =>
      rcases ih h with hset | hnone
      · rcases List.mem_or_eq_of_mem_set hset with hold | rfl
        · exact .inl hold
        · rw [List.getD_eq_getElem?_getD]
          cases hget : backlog[j + 1]? with
          | none => exact .inr rfl
          | some y => exact .inl (List.mem_of_getElem? hget)
      · exact .inr hnone

/-- A socket whose state, peer and backlog entries are replaced in an allowed way. -/
theorem LifeInv.modify (h : LifeInv s) (this : Nat) {f : Socket → Socket}
    (hstate : this ∈ s.waiting → (f (s.sockets this)).state = .created)
    (hbacklog : ∀ c, some c ∈ (f (s.sockets this)).backlog → c < s.nextSocket ∧ c ∉ s.waiting)
    (hpeer : (f (s.sockets this)).peer ≠ none → (f (s.sockets this)).state = .connected) :
    LifeInv (s.modify this f) := by
  have hcases : ∀ a, (a = this ∧ (s.modify this f).sockets a = f (s.sockets this)) ∨
      (s.modify this f).sockets a = s.sockets a := by
    intro a
    by_cases ha : a = this
    · exact .inl ⟨ha, by rw [ha, modify_sockets_same]⟩
    · exact .inr (modify_sockets_of_ne s f ha)
  refine ⟨fun w hw => ⟨?_, (h.waiting_created w hw).2⟩, h.waiting_nodup, fun a c hc => ?_,
    fun a ha => ?_⟩
  · obtain ⟨rfl, heq⟩ | heq := hcases w
    · rw [heq]
      exact hstate hw
    · rw [heq]
      exact (h.waiting_created w hw).1
  · obtain ⟨rfl, heq⟩ | heq := hcases a
    · rw [heq] at hc
      exact hbacklog c hc
    · rw [heq] at hc
      exact h.backlog a c hc
  · obtain ⟨rfl, heq⟩ | heq := hcases a
    · rw [heq] at ha ⊢
      exact hpeer ha
    · rw [heq] at ha ⊢
      exact h.peer a ha

/-- The new socket of an accept call, which is in nobody else's hands. -/
structure Private (s : State) (listenSock : Nat) : Prop where
  created : (s.sockets listenSock).state = .created
  allocated : listenSock < s.nextSocket
  not_waiting : listenSock ∉ s.waiting
  not_pending : ∀ a, some listenSock ∉ (s.sockets a).backlog

theorem LifeInv.create (h : LifeInv s) :
    LifeInv (unixSocketCreate s).2 ∧ Private (unixSocketCreate s).2 s.nextSocket := by
  have hold : ∀ a, a ≠ s.nextSocket → (unixSocketCreate s).2.sockets a = s.sockets a :=
    fun a ha => unixSocketCreate_sockets_of_ne s ha
  have hnew : (unixSocketCreate s).2.sockets s.nextSocket = socketInit := by
    simp [unixSocketCreate]
  have hwaiting : s.nextSocket ∉ s.waiting :=
    fun hmem => Nat.lt_irrefl _ (h.waiting_created _ hmem).2
  have hbacklog : ∀ a c, some c ∈ ((unixSocketCreate s).2.sockets a).backlog →
      c < s.nextSocket ∧ c ∉ s.waiting := by
    intro a c hc
    by_cases ha : a = s.nextSocket
    · rw [ha, hnew] at hc
      simp [socketInit] at hc
    · rw [hold a ha] at hc
      exact h.backlog a c hc
  refine ⟨⟨fun w hw => ?_, h.waiting_nodup, fun a c hc => ?_, fun a ha => ?_⟩,
    by rw [hnew]; rfl, Nat.lt_succ_self _, hwaiting,
    fun a ha => Nat.lt_irrefl _ (hbacklog a _ ha).1⟩
  · have hne : w ≠ s.nextSocket := fun heq => hwaiting (heq ▸ hw)
    rw [hold w hne]
    exact ⟨(h.waiting_created w hw).1, Nat.lt_succ_of_lt (h.waiting_created w hw).2⟩
  · exact ⟨Nat.lt_succ_of_lt (hbacklog a c hc).1, (hbacklog a c hc).2⟩
  · by_cases hne : a = s.nextSocket
    · rw [hne, hnew] at ha
      exact absurd rfl ha
    · rw [hold a hne] at ha ⊢
      exact h.peer a ha

theorem LifeInv.wake (h : LifeInv s) (hmem : listenSock ∈ s.waiting) :
    LifeInv {s with waiting := s.waiting.erase listenSock} ∧
      Private {s with waiting := s.waiting.erase listenSock} listenSock := by
  refine ⟨⟨fun w hw => h.waiting_created w (List.mem_of_mem_erase hw), h.waiting_nodup.erase _,
    fun a c hc => ⟨(h.backlog a c hc).1, fun hw => (h.backlog a c hc).2 (List.mem_of_mem_erase hw)⟩,
    h.peer⟩, (h.waiting_created _ hmem).1, (h.waiting_created _ hmem).2, ?_, ?_⟩
  · exact h.waiting_nodup.not_mem_erase
  · exact fun a ha => (h.backlog a _ ha).2 hmem

/-- Without a client to take, a round under the lock changes no socket. -/
theorem acceptLocked_none (listenSock : Nat) (nonblock signalErr : Bool)
    (hnone : nextClient s this = none) :
    ∃ outcome waiting, acceptLocked this listenSock nonblock signalErr s =
      (outcome, {s with waiting}) ∧ (waiting = s.waiting ∨ waiting = listenSock :: s.waiting) := by
  unfold acceptLocked
  split
  · cases nonblock with
    | true => exact ⟨_, s.waiting, rfl, .inl rfl⟩
    | false => exact ⟨_, _, rfl, .inr rfl⟩
  · rename_i hsize
    rw [nextClient, if_neg hsize] at hnone
    rw [socketPopFromBacklog, if_neg hsize, hnone]
    exact ⟨_, s.waiting, rfl, .inl rfl⟩

/-- The sockets after a client has been taken. -/
def connectBoth (s : State) (this listenSock client : Nat) : State :=
  ((s.modify this fun sock =>
      {sock with backlog := shiftBacklog sock.backlog 0 sock.backlogSize}).modify listenSock
    fun sock => {sock with peer := some client, state := .connected}).modify client
    fun sock => {sock with peer := some listenSock, state := .connected}

theorem acceptLocked_some (hclient : nextClient s this = some client) :
    acceptLocked this listenSock nonblock signalErr s =
      (.returned (if signalErr then .badEvent else .ok),
        {connectBoth s this listenSock client with accepted := s.accepted ++ [client]}) := by
  unfold nextClient at hclient
  split at hclient
  · cases hclient
  · rename_i hsize
    rw [acceptLocked, if_neg hsize, socketPopFromBacklog, if_neg hsize, hclient]
    rfl

theorem modify_state (s : State) (a b : Nat) (f : Socket → Socket) :
    ((s.modify a f).sockets b).state =
      if b = a then (f (s.sockets a)).state else (s.sockets b).state := by
  split
  · rename_i heq
    rw [heq, modify_sockets_same]
  · rename_i hne
    rw [modify_sockets_of_ne s f hne]

theorem connectBoth_state (s : State) (this listenSock client a : Nat) :
    ((connectBoth s this listenSock client).sockets a).state =
      if a = client ∨ a = listenSock then .connected else (s.sockets a).state := by
  rw [connectBoth, modify_state, modify_state, modify_state]
  grind

theorem nextClient_mem (hclient : nextClient s this = some client) :
    some client ∈ (s.sockets this).backlog := by
  unfold nextClient at hclient
  split at hclient
  · cases hclient
  · rw [List.getD_eq_getElem?_getD] at hclient
    cases hget : (s.sockets this).backlog[0]? with
    | none => simp [hget] at hclient
    | some x =>
        rw [hget, Option.getD_some] at hclient
        exact List.mem_of_getElem? (hclient ▸ hget)

theorem LifeInv.connectBoth (h : LifeInv s) (hprivate : Private s listenSock)
    (hclient : nextClient s this = some client) : LifeInv (connectBoth s this listenSock client) := by
  have hc := h.backlog this client (nextClient_mem hclient)
  have hshift : ∀ c, some c ∈ shiftBacklog (s.sockets this).backlog 0 (s.sockets this).backlogSize →
      c < s.nextSocket ∧ c ∉ s.waiting := by
    intro c hmem
    rcases mem_shiftBacklog hmem with hold | hnone
    · exact h.backlog this c hold
    · cases hnone
  have h₁ := h.modify this
    (f := fun sock => {sock with backlog := shiftBacklog sock.backlog 0 sock.backlogSize})
    (fun hw => (h.waiting_created this hw).1) hshift (h.peer this)
  have h₂ := h₁.modify listenSock
    (f := fun sock => {sock with peer := some client, state := .connected})
    (fun hw => absurd hw hprivate.not_waiting) (h₁.backlog listenSock) (fun _ => rfl)
  exact h₂.modify client
    (f := fun sock => {sock with peer := some listenSock, state := .connected})
    (fun hw => absurd hw hc.2) (h₂.backlog client) (fun _ => rfl)

theorem LifeInv.acceptLocked (h : LifeInv s) (hprivate : Private s listenSock) :
    LifeInv (acceptLocked this listenSock nonblock signalErr s).2 := by
  cases hclient : nextClient s this with
  | none =>
      obtain ⟨outcome, waiting, heq, hwaiting⟩ := acceptLocked_none listenSock nonblock
        signalErr hclient
      rw [heq]
      rcases hwaiting with rfl | rfl
      · exact ⟨h.1, h.2, h.3, h.4⟩
      · refine ⟨fun w hw => ?_, List.nodup_cons.mpr ⟨hprivate.not_waiting, h.waiting_nodup⟩,
          fun a c hc => ⟨(h.backlog a c hc).1, fun hw => ?_⟩, h.peer⟩
        · rcases List.mem_cons.mp hw with rfl | hold
          · exact ⟨hprivate.created, hprivate.allocated⟩
          · exact h.waiting_created w hold
        · rcases List.mem_cons.mp hw with rfl | hold
          · exact hprivate.not_pending a hc
          · exact (h.backlog a c hc).2 hold
  | some client =>
      rw [acceptLocked_some hclient]
      have hboth := h.connectBoth hprivate hclient
      exact ⟨hboth.1, hboth.2, hboth.3, hboth.4⟩

theorem moves_connected_iff {state : SocketState} :
    Moves state .connected ↔ state = .created ∨ state = .connected := by
  constructor
  · rintro ⟨⟩
    · exact .inr rfl
    · exact .inl rfl
  · rintro (rfl | rfl)
    · exact .connect
    · exact .stay _

theorem acceptLocked_moves_iff {count : Nat} (nonblock signalErr : Bool) (hprivate : Private s listenSock)
    (hcount : ∀ client, nextClient s this = some client → client < count) :
    (∀ a, a < count → Moves (s.sockets a).state
      ((acceptLocked this listenSock nonblock signalErr s).2.sockets a).state) ↔
    ∀ client, nextClient s this = some client →
      (s.sockets client).state = .created ∨ (s.sockets client).state = .connected := by
  cases hclient : nextClient s this with
  | none =>
      obtain ⟨outcome, waiting, heq, -⟩ := acceptLocked_none listenSock nonblock signalErr hclient
      rw [heq]
      exact ⟨fun _ _ h => absurd h (by simp), fun _ a _ => Moves.stay _⟩
  | some client =>
      simp only [acceptLocked_some hclient, connectBoth_state, Option.some.injEq]
      constructor
      · rintro h _ rfl
        have hmove := h client (hcount client hclient)
        rw [if_pos (.inl rfl)] at hmove
        exact moves_connected_iff.mp hmove
      · intro h a _
        split
        · rename_i hend
          obtain rfl | rfl := hend
          · exact moves_connected_iff.mpr (h a rfl)
          · exact moves_connected_iff.mpr (.inl hprivate.created)
        · exact .stay _

/-- A socket of which at most the backlog changes, where at most `new` is added. -/
structure OnlyBacklog (sock sock' : Socket) (new : Nat) : Prop where
  state : sock'.state = sock.state
  peer : sock'.peer = sock.peer
  backlog : ∀ c, some c ∈ sock'.backlog → c = new ∨ some c ∈ sock.backlog

theorem OnlyBacklog.refl (sock : Socket) (new : Nat) : OnlyBacklog sock sock new :=
  ⟨rfl, rfl, fun _ h => .inr h⟩

theorem OnlyBacklog.trans {a b c : Socket} {new : Nat} (h : OnlyBacklog a b new)
    (h' : OnlyBacklog b c new) : OnlyBacklog a c new := by
  refine ⟨h'.state.trans h.state, h'.peer.trans h.peer, fun x hx => ?_⟩
  rcases h'.backlog x hx with hnew | hold
  · exact .inl hnew
  · exact h.backlog x hold

theorem socketAddToPeerBacklog_only (this : Nat) (peer : Socket) :
    OnlyBacklog peer (socketAddToPeerBacklog this peer).2 this := by
  unfold socketAddToPeerBacklog
  split
  · exact .refl _ _
  · refine ⟨rfl, rfl, fun c hc => ?_⟩
    rcases List.mem_or_eq_of_mem_set hc with hold | hnew
    · exact .inr hold
    · exact .inl (Option.some.inj hnew)

theorem socketBacklogRemove_only (remove : Nat) (sock : Socket) :
    OnlyBacklog sock (socketBacklogRemove sock remove).2 remove := by
  unfold socketBacklogRemove
  split
  · exact .refl _ _
  · split
    · exact .refl _ _
    · refine ⟨rfl, rfl, fun c hc => ?_⟩
      rcases mem_shiftBacklog hc with hold | hnone
      · exact .inr hold
      · cases hnone

/-- A step that changes backlogs only. -/
structure OnlyBacklogs (s t : State) (new : Nat) : Prop where
  nextSocket : t.nextSocket = s.nextSocket
  waiting : t.waiting = s.waiting
  sockets : ∀ a, OnlyBacklog (s.sockets a) (t.sockets a) new

theorem OnlyBacklogs.refl (s : State) (new : Nat) : OnlyBacklogs s s new :=
  ⟨rfl, rfl, fun _ => .refl _ _⟩

theorem OnlyBacklogs.modify {t : State} {new : Nat} (h : OnlyBacklogs s t new) (a : Nat)
    {f : Socket → Socket} (hf : OnlyBacklog (t.sockets a) (f (t.sockets a)) new) :
    OnlyBacklogs s (t.modify a f) new := by
  refine ⟨h.nextSocket, h.waiting, fun b => ?_⟩
  by_cases hb : b = a
  · rw [hb, modify_sockets_same]
    exact (h.sockets a).trans hf
  · rw [modify_sockets_of_ne t f hb]
    exact h.sockets b

theorem LifeInv.backlogs {t : State} {new : Nat} (h : LifeInv s) (hq : OnlyBacklogs s t new)
    (hnew : new < s.nextSocket ∧ new ∉ s.waiting) : LifeInv t := by
  refine ⟨fun w hw => ?_, hq.waiting ▸ h.waiting_nodup, fun a c hc => ?_, fun a ha => ?_⟩
  · rw [hq.waiting] at hw
    rw [(hq.sockets w).state, hq.nextSocket]
    exact h.waiting_created w hw
  · rw [hq.nextSocket, hq.waiting]
    rcases (hq.sockets a).backlog c hc with rfl | hold
    · exact hnew
    · exact h.backlog a c hold
  · rw [(hq.sockets a).peer] at ha
    rw [(hq.sockets a).state]
    exact h.peer a ha

end Invariant

section Calls

variable {s : LifeState} {this : Nat} {call : SocketCall}

theorem connectLocked_only (peer : Nat) (signalErr : Bool) (s : LifeState) :
    OnlyBacklogs s.toState (connectLocked this peer signalErr s).2.toState this := by
  unfold connectLocked
  split
  · exact .refl _ _
  · have hadded : OnlyBacklogs s.toState
        (s.toState.modify peer fun _ => (socketAddToPeerBacklog this (s.sockets peer)).2) this :=
      (OnlyBacklogs.refl s.toState this).modify peer (socketAddToPeerBacklog_only this _)
    split
    · rename_i added heq
      rw [heq] at hadded
      cases signalErr with
      | true =>
          exact hadded.modify peer (f := fun sock => (socketBacklogRemove sock this).2)
            (socketBacklogRemove_only this _)
      | false => exact hadded
    · exact .refl _ _

theorem unixSocketConnect_only (addrlen : Nat) (addr : Sockaddr) (file : PeerFile)
    (signalErr : Bool) (s : LifeState) :
    OnlyBacklogs s.toState (unixSocketConnect this addrlen addr file signalErr s).2.toState this := by
  unfold unixSocketConnect
  split
  · exact .refl _ _
  · split
    · exact .refl _ _
    · split
      · exact .refl _ _
      · split
        · exact .refl _ _
        · exact .refl _ _
        · exact .refl _ _
        · split
          · exact .refl _ _
          · exact connectLocked_only ..

theorem sendLocked_sockets (peer : Nat) (buff : List UInt8) (nonblock : Bool) (s : UnixState) :
    (sendLocked peer buff nonblock s).2.2.toState = s.toState := by
  unfold sendLocked
  split
  · rfl
  · split
    · split <;> rfl
    · rfl

theorem unixSocketSend_sockets (this : Nat) (argsOk : Bool) (buff : List UInt8) (flags : Int) (nonblock : Bool)
    (s : UnixState) : (unixSocketSend this argsOk buff flags nonblock s).2.2.toState = s.toState := by
  unfold unixSocketSend
  split
  · rfl
  · split
    · rfl
    · split
      · rfl
      · exact sendLocked_sockets ..

theorem unixSocketRecv_sockets (this : Nat) (argsOk : Bool) (len : Nat) (flags : Int) (nonblock : Bool)
    (s : UnixState) : (unixSocketRecv this argsOk len flags nonblock s).2.2.toState = s.toState := by
  unfold unixSocketRecv
  split
  · rfl
  · split
    · rfl
    · unfold recvLocked
      split
      · rfl
      · split
        · split <;> rfl
        · dsimp only
          split <;> rfl

/-- A call that keeps all sockets and addresses and, if it is illegal, returns an error. -/
theorem LifecycleStep.of_same (hsockets : (call.perform s).2.sockets = s.sockets)
    (haddr : (call.perform s).2.localAddr = s.localAddr)
    (herr : ¬ call.legal s → ∃ code, code ≠ .ok ∧ (call.perform s).1 = .returned code) :
    LifecycleStep s call :=
  ⟨fun a _ => by rw [hsockets]; exact .stay _, fun hillegal => ⟨herr hillegal, hsockets, haddr⟩⟩

/-- A call that only returns an error. -/
theorem LifecycleStep.of_refused {code : SktCode} (hcall : call.perform s = (.returned code, s))
    (hcode : code ≠ .ok) : LifecycleStep s call := by
  apply LifecycleStep.of_same
  · rw [hcall]
  · rw [hcall]
  · exact fun _ => ⟨code, hcode, by rw [hcall]⟩

/-- A legal call is judged by the moves alone. -/
theorem lifecycleStep_legal_iff (hlegal : call.legal s) : LifecycleStep s call ↔
    ∀ a, a < s.nextSocket → Moves (s.sockets a).state ((call.perform s).2.sockets a).state :=
  ⟨LifecycleStep.moves, fun h => ⟨h, fun hillegal => absurd hlegal hillegal⟩⟩

theorem moves_modify {s : State} {f : Socket → Socket}
    (hmove : Moves (s.sockets this).state (f (s.sockets this)).state) (a : Nat) :
    Moves (s.sockets a).state ((s.modify this f).sockets a).state := by
  rw [modify_state]
  split
  · rename_i heq
    rw [heq]
    exact hmove
  · exact .stay _

theorem unixSocketAccept_listening (hlisten : (s.sockets this).state = .listening)
    (nonblock signalErr : Bool) :
    unixSocketAccept this true nonblock signalErr s.toState =
      acceptLocked this s.nextSocket nonblock signalErr (unixSocketCreate s.toState).2 := by
  rw [unixSocketAccept, if_neg (by simp), if_neg (by simp [hlisten])]
  rfl

theorem unixSocketAcceptNew_failed (this : Nat) (addrOk null nonblock signalErr : Bool)
    (s : LifeState) :
    (unixSocketAcceptNew this addrOk (.failed null) nonblock signalErr s).2 = s := by
  simp only [unixSocketAcceptNew]
  split_ifs <;> rfl

theorem nextClient_create {s : State} (hthis : this < s.nextSocket) :
    nextClient (unixSocketCreate s).2 this = nextClient s this := by
  rw [nextClient, nextClient, unixSocketCreate_sockets_of_ne s (Nat.ne_of_lt hthis)]

theorem LifeInv.bind (h : LifeInv s.toState) (addr : Option Sockaddr) (file : BoundFile)
    (hthis : this ∉ s.waiting) (horder : InOrder s (.bind this addr file)) :
    LifeInv (unixSocketBind this addr file s).2.toState := by
  unfold unixSocketBind
  split
  · exact h
  · rename_i addr
    split
    · exact h
    · rename_i hfamily
      split
      · exact h
      · exact h
      · exact h
      · rename_i node
        have hcreated : (s.sockets this).state = .created := by
          refine horder ⟨addr.path, ?_⟩ (.inr ⟨node, rfl⟩)
          rw [← Decidable.not_not.mp hfamily]
        apply h.modify this (f := fun sock => {sock with state := .bounded})
        · exact fun hw => absurd hw hthis
        · exact h.backlog this
        · intro hpeer
          have hconnected := h.peer this hpeer
          rw [hcreated] at hconnected
          cases hconnected

theorem LifeInv.listen (h : LifeInv s.toState) (backlog : Int) (memory : Bool)
    (hthis : this ∉ s.waiting) :
    LifeInv (unixSocketListen this backlog memory s).2.toState := by
  unfold unixSocketListen
  split
  · exact h
  · split
    · exact h
    · rename_i hbounded
      have hnopeer : ¬ (s.sockets this).peer ≠ none := by
        intro hpeer
        have hconnected := h.peer this hpeer
        rw [hconnected] at hbounded
        exact hbounded (by decide)
      cases memory with
      | true =>
          apply h.modify this (f := fun sock => {sock with
            backlog := List.replicate (min backlog.toNat sktBacklogCapacity) none
            backlogCapacity := min backlog.toNat sktBacklogCapacity
            backlogSize := 0
            state := .listening})
          · exact fun hw => absurd hw hthis
          · intro c hc
            cases List.eq_of_mem_replicate hc
          · exact fun hpeer => absurd hpeer hnopeer
      | false =>
          apply h.modify this (f := fun sock => {sock with
            backlog := []
            backlogCapacity := min backlog.toNat sktBacklogCapacity
            backlogSize := 0})
          · exact fun hw => absurd hw hthis
          · intro c hc
            cases hc
          · exact fun hpeer => absurd hpeer hnopeer

theorem LifeInv.accept (h : LifeInv s.toState) (this : Nat) (addrOk : Bool) (newSocket : NewSocket)
    (nonblock signalErr : Bool) :
    LifeInv (unixSocketAcceptNew this addrOk newSocket nonblock signalErr s).2.toState := by
  cases newSocket with
  | allocated =>
      show LifeInv (unixSocketAccept this addrOk nonblock signalErr s.toState).2
      unfold unixSocketAccept
      split
      · exact h
      · split
        · exact h
        · exact h.create.1.acceptLocked h.create.2
  | failed null =>
      rw [unixSocketAcceptNew_failed]
      exact h

theorem LifeInv.perform (h : LifeInv s.toState) (hposs : call.possible s) (horder : InOrder s call) :
    LifeInv (call.perform s).2.toState := by
  cases call with
  | create memory =>
      cases memory with
      | true => exact h.create.1
      | false => exact h
  | bind this addr file => exact h.bind addr file hposs.2 horder
  | listen this backlog memory => exact h.listen backlog memory hposs.2
  | connect this addrlen addr file signalErr =>
      exact h.backlogs (unixSocketConnect_only addrlen addr file signalErr s) hposs
  | accept this addrOk newSocket nonblock signalErr =>
      exact h.accept this addrOk newSocket nonblock signalErr
  | resume this listenSock waitErr signalErr =>
      obtain ⟨hwake, hprivate⟩ := h.wake hposs.1
      show LifeInv (resumeAccept this listenSock waitErr signalErr s.toState).2
      cases waitErr with
      | true => exact hwake
      | false => exact hwake.acceptLocked hprivate
  | send this argsOk buff flags nonblock =>
      show LifeInv (unixSocketSend this argsOk buff flags nonblock s.toUnixState).2.2.toState
      rw [unixSocketSend_sockets]
      exact h
  | recv this argsOk len flags nonblock =>
      show LifeInv (unixSocketRecv this argsOk len flags nonblock s.toUnixState).2.2.toState
      rw [unixSocketRecv_sockets]
      exact h

theorem lifecycleStep_bind_iff (addr : Option Sockaddr) (file : BoundFile) :
    LifecycleStep s (.bind this addr file) ↔ InOrder s (.bind this addr file) := by
  cases addr with
  | none =>
      refine ⟨fun _ h => ?_, fun _ => .of_refused rfl (show SktCode.badParam ≠ .ok by decide)⟩
      obtain ⟨path, hpath⟩ := h
      cases hpath
  | some addr =>
      by_cases hfamily : addr.family = afUnix
      · cases file with
        | opened node =>
            have hcall : (SocketCall.bind this (some addr) (.opened node)).perform s =
                (.returned .ok, {s.modifySocket this (fun sock => {sock with state := .bounded}) with
                  localAddr := Function.update s.localAddr this (some addr)
                  fsData := Function.update s.fsData node (some this)}) := by
              simp only [SocketCall.perform, unixSocketBind, hfamily]
              rfl
            constructor
            · intro h _ _
              by_contra hillegal
              obtain ⟨⟨code, hcode, hreturned⟩, -⟩ := h.illegal hillegal
              rw [hcall] at hreturned
              exact hcode (IoOutcome.returned.inj hreturned).symm
            · intro h
              have hcreated : (s.sockets this).state = .created :=
                h ⟨addr.path, by rw [← hfamily]⟩ (.inr ⟨node, rfl⟩)
              rw [lifecycleStep_legal_iff
                (show (SocketCall.bind this (some addr) (.opened node)).legal s from hcreated)]
              intro a _
              rw [hcall]
              apply moves_modify (f := fun sock => {sock with state := .bounded})
              rw [hcreated]
              exact .bind
        | createFail =>
            have hcall : (SocketCall.bind this (some addr) .createFail).perform s =
                (.returned .bindFail, s) := by simp [SocketCall.perform, unixSocketBind, hfamily]
            refine ⟨fun _ _ h => ?_, fun _ => .of_refused hcall (by decide)⟩
            obtain hnode | ⟨node, hnode⟩ := h <;> cases hnode
        | openFail =>
            have hcall : (SocketCall.bind this (some addr) .openFail).perform s =
                (.returned .vfsFail, s) := by simp [SocketCall.perform, unixSocketBind, hfamily]
            refine ⟨fun _ _ h => ?_, fun _ => .of_refused hcall (by decide)⟩
            obtain hnode | ⟨node, hnode⟩ := h <;> cases hnode
        | fault =>
            have hcall : (SocketCall.bind this (some addr) .fault).perform s = (.fault, s) := by
              simp [SocketCall.perform, unixSocketBind, hfamily]
            constructor
            · intro h _ _
              by_contra hillegal
              obtain ⟨⟨code, -, hreturned⟩, -⟩ := h.illegal hillegal
              rw [hcall] at hreturned
              cases hreturned
            · intro h
              have hcreated : (s.sockets this).state = .created :=
                h ⟨addr.path, by rw [← hfamily]⟩ (.inl rfl)
              apply LifecycleStep.of_same
              · rw [hcall]
              · rw [hcall]
              · exact fun hillegal => absurd hcreated hillegal
      · have hcall : (SocketCall.bind this (some addr) file).perform s =
            (.returned .invalidDomain, s) := by
          simp [SocketCall.perform, unixSocketBind, hfamily]
        refine ⟨fun _ h => ?_, fun _ => .of_refused hcall (by decide)⟩
        obtain ⟨path, hpath⟩ := h
        exact absurd (congrArg Sockaddr.family (Option.some.inj hpath)) hfamily

theorem lifecycleStep_listen (backlog : Int) (memory : Bool) :
    LifecycleStep s (.listen this backlog memory) := by
  by_cases hneg : backlog < 0
  · have hcall : (SocketCall.listen this backlog memory).perform s =
        (.returned .backlogCapacityInvalid, s) := by
      simp [SocketCall.perform, unixSocketListen, hneg]
    exact .of_refused hcall (by decide)
  · by_cases hbounded : (s.sockets this).state = .bounded
    · rw [lifecycleStep_legal_iff
        (show (SocketCall.listen this backlog memory).legal s from hbounded)]
      intro a _
      show Moves _ ((unixSocketListen this backlog memory s).2.sockets a).state
      rw [unixSocketListen, if_neg hneg, if_neg (not_not.mpr hbounded)]
      cases memory with
      | true =>
          apply moves_modify (f := fun sock => {sock with
            backlog := List.replicate (min backlog.toNat sktBacklogCapacity) none
            backlogCapacity := min backlog.toNat sktBacklogCapacity
            backlogSize := 0
            state := .listening})
          rw [hbounded]
          exact .listen
      | false =>
          apply moves_modify (f := fun sock => {sock with
            backlog := []
            backlogCapacity := min backlog.toNat sktBacklogCapacity
            backlogSize := 0})
          exact .stay _
    · have hcall : (SocketCall.listen this backlog memory).perform s = (.returned .badState, s) := by
        simp [SocketCall.perform, unixSocketListen, hneg, hbounded]
      exact .of_refused hcall (by decide)

theorem lifecycleStep_connect (addrlen : Nat) (addr : Sockaddr) (file : PeerFile)
    (signalErr : Bool) : LifecycleStep s (.connect this addrlen addr file signalErr) := by
  by_cases hcreated : (s.sockets this).state = .created
  · rw [lifecycleStep_legal_iff
      (show (SocketCall.connect this addrlen addr file signalErr).legal s from hcreated)]
    intro a _
    show Moves _ ((unixSocketConnect this addrlen addr file signalErr s).2.sockets a).state
    rw [((unixSocketConnect_only addrlen addr file signalErr s).sockets a).state]
    exact .stay _
  · have hcall : ∃ code, code ≠ .ok ∧
        (SocketCall.connect this addrlen addr file signalErr).perform s = (.returned code, s) := by
      simp only [SocketCall.perform, unixSocketConnect, hcreated, ne_eq, not_false_eq_true, if_true]
      split
      · exact ⟨.badParam, by decide, rfl⟩
      · split
        · exact ⟨.invalidDomain, by decide, rfl⟩
        · exact ⟨.badParam, by decide, rfl⟩
    obtain ⟨code, hcode, hcall⟩ := hcall
    exact .of_refused hcall hcode

theorem lifecycleStep_acceptAllocated_iff (h : LifeInv s.toState) (hthis : this < s.nextSocket)
    (addrOk nonblock signalErr : Bool) :
    LifecycleStep s (.accept this addrOk .allocated nonblock signalErr) ↔
      InOrder s (.accept this addrOk .allocated nonblock signalErr) := by
  cases addrOk with
  | false =>
      refine ⟨fun _ hok => absurd hok (by simp), fun _ => ?_⟩
      exact .of_same rfl rfl fun _ => ⟨.badParam, by decide, rfl⟩
  | true =>
      by_cases hlisten : (s.sockets this).state = .listening
      · have hclient := nextClient_create hthis
        have hcount : ∀ client, nextClient (unixSocketCreate s.toState).2 this = some client →
            client < s.nextSocket := by
          rw [hclient]
          exact fun client hc => (h.backlog this client (nextClient_mem hc)).1
        have hold : ∀ a, a < s.nextSocket →
            (unixSocketCreate s.toState).2.sockets a = s.sockets a :=
          fun a ha => unixSocketCreate_sockets_of_ne s.toState (Nat.ne_of_lt ha)
        have hmoves := acceptLocked_moves_iff nonblock signalErr h.create.2 hcount
        rw [← unixSocketAccept_listening hlisten] at hmoves
        rw [lifecycleStep_legal_iff
          (show (SocketCall.accept this true .allocated nonblock signalErr).legal s from hlisten)]
        constructor
        · intro hstep _ _ _ client hc
          have hlt := hcount client (hclient.trans hc)
          rw [← hold client hlt]
          refine hmoves.mp (fun a ha => ?_) client (hclient.trans hc)
          rw [hold a ha]
          exact hstep a ha
        · intro horder a ha
          rw [← hold a ha]
          refine hmoves.mpr (fun client hc => ?_) a ha
          rw [hold client (hcount client hc)]
          exact horder rfl hlisten rfl client (hclient.symm.trans hc)
      · have hcall : unixSocketAccept this true nonblock signalErr s.toState =
            (.returned .badState, s.toState) := by
          rw [unixSocketAccept, if_neg (by simp), if_pos hlisten]
        refine ⟨fun _ _ hstate => absurd hstate hlisten, fun _ => .of_same ?_ rfl fun _ => ?_⟩
        · simp only [SocketCall.perform, unixSocketAcceptNew, hcall]
        · exact ⟨.badState, by decide, by simp only [SocketCall.perform, unixSocketAcceptNew, hcall]; rfl⟩

theorem lifecycleStep_acceptFailed (addrOk null nonblock signalErr : Bool) :
    LifecycleStep s (.accept this addrOk (.failed null) nonblock signalErr) := by
  have hcall : ((SocketCall.accept this addrOk (.failed null) nonblock signalErr).perform s).2 = s :=
    unixSocketAcceptNew_failed this addrOk null nonblock signalErr s
  apply LifecycleStep.of_same
  · rw [hcall]
  · rw [hcall]
  · intro hillegal
    have hlisten : (s.sockets this).state ≠ .listening := hillegal
    cases addrOk with
    | false => exact ⟨.badParam, by decide, rfl⟩
    | true =>
        exact ⟨.badState, by decide, by simp [SocketCall.perform, unixSocketAcceptNew, hlisten]⟩

theorem lifecycleStep_accept_iff (h : LifeInv s.toState) (hthis : this < s.nextSocket)
    (addrOk : Bool) (newSocket : NewSocket) (nonblock signalErr : Bool) :
    LifecycleStep s (.accept this addrOk newSocket nonblock signalErr) ↔
      InOrder s (.accept this addrOk newSocket nonblock signalErr) := by
  cases newSocket with
  | failed null =>
      refine iff_of_true (lifecycleStep_acceptFailed addrOk null nonblock signalErr) ?_
      intro _ _ hfailed
      cases hfailed
  | allocated => exact lifecycleStep_acceptAllocated_iff h hthis addrOk nonblock signalErr

theorem lifecycleStep_resume_iff (h : LifeInv s.toState) {listenSock : Nat}
    (hmem : listenSock ∈ s.waiting) (waitErr signalErr : Bool) :
    LifecycleStep s (.resume this listenSock waitErr signalErr) ↔
      InOrder s (.resume this listenSock waitErr signalErr) := by
  rw [lifecycleStep_legal_iff
    (show (SocketCall.resume this listenSock waitErr signalErr).legal s from trivial)]
  cases waitErr with
  | true => exact ⟨fun _ herr => absurd herr (by simp), fun _ a _ => .stay _⟩
  | false =>
      have hmoves := acceptLocked_moves_iff false signalErr (h.wake hmem).2 fun client hc => (h.backlog this client (nextClient_mem hc)).1
      exact ⟨fun hstep _ => hmoves.mp hstep, fun horder => hmoves.mpr (horder rfl)⟩

theorem lifecycleStep_send_iff (h : LifeInv s.toState) (argsOk : Bool) (buff : List UInt8)
    (flags : Int) (nonblock : Bool) :
    LifecycleStep s (.send this argsOk buff flags nonblock) ↔
      InOrder s (.send this argsOk buff flags nonblock) := by
  have hsame : ((SocketCall.send this argsOk buff flags nonblock).perform s).2.sockets = s.sockets := by
    have hstate := unixSocketSend_sockets this argsOk buff flags nonblock s.toUnixState
    exact congrArg State.sockets hstate
  constructor
  · intro hstep hargs hflags
    by_contra hillegal
    obtain ⟨⟨code, -, hreturned⟩, -⟩ := hstep.illegal hillegal
    have hpeer : (s.sockets this).peer = none := by
      by_contra hpeer
      exact hillegal (h.peer this hpeer)
    simp [SocketCall.perform, unixSocketSend, hargs, hflags, hpeer] at hreturned
  · intro horder
    apply LifecycleStep.of_same hsame rfl
    intro hillegal
    cases argsOk with
    | false => exact ⟨.badParam, by decide, rfl⟩
    | true =>
        have hflags : flags ≠ 0 := fun hzero => hillegal (horder rfl hzero)
        exact ⟨.badOp, by decide, by simp [SocketCall.perform, unixSocketSend, hflags]⟩

theorem lifecycleStep_recv (argsOk : Bool) (len : Nat) (flags : Int) (nonblock : Bool) :
    LifecycleStep s (.recv this argsOk len flags nonblock) := by
  have hsame : ((SocketCall.recv this argsOk len flags nonblock).perform s).2.sockets = s.sockets := by
    have hstate := unixSocketRecv_sockets this argsOk len flags nonblock s.toUnixState
    exact congrArg State.sockets hstate
  apply LifecycleStep.of_same hsame rfl
  intro hillegal
  have hstate : (s.sockets this).state ≠ .connected := hillegal
  cases argsOk with
  | false => exact ⟨.badParam, by decide, rfl⟩
  | true =>
      by_cases hflags : flags = 0
      · exact ⟨.badState, by decide,
          by simp [SocketCall.perform, unixSocketRecv, recvLocked, hflags, hstate]⟩
      · exact ⟨.badOp, by decide, by simp [SocketCall.perform, unixSocketRecv, hflags]⟩

theorem lifecycleStep_iff (h : LifeInv s.toState) (hposs : call.possible s) :
    LifecycleStep s call ↔ InOrder s call := by
  cases call with
  | create memory =>
      rw [lifecycleStep_legal_iff (show (SocketCall.create memory).legal s from trivial)]
      refine ⟨fun _ => trivial, fun _ a ha => ?_⟩
      cases memory with
      | true =>
          show Moves _ ((unixSocketCreate s.toState).2.sockets a).state
          rw [unixSocketCreate_sockets_of_ne s.toState (Nat.ne_of_lt ha)]
          exact .stay _
      | false => exact .stay _
  | bind this addr file => exact lifecycleStep_bind_iff addr file
  | listen this backlog memory => exact iff_of_true (lifecycleStep_listen backlog memory) trivial
  | connect this addrlen addr file signalErr =>
      exact iff_of_true (lifecycleStep_connect addrlen addr file signalErr) trivial
  | accept this addrOk newSocket nonblock signalErr =>
      exact lifecycleStep_accept_iff h hposs.1 addrOk newSocket nonblock signalErr
  | resume this listenSock waitErr signalErr =>
      exact lifecycleStep_resume_iff h hposs.1 waitErr signalErr
  | send this argsOk buff flags nonblock =>
      exact lifecycleStep_send_iff h argsOk buff flags nonblock
  | recv this argsOk len flags nonblock =>
      exact iff_of_true (lifecycleStep_recv argsOk len flags nonblock) trivial

end Calls

/-- Before the first socket is created. -/
def noSockets : LifeState where
  sockets _ := socketInit
  nextSocket := 0
  waiting := []
  accepted := []
  ringbuffers _ := Klib.ringbufferAlloc (fun _ => 0) unixSockBuffSize
  localAddr _ := none
  fsData _ := none
  listenerOf _ := none

theorem lifeInv_noSockets : LifeInv noSockets.toState where
  waiting_created _ hw := absurd hw (by simp [noSockets])
  waiting_nodup := List.nodup_nil
  backlog _ _ hc := absurd hc (by simp [noSockets, socketInit])
  peer _ hpeer := absurd rfl hpeer

/-- In every run, every call follows the life cycle exactly if every bind that gets through, or does not
come back from the file system, is on a created socket, every accept takes a client that is created or connected, and every send
with valid arguments is on a connected socket. -/
theorem socket_lifecycle_iff (calls : List SocketCall) :
    EveryStep lifeStep (fun s call => call.possible s → LifecycleStep s call) noSockets calls ↔
      EveryStep lifeStep (fun s call => call.possible s → InOrder s call) noSockets calls := by
  apply everyStep_iff (fun s => LifeInv s.toState) lifeInv_noSockets
  · intro s call hs
    exact forall_congr' fun hposs => lifecycleStep_iff hs hposs
  · intro s call hs horder
    unfold lifeStep
    split
    · rename_i hposs
      exact hs.perform hposs (horder hposs)
    · exact hs

/-- A second bind takes a listening socket back to the bound state. -/
theorem bind_stops_listening :
    ¬ EveryStep lifeStep (fun s call => call.possible s → LifecycleStep s call) noSockets
      [.create true, .bind 0 (some ⟨afUnix, [0x61]⟩) (.opened 1), .listen 0 10 true,
        .bind 0 (some ⟨afUnix, [0x62]⟩) (.opened 2)] := by
  rintro ⟨-, -, -, hlast, -⟩
  have hmove := (hlast (by decide)).moves 0 (by decide)
  have hbefore : ((lifeStep (lifeStep (lifeStep noSockets (.create true))
      (.bind 0 (some ⟨afUnix, [0x61]⟩) (.opened 1))) (.listen 0 10 true)).sockets 0).state =
      .listening := by decide
  rw [hbefore] at hmove
  cases hmove

end Tellurium.Sockets
