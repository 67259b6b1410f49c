import Tellurium.Klib.Ringbuffer
import Tellurium.Sockets.UnixSocket

/-!
Sending and receiving on connected unix sockets (`kernel/sockets/unix_socket.c`). A socket
receives into its own ring buffer and sends into its peer's. A call works under the lock of
the socket that owns the buffer, so the part up to a return or a wait is one step. The
events signalled to blocked peers change no socket and are left out. The bytes sent and not
yet received form one bounded queue for each direction.
-/

namespace Tellurium.Sockets

open Tellurium.Klib

def unixSockBuffSize : Nat := 0x2000

/-- The sockets with the ring buffer of each. -/
structure UnixState extends State where
  ringbuffers : Nat → Ringbuffer

def UnixState.setRingbuffer (s : UnixState) (a : Nat) (ring : Ringbuffer) : UnixState :=
  {s with ringbuffers := Function.update s.ringbuffers a ring}

/-- How a call leaves the region under the lock. -/
inductive IoOutcome where
  | returned (code : SktCode)
  | blocked
  | fault
  deriving Repr, DecidableEq

/-- The outcome and the bytes copied to the caller's buffer. A null `peer` would be
dereferenced to signal it. -/
def recvLocked (this len : Nat) (nonblock : Bool) (s : UnixState) :
    IoOutcome × List UInt8 × UnixState :=
  if (s.sockets this).state ≠ .connected then (.returned .badState, [], s)
  else if ringbufferSize (s.ringbuffers this) = 0 then
    if nonblock then (.returned .nonblock, [], s) else (.blocked, [], s)
  else
    let read := ringbufferRead (s.ringbuffers this) len
    let s := s.setRingbuffer this read.2
    match (s.sockets this).peer with
    | none => (.fault, read.1, s)
    | some _ => (.returned .ok, read.1, s)

/-- `argsOk` is the check of the pointers. -/
def unixSocketRecv (this : Nat) (argsOk : Bool) (len : Nat) (flags : Int) (nonblock : Bool)
    (s : UnixState) : IoOutcome × List UInt8 × UnixState :=
  if !argsOk then (.returned .badParam, [], s)
  else if flags ≠ 0 then (.returned .badOp, [], s)
  else recvLocked this len nonblock s

/-- The outcome and the number of bytes written. -/
def sendLocked (peer : Nat) (buff : List UInt8) (nonblock : Bool) (s : UnixState) :
    IoOutcome × Nat × UnixState :=
  if (s.sockets peer).state ≠ .connected then (.returned .badState, 0, s)
  else if ringbufferSize (s.ringbuffers peer) = ringbufferCapacity (s.ringbuffers peer) then
    if nonblock then (.returned .nonblock, 0, s) else (.blocked, 0, s)
  else
    let write := ringbufferWrite (s.ringbuffers peer) buff
    (.returned .ok, write.1, s.setRingbuffer peer write.2)

/-- The lock taken is the peer's; the state of `this` is not checked. -/
def unixSocketSend (this : Nat) (argsOk : Bool) (buff : List UInt8) (flags : Int)
    (nonblock : Bool) (s : UnixState) : IoOutcome × Nat × UnixState :=
  if !argsOk then (.returned .badParam, 0, s)
  else if flags ≠ 0 then (.returned .badOp, 0, s)
  else
    match (s.sockets this).peer with
    | none => (.fault, 0, s)
    | some peer => sendLocked peer buff nonblock s

/-- A call with `O_NONBLOCK` and no flags. -/
inductive Call where
  | send (this : Nat) (buff : List UInt8)
  | recv (this : Nat) (len : Nat)
  deriving Repr, DecidableEq

def Call.this : Call → Nat
  | .send this _ => this
  | .recv this _ => this

/-- A call with its outcome and the bytes that it reports as written or returns. -/
structure Report where
  call : Call
  outcome : IoOutcome
  bytes : List UInt8
  deriving Repr, DecidableEq

def perform (s : UnixState) : Call → Report × UnixState
  | .send this buff =>
      let r := unixSocketSend this true buff 0 true s
      (⟨.send this buff, r.1, buff.take r.2.1⟩, r.2.2)
  | .recv this len =>
      let r := unixSocketRecv this true len 0 true s
      (⟨.recv this len, r.1, r.2.1⟩, r.2.2)

def performAll (s : UnixState) : List Call → List Report × UnixState
  | [] => ([], s)
  | call :: calls =>
      let first := perform s call
      let rest := performAll first.2 calls
      (first.1 :: rest.1, rest.2)

/-- The calls that move bytes from `src` to `dest`. -/
def Call.toward (src dest : Nat) : Call → Bool
  | .send this _ => this = src
  | .recv this _ => this = dest

/-- All bytes that sends on `src` reported as written. -/
def written (src : Nat) (reports : List Report) : List UInt8 :=
  reports.flatMap fun r =>
    match r.call with
    | .send this _ => if this = src then r.bytes else []
    | .recv _ _ => []

/-- All bytes that receives on `dest` returned. -/
def received (dest : Nat) (reports : List Report) : List UInt8 :=
  reports.flatMap fun r =>
    match r.call with
    | .send _ _ => []
    | .recv this _ => if this = dest then r.bytes else []

/-- How many bytes are on their way from `src` to `dest`. -/
def inFlight (src dest : Nat) (reports : List Report) : Nat :=
  (written src reports).length - (received dest reports).length

/-- Two sockets connected to each other. -/
structure Connected (a b : Nat) (s : UnixState) : Prop where
  distinct : a ≠ b
  peer_a : (s.sockets a).peer = some b
  peer_b : (s.sockets b).peer = some a
  state_a : (s.sockets a).state = .connected
  state_b : (s.sockets b).state = .connected

/-- A ring buffer as `unix_socket_create` sets it up, its heads anywhere. -/
structure EmptyBuffer (ring : Ringbuffer) : Prop where
  capacity : ring.capacity = unixSockBuffSize
  heads : ring.readHead = ring.writeHead
  bounded : ring.readHead < 2 ^ 64

/-- What the reports of a run say about one direction. -/
structure StreamOk (src dest : Nat) (reports : List Report) : Prop where
  in_order : received dest reports <+: written src reports
  bounded : inFlight src dest reports ≤ unixSockBuffSize

/-- What the next send from `src` does. -/
structure SendOk (src dest : Nat) (reports : List Report) (s : UnixState) (buff : List UInt8) :
    Prop where
  returns : (unixSocketSend src true buff 0 true s).1 = .returned .ok ∨
    (unixSocketSend src true buff 0 true s).1 = .returned .nonblock
  count : (unixSocketSend src true buff 0 true s).1 = .returned .ok →
    (unixSocketSend src true buff 0 true s).2.1 =
      min buff.length (unixSockBuffSize - inFlight src dest reports)
  full : (unixSocketSend src true buff 0 true s).1 = .returned .nonblock ↔
    inFlight src dest reports = unixSockBuffSize
  idle : (unixSocketSend src true buff 0 true s).1 = .returned .nonblock →
    (unixSocketSend src true buff 0 true s).2.2 = s

/-- What the next receive on `dest` does. -/
structure RecvOk (src dest : Nat) (reports : List Report) (s : UnixState) (len : Nat) : Prop where
  returns : (unixSocketRecv dest true len 0 true s).1 = .returned .ok ∨
    (unixSocketRecv dest true len 0 true s).1 = .returned .nonblock
  empty : (unixSocketRecv dest true len 0 true s).1 = .returned .nonblock ↔
    inFlight src dest reports = 0
  idle : (unixSocketRecv dest true len 0 true s).1 = .returned .nonblock →
    (unixSocketRecv dest true len 0 true s).2.2 = s

section Streams

variable {a b src dest : Nat} {s t : UnixState} {bytes : List UInt8} {call : Call}

theorem setRingbuffer_same (s : UnixState) (a : Nat) (ring : Ringbuffer) :
    (s.setRingbuffer a ring).ringbuffers a = ring :=
  Function.update_self ..

theorem setRingbuffer_of_ne (s : UnixState) (ring : Ringbuffer) (h : b ≠ a) :
    (s.setRingbuffer a ring).ringbuffers b = s.ringbuffers b :=
  Function.update_of_ne h ..

theorem Connected.symm (h : Connected a b s) : Connected b a s :=
  ⟨h.distinct.symm, h.peer_b, h.peer_a, h.state_b, h.state_a⟩

/-- Calls on a connected pair only ever touch ring buffers. -/
theorem Connected.setRingbuffer (h : Connected a b s) (c : Nat) (ring : Ringbuffer) :
    Connected a b (s.setRingbuffer c ring) :=
  ⟨h.distinct, h.peer_a, h.peer_b, h.state_a, h.state_b⟩

theorem send_eq (h : Connected src dest s) (buff : List UInt8) :
    unixSocketSend src true buff 0 true s =
      if ringbufferSize (s.ringbuffers dest) = (s.ringbuffers dest).capacity then
        (.returned .nonblock, 0, s)
      else (.returned .ok, (ringbufferWrite (s.ringbuffers dest) buff).1,
        s.setRingbuffer dest (ringbufferWrite (s.ringbuffers dest) buff).2) := by
  simp [unixSocketSend, sendLocked, h.peer_a, h.state_b, ringbufferCapacity]

theorem recv_eq (h : Connected src dest s) (len : Nat) :
    unixSocketRecv dest true len 0 true s =
      if ringbufferSize (s.ringbuffers dest) = 0 then (.returned .nonblock, [], s)
      else (.returned .ok, (ringbufferRead (s.ringbuffers dest) len).1,
        s.setRingbuffer dest (ringbufferRead (s.ringbuffers dest) len).2) := by
  simp [unixSocketRecv, recvLocked, UnixState.setRingbuffer, h.peer_b, h.state_b]

/-- The ring buffer of `dest` holds the bytes on their way to it. -/
structure Carries (dest : Nat) (s : UnixState) (bytes : List UInt8) : Prop where
  holds : Holds (s.ringbuffers dest) bytes
  capacity : (s.ringbuffers dest).capacity = unixSockBuffSize

theorem EmptyBuffer.carries (h : EmptyBuffer (s.ringbuffers dest)) : Carries dest s [] where
  holds :=
    { capacity_pos := by rw [h.capacity]; decide
      capacity_lt := by rw [h.capacity]; decide
      capacity_dvd := by rw [h.capacity]; exact ⟨2 ^ 51, by decide⟩
      readHead_lt := h.bounded
      writeHead_eq := by rw [List.length_nil, Nat.add_zero, Nat.mod_eq_of_lt h.bounded, h.heads]
      length_le := Nat.zero_le _
      cell := fun i hi => absurd hi (Nat.not_lt_zero i) }
  capacity := h.capacity

theorem Carries.send (hc : Carries dest s bytes) (h : Connected src dest s) (buff : List UInt8) :
    Carries dest (unixSocketSend src true buff 0 true s).2.2
      (bytes ++ buff.take (unixSocketSend src true buff 0 true s).2.1) := by
  rw [send_eq h]
  split
  · simpa using hc
  · obtain ⟨-, hholds, hcap⟩ := ringbufferWrite_spec hc.holds buff
    constructor
    · rwa [setRingbuffer_same]
    · rw [setRingbuffer_same, hcap, hc.capacity]

theorem Carries.recv (hc : Carries dest s bytes) (h : Connected src dest s) (len : Nat) :
    ∃ rest, bytes = (unixSocketRecv dest true len 0 true s).2.1 ++ rest ∧
      Carries dest (unixSocketRecv dest true len 0 true s).2.2 rest := by
  rw [recv_eq h]
  split
  · exact ⟨bytes, rfl, hc⟩
  · obtain ⟨htake, hholds, hcap⟩ := ringbufferRead_spec hc.holds len
    refine ⟨bytes.drop len, ?_, ?_, ?_⟩
    · rw [htake, List.take_append_drop]
    · rwa [setRingbuffer_same]
    · rw [setRingbuffer_same, hcap, hc.capacity]

/-- The other direction has a ring buffer of its own. -/
theorem perform_other_direction (h : Connected src dest s) (hthis : call.this = src ∨ call.this = dest)
    (haway : call.toward src dest = false) :
    Connected src dest (perform s call).2 ∧
      (perform s call).2.ringbuffers dest = s.ringbuffers dest := by
  cases call with
  | send this buff =>
      have hne : this ≠ src := by simpa [Call.toward] using haway
      obtain rfl : this = dest := hthis.resolve_left hne
      simp only [perform]
      rw [send_eq h.symm]
      split
      · exact ⟨h, rfl⟩
      · exact ⟨h.setRingbuffer _ _, setRingbuffer_of_ne s _ h.distinct.symm⟩
  | recv this len =>
      have hne : this ≠ dest := by simpa [Call.toward] using haway
      obtain rfl : this = src := hthis.resolve_right hne
      simp only [perform]
      rw [recv_eq h.symm]
      split
      · exact ⟨h, rfl⟩
      · exact ⟨h.setRingbuffer _ _, setRingbuffer_of_ne s _ h.distinct.symm⟩

theorem perform_connected (h : Connected src dest s)
    (hthis : call.this = src ∨ call.this = dest) : Connected src dest (perform s call).2 := by
  cases hdir : call.toward src dest with
  | false => exact (perform_other_direction h hthis hdir).1
  | true =>
      cases call with
      | send this buff =>
          obtain rfl : this = src := by simpa [Call.toward] using hdir
          simp only [perform]
          rw [send_eq h]
          split
          · exact h
          · exact h.setRingbuffer _ _
      | recv this len =>
          obtain rfl : this = dest := by simpa [Call.toward] using hdir
          simp only [perform]
          rw [recv_eq h]
          split
          · exact h
          · exact h.setRingbuffer _ _

/-- One call: what it adds to the queue and takes from it. -/
theorem perform_carries (h : Connected src dest s) (hc : Carries dest s bytes)
    (hthis : call.this = src ∨ call.this = dest) :
    ∃ bytes', Carries dest (perform s call).2 bytes' ∧
      bytes ++ written src [(perform s call).1] = received dest [(perform s call).1] ++ bytes' := by
  cases hdir : call.toward src dest with
  | true =>
      cases call with
      | send this buff =>
          obtain rfl : this = src := by simpa [Call.toward] using hdir
          exact ⟨_, hc.send h buff, by simp [perform, written, received]⟩
      | recv this len =>
          obtain rfl : this = dest := by simpa [Call.toward] using hdir
          obtain ⟨rest, hbytes, hcarries⟩ := hc.recv h len
          exact ⟨rest, hcarries, by simpa [perform, written, received] using hbytes⟩
  | false =>
      have hring := (perform_other_direction h hthis hdir).2
      refine ⟨bytes, ⟨by rw [hring]; exact hc.holds, by rw [hring]; exact hc.capacity⟩, ?_⟩
      cases call with
      | send this buff =>
          have hne : this ≠ src := by simpa [Call.toward] using hdir
          simp [perform, written, received, hne]
      | recv this len =>
          have hne : this ≠ dest := by simpa [Call.toward] using hdir
          simp [perform, written, received, hne]

theorem written_cons (r : Report) (reports : List Report) :
    written src (r :: reports) = written src [r] ++ written src reports := by
  simp [written]

theorem received_cons (r : Report) (reports : List Report) :
    received dest (r :: reports) = received dest [r] ++ received dest reports := by
  simp [received]

/-- A run: what was on its way before it and what was written during it has been received or
is on its way afterwards, in this order. -/
theorem performAll_carries (h : Connected src dest s) (hc : Carries dest s bytes)
    {calls : List Call} (hcalls : ∀ call ∈ calls, call.this = src ∨ call.this = dest) :
    Connected src dest (performAll s calls).2 ∧
      ∃ bytes', Carries dest (performAll s calls).2 bytes' ∧
        bytes ++ written src (performAll s calls).1 =
          received dest (performAll s calls).1 ++ bytes' := by
  induction calls generalizing s bytes with
  | nil => exact ⟨h, bytes, hc, by simp [performAll, written, received]⟩
  | cons call calls ih =>
      have hthis := hcalls call (by simp)
      obtain ⟨mid, hmid, hstep⟩ := perform_carries h hc hthis
      obtain ⟨hconn', bytes', hbytes', hrun⟩ :=
        ih (perform_connected h hthis) hmid fun call' hcall' => hcalls call' (List.mem_cons_of_mem _ hcall')
      refine ⟨hconn', bytes', hbytes', ?_⟩
      simp only [performAll]
      rw [written_cons, received_cons, ← List.append_assoc, hstep, List.append_assoc, hrun,
        List.append_assoc]

/-- A call sees nothing but the connection and the ring buffer of its own direction. -/
theorem perform_congr (h : Connected src dest s) (h' : Connected src dest t)
    (hring : s.ringbuffers dest = t.ringbuffers dest) (hdir : call.toward src dest = true) :
    (perform s call).1 = (perform t call).1 ∧
      (perform s call).2.ringbuffers dest = (perform t call).2.ringbuffers dest := by
  cases call with
  | send this buff =>
      obtain rfl : this = src := by simpa [Call.toward] using hdir
      simp only [perform]
      rw [send_eq h, send_eq h', hring]
      split
      · exact ⟨rfl, hring⟩
      · exact ⟨rfl, by simp only [setRingbuffer_same]⟩
  | recv this len =>
      obtain rfl : this = dest := by simpa [Call.toward] using hdir
      simp only [perform]
      rw [recv_eq h, recv_eq h', hring]
      split
      · exact ⟨rfl, hring⟩
      · exact ⟨rfl, by simp only [setRingbuffer_same]⟩

@[simp] theorem perform_call (s : UnixState) (call : Call) : (perform s call).1.call = call := by
  cases call <;> rfl

/-- Without the calls of the other direction, the calls of this one report the same. -/
theorem performAll_filter (h : Connected src dest s) (h' : Connected src dest t)
    (hring : s.ringbuffers dest = t.ringbuffers dest) {calls : List Call}
    (hcalls : ∀ call ∈ calls, call.this = src ∨ call.this = dest) :
    (performAll s calls).1.filter (fun r => r.call.toward src dest) =
      (performAll t (calls.filter (Call.toward src dest))).1 := by
  induction calls generalizing s t with
  | nil => rfl
  | cons call calls ih =>
      have hthis := hcalls call (by simp)
      have hrest := fun call' hcall' => hcalls call' (List.mem_cons_of_mem _ hcall')
      cases hdir : call.toward src dest with
      | true =>
          obtain ⟨hreport, hsame⟩ := perform_congr h h' hring hdir
          have hrun := ih (perform_connected h hthis) (perform_connected h' hthis) hsame hrest
          simp only [performAll, List.filter_cons, perform_call, hdir, if_true, hreport, hrun]
      | false =>
          obtain ⟨hconn, hkeep⟩ := perform_other_direction h hthis hdir
          have hrun := ih hconn h' (hkeep.trans hring) hrest
          simp only [performAll, List.filter_cons, perform_call, hdir, Bool.false_eq_true, if_false,
            hrun]

/-- The bytes on their way are those written and not yet received. -/
theorem inFlight_eq {reports : List Report} (h : written src reports = received dest reports ++ bytes) :
    inFlight src dest reports = bytes.length := by
  rw [inFlight, h, List.length_append, Nat.add_sub_cancel_left]

theorem Carries.streamOk (hc : Carries dest s bytes) {reports : List Report}
    (h : written src reports = received dest reports ++ bytes) : StreamOk src dest reports where
  in_order := ⟨bytes, h.symm⟩
  bounded := by
    rw [inFlight_eq h, ← hc.capacity]
    exact hc.holds.length_le

theorem Carries.sendOk (hc : Carries dest s bytes) (hconn : Connected src dest s)
    {reports : List Report} (h : written src reports = received dest reports ++ bytes)
    (buff : List UInt8) : SendOk src dest reports s buff := by
  have hsize := hc.holds.size_eq
  have hcount := (ringbufferWrite_spec hc.holds buff).1
  rw [hc.capacity] at hcount
  constructor <;> rw [send_eq hconn, hsize, hc.capacity]
  · split
    · exact Or.inr rfl
    · exact Or.inl rfl
  · rw [inFlight_eq h]
    split
    · simp
    · exact fun _ => hcount
  · rw [inFlight_eq h]
    split <;> simp_all
  · split
    · exact fun _ => rfl
    · simp

theorem Carries.recvOk (hc : Carries dest s bytes) (hconn : Connected src dest s)
    {reports : List Report} (h : written src reports = received dest reports ++ bytes)
    (len : Nat) : RecvOk src dest reports s len := by
  have hsize := hc.holds.size_eq
  constructor <;> rw [recv_eq hconn, hsize]
  · split
    · exact Or.inr rfl
    · exact Or.inl rfl
  · rw [inFlight_eq h]
    split <;> simp_all
  · split
    · exact fun _ => rfl
    · simp

/-- What holds of one direction of a connected pair after any run of calls on both ends. -/
structure DirectionOk (src dest : Nat) (s : UnixState) (calls : List Call) : Prop where
  stream : StreamOk src dest (performAll s calls).1
  send : ∀ buff, SendOk src dest (performAll s calls).1 (performAll s calls).2 buff
  recv : ∀ len, RecvOk src dest (performAll s calls).1 (performAll s calls).2 len
  independent : (performAll s calls).1.filter (fun r => r.call.toward src dest) =
    (performAll s (calls.filter (Call.toward src dest))).1

theorem directionOk (h : Connected src dest s) (hempty : EmptyBuffer (s.ringbuffers dest))
    {calls : List Call} (hcalls : ∀ call ∈ calls, call.this = src ∨ call.this = dest) :
    DirectionOk src dest s calls := by
  obtain ⟨hconn, bytes, hcarries, heq⟩ := performAll_carries h hempty.carries hcalls
  rw [List.nil_append] at heq
  exact ⟨hcarries.streamOk heq, hcarries.sendOk hconn heq, hcarries.recvOk hconn heq,
    performAll_filter h h rfl hcalls⟩

/-- Both directions of a connected pair are reliable byte streams, whatever calls are made on
its two ends and in whatever order. -/
theorem socket_byte_stream (h : Connected a b s) (ha : EmptyBuffer (s.ringbuffers a))
    (hb : EmptyBuffer (s.ringbuffers b)) {calls : List Call}
    (hcalls : ∀ call ∈ calls, call.this = a ∨ call.this = b) :
    DirectionOk a b s calls ∧ DirectionOk b a s calls :=
  ⟨directionOk h hb hcalls, directionOk h.symm ha fun call hcall => (hcalls call hcall).symm⟩

/-- Sockets 1 and 2 connected to each other. -/
def connectedPair : UnixState where
  sockets a := {socketInit with state := .connected, peer := some (3 - a)}
  nextSocket := 3
  waiting := []
  accepted := [1]
  ringbuffers _ := ringbufferAlloc (fun _ => 0) unixSockBuffSize

theorem socket_byte_stream_hello :
    (performAll connectedPair [.send 1 [104, 105], .recv 2 1, .recv 1 5]).1 =
        [⟨.send 1 [104, 105], .returned .ok, [104, 105]⟩, ⟨.recv 2 1, .returned .ok, [104]⟩,
          ⟨.recv 1 5, .returned .nonblock, []⟩] ∧
      DirectionOk 1 2 connectedPair [.send 1 [104, 105], .recv 2 1, .recv 1 5] ∧
      DirectionOk 2 1 connectedPair [.send 1 [104, 105], .recv 2 1, .recv 1 5] := by
  have hconn : Connected 1 2 connectedPair := ⟨by decide, rfl, rfl, rfl, rfl⟩
  have hempty : ∀ a, EmptyBuffer (connectedPair.ringbuffers a) := fun a => ⟨rfl, rfl, by
    simp [connectedPair, ringbufferAlloc]⟩
  exact ⟨by decide, socket_byte_stream hconn (hempty 1) (hempty 2) (by decide)⟩

end Streams

end Tellurium.Sockets
