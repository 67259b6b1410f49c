import Tellurium.Fs.Vfs
import Tellurium.Sockets.Lifecycle

/-!
What a failing `unix_socket_connect` leaves behind (`kernel/sockets/unix_socket.c`). The call as
in `Sockets.Lifecycle`, with the reference counts of the vnodes and with the wait for the
accepting side. It is followed to its return: `EVENT_ERR` is one answer of the wait. Only the
way out at the end closes the vnode, so a failure after the `vfs_open` keeps the reference.
-/

namespace Tellurium.Sockets

open Tellurium.Lib
open Tellurium.Vfs (vfsOpenRef vfsOpenRef_ne vfsCloseRef)

structure ConnectState extends LifeState where
  vRefCount : Nat → UInt64

/-- A call with its answers: the vnode that `vfs_open` finds, whether that is a socket and has
operations, and whether the signal and the wait end with an error. -/
structure ConnectCall where
  this : Nat
  addrlen : Nat
  addr : Sockaddr
  vnode : Option Nat
  isSock : Bool
  mounted : Bool
  signalErr : Bool
  waitErr : Bool
  deriving Repr, DecidableEq

/-- From the point where the client is in the backlog of its peer. -/
def connectWait (c : ConnectCall) (vnode : Nat) (s : ConnectState) : IoOutcome × ConnectState :=
  if c.waitErr then (.returned .blockFail, s)
  else
    match vfsCloseRef (fun _ => c.mounted) s.vRefCount vnode with
    | none => (.fault, s)
    | some vRefCount => (.returned .ok, {s with vRefCount})

/-- From the point where the vnode is open. -/
def connectOpened (c : ConnectCall) (vnode : Nat) (s : ConnectState) : IoOutcome × ConnectState :=
  if c.isSock then
    match s.fsData vnode with
    | none => (.fault, s)
    | some peer =>
        match connectLocked c.this peer c.signalErr s.toLifeState with
        | (.blocked, life) => connectWait c vnode {s with toLifeState := life}
        | (outcome, life) => (outcome, {s with toLifeState := life})
  else (.returned .badParam, s)

/-- `unix_socket_connect`. -/
def ConnectCall.perform (s : ConnectState) (c : ConnectCall) : IoOutcome × ConnectState :=
  if c.addrlen > sockaddrUnSize then (.returned .badParam, s)
  else if c.addr.family ≠ afUnix then (.returned .invalidDomain, s)
  else if (s.sockets c.this).state ≠ .created then (.returned .badParam, s)
  else
    match c.vnode with
    | none => (.returned .vfsFail, s)
    | some vnode => connectOpened c vnode {s with vRefCount := vfsOpenRef s.vRefCount vnode}

def connectStep (s : ConnectState) (c : ConnectCall) : ConnectState := (c.perform s).2

def ConnectCall.file (c : ConnectCall) : PeerFile :=
  match c.vnode with
  | none => .openFail
  | some vnode => if c.isSock then .socket vnode else .notSocket

/-- The call returns an error. -/
def ConnectCall.Fails (s : ConnectState) (c : ConnectCall) : Prop :=
  ∃ code, (c.perform s).1 = .returned code ∧ code ≠ .ok

/-- The pending clients, the sizes of every backlog and the counts are the same. -/
structure SameListeners (s s' : ConnectState) : Prop where
  pending : ∀ a, (s'.sockets a).inUse = (s.sockets a).inUse
  size : ∀ a, (s'.sockets a).backlogSize = (s.sockets a).backlogSize
  capacity : ∀ a, (s'.sockets a).backlogCapacity = (s.sockets a).backlogCapacity
  references : s'.vRefCount = s.vRefCount

/-- A failing call leaves every listener intact. -/
def KeepsListeners (s : ConnectState) (c : ConnectCall) : Prop :=
  c.Fails s → SameListeners s (connectStep s c)

/-- The call opens its peer's file and fails later: the file is no socket, or the peer does not
listen, or its backlog is full, or one of the events fails. -/
def FailsLate (s : ConnectState) (c : ConnectCall) : Prop :=
  c.addrlen ≤ sockaddrUnSize ∧ c.addr.family = afUnix ∧ (s.sockets c.this).state = .created ∧
    ∃ vnode, c.vnode = some vnode ∧
      (c.isSock = false ∨ ∃ peer, s.fsData vnode = some peer ∧
        ((s.sockets peer).state ≠ .listening ∨
          (s.sockets peer).backlogSize = (s.sockets peer).backlogCapacity ∨
          c.signalErr = true ∨ c.waitErr = true))

section Connect

variable {s : ConnectState} {c : ConnectCall}

theorem SameListeners.refl (s : ConnectState) : SameListeners s s :=
  ⟨fun _ => rfl, fun _ => rfl, fun _ => rfl, rfl⟩

theorem SameListeners.trans {t u : ConnectState} (h : SameListeners s t) (h' : SameListeners t u) :
    SameListeners s u where
  pending a := (h'.pending a).trans (h.pending a)
  size a := (h'.size a).trans (h.size a)
  capacity a := (h'.capacity a).trans (h.capacity a)
  references := h'.references.trans h.references

/-- Under the peer's lock the call fails or goes on to wait. -/
theorem connectLocked_cases (this peer : Nat) (signalErr : Bool) (life : LifeState) :
    ((connectLocked this peer signalErr life).1 = .blocked ∧
        (life.sockets peer).state = .listening ∧
        (life.sockets peer).backlogSize ≠ (life.sockets peer).backlogCapacity ∧ signalErr = false) ∨
      ((∃ code, (connectLocked this peer signalErr life).1 = .returned code ∧ code ≠ .ok) ∧
        ((life.sockets peer).state ≠ .listening ∨
          (life.sockets peer).backlogSize = (life.sockets peer).backlogCapacity ∨
          signalErr = true)) := by
  unfold connectLocked socketAddToPeerBacklog
  split
  · exact .inr ⟨⟨_, rfl, nofun⟩, .inl ‹_›⟩
  · rename_i hstate
    rw [not_not] at hstate
    rcases Decidable.em ((life.sockets peer).backlogSize = (life.sockets peer).backlogCapacity)
      with hfull | hroom
    · rw [if_pos hfull]
      exact .inr ⟨⟨_, rfl, nofun⟩, .inr (.inl hfull)⟩
    · rw [if_neg hroom]
      cases signalErr with
      | true => exact .inr ⟨⟨_, rfl, nofun⟩, .inr (.inr rfl)⟩
      | false => exact .inl ⟨rfl, hstate, hroom, rfl⟩

theorem connectWait_fails (vnode : Nat) :
    ((∃ code, (connectWait c vnode s).1 = .returned code ∧ code ≠ .ok) ↔ c.waitErr = true) ∧
      (c.waitErr = true → (connectWait c vnode s).2 = s) := by
  unfold connectWait
  cases c.waitErr with
  | true => exact ⟨iff_of_true ⟨_, rfl, nofun⟩ rfl, fun _ => rfl⟩
  | false =>
      refine ⟨iff_of_false ?_ nofun, nofun⟩
      rintro ⟨code, hcode, hne⟩
      simp only [Bool.false_eq_true, if_false] at hcode
      split at hcode
      · cases hcode
      · cases hcode
        exact hne rfl

/-- With the vnode open: when the call fails, and that it then keeps the reference. -/
theorem connectOpened_fails (vnode : Nat) :
    ((∃ code, (connectOpened c vnode s).1 = .returned code ∧ code ≠ .ok) ↔
        c.isSock = false ∨ ∃ peer, s.fsData vnode = some peer ∧
          ((s.sockets peer).state ≠ .listening ∨
            (s.sockets peer).backlogSize = (s.sockets peer).backlogCapacity ∨
            c.signalErr = true ∨ c.waitErr = true)) ∧
      ((∃ code, (connectOpened c vnode s).1 = .returned code ∧ code ≠ .ok) →
        (connectOpened c vnode s).2.vRefCount = s.vRefCount) := by
  unfold connectOpened
  cases c.isSock with
  | false => exact ⟨iff_of_true ⟨_, rfl, nofun⟩ (.inl rfl), fun _ => rfl⟩
  | true =>
      cases hpeer : s.fsData vnode with
      | none => simp
      | some peer =>
          simp only [if_true]
          rcases connectLocked_cases c.this peer c.signalErr s.toLifeState with
            ⟨houtcome, hlisten, hroom, hsignal⟩ | ⟨⟨code, houtcome, hne⟩, hcond⟩
          · obtain ⟨life, hlocked⟩ : ∃ life,
                connectLocked c.this peer c.signalErr s.toLifeState = (.blocked, life) :=
              ⟨_, Prod.ext houtcome rfl⟩
            obtain ⟨hfails, hkeeps⟩ := @connectWait_fails {s with toLifeState := life} c vnode
            rw [hlocked]
            dsimp only
            refine ⟨?_, fun hfail => by rw [hkeeps (hfails.mp hfail)]⟩
            rw [hfails]
            simp [hlisten, hroom, hsignal]
          · obtain ⟨life, hlocked⟩ : ∃ life,
                connectLocked c.this peer c.signalErr s.toLifeState = (.returned code, life) :=
              ⟨_, Prod.ext houtcome rfl⟩
            rw [hlocked]
            refine ⟨iff_of_true ⟨code, rfl, hne⟩ (.inr ⟨peer, rfl, ?_⟩), fun _ => rfl⟩
            rcases hcond with hstate | hfull | hsignal
            · exact .inl hstate
            · exact .inr (.inl hfull)
            · exact .inr (.inr (.inl hsignal))

/-- Before the vnode is open nothing has changed. -/
theorem perform_early (hearly : ¬ (c.addrlen ≤ sockaddrUnSize ∧ c.addr.family = afUnix ∧
    (s.sockets c.this).state = .created ∧ c.vnode ≠ none)) : connectStep s c = s := by
  unfold connectStep ConnectCall.perform
  split
  · rfl
  · split
    · rfl
    · split
      · rfl
      · cases hvnode : c.vnode with
        | none => rfl
        | some vnode =>
            refine absurd ⟨?_, ?_, ?_, ?_⟩ hearly
            all_goals simp_all

theorem perform_opened (hlen : c.addrlen ≤ sockaddrUnSize) (hfamily : c.addr.family = afUnix)
    (hstate : (s.sockets c.this).state = .created) {vnode : Nat} (hvnode : c.vnode = some vnode) :
    c.perform s = connectOpened c vnode {s with vRefCount := vfsOpenRef s.vRefCount vnode} := by
  simp [ConnectCall.perform, Nat.not_lt.mpr hlen, hfamily, hstate, hvnode]

theorem keepsListeners_iff : KeepsListeners s c ↔ ¬ FailsLate s c := by
  by_cases hopen : c.addrlen ≤ sockaddrUnSize ∧ c.addr.family = afUnix ∧
      (s.sockets c.this).state = .created ∧ c.vnode ≠ none
  · obtain ⟨hlen, hfamily, hstate, hsome⟩ := hopen
    obtain ⟨vnode, hvnode⟩ := Option.ne_none_iff_exists'.mp hsome
    have hperform := perform_opened hlen hfamily hstate hvnode
    obtain ⟨hfails, hkeeps⟩ :=
      @connectOpened_fails {s with vRefCount := vfsOpenRef s.vRefCount vnode} c vnode
    have hlate : FailsLate s c ↔ c.Fails s := by
      rw [ConnectCall.Fails, hperform, hfails, FailsLate]
      simp [hlen, hfamily, hstate, hvnode]
    rw [hlate, KeepsListeners]
    refine ⟨fun hsame hfail => ?_, fun hnot hfail => absurd hfail hnot⟩
    have hreferences := (hsame hfail).references
    rw [ConnectCall.Fails, hperform] at hfail
    rw [connectStep, hperform, hkeeps hfail] at hreferences
    exact vfsOpenRef_ne hreferences
  · refine iff_of_true ?_ ?_
    · intro hfail
      rw [perform_early hopen]
      exact .refl s
    · rintro ⟨hlen, hfamily, hstate, vnode, hvnode, -⟩
      exact hopen ⟨hlen, hfamily, hstate, by simp [hvnode]⟩

theorem connectWait_toLifeState (vnode : Nat) :
    (connectWait c vnode s).2.toLifeState = s.toLifeState := by
  unfold connectWait
  split
  · rfl
  · split <;> rfl

/-- Without the counts the call is that of `Sockets.Lifecycle`. -/
theorem connectStep_erase : (connectStep s c).toLifeState =
    (unixSocketConnect c.this c.addrlen c.addr c.file c.signalErr s.toLifeState).2 := by
  unfold connectStep ConnectCall.perform unixSocketConnect
  split_ifs
  · rfl
  · rfl
  · rfl
  · cases hvnode : c.vnode with
    | none =>
        rw [ConnectCall.file, hvnode]
    | some vnode =>
        rw [ConnectCall.file, hvnode]
        cases hsock : c.isSock with
        | false => simp [connectOpened, hsock]
        | true =>
            simp only [connectOpened, hsock, if_true]
            cases hpeer : s.fsData vnode with
            | none => rfl
            | some peer =>
                dsimp only
                split
                · rename_i hlocked
                  rw [connectWait_toLifeState, hlocked]
                · rename_i hlocked
                  rw [hlocked]

end Connect

/-- Socket 0 listens with room for one client, and its file is vnode 1. -/
def oneListener : ConnectState where
  toLifeState := {noSockets with
    sockets := fun a => if a = 0 then ⟨.listening, none, [none], 1, 0⟩ else socketInit
    nextSocket := 2
    fsData := fun node => if node = 1 then some 0 else none}
  vRefCount _ := 0

/-- Client 1 asks while nobody waits in accept, so the signal fails. -/
def tooEarly : ConnectCall where
  this := 1
  addrlen := 112
  addr := ⟨afUnix, [0x61]⟩
  vnode := some 1
  isSock := true
  mounted := true
  signalErr := true
  waitErr := false

end Tellurium.Sockets
