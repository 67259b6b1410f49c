import Mathlib.Data.List.Basic

/-!
Sockets and the backlog of a listening socket (`kernel/sockets/socket.c`). A socket is
named by its address; the backlog is an array of socket pointers of which the first
`backlog_size` are in use. Locks, events and the local address are not modelled here.
-/

namespace Tellurium.Sockets

/-- Socket return codes. -/
inductive SktCode where
  | ok
  | badParam
  | invalidDomain
  | noMem
  | badOp
  | badSockaddr
  | bindFail
  | badState
  | vfsFail
  | backlogFull
  | blockFail
  | backlogEmpty
  | backlogCapacityInvalid
  | badEvent
  | nonblock
  deriving Repr, DecidableEq

inductive SocketState where
  | created
  | bounded
  | listening
  | connected
  deriving Repr, DecidableEq

structure Socket where
  state : SocketState
  peer : Option Nat
  backlog : List (Option Nat)
  backlogCapacity : Nat
  backlogSize : Nat
  deriving Repr, DecidableEq

/-- The fields that `socket_init` sets. -/
def socketInit : Socket :=
  {state := .created, peer := none, backlog := [], backlogCapacity := 0, backlogSize := 0}

/-- `for (j = i; j < size - 1; j++) backlog[j] = backlog[j + 1]`. -/
def shiftBacklog (backlog : List (Option Nat)) (i size : Nat) : List (Option Nat) :=
  (List.range' i (size - 1 - i)).foldl
    (fun backlog j => backlog.set j (backlog.getD (j + 1) none)) backlog

/-- The entries in use. -/
def Socket.inUse (s : Socket) : List (Option Nat) := s.backlog.take s.backlogSize

/-- Both shifting loops of the source leave `backlog_size` as it is. -/
def socketBacklogRemove (s : Socket) (remove : Nat) : SktCode × Socket :=
  if s.backlogSize = 0 then (.backlogEmpty, s)
  else
    match s.inUse.findIdx? (· = some remove) with
    | none => (.badParam, s)
    | some i => (.ok, {s with backlog := shiftBacklog s.backlog i s.backlogSize})

def socketAddToPeerBacklog (this : Nat) (peer : Socket) : SktCode × Socket :=
  if peer.backlogSize = peer.backlogCapacity then (.backlogFull, peer)
  else (.ok, {peer with
    backlog := peer.backlog.set peer.backlogSize (some this)
    backlogSize := peer.backlogSize + 1})

def socketPopFromBacklog (s : Socket) : SktCode × Option Nat × Socket :=
  if s.backlogSize = 0 then (.backlogEmpty, none, s)
  else (.ok, s.backlog.getD 0 none, {s with backlog := shiftBacklog s.backlog 0 s.backlogSize})

section Backlog

variable {s : Socket} {c : Nat}

theorem socketBacklogRemove_backlogSize (s : Socket) (remove : Nat) :
    (socketBacklogRemove s remove).2.backlogSize = s.backlogSize := by
  unfold socketBacklogRemove
  split
  · rfl
  · split <;> rfl

/-- Withdrawing a client that is not pending changes nothing. -/
theorem socketBacklogRemove_of_not_mem (h : some c ∉ s.inUse) :
    (socketBacklogRemove s c).2 = s := by
  unfold socketBacklogRemove
  have hnone : s.inUse.findIdx? (· = some c) = none := by
    simp only [List.findIdx?_eq_none_iff, decide_eq_false_iff_not]
    exact fun x hx heq => h (heq ▸ hx)
  rw [hnone]
  split <;> rfl

theorem socketPopFromBacklog_backlogSize (s : Socket) :
    (socketPopFromBacklog s).2.2.backlogSize = s.backlogSize := by
  unfold socketPopFromBacklog
  split <;> rfl

/-- A backlog with room takes the new client behind the pending ones. -/
theorem socketAddToPeerBacklog_inUse (hroom : s.backlogSize < s.backlog.length)
    (hcap : s.backlogSize ≠ s.backlogCapacity) :
    (socketAddToPeerBacklog c s).2.inUse = s.inUse ++ [some c] := by
  rw [socketAddToPeerBacklog, if_neg hcap, Socket.inUse, Socket.inUse]
  simp only
  rw [List.take_add_one, List.take_set_of_le (Nat.le_refl _)]
  simp [hroom]

end Backlog

end Tellurium.Sockets
