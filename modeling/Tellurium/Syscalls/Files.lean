import Tellurium.Fs.Fd
import Tellurium.Fs.Lookup

/-!
The system calls on file descriptors (`kernel/syscalls/open.c`, `read.c`, `lseek.c`) with the
locks they take and the reference counts of the vnodes: `vfs_open` counts the vnode that it
finds and `vfs_close` gives it back. What the file system answers is an input, and so are the
attributes of the vnodes. A call into it may also not come back, because it goes through the
operations of a vnode that has none; then the system call does not come back either.
-/

namespace Tellurium.Syscalls

open Tellurium.Fs
open Tellurium.Vfs (VfsCode Outcome Stat sIfmt sIfsock sIfdir sIsDir toInt32 vnodePathMax
  vfsOpenRef vfsCloseRef vfsCloseRef_vfsOpenRef)

def atFdcwd : Int := -100
def oCreat : Nat := 0o100
def oDirectory : Nat := 0o200000

def sIfifo : Nat := 0o010000

def sIsSock (mode : Nat) : Bool := mode &&& sIfmt == sIfsock
def sIsFifo (mode : Nat) : Bool := mode &&& sIfmt == sIfifo

/-- The base directories and the answers of the file system while one `openat` runs: the first
`vfs_open`, the `vfs_create` and the second `vfs_open`. -/
structure OpenAnswers where
  root : Nat
  cwd : Nat
  vfsOpen : Nat → List Char → Outcome Nat
  vfsCreate : Nat → List Char → Outcome Unit
  vfsReopen : Nat → List Char → Outcome Nat

/-- The answers of a tree. -/
def treeAnswers (s : Vfs.State) (cwd : Nat) : OpenAnswers where
  root := Vfs.vRoot
  cwd := cwd
  vfsOpen := Vfs.vfsPathToNode s
  vfsCreate vBase path := (Vfs.vfsCreate s vBase path .vreg).map fun _ => ()
  vfsReopen vBase path :=
    match Vfs.vfsCreate s vBase path .vreg with
    | .done s => Vfs.vfsPathToNode s vBase path
    | .err code => .err code
    | .fault => .fault

/-- The table of a process, and `v_ref_count` of every vnode. -/
structure OpenState where
  files : FdState
  vRefCount : Nat → UInt64

/-- The attributes of the vnodes, and which of them have operations. -/
structure Vnodes where
  stat : Nat → Stat
  mounted : Nat → Bool

/-- The vnodes of a tree. -/
def treeVnodes (tree : Vfs.State) : Vnodes where
  stat vnode := (tree.nodes vnode).stat
  mounted vnode := (tree.nodes vnode).vfsops.isSome

/-- What `openat` meets: the vnodes, the answers of the file system, whether `kmalloc` answers
memory, and what the variable `vnode` holds when it was never set. -/
structure OpenWorld extends Vnodes where
  vfs : OpenAnswers
  alloc : Bool
  junk : Option Nat

/-- What the call returns, whether it created a file, and the state it leaves. -/
structure OpenResult where
  ret : Int
  created : Bool
  state : OpenState

/-- `if (vnode) vfs_close(vnode)`. -/
def closeVnode (mounted : Nat → Bool) (vRefCount : Nat → UInt64) :
    Option Nat → Except Halt (Nat → UInt64)
  | none => .ok vRefCount
  | some vnode =>
      match vfsCloseRef mounted vRefCount vnode with
      | none => .error .fault
      | some vRefCount => .ok vRefCount

/-- The vnode of a descriptor that `fd_free` takes out of the table. -/
def freedVnode (s : FdState) (fdI : Int) : Option Nat :=
  match s.get fdI with
  | none => none
  | some fd => if (s.fds fd).ref = 0 then (s.fds fd).vnode else none

/-- `fd_free` with the `vfs_close` in it, which is made with the table locked. -/
def fdFreeClose (mounted : Nat → Bool) (fdI : Int) (s : OpenState) : Except Halt OpenState := do
  let (_, files) ← fdFree fdI s.files
  let vRefCount ← closeVnode mounted s.vRefCount (freedVnode s.files fdI)
  return ⟨files, vRefCount⟩

/-- `if (dirfd != AT_FDCWD) fd_release(fd_table, dirfd)`. -/
def releaseDirfd (dirfd : Int) (s : FdState) : Except Halt FdState :=
  if dirfd ≠ atFdcwd then (fdRelease dirfd s).map Prod.snd else .ok s

/-- The code behind `syscall_openat_fail`. A jump from before the declaration of `vnode` leaves
it undefined. -/
def openatFail (w : OpenWorld) (fdI dirfd : Int) (vnode : Option Nat) (created : Bool)
    (s : OpenState) : Except Halt OpenResult := do
  let (_, files) ← fdRelease fdI s.files
  let s ← fdFreeClose w.mounted fdI ⟨files, s.vRefCount⟩
  let files ← releaseDirfd dirfd s.files
  let vRefCount ← closeVnode w.mounted s.vRefCount vnode
  return ⟨-1, created, ⟨{files with closed := files.closed ++ vnode.toList}, vRefCount⟩⟩

/-- The way out before the label. -/
def openatDone (fdI dirfd : Int) (created : Bool) (s : OpenState) : Except Halt OpenResult := do
  let (_, files) ← fdRelease fdI s.files
  let files ← releaseDirfd dirfd files
  return ⟨fdI, created, ⟨files, s.vRefCount⟩⟩

/-- A null base is looked at unless the path is empty or too long. -/
def baseOrFault (vbase : Option Nat) (path : List Char) : Except Halt (Except VfsCode Nat) :=
  match vbase with
  | some vbase => .ok (.ok vbase)
  | none =>
      if path.length > vnodePathMax then .ok (.error .invalidParameters)
      else if path = [] then .ok (.error .invalidPath)
      else .error .fault

/-- The vnode to open and whether it was created. -/
def openVnode (vfs : OpenAnswers) (vbase : Option Nat) (path : List Char) (flags : Nat) :
    Except Halt (Option Nat × Bool) := do
  match ← baseOrFault vbase path with
  | .error _ => return (none, false)
  | .ok vbase =>
      match vfs.vfsOpen vbase path with
      | .fault => throw .fault
      | .done vnode => return (some vnode, false)
      | .err err =>
          if err = .nodeMissing ∧ flags &&& oCreat ≠ 0 then
            match vfs.vfsCreate vbase path with
            | .fault => throw .fault
            | .err _ => return (none, false)
            | .done _ =>
                match vfs.vfsReopen vbase path with
                | .fault => throw .fault
                | .err _ => return (none, true)
                | .done vnode => return (some vnode, true)
          else return (none, false)

/-- `fd->flags &= ~O_CREAT`. -/
def clearCreat (f : Fd) : Fd := {f with flags := f.flags &&& (2 ^ 32 - 1 - oCreat)}

def setFile (vnode mode : Nat) (f : Fd) : Fd := {f with vnode := some vnode, mode, offset := 0}

/-- The test that `openat` makes of the vnode it has opened. -/
def unfit (w : OpenWorld) (flags vnode : Nat) : Bool :=
  sIsSock (w.stat vnode).stMode ||
    (!sIsDir (w.stat vnode).stMode && flags &&& oDirectory != 0)

/-- From the lookup on. -/
def openatLookedUp (w : OpenWorld) (dirfd : Int) (flags fd : Nat) (fdI : Int) (s : OpenState)
    (vnode : Option Nat) (created : Bool) : Except Halt OpenResult :=
  let files := s.files.modifyFd fd (if created then clearCreat else id)
  match vnode with
  | none => openatFail w fdI dirfd none created ⟨files, s.vRefCount⟩
  | some vnode =>
      let vRefCount := vfsOpenRef s.vRefCount vnode
      if unfit w flags vnode then openatFail w fdI dirfd (some vnode) created ⟨files, vRefCount⟩
      else
        let files := files.modifyFd fd (setFile vnode (w.stat vnode).stMode)
        openatDone fdI dirfd created ⟨files, vRefCount⟩

def openatBase (w : OpenWorld) (path : List Char) (vRelative : Option Nat) : Option Nat :=
  if path.head? = some '/' then some w.vfs.root else vRelative

/-- From the point where both descriptors are at hand. -/
def openatFinish (w : OpenWorld) (dirfd : Int) (path : List Char) (flags fd : Nat) (fdI : Int)
    (vRelative : Option Nat) (s : OpenState) : Except Halt OpenResult := do
  let (vnode, created) ← openVnode w.vfs (openatBase w path vRelative) path flags
  openatLookedUp w dirfd flags fd fdI s vnode created

/-- From the point where the new descriptor is at hand. -/
def openatRelative (w : OpenWorld) (dirfd : Int) (path : List Char) (flags fd : Nat)
    (fdI : Int) (s : OpenState) : Except Halt OpenResult :=
  if dirfd = atFdcwd then openatFinish w dirfd path flags fd fdI (some w.vfs.cwd) s
  else do
    match ← fdAcquire dirfd s.files with
    | (none, files) => openatFail w fdI dirfd w.junk false ⟨files, s.vRefCount⟩
    | (some fdRelative, files) =>
        openatFinish w dirfd path flags fd fdI (files.fds fdRelative).vnode
          ⟨files, s.vRefCount⟩

def syscallOpenat (w : OpenWorld) (dirfd : Int) (path : Option (List Char)) (flags : Nat)
    (s : OpenState) : Except Halt OpenResult := do
  match path with
  | none => return ⟨-1, false, s⟩
  | some path =>
      match ← fdCreate w.alloc s.files with
      | (none, files) => return ⟨-1, false, ⟨files, s.vRefCount⟩⟩
      | (some (fd, fdI), files) =>
          openatRelative w dirfd path flags fd fdI
            ⟨files.modifyFd fd fun f => {f with flags}, s.vRefCount⟩

/-- The bytes a file system reports as read and the caller's buffer afterwards, for a vnode,
the buffer before, a size and an offset, if it comes back. -/
def ReadOp := Nat → (Nat → UInt8) → Nat → Nat → Option (Nat × (Nat → UInt8))

/-- Null is not a vnode. -/
def vfsRead (mounted : Nat → Bool) (read : ReadOp) (buff : Nat → UInt8) (node : Option Nat)
    (size offset : Nat) : Except Halt (Option (Nat × (Nat → UInt8))) :=
  match node with
  | none => .ok none
  | some node =>
      if mounted node then
        match read node buff size offset with
        | none => .error .fault
        | some answer => .ok (some answer)
      else .error .fault

/-- What the call returns and the caller's buffer afterwards. -/
def syscallRead (mounted : Nat → Bool) (read : ReadOp) (fd : Int) (buf : Option (Nat → UInt8))
    (count : Nat) (s : FdState) : Except Halt (Nat × Option (Nat → UInt8) × FdState) := do
  match buf with
  | none => return (2 ^ 64 - 1, none, s)
  | some buf =>
      match ← fdAcquire fd s with
      | (none, s) => return (2 ^ 64 - 1, some buf, s)
      | (some readFd, s) =>
          match ← vfsRead mounted read buf (s.fds readFd).vnode count (s.fds readFd).offset with
          | none =>
              let (_, s) ← fdRelease fd s
              return (2 ^ 64 - 1, some buf, s)
          | some (bytesRead, buf) =>
              let (_, s) ← fdRelease fd s
              let s := s.modifyFd readFd fun f => {f with offset := (f.offset + bytesRead) % 2 ^ 64}
              return (bytesRead, some buf, s)

def seekSet : Int := 0
def seekCur : Int := 1
def seekEnd : Int := 2

/-- Where `lseek` moves the offset. -/
def seekOffset (whence : Int) (offset old size : Nat) : Nat :=
  if whence = seekSet then offset
  else if whence = seekCur then (old + offset) % 2 ^ 64
  else if whence = seekEnd then size
  else old

/-- On a socket or a pipe the call returns without giving the descriptor back. -/
def syscallLseek (stat : Nat → Stat) (fd : Int) (offset : Nat) (whence : Int) (s : FdState) :
    Except Halt (Int × FdState) := do
  match ← fdAcquire fd s with
  | (none, s) => return (-1, s)
  | (some file, s) =>
      match (s.fds file).vnode with
      | none => throw .fault
      | some vnode =>
          let mode := (stat vnode).stMode
          if sIsSock mode || sIsFifo mode then return (-1, s)
          let s := s.modifyFd file fun f =>
            {f with offset := seekOffset whence offset f.offset (stat vnode).stSize}
          let (_, s) ← fdRelease fd s
          return (toInt32 (s.fds file).offset, s)

/-- The vnode that a relative path starts from, in a table whose end is the new descriptor. -/
def startOf (w : OpenWorld) (dirfd : Int) (s : FdState) : Option (Option Nat) :=
  if dirfd = atFdcwd then some (some w.vfs.cwd)
  else if dirfd = s.fdTable.length then some none
  else
    match s.get dirfd with
    | none => none
    | some d => if (s.fds d).fdLock then none else some (s.fds d).vnode

section Descriptors

variable {s t : FdState} {fdI dirfd : Int} {fd d : Nat}

@[simp] theorem modifyFd_get (s : FdState) (fd : Nat) (f : Fd → Fd) (i : Int) :
    (s.modifyFd fd f).get i = s.get i := rfl

@[simp] theorem releaseFd_get (s : FdState) (fd : Nat) (i : Int) :
    (s.releaseFd fd).get i = s.get i := rfl

@[simp] theorem modifyFd_fdTableLock (s : FdState) (fd : Nat) (f : Fd → Fd) :
    (s.modifyFd fd f).fdTableLock = s.fdTableLock := rfl

@[simp] theorem releaseFd_fdTableLock (s : FdState) (fd : Nat) :
    (s.releaseFd fd).fdTableLock = s.fdTableLock := rfl

theorem modifyFd_fds (s : FdState) (fd : Nat) (f : Fd → Fd) (g : Nat) :
    (s.modifyFd fd f).fds g = if g = fd then f (s.fds fd) else s.fds g := by
  by_cases hg : g = fd
  · subst hg
    simp [FdState.modifyFd]
  · simp [FdState.modifyFd, hg]

theorem releaseFd_fdLock (s : FdState) (fd g : Nat) :
    ((s.releaseFd fd).fds g).fdLock = if g = fd then false else (s.fds g).fdLock := by
  rw [FdState.releaseFd, modifyFd_fds]
  split <;> rfl

theorem releaseFd_ref (s : FdState) (fd g : Nat) : ((s.releaseFd fd).fds g).ref = (s.fds g).ref := by
  rw [FdState.releaseFd, modifyFd_fds]
  split
  · subst_vars
    rfl
  · rfl

theorem modifyFd_fds_of_ne (f : Fd → Fd) {g : Nat} (hne : g ≠ fd) :
    (s.modifyFd fd f).fds g = s.fds g := by
  rw [modifyFd_fds, if_neg hne]

theorem modifyFd_ref {f : Fd → Fd} (hf : ∀ e, (f e).ref = e.ref) (s : FdState) (fd g : Nat) :
    ((s.modifyFd fd f).fds g).ref = (s.fds g).ref := by
  rw [modifyFd_fds]
  split
  · subst_vars
    rw [hf]
  · rfl

/-- `fd_acquire` has locked the descriptor and changed nothing else. -/
structure Acquired (s u : FdState) (d : Nat) : Prop where
  table : u.fdTable = s.fdTable
  tableLock : u.fdTableLock = s.fdTableLock
  self : u.fds d = {s.fds d with fdLock := true}
  others : ∀ g, g ≠ d → u.fds g = s.fds g

theorem Acquired.get {u : FdState} {d : Nat} (h : Acquired s u d) (i : Int) : u.get i = s.get i := by
  rw [FdState.get, FdState.get, h.table]

theorem Acquired.ref {u : FdState} {d : Nat} (h : Acquired s u d) (g : Nat) :
    (u.fds g).ref = (s.fds g).ref := by
  by_cases hg : g = d
  · rw [hg, h.self]
  · rw [h.others g hg]

theorem fdAcquire_free {d : Nat} {i : Int} (hlock : s.fdTableLock = false)
    (hget : s.get i = some d) (hfree : (s.fds d).fdLock = false) :
    ∃ u, fdAcquire i s = .ok (some d, u) ∧ Acquired s u d :=
  ⟨_, fdAcquire_some hlock hget hfree, rfl, rfl, by rw [modifyFd_fds, if_pos rfl],
    fun _ hne => modifyFd_fds_of_ne _ hne⟩

/-- The state `openat` looks `dirfd` up in. -/
theorem appended_get_eq_some_iff (s : FdState) (i : Int) (d : Nat) :
    (appended s).get i = some d ↔ (i = s.fdTable.length ∧ d = s.nextFd) ∨ s.get i = some d := by
  by_cases hi : i = s.fdTable.length
  · subst hi
    rw [appended_get_new]
    have hnone : s.get s.fdTable.length = none := by simp [FdState.get]
    simp [hnone, eq_comm]
  · rw [appended_get_of_ne s hi]
    simp [hi]

/-- The table with the new descriptor, which nothing refers to before. -/
structure Opened (s t : FdState) : Prop where
  unlocked : t.fdTableLock = false
  get : ∀ i d, t.get i = some d ↔ (i = s.fdTable.length ∧ d = s.nextFd) ∨ s.get i = some d
  old : ∀ fd, fd ≠ s.nextFd → t.fds fd = s.fds fd
  new_ref : (t.fds s.nextFd).ref ≠ 0
  new_lock : (t.fds s.nextFd).fdLock = false
  new_vnode : (t.fds s.nextFd).vnode = none

theorem opened (hlock : s.fdTableLock = false) (flags : Nat) :
    Opened s ((appended s).modifyFd s.nextFd fun f => {f with flags}) where
  unlocked := hlock
  get i d := appended_get_eq_some_iff s i d
  old fd hne := by simp [modifyFd_fds, appended, hne]
  new_ref := by simp [modifyFd_fds, appended]
  new_lock := by simp [modifyFd_fds, appended]
  new_vnode := by simp [modifyFd_fds, appended]

theorem Opened.slot (h : Opened s t) : t.get s.fdTable.length = some s.nextFd :=
  (h.get _ _).mpr (Or.inl ⟨rfl, rfl⟩)

theorem get_length (s : FdState) : s.get s.fdTable.length = none := by
  simp [FdState.get]

/-- The start of a relative path, seen in the table with the new descriptor. -/
theorem Opened.startOf_eq {w : OpenWorld} (h : Opened s t) (hfresh : some s.nextFd ∉ s.fdTable)
    (hcwd : dirfd ≠ atFdcwd) (hget : t.get dirfd = some d) :
    startOf w dirfd s = if (t.fds d).fdLock then none else some (t.fds d).vnode := by
  rw [startOf, if_neg hcwd]
  rcases (h.get dirfd d).mp hget with ⟨hlen, rfl⟩ | hold
  · rw [if_pos hlen, h.new_lock, h.new_vnode]
    rfl
  · have hne : dirfd ≠ s.fdTable.length := by
      rintro rfl
      rw [get_length] at hold
      cases hold
    have hfds : t.fds d = s.fds d :=
      h.old d fun heq => hfresh (heq ▸ (FdState.get_eq_some hold).2.2)
    rw [if_neg hne, hold, hfds]

theorem Opened.get_none (h : Opened s t) :
    t.get dirfd = none ↔ dirfd ≠ s.fdTable.length ∧ s.get dirfd = none := by
  simp only [Option.eq_none_iff_forall_ne_some, ne_eq, h.get, not_or, not_and, forall_and]
  constructor
  · rintro ⟨hnew, hold⟩
    exact ⟨fun hlen => hnew _ hlen rfl, hold⟩
  · rintro ⟨hne, hold⟩
    exact ⟨fun d hlen => absurd hlen hne, hold⟩

end Descriptors

/-- A process with one regular file open at descriptor 0. -/
def oneFile : FdState where
  fdTableLock := false
  fdTable := [some 0]
  fds _ := ⟨false, some 1, 1, 0, 0, 0o100000⟩
  nextFd := 1
  closed := []

end Tellurium.Syscalls
