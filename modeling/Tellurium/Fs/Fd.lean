import Mathlib.Data.List.Basic
import Mathlib.Logic.Function.Basic

/-!
The file descriptor table of a process (`kernel/fs/fd.c`). Descriptors live at addresses and
the table is a vector of pointers to them, null where a slot is empty. Locks are words that
`spinlock_acquire` waits for and `spinlock_release` clears whoever holds them. A call that
waits for a lock nobody releases, or that follows a null pointer, has no result. The vector
behaves as a list and its indices stay in the range of an `int`.
-/

namespace Tellurium.Fs

/-- Why a call does not return. -/
inductive Halt where
  | spin
  | fault
  deriving Repr, DecidableEq

structure Fd where
  fdLock : Bool
  vnode : Option Nat
  ref : Nat
  offset : Nat
  flags : Nat
  mode : Nat
  deriving Repr, DecidableEq

/-- The table and its lock, the descriptors by address with the next address that `kmalloc`
answers, and the vnodes given to `vfs_close` so far. -/
structure FdState where
  fdTableLock : Bool
  fdTable : List (Option Nat)
  fds : Nat → Fd
  nextFd : Nat
  closed : List Nat

namespace FdState

def modifyFd (s : FdState) (fd : Nat) (f : Fd → Fd) : FdState :=
  {s with fds := Function.update s.fds fd (f (s.fds fd))}

def acquireTable (s : FdState) : Except Halt FdState :=
  if s.fdTableLock then .error .spin else .ok {s with fdTableLock := true}

def releaseTable (s : FdState) : FdState := {s with fdTableLock := false}

def acquireFd (s : FdState) (fd : Nat) : Except Halt FdState :=
  if (s.fds fd).fdLock then .error .spin else .ok (s.modifyFd fd fun f => {f with fdLock := true})

def releaseFd (s : FdState) (fd : Nat) : FdState := s.modifyFd fd fun f => {f with fdLock := false}

/-- `vector_get`: null outside the bounds. -/
def get (s : FdState) (n : Int) : Option Nat :=
  if 0 ≤ n then (s.fdTable[n.toNat]?).join else none

end FdState

/-- `alloc` says whether `kmalloc` answers memory. An empty slot is chosen but the new
descriptor is only ever stored by the push at the end. -/
def fdCreate (alloc : Bool) (s : FdState) : Except Halt (Option (Nat × Int) × FdState) := do
  let s ← s.acquireTable
  let fdIdx := s.fdTable.findIdx? Option.isNone
  if !alloc then return (none, s.releaseTable)
  let newFd := s.nextFd
  let s := {s.modifyFd newFd fun f => {f with ref := 1, fdLock := false, vnode := none} with
    nextFd := newFd + 1}
  match fdIdx with
  | some i => return (some (newFd, i), s.releaseTable)
  | none =>
      let oldSize := s.fdTable.length
      let s := {s with fdTable := s.fdTable ++ [some newFd]}
      match (s.fdTable.drop oldSize).findIdx? (· = some newFd) with
      | none => return (none, s.releaseTable)
      | some i => return (some (newFd, oldSize + i), s.releaseTable)

def fdFree (fdI : Int) (s : FdState) : Except Halt (Bool × FdState) := do
  let s ← s.acquireTable
  match s.get fdI with
  | none => return (false, s.releaseTable)
  | some fd =>
      if (s.fds fd).ref = 0 then
        let s := {s with
          fdTable := s.fdTable.set fdI.toNat none
          closed := s.closed ++ (s.fds fd).vnode.toList}
        return (true, s.releaseTable)
      else return (true, s.releaseTable)

/-- The descriptor's lock is taken with the table locked. -/
def fdAcquire (fdI : Int) (s : FdState) : Except Halt (Option Nat × FdState) := do
  let s ← s.acquireTable
  match s.get fdI with
  | none => return (none, s.releaseTable)
  | some fd =>
      let s ← s.acquireFd fd
      return (some fd, s.releaseTable)

/-- On an empty slot the table stays locked. -/
def fdRelease (fdI : Int) (s : FdState) : Except Halt (Bool × FdState) := do
  let s ← s.acquireTable
  match s.get fdI with
  | none => return (false, s)
  | some fd => return (true, s.releaseTable.releaseFd fd)

/-- The table of a new process; `fds` is what its descriptors' memory holds before. -/
def fdTableInit (fds : Nat → Fd) : FdState :=
  {fdTableLock := false, fdTable := [], fds, nextFd := 0, closed := []}

/-- The descriptor that `fd_acquire` yields for an index. -/
def acquired (s : FdState) (i : Int) : Option Nat :=
  match fdAcquire i s with
  | .ok (fd, _) => fd
  | .error _ => none

/-- What happens to a table: creations, frees, and a caller that opens or closes the file
behind a descriptor it was given. -/
inductive FdOp where
  | create
  | free (i : Int)
  | use (fd : Nat) (vnode : Option Nat)
  deriving Repr, DecidableEq

def FdOp.call (s : FdState) : FdOp → Except Halt FdState
  | .create => (fdCreate true s).map Prod.snd
  | .free i => (fdFree i s).map Prod.snd
  | .use fd vnode => .ok (s.modifyFd fd fun f => {f with vnode})

def fdRun (s : FdState) : List FdOp → Except Halt FdState
  | [] => .ok s
  | op :: ops => op.call s >>= fun s => fdRun s ops

/-- The other indices still yield the same descriptors with the same contents. -/
def OthersKept (i : Int) (s s' : FdState) : Prop :=
  ∀ j, j ≠ i → acquired s' j = acquired s j ∧ ∀ fd, acquired s j = some fd → s'.fds fd = s.fds fd

/-- A creation as a finite map from indices to descriptors performs it. -/
structure Created (s s' : FdState) (fd : Nat) (i : Int) : Prop where
  unused : acquired s i = none
  new_object : ∀ j, acquired s j ≠ some fd
  yields : acquired s' i = some fd
  others : OthersKept i s s'
  reuses : ∀ j : Int, 0 ≤ j → j < s.fdTable.length → acquired s j = none → i < s.fdTable.length
  closes_none : s'.closed = s.closed

/-- The removal of an index in use. -/
structure Freed (s s' : FdState) (fd : Nat) (i : Int) : Prop where
  gone : acquired s' i = none
  others : OthersKept i s s'
  closes : s'.closed = s.closed ++ (s.fds fd).vnode.toList

/-- The operation does to the table what it does to a finite map. -/
def FdOpOk (s : FdState) : FdOp → Prop
  | .create => ∃ fd i s', fdCreate true s = .ok (some (fd, i), s') ∧ Created s s' fd i
  | .free i =>
      match acquired s i with
      | none => fdFree i s = .ok (false, s)
      | some fd => ∃ s', fdFree i s = .ok (true, s') ∧ Freed s s' fd i
  | .use _ _ => True

section Calls

variable {s : FdState} {i : Int} {fd : Nat}

theorem acquireTable_free (hlock : s.fdTableLock = false) :
    s.acquireTable = .ok {s with fdTableLock := true} := by
  simp [FdState.acquireTable, hlock]

theorem acquireTable_held (hlock : s.fdTableLock = true) : s.acquireTable = .error .spin := by
  simp [FdState.acquireTable, hlock]

/-- Taking the table and giving it back. -/
theorem releaseTable_acquired (hlock : s.fdTableLock = false) :
    FdState.releaseTable {s with fdTableLock := true} = s := by
  cases s
  simp_all [FdState.releaseTable]

theorem fdAcquire_none (hlock : s.fdTableLock = false) (hget : s.get i = none) :
    fdAcquire i s = .ok (none, s) := by
  have hget' : FdState.get {s with fdTableLock := true} i = none := hget
  simp [fdAcquire, acquireTable_free hlock, bind, Except.bind, hget', pure, Except.pure,
    releaseTable_acquired hlock]

theorem fdAcquire_some (hlock : s.fdTableLock = false) (hget : s.get i = some fd)
    (hfree : (s.fds fd).fdLock = false) :
    fdAcquire i s = .ok (some fd, s.modifyFd fd fun f => {f with fdLock := true}) := by
  have hget' : FdState.get {s with fdTableLock := true} i = some fd := hget
  simp [fdAcquire, acquireTable_free hlock, bind, Except.bind, hget', pure, Except.pure,
    FdState.acquireFd, hfree, FdState.modifyFd, FdState.releaseTable, hlock]

theorem fdAcquire_held (hlock : s.fdTableLock = false) (hget : s.get i = some fd)
    (hheld : (s.fds fd).fdLock = true) : fdAcquire i s = .error .spin := by
  have hget' : FdState.get {s with fdTableLock := true} i = some fd := hget
  simp [fdAcquire, acquireTable_free hlock, bind, Except.bind, hget', FdState.acquireFd, hheld]

theorem fdRelease_none (hlock : s.fdTableLock = false) (hget : s.get i = none) :
    fdRelease i s = .ok (false, {s with fdTableLock := true}) := by
  have hget' : FdState.get {s with fdTableLock := true} i = none := hget
  simp [fdRelease, acquireTable_free hlock, bind, Except.bind, hget', pure, Except.pure]

theorem fdRelease_some (hlock : s.fdTableLock = false) (hget : s.get i = some fd) :
    fdRelease i s = .ok (true, s.releaseFd fd) := by
  have hget' : FdState.get {s with fdTableLock := true} i = some fd := hget
  simp [fdRelease, acquireTable_free hlock, bind, Except.bind, hget', pure, Except.pure,
    releaseTable_acquired hlock]

theorem fdRelease_locked (hlock : s.fdTableLock = true) : fdRelease i s = .error .spin := by
  simp [fdRelease, acquireTable_held hlock, bind, Except.bind]

theorem fdFree_none (hlock : s.fdTableLock = false) (hget : s.get i = none) :
    fdFree i s = .ok (false, s) := by
  have hget' : FdState.get {s with fdTableLock := true} i = none := hget
  simp [fdFree, acquireTable_free hlock, bind, Except.bind, hget', pure, Except.pure,
    releaseTable_acquired hlock]

theorem fdFree_referenced (hlock : s.fdTableLock = false) (hget : s.get i = some fd)
    (href : (s.fds fd).ref ≠ 0) : fdFree i s = .ok (true, s) := by
  have hget' : FdState.get {s with fdTableLock := true} i = some fd := hget
  simp [fdFree, acquireTable_free hlock, bind, Except.bind, hget', pure, Except.pure, href,
    releaseTable_acquired hlock]

theorem fdFree_unlocks (hlock : s.fdTableLock = false) (i : Int) :
    ∃ ok s', fdFree i s = .ok (ok, s') ∧ s'.fdTableLock = false := by
  cases hget : s.get i with
  | none => exact ⟨_, _, fdFree_none hlock hget, hlock⟩
  | some fd =>
      have hget' : FdState.get {s with fdTableLock := true} i = some fd := hget
      simp only [fdFree, acquireTable_free hlock, bind, Except.bind, hget']
      split <;> exact ⟨_, _, rfl, rfl⟩

theorem fdFree_locked (hlock : s.fdTableLock = true) : fdFree i s = .error .spin := by
  simp [fdFree, acquireTable_held hlock, bind, Except.bind]

/-- The state after a creation at the end of the table. -/
def appended (s : FdState) : FdState :=
  {s.modifyFd s.nextFd fun f => {f with ref := 1, fdLock := false, vnode := none} with
    fdTable := s.fdTable ++ [some s.nextFd], nextFd := s.nextFd + 1}

theorem fdCreate_full (hlock : s.fdTableLock = false) (hfull : none ∉ s.fdTable) :
    fdCreate true s = .ok (some (s.nextFd, s.fdTable.length), appended s) := by
  have hnone : s.fdTable.findIdx? Option.isNone = none := by
    rw [List.findIdx?_eq_none_iff]
    intro entry hentry
    cases entry with
    | none => exact absurd hentry hfull
    | some fd => rfl
  simp [fdCreate, FdState.acquireTable, hlock, hnone, bind, Except.bind, pure, Except.pure,
    FdState.modifyFd, FdState.releaseTable, appended, List.findIdx?_cons]

/-- With an empty slot the slot's index is returned, and the slot stays empty. -/
theorem fdCreate_hole (hlock : s.fdTableLock = false) (hhole : none ∈ s.fdTable) :
    ∃ (i : Int) (s' : FdState), fdCreate true s = .ok (some (s.nextFd, i), s') ∧ s'.get i = none ∧
      s'.fdTableLock = false ∧ s'.fdTable = s.fdTable ∧ 0 ≤ i := by
  cases hidx : s.fdTable.findIdx? Option.isNone with
  | none =>
      rw [List.findIdx?_eq_none_iff] at hidx
      exact absurd (hidx none hhole) (by simp)
  | some k =>
      obtain ⟨hk, hnone, -⟩ := List.findIdx?_eq_some_iff_getElem.mp hidx
      have hentry : s.fdTable[k]? = some none := by
        rw [List.getElem?_eq_getElem hk, Option.isNone_iff_eq_none.mp hnone]
      refine ⟨k, {s.modifyFd s.nextFd fun f => {f with ref := 1, fdLock := false, vnode := none} with
        nextFd := s.nextFd + 1}, ?_, ?_, hlock, rfl, Int.natCast_nonneg k⟩
      · simp [fdCreate, FdState.acquireTable, hlock, hidx, bind, Except.bind, pure, Except.pure,
          FdState.modifyFd, FdState.releaseTable]
      · simp [FdState.get, FdState.modifyFd, hentry]

theorem fdCreate_noMemory (hlock : s.fdTableLock = false) : fdCreate false s = .ok (none, s) := by
  simp [fdCreate, acquireTable_free hlock, bind, Except.bind, pure, Except.pure,
    releaseTable_acquired hlock]

end Calls

/-- What runs of the code keep true: no lock is held, every slot is taken, and the reference
count that `fd_create` sets never changes again. -/
structure FdInv (s : FdState) : Prop where
  unlocked : s.fdTableLock = false
  taken : ∀ entry ∈ s.fdTable, ∃ fd, entry = some fd ∧ fd < s.nextFd ∧
    (s.fds fd).ref = 1 ∧ (s.fds fd).fdLock = false

section Table

variable {s s' : FdState} {i : Int} {fd : Nat}

theorem FdState.get_eq_some (h : s.get i = some fd) :
    0 ≤ i ∧ i.toNat < s.fdTable.length ∧ some fd ∈ s.fdTable := by
  unfold FdState.get at h
  split at h
  · rename_i hi
    rw [Option.join_eq_some_iff] at h
    exact ⟨hi, (List.getElem?_eq_some_iff.mp h).1, List.mem_of_getElem? h⟩
  · cases h

theorem FdInv.of_get (hinv : FdInv s) (h : s.get i = some fd) :
    fd < s.nextFd ∧ (s.fds fd).ref = 1 ∧ (s.fds fd).fdLock = false := by
  obtain ⟨fd', heq, hfd⟩ := hinv.taken _ (FdState.get_eq_some h).2.2
  cases heq
  exact hfd

/-- With every slot taken an index inside the bounds is in use. -/
theorem FdInv.get_isSome (hinv : FdInv s) (hlo : 0 ≤ i) (hhi : i < s.fdTable.length) :
    (s.get i).isSome := by
  have hlt : i.toNat < s.fdTable.length := by omega
  obtain ⟨fd, heq, -⟩ := hinv.taken _ (List.getElem_mem hlt)
  simp [FdState.get, hlo, List.getElem?_eq_getElem hlt, heq]

theorem FdInv.acquired_eq (hinv : FdInv s) (i : Int) : acquired s i = s.get i := by
  unfold acquired
  cases hget : s.get i with
  | none => rw [fdAcquire_none hinv.unlocked hget]
  | some fd => rw [fdAcquire_some hinv.unlocked hget (hinv.of_get hget).2.2]

theorem FdInv.fdCreate_eq (hinv : FdInv s) :
    fdCreate true s = .ok (some (s.nextFd, s.fdTable.length), appended s) := by
  refine fdCreate_full hinv.unlocked fun hmem => ?_
  obtain ⟨fd, heq, -⟩ := hinv.taken none hmem
  cases heq

theorem FdInv.fdFree_eq (hinv : FdInv s) (i : Int) : fdFree i s = .ok ((s.get i).isSome, s) := by
  cases hget : s.get i with
  | none => exact fdFree_none hinv.unlocked hget
  | some fd =>
      have href : (s.fds fd).ref ≠ 0 := by simp [(hinv.of_get hget).2.1]
      exact fdFree_referenced hinv.unlocked hget href

theorem FdInv.appended (hinv : FdInv s) : FdInv (appended s) where
  unlocked := hinv.unlocked
  taken entry hentry := by
    simp only [Fs.appended, List.mem_append, List.mem_singleton] at hentry
    rcases hentry with hold | rfl
    · obtain ⟨fd, rfl, hlt, href, hfree⟩ := hinv.taken entry hold
      refine ⟨fd, rfl, Nat.lt_succ_of_lt hlt, ?_⟩
      have hne : fd ≠ s.nextFd := Nat.ne_of_lt hlt
      simp [Fs.appended, FdState.modifyFd, hne, href, hfree]
    · exact ⟨s.nextFd, rfl, Nat.lt_succ_self _, by simp [Fs.appended, FdState.modifyFd]⟩

theorem appended_get_new (s : FdState) : (appended s).get s.fdTable.length = some s.nextFd := by
  simp [FdState.get, appended]

theorem appended_get_of_ne (s : FdState) (hne : i ≠ s.fdTable.length) :
    (appended s).get i = s.get i := by
  unfold FdState.get
  split
  · have hout : i.toNat ≠ s.fdTable.length := by omega
    simp only [appended]
    rcases Nat.lt_or_ge i.toNat s.fdTable.length with hlt | hge
    · rw [List.getElem?_append_left hlt]
    · rw [List.getElem?_eq_none (by simp; omega), List.getElem?_eq_none hge]
  · rfl

theorem FdInv.created (hinv : FdInv s) : Created s (Fs.appended s) s.nextFd s.fdTable.length where
  unused := by
    rw [hinv.acquired_eq]
    simp [FdState.get]
  new_object j hj := by
    rw [hinv.acquired_eq] at hj
    exact Nat.lt_irrefl _ (hinv.of_get hj).1
  yields := by rw [hinv.appended.acquired_eq, appended_get_new]
  others j hne := by
    rw [hinv.appended.acquired_eq, hinv.acquired_eq, appended_get_of_ne s hne]
    refine ⟨rfl, fun fd hfd => ?_⟩
    have hold : fd ≠ s.nextFd := Nat.ne_of_lt (hinv.of_get hfd).1
    simp [Fs.appended, FdState.modifyFd, hold]
  reuses j hlo hhi hunused := by
    rw [hinv.acquired_eq] at hunused
    have hused := hinv.get_isSome hlo hhi
    simp [hunused] at hused
  closes_none := rfl

/-- One operation keeps the invariant. -/
theorem FdInv.step (hinv : FdInv s) (op : FdOp) : ∃ s', op.call s = .ok s' ∧ FdInv s' := by
  cases op with
  | create => exact ⟨_, by simp [FdOp.call, hinv.fdCreate_eq, Except.map], hinv.appended⟩
  | free i => exact ⟨s, by simp [FdOp.call, hinv.fdFree_eq, Except.map], hinv⟩
  | use fd vnode =>
      refine ⟨_, rfl, hinv.unlocked, fun entry hentry => ?_⟩
      obtain ⟨fd', heq, hlt, href, hfree⟩ := hinv.taken entry hentry
      refine ⟨fd', heq, hlt, ?_⟩
      by_cases hfd : fd' = fd
      · subst hfd
        simp [FdState.modifyFd, href, hfree]
      · simp [FdState.modifyFd, hfd, href, hfree]

theorem FdInv.run (hinv : FdInv s) (ops : List FdOp) : ∃ s', fdRun s ops = .ok s' ∧ FdInv s' := by
  induction ops generalizing s with
  | nil => exact ⟨s, rfl, hinv⟩
  | cons op ops ih =>
      obtain ⟨mid, hmid, hinv'⟩ := hinv.step op
      obtain ⟨s', hs', hfin⟩ := ih hinv'
      exact ⟨s', by rw [fdRun, hmid]; exact hs', hfin⟩

/-- An operation acts as on a finite map unless it frees an index in use: that leaves the
index as it was. -/
theorem FdInv.fdOpOk_iff (hinv : FdInv s) (op : FdOp) :
    FdOpOk s op ↔ ∀ i, op = .free i → acquired s i = none := by
  cases op with
  | create =>
      refine ⟨fun _ i heq => (nomatch heq), fun _ => ?_⟩
      exact ⟨_, _, _, hinv.fdCreate_eq, hinv.created⟩
  | use fd vnode => exact ⟨fun _ i heq => (nomatch heq), fun _ => trivial⟩
  | free i =>
      constructor
      · intro hok j hj
        cases hj
        cases hacq : acquired s i with
        | none => rfl
        | some fd =>
            rw [FdOpOk, hacq] at hok
            obtain ⟨s', hs', hfreed⟩ := hok
            rw [hinv.fdFree_eq] at hs'
            simp only [Except.ok.injEq, Prod.mk.injEq] at hs'
            have hgone := hfreed.gone
            rw [← hs'.2, hacq] at hgone
            cases hgone
      · intro hunused
        have hnone := hunused i rfl
        rw [FdOpOk, hnone, hinv.fdFree_eq, ← hinv.acquired_eq, hnone]
        rfl

theorem fdInv_init (fds : Nat → Fd) : FdInv (fdTableInit fds) := ⟨rfl, by simp [fdTableInit]⟩

end Table

/-- Along every run on a new table, each operation acts as on a finite map from indices to
descriptors exactly if no index in use is ever freed: `fd_free` waits for a reference count of
zero, which nothing ever lowers it to. -/
theorem fd_table_refines_iff (fds : Nat → Fd) (ops : List FdOp) :
    (∀ pre op, pre ++ [op] <+: ops →
      ∃ s, fdRun (fdTableInit fds) pre = .ok s ∧ FdOpOk s op) ↔
    ∀ pre i, pre ++ [.free i] <+: ops →
      ∀ s, fdRun (fdTableInit fds) pre = .ok s → acquired s i = none := by
  constructor
  · intro hok pre i hpre s hs
    obtain ⟨s', hs', hop⟩ := hok pre _ hpre
    obtain ⟨s'', hs'', hinv⟩ := (fdInv_init fds).run pre
    rw [hs] at hs' hs''
    cases hs'
    cases hs''
    exact (hinv.fdOpOk_iff _).mp hop i rfl
  · intro hunused pre op hpre
    obtain ⟨s, hs, hinv⟩ := (fdInv_init fds).run pre
    refine ⟨s, hs, (hinv.fdOpOk_iff op).mpr fun i heq => ?_⟩
    subst heq
    exact hunused pre i hpre s hs

/-- A descriptor that is created and freed is still there. -/
theorem fd_free_keeps_descriptor :
    ¬ ∀ pre op, pre ++ [op] <+: [FdOp.create, FdOp.free 0] →
      ∃ s, fdRun (fdTableInit fun _ => ⟨false, none, 0, 0, 0, 0⟩) pre = .ok s ∧ FdOpOk s op := by
  intro hok
  obtain ⟨s, hs, hop⟩ := hok [.create] (.free 0) (List.prefix_refl _)
  obtain ⟨s', hs', hinv⟩ := (fdInv_init fun _ => ⟨false, none, 0, 0, 0, 0⟩).run [.create]
  rw [hs] at hs'
  cases hs'
  have hnone := (hinv.fdOpOk_iff _).mp hop 0 rfl
  have hused : acquired s 0 = some 0 := by
    cases hs
    rfl
  rw [hused] at hnone
  cases hnone

end Tellurium.Fs
