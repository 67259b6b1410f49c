import Tellurium.Syscalls.Openat

/-!
Whether the calls on file descriptors leave the locks as they found them. They do so on some
paths only, and `FileCall.Releases` says on which: a call that never comes back out of the file
system holds its locks forever, and so does one that forgets them on its way out.
-/

namespace Tellurium.Syscalls

open Tellurium.Fs
open Tellurium.Vfs (Outcome Stat vnodePathMax vfsCloseRef MissingUnmounted Resolves
  vfsPathToNode_fault_iff vfsPathToNode_done_iff)

/-- The calls with their arguments. `openat` has the answers of the file system and of `kmalloc`
and what its unset variable holds, `read` the operation of the vnode. -/
inductive FileCall where
  | fdCreate (alloc : Bool)
  | fdFree (fdI : Int)
  | fdRelease (fdI : Int)
  | openat (vfs : OpenAnswers) (alloc : Bool) (junk : Option Nat) (dirfd : Int)
      (path : Option (List Char)) (flags : Nat)
  | read (op : ReadOp) (fd : Int) (buf : Option (Nat → UInt8)) (count : Nat)
  | lseek (fd : Int) (offset : Nat) (whence : Int)

def FileCall.run (v : Vnodes) (s : OpenState) : FileCall → Except Halt OpenState
  | .fdCreate alloc => (Fs.fdCreate alloc s.files).map fun r => ⟨r.2, s.vRefCount⟩
  | .fdFree fdI => fdFreeClose v.mounted fdI s
  | .fdRelease fdI => (Fs.fdRelease fdI s.files).map fun r => ⟨r.2, s.vRefCount⟩
  | .openat vfs alloc junk dirfd path flags =>
      (syscallOpenat ⟨v, vfs, alloc, junk⟩ dirfd path flags s).map OpenResult.state
  | .read op fd buf count =>
      (syscallRead v.mounted op fd buf count s.files).map fun r => ⟨r.2.2, s.vRefCount⟩
  | .lseek fd offset whence =>
      (syscallLseek v.stat fd offset whence s.files).map fun r => ⟨r.2, s.vRefCount⟩

def FileCall.isSyscall : FileCall → Bool
  | .fdCreate _ | .fdFree _ | .fdRelease _ => false
  | .openat .. | .read .. | .lseek .. => true

/-- The call returns with the table unlocked, and a system call with every lock of a
descriptor as it found it. -/
def Balanced (v : Vnodes) (s : OpenState) (call : FileCall) : Prop :=
  ∃ s', call.run v s = .ok s' ∧ s'.files.fdTableLock = false ∧
    (call.isSyscall = true → ∀ fd, some fd ∈ s.files.fdTable →
      (s'.files.fds fd).fdLock = (s.files.fds fd).fdLock)

/-- `openat` asks for a file that it creates. -/
def AsksCreate (w : OpenWorld) (path : List Char) (flags vbase : Nat) : Prop :=
  w.vfs.vfsOpen vbase path = .err .nodeMissing ∧ flags &&& oCreat ≠ 0

/-- `openat` comes to its type test with `vnode`. -/
def Finds (w : OpenWorld) (path : List Char) (flags vbase vnode : Nat) : Prop :=
  w.vfs.vfsOpen vbase path = .done vnode ∨
    (AsksCreate w path flags vbase ∧ (∃ u, w.vfs.vfsCreate vbase path = .done u) ∧
      w.vfs.vfsReopen vbase path = .done vnode)

/-- The lookup of `openat` follows no null pointer: there is a base if one is looked at, the
calls into the file system come back, and a vnode that fails the type test can be closed. -/
structure LookupReturns (w : OpenWorld) (vRefCount : Nat → UInt64) (path : List Char) (flags : Nat)
    (vRelative : Option Nat) : Prop where
  base : openatBase w path vRelative = none → path = [] ∨ path.length > vnodePathMax
  opens : ∀ vbase, openatBase w path vRelative = some vbase → w.vfs.vfsOpen vbase path ≠ .fault
  creates : ∀ vbase, openatBase w path vRelative = some vbase → AsksCreate w path flags vbase →
    w.vfs.vfsCreate vbase path ≠ .fault ∧
      ∀ u, w.vfs.vfsCreate vbase path = .done u → w.vfs.vfsReopen vbase path ≠ .fault
  closes : ∀ vbase, openatBase w path vRelative = some vbase → ∀ vnode,
    Finds w path flags vbase vnode → unfit w flags vnode = true →
      vRefCount vnode ≠ 0 ∨ w.mounted vnode = true

/-- `openat` has a slot for its descriptor at the end of the table, its `dirfd` is `AT_FDCWD`,
the new descriptor itself, or a descriptor whose lock is free, and the lookup from there comes
back. -/
def OpenatReleases (w : OpenWorld) (s : OpenState) (dirfd : Int) (path : List Char)
    (flags : Nat) : Prop :=
  none ∉ s.files.fdTable ∧ ∃ vRelative, startOf w dirfd s.files = some vRelative ∧
    LookupReturns w s.vRefCount path flags vRelative

/-- When a call gives back what it takes. -/
def FileCall.Releases (v : Vnodes) (s : OpenState) : FileCall → Prop
  | .fdCreate _ => True
  | .fdFree fdI => ∀ vnode, freedVnode s.files fdI = some vnode →
      s.vRefCount vnode = 1 → v.mounted vnode = true
  | .fdRelease fdI => s.files.get fdI ≠ none
  | .openat vfs alloc junk dirfd path flags =>
      alloc = true → ∀ p, path = some p → OpenatReleases ⟨v, vfs, alloc, junk⟩ s dirfd p flags
  | .read op fd buf count => ∀ b, buf = some b → ∀ d, s.files.get fd = some d →
      (s.files.fds d).fdLock = false ∧ ∀ vnode, (s.files.fds d).vnode = some vnode →
        v.mounted vnode = true ∧ op vnode b count (s.files.fds d).offset ≠ none
  | .lseek fd _ _ => ∀ d, s.files.get fd = some d → (s.files.fds d).fdLock = false ∧
      ∃ vnode, (s.files.fds d).vnode = some vnode ∧ sIsSock (v.stat vnode).stMode = false ∧
        sIsFifo (v.stat vnode).stMode = false

section Locks

variable {v : Vnodes} {w : OpenWorld} {s : OpenState} {vRefCount : Nat → UInt64} {fdI dirfd : Int}
  {fd d flags : Nat} {path : List Char} {vRelative : Option Nat}

theorem vfsCloseRef_eq_none_iff {mounted : Nat → Bool} {vnode : Nat} :
    vfsCloseRef mounted vRefCount vnode = none ↔ vRefCount vnode = 1 ∧ mounted vnode = false := by
  have hlast : vRefCount vnode - 1 = 0 ↔ vRefCount vnode = 1 := by
    rw [UInt64.sub_eq_iff_eq_add, UInt64.zero_add]
  simp [vfsCloseRef, hlast]

/-- What the lookup gives, against the condition on the answers. -/
theorem lookupReturns_iff : LookupReturns w vRefCount path flags vRelative ↔
    ∃ vnode created, LooksUp w path flags vRelative vnode created ∧
      Discards w vRefCount flags vnode := by
  simp only [LooksUp, openVnode, bind, Except.bind]
  cases hbase : openatBase w path vRelative with
  | none =>
      have hcond : LookupReturns w vRefCount path flags vRelative ↔
          path = [] ∨ path.length > vnodePathMax :=
        ⟨fun h => h.base hbase, fun h => ⟨fun _ => h, by simp [hbase], by simp [hbase],
          by simp [hbase]⟩⟩
      rw [hcond, baseOrFault]
      by_cases hlong : path.length > vnodePathMax
      · simp [hlong, pure, Except.pure, Discards]
      · by_cases hempty : path = []
        · simp [hempty, pure, Except.pure, Discards, vnodePathMax]
        · simp [hlong, hempty]
  | some vbase =>
      have hcond : LookupReturns w vRefCount path flags vRelative ↔
          w.vfs.vfsOpen vbase path ≠ .fault ∧
            (AsksCreate w path flags vbase → w.vfs.vfsCreate vbase path ≠ .fault ∧
              ∀ u, w.vfs.vfsCreate vbase path = .done u → w.vfs.vfsReopen vbase path ≠ .fault) ∧
            ∀ vnode, Finds w path flags vbase vnode → Discards w vRefCount flags (some vnode) := by
        constructor
        · intro h
          exact ⟨h.opens _ hbase, h.creates _ hbase, h.closes _ hbase⟩
        · rintro ⟨hopens, hcreates, hcloses⟩
          constructor <;> simp only [hbase, Option.some.injEq, forall_eq', reduceCtorEq,
            false_implies]
          · exact hopens
          · exact hcreates
          · exact hcloses
      rw [hcond]
      simp only [baseOrFault]
      cases hopen : w.vfs.vfsOpen vbase path with
      | fault => simp [throw, throwThe, MonadExceptOf.throw]
      | done vnode => simp [AsksCreate, Finds, hopen, pure, Except.pure]
      | err err =>
          by_cases hcreat : err = .nodeMissing ∧ flags &&& oCreat ≠ 0
          · have hasks : AsksCreate w path flags vbase := ⟨hcreat.1 ▸ hopen, hcreat.2⟩
            simp only [if_pos hcreat, Finds, hasks, hopen]
            cases w.vfs.vfsCreate vbase path with
            | fault => simp [throw, throwThe, MonadExceptOf.throw]
            | err code => simp [pure, Except.pure, Discards]
            | done u =>
                cases w.vfs.vfsReopen vbase path <;>
                  simp [throw, throwThe, MonadExceptOf.throw, pure, Except.pure, Discards]
          · have hasks : ¬ AsksCreate w path flags vbase := by
              rintro ⟨hmissing, hflag⟩
              cases hopen.symm.trans hmissing
              exact hcreat ⟨rfl, hflag⟩
            simp [if_neg hcreat, Finds, hasks, hopen, pure, Except.pure, Discards]

theorem openat_balanced_iff {vfs : OpenAnswers} {junk : Option Nat}
    (hlock : s.files.fdTableLock = false) (hfresh : some s.files.nextFd ∉ s.files.fdTable) :
    Balanced v s (.openat vfs true junk dirfd (some path) flags) ↔
      OpenatReleases ⟨v, vfs, true, junk⟩ s dirfd path flags := by
  have hrun : Balanced v s (.openat vfs true junk dirfd (some path) flags) ↔
      ∃ r, syscallOpenat ⟨v, vfs, true, junk⟩ dirfd (some path) flags s = .ok r ∧
        r.state.files.fdTableLock = false ∧ ∀ fd, some fd ∈ s.files.fdTable →
          (r.state.files.fds fd).fdLock = (s.files.fds fd).fdLock := by
    rw [Balanced, FileCall.run]
    cases syscallOpenat ⟨v, vfs, true, junk⟩ dirfd (some path) flags s <;>
      simp [Except.map, FileCall.isSyscall]
  rw [hrun, OpenatReleases]
  by_cases hhole : none ∈ s.files.fdTable
  · refine iff_of_false ?_ fun h => h.1 hhole
    rintro ⟨r, hr, htable, -⟩
    rw [(syscallOpenat_hole rfl hlock hhole hr).1] at htable
    cases htable
  · cases hstart : startOf ⟨v, vfs, true, junk⟩ dirfd s.files with
    | none =>
        refine iff_of_false ?_ (by simp)
        rintro ⟨r, hr, htable, -⟩
        have hheld := ((syscallOpenat_unstarted rfl hlock hhole hfresh hstart).post hr).1
        rw [hheld] at htable
        cases htable
    | some vRelative =>
        have hreturns : Returns _ _ (syscallOpenat ⟨v, vfs, true, junk⟩ dirfd (some path) flags s) :=
          syscallOpenat_started rfl hlock hhole hfresh hstart
        simp only [hhole, not_false_eq_true, Option.some.injEq, exists_eq_left', true_and,
          lookupReturns_iff]
        constructor
        · rintro ⟨r, hr, -⟩
          exact hreturns.only r hr
        · intro hcond
          obtain ⟨r, hr, vnode, created, -, hended⟩ := hreturns.always hcond
          exact ⟨r, hr, hended.unlocked, hended.locks⟩

theorem fdFree_balanced_iff (hlock : s.files.fdTableLock = false) :
    Balanced v s (.fdFree fdI) ↔ ∀ vnode, freedVnode s.files fdI = some vnode →
      s.vRefCount vnode = 1 → v.mounted vnode = true := by
  obtain ⟨ok, files, hfree, hunlocked⟩ := fdFree_unlocks hlock fdI
  simp only [Balanced, FileCall.run, fdFreeClose, hfree, bind, Except.bind]
  cases freedVnode s.files fdI with
  | none =>
      exact iff_of_true ⟨_, rfl, hunlocked, fun h => absurd h Bool.false_ne_true⟩ (by simp)
  | some vnode =>
      simp only [closeVnode]
      cases hclose : vfsCloseRef v.mounted s.vRefCount vnode with
      | none =>
          obtain ⟨hlast, hunmounted⟩ := vfsCloseRef_eq_none_iff.mp hclose
          refine iff_of_false (by simp) fun hmounted => ?_
          rw [hmounted vnode rfl hlast] at hunmounted
          cases hunmounted
      | some refs =>
          refine iff_of_true ⟨_, rfl, hunlocked, fun h => absurd h Bool.false_ne_true⟩ ?_
          rintro vnode' ⟨⟩ hlast
          by_contra hunmounted
          rw [vfsCloseRef_eq_none_iff.mpr ⟨hlast, by simpa using hunmounted⟩] at hclose
          cases hclose

/-- Giving back a descriptor that was free before. -/
theorem releaseFd_restores {t u : FdState} (hfree : (t.fds fd).fdLock = false)
    (hothers : ∀ g, g ≠ fd → (u.fds g).fdLock = (t.fds g).fdLock) (g : Nat) :
    ((u.releaseFd fd).fds g).fdLock = (t.fds g).fdLock := by
  rw [releaseFd_fdLock]
  split
  · subst_vars
    exact hfree.symm
  · exact hothers g ‹_›

theorem read_balanced_iff {op : ReadOp} {buf : Option (Nat → UInt8)} {count : Nat}
    (hlock : s.files.fdTableLock = false) :
    Balanced v s (.read op fdI buf count) ↔
      (FileCall.read op fdI buf count).Releases v s := by
  rw [FileCall.Releases]
  cases buf with
  | none => exact iff_of_true ⟨s, rfl, hlock, fun _ _ _ => rfl⟩ (by simp)
  | some buf =>
      simp only [Option.some.injEq, forall_eq']
      cases hget : s.files.get fdI with
      | none =>
          refine iff_of_true ⟨s, ?_, hlock, fun _ _ _ => rfl⟩ (by simp)
          simp only [FileCall.run, syscallRead, fdAcquire_none hlock hget, bind, Except.bind, pure,
            Except.pure, Except.map]
      | some d =>
          simp only [Option.some.injEq, forall_eq']
          cases hheld : (s.files.fds d).fdLock with
          | true =>
              refine iff_of_false ?_ (by simp)
              rintro ⟨s', hrun, -⟩
              simp only [FileCall.run, syscallRead, fdAcquire_held hlock hget hheld, bind,
                Except.bind] at hrun
              cases hrun
          | false =>
              obtain ⟨u, hu, hacquired⟩ := fdAcquire_free hlock hget hheld
              have hulock : u.fdTableLock = false := hacquired.tableLock.trans hlock
              have hrel : fdRelease fdI u = .ok (true, u.releaseFd d) :=
                fdRelease_some hulock ((hacquired.get fdI).trans hget)
              have hlocks := @releaseFd_restores d s.files u hheld fun g hne => by
                rw [hacquired.others g hne]
              simp only [Balanced, FileCall.run, syscallRead, hu, bind, Except.bind, hacquired.self]
              cases hvnode : (s.files.fds d).vnode with
              | none =>
                  simp only [vfsRead, hrel]
                  exact iff_of_true ⟨⟨u.releaseFd d, s.vRefCount⟩, rfl, hulock, fun _ g _ => hlocks g⟩
                    ⟨trivial, by simp⟩
              | some vnode =>
                  simp only [vfsRead, Option.some.injEq, forall_eq', true_and]
                  cases hmounted : v.mounted vnode with
                  | false =>
                      refine iff_of_false ?_ (by simp)
                      rintro ⟨s', hrun, -⟩
                      cases hrun
                  | true =>
                      cases hop : op vnode buf count (s.files.fds d).offset with
                      | none =>
                          refine iff_of_false ?_ (by simp)
                          rintro ⟨s', hrun, -⟩
                          cases hrun
                      | some answer =>
                          simp only [if_true, hrel]
                          refine iff_of_true ⟨_, rfl, hulock, fun _ g _ => ?_⟩ (by simp)
                          dsimp only
                          rw [modifyFd_fds]
                          split
                          · subst_vars
                            exact hlocks _
                          · exact hlocks g

theorem lseek_balanced_iff {offset : Nat} {whence : Int} (hlock : s.files.fdTableLock = false) :
    Balanced v s (.lseek fdI offset whence) ↔
      (FileCall.lseek fdI offset whence).Releases v s := by
  rw [FileCall.Releases]
  cases hget : s.files.get fdI with
  | none =>
      refine iff_of_true ⟨s, ?_, hlock, fun _ _ _ => rfl⟩ (by simp)
      simp only [FileCall.run, syscallLseek, fdAcquire_none hlock hget, bind, Except.bind, pure,
        Except.pure, Except.map]
  | some d =>
      simp only [Option.some.injEq, forall_eq']
      cases hheld : (s.files.fds d).fdLock with
      | true =>
          refine iff_of_false ?_ (by simp)
          rintro ⟨s', hrun, -⟩
          simp only [FileCall.run, syscallLseek, fdAcquire_held hlock hget hheld, bind,
            Except.bind] at hrun
          cases hrun
      | false =>
          obtain ⟨u, hu, hacquired⟩ := fdAcquire_free hlock hget hheld
          have hvnode : (u.fds d).vnode = (s.files.fds d).vnode := by rw [hacquired.self]
          simp only [Balanced, FileCall.run, syscallLseek, hu, bind, Except.bind, hvnode]
          cases hv : (s.files.fds d).vnode with
          | none =>
              refine iff_of_false ?_ (by simp)
              rintro ⟨s', hrun, -⟩
              cases hrun
          | some vnode =>
              simp only [Option.some.injEq, exists_eq_left', true_and]
              by_cases hpipe : (sIsSock (v.stat vnode).stMode || sIsFifo (v.stat vnode).stMode) = true
              · rw [if_pos hpipe]
                refine iff_of_false ?_ ?_
                · rintro ⟨s', hrun, -, hlocks⟩
                  cases hrun
                  have hkept := hlocks rfl d (FdState.get_eq_some hget).2.2
                  rw [hacquired.self, hheld] at hkept
                  cases hkept
                · rintro ⟨hsock, hfifo⟩
                  simp [hsock, hfifo] at hpipe
              · rw [if_neg hpipe]
                refine iff_of_true ?_ (by simpa using hpipe)
                obtain ⟨t, ht⟩ : ∃ t, u.modifyFd d (fun f => {f with
                    offset := seekOffset whence offset f.offset (v.stat vnode).stSize}) = t :=
                  ⟨_, rfl⟩
                have htlock : t.fdTableLock = false := ht ▸ hacquired.tableLock.trans hlock
                have hrel : fdRelease fdI t = .ok (true, t.releaseFd d) :=
                  fdRelease_some htlock (ht ▸ (hacquired.get fdI).trans hget)
                have hlocks := @releaseFd_restores d s.files t hheld fun g hne => by
                  rw [← ht, modifyFd_fds_of_ne _ hne, hacquired.others g hne]
                simp only [ht, hrel]
                exact ⟨⟨t.releaseFd d, s.vRefCount⟩, rfl, htlock, fun _ g _ => hlocks g⟩

theorem fdCreate_unlocks {t : FdState} (hlock : t.fdTableLock = false) (alloc : Bool) :
    ∃ r t', fdCreate alloc t = .ok (r, t') ∧ t'.fdTableLock = false := by
  cases alloc with
  | false => exact ⟨_, _, fdCreate_noMemory hlock, hlock⟩
  | true =>
      by_cases hhole : none ∈ t.fdTable
      · obtain ⟨i, t', ht', -, hlock', -⟩ := fdCreate_hole hlock hhole
        exact ⟨_, t', ht', hlock'⟩
      · exact ⟨_, _, fdCreate_full hlock hhole, hlock⟩

end Locks

/-- A call started with the table unlocked comes back with the locks as it found them exactly if
it takes none of the paths that forget one (the release of a missing descriptor, a seek on a
socket or pipe, `openat` where it needs such a release) and every call it makes into the file
system comes back. -/
theorem lock_balance_iff {v : Vnodes} {s : OpenState} (hlock : s.files.fdTableLock = false)
    (hfresh : some s.files.nextFd ∉ s.files.fdTable) (call : FileCall) :
    Balanced v s call ↔ call.Releases v s := by
  cases call with
  | fdCreate alloc =>
      obtain ⟨r, t, ht, htable⟩ := fdCreate_unlocks hlock alloc
      refine iff_of_true ⟨⟨t, s.vRefCount⟩, ?_, htable, fun h => absurd h Bool.false_ne_true⟩ trivial
      rw [FileCall.run, ht]
      rfl
  | fdFree i => exact fdFree_balanced_iff hlock
  | fdRelease i =>
      cases hget : s.files.get i with
      | none =>
          refine iff_of_false ?_ (by simp [FileCall.Releases, hget])
          rintro ⟨s', hrun, htable, -⟩
          rw [FileCall.run, fdRelease_none hlock hget] at hrun
          cases hrun
          cases htable
      | some fd =>
          refine iff_of_true ⟨⟨s.files.releaseFd fd, s.vRefCount⟩, ?_, hlock,
            fun h => absurd h Bool.false_ne_true⟩ (by simp [FileCall.Releases, hget])
          rw [FileCall.run, fdRelease_some hlock hget]
          rfl
  | openat vfs alloc junk dirfd path flags =>
      cases path with
      | none => exact iff_of_true ⟨s, rfl, hlock, fun _ _ _ => rfl⟩ fun _ p hp => absurd hp (by simp)
      | some path =>
          cases alloc with
          | false =>
              refine iff_of_true ⟨s, ?_, hlock, fun _ _ _ => rfl⟩ fun h =>
                absurd h Bool.false_ne_true
              simp only [FileCall.run, syscallOpenat, fdCreate_noMemory hlock, bind, Except.bind,
                pure, Except.pure, Except.map]
          | true =>
              simp only [FileCall.Releases, Option.some.injEq, forall_eq', forall_const]
              exact openat_balanced_iff hlock hfresh
  | read op fd buf count => exact read_balanced_iff hlock
  | lseek fd offset whence => exact lseek_balanced_iff hlock

/-- Regular files of a mounted file system. -/
def regularFiles : Vnodes := ⟨fun _ => ⟨0o100000, 4096, 1, 4096⟩, fun _ => true⟩

theorem lock_balance_iff_seek :
    Balanced regularFiles ⟨oneFile, fun _ => 1⟩ (.lseek 0 5 seekSet) := by
  apply (lock_balance_iff rfl (by decide) _).mpr
  intro d _
  exact ⟨rfl, 1, rfl, by decide, by decide⟩

/-- A file system in which every path leads to vnode 1. -/
def oneVnode : OpenAnswers where
  root := 0
  cwd := 0
  vfsOpen _ _ := .done 1
  vfsCreate _ _ := .done ()
  vfsReopen _ _ := .done 1

/-- `openat` relative to a descriptor that does not exist leaves the table locked. -/
theorem openat_missing_dirfd_locks_table :
    ¬ Balanced regularFiles ⟨oneFile, fun _ => 1⟩
      (.openat oneVnode true none 7 (some ['f']) 0) := by
  rintro ⟨s', hrun, hlock, -⟩
  cases hrun
  cases hlock

/-- In a tree, the lookup of a short path comes back unless a name is missing in a directory
without operations, or a vnode without operations has to be closed again. -/
theorem lookupReturns_tree_iff {w : OpenWorld} {tree : Vfs.State} {vRefCount : Nat → UInt64}
    {path : List Char} {flags cwd vbase : Nat} {vRelative : Option Nat}
    (hvfs : w.vfs = treeAnswers tree cwd) (hcreat : flags &&& oCreat = 0)
    (hlen : path.length < vnodePathMax) (hbase : openatBase w path vRelative = some vbase) :
    LookupReturns w vRefCount path flags vRelative ↔
      ¬ MissingUnmounted tree vbase path ∧
        ∀ vnode, Resolves tree vbase path vnode → unfit w flags vnode = true →
          vRefCount vnode ≠ 0 ∨ w.mounted vnode = true := by
  have hopen : w.vfs.vfsOpen vbase path = Vfs.vfsPathToNode tree vbase path := by
    rw [hvfs]
    rfl
  have hasks : ¬ AsksCreate w path flags vbase := fun h => h.2 hcreat
  have hfinds : ∀ vnode, Finds w path flags vbase vnode ↔ Resolves tree vbase path vnode := by
    intro vnode
    rw [← vfsPathToNode_done_iff hlen, Finds, hopen]
    simp [hasks]
  rw [← vfsPathToNode_fault_iff hlen, ← hopen]
  constructor
  · intro h
    exact ⟨h.opens vbase hbase, fun vnode hnode => h.closes vbase hbase vnode ((hfinds vnode).mpr hnode)⟩
  · rintro ⟨hopens, hcloses⟩
    constructor
    · simp [hbase]
    · intro base h
      cases hbase.symm.trans h
      exact hopens
    · intro base h
      cases hbase.symm.trans h
      exact fun h => absurd h hasks
    · intro base h vnode hnode
      cases hbase.symm.trans h
      exact hcloses vnode ((hfinds vnode).mp hnode)

end Tellurium.Syscalls
