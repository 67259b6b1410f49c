import Tellurium.Syscalls.Files

/-!
What `openat` does (`kernel/syscalls/open.c`), case by case. With a slot for the new descriptor
and a start for the path, the call ends as its lookup does; without the start it comes to its
failure label and leaves the table locked; and without the slot it never gives the table back.
-/

namespace Tellurium.Syscalls

open Tellurium.Fs
open Tellurium.Vfs (VfsCode Outcome vnodePathMax vfsOpenRef vfsCloseRef vfsCloseRef_vfsOpenRef)

/-- The call returns exactly if `cond`, and then what `post` says. -/
structure Returns (cond : Prop) (post : OpenResult → Prop) (outcome : Except Halt OpenResult) :
    Prop where
  always : cond → ∃ r, outcome = .ok r ∧ post r
  only : ∀ r, outcome = .ok r → cond

theorem Returns.post {cond : Prop} {post : OpenResult → Prop} {outcome : Except Halt OpenResult}
    (h : Returns cond post outcome) {r : OpenResult} (hr : outcome = .ok r) : post r := by
  obtain ⟨r', hr', hpost⟩ := h.always (h.only r hr)
  cases hr.symm.trans hr'
  exact hpost

/-- The lookup found nothing that may be opened. -/
def refuses (w : OpenWorld) (flags : Nat) : Option Nat → Bool
  | none => true
  | some vnode => unfit w flags vnode

/-- If the vnode may not be opened, closing it again comes back. -/
def Discards (w : OpenWorld) (vRefCount : Nat → UInt64) (flags : Nat) : Option Nat → Prop
  | none => True
  | some vnode => unfit w flags vnode = true → vRefCount vnode ≠ 0 ∨ w.mounted vnode = true

section Locks

variable {w : OpenWorld} {s t u : FdState} {vRefCount : Nat → UInt64} {fdI dirfd : Int}
  {fd d flags : Nat} {path : List Char} {vRelative vnode : Option Nat} {created : Bool}

/-- The table is free and the lock of `g` is held exactly if it was and `g` is not released. -/
structure Gave (released : Nat → Prop) (s s' : FdState) : Prop where
  table : s'.fdTableLock = false
  locks : ∀ g, ((s'.fds g).fdLock = true ↔ (s.fds g).fdLock = true ∧ ¬ released g)

theorem releaseDirfd_spec (hlock : s.fdTableLock = false)
    (hdir : dirfd = atFdcwd ∨ s.get dirfd ≠ none) :
    ∃ s', releaseDirfd dirfd s = .ok s' ∧
      Gave (fun g => dirfd ≠ atFdcwd ∧ s.get dirfd = some g) s s' := by
  unfold releaseDirfd
  rcases hdir with rfl | hsome
  · exact ⟨s, by simp, hlock, by simp⟩
  · by_cases hcwd : dirfd = atFdcwd
    · exact ⟨s, by simp [hcwd], hlock, by simp [hcwd]⟩
    · obtain ⟨d, hd⟩ := Option.ne_none_iff_exists'.mp hsome
      refine ⟨s.releaseFd d, by simp [hcwd, fdRelease_some hlock hd, Except.map], hlock, fun g => ?_⟩
      rw [releaseFd_fdLock, hd]
      split
      · subst_vars
        simp [hcwd]
      · rename_i hne
        simp [hcwd, Ne.symm hne]

theorem releaseDirfd_missing (hlock : s.fdTableLock = false) (hcwd : dirfd ≠ atFdcwd)
    (hnone : s.get dirfd = none) : releaseDirfd dirfd s = .ok {s with fdTableLock := true} := by
  simp [releaseDirfd, hcwd, fdRelease_none hlock hnone, Except.map]

theorem releaseDirfd_locked {s' : FdState} (hlock : s.fdTableLock = true)
    (h : releaseDirfd dirfd s = .ok s') : s'.fdTableLock = true := by
  unfold releaseDirfd at h
  split at h
  · rw [fdRelease_locked hlock] at h
    cases h
  · cases h
    exact hlock

/-- What both ways out of `openat` give back. -/
def OpenatGives (fd : Nat) (dirfd : Int) (s : FdState) (g : Nat) : Prop :=
  g = fd ∨ (dirfd ≠ atFdcwd ∧ s.get dirfd = some g)

/-- Giving back the new descriptor and then `dirfd`. -/
theorem Gave.both {s' : FdState} (h : Gave (fun g => dirfd ≠ atFdcwd ∧ s.get dirfd = some g)
    (s.releaseFd fd) s') : Gave (OpenatGives fd dirfd s) s s' where
  table := h.table
  locks g := by
    rw [h.locks g, releaseFd_fdLock, OpenatGives]
    split <;> simp_all

theorem releaseDirfd_fdTable {s' : FdState} (h : releaseDirfd dirfd s = .ok s') :
    s'.fdTable = s.fdTable := by
  unfold releaseDirfd at h
  split at h
  · cases hlock : s.fdTableLock with
    | true =>
        rw [fdRelease_locked hlock] at h
        cases h
    | false =>
        cases hget : s.get dirfd with
        | none =>
            rw [fdRelease_none hlock hget] at h
            cases h
            rfl
        | some fd =>
            rw [fdRelease_some hlock hget] at h
            cases h
            rfl
  · cases h
    rfl

/-- The failure label with the new descriptor in its slot, where its own reference keeps it. -/
theorem openatFail_eq (hlock : s.fdTableLock = false) (hget : s.get fdI = some fd)
    (href : (s.fds fd).ref ≠ 0) :
    openatFail w fdI dirfd vnode created ⟨s, vRefCount⟩ = (do
      let files ← releaseDirfd dirfd (s.releaseFd fd)
      let vRefCount ← closeVnode w.mounted vRefCount vnode
      return ⟨-1, created, ⟨{files with closed := files.closed ++ vnode.toList}, vRefCount⟩⟩) := by
  have href' : ((s.releaseFd fd).fds fd).ref ≠ 0 := by rwa [releaseFd_ref]
  have hfree : fdFree fdI (s.releaseFd fd) = .ok (true, s.releaseFd fd) :=
    fdFree_referenced hlock hget href'
  have hkept : freedVnode (s.releaseFd fd) fdI = none := by
    rw [freedVnode, releaseFd_get, hget]
    exact if_neg href'
  simp only [openatFail, fdRelease_some hlock hget, fdFreeClose, hfree, hkept, closeVnode, bind,
    Except.bind, pure, Except.pure]

/-- With an empty slot for the new descriptor the failing call waits for the lock it holds. -/
theorem openatFail_hole (hlock : s.fdTableLock = false) (hget : s.get fdI = none) :
    openatFail w fdI dirfd vnode created ⟨s, vRefCount⟩ = .error .spin := by
  have hfree : fdFree fdI {s with fdTableLock := true} = .error .spin := fdFree_locked rfl
  simp only [openatFail, fdRelease_none hlock hget, fdFreeClose, hfree, bind, Except.bind]

/-- How the call ends once its lookup has given `vnode`. -/
structure Finished (w : OpenWorld) (flags fd : Nat) (fdI dirfd : Int) (s : FdState)
    (vnode : Option Nat) (created : Bool) (r : OpenResult) : Prop where
  gave : Gave (OpenatGives fd dirfd s) s r.state.files
  table : r.state.files.fdTable = s.fdTable
  created : r.created = created
  ret : r.ret = if refuses w flags vnode then -1 else fdI

theorem openatFail_returns (hlock : s.fdTableLock = false) (hget : s.get fdI = some fd)
    (href : (s.fds fd).ref ≠ 0) (hdir : dirfd = atFdcwd ∨ s.get dirfd ≠ none) :
    Returns (∃ refs, closeVnode w.mounted vRefCount vnode = .ok refs)
      (fun r => Gave (OpenatGives fd dirfd s) s r.state.files ∧
        r.state.files.fdTable = s.fdTable ∧ r.created = created ∧ r.ret = -1)
      (openatFail w fdI dirfd vnode created ⟨s, vRefCount⟩) := by
  have hlock' : (s.releaseFd fd).fdTableLock = false := hlock
  obtain ⟨u, hu, hgave⟩ := releaseDirfd_spec hlock' hdir
  have hboth : Gave (OpenatGives fd dirfd s) s u := Gave.both hgave
  rw [openatFail_eq hlock hget href, hu]
  cases hclose : closeVnode w.mounted vRefCount vnode with
  | error halt =>
      constructor
      · rintro ⟨refs, hrefs⟩
        cases hrefs
      · intro r hr
        cases hr
  | ok refs =>
      have htable : u.fdTable = (s.releaseFd fd).fdTable := releaseDirfd_fdTable hu
      exact ⟨fun _ => ⟨_, rfl, ⟨hboth.table, hboth.locks⟩, htable, rfl, rfl⟩,
        fun _ _ => ⟨refs, rfl⟩⟩

theorem openatDone_returns (hlock : s.fdTableLock = false) (hget : s.get fdI = some fd)
    (hdir : dirfd = atFdcwd ∨ s.get dirfd ≠ none) :
    ∃ r, openatDone fdI dirfd created ⟨s, vRefCount⟩ = .ok r ∧
      Gave (OpenatGives fd dirfd s) s r.state.files ∧ r.state.files.fdTable = s.fdTable ∧
      r.created = created ∧ r.ret = fdI := by
  have hlock' : (s.releaseFd fd).fdTableLock = false := hlock
  obtain ⟨u, hu, hgave⟩ := releaseDirfd_spec hlock' hdir
  have hboth : Gave (OpenatGives fd dirfd s) s u := Gave.both hgave
  have htable : u.fdTable = (s.releaseFd fd).fdTable := releaseDirfd_fdTable hu
  refine ⟨⟨fdI, created, ⟨u, vRefCount⟩⟩, ?_, hboth, htable, rfl, rfl⟩
  simp only [openatDone, fdRelease_some hlock hget, hu, bind, Except.bind, pure, Except.pure]

theorem closeVnode_opened {v : Nat} :
    (∃ refs, closeVnode w.mounted (vfsOpenRef vRefCount v) (some v) = .ok refs) ↔
      vRefCount v ≠ 0 ∨ w.mounted v = true := by
  rw [closeVnode, vfsCloseRef_vfsOpenRef]
  by_cases hlast : vRefCount v = 0 ∧ w.mounted v = false
  · simp [hlast]
  · rw [if_neg hlast]
    refine iff_of_true ⟨_, rfl⟩ ?_
    rw [not_and_or, Bool.not_eq_false] at hlast
    exact hlast

/-- Changes to other fields of a descriptor do not matter. -/
theorem Gave.of_modifyFd {released : Nat → Prop} {s' : FdState} {f : Fd → Fd}
    (hf : ∀ e, (f e).fdLock = e.fdLock) (h : Gave released (s.modifyFd fd f) s') :
    Gave released s s' where
  table := h.table
  locks g := by
    rw [h.locks g, modifyFd_fds]
    split
    · subst_vars
      rw [hf]
    · rfl

theorem openatLookedUp_returns (hlock : s.fdTableLock = false) (hget : s.get fdI = some fd)
    (href : (s.fds fd).ref ≠ 0) (hdir : dirfd = atFdcwd ∨ s.get dirfd ≠ none) :
    Returns (Discards w vRefCount flags vnode) (Finished w flags fd fdI dirfd s vnode created)
      (openatLookedUp w dirfd flags fd fdI ⟨s, vRefCount⟩ vnode created) := by
  obtain ⟨f, hf⟩ : ∃ f, (if created then clearCreat else id) = f := ⟨_, rfl⟩
  have hflock : ∀ e, (f e).fdLock = e.fdLock := by
    cases created <;> exact fun e => by rw [← hf]; rfl
  have hfref : ∀ e, (f e).ref = e.ref := by
    cases created <;> exact fun e => by rw [← hf]; rfl
  have href' : ((s.modifyFd fd f).fds fd).ref ≠ 0 := by rwa [modifyFd_ref hfref]
  have hfail : ∀ refs, Returns (∃ refs', closeVnode w.mounted refs vnode = .ok refs')
      (fun r => Gave (OpenatGives fd dirfd (s.modifyFd fd f)) (s.modifyFd fd f) r.state.files ∧
        r.state.files.fdTable = s.fdTable ∧ r.created = created ∧ r.ret = -1)
      (openatFail w fdI dirfd vnode created ⟨s.modifyFd fd f, refs⟩) :=
    fun refs => openatFail_returns hlock hget href' hdir
  simp only [openatLookedUp, hf]
  cases vnode with
  | none =>
      constructor
      · intro _
        obtain ⟨r, hr, hgave, htable, hcreated, hret⟩ := (hfail vRefCount).always ⟨_, rfl⟩
        exact ⟨r, hr, hgave.of_modifyFd hflock, htable, hcreated, hret⟩
      · intro _ _
        trivial
  | some v =>
      cases hunfit : unfit w flags v with
      | true =>
          dsimp only
          rw [if_pos hunfit]
          have hclose : Discards w vRefCount flags (some v) ↔
              ∃ refs, closeVnode w.mounted (vfsOpenRef vRefCount v) (some v) = .ok refs := by
            rw [closeVnode_opened, Discards, hunfit]
            exact forall_prop_of_true rfl
          rw [hclose]
          refine ⟨fun hcond => ?_, (hfail _).only⟩
          obtain ⟨r, hr, hgave, htable, hcreated, hret⟩ := (hfail _).always hcond
          refine ⟨r, hr, hgave.of_modifyFd hflock, htable, hcreated, ?_⟩
          rw [hret, refuses, hunfit, if_pos rfl]
      | false =>
          dsimp only
          rw [if_neg (Bool.eq_false_iff.mp hunfit)]
          refine ⟨fun _ => ?_, fun _ _ => by simp [Discards, hunfit]⟩
          obtain ⟨t, ht⟩ : ∃ t, (s.modifyFd fd f).modifyFd fd (setFile v (w.stat v).stMode) = t :=
            ⟨_, rfl⟩
          have htlock : t.fdTableLock = false := ht ▸ hlock
          have htget : t.get fdI = some fd := ht ▸ hget
          have htdir : dirfd = atFdcwd ∨ t.get dirfd ≠ none := ht ▸ hdir
          obtain ⟨r, hr, hgave, htable, hcreated, hret⟩ :=
            @openatDone_returns t (vfsOpenRef vRefCount v) fdI dirfd fd created htlock htget htdir
          rw [ht]
          refine ⟨r, hr, ?_, ?_, hcreated, ?_⟩
          · rw [← ht] at hgave
            have hinner : Gave (OpenatGives fd dirfd s) (s.modifyFd fd f) r.state.files := by
              refine Gave.of_modifyFd ?_ hgave
              exact fun _ => rfl
            exact hinner.of_modifyFd hflock
          · rw [htable, ← ht]
            rfl
          · rw [hret, refuses, hunfit, if_neg Bool.false_ne_true]

theorem openatFinish_returns (hlock : s.fdTableLock = false) (hget : s.get fdI = some fd)
    (href : (s.fds fd).ref ≠ 0) (hdir : dirfd = atFdcwd ∨ s.get dirfd ≠ none) :
    Returns
      (∃ vnode created, openVnode w.vfs (openatBase w path vRelative) path flags =
        .ok (vnode, created) ∧ Discards w vRefCount flags vnode)
      (fun r => ∃ vnode created, openVnode w.vfs (openatBase w path vRelative) path flags =
        .ok (vnode, created) ∧ Finished w flags fd fdI dirfd s vnode created r)
      (openatFinish w dirfd path flags fd fdI vRelative ⟨s, vRefCount⟩) := by
  simp only [openatFinish, bind, Except.bind]
  cases openVnode w.vfs (openatBase w path vRelative) path flags with
  | error halt =>
      constructor
      · rintro ⟨vnode, created, hopen, -⟩
        cases hopen
      · intro r hr
        cases hr
  | ok found =>
      have hlooked : Returns (Discards w vRefCount flags found.1)
          (Finished w flags fd fdI dirfd s found.1 found.2)
          (openatLookedUp w dirfd flags fd fdI ⟨s, vRefCount⟩ found.1 found.2) :=
        openatLookedUp_returns hlock hget href hdir
      constructor
      · rintro ⟨vnode, created, hopen, hdiscards⟩
        cases hopen
        obtain ⟨r, hr, hfinished⟩ := hlooked.always hdiscards
        exact ⟨r, hr, vnode, created, rfl, hfinished⟩
      · intro r hr
        exact ⟨found.1, found.2, rfl, hlooked.only r hr⟩

/-- With an empty slot for the new descriptor every way out leaves the table locked. -/
theorem openatFinish_hole (hlock : s.fdTableLock = false) (hget : s.get fdI = none)
    {r : OpenResult}
    (h : openatFinish w dirfd path flags fd fdI vRelative ⟨s, vRefCount⟩ = .ok r) :
    r.state.files.fdTableLock = true ∧ r.ret = fdI := by
  simp only [openatFinish, bind, Except.bind] at h
  split at h
  · cases h
  · rename_i found _
    simp only [openatLookedUp] at h
    have hfail : ∀ vnode created refs, openatFail w fdI dirfd vnode created
        ⟨s.modifyFd fd (if found.2 then clearCreat else id), refs⟩ = .error .spin :=
      fun vnode created refs => openatFail_hole hlock hget
    split at h
    · rw [hfail] at h
      cases h
    · split at h
      · rw [hfail] at h
        cases h
      · rename_i v _ _
        have hrel : fdRelease fdI ((s.modifyFd fd (if found.2 then clearCreat else id)).modifyFd fd
            (setFile v (w.stat v).stMode)) = _ := fdRelease_none hlock hget
        simp only [openatDone, hrel, bind, Except.bind] at h
        split at h
        · cases h
        · rename_i heq
          cases h
          exact ⟨releaseDirfd_locked rfl heq, rfl⟩

end Locks

section Calls

variable {w : OpenWorld} {s : OpenState} {dirfd : Int} {flags d : Nat} {path : List Char}
  {vRelative : Option Nat}

/-- How a call ends that had a slot for its descriptor and a start for its path. -/
structure Ended (w : OpenWorld) (flags : Nat) (s : OpenState) (vnode : Option Nat) (created : Bool)
    (r : OpenResult) : Prop where
  unlocked : r.state.files.fdTableLock = false
  locks : ∀ fd, some fd ∈ s.files.fdTable →
    (r.state.files.fds fd).fdLock = (s.files.fds fd).fdLock
  table : r.state.files.fdTable = s.files.fdTable ++ [some s.files.nextFd]
  created : r.created = created
  ret : r.ret = if refuses w flags vnode then -1 else (s.files.fdTable.length : Int)

/-- The lookup of the call comes back with `vnode`. -/
def LooksUp (w : OpenWorld) (path : List Char) (flags : Nat) (vRelative vnode : Option Nat)
    (created : Bool) : Prop :=
  openVnode w.vfs (openatBase w path vRelative) path flags = .ok (vnode, created)

/-- The new descriptor and the directory's were free before and are so again. -/
theorem Opened.ended {t u : FdState} {vnode : Option Nat} {created : Bool} {r : OpenResult}
    (h : Opened s.files t) (hfresh : some s.files.nextFd ∉ s.files.fdTable)
    (htable : u.fdTable = s.files.fdTable ++ [some s.files.nextFd])
    (hfree : ∀ g, OpenatGives s.files.nextFd dirfd u g → (t.fds g).fdLock = false)
    (hothers : ∀ g, ¬ OpenatGives s.files.nextFd dirfd u g →
      (u.fds g).fdLock = (t.fds g).fdLock)
    (hfinished : Finished w flags s.files.nextFd s.files.fdTable.length dirfd u vnode created r) :
    Ended w flags s vnode created r where
  unlocked := hfinished.gave.table
  locks fd hfd := by
    have hold : (t.fds fd).fdLock = (s.files.fds fd).fdLock := by
      rw [h.old fd fun heq => hfresh (heq ▸ hfd)]
    rw [← hold, Bool.eq_iff_iff, hfinished.gave.locks fd]
    by_cases hg : OpenatGives s.files.nextFd dirfd u fd
    · simp [hg, hfree fd hg]
    · simp [hg, hothers fd hg]
  table := hfinished.table.trans htable
  created := hfinished.created
  ret := hfinished.ret

theorem syscallOpenat_full (halloc : w.alloc = true) (hlock : s.files.fdTableLock = false)
    (hfull : none ∉ s.files.fdTable) :
    syscallOpenat w dirfd (some path) flags s =
      openatRelative w dirfd path flags s.files.nextFd s.files.fdTable.length
        ⟨(appended s.files).modifyFd s.files.nextFd fun f => {f with flags}, s.vRefCount⟩ := by
  simp only [syscallOpenat, halloc, fdCreate_full hlock hfull, bind, Except.bind]

/-- With a slot and a start the call comes back as its lookup does. -/
theorem syscallOpenat_started (halloc : w.alloc = true) (hlock : s.files.fdTableLock = false)
    (hfull : none ∉ s.files.fdTable) (hfresh : some s.files.nextFd ∉ s.files.fdTable)
    (hstart : startOf w dirfd s.files = some vRelative) :
    Returns
      (∃ vnode created, LooksUp w path flags vRelative vnode created ∧
        Discards w s.vRefCount flags vnode)
      (fun r => ∃ vnode created, LooksUp w path flags vRelative vnode created ∧
        Ended w flags s vnode created r)
      (syscallOpenat w dirfd (some path) flags s) := by
  have hopened := opened hlock flags
  have htable : ((appended s.files).modifyFd s.files.nextFd fun f => {f with flags}).fdTable =
      s.files.fdTable ++ [some s.files.nextFd] := rfl
  rw [syscallOpenat_full halloc hlock hfull]
  generalize (appended s.files).modifyFd s.files.nextFd (fun f => {f with flags}) = t
    at hopened htable
  unfold openatRelative
  by_cases hcwd : dirfd = atFdcwd
  · rw [startOf, if_pos hcwd] at hstart
    cases hstart
    rw [if_pos hcwd]
    have hfinish : Returns _ _ (openatFinish w dirfd path flags s.files.nextFd
        s.files.fdTable.length (some w.vfs.cwd) ⟨t, s.vRefCount⟩) :=
      openatFinish_returns hopened.unlocked hopened.slot hopened.new_ref (Or.inl hcwd)
    refine ⟨fun hcond => ?_, hfinish.only⟩
    obtain ⟨r, hr, vnode, created, hlooks, hfinished⟩ := hfinish.always hcond
    refine ⟨r, hr, vnode, created, hlooks, hopened.ended hfresh htable (fun g hg => ?_)
      (fun g _ => rfl) hfinished⟩
    obtain rfl : g = s.files.nextFd := by simpa [OpenatGives, hcwd] using hg
    exact hopened.new_lock
  · rw [if_neg hcwd]
    cases hget : t.get dirfd with
    | none =>
        obtain ⟨hnew, hnone⟩ := hopened.get_none.mp hget
        rw [startOf, if_neg hcwd, if_neg hnew, hnone] at hstart
        cases hstart
    | some d =>
        rw [hopened.startOf_eq hfresh hcwd hget] at hstart
        cases hheld : (t.fds d).fdLock with
        | true => simp [hheld] at hstart
        | false =>
            obtain rfl : (t.fds d).vnode = vRelative := by simpa [hheld] using hstart
            obtain ⟨u, hu, hacquired⟩ := fdAcquire_free hopened.unlocked hget hheld
            have hulock : u.fdTableLock = false := hacquired.tableLock.trans hopened.unlocked
            have hslot : u.get s.files.fdTable.length = some s.files.nextFd :=
              (hacquired.get _).trans hopened.slot
            have hudir : u.get dirfd = some d := (hacquired.get dirfd).trans hget
            have hvnode : (u.fds d).vnode = (t.fds d).vnode := by rw [hacquired.self]
            have hfinish : Returns _ _ (openatFinish w dirfd path flags s.files.nextFd
                s.files.fdTable.length (u.fds d).vnode ⟨u, s.vRefCount⟩) :=
              openatFinish_returns hulock hslot (hacquired.ref _ ▸ hopened.new_ref)
                (Or.inr (by rw [hudir]; simp))
            simp only [bind, Except.bind, hu]
            rw [hvnode] at hfinish ⊢
            refine ⟨fun hcond => ?_, hfinish.only⟩
            obtain ⟨r, hr, vnode, created, hlooks, hfinished⟩ := hfinish.always hcond
            refine ⟨r, hr, vnode, created, hlooks, hopened.ended hfresh ?_ ?_ ?_ hfinished⟩
            · exact hacquired.table.trans htable
            · rintro g (rfl | ⟨-, hg⟩)
              · exact hopened.new_lock
              · rw [hudir] at hg
                cases hg
                exact hheld
            · intro g hg
              rw [hacquired.others g fun heq => hg (Or.inr ⟨hcwd, by rw [hudir, heq]⟩)]

/-- Without a start the call waits for the directory's lock or comes to its failure label, which
leaves the table locked. -/
theorem syscallOpenat_unstarted (halloc : w.alloc = true) (hlock : s.files.fdTableLock = false)
    (hfull : none ∉ s.files.fdTable) (hfresh : some s.files.nextFd ∉ s.files.fdTable)
    (hstart : startOf w dirfd s.files = none) :
    Returns
      (s.files.get dirfd = none ∧ ∃ refs, closeVnode w.mounted s.vRefCount w.junk = .ok refs)
      (fun r => r.state.files.fdTableLock = true ∧ r.ret = -1 ∧ r.created = false ∧
        r.state.files.fdTable = s.files.fdTable ++ [some s.files.nextFd])
      (syscallOpenat w dirfd (some path) flags s) := by
  have hopened := opened hlock flags
  have htable : ((appended s.files).modifyFd s.files.nextFd fun f => {f with flags}).fdTable =
      s.files.fdTable ++ [some s.files.nextFd] := rfl
  rw [syscallOpenat_full halloc hlock hfull]
  generalize (appended s.files).modifyFd s.files.nextFd (fun f => {f with flags}) = t
    at hopened htable
  have hcwd : dirfd ≠ atFdcwd := by
    rintro rfl
    simp [startOf] at hstart
  rw [openatRelative, if_neg hcwd]
  cases hget : t.get dirfd with
  | some d =>
      rw [hopened.startOf_eq hfresh hcwd hget] at hstart
      have hheld : (t.fds d).fdLock = true := by simpa using hstart
      rw [fdAcquire_held hopened.unlocked hget hheld]
      constructor
      · rintro ⟨hnone, -⟩
        rcases (hopened.get dirfd d).mp hget with ⟨-, rfl⟩ | hold
        · rw [hopened.new_lock] at hheld
          cases hheld
        · rw [hnone] at hold
          cases hold
      · intro r hr
        cases hr
  | none =>
      have hnone := (hopened.get_none.mp hget).2
      have hmissing : releaseDirfd dirfd (t.releaseFd s.files.nextFd) =
          .ok {t.releaseFd s.files.nextFd with fdTableLock := true} :=
        releaseDirfd_missing hopened.unlocked hcwd hget
      simp only [fdAcquire_none hopened.unlocked hget, bind, Except.bind,
        openatFail_eq hopened.unlocked hopened.slot hopened.new_ref, hmissing]
      cases hclose : closeVnode w.mounted s.vRefCount w.junk with
      | error halt =>
          constructor
          · rintro ⟨-, refs, hrefs⟩
            cases hrefs
          · intro r hr
            cases hr
      | ok refs => exact ⟨fun _ => ⟨_, rfl, rfl, rfl, rfl, htable⟩, fun _ _ => ⟨hnone, refs, rfl⟩⟩

theorem syscallOpenat_hole {r : OpenResult} (halloc : w.alloc = true)
    (hlock : s.files.fdTableLock = false) (hhole : none ∈ s.files.fdTable)
    (h : syscallOpenat w dirfd (some path) flags s = .ok r) :
    r.state.files.fdTableLock = true ∧ 0 ≤ r.ret := by
  obtain ⟨i, u, hcreate, hget, hulock, -, hi⟩ := fdCreate_hole hlock hhole
  simp only [syscallOpenat, halloc, hcreate, bind, Except.bind] at h
  obtain ⟨t, ht⟩ : ∃ t, (u.modifyFd s.files.nextFd fun f => {f with flags}) = t := ⟨_, rfl⟩
  have htlock : t.fdTableLock = false := by rw [← ht]; exact hulock
  have htget : t.get i = none := by rw [← ht]; exact hget
  rw [ht, openatRelative] at h
  split at h
  · obtain ⟨hheld, hret⟩ := openatFinish_hole htlock htget h
    exact ⟨hheld, hret ▸ hi⟩
  · cases hdir : t.get dirfd with
    | none =>
        simp only [fdAcquire_none htlock hdir, bind, Except.bind, openatFail_hole htlock htget] at h
        cases h
    | some d =>
        cases hheld : (t.fds d).fdLock with
        | true =>
            simp only [fdAcquire_held htlock hdir hheld, bind, Except.bind] at h
            cases h
        | false =>
            simp only [fdAcquire_some htlock hdir hheld, bind, Except.bind] at h
            obtain ⟨hheld, hret⟩ := openatFinish_hole (by exact htlock) (by exact htget) h
            exact ⟨hheld, hret ▸ hi⟩

end Calls

end Tellurium.Syscalls
