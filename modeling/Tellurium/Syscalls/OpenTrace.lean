import Tellurium.Syscalls.Openat

/-!
What a failing `openat` leaves behind (`kernel/syscalls/open.c`). The new descriptor is reserved
first, with a reference of its own, and the failure label cannot take it out of the table again.
-/

namespace Tellurium.Syscalls

open Tellurium.Fs
open Tellurium.Vfs (Outcome bootTree)

/-- If the call returns -1 without having created a file, then every index refers to what it
referred to before, and every count is the same. -/
def LeavesNoTrace (w : OpenWorld) (dirfd : Int) (path : Option (List Char)) (flags : Nat)
    (s : OpenState) : Prop :=
  ∀ r, syscallOpenat w dirfd path flags s = .ok r → r.ret = -1 → r.created = false →
    (∀ i, r.state.files.get i = s.files.get i ∧
      ∀ fd, s.files.get i = some fd → (r.state.files.fds fd).vnode = (s.files.fds fd).vnode) ∧
    r.state.vRefCount = s.vRefCount

/-- There is no vnode, or it may not be opened and closing it again works. -/
def Refused (w : OpenWorld) (vRefCount : Nat → UInt64) (flags : Nat) : Option Nat → Prop
  | none => True
  | some vnode => unfit w flags vnode = true ∧ (vRefCount vnode ≠ 0 ∨ w.mounted vnode = true)

/-- The lookup ends with nothing to open and nothing created. -/
def Unopenable (w : OpenWorld) (vRefCount : Nat → UInt64) (path : List Char) (flags : Nat)
    (vRelative : Option Nat) : Prop :=
  match baseOrFault (openatBase w path vRelative) path with
  | .error _ => False
  | .ok (.error _) => True
  | .ok (.ok vbase) =>
      match w.vfs.vfsOpen vbase path with
      | .fault => False
      | .done vnode => Refused w vRefCount flags (some vnode)
      | .err err =>
          ¬ (err = .nodeMissing ∧ flags &&& oCreat ≠ 0) ∨
            ∃ code, w.vfs.vfsCreate vbase path = .err code

/-- The call comes to its failure label, with a descriptor at the end of the table: because
`dirfd` is not in use, or because the lookup from there gives nothing to open. -/
def Fails (w : OpenWorld) (dirfd : Int) (path : List Char) (flags : Nat) (s : OpenState) : Prop :=
  s.files.fdTableLock = false ∧ none ∉ s.files.fdTable ∧
    ((dirfd ≠ atFdcwd ∧ dirfd ≠ s.files.fdTable.length ∧ s.files.get dirfd = none ∧
        ∃ vRefCount, closeVnode w.mounted s.vRefCount w.junk = .ok vRefCount) ∨
      ∃ vRelative, startOf w dirfd s.files = some vRelative ∧
        Unopenable w s.vRefCount path flags vRelative)

section Failing

variable {w : OpenWorld} {s : OpenState} {vRefCount : Nat → UInt64} {dirfd : Int} {flags : Nat}
  {path : List Char} {vRelative vnode : Option Nat} {created : Bool}

theorem refused_iff : Refused w vRefCount flags vnode ↔
    refuses w flags vnode = true ∧ Discards w vRefCount flags vnode := by
  cases vnode with
  | none => simp [Refused, refuses, Discards]
  | some vnode =>
      simp only [Refused, refuses, Discards]
      exact ⟨fun h => ⟨h.1, fun _ => h.2⟩, fun h => ⟨h.1, h.2 h.1⟩⟩

/-- What the lookup gives, against the condition on its answers. -/
theorem unopenable_iff : Unopenable w vRefCount path flags vRelative ↔
    ∃ vnode, LooksUp w path flags vRelative vnode false ∧ Refused w vRefCount flags vnode := by
  simp only [Unopenable, LooksUp, openVnode, bind, Except.bind]
  cases baseOrFault (openatBase w path vRelative) path with
  | error halt => simp
  | ok base =>
      cases base with
      | error err => simp [pure, Except.pure, Refused]
      | ok vbase =>
          simp only
          cases w.vfs.vfsOpen vbase path with
          | fault => simp [throw, throwThe, MonadExceptOf.throw]
          | done vnode => simp [pure, Except.pure]
          | err err =>
              by_cases hcreat : err = .nodeMissing ∧ flags &&& oCreat ≠ 0
              · simp only [hcreat, ne_eq, not_true_eq_false, not_false_eq_true,
                  and_self, false_or]
                cases w.vfs.vfsCreate vbase path with
                | fault => simp [throw, throwThe, MonadExceptOf.throw]
                | err code => simp [pure, Except.pure, Refused]
                | done u =>
                    cases w.vfs.vfsReopen vbase path <;>
                      simp [throw, throwThe, MonadExceptOf.throw, pure, Except.pure]
              · simp only [if_neg hcreat]
                exact iff_of_true (Or.inl hcreat) ⟨none, rfl, trivial⟩

theorem LooksUp.unique {other : Option Nat} {created' : Bool}
    (h : LooksUp w path flags vRelative vnode created)
    (h' : LooksUp w path flags vRelative other created') : vnode = other ∧ created = created' := by
  rw [LooksUp] at h h'
  cases h.symm.trans h'
  exact ⟨rfl, rfl⟩

/-- A call that comes to its failure label keeps the new descriptor. -/
theorem Fails.appends (hfails : Fails w dirfd path flags s) (halloc : w.alloc = true)
    (hfresh : some s.files.nextFd ∉ s.files.fdTable) :
    ∃ r, syscallOpenat w dirfd (some path) flags s = .ok r ∧ r.ret = -1 ∧ r.created = false ∧
      r.state.files.fdTable = s.files.fdTable ++ [some s.files.nextFd] := by
  obtain ⟨hlock, hfull, ⟨hcwd, hnew, hnone, hclose⟩ | ⟨vRelative, hstart, hunopenable⟩⟩ := hfails
  · have hstart : startOf w dirfd s.files = none := by
      rw [startOf, if_neg hcwd, if_neg hnew, hnone]
    obtain ⟨r, hr, -, hret, hcreated, htable⟩ :=
      (syscallOpenat_unstarted halloc hlock hfull hfresh hstart).always ⟨hnone, hclose⟩
    exact ⟨r, hr, hret, hcreated, htable⟩
  · obtain ⟨vnode, hlooks, hrefused⟩ := unopenable_iff.mp hunopenable
    obtain ⟨hrefuses, hdiscards⟩ := refused_iff.mp hrefused
    obtain ⟨r, hr, other, created, hlooks', hended⟩ :=
      (syscallOpenat_started halloc hlock hfull hfresh hstart).always ⟨vnode, false, hlooks, hdiscards⟩
    obtain ⟨rfl, rfl⟩ := hlooks.unique hlooks'
    refine ⟨r, hr, ?_, hended.created, hended.table⟩
    rw [hended.ret, if_pos hrefuses]

/-- A call that reserves a descriptor and fails without creating a file came to its label. -/
theorem fails_of_syscallOpenat {r : OpenResult} (halloc : w.alloc = true)
    (hfresh : some s.files.nextFd ∉ s.files.fdTable)
    (hr : syscallOpenat w dirfd (some path) flags s = .ok r) (hret : r.ret = -1)
    (hcreated : r.created = false) : Fails w dirfd path flags s := by
  cases hlock : s.files.fdTableLock with
  | true =>
      simp only [syscallOpenat, fdCreate, acquireTable_held hlock, bind, Except.bind] at hr
      cases hr
  | false =>
      by_cases hhole : none ∈ s.files.fdTable
      · have hpos := (syscallOpenat_hole halloc hlock hhole hr).2
        omega
      · refine ⟨hlock, hhole, ?_⟩
        cases hstart : startOf w dirfd s.files with
        | none =>
            obtain ⟨hnone, hclose⟩ :=
              (syscallOpenat_unstarted halloc hlock hhole hfresh hstart).only r hr
            have hcwd : dirfd ≠ atFdcwd := by
              rintro rfl
              simp [startOf] at hstart
            have hnew : dirfd ≠ s.files.fdTable.length := by
              rintro rfl
              rw [startOf, if_neg hcwd, if_pos rfl] at hstart
              cases hstart
            exact Or.inl ⟨hcwd, hnew, hnone, hclose⟩
        | some vRelative =>
            have hreturns : Returns _ _ (syscallOpenat w dirfd (some path) flags s) :=
              syscallOpenat_started halloc hlock hhole hfresh hstart
            obtain ⟨vnode, created, hlooks, hdiscards⟩ := hreturns.only r hr
            obtain ⟨other, created', hlooks', hended⟩ := hreturns.post hr
            obtain ⟨rfl, rfl⟩ := hlooks.unique hlooks'
            obtain rfl : created = false := hended.created.symm.trans hcreated
            have hrefuses : refuses w flags vnode = true := by
              by_contra hopens
              have hindex := hended.ret
              rw [if_neg hopens] at hindex
              omega
            exact Or.inr ⟨vRelative, rfl,
              unopenable_iff.mpr ⟨vnode, hlooks, refused_iff.mpr ⟨hrefuses, hdiscards⟩⟩⟩

end Failing

/-- A failing call that had reserved its descriptor always leaves it in the table. -/
theorem leaves_no_trace_iff {w : OpenWorld} {dirfd : Int} {path : Option (List Char)} {flags : Nat}
    {s : OpenState} (hfresh : some s.files.nextFd ∉ s.files.fdTable) :
    LeavesNoTrace w dirfd path flags s ↔
      (w.alloc = true → ∀ p, path = some p → ¬ Fails w dirfd p flags s) := by
  constructor
  · rintro htrace halloc p rfl hfails
    obtain ⟨r, hr, hret, hcreated, htable⟩ := hfails.appends halloc hfresh
    have hslot := ((htrace r hr hret hcreated).1 s.files.fdTable.length).1
    rw [get_length, FdState.get, htable] at hslot
    simp at hslot
  · intro hnot r hr hret hcreated
    cases path with
    | none =>
        cases hr
        exact ⟨fun i => ⟨rfl, fun _ _ => rfl⟩, rfl⟩
    | some p =>
        cases halloc : w.alloc with
        | true =>
            exact absurd (fails_of_syscallOpenat halloc hfresh hr hret hcreated) (hnot halloc p rfl)
        | false =>
            cases hlock : s.files.fdTableLock with
            | true =>
                simp only [syscallOpenat, fdCreate, acquireTable_held hlock, bind, Except.bind] at hr
                cases hr
            | false =>
                simp only [syscallOpenat, halloc, fdCreate_noMemory hlock, bind, Except.bind] at hr
                cases hr
                exact ⟨fun i => ⟨rfl, fun _ _ => rfl⟩, rfl⟩

/-- A process of the booted kernel. -/
def bootWorld (alloc : Bool) : OpenWorld := ⟨treeVnodes bootTree, treeAnswers bootTree 0, alloc, none⟩

/-- A new process. -/
def newProcess : OpenState := ⟨fdTableInit fun _ => ⟨false, none, 0, 0, 0, 0⟩, fun _ => 0⟩

/-- Opening the missing `/tmp/a` uses up descriptor 0. -/
theorem missing_file_takes_descriptor :
    ¬ LeavesNoTrace (bootWorld true) atFdcwd (some ['/', 't', 'm', 'p', '/', 'a']) 0
      newProcess := by
  intro htrace
  have hslot := ((htrace _ rfl rfl rfl).1 0).1
  exact absurd hslot (by decide)

/-- Without memory for the descriptor the call fails and leaves nothing behind. -/
theorem leaves_no_trace_noMemory :
    (∃ r, syscallOpenat (bootWorld false) atFdcwd (some ['/', 't', 'm', 'p', '/', 'a']) 0
      newProcess = .ok r ∧ r.ret = -1 ∧ r.created = false) ∧
    LeavesNoTrace (bootWorld false) atFdcwd (some ['/', 't', 'm', 'p', '/', 'a']) 0
      newProcess := by
  refine ⟨⟨_, rfl, rfl, rfl⟩, (leaves_no_trace_iff List.not_mem_nil).mpr ?_⟩
  intro halloc
  cases halloc

end Tellurium.Syscalls
