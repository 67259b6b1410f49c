import Tellurium.Lib.Memory
import Tellurium.Syscalls.Files

/-!
Seeking and reading on a file of the memory file system (`kernel/fs/tmpfs.c`, `read.c` and
`lseek.c` of `kernel/syscalls`). Offsets and counts are 64-bit words that wrap around, and the
number of bytes travels through an `int` on its way back to the caller. The driver limits a
read to the file only while the offset is inside it and offset plus count does not wrap.
-/

namespace Tellurium.Syscalls

open Tellurium.Lib Tellurium.Fs
open Tellurium.Vfs (Stat toInt32)

/-- An `int` stored into a `size_t`. -/
def sizeOfInt (n : Int) : Nat := (n % 2 ^ 64).toNat

/-- The size that `tmpfs_read` passes to `__memcpy`. -/
def tmpfsReadSize (stSize size offset : Nat) : Nat :=
  if (offset + size) % 2 ^ 64 ≥ stSize then sub64 stSize offset else size

/-- `tmpfs_read` on a vnode whose data is in memory at `fsData`. -/
def tmpfsRead (stat : Nat → Stat) (fsData : Nat → Nat) (m : Mem) : ReadOp :=
  fun node buff size offset =>
    let size := tmpfsReadSize (stat node).stSize size offset
    let addr := add64 (fsData node) offset
    some (sizeOfInt (toInt32 size), fun k => if k < size then m (add64 addr k) else buff k)

/-- The operations of the driver are those of every vnode here. -/
def tmpfsMounted (_ : Nat) : Bool := true

/-- The calls made on one descriptor. -/
inductive SeekOp where
  | seekSet (offset : Nat)
  | seekCur (offset : Nat)
  | read (buf : Nat → UInt8) (count : Nat)

/-- The arguments are words. -/
def SeekOp.Word : SeekOp → Prop
  | .seekSet offset => offset < 2 ^ 64
  | .seekCur offset => offset < 2 ^ 64
  | .read _ count => count < 2 ^ 64

/-- The files as the driver sees them. -/
structure Files where
  stat : Nat → Stat
  fsData : Nat → Nat
  mem : Mem

def SeekOp.call (files : Files) (fd : Int) (s : FdState) : SeekOp → Except Halt FdState
  | .seekSet offset => (syscallLseek files.stat fd offset Syscalls.seekSet s).map Prod.snd
  | .seekCur offset => (syscallLseek files.stat fd offset Syscalls.seekCur s).map Prod.snd
  | .read buf count =>
      (syscallRead tmpfsMounted (tmpfsRead files.stat files.fsData files.mem) fd (some buf) count s).map
        fun r => r.2.2

def seekRun (files : Files) (fd : Int) (s : FdState) : List SeekOp → Except Halt FdState
  | [] => .ok s
  | op :: ops => op.call files fd s >>= fun s => seekRun files fd s ops

/-- A descriptor `fd`, at address `d`, on the regular file `v`. -/
structure OpenFile (files : Files) (fd : Int) (d v : Nat) (s : FdState) : Prop where
  unlocked : s.fdTableLock = false
  entry : s.get fd = some d
  free : (s.fds d).fdLock = false
  vnode : (s.fds d).vnode = some v
  offset : (s.fds d).offset < 2 ^ 64

/-- A regular file of less than 2^31 bytes that lies inside the address space. -/
structure RegularFile (files : Files) (v : Nat) : Prop where
  not_socket : sIsSock (files.stat v).stMode = false
  not_fifo : sIsFifo (files.stat v).stMode = false
  size : (files.stat v).stSize < 2 ^ 31
  data : files.fsData v + (files.stat v).stSize ≤ 2 ^ 64

/-- The bytes of the file from `offset` on that a read of `count` bytes is to return. -/
def readLength (stSize count offset : Nat) : Nat := min (offset + count) stSize - offset

/-- A read copies these bytes and no others, returns how many and moves behind them. -/
def ReadOk (files : Files) (fd : Int) (d v : Nat) (s : FdState) (buf : Nat → UInt8)
    (count : Nat) : Prop :=
  let p := (s.fds d).offset
  let n := readLength (files.stat v).stSize count p
  tmpfsReadSize (files.stat v).stSize count p = n ∧
    ∃ buf' s', syscallRead tmpfsMounted (tmpfsRead files.stat files.fsData files.mem) fd (some buf) count s =
        .ok (n, some buf', s') ∧
      (∀ k, buf' k = if k < n then files.mem (files.fsData v + p + k) else buf k) ∧
      (s'.fds d).offset = p + n

section Seek

variable {files : Files} {fd : Int} {d v : Nat} {s : FdState}

/-- The driver's limit is the right one exactly inside the file and without wrap-around. -/
theorem tmpfsReadSize_eq_iff {stSize count offset : Nat} (hsize : stSize < 2 ^ 31)
    (hoffset : offset < 2 ^ 64) (hcount : count < 2 ^ 64) :
    tmpfsReadSize stSize count offset = readLength stSize count offset ↔
      offset ≤ stSize ∧ offset + count < 2 ^ 64 := by
  unfold tmpfsReadSize readLength sub64
  split <;> omega

theorem readLength_lt {stSize : Nat} (count offset : Nat) (hsize : stSize < 2 ^ 31) :
    readLength stSize count offset < 2 ^ 31 := by
  unfold readLength
  omega

/-- A small size survives the way through an `int`. -/
theorem sizeOfInt_toInt32 {n : Nat} (hn : n < 2 ^ 31) : sizeOfInt (toInt32 n) = n := by
  unfold sizeOfInt toInt32
  omega

/-- The file stays open across an access that changes the offset only. -/
theorem OpenFile.with_offset (h : OpenFile files fd d v s) {s' : FdState}
    (hunlocked : s'.fdTableLock = false) (hget : ∀ i, s'.get i = s.get i) {offset : Nat}
    (hfd : s'.fds d = {s.fds d with offset}) (hoffset : offset < 2 ^ 64) :
    OpenFile files fd d v s' := by
  refine ⟨hunlocked, (hget fd).trans h.entry, ?_, ?_, ?_⟩ <;> rw [hfd]
  · exact h.free
  · exact h.vnode
  · exact hoffset

theorem OpenFile.syscallRead_spec (h : OpenFile files fd d v s) {op : ReadOp} {buf : Nat → UInt8}
    {count bytesRead : Nat} {buf' : Nat → UInt8}
    (hop : op v buf count (s.fds d).offset = some (bytesRead, buf')) :
    ∃ s', syscallRead tmpfsMounted op fd (some buf) count s = .ok (bytesRead, some buf', s') ∧
      OpenFile files fd d v s' ∧
      (s'.fds d).offset = ((s.fds d).offset + bytesRead) % 2 ^ 64 := by
  obtain ⟨u, hu⟩ : ∃ u, s.modifyFd d (fun f => {f with fdLock := true}) = u := ⟨_, rfl⟩
  have hufd : u.fds d = {s.fds d with fdLock := true} := by rw [← hu, modifyFd_fds, if_pos rfl]
  have hrel : fdRelease fd u = .ok (true, u.releaseFd d) :=
    fdRelease_some (hu ▸ h.unlocked) (hu ▸ h.entry)
  have hread : vfsRead tmpfsMounted op buf (u.fds d).vnode count (u.fds d).offset =
      .ok (some (bytesRead, buf')) := by
    simp only [hufd, vfsRead, h.vnode, tmpfsMounted, if_true, hop]
  obtain ⟨s', hs'⟩ : ∃ s', (u.releaseFd d).modifyFd d
      (fun f => {f with offset := (f.offset + bytesRead) % 2 ^ 64}) = s' := ⟨_, rfl⟩
  have hfd : s'.fds d = {s.fds d with offset := ((s.fds d).offset + bytesRead) % 2 ^ 64} := by
    rw [← hs', modifyFd_fds, if_pos rfl, FdState.releaseFd, modifyFd_fds, if_pos rfl, hufd, ← h.free]
  refine ⟨s', ?_, h.with_offset ?_ ?_ hfd (Nat.mod_lt _ (by decide)), ?_⟩
  · simp only [syscallRead, fdAcquire_some h.unlocked h.entry h.free, bind, Except.bind, hu, hread,
      hrel, pure, Except.pure, hs']
  · rw [← hs', ← hu]
    exact h.unlocked
  · intro i
    rw [← hs', ← hu]
    rfl
  · rw [hfd]

theorem OpenFile.syscallLseek_spec (h : OpenFile files fd d v s) (hfile : RegularFile files v)
    {offset : Nat} (hoffset : offset < 2 ^ 64) {whence : Int}
    (hwhence : whence = Syscalls.seekSet ∨ whence = Syscalls.seekCur) :
    ∃ r s', syscallLseek files.stat fd offset whence s = .ok (r, s') ∧
      OpenFile files fd d v s' := by
  obtain ⟨u, hu⟩ : ∃ u, s.modifyFd d (fun f => {f with fdLock := true}) = u := ⟨_, rfl⟩
  have hufd : u.fds d = {s.fds d with fdLock := true} := by rw [← hu, modifyFd_fds, if_pos rfl]
  have huvnode : (u.fds d).vnode = some v := by rw [hufd, h.vnode]
  obtain ⟨w, hw⟩ : ∃ w, u.modifyFd d (fun f => {f with
      offset := seekOffset whence offset f.offset (files.stat v).stSize}) = w := ⟨_, rfl⟩
  have hrel : fdRelease fd w = .ok (true, w.releaseFd d) :=
    fdRelease_some (by rw [← hw, ← hu]; exact h.unlocked) (by rw [← hw, ← hu]; exact h.entry)
  have hfd : (w.releaseFd d).fds d = {s.fds d with
      offset := seekOffset whence offset (s.fds d).offset (files.stat v).stSize} := by
    rw [FdState.releaseFd, modifyFd_fds, if_pos rfl, ← hw, modifyFd_fds, if_pos rfl, hufd, ← h.free]
  have hword : seekOffset whence offset (s.fds d).offset (files.stat v).stSize < 2 ^ 64 := by
    rcases hwhence with rfl | rfl
    · exact hoffset
    · exact Nat.mod_lt _ (by decide)
  refine ⟨toInt32 ((w.releaseFd d).fds d).offset, w.releaseFd d, ?_,
    h.with_offset ?_ (fun i => ?_) hfd hword⟩
  · simp only [syscallLseek, fdAcquire_some h.unlocked h.entry h.free, bind, Except.bind, hu,
      huvnode, hfile.not_socket, hfile.not_fifo, Bool.or_self, Bool.false_eq_true, if_false, hw, hrel,
      pure, Except.pure]
  · rw [← hw, ← hu]
    exact h.unlocked
  · rw [← hw, ← hu]
    rfl

theorem OpenFile.step (h : OpenFile files fd d v s) (hfile : RegularFile files v) {op : SeekOp}
    (hop : op.Word) : ∃ s', op.call files fd s = .ok s' ∧ OpenFile files fd d v s' := by
  cases op with
  | seekSet offset =>
      obtain ⟨r, s', hs', hopen⟩ := h.syscallLseek_spec hfile hop (Or.inl rfl)
      exact ⟨s', by rw [SeekOp.call, hs']; rfl, hopen⟩
  | seekCur offset =>
      obtain ⟨r, s', hs', hopen⟩ := h.syscallLseek_spec hfile hop (Or.inr rfl)
      exact ⟨s', by rw [SeekOp.call, hs']; rfl, hopen⟩
  | read buf count =>
      have hread : tmpfsRead files.stat files.fsData files.mem v buf count (s.fds d).offset = some _ :=
        rfl
      obtain ⟨s', hs', hopen, -⟩ := h.syscallRead_spec hread
      exact ⟨s', by rw [SeekOp.call, hs']; rfl, hopen⟩

theorem OpenFile.run (h : OpenFile files fd d v s) (hfile : RegularFile files v) {ops : List SeekOp}
    (hops : ∀ op ∈ ops, op.Word) :
    ∃ s', seekRun files fd s ops = .ok s' ∧ OpenFile files fd d v s' := by
  induction ops generalizing s with
  | nil => exact ⟨s, rfl, h⟩
  | cons op ops ih =>
      obtain ⟨mid, hmid, hopen⟩ := h.step hfile (hops op (by simp))
      obtain ⟨s', hs', hfin⟩ := ih hopen fun op' hop' => hops op' (List.mem_cons_of_mem _ hop')
      exact ⟨s', by rw [seekRun, hmid]; exact hs', hfin⟩

/-- One read is right exactly inside the file and without wrap-around. -/
theorem OpenFile.readOk_iff (h : OpenFile files fd d v s) (hfile : RegularFile files v)
    (buf : Nat → UInt8) {count : Nat} (hcount : count < 2 ^ 64) :
    ReadOk files fd d v s buf count ↔
      (s.fds d).offset ≤ (files.stat v).stSize ∧ (s.fds d).offset + count < 2 ^ 64 := by
  rw [← tmpfsReadSize_eq_iff hfile.size h.offset hcount]
  refine ⟨fun hok => hok.1, fun hlen => ⟨hlen, ?_⟩⟩
  obtain ⟨hinside, -⟩ := (tmpfsReadSize_eq_iff hfile.size h.offset hcount).mp hlen
  have hsmall := readLength_lt count (s.fds d).offset hfile.size
  have hread : tmpfsRead files.stat files.fsData files.mem v buf count (s.fds d).offset = some _ :=
    rfl
  obtain ⟨s', hs', -, hoffset⟩ := h.syscallRead_spec hread
  have hdata := hfile.data
  have hsize := hfile.size
  simp only [hlen, sizeOfInt_toInt32 hsmall] at hs' hoffset
  refine ⟨_, s', hs', fun k => ?_, ?_⟩
  · split
    · rename_i hk
      have haddr : add64 (add64 (files.fsData v) (s.fds d).offset) k =
          files.fsData v + (s.fds d).offset + k := by
        unfold readLength at hk
        unfold add64
        omega
      rw [haddr]
    · rfl
  · rw [hoffset, Nat.mod_eq_of_lt]
    unfold readLength
    omega

/-- In every sequence of seeks and reads on a file, each read returns the bytes of the file
exactly if it is made at an offset inside the file (or at its end) and offset plus count does
not wrap around. -/
theorem seek_read_iff (h : OpenFile files fd d v s) (hfile : RegularFile files v)
    {ops : List SeekOp} (hops : ∀ op ∈ ops, op.Word) :
    (∀ pre buf count, pre ++ [.read buf count] <+: ops →
      ∃ s', seekRun files fd s pre = .ok s' ∧ ReadOk files fd d v s' buf count) ↔
    ∀ pre buf count, pre ++ [.read buf count] <+: ops →
      ∀ s', seekRun files fd s pre = .ok s' →
        (s'.fds d).offset ≤ (files.stat v).stSize ∧ (s'.fds d).offset + count < 2 ^ 64 := by
  have hrun : ∀ pre buf count, pre ++ [.read buf count] <+: ops →
      (∃ s', seekRun files fd s pre = .ok s' ∧ OpenFile files fd d v s') ∧ count < 2 ^ 64 := by
    intro pre buf count hpre
    refine ⟨h.run hfile fun op hop => hops op (hpre.subset (List.mem_append_left _ hop)), ?_⟩
    exact hops (.read buf count) (hpre.subset (by simp))
  constructor
  · intro hok pre buf count hpre s' hs'
    obtain ⟨⟨t, ht, hopen⟩, hcount⟩ := hrun pre buf count hpre
    obtain ⟨t', ht', hread⟩ := hok pre buf count hpre
    cases hs'.symm.trans ht
    cases hs'.symm.trans ht'
    exact (hopen.readOk_iff hfile buf hcount).mp hread
  · intro hinside pre buf count hpre
    obtain ⟨⟨t, ht, hopen⟩, hcount⟩ := hrun pre buf count hpre
    exact ⟨t, ht, (hopen.readOk_iff hfile buf hcount).mpr (hinside pre buf count hpre t ht)⟩

/-- The file behind descriptor 0 of `oneFile`, one page long. -/
def onePage : Files where
  stat _ := ⟨0o100000, 4096, 1, 4096⟩
  fsData _ := 8192
  mem a := UInt8.ofNat a

theorem onePage_open : OpenFile onePage 0 0 1 oneFile := ⟨rfl, rfl, rfl, rfl, by decide⟩

theorem onePage_regular : RegularFile onePage 1 := ⟨by decide, by decide, by decide, by decide⟩

theorem seek_read_iff_first_page :
    OpenFile onePage 0 0 1 oneFile ∧
      ∀ pre buf count, pre ++ [.read buf count] <+: [.seekSet 4000, .read (fun _ => 0) 200] →
        ∃ s', seekRun onePage 0 oneFile pre = .ok s' ∧ ReadOk onePage 0 0 1 s' buf count := by
  have hops : ∀ op ∈ [SeekOp.seekSet 4000, SeekOp.read (fun _ => 0) 200], op.Word := by
    intro op hop
    simp only [List.mem_cons, List.not_mem_nil, or_false] at hop
    rcases hop with rfl | rfl <;> simp [SeekOp.Word]
  refine ⟨onePage_open, (seek_read_iff onePage_open onePage_regular hops).mpr ?_⟩
  intro pre buf count hpre s' hs'
  have hlen := hpre.length_le
  rw [List.length_append, List.length_singleton, List.length_cons, List.length_singleton] at hlen
  obtain ⟨rest, hrest⟩ := hpre
  cases pre with
  | nil => cases hrest
  | cons op pre =>
      obtain rfl : pre = [] := List.eq_nil_of_length_eq_zero (by rw [List.length_cons] at hlen; omega)
      cases hrest
      cases hs'
      exact ⟨by decide, by decide⟩

/-- A read behind the end of the file is passed a size of nearly 2^64. -/
theorem read_past_end_not_limited :
    OpenFile onePage 0 0 1 oneFile ∧ RegularFile onePage 1 ∧
      ¬ ∀ pre buf count, pre ++ [.read buf count] <+: [.seekSet 4097, .read (fun _ => 0) 1] →
        ∃ s', seekRun onePage 0 oneFile pre = .ok s' ∧ ReadOk onePage 0 0 1 s' buf count := by
  refine ⟨onePage_open, onePage_regular, fun hok => ?_⟩
  obtain ⟨s', hs', hread⟩ := hok [.seekSet 4097] (fun _ => 0) 1 (List.prefix_refl _)
  cases hs'
  exact absurd hread.1 (by decide)

end Seek

end Tellurium.Syscalls
