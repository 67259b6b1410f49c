import Tellurium.Fs.Tmpfs
import Tellurium.Lib.Run
import Tellurium.Syscalls.Seek

/-!
The contents of one file of the memory file system (`kernel/fs/tmpfs.c`) under any sequence
of writes. The file is its attributes and the bytes from `fs_data` on. `krealloc` answers
null or a block; of the block the writes rely on its keeping the bytes that the old one had
room for.
-/

namespace Tellurium.Tmpfs

open Tellurium.Lib Tellurium.Vfs Tellurium.Syscalls

structure TmpFile where
  stat : Stat
  fsData : Nat → UInt8

inductive WriteStatus where
  | success
  | noMem
  deriving DecidableEq, Repr

/-- `tmpfs_create` on a node of type `vType` when `kmalloc` answers a block that holds `data`. -/
def tmpfsCreate (vType : VType) (data : Nat → UInt8) : TmpFile where
  stat := ⟨vfsVtypeToStMode vType, 4096, 1, 4096⟩
  fsData := data

/-- The arguments of a write, and what `krealloc` answers if it is called. -/
structure WriteCall where
  buff : Nat → UInt8
  size : Nat
  offset : Nat
  krealloc : Option (Nat → UInt8)

/-- The `__memcpy` of a write. -/
def copyIn (data : Nat → UInt8) (w : WriteCall) : Nat → UInt8 := fun k =>
  if w.offset ≤ k ∧ k < w.offset + w.size then w.buff (k - w.offset) else data k

/-- `tmpfs_write`. -/
def TmpFile.write (f : TmpFile) (w : WriteCall) : WriteStatus × TmpFile :=
  if newBlockSize f.stat w.size w.offset > f.stat.stBlocks then
    match w.krealloc with
    | none => (.noMem, f)
    | some data => (.success, ⟨statAfterWrite f.stat w.size w.offset, copyIn data w⟩)
  else (.success, ⟨statAfterWrite f.stat w.size w.offset, copyIn f.fsData w⟩)

/-- What `tmpfs_read` leaves in the caller's buffer. -/
def TmpFile.read (f : TmpFile) (buff : Nat → UInt8) (size offset : Nat) : Nat → UInt8 := fun k =>
  if k < tmpfsReadSize f.stat.stSize size offset then f.fsData (offset + k) else buff k

def TmpFile.step (f : TmpFile) (w : WriteCall) : TmpFile := (f.write w).2

/-- A block that `krealloc` answers has the old contents. -/
def KreallocKeeps (f : TmpFile) (w : WriteCall) : Prop :=
  ∀ data, w.krealloc = some data → ∀ k < f.stat.stBlocks * f.stat.stBlksize, data k = f.fsData k

/-- At each position the byte of the last successful write that covered it. -/
def lastWritten : TmpFile → List WriteCall → (Nat → Option UInt8) → Nat → Option UInt8
  | _, [], written => written
  | f, w :: rest, written =>
      lastWritten (f.step w) rest
        (if (f.write w).1 = .success then fun k =>
          if w.offset ≤ k ∧ k < w.offset + w.size then some (w.buff (k - w.offset)) else written k
        else written)

/-- The invariant of a file: what was written is there, and all of it has room. -/
structure FileInv (f : TmpFile) (written : Nat → Option UInt8) : Prop where
  blksize : f.stat.stBlksize = 4096
  size_le : f.stat.stSize ≤ f.stat.stBlocks * f.stat.stBlksize
  size_lt : f.stat.stSize < 2 ^ 63
  inside : ∀ k b, written k = some b → k < f.stat.stSize
  contents : ∀ k b, written k = some b → f.fsData k = b

section Writes

variable {f : TmpFile} {written : Nat → Option UInt8} {w : WriteCall}

theorem fileInv_create (vType : VType) (data : Nat → UInt8) :
    FileInv (tmpfsCreate vType data) fun _ => none :=
  ⟨rfl, by simp [tmpfsCreate], by simp [tmpfsCreate], nofun, nofun⟩

/-- The attributes after a write that had room or was given it: growing the file sets the
size to the end of the write, which is then past all the blocks that the file had. -/
theorem statAfterWrite_spec {stat : Stat} (hblksize : stat.stBlksize = 4096)
    (hle : stat.stSize ≤ stat.stBlocks * stat.stBlksize) (hsum : w.size + w.offset < 2 ^ 64) :
    (statAfterWrite stat w.size w.offset).stBlksize = 4096 ∧
      (statAfterWrite stat w.size w.offset).stSize ≤
        (statAfterWrite stat w.size w.offset).stBlocks * 4096 ∧
      (statAfterWrite stat w.size w.offset).stSize = max stat.stSize (w.offset + w.size) := by
  have hsize : add64 w.size w.offset = w.size + w.offset := by
    rw [add64, Nat.mod_eq_of_lt hsum]
  have hoffset : add64 w.offset w.size = w.size + w.offset := by
    rw [add64, Nat.add_comm, Nat.mod_eq_of_lt hsum]
  rw [hblksize] at hle
  simp only [statAfterWrite, newBlockSize, hsize, hoffset, hblksize]
  split_ifs <;> (try dsimp only at *) <;> omega

/-- The bytes before the copy: those of the file as far as it has room. -/
theorem write_success (hkeeps : KreallocKeeps f w) (hok : (f.write w).1 = .success) :
    ∃ data, (f.write w).2 = ⟨statAfterWrite f.stat w.size w.offset, copyIn data w⟩ ∧
      ∀ k < f.stat.stBlocks * f.stat.stBlksize, data k = f.fsData k := by
  unfold TmpFile.write at hok ⊢
  split_ifs at hok ⊢ with hgrow
  · cases hdata : w.krealloc with
    | none =>
        rw [hdata] at hok
        cases hok
    | some data => exact ⟨data, rfl, hkeeps data hdata⟩
  · exact ⟨f.fsData, rfl, fun k _ => rfl⟩

/-- A write that fails leaves the file as it was. -/
theorem write_noMem (hfail : (f.write w).1 = .noMem) : (f.write w).2 = f := by
  unfold TmpFile.write at hfail ⊢
  split_ifs at hfail ⊢ with hgrow
  · cases hdata : w.krealloc with
    | none => rfl
    | some data =>
        rw [hdata] at hfail
        cases hfail

theorem FileInv.write (h : FileInv f written) (hkeeps : KreallocKeeps f w)
    (hsum : w.size + w.offset < 2 ^ 63) (hok : (f.write w).1 = .success) :
    FileInv (f.write w).2 fun k =>
      if w.offset ≤ k ∧ k < w.offset + w.size then some (w.buff (k - w.offset)) else written k := by
  obtain ⟨data, hwrite, hold⟩ := write_success hkeeps hok
  obtain ⟨hblksize, hle, hmax⟩ := statAfterWrite_spec h.blksize h.size_le
    (Nat.lt_trans hsum (by decide))
  have hlt : (statAfterWrite f.stat w.size w.offset).stSize < 2 ^ 63 := by
    have hold := h.size_lt
    omega
  have hgrown : f.stat.stSize ≤ (statAfterWrite f.stat w.size w.offset).stSize := by
    omega
  have hreach : w.offset + w.size ≤ (statAfterWrite f.stat w.size w.offset).stSize := by
    omega
  rw [hwrite]
  refine ⟨hblksize, hblksize ▸ hle, hlt, ?_, ?_⟩
  · intro k b hk
    split_ifs at hk with hin
    · exact Nat.lt_of_lt_of_le hin.2 hreach
    · exact Nat.lt_of_lt_of_le (h.inside k b hk) hgrown
  · intro k b hk
    dsimp only [copyIn]
    split_ifs at hk ⊢ with hin
    · exact Option.some.inj hk
    · rw [hold k (Nat.lt_of_lt_of_le (h.inside k b hk) h.size_le)]
      exact h.contents k b hk

/-- The invariant along a run of writes. -/
theorem FileInv.run (h : FileInv f written) {ws : List WriteCall}
    (hsums : ∀ w ∈ ws, w.size + w.offset < 2 ^ 63)
    (hkeeps : EveryStep TmpFile.step KreallocKeeps f ws) :
    FileInv (ws.foldl TmpFile.step f) (lastWritten f ws written) := by
  induction ws generalizing f written with
  | nil => exact h
  | cons w rest ih =>
      obtain ⟨hsum, hrest⟩ := List.forall_mem_cons.mp hsums
      rw [List.foldl_cons, lastWritten]
      apply ih _ hrest hkeeps.2
      split_ifs with hok
      · exact h.write hkeeps.1 hsum hok
      · have hfail : (f.write w).1 = .noMem := by
          cases hstatus : (f.write w).1 with
          | success => exact absurd hstatus hok
          | noMem => rfl
        rw [TmpFile.step, write_noMem hfail]
        exact h

/-- A read inside the file returns the bytes of the file. -/
theorem read_inside {buff : Nat → UInt8} {size offset k : Nat} (hsize : f.stat.stSize < 2 ^ 63)
    (hinside : offset + size ≤ f.stat.stSize) (hk : k < size) :
    f.read buff size offset k = f.fsData (offset + k) := by
  have hlen : tmpfsReadSize f.stat.stSize size offset = size := by
    unfold tmpfsReadSize sub64
    split_ifs with hend
    · omega
    · rfl
  rw [TmpFile.read, hlen, if_pos hk]

end Writes

/-- After any writes to a new file, with any answers of `krealloc` that keep the old bytes:
reads inside the file return the last bytes written, the size fits the blocks, and a
further write that fails changes nothing. -/
theorem tmpfs_contents {vType : VType} {data : Nat → UInt8} {ws : List WriteCall} {f : TmpFile}
    (hf : f = ws.foldl TmpFile.step (tmpfsCreate vType data))
    (hsums : ∀ w ∈ ws, w.size + w.offset < 2 ^ 63)
    (hkeeps : EveryStep TmpFile.step KreallocKeeps (tmpfsCreate vType data) ws) :
    (∀ buff size offset, offset + size ≤ f.stat.stSize → ∀ k < size, ∀ b,
      lastWritten (tmpfsCreate vType data) ws (fun _ => none) (offset + k) = some b →
        f.read buff size offset k = b) ∧
    f.stat.stSize ≤ f.stat.stBlocks * f.stat.stBlksize ∧
    ∀ w, (f.write w).1 = .noMem → (f.write w).2 = f := by
  have hinv := (fileInv_create vType data).run hsums hkeeps
  rw [← hf] at hinv
  refine ⟨?_, hinv.size_le, fun w hfail => write_noMem hfail⟩
  intro buff size offset hinside k hk b hb
  rw [read_inside hinv.size_lt hinside hk]
  exact hinv.contents _ b hb

/-- Two overlapping writes, the second of which needs a second block. -/
def twoWrites : List WriteCall :=
  [⟨fun _ => 7, 10, 4086, none⟩, ⟨fun _ => 9, 2, 4095, some fun k => if 4086 ≤ k then 7 else 0⟩]

theorem tmpfs_contents_two_writes :
    ∃ f, f = twoWrites.foldl TmpFile.step (tmpfsCreate .vreg fun _ => 0) ∧ f.stat.stSize = 4097 ∧
      f.read (fun _ => 0) 2 4094 0 = 7 ∧ f.read (fun _ => 0) 2 4094 1 = 9 := by
  refine ⟨_, rfl, by decide, ?_⟩
  have hsums : ∀ w ∈ twoWrites, w.size + w.offset < 2 ^ 63 := by simp [twoWrites]
  have hkeeps : EveryStep TmpFile.step KreallocKeeps (tmpfsCreate .vreg fun _ => 0) twoWrites := by
    refine ⟨nofun, ?_, trivial⟩
    intro data hdata k hk
    obtain rfl := Option.some.inj hdata
    have hlt : k < 4096 := hk
    have hfile : (TmpFile.step (tmpfsCreate .vreg fun _ => 0) ⟨fun _ => 7, 10, 4086, none⟩).fsData k =
        if 4086 ≤ k ∧ k < 4086 + 10 then 7 else 0 := rfl
    rw [hfile]
    simp only [show k < 4086 + 10 by omega, and_true]
  have hread := (tmpfs_contents rfl hsums hkeeps).1 (fun _ => 0) 2 4094 (by decide)
  exact ⟨hread 0 (by decide) 7 (by decide), hread 1 (by decide) 9 (by decide)⟩

section Counts

/-- The `int` that `tmpfs_write` returns. -/
def WriteStatus.code : WriteStatus → Nat
  | .success => 0
  | .noMem => 9

/-- `vfs_write` on the file, with `bytes_written` before the file it leaves. -/
def TmpFile.vfsWrite (f : TmpFile) (w : WriteCall) : Nat × TmpFile :=
  ((f.write w).1.code, (f.write w).2)

/-- The value of a word as an `off_t`. -/
def offT (word : Nat) : Int := if word < 2 ^ 63 then word else word - 2 ^ 64

/-- The end of the furthest of the writes. -/
def writeEnd (ws : List WriteCall) : Nat := ws.foldr (fun w reach => max (w.offset + w.size) reach) 0

/-- Every call reports its size, and the file ends where the furthest write ended. -/
def SizesAgree (f : TmpFile) (ws : List WriteCall) : Prop :=
  EveryStep TmpFile.step (fun f w => (f.vfsWrite w).1 = w.size) f ws ∧
    offT (ws.foldl TmpFile.step f).stat.stSize = writeEnd ws

variable {f : TmpFile} {w : WriteCall} {ws : List WriteCall}

/-- With `krealloc` succeeding the write always goes through. -/
theorem write_of_krealloc (halloc : w.krealloc ≠ none) :
    (f.write w).1 = .success ∧ (f.step w).stat = statAfterWrite f.stat w.size w.offset := by
  obtain ⟨data, hdata⟩ := Option.ne_none_iff_exists'.mp halloc
  unfold TmpFile.step TmpFile.write
  rw [hdata]
  split_ifs
  · exact ⟨rfl, rfl⟩
  · exact ⟨rfl, rfl⟩

/-- The size after a run: the size at the start or the end of the furthest write. -/
theorem stSize_run (hblksize : f.stat.stBlksize = 4096)
    (hle : f.stat.stSize ≤ f.stat.stBlocks * f.stat.stBlksize)
    (halloc : ∀ w ∈ ws, w.krealloc ≠ none) (hsums : ∀ w ∈ ws, w.size + w.offset < 2 ^ 64) :
    (ws.foldl TmpFile.step f).stat.stSize = max f.stat.stSize (writeEnd ws) := by
  induction ws generalizing f with
  | nil => exact (Nat.max_eq_left (Nat.zero_le _)).symm
  | cons w rest ih =>
      obtain ⟨hw, hrest⟩ := List.forall_mem_cons.mp halloc
      obtain ⟨hsum, hsums⟩ := List.forall_mem_cons.mp hsums
      have hstat := (write_of_krealloc (f := f) hw).2
      obtain ⟨hblock, hroom, hsize⟩ := statAfterWrite_spec hblksize hle hsum
      rw [← hstat] at hblock hroom hsize
      rw [List.foldl_cons, ih hblock (hblock ▸ hroom) hrest hsums, hsize, Nat.max_assoc]
      rfl

/-- The driver's return code stands where the count belongs, so every count is zero. -/
theorem counts_iff (halloc : ∀ w ∈ ws, w.krealloc ≠ none) :
    EveryStep TmpFile.step (fun f w => (f.vfsWrite w).1 = w.size) f ws ↔ ∀ w ∈ ws, w.size = 0 := by
  induction ws generalizing f with
  | nil => exact ⟨nofun, fun _ => trivial⟩
  | cons w rest ih =>
      obtain ⟨hw, hrest⟩ := List.forall_mem_cons.mp halloc
      have hcode : (f.vfsWrite w).1 = 0 := by
        rw [TmpFile.vfsWrite, (write_of_krealloc hw).1]
        rfl
      rw [List.forall_mem_cons, EveryStep, ih hrest, hcode, eq_comm]

theorem writeEnd_of_size_zero (hsizes : ∀ w ∈ ws, w.size = 0) :
    writeEnd ws = ws.foldr (fun w reach => max w.offset reach) 0 := by
  induction ws with
  | nil => rfl
  | cons w rest ih =>
      obtain ⟨hw, hrest⟩ := List.forall_mem_cons.mp hsizes
      have hcons : writeEnd (w :: rest) = max (w.offset + w.size) (writeEnd rest) := rfl
      rw [hcons, hw, ih hrest, Nat.add_zero, List.foldr_cons]

theorem writeEnd_lt {bound : Nat} (hpos : 0 < bound)
    (hsums : ∀ w ∈ ws, w.size + w.offset < bound) : writeEnd ws < bound := by
  induction ws with
  | nil => exact hpos
  | cons w rest ih =>
      obtain ⟨hsum, hrest⟩ := List.forall_mem_cons.mp hsums
      exact Nat.max_lt.mpr ⟨Nat.add_comm w.size w.offset ▸ hsum, ih hrest⟩

theorem offT_eq_iff {word reach : Nat} (hword : word < 2 ^ 64) :
    offT word = reach ↔ word = reach ∧ reach < 2 ^ 63 := by
  unfold offT
  split_ifs <;> omega

end Counts

/-- The writes to a new file with every allocation succeeding: the counts and the size come
out as written only if nothing is written, and at an offset outside the first block. -/
theorem sizes_agree_iff {vType : VType} {data : Nat → UInt8} {ws : List WriteCall}
    (hwords : ∀ w ∈ ws, w.size < 2 ^ 64 ∧ w.offset < 2 ^ 64)
    (halloc : ∀ w ∈ ws, w.krealloc ≠ none) :
    SizesAgree (tmpfsCreate vType data) ws ↔
      (∀ w ∈ ws, w.size = 0) ∧
        4096 ≤ ws.foldr (fun w reach => max w.offset reach) 0 ∧
        ws.foldr (fun w reach => max w.offset reach) 0 < 2 ^ 63 := by
  rw [SizesAgree, counts_iff halloc]
  apply and_congr_right
  intro hsizes
  have hsums : ∀ w ∈ ws, w.size + w.offset < 2 ^ 64 := by
    intro w hw
    rw [hsizes w hw, Nat.zero_add]
    exact (hwords w hw).2
  have hinv := fileInv_create vType data
  rw [stSize_run hinv.blksize hinv.size_le halloc hsums, ← writeEnd_of_size_zero hsizes]
  have hstart : (tmpfsCreate vType data).stat.stSize = 4096 := rfl
  have hend := writeEnd_lt (by decide) hsums
  rw [hstart, offT_eq_iff (by omega)]
  omega

/-- Ten bytes at the start of a new file. -/
def tenBytes : WriteCall := ⟨fun _ => 7, 10, 0, some fun _ => 0⟩

/-- The call reports no bytes, and the size stays that of the first block. -/
theorem ten_bytes_miscounted :
    tenBytes.krealloc ≠ none ∧ ¬ SizesAgree (tmpfsCreate .vreg fun _ => 0) [tenBytes] := by
  refine ⟨nofun, ?_⟩
  rintro ⟨⟨hcount, -⟩, -⟩
  exact absurd hcount (by decide)

theorem sizes_agree_empty_write :
    SizesAgree (tmpfsCreate .vreg fun _ => 0) [⟨fun _ => 7, 0, 5000, some fun _ => 0⟩] := by
  apply (sizes_agree_iff (by simp) (by simp)).mpr
  exact ⟨by simp, by decide, by decide⟩

end Tellurium.Tmpfs
