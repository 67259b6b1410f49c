import Mathlib.Data.List.Basic
import Mathlib.Logic.Function.Basic
import Mathlib.Tactic.Ring

/-!
The kernel's byte ring buffer (`kernel/klib/ringbuffer.c`). The heads run freely over the
64-bit words and are reduced modulo the capacity only to address the array. Calls hold the
buffer's own lock throughout and are single steps here. `Holds` is the abstract view: the
bytes written and not yet read, oldest first. Over whole runs the buffer is a bounded queue:
the counters may wrap around any number of times.
-/

namespace Tellurium.Klib

structure Ringbuffer where
  capacity : Nat
  readHead : Nat
  writeHead : Nat
  buff : Nat → UInt8

/-- `ringbuffer_alloc` when `kmalloc` answers memory that holds `buff`. -/
def ringbufferAlloc (buff : Nat → UInt8) (size : Nat) : Ringbuffer :=
  {capacity := size, readHead := 0, writeHead := 0, buff}

/-- The bytes copied out, in order, by a read of at most `len` bytes. -/
def ringbufferRead (ring : Ringbuffer) : Nat → List UInt8 × Ringbuffer
  | 0 => ([], ring)
  | len + 1 =>
      if ring.readHead = ring.writeHead then ([], ring)
      else
        let byte := ring.buff (ring.readHead % ring.capacity)
        let rest := ringbufferRead {ring with readHead := (ring.readHead + 1) % 2 ^ 64} len
        (byte :: rest.1, rest.2)

/-- The number of bytes taken from the front of the caller's buffer. -/
def ringbufferWrite (ring : Ringbuffer) : List UInt8 → Nat × Ringbuffer
  | [] => (0, ring)
  | byte :: bytes =>
      if (ring.readHead + ring.capacity) % 2 ^ 64 = ring.writeHead then (0, ring)
      else
        let rest := ringbufferWrite {ring with
          buff := Function.update ring.buff (ring.writeHead % ring.capacity) byte
          writeHead := (ring.writeHead + 1) % 2 ^ 64} bytes
        (rest.1 + 1, rest.2)

def ringbufferSize (ring : Ringbuffer) : Nat :=
  (ring.writeHead + 2 ^ 64 - ring.readHead) % 2 ^ 64

def ringbufferCapacity (ring : Ringbuffer) : Nat := ring.capacity

/-- The buffer holds exactly these bytes, oldest first. The capacity divides the range of
the heads, so a head that wraps around keeps its place in the array. -/
structure Holds (ring : Ringbuffer) (bytes : List UInt8) : Prop where
  capacity_pos : 0 < ring.capacity
  capacity_lt : ring.capacity < 2 ^ 64
  capacity_dvd : ring.capacity ∣ 2 ^ 64
  readHead_lt : ring.readHead < 2 ^ 64
  writeHead_eq : ring.writeHead = (ring.readHead + bytes.length) % 2 ^ 64
  length_le : bytes.length ≤ ring.capacity
  cell : ∀ i (hi : i < bytes.length), ring.buff ((ring.readHead + i) % ring.capacity) = bytes[i]

section Ring

variable {ring : Ringbuffer} {bytes : List UInt8}

theorem holds_alloc (buff : Nat → UInt8) {size : Nat} (hpos : 0 < size) (hlt : size < 2 ^ 64)
    (hdvd : size ∣ 2 ^ 64) : Holds (ringbufferAlloc buff size) [] where
  capacity_pos := hpos
  capacity_lt := hlt
  capacity_dvd := hdvd
  readHead_lt := by simp [ringbufferAlloc]
  writeHead_eq := by simp [ringbufferAlloc]
  length_le := Nat.zero_le _
  cell i hi := absurd hi (Nat.not_lt_zero i)

theorem Holds.heads_eq_iff (h : Holds ring bytes) : ring.readHead = ring.writeHead ↔ bytes = [] := by
  have hread := h.readHead_lt
  have hle := h.length_le
  have hlt := h.capacity_lt
  rw [h.writeHead_eq, ← List.length_eq_zero_iff]
  omega

theorem Holds.full_iff (h : Holds ring bytes) :
    (ring.readHead + ring.capacity) % 2 ^ 64 = ring.writeHead ↔ bytes.length = ring.capacity := by
  have hread := h.readHead_lt
  have hle := h.length_le
  have hlt := h.capacity_lt
  rw [h.writeHead_eq]
  omega

theorem Holds.size_eq (h : Holds ring bytes) : ringbufferSize ring = bytes.length := by
  have hread := h.readHead_lt
  have hle := h.length_le
  have hlt := h.capacity_lt
  rw [ringbufferSize, h.writeHead_eq]
  omega

/-- Reading the oldest byte. -/
theorem Holds.pop {byte : UInt8} (h : Holds ring (byte :: bytes)) :
    ring.buff (ring.readHead % ring.capacity) = byte ∧
      Holds {ring with readHead := (ring.readHead + 1) % 2 ^ 64} bytes := by
  have hlen := h.length_le
  rw [List.length_cons] at hlen
  refine ⟨h.cell 0 (Nat.zero_lt_succ _), h.capacity_pos, h.capacity_lt, h.capacity_dvd,
    Nat.mod_lt _ (by decide), ?_, by simp only; omega, fun i hi => ?_⟩
  · have hwrite := h.writeHead_eq
    simp only [List.length_cons] at hwrite ⊢
    rw [hwrite]
    omega
  · have hcell := h.cell (i + 1) (Nat.succ_lt_succ hi)
    have hplace : ((ring.readHead + 1) % 2 ^ 64 + i) % ring.capacity =
        (ring.readHead + (i + 1)) % ring.capacity := by
      rw [Nat.add_mod, Nat.mod_mod_of_dvd _ h.capacity_dvd, ← Nat.add_mod]
      congr 1
      omega
    simp only [List.getElem_cons_succ] at hcell
    simp only [hplace, hcell]

/-- Writing a byte behind the newest one. The free cell is none of the occupied ones because
fewer than `capacity` places lie between the heads. -/
theorem Holds.push (h : Holds ring bytes) (hroom : bytes.length < ring.capacity) (byte : UInt8) :
    Holds {ring with
      buff := Function.update ring.buff (ring.writeHead % ring.capacity) byte
      writeHead := (ring.writeHead + 1) % 2 ^ 64} (bytes ++ [byte]) := by
  have hplace : ring.writeHead % ring.capacity = (ring.readHead + bytes.length) % ring.capacity := by
    rw [h.writeHead_eq, Nat.mod_mod_of_dvd _ h.capacity_dvd]
  refine ⟨h.capacity_pos, h.capacity_lt, h.capacity_dvd, h.readHead_lt, ?_, ?_, fun i hi => ?_⟩
  · have hwrite := h.writeHead_eq
    simp only [List.length_append, List.length_singleton]
    omega
  · simp only [List.length_append, List.length_singleton]
    omega
  · simp only [List.length_append, List.length_singleton] at hi
    simp only [hplace]
    rcases Nat.lt_or_ge i bytes.length with hold | hnew
    · have hne : (ring.readHead + i) % ring.capacity ≠
          (ring.readHead + bytes.length) % ring.capacity := by
        intro heq
        have hmod := Nat.sub_mod_eq_zero_of_mod_eq heq.symm
        rw [show ring.readHead + bytes.length - (ring.readHead + i) = bytes.length - i by omega]
          at hmod
        have hle := Nat.le_of_dvd (by omega) (Nat.dvd_of_mod_eq_zero hmod)
        omega
      rw [Function.update_of_ne hne, h.cell i hold, List.getElem_append_left hold]
    · obtain rfl : i = bytes.length := by omega
      simp

/-- A read returns the oldest bytes, up to `len` of them, and leaves the others. -/
theorem ringbufferRead_spec (h : Holds ring bytes) (len : Nat) :
    (ringbufferRead ring len).1 = bytes.take len ∧
      Holds (ringbufferRead ring len).2 (bytes.drop len) ∧
      (ringbufferRead ring len).2.capacity = ring.capacity := by
  induction len generalizing ring bytes with
  | zero => exact ⟨rfl, h, rfl⟩
  | succ len ih =>
      rw [ringbufferRead]
      cases bytes with
      | nil =>
          rw [if_pos (h.heads_eq_iff.mpr rfl)]
          exact ⟨rfl, h, rfl⟩
      | cons byte bytes =>
          rw [if_neg fun heq => List.cons_ne_nil _ _ (h.heads_eq_iff.mp heq)]
          obtain ⟨hbyte, hrest⟩ := h.pop
          obtain ⟨htake, hdrop, hcap⟩ := ih hrest
          exact ⟨by simp only [hbyte, htake, List.take_succ_cons], hdrop, hcap⟩

/-- A write takes as many bytes as there is room for and puts them behind the others. -/
theorem ringbufferWrite_spec (h : Holds ring bytes) (new : List UInt8) :
    (ringbufferWrite ring new).1 = min new.length (ring.capacity - bytes.length) ∧
      Holds (ringbufferWrite ring new).2 (bytes ++ new.take (ringbufferWrite ring new).1) ∧
      (ringbufferWrite ring new).2.capacity = ring.capacity := by
  induction new generalizing ring bytes with
  | nil => exact ⟨by simp [ringbufferWrite], by simpa [ringbufferWrite] using h, rfl⟩
  | cons byte new ih =>
      have hle := h.length_le
      rw [ringbufferWrite]
      by_cases hfull : bytes.length = ring.capacity
      · rw [if_pos (h.full_iff.mpr hfull)]
        exact ⟨by simp only [hfull]; omega, by simpa using h, rfl⟩
      · rw [if_neg fun heq => hfull (h.full_iff.mp heq)]
        obtain ⟨hcount, hholds, hcap⟩ := ih (h.push (by omega) byte)
        simp only [List.length_append, List.length_singleton] at hcount
        refine ⟨by simp only [hcount, List.length_cons]; omega, ?_, hcap⟩
        simpa [List.append_assoc] using hholds

end Ring

/-- A call on the buffer. -/
inductive RingCall where
  | write (bytes : List UInt8)
  | read (len : Nat)

/-- What a call answers: the count of a write, the bytes that a read copied out. -/
inductive RingAnswer where
  | written (count : Nat)
  | bytes (bytes : List UInt8)
  deriving DecidableEq, Repr

def ringStep (ring : Ringbuffer) : RingCall → RingAnswer × Ringbuffer
  | .write bytes => (.written (ringbufferWrite ring bytes).1, (ringbufferWrite ring bytes).2)
  | .read len => (.bytes (ringbufferRead ring len).1, (ringbufferRead ring len).2)

/-- The same call on a queue that is full at `capacity` bytes. -/
def queueStep (capacity : Nat) (pending : List UInt8) : RingCall → RingAnswer × List UInt8
  | .write bytes =>
      let count := min bytes.length (capacity - pending.length)
      (.written count, pending ++ bytes.take count)
  | .read len =>
      let count := min len pending.length
      (.bytes (pending.take count), pending.drop count)

/-- The answers of a run, and the state that it ends in. -/
def answersOf {σ : Type} (step : σ → RingCall → RingAnswer × σ) :
    σ → List RingCall → List RingAnswer × σ
  | s, [] => ([], s)
  | s, call :: rest =>
      let later := answersOf step (step s call).2 rest
      ((step s call).1 :: later.1, later.2)

theorem Holds.step {ring : Ringbuffer} {pending : List UInt8} (h : Holds ring pending)
    (call : RingCall) :
    (ringStep ring call).1 = (queueStep ring.capacity pending call).1 ∧
      Holds (ringStep ring call).2 (queueStep ring.capacity pending call).2 ∧
      (ringStep ring call).2.capacity = ring.capacity := by
  cases call with
  | write bytes =>
      obtain ⟨hcount, hholds, hcap⟩ := ringbufferWrite_spec h bytes
      rw [hcount] at hholds
      exact ⟨congrArg RingAnswer.written hcount, hholds, hcap⟩
  | read len =>
      obtain ⟨htake, hdrop, hcap⟩ := ringbufferRead_spec h len
      rw [List.take_eq_take_min] at htake
      rw [List.drop_eq_drop_min] at hdrop
      exact ⟨congrArg RingAnswer.bytes htake, hdrop, hcap⟩

/-- A run of the buffer is a run of the queue. -/
theorem Holds.run {ring : Ringbuffer} {pending : List UInt8} (h : Holds ring pending)
    (calls : List RingCall) :
    (answersOf ringStep ring calls).1 = (answersOf (queueStep ring.capacity) pending calls).1 ∧
      Holds (answersOf ringStep ring calls).2 (answersOf (queueStep ring.capacity) pending calls).2 ∧
      (answersOf ringStep ring calls).2.capacity = ring.capacity := by
  induction calls generalizing ring pending with
  | nil => exact ⟨rfl, h, rfl⟩
  | cons call rest ih =>
      obtain ⟨hanswer, hholds, hcap⟩ := h.step call
      obtain ⟨hanswers, hheld, hcapacity⟩ := ih hholds
      rw [hcap] at hanswers hheld hcapacity
      simp only [answersOf]
      exact ⟨by rw [hanswer, hanswers], hheld, hcapacity⟩

/-- Any calls on a new buffer whose capacity divides the range of the counters: the answers
are those of the bounded queue, whose contents the buffer holds in order between its heads. -/
theorem ringbuffer_fifo (buff : Nat → UInt8) (capacity : UInt64) (hpos : 1 ≤ capacity.toNat)
    (hdvd : capacity.toNat ∣ 2 ^ 64) (calls : List RingCall) {ring : Ringbuffer}
    {pending : List UInt8}
    (hring : ring = (answersOf ringStep (ringbufferAlloc buff capacity.toNat) calls).2)
    (hpending : pending = (answersOf (queueStep capacity.toNat) [] calls).2) :
    (answersOf ringStep (ringbufferAlloc buff capacity.toNat) calls).1 =
        (answersOf (queueStep capacity.toNat) [] calls).1 ∧
      ringbufferSize ring = pending.length ∧ pending.length ≤ capacity.toNat ∧
      ∀ i (hi : i < pending.length), ring.buff ((ring.readHead + i) % capacity.toNat) = pending[i] := by
  obtain ⟨hanswers, hheld, hcap⟩ :=
    (holds_alloc buff hpos capacity.toNat_lt hdvd).run calls
  change _ = (answersOf (queueStep capacity.toNat) [] calls).1 at hanswers
  change Holds _ (answersOf (queueStep capacity.toNat) [] calls).2 at hheld
  change _ = capacity.toNat at hcap
  rw [← hring] at hheld hcap
  rw [← hpending] at hheld
  have hle := hheld.length_le
  have hcell := hheld.cell
  rw [hcap] at hle hcell
  exact ⟨hanswers, hheld.size_eq, hle, hcell⟩

/-- Two cells, filled, read once and filled again across the end of the array. -/
theorem ringbuffer_fifo_two_cells :
    (answersOf ringStep (ringbufferAlloc (fun _ => 0) 2) [.write [1, 2, 3], .read 1, .write [4]]).1 =
      [.written 2, .bytes [1], .written 1] :=
  (ringbuffer_fifo (fun _ => 0) 2 (by decide) (by decide)
    [.write [1, 2, 3], .read 1, .write [4]] rfl rfl).1.trans (by decide)

end Tellurium.Klib
