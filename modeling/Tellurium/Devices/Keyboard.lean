import Tellurium.Lib.Circular
import Tellurium.Lib.Run

/-!
The PS/2 keyboard (`kernel/devices/ps2.c`): the interrupt handler translates scancodes and
queues characters, the device file hands them out. What the handler does for the scheduler
is left out. A read is described by the stores it makes, as offsets into the caller's
buffer; the source steps through that buffer with a pointer to 64-bit words.
-/

namespace Tellurium.Ps2

open Tellurium.Lib

def queueSize : Nat := 200

def charCapslock : List Char :=
  ['\x00', '\x00', '1', '2', '3', '4', '5', '6', '7', '8', '9', '0', '-', '=', '\x08',
    '\t', 'Q', 'W', 'E', 'R', 'T', 'Y', 'U', 'I', 'O', 'P', '[', ']', '\n',
    '\x00', 'A', 'S', 'D', 'F', 'G', 'H', 'J', 'K', 'L', ';', '\x27', '\x60',
    '\x00', '\\', 'Z', 'X', 'C', 'V', 'B', 'N', 'M', ',', '.', '/', '\x00',
    '*', '\x00', ' ']

def charNoCapslock : List Char :=
  ['\x00', '\x00', '1', '2', '3', '4', '5', '6', '7', '8', '9', '0', '-', '=', '\x08',
    '\t', 'q', 'w', 'e', 'r', 't', 'y', 'u', 'i', 'o', 'p', '[', ']', '\n',
    '\x00', 'a', 's', 'd', 'f', 'g', 'h', 'j', 'k', 'l', ';', '\x27', '\x60',
    '\x00', '\\', 'z', 'x', 'c', 'v', 'b', 'n', 'm', ',', '.', '/', '\x00',
    '*', '\x00', ' ']

def charShift : List Char :=
  ['\x00', '\x00', '!', '@', '#', '$', '%', '^', '&', '*', '(', ')', '_', '+', '\x08',
    '\t', 'Q', 'W', 'E', 'R', 'T', 'Y', 'U', 'I', 'O', 'P', '\x7b', '\x7d', '\n',
    '\x00', 'A', 'S', 'D', 'F', 'G', 'H', 'J', 'K', 'L', ':', '\x22', '~',
    '\x00', '|', 'Z', 'X', 'C', 'V', 'B', 'N', 'M', '<', '>', '?', '\x00',
    '*', '\x00', ' ']

def charShiftCapslock : List Char :=
  ['\x00', '\x00', '!', '@', '#', '$', '%', '^', '&', '*', '(', ')', '_', '+', '\x08',
    '\t', 'q', 'w', 'e', 'r', 't', 'y', 'u', 'i', 'o', 'p', '\x7b', '\x7d', '\n',
    '\x00', 'a', 's', 'd', 'f', 'g', 'h', 'j', 'k', 'l', ':', '\x22', '~',
    '\x00', '|', 'z', 'x', 'c', 'v', 'b', 'n', 'm', '<', '>', '?', '\x00',
    '*', '\x00', ' ']

structure KeyboardState where
  isCapslock : Bool
  isShift : Bool

namespace KeyboardState

/-- The modifier keys, before the scancode is translated. -/
def update (k : KeyboardState) (c : UInt8) : KeyboardState :=
  if c = 0x3A then {k with isCapslock := !k.isCapslock}
  else if c = 0x2A then {k with isShift := true}
  else if c = 0xAA then {k with isShift := false}
  else k

def charFormat (k : KeyboardState) : List Char :=
  if k.isCapslock && k.isShift then charShiftCapslock
  else if k.isCapslock then charCapslock
  else if k.isShift then charShift
  else charNoCapslock

def translate (k : KeyboardState) (c : UInt8) : Char := k.charFormat.getD c.toNat '\x00'

end KeyboardState

structure Keyboard where
  keyboardState : KeyboardState
  keyboardPackets : Circular Char

/-- The state that the driver starts in. -/
def Keyboard.init : Keyboard := ⟨⟨false, false⟩, ⟨fun _ => '\x00', 0, 0, 0⟩⟩

def keyboardHandler (s : Keyboard) (c : UInt8) : Keyboard :=
  let state := s.keyboardState.update c
  if c ≤ 0x39 ∧ s.keyboardPackets.count < queueSize then
    ⟨state, s.keyboardPackets.enqueue queueSize (state.translate c)⟩
  else ⟨state, s.keyboardPackets⟩

/-- What a read returns, and its stores into the caller's buffer. -/
structure KeyRead where
  count : Nat
  stores : List (Nat × Char)

/-- The loop of `dev_keyboard_read`: at most `n` more characters, the next one to be stored at
the offset `kbuff`. -/
def keyboardReadLoop (packets : Circular Char) (kbuff : Nat) : Nat → KeyRead × Circular Char
  | 0 => (⟨0, []⟩, packets)
  | n + 1 =>
      if packets.count = 0 then (⟨0, []⟩, packets)
      else
        let rest := keyboardReadLoop (packets.dequeue queueSize) (kbuff + 8) n
        (⟨rest.1.count + 1, (kbuff, packets.front) :: rest.1.stores⟩, rest.2)

def devKeyboardRead (s : Keyboard) (size : Nat) : KeyRead × Keyboard :=
  if size < queueSize then
    let read := keyboardReadLoop s.keyboardPackets 0 size
    (read.1, {s with keyboardPackets := read.2})
  else (⟨0, []⟩, s)

inductive KeyEvent where
  | scancode (c : UInt8)
  | read (size : Nat)

def Keyboard.step (s : Keyboard) : KeyEvent → Keyboard
  | .scancode c => keyboardHandler s c
  | .read size => (devKeyboardRead s size).2

/-- The reads of a run, in order. -/
def Keyboard.reads : Keyboard → List KeyEvent → List KeyRead
  | _, [] => []
  | s, .scancode c :: rest => Keyboard.reads (s.step (.scancode c)) rest
  | s, .read size :: rest => (devKeyboardRead s size).1 :: Keyboard.reads (s.step (.read size)) rest

/-- What the device is for: characters are typed, and taken in order. -/
structure Typing where
  keyboardState : KeyboardState
  accepted : List Char
  taken : Nat

namespace Typing

def init : Typing := ⟨⟨false, false⟩, [], 0⟩

def pending (t : Typing) : List Char := t.accepted.drop t.taken

/-- A character arrives while fewer than `queueSize` are pending; a read takes what is
pending, at most `size` characters. -/
def step (t : Typing) : KeyEvent → Typing
  | .scancode c =>
      let state := t.keyboardState.update c
      if c ≤ 0x39 ∧ t.pending.length < queueSize then
        {t with keyboardState := state, accepted := t.accepted ++ [state.translate c]}
      else {t with keyboardState := state}
  | .read size => {t with taken := t.taken + min size t.pending.length}

end Typing

def KeyRead.chars (r : KeyRead) : List Char := r.stores.map Prod.snd

/-- The read stores `count` characters at the start of the buffer, and nothing else. -/
def KeyRead.Contiguous (r : KeyRead) : Prop :=
  r.count = r.chars.length ∧ r.stores = r.chars.mapIdx fun i ch => (i, ch)

/-- A read that has at most one character to deliver. -/
def AtMostOne (s : Keyboard) : KeyEvent → Prop
  | .scancode _ => True
  | .read size => size ≤ 1 ∨ s.keyboardPackets.count ≤ 1

section Read

variable {q : Circular Char} {items : List Char}

/-- The loop hands out the oldest characters, a 64-bit word apart. -/
theorem keyboardReadLoop_spec (h : q.Holds queueSize items) (kbuff n : Nat) :
    (keyboardReadLoop q kbuff n).1.count = min n items.length ∧
      (keyboardReadLoop q kbuff n).1.stores =
        (items.take n).mapIdx (fun i ch => (kbuff + 8 * i, ch)) ∧
      (keyboardReadLoop q kbuff n).2.Holds queueSize (items.drop n) := by
  induction n generalizing q items kbuff with
  | zero => exact ⟨by simp [keyboardReadLoop], rfl, h⟩
  | succ n ih =>
      rw [keyboardReadLoop]
      cases items with
      | nil =>
          rw [if_pos (h.count_eq_zero_iff.mpr rfl)]
          exact ⟨by simp, rfl, h⟩
      | cons ch rest =>
          rw [if_neg fun hzero => List.cons_ne_nil ch rest (h.count_eq_zero_iff.mp hzero)]
          obtain ⟨hcount, hstores, hheld⟩ := ih h.dequeue (kbuff + 8)
          refine ⟨?_, ?_, hheld⟩
          · simp only [hcount, List.length_cons]
            omega
          · simp only [hstores, h.front, List.take_succ_cons, List.mapIdx_cons]
            simp only [Nat.mul_zero, Nat.add_zero, Nat.mul_add, Nat.add_assoc, Nat.add_comm 8]

end Read

/-- The driver's state stands for what was typed and taken. -/
structure Follows (s : Keyboard) (t : Typing) : Prop where
  state : s.keyboardState = t.keyboardState
  holds : s.keyboardPackets.Holds queueSize t.pending
  taken_le : t.taken ≤ t.accepted.length

section Run

variable {s : Keyboard} {t : Typing} {size : Nat}

theorem Follows.read (h : Follows s t) (hsize : size < queueSize) :
    (devKeyboardRead s size).1.count = min size t.pending.length ∧
      (devKeyboardRead s size).1.stores =
        (t.pending.take size).mapIdx (fun i ch => (8 * i, ch)) ∧
      Follows (devKeyboardRead s size).2 (t.step (.read size)) := by
  obtain ⟨hcount, hstores, hheld⟩ := keyboardReadLoop_spec h.holds 0 size
  have hlen : t.pending.length = t.accepted.length - t.taken := List.length_drop
  have htaken := h.taken_le
  rw [devKeyboardRead, if_pos hsize]
  refine ⟨hcount, ?_, h.state, ?_, ?_⟩
  · simpa only [Nat.zero_add] using hstores
  · have hdrop : (t.step (.read size)).pending = t.pending.drop size := by
      rw [Typing.pending, Typing.step, ← List.drop_drop]
      change t.pending.drop (min size t.pending.length) = t.pending.drop size
      rcases Nat.le_total size t.pending.length with hle | hle
      · rw [Nat.min_eq_left hle]
      · rw [Nat.min_eq_right hle, List.drop_length, List.drop_eq_nil_of_le hle]
    rw [hdrop]
    exact hheld
  · simp only [Typing.step]
    omega

theorem Follows.scancode (h : Follows s t) (c : UInt8) :
    Follows (keyboardHandler s c) (t.step (.scancode c)) := by
  have hcount := h.holds.count_eq
  simp only [keyboardHandler, Typing.step, hcount, h.state]
  split_ifs with hqueued
  · refine ⟨rfl, ?_, ?_⟩
    · have hdrop : ∀ ch, (t.accepted ++ [ch]).drop t.taken = t.pending ++ [ch] :=
        fun ch => List.drop_append_of_le_length h.taken_le
      simp only [Typing.pending, hdrop]
      exact h.holds.enqueue hqueued.2 _
    · simp only [List.length_append]
      exact Nat.le_add_right_of_le h.taken_le
  · exact ⟨rfl, h.holds, h.taken_le⟩

theorem Follows.step (h : Follows s t) {e : KeyEvent} (hsize : ∀ size, e = .read size → size < queueSize) :
    Follows (s.step e) (t.step e) := by
  cases e with
  | scancode c => exact h.scancode c
  | read size => exact (h.read (hsize size rfl)).2.2

theorem follows_init : Follows Keyboard.init Typing.init :=
  ⟨rfl, Circular.holds_empty _ (by decide), Nat.le_refl 0⟩

theorem Follows.chars_eq (h : Follows s t) (hsize : size < queueSize) :
    (devKeyboardRead s size).1.chars = t.pending.take size := by
  rw [KeyRead.chars, (h.read hsize).2.1]
  apply List.ext_getElem?
  intro i
  simp [List.getElem?_map, List.getElem?_mapIdx, Option.map_map, Function.comp_def]

/-- Only the first character is stored where it belongs. -/
theorem Follows.contiguous_iff (h : Follows s t) (hsize : size < queueSize) :
    (devKeyboardRead s size).1.Contiguous ↔ size ≤ 1 ∨ s.keyboardPackets.count ≤ 1 := by
  obtain ⟨hcount, hstores, -⟩ := h.read hsize
  have hlen : (t.pending.take size).length = min size t.pending.length := List.length_take
  rw [KeyRead.Contiguous, h.chars_eq hsize, hcount, hstores, hlen, h.holds.count_eq]
  constructor
  · rintro ⟨-, hsame⟩
    by_contra hmany
    have hone : 1 < (t.pending.take size).length := by omega
    have hsecond := congrArg (fun l => l[1]?) hsame
    simp [List.getElem?_mapIdx, List.getElem?_eq_getElem hone] at hsecond
  · intro hfew
    refine ⟨rfl, List.mapIdx_eq_mapIdx_iff.mpr ?_⟩
    intro i hi
    exact Prod.ext (by dsimp only; omega) rfl

/-- What was taken before and what the reads of a run deliver is what is taken after it. -/
theorem Follows.delivered (h : Follows s t) {events : List KeyEvent}
    (hsizes : ∀ size, .read size ∈ events → size < queueSize) :
    t.accepted.take t.taken ++ (s.reads events).flatMap KeyRead.chars =
      (events.foldl Typing.step t).accepted.take (events.foldl Typing.step t).taken := by
  induction events generalizing s t with
  | nil => simp [Keyboard.reads]
  | cons e rest ih =>
      have hnext := ih (h.step fun size he => hsizes size (he ▸ List.mem_cons_self))
        fun size hmem => hsizes size (List.mem_cons_of_mem _ hmem)
      rw [List.foldl_cons, ← hnext]
      cases e with
      | scancode c =>
          rw [Keyboard.reads]
          congr 1
          simp only [Typing.step]
          split_ifs with hqueued
          · exact (List.take_append_of_le_length h.taken_le).symm
          · rfl
      | read size =>
          have hsize := hsizes size List.mem_cons_self
          have htake : t.pending.take (min size t.pending.length) = t.pending.take size := by
            rw [← List.take_take, List.take_length]
          rw [Keyboard.reads, List.flatMap_cons, h.chars_eq hsize, ← List.append_assoc, ← htake]
          congr 1
          exact (List.take_add).symm

theorem Follows.contiguous_run_iff (h : Follows s t) {events : List KeyEvent}
    (hsizes : ∀ size, .read size ∈ events → size < queueSize) :
    (∀ r ∈ s.reads events, r.Contiguous) ↔ EveryStep Keyboard.step AtMostOne s events := by
  induction events generalizing s t with
  | nil => simp [Keyboard.reads, EveryStep]
  | cons e rest ih =>
      have hnext := ih (h.step fun size he => hsizes size (he ▸ List.mem_cons_self))
        fun size hmem => hsizes size (List.mem_cons_of_mem _ hmem)
      cases e with
      | scancode c =>
          rw [Keyboard.reads, EveryStep, hnext, AtMostOne, true_and]
      | read size =>
          have hsize := hsizes size List.mem_cons_self
          rw [Keyboard.reads, List.forall_mem_cons, EveryStep, hnext, h.contiguous_iff hsize,
            AtMostOne]

end Run

/-- The reads of a run store their characters contiguously, and these are a prefix of the
characters typed while there was room, exactly if no read has two characters to deliver. -/
theorem keyboard_delivery_iff {events : List KeyEvent}
    (hsizes : ∀ size, .read size ∈ events → size < queueSize) :
    ((∀ r ∈ Keyboard.init.reads events, r.Contiguous) ∧
      (Keyboard.init.reads events).flatMap KeyRead.chars <+:
        (events.foldl Typing.step Typing.init).accepted) ↔
      EveryStep Keyboard.step AtMostOne Keyboard.init events := by
  obtain ⟨tail, htail⟩ := List.take_prefix
    (events.foldl Typing.step Typing.init).taken (events.foldl Typing.step Typing.init).accepted
  rw [← follows_init.delivered hsizes] at htail
  rw [and_iff_left ⟨tail, htail⟩]
  exact follows_init.contiguous_run_iff hsizes

/-- A capital letter and a small one, read one by one; the shift key queues a null. -/
theorem keyboard_delivery_two_letters :
    ∃ events : List KeyEvent,
      (Keyboard.init.reads events).flatMap KeyRead.chars = ['\x00', 'H', 'i'] ∧
      (∀ r ∈ Keyboard.init.reads events, r.Contiguous) ∧
      (Keyboard.init.reads events).flatMap KeyRead.chars <+:
        (events.foldl Typing.step Typing.init).accepted := by
  refine ⟨[.scancode 0x2A, .scancode 0x23, .scancode 0xAA, .read 1, .scancode 0x17, .read 1,
    .read 1], by decide, ?_⟩
  apply (keyboard_delivery_iff ?_).mpr
  · simp [EveryStep, AtMostOne]
  · simp [queueSize]

/-- Two characters in one read: the second one lands eight bytes further on. -/
theorem keyboard_read_scatters :
    ∃ events : List KeyEvent, (∀ size, .read size ∈ events → size < queueSize) ∧
      (Keyboard.init.reads events).map KeyRead.stores = [[(0, 'h'), (8, 'i')]] ∧
      ¬ ∀ r ∈ Keyboard.init.reads events, r.Contiguous := by
  refine ⟨[.scancode 0x23, .scancode 0x17, .read 2], by simp [queueSize], by decide, ?_⟩
  intro hall
  have hread := (hall _ List.mem_cons_self).2
  revert hread
  decide

end Tellurium.Ps2
