import Tellurium.Devices.Keyboard
import Mathlib.Data.List.Infix

/-!
The PS/2 mouse (`kernel/devices/ps2.c`): the interrupt handler assembles packets from three
bytes each and queues them, the device file hands them out. A header byte that is not
valid sets the discard flag without advancing the cycle, so the rest of its packet is
taken for headers.
-/

namespace Tellurium.Ps2

open Tellurium.Lib

structure MouseData where
  flags : UInt8
  deltaX : Int
  deltaY : Int
  deriving DecidableEq, Repr

def sizeofMouseData : Nat := 12

structure Mouse where
  mousePackets : Circular MouseData
  mouseData : MouseData
  mouseCycle : Nat
  mouseDiscard : Bool

def Mouse.init : Mouse := ⟨⟨fun _ => ⟨0, 0, 0⟩, 0, 0, 0⟩, ⟨0, 0, 0⟩, 0, false⟩

/-- Bit 3 clear, or one of the overflow bits 6 and 7 set. -/
def badHeader (data : UInt8) : Bool :=
  data &&& ((1 : UInt8) <<< 3) == 0 || data &&& ((1 : UInt8) <<< 6) != 0 ||
    data &&& ((1 : UInt8) <<< 7) != 0

/-- The packet is complete: drop it or queue it. -/
def finishPacket (s : Mouse) : Mouse :=
  if s.mouseDiscard then {s with mouseDiscard := false}
  else if s.mousePackets.count ≥ queueSize then s
  else {s with mousePackets := s.mousePackets.enqueue queueSize s.mouseData}

def mouseHandler (s : Mouse) (data : UInt8) : Mouse :=
  match s.mouseCycle with
  | 0 =>
      let s := {s with mouseData := {s.mouseData with flags := data}}
      if badHeader data then {s with mouseDiscard := true} else {s with mouseCycle := 1}
  | 1 => {s with mouseData := {s.mouseData with deltaX := data.toInt8.toInt}, mouseCycle := 2}
  | 2 =>
      finishPacket
        {s with mouseData := {s.mouseData with deltaY := data.toInt8.toInt}, mouseCycle := 0}
  | _ => {s with mouseCycle := 0}

/-- A packet is returned with its size; none means that the read returned 0. -/
def devMouseRead (s : Mouse) (size : Nat) : Option MouseData × Mouse :=
  if size = sizeofMouseData ∧ s.mousePackets.count ≠ 0 then
    (some s.mousePackets.front, {s with mousePackets := s.mousePackets.dequeue queueSize})
  else (none, s)

inductive MouseEvent where
  | byte (data : UInt8)
  | read (size : Nat)

def Mouse.step (s : Mouse) : MouseEvent → Mouse
  | .byte data => mouseHandler s data
  | .read size => (devMouseRead s size).2

/-- The packets that the reads of a run return, in order. -/
def Mouse.reads : Mouse → List MouseEvent → List MouseData
  | _, [] => []
  | s, .byte data :: rest => Mouse.reads (s.step (.byte data)) rest
  | s, .read size :: rest =>
      (devMouseRead s size).1.toList ++ Mouse.reads (s.step (.read size)) rest

def MouseEvent.byte? : MouseEvent → Option UInt8
  | .byte data => some data
  | .read _ => none

/-- Three bytes that the mouse sends. -/
structure RawPacket where
  header : UInt8
  x : UInt8
  y : UInt8

namespace RawPacket

def bytes (p : RawPacket) : List UInt8 := [p.header, p.x, p.y]

def decode (p : RawPacket) : MouseData := ⟨p.header, p.x.toInt8.toInt, p.y.toInt8.toInt⟩

/-- What should be delivered of a stream. -/
def goodPackets (packets : List RawPacket) : List MouseData :=
  (packets.filter fun p => !badHeader p.header).map decode

end RawPacket

/-- There is room for a packet when its last byte arrives. -/
def RoomForPacket (s : Mouse) : MouseEvent → Prop
  | .byte _ => s.mouseCycle = 2 → s.mousePackets.count < queueSize
  | .read _ => True

/-- Where the driver is in a stream of good packets: the bytes still to come and the packets
that they complete. -/
inductive Ahead (s : Mouse) (bytes : List UInt8) (out : List MouseData) : Prop
  | header (packets : List RawPacket) (hcycle : s.mouseCycle = 0)
      (hgood : ∀ p ∈ packets, badHeader p.header = false)
      (hbytes : bytes = packets.flatMap RawPacket.bytes)
      (hout : out = packets.map RawPacket.decode)
  | deltaX (p : RawPacket) (packets : List RawPacket) (hcycle : s.mouseCycle = 1)
      (hflags : s.mouseData.flags = p.header)
      (hgood : ∀ p ∈ packets, badHeader p.header = false)
      (hbytes : bytes = p.x :: p.y :: packets.flatMap RawPacket.bytes)
      (hout : out = p.decode :: packets.map RawPacket.decode)
  | deltaY (p : RawPacket) (packets : List RawPacket) (hcycle : s.mouseCycle = 2)
      (hflags : s.mouseData.flags = p.header) (hx : s.mouseData.deltaX = p.x.toInt8.toInt)
      (hgood : ∀ p ∈ packets, badHeader p.header = false)
      (hbytes : bytes = p.y :: packets.flatMap RawPacket.bytes)
      (hout : out = p.decode :: packets.map RawPacket.decode)

section Run

variable {s : Mouse} {bytes : List UInt8} {items out : List MouseData} {data : UInt8}

/-- One byte of a good stream: the packets in the queue and ahead stay the same. -/
theorem Ahead.byte (h : Ahead s (data :: bytes) out) (hdiscard : s.mouseDiscard = false)
    (hholds : s.mousePackets.Holds queueSize items)
    (hroom : s.mouseCycle = 2 → s.mousePackets.count < queueSize) :
    ∃ items' out', Ahead (mouseHandler s data) bytes out' ∧
      (mouseHandler s data).mouseDiscard = false ∧
      (mouseHandler s data).mousePackets.Holds queueSize items' ∧ items' ++ out' = items ++ out := by
  cases h with
  | header packets hcycle hgood hbytes hout =>
      cases packets with
      | nil => cases hbytes
      | cons p packets =>
          obtain ⟨hp, hrest⟩ := List.forall_mem_cons.mp hgood
          obtain ⟨rfl, rfl⟩ := List.cons.inj hbytes
          simp only [mouseHandler, hcycle, hp]
          exact ⟨items, out, .deltaX p packets rfl rfl hrest rfl hout, hdiscard, hholds, rfl⟩
  | deltaX p packets hcycle hflags hgood hbytes hout =>
      obtain ⟨rfl, rfl⟩ := List.cons.inj hbytes
      simp only [mouseHandler, hcycle]
      exact ⟨items, out, .deltaY p packets rfl hflags rfl hgood rfl hout, hdiscard, hholds, rfl⟩
  | deltaY p packets hcycle hflags hx hgood hbytes hout =>
      obtain ⟨rfl, rfl⟩ := List.cons.inj hbytes
      have hfree := hroom hcycle
      simp only [mouseHandler, hcycle, finishPacket, hdiscard, Bool.false_eq_true, if_false,
        if_neg (Nat.not_le.mpr hfree), hflags, hx]
      refine ⟨items ++ [p.decode], packets.map RawPacket.decode,
        .header packets rfl hgood rfl rfl, trivial, ?_, by simp [hout]⟩
      exact hholds.enqueue (hholds.count_eq ▸ hfree) _

/-- A read takes the oldest packet, or nothing. -/
theorem devMouseRead_spec (hholds : s.mousePackets.Holds queueSize items) (size : Nat) :
    ∃ items', (devMouseRead s size).2.mousePackets.Holds queueSize items' ∧
      (devMouseRead s size).1.toList ++ items' = items ∧
      (devMouseRead s size).2.mouseData = s.mouseData ∧
      (devMouseRead s size).2.mouseCycle = s.mouseCycle ∧
      (devMouseRead s size).2.mouseDiscard = s.mouseDiscard := by
  rw [devMouseRead]
  split_ifs with hready
  · cases items with
    | nil => exact absurd (hholds.count_eq_zero_iff.mpr rfl) hready.2
    | cons x items =>
        refine ⟨items, hholds.dequeue, ?_, rfl, rfl, rfl⟩
        rw [hholds.front]
        rfl
  · exact ⟨items, hholds, rfl, rfl, rfl, rfl⟩

theorem Ahead.congr {s' : Mouse} (h : Ahead s bytes out) (hdata : s'.mouseData = s.mouseData)
    (hcycle : s'.mouseCycle = s.mouseCycle) : Ahead s' bytes out := by
  cases h with
  | header packets hc hgood hbytes hout => exact .header packets (hcycle.trans hc) hgood hbytes hout
  | deltaX p packets hc hflags hgood hbytes hout =>
      exact .deltaX p packets (hcycle.trans hc) (hdata ▸ hflags) hgood hbytes hout
  | deltaY p packets hc hflags hx hgood hbytes hout =>
      exact .deltaY p packets (hcycle.trans hc) (hdata ▸ hflags) (hdata ▸ hx) hgood hbytes hout

/-- The reads of a run return the packets of the queue and those ahead, in order. -/
theorem Ahead.reads (h : Ahead s bytes out) (hdiscard : s.mouseDiscard = false)
    (hholds : s.mousePackets.Holds queueSize items) {events : List MouseEvent}
    (hbytes : events.filterMap MouseEvent.byte? <+: bytes)
    (hroom : EveryStep Mouse.step RoomForPacket s events) : s.reads events <+: items ++ out := by
  induction events generalizing s bytes items out with
  | nil => exact List.nil_prefix
  | cons e rest ih =>
      cases e with
      | byte data =>
          rw [List.filterMap_cons_some (by rfl)] at hbytes
          obtain ⟨tail, rfl⟩ := hbytes
          obtain ⟨items', out', hahead, hkept, hheld, hsame⟩ := h.byte hdiscard hholds hroom.1
          rw [Mouse.reads, ← hsame]
          exact ih hahead hkept hheld (List.prefix_append _ _) hroom.2
      | read size =>
          rw [List.filterMap_cons_none (by rfl)] at hbytes
          obtain ⟨items', hheld, hsplit, hdata, hcycle, hkept⟩ := devMouseRead_spec hholds size
          rw [Mouse.reads, ← hsplit, List.append_assoc]
          apply (List.prefix_append_right_inj _).mpr
          exact ih (h.congr hdata hcycle) (hkept.trans hdiscard) hheld hbytes hroom.2

end Run

/-- As long as every packet of the stream has a good header, and there is room whenever one
completes, the reads return a prefix of the packets sent, each once and in order. -/
theorem mouse_packets_framed {packets : List RawPacket} {events : List MouseEvent}
    (hgood : ∀ p ∈ packets, badHeader p.header = false)
    (hbytes : events.filterMap MouseEvent.byte? <+: packets.flatMap RawPacket.bytes)
    (hroom : EveryStep Mouse.step RoomForPacket Mouse.init events) :
    Mouse.init.reads events <+: RawPacket.goodPackets packets := by
  have hall : RawPacket.goodPackets packets = packets.map RawPacket.decode := by
    rw [RawPacket.goodPackets, List.filter_eq_self.mpr]
    intro p hp
    rw [hgood p hp]
    rfl
  have hstart : Ahead Mouse.init (packets.flatMap RawPacket.bytes) (packets.map RawPacket.decode) :=
    .header packets rfl hgood rfl rfl
  rw [hall]
  exact hstart.reads rfl (Circular.holds_empty _ (by decide)) hbytes hroom

/-- Two packets, with a read after the first one. -/
theorem mouse_packets_framed_two :
    ∃ events : List MouseEvent, Mouse.init.reads events = [⟨9, 1, -1⟩, ⟨8, 0, 5⟩] ∧
      Mouse.init.reads events <+: RawPacket.goodPackets [⟨9, 1, 255⟩, ⟨8, 0, 5⟩] := by
  refine ⟨[.byte 9, .byte 1, .byte 255, .read 12, .byte 8, .byte 0, .read 12, .byte 5, .read 12],
    by decide, ?_⟩
  apply mouse_packets_framed (by decide) (by decide)
  simp [EveryStep, RoomForPacket]
  decide

/-- After a bad packet of three zeros the next good one is dropped. -/
theorem bad_header_drops_good_packet :
    ∃ events : List MouseEvent,
      events.filterMap MouseEvent.byte? =
        [(⟨0, 0, 0⟩ : RawPacket), ⟨8, 1, 2⟩, ⟨8, 3, 4⟩].flatMap RawPacket.bytes ∧
      EveryStep Mouse.step RoomForPacket Mouse.init events ∧
      Mouse.init.reads events = [⟨8, 3, 4⟩] ∧
      ¬ Mouse.init.reads events <+: RawPacket.goodPackets [⟨0, 0, 0⟩, ⟨8, 1, 2⟩, ⟨8, 3, 4⟩] := by
  refine ⟨[.byte 0, .byte 0, .byte 0, .byte 8, .byte 1, .byte 2, .byte 8, .byte 3, .byte 4,
    .read 12], by decide, ?_, by decide, by decide⟩
  simp [EveryStep, RoomForPacket]
  decide

end Tellurium.Ps2
