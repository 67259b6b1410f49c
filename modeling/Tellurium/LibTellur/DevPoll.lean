import Tellurium.Devices.Mouse

/-!
Polling the mouse (`libTellur/DevPoll.cpp`). A device owns two event objects that change
places on every successful poll. The returned pointer is read before the next poll, so a
result is the value of the returned object. The object returned is the one filled by the
poll before, not the fresh one.
-/

namespace Tellurium.DevPoll

open Tellurium.Ps2

inductive TellurEventType where
  | mouseMove
  | mouseMoveClick
  | mouseLeftClick
  | mouseLeftRelease
  | mouseDefault
  | keyboardDefault
  | default
  deriving DecidableEq, Repr

def lButton (d : MouseData) : Bool := d.flags &&& 0x1 != 0

structure TellurEvent where
  type : TellurEventType
  data : MouseData
  deriving DecidableEq, Repr

structure Device where
  event : TellurEvent
  prevEvent : TellurEvent

/-- `DeviceMousePs2::DeviceMousePs2`. -/
def Device.mousePs2 : Device := ⟨⟨.default, ⟨0, 0, 0⟩⟩, ⟨.default, ⟨0, 0, 0⟩⟩⟩

/-- What `syscall_read` does: a packet is stored and its size returned, nothing is there and
0 is returned, or an error code is returned and nothing stored. -/
inductive ReadOutcome where
  | packet (data : MouseData)
  | empty
  | failed
  deriving DecidableEq

/-- The type of an event with data `newData` after one with data `prevData`. -/
def eventTypeOf (prevData newData : MouseData) : TellurEventType :=
  if lButton newData && lButton prevData then .mouseMoveClick
  else if lButton newData && !lButton prevData then .mouseLeftClick
  else if !lButton newData && lButton prevData then .mouseLeftRelease
  else .mouseMove

/-- `DeviceMousePs2::getEventType`. -/
def Device.getEventType (d : Device) : TellurEventType := eventTypeOf d.prevEvent.data d.event.data

/-- The rest of `devicePoll` once something but 0 was read: the event just filled becomes the
previous one, and the other object is returned. -/
def Device.exchange (d : Device) : Option TellurEvent × Device :=
  let filled := {d.event with type := d.getEventType}
  (some d.prevEvent, ⟨d.prevEvent, filled⟩)

def Device.devicePoll (d : Device) : ReadOutcome → Option TellurEvent × Device
  | .packet data => Device.exchange {d with event := {d.event with data := data}}
  | .empty => (none, d)
  | .failed => d.exchange

/-- The events that a run of polls returns, in order. -/
def Device.polls : Device → List ReadOutcome → List TellurEvent
  | _, [] => []
  | d, r :: rest => (d.devicePoll r).1.toList ++ Device.polls (d.devicePoll r).2 rest

/-- The stream that the polls are for: each packet with its type. -/
def eventStream : MouseData → List ReadOutcome → List TellurEvent
  | _, [] => []
  | prev, .packet data :: rest => ⟨eventTypeOf prev data, data⟩ :: eventStream data rest
  | prev, .empty :: rest => eventStream prev rest
  | prev, .failed :: rest => eventStream prev rest

/-- Clicks and releases take turns, a click coming next if the button is up. -/
def Alternates : Bool → List TellurEvent → Prop
  | _, [] => True
  | down, e :: rest =>
      if e.type = .mouseLeftClick then down = false ∧ Alternates true rest
      else if e.type = .mouseLeftRelease then down = true ∧ Alternates false rest
      else Alternates down rest

theorem eventTypeOf_ne_default (prev data : MouseData) : eventTypeOf prev data ≠ .default := by
  unfold eventTypeOf
  split_ifs <;> exact nofun

theorem mem_eventStream {prev : MouseData} {reads : List ReadOutcome} {e : TellurEvent}
    (he : e ∈ eventStream prev reads) : e.type ≠ .default := by
  induction reads generalizing prev with
  | nil => cases he
  | cons r rest ih =>
      cases r with
      | empty => exact ih he
      | failed => exact ih he
      | packet data =>
          rcases List.mem_cons.mp he with rfl | he
          · exact eventTypeOf_ne_default prev data
          · exact ih he

/-- The first event returned is the previous event of the start. -/
theorem head_polls {d : Device} {reads : List ReadOutcome} (hsome : ¬ ∀ r ∈ reads, r = .empty) :
    (d.polls reads).head? = some d.prevEvent := by
  induction reads with
  | nil => exact absurd (by simp) hsome
  | cons r rest ih =>
      rw [Device.polls]
      cases r with
      | packet data => rfl
      | failed => rfl
      | empty =>
          apply ih
          intro hrest
          exact hsome (List.forall_mem_cons.mpr ⟨rfl, hrest⟩)

theorem polls_of_empty {d : Device} {reads : List ReadOutcome} (hnone : ∀ r ∈ reads, r = .empty) :
    d.polls reads = [] := by
  induction reads with
  | nil => rfl
  | cons r rest ih =>
      obtain ⟨rfl, hrest⟩ := List.forall_mem_cons.mp hnone
      exact ih hrest

theorem eventStream_of_empty {prev : MouseData} {reads : List ReadOutcome}
    (hnone : ∀ r ∈ reads, r = .empty) : eventStream prev reads = [] := by
  induction reads with
  | nil => rfl
  | cons r rest ih =>
      obtain ⟨rfl, hrest⟩ := List.forall_mem_cons.mp hnone
      exact ih hrest

/-- The polls return the event stream only while there is nothing to read: the first packet
is answered with the blank event of the constructor. -/
theorem event_stream_iff {reads : List ReadOutcome} :
    (Device.mousePs2.polls reads = eventStream ⟨0, 0, 0⟩ reads ∧
      Alternates false (Device.mousePs2.polls reads)) ↔ ∀ r ∈ reads, r = .empty := by
  constructor
  · rintro ⟨hstream, -⟩
    by_contra hsome
    have hhead := head_polls hsome (d := Device.mousePs2)
    rw [hstream] at hhead
    exact mem_eventStream (List.mem_of_mem_head? hhead) rfl
  · intro hnone
    rw [polls_of_empty hnone, eventStream_of_empty hnone]
    exact ⟨rfl, trivial⟩

/-- A press of the left button is returned one poll late. -/
theorem click_returned_late :
    ∃ reads : List ReadOutcome,
      eventStream ⟨0, 0, 0⟩ reads = [⟨.mouseLeftClick, ⟨9, 0, 0⟩⟩, ⟨.mouseMoveClick, ⟨9, 3, 0⟩⟩] ∧
      Device.mousePs2.polls reads = [⟨.default, ⟨0, 0, 0⟩⟩, ⟨.mouseLeftClick, ⟨9, 0, 0⟩⟩] ∧
      Device.mousePs2.polls reads ≠ eventStream ⟨0, 0, 0⟩ reads := by
  refine ⟨[.packet ⟨9, 0, 0⟩, .empty, .packet ⟨9, 3, 0⟩], by decide, by decide, by decide⟩

end Tellurium.DevPoll
