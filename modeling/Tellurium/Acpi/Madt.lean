import Tellurium.Lib.Int32
import Tellurium.Lib.Memory
import Tellurium.Lib.Records

/-!
The walks over the MADT (`kernel/acpi/acpi.c`). The table is the memory at its address; its
records start at offset 0x2c, and each has its type and its length in its first two bytes. The
arrays that the walks fill are modelled by the writes to them, each with its index, since nothing
but the code keeps these inside. A failed `ASSERT` halts the kernel.
-/

namespace Tellurium.Acpi

open Tellurium.Lib

def mmioNumDevs : Nat := 20
def ioapicNumDevs : Nat := 10
def lapicNumDevs : Nat := 128

def entryLapic : UInt8 := 0
def entryIoApic : UInt8 := 1
def entryIoapicIntOverride : UInt8 := 2
def localApicAddrOverride : UInt8 := 5

def verifyChecksum (data : Mem) (numBytes : Nat) : Bool :=
  (List.range numBytes).foldl (fun checksum i => checksum + data i) 0 == 0

def sdtLength (m : Mem) : Nat := m.readN 4 4

def recordLength (m : Mem) (offset : Nat) : Nat := (m (offset + 1)).toNat

/-- The loop that all of them share, from the first record on. -/
def walkRecords {σ ρ : Type} (m : Mem) (visit : Nat → σ → Visit σ ρ) (fuel : Nat) (s : σ) :
    Option (Visit σ ρ) :=
  walk (recordLength m) (sdtLength m) visit fuel 0x2c s

/-- An override for the IRQ ends the walk with its interrupt, which is returned as an `int`. -/
def overrideVisit (m : Mem) (irq : Int) (offset : Nat) (s : Unit) : Visit Unit Int :=
  if m offset = entryIoapicIntOverride then
    if ((m (offset + 3)).toNat : Int) = irq then .stop (int32 (m.readN (offset + 4) 4)) else .next s
  else .next s

def acpiIrqToGsi (fuel : Nat) (madt : Option Mem) (irq : Int) : Option Int :=
  match madt with
  | none => some (-1)
  | some m =>
      (walkRecords m (overrideVisit m irq) fuel ()).map fun
        | .stop gsi => gsi
        | .next _ => irq

/-- What `init_apic_info` keeps, with the writes to `local_apic_ID` and `ioapics` in their order.
An I/O APIC is the offset of its record. -/
structure ApicInfo where
  coreCount : Nat
  localApicIndex : Nat
  localApicId : List (Nat × UInt8)
  ioApicIndex : Nat
  ioapics : List (Nat × Nat)

def isEnabledLapic (m : Mem) (offset : Nat) : Bool :=
  m offset == entryLapic && m.readN (offset + 4) 4 &&& 0x3 != 0

def isIoApic (m : Mem) (offset : Nat) : Bool := m offset == entryIoApic

/-- The body of the loop, which stops where an assertion fails. -/
def apicVisit (m : Mem) (offset : Nat) (s : ApicInfo) : Visit ApicInfo ApicInfo :=
  if m offset = entryLapic then
    if m.readN (offset + 4) 4 &&& 0x3 ≠ 0 then
      let s := { s with coreCount := s.coreCount + 1 }
      if s.localApicIndex < s.coreCount then
        .next { s with
          localApicId := s.localApicId ++ [(s.localApicIndex, m (offset + 3))]
          localApicIndex := s.localApicIndex + 1 }
      else .stop s
    else .next s
  else if m offset = entryIoApic then
    if s.ioApicIndex < ioapicNumDevs then
      .next { s with
        ioapics := s.ioapics ++ [(s.ioApicIndex, offset)]
        ioApicIndex := s.ioApicIndex + 1 }
    else .stop s
  else .next s

/-- The statics before the first call. -/
def ApicInfo.zero : ApicInfo := ⟨0, 0, [], 0, []⟩

def initApicInfo (fuel : Nat) (m : Mem) : Option (Visit ApicInfo ApicInfo) :=
  walkRecords m (apicVisit m) fuel .zero

def lapicAddrVisit (m : Mem) (offset : Nat) (s : Unit) : Visit Unit Nat :=
  if m offset = localApicAddrOverride then .stop (m.readN (offset + 4) 4) else .next s

def findLapicAddr (fuel : Nat) (m : Mem) : Option Nat :=
  (walkRecords m (lapicAddrVisit m) fuel ()).map fun
    | .stop addr => addr
    | .next _ => m.readN 36 4

structure MmioDev where
  addr : Nat
  sizeBytes : Nat

/-- `dev_info`, with the writes to its array. -/
structure DevInfo where
  numDevs : Nat
  devices : List (Nat × MmioDev)

def addMmioDevice (info : DevInfo) (dev : MmioDev) : DevInfo :=
  ⟨info.numDevs + 1, info.devices ++ [(info.numDevs, dev)]⟩

def ioapicDevVisit (m : Mem) (offset : Nat) (info : DevInfo) : Visit DevInfo Empty :=
  if m offset = entryIoApic then .next (addMmioDevice info ⟨m.readN (offset + 4) 4, 4096⟩)
  else .next info

def initDevsIoapic (fuel : Nat) (m : Mem) (info : DevInfo) : Option DevInfo :=
  (walkRecords m (ioapicDevVisit m) fuel info).map fun
    | .next info => info

/-- A table that the kernel takes for a MADT. -/
structure Madt where
  mem : Mem
  checksum : verifyChecksum mem (sdtLength mem) = true

/-- The writes stay inside the arrays. -/
structure ApicInfo.InRange (s : ApicInfo) : Prop where
  lapics : ∀ w ∈ s.localApicId, w.1 < lapicNumDevs
  ioapics : ∀ w ∈ s.ioapics, w.1 < ioapicNumDevs

def DevInfo.InRange (info : DevInfo) : Prop := ∀ w ∈ info.devices, w.1 < mmioNumDevs

/-- The state in which a walk returned or halted. -/
def finalState : Visit ApicInfo ApicInfo → ApicInfo
  | .next s => s
  | .stop s => s

/-- The walks end, by an assertion or by returning, and their writes stay inside the arrays. The
devices are collected after `init_apic_info` returned, and those of the local APIC and the HPET
are added behind them. -/
structure WalksSafe (m : Mem) : Prop where
  irqToGsi : ∀ irq : CInt, ∃ fuel gsi, acpiIrqToGsi fuel (some m) irq.1 = some gsi
  lapicAddr : ∃ fuel addr, findLapicAddr fuel m = some addr
  apicInfo : ∃ fuel r, initApicInfo fuel m = some r ∧ (finalState r).InRange
  devices : ∀ fuel s, initApicInfo fuel m = some (.next s) →
    ∃ fuel info, initDevsIoapic fuel m ⟨0, []⟩ = some info ∧
      ∀ lapic hpet, (addMmioDevice (addMmioDevice info lapic) hpet).InRange

/-- No record that a walk comes to is empty, and at most as many enabled local APICs as there is
room for stand before an I/O APIC for which there is no room. -/
structure Fits (m : Mem) : Prop where
  progresses : Progresses (recordLength m) (sdtLength m) 0x2c
  lapics : ∀ front, front <+: records (recordLength m) (sdtLength m) 0x2c →
    front.countP (isIoApic m) ≤ ioapicNumDevs → front.countP (isEnabledLapic m) ≤ lapicNumDevs

section Bodies

variable {m : Mem} {offset : Nat} {s : ApicInfo} {info : DevInfo}

/-- The state after a local APIC, and after an I/O APIC. -/
def ApicInfo.addLapic (s : ApicInfo) (id : UInt8) : ApicInfo :=
  { s with
    coreCount := s.coreCount + 1
    localApicId := s.localApicId ++ [(s.localApicIndex, id)]
    localApicIndex := s.localApicIndex + 1 }

def ApicInfo.addIoApic (s : ApicInfo) (offset : Nat) : ApicInfo :=
  { s with
    ioapics := s.ioapics ++ [(s.ioApicIndex, offset)]
    ioApicIndex := s.ioApicIndex + 1 }

/-- The arrays are filled from their starts. The cores and the local APICs are counted together,
so the assertion that compares these counts says nothing about the room. -/
structure ApicInfo.Books (s : ApicInfo) : Prop where
  cores : s.coreCount = s.localApicIndex
  lapics : s.localApicId.map Prod.fst = List.range s.localApicIndex
  ioapics : s.ioapics.map Prod.fst = List.range s.ioApicIndex
  room : s.ioApicIndex ≤ ioapicNumDevs

theorem ApicInfo.Books.zero : ApicInfo.zero.Books := ⟨rfl, rfl, rfl, by decide⟩

theorem ApicInfo.Books.addLapic (h : s.Books) (id : UInt8) : (s.addLapic id).Books := by
  constructor
  · simp only [ApicInfo.addLapic, h.cores]
  · simp only [ApicInfo.addLapic, List.map_append, h.lapics, List.range_succ, List.map_cons,
      List.map_nil]
  · exact h.ioapics
  · exact h.room

theorem ApicInfo.Books.addIoApic (h : s.Books) (hroom : s.ioApicIndex < ioapicNumDevs)
    (offset : Nat) : (s.addIoApic offset).Books := by
  constructor
  · exact h.cores
  · exact h.lapics
  · simp only [ApicInfo.addIoApic, List.map_append, h.ioapics, List.range_succ, List.map_cons,
      List.map_nil]
  · exact hroom

/-- Writes at every index from 0 on are in range if there are no more of them than places. -/
theorem writes_below_iff {α : Type} {writes : List (Nat × α)} {n : Nat}
    (h : writes.map Prod.fst = List.range n) (room : Nat) :
    (∀ w ∈ writes, w.1 < room) ↔ n ≤ room := by
  have hindices : (∀ w ∈ writes, w.1 < room) ↔ ∀ i ∈ List.range n, i < room := by
    rw [← h, List.forall_mem_map]
  rw [hindices]
  constructor
  · intro hall
    by_contra hmore
    exact Nat.lt_irrefl room (hall room (List.mem_range.mpr (by omega)))
  · intro hle i hi
    have hlt := List.mem_range.mp hi
    omega

theorem ApicInfo.Books.inRange_iff (h : s.Books) :
    s.InRange ↔ s.localApicIndex ≤ lapicNumDevs := by
  rw [← writes_below_iff h.lapics]
  exact ⟨fun hrange => hrange.lapics,
    fun hlapics => ⟨hlapics, (writes_below_iff h.ioapics _).mpr h.room⟩⟩

/-- What the body of the loop in `init_apic_info` can do. -/
theorem apicVisit_cases (h : s.Books) (m : Mem) (offset : Nat) :
    (isEnabledLapic m offset = true ∧ isIoApic m offset = false ∧
      apicVisit m offset s = .next (s.addLapic (m (offset + 3)))) ∨
    (isEnabledLapic m offset = false ∧ isIoApic m offset = true ∧ s.ioApicIndex < ioapicNumDevs ∧
      apicVisit m offset s = .next (s.addIoApic offset)) ∨
    (isEnabledLapic m offset = false ∧ isIoApic m offset = true ∧ s.ioApicIndex = ioapicNumDevs ∧
      apicVisit m offset s = .stop s) ∨
    (isEnabledLapic m offset = false ∧ isIoApic m offset = false ∧
      apicVisit m offset s = .next s) := by
  by_cases hlapic : m offset = entryLapic
  · have hio : isIoApic m offset = false := by
      rw [isIoApic, hlapic]
      rfl
    by_cases hflags : m.readN (offset + 4) 4 &&& 0x3 = 0
    · have henabled : isEnabledLapic m offset = false := by simp [isEnabledLapic, hflags]
      have hvisit : apicVisit m offset s = .next s := by simp [apicVisit, hlapic, hflags]
      exact .inr (.inr (.inr ⟨henabled, hio, hvisit⟩))
    · have henabled : isEnabledLapic m offset = true := by simp [isEnabledLapic, hlapic, hflags]
      have hcount : s.localApicIndex < s.coreCount + 1 := by
        rw [h.cores]
        exact Nat.lt_succ_self _
      have hvisit : apicVisit m offset s = .next (s.addLapic (m (offset + 3))) := by
        simp [apicVisit, hlapic, hflags, hcount, ApicInfo.addLapic]
      exact .inl ⟨henabled, hio, hvisit⟩
  · have henabled : isEnabledLapic m offset = false := by simp [isEnabledLapic, hlapic]
    by_cases hio : m offset = entryIoApic
    · have hioapic : isIoApic m offset = true := by simp [isIoApic, hio]
      rcases Nat.lt_or_ge s.ioApicIndex ioapicNumDevs with hroom | hfull
      · have hvisit : apicVisit m offset s = .next (s.addIoApic offset) := by
          rw [apicVisit, if_neg hlapic, if_pos hio, if_pos hroom]
          rfl
        exact .inr (.inl ⟨henabled, hioapic, hroom, hvisit⟩)
      · have hvisit : apicVisit m offset s = .stop s := by
          rw [apicVisit, if_neg hlapic, if_pos hio, if_neg (Nat.not_lt.mpr hfull)]
        exact .inr (.inr (.inl ⟨henabled, hioapic, Nat.le_antisymm h.room hfull, hvisit⟩))
    · have hother : isIoApic m offset = false := by simp [isIoApic, hio]
      have hvisit : apicVisit m offset s = .next s := by
        rw [apicVisit, if_neg hlapic, if_neg hio]
      exact .inr (.inr (.inr ⟨henabled, hother, hvisit⟩))

end Bodies

section Passes

variable {m : Mem} {s : ApicInfo}

/-- The local APICs fit as long as the I/O APICs do, after `io` and `lapics` of them. -/
def Room (m : Mem) (io lapics : Nat) (l : List Nat) : Prop :=
  ∀ front, front <+: l → io + front.countP (isIoApic m) ≤ ioapicNumDevs →
    lapics + front.countP (isEnabledLapic m) ≤ lapicNumDevs

theorem Room.start {io lapics : Nat} {l : List Nat} (h : Room m io lapics l)
    (hio : io ≤ ioapicNumDevs) : lapics ≤ lapicNumDevs :=
  h [] List.nil_prefix hio

theorem room_nil {io lapics : Nat} (hio : io ≤ ioapicNumDevs) :
    Room m io lapics [] ↔ lapics ≤ lapicNumDevs := by
  constructor
  · intro h
    exact h.start hio
  · intro hle front hfront _
    rw [List.prefix_nil.mp hfront]
    exact hle

theorem room_cons {io lapics offset : Nat} {l : List Nat} (hio : io ≤ ioapicNumDevs) :
    Room m io lapics (offset :: l) ↔ lapics ≤ lapicNumDevs ∧
      Room m (io + if isIoApic m offset then 1 else 0)
        (lapics + if isEnabledLapic m offset then 1 else 0) l := by
  constructor
  · intro h
    refine ⟨h.start hio, fun front hfront hle => ?_⟩
    have hcons := h (offset :: front) (List.cons_prefix_cons.mpr ⟨rfl, hfront⟩)
    rw [List.countP_cons, List.countP_cons] at hcons
    omega
  · rintro ⟨hstart, hrest⟩ front hfront hle
    rcases List.prefix_cons_iff.mp hfront with rfl | ⟨tail, rfl, htail⟩
    · exact hstart
    · have htail' := hrest tail htail
      rw [List.countP_cons] at hle ⊢
      omega

/-- From the body to a whole pass: it ends inside the array of the local APICs if and only if
there is room for all that come before the walk halts. -/
theorem apicPass_room (h : s.Books) (m : Mem) (l : List Nat) :
    (finalState (visitAll (apicVisit m) l s)).Books ∧
    ((finalState (visitAll (apicVisit m) l s)).localApicIndex ≤ lapicNumDevs ↔
      Room m s.ioApicIndex s.localApicIndex l) := by
  induction l generalizing s with
  | nil => exact ⟨h, (room_nil h.room).symm⟩
  | cons offset l ih =>
      rw [room_cons h.room]
      rcases apicVisit_cases h m offset with ⟨hl, hio, hvisit⟩ | ⟨hl, hio, hroom, hvisit⟩ |
        ⟨hl, hio, hfull, hvisit⟩ | ⟨hl, hio, hvisit⟩
      · obtain ⟨hbooks, hiff⟩ := ih (h.addLapic (m (offset + 3)))
        simp only [visitAll, hvisit, hl, hio]
        refine ⟨hbooks, hiff.trans ⟨fun hrest => ⟨?_, hrest⟩, fun hrest => hrest.2⟩⟩
        exact Nat.le_of_succ_le (hrest.start h.room)
      · obtain ⟨hbooks, hiff⟩ := ih (h.addIoApic hroom offset)
        simp only [visitAll, hvisit, hl, hio]
        exact ⟨hbooks, hiff.trans ⟨fun hrest => ⟨hrest.start hroom, hrest⟩, fun hrest => hrest.2⟩⟩
      · simp only [visitAll, hvisit, hl, hio]
        refine ⟨h, ⟨fun hle => ⟨hle, fun front _ hmore => ?_⟩, fun hrest => hrest.1⟩⟩
        simp only [if_true] at hmore
        omega
      · obtain ⟨hbooks, hiff⟩ := ih h
        simp only [visitAll, hvisit, hl, hio]
        exact ⟨hbooks, hiff.trans ⟨fun hrest => ⟨hrest.start h.room, hrest⟩, fun hrest => hrest.2⟩⟩

/-- A pass that returns has found at most as many I/O APICs as there is room for. -/
theorem apicPass_ioapics {s' : ApicInfo} {l : List Nat} (h : s.Books)
    (hreturn : visitAll (apicVisit m) l s = .next s') :
    s.ioApicIndex + l.countP (isIoApic m) ≤ ioapicNumDevs := by
  induction l generalizing s with
  | nil => exact h.room
  | cons offset l ih =>
      rw [List.countP_cons]
      rcases apicVisit_cases h m offset with ⟨-, hio, hvisit⟩ | ⟨-, hio, hroom, hvisit⟩ |
        ⟨-, -, -, hvisit⟩ | ⟨-, hio, hvisit⟩
      · simp only [visitAll, hvisit] at hreturn
        have hrest := ih (h.addLapic _) hreturn
        simpa [hio, ApicInfo.addLapic] using hrest
      · simp only [visitAll, hvisit] at hreturn
        have hrest := ih (h.addIoApic hroom offset) hreturn
        simp only [ApicInfo.addIoApic] at hrest
        simp only [hio, if_true]
        omega
      · simp only [visitAll, hvisit] at hreturn
        cases hreturn
      · simp only [visitAll, hvisit] at hreturn
        have hrest := ih h hreturn
        simpa [hio] using hrest

def DevInfo.Books (info : DevInfo) : Prop := info.devices.map Prod.fst = List.range info.numDevs

theorem DevInfo.Books.add {info : DevInfo} (h : info.Books) (dev : MmioDev) :
    (addMmioDevice info dev).Books := by
  simp only [DevInfo.Books, addMmioDevice, List.map_append, List.range_succ, List.map_cons,
    List.map_nil]
  rw [h]

theorem devPass {info : DevInfo} (h : info.Books) (m : Mem) (l : List Nat) :
    ∃ info', visitAll (ioapicDevVisit m) l info = .next info' ∧ info'.Books ∧
      info'.numDevs = info.numDevs + l.countP (isIoApic m) := by
  induction l generalizing info with
  | nil => exact ⟨info, rfl, h, rfl⟩
  | cons offset l ih =>
      rw [List.countP_cons]
      by_cases hio : m offset = entryIoApic
      · obtain ⟨info', hpass, hbooks, hcount⟩ := ih (h.add ⟨m.readN (offset + 4) 4, 4096⟩)
        refine ⟨info', ?_, hbooks, ?_⟩
        · simpa only [visitAll, ioapicDevVisit, if_pos hio] using hpass
        · simp only [hcount, addMmioDevice, isIoApic, hio, beq_self_eq_true, if_true]
          omega
      · obtain ⟨info', hpass, hbooks, hcount⟩ := ih h
        refine ⟨info', ?_, hbooks, ?_⟩
        · simpa only [visitAll, ioapicDevVisit, if_neg hio] using hpass
        · simp [hcount, isIoApic, hio]

end Passes

section Tables

variable {m : Mem}

theorem walkRecords_eq {σ ρ : Type} (h : Progresses (recordLength m) (sdtLength m) 0x2c)
    (visit : Nat → σ → Visit σ ρ) (s : σ) :
    walkRecords m visit (sdtLength m + 1) s =
      some (visitAll visit (records (recordLength m) (sdtLength m) 0x2c) s) :=
  walk_eq h visit s (by omega)

theorem Fits.walksSafe (h : Fits m) : WalksSafe m := by
  have hroom : Room m 0 0 (records (recordLength m) (sdtLength m) 0x2c) := by
    simpa [Room] using h.lapics
  have hapic : initApicInfo (sdtLength m + 1) m = _ :=
    walkRecords_eq h.progresses (apicVisit m) .zero
  constructor
  · intro irq
    refine ⟨sdtLength m + 1, ?_⟩
    rw [acpiIrqToGsi, walkRecords_eq h.progresses]
    exact ⟨_, rfl⟩
  · refine ⟨sdtLength m + 1, ?_⟩
    rw [findLapicAddr, walkRecords_eq h.progresses]
    exact ⟨_, rfl⟩
  · obtain ⟨hbooks, hiff⟩ := apicPass_room .zero m (records (recordLength m) (sdtLength m) 0x2c)
    exact ⟨_, _, hapic, hbooks.inRange_iff.mpr (hiff.mpr hroom)⟩
  · intro fuel s hreturn
    have hpass := walk_unique hapic hreturn
    have hfew := apicPass_ioapics .zero hpass
    obtain ⟨info, hdevs, hbooks, hcount⟩ :=
      @devPass ⟨0, []⟩ rfl m (records (recordLength m) (sdtLength m) 0x2c)
    refine ⟨sdtLength m + 1, info, ?_, fun lapic hpet => ?_⟩
    · rw [initDevsIoapic, walkRecords_eq h.progresses, hdevs]
      rfl
    · apply (writes_below_iff ((hbooks.add lapic).add hpet) _).mpr
      simp only [addMmioDevice, hcount, mmioNumDevs, ioapicNumDevs, ApicInfo.zero] at hfew ⊢
      omega

/-- The interrupt is an `int`, as the IRQ is. -/
theorem acpiIrqToGsi_int {fuel : Nat} {irq gsi : Int}
    (h : acpiIrqToGsi fuel (some m) (int32 irq) = some gsi) : ∃ n, gsi = int32 n := by
  obtain ⟨r, hwalk, hr⟩ := Option.map_eq_some_iff.mp h
  cases r with
  | next s => exact ⟨irq, hr.symm⟩
  | stop gsi =>
      cases hr
      have hvisit : ∀ offset s r, overrideVisit m (int32 irq) offset s = .stop r →
          ∃ n, r = int32 n := by
        intro offset s r hstop
        rw [overrideVisit] at hstop
        split at hstop
        · split at hstop
          · exact ⟨_, (Visit.stop.inj hstop).symm⟩
          · cases hstop
        · cases hstop
      exact walk_stop hvisit hwalk

/-- The source of an override is a byte, so no override is for -1. -/
theorem overrideVisit_none (m : Mem) (offset : Nat) (s : Unit) :
    ∃ s', overrideVisit m (-1) offset s = .next s' := by
  rw [overrideVisit]
  split
  · rw [if_neg (by omega)]
    exact ⟨s, rfl⟩
  · exact ⟨s, rfl⟩

theorem WalksSafe.fits (h : WalksSafe m) : Fits m := by
  have hprogress : Progresses (recordLength m) (sdtLength m) 0x2c := by
    intro o ho
    rcases Nat.eq_zero_or_pos (recordLength m o) with hempty | hpos
    · obtain ⟨fuel, gsi, hgsi⟩ := h.irqToGsi ⟨-1, by decide⟩
      rw [acpiIrqToGsi, walkRecords, walk_stuck (overrideVisit_none m) ho hempty] at hgsi
      cases hgsi
    · exact hpos
  refine ⟨hprogress, ?_⟩
  obtain ⟨fuel, r, hr, hrange⟩ := h.apicInfo
  have hpass := walk_unique hr (walkRecords_eq hprogress (apicVisit m) .zero)
  obtain ⟨hbooks, hiff⟩ := apicPass_room .zero m (records (recordLength m) (sdtLength m) 0x2c)
  rw [hpass, hbooks.inRange_iff, hiff] at hrange
  simpa [Room, ApicInfo.zero] using hrange

end Tables

/-- The walks are safe for exactly those tables in which no record that they come to is empty and
the enabled local APICs in front of an eleventh I/O APIC fit into their array. -/
theorem madt_walks_safe_iff (madt : Madt) : WalksSafe madt.mem ↔ Fits madt.mem :=
  ⟨WalksSafe.fits, Fits.walksSafe⟩

/-- A table with one record, of an enabled local APIC, whose length is 0. -/
def emptyRecordMadt : Madt where
  mem := fun a => if a = 4 then 52 else if a = 9 then 203 else if a = 48 then 1 else 0
  checksum := by decide

/-- The first of the walks, for the address of the local APIC, never ends. -/
theorem empty_record_never_ends : ¬ WalksSafe emptyRecordMadt.mem := by
  intro h
  obtain ⟨fuel, addr, haddr⟩ := h.lapicAddr
  have hnext : ∀ offset s, ∃ s', lapicAddrVisit emptyRecordMadt.mem offset s = .next s' := by
    intro offset s
    have htype : emptyRecordMadt.mem offset ≠ localApicAddrOverride := by
      simp only [emptyRecordMadt, localApicAddrOverride]
      split_ifs <;> decide
    rw [lapicAddrVisit, if_neg htype]
    exact ⟨s, rfl⟩
  have hrecord : OnWay (recordLength emptyRecordMadt.mem) (sdtLength emptyRecordMadt.mem)
      0x2c 0x2c := .here (by decide)
  rw [findLapicAddr, walkRecords, walk_stuck hnext hrecord (by decide)] at haddr
  cases haddr

end Tellurium.Acpi
