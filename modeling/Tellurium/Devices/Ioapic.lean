import Tellurium.Acpi.Madt
import Mathlib.Data.List.Pairwise

/-!
The I/O APIC that an interrupt is routed through (`kernel/devices/ioapic.c`, with
`acpi_get_gsi_base` of `kernel/acpi/acpi.c`). The version register of an I/O APIC is what the
hardware at its address holds. A pointer is its value, with 0 for NULL.

An I/O APIC serves the interrupts from its base to its base plus its last redirection entry; the
search compares the interrupt with that entry alone.
-/

namespace Tellurium.Ioapic

open Tellurium.Lib Tellurium.Acpi

/-- The fields of `io_apic_t` that are read. -/
structure IoApic where
  ioApicAddress : UInt32
  globalSysInterruptBase : UInt32
deriving DecidableEq, Repr

/-- The third byte of the version register. -/
def maxRedEntry (version : UInt32 → UInt32) (ioapic : IoApic) : Int :=
  ((version ioapic.ioApicAddress).toNat / 2 ^ 16 % 2 ^ 8 : Nat)

/-- The base as the `int` that it is compared as. -/
def gsiBase (ioapic : IoApic) : Int := int32 ioapic.globalSysInterruptBase.toNat

def acpiGetGsiBase (ioapics : List IoApic) (ioapicAddr : Nat) : Int :=
  if ioapicAddr = 0 then -1
  else
    match ioapics.find? fun ioapic => ioapic.ioApicAddress.toNat = ioapicAddr with
    | some ioapic => gsiBase ioapic
    | none => -1

/-- The test of the search. -/
def Tested (version : UInt32 → UInt32) (gsi : Int) (ioapic : IoApic) : Prop :=
  gsiBase ioapic ≤ gsi ∧ gsi ≤ maxRedEntry version ioapic

instance (version : UInt32 → UInt32) (gsi : Int) (ioapic : IoApic) :
    Decidable (Tested version gsi ioapic) := inferInstanceAs (Decidable (_ ∧ _))

/-- The loop over the I/O APICs. -/
def ioapicSearch (version : UInt32 → UInt32) (gsi : Int) (ioapics : List IoApic) : Nat :=
  match ioapics.find? fun ioapic => Tested version gsi ioapic with
  | some ioapic => ioapic.ioApicAddress.toNat
  | none => 0

/-- Without a result the search for the interrupt is still under way. -/
def ioapicGetAddr (fuel : Nat) (version : UInt32 → UInt32) (madt : Option Mem)
    (ioapics : List IoApic) (irq : Nat) : Option Nat := do
  let gsi ← acpiIrqToGsi fuel madt (int32 irq)
  return if madt.isNone then 0 else ioapicSearch version gsi ioapics

/-- `ASSERT(ioapic_addr)` halts, or a redirection entry is used. -/
inductive Mapped where
  | halted
  | entry (n : Int)

/-- What `ioapic_map_irq` finds out before it reads and writes the redirection entry. -/
def ioapicMapIrq (fuel : Nat) (version : UInt32 → UInt32) (madt : Option Mem)
    (ioapics : List IoApic) (irq : UInt32) : Option Mapped := do
  let ioapicAddr ← ioapicGetAddr fuel version madt ioapics irq.toNat
  if ioapicAddr = 0 then return .halted
  let gsi ← acpiIrqToGsi fuel madt (int32 irq.toNat)
  return .entry (int32 (gsi - acpiGetGsiBase ioapics ioapicAddr))

/-- The interrupts of an I/O APIC. -/
def Serves (version : UInt32 → UInt32) (ioapic : IoApic) (gsi : Int) : Prop :=
  ioapic.globalSysInterruptBase.toNat ≤ gsi ∧
    gsi ≤ ioapic.globalSysInterruptBase.toNat + maxRedEntry version ioapic

instance (version : UInt32 → UInt32) (ioapic : IoApic) (gsi : Int) :
    Decidable (Serves version ioapic gsi) := inferInstanceAs (Decidable (_ ∧ _))

def DisjointRanges (version : UInt32 → UInt32) (a b : IoApic) : Prop :=
  ∀ gsi, ¬ (Serves version a gsi ∧ Serves version b gsi)

/-- The IRQ is routed through `a`, by one of its redirection entries. -/
def RoutedTo (fuel : Nat) (version : UInt32 → UInt32) (madt : Option Mem) (ioapics : List IoApic)
    (irq : UInt32) (a : IoApic) : Prop :=
  ioapicGetAddr fuel version madt ioapics irq.toNat = some a.ioApicAddress.toNat ∧
    ∃ n, ioapicMapIrq fuel version madt ioapics irq = some (.entry n) ∧
      0 ≤ n ∧ n ≤ maxRedEntry version a

/-- The interrupt is not beyond the last entry of `a`, whose address is not NULL; and in front of
`a` there is no I/O APIC with the same address, nor one whose base is negative as an `int` and
whose last entry is not below the interrupt. An I/O APIC at the address of `a` whose range runs
past 32 bits and meets the interrupt there may stand for `a`. -/
structure Findable (version : UInt32 → UInt32) (ioapics : List IoApic) (a : IoApic) (gsi : Int) :
    Prop where
  address : a.ioApicAddress ≠ 0
  first : ∃ before b behind, ioapics = before ++ b :: behind ∧ b.ioApicAddress = a.ioApicAddress ∧
    (b = a ∧ gsi ≤ maxRedEntry version a ∨
      2 ^ 32 + gsi ≤ b.globalSysInterruptBase.toNat + maxRedEntry version b) ∧
    ∀ i ∈ before, i.ioApicAddress ≠ a.ioApicAddress ∧
      ¬ (2 ^ 31 ≤ i.globalSysInterruptBase.toNat ∧ gsi ≤ maxRedEntry version i)

section Search

variable {version : UInt32 → UInt32} {ioapics before behind : List IoApic} {a b i : IoApic}
  {gsi : Int}

theorem maxRedEntry_bounds (version : UInt32 → UInt32) (ioapic : IoApic) :
    0 ≤ maxRedEntry version ioapic ∧ maxRedEntry version ioapic < 2 ^ 8 := by
  unfold maxRedEntry
  omega

theorem maxRedEntry_congr (h : b.ioApicAddress = a.ioApicAddress) :
    maxRedEntry version b = maxRedEntry version a := by
  rw [maxRedEntry, maxRedEntry, h]

theorem gsiBase_cases (ioapic : IoApic) :
    (ioapic.globalSysInterruptBase.toNat < 2 ^ 31 ∧
      gsiBase ioapic = ioapic.globalSysInterruptBase.toNat) ∨
    (2 ^ 31 ≤ ioapic.globalSysInterruptBase.toNat ∧
      ioapic.globalSysInterruptBase.toNat < 2 ^ 32 ∧
      gsiBase ioapic = ioapic.globalSysInterruptBase.toNat - 2 ^ 32) := by
  have hword := ioapic.globalSysInterruptBase.toNat_lt
  rcases Nat.lt_or_ge ioapic.globalSysInterruptBase.toNat (2 ^ 31) with hlt | hge
  · exact .inl ⟨hlt, int32_of_lt (by omega) (by omega)⟩
  · exact .inr ⟨hge, hword, int32_of_ge (by omega) (by omega)⟩

theorem gsiBase_le_of_large (hlow : 0 ≤ gsi) (hlarge : 2 ^ 31 ≤ b.globalSysInterruptBase.toNat) :
    gsiBase b ≤ gsi := by
  rcases gsiBase_cases b with ⟨hsmall, -⟩ | ⟨-, hword, heq⟩
  · exact absurd hlarge (Nat.not_le.mpr hsmall)
  · rw [heq]
    omega

instance (version : UInt32 → UInt32) : Std.Symm (DisjointRanges version) where
  symm _ _ h gsi hboth := h gsi hboth.symm

/-- In a list of disjoint ranges the interrupt belongs to one I/O APIC. -/
theorem serves_unique (hdisjoint : ioapics.Pairwise (DisjointRanges version)) (ha : a ∈ ioapics)
    (hb : b ∈ ioapics) (hsa : Serves version a gsi) (hsb : Serves version b gsi) : a = b := by
  by_contra hne
  exact hdisjoint.forall ha hb hne gsi ⟨hsa, hsb⟩

theorem acpiGetGsiBase_eq (haddress : a.ioApicAddress ≠ 0) (hb : b.ioApicAddress = a.ioApicAddress)
    (hbefore : ∀ i ∈ before, i.ioApicAddress ≠ a.ioApicAddress) :
    acpiGetGsiBase (before ++ b :: behind) a.ioApicAddress.toNat = gsiBase b := by
  have hne : a.ioApicAddress.toNat ≠ 0 := fun hzero => haddress (UInt32.toNat_inj.mp hzero)
  have hfind : (before ++ b :: behind).find?
      (fun ioapic => ioapic.ioApicAddress.toNat = a.ioApicAddress.toNat) = some b := by
    apply List.find?_eq_some_iff_append.mpr
    refine ⟨by simp [hb], before, behind, rfl, fun i hi => ?_⟩
    have hother := hbefore i hi
    simpa [UInt32.toNat_inj] using hother
  rw [acpiGetGsiBase, if_neg hne, hfind]

theorem exists_first_at (ha : a ∈ ioapics) :
    ∃ before b behind, ioapics = before ++ b :: behind ∧ b.ioApicAddress = a.ioApicAddress ∧
      ∀ i ∈ before, i.ioApicAddress ≠ a.ioApicAddress := by
  have hsome : (ioapics.find? fun i => i.ioApicAddress = a.ioApicAddress).isSome = true :=
    List.find?_isSome.mpr ⟨a, ha, by simp⟩
  obtain ⟨b, hb⟩ := Option.isSome_iff_exists.mp hsome
  obtain ⟨haddress, before, behind, hsplit, hbefore⟩ := List.find?_eq_some_iff_append.mp hb
  exact ⟨before, b, behind, hsplit, by simpa using haddress, by simpa using hbefore⟩

/-- The entry is one of an I/O APIC if that serves the interrupt, up to a wrap of its range. -/
theorem entry_bounds_iff (hlow : 0 ≤ gsi) (hhigh : gsi < 2 ^ 31) :
    0 ≤ int32 (gsi - gsiBase b) ∧ int32 (gsi - gsiBase b) ≤ maxRedEntry version b ↔
      Serves version b gsi ∨
        2 ^ 32 + gsi ≤ b.globalSysInterruptBase.toNat + maxRedEntry version b := by
  have hmax := maxRedEntry_bounds version b
  unfold Serves
  rcases gsiBase_cases b with ⟨hbase, heq⟩ | ⟨hbase, hword, heq⟩
  · rw [heq, int32_of_lt (by omega) (by omega)]
    omega
  · rw [heq]
    rcases Int.lt_or_le (gsi - (b.globalSysInterruptBase.toNat - 2 ^ 32)) (2 ^ 31) with hlt | hge
    · rw [int32_of_lt (by omega) hlt]
      omega
    · rw [int32_of_ge hge (by omega)]
      omega

theorem ioapicSearch_eq (hbefore : ∀ i ∈ before, ¬ Tested version gsi i)
    (hb : Tested version gsi b) :
    ioapicSearch version gsi (before ++ b :: behind) = b.ioApicAddress.toNat := by
  have hfind : (before ++ b :: behind).find? (fun i => Tested version gsi i) = some b := by
    apply List.find?_eq_some_iff_append.mpr
    exact ⟨by simpa using hb, before, behind, rfl, by simpa using hbefore⟩
  rw [ioapicSearch, hfind]

theorem ioapicSearch_found (h : ioapicSearch version gsi ioapics ≠ 0) :
    ∃ c ∈ ioapics, Tested version gsi c ∧
      ioapicSearch version gsi ioapics = c.ioApicAddress.toNat := by
  unfold ioapicSearch at h ⊢
  split at h
  · rename_i c hfind
    exact ⟨c, List.mem_of_find?_eq_some hfind, by simpa using List.find?_some hfind, rfl⟩
  · exact absurd rfl h

/-- The search ends in front of `behind` if a test succeeds there. -/
theorem ioapicSearch_before (hi : i ∈ before) (htest : Tested version gsi i) :
    ∃ c ∈ before, ioapicSearch version gsi (before ++ behind) = c.ioApicAddress.toNat := by
  have hsome : (before.find? fun i => Tested version gsi i).isSome = true :=
    List.find?_isSome.mpr ⟨i, hi, by simpa using htest⟩
  obtain ⟨c, hc⟩ := Option.isSome_iff_exists.mp hsome
  refine ⟨c, List.mem_of_find?_eq_some hc, ?_⟩
  rw [ioapicSearch, List.find?_append, hc]
  rfl

end Search

section Routing

variable {fuel : Nat} {version : UInt32 → UInt32} {m : Mem} {ioapics : List IoApic} {irq : UInt32}
  {a : IoApic} {gsi : Int}

theorem routedTo_iff (hgsi : acpiIrqToGsi fuel (some m) (int32 irq.toNat) = some gsi) :
    RoutedTo fuel version (some m) ioapics irq a ↔
      ioapicSearch version gsi ioapics = a.ioApicAddress.toNat ∧ a.ioApicAddress ≠ 0 ∧
        0 ≤ int32 (gsi - acpiGetGsiBase ioapics a.ioApicAddress.toNat) ∧
        int32 (gsi - acpiGetGsiBase ioapics a.ioApicAddress.toNat) ≤ maxRedEntry version a := by
  have hget : ioapicGetAddr fuel version (some m) ioapics irq.toNat =
      some (ioapicSearch version gsi ioapics) := by
    rw [ioapicGetAddr, hgsi]
    rfl
  rw [RoutedTo, ioapicMapIrq, hget, hgsi, Option.some.injEq]
  apply and_congr_right
  intro hsearch
  by_cases hzero : a.ioApicAddress = 0
  · simp [hsearch, hzero]
  · have hne : a.ioApicAddress.toNat ≠ 0 := fun h => hzero (UInt32.toNat_inj.mp h)
    simp [hsearch, hzero, hne]

/-- An I/O APIC in front of the one that serves the interrupt is tested in vain, unless its base
is negative as an `int`. -/
theorem not_tested_of_serves {i : IoApic} (hdisjoint : ioapics.Pairwise (DisjointRanges version))
    (ha : a ∈ ioapics) (hi : i ∈ ioapics) (hserves : Serves version a gsi)
    (hne : i.ioApicAddress ≠ a.ioApicAddress)
    (hlow : ¬ (2 ^ 31 ≤ i.globalSysInterruptBase.toNat ∧ gsi ≤ maxRedEntry version i)) :
    ¬ Tested version gsi i := by
  rintro ⟨hbase, hmax⟩
  rcases gsiBase_cases i with ⟨-, heq⟩ | ⟨hlarge, -, -⟩
  · have hi' : Serves version i gsi := ⟨heq ▸ hbase, by omega⟩
    exact hne (congrArg _ (serves_unique hdisjoint hi ha hi' hserves))
  · exact hlow ⟨hlarge, hmax⟩

theorem RoutedTo.of_findable (hdisjoint : ioapics.Pairwise (DisjointRanges version))
    (ha : a ∈ ioapics) (hgsi : acpiIrqToGsi fuel (some m) (int32 irq.toNat) = some gsi) (hhigh : gsi < 2 ^ 31)
    (hserves : Serves version a gsi) (h : Findable version ioapics a gsi) :
    RoutedTo fuel version (some m) ioapics irq a := by
  obtain ⟨before, b, behind, hsplit, hb, hcase, hbefore⟩ := h.first
  have hmax := maxRedEntry_bounds version b
  have hsame : maxRedEntry version b = maxRedEntry version a := maxRedEntry_congr hb
  have hfrom := hserves.1
  have hlow : 0 ≤ gsi := by omega
  have hvain : ∀ i ∈ before, ¬ Tested version gsi i := by
    intro i hi
    have hmem : i ∈ ioapics := by simp [hsplit, hi]
    exact not_tested_of_serves hdisjoint ha hmem hserves (hbefore i hi).1 (hbefore i hi).2
  have hreach : Tested version gsi b ∧ (Serves version b gsi ∨
      2 ^ 32 + gsi ≤ b.globalSysInterruptBase.toNat + maxRedEntry version b) := by
    rcases hcase with ⟨rfl, hle⟩ | hwrap
    · rcases gsiBase_cases b with ⟨-, heq⟩ | ⟨hlarge, -, -⟩
      · exact ⟨⟨heq ▸ hfrom, hle⟩, .inl hserves⟩
      · omega
    · have hword := b.globalSysInterruptBase.toNat_lt
      exact ⟨⟨gsiBase_le_of_large hlow (by omega), by omega⟩, .inr hwrap⟩
  have hentry := (entry_bounds_iff hlow hhigh).mpr hreach.2
  rw [routedTo_iff hgsi, hsplit, ioapicSearch_eq hvain hreach.1,
    acpiGetGsiBase_eq h.address hb (fun i hi => (hbefore i hi).1), hb, ← hsame]
  exact ⟨rfl, h.address, hentry⟩

theorem RoutedTo.findable (hdisjoint : ioapics.Pairwise (DisjointRanges version)) (ha : a ∈ ioapics)
    (hgsi : acpiIrqToGsi fuel (some m) (int32 irq.toNat) = some gsi) (hhigh : gsi < 2 ^ 31)
    (hserves : Serves version a gsi) (h : RoutedTo fuel version (some m) ioapics irq a) :
    Findable version ioapics a gsi := by
  obtain ⟨hsearch, haddress, hentry⟩ := (routedTo_iff hgsi).mp h
  have hne : a.ioApicAddress.toNat ≠ 0 := fun hzero => haddress (UInt32.toNat_inj.mp hzero)
  obtain ⟨before, b, behind, hsplit, hb, hbefore⟩ := exists_first_at ha
  have hsame : maxRedEntry version b = maxRedEntry version a := maxRedEntry_congr hb
  have hfrom := hserves.1
  -- The base that is subtracted is that of the first I/O APIC at the address.
  have hbase : acpiGetGsiBase ioapics a.ioApicAddress.toNat = gsiBase b := by
    rw [hsplit]
    exact acpiGetGsiBase_eq haddress hb hbefore
  rw [hbase, ← hsame] at hentry
  have hreach := (entry_bounds_iff (by omega) hhigh).mp hentry
  have hle : gsi ≤ maxRedEntry version a := by
    obtain ⟨c, -, htest, hc⟩ := ioapicSearch_found (hsearch ▸ hne)
    have hca : c.ioApicAddress = a.ioApicAddress := UInt32.toNat_inj.mp (hc.symm.trans hsearch)
    have hmax := htest.2
    rwa [maxRedEntry_congr hca] at hmax
  refine ⟨haddress, before, b, behind, hsplit, hb, ?_, fun i hi => ⟨hbefore i hi, ?_⟩⟩
  · rcases hreach with hsb | hwrap
    · have hmem : b ∈ ioapics := by simp [hsplit]
      exact .inl ⟨serves_unique hdisjoint hmem ha hsb hserves, hle⟩
    · exact .inr hwrap
  · rintro ⟨hlarge, hmax⟩
    have htest : Tested version gsi i := ⟨gsiBase_le_of_large (by omega) hlarge, hmax⟩
    obtain ⟨c, hcmem, hc⟩ := @ioapicSearch_before version before (b :: behind) i gsi hi htest
    rw [← hsplit, hsearch] at hc
    exact hbefore c hcmem (UInt32.toNat_inj.mp hc.symm)

end Routing

/-- Among I/O APICs with disjoint ranges, an IRQ is routed through the one that serves its
interrupt if and only if the search can find that one. -/
theorem irq_routed_iff_findable {fuel : Nat} {version : UInt32 → UInt32} {m : Mem}
    {ioapics : List IoApic} {irq : UInt32} {a : IoApic} {gsi : Int}
    (hdisjoint : ioapics.Pairwise (DisjointRanges version)) (ha : a ∈ ioapics)
    (hgsi : acpiIrqToGsi fuel (some m) (int32 irq.toNat) = some gsi)
    (hserves : Serves version a gsi) :
    RoutedTo fuel version (some m) ioapics irq a ↔ Findable version ioapics a gsi := by
  obtain ⟨n, rfl⟩ := acpiIrqToGsi_int hgsi
  have hhigh : int32 n < 2 ^ 31 := by
    have hint := int32_bounds n
    omega
  constructor
  · exact RoutedTo.findable hdisjoint ha hgsi hhigh hserves
  · exact RoutedTo.of_findable hdisjoint ha hgsi hhigh hserves

/-- Two I/O APICs with 24 entries each, one behind the other. -/
def twoIoapics : List IoApic := [⟨0xfec00000, 0⟩, ⟨0xfec10000, 24⟩]

def lastEntry23 : UInt32 → UInt32 := fun _ => 0x00170020

/-- A MADT whose only record redirects IRQ 9 to interrupt 30. -/
def redirectedMadt : Mem := fun a =>
  if a = 4 then 54 else if a = 44 then 2 else if a = 45 then 10 else if a = 47 then 9
  else if a = 48 then 30 else 0

theorem serves_lastEntry23 (address base : UInt32) (gsi : Int) :
    Serves lastEntry23 ⟨address, base⟩ gsi ↔ base.toNat ≤ gsi ∧ gsi ≤ base.toNat + 23 := by
  simp [Serves, maxRedEntry, lastEntry23]

theorem twoIoapics_disjoint : twoIoapics.Pairwise (DisjointRanges lastEntry23) := by
  have hpair : DisjointRanges lastEntry23 ⟨0xfec00000, 0⟩ ⟨0xfec10000, 24⟩ := by
    intro gsi hboth
    simp only [serves_lastEntry23] at hboth
    have hfirst : gsi ≤ 0 + 23 := hboth.1.2
    have hsecond : 24 ≤ gsi := hboth.2.1
    omega
  simpa [twoIoapics] using hpair

theorem irq_one_routed :
    RoutedTo 2 lastEntry23 (some redirectedMadt) twoIoapics 1 ⟨0xfec00000, 0⟩ := by
  have hgsi : acpiIrqToGsi 2 (some redirectedMadt) (int32 (1 : UInt32).toNat) = some 1 := by decide
  have hserves : Serves lastEntry23 ⟨0xfec00000, 0⟩ 1 := by decide
  apply (irq_routed_iff_findable twoIoapics_disjoint (by simp [twoIoapics]) hgsi hserves).mpr
  exact ⟨by decide, [], _, _, rfl, rfl, .inl ⟨rfl, by decide⟩, by simp⟩

/-- IRQ 9 belongs to entry 6 of the second I/O APIC, but no I/O APIC is found for it. -/
theorem redirected_irq_not_routed :
    twoIoapics.Pairwise (DisjointRanges lastEntry23) ∧
    acpiIrqToGsi 1 (some redirectedMadt) (int32 (9 : UInt32).toNat) = some 30 ∧
    Serves lastEntry23 ⟨0xfec10000, 24⟩ 30 ∧
    ioapicGetAddr 1 lastEntry23 (some redirectedMadt) twoIoapics 9 = some 0 ∧
    ¬ RoutedTo 1 lastEntry23 (some redirectedMadt) twoIoapics 9 ⟨0xfec10000, 24⟩ := by
  have hget : ioapicGetAddr 1 lastEntry23 (some redirectedMadt) twoIoapics 9 = some 0 := by decide
  refine ⟨twoIoapics_disjoint, by decide, by decide, hget, ?_⟩
  rintro ⟨hfound, -⟩
  exact absurd (hget.symm.trans hfound) (by decide)

end Tellurium.Ioapic
