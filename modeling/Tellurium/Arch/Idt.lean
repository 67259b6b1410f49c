import Tellurium.Lib.SpinLock
import Mathlib.Algebra.BigOperators.Fin
import Mathlib.Algebra.Order.BigOperators.Group.Finset
import Mathlib.Tactic.Ring

/-!
The interrupt descriptor table (`kernel/arch/idt.c`) while the cores come up. All cores write the
one table behind `idt_lock`, each when it runs the part of `core_init` and `init_lapic` that asks
for its vectors, installs its gates and sets their stacks. Loading the table changes nothing in it
and is left out.
-/

namespace Tellurium.Idt

open Tellurium.Lib

structure IdtEntry where
  offsetLow16 : UInt16
  segmentSelector : UInt16
  ist : UInt8
  gateType : UInt8
  offsetMiddle16 : UInt16
  offsetUpper32 : UInt32
  reserved : UInt32
  deriving DecidableEq

/-- The address that the processor takes from a gate. -/
def IdtEntry.offset (e : IdtEntry) : UInt64 :=
  e.offsetLow16.toUInt64 ||| e.offsetMiddle16.toUInt64 <<< 16 ||| e.offsetUpper32.toUInt64 <<< 32

def gdtKernelCode : UInt16 := 0x28

/-- The gate that `add_descriptor` writes. -/
def gate (gateEntry : UInt64) (flags : UInt8) : IdtEntry where
  offsetLow16 := (gateEntry &&& 0xffff).toUInt16
  segmentSelector := gdtKernelCode
  ist := 0
  gateType := flags
  offsetMiddle16 := (gateEntry >>> 16 &&& 0xffff).toUInt16
  offsetUpper32 := (gateEntry >>> 32 &&& 0xffffffff).toUInt32
  reserved := 0

theorem parts_or {low middle upper : Nat} (hlow : low < 2 ^ 16) (hmiddle : middle < 2 ^ 16) :
    low ||| middle * 2 ^ 16 ||| upper * 2 ^ 32 = low + middle * 2 ^ 16 + upper * 2 ^ 32 := by
  have hfirst : low ||| middle * 2 ^ 16 = 2 ^ 16 * middle + low := by
    rw [Nat.or_comm, Nat.mul_comm, Nat.two_pow_add_eq_or_of_lt hlow]
  have hboth : 2 ^ 16 * middle + low < 2 ^ 32 := by omega
  rw [hfirst, Nat.or_comm, Nat.mul_comm upper, ← Nat.two_pow_add_eq_or_of_lt hboth]
  ring

/-- The three parts of an address make up the address. -/
theorem offset_gate (gateEntry : UInt64) (flags : UInt8) :
    (gate gateEntry flags).offset = gateEntry := by
  apply UInt64.toNat_inj.mp
  have hword := gateEntry.toNat_lt
  have hword16 : ∀ a, a &&& 65535 = a % 2 ^ 16 := fun a => Nat.and_two_pow_sub_one_eq_mod a 16
  have hword32 : ∀ a, a &&& 4294967295 = a % 2 ^ 32 := fun a => Nat.and_two_pow_sub_one_eq_mod a 32
  simp only [gate, IdtEntry.offset, UInt64.toNat_or, UInt64.toNat_shiftLeft, UInt16.toNat_toUInt64,
    UInt32.toNat_toUInt64, UInt64.toNat_toUInt16, UInt64.toNat_toUInt32, UInt64.toNat_and,
    UInt64.toNat_shiftRight, UInt64.reduceToNat, Nat.reduceMod, hword16, hword32,
    Nat.shiftRight_eq_div_pow, Nat.shiftLeft_eq, Nat.mod_mod]
  generalize gateEntry.toNat = a at hword
  have hmiddle : a / 2 ^ 16 % 2 ^ 16 * 2 ^ 16 % 2 ^ 64 = a / 2 ^ 16 % 2 ^ 16 * 2 ^ 16 :=
    Nat.mod_eq_of_lt (by omega)
  have hupper : a / 2 ^ 32 < 2 ^ 32 := by omega
  have hhigh : a / 2 ^ 32 % 2 ^ 32 * 2 ^ 32 % 2 ^ 64 = a / 2 ^ 32 * 2 ^ 32 := by
    rw [Nat.mod_eq_of_lt hupper, Nat.mod_eq_of_lt (by omega)]
  have hor := @parts_or (a % 2 ^ 16) (a / 2 ^ 16 % 2 ^ 16) (a / 2 ^ 32)
    (Nat.mod_lt _ (by decide)) (Nat.mod_lt _ (by decide))
  rw [hmiddle, hhigh, hor]
  omega

/-- The table and the number of the next vector. -/
structure Table where
  curVectorIdt : Nat
  idtEntry : UInt8 → IdtEntry

inductive Call where
  | allocateVector
  | addDescriptor (vector : UInt8) (gateEntry : UInt64) (flags : UInt8)
  | setVectorIst (vector : UInt8) (ist : UInt8)

/-- What a call returns. A failed assertion halts the core, with the lock in its hands. -/
inductive Answer where
  | halted
  | vector (v : UInt8)
  | done

/-- The statements of the regions, named by what they test or write. -/
inductive Place where
  | testVector
  | takeVector
  | offsetLow16 (vector : UInt8) (gateEntry : UInt64) (flags : UInt8)
  | segmentSelector (vector : UInt8) (gateEntry : UInt64) (flags : UInt8)
  | clearIst (vector : UInt8) (gateEntry : UInt64) (flags : UInt8)
  | gateType (vector : UInt8) (gateEntry : UInt64) (flags : UInt8)
  | offsetMiddle16 (vector : UInt8) (gateEntry : UInt64)
  | offsetUpper32 (vector : UInt8) (gateEntry : UInt64)
  | reserved (vector : UInt8)
  | ist (vector : UInt8) (ist : UInt8)

def Call.enter : Call → Place
  | .allocateVector => .testVector
  | .addDescriptor vector gateEntry flags => .offsetLow16 vector gateEntry flags
  | .setVectorIst vector ist => .ist vector ist

namespace Table

def setEntry (t : Table) (vector : UInt8) (e : IdtEntry) : Table :=
  {t with idtEntry := Function.update t.idtEntry vector e}

def statement (t : Table) : Place → Table × (Place ⊕ Answer)
  | .testVector => if t.curVectorIdt < 256 then (t, .inl .takeVector) else (t, .inr .halted)
  | .takeVector =>
      ({t with curVectorIdt := t.curVectorIdt + 1}, .inr (.vector (UInt8.ofNat t.curVectorIdt)))
  | .offsetLow16 v gateEntry flags =>
      (t.setEntry v {t.idtEntry v with offsetLow16 := (gateEntry &&& 0xffff).toUInt16},
        .inl (.segmentSelector v gateEntry flags))
  | .segmentSelector v gateEntry flags =>
      (t.setEntry v {t.idtEntry v with segmentSelector := gdtKernelCode},
        .inl (.clearIst v gateEntry flags))
  | .clearIst v gateEntry flags =>
      (t.setEntry v {t.idtEntry v with ist := 0}, .inl (.gateType v gateEntry flags))
  | .gateType v gateEntry flags =>
      (t.setEntry v {t.idtEntry v with gateType := flags}, .inl (.offsetMiddle16 v gateEntry))
  | .offsetMiddle16 v gateEntry =>
      (t.setEntry v {t.idtEntry v with offsetMiddle16 := (gateEntry >>> 16 &&& 0xffff).toUInt16},
        .inl (.offsetUpper32 v gateEntry))
  | .offsetUpper32 v gateEntry =>
      (t.setEntry v {t.idtEntry v with offsetUpper32 := (gateEntry >>> 32 &&& 0xffffffff).toUInt32},
        .inl (.reserved v))
  | .reserved v => (t.setEntry v {t.idtEntry v with reserved := 0}, .inr .done)
  | .ist v ist => (t.setEntry v {t.idtEntry v with ist}, .inr .done)

/-- What whole calls do and return. -/
def call (t : Table) : Call → Table × Answer
  | .allocateVector =>
      if t.curVectorIdt < 256 then
        ({t with curVectorIdt := t.curVectorIdt + 1}, .vector (UInt8.ofNat t.curVectorIdt))
      else (t, .halted)
  | .addDescriptor vector gateEntry flags => (t.setEntry vector (gate gateEntry flags), .done)
  | .setVectorIst vector ist => (t.setEntry vector {t.idtEntry vector with ist}, .done)

@[simp] theorem setEntry_same (t : Table) (v : UInt8) (e : IdtEntry) :
    (t.setEntry v e).idtEntry v = e := Function.update_self _ _ _

theorem setEntry_ne (t : Table) {v w : UInt8} (h : w ≠ v) (e : IdtEntry) :
    (t.setEntry v e).idtEntry w = t.idtEntry w := Function.update_of_ne h _ _

@[simp] theorem setEntry_setEntry (t : Table) (v : UInt8) (e e' : IdtEntry) :
    (t.setEntry v e).setEntry v e' = t.setEntry v e' := by
  rw [setEntry, setEntry, setEntry]
  simp only [Function.update_idem]

end Table

def idtRegion : Region Table Call Place Answer := ⟨Call.enter, Table.statement⟩

/-- The statements of a call do what the call does. -/
theorem runs_call {t t' : Table} {c : Call} {r : Answer} (h : idtRegion.Runs t c.enter t' r) :
    (t', r) = t.call c := by
  cases c with
  | allocateVector =>
      rw [Table.call]
      by_cases hroom : t.curVectorIdt < 256
      · have htest : t.statement .testVector = (t, .inl .takeVector) := if_pos hroom
        obtain ⟨rfl, rfl⟩ := (h.of_go htest).of_leave rfl
        rw [if_pos hroom]
      · have htest : t.statement .testVector = (t, .inr .halted) := if_neg hroom
        obtain ⟨rfl, rfl⟩ := h.of_leave htest
        rw [if_neg hroom]
  | addDescriptor vector gateEntry flags =>
      obtain ⟨rfl, rfl⟩ := ((((((h.of_go rfl).of_go rfl).of_go rfl).of_go rfl).of_go rfl).of_go
        rfl).of_leave rfl
      simp only [Table.setEntry_same, Table.setEntry_setEntry]
      rfl
  | setVectorIst vector ist =>
      obtain ⟨rfl, rfl⟩ := h.of_leave rfl
      rfl

/-- The gate that the statement writes a part of. -/
def Place.gate? : Place → Option UInt8
  | .offsetLow16 v _ _ | .segmentSelector v _ _ | .clearIst v _ _ | .gateType v _ _
  | .offsetMiddle16 v _ | .offsetUpper32 v _ | .reserved v => some v
  | .testVector | .takeVector | .ist _ _ => none

/-- The statement belongs to the call. -/
def Call.Has : Call → Place → Prop
  | .allocateVector, l => l = .testVector ∨ l = .takeVector
  | .addDescriptor vector _ _, l => l.gate? = some vector
  | .setVectorIst vector ist, l => l = .ist vector ist

/-- What a call may have changed in the table so far. -/
def Call.Touched (t s : Table) : Call → Prop
  | .allocateVector => s.idtEntry = t.idtEntry
  | .addDescriptor vector _ _ => ∀ w ≠ vector, s.idtEntry w = t.idtEntry w
  | .setVectorIst vector _ => (∀ w ≠ vector, s.idtEntry w = t.idtEntry w) ∧
      ∃ ist, s.idtEntry vector = {t.idtEntry vector with ist}

theorem Call.Touched.refl (t : Table) (c : Call) : c.Touched t t := by
  cases c with
  | allocateVector => rfl
  | addDescriptor vector gateEntry flags => exact fun w _ => rfl
  | setVectorIst vector ist => exact ⟨fun w _ => rfl, (t.idtEntry vector).ist, rfl⟩

/-- The next statement of a call belongs to the call. -/
theorem Call.Has.statement {c : Call} {l : Place} {t s : Table} (hl : c.Has l)
    (h : c.Touched t s) : c.Touched t (s.statement l).1 ∧
      ∀ l', (s.statement l).2 = .inl l' → c.Has l' := by
  cases c with
  | allocateVector =>
      rcases hl with rfl | rfl
      · rw [Table.statement]
        split
        · exact ⟨h, fun l' hl' => .inr (Sum.inl.inj hl').symm⟩
        · exact ⟨h, fun l' hl' => by cases hl'⟩
      · exact ⟨h, fun l' hl' => by cases hl'⟩
  | addDescriptor vector gateEntry flags =>
      have hwrite : ∀ e, (Call.addDescriptor vector gateEntry flags).Touched t
          (s.setEntry vector e) :=
        fun e w hw => (s.setEntry_ne hw e).trans (h w hw)
      have hnext : ∀ l₁ : Place, l₁.gate? = some vector → ∀ l',
          (Sum.inl l₁ : Place ⊕ Answer) = .inl l' → l'.gate? = some vector :=
        fun l₁ hl₁ l' hl' => Sum.inl.inj hl' ▸ hl₁
      cases l with
      | testVector => cases hl
      | takeVector => cases hl
      | offsetLow16 v g f =>
          cases hl
          exact ⟨hwrite _, hnext _ rfl⟩
      | segmentSelector v g f =>
          cases hl
          exact ⟨hwrite _, hnext _ rfl⟩
      | clearIst v g f =>
          cases hl
          exact ⟨hwrite _, hnext _ rfl⟩
      | gateType v g f =>
          cases hl
          exact ⟨hwrite _, hnext _ rfl⟩
      | offsetMiddle16 v g =>
          cases hl
          exact ⟨hwrite _, hnext _ rfl⟩
      | offsetUpper32 v g =>
          cases hl
          exact ⟨hwrite _, hnext _ rfl⟩
      | reserved v =>
          cases hl
          exact ⟨hwrite _, fun l' hl' => by cases hl'⟩
      | ist v i => cases hl
  | setVectorIst vector ist =>
      cases hl
      obtain ⟨hothers, old, hold⟩ := h
      refine ⟨⟨fun w hw => (s.setEntry_ne hw _).trans (hothers w hw), ist, ?_⟩,
        fun l' hl' => by cases hl'⟩
      rw [Table.statement, Table.setEntry_same, hold]

/-- The addresses that the gates are made of. -/
structure Handlers where
  isrTable : Nat → UInt64
  isrKeyboard : UInt64
  isrMouse : UInt64
  isrTimer : UInt64
  isrIpi : UInt64

/-- `0x8e` -/
def interruptGate (gateEntry : UInt64) (ist : UInt8) : IdtEntry := {gate gateEntry 0x8e with ist}

def initIdt (h : Handlers) : Table :=
  {(List.range 21).foldl (fun (t : Table) idx =>
    (t.call (.addDescriptor (UInt8.ofNat idx) (h.isrTable idx) 0x8e)).1)
    ⟨0, fun _ => ⟨0, 0, 0, 0, 0, 0, 0⟩⟩ with curVectorIdt := 32}

/-- What `ioapic_map_irq` does to the table, with a vector that `init_ps2` allocates for it. -/
def mapIrq (t : Table) (gateEntry : UInt64) : Table :=
  match t.call .allocateVector with
  | (t, .vector v) => ((t.call (.addDescriptor v gateEntry 0x8e)).1.call (.setVectorIst v 1)).1
  | (t, _) => t

/-- The table when `init_cpu` starts the cores. -/
def initSystem (h : Handlers) : Table := mapIrq (mapIrq (initIdt h) h.isrKeyboard) h.isrMouse

/-- Where a core is in `init_lapic` and in the part of `core_init` behind it. -/
inductive CoreInit where
  | allocTimer
  | addTimer (timer : UInt8)
  | allocIpi (timer : UInt8)
  | addIpi (timer ipi : UInt8)
  | istTimer (timer ipi : UInt8)
  | istIpi (timer ipi : UInt8)
  | istException (timer ipi : UInt8) (idx : Nat)
  | online (timer ipi : UInt8)
  deriving DecidableEq

namespace CoreInit

def call? (h : Handlers) : CoreInit → Option Call
  | .allocTimer => some .allocateVector
  | .addTimer timer => some (.addDescriptor timer h.isrTimer 0x8e)
  | .allocIpi _ => some .allocateVector
  | .addIpi _ ipi => some (.addDescriptor ipi h.isrIpi 0x8e)
  | .istTimer timer _ => some (.setVectorIst timer 1)
  | .istIpi _ ipi => some (.setVectorIst ipi 1)
  | .istException _ _ idx => some (.setVectorIst (UInt8.ofNat idx) 1)
  | .online _ _ => none

def next : CoreInit → Answer → CoreInit
  | .allocTimer, .vector v => .addTimer v
  | .addTimer timer, _ => .allocIpi timer
  | .allocIpi timer, .vector v => .addIpi timer v
  | .addIpi timer ipi, _ => .istTimer timer ipi
  | .istTimer timer ipi, _ => .istIpi timer ipi
  | .istIpi timer ipi, _ => .istException timer ipi 0
  | .istException timer ipi idx, _ =>
      if idx + 1 < 20 then .istException timer ipi (idx + 1) else .online timer ipi
  | core, _ => core

/-- The vectors that the core was given. -/
def vectors : CoreInit → List UInt8
  | .allocTimer => []
  | .addTimer timer | .allocIpi timer => [timer]
  | .addIpi timer ipi | .istTimer timer ipi | .istIpi timer ipi | .istException timer ipi _
  | .online timer ipi => [timer, ipi]

theorem next_istException (timer ipi : UInt8) (idx : Nat) (answer : Answer) :
    (CoreInit.istException timer ipi idx).next answer =
      if idx + 1 < 20 then .istException timer ipi (idx + 1) else .online timer ipi := rfl

/-- What the core has written so far. -/
def Written (h : Handlers) (t : Table) : CoreInit → Prop
  | .allocTimer | .addTimer _ => True
  | .allocIpi timer | .addIpi timer _ => t.idtEntry timer = interruptGate h.isrTimer 0
  | .istTimer timer ipi =>
      t.idtEntry timer = interruptGate h.isrTimer 0 ∧ t.idtEntry ipi = interruptGate h.isrIpi 0
  | .istIpi timer ipi =>
      t.idtEntry timer = interruptGate h.isrTimer 1 ∧ t.idtEntry ipi = interruptGate h.isrIpi 0
  | .istException timer ipi idx =>
      idx < 20 ∧
        t.idtEntry timer = interruptGate h.isrTimer 1 ∧ t.idtEntry ipi = interruptGate h.isrIpi 1
  | .online timer ipi =>
      t.idtEntry timer = interruptGate h.isrTimer 1 ∧ t.idtEntry ipi = interruptGate h.isrIpi 1

theorem Written.congr {h : Handlers} {t t' : Table} {core : CoreInit}
    (hsame : ∀ v ∈ core.vectors, t'.idtEntry v = t.idtEntry v) (hw : core.Written h t) :
    core.Written h t' := by
  cases core <;> simp_all [Written, vectors]

theorem vectors_length_le (core : CoreInit) : core.vectors.length ≤ 2 := by
  cases core <;> simp [vectors]

end CoreInit

/-- The cores that come up, and the table with its lock. -/
structure Boot (n : Nat) where
  idt : Cores (Fin n) Table Call Place Answer
  core : Fin n → CoreInit

namespace Boot

/-- A step of core `i`: it begins its next call, goes on in it or comes back from it. -/
def step {n : Nat} (h : Handlers) (m : Boot n) (i : Fin n) : Boot n :=
  match m.idt.place i with
  | .outside =>
      match (m.core i).call? h with
      | some c => {m with idt := m.idt.call i c}
      | none => m
  | .leaving _ .halted => m
  | .leaving _ answer =>
      ⟨m.idt.tick idtRegion i, Function.update m.core i ((m.core i).next answer)⟩
  | _ => {m with idt := m.idt.tick idtRegion i}

def start (n : Nat) (h : Handlers) : Boot n :=
  ⟨Cores.start (initSystem h), fun _ => .allocTimer⟩

end Boot

theorem setEntries_idtEntry (gates : Nat → IdtEntry) (n : Nat) (hn : n ≤ 256) (t : Table) :
    ∀ k < n, ((List.range n).foldl (fun t idx => t.setEntry (UInt8.ofNat idx) (gates idx))
      t).idtEntry (UInt8.ofNat k) = gates k := by
  induction n with
  | zero =>
      intro k hk
      exact absurd hk (Nat.not_lt_zero k)
  | succ n ih =>
      intro k hk
      rw [List.range_succ, List.foldl_append, List.foldl_cons, List.foldl_nil]
      by_cases hkn : k = n
      · subst hkn
        exact Table.setEntry_same _ _ _
      · have hne : UInt8.ofNat k ≠ UInt8.ofNat n := by
          intro heq
          have hnat := congrArg UInt8.toNat heq
          simp only [UInt8.toNat_ofNat'] at hnat
          omega
        rw [Table.setEntry_ne _ hne]
        exact ih (by omega) k (by omega)

theorem mapIrq_spec {t : Table} (hroom : t.curVectorIdt < 256) (gateEntry : UInt64) :
    (mapIrq t gateEntry).curVectorIdt = t.curVectorIdt + 1 ∧
    (mapIrq t gateEntry).idtEntry (UInt8.ofNat t.curVectorIdt) = interruptGate gateEntry 1 ∧
    ∀ w ≠ UInt8.ofNat t.curVectorIdt, (mapIrq t gateEntry).idtEntry w = t.idtEntry w := by
  rw [mapIrq, Table.call, if_pos hroom]
  simp only [Table.call, Table.setEntry_same, Table.setEntry_setEntry]
  exact ⟨rfl, rfl, fun w hw => Table.setEntry_ne _ hw _⟩

/-- The exceptions have their gates, and so have the two devices. -/
theorem initSystem_spec (h : Handlers) : (initSystem h).curVectorIdt = 34 ∧
    (initSystem h).idtEntry 32 = interruptGate h.isrKeyboard 1 ∧
    (initSystem h).idtEntry 33 = interruptGate h.isrMouse 1 ∧
    ∀ k < 21, (initSystem h).idtEntry (UInt8.ofNat k) = interruptGate (h.isrTable k) 0 := by
  have hcount : (initIdt h).curVectorIdt = 32 := rfl
  have hexceptions := setEntries_idtEntry (fun k => gate (h.isrTable k) 0x8e) 21 (by decide)
    ⟨0, fun _ => ⟨0, 0, 0, 0, 0, 0, 0⟩⟩
  have hinit : ∀ k < 21,
      (initIdt h).idtEntry (UInt8.ofNat k) = interruptGate (h.isrTable k) 0 := hexceptions
  obtain ⟨hcount₁, hkeyboard, hother₁⟩ := mapIrq_spec (hcount.trans_lt (by decide)) h.isrKeyboard
  rw [hcount] at hcount₁ hkeyboard hother₁
  obtain ⟨hcount₂, hmouse, hother₂⟩ := mapIrq_spec (hcount₁.trans_lt (by decide)) h.isrMouse
  rw [hcount₁] at hcount₂ hmouse hother₂
  refine ⟨hcount₂, (hother₂ 32 (by decide)).trans hkeyboard, hmouse, fun k hk => ?_⟩
  have hne : ∀ d : Nat, 32 ≤ d → d < 34 → UInt8.ofNat k ≠ UInt8.ofNat d := by
    intro d hd hd' heq
    have hnat := congrArg UInt8.toNat heq
    simp only [UInt8.toNat_ofNat'] at hnat
    omega
  exact ((hother₂ _ (hne 33 (by decide) (by decide))).trans
    (hother₁ _ (hne 32 (by decide) (by decide)))).trans (hinit k hk)

/-- The table and the cores between two calls. -/
structure Consistent {n : Nat} (h : Handlers) (t : Table) (core : Fin n → CoreInit) : Prop where
  count : t.curVectorIdt = 34 + ∑ i, (core i).vectors.length
  range : ∀ i, ∀ v ∈ (core i).vectors, 34 ≤ v.toNat ∧ v.toNat < t.curVectorIdt
  nodup : ∀ i, (core i).vectors.Nodup
  apart : ∀ i j, i ≠ j → List.Disjoint (core i).vectors (core j).vectors
  written : ∀ i, (core i).Written h t
  keyboard : t.idtEntry 32 = interruptGate h.isrKeyboard 1
  mouse : t.idtEntry 33 = interruptGate h.isrMouse 1
  exceptions : ∀ k < 21, ∃ ist, t.idtEntry (UInt8.ofNat k) = interruptGate (h.isrTable k) ist

namespace Consistent

variable {n : Nat} {h : Handlers} {t : Table} {core : Fin n → CoreInit} {i : Fin n}

/-- There is a vector left for a core that has not got both of its own. -/
theorem room (hc : Consistent h t core) (hn : n ≤ 111) (hi : (core i).vectors.length < 2) :
    t.curVectorIdt < 256 := by
  have hsum : ∑ j, (core j).vectors.length < ∑ _j : Fin n, 2 :=
    Finset.sum_lt_sum (fun j _ => (core j).vectors_length_le) ⟨i, Finset.mem_univ i, hi⟩
  simp only [Finset.sum_const, Finset.card_univ, Fintype.card_fin, smul_eq_mul] at hsum
  have hcount := hc.count
  omega

theorem start (h : Handlers) :
    Consistent h (initSystem h) (fun _ : Fin n => CoreInit.allocTimer) := by
  obtain ⟨hcount, hkeyboard, hmouse, hexceptions⟩ := initSystem_spec h
  refine ⟨?_, fun i v hv => absurd hv List.not_mem_nil, fun i => List.nodup_nil,
    fun i j _ => List.disjoint_nil_left _, fun i => trivial, hkeyboard, hmouse,
    fun k hk => ⟨0, hexceptions k hk⟩⟩
  simpa [CoreInit.vectors] using hcount

/-- A core gets the next vector. -/
theorem alloc (hc : Consistent h t core) (hroom : t.curVectorIdt < 256) {core' : CoreInit}
    (hvectors : core'.vectors = (core i).vectors ++ [UInt8.ofNat t.curVectorIdt])
    (hwritten : core'.Written h t) :
    Consistent h {t with curVectorIdt := t.curVectorIdt + 1} (Function.update core i core') := by
  have hvalue : (UInt8.ofNat t.curVectorIdt).toNat = t.curVectorIdt := by
    simp only [UInt8.toNat_ofNat']
    omega
  have hnew : ∀ j, UInt8.ofNat t.curVectorIdt ∉ (core j).vectors := by
    intro j hj
    have hlt := (hc.range j _ hj).2
    omega
  have hmem : ∀ j, ∀ v ∈ (Function.update core i core' j).vectors,
      v ∈ (core j).vectors ∨ j = i ∧ v = UInt8.ofNat t.curVectorIdt := by
    intro j v hv
    by_cases hj : j = i
    · subst hj
      rw [Function.update_self, hvectors, List.mem_append, List.mem_singleton] at hv
      exact hv.imp_right fun hv => ⟨rfl, hv⟩
    · rw [Function.update_of_ne hj] at hv
      exact .inl hv
  constructor
  case count =>
      have hsum := Finset.sum_update_of_mem (Finset.mem_univ i) (fun j => (core j).vectors.length)
        core'.vectors.length
      have hwhole := Finset.sum_eq_add_sum_sdiff_singleton_of_mem (Finset.mem_univ i)
        (fun j => (core j).vectors.length)
      have hupdate : ∀ j, (Function.update core i core' j).vectors.length =
          Function.update (fun j => (core j).vectors.length) i core'.vectors.length j :=
        fun j => Function.apply_update (fun _ c => c.vectors.length) core i core' j
      have hlength : core'.vectors.length = (core i).vectors.length + 1 := by
        rw [hvectors, List.length_append, List.length_singleton]
      have hcount := hc.count
      change t.curVectorIdt + 1 = _
      simp only [hupdate]
      omega
  case range =>
      intro j v hv
      change _ ∧ _ < t.curVectorIdt + 1
      rcases hmem j v hv with hold | ⟨-, rfl⟩
      · have hrange := hc.range j v hold
        omega
      · have hcount := hc.count
        omega
  case nodup =>
      intro j
      by_cases hj : j = i
      · subst hj
        rw [Function.update_self, hvectors]
        exact (hc.nodup j).append (List.nodup_singleton _)
          (List.disjoint_singleton.mpr (hnew j))
      · rw [Function.update_of_ne hj]
        exact hc.nodup j
  case apart =>
      intro j k hjk v hj hk
      rcases hmem j v hj with hold | ⟨rfl, rfl⟩
      · rcases hmem k v hk with hold' | ⟨rfl, rfl⟩
        · exact hc.apart j k hjk hold hold'
        · exact hnew j hold
      · rcases hmem k _ hk with hold' | ⟨rfl, -⟩
        · exact hnew k hold'
        · exact hjk rfl
  case written =>
      intro j
      have hsame : ∀ core : CoreInit, core.Written h t →
          core.Written h {t with curVectorIdt := t.curVectorIdt + 1} :=
        fun _ hw => hw.congr fun _ _ => rfl
      by_cases hj : j = i
      · subst hj
        rw [Function.update_self]
        exact hsame _ hwritten
      · rw [Function.update_of_ne hj]
        exact hsame _ (hc.written j)
  case keyboard => exact hc.keyboard
  case mouse => exact hc.mouse
  case exceptions => exact hc.exceptions

/-- A core writes to one of its own gates, or to the stack of an exception. -/
theorem write (hc : Consistent h t core) {t' : Table} {core' : CoreInit}
    (hvectors : core'.vectors = (core i).vectors) (hcount : t'.curVectorIdt = t.curVectorIdt)
    (hothers : ∀ w ∉ (core i).vectors, 21 ≤ w.toNat → t'.idtEntry w = t.idtEntry w)
    (hexceptions : ∀ w, w.toNat < 21 → ∃ ist, t'.idtEntry w = {t.idtEntry w with ist})
    (hwritten : core'.Written h t') : Consistent h t' (Function.update core i core') := by
  have hall : ∀ j, (Function.update core i core' j).vectors = (core j).vectors := by
    intro j
    by_cases hj : j = i
    · subst hj
      rw [Function.update_self, hvectors]
    · rw [Function.update_of_ne hj]
  have hdevice : ∀ w : UInt8, 21 ≤ w.toNat → w.toNat < 34 → t'.idtEntry w = t.idtEntry w := by
    intro w hw hw'
    refine hothers w (fun hmem => ?_) hw
    have hrange := hc.range i w hmem
    omega
  constructor
  case count =>
      simp only [hall, hcount]
      exact hc.count
  case range =>
      intro j v hv
      rw [hall] at hv
      rw [hcount]
      exact hc.range j v hv
  case nodup =>
      intro j
      rw [hall]
      exact hc.nodup j
  case apart =>
      intro j k hjk
      rw [hall, hall]
      exact hc.apart j k hjk
  case written =>
      intro j
      by_cases hj : j = i
      · subst hj
        rw [Function.update_self]
        exact hwritten
      · rw [Function.update_of_ne hj]
        refine (hc.written j).congr fun v hv => hothers v (hc.apart j i hj hv) ?_
        have hrange := hc.range j v hv
        omega
  case keyboard => exact (hdevice 32 (by decide) (by decide)).trans hc.keyboard
  case mouse => exact (hdevice 33 (by decide) (by decide)).trans hc.mouse
  case exceptions =>
      intro k hk
      obtain ⟨ist, hold⟩ := hc.exceptions k hk
      obtain ⟨ist', hnew⟩ := hexceptions (UInt8.ofNat k) (by simp only [UInt8.toNat_ofNat']; omega)
      refine ⟨ist', ?_⟩
      rw [hnew, hold]
      rfl

/-- One entry is written, and it is one of the core's own. -/
theorem writeOwn (hc : Consistent h t core) {core' : CoreInit} {v : UInt8} (e : IdtEntry)
    (hvectors : core'.vectors = (core i).vectors) (hv : v ∈ (core i).vectors)
    (hwritten : core'.Written h (t.setEntry v e)) :
    Consistent h (t.setEntry v e) (Function.update core i core') := by
  refine hc.write hvectors rfl (fun w hw _ => ?_) (fun w hw => ?_) hwritten
  · apply t.setEntry_ne
    rintro rfl
    exact hw hv
  · refine ⟨(t.idtEntry w).ist, t.setEntry_ne ?_ e⟩
    rintro rfl
    have hrange := hc.range i w hv
    omega

/-- No call of a core fails as long as there are two vectors for each, and it keeps the table and
the cores consistent. -/
theorem next (hc : Consistent h t core) (hn : n ≤ 111) {c : Call}
    (hi : (core i).call? h = some c) : (t.call c).2 ≠ .halted ∧
      Consistent h (t.call c).1 (Function.update core i ((core i).next (t.call c).2)) := by
  have hwritten := hc.written i
  cases hcore : core i with
  | allocTimer =>
      rw [hcore] at hi
      cases hi
      have hroom := hc.room (i := i) hn (by simp [hcore, CoreInit.vectors])
      rw [Table.call, if_pos hroom]
      exact ⟨by simp, hc.alloc hroom (by rw [hcore]; rfl) trivial⟩
  | addTimer timer =>
      rw [hcore] at hi
      cases hi
      have hmem : timer ∈ (core i).vectors := by simp [hcore, CoreInit.vectors]
      exact ⟨by simp [Table.call], hc.writeOwn _ (by rw [hcore]; rfl) hmem (Table.setEntry_same _ _ _)⟩
  | allocIpi timer =>
      rw [hcore] at hi hwritten
      cases hi
      have hroom := hc.room (i := i) hn (by simp [hcore, CoreInit.vectors])
      rw [Table.call, if_pos hroom]
      exact ⟨by simp, hc.alloc hroom (by rw [hcore]; rfl) hwritten⟩
  | addIpi timer ipi =>
      rw [hcore] at hi hwritten
      cases hi
      have hmem : ipi ∈ (core i).vectors := by simp [hcore, CoreInit.vectors]
      have hne : timer ≠ ipi := by
        have hnodup := hc.nodup i
        simpa [hcore, CoreInit.vectors] using hnodup
      exact ⟨by simp [Table.call], hc.writeOwn _ (by rw [hcore]; rfl) hmem
        ⟨(Table.setEntry_ne _ hne _).trans hwritten, Table.setEntry_same _ _ _⟩⟩
  | istTimer timer ipi =>
      rw [hcore] at hi hwritten
      cases hi
      have hmem : timer ∈ (core i).vectors := by simp [hcore, CoreInit.vectors]
      have hne : ipi ≠ timer := by
        have hnodup := hc.nodup i
        simpa [hcore, CoreInit.vectors, eq_comm] using hnodup
      have hstack : {t.idtEntry timer with ist := 1} = interruptGate h.isrTimer 1 := by
        rw [hwritten.1]
        rfl
      exact ⟨by simp [Table.call], hc.writeOwn _ (by rw [hcore]; rfl) hmem
        ⟨(Table.setEntry_same _ _ _).trans hstack, (Table.setEntry_ne _ hne _).trans hwritten.2⟩⟩
  | istIpi timer ipi =>
      rw [hcore] at hi hwritten
      cases hi
      have hmem : ipi ∈ (core i).vectors := by simp [hcore, CoreInit.vectors]
      have hne : timer ≠ ipi := by
        have hnodup := hc.nodup i
        simpa [hcore, CoreInit.vectors] using hnodup
      have hstack : {t.idtEntry ipi with ist := 1} = interruptGate h.isrIpi 1 := by
        rw [hwritten.2]
        rfl
      exact ⟨by simp [Table.call], hc.writeOwn _ (by rw [hcore]; rfl) hmem ⟨by decide,
        (Table.setEntry_ne _ hne _).trans hwritten.1, (Table.setEntry_same _ _ _).trans hstack⟩⟩
  | istException timer ipi idx =>
      rw [hcore] at hi hwritten
      cases hi
      obtain ⟨hidx, htimer, hipi⟩ := hwritten
      have hvalue : (UInt8.ofNat idx).toNat = idx := by
        simp only [UInt8.toNat_ofNat']
        omega
      have hhigh : ∀ w : UInt8, 21 ≤ w.toNat → w ≠ UInt8.ofNat idx := by
        rintro w hw rfl
        omega
      have hown : ∀ w ∈ (core i).vectors, w ≠ UInt8.ofNat idx := by
        intro w hw
        have hrange := hc.range i w hw
        exact hhigh w (by omega)
      have htimer' := (t.setEntry_ne (hown timer (by simp [hcore, CoreInit.vectors]))
        {t.idtEntry (UInt8.ofNat idx) with ist := 1}).trans htimer
      have hipi' := (t.setEntry_ne (hown ipi (by simp [hcore, CoreInit.vectors]))
        {t.idtEntry (UInt8.ofNat idx) with ist := 1}).trans hipi
      refine ⟨by simp [Table.call], hc.write ?_ rfl
        (fun w _ hw => t.setEntry_ne (hhigh w hw) _) (fun w _ => ?_) ?_⟩
      · rw [hcore, CoreInit.next_istException]
        by_cases hmore : idx + 1 < 20
        · rw [if_pos hmore]
          rfl
        · rw [if_neg hmore]
          rfl
      · by_cases hw : w = UInt8.ofNat idx
        · subst hw
          exact ⟨1, Table.setEntry_same _ _ _⟩
        · exact ⟨(t.idtEntry w).ist, t.setEntry_ne hw _⟩
      · rw [CoreInit.next_istException]
        by_cases hmore : idx + 1 < 20
        · rw [if_pos hmore]
          exact ⟨hmore, htimer', hipi'⟩
        · rw [if_neg hmore]
          exact ⟨htimer', hipi'⟩
  | online timer ipi =>
      rw [hcore] at hi
      cases hi

end Consistent

/-- What a core may have changed in the middle of its call. -/
theorem Call.Touched.of_core {h : Handlers} {t s : Table} {core : CoreInit} {c : Call}
    (htouched : c.Touched t s) (hc : core.call? h = some c) (hwritten : core.Written h t) :
    (∀ w ∉ core.vectors, 21 ≤ w.toNat → s.idtEntry w = t.idtEntry w) ∧
      ((∀ v ∈ core.vectors, 21 ≤ v.toNat) → ∀ w : UInt8, w.toNat < 21 →
        ∃ ist, s.idtEntry w = {t.idtEntry w with ist}) := by
  have hown : ∀ v ∈ core.vectors, (∀ w ≠ v, s.idtEntry w = t.idtEntry w) →
      (∀ w ∉ core.vectors, 21 ≤ w.toNat → s.idtEntry w = t.idtEntry w) ∧
        ((∀ v ∈ core.vectors, 21 ≤ v.toNat) → ∀ w : UInt8, w.toNat < 21 →
          ∃ ist, s.idtEntry w = {t.idtEntry w with ist}) := by
    refine fun v hv hsame => ⟨fun w hw _ => hsame w ?_, fun hhigh w hw =>
      ⟨(t.idtEntry w).ist, hsame w ?_⟩⟩
    · rintro rfl
      exact hw hv
    · rintro rfl
      exact absurd (hhigh w hv) (by omega)
  cases core with
  | allocTimer =>
      cases hc
      exact ⟨fun w _ _ => congrFun htouched w,
        fun _ w _ => ⟨(t.idtEntry w).ist, congrFun htouched w⟩⟩
  | addTimer timer =>
      cases hc
      exact hown timer (by simp [CoreInit.vectors]) htouched
  | allocIpi timer =>
      cases hc
      exact ⟨fun w _ _ => congrFun htouched w,
        fun _ w _ => ⟨(t.idtEntry w).ist, congrFun htouched w⟩⟩
  | addIpi timer ipi =>
      cases hc
      exact hown ipi (by simp [CoreInit.vectors]) htouched
  | istTimer timer ipi =>
      cases hc
      exact hown timer (by simp [CoreInit.vectors]) htouched.1
  | istIpi timer ipi =>
      cases hc
      exact hown ipi (by simp [CoreInit.vectors]) htouched.1
  | istException timer ipi idx =>
      cases hc
      have hvalue : (UInt8.ofNat idx).toNat = idx := by
        have hidx := hwritten.1
        simp only [UInt8.toNat_ofNat']
        omega
      have hidx := hwritten.1
      refine ⟨fun w _ hw => htouched.1 w ?_, fun _ w _ => ?_⟩
      · rintro rfl
        omega
      · by_cases heq : w = UInt8.ofNat idx
        · rw [heq]
          exact htouched.2
        · exact ⟨(t.idtEntry w).ist, htouched.1 w heq⟩
  | online timer ipi => cases hc

/-- The core holds the lock and has changed no more than its call may change. -/
def Within (t s : Table) : Lib.Place Call Place Answer → Prop
  | .outside | .spinning _ => True
  | .inside c l => c.Has l ∧ c.Touched t s
  | .leaving c _ => c.Touched t s

theorem Within.of_not_holds {t s : Table} {place : Lib.Place Call Place Answer}
    (h : ¬ place.Holds) : Within t s place := by
  cases place with
  | outside => trivial
  | spinning c => trivial
  | inside c l => exact absurd trivial h
  | leaving c r => exact absurd trivial h

theorem Within.moved {ι : Type*} [DecidableEq ι] {t s : Table} {place : Lib.Place Call Place Answer}
    {m : Cores ι Table Call Place Answer} {i : ι} (hi : Within t s place)
    (hothers : ∀ j, j ≠ i → Within t s (m.place j)) : ∀ j, Within t s ((m.moved i place).place j) := by
  intro j
  by_cases hj : j = i
  · subst hj
    rw [Cores.moved_self]
    exact hi
  · rw [Cores.moved_ne m _ hj]
    exact hothers j hj

namespace Boot

variable {n : Nat} {h : Handlers} {m : Boot n} {i : Fin n}

/-- The table that the calls leave behind. -/
def settle (t : Table) (calls : List Call) : Table := calls.foldl (fun t c => (t.call c).1) t

def settled (h : Handlers) (m : Boot n) : Table :=
  settle (initSystem h) (m.idt.done.map fun d => d.2.1)

theorem serial_settle {calls : List (Fin n × Call × Answer)} {t t' : Table}
    (hserial : idtRegion.Serial t calls t') : t' = settle t (calls.map fun d => d.2.1) := by
  have hcall : ∀ {s a c s' r}, s = a → True → idtRegion.Runs s (idtRegion.enter c) s' r →
      r = (Table.call a c).2 ∧ s' = (Table.call a c).1 := by
    rintro s a c s' r rfl - hruns
    have heq := runs_call hruns
    exact ⟨congrArg Prod.snd heq, congrArg Prod.fst heq⟩
  exact hserial.refines hcall rfl (EveryStep.of_forall fun _ _ => trivial)

/-- A core that is in a call is in the one that its program makes next. The calls that have
returned made a consistent table, and a core that holds the lock has gone on from there. -/
structure Inv (h : Handlers) (m : Boot n) : Prop where
  cores : Cores.Inv idtRegion (initSystem h) m.idt
  calls : ∀ i, ∀ c ∈ (m.idt.place i).call?, (m.core i).call? h = some c
  consistent : Consistent h (m.settled h) m.core
  within : ∀ i, Within (m.settled h) m.idt.shared (m.idt.place i)

theorem Inv.start (n : Nat) (h : Handlers) : Inv h (Boot.start n h) where
  cores := Cores.Inv.start idtRegion (initSystem h)
  calls := fun _ c hc => absurd hc (Option.not_mem_none c)
  consistent := Consistent.start h
  within := fun _ => trivial

/-- When no core holds the lock, the table is the one that the calls have left behind. -/
theorem Inv.free (hinv : Inv h m) (hfree : ∀ i, ¬ (m.idt.place i).Holds) :
    m.idt.shared = m.settled h := by
  obtain ⟨t, hserial, hsame⟩ := hinv.cores.serial
  rw [← hsame hfree]
  exact serial_settle hserial

theorem Inv.call (hinv : Inv h m) {c : Call} (hplace : m.idt.place i = .outside)
    (hc : (m.core i).call? h = some c) : Inv h {m with idt := m.idt.call i c} := by
  have hcores := hinv.cores.call i c
  rw [Cores.call_outside hplace] at hcores ⊢
  refine ⟨hcores, fun j c' hc' => ?_, hinv.consistent,
    Within.moved trivial fun j _ => hinv.within j⟩
  change c' ∈ ((m.idt.moved i _).place j).call? at hc'
  by_cases hj : j = i
  · subst hj
    rw [Cores.moved_self] at hc'
    exact Option.mem_some.mp hc' ▸ hc
  · rw [Cores.moved_ne m.idt _ hj] at hc'
    exact hinv.calls j c' hc'

theorem Inv.within_tick (hinv : Inv h m) (hi : ∀ c r, m.idt.place i ≠ .leaving c r) :
    ∀ j, Within (m.settled h) (m.idt.tick idtRegion i).shared
      ((m.idt.tick idtRegion i).place j) := by
  have hwithin := hinv.within i
  cases hplace : m.idt.place i with
  | outside =>
      rw [Cores.tick_outside hplace]
      exact hinv.within
  | spinning c =>
      cases hinv.cores with
      | free lock waiting serial =>
          rw [Cores.tick_take hplace lock]
          have hsame : m.idt.shared = m.settled h := hinv.free waiting
          have henter : c.Has c.enter := by
            cases c with
            | allocateVector => exact .inl rfl
            | addDescriptor vector gateEntry flags => rfl
            | setVectorIst vector ist => rfl
          exact Within.moved ⟨henter, hsame ▸ Call.Touched.refl _ c⟩ fun j _ => hinv.within j
      | held k s₁ lock waiting serial begun =>
          rw [Cores.tick_taken hplace (by rw [lock]; decide)]
          exact hinv.within
  | inside c l =>
      rw [hplace] at hwithin
      obtain ⟨-, hwaiting, -⟩ := hinv.cores.of_holds (i := i) (by rw [hplace]; trivial)
      obtain ⟨htouched, hnext⟩ := hwithin.1.statement hwithin.2
      have hothers : ∀ (t : Table) j, j ≠ i → Within (m.settled h) t (m.idt.place j) :=
        fun t j hj => Within.of_not_holds (hwaiting j hj)
      cases hstep : m.idt.shared.statement l with
      | mk t next =>
          rw [hstep] at htouched hnext
          cases next with
          | inl l₁ =>
              rw [Cores.tick_go hplace hstep]
              exact Within.moved ⟨hnext l₁ rfl, htouched⟩ (hothers t)
          | inr r =>
              rw [Cores.tick_leave hplace hstep]
              exact Within.moved htouched (hothers t)
  | leaving c r => exact absurd hplace (hi c r)

/-- A core goes on in its call. -/
theorem Inv.tick (hinv : Inv h m) (hi : ∀ c r, m.idt.place i ≠ .leaving c r) :
    Inv h {m with idt := m.idt.tick idtRegion i} := by
  have hwithin := hinv.within_tick hi
  have hkept : ((m.idt.tick idtRegion i).place i).call? = (m.idt.place i).call? ∧
      (m.idt.tick idtRegion i).done = m.idt.done := Cores.tick_call hi
  obtain ⟨hcall, hdone⟩ := hkept
  have hsettled : ({m with idt := m.idt.tick idtRegion i} : Boot n).settled h = m.settled h := by
    rw [settled, hdone]
    rfl
  rw [← hsettled] at hwithin
  refine ⟨hinv.cores.tick i, fun j c hc => ?_, hsettled ▸ hinv.consistent, hwithin⟩
  change c ∈ ((m.idt.tick idtRegion i).place j).call? at hc
  by_cases hj : j = i
  · subst hj
    rw [hcall] at hc
    exact hinv.calls j c hc
  · rw [Cores.tick_place_ne m.idt hj] at hc
    exact hinv.calls j c hc

/-- What a call that is about to return has done. -/
theorem Inv.leaving (hinv : Inv h m) {c : Call} {r : Answer}
    (hi : m.idt.place i = .leaving c r) : (m.idt.shared, r) = (m.settled h).call c := by
  obtain ⟨t, hserial, hruns⟩ := hinv.cores.leaving hi
  have hcall := runs_call hruns
  rw [serial_settle hserial] at hcall
  exact hcall

/-- The assertion of `allocate_vector` holds. -/
theorem Inv.not_halted (hinv : Inv h m) (hn : n ≤ 111) {c : Call} (i : Fin n) :
    m.idt.place i ≠ .leaving c .halted := by
  intro hi
  have hcall := hinv.calls i c (by rw [hi]; rfl)
  have hnext := (hinv.consistent.next hn hcall).1
  rw [← hinv.leaving hi] at hnext
  exact hnext rfl

/-- A core comes back from its call. -/
theorem Inv.return (hinv : Inv h m) (hn : n ≤ 111) {c : Call} {r : Answer}
    (hi : m.idt.place i = .leaving c r) :
    Inv h ⟨m.idt.tick idtRegion i, Function.update m.core i ((m.core i).next r)⟩ := by
  have hcores := hinv.cores.tick i
  have hcall := hinv.calls i c (by rw [hi]; rfl)
  have hnext := (hinv.consistent.next hn hcall).2
  have hleaving := hinv.leaving hi
  obtain ⟨lock, hwaiting, -⟩ := hinv.cores.of_holds (i := i) (by rw [hi]; trivial)
  rw [Cores.tick_release hi lock] at hcores ⊢
  rw [← hleaving] at hnext
  have hothers : ∀ j, j ≠ i → ((m.idt.moved i .outside).place j) = m.idt.place j :=
    fun j hj => Cores.moved_ne m.idt _ hj
  refine ⟨hcores, fun j c' hc' => ?_, ?_,
    Within.moved trivial fun j hj => Within.of_not_holds (hwaiting j hj)⟩
  · change c' ∈ ((m.idt.moved i _).place j).call? at hc'
    change (Function.update m.core i _ j).call? h = some c'
    by_cases hj : j = i
    · subst hj
      rw [Cores.moved_self] at hc'
      exact absurd hc' (Option.not_mem_none c')
    · rw [Cores.moved_ne m.idt _ hj] at hc'
      rw [Function.update_of_ne hj]
      exact hinv.calls j c' hc'
  · have hsettled : settle (initSystem h) ((m.idt.done ++ [(i, c, r)]).map fun d => d.2.1) =
        m.idt.shared := by
      rw [List.map_append, settle, List.foldl_append]
      exact (congrArg Prod.fst hleaving).symm
    change Consistent h (settle _ _) _
    rw [hsettled]
    exact hnext

/-- One step of one core. -/
theorem Inv.step (hinv : Inv h m) (hn : n ≤ 111) (i : Fin n) : Inv h (m.step h i) := by
  rw [Boot.step]
  split
  case h_1 hplace =>
      split
      case h_1 c hc => exact hinv.call hplace hc
      case h_2 => exact hinv
  case h_2 c hplace => exact hinv
  case h_3 c r hhalted hplace => exact hinv.return hn hplace
  case h_4 houtside hhalted hleaving => exact hinv.tick fun c r hplace => hleaving c r hplace

/-- Somebody may be in the middle of a call. -/
theorem Inv.touched (hinv : Inv h m) : m.idt.shared = m.settled h ∨
    ∃ j c, (m.core j).call? h = some c ∧ c.Touched (m.settled h) m.idt.shared := by
  by_cases hfree : ∀ i, ¬ (m.idt.place i).Holds
  · exact .inl (hinv.free hfree)
  · obtain ⟨j, hj⟩ := not_forall_not.mp hfree
    have hwithin := hinv.within j
    have hcalls := hinv.calls j
    refine .inr ⟨j, ?_⟩
    cases hplace : m.idt.place j with
    | outside =>
        rw [hplace] at hj
        exact hj.elim
    | spinning c =>
        rw [hplace] at hj
        exact hj.elim
    | inside c l =>
        rw [hplace] at hwithin hcalls
        exact ⟨c, hcalls c rfl, hwithin.2⟩
    | leaving c r =>
        rw [hplace] at hwithin hcalls
        exact ⟨c, hcalls c rfl, hwithin⟩

/-- At every moment a gate is whole, unless it belongs to a core that still sets it up. -/
theorem Inv.entry (hinv : Inv h m) {w : UInt8} (hw : 21 ≤ w.toNat)
    (hother : ∀ j, (m.core j).call? h ≠ none → w ∉ (m.core j).vectors) :
    m.idt.shared.idtEntry w = (m.settled h).idtEntry w := by
  rcases hinv.touched with hsame | ⟨j, c, hc, htouched⟩
  · rw [hsame]
  · have hown := hother j (by rw [hc]; exact Option.some_ne_none c)
    exact (htouched.of_core hc (hinv.consistent.written j)).1 w hown hw

theorem Inv.exception (hinv : Inv h m) {k : Nat} (hk : k < 21) :
    ∃ ist, m.idt.shared.idtEntry (UInt8.ofNat k) = interruptGate (h.isrTable k) ist := by
  obtain ⟨ist, hgate⟩ := hinv.consistent.exceptions k hk
  rcases hinv.touched with hsame | ⟨j, c, hc, htouched⟩
  · rw [hsame]
    exact ⟨ist, hgate⟩
  · have hlow : (UInt8.ofNat k).toNat < 21 := by
      simp only [UInt8.toNat_ofNat']
      omega
    have hown : ∀ v ∈ (m.core j).vectors, 21 ≤ v.toNat :=
      fun v hv => Nat.le_trans (by decide) (hinv.consistent.range j v hv).1
    obtain ⟨ist', hchanged⟩ :=
      (htouched.of_core hc (hinv.consistent.written j)).2 hown (UInt8.ofNat k) hlow
    refine ⟨ist', ?_⟩
    rw [hchanged, hgate]
    rfl

end Boot

/-- The processor takes the handler, its segment, the kind of the gate and its stack from it. -/
def IdtEntry.Serves (e : IdtEntry) (handler : UInt64) (ist : UInt8) : Prop :=
  e.offset = handler ∧ e.segmentSelector = gdtKernelCode ∧ e.gateType = 0x8e ∧ e.ist = ist

theorem interruptGate_serves (handler : UInt64) (ist : UInt8) :
    (interruptGate handler ist).Serves handler ist :=
  ⟨offset_gate handler 0x8e, rfl, rfl, rfl⟩

/-- Up to 111 cores come up, in whatever order their steps come. No core halts for want of a
vector, and no vector is given twice. At every moment, also while another core writes to the table,
a core that is online finds the handlers of its timer and of its messages under its own two
vectors, on the stack of the interrupts, and so it does the handlers of the keyboard, of the mouse
and of the exceptions. -/
theorem cores_come_up {n : Nat} (hn : n ≤ 111) (h : Handlers) (actions : List (Fin n)) {m : Boot n}
    (hm : m = actions.foldl (Boot.step h) (Boot.start n h)) :
    (∀ i c, m.idt.place i ≠ .leaving c .halted) ∧
    (∀ i j, i ≠ j → (m.core i).vectors.Disjoint (m.core j).vectors) ∧
    (∀ i timer ipi, m.core i = .online timer ipi → timer ≠ ipi ∧
      (m.idt.shared.idtEntry timer).Serves h.isrTimer 1 ∧
      (m.idt.shared.idtEntry ipi).Serves h.isrIpi 1) ∧
    (m.idt.shared.idtEntry 32).Serves h.isrKeyboard 1 ∧
    (m.idt.shared.idtEntry 33).Serves h.isrMouse 1 ∧
    ∀ k < 21, ∃ ist, (m.idt.shared.idtEntry (UInt8.ofNat k)).Serves (h.isrTable k) ist := by
  have hinv : m.Inv h := by
    rw [hm]
    exact foldl_inv (fun _ i hinv => hinv.step hn i) (Boot.Inv.start n h) actions
  have hdevice : ∀ w : UInt8, 21 ≤ w.toNat → w.toNat < 34 →
      m.idt.shared.idtEntry w = (m.settled h).idtEntry w := by
    refine fun w hw hw' => hinv.entry hw fun j _ hj => ?_
    have hrange := hinv.consistent.range j w hj
    omega
  refine ⟨fun i c => hinv.not_halted hn i, hinv.consistent.apart, fun i timer ipi hi => ?_, ?_, ?_,
    fun k hk => ?_⟩
  · have hmem : timer ∈ (m.core i).vectors ∧ ipi ∈ (m.core i).vectors := by
      simp [hi, CoreInit.vectors]
    have hown : ∀ w ∈ (m.core i).vectors,
        m.idt.shared.idtEntry w = (m.settled h).idtEntry w := by
      intro w hw
      have hrange := hinv.consistent.range i w hw
      refine hinv.entry (by omega) fun j hj => ?_
      have hij : i ≠ j := by
        rintro rfl
        rw [hi] at hj
        exact hj rfl
      exact hinv.consistent.apart i j hij hw
    have hnodup := hinv.consistent.nodup i
    have hwritten := hinv.consistent.written i
    rw [hown timer hmem.1, hown ipi hmem.2]
    rw [hi] at hnodup hwritten
    rw [hwritten.1, hwritten.2]
    refine ⟨?_, interruptGate_serves _ _, interruptGate_serves _ _⟩
    simpa [CoreInit.vectors] using hnodup
  · rw [hdevice 32 (by decide) (by decide), hinv.consistent.keyboard]
    exact interruptGate_serves _ _
  · rw [hdevice 33 (by decide) (by decide), hinv.consistent.mouse]
    exact interruptGate_serves _ _
  · obtain ⟨ist, hgate⟩ := hinv.exception hk
    rw [hgate]
    exact ⟨ist, interruptGate_serves _ _⟩

def someHandlers : Handlers :=
  ⟨fun k => 0xffffffff80003000 + 16 * UInt64.ofNat k, 0xffffffff80002000, 0xffffffff80002100,
    0xffffffff80002200, 0xffffffff80002300⟩

/-- Two cores take turns. -/
theorem cores_come_up_two : ∃ m : Boot 2,
    m = (List.replicate 250 [0, 1]).flatten.foldl (Boot.step someHandlers)
      (Boot.start 2 someHandlers) ∧
    m.core 0 = .online 34 36 ∧ (m.idt.shared.idtEntry 34).Serves 0xffffffff80002200 1 := by
  obtain ⟨m, hm⟩ : ∃ m : Boot 2, m = (List.replicate 250 [0, 1]).flatten.foldl
    (Boot.step someHandlers) (Boot.start 2 someHandlers) := ⟨_, rfl⟩
  have honline : m.core 0 = .online 34 36 := by
    rw [hm]
    decide +kernel
  obtain ⟨-, -, hgates, -⟩ := cores_come_up (by decide) someHandlers _ hm
  exact ⟨m, hm, honline, (hgates 0 34 36 honline).2.1⟩

end Tellurium.Idt
