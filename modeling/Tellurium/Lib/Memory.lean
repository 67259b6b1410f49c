import Mathlib.Data.List.Basic
import Mathlib.Tactic.Ring

/-!
Byte-addressed memory with little-endian words. A memory maps every address to a
byte; a word of `n` bytes is read and written byte by byte. The lemmas are the usual
frame rules: a write changes only the bytes it covers, and a read depends only on
the bytes it covers. `ChangesIn` collects what a sequence of writes may have changed.
-/

namespace Tellurium.Lib

/-- The addresses `base, ..., base + len - 1`. -/
structure Span where
  base : Nat
  len : Nat
  deriving Repr, DecidableEq

namespace Span

def Has (s : Span) (x : Nat) : Prop := s.base ≤ x ∧ x < s.base + s.len

def Disjoint (s t : Span) : Prop := s.base + s.len ≤ t.base ∨ t.base + t.len ≤ s.base

def Inside (s t : Span) : Prop := t.base ≤ s.base ∧ s.base + s.len ≤ t.base + t.len

instance (s t : Span) : Decidable (s.Disjoint t) := inferInstanceAs (Decidable (_ ∨ _))

instance (s : Span) (x : Nat) : Decidable (s.Has x) := inferInstanceAs (Decidable (_ ∧ _))

theorem Disjoint.symm {s t : Span} (h : s.Disjoint t) : t.Disjoint s := Or.symm h

theorem Disjoint.of_inside {s t u v : Span} (h : u.Disjoint v) (hs : s.Inside u)
    (ht : t.Inside v) : s.Disjoint t := by
  unfold Disjoint Inside at *
  omega

theorem not_has_of_disjoint {s t : Span} {x : Nat} (h : s.Disjoint t) (hx : s.Has x) :
    ¬ t.Has x := by
  unfold Disjoint Has at *
  omega

end Span

/-- Sums and differences of 64-bit words. -/
def add64 (a b : Nat) : Nat := (a + b) % 2 ^ 64
def sub64 (a b : Nat) : Nat := (a + 2 ^ 64 - b) % 2 ^ 64

theorem sub64_eq {a b : Nat} (hle : b ≤ a) (hlt : a < 2 ^ 64 + b) : sub64 a b = a - b := by
  rw [sub64, show a + 2 ^ 64 - b = a - b + 2 ^ 64 by omega, Nat.add_mod_right,
    Nat.mod_eq_of_lt (by omega)]

/-- Every address holds a byte. -/
def Mem : Type := Nat → UInt8

namespace Mem

def set (m : Mem) (a : Nat) (v : UInt8) : Mem := fun k => if k = a then v else m k

/-- The little-endian word of `n` bytes at `a`. -/
def readN (m : Mem) (a : Nat) : Nat → Nat
  | 0 => 0
  | n + 1 => (m a).toNat + 256 * m.readN (a + 1) n

/-- Store the low `n` bytes of `v` at `a`, least significant first. -/
def writeN (m : Mem) (a : Nat) : Nat → Nat → Mem
  | 0, _ => m
  | n + 1, v => (m.set a (UInt8.ofNat v)).writeN (a + 1) n (v / 256)

def read64 (m : Mem) (a : Nat) : Nat := m.readN a 8
def write64 (m : Mem) (a v : Nat) : Mem := m.writeN a 8 v
def read16 (m : Mem) (a : Nat) : Nat := m.readN a 2
def write16 (m : Mem) (a v : Nat) : Mem := m.writeN a 2 v

/-- `len` copies of one byte. -/
def memset (m : Mem) (a : Nat) (v : UInt8) : Nat → Mem
  | 0 => m
  | len + 1 => (m.set a v).memset (a + 1) v len

/-- A forward byte copy, also when the ranges overlap. -/
def memcpy (m : Mem) (dest src : Nat) : Nat → Mem
  | 0 => m
  | n + 1 => (m.set dest (m src)).memcpy (dest + 1) (src + 1) n

variable {m m' : Mem} {a b n k v : Nat}

theorem set_same (m : Mem) (a : Nat) (v : UInt8) : m.set a v a = v := by simp [set]

theorem set_of_ne (m : Mem) (v : UInt8) (h : k ≠ a) : m.set a v k = m k := by simp [set, h]

theorem writeN_out (m : Mem) (v : Nat) (h : k < a ∨ a + n ≤ k) : m.writeN a n v k = m k := by
  induction n generalizing m a v with
  | zero => rfl
  | succ n ih => rw [writeN, ih _ _ (by omega), set_of_ne _ _ (by omega)]

theorem memset_apply (m : Mem) (a : Nat) (v : UInt8) (len k : Nat) :
    m.memset a v len k = if a ≤ k ∧ k < a + len then v else m k := by
  induction len generalizing m a with
  | zero =>
      rw [if_neg (by omega)]
      rfl
  | succ len ih =>
      rw [memset, ih]
      by_cases hk : k = a
      · subst hk
        rw [if_neg (by omega), if_pos (by omega), set_same]
      · rw [set_of_ne _ _ hk]
        by_cases hin : a + 1 ≤ k ∧ k < a + 1 + len
        · rw [if_pos hin, if_pos (by omega)]
        · rw [if_neg hin, if_neg (by omega)]

theorem memset_out (m : Mem) (v : UInt8) {len : Nat} (h : k < a ∨ a + len ≤ k) :
    m.memset a v len k = m k := by
  rw [memset_apply, if_neg (by omega)]

theorem memcpy_out (m : Mem) {dest src : Nat} (h : k < dest ∨ dest + n ≤ k) :
    m.memcpy dest src n k = m k := by
  induction n generalizing m dest src with
  | zero => rfl
  | succ n ih => rw [memcpy, ih _ (by omega), set_of_ne _ _ (by omega)]

/-- A byte whose source lies outside the destination is copied as it was. -/
theorem memcpy_get (m : Mem) {dest src : Nat} (hsrc : src + k < dest ∨ dest + n ≤ src + k)
    (hk : k < n) : m.memcpy dest src n (dest + k) = m (src + k) := by
  induction n generalizing m dest src k with
  | zero => omega
  | succ n ih =>
      rw [memcpy]
      cases k with
      | zero => rw [memcpy_out _ (by omega), Nat.add_zero, set_same, Nat.add_zero]
      | succ k =>
          have hnext : ((m.set dest (m src)).memcpy (dest + 1) (src + 1) n) (dest + 1 + k) =
              (m.set dest (m src)) (src + 1 + k) := ih _ (by omega) (by omega)
          rw [show dest + (k + 1) = dest + 1 + k by omega, hnext, set_of_ne _ _ (by omega)]
          congr 1
          omega

/-- Copying between disjoint ranges copies the old bytes. -/
theorem memcpy_in (m : Mem) {dest src : Nat} (hdisj : dest + n ≤ src ∨ src + n ≤ dest)
    (hk : k < n) : m.memcpy dest src n (dest + k) = m (src + k) :=
  memcpy_get m (by omega) hk

theorem readN_shift (h : ∀ i < n, m (a + i) = m' (b + i)) : m.readN a n = m'.readN b n := by
  induction n generalizing a b with
  | zero => rfl
  | succ n ih =>
      have htail : ∀ i < n, m (a + 1 + i) = m' (b + 1 + i) := by
        intro i hi
        have hbyte := h (i + 1) (Nat.succ_lt_succ hi)
        rwa [Nat.add_comm i, ← Nat.add_assoc, ← Nat.add_assoc] at hbyte
      rw [readN, readN, ih htail, show m a = m' b from h 0 n.succ_pos]

theorem readN_congr (h : ∀ i, a ≤ i → i < a + n → m i = m' i) :
    m.readN a n = m'.readN a n :=
  readN_shift fun i hi => h (a + i) (Nat.le_add_right a i) (Nat.add_lt_add_left hi a)

theorem readN_lt (m : Mem) (a n : Nat) : m.readN a n < 256 ^ n := by
  induction n generalizing a with
  | zero => simp [readN]
  | succ n ih =>
      have hbyte := (m a).toNat_lt
      have htail := ih (a + 1)
      rw [readN, Nat.pow_succ]
      omega

theorem readN_writeN_same (m : Mem) (a : Nat) {n v : Nat} (h : v < 256 ^ n) :
    (m.writeN a n v).readN a n = v := by
  induction n generalizing m a v with
  | zero => simp at h; simp [readN, h]
  | succ n ih =>
      have htail : v / 256 < 256 ^ n := by
        rw [Nat.pow_succ] at h
        omega
      rw [writeN, readN, ih _ _ htail, writeN_out _ _ (by omega), set_same, UInt8.toNat_ofNat']
      omega

/-- A read beside a write is not affected by it. -/
theorem readN_writeN_of_disjoint (m : Mem) (v : Nat) {n l : Nat}
    (h : a + n ≤ b ∨ b + l ≤ a) : (m.writeN b l v).readN a n = m.readN a n :=
  readN_congr fun i hlo hhi => writeN_out m v (by omega)

theorem read64_lt (m : Mem) (a : Nat) : m.read64 a < 2 ^ 64 := readN_lt m a 8

theorem read64_write64_same (m : Mem) (a : Nat) (h : v < 2 ^ 64) :
    (m.write64 a v).read64 a = v :=
  readN_writeN_same m a h

theorem read64_write64_of_disjoint (m : Mem) (v : Nat) (h : a + 8 ≤ b ∨ b + 8 ≤ a) :
    (m.write64 b v).read64 a = m.read64 a :=
  readN_writeN_of_disjoint m v h

/-- Storing a word's own value into an aligned cell, be it that word or another one. -/
theorem read64_write64_own (m : Mem) (ha : 8 ∣ a) (hb : 8 ∣ b) :
    (m.write64 b (m.read64 a)).read64 a = m.read64 a := by
  by_cases hab : a = b
  · subst hab
    exact read64_write64_same m a (m.read64_lt a)
  · exact read64_write64_of_disjoint m _ (by omega)

theorem readN_memset_of_disjoint (m : Mem) (v : UInt8) {n len : Nat}
    (h : a + n ≤ b ∨ b + len ≤ a) : (m.memset b v len).readN a n = m.readN a n :=
  readN_congr fun i hlo hhi => memset_out m v (by omega)

theorem readN_eq_zero (h : ∀ i, a ≤ i → i < a + n → m i = 0) : m.readN a n = 0 := by
  induction n generalizing a with
  | zero => rfl
  | succ n ih =>
      rw [readN, h a (by omega) (by omega), ih fun i hlo hhi => h i (by omega) (by omega)]
      rfl

/-- A zero word consists of zero bytes. -/
theorem byte_of_readN_eq_zero (h : m.readN a n = 0) (hlo : a ≤ k) (hhi : k < a + n) :
    m k = 0 := by
  induction n generalizing a with
  | zero => omega
  | succ n ih =>
      rw [readN] at h
      by_cases hk : k = a
      · subst hk
        exact UInt8.toNat_inj.mp (by simp; omega)
      · exact ih (a := a + 1) (by omega) (by omega) (by omega)

/-- Overwriting a zero word with zero changes nothing. -/
theorem writeN_zero_of_readN_eq_zero (h : m.readN a n = 0) : m.writeN a n 0 = m := by
  have hbytes : ∀ (l : Nat) (m : Mem) (b : Nat), (∀ i, b ≤ i → i < b + l → m i = 0) →
      m.writeN b l 0 = m := by
    intro l
    induction l with
    | zero => intros; rfl
    | succ l ih =>
        intro m b hb
        have hset : m.set b (UInt8.ofNat 0) = m := by
          funext k
          by_cases hk : k = b
          · subst hk
            rw [set_same, hb k (by omega) (by omega)]
            rfl
          · rw [set_of_ne _ _ hk]
        rw [writeN, hset]
        exact ih m (b + 1) fun i hlo hhi => hb i (by omega) (by omega)
  exact hbytes n m a fun i hlo hhi => byte_of_readN_eq_zero h hlo hhi

/-- The second memory differs from the first only inside the given ranges. -/
def ChangesIn (spans : List Span) (m m' : Mem) : Prop :=
  ∀ x, (∀ s ∈ spans, ¬ s.Has x) → m' x = m x

namespace ChangesIn

variable {spans spans' : List Span} {m₁ m₂ m₃ : Mem} {s : Span}

theorem refl (spans : List Span) (m : Mem) : ChangesIn spans m m := fun _ _ => rfl

theorem trans (h₁ : ChangesIn spans m₁ m₂) (h₂ : ChangesIn spans m₂ m₃) :
    ChangesIn spans m₁ m₃ := fun x hx => (h₂ x hx).trans (h₁ x hx)

theorem weaken (h : ChangesIn spans m₁ m₂) (hsub : spans ⊆ spans') : ChangesIn spans' m₁ m₂ :=
  fun x hx => h x fun _ hs => hx _ (hsub hs)

theorem mono (h : ChangesIn spans m₁ m₂)
    (hsub : ∀ s ∈ spans, ∃ s' ∈ spans', s.Inside s') : ChangesIn spans' m₁ m₂ := by
  intro x hx
  refine h x fun s hs hsx => ?_
  obtain ⟨s', hs', hlo, hhi⟩ := hsub s hs
  exact hx s' hs' ⟨hlo.trans hsx.1, hsx.2.trans_le hhi⟩

theorem writeN (h : ChangesIn spans m₁ m₂) (hs : s ∈ spans) (hin : Span.Inside ⟨a, n⟩ s) :
    ChangesIn spans m₁ (m₂.writeN a n v) := by
  intro x hx
  have hout := hx s hs
  simp only [Span.Has, Span.Inside] at hout hin
  rw [writeN_out _ _ (by omega), h x hx]

theorem write64 (h : ChangesIn spans m₁ m₂)
    (hin : ∃ s ∈ spans, s.base ≤ a ∧ a + 8 ≤ s.base + s.len) :
    ChangesIn spans m₁ (m₂.write64 a v) := by
  obtain ⟨s, hs, hlo, hhi⟩ := hin
  exact h.writeN hs ⟨hlo, hhi⟩

/-- A word outside the ranges still reads the same. -/
theorem readN_eq (h : ChangesIn spans m₁ m₂)
    (hout : ∀ s ∈ spans, Span.Disjoint ⟨a, n⟩ s) : m₂.readN a n = m₁.readN a n := by
  refine readN_congr fun x hlo hhi => h x fun s hs => ?_
  exact Span.not_has_of_disjoint (hout s hs) ⟨hlo, hhi⟩

/-- A range beside the changed ones holds the same bytes. -/
theorem bytes_eq (h : ChangesIn spans m₁ m₂) {x : Nat}
    (hout : ∀ t ∈ spans, s.Disjoint t) (hx : s.Has x) : m₂ x = m₁ x :=
  h x fun t ht => Span.not_has_of_disjoint (hout t ht) hx

end ChangesIn

end Mem

end Tellurium.Lib
