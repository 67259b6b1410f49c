import Tellurium.Lib.Memory
import Mathlib.Logic.Function.Basic

/-!
Words of 64 bits on a stack that grows towards lower addresses, and register files that are stored
on it and loaded from it. What has been pushed is read back in the opposite order, from the lowest
address up.
-/

namespace Tellurium.Lib

namespace Mem

def word (m : Mem) (a : Nat) : UInt64 := UInt64.ofNat (m.read64 a)
def setWord (m : Mem) (a : Nat) (v : UInt64) : Mem := m.write64 a v.toNat

/-- The words at `a`, `a + 8`, and so on. -/
def words (m : Mem) (a : Nat) : Nat → List UInt64
  | 0 => []
  | n + 1 => m.word a :: m.words (a + 8) n

/-- The words are pushed one after the other, the last one to the lowest address. -/
def pushWords (m : Mem) (sp : Nat) : List UInt64 → Mem
  | [] => m
  | v :: rest => (m.setWord (sp - 8) v).pushWords (sp - 8) rest

variable {m m' : Mem} {a b n : Nat} {v : UInt64}

@[simp] theorem word_setWord_same (m : Mem) (a : Nat) (v : UInt64) :
    (m.setWord a v).word a = v := by
  rw [word, setWord, read64_write64_same m a v.toNat_lt, UInt64.ofNat_toNat]

theorem word_setWord_of_disjoint (m : Mem) (v : UInt64) (h : a + 8 ≤ b ∨ b + 8 ≤ a) :
    (m.setWord b v).word a = m.word a := by
  rw [word, setWord, read64_write64_of_disjoint m _ h, word]

theorem word_congr (h : ∀ x, a ≤ x → x < a + 8 → m x = m' x) : m.word a = m'.word a :=
  congrArg UInt64.ofNat (readN_congr h)

@[simp] theorem length_words (m : Mem) (a n : Nat) : (m.words a n).length = n := by
  induction n generalizing a with
  | zero => rfl
  | succ n ih => rw [words, List.length_cons, ih]

theorem words_congr (h : ∀ x, a ≤ x → x < a + 8 * n → m x = m' x) : m.words a n = m'.words a n := by
  induction n generalizing a with
  | zero => rfl
  | succ n ih =>
      rw [words, words, ih fun x hlo hhi => h x (by omega) (by omega),
        word_congr fun x hlo hhi => h x hlo (by omega)]

theorem words_append (m : Mem) (a n k : Nat) :
    m.words a (n + k) = m.words a n ++ m.words (a + 8 * n) k := by
  induction n generalizing a with
  | zero => rw [Nat.zero_add, words, List.nil_append, Nat.mul_zero, Nat.add_zero]
  | succ n ih =>
      rw [Nat.succ_add, words, words, ih, List.cons_append]
      congr 3
      omega

theorem words_setWord_of_disjoint (m : Mem) (v : UInt64) (h : a + 8 * n ≤ b ∨ b + 8 ≤ a) :
    (m.setWord b v).words a n = m.words a n :=
  words_congr fun x hlo hhi => writeN_out m v.toNat (by omega)

theorem getElem?_words {i : Nat} (m : Mem) (a : Nat) (hi : i < n) :
    (m.words a n)[i]? = some (m.word (a + 8 * i)) := by
  induction n generalizing a i with
  | zero => exact absurd hi (Nat.not_lt_zero i)
  | succ n ih =>
      cases i with
      | zero => rfl
      | succ i =>
          rw [words, List.getElem?_cons_succ, ih (a + 8) (Nat.lt_of_succ_lt_succ hi)]
          congr 2
          omega

/-- Words beside what has changed. -/
theorem ChangesIn.words_eq {spans : List Span} (h : ChangesIn spans m m')
    (hout : ∀ s ∈ spans, Span.Disjoint ⟨a, 8 * n⟩ s) : m'.words a n = m.words a n :=
  words_congr fun x hlo hhi => h x fun s hs => Span.not_has_of_disjoint (hout s hs) ⟨hlo, hhi⟩

/-- A copy beside the words holds the same words. -/
theorem words_memcpy (m : Mem) {dest src : Nat} (h : dest + 8 * n ≤ src ∨ src + 8 * n ≤ dest) :
    (m.memcpy dest src (8 * n)).words dest n = m.words src n := by
  have hbytes : ∀ k, k < 8 * n → (m.memcpy dest src (8 * n)) (dest + k) = m (src + k) :=
    fun k hk => memcpy_in m h hk
  generalize m.memcpy dest src (8 * n) = m' at hbytes
  clear h
  induction n generalizing dest src with
  | zero => rfl
  | succ n ih =>
      have hword : m'.word dest = m.word src :=
        congrArg UInt64.ofNat (readN_shift fun i hi => hbytes i (by omega))
      rw [words, words, hword, ih fun k hk => by
        have hbyte := hbytes (8 + k) (by omega)
        rwa [← Nat.add_assoc, ← Nat.add_assoc] at hbyte]

theorem changesIn_setWord (m : Mem) (a : Nat) (v : UInt64) :
    ChangesIn [⟨a, 8⟩] m (m.setWord a v) := by
  apply (ChangesIn.refl _ m).write64
  exact ⟨⟨a, 8⟩, List.mem_singleton_self _, le_rfl, le_rfl⟩

theorem pushWords_cons (m : Mem) (a : Nat) (v : UInt64) (vs : List UInt64) :
    m.pushWords (a + 8 * (v :: vs).length) (v :: vs) =
      (m.setWord (a + 8 * vs.length) v).pushWords (a + 8 * vs.length) vs := by
  have hnext : a + 8 * (v :: vs).length - 8 = a + 8 * vs.length := by
    rw [List.length_cons]
    omega
  rw [pushWords, hnext]

theorem changesIn_pushWords (m : Mem) (a : Nat) (vs : List UInt64) :
    ChangesIn [⟨a, 8 * vs.length⟩] m (m.pushWords (a + 8 * vs.length) vs) := by
  induction vs generalizing m with
  | nil => exact ChangesIn.refl _ m
  | cons v rest ih =>
      have hfirst : ChangesIn [⟨a, 8 * (v :: rest).length⟩] m
          (m.setWord (a + 8 * rest.length) v) := by
        apply (ChangesIn.refl _ m).write64
        refine ⟨_, List.mem_singleton_self _, ?_⟩
        simp only [List.length_cons]
        omega
      rw [pushWords_cons]
      apply hfirst.trans
      apply (ih (m.setWord (a + 8 * rest.length) v)).mono
      intro s hs
      rw [List.mem_singleton.mp hs]
      exact ⟨_, List.mem_singleton_self _, by simp only [Span.Inside, List.length_cons]; omega⟩

/-- What has been pushed is read back from the lowest address up. -/
theorem words_pushWords (m : Mem) (a : Nat) (vs : List UInt64) :
    (m.pushWords (a + 8 * vs.length) vs).words a vs.length = vs.reverse := by
  induction vs generalizing m with
  | nil => rfl
  | cons v rest ih =>
      rw [pushWords_cons, List.length_cons, words_append, ih, List.reverse_cons]
      -- The first word stays above the ones that are pushed after it.
      have hkept : ((m.setWord (a + 8 * rest.length) v).pushWords (a + 8 * rest.length)
          rest).word (a + 8 * rest.length) = v := by
        refine Eq.trans (word_congr fun x hlo hhi => ?_) (word_setWord_same m _ v)
        apply changesIn_pushWords
        intro s hs
        rw [List.mem_singleton.mp hs]
        simp only [Span.Has]
        omega
      rw [words, words, hkept]

end Mem

/-- The registers of the list take the words, in this order. -/
def loadRegs {ρ : Type*} [DecidableEq ρ] (reg : ρ → UInt64) : List ρ → List UInt64 → ρ → UInt64
  | r :: rs, v :: vs => loadRegs (Function.update reg r v) rs vs
  | _, _ => reg

section

variable {ρ : Type*} [DecidableEq ρ] {reg reg' : ρ → UInt64} {rs : List ρ} {r : ρ}

theorem loadRegs_of_not_mem (vs : List UInt64) (hr : r ∉ rs) : loadRegs reg rs vs r = reg r := by
  induction rs generalizing reg vs with
  | nil => rfl
  | cons first rest ih =>
      cases vs with
      | nil => rfl
      | cons v vs =>
          obtain ⟨hfirst, hrest⟩ := not_or.mp (mt List.mem_cons.mpr hr)
          rw [loadRegs, ih vs hrest, Function.update_of_ne hfirst]

/-- Registers that are stored and loaded again are the same. -/
theorem loadRegs_map (hnodup : rs.Nodup) (hr : r ∈ rs) :
    loadRegs reg' rs (rs.map reg) r = reg r := by
  induction rs generalizing reg' with
  | nil => cases hr
  | cons first rest ih =>
      obtain ⟨hfirst, hrest⟩ := List.nodup_cons.mp hnodup
      rw [List.map_cons, loadRegs]
      by_cases hin : r ∈ rest
      · exact ih hrest hin
      · obtain rfl | hin' := List.mem_cons.mp hr
        · rw [loadRegs_of_not_mem _ hin, Function.update_self]
        · exact absurd hin' hin

end

end Tellurium.Lib
