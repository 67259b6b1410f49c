import Tellurium.Lib.Run
import Tellurium.Lib.Int32
import Mathlib.Data.List.Range
import Mathlib.Logic.Function.Basic

/-!
The kernel's growable vector (`kernel/klib/vector.c`). The elements are pointers, kept as
numbers with 0 for `NULL`; `capacity` is how many of them the block from `kmalloc` or
`krealloc` has room for. Each call also lists the places of the block that it touches, with
the capacity at that moment. `contents` is the abstract view, the list of the elements.
-/

namespace Tellurium.Klib

open Tellurium.Lib

structure Vector where
  curElements : Int
  maxElements : Int
  elements : Int → Nat
  capacity : Nat

/-- `elements[index]` in a block of this capacity. -/
structure Access where
  index : Int
  capacity : Nat

def Access.InBlock (a : Access) : Prop := 0 ≤ a.index ∧ a.index < a.capacity

namespace Vector

def initSize : Nat := 8

/-- `vector_alloc` when `kmalloc` answers memory that holds `garbage`. -/
def alloc (garbage : Int → Nat) : Vector :=
  {curElements := 0, maxElements := initSize, elements := garbage, capacity := initSize}

def indexInBounds (v : Vector) (n : Int) : Prop := 0 ≤ n ∧ n < v.curElements

instance (v : Vector) (n : Int) : Decidable (v.indexInBounds n) :=
  inferInstanceAs (Decidable (_ ∧ _))

def store (v : Vector) (n : Int) (val : Nat) : Vector :=
  {v with elements := Function.update v.elements n val}

def get (v : Vector) (n : Int) : Nat × List Access :=
  if v.indexInBounds n then (v.elements n, [⟨n, v.capacity⟩]) else (0, [])

/-- `answer` is what `krealloc` returns: `NULL`, or a block with the old contents and behind
them whatever was there. -/
def resize (v : Vector) (size : Int) (answer : Option (Int → Nat)) : Vector :=
  if size < 0 then v
  else
    match answer with
    | none => v
    | some garbage =>
        {curElements := if size < v.curElements then size else v.curElements
         maxElements := size
         elements := fun n => if 0 ≤ n ∧ n < v.capacity ∧ n < size then v.elements n else garbage n
         capacity := size.toNat}

/-- The loop of `vector_clear` from index `i` on, for `count` elements. -/
def clearLoop (v : Vector) (i : Int) : Nat → Vector × List Access
  | 0 => (v, [])
  | count + 1 =>
      let rest := (v.store i 0).clearLoop (i + 1) count
      (rest.1, ⟨i, v.capacity⟩ :: rest.2)

def clear (v : Vector) (answer : Option (Int → Nat)) : Vector × List Access :=
  let (v, accesses) := v.clearLoop 0 v.curElements.toNat
  ({v.resize initSize answer with curElements := 0}, accesses)

def pushBack (v : Vector) (val : Nat) (answer : Option (Int → Nat)) : Vector × List Access :=
  let v := if v.curElements = v.maxElements then v.resize (int32 (v.maxElements * 2)) answer else v
  ({v.store v.curElements val with curElements := int32 (v.curElements + 1)},
    [⟨v.curElements, v.capacity⟩])

def popBack (v : Vector) : Vector × List Access :=
  ({v.store v.curElements 0 with curElements := int32 (v.curElements - 1)},
    [⟨v.curElements, v.capacity⟩])

/-- The loop of `vector_remove` from index `i` on, for `count` elements. -/
def removeLoop (v : Vector) (i : Int) : Nat → Vector × List Access
  | 0 => (v, [])
  | count + 1 =>
      let rest := (v.store i (v.elements (i + 1))).removeLoop (i + 1) count
      (rest.1, ⟨i + 1, v.capacity⟩ :: ⟨i, v.capacity⟩ :: rest.2)

def remove (v : Vector) (n : Int) : Vector × List Access :=
  if v.indexInBounds n then (v, [])
  else
    let (v, accesses) := v.removeLoop n (v.maxElements - 1 - n).toNat
    let last := int32 (v.maxElements - 1)
    ({v.store last 0 with maxElements := last}, accesses ++ [⟨last, v.capacity⟩])

def set (v : Vector) (n : Int) (val : Nat) : Vector × List Access :=
  if v.indexInBounds n then (v.store n val, [⟨n, v.capacity⟩]) else (v, [])

/-- The elements, first to last. -/
def contents (v : Vector) : List Nat :=
  (List.range v.curElements.toNat).map fun i : Nat => v.elements i

end Vector

/-- The calls on a vector, with the answers of `krealloc`. -/
inductive VectorOp where
  | pushBack (val : Nat) (answer : Option (Int → Nat))
  | popBack
  | remove (n : CInt)
  | set (n : CInt) (val : Nat)
  | get (n : CInt)
  | resize (size : CInt) (answer : Option (Int → Nat))
  | clear (answer : Option (Int → Nat))

/-- The vector after a call, what the call returns (0 for `void`) and what it touches. -/
def vectorCall (v : Vector) : VectorOp → Vector × Nat × List Access
  | .pushBack val answer => let (v, accesses) := v.pushBack val answer; (v, 0, accesses)
  | .popBack => let (v, accesses) := v.popBack; (v, 0, accesses)
  | .remove n => let (v, accesses) := v.remove n; (v, 0, accesses)
  | .set n val => let (v, accesses) := v.set n val; (v, 0, accesses)
  | .get n => let (val, accesses) := v.get n; (v, val, accesses)
  | .resize size answer => (v.resize size answer, 0, [])
  | .clear answer => let (v, accesses) := v.clear answer; (v, 0, accesses)

def vectorStep (v : Vector) (op : VectorOp) : Vector := (vectorCall v op).1

/-- What the call makes of the list `xs`, and what it returns. A vector without room may refuse
an element when `krealloc` fails. -/
def ListCall (full : Prop) (xs : List Nat) : VectorOp → List Nat → Nat → Prop
  | .pushBack val answer, ys, _ => ys = xs ++ [val] ∨ full ∧ answer = none ∧ ys = xs
  | .popBack, ys, _ => ys = xs.dropLast
  | .remove n, ys, _ => ys = if 0 ≤ n.1 then xs.eraseIdx n.1.toNat else xs
  | .set n val, ys, _ => ys = if 0 ≤ n.1 then xs.set n.1.toNat val else xs
  | .get n, ys, ret => ys = xs ∧ ret = if 0 ≤ n.1 then xs.getD n.1.toNat 0 else 0
  | .resize size _, ys, _ => ys = if 0 ≤ size.1 then xs.take size.1.toNat else xs
  | .clear _, ys, _ => ys = []

/-- The call touches only its block, keeps the counters in order and does to the elements what
it does to a list. -/
structure CallOk (v : Vector) (op : VectorOp) : Prop where
  inBlock : ∀ a ∈ (vectorCall v op).2.2, a.InBlock
  ordered : 0 ≤ (vectorStep v op).curElements ∧
    (vectorStep v op).curElements ≤ (vectorStep v op).maxElements
  refines : ListCall (v.curElements = v.maxElements) v.contents op (vectorStep v op).contents
    (vectorCall v op).2.1

/-- When a call does what it should. -/
def Proper (v : Vector) : VectorOp → Prop
  | .pushBack _ answer => v.curElements < v.maxElements ∨
      answer.isSome ∧ 0 < v.maxElements ∧ v.maxElements < 2 ^ 30
  | .popBack => 0 < v.curElements ∧ v.curElements < v.capacity
  | .remove n => v.curElements ≤ n.1 ∧ v.curElements < v.maxElements
  | .resize size answer => size.1 < 0 ∨ answer.isSome ∨ v.curElements ≤ size.1
  | _ => True

/-- What every proper call keeps up: the counters in order, and room in the block for as many
elements as they promise. -/
structure Vector.Inv (v : Vector) : Prop where
  nonneg : 0 ≤ v.curElements
  ordered : v.curElements ≤ v.maxElements
  room : v.maxElements ≤ v.capacity
  small : v.maxElements < 2 ^ 31

namespace Vector

variable {v : Vector} {n : Int} {answer : Option (Int → Nat)}

@[simp] theorem length_contents (v : Vector) : v.contents.length = v.curElements.toNat := by
  simp [contents]

theorem getElem?_contents (v : Vector) (i : Nat) :
    v.contents[i]? = if i < v.curElements.toNat then some (v.elements i) else none := by
  by_cases hi : i < v.curElements.toNat
  · rw [contents, List.getElem?_map, List.getElem?_range hi, if_pos hi]
    rfl
  · rw [if_neg hi, List.getElem?_eq_none]
    rw [length_contents]
    omega

/-- The contents are the elements below the counter. -/
theorem contents_congr {w : Vector} (hcur : w.curElements = v.curElements)
    (helements : ∀ n, 0 ≤ n → n < v.curElements → w.elements n = v.elements n) :
    w.contents = v.contents := by
  rw [contents, contents, hcur]
  apply List.map_congr_left
  intro i hi
  have hlt := List.mem_range.mp hi
  exact helements i (by omega) (by omega)

theorem contents_store (hn : n < 0 ∨ v.curElements ≤ n) (val : Nat) :
    (v.store n val).contents = v.contents := by
  apply contents_congr (show (v.store n val).curElements = v.curElements from rfl)
  intro i _ hi
  exact Function.update_of_ne (by omega) _ _

theorem contents_set (hn : 0 ≤ n) (hlt : n < v.curElements) (val : Nat) :
    (v.store n val).contents = v.contents.set n.toNat val := by
  have hcur : (v.store n val).curElements = v.curElements := rfl
  apply List.ext_getElem?
  intro i
  rw [List.getElem?_set, getElem?_contents, getElem?_contents, length_contents, hcur]
  by_cases hi : n.toNat = i
  · have hself : ((i : Nat) : Int) = n := by omega
    rw [if_pos hi, if_pos (by omega), if_pos (by omega), hself]
    exact congrArg some (Function.update_self _ _ _)
  · have hother : (v.store n val).elements i = v.elements i :=
      Function.update_of_ne (by omega) _ _
    rw [if_neg hi, hother]

/-- What a shrinking counter does to the contents. -/
theorem contents_take {w : Vector} (hcur : w.curElements ≤ v.curElements)
    (helements : ∀ n, 0 ≤ n → n < w.curElements → w.elements n = v.elements n) :
    w.contents = v.contents.take w.curElements.toNat := by
  rw [contents, contents, ← List.map_take, List.take_range, Nat.min_eq_left (by omega)]
  apply List.map_congr_left
  intro i hi
  have hlt := List.mem_range.mp hi
  exact helements i (by omega) (by omega)

theorem clearLoop_spec (v : Vector) (i : Int) (count : Nat) :
    (v.clearLoop i count).1.curElements = v.curElements ∧
      (v.clearLoop i count).1.maxElements = v.maxElements ∧
      (v.clearLoop i count).1.capacity = v.capacity ∧
      ∀ a ∈ (v.clearLoop i count).2, i ≤ a.index ∧ a.index < i + count ∧ a.capacity = v.capacity := by
  induction count generalizing v i with
  | zero => exact ⟨rfl, rfl, rfl, by simp [clearLoop]⟩
  | succ count ih =>
      obtain ⟨hcur, hmax, hcap, haccess⟩ := ih (v.store i 0) (i + 1)
      have hlast : i < i + ((count + 1 : Nat) : Int) := by omega
      refine ⟨hcur, hmax, hcap, List.forall_mem_cons.mpr ⟨⟨Int.le_refl i, hlast, rfl⟩, ?_⟩⟩
      intro a ha
      obtain ⟨hlow, hhigh, hacap⟩ := haccess a ha
      exact ⟨by omega, by omega, hacap⟩

/-- Shifting elements behind the counter touches only what is behind it. -/
theorem removeLoop_spec (v : Vector) (i : Int) (hi : v.curElements ≤ i) (count : Nat) :
    (v.removeLoop i count).1.curElements = v.curElements ∧
      (v.removeLoop i count).1.maxElements = v.maxElements ∧
      (v.removeLoop i count).1.capacity = v.capacity ∧
      (v.removeLoop i count).1.contents = v.contents ∧
      ∀ a ∈ (v.removeLoop i count).2,
        0 < count ∧ i ≤ a.index ∧ a.index ≤ i + count ∧ a.capacity = v.capacity := by
  induction count generalizing v i with
  | zero => exact ⟨rfl, rfl, rfl, rfl, by simp [removeLoop]⟩
  | succ count ih =>
      have hstore := contents_store (Or.inr hi) (v.elements (i + 1))
      obtain ⟨hcur, hmax, hcap, hcontents, haccess⟩ :=
        ih (v.store i (v.elements (i + 1))) (i + 1) (show v.curElements ≤ i + 1 by omega)
      have hnext : i ≤ i + 1 ∧ i + 1 ≤ i + ((count + 1 : Nat) : Int) := by omega
      refine ⟨hcur, hmax, hcap, hcontents.trans hstore, List.forall_mem_cons.mpr
        ⟨⟨Nat.succ_pos count, hnext.1, hnext.2, rfl⟩, List.forall_mem_cons.mpr
          ⟨⟨Nat.succ_pos count, Int.le_refl i, Int.le_trans hnext.1 hnext.2, rfl⟩, ?_⟩⟩⟩
      intro a ha
      obtain ⟨-, hlow, hhigh, hacap⟩ := haccess a ha
      exact ⟨by omega, by omega, by omega, hacap⟩

/-- `vector_resize` keeps the elements that still have a place. -/
theorem Inv.resize (h : v.Inv) {size : Int} (hsize : size < 2 ^ 31) (answer : Option (Int → Nat)) :
    (v.resize size answer).Inv ∧ (v.resize size answer).contents =
      if 0 ≤ size ∧ answer.isSome then v.contents.take size.toNat else v.contents := by
  obtain ⟨hnonneg, hordered, hroom, hsmall⟩ := h
  by_cases hneg : size < 0
  · have hsame : v.resize size answer = v := if_pos hneg
    rw [hsame, if_neg (by omega)]
    exact ⟨⟨hnonneg, hordered, hroom, hsmall⟩, rfl⟩
  · cases answer with
    | none =>
        rw [Vector.resize, if_neg hneg, if_neg (by simp)]
        exact ⟨⟨hnonneg, hordered, hroom, hsmall⟩, rfl⟩
    | some garbage =>
        obtain ⟨w, hw⟩ : ∃ w, v.resize size (some garbage) = w := ⟨_, rfl⟩
        have hcur : w.curElements = if size < v.curElements then size else v.curElements := by
          rw [← hw, Vector.resize, if_neg hneg]
        have hmax : w.maxElements = size := by rw [← hw, Vector.resize, if_neg hneg]
        have hcap : w.capacity = size.toNat := by rw [← hw, Vector.resize, if_neg hneg]
        have hkept : ∀ n, 0 ≤ n → n < w.curElements → w.elements n = v.elements n := by
          intro n hn hlt
          rw [hcur] at hlt
          rw [← hw, Vector.resize, if_neg hneg]
          exact if_pos ⟨hn, by split at hlt <;> omega, by split at hlt <;> omega⟩
        have hle : w.curElements ≤ v.curElements := by
          rw [hcur]
          split <;> omega
        rw [hw, if_pos ⟨by omega, rfl⟩, contents_take hle hkept]
        refine ⟨⟨?_, ?_, by omega, by omega⟩, ?_⟩
        · rw [hcur]
          split <;> omega
        · rw [hcur, hmax]
          split <;> omega
        · rw [hcur]
          split
          · rfl
          · rw [List.take_of_length_le, List.take_of_length_le]
            · rw [length_contents]
              omega
            · rw [length_contents]

/-- Storing behind the last element and counting it. -/
theorem Inv.append (h : v.Inv) (hroom : v.curElements < v.maxElements) (val : Nat) :
    Vector.Inv {v.store v.curElements val with curElements := int32 (v.curElements + 1)} ∧
      Vector.contents {v.store v.curElements val with curElements := int32 (v.curElements + 1)} =
        v.contents ++ [val] ∧ Access.InBlock ⟨v.curElements, v.capacity⟩ := by
  obtain ⟨hnonneg, hordered, hcap, hsmall⟩ := h
  have hnext : int32 (v.curElements + 1) = v.curElements + 1 := int32_of_lt (by omega) (by omega)
  rw [hnext]
  refine ⟨⟨by simp only; omega, by simp only [store]; omega, hcap, hsmall⟩, ?_,
    ⟨hnonneg, by simp only; omega⟩⟩
  have hcount : (v.curElements + 1).toNat = v.curElements.toNat + 1 := by omega
  have hlast : ((v.curElements.toNat : Nat) : Int) = v.curElements := Int.toNat_of_nonneg hnonneg
  simp only [contents, store, hcount, List.range_succ, List.map_append, List.map_cons, List.map_nil]
  congr 1
  · apply List.map_congr_left
    intro i hi
    have hlt := List.mem_range.mp hi
    exact Function.update_of_ne (by omega) _ _
  · rw [hlast, Function.update_self]

end Vector

section Calls

variable {v : Vector}

/-- A call whose result keeps the invariant has its counters in order. -/
theorem callOk_of_inv {op : VectorOp} (hinv : (vectorStep v op).Inv)
    (hblock : ∀ a ∈ (vectorCall v op).2.2, a.InBlock)
    (hlist : ListCall (v.curElements = v.maxElements) v.contents op (vectorStep v op).contents
      (vectorCall v op).2.1) : (vectorStep v op).Inv ∧ CallOk v op :=
  ⟨hinv, hblock, ⟨hinv.nonneg, hinv.ordered⟩, hlist⟩

theorem Vector.Inv.pushBack_ok (h : v.Inv) (val : Nat) {answer : Option (Int → Nat)}
    (hproper : Proper v (.pushBack val answer)) :
    (vectorStep v (.pushBack val answer)).Inv ∧ CallOk v (.pushBack val answer) := by
  -- The vector that the element is stored into has room and the same contents.
  obtain ⟨w, hw, hinv, hcontents, hroom⟩ : ∃ w, w = (if v.curElements = v.maxElements then
      v.resize (int32 (v.maxElements * 2)) answer else v) ∧ w.Inv ∧ w.contents = v.contents ∧
      w.curElements < w.maxElements := by
    by_cases hfull : v.curElements = v.maxElements
    · obtain ⟨hsome, hpos, hlt⟩ := hproper.resolve_left (by omega)
      obtain ⟨garbage, rfl⟩ := Option.isSome_iff_exists.mp hsome
      have hdouble : int32 (v.maxElements * 2) = v.maxElements * 2 :=
        int32_of_lt (by omega) (by omega)
      obtain ⟨hinv, hcontents⟩ :=
        h.resize (show v.maxElements * 2 < 2 ^ 31 by omega) (some garbage)
      have hnonneg : ¬ v.maxElements * 2 < 0 := by omega
      refine ⟨_, (if_pos hfull).symm, ?_, ?_, ?_⟩
      · rw [hdouble]
        exact hinv
      · rw [hdouble, hcontents, if_pos ⟨by omega, rfl⟩, List.take_of_length_le]
        rw [Vector.length_contents]
        omega
      · rw [hdouble, Vector.resize, if_neg hnonneg]
        simp only
        rw [if_neg (by omega)]
        omega
    · have hordered := h.ordered
      exact ⟨v, (if_neg hfull).symm, h, rfl, by omega⟩
  obtain ⟨hnew, happend, hblock⟩ := hinv.append hroom val
  have hcall : vectorCall v (.pushBack val answer) =
      ({w.store w.curElements val with curElements := int32 (w.curElements + 1)}, 0,
        [⟨w.curElements, w.capacity⟩]) := by
    rw [vectorCall, Vector.pushBack, ← hw]
  apply callOk_of_inv
  · rw [vectorStep, hcall]
    exact hnew
  · rw [hcall]
    exact List.forall_mem_singleton.mpr hblock
  · rw [vectorStep, hcall]
    exact Or.inl (by rw [happend, hcontents])

theorem Vector.Inv.popBack_ok (h : v.Inv) (hproper : Proper v .popBack) :
    (vectorStep v .popBack).Inv ∧ CallOk v .popBack := by
  obtain ⟨hnonneg, hordered, hroom, hsmall⟩ := h
  obtain ⟨hpos, hcap⟩ := hproper
  have hprev : int32 (v.curElements - 1) = v.curElements - 1 := int32_of_lt (by omega) (by omega)
  have hstep : vectorStep v .popBack =
      {v.store v.curElements 0 with curElements := v.curElements - 1} := by
    rw [vectorStep, vectorCall, Vector.popBack, hprev]
  apply callOk_of_inv
  · rw [hstep]
    exact ⟨by simp only; omega, by simp only [Vector.store]; omega, hroom, hsmall⟩
  · exact List.forall_mem_singleton.mpr ⟨hnonneg, hcap⟩
  · rw [ListCall, hstep, List.dropLast_eq_take, Vector.length_contents]
    have htake := Vector.contents_take (v := v)
      (w := {v.store v.curElements 0 with curElements := v.curElements - 1}) (by simp only; omega)
      (fun n _ hlt => Function.update_of_ne (by simp only at hlt; omega) _ _)
    rw [htake]
    congr 1
    simp only
    omega

theorem Vector.Inv.remove_ok (h : v.Inv) {n : CInt} (hproper : Proper v (.remove n)) :
    (vectorStep v (.remove n)).Inv ∧ CallOk v (.remove n) := by
  obtain ⟨hnonneg, hordered, hroom, hsmall⟩ := h
  obtain ⟨hbehind, hless⟩ := hproper
  have hout : ¬ v.indexInBounds n.1 := fun hin => by
    have := hin.2
    omega
  obtain ⟨hcur, hmax, hcap, hcontents, haccess⟩ :=
    Vector.removeLoop_spec v n.1 hbehind (v.maxElements - 1 - n.1).toNat
  obtain ⟨w, hw⟩ : ∃ w, v.removeLoop n.1 (v.maxElements - 1 - n.1).toNat = w := ⟨_, rfl⟩
  rw [hw] at hcur hmax hcap hcontents haccess
  have hlast : int32 (w.1.maxElements - 1) = v.maxElements - 1 := by
    rw [hmax]
    exact int32_of_lt (by omega) (by omega)
  have hcall : vectorCall v (.remove n) =
      ({w.1.store (v.maxElements - 1) 0 with maxElements := v.maxElements - 1}, 0,
        w.2 ++ [⟨v.maxElements - 1, w.1.capacity⟩]) := by
    rw [vectorCall, Vector.remove, if_neg hout, hw, ← hlast]
  apply callOk_of_inv
  · rw [vectorStep, hcall]
    exact ⟨by simp only [Vector.store]; omega, by simp only [Vector.store]; omega,
      by simp only [Vector.store]; omega, by simp only; omega⟩
  · rw [hcall]
    refine List.forall_mem_append.mpr ⟨fun a ha => ?_, List.forall_mem_singleton.mpr ?_⟩
    · obtain ⟨hsome, hlow, hhigh, hacap⟩ := haccess a ha
      exact ⟨by omega, by omega⟩
    · exact ⟨by simp only; omega, by simp only; omega⟩
  · rw [vectorStep, hcall, ListCall, if_pos (by omega), List.eraseIdx_of_length_le]
    · exact (Vector.contents_store (v := w.1) (Or.inr (by omega)) 0).trans hcontents
    · rw [Vector.length_contents]
      omega

theorem Vector.Inv.set_ok (h : v.Inv) (n : CInt) (val : Nat) :
    (vectorStep v (.set n val)).Inv ∧ CallOk v (.set n val) := by
  obtain ⟨hnonneg, hordered, hroom, hsmall⟩ := h
  by_cases hin : v.indexInBounds n.1
  · have hcall : vectorCall v (.set n val) = (v.store n.1 val, 0, [⟨n.1, v.capacity⟩]) := by
      rw [vectorCall, Vector.set, if_pos hin]
    obtain ⟨hn, hlt⟩ := hin
    apply callOk_of_inv
    · rw [vectorStep, hcall]
      exact ⟨hnonneg, hordered, hroom, hsmall⟩
    · rw [hcall]
      exact List.forall_mem_singleton.mpr ⟨hn, by simp only; omega⟩
    · rw [vectorStep, hcall, ListCall, if_pos hn]
      exact Vector.contents_set hn hlt val
  · have hcall : vectorCall v (.set n val) = (v, 0, []) := by
      rw [vectorCall, Vector.set, if_neg hin]
    apply callOk_of_inv
    · rw [vectorStep, hcall]
      exact ⟨hnonneg, hordered, hroom, hsmall⟩
    · simp [hcall]
    · rw [vectorStep, hcall, ListCall]
      split
      · rename_i hn
        rw [List.set_eq_of_length_le]
        rw [Vector.length_contents]
        have hge : v.curElements ≤ n.1 := Int.not_lt.mp fun hlt => hin ⟨hn, hlt⟩
        omega
      · rfl

theorem Vector.Inv.get_ok (h : v.Inv) (n : CInt) :
    (vectorStep v (.get n)).Inv ∧ CallOk v (.get n) := by
  have hstep : vectorStep v (.get n) = v := rfl
  have hcall : vectorCall v (.get n) = (v, v.get n.1) := rfl
  apply callOk_of_inv
  · exact h
  · rw [hcall, Vector.get]
    split
    · rename_i hin
      obtain ⟨hn, hlt⟩ := hin
      obtain ⟨hnonneg, hordered, hroom, -⟩ := h
      exact List.forall_mem_singleton.mpr ⟨hn, by simp only; omega⟩
    · simp
  · rw [hstep, hcall]
    refine ⟨rfl, ?_⟩
    rw [List.getD_eq_getElem?_getD, Vector.getElem?_contents, Vector.get]
    by_cases hin : v.indexInBounds n.1
    · obtain ⟨hn, hlt⟩ := id hin
      have hself : ((n.1.toNat : Nat) : Int) = n.1 := by omega
      rw [if_pos hin, if_pos hn, if_pos (by omega), hself]
      rfl
    · rw [if_neg hin]
      split
      · rename_i hn
        have hge : v.curElements ≤ n.1 := Int.not_lt.mp fun hlt => hin ⟨hn, hlt⟩
        rw [if_neg (by omega)]
        rfl
      · rfl

theorem Vector.Inv.resize_ok (h : v.Inv) {size : CInt} {answer : Option (Int → Nat)}
    (hproper : Proper v (.resize size answer)) :
    (vectorStep v (.resize size answer)).Inv ∧ CallOk v (.resize size answer) := by
  obtain ⟨hinv, hcontents⟩ := h.resize size.2.2 answer
  have hlist : (v.resize size answer).contents =
      if 0 ≤ size.1 then v.contents.take size.1.toNat else v.contents := by
    rw [hcontents]
    by_cases hneg : size.1 < 0
    · rw [if_neg (by omega), if_neg (by omega)]
    · rw [if_pos (show 0 ≤ size.1 by omega)]
      cases answer with
      | some garbage => exact if_pos ⟨Int.not_lt.mp hneg, rfl⟩
      | none =>
          -- The block stays as large as it was, and no element has to go.
          have hle : v.curElements ≤ size.1 := (hproper.resolve_left hneg).resolve_left nofun
          rw [if_neg (by simp), List.take_of_length_le]
          rw [Vector.length_contents]
          omega
  exact callOk_of_inv hinv (by simp [vectorCall]) hlist

theorem Vector.Inv.clear_ok (h : v.Inv) (answer : Option (Int → Nat)) :
    (vectorStep v (.clear answer)).Inv ∧ CallOk v (.clear answer) := by
  obtain ⟨hnonneg, hordered, hroom, hsmall⟩ := h
  obtain ⟨hcur, hmax, hcap, haccess⟩ := Vector.clearLoop_spec v 0 v.curElements.toNat
  obtain ⟨w, hw⟩ : ∃ w, v.clearLoop 0 v.curElements.toNat = w := ⟨_, rfl⟩
  rw [hw] at hcur hmax hcap haccess
  have hcall : vectorCall v (.clear answer) =
      ({w.1.resize Vector.initSize answer with curElements := 0}, 0, w.2) := by
    rw [vectorCall, Vector.clear, hw]
  have hcleared : w.1.Inv := ⟨by omega, by omega, by omega, by omega⟩
  obtain ⟨hinv, -⟩ := hcleared.resize (show (Vector.initSize : Int) < 2 ^ 31 by decide) answer
  have hpos := Int.le_trans hinv.nonneg hinv.ordered
  apply callOk_of_inv
  · rw [vectorStep, hcall]
    exact ⟨Int.le_refl 0, hpos, hinv.room, hinv.small⟩
  · rw [hcall]
    intro a ha
    obtain ⟨hlow, hhigh, hacap⟩ := haccess a ha
    exact ⟨hlow, by omega⟩
  · rw [vectorStep, hcall]
    rfl

/-- A proper call keeps the invariant and is in order. -/
theorem callOk_of_proper (h : v.Inv) (op : VectorOp) (hproper : Proper v op) :
    (vectorStep v op).Inv ∧ CallOk v op := by
  cases op with
  | pushBack val answer => exact h.pushBack_ok val hproper
  | popBack => exact h.popBack_ok hproper
  | remove n => exact h.remove_ok hproper
  | set n val => exact h.set_ok n val
  | get n => exact h.get_ok n
  | resize size answer => exact h.resize_ok hproper
  | clear answer => exact h.clear_ok answer

/-- Growing fails when `krealloc` does, when the doubled size is no `int`, and when there is
nothing to double; the element is then stored behind the last place. -/
theorem proper_of_pushBack (h : v.Inv) {val : Nat} {answer : Option (Int → Nat)}
    (hok : CallOk v (.pushBack val answer)) : Proper v (.pushBack val answer) := by
  obtain ⟨hnonneg, hordered, hroom, hsmall⟩ := h
  by_contra hbad
  obtain ⟨hfull, hfailed⟩ := not_or.mp hbad
  have hsame : (v.resize (int32 (v.maxElements * 2)) answer).curElements = v.curElements ∧
      (v.resize (int32 (v.maxElements * 2)) answer).maxElements = v.maxElements := by
    by_cases hbig : v.maxElements < 2 ^ 30
    · have hdouble : int32 (v.maxElements * 2) = v.maxElements * 2 :=
        int32_of_lt (by omega) (by omega)
      have hnonneg' : ¬ v.maxElements * 2 < 0 := by omega
      rw [hdouble]
      cases answer with
      | none =>
          rw [Vector.resize, if_neg hnonneg']
          exact ⟨rfl, rfl⟩
      | some garbage =>
          have hzero : ¬ 0 < v.maxElements := fun hpos => hfailed ⟨rfl, hpos, hbig⟩
          rw [Vector.resize, if_neg hnonneg']
          exact ⟨if_neg (by omega), by simp only; omega⟩
    · have hneg : v.resize (int32 (v.maxElements * 2)) answer = v := by
        rw [int32_of_ge (by omega) (by omega)]
        exact if_pos (by omega)
      rw [hneg]
      exact ⟨rfl, rfl⟩
  have hnext : (vectorStep v (.pushBack val answer)).curElements = int32 (v.curElements + 1) ∧
      (vectorStep v (.pushBack val answer)).maxElements = v.maxElements := by
    rw [vectorStep, vectorCall, Vector.pushBack, if_pos (by omega)]
    exact ⟨congrArg (fun n => int32 (n + 1)) hsame.1, hsame.2⟩
  have hafter := hok.ordered
  rw [hnext.1, hnext.2] at hafter
  by_cases hlast : v.curElements + 1 < 2 ^ 31
  · rw [int32_of_lt (by omega) hlast] at hafter
    omega
  · rw [int32_of_ge (by omega) (by omega)] at hafter
    omega

theorem proper_of_popBack (h : v.Inv) (hok : CallOk v .popBack) : Proper v .popBack := by
  obtain ⟨hnonneg, hordered, hroom, hsmall⟩ := h
  have hprev : int32 (v.curElements - 1) = v.curElements - 1 := int32_of_lt (by omega) (by omega)
  have hafter : 0 ≤ int32 (v.curElements - 1) := hok.ordered.1
  have hblock : v.curElements < v.capacity :=
    (hok.inBlock ⟨v.curElements, v.capacity⟩ (List.mem_singleton.mpr rfl)).2
  exact ⟨by omega, hblock⟩

theorem proper_of_remove (h : v.Inv) {n : CInt} (hok : CallOk v (.remove n)) :
    Proper v (.remove n) := by
  obtain ⟨hnonneg, hordered, hroom, hsmall⟩ := h
  -- An element that exists stays.
  have hout : ¬ v.indexInBounds n.1 := by
    intro hin
    have hsame : vectorStep v (.remove n) = v := by
      rw [vectorStep, vectorCall, Vector.remove, if_pos hin]
    have hkept := hok.refines
    rw [hsame, ListCall, if_pos hin.1] at hkept
    have hlength := congrArg List.length hkept
    obtain ⟨hn, hlt⟩ := hin
    rw [List.length_eraseIdx_of_lt (by rw [Vector.length_contents]; omega),
      Vector.length_contents] at hlength
    omega
  have hcall : vectorCall v (.remove n) =
      (let w := v.removeLoop n.1 (v.maxElements - 1 - n.1).toNat
       let last := int32 (w.1.maxElements - 1)
       ({w.1.store last 0 with maxElements := last}, 0, w.2 ++ [⟨last, w.1.capacity⟩])) := by
    rw [vectorCall, Vector.remove, if_neg hout]
  -- A negative index is shifted over like any other.
  have hn : 0 ≤ n.1 := by
    by_contra hneg
    have hblock := hok.inBlock
    rw [hcall] at hblock
    cases hcount : (v.maxElements - 1 - n.1).toNat with
    | zero =>
        rw [hcount] at hblock
        have hlast : int32 (v.maxElements - 1) = v.maxElements - 1 :=
          int32_of_lt (by omega) (by omega)
        have hfirst : 0 ≤ int32 (v.maxElements - 1) :=
          (hblock _ (List.mem_append_right _ (List.mem_singleton.mpr rfl))).1
        omega
    | succ count =>
        rw [hcount] at hblock
        have hfirst : 0 ≤ n.1 := (hblock ⟨n.1, v.capacity⟩ (List.mem_append_left _
          (List.mem_cons_of_mem _ List.mem_cons_self))).1
        exact hneg hfirst
  have hge : v.curElements ≤ n.1 := Int.not_lt.mp fun hlt => hout ⟨hn, hlt⟩
  obtain ⟨hcur, hmax, -⟩ := Vector.removeLoop_spec v n.1 hge (v.maxElements - 1 - n.1).toNat
  have hafter := hok.ordered
  rw [vectorStep, hcall] at hafter
  simp only [Vector.store, hcur, hmax] at hafter
  rw [int32_of_lt (by omega) (by omega)] at hafter
  exact ⟨hge, by omega⟩

/-- Elements that should go stay where they are when `krealloc` fails. -/
theorem proper_of_resize (h : v.Inv) {size : CInt} {answer : Option (Int → Nat)}
    (hok : CallOk v (.resize size answer)) : Proper v (.resize size answer) := by
  by_contra hbad
  obtain ⟨hsize, hbad⟩ := not_or.mp hbad
  obtain ⟨hfailed, hshrinks⟩ := not_or.mp hbad
  have hkept := hok.refines
  rw [ListCall, if_pos (by omega)] at hkept
  have hsame : (vectorStep v (.resize size answer)).contents = v.contents := by
    refine (h.resize size.2.2 answer).2.trans (if_neg ?_)
    exact fun hsome => hfailed hsome.2
  have hlength := congrArg List.length (hsame.symm.trans hkept)
  rw [List.length_take, Vector.length_contents] at hlength
  omega

theorem callOk_iff_proper (h : v.Inv) (op : VectorOp) : CallOk v op ↔ Proper v op := by
  refine ⟨fun hok => ?_, fun hproper => (callOk_of_proper h op hproper).2⟩
  cases op with
  | pushBack val answer => exact proper_of_pushBack h hok
  | popBack => exact proper_of_popBack h hok
  | remove n => exact proper_of_remove h hok
  | set n val => trivial
  | get n => trivial
  | resize size answer => exact proper_of_resize h hok
  | clear answer => trivial

end Calls

theorem Vector.alloc_inv (garbage : Int → Nat) : (Vector.alloc garbage).Inv :=
  ⟨Int.le_refl 0, Int.natCast_nonneg _, Int.le_refl _, show (Vector.initSize : Int) < 2 ^ 31 by decide⟩

/-- In every run from a new vector and with any answers of `krealloc`, the calls do to the
vector what they do to a list exactly if they are all proper. -/
theorem vector_refines_list_iff (garbage : Int → Nat) (ops : List VectorOp) :
    EveryStep vectorStep CallOk (Vector.alloc garbage) ops ↔
      EveryStep vectorStep Proper (Vector.alloc garbage) ops :=
  everyStep_iff Vector.Inv (Vector.alloc_inv garbage) (fun _ op h => callOk_iff_proper h op)
    fun _ op h hproper => (callOk_of_proper h op hproper).1

/-- An element that is there cannot be removed. -/
theorem vector_remove_keeps : ¬ EveryStep vectorStep CallOk (Vector.alloc fun _ => 0)
    [.pushBack 5 none, .remove ⟨0, by decide⟩] := by
  intro h
  have hkept : [5] = [] := h.2.1.refines
  cases hkept

end Tellurium.Klib
