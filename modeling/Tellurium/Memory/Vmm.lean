import Tellurium.Lib.Memory
import Tellurium.Lib.Radix
import Mathlib.Data.Nat.Bitwise

/-!
Four-level page tables (`kernel/memory/vmm.c`). Tables are frames of physical memory that
the kernel reaches through the higher-half direct map, at `KERNEL_HHDM_OFFSET` (`hhdm`, a
parameter set by the bootloader). Pointers and entries are numbers below `2 ^ 64`. The
answers of `palloc` come as a list of pointers; the source goes on with a null pointer
when one is missing, which has no result here. The table walk is an instance of the radix
trees of the library.
-/

namespace Tellurium.Vmm

open Tellurium.Lib

def pageSize : Nat := 4096
def pmlPresent : Nat := 0x001
def pmlWrite : Nat := 0x002
def pmlUser : Nat := 0x004
def pmlPhysicalAddress : Nat := 0x0000fffffffff000
def pmlNotExecutable : Nat := 0x8000000000000000

/-- `palloc` answered `nextLevelMap`. -/
def allocateMap (hhdm : Nat) (m : Mem) (mapBase mapEntry flags nextLevelMap : Nat) :
    Option (Nat × Mem) :=
  if nextLevelMap = 0 then none
  else
    let m := m.memset nextLevelMap 0 pageSize
    let entry := sub64 nextLevelMap hhdm
    some (nextLevelMap, m.write64 (mapBase + 8 * mapEntry) (entry ||| flags))

def getNextPageMap (hhdm : Nat) (m : Mem) (mapBase mapEntry : Nat) : Option Nat :=
  let nextMapEntry := m.read64 (mapBase + 8 * mapEntry)
  if nextMapEntry &&& pmlPresent ≠ 0 then some (add64 (nextMapEntry &&& pmlPhysicalAddress) hhdm)
  else none

/-- One level of `map_page`: go down, or put a new table there. -/
def getOrAllocateMap (hhdm : Nat) (m : Mem) (mapBase mapEntry : Nat) (supply : List Nat) :
    Option (Nat × Mem × List Nat) :=
  match getNextPageMap hhdm m mapBase mapEntry, supply with
  | some base, supply => some (base, m, supply)
  | none, [] => none
  | none, page :: supply =>
      (allocateMap hhdm m mapBase mapEntry (pmlPresent ||| pmlWrite ||| pmlUser) page).map
        fun (base, m) => (base, m, supply)

def pml4e (vaddr : Nat) : Nat := (vaddr >>> 39) &&& 0x1ff
def pdpte (vaddr : Nat) : Nat := (vaddr >>> 30) &&& 0x1ff
def pde (vaddr : Nat) : Nat := (vaddr >>> 21) &&& 0x1ff
def pte (vaddr : Nat) : Nat := (vaddr >>> 12) &&& 0x1ff

def mapPage (hhdm : Nat) (m : Mem) (pml4Base vaddr paddr flags : Nat) (supply : List Nat) :
    Option (Mem × List Nat) := do
  let (pdptBase, m, supply) ← getOrAllocateMap hhdm m pml4Base (pml4e vaddr) supply
  let (pdBase, m, supply) ← getOrAllocateMap hhdm m pdptBase (pdpte vaddr) supply
  let (ptBase, m, supply) ← getOrAllocateMap hhdm m pdBase (pde vaddr) supply
  return (m.write64 (ptBase + 8 * pte vaddr) (paddr ||| flags), supply)

/-- The page table for an address, through `get_next_page_map`. -/
def tableOf (hhdm : Nat) (m : Mem) (pml4Base vaddr : Nat) : Option Nat := do
  let pdptBase ← getNextPageMap hhdm m pml4Base (pml4e vaddr)
  let pdBase ← getNextPageMap hhdm m pdptBase (pdpte vaddr)
  getNextPageMap hhdm m pdBase (pde vaddr)

def unmapPage (hhdm : Nat) (m : Mem) (pml4Base vaddr : Nat) : Mem :=
  match tableOf hhdm m pml4Base vaddr with
  | none => m
  | some ptBase => m.write64 (ptBase + 8 * pte vaddr) 0

/-- What the walk finds for an address: a present entry of its page table. -/
def translate (hhdm : Nat) (m : Mem) (pml4Base vaddr : Nat) : Option Nat :=
  (tableOf hhdm m pml4Base vaddr).bind fun ptBase =>
    let entry := m.read64 (ptBase + 8 * pte vaddr)
    if entry &&& pmlPresent ≠ 0 then some entry else none

/-- A physical frame number. -/
structure Frame where
  num : Nat
  lt : num < 2 ^ 36
  deriving DecidableEq

/-- Where the kernel sees a frame. -/
def tableBase (hhdm : Nat) (f : Frame) : Nat := add64 (pageSize * f.num) hhdm

/-- The entries of a frame taken as a table. -/
def view (hhdm : Nat) (m : Mem) (f : Frame) (i : Fin 512) : Nat :=
  m.read64 (tableBase hhdm f + 8 * i)

theorem and_physicalAddress_lt (v : Nat) : (v &&& pmlPhysicalAddress) / pageSize < 2 ^ 36 := by
  have hle : v &&& pmlPhysicalAddress ≤ pmlPhysicalAddress := Nat.and_le_right
  simp only [pmlPhysicalAddress, pageSize] at hle ⊢
  omega

/-- The frame a present entry points to. -/
def nextFrame (v : Nat) : Option Frame :=
  if v &&& pmlPresent ≠ 0 then some ⟨(v &&& pmlPhysicalAddress) / pageSize, and_physicalAddress_lt v⟩
  else none

section Words

theorem and_physicalAddress (v : Nat) : v &&& pmlPhysicalAddress = pageSize * (v / 4096 % 2 ^ 36) := by
  have hmask : pmlPhysicalAddress = (2 ^ 36 - 1) <<< 12 := by decide
  have hshift : pageSize * (v / 4096 % 2 ^ 36) = ((v >>> 12) &&& (2 ^ 36 - 1)) <<< 12 := by
    rw [Nat.and_two_pow_sub_one_eq_mod, Nat.shiftRight_eq_div_pow, Nat.shiftLeft_eq]
    simp only [pageSize]
    omega
  rw [hmask, hshift]
  refine Nat.eq_of_testBit_eq fun k => ?_
  simp only [Nat.testBit_and, Nat.testBit_shiftLeft, Nat.testBit_shiftRight]
  by_cases hk : 12 ≤ k
  · simp [hk]
  · simp [hk]

theorem and_present (v : Nat) : v &&& pmlPresent = v % 2 :=
  Nat.and_two_pow_sub_one_eq_mod v 1

/-- The entry that `allocate_map` stores points to the new table. -/
theorem nextFrame_entry (f : Frame) :
    nextFrame (pageSize * f.num ||| (pmlPresent ||| pmlWrite ||| pmlUser)) = some f := by
  have hlt := f.lt
  have hsum : pageSize * f.num ||| (pmlPresent ||| pmlWrite ||| pmlUser) = pageSize * f.num + 7 :=
    (Nat.two_pow_add_eq_or_of_lt (i := 12) (by decide) f.num).symm
  have hpresent : (pageSize * f.num + 7) &&& pmlPresent ≠ 0 := by
    rw [and_present]
    simp only [pageSize]
    omega
  have hframe : ((pageSize * f.num + 7) &&& pmlPhysicalAddress) / pageSize = f.num := by
    rw [and_physicalAddress]
    simp only [pageSize]
    omega
  rw [hsum, nextFrame, if_pos hpresent]
  simp only [hframe]

theorem nextFrame_zero : nextFrame 0 = none := by
  rw [nextFrame, if_neg (by simp)]

theorem index_lt (x : Nat) : x &&& 0x1ff < 512 :=
  Nat.lt_of_le_of_lt Nat.and_le_right (by decide)

end Words

section Tables

variable {hhdm : Nat} {m : Mem} {f g : Frame} {i j : Fin 512} {v : Nat}

/-- Two frames are seen a page apart, also where the direct map wraps around. -/
theorem tableBase_separated (hhdm : Nat) (hne : f ≠ g) :
    tableBase hhdm f + pageSize ≤ tableBase hhdm g ∨
      tableBase hhdm g + pageSize ≤ tableBase hhdm f := by
  have hnum : f.num ≠ g.num := by
    intro heq
    cases f
    cases g
    exact hne (by congr)
  have hf := f.lt
  have hg := g.lt
  simp only [tableBase, add64, pageSize]
  omega

theorem view_write_same (m : Mem) (f : Frame) (i : Fin 512) (hv : v < 2 ^ 64) :
    view hhdm (m.write64 (tableBase hhdm f + 8 * i) v) f i = v :=
  Mem.read64_write64_same m _ hv

theorem view_write_of_ne (m : Mem) (v : Nat) (hne : g ≠ f ∨ j ≠ i) :
    view hhdm (m.write64 (tableBase hhdm f + 8 * i) v) g j = view hhdm m g j := by
  refine Mem.read64_write64_of_disjoint m v ?_
  have hi := i.isLt
  have hj := j.isLt
  by_cases hgf : g = f
  · subst hgf
    have hji : (j : Nat) ≠ i := fun heq => (hne.resolve_left (by simp)) (Fin.ext heq)
    omega
  · have hsep := tableBase_separated hhdm hgf
    simp only [pageSize] at hsep
    omega

theorem view_memset_same (m : Mem) (f : Frame) (i : Fin 512) :
    view hhdm (m.memset (tableBase hhdm f) 0 pageSize) f i = 0 := by
  refine Mem.readN_eq_zero fun k hlo hhi => ?_
  have hi := i.isLt
  rw [Mem.memset_apply, if_pos]
  simp only [pageSize]
  omega

theorem view_memset_of_ne (m : Mem) (hne : g ≠ f) :
    view hhdm (m.memset (tableBase hhdm f) 0 pageSize) g j = view hhdm m g j := by
  have hsep := tableBase_separated hhdm hne
  have hj := j.isLt
  refine Mem.readN_memset_of_disjoint m 0 ?_
  simp only [pageSize] at hsep ⊢
  omega

/-- `get_next_page_map` is one step of the walk. -/
theorem getNextPageMap_eq (hhdm : Nat) (m : Mem) (f : Frame) (i : Fin 512) :
    getNextPageMap hhdm m (tableBase hhdm f) i =
      (nextFrame (view hhdm m f i)).map (tableBase hhdm) := by
  obtain ⟨entry, hentry⟩ : ∃ entry, m.read64 (tableBase hhdm f + 8 * i) = entry := ⟨_, rfl⟩
  simp only [getNextPageMap, nextFrame, view, hentry]
  by_cases hpresent : entry &&& pmlPresent ≠ 0
  · have hdiv : pageSize ∣ entry &&& pmlPhysicalAddress := by
      rw [and_physicalAddress]
      exact Nat.dvd_mul_right _ _
    rw [if_pos hpresent, if_pos hpresent, Option.map_some, tableBase]
    simp only [Nat.mul_div_cancel' hdiv]
  · rw [if_neg hpresent, if_neg hpresent, Option.map_none]

theorem sub64_tableBase (f : Frame) (hhhdm : hhdm < 2 ^ 64) :
    sub64 (tableBase hhdm f) hhdm = pageSize * f.num := by
  have hf := f.lt
  simp only [sub64, tableBase, add64, pageSize]
  omega

/-- The index a virtual address has at one level. -/
def index (shift vaddr : Nat) : Fin 512 := ⟨(vaddr >>> shift) &&& 0x1ff, index_lt _⟩

/-- The path of an address down to its page table. -/
def path (vaddr : Nat) : List (Fin 512) := [index 39 vaddr, index 30 vaddr, index 21 vaddr]

/-- The entry at the end of a path, zero where a table is missing. -/
def entryAt (hhdm : Nat) (m : Mem) (root : Frame) (is : List (Fin 512)) (i : Fin 512) : Nat :=
  match Radix.walk nextFrame (view hhdm m) root is with
  | none => 0
  | some pt => view hhdm m pt i

theorem tableOf_eq (m : Mem) (root : Frame) (vaddr : Nat) :
    tableOf hhdm m (tableBase hhdm root) vaddr =
      (Radix.walk nextFrame (view hhdm m) root (path vaddr)).map (tableBase hhdm) := by
  have hfirst := getNextPageMap_eq hhdm m root (index 39 vaddr)
  simp only [tableOf, path, Radix.walk, pml4e, pdpte, pde, index] at hfirst ⊢
  rw [hfirst]
  cases nextFrame (view hhdm m root _) with
  | none => rfl
  | some pdpt =>
      have hsecond := getNextPageMap_eq hhdm m pdpt (index 30 vaddr)
      simp only [index, Option.map_some, Option.bind_some, Option.bind_eq_bind] at hsecond ⊢
      rw [hsecond]
      cases nextFrame (view hhdm m pdpt _) with
      | none => rfl
      | some pd =>
          have hthird := getNextPageMap_eq hhdm m pd (index 21 vaddr)
          simp only [index, Option.map_some, Option.bind_some] at hthird ⊢
          rw [hthird]
          cases nextFrame (view hhdm m pd _) <;> rfl

/-- The walk finds the entry at the end of the address's path, if it is present. -/
theorem translate_eq (m : Mem) (root : Frame) (vaddr : Nat) :
    translate hhdm m (tableBase hhdm root) vaddr =
      if entryAt hhdm m root (path vaddr) (index 12 vaddr) &&& pmlPresent ≠ 0 then
        some (entryAt hhdm m root (path vaddr) (index 12 vaddr))
      else none := by
  rw [translate, tableOf_eq]
  unfold entryAt
  generalize Radix.walk nextFrame (view hhdm m) root (path vaddr) = table
  cases table with
  | none => simp
  | some pt =>
      simp only [Option.map_some, Option.bind_some, view, index, pte]
      exact if_congr Iff.rfl rfl rfl

end Tables

/-- The tables under `root` form a tree, and the frames that `palloc` will answer are not
among them. -/
structure TablesOk (hhdm : Nat) (m : Mem) (root : Frame) (frames : List Frame) : Prop where
  tree : Radix.IsTree nextFrame (view hhdm m) root 3
  nodup : frames.Nodup
  fresh : ∀ c ∈ frames, ¬ Radix.Reaches nextFrame (view hhdm m) root 3 c
  nonnull : ∀ c ∈ frames, tableBase hhdm c ≠ 0

/-- The bytes of a frame, where the kernel sees them. -/
def InFrame (hhdm : Nat) (f : Frame) (x : Nat) : Prop := Span.Has ⟨tableBase hhdm f, pageSize⟩ x

/-- Tables were added under `root` and entries written, but only along the paths of `P`. -/
structure Grown (hhdm : Nat) (P : List (Fin 512) → Prop) (root : Frame) (m m' : Mem)
    (frames frames' : List Frame) : Prop where
  ok : TablesOk hhdm m' root frames'
  suffix : frames' <:+ frames
  keeps : ∀ {js e}, js.length ≤ 3 → Radix.walk nextFrame (view hhdm m) root js = some e →
    Radix.walk nextFrame (view hhdm m') root js = some e
  added : ∀ {js e}, js.length ≤ 3 → Radix.walk nextFrame (view hhdm m') root js = some e →
    Radix.walk nextFrame (view hhdm m) root js = some e ∨ P js ∧ e ∈ frames
  changes : ∀ x, (∀ js e, js.length ≤ 3 → P js →
    Radix.walk nextFrame (view hhdm m') root js = some e → ¬ InFrame hhdm e x) → m' x = m x

namespace Grown

variable {hhdm : Nat} {P : List (Fin 512) → Prop} {root : Frame} {m m' m'' : Mem}
  {frames frames' frames'' : List Frame}

theorem refl (hok : TablesOk hhdm m root frames) : Grown hhdm P root m m frames frames :=
  ⟨hok, List.suffix_refl _, fun _ hwalk => hwalk, fun _ hwalk => .inl hwalk, fun _ _ => rfl⟩

theorem trans (h₁ : Grown hhdm P root m m' frames frames')
    (h₂ : Grown hhdm P root m' m'' frames' frames'') : Grown hhdm P root m m'' frames frames'' := by
  refine ⟨h₂.ok, h₂.suffix.trans h₁.suffix, fun hjs hwalk => h₂.keeps hjs (h₁.keeps hjs hwalk),
    ?_, ?_⟩
  · intro js e hjs hwalk
    rcases h₂.added hjs hwalk with hwalk | ⟨hP, he⟩
    · exact h₁.added hjs hwalk
    · exact .inr ⟨hP, h₁.suffix.subset he⟩
  · intro x hx
    rw [h₂.changes x hx]
    exact h₁.changes x fun js e hjs hP hwalk => hx js e hjs hP (h₂.keeps hjs hwalk)

end Grown

section Operations

variable {hhdm : Nat} {m : Mem} {root f : Frame} {frames : List Frame} {is : List (Fin 512)}
  {i : Fin 512} {P : List (Fin 512) → Prop}

theorem getOrAllocateMap_total (hsupply : frames ≠ []) (hok : TablesOk hhdm m root frames) :
    ∃ r, getOrAllocateMap hhdm m (tableBase hhdm f) i (frames.map (tableBase hhdm)) = some r := by
  obtain ⟨c, rest, rfl⟩ := List.exists_cons_of_ne_nil hsupply
  cases hget : getNextPageMap hhdm m (tableBase hhdm f) i with
  | some base =>
      simp only [getOrAllocateMap, hget]
      exact ⟨_, rfl⟩
  | none =>
      simp only [getOrAllocateMap, hget, List.map_cons, allocateMap, hok.nonnull c (by simp),
        if_false, Option.map_some]
      exact ⟨_, rfl⟩

/-- Going down one level of `map_page` reaches the next table and changes no entry at the
bottom. -/
theorem getOrAllocateMap_spec {r : Nat × Mem × List Nat} (is : List (Fin 512)) (i : Fin 512)
    (hhhdm : hhdm < 2 ^ 64) (hok : TablesOk hhdm m root frames)
    (hf : Radix.walk nextFrame (view hhdm m) root is = some f) (hlen : is.length < 3)
    (hP : P is) (hPi : P (is ++ [i]))
    (hret : getOrAllocateMap hhdm m (tableBase hhdm f) i (frames.map (tableBase hhdm)) = some r) :
    ∃ g m' frames', r = (tableBase hhdm g, m', frames'.map (tableBase hhdm)) ∧
      Grown hhdm P root m m' frames frames' ∧
      Radix.walk nextFrame (view hhdm m') root (is ++ [i]) = some g ∧
      (∀ js j, js.length = 3 → entryAt hhdm m' root js j = entryAt hhdm m root js j) ∧
      frames.length ≤ frames'.length + 1 := by
  have hget := getNextPageMap_eq hhdm m f i
  cases hnext : nextFrame (view hhdm m f i) with
  | some g =>
      rw [hnext, Option.map_some] at hget
      refine ⟨g, m, frames, ?_, .refl hok, ?_, fun _ _ _ => rfl, Nat.le_succ _⟩
      · simp only [getOrAllocateMap, hget] at hret
        exact (Option.some.inj hret).symm
      · rw [Radix.walk_concat, hf, Option.bind_some, hnext]
  | none =>
      rw [hnext, Option.map_none] at hget
      cases frames with
      | nil =>
          simp only [getOrAllocateMap, hget, List.map_nil] at hret
          cases hret
      | cons c rest =>
      have hcf : f ≠ c := by
        rintro rfl
        exact hok.fresh f (by simp) ⟨is, Nat.le_of_lt hlen, hf⟩
      have hentry : sub64 (tableBase hhdm c) hhdm ||| (pmlPresent ||| pmlWrite ||| pmlUser) =
          pageSize * c.num ||| (pmlPresent ||| pmlWrite ||| pmlUser) := by
        rw [sub64_tableBase c hhhdm]
      have hsmall : pageSize * c.num ||| (pmlPresent ||| pmlWrite ||| pmlUser) < 2 ^ 64 := by
        have hlt := c.lt
        refine Nat.or_lt_two_pow ?_ (by decide)
        simp only [pageSize]
        omega
      obtain ⟨m₁, hm₁⟩ : ∃ m₁, m.memset (tableBase hhdm c) 0 pageSize = m₁ := ⟨_, rfl⟩
      obtain ⟨m', hm'⟩ : ∃ m', m₁.write64 (tableBase hhdm f + 8 * i)
          (pageSize * c.num ||| (pmlPresent ||| pmlWrite ||| pmlUser)) = m' := ⟨_, rfl⟩
      have hlinked : view hhdm m' f i = pageSize * c.num ||| (pmlPresent ||| pmlWrite ||| pmlUser) := by
        rw [← hm', view_write_same m₁ f i hsmall]
      have hzero : ∀ j, view hhdm m' c j = 0 := fun j => by
        rw [← hm', view_write_of_ne m₁ _ (Or.inl hcf.symm), ← hm₁, view_memset_same]
      have hbeside : ∀ j, j ≠ i → view hhdm m' f j = view hhdm m f j := fun j hj => by
        rw [← hm', view_write_of_ne m₁ _ (Or.inr hj), ← hm₁, view_memset_of_ne m hcf]
      have hother : ∀ e j, e ≠ f → e ≠ c → view hhdm m' e j = view hhdm m e j :=
        fun e j hef hec => by
          rw [← hm', view_write_of_ne m₁ _ (Or.inl hef), ← hm₁, view_memset_of_ne m hec]
      have hlink : nextFrame (view hhdm m' f i) = some c := by rw [hlinked, nextFrame_entry]
      have hempty : ∀ j, nextFrame (view hhdm m' c j) = none := fun j => by
        rw [hzero, nextFrame_zero]
      have hfresh := hok.fresh c (by simp)
      have hwalk := fun {js : List (Fin 512)} (hjs : js.length ≤ 3) =>
        Radix.walk_allocate hok.tree hf hlen hnext hfresh hlink hempty hbeside hother hjs
      have hpath : Radix.walk nextFrame (view hhdm m') root (is ++ [i]) = some c := by
        rw [hwalk (by simp; omega), if_pos rfl]
      have hold : Radix.walk nextFrame (view hhdm m) root (is ++ [i]) = none := by
        rw [Radix.walk_concat, hf, Option.bind_some, hnext]
      have hkeeps : ∀ {js e}, js.length ≤ 3 →
          Radix.walk nextFrame (view hhdm m) root js = some e →
            Radix.walk nextFrame (view hhdm m') root js = some e := by
        intro js e hjs he
        rw [hwalk hjs, if_neg, he]
        rintro rfl
        rw [hold] at he
        cases he
      refine ⟨c, m', rest, ?_, ⟨⟨?_, ?_, ?_, ?_⟩, List.suffix_cons c rest, hkeeps, ?_, ?_⟩, hpath, ?_,
        Nat.le_refl _⟩
      · simp only [getOrAllocateMap, hget, List.map_cons, allocateMap, hok.nonnull c (by simp),
          if_false, hentry, hm₁, hm', Option.map_some] at hret
        exact (Option.some.inj hret).symm
      · exact Radix.isTree_allocate hok.tree hf hlen hnext hfresh hlink hempty hbeside hother
      · exact (List.nodup_cons.mp hok.nodup).2
      · intro e he hreach
        rcases Radix.reaches_allocate hok.tree hf hlen hnext hfresh hlink hempty hbeside hother
          hreach with rfl | hold
        · exact (List.nodup_cons.mp hok.nodup).1 he
        · exact hok.fresh e (List.mem_cons_of_mem _ he) hold
      · exact fun e he => hok.nonnull e (List.mem_cons_of_mem _ he)
      · intro js e hjs he
        rw [hwalk hjs] at he
        split at he
        · rename_i hjs'
          exact .inr ⟨hjs' ▸ hPi, Option.some.inj he ▸ List.mem_cons_self⟩
        · exact .inl he
      · intro x hx
        have hxf := hx is f (by omega) hP (hkeeps (by omega) hf)
        have hxc := hx _ c (by simp; omega) hPi hpath
        have hi := i.isLt
        simp only [InFrame, Span.Has, pageSize] at hxf hxc
        have hword : m₁.write64 (tableBase hhdm f + 8 * i)
            (pageSize * c.num ||| (pmlPresent ||| pmlWrite ||| pmlUser)) x = m₁ x :=
          Mem.writeN_out _ _ (by omega)
        rw [← hm', hword, ← hm₁]
        exact Mem.memset_out _ _ (by simp only [pageSize]; omega)
      · intro js j hjs
        rw [entryAt, entryAt, hwalk (by omega)]
        by_cases hpath : js = is ++ [i]
        · rw [if_pos hpath, hpath, hold]
          exact hzero j
        · rw [if_neg hpath]
          cases hpt : Radix.walk nextFrame (view hhdm m) root js with
          | none => rfl
          | some pt =>
              have hptf : pt ≠ f := by
                rintro rfl
                have hsame := congrArg List.length
                  (hok.tree js is pt (by omega) (by omega) hpt hf)
                omega
              have hptc : pt ≠ c := by
                rintro rfl
                exact hfresh ⟨js, by omega, hpt⟩
              exact hother pt j hptf hptc

/-- Writing an entry of a page table changes that entry alone. -/
theorem write_bottom_spec {pt : Frame} (i : Fin 512) (value : Nat) (hok : TablesOk hhdm m root frames)
    (hpt : Radix.walk nextFrame (view hhdm m) root is = some pt) (hlen : is.length = 3) (hP : P is)
    (hvalue : value < 2 ^ 64) :
    Grown hhdm P root m (m.write64 (tableBase hhdm pt + 8 * i) value) frames frames ∧
      ∀ js j, js.length = 3 →
        entryAt hhdm (m.write64 (tableBase hhdm pt + 8 * i) value) root js j =
          if js = is ∧ j = i then value else entryAt hhdm m root js j := by
  obtain ⟨m', hm'⟩ : ∃ m', m.write64 (tableBase hhdm pt + 8 * i) value = m' := ⟨_, rfl⟩
  rw [hm']
  have hwalk : ∀ {js : List (Fin 512)}, js.length ≤ 3 →
      Radix.walk nextFrame (view hhdm m') root js = Radix.walk nextFrame (view hhdm m) root js :=
    fun hjs => Radix.walk_write_bottom hok.tree hpt hlen
      (fun c j hc => by rw [← hm', view_write_of_ne m value (Or.inl hc)]) hjs
  refine ⟨⟨⟨hok.tree.of_walk_eq fun js hjs => hwalk hjs, hok.nodup, fun c hc hreach => ?_,
    hok.nonnull⟩, List.suffix_refl _, fun hjs he => (hwalk hjs).trans he,
    fun hjs he => .inl ((hwalk hjs).symm.trans he), ?_⟩, fun js j hjs => ?_⟩
  · obtain ⟨js, hjs, hc'⟩ := hreach
    rw [hwalk hjs] at hc'
    exact hok.fresh c hc ⟨js, hjs, hc'⟩
  · intro x hx
    have hout := hx is pt (by omega) hP ((hwalk (by omega)).trans hpt)
    have hi := i.isLt
    simp only [InFrame, Span.Has, pageSize] at hout
    rw [← hm']
    exact Mem.writeN_out _ _ (by omega)
  · rw [entryAt, entryAt, hwalk (by omega)]
    by_cases hpath : js = is
    · subst hpath
      rw [hpt]
      by_cases hj : j = i
      · subst hj
        rw [if_pos ⟨rfl, rfl⟩]
        simp only [← hm', view_write_same m pt j hvalue]
      · rw [if_neg fun hboth => hj hboth.2]
        simp only [← hm', view_write_of_ne m value (Or.inr hj)]
    · rw [if_neg fun hboth => hpath hboth.1]
      cases hother : Radix.walk nextFrame (view hhdm m) root js with
      | none => rfl
      | some pt' =>
          have hne : pt' ≠ pt := by
            rintro rfl
            exact hpath (hok.tree js is pt' (by omega) (by omega) hother hpt)
          simp only [← hm', view_write_of_ne m value (Or.inl hne)]

/-- A `map_page` that has the frames it needs grows the tables along the path of its address,
and sets one entry. -/
theorem mapPage_grown (vaddr : Nat) {paddr flags : Nat} {r : Mem × List Nat} (hhhdm : hhdm < 2 ^ 64)
    (hok : TablesOk hhdm m root frames) (hP : ∀ is, is <+: path vaddr → P is)
    (hvalue : paddr ||| flags < 2 ^ 64)
    (hret : mapPage hhdm m (tableBase hhdm root) vaddr paddr flags (frames.map (tableBase hhdm)) =
      some r) :
    ∃ m' frames', r = (m', frames'.map (tableBase hhdm)) ∧
      Grown hhdm P root m m' frames frames' ∧
      (∀ js j, js.length = 3 → entryAt hhdm m' root js j =
        if js = path vaddr ∧ j = index 12 vaddr then paddr ||| flags
        else entryAt hhdm m root js j) ∧
      frames.length ≤ frames'.length + 3 := by
  rw [mapPage] at hret
  obtain ⟨r₁, hget₁, hret⟩ := Option.bind_eq_some_iff.mp hret
  obtain ⟨pdpt, m₁, frames₁, rfl, hgrown₁, hwalk₁, hentry₁, hlen₁⟩ :=
    getOrAllocateMap_spec [] (index 39 vaddr) hhhdm hok rfl (by simp) (hP _ (List.nil_prefix))
      (hP _ ⟨[index 30 vaddr, index 21 vaddr], rfl⟩) hget₁
  obtain ⟨r₂, hget₂, hret⟩ := Option.bind_eq_some_iff.mp hret
  obtain ⟨pd, m₂, frames₂, rfl, hgrown₂, hwalk₂, hentry₂, hlen₂⟩ :=
    getOrAllocateMap_spec _ (index 30 vaddr) hhhdm hgrown₁.ok hwalk₁ (by simp)
      (hP _ ⟨[index 30 vaddr, index 21 vaddr], rfl⟩) (hP _ ⟨[index 21 vaddr], rfl⟩) hget₂
  obtain ⟨r₃, hget₃, hret⟩ := Option.bind_eq_some_iff.mp hret
  obtain ⟨pt, m₃, frames₃, rfl, hgrown₃, hwalk₃, hentry₃, hlen₃⟩ :=
    getOrAllocateMap_spec _ (index 21 vaddr) hhhdm hgrown₂.ok hwalk₂ (by simp)
      (hP _ ⟨[index 21 vaddr], rfl⟩) (hP _ ⟨[], rfl⟩) hget₃
  obtain ⟨hgrown, hentry'⟩ :=
    write_bottom_spec (index 12 vaddr) _ hgrown₃.ok hwalk₃ rfl (hP _ ⟨[], rfl⟩) hvalue
  refine ⟨_, frames₃, (Option.some.inj hret).symm,
    hgrown₁.trans (hgrown₂.trans (hgrown₃.trans hgrown)), ?_, by omega⟩
  intro js j hjs
  refine (hentry' js j hjs).trans ?_
  rw [hentry₃ js j hjs, hentry₂ js j hjs, hentry₁ js j hjs]
  rfl

theorem mapPage_total (vaddr paddr flags : Nat) (hhhdm : hhdm < 2 ^ 64)
    (hok : TablesOk hhdm m root frames) (hsupply : 3 ≤ frames.length) :
    ∃ r, mapPage hhdm m (tableBase hhdm root) vaddr paddr flags (frames.map (tableBase hhdm)) =
      some r := by
  obtain ⟨r₁, hget₁⟩ := getOrAllocateMap_total (f := root) (i := index 39 vaddr)
    (List.ne_nil_of_length_pos (by omega)) hok
  obtain ⟨pdpt, m₁, frames₁, rfl, hgrown₁, hwalk₁, -, hlen₁⟩ :=
    getOrAllocateMap_spec (P := fun _ => True) [] (index 39 vaddr) hhhdm hok rfl (by simp) trivial
      trivial hget₁
  obtain ⟨r₂, hget₂⟩ := getOrAllocateMap_total (f := pdpt) (i := index 30 vaddr)
    (List.ne_nil_of_length_pos (by omega)) hgrown₁.ok
  obtain ⟨pd, m₂, frames₂, rfl, hgrown₂, hwalk₂, -, hlen₂⟩ :=
    getOrAllocateMap_spec (P := fun _ => True) _ (index 30 vaddr) hhhdm hgrown₁.ok hwalk₁ (by simp)
      trivial trivial hget₂
  obtain ⟨r₃, hget₃⟩ := getOrAllocateMap_total (f := pd) (i := index 21 vaddr)
    (List.ne_nil_of_length_pos (by omega)) hgrown₂.ok
  simp only [index] at hget₁ hget₂ hget₃
  simp only [mapPage, pml4e, pdpte, pde, pte, hget₁, hget₂, hget₃, Option.bind_eq_bind,
    Option.bind_some]
  exact ⟨_, rfl⟩

theorem mapPage_spec (vaddr : Nat) {paddr flags : Nat} (hhhdm : hhdm < 2 ^ 64)
    (hok : TablesOk hhdm m root frames) (hsupply : 3 ≤ frames.length)
    (hvalue : paddr ||| flags < 2 ^ 64) :
    ∃ m' frames',
      mapPage hhdm m (tableBase hhdm root) vaddr paddr flags (frames.map (tableBase hhdm)) =
        some (m', frames'.map (tableBase hhdm)) ∧
      TablesOk hhdm m' root frames' ∧
      (∀ js j, js.length = 3 → entryAt hhdm m' root js j =
        if js = path vaddr ∧ j = index 12 vaddr then paddr ||| flags
        else entryAt hhdm m root js j) ∧
      frames.length ≤ frames'.length + 3 := by
  obtain ⟨r, hret⟩ := mapPage_total vaddr paddr flags hhhdm hok hsupply
  obtain ⟨m', frames', rfl, hgrown, hentry, hlen⟩ :=
    mapPage_grown vaddr hhhdm hok (P := fun _ => True) (fun _ _ => trivial) hvalue hret
  exact ⟨m', frames', hret, hgrown.ok, hentry, hlen⟩

theorem unmapPage_spec (hok : TablesOk hhdm m root frames) (vaddr : Nat) :
    TablesOk hhdm (unmapPage hhdm m (tableBase hhdm root) vaddr) root frames ∧
      ∀ js j, js.length = 3 →
        entryAt hhdm (unmapPage hhdm m (tableBase hhdm root) vaddr) root js j =
          if js = path vaddr ∧ j = index 12 vaddr then 0 else entryAt hhdm m root js j := by
  rw [unmapPage, tableOf_eq]
  cases htable : Radix.walk nextFrame (view hhdm m) root (path vaddr) with
  | none =>
      refine ⟨hok, fun js j _ => ?_⟩
      simp only [Option.map_none]
      by_cases hhere : js = path vaddr ∧ j = index 12 vaddr
      · rw [if_pos hhere, hhere.1]
        simp only [entryAt, htable]
      · rw [if_neg hhere]
  | some pt =>
      obtain ⟨hgrown, hentry⟩ := write_bottom_spec (P := fun _ => True) (index 12 vaddr) 0 hok htable
        rfl trivial (by decide)
      exact ⟨hgrown.ok, hentry⟩

end Operations

/-- The page an address lies on: its bits 12 to 47. -/
def page (vaddr : Nat) : Nat := vaddr / 4096 % 2 ^ 36

theorem index_val (shift x : Nat) : (x >>> shift) &&& 0x1ff = x / 2 ^ shift % 512 := by
  rw [Nat.shiftRight_eq_div_pow, show (0x1ff : Nat) = 2 ^ 9 - 1 from rfl,
    Nat.and_two_pow_sub_one_eq_mod]

theorem path_eq_iff (v w : Nat) :
    path w = path v ∧ index 12 w = index 12 v ↔ page v = page w := by
  simp only [path, index, page, List.cons.injEq, Fin.mk.injEq, index_val, and_true]
  omega

/-- Calls on the kernel page map. -/
inductive Op where
  | map (vaddr paddr flags : Nat)
  | unmap (vaddr : Nat)
  deriving Repr, DecidableEq

/-- A page-aligned physical address and flags that include the present bit. -/
def Op.Valid : Op → Prop
  | .map _ paddr flags => pageSize ∣ paddr ∧ paddr < 2 ^ 48 ∧ flags < 2 ^ 64 ∧
      flags &&& pmlPhysicalAddress = 0 ∧ flags &&& pmlPresent ≠ 0
  | .unmap _ => True

def step (hhdm pml4Base : Nat) (s : Mem × List Nat) : Op → Option (Mem × List Nat)
  | .map vaddr paddr flags => mapPage hhdm s.1 pml4Base vaddr paddr flags s.2
  | .unmap vaddr => some (unmapPage hhdm s.1 pml4Base vaddr, s.2)

def run (hhdm pml4Base : Nat) (s : Mem × List Nat) : List Op → Option (Mem × List Nat)
  | [] => some s
  | op :: ops => (step hhdm pml4Base s op).bind fun s => run hhdm pml4Base s ops

/-- What a page table stands for: a finite map from pages to entries. -/
def mapStep (pages : Nat → Option Nat) : Op → Nat → Option Nat
  | .map vaddr paddr flags => fun p => if page vaddr = p then some (paddr ||| flags) else pages p
  | .unmap vaddr => fun p => if page vaddr = p then none else pages p

section Refinement

variable {hhdm : Nat} {m : Mem} {root : Frame} {frames : List Frame}

/-- The map that the tables under `root` stand for. -/
def pagesOf (hhdm : Nat) (m : Mem) (root : Frame) (p : Nat) : Option Nat :=
  translate hhdm m (tableBase hhdm root) (4096 * p)

theorem translate_eq_pagesOf (w : Nat) :
    translate hhdm m (tableBase hhdm root) w = pagesOf hhdm m root (page w) := by
  have hpage : page (4096 * page w) = page w := by
    simp only [page]
    omega
  obtain ⟨hpath, hindex⟩ := (path_eq_iff (4096 * page w) w).mpr hpage
  rw [pagesOf, translate_eq, translate_eq, hpath, hindex]

/-- An operation that sets one entry sets one page of the map. -/
theorem pagesOf_set {m' : Mem} {vaddr value : Nat}
    (hentry : ∀ js j, js.length = 3 → entryAt hhdm m' root js j =
      if js = path vaddr ∧ j = index 12 vaddr then value else entryAt hhdm m root js j) (w : Nat) :
    pagesOf hhdm m' root (page w) =
      if page vaddr = page w then (if value &&& pmlPresent ≠ 0 then some value else none)
      else pagesOf hhdm m root (page w) := by
  rw [← translate_eq_pagesOf, ← translate_eq_pagesOf, translate_eq, translate_eq,
    hentry (path w) (index 12 w) rfl]
  by_cases hpage : page vaddr = page w
  · rw [if_pos hpage, if_pos ((path_eq_iff vaddr w).mpr hpage)]
  · rw [if_neg hpage, if_neg fun hsame => hpage ((path_eq_iff vaddr w).mp hsame)]

theorem step_refines (hhhdm : hhdm < 2 ^ 64) (hok : TablesOk hhdm m root frames)
    (hsupply : 3 ≤ frames.length) {op : Op} (hop : op.Valid) :
    ∃ m' frames',
      step hhdm (tableBase hhdm root) (m, frames.map (tableBase hhdm)) op =
        some (m', frames'.map (tableBase hhdm)) ∧
      TablesOk hhdm m' root frames' ∧ frames.length ≤ frames'.length + 3 ∧
      ∀ w, pagesOf hhdm m' root (page w) = mapStep (pagesOf hhdm m root) op (page w) := by
  cases op with
  | map vaddr paddr flags =>
      obtain ⟨-, hpaddr, hflags, -, hpresent⟩ := hop
      have hvalue : paddr ||| flags < 2 ^ 64 := Nat.or_lt_two_pow (by omega) hflags
      obtain ⟨m', frames', hret, hok', hentry, hlen⟩ :=
        mapPage_spec vaddr hhhdm hok hsupply hvalue
      refine ⟨m', frames', hret, hok', hlen, fun w => ?_⟩
      have hset : (paddr ||| flags) &&& pmlPresent ≠ 0 := by
        rw [Nat.and_or_distrib_right]
        exact fun hzero => hpresent (Nat.or_eq_zero_iff.mp hzero).2
      rw [pagesOf_set hentry w, if_pos hset, mapStep]
  | unmap vaddr =>
      obtain ⟨hok', hentry⟩ := unmapPage_spec hok vaddr
      refine ⟨_, frames, rfl, hok', Nat.le_add_right _ _, fun w => ?_⟩
      have hnone : ¬ (0 &&& pmlPresent ≠ 0) := by simp
      rw [pagesOf_set hentry w, if_neg hnone, mapStep]

theorem mapStep_foldl_congr {pages pages' : Nat → Option Nat} (ops : List Op)
    (hsame : ∀ w, pages (page w) = pages' (page w)) (w : Nat) :
    ops.foldl mapStep pages (page w) = ops.foldl mapStep pages' (page w) := by
  induction ops generalizing pages pages' with
  | nil => exact hsame w
  | cons op ops ih =>
      refine ih fun w => ?_
      cases op <;> simp only [mapStep, hsame]

/-- Every sequence of `map_page` and `unmap_page` on a tree of tables returns, keeps the tree,
and leaves the walk of every address with what the same operations make of the initial map:
the last mapping of its page, nothing after an unmapping, or the initial entry. -/
theorem page_table_refines (hhhdm : hhdm < 2 ^ 64) (hok : TablesOk hhdm m root frames)
    {ops : List Op} (hops : ∀ op ∈ ops, op.Valid) (hsupply : 3 * ops.length ≤ frames.length) :
    ∃ m' supply,
      run hhdm (tableBase hhdm root) (m, frames.map (tableBase hhdm)) ops = some (m', supply) ∧
      Radix.IsTree nextFrame (view hhdm m') root 3 ∧
      ∀ w, translate hhdm m' (tableBase hhdm root) w =
        ops.foldl mapStep (pagesOf hhdm m root) (page w) := by
  induction ops generalizing m frames with
  | nil => exact ⟨m, _, rfl, hok.tree, fun w => translate_eq_pagesOf w⟩
  | cons op ops ih =>
      rw [List.length_cons] at hsupply
      obtain ⟨m₁, frames₁, hstep, hok₁, hlen, hpages⟩ :=
        step_refines hhhdm hok (by omega) (hops op (by simp))
      obtain ⟨m', supply, hrun, htree, hwalk⟩ :=
        ih hok₁ (fun op' hop' => hops op' (by simp [hop'])) (by omega)
      refine ⟨m', supply, ?_, htree, fun w => ?_⟩
      · rw [run, hstep]
        exact hrun
      · rw [hwalk w, List.foldl_cons]
        exact mapStep_foldl_congr ops hpages w

/-- From a root table without present entries no walk gets anywhere. -/
theorem walk_absent (habsent : ∀ i, nextFrame (view hhdm m root i) = none) {is : List (Fin 512)}
    {b : Frame} (hwalk : Radix.walk nextFrame (view hhdm m) root is = some b) :
    is = [] ∧ root = b := by
  cases is with
  | nil => exact ⟨rfl, Option.some.inj hwalk⟩
  | cons i is =>
      rw [Radix.walk, habsent] at hwalk
      exact absurd hwalk (by simp)

theorem tablesOk_absent (habsent : ∀ i, nextFrame (view hhdm m root i) = none) (hnodup : frames.Nodup)
    (hroot : root ∉ frames) (hnonnull : ∀ c ∈ frames, tableBase hhdm c ≠ 0) :
    TablesOk hhdm m root frames := by
  refine ⟨fun is js b _ _ hi hj => ?_, hnodup, ?_, hnonnull⟩
  · rw [(walk_absent habsent hi).1, (walk_absent habsent hj).1]
  · rintro c hc ⟨is, -, hwalk⟩
    exact hroot ((walk_absent habsent hwalk).2 ▸ hc)

/-- One mapping in an empty kernel page map at frame 1, with frames 2, 3 and 4 to come. -/
theorem page_table_refines_first_mapping :
    ∃ m' supply,
      run 0 4096 (fun _ => 0, [8192, 12288, 16384]) [.map 0x400000 0x5000 3] = some (m', supply) ∧
      translate 0 m' 4096 0x400123 = some 0x5003 := by
  have hok : TablesOk 0 (fun _ => 0) ⟨1, by decide⟩
      [⟨2, by decide⟩, ⟨3, by decide⟩, ⟨4, by decide⟩] :=
    tablesOk_absent (fun i => (congrArg nextFrame (Mem.readN_eq_zero fun _ _ _ => rfl)).trans
      nextFrame_zero) (by decide) (by decide) (by decide)
  have hops : ∀ op ∈ [Op.map 0x400000 0x5000 3], op.Valid := by
    intro op hop
    rw [List.mem_singleton.mp hop]
    exact ⟨by decide, by decide, by decide, by decide, by decide⟩
  obtain ⟨m', supply, hrun, -, hwalk⟩ := page_table_refines (by decide) hok hops (by decide)
  exact ⟨m', supply, hrun, (hwalk 0x400123).trans rfl⟩

end Refinement

end Tellurium.Vmm
