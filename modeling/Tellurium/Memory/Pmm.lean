import Mathlib.Data.List.Basic
import Mathlib.Logic.Relation
import Mathlib.Tactic.Ring

/-!
The physical frame allocator (`kernel/memory/pmm.c`): a packed bitmap with one bit
per page frame, scanned next-fit from `cached_index`. Addresses, counts and indices
are `uint64_t` as in the source. The bitmap is an array of bytes; `KERNEL_HHDM_OFFSET`
is handed over by the bootloader and stays a parameter.
-/

namespace Tellurium.Pmm

def pageSizeBytes : UInt64 := 4096

structure State where
  bitmap : Array UInt8
  bitmapMaxEntries : UInt64
  cachedIndex : UInt64

def bitmapRead (bitmap : Array UInt8) (addr : UInt64) : UInt8 :=
  let nthBit := addr / pageSizeBytes
  (bitmap[(nthBit / 8).toNat]! >>> (nthBit % 8).toUInt8) &&& 1

def bitmapSet (bitmap : Array UInt8) (addr : UInt64) : Array UInt8 :=
  let nthBit := addr / pageSizeBytes
  bitmap.modify (nthBit / 8).toNat fun byte => byte ||| (1 <<< (nthBit % 8).toUInt8)

def bitmapReset (bitmap : Array UInt8) (addr : UInt64) : Array UInt8 :=
  let nthBit := addr / pageSizeBytes
  bitmap.modify (nthBit / 8).toNat fun byte => byte &&& ~~~(1 <<< (nthBit % 8).toUInt8)

/-- The loop stops at the first set bit. -/
def bitmapAvailable (bitmap : Array UInt8) (bitmapIndex pages : UInt64) : Bool :=
  (List.range pages.toNat).all fun idx =>
    bitmapRead bitmap ((bitmapIndex + UInt64.ofNat idx) * pageSizeBytes) == 0

def palign (frames : UInt64) : UInt64 :=
  let bytes := frames / 8
  let bytes := if bytes * 8 < frames then bytes + 1 else bytes
  let frames := bytes / pageSizeBytes
  let frames := if frames * pageSizeBytes < bytes then frames + 1 else frames
  frames * pageSizeBytes

/-- The allocation branch of the scan. -/
def takeFrames (s : State) (pages : UInt64) : State :=
  {s with
    bitmap := (List.range pages.toNat).foldl (fun bitmap idx =>
      bitmapSet bitmap ((s.cachedIndex + UInt64.ofNat idx) * pageSizeBytes)) s.bitmap
    cachedIndex := s.cachedIndex + pages}

/-- The scan from `cached_index`. The sum it compares grows by one in each round and
cannot wrap while it is below the bound, so the loop ends. -/
def pallocInternal (hhdm : UInt64) (s : State) (pages : UInt64) : UInt64 × State :=
  if _h : s.cachedIndex + pages < s.bitmapMaxEntries then
    if bitmapAvailable s.bitmap s.cachedIndex pages then
      (s.cachedIndex * pageSizeBytes + hhdm, takeFrames s pages)
    else pallocInternal hhdm {s with cachedIndex := s.cachedIndex + 1} pages
  else (0, s)
termination_by s.bitmapMaxEntries.toNat - (s.cachedIndex + pages).toNat
decreasing_by
  have hlt : (s.cachedIndex + pages).toNat < s.bitmapMaxEntries.toNat :=
    UInt64.lt_iff_toNat_lt.mp _h
  have hmax := s.bitmapMaxEntries.toNat_lt
  have hsum : s.cachedIndex + 1 + pages = s.cachedIndex + pages + 1 := by
    rw [UInt64.add_assoc, UInt64.add_comm 1 pages, ← UInt64.add_assoc]
  simp only [hsum, UInt64.toNat_add (s.cachedIndex + pages) 1]
  have hone : (1 : UInt64).toNat = 1 := rfl
  rw [hone, Nat.mod_eq_of_lt (by omega)]
  omega

def palloc (hhdm : UInt64) (s : State) (pages : UInt64) : UInt64 × State :=
  let first := pallocInternal hhdm s pages
  if first.1 = 0 then pallocInternal hhdm {first.2 with cachedIndex := 0} pages
  else first

def pfree (hhdm : UInt64) (s : State) (base pages : UInt64) : State :=
  {s with
    bitmap := (List.range pages.toNat).foldl (fun bitmap idx =>
      bitmapReset bitmap (base + UInt64.ofNat idx * pageSizeBytes - hhdm)) s.bitmap}

/-- A Limine memory map entry. -/
structure MemmapEntry where
  base : UInt64
  length : UInt64
  type : UInt64

def limineMemmapUsable : UInt64 := 0

/-- The end of the last usable entry of the list. -/
def maxAddress (entries : List MemmapEntry) : UInt64 :=
  entries.foldl (fun maxAddress entry =>
    if entry.type = limineMemmapUsable then entry.base + entry.length else maxAddress) 0

/-- Cut the bitmap's storage off the first usable entry that is longer than it.
`none` if no entry is; the source then writes through an unset pointer. -/
def reserveBitmap (bitmapSizeAligned : UInt64) :
    List MemmapEntry → Option (List MemmapEntry)
  | [] => none
  | entry :: rest =>
      if entry.type = limineMemmapUsable ∧ bitmapSizeAligned < entry.length then
        some ({entry with base := entry.base + bitmapSizeAligned,
                          length := entry.length - bitmapSizeAligned} :: rest)
      else (reserveBitmap bitmapSizeAligned rest).map (entry :: ·)

/-- The frames of one usable entry: `jdx` runs over the multiples of the page size
below `entry->length`. -/
def releaseEntry (bitmap : Array UInt8) (entry : MemmapEntry) : Array UInt8 :=
  if entry.type = limineMemmapUsable then
    (List.range ((entry.length.toNat + 4095) / 4096)).foldl (fun bitmap j =>
      bitmapReset bitmap (entry.base + UInt64.ofNat (4096 * j))) bitmap
  else bitmap

def initPmm (entries : List MemmapEntry) : Option State :=
  let frames := maxAddress entries / pageSizeBytes
  let bitmapSizeAligned := palign frames
  (reserveBitmap bitmapSizeAligned entries).map fun entries =>
    {bitmap := entries.foldl releaseEntry (Array.replicate bitmapSizeAligned.toNat 0xff)
     bitmapMaxEntries := frames
     cachedIndex := 0}

/-- The bit of frame `f`. -/
def frameBit (bitmap : Array UInt8) (f : Nat) : Bool :=
  bitmap[f / 8]!.toBitVec.getLsbD (f % 8)

section Bits

variable {bitmap : Array UInt8} {addr : UInt64} {f g : Nat}

theorem toNat_byteIndex (addr : UInt64) :
    (addr / pageSizeBytes / 8).toNat = addr.toNat / 4096 / 8 := by
  rw [UInt64.toNat_div, UInt64.toNat_div]
  rfl

theorem toNat_bitIndex (addr : UInt64) :
    (addr / pageSizeBytes % 8).toUInt8.toNat = addr.toNat / 4096 % 8 := by
  have h : (addr / pageSizeBytes % 8).toNat = addr.toNat / 4096 % 8 := by
    rw [UInt64.toNat_mod, UInt64.toNat_div]
    rfl
  rw [UInt64.toNat_toUInt8, h]
  omega

theorem getLsbD_mask (k : UInt8) {j : Nat} (hk : k.toNat < 8) (hj : j < 8) :
    ((1 : UInt8) <<< k).toBitVec.getLsbD j = decide (j = k.toNat) := by
  have hmod : k.toNat % 8 = k.toNat := Nat.mod_eq_of_lt hk
  rw [Bool.eq_iff_iff]
  simp only [UInt8.toBitVec_shiftLeft, BitVec.shiftLeft_eq', BitVec.getLsbD_shiftLeft]
  simp [hmod, hj]
  omega

theorem shift_and_one_eq_zero (byte k : UInt8) (hk : k.toNat < 8) :
    (byte >>> k) &&& 1 = 0 ↔ byte.toBitVec.getLsbD k.toNat = false := by
  have hmod : k.toNat % 8 = k.toNat := Nat.mod_eq_of_lt hk
  rw [← UInt8.toBitVec_inj]
  constructor
  · intro h
    have hbit := congrArg (fun b : BitVec 8 => b.getLsbD 0) h
    simpa [hmod] using hbit
  · intro h
    ext i hi
    simp only [UInt8.toBitVec_and, UInt8.toBitVec_shiftRight, BitVec.getElem_and]
    by_cases hi0 : i = 0
    · subst hi0
      simp [hmod, h]
    · simp [hi0]

theorem bitmapRead_eq_zero (bitmap : Array UInt8) (addr : UInt64) :
    bitmapRead bitmap addr = 0 ↔ frameBit bitmap (addr.toNat / 4096) = false := by
  unfold bitmapRead frameBit
  dsimp only
  rw [shift_and_one_eq_zero _ _ (by rw [toNat_bitIndex]; omega), toNat_bitIndex,
    toNat_byteIndex]

theorem getElem!_modify (bitmap : Array UInt8) (i j : Nat) (f : UInt8 → UInt8) :
    (bitmap.modify i f)[j]! =
      if i = j ∧ i < bitmap.size then f bitmap[j]! else bitmap[j]! := by
  simp only [getElem!_def, Array.getElem?_modify]
  by_cases hij : i = j
  · subst hij
    by_cases hi : i < bitmap.size
    · simp [hi]
    · simp [hi]
  · simp [hij]

theorem frameBit_bitmapSet (h : addr.toNat / 4096 / 8 < bitmap.size) (g : Nat) :
    frameBit (bitmapSet bitmap addr) g =
      (frameBit bitmap g || decide (g = addr.toNat / 4096)) := by
  unfold frameBit bitmapSet
  dsimp only
  rw [getElem!_modify, toNat_byteIndex]
  split_ifs with hbyte
  · rw [UInt8.toBitVec_or, BitVec.getLsbD_or,
      getLsbD_mask _ (by rw [toNat_bitIndex]; omega) (by omega), toNat_bitIndex]
    congr 2
    apply propext
    omega
  · have hne : g ≠ addr.toNat / 4096 := fun heq => hbyte ⟨by rw [heq], h⟩
    simp [hne]

theorem frameBit_bitmapReset (bitmap : Array UInt8) (addr : UInt64) (g : Nat) :
    frameBit (bitmapReset bitmap addr) g =
      (frameBit bitmap g && !decide (g = addr.toNat / 4096)) := by
  unfold frameBit bitmapReset
  dsimp only
  rw [getElem!_modify, toNat_byteIndex]
  split_ifs with hbyte
  · have hlt : g % 8 < 8 := by omega
    rw [UInt8.toBitVec_and, BitVec.getLsbD_and, UInt8.toBitVec_not, BitVec.getLsbD_not,
      getLsbD_mask _ (by rw [toNat_bitIndex]; omega) hlt, toNat_bitIndex]
    simp only [hlt, decide_true, Bool.true_and]
    congr 3
    apply propext
    omega
  · by_cases heq : g = addr.toNat / 4096
    · have hout : bitmap.size ≤ g / 8 := by
        by_contra hin
        exact hbyte ⟨by rw [heq], by omega⟩
      have hzero : bitmap[g / 8]! = 0 := by
        rw [getElem!_def, Array.getElem?_eq_none hout]
        rfl
      rw [hzero]
      simp
    · simp [heq]

end Bits

section Ranges

variable {bitmap : Array UInt8} {addrOf : Nat → UInt64}

theorem size_foldl_bitmapSet (l : List Nat) (bitmap : Array UInt8) :
    (l.foldl (fun b i => bitmapSet b (addrOf i)) bitmap).size = bitmap.size := by
  induction l generalizing bitmap with
  | nil => rfl
  | cons i rest ih => rw [List.foldl_cons, ih, bitmapSet, Array.size_modify]

theorem size_foldl_bitmapReset (l : List Nat) (bitmap : Array UInt8) :
    (l.foldl (fun b i => bitmapReset b (addrOf i)) bitmap).size = bitmap.size := by
  induction l generalizing bitmap with
  | nil => rfl
  | cons i rest ih => rw [List.foldl_cons, ih, bitmapReset, Array.size_modify]

theorem frameBit_foldl_bitmapSet (l : List Nat)
    (h : ∀ i ∈ l, (addrOf i).toNat / 4096 / 8 < bitmap.size) (g : Nat) :
    frameBit (l.foldl (fun b i => bitmapSet b (addrOf i)) bitmap) g = true ↔
      frameBit bitmap g = true ∨ ∃ i ∈ l, g = (addrOf i).toNat / 4096 := by
  induction l generalizing bitmap with
  | nil => simp
  | cons i rest ih =>
      have hi := h i List.mem_cons_self
      have hsize : (bitmapSet bitmap (addrOf i)).size = bitmap.size := by
        rw [bitmapSet, Array.size_modify]
      rw [List.foldl_cons,
        ih fun j hj => by rw [hsize]; exact h j (List.mem_cons_of_mem i hj),
        frameBit_bitmapSet hi]
      simp only [Bool.or_eq_true, decide_eq_true_eq, List.mem_cons, exists_eq_or_imp, or_assoc]

theorem frameBit_foldl_bitmapReset (l : List Nat) (g : Nat) :
    frameBit (l.foldl (fun b i => bitmapReset b (addrOf i)) bitmap) g = true ↔
      frameBit bitmap g = true ∧ ∀ i ∈ l, g ≠ (addrOf i).toNat / 4096 := by
  induction l generalizing bitmap with
  | nil => simp
  | cons i rest ih =>
      rw [List.foldl_cons, ih, frameBit_bitmapReset]
      simp only [Bool.and_eq_true, Bool.not_eq_true', decide_eq_false_iff_not, List.mem_cons,
        forall_eq_or_imp, and_assoc, ne_eq]

/-- Frame addresses computed in the scan do not wrap below `2 ^ 52` frames. -/
theorem toNat_frameAddr {index : UInt64} {i : Nat} (h : index.toNat + i < 2 ^ 52) :
    ((index + UInt64.ofNat i) * pageSizeBytes).toNat = (index.toNat + i) * 4096 := by
  have hi : (UInt64.ofNat i).toNat = i := by
    rw [UInt64.toNat_ofNat', Nat.mod_eq_of_lt (by omega)]
  have hpage : pageSizeBytes.toNat = 4096 := rfl
  rw [UInt64.toNat_mul, UInt64.toNat_add, hi, hpage]
  omega

theorem bitmapAvailable_iff {index pages : UInt64}
    (h : index.toNat + pages.toNat ≤ 2 ^ 52) :
    bitmapAvailable bitmap index pages = true ↔
      ∀ i < pages.toNat, frameBit bitmap (index.toNat + i) = false := by
  simp only [bitmapAvailable, List.all_eq_true, List.mem_range, beq_iff_eq, bitmapRead_eq_zero]
  constructor
  · intro hall i hi
    have hbit := hall i hi
    rwa [toNat_frameAddr (by omega), Nat.mul_div_cancel _ (by decide)] at hbit
  · intro hall i hi
    rw [toNat_frameAddr (by omega), Nat.mul_div_cancel _ (by decide)]
    exact hall i hi

end Ranges

/-- The direct map the bootloader sets up: it starts above address zero and covers
every frame the allocator manages without wrapping. -/
structure HhdmCovers (hhdm : UInt64) (s : State) : Prop where
  pos : 0 < hhdm.toNat
  room : hhdm.toNat + s.bitmapMaxEntries.toNat * 4096 ≤ 2 ^ 64

/-- The bitmap has a bit for every frame, and frame addresses fit into 64 bits. -/
structure Sized (s : State) : Prop where
  bits : s.bitmapMaxEntries.toNat ≤ 8 * s.bitmap.size
  frames : s.bitmapMaxEntries.toNat ≤ 2 ^ 52

/-- A successful scan: `pages` clear frames from `start` on, now set. -/
structure Took (hhdm : UInt64) (s : State) (pages ret : UInt64) (s' : State) (start : Nat) :
    Prop where
  address : ret.toNat = start * 4096 + hhdm.toNat
  below : start + pages.toNat < s.bitmapMaxEntries.toNat
  clear : ∀ i < pages.toNat, frameBit s.bitmap (start + i) = false
  bits : ∀ f, frameBit s'.bitmap f = true ↔
    frameBit s.bitmap f = true ∨ start ≤ f ∧ f < start + pages.toNat
  size : s'.bitmap.size = s.bitmap.size
  maxEntries : s'.bitmapMaxEntries = s.bitmapMaxEntries

/-- `cached_index` plays no role in what a scan took. -/
theorem Took.of_cachedIndex {hhdm index : UInt64} {s s' : State} {pages ret : UInt64}
    {start : Nat} (h : Took hhdm {s with cachedIndex := index} pages ret s' start) :
    Took hhdm s pages ret s' start :=
  ⟨h.address, h.below, h.clear, h.bits, h.size, h.maxEntries⟩

theorem took_takeFrames {hhdm : UInt64} {s : State} {pages : UInt64}
    (hsized : Sized s) (hhhdm : HhdmCovers hhdm s)
    (hbound : s.cachedIndex.toNat + pages.toNat < s.bitmapMaxEntries.toNat)
    (havail : bitmapAvailable s.bitmap s.cachedIndex pages = true) :
    Took hhdm s pages (s.cachedIndex * pageSizeBytes + hhdm) (takeFrames s pages)
      s.cachedIndex.toNat := by
  have hframes := hsized.frames
  have hroom := hhhdm.room
  refine ⟨?_, hbound, (bitmapAvailable_iff (by omega)).mp havail, ?_, ?_, rfl⟩
  · have hpage : pageSizeBytes.toNat = 4096 := rfl
    rw [UInt64.toNat_add, UInt64.toNat_mul, hpage]
    omega
  · intro f
    have haddr : ∀ i ∈ List.range pages.toNat,
        ((s.cachedIndex + UInt64.ofNat i) * pageSizeBytes).toNat / 4096 =
          s.cachedIndex.toNat + i := by
      intro i hi
      rw [toNat_frameAddr (by have := List.mem_range.mp hi; omega),
        Nat.mul_div_cancel _ (by decide)]
    rw [takeFrames, frameBit_foldl_bitmapSet]
    · apply or_congr Iff.rfl
      constructor
      · rintro ⟨i, hi, hf⟩
        rw [haddr i hi] at hf
        have := List.mem_range.mp hi
        omega
      · intro hf
        have hi : f - s.cachedIndex.toNat ∈ List.range pages.toNat :=
          List.mem_range.mpr (by omega)
        exact ⟨_, hi, by rw [haddr _ hi]; omega⟩
    · intro i hi
      have hbits := hsized.bits
      have := List.mem_range.mp hi
      rw [haddr i hi]
      omega
  · exact size_foldl_bitmapSet _ _

/-- The scan either takes the first fitting run at or after `cached_index`, or leaves
the bitmap alone. -/
theorem pallocInternal_spec {hhdm : UInt64} (s : State) {pages : UInt64}
    (hsized : Sized s) (hhhdm : HhdmCovers hhdm s)
    (hindex : s.cachedIndex.toNat + pages.toNat < 2 ^ 64) :
    (pallocInternal hhdm s pages).1 = 0 ∧
        (pallocInternal hhdm s pages).2.bitmap = s.bitmap ∧
        (pallocInternal hhdm s pages).2.bitmapMaxEntries = s.bitmapMaxEntries ∨
      ∃ start, Took hhdm s pages (pallocInternal hhdm s pages).1
        (pallocInternal hhdm s pages).2 start := by
  induction s using pallocInternal.induct pages with
  | case1 s h havail =>
      rw [pallocInternal, dif_pos h, if_pos havail]
      refine Or.inr ⟨_, took_takeFrames hsized hhhdm ?_ havail⟩
      have hlt := UInt64.lt_iff_toNat_lt.mp h
      rwa [UInt64.toNat_add, Nat.mod_eq_of_lt hindex] at hlt
  | case2 s h havail ih =>
      rw [pallocInternal, dif_pos h, if_neg havail]
      have hlt := UInt64.lt_iff_toNat_lt.mp h
      rw [UInt64.toNat_add, Nat.mod_eq_of_lt hindex] at hlt
      have hframes := hsized.frames
      have hnext : (s.cachedIndex + 1).toNat = s.cachedIndex.toNat + 1 := by
        rw [UInt64.toNat_add]
        exact Nat.mod_eq_of_lt (by simp; omega)
      rcases ih ⟨hsized.bits, hsized.frames⟩ ⟨hhhdm.pos, hhhdm.room⟩ (by dsimp only; omega)
        with hnone | ⟨start, htook⟩
      · exact Or.inl hnone
      · exact Or.inr ⟨start, htook.of_cachedIndex⟩
  | case3 s h =>
      rw [pallocInternal, dif_neg h]
      exact Or.inl ⟨rfl, rfl, rfl⟩

theorem palloc_spec {hhdm : UInt64} (s : State) {pages : UInt64}
    (hsized : Sized s) (hhhdm : HhdmCovers hhdm s)
    (hindex : s.cachedIndex.toNat + pages.toNat < 2 ^ 64) :
    (palloc hhdm s pages).1 = 0 ∧ (palloc hhdm s pages).2.bitmap = s.bitmap ∧
        (palloc hhdm s pages).2.bitmapMaxEntries = s.bitmapMaxEntries ∨
      (palloc hhdm s pages).1 ≠ 0 ∧
        ∃ start, Took hhdm s pages (palloc hhdm s pages).1 (palloc hhdm s pages).2 start := by
  have hnonzero : ∀ ret s' start, Took hhdm s pages ret s' start → ret ≠ 0 := by
    intro ret s' start htook hzero
    have haddr := htook.address
    have hpos := hhhdm.pos
    rw [hzero] at haddr
    have : (0 : UInt64).toNat = 0 := rfl
    omega
  unfold palloc
  dsimp only
  rcases pallocInternal_spec s hsized hhhdm hindex with ⟨hzero, hbitmap, hmax⟩ | ⟨start, htook⟩
  · -- the first scan failed: the second one starts from frame zero
    rw [if_pos hzero, hbitmap, hmax]
    have hzeroIndex : (0 : UInt64).toNat + pages.toNat < 2 ^ 64 := by
      have := pages.toNat_lt
      have : (0 : UInt64).toNat = 0 := rfl
      omega
    rcases pallocInternal_spec {s with cachedIndex := 0} ⟨hsized.bits, hsized.frames⟩
      ⟨hhhdm.pos, hhhdm.room⟩ hzeroIndex with hnone | ⟨start, htook⟩
    · exact Or.inl hnone
    · have htook' := htook.of_cachedIndex
      exact Or.inr ⟨hnonzero _ _ _ htook', start, htook'⟩
  · rw [if_neg (hnonzero _ _ _ htook)]
    exact Or.inr ⟨hnonzero _ _ _ htook, start, htook⟩

/-- An outstanding allocation: the pointer `palloc` returned and the frame count. -/
abbrev Allocation := UInt64 × UInt64

def firstFrame (hhdm : UInt64) (a : Allocation) : Nat := (a.1.toNat - hhdm.toNat) / 4096

/-- The frames of an allocation. -/
def Owns (hhdm : UInt64) (a : Allocation) (f : Nat) : Prop :=
  firstFrame hhdm a ≤ f ∧ f < firstFrame hhdm a + a.2.toNat

/-- The allocator with its outstanding allocations: calls of `palloc` whose index sum
does not wrap, and calls of `pfree` with the base and count of an outstanding one. -/
inductive Step (hhdm : UInt64) : State × List Allocation → State × List Allocation → Prop
  | palloc (s : State) (out : List Allocation) (pages : UInt64) (hpages : 1 ≤ pages.toNat)
      (hindex : s.cachedIndex.toNat + pages.toNat < 2 ^ 64) :
      Step hhdm (s, out)
        ((Pmm.palloc hhdm s pages).2,
          if (Pmm.palloc hhdm s pages).1 = 0 then out
          else ((Pmm.palloc hhdm s pages).1, pages) :: out)
  | pfree (s : State) (out : List Allocation) (a : Allocation) (ha : a ∈ out) :
      Step hhdm (s, out) (Pmm.pfree hhdm s a.1 a.2, out.erase a)

/-- The ghost set of outstanding ranges explains every bit that `init_pmm` left clear. -/
structure Inv (hhdm : UInt64) (s0 : State) (st : State × List Allocation) : Prop where
  size : st.1.bitmap.size = s0.bitmap.size
  maxEntries : st.1.bitmapMaxEntries = s0.bitmapMaxEntries
  placed : ∀ a ∈ st.2, a.1.toNat = firstFrame hhdm a * 4096 + hhdm.toNat ∧
    1 ≤ a.2.toNat ∧ firstFrame hhdm a + a.2.toNat ≤ s0.bitmapMaxEntries.toNat
  fresh : ∀ a ∈ st.2, ∀ f, Owns hhdm a f → frameBit s0.bitmap f = false
  disjoint : st.2.Pairwise fun a b => ∀ f, Owns hhdm a f → ¬ Owns hhdm b f
  bits : ∀ f, frameBit st.1.bitmap f = true ↔
    frameBit s0.bitmap f = true ∨ ∃ a ∈ st.2, Owns hhdm a f

theorem inv_start (hhdm : UInt64) (s0 : State) : Inv hhdm s0 (s0, []) :=
  ⟨rfl, rfl, by simp, by simp, List.Pairwise.nil, by simp⟩

section Steps

variable {hhdm : UInt64} {s0 s : State} {out : List Allocation}

theorem Inv.sized (h : Inv hhdm s0 (s, out)) (hsized : Sized s0) : Sized s := by
  have hmax := h.maxEntries
  have hsize := h.size
  dsimp only at hmax hsize
  exact ⟨by rw [hmax, hsize]; exact hsized.bits, by rw [hmax]; exact hsized.frames⟩

theorem Inv.hhdmCovers (h : Inv hhdm s0 (s, out)) (hhhdm : HhdmCovers hhdm s0) :
    HhdmCovers hhdm s := by
  have hmax := h.maxEntries
  dsimp only at hmax
  exact ⟨hhhdm.pos, by rw [hmax]; exact hhhdm.room⟩

theorem Inv.palloc (h : Inv hhdm s0 (s, out)) (hsized : Sized s0)
    (hhhdm : HhdmCovers hhdm s0) {pages : UInt64} (hpages : 1 ≤ pages.toNat)
    (hindex : s.cachedIndex.toNat + pages.toNat < 2 ^ 64) :
    Inv hhdm s0 ((Pmm.palloc hhdm s pages).2,
      if (Pmm.palloc hhdm s pages).1 = 0 then out
      else ((Pmm.palloc hhdm s pages).1, pages) :: out) := by
  have hmax := h.maxEntries
  dsimp only at hmax
  rcases palloc_spec s (h.sized hsized) (h.hhdmCovers hhhdm) hindex with
    ⟨hzero, hbitmap, hmax'⟩ | ⟨hret, start, htook⟩
  · rw [if_pos hzero]
    refine ⟨by rw [hbitmap]; exact h.size, hmax'.trans hmax, h.placed, h.fresh, h.disjoint, ?_⟩
    intro f
    rw [hbitmap]
    exact h.bits f
  · rw [if_neg hret]
    have haddr := htook.address
    have hbelow := htook.below
    rw [hmax] at hbelow
    have hfirst : firstFrame hhdm ((Pmm.palloc hhdm s pages).1, pages) = start := by
      simp only [firstFrame]
      omega
    -- the new frames were clear, so `init_pmm` left them clear and nobody owned them
    have hclear : ∀ f, Owns hhdm ((Pmm.palloc hhdm s pages).1, pages) f →
        ¬ (frameBit s0.bitmap f = true ∨ ∃ a ∈ out, Owns hhdm a f) := by
      intro f hnew
      rw [Owns, hfirst] at hnew
      have hbit := htook.clear (f - start) (by dsimp only at hnew; omega)
      rw [show start + (f - start) = f by omega] at hbit
      rw [← h.bits f, hbit]
      exact Bool.false_ne_true
    refine ⟨htook.size.trans h.size, htook.maxEntries.trans hmax, ?_, ?_, ?_, ?_⟩
    · intro a ha
      rcases List.mem_cons.mp ha with rfl | ha
      · rw [hfirst]
        exact ⟨haddr, hpages, by dsimp only; omega⟩
      · exact h.placed a ha
    · intro a ha f hown
      rcases List.mem_cons.mp ha with rfl | ha
      · exact Bool.eq_false_iff.mpr fun hbit => hclear f hown (Or.inl hbit)
      · exact h.fresh a ha f hown
    · exact List.pairwise_cons.mpr
        ⟨fun a ha f hnew hold => hclear f hnew (Or.inr ⟨a, ha, hold⟩), h.disjoint⟩
    · intro f
      rw [htook.bits f, h.bits f]
      simp only [List.mem_cons, exists_eq_or_imp, Owns, hfirst]
      constructor
      · rintro ((hold | hold) | hnew)
        · exact Or.inl hold
        · exact Or.inr (Or.inr hold)
        · exact Or.inr (Or.inl hnew)
      · rintro (hold | hnew | hold)
        · exact Or.inl (Or.inl hold)
        · exact Or.inr hnew
        · exact Or.inl (Or.inr hold)

/-- The loop of `pfree` visits exactly the frames of the allocation. -/
theorem frameBit_pfree (h : Inv hhdm s0 (s, out)) (hhhdm : HhdmCovers hhdm s0)
    {a : Allocation} (ha : a ∈ out) (f : Nat) :
    frameBit (Pmm.pfree hhdm s a.1 a.2).bitmap f = true ↔
      frameBit s.bitmap f = true ∧ ¬ Owns hhdm a f := by
  obtain ⟨hbase, hcount, hbelow⟩ := h.placed a ha
  have hroom := hhhdm.room
  have hhdmlt := hhdm.toNat_lt
  have haddr : ∀ i < a.2.toNat,
      (a.1 + UInt64.ofNat i * pageSizeBytes - hhdm).toNat / 4096 = firstFrame hhdm a + i := by
    intro i hi
    have hpage : pageSizeBytes.toNat = 4096 := rfl
    have hitoNat : (UInt64.ofNat i).toNat = i := by
      rw [UInt64.toNat_ofNat', Nat.mod_eq_of_lt]
      have := a.2.toNat_lt
      omega
    rw [UInt64.toNat_sub, UInt64.toNat_add, UInt64.toNat_mul, hitoNat, hpage, hbase]
    omega
  rw [Pmm.pfree, frameBit_foldl_bitmapReset]
  apply and_congr Iff.rfl
  simp only [List.mem_range]
  constructor
  · rintro hall ⟨hlo, hhi⟩
    have hne := hall (f - firstFrame hhdm a) (by omega)
    rw [haddr _ (by omega)] at hne
    omega
  · intro hnot i hi heq
    rw [haddr i hi] at heq
    exact hnot ⟨by omega, by omega⟩

theorem Inv.pfree (h : Inv hhdm s0 (s, out)) (hhhdm : HhdmCovers hhdm s0)
    {a : Allocation} (ha : a ∈ out) :
    Inv hhdm s0 (Pmm.pfree hhdm s a.1 a.2, out.erase a) := by
  have hpair := h.disjoint
  rw [(List.perm_cons_erase ha).pairwise_iff fun hab f hb hc => hab f hc hb,
    List.pairwise_cons] at hpair
  have hmem : ∀ b ∈ out.erase a, b ∈ out := fun b hb => List.mem_of_mem_erase hb
  refine ⟨(size_foldl_bitmapReset _ _).trans h.size, h.maxEntries,
    fun b hb => h.placed b (hmem b hb), fun b hb => h.fresh b (hmem b hb), hpair.2, ?_⟩
  intro f
  rw [frameBit_pfree h hhhdm ha, h.bits f]
  constructor
  · rintro ⟨hold | ⟨b, hb, hown⟩, hnot⟩
    · exact Or.inl hold
    · have hne : b ≠ a := fun heq => hnot (heq ▸ hown)
      exact Or.inr ⟨b, (List.mem_erase_of_ne hne).mpr hb, hown⟩
  · rintro (hold | ⟨b, hb, hown⟩)
    · refine ⟨Or.inl hold, fun hown => ?_⟩
      rw [h.fresh a ha f hown] at hold
      cases hold
    · exact ⟨Or.inr ⟨b, hmem b hb, hown⟩, fun hown' => hpair.1 b hb f hown' hown⟩

theorem Inv.step (hsized : Sized s0) (hhhdm : HhdmCovers hhdm s0)
    {st st' : State × List Allocation} (h : Inv hhdm s0 st) (hstep : Step hhdm st st') :
    Inv hhdm s0 st' := by
  cases hstep with
  | palloc s out pages hpages hindex => exact h.palloc hsized hhhdm hpages hindex
  | pfree s out a ha => exact h.pfree hhhdm ha

/-- Any run of the allocator keeps the invariant. -/
theorem Inv.run (hsized : Sized s0) (hhhdm : HhdmCovers hhdm s0)
    {st : State × List Allocation}
    (hrun : Relation.ReflTransGen (Step hhdm) (s0, []) st) : Inv hhdm s0 st := by
  induction hrun with
  | refl => exact inv_start hhdm s0
  | tail _ hstep ih => exact ih.step hsized hhhdm hstep

end Steps

/-- `palign` rounds up to whole bytes and then to whole pages. -/
theorem le_palign (frames : UInt64) (h : frames.toNat < 2 ^ 52) :
    frames.toNat ≤ 8 * (palign frames).toNat := by
  have h8 : (8 : UInt64).toNat = 8 := rfl
  have h1 : (1 : UInt64).toNat = 1 := rfl
  have hpage : pageSizeBytes.toNat = 4096 := rfl
  unfold palign
  dsimp only
  split_ifs with hbytes hpages hpages
  all_goals
    simp only [UInt64.lt_iff_toNat_lt, UInt64.toNat_mul, UInt64.toNat_add, UInt64.toNat_div,
      h8, h1, hpage] at *
    omega

theorem size_releaseEntry (bitmap : Array UInt8) (entry : MemmapEntry) :
    (releaseEntry bitmap entry).size = bitmap.size := by
  unfold releaseEntry
  split_ifs
  · exact size_foldl_bitmapReset _ _
  · rfl

theorem size_foldl_releaseEntry (entries : List MemmapEntry) (bitmap : Array UInt8) :
    (entries.foldl releaseEntry bitmap).size = bitmap.size := by
  induction entries generalizing bitmap with
  | nil => rfl
  | cons entry rest ih => rw [List.foldl_cons, ih, size_releaseEntry]

/-- Whatever the memory map, `init_pmm` leaves a bitmap with a bit for every frame. -/
theorem initPmm_sized {entries : List MemmapEntry} {s0 : State}
    (h : initPmm entries = some s0) : Sized s0 := by
  obtain ⟨reserved, _, rfl⟩ := Option.map_eq_some_iff.mp h
  have hframes : (maxAddress entries / pageSizeBytes).toNat < 2 ^ 52 := by
    have hlt := (maxAddress entries).toNat_lt
    have hpage : pageSizeBytes.toNat = 4096 := rfl
    rw [UInt64.toNat_div, hpage]
    omega
  refine ⟨?_, Nat.le_of_lt hframes⟩
  rw [size_foldl_releaseEntry, Array.size_replicate]
  exact le_palign _ hframes

theorem bitmapRead_frame (bitmap : Array UInt8) {f : Nat} (h : f < 2 ^ 52) :
    bitmapRead bitmap (UInt64.ofNat f * pageSizeBytes) = 1 ↔ frameBit bitmap f = true := by
  have haddr : (UInt64.ofNat f * pageSizeBytes).toNat / 4096 = f := by
    have hpage : pageSizeBytes.toNat = 4096 := rfl
    rw [UInt64.toNat_mul, UInt64.toNat_ofNat', hpage]
    omega
  have hbit : ∀ byte : UInt8, byte &&& 1 = 1 ↔ byte &&& 1 ≠ 0 := by
    intro byte
    have hmod : (byte &&& 1).toNat = byte.toNat % 2 := by
      rw [UInt8.toNat_and]
      exact Nat.and_one_is_mod _
    have h0 : (0 : UInt8).toNat = 0 := rfl
    have h1 : (1 : UInt8).toNat = 1 := rfl
    rw [ne_eq, ← UInt8.toNat_inj, ← UInt8.toNat_inj, hmod, h0, h1]
    omega
  have hzero := bitmapRead_eq_zero bitmap (UInt64.ofNat f * pageSizeBytes)
  rw [haddr] at hzero
  rw [← Bool.not_eq_false, ← hzero]
  exact hbit _

/-- No frame is handed out twice. In every run from the state `init_pmm` leaves, the
outstanding ranges are disjoint and below the bound, and a frame's bit is set exactly
if `init_pmm` left it set or an outstanding allocation owns the frame. -/
theorem outstanding_frames_disjoint (hhdm : UInt64) (entries : List MemmapEntry)
    (s0 s : State) (out : List Allocation) (hinit : initPmm entries = some s0)
    (hhhdm : HhdmCovers hhdm s0)
    (hrun : Relation.ReflTransGen (Step hhdm) (s0, []) (s, out)) :
    (out.Pairwise fun a b => ∀ f, Owns hhdm a f → ¬ Owns hhdm b f) ∧
      (∀ a ∈ out, a.1.toNat = firstFrame hhdm a * 4096 + hhdm.toNat ∧
        firstFrame hhdm a + a.2.toNat ≤ s.bitmapMaxEntries.toNat) ∧
      ∀ f < s.bitmapMaxEntries.toNat,
        (bitmapRead s.bitmap (UInt64.ofNat f * pageSizeBytes) = 1 ↔
          bitmapRead s0.bitmap (UInt64.ofNat f * pageSizeBytes) = 1 ∨
            ∃ a ∈ out, Owns hhdm a f) := by
  have hsized := initPmm_sized hinit
  have hinv := Inv.run hsized hhhdm hrun
  have hmax := hinv.maxEntries
  dsimp only at hmax
  refine ⟨hinv.disjoint, fun a ha => ?_, fun f hf => ?_⟩
  · obtain ⟨hbase, _, hbelow⟩ := hinv.placed a ha
    exact ⟨hbase, by rw [hmax]; exact hbelow⟩
  · have hframes := hsized.frames
    rw [← hmax] at hframes
    rw [bitmapRead_frame _ (by omega), bitmapRead_frame _ (by omega)]
    exact hinv.bits f

/-- One usable entry of sixteen pages. -/
def smallMap : List MemmapEntry := [⟨0, 0x10000, limineMemmapUsable⟩]

theorem outstanding_frames_disjoint_smallMap :
    ∃ s0, initPmm smallMap = some s0 ∧ s0.bitmapMaxEntries = 16 ∧
      ∀ f < 16, (bitmapRead (palloc 0xffff800000000000 s0 1).2.bitmap
          (UInt64.ofNat f * pageSizeBytes) = 1 ↔
        bitmapRead s0.bitmap (UInt64.ofNat f * pageSizeBytes) = 1 ∨
          ∃ a ∈ (if (palloc 0xffff800000000000 s0 1).1 = 0 then []
            else [((palloc 0xffff800000000000 s0 1).1, 1)]), Owns 0xffff800000000000 a f) := by
  obtain ⟨s0, hinit, hmax, hindex⟩ : ∃ s0, initPmm smallMap = some s0 ∧
      s0.bitmapMaxEntries = 16 ∧ s0.cachedIndex = 0 := ⟨_, rfl, rfl, rfl⟩
  have hcover : HhdmCovers 0xffff800000000000 s0 := by
    refine ⟨by decide, ?_⟩
    rw [hmax]
    decide
  have hstep : Step 0xffff800000000000 (s0, []) _ :=
    Step.palloc s0 [] 1 (by decide) (by rw [hindex]; decide)
  refine ⟨s0, hinit, hmax, fun f hf => ?_⟩
  have hresult := outstanding_frames_disjoint 0xffff800000000000 smallMap s0 _ _ hinit hcover
    (Relation.ReflTransGen.single hstep)
  refine hresult.2.2 f ?_
  have hkept := (Inv.run (initPmm_sized hinit) hcover
    (Relation.ReflTransGen.single hstep)).maxEntries
  dsimp only at hkept
  rw [hkept, hmax]
  exact hf

end Tellurium.Pmm
