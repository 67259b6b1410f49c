import Tellurium.Memory.PmmBoot

/-!
What the next-fit scan of the frame allocator finds (`kernel/memory/pmm.c`, `palloc`). The
loop runs while `cached_index + pages < bitmap_max_entries`, so it never looks at the run that
ends with the last frame. Every other free run is found, wherever the cursor stands.

The states considered are those any sequence of calls can reach, whatever the arguments: the
size of the bitmap and the number of frames never change, and the cursor stays below it.
-/

namespace Tellurium.Pmm

/-- `pages` consecutive clear bits from frame `start` on. -/
def ClearRun (s : State) (start pages : Nat) : Prop :=
  ∀ i < pages, frameBit s.bitmap (start + i) = false

/-- A free run within the frames of the bitmap. -/
def FreeRun (s : State) (start pages : Nat) : Prop :=
  start + pages ≤ s.bitmapMaxEntries.toNat ∧ ClearRun s start pages

/-- The positions `cached_index` can have. -/
def State.CursorOk (s : State) : Prop :=
  s.cachedIndex.toNat = 0 ∨ s.cachedIndex.toNat < s.bitmapMaxEntries.toNat

inductive Call where
  | palloc (pages : UInt64)
  | pfree (base pages : UInt64)

def Call.perform (hhdm : UInt64) (s : State) : Call → State
  | .palloc pages => (Pmm.palloc hhdm s pages).2
  | .pfree base pages => Pmm.pfree hhdm s base pages

/-- Any sequence of calls, whatever the arguments. -/
def runCalls (hhdm : UInt64) (s : State) (calls : List Call) : State :=
  calls.foldl (Call.perform hhdm) s

def State.withCursor (s : State) (index : UInt64) : State := {s with cachedIndex := index}

/-- A state the allocator can be in: the frames and the storage are those of `s0`. -/
structure Reached (s0 s : State) : Prop where
  size : s.bitmap.size = s0.bitmap.size
  maxEntries : s.bitmapMaxEntries = s0.bitmapMaxEntries
  cursor : s.CursorOk

theorem Took.ne_null {hhdm pages ret : UInt64} {s s' : State} {start : Nat}
    (h : Took hhdm s pages ret s' start) (hhhdm : HhdmCovers hhdm s) : ret ≠ 0 := by
  intro hzero
  have haddr := h.address
  have hpos := hhhdm.pos
  rw [hzero, show (0 : UInt64).toNat = 0 from rfl] at haddr
  omega

section Scan

variable {hhdm pages : UInt64} {s : State}

/-- Where a scan stops: behind the last run that ends before the last frame, or at a free
one. -/
theorem pallocInternal_stops (s : State) : ∃ index,
    (pallocInternal hhdm s pages = (0, {s with cachedIndex := index}) ∧
        ¬ index + pages < s.bitmapMaxEntries) ∨
      (pallocInternal hhdm s pages =
          (index * pageSizeBytes + hhdm, takeFrames {s with cachedIndex := index} pages) ∧
        index + pages < s.bitmapMaxEntries ∧ bitmapAvailable s.bitmap index pages = true) := by
  induction s using pallocInternal.induct pages with
  | case1 s h havail =>
      rw [pallocInternal, dif_pos h, if_pos havail]
      exact ⟨s.cachedIndex, Or.inr ⟨rfl, h, havail⟩⟩
  | case2 s h havail ih =>
      rw [pallocInternal, dif_pos h, if_neg havail]
      exact ih
  | case3 s h =>
      rw [pallocInternal, dif_neg h]
      exact ⟨s.cachedIndex, Or.inl ⟨rfl, h⟩⟩

/-- The scan changes neither the size of the bitmap nor the number of frames. -/
theorem pallocInternal_frame (s : State) :
    (pallocInternal hhdm s pages).2.bitmap.size = s.bitmap.size ∧
      (pallocInternal hhdm s pages).2.bitmapMaxEntries = s.bitmapMaxEntries := by
  obtain ⟨index, ⟨hstop, -⟩ | ⟨hstop, -⟩⟩ := @pallocInternal_stops hhdm pages s
  · rw [hstop]
    exact ⟨rfl, rfl⟩
  · rw [hstop]
    exact ⟨size_foldl_bitmapSet _ _, rfl⟩

/-- The loop moves the cursor on only while the run still ends before the last frame. -/
theorem pallocInternal_cursor (s : State) (hframes : s.bitmapMaxEntries.toNat ≤ 2 ^ 52)
    (hstart : s.cachedIndex.toNat = 0 ∨
      1 ≤ pages.toNat ∧ s.cachedIndex.toNat + pages.toNat ≤ s.bitmapMaxEntries.toNat) :
    (pallocInternal hhdm s pages).2.CursorOk := by
  induction s using pallocInternal.induct pages with
  | case1 s h havail =>
      rw [pallocInternal, dif_pos h, if_pos havail]
      exact Or.inr (UInt64.lt_iff_toNat_lt.mp h)
  | case2 s h havail ih =>
      rw [pallocInternal, dif_pos h, if_neg havail]
      apply ih hframes
      have hlt := UInt64.lt_iff_toNat_lt.mp h
      have hpages := pages.toNat_lt
      have hone : (1 : UInt64).toNat = 1 := rfl
      have hsome : pages.toNat ≠ 0 := by
        intro hzero
        apply havail
        rw [bitmapAvailable, hzero]
        rfl
      rw [UInt64.toNat_add] at hlt
      dsimp only
      rw [UInt64.toNat_add, hone]
      omega
  | case3 s h =>
      have hcursor : s.CursorOk := hstart.imp_right fun hsum => by omega
      rwa [pallocInternal, dif_neg h]

/-- A scan that hands out nothing has met no free run that ends before the last frame. -/
theorem pallocInternal_zero (s : State) (hsized : Sized s) (hhhdm : HhdmCovers hhdm s)
    (hindex : s.cachedIndex.toNat + pages.toNat < 2 ^ 64)
    (hzero : (pallocInternal hhdm s pages).1 = 0) {start : Nat}
    (hfrom : s.cachedIndex.toNat ≤ start)
    (hend : start + pages.toNat < s.bitmapMaxEntries.toNat) : ¬ ClearRun s start pages.toNat := by
  induction s using pallocInternal.induct pages with
  | case1 s h havail =>
      rw [pallocInternal, dif_pos h, if_pos havail] at hzero
      have hlt := UInt64.lt_iff_toNat_lt.mp h
      rw [UInt64.toNat_add, Nat.mod_eq_of_lt hindex] at hlt
      exact absurd hzero (took_takeFrames hsized hhhdm hlt havail |>.ne_null hhhdm)
  | case2 s h havail ih =>
      rw [pallocInternal, dif_pos h, if_neg havail] at hzero
      have hframes := hsized.frames
      have hnext : (s.cachedIndex + 1).toNat = s.cachedIndex.toNat + 1 := by
        rw [UInt64.toNat_add]
        exact Nat.mod_eq_of_lt (by simp; omega)
      rcases Nat.eq_or_lt_of_le hfrom with heq | hlt
      · rw [bitmapAvailable_iff (by omega), heq] at havail
        exact havail
      · exact ih ⟨hsized.bits, hsized.frames⟩ ⟨hhhdm.pos, hhhdm.room⟩ (by dsimp only; omega)
          hzero (by dsimp only; omega) hend
  | case3 s h =>
      have hsum : ¬ (s.cachedIndex + pages).toNat < s.bitmapMaxEntries.toNat :=
        fun hlt => h (UInt64.lt_iff_toNat_lt.mpr hlt)
      rw [UInt64.toNat_add, Nat.mod_eq_of_lt hindex] at hsum
      omega

end Scan

section Wrapping

variable {hhdm pages : UInt64} {bitmap : Array UInt8}

/-- A request of `2 ^ 52` frames or more reads every bit, from wherever it starts. -/
theorem bitmapAvailable_all (hpages : 2 ^ 52 ≤ pages.toNat) (index : UInt64) :
    bitmapAvailable bitmap index pages = true ↔ ∀ f < 2 ^ 52, frameBit bitmap f = false := by
  have haddr : ∀ i, ((index + UInt64.ofNat i) * pageSizeBytes).toNat / 4096 =
      (index.toNat + i) % 2 ^ 52 := by
    intro i
    have hpage : pageSizeBytes.toNat = 4096 := rfl
    rw [UInt64.toNat_mul, UInt64.toNat_add, UInt64.toNat_ofNat', hpage]
    omega
  simp only [bitmapAvailable, List.all_eq_true, List.mem_range, beq_iff_eq, bitmapRead_eq_zero,
    haddr]
  constructor
  · intro hall f hf
    have hbit := hall ((f + 2 ^ 52 - index.toNat % 2 ^ 52) % 2 ^ 52) (by omega)
    rwa [show (index.toNat + (f + 2 ^ 52 - index.toNat % 2 ^ 52) % 2 ^ 52) % 2 ^ 52 = f by
      omega] at hbit
  · exact fun hall i _ => hall _ (Nat.mod_lt _ (by decide))

theorem pallocInternal_unavailable (s : State)
    (hnone : ∀ index, bitmapAvailable s.bitmap index pages = false) :
    (pallocInternal hhdm s pages).1 = 0 ∧ (pallocInternal hhdm s pages).2.bitmap = s.bitmap := by
  obtain ⟨index, ⟨hstop, -⟩ | ⟨-, -, havail⟩⟩ := @pallocInternal_stops hhdm pages s
  · rw [hstop]
    exact ⟨rfl, rfl⟩
  · rw [hnone] at havail
    cases havail

end Wrapping

section Calls

variable {hhdm pages : UInt64} {s0 s : State}

theorem Reached.sized (h : Reached s0 s) (hsized : Sized s0) : Sized s :=
  ⟨by rw [h.maxEntries, h.size]; exact hsized.bits, by rw [h.maxEntries]; exact hsized.frames⟩

theorem Reached.covers (h : Reached s0 s) (hhhdm : HhdmCovers hhdm s0) : HhdmCovers hhdm s :=
  ⟨hhhdm.pos, by rw [h.maxEntries]; exact hhhdm.room⟩

theorem palloc_frame (s : State) :
    (palloc hhdm s pages).2.bitmap.size = s.bitmap.size ∧
      (palloc hhdm s pages).2.bitmapMaxEntries = s.bitmapMaxEntries := by
  have hfirst := @pallocInternal_frame hhdm pages s
  unfold palloc
  dsimp only
  split_ifs
  · have hsecond := @pallocInternal_frame hhdm pages
      {(pallocInternal hhdm s pages).2 with cachedIndex := 0}
    exact ⟨hsecond.1.trans hfirst.1, hsecond.2.trans hfirst.2⟩
  · exact hfirst

/-- A scan that hands out a run leaves the cursor behind it. -/
theorem pallocInternal_success (s : State) (h : (pallocInternal hhdm s pages).1 ≠ 0) :
    (pallocInternal hhdm s pages).2.CursorOk := by
  obtain ⟨index, ⟨hstop, -⟩ | ⟨hstop, hlt, -⟩⟩ := @pallocInternal_stops hhdm pages s
  · rw [hstop] at h
    exact absurd rfl h
  · rw [hstop]
    exact Or.inr (UInt64.lt_iff_toNat_lt.mp hlt)

theorem palloc_cursor (s : State) (hframes : s.bitmapMaxEntries.toNat ≤ 2 ^ 52) :
    (palloc hhdm s pages).2.CursorOk := by
  have hfirst := (@pallocInternal_frame hhdm pages s).2
  unfold palloc
  dsimp only
  split_ifs with hzero
  · apply pallocInternal_cursor
    · dsimp only
      rw [hfirst]
      exact hframes
    · exact Or.inl rfl
  · exact pallocInternal_success s hzero

theorem Reached.perform (h : Reached s0 s) (hsized : Sized s0) (call : Call) :
    Reached s0 (call.perform hhdm s) := by
  cases call with
  | palloc pages =>
      obtain ⟨hsize, hmax⟩ := @palloc_frame hhdm pages s
      exact ⟨hsize.trans h.size, hmax.trans h.maxEntries, palloc_cursor s (h.sized hsized).frames⟩
  | pfree base pages => exact ⟨(size_foldl_bitmapReset _ _).trans h.size, h.maxEntries, h.cursor⟩

theorem Reached.run (hsized : Sized s0) (calls : List Call) {s : State} (h : Reached s0 s) :
    Reached s0 (runCalls hhdm s calls) := by
  induction calls generalizing s with
  | nil => exact h
  | cons call rest ih => exact ih (h.perform hsized call)

/-- A call that hands out nothing has met no free run that ends before the last frame. -/
theorem palloc_zero (hsized : Sized s) (hhhdm : HhdmCovers hhdm s) (hcursor : s.CursorOk)
    (hzero : (palloc hhdm s pages).1 = 0) {start : Nat}
    (hend : start + pages.toNat < s.bitmapMaxEntries.toNat) : ¬ ClearRun s start pages.toNat := by
  have hframes := hsized.frames
  unfold State.CursorOk at hcursor
  have hsum : s.cachedIndex.toNat + pages.toNat < 2 ^ 64 := by omega
  unfold palloc at hzero
  dsimp only at hzero
  rcases pallocInternal_spec s hsized hhhdm hsum with
    ⟨hfirst, hbitmap, hmax⟩ | ⟨taken, htook⟩
  · -- the second scan starts from frame zero and sees every run
    rw [if_pos hfirst, hbitmap, hmax] at hzero
    have hindex : (0 : UInt64).toNat + pages.toNat < 2 ^ 64 := by
      rw [show (0 : UInt64).toNat = 0 from rfl]
      omega
    exact pallocInternal_zero {s with cachedIndex := 0} ⟨hsized.bits, hsized.frames⟩
      ⟨hhhdm.pos, hhhdm.room⟩ hindex hzero (Nat.zero_le start) hend
  · rw [if_neg (htook.ne_null hhhdm)] at hzero
    exact absurd hzero (htook.ne_null hhhdm)

/-- A request of `2 ^ 52` frames or more finds all bits clear at the cursor or finds nothing. -/
theorem palloc_huge (hsized : Sized s) (hhhdm : HhdmCovers hhdm s) (hcursor : s.CursorOk)
    (hpages : 2 ^ 52 ≤ pages.toNat) (hzero : (palloc hhdm s pages).1 = 0) :
    (palloc hhdm s pages).2.bitmap = s.bitmap := by
  have hframes := hsized.frames
  have hroom := hhhdm.room
  have hpos := hhhdm.pos
  unfold State.CursorOk at hcursor
  by_cases hall : ∀ f < 2 ^ 52, frameBit s.bitmap f = false
  · have havail := (bitmapAvailable_all hpages s.cachedIndex).mpr hall
    unfold palloc at hzero ⊢
    dsimp only at hzero ⊢
    rw [pallocInternal] at hzero ⊢
    by_cases hlt : s.cachedIndex + pages < s.bitmapMaxEntries
    · -- the address handed out is not null
      have haddr : (s.cachedIndex * pageSizeBytes + hhdm).toNat =
          s.cachedIndex.toNat * 4096 + hhdm.toNat := by
        have hpage : pageSizeBytes.toNat = 4096 := rfl
        have hsum : s.cachedIndex.toNat * 4096 + hhdm.toNat < 2 ^ 64 := by
          have := hhdm.toNat_lt
          omega
        rw [UInt64.toNat_add, UInt64.toNat_mul, hpage]
        omega
      have hne : s.cachedIndex * pageSizeBytes + hhdm ≠ 0 := by
        intro heq
        rw [heq, show (0 : UInt64).toNat = 0 from rfl] at haddr
        omega
      rw [dif_pos hlt, if_pos havail, if_neg hne] at hzero
      exact absurd hzero hne
    · rw [dif_neg hlt, if_pos rfl, pallocInternal, dif_neg]
      rw [UInt64.lt_iff_toNat_lt, UInt64.toNat_add]
      dsimp only
      rw [show (0 : UInt64).toNat = 0 from rfl]
      have := pages.toNat_lt
      omega
  · have hnone : ∀ index, bitmapAvailable s.bitmap index pages = false :=
      fun index => Bool.eq_false_iff.mpr fun havail =>
        hall ((bitmapAvailable_all hpages index).mp havail)
    obtain ⟨hfirst, hbitmap⟩ := @pallocInternal_unavailable hhdm pages s hnone
    unfold palloc
    dsimp only
    rw [if_pos hfirst]
    rw [← hbitmap] at hnone
    exact (@pallocInternal_unavailable hhdm pages
      {(pallocInternal hhdm s pages).2 with cachedIndex := 0} hnone).2.trans hbitmap

/-- A call that hands out nothing leaves the bitmap alone. -/
theorem palloc_unchanged (hsized : Sized s) (hhhdm : HhdmCovers hhdm s) (hcursor : s.CursorOk)
    (hzero : (palloc hhdm s pages).1 = 0) : (palloc hhdm s pages).2.bitmap = s.bitmap := by
  rcases Nat.lt_or_ge pages.toNat (2 ^ 52) with hlt | hge
  · have hframes := hsized.frames
    unfold State.CursorOk at hcursor
    have hsum : s.cachedIndex.toNat + pages.toNat < 2 ^ 64 := by omega
    rcases palloc_spec s hsized hhhdm hsum with ⟨-, hbitmap, -⟩ | ⟨hret, -⟩
    · exact hbitmap
    · exact absurd hzero hret
  · exact palloc_huge hsized hhhdm hcursor hge hzero

/-- What a call owes its caller: it hands out nothing only if no run is free, and then
changes nothing. -/
def Complete (hhdm : UInt64) (s : State) (pages : UInt64) : Prop :=
  (palloc hhdm s pages).1 = 0 →
    (¬ ∃ start, FreeRun s start pages.toNat) ∧ (palloc hhdm s pages).2.bitmap = s.bitmap

theorem complete_iff (hsized : Sized s) (hhhdm : HhdmCovers hhdm s) (hcursor : s.CursorOk) :
    Complete hhdm s pages ↔
      (∃ start, start + pages.toNat < s.bitmapMaxEntries.toNat ∧ ClearRun s start pages.toNat) ∨
        ¬ ∃ start, FreeRun s start pages.toNat := by
  constructor
  · intro hcomplete
    by_cases hfree : ∃ start, FreeRun s start pages.toNat
    · -- some run is free, so the call hands one out, and that one ends before the last frame
      obtain ⟨start, hend, hclear⟩ := hfree
      have hframes := hsized.frames
      have hindex : s.cachedIndex.toNat + pages.toNat < 2 ^ 64 := by
        unfold State.CursorOk at hcursor
        omega
      rcases palloc_spec s hsized hhhdm hindex with ⟨hzero, -⟩ | ⟨-, taken, htook⟩
      · exact absurd ⟨start, hend, hclear⟩ (hcomplete hzero).1
      · exact Or.inl ⟨taken, htook.below, htook.clear⟩
    · exact Or.inr hfree
  · intro hcond hzero
    refine ⟨hcond.resolve_left ?_, palloc_unchanged hsized hhhdm hcursor hzero⟩
    rintro ⟨start, hend, hclear⟩
    exact palloc_zero hsized hhhdm hcursor hzero hend hclear

end Calls

/-- In every state the allocator can reach, and for every position of the cursor, `palloc` is
complete exactly if a free run ends before the last frame or there is none at all. -/
theorem palloc_complete_iff (hhdm : UInt64) (entries : List MemmapEntry) (s0 : State)
    (calls : List Call) (hinit : initPmm entries = some s0) (hhhdm : HhdmCovers hhdm s0) :
    (runCalls hhdm s0 calls).CursorOk ∧
      ∀ index pages : UInt64, ((runCalls hhdm s0 calls).withCursor index).CursorOk →
        1 ≤ pages.toNat →
        (Complete hhdm ((runCalls hhdm s0 calls).withCursor index) pages ↔
          (∃ start, start + pages.toNat < (runCalls hhdm s0 calls).bitmapMaxEntries.toNat ∧
            ClearRun (runCalls hhdm s0 calls) start pages.toNat) ∨
          ¬ ∃ start, FreeRun (runCalls hhdm s0 calls) start pages.toNat) := by
  have hsized := initPmm_sized hinit
  have hstart : Reached s0 s0 := by
    refine ⟨rfl, rfl, Or.inl ?_⟩
    obtain ⟨reserved, -, rfl⟩ := Option.map_eq_some_iff.mp hinit
    rfl
  have hreach : Reached s0 (runCalls hhdm s0 calls) := Reached.run hsized calls hstart
  refine ⟨hreach.cursor, fun index pages hcursor _ => ?_⟩
  have hmoved : Reached s0 ((runCalls hhdm s0 calls).withCursor index) :=
    ⟨hreach.size, hreach.maxEntries, hcursor⟩
  exact complete_iff (hmoved.sized hsized) (hmoved.covers hhhdm) hcursor

/-- The state `init_pmm` leaves for sixteen frames: the first one holds the bitmap. -/
theorem smallMap_init : ∃ s0, initPmm smallMap = some s0 ∧ s0.bitmapMaxEntries = 16 ∧
    s0.cachedIndex = 0 ∧ ∀ f < 16, frameBit s0.bitmap f = false ↔ f ≠ 0 := by
  have hmap : WellFormedMap smallMap := ⟨by decide, by decide, by decide, by decide⟩
  obtain ⟨storage, hstorage, hboot⟩ := bootBitmap_of_reserve hmap rfl
  have hzero : storage = 0 := (Option.some.inj hstorage).symm
  have hsize : (bitmapSizeAligned smallMap).toNat = 4096 := rfl
  refine ⟨_, initPmm_eq rfl, rfl, rfl, fun f hf => ?_⟩
  rw [hboot.free f hf, hzero, hsize, show (0 : UInt64).toNat = 0 from rfl]
  simp only [UsableFrame, smallMap, List.mem_singleton, exists_eq_left, MemmapEntry.limit,
    true_and]
  have hbase : (0 : UInt64).toNat = 0 := rfl
  have hlength : (0x10000 : UInt64).toNat = 0x10000 := rfl
  omega

theorem palloc_complete_iff_smallMap :
    ∃ s0, initPmm smallMap = some s0 ∧ Complete 0xffff800000000000 (s0.withCursor 3) 1 := by
  obtain ⟨s0, hinit, hmax, -, hbits⟩ := smallMap_init
  have hcover : HhdmCovers 0xffff800000000000 s0 := by
    refine ⟨by decide, ?_⟩
    rw [hmax]
    decide
  have hcursor : (s0.withCursor 3).CursorOk := by
    refine Or.inr ?_
    change (3 : UInt64).toNat < s0.bitmapMaxEntries.toNat
    rw [hmax]
    decide
  refine ⟨s0, hinit, ((palloc_complete_iff 0xffff800000000000 smallMap s0 [] hinit hcover).2 3 1
    hcursor (by decide)).mpr (Or.inl ⟨1, ?_, ?_⟩)⟩
  · change 1 + 1 < s0.bitmapMaxEntries.toNat
    rw [hmax]
    decide
  · intro i hi
    have hi : i < 1 := hi
    change frameBit s0.bitmap (1 + i) = false
    exact (hbits _ (by omega)).mpr (by omega)

/-- The fifteen frames behind the bitmap are free, and `palloc` does not find them. -/
theorem palloc_misses_last_run :
    ∃ s0, initPmm smallMap = some s0 ∧ FreeRun s0 1 15 ∧ ¬ Complete 0xffff800000000000 s0 15 := by
  obtain ⟨s0, hinit, hmax, hindex, hbits⟩ := smallMap_init
  have hcover : HhdmCovers 0xffff800000000000 s0 := by
    refine ⟨by decide, ?_⟩
    rw [hmax]
    decide
  have hpages : (15 : UInt64).toNat = 15 := rfl
  have hfree : FreeRun s0 1 15 := by
    rw [FreeRun, hmax]
    refine ⟨by decide, fun i hi => ?_⟩
    exact (hbits _ (by omega)).mpr (by omega)
  refine ⟨s0, hinit, hfree, fun hcomplete => ?_⟩
  rcases (complete_iff (initPmm_sized hinit) hcover (Or.inl (by rw [hindex]; rfl))).mp hcomplete
    with ⟨start, hend, hclear⟩ | hnone
  · -- a run that ends before the last frame would contain frame zero
    rw [hmax, hpages] at hend
    have hzero : start = 0 := by
      have : (16 : UInt64).toNat = 16 := rfl
      omega
    have hbit := hclear 0 (by decide)
    rw [hzero, hbits _ (by decide)] at hbit
    exact hbit rfl
  · exact hnone ⟨1, hfree⟩

end Tellurium.Pmm
