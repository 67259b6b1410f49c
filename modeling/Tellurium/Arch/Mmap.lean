import Tellurium.Apps.ElfImage
import Tellurium.Arch.Process
import Tellurium.Memory.Realloc
import Tellurium.Memory.TableFrames

/-!
What `syscall_mmap` (`kernel/syscalls/mmap.c`) gives a process. The section comes from `kmalloc`,
here with the kernel heap it allocates from, and is mapped at its physical address. Chunks of the
slabs are cleared when they are handed out, but the pages of a large block are not, and the
rounded length wraps around at the top, so that a chunk is handed out where pages are due. A
page table that cannot be allocated stops the call.
-/

namespace Tellurium.Process

open Tellurium.Lib Tellurium.Vmm Tellurium.Elf

/-- `syscall_mmap` together with the `kmalloc` that it calls. -/
def syscallMmapHeap (fuel hhdm pml4Base : Nat) (palloc : Nat → Nat) (caches : List Nat) (len : Nat)
    (h : Slab.Heap) (supply : List Nat) : Option (Nat × Slab.Heap × List Nat) :=
  (Slab.slabAlloc fuel palloc h.mem caches (mmapBytes len)).bind fun r =>
    (syscallMmap hhdm pml4Base len r.ret (r.mem, supply)).map fun q =>
      (q.1, {h.afterAlloc (mmapBytes len) r with mem := q.2.1}, q.2.2)

/-- `(void *)-1`. -/
def mapFailed : Nat := 2 ^ 64 - 1

/-- The page of `v` is present, writable, not executable and the user's; its frame is in nobody
else's use, and it reads as zero. -/
def PageGranted (hhdm : Nat) (used : Span → Prop) (m : Mem) (root : Frame) (v : Nat) : Prop :=
  ∃ entry, pagesOf hhdm m root (page v) = some entry ∧ entry &&& userFlags = userFlags ∧
    (∀ s, used s → Span.Disjoint ⟨add64 (entry &&& pmlPhysicalAddress) hhdm, pageSize⟩ s) ∧
    ∀ t < pageSize, m (add64 (entry &&& pmlPhysicalAddress) hhdm + t) = 0

/-- What a successful call owes the process. -/
structure Granted (hhdm : Nat) (used : Span → Prop) (m : Mem) (root : Frame) (len addr : Nat) :
    Prop where
  aligned : pageSize ∣ addr
  pages : ∀ v, addr ≤ v → v < addr + len → PageGranted hhdm used m root v

/-- A call: `used` are all outstanding allocations, among them the frames of the heap, the tables of
the process and the frames for new tables; `palloc` answers with other pages of the direct map. -/
structure Calling (hhdm : Nat) (cs : List Slab.CacheInfo) (slabs : List Slab.SlabInfo)
    (used : Span → Prop) (root : Frame) (spare : List Frame) (palloc : Nat → Nat) (h : Slab.Heap) :
    Prop where
  hhdm_lt : hhdm < 2 ^ 64
  hhdm_aligned : pageSize ∣ hhdm
  heap : Slab.HeapInv cs slabs h
  tables : TablesOk hhdm h.mem root spare
  heap_used : ∀ f ∈ h.frames, used f.span
  tables_used : ∀ e, OwnTable hhdm h.mem root spare e → used ⟨tableBase hhdm e, pageSize⟩
  aligned : ∀ n, palloc n ≠ 0 → pageSize ∣ palloc n
  direct : ∀ n, palloc n ≠ 0 → hhdm ≤ palloc n ∧ palloc n - hhdm + pageSize * n ≤ 2 ^ 47
  below : ∀ n, palloc n ≠ 0 → palloc n + pageSize * n < 2 ^ 64
  fresh : ∀ n, palloc n ≠ 0 → ∀ s, used s → Span.Disjoint ⟨palloc n, pageSize * n⟩ s

/-- `kmalloc` returns null. -/
def KmallocFails (palloc : Nat → Nat) (m : Mem) (caches : List Nat) (size : Nat) : Prop :=
  ∃ fuel r, Slab.slabAlloc fuel palloc m caches size = some r ∧ r.ret = 0

/-- The call returns, and what it returns is -1 or memory that it owes the process. -/
def MeetsContract (hhdm : Nat) (used : Span → Prop) (root : Frame) (palloc : Nat → Nat)
    (caches : List Nat) (len : Nat) (h : Slab.Heap) (spare : List Frame) : Prop :=
  ∃ fuel ret h' supply', syscallMmapHeap fuel hhdm (tableBase hhdm root) palloc caches len h
      (spare.map (tableBase hhdm)) = some (ret, h', supply') ∧
    (ret = mapFailed ∨ Granted hhdm used h'.mem root len ret)

/-- The pages that `palloc` answers hold zeros already. -/
def PagesZero (palloc : Nat → Nat) (m : Mem) (len : Nat) : Prop :=
  ∀ k < mmapBytes len, m (palloc (Slab.numPages (mmapBytes len) + 1) + pageSize + k) = 0

/-- There is a frame for each page table that the pages of the block still miss. -/
def TablesFit (hhdm : Nat) (palloc : Nat → Nat) (m : Mem) (root : Frame) (spare : List Frame)
    (len : Nat) : Prop :=
  (missing hhdm m root (tablesFor (palloc (Slab.numPages (mmapBytes len) + 1) + pageSize - hhdm)
    (Slab.numPages (mmapBytes len)))).card ≤ spare.length

section Length

/-- A length whose rounding up to pages does not wrap around. -/
def Roundable (len : Nat) : Prop := 0 < len ∧ len ≤ 2 ^ 64 - 4096

theorem mmapBytes_count (len : Nat) : mmapBytes len = pageCount len * pageSize % 2 ^ 64 := by
  rw [mmapBytes, Phdr.numPages_eq]

theorem mmapBytes_eq {len : Nat} (hlen : Roundable len) :
    ∃ n, 0 < n ∧ mmapBytes len = pageSize * n ∧ Slab.numPages (mmapBytes len) = n ∧
      len ≤ pageSize * n ∧ pageSize * n < len + pageSize := by
  obtain ⟨hpos, hmax⟩ := hlen
  have hbytes : mmapBytes len = pageSize * pageCount len := by
    rw [mmapBytes_count]
    simp only [pageCount, pageSize]
    omega
  refine ⟨pageCount len, ?_, hbytes, ?_, ?_, ?_⟩
  · simp only [pageCount, pageSize]
    omega
  · rw [hbytes]
    simp [Slab.numPages, Slab.pageSizeBytes, pageSize]
  · simp only [pageCount, pageSize]
    omega
  · simp only [pageCount, pageSize]
    omega

theorem mmapBytes_wraps {len : Nat} (hlt : len < 2 ^ 64) (hlen : ¬ Roundable len) :
    mmapBytes len = 0 := by
  rw [Roundable] at hlen
  rw [mmapBytes_count]
  simp only [pageCount, pageSize]
  omega

end Length

section Mmap

variable {hhdm fuel len ret : Nat} {cs : List Slab.CacheInfo} {slabs : List Slab.SlabInfo}
  {used : Span → Prop} {root : Frame} {spare : List Frame} {palloc : Nat → Nat} {h h' : Slab.Heap}
  {supply' : List Nat} {r : Slab.Result}

theorem Calling.pallocOk (hcall : Calling hhdm cs slabs used root spare palloc h) :
    Slab.PallocOk h.frames palloc := by
  intro n hn
  exact ⟨hcall.aligned n hn, hn, hcall.below n hn,
    fun f hf => hcall.fresh n hn f.span (hcall.heap_used f hf)⟩

/-- A chunk is no page. -/
theorem Calling.chunk_ret (hcall : Calling hhdm cs slabs used root spare palloc h)
    (halloc : Slab.slabAlloc fuel palloc h.mem (cs.map Slab.CacheInfo.addr) 0 = some r)
    (hne : r.ret ≠ 0) : ¬ pageSize ∣ r.ret ∧ 8 ∣ r.ret := by
  have hinv := hcall.heap
  rw [Slab.slabAlloc] at halloc
  cases hidx : Slab.getCacheIndex h.mem (cs.map Slab.CacheInfo.addr) 0 with
  | none =>
      have hbig := (Slab.getCacheIndex_none hinv.geo hinv.ok hidx).1
      exact absurd hbig (Nat.not_lt_zero _)
  | some i =>
      simp only [hidx] at halloc
      obtain ⟨c, hc, haddr, -, -⟩ := Slab.getCacheIndex_some hinv.geo hinv.ok hidx
      rw [haddr] at halloc
      obtain hnull | ⟨sl, hbase, hchunk⟩ := Slab.slabAllocChunk_chunk hinv.geo hinv.ok hinv.slabs_ok
        hinv.live_in_frames hc (hcall.pallocOk 1) halloc
      · exact absurd hnull hne
      · have hbounds := Slab.Layout.chunk_bounds hchunk
        have hmin := sl.cache.layout.min
        obtain ⟨i, -, hi⟩ := Slab.Layout.mem_chunks.mp hchunk
        have height : 8 ∣ sl.cache.layout.size * (sl.cache.layout.header + i) :=
          Dvd.dvd.mul_right sl.cache.layout.aligned _
        rw [Slab.Layout.chunk] at hi
        simp only [pageSize]
        omega

/-- The pages of a large block. -/
theorem Calling.slabAlloc_pages (hcall : Calling hhdm cs slabs used root spare palloc h) {n : Nat}
    (hn : 0 < n) (halloc : Slab.slabAlloc fuel palloc h.mem (cs.map Slab.CacheInfo.addr)
      (pageSize * n) = some r) (hne : r.ret ≠ 0) :
    palloc (n + 1) ≠ 0 ∧ r.ret = palloc (n + 1) + pageSize ∧
      r.mem = h.mem.write64 (palloc (n + 1)) n := by
  have hinv := hcall.heap
  have hpages : Slab.numPages (pageSize * n) = n := by
    simp [Slab.numPages, Slab.pageSizeBytes, pageSize]
  cases hidx : Slab.getCacheIndex h.mem (cs.map Slab.CacheInfo.addr) (pageSize * n) with
  | some i =>
      obtain ⟨c, -, -, -, hsmall⟩ := Slab.getCacheIndex_some hinv.geo hinv.ok hidx
      simp only [Slab.slabMaxChunkSize, pageSize] at hsmall
      omega
  | none =>
      rw [Slab.slabAlloc] at halloc
      simp only [hidx, hpages] at halloc
      split_ifs at halloc with hnull
      · cases halloc
        exact absurd rfl hne
      · cases halloc
        exact ⟨hnull, rfl, rfl⟩

/-- Where the process sees the block. -/
theorem Calling.block_addr (hcall : Calling hhdm cs slabs used root spare palloc h) {n : Nat}
    (hne : palloc (n + 1) ≠ 0) :
    sub64 (palloc (n + 1) + pageSize) hhdm = palloc (n + 1) + pageSize - hhdm ∧
      sub64 (palloc (n + 1) + pageSize) hhdm ≠ mapFailed := by
  obtain ⟨habove, hdirect⟩ := hcall.direct _ hne
  have hbelow := hcall.below _ hne
  rw [mapFailed, sub64]
  simp only [pageSize] at hdirect hbelow ⊢
  omega

theorem or_flags (x : Nat) : (x ||| userFlags) &&& userFlags = userFlags := by
  apply Nat.eq_of_testBit_eq
  intro i
  rw [Nat.testBit_and, Nat.testBit_or]
  cases userFlags.testBit i with
  | false => exact Bool.and_false _
  | true => simp

/-- The size word of the block is in no table. -/
theorem Calling.metadata_agree (hcall : Calling hhdm cs slabs used root spare palloc h) {n : Nat}
    (hne : palloc (n + 1) ≠ 0) :
    ∀ e, Radix.Reaches nextFrame (view hhdm h.mem) root 3 e →
      ∀ x, InFrame hhdm e x → h.mem.write64 (palloc (n + 1)) n x = h.mem x := by
  intro e he x hx
  have hdisjoint := hcall.fresh _ hne _ (hcall.tables_used e (.inl he))
  simp only [InFrame, Span.Has, Span.Disjoint, pageSize] at hx hdisjoint
  exact Mem.writeN_out _ _ (by omega)

theorem Calling.block_end (hcall : Calling hhdm cs slabs used root spare palloc h) {n a : Nat}
    (hne : palloc (n + 1) ≠ 0) (ha : a = palloc (n + 1) + pageSize - hhdm) :
    a + pageSize * n ≤ 2 ^ 64 - 4096 ∧ a < 2 ^ 64 := by
  obtain ⟨habove, hdirect⟩ := hcall.direct _ hne
  simp only [pageSize] at ha hdirect ⊢
  omega

/-- The block is mapped at its physical address, and its bytes stay what they were. -/
theorem Calling.mapped (hcall : Calling hhdm cs slabs used root spare palloc h) {n : Nat}
    (hne : palloc (n + 1) ≠ 0) {a : Nat} (ha : a = palloc (n + 1) + pageSize - hhdm)
    {q : Mem × List Nat}
    (hmap : mapSection hhdm (h.mem.write64 (palloc (n + 1)) n, spare.map (tableBase hhdm))
      (tableBase hhdm root) a a (pageSize * n) userFlags = some q) :
    (∀ k < n, pagesOf hhdm q.1 root (page (a + pageSize * k)) =
        some (a + pageSize * k ||| userFlags)) ∧
      ∀ x, Span.Has ⟨palloc (n + 1) + pageSize, pageSize * n⟩ x → q.1 x = h.mem x := by
  obtain ⟨habove, hdirect⟩ := hcall.direct _ hne
  have haligned := hcall.aligned _ hne
  have hhhdm := hcall.hhdm_aligned
  have hapart := fun e he => hcall.fresh _ hne _ (hcall.tables_used e he)
  obtain ⟨hflags, hpresent, -⟩ := userFlags_ok
  have hagree := @Calling.metadata_agree _ _ _ _ _ _ _ _ hcall n hne
  obtain ⟨hend, hpaddr⟩ := hcall.block_end hne ha
  obtain ⟨m', frames', rfl, hgrown, hcover⟩ := mapSection_grown (P := fun _ => True) hcall.hhdm_lt
    hend hflags hpresent hpaddr (hcall.tables.of_agree hagree) (fun _ _ _ _ => trivial) hmap
  obtain ⟨-, hsame⟩ := @Grown.kept _ _ _ _ _ _ _ _ (OwnTable hhdm h.mem root spare) hgrown hagree
    fun e he => he
  have hcount : pageCount (pageSize * n) = n := by
    simp only [pageCount, pageSize]
    omega
  rw [hcount] at hcover
  constructor
  · intro k hk
    rcases hcover (a + pageSize * k) with ⟨k', hk', hpage, hentry⟩ | ⟨hnone, -⟩
    · have hsamepage : k' = k := by
        simp only [page, pageSize] at hpage ha hdirect haligned hhhdm hk hk' ⊢
        omega
      rw [hentry, hsamepage, Nat.mod_eq_of_lt]
      · rfl
      · simp only [pageSize] at hend
        omega
    · exact absurd rfl (hnone k hk)
  · intro x hx
    have hout : ∀ e, OwnTable hhdm h.mem root spare e → ¬ InFrame hhdm e x := by
      intro e he hin
      have hdisjoint := hapart e he
      simp only [InFrame, Span.Has, Span.Disjoint, pageSize] at hx hin hdisjoint
      omega
    simp only [Span.Has, pageSize] at hx
    exact (hsame x hout).trans (Mem.writeN_out _ _ (by omega))

/-- The pages are granted exactly if they hold zeros. -/
theorem Calling.granted_iff (hcall : Calling hhdm cs slabs used root spare palloc h) {n : Nat}
    (hne : palloc (n + 1) ≠ 0) {a : Nat} (ha : a = palloc (n + 1) + pageSize - hhdm) {m' : Mem}
    (hlen : len ≤ pageSize * n) (hmax : pageSize * n < len + pageSize)
    (hpages : ∀ k < n, pagesOf hhdm m' root (page (a + pageSize * k)) =
      some (a + pageSize * k ||| userFlags))
    (hsame : ∀ x, Span.Has ⟨palloc (n + 1) + pageSize, pageSize * n⟩ x → m' x = h.mem x) :
    Granted hhdm used m' root len a ↔
      ∀ k < pageSize * n, h.mem (palloc (n + 1) + pageSize + k) = 0 := by
  obtain ⟨habove, hdirect⟩ := hcall.direct _ hne
  have hbelow := hcall.below _ hne
  have haligned := hcall.aligned _ hne
  have hhhdm := hcall.hhdm_aligned
  -- the frame that an entry of the block leads to
  have hframe : ∀ k < n, add64 ((a + pageSize * k ||| userFlags) &&& pmlPhysicalAddress) hhdm =
      palloc (n + 1) + pageSize + pageSize * k := by
    intro k hk
    rw [Nat.and_or_distrib_right, userFlags_ok.2.2, Nat.or_zero, and_physicalAddress, add64]
    simp only [pageSize] at ha hdirect haligned hhhdm hbelow ⊢
    omega
  have hpage : ∀ v, a ≤ v → v < a + pageSize * n →
      (v - a) / pageSize < n ∧ page v = page (a + pageSize * ((v - a) / pageSize)) := by
    intro v hlow hhigh
    simp only [page, pageSize] at ha haligned hhhdm hhigh ⊢
    omega
  constructor
  · intro hgranted k hk
    have hj : k / pageSize < n ∧ pageSize * (k / pageSize) < len ∧
        pageSize * (k / pageSize) + k % pageSize = k ∧ k % pageSize < pageSize := by
      simp only [pageSize] at hk hmax ⊢
      omega
    obtain ⟨hjn, hjlen, hdiv, hmod⟩ := hj
    obtain ⟨entry, hentry, -, -, hzero⟩ :=
      hgranted.pages (a + pageSize * (k / pageSize)) (Nat.le_add_right _ _) (by omega)
    obtain rfl := Option.some.inj ((hpages _ hjn).symm.trans hentry)
    have hbyte := hzero _ hmod
    rw [hframe _ hjn, Nat.add_assoc, hdiv] at hbyte
    rw [← hsame _ ⟨Nat.le_add_right _ _, Nat.add_lt_add_left hk _⟩]
    exact hbyte
  · intro hzero
    refine ⟨?_, ?_⟩
    · simp only [pageSize] at ha haligned hhhdm ⊢
      omega
    · intro v hlow hhigh
      obtain ⟨hk, hv⟩ := hpage v hlow (by omega)
      refine ⟨_, (congrArg _ hv).trans (hpages _ hk), ?_, ?_, ?_⟩
      · exact or_flags _
      · intro s hs
        rw [hframe _ hk]
        apply (hcall.fresh _ hne s hs).of_inside
        · simp only [Span.Inside, pageSize] at hk ⊢
          omega
        · exact ⟨Nat.le_refl _, Nat.le_refl _⟩
      · intro t ht
        have hin : pageSize * ((v - a) / pageSize) + t < pageSize * n := by
          simp only [pageSize] at hk ht ⊢
          omega
        rw [hframe _ hk, Nat.add_assoc,
          hsame _ ⟨Nat.le_add_right _ _, Nat.add_lt_add_left hin _⟩]
        exact hzero _ hin

theorem syscallMmapHeap_cases {supply : List Nat}
    (hret : syscallMmapHeap fuel hhdm (tableBase hhdm root) palloc (cs.map Slab.CacheInfo.addr) len h
      supply = some (ret, h', supply')) :
    ∃ r, Slab.slabAlloc fuel palloc h.mem (cs.map Slab.CacheInfo.addr) (mmapBytes len) = some r ∧
      ((r.ret = 0 ∧ ret = mapFailed) ∨
        (r.ret ≠ 0 ∧ ret = sub64 r.ret hhdm ∧
          mapSection hhdm (r.mem, supply) (tableBase hhdm root) (sub64 r.ret hhdm)
            (sub64 r.ret hhdm) (mmapBytes len) userFlags = some (h'.mem, supply'))) := by
  obtain ⟨r, halloc, hmap⟩ := Option.bind_eq_some_iff.mp hret
  refine ⟨r, halloc, ?_⟩
  rw [syscallMmap] at hmap
  split_ifs at hmap with hnull
  · cases hmap
    exact .inl ⟨hnull, rfl⟩
  · obtain ⟨q, hq, heq⟩ := Option.map_eq_some_iff.mp hmap
    obtain ⟨s, hs, rfl⟩ := Option.map_eq_some_iff.mp hq
    cases heq
    exact .inr ⟨hnull, rfl, hs⟩

/-- A length that can be rounded up: the contract holds exactly for pages that hold zeros. -/
theorem Calling.contract_pages (hcall : Calling hhdm cs slabs used root spare palloc h)
    (hlen : Roundable len)
    (halloc : Slab.slabAlloc fuel palloc h.mem (cs.map Slab.CacheInfo.addr) (mmapBytes len) = some r)
    (hne : r.ret ≠ 0) {m' : Mem}
    (hmap : mapSection hhdm (r.mem, spare.map (tableBase hhdm)) (tableBase hhdm root)
      (sub64 r.ret hhdm) (sub64 r.ret hhdm) (mmapBytes len) userFlags = some (m', supply')) :
    (sub64 r.ret hhdm = mapFailed ∨ Granted hhdm used m' root len (sub64 r.ret hhdm)) ↔
      PagesZero palloc h.mem len := by
  obtain ⟨n, hn, hbytes, hnum, hle, hmax⟩ := mmapBytes_eq hlen
  rw [hbytes] at halloc hmap
  obtain ⟨hpages, hr, hmem⟩ := hcall.slabAlloc_pages hn halloc hne
  obtain ⟨haddr, hnot⟩ := hcall.block_addr hpages
  rw [hr] at hmap ⊢
  rw [hmem] at hmap
  generalize sub64 (palloc (n + 1) + pageSize) hhdm = a at haddr hnot hmap ⊢
  obtain ⟨hmapped, hsame⟩ := hcall.mapped hpages haddr hmap
  rw [or_iff_right hnot, PagesZero, hnum, hbytes]
  exact hcall.granted_iff hpages haddr hle hmax hmapped hsame

/-- A block of pages is mapped exactly if there is a frame for each missing table. -/
theorem Calling.mapSection_isSome (hcall : Calling hhdm cs slabs used root spare palloc h) {n : Nat}
    (hne : palloc (n + 1) ≠ 0) {a : Nat} (ha : a = palloc (n + 1) + pageSize - hhdm) :
    (mapSection hhdm (h.mem.write64 (palloc (n + 1)) n, spare.map (tableBase hhdm))
        (tableBase hhdm root) a a (pageSize * n) userFlags).isSome ↔
      (missing hhdm h.mem root (tablesFor a n)).card ≤ spare.length := by
  have hagree := @Calling.metadata_agree _ _ _ _ _ _ _ _ hcall n hne
  obtain ⟨hend, hpaddr⟩ := hcall.block_end hne ha
  have hcount : pageCount (pageSize * n) = n := by
    simp only [pageCount, pageSize]
    omega
  have hiff := mapSection_isSome_iff hcall.hhdm_lt hend userFlags_ok.1 hpaddr
    (hcall.tables.of_agree hagree)
  rwa [hcount, missing_agree (tablesFor_length a n) hagree] at hiff

/-- What `kmalloc` answers for a length that can be rounded up. -/
theorem Calling.slabAlloc_rounded (hcall : Calling hhdm cs slabs used root spare palloc h) {n : Nat}
    (hn : 0 < n) :
    ∃ r, Slab.slabAlloc fuel palloc h.mem (cs.map Slab.CacheInfo.addr) (pageSize * n) = some r ∧
      (r.ret = 0 ↔ palloc (n + 1) = 0) := by
  have hlarge : Slab.slabMaxChunkSize < pageSize * n := by
    simp only [Slab.slabMaxChunkSize, pageSize]
    omega
  have hnum : Slab.numPages (pageSize * n) = n := by
    simp [Slab.numPages, Slab.pageSizeBytes, pageSize]
  obtain ⟨r, halloc, hzero⟩ :=
    @Slab.HeapInv.slabAlloc_large _ _ _ hcall.heap fuel _ palloc hlarge
  rw [hnum] at hzero
  exact ⟨r, halloc, hzero⟩

/-- With pages for the block and frames for the tables the call returns. -/
theorem Calling.returns (hcall : Calling hhdm cs slabs used root spare palloc h)
    (hlen : Roundable len) (hne : palloc (Slab.numPages (mmapBytes len) + 1) ≠ 0)
    (hfit : TablesFit hhdm palloc h.mem root spare len) (fuel : Nat) :
    ∃ h' supply', syscallMmapHeap fuel hhdm (tableBase hhdm root) palloc
      (cs.map Slab.CacheInfo.addr) len h (spare.map (tableBase hhdm)) =
        some (palloc (Slab.numPages (mmapBytes len) + 1) + pageSize - hhdm, h', supply') := by
  obtain ⟨n, hn, hbytes, hnum, -, -⟩ := mmapBytes_eq hlen
  rw [TablesFit, hnum] at hfit
  rw [hnum] at hne ⊢
  obtain ⟨r, halloc, hzero⟩ := @Calling.slabAlloc_rounded _ fuel _ _ _ _ _ _ _ hcall n hn
  obtain ⟨-, hr, hmem⟩ := hcall.slabAlloc_pages hn halloc (hzero.not.mpr hne)
  obtain ⟨haddr, -⟩ := hcall.block_addr hne
  obtain ⟨q, hmap⟩ := Option.isSome_iff_exists.mp ((hcall.mapSection_isSome hne rfl).mpr hfit)
  refine ⟨{h.afterAlloc (pageSize * n) r with mem := q.1}, q.2, ?_⟩
  rw [syscallMmapHeap, hbytes, halloc, Option.bind_some, syscallMmap, if_neg (hzero.not.mpr hne),
    hr, haddr, hbytes, hmem]
  dsimp only
  rw [hmap]
  rfl

/-- Memory that is granted was mapped, and holds zeros. -/
theorem Calling.granted_facts (hcall : Calling hhdm cs slabs used root spare palloc h)
    (hlt : len < 2 ^ 64)
    (halloc : Slab.slabAlloc fuel palloc h.mem (cs.map Slab.CacheInfo.addr) (mmapBytes len) = some r)
    (hne : r.ret ≠ 0) {m' : Mem}
    (hmap : mapSection hhdm (r.mem, spare.map (tableBase hhdm)) (tableBase hhdm root)
      (sub64 r.ret hhdm) (sub64 r.ret hhdm) (mmapBytes len) userFlags = some (m', supply'))
    (hmeets : sub64 r.ret hhdm = mapFailed ∨ Granted hhdm used m' root len (sub64 r.ret hhdm)) :
    Roundable len ∧ PagesZero palloc h.mem len ∧ TablesFit hhdm palloc h.mem root spare len := by
  by_cases hlen : Roundable len
  · refine ⟨hlen, (hcall.contract_pages hlen halloc hne hmap).mp hmeets, ?_⟩
    obtain ⟨n, hn, hbytes, hnum, -, -⟩ := mmapBytes_eq hlen
    rw [hbytes] at halloc hmap
    obtain ⟨hpages, hr, hmem⟩ := hcall.slabAlloc_pages hn halloc hne
    obtain ⟨haddr, -⟩ := hcall.block_addr hpages
    rw [hr, haddr, hmem] at hmap
    rw [TablesFit, hnum]
    exact (hcall.mapSection_isSome hpages rfl).mp (hmap ▸ rfl)
  · -- the length is rounded to 0, and what comes back is a chunk
    exfalso
    have hhhdm := hcall.hhdm_aligned
    have hhhdm_lt := hcall.hhdm_lt
    rw [mmapBytes_wraps hlt hlen] at halloc
    obtain ⟨hchunk, height⟩ := hcall.chunk_ret halloc hne
    rcases hmeets with hfailed | hgranted
    · rw [sub64, mapFailed] at hfailed
      simp only [pageSize] at hhhdm
      omega
    · have haligned := hgranted.aligned
      rw [sub64] at haligned
      simp only [pageSize] at haligned hhhdm hchunk
      omega

/-- `mmap` returns and meets its contract exactly if `kmalloc` fails, or the length can be rounded
up, the pages that are handed out hold zeros already, and there are frames for the tables. -/
theorem mmap_contract_iff (hcall : Calling hhdm cs slabs used root spare palloc h)
    (hlt : len < 2 ^ 64) :
    MeetsContract hhdm used root palloc (cs.map Slab.CacheInfo.addr) len h spare ↔
      KmallocFails palloc h.mem (cs.map Slab.CacheInfo.addr) (mmapBytes len) ∨
        (Roundable len ∧ PagesZero palloc h.mem len ∧
          TablesFit hhdm palloc h.mem root spare len) := by
  constructor
  · rintro ⟨fuel, ret, h', supply', hret, hmeets⟩
    obtain ⟨r, halloc, ⟨hnull, -⟩ | ⟨hne, rfl, hmap⟩⟩ := syscallMmapHeap_cases hret
    · exact .inl ⟨fuel, r, halloc, hnull⟩
    · exact .inr (hcall.granted_facts hlt halloc hne hmap hmeets)
  · have hfails : KmallocFails palloc h.mem (cs.map Slab.CacheInfo.addr) (mmapBytes len) →
        MeetsContract hhdm used root palloc (cs.map Slab.CacheInfo.addr) len h spare := by
      rintro ⟨fuel, r, halloc, hnull⟩
      refine ⟨fuel, mapFailed, {h.afterAlloc (mmapBytes len) r with mem := r.mem},
        spare.map (tableBase hhdm), ?_, .inl rfl⟩
      rw [syscallMmapHeap, halloc, Option.bind_some, syscallMmap, if_pos hnull]
      rfl
    rintro (hnull | ⟨hlen, hzero, hfit⟩)
    · exact hfails hnull
    · by_cases hne : palloc (Slab.numPages (mmapBytes len) + 1) = 0
      · obtain ⟨n, hn, hbytes, hnum, -, -⟩ := mmapBytes_eq hlen
        obtain ⟨r, halloc, hiff⟩ := @Calling.slabAlloc_rounded _ 0 _ _ _ _ _ _ _ hcall n hn
        rw [hnum] at hne
        exact hfails ⟨0, r, hbytes ▸ halloc, hiff.mpr hne⟩
      · obtain ⟨h', supply', hret⟩ := hcall.returns hlen hne hfit 0
        refine ⟨0, _, h', supply', hret, ?_⟩
        obtain ⟨r, halloc, ⟨-, hfailed⟩ | ⟨hpages, haddr, hmap⟩⟩ := syscallMmapHeap_cases hret
        · exact .inl hfailed
        · rw [haddr]
          exact (hcall.contract_pages hlen halloc hpages hmap).mpr hzero

end Mmap

section Boot

open Tellurium.Slab

/-- Two pages at `0x9000` are the only ones that are not in use. -/
def lastPages (n : Nat) : Nat := if n = 2 then 0x9000 else 0

def allButLast (s : Span) : Prop := Span.Disjoint ⟨0x9000, 0x2000⟩ s

def bootRoot : Frame := ⟨0x20, by decide⟩

def bootSpare : List Frame := [⟨0x21, by decide⟩, ⟨0x22, by decide⟩, ⟨0x23, by decide⟩]

theorem bootMem_out (v : UInt8) {x : Nat} (hx : 0x9000 ≤ x) : bootMem v x = usedMem v x := by
  obtain ⟨-, -, hchanges⟩ := insertAll_spec (by decide) (initSlab_boot v)
  apply hchanges
  have hspans : ∀ s ∈ (knownChunks.zip bootPages).map (fun p => (⟨p.2, 40⟩ : Span)),
      s.base + s.len ≤ 0x9000 := by decide
  intro s hs hin
  have hend := hspans s hs
  simp only [Span.Has] at hin
  omega

theorem boot_calling (v : UInt8) :
    Calling 0 (cacheInfos bootPages) [] allButLast bootRoot bootSpare lastPages
      (startHeap (bootMem v) bootPages) := by
  have habsent : ∀ i, nextFrame (view 0 (bootMem v) bootRoot i) = none := by
    intro i
    have hzero : view 0 (bootMem v) bootRoot i = 0 := by
      apply Mem.readN_eq_zero
      intro x hlo hhi
      have hbase : tableBase 0 bootRoot = 0x20000 := by decide
      have hi := i.isLt
      rw [bootMem_out v (by omega), usedMem, if_neg (by omega)]
    rw [hzero]
    exact nextFrame_zero
  have htable : ∀ e, OwnTable 0 (bootMem v) bootRoot bootSpare e → 0x20000 ≤ tableBase 0 e := by
    rintro e (⟨js, -, hwalk⟩ | he)
    · rw [← (walk_absent habsent hwalk).2]
      decide
    · revert e
      decide
  have hpages : ∀ n, lastPages n ≠ 0 → n = 2 ∧ lastPages n = 0x9000 := by
    intro n hn
    rw [lastPages] at hn ⊢
    split_ifs at hn ⊢ with htwo
    · exact ⟨htwo, rfl⟩
    · exact absurd rfl hn
  obtain ⟨-, hinv⟩ := initSlab_inv bootPages_ok (initSlab_boot v)
  refine ⟨by decide, by decide, hinv, tablesOk_absent habsent (by decide) (by decide) (by decide),
    ?_, ?_, ?_, ?_, ?_, ?_⟩
  · have hcaches : ∀ a ∈ bootPages, Span.Disjoint ⟨0x9000, 0x2000⟩ ⟨a, 4096⟩ := by decide
    intro f hf
    obtain ⟨a, ha, rfl⟩ := List.mem_map.mp hf
    exact hcaches a ha
  · intro e he
    have hbase := htable e he
    simp only [allButLast, Span.Disjoint]
    omega
  · intro n hn
    rw [(hpages n hn).2]
    decide
  · intro n hn
    rw [(hpages n hn).2, (hpages n hn).1]
    decide
  · intro n hn
    rw [(hpages n hn).2, (hpages n hn).1]
    decide
  · intro n hn s hs
    rw [(hpages n hn).2, (hpages n hn).1]
    exact hs

theorem boot_fits (v : UInt8) :
    TablesFit 0 lastPages (bootMem v) bootRoot bootSpare 4096 := by
  have hall : missing 0 (bootMem v) bootRoot (tablesFor 0xa000 1) ⊆ tablesFor 0xa000 1 :=
    Finset.filter_subset _ _
  have hthree : (tablesFor 0xa000 1).card ≤ 3 := by decide
  exact Nat.le_trans (Finset.card_le_card hall) hthree

theorem boot_roundable : Roundable 4096 := by
  rw [Roundable]
  decide

/-- A page that holds a byte of an earlier owner is handed out as it is. -/
theorem mmap_shows_old_byte : ∃ hhdm cs slabs used root spare palloc h fuel ret h' supply',
    Calling hhdm cs slabs used root spare palloc h ∧
    syscallMmapHeap fuel hhdm (tableBase hhdm root) palloc (cs.map CacheInfo.addr) 4096 h
      (spare.map (tableBase hhdm)) = some (ret, h', supply') ∧
    ¬ (ret = mapFailed ∨ Granted hhdm used h'.mem root 4096 ret) := by
  obtain ⟨h', supply', hret⟩ := (boot_calling 7).returns boot_roundable (by decide) (boot_fits 7) 1
  refine ⟨_, _, _, _, _, _, _, _, _, _, h', supply', boot_calling 7, hret, ?_⟩
  obtain ⟨r, halloc, ⟨-, hfailed⟩ | ⟨hne, haddr, hmap⟩⟩ := syscallMmapHeap_cases hret
  · exact absurd hfailed (by decide)
  · rw [haddr, (boot_calling 7).contract_pages boot_roundable halloc hne hmap]
    intro hzero
    have hbyte := hzero 0 (by decide)
    rw [startHeap] at hbyte
    dsimp only at hbyte
    rw [bootMem_out 7 (by decide)] at hbyte
    exact absurd hbyte (by decide)

/-- A page that holds zeros meets the contract. -/
theorem mmap_contract_zero_page :
    MeetsContract 0 allButLast bootRoot lastPages ((cacheInfos bootPages).map CacheInfo.addr) 4096
      (startHeap (bootMem 0) bootPages) bootSpare := by
  apply (mmap_contract_iff (boot_calling 0) (by decide)).mpr
  refine .inr ⟨boot_roundable, ?_, boot_fits 0⟩
  intro k _
  show bootMem 0 (0x9000 + 4096 + k) = 0
  rw [bootMem_out 0 (by omega), usedMem]
  split_ifs
  · rfl
  · rfl

end Boot

end Tellurium.Process
