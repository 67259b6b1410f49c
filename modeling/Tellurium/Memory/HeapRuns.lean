import Tellurium.Memory.KernelHeap

/-!
The heap invariant along whole runs. Each call keeps it and stays quiet, given that a slab
is only spawned in front of a null word; from `init_slab` on it holds in every state reached.
-/

namespace Tellurium.Slab

open Tellurium.Lib

section Realloc

variable {cs : List CacheInfo} {slabs : List SlabInfo} {h : Heap}

theorem le_numPages (size : Nat) : size ≤ 4096 * numPages size := by
  rw [numPages]
  split_ifs with hpart
  · simp only [pageSizeBytes]
    omega
  · simp only [pageSizeBytes] at hpart ⊢
    omega

theorem size_le_capacity (size : Nat) : size ≤ capacity size := by
  unfold capacity
  cases hfind : knownChunks.find? (fun n => size ≤ n) with
  | some n => simpa using List.find?_some hfind
  | none => exact le_numPages size

/-- The block of a call is addressed as the kind of block it is. -/
theorem HeapInv.kind (hinv : HeapInv cs slabs h) {b : Span} (hb : b ∈ h.live) :
    b.base ≠ 0 ∧
      ((∃ sl ∈ slabs, b.base % pageSizeBytes ≠ 0 ∧ b.base - b.base % pageSizeBytes = sl.base) ∨
        ∃ f ∈ h.frames, f.use = .pages ∧ b.base % pageSizeBytes = 0 ∧
          b.base - pageSizeBytes = f.span.base) := by
  simp only [pageSizeBytes]
  rcases hinv.blocks b hb with ⟨sl, hsl, hchunk, hlen⟩ | ⟨f, hf, huse, hbase, hlen⟩
  · have hbounds := Layout.chunk_bounds hchunk
    have hsa := (hinv.geo.slab_aligned hsl).1
    have hmin := sl.cache.layout.min
    refine ⟨by omega, Or.inl ⟨sl, hsl, by omega, by omega⟩⟩
  · have haligned := (hinv.geo.frames_aligned f hf).1
    refine ⟨by omega, Or.inr ⟨f, hf, huse, by omega, by omega⟩⟩

/-- A page-aligned block is a multi-page block, with its length in front of it. -/
theorem HeapInv.pages_len (hinv : HeapInv cs slabs h) {b : Span} (hb : b ∈ h.live)
    (hpage : b.base % pageSizeBytes = 0) :
    ∃ n, 1 ≤ n ∧ b.len = 4096 * n ∧ h.mem.read64 (b.base - pageSizeBytes) = n := by
  simp only [pageSizeBytes] at hpage ⊢
  rcases hinv.blocks b hb with ⟨sl, hsl, hchunk, -⟩ | ⟨f, hf, huse, hbase, hlen⟩
  · have hbounds := Layout.chunk_bounds hchunk
    have haligned := (hinv.geo.slab_aligned hsl).1
    have hmin := sl.cache.layout.min
    omega
  · obtain ⟨n, hn, hspan, hread⟩ := hinv.pages f hf huse
    have hback : b.base - 4096 = f.span.base := by omega
    exact ⟨n, hn, by omega, hback ▸ hread⟩

/-- Every other block is a chunk, and its cache knows its length. -/
theorem HeapInv.chunk_len (hinv : HeapInv cs slabs h) {b : Span} (hb : b ∈ h.live)
    (hpage : b.base % pageSizeBytes ≠ 0) :
    chunkSize h.mem (slabCache h.mem (b.base - b.base % pageSizeBytes)) = b.len := by
  simp only [pageSizeBytes] at hpage ⊢
  rcases hinv.blocks b hb with ⟨sl, hsl, hchunk, hlen⟩ | ⟨f, hf, -, hbase, -⟩
  · have hbounds := Layout.chunk_bounds hchunk
    have haligned := (hinv.geo.slab_aligned hsl).1
    have hmin := sl.cache.layout.min
    have hslab : b.base - b.base % 4096 = sl.base := by omega
    rw [hslab, (hinv.slabs_ok sl hsl).cache, hlen]
    exact hinv.ok.cache_size _ (hinv.geo.slabs_cache sl hsl)
  · have haligned := (hinv.geo.frames_aligned f hf).1
    omega

/-- What does not fit a multi-page block is not served by a slab. -/
theorem HeapInv.large_of_pages (hinv : HeapInv cs slabs h) {b : Span} (hb : b ∈ h.live)
    (hpage : b.base % pageSizeBytes = 0) {size : Nat} (hgrown : b.len < size) :
    slabMaxChunkSize < size := by
  obtain ⟨n, hn, hlen, -⟩ := hinv.pages_len hb hpage
  simp only [slabMaxChunkSize]
  omega

theorem numPages_le_iff (size n : Nat) : numPages size ≤ n ↔ size ≤ 4096 * n := by
  rw [numPages]
  split_ifs with hpart
  · simp only [pageSizeBytes] at hpart ⊢
    omega
  · simp only [pageSizeBytes] at hpart ⊢
    omega

/-- Both kinds of block are outgrown by the sizes above their length. -/
theorem HeapInv.outgrown_iff (hinv : HeapInv cs slabs h) {b : Span} (hb : b ∈ h.live) (size : Nat) :
    Outgrown h.mem b.base size ↔ b.len < size := by
  rw [Outgrown]
  by_cases hpage : b.base % pageSizeBytes = 0
  · obtain ⟨n, -, hlen, hread⟩ := hinv.pages_len hb hpage
    rw [if_pos hpage, hread, numPages_le_iff, hlen, Nat.not_le]
  · rw [if_neg hpage, hinv.chunk_len hb hpage]

/-- What `krealloc` returns: the block in place, or the outcome of an allocation. -/
inductive ReallocCase (fuel : Nat) (palloc : Nat → Nat) (m : Mem) (caches : List Nat)
    (addr size : Nat) (r : Result) (put : Option Span) : Prop
  | kept (hret : r.ret = addr) (hmem : r.mem = m)
  | refused (hret : r.ret = 0) (hmem : r.mem = m) (hgot : r.got = none)
  | failed (hgrown : Outgrown m addr size)
      (halloc : slabAlloc fuel palloc m caches size = some r) (hret : r.ret = 0)
  | moved (hgrown : Outgrown m addr size) (r' : Result)
      (halloc : slabAlloc fuel palloc m caches size = some r') (hne : r'.ret ≠ 0) (n : Nat)
      (hn : n = size ∨ n = chunkSize r'.mem (slabCache r'.mem (addr - addr % pageSizeBytes)) ∧
        addr % pageSizeBytes ≠ 0)
      (hr : r = {r' with mem := (slabFree (r'.mem.memcpy r'.ret addr n) addr).1})
      (hput : put = (slabFree (r'.mem.memcpy r'.ret addr n) addr).2)

theorem slabRealloc_cases {fuel addr size : Nat} {palloc : Nat → Nat} {m : Mem} {caches : List Nat}
    {r : Result} {put : Option Span} (haddr : addr ≠ 0)
    (hret : slabRealloc fuel palloc m caches addr size = some (r, put)) :
    ReallocCase fuel palloc m caches addr size r put := by
  rw [slabRealloc, if_neg haddr] at hret
  dsimp only at hret
  split_ifs at hret with hpage hfits hgrown
  · cases hret
    exact .kept rfl rfl
  · simp only [bind, Option.bind_eq_some_iff, pure] at hret
    obtain ⟨r', halloc, hret⟩ := hret
    have hout : Outgrown m addr size := by
      rw [Outgrown, if_pos hpage]
      exact hfits
    split_ifs at hret with hnull
    · cases hret
      exact .failed hout halloc hnull
    · cases hret
      exact .moved hout r' halloc hnull size (Or.inl rfl) rfl rfl
  · simp only [bind, Option.bind_eq_some_iff, pure] at hret
    obtain ⟨r', halloc, hret⟩ := hret
    have hout : Outgrown m addr size := by
      rw [Outgrown, if_neg hpage]
      exact hgrown
    have hfree : ∀ m', slabFree m' addr = (slabFreeChunk m' addr, none) := by
      intro m'
      rw [slabFree, if_neg haddr, if_neg hpage]
    split_ifs at hret with hnull
    · cases hret
      exact .failed hout halloc hnull
    · cases hret
      refine .moved hout r' halloc hnull _ (Or.inr ⟨rfl, hpage⟩) ?_ ?_
      · rw [hfree]
      · rw [hfree]
  · cases hret
    exact .refused rfl rfl rfl

/-- The number of bytes copied into a larger block fits there. -/
theorem HeapInv.copied_le (hinv : HeapInv cs slabs h) {b : Span} (hb : b ∈ h.live) {size n : Nat}
    (hgrown : Outgrown h.mem b.base size) {slabs' : List SlabInfo} {r : Result}
    (hnext : HeapInv cs slabs' (h.afterAlloc size r))
    (hn : n = size ∨ n = chunkSize r.mem (slabCache r.mem (b.base - b.base % pageSizeBytes)) ∧
      b.base % pageSizeBytes ≠ 0) : n ≤ capacity size := by
  rcases hn with hn | ⟨hn, hpage⟩
  · rw [hn]
    exact size_le_capacity size
  · have hlen : n = b.len := hn.trans (hnext.chunk_len (mem_afterAlloc hb size r) hpage)
    rw [hlen]
    exact ((hinv.outgrown_iff hb size).mp hgrown).le.trans (size_le_capacity size)

/-- An allocation returns no block that is live already. -/
theorem HeapInv.ret_fresh {slabs' : List SlabInfo} {size : Nat} {r : Result}
    (hnext : HeapInv cs slabs' (h.afterAlloc size r)) (hret : r.ret ≠ 0) {b : Span}
    (hb : b ∈ h.live) : r.ret ≠ b.base := by
  have hnodup := hnext.nodup
  simp only [Heap.afterAlloc, if_neg hret, List.map_cons, List.nodup_cons] at hnodup
  intro heq
  exact hnodup.1 (heq ▸ List.mem_map_of_mem hb)

/-- The step lemma of `krealloc`. -/
theorem HeapInv.realloc (hinv : HeapInv cs slabs h) {b : Span} (hb : b ∈ h.live)
    {fuel size : Nat} {palloc : Nat → Nat} (hpalloc : PallocOk h.frames palloc)
    (hword : Outgrown h.mem b.base size →
      SpawnsBeforeNull (cs.map CacheInfo.addr) h.mem size palloc) {h' : Heap}
    (hstep : h.step fuel (cs.map CacheInfo.addr) (.krealloc b.base size palloc) = some h') :
    ∃ slabs', HeapInv cs slabs' h' ∧ Quiet h (.krealloc b.base size palloc) h' := by
  have hne := (hinv.kind hb).1
  simp only [Heap.step, Option.map_eq_some_iff, Prod.exists] at hstep
  obtain ⟨r, put, hret, hh'⟩ := hstep
  cases slabRealloc_cases hne hret with
  | kept hsame hmem =>
      rw [if_pos hsame, hmem] at hh'
      subst hh'
      exact ⟨slabs, hinv, ⟨fun _ _ _ _ _ => rfl, fun _ _ => rfl⟩⟩
  | refused hzero hmem hgot =>
      rw [if_neg (by rw [hzero]; exact hne.symm), if_pos hzero] at hh'
      have hsame : h' = h := by
        rw [← hh']
        simp only [Heap.afterAlloc, hgot, hmem, hzero, Option.map_none, Option.toList_none,
          List.nil_append, if_true]
      subst hsame
      exact ⟨slabs, hinv, ⟨fun _ _ _ _ _ => rfl, fun _ _ => rfl⟩⟩
  | failed hgrown halloc hzero =>
      rw [if_neg (by rw [hzero]; exact hne.symm), if_pos hzero] at hh'
      subst hh'
      obtain ⟨slabs', -, hnext, hchanges⟩ := hinv.alloc hpalloc (hword hgrown) halloc
      refine ⟨slabs', hnext, ⟨?_, ?_⟩⟩
      · intro b' hb' _ x hx
        exact (hinv.alloc_quiet hnext hchanges).1 ⟨b', hb', hx⟩
      · intro x hout
        exact (hinv.alloc_quiet hnext hchanges).2 fun f hf => hout f (List.mem_append_right _ hf)
  | moved hgrown r' halloc hnonzero n hn hr hput =>
      obtain ⟨slabs', -, hnext, hchanges⟩ := hinv.alloc hpalloc (hword hgrown) halloc
      have hle := hinv.copied_le hb hgrown hnext hn
      have hret : r.ret = r'.ret := by rw [hr]
      have hfresh : r.ret ≠ b.base := hret ▸ hnext.ret_fresh hnonzero hb
      rw [if_neg hfresh, if_neg (hret ▸ hnonzero), hput, hr] at hh'
      obtain ⟨hfinal, hblocks, hforeign⟩ :=
        hinv.moved hb hnext hchanges hnonzero hle hh'.symm
      refine ⟨slabs', hfinal, ⟨?_, hforeign⟩⟩
      intro b' hb' hgiven
      exact hblocks b' hb' fun heq => hgiven (congrArg some heq.symm)

/-- One call keeps the invariant and is quiet; so do the owners' stores. -/
theorem HeapInv.step (hinv : HeapInv cs slabs h) {fuel : Nat} {op : Op} (hallowed : Allowed h op)
    (hnull : NullBehindSpawn (cs.map CacheInfo.addr) h op) {h' : Heap}
    (hstep : h.step fuel (cs.map CacheInfo.addr) op = some h') :
    ∃ slabs', HeapInv cs slabs' h' ∧ (op.isCall → Quiet h op h') := by
  cases op with
  | kmalloc size palloc =>
      simp only [Heap.step, Option.map_eq_some_iff] at hstep
      obtain ⟨r, halloc, rfl⟩ := hstep
      obtain ⟨slabs', -, hnext, hchanges⟩ := hinv.alloc hallowed hnull halloc
      refine ⟨slabs', hnext, fun _ => ⟨?_, ?_⟩⟩
      · intro b hb _ x hx
        exact (hinv.alloc_quiet hnext hchanges).1 ⟨b, hb, hx⟩
      · intro x hout
        exact (hinv.alloc_quiet hnext hchanges).2 fun f hf => hout f (List.mem_append_right _ hf)
  | krealloc addr size palloc =>
      obtain ⟨⟨b, hb, rfl⟩, hpalloc⟩ := hallowed
      obtain ⟨slabs', hnext, hquiet⟩ := hinv.realloc hb hpalloc hnull hstep
      exact ⟨slabs', hnext, fun _ => hquiet⟩
  | kfree addr =>
      obtain ⟨b, hb, rfl⟩ := hallowed
      cases hstep
      obtain ⟨hnext, hchanges⟩ := hinv.free hb
      refine ⟨slabs, hnext, fun _ => ⟨?_, ?_⟩⟩
      · intro b' hb' hgiven x hx
        apply hchanges x
        · have hne : b'.base ≠ b.base := fun heq => hgiven (congrArg some heq.symm)
          exact Span.not_has_of_disjoint
            ((hinv.blocks b' hb').disjoint hinv.geo (hinv.blocks b hb) hne) hx
        · intro f hf
          exact Span.not_has_of_disjoint ((hinv.blocks b' hb').disjoint_header hinv.geo hf) hx
      · intro x hout
        have houtside : ∀ s : Span, (∃ f ∈ h.frames, s.Inside f.span) → ¬ s.Has x := by
          rintro s ⟨f, hf, hin⟩ hx
          exact hout f (List.mem_append_left _ hf) ⟨hin.1.trans hx.1, hx.2.trans_le hin.2⟩
        apply hchanges x (houtside b (hinv.separated.inside b hb))
        intro f hf
        exact houtside f.header ⟨f, hf, OwnedFrame.header_inside hinv.geo hf⟩
  | store mem =>
      cases hstep
      exact ⟨slabs, hinv.store hallowed, fun hcall => hcall.elim⟩

end Realloc

section Init

/-- A cache as `cache_insert` leaves it. -/
structure CacheReady (m : Mem) (chunk addr : Nat) : Prop where
  ne_zero : addr ≠ 0
  size : chunkSize m addr = chunk
  empty : m.read64 (slabsEmpty addr) = 0
  partialList : m.read64 (slabsPartial addr) = 0
  full : m.read64 (slabsFull addr) = 0

theorem CacheReady.frame {m m' : Mem} {chunk addr : Nat} (h : CacheReady m chunk addr)
    (hsame : ∀ x, addr ≤ x → x < addr + 40 → m' x = m x) : CacheReady m' chunk addr := by
  have hread : ∀ a, addr ≤ a → a + 8 ≤ addr + 40 → m'.read64 a = m.read64 a := by
    intro a hlo hhi
    apply Mem.readN_congr
    intro x hxlo hxhi
    exact hsame x (by omega) (by omega)
  exact ⟨h.ne_zero, (hread (addr + 32) (by omega) (by omega)).trans h.size,
    (hread addr (by omega) (by omega)).trans h.empty,
    (hread (addr + 8) (by omega) (by omega)).trans h.partialList,
    (hread (addr + 16) (by omega) (by omega)).trans h.full⟩

theorem cacheInsert_spec {m m' : Mem} {caches caches' : List Nat} {chunk addr : Nat}
    (hret : cacheInsert m caches chunk addr = some (m', caches')) :
    caches' = caches ++ [addr] ∧ CacheReady m' chunk addr ∧ Mem.ChangesIn [⟨addr, 40⟩] m m' := by
  rw [cacheInsert] at hret
  split_ifs at hret with hfail
  obtain ⟨hne, hmax⟩ := not_or.mp hfail
  simp only [slabMaxChunkSize, Decidable.not_not] at hmax
  cases hret
  refine ⟨rfl, ⟨hne, ?_, ?_, ?_, ?_⟩, ?_⟩
  all_goals simp only [slabsEmpty, slabsPartial, slabsFull]
  · rw [chunkSize, Mem.read64_write64_of_disjoint _ _ (by omega)]
    exact Mem.read64_write64_same _ _ (by omega)
  · rw [Mem.read64_write64_of_disjoint _ _ (by omega),
      Mem.read64_write64_of_disjoint _ _ (by omega)]
    exact Mem.read64_write64_same _ _ (by omega)
  · rw [Mem.read64_write64_of_disjoint _ _ (by omega),
      Mem.read64_write64_of_disjoint _ _ (by omega), Mem.read64_write64_of_disjoint _ _ (by omega)]
    exact Mem.read64_write64_same _ _ (by omega)
  · rw [Mem.read64_write64_of_disjoint _ _ (by omega),
      Mem.read64_write64_of_disjoint _ _ (by omega), Mem.read64_write64_of_disjoint _ _ (by omega),
      Mem.read64_write64_of_disjoint _ _ (by omega)]
    exact Mem.read64_write64_same _ _ (by omega)
  · intro x hx
    have hout := hx _ List.mem_cons_self
    simp only [Span.Has] at hout
    simp only [Mem.write64]
    rw [Mem.writeN_out _ _ (by omega), Mem.writeN_out _ _ (by omega),
      Mem.writeN_out _ _ (by omega), Mem.writeN_out _ _ (by omega), Mem.writeN_out _ _ (by omega)]

/-- The loop of `init_slab`, for any list of sizes with pages apart from each other. -/
theorem insertAll_spec {pairs : List (Nat × Nat)} {m m' : Mem} {caches caches' : List Nat}
    (hapart : pairs.Pairwise fun p q => p.2 + 4096 ≤ q.2 ∨ q.2 + 4096 ≤ p.2)
    (hret : pairs.foldlM (fun (s : Mem × List Nat) p => cacheInsert s.1 s.2 p.1 p.2) (m, caches) =
      some (m', caches')) :
    caches' = caches ++ pairs.map Prod.snd ∧ (∀ p ∈ pairs, CacheReady m' p.1 p.2) ∧
      Mem.ChangesIn (pairs.map fun p => ⟨p.2, 40⟩) m m' := by
  induction pairs generalizing m caches with
  | nil =>
      cases hret
      exact ⟨by simp, by simp, Mem.ChangesIn.refl _ _⟩
  | cons p rest ih =>
      obtain ⟨hfirst, hrest⟩ := List.pairwise_cons.mp hapart
      simp only [List.foldlM_cons, bind, Option.bind_eq_some_iff, Prod.exists] at hret
      obtain ⟨m₁, caches₁, hinsert, hret⟩ := hret
      obtain ⟨rfl, hready, hchanges⟩ := cacheInsert_spec hinsert
      obtain ⟨rfl, hlater, hafter⟩ := ih hrest hret
      refine ⟨by simp, ?_, ?_⟩
      · refine List.forall_mem_cons.mpr ⟨hready.frame ?_, hlater⟩
        intro x hlo hhi
        apply hafter
        intro s hs
        obtain ⟨q, hq, rfl⟩ := List.mem_map.mp hs
        have := hfirst q hq
        simp only [Span.Has]
        omega
      · exact (hchanges.weaken (by simp)).trans (hafter.weaken (by simp))

/-- How the pages of the eight caches' slabs are cut. -/
def layouts : List Layout :=
  [⟨8, 5, 507, by decide, by decide, by decide, by decide, by decide, by decide, by decide⟩,
    ⟨16, 3, 253, by decide, by decide, by decide, by decide, by decide, by decide, by decide⟩,
    ⟨32, 2, 126, by decide, by decide, by decide, by decide, by decide, by decide, by decide⟩,
    ⟨64, 1, 63, by decide, by decide, by decide, by decide, by decide, by decide, by decide⟩,
    ⟨128, 1, 31, by decide, by decide, by decide, by decide, by decide, by decide, by decide⟩,
    ⟨256, 1, 15, by decide, by decide, by decide, by decide, by decide, by decide, by decide⟩,
    ⟨512, 1, 7, by decide, by decide, by decide, by decide, by decide, by decide, by decide⟩,
    ⟨1024, 1, 3, by decide, by decide, by decide, by decide, by decide, by decide, by decide⟩]

/-- What `palloc` answers while `init_slab` runs: eight pages apart from each other. -/
structure AnswersOk (answers : List Nat) : Prop where
  length : answers.length = knownChunks.length
  aligned : ∀ a ∈ answers, 4096 ∣ a
  fits : ∀ a ∈ answers, a + 4096 < 2 ^ 64
  apart : answers.Pairwise fun a b => a + 4096 ≤ b ∨ b + 4096 ≤ a

def cacheInfos (answers : List Nat) : List CacheInfo := List.zipWith CacheInfo.mk answers layouts

def startHeap (m : Mem) (caches : List Nat) : Heap where
  mem := m
  frames := caches.map fun a => ⟨⟨a, 4096⟩, .cache⟩
  live := []

theorem cacheInfos_spec {answers : List Nat} (h : answers.length = knownChunks.length) :
    (cacheInfos answers).map (fun c => (c.layout.size, c.addr)) = knownChunks.zip answers ∧
      (cacheInfos answers).map (fun c => c.layout.size) = knownChunks ∧
      (cacheInfos answers).map CacheInfo.addr = answers ∧
      (knownChunks.zip answers).map Prod.snd = answers := by
  match answers, h with
  | [_, _, _, _, _, _, _, _], _ => exact ⟨rfl, rfl, rfl, rfl⟩

/-- The invariant after `init_slab`. -/
theorem initSlab_inv {m m₀ : Mem} {answers caches : List Nat} (hok : AnswersOk answers)
    (hinit : initSlab m answers = some (m₀, caches)) :
    caches = (cacheInfos answers).map CacheInfo.addr ∧
      HeapInv (cacheInfos answers) [] (startHeap m₀ caches) := by
  obtain ⟨hpairs, hsizes, haddrs, hsnd⟩ := cacheInfos_spec hok.length
  have hapart : (cacheInfos answers).Pairwise fun c c' =>
      c.addr + 4096 ≤ c'.addr ∨ c'.addr + 4096 ≤ c.addr := by
    rw [← List.pairwise_map (f := CacheInfo.addr)
      (R := fun a b => a + 4096 ≤ b ∨ b + 4096 ≤ a), haddrs]
    exact hok.apart
  have hpages : (knownChunks.zip answers).Pairwise fun p q =>
      p.2 + 4096 ≤ q.2 ∨ q.2 + 4096 ≤ p.2 := by
    rw [← hpairs]
    exact List.pairwise_map.mpr hapart
  obtain ⟨hcaches, hready, -⟩ := insertAll_spec hpages hinit
  rw [List.nil_append, hsnd] at hcaches
  subst hcaches
  have hcache : ∀ c ∈ cacheInfos caches, CacheReady m₀ c.layout.size c.addr := by
    intro c hc
    have hmem : (c.layout.size, c.addr) ∈ knownChunks.zip caches := by
      rw [← hpairs]
      exact List.mem_map_of_mem hc
    exact hready _ hmem
  have hmem : ∀ c ∈ cacheInfos caches, c.addr ∈ caches := by
    intro c hc
    have := List.mem_map_of_mem (f := CacheInfo.addr) hc
    rwa [haddrs] at this
  refine ⟨haddrs.symm, ?_, ⟨?_, ?_⟩, by simp, ?_, by simp [startHeap], List.nodup_nil⟩
  · exact {
      frames_disjoint := List.pairwise_map.mpr hok.apart
      frames_aligned := by
        intro f hf
        obtain ⟨a, ha, rfl⟩ := List.mem_map.mp hf
        refine ⟨hok.aligned a ha, ?_⟩
        obtain ⟨c, hc, rfl⟩ := List.mem_map.mp (haddrs.symm ▸ ha)
        exact (hcache c hc).ne_zero
      frames_fit := by
        intro f hf
        obtain ⟨a, ha, rfl⟩ := List.mem_map.mp hf
        exact ⟨hok.fits a ha, Nat.le_refl _⟩
      sizes := hsizes
      caches_frame := fun c hc => List.mem_map.mpr ⟨c.addr, hmem c hc, rfl⟩
      caches_inj := by
        intro c hc c' hc' heq
        by_contra hne
        have hsymm : Std.Symm fun c c' : CacheInfo =>
            c.addr + 4096 ≤ c'.addr ∨ c'.addr + 4096 ≤ c.addr := ⟨fun _ _ h => h.symm⟩
        have := hapart.forall hc hc' hne
        omega
      slabs_frame := by simp
      slabs_cache := by simp
      slabs_inj := by simp }
  · exact fun c hc => (hcache c hc).size
  · intro c hc cell hcell
    rcases hcell with (rfl | rfl | rfl) | ⟨sl, hsl, -⟩
    · exact Or.inl (hcache c hc).empty
    · exact Or.inl (hcache c hc).partialList
    · exact Or.inl (hcache c hc).full
    · cases hsl
  · intro f hf huse
    obtain ⟨a, -, rfl⟩ := List.mem_map.mp hf
    cases huse

end Init

/-- One step of a run: a call or stores by the owners, each as promised, where no slab is
spawned in front of a word that is in use. -/
def RunStep (caches : List Nat) (h h' : Heap) : Prop :=
  ∃ op fuel, Allowed h op ∧ NullBehindSpawn caches h op ∧ h.step fuel caches op = some h'

/-- In every state reached from `init_slab` the live blocks are apart and inside the frames,
and every call from there on leaves other blocks and foreign memory alone. -/
theorem kernel_heap_noninterference {m m₀ : Mem} {answers caches : List Nat}
    (hinit : initSlab m answers = some (m₀, caches)) (hanswers : AnswersOk answers) {h : Heap}
    (hrun : Relation.ReflTransGen (RunStep caches) (startHeap m₀ caches) h) :
    h.Separated ∧ ∀ op fuel h', op.isCall → Allowed h op → NullBehindSpawn caches h op →
      h.step fuel caches op = some h' → Quiet h op h' := by
  obtain ⟨rfl, hstart⟩ := initSlab_inv hanswers hinit
  have hinv : ∃ slabs, HeapInv (cacheInfos answers) slabs h := by
    induction hrun with
    | refl => exact ⟨[], hstart⟩
    | tail _ hstep ih =>
        obtain ⟨slabs, hinv⟩ := ih
        obtain ⟨op, fuel, hallowed, hnull, hstep⟩ := hstep
        obtain ⟨slabs', hnext, -⟩ := hinv.step hallowed hnull hstep
        exact ⟨slabs', hnext⟩
  obtain ⟨slabs, hinv⟩ := hinv
  refine ⟨hinv.separated, ?_⟩
  intro op fuel h' hcall hallowed hnull hstep
  obtain ⟨slabs', -, hquiet⟩ := hinv.step hallowed hnull hstep
  exact hquiet hcall

/-- Eight pages for the caches, and memory with one byte in use at `0xa000`. -/
def bootPages : List Nat :=
  [0x1000, 0x2000, 0x3000, 0x4000, 0x5000, 0x6000, 0x7000, 0x8000]

def usedMem (v : UInt8) : Mem := fun k => if k = 0xa000 then v else 0

/-- Memory after `init_slab`. -/
def bootMem (v : UInt8) : Mem := ((initSlab (usedMem v) bootPages).map Prod.fst).getD (usedMem v)

/-- `kmalloc` of the largest chunk when the page at `0x9000` is the next free one. -/
def firstMalloc : Op := .kmalloc 1024 fun n => if n = 1 then 0x9000 else 0

theorem bootPages_ok : AnswersOk bootPages :=
  ⟨rfl, by decide, by decide, by decide⟩

theorem initSlab_boot (v : UInt8) : initSlab (usedMem v) bootPages = some (bootMem v, bootPages) :=
  rfl

theorem firstMalloc_allowed (v : UInt8) : Allowed (startHeap (bootMem v) bootPages) firstMalloc := by
  intro n hn
  dsimp only at hn ⊢
  split_ifs at hn ⊢ with hone
  · subst hone
    have hapart : ∀ a ∈ bootPages, Span.Disjoint ⟨0x9000, 4096 * 1⟩ ⟨a, 4096⟩ := by decide
    refine ⟨by decide, by decide, by decide, ?_⟩
    intro f hf
    obtain ⟨a, ha, rfl⟩ := List.mem_map.mp hf
    exact hapart a ha
  · exact absurd rfl hn

/-- With nothing behind the page, the first `kmalloc` is quiet and leaves blocks apart. -/
theorem kernel_heap_first_malloc :
    ∃ h', (startHeap (bootMem 0) bootPages).step 3 bootPages firstMalloc = some h' ∧
      Quiet (startHeap (bootMem 0) bootPages) firstMalloc h' ∧ h'.live = [⟨0x9400, 1024⟩] ∧
      h'.Separated := by
  have hnull : NullBehindSpawn bootPages (startHeap (bootMem 0) bootPages) firstMalloc := by
    intro _ _ _ _
    decide +kernel
  have hlive : ((startHeap (bootMem 0) bootPages).step 3 bootPages firstMalloc).map
      (fun h => h.live) = some [⟨0x9400, 1024⟩] := by decide +kernel
  obtain ⟨h', hstep, hlive⟩ := Option.map_eq_some_iff.mp hlive
  have hallowed := firstMalloc_allowed 0
  refine ⟨h', hstep, ?_, hlive, ?_⟩
  · exact (kernel_heap_noninterference (initSlab_boot 0) bootPages_ok .refl).2 firstMalloc 3 h'
      trivial hallowed hnull hstep
  · exact (kernel_heap_noninterference (initSlab_boot 0) bootPages_ok
      (.single ⟨firstMalloc, 3, hallowed, hnull, hstep⟩)).1

/-- With a byte in use behind the page, the same call clears it. -/
theorem spawn_clears_foreign_byte :
    initSlab (usedMem 1) bootPages = some (bootMem 1, bootPages) ∧ AnswersOk bootPages ∧
      Allowed (startHeap (bootMem 1) bootPages) firstMalloc ∧
      ∃ h', (startHeap (bootMem 1) bootPages).step 3 bootPages firstMalloc = some h' ∧
        (∀ f ∈ (startHeap (bootMem 1) bootPages).frames ++ h'.frames, ¬ f.span.Has 0xa000) ∧
        bootMem 1 0xa000 = 1 ∧ h'.mem 0xa000 = 0 ∧
        ¬ Quiet (startHeap (bootMem 1) bootPages) firstMalloc h' := by
  have hbyte : bootMem 1 0xa000 = 1 := by decide +kernel
  have hrun : ((startHeap (bootMem 1) bootPages).step 3 bootPages firstMalloc).map
      (fun h => (h.mem 0xa000, decide (∀ f ∈ h.frames, ¬ f.span.Has 0xa000))) =
        some (0, true) := by
    decide +kernel
  obtain ⟨h', hstep, hvalues⟩ := Option.map_eq_some_iff.mp hrun
  obtain ⟨hafter, hframes⟩ := Prod.mk.inj hvalues
  have hout : ∀ f ∈ (startHeap (bootMem 1) bootPages).frames ++ h'.frames,
      ¬ f.span.Has 0xa000 := by
    intro f hf
    rcases List.mem_append.mp hf with hf | hf
    · have hapart : ∀ a ∈ bootPages, ¬ Span.Has ⟨a, 4096⟩ 0xa000 := by decide
      obtain ⟨a, ha, rfl⟩ := List.mem_map.mp hf
      exact hapart a ha
    · exact of_decide_eq_true hframes f hf
  refine ⟨initSlab_boot 1, bootPages_ok, firstMalloc_allowed 1, h', hstep, hout, hbyte, hafter, ?_⟩
  intro hquiet
  have hkept := hquiet.foreign 0xa000 hout
  have hmem : (startHeap (bootMem 1) bootPages).mem = bootMem 1 := rfl
  rw [hafter, hmem, hbyte] at hkept
  exact absurd hkept (by decide)

end Tellurium.Slab
