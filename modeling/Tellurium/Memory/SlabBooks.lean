import Tellurium.Memory.HeapRuns

/-!
The bookkeeping that `slab.c` is written for: three doubly linked lists for each cache,
counters of used chunks and free chains that end. Spawning a slab already breaks it, since
the null that should end the free chain is stored behind the page; the chain of every slab
ends at the end of its page instead. So the books are kept exactly by the runs that never
reach the slabs.
-/

namespace Tellurium.Slab

open Tellurium.Lib

/-- A null-terminated list of slabs whose `prev` links mirror its `next` links; `p` is the
pointer to it and `prev` the slab that holds it. -/
def SlabList (m : Mem) : Nat → Nat → List Nat → Prop
  | _, p, [] => p = 0
  | prev, p, slab :: rest =>
      p = slab ∧ slab ≠ 0 ∧ slabPrev m slab = prev ∧ SlabList m slab (slabNext m slab) rest

/-- The slabs spawned so far. -/
def Heap.slabs (h : Heap) : List Nat :=
  (h.frames.filter fun f => f.use = .slab).map fun f => f.span.base

/-- The addresses of the chunks of a slab. -/
def chunkAddrs (size base : Nat) : List Nat :=
  let header := if headerSize % size ≠ 0 then headerSize / size + 1 else headerSize / size
  (List.range (pageSizeBytes / size - header)).map fun i => base + size * (header + i)

/-- One slab's counter and free chain, and the list it is in. -/
structure SlabBook (h : Heap) (empty partialSlabs full : List Nat) (slab : Nat) : Prop where
  used : usedChunks h.mem slab = (liveIn (h.live.map Span.base) slab).length
  chain : ∃ free, (free ++ liveIn (h.live.map Span.base) slab).Perm
      (chunkAddrs (chunkSize h.mem (slabCache h.mem slab)) slab) ∧
    Linked (fun a => h.mem.read64 a) ((slab + 28) :: (free ++ [0]))
  in_empty : slab ∈ empty ↔ usedChunks h.mem slab = 0
  in_full : slab ∈ full ↔ usedChunks h.mem slab = totalChunks h.mem slab
  in_partial : slab ∈ partialSlabs ↔
    usedChunks h.mem slab ≠ 0 ∧ usedChunks h.mem slab ≠ totalChunks h.mem slab

/-- The three lists of a cache hold its slabs once each, in the list their counter asks for. -/
def CacheBook (h : Heap) (cache : Nat) : Prop :=
  ∃ empty partialSlabs full,
    SlabList h.mem 0 (h.mem.read64 (slabsEmpty cache)) empty ∧
    SlabList h.mem 0 (h.mem.read64 (slabsPartial cache)) partialSlabs ∧
    SlabList h.mem 0 (h.mem.read64 (slabsFull cache)) full ∧
    (empty ++ partialSlabs ++ full).Nodup ∧
    (∀ slab, slab ∈ empty ++ partialSlabs ++ full ↔
      slab ∈ h.slabs ∧ slabCache h.mem slab = cache) ∧
    ∀ slab ∈ h.slabs, slabCache h.mem slab = cache → SlabBook h empty partialSlabs full slab

structure Books (caches : List Nat) (h : Heap) : Prop where
  lists : ∀ cache ∈ caches, CacheBook h cache
  listed : ∀ slab ∈ h.slabs, slabCache h.mem slab ∈ caches

/-- The calls of such a run, and the stores between them. -/
def Op.isSlabOp : Op → Prop
  | .krealloc _ _ _ => False
  | _ => True

/-- A request that is not served by a slab. -/
def Op.pastSlabs : Op → Prop
  | .kmalloc size _ => slabMaxChunkSize < size
  | _ => True

/-- The states after each call of a run. -/
def IsRun (caches : List Nat) : Heap → List (Op × Heap) → Prop
  | _, [] => True
  | h, (op, h') :: rest => op.isSlabOp ∧ Allowed h op ∧
      (∃ fuel, h.step fuel caches op = some h') ∧ IsRun caches h' rest

section Unused

variable {cs : List CacheInfo} {h h' : Heap}

/-- A heap that no slab was spawned in. -/
structure Unused (cs : List CacheInfo) (h : Heap) : Prop where
  inv : HeapInv cs [] h
  frames : ∀ f ∈ h.frames, f.use ≠ .slab

theorem Unused.slabs_eq_nil (hun : Unused cs h) : h.slabs = [] := by
  rw [Heap.slabs, List.map_eq_nil_iff, List.filter_eq_nil_iff]
  intro f hf
  simpa using hun.frames f hf

theorem Unused.head_null (hun : Unused cs h) {c : CacheInfo} (hc : c ∈ cs) {cell : Nat}
    (hcell : Head c cell) : h.mem.read64 cell = 0 := by
  rcases hun.inv.ok.links c hc cell hcell.cell with hzero | ⟨sl, hsl, -⟩
  · exact hzero
  · cases hsl

/-- Nothing is booked wrong where nothing is booked. -/
theorem Unused.books (hun : Unused cs h) : Books (cs.map CacheInfo.addr) h := by
  have hnone := hun.slabs_eq_nil
  constructor
  · intro cache hcache
    obtain ⟨c, hc, rfl⟩ := List.mem_map.mp hcache
    refine ⟨[], [], [], ?_, ?_, ?_, List.nodup_nil, ?_, ?_⟩
    · exact hun.head_null hc (Or.inl rfl)
    · exact hun.head_null hc (Or.inr (Or.inl rfl))
    · exact hun.head_null hc (Or.inr (Or.inr rfl))
    · simp [hnone]
    · simp [hnone]
  · simp [hnone]

/-- Calls past the slabs and stores leave the slabs unused. -/
theorem Unused.step (hun : Unused cs h) {fuel : Nat} {op : Op} (hop : op.isSlabOp)
    (hpast : op.pastSlabs) (hallowed : Allowed h op)
    (hstep : h.step fuel (cs.map CacheInfo.addr) op = some h') : Unused cs h' := by
  cases op with
  | kmalloc size palloc =>
      simp only [Heap.step, Option.map_eq_some_iff] at hstep
      obtain ⟨r, halloc, rfl⟩ := hstep
      have hidx : getCacheIndex h.mem (cs.map CacheInfo.addr) size = none := by
        cases hidx : getCacheIndex h.mem (cs.map CacheInfo.addr) size with
        | none => rfl
        | some i =>
            obtain ⟨-, -, -, -, hsmall⟩ := getCacheIndex_some hun.inv.geo hun.inv.ok hidx
            exact absurd hpast (Nat.not_lt.mpr hsmall)
      refine ⟨(hun.inv.allocPages hallowed hidx halloc).1, ?_⟩
      intro f hf
      rcases List.mem_append.mp hf with hf | hf
      · simp only [Option.mem_toList, Option.map_eq_some_iff] at hf
        obtain ⟨span, -, rfl⟩ := hf
        simp [Nat.not_le.mpr hpast]
      · exact hun.frames f hf
  | krealloc addr size palloc => exact hop.elim
  | kfree addr =>
      obtain ⟨b, hb, rfl⟩ := hallowed
      cases hstep
      exact ⟨(hun.inv.free hb).1, fun f hf => hun.frames f (List.mem_filter.mp hf).1⟩
  | store mem =>
      cases hstep
      exact ⟨hun.inv.store hallowed, hun.frames⟩

theorem chunkAddrs_eq (l : Layout) (base : Nat) : chunkAddrs l.size base = l.chunks base := by
  have hmin := l.min
  have hdiv : pageSizeBytes / l.size = l.header + l.total := by
    rw [pageSizeBytes, ← l.fills, Nat.mul_div_cancel_left _ (by omega)]
  simp only [chunkAddrs, l.header_eq, hdiv, Nat.add_sub_cancel_left]
  rfl

/-- The free chain of a slab ends at the end of its page, so it does not end in null. -/
theorem SlabOk.not_books {sl : SlabInfo}
    (hslab : SlabOk h.mem sl (liveIn (h.live.map Span.base) sl.base))
    (hsize : chunkSize h.mem sl.cache.addr = sl.cache.layout.size) (hmem : sl.base ∈ h.slabs) :
    ¬ Books (cs.map CacheInfo.addr) h := by
  intro hbooks
  obtain ⟨empty, partialSlabs, full, -, -, -, -, -, hbook⟩ :=
    hbooks.lists _ (hbooks.listed sl.base hmem)
  obtain ⟨free, hperm, hchain⟩ := (hbook sl.base hmem rfl).chain
  obtain ⟨free', hperm', hchain'⟩ := hslab.chain
  rw [hslab.cache, hsize, chunkAddrs_eq] at hperm
  have hlen : free.length = free'.length := by
    have h1 := hperm.length_eq
    have h2 := hperm'.length_eq
    simp only [List.length_append] at h1 h2
    omega
  have hend := hchain.end_unique hchain' hlen
  omega

/-- The last store of a spawn, wherever it goes, while there is no other slab. -/
theorem Spawned.last_store_first {frames : List OwnedFrame} {c : CacheInfo} {base : Nat}
    {m m' : Mem} (hg : Geometry cs frames []) (hfresh : Fresh frames base 4096) (hc : c ∈ cs)
    (hspawned : Spawned cs [] c base m m') :
    MetaOk cs [⟨base, c⟩] (m'.write64 (base + 4096) 0) ∧
      SlabOk (m'.write64 (base + 4096) 0) ⟨base, c⟩ [] := by
  constructor
  · exact hspawned.links_kept hg hfresh hc
  · apply hspawned.slab_ok.frame
    intro x hlo hhi _ _
    dsimp only at hlo hhi
    exact Mem.writeN_out _ _ (by omega)

/-- The first chunk: a slab is spawned for it, whether or not one is then taken there. -/
theorem slabAllocChunk_first {frames : List OwnedFrame} {m : Mem} {c : CacheInfo} {lives : List Nat}
    {fuel : Nat} {palloc : Nat → Nat} {r : Result} (hg : Geometry cs frames [])
    (hm : MetaOk cs [] m) (hlives : ∀ a ∈ lives, ∃ f ∈ frames, f.span.Has a) (hc : c ∈ cs)
    (hfresh : palloc 1 ≠ 0 → Fresh frames (palloc 1) 4096)
    (hret : slabAllocChunk fuel palloc m c.addr = some r) :
    r.got = some ⟨palloc 1, 4096⟩ ∧ MetaOk cs [⟨palloc 1, c⟩] r.mem ∧
      SlabOk r.mem ⟨palloc 1, c⟩
        (liveIn (if r.ret = 0 then lives else r.ret :: lives) (palloc 1)) := by
  have hnone : ∀ sl ∈ ([] : List SlabInfo), SlabOk m sl (liveIn lives sl.base) := by simp
  obtain ⟨-, hnonzero, hgot, m₃, hspawn, hwalk⟩ :=
    (slabAllocChunk_cases hg hm hnone hc hret).resolve_left fun ⟨_, hsl, _⟩ => by cases hsl
  have hnew := hfresh hnonzero
  obtain ⟨hmeta, hslab⟩ := (spawnMem_spawned hg hnew hm hc).last_store_first hg hnew hc
  rw [slabSpawn_eq hg hnew hm hc] at hspawn
  rw [Option.some.inj hspawn] at hmeta hslab
  have hlone : liveIn lives (palloc 1) = [] := hnew.liveIn_eq_nil hlives
  have hok : ∀ sl ∈ [(⟨palloc 1, c⟩ : SlabInfo)], SlabOk m₃ sl (liveIn lives sl.base) := by
    intro sl hsl
    rw [List.mem_singleton.mp hsl, hlone]
    exact hslab
  have hhead := hmeta.links c hc (slabsEmpty c.addr) (Or.inl (Or.inl rfl))
  refine ⟨hgot, ?_⟩
  rcases slabInnerAllocChunk_spec (hg.spawn hnew hc) hmeta hok hc hhead hwalk with
    ⟨hnull, hmem⟩ | ⟨sl, hsl, hcache, htook⟩
  · rw [if_pos hnull, hmem]
    exact ⟨hmeta, hok _ List.mem_cons_self⟩
  · rw [if_neg htook.ne_zero]
    exact ⟨htook.ok, htook.slabs_ok _ List.mem_cons_self⟩

/-- The first request for a chunk spawns a slab, and the books are wrong from then on. -/
theorem Unused.not_books_of_chunk (hun : Unused cs h) {fuel size : Nat} {palloc : Nat → Nat}
    (hsmall : size ≤ slabMaxChunkSize) (hpalloc : PallocOk h.frames palloc)
    (hstep : h.step fuel (cs.map CacheInfo.addr) (.kmalloc size palloc) = some h') :
    ¬ Books (cs.map CacheInfo.addr) h' := by
  simp only [Heap.step, Option.map_eq_some_iff] at hstep
  obtain ⟨r, halloc, rfl⟩ := hstep
  rw [slabAlloc] at halloc
  cases hidx : getCacheIndex h.mem (cs.map CacheInfo.addr) size with
  | none =>
      have hbig := (getCacheIndex_none hun.inv.geo hun.inv.ok hidx).1
      exact absurd hbig (Nat.not_lt.mpr hsmall)
  | some i =>
      simp only [hidx] at halloc
      obtain ⟨c, hc, haddr, -, -⟩ := getCacheIndex_some hun.inv.geo hun.inv.ok hidx
      rw [haddr] at halloc
      obtain ⟨hgot, hmeta, hslab⟩ := slabAllocChunk_first hun.inv.geo hun.inv.ok
        hun.inv.live_in_frames hc (hpalloc 1) halloc
      have hlive : (h.afterAlloc size r).live.map Span.base =
          if r.ret = 0 then h.live.map Span.base else r.ret :: h.live.map Span.base := by
        simp only [Heap.afterAlloc]
        split_ifs with hnull
        · rfl
        · rfl
      rw [← hlive] at hslab
      refine SlabOk.not_books hslab (hmeta.cache_size c hc) ?_
      simp [Heap.slabs, Heap.afterAlloc, hgot, hsmall]

end Unused

theorem initSlab_unused {m m₀ : Mem} {answers caches : List Nat} (hanswers : AnswersOk answers)
    (hinit : initSlab m answers = some (m₀, caches)) :
    caches = (cacheInfos answers).map CacheInfo.addr ∧
      Unused (cacheInfos answers) (startHeap m₀ caches) := by
  obtain ⟨hcaches, hinv⟩ := initSlab_inv hanswers hinit
  refine ⟨hcaches, hinv, ?_⟩
  intro f hf
  obtain ⟨a, -, rfl⟩ := List.mem_map.mp hf
  exact nofun

/-- The books along a run that starts where no slab was spawned. -/
theorem Unused.books_iff {cs : List CacheInfo} {h : Heap} (hun : Unused cs h)
    {run : List (Op × Heap)} (hrun : IsRun (cs.map CacheInfo.addr) h run) :
    (∀ p ∈ run, Books (cs.map CacheInfo.addr) p.2) ↔ ∀ p ∈ run, p.1.pastSlabs := by
  induction run generalizing h with
  | nil => simp
  | cons p rest ih =>
      obtain ⟨op, h'⟩ := p
      obtain ⟨hop, hallowed, ⟨fuel, hstep⟩, hrest⟩ := hrun
      rw [List.forall_mem_cons, List.forall_mem_cons]
      constructor
      · rintro ⟨hbooks, hlater⟩
        have hpast : op.pastSlabs := by
          cases op with
          | kmalloc size palloc =>
              apply Nat.lt_of_not_le
              intro hsmall
              exact hun.not_books_of_chunk hsmall hallowed hstep hbooks
          | krealloc | kfree | store => trivial
        exact ⟨hpast, (ih (hun.step hop hpast hallowed hstep) hrest).mp hlater⟩
      · rintro ⟨hpast, hlater⟩
        have hnext := hun.step hop hpast hallowed hstep
        exact ⟨hnext.books, (ih hnext hrest).mpr hlater⟩

/-- From `init_slab` on, the books are right after every call of a run exactly if no call of
the run asked for a chunk. -/
theorem slab_books_iff {m m₀ : Mem} {answers caches : List Nat}
    (hinit : initSlab m answers = some (m₀, caches)) (hanswers : AnswersOk answers)
    {run : List (Op × Heap)} (hrun : IsRun caches (startHeap m₀ caches) run) :
    (Books caches (startHeap m₀ caches) ∧ ∀ p ∈ run, Books caches p.2) ↔
      ∀ p ∈ run, p.1.pastSlabs := by
  obtain ⟨rfl, hun⟩ := initSlab_unused hanswers hinit
  rw [hun.books_iff hrun, and_iff_right hun.books]

/-- A `kmalloc` of more than a page when the pages from `0x9000` on are the next free ones. -/
def largeMalloc : Op := .kmalloc 5000 fun n => if n = 3 then 0x9000 else 0

/-- A block of two pages, and the books are right. -/
theorem slab_books_large_malloc :
    ∃ h', IsRun bootPages (startHeap (bootMem 0) bootPages) [(largeMalloc, h')] ∧
      h'.live = [⟨0xa000, 8192⟩] ∧ Books bootPages h' := by
  have hallowed : Allowed (startHeap (bootMem 0) bootPages) largeMalloc := by
    intro n hn
    dsimp only at hn ⊢
    split_ifs at hn ⊢ with hthree
    · subst hthree
      have hapart : ∀ a ∈ bootPages, Span.Disjoint ⟨0x9000, 4096 * 3⟩ ⟨a, 4096⟩ := by decide
      refine ⟨by decide, by decide, by decide, ?_⟩
      intro f hf
      obtain ⟨a, ha, rfl⟩ := List.mem_map.mp hf
      exact hapart a ha
    · exact absurd rfl hn
  have hlive : ((startHeap (bootMem 0) bootPages).step 1 bootPages largeMalloc).map
      (fun h => h.live) = some [⟨0xa000, 8192⟩] := by decide +kernel
  obtain ⟨h', hstep, hlive⟩ := Option.map_eq_some_iff.mp hlive
  have hrun : IsRun bootPages (startHeap (bootMem 0) bootPages) [(largeMalloc, h')] :=
    ⟨trivial, hallowed, ⟨1, hstep⟩, trivial⟩
  have hpast : ∀ p ∈ [(largeMalloc, h')], p.1.pastSlabs :=
    List.forall_mem_singleton.mpr (by decide : slabMaxChunkSize < 5000)
  have hbooks := ((slab_books_iff (initSlab_boot 0) bootPages_ok hrun).mpr hpast).2
  exact ⟨h', hrun, hlive, hbooks _ List.mem_cons_self⟩

/-- After the first `kmalloc` of a chunk the free chain of its slab runs off the page. -/
theorem first_chunk_spoils_books :
    initSlab (usedMem 0) bootPages = some (bootMem 0, bootPages) ∧ AnswersOk bootPages ∧
      ∃ h', IsRun bootPages (startHeap (bootMem 0) bootPages) [(firstMalloc, h')] ∧
        h'.live = [⟨0x9400, 1024⟩] ∧ ¬ Books bootPages h' := by
  have hlive : ((startHeap (bootMem 0) bootPages).step 3 bootPages firstMalloc).map
      (fun h => h.live) = some [⟨0x9400, 1024⟩] := by decide +kernel
  obtain ⟨h', hstep, hlive⟩ := Option.map_eq_some_iff.mp hlive
  have hallowed := firstMalloc_allowed 0
  refine ⟨initSlab_boot 0, bootPages_ok, h', ⟨trivial, hallowed, ⟨3, hstep⟩, trivial⟩, hlive, ?_⟩
  obtain ⟨-, hun⟩ := initSlab_unused bootPages_ok (initSlab_boot 0)
  exact hun.not_books_of_chunk (Nat.le_refl 1024) hallowed hstep

end Tellurium.Slab
