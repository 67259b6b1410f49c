import Tellurium.Memory.SlabHeap

/-!
`slab_spawn`: a fresh frame becomes a slab with an empty list of live chunks. The loop
threads the free list through all chunks and the store behind it hits the word after the
frame, so everything is first proved about the memory before that store.
-/

namespace Tellurium.Slab

open Tellurium.Lib

/-- An answer of a correct `palloc`: free pages, apart from the frames that are in use. -/
structure Fresh (frames : List OwnedFrame) (base len : Nat) : Prop where
  aligned : 4096 ∣ base
  ne_zero : base ≠ 0
  fits : base + len < 2 ^ 64
  apart : ∀ f ∈ frames, Span.Disjoint ⟨base, len⟩ f.span

/-- The header of the new slab, before it is linked. -/
def initHeader (m : Mem) (cache slab total : Nat) : Mem :=
  setCache (setTotalChunks (m.memset slab 0 headerSize) slab total) slab cache

/-- Insertion at the head of the empty list. -/
def linkEmpty (m : Mem) (cache slab : Nat) : Mem :=
  (if m.read64 (slabsEmpty cache) ≠ 0 then
    setPrev (setNext m slab (m.read64 (slabsEmpty cache)))
      (slabNext (setNext m slab (m.read64 (slabsEmpty cache))) slab) slab
  else m).write64 (slabsEmpty cache) slab

/-- The loop of `threadChunks` without the store behind it. -/
def threadLoop (m : Mem) (curChunk offset total : Nat) : Mem :=
  (List.range total).foldl
    (fun m i => m.write64 (curChunk + 8 * (i * offset)) (curChunk + 8 * ((i + 1) * offset))) m

section Spawn

variable {cs : List CacheInfo} {frames : List OwnedFrame} {slabs : List SlabInfo} {m m' : Mem}
  {c : CacheInfo} {base : Nat}

theorem Geometry.spawn (hg : Geometry cs frames slabs) (hfresh : Fresh frames base 4096)
    (hc : c ∈ cs) : Geometry cs (⟨⟨base, 4096⟩, .slab⟩ :: frames) (⟨base, c⟩ :: slabs) where
  frames_disjoint := List.pairwise_cons.mpr ⟨hfresh.apart, hg.frames_disjoint⟩
  frames_aligned := List.forall_mem_cons.mpr ⟨⟨hfresh.aligned, hfresh.ne_zero⟩, hg.frames_aligned⟩
  frames_fit := List.forall_mem_cons.mpr ⟨⟨hfresh.fits, Nat.le_refl _⟩, hg.frames_fit⟩
  sizes := hg.sizes
  caches_frame := fun c hc => List.mem_cons_of_mem _ (hg.caches_frame c hc)
  caches_inj := hg.caches_inj
  slabs_frame := List.forall_mem_cons.mpr
    ⟨List.mem_cons_self, fun sl hsl => List.mem_cons_of_mem _ (hg.slabs_frame sl hsl)⟩
  slabs_cache := List.forall_mem_cons.mpr ⟨hc, hg.slabs_cache⟩
  slabs_inj := by
    have hne : ∀ sl ∈ slabs, sl.base ≠ base := by
      intro sl hsl heq
      have := hfresh.apart _ (hg.slabs_frame sl hsl)
      simp only [Span.Disjoint] at this
      omega
    intro sl hsl sl' hsl' heq
    rcases List.mem_cons.mp hsl with rfl | hsl <;> rcases List.mem_cons.mp hsl' with rfl | hsl'
    · rfl
    · exact absurd heq.symm (hne sl' hsl')
    · exact absurd heq (hne sl hsl)
    · exact hg.slabs_inj sl hsl sl' hsl' heq

theorem Ptr.cons {v : Nat} (h : Ptr slabs c v) (sl : SlabInfo) : Ptr (sl :: slabs) c v := by
  rcases h with rfl | ⟨sl', hsl', hc, hv⟩
  · exact Or.inl rfl
  · exact Or.inr ⟨sl', List.mem_cons_of_mem _ hsl', hc, hv⟩

theorem initHeader_spec (m : Mem) (cache slab : Nat) {total : Nat} (hcache : cache < 2 ^ 64)
    (htotal : total < 2 ^ 16) :
    slabCache (initHeader m cache slab total) slab = cache ∧
      slabPrev (initHeader m cache slab total) slab = 0 ∧
      slabNext (initHeader m cache slab total) slab = 0 ∧
      usedChunks (initHeader m cache slab total) slab = 0 ∧
      totalChunks (initHeader m cache slab total) slab = total ∧
      Mem.ChangesIn [⟨slab, 36⟩] m (initHeader m cache slab total) := by
  have hzero : ∀ a n, slab + 8 ≤ a → a + n ≤ slab + 26 →
      (initHeader m cache slab total).readN a n = 0 := by
    intro a n hlo hhi
    rw [initHeader, setCache, Mem.write64, Mem.readN_writeN_of_disjoint _ _ (by omega),
      setTotalChunks, Mem.write16, Mem.readN_writeN_of_disjoint _ _ (by omega)]
    apply Mem.readN_eq_zero
    intro i hi hi'
    rw [Mem.memset_apply, if_pos]
    simp only [headerSize]
    omega
  refine ⟨?_, hzero _ _ (by omega) (by omega), hzero _ _ (by omega) (by omega),
    hzero _ _ (by omega) (by omega), ?_, ?_⟩
  · exact Mem.read64_write64_same _ _ hcache
  · rw [totalChunks, Mem.read16, initHeader, setCache, Mem.write64,
      Mem.readN_writeN_of_disjoint _ _ (by omega)]
    exact Mem.readN_writeN_same _ _ (by omega)
  · intro x hx
    have hout := hx ⟨slab, 36⟩ List.mem_cons_self
    simp only [Span.Has] at hout
    rw [initHeader, setCache, Mem.write64, Mem.writeN_out _ _ (by omega), setTotalChunks,
      Mem.write16, Mem.writeN_out _ _ (by omega), Mem.memset_out _ _ (by simp only [headerSize]; omega)]

/-- Changes in a fresh page concern neither the lists nor the other slabs. -/
theorem MetaOk.spawn (hg : Geometry cs frames slabs) (hfresh : Fresh frames base 4096)
    (hm : MetaOk cs slabs m) (hchanges : Mem.ChangesIn [⟨base, 36⟩] m m')
    (hprev : slabPrev m' base = 0) (hnext : slabNext m' base = 0) :
    MetaOk cs (⟨base, c⟩ :: slabs) m' := by
  have hout : ∀ x, x < base ∨ base + 4096 ≤ x → m' x = m x := by
    intro x hx
    apply hchanges
    intro s hs
    rw [List.mem_singleton.mp hs]
    simp only [Span.Has]
    omega
  have hold : MetaOk cs slabs m' := by
    apply hm.frame
    · intro c hc x hlo hhi
      have := hfresh.apart _ (hg.caches_frame c hc)
      simp only [Span.Disjoint] at this
      exact hout x (by omega)
    · intro sl hsl x hlo hhi
      have := hfresh.apart _ (hg.slabs_frame sl hsl)
      simp only [Span.Disjoint] at this
      exact hout x (by omega)
  refine ⟨hold.cache_size, ?_⟩
  intro c' hc' cell hcell
  rcases hcell with hcell | ⟨sl, hsl, hcache, hcell⟩
  · exact (hold.links c' hc' cell (Or.inl hcell)).cons _
  · rcases List.mem_cons.mp hsl with rfl | hsl
    · rcases hcell with rfl | rfl
      · exact Or.inl hprev
      · exact Or.inl hnext
    · exact (hold.links c' hc' cell (Or.inr ⟨sl, hsl, hcache, hcell⟩)).cons _

/-- Linking the new slab stores list pointers and leaves it at the head. -/
theorem linkEmpty_spec (hg : Geometry cs frames slabs) (hm : MetaOk cs slabs m)
    (hsl : ⟨base, c⟩ ∈ slabs) :
    Relinked cs slabs m (linkEmpty m c.addr base) ∧
      (linkEmpty m c.addr base).read64 (slabsEmpty c.addr) = base := by
  have hc : c ∈ cs := hg.slabs_cache _ hsl
  have hhead : LinkCell slabs c (slabsEmpty c.addr) := Or.inl (Or.inl rfl)
  have hself : Ptr slabs c base := Or.inr ⟨_, hsl, rfl, rfl⟩
  have hold := hm.links c hc _ hhead
  refine ⟨?_, Mem.read64_write64_same _ _ (hself.lt hg)⟩
  unfold linkEmpty
  refine Relinked.store hg ?_ hc hhead hself
  split_ifs with hne
  · have hstep := (Relinked.refl hm).store hg hc (LinkCell.next hsl) hold
    have hread : slabNext (setNext m base (m.read64 (slabsEmpty c.addr))) base =
        m.read64 (slabsEmpty c.addr) := Mem.read64_write64_same _ _ (hold.lt hg)
    rw [hread]
    exact hstep.store hg hc (hold.cells hne).1 hself
  · exact .refl hm

/-- The loop leaves every chunk linked to the next one. -/
theorem threadLoop_spec (m : Mem) (cur : Nat) {size : Nat} (total : Nat) (hmin : 8 ≤ size)
    (haligned : 8 ∣ size) (hfits : cur + size * total < 2 ^ 64) :
    (∀ i, i < total → (threadLoop m cur (size / 8) total).read64 (cur + size * i) =
        cur + size * (i + 1)) ∧
      Mem.ChangesIn [⟨cur, size * total⟩] m (threadLoop m cur (size / 8) total) := by
  have haddr : ∀ i, 8 * (i * (size / 8)) = size * i := by
    intro i
    rw [Nat.mul_left_comm, Nat.mul_div_cancel' haligned, Nat.mul_comm]
  induction total with
  | zero => exact ⟨fun i hi => absurd hi (Nat.not_lt_zero i), Mem.ChangesIn.refl _ _⟩
  | succ total ih =>
      have hsucc : size * (total + 1) = size * total + size := Nat.mul_succ _ _
      obtain ⟨hlinks, hchanges⟩ := ih (by omega)
      have hstep : threadLoop m cur (size / 8) (total + 1) =
          (threadLoop m cur (size / 8) total).write64 (cur + size * total)
            (cur + size * (total + 1)) := by
        rw [threadLoop, List.range_succ, List.foldl_append, List.foldl_cons, List.foldl_nil,
          haddr, haddr]
        rfl
      rw [hstep]
      constructor
      · intro i hi
        rcases Nat.lt_succ_iff_lt_or_eq.mp hi with hlt | rfl
        · have hle := Nat.mul_le_mul_left size (show i + 1 ≤ total by omega)
          rw [Nat.mul_succ] at hle
          rw [Mem.read64_write64_of_disjoint _ _ (by omega)]
          exact hlinks i hlt
        · exact Mem.read64_write64_same _ _ hfits
      · have hwider : Mem.ChangesIn [⟨cur, size * (total + 1)⟩] m
            (threadLoop m cur (size / 8) total) := by
          apply hchanges.mono
          intro s hs
          refine ⟨_, List.mem_singleton_self _, ?_⟩
          rw [List.mem_singleton.mp hs]
          simp only [Span.Inside]
          omega
        apply hwider.write64
        refine ⟨_, List.mem_singleton_self _, ?_⟩
        dsimp only
        omega

theorem linkSpans_spawn : ∀ s ∈ linkSpans cs (⟨base, c⟩ :: slabs),
    ∃ s' ∈ (⟨base, 4096⟩ : Span) :: linkSpans cs slabs, s.Inside s' := by
  intro s hs
  simp only [linkSpans, List.map_cons, List.mem_append, List.mem_cons] at hs
  rcases hs with hs | rfl | hs
  · exact ⟨s, List.mem_cons_of_mem _ (List.mem_append_left _ hs), Nat.le_refl _, Nat.le_refl _⟩
  · refine ⟨_, List.mem_cons_self, ?_⟩
    simp only [Span.Inside]
    omega
  · exact ⟨s, List.mem_cons_of_mem _ (List.mem_append_right _ hs), Nat.le_refl _, Nat.le_refl _⟩

/-- The new slab linked into its cache, with the start of its free list. -/
def spawnHeader (m : Mem) (c : CacheInfo) (base : Nat) : Mem :=
  setFreeChunk (linkEmpty (initHeader m c.addr base c.layout.total) c.addr base) base
    (c.layout.chunk base 0)

/-- The memory of `slab_spawn` before its last store. -/
def spawnMem (m : Mem) (c : CacheInfo) (base : Nat) : Mem :=
  threadLoop (spawnHeader m c base) (c.layout.chunk base 0) (c.layout.size / 8) c.layout.total

/-- What the last store of `slab_spawn` starts from. -/
structure Spawned (cs : List CacheInfo) (slabs : List SlabInfo) (c : CacheInfo) (base : Nat)
    (m m' : Mem) : Prop where
  ok : MetaOk cs (⟨base, c⟩ :: slabs) m'
  slab_ok : SlabOk m' ⟨base, c⟩ []
  changes : Mem.ChangesIn (⟨base, 4096⟩ :: linkSpans cs slabs) m m'

theorem spawnHeader_spec (hg : Geometry cs frames slabs) (hfresh : Fresh frames base 4096)
    (hm : MetaOk cs slabs m) (hc : c ∈ cs) :
    MetaOk cs (⟨base, c⟩ :: slabs) (spawnHeader m c base) ∧
      slabCache (spawnHeader m c base) base = c.addr ∧
      usedChunks (spawnHeader m c base) base = 0 ∧
      totalChunks (spawnHeader m c base) base = c.layout.total ∧
      freeChunk (spawnHeader m c base) base = c.layout.chunk base 0 ∧
      (linkEmpty (initHeader m c.addr base c.layout.total) c.addr base).read64
        (slabsEmpty c.addr) = base ∧
      Mem.ChangesIn (⟨base, 4096⟩ :: linkSpans cs slabs) m (spawnHeader m c base) := by
  have hg' := hg.spawn hfresh hc
  have hcaddr := (hg.cache_aligned hc).2.2
  have hsl : (⟨base, c⟩ : SlabInfo) ∈ (⟨base, c⟩ : SlabInfo) :: slabs := List.mem_cons_self
  obtain ⟨hcache, hprev, hnext, hused, htotal, hinit⟩ :=
    initHeader_spec m c.addr base (by omega : c.addr < 2 ^ 64) c.layout.small
  obtain ⟨m₁, hm₁⟩ : ∃ m₁, initHeader m c.addr base c.layout.total = m₁ := ⟨_, rfl⟩
  rw [hm₁] at hcache hprev hnext hused htotal hinit
  obtain ⟨hlinked, hhead⟩ := linkEmpty_spec hg' (hm.spawn hg hfresh hinit hprev hnext) hsl
  obtain ⟨m₂, hm₂⟩ : ∃ m₂, linkEmpty m₁ c.addr base = m₂ := ⟨_, rfl⟩
  rw [hm₂] at hlinked hhead
  -- the list cells are not among the other fields of the header
  have hkeep : ∀ a n, base ≤ a → a + n ≤ base + 28 → (a + n ≤ base + 8 ∨ base + 24 ≤ a) →
      (spawnHeader m c base).readN a n = m₁.readN a n := by
    intro a n hlo hhi hgap
    rw [spawnHeader, hm₁, hm₂, setFreeChunk, Mem.write64,
      Mem.readN_writeN_of_disjoint _ _ (by omega)]
    apply Mem.readN_congr
    intro x hxlo hxhi
    apply hlinked.changes
    apply hg'.not_linkSpan_of_slab hsl
    all_goals
      dsimp only
      omega
  have hchunk := Layout.chunk_bounds (Layout.mem_chunks.mpr ⟨0, c.layout.pos, rfl⟩ :
    c.layout.chunk base 0 ∈ c.layout.chunks base)
  have hfit := hfresh.fits
  refine ⟨?_, ?_, ?_, ?_, ?_, ?_, ?_⟩
  · rw [spawnHeader, hm₁, hm₂]
    apply hlinked.ok.frame
    · intro c' hc' x hlo hhi
      have := hg'.slab_cache_apart hsl hc'
      dsimp only at this
      exact Mem.writeN_out _ _ (by omega)
    · intro sl hsl' x hlo hhi
      by_cases heq : (⟨base, c⟩ : SlabInfo) = sl
      · subst heq
        exact Mem.writeN_out _ _ (by dsimp only at hlo hhi ⊢; omega)
      · have := hg'.slabs_apart hsl hsl' heq
        dsimp only at this
        exact Mem.writeN_out _ _ (by omega)
  · exact (hkeep base 8 (by omega) (by omega) (by omega)).trans hcache
  · exact (hkeep (base + 24) 2 (by omega) (by omega) (by omega)).trans hused
  · exact (hkeep (base + 26) 2 (by omega) (by omega) (by omega)).trans htotal
  · rw [spawnHeader, freeChunk, setFreeChunk]
    exact Mem.read64_write64_same _ _ (by omega)
  · rw [hm₁, hm₂]
    exact hhead
  · have hpage : ∀ s ∈ [(⟨base, 36⟩ : Span)], ∃ s' ∈ (⟨base, 4096⟩ : Span) :: linkSpans cs slabs,
        s.Inside s' := by
      intro s hs
      refine ⟨_, List.mem_cons_self, ?_⟩
      rw [List.mem_singleton.mp hs]
      simp only [Span.Inside]
      omega
    rw [spawnHeader, hm₁, hm₂]
    apply ((hinit.mono hpage).trans (hlinked.changes.mono linkSpans_spawn)).write64
    refine ⟨_, List.mem_cons_self, ?_⟩
    dsimp only
    omega

theorem Layout.linked_chunks (l : Layout) (base : Nat) {next : Nat → Nat}
    (h : ∀ i, i < l.total → next (l.chunk base i) = l.chunk base (i + 1)) :
    Linked next (l.chunks base ++ [base + 4096]) := by
  have hend : l.chunk base l.total = base + 4096 := by
    rw [chunk, l.fills]
  have hlist : l.chunks base ++ [base + 4096] = (List.range (l.total + 1)).map (l.chunk base) := by
    rw [List.range_succ, List.map_append, List.map_singleton, hend, chunks]
  rw [hlist, Linked, List.isChain_iff_getElem]
  intro i hi
  simp only [List.length_map, List.length_range] at hi
  simp only [List.getElem_map, List.getElem_range]
  exact h i (by omega)

theorem spawnMem_spawned (hg : Geometry cs frames slabs) (hfresh : Fresh frames base 4096)
    (hm : MetaOk cs slabs m) (hc : c ∈ cs) : Spawned cs slabs c base m (spawnMem m c base) := by
  obtain ⟨hmeta, hcache, hused, htotal, hfree, -, hchanges⟩ := spawnHeader_spec hg hfresh hm hc
  have hg' := hg.spawn hfresh hc
  have hsl : (⟨base, c⟩ : SlabInfo) ∈ (⟨base, c⟩ : SlabInfo) :: slabs := List.mem_cons_self
  have hfills := c.layout.fills
  have hfits := c.layout.fits
  have hpage := hfresh.fits
  have hstart : c.layout.chunk base 0 = base + c.layout.size * c.layout.header := rfl
  have hspan : c.layout.size * c.layout.header + c.layout.size * c.layout.total = 4096 := by
    rw [← Nat.mul_add]
    exact hfills
  obtain ⟨hlinks, hloop⟩ := threadLoop_spec (spawnHeader m c base) (c.layout.chunk base 0)
    c.layout.total c.layout.min c.layout.aligned (by omega)
  obtain ⟨m₃, hm₃⟩ : ∃ m₃, spawnHeader m c base = m₃ := ⟨_, rfl⟩
  rw [spawnMem]
  rw [hm₃] at hmeta hcache hused htotal hfree hchanges hlinks hloop ⊢
  obtain ⟨m₄, hm₄⟩ : ∃ m₄, threadLoop m₃ (c.layout.chunk base 0) (c.layout.size / 8)
      c.layout.total = m₄ := ⟨_, rfl⟩
  rw [hm₄] at hlinks hloop ⊢
  have hout : ∀ x, x < base + 36 ∨ base + 4096 ≤ x → m₄ x = m₃ x := by
    intro x hx
    apply hloop
    intro s hs
    rw [List.mem_singleton.mp hs]
    simp only [Span.Has]
    omega
  have hheader : ∀ a n, a + n ≤ base + 36 → m₄.readN a n = m₃.readN a n := by
    intro a n ha
    apply Mem.readN_congr
    intro x hxlo hxhi
    exact hout x (by omega)
  refine ⟨?_, ⟨?_, ?_, ?_, ?_, c.layout.chunks base, ?_, ?_⟩, ?_⟩
  · apply hmeta.frame
    · intro c' hc' x hlo hhi
      have := hg'.slab_cache_apart hsl hc'
      dsimp only at this
      exact hout x (by omega)
    · intro sl hsl' x hlo hhi
      by_cases heq : (⟨base, c⟩ : SlabInfo) = sl
      · subst heq
        exact hout x (by dsimp only at hlo hhi ⊢; omega)
      · have := hg'.slabs_apart hsl hsl' heq
        dsimp only at this
        exact hout x (by omega)
  · exact (hheader _ _ (by dsimp only; omega)).trans hcache
  · exact (hheader _ _ (by dsimp only; omega)).trans htotal
  · rw [usedChunks, Mem.read16, hheader _ _ (by dsimp only; omega)]
    exact (Nat.le_of_eq hused).trans (Nat.zero_le _)
  · exact Nat.zero_le _
  · rw [List.append_nil]
  · apply List.isChain_cons.mpr
    constructor
    · intro first hfirst
      have hhead : (c.layout.chunks base ++ [base + 4096]).head? =
          some (c.layout.chunk base 0) := by
        obtain ⟨k, hk⟩ := Nat.exists_eq_succ_of_ne_zero c.layout.pos.ne'
        rw [Layout.chunks, hk, List.range_succ_eq_map]
        rfl
      rw [hhead, Option.mem_some_iff] at hfirst
      rw [← hfirst]
      exact (hheader _ _ (by dsimp only; omega)).trans hfree
    · apply c.layout.linked_chunks
      intro i hi
      have hi' := hlinks i hi
      simpa only [Layout.chunk, Nat.mul_add, Nat.add_assoc, Nat.add_zero, Nat.mul_zero] using hi'
  · apply hchanges.trans
    apply hloop.mono
    intro s hs
    refine ⟨_, List.mem_cons_self, ?_⟩
    rw [List.mem_singleton.mp hs]
    simp only [Span.Inside]
    omega

theorem threadChunks_eq (m : Mem) (curChunk offset total : Nat) :
    threadChunks m curChunk offset total =
      (threadLoop m curChunk offset total).write64 (curChunk + 8 * (total * offset)) 0 := rfl

/-- `slab_spawn` is the memory above with a null stored behind the frame. -/
theorem slabSpawn_eq (hg : Geometry cs frames slabs) (hfresh : Fresh frames base 4096)
    (hm : MetaOk cs slabs m) (hc : c ∈ cs) :
    slabSpawn m c.addr base = some ((spawnMem m c base).write64 (base + 4096) 0) := by
  obtain ⟨-, -, -, htotal, hfree, hhead, -⟩ := spawnHeader_spec hg hfresh hm hc
  have hsize := hm.cache_size c hc
  have hmin := c.layout.min
  have hcount : pageSizeBytes / c.layout.size - c.layout.header = c.layout.total := by
    have hdiv : pageSizeBytes / c.layout.size = c.layout.header + c.layout.total := by
      rw [pageSizeBytes, ← c.layout.fills, Nat.mul_div_cancel_left _ (by omega)]
    omega
  have hlast : c.layout.chunk base 0 + 8 * (c.layout.total * (c.layout.size / 8)) =
      base + 4096 := by
    rw [Nat.mul_left_comm, Nat.mul_div_cancel' c.layout.aligned, Layout.chunk, Nat.add_zero,
      Nat.mul_comm c.layout.total, Nat.add_assoc, ← Nat.mul_add, c.layout.fills]
  have hspawn : slabSpawn m c.addr base =
      some (threadChunks
        (setFreeChunk (linkEmpty (initHeader m c.addr base c.layout.total) c.addr base) base
          ((linkEmpty (initHeader m c.addr base c.layout.total) c.addr base).read64
            (slabsEmpty c.addr) + c.layout.size * c.layout.header))
        (freeChunk (setFreeChunk (linkEmpty (initHeader m c.addr base c.layout.total) c.addr base)
          base ((linkEmpty (initHeader m c.addr base c.layout.total) c.addr base).read64
            (slabsEmpty c.addr) + c.layout.size * c.layout.header)) base)
        (c.layout.size / 8)
        (totalChunks (setFreeChunk (linkEmpty (initHeader m c.addr base c.layout.total) c.addr base)
          base ((linkEmpty (initHeader m c.addr base c.layout.total) c.addr base).read64
            (slabsEmpty c.addr) + c.layout.size * c.layout.header)) base)) := by
    rw [slabSpawn, if_neg hfresh.ne_zero]
    simp only [hsize, c.layout.header_eq, hcount]
    rfl
  have hset : setFreeChunk (linkEmpty (initHeader m c.addr base c.layout.total) c.addr base) base
      (base + c.layout.size * c.layout.header) = spawnHeader m c base := rfl
  rw [hspawn, hhead, hset, hfree, htotal, threadChunks_eq, hlast]
  rfl

/-- The store behind the frame hits no list cell but, at worst, the head of a list of empty slabs. -/
theorem Spawned.links_kept (hg : Geometry cs frames slabs) (hfresh : Fresh frames base 4096)
    (hc : c ∈ cs) (h : Spawned cs slabs c base m m') :
    MetaOk cs (⟨base, c⟩ :: slabs) (m'.write64 (base + 4096) 0) := by
  have hg' := hg.spawn hfresh hc
  have haligned := hfresh.aligned
  by_cases hcache : ∃ c' ∈ cs, c'.addr = base + 4096
  · obtain ⟨c', hc', haddr⟩ := hcache
    have hcell : LinkCell (⟨base, c⟩ :: slabs) c' (base + 4096) := Or.inl (Or.inl haddr.symm)
    exact ((Relinked.refl h.ok).store hg' hc' hcell (Or.inl rfl : Ptr _ c' 0)).ok
  · apply h.ok.frame
    · intro c' hc' x hlo hhi
      have hne : c'.addr ≠ base + 4096 := fun heq => hcache ⟨c', hc', heq⟩
      have haligned' := (hg.cache_aligned hc').1
      exact Mem.writeN_out _ _ (by omega)
    · intro sl hsl x hlo hhi
      have haligned' := (hg'.slab_aligned hsl).1
      exact Mem.writeN_out _ _ (by omega)

/-- The store behind the frame does no harm where it finds a null word: at worst the word is
the head of an empty list. -/
theorem Spawned.last_store (hg : Geometry cs frames slabs) (hfresh : Fresh frames base 4096)
    (hc : c ∈ cs) (h : Spawned cs slabs c base m m') (hword : m.read64 (base + 4096) = 0) :
    Spawned cs slabs c base m (m'.write64 (base + 4096) 0) := by
  have hg' := hg.spawn hfresh hc
  by_cases hcache : ∃ c' ∈ cs, c'.addr = base + 4096
  · obtain ⟨c', hc', haddr⟩ := hcache
    have hcell : LinkCell (⟨base, c⟩ :: slabs) c' (base + 4096) := Or.inl (Or.inl haddr.symm)
    have hstep := (Relinked.refl h.ok).store hg' hc' hcell (Or.inl rfl : Ptr _ c' 0)
    exact ⟨hstep.ok, h.slab_ok.relinked hg' List.mem_cons_self hstep.changes,
      h.changes.trans (hstep.changes.mono linkSpans_spawn)⟩
  · have hsame : m'.read64 (base + 4096) = m.read64 (base + 4096) := by
      apply Mem.readN_congr
      intro x hlo hhi
      apply h.changes
      have haligned := hfresh.aligned
      have hlinks : ∀ s ∈ linkSpans cs slabs, ¬ s.Has x := by
        apply not_linkSpan
        · intro c' hc'
          have hne : c'.addr ≠ base + 4096 := fun heq => hcache ⟨c', hc', heq⟩
          have := (hg.cache_aligned hc').1
          omega
        · intro sl hsl
          have := (hg.slab_aligned hsl).1
          omega
      have hpage : ¬ Span.Has ⟨base, 4096⟩ x := by
        simp only [Span.Has]
        omega
      exact List.forall_mem_cons.mpr ⟨hpage, hlinks⟩
    have hnoop : m'.write64 (base + 4096) 0 = m' :=
      Mem.writeN_zero_of_readN_eq_zero (hsame.trans hword)
    rw [hnoop]
    exact h

theorem Fresh.liveIn_eq_nil {lives : List Nat} (hfresh : Fresh frames base 4096)
    (hlives : ∀ a ∈ lives, ∃ f ∈ frames, f.span.Has a) : liveIn lives base = [] := by
  apply List.filter_eq_nil_iff.mpr
  intro a ha hin
  obtain ⟨f, hf, hhas⟩ := hlives a ha
  have := hfresh.apart f hf
  simp only [Span.Has, Span.Disjoint] at hhas this
  simp only [decide_eq_true_eq] at hin
  omega

/-- The old slabs and the new one after a spawn. -/
theorem Spawned.slabs_ok {lives : List Nat} (hg : Geometry cs frames slabs)
    (hfresh : Fresh frames base 4096) (h : Spawned cs slabs c base m m')
    (hok : ∀ sl ∈ slabs, SlabOk m sl (liveIn lives sl.base))
    (hlives : ∀ a ∈ lives, ∃ f ∈ frames, f.span.Has a) :
    ∀ sl ∈ (⟨base, c⟩ : SlabInfo) :: slabs, SlabOk m' sl (liveIn lives sl.base) := by
  intro sl hsl
  rcases List.mem_cons.mp hsl with rfl | hsl
  · dsimp only
    rw [hfresh.liveIn_eq_nil hlives]
    exact h.slab_ok
  · apply (hok sl hsl).frame
    intro x hlo hhi hgap _
    have hpage : ¬ Span.Has ⟨base, 4096⟩ x := by
      have := hfresh.apart _ (hg.slabs_frame sl hsl)
      simp only [Span.Has, Span.Disjoint] at this ⊢
      omega
    have hlinks := hg.not_linkSpan_of_slab hsl hlo hhi hgap
    exact h.changes x (List.forall_mem_cons.mpr ⟨hpage, hlinks⟩)

end Spawn

/-- Neither list of the cache that `slab_alloc_chunk` searches has a slab with room. -/
def NoRoom (fuel : Nat) (m : Mem) (cache : Nat) : Prop :=
  slabInnerAllocChunk m fuel (m.read64 (slabsPartial cache)) = some (0, m) ∧
    slabInnerAllocChunk m fuel (m.read64 (slabsEmpty cache)) = some (0, m)

/-- What an allocation of a chunk can do: take one of an existing slab, or spawn a slab and
take one then. -/
inductive ChunkAlloc (cs : List CacheInfo) (slabs : List SlabInfo) (lives : List Nat) (m : Mem)
    (c : CacheInfo) (base : Nat) (r : Result) : Prop
  | taken (sl : SlabInfo) (hsl : sl ∈ slabs) (hcache : sl.cache = c) (hgot : r.got = none)
      (htook : Took cs slabs lives m sl r.ret r.mem)
  | spawned (m' : Mem) (hne : base ≠ 0) (hspawned : Spawned cs slabs c base m m') (sl : SlabInfo)
      (hsl : sl ∈ (⟨base, c⟩ : SlabInfo) :: slabs) (hcache : sl.cache = c)
      (hgot : r.got = some ⟨base, 4096⟩)
      (htook : Took cs (⟨base, c⟩ :: slabs) lives m' sl r.ret r.mem)
  | unlisted (hne : base ≠ 0) (hspawned : Spawned cs slabs c base m r.mem)
      (hgot : r.got = some ⟨base, 4096⟩) (hret : r.ret = 0)

section Alloc

variable {cs : List CacheInfo} {frames : List OwnedFrame} {slabs : List SlabInfo} {m m' : Mem}
  {c : CacheInfo} {lives : List Nat}

theorem Took.ne_zero {sl : SlabInfo} {p : Nat} (h : Took cs slabs lives m sl p m') : p ≠ 0 := by
  have := Layout.chunk_bounds h.chunk
  omega

/-- `slab_alloc_chunk` takes a chunk of a slab of the cache, or finds no room, spawns a slab and
searches the empty slabs again. -/
theorem slabAllocChunk_cases {fuel : Nat} {palloc : Nat → Nat} {r : Result}
    (hg : Geometry cs frames slabs) (hm : MetaOk cs slabs m)
    (hok : ∀ sl ∈ slabs, SlabOk m sl (liveIn lives sl.base)) (hc : c ∈ cs)
    (hret : slabAllocChunk fuel palloc m c.addr = some r) :
    (∃ sl ∈ slabs, sl.cache = c ∧ r.got = none ∧ Took cs slabs lives m sl r.ret r.mem) ∨
      NoRoom fuel m c.addr ∧ palloc 1 ≠ 0 ∧ r.got = some ⟨palloc 1, 4096⟩ ∧
        ∃ m', slabSpawn m c.addr (palloc 1) = some m' ∧
          slabInnerAllocChunk m' fuel (m'.read64 (slabsEmpty c.addr)) = some (r.ret, r.mem) := by
  have hpartial := hm.links c hc (slabsPartial c.addr) (Or.inl (Or.inr (Or.inl rfl)))
  have hempty := hm.links c hc (slabsEmpty c.addr) (Or.inl (Or.inl rfl))
  simp only [slabAllocChunk, bind, Option.bind_eq_some_iff, Prod.exists, pure] at hret
  obtain ⟨p₁, m₁, hfirst, hret⟩ := hret
  rcases slabInnerAllocChunk_spec hg hm hok hc hpartial hfirst with
    ⟨rfl, rfl⟩ | ⟨sl, hsl, hcache, htook⟩
  · simp only [ne_eq, not_true, if_false, Option.bind_eq_some_iff, Prod.exists] at hret
    obtain ⟨p₂, m₂, hsecond, hret⟩ := hret
    rcases slabInnerAllocChunk_spec hg hm hok hc hempty hsecond with
      ⟨rfl, rfl⟩ | ⟨sl, hsl, hcache, htook⟩
    · simp only [not_true, if_false, Option.bind_eq_some_iff, Prod.exists] at hret
      obtain ⟨m₃, hspawn, p₄, m₄, hthird, hret⟩ := hret
      have hnonzero : palloc 1 ≠ 0 := by
        intro hzero
        rw [slabSpawn, if_pos hzero] at hspawn
        cases hspawn
      cases hret
      exact .inr ⟨⟨hfirst, hsecond⟩, hnonzero, rfl, m₃, hspawn, hthird⟩
    · rw [if_pos htook.ne_zero] at hret
      cases hret
      exact .inl ⟨sl, hsl, hcache, rfl, htook⟩
  · rw [if_pos htook.ne_zero] at hret
    cases hret
    exact .inl ⟨sl, hsl, hcache, rfl, htook⟩

theorem slabAllocChunk_spec {fuel : Nat} {palloc : Nat → Nat} {r : Result}
    (hg : Geometry cs frames slabs) (hm : MetaOk cs slabs m)
    (hok : ∀ sl ∈ slabs, SlabOk m sl (liveIn lives sl.base))
    (hlives : ∀ a ∈ lives, ∃ f ∈ frames, f.span.Has a) (hc : c ∈ cs)
    (hfresh : palloc 1 ≠ 0 → Fresh frames (palloc 1) 4096)
    (hword : NoRoom fuel m c.addr → m.read64 (palloc 1 + 4096) = 0)
    (hret : slabAllocChunk fuel palloc m c.addr = some r) :
    ChunkAlloc cs slabs lives m c (palloc 1) r := by
  rcases slabAllocChunk_cases hg hm hok hc hret with
    ⟨sl, hsl, hcache, hgot, htook⟩ | ⟨hnoroom, hnonzero, hgot, m₃, hspawn, hwalk⟩
  · exact .taken sl hsl hcache hgot htook
  · have hnew := hfresh hnonzero
    have hspawned := (spawnMem_spawned hg hnew hm hc).last_store hg hnew hc (hword hnoroom)
    rw [slabSpawn_eq hg hnew hm hc] at hspawn
    rw [Option.some.inj hspawn] at hspawned
    have hhead := hspawned.ok.links c hc (slabsEmpty c.addr) (Or.inl (Or.inl rfl))
    rcases slabInnerAllocChunk_spec (hg.spawn hnew hc) hspawned.ok
      (hspawned.slabs_ok hg hnew hok hlives) hc hhead hwalk with
      ⟨hnull, hmem⟩ | ⟨sl, hsl, hcache, htook⟩
    · exact .unlisted hnonzero (hmem ▸ hspawned) hgot hnull
    · exact .spawned m₃ hnonzero hspawned sl hsl hcache hgot htook

/-- A null at the start of a page hits at most the first word of a slab. -/
theorem SlabOk.first_kept {sl : SlabInfo} {live : List Nat} {a : Nat} (h : SlabOk m sl live)
    (ha : 4096 ∣ a) (hbase : 4096 ∣ sl.base) :
    usedChunks (m.write64 (a + 4096) 0) sl.base ≠ totalChunks (m.write64 (a + 4096) 0) sl.base →
      freeChunk (m.write64 (a + 4096) 0) sl.base ∈ sl.cache.layout.chunks sl.base := by
  intro hroom
  have hread : ∀ off n, 8 ≤ off → off + n ≤ 36 →
      (m.write64 (a + 4096) 0).readN (sl.base + off) n = m.readN (sl.base + off) n :=
    fun off n _ _ => Mem.readN_writeN_of_disjoint _ _ (by omega)
  simp only [usedChunks, totalChunks, freeChunk, Mem.read16, Mem.read64] at hroom ⊢
  rw [hread 24 2 (by decide) (by decide), hread 26 2 (by decide) (by decide)] at hroom
  rw [hread 28 8 (by decide) (by decide)]
  obtain ⟨-, hchunk, -⟩ := h.first hroom
  exact hchunk

/-- A walk over a list of slabs finds none with room or returns a chunk, also where a slab does not
point to its cache any more. -/
theorem slabInnerAllocChunk_chunk (hm : MetaOk cs slabs m)
    (hfirst : ∀ sl ∈ slabs, usedChunks m sl.base ≠ totalChunks m sl.base →
      freeChunk m sl.base ∈ sl.cache.layout.chunks sl.base)
    (hc : c ∈ cs) {fuel start p : Nat} (hstart : Ptr slabs c start)
    (hret : slabInnerAllocChunk m fuel start = some (p, m')) :
    p = 0 ∨ ∃ sl ∈ slabs, p ∈ sl.cache.layout.chunks sl.base := by
  induction fuel generalizing start with
  | zero => cases hret
  | succ fuel ih =>
      rw [slabInnerAllocChunk] at hret
      split_ifs at hret with hnull hroom
      · cases hret
        exact .inl rfl
      · obtain ⟨sl, hsl, -, rfl⟩ := hstart.resolve_left hnull
        have hfree : freeChunk (setUsedChunks m sl.base (usedChunks m sl.base + 1)) sl.base =
            freeChunk m sl.base := Mem.readN_writeN_of_disjoint _ _ (by omega)
        rw [takeChunk_eq, hfree] at hret
        obtain rfl := congrArg Prod.fst (Option.some.inj hret)
        exact .inr ⟨sl, hsl, hfirst sl hsl hroom⟩
      · obtain ⟨sl, hsl, rfl, rfl⟩ := hstart.resolve_left hnull
        exact ih (hm.links _ hc _ (LinkCell.next hsl)) hret

/-- `slab_alloc_chunk` returns null or a chunk, whatever is behind a frame it spawns in. -/
theorem slabAllocChunk_chunk {fuel : Nat} {palloc : Nat → Nat} {r : Result}
    (hg : Geometry cs frames slabs) (hm : MetaOk cs slabs m)
    (hok : ∀ sl ∈ slabs, SlabOk m sl (liveIn lives sl.base))
    (hlives : ∀ a ∈ lives, ∃ f ∈ frames, f.span.Has a) (hc : c ∈ cs)
    (hfresh : palloc 1 ≠ 0 → Fresh frames (palloc 1) 4096)
    (hret : slabAllocChunk fuel palloc m c.addr = some r) :
    r.ret = 0 ∨ ∃ sl : SlabInfo, 4096 ∣ sl.base ∧ r.ret ∈ sl.cache.layout.chunks sl.base := by
  rcases slabAllocChunk_cases hg hm hok hc hret with
    ⟨sl, hsl, -, -, htook⟩ | ⟨-, hnonzero, -, m₃, hspawn, hwalk⟩
  · exact .inr ⟨sl, (hg.slab_aligned hsl).1, htook.chunk⟩
  · have hnew := hfresh hnonzero
    have hg' := hg.spawn hnew hc
    have hspawned := spawnMem_spawned hg hnew hm hc
    have hslabs := hspawned.slabs_ok hg hnew hok hlives
    rw [slabSpawn_eq hg hnew hm hc] at hspawn
    cases hspawn
    have hmeta := hspawned.links_kept hg hnew hc
    have hhead := hmeta.links c hc (slabsEmpty c.addr) (Or.inl (Or.inl rfl))
    have hfirst := fun sl hsl =>
      (hslabs sl hsl).first_kept hnew.aligned (hg'.slab_aligned hsl).1
    rcases slabInnerAllocChunk_chunk hmeta hfirst hc hhead hwalk with hnull | ⟨sl, hsl, hp⟩
    · exact .inl hnull
    · exact .inr ⟨sl, (hg'.slab_aligned hsl).1, hp⟩

end Alloc

end Tellurium.Slab
