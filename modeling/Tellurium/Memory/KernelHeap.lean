import Tellurium.Memory.SlabSpawn

/-!
Runs of `kmalloc`, `krealloc` and `kfree` (`kernel/klib/kmalloc.c`). The state carries the
frames got from `palloc` and the live blocks beside memory, so that one can say which bytes
a call may change: its own block, the allocator's headers and the frame it just got, and
nothing else.
-/

namespace Tellurium.Slab

open Tellurium.Lib

/-- Memory with the frames of the heap and the blocks handed out. -/
structure Heap where
  mem : Mem
  frames : List OwnedFrame
  live : List Span

/-- The bytes that belong to a block asked for with `size`. -/
def capacity (size : Nat) : Nat :=
  (knownChunks.find? fun n => size ≤ n).getD (4096 * numPages size)

inductive Op where
  | kmalloc (size : Nat) (palloc : Nat → Nat)
  | krealloc (addr size : Nat) (palloc : Nat → Nat)
  | kfree (addr : Nat)
  | store (mem : Mem)

namespace Heap

def afterAlloc (h : Heap) (size : Nat) (r : Result) : Heap where
  mem := r.mem
  frames := (r.got.map fun span =>
    ⟨span, if size ≤ slabMaxChunkSize then .slab else .pages⟩).toList ++ h.frames
  live := if r.ret = 0 then h.live else ⟨r.ret, capacity size⟩ :: h.live

def afterFree (h : Heap) (addr : Nat) (r : Mem × Option Span) : Heap where
  mem := r.1
  frames := h.frames.filter fun f => some f.span != r.2
  live := h.live.filter fun b => b.base != addr

/-- A call, or stores by the owners of the other memory between two calls. A block that
`krealloc` could not move or did not have to move stays live. -/
def step (fuel : Nat) (caches : List Nat) (h : Heap) : Op → Option Heap
  | .kmalloc size palloc => (slabAlloc fuel palloc h.mem caches size).map (h.afterAlloc size)
  | .krealloc addr size palloc =>
      (slabRealloc fuel palloc h.mem caches addr size).map fun (r, put) =>
        if r.ret = addr then {h with mem := r.mem}
        else if r.ret = 0 then h.afterAlloc size r
        else (h.afterAlloc size r).afterFree addr (r.mem, put)
  | .kfree addr => some (h.afterFree addr (slabFree h.mem addr))
  | .store mem => some {h with mem := mem}

/-- Live blocks are apart from each other and from the headers, inside the frames. -/
structure Separated (h : Heap) : Prop where
  disjoint : h.live.Pairwise Span.Disjoint
  inside : ∀ b ∈ h.live, ∃ f ∈ h.frames, b.Inside f.span
  headers : ∀ b ∈ h.live, ∀ f ∈ h.frames, b.Disjoint f.header

end Heap

def PallocOk (frames : List OwnedFrame) (palloc : Nat → Nat) : Prop :=
  ∀ n, palloc n ≠ 0 → Fresh frames (palloc n) (4096 * n)

/-- What the callers and `palloc` promise. The owners' stores keep away from the memory of
the heap that is not handed out. -/
def Allowed (h : Heap) : Op → Prop
  | .kmalloc _ palloc => PallocOk h.frames palloc
  | .krealloc addr _ palloc => (∃ b ∈ h.live, b.base = addr) ∧ PallocOk h.frames palloc
  | .kfree addr => ∃ b ∈ h.live, b.base = addr
  | .store mem => ∀ x, (∃ f ∈ h.frames, f.span.Has x) → (∀ b ∈ h.live, ¬ b.Has x) →
      mem x = h.mem x

/-- When a slab has to be spawned for a block of this size, the word behind the frame that
`palloc` answers is null. -/
def SpawnsBeforeNull (caches : List Nat) (m : Mem) (size : Nat) (palloc : Nat → Nat) : Prop :=
  ∀ cacheIdx fuel, getCacheIndex m caches size = some cacheIdx →
    NoRoom fuel m (caches.getD cacheIdx 0) → m.read64 (palloc 1 + 4096) = 0

/-- Whether `krealloc` has to ask for another block. -/
def Outgrown (m : Mem) (addr size : Nat) : Prop :=
  if addr % pageSizeBytes = 0 then ¬ numPages size ≤ m.read64 (addr - pageSizeBytes)
  else size > chunkSize m (slabCache m (addr - addr % pageSizeBytes))

def NullBehindSpawn (caches : List Nat) (h : Heap) : Op → Prop
  | .kmalloc size palloc => SpawnsBeforeNull caches h.mem size palloc
  | .krealloc addr size palloc =>
      Outgrown h.mem addr size → SpawnsBeforeNull caches h.mem size palloc
  | .kfree _ => True
  | .store _ => True

def Op.isCall : Op → Prop
  | .store _ => False
  | _ => True

/-- The block that a call is given. -/
def Op.given : Op → Option Nat
  | .kmalloc _ _ => none
  | .krealloc addr _ _ => some addr
  | .kfree addr => some addr
  | .store _ => none

/-- A call changes no live block but the one it is given, and nothing outside the frames. -/
structure Quiet (h : Heap) (op : Op) (h' : Heap) : Prop where
  blocks : ∀ b ∈ h.live, op.given ≠ some b.base → ∀ x, b.Has x → h'.mem x = h.mem x
  foreign : ∀ x, (∀ f ∈ h.frames ++ h'.frames, ¬ f.span.Has x) → h'.mem x = h.mem x

/-- What a live block is: a chunk of a slab, or the pages behind a page with their number. -/
def IsBlock (frames : List OwnedFrame) (slabs : List SlabInfo) (b : Span) : Prop :=
  (∃ sl ∈ slabs, b.base ∈ sl.cache.layout.chunks sl.base ∧ b.len = sl.cache.layout.size) ∨
    ∃ f ∈ frames, f.use = .pages ∧ b.base = f.span.base + 4096 ∧ b.len = f.span.len - 4096

/-- The invariant of the heap, for given caches and slabs. -/
structure HeapInv (cs : List CacheInfo) (slabs : List SlabInfo) (h : Heap) : Prop where
  geo : Geometry cs h.frames slabs
  ok : MetaOk cs slabs h.mem
  slabs_ok : ∀ sl ∈ slabs, SlabOk h.mem sl (liveIn (h.live.map Span.base) sl.base)
  pages : ∀ f ∈ h.frames, f.use = .pages → PagesOk h.mem f.span
  blocks : ∀ b ∈ h.live, IsBlock h.frames slabs b
  nodup : (h.live.map Span.base).Nodup

section Blocks

variable {cs : List CacheInfo} {slabs : List SlabInfo} {frames : List OwnedFrame} {h : Heap}
  {b b' : Span}

/-- The frame a block lies in, and how it lies there. -/
theorem IsBlock.frame (hg : Geometry cs frames slabs) (hb : IsBlock frames slabs b) :
    ∃ f ∈ frames, b.Inside f.span ∧ b.Disjoint f.header := by
  rcases hb with ⟨sl, hsl, hchunk, hlen⟩ | ⟨f, hf, huse, hbase, hlen⟩
  · have hbounds := Layout.chunk_bounds hchunk
    refine ⟨_, hg.slabs_frame sl hsl, ?_, ?_⟩
    · simp only [Span.Inside, hlen]
      omega
    · simp only [Span.Disjoint, OwnedFrame.header, headerSize]
      omega
  · have hfit := (hg.frames_fit f hf).2
    refine ⟨f, hf, ?_, ?_⟩
    · simp only [Span.Inside]
      omega
    · simp only [Span.Disjoint, OwnedFrame.header, huse]
      omega

theorem OwnedFrame.header_inside (hg : Geometry cs frames slabs) {f : OwnedFrame}
    (hf : f ∈ frames) : f.header.Inside f.span := by
  have hfit := (hg.frames_fit f hf).2
  obtain ⟨span, use⟩ := f
  cases use with
  | cache | slab | pages =>
      simp only [Span.Inside, OwnedFrame.header, headerSize] at hfit ⊢
      omega

theorem IsBlock.disjoint_header (hg : Geometry cs frames slabs) (hb : IsBlock frames slabs b)
    {f : OwnedFrame} (hf : f ∈ frames) : b.Disjoint f.header := by
  obtain ⟨g, hgm, hin, hheader⟩ := hb.frame hg
  rcases hg.frame_eq_or hgm hf with rfl | hsep
  · exact hheader
  · exact hsep.of_inside hin (OwnedFrame.header_inside hg hf)

/-- Two blocks are the same or apart. -/
theorem IsBlock.disjoint (hg : Geometry cs frames slabs) (hb : IsBlock frames slabs b)
    (hb' : IsBlock frames slabs b') (hne : b.base ≠ b'.base) : b.Disjoint b' := by
  rcases hb with ⟨sl, hsl, hchunk, hlen⟩ | ⟨f, hf, huse, hbase, hlen⟩ <;>
    rcases hb' with ⟨sl', hsl', hchunk', hlen'⟩ | ⟨f', hf', huse', hbase', hlen'⟩
  · have hbounds := Layout.chunk_bounds hchunk
    have hbounds' := Layout.chunk_bounds hchunk'
    by_cases heq : sl = sl'
    · subst heq
      have := Layout.chunk_separated hchunk hchunk' hne
      simp only [Span.Disjoint]
      omega
    · have := hg.slabs_apart hsl hsl' heq
      simp only [Span.Disjoint]
      omega
  · have hbounds := Layout.chunk_bounds hchunk
    have hfit := (hg.frames_fit f' hf').2
    rcases hg.slab_page hsl hf' with rfl | hsep
    · cases huse'
    · simp only [Span.Disjoint]
      omega
  · have hbounds := Layout.chunk_bounds hchunk'
    have hfit := (hg.frames_fit f hf).2
    rcases hg.slab_page hsl' hf with rfl | hsep
    · cases huse
    · simp only [Span.Disjoint]
      omega
  · have hfit := (hg.frames_fit f hf).2
    have hfit' := (hg.frames_fit f' hf').2
    rcases hg.frame_eq_or hf hf' with rfl | hsep
    · exact absurd (hbase.trans hbase'.symm) hne
    · simp only [Span.Disjoint] at hsep ⊢
      omega

theorem HeapInv.separated (hinv : HeapInv cs slabs h) : h.Separated where
  disjoint := by
    have hne := List.pairwise_map.mp hinv.nodup
    apply hne.imp_of_mem
    intro b b' hb hb' hbne
    exact (hinv.blocks b hb).disjoint hinv.geo (hinv.blocks b' hb') hbne
  inside := by
    intro b hb
    obtain ⟨f, hf, hin, -⟩ := (hinv.blocks b hb).frame hinv.geo
    exact ⟨f, hf, hin⟩
  headers := fun b hb f hf => (hinv.blocks b hb).disjoint_header hinv.geo hf

end Blocks

section Steps

variable {cs : List CacheInfo} {slabs : List SlabInfo} {h : Heap}

theorem HeapInv.not_block_of_header (hinv : HeapInv cs slabs h) {f : OwnedFrame}
    (hf : f ∈ h.frames) {x : Nat} (hx : f.header.Has x) : ∀ b ∈ h.live, ¬ b.Has x := by
  intro b hb hbx
  exact Span.not_has_of_disjoint ((hinv.blocks b hb).disjoint_header hinv.geo hf) hbx hx

/-- A byte of a slab's page that lies in no live chunk of the slab lies in no block. -/
theorem HeapInv.not_block_of_slab (hinv : HeapInv cs slabs h) {sl : SlabInfo} (hsl : sl ∈ slabs)
    {x : Nat} (hlo : sl.base ≤ x) (hhi : x < sl.base + 4096)
    (hout : ∀ c ∈ liveIn (h.live.map Span.base) sl.base,
      x < c ∨ c + sl.cache.layout.size ≤ x) : ∀ b ∈ h.live, ¬ b.Has x := by
  intro b hb hbx
  simp only [Span.Has] at hbx
  rcases hinv.blocks b hb with ⟨sl', hsl', hchunk, hlen⟩ | ⟨f, hf, huse, hbase, hlen⟩
  · have hbounds := Layout.chunk_bounds hchunk
    by_cases heq : sl = sl'
    · subst heq
      have hmem : b.base ∈ liveIn (h.live.map Span.base) sl.base := by
        apply List.mem_filter.mpr
        have hmin := sl.cache.layout.min
        exact ⟨List.mem_map_of_mem hb, by simp; omega⟩
      have := hout b.base hmem
      omega
    · have := hinv.geo.slabs_apart hsl hsl' heq
      omega
  · have hfit := (hinv.geo.frames_fit f hf).2
    rcases hinv.geo.slab_page hsl hf with rfl | hsep
    · cases huse
    · omega

/-- Stores outside the heap's own part of its frames keep the invariant. -/
theorem HeapInv.store (hinv : HeapInv cs slabs h) {m' : Mem}
    (hkeep : ∀ x, (∃ f ∈ h.frames, f.span.Has x) → (∀ b ∈ h.live, ¬ b.Has x) → m' x = h.mem x) :
    HeapInv cs slabs {h with mem := m'} := by
  have hheader : ∀ f ∈ h.frames, ∀ x, f.header.Has x → m' x = h.mem x := by
    intro f hf x hx
    apply hkeep x ⟨f, hf, ?_⟩ (hinv.not_block_of_header hf hx)
    have hin := OwnedFrame.header_inside hinv.geo hf
    exact ⟨hin.1.trans hx.1, hx.2.trans_le hin.2⟩
  refine ⟨hinv.geo, ?_, ?_, ?_, hinv.blocks, hinv.nodup⟩
  · apply hinv.ok.frame
    · intro c hc x hlo hhi
      exact hheader _ (hinv.geo.caches_frame c hc) x ⟨hlo, hhi⟩
    · intro sl hsl x hlo hhi
      apply hheader _ (hinv.geo.slabs_frame sl hsl) x
      simp only [Span.Has, OwnedFrame.header, headerSize]
      omega
  · intro sl hsl
    apply (hinv.slabs_ok sl hsl).frame
    intro x hlo hhi _ hout
    exact hkeep x ⟨_, hinv.geo.slabs_frame sl hsl, hlo, hhi⟩
      (hinv.not_block_of_slab hsl hlo hhi hout)
  · intro f hf huse
    obtain ⟨n, hn, hlen, hread⟩ := hinv.pages f hf huse
    refine ⟨n, hn, hlen, ?_⟩
    rw [← hread]
    apply Mem.readN_congr
    intro x hlo hhi
    apply hheader f hf x
    simp only [OwnedFrame.header, huse]
    exact ⟨hlo, hhi⟩

/-- The list cells are part of the headers. -/
theorem not_linkSpan_of_headers {x : Nat} (hcs : ∀ c ∈ cs, x < c.addr ∨ c.addr + 40 ≤ x)
    (hslabs : ∀ sl ∈ slabs, x < sl.base ∨ sl.base + 36 ≤ x) :
    ∀ s ∈ linkSpans cs slabs, ¬ s.Has x := by
  apply not_linkSpan
  · intro c hc
    have := hcs c hc
    omega
  · intro sl hsl
    have := hslabs sl hsl
    omega

/-- Taking a chunk or giving one back changes that chunk, the slab's header and list cells. -/
theorem chunk_changes_out {sl : SlabInfo} (hsl : sl ∈ slabs) {p x : Nat} {m m' : Mem}
    (hchanges : Mem.ChangesIn (chunkSpans sl p ++ linkSpans cs slabs) m m')
    (hcs : ∀ c ∈ cs, x < c.addr ∨ c.addr + 40 ≤ x)
    (hslabs : ∀ sl ∈ slabs, x < sl.base ∨ sl.base + 36 ≤ x)
    (hchunk : x < p ∨ p + sl.cache.layout.size ≤ x) : m' x = m x := by
  apply hchanges
  intro s hs
  rcases List.mem_append.mp hs with hs | hs
  · have := hslabs sl hsl
    simp only [chunkSpans, List.mem_cons, List.not_mem_nil, or_false] at hs
    rcases hs with rfl | rfl
    · simp only [Span.Has]
      omega
    · simp only [Span.Has]
      omega
  · exact not_linkSpan_of_headers hcs hslabs s hs

/-- A byte outside the headers is outside the caches' and slabs' ones. -/
theorem Geometry.outside_headers {frames : List OwnedFrame} (hg : Geometry cs frames slabs)
    {x : Nat} (hx : ∀ f ∈ frames, ¬ f.header.Has x) :
    (∀ c ∈ cs, x < c.addr ∨ c.addr + 40 ≤ x) ∧ ∀ sl ∈ slabs, x < sl.base ∨ sl.base + 36 ≤ x := by
  constructor
  · intro c hc
    have := hx _ (hg.caches_frame c hc)
    simp only [Span.Has, OwnedFrame.header] at this
    omega
  · intro sl hsl
    have := hx _ (hg.slabs_frame sl hsl)
    simp only [Span.Has, OwnedFrame.header, headerSize] at this
    omega

/-- A byte of a large block's frame is in no page of a cache or slab. -/
theorem Geometry.outside_pages {frames : List OwnedFrame} (hg : Geometry cs frames slabs)
    {f : OwnedFrame} (hf : f ∈ frames) (huse : f.use = .pages) {x : Nat} (hx : f.span.Has x) :
    (∀ c ∈ cs, x < c.addr ∨ c.addr + 4096 ≤ x) ∧
      ∀ sl ∈ slabs, x < sl.base ∨ sl.base + 4096 ≤ x := by
  simp only [Span.Has] at hx
  constructor
  · intro c hc
    rcases hg.cache_page hc hf with rfl | hsep
    · cases huse
    · omega
  · intro sl hsl
    rcases hg.slab_page hsl hf with rfl | hsep
    · cases huse
    · omega

theorem PagesOk.congr {m m' : Mem} {span : Span} (h : PagesOk m span)
    (hsame : ∀ x, span.base ≤ x → x < span.base + 8 → m' x = m x) : PagesOk m' span := by
  obtain ⟨n, hn, hlen, hread⟩ := h
  exact ⟨n, hn, hlen, (Mem.readN_congr hsame).trans hread⟩

theorem map_base_filter (live : List Span) (addr : Nat) :
    (live.filter fun b => b.base != addr).map Span.base =
      (live.map Span.base).filter fun a => a != addr := by
  rw [List.filter_map]
  rfl

/-- The pages of large blocks stay when only chunks and list cells change. -/
theorem HeapInv.pages_of_chunk (hinv : HeapInv cs slabs h) {sl : SlabInfo} (hsl : sl ∈ slabs)
    {p : Nat} (hchunk : p ∈ sl.cache.layout.chunks sl.base) {m' : Mem}
    (hchanges : Mem.ChangesIn (chunkSpans sl p ++ linkSpans cs slabs) h.mem m') :
    ∀ f ∈ h.frames, f.use = .pages → PagesOk m' f.span := by
  intro f hf huse
  have hbounds := Layout.chunk_bounds hchunk
  have hfit := (hinv.geo.frames_fit f hf).2
  apply (hinv.pages f hf huse).congr
  intro x hlo hhi
  obtain ⟨hcs, hslabs⟩ := hinv.geo.outside_pages hf huse (x := x) ⟨hlo, by omega⟩
  apply chunk_changes_out hsl hchanges
  · intro c hc
    have := hcs c hc
    omega
  · intro sl' hsl'
    have := hslabs sl' hsl'
    omega
  · have := hslabs sl hsl
    omega

/-- Freeing a chunk. -/
theorem HeapInv.freeChunk (hinv : HeapInv cs slabs h) {b : Span} (hb : b ∈ h.live) {sl : SlabInfo}
    (hsl : sl ∈ slabs) (hchunk : b.base ∈ sl.cache.layout.chunks sl.base) :
    HeapInv cs slabs (h.afterFree b.base (slabFreeChunk h.mem b.base, none)) ∧
      Gave cs slabs (h.live.map Span.base) h.mem sl b.base (slabFreeChunk h.mem b.base) := by
  have hbounds := Layout.chunk_bounds hchunk
  have hmin := sl.cache.layout.min
  have hmem : b.base ∈ liveIn (h.live.map Span.base) sl.base :=
    List.mem_filter.mpr ⟨List.mem_map_of_mem hb, by simp; omega⟩
  have hgave := slabFreeChunk_gave hinv.geo hinv.ok hinv.slabs_ok hsl hmem
  obtain ⟨m', hm'⟩ : ∃ m', slabFreeChunk h.mem b.base = m' := ⟨_, rfl⟩
  rw [hm'] at hgave ⊢
  have hframes : (h.afterFree b.base (m', none)).frames = h.frames :=
    List.filter_eq_self.mpr fun f _ => rfl
  have hlive : ∀ b' ∈ (h.afterFree b.base (m', none)).live, b' ∈ h.live :=
    fun b' hb' => (List.mem_filter.mp hb').1
  refine ⟨⟨?_, hgave.ok, ?_, ?_, ?_, ?_⟩, hgave⟩
  · rw [hframes]
    exact hinv.geo
  · intro sl' hsl'
    change SlabOk _ sl' (liveIn ((h.live.filter fun b' => b'.base != b.base).map Span.base) _)
    rw [map_base_filter]
    exact hgave.slabs_ok sl' hsl'
  · rw [hframes]
    exact hinv.pages_of_chunk hsl hchunk hgave.changes
  · rw [hframes]
    exact fun b' hb' => hinv.blocks b' (hlive b' hb')
  · change ((h.live.filter fun b' => b'.base != b.base).map Span.base).Nodup
    rw [map_base_filter]
    exact hinv.nodup.filter _

/-- Giving back the pages of one frame leaves the geometry of the others. -/
theorem Geometry.drop {frames : List OwnedFrame} (hg : Geometry cs frames slabs) {f : OwnedFrame}
    (hf : f ∈ frames) (huse : f.use = .pages) :
    Geometry cs (frames.filter fun g => some g.span != some f.span) slabs ∧
      ∀ g ∈ frames, g ≠ f → g ∈ frames.filter fun g => some g.span != some f.span := by
  have hkeep : ∀ g ∈ frames, g ≠ f → g ∈ frames.filter fun g => some g.span != some f.span := by
    intro g hgm hne
    apply List.mem_filter.mpr
    refine ⟨hgm, ?_⟩
    have hspan : g.span ≠ f.span := by
      intro heq
      have hsep := (hg.frame_eq_or hgm hf).resolve_left hne
      have hfit := (hg.frames_fit f hf).2
      rw [heq] at hsep
      simp only [Span.Disjoint] at hsep
      omega
    simpa using hspan
  have hsub : ∀ g ∈ frames.filter (fun g => some g.span != some f.span), g ∈ frames :=
    fun g hgm => (List.mem_filter.mp hgm).1
  refine ⟨?_, hkeep⟩
  exact {
    frames_disjoint := hg.frames_disjoint.filter _
    frames_aligned := fun g hgm => hg.frames_aligned g (hsub g hgm)
    frames_fit := fun g hgm => hg.frames_fit g (hsub g hgm)
    sizes := hg.sizes
    caches_frame := by
      intro c hc
      apply hkeep _ (hg.caches_frame c hc)
      rintro rfl
      cases huse
    caches_inj := hg.caches_inj
    slabs_frame := by
      intro sl hsl
      apply hkeep _ (hg.slabs_frame sl hsl)
      rintro rfl
      cases huse
    slabs_cache := hg.slabs_cache
    slabs_inj := hg.slabs_inj }

/-- Freeing the pages of a large block. -/
theorem HeapInv.freePages (hinv : HeapInv cs slabs h) {b : Span} {f : OwnedFrame}
    (hf : f ∈ h.frames) (huse : f.use = .pages) (hbase : b.base = f.span.base + 4096) :
    HeapInv cs slabs (h.afterFree b.base (h.mem, some f.span)) := by
  obtain ⟨hgeo, hkeep⟩ := hinv.geo.drop hf huse
  have hfit := (hinv.geo.frames_fit f hf).2
  have haligned := (hinv.geo.frames_aligned f hf).1
  refine ⟨hgeo, hinv.ok, ?_, ?_, ?_, ?_⟩
  · intro sl hsl
    have hnot : b.base ∉ liveIn (h.live.map Span.base) sl.base := by
      intro hmem
      have hbounds := Layout.chunk_bounds ((hinv.slabs_ok sl hsl).mem_chunks hmem)
      have hsa := (hinv.geo.slab_aligned hsl).1
      have hmin := sl.cache.layout.min
      omega
    change SlabOk h.mem sl (liveIn ((h.live.filter fun b' => b'.base != b.base).map Span.base) _)
    rw [map_base_filter, liveIn_filter, List.filter_eq_self.mpr]
    · exact hinv.slabs_ok sl hsl
    · intro a ha
      have hne : a ≠ b.base := by
        rintro rfl
        exact hnot ha
      simpa using hne
  · intro g hgm huse'
    exact hinv.pages g (List.mem_filter.mp hgm).1 huse'
  · intro b' hb'
    obtain ⟨hlive, hne⟩ := List.mem_filter.mp hb'
    rcases hinv.blocks b' hlive with hchunk | ⟨g, hgm, huse', hbase', hlen'⟩
    · exact Or.inl hchunk
    · refine Or.inr ⟨g, hkeep g hgm ?_, huse', hbase', hlen'⟩
      rintro rfl
      simp [hbase', hbase] at hne
  · change ((h.live.filter fun b' => b'.base != b.base).map Span.base).Nodup
    rw [map_base_filter]
    exact hinv.nodup.filter _

/-- What `kfree` does to memory: it may change the block and the headers. -/
theorem HeapInv.free (hinv : HeapInv cs slabs h) {b : Span} (hb : b ∈ h.live) :
    HeapInv cs slabs (h.afterFree b.base (slabFree h.mem b.base)) ∧
      ∀ x, ¬ b.Has x → (∀ f ∈ h.frames, ¬ f.header.Has x) →
        (slabFree h.mem b.base).1 x = h.mem x := by
  rcases hinv.blocks b hb with ⟨sl, hsl, hchunk, hlen⟩ | ⟨f, hf, huse, hbase, hlen⟩
  · have hbounds := Layout.chunk_bounds hchunk
    have hmin := sl.cache.layout.min
    have haligned := (hinv.geo.slab_aligned hsl).1
    have hfree : slabFree h.mem b.base = (slabFreeChunk h.mem b.base, none) := by
      rw [slabFree, if_neg (by omega), if_neg (by simp only [pageSizeBytes]; omega)]
    obtain ⟨hinv', hgave⟩ := hinv.freeChunk hb hsl hchunk
    rw [hfree]
    refine ⟨hinv', ?_⟩
    intro x hx hheader
    obtain ⟨hcs, hslabs⟩ := hinv.geo.outside_headers hheader
    change slabFreeChunk h.mem b.base x = h.mem x
    apply chunk_changes_out hsl hgave.changes hcs hslabs
    simp only [Span.Has] at hx
    omega
  · have haligned := (hinv.geo.frames_aligned f hf).1
    obtain ⟨n, hn, hspan, hread⟩ := hinv.pages f hf huse
    have hback : b.base - pageSizeBytes = f.span.base := by
      simp only [pageSizeBytes]
      omega
    have hfree : slabFree h.mem b.base = (h.mem, some f.span) := by
      rw [slabFree, if_neg (by omega), if_pos (by simp only [pageSizeBytes]; omega)]
      dsimp only
      rw [hback, hread, show pageSizeBytes * (n + 1) = f.span.len from hspan.symm]
    rw [hfree]
    exact ⟨hinv.freePages hf huse hbase, fun x _ _ => rfl⟩

theorem HeapInv.live_in_frames (hinv : HeapInv cs slabs h) :
    ∀ a ∈ h.live.map Span.base, ∃ f ∈ h.frames, f.span.Has a := by
  intro a ha
  obtain ⟨b, hb, rfl⟩ := List.mem_map.mp ha
  rcases hinv.blocks b hb with ⟨sl, hsl, hchunk, hlen⟩ | ⟨f, hf, huse, hbase, hlen⟩
  · have hbounds := Layout.chunk_bounds hchunk
    have hmin := sl.cache.layout.min
    refine ⟨_, hinv.geo.slabs_frame sl hsl, ?_⟩
    simp only [Span.Has]
    omega
  · obtain ⟨n, hn, hspan, -⟩ := hinv.pages f hf huse
    refine ⟨f, hf, ?_⟩
    simp only [Span.Has]
    omega

/-- A chunk was taken: it becomes a live block. -/
theorem HeapInv.took (hinv : HeapInv cs slabs h) {sl : SlabInfo} (hsl : sl ∈ slabs) {p : Nat}
    {m' : Mem} (htook : Took cs slabs (h.live.map Span.base) h.mem sl p m') :
    HeapInv cs slabs ⟨m', h.frames, ⟨p, sl.cache.layout.size⟩ :: h.live⟩ := by
  refine ⟨hinv.geo, htook.ok, htook.slabs_ok,
    hinv.pages_of_chunk hsl htook.chunk htook.changes, ?_, ?_⟩
  · exact List.forall_mem_cons.mpr ⟨Or.inl ⟨sl, hsl, htook.chunk, rfl⟩, hinv.blocks⟩
  · exact List.nodup_cons.mpr ⟨htook.fresh, hinv.nodup⟩

theorem IsBlock.cons_frame {frames : List OwnedFrame} {b : Span} (hb : IsBlock frames slabs b)
    (f : OwnedFrame) : IsBlock (f :: frames) slabs b := by
  rcases hb with hchunk | ⟨g, hg, hrest⟩
  · exact Or.inl hchunk
  · exact Or.inr ⟨g, List.mem_cons_of_mem _ hg, hrest⟩

theorem IsBlock.cons_slab {frames : List OwnedFrame} {b : Span} (hb : IsBlock frames slabs b)
    (sl : SlabInfo) : IsBlock frames (sl :: slabs) b := by
  rcases hb with ⟨sl', hsl', hrest⟩ | hpages
  · exact Or.inl ⟨sl', List.mem_cons_of_mem _ hsl', hrest⟩
  · exact Or.inr hpages

/-- A slab was spawned: its frame joins the heap, with no live block in it. -/
theorem HeapInv.spawned (hinv : HeapInv cs slabs h) {c : CacheInfo} (hc : c ∈ cs) {base : Nat}
    (hfresh : Fresh h.frames base 4096) {m' : Mem} (hspawned : Spawned cs slabs c base h.mem m') :
    HeapInv cs (⟨base, c⟩ :: slabs) ⟨m', ⟨⟨base, 4096⟩, .slab⟩ :: h.frames, h.live⟩ := by
  refine ⟨hinv.geo.spawn hfresh hc, hspawned.ok,
    hspawned.slabs_ok hinv.geo hfresh hinv.slabs_ok hinv.live_in_frames, ?_, ?_, hinv.nodup⟩
  · intro f hf huse
    rcases List.mem_cons.mp hf with rfl | hf
    · cases huse
    · have hfit := (hinv.geo.frames_fit f hf).2
      apply (hinv.pages f hf huse).congr
      intro x hlo hhi
      obtain ⟨hcs, hslabs⟩ := hinv.geo.outside_pages hf huse (x := x) ⟨hlo, by omega⟩
      have hpage : ¬ Span.Has ⟨base, 4096⟩ x := by
        have := hfresh.apart f hf
        simp only [Span.Has, Span.Disjoint] at this ⊢
        omega
      have hlinks : ∀ s ∈ linkSpans cs slabs, ¬ s.Has x := by
        apply not_linkSpan
        · intro c' hc'
          have := hcs c' hc'
          omega
        · intro sl hsl
          have := hslabs sl hsl
          omega
      exact hspawned.changes x (List.forall_mem_cons.mpr ⟨hpage, hlinks⟩)
  · intro b hb
    exact ((hinv.blocks b hb).cons_frame _).cons_slab _

/-- Large blocks get frames of their own. -/
theorem HeapInv.pagesAlloc (hinv : HeapInv cs slabs h) {base n : Nat} (hn : 1 ≤ n)
    (hfresh : Fresh h.frames base (4096 * (n + 1))) :
    HeapInv cs slabs ⟨h.mem.write64 base n, ⟨⟨base, 4096 * (n + 1)⟩, .pages⟩ :: h.frames,
      ⟨base + 4096, 4096 * n⟩ :: h.live⟩ := by
  have hfits := hfresh.fits
  have hout : ∀ f ∈ h.frames, ∀ x, f.span.Has x → (h.mem.write64 base n) x = h.mem x := by
    intro f hf x hx
    have := hfresh.apart f hf
    simp only [Span.Has, Span.Disjoint] at hx this
    exact Mem.writeN_out _ _ (by omega)
  have hold : HeapInv cs slabs {h with mem := h.mem.write64 base n} := by
    apply hinv.store
    rintro x ⟨f, hf, hx⟩ _
    exact hout f hf x hx
  refine ⟨?_, hold.ok, ?_, ?_, ?_, ?_⟩
  · exact {
      frames_disjoint := List.pairwise_cons.mpr ⟨hfresh.apart, hinv.geo.frames_disjoint⟩
      frames_aligned := List.forall_mem_cons.mpr
        ⟨⟨hfresh.aligned, hfresh.ne_zero⟩, hinv.geo.frames_aligned⟩
      frames_fit := List.forall_mem_cons.mpr
        ⟨⟨hfits, by dsimp only; omega⟩, hinv.geo.frames_fit⟩
      sizes := hinv.geo.sizes
      caches_frame := fun c hc => List.mem_cons_of_mem _ (hinv.geo.caches_frame c hc)
      caches_inj := hinv.geo.caches_inj
      slabs_frame := fun sl hsl => List.mem_cons_of_mem _ (hinv.geo.slabs_frame sl hsl)
      slabs_cache := hinv.geo.slabs_cache
      slabs_inj := hinv.geo.slabs_inj }
  · intro sl hsl
    have hapart := hfresh.apart _ (hinv.geo.slabs_frame sl hsl)
    simp only [Span.Disjoint] at hapart
    change SlabOk _ sl (liveIn ((base + 4096) :: h.live.map Span.base) sl.base)
    rw [liveIn_cons_of_not_mem _ (by omega)]
    exact hold.slabs_ok sl hsl
  · exact List.forall_mem_cons.mpr
      ⟨fun _ => ⟨n, hn, rfl, Mem.read64_write64_same _ _ (by omega)⟩, hold.pages⟩
  · have hnew : IsBlock (⟨⟨base, 4096 * (n + 1)⟩, .pages⟩ :: h.frames) slabs
        ⟨base + 4096, 4096 * n⟩ :=
      Or.inr ⟨_, List.mem_cons_self, rfl, rfl, by dsimp only; omega⟩
    exact List.forall_mem_cons.mpr ⟨hnew, fun b hb => (hinv.blocks b hb).cons_frame _⟩
  · apply List.nodup_cons.mpr
    refine ⟨?_, hinv.nodup⟩
    intro hmem
    obtain ⟨f, hf, hhas⟩ := hinv.live_in_frames _ hmem
    have := hfresh.apart f hf
    simp only [Span.Has, Span.Disjoint] at hhas this
    omega

theorem getCacheIndex_eq {frames : List OwnedFrame} {m : Mem} (hg : Geometry cs frames slabs)
    (hm : MetaOk cs slabs m) (size : Nat) :
    getCacheIndex m (cs.map CacheInfo.addr) size = knownChunks.findIdx? fun n => size ≤ n := by
  have hsizes : cs.map (fun c => chunkSize m c.addr) = knownChunks := by
    rw [← hg.sizes]
    exact List.map_congr_left hm.cache_size
  rw [getCacheIndex, ← hsizes, List.findIdx?_map, List.findIdx?_map]
  rfl

/-- The cache that serves a size. -/
theorem getCacheIndex_some {frames : List OwnedFrame} {m : Mem} (hg : Geometry cs frames slabs)
    (hm : MetaOk cs slabs m) {size i : Nat}
    (hi : getCacheIndex m (cs.map CacheInfo.addr) size = some i) :
    ∃ c ∈ cs, (cs.map CacheInfo.addr).getD i 0 = c.addr ∧ c.layout.size = capacity size ∧
      size ≤ slabMaxChunkSize := by
  rw [getCacheIndex_eq hg hm] at hi
  obtain ⟨hlt, hle, hbefore⟩ := List.findIdx?_eq_some_iff_getElem.mp hi
  have hlen : cs.length = knownChunks.length := by rw [← hg.sizes, List.length_map]
  have hsize : (cs.get ⟨i, hlen ▸ hlt⟩).layout.size = knownChunks.get ⟨i, hlt⟩ := by
    simp only [← hg.sizes, List.get_eq_getElem, List.getElem_map]
  have hfind : knownChunks.find? (fun n => size ≤ n) = some (knownChunks.get ⟨i, hlt⟩) := by
    apply List.find?_eq_some_iff_getElem.mpr
    refine ⟨hle, i, hlt, rfl, ?_⟩
    intro j hj
    simpa using hbefore j hj
  have hmax : ∀ n ∈ knownChunks, n ≤ slabMaxChunkSize := by decide
  refine ⟨cs.get ⟨i, hlen ▸ hlt⟩, List.get_mem _ _, ?_, ?_, ?_⟩
  · rw [List.getD_eq_getElem?_getD, List.getElem?_map, List.getElem?_eq_getElem (hlen ▸ hlt)]
    rfl
  · rw [hsize, capacity, hfind]
    rfl
  · have hin := hmax _ (List.get_mem knownChunks ⟨i, hlt⟩)
    simp only [decide_eq_true_eq, List.get_eq_getElem] at hle hin
    omega

theorem getCacheIndex_none {frames : List OwnedFrame} {m : Mem} (hg : Geometry cs frames slabs)
    (hm : MetaOk cs slabs m) {size : Nat}
    (hi : getCacheIndex m (cs.map CacheInfo.addr) size = none) :
    slabMaxChunkSize < size ∧ capacity size = 4096 * numPages size ∧ 1 ≤ numPages size := by
  rw [getCacheIndex_eq hg hm, List.findIdx?_eq_none_iff] at hi
  have hbig : slabMaxChunkSize < size := by
    have := hi 1024 (by decide)
    simpa [slabMaxChunkSize] using this
  have hfind : knownChunks.find? (fun n => size ≤ n) = none := by
    apply List.find?_eq_none.mpr
    intro n hn
    simp [hi n hn]
  refine ⟨hbig, by rw [capacity, hfind]; rfl, ?_⟩
  rw [numPages]
  split_ifs with hpart
  · exact Nat.le_add_left 1 _
  · simp only [slabMaxChunkSize, pageSizeBytes] at hbig hpart ⊢
    omega

/-- The bytes an allocation may change: headers, the frame it got and the new block. -/
def AllocChanges (h : Heap) (size : Nat) (r : Result) : Prop :=
  ∀ x, (∀ f ∈ h.frames, ¬ f.header.Has x) → (∀ span, r.got = some span → ¬ span.Has x) →
    (r.ret ≠ 0 → ¬ Span.Has ⟨r.ret, capacity size⟩ x) → r.mem x = h.mem x

/-- A spawn changes the new frame and the headers only. -/
theorem Spawned.unchanged {frames : List OwnedFrame} {c : CacheInfo} {base x : Nat} {m m' : Mem}
    (hg : Geometry cs frames slabs) (hspawned : Spawned cs slabs c base m m')
    (hheader : ∀ f ∈ frames, ¬ f.header.Has x) (hpage : ¬ Span.Has ⟨base, 4096⟩ x) :
    m' x = m x := by
  obtain ⟨hcs, hslabs⟩ := hg.outside_headers hheader
  exact hspawned.changes x
    (List.forall_mem_cons.mpr ⟨hpage, not_linkSpan_of_headers hcs hslabs⟩)

theorem HeapInv.allocChunk (hinv : HeapInv cs slabs h) {size : Nat} {c : CacheInfo} (hc : c ∈ cs)
    (hsize : c.layout.size = capacity size) (hsmall : size ≤ slabMaxChunkSize) {base : Nat}
    (hfresh : base ≠ 0 → Fresh h.frames base 4096) {r : Result}
    (halloc : ChunkAlloc cs slabs (h.live.map Span.base) h.mem c base r) :
    ∃ slabs', slabs ⊆ slabs' ∧ HeapInv cs slabs' (h.afterAlloc size r) ∧ AllocChanges h size r := by
  cases halloc with
  | taken sl hsl hcache hgot htook =>
      refine ⟨slabs, List.Subset.refl _, ?_, ?_⟩
      · have hnext := hinv.took hsl htook
        rw [hcache, hsize] at hnext
        simpa only [Heap.afterAlloc, hgot, Option.map_none, Option.toList_none, List.nil_append,
          if_neg htook.ne_zero] using hnext
      · intro x hheader _ hblock
        obtain ⟨hcs, hslabs⟩ := hinv.geo.outside_headers hheader
        apply chunk_changes_out hsl htook.changes hcs hslabs
        have := hblock htook.ne_zero
        rw [hcache, hsize]
        simp only [Span.Has] at this
        omega
  | spawned m' hne hspawned sl hsl hcache hgot htook =>
      have hmid := hinv.spawned hc (hfresh hne) hspawned
      refine ⟨⟨base, c⟩ :: slabs, List.subset_cons_self _ _, ?_, ?_⟩
      · have hnext := hmid.took hsl htook
        rw [hcache, hsize] at hnext
        simpa only [Heap.afterAlloc, hgot, Option.map_some, Option.toList_some,
          List.singleton_append, if_pos hsmall, if_neg htook.ne_zero] using hnext
      · intro x hheader hframe hblock
        have hpage := hframe _ hgot
        have hnew : ¬ Span.Has (OwnedFrame.header ⟨⟨base, 4096⟩, .slab⟩) x := by
          simp only [Span.Has, OwnedFrame.header, headerSize] at hpage ⊢
          omega
        obtain ⟨hcs, hslabs⟩ :=
          hmid.geo.outside_headers (List.forall_mem_cons.mpr ⟨hnew, hheader⟩)
        have htaken : r.mem x = m' x := by
          apply chunk_changes_out hsl htook.changes hcs hslabs
          have := hblock htook.ne_zero
          rw [hcache, hsize]
          simp only [Span.Has] at this
          omega
        exact htaken.trans (hspawned.unchanged hinv.geo hheader hpage)
  | unlisted hne hspawned hgot hret =>
      refine ⟨⟨base, c⟩ :: slabs, List.subset_cons_self _ _, ?_, ?_⟩
      · have hmid := hinv.spawned hc (hfresh hne) hspawned
        simpa only [Heap.afterAlloc, hgot, Option.map_some, Option.toList_some,
          List.singleton_append, if_pos hsmall, if_pos hret] using hmid
      · intro x hheader hframe _
        exact hspawned.unchanged hinv.geo hheader (hframe _ hgot)

/-- An allocation past the slabs. -/
theorem HeapInv.allocPages (hinv : HeapInv cs slabs h) {fuel size : Nat} {palloc : Nat → Nat}
    (hpalloc : PallocOk h.frames palloc)
    (hidx : getCacheIndex h.mem (cs.map CacheInfo.addr) size = none) {r : Result}
    (hret : slabAlloc fuel palloc h.mem (cs.map CacheInfo.addr) size = some r) :
    HeapInv cs slabs (h.afterAlloc size r) ∧ AllocChanges h size r := by
  obtain ⟨hbig, hcap, hpages⟩ := getCacheIndex_none hinv.geo hinv.ok hidx
  rw [slabAlloc] at hret
  simp only [hidx] at hret
  split_ifs at hret with hnull
  · cases hret
    exact ⟨hinv, fun x _ _ _ => rfl⟩
  · cases hret
    have hfresh := hpalloc _ hnull
    have hnext := hinv.pagesAlloc hpages hfresh
    constructor
    · simpa only [Heap.afterAlloc, Option.map_some, Option.toList_some, List.singleton_append,
        if_neg (Nat.not_le_of_lt hbig), pageSizeBytes, hcap,
        if_neg (show palloc (numPages size + 1) + 4096 ≠ 0 by omega)] using hnext
    · intro x _ hframe _
      have hout := hframe _ rfl
      simp only [Span.Has, pageSizeBytes] at hout
      exact Mem.writeN_out _ _ (by omega)

/-- The step lemma of `kmalloc`. -/
theorem HeapInv.alloc (hinv : HeapInv cs slabs h) {fuel size : Nat} {palloc : Nat → Nat}
    (hpalloc : PallocOk h.frames palloc)
    (hword : SpawnsBeforeNull (cs.map CacheInfo.addr) h.mem size palloc) {r : Result}
    (hret : slabAlloc fuel palloc h.mem (cs.map CacheInfo.addr) size = some r) :
    ∃ slabs', slabs ⊆ slabs' ∧ HeapInv cs slabs' (h.afterAlloc size r) ∧ AllocChanges h size r := by
  rw [slabAlloc] at hret
  cases hidx : getCacheIndex h.mem (cs.map CacheInfo.addr) size with
  | some i =>
      simp only [hidx] at hret
      obtain ⟨c, hc, haddr, hsize, hsmall⟩ := getCacheIndex_some hinv.geo hinv.ok hidx
      rw [haddr] at hret
      have hfresh : palloc 1 ≠ 0 → Fresh h.frames (palloc 1) 4096 := hpalloc 1
      apply hinv.allocChunk hc hsize hsmall hfresh
      apply slabAllocChunk_spec hinv.geo hinv.ok hinv.slabs_ok hinv.live_in_frames hc hfresh _ hret
      intro hroom
      exact hword i fuel hidx (haddr ▸ hroom)
  | none =>
      obtain ⟨hnext, hchanges⟩ := hinv.allocPages hpalloc hidx (by rw [slabAlloc]; exact hret)
      exact ⟨slabs, List.Subset.refl _, hnext, hchanges⟩

theorem mem_afterAlloc {b : Span} (hb : b ∈ h.live) (size : Nat) (r : Result) :
    b ∈ (h.afterAlloc size r).live := by
  rw [Heap.afterAlloc]
  dsimp only
  split_ifs
  · exact hb
  · exact List.mem_cons_of_mem _ hb

theorem HeapInv.got_apart {size : Nat} {r : Result} (hnext : HeapInv cs slabs (h.afterAlloc size r)) :
    ∀ span, r.got = some span → ∀ f ∈ h.frames, Span.Disjoint span f.span := by
  intro span hspan f hf
  have hpair := hnext.geo.frames_disjoint
  simp only [Heap.afterAlloc, hspan, Option.map_some, Option.toList_some, List.singleton_append,
    List.pairwise_cons] at hpair
  exact hpair.1 f hf

/-- An allocation leaves the live blocks and everything outside the frames alone. -/
theorem HeapInv.alloc_quiet {slabs' : List SlabInfo} (hinv : HeapInv cs slabs h) {size : Nat}
    {r : Result} (hnext : HeapInv cs slabs' (h.afterAlloc size r))
    (hchanges : AllocChanges h size r) {x : Nat} :
    ((∃ b ∈ h.live, b.Has x) → r.mem x = h.mem x) ∧
      ((∀ f ∈ (h.afterAlloc size r).frames, ¬ f.span.Has x) → r.mem x = h.mem x) := by
  have hgot := hnext.got_apart
  constructor
  · rintro ⟨b, hb, hx⟩
    apply hchanges x
    · intro f hf
      exact Span.not_has_of_disjoint ((hinv.blocks b hb).disjoint_header hinv.geo hf) hx
    · intro span hspan
      obtain ⟨f, hf, hin, -⟩ := (hinv.blocks b hb).frame hinv.geo
      have hsep := hgot span hspan f hf
      simp only [Span.Has, Span.Inside, Span.Disjoint] at hx hin hsep ⊢
      omega
    · intro hne
      have hpair := hnext.separated.disjoint
      simp only [Heap.afterAlloc, if_neg hne, List.pairwise_cons] at hpair
      exact Span.not_has_of_disjoint (hpair.1 b hb).symm hx
  · intro hout
    have hin : ∀ f ∈ (h.afterAlloc size r).frames, ¬ f.header.Has x := by
      intro f hf hx
      have hinside := OwnedFrame.header_inside hnext.geo hf
      exact hout f hf ⟨hinside.1.trans hx.1, hx.2.trans_le hinside.2⟩
    apply hchanges x
    · intro f hf
      exact hin f (List.mem_append_right _ hf)
    · intro span hspan hx
      refine hout ⟨span, if size ≤ slabMaxChunkSize then .slab else .pages⟩ ?_ hx
      simp [Heap.afterAlloc, hspan]
    · intro hne hx
      obtain ⟨f, hf, hinside⟩ := hnext.separated.inside ⟨r.ret, capacity size⟩
        (by simp [Heap.afterAlloc, hne])
      exact hout f hf ⟨hinside.1.trans hx.1, hx.2.trans_le hinside.2⟩

/-- `kfree` gives back at most the frame of the block. -/
theorem HeapInv.free_frames (hinv : HeapInv cs slabs h) {b : Span} (hb : b ∈ h.live)
    {f : OwnedFrame} (hf : f ∈ h.frames) :
    f ∈ (h.afterFree b.base (slabFree h.mem b.base)).frames ∨ f.span.base + 4096 = b.base := by
  by_cases hbase : f.span.base + 4096 = b.base
  · exact Or.inr hbase
  · refine Or.inl (List.mem_filter.mpr ⟨hf, ?_⟩)
    obtain ⟨g, hg, hhas⟩ := hinv.live_in_frames b.base (List.mem_map_of_mem hb)
    have haligned := (hinv.geo.frames_aligned f hf).1
    simp only [slabFree]
    split_ifs with hnull hpage
    · rfl
    · have hne : f.span ≠ ⟨b.base - pageSizeBytes,
          pageSizeBytes * (h.mem.read64 (b.base - pageSizeBytes) + 1)⟩ := by
        intro heq
        have hbase' := congrArg Span.base heq
        simp only [pageSizeBytes] at hbase' hpage
        omega
      simpa using hne
    · rfl

/-- The frame in front of a large block is one of the heap's, also after frames were added. -/
theorem HeapInv.frame_of_block (hinv : HeapInv cs slabs h) {b : Span} (hb : b ∈ h.live)
    {slabs' : List SlabInfo} {frames' : List OwnedFrame} (hg : Geometry cs frames' slabs')
    (hsub : h.frames ⊆ frames') {f : OwnedFrame} (hf : f ∈ frames')
    (hbase : f.span.base + 4096 = b.base) : f ∈ h.frames := by
  have haligned := (hg.frames_aligned f hf).1
  rcases hinv.blocks b hb with ⟨sl, hsl, hchunk, hlen⟩ | ⟨g, hgm, huse, hgbase, hlen⟩
  · have hbounds := Layout.chunk_bounds hchunk
    have hsa := (hinv.geo.slab_aligned hsl).1
    have hmin := sl.cache.layout.min
    omega
  · have hfit := (hg.frames_fit f hf).2
    have hfit' := (hinv.geo.frames_fit g hgm).2
    rcases hg.frame_eq_or hf (hsub hgm) with rfl | hsep
    · exact hgm
    · simp only [Span.Disjoint] at hsep
      omega

/-- Copying into the new block keeps the invariant. -/
theorem HeapInv.copied {slabs' : List SlabInfo} {size src n : Nat} {r : Result}
    (hnext : HeapInv cs slabs' (h.afterAlloc size r)) (hret : r.ret ≠ 0) (hn : n ≤ capacity size) :
    HeapInv cs slabs' {h.afterAlloc size r with mem := r.mem.memcpy r.ret src n} := by
  apply hnext.store
  intro x _ hout
  have hlive : (h.afterAlloc size r).live = ⟨r.ret, capacity size⟩ :: h.live := if_neg hret
  have hx := hout _ (hlive ▸ List.mem_cons_self)
  simp only [Span.Has] at hx
  exact Mem.memcpy_out _ (by omega)

/-- A block that `krealloc` moves: allocation, copy and free. -/
theorem HeapInv.moved (hinv : HeapInv cs slabs h) {slabs' : List SlabInfo} {b : Span}
    (hb : b ∈ h.live) {size n : Nat} {r : Result} (hnext : HeapInv cs slabs' (h.afterAlloc size r))
    (hchanges : AllocChanges h size r) (hret : r.ret ≠ 0) (hn : n ≤ capacity size)
    {h' : Heap} (hh' : h' = (h.afterAlloc size r).afterFree b.base
      (slabFree (r.mem.memcpy r.ret b.base n) b.base)) :
    HeapInv cs slabs' h' ∧
      (∀ b' ∈ h.live, b'.base ≠ b.base → ∀ x, b'.Has x → h'.mem x = h.mem x) ∧
      ∀ x, (∀ f ∈ h.frames ++ h'.frames, ¬ f.span.Has x) → h'.mem x = h.mem x := by
  have hlive : (h.afterAlloc size r).live = ⟨r.ret, capacity size⟩ :: h.live := if_neg hret
  have hmem := mem_afterAlloc hb size r
  have hcopy : ∀ x, ¬ Span.Has ⟨r.ret, capacity size⟩ x →
      (r.mem.memcpy r.ret b.base n) x = r.mem x := by
    intro x hx
    simp only [Span.Has] at hx
    exact Mem.memcpy_out _ (by omega)
  have hcopied := @HeapInv.copied _ _ _ _ b.base _ _ hnext hret hn
  obtain ⟨hfreed, hquiet⟩ := hcopied.free hmem
  subst hh'
  refine ⟨hfreed, ?_, ?_⟩
  · intro b' hb' hne x hx
    have hmem' := mem_afterAlloc hb' size r
    have hsep := hnext.separated
    have hfresh : ¬ Span.Has ⟨r.ret, capacity size⟩ x := by
      have hpair := hsep.disjoint
      rw [hlive, List.pairwise_cons] at hpair
      exact Span.not_has_of_disjoint (hpair.1 b' hb').symm hx
    have hother : ¬ b.Has x :=
      Span.not_has_of_disjoint
        ((hnext.blocks b' hmem').disjoint hnext.geo (hnext.blocks b hmem) hne) hx
    have hfree := hquiet x hother fun f hf =>
      Span.not_has_of_disjoint (hsep.headers b' hmem' f hf) hx
    have halloc := (hinv.alloc_quiet hnext hchanges (x := x)).1 ⟨b', hb', hx⟩
    exact hfree.trans ((hcopy x hfresh).trans halloc)
  · intro x hout
    have hframes : ∀ f ∈ (h.afterAlloc size r).frames, ¬ f.span.Has x := by
      intro f hf
      by_cases hold : f ∈ h.frames
      · exact hout f (List.mem_append_left _ hold)
      · rcases hcopied.free_frames hmem hf with hkept | hbase
        · exact hout f (List.mem_append_right _ hkept)
        · exact absurd (hinv.frame_of_block hb hnext.geo (List.subset_append_right _ _) hf hbase)
            hold
    have houtside : ∀ s : Span, (∃ f ∈ (h.afterAlloc size r).frames, s.Inside f.span) →
        ¬ s.Has x := by
      rintro s ⟨f, hf, hin⟩ hx
      exact hframes f hf ⟨hin.1.trans hx.1, hx.2.trans_le hin.2⟩
    have hfree := hquiet x (houtside b (hnext.separated.inside b hmem)) fun f hf =>
      houtside f.header ⟨f, hf, OwnedFrame.header_inside hnext.geo hf⟩
    have hnew := hcopy x
      (houtside _ (hnext.separated.inside _ (hlive ▸ List.mem_cons_self)))
    exact hfree.trans (hnew.trans ((hinv.alloc_quiet hnext hchanges).2 hframes))

end Steps

end Tellurium.Slab
