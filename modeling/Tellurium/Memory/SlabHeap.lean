import Tellurium.Lib.Chain
import Tellurium.Memory.Slab
import Mathlib.Data.List.Nodup
import Mathlib.Logic.Relation

/-!
What the slab allocator keeps true of memory along runs of `kmalloc`, `krealloc` and
`kfree`. Frames from `palloc` hold a cache structure, a slab with its header and chunks,
or the pages of a large block behind a page with its size. List cells only ever hold null
or slabs of their cache; the lists themselves may be cyclic. `slab_spawn` also stores a
null word into the frame behind the new slab, so the runs considered are those where that
word is null already.
-/

namespace Tellurium.Slab

open Tellurium.Lib

/-- How a slab's page is cut into a header and chunks. -/
structure Layout where
  size : Nat
  header : Nat
  total : Nat
  fills : size * (header + total) = 4096
  fits : 36 ≤ size * header
  header_eq : (if headerSize % size ≠ 0 then headerSize / size + 1 else headerSize / size) = header
  min : 8 ≤ size
  aligned : 8 ∣ size
  pos : 0 < total
  small : total < 2 ^ 16

def Layout.chunk (l : Layout) (base i : Nat) : Nat := base + l.size * (l.header + i)

def Layout.chunks (l : Layout) (base : Nat) : List Nat := (List.range l.total).map (l.chunk base)

structure CacheInfo where
  addr : Nat
  layout : Layout

structure SlabInfo where
  base : Nat
  cache : CacheInfo

/-- What a frame from `palloc` is used for. -/
inductive FrameUse where
  | cache
  | slab
  | pages
  deriving Repr, DecidableEq

structure OwnedFrame where
  span : Span
  use : FrameUse
  deriving Repr, DecidableEq

/-- The cache structure, slab header or page metadata at the start of a frame. -/
def OwnedFrame.header (f : OwnedFrame) : Span :=
  match f.use with
  | .cache => ⟨f.span.base, 40⟩
  | .slab => ⟨f.span.base, headerSize⟩
  | .pages => ⟨f.span.base, 8⟩

section Layouts

variable {l : Layout} {base c c' : Nat}

theorem Layout.chunk_le (l : Layout) (base : Nat) {i j : Nat} (h : i < j) :
    l.chunk base i + l.size ≤ l.chunk base j := by
  have hmul := Nat.mul_le_mul_left l.size (show l.header + i + 1 ≤ l.header + j by omega)
  rw [Nat.mul_add_one] at hmul
  simp only [chunk]
  omega

theorem Layout.mem_chunks : c ∈ l.chunks base ↔ ∃ i, i < l.total ∧ l.chunk base i = c := by
  simp [chunks]

/-- A chunk lies between the header and the end of the page. -/
theorem Layout.chunk_bounds (h : c ∈ l.chunks base) :
    base + 36 ≤ c ∧ c + l.size ≤ base + 4096 := by
  obtain ⟨i, hi, rfl⟩ := mem_chunks.mp h
  have hfirst := Nat.mul_le_mul_left l.size (show l.header ≤ l.header + i by omega)
  have hlast := l.chunk_le base hi
  have hfits := l.fits
  have hfills := l.fills
  simp only [chunk] at hlast ⊢
  omega

theorem Layout.chunk_separated (h : c ∈ l.chunks base) (h' : c' ∈ l.chunks base) (hne : c ≠ c') :
    c + l.size ≤ c' ∨ c' + l.size ≤ c := by
  obtain ⟨i, hi, rfl⟩ := mem_chunks.mp h
  obtain ⟨j, hj, rfl⟩ := mem_chunks.mp h'
  rcases Nat.lt_trichotomy i j with hij | rfl | hji
  · exact Or.inl (l.chunk_le base hij)
  · exact absurd rfl hne
  · exact Or.inr (l.chunk_le base hji)

theorem Layout.nodup_chunks (l : Layout) (base : Nat) : (l.chunks base).Nodup := by
  refine List.Nodup.map_on (fun i _ j _ heq => ?_) List.nodup_range
  have hmin := l.min
  rcases Nat.lt_trichotomy i j with hij | hij | hji
  · have hle := l.chunk_le base hij
    omega
  · exact hij
  · have hle := l.chunk_le base hji
    omega

end Layouts

/-- Where the caches, frames and slabs are. -/
structure Geometry (cs : List CacheInfo) (frames : List OwnedFrame) (slabs : List SlabInfo) :
    Prop where
  frames_disjoint : frames.Pairwise fun f g => f.span.Disjoint g.span
  frames_aligned : ∀ f ∈ frames, 4096 ∣ f.span.base ∧ f.span.base ≠ 0
  frames_fit : ∀ f ∈ frames, f.span.base + f.span.len < 2 ^ 64 ∧ 4096 ≤ f.span.len
  sizes : cs.map (fun c => c.layout.size) = knownChunks
  caches_frame : ∀ c ∈ cs, ⟨⟨c.addr, 4096⟩, .cache⟩ ∈ frames
  caches_inj : ∀ c ∈ cs, ∀ c' ∈ cs, c.addr = c'.addr → c = c'
  slabs_frame : ∀ sl ∈ slabs, ⟨⟨sl.base, 4096⟩, .slab⟩ ∈ frames
  slabs_cache : ∀ sl ∈ slabs, sl.cache ∈ cs
  slabs_inj : ∀ sl ∈ slabs, ∀ sl' ∈ slabs, sl.base = sl'.base → sl = sl'

/-- The words that hold the lists of a cache. -/
def LinkCell (slabs : List SlabInfo) (c : CacheInfo) (cell : Nat) : Prop :=
  (cell = c.addr ∨ cell = c.addr + 8 ∨ cell = c.addr + 16) ∨
    ∃ sl ∈ slabs, sl.cache = c ∧ (cell = sl.base + 8 ∨ cell = sl.base + 16)

/-- Null or a slab of the cache. -/
def Ptr (slabs : List SlabInfo) (c : CacheInfo) (v : Nat) : Prop :=
  v = 0 ∨ ∃ sl ∈ slabs, sl.cache = c ∧ sl.base = v

/-- The size word in front of a large block. -/
def PagesOk (m : Mem) (span : Span) : Prop :=
  ∃ n, 1 ≤ n ∧ span.len = 4096 * (n + 1) ∧ m.read64 span.base = n

/-- The chunk sizes of the caches and the lists of slabs. -/
structure MetaOk (cs : List CacheInfo) (slabs : List SlabInfo) (m : Mem) : Prop where
  cache_size : ∀ c ∈ cs, chunkSize m c.addr = c.layout.size
  links : ∀ c ∈ cs, ∀ cell, LinkCell slabs c cell → Ptr slabs c (m.read64 cell)

/-- The header and free chain of a slab with the given live chunks. The chain runs through
the other chunks to the end of the page. `used_chunks` only grows, so it bounds the number
of live chunks from above. -/
structure SlabOk (m : Mem) (sl : SlabInfo) (live : List Nat) : Prop where
  cache : slabCache m sl.base = sl.cache.addr
  total : totalChunks m sl.base = sl.cache.layout.total
  used : usedChunks m sl.base ≤ sl.cache.layout.total
  live_used : live.length ≤ usedChunks m sl.base
  chain : ∃ free, (free ++ live).Perm (sl.cache.layout.chunks sl.base) ∧
    Linked (fun a => m.read64 a) ((sl.base + 28) :: (free ++ [sl.base + 4096]))

/-- The bytes of the list cells. -/
def linkSpans (cs : List CacheInfo) (slabs : List SlabInfo) : List Span :=
  cs.map (fun c => ⟨c.addr, 24⟩) ++ slabs.map fun sl => ⟨sl.base + 8, 16⟩

section Geometry

variable {cs : List CacheInfo} {frames : List OwnedFrame} {slabs : List SlabInfo}

theorem Geometry.frame_eq_or (hg : Geometry cs frames slabs) {f g : OwnedFrame} (hf : f ∈ frames)
    (hg' : g ∈ frames) : f = g ∨ f.span.Disjoint g.span := by
  by_cases hfg : f = g
  · exact Or.inl hfg
  · have hsymm : Std.Symm fun f g : OwnedFrame => f.span.Disjoint g.span := ⟨fun _ _ h => h.symm⟩
    exact Or.inr (hg.frames_disjoint.forall hf hg' hfg)

theorem Geometry.slab_page (hg : Geometry cs frames slabs) {sl : SlabInfo} (hsl : sl ∈ slabs)
    {f : OwnedFrame} (hf : f ∈ frames) :
    f = ⟨⟨sl.base, 4096⟩, .slab⟩ ∨ f.span.base + f.span.len ≤ sl.base ∨ sl.base + 4096 ≤ f.span.base :=
  hg.frame_eq_or hf (hg.slabs_frame sl hsl)

theorem Geometry.cache_page (hg : Geometry cs frames slabs) {c : CacheInfo} (hc : c ∈ cs)
    {f : OwnedFrame} (hf : f ∈ frames) :
    f = ⟨⟨c.addr, 4096⟩, .cache⟩ ∨ f.span.base + f.span.len ≤ c.addr ∨ c.addr + 4096 ≤ f.span.base :=
  hg.frame_eq_or hf (hg.caches_frame c hc)

theorem Geometry.slabs_apart (hg : Geometry cs frames slabs) {sl sl' : SlabInfo} (hsl : sl ∈ slabs)
    (hsl' : sl' ∈ slabs) (hne : sl ≠ sl') :
    sl.base + 4096 ≤ sl'.base ∨ sl'.base + 4096 ≤ sl.base := by
  rcases hg.slab_page hsl' (hg.slabs_frame sl hsl) with heq | hsep
  · have hbase : sl.base = sl'.base := congrArg (fun f => f.span.base) heq
    exact absurd (hg.slabs_inj sl hsl sl' hsl' hbase) hne
  · exact hsep

theorem Geometry.caches_apart (hg : Geometry cs frames slabs) {c c' : CacheInfo} (hc : c ∈ cs)
    (hc' : c' ∈ cs) (hne : c ≠ c') : c.addr + 4096 ≤ c'.addr ∨ c'.addr + 4096 ≤ c.addr := by
  rcases hg.cache_page hc' (hg.caches_frame c hc) with heq | hsep
  · have haddr : c.addr = c'.addr := congrArg (fun f => f.span.base) heq
    exact absurd (hg.caches_inj c hc c' hc' haddr) hne
  · exact hsep

theorem Geometry.slab_cache_apart (hg : Geometry cs frames slabs) {sl : SlabInfo} {c : CacheInfo}
    (hsl : sl ∈ slabs) (hc : c ∈ cs) : sl.base + 4096 ≤ c.addr ∨ c.addr + 4096 ≤ sl.base := by
  rcases hg.cache_page hc (hg.slabs_frame sl hsl) with heq | hsep
  · exact absurd (congrArg OwnedFrame.use heq) (by simp)
  · exact hsep

theorem Geometry.slab_aligned (hg : Geometry cs frames slabs) {sl : SlabInfo} (hsl : sl ∈ slabs) :
    4096 ∣ sl.base ∧ sl.base ≠ 0 ∧ sl.base + 4096 < 2 ^ 64 :=
  ⟨(hg.frames_aligned _ (hg.slabs_frame sl hsl)).1, (hg.frames_aligned _ (hg.slabs_frame sl hsl)).2,
    (hg.frames_fit _ (hg.slabs_frame sl hsl)).1⟩

theorem Geometry.cache_aligned (hg : Geometry cs frames slabs) {c : CacheInfo} (hc : c ∈ cs) :
    4096 ∣ c.addr ∧ c.addr ≠ 0 ∧ c.addr + 4096 < 2 ^ 64 :=
  ⟨(hg.frames_aligned _ (hg.caches_frame c hc)).1, (hg.frames_aligned _ (hg.caches_frame c hc)).2,
    (hg.frames_fit _ (hg.caches_frame c hc)).1⟩

theorem Ptr.lt (hg : Geometry cs frames slabs) {c : CacheInfo} {v : Nat} (h : Ptr slabs c v) :
    v < 2 ^ 64 := by
  rcases h with rfl | ⟨sl, hsl, -, rfl⟩
  · decide
  · have := (hg.slab_aligned hsl).2.2
    omega

/-- A list cell is an aligned word in the cache's page or in a header of one of its slabs. -/
theorem Geometry.linkCell_aligned (hg : Geometry cs frames slabs) {c : CacheInfo} (hc : c ∈ cs)
    {cell : Nat} (h : LinkCell slabs c cell) : 8 ∣ cell := by
  have hca := (hg.cache_aligned hc).1
  rcases h with (rfl | rfl | rfl) | ⟨sl, hsl, -, rfl | rfl⟩
  · omega
  · omega
  · omega
  all_goals
    have hsa := (hg.slab_aligned hsl).1
    omega

/-- A list cell belongs to one cache only. -/
theorem Geometry.linkCell_inj (hg : Geometry cs frames slabs) {c c' : CacheInfo} (hc : c ∈ cs)
    (hc' : c' ∈ cs) {cell : Nat} (h : LinkCell slabs c cell) (h' : LinkCell slabs c' cell) :
    c = c' := by
  by_contra hne
  have hcc := hg.caches_apart hc hc' hne
  rcases h with h | ⟨sl, hsl, rfl, h⟩ <;> rcases h' with h' | ⟨sl', hsl', rfl, h'⟩
  · omega
  · have := hg.slab_cache_apart hsl' hc
    omega
  · have := hg.slab_cache_apart hsl hc'
    omega
  · have hss : sl ≠ sl' := fun heq => hne (by rw [heq])
    have := hg.slabs_apart hsl hsl' hss
    omega

theorem exists_linkSpan {c : CacheInfo} (hc : c ∈ cs) {cell : Nat} (h : LinkCell slabs c cell) :
    ∃ s ∈ linkSpans cs slabs, s.base ≤ cell ∧ cell + 8 ≤ s.base + s.len := by
  rcases h with hcell | ⟨sl, hsl, -, hcell⟩
  · refine ⟨⟨c.addr, 24⟩, List.mem_append_left _ (List.mem_map_of_mem hc), ?_⟩
    dsimp only
    omega
  · refine ⟨⟨sl.base + 8, 16⟩, List.mem_append_right _ (List.mem_map_of_mem hsl), ?_⟩
    dsimp only
    omega

/-- A byte outside the list cells, by kind of page. -/
theorem not_linkSpan {x : Nat} (hcs : ∀ c ∈ cs, x < c.addr ∨ c.addr + 24 ≤ x)
    (hslabs : ∀ sl ∈ slabs, x < sl.base + 8 ∨ sl.base + 24 ≤ x) :
    ∀ s ∈ linkSpans cs slabs, ¬ s.Has x := by
  intro s hs hx
  rcases List.mem_append.mp hs with hs | hs
  · obtain ⟨c, hc, rfl⟩ := List.mem_map.mp hs
    have := hcs c hc
    simp only [Span.Has] at hx
    omega
  · obtain ⟨sl, hsl, rfl⟩ := List.mem_map.mp hs
    have := hslabs sl hsl
    simp only [Span.Has] at hx
    omega

/-- The only list cells in the page of a slab are its own two. -/
theorem Geometry.not_linkSpan_of_slab (hg : Geometry cs frames slabs) {sl : SlabInfo}
    (hsl : sl ∈ slabs) {x : Nat} (hlo : sl.base ≤ x) (hhi : x < sl.base + 4096)
    (hgap : x < sl.base + 8 ∨ sl.base + 24 ≤ x) : ∀ s ∈ linkSpans cs slabs, ¬ s.Has x := by
  apply not_linkSpan
  · intro c hc
    have := hg.slab_cache_apart hsl hc
    omega
  · intro sl' hsl'
    by_cases heq : sl = sl'
    · subst heq
      exact hgap
    · have := hg.slabs_apart hsl hsl' heq
      omega

end Geometry

section Links

variable {cs : List CacheInfo} {frames : List OwnedFrame} {slabs : List SlabInfo} {m m' : Mem}

/-- The metadata depends on the cache structures and the list cells only. -/
theorem MetaOk.frame (h : MetaOk cs slabs m)
    (hcs : ∀ c ∈ cs, ∀ x, c.addr ≤ x → x < c.addr + 40 → m' x = m x)
    (hslabs : ∀ sl ∈ slabs, ∀ x, sl.base + 8 ≤ x → x < sl.base + 24 → m' x = m x) :
    MetaOk cs slabs m' := by
  constructor
  · intro c hc
    rw [← h.cache_size c hc]
    apply Mem.readN_congr
    intro x hlo hhi
    exact hcs c hc x (by omega) (by omega)
  · intro c hc cell hcell
    have hread : m'.read64 cell = m.read64 cell := by
      apply Mem.readN_congr
      intro x hlo hhi
      rcases hcell with hcell | ⟨sl, hsl, -, hcell⟩
      · exact hcs c hc x (by omega) (by omega)
      · exact hslabs sl hsl x (by omega) (by omega)
    rw [hread]
    exact h.links c hc cell hcell

/-- What a sequence of stores into list cells leaves. -/
structure Relinked (cs : List CacheInfo) (slabs : List SlabInfo) (m m' : Mem) : Prop where
  ok : MetaOk cs slabs m'
  changes : Mem.ChangesIn (linkSpans cs slabs) m m'

theorem Relinked.refl (h : MetaOk cs slabs m) : Relinked cs slabs m m :=
  ⟨h, Mem.ChangesIn.refl _ _⟩

/-- One more store of a list pointer. -/
theorem Relinked.store (hg : Geometry cs frames slabs) (h : Relinked cs slabs m m') {c : CacheInfo}
    (hc : c ∈ cs) {cell v : Nat} (hcell : LinkCell slabs c cell) (hv : Ptr slabs c v) :
    Relinked cs slabs m (m'.write64 cell v) := by
  refine ⟨⟨?_, ?_⟩, h.changes.write64 (exists_linkSpan hc hcell)⟩
  · intro c' hc'
    rw [← h.ok.cache_size c' hc']
    apply Mem.read64_write64_of_disjoint
    rcases hcell with hcell | ⟨sl, hsl, -, hcell⟩
    · by_cases hcc : c' = c
      · subst hcc
        omega
      · have := hg.caches_apart hc' hc hcc
        omega
    · have := hg.slab_cache_apart hsl hc'
      omega
  · intro c' hc' cell' hcell'
    by_cases hsame : cell' = cell
    · subst hsame
      obtain rfl := hg.linkCell_inj hc hc' hcell hcell'
      rwa [Mem.read64_write64_same _ _ (hv.lt hg)]
    · have halign := hg.linkCell_aligned hc hcell
      have halign' := hg.linkCell_aligned hc' hcell'
      rw [Mem.read64_write64_of_disjoint _ _ (by omega)]
      exact h.ok.links c' hc' cell' hcell'

theorem LinkCell.prev {sl : SlabInfo} (hsl : sl ∈ slabs) : LinkCell slabs sl.cache (sl.base + 8) :=
  Or.inr ⟨sl, hsl, rfl, Or.inl rfl⟩

theorem LinkCell.next {sl : SlabInfo} (hsl : sl ∈ slabs) : LinkCell slabs sl.cache (sl.base + 16) :=
  Or.inr ⟨sl, hsl, rfl, Or.inr rfl⟩

/-- A pointer that is not null is a slab, and so its own cells are list cells. -/
theorem Ptr.cells {c : CacheInfo} {v : Nat} (h : Ptr slabs c v) (hne : v ≠ 0) :
    LinkCell slabs c (v + 8) ∧ LinkCell slabs c (v + 16) := by
  rcases h with rfl | ⟨sl, hsl, rfl, rfl⟩
  · exact absurd rfl hne
  · exact ⟨LinkCell.prev hsl, LinkCell.next hsl⟩

/-- The heads of a cache's lists. -/
def Head (c : CacheInfo) (cell : Nat) : Prop :=
  cell = slabsEmpty c.addr ∨ cell = slabsPartial c.addr ∨ cell = slabsFull c.addr

theorem Head.cell {c : CacheInfo} {cell : Nat} (h : Head c cell) : LinkCell slabs c cell := Or.inl h

/-- The first half of `transfer_slab`, which takes the slab out of its list. -/
def unlinkSlab (m : Mem) (slab oldList : Nat) : Mem :=
  if slabPrev m slab = 0 ∧ slabNext m slab = 0 then m.write64 oldList 0
  else if slabNext m slab = 0 then setNext m (slabPrev m slab) 0
  else if slabPrev m slab = 0 then
    (setPrev m (slabNext m slab) 0).write64 oldList
      (slabNext (setPrev m (slabNext m slab) 0) slab)
  else
    setPrev (setNext m (slabPrev m slab) (slabNext m slab))
      (slabNext (setNext m (slabPrev m slab) (slabNext m slab)) slab)
      (slabPrev (setNext m (slabPrev m slab) (slabNext m slab)) slab)

/-- The second half, which puts it at the head of another one. -/
def pushSlab (m : Mem) (slab newList : Nat) : Mem :=
  setPrev ((setNext m slab (m.read64 newList)).write64 newList slab) slab 0

theorem transferSlab_eq (m : Mem) (slab oldList newList : Nat) :
    transferSlab m slab oldList newList = pushSlab (unlinkSlab m slab oldList) slab newList := rfl

/-- Taking a slab out of its list only stores list pointers, whatever the list looks like. -/
theorem unlink_relinked (hg : Geometry cs frames slabs) (h : Relinked cs slabs m m')
    {sl : SlabInfo} (hsl : sl ∈ slabs) {oldList : Nat} (hold : Head sl.cache oldList) :
    Relinked cs slabs m (unlinkSlab m' sl.base oldList) := by
  have hc := hg.slabs_cache sl hsl
  have hnull : Ptr slabs sl.cache 0 := Or.inl rfl
  have hprev : Ptr slabs sl.cache (slabPrev m' sl.base) := h.ok.links _ hc _ (LinkCell.prev hsl)
  have hnext : Ptr slabs sl.cache (slabNext m' sl.base) := h.ok.links _ hc _ (LinkCell.next hsl)
  unfold unlinkSlab
  split_ifs with hboth hlast hfirst
  · exact h.store hg hc hold.cell hnull
  · have hne : slabPrev m' sl.base ≠ 0 := fun heq => hboth ⟨heq, hlast⟩
    exact h.store hg hc (hprev.cells hne).2 hnull
  · have hstep := h.store hg hc (hnext.cells hlast).1 hnull
    exact hstep.store hg hc hold.cell (hstep.ok.links _ hc _ (LinkCell.next hsl))
  · have hstep := h.store hg hc (hprev.cells hfirst).2 hnext
    have hnext' := hstep.ok.links _ hc _ (LinkCell.next hsl)
    have hprev' := hstep.ok.links _ hc _ (LinkCell.prev hsl)
    -- the store reaches the cell of `sl` itself only with the value that is already there
    have hkeep : slabNext (setNext m' (slabPrev m' sl.base) (slabNext m' sl.base)) sl.base =
        slabNext m' sl.base :=
      Mem.read64_write64_own m' (hg.linkCell_aligned hc (LinkCell.next hsl))
        (hg.linkCell_aligned hc (hprev.cells hfirst).2)
    have hne : slabNext (setNext m' (slabPrev m' sl.base) (slabNext m' sl.base)) sl.base ≠ 0 := by
      rw [hkeep]
      exact hlast
    exact hstep.store hg hc (hnext'.cells hne).1 hprev'

theorem push_relinked (hg : Geometry cs frames slabs) (h : Relinked cs slabs m m')
    {sl : SlabInfo} (hsl : sl ∈ slabs) {newList : Nat} (hnew : Head sl.cache newList) :
    Relinked cs slabs m (pushSlab m' sl.base newList) := by
  have hc := hg.slabs_cache sl hsl
  have hnext := h.store hg hc (LinkCell.next hsl) (h.ok.links _ hc _ hnew.cell)
  have hhead := hnext.store hg hc hnew.cell (Or.inr ⟨sl, hsl, rfl, rfl⟩)
  rw [pushSlab, setPrev, setNext]
  exact hhead.store hg hc (LinkCell.prev hsl) (Or.inl rfl)

theorem transferSlab_relinked (hg : Geometry cs frames slabs) (hm : MetaOk cs slabs m)
    {sl : SlabInfo} (hsl : sl ∈ slabs) {oldList newList : Nat} (hold : Head sl.cache oldList)
    (hnew : Head sl.cache newList) :
    Relinked cs slabs m (transferSlab m sl.base oldList newList) := by
  rw [transferSlab_eq]
  exact push_relinked hg (unlink_relinked hg (.refl hm) hsl hold) hsl hnew

end Links

section Slabs

variable {cs : List CacheInfo} {frames : List OwnedFrame} {slabs : List SlabInfo} {m m' : Mem}
  {sl : SlabInfo} {live : List Nat}

/-- A slab depends on its header without the list cells, and on its free chunks. -/
theorem SlabOk.frame (h : SlabOk m sl live)
    (hsame : ∀ x, sl.base ≤ x → x < sl.base + 4096 → (x < sl.base + 8 ∨ sl.base + 24 ≤ x) →
      (∀ c ∈ live, x < c ∨ c + sl.cache.layout.size ≤ x) → m' x = m x) : SlabOk m' sl live := by
  obtain ⟨free, hperm, hchain⟩ := h.chain
  have hchunk : ∀ c ∈ free ++ live, c ∈ sl.cache.layout.chunks sl.base :=
    fun c hc => hperm.mem_iff.mp hc
  have hnodup : (free ++ live).Nodup := hperm.nodup_iff.mpr (sl.cache.layout.nodup_chunks sl.base)
  have hlive : ∀ c ∈ live, sl.base + 36 ≤ c :=
    fun c hc => (Layout.chunk_bounds (hchunk c (List.mem_append_right _ hc))).1
  have hheader : ∀ a n, sl.base ≤ a → a + n ≤ sl.base + 36 →
      (a + n ≤ sl.base + 8 ∨ sl.base + 24 ≤ a) → m'.readN a n = m.readN a n := by
    intro a n hlo hhi hgap
    apply Mem.readN_congr
    intro x hxlo hxhi
    apply hsame x (by omega) (by omega) (by omega)
    intro c hc
    have := hlive c hc
    omega
  have hfree : ∀ a ∈ free, m'.read64 a = m.read64 a := by
    intro a ha
    have hbounds := Layout.chunk_bounds (hchunk a (List.mem_append_left _ ha))
    have hmin := sl.cache.layout.min
    apply Mem.readN_congr
    intro x hxlo hxhi
    apply hsame x (by omega) (by omega) (by omega)
    intro c hc
    have hne : a ≠ c := fun heq =>
      (List.nodup_append.mp hnodup).2.2 a ha c hc heq
    have := Layout.chunk_separated (hchunk a (List.mem_append_left _ ha))
      (hchunk c (List.mem_append_right _ hc)) hne
    omega
  refine ⟨?_, ?_, ?_, ?_, free, hperm, ?_⟩
  · exact (hheader _ _ (by omega) (by omega) (by omega)).trans h.cache
  · exact (hheader _ _ (by omega) (by omega) (by omega)).trans h.total
  · rw [usedChunks, Mem.read16, hheader _ _ (by omega) (by omega) (by omega)]
    exact h.used
  · rw [usedChunks, Mem.read16, hheader _ _ (by omega) (by omega) (by omega)]
    exact h.live_used
  · have hlinked : Linked (fun a => m.read64 a) (((sl.base + 28) :: free) ++ [sl.base + 4096]) :=
      hchain
    apply hlinked.congr
    intro a ha
    rcases List.mem_cons.mp ha with rfl | ha
    · exact hheader _ _ (by omega) (by omega) (by omega)
    · exact hfree a ha

/-- The stores of `slab_inner_alloc_chunk` before the slab changes its list. -/
def popChunk (m : Mem) (slab : Nat) : Mem :=
  let m := setUsedChunks m slab (usedChunks m slab + 1)
  let oldFreeChunk := freeChunk m slab
  let m := setFreeChunk m slab (m.read64 oldFreeChunk)
  m.memset oldFreeChunk 0 (chunkSize m (slabCache m slab))

def relistTaken (m : Mem) (slab : Nat) : Mem :=
  if usedChunks m slab = totalChunks m slab then
    transferSlab m slab (slabsPartial (slabCache m slab)) (slabsFull (slabCache m slab))
  else if usedChunks m slab = 1 then
    transferSlab m slab (slabsEmpty (slabCache m slab)) (slabsPartial (slabCache m slab))
  else m

theorem takeChunk_eq (m : Mem) (slab : Nat) :
    takeChunk m slab =
      (freeChunk (setUsedChunks m slab (usedChunks m slab + 1)) slab,
        relistTaken (popChunk m slab) slab) := rfl

/-- What taking or giving back the chunk `p` of the slab may change besides its list. -/
def chunkSpans (sl : SlabInfo) (p : Nat) : List Span :=
  [⟨p, sl.cache.layout.size⟩, ⟨sl.base + 24, 12⟩]

/-- The slab's free chain starts with a chunk when the counter says that there is room. -/
theorem SlabOk.first (h : SlabOk m sl live)
    (hroom : usedChunks m sl.base ≠ totalChunks m sl.base) :
    ∃ rest, freeChunk m sl.base ∈ sl.cache.layout.chunks sl.base ∧ freeChunk m sl.base ∉ live ∧
      (rest ++ freeChunk m sl.base :: live).Perm (sl.cache.layout.chunks sl.base) ∧
      Linked (fun a => m.read64 a) (freeChunk m sl.base :: (rest ++ [sl.base + 4096])) := by
  obtain ⟨free, hperm, hchain⟩ := h.chain
  have hlen : free.length + live.length = sl.cache.layout.total := by
    rw [← List.length_append, hperm.length_eq, Layout.chunks, List.length_map, List.length_range]
  have hused := h.used
  have hlive := h.live_used
  rw [h.total] at hroom
  cases free with
  | nil =>
      simp only [List.length_nil] at hlen
      omega
  | cons c rest =>
      obtain ⟨hc, htail⟩ := linked_cons_cons.mp hchain
      obtain rfl : freeChunk m sl.base = c := hc
      have hnodup := hperm.nodup_iff.mpr (sl.cache.layout.nodup_chunks sl.base)
      refine ⟨rest, hperm.mem_iff.mp (by simp), ?_, ?_, htail⟩
      · intro hmem
        exact (List.nodup_append.mp hnodup).2.2 _ List.mem_cons_self _ hmem rfl
      · exact List.perm_middle.trans hperm

/-- The stores of a pop, with what they read. -/
theorem popChunk_eq (hg : Geometry cs frames slabs) (hm : MetaOk cs slabs m) (hsl : sl ∈ slabs)
    (h : SlabOk m sl live) (hp : sl.base + 36 ≤ freeChunk m sl.base) :
    popChunk m sl.base =
      ((m.write16 (sl.base + 24) (usedChunks m sl.base + 1)).write64 (sl.base + 28)
        (m.read64 (freeChunk m sl.base))).memset (freeChunk m sl.base) 0
          sl.cache.layout.size := by
  have hc := hg.slabs_cache sl hsl
  have hapart := hg.slab_cache_apart hsl hc
  have hfree : freeChunk (m.write16 (sl.base + 24) (usedChunks m sl.base + 1)) sl.base =
      freeChunk m sl.base := Mem.readN_writeN_of_disjoint _ _ (by omega)
  have hnext : (m.write16 (sl.base + 24) (usedChunks m sl.base + 1)).read64
      (freeChunk m sl.base) = m.read64 (freeChunk m sl.base) :=
    Mem.readN_writeN_of_disjoint _ _ (by omega)
  have hcache : ∀ v, slabCache ((m.write16 (sl.base + 24) (usedChunks m sl.base + 1)).write64
      (sl.base + 28) v) sl.base = sl.cache.addr := by
    intro v
    rw [← h.cache, slabCache, Mem.read64_write64_of_disjoint _ _ (by omega)]
    exact Mem.readN_writeN_of_disjoint _ _ (by omega)
  have hsize : ∀ v, chunkSize ((m.write16 (sl.base + 24) (usedChunks m sl.base + 1)).write64
      (sl.base + 28) v) sl.cache.addr = sl.cache.layout.size := by
    intro v
    rw [← hm.cache_size _ hc, chunkSize, Mem.read64_write64_of_disjoint _ _ (by omega)]
    exact Mem.readN_writeN_of_disjoint _ _ (by omega)
  simp only [popChunk, setUsedChunks, setFreeChunk]
  rw [hfree, hnext, hcache, hsize]

/-- A pop takes the first free chunk and leaves the other slabs and the lists alone. -/
theorem popChunk_spec (hg : Geometry cs frames slabs) (hm : MetaOk cs slabs m) (hsl : sl ∈ slabs)
    (h : SlabOk m sl live) (hroom : usedChunks m sl.base ≠ totalChunks m sl.base) :
    freeChunk m sl.base ∈ sl.cache.layout.chunks sl.base ∧ freeChunk m sl.base ∉ live ∧
      SlabOk (popChunk m sl.base) sl (freeChunk m sl.base :: live) ∧
      Mem.ChangesIn (chunkSpans sl (freeChunk m sl.base)) m (popChunk m sl.base) := by
  obtain ⟨rest, hp, hnot, hperm, hchain⟩ := h.first hroom
  have hbounds := Layout.chunk_bounds hp
  have hmin := sl.cache.layout.min
  rw [popChunk_eq hg hm hsl h hbounds.1]
  obtain ⟨p, hpeq⟩ : ∃ p, freeChunk m sl.base = p := ⟨_, rfl⟩
  rw [hpeq] at hp hnot hperm hchain hbounds ⊢
  have hchunk : ∀ c ∈ rest, c ∈ sl.cache.layout.chunks sl.base ∧ c ≠ p := by
    intro c hc
    have hnodup := hperm.nodup_iff.mpr (sl.cache.layout.nodup_chunks sl.base)
    refine ⟨hperm.mem_iff.mp (List.mem_append_left _ hc), ?_⟩
    rintro rfl
    exact (List.nodup_append.mp hnodup).2.2 c hc c List.mem_cons_self rfl
  obtain ⟨m', hm'⟩ : ∃ m', ((m.write16 (sl.base + 24) (usedChunks m sl.base + 1)).write64
      (sl.base + 28) (m.read64 p)).memset p 0 sl.cache.layout.size = m' := ⟨_, rfl⟩
  rw [hm']
  have hout : ∀ a n, a + n ≤ sl.base + 24 ∨ sl.base + 36 ≤ a →
      a + n ≤ p ∨ p + sl.cache.layout.size ≤ a → m'.readN a n = m.readN a n := by
    intro a n hheader hpage
    rw [← hm', Mem.readN_memset_of_disjoint _ _ hpage, Mem.write64,
      Mem.readN_writeN_of_disjoint _ _ (by omega), Mem.write16,
      Mem.readN_writeN_of_disjoint _ _ (by omega)]
  have hcount : usedChunks m sl.base + 1 ≤ sl.cache.layout.total := by
    have := h.used
    rw [h.total] at hroom
    omega
  have hused : usedChunks m' sl.base = usedChunks m sl.base + 1 := by
    have hsmall := sl.cache.layout.small
    rw [usedChunks, Mem.read16, ← hm', Mem.readN_memset_of_disjoint _ _ (by omega), Mem.write64,
      Mem.readN_writeN_of_disjoint _ _ (by omega)]
    exact Mem.readN_writeN_same _ _ (by omega)
  have hfree : m'.read64 (sl.base + 28) = m.read64 p := by
    rw [Mem.read64, ← hm', Mem.readN_memset_of_disjoint _ _ (by omega)]
    exact Mem.read64_write64_same _ _ (Mem.read64_lt m p)
  have htotal : totalChunks m' sl.base = sl.cache.layout.total := by
    rw [← h.total, totalChunks, Mem.read16, ← hm', Mem.readN_memset_of_disjoint _ _ (by omega),
      Mem.write64, Mem.readN_writeN_of_disjoint _ _ (by omega)]
    exact Mem.readN_writeN_of_disjoint _ _ (by omega)
  refine ⟨hp, hnot, ⟨?_, htotal, by omega, ?_, rest, hperm, ?_⟩, ?_⟩
  · rw [← h.cache]
    exact hout _ _ (by omega) (by omega)
  · have := h.live_used
    rw [List.length_cons, hused]
    omega
  · apply Linked.take_over hchain hfree
    intro a ha
    obtain ⟨hmem, hne⟩ := hchunk a ha
    have habounds := Layout.chunk_bounds hmem
    have hsep := Layout.chunk_separated hmem hp hne
    exact hout a 8 (by omega) (by omega)
  · intro x hx
    have hxp := hx ⟨p, sl.cache.layout.size⟩ (by simp [chunkSpans])
    have hxh := hx ⟨sl.base + 24, 12⟩ (by simp [chunkSpans])
    simp only [Span.Has] at hxp hxh
    rw [← hm', Mem.memset_out _ _ (by omega), Mem.write64, Mem.writeN_out _ _ (by omega),
      Mem.write16, Mem.writeN_out _ _ (by omega)]

theorem SlabOk.relinked (hg : Geometry cs frames slabs) (hsl : sl ∈ slabs) (h : SlabOk m sl live)
    (hchanges : Mem.ChangesIn (linkSpans cs slabs) m m') : SlabOk m' sl live := by
  apply h.frame
  intro x hlo hhi hgap _
  exact hchanges x (hg.not_linkSpan_of_slab hsl hlo hhi hgap)

/-- The live chunks of the page at `base`. -/
def liveIn (live : List Nat) (base : Nat) : List Nat :=
  live.filter fun a => base ≤ a ∧ a < base + 4096

theorem liveIn_cons_of_mem {p base : Nat} (live : List Nat) (h : base ≤ p ∧ p < base + 4096) :
    liveIn (p :: live) base = p :: liveIn live base :=
  List.filter_cons_of_pos (by simpa using h)

theorem liveIn_cons_of_not_mem {p base : Nat} (live : List Nat)
    (h : p < base ∨ base + 4096 ≤ p) : liveIn (p :: live) base = liveIn live base :=
  List.filter_cons_of_neg (by simp; omega)

/-- What taking the chunk `p` of a slab leaves. -/
structure Took (cs : List CacheInfo) (slabs : List SlabInfo) (live : List Nat) (m : Mem)
    (sl : SlabInfo) (p : Nat) (m' : Mem) : Prop where
  chunk : p ∈ sl.cache.layout.chunks sl.base
  fresh : p ∉ live
  ok : MetaOk cs slabs m'
  slabs_ok : ∀ sl' ∈ slabs, SlabOk m' sl' (liveIn (p :: live) sl'.base)
  changes : Mem.ChangesIn (chunkSpans sl p ++ linkSpans cs slabs) m m'

/-- Changes of one slab's chunk and counters leave the lists and the other slabs alone. -/
theorem MetaOk.chunk_changes (hg : Geometry cs frames slabs) (hm : MetaOk cs slabs m)
    (hsl : sl ∈ slabs) {p : Nat} (hp : p ∈ sl.cache.layout.chunks sl.base)
    (h : Mem.ChangesIn (chunkSpans sl p) m m') : MetaOk cs slabs m' := by
  have hbounds := Layout.chunk_bounds hp
  have hout : ∀ x, x < sl.base + 24 ∨ sl.base + 4096 ≤ x → m' x = m x := by
    intro x hx
    apply h
    intro s hs
    simp only [chunkSpans, List.mem_cons, List.not_mem_nil, or_false] at hs
    rcases hs with rfl | rfl
    · simp only [Span.Has]
      omega
    · simp only [Span.Has]
      omega
  apply hm.frame
  · intro c hc x hlo hhi
    have := hg.slab_cache_apart hsl hc
    exact hout x (by omega)
  · intro sl' hsl' x hlo hhi
    by_cases heq : sl = sl'
    · subst heq
      exact hout x (by omega)
    · have := hg.slabs_apart hsl hsl' heq
      exact hout x (by omega)

theorem SlabOk.chunk_changes (hg : Geometry cs frames slabs) {sl' : SlabInfo} (hsl : sl ∈ slabs)
    (hsl' : sl' ∈ slabs) (hne : sl ≠ sl') {p : Nat} (hp : p ∈ sl.cache.layout.chunks sl.base)
    (h' : SlabOk m sl' live) (h : Mem.ChangesIn (chunkSpans sl p) m m') : SlabOk m' sl' live := by
  have hbounds := Layout.chunk_bounds hp
  have hapart := hg.slabs_apart hsl hsl' hne
  apply h'.frame
  intro x hlo hhi _ _
  apply h
  intro s hs
  simp only [chunkSpans, List.mem_cons, List.not_mem_nil, or_false] at hs
  rcases hs with rfl | rfl
  · simp only [Span.Has]
    omega
  · simp only [Span.Has]
    omega

/-- The moves between lists after a chunk was taken. -/
theorem relistTaken_relinked (hg : Geometry cs frames slabs) (hm : MetaOk cs slabs m)
    (hsl : sl ∈ slabs) (h : SlabOk m sl live) :
    Relinked cs slabs m (relistTaken m sl.base) := by
  unfold relistTaken
  rw [h.cache]
  split_ifs
  · exact transferSlab_relinked hg hm hsl (Or.inr (Or.inl rfl)) (Or.inr (Or.inr rfl))
  · exact transferSlab_relinked hg hm hsl (Or.inl rfl) (Or.inr (Or.inl rfl))
  · exact .refl hm

theorem takeChunk_took {lives : List Nat} (hg : Geometry cs frames slabs) (hm : MetaOk cs slabs m)
    (hok : ∀ sl ∈ slabs, SlabOk m sl (liveIn lives sl.base)) (hsl : sl ∈ slabs)
    (hroom : usedChunks m sl.base ≠ totalChunks m sl.base) :
    Took cs slabs lives m sl (takeChunk m sl.base).1 (takeChunk m sl.base).2 := by
  obtain ⟨hp, hnot, hpopped, hchanges⟩ := popChunk_spec hg hm hsl (hok sl hsl) hroom
  have hbounds := Layout.chunk_bounds hp
  have hmin := sl.cache.layout.min
  have hret : (takeChunk m sl.base).1 = freeChunk m sl.base := by
    rw [takeChunk_eq]
    exact Mem.readN_writeN_of_disjoint _ _ (by omega)
  have hmem : (takeChunk m sl.base).2 = relistTaken (popChunk m sl.base) sl.base := by
    rw [takeChunk_eq]
  rw [hret, hmem]
  obtain ⟨p, hpeq⟩ : ∃ p, freeChunk m sl.base = p := ⟨_, rfl⟩
  obtain ⟨popped, hpop⟩ : ∃ popped, popChunk m sl.base = popped := ⟨_, rfl⟩
  rw [hpeq, hpop] at hpopped hchanges
  rw [hpeq] at hp hnot hbounds
  rw [hpeq, hpop]
  have hmeta := hm.chunk_changes hg hsl hp hchanges
  have hrelinked := relistTaken_relinked hg hmeta hsl hpopped
  refine ⟨hp, ?_, hrelinked.ok, ?_, ?_⟩
  · intro hmem
    exact hnot (List.mem_filter.mpr ⟨hmem, by simp; omega⟩)
  · intro sl' hsl'
    apply SlabOk.relinked hg hsl' _ hrelinked.changes
    by_cases heq : sl = sl'
    · subst heq
      rw [liveIn_cons_of_mem _ (by omega)]
      exact hpopped
    · have := hg.slabs_apart hsl hsl' heq
      rw [liveIn_cons_of_not_mem _ (by omega)]
      exact (hok sl' hsl').chunk_changes hg hsl hsl' heq hp hchanges
  · exact (hchanges.weaken (List.subset_append_left _ _)).trans
      (hrelinked.changes.weaken (List.subset_append_right _ _))

/-- A walk over a list of slabs either finds none with room and changes nothing, or takes a
chunk of a slab of the cache. -/
theorem slabInnerAllocChunk_spec {lives : List Nat} (hg : Geometry cs frames slabs)
    (hm : MetaOk cs slabs m) (hok : ∀ sl ∈ slabs, SlabOk m sl (liveIn lives sl.base))
    {c : CacheInfo} (hc : c ∈ cs) {fuel start p : Nat} (hstart : Ptr slabs c start)
    (hret : slabInnerAllocChunk m fuel start = some (p, m')) :
    (p = 0 ∧ m' = m) ∨ ∃ sl ∈ slabs, sl.cache = c ∧ Took cs slabs lives m sl p m' := by
  induction fuel generalizing start with
  | zero => cases hret
  | succ fuel ih =>
      rw [slabInnerAllocChunk] at hret
      split_ifs at hret with hnull hroom
      · cases hret
        exact Or.inl ⟨rfl, rfl⟩
      · obtain ⟨sl, hsl, rfl, rfl⟩ := hstart.resolve_left hnull
        have htook := takeChunk_took hg hm hok hsl hroom
        rw [Option.some.inj hret] at htook
        exact Or.inr ⟨sl, hsl, rfl, htook⟩
      · obtain ⟨sl, hsl, rfl, rfl⟩ := hstart.resolve_left hnull
        exact ih (hm.links _ hc _ (LinkCell.next hsl)) hret

/-- The stores of `slab_free_chunk` before the slab changes its list. -/
def pushChunk (m : Mem) (slab addr : Nat) : Mem :=
  setFreeChunk (m.write64 addr (freeChunk m slab)) slab addr

def relistGiven (m : Mem) (slab cache : Nat) : Mem :=
  if usedChunks m slab + 1 = totalChunks m slab then
    transferSlab m slab (slabsFull cache) (slabsPartial cache)
  else if usedChunks m slab = 0 then
    transferSlab m slab (slabsPartial cache) (slabsEmpty cache)
  else m

theorem slabFreeChunk_eq (m : Mem) (addr : Nat) :
    slabFreeChunk m addr =
      relistGiven (pushChunk m (addr - addr % pageSizeBytes) addr) (addr - addr % pageSizeBytes)
        (slabCache m (addr - addr % pageSizeBytes)) := rfl

theorem SlabOk.nodup (h : SlabOk m sl live) : live.Nodup := by
  obtain ⟨free, hperm, -⟩ := h.chain
  exact (List.nodup_append.mp (hperm.nodup_iff.mpr (sl.cache.layout.nodup_chunks sl.base))).2.1

theorem SlabOk.mem_chunks (h : SlabOk m sl live) {p : Nat} (hp : p ∈ live) :
    p ∈ sl.cache.layout.chunks sl.base := by
  obtain ⟨free, hperm, -⟩ := h.chain
  exact hperm.mem_iff.mp (List.mem_append_right _ hp)

/-- Pushing a live chunk back onto the free chain. -/
theorem pushChunk_spec (hg : Geometry cs frames slabs) (hsl : sl ∈ slabs) (h : SlabOk m sl live)
    {p : Nat} (hp : p ∈ live) :
    SlabOk (pushChunk m sl.base p) sl (live.erase p) ∧
      Mem.ChangesIn (chunkSpans sl p) m (pushChunk m sl.base p) := by
  obtain ⟨free, hperm, hchain⟩ := h.chain
  have hchunk := h.mem_chunks hp
  have hbounds := Layout.chunk_bounds hchunk
  have hmin := sl.cache.layout.min
  have hfit := (hg.slab_aligned hsl).2.2
  have hnodup := hperm.nodup_iff.mpr (sl.cache.layout.nodup_chunks sl.base)
  obtain ⟨m', hm'⟩ : ∃ m', pushChunk m sl.base p = m' := ⟨_, rfl⟩
  have hstores : (m.write64 p (freeChunk m sl.base)).write64 (sl.base + 28) p = m' := hm'
  rw [hm']
  have hout : ∀ a n, a + n ≤ sl.base + 28 ∨ sl.base + 36 ≤ a → a + n ≤ p ∨ p + 8 ≤ a →
      m'.readN a n = m.readN a n := by
    intro a n hheader hchunk
    rw [← hstores, Mem.write64, Mem.readN_writeN_of_disjoint _ _ (by omega), Mem.write64,
      Mem.readN_writeN_of_disjoint _ _ (by omega)]
  have hhead : m'.read64 (sl.base + 28) = p := by
    rw [← hstores]
    exact Mem.read64_write64_same _ _ (by omega)
  have hlink : m'.read64 p = m.read64 (sl.base + 28) := by
    rw [← hstores, Mem.read64_write64_of_disjoint _ _ (by omega)]
    exact Mem.read64_write64_same _ _ (Mem.read64_lt _ _)
  refine ⟨⟨?_, ?_, ?_, ?_, p :: free, ?_, ?_⟩, ?_⟩
  · exact (hout _ _ (by omega) (by omega)).trans h.cache
  · exact (hout _ _ (by omega) (by omega)).trans h.total
  · rw [usedChunks, Mem.read16, hout _ _ (by omega) (by omega)]
    exact h.used
  · rw [usedChunks, Mem.read16, hout _ _ (by omega) (by omega)]
    exact List.length_erase_le.trans h.live_used
  · have hsplit : (p :: free ++ live.erase p).Perm (free ++ live) :=
      List.perm_middle.symm.trans ((List.perm_cons_erase hp).symm.append_left free)
    exact hsplit.trans hperm
  · apply linked_cons_cons.mpr
    refine ⟨hhead, Linked.take_over hchain hlink ?_⟩
    intro a ha
    have hne : a ≠ p := fun heq => (List.nodup_append.mp hnodup).2.2 a ha p hp heq
    have hmem := hperm.mem_iff.mp (List.mem_append_left live ha)
    have habounds := Layout.chunk_bounds hmem
    have hsep := Layout.chunk_separated hmem hchunk hne
    exact hout a 8 (by omega) (by omega)
  · intro x hx
    have hxp := hx ⟨p, sl.cache.layout.size⟩ (by simp [chunkSpans])
    have hxh := hx ⟨sl.base + 24, 12⟩ (by simp [chunkSpans])
    simp only [Span.Has] at hxp hxh
    rw [← hstores, Mem.write64, Mem.writeN_out _ _ (by omega), Mem.write64,
      Mem.writeN_out _ _ (by omega)]

theorem relistGiven_relinked (hg : Geometry cs frames slabs) (hm : MetaOk cs slabs m)
    (hsl : sl ∈ slabs) : Relinked cs slabs m (relistGiven m sl.base sl.cache.addr) := by
  unfold relistGiven
  split_ifs
  · exact transferSlab_relinked hg hm hsl (Or.inr (Or.inr rfl)) (Or.inr (Or.inl rfl))
  · exact transferSlab_relinked hg hm hsl (Or.inr (Or.inl rfl)) (Or.inl rfl)
  · exact .refl hm

/-- What giving the chunk `p` of a slab back leaves. -/
structure Gave (cs : List CacheInfo) (slabs : List SlabInfo) (live : List Nat) (m : Mem)
    (sl : SlabInfo) (p : Nat) (m' : Mem) : Prop where
  ok : MetaOk cs slabs m'
  slabs_ok : ∀ sl' ∈ slabs, SlabOk m' sl' (liveIn (live.filter fun a => a != p) sl'.base)
  changes : Mem.ChangesIn (chunkSpans sl p ++ linkSpans cs slabs) m m'

theorem liveIn_filter (live : List Nat) (p base : Nat) :
    liveIn (live.filter fun a => a != p) base = (liveIn live base).filter fun a => a != p := by
  rw [liveIn, liveIn, List.filter_filter, List.filter_filter]
  simp only [Bool.and_comm]

theorem slabFreeChunk_gave {lives : List Nat} (hg : Geometry cs frames slabs)
    (hm : MetaOk cs slabs m) (hok : ∀ sl ∈ slabs, SlabOk m sl (liveIn lives sl.base))
    (hsl : sl ∈ slabs) {p : Nat} (hp : p ∈ liveIn lives sl.base) :
    Gave cs slabs lives m sl p (slabFreeChunk m p) := by
  have hchunk := (hok sl hsl).mem_chunks hp
  have hbounds := Layout.chunk_bounds hchunk
  have hmin := sl.cache.layout.min
  have hbase : p - p % pageSizeBytes = sl.base := by
    obtain ⟨k, hk⟩ := (hg.slab_aligned hsl).1
    simp only [pageSizeBytes]
    omega
  obtain ⟨hpushed, hchanges⟩ := pushChunk_spec hg hsl (hok sl hsl) hp
  rw [slabFreeChunk_eq, hbase, (hok sl hsl).cache]
  obtain ⟨pushed, hpush⟩ : ∃ pushed, pushChunk m sl.base p = pushed := ⟨_, rfl⟩
  rw [hpush] at hpushed hchanges ⊢
  have hmeta := hm.chunk_changes hg hsl hchunk hchanges
  have hrelinked := relistGiven_relinked hg hmeta hsl
  refine ⟨hrelinked.ok, ?_, ?_⟩
  · intro sl' hsl'
    apply SlabOk.relinked hg hsl' _ hrelinked.changes
    rw [liveIn_filter, ← (hok sl' hsl').nodup.erase_eq_filter]
    by_cases heq : sl = sl'
    · subst heq
      exact hpushed
    · have hnot : p ∉ liveIn lives sl'.base := by
        intro hmem
        have := Layout.chunk_bounds ((hok sl' hsl').mem_chunks hmem)
        have := hg.slabs_apart hsl hsl' heq
        omega
      rw [List.erase_of_not_mem hnot]
      exact (hok sl' hsl').chunk_changes hg hsl hsl' heq hchunk hchanges
  · exact (hchanges.weaken (List.subset_append_left _ _)).trans
      (hrelinked.changes.weaken (List.subset_append_right _ _))

end Slabs

end Tellurium.Slab
