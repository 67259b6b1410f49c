import Tellurium.Memory.HeapRuns

/-!
The contract of `krealloc`: null only after a failed allocation and with the block as it was,
otherwise a block of the size asked for with the old contents, and no read behind the old
block. A chunk and a multi-page block are told apart by their address and take different
exits.
-/

namespace Tellurium.Slab

open Tellurium.Lib

/-- `slab_realloc` together with the bytes that its copy reads. -/
def slabReallocReads (fuel : Nat) (palloc : Nat → Nat) (m : Mem) (caches : List Nat)
    (addr size : Nat) : Option (Result × Option Span × Span) :=
  if addr = 0 then some (⟨0, m, none⟩, none, ⟨addr, 0⟩)
  else if addr % pageSizeBytes = 0 then
    if numPages size ≤ m.read64 (addr - pageSizeBytes) then
      some (⟨addr, m, none⟩, none, ⟨addr, 0⟩)
    else do
      let r ← slabAlloc fuel palloc m caches size
      if r.ret = 0 then return (r, none, ⟨addr, 0⟩)
      let m := r.mem.memcpy r.ret addr size
      let (m, put) := slabFree m addr
      return ({r with mem := m}, put, ⟨addr, size⟩)
  else
    let slab := addr - addr % pageSizeBytes
    if size > chunkSize m (slabCache m slab) then do
      let r ← slabAlloc fuel palloc m caches size
      if r.ret = 0 then return (r, none, ⟨addr, 0⟩)
      let n := chunkSize r.mem (slabCache r.mem slab)
      let m := r.mem.memcpy r.ret addr n
      return ({r with mem := slabFreeChunk m addr}, none, ⟨addr, n⟩)
    else some (⟨0, m, none⟩, none, ⟨addr, 0⟩)

/-- A block is needed elsewhere, and the allocation returned null. -/
def AllocFailed (fuel : Nat) (palloc : Nat → Nat) (m : Mem) (caches : List Nat)
    (addr size : Nat) : Prop :=
  Outgrown m addr size ∧ ∃ r, slabAlloc fuel palloc m caches size = some r ∧ r.ret = 0

/-- What a call with result `ret` owes the owner of `b`. That the heap is valid ties the live
blocks to memory: a chunk that is not live is on the free list of its slab. -/
structure ReallocOwed (cs : List CacheInfo) (h h' : Heap) (b : Span) (size ret : Nat) (read : Span)
    (failed : Prop) : Prop where
  reads : read.Inside b
  valid : ∃ slabs', HeapInv cs slabs' h'
  null : ret = 0 → failed ∧ b ∈ h'.live ∧ ∀ x, b.Has x → h'.mem x = h.mem x
  block : ret ≠ 0 → ∃ b' ∈ h'.live, b'.base = ret ∧ size ≤ b'.len ∧
    ∀ i < min b.len size, h'.mem (b'.base + i) = h.mem (b.base + i)
  freed : ret ≠ 0 → (b ∉ h'.live ↔ ret ≠ b.base)

/-- The call returns, and with it what it owes. -/
def ReallocContract (cs : List CacheInfo) (fuel : Nat) (palloc : Nat → Nat) (h : Heap) (b : Span)
    (size : Nat) : Prop :=
  ∃ r put read h',
    slabReallocReads fuel palloc h.mem (cs.map CacheInfo.addr) b.base size = some (r, put, read) ∧
      h.step fuel (cs.map CacheInfo.addr) (.krealloc b.base size palloc) = some h' ∧
      ReallocOwed cs h h' b size r.ret read
        (AllocFailed fuel palloc h.mem (cs.map CacheInfo.addr) b.base size)

/-- A multi-page block must be large enough already, or there are no pages for a larger one.
A chunk must be too small, and `slab_alloc` return. -/
def ReallocServed (cs : List CacheInfo) (fuel : Nat) (palloc : Nat → Nat) (h : Heap) (b : Span)
    (size : Nat) : Prop :=
  if b.base % pageSizeBytes = 0 then size ≤ b.len ∨ palloc (numPages size + 1) = 0
  else b.len < size ∧ ∃ r, slabAlloc fuel palloc h.mem (cs.map CacheInfo.addr) size = some r

section Cases

variable {fuel addr size : Nat} {palloc : Nat → Nat} {m : Mem} {caches : List Nat} {r : Result}

theorem slabReallocReads_erase (fuel : Nat) (palloc : Nat → Nat) (m : Mem) (caches : List Nat)
    (addr size : Nat) :
    (slabReallocReads fuel palloc m caches addr size).map (fun t => (t.1, t.2.1)) =
      slabRealloc fuel palloc m caches addr size := by
  rw [slabReallocReads, slabRealloc]
  dsimp only
  split_ifs
  · rfl
  · rfl
  · cases slabAlloc fuel palloc m caches size with
    | none => rfl
    | some r =>
        by_cases hret : r.ret = 0
        · simp [hret]
        · simp [hret]
  · cases slabAlloc fuel palloc m caches size with
    | none => rfl
    | some r =>
        by_cases hret : r.ret = 0
        · simp [hret]
        · simp [hret]
  · rfl

theorem step_of_reads {h : Heap} {put : Option Span} {read : Span}
    (hreads : slabReallocReads fuel palloc h.mem caches addr size = some (r, put, read)) :
    h.step fuel caches (.krealloc addr size palloc) =
      some (if r.ret = addr then {h with mem := r.mem}
        else if r.ret = 0 then h.afterAlloc size r
        else (h.afterAlloc size r).afterFree addr (r.mem, put)) := by
  rw [Heap.step, ← slabReallocReads_erase, hreads]
  rfl

/-- A call whose block is large enough: multi-page blocks stay, chunks yield null. -/
theorem reads_of_fits (haddr : addr ≠ 0) (hfits : ¬ Outgrown m addr size) :
    slabReallocReads fuel palloc m caches addr size =
      some (⟨if addr % pageSizeBytes = 0 then addr else 0, m, none⟩, none, ⟨addr, 0⟩) := by
  rw [slabReallocReads, if_neg haddr]
  rw [Outgrown] at hfits
  by_cases hpage : addr % pageSizeBytes = 0
  · rw [if_pos hpage, not_not] at hfits
    rw [if_pos hpage, if_pos hfits, if_pos hpage]
  · rw [if_neg hpage] at hfits
    rw [if_neg hpage, if_neg hpage]
    exact if_neg hfits

theorem reads_of_none (haddr : addr ≠ 0) (hgrown : Outgrown m addr size)
    (halloc : slabAlloc fuel palloc m caches size = none) :
    slabReallocReads fuel palloc m caches addr size = none := by
  rw [slabReallocReads, if_neg haddr, halloc]
  rw [Outgrown] at hgrown
  by_cases hpage : addr % pageSizeBytes = 0
  · rw [if_pos hpage] at hgrown
    rw [if_pos hpage, if_neg hgrown]
    rfl
  · rw [if_neg hpage] at hgrown
    rw [if_neg hpage]
    exact if_pos hgrown

theorem reads_of_failed (haddr : addr ≠ 0) (hgrown : Outgrown m addr size)
    (halloc : slabAlloc fuel palloc m caches size = some r) (hret : r.ret = 0) :
    slabReallocReads fuel palloc m caches addr size = some (r, none, ⟨addr, 0⟩) := by
  rw [slabReallocReads, if_neg haddr, halloc]
  rw [Outgrown] at hgrown
  by_cases hpage : addr % pageSizeBytes = 0
  · rw [if_pos hpage] at hgrown
    rw [if_pos hpage, if_neg hgrown]
    simp [hret]
  · rw [if_neg hpage] at hgrown
    simp [hpage, hgrown, hret]

/-- How many bytes a call copies into the new block. -/
def copyLength (m : Mem) (addr size : Nat) : Nat :=
  if addr % pageSizeBytes = 0 then size
  else chunkSize m (slabCache m (addr - addr % pageSizeBytes))

theorem reads_of_moved (haddr : addr ≠ 0) (hgrown : Outgrown m addr size)
    (halloc : slabAlloc fuel palloc m caches size = some r) (hret : r.ret ≠ 0) :
    slabReallocReads fuel palloc m caches addr size =
      some ({r with
          mem := (slabFree (r.mem.memcpy r.ret addr (copyLength r.mem addr size)) addr).1},
        (slabFree (r.mem.memcpy r.ret addr (copyLength r.mem addr size)) addr).2,
        ⟨addr, copyLength r.mem addr size⟩) := by
  rw [slabReallocReads, if_neg haddr, halloc]
  rw [Outgrown] at hgrown
  by_cases hpage : addr % pageSizeBytes = 0
  · rw [if_pos hpage] at hgrown
    rw [if_pos hpage, if_neg hgrown, copyLength, if_pos hpage]
    simp [hret]
  · rw [if_neg hpage] at hgrown
    have hfree : ∀ m', slabFree m' addr = (slabFreeChunk m' addr, none) := by
      intro m'
      rw [slabFree, if_neg haddr, if_neg hpage]
    rw [hfree, copyLength, if_neg hpage]
    simp [hpage, hgrown, hret]

end Cases

section Contract

variable {cs : List CacheInfo} {slabs : List SlabInfo} {h : Heap} {b : Span}

/-- Past the slabs an allocation fails exactly if there are no pages. -/
theorem HeapInv.slabAlloc_large (hinv : HeapInv cs slabs h) {fuel size : Nat}
    {palloc : Nat → Nat} (hlarge : slabMaxChunkSize < size) :
    ∃ r, slabAlloc fuel palloc h.mem (cs.map CacheInfo.addr) size = some r ∧
      (r.ret = 0 ↔ palloc (numPages size + 1) = 0) := by
  have hidx : getCacheIndex h.mem (cs.map CacheInfo.addr) size = none := by
    cases hcase : getCacheIndex h.mem (cs.map CacheInfo.addr) size with
    | none => rfl
    | some i =>
        obtain ⟨c, -, -, -, hsmall⟩ := getCacheIndex_some hinv.geo hinv.ok hcase
        exact absurd hsmall (Nat.not_le.mpr hlarge)
  rw [slabAlloc, hidx]
  dsimp only
  split_ifs with hnull
  · exact ⟨_, rfl, iff_of_true rfl hnull⟩
  · refine ⟨_, rfl, iff_of_false ?_ hnull⟩
    exact Nat.succ_ne_zero _

/-- The bytes of a moved block. -/
theorem HeapInv.moved_contents (hinv : HeapInv cs slabs h) (hb : b ∈ h.live)
    {slabs' : List SlabInfo} {size : Nat} {r : Result}
    (hnext : HeapInv cs slabs' (h.afterAlloc size r)) (hchanges : AllocChanges h size r)
    (hret : r.ret ≠ 0) (hlen : b.len ≤ capacity size) {i : Nat} (hi : i < b.len) :
    (slabFree (r.mem.memcpy r.ret b.base b.len) b.base).1 (r.ret + i) = h.mem (b.base + i) := by
  have hlive : (h.afterAlloc size r).live = ⟨r.ret, capacity size⟩ :: h.live := if_neg hret
  have hmem := mem_afterAlloc hb size r
  have hnew : ⟨r.ret, capacity size⟩ ∈ (h.afterAlloc size r).live := hlive ▸ List.mem_cons_self
  have hapart : Span.Disjoint ⟨r.ret, capacity size⟩ b := by
    have hpair := hnext.separated.disjoint
    rw [hlive, List.pairwise_cons] at hpair
    exact hpair.1 b hb
  have hx : Span.Has ⟨r.ret, capacity size⟩ (r.ret + i) := ⟨Nat.le_add_right _ _, by
    dsimp only
    omega⟩
  -- Freeing the old block touches that block and the headers only.
  have hfree := ((@HeapInv.copied _ _ _ _ b.base _ _ hnext hret hlen).free hmem).2 (r.ret + i)
    (Span.not_has_of_disjoint hapart hx)
    fun f hf => Span.not_has_of_disjoint (hnext.separated.headers _ hnew f hf) hx
  have hcopy : r.mem.memcpy r.ret b.base b.len (r.ret + i) = r.mem (b.base + i) := by
    simp only [Span.Disjoint] at hapart
    exact Mem.memcpy_in _ (by omega) hi
  have hold : b.Has (b.base + i) := ⟨Nat.le_add_right _ _, Nat.add_lt_add_left hi _⟩
  exact hfree.trans (hcopy.trans ((hinv.alloc_quiet hnext hchanges).1 ⟨b, hb, hold⟩))

variable {fuel size : Nat} {palloc : Nat → Nat}

theorem HeapInv.realloc_kept (hinv : HeapInv cs slabs h) (hb : b ∈ h.live)
    (hpage : b.base % pageSizeBytes = 0) (hfits : size ≤ b.len) :
    ReallocContract cs fuel palloc h b size := by
  have hne := (hinv.kind hb).1
  have hin : ¬ Outgrown h.mem b.base size := by
    rw [hinv.outgrown_iff hb]
    exact Nat.not_lt.mpr hfits
  have hreads := @reads_of_fits fuel _ _ palloc _ (cs.map CacheInfo.addr) hne hin
  have hstep := step_of_reads hreads
  rw [if_pos hpage] at hreads hstep
  rw [if_pos rfl] at hstep
  refine ⟨_, _, _, _, hreads, hstep, ?_⟩
  exact {
    reads := ⟨Nat.le_refl _, Nat.le_add_right _ _⟩
    valid := ⟨slabs, hinv⟩
    null := fun hzero => absurd hzero hne
    block := fun _ => ⟨b, hb, rfl, hfits, fun _ _ => rfl⟩
    freed := fun _ => iff_of_false (not_not.mpr hb) (not_not.mpr rfl) }

theorem HeapInv.realloc_failed (hinv : HeapInv cs slabs h) (hb : b ∈ h.live)
    (hpalloc : PallocOk h.frames palloc)
    (hword : SpawnsBeforeNull (cs.map CacheInfo.addr) h.mem size palloc) (hgrown : b.len < size)
    {r : Result} (halloc : slabAlloc fuel palloc h.mem (cs.map CacheInfo.addr) size = some r)
    (hret : r.ret = 0) : ReallocContract cs fuel palloc h b size := by
  have hne := (hinv.kind hb).1
  have hout := (hinv.outgrown_iff hb size).mpr hgrown
  obtain ⟨slabs', -, hnext, hchanges⟩ := hinv.alloc hpalloc hword halloc
  have hreads := reads_of_failed hne hout halloc hret
  have hstep := step_of_reads hreads
  rw [if_neg (by rw [hret]; exact hne.symm), if_pos hret] at hstep
  have hlive : (h.afterAlloc size r).live = h.live := if_pos hret
  refine ⟨_, _, _, _, hreads, hstep, ?_⟩
  exact {
    reads := ⟨Nat.le_refl _, Nat.le_add_right _ _⟩
    valid := ⟨slabs', hnext⟩
    null := fun _ => ⟨⟨hout, r, halloc, hret⟩, hlive ▸ hb,
      fun x hx => (hinv.alloc_quiet hnext hchanges).1 ⟨b, hb, hx⟩⟩
    block := fun hnonzero => absurd hret hnonzero
    freed := fun hnonzero => absurd hret hnonzero }

/-- A chunk that moves takes its bytes along. -/
theorem HeapInv.realloc_moved (hinv : HeapInv cs slabs h) (hb : b ∈ h.live)
    (hpalloc : PallocOk h.frames palloc)
    (hword : SpawnsBeforeNull (cs.map CacheInfo.addr) h.mem size palloc)
    (hpage : b.base % pageSizeBytes ≠ 0) (hgrown : b.len < size) {r : Result}
    (halloc : slabAlloc fuel palloc h.mem (cs.map CacheInfo.addr) size = some r)
    (hret : r.ret ≠ 0) : ReallocContract cs fuel palloc h b size := by
  have hne := (hinv.kind hb).1
  have hout := (hinv.outgrown_iff hb size).mpr hgrown
  obtain ⟨slabs', -, hnext, hchanges⟩ := hinv.alloc hpalloc hword halloc
  have hlive : (h.afterAlloc size r).live = ⟨r.ret, capacity size⟩ :: h.live := if_neg hret
  have hcopied : copyLength r.mem b.base size = b.len := by
    rw [copyLength, if_neg hpage]
    exact hnext.chunk_len (mem_afterAlloc hb size r) hpage
  have hcap : b.len ≤ capacity size := hgrown.le.trans (size_le_capacity size)
  have hfresh := hnext.ret_fresh hret hb
  have hreads := reads_of_moved hne hout halloc hret
  rw [hcopied] at hreads
  have hstep := step_of_reads hreads
  rw [if_neg hfresh, if_neg hret] at hstep
  refine ⟨_, _, _, _, hreads, hstep, ?_⟩
  have hmoved := (hinv.moved hb hnext hchanges hret hcap rfl).1
  exact {
    reads := ⟨Nat.le_refl _, Nat.le_refl _⟩
    valid := ⟨slabs', hmoved⟩
    null := fun hzero => absurd hzero hret
    block := by
      intro _
      refine ⟨⟨r.ret, capacity size⟩, ?_, rfl, size_le_capacity size, ?_⟩
      · apply List.mem_filter.mpr
        exact ⟨hlive ▸ List.mem_cons_self, by simpa using hfresh⟩
      · intro i hi
        exact hinv.moved_contents hb hnext hchanges hret hcap (Nat.lt_min.mp hi).1
    freed := by
      intro _
      refine iff_of_true ?_ hfresh
      intro hmem
      have := (List.mem_filter.mp hmem).2
      simp at this }

/-- A call that meets the contract meets the condition. -/
theorem HeapInv.served_of_contract (hinv : HeapInv cs slabs h) (hb : b ∈ h.live)
    (hmeets : ReallocContract cs fuel palloc h b size) :
    ReallocServed cs fuel palloc h b size := by
  have hne := (hinv.kind hb).1
  have hiff := hinv.outgrown_iff hb size
  obtain ⟨r, put, read, h', hreads, -, howed⟩ := hmeets
  rw [ReallocServed]
  by_cases hpage : b.base % pageSizeBytes = 0
  · rw [if_pos hpage]
    by_contra hnot
    obtain ⟨hgrown, hpages⟩ := not_or.mp hnot
    rw [Nat.not_le] at hgrown
    obtain ⟨r', halloc, hnull⟩ :=
      @HeapInv.slabAlloc_large _ _ _ hinv fuel _ palloc (hinv.large_of_pages hb hpage hgrown)
    have hmoved := reads_of_moved hne (hiff.mpr hgrown) halloc fun hzero => hpages (hnull.mp hzero)
    rw [hmoved, copyLength, if_pos hpage] at hreads
    -- The copy reads `size` bytes, more than the block has.
    have hin := howed.reads
    cases hreads
    have hend := hin.2
    dsimp only at hend
    omega
  · rw [if_neg hpage]
    have hgrown : b.len < size := by
      by_contra hfits
      have hin : ¬ Outgrown h.mem b.base size := hiff.not.mpr hfits
      rw [reads_of_fits hne hin, if_neg hpage] at hreads
      cases hreads
      exact hin (howed.null rfl).1.1
    refine ⟨hgrown, ?_⟩
    cases halloc : slabAlloc fuel palloc h.mem (cs.map CacheInfo.addr) size with
    | some r' => exact ⟨r', rfl⟩
    | none =>
        rw [reads_of_none hne (hiff.mpr hgrown) halloc] at hreads
        cases hreads

/-- For every state of the heap, every live block, every size and every answer of `palloc`: a
call that meets the contract is one of those described, and these meet it if a slab that is
spawned on the way stands before a null word. -/
theorem krealloc_contract (hinv : HeapInv cs slabs h) (hb : b ∈ h.live)
    (hpalloc : PallocOk h.frames palloc) (size fuel : Nat) :
    (ReallocContract cs fuel palloc h b size → ReallocServed cs fuel palloc h b size) ∧
      (ReallocServed cs fuel palloc h b size →
        NullBehindSpawn (cs.map CacheInfo.addr) h (.krealloc b.base size palloc) →
          ReallocContract cs fuel palloc h b size) := by
  refine ⟨hinv.served_of_contract hb, ?_⟩
  intro hserved hnull
  have hword : b.len < size → SpawnsBeforeNull (cs.map CacheInfo.addr) h.mem size palloc :=
    fun hgrown => hnull ((hinv.outgrown_iff hb size).mpr hgrown)
  rw [ReallocServed] at hserved
  by_cases hpage : b.base % pageSizeBytes = 0
  · rw [if_pos hpage] at hserved
    by_cases hfits : size ≤ b.len
    · exact hinv.realloc_kept hb hpage hfits
    · have hgrown := Nat.not_le.mp hfits
      obtain ⟨r, halloc, hzero⟩ :=
        @HeapInv.slabAlloc_large _ _ _ hinv fuel _ palloc (hinv.large_of_pages hb hpage hgrown)
      exact hinv.realloc_failed hb hpalloc (hword hgrown) hgrown halloc
        (hzero.mpr (hserved.resolve_left hfits))
  · rw [if_neg hpage] at hserved
    obtain ⟨hgrown, r, halloc⟩ := hserved
    by_cases hret : r.ret = 0
    · exact hinv.realloc_failed hb hpalloc (hword hgrown) hgrown halloc hret
    · exact hinv.realloc_moved hb hpalloc (hword hgrown) hpage hgrown halloc hret

end Contract

/-- The chunk of the first `kmalloc` after `init_slab`. -/
def firstBlock : Span := ⟨0x9400, 1024⟩

/-- The heap after that call, with the pages from `0xb000` on not in use. -/
theorem firstMalloc_heap : ∃ h slabs,
    (startHeap (bootMem 0) bootPages).step 3 bootPages firstMalloc = some h ∧
      firstBlock ∈ h.live ∧ HeapInv (cacheInfos bootPages) slabs h ∧
      ∀ f ∈ h.frames, f.span.base + f.span.len ≤ 0xb000 := by
  have hrun : ((startHeap (bootMem 0) bootPages).step 3 bootPages firstMalloc).map
      (fun h => (h.live, decide (∀ f ∈ h.frames, f.span.base + f.span.len ≤ 0xb000))) =
        some ([firstBlock], true) := by
    decide +kernel
  obtain ⟨h, hstep, hvalues⟩ := Option.map_eq_some_iff.mp hrun
  obtain ⟨hlive, hframes⟩ := Prod.mk.inj hvalues
  have hnull : NullBehindSpawn bootPages (startHeap (bootMem 0) bootPages) firstMalloc := by
    intro _ _ _ _
    decide +kernel
  obtain ⟨-, hstart⟩ := initSlab_inv bootPages_ok (initSlab_boot 0)
  obtain ⟨slabs, hinv, -⟩ := hstart.step (firstMalloc_allowed 0) hnull hstep
  exact ⟨h, slabs, hstep, hlive ▸ List.mem_singleton_self _, hinv, of_decide_eq_true hframes⟩

/-- Two pages at `0xb000` are the answer to a request for two. -/
def twoPages (n : Nat) : Nat := if n = 2 then 0xb000 else 0

theorem twoPages_ok {frames : List OwnedFrame}
    (hframes : ∀ f ∈ frames, f.span.base + f.span.len ≤ 0xb000) : PallocOk frames twoPages := by
  intro n hn
  rw [twoPages] at hn ⊢
  split_ifs at hn ⊢ with htwo
  · subst htwo
    exact ⟨by decide, by decide, by decide, fun f hf => Or.inr (hframes f hf)⟩
  · exact absurd rfl hn

/-- Growing the chunk to 2000 bytes meets the contract. -/
theorem krealloc_contract_grown : ∃ h,
    (startHeap (bootMem 0) bootPages).step 3 bootPages firstMalloc = some h ∧
      firstBlock ∈ h.live ∧
      ReallocContract (cacheInfos bootPages) 3 twoPages h firstBlock 2000 := by
  obtain ⟨h, slabs, hstep, hb, hinv, hframes⟩ := firstMalloc_heap
  refine ⟨h, hstep, hb, ?_⟩
  apply (krealloc_contract hinv hb (twoPages_ok hframes) 2000 3).2
  · rw [ReallocServed, if_neg (by decide)]
    obtain ⟨r, halloc, -⟩ := @HeapInv.slabAlloc_large _ _ _ hinv 3 2000 twoPages (by decide)
    exact ⟨by decide, r, halloc⟩
  · intro _ i fuel hidx
    obtain ⟨c, -, -, -, hsmall⟩ := getCacheIndex_some hinv.geo hinv.ok hidx
    exact absurd hsmall (by decide)

/-- Asking for the size the chunk already has yields null, although nothing had to be
allocated. -/
theorem same_size_yields_null : ∃ h,
    (startHeap (bootMem 0) bootPages).step 3 bootPages firstMalloc = some h ∧
      firstBlock ∈ h.live ∧
      slabRealloc 3 twoPages h.mem bootPages 0x9400 1024 = some (⟨0, h.mem, none⟩, none) ∧
      ¬ ReallocContract (cacheInfos bootPages) 3 twoPages h firstBlock 1024 := by
  obtain ⟨h, slabs, hstep, hb, hinv, -⟩ := firstMalloc_heap
  refine ⟨h, hstep, hb, ?_, ?_⟩
  · have hin : ¬ Outgrown h.mem 0x9400 1024 := (hinv.outgrown_iff hb 1024).not.mpr (by decide)
    rw [← slabReallocReads_erase, reads_of_fits (by decide) hin]
    rfl
  · intro hmeets
    have hserved := hinv.served_of_contract hb hmeets
    rw [ReallocServed, if_neg (by decide)] at hserved
    exact absurd hserved.1 (by decide)

end Tellurium.Slab
