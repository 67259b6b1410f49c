import Tellurium.User.Heap

/-!
What the user-space heap owes one caller. `user_malloc` owes null or a block that holds the
request, whatever `mmap` answers and however large the request is; `user_realloc` owes a
block with the old contents, and the old block back on the free list when it is not the
result. Both are compared with the code from any heap that satisfies the invariant.
-/

namespace Tellurium.UserHeap

open Tellurium.Lib

/-- The length of the block that `user_malloc` looks for: header added, rounded up. -/
def requestSize (size : Nat) : Nat := alignUp (add64 size (max sizeofMallocHeader sizeofFreeBlock)) 8

/-- What it asks `mmap` for when no block of the free list will do. -/
def requestPages (size : Nat) : Nat := alignUp (requestSize size) pageSizeBytes

/-- Some free block can take the request. -/
def Fits (m : Mem) (free : List Nat) (size : Nat) : Prop :=
  ∃ b ∈ free, requestSize size ≤ blockSize m b

instance (m : Mem) (free : List Nat) (size : Nat) : Decidable (Fits m free size) :=
  inferInstanceAs (Decidable (∃ b ∈ free, requestSize size ≤ blockSize m b))

/-- The result has `size` usable bytes: its header grants them, and the block that holds them
is mapped. -/
structure Served (s : State) (size : Nat) (r : Result) : Prop where
  room : size ≤ (payload r.mem ⟨r.ret, size⟩).len
  inside : (payload r.mem ⟨r.ret, size⟩).Inside (liveSpan r.mem ⟨r.ret, size⟩)
  mapped : ∃ region ∈ r.mapped.toList ++ s.regions,
    (liveSpan r.mem ⟨r.ret, size⟩).Inside region

/-- What `user_malloc` owes for `size` bytes. -/
structure MallocOwed (requestBlock : Nat → Nat) (s : State) (free : List Nat) (size : Nat)
    (r : Result) : Prop where
  served : r.ret = 0 ∨ Served s size r
  failed : ¬ Fits s.mem free size → requestBlock (requestPages size) = 0 →
    r.ret = 0 ∧ r.mem = s.mem

/-- The call returns, and with it what it owes. -/
def MallocContract (requestBlock : Nat → Nat) (mallocHead : Nat) (s : State) (free : List Nat)
    (size : Nat) : Prop :=
  ∃ fuel r, userMalloc fuel requestBlock mallocHead s.mem size = some r ∧
    MallocOwed requestBlock s free size r

section Results

variable {requestBlock : Nat → Nat} {m : Mem} {p c size : Nat} {r : Result}

theorem mallocFromBlock_ret (m : Mem) (p c size : Nat) :
    (mallocFromBlock m p c size).ret = add64 c sizeofMallocHeader ∧
      (mallocFromBlock m p c size).mapped = none := by
  unfold mallocFromBlock
  dsimp only
  split_ifs
  · exact ⟨rfl, rfl⟩
  · exact ⟨rfl, rfl⟩

theorem mallocFromMmap_ret (hret : mallocFromMmap requestBlock m p size = some r) :
    requestBlock (alignUp size pageSizeBytes) ≠ 0 ∧
      r.ret = add64 (requestBlock (alignUp size pageSizeBytes)) sizeofMallocHeader ∧
      r.mapped = some ⟨requestBlock (alignUp size pageSizeBytes), alignUp size pageSizeBytes⟩ := by
  unfold mallocFromMmap at hret
  by_cases hzero : requestBlock (alignUp size pageSizeBytes) = 0
  · rw [if_pos hzero] at hret
    cases hret
  · rw [if_neg hzero] at hret
    obtain rfl := Option.some.inj hret
    exact ⟨hzero, rfl, rfl⟩

end Results

section Malloc

variable {requestBlock : Nat → Nat} {mallocHead c size fuel : Nat} {s : State} {free : List Nat}
  {r : Result}

/-- A served block ends inside a region, and so below the end of memory. -/
theorem Served.below (h : Served s size r) (hsize : size ≠ 0) (hret : r.ret = c + 16)
    (hfit : ∀ region ∈ r.mapped.toList ++ s.regions, region.base + region.len ≤ 2 ^ 64) :
    c + 16 + size ≤ 2 ^ 64 := by
  obtain ⟨region, hregion, -, hend⟩ := h.mapped
  have hroom := h.room
  have htop := hfit region hregion
  simp only [payload, liveSpan, Live.block, sizeofMallocHeader, hret, Nat.add_sub_cancel]
    at hroom hend
  omega

theorem HeapInv.served {free' : List Nat}
    (hinv : HeapInv mallocHead
      ⟨r.mem, r.mapped.toList ++ s.regions, ⟨r.ret, size⟩ :: s.live⟩ free') :
    Served s size r := by
  obtain ⟨-, hptr, hlen⟩ := hinv.live _ List.mem_cons_self
  have hblock : liveSpan r.mem ⟨r.ret, size⟩ ∈ spans r.mem free' (⟨r.ret, size⟩ :: s.live) :=
    List.mem_append_right _ (List.mem_map_of_mem List.mem_cons_self)
  refine ⟨Nat.le_sub_of_add_le hlen, ?_, hinv.tiling.inside _ hblock⟩
  simp only [payload, liveSpan, Span.Inside, Live.block] at hptr hlen ⊢
  omega

/-- What `mmap` promises of the one request that may be made of it. -/
def Granting (requestBlock : Nat → Nat) (mallocHead : Nat) (s : State) (size : Nat) : Prop :=
  requestBlock (requestPages size) ≠ 0 →
    requestBlock (requestPages size) < 2 ^ 64 ∧
      Fresh mallocHead s.regions ⟨requestBlock (requestPages size), requestPages size⟩

/-- A call that returns took a block that fits, or the pages that `mmap` granted. -/
theorem HeapInv.userMalloc_cases (hinv : HeapInv mallocHead s free)
    (hgrant : Granting requestBlock mallocHead s size) (hsize : size ≠ 0)
    (hret : userMalloc fuel requestBlock mallocHead s.mem size = some r) :
    (∃ c ∈ free, requestSize size ≤ blockSize s.mem c ∧ r.ret = c + 16 ∧ r.mapped = none) ∨
      ¬ Fits s.mem free size ∧ requestBlock (requestPages size) ≠ 0 ∧
        r.ret = requestBlock (requestPages size) + 16 ∧
        r.mapped = some ⟨requestBlock (requestPages size), requestPages size⟩ := by
  rw [userMalloc, if_neg hsize] at hret
  obtain ⟨pre, ys, xs, p, rfl, -, hcase⟩ :=
    mallocLoop_cases hinv.linked hinv.free_ne_zero hret
  rcases hcase with ⟨rfl, hnone, hmmap⟩ | ⟨c, zs, rfl, hfit, rfl⟩
  · obtain ⟨hne, hptr, hmapped⟩ := mallocFromMmap_ret hmmap
    obtain ⟨hlt, hfresh⟩ := hgrant hne
    have haligned := hfresh.aligned
    simp only [pageSizeBytes] at haligned
    have hnofit : ¬ Fits s.mem (pre ++ []) size := by
      rintro ⟨b, hb, hle⟩
      exact hnone b hb hle
    refine Or.inr ⟨hnofit, hne, hptr.trans ?_, hmapped⟩
    change add64 (requestBlock (requestPages size)) sizeofMallocHeader = _
    exact Nat.mod_eq_of_lt (by simp only [sizeofMallocHeader]; omega)
  · obtain ⟨hptr, hmapped⟩ := mallocFromBlock_ret s.mem p c (requestSize size)
    have hc : c ∈ pre ++ c :: zs := by simp
    obtain ⟨⟨-, -, hheader⟩, -, hend⟩ := hinv.span_bounds (b := freeSpan s.mem c)
      (List.mem_append_left _ (List.mem_map_of_mem hc))
    refine Or.inl ⟨c, hc, hfit, hptr.trans ?_, hmapped⟩
    simp only [freeSpan, sizeofMallocHeader] at hheader hend
    exact Nat.mod_eq_of_lt (by simp only [sizeofMallocHeader]; omega)

theorem HeapInv.fresh_of_granting (hinv : HeapInv mallocHead s free)
    (hgrant : Granting requestBlock mallocHead s size) (hsize : size ≠ 0)
    (hret : userMalloc fuel requestBlock mallocHead s.mem size = some r) :
    ∀ region ∈ r.mapped, Fresh mallocHead s.regions region := by
  intro region hregion
  rcases hinv.userMalloc_cases hgrant hsize hret with
    ⟨c, -, -, -, hmapped⟩ | ⟨-, hne, -, hmapped⟩
  · rw [hmapped] at hregion
    cases hregion
  · rw [hmapped] at hregion
    exact Option.some.inj hregion ▸ (hgrant hne).2

/-- A request that is not too large for a header, and for the rounding to pages unless a free
block takes it, and for which there is memory. -/
def Answerable (requestBlock : Nat → Nat) (s : State) (free : List Nat) (size : Nat) : Prop :=
  size + 24 ≤ 2 ^ 64 ∧
    (Fits s.mem free size ∨ size + 4112 ≤ 2 ^ 64 ∧ requestBlock (requestPages size) ≠ 0)

theorem HeapInv.answerable_of_contract (hinv : HeapInv mallocHead s free)
    (hgrant : Granting requestBlock mallocHead s size) (hsize : size ≠ 0)
    (hcontract : MallocContract requestBlock mallocHead s free size) :
    Answerable requestBlock s free size := by
  obtain ⟨fuel, r, hret, howed⟩ := hcontract
  rcases hinv.userMalloc_cases hgrant hsize hret with
    ⟨c, hc, hfit, hptr, hmapped⟩ | ⟨-, hne, hptr, hmapped⟩
  · have hserved : Served s size r := howed.served.resolve_left (by omega)
    obtain ⟨⟨hc8, -, -⟩, hc0, -⟩ := hinv.span_bounds (b := freeSpan s.mem c)
      (List.mem_append_left _ (List.mem_map_of_mem hc))
    have hbelow : c + 16 + size ≤ 2 ^ 64 := by
      apply hserved.below hsize hptr
      rw [hmapped]
      exact hinv.regions.fit
    simp only [freeSpan] at hc8 hc0
    exact ⟨by omega, Or.inl ⟨c, hc, hfit⟩⟩
  · have hserved : Served s size r := howed.served.resolve_left (by omega)
    obtain ⟨-, hfresh⟩ := hgrant hne
    have hbelow : requestBlock (requestPages size) + 16 + size ≤ 2 ^ 64 := by
      apply hserved.below hsize hptr
      rw [hmapped]
      exact (hinv.regions.cons hfresh).fit
    have haligned := hfresh.aligned
    simp only [pageSizeBytes] at haligned
    exact ⟨by omega, Or.inr ⟨by omega, hne⟩⟩

theorem HeapInv.contract_of_answerable (hinv : HeapInv mallocHead s free)
    (hgrant : Granting requestBlock mallocHead s size) (hsize : size ≠ 0)
    (hcan : Answerable requestBlock s free size) :
    MallocContract requestBlock mallocHead s free size := by
  obtain ⟨hmax, hmemory⟩ := hcan
  obtain ⟨hdvd, hroom, hbound⟩ := request_size hmax
  have hreturns : (∃ a ∈ free, requestSize size ≤ blockSize s.mem a) ∨
      requestBlock (requestPages size) ≠ 0 := hmemory.imp_right And.right
  obtain ⟨r, hloop⟩ := mallocLoop_returns hinv.linked hinv.free_ne_zero hreturns
  have hret : userMalloc (free.length + 1) requestBlock mallocHead s.mem size = some r := by
    rw [userMalloc, if_neg hsize]
    exact hloop
  refine ⟨_, r, hret, Or.inr ?_, fun hnone hnull => ?_⟩
  · have hfresh := hinv.fresh_of_granting hgrant hsize hret
    have hpages : (∀ a ∈ free, ¬ requestSize size ≤ blockSize s.mem a) →
        requestSize size + 4096 ≤ 2 ^ 64 := by
      intro hnone
      have hnofit : ¬ Fits s.mem free size := by
        rintro ⟨b, hb, hle⟩
        exact hnone b hb hle
      obtain ⟨hsmall, -⟩ := hmemory.resolve_left hnofit
      simp only [requestSize] at *
      omega
    obtain ⟨⟨free', hnew⟩, -⟩ :=
      hinv.mallocLoop_inv hdvd hroom (by omega) hpages hloop hfresh
    exact hnew.served
  · exact absurd hnull (hmemory.resolve_left hnone).2

/-- From any heap and for any `size_t`, `user_malloc` returns null or a block that holds the
request, and null from an unchanged heap when `mmap` fails, exactly if nothing was asked for,
or the request leaves room for its header and is met from the free list, or it leaves room for
the rounding to pages and `mmap` grants them. -/
theorem malloc_contract_iff (hinv : HeapInv mallocHead s free)
    (hgrant : Granting requestBlock mallocHead s size) :
    MallocContract requestBlock mallocHead s free size ↔
      size = 0 ∨ Answerable requestBlock s free size := by
  by_cases hsize : size = 0
  · subst hsize
    refine iff_of_true ⟨0, ⟨0, s.mem, none⟩, rfl, Or.inl rfl, fun _ _ => ⟨rfl, rfl⟩⟩ (Or.inl rfl)
  · rw [or_iff_right hsize]
    exact ⟨hinv.answerable_of_contract hgrant hsize, hinv.contract_of_answerable hgrant hsize⟩

end Malloc

/-- A process that has not allocated yet, with its sentinel at 64. -/
def emptyHeap : State := ⟨fun _ => 0, [], []⟩

theorem emptyHeap_inv : HeapInv 64 emptyHeap [] := heapInv_of_initial ⟨rfl, rfl, rfl⟩

/-- A page at 4096, for requests of one page. -/
def onePage (bytes : Nat) : Nat := if bytes = 4096 then 4096 else 0

theorem onePage_granting {size : Nat} (hpages : requestPages size = 4096) :
    Granting onePage 64 emptyHeap size := by
  intro _
  rw [hpages]
  exact ⟨by decide, by decide, by decide, by decide, by simp [emptyHeap], by decide⟩

/-- The heap after a first request of eight bytes. -/
def firstHeap : State :=
  match userMalloc 1 onePage 64 emptyHeap.mem 8 with
  | some r => ⟨r.mem, r.mapped.toList, [⟨r.ret, 8⟩]⟩
  | none => emptyHeap

/-- The rest of its page is free. -/
theorem firstHeap_inv :
    ∃ m, firstHeap = ⟨m, [⟨4096, 4096⟩], [⟨4112, 8⟩]⟩ ∧ HeapInv 64 firstHeap [4120] ∧
      len m 4096 = 24 ∧ blockSize m 4120 = 4072 := by
  have haddr : onePage 4096 = 4096 := rfl
  have htotal : alignUp 24 pageSizeBytes = 4096 := by decide
  obtain ⟨m, hm, -, hfirst, hlast, hrest, -, hlen⟩ := mallocFromMmap_split (m := emptyHeap.mem)
    (p := 64) haddr htotal (by decide) (by decide) (by decide) (by decide) (by decide) (by decide)
  have hret : userMalloc 1 onePage 64 emptyHeap.mem 8 = some ⟨4112, m, some ⟨4096, 4096⟩⟩ := hm
  have hheap : firstHeap = ⟨m, [⟨4096, 4096⟩], [⟨4112, 8⟩]⟩ := by
    rw [firstHeap, hret]
    rfl
  have hgrant : Granting onePage 64 emptyHeap 8 := onePage_granting (by decide)
  have hfresh := emptyHeap_inv.fresh_of_granting hgrant (by decide) hret
  obtain ⟨⟨free, hinv⟩, -⟩ := emptyHeap_inv.userMalloc_inv (by decide) (by decide) hret hfresh
  have hlinked : Linked (next m) (64 :: ([4120] ++ [0])) :=
    linked_cons_cons.mpr ⟨hfirst, linked_cons_cons.mpr ⟨hlast, List.isChain_singleton 0⟩⟩
  obtain rfl : free = [4120] := Linked.unique hinv.linked hlinked
    (fun hmem => hinv.free_ne_zero 0 hmem rfl) (by decide)
  exact ⟨m, hheap, hheap ▸ hinv, hlen, hrest⟩

/-- A hundred bytes are cut from the free block while `mmap` fails. -/
theorem malloc_contract_free_block :
    HeapInv 64 firstHeap [4120] ∧ Granting (fun _ => 0) 64 firstHeap 100 ∧
      MallocContract (fun _ => 0) 64 firstHeap [4120] 100 := by
  obtain ⟨m, hheap, hinv, -, hrest⟩ := firstHeap_inv
  have hgrant : Granting (fun _ => 0) 64 firstHeap 100 := fun hne => absurd rfl hne
  have hfits : Fits firstHeap.mem [4120] 100 := by
    rw [hheap]
    exact ⟨4120, List.mem_cons_self, by rw [hrest]; decide⟩
  exact ⟨hinv, hgrant, (malloc_contract_iff hinv hgrant).mpr
    (Or.inr ⟨by decide, Or.inl hfits⟩)⟩

/-- One byte while `mmap` fails: the header is stored through null. -/
theorem malloc_stores_through_null :
    HeapInv 64 emptyHeap [] ∧ Granting (fun _ => 0) 64 emptyHeap 1 ∧
      ¬ MallocContract (fun _ => 0) 64 emptyHeap [] 1 := by
  have hgrant : Granting (fun _ => 0) 64 emptyHeap 1 := fun hne => absurd rfl hne
  refine ⟨emptyHeap_inv, hgrant, fun hcontract => ?_⟩
  obtain ⟨-, hmemory⟩ := emptyHeap_inv.answerable_of_contract hgrant (by decide) hcontract
  rcases hmemory with ⟨b, hb, -⟩ | ⟨-, hne⟩
  · cases hb
  · exact hne rfl

/-- What `user_realloc` of the live block `b` owes: the result takes `b`'s place among the
live blocks of a heap without gaps, it begins with `b`'s contents, the other live blocks are
as they were, and `b` is free if the result is elsewhere. -/
structure ReallocOwed (mallocHead : Nat) (s : State) (b : Live) (size : Nat) (r : Result)
    (free' : List Nat) : Prop where
  heap : HeapInv mallocHead
    ⟨r.mem, r.mapped.toList ++ s.regions, ⟨r.ret, size⟩ :: s.live.erase b⟩ free'
  bytes : ∀ k < min (payload s.mem b).len size, r.mem (r.ret + k) = s.mem (b.ptr + k)
  others : ∀ b' ∈ s.live.erase b, ∀ k, (liveSpan s.mem b').Has k → r.mem k = s.mem k
  freed : r.ret ≠ b.ptr → b.block ∈ free'

/-- The call returns, and with it what it owes. -/
def ReallocContract (requestBlock : Nat → Nat) (mallocHead : Nat) (s : State) (b : Live)
    (size : Nat) : Prop :=
  ∃ fuel r free', userRealloc fuel requestBlock mallocHead s.mem b.ptr size = some r ∧
    ReallocOwed mallocHead s b size r free'

section Realloc

variable {requestBlock : Nat → Nat} {mallocHead size fuel : Nat} {s s' : State}
  {free free' : List Nat} {b : Live} {r : Result}

/-- The memory determines the free list. -/
theorem HeapInv.free_unique (hinv : HeapInv mallocHead s free)
    (hinv' : HeapInv mallocHead s' free') (hmem : s'.mem = s.mem) : free = free' := by
  have hlinked := hinv'.linked
  rw [hmem] at hlinked
  exact Linked.unique hinv.linked hlinked (fun h => hinv.free_ne_zero 0 h rfl)
    (fun h => hinv'.free_ne_zero 0 h rfl)

theorem HeapInv.block_not_free (hinv : HeapInv mallocHead s free) (hb : b ∈ s.live) :
    b.block ∉ free := by
  intro hfree
  have hdisj := (List.pairwise_append.mp hinv.tiling.disjoint).2.2
    (freeSpan s.mem b.block) (List.mem_map_of_mem hfree) (liveSpan s.mem b) (List.mem_map_of_mem hb)
  have hnode := hinv.tiling.pos _ (List.mem_append_left _ (List.mem_map_of_mem hfree))
  have hlive := hinv.tiling.pos _ (List.mem_append_right _ (List.mem_map_of_mem hb))
  simp only [freeSpan, liveSpan, Span.Disjoint] at hdisj hnode hlive
  omega

/-- The call on a live block: it stays if it is large enough. -/
theorem HeapInv.userRealloc_eq (hinv : HeapInv mallocHead s free) (hb : b ∈ s.live) :
    userRealloc fuel requestBlock mallocHead s.mem b.ptr size =
      if size ≤ (payload s.mem b).len then some ⟨b.ptr, s.mem, none⟩
      else do
        let r ← userMalloc fuel requestBlock mallocHead s.mem size
        if r.ret = 0 then return r
        return {r with mem := r.mem.memcpy r.ret b.ptr (payload s.mem b).len} := by
  obtain ⟨hptr, hblock, hmagic⟩ := hinv.header_of_live hb
  obtain ⟨-, -, hlen⟩ := hinv.live b hb
  have hold : sub64 (len s.mem b.block) sizeofMallocHeader = (payload s.mem b).len :=
    sub64_eq (by omega) (Nat.lt_add_right _ (Mem.read64_lt _ _))
  simp only [userRealloc, hptr, hblock, hmagic, hold, ne_eq, not_true, or_self, if_false,
    ge_iff_le]

/-- Asking for less than the block holds only changes what is on record for it. -/
theorem HeapInv.resized (hinv : HeapInv mallocHead s free) (hb : b ∈ s.live)
    (hfits : size ≤ (payload s.mem b).len) :
    HeapInv mallocHead ⟨s.mem, s.regions, ⟨b.ptr, size⟩ :: s.live.erase b⟩ free := by
  have hperm : (spans s.mem free s.live).Perm
      (spans s.mem free (⟨b.ptr, size⟩ :: s.live.erase b)) :=
    ((List.perm_cons_erase hb).map (liveSpan s.mem)).append_left (free.map (freeSpan s.mem))
  refine ⟨hinv.regions, hinv.linked, hinv.tiling.perm hperm,
    fun x hx => hinv.blocks x (hperm.mem_iff.mpr hx), ?_⟩
  refine List.forall_mem_cons.mpr ⟨?_, fun x hx => hinv.live x (List.mem_of_mem_erase hx)⟩
  obtain ⟨hmagic, hptr, hlen⟩ := hinv.live b hb
  simp only [payload] at hfits
  exact ⟨hmagic, hptr, by simp only [Live.block] at hlen hfits ⊢; omega⟩

theorem HeapInv.head_disjoint {m : Mem} {regions : List Span} {a : Live} {live : List Live}
    (hinv : HeapInv mallocHead ⟨m, regions, a :: live⟩ free) (hb : b ∈ live) :
    (liveSpan m a).Disjoint (liveSpan m b) :=
  (List.pairwise_cons.mp (List.pairwise_append.mp hinv.tiling.disjoint).2.1).1 _
    (List.mem_map_of_mem hb)

/-- A new live block does not overlap the ones there were. -/
theorem HeapInv.new_disjoint {m : Mem} {regions : List Span} {a : Live}
    (hinv : HeapInv mallocHead s free)
    (hnew : HeapInv mallocHead ⟨m, regions, a :: s.live⟩ free') (hb : b ∈ s.live)
    (hkeep : ∀ k, (liveSpan s.mem b).Has k → m k = s.mem k) :
    (liveSpan m a).Disjoint (liveSpan s.mem b) := by
  have hdisj : (liveSpan m a).Disjoint (liveSpan m b) := hnew.head_disjoint hb
  obtain ⟨⟨-, -, hheader⟩, -⟩ := hinv.span_bounds (b := liveSpan s.mem b)
    (List.mem_append_right _ (List.mem_map_of_mem hb))
  rwa [liveSpan, liveSpan, (header_eq_of_bytes hheader hkeep).2] at hdisj

/-- A block that is too small is copied into a new one and stays live. -/
theorem HeapInv.userRealloc_moved (hinv : HeapInv mallocHead s free) (hb : b ∈ s.live)
    (hgrant : Granting requestBlock mallocHead s size) (hmax : size ≤ 2 ^ 63)
    (hgrow : (payload s.mem b).len < size)
    (hret : userRealloc fuel requestBlock mallocHead s.mem b.ptr size = some r) :
    (∃ free', HeapInv mallocHead
      ⟨r.mem, r.mapped.toList ++ s.regions, ⟨r.ret, size⟩ :: s.live⟩ free') ∧
      (∀ k < (payload s.mem b).len, r.mem (r.ret + k) = s.mem (b.ptr + k)) ∧
      ∀ b' ∈ s.live, ∀ k, (liveSpan s.mem b').Has k → r.mem k = s.mem k := by
  rw [hinv.userRealloc_eq hb, if_neg (by omega)] at hret
  obtain ⟨r₀, hmalloc, hcopy⟩ := Option.bind_eq_some_iff.mp hret
  have hfresh := hinv.fresh_of_granting hgrant (by omega) hmalloc
  obtain ⟨⟨free', hnew⟩, hkeep⟩ := hinv.userMalloc_inv (by omega) hmax hmalloc hfresh
  obtain ⟨hptr, -, -⟩ := hnew.header_of_live List.mem_cons_self
  obtain ⟨m', hm'⟩ : ∃ m', r₀.mem.memcpy r₀.ret b.ptr (payload s.mem b).len = m' := ⟨_, rfl⟩
  rw [if_neg hptr, hm'] at hcopy
  obtain rfl := Option.some.inj hcopy
  have hroom : size ≤ (payload r₀.mem ⟨r₀.ret, size⟩).len := hnew.served.room
  have hwrite : ∀ x, ¬ (payload r₀.mem ⟨r₀.ret, size⟩).Has x → m' x = r₀.mem x := by
    intro x hx
    rw [← hm']
    apply Mem.memcpy_out
    simp only [Span.Has, payload] at hx hroom hgrow ⊢
    omega
  have hapart : ∀ b' ∈ s.live, ∀ k, (liveSpan s.mem b').Has k →
      ¬ (payload r₀.mem ⟨r₀.ret, size⟩).Has k := by
    intro b' hb' k hk hin
    have hdisj := hinv.new_disjoint hnew hb' (hkeep b' hb')
    apply Span.not_has_of_disjoint hdisj.symm hk
    obtain ⟨hlo, hhi⟩ := hnew.served.inside
    exact ⟨hlo.trans hin.1, hin.2.trans_le hhi⟩
  refine ⟨⟨free', hnew.client_inv List.mem_cons_self hwrite⟩, fun k hk => ?_, ?_⟩
  · have hdisj := hinv.new_disjoint hnew hb (hkeep b hb)
    obtain ⟨-, hlow, hlen⟩ := hinv.live b hb
    obtain ⟨-, hlow', -⟩ := hnew.live _ List.mem_cons_self
    have hbyte : (liveSpan s.mem b).Has (b.ptr + k) := by
      simp only [liveSpan, payload, Span.Has, Live.block] at hk hlen ⊢
      omega
    have hcopied : m' (r₀.ret + k) = r₀.mem (b.ptr + k) := by
      rw [← hm']
      apply Mem.memcpy_in _ ?_ hk
      simp only [liveSpan, payload, Span.Disjoint, Live.block] at hdisj hk hroom hgrow hlow hlow' ⊢
      omega
    exact hcopied.trans (hkeep b hb _ hbyte)
  · intro b' hb' k hk
    exact (hwrite k (hapart b' hb' k hk)).trans (hkeep b' hb' k hk)

/-- A call that meets its contract did not have to move the block: moving leaves the old
block live, so it is not on the free list. -/
theorem HeapInv.fits_of_reallocContract (hinv : HeapInv mallocHead s free) (hb : b ∈ s.live)
    (hgrant : Granting requestBlock mallocHead s size) (hmax : size ≤ 2 ^ 63)
    (hcontract : ReallocContract requestBlock mallocHead s b size) :
    size ≤ (payload s.mem b).len := by
  obtain ⟨fuel, r, free', hret, howed⟩ := hcontract
  by_contra hgrow
  obtain ⟨⟨free'', hnew⟩, -, -⟩ := hinv.userRealloc_moved hb hgrant hmax (by omega) hret
  have hlive : b ∈ (⟨r.ret, size⟩ : Live) :: s.live := List.mem_cons_of_mem _ hb
  have hmoved : r.ret ≠ b.ptr := by
    intro hsame
    have hdisj := hnew.head_disjoint hb
    have hpos := hnew.tiling.pos (liveSpan r.mem b)
      (List.mem_append_right _ (List.mem_map_of_mem hlive))
    simp only [liveSpan, Live.block, hsame, Span.Disjoint] at hdisj hpos
    omega
  have hfreed := howed.freed hmoved
  rw [howed.heap.free_unique hnew rfl] at hfreed
  exact hnew.block_not_free hlive hfreed

/-- From any heap, for any live block and any size up to `2 ^ 63`, `user_realloc` meets its
contract exactly if the block already holds the size asked for: a block that has to move is
never given back. -/
theorem realloc_contract_iff (hinv : HeapInv mallocHead s free) (hb : b ∈ s.live)
    (hmax : size ≤ 2 ^ 63) (hgrant : Granting requestBlock mallocHead s size) :
    ReallocContract requestBlock mallocHead s b size ↔ size ≤ (payload s.mem b).len := by
  refine ⟨hinv.fits_of_reallocContract hb hgrant hmax, fun hfits => ?_⟩
  refine ⟨0, ⟨b.ptr, s.mem, none⟩, free, ?_, hinv.resized hb hfits, fun _ _ => rfl,
    fun _ _ _ _ => rfl, fun hne => absurd rfl hne⟩
  rw [hinv.userRealloc_eq hb, if_pos hfits]

end Realloc

/-- A second page, for the next request of one page. -/
def nextPage (bytes : Nat) : Nat := if bytes = 4096 then 8192 else 0

theorem nextPage_granting {size : Nat} (hpages : requestPages size = 4096) :
    Granting nextPage 64 firstHeap size := by
  obtain ⟨m, hheap, -⟩ := firstHeap_inv
  intro _
  rw [hpages, hheap]
  have hdisj : ∀ r ∈ [Span.mk 4096 4096], Span.Disjoint ⟨nextPage 4096, 4096⟩ r :=
    List.forall_mem_singleton.mpr (by decide)
  exact ⟨by decide, by decide, by decide, by decide, hdisj, by decide⟩

/-- The client holds eight bytes at 4112. -/
theorem firstHeap_block :
    (∃ free, HeapInv 64 firstHeap free) ∧ ⟨4112, 8⟩ ∈ firstHeap.live ∧
      (payload firstHeap.mem ⟨4112, 8⟩).len = 8 := by
  obtain ⟨m, hheap, hinv, hlen, -⟩ := firstHeap_inv
  refine ⟨⟨[4120], hinv⟩, ?_, ?_⟩
  · rw [hheap]
    exact List.mem_singleton.mpr rfl
  · rw [hheap]
    simp only [payload, Live.block, sizeofMallocHeader, hlen]

/-- Shrinking the block to four bytes meets the contract. -/
theorem realloc_contract_shrink :
    ⟨4112, 8⟩ ∈ firstHeap.live ∧ Granting nextPage 64 firstHeap 4 ∧
      ReallocContract nextPage 64 firstHeap ⟨4112, 8⟩ 4 := by
  obtain ⟨⟨free, hinv⟩, hlive, hlen⟩ := firstHeap_block
  have hgrant : Granting nextPage 64 firstHeap 4 := nextPage_granting (by decide)
  refine ⟨hlive, hgrant, (realloc_contract_iff hinv hlive (by decide) hgrant).mpr ?_⟩
  rw [hlen]
  decide

/-- Nine bytes instead of eight: the old block is lost, also while `mmap` succeeds. -/
theorem realloc_grow_loses_block :
    (∃ free, HeapInv 64 firstHeap free) ∧ ⟨4112, 8⟩ ∈ firstHeap.live ∧
      nextPage (requestPages 9) ≠ 0 ∧ Granting nextPage 64 firstHeap 9 ∧
      ¬ ReallocContract nextPage 64 firstHeap ⟨4112, 8⟩ 9 := by
  obtain ⟨⟨free, hinv⟩, hlive, hlen⟩ := firstHeap_block
  have hgrant : Granting nextPage 64 firstHeap 9 := nextPage_granting (by decide)
  refine ⟨⟨free, hinv⟩, hlive, by decide, hgrant, fun hcontract => ?_⟩
  have hfits := hinv.fits_of_reallocContract hlive hgrant (by decide) hcontract
  rw [hlen] at hfits
  omega

end Tellurium.UserHeap
