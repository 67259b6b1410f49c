import Tellurium.Lib.Memory

/-!
The kernel heap (`kernel/memory/slab.c`). Slab headers, size metadata, free lists and user
data share the frames of byte-addressed memory. A call may ask `palloc` once; the answer
is an input and null is 0. A failed kernel assertion halts and a list walk over a cyclic
list does not return: both have no result, the walk being cut off by `fuel`. Locks are
free again when a call returns and are left out.
-/

namespace Tellurium.Slab

open Tellurium.Lib

def pageSizeBytes : Nat := 4096
def slabMaxChunkSize : Nat := 1024

def knownChunks : List Nat := [8, 16, 32, 64, 128, 256, 512, 1024]

/-- `sizeof(struct slab)`, a packed structure. -/
def headerSize : Nat := 36

def slabCache (m : Mem) (slab : Nat) : Nat := m.read64 slab
def slabPrev (m : Mem) (slab : Nat) : Nat := m.read64 (slab + 8)
def slabNext (m : Mem) (slab : Nat) : Nat := m.read64 (slab + 16)
def usedChunks (m : Mem) (slab : Nat) : Nat := m.read16 (slab + 24)
def totalChunks (m : Mem) (slab : Nat) : Nat := m.read16 (slab + 26)
def freeChunk (m : Mem) (slab : Nat) : Nat := m.read64 (slab + 28)

def setCache (m : Mem) (slab v : Nat) : Mem := m.write64 slab v
def setPrev (m : Mem) (slab v : Nat) : Mem := m.write64 (slab + 8) v
def setNext (m : Mem) (slab v : Nat) : Mem := m.write64 (slab + 16) v
def setUsedChunks (m : Mem) (slab v : Nat) : Mem := m.write16 (slab + 24) v
def setTotalChunks (m : Mem) (slab v : Nat) : Mem := m.write16 (slab + 26) v
def setFreeChunk (m : Mem) (slab v : Nat) : Mem := m.write64 (slab + 28) v

/-- The addresses of the list heads in a `struct cache`. -/
def slabsEmpty (cache : Nat) : Nat := cache
def slabsPartial (cache : Nat) : Nat := cache + 8
def slabsFull (cache : Nat) : Nat := cache + 16

def chunkSize (m : Mem) (cache : Nat) : Nat := m.read64 (cache + 32)

/-- `cache_insert` with the answer of `palloc`. -/
def cacheInsert (m : Mem) (caches : List Nat) (chunkSize cache : Nat) : Option (Mem × List Nat) :=
  if cache = 0 ∨ ¬ chunkSize ≤ slabMaxChunkSize then none
  else
    let m := m.write64 (slabsFull cache) 0
    let m := m.write64 (slabsPartial cache) 0
    let m := m.write64 (slabsEmpty cache) 0
    let m := m.write64 (cache + 32) chunkSize
    let m := m.write64 (cache + 24) 0
    some (m, caches ++ [cache])

/-- `init_slab`, with one answer of `palloc` for each known chunk size. -/
def initSlab (m : Mem) (answers : List Nat) : Option (Mem × List Nat) :=
  (knownChunks.zip answers).foldlM (fun (m, caches) (chunkSize, cache) =>
    cacheInsert m caches chunkSize cache) (m, [])

def getCacheIndex (m : Mem) (caches : List Nat) (size : Nat) : Option Nat :=
  caches.findIdx? fun cache => size ≤ chunkSize m cache

def transferSlab (m : Mem) (slab oldList newList : Nat) : Mem :=
  let m :=
    if slabPrev m slab = 0 ∧ slabNext m slab = 0 then m.write64 oldList 0
    else if slabNext m slab = 0 then setNext m (slabPrev m slab) 0
    else if slabPrev m slab = 0 then
      let m := setPrev m (slabNext m slab) 0
      m.write64 oldList (slabNext m slab)
    else
      let m := setNext m (slabPrev m slab) (slabNext m slab)
      setPrev m (slabNext m slab) (slabPrev m slab)
  let m := setNext m slab (m.read64 newList)
  let m := m.write64 newList slab
  setPrev m slab 0

/-- The loop that threads the free list through the chunks from `curChunk` on, and the
store behind it. -/
def threadChunks (m : Mem) (curChunk offset total : Nat) : Mem :=
  let m := (List.range total).foldl
    (fun m i => m.write64 (curChunk + 8 * (i * offset)) (curChunk + 8 * ((i + 1) * offset))) m
  m.write64 (curChunk + 8 * (total * offset)) 0

/-- `slab_spawn` on the frame `slab` that `palloc(1)` answered. -/
def slabSpawn (m : Mem) (cache slab : Nat) : Option Mem :=
  if slab = 0 then none
  else
    let size := chunkSize m cache
    let headerSizeChunks := if headerSize % size ≠ 0 then headerSize / size + 1 else headerSize / size
    let m := m.memset slab 0 headerSize
    let m := setTotalChunks m slab (pageSizeBytes / size - headerSizeChunks)
    let m := setCache m slab cache
    let m :=
      if m.read64 (slabsEmpty cache) ≠ 0 then
        let m := setNext m slab (m.read64 (slabsEmpty cache))
        setPrev m (slabNext m slab) slab
      else m
    let m := m.write64 (slabsEmpty cache) slab
    let baseAddr := m.read64 (slabsEmpty cache) + size * headerSizeChunks
    let m := setFreeChunk m slab baseAddr
    some (threadChunks m (freeChunk m slab) (size / 8) (totalChunks m slab))

/-- Take the first chunk of a slab with room. -/
def takeChunk (m : Mem) (slab : Nat) : Nat × Mem :=
  let m := setUsedChunks m slab (usedChunks m slab + 1)
  let oldFreeChunk := freeChunk m slab
  let m := setFreeChunk m slab (m.read64 oldFreeChunk)
  let m := m.memset oldFreeChunk 0 (chunkSize m (slabCache m slab))
  let cache := slabCache m slab
  let m :=
    if usedChunks m slab = totalChunks m slab then
      transferSlab m slab (slabsPartial cache) (slabsFull cache)
    else if usedChunks m slab = 1 then
      transferSlab m slab (slabsEmpty cache) (slabsPartial cache)
    else m
  (oldFreeChunk, m)

def slabInnerAllocChunk (m : Mem) : Nat → Nat → Option (Nat × Mem)
  | 0, _ => none
  | fuel + 1, slab =>
      if slab = 0 then some (0, m)
      else if usedChunks m slab ≠ totalChunks m slab then some (takeChunk m slab)
      else slabInnerAllocChunk m fuel (slabNext m slab)

/-- What a call returns, the memory it leaves, and the pages it got from `palloc`. -/
structure Result where
  ret : Nat
  mem : Mem
  got : Option Span

def slabAllocChunk (fuel : Nat) (palloc : Nat → Nat) (m : Mem) (cache : Nat) : Option Result := do
  let (addr, m) ← slabInnerAllocChunk m fuel (m.read64 (slabsPartial cache))
  if addr ≠ 0 then return ⟨addr, m, none⟩
  let (addr, m) ← slabInnerAllocChunk m fuel (m.read64 (slabsEmpty cache))
  if addr ≠ 0 then return ⟨addr, m, none⟩
  let m ← slabSpawn m cache (palloc 1)
  let (addr, m) ← slabInnerAllocChunk m fuel (m.read64 (slabsEmpty cache))
  return ⟨addr, m, some ⟨palloc 1, pageSizeBytes⟩⟩

def numPages (size : Nat) : Nat :=
  if size % pageSizeBytes ≠ 0 then size / pageSizeBytes + 1 else size / pageSizeBytes

def slabAlloc (fuel : Nat) (palloc : Nat → Nat) (m : Mem) (caches : List Nat) (size : Nat) :
    Option Result :=
  match getCacheIndex m caches size with
  | some cacheIdx => slabAllocChunk fuel palloc m (caches.getD cacheIdx 0)
  | none =>
      let pages := palloc (numPages size + 1)
      if pages = 0 then some ⟨0, m, none⟩
      else
        let m := m.write64 pages (numPages size)
        some ⟨pages + pageSizeBytes, m, some ⟨pages, pageSizeBytes * (numPages size + 1)⟩⟩

def slabFreeChunk (m : Mem) (addr : Nat) : Mem :=
  let slab := addr - addr % pageSizeBytes
  let cache := slabCache m slab
  let m := m.write64 addr (freeChunk m slab)
  let m := setFreeChunk m slab addr
  if usedChunks m slab + 1 = totalChunks m slab then
    transferSlab m slab (slabsFull cache) (slabsPartial cache)
  else if usedChunks m slab = 0 then
    transferSlab m slab (slabsPartial cache) (slabsEmpty cache)
  else m

/-- The memory, and the pages given back to `pfree`. -/
def slabFree (m : Mem) (addr : Nat) : Mem × Option Span :=
  if addr = 0 then (m, none)
  else if addr % pageSizeBytes = 0 then
    let base := addr - pageSizeBytes
    (m, some ⟨base, pageSizeBytes * (m.read64 base + 1)⟩)
  else (slabFreeChunk m addr, none)

/-- The result and the pages given back. A chunk that is already large enough yields null. -/
def slabRealloc (fuel : Nat) (palloc : Nat → Nat) (m : Mem) (caches : List Nat) (addr size : Nat) :
    Option (Result × Option Span) :=
  if addr = 0 then some (⟨0, m, none⟩, none)
  else if addr % pageSizeBytes = 0 then
    if numPages size ≤ m.read64 (addr - pageSizeBytes) then some (⟨addr, m, none⟩, none)
    else do
      let r ← slabAlloc fuel palloc m caches size
      if r.ret = 0 then return (r, none)
      let m := r.mem.memcpy r.ret addr size
      let (m, put) := slabFree m addr
      return ({r with mem := m}, put)
  else
    let slab := addr - addr % pageSizeBytes
    if size > chunkSize m (slabCache m slab) then do
      let r ← slabAlloc fuel palloc m caches size
      if r.ret = 0 then return (r, none)
      let m := r.mem.memcpy r.ret addr (chunkSize r.mem (slabCache r.mem slab))
      return ({r with mem := slabFreeChunk m addr}, none)
    else some (⟨0, m, none⟩, none)

end Tellurium.Slab
