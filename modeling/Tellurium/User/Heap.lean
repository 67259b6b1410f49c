import Tellurium.Lib.Chain
import Tellurium.Lib.Memory
import Tellurium.Lib.Tiling
import Mathlib.Logic.Relation

/-!
The user-space heap (`libTellur/mem.cpp`). Free blocks hold a `FreeBlock` header in
place, live blocks a `MallocHeader` at the same address; `malloc_head` is the list's
sentinel and lives outside the mapped regions. `size_t` values are numbers below
`2 ^ 64` and wrap. `requestBlock` is the answer of `mmap` and stays a parameter.
-/

namespace Tellurium.UserHeap

open Tellurium.Lib

def pageSizeBytes : Nat := 4096
def magic : Nat := 0x77A5844C
def sizeofFreeBlock : Nat := 16
def sizeofMallocHeader : Nat := 16

/-- `FreeBlock` fields. -/
def blockSize (m : Mem) (b : Nat) : Nat := m.read64 b
def next (m : Mem) (b : Nat) : Nat := m.read64 (b + 8)
def setBlockSize (m : Mem) (b v : Nat) : Mem := m.write64 b v
def setNext (m : Mem) (b v : Nat) : Mem := m.write64 (b + 8) v

/-- `MallocHeader` fields, over the same sixteen bytes. -/
def magicOf (m : Mem) (b : Nat) : Nat := m.read64 b
def len (m : Mem) (b : Nat) : Nat := m.read64 (b + 8)
def setMagic (m : Mem) (b v : Nat) : Mem := m.write64 b v
def setLen (m : Mem) (b v : Nat) : Mem := m.write64 (b + 8) v

def alignUp (num bound : Nat) : Nat :=
  let ret := num / bound
  let ret := if num % bound ≠ 0 then ret + 1 else ret
  ret * bound % 2 ^ 64

/-- What a call returns, the memory it leaves, and the region it mapped. -/
structure Result where
  ret : Nat
  mem : Mem
  mapped : Option Span

/-- The end of the free list: map whole pages. The source stores through the answer of
`requestBlock` unchecked, so a failed request has no result. -/
def mallocFromMmap (requestBlock : Nat → Nat) (m : Mem) (prevBlock size : Nat) :
    Option Result :=
  let alignedSize := alignUp size pageSizeBytes
  let addr := requestBlock alignedSize
  if addr = 0 then none
  else
    let m := setLen (setMagic m addr magic) addr size
    let remSize := sub64 alignedSize size
    let m :=
      if remSize > sizeofFreeBlock then
        let freeBlk := add64 addr size
        let m := setNext (setBlockSize m freeBlk remSize) freeBlk 0
        setNext m prevBlock freeBlk
      else setLen m addr (add64 (len m addr) remSize)
    some ⟨add64 addr sizeofMallocHeader, m, some ⟨addr, alignedSize⟩⟩

/-- A free block that fits: keep the remainder as a free block if it can hold a header,
else hand it out with the block. -/
def mallocFromBlock (m : Mem) (prevBlock curBlock size : Nat) : Result :=
  let remSize := blockSize m curBlock - size
  if remSize > sizeofFreeBlock then
    let freeBlk := add64 curBlock size
    let m := setBlockSize m freeBlk remSize
    let m := setNext m freeBlk (next m curBlock)
    let m := setNext m prevBlock freeBlk
    ⟨add64 curBlock sizeofMallocHeader, setLen (setMagic m curBlock magic) curBlock size, none⟩
  else
    let size := add64 size remSize
    let m := setNext m prevBlock (next m curBlock)
    ⟨add64 curBlock sizeofMallocHeader, setLen (setMagic m curBlock magic) curBlock size, none⟩

/-- The `for (;;)` of `user_malloc`; `fuel` bounds the rounds. -/
def mallocLoop (requestBlock : Nat → Nat) (m : Mem) (size : Nat) : Nat → Nat → Nat → Option Result
  | 0, _, _ => none
  | fuel + 1, prevBlock, curBlock =>
      if curBlock = 0 then mallocFromMmap requestBlock m prevBlock size
      else if size ≤ blockSize m curBlock then some (mallocFromBlock m prevBlock curBlock size)
      else mallocLoop requestBlock m size fuel curBlock (next m curBlock)

def userMalloc (fuel : Nat) (requestBlock : Nat → Nat) (mallocHead : Nat) (m : Mem) (size : Nat) :
    Option Result :=
  if size = 0 then some ⟨0, m, none⟩
  else
    let size := alignUp (add64 size (max sizeofMallocHeader sizeofFreeBlock)) 8
    mallocLoop requestBlock m size fuel mallocHead (next m mallocHead)

/-- The `for (;;)` of `user_free`: append the block at the end of the list. -/
def freeLoop (m : Mem) (header : Nat) : Nat → Nat → Nat → Option Mem
  | 0, _, _ => none
  | fuel + 1, prevBlock, curBlock =>
      if curBlock = 0 then
        let size := len m header
        some (setNext (setNext (setBlockSize m header size) header 0) prevBlock header)
      else freeLoop m header fuel curBlock (next m curBlock)

def userFree (fuel : Nat) (mallocHead : Nat) (m : Mem) (addr : Nat) : Option Mem :=
  let header := sub64 addr sizeofMallocHeader
  if addr = 0 ∨ magicOf m header ≠ magic then some m
  else freeLoop m header fuel mallocHead (next m mallocHead)

/-- A block that is large enough stays where it is; otherwise its payload is copied into a
new one. The source does not give the old block back. -/
def userRealloc (fuel : Nat) (requestBlock : Nat → Nat) (mallocHead : Nat) (m : Mem)
    (addr size : Nat) : Option Result :=
  let header := sub64 addr sizeofMallocHeader
  if addr = 0 ∨ magicOf m header ≠ magic then some ⟨0, m, none⟩
  else
    let oldSize := sub64 (len m header) sizeofMallocHeader
    if oldSize ≥ size then some ⟨addr, m, none⟩
    else do
      let r ← userMalloc fuel requestBlock mallocHead m size
      if r.ret = 0 then return r
      return {r with mem := r.mem.memcpy r.ret addr oldSize}

/-- A block handed out: the pointer the client holds and the bytes it asked for. -/
structure Live where
  ptr : Nat
  requested : Nat
  deriving Repr, DecidableEq

/-- The memory, with the mapped regions and the live blocks on record. -/
structure State where
  mem : Mem
  regions : List Span
  live : List Live

def Live.block (b : Live) : Nat := b.ptr - sizeofMallocHeader

def freeSpan (m : Mem) (b : Nat) : Span := ⟨b, blockSize m b⟩

def liveSpan (m : Mem) (b : Live) : Span := ⟨b.block, len m b.block⟩

/-- The part of a live block after its header. -/
def payload (m : Mem) (b : Live) : Span := ⟨b.ptr, len m b.block - sizeofMallocHeader⟩

/-- What `mmap` promises of a new region. -/
structure Fresh (mallocHead : Nat) (regions : List Span) (r : Span) : Prop where
  aligned : pageSizeBytes ∣ r.base
  nonzero : r.base ≠ 0
  fits : r.base + r.len ≤ 2 ^ 64
  disjoint : ∀ r' ∈ regions, r.Disjoint r'
  apart : r.Disjoint ⟨mallocHead, sizeofFreeBlock⟩

/-- A call of `user_malloc` or of `user_free` on a live block that returns. -/
inductive HeapStep (mallocHead : Nat) : State → State → Prop
  | malloc {s : State} {n fuel : Nat} {requestBlock : Nat → Nat} {r : Result}
      (hn : 1 ≤ n) (hmax : n ≤ 2 ^ 63)
      (hret : userMalloc fuel requestBlock mallocHead s.mem n = some r)
      (hfresh : ∀ region ∈ r.mapped, Fresh mallocHead s.regions region) :
      HeapStep mallocHead s
        {mem := r.mem, regions := r.mapped.toList ++ s.regions, live := ⟨r.ret, n⟩ :: s.live}
  | free {s : State} {b : Live} {fuel : Nat} {m : Mem} (hlive : b ∈ s.live)
      (hret : userFree fuel mallocHead s.mem b.ptr = some m) :
      HeapStep mallocHead s {s with mem := m, live := s.live.erase b}

/-- Calls of the allocator, and clients writing inside the payloads of live blocks. -/
inductive Step (mallocHead : Nat) : State → State → Prop
  | heap {s s' : State} (h : HeapStep mallocHead s s') : Step mallocHead s s'
  | client {s : State} {b : Live} {m : Mem} (hlive : b ∈ s.live)
      (hwrite : ∀ x, ¬ (payload s.mem b).Has x → m x = s.mem x) :
      Step mallocHead s {s with mem := m}

/-- Before the first call: an empty free list and nothing mapped. -/
structure Initial (mallocHead : Nat) (s : State) : Prop where
  next_null : next s.mem mallocHead = 0
  no_regions : s.regions = []
  no_live : s.live = []

/-- All blocks of the heap, free and live. -/
def spans (m : Mem) (free : List Nat) (live : List Live) : List Span :=
  free.map (freeSpan m) ++ live.map (liveSpan m)

structure RegionsOk (mallocHead : Nat) (regions : List Span) : Prop where
  disjoint : regions.Pairwise Span.Disjoint
  nonzero : ∀ r ∈ regions, r.base ≠ 0
  fit : ∀ r ∈ regions, r.base + r.len ≤ 2 ^ 64
  apart : ∀ r ∈ regions, r.Disjoint ⟨mallocHead, sizeofFreeBlock⟩

/-- A block is aligned and longer than its header. -/
def BlockOk (b : Span) : Prop := 8 ∣ b.base ∧ 8 ∣ b.len ∧ sizeofMallocHeader < b.len

/-- A live block carries the magic word and holds what was asked for. -/
def LiveOk (m : Mem) (b : Live) : Prop :=
  magicOf m b.block = magic ∧ sizeofMallocHeader ≤ b.ptr ∧
    b.requested + sizeofMallocHeader ≤ len m b.block

/-- The heap with free list `free`: the list is linked from `malloc_head` to null, and the
free and live blocks tile the mapped regions. -/
structure HeapInv (mallocHead : Nat) (s : State) (free : List Nat) : Prop where
  regions : RegionsOk mallocHead s.regions
  linked : Linked (next s.mem) (mallocHead :: free ++ [0])
  tiling : Tiling s.regions (spans s.mem free s.live)
  blocks : ∀ b ∈ spans s.mem free s.live, BlockOk b
  live : ∀ b ∈ s.live, LiveOk s.mem b

section Loops

variable {requestBlock : Nat → Nat} {m m' : Mem} {size fuel prev header : Nat}
  {free : List Nat} {r : Result}

/-- The search stops behind a prefix of the list: at its end, or at a block that fits. -/
theorem mallocLoop_cases (hlinked : Linked (next m) (prev :: free ++ [0]))
    (hne : ∀ a ∈ free, a ≠ 0)
    (hret : mallocLoop requestBlock m size fuel prev (next m prev) = some r) :
    ∃ pre ys xs p, free = pre ++ ys ∧ prev :: pre = xs ++ [p] ∧
      ((ys = [] ∧ (∀ a ∈ free, ¬ size ≤ blockSize m a) ∧
          mallocFromMmap requestBlock m p size = some r) ∨
        ∃ c zs, ys = c :: zs ∧ size ≤ blockSize m c ∧ r = mallocFromBlock m p c size) := by
  induction free generalizing prev fuel with
  | nil =>
      have hend : next m prev = 0 := (linked_cons_cons.mp hlinked).1
      cases fuel with
      | zero => simp [mallocLoop] at hret
      | succ fuel =>
          rw [mallocLoop, if_pos hend] at hret
          exact ⟨[], [], [], prev, rfl, rfl, Or.inl ⟨rfl, by simp, hret⟩⟩
  | cons a free ih =>
      obtain ⟨hnext, htail⟩ := linked_cons_cons.mp hlinked
      cases fuel with
      | zero => simp [mallocLoop] at hret
      | succ fuel =>
          rw [mallocLoop, hnext, if_neg (hne a (by simp))] at hret
          by_cases hfit : size ≤ blockSize m a
          · rw [if_pos hfit] at hret
            exact ⟨[], a :: free, [], prev, rfl, rfl,
              Or.inr ⟨a, free, rfl, hfit, (Option.some.inj hret).symm⟩⟩
          · rw [if_neg hfit] at hret
            obtain ⟨pre, ys, xs, p, hsplit, hlast, hcase⟩ :=
              ih htail (fun b hb => hne b (by simp [hb])) hret
            refine ⟨a :: pre, ys, prev :: xs, p, by rw [hsplit]; rfl, by rw [hlast]; rfl, ?_⟩
            exact hcase.imp_left fun ⟨hys, hnone, hmmap⟩ =>
              ⟨hys, List.forall_mem_cons.mpr ⟨hfit, hnone⟩, hmmap⟩

/-- The search ends after at most one round more than the list is long, if a block fits or
the request for a new one is granted. -/
theorem mallocLoop_returns (hlinked : Linked (next m) (prev :: free ++ [0]))
    (hne : ∀ a ∈ free, a ≠ 0)
    (hmap : (∃ a ∈ free, size ≤ blockSize m a) ∨
      requestBlock (alignUp size pageSizeBytes) ≠ 0) :
    ∃ r, mallocLoop requestBlock m size (free.length + 1) prev (next m prev) = some r := by
  induction free generalizing prev with
  | nil =>
      have hend : next m prev = 0 := (linked_cons_cons.mp hlinked).1
      have hgranted := hmap.resolve_left (by simp)
      exact ⟨_, by rw [mallocLoop, if_pos hend, mallocFromMmap, if_neg hgranted]⟩
  | cons a free ih =>
      obtain ⟨hnext, htail⟩ := linked_cons_cons.mp hlinked
      rw [List.length_cons, mallocLoop, hnext, if_neg (hne a (by simp))]
      by_cases hfit : size ≤ blockSize m a
      · exact ⟨_, if_pos hfit⟩
      · rw [if_neg hfit]
        apply ih htail (fun b hb => hne b (by simp [hb]))
        refine hmap.imp_left fun ⟨b, hb, hle⟩ => ⟨b, ?_, hle⟩
        exact (List.mem_cons.mp hb).resolve_left fun hba => hfit (hba ▸ hle)

/-- `user_free` reaches the last node and links the block behind it. -/
theorem freeLoop_eq (hlinked : Linked (next m) (prev :: free ++ [0])) (hne : ∀ a ∈ free, a ≠ 0)
    (hret : freeLoop m header fuel prev (next m prev) = some m') :
    ∃ xs p, prev :: free = xs ++ [p] ∧
      m' = setNext (setNext (setBlockSize m header (len m header)) header 0) p header := by
  induction free generalizing prev fuel with
  | nil =>
      have hend : next m prev = 0 := (linked_cons_cons.mp hlinked).1
      cases fuel with
      | zero => simp [freeLoop] at hret
      | succ fuel =>
          rw [freeLoop, if_pos hend] at hret
          exact ⟨[], prev, rfl, (Option.some.inj hret).symm⟩
  | cons a free ih =>
      obtain ⟨hnext, htail⟩ := linked_cons_cons.mp hlinked
      cases fuel with
      | zero => simp [freeLoop] at hret
      | succ fuel =>
          rw [freeLoop, hnext, if_neg (hne a (by simp))] at hret
          obtain ⟨xs, p, hlast, hm⟩ := ih htail (fun b hb => hne b (by simp [hb])) hret
          exact ⟨prev :: xs, p, by rw [hlast]; rfl, hm⟩

theorem freeLoop_returns (hlinked : Linked (next m) (prev :: free ++ [0]))
    (hne : ∀ a ∈ free, a ≠ 0) :
    ∃ m', freeLoop m header (free.length + 1) prev (next m prev) = some m' := by
  induction free generalizing prev with
  | nil =>
      have hend : next m prev = 0 := (linked_cons_cons.mp hlinked).1
      exact ⟨_, by rw [freeLoop, if_pos hend]⟩
  | cons a free ih =>
      obtain ⟨hnext, htail⟩ := linked_cons_cons.mp hlinked
      rw [List.length_cons, freeLoop, hnext, if_neg (hne a (by simp))]
      exact ih htail fun b hb => hne b (by simp [hb])

end Loops

/-- The free nodes `others`, the live blocks and the range `x` keep clear of each other and
of `malloc_head`. -/
structure Apart (m : Mem) (mallocHead : Nat) (others : List Nat) (live : List Live)
    (x : Span) : Prop where
  nodes : (mallocHead :: others).Pairwise fun a b => Span.Disjoint ⟨a, 16⟩ ⟨b, 16⟩
  node_live : ∀ a ∈ mallocHead :: others, ∀ b ∈ live, Span.Disjoint ⟨a, 16⟩ (liveSpan m b)
  node_range : ∀ a ∈ mallocHead :: others, Span.Disjoint ⟨a, 16⟩ x
  live_range : ∀ b ∈ live, (liveSpan m b).Disjoint x
  live_header : ∀ b ∈ live, 16 < len m b.block

section Apart

variable {m m' : Mem} {mallocHead p : Nat} {others : List Nat} {live : List Live} {x : Span}
  {regions : List Span}

theorem apart_of_tiling (hregions : RegionsOk mallocHead regions)
    (htiling : Tiling regions (x :: spans m others live))
    (hblocks : ∀ b ∈ spans m others live, BlockOk b) :
    Apart m mallocHead others live x := by
  have hfree : ∀ a ∈ others, freeSpan m a ∈ spans m others live := fun a ha =>
    List.mem_append_left _ (List.mem_map_of_mem ha)
  have hlive : ∀ b ∈ live, liveSpan m b ∈ spans m others live := fun b hb =>
    List.mem_append_right _ (List.mem_map_of_mem hb)
  have hhead : ∀ b ∈ x :: spans m others live, Span.Disjoint ⟨mallocHead, 16⟩ b := by
    intro b hb
    obtain ⟨r, hr, hin⟩ := htiling.inside b hb
    exact ((hregions.apart r hr).symm).of_inside ⟨Nat.le_refl _, Nat.le_refl _⟩ hin
  obtain ⟨hx, hrest⟩ := List.pairwise_cons.mp htiling.disjoint
  obtain ⟨hff, -, hfl⟩ := List.pairwise_append.mp hrest
  have hcell : ∀ a ∈ others, Span.Inside ⟨a, 16⟩ (freeSpan m a) := fun a ha =>
    ⟨Nat.le_refl _, by have := (hblocks _ (hfree a ha)).2.2; simp [freeSpan, sizeofMallocHeader] at *; omega⟩
  have hself : ∀ s : Span, s.Inside s := fun s => ⟨Nat.le_refl _, Nat.le_refl _⟩
  refine ⟨List.pairwise_cons.mpr ⟨fun a ha => ?_, ?_⟩, ?_, ?_, ?_, ?_⟩
  · exact (hhead _ (List.mem_cons_of_mem _ (hfree a ha))).of_inside (hself _) (hcell a ha)
  · refine (List.pairwise_map.mp hff).imp_of_mem fun ha hb hab => ?_
    exact hab.of_inside (hcell _ ha) (hcell _ hb)
  · intro a ha b hb
    rcases List.mem_cons.mp ha with rfl | ha
    · exact hhead _ (List.mem_cons_of_mem _ (hlive b hb))
    · exact (hfl _ (List.mem_map_of_mem ha) _ (List.mem_map_of_mem hb)).of_inside
        (hcell a ha) (hself _)
  · intro a ha
    rcases List.mem_cons.mp ha with rfl | ha
    · exact hhead x List.mem_cons_self
    · exact ((hx _ (hfree a ha)).symm).of_inside (hcell a ha) (hself _)
  · exact fun b hb => (hx _ (hlive b hb)).symm
  · exact fun b hb => (hblocks _ (hlive b hb)).2.2

/-- The header lies inside the block, so it is the same while the block's bytes are. -/
theorem header_eq_of_bytes {b : Live} (hlen : 16 < len m b.block)
    (hbytes : ∀ k, (liveSpan m b).Has k → m' k = m k) :
    magicOf m' b.block = magicOf m b.block ∧ len m' b.block = len m b.block := by
  simp only [liveSpan, Span.Has] at hbytes
  exact ⟨Mem.readN_congr fun k hlo hhi => hbytes k ⟨hlo, by omega⟩,
    Mem.readN_congr fun k hlo hhi => hbytes k ⟨by omega, by omega⟩⟩

variable (hapart : Apart m mallocHead others live x) (hp : p ∈ mallocHead :: others)
  (hchange : Mem.ChangesIn [x, ⟨p + 8, 8⟩] m m')

include hapart hp in
private theorem Apart.node_eq_or {a : Nat} (ha : a ∈ mallocHead :: others) :
    a = p ∨ Span.Disjoint ⟨a, 16⟩ ⟨p, 16⟩ := by
  by_cases hap : a = p
  · exact Or.inl hap
  · have hsymm : Std.Symm fun a b : Nat => Span.Disjoint ⟨a, 16⟩ ⟨b, 16⟩ := ⟨fun _ _ h => h.symm⟩
    exact Or.inr (hapart.nodes.forall ha hp hap)

include hapart hp hchange

theorem Apart.next_eq {a : Nat} (ha : a ∈ mallocHead :: others) (hne : a ≠ p) :
    next m' a = next m a := by
  have hrange := hapart.node_range a ha
  have hnode := (hapart.node_eq_or hp ha).resolve_left hne
  refine hchange.readN_eq fun s hs => ?_
  simp only [List.mem_cons, List.not_mem_nil, or_false] at hs
  rcases hs with rfl | rfl
  · exact hrange.of_inside ⟨by simp, by simp⟩ ⟨Nat.le_refl _, Nat.le_refl _⟩
  · simp only [Span.Disjoint] at hnode ⊢
    omega

theorem Apart.freeSpan_eq {a : Nat} (ha : a ∈ others) : freeSpan m' a = freeSpan m a := by
  have ha' := List.mem_cons_of_mem mallocHead ha
  have hrange := hapart.node_range a ha'
  have hsize : blockSize m' a = blockSize m a := by
    refine hchange.readN_eq fun s hs => ?_
    simp only [List.mem_cons, List.not_mem_nil, or_false] at hs
    rcases hs with rfl | rfl
    · exact hrange.of_inside ⟨by simp, by simp⟩ ⟨Nat.le_refl _, Nat.le_refl _⟩
    · rcases hapart.node_eq_or hp ha' with rfl | hnode
      · exact Or.inl (Nat.le_refl _)
      · simp only [Span.Disjoint] at hnode ⊢
        omega
  rw [freeSpan, freeSpan, hsize]

/-- No byte of the live blocks changes. -/
theorem Apart.live_bytes_eq {b : Live} (hb : b ∈ live) {k : Nat} (hk : (liveSpan m b).Has k) :
    m' k = m k := by
  refine hchange.bytes_eq (s := liveSpan m b) (fun s hs => ?_) hk
  simp only [List.mem_cons, List.not_mem_nil, or_false] at hs
  rcases hs with rfl | rfl
  · exact hapart.live_range b hb
  · exact ((hapart.node_live p hp b hb).symm).of_inside ⟨Nat.le_refl _, Nat.le_refl _⟩
      ⟨by simp, by simp⟩

theorem Apart.live_header_eq {b : Live} (hb : b ∈ live) :
    magicOf m' b.block = magicOf m b.block ∧ len m' b.block = len m b.block := by
  apply header_eq_of_bytes (hapart.live_header b hb)
  exact fun k => hapart.live_bytes_eq hp hchange hb

theorem Apart.spans_eq : spans m' others live = spans m others live := by
  have hfree : others.map (freeSpan m') = others.map (freeSpan m) :=
    List.map_congr_left fun a ha => hapart.freeSpan_eq hp hchange ha
  have hlive : live.map (liveSpan m') = live.map (liveSpan m) :=
    List.map_congr_left fun b hb => by
      rw [liveSpan, liveSpan, (hapart.live_header_eq hp hchange hb).2]
  rw [spans, spans, hfree, hlive]

theorem Apart.liveOk_of {b : Live} (hb : b ∈ live) (hok : LiveOk m b) : LiveOk m' b := by
  obtain ⟨hmagic, hlen⟩ := hapart.live_header_eq hp hchange hb
  rw [LiveOk, hmagic, hlen]
  exact hok

end Apart

/-- The heap after an operation that rewrote one range and one link: the nodes `mid` were put
behind the node `p`, and the blocks `new` became live. -/
theorem HeapInv.rebuild {mallocHead p : Nat} {m m' : Mem} {regions : List Span}
    {pre ys xs tail : List Nat} {live : List Live} {x : Span} (mid : List Nat) (new : List Live)
    (hregions : RegionsOk mallocHead regions)
    (hapart : Apart m mallocHead (pre ++ ys) live x)
    (hchange : Mem.ChangesIn [x, ⟨p + 8, 8⟩] m m')
    (hlast : mallocHead :: pre = xs ++ [p])
    (hold : Linked (next m) (mallocHead :: pre ++ tail))
    (hnew : Linked (next m') (p :: (mid ++ ys ++ [0])))
    (htiling : Tiling regions (spans m' mid new ++ spans m (pre ++ ys) live))
    (hblocks : ∀ b ∈ spans m' mid new ++ spans m (pre ++ ys) live, BlockOk b)
    (hlive : ∀ b ∈ live, LiveOk m b) (hnewLive : ∀ b ∈ new, LiveOk m' b) :
    HeapInv mallocHead ⟨m', regions, new ++ live⟩ (pre ++ mid ++ ys) := by
  have hp : p ∈ mallocHead :: (pre ++ ys) := by
    rw [← List.cons_append, hlast]
    simp
  have hperm : (spans m' mid new ++ spans m (pre ++ ys) live).Perm
      (spans m' (pre ++ mid ++ ys) (new ++ live)) := by
    rw [← hapart.spans_eq hp hchange]
    simp only [spans, List.map_append]
    grind
  refine ⟨hregions, ?_, htiling.perm hperm, fun b hb => hblocks b (hperm.mem_iff.mpr hb), ?_⟩
  · have hpnot : ∀ a ∈ xs, next m' a = next m a := by
      have hnodup : (xs ++ [p]).Pairwise (· ≠ ·) := by
        have hnodes := hapart.nodes
        rw [← List.cons_append, hlast] at hnodes
        refine ((List.pairwise_append.mp hnodes).1).imp fun hab heq => ?_
        simp only [Span.Disjoint, heq] at hab
        omega
      intro a ha
      refine hapart.next_eq hp hchange ?_ ?_
      · rw [← List.cons_append, hlast]
        simp [ha]
      · exact (List.pairwise_append.mp hnodup).2.2 a ha p (by simp)
    rw [hlast, List.append_assoc, List.singleton_append] at hold
    have hall := linked_split.mpr ⟨(linked_split.mp hold).1.congr hpnot, hnew⟩
    have hshape : mallocHead :: (pre ++ mid ++ ys) ++ [0] = xs ++ p :: (mid ++ ys ++ [0]) := by
      calc mallocHead :: (pre ++ mid ++ ys) ++ [0]
          = (mallocHead :: pre) ++ (mid ++ ys ++ [0]) := by simp
        _ = xs ++ p :: (mid ++ ys ++ [0]) := by rw [hlast]; simp
    rw [hshape]
    exact hall
  · intro b hb
    rcases List.mem_append.mp hb with hb | hb
    · exact hnewLive b hb
    · exact hapart.liveOk_of hp hchange hb (hlive b hb)

theorem alignUp_spec (num bound : Nat) (hbound : 0 < bound) (hfit : num + bound ≤ 2 ^ 64) :
    bound ∣ alignUp num bound ∧ num ≤ alignUp num bound ∧ alignUp num bound < num + bound := by
  have hdiv := Nat.div_add_mod num bound
  have hmod := Nat.mod_lt num hbound
  rw [Nat.mul_comm] at hdiv
  unfold alignUp
  by_cases hexact : num % bound = 0
  · simp only [hexact, ne_eq, not_true, if_false]
    rw [Nat.mod_eq_of_lt (by omega)]
    exact ⟨Nat.dvd_mul_left _ _, by omega, by omega⟩
  · have hsucc : (num / bound + 1) * bound = num / bound * bound + bound := by ring
    simp only [hexact, ne_eq, not_false_eq_true, if_true]
    rw [Nat.mod_eq_of_lt (by omega)]
    exact ⟨Nat.dvd_mul_left _ _, by omega, by omega⟩

section Writes

variable {m : Mem} {p c size total addr header : Nat} {requestBlock : Nat → Nat}

/-- The stores of `mallocFromBlock` that keep a remainder. -/
theorem mallocFromBlock_split (htotal : blockSize m c = total) (hrem : 16 < total - size)
    (hfit : c + total ≤ 2 ^ 64) (hsize : 16 ≤ size) (hp : p + 16 ≤ c ∨ c + total ≤ p) :
    ∃ m', mallocFromBlock m p c size = ⟨c + 16, m', none⟩ ∧
      Mem.ChangesIn [⟨c, total⟩, ⟨p + 8, 8⟩] m m' ∧ next m' p = c + size ∧
      next m' (c + size) = next m c ∧ blockSize m' (c + size) = total - size ∧
      magicOf m' c = magic ∧ len m' c = size := by
  have hret : add64 c sizeofMallocHeader = c + 16 :=
    Nat.mod_eq_of_lt (by simp only [sizeofMallocHeader]; omega)
  have hfree : add64 c size = c + size := Nat.mod_eq_of_lt (by omega)
  have hlink : m.read64 (c + 8) < 2 ^ 64 := Mem.read64_lt _ _
  have hmagic : magic < 2 ^ 64 := by decide
  refine ⟨_, by
    simp only [mallocFromBlock, htotal, hret, hfree, sizeofFreeBlock, gt_iff_lt, hrem, if_true]; rfl,
    ?_, ?_⟩
  · simp only [setLen, setMagic, setNext, setBlockSize]
    iterate 5 refine Mem.ChangesIn.write64 ?_ (by simp <;> omega)
    exact Mem.ChangesIn.refl _ _
  · simp (disch := omega) only [next, blockSize, magicOf, len, setNext, setBlockSize, setMagic,
      setLen, Mem.read64_write64_same, Mem.read64_write64_of_disjoint, and_self]

/-- The stores of `mallocFromBlock` that hand out the whole block. -/
theorem mallocFromBlock_absorb (htotal : blockSize m c = total) (hrem : ¬ 16 < total - size)
    (hle : size ≤ total) (hfit : c + total ≤ 2 ^ 64) (hc : c ≠ 0) (hsize : 16 < total)
    (hp : p + 16 ≤ c ∨ c + total ≤ p) :
    ∃ m', mallocFromBlock m p c size = ⟨c + 16, m', none⟩ ∧
      Mem.ChangesIn [⟨c, total⟩, ⟨p + 8, 8⟩] m m' ∧ next m' p = next m c ∧
      magicOf m' c = magic ∧ len m' c = total := by
  have hret : add64 c sizeofMallocHeader = c + 16 :=
    Nat.mod_eq_of_lt (by simp only [sizeofMallocHeader]; omega)
  have hall : add64 size (total - size) = total := by
    rw [add64, Nat.add_sub_cancel' hle, Nat.mod_eq_of_lt (by omega)]
  have hlink : m.read64 (c + 8) < 2 ^ 64 := Mem.read64_lt _ _
  have hmagic : magic < 2 ^ 64 := by decide
  refine ⟨_, by
    simp only [mallocFromBlock, htotal, hret, hall, sizeofFreeBlock, gt_iff_lt, hrem, if_false]; rfl,
    ?_, ?_⟩
  · simp only [setLen, setMagic, setNext]
    iterate 3 refine Mem.ChangesIn.write64 ?_ (by simp <;> omega)
    exact Mem.ChangesIn.refl _ _
  · simp (disch := omega) only [next, magicOf, len, setNext, setMagic, setLen,
      Mem.read64_write64_same, Mem.read64_write64_of_disjoint, and_self]

/-- The stores into a new region that keep a remainder. -/
theorem mallocFromMmap_split (haddr : requestBlock total = addr)
    (htotal : alignUp size pageSizeBytes = total) (hne : addr ≠ 0) (hle : size ≤ total)
    (hrem : 16 < total - size) (hfit : addr + total ≤ 2 ^ 64) (hsize : 16 ≤ size)
    (hp : p + 16 ≤ addr ∨ addr + total ≤ p) :
    ∃ m', mallocFromMmap requestBlock m p size = some ⟨addr + 16, m', some ⟨addr, total⟩⟩ ∧
      Mem.ChangesIn [⟨addr, total⟩, ⟨p + 8, 8⟩] m m' ∧ next m' p = addr + size ∧
      next m' (addr + size) = 0 ∧ blockSize m' (addr + size) = total - size ∧
      magicOf m' addr = magic ∧ len m' addr = size := by
  have hret : add64 addr sizeofMallocHeader = addr + 16 :=
    Nat.mod_eq_of_lt (by simp only [sizeofMallocHeader]; omega)
  have hfree : add64 addr size = addr + size := Nat.mod_eq_of_lt (by omega)
  have hsub : sub64 total size = total - size := sub64_eq hle (by omega)
  have hmagic : magic < 2 ^ 64 := by decide
  refine ⟨_, by
    simp only [mallocFromMmap, haddr, htotal, hret, hfree, hsub, sizeofFreeBlock, gt_iff_lt, hrem,
      hne, if_true, if_false]; rfl, ?_, ?_⟩
  · simp only [setLen, setMagic, setNext, setBlockSize]
    iterate 5 refine Mem.ChangesIn.write64 ?_ (by simp <;> omega)
    exact Mem.ChangesIn.refl _ _
  · simp (disch := omega) only [next, blockSize, magicOf, len, setNext, setBlockSize, setMagic,
      setLen, Mem.read64_write64_same, Mem.read64_write64_of_disjoint, and_self]

/-- The stores into a new region that is handed out whole. -/
theorem mallocFromMmap_absorb (haddr : requestBlock total = addr)
    (htotal : alignUp size pageSizeBytes = total) (hne : addr ≠ 0) (hle : size ≤ total)
    (hrem : ¬ 16 < total - size) (hfit : addr + total ≤ 2 ^ 64) (hsize : 16 < size)
    (hp : p + 16 ≤ addr ∨ addr + total ≤ p) :
    ∃ m', mallocFromMmap requestBlock m p size = some ⟨addr + 16, m', some ⟨addr, total⟩⟩ ∧
      Mem.ChangesIn [⟨addr, total⟩, ⟨p + 8, 8⟩] m m' ∧ next m' p = next m p ∧
      magicOf m' addr = magic ∧ len m' addr = total := by
  have hret : add64 addr sizeofMallocHeader = addr + 16 :=
    Nat.mod_eq_of_lt (by simp only [sizeofMallocHeader]; omega)
  have hlen : len (setLen (setMagic m addr magic) addr size) addr = size :=
    Mem.read64_write64_same _ _ (by omega)
  have hsub : sub64 total size = total - size := sub64_eq hle (by omega)
  have hall : add64 size (total - size) = total := by
    rw [add64, Nat.add_sub_cancel' hle, Nat.mod_eq_of_lt (by omega)]
  have hmagic : magic < 2 ^ 64 := by decide
  refine ⟨_, by
    simp only [mallocFromMmap, haddr, htotal, hret, hsub, hlen, hall, sizeofFreeBlock, gt_iff_lt,
      hrem, hne, if_false]; rfl, ?_, ?_⟩
  · simp only [setLen, setMagic]
    iterate 3 refine Mem.ChangesIn.write64 ?_ (by simp; omega)
    exact Mem.ChangesIn.refl _ _
  · simp (disch := omega) only [next, magicOf, len, setMagic, setLen,
      Mem.read64_write64_same, Mem.read64_write64_of_disjoint, and_self]

/-- The stores of `user_free` behind the last node. -/
theorem free_writes {m' : Mem} (htotal : len m header = total) (hne : header ≠ 0)
    (hfit : header + total ≤ 2 ^ 64) (hsize : 16 < total) (hp : p + 16 ≤ header ∨ header + total ≤ p)
    (hm : m' = setNext (setNext (setBlockSize m header (len m header)) header 0) p header) :
    Mem.ChangesIn [⟨header, total⟩, ⟨p + 8, 8⟩] m m' ∧ next m' p = header ∧
      next m' header = 0 ∧ blockSize m' header = total := by
  subst hm
  rw [htotal]
  refine ⟨?_, ?_⟩
  · simp only [setNext, setBlockSize]
    iterate 3 refine Mem.ChangesIn.write64 ?_ (by simp <;> omega)
    exact Mem.ChangesIn.refl _ _
  · simp (disch := omega) only [next, blockSize, setNext, setBlockSize,
      Mem.read64_write64_same, Mem.read64_write64_of_disjoint, and_self]

end Writes

/-- Every live block of the first state keeps its bytes, if it is still live. -/
def KeepsLive (s s' : State) : Prop :=
  ∀ b ∈ s.live, b ∈ s'.live → ∀ k, (liveSpan s.mem b).Has k → s'.mem k = s.mem k

section Operations

variable {mallocHead p c n size : Nat} {s : State} {free pre zs xs : List Nat}

/-- What holds of a block of the heap's tiling. -/
theorem HeapInv.span_bounds (hinv : HeapInv mallocHead s free) {b : Span}
    (hb : b ∈ spans s.mem free s.live) :
    BlockOk b ∧ b.base ≠ 0 ∧ b.base + b.len ≤ 2 ^ 64 := by
  obtain ⟨r, hr, hlo, hhi⟩ := hinv.tiling.inside b hb
  have hfit := hinv.regions.fit r hr
  have hne := hinv.regions.nonzero r hr
  exact ⟨hinv.blocks b hb, by omega, by omega⟩

theorem HeapInv.free_ne_zero (hinv : HeapInv mallocHead s free) : ∀ a ∈ free, a ≠ 0 :=
  fun a ha => (hinv.span_bounds (b := freeSpan s.mem a)
    (List.mem_append_left _ (List.mem_map_of_mem ha))).2.1

/-- From the pointer the client holds, the code finds the block and its magic word. -/
theorem HeapInv.header_of_live {b : Live} (hinv : HeapInv mallocHead s free) (hb : b ∈ s.live) :
    b.ptr ≠ 0 ∧ sub64 b.ptr sizeofMallocHeader = b.block ∧ magicOf s.mem b.block = magic := by
  obtain ⟨⟨-, -, hheader⟩, -, hfit⟩ := hinv.span_bounds (b := liveSpan s.mem b)
    (List.mem_append_right _ (List.mem_map_of_mem hb))
  obtain ⟨hmagic, hptr, -⟩ := hinv.live b hb
  simp only [liveSpan, Live.block, sizeofMallocHeader] at hheader hfit hptr
  refine ⟨by omega, ?_, hmagic⟩
  simp only [Live.block, sizeofMallocHeader]
  exact sub64_eq hptr (by omega)

/-- The free nodes, the remaining live blocks and the range an operation works on. -/
theorem HeapInv.apart (hinv : HeapInv mallocHead s free) {x : Span} {others : List Nat}
    {live : List Live} (hperm : (spans s.mem free s.live).Perm (x :: spans s.mem others live)) :
    Apart s.mem mallocHead others live x :=
  apart_of_tiling hinv.regions (hinv.tiling.perm hperm) fun b hb =>
    hinv.blocks b (hperm.mem_iff.mpr (List.mem_cons_of_mem _ hb))

/-- A block `⟨base, total⟩` that is on no list, about to be handed out behind the node `p`: `pre`
are the free nodes up to `p` and `ys` those that will follow. -/
structure Carving (mallocHead p base total : Nat) (m : Mem) (regions : List Span)
    (pre ys : List Nat) (live : List Live) : Prop where
  regionsOk : RegionsOk mallocHead regions
  block : BlockOk ⟨base, total⟩
  tiling : Tiling regions (⟨base, total⟩ :: spans m (pre ++ ys) live)
  blocks : ∀ b ∈ spans m (pre ++ ys) live, BlockOk b
  liveOk : ∀ b ∈ live, LiveOk m b
  last : ∃ xs, mallocHead :: pre = xs ++ [p]
  linked : ∃ tail, Linked (next m) (mallocHead :: pre ++ tail)

section Carving

variable {m m' : Mem} {base total : Nat} {regions : List Span} {ys : List Nat} {live : List Live}

theorem Carving.apart (h : Carving mallocHead p base total m regions pre ys live) :
    Apart m mallocHead (pre ++ ys) live ⟨base, total⟩ :=
  apart_of_tiling h.regionsOk h.tiling h.blocks

theorem Carving.node (h : Carving mallocHead p base total m regions pre ys live) :
    p ∈ mallocHead :: (pre ++ ys) := by
  obtain ⟨xs, hlast⟩ := h.last
  rw [← List.cons_append, hlast]
  simp

theorem Carving.node_beside (h : Carving mallocHead p base total m regions pre ys live) :
    p + 16 ≤ base ∨ base + total ≤ p := h.apart.node_range p h.node

/-- The front of the block becomes live and the rest of it a free block behind `p`. -/
theorem Carving.split (h : Carving mallocHead p base total m regions pre ys live)
    (hdvd : 8 ∣ size) (hroom : n + 16 ≤ size) (hn : 1 ≤ n) (hrem : 16 < total - size)
    (hchange : Mem.ChangesIn [⟨base, total⟩, ⟨p + 8, 8⟩] m m')
    (hlink : Linked (next m') (p :: (base + size) :: (ys ++ [0])))
    (hsize : blockSize m' (base + size) = total - size) (hmagic : magicOf m' base = magic)
    (hlen : len m' base = size) :
    HeapInv mallocHead ⟨m', regions, ⟨base + 16, n⟩ :: live⟩ (pre ++ [base + size] ++ ys) := by
  obtain ⟨xs, hlast⟩ := h.last
  obtain ⟨tail, hold⟩ := h.linked
  obtain ⟨hbase8, htotal8, -⟩ := h.block
  simp only at hbase8 htotal8
  have hspans : spans m' [base + size] [⟨base + 16, n⟩] =
      [⟨base + size, total - size⟩, ⟨base, size⟩] := by
    simp [spans, freeSpan, liveSpan, Live.block, sizeofMallocHeader, hsize, hlen]
  have hcut := Tiling.split (a := base) (n := size) (k := total - size)
    (by rw [Nat.add_sub_cancel' (by omega)]; exact h.tiling) (by omega) (by omega)
  refine HeapInv.rebuild [base + size] [⟨base + 16, n⟩] h.regionsOk h.apart hchange hlast hold
    hlink ?_ ?_ h.liveOk ?_
  · rw [hspans]
    exact hcut.perm (List.Perm.swap _ _ _)
  · rw [hspans]
    intro b hb
    simp only [List.cons_append, List.nil_append, List.mem_cons] at hb
    rcases hb with rfl | rfl | hb
    · exact ⟨by simp; omega, by simp; omega, by simpa [sizeofMallocHeader] using hrem⟩
    · exact ⟨hbase8, hdvd, by simp only [sizeofMallocHeader]; omega⟩
    · exact h.blocks b hb
  · intro b hb
    rw [List.mem_singleton] at hb
    subst hb
    simp [LiveOk, Live.block, sizeofMallocHeader, hmagic, hlen, hroom]

/-- The whole block becomes live. -/
theorem Carving.absorb (h : Carving mallocHead p base total m regions pre ys live)
    (hroom : n + 16 ≤ total) (hchange : Mem.ChangesIn [⟨base, total⟩, ⟨p + 8, 8⟩] m m')
    (hlink : Linked (next m') (p :: (ys ++ [0]))) (hmagic : magicOf m' base = magic)
    (hlen : len m' base = total) :
    HeapInv mallocHead ⟨m', regions, ⟨base + 16, n⟩ :: live⟩ (pre ++ [] ++ ys) := by
  obtain ⟨xs, hlast⟩ := h.last
  obtain ⟨tail, hold⟩ := h.linked
  have hspans : spans m' [] [⟨base + 16, n⟩] = [⟨base, total⟩] := by
    simp [spans, liveSpan, Live.block, sizeofMallocHeader, hlen]
  refine HeapInv.rebuild [] [⟨base + 16, n⟩] h.regionsOk h.apart hchange hlast hold
    hlink ?_ ?_ h.liveOk ?_
  · rw [hspans]
    exact h.tiling
  · rw [hspans]
    exact List.forall_mem_cons.mpr ⟨h.block, h.blocks⟩
  · intro b hb
    rw [List.mem_singleton] at hb
    subst hb
    simp [LiveOk, Live.block, sizeofMallocHeader, hmagic, hlen, hroom]

end Carving

/-- Carving a request out of a free block that fits. -/
theorem HeapInv.mallocFromBlock_inv (hinv : HeapInv mallocHead s (pre ++ c :: zs))
    (hlast : mallocHead :: pre = xs ++ [p]) (hdvd : 8 ∣ size)
    (hroom : n + 16 ≤ size) (hn : 1 ≤ n) (hfit : size ≤ blockSize s.mem c) :
    ∃ m', mallocFromBlock s.mem p c size = ⟨c + 16, m', none⟩ ∧
      (∃ free', HeapInv mallocHead ⟨m', s.regions, ⟨c + 16, n⟩ :: s.live⟩ free') ∧
      ∀ b ∈ s.live, ∀ k, (liveSpan s.mem b).Has k → m' k = s.mem k := by
  obtain ⟨m, regions, live⟩ := s
  simp only at hfit ⊢
  have hperm : (spans m (pre ++ c :: zs) live).Perm
      (freeSpan m c :: spans m (pre ++ zs) live) := by
    simp only [spans, List.map_append, List.map_cons]
    grind
  obtain ⟨total, htotal⟩ : ∃ total, blockSize m c = total := ⟨_, rfl⟩
  rw [freeSpan, htotal] at hperm
  rw [htotal] at hfit
  obtain ⟨hblock, hc0, hcfit⟩ := hinv.span_bounds (hperm.mem_iff.mpr List.mem_cons_self)
  have hheader := hblock.2.2
  simp only [sizeofMallocHeader] at hc0 hcfit hheader
  have hshape : mallocHead :: (pre ++ c :: zs) ++ [0] = (mallocHead :: pre) ++ c :: (zs ++ [0]) := by
    simp
  have hold : Linked (next m) ((mallocHead :: pre) ++ c :: (zs ++ [0])) := hshape ▸ hinv.linked
  have hcarve : Carving mallocHead p c total m regions pre zs live :=
    ⟨hinv.regions, hblock, hinv.tiling.perm hperm,
      fun b hb => hinv.blocks b (hperm.mem_iff.mpr (List.mem_cons_of_mem _ hb)), hinv.live,
      ⟨xs, hlast⟩, ⟨_, hold⟩⟩
  have hzs : ∀ {m'}, Mem.ChangesIn [⟨c, total⟩, ⟨p + 8, 8⟩] m m' →
      ∀ a ∈ zs, next m' a = next m a := by
    intro m' hchange a ha
    refine hcarve.apart.next_eq hcarve.node hchange (List.mem_append_right (mallocHead :: pre) ha) ?_
    have hnodes := hcarve.apart.nodes
    rw [← List.cons_append] at hnodes
    have hdisj := (List.pairwise_append.mp hnodes).2.2 p (by rw [hlast]; simp) a ha
    rintro rfl
    simp only [Span.Disjoint] at hdisj
    omega
  have holdc := (linked_split.mp hold).2
  by_cases hsplit : 16 < total - size
  · obtain ⟨m', hm', hchange, hnextp, hnextf, hsizef, hmagic, hlen⟩ :=
      mallocFromBlock_split htotal hsplit hcfit (by omega) hcarve.node_beside
    have hlink : Linked (next m') (p :: (c + size) :: (zs ++ [0])) :=
      linked_cons_cons.mpr ⟨hnextp, Linked.take_over holdc hnextf (hzs hchange)⟩
    exact ⟨m', hm', ⟨_, hcarve.split hdvd hroom hn hsplit hchange hlink hsizef hmagic hlen⟩,
      fun b hb k hk => hcarve.apart.live_bytes_eq hcarve.node hchange hb hk⟩
  · obtain ⟨m', hm', hchange, hnextp, hmagic, hlen⟩ :=
      mallocFromBlock_absorb htotal hsplit hfit hcfit hc0 hheader hcarve.node_beside
    have hlink : Linked (next m') (p :: (zs ++ [0])) :=
      Linked.take_over holdc hnextp (hzs hchange)
    exact ⟨m', hm', ⟨_, hcarve.absorb (by omega) hchange hlink hmagic hlen⟩,
      fun b hb k hk => hcarve.apart.live_bytes_eq hcarve.node hchange hb hk⟩

theorem RegionsOk.cons {regions : List Span} {r : Span} (h : RegionsOk mallocHead regions)
    (hfresh : Fresh mallocHead regions r) : RegionsOk mallocHead (r :: regions) where
  disjoint := List.pairwise_cons.mpr ⟨hfresh.disjoint, h.disjoint⟩
  nonzero := List.forall_mem_cons.mpr ⟨hfresh.nonzero, h.nonzero⟩
  fit := List.forall_mem_cons.mpr ⟨hfresh.fits, h.fit⟩
  apart := List.forall_mem_cons.mpr ⟨hfresh.apart, h.apart⟩

/-- Carving a request out of a new region. -/
theorem HeapInv.mallocFromMmap_inv {requestBlock : Nat → Nat} {r : Result}
    (hinv : HeapInv mallocHead s free) (hlast : mallocHead :: free = xs ++ [p]) (hdvd : 8 ∣ size)
    (hroom : n + 16 ≤ size) (hn : 1 ≤ n) (hmax : size + 4096 ≤ 2 ^ 64)
    (hret : mallocFromMmap requestBlock s.mem p size = some r)
    (hfresh : ∀ region ∈ r.mapped, Fresh mallocHead s.regions region) :
    (∃ free', HeapInv mallocHead
      ⟨r.mem, r.mapped.toList ++ s.regions, ⟨r.ret, n⟩ :: s.live⟩ free') ∧
      ∀ b ∈ s.live, ∀ k, (liveSpan s.mem b).Has k → r.mem k = s.mem k := by
  obtain ⟨m, regions, live⟩ := s
  simp only at hret hfresh ⊢
  obtain ⟨total, htotal⟩ : ∃ total, alignUp size pageSizeBytes = total := ⟨_, rfl⟩
  obtain ⟨addr, haddr⟩ : ∃ addr, requestBlock total = addr := ⟨_, rfl⟩
  obtain ⟨hpages, hle, -⟩ := alignUp_spec size pageSizeBytes (by decide) hmax
  rw [htotal] at hpages hle
  have haddr0 : addr ≠ 0 := by
    rintro rfl
    simp [mallocFromMmap, htotal, haddr] at hret
  have hmapped : Fresh mallocHead regions ⟨addr, total⟩ := by
    refine hfresh _ ?_
    simp only [mallocFromMmap, htotal, haddr, haddr0, if_false] at hret
    rw [← Option.some.inj hret]
    rfl
  have hfit : addr + total ≤ 2 ^ 64 := hmapped.fits
  have hblock : BlockOk ⟨addr, total⟩ :=
    ⟨Dvd.dvd.trans (by decide) hmapped.aligned, Dvd.dvd.trans (by decide) hpages,
      by simp only [sizeofMallocHeader]; omega⟩
  have hold : Linked (next m) ((mallocHead :: free) ++ [0]) := hinv.linked
  have hend : next m p = 0 := by
    have hsplit := hold
    rw [hlast, List.append_assoc, List.singleton_append] at hsplit
    exact (linked_cons_cons.mp (linked_split.mp hsplit).2).1
  have htile := hinv.tiling.add_region ⟨addr, total⟩ (by simp; omega) hmapped.disjoint
  have hcarve : Carving mallocHead p addr total m (⟨addr, total⟩ :: regions) free [] live := by
    refine ⟨hinv.regions.cons hmapped, hblock, ?_, ?_, hinv.live, ⟨xs, hlast⟩, ⟨_, hold⟩⟩
    · rw [List.append_nil]
      exact htile
    · rw [List.append_nil]
      exact hinv.blocks
  by_cases hsplit : 16 < total - size
  · obtain ⟨m', hm', hchange, hnextp, hnextf, hsizef, hmagic, hlen⟩ :=
      mallocFromMmap_split (m := m) haddr htotal haddr0 hle hsplit hfit (by omega)
        hcarve.node_beside
    obtain rfl := Option.some.inj (hm'.symm.trans hret)
    have hlink : Linked (next m') (p :: (addr + size) :: ([] ++ [0])) :=
      linked_cons_cons.mpr ⟨hnextp, linked_cons_cons.mpr ⟨hnextf, List.isChain_singleton 0⟩⟩
    exact ⟨⟨_, hcarve.split hdvd hroom hn hsplit hchange hlink hsizef hmagic hlen⟩,
      fun b hb k hk => hcarve.apart.live_bytes_eq hcarve.node hchange hb hk⟩
  · obtain ⟨m', hm', hchange, hnextp, hmagic, hlen⟩ :=
      mallocFromMmap_absorb (m := m) haddr htotal haddr0 hle hsplit hfit (by omega)
        hcarve.node_beside
    obtain rfl := Option.some.inj (hm'.symm.trans hret)
    have hlink : Linked (next m') (p :: ([] ++ [0])) :=
      linked_cons_cons.mpr ⟨hnextp.trans hend, List.isChain_singleton 0⟩
    exact ⟨⟨_, hcarve.absorb (by omega) hchange hlink hmagic hlen⟩,
      fun b hb k hk => hcarve.apart.live_bytes_eq hcarve.node hchange hb hk⟩

/-- Giving a live block back appends it to the free list. -/
theorem HeapInv.userFree_inv {b : Live} {fuel : Nat} {m' : Mem} (hinv : HeapInv mallocHead s free)
    (hb : b ∈ s.live) (hret : userFree fuel mallocHead s.mem b.ptr = some m') :
    (∃ free', HeapInv mallocHead ⟨m', s.regions, s.live.erase b⟩ free') ∧
      ∀ b' ∈ s.live.erase b, ∀ k, (liveSpan s.mem b').Has k → m' k = s.mem k := by
  obtain ⟨m, regions, live⟩ := s
  simp only at hret hb ⊢
  have hlive := List.perm_cons_erase hb
  have hperm : (spans m free live).Perm (liveSpan m b :: spans m free (live.erase b)) := by
    have hmap := (hlive.map (liveSpan m)).append_left (free.map (freeSpan m))
    rw [List.map_cons] at hmap
    exact hmap.trans List.perm_middle
  obtain ⟨total, htotal⟩ : ∃ total, len m b.block = total := ⟨_, rfl⟩
  rw [liveSpan, htotal] at hperm
  have hapart : Apart m mallocHead (free ++ []) (live.erase b) ⟨b.block, total⟩ := by
    rw [List.append_nil]
    exact hinv.apart hperm
  have htile := hinv.tiling.perm hperm
  obtain ⟨hok, hne, hfit⟩ := hinv.span_bounds (hperm.mem_iff.mpr List.mem_cons_self)
  have hheader := hok.2.2
  simp only [sizeofMallocHeader] at hne hfit hheader
  obtain ⟨hptr, hblock, hmagic⟩ := hinv.header_of_live hb
  simp only [userFree, hptr, hblock, hmagic, ne_eq, not_true, or_self, if_false] at hret
  obtain ⟨xs, p, hlast, hm'⟩ := freeLoop_eq hinv.linked hinv.free_ne_zero hret
  have hp : p ∈ mallocHead :: (free ++ []) := by rw [List.append_nil, hlast]; simp
  obtain ⟨hchange, hnextp, hnextb, hsize⟩ :=
    free_writes htotal hne hfit hheader (hapart.node_range p hp) hm'
  have hspans : spans m' [b.block] [] = [⟨b.block, total⟩] := by
    simp [spans, freeSpan, hsize]
  refine ⟨⟨_, HeapInv.rebuild [b.block] []
    hinv.regions hapart hchange hlast hinv.linked ?_ ?_ ?_
    (fun b' hb' => hinv.live b' (List.mem_of_mem_erase hb')) (by simp)⟩,
    fun b' hb' k hk => hapart.live_bytes_eq hp hchange hb' hk⟩
  · exact linked_cons_cons.mpr ⟨hnextp, linked_cons_cons.mpr ⟨hnextb, List.isChain_singleton 0⟩⟩
  · rw [hspans, List.append_nil]
    exact htile
  · rw [hspans, List.append_nil]
    exact fun b' hb' => hinv.blocks b' (hperm.mem_iff.mpr hb')

/-- The block size `user_malloc` looks for, unless header and rounding wrap. -/
theorem request_size (hmax : n + 24 ≤ 2 ^ 64) :
    8 ∣ alignUp (add64 n (max sizeofMallocHeader sizeofFreeBlock)) 8 ∧
      n + 16 ≤ alignUp (add64 n (max sizeofMallocHeader sizeofFreeBlock)) 8 ∧
      alignUp (add64 n (max sizeofMallocHeader sizeofFreeBlock)) 8 < n + 24 := by
  have hsum : add64 n (max sizeofMallocHeader sizeofFreeBlock) = n + 16 :=
    Nat.mod_eq_of_lt (by simp only [sizeofMallocHeader, sizeofFreeBlock, max_self]; omega)
  rw [hsum]
  exact alignUp_spec (n + 16) 8 (by decide) (by omega)

/-- The search serves a request, from a block that fits or from a new region. -/
theorem HeapInv.mallocLoop_inv {fuel : Nat} {requestBlock : Nat → Nat} {r : Result}
    (hinv : HeapInv mallocHead s free) (hdvd : 8 ∣ size) (hroom : n + 16 ≤ size) (hn : 1 ≤ n)
    (hmax : (∀ a ∈ free, ¬ size ≤ blockSize s.mem a) → size + 4096 ≤ 2 ^ 64)
    (hret : mallocLoop requestBlock s.mem size fuel mallocHead (next s.mem mallocHead) = some r)
    (hfresh : ∀ region ∈ r.mapped, Fresh mallocHead s.regions region) :
    (∃ free', HeapInv mallocHead
      ⟨r.mem, r.mapped.toList ++ s.regions, ⟨r.ret, n⟩ :: s.live⟩ free') ∧
      ∀ b ∈ s.live, ∀ k, (liveSpan s.mem b).Has k → r.mem k = s.mem k := by
  obtain ⟨pre, ys, xs, p, rfl, hlast, hcase⟩ :=
    mallocLoop_cases hinv.linked hinv.free_ne_zero hret
  rcases hcase with ⟨rfl, hnone, hmmap⟩ | ⟨c, zs, rfl, hfit, rfl⟩
  · have hbound := hmax hnone
    rw [List.append_nil] at hinv
    exact hinv.mallocFromMmap_inv hlast hdvd hroom hn hbound hmmap hfresh
  · obtain ⟨m', hm', hnew, hkeep⟩ := hinv.mallocFromBlock_inv hlast hdvd hroom hn hfit
    rw [hm']
    exact ⟨hnew, hkeep⟩

theorem HeapInv.userMalloc_inv {fuel : Nat} {requestBlock : Nat → Nat} {r : Result}
    (hinv : HeapInv mallocHead s free) (hn : 1 ≤ n) (hmax : n ≤ 2 ^ 63)
    (hret : userMalloc fuel requestBlock mallocHead s.mem n = some r)
    (hfresh : ∀ region ∈ r.mapped, Fresh mallocHead s.regions region) :
    (∃ free', HeapInv mallocHead
      ⟨r.mem, r.mapped.toList ++ s.regions, ⟨r.ret, n⟩ :: s.live⟩ free') ∧
      ∀ b ∈ s.live, ∀ k, (liveSpan s.mem b).Has k → r.mem k = s.mem k := by
  rw [userMalloc, if_neg (by omega)] at hret
  obtain ⟨hdvd, hroom, hbound⟩ := request_size (n := n) (by omega)
  exact hinv.mallocLoop_inv hdvd hroom hn (fun _ => by omega) hret hfresh

/-- A client's writes stay inside a payload, away from every header. -/
theorem HeapInv.client_inv {b : Live} {m' : Mem} (hinv : HeapInv mallocHead s free)
    (hb : b ∈ s.live) (hwrite : ∀ x, ¬ (payload s.mem b).Has x → m' x = s.mem x) :
    HeapInv mallocHead {s with mem := m'} free := by
  obtain ⟨m, regions, live⟩ := s
  simp only at hwrite hb ⊢
  have hperm : (spans m free live).Perm (liveSpan m b :: spans m free (live.erase b)) := by
    have hmap := ((List.perm_cons_erase hb).map (liveSpan m)).append_left (free.map (freeSpan m))
    rw [List.map_cons] at hmap
    exact hmap.trans List.perm_middle
  have hapart : Apart m mallocHead free (live.erase b) (liveSpan m b) := hinv.apart hperm
  obtain ⟨-, hptr, hroom⟩ := hinv.live b hb
  simp only [sizeofMallocHeader] at hptr hroom
  have hchange : Mem.ChangesIn [payload m b] m m' := fun x hx => hwrite x (hx _ (by simp))
  have hinside : (payload m b).Inside (liveSpan m b) := by
    simp only [payload, liveSpan, Span.Inside, Live.block, sizeofMallocHeader] at hroom ⊢
    omega
  have hchange' : Mem.ChangesIn [liveSpan m b, ⟨mallocHead + 8, 8⟩] m m' :=
    hchange.mono fun t ht => by
      rw [List.mem_singleton] at ht
      exact ⟨liveSpan m b, by simp, ht ▸ hinside⟩
  have hnext : ∀ a ∈ mallocHead :: free, next m' a = next m a := by
    intro a ha
    refine hchange.readN_eq fun t ht => ?_
    rw [List.mem_singleton] at ht
    subst ht
    exact (hapart.node_range a ha).of_inside ⟨by simp, by simp⟩ hinside
  -- The written block keeps its own header, which lies before the payload.
  have hown : magicOf m' b.block = magicOf m b.block ∧ len m' b.block = len m b.block := by
    have hblock : b.ptr = b.block + 16 := by
      simp only [Live.block, sizeofMallocHeader]
      omega
    constructor <;>
    · refine hchange.readN_eq fun t ht => ?_
      rw [List.mem_singleton] at ht
      subst ht
      simp only [payload, Span.Disjoint, hblock]
      omega
  have hheaders : ∀ c ∈ live,
      magicOf m' c.block = magicOf m c.block ∧ len m' c.block = len m c.block := by
    intro c hc
    by_cases hcb : c = b
    · exact hcb ▸ hown
    · exact hapart.live_header_eq List.mem_cons_self hchange' ((List.mem_erase_of_ne hcb).mpr hc)
  have hspans : spans m' free live = spans m free live := by
    have hfree : free.map (freeSpan m') = free.map (freeSpan m) :=
      List.map_congr_left fun a ha => hapart.freeSpan_eq List.mem_cons_self hchange' ha
    have hlive : live.map (liveSpan m') = live.map (liveSpan m) :=
      List.map_congr_left fun c hc => by rw [liveSpan, liveSpan, (hheaders c hc).2]
    rw [spans, spans, hfree, hlive]
  refine ⟨hinv.regions, hinv.linked.congr hnext, ?_, ?_, ?_⟩
  · rw [hspans]
    exact hinv.tiling
  · rw [hspans]
    exact hinv.blocks
  · intro c hc
    rw [LiveOk, (hheaders c hc).1, (hheaders c hc).2]
    exact hinv.live c hc

theorem HeapInv.free_nodup (hinv : HeapInv mallocHead s free) : free.Nodup := by
  have hfree := List.pairwise_map.mp (List.pairwise_append.mp hinv.tiling.disjoint).1
  refine hfree.imp_of_mem fun {a b} ha hb hab heq => ?_
  have hpos := hinv.tiling.pos (freeSpan s.mem a)
    (List.mem_append_left _ (List.mem_map_of_mem ha))
  subst heq
  simp only [freeSpan, Span.Disjoint] at hpos hab
  omega

theorem heapInv_of_initial (hinit : Initial mallocHead s) : HeapInv mallocHead s [] := by
  obtain ⟨m, regions, live⟩ := s
  obtain ⟨hnext, rfl, rfl⟩ := hinit
  refine ⟨⟨.nil, by simp, by simp, by simp⟩, ?_, Tiling.nil, by simp [spans], by simp⟩
  exact linked_cons_cons.mpr ⟨hnext, List.isChain_singleton 0⟩

theorem heapInv_step {s' : State} (hinv : HeapInv mallocHead s free)
    (hstep : Step mallocHead s s') : ∃ free', HeapInv mallocHead s' free' := by
  cases hstep with
  | heap h =>
      cases h with
      | malloc hn hmax hret hfresh => exact (hinv.userMalloc_inv hn hmax hret hfresh).1
      | free hlive hret => exact (hinv.userFree_inv hlive hret).1
  | client hlive hwrite => exact ⟨free, hinv.client_inv hlive hwrite⟩

theorem heapInv_run {s₀ : State} (hinit : Initial mallocHead s₀)
    (hrun : Relation.ReflTransGen (Step mallocHead) s₀ s) :
    ∃ free, HeapInv mallocHead s free := by
  induction hrun with
  | refl => exact ⟨[], heapInv_of_initial hinit⟩
  | tail _ hstep ih =>
      obtain ⟨free, hinv⟩ := ih
      exact heapInv_step hinv hstep

theorem keepsLive_step {s' : State} (hinv : HeapInv mallocHead s free)
    (hstep : HeapStep mallocHead s s') : KeepsLive s s' := by
  cases hstep with
  | malloc hn hmax hret hfresh =>
      exact fun b hb _ => (hinv.userMalloc_inv hn hmax hret hfresh).2 b hb
  | free hlive hret => exact fun b _ hb => (hinv.userFree_inv hlive hret).2 b hb

theorem HeapInv.userMalloc_returns {requestBlock : Nat → Nat} (hinv : HeapInv mallocHead s free)
    (hmap : ∀ bytes, requestBlock bytes ≠ 0) :
    ∃ fuel r, userMalloc fuel requestBlock mallocHead s.mem n = some r := by
  refine ⟨free.length + 1, ?_⟩
  unfold userMalloc
  by_cases hn : n = 0
  · exact ⟨_, if_pos hn⟩
  · rw [if_neg hn]
    exact mallocLoop_returns hinv.linked hinv.free_ne_zero (Or.inr (hmap _))

theorem HeapInv.userFree_returns (hinv : HeapInv mallocHead s free) (addr : Nat) :
    ∃ fuel m', userFree fuel mallocHead s.mem addr = some m' := by
  refine ⟨free.length + 1, ?_⟩
  unfold userFree
  by_cases hskip : addr = 0 ∨ magicOf s.mem (sub64 addr sizeofMallocHeader) ≠ magic
  · exact ⟨_, if_pos hskip⟩
  · simp only [if_neg hskip]
    exact freeLoop_returns hinv.linked hinv.free_ne_zero

/-- In every run of `user_malloc`, `user_free` and client writes inside payloads, the live
blocks and the blocks on the free list tile the mapped regions, the calls leave the bytes of
all other live blocks alone, and every call returns. -/
theorem user_heap_tiled {s₀ : State} (hinit : Initial mallocHead s₀)
    (hrun : Relation.ReflTransGen (Step mallocHead) s₀ s) :
    (∃ free, HeapInv mallocHead s free ∧ free.Nodup) ∧
      (∀ s', HeapStep mallocHead s s' → KeepsLive s s') ∧
      (∀ n requestBlock, (∀ bytes, requestBlock bytes ≠ 0) →
        ∃ fuel r, userMalloc fuel requestBlock mallocHead s.mem n = some r) ∧
      ∀ b ∈ s.live, ∃ fuel m', userFree fuel mallocHead s.mem b.ptr = some m' := by
  obtain ⟨free, hinv⟩ := heapInv_run hinit hrun
  exact ⟨⟨free, hinv, hinv.free_nodup⟩, fun s' hstep => keepsLive_step hinv hstep,
    fun n requestBlock hmap => hinv.userMalloc_returns hmap,
    fun b _ => hinv.userFree_returns b.ptr⟩

/-- Eight bytes from an empty heap, with the sentinel at 64 and a page mapped at 4096. -/
theorem user_heap_tiled_first_request :
    ∃ m, userMalloc 1 (fun _ => 4096) 64 (fun _ => 0) 8 = some ⟨4112, m, some ⟨4096, 4096⟩⟩ ∧
      ∃ free, HeapInv 64 ⟨m, [⟨4096, 4096⟩], [⟨4112, 8⟩]⟩ free ∧ free.Nodup := by
  have hsplit : ∀ requestBlock : Nat → Nat, requestBlock 4096 = 4096 →
      ∃ m, mallocFromMmap requestBlock (fun _ => 0) 64 24 =
        some ⟨4096 + 16, m, some ⟨4096, 4096⟩⟩ := by
    intro requestBlock haddr
    have htotal : alignUp 24 pageSizeBytes = 4096 := by decide
    obtain ⟨m, hm, -⟩ := mallocFromMmap_split (m := fun _ => 0) (p := 64) haddr htotal (by decide)
      (by decide) (by decide) (by decide) (by decide) (by decide)
    exact ⟨m, hm⟩
  obtain ⟨m, hm⟩ := hsplit (fun _ => 4096) rfl
  have hnull : next (fun _ => 0) 64 = 0 := rfl
  have hsize : alignUp (add64 8 (max sizeofMallocHeader sizeofFreeBlock)) 8 = 24 := by decide
  have hret : userMalloc 1 (fun _ => 4096) 64 (fun _ => 0) 8 =
      some ⟨4112, m, some ⟨4096, 4096⟩⟩ := by
    unfold userMalloc
    rw [if_neg (by decide), hsize]
    exact (if_pos hnull).trans hm
  have hinit : Initial 64 ⟨fun _ => 0, [], []⟩ := ⟨hnull, rfl, rfl⟩
  refine ⟨m, hret, (user_heap_tiled hinit
    (Relation.ReflTransGen.single (Step.heap
      (HeapStep.malloc (by decide) (by decide) hret ?_)))).1⟩
  intro region hregion
  obtain rfl : ⟨4096, 4096⟩ = region := Option.some.inj hregion
  exact ⟨by decide, by decide, by decide, by simp, by decide⟩

end Operations

end Tellurium.UserHeap
