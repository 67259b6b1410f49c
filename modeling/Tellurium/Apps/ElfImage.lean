import Tellurium.Apps.Elf

/-!
What a process sees of its program after `elf_load`. An image gives pages their bytes; loading
a segment replaces all pages it touches, so that on a page that several segments touch only the
last one is left. The loader refines this: the frames its mappings lead to hold the image.
-/

namespace Tellurium.Elf

open Tellurium.Lib Tellurium.Vmm

/-- A segment as it was copied: `bytes k` is the byte stored for `vaddr + k`. -/
structure Loaded where
  vaddr : Nat
  memsz : Nat
  bytes : Nat → UInt8

namespace Loaded

def firstPage (l : Loaded) : Nat := l.vaddr / 4096
def pages (l : Loaded) : Nat := pageCount (l.vaddr % 4096 + l.memsz)

/-- The segment has mapped this page. -/
def Touches (l : Loaded) (p : Nat) : Prop := l.firstPage ≤ p ∧ p < l.firstPage + l.pages

instance (l : Loaded) (p : Nat) : Decidable (l.Touches p) := inferInstanceAs (Decidable (_ ∧ _))

/-- The bytes of its pages: zero around the segment. -/
def byteAt (l : Loaded) (a : Nat) : UInt8 :=
  if l.vaddr ≤ a ∧ a < l.vaddr + l.memsz then l.bytes (a - l.vaddr) else 0

end Loaded

/-- The bytes of the pages that were loaded. -/
def Image : Type := Nat → Option (Nat → UInt8)

namespace Image

def empty : Image := fun _ => none

def load (img : Image) (l : Loaded) : Image := fun p =>
  if l.Touches p then some fun t => l.byteAt (4096 * p + t) else img p

/-- The byte at an address. -/
def get (img : Image) (a : Nat) : Option UInt8 := (img (a / 4096)).map fun page => page (a % 4096)

variable {img : Image} {l : Loaded} {a : Nat}

theorem get_load (img : Image) (l : Loaded) (a : Nat) :
    (img.load l).get a = if l.Touches (a / 4096) then some (l.byteAt a) else img.get a := by
  rw [get, load]
  split_ifs
  · exact congrArg (fun a => some (l.byteAt a)) (Nat.div_add_mod a 4096)
  · rfl

/-- Beside the segments loaded later, a page that one of them touches reads zero, and any other
page what it read before. -/
theorem get_foldl {ls : List Loaded} (hbeside : ∀ l ∈ ls, ¬ (l.vaddr ≤ a ∧ a < l.vaddr + l.memsz)) :
    (ls.foldl load img).get a =
      if ∃ l ∈ ls, l.Touches (a / 4096) then some 0 else img.get a := by
  induction ls generalizing img with
  | nil => simp
  | cons l rest ih =>
      have hzero : l.byteAt a = 0 := if_neg (hbeside l List.mem_cons_self)
      rw [List.foldl_cons, ih fun l' hl' => hbeside l' (List.mem_cons_of_mem _ hl'), get_load, hzero]
      by_cases hrest : ∃ l ∈ rest, l.Touches (a / 4096)
      · rw [if_pos hrest, if_pos ((List.exists_mem_cons_iff ..).mpr (.inr hrest))]
      · rw [if_neg hrest]
        refine if_congr ?_ rfl rfl
        rw [List.exists_mem_cons_iff]
        exact ⟨.inl, fun h => h.resolve_right hrest⟩

end Image

namespace Phdr

def firstPage (ph : Phdr) : Nat := ph.pVaddr / 4096
def pages (ph : Phdr) : Nat := pageCount (ph.pVaddr % 4096 + ph.pMemsz)

def Touches (ph : Phdr) (p : Nat) : Prop := ph.firstPage ≤ p ∧ p < ph.firstPage + ph.pages

instance (ph : Phdr) (p : Nat) : Decidable (ph.Touches p) := inferInstanceAs (Decidable (_ ∧ _))

/-- A segment in the lower half that is shorter than the 2 GiB an `int` can count. -/
structure Ordinary (ph : Phdr) : Prop where
  lower : ph.pVaddr + ph.pMemsz ≤ 2 ^ 47
  short : 4096 * ph.pages < 2 ^ 31

theorem offset_eq (ph : Phdr) : ph.offset = ph.pVaddr % 4096 :=
  Nat.and_two_pow_sub_one_eq_mod ph.pVaddr 12

theorem numPages_eq (n : Nat) :
    (if n % pageSize ≠ 0 then n / pageSize + 1 else n / pageSize) = pageCount n := by
  split_ifs with hrest
  · simp only [pageCount, pageSize] at hrest ⊢
    omega
  · simp only [pageCount, pageSize] at hrest ⊢
    omega

theorem offset_add_le (ph : Phdr) : ph.offset + ph.pMemsz ≤ 4096 * ph.pages := by
  rw [offset_eq]
  simp only [pages, pageCount, pageSize]
  omega

theorem sectionBytes_eq {ph : Phdr} (hshort : 4096 * ph.pages < 2 ^ 31) :
    ph.sectionBytes = 4096 * ph.pages := by
  have hsize : ph.sizeBytes = ph.pVaddr % 4096 + ph.pMemsz := by
    have hle := ph.offset_add_le
    rw [sizeBytes, add64, Nat.mod_eq_of_lt (by omega), offset_eq]
  have hnum : ph.numPages = ph.pages := by
    rw [numPages, hsize, numPages_eq]
    exact Nat.mod_eq_of_lt (by rw [← pages]; omega)
  rw [sectionBytes, hnum, pageSize, Nat.mul_comm, intTo64_eq hshort]

theorem vmmFlags_ok (ph : Phdr) : ph.vmmFlags < 2 ^ 64 ∧ ph.vmmFlags &&& pmlPresent ≠ 0 ∧
    ph.vmmFlags &&& pmlPhysicalAddress = 0 := by
  rw [vmmFlags]
  split_ifs
  · decide
  · decide
  · decide
  · decide

end Phdr

/-- A segment with the buffer that `kmalloc` answers for it. -/
structure Load where
  ph : Phdr
  addr : Nat

def Load.span (l : Load) : Span := ⟨l.addr, 4096 * l.ph.pages⟩

/-- A buffer of whole pages in the direct map. -/
structure Load.Ok (hhdm : Nat) (l : Load) : Prop where
  nonnull : l.addr ≠ 0
  above : hhdm ≤ l.addr
  aligned : 0 < l.ph.pages → 4096 ∣ l.addr - hhdm
  physical : l.addr - hhdm + 4096 * l.ph.pages ≤ 2 ^ 48
  below : l.addr + 4096 * l.ph.pages + 4096 ≤ 2 ^ 64

/-- What the loader's memory must not share: the buffers, the file, and the frames that are
page tables or will become some. -/
structure Apart (hhdm : Nat) (table : Frame → Prop) (file : Span) (all : List Load) : Prop where
  fileTable : ∀ e, table e → file.Disjoint ⟨tableBase hhdm e, pageSize⟩
  fileBuffer : ∀ l ∈ all, file.Disjoint l.span
  buffers : all.Pairwise fun l l' => l.span.Disjoint l'.span
  bufferTable : ∀ l ∈ all, ∀ e, table e → l.span.Disjoint ⟨tableBase hhdm e, pageSize⟩

/-- Memory that the loader does not write. -/
def Free (hhdm : Nat) (table : Frame → Prop) (all : List Load) (x : Nat) : Prop :=
  (∀ l ∈ all, ¬ l.span.Has x) ∧ ∀ e, table e → ¬ InFrame hhdm e x

theorem Apart.file_free {hhdm : Nat} {table : Frame → Prop} {file : Span} {all : List Load}
    (h : Apart hhdm table file all) {x : Nat} (hx : file.Has x) : Free hhdm table all x :=
  ⟨fun l hl => Span.not_has_of_disjoint (h.fileBuffer l hl) hx,
    fun e he => Span.not_has_of_disjoint (h.fileTable e he) hx⟩

theorem vaddr_page {ph : Phdr} (hlower : ph.pVaddr + ph.pMemsz ≤ 2 ^ 47) {k : Nat}
    (hk : k < ph.pages) : page (ph.pVaddr - ph.offset + 4096 * k) = ph.firstPage + k := by
  rw [Phdr.offset_eq]
  simp only [Phdr.pages, pageCount, pageSize] at hk
  simp only [page, Phdr.firstPage]
  omega

/-- The segment's buffer is filled: zeros, and then the copied bytes. -/
def Load.fill (l : Load) (src : Nat) (m : Mem) : Mem :=
  (m.memset l.addr 0 (4096 * l.ph.pages)).memcpy (l.addr + l.ph.offset) src l.ph.pMemsz

theorem Load.fill_out (l : Load) (src : Nat) (m : Mem) {x : Nat} (hx : ¬ l.span.Has x) :
    l.fill src m x = m x := by
  have hsize := l.ph.offset_add_le
  simp only [Load.span, Span.Has] at hx
  rw [Load.fill, Mem.memcpy_out _ (by omega), Mem.memset_out _ _ (by omega)]

section Segment

variable {hhdm data : Nat} {root : Frame} {table : Frame → Prop} {m : Mem} {frames : List Frame}
  {l : Load} {buffers : List Nat}

theorem loadSegment_eq {supply : List Nat} (hl : l.Ok hhdm) (hshort : 4096 * l.ph.pages < 2 ^ 31) :
    loadSegment hhdm (tableBase hhdm root) data l.ph ⟨m, supply, l.addr :: buffers⟩ =
      (mapSection hhdm (l.fill (add64 data l.ph.pOffset) m, supply) (tableBase hhdm root)
        (l.ph.pVaddr - l.ph.offset) (l.addr - hhdm + l.ph.offset) (4096 * l.ph.pages)
        l.ph.vmmFlags).map fun r => (elfSuccess, ⟨r.1, r.2, buffers⟩) := by
  have hpaddr : sub64 (l.addr + l.ph.offset) hhdm = l.addr - hhdm + l.ph.offset := by
    have habove := hl.above
    have hbelow := hl.below
    rw [Phdr.offset_eq, sub64_eq (by omega) (by omega)]
    omega
  rw [loadSegment, Phdr.sectionBytes_eq hshort]
  dsimp only
  rw [if_neg hl.nonnull, hpaddr, Load.fill]

theorem Load.Ok.paddr_lt (hl : l.Ok hhdm) : l.addr - hhdm + l.ph.offset < 2 ^ 64 := by
  have hbelow := hl.below
  rw [Phdr.offset_eq]
  omega

theorem Phdr.Ordinary.vaddr_end {ph : Phdr} (hord : ph.Ordinary) :
    ph.pVaddr - ph.offset + 4096 * ph.pages ≤ 2 ^ 64 - 4096 := by
  have hlower := hord.lower
  have hshort := hord.short
  omega

/-- Filling the buffer changes no table. -/
theorem Load.fill_tables (src : Nat)
    (htable : ∀ e, Radix.Reaches nextFrame (view hhdm m) root 3 e ∨ e ∈ frames → table e)
    (hbuffer : ∀ e, table e → l.span.Disjoint ⟨tableBase hhdm e, pageSize⟩) :
    ∀ e, Radix.Reaches nextFrame (view hhdm m) root 3 e →
      ∀ x, InFrame hhdm e x → l.fill src m x = m x :=
  fun e he _ hx => l.fill_out src m fun hspan =>
    Span.not_has_of_disjoint (hbuffer e (htable e (.inl he))) hspan hx

/-- The buffer is filled, and then mapped page by page. -/
theorem loadSegment_grown {P : List (Fin 512) → Prop} {r : Nat × LoadState} (hhhdm : hhdm < 2 ^ 64)
    (hok : TablesOk hhdm m root frames)
    (htable : ∀ e, Radix.Reaches nextFrame (view hhdm m) root 3 e ∨ e ∈ frames → table e)
    (hl : l.Ok hhdm) (hshort : 4096 * l.ph.pages < 2 ^ 31)
    (hend : l.ph.pVaddr - l.ph.offset + 4096 * l.ph.pages ≤ 2 ^ 64 - 4096)
    (hP : ∀ k < l.ph.pages, ∀ is, is <+: path (l.ph.pVaddr - l.ph.offset + 4096 * k) → P is)
    (hbuffer : ∀ e, table e → l.span.Disjoint ⟨tableBase hhdm e, pageSize⟩)
    (hret : loadSegment hhdm (tableBase hhdm root) data l.ph
      ⟨m, frames.map (tableBase hhdm), l.addr :: buffers⟩ = some r) :
    ∃ m' frames', r = (elfSuccess, ⟨m', frames'.map (tableBase hhdm), buffers⟩) ∧
      Grown hhdm P root (l.fill (add64 data l.ph.pOffset) m) m' frames frames' ∧
      ∀ w, Covers hhdm root (l.fill (add64 data l.ph.pOffset) m) m' (l.ph.pVaddr - l.ph.offset)
        (l.addr - hhdm + l.ph.offset) l.ph.vmmFlags l.ph.pages w := by
  obtain ⟨hflags, hpresent, -⟩ := l.ph.vmmFlags_ok
  have hcount : pageCount (4096 * l.ph.pages) = l.ph.pages := by
    simp only [pageCount, pageSize]
    omega
  rw [loadSegment_eq hl hshort] at hret
  obtain ⟨s, hmap, hret⟩ := Option.map_eq_some_iff.mp hret
  obtain ⟨m', frames', rfl, hgrown, hcover⟩ := mapSection_grown hhhdm hend hflags hpresent hl.paddr_lt
    (hok.of_agree (l.fill_tables _ htable hbuffer)) (by rwa [hcount]) hmap
  rw [hcount] at hcover
  exact ⟨m', frames', hret.symm, hgrown, hcover⟩

theorem loadSegment_total (data : Nat) (buffers : List Nat) (hhhdm : hhdm < 2 ^ 64) (hok : TablesOk hhdm m root frames)
    (htable : ∀ e, Radix.Reaches nextFrame (view hhdm m) root 3 e ∨ e ∈ frames → table e)
    (hl : l.Ok hhdm) (hshort : 4096 * l.ph.pages < 2 ^ 31)
    (hend : l.ph.pVaddr - l.ph.offset + 4096 * l.ph.pages ≤ 2 ^ 64 - 4096)
    (hbuffer : ∀ e, table e → l.span.Disjoint ⟨tableBase hhdm e, pageSize⟩)
    (hsupply : 3 * l.ph.pages ≤ frames.length) :
    ∃ s, loadSegment hhdm (tableBase hhdm root) data l.ph
        ⟨m, frames.map (tableBase hhdm), l.addr :: buffers⟩ = some (elfSuccess, s) ∧
      frames.length ≤ s.supply.length + 3 * l.ph.pages := by
  have hcount : pageCount (4096 * l.ph.pages) = l.ph.pages := by
    simp only [pageCount, pageSize]
    omega
  obtain ⟨m', frames', hmap, -, hlength⟩ := mapSection_total hhhdm hend (l.ph.vmmFlags_ok).1 hl.paddr_lt
    (hok.of_agree (l.fill_tables (add64 data l.ph.pOffset) htable hbuffer)) (by rwa [hcount])
  rw [hcount] at hlength
  refine ⟨_, by rw [loadSegment_eq hl hshort, hmap]; rfl, ?_⟩
  simpa using hlength

/-- One segment: its buffer holds zeros around the copied bytes, its pages show that buffer,
other pages what they showed, and nothing else but tables has changed. -/
theorem loadSegment_spec {r : Nat × LoadState} (hhhdm : hhdm < 2 ^ 64)
    (hok : TablesOk hhdm m root frames)
    (htable : ∀ e, Radix.Reaches nextFrame (view hhdm m) root 3 e ∨ e ∈ frames → table e)
    (hl : l.Ok hhdm) (hord : l.ph.Ordinary)
    (hbuffer : ∀ e, table e → l.span.Disjoint ⟨tableBase hhdm e, pageSize⟩)
    (hret : loadSegment hhdm (tableBase hhdm root) data l.ph
      ⟨m, frames.map (tableBase hhdm), l.addr :: buffers⟩ = some r) :
    ∃ m' frames', r = (elfSuccess, ⟨m', frames'.map (tableBase hhdm), buffers⟩) ∧
      TablesOk hhdm m' root frames' ∧
      (∀ e, Radix.Reaches nextFrame (view hhdm m') root 3 e ∨ e ∈ frames' → table e) ∧
      (∀ x, ¬ l.span.Has x → (∀ e, table e → ¬ InFrame hhdm e x) → m' x = m x) ∧
      (∀ t < 4096 * l.ph.pages, ¬ (l.ph.offset ≤ t ∧ t < l.ph.offset + l.ph.pMemsz) →
        m' (l.addr + t) = 0) ∧
      (∀ k < l.ph.pMemsz, ¬ l.span.Has (add64 data l.ph.pOffset + k) →
        m' (l.addr + l.ph.offset + k) = m (add64 data l.ph.pOffset + k)) ∧
      ∀ p < 2 ^ 36,
        (l.ph.Touches p ∧ ∃ entry, pagesOf hhdm m' root p = some entry ∧
          entry &&& pmlPhysicalAddress = l.addr - hhdm + 4096 * (p - l.ph.firstPage)) ∨
        ¬ l.ph.Touches p ∧ pagesOf hhdm m' root p = pagesOf hhdm m root p := by
  have hsize := l.ph.offset_add_le
  have hlower := hord.lower
  have hphysical := l.ph.vmmFlags_ok.2.2
  have hagree := l.fill_tables (add64 data l.ph.pOffset) htable hbuffer
  obtain ⟨m', frames', hr, hgrown, hcover⟩ := loadSegment_grown (P := fun _ => True) hhhdm hok htable
    hl hord.short hord.vaddr_end (fun _ _ _ _ => trivial) hbuffer hret
  obtain ⟨hreach, hsame⟩ := hgrown.kept hagree htable
  have hspan : ∀ x, l.span.Has x → m' x = l.fill (add64 data l.ph.pOffset) m x :=
    fun x hx => hsame x fun e he hin => Span.not_has_of_disjoint (hbuffer e he) hx hin
  refine ⟨m', frames', hr, hgrown.ok, hreach, ?_, ?_, ?_, ?_⟩
  · intro x hx htab
    rw [hsame x htab, l.fill_out _ _ hx]
  · intro t ht hbeside
    have hin : l.span.Has (l.addr + t) := ⟨Nat.le_add_right _ _, Nat.add_lt_add_left ht _⟩
    rw [hspan _ hin, Load.fill, Mem.memcpy_out _ (by omega), Mem.memset_apply, if_pos (by omega)]
  · intro k hk hsrc
    have hin : l.span.Has (l.addr + l.ph.offset + k) := by
      simp only [Load.span, Span.Has]
      omega
    simp only [Load.span, Span.Has] at hsrc
    rw [hspan _ hin, Load.fill, Mem.memcpy_get _ (by omega) hk, Mem.memset_out _ _ (by omega)]
  · intro p hp
    have hpage : page (4096 * p) = p := by
      simp only [page]
      omega
    have hpages := hcover (4096 * p)
    rw [Covers, hpage, pagesOf_agree hagree] at hpages
    rcases hpages with ⟨k, hk, hkp, hentry⟩ | ⟨hnone, hentry⟩
    · rw [vaddr_page hlower hk] at hkp
      refine .inl ⟨⟨by omega, by omega⟩, _, hentry, ?_⟩
      have haligned := hl.aligned (by omega)
      have hphys := hl.physical
      have habove := hl.above
      have hbelow := hl.below
      have hshort := hord.short
      have hoff : l.ph.offset < 4096 := by
        rw [Phdr.offset_eq]
        omega
      rw [Nat.and_or_distrib_right, hphysical, Nat.or_zero, and_physicalAddress]
      simp only [pageSize]
      omega
    · refine .inr ⟨?_, hentry⟩
      rintro ⟨hlo, hhi⟩
      refine hnone (p - l.ph.firstPage) (by omega) ?_
      rw [vaddr_page hlower (by omega)]
      omega

end Segment

/-- The segment as it is copied from memory that holds the file at `data`. -/
def Phdr.loaded (m : Mem) (data : Nat) (ph : Phdr) : Loaded where
  vaddr := ph.pVaddr
  memsz := ph.pMemsz
  bytes := fun k => m (data + ph.pOffset + k)

theorem Phdr.loaded_byteAt (m : Mem) (data : Nat) (ph : Phdr) (n t : Nat) :
    (ph.loaded m data).byteAt (4096 * (ph.firstPage + n) + t) =
      if ph.offset ≤ 4096 * n + t ∧ 4096 * n + t < ph.offset + ph.pMemsz then
        m (data + ph.pOffset + (4096 * n + t - ph.offset)) else 0 := by
  have haddr : 4096 * (ph.firstPage + n) + t + ph.offset = ph.pVaddr + (4096 * n + t) := by
    rw [Phdr.offset_eq, Phdr.firstPage]
    omega
  have hsub : 4096 * (ph.firstPage + n) + t - ph.pVaddr = 4096 * n + t - ph.offset := by omega
  refine if_congr ?_ (congrArg (fun k => m (data + ph.pOffset + k)) hsub) rfl
  simp only [Phdr.loaded]
  omega

theorem Load.span_has {n t : Nat} (l : Load) (hn : n < l.ph.pages) (ht : t < 4096) :
    l.span.Has (l.addr + 4096 * n + t) := by
  simp only [Load.span, Span.Has]
  omega

section Run

variable {hhdm data : Nat} {root : Frame} {table : Frame → Prop} {file : Span} {all : List Load} {m₁ m : Mem}
  {frames : List Frame} {done rest : List Load} {l : Load} {img : Image}

/-- After the segments of `done` were loaded into memory that was `m₁`: each page of the image is
mapped to a page of one of their buffers that holds it. -/
structure Inv (hhdm : Nat) (root : Frame) (table : Frame → Prop) (all : List Load) (m₁ m : Mem)
    (frames : List Frame) (done : List Load) (img : Image) : Prop where
  ok : TablesOk hhdm m root frames
  tables : ∀ e, Radix.Reaches nextFrame (view hhdm m) root 3 e ∨ e ∈ frames → table e
  free : ∀ x, Free hhdm table all x → m x = m₁ x
  shows : ∀ p c, img p = some c → p < 2 ^ 36 ∧ ∃ l ∈ done, ∃ n < l.ph.pages, ∃ entry,
    pagesOf hhdm m root p = some entry ∧
    entry &&& pmlPhysicalAddress = l.addr - hhdm + 4096 * n ∧
    ∀ t < 4096, m (l.addr + 4096 * n + t) = c t

theorem Inv.after_loadSegment {r : Nat × LoadState} {buffers : List Nat} (hhhdm : hhdm < 2 ^ 64)
    (h : Inv hhdm root table all m₁ m frames done img) (hall : all = done ++ l :: rest)
    (hapart : Apart hhdm table file all) (hl : l.Ok hhdm) (hord : l.ph.Ordinary)
    (hdata : data + l.ph.pOffset < 2 ^ 64)
    (hsrc : ∀ k < l.ph.pMemsz, Free hhdm table all (data + l.ph.pOffset + k))
    (hret : loadSegment hhdm (tableBase hhdm root) data l.ph
      ⟨m, frames.map (tableBase hhdm), l.addr :: buffers⟩ = some r) :
    ∃ m' frames', r = (elfSuccess, ⟨m', frames'.map (tableBase hhdm), buffers⟩) ∧
      Inv hhdm root table all m₁ m' frames' (done ++ [l]) (img.load (l.ph.loaded m₁ data)) := by
  have hmem : l ∈ all := by simp [hall]
  obtain ⟨m', frames', hr, hok, htables, hrest, hzero, hbytes, hpages⟩ :=
    loadSegment_spec hhhdm h.ok h.tables hl hord (hapart.bufferTable l hmem) hret
  have hsource : add64 data l.ph.pOffset = data + l.ph.pOffset := Nat.mod_eq_of_lt hdata
  rw [hsource] at hbytes
  refine ⟨m', frames', hr, hok, htables, ?_, ?_⟩
  · intro x hx
    rw [hrest x (hx.1 l hmem) hx.2]
    exact h.free x hx
  · intro p c hc
    rw [Image.load] at hc
    split_ifs at hc with htouch
    · obtain ⟨hfirst, hlast⟩ : l.ph.Touches p := htouch
      have hlower := hord.lower
      have hp : p < 2 ^ 36 := by
        simp only [Phdr.firstPage, Phdr.pages, pageCount, pageSize] at hlast
        omega
      rcases hpages p hp with ⟨-, entry, hentry, hphys⟩ | ⟨hnot, -⟩
      · have hn : p - l.ph.firstPage < l.ph.pages := by omega
        refine ⟨hp, l, by simp, p - l.ph.firstPage, hn, entry, hentry, hphys, ?_⟩
        intro t ht
        have hpage := l.ph.loaded_byteAt m₁ data (p - l.ph.firstPage) t
        rw [Nat.add_sub_cancel' hfirst] at hpage
        rw [← congrFun (Option.some.inj hc) t, hpage]
        split_ifs with hin
        · have hbyte := hbytes (4096 * (p - l.ph.firstPage) + t - l.ph.offset) (by omega)
            ((hsrc _ (by omega)).1 l hmem)
          rw [h.free _ (hsrc _ (by omega)), Nat.add_assoc l.addr, Nat.add_sub_cancel' hin.1,
            ← Nat.add_assoc] at hbyte
          exact hbyte
        · have hbyte := hzero (4096 * (p - l.ph.firstPage) + t) (by omega) hin
          rwa [← Nat.add_assoc] at hbyte
      · exact absurd ⟨hfirst, hlast⟩ hnot
    · obtain ⟨hp, l', hl', n, hn, entry, hentry, hphys, hshown⟩ := h.shows p c hc
      refine ⟨hp, l', by simp [hl'], n, hn, entry, ?_, hphys, ?_⟩
      · rcases hpages p hp with ⟨hyes, -⟩ | ⟨-, hsame⟩
        · exact absurd hyes htouch
        · rw [hsame, hentry]
      · intro t ht
        have hmem' : l' ∈ all := by simp [hall, hl']
        have hin := l'.span_has hn ht
        have hdisj : l'.span.Disjoint l.span := by
          have hpair := hapart.buffers
          rw [hall, List.pairwise_append] at hpair
          exact hpair.2.2 l' hl' l List.mem_cons_self
        rw [hrest _ (Span.not_has_of_disjoint hdisj hin) fun e he =>
          Span.not_has_of_disjoint (hapart.bufferTable l' hmem' e he) hin]
        exact hshown t ht

end Run

namespace ElfFile

def phdrAddr (f : ElfFile) (i : Nat) : Nat := ePhoff f.bytes 0 + i * ePhentsize f.bytes 0

/-- The program headers, read from the file itself. -/
def phdrs (f : ElfFile) : List Phdr :=
  (List.range (ePhnum f.bytes 0)).map fun i => readPhdr f.bytes (f.phdrAddr i)

def segments (f : ElfFile) : List Phdr := f.phdrs.filter (·.pType = ptLoad)

/-- The header and the program headers lie inside the file. -/
structure Headers (f : ElfFile) : Prop where
  header : 64 ≤ f.size
  phdrs : ∀ i < ePhnum f.bytes 0, f.phdrAddr i + 56 ≤ f.size

/-- The segments' bytes lie inside the file too, and the segments are disjoint ranges of the lower
half. -/
structure Sound (f : ElfFile) : Prop extends Headers f where
  inside : ∀ ph ∈ f.segments, ph.pOffset + ph.pFilesz ≤ f.size
  sizes : ∀ ph ∈ f.segments, ph.pFilesz ≤ ph.pMemsz
  lower : ∀ ph ∈ f.segments, ph.pVaddr + ph.pMemsz ≤ 2 ^ 47
  disjoint : f.segments.Pairwise fun ph ph' =>
    ∀ a, Span.Has ⟨ph.pVaddr, ph.pMemsz⟩ a → ¬ Span.Has ⟨ph'.pVaddr, ph'.pMemsz⟩ a

/-- The `int` computations of the loader do not overflow. -/
structure IntSized (f : ElfFile) : Prop where
  table : ePhnum f.bytes 0 * ePhentsize f.bytes 0 < 2 ^ 31
  short : ∀ ph ∈ f.segments, 4096 * ph.pages < 2 ^ 31

/-- The file lies in memory at `data`. -/
def At (f : ElfFile) (m : Mem) (data : Nat) : Prop := ∀ k < f.size, m (data + k) = f.bytes k

variable {f : ElfFile} {m : Mem} {data : Nat}

theorem readTo_at (f : ElfFile) (data : Nat) (m : Mem) : f.At (f.readTo data m) data := by
  intro k hk
  rw [readTo, if_pos ⟨Nat.le_add_right _ _, Nat.add_lt_add_left hk _⟩, Nat.add_sub_cancel_left]

namespace At

theorem readN_eq (h : f.At m data) {a n : Nat} (ha : a + n ≤ f.size) :
    m.readN (data + a) n = f.bytes.readN a n :=
  Mem.readN_shift fun i hi => by rw [Nat.add_assoc, h (a + i) (by omega)]

theorem ePhnum_eq (h : f.At m data) (hheader : 64 ≤ f.size) : ePhnum m data = ePhnum f.bytes 0 :=
  h.readN_eq (by omega)

theorem elfGetPhdr_eq (h : f.At m data) (hheaders : f.Headers)
    (htable : ePhnum f.bytes 0 * ePhentsize f.bytes 0 < 2 ^ 31) (hdata : data + f.size < 2 ^ 64) {i : Nat} (hi : i < ePhnum f.bytes 0) :
    elfGetPhdr m data i = data + f.phdrAddr i := by
  have hheader := hheaders.header
  have hinside := hheaders.phdrs i hi
  have hphoff : ePhoff m data = ePhoff f.bytes 0 := h.readN_eq (by omega)
  have hsize : ePhentsize m data = ePhentsize f.bytes 0 := h.readN_eq (by omega)
  have hproduct : i * ePhentsize f.bytes 0 < 2 ^ 31 :=
    Nat.lt_of_le_of_lt (Nat.mul_le_mul_right _ hi.le) htable
  rw [elfGetPhdr, hphoff, hsize, intTo64_eq hproduct]
  rw [phdrAddr] at hinside ⊢
  simp only [add64]
  omega

theorem readPhdr_eq (h : f.At m data) {a : Nat} (ha : a + 48 ≤ f.size) :
    readPhdr m (data + a) = readPhdr f.bytes a := by
  have hread : ∀ off n, off + n ≤ 48 → m.readN (data + a + off) n = f.bytes.readN (a + off) n := by
    intro off n hoff
    rw [Nat.add_assoc]
    exact h.readN_eq (by omega)
  simp only [readPhdr, Mem.read64]
  rw [hread 4 4 (by omega), hread 8 8 (by omega), hread 16 8 (by omega), hread 32 8 (by omega),
    hread 40 8 (by omega), h.readN_eq (by omega)]

/-- The header that the loader reads in iteration `i`. -/
theorem header_eq (h : f.At m data) (hheaders : f.Headers)
    (htable : ePhnum f.bytes 0 * ePhentsize f.bytes 0 < 2 ^ 31) (hdata : data + f.size < 2 ^ 64)
    {i : Nat} (hi : i < ePhnum f.bytes 0) :
    readPhdr m (elfGetPhdr m data i) = readPhdr f.bytes (f.phdrAddr i) := by
  have hinside := hheaders.phdrs i hi
  rw [h.elfGetPhdr_eq hheaders htable hdata hi, h.readPhdr_eq (by omega)]

theorem elfVerifyHeader_eq (h : f.At m data) (hheader : 64 ≤ f.size) :
    elfVerifyHeader m data = elfVerifyHeader f.bytes 0 := by
  have hbyte : ∀ k < 64, m (data + k) = f.bytes (0 + k) := by
    intro k hk
    rw [Nat.zero_add]
    exact h k (by omega)
  have htype : eType m data = eType f.bytes 0 := h.readN_eq (by omega)
  have hmachine : eMachine m data = eMachine f.bytes 0 := h.readN_eq (by omega)
  have hversion : eVersion m data = eVersion f.bytes 0 := h.readN_eq (by omega)
  rw [elfVerifyHeader, elfVerifyHeader, htype, hmachine, hversion, hbyte 1 (by decide),
    hbyte 2 (by decide), hbyte 3 (by decide), hbyte 4 (by decide), hbyte 5 (by decide),
    hbyte 7 (by decide), hbyte 8 (by decide), show m data = f.bytes 0 from hbyte 0 (by decide)]

end At

theorem phdrs_drop {i : Nat} (hi : i < ePhnum f.bytes 0) :
    f.phdrs.drop i = readPhdr f.bytes (f.phdrAddr i) :: f.phdrs.drop (i + 1) := by
  have hlength : i < f.phdrs.length := by simpa [phdrs] using hi
  rw [List.drop_eq_getElem_cons hlength]
  simp [phdrs]

theorem phdrs_drop_end {i : Nat} (hi : ePhnum f.bytes 0 ≤ i) : f.phdrs.drop i = [] :=
  List.drop_eq_nil_of_le (by simpa [phdrs] using hi)

end ElfFile

section Loop

variable {hhdm data : Nat} {root : Frame} {table : Frame → Prop} {all : List Load} {m₁ : Mem}
  {f : ElfFile}

/-- What the loader relies on: the buffers, the file in memory, and that nothing it copies from
is written meanwhile. -/
structure Setup (hhdm data : Nat) (table : Frame → Prop) (all : List Load) (m₁ : Mem)
    (f : ElfFile) : Prop where
  sound : f.Sound
  sized : f.IntSized
  fits : data + f.size < 2 ^ 64
  loads : all.map Load.ph = f.segments
  answers : ∀ l ∈ all, l.Ok hhdm
  apart : Apart hhdm table ⟨data, f.size⟩ all
  start : f.At m₁ data
  sources : ∀ l ∈ all, ∀ k < l.ph.pMemsz, Free hhdm table all (data + l.ph.pOffset + k)

namespace Setup

theorem segment (h : Setup hhdm data table all m₁ f) {l : Load} (hl : l ∈ all) :
    l.ph ∈ f.segments := h.loads ▸ List.mem_map_of_mem hl

theorem ordinary (h : Setup hhdm data table all m₁ f) {l : Load} (hl : l ∈ all) :
    l.ph.Ordinary :=
  ⟨h.sound.lower _ (h.segment hl), h.sized.short _ (h.segment hl)⟩

theorem file_at (h : Setup hhdm data table all m₁ f) {m : Mem} {frames : List Frame}
    {done : List Load} {img : Image} (hinv : Inv hhdm root table all m₁ m frames done img) :
    f.At m data := by
  intro k hk
  rw [hinv.free _ (h.apart.file_free ⟨Nat.le_add_right _ _, Nat.add_lt_add_left hk _⟩)]
  exact h.start k hk

theorem source_lt (h : Setup hhdm data table all m₁ f) {l : Load} (hl : l ∈ all) :
    data + l.ph.pOffset < 2 ^ 64 := by
  have hinside := h.sound.inside l.ph (h.segment hl)
  have hfits := h.fits
  omega

end Setup

/-- One round of the loop, for a file in memory and the segments `rest` that are left: it is
over, it skips a header, or it loads the next segment. -/
theorem loadSegments_cases (hhdm pml4Base fuel : Nat) {i : Nat} {s : LoadState} {rest : List Load}
    (hheaders : f.Headers) (htable : ePhnum f.bytes 0 * ePhentsize f.bytes 0 < 2 ^ 31)
    (hfits : data + f.size < 2 ^ 64) (hat : f.At s.mem data)
    (hrest : rest.map Load.ph = (f.phdrs.drop i).filter (·.pType = ptLoad)) :
    (rest = [] ∧ loadSegments hhdm pml4Base data (fuel + 1) i s = some (elfSuccess, s)) ∨
      i < ePhnum f.bytes 0 ∧
        ((rest.map Load.ph = (f.phdrs.drop (i + 1)).filter (·.pType = ptLoad) ∧
          loadSegments hhdm pml4Base data (fuel + 1) i s =
            loadSegments hhdm pml4Base data fuel (i + 1) s) ∨
        ∃ l rest', rest = l :: rest' ∧
          rest'.map Load.ph = (f.phdrs.drop (i + 1)).filter (·.pType = ptLoad) ∧
          l.ph ∈ f.segments ∧
          loadSegments hhdm pml4Base data (fuel + 1) i s =
            (loadSegment hhdm pml4Base data l.ph s).bind fun r =>
              if r.1 = elfErr then some (elfErr, r.2)
              else loadSegments hhdm pml4Base data fuel (i + 1) r.2) := by
  rw [loadSegments]
  dsimp only
  rw [hat.ePhnum_eq hheaders.header]
  by_cases hi : i < ePhnum f.bytes 0
  · rw [if_pos hi, hat.header_eq hheaders htable hfits hi]
    refine Or.inr ⟨hi, ?_⟩
    rw [ElfFile.phdrs_drop hi] at hrest
    by_cases htype : (readPhdr f.bytes (f.phdrAddr i)).pType = ptLoad
    · rw [List.filter_cons_of_pos (by simpa using htype)] at hrest
      obtain ⟨l, rest, rfl, hph, hrest⟩ := List.map_eq_cons_iff.mp hrest
      refine Or.inr ⟨l, rest, rfl, hrest, List.mem_filter.mpr ⟨?_, by simpa [hph] using htype⟩, ?_⟩
      · rw [hph]
        exact List.mem_of_mem_drop (ElfFile.phdrs_drop hi ▸ List.mem_cons_self)
      · rw [if_neg (not_not_intro htype), hph]
        cases loadSegment hhdm pml4Base data (readPhdr f.bytes (f.phdrAddr i)) s with
        | none => rfl
        | some r => rfl
    · rw [List.filter_cons_of_neg (by simpa using htype)] at hrest
      exact Or.inl ⟨hrest, if_pos htype⟩
  · rw [ElfFile.phdrs_drop_end (Nat.le_of_not_lt hi)] at hrest
    exact Or.inl ⟨List.map_eq_nil_iff.mp hrest, if_neg hi⟩

/-- The loop, for a file in memory: what loading one segment keeps up, the whole loop keeps up. -/
theorem loadSegments_inv {I : Mem → List Frame → List Load → Prop} (hheaders : f.Headers)
    (htable : ePhnum f.bytes 0 * ePhentsize f.bytes 0 < 2 ^ 31) (hfits : data + f.size < 2 ^ 64)
    (hat : ∀ {m frames done}, I m frames done → f.At m data)
    (hstep : ∀ m frames done l rest buffers r, all = done ++ l :: rest → I m frames done →
      loadSegment hhdm (tableBase hhdm root) data l.ph
        ⟨m, frames.map (tableBase hhdm), l.addr :: buffers⟩ = some r →
      ∃ m' frames', r = (elfSuccess, ⟨m', frames'.map (tableBase hhdm), buffers⟩) ∧
        I m' frames' (done ++ [l]))
    {fuel i : Nat} {m : Mem} {frames : List Frame} {done rest : List Load} {more : List Nat}
    {s' : LoadState} (h₀ : I m frames done) (hall : all = done ++ rest)
    (hrest : rest.map Load.ph = (f.phdrs.drop i).filter (·.pType = ptLoad))
    (hret : loadSegments hhdm (tableBase hhdm root) data fuel i
      ⟨m, frames.map (tableBase hhdm), rest.map Load.addr ++ more⟩ = some (elfSuccess, s')) :
    ∃ frames', I s'.mem frames' all := by
  induction fuel generalizing i m frames done rest with
  | zero => simp [loadSegments] at hret
  | succ fuel ih =>
      rcases loadSegments_cases hhdm (tableBase hhdm root) fuel
        (s := ⟨m, frames.map (tableBase hhdm), rest.map Load.addr ++ more⟩) hheaders htable hfits
        (hat h₀) hrest with ⟨rfl, heq⟩ | ⟨-, ⟨hskip, heq⟩ | ⟨l, rest, rfl, hrest, -, heq⟩⟩
      · obtain rfl : all = done := by simpa using hall
        cases heq.symm.trans hret
        exact ⟨frames, h₀⟩
      · exact ih h₀ hall hskip (heq.symm.trans hret)
      · obtain ⟨r, hload, hret⟩ := Option.bind_eq_some_iff.mp (heq.symm.trans hret)
        obtain ⟨m', frames', rfl, h'⟩ := hstep _ _ _ _ _ _ _ hall h₀ hload
        rw [if_neg (show elfSuccess ≠ elfErr by decide)] at hret
        have hnext : all = done ++ [l] ++ rest := by
          rw [hall, List.append_assoc, List.singleton_append]
        exact ih h' hnext hrest hret

/-- The segments are loaded into the image one after the other. -/
theorem Inv.after_loadSegments (hhhdm : hhdm < 2 ^ 64) (h : Setup hhdm data table all m₁ f)
    {fuel : Nat} {m : Mem} {frames : List Frame} {more : List Nat} {s' : LoadState}
    (hinv : Inv hhdm root table all m₁ m frames [] Image.empty)
    (hret : loadSegments hhdm (tableBase hhdm root) data fuel 0
      ⟨m, frames.map (tableBase hhdm), all.map Load.addr ++ more⟩ = some (elfSuccess, s')) :
    ∃ frames', Inv hhdm root table all m₁ s'.mem frames' all
      ((all.map fun l => l.ph.loaded m₁ data).foldl Image.load Image.empty) := by
  refine loadSegments_inv (i := 0) (I := fun m frames done => Inv hhdm root table all m₁ m frames done
      ((done.map fun l => l.ph.loaded m₁ data).foldl Image.load Image.empty))
    h.sound.toHeaders h.sized.table h.fits (fun hinv => h.file_at hinv) ?_ hinv
    (List.nil_append all).symm h.loads hret
  intro m frames done l rest buffers r hall hinv hload
  have hl : l ∈ all := by simp [hall]
  obtain ⟨m', frames', hr, hinv'⟩ := hinv.after_loadSegment hhhdm hall h.apart (h.answers l hl)
    (h.ordinary hl) (h.source_lt hl) (h.sources l hl) hload
  refine ⟨m', frames', hr, ?_⟩
  rw [List.map_append, List.foldl_append]
  exact hinv'

theorem Inv.loadSegments_total (hhhdm : hhdm < 2 ^ 64) (h : Setup hhdm data table all m₁ f)
    (fuel : Nat) (more : List Nat) {i : Nat} {m : Mem} {frames : List Frame}
    {done rest : List Load} {img : Image}
    (hinv : Inv hhdm root table all m₁ m frames done img) (hall : all = done ++ rest)
    (hrest : rest.map Load.ph = (f.phdrs.drop i).filter (·.pType = ptLoad))
    (hi : i ≤ ePhnum f.bytes 0) (hfuel : ePhnum f.bytes 0 < fuel + i)
    (hsupply : 3 * (rest.map fun l => l.ph.pages).sum ≤ frames.length) :
    ∃ s', loadSegments hhdm (tableBase hhdm root) data fuel i
      ⟨m, frames.map (tableBase hhdm), rest.map Load.addr ++ more⟩ = some (elfSuccess, s') := by
  induction fuel generalizing i m frames done rest img with
  | zero => omega
  | succ fuel ih =>
      rcases loadSegments_cases hhdm (tableBase hhdm root) fuel
        (s := ⟨m, frames.map (tableBase hhdm), rest.map Load.addr ++ more⟩) h.sound.toHeaders
        h.sized.table h.fits (h.file_at hinv) hrest with
        ⟨rfl, heq⟩ | ⟨hlt, ⟨hskip, heq⟩ | ⟨l, rest, rfl, hrest, -, heq⟩⟩
      · exact ⟨_, heq⟩
      · obtain ⟨s', hs'⟩ := ih hinv hall hskip hlt (by omega) hsupply
        exact ⟨s', heq.trans hs'⟩
      · have hl : l ∈ all := by simp [hall]
        rw [List.map_cons, List.sum_cons] at hsupply
        obtain ⟨s, hload, hlength⟩ := loadSegment_total data (rest.map Load.addr ++ more) hhhdm
          hinv.ok hinv.tables (h.answers l hl) (h.ordinary hl).short (h.ordinary hl).vaddr_end
          (h.apart.bufferTable l hl) (by omega)
        obtain ⟨m', frames', hs, hinv'⟩ := hinv.after_loadSegment hhhdm hall h.apart
          (h.answers l hl) (h.ordinary hl) (h.source_lt hl) (h.sources l hl) hload
        obtain rfl : s = _ := (Prod.mk.inj hs).2
        rw [List.length_map] at hlength
        obtain ⟨s', hs'⟩ := ih hinv' (by simp [hall]) hrest hlt (by omega) (by omega)
        refine ⟨s', heq.trans ?_⟩
        rw [List.map_cons, List.cons_append, hload, Option.bind_some,
          if_neg (show elfSuccess ≠ elfErr by decide)]
        exact hs'

theorem Inv.readProc_eq {m : Mem} {frames : List Frame} {img : Image} {a : Nat} {c : UInt8}
    (hinv : Inv hhdm root table all m₁ m frames all img) (hanswers : ∀ l ∈ all, l.Ok hhdm)
    (ha : img.get a = some c) : readProc hhdm m (tableBase hhdm root) a = some c := by
  obtain ⟨shown, himg, hshown⟩ := Option.map_eq_some_iff.mp ha
  obtain ⟨hp, l, hl, n, hn, entry, hentry, hphys, hbytes⟩ := hinv.shows _ _ himg
  have hpage : page a = a / 4096 := Nat.mod_eq_of_lt hp
  have hbase : add64 (l.addr - hhdm + 4096 * n) hhdm = l.addr + 4096 * n := by
    have habove := (hanswers l hl).above
    have hbelow := (hanswers l hl).below
    rw [add64, Nat.mod_eq_of_lt (by omega)]
    omega
  rw [readProc, translate_eq_pagesOf, hpage, hentry, Option.map_some, hphys, hbase,
    hbytes _ (Nat.mod_lt _ (by decide)), hshown]

end Loop

namespace ElfFile

/-- The byte a program expects at offset `k` of a segment. -/
def expected (f : ElfFile) (ph : Phdr) (k : Nat) : UInt8 :=
  if k < ph.pFilesz then f.bytes (ph.pOffset + k) else 0

/-- When the loader shows a program what it expects, in terms of the memory after the file was
read to `data`: where a page is shared with a later segment the byte is zero, and elsewhere what
follows the segment's bytes there is zero. -/
def Shown (f : ElfFile) (m : Mem) (data : Nat) : Prop :=
  ∀ pre ph post, f.segments = pre ++ ph :: post → ∀ k < ph.pMemsz,
    if ∃ later ∈ post, later.Touches ((ph.pVaddr + k) / 4096) then f.expected ph k = 0
    else ph.pFilesz ≤ k → m (data + ph.pOffset + k) = 0

variable {f : ElfFile} {m : Mem} {data : Nat} {pre post : List Phdr} {ph : Phdr} {k : Nat}

/-- The last segment on a page decides. -/
theorem get_segments (hsound : f.Sound) (hsplit : f.segments = pre ++ ph :: post)
    (hk : k < ph.pMemsz) (m : Mem) (data : Nat) :
    ((f.segments.map (Phdr.loaded m data)).foldl Image.load Image.empty).get (ph.pVaddr + k) =
      some (if ∃ later ∈ post, later.Touches ((ph.pVaddr + k) / 4096) then 0
        else m (data + ph.pOffset + k)) := by
  have hdisjoint := hsound.disjoint
  rw [hsplit, List.pairwise_append, List.pairwise_cons] at hdisjoint
  have hbeside : ∀ l ∈ post.map (Phdr.loaded m data),
      ¬ (l.vaddr ≤ ph.pVaddr + k ∧ ph.pVaddr + k < l.vaddr + l.memsz) := by
    intro l hl
    obtain ⟨later, hlater, rfl⟩ := List.mem_map.mp hl
    exact hdisjoint.2.1.1 later hlater (ph.pVaddr + k)
      ⟨Nat.le_add_right _ _, Nat.add_lt_add_left hk _⟩
  have htouch : (ph.loaded m data).Touches ((ph.pVaddr + k) / 4096) := by
    simp only [Loaded.Touches, Loaded.firstPage, Loaded.pages, Phdr.loaded, pageCount, pageSize]
    omega
  have hbyte : (ph.loaded m data).byteAt (ph.pVaddr + k) = m (data + ph.pOffset + k) := by
    have hin : (ph.loaded m data).vaddr ≤ ph.pVaddr + k ∧
        ph.pVaddr + k < (ph.loaded m data).vaddr + (ph.loaded m data).memsz :=
      ⟨Nat.le_add_right _ _, Nat.add_lt_add_left hk _⟩
    rw [Loaded.byteAt, if_pos hin]
    exact congrArg (fun k => m (data + ph.pOffset + k)) (Nat.add_sub_cancel_left ..)
  have hlater : (∃ l ∈ post.map (Phdr.loaded m data), l.Touches ((ph.pVaddr + k) / 4096)) ↔
      ∃ later ∈ post, later.Touches ((ph.pVaddr + k) / 4096) := by
    constructor
    · rintro ⟨l, hl, htouches⟩
      obtain ⟨later, hlater, rfl⟩ := List.mem_map.mp hl
      exact ⟨later, hlater, htouches⟩
    · rintro ⟨later, hlater, htouches⟩
      exact ⟨_, List.mem_map_of_mem hlater, htouches⟩
  rw [hsplit, List.map_append, List.map_cons, List.foldl_append, List.foldl_cons,
    Image.get_foldl hbeside, Image.get_load, if_pos htouch, hbyte, if_congr hlater rfl rfl]
  exact (apply_ite some _ _ _).symm

theorem shown_iff (hsound : f.Sound) (hat : f.At m data) :
    f.Shown m data ↔ ∀ pre ph post, f.segments = pre ++ ph :: post → ∀ k < ph.pMemsz,
      (if ∃ later ∈ post, later.Touches ((ph.pVaddr + k) / 4096) then 0
        else m (data + ph.pOffset + k)) = f.expected ph k := by
  refine forall_congr' fun pre => forall_congr' fun ph => forall_congr' fun post =>
    forall_congr' fun hsplit => forall_congr' fun k => forall_congr' fun hk => ?_
  have hph : ph ∈ f.segments := by simp [hsplit]
  split_ifs
  · exact eq_comm
  · rw [expected]
    split_ifs with hfile
    · have hinside := hsound.inside ph hph
      rw [Nat.add_assoc, hat _ (by omega)]
      exact iff_of_true (fun hge => absurd hfile (Nat.not_lt.mpr hge)) rfl
    · exact ⟨fun hzero => hzero (Nat.le_of_not_lt hfile), fun hzero _ => hzero⟩

end ElfFile

/-- The frames that are tables of the process or will become some. -/
def OwnTable (hhdm : Nat) (m : Mem) (root : Frame) (frames : List Frame) (e : Frame) : Prop :=
  Radix.Reaches nextFrame (view hhdm m) root 3 e ∨ e ∈ frames

/-- A call of the loader: the file's buffer is at `data`, and `kmalloc` answers the segments'
requests with disjoint buffers that hold neither the file nor tables. -/
structure Call (hhdm data : Nat) (root : Frame) (frames : List Frame) (loads : List Load)
    (f : ElfFile) (s : LoadState) : Prop where
  hhdm_lt : hhdm < 2 ^ 64
  tables : TablesOk hhdm s.mem root frames
  supply : s.supply = frames.map (tableBase hhdm)
  buffers : ∃ more, s.buffers = data :: (loads.map Load.addr ++ more)
  fits : data + f.size < 2 ^ 64
  requests : loads.map Load.ph = f.segments
  answers : ∀ l ∈ loads, l.Ok hhdm
  apart : Apart hhdm (OwnTable hhdm s.mem root frames) ⟨data, f.size⟩ loads

/-- What is copied after the segments' bytes is not written by the loader. -/
def TailsFree (hhdm data : Nat) (root : Frame) (frames : List Frame) (loads : List Load)
    (f : ElfFile) (s : LoadState) : Prop :=
  ∀ ph ∈ f.segments, ∀ k, ph.pFilesz ≤ k → k < ph.pMemsz →
    Free hhdm (OwnTable hhdm s.mem root frames) loads (data + ph.pOffset + k)

section Call

variable {hhdm data : Nat} {root : Frame} {frames : List Frame} {loads : List Load} {f : ElfFile}
  {s s' : LoadState} {readFails wantsEntry : Bool} {entry : Option Nat}

/-- Reading the file changes no table. -/
theorem ElfFile.readTo_tables {m : Mem} (f : ElfFile) (hok : TablesOk hhdm m root frames)
    (hfile : ∀ e, OwnTable hhdm m root frames e →
      Span.Disjoint ⟨data, f.size⟩ ⟨tableBase hhdm e, pageSize⟩) :
    TablesOk hhdm (f.readTo data m) root frames ∧
      ∀ e, OwnTable hhdm (f.readTo data m) root frames e → OwnTable hhdm m root frames e := by
  have hagree : ∀ e, Radix.Reaches nextFrame (view hhdm m) root 3 e →
      ∀ x, InFrame hhdm e x → f.readTo data m x = m x := by
    intro e he x hx
    refine if_neg fun hin => ?_
    exact Span.not_has_of_disjoint (hfile e (.inl he)) hin hx
  exact ⟨hok.of_agree hagree, fun e he => he.imp_left (reaches_agree hagree)⟩

theorem Call.setup (h : Call hhdm data root frames loads f s) (hsound : f.Sound)
    (hsized : f.IntSized) (htails : TailsFree hhdm data root frames loads f s) :
    Setup hhdm data (OwnTable hhdm s.mem root frames) loads (f.readTo data s.mem) f := by
  refine ⟨hsound, hsized, h.fits, h.requests, h.answers, h.apart, f.readTo_at data s.mem, ?_⟩
  intro l hl k hk
  have hph : l.ph ∈ f.segments := h.requests ▸ List.mem_map_of_mem hl
  by_cases hfile : k < l.ph.pFilesz
  · have hinside := hsound.inside l.ph hph
    refine h.apart.file_free ?_
    simp only [Span.Has]
    omega
  · exact htails l.ph hph k (Nat.le_of_not_lt hfile) hk

theorem Call.tailsFree (h : Call hhdm data root frames loads f s)
    (hinside : ∀ ph ∈ f.segments, ph.pOffset + ph.pMemsz ≤ f.size) :
    TailsFree hhdm data root frames loads f s := by
  intro ph hph k _ hk
  have hend := hinside ph hph
  refine h.apart.file_free ?_
  simp only [Span.Has]
  omega

theorem Call.start (h : Call hhdm data root frames loads f s) :
    Inv hhdm root (OwnTable hhdm s.mem root frames) loads (f.readTo data s.mem)
      (f.readTo data s.mem) frames [] Image.empty := by
  obtain ⟨hok, htables⟩ := f.readTo_tables h.tables h.apart.fileTable
  exact ⟨hok, htables, fun _ _ => rfl, nofun⟩

theorem elfLoad_success (h : Call hhdm data root frames loads f s)
    (hret : elfLoad hhdm (tableBase hhdm root) (some f) readFails wantsEntry s =
      some (elfSuccess, entry, s')) :
    ∃ more, loadSegments hhdm (tableBase hhdm root) data (2 ^ 16 + 1) 0
      ⟨f.readTo data s.mem, frames.map (tableBase hhdm), loads.map Load.addr ++ more⟩ =
        some (elfSuccess, s') := by
  obtain ⟨more, hbuffers⟩ := h.buffers
  simp only [elfLoad, hbuffers, h.supply] at hret
  split_ifs at hret
  · cases hret
  · cases hret
  · obtain ⟨⟨ret, s''⟩, hr, heq⟩ := Option.map_eq_some_iff.mp hret
    cases heq
    exact ⟨more, hr⟩

/-- An accepted file is loaded when there are frames enough for its tables. -/
theorem elfLoad_total (h : Call hhdm data root frames loads f s) (hsound : f.Sound)
    (hsized : f.IntSized) (htails : TailsFree hhdm data root frames loads f s) (hdata : data ≠ 0)
    (hverify : elfVerifyHeader f.bytes 0 = true)
    (hsupply : 3 * (loads.map fun l => l.ph.pages).sum ≤ frames.length) :
    ∃ entry s', elfLoad hhdm (tableBase hhdm root) (some f) false true s =
      some (elfSuccess, entry, s') := by
  obtain ⟨more, hbuffers⟩ := h.buffers
  have hphnum : ePhnum f.bytes 0 < 2 ^ 16 := Mem.readN_lt f.bytes 56 2
  obtain ⟨s', hrun⟩ := Inv.loadSegments_total (i := 0) h.hhdm_lt (h.setup hsound hsized htails)
    (2 ^ 16 + 1) more h.start rfl h.requests (Nat.zero_le _) (by omega) hsupply
  refine ⟨some (eEntry (f.readTo data s.mem) data), s', ?_⟩
  simp only [elfLoad, hbuffers, h.supply]
  rw [if_neg (by simp [hdata]), (f.readTo_at data s.mem).elfVerifyHeader_eq hsound.header, hverify,
    if_neg (by decide), hrun]
  rfl

theorem readProc_segment (h : Call hhdm data root frames loads f s) (hsound : f.Sound)
    (hsized : f.IntSized) (htails : TailsFree hhdm data root frames loads f s)
    (hret : elfLoad hhdm (tableBase hhdm root) (some f) readFails wantsEntry s =
      some (elfSuccess, entry, s')) {pre post : List Phdr} {ph : Phdr} {k : Nat}
    (hsplit : f.segments = pre ++ ph :: post) (hk : k < ph.pMemsz) :
    readProc hhdm s'.mem (tableBase hhdm root) (ph.pVaddr + k) =
      some (if ∃ later ∈ post, later.Touches ((ph.pVaddr + k) / 4096) then 0
        else f.readTo data s.mem (data + ph.pOffset + k)) := by
  obtain ⟨more, hrun⟩ := elfLoad_success h hret
  obtain ⟨frames', hinv⟩ := h.start.after_loadSegments h.hhdm_lt (h.setup hsound hsized htails) hrun
  have hget := f.get_segments hsound hsplit hk (f.readTo data s.mem) data
  rw [← h.requests, List.map_map] at hget
  exact hinv.readProc_eq h.answers hget

/-- A program sees its segments exactly if no later segment shares a page with bytes that matter
and the bytes copied past each segment's end are zero. -/
theorem program_image (h : Call hhdm data root frames loads f s) (hsound : f.Sound)
    (hret : elfLoad hhdm (tableBase hhdm root) (some f) readFails wantsEntry s =
      some (elfSuccess, entry, s'))
    (hsized : f.IntSized) (htails : TailsFree hhdm data root frames loads f s) :
    (∀ ph ∈ f.segments, ∀ k < ph.pMemsz,
      readProc hhdm s'.mem (tableBase hhdm root) (ph.pVaddr + k) = some (f.expected ph k)) ↔
    f.Shown (f.readTo data s.mem) data := by
  rw [f.shown_iff hsound (f.readTo_at data s.mem)]
  constructor
  · intro hshows pre ph post hsplit k hk
    have hseen := hshows ph (by simp [hsplit]) k hk
    rw [readProc_segment h hsound hsized htails hret hsplit hk] at hseen
    exact Option.some.inj hseen
  · intro hcond ph hph k hk
    obtain ⟨pre, post, hsplit⟩ := List.append_of_mem hph
    rw [readProc_segment h hsound hsized htails hret hsplit hk, hcond pre ph post hsplit k hk]

/-- A file of 120 bytes with one segment of four bytes: the file's first bytes, of which
`p_filesz` are said to be in the file. -/
def tinyFile (filesz : UInt8) : ElfFile where
  bytes := fun k => ([0x7f, 0x45, 0x4c, 0x46, 2, 1, 1, 0, 0, 0, 0, 0, 0, 0, 0, 0, 2, 0, 62, 0, 1, 0, 0, 0,
    0, 0, 0x40, 0, 0, 0, 0, 0, 64, 0, 0, 0, 0, 0, 0, 0, 0, 0, 0, 0, 0, 0, 0, 0,
    0, 0, 0, 0, 64, 0, 56, 0, 1, 0, 0, 0, 0, 0, 0, 0,
    1, 0, 0, 0, 5, 0, 0, 0, 0, 0, 0, 0, 0, 0, 0, 0, 0, 0, 0x40, 0, 0, 0, 0, 0,
    0, 0, 0, 0, 0, 0, 0, 0, filesz, 0, 0, 0, 0, 0, 0, 0, 4, 0, 0, 0, 0, 0, 0, 0] : List UInt8).getD k 0
  size := 120

def tinyPhdr (filesz : Nat) : Phdr := ⟨ptLoad, 5, 0, 0x400000, filesz, 4⟩

theorem tinyFile_segments : ∀ filesz ∈ [1, 4],
    (tinyFile filesz).segments = [tinyPhdr filesz.toNat] := by
  decide +kernel

theorem tinyPhdr_pages (filesz : Nat) : (tinyPhdr filesz).pages = 1 := by
  simp [Phdr.pages, tinyPhdr, pageCount, pageSize]

/-- The header of the file. -/
theorem tinyFile_header : ∀ filesz ∈ [1, 4], filesz.toNat ≤ 4 ∧
    (∀ i < ePhnum (tinyFile filesz).bytes 0,
      (tinyFile filesz).phdrAddr i + 56 ≤ (tinyFile filesz).size) ∧
    ePhnum (tinyFile filesz).bytes 0 * ePhentsize (tinyFile filesz).bytes 0 < 2 ^ 31 ∧
    elfVerifyHeader (tinyFile filesz).bytes 0 = true := by
  decide +kernel

theorem tinyFile_sound {filesz : UInt8} (hfilesz : filesz ∈ [1, 4]) :
    (tinyFile filesz).Sound ∧ (tinyFile filesz).IntSized := by
  have hsegments := tinyFile_segments filesz hfilesz
  have honly : ∀ ph ∈ (tinyFile filesz).segments, ph = tinyPhdr filesz.toNat := by
    intro ph hph
    rw [hsegments] at hph
    exact List.mem_singleton.mp hph
  obtain ⟨hsmall, hphdrs, htable, -⟩ := tinyFile_header filesz hfilesz
  have hsize : (tinyFile filesz).size = 120 := rfl
  refine ⟨⟨⟨by omega, hphdrs⟩, ?_, ?_, ?_, by simp [hsegments]⟩, htable, ?_⟩
  · intro ph hph
    rw [honly ph hph, hsize]
    simp only [tinyPhdr]
    omega
  · intro ph hph
    rw [honly ph hph]
    exact hsmall
  · intro ph hph
    rw [honly ph hph]
    simp [tinyPhdr]
  · intro ph hph
    rw [honly ph hph, tinyPhdr_pages]
    decide

/-- A process at frame 1 without tables, three frames to come, and two buffers. -/
def tinyState (hhdm : Nat) : LoadState where
  mem := fun _ => 0
  supply := [hhdm + 0x2000, hhdm + 0x3000, hhdm + 0x4000]
  buffers := [hhdm + 0x10000, hhdm + 0x20000]

def tinyFrames : List Frame := [⟨2, by decide⟩, ⟨3, by decide⟩, ⟨4, by decide⟩]

/-- A file of this size with one segment of one page. -/
theorem onePage_call {hhdm : Nat} (hhhdm : hhdm + 2 ^ 20 < 2 ^ 64) {f : ElfFile} {ph : Phdr}
    (hsize : f.size = 120) (hsegments : f.segments = [ph]) (hpages : ph.pages = 1) :
    Call hhdm (hhdm + 0x10000) ⟨1, by decide⟩ tinyFrames [⟨ph, hhdm + 0x20000⟩] f
      (tinyState hhdm) := by
  have hbase : ∀ e : Frame, e.num ≤ 4 → tableBase hhdm e = hhdm + 4096 * e.num := by
    intro e he
    simp only [tableBase, add64, pageSize]
    omega
  have habsent : ∀ i, nextFrame (view hhdm (tinyState hhdm).mem ⟨1, by decide⟩ i) = none := fun i =>
    (congrArg nextFrame (Mem.readN_eq_zero fun _ _ _ => rfl)).trans nextFrame_zero
  have hframes : ∀ e ∈ tinyFrames, e.num ≤ 4 ∧ 0 < e.num := by decide
  have htable : ∀ e, OwnTable hhdm (tinyState hhdm).mem ⟨1, by decide⟩ tinyFrames e →
      e.num ≤ 4 := by
    rintro e (⟨js, -, hwalk⟩ | he)
    · rw [← (walk_absent habsent hwalk).2]
      decide
    · exact (hframes e he).1
  refine ⟨by omega, tablesOk_absent habsent (by decide) (by decide) ?_, ?_, ⟨[], rfl⟩, ?_,
    hsegments.symm, ?_, ?_, ?_, ?_, ?_⟩
  · intro e he
    have hnum := hframes e he
    rw [hbase e hnum.1]
    omega
  · simp only [tinyFrames, List.map_cons, List.map_nil]
    rw [hbase _ (by decide), hbase _ (by decide), hbase _ (by decide)]
    rfl
  · omega
  · intro l hl
    rw [List.mem_singleton.mp hl]
    refine ⟨?_, ?_, ?_, ?_, ?_⟩
    all_goals simp only [hpages]
    all_goals omega
  · intro e he
    rw [hbase e (htable e he)]
    have hnum := htable e he
    simp only [Span.Disjoint, pageSize]
    omega
  · intro l hl
    rw [List.mem_singleton.mp hl]
    simp only [Span.Disjoint, Load.span, hpages, hsize]
    omega
  · exact List.pairwise_singleton _ _
  · intro l hl e he
    rw [List.mem_singleton.mp hl, hbase e (htable e he)]
    have hnum := htable e he
    simp only [Span.Disjoint, Load.span, pageSize]
    omega

theorem tiny_call {hhdm : Nat} (hhhdm : hhdm + 2 ^ 20 < 2 ^ 64) {filesz : UInt8}
    (hfilesz : filesz ∈ [1, 4]) :
    Call hhdm (hhdm + 0x10000) ⟨1, by decide⟩ tinyFrames
      [⟨tinyPhdr filesz.toNat, hhdm + 0x20000⟩] (tinyFile filesz) (tinyState hhdm) :=
  onePage_call hhhdm rfl (tinyFile_segments filesz hfilesz) (tinyPhdr_pages filesz.toNat)

theorem tiny_tails {hhdm : Nat} (hhhdm : hhdm + 2 ^ 20 < 2 ^ 64) {filesz : UInt8}
    (hfilesz : filesz ∈ [1, 4]) :
    TailsFree hhdm (hhdm + 0x10000) ⟨1, by decide⟩ tinyFrames
      [⟨tinyPhdr filesz.toNat, hhdm + 0x20000⟩] (tinyFile filesz) (tinyState hhdm) := by
  refine (tiny_call hhhdm hfilesz).tailsFree ?_
  rw [tinyFile_segments filesz hfilesz]
  intro ph hph
  rw [List.mem_singleton.mp hph]
  exact Nat.le_of_ble_eq_true rfl

theorem tiny_load {hhdm : Nat} (hhhdm : hhdm + 2 ^ 20 < 2 ^ 64) {filesz : UInt8}
    (hfilesz : filesz ∈ [1, 4]) :
    ∃ entry s', elfLoad hhdm (tableBase hhdm ⟨1, by decide⟩) (some (tinyFile filesz)) false true
      (tinyState hhdm) = some (elfSuccess, entry, s') := by
  obtain ⟨hsound, hsized⟩ := tinyFile_sound hfilesz
  have hverify := (tinyFile_header filesz hfilesz).2.2.2
  refine elfLoad_total (tiny_call hhhdm hfilesz) hsound hsized (tiny_tails hhhdm hfilesz) (by omega)
    hverify ?_
  simp [tinyPhdr_pages, tinyFrames]

/-- All four bytes are in the file. -/
theorem program_image_tiny : ∃ entry s',
    elfLoad 0xffff800000000000 (tableBase 0xffff800000000000 ⟨1, by decide⟩) (some (tinyFile 4)) false
      true (tinyState 0xffff800000000000) = some (elfSuccess, entry, s') ∧
    readProc 0xffff800000000000 s'.mem (tableBase 0xffff800000000000 ⟨1, by decide⟩) 0x400001 =
      some 0x45 := by
  have hfilesz : (4 : UInt8) ∈ [1, 4] := by decide
  have hhhdm : 0xffff800000000000 + 2 ^ 20 < 2 ^ 64 := by decide
  obtain ⟨hsound, hsized⟩ := tinyFile_sound hfilesz
  have hsegments := tinyFile_segments 4 hfilesz
  obtain ⟨entry, s', hret⟩ := tiny_load hhhdm hfilesz
  have hshown : (tinyFile 4).Shown ((tinyFile 4).readTo (0xffff800000000000 + 0x10000)
      (tinyState 0xffff800000000000).mem) (0xffff800000000000 + 0x10000) := by
    intro pre ph post hsplit k hk
    rw [hsegments] at hsplit
    obtain ⟨rfl, rfl, rfl⟩ : pre = [] ∧ ph = tinyPhdr 4 ∧ post = [] := by
      cases pre with
      | nil => simpa [eq_comm] using hsplit
      | cons _ pre => simp at hsplit
    rw [if_neg (by simp)]
    exact fun hge => absurd hk (Nat.not_lt.mpr hge)
  have hbyte := (program_image (tiny_call hhhdm hfilesz) hsound hret hsized
    (tiny_tails hhhdm hfilesz)).mpr hshown (tinyPhdr 4) (by rw [hsegments]; exact List.mem_singleton_self _)
    1 (by decide)
  exact ⟨entry, s', hret, hbyte⟩

/-- One byte is in the file, and three should read zero: the file's next bytes appear there. -/
theorem bss_shows_file_bytes : ∃ hhdm data root frames loads f s entry s',
    Call hhdm data root frames loads f s ∧ f.Sound ∧ elfVerifyHeader f.bytes 0 = true ∧
    elfLoad hhdm (tableBase hhdm root) (some f) false true s = some (elfSuccess, entry, s') ∧
    ¬ ∀ ph ∈ f.segments, ∀ k < ph.pMemsz,
      readProc hhdm s'.mem (tableBase hhdm root) (ph.pVaddr + k) = some (f.expected ph k) := by
  have hfilesz : (1 : UInt8) ∈ [1, 4] := by decide
  have hhhdm : 0xffff800000000000 + 2 ^ 20 < 2 ^ 64 := by decide
  have hcall := tiny_call hhhdm hfilesz
  obtain ⟨hsound, hsized⟩ := tinyFile_sound hfilesz
  have hsplit : (tinyFile 1).segments = [] ++ tinyPhdr (UInt8.toNat 1) :: [] :=
    tinyFile_segments 1 hfilesz
  obtain ⟨entry, s', hret⟩ := tiny_load hhhdm hfilesz
  refine ⟨_, _, _, _, _, _, _, entry, s', hcall, hsound, by decide +kernel, hret, ?_⟩
  intro hshows
  have hk : 1 < (tinyPhdr (UInt8.toNat 1)).pMemsz := by decide
  have hexpected := hshows (tinyPhdr (UInt8.toNat 1)) (by simp [hsplit]) 1 hk
  have hat := (tinyFile 1).readTo_at (0xffff800000000000 + 0x10000)
    (tinyState 0xffff800000000000).mem 1 (by decide)
  rw [readProc_segment hcall hsound hsized (tiny_tails hhhdm hfilesz) hret hsplit hk,
    if_neg (by simp)] at hexpected
  exact absurd (hat.symm.trans (Option.some.inj hexpected)) (by decide)

end Call

end Tellurium.Elf
