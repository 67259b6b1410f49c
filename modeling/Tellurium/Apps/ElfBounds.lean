import Tellurium.Apps.ElfImage

/-!
Which bytes `elf_load` (`kernel/apps/elf.c`) touches. The loader of `Apps.Elf` with a record of
its accesses: what it reads of the file's buffer, and each segment that it copies with the block
allocated for it. The loader compares no offset of the file with the file's size, so it stays
inside exactly for files whose headers ask for nothing else.
-/

namespace Tellurium.Elf

open Tellurium.Lib Tellurium.Vmm

/-- `segment block blockLen dest src len`: `len` bytes copied from `src` to `dest`, for which the
block was allocated. -/
inductive Access where
  | read (addr len : Nat)
  | segment (block blockLen dest src len : Nat)
  deriving Repr, DecidableEq

/-- Every byte read has an index below `size` in the buffer at `data`, and every byte copied goes
into its block. -/
def Access.Inside (data size : Nat) : Access → Prop
  | .read addr len => ∀ j < len, sub64 (add64 addr j) data < size
  | .segment block blockLen dest src len => ∀ k < len,
      sub64 (add64 src k) data < size ∧ block ≤ dest + k ∧ dest + k < block + blockLen

/-- What `elf_verify_header` and the loader read before the loop. -/
def headerReads (data : Nat) : List Access :=
  [.read (add64 data 0) 6, .read (add64 data 7) 2, .read (add64 data 16) 8, .read (add64 data 24) 8]

/-- The loop condition, `elf_get_phdr` and the type of the header. -/
def phdrReads (data addr : Nat) : List Access :=
  [.read (add64 data 56) 2, .read (add64 data 32) 8, .read (add64 data 54) 2, .read addr 4]

/-- The other fields of a `PT_LOAD` header. -/
def segmentReads (addr : Nat) : List Access :=
  [.read (add64 addr 4) 4, .read (add64 addr 16) 8, .read (add64 addr 40) 8, .read (add64 addr 8) 8]

def segmentCopy (data : Nat) (ph : Phdr) (block : Nat) : Access :=
  .segment block ph.sectionBytes (block + ph.offset) (add64 data ph.pOffset) ph.pMemsz

def loadSegmentsTraced (hhdm pml4Base data : Nat) :
    Nat → Nat → LoadState → Option (Nat × LoadState × List Access)
  | 0, _, _ => none
  | fuel + 1, i, s =>
      if i < ePhnum s.mem data then
        let addr := elfGetPhdr s.mem data i
        let ph := readPhdr s.mem addr
        if ph.pType ≠ ptLoad then
          (loadSegmentsTraced hhdm pml4Base data fuel (i + 1) s).map fun r =>
            (r.1, r.2.1, phdrReads data addr ++ r.2.2)
        else
          match loadSegment hhdm pml4Base data ph s with
          | none => none
          | some (ret, s') =>
              if ret = elfErr then some (elfErr, s', phdrReads data addr ++ segmentReads addr)
              else
                (loadSegmentsTraced hhdm pml4Base data fuel (i + 1) s').map fun r =>
                  (r.1, r.2.1, phdrReads data addr ++ segmentReads addr ++
                    segmentCopy data ph (s.buffers.headD 0) :: r.2.2)
      else some (elfSuccess, s, [.read (add64 data 56) 2])

/-- What a call reads that is rejected before the loop is left out. -/
def elfLoadTraced (hhdm pml4Base : Nat) (file : Option ElfFile) (readFails wantsEntry : Bool)
    (s : LoadState) : Option (Nat × Option Nat × LoadState × List Access) :=
  match file, s.buffers with
  | none, _ => none
  | some _, [] => none
  | some f, data :: buffers =>
      let s : LoadState := ⟨s.mem, s.supply, buffers⟩
      if data = 0 ∨ readFails then some (elfErr, none, s, [])
      else
        let m := f.readTo data s.mem
        let s : LoadState := ⟨m, s.supply, buffers⟩
        if !elfVerifyHeader m data || !wantsEntry then some (elfErr, none, s, [])
        else
          (loadSegmentsTraced hhdm pml4Base data (2 ^ 16 + 1) 0 s).map fun r =>
            (r.1, some (eEntry m data), r.2.1, headerReads data ++ r.2.2)

namespace ElfFile

/-- The index at which the loader looks for header `i`. -/
def phdrIndex (f : ElfFile) (i : Nat) : Nat :=
  add64 (ePhoff f.bytes 0) (intTo64 (i * ePhentsize f.bytes 0))

theorem phdrIndex_lt (f : ElfFile) (i : Nat) : f.phdrIndex i < 2 ^ 64 := Nat.mod_lt _ (by decide)

/-- The segment's bytes, as many as `p_memsz` says, are in the file and fit the block. -/
def SegmentInside (f : ElfFile) (ph : Phdr) : Prop :=
  ph.pMemsz = 0 ∨ (ph.pOffset + ph.pMemsz ≤ f.size ∧ ph.offset + ph.pMemsz ≤ ph.sectionBytes)

/-- The type of header `i` is in the file, and for a segment the other fields and the bytes. -/
def HeaderInside (f : ElfFile) (i : Nat) : Prop :=
  f.phdrIndex i + 4 ≤ f.size ∧
    ((readPhdr f.bytes (f.phdrIndex i)).pType = ptLoad →
      f.phdrIndex i + 48 ≤ f.size ∧ f.SegmentInside (readPhdr f.bytes (f.phdrIndex i)))

/-- The file has all that its headers ask for. -/
structure Contained (f : ElfFile) : Prop where
  header : 58 ≤ f.size
  phdrs : ∀ i < ePhnum f.bytes 0, f.HeaderInside i

end ElfFile

section Erase

variable {hhdm pml4Base data : Nat}

theorem loadSegmentsTraced_erase (fuel i : Nat) (s : LoadState) :
    (loadSegmentsTraced hhdm pml4Base data fuel i s).map (fun r => (r.1, r.2.1)) =
      loadSegments hhdm pml4Base data fuel i s := by
  induction fuel generalizing i s with
  | zero => rfl
  | succ fuel ih =>
      simp only [loadSegmentsTraced, loadSegments]
      split_ifs
      · rw [Option.map_map, ← ih]
        rfl
      · cases loadSegment hhdm pml4Base data (readPhdr s.mem (elfGetPhdr s.mem data i)) s with
        | none => rfl
        | some r =>
            dsimp only
            split_ifs
            · rfl
            · rw [Option.map_map, ← ih]
              rfl
      · rfl

/-- Without its record the loader is that of `Apps.Elf`. -/
theorem elfLoadTraced_erase (file : Option ElfFile) (readFails wantsEntry : Bool) (s : LoadState) :
    (elfLoadTraced hhdm pml4Base file readFails wantsEntry s).map (fun r => (r.1, r.2.1, r.2.2.1)) =
      elfLoad hhdm pml4Base file readFails wantsEntry s := by
  obtain ⟨mem, supply, buffers⟩ := s
  cases file with
  | none => rfl
  | some f =>
      cases buffers with
      | nil => rfl
      | cons data buffers =>
          simp only [elfLoadTraced, elfLoad]
          split_ifs
          · rfl
          · rfl
          · rw [Option.map_map, ← loadSegmentsTraced_erase, Option.map_map]
            rfl

end Erase

section Inside

variable {hhdm data : Nat} {root : Frame} {table : Frame → Prop} {m : Mem} {frames : List Frame}
  {f : ElfFile} {ph : Phdr}

/-- The index of a byte, from its address. -/
theorem sub64_address {idx j : Nat} (hdata : data < 2 ^ 64) :
    sub64 (add64 (add64 data idx) j) data = (idx + j) % 2 ^ 64 := by
  simp only [sub64, add64]
  omega

theorem forall_index_lt_iff {size idx len : Nat} (hsize : size < 2 ^ 64) (hidx : idx < 2 ^ 64)
    (hlen : 0 < len) : (∀ j < len, (idx + j) % 2 ^ 64 < size) ↔ idx + len ≤ size := by
  constructor
  · intro hall
    have hfirst := hall 0 hlen
    by_contra hout
    have hlast := hall (size - idx) (by omega)
    omega
  · intro hle j hj
    omega

theorem read_inside_iff {size idx len : Nat} (hfits : data + size < 2 ^ 64) (hidx : idx < 2 ^ 64)
    (hlen : 0 < len) : (Access.read (add64 data idx) len).Inside data size ↔ idx + len ≤ size := by
  simp only [Access.Inside, sub64_address (show data < 2 ^ 64 by omega)]
  exact forall_index_lt_iff (by omega) hidx hlen

theorem segmentCopy_inside_iff {block : Nat} (hfits : data + f.size < 2 ^ 64)
    (hoffset : ph.pOffset < 2 ^ 64) :
    (segmentCopy data ph block).Inside data f.size ↔ f.SegmentInside ph := by
  simp only [segmentCopy, Access.Inside, sub64_address (show data < 2 ^ 64 by omega),
    ElfFile.SegmentInside]
  rcases Nat.eq_zero_or_pos ph.pMemsz with hzero | hpos
  · simp [hzero]
  · rw [← forall_index_lt_iff (by omega) hoffset hpos]
    constructor
    · intro hall
      have hlast := hall (ph.pMemsz - 1) (by omega)
      exact .inr ⟨fun k hk => (hall k hk).1, by omega⟩
    · rintro (hzero | ⟨hsrc, hdest⟩) k hk
      · omega
      · exact ⟨hsrc k hk, by omega, by omega⟩

theorem intTo64_page (n : Nat) : 4096 ∣ intTo64 (n * pageSize) ∧ intTo64 (n * pageSize) < 2 ^ 64 := by
  rw [intTo64, pageSize]
  rcases Nat.lt_or_ge (n * 4096 % 2 ^ 32) (2 ^ 31) with hsmall | hlarge
  · rw [if_pos hsmall]
    omega
  · rw [if_neg (Nat.not_lt.mpr hlarge)]
    omega

theorem ElfFile.At.elfGetPhdr_index (h : f.At m data) (hheader : 58 ≤ f.size) (i : Nat) :
    elfGetPhdr m data i = add64 data (f.phdrIndex i) := by
  have hphoff : ePhoff m data = ePhoff f.bytes 0 := h.readN_eq (by omega)
  have hsize : ePhentsize m data = ePhentsize f.bytes 0 := h.readN_eq (by omega)
  rw [elfGetPhdr, hphoff, hsize, ElfFile.phdrIndex]
  simp only [add64]
  omega

/-- A segment whose bytes fit the block changes the block and tables only. -/
theorem loadSegment_frame {addr : Nat} {buffers : List Nat} {s' : LoadState} (hhhdm : hhdm < 2 ^ 64)
    (hok : TablesOk hhdm m root frames)
    (htable : ∀ e, Radix.Reaches nextFrame (view hhdm m) root 3 e ∨ e ∈ frames → table e)
    (hvaddr : ph.pVaddr < 2 ^ 64)
    (hfits : ph.pMemsz = 0 ∨ ph.offset + ph.pMemsz ≤ ph.sectionBytes)
    (hapart : ∀ e, table e → Span.Disjoint ⟨addr, ph.sectionBytes⟩ ⟨tableBase hhdm e, pageSize⟩)
    (hret : loadSegment hhdm (tableBase hhdm root) data ph
      ⟨m, frames.map (tableBase hhdm), addr :: buffers⟩ = some (elfSuccess, s')) :
    ∃ m' frames', s' = ⟨m', frames'.map (tableBase hhdm), buffers⟩ ∧
      TablesOk hhdm m' root frames' ∧
      (∀ e, Radix.Reaches nextFrame (view hhdm m') root 3 e ∨ e ∈ frames' → table e) ∧
      ∀ x, ¬ Span.Has ⟨addr, ph.sectionBytes⟩ x → (∀ e, table e → ¬ InFrame hhdm e x) →
        m' x = m x := by
  obtain ⟨hflags, hpresent, -⟩ := ph.vmmFlags_ok
  obtain ⟨hpages, hlen⟩ := intTo64_page ph.numPages
  rw [← Phdr.sectionBytes] at hpages hlen
  simp only [loadSegment] at hret
  split_ifs at hret
  · cases hret
  · obtain ⟨r, hmap, hret⟩ := Option.map_eq_some_iff.mp hret
    obtain rfl : LoadState.mk r.1 r.2 buffers = s' := congrArg Prod.snd hret
    generalize hfill : (m.memset addr 0 ph.sectionBytes).memcpy (addr + ph.offset)
      (add64 data ph.pOffset) ph.pMemsz = m₁ at hmap
    have hout : ∀ x, ¬ Span.Has ⟨addr, ph.sectionBytes⟩ x → m₁ x = m x := by
      intro x hx
      simp only [Span.Has] at hx
      rw [← hfill, Mem.memcpy_out _ (by omega), Mem.memset_out _ _ (by omega)]
    have hagree : ∀ e, Radix.Reaches nextFrame (view hhdm m) root 3 e →
        ∀ x, InFrame hhdm e x → m₁ x = m x := fun e he x hx =>
      hout x fun hspan => Span.not_has_of_disjoint (hapart e (htable e (.inl he))) hspan hx
    rcases Nat.lt_or_ge (ph.pVaddr - ph.offset + ph.sectionBytes) (2 ^ 64) with hbelow | hwraps
    · have hend : ph.pVaddr - ph.offset + ph.sectionBytes ≤ 2 ^ 64 - 4096 := by
        have hoffset := ph.offset_eq
        omega
      obtain ⟨m', frames', rfl, hgrown, -⟩ := mapSection_grown (P := fun _ => True) hhhdm hend hflags
        hpresent (Nat.mod_lt _ (by decide)) (hok.of_agree hagree) (fun _ _ _ _ => trivial) hmap
      obtain ⟨htables, hsame⟩ := hgrown.kept hagree htable
      exact ⟨m', frames', rfl, hgrown.ok, htables,
        fun x hx htab => (hsame x htab).trans (hout x hx)⟩
    · rw [mapSection_wraps (by omega) hlen hwraps] at hmap
      cases hmap
      exact ⟨m₁, frames, rfl, hok.of_agree hagree,
        fun e he => htable e (he.imp_left (reaches_agree hagree)), fun x hx _ => hout x hx⟩

/-- The block of a copy holds neither the file nor tables. -/
def Access.Apart (hhdm : Nat) (table : Frame → Prop) (file : Span) : Access → Prop
  | .read .. => True
  | .segment block blockLen .. => file.Disjoint ⟨block, blockLen⟩ ∧
      ∀ e, table e → Span.Disjoint ⟨block, blockLen⟩ ⟨tableBase hhdm e, pageSize⟩

theorem phdrReads_inside_iff (hheader : 58 ≤ f.size) (hfits : data + f.size + 4096 ≤ 2 ^ 64)
    {idx : Nat} (hidx : idx < 2 ^ 64) :
    (∀ a ∈ phdrReads data (add64 data idx), a.Inside data f.size) ↔ idx + 4 ≤ f.size := by
  have hread : ∀ {idx len : Nat}, idx < 2 ^ 64 → 0 < len →
      ((Access.read (add64 data idx) len).Inside data f.size ↔ idx + len ≤ f.size) :=
    read_inside_iff (by omega)
  simp only [phdrReads, List.forall_mem_cons, List.not_mem_nil, false_implies, implies_true,
    and_true]
  rw [hread (by decide) (by decide), hread (by decide) (by decide), hread (by decide) (by decide),
    hread hidx (by decide)]
  omega

theorem segmentReads_inside_iff (hfits : data + f.size + 4096 ≤ 2 ^ 64) {idx : Nat}
    (hidx : idx + 4 ≤ f.size) :
    (∀ a ∈ segmentReads (add64 data idx), a.Inside data f.size) ↔ idx + 48 ≤ f.size := by
  have hread : ∀ {off len : Nat}, off ≤ 48 → 0 < len →
      ((Access.read (add64 (add64 data idx) off) len).Inside data f.size ↔
        idx + off + len ≤ f.size) := by
    intro off len hoff hlen
    have haddr : add64 (add64 data idx) off = add64 data (idx + off) := by
      simp only [add64]
      omega
    rw [haddr]
    exact read_inside_iff (by omega) (by omega) hlen
  simp only [segmentReads, List.forall_mem_cons, List.not_mem_nil, false_implies, implies_true,
    and_true]
  rw [hread (by decide) (by decide), hread (by decide) (by decide), hread (by decide) (by decide),
    hread (by decide) (by decide)]
  omega

theorem forall_from_iff {P : Nat → Prop} {i n : Nat} (hi : i < n) :
    (∀ j, i ≤ j → j < n → P j) ↔ P i ∧ ∀ j, i + 1 ≤ j → j < n → P j := by
  constructor
  · intro hall
    exact ⟨hall i (Nat.le_refl i) hi, fun j hj => hall j (by omega)⟩
  · rintro ⟨hfirst, hrest⟩ j hij hj
    rcases Nat.eq_or_lt_of_le hij with rfl | hlt
    · exact hfirst
    · exact hrest j hlt hj

section Header

variable {i : Nat}

theorem ElfFile.At.pType_eq (h : f.At m data) (hfits : data + f.size + 4096 ≤ 2 ^ 64) {idx : Nat}
    (hidx : idx + 4 ≤ f.size) :
    (readPhdr m (add64 data idx)).pType = (readPhdr f.bytes idx).pType := by
  have haddr : add64 data idx = data + idx := Nat.mod_eq_of_lt (by omega)
  rw [haddr]
  exact h.readN_eq hidx

/-- A header that is no segment: only its type is read. -/
theorem ElfFile.At.skipped_inside_iff (h : f.At m data) (hheader : 58 ≤ f.size)
    (hfits : data + f.size + 4096 ≤ 2 ^ 64)
    (htype : (readPhdr m (elfGetPhdr m data i)).pType ≠ ptLoad) :
    (∀ a ∈ phdrReads data (elfGetPhdr m data i), a.Inside data f.size) ↔ f.HeaderInside i := by
  rw [h.elfGetPhdr_index hheader] at htype ⊢
  rw [phdrReads_inside_iff hheader hfits (f.phdrIndex_lt i)]
  refine (and_iff_left_of_imp ?_).symm
  intro hidx hload
  rw [h.pType_eq hfits hidx] at htype
  exact absurd hload htype

/-- A segment: all of its header is read, and its bytes are copied. -/
theorem ElfFile.At.copied_inside_iff (block : Nat) (h : f.At m data) (hheader : 58 ≤ f.size)
    (hfits : data + f.size + 4096 ≤ 2 ^ 64)
    (htype : (readPhdr m (elfGetPhdr m data i)).pType = ptLoad) :
    ((∀ a ∈ phdrReads data (elfGetPhdr m data i), a.Inside data f.size) ∧
      (∀ a ∈ segmentReads (elfGetPhdr m data i), a.Inside data f.size) ∧
      (segmentCopy data (readPhdr m (elfGetPhdr m data i)) block).Inside data f.size) ↔
    f.HeaderInside i := by
  rw [h.elfGetPhdr_index hheader] at htype ⊢
  rw [phdrReads_inside_iff hheader hfits (f.phdrIndex_lt i), ElfFile.HeaderInside]
  apply and_congr_right
  intro hidx
  rw [h.pType_eq hfits hidx] at htype
  rw [segmentReads_inside_iff hfits hidx, forall_prop_of_true htype]
  apply and_congr_right
  intro hall
  have haddr : add64 data (f.phdrIndex i) = data + f.phdrIndex i := Nat.mod_eq_of_lt (by omega)
  rw [haddr, h.readPhdr_eq hall]
  exact segmentCopy_inside_iff (by omega) (Mem.readN_lt ..)

end Header

/-- Between two segments: the file is as it was read, and the tables are among `table`. -/
structure Intact (hhdm data : Nat) (root : Frame) (table : Frame → Prop) (f : ElfFile) (m : Mem)
    (frames : List Frame) : Prop where
  ok : TablesOk hhdm m root frames
  tables : ∀ e, Radix.Reaches nextFrame (view hhdm m) root 3 e ∨ e ∈ frames → table e
  file : f.At m data

section Run

variable {s' : LoadState} {buffers : List Nat}

theorem Intact.after_loadSegment {addr : Nat} (hhhdm : hhdm < 2 ^ 64)
    (h : Intact hhdm data root table f m frames)
    (hfile : ∀ e, table e → Span.Disjoint ⟨data, f.size⟩ ⟨tableBase hhdm e, pageSize⟩)
    (hvaddr : ph.pVaddr < 2 ^ 64) (hinside : f.SegmentInside ph)
    (hapart : (segmentCopy data ph addr).Apart hhdm table ⟨data, f.size⟩)
    (hret : loadSegment hhdm (tableBase hhdm root) data ph
      ⟨m, frames.map (tableBase hhdm), addr :: buffers⟩ = some (elfSuccess, s')) :
    ∃ m' frames', s' = ⟨m', frames'.map (tableBase hhdm), buffers⟩ ∧
      Intact hhdm data root table f m' frames' := by
  obtain ⟨m', frames', hs', hok, htables, hsame⟩ := loadSegment_frame hhhdm h.ok h.tables hvaddr
    (hinside.imp_right And.right) hapart.2 hret
  refine ⟨m', frames', hs', hok, htables, ?_⟩
  intro k hk
  have hin : Span.Has ⟨data, f.size⟩ (data + k) :=
    ⟨Nat.le_add_right _ _, Nat.add_lt_add_left hk _⟩
  rw [hsame _ (Span.not_has_of_disjoint hapart.1 hin) fun e he =>
    Span.not_has_of_disjoint (hfile e he) hin]
  exact h.file k hk

theorem loadSegment_returns {s : LoadState} {ret : Nat} (hne : ret ≠ elfErr)
    (hret : loadSegment hhdm (tableBase hhdm root) data ph s = some (ret, s')) :
    ret = elfSuccess ∧ ∃ addr more, s.buffers = addr :: more := by
  obtain ⟨mem, supply, buffers⟩ := s
  cases buffers with
  | nil => cases hret
  | cons addr more =>
      simp only [loadSegment] at hret
      split_ifs at hret
      · cases hret
        exact absurd rfl hne
      · obtain ⟨r, -, heq⟩ := Option.map_eq_some_iff.mp hret
        cases heq
        exact ⟨rfl, addr, more, rfl⟩

/-- The loop from header `i` on stays inside exactly if all headers from there on are inside.
The first header for which it does not decides both sides; until then the file is intact. -/
theorem Intact.loop_inside_iff {fuel i : Nat} {trace : List Access} (hhhdm : hhdm < 2 ^ 64)
    (h : Intact hhdm data root table f m frames) (hheader : 58 ≤ f.size)
    (hfits : data + f.size + 4096 ≤ 2 ^ 64)
    (hfile : ∀ e, table e → Span.Disjoint ⟨data, f.size⟩ ⟨tableBase hhdm e, pageSize⟩)
    (hret : loadSegmentsTraced hhdm (tableBase hhdm root) data fuel i
      ⟨m, frames.map (tableBase hhdm), buffers⟩ = some (elfSuccess, s', trace))
    (hapart : ∀ a ∈ trace, a.Apart hhdm table ⟨data, f.size⟩) :
    (∀ a ∈ trace, a.Inside data f.size) ↔
      ∀ j, i ≤ j → j < ePhnum f.bytes 0 → f.HeaderInside j := by
  induction fuel generalizing i m frames buffers trace with
  | zero => cases hret
  | succ fuel ih =>
      have hphnum : ePhnum m data = ePhnum f.bytes 0 := h.file.readN_eq (by omega)
      simp only [loadSegmentsTraced, hphnum] at hret
      split_ifs at hret with hi htype
      · -- no segment
        obtain ⟨⟨ret, s, rest⟩, hrest, heq⟩ := Option.map_eq_some_iff.mp hret
        cases heq
        rw [forall_from_iff hi, List.forall_mem_append, h.file.skipped_inside_iff hheader hfits htype]
        rw [List.forall_mem_append] at hapart
        exact and_congr_right fun _ => ih h hrest hapart.2
      · -- a segment
        cases hload : loadSegment hhdm (tableBase hhdm root) data
            (readPhdr m (elfGetPhdr m data i)) ⟨m, frames.map (tableBase hhdm), buffers⟩ with
        | none =>
            rw [hload] at hret
            cases hret
        | some r =>
            obtain ⟨ret, s⟩ := r
            rw [hload] at hret
            dsimp only at hret
            split_ifs at hret with herr
            · cases hret
            · obtain ⟨⟨ret', s'', rest⟩, hrest, heq⟩ := Option.map_eq_some_iff.mp hret
              cases heq
              obtain ⟨rfl, addr, more, rfl⟩ := loadSegment_returns herr hload
              rw [List.append_assoc, List.forall_mem_append, List.forall_mem_append,
                List.forall_mem_cons] at hapart ⊢
              rw [forall_from_iff hi,
                ← h.file.copied_inside_iff addr hheader hfits (not_not.mp htype), and_assoc, and_assoc]
              apply and_congr_right
              intro _
              apply and_congr_right
              intro _
              apply and_congr_right
              intro hcopy
              have hinside := (segmentCopy_inside_iff (by omega) (Mem.readN_lt ..)).mp hcopy
              obtain ⟨m', frames', rfl, hintact⟩ := h.after_loadSegment hhhdm hfile (Mem.readN_lt ..)
                hinside hapart.2.2.1 hload
              exact ih hintact hrest hapart.2.2.2
      · -- the end of the headers
        cases hret
        rw [List.forall_mem_singleton, read_inside_iff (by omega) (by decide) (by decide)]
        exact iff_of_true hheader fun j hij hj => absurd (Nat.lt_of_le_of_lt hij hj) hi

end Run

/-- Each run of the loop reads `e_phnum`. -/
theorem mem_loadSegmentsTraced {pml4Base fuel i ret : Nat} {s s' : LoadState} {trace : List Access}
    (hret : loadSegmentsTraced hhdm pml4Base data fuel i s = some (ret, s', trace)) :
    .read (add64 data 56) 2 ∈ trace := by
  cases fuel with
  | zero => cases hret
  | succ fuel =>
      rw [loadSegmentsTraced] at hret
      dsimp only at hret
      split_ifs at hret
      · obtain ⟨r, -, heq⟩ := Option.map_eq_some_iff.mp hret
        cases heq
        simp [phdrReads]
      · cases hload : loadSegment hhdm pml4Base data (readPhdr s.mem (elfGetPhdr s.mem data i)) s with
        | none =>
            rw [hload] at hret
            cases hret
        | some r =>
            rw [hload] at hret
            dsimp only at hret
            split_ifs at hret
            · cases hret
              simp [phdrReads]
            · obtain ⟨r, -, heq⟩ := Option.map_eq_some_iff.mp hret
              cases heq
              simp [phdrReads]
      · cases hret
        simp

end Inside

/-- What `elf_load` is called with: the file's buffer is in the kernel's half and holds no table. -/
structure Buffered (hhdm data : Nat) (root : Frame) (frames : List Frame) (f : ElfFile)
    (s : LoadState) : Prop where
  hhdm_lt : hhdm < 2 ^ 64
  tables : TablesOk hhdm s.mem root frames
  supply : s.supply = frames.map (tableBase hhdm)
  buffers : ∃ more, s.buffers = data :: more
  below : data + f.size + 4096 ≤ 2 ^ 64
  apart : ∀ e, OwnTable hhdm s.mem root frames e →
    Span.Disjoint ⟨data, f.size⟩ ⟨tableBase hhdm e, pageSize⟩

section Load

variable {hhdm data : Nat} {root : Frame} {frames : List Frame} {f : ElfFile} {s s' : LoadState}
  {readFails wantsEntry : Bool} {entry : Option Nat} {trace : List Access}

theorem Buffered.intact (h : Buffered hhdm data root frames f s) :
    Intact hhdm data root (OwnTable hhdm s.mem root frames) f (f.readTo data s.mem) frames := by
  obtain ⟨hok, htables⟩ := f.readTo_tables h.tables h.apart
  exact ⟨hok, htables, f.readTo_at data s.mem⟩

theorem elfLoadTraced_success (h : Buffered hhdm data root frames f s)
    (hret : elfLoadTraced hhdm (tableBase hhdm root) (some f) readFails wantsEntry s =
      some (elfSuccess, entry, s', trace)) :
    ∃ more rest, trace = headerReads data ++ rest ∧
      loadSegmentsTraced hhdm (tableBase hhdm root) data (2 ^ 16 + 1) 0
        ⟨f.readTo data s.mem, frames.map (tableBase hhdm), more⟩ = some (elfSuccess, s', rest) := by
  obtain ⟨more, hbuffers⟩ := h.buffers
  simp only [elfLoadTraced, hbuffers, h.supply] at hret
  split_ifs at hret
  · cases hret
  · cases hret
  · obtain ⟨⟨ret, s'', rest⟩, hr, heq⟩ := Option.map_eq_some_iff.mp hret
    cases heq
    exact ⟨more, rest, rfl, hr⟩

theorem headerReads_inside (hheader : 58 ≤ f.size) (hbelow : data + f.size + 4096 ≤ 2 ^ 64) :
    ∀ a ∈ headerReads data, a.Inside data f.size := by
  have hread : ∀ {idx len : Nat}, idx + len ≤ 58 → 0 < len →
      (Access.read (add64 data idx) len).Inside data f.size := fun hidx hlen =>
    (read_inside_iff (by omega) (by omega) hlen).mpr (by omega)
  simp only [headerReads, List.forall_mem_cons, List.not_mem_nil, false_implies, implies_true, and_true]
  exact ⟨hread (by decide) (by decide), hread (by decide) (by decide), hread (by decide) (by decide),
    hread (by decide) (by decide)⟩

/-- A file that is loaded: the loader stays inside the file and the blocks exactly if the headers ask
for nothing else. -/
theorem load_inside_iff (h : Buffered hhdm data root frames f s)
    (hret : elfLoadTraced hhdm (tableBase hhdm root) (some f) readFails wantsEntry s =
      some (elfSuccess, entry, s', trace))
    (hapart : ∀ a ∈ trace, a.Apart hhdm (OwnTable hhdm s.mem root frames) ⟨data, f.size⟩) :
    (∀ a ∈ trace, a.Inside data f.size) ↔ f.Contained := by
  have hbelow := h.below
  obtain ⟨more, rest, rfl, hrun⟩ := elfLoadTraced_success h hret
  rw [List.forall_mem_append] at hapart ⊢
  rcases Nat.lt_or_ge f.size 58 with hshort | hheader
  · refine iff_of_false ?_ fun hcontained => absurd hcontained.header (Nat.not_le.mpr hshort)
    rintro ⟨-, hrest⟩
    have hread := hrest _ (mem_loadSegmentsTraced hrun)
    rw [read_inside_iff (by omega) (by decide) (by decide)] at hread
    omega
  · have hloop := h.intact.loop_inside_iff h.hhdm_lt hheader hbelow h.apart hrun hapart.2
    rw [hloop]
    constructor
    · exact fun hall => ⟨hheader, fun i hi => hall.2 i (Nat.zero_le i) hi⟩
    · exact fun hcontained =>
        ⟨headerReads_inside hheader hbelow, fun j _ hj => hcontained.phdrs j hj⟩

/-- The tiny file without its program header. -/
def cutFile : ElfFile := {tinyFile 4 with size := 64}

/-- The tiny file with its segment in the last page of the address space, which is not mapped. -/
def topFile : ElfFile where
  bytes := fun k =>
    if 81 ≤ k ∧ k < 88 then if k = 81 then 0xf0 else 0xff else (tinyFile 4).bytes k
  size := 120

def topPhdr : Phdr := ⟨ptLoad, 5, 0, 0xfffffffffffff000, 4, 4⟩

theorem tiny_buffered (hhhdm : hhdm + 2 ^ 20 < 2 ^ 64) (hsize : f.size ≤ 120) :
    Buffered hhdm (hhdm + 0x10000) ⟨1, by decide⟩ tinyFrames f (tinyState hhdm) := by
  have hcall := tiny_call hhhdm (show (4 : UInt8) ∈ [1, 4] by decide)
  refine ⟨hcall.hhdm_lt, hcall.tables, hcall.supply, ⟨_, rfl⟩, by omega, ?_⟩
  intro e he
  apply (hcall.apart.fileTable e he).of_inside
  · exact ⟨Nat.le_refl _, Nat.add_le_add_left hsize _⟩
  · exact ⟨Nat.le_refl _, Nat.le_refl _⟩

theorem cutFile_load :
    (elfLoadTraced 0xffff800000000000 (tableBase 0xffff800000000000 ⟨1, by decide⟩) (some cutFile)
      false true (tinyState 0xffff800000000000)).map (fun r => (r.1, r.2.2.2)) =
    some (elfSuccess, headerReads (0xffff800000000000 + 0x10000) ++
      (phdrReads (0xffff800000000000 + 0x10000) (0xffff800000000000 + 0x10040) ++
        [.read (0xffff800000000000 + 0x10038) 2])) := by
  decide +kernel

/-- The program header that a cut file promises is looked for behind the file. -/
theorem cut_file_escapes : ∃ hhdm data root frames f s entry s' trace,
    Buffered hhdm data root frames f s ∧
    elfLoadTraced hhdm (tableBase hhdm root) (some f) false true s =
      some (elfSuccess, entry, s', trace) ∧
    (∀ a ∈ trace, a.Apart hhdm (OwnTable hhdm s.mem root frames) ⟨data, f.size⟩) ∧
    ¬ ∀ a ∈ trace, a.Inside data f.size := by
  obtain ⟨⟨ret, entry, s', trace⟩, hret, heq⟩ := Option.map_eq_some_iff.mp cutFile_load
  obtain ⟨rfl, rfl⟩ := Prod.mk.inj heq
  refine ⟨_, _, _, _, _, _, entry, s', _, tiny_buffered (by decide) (by decide), hret, ?_, ?_⟩
  · simp [headerReads, phdrReads, Access.Apart]
  · intro hinside
    have hread := hinside (.read (0xffff800000000000 + 0x10040) 4) (by simp [phdrReads])
    exact absurd (hread 0 (by decide)) (by decide)

theorem topFile_load :
    (elfLoadTraced 0xffff800000000000 (tableBase 0xffff800000000000 ⟨1, by decide⟩) (some topFile)
      false true (tinyState 0xffff800000000000)).map (fun r => (r.1, r.2.2.2)) =
    some (elfSuccess, headerReads (0xffff800000000000 + 0x10000) ++
      (phdrReads (0xffff800000000000 + 0x10000) (0xffff800000000000 + 0x10040) ++
        segmentReads (0xffff800000000000 + 0x10040) ++
        [segmentCopy (0xffff800000000000 + 0x10000) topPhdr (0xffff800000000000 + 0x20000),
          .read (0xffff800000000000 + 0x10038) 2])) := by
  decide +kernel

/-- The four bytes of the segment are copied from the file into their page. -/
theorem load_inside_top : ∃ entry s' trace,
    elfLoadTraced 0xffff800000000000 (tableBase 0xffff800000000000 ⟨1, by decide⟩) (some topFile)
      false true (tinyState 0xffff800000000000) = some (elfSuccess, entry, s', trace) ∧
    segmentCopy (0xffff800000000000 + 0x10000) topPhdr (0xffff800000000000 + 0x20000) ∈ trace ∧
    ∀ a ∈ trace, a.Inside (0xffff800000000000 + 0x10000) topFile.size := by
  have hcall := tiny_call (show 0xffff800000000000 + 2 ^ 20 < 2 ^ 64 by decide)
    (show (4 : UInt8) ∈ [1, 4] by decide)
  have hblock : (segmentCopy (0xffff800000000000 + 0x10000) topPhdr
      (0xffff800000000000 + 0x20000)).Apart 0xffff800000000000
      (OwnTable 0xffff800000000000 (tinyState 0xffff800000000000).mem ⟨1, by decide⟩ tinyFrames)
      ⟨0xffff800000000000 + 0x10000, topFile.size⟩ := by
    have hlen : topPhdr.sectionBytes = 4096 * 1 := by decide
    have hfile := hcall.apart.fileBuffer _ (List.mem_singleton_self _)
    have htable := hcall.apart.bufferTable _ (List.mem_singleton_self _)
    simp only [Load.span, tinyPhdr_pages] at hfile htable
    rw [segmentCopy, hlen]
    exact ⟨hfile, htable⟩
  obtain ⟨⟨ret, entry, s', trace⟩, hret, heq⟩ := Option.map_eq_some_iff.mp topFile_load
  obtain ⟨rfl, rfl⟩ := Prod.mk.inj heq
  refine ⟨entry, s', _, hret, by simp, ?_⟩
  refine (load_inside_iff (tiny_buffered (by decide) (by decide)) hret ?_).mpr ⟨by decide, ?_⟩
  · simpa [headerReads, phdrReads, segmentReads, Access.Apart] using hblock
  · simp only [ElfFile.HeaderInside, ElfFile.SegmentInside]
    decide +kernel

end Load

end Tellurium.Elf
