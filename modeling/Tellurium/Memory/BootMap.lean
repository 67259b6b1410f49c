import Tellurium.Memory.Sections

/-!
The kernel page map after boot (`init_vmm` of `kernel/memory/vmm.c`). The linker symbols,
Limine's answers, the bitmap and the MMIO devices are inputs, as is the old contents of memory:
`palloc` does not clear the frames it returns, and `init_vmm` does not clear the one it takes
for the PML4.
-/

namespace Tellurium.Vmm

open Tellurium.Lib

structure MemmapEntry where
  base : Nat
  length : Nat

structure MmioDev where
  addr : Nat
  sizeBytes : Nat

/-- What `init_vmm` reads. -/
structure Boot where
  stext : Nat
  etext : Nat
  srodata : Nat
  erodata : Nat
  sdata : Nat
  edata : Nat
  kernelVaddr : Nat
  kernelPaddr : Nat
  entries : List MemmapEntry
  bitmapAddr : Nat
  bitmapSize : Nat
  devices : List MmioDev

/-- The arguments of one call of `map_section`. -/
structure Section where
  vaddr : Nat
  paddr : Nat
  len : Nat
  flags : Nat

namespace Boot

/-- `.text`, `.rodata` and `.data`, each with its flags. -/
def kernelSection (b : Boot) (start stop flags : Nat) : Section :=
  let startVaddr := alignAddress start false
  let endVaddr := alignAddress stop true
  ⟨startVaddr, add64 (sub64 startVaddr b.kernelVaddr) b.kernelPaddr, sub64 endVaddr startVaddr, flags⟩

def entrySection (hhdm : Nat) (entry : MemmapEntry) : Section :=
  let startPaddr := alignAddress entry.base false
  let endPaddr := alignAddress (add64 entry.base entry.length) true
  ⟨add64 startPaddr hhdm, startPaddr, sub64 endPaddr startPaddr, pmlWrite ||| pmlPresent⟩

def bitmapSection (hhdm : Nat) (b : Boot) : Section :=
  ⟨b.bitmapAddr, sub64 b.bitmapAddr hhdm, b.bitmapSize, pmlNotExecutable ||| pmlWrite ||| pmlPresent⟩

def deviceSection (hhdm : Nat) (dev : MmioDev) : Section :=
  ⟨add64 dev.addr hhdm, dev.addr, dev.sizeBytes, pmlNotExecutable ||| pmlWrite ||| pmlPresent⟩

/-- The calls of `map_section` in their order. -/
def sections (hhdm : Nat) (b : Boot) : List Section :=
  [b.kernelSection b.stext b.etext pmlPresent,
    b.kernelSection b.srodata b.erodata (pmlNotExecutable ||| pmlPresent),
    b.kernelSection b.sdata b.edata (pmlNotExecutable ||| pmlWrite ||| pmlPresent)] ++
  b.entries.map (entrySection hhdm) ++ [b.bitmapSection hhdm] ++ b.devices.map (deviceSection hhdm)

end Boot

def mapSections (hhdm pml4Base : Nat) (s : Mem × List Nat) (sections : List Section) :
    Option (Mem × List Nat) :=
  sections.foldlM (fun s sec => mapSection hhdm s pml4Base sec.vaddr sec.paddr sec.len sec.flags) s

/-- `k_pagemap->pml4_base[i] &= ~(PML_USER)` from entry `i` on, `count` times. -/
def clearUser (pml4Base : Nat) : Nat → Nat → Mem → Mem
  | _, 0, m => m
  | i, count + 1, m =>
      clearUser pml4Base (i + 1) count
        (m.write64 (pml4Base + 8 * i) (m.read64 (pml4Base + 8 * i) &&& (2 ^ 64 - 1 - pmlUser)))

/-- The page map and the memory. Without a frame for `k_pagemap` or the PML4 the kernel halts. -/
def initVmm (hhdm : Nat) (b : Boot) (m : Mem) : List Nat → Option (Nat × Mem × List Nat)
  | kPagemap :: pml4Base :: supply =>
      if kPagemap = 0 ∨ pml4Base = 0 then none
      else
        let m := m.write64 kPagemap pml4Base
        (mapSections hhdm pml4Base (m, supply) (b.sections hhdm)).map fun s =>
          (pml4Base, clearUser pml4Base 256 256 s.1, s.2)
  | _ => none

/-- Some address of the range lies on the page of `w`. -/
def InPages (start stop w : Nat) : Prop := ∃ v, start ≤ v ∧ v < stop ∧ page v = page w

def roundDown (a : Nat) : Nat := a / 4096 * 4096
def roundUp (a : Nat) : Nat := (a + 4095) / 4096 * 4096

/-- The pages that belong into the kernel page map. -/
def Boot.Wanted (hhdm : Nat) (b : Boot) (w : Nat) : Prop :=
  InPages (roundDown b.stext) (roundUp b.etext) w ∨
  InPages (roundDown b.srodata) (roundUp b.erodata) w ∨
  InPages (roundDown b.sdata) (roundUp b.edata) w ∨
  (∃ e ∈ b.entries, InPages (hhdm + roundDown e.base) (hhdm + roundUp (e.base + e.length)) w) ∨
  InPages b.bitmapAddr (b.bitmapAddr + b.bitmapSize) w ∨
  ∃ d ∈ b.devices, InPages (hhdm + d.addr) (hhdm + d.addr + d.sizeBytes) w

/-- A range that ends below the last page and spreads over no more pages than its length
needs. -/
def Fits (start len : Nat) : Prop :=
  start + len ≤ 2 ^ 64 - 4096 ∧ start % 4096 + len ≤ 4096 * pageCount len

/-- The ranges are in order and leave the last page of the address space alone. -/
structure Boot.Sane (hhdm : Nat) (b : Boot) : Prop where
  hhdm_lt : hhdm < 2 ^ 64
  hhdm_aligned : 4096 ∣ hhdm
  text : b.stext ≤ b.etext ∧ roundUp b.etext ≤ 2 ^ 64 - 4096
  rodata : b.srodata ≤ b.erodata ∧ roundUp b.erodata ≤ 2 ^ 64 - 4096
  data : b.sdata ≤ b.edata ∧ roundUp b.edata ≤ 2 ^ 64 - 4096
  entries : ∀ e ∈ b.entries, hhdm + roundUp (e.base + e.length) ≤ 2 ^ 64 - 4096
  bitmap : Fits b.bitmapAddr b.bitmapSize
  devices : ∀ d ∈ b.devices, Fits (hhdm + d.addr) d.sizeBytes

/-- Flags of a present page. -/
def FlagsOk (flags : Nat) : Prop := flags < 2 ^ 64 ∧ flags &&& pmlPresent ≠ 0

instance (flags : Nat) : Decidable (FlagsOk flags) := inferInstanceAs (Decidable (_ ∧ _))

/-- A call of `map_section` with 64-bit arguments that maps present pages and ends below the
last page. -/
structure Section.Ok (sec : Section) : Prop where
  stop : sec.vaddr + sec.len ≤ 2 ^ 64 - 4096
  paddr : sec.paddr < 2 ^ 64
  flags : FlagsOk sec.flags

/-- The section maps the page of `w`. -/
def Section.Maps (sec : Section) (w : Nat) : Prop :=
  ∃ k < pageCount sec.len, page (sec.vaddr + 4096 * k) = page w

section Sections

variable {hhdm : Nat} {root : Frame} {m m' : Mem} {frames : List Frame} {sections : List Section}

theorem isSome_of_covers {vaddr paddr flags count w : Nat}
    (hcover : Covers hhdm root m m' vaddr paddr flags count w) :
    (pagesOf hhdm m' root (page w)).isSome ↔
      (∃ k < count, page (vaddr + 4096 * k) = page w) ∨ (pagesOf hhdm m root (page w)).isSome := by
  rcases hcover with ⟨k, hk, hpage, hval⟩ | ⟨hnone, hval⟩
  · rw [hval]
    exact ⟨fun _ => .inl ⟨k, hk, hpage⟩, fun _ => rfl⟩
  · rw [hval]
    refine ⟨.inr, fun h => h.resolve_left ?_⟩
    rintro ⟨k, hk, hpage⟩
    exact hnone k hk hpage

/-- After the sections a page is present if it was before or one of them maps it. -/
theorem mapSections_spec {r : Mem × List Nat} (hhhdm : hhdm < 2 ^ 64)
    (hsections : ∀ sec ∈ sections, sec.Ok) (hok : TablesOk hhdm m root frames)
    (hret : mapSections hhdm (tableBase hhdm root) (m, frames.map (tableBase hhdm)) sections = some r) :
    ∃ m' frames', r = (m', frames'.map (tableBase hhdm)) ∧ TablesOk hhdm m' root frames' ∧
      ∀ w, (pagesOf hhdm m' root (page w)).isSome ↔
        (∃ sec ∈ sections, sec.Maps w) ∨ (pagesOf hhdm m root (page w)).isSome := by
  induction sections generalizing m frames with
  | nil =>
      refine ⟨m, frames, (Option.some.inj hret).symm, hok, fun w => ⟨.inr, fun h => h.resolve_left ?_⟩⟩
      rintro ⟨sec, hsec, -⟩
      exact absurd hsec List.not_mem_nil
  | cons sec rest ih =>
      rw [mapSections, List.foldlM_cons] at hret
      obtain ⟨s, hmap, hret⟩ := Option.bind_eq_some_iff.mp hret
      have hsec := hsections sec List.mem_cons_self
      obtain ⟨m₁, frames₁, rfl, hgrown, hcover⟩ := mapSection_grown (P := fun _ => True) hhhdm
        hsec.stop hsec.flags.1 hsec.flags.2 hsec.paddr hok (fun _ _ _ _ => trivial) hmap
      obtain ⟨m', frames', rfl, hok', hpages⟩ :=
        ih (fun sec' hsec' => hsections sec' (List.mem_cons_of_mem _ hsec')) hgrown.ok hret
      refine ⟨m', frames', rfl, hok', fun w => ?_⟩
      rw [hpages w, isSome_of_covers (hcover w), List.exists_mem_cons_iff, or_assoc, or_left_comm,
        Section.Maps]

theorem mapSections_total (hhhdm : hhdm < 2 ^ 64) (hsections : ∀ sec ∈ sections, sec.Ok)
    (hok : TablesOk hhdm m root frames)
    (hsupply : 3 * (sections.map fun sec => pageCount sec.len).sum ≤ frames.length) :
    ∃ r, mapSections hhdm (tableBase hhdm root) (m, frames.map (tableBase hhdm)) sections = some r := by
  induction sections generalizing m frames with
  | nil => exact ⟨_, rfl⟩
  | cons sec rest ih =>
      rw [List.map_cons, List.sum_cons] at hsupply
      have hsec := hsections sec List.mem_cons_self
      obtain ⟨m₁, frames₁, hmap, hok₁, hlen⟩ := mapSection_total hhhdm hsec.stop hsec.flags.1 hsec.paddr
        hok (by omega : 3 * pageCount sec.len ≤ frames.length)
      rw [mapSections, List.foldlM_cons, hmap]
      exact ih (fun sec' hsec' => hsections sec' (List.mem_cons_of_mem _ hsec')) hok₁ (by omega)

/-- A range that fits is mapped by its pages. -/
theorem maps_iff {sec : Section} {w : Nat} (hfits : sec.vaddr % 4096 + sec.len ≤ 4096 * pageCount sec.len) :
    sec.Maps w ↔ InPages sec.vaddr (sec.vaddr + sec.len) w := by
  constructor
  · rintro ⟨k, hk, hpage⟩
    refine ⟨sec.vaddr + 4096 * k, by omega, ?_, hpage⟩
    simp only [pageCount, pageSize] at hk
    omega
  · rintro ⟨v, hlo, hhi, hpage⟩
    refine ⟨v / 4096 - sec.vaddr / 4096, by omega, ?_⟩
    rw [← hpage]
    simp only [page]
    congr 1
    omega

end Sections

theorem alignAddress_down (a : Nat) : alignAddress a false = roundDown a := rfl

theorem alignAddress_up {a : Nat} (ha : roundUp a < 2 ^ 64) : alignAddress a true = roundUp a := by
  simp only [alignAddress, roundUp, pageSize, add64, Bool.true_and, bne_iff_ne] at ha ⊢
  split_ifs <;> omega

/-- The range of one call, and that the call has the pages of that range. -/
structure Section.Spans (sec : Section) (start stop : Nat) : Prop where
  ok : sec.Ok
  maps : ∀ w, sec.Maps w ↔ InPages start stop w

theorem Section.spans_of_fits {sec : Section} {start stop : Nat} (hvaddr : sec.vaddr = start)
    (hstop : sec.vaddr + sec.len = stop) (hfits : Fits start sec.len) (hpaddr : sec.paddr < 2 ^ 64)
    (hflags : FlagsOk sec.flags) : sec.Spans start stop := by
  subst hvaddr hstop
  exact ⟨⟨hfits.1, hpaddr, hflags⟩, fun w => maps_iff hfits.2⟩

/-- A range from page boundary to page boundary fits. -/
theorem fits_of_aligned {start len : Nat} (hstart : 4096 ∣ start)
    (hstop : start + len ≤ 2 ^ 64 - 4096) : Fits start len := by
  refine ⟨hstop, ?_⟩
  simp only [pageCount, pageSize]
  omega

theorem roundDown_dvd (a : Nat) : 4096 ∣ roundDown a := Nat.dvd_mul_left _ _

theorem roundDown_le_roundUp {a b : Nat} (hle : a ≤ b) : roundDown a ≤ roundUp b := by
  simp only [roundDown, roundUp]
  omega

namespace Boot

variable {hhdm : Nat} {b : Boot}

theorem kernelSection_spans (b : Boot) {start stop flags : Nat} (hflags : FlagsOk flags)
    (hrange : start ≤ stop ∧ roundUp stop ≤ 2 ^ 64 - 4096) :
    (b.kernelSection start stop flags).Spans (roundDown start) (roundUp stop) := by
  obtain ⟨hle, hstop⟩ := hrange
  have hround := roundDown_le_roundUp hle
  have hvaddr : (b.kernelSection start stop flags).vaddr = roundDown start := rfl
  have hlen : (b.kernelSection start stop flags).len = roundUp stop - roundDown start := by
    show sub64 (alignAddress stop true) (alignAddress start false) = _
    rw [alignAddress_up (by omega), alignAddress_down, sub64_eq hround (by omega)]
  refine Section.spans_of_fits hvaddr (by omega) ?_ (Nat.mod_lt _ (by decide)) hflags
  exact fits_of_aligned (roundDown_dvd _) (by omega)

theorem entrySection_spans {e : MemmapEntry} (hhhdm : 4096 ∣ hhdm)
    (hstop : hhdm + roundUp (e.base + e.length) ≤ 2 ^ 64 - 4096) :
    (entrySection hhdm e).Spans (hhdm + roundDown e.base) (hhdm + roundUp (e.base + e.length)) := by
  have hround := roundDown_le_roundUp (Nat.le_add_right e.base e.length)
  have hsum : e.base + e.length ≤ roundUp (e.base + e.length) := by
    simp only [roundUp]
    omega
  have hvaddr : (entrySection hhdm e).vaddr = hhdm + roundDown e.base := by
    show add64 (alignAddress e.base false) hhdm = _
    rw [alignAddress_down, add64, Nat.mod_eq_of_lt (by omega), Nat.add_comm]
  have hlen : (entrySection hhdm e).len = roundUp (e.base + e.length) - roundDown e.base := by
    show sub64 (alignAddress (add64 e.base e.length) true) (alignAddress e.base false) = _
    rw [add64, Nat.mod_eq_of_lt (by omega), alignAddress_up (by omega), alignAddress_down,
      sub64_eq hround (by omega)]
  have hpaddr : (entrySection hhdm e).paddr < 2 ^ 64 := by
    show roundDown e.base < 2 ^ 64
    omega
  refine Section.spans_of_fits hvaddr (by omega) ?_ hpaddr
    (show FlagsOk (pmlWrite ||| pmlPresent) by decide)
  exact fits_of_aligned (Nat.dvd_add hhhdm (roundDown_dvd _)) (by omega)

theorem deviceFlags_ok : FlagsOk (pmlNotExecutable ||| pmlWrite ||| pmlPresent) := by decide

theorem bitmapSection_spans (hhdm : Nat) (hfits : Fits b.bitmapAddr b.bitmapSize) :
    (b.bitmapSection hhdm).Spans b.bitmapAddr (b.bitmapAddr + b.bitmapSize) :=
  Section.spans_of_fits rfl rfl hfits (Nat.mod_lt _ (by decide)) deviceFlags_ok

theorem deviceSection_spans {d : MmioDev} (hfits : Fits (hhdm + d.addr) d.sizeBytes) :
    (deviceSection hhdm d).Spans (hhdm + d.addr) (hhdm + d.addr + d.sizeBytes) := by
  obtain ⟨hstop, hpages⟩ := hfits
  have hvaddr : (deviceSection hhdm d).vaddr = hhdm + d.addr := by
    show add64 d.addr hhdm = _
    rw [add64, Nat.mod_eq_of_lt (by omega), Nat.add_comm]
  have hpaddr : (deviceSection hhdm d).paddr < 2 ^ 64 := by
    show d.addr < 2 ^ 64
    omega
  refine Section.spans_of_fits hvaddr ?_ ⟨hstop, hpages⟩ hpaddr deviceFlags_ok
  rw [hvaddr]
  rfl

/-- The calls of `init_vmm` together map the pages that belong there. -/
theorem Sane.sections_spec (hsane : b.Sane hhdm) :
    (∀ sec ∈ b.sections hhdm, sec.Ok) ∧
      ∀ w, (∃ sec ∈ b.sections hhdm, sec.Maps w) ↔ b.Wanted hhdm w := by
  have htext := b.kernelSection_spans (by decide : FlagsOk pmlPresent) hsane.text
  have hrodata := b.kernelSection_spans (by decide : FlagsOk (pmlNotExecutable ||| pmlPresent))
    hsane.rodata
  have hdata := b.kernelSection_spans deviceFlags_ok hsane.data
  have hentries := fun e he => entrySection_spans hsane.hhdm_aligned (hsane.entries e he)
  have hbitmap := bitmapSection_spans hhdm hsane.bitmap
  have hdevices := fun d hd => deviceSection_spans (hsane.devices d hd)
  constructor
  · intro sec hsec
    simp only [sections, List.mem_append, List.mem_cons, List.not_mem_nil, or_false,
      List.mem_map] at hsec
    rcases hsec with (((rfl | rfl | rfl) | ⟨e, he, rfl⟩) | rfl) | ⟨d, hd, rfl⟩
    · exact htext.ok
    · exact hrodata.ok
    · exact hdata.ok
    · exact (hentries e he).ok
    · exact hbitmap.ok
    · exact (hdevices d hd).ok
  · intro w
    have hentry : (∃ e ∈ b.entries, (entrySection hhdm e).Maps w) ↔
        ∃ e ∈ b.entries, InPages (hhdm + roundDown e.base) (hhdm + roundUp (e.base + e.length)) w :=
      exists_congr fun e => and_congr_right fun he => (hentries e he).maps w
    have hdevice : (∃ d ∈ b.devices, (deviceSection hhdm d).Maps w) ↔
        ∃ d ∈ b.devices, InPages (hhdm + d.addr) (hhdm + d.addr + d.sizeBytes) w :=
      exists_congr fun d => and_congr_right fun hd => (hdevices d hd).maps w
    simp only [sections, List.mem_append, List.mem_cons, List.not_mem_nil, or_false, List.mem_map,
      or_and_right, exists_or, exists_eq_left, exists_exists_and_eq_and]
    rw [htext.maps, hrodata.maps, hdata.maps, hentry, hbitmap.maps, hdevice, Wanted]
    simp only [or_assoc]

end Boot

section ClearUser

variable {hhdm : Nat} {root : Frame} {m : Mem} {frames : List Frame}

/-- The user bit is neither the present bit nor a bit of the address. -/
theorem nextFrame_clearUser (v : Nat) : nextFrame (v &&& (2 ^ 64 - 1 - pmlUser)) = nextFrame v := by
  have hpresent : v &&& (2 ^ 64 - 1 - pmlUser) &&& pmlPresent = v &&& pmlPresent := by
    rw [Nat.and_assoc]
    rfl
  have haddress : v &&& (2 ^ 64 - 1 - pmlUser) &&& pmlPhysicalAddress = v &&& pmlPhysicalAddress := by
    rw [Nat.and_assoc]
    rfl
  simp only [nextFrame, hpresent, haddress]

/-- Clearing user bits in the root table moves no link and touches no other table. -/
theorem clearUser_view (hhdm : Nat) (root : Frame) (i count : Nat) (m : Mem)
    (hend : i + count ≤ 512) :
    (∀ g j, g ≠ root → view hhdm (clearUser (tableBase hhdm root) i count m) g j = view hhdm m g j) ∧
      ∀ j, nextFrame (view hhdm (clearUser (tableBase hhdm root) i count m) root j) =
        nextFrame (view hhdm m root j) := by
  induction count generalizing i m with
  | zero => exact ⟨fun _ _ _ => rfl, fun _ => rfl⟩
  | succ count ih =>
      have hi : i < 512 := by omega
      obtain ⟨v, hv⟩ : ∃ v, m.read64 (tableBase hhdm root + 8 * i) = v := ⟨_, rfl⟩
      have hlt : v &&& (2 ^ 64 - 1 - pmlUser) < 2 ^ 64 :=
        Nat.lt_of_le_of_lt Nat.and_le_right (by decide)
      obtain ⟨hother, hroot⟩ := ih (i + 1)
        (m.write64 (tableBase hhdm root + 8 * i) (v &&& (2 ^ 64 - 1 - pmlUser))) (by omega)
      rw [clearUser, hv]
      constructor
      · intro g j hg
        rw [hother g j hg]
        exact view_write_of_ne (i := ⟨i, hi⟩) m _ (.inl hg)
      · intro j
        rw [hroot j]
        by_cases hj : j = ⟨i, hi⟩
        · have hnew : view hhdm (m.write64 (tableBase hhdm root + 8 * i)
              (v &&& (2 ^ 64 - 1 - pmlUser))) root ⟨i, hi⟩ = v &&& (2 ^ 64 - 1 - pmlUser) :=
            view_write_same m root ⟨i, hi⟩ hlt
          have hold : view hhdm m root ⟨i, hi⟩ = v := hv
          rw [hj, hnew, hold, nextFrame_clearUser]
        · exact congrArg nextFrame (view_write_of_ne (i := ⟨i, hi⟩) m _ (.inr hj))

theorem pagesOf_clearUser (hok : TablesOk hhdm m root frames) (p : Nat) :
    pagesOf hhdm (clearUser (tableBase hhdm root) 256 256 m) root p = pagesOf hhdm m root p := by
  obtain ⟨hother, hroot⟩ := clearUser_view hhdm root 256 256 m (by decide)
  obtain ⟨m', hm'⟩ : ∃ m', clearUser (tableBase hhdm root) 256 256 m = m' := ⟨_, rfl⟩
  rw [hm'] at hother hroot ⊢
  have hwalk : ∀ is, Radix.walk nextFrame (view hhdm m') root is =
      Radix.walk nextFrame (view hhdm m) root is := by
    intro is
    refine Radix.walk_congr fun pre j post _ c _ => ?_
    by_cases hc : c = root
    · rw [hc, hroot]
    · rw [hother c j hc]
  have hentry : entryAt hhdm m' root (path (4096 * p)) (index 12 (4096 * p)) =
      entryAt hhdm m root (path (4096 * p)) (index 12 (4096 * p)) := by
    rw [entryAt, entryAt, hwalk]
    cases hpt : Radix.walk nextFrame (view hhdm m) root (path (4096 * p)) with
    | none => rfl
    | some pt =>
        have hne : pt ≠ root := by
          rintro rfl
          have hlen := congrArg List.length
            (hok.tree (path (4096 * p)) [] pt (Nat.le_refl 3) (Nat.zero_le 3) hpt rfl)
          cases hlen
        exact hother pt _ hne
  rw [pagesOf, pagesOf, translate_eq, translate_eq, hentry]

end ClearUser

section InitVmm

variable {hhdm : Nat} {b : Boot} {m : Mem} {kPagemap root : Frame} {frames : List Frame}

/-- The frame for the PML4 shows no present entry. -/
def CleanRoot (hhdm : Nat) (m : Mem) (root : Frame) : Prop :=
  ∀ i : Fin 512, view hhdm m root i &&& pmlPresent = 0

/-- `palloc` answers distinct frames, none of them at address zero. -/
structure FramesOk (hhdm : Nat) (frames : List Frame) : Prop where
  nodup : frames.Nodup
  nonnull : ∀ c ∈ frames, tableBase hhdm c ≠ 0

theorem tablesOk_cleanRoot (hframes : FramesOk hhdm (kPagemap :: root :: frames))
    (hclean : CleanRoot hhdm m root) (v : Nat) :
    TablesOk hhdm (m.write64 (tableBase hhdm kPagemap) v) root frames ∧
      ∀ p, pagesOf hhdm (m.write64 (tableBase hhdm kPagemap) v) root p = none := by
  obtain ⟨hk, hnodup⟩ := List.nodup_cons.mp hframes.nodup
  obtain ⟨hroot, hnodup⟩ := List.nodup_cons.mp hnodup
  have hne : root ≠ kPagemap := by
    rintro rfl
    exact hk List.mem_cons_self
  obtain ⟨m', hm'⟩ : ∃ m', m.write64 (tableBase hhdm kPagemap) v = m' := ⟨_, rfl⟩
  have habsent : ∀ i, nextFrame (view hhdm m' root i) = none := by
    intro i
    have hview : view hhdm m' root i = view hhdm m root i := by
      rw [← hm']
      exact view_write_of_ne (i := 0) m v (.inl hne)
    rw [hview, nextFrame, if_neg (not_not_intro (hclean i))]
  rw [hm']
  refine ⟨tablesOk_absent habsent hnodup hroot fun c hc => hframes.nonnull c ?_, fun p => ?_⟩
  · exact List.mem_cons_of_mem _ (List.mem_cons_of_mem _ hc)
  · have hentry : entryAt hhdm m' root (path (4096 * p)) (index 12 (4096 * p)) = 0 := by
      rw [entryAt, path, Radix.walk, habsent]
      rfl
    rw [pagesOf, translate_eq, hentry]
    rfl

/-- `init_vmm` adds the pages that belong there to those that the frame for the PML4 maps already. -/
theorem initVmm_pages (hsane : b.Sane hhdm) (hframes : FramesOk hhdm (kPagemap :: root :: frames))
    {m₀ : Mem} (hm₀ : m.write64 (tableBase hhdm kPagemap) (tableBase hhdm root) = m₀)
    (hok : TablesOk hhdm m₀ root frames) :
    (3 * ((b.sections hhdm).map fun sec => pageCount sec.len).sum ≤ frames.length →
      ∃ r, initVmm hhdm b m ((kPagemap :: root :: frames).map (tableBase hhdm)) = some r) ∧
    ∀ pml4Base m' supply,
      initVmm hhdm b m ((kPagemap :: root :: frames).map (tableBase hhdm)) =
        some (pml4Base, m', supply) →
      ∀ w, (translate hhdm m' pml4Base w).isSome ↔
        b.Wanted hhdm w ∨ (pagesOf hhdm m₀ root (page w)).isSome := by
  obtain ⟨hsections, hwanted⟩ := hsane.sections_spec
  have hnonnull : ¬ (tableBase hhdm kPagemap = 0 ∨ tableBase hhdm root = 0) := by
    have hk := hframes.nonnull kPagemap (by simp)
    have hr := hframes.nonnull root (by simp)
    exact fun h => h.elim hk hr
  rw [List.map_cons, List.map_cons, initVmm, if_neg hnonnull]
  dsimp only
  rw [hm₀]
  constructor
  · intro hsupply
    obtain ⟨s, hret⟩ := mapSections_total hsane.hhdm_lt hsections hok hsupply
    rw [hret]
    exact ⟨_, rfl⟩
  · intro pml4Base m' supply hret w
    obtain ⟨s, hmap, heq⟩ := Option.map_eq_some_iff.mp hret
    cases heq
    obtain ⟨m₁, frames₁, rfl, hok₁, hpages⟩ := mapSections_spec hsane.hhdm_lt hsections hok hmap
    rw [translate_eq_pagesOf, pagesOf_clearUser hok₁, hpages w, hwanted w]

/-- What `init_vmm` leaves mapped if the frame for the PML4 happens to be clean. -/
theorem kernel_page_map (hsane : b.Sane hhdm)
    (hframes : FramesOk hhdm (kPagemap :: root :: frames)) (hclean : CleanRoot hhdm m root) :
    (3 * ((b.sections hhdm).map fun sec => pageCount sec.len).sum ≤ frames.length →
      ∃ r, initVmm hhdm b m ((kPagemap :: root :: frames).map (tableBase hhdm)) = some r) ∧
    ∀ pml4Base m' supply,
      initVmm hhdm b m ((kPagemap :: root :: frames).map (tableBase hhdm)) =
        some (pml4Base, m', supply) →
      ∀ w, (translate hhdm m' pml4Base w).isSome ↔ b.Wanted hhdm w := by
  obtain ⟨hok, hnone⟩ := tablesOk_cleanRoot hframes hclean (tableBase hhdm root)
  obtain ⟨htotal, hpages⟩ := initVmm_pages hsane hframes rfl hok
  refine ⟨htotal, fun pml4Base m' supply hret w => ?_⟩
  rw [hpages pml4Base m' supply hret, hnone]
  exact ⟨fun h => h.resolve_right nofun, .inl⟩

/-- A kernel of nothing but one page of code. -/
def onePageKernel : Boot := ⟨4096, 8192, 0, 0, 0, 0, 0, 0, [], 0, 0, []⟩

theorem kernel_page_map_one_page :
    ∃ pml4Base m' supply, initVmm 0 onePageKernel (fun _ => 0) [4096, 8192, 12288, 16384, 20480] =
        some (pml4Base, m', supply) ∧ (translate 0 m' pml4Base 5000).isSome ∧
      ¬ (translate 0 m' pml4Base 9000).isSome := by
  have hsane : onePageKernel.Sane 0 := by
    refine ⟨by decide, by decide, by decide, by decide, by decide, nofun, ?_, nofun⟩
    exact ⟨by decide, by decide⟩
  have hframes : FramesOk 0 [⟨1, by decide⟩, ⟨2, by decide⟩, ⟨3, by decide⟩, ⟨4, by decide⟩,
      ⟨5, by decide⟩] := ⟨by decide, by decide⟩
  have hclean : CleanRoot 0 (fun _ => 0) ⟨2, by decide⟩ := by
    intro i
    have hzero : view 0 (fun _ => 0) ⟨2, by decide⟩ i = 0 := Mem.readN_eq_zero fun _ _ _ => rfl
    rw [hzero]
    rfl
  obtain ⟨htotal, hpages⟩ := kernel_page_map hsane hframes hclean
  obtain ⟨⟨pml4Base, m', supply⟩, hret⟩ := htotal (by decide)
  refine ⟨pml4Base, m', supply, hret, ?_, ?_⟩
  · rw [hpages pml4Base m' supply hret]
    exact .inl ⟨4096, by decide, by decide, by decide⟩
  · rw [hpages pml4Base m' supply hret]
    rintro (⟨v, hlo, hhi, hpage⟩ | ⟨v, -, hhi, -⟩ | ⟨v, -, hhi, -⟩ | ⟨e, he, -⟩ | ⟨v, -, hhi, -⟩ |
      ⟨d, hd, -⟩)
    · simp only [onePageKernel, roundDown, roundUp, page] at hlo hhi hpage
      omega
    · exact absurd hhi (Nat.not_lt_zero v)
    · exact absurd hhi (Nat.not_lt_zero v)
    · cases he
    · exact absurd hhi (Nat.not_lt_zero v)
    · cases hd

/-- Where Limine puts the direct map. -/
def limineHhdm : Nat := 0xffff800000000000

/-- A kernel of one page of code, one of constants and one of data, on a machine whose memory map
has one entry, with a bitmap of one page. -/
def smallKernel : Boot where
  stext := 0xffffffff80000000
  etext := 0xffffffff80000f00
  srodata := 0xffffffff80001000
  erodata := 0xffffffff80001f00
  sdata := 0xffffffff80002000
  edata := 0xffffffff80002f00
  kernelVaddr := 0xffffffff80000000
  kernelPaddr := 0x200000
  entries := [⟨0x100000, 0x1000⟩]
  bitmapAddr := limineHhdm + 0x101000
  bitmapSize := 0x40
  devices := []

theorem smallKernel_sane : smallKernel.Sane limineHhdm := by
  refine ⟨by decide, by decide, by decide, by decide, by decide, ?_, ⟨by decide, by decide⟩, nofun⟩
  intro e he
  rw [List.mem_singleton.mp he]
  decide

theorem smallKernel_unwanted : ¬ smallKernel.Wanted limineHhdm 0x400000 := by
  rintro (⟨v, hlo, hhi, hpage⟩ | ⟨v, hlo, hhi, hpage⟩ | ⟨v, hlo, hhi, hpage⟩ |
    ⟨e, he, v, hlo, hhi, hpage⟩ | ⟨v, hlo, hhi, hpage⟩ | ⟨d, hd, -⟩)
  · simp only [smallKernel, roundDown, roundUp, page] at hlo hhi hpage
    omega
  · simp only [smallKernel, roundDown, roundUp, page] at hlo hhi hpage
    omega
  · simp only [smallKernel, roundDown, roundUp, page] at hlo hhi hpage
    omega
  · rw [List.mem_singleton.mp he] at hlo hhi
    simp only [roundDown, roundUp, page, limineHhdm] at hlo hhi hpage
    omega
  · simp only [smallKernel, page, limineHhdm] at hlo hhi hpage
    omega
  · cases hd

/-- A store to a frame that is none of the tables changes none of them. -/
theorem write64_agrees {f : Frame} (v : Nat)
    (hne : ∀ e, Radix.Reaches nextFrame (view hhdm m) root 3 e → e ≠ f) :
    ∀ e, Radix.Reaches nextFrame (view hhdm m) root 3 e → ∀ x, InFrame hhdm e x →
      m.write64 (tableBase hhdm f) v x = m x := by
  intro e he x hx
  have hapart := tableBase_separated hhdm (hne e he)
  simp only [InFrame, Span.Has, pageSize] at hx hapart
  apply Mem.writeN_out
  omega

/-- What a kernel that ran before may have left behind: a map of one page with its PML4 in `root`,
which is still there when `k_pagemap` has been written. -/
theorem exists_stale_map (vaddr : Nat) (hhhdm : hhdm < 2 ^ 64)
    (hframes : FramesOk hhdm (kPagemap :: root :: frames)) (hsupply : 3 ≤ frames.length) :
    ∃ (m : Mem) (frames' : List Frame), FramesOk hhdm (kPagemap :: root :: frames') ∧
      TablesOk hhdm (m.write64 (tableBase hhdm kPagemap) (tableBase hhdm root)) root frames' ∧
      frames.length ≤ frames'.length + 3 ∧
      (pagesOf hhdm (m.write64 (tableBase hhdm kPagemap) (tableBase hhdm root)) root
        (page vaddr)).isSome := by
  obtain ⟨hkout, hnodup⟩ := List.nodup_cons.mp hframes.nodup
  obtain ⟨hrout, hfresh⟩ := List.nodup_cons.mp hnodup
  have habsent : ∀ i, nextFrame (view hhdm (fun _ => 0) root i) = none := fun i =>
    (congrArg nextFrame (Mem.readN_eq_zero fun _ _ _ => rfl)).trans nextFrame_zero
  have hempty : TablesOk hhdm (fun _ => 0) root frames :=
    tablesOk_absent habsent hfresh hrout fun c hc => hframes.nonnull c (by simp [hc])
  obtain ⟨r, hmap⟩ := mapPage_total vaddr 0x5000 3 hhhdm hempty hsupply
  obtain ⟨m, frames', rfl, hgrown, hentry, hlen⟩ := mapPage_grown (P := fun _ => True) vaddr hhhdm
    hempty (fun _ _ => trivial) (by decide) hmap
  have hagree := @write64_agrees hhdm m root kPagemap (tableBase hhdm root) (by
    rintro e ⟨js, hjs, hwalk⟩ rfl
    rcases hgrown.added hjs hwalk with hold | ⟨-, he⟩
    · obtain ⟨-, rfl⟩ := walk_absent habsent hold
      exact hkout List.mem_cons_self
    · exact hkout (List.mem_cons_of_mem _ he))
  have hsub : (kPagemap :: root :: frames').Sublist (kPagemap :: root :: frames) :=
    (hgrown.suffix.sublist.cons_cons root).cons_cons kPagemap
  refine ⟨m, frames', ⟨hframes.nodup.sublist hsub, fun c hc => hframes.nonnull c (hsub.subset hc)⟩,
    hgrown.ok.of_agree hagree, hlen, ?_⟩
  rw [pagesOf_agree hagree, pagesOf_set hentry, if_pos rfl]
  rfl

/-- Frames 3 to 20. -/
def nextFrames : List Frame := (List.finRange 18).map fun i : Fin 18 =>
  ⟨i.val + 3, by omega⟩

/-- A map left over in the frame for the PML4, here one whose only page is that of 0x400000, stays
mapped. -/
theorem stale_entry_maps : smallKernel.Sane limineHhdm ∧ ∃ m frames pml4Base m' supply,
    FramesOk limineHhdm (⟨1, by decide⟩ :: ⟨2, by decide⟩ :: frames) ∧
    initVmm limineHhdm smallKernel m
        ((⟨1, by decide⟩ :: ⟨2, by decide⟩ :: frames).map (tableBase limineHhdm)) =
      some (pml4Base, m', supply) ∧
    (translate limineHhdm m' pml4Base 0x400000).isSome ∧
    ¬ smallKernel.Wanted limineHhdm 0x400000 := by
  have hpool : FramesOk limineHhdm (⟨1, by decide⟩ :: ⟨2, by decide⟩ :: nextFrames) :=
    ⟨by decide, by decide⟩
  have hcount : nextFrames.length = 18 := by decide
  obtain ⟨m, frames, hframes, hok, hlen, hstale⟩ :=
    exists_stale_map 0x400000 (by decide) hpool (by decide)
  obtain ⟨htotal, hpages⟩ := initVmm_pages smallKernel_sane hframes rfl hok
  have hpagesNeeded :
      ((smallKernel.sections limineHhdm).map fun sec => pageCount sec.len).sum = 5 := by
    decide
  obtain ⟨⟨pml4Base, m', supply⟩, hret⟩ := htotal (by omega)
  refine ⟨smallKernel_sane, m, frames, pml4Base, m', supply, hframes, hret, ?_,
    smallKernel_unwanted⟩
  rw [hpages pml4Base m' supply hret]
  exact .inr hstale

end InitVmm

end Tellurium.Vmm
