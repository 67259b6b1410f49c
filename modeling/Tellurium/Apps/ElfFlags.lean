import Tellurium.Apps.ElfImage

/-!
The permissions that `elf_load` (`kernel/apps/elf.c`) gives to the pages of a program. The
loader moves the address of the buffer on by the segment's place in its first page before it
computes the physical address, and `map_page` joins that address with the flags as it is. So
the place in the page shows up in the low bits of every entry of the segment.
-/

namespace Tellurium.Elf

open Tellurium.Lib Tellurium.Vmm

/-- Bits 0 to 11 and 63 of a page table entry. -/
def flagBits (entry : Nat) : Nat := entry &&& (2 ^ 63 ||| (2 ^ 12 - 1))

namespace Phdr

/-- Present and for the user, writable with `PF_W`, and not executable without `PF_X`. -/
def permissions (ph : Phdr) : Nat :=
  (pmlPresent ||| pmlUser) ||| (if ph.pFlags &&& pfW ≠ 0 then pmlWrite else 0) |||
    (if ph.pFlags &&& pfX ≠ 0 then 0 else pmlNotExecutable)

/-- The pages of the segment, as the page tables number them. -/
def Maps (ph : Phdr) (p : Nat) : Prop :=
  ∃ k < ph.pages, page (ph.pVaddr - ph.offset + 4096 * k) = p

/-- The segment starts in its first page at a place whose bits are flags that it has anyway. -/
def OffsetFits (ph : Phdr) : Prop :=
  ph.offset < 8 ∧ (ph.offset &&& pmlWrite ≠ 0 → ph.pFlags &&& pfW ≠ 0)

theorem vmmFlags_eq (ph : Phdr) : ph.vmmFlags = ph.permissions := by
  unfold vmmFlags permissions
  split_ifs <;> rfl

theorem offset_lt (ph : Phdr) : ph.offset < 4096 := by
  rw [offset_eq]
  exact Nat.mod_lt _ (by decide)

end Phdr

theorem flagBits_or (a b : Nat) : flagBits (a ||| b) = flagBits a ||| flagBits b :=
  Nat.and_or_distrib_right ..

theorem flagBits_address {a : Nat} (ha : a < 2 ^ 63) : flagBits a = a % 4096 := by
  have hlow : a &&& (2 ^ 12 - 1) = a % 4096 := Nat.and_two_pow_sub_one_eq_mod a 12
  rw [flagBits, Nat.and_or_distrib_left, hlow, Nat.and_two_pow, Nat.testBit_lt_two_pow ha]
  simp

theorem flagBits_permissions (ph : Phdr) : flagBits ph.permissions = ph.permissions := by
  unfold Phdr.permissions
  split_ifs <;> decide

/-- The flags of an entry that the loader makes for the segment. -/
theorem flagBits_entry {ph : Phdr} {base k : Nat} (haligned : 4096 ∣ base)
    (hbelow : base + ph.offset + 4096 * k < 2 ^ 63) :
    flagBits ((base + ph.offset + 4096 * k) % 2 ^ 64 ||| ph.vmmFlags) =
      ph.offset ||| ph.permissions := by
  have hoffset := ph.offset_lt
  have hplace : (base + ph.offset + 4096 * k) % 4096 = ph.offset := by omega
  rw [Nat.mod_eq_of_lt (by omega), flagBits_or, flagBits_address hbelow, hplace, ph.vmmFlags_eq,
    flagBits_permissions]

theorem permissions_low (ph : Phdr) : ph.permissions % 2 ^ 12 ≤ 7 := by
  unfold Phdr.permissions
  split_ifs <;> decide

theorem offset_lt_of_or (ph : Phdr) (hor : ph.offset ||| ph.permissions = ph.permissions) :
    ph.offset < 8 := by
  have hlow : (ph.offset ||| ph.permissions) % 2 ^ 12 = ph.permissions % 2 ^ 12 := by rw [hor]
  rw [Nat.or_mod_two_pow, Nat.mod_eq_of_lt ph.offset_lt] at hlow
  have hle : ph.offset ≤ ph.offset ||| ph.permissions % 2 ^ 12 := Nat.left_le_or
  have hperm := permissions_low ph
  omega

theorem offsetFits_iff (ph : Phdr) :
    ph.offset ||| ph.permissions = ph.permissions ↔ ph.OffsetFits := by
  have hwritable : ∀ offset < 8, ∀ nx ∈ [0, pmlNotExecutable],
      offset ||| (pmlPresent ||| pmlUser ||| pmlWrite ||| nx) =
        pmlPresent ||| pmlUser ||| pmlWrite ||| nx := by decide
  have hreadonly : ∀ offset < 8, ∀ nx ∈ [0, pmlNotExecutable],
      (offset ||| (pmlPresent ||| pmlUser ||| 0 ||| nx) = pmlPresent ||| pmlUser ||| 0 ||| nx ↔
        ¬ (offset &&& pmlWrite ≠ 0)) := by decide
  have hnx : (if ph.pFlags &&& pfX ≠ 0 then 0 else pmlNotExecutable) ∈ [0, pmlNotExecutable] := by
    split_ifs <;> simp
  rw [Phdr.OffsetFits, ← and_iff_right_of_imp (offset_lt_of_or ph)]
  apply and_congr_right
  intro hlt
  unfold Phdr.permissions
  generalize (if ph.pFlags &&& pfX ≠ 0 then 0 else pmlNotExecutable) = nx at hnx ⊢
  split_ifs with hwrite
  · exact iff_of_true (hwritable _ hlt _ hnx) fun _ => hwrite
  · rw [hreadonly _ hlt _ hnx]
    exact ⟨fun hzero hset => absurd hset hzero, fun himp hset => hwrite (himp hset)⟩

section Load

variable {hhdm data : Nat} {root : Frame} {frames : List Frame} {loads : List Load} {f : ElfFile}
  {s s' : LoadState} {readFails wantsEntry : Bool} {entry : Option Nat} {table : Frame → Prop}

/-- After the segments of `done` were loaded: every page of theirs has the entry that its segment
made. -/
structure Mapped (hhdm data : Nat) (root : Frame) (table : Frame → Prop) (f : ElfFile) (m : Mem)
    (frames : List Frame) (done : List Load) : Prop where
  ok : TablesOk hhdm m root frames
  tables : ∀ e, Radix.Reaches nextFrame (view hhdm m) root 3 e ∨ e ∈ frames → table e
  file : f.At m data
  entries : ∀ l ∈ done, ∀ p, l.ph.Maps p → ∃ k < l.ph.pages, pagesOf hhdm m root p =
    some ((l.addr - hhdm + l.ph.offset + 4096 * k) % 2 ^ 64 ||| l.ph.vmmFlags)

theorem page_page (vaddr : Nat) : page (4096 * page vaddr) = page vaddr := by
  simp only [page]
  omega

theorem Mapped.after_loadSegment {m : Mem} {done rest : List Load} {l : Load} {buffers : List Nat}
    {r : Nat × LoadState} (hhhdm : hhdm < 2 ^ 64)
    (h : Mapped hhdm data root table f m frames done) (hall : loads = done ++ l :: rest)
    (hapart : Apart hhdm table ⟨data, f.size⟩ loads) (hl : l.Ok hhdm)
    (hshort : 4096 * l.ph.pages < 2 ^ 31)
    (htop : l.ph.pVaddr - l.ph.offset + 4096 * l.ph.pages ≤ 2 ^ 64 - 4096)
    (hdisjoint : ∀ l' ∈ done, ∀ p, l'.ph.Maps p → ¬ l.ph.Maps p)
    (hret : loadSegment hhdm (tableBase hhdm root) data l.ph
      ⟨m, frames.map (tableBase hhdm), l.addr :: buffers⟩ = some r) :
    ∃ m' frames', r = (elfSuccess, ⟨m', frames'.map (tableBase hhdm), buffers⟩) ∧
      Mapped hhdm data root table f m' frames' (done ++ [l]) := by
  have hmem : l ∈ loads := by simp [hall]
  have hbuffer := hapart.bufferTable l hmem
  obtain ⟨m', frames', hr, hgrown, hcover⟩ := loadSegment_grown (P := fun _ => True) hhhdm h.ok
    h.tables hl hshort htop (fun _ _ _ _ => trivial) hbuffer hret
  obtain ⟨htables, hsame⟩ := hgrown.kept (l.fill_tables _ h.tables hbuffer) h.tables
  refine ⟨m', frames', hr, hgrown.ok, htables, ?_, ?_⟩
  · intro k hk
    have hfree := hapart.file_free
      (show Span.Has ⟨data, f.size⟩ (data + k) from ⟨Nat.le_add_right _ _, Nat.add_lt_add_left hk _⟩)
    rw [hsame _ hfree.2, l.fill_out _ m (hfree.1 l hmem)]
    exact h.file k hk
  · intro l' hl' p hp
    have hpage : page (4096 * p) = p := by
      obtain ⟨k, -, rfl⟩ := hp
      exact page_page _
    have hentry := hcover (4096 * p)
    rw [Covers, hpage, pagesOf_agree (l.fill_tables _ h.tables hbuffer)] at hentry
    rcases List.mem_append.mp hl' with hold | hnew
    · rcases hentry with ⟨k, hk, hkp, -⟩ | ⟨-, hkept⟩
      · exact absurd ⟨k, hk, hkp⟩ (hdisjoint l' hold p hp)
      · rw [hkept]
        exact h.entries l' hold p hp
    · obtain rfl := List.mem_singleton.mp hnew
      rcases hentry with ⟨k, hk, -, hval⟩ | ⟨hnone, -⟩
      · exact ⟨k, hk, hval⟩
      · obtain ⟨k, hk, hkp⟩ := hp
        exact absurd hkp (hnone k hk)

/-- The pages of different segments are different, and each segment is one that the loader can
count: less than 2 GiB, and it ends below the top of the address space. -/
structure ElfFile.Spread (f : ElfFile) : Prop extends f.Headers, f.IntSized where
  top : ∀ ph ∈ f.segments, ph.pVaddr - ph.offset + 4096 * ph.pages ≤ 2 ^ 64 - 4096
  disjoint : f.segments.Pairwise fun ph ph' => ∀ p, ph.Maps p → ¬ ph'.Maps p

/-- After a successful load the flags of every page are the segment's, joined with the place in
the first page at which the segment starts. -/
theorem flags_after_load (h : Call hhdm data root frames loads f s) (hspread : f.Spread)
    (hret : elfLoad hhdm (tableBase hhdm root) (some f) readFails wantsEntry s =
      some (elfSuccess, entry, s')) :
    ∀ ph ∈ f.segments, ∀ p, ph.Maps p → ∃ e, pagesOf hhdm s'.mem root p = some e ∧
      flagBits e = ph.offset ||| ph.permissions := by
  obtain ⟨more, hrun⟩ := elfLoad_success h hret
  have hsegment : ∀ l ∈ loads, l.ph ∈ f.segments := fun l hl => h.requests ▸ List.mem_map_of_mem hl
  have hstart : Mapped hhdm data root (OwnTable hhdm s.mem root frames) f (f.readTo data s.mem)
      frames [] := ⟨h.start.ok, h.start.tables, f.readTo_at data s.mem, nofun⟩
  have hstep : ∀ m frames' done l rest buffers r, loads = done ++ l :: rest →
      Mapped hhdm data root (OwnTable hhdm s.mem root frames) f m frames' done →
      loadSegment hhdm (tableBase hhdm root) data l.ph
        ⟨m, frames'.map (tableBase hhdm), l.addr :: buffers⟩ = some r →
      ∃ m' frames'', r = (elfSuccess, ⟨m', frames''.map (tableBase hhdm), buffers⟩) ∧
        Mapped hhdm data root (OwnTable hhdm s.mem root frames) f m' frames'' (done ++ [l]) := by
    intro m frames' done l rest buffers r hall hinv hload
    have hl : l ∈ loads := by simp [hall]
    have hpairs := hspread.disjoint
    rw [← h.requests, hall, List.map_append, List.pairwise_append] at hpairs
    apply hinv.after_loadSegment h.hhdm_lt hall h.apart (h.answers l hl)
      (hspread.short l.ph (hsegment l hl)) (hspread.top l.ph (hsegment l hl)) _ hload
    exact fun l' hl' => hpairs.2.2 l'.ph (List.mem_map_of_mem hl') l.ph (by simp)
  obtain ⟨frames', hmapped⟩ := loadSegments_inv (i := 0) hspread.toHeaders hspread.table h.fits
    (fun hinv => Mapped.file hinv) hstep hstart (List.nil_append loads).symm h.requests hrun
  intro ph hph p hp
  rw [← h.requests] at hph
  obtain ⟨l, hl, rfl⟩ := List.mem_map.mp hph
  obtain ⟨k, hk, hentry⟩ := hmapped.entries l hl p hp
  have hok := h.answers l hl
  have hphysical := hok.physical
  have hoffset := l.ph.offset_lt
  exact ⟨_, hentry, flagBits_entry (hok.aligned (Nat.zero_lt_of_lt hk)) (by omega)⟩

/-- Every page of every segment has exactly the permissions of its segment. -/
def Permitted (hhdm : Nat) (m : Mem) (root : Frame) (f : ElfFile) : Prop :=
  ∀ ph ∈ f.segments, ∀ p, ph.Maps p →
    ∃ e, pagesOf hhdm m root p = some e ∧ flagBits e = ph.permissions

/-- The pages of a loaded program have the right permissions exactly if every segment starts in
its first page at a place whose bits are flags of the segment. -/
theorem segment_permissions_iff (h : Call hhdm data root frames loads f s) (hspread : f.Spread)
    (hret : elfLoad hhdm (tableBase hhdm root) (some f) readFails wantsEntry s =
      some (elfSuccess, entry, s')) :
    Permitted hhdm s'.mem root f ↔ ∀ ph ∈ f.segments, 0 < ph.pages → ph.OffsetFits := by
  have hflags := flags_after_load h hspread hret
  constructor
  · intro hpermitted ph hph hpos
    have hmaps : ph.Maps (page (ph.pVaddr - ph.offset)) := ⟨0, hpos, rfl⟩
    obtain ⟨e, he, hbits⟩ := hflags ph hph _ hmaps
    obtain ⟨e', he', hbits'⟩ := hpermitted ph hph _ hmaps
    obtain rfl : e = e' := Option.some.inj (he.symm.trans he')
    exact (offsetFits_iff ph).mp (hbits.symm.trans hbits')
  · intro hfits ph hph p hp
    obtain ⟨e, he, hbits⟩ := hflags ph hph p hp
    obtain ⟨k, hk, -⟩ := hp
    refine ⟨e, he, ?_⟩
    rw [hbits]
    exact (offsetFits_iff ph).mpr (hfits ph hph (Nat.zero_lt_of_lt hk))

end Load

/-- The tiny file with its segment at another place of the page. -/
def placedFile (place : UInt8) : ElfFile :=
  {tinyFile 4 with bytes := Function.update (tinyFile 4).bytes 80 place}

def placedPhdr (place : Nat) : Phdr := ⟨ptLoad, 5, 0, 0x400000 + place, 4, 4⟩

theorem placedFile_header : ∀ place ∈ [1, 8],
    (placedFile place).segments = [placedPhdr place.toNat] ∧ (placedPhdr place.toNat).pages = 1 ∧
    (∀ i < ePhnum (placedFile place).bytes 0,
      (placedFile place).phdrAddr i + 56 ≤ (placedFile place).size) ∧
    ePhnum (placedFile place).bytes 0 * ePhentsize (placedFile place).bytes 0 < 2 ^ 31 ∧
    elfVerifyHeader (placedFile place).bytes 0 = true := by
  decide +kernel

section Placed

variable {place : UInt8}

theorem placed_spread (hplace : place ∈ [1, 8]) :
    (placedFile place).Sound ∧ (placedFile place).Spread := by
  obtain ⟨hsegments, hpages, hphdrs, htable, -⟩ := placedFile_header place hplace
  have hsmall : place.toNat ≤ 8 := by
    rcases List.mem_cons.mp hplace with rfl | hplace
    · decide
    · rw [List.mem_singleton.mp hplace]
      decide
  have honly : ∀ ph ∈ (placedFile place).segments, ph = placedPhdr place.toNat := by
    intro ph hph
    rw [hsegments] at hph
    exact List.mem_singleton.mp hph
  have hsize : (placedFile place).size = 120 := rfl
  have hheaders : (placedFile place).Headers := ⟨by omega, hphdrs⟩
  have hall : ∀ {P : Phdr → Prop}, P (placedPhdr place.toNat) →
      ∀ ph ∈ (placedFile place).segments, P ph := fun hP ph hph => honly ph hph ▸ hP
  constructor
  · refine ⟨hheaders, hall (by simp [placedPhdr, hsize]), hall (by simp [placedPhdr]), hall ?_,
      by simp [hsegments]⟩
    simp only [placedPhdr]
    omega
  · refine ⟨hheaders, ⟨htable, hall (by rw [hpages]; decide)⟩, hall ?_, by simp [hsegments]⟩
    rw [hpages]
    simp only [placedPhdr]
    omega

theorem placed_call (hplace : place ∈ [1, 8]) :
    Call 0xffff800000000000 (0xffff800000000000 + 0x10000) ⟨1, by decide⟩ tinyFrames
      [⟨placedPhdr place.toNat, 0xffff800000000000 + 0x20000⟩] (placedFile place)
      (tinyState 0xffff800000000000) := by
  obtain ⟨hsegments, hpages, -⟩ := placedFile_header place hplace
  exact onePage_call (by decide) rfl hsegments hpages

theorem placed_load (hplace : place ∈ [1, 8]) : ∃ entry s',
    elfLoad 0xffff800000000000 (tableBase 0xffff800000000000 ⟨1, by decide⟩)
      (some (placedFile place)) false true (tinyState 0xffff800000000000) =
        some (elfSuccess, entry, s') := by
  obtain ⟨hsegments, hpages, -, -, hverify⟩ := placedFile_header place hplace
  obtain ⟨hsound, hspread⟩ := placed_spread hplace
  have hcall := placed_call hplace
  refine elfLoad_total hcall hsound hspread.toIntSized (hcall.tailsFree ?_) (by decide) hverify ?_
  · intro ph hph
    rw [hsegments, List.mem_singleton] at hph
    rw [hph]
    exact Nat.le_of_ble_eq_true rfl
  · simp [hpages, tinyFrames]

end Placed

/-- A segment eight bytes into its page: bit 3 of the entry, the write-through flag, is set. -/
theorem placed_write_through : ∃ hhdm data root frames loads f s entry s',
    Call hhdm data root frames loads f s ∧ f.Spread ∧
    elfLoad hhdm (tableBase hhdm root) (some f) false true s = some (elfSuccess, entry, s') ∧
    ¬ Permitted hhdm s'.mem root f := by
  have hplace : (8 : UInt8) ∈ [1, 8] := by decide
  have hcall := placed_call hplace
  obtain ⟨-, hspread⟩ := placed_spread hplace
  obtain ⟨hsegments, hpages, -⟩ := placedFile_header 8 hplace
  obtain ⟨entry, s', hret⟩ := placed_load hplace
  refine ⟨_, _, _, _, _, _, _, entry, s', hcall, hspread, hret, ?_⟩
  intro hpermitted
  have hmem : placedPhdr (UInt8.toNat 8) ∈ (placedFile 8).segments := by simp [hsegments]
  have hmaps : (placedPhdr (UInt8.toNat 8)).Maps 0x400 := ⟨0, by rw [hpages]; decide, by decide⟩
  obtain ⟨e, he, hbits⟩ := flags_after_load hcall hspread hret _ hmem _ hmaps
  obtain ⟨e', he', hbits'⟩ := hpermitted _ hmem _ hmaps
  obtain rfl : e = e' := Option.some.inj (he.symm.trans he')
  exact absurd (hbits.symm.trans hbits') (by decide)

/-- One byte into the page the place is hidden by the present flag. -/
theorem segment_permissions_one : ∃ entry s',
    elfLoad 0xffff800000000000 (tableBase 0xffff800000000000 ⟨1, by decide⟩) (some (placedFile 1)) false
      true (tinyState 0xffff800000000000) = some (elfSuccess, entry, s') ∧
    Permitted 0xffff800000000000 s'.mem ⟨1, by decide⟩ (placedFile 1) := by
  have hplace : (1 : UInt8) ∈ [1, 8] := by decide
  obtain ⟨hsegments, -⟩ := placedFile_header 1 hplace
  obtain ⟨-, hspread⟩ := placed_spread hplace
  obtain ⟨entry, s', hret⟩ := placed_load hplace
  refine ⟨entry, s', hret, (segment_permissions_iff (placed_call hplace) hspread hret).mpr ?_⟩
  intro ph hph _
  rw [hsegments, List.mem_singleton] at hph
  rw [hph]
  exact ⟨by decide, fun hset => absurd rfl hset⟩

end Tellurium.Elf
