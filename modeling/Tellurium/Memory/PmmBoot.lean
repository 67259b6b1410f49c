import Tellurium.Lib.Loop
import Tellurium.Memory.Pmm

/-!
From the boot memory map to the bitmap (`kernel/memory/pmm.c`, `init_pmm`). The map is the
one the bootloader hands over: its usable entries consist of whole pages and follow one
another without overlap. The bitmap takes the head of the first usable entry that is longer,
and what is left of the usable entries is marked as free.
-/

namespace Tellurium.Pmm

open Lib

/-- The end of an entry, in the address space it does not leave. -/
def MemmapEntry.limit (e : MemmapEntry) : Nat := e.base.toNat + e.length.toNat

/-- What the boot protocol promises about the usable entries. -/
structure WellFormedMap (entries : List MemmapEntry) : Prop where
  base : ∀ e ∈ entries, e.type = limineMemmapUsable → 4096 ∣ e.base.toNat
  length : ∀ e ∈ entries, e.type = limineMemmapUsable → 4096 ∣ e.length.toNat
  fits : ∀ e ∈ entries, e.type = limineMemmapUsable → e.limit < 2 ^ 64
  ordered : entries.Pairwise fun a b => a.type = limineMemmapUsable → b.type = limineMemmapUsable → a.limit ≤ b.base.toNat

/-- The physical address `init_pmm` puts the bitmap at: the start of the first usable entry
that is longer than it. -/
def bitmapStorage (bitmapSizeAligned : UInt64) : List MemmapEntry → Option UInt64
  | [] => none
  | entry :: rest =>
      if entry.type = limineMemmapUsable ∧ bitmapSizeAligned < entry.length then some entry.base
      else bitmapStorage bitmapSizeAligned rest

/-- The entry without the head that holds the bitmap. -/
def MemmapEntry.shrink (e : MemmapEntry) (bitmapSizeAligned : UInt64) : MemmapEntry :=
  {e with base := e.base + bitmapSizeAligned, length := e.length - bitmapSizeAligned}

/-! ### Checked writes -/

/-- `bitmap_reset` where a byte outside the bitmap is not written. -/
def bitmapResetChecked (bitmap : Array UInt8) (addr : UInt64) : Option (Array UInt8) :=
  if (addr / pageSizeBytes / 8).toNat < bitmap.size then some (bitmapReset bitmap addr) else none

def releaseEntryChecked (bitmap : Array UInt8) (entry : MemmapEntry) : Option (Array UInt8) :=
  if entry.type = limineMemmapUsable then
    (List.range ((entry.length.toNat + 4095) / 4096)).foldlM (fun bitmap j =>
      bitmapResetChecked bitmap (entry.base + UInt64.ofNat (4096 * j))) bitmap
  else some bitmap

/-- `init_pmm` with every bit write checked; no result if one leaves the bitmap. -/
def initPmmChecked (entries : List MemmapEntry) : Option State := do
  let frames := maxAddress entries / pageSizeBytes
  let bitmapSizeAligned := palign frames
  let entries ← reserveBitmap bitmapSizeAligned entries
  let bitmap ← entries.foldlM releaseEntryChecked (Array.replicate bitmapSizeAligned.toNat 0xff)
  some {bitmap := bitmap, bitmapMaxEntries := frames, cachedIndex := 0}

/-- Frame `f` lies in a usable entry of the map. -/
def UsableFrame (entries : List MemmapEntry) (f : Nat) : Prop :=
  ∃ e ∈ entries, e.type = limineMemmapUsable ∧ e.base.toNat ≤ 4096 * f ∧ 4096 * f < e.limit

section Sizes

theorem palign_dvd (frames : UInt64) : 4096 ∣ (palign frames).toNat := by
  have hpage : pageSizeBytes.toNat = 4096 := rfl
  unfold palign
  dsimp only
  rw [UInt64.toNat_mul, hpage]
  omega

/-- No usable entry ends behind the last one. -/
theorem limit_le_maxAddress_aux {entries : List MemmapEntry} (h : WellFormedMap entries)
    (start : UInt64) (hstart : ∀ e ∈ entries, e.type = limineMemmapUsable → start.toNat ≤ e.base.toNat) :
    start.toNat ≤ (entries.foldl (fun maxAddress entry =>
        if entry.type = limineMemmapUsable then entry.base + entry.length else maxAddress)
        start).toNat ∧
      ∀ e ∈ entries, e.type = limineMemmapUsable → e.limit ≤ (entries.foldl (fun maxAddress entry =>
        if entry.type = limineMemmapUsable then entry.base + entry.length else maxAddress)
        start).toNat := by
  induction entries generalizing start with
  | nil => exact ⟨Nat.le_refl _, fun e he => by cases he⟩
  | cons e rest ih =>
      obtain ⟨hhead, htail⟩ := List.pairwise_cons.mp h.ordered
      have hrest : WellFormedMap rest :=
        ⟨fun x hx => h.base x (List.mem_cons_of_mem e hx),
          fun x hx => h.length x (List.mem_cons_of_mem e hx),
          fun x hx => h.fits x (List.mem_cons_of_mem e hx), htail⟩
      rw [List.foldl_cons]
      by_cases husable : e.type = limineMemmapUsable
      · have hend : (e.base + e.length).toNat = e.limit := by
          rw [UInt64.toNat_add]
          exact Nat.mod_eq_of_lt (h.fits e List.mem_cons_self husable)
        rw [if_pos husable]
        obtain ⟨hle, hall⟩ := ih hrest (e.base + e.length)
          fun x hx hxu => by rw [hend]; exact hhead x hx husable hxu
        rw [hend] at hle
        have hbase := hstart e List.mem_cons_self husable
        refine ⟨?_, fun x hx hxu => ?_⟩
        · exact Nat.le_trans (Nat.le_trans hbase (Nat.le_add_right _ _)) hle
        · rcases List.mem_cons.mp hx with rfl | hx
          · exact hle
          · exact hall x hx hxu
      · rw [if_neg husable]
        obtain ⟨hle, hall⟩ := ih hrest start fun x hx => hstart x (List.mem_cons_of_mem e hx)
        refine ⟨hle, fun x hx hxu => ?_⟩
        rcases List.mem_cons.mp hx with rfl | hx
        · exact absurd hxu husable
        · exact hall x hx hxu

theorem limit_le_maxAddress {entries : List MemmapEntry} (h : WellFormedMap entries) :
    ∀ e ∈ entries, e.type = limineMemmapUsable → e.limit ≤ (maxAddress entries).toNat :=
  (limit_le_maxAddress_aux h 0 fun _ _ _ => Nat.zero_le _).2

end Sizes

section Storage

/-- The search cuts the bitmap off one entry, which is usable and longer. -/
theorem reserveBitmap_eq {size : UInt64} {entries reserved : List MemmapEntry}
    (h : reserveBitmap size entries = some reserved) :
    ∃ before host after, entries = before ++ host :: after ∧ host.type = limineMemmapUsable ∧
      size.toNat < host.length.toNat ∧ bitmapStorage size entries = some host.base ∧
      reserved = before ++ host.shrink size :: after := by
  induction entries generalizing reserved with
  | nil => cases h
  | cons e rest ih =>
      rw [reserveBitmap] at h
      rw [bitmapStorage]
      split_ifs at h ⊢ with hfit
      · cases h
        exact ⟨[], e, rest, rfl, hfit.1, UInt64.lt_iff_toNat_lt.mp hfit.2, rfl, rfl⟩
      · obtain ⟨tail, htail, rfl⟩ := Option.map_eq_some_iff.mp h
        obtain ⟨before, host, after, rfl, husable, hlong, hstorage, rfl⟩ := ih htail
        exact ⟨e :: before, host, after, rfl, husable, hlong, hstorage, rfl⟩

theorem reserveBitmap_isSome {size : UInt64} {entries : List MemmapEntry}
    (h : ∃ e ∈ entries, e.type = limineMemmapUsable ∧ size < e.length) :
    ∃ reserved, reserveBitmap size entries = some reserved := by
  induction entries with
  | nil =>
      obtain ⟨e, he, -⟩ := h
      cases he
  | cons e rest ih =>
      rw [reserveBitmap]
      split_ifs with hfit
      · exact ⟨_, rfl⟩
      · obtain ⟨x, hx, hxfit⟩ := h
        rcases List.mem_cons.mp hx with rfl | hx
        · exact absurd hxfit hfit
        · obtain ⟨reserved, hreserved⟩ := ih ⟨x, hx, hxfit⟩
          rw [hreserved]
          exact ⟨_, rfl⟩

end Storage

section Release

variable {bitmap : Array UInt8} {g : Nat}

/-- The address of page `j` of an entry, as the loop computes it. -/
theorem frame_of_entry {e : MemmapEntry} (hbase : 4096 ∣ e.base.toNat) (hfits : e.limit < 2 ^ 64)
    {j : Nat} (hj : 4096 * j < e.length.toNat) :
    (e.base + UInt64.ofNat (4096 * j)).toNat / 4096 = e.base.toNat / 4096 + j := by
  unfold MemmapEntry.limit at hfits
  rw [UInt64.toNat_add, UInt64.toNat_ofNat']
  omega

/-- Releasing an entry clears the bits of its frames. -/
theorem frameBit_releaseEntry {e : MemmapEntry}
    (hbase : e.type = limineMemmapUsable → 4096 ∣ e.base.toNat)
    (hlength : e.type = limineMemmapUsable → 4096 ∣ e.length.toNat)
    (hfits : e.type = limineMemmapUsable → e.limit < 2 ^ 64) :
    frameBit (releaseEntry bitmap e) g = true ↔ frameBit bitmap g = true ∧
      ¬ (e.type = limineMemmapUsable ∧ e.base.toNat ≤ 4096 * g ∧ 4096 * g < e.limit) := by
  unfold releaseEntry
  split_ifs with husable
  · have hb := hbase husable
    have hl := hlength husable
    have hf := hfits husable
    rw [frameBit_foldl_bitmapReset]
    apply and_congr Iff.rfl
    simp only [List.mem_range, husable, true_and, MemmapEntry.limit]
    constructor
    · rintro hall ⟨hlow, hhigh⟩
      have hne := hall (g - e.base.toNat / 4096) (by omega)
      rw [frame_of_entry hb hf (by omega)] at hne
      omega
    · intro hnot j hj heq
      rw [frame_of_entry hb hf (by omega)] at heq
      exact hnot ⟨by omega, by omega⟩
  · simp [husable]

/-- The entries as the release loop finds them: whole pages inside the address space. -/
def Paged (entries : List MemmapEntry) : Prop :=
  ∀ e ∈ entries, e.type = limineMemmapUsable →
    4096 ∣ e.base.toNat ∧ 4096 ∣ e.length.toNat ∧ e.limit < 2 ^ 64

theorem frameBit_foldl_releaseEntry {entries : List MemmapEntry} (h : Paged entries) :
    frameBit (entries.foldl releaseEntry bitmap) g = true ↔
      frameBit bitmap g = true ∧ ¬ UsableFrame entries g := by
  induction entries generalizing bitmap with
  | nil => simp [UsableFrame]
  | cons e rest ih =>
      have he := h e List.mem_cons_self
      rw [List.foldl_cons, ih fun x hx => h x (List.mem_cons_of_mem e hx),
        frameBit_releaseEntry (fun hu => (he hu).1) (fun hu => (he hu).2.1)
          fun hu => (he hu).2.2]
      simp only [UsableFrame, List.mem_cons, exists_eq_or_imp, not_or, and_assoc]

/-- The checked loop runs like the plain one if the frames have a bit. -/
theorem releaseEntryChecked_eq {e : MemmapEntry}
    (hpaged : e.type = limineMemmapUsable →
      4096 ∣ e.base.toNat ∧ 4096 ∣ e.length.toNat ∧ e.limit < 2 ^ 64)
    (hbits : e.type = limineMemmapUsable → e.limit ≤ 4096 * (8 * bitmap.size)) :
    releaseEntryChecked bitmap e = some (releaseEntry bitmap e) := by
  unfold releaseEntryChecked releaseEntry
  split_ifs with husable
  · obtain ⟨hbase, hlength, hfits⟩ := hpaged husable
    have hlimit := hbits husable
    apply And.left
    apply @foldlM_eq_foldl _ _ (fun b : Array UInt8 => b.size = bitmap.size)
    · rfl
    intro b hb j hj
    have hj := List.mem_range.mp hj
    refine ⟨if_pos ?_, by rw [bitmapReset, Array.size_modify]; exact hb⟩
    rw [toNat_byteIndex, frame_of_entry hbase hfits (by omega), hb]
    unfold MemmapEntry.limit at hlimit
    omega
  · rfl

end Release

section Init

variable {entries : List MemmapEntry}

/-- The reserved map in terms of the original one. -/
structure Reserved (entries reserved : List MemmapEntry) (size storage : UInt64) : Prop where
  paged : Paged reserved
  limit : ∀ e ∈ reserved, e.type = limineMemmapUsable → e.limit ≤ (maxAddress entries).toNat
  frames : ∀ f, UsableFrame reserved f ↔ UsableFrame entries f ∧
    ¬ (storage.toNat ≤ 4096 * f ∧ 4096 * f < storage.toNat + size.toNat)

theorem reserved_of_reserveBitmap {size : UInt64} {reserved : List MemmapEntry}
    (h : WellFormedMap entries) (hsize : 4096 ∣ size.toNat)
    (hreserve : reserveBitmap size entries = some reserved) :
    ∃ storage, bitmapStorage size entries = some storage ∧
      Reserved entries reserved size storage := by
  have hmax := limit_le_maxAddress h
  obtain ⟨before, host, after, rfl, husable, hlong, hstorage, rfl⟩ := reserveBitmap_eq hreserve
  have hhost : host ∈ before ++ host :: after := List.mem_append_right _ List.mem_cons_self
  have hfits := h.fits host hhost husable
  have hbase := h.base host hhost husable
  have hlength := h.length host hhost husable
  unfold MemmapEntry.limit at hfits
  -- the shrunk entry: its base moves up, its end stays
  have hlow : (host.shrink size).base.toNat = host.base.toNat + size.toNat := by
    rw [MemmapEntry.shrink, UInt64.toNat_add]
    exact Nat.mod_eq_of_lt (by omega)
  have hlen : (host.shrink size).length.toNat = host.length.toNat - size.toNat := by
    rw [MemmapEntry.shrink]
    exact UInt64.toNat_sub_of_le _ _ (UInt64.le_iff_toNat_le.mpr (Nat.le_of_lt hlong))
  have hlimit : (host.shrink size).limit = host.limit := by
    unfold MemmapEntry.limit
    omega
  have hmem : ∀ e, e ∈ before ++ host.shrink size :: after →
      e = host.shrink size ∨ e ∈ before ++ host :: after := by
    intro e he
    rcases List.mem_append.mp he with he | he
    · exact Or.inr (List.mem_append_left _ he)
    · rcases List.mem_cons.mp he with rfl | he
      · exact Or.inl rfl
      · exact Or.inr (List.mem_append_right _ (List.mem_cons_of_mem _ he))
  refine ⟨host.base, hstorage, ?_, ?_, ?_⟩
  · intro e he hu
    rcases hmem e he with rfl | he
    · rw [hlow, hlen, hlimit]
      exact ⟨by omega, by omega, hfits⟩
    · exact ⟨h.base e he hu, h.length e he hu, h.fits e he hu⟩
  · intro e he hu
    rcases hmem e he with rfl | he
    · rw [hlimit]
      exact hmax host hhost husable
    · exact hmax e he hu
  · intro f
    obtain ⟨-, hafter, hbefore⟩ := List.pairwise_append.mp h.ordered
    have hafter := (List.pairwise_cons.mp hafter).1
    unfold MemmapEntry.limit at hafter hbefore
    constructor
    · rintro ⟨e, he, hu, hin⟩
      rcases List.mem_append.mp he with he | he
      · have hle := hbefore e he host List.mem_cons_self hu husable
        exact ⟨⟨e, List.mem_append_left _ he, hu, hin⟩, by unfold MemmapEntry.limit at hin; omega⟩
      · rcases List.mem_cons.mp he with rfl | he
        · rw [hlow, hlimit] at hin
          exact ⟨⟨host, hhost, husable, by omega, hin.2⟩, by omega⟩
        · have hle := hafter e he husable hu
          exact ⟨⟨e, List.mem_append_right _ (List.mem_cons_of_mem _ he), hu, hin⟩, by omega⟩
    · rintro ⟨⟨e, he, hu, hin⟩, hout⟩
      rcases List.mem_append.mp he with he | he
      · exact ⟨e, List.mem_append_left _ he, hu, hin⟩
      · rcases List.mem_cons.mp he with rfl | he
        · refine ⟨e.shrink size, List.mem_append_right _ List.mem_cons_self, husable, ?_⟩
          rw [hlow, hlimit]
          omega
        · exact ⟨e, List.mem_append_right _ (List.mem_cons_of_mem _ he), hu, hin⟩

theorem frameBit_replicate {n f : Nat} (h : f < 8 * n) :
    frameBit (Array.replicate n 0xff) f = true := by
  have hbyte : (Array.replicate n (0xff : UInt8))[f / 8]! = 0xff := by
    rw [getElem!_pos _ _ (by rw [Array.size_replicate]; omega)]
    exact Array.getElem_replicate _
  have hbits : ∀ i < 8, (0xff : UInt8).toBitVec.getLsbD i = true := by decide
  rw [frameBit, hbyte]
  exact hbits _ (by omega)

/-- The bytes of the bitmap for a map. -/
def bitmapSizeAligned (entries : List MemmapEntry) : UInt64 :=
  palign (maxAddress entries / pageSizeBytes)

/-- The bitmap that `init_pmm` is to leave. -/
structure BootBitmap (entries : List MemmapEntry) (storage : UInt64) (s : State) : Prop where
  frames : s.bitmapMaxEntries.toNat = (maxAddress entries).toNat / 4096
  size : s.bitmap.size = (bitmapSizeAligned entries).toNat
  free : ∀ f < s.bitmapMaxEntries.toNat, frameBit s.bitmap f = false ↔ UsableFrame entries f ∧
    ¬ (storage.toNat ≤ 4096 * f ∧ 4096 * f < storage.toNat + (bitmapSizeAligned entries).toNat)
  padding : ∀ f, s.bitmapMaxEntries.toNat ≤ f → f < 8 * s.bitmap.size →
    frameBit s.bitmap f = true

theorem toNat_maxFrames (entries : List MemmapEntry) :
    (maxAddress entries / pageSizeBytes).toNat = (maxAddress entries).toNat / 4096 := by
  rw [UInt64.toNat_div]
  rfl

theorem bitmapSizeAligned_dvd (entries : List MemmapEntry) :
    4096 ∣ (bitmapSizeAligned entries).toNat :=
  palign_dvd _

/-- There is a bit for every frame below the end of the map. -/
theorem maxFrames_le_bits (entries : List MemmapEntry) :
    (maxAddress entries).toNat / 4096 ≤ 8 * (bitmapSizeAligned entries).toNat := by
  rw [← toNat_maxFrames]
  apply le_palign
  have := (maxAddress entries).toNat_lt
  rw [toNat_maxFrames]
  omega

variable {reserved : List MemmapEntry}

theorem initPmm_eq (hreserve : reserveBitmap (bitmapSizeAligned entries) entries = some reserved) :
    initPmm entries = some
      {bitmap := reserved.foldl releaseEntry
        (Array.replicate (bitmapSizeAligned entries).toNat 0xff)
       bitmapMaxEntries := maxAddress entries / pageSizeBytes
       cachedIndex := 0} := by
  change (reserveBitmap (bitmapSizeAligned entries) entries).map _ = _
  rw [hreserve]
  rfl

/-- Every bit write of the release loop stays inside the bitmap. -/
theorem initPmmChecked_eq (h : WellFormedMap entries)
    (hreserve : reserveBitmap (bitmapSizeAligned entries) entries = some reserved) :
    initPmmChecked entries = initPmm entries := by
  obtain ⟨storage, -, hres⟩ := reserved_of_reserveBitmap h (bitmapSizeAligned_dvd entries) hreserve
  have hbits := maxFrames_le_bits entries
  have hloop : reserved.foldlM releaseEntryChecked
      (Array.replicate (bitmapSizeAligned entries).toNat 0xff) =
      some (reserved.foldl releaseEntry
        (Array.replicate (bitmapSizeAligned entries).toNat 0xff)) := by
    apply And.left
    apply @foldlM_eq_foldl _ _ (fun b : Array UInt8 => b.size = (bitmapSizeAligned entries).toNat)
    · exact Array.size_replicate
    intro b hb e he
    refine ⟨releaseEntryChecked_eq (hres.paged e he) fun hu => ?_, (size_releaseEntry b e).trans hb⟩
    have hle := hres.limit e he hu
    obtain ⟨hbase, hlength, -⟩ := hres.paged e he hu
    unfold MemmapEntry.limit at hle ⊢
    omega
  rw [initPmm_eq hreserve]
  change (reserveBitmap (bitmapSizeAligned entries) entries).bind _ = _
  rw [hreserve]
  change (reserved.foldlM releaseEntryChecked
    (Array.replicate (bitmapSizeAligned entries).toNat 0xff)).bind _ = _
  rw [hloop]
  rfl

/-- A bit is clear exactly if its frame is usable and does not hold the bitmap. -/
theorem bootBitmap_of_reserve (h : WellFormedMap entries)
    (hreserve : reserveBitmap (bitmapSizeAligned entries) entries = some reserved) :
    ∃ storage, bitmapStorage (bitmapSizeAligned entries) entries = some storage ∧
      BootBitmap entries storage
        {bitmap := reserved.foldl releaseEntry
          (Array.replicate (bitmapSizeAligned entries).toNat 0xff)
         bitmapMaxEntries := maxAddress entries / pageSizeBytes
         cachedIndex := 0} := by
  obtain ⟨storage, hstorage, hres⟩ := reserved_of_reserveBitmap h (bitmapSizeAligned_dvd entries) hreserve
  have hframes := toNat_maxFrames entries
  have hbits := maxFrames_le_bits entries
  have hsize : (reserved.foldl releaseEntry
      (Array.replicate (bitmapSizeAligned entries).toNat 0xff)).size =
      (bitmapSizeAligned entries).toNat := by
    rw [size_foldl_releaseEntry, Array.size_replicate]
  have hbit : ∀ f < 8 * (bitmapSizeAligned entries).toNat,
      (frameBit (reserved.foldl releaseEntry
        (Array.replicate (bitmapSizeAligned entries).toNat 0xff)) f = false ↔
        UsableFrame entries f ∧ ¬ (storage.toNat ≤ 4096 * f ∧
          4096 * f < storage.toNat + (bitmapSizeAligned entries).toNat)) := by
    intro f hf
    rw [← hres.frames, ← Bool.not_eq_true, frameBit_foldl_releaseEntry hres.paged]
    simp [frameBit_replicate hf]
  refine ⟨storage, hstorage, hframes, hsize, fun f hf => ?_, fun f hf hlt => ?_⟩
  · dsimp only at hf
    exact hbit f (by omega)
  · dsimp only at hf hlt ⊢
    rw [hsize] at hlt
    rw [← Bool.not_eq_false, hbit f hlt]
    rintro ⟨⟨e, he, hu, -, hhigh⟩, -⟩
    have hle := limit_le_maxAddress h e he hu
    have hbase := h.base e he hu
    have hlength := h.length e he hu
    unfold MemmapEntry.limit at hle hhigh
    omega

end Init

/-- For every map the boot protocol allows, with room for the bitmap in a usable entry, the
bits `init_pmm` leaves are those of the map, and it writes no byte outside the bitmap. -/
theorem boot_map_to_bitmap (entries : List MemmapEntry) (h : WellFormedMap entries)
    (hroom : ∃ e ∈ entries, e.type = limineMemmapUsable ∧ bitmapSizeAligned entries < e.length) :
    ∃ s storage, initPmm entries = some s ∧ initPmmChecked entries = some s ∧
      bitmapStorage (bitmapSizeAligned entries) entries = some storage ∧
      BootBitmap entries storage s := by
  obtain ⟨reserved, hreserve⟩ := reserveBitmap_isSome hroom
  obtain ⟨storage, hstorage, hboot⟩ := bootBitmap_of_reserve h hreserve
  refine ⟨_, storage, initPmm_eq hreserve, ?_, hstorage, hboot⟩
  rw [initPmmChecked_eq h hreserve, initPmm_eq hreserve]

/-- A hole between two usable entries, the first of which is too short for the bitmap. -/
def holeMap : List MemmapEntry :=
  [⟨0x1000, 0x1000, limineMemmapUsable⟩, ⟨0x2000, 0x1234, 1⟩, ⟨0x4000, 0x3000, limineMemmapUsable⟩]

theorem holeMap_wellFormed : WellFormedMap holeMap := by
  refine ⟨?_, ?_, ?_, ?_⟩
  · decide
  · decide
  · decide
  · decide

theorem boot_map_to_bitmap_hole :
    ∃ s storage, initPmm holeMap = some s ∧ initPmmChecked holeMap = some s ∧
      bitmapStorage (bitmapSizeAligned holeMap) holeMap = some storage ∧
      BootBitmap holeMap storage s :=
  boot_map_to_bitmap holeMap holeMap_wellFormed
    ⟨⟨0x4000, 0x3000, limineMemmapUsable⟩, by simp [holeMap], rfl, by decide⟩

end Tellurium.Pmm
