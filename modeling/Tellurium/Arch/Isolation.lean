import Tellurium.Apps.ElfImage
import Tellurium.Arch.AddressSpaces
import Tellurium.Arch.Process

/-!
Isolation of processes. The calls that map memory for a process are local as long as they map no
page of a PML4 slot that the kernel uses, write no table, and no `int` of the loader overflows.
`elf_load` checks none of this for the addresses in a file, and `syscall_get_fb_context` takes
any pointer.
-/

namespace Tellurium.Process

open Tellurium.Lib Tellurium.Vmm Tellurium.Elf

section Calls

variable {hhdm : Nat} {shared : Fin 512 → Prop} {table : Frame → Prop} {a : Frame} {m : Mem}
  {frames : List Frame}

theorem private_of_prefix {v : Nat} (hv : ¬ shared (index 39 v)) {is : List (Fin 512)}
    (his : is <+: path v) : Private shared is := by
  intro i hi
  cases is with
  | nil => cases hi
  | cons j js =>
      obtain rfl : j = i := Option.some.inj hi
      rw [path, List.cons_prefix_cons] at his
      rwa [his.1]

theorem mapSection_local {vaddr paddr len flags : Nat} {r : Mem × List Nat} (hhhdm : hhdm < 2 ^ 64)
    (howner : Owner hhdm table a m frames) (hend : vaddr + len ≤ 2 ^ 64 - 4096)
    (hflags : flags < 2 ^ 64) (hpresent : flags &&& pmlPresent ≠ 0) (hpaddr : paddr < 2 ^ 64)
    (hslots : ∀ k < pageCount len, ¬ shared (index 39 (vaddr + 4096 * k)))
    (hret : mapSection hhdm (m, frames.map (tableBase hhdm)) (tableBase hhdm a) vaddr paddr len flags =
      some r) :
    ∃ m' frames', r = (m', frames'.map (tableBase hhdm)) ∧
      Local hhdm shared table a m m' frames frames' ∧
      ∀ w, Covers hhdm a m m' vaddr paddr flags (pageCount len) w := by
  obtain ⟨m', frames', hr, hgrown, hcovers⟩ := mapSection_grown hhhdm hend hflags hpresent hpaddr
    howner.ok (fun k hk is his => private_of_prefix (hslots k hk) his) hret
  exact ⟨m', frames', hr, .of_grown hgrown howner, hcovers⟩

/-- Addresses of the lower half lie in the lower slots. -/
theorem index_lower {v : Nat} (hv : v < 2 ^ 47) : (index 39 v).val < 256 := by
  have hval : (index 39 v).val = v / 2 ^ 39 % 512 := index_val 39 v
  omega

variable (hlower : ∀ i : Fin 512, i.val < 256 → ¬ shared i)

include hlower in
theorem lower_slots {vaddr len : Nat} (hend : vaddr + len ≤ 2 ^ 47) :
    ∀ k < pageCount len, ¬ shared (index 39 (vaddr + 4096 * k)) := by
  intro k hk
  simp only [pageCount, pageSize] at hk
  exact hlower _ (index_lower (by omega))

/-- A buffer of the direct map. -/
def InDirectMap (hhdm x len : Nat) : Prop := hhdm ≤ x ∧ x + len ≤ 2 ^ 64

/-- The direct map is in the upper half. -/
def UpperHalf (hhdm : Nat) : Prop := 2 ^ 64 - 2 ^ 47 ≤ hhdm ∧ hhdm < 2 ^ 64

/-- What a call leaves, if it is local. -/
def LocalResult (hhdm : Nat) (shared : Fin 512 → Prop) (table : Frame → Prop) (a : Frame) (m : Mem)
    (frames : List Frame) (r : Mem × List Nat) : Prop :=
  ∃ frames', r.2 = frames'.map (tableBase hhdm) ∧ Local hhdm shared table a m r.1 frames frames'

theorem LocalResult.unchanged (howner : Owner hhdm table a m frames) :
    LocalResult hhdm shared table a m frames (m, frames.map (tableBase hhdm)) :=
  ⟨frames, rfl, .refl howner⟩

include hlower in
/-- A buffer of the direct map is mapped at its physical address. -/
theorem mapBuffer_local {x len : Nat} {r : Mem × List Nat} (hhhdm : UpperHalf hhdm)
    (howner : Owner hhdm table a m frames) (hx : InDirectMap hhdm x len)
    (hret : mapSection hhdm (m, frames.map (tableBase hhdm)) (tableBase hhdm a) (sub64 x hhdm)
      (sub64 x hhdm) len userFlags = some r) :
    LocalResult hhdm shared table a m frames r := by
  obtain ⟨hupper, hlt⟩ := hhhdm
  obtain ⟨hlo, hhi⟩ := hx
  rw [sub64_eq hlo (by omega)] at hret
  have hend : x - hhdm + len ≤ 2 ^ 47 := by omega
  obtain ⟨m', frames', rfl, hlocal, -⟩ := mapSection_local hlt howner (by omega) userFlags_ok.1
    userFlags_ok.2.1 (by omega) (lower_slots hlower hend) hret
  exact ⟨frames', rfl, hlocal⟩

include hlower in
theorem createUserThread_local {entry thread stack kernelStack : Nat} {r : Nat × Mem × List Nat}
    (hhhdm : UpperHalf hhdm) (howner : Owner hhdm table a m frames)
    (hstack : stack ≠ 0 → InDirectMap hhdm stack stackSize)
    (hret : createUserThread hhdm (tableBase hhdm a) entry thread stack kernelStack
      (m, frames.map (tableBase hhdm)) = some r) : LocalResult hhdm shared table a m frames r.2 := by
  rw [createUserThread] at hret
  by_cases hnone : entry = 0 ∨ thread = 0 ∨ stack = 0
  · rw [if_pos hnone] at hret
    rw [← Option.some.inj hret]
    exact .unchanged howner
  · rw [if_neg hnone] at hret
    obtain ⟨s, hmap, rfl⟩ := Option.map_eq_some_iff.mp hret
    simp only [not_or] at hnone
    exact mapBuffer_local hlower hhhdm howner (hstack hnone.2.2) hmap

include hlower in
theorem syscallMmap_local {len section_ : Nat} {r : Nat × Mem × List Nat} (hhhdm : UpperHalf hhdm)
    (howner : Owner hhdm table a m frames)
    (hsection : section_ ≠ 0 → InDirectMap hhdm section_ (mmapBytes len))
    (hret : syscallMmap hhdm (tableBase hhdm a) len section_ (m, frames.map (tableBase hhdm)) = some r) :
    LocalResult hhdm shared table a m frames r.2 := by
  rw [syscallMmap] at hret
  split_ifs at hret with hnone
  · rw [← Option.some.inj hret]
    exact .unchanged howner
  · obtain ⟨s, hmap, rfl⟩ := Option.map_eq_some_iff.mp hret
    exact mapBuffer_local hlower hhhdm howner (hsection hnone) hmap

/-- A segment of private pages whose size an `int` holds. -/
structure SegmentOk (shared : Fin 512 → Prop) (ph : Phdr) : Prop where
  short : 4096 * ph.pages < 2 ^ 31
  top : ph.pVaddr - ph.offset + 4096 * ph.pages ≤ 2 ^ 64 - 4096
  slots : ∀ k < ph.pages, ¬ shared (index 39 (ph.pVaddr - ph.offset + 4096 * k))

/-- A file that asks for nothing else, with its headers inside. -/
structure FileOk (shared : Fin 512 → Prop) (f : ElfFile) : Prop extends f.Headers where
  table : ePhnum f.bytes 0 * ePhentsize f.bytes 0 < 2 ^ 31
  segments : ∀ ph ∈ f.segments, SegmentOk shared ph

/-- What `kmalloc` answers the loader: buffers beside the tables, and beside the file. A null
pointer for a segment ends the load. -/
structure Answered (hhdm : Nat) (table : Frame → Prop) (f : ElfFile) (data : Nat)
    (loads : List Load) : Prop where
  fits : data + f.size < 2 ^ 64
  fileTable : ∀ e, table e → Span.Disjoint ⟨data, f.size⟩ ⟨tableBase hhdm e, pageSize⟩
  buffer : ∀ l ∈ loads, l.addr ≠ 0 → l.Ok hhdm ∧ Span.Disjoint ⟨data, f.size⟩ l.span ∧
    ∀ e, table e → l.span.Disjoint ⟨tableBase hhdm e, pageSize⟩

theorem loadSegment_local {f : ElfFile} {data : Nat} {l : Load} {buffers : List Nat}
    {r : Nat × LoadState} (hhhdm : hhdm < 2 ^ 64) (howner : Owner hhdm table a m frames)
    (hat : f.At m data)
    (hfile : ∀ e, table e → Span.Disjoint ⟨data, f.size⟩ ⟨tableBase hhdm e, pageSize⟩)
    (hseg : SegmentOk shared l.ph)
    (hbuffer : l.addr ≠ 0 → l.Ok hhdm ∧ Span.Disjoint ⟨data, f.size⟩ l.span ∧
      ∀ e, table e → l.span.Disjoint ⟨tableBase hhdm e, pageSize⟩)
    (hret : loadSegment hhdm (tableBase hhdm a) data l.ph
      ⟨m, frames.map (tableBase hhdm), l.addr :: buffers⟩ = some r) :
    ∃ m' frames', r.2 = ⟨m', frames'.map (tableBase hhdm), buffers⟩ ∧ f.At m' data ∧
      Local hhdm shared table a m m' frames frames' := by
  by_cases hnull : l.addr = 0
  · rw [loadSegment] at hret
    dsimp only at hret
    rw [if_pos hnull] at hret
    rw [← Option.some.inj hret]
    exact ⟨m, frames, rfl, hat, .refl howner⟩
  · obtain ⟨hl, hfileBuffer, htable⟩ := hbuffer hnull
    obtain ⟨m', frames', rfl, hgrown, -⟩ := loadSegment_grown hhhdm howner.ok howner.tables hl
      hseg.short hseg.top (fun k hk is his => private_of_prefix (hseg.slots k hk) his) htable hret
    obtain ⟨m₂, hm₂⟩ : ∃ m₂, l.fill (add64 data l.ph.pOffset) m = m₂ := ⟨_, rfl⟩
    rw [hm₂] at hgrown
    have hfill : Local hhdm shared table a m m₂ frames frames := by
      refine .of_agree howner fun e he x hx => ?_
      rw [← hm₂]
      exact l.fill_out _ m fun hin => Span.not_has_of_disjoint (htable e he) hin hx
    have hlocal : Local hhdm shared table a m₂ m' frames frames' :=
      .of_grown hgrown (hfill.owner howner)
    refine ⟨m', frames', rfl, ?_, hfill.trans hlocal⟩
    intro k hk
    have hin : Span.Has ⟨data, f.size⟩ (data + k) :=
      ⟨Nat.le_add_right _ _, Nat.add_lt_add_left hk _⟩
    have hkeep : m' (data + k) = m₂ (data + k) := by
      refine hgrown.changes _ fun js e hjs _ hwalk => ?_
      exact Span.not_has_of_disjoint (hfile e (hlocal.tables e ⟨js, hjs, hwalk⟩)) hin
    rw [hkeep, ← hm₂, l.fill_out _ m (Span.not_has_of_disjoint hfileBuffer hin)]
    exact hat k hk

theorem loadSegments_local {f : ElfFile} {data : Nat} {all rest : List Load} {more : List Nat}
    {fuel i : Nat} {r : Nat × LoadState} (hhhdm : hhdm < 2 ^ 64) (hf : FileOk shared f)
    (hanswers : Answered hhdm table f data all) (howner : Owner hhdm table a m frames)
    (hat : f.At m data) (hsub : rest ⊆ all)
    (hrest : rest.map Load.ph = (f.phdrs.drop i).filter (·.pType = ptLoad))
    (hret : loadSegments hhdm (tableBase hhdm a) data fuel i
      ⟨m, frames.map (tableBase hhdm), rest.map Load.addr ++ more⟩ = some r) :
    LocalResult hhdm shared table a m frames (r.2.mem, r.2.supply) := by
  induction fuel generalizing i m frames rest with
  | zero => simp [loadSegments] at hret
  | succ fuel ih =>
      rcases loadSegments_cases hhdm (tableBase hhdm a) fuel
        (s := ⟨m, frames.map (tableBase hhdm), rest.map Load.addr ++ more⟩) hf.toHeaders hf.table
        hanswers.fits hat hrest with ⟨-, heq⟩ | ⟨-, ⟨hskip, heq⟩ | ⟨l, rest, rfl, hrest, hl, heq⟩⟩
      · rw [← Option.some.inj (heq.symm.trans hret)]
        exact .unchanged howner
      · exact ih howner hat hsub hskip (heq.symm.trans hret)
      · obtain ⟨⟨ret, s⟩, hload, hret⟩ := Option.bind_eq_some_iff.mp (heq.symm.trans hret)
        obtain ⟨m', frames', hs, hat', hlocal⟩ := loadSegment_local hhhdm howner hat
          hanswers.fileTable (hf.segments l.ph hl) (hanswers.buffer l (hsub List.mem_cons_self))
          hload
        obtain rfl : s = _ := hs
        split_ifs at hret with herr
        · rw [← Option.some.inj hret]
          exact ⟨frames', rfl, hlocal⟩
        · obtain ⟨frames'', hsupply, hlocal'⟩ := ih (hlocal.owner howner) hat'
            (fun x hx => hsub (List.mem_cons_of_mem _ hx)) hrest hret
          exact ⟨frames'', hsupply, hlocal.trans hlocal'⟩

/-- A file with a single segment. -/
theorem loadSegments_one {f : ElfFile} {data : Nat} {ph : Phdr} {supply buffers : List Nat}
    {s' : LoadState} (pml4Base fuel : Nat) (hheaders : f.Headers)
    (htable : ePhnum f.bytes 0 * ePhentsize f.bytes 0 < 2 ^ 31) (hfits : data + f.size < 2 ^ 64)
    (hphdrs : f.phdrs = [ph]) (htype : ph.pType = ptLoad) (hat : f.At m data)
    (hload : loadSegment hhdm pml4Base data ph ⟨m, supply, buffers⟩ = some (elfSuccess, s'))
    (hat' : f.At s'.mem data) :
    loadSegments hhdm pml4Base data (fuel + 2) 0 ⟨m, supply, buffers⟩ = some (elfSuccess, s') := by
  have hphnum : ePhnum f.bytes 0 = 1 := by
    have hlength := congrArg List.length hphdrs
    simpa [ElfFile.phdrs] using hlength
  have hphdr : readPhdr f.bytes (f.phdrAddr 0) = ph := by
    have hdrop := f.phdrs_drop (i := 0) (by omega)
    rw [List.drop_zero, hphdrs] at hdrop
    exact (List.cons.inj hdrop).1.symm
  have hfirst : 0 < ePhnum f.bytes 0 := by omega
  rw [loadSegments]
  dsimp only
  rw [hat.ePhnum_eq hheaders.header, if_pos hfirst, hat.header_eq hheaders htable hfits hfirst, hphdr,
    if_neg (not_not_intro htype), hload]
  dsimp only
  rw [if_neg (by decide), loadSegments, hat'.ePhnum_eq hheaders.header, if_neg (by omega)]

/-- The answers to a whole `elf_load`. -/
def LoadAnswered (hhdm : Nat) (table : Frame → Prop) (file : Option ElfFile) (buffers : List Nat) :
    Prop :=
  ∀ f ∈ file, ∀ data rest, buffers = data :: rest → data ≠ 0 →
    ∃ loads more, rest = loads.map Load.addr ++ more ∧ Answered hhdm table f data loads ∧
      (elfVerifyHeader f.bytes 0 = true → loads.map Load.ph = f.segments)

/-- A file with a whole header that, if it is accepted, asks for private pages only. -/
def FileContained (shared : Fin 512 → Prop) (file : Option ElfFile) : Prop :=
  ∀ f ∈ file, 64 ≤ f.size ∧ (elfVerifyHeader f.bytes 0 = true → FileOk shared f)

theorem elfLoad_local {file : Option ElfFile} {readFails wantsEntry : Bool} {buffers : List Nat}
    {r : Nat × Option Nat × LoadState} (hhhdm : hhdm < 2 ^ 64) (hfile : FileContained shared file)
    (hanswers : LoadAnswered hhdm table file buffers) (howner : Owner hhdm table a m frames)
    (hret : elfLoad hhdm (tableBase hhdm a) file readFails wantsEntry
      ⟨m, frames.map (tableBase hhdm), buffers⟩ = some r) :
    LocalResult hhdm shared table a m frames (r.2.2.mem, r.2.2.supply) := by
  unfold elfLoad at hret
  cases file with
  | none => cases hret
  | some f =>
      cases buffers with
      | nil => cases hret
      | cons data rest =>
          dsimp only at hret
          by_cases hnull : data = 0 ∨ readFails = true
          · rw [if_pos hnull] at hret
            rw [← Option.some.inj hret]
            exact .unchanged howner
          · rw [if_neg hnull] at hret
            obtain ⟨hsize, haccepted⟩ := hfile f rfl
            obtain ⟨loads, more, rfl, hanswered, hrequests⟩ := hanswers f rfl data rest rfl
              fun hzero => hnull (.inl hzero)
            have hread : Local hhdm shared table a m (f.readTo data m) frames frames := by
              refine .of_agree howner fun e he x hx => if_neg fun hin => ?_
              exact Span.not_has_of_disjoint (hanswered.fileTable e he) hin hx
            have hat := f.readTo_at data m
            rw [hat.elfVerifyHeader_eq hsize] at hret
            split_ifs at hret with hreject
            · rw [← Option.some.inj hret]
              exact ⟨frames, rfl, hread⟩
            · obtain ⟨q, hrun, rfl⟩ := Option.map_eq_some_iff.mp hret
              have hverify : elfVerifyHeader f.bytes 0 = true := by
                simp only [Bool.or_eq_true, Bool.not_eq_true', not_or] at hreject
                simpa using hreject.1
              obtain ⟨frames', hsupply, hlocal⟩ := loadSegments_local (i := 0) hhhdm
                (haccepted hverify) hanswered (hread.owner howner) hat (List.Subset.refl _)
                (hrequests hverify) hrun
              exact ⟨frames', hsupply, hread.trans hlocal⟩

section Context

variable {m₀ m' : Mem}

/-- The kernel sees a byte of the process where the page map says. -/
theorem location_of_page {v x : Nat} (hx : location hhdm m (tableBase hhdm a) v = some x) :
    ∃ entry, pagesOf hhdm m a (page v) = some entry ∧
      x = add64 (entry &&& pmlPhysicalAddress) hhdm + v % 4096 := by
  rw [location] at hx
  split_ifs at hx
  obtain ⟨entry, hentry, rfl⟩ := Option.map_eq_some_iff.mp hx
  rw [translate_eq_pagesOf] at hentry
  exact ⟨entry, hentry, rfl⟩

theorem location_congr {v : Nat}
    (hpages : pagesOf hhdm m' a (page v) = pagesOf hhdm m a (page v)) :
    location hhdm m' (tableBase hhdm a) v = location hhdm m (tableBase hhdm a) v := by
  rw [location, location, translate_eq_pagesOf, translate_eq_pagesOf, hpages]

theorem location_agree (howner : Owner hhdm table a m₀ frames)
    (hagree : ∀ e, table e → ∀ x, InFrame hhdm e x → m x = m₀ x) (v : Nat) :
    location hhdm m (tableBase hhdm a) v = location hhdm m₀ (tableBase hhdm a) v :=
  location_congr (pagesOf_agree (fun e he => hagree e (howner.tables e (.inl he))) _)

/-- The byte at `v` of the process is not in a table. -/
def Beside (hhdm : Nat) (table : Frame → Prop) (a : Frame) (m : Mem) (v : Nat) : Prop :=
  ∀ x, location hhdm m (tableBase hhdm a) v = some x → ∀ e, table e → ¬ InFrame hhdm e x

/-- Stores beside the tables, when earlier ones were too. -/
theorem storeN_agree {v n value : Nat} (howner : Owner hhdm table a m₀ frames)
    (hagree : ∀ e, table e → ∀ x, InFrame hhdm e x → m x = m₀ x)
    (hbeside : ∀ i < n, Beside hhdm table a m₀ (v + i))
    (hret : storeN hhdm (tableBase hhdm a) m v n value = some m') :
    ∀ e, table e → ∀ x, InFrame hhdm e x → m' x = m₀ x := by
  induction n generalizing m v value with
  | zero =>
      rw [← Option.some.inj hret]
      exact hagree
  | succ n ih =>
      obtain ⟨y, hy, hret⟩ := Option.bind_eq_some_iff.mp hret
      rw [location_agree howner hagree] at hy
      refine ih ?_ (fun i hi => ?_) hret
      · intro e he x hx
        have hne : x ≠ y := fun heq => hbeside 0 n.succ_pos y hy e he (heq ▸ hx)
        rw [Mem.set_of_ne _ _ hne]
        exact hagree e he x hx
      · rw [Nat.add_assoc, Nat.add_comm 1 i]
        exact hbeside (i + 1) (Nat.succ_lt_succ hi)

theorem storeContext_agree {fb : Framebuffer} {context : Nat} (howner : Owner hhdm table a m frames)
    (hbeside : ∀ i < 24, Beside hhdm table a m (context + i))
    (hret : storeContext hhdm (tableBase hhdm a) fb context m = some m') :
    ∀ e, table e → ∀ x, InFrame hhdm e x → m' x = m x := by
  have hfield : ∀ off, off + 4 ≤ 24 → ∀ i < 4, Beside hhdm table a m (context + off + i) := by
    intro off hoff i hi
    rw [Nat.add_assoc]
    exact hbeside (off + i) (by omega)
  obtain ⟨m₁, hwidth, hret⟩ := Option.bind_eq_some_iff.mp hret
  obtain ⟨m₂, hheight, hret⟩ := Option.bind_eq_some_iff.mp hret
  obtain ⟨m₃, hpitch, hbpp⟩ := Option.bind_eq_some_iff.mp hret
  have hagree₁ := storeN_agree howner (fun _ _ _ _ => rfl) (hfield 8 (by decide)) hwidth
  have hagree₂ := storeN_agree howner hagree₁ (hfield 12 (by decide)) hheight
  have hagree₃ := storeN_agree howner hagree₂ (hfield 16 (by decide)) hpitch
  exact storeN_agree howner hagree₃ (hfield 20 (by decide)) hbpp

/-- The framebuffer is in the direct map, low enough to be seen in the lower half. -/
structure Framebuffer.Ok (hhdm : Nat) (fb : Framebuffer) : Prop where
  above : hhdm ≤ fb.address
  below : fb.address < 2 ^ 64
  low : fb.address - hhdm + 0x900000000 + fb.sizeBytes ≤ 2 ^ 47

/-- No page of the framebuffer is a table. -/
def Framebuffer.Apart (hhdm : Nat) (table : Frame → Prop) (fb : Framebuffer) : Prop :=
  ∀ k < pageCount fb.sizeBytes, ∀ e, table e → (fb.address - hhdm + 4096 * k) / 4096 ≠ e.num

/-- A byte that is seen in the framebuffer, or where it was seen before. -/
theorem beside_of_covers {fb : Framebuffer} {v : Nat} (hfb : fb.Ok hhdm) (hapart : fb.Apart hhdm table)
    (hcovers : Covers hhdm a m m' (fb.vaddr hhdm) (fb.address - hhdm) userFlags
      (pageCount fb.sizeBytes) v)
    (hbeside : Beside hhdm table a m v) : Beside hhdm table a m' v := by
  intro x hx e he hin
  rcases hcovers with ⟨k, hk, -, hentry⟩ | ⟨-, hsame⟩
  · obtain ⟨entry, hentry', rfl⟩ := location_of_page hx
    obtain rfl : _ = entry := Option.some.inj (hentry.symm.trans hentry')
    have hlow := hfb.low
    have hsize := hk
    simp only [pageCount, pageSize] at hsize
    have hnum : (fb.address - hhdm + 4096 * k) % 2 ^ 64 / 4096 % 2 ^ 36 =
        (fb.address - hhdm + 4096 * k) / 4096 := by omega
    rw [Nat.and_or_distrib_right, userFlags_ok.2.2, Nat.or_zero, and_physicalAddress, hnum] at hin
    have hframe : InFrame hhdm ⟨(fb.address - hhdm + 4096 * k) / 4096, by omega⟩
        (add64 (pageSize * ((fb.address - hhdm + 4096 * k) / 4096)) hhdm + v % 4096) :=
      ⟨Nat.le_add_right _ _, Nat.add_lt_add_left (Nat.mod_lt _ (by decide)) _⟩
    exact hapart k hk e he (congrArg Frame.num (inFrame_unique hframe hin))
  · rw [location_congr hsame] at hx
    exact hbeside x hx e he hin

include hlower in
theorem syscallGetFbContext_local {fb : Framebuffer} {context : Nat} {r : Nat × Mem × List Nat}
    (hhhdm : UpperHalf hhdm) (hfb : fb.Ok hhdm) (hapart : fb.Apart hhdm table)
    (howner : Owner hhdm table a m frames)
    (hbeside : context ≠ 0 → ∀ i < 24, Beside hhdm table a m (context + i))
    (hret : syscallGetFbContext hhdm (tableBase hhdm a) fb context
      (m, frames.map (tableBase hhdm)) = some r) : LocalResult hhdm shared table a m frames r.2 := by
  have habove := hfb.above
  have hbelow := hfb.below
  have hlow := hfb.low
  have hpaddr : fb.paddr hhdm = fb.address - hhdm := sub64_eq habove (by omega)
  have hvaddr : fb.vaddr hhdm = fb.address - hhdm + 0x900000000 := by
    rw [Framebuffer.vaddr, hpaddr, add64, Nat.mod_eq_of_lt (by omega)]
  rw [syscallGetFbContext] at hret
  by_cases hnull : context = 0
  · rw [if_pos hnull] at hret
    rw [← Option.some.inj hret]
    exact .unchanged howner
  · rw [if_neg hnull] at hret
    obtain ⟨m₁, hcontext, hret⟩ := Option.bind_eq_some_iff.mp hret
    obtain ⟨s, hmap, hret⟩ := Option.bind_eq_some_iff.mp hret
    obtain ⟨m₃, hstore, rfl⟩ := Option.map_eq_some_iff.mp hret
    have hagree₁ := storeContext_agree howner (hbeside hnull) hcontext
    have hlocal₁ : Local hhdm shared table a m m₁ frames frames := .of_agree howner hagree₁
    have howner₁ := hlocal₁.owner howner
    rw [hpaddr] at hmap
    obtain ⟨m₂, frames', rfl, hlocal₂, hcovers⟩ := mapSection_local hhhdm.2 howner₁ (by omega)
      userFlags_ok.1 userFlags_ok.2.1 (by omega) (lower_slots hlower (by omega)) hmap
    have hbeside₂ : ∀ i < 8, Beside hhdm table a m₂ (context + i) := by
      intro i hi
      refine beside_of_covers hfb hapart (hcovers _) fun x hx => ?_
      rw [location_agree howner hagree₁] at hx
      exact hbeside hnull i (by omega) x hx
    have hagree₃ := storeN_agree (hlocal₂.owner howner₁) (fun _ _ _ _ => rfl) hbeside₂ hstore
    exact ⟨frames', rfl, hlocal₁.trans (hlocal₂.trans (.of_agree (hlocal₂.owner howner₁) hagree₃))⟩

end Context

end Calls

def System.state (hhdm : Nat) (s : System) : State :=
  ⟨s.mem, s.frames.map (tableBase hhdm), s.procs.map (tableBase hhdm)⟩

/-- What `kmalloc` answers: buffers of the direct map, beside the tables where they are written. -/
def Action.Answered (hhdm : Nat) (kernel : Frame) (fb : Framebuffer) (s : System) : Action → Prop
  | .create file _ _ answers =>
      (answers.pml4 ≠ 0 → ∃ n, answers.pml4 = tableBase hhdm n ∧ ¬ IsTable hhdm kernel s n ∧
        LoadAnswered hhdm (fun e => IsTable hhdm kernel s e ∨ e = n) file answers.buffers) ∧
      (answers.stack ≠ 0 → InDirectMap hhdm answers.stack stackSize)
  | .call _ (.elfLoad file _ _ buffers) => LoadAnswered hhdm (IsTable hhdm kernel s) file buffers
  | .call _ (.createUserThread _ _ stack _) => stack ≠ 0 → InDirectMap hhdm stack stackSize
  | .call _ (.mmap len section_) => section_ ≠ 0 → InDirectMap hhdm section_ (mmapBytes len)
  | .call _ (.getFbContext _) => fb.Apart hhdm (IsTable hhdm kernel s)

/-- Files ask for pages of slots that the kernel does not use, and the structure for the
framebuffer is not in a table. -/
def Action.Contained (hhdm : Nat) (kernel : Frame) (s : System) : Action → Prop
  | .create file _ _ _ => FileContained (Shared hhdm kernel s.mem) file
  | .call _ (.elfLoad file _ _ _) => FileContained (Shared hhdm kernel s.mem) file
  | .call proc (.getFbContext context) => context ≠ 0 → ∀ a, s.procs[proc]? = some a →
      ∀ i < 24, Beside hhdm (IsTable hhdm kernel s) a s.mem (context + i)
  | _ => True

/-- A run whose steps all have the property, seen from the state before them. -/
inductive Run (hhdm : Nat) (kernel : Frame) (fb : Framebuffer) (P : System → Action → Prop) :
    System → List Action → System → Prop
  | nil (s : System) : Run hhdm kernel fb P s [] s
  | cons {s s' s'' : System} {act : Action} {rest : List Action} (hP : P s act)
      (hstep : step hhdm (tableBase hhdm kernel) fb (s.state hhdm) act = some (s'.state hhdm))
      (hrest : Run hhdm kernel fb P s' rest s'') : Run hhdm kernel fb P s (act :: rest) s''

section Isolation

variable {hhdm : Nat} {kernel a b : Frame} {fb : Framebuffer} {s s' : System}

theorem Call.run_local {c : Call} {i : Nat} {r : Mem × List Nat}
    (hhhdm : UpperHalf hhdm) (hfb : fb.Ok hhdm) (h : Spaces hhdm kernel s)
    (ha : s.procs[i]? = some a)
    (hanswered : Action.Answered hhdm kernel fb s (.call i c))
    (hcontained : Action.Contained hhdm kernel s (.call i c))
    (hret : c.run hhdm (tableBase hhdm a) fb (s.mem, s.frames.map (tableBase hhdm)) = some r) :
    LocalResult hhdm (Shared hhdm kernel s.mem) (IsTable hhdm kernel s) a s.mem s.frames r := by
  have howner := h.owner (fun _ he => he) (List.mem_of_getElem? ha)
  cases c with
  | elfLoad file readFails wantsEntry buffers =>
      obtain ⟨q, hload, rfl⟩ := Option.map_eq_some_iff.mp hret
      exact elfLoad_local hhhdm.2 hcontained hanswered howner hload
  | createUserThread entry thread stack kernelStack =>
      obtain ⟨q, hthread, rfl⟩ := Option.map_eq_some_iff.mp hret
      exact createUserThread_local h.lower hhhdm howner hanswered hthread
  | mmap len section_ =>
      obtain ⟨q, hmmap, rfl⟩ := Option.map_eq_some_iff.mp hret
      exact syscallMmap_local h.lower hhhdm howner hanswered hmmap
  | getFbContext context =>
      obtain ⟨q, hcontext, rfl⟩ := Option.map_eq_some_iff.mp hret
      exact syscallGetFbContext_local h.lower hhhdm hfb hanswered howner
        (fun hnull => hcontained hnull a ha) hcontext

theorem step_of_run {c : Call} {i : Nat} {m' : Mem} {frames' : List Frame} (ha : s.procs[i]? = some a)
    (hrun : c.run hhdm (tableBase hhdm a) fb (s.mem, s.frames.map (tableBase hhdm)) =
      some (m', frames'.map (tableBase hhdm))) :
    step hhdm (tableBase hhdm kernel) fb (s.state hhdm) (.call i c) =
      some (System.state hhdm ⟨m', frames', s.procs⟩) := by
  have hproc : (s.state hhdm).procs[i]? = some (tableBase hhdm a) := by
    rw [System.state, List.getElem?_map, ha, Option.map_some]
  rw [step, hproc, Option.bind_some]
  simp only [System.state, hrun, Option.map_some]

theorem map_tableBase_inj {frames frames' : List Frame}
    (heq : frames.map (tableBase hhdm) = frames'.map (tableBase hhdm)) : frames = frames' :=
  List.map_injective_iff.mpr (tableBase_injective hhdm) heq

/-- A call is local to its process. -/
theorem step_call {c : Call} {i : Nat} (hhhdm : UpperHalf hhdm) (hfb : fb.Ok hhdm)
    (h : Spaces hhdm kernel s) (hanswered : Action.Answered hhdm kernel fb s (.call i c))
    (hcontained : Action.Contained hhdm kernel s (.call i c))
    (hstep : step hhdm (tableBase hhdm kernel) fb (s.state hhdm) (.call i c) = some (s'.state hhdm)) :
    ∃ a, s.procs[i]? = some a ∧ s'.procs = s.procs ∧
      Local hhdm (Shared hhdm kernel s.mem) (IsTable hhdm kernel s) a s.mem s'.mem s.frames s'.frames := by
  obtain ⟨pml4Base, hproc, hrun⟩ := Option.bind_eq_some_iff.mp hstep
  rw [System.state, List.getElem?_map] at hproc
  obtain ⟨a, ha, rfl⟩ := Option.map_eq_some_iff.mp hproc
  obtain ⟨r, hret, hstate⟩ := Option.map_eq_some_iff.mp hrun
  obtain ⟨hmem, hsupply, hprocs⟩ := State.mk.inj hstate
  obtain ⟨frames', hframes, hlocal⟩ := Call.run_local hhhdm hfb h ha hanswered hcontained hret
  rw [hmem] at hlocal
  rw [map_tableBase_inj (hframes.symm.trans hsupply)] at hlocal
  exact ⟨a, ha, (map_tableBase_inj hprocs).symm, hlocal⟩

/-- A new process is separate from the others, also when its program was loaded. -/
theorem step_create {file : Option ElfFile} {readFails : Bool} {uninit : Nat} {answers : Answers}
    (hhhdm : UpperHalf hhdm) (h : Spaces hhdm kernel s)
    (hanswered : Action.Answered hhdm kernel fb s (.create file readFails uninit answers))
    (hcontained : Action.Contained hhdm kernel s (.create file readFails uninit answers))
    (hstep : step hhdm (tableBase hhdm kernel) fb (s.state hhdm)
      (.create file readFails uninit answers) = some (s'.state hhdm)) : Spaces hhdm kernel s' := by
  obtain ⟨r, hret, hstate⟩ := Option.map_eq_some_iff.mp hstep
  obtain ⟨hmem, hsupply, hprocs⟩ := State.mk.inj hstate
  obtain ⟨m, frames, procs⟩ := s
  obtain ⟨m', frames', procs'⟩ := s'
  dsimp only [System.state] at hmem hsupply hprocs hret
  rw [createUserProcess] at hret
  by_cases hnull : answers.proc = 0 ∨ answers.pmap = 0 ∨ answers.pml4 = 0
  · rw [if_pos hnull] at hret
    rw [← Option.some.inj hret] at hmem hsupply hprocs
    obtain rfl : m = m' := hmem
    obtain rfl := map_tableBase_inj hsupply
    rw [Option.toList_none, List.append_nil] at hprocs
    obtain rfl := map_tableBase_inj hprocs
    exact h
  · rw [if_neg hnull] at hret
    simp only [not_or] at hnull
    obtain ⟨⟨n, hpml4, hn, hload⟩, hstack⟩ := And.imp_left (fun hex => hex hnull.2.2) hanswered
    rw [hpml4] at hret
    have hunreached : ∀ r ∈ kernel :: procs, ¬ Radix.Reaches nextFrame (view hhdm m) r 3 n :=
      fun r hr hreach => hn (.inl ⟨r, hr, hreach⟩)
    have hcopied := copied_memcpy hunreached
    obtain ⟨m₁, hm₁⟩ : ∃ m₁, m.memcpy (tableBase hhdm n) (tableBase hhdm kernel) pageSize = m₁ :=
      ⟨_, rfl⟩
    rw [hm₁] at hcopied hret
    have hspaces := h.new_process hcopied fun hmem => hn (.inr hmem)
    have htable : ∀ e, IsTable hhdm kernel ⟨m₁, frames, procs ++ [n]⟩ e →
        IsTable hhdm kernel ⟨m, frames, procs⟩ e ∨ e = n := fun _ => hcopied.isTable
    have hmemn : n ∈ procs ++ [n] := List.mem_append_right _ (List.mem_singleton_self n)
    have howner := hspaces.owner htable hmemn
    obtain ⟨q, helf, hrest⟩ := Option.bind_eq_some_iff.mp hret
    obtain ⟨t, hthread, rfl⟩ := Option.map_eq_some_iff.mp hrest
    obtain ⟨frames₂, hsupply₂, hlocal₂⟩ := elfLoad_local hhhdm.2 hcontained hload howner helf
    dsimp only at hsupply₂ hlocal₂
    rw [hsupply₂] at hthread
    obtain ⟨frames₃, hsupply₃, hlocal₃⟩ := createUserThread_local h.lower hhhdm
      (hlocal₂.owner howner) hstack hthread
    have hlocal := hlocal₂.trans hlocal₃
    rw [← hcopied.shared_eq] at hlocal
    have hnew := (hspaces.local_step htable hmemn hlocal).1
    obtain rfl : t.2.1 = m' := hmem
    obtain rfl := map_tableBase_inj (hsupply₃.symm.trans hsupply)
    rw [Option.toList_some, ← List.map_singleton, ← List.map_append] at hprocs
    obtain rfl := map_tableBase_inj hprocs
    exact hnew

/-- What the steps of a run meet. -/
def Action.Ok (hhdm : Nat) (kernel : Frame) (fb : Framebuffer) (s : System) (act : Action) : Prop :=
  act.Answered hhdm kernel fb s ∧ act.Contained hhdm kernel s

theorem Run.spaces {actions : List Action} (hhhdm : UpperHalf hhdm) (hfb : fb.Ok hhdm)
    (hrun : Run hhdm kernel fb (Action.Ok hhdm kernel fb) s actions s')
    (h : Spaces hhdm kernel s) : Spaces hhdm kernel s' := by
  induction hrun with
  | nil => exact h
  | @cons s s₁ s₂ act rest hP hstep hrest ih =>
      refine ih ?_
      cases act with
      | create file readFails uninit answers => exact step_create hhhdm h hP.1 hP.2 hstep
      | call i c =>
          obtain ⟨a, ha, hprocs, hlocal⟩ := step_call hhhdm hfb h hP.1 hP.2 hstep
          have hnext := (h.local_step (fun _ he => he) (List.mem_of_getElem? ha) hlocal).1
          obtain ⟨m₁, frames₁, procs₁⟩ := s₁
          obtain rfl : procs₁ = s.procs := hprocs
          exact hnext

/-- Calls of one process change no other page map. -/
theorem Run.pagesOf_eq {calls : List Call} {i : Nat} (hhhdm : UpperHalf hhdm) (hfb : fb.Ok hhdm)
    (hrun : Run hhdm kernel fb (Action.Ok hhdm kernel fb) s (calls.map (.call i)) s')
    (h : Spaces hhdm kernel s) {r : Frame} (hr : r ∈ kernel :: s.procs) (hri : s.procs[i]? ≠ some r)
    (p : Nat) : pagesOf hhdm s'.mem r p = pagesOf hhdm s.mem r p := by
  induction calls generalizing s with
  | nil =>
      cases hrun
      rfl
  | cons c calls ih =>
      cases hrun with
      | @cons _ s₁ _ _ _ hP hstep hrest =>
          obtain ⟨a, ha, hprocs, hlocal⟩ := step_call hhhdm hfb h hP.1 hP.2 hstep
          obtain ⟨m₁, frames₁, procs₁⟩ := s₁
          obtain rfl : procs₁ = s.procs := hprocs
          have hne : r ≠ a := fun heq => hri (heq ▸ ha)
          obtain ⟨hnext, hsame⟩ := h.local_step (fun _ he => he) (List.mem_of_getElem? ha) hlocal
          rw [ih hrest hnext hr hri]
          exact hsame r hr hne p

/-- A kernel page map as it is before the first process. -/
structure KernelMap (hhdm : Nat) (kernel : Frame) (s : System) : Prop where
  ok : TablesOk hhdm s.mem kernel s.frames
  lower : ∀ i : Fin 512, i.val < 256 → ¬ Shared hhdm kernel s.mem i
  procs : s.procs = []

theorem KernelMap.spaces (h : KernelMap hhdm kernel s) : Spaces hhdm kernel s := by
  refine ⟨?_, h.lower, ?_, ?_⟩
  · intro r hr
    rw [h.procs, List.mem_singleton] at hr
    exact hr ▸ h.ok
  · rw [h.procs]
    exact List.pairwise_singleton _ kernel
  · intro a ha
    rw [h.procs] at ha
    cases ha

/-- A file that is no program. -/
def blankFile : ElfFile := ⟨fun _ => 0, 64⟩

/-- What `create_user_process` gets for it: a PML4 at `n` and a buffer for the file. -/
def blankAnswers (hhdm : Nat) (n : Frame) (data : Nat) : Answers where
  proc := data + 0x200
  pmap := data + 0x400
  pml4 := tableBase hhdm n
  buffers := [data]
  thread := 0
  stack := 0
  kernelStack := 0

def blankAction (hhdm : Nat) (n : Frame) (data : Nat) : Action :=
  .create (some blankFile) false 0 (blankAnswers hhdm n data)

/-- A process that could not be loaded. -/
def System.withBlank (hhdm : Nat) (kernel : Frame) (s : System) (n : Frame) (data : Nat) : System :=
  ⟨blankFile.readTo data (s.mem.memcpy (tableBase hhdm n) (tableBase hhdm kernel) pageSize),
    s.frames, s.procs ++ [n]⟩

section Blank

variable {n : Frame} {data : Nat}

theorem step_blank (hdata : data ≠ 0) (hbase : tableBase hhdm n ≠ 0) :
    step hhdm (tableBase hhdm kernel) fb (s.state hhdm) (blankAction hhdm n data) =
      some ((s.withBlank hhdm kernel n data).state hhdm) := by
  have hverify : elfVerifyHeader (blankFile.readTo data
      (s.mem.memcpy (tableBase hhdm n) (tableBase hhdm kernel) pageSize)) data = false := by
    rw [(blankFile.readTo_at data _).elfVerifyHeader_eq (Nat.le_refl 64)]
    decide
  have hload : elfLoad hhdm (tableBase hhdm n) (some blankFile) false true
      ⟨s.mem.memcpy (tableBase hhdm n) (tableBase hhdm kernel) pageSize,
        s.frames.map (tableBase hhdm), [data]⟩ = some (elfErr, none,
      ⟨blankFile.readTo data (s.mem.memcpy (tableBase hhdm n) (tableBase hhdm kernel) pageSize),
        s.frames.map (tableBase hhdm), []⟩) := by
    simp [elfLoad, hdata, hverify]
  have hcreate : createUserProcess hhdm (tableBase hhdm kernel) (some blankFile) false 0
      (blankAnswers hhdm n data) (s.mem, s.frames.map (tableBase hhdm)) =
      some (some (tableBase hhdm n), blankFile.readTo data
        (s.mem.memcpy (tableBase hhdm n) (tableBase hhdm kernel) pageSize),
        s.frames.map (tableBase hhdm)) := by
    rw [createUserProcess, if_neg (by simp [blankAnswers, hbase])]
    simp only [blankAnswers, hload, Option.bind_some, Option.getD_none]
    rfl
  simp only [step, blankAction, System.state, hcreate, Option.map_some, System.withBlank,
    Option.toList_some, List.map_append, List.map_cons, List.map_nil]

theorem blank_ok (hn : ¬ IsTable hhdm kernel s n) (hfits : data + 64 < 2 ^ 64)
    (hfile : ∀ e, IsTable hhdm kernel s e ∨ e = n →
      Span.Disjoint ⟨data, 64⟩ ⟨tableBase hhdm e, pageSize⟩) :
    (blankAction hhdm n data).Ok hhdm kernel fb s := by
  have hverify : ¬ elfVerifyHeader blankFile.bytes 0 = true := by decide
  refine ⟨⟨fun _ => ⟨n, rfl, hn, ?_⟩, fun hstack => absurd rfl hstack⟩, ?_⟩
  · intro f hf data' rest hbuffers _
    obtain rfl : blankFile = f := Option.some.inj hf
    obtain ⟨rfl, rfl⟩ := List.cons.inj hbuffers
    exact ⟨[], [], rfl, ⟨hfits, hfile, nofun⟩, fun hyes => absurd hyes hverify⟩
  · intro f hf
    obtain rfl : blankFile = f := Option.some.inj hf
    exact ⟨Nat.le_refl 64, fun hyes => absurd hyes hverify⟩

/-- The tables of the other processes stay, and the copy joins them. -/
theorem isTable_blank (hn : ¬ IsTable hhdm kernel s n)
    (hfile : ∀ e, IsTable hhdm kernel s e ∨ e = n →
      Span.Disjoint ⟨data, 64⟩ ⟨tableBase hhdm e, pageSize⟩) {e : Frame}
    (he : IsTable hhdm kernel (s.withBlank hhdm kernel n data) e) :
    IsTable hhdm kernel s e ∨ e = n := by
  have hcopied : Copied hhdm kernel n s.mem
      (s.mem.memcpy (tableBase hhdm n) (tableBase hhdm kernel) pageSize) s.procs :=
    copied_memcpy fun r hr hreach => hn (.inl ⟨r, hr, hreach⟩)
  obtain ⟨m₁, hm₁⟩ : ∃ m₁, s.mem.memcpy (tableBase hhdm n) (tableBase hhdm kernel) pageSize = m₁ :=
    ⟨_, rfl⟩
  rw [System.withBlank, hm₁] at he
  rw [hm₁] at hcopied
  have hagree : ∀ e, IsTable hhdm kernel ⟨m₁, s.frames, s.procs ++ [n]⟩ e →
      ∀ x, InFrame hhdm e x → blankFile.readTo data m₁ x = m₁ x := by
    intro e he x hx
    refine if_neg fun hin => ?_
    exact Span.not_has_of_disjoint (hfile e (hcopied.isTable he)) hin hx
  rcases he with ⟨r, hr, hreach⟩ | he
  · refine hcopied.isTable (.inl ⟨r, hr, (reaches_agree ?_).mp hreach⟩)
    exact fun e he => hagree e (.inl ⟨r, hr, he⟩)
  · exact .inl (.inr he)

end Blank

theorem two_lt_frames : 2 < 2 ^ 36 := by decide
theorem three_lt_frames : 3 < 2 ^ 36 := by decide

def kernelFrame : Frame := ⟨1, by decide⟩
def procA : Frame := ⟨2, two_lt_frames⟩
def procB : Frame := ⟨3, three_lt_frames⟩
def sharedTable : Frame := ⟨5, by decide⟩

def freeFrames : List Frame := [⟨6, by decide⟩, ⟨7, by decide⟩, ⟨8, by decide⟩]

def zeroMem : Mem := fun _ => 0

/-- A kernel page map with one empty table, in the first slot of the upper half. -/
def sharedKernel (hhdm : Nat) : System where
  mem := zeroMem.write64 (tableBase hhdm kernelFrame + 8 * ((256 : Fin 512) : Nat)) 0x5003
  frames := freeFrames
  procs := []

section Example

theorem nextFrame_zeroMem (hhdm : Nat) (f : Frame) (i : Fin 512) :
    nextFrame (view hhdm zeroMem f i) = none := by
  have hview : view hhdm zeroMem f i = 0 := Mem.readN_eq_zero fun _ _ _ => rfl
  rw [hview, nextFrame_zero]

theorem sharedKernel_slot (hhdm : Nat) (i : Fin 512) :
    nextFrame (view hhdm (sharedKernel hhdm).mem kernelFrame i) =
      if i = 256 then some sharedTable else none := by
  by_cases hi : i = 256
  · have hview : view hhdm (sharedKernel hhdm).mem kernelFrame 256 = 0x5003 :=
      view_write_same zeroMem kernelFrame 256 (by decide)
    rw [hi, hview]
    decide
  · have hview : view hhdm (sharedKernel hhdm).mem kernelFrame i = view hhdm zeroMem kernelFrame i :=
      view_write_of_ne zeroMem 0x5003 (.inr hi)
    rw [if_neg hi, hview, nextFrame_zeroMem]

theorem sharedKernel_empty (hhdm : Nat) (i : Fin 512) :
    nextFrame (view hhdm (sharedKernel hhdm).mem sharedTable i) = none := by
  have hview : view hhdm (sharedKernel hhdm).mem sharedTable i = view hhdm zeroMem sharedTable i :=
    view_write_of_ne zeroMem 0x5003 (.inl (by decide))
  rw [hview, nextFrame_zeroMem]

theorem sharedKernel_walk {hhdm : Nat} {js : List (Fin 512)} {e : Frame}
    (hwalk : Radix.walk nextFrame (view hhdm (sharedKernel hhdm).mem) kernelFrame js = some e) :
    js = [] ∧ e = kernelFrame ∨ js = [256] ∧ e = sharedTable := by
  match js with
  | [] => exact .inl ⟨rfl, (Option.some.inj hwalk).symm⟩
  | [i] =>
      rw [Radix.walk, sharedKernel_slot] at hwalk
      split_ifs at hwalk with hi
      · exact .inr ⟨by rw [hi], (Option.some.inj hwalk).symm⟩
      · cases hwalk
  | i :: j :: js =>
      rw [Radix.walk, sharedKernel_slot] at hwalk
      split_ifs at hwalk with hi
      · rw [Option.bind_some, Radix.walk, sharedKernel_empty] at hwalk
        cases hwalk
      · cases hwalk

variable {hhdm : Nat}

theorem tableBase_low (hhhdm : hhdm + 2 ^ 25 < 2 ^ 64) {e : Frame} (he : e.num ≤ 8) :
    tableBase hhdm e = hhdm + 4096 * e.num := by
  simp only [tableBase, add64, pageSize]
  omega

theorem freeFrames_num : ∀ e ∈ freeFrames, 6 ≤ e.num ∧ e.num ≤ 8 := by decide

theorem sharedKernel_table {e : Frame} (he : IsTable hhdm kernelFrame (sharedKernel hhdm) e) :
    e.num ≤ 8 ∧ e.num ≠ 2 ∧ e.num ≠ 3 := by
  rcases he with ⟨r, hr, js, hjs, hwalk⟩ | he
  · obtain rfl := List.mem_singleton.mp hr
    rcases sharedKernel_walk hwalk with ⟨-, rfl⟩ | ⟨-, rfl⟩
    · decide
    · decide
  · have hnum := freeFrames_num e he
    omega

theorem sharedKernel_ok (hhhdm : hhdm + 2 ^ 25 < 2 ^ 64) :
    KernelMap hhdm kernelFrame (sharedKernel hhdm) := by
  have hnodup : freeFrames.Nodup := by decide
  refine ⟨⟨?_, hnodup, ?_, ?_⟩, ?_, rfl⟩
  · intro is js e _ _ hi hj
    rcases sharedKernel_walk hi with ⟨rfl, rfl⟩ | ⟨rfl, rfl⟩
    · rcases sharedKernel_walk hj with ⟨rfl, -⟩ | ⟨-, heq⟩
      · rfl
      · exact absurd heq (by decide)
    · rcases sharedKernel_walk hj with ⟨-, heq⟩ | ⟨rfl, -⟩
      · exact absurd heq (by decide)
      · rfl
  · rintro c hc ⟨js, -, hwalk⟩
    have hnum := freeFrames_num c hc
    rcases sharedKernel_walk hwalk with ⟨-, rfl⟩ | ⟨-, rfl⟩
    · exact absurd hnum (by decide)
    · exact absurd hnum (by decide)
  · intro c hc
    have hnum := freeFrames_num c hc
    rw [tableBase_low hhhdm hnum.2]
    omega
  · intro i hi hshared
    refine hshared ?_
    rw [sharedKernel_slot, if_neg]
    rintro rfl
    exact absurd hi (by decide)

def oneProcess (hhdm : Nat) : System :=
  (sharedKernel hhdm).withBlank hhdm kernelFrame procA (hhdm + 0x10000)

def twoProcesses (hhdm : Nat) : System :=
  (oneProcess hhdm).withBlank hhdm kernelFrame procB (hhdm + 0x11000)

/-- Buffers behind the first frames hold no table. -/
theorem buffer_disjoint (hhhdm : hhdm + 2 ^ 25 < 2 ^ 64) {e : Frame} (he : e.num ≤ 8) {off len : Nat}
    (hoff : 0x9000 ≤ off) : Span.Disjoint ⟨hhdm + off, len⟩ ⟨tableBase hhdm e, pageSize⟩ := by
  rw [tableBase_low hhhdm he]
  simp only [Span.Disjoint, pageSize]
  omega

theorem oneProcess_fresh : ¬ IsTable hhdm kernelFrame (sharedKernel hhdm) procA :=
  fun htable => (sharedKernel_table htable).2.1 rfl

theorem oneProcess_file (hhhdm : hhdm + 2 ^ 25 < 2 ^ 64) (e : Frame)
    (he : IsTable hhdm kernelFrame (sharedKernel hhdm) e ∨ e = procA) :
    Span.Disjoint ⟨hhdm + 0x10000, 64⟩ ⟨tableBase hhdm e, pageSize⟩ := by
  rcases he with he | rfl
  · exact buffer_disjoint hhhdm (sharedKernel_table he).1 (by decide)
  · exact buffer_disjoint hhhdm (by decide) (by decide)

theorem oneProcess_table (hhhdm : hhdm + 2 ^ 25 < 2 ^ 64) {e : Frame}
    (he : IsTable hhdm kernelFrame (oneProcess hhdm) e) : e.num ≤ 8 ∧ e.num ≠ 3 := by
  rcases isTable_blank oneProcess_fresh (oneProcess_file hhhdm) he with he | rfl
  · exact ⟨(sharedKernel_table he).1, (sharedKernel_table he).2.2⟩
  · decide

theorem twoProcesses_fresh (hhhdm : hhdm + 2 ^ 25 < 2 ^ 64) :
    ¬ IsTable hhdm kernelFrame (oneProcess hhdm) procB :=
  fun htable => (oneProcess_table hhhdm htable).2 rfl

theorem twoProcesses_file (hhhdm : hhdm + 2 ^ 25 < 2 ^ 64) (e : Frame)
    (he : IsTable hhdm kernelFrame (oneProcess hhdm) e ∨ e = procB) :
    Span.Disjoint ⟨hhdm + 0x11000, 64⟩ ⟨tableBase hhdm e, pageSize⟩ := by
  rcases he with he | rfl
  · exact buffer_disjoint hhhdm (oneProcess_table hhhdm he).1 (by decide)
  · exact buffer_disjoint hhhdm (by decide) (by decide)

theorem twoProcesses_table (hhhdm : hhdm + 2 ^ 25 < 2 ^ 64) {e : Frame}
    (he : IsTable hhdm kernelFrame (twoProcesses hhdm) e) : e.num ≤ 8 := by
  rcases isTable_blank (twoProcesses_fresh hhhdm) (twoProcesses_file hhhdm) he with he | rfl
  · exact (oneProcess_table hhhdm he).1
  · decide

/-- Two processes are created. -/
theorem twoProcesses_run (hhhdm : hhdm + 2 ^ 25 < 2 ^ 64) :
    Run hhdm kernelFrame fb (Action.Ok hhdm kernelFrame fb) (sharedKernel hhdm)
      [blankAction hhdm procA (hhdm + 0x10000), blankAction hhdm procB (hhdm + 0x11000)]
      (twoProcesses hhdm) := by
  have hbase : ∀ e : Frame, e.num ≤ 8 → 0 < e.num → tableBase hhdm e ≠ 0 := by
    intro e he hpos
    rw [tableBase_low hhhdm he]
    omega
  refine .cons (blank_ok oneProcess_fresh (by omega) (oneProcess_file hhhdm))
    (step_blank (by omega) (hbase _ (by decide) (by decide))) ?_
  exact .cons (blank_ok (twoProcesses_fresh hhhdm) (by omega) (twoProcesses_file hhhdm))
    (step_blank (by omega) (hbase _ (by decide) (by decide))) (.nil _)

/-- A framebuffer of 640 by 480 pixels. -/
def console (hhdm : Nat) : Framebuffer := ⟨hhdm + 0x1000000, 640, 480, 2560, 32⟩

theorem console_ok (hhhdm : hhdm + 2 ^ 25 < 2 ^ 64) : (console hhdm).Ok hhdm := by
  refine ⟨?_, ?_, ?_⟩
  all_goals simp only [console, Framebuffer.sizeBytes]
  all_goals omega

theorem twoProcesses_spaces (hupper : UpperHalf hhdm) (hhhdm : hhdm + 2 ^ 25 < 2 ^ 64) :
    Spaces hhdm kernelFrame (twoProcesses hhdm) :=
  (twoProcesses_run hhhdm).spaces hupper (console_ok hhhdm) (sharedKernel_ok hhhdm).spaces

theorem mmapBytes_page : mmapBytes 4096 = 4096 := by simp [mmapBytes, pageSize]

theorem mmap_step (hupper : UpperHalf hhdm) (hhhdm : hhdm + 2 ^ 25 < 2 ^ 64) :
    ∃ s', step hhdm (tableBase hhdm kernelFrame) fb ((twoProcesses hhdm).state hhdm)
      (.call 0 (.mmap 4096 (hhdm + 0x40000))) = some (System.state hhdm s') := by
  have hmem : procA ∈ kernelFrame :: [procA, procB] := by decide
  have hok := (twoProcesses_spaces hupper hhhdm).ok procA hmem
  have hsupply : 3 * pageCount 4096 ≤ freeFrames.length := by decide
  have hend : 0x40000 + 4096 ≤ 2 ^ 64 - 4096 := by decide
  have hpaddr : 0x40000 < 2 ^ 64 := by decide
  obtain ⟨m', frames', hmap, -⟩ :=
    mapSection_total hupper.2 hend userFlags_ok.1 hpaddr hok hsupply
  have hvaddr : sub64 (hhdm + 0x40000) hhdm = 0x40000 := by
    rw [sub64_eq (by omega) (by omega), Nat.add_sub_cancel_left]
  have hmmap : syscallMmap hhdm (tableBase hhdm procA) 4096 (hhdm + 0x40000)
      ((twoProcesses hhdm).mem, freeFrames.map (tableBase hhdm)) =
        some (0x40000, m', frames'.map (tableBase hhdm)) := by
    rw [syscallMmap, if_neg (by omega), hvaddr, mmapBytes_page]
    exact congrArg (Option.map fun s => (0x40000, s)) hmap
  have hrun : (Call.mmap 4096 (hhdm + 0x40000)).run hhdm (tableBase hhdm procA) fb
      ((twoProcesses hhdm).mem, freeFrames.map (tableBase hhdm)) =
        some (m', frames'.map (tableBase hhdm)) := by
    rw [Call.run, hmmap, Option.map_some]
  exact ⟨_, step_of_run (a := procA) rfl hrun⟩

/-- The small program, linked at an address of the direct map. -/
def kernelFile : ElfFile where
  bytes := fun k =>
    if k = 85 then 0x80 else if k = 86 ∨ k = 87 then 0xff else (tinyFile 4).bytes k
  size := 120

def kernelPhdr : Phdr := ⟨ptLoad, 5, 0, 0xffff800000400000, 4, 4⟩

theorem kernelFile_phdrs : kernelFile.phdrs = [kernelPhdr] := by decide +kernel

theorem kernelFile_segments : kernelFile.segments = [kernelPhdr] := by decide +kernel

theorem kernelPhdr_pages : kernelPhdr.pages = 1 := by
  simp [Phdr.pages, kernelPhdr, pageCount, pageSize]

theorem kernelFile_headers : kernelFile.Headers := ⟨by decide, by decide +kernel⟩

theorem kernelFile_table : ePhnum kernelFile.bytes 0 * ePhentsize kernelFile.bytes 0 < 2 ^ 31 := by
  decide +kernel

theorem kernelPhdr_vaddr : kernelPhdr.pVaddr - kernelPhdr.offset = 0xffff800000400000 := by
  rw [Phdr.offset_eq]
  simp [kernelPhdr]

theorem kernelPhdr_ok : SegmentOk (fun _ => False) kernelPhdr := by
  refine ⟨?_, ?_, fun _ _ => id⟩
  · rw [kernelPhdr_pages]
    decide
  · rw [kernelPhdr_pages, kernelPhdr_vaddr]
    decide

def kernelLoad (hhdm : Nat) : Load := ⟨kernelPhdr, hhdm + 0x20000⟩

theorem kernelLoad_ok (hhhdm : hhdm + 2 ^ 25 < 2 ^ 64) : (kernelLoad hhdm).Ok hhdm := by
  refine ⟨?_, ?_, ?_, ?_, ?_⟩
  all_goals simp only [kernelLoad, kernelPhdr_pages]
  all_goals omega

theorem kernelLoad_answered (hhhdm : hhdm + 2 ^ 25 < 2 ^ 64) :
    Answered hhdm (IsTable hhdm kernelFrame (twoProcesses hhdm)) kernelFile (hhdm + 0x12000)
      [kernelLoad hhdm] := by
  have hsize : kernelFile.size = 120 := rfl
  refine ⟨by omega, fun e he => buffer_disjoint hhhdm (twoProcesses_table hhhdm he) (by decide), ?_⟩
  intro l hl _
  rw [List.mem_singleton.mp hl]
  refine ⟨kernelLoad_ok hhhdm, ?_, ?_⟩
  · simp only [Span.Disjoint, Load.span, kernelLoad, kernelPhdr_pages, hsize]
    omega
  · intro e he
    exact buffer_disjoint hhhdm (twoProcesses_table hhhdm he) (by decide)

def kernelBuffers (hhdm : Nat) : List Nat := [hhdm + 0x12000, hhdm + 0x20000]

/-- The file is loaded into the first process, which then sees the segment. -/
theorem kernelFile_load (hupper : UpperHalf hhdm) (hhhdm : hhdm + 2 ^ 25 < 2 ^ 64) :
    ∃ entry s', elfLoad hhdm (tableBase hhdm procA) (some kernelFile) false true
        ⟨(twoProcesses hhdm).mem, freeFrames.map (tableBase hhdm), kernelBuffers hhdm⟩ =
          some (elfSuccess, entry, s') ∧
      pagesOf hhdm s'.mem procA (page 0xffff800000400000) ≠ none := by
  have hmem : procA ∈ [procA, procB] := by decide
  obtain ⟨m, hm⟩ : ∃ m, (twoProcesses hhdm).mem = m := ⟨_, rfl⟩
  have howner : Owner hhdm (IsTable hhdm kernelFrame (twoProcesses hhdm)) procA
      (twoProcesses hhdm).mem freeFrames :=
    (twoProcesses_spaces hupper hhhdm).owner (fun _ he => he) hmem
  rw [hm] at howner ⊢
  have hanswered := kernelLoad_answered hhhdm
  have hbuffer := (hanswered.buffer (kernelLoad hhdm) (List.mem_singleton_self _)
    (kernelLoad_ok hhhdm).nonnull).2.2
  obtain ⟨m₁, hm₁⟩ : ∃ m₁, kernelFile.readTo (hhdm + 0x12000) m = m₁ := ⟨_, rfl⟩
  have hat : kernelFile.At m₁ (hhdm + 0x12000) := hm₁ ▸ kernelFile.readTo_at _ m
  have howner₁ : Owner hhdm (IsTable hhdm kernelFrame (twoProcesses hhdm)) procA m₁ freeFrames := by
    refine howner.of_agree fun e he x hx => ?_
    rw [← hm₁]
    exact if_neg fun hin => Span.not_has_of_disjoint (hanswered.fileTable e he) hin hx
  have hsupply : 3 * (kernelLoad hhdm).ph.pages ≤ freeFrames.length := by
    have hpages : (kernelLoad hhdm).ph.pages = 1 := kernelPhdr_pages
    rw [hpages]
    decide
  obtain ⟨s', hload, -⟩ := loadSegment_total (hhdm + 0x12000) [] hupper.2 howner₁.ok howner₁.tables
    (kernelLoad_ok hhhdm) kernelPhdr_ok.short kernelPhdr_ok.top hbuffer hsupply
  obtain ⟨m', frames', hr, -, hcovers⟩ := loadSegment_grown (P := fun _ => True) hupper.2 howner₁.ok
    howner₁.tables (kernelLoad_ok hhhdm) kernelPhdr_ok.short kernelPhdr_ok.top
    (fun _ _ _ _ => trivial) hbuffer hload
  obtain ⟨m'', frames'', hr', hat', -⟩ := loadSegment_local hupper.2 howner₁ hat
    hanswered.fileTable kernelPhdr_ok (hanswered.buffer _ (List.mem_singleton_self _)) hload
  obtain rfl : s' = _ := (Prod.mk.inj hr).2
  have hatFinal : kernelFile.At m' (hhdm + 0x12000) := (LoadState.mk.inj hr').1 ▸ hat'
  have hrun := loadSegments_one (tableBase hhdm procA) (2 ^ 16 - 1) kernelFile_headers kernelFile_table
    hanswered.fits kernelFile_phdrs rfl hat hload hatFinal
  have hverify : elfVerifyHeader m₁ (hhdm + 0x12000) = true := by
    rw [hat.elfVerifyHeader_eq kernelFile_headers.header]
    decide +kernel
  refine ⟨some (eEntry m₁ (hhdm + 0x12000)), ⟨m', frames'.map (tableBase hhdm), []⟩, ?_, ?_⟩
  · unfold elfLoad
    dsimp only [kernelBuffers]
    rw [if_neg (by simp), hm₁, hverify, if_neg (by decide)]
    exact congrArg (Option.map fun r => (r.1, some (eEntry m₁ (hhdm + 0x12000)), r.2)) hrun
  · rcases hcovers 0xffff800000400000 with ⟨k, -, -, hentry⟩ | ⟨hnone, -⟩
    · rw [hentry]
      exact Option.some_ne_none _
    · refine absurd ?_ (hnone 0 ?_)
      · rw [show (kernelLoad hhdm).ph.pVaddr - (kernelLoad hhdm).ph.offset = 0xffff800000400000 from
          kernelPhdr_vaddr]
      · rw [show (kernelLoad hhdm).ph.pages = 1 from kernelPhdr_pages]
        decide

/-- Creating a process changes neither its copy's other frames nor what is beside the file. -/
theorem withBlank_agree (hhhdm : hhdm + 2 ^ 25 < 2 ^ 64) {e n : Frame} {off : Nat} (s : System)
    (he : e.num ≤ 8) (hne : e ≠ n) (hoff : 0x9000 ≤ off) (x : Nat) (hx : InFrame hhdm e x) :
    (s.withBlank hhdm kernelFrame n (hhdm + off)).mem x = s.mem x := by
  have hread : blankFile.readTo (hhdm + off)
      (s.mem.memcpy (tableBase hhdm n) (tableBase hhdm kernelFrame) pageSize) x =
        s.mem.memcpy (tableBase hhdm n) (tableBase hhdm kernelFrame) pageSize x :=
    if_neg fun hin => Span.not_has_of_disjoint (buffer_disjoint hhhdm he hoff) hin hx
  exact hread.trans (memcpy_frame_out hne hx)

theorem withBlank_copy (hhhdm : hhdm + 2 ^ 25 < 2 ^ 64) {n : Frame} {off : Nat} (s : System)
    (hn : n.num ≤ 8) (hne : kernelFrame ≠ n) (hoff : 0x9000 ≤ off) (i : Fin 512) :
    view hhdm (s.withBlank hhdm kernelFrame n (hhdm + off)).mem n i = view hhdm s.mem kernelFrame i := by
  rw [← view_memcpy_frame s.mem hne i]
  refine view_agree (fun x hx => if_neg fun hin => ?_) i
  exact Span.not_has_of_disjoint (buffer_disjoint hhhdm hn hoff) hin hx

/-- Both processes lead to the kernel's table, which is empty. -/
theorem twoProcesses_slots (hhhdm : hhdm + 2 ^ 25 < 2 ^ 64) :
    nextFrame (view hhdm (twoProcesses hhdm).mem procA 256) = some sharedTable ∧
    nextFrame (view hhdm (twoProcesses hhdm).mem procB 256) = some sharedTable ∧
    ∀ i, nextFrame (view hhdm (twoProcesses hhdm).mem sharedTable i) = none := by
  have hone : ∀ e : Frame, e.num ≤ 8 → e ≠ procA → ∀ i,
      view hhdm (oneProcess hhdm).mem e i = view hhdm (sharedKernel hhdm).mem e i :=
    fun e he hne => view_agree (withBlank_agree hhhdm _ he hne (by decide))
  have htwo : ∀ e : Frame, e.num ≤ 8 → e ≠ procB → ∀ i,
      view hhdm (twoProcesses hhdm).mem e i = view hhdm (oneProcess hhdm).mem e i :=
    fun e he hne => view_agree (withBlank_agree hhhdm _ he hne (by decide))
  have hslot : nextFrame (view hhdm (sharedKernel hhdm).mem kernelFrame 256) = some sharedTable :=
    sharedKernel_slot hhdm 256
  refine ⟨?_, ?_, fun i => ?_⟩
  · rw [htwo procA (by decide) (by decide), oneProcess,
      withBlank_copy hhhdm _ (by decide) (by decide) (by decide), hslot]
  · rw [twoProcesses, withBlank_copy hhhdm _ (by decide) (by decide) (by decide),
      hone kernelFrame (by decide) (by decide), hslot]
  · rw [htwo sharedTable (by decide) (by decide), hone sharedTable (by decide) (by decide),
      sharedKernel_empty]

/-- Page maps with the same table in a slot agree on the slot's addresses. -/
theorem translate_slot {m : Mem} {a b : Frame} {v : Nat}
    (hslot : nextFrame (view hhdm m a (index 39 v)) = nextFrame (view hhdm m b (index 39 v))) :
    translate hhdm m (tableBase hhdm a) v = translate hhdm m (tableBase hhdm b) v := by
  have hwalk : Radix.walk nextFrame (view hhdm m) a (path v) =
      Radix.walk nextFrame (view hhdm m) b (path v) := by
    rw [path, Radix.walk, Radix.walk, hslot]
  rw [translate_eq, translate_eq, entryAt, entryAt, hwalk]

theorem kernelFile_answered (hhhdm : hhdm + 2 ^ 25 < 2 ^ 64) :
    LoadAnswered hhdm (IsTable hhdm kernelFrame (twoProcesses hhdm)) (some kernelFile)
      (kernelBuffers hhdm) := by
  intro f hf data rest hbuffers _
  obtain rfl : kernelFile = f := Option.some.inj hf
  obtain ⟨rfl, rfl⟩ := List.cons.inj hbuffers
  exact ⟨[kernelLoad hhdm], [], rfl, kernelLoad_answered hhhdm, fun _ => kernelFile_segments.symm⟩

/-- What a load into a shared slot does to the other process. -/
theorem kernelFile_visible (hupper : UpperHalf hhdm) (hhhdm : hhdm + 2 ^ 25 < 2 ^ 64) :
    ∃ s', step hhdm (tableBase hhdm kernelFrame) fb ((twoProcesses hhdm).state hhdm)
        (.call 0 (.elfLoad (some kernelFile) false true (kernelBuffers hhdm))) =
          some (System.state hhdm s') ∧
      translate hhdm s'.mem (tableBase hhdm procB) 0xffff800000400000 ≠
        translate hhdm (twoProcesses hhdm).mem (tableBase hhdm procB) 0xffff800000400000 := by
  have hspaces := twoProcesses_spaces hupper hhhdm
  have hmemA : procA ∈ [procA, procB] := by decide
  have hmemB : procB ∈ [procA, procB] := by decide
  have hmemA' : procA ∈ kernelFrame :: [procA, procB] := by decide
  have hmemB' : procB ∈ kernelFrame :: [procA, procB] := by decide
  have hindex : index 39 0xffff800000400000 = 256 := by decide
  obtain ⟨hslotA, hslotB, hempty⟩ := twoProcesses_slots hhhdm
  obtain ⟨entry, s', hload, hseen⟩ := kernelFile_load hupper hhhdm
  have hcontained : FileContained (fun _ => False) (some kernelFile) := by
    intro f hf
    obtain rfl : kernelFile = f := Option.some.inj hf
    refine ⟨by decide, fun _ => ⟨kernelFile_headers, kernelFile_table, ?_⟩⟩
    intro ph hph
    rw [kernelFile_segments, List.mem_singleton] at hph
    exact hph ▸ kernelPhdr_ok
  have hanswered := kernelFile_answered hhhdm
  obtain ⟨frames', hsupply, hlocal⟩ := elfLoad_local hupper.2 hcontained hanswered
    (hspaces.owner (fun _ he => he) hmemA) hload
  have hrun : (Call.elfLoad (some kernelFile) false true (kernelBuffers hhdm)).run hhdm
      (tableBase hhdm procA) fb ((twoProcesses hhdm).mem, freeFrames.map (tableBase hhdm)) =
        some (s'.mem, frames'.map (tableBase hhdm)) := by
    rw [Call.run, hload, Option.map_some]
    exact congrArg (fun supply => some (s'.mem, supply)) hsupply
  refine ⟨⟨s'.mem, frames', [procA, procB]⟩, step_of_run (a := procA) rfl hrun, ?_⟩
  have hunreached : ∀ js, js.length ≤ 3 → Private (fun _ => False) js →
      Radix.walk nextFrame (view hhdm s'.mem) procA js ≠ some procB := by
    intro js hjs _ hwalk
    rcases hlocal.added hjs hwalk with hwalk | hframe
    · exact (hspaces.separate procB hmemB procA hmemA' (by decide)).own [] procB (Nat.zero_le 3)
        nofun rfl ⟨js, hjs, hwalk⟩
    · exact (hspaces.ok procB hmemB').fresh procB hframe (reaches_root _ procB)
  have hsame : ∀ x, InFrame hhdm procB x → s'.mem x = (twoProcesses hhdm).mem x :=
    hlocal.changes procB (.inl ⟨procB, hmemB', reaches_root _ procB⟩) hunreached
  have hkeptB : nextFrame (view hhdm s'.mem procB 256) = some sharedTable := by
    rw [view_agree hsame, hslotB]
  have hkeptA : nextFrame (view hhdm s'.mem procA 256) = some sharedTable := by
    have hwalk : Radix.walk nextFrame (view hhdm (twoProcesses hhdm).mem) procA [256] =
        some sharedTable := by
      rw [Radix.walk, hslotA, Option.bind_some, Radix.walk]
    have hwalk' := hlocal.keeps (by decide) hwalk
    rw [Radix.walk] at hwalk'
    obtain ⟨e, he, heq⟩ := Option.bind_eq_some_iff.mp hwalk'
    rw [he]
    exact heq
  have hbefore : translate hhdm (twoProcesses hhdm).mem (tableBase hhdm procB) 0xffff800000400000 =
      none := by
    have hwalk : Radix.walk nextFrame (view hhdm (twoProcesses hhdm).mem) procB
        (path 0xffff800000400000) = none := by
      rw [path, Radix.walk, hindex, hslotB, Option.bind_some, Radix.walk, hempty, Option.bind_none]
    rw [translate_eq, entryAt, hwalk]
    simp
  rw [hbefore, translate_slot (b := procA) (by rw [hindex, hkeptB, hkeptA]), translate_eq_pagesOf]
  exact hseen

end Example

end Isolation

end Tellurium.Process
