import Tellurium.Memory.Vmm

/-!
Mapping whole ranges (`map_section` and `align_address` of `kernel/memory/vmm.c`). The loop
counts in 64-bit addresses; one that wraps around and never stops has no result. A section
that ends a page below the top of the address space maps one page after the other, and for
each page the last mapping counts.
-/

namespace Tellurium.Vmm

open Tellurium.Lib

section Agree

variable {hhdm : Nat} {m m' : Mem} {root : Frame} {frames : List Frame}

theorem view_agree {e : Frame} (hagree : ∀ x, InFrame hhdm e x → m' x = m x) (j : Fin 512) :
    view hhdm m' e j = view hhdm m e j := by
  have hj := j.isLt
  refine Mem.readN_congr fun x hlo hhi => hagree x ?_
  simp only [InFrame, Span.Has, pageSize]
  omega

/-- Memory that agrees on the tables under `root` shows the same tables. -/
theorem walk_agree (hagree : ∀ e, Radix.Reaches nextFrame (view hhdm m) root 3 e →
    ∀ x, InFrame hhdm e x → m' x = m x) {js : List (Fin 512)} (hjs : js.length ≤ 3) :
    Radix.walk nextFrame (view hhdm m') root js = Radix.walk nextFrame (view hhdm m) root js := by
  refine Radix.walk_congr fun pre j post hsplit c hc => ?_
  have hpre : pre.length ≤ 3 := by
    have hlength := congrArg List.length hsplit
    simp only [List.length_append, List.length_cons] at hlength
    omega
  rw [view_agree (hagree c ⟨pre, hpre, hc⟩)]

theorem reaches_agree (hagree : ∀ e, Radix.Reaches nextFrame (view hhdm m) root 3 e →
    ∀ x, InFrame hhdm e x → m' x = m x) {e : Frame}
    (he : Radix.Reaches nextFrame (view hhdm m') root 3 e) :
    Radix.Reaches nextFrame (view hhdm m) root 3 e := by
  obtain ⟨js, hjs, hwalk⟩ := he
  rw [walk_agree hagree hjs] at hwalk
  exact ⟨js, hjs, hwalk⟩

theorem TablesOk.of_agree (hok : TablesOk hhdm m root frames)
    (hagree : ∀ e, Radix.Reaches nextFrame (view hhdm m) root 3 e →
      ∀ x, InFrame hhdm e x → m' x = m x) : TablesOk hhdm m' root frames := by
  refine ⟨hok.tree.of_walk_eq fun js hjs => walk_agree hagree hjs, hok.nodup, ?_, hok.nonnull⟩
  intro c hc hreach
  exact hok.fresh c hc (reaches_agree hagree hreach)

theorem pagesOf_agree (hagree : ∀ e, Radix.Reaches nextFrame (view hhdm m) root 3 e →
    ∀ x, InFrame hhdm e x → m' x = m x) (p : Nat) :
    pagesOf hhdm m' root p = pagesOf hhdm m root p := by
  have hlen : (path (4096 * p)).length ≤ 3 := Nat.le_refl 3
  have hentry : entryAt hhdm m' root (path (4096 * p)) (index 12 (4096 * p)) =
      entryAt hhdm m root (path (4096 * p)) (index 12 (4096 * p)) := by
    rw [entryAt, entryAt, walk_agree hagree hlen]
    cases hpt : Radix.walk nextFrame (view hhdm m) root (path (4096 * p)) with
    | none => rfl
    | some pt => exact view_agree (hagree pt ⟨_, hlen, hpt⟩) _
  rw [pagesOf, pagesOf, translate_eq, translate_eq, hentry]

/-- With the tables and the frames for new ones among `table`, growing the map writes nowhere else.
The map may grow in memory `m₁` that agrees with `m` on the tables. -/
theorem Grown.kept {P : List (Fin 512) → Prop} {m₁ : Mem} {frames' : List Frame}
    {table : Frame → Prop} (hgrown : Grown hhdm P root m₁ m' frames frames')
    (hagree : ∀ e, Radix.Reaches nextFrame (view hhdm m) root 3 e →
      ∀ x, InFrame hhdm e x → m₁ x = m x)
    (htable : ∀ e, Radix.Reaches nextFrame (view hhdm m) root 3 e ∨ e ∈ frames → table e) :
    (∀ e, Radix.Reaches nextFrame (view hhdm m') root 3 e ∨ e ∈ frames' → table e) ∧
      ∀ x, (∀ e, table e → ¬ InFrame hhdm e x) → m' x = m₁ x := by
  have hreach : ∀ e, Radix.Reaches nextFrame (view hhdm m') root 3 e ∨ e ∈ frames' → table e := by
    rintro e (⟨js, hjs, hwalk⟩ | he)
    · rcases hgrown.added hjs hwalk with hold | ⟨-, he⟩
      · rw [walk_agree hagree hjs] at hold
        exact htable e (.inl ⟨js, hjs, hold⟩)
      · exact htable e (.inr he)
    · exact htable e (.inr (hgrown.suffix.subset he))
  refine ⟨hreach, fun x hx => ?_⟩
  exact hgrown.changes x fun js e hjs _ hwalk => hx e (hreach e (.inl ⟨js, hjs, hwalk⟩))

end Agree

def alignAddress (addr : Nat) (roundUp : Bool) : Nat :=
  let roundedAddr := addr / pageSize * pageSize
  if roundUp && roundedAddr != addr then add64 roundedAddr pageSize else roundedAddr

/-- The loop of `map_section`. The fuel is more than the number of pages. -/
def mapSectionLoop (hhdm pml4Base limit flags : Nat) :
    Nat → Nat → Nat → Mem × List Nat → Option (Mem × List Nat)
  | 0, _, _, _ => none
  | fuel + 1, vaddr, paddr, s =>
      if vaddr < limit then
        (mapPage hhdm s.1 pml4Base vaddr paddr flags s.2).bind
          (mapSectionLoop hhdm pml4Base limit flags fuel (add64 vaddr pageSize)
            (add64 paddr pageSize))
      else some s

def mapSection (hhdm : Nat) (s : Mem × List Nat) (pml4Base vaddrBase paddrBase len flags : Nat) :
    Option (Mem × List Nat) :=
  mapSectionLoop hhdm pml4Base (add64 vaddrBase len) flags (len / pageSize + 2) vaddrBase paddrBase s

/-- How many pages a section of `len` bytes takes from its first page on. -/
def pageCount (len : Nat) : Nat := (len + 4095) / pageSize

/-- What a section makes of the map: a page it covers shows one of its frames, any other page
what it showed before. -/
def Covers (hhdm : Nat) (root : Frame) (m m' : Mem) (vaddr paddr flags count w : Nat) : Prop :=
  (∃ k < count, page (vaddr + 4096 * k) = page w ∧
    pagesOf hhdm m' root (page w) = some ((paddr + 4096 * k) % 2 ^ 64 ||| flags)) ∨
  (∀ k < count, page (vaddr + 4096 * k) ≠ page w) ∧
    pagesOf hhdm m' root (page w) = pagesOf hhdm m root (page w)

section Loop

variable {hhdm : Nat} {root : Frame} {P : List (Fin 512) → Prop} {flags limit : Nat}

theorem mapSectionLoop_grown {fuel vaddr paddr : Nat} {m : Mem} {frames : List Frame}
    {r : Mem × List Nat} (hhhdm : hhdm < 2 ^ 64) (hlimit : limit ≤ 2 ^ 64 - 4096)
    (hflags : flags < 2 ^ 64) (hpresent : flags &&& pmlPresent ≠ 0)
    (hok : TablesOk hhdm m root frames)
    (hP : ∀ k < pageCount (limit - vaddr), ∀ is, is <+: path (vaddr + 4096 * k) → P is)
    (hpaddr : paddr < 2 ^ 64)
    (hret : mapSectionLoop hhdm (tableBase hhdm root) limit flags fuel vaddr paddr
      (m, frames.map (tableBase hhdm)) = some r) :
    ∃ m' frames', r = (m', frames'.map (tableBase hhdm)) ∧
      Grown hhdm P root m m' frames frames' ∧
      ∀ w, Covers hhdm root m m' vaddr paddr flags (pageCount (limit - vaddr)) w := by
  induction fuel generalizing vaddr paddr m frames with
  | zero => cases hret
  | succ fuel ih =>
      rw [mapSectionLoop] at hret
      split_ifs at hret with hlt
      · obtain ⟨s, hmap, hret⟩ := Option.bind_eq_some_iff.mp hret
        have hcount : pageCount (limit - vaddr) = pageCount (limit - (vaddr + 4096)) + 1 := by
          simp only [pageCount, pageSize]
          omega
        have hvaddr : add64 vaddr pageSize = vaddr + 4096 := by
          simp only [add64, pageSize]
          omega
        have hnext : ∀ k, vaddr + 4096 * (k + 1) = vaddr + 4096 + 4096 * k := fun k => by omega
        obtain ⟨m₁, frames₁, rfl, hgrown₁, hentry, -⟩ := mapPage_grown vaddr hhhdm hok
          (hP 0 (by omega)) (Nat.or_lt_two_pow hpaddr hflags) hmap
        rw [hvaddr] at hret
        obtain ⟨m', frames', rfl, hgrown, hcover⟩ := ih hgrown₁.ok
          (fun k hk is his => hP (k + 1) (by omega) is (by rwa [hnext]))
          (Nat.mod_lt _ (by decide)) hret
        refine ⟨m', frames', rfl, hgrown₁.trans hgrown, fun w => ?_⟩
        have hset : (paddr ||| flags) &&& pmlPresent ≠ 0 := by
          rw [Nat.and_or_distrib_right]
          exact fun hzero => hpresent (Nat.or_eq_zero_iff.mp hzero).2
        have hfirst := pagesOf_set hentry w
        rw [if_pos hset] at hfirst
        rw [Covers, hcount]
        rcases hcover w with ⟨k, hk, hpage, hval⟩ | ⟨hnone, hval⟩
        · have hsum : ((paddr + pageSize) % 2 ^ 64 + 4096 * k) % 2 ^ 64 =
              (paddr + 4096 * (k + 1)) % 2 ^ 64 := by
            simp only [pageSize]
            omega
          refine .inl ⟨k + 1, by omega, by rwa [hnext], ?_⟩
          rw [hval, hsum]
        · by_cases hpage : page vaddr = page w
          · refine .inl ⟨0, by omega, hpage, ?_⟩
            rw [hval, hfirst, if_pos hpage, Nat.mul_zero, Nat.add_zero, Nat.mod_eq_of_lt hpaddr]
          · refine .inr ⟨?_, ?_⟩
            · intro k hk
              cases k with
              | zero => exact hpage
              | succ k =>
                  rw [hnext]
                  exact hnone k (by omega)
            · rw [hval, hfirst, if_neg hpage]
      · have hcount : pageCount (limit - vaddr) = 0 := by
          simp only [pageCount, pageSize]
          omega
        refine ⟨m, frames, (Option.some.inj hret).symm, .refl hok, fun w => ?_⟩
        rw [Covers, hcount]
        exact .inr ⟨fun k hk => absurd hk (Nat.not_lt_zero k), rfl⟩

theorem mapSectionLoop_total {fuel vaddr paddr : Nat} {m : Mem} {frames : List Frame}
    (hhhdm : hhdm < 2 ^ 64) (hlimit : limit ≤ 2 ^ 64 - 4096) (hflags : flags < 2 ^ 64)
    (hok : TablesOk hhdm m root frames) (hpaddr : paddr < 2 ^ 64)
    (hfuel : pageCount (limit - vaddr) < fuel)
    (hsupply : 3 * pageCount (limit - vaddr) ≤ frames.length) :
    ∃ m' frames', mapSectionLoop hhdm (tableBase hhdm root) limit flags fuel vaddr paddr
        (m, frames.map (tableBase hhdm)) = some (m', frames'.map (tableBase hhdm)) ∧
      TablesOk hhdm m' root frames' ∧
      frames.length ≤ frames'.length + 3 * pageCount (limit - vaddr) := by
  induction fuel generalizing vaddr paddr m frames with
  | zero => exact absurd hfuel (Nat.not_lt_zero _)
  | succ fuel ih =>
      rw [mapSectionLoop]
      split_ifs with hlt
      · have hcount : pageCount (limit - vaddr) = pageCount (limit - (vaddr + 4096)) + 1 := by
          simp only [pageCount, pageSize]
          omega
        have hvaddr : add64 vaddr pageSize = vaddr + 4096 := by
          simp only [add64, pageSize]
          omega
        obtain ⟨m₁, frames₁, hmap, hok₁, -, hlen⟩ := mapPage_spec vaddr hhhdm hok (by omega)
          (Nat.or_lt_two_pow hpaddr hflags)
        obtain ⟨m', frames', hret, hok', hlen'⟩ := ih hok₁ (Nat.mod_lt (paddr + pageSize) (by decide))
          (show pageCount (limit - (vaddr + 4096)) < fuel by omega) (by omega)
        refine ⟨m', frames', ?_, hok', by omega⟩
        rw [hmap, hvaddr]
        exact hret
      · exact ⟨m, frames, rfl, hok, by omega⟩

end Loop

section Section

variable {hhdm : Nat} {root : Frame} {P : List (Fin 512) → Prop} {m : Mem} {frames : List Frame}
  {vaddrBase paddrBase len flags : Nat}

theorem mapSection_grown {r : Mem × List Nat} (hhhdm : hhdm < 2 ^ 64)
    (hend : vaddrBase + len ≤ 2 ^ 64 - 4096) (hflags : flags < 2 ^ 64)
    (hpresent : flags &&& pmlPresent ≠ 0) (hpaddr : paddrBase < 2 ^ 64)
    (hok : TablesOk hhdm m root frames)
    (hP : ∀ k < pageCount len, ∀ is, is <+: path (vaddrBase + 4096 * k) → P is)
    (hret : mapSection hhdm (m, frames.map (tableBase hhdm)) (tableBase hhdm root) vaddrBase
      paddrBase len flags = some r) :
    ∃ m' frames', r = (m', frames'.map (tableBase hhdm)) ∧
      Grown hhdm P root m m' frames frames' ∧
      ∀ w, Covers hhdm root m m' vaddrBase paddrBase flags (pageCount len) w := by
  have hlimit : add64 vaddrBase len = vaddrBase + len := Nat.mod_eq_of_lt (by omega)
  have hlen : vaddrBase + len - vaddrBase = len := Nat.add_sub_cancel_left ..
  rw [mapSection, hlimit] at hret
  have hgrown := mapSectionLoop_grown hhhdm hend hflags hpresent hok (P := P)
    (by rwa [hlen]) hpaddr hret
  rwa [hlen] at hgrown

theorem mapSection_total (hhhdm : hhdm < 2 ^ 64) (hend : vaddrBase + len ≤ 2 ^ 64 - 4096)
    (hflags : flags < 2 ^ 64) (hpaddr : paddrBase < 2 ^ 64) (hok : TablesOk hhdm m root frames)
    (hsupply : 3 * pageCount len ≤ frames.length) :
    ∃ m' frames', mapSection hhdm (m, frames.map (tableBase hhdm)) (tableBase hhdm root) vaddrBase
        paddrBase len flags = some (m', frames'.map (tableBase hhdm)) ∧
      TablesOk hhdm m' root frames' ∧ frames.length ≤ frames'.length + 3 * pageCount len := by
  have hlimit : add64 vaddrBase len = vaddrBase + len := Nat.mod_eq_of_lt (by omega)
  have hlen : vaddrBase + len - vaddrBase = len := Nat.add_sub_cancel_left ..
  have hfuel : pageCount (vaddrBase + len - vaddrBase) < len / pageSize + 2 := by
    rw [hlen]
    simp only [pageCount, pageSize]
    omega
  have htotal := mapSectionLoop_total hhhdm hend hflags hok hpaddr hfuel (by rwa [hlen])
  rw [hlen] at htotal
  rwa [mapSection, hlimit]

/-- A section of whole pages that reaches the top of the address space maps nothing, since its end
wraps around to zero or beyond. -/
theorem mapSection_wraps {s : Mem × List Nat} {pml4Base : Nat} (hbase : vaddrBase < 2 ^ 64)
    (hlen : len < 2 ^ 64) (hwraps : 2 ^ 64 ≤ vaddrBase + len) :
    mapSection hhdm s pml4Base vaddrBase paddrBase len flags = some s := by
  rw [mapSection, mapSectionLoop, if_neg]
  rw [add64]
  omega

end Section

end Tellurium.Vmm
