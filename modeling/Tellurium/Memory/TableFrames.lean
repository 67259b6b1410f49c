import Tellurium.Memory.Sections
import Mathlib.Data.Finset.Card

/-!
How many frames `map_page` and `map_section` (`kernel/memory/vmm.c`) ask `palloc` for: one for
each table that is missing on the way to the pages, however many pages share it. With one frame
less the source goes on with a null pointer, which has no result.
-/

namespace Tellurium.Vmm

open Tellurium.Lib

/-- The tables below the root on the way to the page of an address. -/
def tablesOn (vaddr : Nat) : Finset (List (Fin 512)) :=
  {[index 39 vaddr], [index 39 vaddr, index 30 vaddr], path vaddr}

/-- Those of `count` pages from an address on. -/
def tablesFor (vaddr : Nat) : Nat → Finset (List (Fin 512))
  | 0 => ∅
  | count + 1 => tablesOn vaddr ∪ tablesFor (vaddr + 4096) count

def missing (hhdm : Nat) (m : Mem) (root : Frame) (T : Finset (List (Fin 512))) :
    Finset (List (Fin 512)) :=
  T.filter fun p => (Radix.walk nextFrame (view hhdm m) root p).isNone

section Missing

variable {hhdm : Nat} {m m' : Mem} {root : Frame} {T T' : Finset (List (Fin 512))}

theorem mem_missing {p : List (Fin 512)} :
    p ∈ missing hhdm m root T ↔ p ∈ T ∧ Radix.walk nextFrame (view hhdm m) root p = none := by
  rw [missing, Finset.mem_filter, Option.isNone_iff_eq_none]

theorem tablesOn_length (vaddr : Nat) : ∀ p ∈ tablesOn vaddr, p.length ≤ 3 := by
  simp [tablesOn, path]

theorem tablesFor_length (vaddr count : Nat) : ∀ p ∈ tablesFor vaddr count, p.length ≤ 3 := by
  induction count generalizing vaddr with
  | zero => simp [tablesFor]
  | succ count ih =>
      intro p hp
      rcases Finset.mem_union.mp hp with hp | hp
      · exact tablesOn_length vaddr p hp
      · exact ih _ p hp

theorem missing_agree (hT : ∀ p ∈ T, p.length ≤ 3)
    (hagree : ∀ e, Radix.Reaches nextFrame (view hhdm m) root 3 e →
      ∀ x, InFrame hhdm e x → m' x = m x) : missing hhdm m' root T = missing hhdm m root T := by
  ext p
  rw [mem_missing, mem_missing]
  exact and_congr_right fun hp => by rw [walk_agree hagree (hT p hp)]

end Missing

/-- The tables of `T` are there now, no other one came up, and each missing one took a frame. -/
structure Allocated (hhdm : Nat) (root : Frame) (T : Finset (List (Fin 512))) (m m' : Mem)
    (frames frames' : List Frame) : Prop where
  absent : ∀ p : List (Fin 512), p.length ≤ 3 →
    (Radix.walk nextFrame (view hhdm m') root p = none ↔
      Radix.walk nextFrame (view hhdm m) root p = none ∧ p ∉ T)
  taken : frames'.length + (missing hhdm m root T).card = frames.length

namespace Allocated

variable {hhdm : Nat} {root : Frame} {T T' : Finset (List (Fin 512))} {m m' m'' : Mem}
  {frames frames' frames'' : List Frame}

theorem refl (hhdm : Nat) (root : Frame) (m : Mem) (frames : List Frame) :
    Allocated hhdm root ∅ m m frames frames :=
  ⟨fun _ _ => by simp, by simp [missing]⟩

/-- What is missing for both is what is missing for one, and for the other after that. -/
theorem card_union (h : Allocated hhdm root T m m' frames frames') (hT' : ∀ p ∈ T', p.length ≤ 3) :
    (missing hhdm m root (T ∪ T')).card =
      (missing hhdm m root T).card + (missing hhdm m' root T').card := by
  rw [← Finset.card_union_of_disjoint]
  · congr 1
    ext p
    simp only [Finset.mem_union, mem_missing]
    constructor
    · rintro ⟨hp | hp, hnone⟩
      · exact Or.inl ⟨hp, hnone⟩
      · by_cases hT : p ∈ T
        · exact Or.inl ⟨hT, hnone⟩
        · exact Or.inr ⟨hp, (h.absent p (hT' p hp)).mpr ⟨hnone, hT⟩⟩
    · rintro (⟨hp, hnone⟩ | ⟨hp, hnone⟩)
      · exact ⟨Or.inl hp, hnone⟩
      · exact ⟨Or.inr hp, ((h.absent p (hT' p hp)).mp hnone).1⟩
  · rw [Finset.disjoint_left]
    intro p hp hp'
    obtain ⟨hin, hnone⟩ := mem_missing.mp hp'
    exact ((h.absent p (hT' p hin)).mp hnone).2 (mem_missing.mp hp).1

theorem trans (h : Allocated hhdm root T m m' frames frames')
    (h' : Allocated hhdm root T' m' m'' frames' frames'') (hT' : ∀ p ∈ T', p.length ≤ 3) :
    Allocated hhdm root (T ∪ T') m m'' frames frames'' := by
  refine ⟨fun p hp => ?_, ?_⟩
  · rw [h'.absent p hp, h.absent p hp, Finset.mem_union, not_or, and_assoc]
  · rw [h.card_union hT']
    have h₁ := h.taken
    have h₂ := h'.taken
    omega

end Allocated

/-- A call that puts the tables of `T` in place takes a frame for each missing one, and has no
result when there are fewer frames. -/
def Takes {X : Type} (hhdm : Nat) (root : Frame) (T : Finset (List (Fin 512))) (m : Mem)
    (frames : List Frame) (state : X → Mem × List Nat) (Q : X → Prop) : Option X → Prop
  | none => frames.length < (missing hhdm m root T).card
  | some x => ∃ m' frames', state x = (m', frames'.map (tableBase hhdm)) ∧ Q x ∧
      Allocated hhdm root T m m' frames frames' ∧ TablesOk hhdm m' root frames'

section Takes

variable {X Y : Type} {hhdm : Nat} {root : Frame} {T T' : Finset (List (Fin 512))} {m : Mem}
  {frames : List Frame} {state : X → Mem × List Nat} {state' : Y → Mem × List Nat} {Q : X → Prop}
  {Q' : Y → Prop} {a : Option X} {f : X → Option Y}

theorem Takes.bind (ha : Takes hhdm root T m frames state Q a) (hT' : ∀ p ∈ T', p.length ≤ 3)
    (hf : ∀ x m' frames', state x = (m', frames'.map (tableBase hhdm)) → Q x →
      TablesOk hhdm m' root frames' → Takes hhdm root T' m' frames' state' Q' (f x)) :
    Takes hhdm root (T ∪ T') m frames state' Q' (a.bind f) := by
  cases a with
  | none =>
      have hmono : missing hhdm m root T ⊆ missing hhdm m root (T ∪ T') :=
        Finset.filter_subset_filter _ Finset.subset_union_left
      exact Nat.lt_of_lt_of_le ha (Finset.card_le_card hmono)
  | some x =>
      obtain ⟨m', frames', hstate, hQ, halloc, hok⟩ := ha
      have hnext := hf x m' frames' hstate hQ hok
      rw [Option.bind_some]
      cases hy : f x with
      | none =>
          rw [hy] at hnext
          have hshort : frames'.length < (missing hhdm m' root T').card := hnext
          have htaken := halloc.taken
          rw [Takes, halloc.card_union hT']
          omega
      | some y =>
          rw [hy] at hnext
          obtain ⟨m'', frames'', hstate', hQ', halloc', hok'⟩ := hnext
          exact ⟨m'', frames'', hstate', hQ', halloc.trans halloc' hT', hok'⟩

theorem Takes.isSome_iff (ha : Takes hhdm root T m frames state Q a) :
    a.isSome ↔ (missing hhdm m root T).card ≤ frames.length := by
  cases a with
  | none => exact iff_of_false nofun (Nat.not_le.mpr ha)
  | some x =>
      obtain ⟨m', frames', -, -, halloc, -⟩ := ha
      have htaken := halloc.taken
      exact iff_of_true rfl (by omega)

end Takes

section Operations

variable {hhdm : Nat} {m : Mem} {root f : Frame} {frames : List Frame}

/-- One level of `map_page` takes a frame if its table is missing. -/
theorem getOrAllocateMap_takes (is : List (Fin 512)) (i : Fin 512) (hhhdm : hhdm < 2 ^ 64)
    (hok : TablesOk hhdm m root frames) (hf : Radix.walk nextFrame (view hhdm m) root is = some f)
    (hlen : is.length < 3) :
    Takes hhdm root {is ++ [i]} m frames Prod.snd
      (fun r => ∃ g, r.1 = tableBase hhdm g ∧
        Radix.walk nextFrame (view hhdm r.2.1) root (is ++ [i]) = some g)
      (getOrAllocateMap hhdm m (tableBase hhdm f) i (frames.map (tableBase hhdm))) := by
  have hget := getNextPageMap_eq hhdm m f i
  have hwalk : Radix.walk nextFrame (view hhdm m) root (is ++ [i]) = nextFrame (view hhdm m f i) := by
    rw [Radix.walk_concat, hf, Option.bind_some]
  have hcount : (missing hhdm m root {is ++ [i]}).card =
      if nextFrame (view hhdm m f i) = none then 1 else 0 := by
    rw [missing, Finset.filter_singleton, hwalk]
    cases nextFrame (view hhdm m f i) with
    | none => rfl
    | some g => rfl
  cases hret : getOrAllocateMap hhdm m (tableBase hhdm f) i (frames.map (tableBase hhdm)) with
  | none =>
      rw [Takes, hcount]
      cases frames with
      | cons c rest =>
          obtain ⟨r, hr⟩ := getOrAllocateMap_total (f := f) (i := i) (List.cons_ne_nil c rest) hok
          rw [hret] at hr
          cases hr
      | nil =>
          cases hnext : nextFrame (view hhdm m f i) with
          | none => exact Nat.zero_lt_one
          | some g =>
              rw [hnext, Option.map_some] at hget
              simp only [getOrAllocateMap, hget] at hret
              cases hret
  | some r =>
      obtain ⟨g, m', frames', rfl, hgrown, hnew, -, -⟩ := getOrAllocateMap_spec
        (P := fun js => js = is ∨ js = is ++ [i]) is i hhhdm hok hf hlen (Or.inl rfl) (Or.inr rfl) hret
      refine ⟨m', frames', rfl, ⟨g, rfl, hnew⟩, ⟨fun p hp => ?_, ?_⟩, hgrown.ok⟩
      · rw [Finset.mem_singleton]
        constructor
        · intro hnone
          refine ⟨Option.eq_none_iff_forall_ne_some.mpr fun e he => ?_, ?_⟩
          · rw [hgrown.keeps hp he] at hnone
            cases hnone
          · rintro rfl
            rw [hnew] at hnone
            cases hnone
        · rintro ⟨hnone, hne⟩
          refine Option.eq_none_iff_forall_ne_some.mpr fun e he => ?_
          rcases hgrown.added hp he with hold | ⟨rfl | rfl, -⟩
          · rw [hnone] at hold
            cases hold
          · rw [hf] at hnone
            cases hnone
          · exact hne rfl
      · rw [hcount]
        cases hnext : nextFrame (view hhdm m f i) with
        | some e =>
            rw [hnext, Option.map_some] at hget
            simp only [getOrAllocateMap, hget, Option.some.injEq, Prod.mk.injEq] at hret
            have hlength := congrArg List.length hret.2.2
            rw [List.length_map, List.length_map] at hlength
            simp [hlength]
        | none =>
            rw [hnext, Option.map_none] at hget
            cases frames with
            | nil =>
                simp only [getOrAllocateMap, hget, List.map_nil] at hret
                cases hret
            | cons c rest =>
                simp only [getOrAllocateMap, hget, List.map_cons, allocateMap,
                  hok.nonnull c List.mem_cons_self, if_false, Option.map_some, Option.some.injEq,
                  Prod.mk.injEq] at hret
                have hlength := congrArg List.length hret.2.2
                rw [List.length_map, List.length_map] at hlength
                rw [if_pos rfl, List.length_cons, hlength]

theorem tablesOn_eq (vaddr : Nat) : tablesOn vaddr =
    {[] ++ [index 39 vaddr]} ∪ ({[index 39 vaddr] ++ [index 30 vaddr]} ∪
      ({[index 39 vaddr, index 30 vaddr] ++ [index 21 vaddr]} ∪ ∅)) := by
  rw [Finset.union_empty]
  rfl

theorem mapPage_takes (vaddr : Nat) {paddr flags : Nat} (hhhdm : hhdm < 2 ^ 64)
    (hvalue : paddr ||| flags < 2 ^ 64) (hok : TablesOk hhdm m root frames) :
    Takes hhdm root (tablesOn vaddr) m frames id (fun _ => True)
      (mapPage hhdm m (tableBase hhdm root) vaddr paddr flags (frames.map (tableBase hhdm))) := by
  rw [tablesOn_eq]
  refine (getOrAllocateMap_takes [] (index 39 vaddr) hhhdm hok rfl (by simp)).bind (by simp) ?_
  rintro r₁ m₁ frames₁ hstate₁ ⟨pdpt, hpdpt, hwalk₁⟩ hok₁
  obtain ⟨base₁, m₁', supply₁⟩ := r₁
  obtain ⟨rfl, rfl⟩ := Prod.mk.inj hstate₁
  obtain rfl := hpdpt
  refine (getOrAllocateMap_takes _ (index 30 vaddr) hhhdm hok₁ hwalk₁ (by simp)).bind (by simp) ?_
  rintro r₂ m₂ frames₂ hstate₂ ⟨pd, hpd, hwalk₂⟩ hok₂
  obtain ⟨base₂, m₂', supply₂⟩ := r₂
  obtain ⟨rfl, rfl⟩ := Prod.mk.inj hstate₂
  obtain rfl := hpd
  refine (getOrAllocateMap_takes _ (index 21 vaddr) hhhdm hok₂ hwalk₂ (by simp)).bind (by simp) ?_
  rintro r₃ m₃ frames₃ hstate₃ ⟨pt, hpt, hwalk₃⟩ hok₃
  obtain ⟨base₃, m₃', supply₃⟩ := r₃
  obtain ⟨rfl, rfl⟩ := Prod.mk.inj hstate₃
  obtain rfl := hpt
  -- The last store is into a page table, so no walk changes.
  obtain ⟨hgrown, -⟩ := write_bottom_spec (P := fun js => js = path vaddr) (index 12 vaddr)
    (paddr ||| flags) hok₃ hwalk₃ rfl rfl hvalue
  refine ⟨_, frames₃, rfl, trivial, ⟨fun p hp => ?_, by simp [missing]⟩, hgrown.ok⟩
  simp only [Finset.notMem_empty, not_false_eq_true, and_true]
  constructor
  · intro hnone
    refine Option.eq_none_iff_forall_ne_some.mpr fun e he => ?_
    exact absurd ((hgrown.keeps hp he).symm.trans hnone) nofun
  · intro hnone
    refine Option.eq_none_iff_forall_ne_some.mpr fun e he => ?_
    rcases hgrown.added hp he with hold | ⟨rfl, -⟩
    · exact absurd (hold.symm.trans hnone) nofun
    · exact absurd (hwalk₃.symm.trans hnone) nofun

theorem mapSectionLoop_takes {fuel vaddr paddr limit flags : Nat} (hhhdm : hhdm < 2 ^ 64)
    (hlimit : limit ≤ 2 ^ 64 - 4096) (hflags : flags < 2 ^ 64) (hpaddr : paddr < 2 ^ 64)
    (hfuel : pageCount (limit - vaddr) < fuel) (hok : TablesOk hhdm m root frames) :
    Takes hhdm root (tablesFor vaddr (pageCount (limit - vaddr))) m frames id (fun _ => True)
      (mapSectionLoop hhdm (tableBase hhdm root) limit flags fuel vaddr paddr
        (m, frames.map (tableBase hhdm))) := by
  induction fuel generalizing vaddr paddr m frames with
  | zero => exact absurd hfuel (Nat.not_lt_zero _)
  | succ fuel ih =>
      rw [mapSectionLoop]
      split_ifs with hlt
      · have hcount : pageCount (limit - vaddr) = pageCount (limit - (vaddr + 4096)) + 1 := by
          simp only [pageCount, pageSize]
          omega
        have hvaddr : add64 vaddr pageSize = vaddr + 4096 := by
          simp only [add64, pageSize]
          omega
        rw [hcount, tablesFor, hvaddr]
        refine (mapPage_takes vaddr hhhdm (Nat.or_lt_two_pow hpaddr hflags) hok).bind
          (tablesFor_length _ _) ?_
        rintro s m' frames' rfl - hok'
        exact ih (Nat.mod_lt _ (by decide)) (by omega) hok'
      · have hcount : pageCount (limit - vaddr) = 0 := by
          simp only [pageCount, pageSize]
          omega
        rw [hcount]
        exact ⟨m, frames, rfl, trivial, .refl hhdm root m frames, hok⟩

/-- A section is mapped exactly if there is a frame for each table that is missing. -/
theorem mapSection_isSome_iff {vaddrBase paddrBase len flags : Nat} (hhhdm : hhdm < 2 ^ 64)
    (hend : vaddrBase + len ≤ 2 ^ 64 - 4096) (hflags : flags < 2 ^ 64) (hpaddr : paddrBase < 2 ^ 64)
    (hok : TablesOk hhdm m root frames) :
    (mapSection hhdm (m, frames.map (tableBase hhdm)) (tableBase hhdm root) vaddrBase paddrBase len
        flags).isSome ↔
      (missing hhdm m root (tablesFor vaddrBase (pageCount len))).card ≤ frames.length := by
  have hlimit : add64 vaddrBase len = vaddrBase + len := Nat.mod_eq_of_lt (by omega)
  have hlen : vaddrBase + len - vaddrBase = len := Nat.add_sub_cancel_left ..
  have hfuel : pageCount (vaddrBase + len - vaddrBase) < len / pageSize + 2 := by
    rw [hlen]
    simp only [pageCount, pageSize]
    omega
  have htakes := mapSectionLoop_takes hhhdm hend hflags hpaddr hfuel hok
  rw [hlen] at htakes
  rw [mapSection, hlimit]
  exact htakes.isSome_iff

end Operations

end Tellurium.Vmm
