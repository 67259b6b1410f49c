import Tellurium.Memory.Sections

/-!
Address spaces and what they share. Every process starts with a copy of the kernel's PML4, so all
page maps lead to the same tables through the slots that the kernel uses. A call for one process
is local if it grows that process's own tables and writes no other: then no other page map
changes.
-/

namespace Tellurium.Process

open Tellurium.Lib Tellurium.Vmm

/-- A path that does not start in a shared slot of the PML4. -/
def Private (shared : Fin 512 → Prop) (js : List (Fin 512)) : Prop := ∀ i ∈ js.head?, ¬ shared i

/-- Tables of `a` were added and changed, but only along its private paths, and nothing else that
is or becomes a table. -/
structure Local (hhdm : Nat) (shared : Fin 512 → Prop) (table : Frame → Prop) (a : Frame)
    (m m' : Mem) (frames frames' : List Frame) : Prop where
  ok : TablesOk hhdm m' a frames'
  suffix : frames' <:+ frames
  tables : ∀ e, Radix.Reaches nextFrame (view hhdm m') a 3 e → table e
  keeps : ∀ {js e}, js.length ≤ 3 → Radix.walk nextFrame (view hhdm m) a js = some e →
    Radix.walk nextFrame (view hhdm m') a js = some e
  added : ∀ {js e}, js.length ≤ 3 → Radix.walk nextFrame (view hhdm m') a js = some e →
    Radix.walk nextFrame (view hhdm m) a js = some e ∨ e ∈ frames
  changes : ∀ e, table e → (∀ js, js.length ≤ 3 → Private shared js →
      Radix.walk nextFrame (view hhdm m') a js ≠ some e) →
    ∀ x, InFrame hhdm e x → m' x = m x

/-- The tables under `a` and the frames to come are all in `table`. -/
structure Owner (hhdm : Nat) (table : Frame → Prop) (a : Frame) (m : Mem) (frames : List Frame) :
    Prop where
  ok : TablesOk hhdm m a frames
  tables : ∀ e, Radix.Reaches nextFrame (view hhdm m) a 3 e ∨ e ∈ frames → table e

section Local

variable {hhdm : Nat} {shared : Fin 512 → Prop} {table : Frame → Prop} {a r : Frame}
  {m m' m'' : Mem} {frames frames' frames'' : List Frame}

theorem inFrame_unique {e e' : Frame} {x : Nat} (he : InFrame hhdm e x) (he' : InFrame hhdm e' x) :
    e = e' := by
  by_contra hne
  have hsep := tableBase_separated hhdm hne
  simp only [InFrame, Span.Has] at he he'
  omega

theorem tableBase_injective (hhdm : Nat) : Function.Injective (tableBase hhdm) := by
  intro e e' heq
  have hin : ∀ f, InFrame hhdm f (tableBase hhdm f) := fun f => ⟨Nat.le_refl _, by simp [pageSize]⟩
  exact inFrame_unique (hin e) (heq ▸ hin e')

namespace Local

theorem trans (h₁ : Local hhdm shared table a m m' frames frames')
    (h₂ : Local hhdm shared table a m' m'' frames' frames'') :
    Local hhdm shared table a m m'' frames frames'' := by
  refine ⟨h₂.ok, h₂.suffix.trans h₁.suffix, h₂.tables,
    fun hjs hwalk => h₂.keeps hjs (h₁.keeps hjs hwalk), ?_, ?_⟩
  · intro js e hjs hwalk
    rcases h₂.added hjs hwalk with hwalk | he
    · exact h₁.added hjs hwalk
    · exact .inr (h₁.suffix.subset he)
  · intro e he hnone x hx
    rw [h₂.changes e he hnone x hx]
    exact h₁.changes e he (fun js hjs hprivate hwalk => hnone js hjs hprivate (h₂.keeps hjs hwalk)) x hx

theorem owner (h : Local hhdm shared table a m m' frames frames')
    (howner : Owner hhdm table a m frames) : Owner hhdm table a m' frames' := by
  refine ⟨h.ok, fun e he => ?_⟩
  rcases he with he | he
  · exact h.tables e he
  · exact howner.tables e (.inr (h.suffix.subset he))

theorem of_grown (h : Grown hhdm (Private shared) a m m' frames frames')
    (howner : Owner hhdm table a m frames) : Local hhdm shared table a m m' frames frames' := by
  refine ⟨h.ok, h.suffix, ?_, h.keeps, ?_, ?_⟩
  · rintro e ⟨js, hjs, hwalk⟩
    rcases h.added hjs hwalk with hwalk | ⟨-, he⟩
    · exact howner.tables e (.inl ⟨js, hjs, hwalk⟩)
    · exact howner.tables e (.inr he)
  · intro js e hjs hwalk
    exact (h.added hjs hwalk).imp_right And.right
  · intro e he hnone x hx
    refine h.changes x fun js e' hjs hprivate hwalk hx' => ?_
    rw [inFrame_unique hx' hx] at hwalk
    exact hnone js hjs hprivate hwalk

/-- Writes beside all tables. -/
theorem of_agree (howner : Owner hhdm table a m frames)
    (hagree : ∀ e, table e → ∀ x, InFrame hhdm e x → m' x = m x) :
    Local hhdm shared table a m m' frames frames := by
  have hown := fun e he => hagree e (howner.tables e (.inl he))
  refine ⟨howner.ok.of_agree hown, List.suffix_refl _, ?_, ?_, ?_, fun e he _ => hagree e he⟩
  · rintro e ⟨js, hjs, hwalk⟩
    rw [walk_agree hown hjs] at hwalk
    exact howner.tables e (.inl ⟨js, hjs, hwalk⟩)
  · intro js e hjs hwalk
    rwa [walk_agree hown hjs]
  · intro js e hjs hwalk
    rw [walk_agree hown hjs] at hwalk
    exact .inl hwalk

theorem refl (howner : Owner hhdm table a m frames) :
    Local hhdm shared table a m m frames frames :=
  of_agree howner fun _ _ _ _ => rfl

end Local

theorem Owner.of_agree (howner : Owner hhdm table a m frames)
    (hagree : ∀ e, table e → ∀ x, InFrame hhdm e x → m' x = m x) : Owner hhdm table a m' frames :=
  have hlocal : Local hhdm (fun _ => True) table a m m' frames frames := .of_agree howner hagree
  hlocal.owner howner

/-- No table that `a` reaches along a private path, and no frame to come, is reached from `r`. -/
structure Separate (hhdm : Nat) (shared : Fin 512 → Prop) (m : Mem) (frames : List Frame)
    (a r : Frame) : Prop where
  fresh : ∀ c ∈ frames, ¬ Radix.Reaches nextFrame (view hhdm m) r 3 c
  own : ∀ js e, js.length ≤ 3 → Private shared js →
    Radix.walk nextFrame (view hhdm m) a js = some e → ¬ Radix.Reaches nextFrame (view hhdm m) r 3 e

/-- What a local step of `a` leaves alone. -/
theorem Local.agree (h : Local hhdm shared table a m m' frames frames')
    (hsep : Separate hhdm shared m frames a r)
    (htables : ∀ e, Radix.Reaches nextFrame (view hhdm m) r 3 e → table e) :
    ∀ e, Radix.Reaches nextFrame (view hhdm m) r 3 e → ∀ x, InFrame hhdm e x → m' x = m x := by
  intro e he
  refine h.changes e (htables e he) fun js hjs hprivate hwalk => ?_
  rcases h.added hjs hwalk with hwalk | hframe
  · exact hsep.own js e hjs hprivate hwalk he
  · exact hsep.fresh e hframe he

end Local

/-- The memory, the frames that `palloc` will answer, and the PML4s of the processes. -/
structure System where
  mem : Mem
  frames : List Frame
  procs : List Frame

/-- The slots that the kernel uses. -/
def Shared (hhdm : Nat) (kernel : Frame) (m : Mem) (i : Fin 512) : Prop :=
  nextFrame (view hhdm m kernel i) ≠ none

/-- The frames that are tables of some page map, or will become some. -/
def IsTable (hhdm : Nat) (kernel : Frame) (s : System) (e : Frame) : Prop :=
  (∃ r ∈ kernel :: s.procs, Radix.Reaches nextFrame (view hhdm s.mem) r 3 e) ∨ e ∈ s.frames

/-- The page maps share nothing but what the kernel's page map reaches. -/
structure Spaces (hhdm : Nat) (kernel : Frame) (s : System) : Prop where
  ok : ∀ r ∈ kernel :: s.procs, TablesOk hhdm s.mem r s.frames
  lower : ∀ i : Fin 512, i.val < 256 → ¬ Shared hhdm kernel s.mem i
  nodup : (kernel :: s.procs).Nodup
  separate : ∀ a ∈ s.procs, ∀ r ∈ kernel :: s.procs, r ≠ a →
    Separate hhdm (Shared hhdm kernel s.mem) s.mem s.frames a r

section Spaces

variable {hhdm : Nat} {kernel a r : Frame} {m m' : Mem} {frames frames' procs : List Frame}

theorem reaches_agree (hagree : ∀ e, Radix.Reaches nextFrame (view hhdm m) r 3 e →
    ∀ x, InFrame hhdm e x → m' x = m x) {e : Frame} :
    Radix.Reaches nextFrame (view hhdm m') r 3 e ↔ Radix.Reaches nextFrame (view hhdm m) r 3 e := by
  refine exists_congr fun js => and_congr_right fun hjs => ?_
  rw [walk_agree hagree hjs]

theorem tablesOk_suffix (h : TablesOk hhdm m r frames) (hsuffix : frames' <:+ frames) :
    TablesOk hhdm m r frames' :=
  ⟨h.tree, h.nodup.sublist hsuffix.sublist, fun c hc => h.fresh c (hsuffix.subset hc),
    fun c hc => h.nonnull c (hsuffix.subset hc)⟩

theorem shared_agree (hagree : ∀ x, InFrame hhdm kernel x → m' x = m x) :
    Shared hhdm kernel m' = Shared hhdm kernel m := by
  funext i
  rw [Shared, Shared, view_agree hagree]

theorem reaches_root (m : Mem) (r : Frame) : Radix.Reaches nextFrame (view hhdm m) r 3 r :=
  ⟨[], Nat.zero_le 3, rfl⟩

theorem Spaces.owner {table : Frame → Prop} (h : Spaces hhdm kernel ⟨m, frames, procs⟩)
    (htable : ∀ e, IsTable hhdm kernel ⟨m, frames, procs⟩ e → table e) (ha : a ∈ procs) :
    Owner hhdm table a m frames := by
  have ha' : a ∈ kernel :: procs := List.mem_cons_of_mem _ ha
  exact ⟨h.ok a ha', fun e he => htable e (he.imp_left fun hreach => ⟨a, ha', hreach⟩)⟩

/-- A local step of one process keeps the page maps separate and changes no other. -/
theorem Spaces.local_step {table : Frame → Prop} (h : Spaces hhdm kernel ⟨m, frames, procs⟩)
    (htable : ∀ e, IsTable hhdm kernel ⟨m, frames, procs⟩ e → table e) (ha : a ∈ procs)
    (hlocal : Local hhdm (Shared hhdm kernel m) table a m m' frames frames') :
    Spaces hhdm kernel ⟨m', frames', procs⟩ ∧
    ∀ r ∈ kernel :: procs, r ≠ a → ∀ p, pagesOf hhdm m' r p = pagesOf hhdm m r p := by
  have hagree : ∀ r ∈ kernel :: procs, r ≠ a →
      ∀ e, Radix.Reaches nextFrame (view hhdm m) r 3 e → ∀ x, InFrame hhdm e x → m' x = m x :=
    fun r hr hne => hlocal.agree (h.separate a ha r hr hne) fun e he => htable e (.inl ⟨r, hr, he⟩)
  have hkernel : kernel ≠ a := fun heq => (List.nodup_cons.mp h.nodup).1 (heq ▸ ha)
  have hshared := shared_agree (hagree kernel List.mem_cons_self hkernel kernel (reaches_root m kernel))
  refine ⟨⟨?_, ?_, h.nodup, ?_⟩, fun r hr hne => pagesOf_agree (hagree r hr hne)⟩
  · intro r hr
    by_cases hne : r = a
    · exact hne ▸ hlocal.ok
    · exact tablesOk_suffix ((h.ok r hr).of_agree (hagree r hr hne)) hlocal.suffix
  · intro i hi
    rw [hshared]
    exact h.lower i hi
  · intro a' ha' r hr hne
    rw [hshared]
    have hsep := h.separate a' ha' r hr hne
    by_cases hra : r = a
    · subst hra
      have hwalk := @walk_agree _ _ _ _ (hagree a' (List.mem_cons_of_mem _ ha') hne.symm)
      refine ⟨fun c hc => hlocal.ok.fresh c hc, ?_⟩
      rintro js e hjs hprivate hjse ⟨ks, hks, hkse⟩
      rw [hwalk hjs] at hjse
      rcases hlocal.added hks hkse with hkse | he
      · exact hsep.own js e hjs hprivate hjse ⟨ks, hks, hkse⟩
      · exact (h.ok a' (List.mem_cons_of_mem _ ha')).fresh e he ⟨js, hjs, hjse⟩
    · have hreaches := @reaches_agree _ _ _ _ (hagree r hr hra)
      refine ⟨fun c hc hreach => hsep.fresh c (hlocal.suffix.subset hc) (hreaches.mp hreach), ?_⟩
      intro js e hjs hprivate hjse hreach
      by_cases haa : a' = a
      · subst haa
        rcases hlocal.added hjs hjse with hjse | he
        · exact hsep.own js e hjs hprivate hjse (hreaches.mp hreach)
        · exact hsep.fresh e he (hreaches.mp hreach)
      · rw [walk_agree (hagree a' (List.mem_cons_of_mem _ ha') haa) hjs] at hjse
        exact hsep.own js e hjs hprivate hjse (hreaches.mp hreach)

section NewProcess

variable {n : Frame}

theorem memcpy_frame_out {e : Frame} (hne : e ≠ n) {x : Nat} (hx : InFrame hhdm e x) :
    m.memcpy (tableBase hhdm n) (tableBase hhdm kernel) pageSize x = m x := by
  have hsep := tableBase_separated hhdm hne
  simp only [InFrame, Span.Has, pageSize] at hx
  exact Mem.memcpy_out _ (by simp only [pageSize] at hsep ⊢; omega)

theorem view_memcpy_frame (m : Mem) (hne : kernel ≠ n) (i : Fin 512) :
    view hhdm (m.memcpy (tableBase hhdm n) (tableBase hhdm kernel) pageSize) n i =
      view hhdm m kernel i := by
  have hsep := tableBase_separated hhdm hne
  have hi := i.isLt
  refine Mem.readN_shift fun k hk => ?_
  rw [Nat.add_assoc, Nat.add_assoc]
  exact Mem.memcpy_in m (by simp only [pageSize] at hsep ⊢; omega) (by simp only [pageSize]; omega)

/-- A copy of the kernel's PML4 leads where the kernel's leads. -/
theorem walk_copy (hcopy : ∀ i, view hhdm m' n i = view hhdm m' kernel i) (i : Fin 512)
    (is : List (Fin 512)) :
    Radix.walk nextFrame (view hhdm m') n (i :: is) =
      Radix.walk nextFrame (view hhdm m') kernel (i :: is) := by
  rw [Radix.walk, Radix.walk, hcopy]

/-- The PML4 of a new process at `n`: a copy of the kernel's, written beside all tables. -/
structure Copied (hhdm : Nat) (kernel n : Frame) (m m' : Mem) (procs : List Frame) : Prop where
  unreached : ∀ r ∈ kernel :: procs, ¬ Radix.Reaches nextFrame (view hhdm m) r 3 n
  agree : ∀ r ∈ kernel :: procs, ∀ e, Radix.Reaches nextFrame (view hhdm m) r 3 e →
    ∀ x, InFrame hhdm e x → m' x = m x
  copy : ∀ i, view hhdm m' n i = view hhdm m' kernel i

theorem copied_memcpy
    (hunreached : ∀ r ∈ kernel :: procs, ¬ Radix.Reaches nextFrame (view hhdm m) r 3 n) :
    Copied hhdm kernel n m (m.memcpy (tableBase hhdm n) (tableBase hhdm kernel) pageSize) procs := by
  have hagree : ∀ r ∈ kernel :: procs, ∀ e, Radix.Reaches nextFrame (view hhdm m) r 3 e →
      ∀ x, InFrame hhdm e x →
        m.memcpy (tableBase hhdm n) (tableBase hhdm kernel) pageSize x = m x := by
    intro r hr e he x hx
    have hne : e ≠ n := fun heq => hunreached r hr (heq ▸ he)
    exact memcpy_frame_out hne hx
  have hkernel : kernel ∈ kernel :: procs := List.mem_cons_self
  have hne : kernel ≠ n := fun heq => hunreached kernel hkernel (heq ▸ reaches_root m kernel)
  refine ⟨hunreached, hagree, fun i => ?_⟩
  rw [view_agree (hagree kernel hkernel kernel (reaches_root m kernel))]
  exact view_memcpy_frame m hne i

namespace Copied

/-- The copy reaches itself and what the kernel's page map reaches. -/
theorem walk_new (h : Copied hhdm kernel n m m' procs) {js : List (Fin 512)} {e : Frame}
    (hjs : js.length ≤ 3) (hjse : Radix.walk nextFrame (view hhdm m') n js = some e) :
    js = [] ∧ e = n ∨ Radix.walk nextFrame (view hhdm m) kernel js = some e := by
  cases js with
  | nil => exact .inl ⟨rfl, (Option.some.inj hjse).symm⟩
  | cons i is =>
      rw [walk_copy h.copy, walk_agree (h.agree kernel List.mem_cons_self) hjs] at hjse
      exact .inr hjse

theorem fresh_new (h : Copied hhdm kernel n m m' procs) (hok : TablesOk hhdm m kernel frames)
    (hn : n ∉ frames) : ∀ c ∈ frames, ¬ Radix.Reaches nextFrame (view hhdm m') n 3 c := by
  rintro c hc ⟨js, hjs, hjsc⟩
  rcases h.walk_new hjs hjsc with ⟨-, heq⟩ | hjsc
  · exact hn (heq ▸ hc)
  · exact hok.fresh c hc ⟨js, hjs, hjsc⟩

theorem tablesOk_new (h : Copied hhdm kernel n m m' procs) (hok : TablesOk hhdm m kernel frames)
    (hn : n ∉ frames) : TablesOk hhdm m' n frames := by
  have hkernel := h.unreached kernel List.mem_cons_self
  refine ⟨?_, hok.nodup, h.fresh_new hok hn, hok.nonnull⟩
  intro is js e his hjs hise hjse
  rcases h.walk_new his hise with ⟨hnil, heq⟩ | hise
  · rcases h.walk_new hjs hjse with ⟨hnil', -⟩ | hjse
    · rw [hnil, hnil']
    · exact absurd ⟨js, hjs, heq ▸ hjse⟩ hkernel
  · rcases h.walk_new hjs hjse with ⟨-, heq⟩ | hjse
    · exact absurd ⟨is, his, heq ▸ hise⟩ hkernel
    · exact hok.tree is js e his hjs hise hjse

/-- The new tables are the old ones and the copy. -/
theorem isTable (h : Copied hhdm kernel n m m' procs) {e : Frame}
    (he : IsTable hhdm kernel ⟨m', frames, procs ++ [n]⟩ e) :
    IsTable hhdm kernel ⟨m, frames, procs⟩ e ∨ e = n := by
  rcases he with ⟨r, hr, hreach⟩ | he
  · rw [← List.cons_append, List.mem_append, List.mem_singleton] at hr
    rcases hr with hr | rfl
    · exact .inl (.inl ⟨r, hr, (reaches_agree (h.agree r hr)).mp hreach⟩)
    · obtain ⟨js, hjs, hjse⟩ := hreach
      rcases h.walk_new hjs hjse with ⟨-, heq⟩ | hjse
      · exact .inr heq
      · exact .inl (.inl ⟨kernel, List.mem_cons_self, js, hjs, hjse⟩)
  · exact .inl (.inr he)

theorem shared_eq (h : Copied hhdm kernel n m m' procs) :
    Shared hhdm kernel m' = Shared hhdm kernel m :=
  shared_agree (h.agree kernel List.mem_cons_self kernel (reaches_root m kernel))

variable {shared : Fin 512 → Prop}

theorem separate_old (h : Copied hhdm kernel n m m' procs) (ha : a ∈ procs)
    (hr : r ∈ kernel :: procs) (hsep : Separate hhdm shared m frames a r) :
    Separate hhdm shared m' frames a r := by
  have hreaches := @reaches_agree _ _ _ _ (h.agree r hr)
  refine ⟨fun c hc hreach => hsep.fresh c hc (hreaches.mp hreach), ?_⟩
  intro js e hjs hprivate hjse hreach
  rw [walk_agree (h.agree a (List.mem_cons_of_mem _ ha)) hjs] at hjse
  exact hsep.own js e hjs hprivate hjse (hreaches.mp hreach)

theorem separate_from_new (h : Copied hhdm kernel n m m' procs) (ha : a ∈ procs)
    (hok : TablesOk hhdm m kernel frames) (hn : n ∉ frames)
    (hsep : Separate hhdm shared m frames a kernel) : Separate hhdm shared m' frames a n := by
  have ha' : a ∈ kernel :: procs := List.mem_cons_of_mem _ ha
  refine ⟨h.fresh_new hok hn, ?_⟩
  rintro js e hjs hprivate hjse ⟨ks, hks, hkse⟩
  rw [walk_agree (h.agree a ha') hjs] at hjse
  rcases h.walk_new hks hkse with ⟨-, heq⟩ | hkse
  · exact h.unreached a ha' ⟨js, hjs, heq ▸ hjse⟩
  · exact hsep.own js e hjs hprivate hjse ⟨ks, hks, hkse⟩

theorem separate_new (h : Copied hhdm kernel n m m' procs) (hr : r ∈ kernel :: procs)
    (hok : TablesOk hhdm m r frames) :
    Separate hhdm (Shared hhdm kernel m) m' frames n r := by
  have hreaches := @reaches_agree _ _ _ _ (h.agree r hr)
  refine ⟨fun c hc hreach => hok.fresh c hc (hreaches.mp hreach), ?_⟩
  intro js e hjs hprivate hjse hreach
  cases js with
  | nil =>
      rw [← Option.some.inj hjse] at hreach
      exact h.unreached r hr (hreaches.mp hreach)
  | cons i is =>
      have habsent : nextFrame (view hhdm m kernel i) = none := not_not.mp (hprivate i rfl)
      rw [walk_copy h.copy, walk_agree (h.agree kernel List.mem_cons_self) hjs, Radix.walk,
        habsent] at hjse
      cases hjse

end Copied

/-- `create_user_process` gives the new process its PML4. -/
theorem Spaces.new_process (h : Spaces hhdm kernel ⟨m, frames, procs⟩)
    (hcopied : Copied hhdm kernel n m m' procs) (hn : n ∉ frames) :
    Spaces hhdm kernel ⟨m', frames, procs ++ [n]⟩ := by
  have hkernel := h.ok kernel List.mem_cons_self
  have hcases : ∀ {r}, r ∈ kernel :: (procs ++ [n]) → r ∈ kernel :: procs ∨ r = n := by
    intro r hr
    rw [← List.cons_append, List.mem_append, List.mem_singleton] at hr
    exact hr
  refine ⟨?_, ?_, ?_, ?_⟩
  · intro r hr
    rcases hcases hr with hr | rfl
    · exact (h.ok r hr).of_agree (hcopied.agree r hr)
    · exact hcopied.tablesOk_new hkernel hn
  · intro i hi
    rw [hcopied.shared_eq]
    exact h.lower i hi
  · rw [← List.cons_append, List.nodup_append]
    refine ⟨h.nodup, List.pairwise_singleton _ n, ?_⟩
    intro r hr r' hr' heq
    rw [List.mem_singleton] at hr'
    exact hcopied.unreached r hr (heq.trans hr' ▸ reaches_root m r)
  · intro a ha r hr hra
    rw [hcopied.shared_eq]
    rw [List.mem_append, List.mem_singleton] at ha
    rcases ha with ha | rfl
    · rcases hcases hr with hr | rfl
      · exact hcopied.separate_old ha hr (h.separate a ha r hr hra)
      · have hka : kernel ≠ a := fun heq => (List.nodup_cons.mp h.nodup).1 (heq ▸ ha)
        exact hcopied.separate_from_new ha hkernel hn (h.separate a ha kernel List.mem_cons_self hka)
    · rcases hcases hr with hr | heq
      · exact hcopied.separate_new hr (h.ok r hr)
      · exact absurd heq hra

end NewProcess

end Spaces

end Tellurium.Process
