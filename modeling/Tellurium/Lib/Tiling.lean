import Tellurium.Lib.Memory

/-!
Exact tilings of address ranges. A list of regions is tiled by a list of blocks when
the blocks are nonempty and pairwise disjoint, each lies inside one region, and every
address of a region lies in a block. Cutting a block in two and adding a fresh region
as one block keep the tiling.
-/

namespace Tellurium.Lib

/-- The blocks cover the regions exactly, without overlap or gap. -/
structure Tiling (regions blocks : List Span) : Prop where
  disjoint : blocks.Pairwise Span.Disjoint
  pos : ∀ b ∈ blocks, 0 < b.len
  inside : ∀ b ∈ blocks, ∃ r ∈ regions, b.Inside r
  covered : ∀ r ∈ regions, ∀ x, r.Has x → ∃ b ∈ blocks, b.Has x

namespace Tiling

variable {regions blocks blocks' : List Span}

theorem nil : Tiling [] [] := ⟨.nil, by simp, by simp, by simp⟩

theorem perm (h : Tiling regions blocks) (hperm : blocks.Perm blocks') :
    Tiling regions blocks' where
  disjoint := (hperm.pairwise_iff fun hab => hab.symm).mp h.disjoint
  pos b hb := h.pos b (hperm.mem_iff.mpr hb)
  inside b hb := h.inside b (hperm.mem_iff.mpr hb)
  covered r hr x hx := by
    obtain ⟨b, hb, hbx⟩ := h.covered r hr x hx
    exact ⟨b, hperm.mem_iff.mp hb, hbx⟩

/-- A block of at least two addresses may be cut in two. -/
theorem split {a n k : Nat} (h : Tiling regions (⟨a, n + k⟩ :: blocks)) (hn : 0 < n)
    (hk : 0 < k) : Tiling regions (⟨a, n⟩ :: ⟨a + n, k⟩ :: blocks) where
  disjoint := by
    obtain ⟨hhead, htail⟩ := List.pairwise_cons.mp h.disjoint
    refine List.pairwise_cons.mpr ⟨fun b hb => ?_, List.pairwise_cons.mpr ⟨fun b hb => ?_, htail⟩⟩
    · rcases List.mem_cons.mp hb with rfl | hb
      · exact Or.inl (Nat.le_refl _)
      · exact (hhead b hb).of_inside ⟨Nat.le_refl _, by simp⟩ ⟨Nat.le_refl _, Nat.le_refl _⟩
    · exact (hhead b hb).of_inside ⟨by simp, by simp; omega⟩ ⟨Nat.le_refl _, Nat.le_refl _⟩
  pos b hb := by
    simp only [List.mem_cons] at hb
    rcases hb with rfl | rfl | hb
    · exact hn
    · exact hk
    · exact h.pos b (List.mem_cons_of_mem _ hb)
  inside b hb := by
    obtain ⟨r, hr, hlo, hhi⟩ := h.inside ⟨a, n + k⟩ List.mem_cons_self
    simp only [List.mem_cons] at hb hlo hhi
    rcases hb with rfl | rfl | hb
    · exact ⟨r, hr, by simpa using hlo, by simp; omega⟩
    · exact ⟨r, hr, by simp; omega, by simp; omega⟩
    · exact h.inside b (List.mem_cons_of_mem _ hb)
  covered r hr x hx := by
    obtain ⟨b, hb, hlo, hhi⟩ := h.covered r hr x hx
    rcases List.mem_cons.mp hb with rfl | hb
    · by_cases hcut : x < a + n
      · exact ⟨⟨a, n⟩, by simp, hlo, hcut⟩
      · exact ⟨⟨a + n, k⟩, by simp, by simp at hhi ⊢; omega, by simp at hhi ⊢; omega⟩
    · exact ⟨b, by simp [hb], hlo, hhi⟩

/-- A fresh region is tiled by itself. -/
theorem add_region (h : Tiling regions blocks) (new : Span) (hpos : 0 < new.len)
    (hfresh : ∀ r ∈ regions, new.Disjoint r) : Tiling (new :: regions) (new :: blocks) where
  disjoint := by
    refine List.pairwise_cons.mpr ⟨fun b hb => ?_, h.disjoint⟩
    obtain ⟨r, hr, hin⟩ := h.inside b hb
    exact (hfresh r hr).of_inside ⟨Nat.le_refl _, Nat.le_refl _⟩ hin
  pos b hb := by
    rcases List.mem_cons.mp hb with rfl | hb
    · exact hpos
    · exact h.pos b hb
  inside b hb := by
    rcases List.mem_cons.mp hb with rfl | hb
    · exact ⟨b, List.mem_cons_self, Nat.le_refl _, Nat.le_refl _⟩
    · obtain ⟨r, hr, hin⟩ := h.inside b hb
      exact ⟨r, List.mem_cons_of_mem _ hr, hin⟩
  covered r hr x hx := by
    rcases List.mem_cons.mp hr with rfl | hr
    · exact ⟨r, List.mem_cons_self, hx⟩
    · obtain ⟨b, hb, hbx⟩ := h.covered r hr x hx
      exact ⟨b, List.mem_cons_of_mem _ hb, hbx⟩

end Tiling

end Tellurium.Lib
