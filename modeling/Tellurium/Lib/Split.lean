import Mathlib.Data.List.TakeWhile

/-!
The segments of a list: its maximal runs of elements that are no separators, without the empty
ones. They are found from the left by skipping separators and taking what comes before the next
one, so a proof about such a search splits on what stands at the front of the list.
-/

namespace Tellurium.Lib

variable {α : Type*} {sep : α → Bool} {c : α} {skip run : List α}

def segments (sep : α → Bool) (l : List α) : List (List α) :=
  (l.splitOnP sep).filter fun run => !run.isEmpty

/-- Separators up to the end of the list, or separators and a run, with the end or a separator
behind it. -/
inductive Front (sep : α → Bool) : List α → Prop where
  | exhausted (skip : List α) (hskip : ∀ a ∈ skip, sep a = true) : Front sep skip
  | last (skip run : List α) (hskip : ∀ a ∈ skip, sep a = true) (hne : run ≠ [])
      (hrun : ∀ a ∈ run, sep a = false) : Front sep (skip ++ run)
  | cut (skip run : List α) (c : α) (rest : List α) (hskip : ∀ a ∈ skip, sep a = true)
      (hne : run ≠ []) (hrun : ∀ a ∈ run, sep a = false) (hc : sep c = true) :
      Front sep (skip ++ (run ++ c :: rest))

theorem front (sep : α → Bool) (l : List α) : Front sep l := by
  have hskip : ∀ a ∈ l.takeWhile sep, sep a = true := fun _ ha => List.mem_takeWhile_imp ha
  have hsplit : l.takeWhile sep ++ l.dropWhile sep = l := List.takeWhile_append_dropWhile
  cases hrest : l.dropWhile sep with
  | nil =>
      rw [hrest, List.append_nil] at hsplit
      rw [hsplit] at hskip
      exact .exhausted l hskip
  | cons a rest =>
      have ha : sep a = false := by
        have hhead := List.head?_dropWhile_not sep l
        rw [hrest] at hhead
        simpa using hhead
      have hrun : ∀ b ∈ (a :: rest).takeWhile fun b => !sep b, sep b = false := by
        intro b hb
        simpa using List.mem_takeWhile_imp hb
      have hne : ((a :: rest).takeWhile fun b => !sep b) ≠ [] := by
        rw [List.takeWhile_cons_of_pos (by simp [ha])]
        exact List.cons_ne_nil _ _
      have hcut : ((a :: rest).takeWhile fun b => !sep b) ++
          (a :: rest).dropWhile (fun b => !sep b) = a :: rest := List.takeWhile_append_dropWhile
      rw [hrest] at hsplit
      cases htail : (a :: rest).dropWhile fun b => !sep b with
      | nil =>
          rw [htail, List.append_nil] at hcut
          rw [hcut] at hne hrun
          rw [← hsplit]
          exact .last _ _ hskip hne hrun
      | cons c tail =>
          have hc : sep c = true := by
            have hhead := List.head?_dropWhile_not (fun b => !sep b) (a :: rest)
            rw [htail] at hhead
            simpa using hhead
          rw [← hsplit, ← hcut, htail]
          exact .cut _ _ c tail hskip hne hrun hc

theorem segments_cons (hc : sep c = true) (l : List α) :
    segments sep (c :: l) = segments sep l := by
  rw [segments, List.splitOnP_cons_eq_if_modifyHead, if_pos hc, List.filter_cons_of_neg (by simp)]
  rfl

theorem segments_skip (hskip : ∀ a ∈ skip, sep a = true) (l : List α) :
    segments sep (skip ++ l) = segments sep l := by
  induction skip with
  | nil => rfl
  | cons a skip ih =>
      obtain ⟨ha, htail⟩ := List.forall_mem_cons.mp hskip
      rw [List.cons_append, segments_cons ha, ih htail]

theorem segments_exhausted (hskip : ∀ a ∈ skip, sep a = true) : segments sep skip = [] := by
  have h := segments_skip hskip []
  rw [List.append_nil] at h
  rw [h]
  rfl

theorem segments_last (hskip : ∀ a ∈ skip, sep a = true) (hne : run ≠ [])
    (hrun : ∀ a ∈ run, sep a = false) : segments sep (skip ++ run) = [run] := by
  rw [segments_skip hskip, segments, List.splitOnP_eq_singleton hrun,
    List.filter_cons_of_pos (by simpa using hne)]
  rfl

theorem segments_cut (hskip : ∀ a ∈ skip, sep a = true) (hne : run ≠ [])
    (hrun : ∀ a ∈ run, sep a = false) (hc : sep c = true) (rest : List α) :
    segments sep (skip ++ (run ++ c :: rest)) = run :: segments sep rest := by
  rw [segments_skip hskip, segments, List.splitOnP_append_cons_of_forall_mem hrun c hc,
    List.filter_cons_of_pos (by simpa using hne)]
  rfl

end Tellurium.Lib
