import Mathlib.Data.List.Basic

/-!
Runs of a deterministic machine. An action carries every choice that the environment makes,
so a run is a left fold over its actions. A property of the steps of a run is read off along
the fold, and two such properties agree on all runs if they agree wherever an invariant holds
that one of them keeps up.
-/

namespace Tellurium.Lib

variable {σ α : Type*}

/-- Every step of the run from `s` has the property, seen from the state before it. -/
def EveryStep (step : σ → α → σ) (P : σ → α → Prop) : σ → List α → Prop
  | _, [] => True
  | s, a :: rest => P s a ∧ EveryStep step P (step s a) rest

variable {step : σ → α → σ} {P Q : σ → α → Prop} {Inv : σ → Prop} {s : σ} {actions : List α}

/-- An invariant that every step keeps. -/
theorem foldl_inv (hstep : ∀ s a, Inv s → Inv (step s a)) (h₀ : Inv s) (actions : List α) :
    Inv (actions.foldl step s) := by
  induction actions generalizing s with
  | nil => exact h₀
  | cons a rest ih => exact ih (hstep s a h₀)

/-- An invariant that the steps of the run keep holds in every state reached. -/
theorem EveryStep.inv (Inv : σ → Prop) (hstep : ∀ s a, Inv s → P s a → Inv (step s a)) (h₀ : Inv s)
    {reached : List α} (hreached : reached <+: actions) (h : EveryStep step P s actions) :
    Inv (reached.foldl step s) := by
  obtain ⟨later, rfl⟩ := hreached
  induction reached generalizing s with
  | nil => exact h₀
  | cons a rest ih => exact ih (hstep s a h₀ h.1) h.2

/-- A property of the actions alone. -/
theorem EveryStep.of_forall {Q : α → Prop} (h : ∀ a ∈ actions, Q a) :
    EveryStep step (fun _ a => Q a) s actions := by
  induction actions generalizing s with
  | nil => trivial
  | cons a rest ih =>
      obtain ⟨ha, hrest⟩ := List.forall_mem_cons.mp h
      exact ⟨ha, ih hrest⟩

theorem everyStep_snoc (a : α) : EveryStep step P s (actions ++ [a]) ↔
    EveryStep step P s actions ∧ P (actions.foldl step s) a := by
  induction actions generalizing s with
  | nil => simp [EveryStep]
  | cons b rest ih =>
      change P s b ∧ EveryStep step P (step s b) (rest ++ [a]) ↔ _
      rw [ih]
      exact and_assoc.symm

theorem EveryStep.imp (hstep : ∀ s a, Inv s → P s a → Inv (step s a) ∧ Q s a) (h₀ : Inv s)
    (h : EveryStep step P s actions) : EveryStep step Q s actions := by
  induction actions generalizing s with
  | nil => trivial
  | cons a rest ih =>
      obtain ⟨hnext, hq⟩ := hstep s a h₀ h.1
      exact ⟨hq, ih hnext h.2⟩

theorem everyStep_iff (Inv : σ → Prop) (h₀ : Inv s) (hiff : ∀ s a, Inv s → (P s a ↔ Q s a))
    (hstep : ∀ s a, Inv s → Q s a → Inv (step s a)) :
    EveryStep step P s actions ↔ EveryStep step Q s actions := by
  constructor
  · refine EveryStep.imp (fun s a (hs : Inv s) hp => ?_) h₀
    have hq := (hiff s a hs).mp hp
    exact ⟨hstep s a hs hq, hq⟩
  · refine EveryStep.imp (fun s a (hs : Inv s) hq => ?_) h₀
    exact ⟨hstep s a hs hq, (hiff s a hs).mpr hq⟩

end Tellurium.Lib
