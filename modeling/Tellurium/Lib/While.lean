import Mathlib.Logic.Relation

/-!
Loops that may not end. An iteration is a step of a relation, and the loop is left in a state
that is `final`. A loop ends if every iteration it comes to can be made and climbs, below a
bound; and a deterministic loop that ends makes every iteration it comes to.
-/

namespace Tellurium.Lib

open Relation

variable {σ : Type*} {step : σ → σ → Prop} {final : σ → Prop} {s c : σ}

/-- The loop is left after finitely many iterations. -/
def Ends (step : σ → σ → Prop) (final : σ → Prop) (s : σ) : Prop :=
  ∃ c, ReflTransGen step s c ∧ final c

theorem Ends.continues (hunique : Relator.RightUnique step)
    (hleft : ∀ {s s' : σ}, step s s' → ¬ final s) (h : Ends step final s)
    (hreached : ReflTransGen step s c) (hc : ¬ final c) : ∃ c', step c c' := by
  obtain ⟨last, hlast, hfinal⟩ := h
  rcases ReflTransGen.total_of_right_unique hunique hreached hlast with hpath | hpath
  · rcases ReflTransGen.cases_head hpath with rfl | ⟨c', hstep, -⟩
    · exact absurd hfinal hc
    · exact ⟨c', hstep⟩
  · rcases ReflTransGen.cases_head hpath with rfl | ⟨c', hstep, -⟩
    · exact absurd hfinal hc
    · exact absurd hfinal (hleft hstep)

/-- A deterministic loop that comes back to the state it is in never ends. -/
theorem not_ends_of_loop (hunique : Relator.RightUnique step)
    (hleft : ∀ {s s' : σ}, step s s' → ¬ final s) (hloop : step s s) : ¬ Ends step final s := by
  rintro ⟨last, hreached, hfinal⟩
  have hsame : last = s := by
    clear hfinal
    induction hreached with
    | refl => rfl
    | tail _ hstep ih =>
        subst ih
        exact hunique hstep hloop
  exact hleft hloop (hsame ▸ hfinal)

/-- The induction is on the distance from the bound. -/
theorem ends_of_climbing (pos : σ → Nat) (bound : Nat)
    (hclimb : ∀ c, ReflTransGen step s c → ¬ final c →
      ∃ c', step c c' ∧ pos c < pos c' ∧ pos c' < bound) : Ends step final s := by
  generalize hdistance : bound - pos s = n
  induction n using Nat.strongRecOn generalizing s with
  | ind n ih =>
      by_cases hfinal : final s
      · exact ⟨s, .refl, hfinal⟩
      · obtain ⟨s', hstep, hup, hbelow⟩ := hclimb s .refl hfinal
        obtain ⟨c, hreached, hc⟩ := ih (bound - pos s') (by omega)
          (fun c hc => hclimb c (.head hstep hc)) rfl
        exact ⟨c, .head hstep hreached, hc⟩

theorem le_of_climbing {pos : σ → Nat}
    (hclimb : ∀ c, ReflTransGen step s c → ∀ c', step c c' → pos c < pos c')
    (hreached : ReflTransGen step s c) : pos s ≤ pos c := by
  induction hreached with
  | refl => exact Nat.le_refl _
  | tail hprevious hstep ih => exact Nat.le_trans ih (Nat.le_of_lt (hclimb _ hprevious _ hstep))

end Tellurium.Lib
