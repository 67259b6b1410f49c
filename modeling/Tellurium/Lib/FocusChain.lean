import Mathlib.Logic.Relation

/-!
Focus in a tree. Every node may point to one of its children, and nodes are switched on and
off. A subtree is idle if all of it is off and points nowhere; it is focused if the nodes that
are on are those met by following the pointers from its root, and everything beside that path
is idle.
-/

namespace Tellurium.Lib

open Relation

variable {ν : Type*}

/-- Children have one parent, and a rank below it. -/
structure Forest (child : ν → ν → Prop) (rank : ν → Nat) : Prop where
  unique : ∀ {p q c}, child p c → child q c → p = q
  rank_lt : ∀ {p c}, child p c → rank c < rank p

namespace Forest

variable {child : ν → ν → Prop} {rank : ν → Nat} {p w c d v : ν}

theorem rank_le (h : Forest child rank) (hv : ReflTransGen child w v) : rank v ≤ rank w := by
  induction hv with
  | refl => exact Nat.le_refl _
  | tail _ hstep ih => exact Nat.le_trans (Nat.le_of_lt (h.rank_lt hstep)) ih

theorem not_within_child (h : Forest child rank) (hc : child w c) : ¬ ReflTransGen child c w := by
  intro hw
  have hlt := h.rank_lt hc
  have hle := h.rank_le hw
  omega

/-- The only way from a node into the subtree of one of its ancestors' children is that child. -/
theorem parent_within (h : Forest child rank) (hc : child w c) (hd : ReflTransGen child d c)
    (hne : c ≠ d) : ReflTransGen child d w := by
  rcases hd.cases_tail with heq | ⟨p, hp, hstep⟩
  · exact absurd heq hne
  · rwa [h.unique hc hstep]

theorem siblings_apart (h : Forest child rank) (hc : child w c) (hd : child w d) (hne : c ≠ d)
    (hv : ReflTransGen child c v) : ¬ ReflTransGen child d v := by
  intro hv'
  have hright : Relator.RightUnique (Function.swap child) := fun a b c hb hc => h.unique hb hc
  have htotal := ReflTransGen.total_of_right_unique hright (reflTransGen_swap.mpr hv)
    (reflTransGen_swap.mpr hv')
  rcases htotal with hdc | hcd
  · exact h.not_within_child hd (h.parent_within hc (reflTransGen_swap.mp hdc) hne)
  · exact h.not_within_child hc (h.parent_within hd (reflTransGen_swap.mp hcd) hne.symm)

end Forest

section Chains

variable (child : ν → ν → Prop) (focus : ν → Option ν) (on : ν → Prop)

def Idle (w : ν) : Prop := ∀ v, ReflTransGen child w v → focus v = none ∧ ¬ on v

inductive Focused : ν → Prop
  | mk {w : ν} (isOn : on w) (isChild : ∀ d, focus w = some d → child w d)
      (next : ∀ d, focus w = some d → Focused d)
      (beside : ∀ c, child w c → focus w ≠ some c → Idle child focus on c) : Focused w

/-- The nodes met by following the pointers from `r`. -/
def OnChain (r v : ν) : Prop := ReflTransGen (fun a b => focus a = some b) r v

end Chains

variable {child : ν → ν → Prop} {focus focus' : ν → Option ν} {on on' : ν → Prop} {r v w c : ν}

theorem Focused.on_of_onChain (h : Focused child focus on r) (hv : OnChain focus r v) : on v := by
  induction h with
  | mk isOn _ _ _ ih =>
      rcases hv.cases_head with rfl | ⟨d, hd, hv⟩
      · exact isOn
      · exact ih d hd hv

/-- In a focused tree the chain is exactly what is on, and nothing off it points anywhere. -/
theorem Focused.chain (h : Focused child focus on r) (hv : ReflTransGen child r v) :
    (on v ↔ OnChain focus r v) ∧ (¬ OnChain focus r v → focus v = none) := by
  induction h with
  | @mk w isOn isChild next beside ih =>
      have hon : OnChain focus w v → on v := (Focused.mk isOn isChild next beside).on_of_onChain
      rcases hv.cases_head with rfl | ⟨c, hc, hv⟩
      · exact ⟨⟨fun _ => .refl, hon⟩, fun hoff => absurd .refl hoff⟩
      by_cases hfocus : focus w = some c
      · obtain ⟨hiff, hoff⟩ := ih c hfocus hv
        exact ⟨⟨fun h => .head hfocus (hiff.mp h), hon⟩, fun h => hoff fun h' => h (.head hfocus h')⟩
      · obtain ⟨hnone, hnot⟩ := beside c hc hfocus v hv
        exact ⟨⟨fun h => absurd h hnot, hon⟩, fun _ => hnone⟩

theorem Idle.of_children (hnone : focus w = none) (hoff : ¬ on w)
    (hchildren : ∀ c, child w c → Idle child focus on c) : Idle child focus on w := by
  intro v hv
  rcases hv.cases_head with rfl | ⟨c, hc, hv⟩
  · exact ⟨hnone, hoff⟩
  · exact hchildren c hc v hv

theorem Idle.of_parent (h : Idle child focus on w) (hc : child w c) : Idle child focus on c :=
  fun v hv => h v (.head hc hv)

theorem Idle.congr (hsame : ∀ v, ReflTransGen child w v → focus' v = focus v ∧ (on' v ↔ on v))
    (h : Idle child focus on w) : Idle child focus' on' w := by
  intro v hv
  obtain ⟨hfocus, hon⟩ := hsame v hv
  rw [hfocus, hon]
  exact h v hv

theorem Focused.congr (h : Focused child focus on w)
    (hsame : ∀ v, ReflTransGen child w v → focus' v = focus v ∧ (on' v ↔ on v)) :
    Focused child focus' on' w := by
  induction h with
  | @mk w isOn isChild next beside ih =>
      obtain ⟨hfocus, hon⟩ := hsame w .refl
      refine ⟨hon.mpr isOn, ?_, ?_, ?_⟩
      · rwa [hfocus]
      · intro d hd
        rw [hfocus] at hd
        exact ih d hd fun v hv => hsame v (.head (isChild d hd) hv)
      · intro c hc hne
        rw [hfocus] at hne
        exact (beside c hc hne).congr fun v hv => hsame v (.head hc hv)

end Tellurium.Lib
