import Mathlib.Data.List.Basic

/-!
Radix trees in a heap of tables. A heap gives every table its entries, `next` reads the
table an entry points to, and a walk follows a list of indices from a root. Up to depth
`d` the tables form a tree when no table is reached along two paths. Writing an entry of
a table at depth `d` moves no walk, and putting a fresh empty table behind an empty entry
adds exactly one.
-/

namespace Tellurium.Lib.Radix

variable {B I V : Type} {next : V → Option B} {h h' : B → I → V} {root b c : B} {d : Nat}
  {is js : List I} {i : I}

/-- The table reached from `b` along a path. -/
def walk (next : V → Option B) (h : B → I → V) (b : B) : List I → Option B
  | [] => some b
  | i :: is => (next (h b i)).bind fun b => walk next h b is

theorem walk_append (next : V → Option B) (h : B → I → V) (b : B) (is js : List I) :
    walk next h b (is ++ js) = (walk next h b is).bind fun b => walk next h b js := by
  induction is generalizing b with
  | nil => rfl
  | cons i is ih =>
      simp only [List.cons_append, walk]
      cases next (h b i) with
      | none => rfl
      | some c => exact ih c

theorem walk_concat (b : B) (is : List I) (i : I) :
    walk next h b (is ++ [i]) = (walk next h b is).bind fun b => next (h b i) := by
  rw [walk_append]
  congr 1
  funext c
  simp only [walk]
  cases next (h c i) <;> rfl

/-- A walk depends only on the links of the tables it passes. -/
theorem walk_congr (hsame : ∀ pre j post, is = pre ++ j :: post → ∀ c,
    walk next h b pre = some c → next (h' c j) = next (h c j)) :
    walk next h' b is = walk next h b is := by
  induction is generalizing b with
  | nil => rfl
  | cons i is ih =>
      have hfirst := hsame [] i is rfl b rfl
      simp only [walk, hfirst]
      cases hnext : next (h b i) with
      | none => rfl
      | some c =>
          refine ih fun pre j post hsplit e he => ?_
          refine hsame (i :: pre) j post (by rw [hsplit]; rfl) e ?_
          simp only [walk, hnext]
          exact he

/-- No table is reached along two paths of length at most `d`. -/
def IsTree (next : V → Option B) (h : B → I → V) (root : B) (d : Nat) : Prop :=
  ∀ is js b, is.length ≤ d → js.length ≤ d →
    walk next h root is = some b → walk next h root js = some b → is = js

/-- The table is on some path of length at most `d`. -/
def Reaches (next : V → Option B) (h : B → I → V) (root : B) (d : Nat) (b : B) : Prop :=
  ∃ is, is.length ≤ d ∧ walk next h root is = some b

theorem IsTree.of_walk_eq (htree : IsTree next h root d)
    (hwalk : ∀ js, js.length ≤ d → walk next h' root js = walk next h root js) :
    IsTree next h' root d := by
  intro is js b his hjs hib hjb
  rw [hwalk is his] at hib
  rw [hwalk js hjs] at hjb
  exact htree is js b his hjs hib hjb

/-- Entries at the bottom are not links: writing one moves no walk. -/
theorem walk_write_bottom (htree : IsTree next h root d) (hb : walk next h root is = some b)
    (hlen : is.length = d) (hother : ∀ c j, c ≠ b → h' c j = h c j) (hjs : js.length ≤ d) :
    walk next h' root js = walk next h root js := by
  refine walk_congr fun pre j post hsplit c hc => ?_
  have hpre : pre.length < d := by
    have hlength := congrArg List.length hsplit
    simp only [List.length_append, List.length_cons] at hlength
    omega
  have hne : c ≠ b := by
    rintro rfl
    have hsame := congrArg List.length (htree pre is c (by omega) (by omega) hc hb)
    omega
  rw [hother c j hne]

section Allocate

variable (htree : IsTree next h root d) (hb : walk next h root is = some b) (hlen : is.length < d)
  (hnone : next (h b i) = none) (hfresh : ¬ Reaches next h root d c)
  (hlink : next (h' b i) = some c) (hempty : ∀ j, next (h' c j) = none)
  (hentry : ∀ j, j ≠ i → h' b j = h b j) (hother : ∀ e j, e ≠ b → e ≠ c → h' e j = h e j)

include htree hb hlen hfresh hentry hother in
/-- Paths that do not go through the filled entry are walked as before. -/
private theorem walk_avoiding (hjs : js.length ≤ d) (havoid : ¬ is ++ [i] <+: js) :
    walk next h' root js = walk next h root js := by
  refine walk_congr fun pre j post hsplit e he => ?_
  have hpre : pre.length ≤ d := by
    have hlength := congrArg List.length hsplit
    simp only [List.length_append, List.length_cons] at hlength
    omega
  have hec : e ≠ c := by
    rintro rfl
    exact hfresh ⟨pre, hpre, he⟩
  by_cases heb : e = b
  · subst heb
    have hsame := htree pre is e hpre (Nat.le_of_lt hlen) he hb
    subst hsame
    have hji : j ≠ i := by
      rintro rfl
      refine havoid ⟨post, ?_⟩
      rw [hsplit, List.append_assoc]
      rfl
    rw [hentry j hji]
  · rw [hother e j heb hec]

include htree hb hlen hnone hfresh hlink hempty hentry hother

/-- The new table is the only change. -/
theorem walk_allocate [DecidableEq I] (hjs : js.length ≤ d) :
    walk next h' root js = if js = is ++ [i] then some c else walk next h root js := by
  by_cases hthrough : is ++ [i] <+: js
  · obtain ⟨post, rfl⟩ := hthrough
    have hold : walk next h root (is ++ [i]) = none := by rw [walk_concat, hb, Option.bind_some, hnone]
    have hkeep : walk next h' root is = some b := by
      rw [walk_avoiding htree hb hlen hfresh hentry hother (Nat.le_of_lt hlen), hb]
      intro hpre
      have hle := hpre.length_le
      rw [List.length_append, List.length_singleton] at hle
      omega
    have hnew : walk next h' root (is ++ [i]) = some c := by
      rw [walk_concat, hkeep, Option.bind_some, hlink]
    cases post with
    | nil => rw [List.append_nil, if_pos rfl, hnew]
    | cons j post =>
        have hbeyond := walk_append next h' root (is ++ [i]) (j :: post)
        have hbeyondOld := walk_append next h root (is ++ [i]) (j :: post)
        rw [hnew, Option.bind_some, walk, hempty] at hbeyond
        rw [hold, Option.bind_none] at hbeyondOld
        rw [if_neg (by simp), hbeyond, hbeyondOld]
        rfl
  · rw [walk_avoiding htree hb hlen hfresh hentry hother hjs hthrough, if_neg]
    rintro rfl
    exact hthrough (List.prefix_refl _)

theorem isTree_allocate [DecidableEq I] : IsTree next h' root d := by
  have hwalk := fun {js : List I} (hjs : js.length ≤ d) =>
    walk_allocate htree hb hlen hnone hfresh hlink hempty hentry hother hjs
  have hnew : ∀ {js : List I}, js.length ≤ d → walk next h' root js = some c → js = is ++ [i] := by
    intro js hjs hc
    rw [hwalk hjs] at hc
    split at hc
    · assumption
    · exact absurd ⟨js, hjs, hc⟩ hfresh
  intro js ks e hjs hks he he'
  by_cases hec : e = c
  · subst hec
    rw [hnew hjs he, hnew hks he']
  · rw [hwalk hjs] at he
    rw [hwalk hks] at he'
    split at he
    · exact absurd (Option.some.inj he).symm hec
    · split at he'
      · exact absurd (Option.some.inj he').symm hec
      · exact htree js ks e hjs hks he he'

/-- Only the new table becomes reachable. -/
theorem reaches_allocate [DecidableEq I] {e : B} (he : Reaches next h' root d e) :
    e = c ∨ Reaches next h root d e := by
  obtain ⟨js, hjs, hwalk⟩ := he
  rw [walk_allocate htree hb hlen hnone hfresh hlink hempty hentry hother hjs] at hwalk
  split at hwalk
  · exact Or.inl (Option.some.inj hwalk).symm
  · exact Or.inr ⟨js, hjs, hwalk⟩

end Allocate

end Tellurium.Lib.Radix
