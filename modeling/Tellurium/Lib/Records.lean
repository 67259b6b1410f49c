import Mathlib.Data.List.Basic

/-!
Walks over records that each say how long they are. A walk looks at the record at an offset,
stops there or goes on behind it, and ends at the limit. The lengths are whatever the data holds,
so a walk need not end: it is run with fuel, and without a result it is still under way. If no
record is empty, the walk is a pass over a list of offsets; if it comes to an empty one and never
stops, there is no end.
-/

namespace Tellurium.Lib

variable {σ ρ : Type*} {size : Nat → Nat} {limit offset o fuel : Nat}

/-- What is done at a record. -/
inductive Visit (σ ρ : Type*) where
  | next (s : σ)
  | stop (r : ρ)

/-- The result is `next` when the walk came to the limit. -/
def walk (size : Nat → Nat) (limit : Nat) (visit : Nat → σ → Visit σ ρ) :
    Nat → Nat → σ → Option (Visit σ ρ)
  | 0, _, _ => none
  | fuel + 1, offset, s =>
      if offset < limit then
        match visit offset s with
        | .next s => walk size limit visit fuel (offset + size offset) s
        | .stop r => some (.stop r)
      else some (.next s)

/-- A record that stands on the way from `offset` to the limit. -/
inductive OnWay (size : Nat → Nat) (limit : Nat) : Nat → Nat → Prop where
  | here {offset : Nat} (hlt : offset < limit) : OnWay size limit offset offset
  | behind {offset o : Nat} (hlt : offset < limit)
      (ho : OnWay size limit (offset + size offset) o) : OnWay size limit offset o

/-- The records on the way. An empty one is the last that is listed. -/
def records (size : Nat → Nat) (limit offset : Nat) : List Nat :=
  if offset < limit then
    offset :: if 0 < size offset then records size limit (offset + size offset) else []
  else []
termination_by limit - offset

def visitAll (visit : Nat → σ → Visit σ ρ) : List Nat → σ → Visit σ ρ
  | [], s => .next s
  | o :: os, s =>
      match visit o s with
      | .next s => visitAll visit os s
      | .stop r => .stop r

/-- No record on the way is empty. -/
def Progresses (size : Nat → Nat) (limit offset : Nat) : Prop :=
  ∀ o, OnWay size limit offset o → 0 < size o

theorem Progresses.behind (h : Progresses size limit offset) (hlt : offset < limit) :
    Progresses size limit (offset + size offset) := fun o ho => h o (.behind hlt ho)

theorem records_cons (h : Progresses size limit offset) (hlt : offset < limit) :
    records size limit offset = offset :: records size limit (offset + size offset) := by
  rw [records, if_pos hlt, if_pos (h offset (.here hlt))]

theorem records_nil (hle : ¬ offset < limit) : records size limit offset = [] := by
  rw [records, if_neg hle]

/-- The induction is on the distance from the limit. -/
theorem walk_eq (h : Progresses size limit offset) (visit : Nat → σ → Visit σ ρ) (s : σ)
    (hfuel : limit - offset < fuel) :
    walk size limit visit fuel offset s = some (visitAll visit (records size limit offset) s) := by
  induction fuel generalizing offset s with
  | zero => omega
  | succ fuel ih =>
      rw [walk]
      split
      · rename_i hlt
        have hpos := h offset (.here hlt)
        rw [records_cons h hlt, visitAll]
        cases visit offset s with
        | next s => exact ih (h.behind hlt) s (by omega)
        | stop r => rfl
      · rename_i hle
        rw [records_nil hle]
        rfl

theorem walk_unique {visit : Nat → σ → Visit σ ρ} {fuel' : Nat} {s : σ} {r r' : Visit σ ρ}
    (h : walk size limit visit fuel offset s = some r)
    (h' : walk size limit visit fuel' offset s = some r') : r = r' := by
  induction fuel generalizing fuel' offset s with
  | zero => cases h
  | succ fuel ih =>
      cases fuel' with
      | zero => cases h'
      | succ fuel' =>
          rw [walk] at h h'
          split at h
          · rename_i hlt
            rw [if_pos hlt] at h'
            cases hvisit : visit offset s with
            | next s =>
                rw [hvisit] at h h'
                exact ih h h'
            | stop r =>
                rw [hvisit] at h h'
                exact Option.some.inj (h.symm.trans h')
          · rename_i hle
            rw [if_neg hle] at h'
            exact Option.some.inj (h.symm.trans h')

/-- A walk that stops does so at one of its visits. -/
theorem walk_stop {visit : Nat → σ → Visit σ ρ} {p : ρ → Prop}
    (hvisit : ∀ o s r, visit o s = .stop r → p r) {s : σ} {r : ρ}
    (h : walk size limit visit fuel offset s = some (.stop r)) : p r := by
  induction fuel generalizing offset s with
  | zero => cases h
  | succ fuel ih =>
      rw [walk] at h
      split at h
      · cases heq : visit offset s with
        | next s =>
            rw [heq] at h
            exact ih h
        | stop r' =>
            rw [heq] at h
            cases h
            exact hvisit offset s r heq
      · cases h

/-- Behind an empty record there is only that record again. -/
theorem walk_stuck {visit : Nat → σ → Visit σ ρ}
    (hnext : ∀ o s, ∃ s', visit o s = .next s') (ho : OnWay size limit offset o)
    (hempty : size o = 0) (fuel : Nat) (s : σ) : walk size limit visit fuel offset s = none := by
  induction fuel generalizing offset s with
  | zero => rfl
  | succ fuel ih =>
      obtain ⟨s', hs'⟩ := hnext offset s
      cases ho with
      | here hlt =>
          simp only [walk, if_pos hlt, hs']
          exact ih (by rw [hempty]; exact .here hlt) s'
      | behind hlt ho =>
          simp only [walk, if_pos hlt, hs']
          exact ih ho s'

end Tellurium.Lib
