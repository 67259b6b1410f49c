import Mathlib.Logic.Function.Basic
import Tellurium.Lib.Run

/-!
A region of code behind a spin lock. Any number of cores call it. A step of the machine is one
step of one core: a try to take the lock, a step inside the region, or the release. Whatever the
order of the steps is, only one core is inside, and the calls that have returned are a run of
whole calls, one after the other, in the order in which they gave the lock back.
-/

namespace Tellurium.Lib

/-- The word is replaced if it is the expected one. -/
def compareAndSwap {W : Type*} [DecidableEq W] (word expected new : W) : Bool × W :=
  if word = expected then (true, new) else (false, word)

/-- The code between taking the lock and giving it back: the place where a call starts, and what
one step does. A step goes to the next place, or leaves the region with a result. -/
structure Region (σ C L R : Type*) where
  enter : C → L
  step : σ → L → σ × (L ⊕ R)

namespace Region

variable {σ C L R ι : Type*} {region : Region σ C L R}

/-- The region is run from a place to its end, with nothing between the steps. -/
inductive Runs (region : Region σ C L R) : σ → L → σ → R → Prop
  | leave {s l s' r} (h : region.step s l = (s', .inr r)) : Runs region s l s' r
  | go {s l s₁ l₁ s' r} (h : region.step s l = (s₁, .inl l₁)) (rest : Runs region s₁ l₁ s' r) :
      Runs region s l s' r

theorem Runs.of_go {s s₁ s' : σ} {l l₁ : L} {r : R} (h : region.step s l = (s₁, .inl l₁))
    (hruns : region.Runs s l s' r) : region.Runs s₁ l₁ s' r := by
  cases hruns with
  | leave h' => cases h.symm.trans h'
  | go h' rest =>
      cases h.symm.trans h'
      exact rest

theorem Runs.of_leave {s s₁ s' : σ} {l : L} {r r₁ : R} (h : region.step s l = (s₁, .inr r₁))
    (hruns : region.Runs s l s' r) : s' = s₁ ∧ r = r₁ := by
  cases hruns with
  | leave h' =>
      cases h.symm.trans h'
      exact ⟨rfl, rfl⟩
  | go h' rest => cases h.symm.trans h'

/-- Whole calls one after the other, from one shared state to another. -/
def Serial (region : Region σ C L R) : σ → List (ι × C × R) → σ → Prop
  | s, [], s' => s' = s
  | s, (_, call, result) :: rest, s' =>
      ∃ s₁, region.Runs s (region.enter call) s₁ result ∧ Serial region s₁ rest s'

theorem Serial.snoc {s s₁ s₂ : σ} {calls : List (ι × C × R)} {core : ι} {call : C} {result : R}
    (h : region.Serial s calls s₁) (hruns : region.Runs s₁ (region.enter call) s₂ result) :
    region.Serial s (calls ++ [(core, call, result)]) s₂ := by
  induction calls generalizing s with
  | nil =>
      cases h
      exact ⟨s₂, hruns, rfl⟩
  | cons first rest ih =>
      obtain ⟨s', hfirst, hrest⟩ := h
      exact ⟨s', hfirst, ih hrest⟩

/-- An abstract state that whole calls keep in step with the shared one. -/
theorem Serial.refines {A : Type*} {Is : σ → A → Prop} {next : A → C → A} {answer : A → C → R}
    {P : A → C → Prop}
    (hcall : ∀ {s a call s' result}, Is s a → P a call → region.Runs s (region.enter call) s' result →
      result = answer a call ∧ Is s' (next a call))
    {s s' : σ} {a : A} {calls : List (ι × C × R)} (hs : Is s a) (h : region.Serial s calls s')
    (hP : EveryStep next P a (calls.map fun c => c.2.1)) :
    Is s' ((calls.map fun c => c.2.1).foldl next a) := by
  induction calls generalizing s a with
  | nil =>
      cases h
      exact hs
  | cons first rest ih =>
      obtain ⟨s₁, hfirst, hrest⟩ := h
      exact ih (hcall hs hP.1 hfirst).2 hrest hP.2

end Region

/-- Where a core is with respect to the region. -/
inductive Place (C L R : Type*) where
  | outside
  | spinning (call : C)
  | inside (call : C) (l : L)
  | leaving (call : C) (result : R)
  deriving DecidableEq

/-- The core holds the lock. -/
def Place.Holds {C L R : Type*} : Place C L R → Prop
  | .outside | .spinning _ => False
  | .inside _ _ | .leaving _ _ => True

def Place.call? {C L R : Type*} : Place C L R → Option C
  | .outside => none
  | .spinning call | .inside call _ | .leaving call _ => some call

theorem Place.call?_eq_none {C L R : Type*} {place : Place C L R} :
    place.call? = none ↔ place = .outside := by
  cases place <;> simp [Place.call?]

/-- The calls that have returned are kept with their results, the last one at the end. -/
structure Cores (ι σ C L R : Type*) where
  lock : UInt64
  shared : σ
  place : ι → Place C L R
  done : List (ι × C × R)

inductive CoreStep (ι C : Type*) where
  | call (core : ι) (call : C)
  | tick (core : ι)
  deriving DecidableEq

namespace Cores

variable {ι σ C L R : Type*} [DecidableEq ι] {region : Region σ C L R} {m : Cores ι σ C L R}
  {s₀ : σ} {i j : ι}

def moved (m : Cores ι σ C L R) (i : ι) (place : Place C L R) : Cores ι σ C L R :=
  {m with place := Function.update m.place i place}

/-- A core spins as long as the exchange of `0` for `1` fails, and gives the lock back with the
opposite exchange. -/
def tick (region : Region σ C L R) (m : Cores ι σ C L R) (i : ι) : Cores ι σ C L R :=
  match m.place i with
  | .outside => m
  | .spinning call =>
      match compareAndSwap m.lock 0 1 with
      | (true, lock) => {m.moved i (.inside call (region.enter call)) with lock}
      | (false, lock) => {m with lock}
  | .inside call l =>
      match region.step m.shared l with
      | (shared, .inl l) => {m.moved i (.inside call l) with shared}
      | (shared, .inr result) => {m.moved i (.leaving call result) with shared}
  | .leaving call result =>
      {m.moved i .outside with
        lock := (compareAndSwap m.lock 1 0).2
        done := m.done ++ [(i, call, result)]}

/-- A core that is already in a call does not call again. -/
def call (m : Cores ι σ C L R) (i : ι) (call : C) : Cores ι σ C L R :=
  match m.place i with
  | .outside => m.moved i (.spinning call)
  | _ => m

def step (region : Region σ C L R) (m : Cores ι σ C L R) : CoreStep ι C → Cores ι σ C L R
  | .call i c => m.call i c
  | .tick i => m.tick region i

/-- The lock is free and no core runs the region. -/
def start (s₀ : σ) : Cores ι σ C L R := ⟨0, s₀, fun _ => .outside, []⟩

@[simp] theorem moved_self (m : Cores ι σ C L R) (i : ι) (place : Place C L R) :
    (m.moved i place).place i = place :=
  Function.update_self _ _ _

theorem moved_ne (m : Cores ι σ C L R) (place : Place C L R) (h : j ≠ i) :
    (m.moved i place).place j = m.place j :=
  Function.update_of_ne h _ _

theorem call_outside (h : m.place i = .outside) (c : C) :
    m.call i c = m.moved i (.spinning c) := by
  rw [Cores.call, h]

theorem tick_outside (h : m.place i = .outside) : m.tick region i = m := by
  rw [tick, h]

theorem tick_taken {c : C} (h : m.place i = .spinning c) (hlock : m.lock ≠ 0) :
    m.tick region i = m := by
  simp only [tick, h, compareAndSwap, if_neg hlock]

theorem tick_take {c : C} (h : m.place i = .spinning c) (hlock : m.lock = 0) :
    m.tick region i = {m.moved i (.inside c (region.enter c)) with lock := 1} := by
  simp only [tick, h, compareAndSwap, if_pos hlock]

theorem tick_go {c : C} {l l₁ : L} {s : σ} (h : m.place i = .inside c l)
    (hstep : region.step m.shared l = (s, .inl l₁)) :
    m.tick region i = {m.moved i (.inside c l₁) with shared := s} := by
  simp only [tick, h, hstep]

theorem tick_leave {c : C} {l : L} {s : σ} {r : R} (h : m.place i = .inside c l)
    (hstep : region.step m.shared l = (s, .inr r)) :
    m.tick region i = {m.moved i (.leaving c r) with shared := s} := by
  simp only [tick, h, hstep]

theorem tick_release {c : C} {r : R} (h : m.place i = .leaving c r) (hlock : m.lock = 1) :
    m.tick region i = {m.moved i .outside with lock := 0, done := m.done ++ [(i, c, r)]} := by
  simp only [tick, h, compareAndSwap, if_pos hlock]

/-- The holder's call so far, seen from the shared state `s₁` in which it took the lock: whatever
ends it from here ends the whole call. -/
def Begun (region : Region σ C L R) (s₁ s : σ) : Place C L R → Prop
  | .outside | .spinning _ => False
  | .inside call l => ∀ s' r, region.Runs s l s' r → region.Runs s₁ (region.enter call) s' r
  | .leaving call r => region.Runs s₁ (region.enter call) s r

/-- The lock is free, and the calls that have returned lead to the shared state. Or one core holds
it, and they lead to the state in which that core took it. -/
inductive Inv (region : Region σ C L R) (s₀ : σ) (m : Cores ι σ C L R) : Prop
  | free (lock : m.lock = 0) (waiting : ∀ i, ¬ (m.place i).Holds)
      (serial : region.Serial s₀ m.done m.shared)
  | held (i : ι) (s₁ : σ) (lock : m.lock = 1) (waiting : ∀ j, j ≠ i → ¬ (m.place j).Holds)
      (serial : region.Serial s₀ m.done s₁) (begun : Begun region s₁ m.shared (m.place i))

theorem Begun.holds {s₁ s : σ} {place : Place C L R} (h : Begun region s₁ s place) :
    place.Holds := by
  cases place with
  | outside => exact h
  | spinning call => exact h
  | inside call l => trivial
  | leaving call r => trivial

omit [DecidableEq ι] in
theorem Inv.start (region : Region σ C L R) (s₀ : σ) :
    Inv region s₀ (Cores.start s₀ : Cores ι σ C L R) :=
  .free rfl (fun _ h => h) rfl

/-- If only core `i` has moved, the others still do not hold the lock. -/
theorem waiting_moved (h : ∀ j, j ≠ i → ¬ (m.place j).Holds) (place : Place C L R) :
    ∀ j, j ≠ i → ¬ ((m.moved i place).place j).Holds := by
  intro j hj
  rw [moved_ne m place hj]
  exact h j hj

/-- What the invariant says about a core that holds the lock. -/
theorem Inv.of_holds (h : Inv region s₀ m) (hi : (m.place i).Holds) :
    m.lock = 1 ∧ (∀ j, j ≠ i → ¬ (m.place j).Holds) ∧
      ∃ s₁, region.Serial s₀ m.done s₁ ∧ Begun region s₁ m.shared (m.place i) := by
  cases h with
  | free lock waiting serial => exact absurd hi (waiting i)
  | held k s₁ lock waiting serial begun =>
      have hik : i = k := by
        by_contra hne
        exact waiting i hne hi
      subst hik
      exact ⟨lock, waiting, s₁, serial, begun⟩

theorem Inv.call (h : Inv region s₀ m) (i : ι) (c : C) : Inv region s₀ (m.call i c) := by
  unfold Cores.call
  cases hplace : m.place i with
  | outside =>
      have hwaiting : ∀ j, ¬ (m.place j).Holds → ¬ ((m.moved i (.spinning c)).place j).Holds := by
        intro j hj
        by_cases hij : j = i
        · subst hij
          rw [moved_self]
          exact fun h => h
        · rw [moved_ne m _ hij]
          exact hj
      cases h with
      | free lock waiting serial => exact .free lock (fun j => hwaiting j (waiting j)) serial
      | held k s₁ lock waiting serial begun =>
          have hki : k ≠ i := by
            intro heq
            rw [heq, hplace] at begun
            exact begun
          refine .held k s₁ lock (fun j hj => hwaiting j (waiting j hj)) serial ?_
          rw [moved_ne m _ hki]
          exact begun
  | spinning call => exact h
  | inside call l => exact h
  | leaving call r => exact h

theorem Inv.tick (h : Inv region s₀ m) (i : ι) : Inv region s₀ (m.tick region i) := by
  cases hplace : m.place i with
  | outside =>
      rw [tick_outside hplace]
      exact h
  | spinning call =>
      cases h with
      | free lock waiting serial =>
          rw [tick_take hplace lock]
          refine .held i m.shared rfl (waiting_moved (fun j _ => waiting j) _) serial ?_
          change Begun region m.shared m.shared ((m.moved i _).place i)
          rw [moved_self]
          exact fun s' r hruns => hruns
      | held k s₁ lock waiting serial begun =>
          rw [tick_taken hplace (by rw [lock]; decide)]
          exact .held k s₁ lock waiting serial begun
  | inside call l =>
      obtain ⟨lock, waiting, s₁, serial, begun⟩ := h.of_holds (i := i) (by rw [hplace]; trivial)
      rw [hplace] at begun
      cases hstep : region.step m.shared l with
      | mk s next =>
          cases next with
          | inl l₁ =>
              rw [tick_go hplace hstep]
              refine .held i s₁ lock (waiting_moved waiting _) serial ?_
              change Begun region s₁ s ((m.moved i _).place i)
              rw [moved_self]
              exact fun s' r hruns => begun s' r (.go hstep hruns)
          | inr r =>
              rw [tick_leave hplace hstep]
              refine .held i s₁ lock (waiting_moved waiting _) serial ?_
              change Begun region s₁ s ((m.moved i _).place i)
              rw [moved_self]
              exact begun s r (.leave hstep)
  | leaving call r =>
      obtain ⟨lock, waiting, s₁, serial, begun⟩ := h.of_holds (i := i) (by rw [hplace]; trivial)
      rw [hplace] at begun
      rw [tick_release hplace lock]
      refine .free rfl (fun j => ?_) (serial.snoc begun)
      by_cases hj : j = i
      · subst hj
        change ¬ ((m.moved j .outside).place j).Holds
        rw [moved_self]
        exact fun h => h
      · exact waiting_moved waiting _ j hj

theorem Inv.step (h : Inv region s₀ m) (a : CoreStep ι C) : Inv region s₀ (m.step region a) := by
  cases a with
  | call i c => exact h.call i c
  | tick i => exact h.tick i

/-- The calls that are under way or have returned. -/
def AllCalls (Q : C → Prop) (m : Cores ι σ C L R) : Prop :=
  (∀ i, ∀ c ∈ (m.place i).call?, Q c) ∧ ∀ d ∈ m.done, Q d.2.1

omit [DecidableEq ι] in
theorem AllCalls.start (Q : C → Prop) (s₀ : σ) :
    AllCalls Q (Cores.start s₀ : Cores ι σ C L R) :=
  ⟨fun _ c hc => absurd hc (Option.not_mem_none c), fun _ hd => absurd hd List.not_mem_nil⟩

theorem AllCalls.moved {Q : C → Prop} (h : AllCalls Q m) (i : ι) {place : Place C L R}
    (hplace : ∀ c ∈ place.call?, Q c) : AllCalls Q (m.moved i place) := by
  refine ⟨fun j c hc => ?_, h.2⟩
  by_cases hj : j = i
  · subst hj
    rw [moved_self] at hc
    exact hplace c hc
  · rw [moved_ne m place hj] at hc
    exact h.1 j c hc

/-- No call comes from anywhere else than the cores. -/
theorem AllCalls.step {Q : C → Prop} (h : AllCalls Q m) (a : CoreStep ι C)
    (ha : ∀ i c, a = .call i c → Q c) : AllCalls Q (m.step region a) := by
  cases a with
  | call i c =>
      simp only [Cores.step, Cores.call]
      split
      · exact h.moved i fun c' hc' => Option.mem_some.mp hc' ▸ ha i c rfl
      · exact h
  | tick i =>
      have hcall := h.1 i
      cases hplace : m.place i with
      | outside =>
          rw [Cores.step, tick_outside hplace]
          exact h
      | spinning call =>
          rw [hplace] at hcall
          by_cases hlock : m.lock = 0
          · rw [Cores.step, tick_take hplace hlock]
            exact h.moved i hcall
          · rw [Cores.step, tick_taken hplace hlock]
            exact h
      | inside call l =>
          rw [hplace] at hcall
          cases hstep : region.step m.shared l with
          | mk s next =>
              cases next with
              | inl l₁ =>
                  rw [Cores.step, tick_go hplace hstep]
                  exact h.moved i hcall
              | inr r =>
                  rw [Cores.step, tick_leave hplace hstep]
                  exact h.moved i hcall
      | leaving call r =>
          rw [hplace] at hcall
          have hnone : ∀ c ∈ (Place.outside : Place C L R).call?, Q c :=
            fun c hc => absurd hc (Option.not_mem_none c)
          have hout := h.moved i hnone
          rw [Cores.step, tick, hplace]
          refine ⟨hout.1, List.forall_mem_append.mpr ⟨h.2, ?_⟩⟩
          exact List.forall_mem_singleton.mpr (hcall call rfl)

theorem AllCalls.run {Q : C → Prop} (h : AllCalls Q m) (actions : List (CoreStep ι C))
    (hactions : ∀ i c, CoreStep.call i c ∈ actions → Q c) :
    AllCalls Q (actions.foldl (Cores.step region) m) := by
  induction actions generalizing m with
  | nil => exact h
  | cons a rest ih =>
      apply ih (h.step a fun i c ha => hactions i c (ha ▸ List.mem_cons_self))
      exact fun i c hc => hactions i c (List.mem_cons_of_mem a hc)

/-- Two cores never hold the lock at the same time. -/
theorem Inv.exclusive (h : Inv region s₀ m) (hi : (m.place i).Holds) (hj : (m.place j).Holds) :
    i = j := by
  obtain ⟨-, waiting, -⟩ := h.of_holds hj
  by_contra hne
  exact waiting i hne hi

omit [DecidableEq ι] in
/-- When no core holds the lock, the calls that have returned lead to the shared state. -/
theorem Inv.serial (h : Inv region s₀ m) : ∃ s₁, region.Serial s₀ m.done s₁ ∧
    ((∀ i, ¬ (m.place i).Holds) → s₁ = m.shared) := by
  cases h with
  | free lock waiting serial => exact ⟨m.shared, serial, fun _ => rfl⟩
  | held i s₁ lock waiting serial begun =>
      exact ⟨s₁, serial, fun hnone => absurd begun.holds (hnone i)⟩

/-- A call that is about to return is whole. -/
theorem Inv.leaving (h : Inv region s₀ m) {c : C} {r : R} (hi : m.place i = .leaving c r) :
    ∃ s₁, region.Serial s₀ m.done s₁ ∧ region.Runs s₁ (region.enter c) m.shared r := by
  obtain ⟨-, -, s₁, serial, begun⟩ := h.of_holds (i := i) (by rw [hi]; trivial)
  rw [hi] at begun
  exact ⟨s₁, serial, begun⟩

end Cores

/-- The steps that a call still takes at a place are bounded. -/
structure Region.Bounded {σ C L R : Type*} (region : Region σ C L R) (left : L → ℕ) : Prop where
  falls : ∀ {s l s' l'}, region.step s l = (s', .inl l') → left l' < left l

namespace Cores

variable {ι σ C L R : Type*} [DecidableEq ι] {region : Region σ C L R} {left : L → ℕ} {i j : ι}
  {m : Cores ι σ C L R}

/-- The steps until the core gives the lock back. -/
def remaining (left : L → ℕ) : Place C L R → ℕ
  | .outside | .spinning _ => 0
  | .inside _ l => left l + 2
  | .leaving _ _ => 1

/-- A step of the holder brings the release nearer. -/
theorem remaining_tick (h : region.Bounded left) (m : Cores ι σ C L R) (i : ι)
    (hi : (m.place i).Holds) :
    remaining left ((m.tick region i).place i) < remaining left (m.place i) := by
  cases hplace : m.place i with
  | outside =>
      rw [hplace] at hi
      exact hi.elim
  | spinning call =>
      rw [hplace] at hi
      exact hi.elim
  | inside call l =>
      cases hstep : region.step m.shared l with
      | mk s next =>
          cases next with
          | inl l₁ =>
              rw [tick_go hplace hstep]
              change remaining left ((m.moved i _).place i) < _
              rw [moved_self]
              have hfalls := h.falls hstep
              simp only [remaining]
              omega
          | inr r =>
              rw [tick_leave hplace hstep]
              change remaining left ((m.moved i _).place i) < _
              rw [moved_self]
              simp only [remaining]
              omega
  | leaving call r =>
      rw [tick, hplace]
      change remaining left ((m.moved i _).place i) < _
      rw [moved_self]
      exact Nat.zero_lt_one

/-- A core's tick does not move the others. -/
theorem tick_place_ne (m : Cores ι σ C L R) (hij : i ≠ j) :
    (m.tick region j).place i = m.place i := by
  cases hplace : m.place j with
  | outside => rw [tick_outside hplace]
  | spinning call =>
      by_cases hlock : m.lock = 0
      · rw [tick_take hplace hlock]
        exact moved_ne m _ hij
      · rw [tick_taken hplace hlock]
  | inside call l =>
      cases hstep : region.step m.shared l with
      | mk s next =>
          cases next with
          | inl l₁ =>
              rw [tick_go hplace hstep]
              exact moved_ne m _ hij
          | inr r =>
              rw [tick_leave hplace hstep]
              exact moved_ne m _ hij
  | leaving call r =>
      rw [tick, hplace]
      exact moved_ne m _ hij

/-- Until it leaves, a core stays in its call, and nothing is added to the calls that are done. -/
theorem tick_call (hi : ∀ c r, m.place i ≠ .leaving c r) :
    ((m.tick region i).place i).call? = (m.place i).call? ∧ (m.tick region i).done = m.done := by
  cases hplace : m.place i with
  | outside =>
      rw [tick_outside hplace, hplace]
      exact ⟨rfl, rfl⟩
  | spinning call =>
      by_cases hlock : m.lock = 0
      · rw [tick_take hplace hlock]
        change ((m.moved i _).place i).call? = _ ∧ _
        rw [moved_self]
        exact ⟨rfl, rfl⟩
      · rw [tick_taken hplace hlock, hplace]
        exact ⟨rfl, rfl⟩
  | inside call l =>
      cases hstep : region.step m.shared l with
      | mk s next =>
          cases next with
          | inl l₁ =>
              rw [tick_go hplace hstep]
              change ((m.moved i _).place i).call? = _ ∧ _
              rw [moved_self]
              exact ⟨rfl, rfl⟩
          | inr r =>
              rw [tick_leave hplace hstep]
              change ((m.moved i _).place i).call? = _ ∧ _
              rw [moved_self]
              exact ⟨rfl, rfl⟩
  | leaving call r => exact absurd hplace (hi call r)

/-- A new call does not move a core that holds the lock. -/
theorem call_place (m : Cores ι σ C L R) (j : ι) (c : C) (hi : (m.place i).Holds) :
    (m.call j c).place i = m.place i := by
  unfold Cores.call
  cases hplace : m.place j with
  | outside =>
      apply moved_ne
      intro heq
      rw [heq, hplace] at hi
      exact hi
  | spinning call => rfl
  | inside call l => rfl
  | leaving call r => rfl

/-- No step but its own moves a core that holds the lock. -/
theorem step_place_ne (m : Cores ι σ C L R) {a : CoreStep ι C} (ha : a ≠ .tick i)
    (hi : (m.place i).Holds) : (m.step region a).place i = m.place i := by
  cases a with
  | call j c => exact m.call_place j c hi
  | tick j => exact tick_place_ne m fun heq => ha (by rw [heq])

/-- The holder gives the lock back once it has taken its remaining steps, whatever the other
cores do in between. -/
theorem released [DecidableEq C] (h : region.Bounded left) {i : ι} (actions : List (CoreStep ι C))
    (m : Cores ι σ C L R) (hmany : remaining left (m.place i) ≤ actions.count (.tick i)) :
    ∃ reached, reached <+: actions ∧ ¬ ((reached.foldl (step region) m).place i).Holds := by
  induction actions generalizing m with
  | nil =>
      refine ⟨[], List.prefix_rfl, fun hi => ?_⟩
      have hzero : remaining left (m.place i) = 0 := Nat.le_zero.mp hmany
      have hfalls := remaining_tick h m i hi
      omega
  | cons a rest ih =>
      by_cases hi : (m.place i).Holds
      · have hrest : remaining left ((m.step region a).place i) ≤ rest.count (.tick i) := by
          by_cases ha : a = .tick i
          · subst ha
            have hfalls := remaining_tick h m i hi
            rw [List.count_cons_self] at hmany
            change remaining left ((m.tick region i).place i) ≤ _
            omega
          · rw [step_place_ne m ha hi]
            rwa [List.count_cons_of_ne ha] at hmany
        obtain ⟨reached, hreached, hout⟩ := ih (m.step region a) hrest
        exact ⟨a :: reached, List.cons_prefix_cons.mpr ⟨rfl, hreached⟩, hout⟩
      · exact ⟨[], List.nil_prefix, hi⟩

end Cores

end Tellurium.Lib
