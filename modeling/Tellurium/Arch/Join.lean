import Tellurium.Arch.Placement

/-!
Joining threads (`schedule_thread_join`, `schedule_thread_terminate`). A join names the
thread it waits for, registers in the table under the lock, yields, and is taken off its core
by the IPI; a termination wakes the table's matching entries under the lock, yields, and is
taken off by the IPI as a zombie. Any number of cores take these steps in any order, and idle
cores and the timer switch threads in between. Interrupts are off from the start of either
call to its yield, which stops the timer, so the timer acts on cores that run neither.
-/

namespace Tellurium.Arch

open Tellurium.Lib

/-- What a core is executing: ordinary code, a join before its region, or either call before
and after it has sent the IPI. -/
inductive Phase where
  | run
  | named
  | yielding (cause : YieldCause)
  | yielded (cause : YieldCause)
  deriving Repr, DecidableEq

structure JoinState extends Scheduler where
  phase : Nat → Phase

def JoinState.setPhase (s : JoinState) (core : Nat) (phase : Phase) : JoinState :=
  {s with phase := Function.update s.phase core phase}

inductive JoinAction where
  | spawn
  | dispatch (core : Nat)
  | timer (core : Nat)
  | call (core threadToWaitOn : Nat)
  | register (core : Nat)
  | terminate (core : Nat)
  | yield (core : Nat)
  | ipi (core : Nat)
  deriving Repr, DecidableEq

/-- The thread that the current thread of a core is about to join. -/
def joinTarget (s : Scheduler) (core : Nat) : Option Nat :=
  (s.current core).bind fun t => (s.threads t).joinThread

/-- The target is a zombie already, so the join returns. -/
def targetGone (s : Scheduler) (core : Nat) : Bool :=
  match joinTarget s core with
  | none => false
  | some target => (s.threads target).state = .zombie

def joinStep (s : JoinState) : JoinAction → JoinState
  | .spawn => {s with toScheduler := spawnThread s.toScheduler}
  | .dispatch core =>
      if s.current core = none then {s with toScheduler := scheduleNextThread s.toScheduler core}
      else s
  | .timer core =>
      if s.phase core = .run then {s with toScheduler := lapicTimeHandler s.toScheduler core} else s
  | .call core threadToWaitOn =>
      if s.phase core = .run ∧ s.current core ≠ none then
        JoinState.setPhase {s with toScheduler := setJoinThread s.toScheduler core threadToWaitOn}
          core .named
      else s
  | .register core =>
      if s.phase core = .named then
        if targetGone s.toScheduler core then s.setPhase core .run
        else JoinState.setPhase {s with toScheduler := joinRegister s.toScheduler core} core
          (.yielding .join)
      else s
  | .terminate core =>
      match s.current core with
      | none => s
      | some thread =>
          if s.phase core = .run then
            JoinState.setPhase {s with toScheduler := wakeJoined s.toScheduler thread} core
              (.yielding .terminate)
          else s
  | .yield core =>
      match s.phase core with
      | .yielding cause =>
          JoinState.setPhase {s with toScheduler := scheduleThreadYield s.toScheduler core cause}
            core (.yielded cause)
      | _ => s
  | .ipi core =>
      match s.phase core with
      | .yielded _ =>
          JoinState.setPhase {s with toScheduler := lapicIpiHandler s.toScheduler core} core .run
      | _ => s

def initJoin : JoinState := {initScheduler with phase := fun _ => .run}

/-- No thread that waits for a zombie is left behind outside the ready queue. -/
def JoinNotMissed (s : Scheduler) : Prop :=
  ∀ t thread, (s.threads t).joinThread = some thread → (s.threads thread).state = .zombie →
    (s.threads t).state = .joined → s.ready.Mem t

/-- The thread has not run its wake loop. -/
def Alive (s : JoinState) (thread : Nat) : Prop :=
  (s.threads thread).state ≠ .zombie ∧ ∀ core, s.current core = some thread →
    s.phase core ≠ .yielding .terminate ∧ s.phase core ≠ .yielded .terminate

/-- A join that finds its target not yet a zombie finds it before its wake loop and finds a
free entry of the table; a termination finds its joiners off their cores. -/
def JoinInTime (s : JoinState) : JoinAction → Prop
  | .register core => s.phase core = .named → targetGone s.toScheduler core = false →
      (∃ thread, joinTarget s.toScheduler core = some thread ∧ Alive s thread) ∧
        none ∈ s.joinedThreads
  | .terminate core => ∀ thread, s.current core = some thread → s.phase core = .run →
      ∀ i, i < queueMax → ∀ t, joinerAt s.toScheduler thread i = some t →
        (s.threads t).state = .joined
  | _ => True

/-- The thread is in the table, and what it waits for has not run its wake loop. -/
def Registered (s : JoinState) (t : Nat) : Prop :=
  some t ∈ s.joinedThreads ∧ ∃ thread, (s.threads t).joinThread = some thread ∧ Alive s thread

structure JoinInv (s : JoinState) (l : List Nat) : Prop where
  placed : Placed s.toScheduler l
  table : s.joinedThreads.length = queueMax
  running : ∀ c t, s.current c = some t → (s.threads t).state = .running
  queued : ∀ t ∈ l, (s.threads t).state ≠ .joined ∧ (s.threads t).state ≠ .zombie
  idle : ∀ c, s.current c = none → s.phase c = .run
  waits : ∀ c t, s.current c = some t → s.phase c = .yielding .join ∨ s.phase c = .yielded .join →
    Registered s t
  cause : ∀ c t cause, s.current c = some t → s.phase c = .yielded cause →
    (s.threads t).yieldCause = some cause
  joined : ∀ t, (s.threads t).state = .joined → Registered s t

section Joins

variable {s s' : JoinState} {l : List Nat} {t core thread : Nat}

theorem Alive.mono (h : Alive s thread)
    (hstate : (s'.threads thread).state = .zombie → (s.threads thread).state = .zombie)
    (hphase : ∀ c, s'.current c = some thread →
      (s.current c = some thread ∧ s'.phase c = s.phase c) ∨ s'.phase c = .run ∨
        s'.phase c = .named ∨ s'.phase c = .yielding .join ∨ s'.phase c = .yielded .join) :
    Alive s' thread := by
  refine ⟨fun hz => h.1 (hstate hz), fun c hc => ?_⟩
  rcases hphase c hc with ⟨hold, hsame⟩ | hrun | hnamed | hjoin | hjoin
  · rw [hsame]
    exact h.2 c hold
  · simp [hrun]
  · simp [hnamed]
  · simp [hjoin]
  · simp [hjoin]

theorem Registered.mono (h : Registered s t) (hslot : some t ∈ s.joinedThreads → some t ∈ s'.joinedThreads)
    (hjoin : (s'.threads t).joinThread = (s.threads t).joinThread)
    (halive : ∀ thread, Alive s thread → Alive s' thread) : Registered s' t := by
  obtain ⟨hmem, thread, hthread, hlive⟩ := h
  exact ⟨hslot hmem, thread, hjoin.trans hthread, halive thread hlive⟩

/-- No zombie is waited for. -/
theorem JoinInv.notMissed (h : JoinInv s l) : JoinNotMissed s.toScheduler := by
  intro t thread hjoin hzombie hjoined
  obtain ⟨-, thread', hjoin', hlive⟩ := h.joined t hjoined
  obtain rfl := Option.some.inj (hjoin.symm.trans hjoin')
  exact absurd hzombie hlive.1

/-- An idle core takes the next thread. -/
theorem JoinInv.next (h : JoinInv s l) (hcore : s.current core = none) :
    JoinInv {s with toScheduler := scheduleNextThread s.toScheduler core} l.tail := by
  have hplaced := h.placed.next core
  have hrun := h.idle core hcore
  cases l with
  | nil =>
      have heq : scheduleNextThread s.toScheduler core = s.toScheduler := by
        rw [scheduleNextThread_nil h.placed, Scheduler.setCurrent, ← hcore,
          Function.update_eq_self]
      rw [heq]
      exact h
  | cons t l =>
      obtain ⟨ready, hready, heq⟩ := scheduleNextThread_cons h.placed core
      rw [heq] at hplaced ⊢
      have hstate : ∀ u, ((threadEntry {s.toScheduler with ready} core t).threads u).state =
          if u = t then .running else (s.threads u).state := by
        intro u
        rw [threadEntry_threads]
        split <;> rfl
      have hsame : ∀ u, ((threadEntry {s.toScheduler with ready} core t).threads u).joinThread =
            (s.threads u).joinThread ∧
          ((threadEntry {s.toScheduler with ready} core t).threads u).yieldCause =
            (s.threads u).yieldCause := by
        intro u
        rw [threadEntry_threads]
        split
        · rename_i hut
          rw [hut]
          exact ⟨rfl, rfl⟩
        · exact ⟨rfl, rfl⟩
      have halive : ∀ thread, Alive s thread →
          Alive {s with toScheduler := threadEntry {s.toScheduler with ready} core t} thread := by
        intro thread hlive
        apply hlive.mono
        · intro hz
          rw [hstate] at hz
          split at hz
          · cases hz
          · exact hz
        · intro c hc
          rw [threadEntry_current] at hc
          split at hc
          · rename_i hcc
            exact .inr (.inl (hcc ▸ hrun))
          · exact .inl ⟨hc, rfl⟩
      have hregistered : ∀ u, Registered s u →
          Registered {s with toScheduler := threadEntry {s.toScheduler with ready} core t} u :=
        fun u hu => hu.mono id (hsame u).1 halive
      refine ⟨hplaced, h.table, fun c u hc => ?_, fun u hu => ?_, fun c hc => ?_,
        fun c u hc hphase => ?_, fun c u cause hc hphase => ?_, fun u hu => ?_⟩
      · rw [hstate]
        rw [threadEntry_current] at hc
        split at hc
        · rw [if_pos (Option.some.inj hc).symm]
        · split
          · rfl
          · exact h.running c u hc
      · rw [hstate]
        split
        · simp
        · exact h.queued u (List.mem_cons_of_mem _ hu)
      · rw [threadEntry_current] at hc
        split at hc
        · cases hc
        · exact h.idle c hc
      · rw [threadEntry_current] at hc
        split at hc
        · rename_i hcc
          rw [hcc, hrun] at hphase
          simp at hphase
        · exact hregistered u (h.waits c u hc hphase)
      · rw [threadEntry_current] at hc
        split at hc
        · rename_i hcc
          rw [hcc, hrun] at hphase
          cases hphase
        · rw [(hsame u).2]
          exact h.cause c u cause hc hphase
      · rw [hstate] at hu
        split at hu
        · cases hu
        · exact hregistered u (h.joined u hu)

/-- The timer puts the thread of a core into the queue. -/
theorem JoinInv.requeue (h : JoinInv s l) (hcur : s.current core = some t)
    (hrun : s.phase core = .run) :
    ∃ l', JoinInv ⟨scheduleAddThread (s.toScheduler.setCurrent core none) t, s.phase⟩ l' := by
  have hplaced := (h.placed.clear core).add (h.placed.current_lt core t hcur)
    (h.placed.current_awake core t hcur) (h.placed.clear_free hcur)
  have halive : ∀ thread, Alive s thread →
      Alive ⟨scheduleAddThread (s.toScheduler.setCurrent core none) t, s.phase⟩ thread :=
    fun thread hlive => hlive.mono id fun c hc => .inl ⟨(current_of_setCurrent_none hc).2, rfl⟩
  have hregistered : ∀ u, Registered s u →
      Registered ⟨scheduleAddThread (s.toScheduler.setCurrent core none) t, s.phase⟩ u :=
    fun u hu => hu.mono id rfl halive
  refine ⟨_, hplaced, h.table, fun c u hc => ?_, fun u hu => ?_, fun c hc => ?_,
    fun c u hc hphase => ?_, fun c u cause hc hphase => ?_, fun u hu => hregistered u (h.joined u hu)⟩
  · exact h.running c u (current_of_setCurrent_none hc).2
  · rcases List.mem_append.mp hu with hold | hnew
    · exact h.queued u ((List.takeWhile_sublist _).subset hold)
    · have hstate : (s.threads u).state = .running := by
        rw [List.mem_singleton.mp hnew]
        exact h.running core t hcur
      simp [scheduleAddThread, Scheduler.setCurrent, hstate]
  · by_cases hcc : c = core
    · rw [hcc]
      exact hrun
    · apply h.idle c
      simpa [scheduleAddThread, Scheduler.setCurrent, hcc] using hc
  · exact hregistered u (h.waits c u (current_of_setCurrent_none hc).2 hphase)
  · exact h.cause c u cause (current_of_setCurrent_none hc).2 hphase

/-- The IPI takes a thread off its core and gives it the state of its cause. -/
theorem JoinInv.retire (h : JoinInv s l) {cause : YieldCause} (hcur : s.current core = some t)
    (hphase : s.phase core = .yielded cause) :
    JoinInv ⟨(s.toScheduler.setState t cause.state).setCurrent core none,
      Function.update s.phase core .run⟩ l := by
  obtain ⟨s', hs'⟩ : ∃ s' : JoinState, ⟨(s.toScheduler.setState t cause.state).setCurrent core none,
      Function.update s.phase core .run⟩ = s' := ⟨_, rfl⟩
  have hthread : ∀ u, s'.threads u =
      if u = t then {s.threads t with state := cause.state} else s.threads u := by
    intro u
    rw [← hs']
    simp only [Scheduler.setCurrent, Scheduler.setState, Scheduler.modify]
    split
    · rename_i heq
      rw [heq, Function.update_self]
    · rename_i hne
      rw [Function.update_of_ne hne]
  have hcurrent : ∀ c u, s'.current c = some u → c ≠ core ∧ s.current c = some u := by
    intro c u hc
    rw [← hs'] at hc
    exact current_of_setCurrent_none hc
  have hfree : ∀ c u, s'.current c = some u → u ≠ t := by
    rintro c u hc rfl
    obtain ⟨hne, hold⟩ := hcurrent c u hc
    exact hne (h.placed.current_once c core u hold hcur)
  have hphases : ∀ c, c ≠ core → s'.phase c = s.phase c := by
    intro c hc
    rw [← hs']
    exact Function.update_of_ne hc _ _
  have halive : ∀ thread, Alive s thread → Alive s' thread := by
    intro thread hlive
    apply hlive.mono
    · intro hz
      rw [hthread] at hz
      split at hz
      · rename_i heq
        subst heq
        cases cause with
        | terminate => exact absurd hphase (hlive.2 core hcur).2
        | wait => cases hz
        | join => cases hz
      · exact hz
    · intro c hc
      obtain ⟨hne, hold⟩ := hcurrent c thread hc
      exact .inl ⟨hold, hphases c hne⟩
  have hregistered : ∀ u, Registered s u → Registered s' u := by
    intro u hu
    apply hu.mono _ _ halive
    · rw [← hs']
      exact id
    · rw [hthread]
      split
      · rename_i heq
        rw [heq]
      · rfl
  have hplaced : Placed s'.toScheduler l := by
    rw [← hs']
    show Placed ((s.toScheduler.setCurrent core none).modify t fun thread =>
      {thread with state := cause.state}) l
    exact (h.placed.clear core).modify
      fun _ => ⟨h.placed.clear_free hcur, h.placed.current_apart core t hcur⟩
  rw [hs']
  refine ⟨hplaced, ?_, fun c u hc => ?_, fun u hu => ?_, fun c hc => ?_, fun c u hc hp => ?_,
    fun c u cause' hc hp => ?_, fun u hu => ?_⟩
  · rw [← hs']
    exact h.table
  · rw [hthread, if_neg (hfree c u hc)]
    exact h.running c u (hcurrent c u hc).2
  · have hne : u ≠ t := fun heq => h.placed.current_apart core t hcur (heq ▸ hu)
    rw [hthread, if_neg hne]
    exact h.queued u hu
  · by_cases hcc : c = core
    · rw [hcc, ← hs']
      exact Function.update_self ..
    · rw [hphases c hcc]
      apply h.idle c
      rw [← hs'] at hc
      simpa [Scheduler.setCurrent, Scheduler.setState, Scheduler.modify, hcc] using hc
  · obtain ⟨hne, hold⟩ := hcurrent c u hc
    rw [hphases c hne] at hp
    exact hregistered u (h.waits c u hold hp)
  · obtain ⟨hne, hold⟩ := hcurrent c u hc
    rw [hphases c hne] at hp
    rw [hthread, if_neg (hfree c u hc)]
    exact h.cause c u cause' hold hp
  · rw [hthread] at hu
    split at hu
    · rename_i heq
      have hjoin : cause = .join := by
        cases cause with
        | join => rfl
        | wait => cases hu
        | terminate => cases hu
      rw [heq]
      exact hregistered t (h.waits core t hcur (.inr (hjoin ▸ hphase)))
    · exact hregistered u (h.joined u hu)

/-- The current thread of a core changes its `join_thread` or `yield_cause` and the core its
phase. -/
theorem JoinInv.proceed (h : JoinInv s l) {f : Thread → Thread} (phase : Phase)
    (hcur : s.current core = some t) (hf : ∀ thread, (f thread).state = thread.state)
    (hjoin : phase = .yielding .join ∨ phase = .yielded .join →
      (f (s.threads t)).joinThread = (s.threads t).joinThread ∧ Registered s t)
    (hcause : ∀ cause, phase = .yielded cause → (f (s.threads t)).yieldCause = some cause)
    (hterm : phase = .yielding .terminate ∨ phase = .yielded .terminate →
      s.phase core = .yielding .terminate ∨ s.phase core = .yielded .terminate) :
    JoinInv ⟨s.toScheduler.modify t f, Function.update s.phase core phase⟩ l := by
  obtain ⟨s', hs'⟩ : ∃ s' : JoinState,
      ⟨s.toScheduler.modify t f, Function.update s.phase core phase⟩ = s' := ⟨_, rfl⟩
  have hcurrent : s'.current = s.current := by rw [← hs']; rfl
  have htable : s'.joinedThreads = s.joinedThreads := by rw [← hs']; rfl
  have hother : ∀ u, u ≠ t → s'.threads u = s.threads u := by
    intro u hu
    rw [← hs']
    exact modify_threads_of_ne s.toScheduler f hu
  have hthis : s'.threads t = f (s.threads t) := by
    rw [← hs']
    exact modify_threads_same s.toScheduler t f
  have hstate : ∀ u, (s'.threads u).state = (s.threads u).state := by
    intro u
    by_cases hut : u = t
    · rw [hut, hthis, hf]
    · rw [hother u hut]
  have hphases : ∀ c, c ≠ core → s'.phase c = s.phase c := by
    intro c hc
    rw [← hs']
    exact Function.update_of_ne hc _ _
  have hphase : s'.phase core = phase := by
    rw [← hs']
    exact Function.update_self ..
  have halive : ∀ thread, Alive s thread → Alive s' thread := by
    intro thread hlive
    refine ⟨by rw [hstate]; exact hlive.1, fun c hc => ?_⟩
    rw [hcurrent] at hc
    by_cases hcc : c = core
    · rw [hcc] at hc ⊢
      rw [hphase, ← not_or]
      intro hdying
      rcases hterm hdying with hold | hold
      · exact (hlive.2 core hc).1 hold
      · exact (hlive.2 core hc).2 hold
    · rw [hphases c hcc]
      exact hlive.2 c hc
  have hregistered : ∀ u, u ≠ t → Registered s u → Registered s' u := by
    intro u hut hu
    exact hu.mono (by rw [htable]; exact id) (by rw [hother u hut]) halive
  have hrunning := h.running core t hcur
  have hone : ∀ c u, s.current c = some u → c ≠ core → u ≠ t := by
    rintro c u hc hne rfl
    exact hne (h.placed.current_once c core u hc hcur)
  have hplaced : Placed s'.toScheduler l := by
    rw [← hs']
    exact h.placed.modify_keep hf
  rw [hs']
  refine ⟨hplaced, by rw [htable]; exact h.table, fun c u hc => ?_, fun u hu => ?_, fun c hc => ?_,
    fun c u hc hp => ?_, fun c u cause hc hp => ?_, fun u hu => ?_⟩
  · rw [hcurrent] at hc
    rw [hstate]
    exact h.running c u hc
  · rw [hstate]
    exact h.queued u hu
  · rw [hcurrent] at hc
    have hcc : c ≠ core := by
      rintro rfl
      rw [hcur] at hc
      cases hc
    rw [hphases c hcc]
    exact h.idle c hc
  · rw [hcurrent] at hc
    by_cases hcc : c = core
    · rw [hcc, hphase] at hp
      obtain rfl : u = t := by
        rw [hcc] at hc
        exact Option.some.inj (hc.symm.trans hcur)
      obtain ⟨hsame, hu⟩ := hjoin hp
      exact hu.mono (by rw [htable]; exact id) (by rw [hthis, hsame]) halive
    · rw [hphases c hcc] at hp
      exact hregistered u (hone c u hc hcc) (h.waits c u hc hp)
  · rw [hcurrent] at hc
    by_cases hcc : c = core
    · rw [hcc, hphase] at hp
      obtain rfl : u = t := by
        rw [hcc] at hc
        exact Option.some.inj (hc.symm.trans hcur)
      rw [hthis]
      exact hcause cause hp
    · rw [hphases c hcc] at hp
      rw [hother u (hone c u hc hcc)]
      exact h.cause c u cause hc hp
  · rw [hstate] at hu
    have hut : u ≠ t := by
      rintro rfl
      rw [hrunning] at hu
      cases hu
    exact hregistered u hut (h.joined u hu)

theorem mem_set_of_free {slots : List (Option Nat)} {i u : Nat} {x : Option Nat}
    (hi : slots[i]? = some none) (hu : some u ∈ slots) : some u ∈ slots.set i x := by
  obtain ⟨j, hj⟩ := List.mem_iff_getElem?.mp hu
  have hne : i ≠ j := by
    rintro rfl
    rw [hi] at hj
    cases hj
  exact List.mem_iff_getElem?.mpr ⟨j, by rw [List.getElem?_set_ne hne, hj]⟩

/-- A join that has found a free entry of the table. -/
theorem JoinInv.enroll (h : JoinInv s l) {i : Nat} (hcur : s.current core = some t)
    (hjoin : (s.threads t).joinThread = some thread) (hlive : Alive s thread)
    (hi : s.joinedThreads[i]? = some none) :
    JoinInv ⟨{s.toScheduler with joinedThreads := s.joinedThreads.set i (some t)},
      Function.update s.phase core (.yielding .join)⟩ l := by
  obtain ⟨s', hs'⟩ : ∃ s' : JoinState,
      ⟨{s.toScheduler with joinedThreads := s.joinedThreads.set i (some t)}, s.phase⟩ = s' :=
    ⟨_, rfl⟩
  have hlt := (List.getElem?_eq_some_iff.mp hi).1
  have halive : ∀ thread, Alive s thread → Alive s' thread := by
    intro thread hlive
    rw [← hs']
    exact ⟨hlive.1, hlive.2⟩
  have hregistered : ∀ u, Registered s u → Registered s' u := by
    intro u hu
    apply hu.mono _ (by rw [← hs']) halive
    rw [← hs']
    exact mem_set_of_free hi
  have hinv : JoinInv s' l := by
    refine ⟨?_, ?_, ?_, ?_, ?_, fun c u hc hp => ?_, ?_, fun u hu => ?_⟩
    · rw [← hs']
      refine ⟨h.placed.1, h.placed.2, h.placed.3, h.placed.4, h.placed.5, h.placed.6, h.placed.7,
        fun u hu => ?_, h.placed.9⟩
      rcases List.mem_or_eq_of_mem_set hu with hold | hnew
      · exact h.placed.joined_lt u hold
      · exact Option.some.inj hnew ▸ h.placed.current_lt core t hcur
    · rw [← hs']
      exact (List.length_set ..).trans h.table
    · rw [← hs']
      exact h.running
    · rw [← hs']
      exact h.queued
    · rw [← hs']
      exact h.idle
    · rw [← hs'] at hc hp
      exact hregistered u (h.waits c u hc hp)
    · rw [← hs']
      exact h.cause
    · rw [← hs'] at hu
      exact hregistered u (h.joined u hu)
  have hself : Registered s' t := by
    refine ⟨?_, thread, by rw [← hs']; exact hjoin, halive thread hlive⟩
    rw [← hs']
    exact List.mem_iff_getElem?.mpr ⟨i, List.getElem?_set_self hlt⟩
  have hproceed := hinv.proceed (f := id) (t := t) (.yielding .join)
    (by rw [← hs']; exact hcur) (fun _ => rfl) (fun _ => ⟨rfl, hself⟩) (fun _ hp => nomatch hp)
    (fun hp => by simp at hp)
  rw [← hs'] at hproceed
  have hid : Scheduler.modify {s.toScheduler with joinedThreads := s.joinedThreads.set i (some t)} t
      id = {s.toScheduler with joinedThreads := s.joinedThreads.set i (some t)} := by
    simp [Scheduler.modify]
  rwa [hid] at hproceed

/-- The state in the middle of the wake loop, with the slots visited so far. -/
structure WakeUp (s₀ s : Scheduler) (thread : Nat) (visited : List Nat) (l : List Nat) : Prop where
  placed : Placed s l
  queued : ∀ t ∈ l, (s.threads t).state ≠ .joined ∧ (s.threads t).state ≠ .zombie
  current : s.current = s₀.current
  table : s.joinedThreads.length = s₀.joinedThreads.length
  fields : ∀ t, (s.threads t).joinThread = (s₀.threads t).joinThread ∧
    (s.threads t).yieldCause = (s₀.threads t).yieldCause
  states : ∀ t, (s.threads t).state = (s₀.threads t).state ∨
    (s.threads t).state = .runnable ∧ (s₀.threads t).state = .joined
  kept : ∀ t, some t ∈ s₀.joinedThreads → (s₀.threads t).joinThread ≠ some thread →
    some t ∈ s.joinedThreads
  unvisited : ∀ i, i ∉ visited → joinerAt s thread i = joinerAt s₀ thread i
  woken : ∀ i ∈ visited, ∀ t, joinerAt s₀ thread i = some t → (s.threads t).state = .runnable

theorem joinerAt_slot {s : Scheduler} {i : Nat} (h : joinerAt s thread i = some t) :
    s.joinedThreads[i]? = some (some t) ∧ (s.threads t).joinThread = some thread := by
  unfold joinerAt at h
  rw [List.getD_eq_getElem?_getD] at h
  cases hslot : s.joinedThreads[i]? with
  | none => simp [hslot] at h
  | some slot =>
      cases slot with
      | none => simp [hslot] at h
      | some u =>
          simp only [hslot, Option.getD_some] at h
          split at h
          · rename_i hjoin
            obtain rfl := Option.some.inj h
            exact ⟨rfl, hjoin⟩
          · cases h

theorem WakeUp.slot {s₀ s : Scheduler} {visited : List Nat} {i : Nat}
    (h : WakeUp s₀ s thread visited l) (hi : i ∉ visited)
    (hrunning : ∀ c t, s₀.current c = some t → (s₀.threads t).state = .running)
    (hjoined : ∀ t, joinerAt s₀ thread i = some t → (s₀.threads t).state = .joined) :
    ∃ l', WakeUp s₀ (wakeSlot thread s i) thread (visited ++ [i]) l' := by
  have hsame := h.unvisited i hi
  cases hjoiner : joinerAt s thread i with
  | none =>
      have heq : wakeSlot thread s i = s := by simp only [wakeSlot, hjoiner]
      rw [heq]
      refine ⟨l, h.1, h.2, h.3, h.4, h.5, h.6, h.7,
        fun j hj => h.unvisited j fun hmem => hj (List.mem_append_left _ hmem), fun j hj t ht => ?_⟩
      rcases List.mem_append.mp hj with hold | hnew
      · exact h.woken j hold t ht
      · rw [List.mem_singleton.mp hnew, ← hsame, hjoiner] at ht
        cases ht
  | some t =>
      obtain ⟨hslot, hjoin⟩ := joinerAt_slot hjoiner
      have hstate₀ := hjoined t (hsame ▸ hjoiner)
      have hfree : ∀ c, s.current c ≠ some t := by
        intro c hc
        rw [h.current] at hc
        rw [hrunning c t hc] at hstate₀
        cases hstate₀
      have hmem : some t ∈ s.joinedThreads := List.mem_of_getElem? hslot
      have hwake := h.placed.wake (h.placed.joined_lt t hmem) hfree
        (f := fun thread => {thread with state := .runnable}) rfl
      have hthis : (wakeSlot thread s i).threads t = {s.threads t with state := .runnable} := by
        simp only [wakeSlot, hjoiner]
        exact modify_threads_same s t fun thread => {thread with state := .runnable}
      have hother : ∀ u, u ≠ t → (wakeSlot thread s i).threads u = s.threads u := by
        intro u hu
        simp only [wakeSlot, hjoiner]
        exact modify_threads_of_ne s (fun thread => {thread with state := .runnable}) hu
      have htable : (wakeSlot thread s i).joinedThreads = s.joinedThreads.set i none := by
        simp only [wakeSlot, hjoiner]
        rfl
      have hplaced : Placed (wakeSlot thread s i) (l.takeWhile (· ≠ t) ++ [t]) := by
        simp only [wakeSlot, hjoiner]
        refine ⟨hwake.1, hwake.2, hwake.3, hwake.4, hwake.5, hwake.6, hwake.7, fun u hu => ?_,
          hwake.9⟩
        rcases List.mem_or_eq_of_mem_set hu with hold | hnew
        · exact h.placed.joined_lt u hold
        · cases hnew
      refine ⟨_, hplaced, fun u hu => ?_, (wakeSlot_current i).trans h.current, ?_, fun u => ?_,
        fun u => ?_, fun u hu hne => ?_, fun j hj => ?_, fun j hj u hu => ?_⟩
      · by_cases hut : u = t
        · rw [hut, hthis]
          simp
        · rw [hother u hut]
          rcases List.mem_append.mp hu with hold | hnew
          · exact h.queued u ((List.takeWhile_sublist _).subset hold)
          · exact absurd (List.mem_singleton.mp hnew) hut
      · rw [htable, List.length_set, h.table]
      · by_cases hut : u = t
        · rw [hut, hthis]
          exact h.fields t
        · rw [hother u hut]
          exact h.fields u
      · by_cases hut : u = t
        · rw [hut, hthis]
          exact .inr ⟨rfl, hstate₀⟩
        · rw [hother u hut]
          exact h.states u
      · rw [htable]
        obtain ⟨j, hj⟩ := List.mem_iff_getElem?.mp (h.kept u hu hne)
        have hij : i ≠ j := by
          rintro rfl
          obtain rfl := Option.some.inj (Option.some.inj (hslot.symm.trans hj))
          exact hne ((h.fields t).1.symm.trans hjoin)
        exact List.mem_iff_getElem?.mpr ⟨j, by rw [List.getElem?_set_ne hij, hj]⟩
      · have hne : j ≠ i := fun heq => hj (by simp [heq])
        rw [joinerAt_wakeSlot hne]
        exact h.unvisited j fun hmem => hj (List.mem_append_left _ hmem)
      · by_cases hut : u = t
        · rw [hut, hthis]
        · rw [hother u hut]
          rcases List.mem_append.mp hj with hold | hnew
          · exact h.woken j hold u hu
          · rw [List.mem_singleton.mp hnew, ← hsame, hjoiner] at hu
            exact absurd (Option.some.inj hu).symm hut

theorem WakeUp.slots {s₀ s : Scheduler} {visited slots : List Nat}
    (h : WakeUp s₀ s thread visited l) (hnodup : slots.Nodup) (hnew : ∀ i ∈ slots, i ∉ visited)
    (hrunning : ∀ c t, s₀.current c = some t → (s₀.threads t).state = .running)
    (hjoined : ∀ i ∈ slots, ∀ t, joinerAt s₀ thread i = some t → (s₀.threads t).state = .joined) :
    ∃ l', WakeUp s₀ (slots.foldl (wakeSlot thread) s) thread (visited ++ slots) l' := by
  induction slots generalizing s visited l with
  | nil => exact ⟨l, by simpa using h⟩
  | cons i slots ih =>
      obtain ⟨hi, hnodup⟩ := List.nodup_cons.mp hnodup
      obtain ⟨l', h'⟩ := h.slot (hnew i (by simp)) hrunning (hjoined i (by simp))
      rw [List.append_cons]
      refine ih h' hnodup (fun j hj hmem => ?_) fun j hj => hjoined j (List.mem_cons_of_mem _ hj)
      rcases List.mem_append.mp hmem with hold | hsame
      · exact hnew j (List.mem_cons_of_mem _ hj) hold
      · exact hi (List.mem_singleton.mp hsame ▸ hj)

/-- The wake loop of a thread whose joiners are all off their cores. -/
theorem JoinInv.terminate (h : JoinInv s l) (hcur : s.current core = some thread)
    (hphase : s.phase core = .run)
    (hjoined : ∀ i, i < queueMax → ∀ t, joinerAt s.toScheduler thread i = some t →
      (s.threads t).state = .joined) :
    ∃ l', JoinInv ⟨wakeJoined s.toScheduler thread,
      Function.update s.phase core (.yielding .terminate)⟩ l' := by
  have hstart : WakeUp s.toScheduler s.toScheduler thread [] l :=
    ⟨h.placed, h.queued, rfl, rfl, fun _ => ⟨rfl, rfl⟩, fun _ => .inl rfl, fun _ ht _ => ht,
      fun _ _ => rfl, fun i hi => absurd hi (by simp)⟩
  have hslots := hstart.slots List.nodup_range (fun i _ => List.not_mem_nil) h.running
    fun i hi => hjoined i (List.mem_range.mp hi)
  rw [List.nil_append, ← wakeJoined] at hslots
  obtain ⟨l', hwake⟩ := hslots
  generalize wakeJoined s.toScheduler thread = awake at hwake ⊢
  obtain ⟨s', hs'⟩ : ∃ s' : JoinState,
      ⟨awake, Function.update s.phase core (.yielding .terminate)⟩ = s' := ⟨_, rfl⟩
  have hw : WakeUp s.toScheduler s'.toScheduler thread (List.range queueMax) l' := by
    rw [← hs']
    exact hwake
  have hphases : ∀ c, c ≠ core → s'.phase c = s.phase c := by
    intro c hc
    rw [← hs']
    exact Function.update_of_ne hc _ _
  have hphase' : s'.phase core = .yielding .terminate := by
    rw [← hs']
    exact Function.update_self ..
  have halive : ∀ u, u ≠ thread → Alive s u → Alive s' u := by
    intro u hu hlive
    apply hlive.mono
    · intro hz
      rcases hw.states u with hsame | ⟨hrunnable, -⟩
      · exact hsame ▸ hz
      · rw [hrunnable] at hz
        cases hz
    · intro c hc
      rw [hw.current] at hc
      have hcc : c ≠ core := by
        rintro rfl
        exact hu (Option.some.inj (hc.symm.trans hcur))
      exact .inl ⟨hc, hphases c hcc⟩
  -- Whoever is registered with the thread is in a slot that the loop visits.
  have hmatch : ∀ t, some t ∈ s.joinedThreads → (s.threads t).joinThread = some thread →
      ∃ i, i < queueMax ∧ joinerAt s.toScheduler thread i = some t := by
    intro t hmem hjoin
    obtain ⟨i, hi⟩ := List.mem_iff_getElem?.mp hmem
    have hlt := (List.getElem?_eq_some_iff.mp hi).1
    refine ⟨i, h.table ▸ hlt, ?_⟩
    simp [joinerAt, List.getD_eq_getElem?_getD, hi, hjoin]
  have hregistered : ∀ t, (s.threads t).joinThread ≠ some thread → Registered s t →
      Registered s' t := by
    rintro t hne ⟨hmem, target, htarget, hlive⟩
    have htt : target ≠ thread := fun heq => hne (heq ▸ htarget)
    exact ⟨hw.kept t hmem hne, target, (hw.fields t).1.trans htarget, halive target htt hlive⟩
  rw [hs']
  refine ⟨l', hw.placed, hw.table.trans h.table, fun c t hc => ?_, hw.queued, fun c hc => ?_,
    fun c t hc hp => ?_, fun c t cause hc hp => ?_, fun t ht => ?_⟩
  · rw [hw.current] at hc
    have hrunning := h.running c t hc
    rcases hw.states t with hsame | ⟨-, hold⟩
    · rw [hsame, hrunning]
    · rw [hrunning] at hold
      cases hold
  · rw [hw.current] at hc
    have hcc : c ≠ core := by
      rintro rfl
      rw [hcur] at hc
      cases hc
    rw [hphases c hcc]
    exact h.idle c hc
  · rw [hw.current] at hc
    have hcc : c ≠ core := by
      rintro rfl
      rw [hphase'] at hp
      simp at hp
    rw [hphases c hcc] at hp
    have hold := h.waits c t hc hp
    apply hregistered t _ hold
    intro hjoin
    obtain ⟨i, hi, hat⟩ := hmatch t hold.1 hjoin
    have hstate := hjoined i hi t hat
    rw [h.running c t hc] at hstate
    cases hstate
  · rw [hw.current] at hc
    have hcc : c ≠ core := by
      rintro rfl
      rw [hphase'] at hp
      cases hp
    rw [hphases c hcc] at hp
    rw [(hw.fields t).2]
    exact h.cause c t cause hc hp
  · rcases hw.states t with hsame | ⟨hrunnable, -⟩
    · rw [hsame] at ht
      have hold := h.joined t ht
      apply hregistered t _ hold
      intro hjoin
      obtain ⟨i, hi, hat⟩ := hmatch t hold.1 hjoin
      have hwoken := hw.woken i (List.mem_range.mpr hi) t hat
      rw [hsame, ht] at hwoken
      cases hwoken
    · rw [hrunnable] at ht
      cases ht

theorem JoinInv.spawn (h : JoinInv s l) :
    ∃ l', JoinInv {s with toScheduler := spawnThread s.toScheduler} l' := by
  obtain ⟨s', hs'⟩ : ∃ s' : JoinState, {s with toScheduler := spawnThread s.toScheduler} = s' :=
    ⟨_, rfl⟩
  have hnew : s'.threads s.nextThread = createThread := by
    rw [← hs']
    exact Function.update_self ..
  have hother : ∀ u, u ≠ s.nextThread → s'.threads u = s.threads u := by
    intro u hu
    rw [← hs']
    exact Function.update_of_ne hu _ _
  have hcurrent : s'.current = s.current := by rw [← hs']; rfl
  have hphase : s'.phase = s.phase := by rw [← hs']
  have htable : s'.joinedThreads = s.joinedThreads := by rw [← hs']; rfl
  have hold : ∀ c u, s.current c = some u → u ≠ s.nextThread :=
    fun c u hc => Nat.ne_of_lt (h.placed.current_lt c u hc)
  have halive : ∀ thread, Alive s thread → Alive s' thread := by
    intro thread hlive
    refine ⟨?_, by rw [hcurrent, hphase]; exact hlive.2⟩
    by_cases hthread : thread = s.nextThread
    · rw [hthread, hnew]
      simp [createThread]
    · rw [hother thread hthread]
      exact hlive.1
  have hregistered : ∀ u, u ≠ s.nextThread → Registered s u → Registered s' u := by
    intro u hu hreg
    exact hreg.mono (by rw [htable]; exact id) (by rw [hother u hu]) halive
  have hplaced := h.placed.spawn
  rw [hs']
  refine ⟨_, by rw [← hs']; exact hplaced, by rw [htable]; exact h.table, fun c u hc => ?_,
    fun u hu => ?_, by rw [hcurrent, hphase]; exact h.idle, fun c u hc hp => ?_,
    fun c u cause hc hp => ?_, fun u hu => ?_⟩
  · rw [hcurrent] at hc
    rw [hother u (hold c u hc)]
    exact h.running c u hc
  · by_cases hun : u = s.nextThread
    · rw [hun, hnew]
      simp [createThread]
    · rw [hother u hun]
      rcases List.mem_append.mp hu with hin | hlast
      · exact h.queued u ((List.takeWhile_sublist _).subset hin)
      · exact absurd (List.mem_singleton.mp hlast) hun
  · rw [hcurrent] at hc
    rw [hphase] at hp
    exact hregistered u (hold c u hc) (h.waits c u hc hp)
  · rw [hcurrent] at hc
    rw [hphase] at hp
    rw [hother u (hold c u hc)]
    exact h.cause c u cause hc hp
  · by_cases hun : u = s.nextThread
    · rw [hun, hnew] at hu
      cases hu
    · rw [hother u hun] at hu
      exact hregistered u hun (h.joined u hu)

theorem joinInv_init : JoinInv initJoin [] where
  placed := placed_init
  table := List.length_replicate
  running _ _ hc := absurd hc (by simp [initJoin, initScheduler])
  queued _ ht := absurd ht (by simp)
  idle _ _ := rfl
  waits _ _ hc := absurd hc (by simp [initJoin, initScheduler])
  cause _ _ _ hc := absurd hc (by simp [initJoin, initScheduler])
  joined _ ht := absurd ht (by simp [initJoin, initScheduler, createThread])

/-- The region of a join: the target is gone, or the thread gets an entry of the table. -/
theorem JoinInv.register (h : JoinInv s l) (hnamed : s.phase core = .named)
    (htime : JoinInTime s (.register core)) : JoinInv (joinStep s (.register core)) l := by
  cases hcur : s.current core with
  | none =>
      rw [h.idle core hcur] at hnamed
      cases hnamed
  | some t =>
      cases hgone : targetGone s.toScheduler core with
      | true =>
          have hproceed := h.proceed (f := id) .run hcur (fun _ => rfl) (fun hp => by simp at hp)
            (fun _ hp => nomatch hp) (fun hp => by simp at hp)
          have hid : s.toScheduler.modify t id = s.toScheduler := by simp [Scheduler.modify]
          rw [hid] at hproceed
          simpa only [joinStep, hnamed, hgone, if_true, JoinState.setPhase] using hproceed
      | false =>
          obtain ⟨⟨thread, htarget, hlive⟩, hfree⟩ := htime hnamed hgone
          have hjoin : (s.threads t).joinThread = some thread := by
            simpa [joinTarget, hcur] using htarget
          obtain ⟨i, hi⟩ : ∃ i, s.joinedThreads.findIdx? (· = none) = some i := by
            cases hfind : s.joinedThreads.findIdx? (· = none) with
            | none =>
                have hno := List.findIdx?_eq_none_iff.mp hfind none hfree
                simp at hno
            | some i => exact ⟨i, rfl⟩
          have hslot : s.joinedThreads[i]? = some none := by
            obtain ⟨hlt, hp, -⟩ := List.findIdx?_eq_some_iff_getElem.mp hi
            rw [List.getElem?_eq_getElem hlt]
            simpa using hp
          have henroll := h.enroll hcur hjoin hlive hslot
          simpa [joinStep, hnamed, hgone, joinRegister, hcur, hjoin, hlive.1, hi,
            JoinState.setPhase] using henroll

theorem JoinInv.step (h : JoinInv s l) {action : JoinAction} (htime : JoinInTime s action) :
    ∃ l', JoinInv (joinStep s action) l' := by
  cases action with
  | spawn => exact h.spawn
  | dispatch core =>
      cases hcur : s.current core with
      | none =>
          simp only [joinStep, hcur, if_true]
          exact ⟨_, h.next hcur⟩
      | some t => exact ⟨l, by simpa [joinStep, hcur] using h⟩
  | timer core =>
      by_cases hrun : s.phase core = .run
      · simp only [joinStep, hrun, if_true, lapicTimeHandler, preempt]
        cases hcur : s.current core with
        | none => exact ⟨_, h.next hcur⟩
        | some t =>
            obtain ⟨l', h'⟩ := h.requeue hcur hrun
            have hcore : (scheduleAddThread (s.toScheduler.setCurrent core none) t).current core =
                none := by simp [scheduleAddThread, Scheduler.setCurrent]
            have hnext := h'.next hcore
            simp only
            rw [scheduleNextThread_clear]
            exact ⟨_, hnext⟩
      · exact ⟨l, by simpa [joinStep, hrun] using h⟩
  | call core threadToWaitOn =>
      cases hcur : s.current core with
      | none => exact ⟨l, by simpa [joinStep, hcur] using h⟩
      | some t =>
          by_cases hrun : s.phase core = .run
          · have hproceed := h.proceed (t := t)
              (f := fun thread => {thread with joinThread := some threadToWaitOn}) .named hcur
              (fun _ => rfl) (fun hp => by simp at hp) (fun _ hp => by cases hp)
              (fun hp => by simp at hp)
            refine ⟨l, ?_⟩
            simpa [joinStep, hcur, hrun, setJoinThread, JoinState.setPhase] using hproceed
          · exact ⟨l, by simpa [joinStep, hcur, hrun] using h⟩
  | register core =>
      by_cases hnamed : s.phase core = .named
      · exact ⟨l, h.register hnamed htime⟩
      · exact ⟨l, by simpa [joinStep, hnamed] using h⟩
  | terminate core =>
      cases hcur : s.current core with
      | none => exact ⟨l, by simpa only [joinStep, hcur] using h⟩
      | some thread =>
          by_cases hrun : s.phase core = .run
          · simp only [joinStep, hcur, hrun, if_true, JoinState.setPhase]
            exact h.terminate hcur hrun (htime thread hcur hrun)
          · exact ⟨l, by simpa [joinStep, hcur, hrun] using h⟩
  | yield core =>
      cases hphase : s.phase core with
      | yielding cause =>
          cases hcur : s.current core with
          | none =>
              rw [h.idle core hcur] at hphase
              cases hphase
          | some t =>
              have hproceed := h.proceed (t := t)
                (f := fun thread => {thread with yieldCause := some cause}) (.yielded cause) hcur
                (fun _ => rfl)
                (fun hp => ⟨rfl, h.waits core t hcur (.inl (by simpa [hphase] using hp))⟩)
                (fun cause' hp => by simpa using hp)
                (fun hp => .inl (by simpa [hphase] using hp))
              refine ⟨l, ?_⟩
              simpa only [joinStep, hphase, scheduleThreadYield, hcur, JoinState.setPhase]
                using hproceed
      | run => exact ⟨l, by simpa only [joinStep, hphase] using h⟩
      | named => exact ⟨l, by simpa only [joinStep, hphase] using h⟩
      | yielded cause => exact ⟨l, by simpa only [joinStep, hphase] using h⟩
  | ipi core =>
      cases hphase : s.phase core with
      | yielded cause =>
          cases hcur : s.current core with
          | none =>
              rw [h.idle core hcur] at hphase
              cases hphase
          | some t =>
              have hretire := h.retire hcur hphase
              have hcore : ((s.toScheduler.setState t cause.state).setCurrent core none).current
                  core = none := by simp [Scheduler.setCurrent]
              have hnext := hretire.next hcore
              rw [← scheduleNextThread_clear] at hnext
              refine ⟨l.tail, ?_⟩
              simpa only [joinStep, hphase, lapicIpiHandler, hcur, h.cause core t cause hcur hphase,
                JoinState.setPhase] using hnext
      | run => exact ⟨l, by simpa only [joinStep, hphase] using h⟩
      | named => exact ⟨l, by simpa only [joinStep, hphase] using h⟩
      | yielding cause => exact ⟨l, by simpa only [joinStep, hphase] using h⟩

end Joins

/-- In every run in which each join comes before the wake loop of its target and finds a free
entry of the table, and each wake loop finds its joiners off their cores, no joiner of a
zombie is left behind. -/
theorem join_not_missed_in_time {actions reached : List JoinAction}
    (htime : EveryStep joinStep JoinInTime initJoin actions) (hreached : reached <+: actions) :
    JoinNotMissed (reached.foldl joinStep initJoin).toScheduler := by
  obtain ⟨l, h⟩ := htime.inv (fun s => ∃ l, JoinInv s l)
    (fun s action ⟨l, h⟩ htime => h.step htime) ⟨[], joinInv_init⟩ hreached
  exact h.notMissed

/-- Thread 0 on core 0 and thread 1 on core 1. -/
def twoThreads : List JoinAction := [.spawn, .spawn, .dispatch 0, .dispatch 1]

/-- Thread 1 has joined and left its core before thread 0 terminates. -/
theorem join_not_missed_two_threads :
    JoinNotMissed ((twoThreads ++ [JoinAction.call 1 0, .register 1, .yield 1, .ipi 1,
      .terminate 0, .yield 0, .ipi 0]).foldl joinStep initJoin).toScheduler := by
  refine join_not_missed_in_time ?_ (List.prefix_refl _)
  refine ⟨trivial, trivial, trivial, trivial, trivial, fun _ _ => ⟨⟨0, by decide +kernel, ?_⟩,
    by decide +kernel⟩, trivial, trivial, ?_, trivial, trivial, trivial⟩
  · refine ⟨by decide +kernel, fun c _ => ?_⟩
    match c with
    | 0 => exact ⟨by decide +kernel, by decide +kernel⟩
    | 1 => exact ⟨by decide +kernel, by decide +kernel⟩
    | c + 2 => exact ⟨nofun, nofun⟩
  · intro thread hcur _ i hi t ht
    obtain rfl : thread = 0 := (Option.some.inj hcur).symm
    have hjoiner : ∀ i, i < queueMax → joinerAt ((twoThreads ++ [JoinAction.call 1 0, .register 1,
        .yield 1, .ipi 1]).foldl joinStep initJoin).toScheduler 0 i =
          if i = 0 then some 1 else none := by decide +kernel
    have ht' := (hjoiner i hi).symm.trans ht
    split at ht'
    · obtain rfl := Option.some.inj ht'
      decide +kernel
    · cases ht'

/-- Thread 1 joins between the wake loop and the IPI of thread 0. -/
theorem join_after_wake_loop_missed :
    ¬ JoinNotMissed ((twoThreads ++ [JoinAction.terminate 0, .yield 0, .call 1 0, .register 1,
      .ipi 0, .yield 1, .ipi 1]).foldl joinStep initJoin).toScheduler := by
  intro h
  have hmem := h 1 0 (by decide +kernel) (by decide +kernel) (by decide +kernel)
  exact Queue.not_mem_of_head_none (by decide +kernel) hmem

end Tellurium.Arch
