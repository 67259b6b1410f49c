import Tellurium.Arch.Scheduler

/-!
Where a thread can be. Any core takes any step at any time: interrupts, yields, joins,
terminations, waits and signals are interleaved in every order. A thread is on one core, or
once in the ready queue, or in neither place, as long as a terminating thread wakes no joiner
that is still on a core.
-/

namespace Tellurium.Arch

open Tellurium.Lib

/-- A thread is current on one core at most, at most once in the ready queue, and never
both. -/
structure SinglePlace (s : Scheduler) : Prop where
  one_core : ∀ c c' t, s.current c = some t → s.current c' = some t → c = c'
  queued_once : ∀ t, s.ready.Once t
  apart : ∀ c t, s.current c = some t → ¬ s.ready.Mem t

/-- A state in which the scheduler may add the thread again. -/
def ThreadState.asleep : ThreadState → Bool
  | .waiting => true
  | .blocked => true
  | _ => false

/-- The ready queue holds `l`, and no thread that is current or queued is asleep. -/
structure Placed (s : Scheduler) (l : List Nat) : Prop where
  ready : s.ready.Is l
  queued_lt : ∀ t ∈ l, t < s.nextThread
  queued_awake : ∀ t ∈ l, (s.threads t).state.asleep = false
  current_lt : ∀ c t, s.current c = some t → t < s.nextThread
  current_awake : ∀ c t, s.current c = some t → (s.threads t).state.asleep = false
  current_apart : ∀ c t, s.current c = some t → t ∉ l
  current_once : ∀ c c' t, s.current c = some t → s.current c' = some t → c = c'
  joined_lt : ∀ t, some t ∈ s.joinedThreads → t < s.nextThread
  listener_lt : ∀ e t, some t ∈ (s.events e).listeners → t < s.nextThread

section Steps

variable {s : Scheduler} {l : List Nat} {t core event thread : Nat}

theorem Placed.single (h : Placed s l) : SinglePlace s where
  one_core := h.current_once
  queued_once := h.ready.once
  apart c t hc hmem := h.current_apart c t hc (h.ready.mem_iff.mp hmem)

@[simp] theorem modify_threads_same (s : Scheduler) (t : Nat) (f : Thread → Thread) :
    (s.modify t f).threads t = f (s.threads t) := Function.update_self ..

@[simp] theorem modify_threads_of_ne (s : Scheduler) (f : Thread → Thread) {u : Nat} (h : u ≠ t) :
    (s.modify t f).threads u = s.threads u := Function.update_of_ne h ..

theorem setEvent_same (s : Scheduler) (event : Nat) (e : Event) :
    (s.setEvent event e).events event = e := Function.update_self ..

theorem setEvent_of_ne (s : Scheduler) (e : Event) {event' : Nat} (h : event' ≠ event) :
    (s.setEvent event e).events event' = s.events event' := Function.update_of_ne h ..

/-- A thread may be put to sleep where it is neither current nor queued. -/
theorem Placed.modify (h : Placed s l) {f : Thread → Thread}
    (hf : (f (s.threads t)).state.asleep = true → (∀ c, s.current c ≠ some t) ∧ t ∉ l) :
    Placed (s.modify t f) l := by
  have hkeep : ∀ u, (s.threads u).state.asleep = false →
      (∀ c, s.current c ≠ some u) ∧ u ∉ l ∨ ((s.modify t f).threads u).state.asleep = false := by
    intro u hu
    by_cases hut : u = t
    · subst hut
      rw [modify_threads_same]
      cases hsleep : (f (s.threads u)).state.asleep with
      | true => exact .inl (hf hsleep)
      | false => exact .inr rfl
    · rw [modify_threads_of_ne s f hut]
      exact .inr hu
  refine ⟨h.ready, h.queued_lt, fun u hu => ?_, h.current_lt, fun c u hc => ?_, h.current_apart,
    h.current_once, h.joined_lt, h.listener_lt⟩
  · exact (hkeep u (h.queued_awake u hu)).resolve_left fun hfree => hfree.2 hu
  · exact (hkeep u (h.current_awake c u hc)).resolve_left fun hfree => hfree.1 c hc

/-- Adding a thread that is not current. It is the last one in the queue then. -/
theorem Placed.add (h : Placed s l) (hlt : t < s.nextThread) (hawake : (s.threads t).state.asleep = false)
    (hfree : ∀ c, s.current c ≠ some t) :
    Placed (scheduleAddThread s t) (l.takeWhile (· ≠ t) ++ [t]) := by
  have hmem : ∀ u ∈ l.takeWhile (· ≠ t) ++ [t], u ∈ l ∨ u = t := by
    intro u hu
    rcases List.mem_append.mp hu with hold | hnew
    · exact .inl ((List.takeWhile_sublist _).subset hold)
    · exact .inr (List.mem_singleton.mp hnew)
  refine ⟨h.ready.push t, fun u hu => ?_, fun u hu => ?_, h.current_lt, h.current_awake,
    fun c u hc hu => ?_, h.current_once, h.joined_lt, h.listener_lt⟩
  · rcases hmem u hu with hold | rfl
    · exact h.queued_lt u hold
    · exact hlt
  · rcases hmem u hu with hold | rfl
    · exact h.queued_awake u hold
    · exact hawake
  · rcases hmem u hu with hold | rfl
    · exact h.current_apart c u hc hold
    · exact hfree c hc

theorem current_of_setCurrent_none {c : Nat} (hc : (s.setCurrent core none).current c = some t) :
    c ≠ core ∧ s.current c = some t := by
  unfold Scheduler.setCurrent at hc
  by_cases heq : c = core
  · subst heq
    simp at hc
  · exact ⟨heq, by simpa [heq] using hc⟩

theorem Placed.clear (h : Placed s l) (core : Nat) : Placed (s.setCurrent core none) l := by
  refine ⟨h.ready, h.queued_lt, h.queued_awake, fun c u hc => ?_, fun c u hc => ?_,
    fun c u hc => ?_, fun c c' u hc hc' => ?_, h.joined_lt, h.listener_lt⟩
  · exact h.current_lt c u (current_of_setCurrent_none hc).2
  · exact h.current_awake c u (current_of_setCurrent_none hc).2
  · exact h.current_apart c u (current_of_setCurrent_none hc).2
  · exact h.current_once c c' u (current_of_setCurrent_none hc).2 (current_of_setCurrent_none hc').2

/-- The thread that leaves a core is current nowhere. -/
theorem Placed.clear_free (h : Placed s l) (hcur : s.current core = some t) (c : Nat) :
    (s.setCurrent core none).current c ≠ some t := by
  intro hc
  obtain ⟨hne, hold⟩ := current_of_setCurrent_none hc
  exact hne (h.current_once c core t hold hcur)

/-- The next thread replaces whatever the core was running. -/
theorem scheduleNextThread_clear (s : Scheduler) (core : Nat) :
    scheduleNextThread s core = scheduleNextThread (s.setCurrent core none) core := by
  unfold scheduleNextThread popThreadFromQueue
  cases hpop : s.ready.pop.1 with
  | none => simp [Scheduler.setCurrent, hpop]
  | some t => simp [Scheduler.setCurrent, threadEntry, Scheduler.setState, Scheduler.modify, hpop]

theorem threadEntry_current (s : Scheduler) (core t c : Nat) :
    (threadEntry s core t).current c = if c = core then some t else s.current c := by
  simp only [threadEntry, Scheduler.setState, Scheduler.modify, Scheduler.setCurrent]
  split
  · rename_i heq
    rw [heq, Function.update_self]
  · rename_i hne
    rw [Function.update_of_ne hne]

theorem threadEntry_threads (s : Scheduler) (core t u : Nat) :
    (threadEntry s core t).threads u =
      if u = t then {s.threads t with state := .running} else s.threads u := by
  simp only [threadEntry, Scheduler.setState, Scheduler.modify, Scheduler.setCurrent]
  split
  · rename_i heq
    rw [heq, Function.update_self]
  · rename_i hne
    rw [Function.update_of_ne hne]

theorem scheduleNextThread_nil (h : Placed s []) (core : Nat) :
    scheduleNextThread s core = s.setCurrent core none := by
  simp only [scheduleNextThread, popThreadFromQueue, h.ready.pop_nil]

theorem scheduleNextThread_cons (h : Placed s (t :: l)) (core : Nat) : ∃ ready : Queue,
    ready.Is l ∧ scheduleNextThread s core = threadEntry {s with ready} core t := by
  obtain ⟨ready, hpop, hready⟩ := h.ready.pop_cons
  exact ⟨ready, hready, by simp only [scheduleNextThread, popThreadFromQueue, hpop]⟩

theorem Placed.next (h : Placed s l) (core : Nat) :
    Placed (scheduleNextThread s core) l.tail := by
  rw [scheduleNextThread_clear]
  have hclear := h.clear core
  generalize hs : s.setCurrent core none = s₁ at hclear
  cases l with
  | nil =>
      rw [scheduleNextThread_nil hclear]
      exact hclear.clear core
  | cons t l =>
      obtain ⟨ready, hready, heq⟩ := scheduleNextThread_cons hclear core
      have hnodup := List.nodup_cons.mp hclear.ready.nodup
      have hcur : ∀ c u, (threadEntry {s₁ with ready} core t).current c = some u →
          c = core ∧ u = t ∨ c ≠ core ∧ s₁.current c = some u := by
        intro c u hc
        by_cases hcc : c = core
        · subst hcc
          left
          simpa [threadEntry, Scheduler.setCurrent, Scheduler.setState, Scheduler.modify,
            eq_comm] using hc
        · right
          simpa [threadEntry, Scheduler.setCurrent, Scheduler.setState, Scheduler.modify, hcc]
            using hc
      have hawake : ∀ u, u = t ∨ (s₁.threads u).state.asleep = false →
          ((threadEntry {s₁ with ready} core t).threads u).state.asleep = false := by
        intro u hu
        by_cases hut : u = t
        · simp [threadEntry, Scheduler.setCurrent, Scheduler.setState, Scheduler.modify, hut,
            ThreadState.asleep]
        · simpa [threadEntry, Scheduler.setCurrent, Scheduler.setState, Scheduler.modify, hut]
            using hu
      have ht := hclear.current_apart
      rw [heq, List.tail_cons]
      refine ⟨hready, fun u hu => hclear.queued_lt u (List.mem_cons_of_mem _ hu),
        fun u hu => hawake u (.inr (hclear.queued_awake u (List.mem_cons_of_mem _ hu))),
        fun c u hc => ?_, fun c u hc => ?_, fun c u hc => ?_, fun c c' u hc hc' => ?_,
        hclear.joined_lt, hclear.listener_lt⟩
      · obtain ⟨-, rfl⟩ | ⟨-, hold⟩ := hcur c u hc
        · exact hclear.queued_lt u (by simp)
        · exact hclear.current_lt c u hold
      · obtain ⟨-, rfl⟩ | ⟨-, hold⟩ := hcur c u hc
        · exact hawake u (.inl rfl)
        · exact hawake u (.inr (hclear.current_awake c u hold))
      · obtain ⟨-, rfl⟩ | ⟨-, hold⟩ := hcur c u hc
        · exact hnodup.1
        · exact fun hmem => ht c u hold (List.mem_cons_of_mem _ hmem)
      · obtain ⟨rfl, rfl⟩ | ⟨-, hold⟩ := hcur c u hc
        · obtain ⟨rfl, -⟩ | ⟨-, hold'⟩ := hcur c' u hc'
          · rfl
          · exact absurd (by simp) (ht c' u hold')
        · obtain ⟨-, rfl⟩ | ⟨-, hold'⟩ := hcur c' u hc'
          · exact absurd (by simp) (ht c u hold)
          · exact hclear.current_once c c' u hold hold'

theorem Placed.preempt (h : Placed s l) (core : Nat) : ∃ l', Placed (preempt s core) l' := by
  unfold Arch.preempt
  split
  · exact ⟨_, h.next core⟩
  · rename_i t hcur
    rw [scheduleNextThread_clear]
    have hadd := (h.clear core).add (h.current_lt core t hcur) (h.current_awake core t hcur)
      (h.clear_free hcur)
    exact ⟨_, hadd.next core⟩

theorem Placed.ipi (h : Placed s l) (core : Nat) : ∃ l', Placed (lapicIpiHandler s core) l' := by
  unfold lapicIpiHandler
  split
  · exact ⟨_, h.next core⟩
  · rename_i t hcur
    split
    · exact ⟨_, h.next core⟩
    · rename_i cause _
      rw [scheduleNextThread_clear]
      have hsleep := (h.clear core).modify (t := t)
        (f := fun thread => {thread with state := cause.state})
        fun _ => ⟨h.clear_free hcur, h.current_apart core t hcur⟩
      exact ⟨_, hsleep.next core⟩

/-- A change of a thread that keeps its state. -/
theorem Placed.modify_keep (h : Placed s l) {f : Thread → Thread}
    (hf : ∀ thread, (f thread).state = thread.state) : Placed (s.modify t f) l := by
  apply h.modify
  rw [hf]
  intro hsleep
  constructor
  · intro c hc
    rw [h.current_awake c t hc] at hsleep
    cases hsleep
  · intro hmem
    rw [h.queued_awake t hmem] at hsleep
    cases hsleep

theorem Placed.yield (h : Placed s l) (core : Nat) (cause : YieldCause) :
    Placed (scheduleThreadYield s core cause) l := by
  unfold scheduleThreadYield
  split
  · exact h
  · exact h.modify_keep fun _ => rfl

theorem Placed.setJoin (h : Placed s l) (core target : Nat) :
    Placed (setJoinThread s core target) l := by
  unfold setJoinThread
  split
  · exact h
  · exact h.modify_keep fun _ => rfl

theorem Placed.joinRegister (h : Placed s l) (core : Nat) : Placed (joinRegister s core) l := by
  unfold Arch.joinRegister
  split
  · exact h
  · rename_i t hcur
    split
    · exact h
    · split
      · exact h
      · split
        · exact h
        · refine ⟨h.1, h.2, h.3, h.4, h.5, h.6, h.7, fun u hu => ?_, h.9⟩
          rcases List.mem_or_eq_of_mem_set hu with hold | hnew
          · exact h.joined_lt u hold
          · obtain rfl := Option.some.inj hnew
            exact h.current_lt core u hcur

/-- A sleeping thread is in no place, so it can be woken into the queue. -/
theorem Placed.asleep_free (h : Placed s l) (hsleep : (s.threads t).state.asleep = true) :
    (∀ c, s.current c ≠ some t) ∧ t ∉ l := by
  constructor
  · intro c hc
    rw [h.current_awake c t hc] at hsleep
    cases hsleep
  · intro hmem
    rw [h.queued_awake t hmem] at hsleep
    cases hsleep

/-- Waking a thread that is not current: it gets an awake state and is queued. -/
theorem Placed.wake (h : Placed s l) (hlt : t < s.nextThread) (hfree : ∀ c, s.current c ≠ some t)
    {f : Thread → Thread} (hawake : (f (s.threads t)).state.asleep = false) :
    Placed (scheduleAddThread (s.modify t f) t) (l.takeWhile (· ≠ t) ++ [t]) := by
  have hmodify : Placed (s.modify t f) l := by
    apply h.modify
    rw [hawake]
    intro hsleep
    cases hsleep
  apply hmodify.add hlt _ hfree
  rw [modify_threads_same]
  exact hawake

/-- A thread that is notified was asleep, and it is woken into the queue. -/
theorem scheduleNotify_cases (s : Scheduler) (event t : Nat) :
    (scheduleNotify s event t = (false, s) ∧ (s.threads t).state.asleep = false) ∨
    ((s.threads t).state.asleep = true ∧ ∃ f : Thread → Thread,
      scheduleNotify s event t = (true, scheduleAddThread (s.modify t f) t) ∧
      (f (s.threads t)).state = .runnable ∧
      ((s.threads t).state = .waiting → (f (s.threads t)).receivedEvent = some event)) := by
  unfold scheduleNotify
  cases hstate : (s.threads t).state with
  | waiting =>
      right
      exact ⟨rfl, fun thread => {thread with receivedEvent := some event, state := .runnable}, rfl,
        rfl, fun _ => rfl⟩
  | blocked =>
      right
      exact ⟨rfl, fun thread => {thread with state := .runnable}, rfl, rfl, fun h => by cases h⟩
  | created => exact .inl ⟨rfl, rfl⟩
  | runnable => exact .inl ⟨rfl, rfl⟩
  | joined => exact .inl ⟨rfl, rfl⟩
  | delayed => exact .inl ⟨rfl, rfl⟩
  | running => exact .inl ⟨rfl, rfl⟩
  | zombie => exact .inl ⟨rfl, rfl⟩

theorem Placed.notifyAll (h : Placed s l) {listeners : List (Option Nat)}
    (hlt : ∀ t, some t ∈ listeners → t < s.nextThread) :
    ∃ l', Placed (notifyAll s event listeners).2 l' := by
  induction listeners generalizing s l with
  | nil => exact ⟨l, h⟩
  | cons slot rest ih =>
      have hrest : ∀ t, some t ∈ rest → t < s.nextThread :=
        fun t ht => hlt t (List.mem_cons_of_mem _ ht)
      cases slot with
      | none => exact ih h hrest
      | some t =>
          rw [Arch.notifyAll]
          rcases scheduleNotify_cases s event t with ⟨heq, -⟩ | ⟨hsleep, f, heq, hrun, -⟩
          · rw [heq]
            exact ⟨l, h⟩
          · rw [heq]
            have hwake := h.wake (hlt t (by simp)) (h.asleep_free hsleep).1 (f := f)
              (by rw [hrun]; rfl)
            exact ih hwake hrest

theorem Placed.signal (h : Placed s l) (event : Nat) : ∃ l', Placed (eventSignal s event).2 l' := by
  unfold eventSignal
  split
  · exact ⟨l, h⟩
  · exact h.notifyAll (h.listener_lt event)

/-- Other listeners of an event, all of them existing threads. -/
theorem Placed.setEvent (h : Placed s l) {e : Event}
    (hlt : ∀ t, some t ∈ e.listeners → t < s.nextThread) : Placed (s.setEvent event e) l := by
  refine ⟨h.1, h.2, h.3, h.4, h.5, h.6, h.7, h.8, fun e' t ht => ?_⟩
  by_cases he : e' = event
  · rw [he, setEvent_same] at ht
    exact hlt t ht
  · rw [setEvent_of_ne s e he] at ht
    exact h.listener_lt e' t ht

theorem Placed.attach (h : Placed s l) (hlt : t < s.nextThread) (event : Nat) :
    Placed (attachListener s t event).2 l := by
  unfold attachListener
  split
  · exact h
  · apply h.setEvent
    intro u hu
    rcases List.mem_or_eq_of_mem_set hu with hold | hnew
    · exact h.listener_lt event u hold
    · exact Option.some.inj hnew ▸ hlt

theorem Placed.remove (h : Placed s l) (t event : Nat) : Placed (removeListener s t event).2 l := by
  unfold removeListener
  split
  · exact h
  · apply h.setEvent
    intro u hu
    rcases List.mem_or_eq_of_mem_set hu with hold | hnew
    · exact h.listener_lt event u hold
    · cases hnew

theorem Placed.spawn (h : Placed s l) :
    Placed (spawnThread s) (l.takeWhile (· ≠ s.nextThread) ++ [s.nextThread]) := by
  have hfree : ∀ c, s.current c ≠ some s.nextThread :=
    fun c hc => Nat.lt_irrefl _ (h.current_lt c _ hc)
  have hold : ∀ u, u < s.nextThread →
      Function.update s.threads s.nextThread createThread u = s.threads u :=
    fun u hu => Function.update_of_ne (Nat.ne_of_lt hu) _ _
  have hnew : Placed {s with
      threads := Function.update s.threads s.nextThread createThread
      nextThread := s.nextThread + 1} l := by
    refine ⟨h.ready, fun u hu => Nat.lt_succ_of_lt (h.queued_lt u hu), fun u hu => ?_,
      fun c u hc => Nat.lt_succ_of_lt (h.current_lt c u hc), fun c u hc => ?_, h.current_apart,
      h.current_once, fun u hu => Nat.lt_succ_of_lt (h.joined_lt u hu),
      fun e u hu => Nat.lt_succ_of_lt (h.listener_lt e u hu)⟩
    · simp only [hold u (h.queued_lt u hu)]
      exact h.queued_awake u hu
    · simp only [hold u (h.current_lt c u hc)]
      exact h.current_awake c u hc
  exact hnew.add (Nat.lt_succ_self _) (by simp [createThread, ThreadState.asleep]) hfree

/-- One slot of the wake loop, if its joiner is not on a core. -/
theorem Placed.wakeSlot (h : Placed s l) (i : Nat)
    (hfree : ∀ t, joinerAt s thread i = some t → ∀ c, s.current c ≠ some t) :
    ∃ l', Placed (wakeSlot thread s i) l' := by
  unfold Arch.wakeSlot
  cases hjoiner : joinerAt s thread i with
  | none => exact ⟨l, h⟩
  | some t =>
      have hmem : some t ∈ s.joinedThreads := by
        unfold joinerAt at hjoiner
        rw [List.getD_eq_getElem?_getD] at hjoiner
        cases hslot : s.joinedThreads[i]? with
        | none => simp [hslot] at hjoiner
        | some slot =>
            cases slot with
            | none => simp [hslot] at hjoiner
            | some u =>
                have hut : u = t := by
                  simp only [hslot, Option.getD_some] at hjoiner
                  split at hjoiner
                  · exact Option.some.inj hjoiner
                  · cases hjoiner
                exact hut ▸ List.mem_of_getElem? hslot
      have hwake := h.wake (h.joined_lt t hmem) (hfree t hjoiner)
        (f := fun thread => {thread with state := .runnable}) rfl
      refine ⟨_, hwake.1, hwake.2, hwake.3, hwake.4, hwake.5, hwake.6, hwake.7, fun u hu => ?_,
        hwake.9⟩
      rcases List.mem_or_eq_of_mem_set hu with hold | hnew
      · exact h.joined_lt u hold
      · cases hnew

/-- A slot that the loop has not visited yet holds the joiner it held before. -/
theorem joinerAt_wakeSlot {i j : Nat} (hne : j ≠ i) :
    joinerAt (wakeSlot thread s i) thread j = joinerAt s thread j := by
  unfold wakeSlot
  cases hjoiner : joinerAt s thread i with
  | none => rfl
  | some t =>
      simp only [joinerAt, scheduleAddThread, Scheduler.setState]
      rw [List.getD_eq_getElem?_getD, List.getElem?_set_ne (Ne.symm hne), ← List.getD_eq_getElem?_getD]
      have hjoin : ∀ u, ((s.modify t fun thread => {thread with state := .runnable}).threads u).joinThread =
          (s.threads u).joinThread := by
        intro u
        by_cases hut : u = t
        · rw [hut, modify_threads_same]
        · rw [modify_threads_of_ne s _ hut]
      simp only [hjoin]
      rfl

theorem wakeSlot_current (i : Nat) : (wakeSlot thread s i).current = s.current := by
  unfold wakeSlot
  split <;> rfl

theorem Placed.wakeSlots (h : Placed s l) {slots : List Nat} (hnodup : slots.Nodup)
    (hfree : ∀ i ∈ slots, ∀ t, joinerAt s thread i = some t → ∀ c, s.current c ≠ some t) :
    ∃ l', Placed (slots.foldl (Arch.wakeSlot thread) s) l' := by
  induction slots generalizing s l with
  | nil => exact ⟨l, h⟩
  | cons i slots ih =>
      obtain ⟨hi, hnodup⟩ := List.nodup_cons.mp hnodup
      obtain ⟨l', h'⟩ := h.wakeSlot i (hfree i (by simp))
      refine ih h' hnodup fun j hj t ht c => ?_
      have hne : j ≠ i := fun heq => hi (heq ▸ hj)
      rw [joinerAt_wakeSlot hne] at ht
      rw [wakeSlot_current]
      exact hfree j (List.mem_cons_of_mem _ hj) t ht c

end Steps

/-- A step of some core. Only new threads are added from outside, and only an idle core looks
for a thread on its own. -/
inductive Action where
  | spawn
  | dispatch (core : Nat)
  | timer (core : Nat)
  | mouse (core : Nat)
  | keyboard (core : Nat)
  | ipi (core : Nat)
  | yield (core : Nat) (cause : YieldCause)
  | setJoin (core threadToWaitOn : Nat)
  | join (core : Nat)
  | terminate (core : Nat)
  | attach (core event : Nat)
  | remove (core event : Nat)
  | signal (event : Nat)
  deriving Repr, DecidableEq

def act (s : Scheduler) : Action → Scheduler
  | .spawn => spawnThread s
  | .dispatch core => if s.current core = none then scheduleNextThread s core else s
  | .timer core => lapicTimeHandler s core
  | .mouse core => mouseHandler s core
  | .keyboard core => keyboardHandler s core
  | .ipi core => lapicIpiHandler s core
  | .yield core cause => scheduleThreadYield s core cause
  | .setJoin core threadToWaitOn => setJoinThread s core threadToWaitOn
  | .join core => joinRegister s core
  | .terminate core =>
      match s.current core with
      | none => s
      | some thread => wakeJoined s thread
  | .attach core event =>
      match s.current core with
      | none => s
      | some t => (attachListener s t event).2
  | .remove core event =>
      match s.current core with
      | none => s
      | some t => (removeListener s t event).2
  | .signal event => (eventSignal s event).2

/-- No thread that a terminating thread wakes is still current on a core. -/
def JoinersOffCore (s : Scheduler) : Action → Prop
  | .terminate core => ∀ thread, s.current core = some thread → ∀ i, i < queueMax → ∀ t,
      joinerAt s thread i = some t → ∀ c, s.current c ≠ some t
  | _ => True

theorem placed_init : Placed initScheduler [] where
  ready := Queue.is_empty
  queued_lt _ ht := absurd ht (by simp)
  queued_awake _ ht := absurd ht (by simp)
  current_lt _ _ hc := absurd hc (by simp [initScheduler])
  current_awake _ _ hc := absurd hc (by simp [initScheduler])
  current_apart _ _ hc := absurd hc (by simp [initScheduler])
  current_once _ _ _ hc := absurd hc (by simp [initScheduler])
  joined_lt _ ht := absurd (List.eq_of_mem_replicate ht) (by simp)
  listener_lt _ _ ht := absurd (List.eq_of_mem_replicate ht) (by simp)

theorem placed_act {s : Scheduler} {l : List Nat} {action : Action} (h : Placed s l)
    (hoff : JoinersOffCore s action) : ∃ l', Placed (act s action) l' := by
  cases action with
  | spawn => exact ⟨_, h.spawn⟩
  | dispatch core =>
      cases hcur : s.current core with
      | none => simpa only [act, hcur, if_true] using ⟨_, h.next core⟩
      | some t => exact ⟨l, by simpa [act, hcur] using h⟩
  | timer core => exact h.preempt core
  | mouse core => exact h.preempt core
  | keyboard core => exact h.preempt core
  | ipi core => exact h.ipi core
  | yield core cause => exact ⟨_, h.yield core cause⟩
  | setJoin core threadToWaitOn => exact ⟨_, h.setJoin core threadToWaitOn⟩
  | join core => exact ⟨_, h.joinRegister core⟩
  | terminate core =>
      cases hcur : s.current core with
      | none => exact ⟨l, by simpa only [act, hcur] using h⟩
      | some thread =>
          simp only [act, hcur]
          apply h.wakeSlots List.nodup_range
          intro i hi
          exact hoff thread hcur i (List.mem_range.mp hi)
  | attach core event =>
      cases hcur : s.current core with
      | none => exact ⟨l, by simpa only [act, hcur] using h⟩
      | some t =>
          simp only [act, hcur]
          exact ⟨l, h.attach (h.current_lt core t hcur) event⟩
  | remove core event =>
      cases hcur : s.current core with
      | none => exact ⟨l, by simpa only [act, hcur] using h⟩
      | some t =>
          simp only [act, hcur]
          exact ⟨l, h.remove t event⟩
  | signal event => exact h.signal event

/-- In every run in which no terminating thread wakes a joiner that is still on a core, every
thread is in a single place in every state. -/
theorem single_place_of_joiners_off_core {actions reached : List Action}
    (hoff : EveryStep act JoinersOffCore initScheduler actions) (hreached : reached <+: actions) :
    SinglePlace (reached.foldl act initScheduler) := by
  obtain ⟨l, h⟩ := hoff.inv (fun s => ∃ l, Placed s l)
    (fun s action ⟨l, h⟩ hoff => placed_act h hoff) ⟨[], placed_init⟩ hreached
  exact h.single

/-- Thread 0 on core 0, and thread 1 on core 1 registered to join it. -/
def joinRun : List Action :=
  [.spawn, .spawn, .dispatch 0, .dispatch 1, .setJoin 1 0, .join 1]

/-- Thread 1 has left its core when thread 0 terminates. -/
theorem single_place_after_join :
    SinglePlace ((joinRun ++ [Action.yield 1 .join, .ipi 1, .terminate 0]).foldl act
      initScheduler) := by
  refine single_place_of_joiners_off_core ?_ (List.prefix_refl _)
  refine ⟨trivial, trivial, trivial, trivial, trivial, trivial, trivial, trivial, ?_, trivial⟩
  intro thread hcur i hi t ht c hc
  obtain rfl : thread = 0 := (Option.some.inj hcur).symm
  have hjoiner : ∀ i, i < queueMax → joinerAt ((joinRun ++ [Action.yield 1 .join, .ipi 1]).foldl act
      initScheduler) 0 i = if i = 0 then some 1 else none := by decide
  have ht' := (hjoiner i hi).symm.trans ht
  split at ht'
  · obtain rfl := Option.some.inj ht'
    match c with
    | 0 => cases hc
    | 1 => cases hc
    | c + 2 => cases hc
  · cases ht'

/-- Thread 1 is woken while it is still on its core. -/
theorem joiner_current_and_queued :
    ¬ SinglePlace ((joinRun ++ [Action.terminate 0]).foldl act initScheduler) := by
  intro h
  have hcurrent : ((joinRun ++ [Action.terminate 0]).foldl act initScheduler).current 1 = some 1 := by
    decide +kernel
  exact h.apart 1 1 hcurrent ⟨0, by decide +kernel⟩

end Tellurium.Arch
