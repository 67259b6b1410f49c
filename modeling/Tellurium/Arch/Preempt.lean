import Tellurium.Arch.ReadyLock
import Mathlib.Data.List.Nodup

/-!
Preemption on several cores: the handlers of the timer (`kernel/devices/lapic.c`), the keyboard and
the mouse (`kernel/devices/ps2.c`), and what they call in `kernel/arch/scheduler.c` and
`kernel/arch/cpu.c`. A step is a step of one core. The ready queue is worked on one statement at a
time, behind its lock, and an interrupt comes between any two steps of a core that has not turned
interrupts off. What a thread computes with its registers is left open. Core `i` has thread `i` as
its idle thread; the threads that are created are numbered from the number of cores on. Threads are
made and preempted here, and nothing else happens to them: yields, which end in the handler of the
inter-processor interrupt, waits, joins, the end of a thread and the signals that wake it are not
among the steps.
-/

namespace Tellurium.Arch

open Tellurium.Lib

/-- A `ctx_t`, with the interrupt flag of its `rflags` on its own. -/
structure Frame (Ctx : Type*) where
  regs : Ctx
  interrupts : Bool

inductive Handler where
  | timer
  | keyboard
  | mouse
  deriving DecidableEq

/-- Where `schedule_add_thread` returns to. -/
inductive Caller where
  | thread
  | handler
  deriving DecidableEq

/-- What a core is about to do. -/
inductive Stage (Ctx : Type*) where
  /-- The next instruction of the current thread. -/
  | running
  /-- `save_context`, with the frame that was pushed. -/
  | saving (handler : Handler) (frame : Frame Ctx)
  /-- The test for the idle thread. -/
  | requeueing
  | handing (thread : Nat)
  /-- Inside `schedule_add_thread`, up to the release of the lock. -/
  | adding (thread : Nat) (caller : Caller)
  /-- The last test of `i_flag` in `schedule_add_thread`. -/
  | added (caller : Caller)
  /-- `schedule_next_thread`. -/
  | choosing
  | popping
  /-- `thread_entry`. -/
  | entering (thread : Nat)
  /-- `thread_switch`. -/
  | switching
  | crashed

structure Cpu (Ctx : Type*) where
  regs : Ctx
  interrupts : Bool
  iFlag : Bool
  current : Nat
  stage : Stage Ctx

structure Machine (n : ℕ) (Ctx : Type*) where
  queue : Cores (Fin n) ReadyQueue QueueAction QueuePlace QueueAnswer
  cpu : Fin n → Cpu Ctx
  /-- The context in each thread. -/
  saved : Nat → Frame Ctx
  nextThread : Nat

inductive MachineStep (n : ℕ) (Ctx : Type*) where
  | execute (core : Fin n) (instruction : Ctx → Ctx)
  /-- The running thread turns interrupts on or off. -/
  | mask (core : Fin n) (interrupts : Bool)
  /-- The running thread makes a new one and calls `schedule_add_thread`. -/
  | spawn (core : Fin n) (regs : Ctx)
  | interrupt (core : Fin n) (handler : Handler)
  | tick (core : Fin n)

namespace Machine

variable {n : ℕ} {Ctx : Type*}

def setCpu (m : Machine n Ctx) (i : Fin n) (cpu : Cpu Ctx) : Machine n Ctx :=
  {m with cpu := Function.update m.cpu i cpu}

def setStage (m : Machine n Ctx) (i : Fin n) (stage : Stage Ctx) : Machine n Ctx :=
  m.setCpu i {m.cpu i with stage}

def execute (m : Machine n Ctx) (i : Fin n) (instruction : Ctx → Ctx) : Machine n Ctx :=
  match (m.cpu i).stage with
  | .running => m.setCpu i {m.cpu i with regs := instruction (m.cpu i).regs}
  | _ => m

def mask (m : Machine n Ctx) (i : Fin n) (interrupts : Bool) : Machine n Ctx :=
  match (m.cpu i).stage with
  | .running => m.setCpu i {m.cpu i with interrupts}
  | _ => m

/-- `schedule_add_thread` up to the lock. An interrupt between the test of the flag and `cli` finds
what one before the test finds, so that the two are one step. -/
def callAdd (m : Machine n Ctx) (i : Fin n) (thread : Nat) (caller : Caller) : Machine n Ctx :=
  {m with queue := m.queue.call i (.add thread)}.setCpu i
    {m.cpu i with
      iFlag := (m.cpu i).interrupts
      interrupts := false
      stage := .adding thread caller}

/-- The new thread has the context that `create_kernel_thread` or `create_user_thread` gives it,
with interrupts on. -/
def spawn (m : Machine n Ctx) (i : Fin n) (regs : Ctx) : Machine n Ctx :=
  match (m.cpu i).stage with
  | .running =>
      {m with
        saved := Function.update m.saved m.nextThread ⟨regs, true⟩
        nextThread := m.nextThread + 1}.callAdd i m.nextThread .thread
  | _ => m

/-- The registers are pushed, and the gate turns interrupts off. -/
def interrupt (m : Machine n Ctx) (i : Fin n) (handler : Handler) : Machine n Ctx :=
  match (m.cpu i).interrupts with
  | false => m
  | true =>
      m.setCpu i {m.cpu i with
        interrupts := false
        stage := .saving handler ⟨(m.cpu i).regs, true⟩}

def saveContext (m : Machine n Ctx) (i : Fin n) (frame : Frame Ctx) : Machine n Ctx :=
  {m with saved := Function.update m.saved (m.cpu i).current frame}

/-- Only the mouse handler leaves the idle thread's context alone. -/
def save (m : Machine n Ctx) (i : Fin n) (frame : Frame Ctx) : Handler → Machine n Ctx
  | .timer | .keyboard => m.saveContext i frame
  | .mouse => if (m.cpu i).current = i then m else m.saveContext i frame

/-- What follows the region when it has given its answer. A link of `NULL` is a page fault. -/
def afterRegion (idle : Nat) : Stage Ctx → QueueAnswer → Stage Ctx
  | .adding _ caller, some _ => .added caller
  | .popping, some thread => .entering (thread.getD idle)
  | _, _ => .crashed

/-- A step in the region, or towards it. The lock is given back with the answer. -/
def inRegion (m : Machine n Ctx) (i : Fin n) : Machine n Ctx :=
  match m.queue.place i with
  | .leaving _ answer =>
      {m with queue := m.queue.tick readyRegion i}.setStage i
        (afterRegion i (m.cpu i).stage answer)
  | _ => {m with queue := m.queue.tick readyRegion i}

def tick (m : Machine n Ctx) (i : Fin n) : Machine n Ctx :=
  match (m.cpu i).stage with
  | .running => m
  | .saving handler frame => (m.save i frame handler).setStage i .requeueing
  | .requeueing =>
      if (m.cpu i).current = i then m.setStage i .choosing
      else m.setStage i (.handing (m.cpu i).current)
  | .handing thread => m.callAdd i thread .handler
  | .adding _ _ | .popping => m.inRegion i
  | .added caller =>
      m.setCpu i {m.cpu i with
        interrupts := (m.cpu i).interrupts || (m.cpu i).iFlag
        stage := match caller with
          | .thread => .running
          | .handler => .choosing}
  | .choosing => {m with queue := m.queue.call i .pop}.setStage i .popping
  | .entering thread => m.setCpu i {m.cpu i with current := thread, stage := .switching}
  | .switching =>
      m.setCpu i {m.cpu i with
        regs := (m.saved (m.cpu i).current).regs
        interrupts := (m.saved (m.cpu i).current).interrupts
        stage := .running}
  | .crashed => m

def step (m : Machine n Ctx) : MachineStep n Ctx → Machine n Ctx
  | .execute i instruction => m.execute i instruction
  | .mask i interrupts => m.mask i interrupts
  | .spawn i regs => m.spawn i regs
  | .interrupt i handler => m.interrupt i handler
  | .tick i => m.tick i

/-- The end of `init_cpu`: the boot core hands the thread of `kmain` over, the other cores are at
the end of `core_init`. Interrupts are off, and every idle thread has been made. -/
def boot (bsp : Fin n) (regs : Nat → Ctx) (links : Nat → Option Nat) : Machine n Ctx where
  queue := Cores.start ⟨none, none, links, links⟩
  cpu i := ⟨regs i, false, false, i, if i = bsp then .handing n else .choosing⟩
  saved t := ⟨regs t, true⟩
  nextThread := n + 1

def calls (m : Machine n Ctx) : List QueueAction := m.queue.done.map fun c => c.2.1

/-- The ready queue after the calls that have returned. -/
def queued (m : Machine n Ctx) : List Nat := m.calls.foldl Arch.queued []

end Machine

/-- The call of the region that a core is in. -/
def Stage.call? {Ctx : Type*} : Stage Ctx → Option QueueAction
  | .adding thread _ => some (.add thread)
  | .popping => some .pop
  | _ => none

theorem Stage.of_call_add {Ctx : Type*} {stage : Stage Ctx} {t : Nat}
    (h : stage.call? = some (.add t)) : ∃ caller, stage = .adding t caller := by
  unfold Stage.call? at h
  split at h
  · rename_i thread caller
    cases h
    exact ⟨caller, rfl⟩
  · cases h
  · cases h

theorem Stage.of_call_pop {Ctx : Type*} {stage : Stage Ctx} (h : stage.call? = some .pop) :
    stage = .popping := by
  unfold Stage.call? at h
  split at h
  · cases h
  · rfl
  · cases h

/-- The threads that a core has taken and not given back. A thread that the core hands to the ready
queue is its own until the lock is given back. -/
def Cpu.threads {Ctx : Type*} (c : Cpu Ctx) : List Nat :=
  match c.stage with
  | .running | .saving _ _ | .requeueing | .added .thread | .switching => [c.current]
  | .adding thread .thread => [c.current, thread]
  | .handing thread | .adding thread .handler | .entering thread => [thread]
  | .added .handler | .choosing | .popping | .crashed => []

/-- Interrupts are on only in the code of a thread, and a handler does not turn them on. -/
def Cpu.Ok {Ctx : Type*} (n : ℕ) (c : Cpu Ctx) : Prop :=
  match c.stage with
  | .running => True
  | .saving _ frame => c.interrupts = false ∧ frame.interrupts = true
  | .handing thread => c.interrupts = false ∧ n ≤ thread
  | .adding thread .thread => c.interrupts = false ∧ n ≤ thread
  | .adding thread .handler => c.interrupts = false ∧ n ≤ thread ∧ c.iFlag = false
  | .added .handler => c.interrupts = false ∧ c.iFlag = false
  | .requeueing | .added .thread | .choosing | .popping | .entering _ | .switching =>
      c.interrupts = false
  | .crashed => False

theorem Cpu.Ok.masked {Ctx : Type*} {n : ℕ} {c : Cpu Ctx} (h : c.Ok n)
    (hon : c.interrupts = true) : c.stage = .running := by
  unfold Cpu.Ok at h
  split at h <;> simp_all

/-- Each thread that has been made is on one core or in the queue, the idle threads on their own
cores and the others somewhere. -/
structure Located {n : ℕ} (hold : Fin n → List Nat) (l : List Nat) (next : ℕ) : Prop where
  nodup : ∀ i, (hold i ++ l).Nodup
  cores : ∀ i j t, t ∈ hold i → t ∈ hold j → i = j
  idle : ∀ i t, t ∈ hold i → t < n → t = i
  ready : ∀ t, t ∈ l → n ≤ t
  below : ∀ i t, t ∈ hold i ++ l → t < next
  made : ∀ t, n ≤ t → t < next → t ∈ l ∨ ∃ i, t ∈ hold i

namespace Located

variable {n : ℕ} {hold : Fin n → List Nat} {l l' : List Nat} {next next' : ℕ} {i : Fin n}
  {h' : List Nat}

/-- A core and the queue pass threads to each other, and the core's idle thread and new threads
come and go. -/
theorem update (h : Located hold l next) (hn : n ≤ next) (hnext : next ≤ next')
    (nodup : (h' ++ l').Nodup)
    (old : ∀ t, t ∈ h' ++ l' → t ∈ hold i ++ l ∨ t = i ∨ (next ≤ t ∧ t < next'))
    (ready : ∀ t, t ∈ l' → n ≤ t)
    (kept : ∀ t, n ≤ t → t ∈ hold i ++ l ∨ (next ≤ t ∧ t < next') → t ∈ h' ++ l') :
    Located (Function.update hold i h') l' next' := by
  have hself : Function.update hold i h' i = h' := Function.update_self _ _ _
  have hother : ∀ j, j ≠ i → Function.update hold i h' j = hold j := by
    intro j hj
    exact Function.update_of_ne hj _ _
  -- What core `i` has now was not with another core.
  have hapart : ∀ j t, j ≠ i → t ∈ hold j → t ∉ h' ++ l' := by
    intro j t hj ht hnew
    obtain hbefore | rfl | ⟨hfresh, -⟩ := old t hnew
    · obtain hi | hl := List.mem_append.mp hbefore
      · exact hj (h.cores j i t ht hi)
      · exact (List.disjoint_of_nodup_append (h.nodup j)) ht hl
    · exact hj (Fin.ext (h.idle j i ht i.isLt).symm)
    · exact absurd (h.below j t (List.mem_append_left _ ht)) (by omega)
  constructor
  case nodup =>
    intro j
    by_cases hj : j = i
    · rw [hj, hself]
      exact nodup
    · rw [hother j hj]
      apply List.Nodup.append (List.Nodup.of_append_left (h.nodup j))
        (List.Nodup.of_append_right nodup)
      intro t ht hl
      exact hapart j t hj ht (List.mem_append_right _ hl)
  case cores =>
    intro j k t hjt hkt
    by_cases hj : j = i
    · by_cases hk : k = i
      · rw [hj, hk]
      · rw [hj, hself] at hjt
        rw [hother k hk] at hkt
        exact absurd (List.mem_append_left _ hjt) (hapart k t hk hkt)
    · rw [hother j hj] at hjt
      by_cases hk : k = i
      · rw [hk, hself] at hkt
        exact absurd (List.mem_append_left _ hkt) (hapart j t hj hjt)
      · rw [hother k hk] at hkt
        exact h.cores j k t hjt hkt
  case idle =>
    intro j t ht hlt
    by_cases hj : j = i
    · rw [hj, hself] at ht
      obtain hbefore | rfl | ⟨hfresh, -⟩ := old t (List.mem_append_left _ ht)
      · obtain hi | hl := List.mem_append.mp hbefore
        · rw [hj]
          exact h.idle i t hi hlt
        · exact absurd (h.ready t hl) (by omega)
      · rw [hj]
      · omega
    · rw [hother j hj] at ht
      exact h.idle j t ht hlt
  case ready => exact ready
  case below =>
    have hnew : ∀ t, t ∈ h' ++ l' → t < next' := by
      intro t ht
      obtain hbefore | rfl | ⟨-, hlt⟩ := old t ht
      · exact lt_of_lt_of_le (h.below i t hbefore) hnext
      · have hlt := i.isLt
        omega
      · exact hlt
    intro j t ht
    by_cases hj : j = i
    · rw [hj, hself] at ht
      exact hnew t ht
    · rw [hother j hj] at ht
      obtain hbefore | hl := List.mem_append.mp ht
      · exact lt_of_lt_of_le (h.below j t (List.mem_append_left _ hbefore)) hnext
      · exact hnew t (List.mem_append_right _ hl)
  case made =>
    intro t hnt hlt
    have hmoved : t ∈ h' ++ l' → t ∈ l' ∨ ∃ j, t ∈ Function.update hold i h' j := by
      intro ht
      obtain hi | hl := List.mem_append.mp ht
      · exact Or.inr ⟨i, by rwa [hself]⟩
      · exact Or.inl hl
    by_cases hfresh : next ≤ t
    · exact hmoved (kept t hnt (Or.inr ⟨hfresh, hlt⟩))
    · obtain hl | ⟨j, hj⟩ := h.made t hnt (by omega)
      · exact hmoved (kept t hnt (Or.inl (List.mem_append_right _ hl)))
      · by_cases hji : j = i
        · rw [hji] at hj
          exact hmoved (kept t hnt (Or.inl (List.mem_append_left _ hj)))
        · exact Or.inr ⟨j, by rwa [hother j hji]⟩

/-- The threads of a core and of the queue stay the same altogether. -/
theorem exchange (h : Located hold l next) (hn : n ≤ next) (hperm : (h' ++ l').Perm (hold i ++ l))
    (ready : ∀ t, t ∈ l' → n ≤ t) : Located (Function.update hold i h') l' next := by
  apply h.update hn le_rfl (hperm.nodup_iff.mpr (h.nodup i))
  · exact fun t ht => Or.inl (hperm.mem_iff.mp ht)
  · exact ready
  · rintro t - (ht | ⟨hle, hlt⟩)
    · exact hperm.mem_iff.mpr ht
    · omega

/-- A core without a thread takes its idle thread. -/
theorem wake (h : Located hold l next) (hn : n ≤ next) (hi : hold i = []) :
    Located (Function.update hold i [i.val]) l next := by
  have hl : i.val ∉ l := by
    intro hin
    have hle := h.ready _ hin
    have hlt := i.isLt
    omega
  apply h.update hn le_rfl
  · rw [List.singleton_append, List.nodup_cons]
    exact ⟨hl, (List.Nodup.of_append_right (h.nodup i))⟩
  · rw [hi]
    intro t ht
    obtain rfl | hin := List.mem_cons.mp ht
    · exact Or.inr (Or.inl rfl)
    · exact Or.inl hin
  · exact h.ready
  · rw [hi]
    rintro t - (ht | ⟨hle, hlt⟩)
    · exact List.mem_cons_of_mem _ ht
    · omega

/-- A core leaves its idle thread. -/
theorem park (h : Located hold l next) (hn : n ≤ next) (hi : hold i = [i.val]) :
    Located (Function.update hold i []) l next := by
  apply h.update hn le_rfl
  · exact List.Nodup.of_append_right (h.nodup i)
  · exact fun t ht => Or.inl (List.mem_append_right _ ht)
  · exact h.ready
  · rw [hi]
    rintro t hnt (ht | ⟨hle, hlt⟩)
    · obtain rfl | hin := List.mem_cons.mp ht
      · exact absurd i.isLt (by omega)
      · exact hin
    · omega

/-- A core makes a thread. -/
theorem make (h : Located hold l next) (hn : n ≤ next) :
    Located (Function.update hold i (hold i ++ [next])) l (next + 1) := by
  have hfresh : next ∉ hold i ++ l := fun hin => lt_irrefl _ (h.below i next hin)
  have hperm : (hold i ++ [next] ++ l).Perm (next :: (hold i ++ l)) := by
    rw [List.append_assoc]
    exact List.perm_middle
  apply h.update hn (Nat.le_succ next)
  · exact hperm.nodup_iff.mpr (List.nodup_cons.mpr ⟨hfresh, h.nodup i⟩)
  · intro t ht
    obtain rfl | hin := List.mem_cons.mp (hperm.mem_iff.mp ht)
    · exact Or.inr (Or.inr ⟨le_rfl, Nat.lt_succ_self _⟩)
    · exact Or.inl hin
  · exact h.ready
  · rintro t - (ht | ⟨hle, hlt⟩)
    · exact hperm.mem_iff.mpr (List.mem_cons_of_mem _ ht)
    · have heq : t = next := by omega
      rw [heq]
      exact hperm.mem_iff.mpr List.mem_cons_self

end Located

namespace Machine

variable {n : ℕ} {Ctx : Type*} {m : Machine n Ctx} {links : Nat → Option Nat} {i : Fin n}

structure Inv (links : Nat → Option Nat) (m : Machine n Ctx) : Prop where
  lock : m.queue.Inv readyRegion ⟨none, none, links, links⟩
  stages : ∀ i, (m.queue.place i).call? = (m.cpu i).stage.call?
  adds : EveryStep Arch.queued AddsNew [] m.calls
  placed : Located (fun i => (m.cpu i).threads) m.queued m.nextThread
  cpus : ∀ i, (m.cpu i).Ok n
  saved : ∀ t, (m.saved t).interrupts = true
  number : n ≤ m.nextThread

theorem threads_setCpu (m : Machine n Ctx) (i : Fin n) (c : Cpu Ctx) :
    (fun j => ((m.setCpu i c).cpu j).threads) =
      Function.update (fun j => (m.cpu j).threads) i c.threads :=
  Function.comp_update Cpu.threads m.cpu i c

@[simp] theorem setCpu_self (m : Machine n Ctx) (i : Fin n) (c : Cpu Ctx) :
    (m.setCpu i c).cpu i = c :=
  Function.update_self _ _ _

theorem setCpu_ne (m : Machine n Ctx) {i j : Fin n} (c : Cpu Ctx) (h : j ≠ i) :
    (m.setCpu i c).cpu j = m.cpu j :=
  Function.update_of_ne h _ _

theorem forall_setCpu {P : Fin n → Cpu Ctx → Prop} {c : Cpu Ctx} (h : ∀ j, P j (m.cpu j))
    (hi : P i c) : ∀ j, P j ((m.setCpu i c).cpu j) := by
  intro j
  by_cases hj : j = i
  · rw [hj, setCpu_self]
    exact hi
  · rw [setCpu_ne m c hj]
    exact h j

/-- A step of one core outside the ready queue. -/
theorem Inv.setCpu (h : m.Inv links) {c : Cpu Ctx}
    (hstage : c.stage.call? = (m.cpu i).stage.call?) (hok : c.Ok n)
    (hplaced : Located (Function.update (fun j => (m.cpu j).threads) i c.threads) m.queued
      m.nextThread) : (m.setCpu i c).Inv links where
  lock := h.lock
  stages :=
    forall_setCpu (P := fun j c => (m.queue.place j).call? = c.stage.call?) h.stages
      ((h.stages i).trans hstage.symm)
  adds := h.adds
  placed := (threads_setCpu m i c).symm ▸ hplaced
  cpus := forall_setCpu (P := fun _ c => c.Ok n) h.cpus hok
  saved := h.saved
  number := h.number

/-- The core keeps its threads. -/
theorem Inv.setCpu_threads (h : m.Inv links) {c : Cpu Ctx}
    (hstage : c.stage.call? = (m.cpu i).stage.call?) (hok : c.Ok n)
    (hthreads : c.threads = (m.cpu i).threads) : (m.setCpu i c).Inv links := by
  apply h.setCpu hstage hok
  rw [hthreads, Function.update_eq_self]
  exact h.placed

/-- A core calls `schedule_add_thread` or `pop_thread_from_queue`, maybe for a thread that it has
just made. -/
theorem Inv.setCall (h : m.Inv links) {c : Cpu Ctx} {action : QueueAction}
    {saved : Nat → Frame Ctx} {next : Nat}
    (hstage : (m.cpu i).stage.call? = none) (hcall : c.stage.call? = some action) (hok : c.Ok n)
    (hplaced : Located (Function.update (fun j => (m.cpu j).threads) i c.threads) m.queued next)
    (hsaved : ∀ t, (saved t).interrupts = true) (hnumber : n ≤ next) :
    ({queue := m.queue.call i action, cpu := m.cpu, saved := saved, nextThread := next :
      Machine n Ctx}.setCpu i c).Inv links := by
  have hplace : m.queue.place i = .outside :=
    Place.call?_eq_none.mp ((h.stages i).trans hstage)
  have hsame : m.queue.call i action = m.queue.moved i (.spinning action) :=
    Cores.call_outside hplace action
  have hdone : (m.queue.call i action).done = m.queue.done := by
    rw [hsame]
    rfl
  constructor
  case lock => exact h.lock.call i action
  case stages =>
    intro j
    change ((m.queue.call i action).place j).call? = ((m.setCpu i c).cpu j).stage.call?
    rw [hsame]
    by_cases hj : j = i
    · rw [hj, Cores.moved_self, setCpu_self, hcall]
      rfl
    · rw [Cores.moved_ne _ _ hj, setCpu_ne m c hj]
      exact h.stages j
  case adds =>
    change EveryStep Arch.queued AddsNew [] ((m.queue.call i action).done.map _)
    rw [hdone]
    exact h.adds
  case placed =>
    change Located _ (((m.queue.call i action).done.map _).foldl Arch.queued []) next
    rw [hdone, threads_setCpu]
    exact hplaced
  case cpus => exact forall_setCpu (P := fun _ c => c.Ok n) h.cpus hok
  case saved => exact hsaved
  case number => exact hnumber

/-- The core keeps its threads. -/
theorem Inv.setCall_threads (h : m.Inv links) {c : Cpu Ctx} {action : QueueAction}
    (hstage : (m.cpu i).stage.call? = none) (hcall : c.stage.call? = some action) (hok : c.Ok n)
    (hthreads : c.threads = (m.cpu i).threads) :
    ({m with queue := m.queue.call i action}.setCpu i c).Inv links := by
  apply h.setCall hstage hcall hok _ h.saved h.number
  rw [hthreads, Function.update_eq_self]
  exact h.placed

/-- A call that is about to return has found the queue as the calls before it left it. -/
theorem Inv.answered (h : m.Inv links) {action : QueueAction} {r : QueueAnswer}
    (hplace : m.queue.place i = .leaving action r) :
    (m.cpu i).stage.call? = some action ∧ AddsNew m.queued action ∧
      r = ReadyQueue.answer m.queued action := by
  have hstage : (m.cpu i).stage.call? = some action := by
    rw [← h.stages i, hplace]
    rfl
  have hnew : AddsNew m.queued action := by
    rintro t rfl hin
    have hholds : t ∈ (m.cpu i).threads := by
      obtain ⟨caller, heq⟩ := Stage.of_call_add hstage
      rw [Cpu.threads, heq]
      cases caller <;> simp
    exact (List.disjoint_of_nodup_append (h.placed.nodup i)) hholds hin
  obtain ⟨q, serial, runs⟩ := h.lock.leaving hplace
  have hq : q.Is m.queued := ReadyQueue.is_of_serial serial h.adds
  exact ⟨hstage, hnew, (hq.runs hnew runs).1⟩

/-- The lock is given back. -/
theorem Inv.setReturn (h : m.Inv links) {c : Cpu Ctx} {action : QueueAction} {r : QueueAnswer}
    (hplace : m.queue.place i = .leaving action r) (hcall : c.stage.call? = none) (hok : c.Ok n)
    (hplaced : Located (Function.update (fun j => (m.cpu j).threads) i c.threads)
      (Arch.queued m.queued action) m.nextThread) :
    ({m with queue := m.queue.tick readyRegion i}.setCpu i c).Inv links := by
  have hlock : m.queue.lock = 1 := (h.lock.of_holds (i := i) (by rw [hplace]; trivial)).1
  have hsame : m.queue.tick readyRegion i = _ := Cores.tick_release hplace hlock
  have hcalls : ({m with queue := m.queue.tick readyRegion i}.setCpu i c).calls =
      m.calls ++ [action] := by
    change ((m.queue.tick readyRegion i).done.map _) = _
    rw [hsame, List.map_append]
    rfl
  constructor
  case lock => exact h.lock.tick i
  case stages =>
    intro j
    change ((m.queue.tick readyRegion i).place j).call? = ((m.setCpu i c).cpu j).stage.call?
    rw [hsame]
    change ((m.queue.moved i .outside).place j).call? = _
    by_cases hj : j = i
    · rw [hj, Cores.moved_self, setCpu_self, hcall]
      rfl
    · rw [Cores.moved_ne _ _ hj, setCpu_ne m c hj]
      exact h.stages j
  case adds =>
    rw [hcalls, everyStep_snoc]
    exact ⟨h.adds, (h.answered hplace).2.1⟩
  case placed =>
    have hqueued : ({m with queue := m.queue.tick readyRegion i}.setCpu i c).queued =
        Arch.queued m.queued action := by
      rw [Machine.queued, hcalls, List.foldl_append]
      rfl
    rw [hqueued, threads_setCpu]
    exact hplaced
  case cpus => exact forall_setCpu (P := fun _ c => c.Ok n) h.cpus hok
  case saved => exact h.saved
  case number => exact h.number

theorem Inv.inRegion (h : m.Inv links) (i : Fin n) : (m.inRegion i).Inv links := by
  unfold Machine.inRegion
  split
  · rename_i action r hplace
    obtain ⟨hcall, hnew, rfl⟩ := h.answered hplace
    have hok := h.cpus i
    cases action with
    | add thread =>
        obtain ⟨caller, hat⟩ := Stage.of_call_add hcall
        have hn : n ≤ thread := by
          rw [Cpu.Ok, hat] at hok
          cases caller with
          | thread => exact hok.2
          | handler => exact hok.2.1
        have hready : ∀ t, t ∈ m.queued ++ [thread] → n ≤ t := by
          intro t ht
          obtain hin | hin := List.mem_append.mp ht
          · exact h.placed.ready t hin
          · rw [List.mem_singleton.mp hin]
            exact hn
        rw [hat]
        apply h.setReturn hplace
        · rfl
        · rw [Cpu.Ok, hat] at hok
          cases caller with
          | thread => exact hok.1
          | handler => exact ⟨hok.1, hok.2.2⟩
        · apply h.placed.exchange h.number _ hready
          simp only [Cpu.threads, hat, afterRegion, ReadyQueue.answer]
          cases caller with
          | thread =>
              change ([(m.cpu i).current] ++ (m.queued ++ [thread])).Perm
                ([(m.cpu i).current] ++ ([thread] ++ m.queued))
              exact List.perm_append_comm.append_left _
          | handler =>
              change (m.queued ++ [thread]).Perm ([thread] ++ m.queued)
              exact List.perm_append_comm
    | pop =>
        have hat := Stage.of_call_pop hcall
        rw [Cpu.Ok, hat] at hok
        rw [hat]
        apply h.setReturn hplace
        · rfl
        · exact hok
        · cases hl : m.queued with
          | nil =>
              have hempty : (m.cpu i).threads = [] := by
                rw [Cpu.threads, hat]
              have hplaced := h.placed.wake h.number hempty
              rw [hl] at hplaced
              exact hplaced
          | cons t l =>
              apply h.placed.exchange h.number
              · rw [hl]
                simp only [Cpu.threads, hat, afterRegion, ReadyQueue.answer]
                exact List.Perm.refl _
              · intro u hu
                apply h.placed.ready u
                rw [hl]
                exact List.mem_cons_of_mem _ hu
  · rename_i hplace
    have hleave : ∀ c r, m.queue.place i ≠ .leaving c r := by
      intro c r heq
      exact hplace c r heq
    obtain ⟨hsame, hdone⟩ : ((m.queue.tick readyRegion i).place i).call? = _ ∧
        (m.queue.tick readyRegion i).done = _ := Cores.tick_call hleave
    have hcalls : {m with queue := m.queue.tick readyRegion i}.calls = m.calls :=
      congrArg (List.map fun c : Fin n × QueueAction × QueueAnswer => c.2.1) hdone
    constructor
    case lock => exact h.lock.tick i
    case stages =>
      intro j
      change ((m.queue.tick readyRegion i).place j).call? = _
      by_cases hj : j = i
      · rw [hj, hsame]
        exact h.stages i
      · rw [Cores.tick_place_ne m.queue hj]
        exact h.stages j
    case adds => exact hcalls ▸ h.adds
    case placed =>
      have hqueued : {m with queue := m.queue.tick readyRegion i}.queued = m.queued :=
        congrArg (List.foldl Arch.queued []) hcalls
      rw [hqueued]
      exact h.placed
    case cpus => exact h.cpus
    case saved => exact h.saved
    case number => exact h.number

theorem saved_update (hsaved : ∀ t, (m.saved t).interrupts = true) (thread : Nat)
    {frame : Frame Ctx} (hframe : frame.interrupts = true) :
    ∀ t, (Function.update m.saved thread frame t).interrupts = true := by
  intro t
  by_cases ht : t = thread
  · rw [ht, Function.update_self]
    exact hframe
  · rw [Function.update_of_ne ht]
    exact hsaved t

theorem Inv.saveContext (h : m.Inv links) (i : Fin n) {frame : Frame Ctx}
    (hframe : frame.interrupts = true) : (m.saveContext i frame).Inv links where
  lock := h.lock
  stages := h.stages
  adds := h.adds
  placed := h.placed
  cpus := h.cpus
  saved := saved_update h.saved _ hframe
  number := h.number

theorem save_cpu (m : Machine n Ctx) (i : Fin n) (frame : Frame Ctx) (handler : Handler) :
    (m.save i frame handler).cpu = m.cpu := by
  cases handler with
  | timer => rfl
  | keyboard => rfl
  | mouse =>
      rw [Machine.save]
      split
      · rfl
      · rfl

theorem Inv.save (h : m.Inv links) (i : Fin n) {frame : Frame Ctx}
    (hframe : frame.interrupts = true) (handler : Handler) : (m.save i frame handler).Inv links := by
  cases handler with
  | timer => exact h.saveContext i hframe
  | keyboard => exact h.saveContext i hframe
  | mouse =>
      rw [Machine.save]
      split
      · exact h
      · exact h.saveContext i hframe

theorem Inv.tick (h : m.Inv links) (i : Fin n) : (m.tick i).Inv links := by
  have hok := h.cpus i
  unfold Machine.tick
  cases hat : (m.cpu i).stage with
  | running => exact h
  | saving handler frame =>
      rw [Cpu.Ok, hat] at hok
      apply (h.save i hok.2 handler).setCpu_threads
      · rw [save_cpu, hat]
        rfl
      · rw [save_cpu]
        exact hok.1
      · rw [save_cpu]
        simp only [Cpu.threads, hat]
  | requeueing =>
      rw [Cpu.Ok, hat] at hok
      have hthreads : (m.cpu i).threads = [(m.cpu i).current] := by
        rw [Cpu.threads, hat]
      dsimp only
      split
      · rename_i hidle
        apply h.setCpu
        · rw [hat]
          rfl
        · exact hok
        · rw [hidle] at hthreads
          exact h.placed.park h.number hthreads
      · rename_i hidle
        apply h.setCpu_threads
        · rw [hat]
          rfl
        · refine ⟨hok, ?_⟩
          by_contra hlt
          apply hidle
          apply h.placed.idle i _ _ (by omega)
          rw [hthreads]
          exact List.mem_singleton_self _
        · rw [hthreads]
          rfl
  | handing thread =>
      rw [Cpu.Ok, hat] at hok
      apply h.setCall_threads
      · rw [hat]
        rfl
      · rfl
      · exact ⟨rfl, hok.2, hok.1⟩
      · simp only [Cpu.threads, hat]
  | adding thread caller => exact h.inRegion i
  | popping => exact h.inRegion i
  | added caller =>
      rw [Cpu.Ok, hat] at hok
      cases caller with
      | thread =>
          apply h.setCpu_threads
          · rw [hat]
            rfl
          · trivial
          · simp only [Cpu.threads, hat]
      | handler =>
          apply h.setCpu_threads
          · rw [hat]
            rfl
          · change ((m.cpu i).interrupts || (m.cpu i).iFlag) = false
            rw [hok.1, hok.2]
            rfl
          · simp only [Cpu.threads, hat]
  | choosing =>
      rw [Cpu.Ok, hat] at hok
      apply h.setCall_threads
      · rw [hat]
        rfl
      · rfl
      · exact hok
      · simp only [Cpu.threads, hat]
  | entering thread =>
      rw [Cpu.Ok, hat] at hok
      apply h.setCpu_threads
      · rw [hat]
        rfl
      · exact hok
      · simp only [Cpu.threads, hat]
  | switching =>
      apply h.setCpu_threads
      · rw [hat]
        rfl
      · trivial
      · simp only [Cpu.threads, hat]
  | crashed =>
      rw [Cpu.Ok, hat] at hok
      exact hok.elim

/-- A step of the running thread. -/
theorem Inv.setRunning (h : m.Inv links) (hat : (m.cpu i).stage = .running) {c : Cpu Ctx}
    (hc : c.stage = .running) (hcurrent : c.current = (m.cpu i).current) :
    (m.setCpu i c).Inv links := by
  apply h.setCpu_threads
  · rw [hc, hat]
  · rw [Cpu.Ok, hc]
    trivial
  · simp only [Cpu.threads, hc, hat, hcurrent]

theorem Inv.spawn (h : m.Inv links) (i : Fin n) (regs : Ctx) : (m.spawn i regs).Inv links := by
  unfold Machine.spawn
  split
  · rename_i hat
    have hthreads : (m.cpu i).threads = [(m.cpu i).current] := by
      rw [Cpu.threads, hat]
    apply h.setCall
    · rw [hat]
      rfl
    · rfl
    · exact ⟨rfl, h.number⟩
    · have hplaced := h.placed.make (i := i) h.number
      simp only [hthreads] at hplaced
      exact hplaced
    · exact saved_update h.saved m.nextThread rfl
    · exact Nat.le_succ_of_le h.number
  · exact h

theorem Inv.step (h : m.Inv links) (a : MachineStep n Ctx) : (m.step a).Inv links := by
  cases a with
  | execute i instruction =>
      change (m.execute i instruction).Inv links
      unfold Machine.execute
      split
      · rename_i hat
        exact h.setRunning hat hat rfl
      · exact h
  | mask i interrupts =>
      change (m.mask i interrupts).Inv links
      unfold Machine.mask
      split
      · rename_i hat
        exact h.setRunning hat hat rfl
      · exact h
  | spawn i regs => exact h.spawn i regs
  | interrupt i handler =>
      change (m.interrupt i handler).Inv links
      unfold Machine.interrupt
      split
      · exact h
      · rename_i hon
        have hat := (h.cpus i).masked hon
        apply h.setCpu_threads
        · rw [hat]
          rfl
        · exact ⟨rfl, rfl⟩
        · simp only [Cpu.threads, hat]
  | tick i => exact h.tick i

theorem Inv.boot (bsp : Fin n) (regs : Nat → Ctx) (links : Nat → Option Nat) :
    (Machine.boot bsp regs links).Inv links := by
  have hthreads : ∀ i, ((Machine.boot bsp regs links).cpu i).threads =
      if i = bsp then [n] else [] := by
    intro i
    by_cases hi : i = bsp <;> simp [Machine.boot, Cpu.threads, hi]
  have hmem : ∀ {i t}, t ∈ ((Machine.boot bsp regs links).cpu i).threads ↔ i = bsp ∧ t = n := by
    intro i t
    rw [hthreads]
    split <;> simp_all
  constructor
  case lock => exact Cores.Inv.start readyRegion _
  case stages =>
    intro i
    by_cases hi : i = bsp <;> simp [Machine.boot, Cores.start, Place.call?, Stage.call?, hi]
  case adds => trivial
  case placed =>
    constructor
    case nodup =>
      intro i
      rw [hthreads]
      split <;> simp [Machine.queued, Machine.calls, Machine.boot, Cores.start]
    case cores => exact fun i j t hi hj => (hmem.mp hi).1.trans (hmem.mp hj).1.symm
    case idle => exact fun i t ht hlt => absurd (hmem.mp ht).2 hlt.ne
    case ready => exact fun t ht => absurd ht List.not_mem_nil
    case below =>
      intro i t ht
      obtain ht | ht := List.mem_append.mp ht
      · rw [(hmem.mp ht).2]
        exact Nat.lt_succ_self n
      · exact absurd ht List.not_mem_nil
    case made => exact fun t hn hlt => Or.inr ⟨bsp, hmem.mpr ⟨rfl, (Nat.lt_succ_iff.mp hlt).antisymm hn⟩⟩
  case cpus =>
    intro i
    by_cases hi : i = bsp <;> simp [Machine.boot, Cpu.Ok, hi]
  case saved => exact fun t => rfl
  case number => exact Nat.le_succ n

theorem Inv.reached (bsp : Fin n) (regs : Nat → Ctx) (links : Nat → Option Nat)
    (actions : List (MachineStep n Ctx)) :
    (actions.foldl Machine.step (Machine.boot bsp regs links)).Inv links :=
  foldl_inv (fun _ a h => h.step a) (Inv.boot bsp regs links) actions

/-- What holds of the threads at every moment. -/
structure Exclusive (m : Machine n Ctx) : Prop where
  /-- One core at most is in the region of the ready queue. -/
  region : ∀ i j, (m.queue.place i).Holds → (m.queue.place j).Holds → i = j
  /-- No thread is with two cores, or with a core and in the ready queue, or queued twice. -/
  cores : ∀ i j t, t ∈ (m.cpu i).threads → t ∈ (m.cpu j).threads → i = j
  queue : ∀ i t, t ∈ (m.cpu i).threads → t ∉ m.queued
  once : m.queued.Nodup
  /-- No thread is lost. -/
  somewhere : ∀ t, n ≤ t → t < m.nextThread → t ∈ m.queued ∨ ∃ i, t ∈ (m.cpu i).threads
  /-- Whenever the lock is free the links of the queue are in order. -/
  links : (∀ i, ¬ (m.queue.place i).Holds) → m.queue.shared.Linked m.queued
  /-- No core reads or writes a link of `NULL`. -/
  safe : ∀ i, (m.cpu i).stage ≠ .crashed

/-- Whatever order the steps of the cores and the interrupts of the devices come in, as long as the
threads are preempted only and do not yield, wait, join or end. -/
theorem threads_exclusive (bsp : Fin n) (regs : Nat → Ctx) (links : Nat → Option Nat)
    (actions : List (MachineStep n Ctx)) :
    (actions.foldl Machine.step (Machine.boot bsp regs links)).Exclusive := by
  have h := Inv.reached bsp regs links actions
  constructor
  case region => exact fun i j hi hj => h.lock.exclusive hi hj
  case cores => exact h.placed.cores
  case queue =>
    exact fun i t hi hl => (List.disjoint_of_nodup_append (h.placed.nodup i)) hi hl
  case once => exact List.Nodup.of_append_right (h.placed.nodup bsp)
  case somewhere => exact h.placed.made
  case links =>
    intro hfree
    obtain ⟨q, serial, hsame⟩ := h.lock.serial
    rw [← hsame hfree]
    exact (ReadyQueue.is_of_serial serial h.adds).linked
  case safe =>
    intro i hcrash
    have hok := h.cpus i
    rw [Cpu.Ok, hcrash] at hok
    exact hok

/-- What a step does to the registers of a thread if nothing else ran. -/
def effect (m : Machine n Ctx) (thread : Nat) (c : Ctx) : MachineStep n Ctx → Ctx
  | .execute i instruction =>
      match (m.cpu i).stage with
      | .running => if (m.cpu i).current = thread then instruction c else c
      | _ => c
  | .spawn i regs =>
      match (m.cpu i).stage with
      | .running => if m.nextThread = thread then regs else c
      | _ => c
  | _ => c

/-- The registers of a thread after its own instructions in a run. -/
def own (thread : Nat) : Machine n Ctx → Ctx → List (MachineStep n Ctx) → Ctx
  | _, c, [] => c
  | m, c, a :: rest => own thread (m.step a) (m.effect thread c a) rest

end Machine

/-- The thread whose registers a core has, in itself or in the frame that it has pushed. -/
def Cpu.live {Ctx : Type*} (c : Cpu Ctx) : Option (Nat × Ctx) :=
  match c.stage with
  | .running | .adding _ .thread | .added .thread => some (c.current, c.regs)
  | .saving _ frame => some (c.current, frame.regs)
  | _ => none

theorem Cpu.live_threads {Ctx : Type*} {c : Cpu Ctx} {t : Nat} {x : Ctx}
    (h : c.live = some (t, x)) : t ∈ c.threads := by
  unfold Cpu.live at h
  split at h <;> cases h <;> simp [Cpu.threads, *]

namespace Machine

variable {n : ℕ} {Ctx : Type*} {m : Machine n Ctx} {links : Nat → Option Nat} {i : Fin n}
  {V : Nat → Ctx}

/-- The registers of each thread are in the core that runs it, or else in its context. -/
structure Virtual (m : Machine n Ctx) (V : Nat → Ctx) : Prop where
  live : ∀ i t x, n ≤ t → (m.cpu i).live = some (t, x) → V t = x
  parked : ∀ t, n ≤ t → t < m.nextThread → (∀ i x, (m.cpu i).live ≠ some (t, x)) →
    (m.saved t).regs = V t

theorem Virtual.setQueue (h : m.Virtual V)
    (queue : Cores (Fin n) ReadyQueue QueueAction QueuePlace QueueAnswer) :
    {m with queue}.Virtual V :=
  ⟨h.live, h.parked⟩

/-- A step of one core that leaves the registers of its thread where they are. -/
theorem Virtual.setCpu (h : m.Virtual V) {c : Cpu Ctx} (hlive : c.live = (m.cpu i).live) :
    (m.setCpu i c).Virtual V := by
  have hsame : ∀ j, ((m.setCpu i c).cpu j).live = (m.cpu j).live :=
    forall_setCpu (P := fun j c => c.live = (m.cpu j).live) (fun _ => rfl) hlive
  constructor
  case live =>
    intro j t x hn hj
    rw [hsame] at hj
    exact h.live j t x hn hj
  case parked =>
    intro t hn hlt hnone
    exact h.parked t hn hlt fun j x hj => hnone j x ((hsame j).trans hj)

/-- The context of the interrupted thread is the pushed frame. -/
theorem Virtual.saving (h : m.Virtual V) {handler : Handler} {frame : Frame Ctx}
    (hat : (m.cpu i).stage = .saving handler frame) :
    ((m.save i frame handler).setStage i .requeueing).Virtual V := by
  have hcpu := save_cpu m i frame handler
  have hlive : (m.cpu i).live = some ((m.cpu i).current, frame.regs) := by
    rw [Cpu.live, hat]
  have hother : ∀ j, j ≠ i →
      ((m.save i frame handler).setStage i .requeueing).cpu j = m.cpu j := by
    intro j hj
    rw [Machine.setStage, setCpu_ne _ _ hj, hcpu]
  have hself : (((m.save i frame handler).setStage i .requeueing).cpu i).live = none := by
    rw [Machine.setStage, setCpu_self]
    rfl
  have hnext : (m.save i frame handler).nextThread = m.nextThread := by
    cases handler with
    | timer => rfl
    | keyboard => rfl
    | mouse =>
        rw [Machine.save]
        split
        · rfl
        · rfl
  have hsaved : ∀ t, n ≤ t → (m.save i frame handler).saved t =
      if t = (m.cpu i).current then frame else m.saved t := by
    intro t hn
    have hwrite : (m.saveContext i frame).saved t =
        if t = (m.cpu i).current then frame else m.saved t :=
      Function.update_apply _ _ _ _
    cases handler with
    | timer => exact hwrite
    | keyboard => exact hwrite
    | mouse =>
        rw [Machine.save]
        split
        · rename_i hidle
          have hlt := i.isLt
          rw [if_neg (by omega)]
        · exact hwrite
  constructor
  case live =>
    intro j t x hn hj
    by_cases hji : j = i
    · rw [hji, hself] at hj
      cases hj
    · rw [hother j hji] at hj
      exact h.live j t x hn hj
  case parked =>
    intro t hn hlt hnone
    change ((m.save i frame handler).saved t).regs = V t
    rw [hsaved t hn]
    split
    · rename_i ht
      exact (h.live i t _ hn (by rw [hlive, ht])).symm
    · rename_i ht
      apply h.parked t hn (by rw [← hnext]; exact hlt)
      intro j x hj
      by_cases hji : j = i
      · rw [hji, hlive] at hj
        cases hj
        exact ht rfl
      · exact hnone j x (by rw [hother j hji]; exact hj)

/-- A core whose thread is in no other core loads the thread's context. -/
theorem Virtual.switching (hinv : m.Inv links) (h : m.Virtual V)
    (hat : (m.cpu i).stage = .switching) {c : Cpu Ctx}
    (hc : c.live = some ((m.cpu i).current, (m.saved (m.cpu i).current).regs)) :
    (m.setCpu i c).Virtual V := by
  have hmine : (m.cpu i).current ∈ (m.cpu i).threads := by
    rw [Cpu.threads, hat]
    exact List.mem_singleton_self _
  have hnolive : (m.cpu i).live = none := by
    rw [Cpu.live, hat]
  have hparked : ∀ j x, (m.cpu j).live ≠ some ((m.cpu i).current, x) := by
    intro j x hj
    have hji := hinv.placed.cores j i _ (Cpu.live_threads hj) hmine
    rw [hji, hnolive] at hj
    cases hj
  constructor
  case live =>
    intro j t x hn hj
    by_cases hji : j = i
    · rw [hji, setCpu_self, hc] at hj
      cases hj
      have hlt := hinv.placed.below i _ (List.mem_append_left _ hmine)
      exact (h.parked _ hn hlt hparked).symm
    · rw [setCpu_ne m c hji] at hj
      exact h.live j t x hn hj
  case parked =>
    intro t hn hlt hnone
    apply h.parked t hn hlt
    intro j x hj
    by_cases hji : j = i
    · rw [hji, hnolive] at hj
      cases hj
    · exact hnone j x (by rw [setCpu_ne m c hji]; exact hj)

theorem effect_execute (hat : (m.cpu i).stage = .running) (t : Nat) (x : Ctx)
    (instruction : Ctx → Ctx) : m.effect t x (.execute i instruction) =
      if (m.cpu i).current = t then instruction x else x := by
  simp only [Machine.effect, hat]

theorem effect_spawn (hat : (m.cpu i).stage = .running) (t : Nat) (x regs : Ctx) :
    m.effect t x (.spawn i regs) = if m.nextThread = t then regs else x := by
  simp only [Machine.effect, hat]

/-- A core that does not run a thread executes nothing. -/
theorem not_running (hat : (m.cpu i).stage ≠ .running) (instruction : Ctx → Ctx) (regs : Ctx) :
    (m.execute i instruction = m ∧ ∀ t x, m.effect t x (.execute i instruction) = x) ∧
      (m.spawn i regs = m ∧ ∀ t x, m.effect t x (.spawn i regs) = x) := by
  unfold Machine.execute Machine.spawn
  cases hstage : (m.cpu i).stage with
  | running => exact absurd hstage hat
  | _ => simp only [Machine.effect, hstage, implies_true, and_self]

/-- An instruction of the running thread. -/
theorem Virtual.execute (hinv : m.Inv links) (h : m.Virtual V) (i : Fin n)
    (instruction : Ctx → Ctx) :
    (m.execute i instruction).Virtual fun t => m.effect t (V t) (.execute i instruction) := by
  by_cases hat : (m.cpu i).stage = .running
  case neg =>
    obtain ⟨hsame, heffect⟩ := (not_running hat instruction (m.cpu i).regs).1
    simp only [hsame, heffect]
    exact h
  case pos =>
    have hself : {m.cpu i with regs := instruction (m.cpu i).regs}.live =
        some ((m.cpu i).current, instruction (m.cpu i).regs) := by
      simp only [Cpu.live, hat]
    have hexec : m.execute i instruction =
        m.setCpu i {m.cpu i with regs := instruction (m.cpu i).regs} := by
      unfold Machine.execute
      split
      · rfl
      · contradiction
    simp only [effect_execute hat, hexec]
    have hlive : (m.cpu i).live = some ((m.cpu i).current, (m.cpu i).regs) := by
      rw [Cpu.live, hat]
    constructor
    case live =>
      intro j t x hn hj
      by_cases hji : j = i
      · rw [hji, setCpu_self, hself] at hj
        cases hj
        rw [if_pos rfl, h.live i _ _ hn hlive]
      · rw [setCpu_ne m _ hji] at hj
        have hne : (m.cpu i).current ≠ t := by
          intro heq
          exact hji (hinv.placed.cores j i t (Cpu.live_threads hj)
            (heq ▸ Cpu.live_threads hlive))
        rw [if_neg hne]
        exact h.live j t x hn hj
    case parked =>
      intro t hn hlt hnone
      have hne : (m.cpu i).current ≠ t := by
        intro heq
        exact hnone i _ (by rw [setCpu_self, hself, heq])
      rw [if_neg hne]
      apply h.parked t hn hlt
      intro j x hj
      by_cases hji : j = i
      · rw [hji, hlive] at hj
        cases hj
        exact hne rfl
      · exact hnone j x (by rw [setCpu_ne m _ hji]; exact hj)

/-- A new thread has the registers that its context is made with. -/
theorem Virtual.spawn (hinv : m.Inv links) (h : m.Virtual V) (i : Fin n) (regs : Ctx) :
    (m.spawn i regs).Virtual fun t => m.effect t (V t) (.spawn i regs) := by
  by_cases hat : (m.cpu i).stage = .running
  case neg =>
    obtain ⟨hsame, heffect⟩ := (not_running hat (fun x => x) regs).2
    simp only [hsame, heffect]
    exact h
  case pos =>
    simp only [effect_spawn hat, Machine.spawn, hat]
    apply Virtual.setCpu
    case hlive => simp only [Cpu.live, hat]
    apply Virtual.setQueue
    constructor
    case live =>
      intro j t x hn hj
      have hlt := hinv.placed.below j t (List.mem_append_left _ (Cpu.live_threads hj))
      rw [if_neg hlt.ne']
      exact h.live j t x hn hj
    case parked =>
      intro t hn hlt hnone
      by_cases ht : m.nextThread = t
      · rw [if_pos ht, ← ht]
        change (Function.update m.saved m.nextThread ⟨regs, true⟩ m.nextThread).regs = regs
        rw [Function.update_self]
      · rw [if_neg ht]
        have hold : t < m.nextThread := by
          change t < m.nextThread + 1 at hlt
          omega
        change (Function.update m.saved m.nextThread ⟨regs, true⟩ t).regs = V t
        rw [Function.update_of_ne (Ne.symm ht)]
        exact h.parked t hn hold hnone

theorem Virtual.inRegion (hinv : m.Inv links) (h : m.Virtual V) (i : Fin n) :
    (m.inRegion i).Virtual V := by
  unfold Machine.inRegion
  split
  · rename_i action r hplace
    obtain ⟨hcall, -, rfl⟩ := hinv.answered hplace
    apply (h.setQueue _).setCpu
    cases action with
    | add thread =>
        obtain ⟨caller, hat⟩ := Stage.of_call_add hcall
        cases caller with
        | thread => simp only [Cpu.live, hat, afterRegion, ReadyQueue.answer]
        | handler => simp only [Cpu.live, hat, afterRegion, ReadyQueue.answer]
    | pop =>
        have hat := Stage.of_call_pop hcall
        simp only [Cpu.live, hat, afterRegion, ReadyQueue.answer]
  · exact h.setQueue _

theorem Virtual.tick (hinv : m.Inv links) (h : m.Virtual V) (i : Fin n) : (m.tick i).Virtual V := by
  unfold Machine.tick
  cases hat : (m.cpu i).stage with
  | running => exact h
  | saving handler frame => exact h.saving hat
  | requeueing =>
      dsimp only
      split
      · apply h.setCpu
        simp only [Cpu.live, hat]
      · apply h.setCpu
        simp only [Cpu.live, hat]
  | handing thread =>
      apply (h.setQueue _).setCpu
      simp only [Cpu.live, hat]
  | adding thread caller => exact h.inRegion hinv i
  | popping => exact h.inRegion hinv i
  | added caller =>
      apply h.setCpu
      cases caller with
      | thread => simp only [Cpu.live, hat]
      | handler => simp only [Cpu.live, hat]
  | choosing =>
      apply (h.setQueue _).setCpu
      simp only [Cpu.live, hat]
  | entering thread =>
      apply h.setCpu
      simp only [Cpu.live, hat]
  | switching =>
      apply h.switching hinv hat
      rfl
  | crashed => exact h

theorem Virtual.step (hinv : m.Inv links) (h : m.Virtual V) (a : MachineStep n Ctx) :
    (m.step a).Virtual fun t => m.effect t (V t) a := by
  cases a with
  | execute i instruction => exact h.execute hinv i instruction
  | mask i interrupts =>
      change (m.mask i interrupts).Virtual V
      unfold Machine.mask
      split
      · rename_i hat
        apply h.setCpu
        simp only [Cpu.live, hat]
      · exact h
  | spawn i regs => exact h.spawn hinv i regs
  | interrupt i handler =>
      change (m.interrupt i handler).Virtual V
      unfold Machine.interrupt
      split
      · exact h
      · rename_i hon
        have hat := (hinv.cpus i).masked hon
        apply h.setCpu
        simp only [Cpu.live, hat]
  | tick i => exact h.tick hinv i

theorem Virtual.run (hinv : m.Inv links) (h : m.Virtual V) (actions : List (MachineStep n Ctx)) :
    (actions.foldl Machine.step m).Virtual fun t => m.own t (V t) actions := by
  induction actions generalizing m V with
  | nil => exact h
  | cons a rest ih => exact ih (hinv.step a) (h.step hinv a)

theorem Virtual.boot (bsp : Fin n) (regs : Nat → Ctx) (links : Nat → Option Nat) :
    (Machine.boot bsp regs links).Virtual regs := by
  constructor
  case live =>
    intro i t x hn hi
    by_cases hbsp : i = bsp <;> simp [Machine.boot, Cpu.live, hbsp] at hi
  case parked => exact fun t _ _ _ => rfl

/-- Threads that are preempted only are as good as alone. However often a thread is interrupted by the
timer or a device and on whichever cores it goes on, its registers are the ones it was made with
after its own instructions, and they are in the core while it runs and in its context while it is
queued. -/
theorem registers_are_own (bsp : Fin n) (regs : Nat → Ctx) (links : Nat → Option Nat)
    (actions : List (MachineStep n Ctx)) :
    (∀ i, n ≤ ((actions.foldl Machine.step (Machine.boot bsp regs links)).cpu i).current →
      ((actions.foldl Machine.step (Machine.boot bsp regs links)).cpu i).stage = .running →
      ((actions.foldl Machine.step (Machine.boot bsp regs links)).cpu i).regs =
        (Machine.boot bsp regs links).own
          ((actions.foldl Machine.step (Machine.boot bsp regs links)).cpu i).current
          (regs ((actions.foldl Machine.step (Machine.boot bsp regs links)).cpu i).current)
          actions) ∧
      ∀ t ∈ (actions.foldl Machine.step (Machine.boot bsp regs links)).queued,
        ((actions.foldl Machine.step (Machine.boot bsp regs links)).saved t).regs =
          (Machine.boot bsp regs links).own t (regs t) actions := by
  have hinv := Inv.reached bsp regs links actions
  have h := (Virtual.boot bsp regs links).run (Inv.boot bsp regs links) actions
  generalize actions.foldl Machine.step (Machine.boot bsp regs links) = m at hinv h
  constructor
  · intro i hn hat
    apply (h.live i _ _ hn _).symm
    rw [Cpu.live, hat]
  · intro t ht
    apply h.parked t (hinv.placed.ready t ht) (hinv.placed.below bsp t (List.mem_append_right _ ht))
    intro i x hi
    exact (List.disjoint_of_nodup_append (hinv.placed.nodup i)) (Cpu.live_threads hi) ht

/-- A step of the machine is at most one step of its core at the ready queue. -/
theorem step_queue (m : Machine n Ctx) (a : MachineStep n Ctx) :
    (m.step a).queue = m.queue ∨ (∃ j c, (m.step a).queue = m.queue.call j c) ∨
      ∃ j, a = .tick j ∧ (m.step a).queue = m.queue.tick readyRegion j := by
  cases a with
  | execute i instruction =>
      left
      change (m.execute i instruction).queue = m.queue
      unfold Machine.execute
      split
      · rfl
      · rfl
  | mask i interrupts =>
      left
      change (m.mask i interrupts).queue = m.queue
      unfold Machine.mask
      split
      · rfl
      · rfl
  | spawn i regs =>
      change (m.spawn i regs).queue = m.queue ∨ (∃ j c, (m.spawn i regs).queue = _) ∨ _
      unfold Machine.spawn
      split
      · exact Or.inr (Or.inl ⟨i, _, rfl⟩)
      · exact Or.inl rfl
  | interrupt i handler =>
      left
      change (m.interrupt i handler).queue = m.queue
      unfold Machine.interrupt
      split
      · rfl
      · rfl
  | tick i =>
      change (m.tick i).queue = m.queue ∨ (∃ j c, (m.tick i).queue = _) ∨
        ∃ j, _ ∧ (m.tick i).queue = _
      have hregion : (m.inRegion i).queue = m.queue.tick readyRegion i := by
        unfold Machine.inRegion
        split
        · rfl
        · rfl
      have hsave : ∀ frame handler, (m.save i frame handler).queue = m.queue := by
        intro frame handler
        cases handler with
        | timer => rfl
        | keyboard => rfl
        | mouse =>
            rw [Machine.save]
            split
            · rfl
            · rfl
      unfold Machine.tick
      cases (m.cpu i).stage with
      | running => exact Or.inl rfl
      | saving handler frame => exact Or.inl (hsave frame handler)
      | requeueing =>
          left
          dsimp only
          split
          · rfl
          · rfl
      | handing thread => exact Or.inr (Or.inl ⟨i, _, rfl⟩)
      | adding thread caller => exact Or.inr (Or.inr ⟨i, rfl, hregion⟩)
      | popping => exact Or.inr (Or.inr ⟨i, rfl, hregion⟩)
      | added caller => exact Or.inl rfl
      | choosing => exact Or.inr (Or.inl ⟨i, _, rfl⟩)
      | entering thread => exact Or.inl rfl
      | switching => exact Or.inl rfl
      | crashed => exact Or.inl rfl

/-- The step of a core that holds the lock is a step in the region. -/
theorem tick_holds (h : m.Inv links) (hi : (m.queue.place i).Holds) :
    (m.step (.tick i)).queue = m.queue.tick readyRegion i := by
  have hregion : (m.inRegion i).queue = m.queue.tick readyRegion i := by
    unfold Machine.inRegion
    split
    · rfl
    · rfl
  change (m.tick i).queue = _
  obtain ⟨action, hcall⟩ : ∃ action, (m.cpu i).stage.call? = some action := by
    rw [← h.stages i]
    cases hplace : m.queue.place i with
    | outside => exact (hplace ▸ hi).elim
    | spinning call => exact (hplace ▸ hi).elim
    | inside call l => exact ⟨call, rfl⟩
    | leaving call r => exact ⟨call, rfl⟩
  cases action with
  | add thread =>
      obtain ⟨caller, hat⟩ := Stage.of_call_add hcall
      rw [Machine.tick, hat]
      exact hregion
  | pop =>
      rw [Machine.tick, Stage.of_call_pop hcall]
      exact hregion

/-- A step of core `i`, and not an interrupt. -/
def isTick (i : Fin n) : MachineStep n Ctx → Bool
  | .tick j => j == i
  | _ => false

theorem released (h : m.Inv links) (more : List (MachineStep n Ctx))
    (hmany : Cores.remaining QueuePlace.left (m.queue.place i) ≤ more.countP (isTick i)) :
    ∃ reached, reached <+: more ∧
      ¬ ((reached.foldl Machine.step m).queue.place i).Holds := by
  induction more generalizing m with
  | nil =>
      refine ⟨[], List.prefix_rfl, fun hi => ?_⟩
      have hzero := Nat.le_zero.mp hmany
      have hfalls := Cores.remaining_tick readyRegion_bounded m.queue i hi
      omega
  | cons a rest ih =>
      by_cases hi : (m.queue.place i).Holds
      case neg => exact ⟨[], List.nil_prefix, hi⟩
      case pos =>
        have hrest : Cores.remaining QueuePlace.left ((m.step a).queue.place i) ≤
            rest.countP (isTick i) := by
          rw [List.countP_cons] at hmany
          by_cases ha : a = .tick i
          · rw [ha, tick_holds h hi]
            rw [ha, isTick, beq_self_eq_true, if_pos rfl] at hmany
            have hfalls := Cores.remaining_tick readyRegion_bounded m.queue i hi
            omega
          · have hno : isTick i a = false := by
              cases a with
              | tick j =>
                  apply beq_eq_false_iff_ne.mpr
                  rintro rfl
                  exact ha rfl
              | _ => rfl
            rw [hno, if_neg Bool.false_ne_true] at hmany
            have hplace : (m.step a).queue.place i = m.queue.place i := by
              obtain hsame | ⟨j, c, hcall⟩ | ⟨j, rfl, htick⟩ := step_queue m a
              · rw [hsame]
              · rw [hcall]
                exact m.queue.call_place j c hi
              · rw [htick]
                exact Cores.tick_place_ne m.queue fun heq => ha (by rw [heq])
            rw [hplace]
            exact hmany
        obtain ⟨reached, hreached, hout⟩ := ih (h.step a) hrest
        exact ⟨a :: reached, List.cons_prefix_cons.mpr ⟨rfl, hreached⟩, hout⟩

/-- A core that has the lock is not interrupted, and gives the lock back after seven steps of its
own at the latest, whatever the other cores do. -/
theorem ready_lock_released (bsp : Fin n) (regs : Nat → Ctx) (links : Nat → Option Nat)
    (actions more : List (MachineStep n Ctx)) (i : Fin n) :
    (((actions.foldl Machine.step (Machine.boot bsp regs links)).queue.place i).Holds →
      ((actions.foldl Machine.step (Machine.boot bsp regs links)).cpu i).interrupts = false) ∧
      (7 ≤ more.countP (isTick i) → ∃ reached, reached <+: more ∧
        ¬ (((actions ++ reached).foldl Machine.step (Machine.boot bsp regs links)).queue.place
          i).Holds) := by
  have hinv := Inv.reached bsp regs links actions
  simp only [List.foldl_append]
  generalize actions.foldl Machine.step (Machine.boot bsp regs links) = m at hinv
  constructor
  · intro hi
    by_contra hon
    have hat := (hinv.cpus i).masked ((Bool.not_eq_false _).mp hon)
    have hcall := hinv.stages i
    rw [hat] at hcall
    rw [Place.call?_eq_none.mp hcall] at hi
    exact hi
  · intro hmany
    apply released hinv more
    apply le_trans _ hmany
    cases m.queue.place i with
    | outside => exact Nat.zero_le _
    | spinning call => exact Nat.zero_le _
    | inside call l => cases l <;> simp [Cores.remaining, QueuePlace.left]
    | leaving call r => simp [Cores.remaining]

end Machine

end Tellurium.Arch
