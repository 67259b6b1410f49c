import Tellurium.Arch.Context

/-!
System calls from the program's registers to the kernel's functions and back: the stubs of
`libTellur/syscalls.cpp`, the instructions `syscall` and `sysret` as `init_syscall` sets them up,
`ISR_syscall` in `kernel/arch/isr.asm` and `syscall_handler` in `kernel/arch/syscalls.c`. The
functions that do the calls are parameters.
-/

namespace Tellurium.Isr

open Tellurium.Lib

/-- `(int)` of a register, and the `size_t` that an `int` becomes. -/
def toInt (v : UInt64) : Int32 := v.toInt64.toInt32
def ofInt (v : Int32) : UInt64 := v.toInt64.toUInt64

@[simp] theorem toInt_ofInt (v : Int32) : toInt (ofInt v) = v := by
  simp [toInt, ofInt]

/-- The functions of `syscalls.h`, with the memory they work on, and the message of an unknown
call. -/
structure Kernel where
  syscallGetFbContext : UInt64 → Mem → Int32 × Mem
  syscallMmap : UInt64 → UInt64 → Int32 → Int32 → Int32 → UInt64 → Mem → UInt64 × Mem
  syscallOpen : UInt64 → Int32 → Mem → Int32 × Mem
  syscallRead : Int32 → UInt64 → UInt64 → Mem → UInt64 × Mem
  syscallLseek : Int32 → UInt64 → Int32 → Mem → Int32 × Mem
  kprintfUnknown : UInt64 → Mem → Mem

/-- The switch of `syscall_handler`. -/
def Kernel.dispatch (k : Kernel) (syscallId arg1 arg2 arg3 arg4 arg5 arg6 : UInt64) (m : Mem) :
    UInt64 × Mem :=
  if syscallId = 1 then (k.syscallGetFbContext arg1 m).map ofInt id
  else if syscallId = 2 then
    k.syscallMmap arg1 arg2 (toInt arg3) (toInt arg4) (toInt arg5) arg6 m
  else if syscallId = 3 then (k.syscallOpen arg1 (toInt arg2) m).map ofInt id
  else if syscallId = 4 then k.syscallRead (toInt arg1) arg2 arg3 m
  else if syscallId = 5 then (k.syscallLseek (toInt arg1) arg2 (toInt arg3) m).map ofInt id
  else (0, k.kprintfUnknown syscallId m)

/-- The fields of the `ctx_t` are read before the call and `rax` is written after it. -/
def syscallHandler (k : Kernel) (m : Mem) (ctx : Nat) : Mem :=
  let (ret, m) := k.dispatch (m.word ctx) (m.word (ctx + 40)) (m.word (ctx + 32))
    (m.word (ctx + 24)) (m.word (ctx + 72)) (m.word (ctx + 56)) (m.word (ctx + 64)) m
  m.setWord ctx ret

/-- The registers of the model-specific kind as `init_syscall` sets them. -/
def star : UInt64 :=
  ((gdtKernelCode ||| 3) <<< 32) ||| (((gdtUserData ||| 3) - 8) <<< 48)
def fmask : UInt64 := 0x3f7fd5

/-- The instruction `syscall`; `rip` is the address behind it. -/
def Cpu.syscall (c : Cpu) (lstar : UInt64) : Cpu :=
  {c with
    reg := Function.update (Function.update c.reg .rcx c.rip) .r11 c.rflags
    rip := lstar
    rflags := c.rflags &&& ~~~ fmask
    cs := (star >>> 32) &&& 0xfffc
    ss := ((star >>> 32) &&& 0xffff) + 8}

/-- The instruction `o64 sysret`. -/
def Cpu.sysret (c : Cpu) : Cpu :=
  {c with
    rip := c.reg .rcx
    rflags := (c.reg .r11 &&& 0x3c7fd7) ||| 2
    cs := ((star >>> 48) + 16) ||| 3
    ss := ((star >>> 48) + 8) ||| 3}

/-- `ISR_syscall` up to the call of `syscall_handler`. The offsets are those of `kernel_stack` and
`kernel_scratch` in `core_t`. -/
def isrSyscall : List Instr :=
  [.swapgs, .rspToGs 0x10, .rspFromGs 0x8, .pushImm (0x38 ||| 3), .pushGs 0x10, .push .r11,
    .pushImm (0x40 ||| 3), .push .rcx, .pushImm 0, .swapgs] ++ saveContext ++
    [.movFromRsp .rdi, .clear .rbp]

/-- `ISR_syscall` from the return of `syscall_handler` up to `sysret`. -/
def isrSyscallReturn : List Instr :=
  restoreContext ++ [.addRsp 8, .pop .rcx, .addRsp 8, .pop .r11, .popRsp]

/-- A call of a stub of `libTellur`, with the types of its parameters. -/
inductive Call where
  | getFbContext (context : UInt64)
  | mmap (addr len : UInt64) (prot flags fd : Int32) (offset : UInt64)
  | openPath (path : UInt64) (flags : Int32)
  | read (fd : Int32) (buf count : UInt64)
  | lseek (fd : Int32) (offset : UInt64) (whence : Int32)
  | unknown (syscallId : UInt64)

/-- The registers as `_syscall` loads them. The upper half of a register that takes an `int` may
hold anything. -/
def Call.Loaded (reg : Reg → UInt64) : Call → Prop
  | .getFbContext context => reg .rax = 1 ∧ reg .rdi = context
  | .mmap addr len prot flags fd offset =>
      reg .rax = 2 ∧ reg .rdi = addr ∧ reg .rsi = len ∧ toInt (reg .rdx) = prot ∧
        toInt (reg .r10) = flags ∧ toInt (reg .r8) = fd ∧ reg .r9 = offset
  | .openPath path flags => reg .rax = 3 ∧ reg .rdi = path ∧ toInt (reg .rsi) = flags
  | .read fd buf count =>
      reg .rax = 4 ∧ toInt (reg .rdi) = fd ∧ reg .rsi = buf ∧ reg .rdx = count
  | .lseek fd offset whence =>
      reg .rax = 5 ∧ toInt (reg .rdi) = fd ∧ reg .rsi = offset ∧ toInt (reg .rdx) = whence
  | .unknown syscallId => reg .rax = syscallId ∧ syscallId ∉ [1, 2, 3, 4, 5]

/-- What the kernel's function does for a call, with its result as a `size_t`. -/
def Call.serve (k : Kernel) (m : Mem) : Call → UInt64 × Mem
  | .getFbContext context => (k.syscallGetFbContext context m).map ofInt id
  | .mmap addr len prot flags fd offset => k.syscallMmap addr len prot flags fd offset m
  | .openPath path flags => (k.syscallOpen path flags m).map ofInt id
  | .read fd buf count => k.syscallRead fd buf count m
  | .lseek fd offset whence => (k.syscallLseek fd offset whence m).map ofInt id
  | .unknown syscallId => (0, k.kprintfUnknown syscallId m)

variable {k : Kernel} {m : Mem} {c : Cpu} {a : Nat} {call : Call}

/-- The switch finds the function of the call and gives it the arguments of the stub. -/
theorem dispatch_loaded {reg : Reg → UInt64} (h : call.Loaded reg) :
    k.dispatch (reg .rax) (reg .rdi) (reg .rsi) (reg .rdx) (reg .r10) (reg .r8) (reg .r9) m =
      call.serve k m := by
  cases call with
  | getFbContext context =>
      obtain ⟨hid, rfl⟩ := h
      rw [hid]
      rfl
  | mmap addr len prot flags fd offset =>
      obtain ⟨hid, rfl, rfl, rfl, rfl, rfl, rfl⟩ := h
      rw [hid]
      rfl
  | openPath path flags =>
      obtain ⟨hid, rfl, rfl⟩ := h
      rw [hid]
      rfl
  | read fd buf count =>
      obtain ⟨hid, rfl, rfl, rfl⟩ := h
      rw [hid]
      rfl
  | lseek fd offset whence =>
      obtain ⟨hid, rfl, rfl, rfl⟩ := h
      rw [hid]
      rfl
  | unknown syscallId =>
      obtain ⟨hid, hno⟩ := h
      simp only [List.mem_cons, List.not_mem_nil, or_false, not_or] at hno
      obtain ⟨h1, h2, h3, h4, h5⟩ := hno
      rw [hid, Kernel.dispatch, if_neg h1, if_neg h2, if_neg h3, if_neg h4, if_neg h5]
      rfl

/-- The function that serves the call leaves the saved context on the kernel's stack alone. -/
def Call.Keeps (k : Kernel) (m : Mem) (frame : Span) (call : Call) : Prop :=
  ∀ x, frame.Has x → (call.serve k m).2 x = m x

theorem Context.At.word {x : Context} {i : Nat} {v : UInt64} (hx : x.At m a) (hi : i < 15)
    (hv : (ctxRegs.map x.reg)[i]? = some v) : m.word (a + 8 * i) = v := by
  obtain ⟨err, hfields⟩ := hx
  obtain ⟨hregs, -, -⟩ := (fields_words _ _ _ _).mp hfields
  rw [← hregs, Mem.getElem?_words m a hi] at hv
  exact Option.some.inj hv

/-- The handler serves the call of the saved context and puts the result into its `rax`. -/
theorem syscallHandler_loaded {x : Context} (hx : x.At m a) (hcall : call.Loaded x.reg) :
    syscallHandler k m a = (call.serve k m).2.setWord a (call.serve k m).1 := by
  have hrax : m.word a = x.reg .rax := hx.word (i := 0) (by omega) rfl
  have hrdi : m.word (a + 40) = x.reg .rdi := hx.word (i := 5) (by omega) rfl
  have hrsi : m.word (a + 32) = x.reg .rsi := hx.word (i := 4) (by omega) rfl
  have hrdx : m.word (a + 24) = x.reg .rdx := hx.word (i := 3) (by omega) rfl
  have hr10 : m.word (a + 72) = x.reg .r10 := hx.word (i := 9) (by omega) rfl
  have hr8 : m.word (a + 56) = x.reg .r8 := hx.word (i := 7) (by omega) rfl
  have hr9 : m.word (a + 64) = x.reg .r9 := hx.word (i := 8) (by omega) rfl
  rw [syscallHandler, hrax, hrdi, hrsi, hrdx, hr10, hr8, hr9, dispatch_loaded hcall]

theorem syscallHandler_frame {x : Context} (hx : x.At m a) (hcall : call.Loaded x.reg)
    (hkeeps : call.Keeps k m ⟨a, ctxSize⟩) :
    {x with reg := Function.update x.reg .rax (call.serve k m).1}.At (syscallHandler k m a) a := by
  rw [syscallHandler_loaded hx hcall]
  obtain ⟨err, hfields⟩ := hx
  refine ⟨err, ?_⟩
  have hsame : (call.serve k m).2.words a 21 = x.fields err := by
    rw [← hfields]
    exact Mem.words_congr fun y hlo hhi => hkeeps y ⟨hlo, hhi⟩
  have hrest : ((call.serve k m).2.setWord a (call.serve k m).1).words (a + 8) 20 =
      (x.fields err).tail := by
    rw [Mem.words_setWord_of_disjoint _ _ (Or.inr le_rfl), ← hsame]
    rfl
  change ((call.serve k m).2.setWord a (call.serve k m).1).word a ::
    ((call.serve k m).2.setWord a (call.serve k m).1).words (a + 8) 20 = _
  rw [hrest, Mem.word_setWord_same]
  rfl

/-- What `ISR_syscall` saves: the registers of the program with `rcx` and `r11` as `syscall` has set
them, the program's stack pointer and flags, and the selectors of a program. -/
def syscallContext (c : Cpu) (lstar : UInt64) : Context where
  reg := (c.syscall lstar).reg
  rip := c.rip
  cs := 0x43
  rflags := c.rflags
  rsp := c.rsp
  ss := 0x3b

/-- The entries of the core's structure that `ISR_syscall` uses, the kernel's stack pointer and the
scratch word, and the room for the context on that stack. -/
structure SyscallStack (c : Cpu) (a : Nat) : Prop where
  core : c.kernelGsBase.toNat + 24 < 2 ^ 64
  stack : c.mem.word (c.kernelGsBase.toNat + 8) = UInt64.ofNat (a + ctxSize)
  room : a + ctxSize < 2 ^ 64
  apart : Span.Disjoint ⟨c.kernelGsBase.toNat + 8, 16⟩ ⟨a, ctxSize⟩

/-- The memory once the program's stack pointer is in the scratch word. -/
def scratchSaved (c : Cpu) : Mem := c.mem.setWord (c.kernelGsBase.toNat + 16) c.rsp

/-- The first instructions of `ISR_syscall`, up to the switch of stacks. -/
theorem run_stackSwitch (h : SyscallStack c a) :
    c.run [.swapgs, .rspToGs 0x10, .rspFromGs 0x8] = {c with
      gsBase := c.kernelGsBase
      kernelGsBase := c.gsBase
      mem := scratchSaved c
      rsp := UInt64.ofNat (a + ctxSize)} := by
  have hcore := h.core
  have hscratch : (c.kernelGsBase + 0x10).toNat = c.kernelGsBase.toNat + 16 :=
    toNat_add_ofNat (n := 16) (by omega)
  have hstack : (c.kernelGsBase + 0x8).toNat = c.kernelGsBase.toNat + 8 :=
    toNat_add_ofNat (n := 8) (by omega)
  have hrsp : (scratchSaved c).word (c.kernelGsBase.toNat + 8) = UInt64.ofNat (a + ctxSize) := by
    rw [scratchSaved, Mem.word_setWord_of_disjoint _ _ (Or.inl le_rfl)]
    exact h.stack
  change {c with
    gsBase := c.kernelGsBase
    kernelGsBase := c.gsBase
    mem := c.mem.setWord (c.kernelGsBase + 0x10).toNat c.rsp
    rsp := (c.mem.setWord (c.kernelGsBase + 0x10).toNat c.rsp).word
      (c.kernelGsBase + 0x8).toNat} = _
  rw [hscratch, hstack]
  change {c with
    gsBase := c.kernelGsBase
    kernelGsBase := c.gsBase
    mem := scratchSaved c
    rsp := (scratchSaved c).word (c.kernelGsBase.toNat + 8)} = _
  rw [hrsp]

/-- The fields that `ISR_syscall` pushes, the last one first. -/
def pushedFields (c : Cpu) (rsp : UInt64) : List UInt64 :=
  [0, c.reg .rcx, 0x43, c.reg .r11, rsp, 0x3b]

theorem run_pushFields (rsp : UInt64) (h : c.rsp.toNat = a + 48)
    (hgs : c.mem.word (c.gsBase + 0x10).toNat = rsp)
    (hapart : (c.gsBase + 0x10).toNat + 8 ≤ a + 40 ∨ a + 48 ≤ (c.gsBase + 0x10).toNat) :
    c.run [.pushImm (0x38 ||| 3), .pushGs 0x10, .push .r11, .pushImm (0x40 ||| 3), .push .rcx,
        .pushImm 0] = {c with
      rsp := UInt64.ofNat a
      mem := c.mem.pushWords (a + 8 * 6) (pushedFields c rsp).reverse} := by
  -- The scratch word is read after the first push.
  have hfirst : (c.rsp - 8).toNat = a + 40 := by
    have h8 : (c.rsp - 8).toNat = c.rsp.toNat - 8 := toNat_sub_ofNat (n := 8) (by omega)
    omega
  have hgs' : (c.pushed (0x38 ||| 3)).mem.word (c.gsBase + 0x10).toNat = rsp := by
    change (c.mem.setWord (c.rsp - 8).toNat _).word _ = rsp
    rw [hfirst, Mem.word_setWord_of_disjoint _ _ (by omega), hgs]
  have hcode : c.run [.pushImm (0x38 ||| 3), .pushGs 0x10, .push .r11, .pushImm (0x40 ||| 3),
      .push .rcx, .pushImm 0] =
        [0x38 ||| 3, (c.pushed (0x38 ||| 3)).mem.word (c.gsBase + 0x10).toNat, c.reg .r11,
          0x40 ||| 3, c.reg .rcx, 0].foldl Cpu.pushed c := rfl
  rw [hcode, hgs']
  exact foldl_pushed _ h

/-- The core when `syscall_handler` is called. -/
def Cpu.syscallEntry (c : Cpu) (lstar : UInt64) : Cpu := (c.syscall lstar).run isrSyscall

/-- `ISR_syscall` leaves the program's context at the top of the kernel's stack. -/
theorem syscall_frame (h : SyscallStack c a) (lstar : UInt64) :
    (syscallContext c lstar).At (c.syscallEntry lstar).mem a ∧
      (c.syscallEntry lstar).rsp = UInt64.ofNat a ∧
      (c.syscallEntry lstar).reg .rdi = UInt64.ofNat a ∧
      (c.syscallEntry lstar).gsBase = c.gsBase ∧
      (c.syscallEntry lstar).kernelGsBase = c.kernelGsBase ∧
      (c.syscallEntry lstar).cr3 = c.cr3 ∧
      Mem.ChangesIn [⟨c.kernelGsBase.toNat + 16, 8⟩, ⟨a, ctxSize⟩] c.mem
        (c.syscallEntry lstar).mem := by
  have hcore := h.core
  have hroom := h.room
  have hapart := h.apart
  simp only [Span.Disjoint, ctxSize] at hapart hroom
  have hscratch : (c.kernelGsBase + 0x10).toNat = c.kernelGsBase.toNat + 16 :=
    toNat_add_ofNat (n := 16) (by omega)
  have hnat : ∀ n, n ≤ a + 168 → (UInt64.ofNat n).toNat = n := by
    intro n hn
    apply UInt64.toNat_ofNat_of_lt'
    exact lt_of_le_of_lt hn hroom
  -- The four parts of the code.
  have hcode : c.syscallEntry lstar =
      (((((c.syscall lstar).run [.swapgs, .rspToGs 0x10, .rspFromGs 0x8]).run
        [.pushImm (0x38 ||| 3), .pushGs 0x10, .push .r11, .pushImm (0x40 ||| 3), .push .rcx,
          .pushImm 0]).exec .swapgs).run saveContext).run [.movFromRsp .rdi, .clear .rbp] := by
    rw [← run_append, ← run_cons, ← run_append, ← run_append]
    rfl
  obtain ⟨c₁, hc₁, hreg₁, hrsp₁, hgs₁, hkernel₁, hcr₁, hmem₁⟩ : ∃ c₁ : Cpu,
      (c.syscall lstar).run [.swapgs, .rspToGs 0x10, .rspFromGs 0x8] = c₁ ∧
      c₁.reg = (c.syscall lstar).reg ∧ c₁.rsp = UInt64.ofNat (a + 168) ∧
      c₁.gsBase = c.kernelGsBase ∧ c₁.kernelGsBase = c.gsBase ∧ c₁.cr3 = c.cr3 ∧
      c₁.mem = scratchSaved c :=
    ⟨_, run_stackSwitch ⟨h.core, h.stack, h.room, h.apart⟩, rfl, rfl, rfl, rfl, rfl, rfl⟩
  have hpushed := run_pushFields (c := c₁) c.rsp (a := a + 120)
    (by rw [hrsp₁]; exact hnat (a + 168) le_rfl)
    (by rw [hmem₁, hgs₁, hscratch]; exact Mem.word_setWord_same _ _ _)
    (by rw [hgs₁]; omega)
  rw [hc₁, hpushed] at hcode
  obtain ⟨c₃, hc₃, hreg₃, hrsp₃, hgs₃, hkernel₃, hcr3, hmem₃⟩ : ∃ c₃ : Cpu,
      c.syscallEntry lstar = (c₃.run saveContext).run [.movFromRsp .rdi, .clear .rbp] ∧
      c₃.reg = c₁.reg ∧ c₃.rsp = UInt64.ofNat (a + 120) ∧ c₃.gsBase = c₁.kernelGsBase ∧
      c₃.kernelGsBase = c₁.gsBase ∧ c₃.cr3 = c₁.cr3 ∧
      c₃.mem = c₁.mem.pushWords (a + 120 + 8 * 6) (pushedFields c₁ c.rsp).reverse :=
    ⟨_, hcode, rfl, rfl, rfl, rfl, rfl, rfl⟩
  have hfieldsPushed : pushedFields c₁ c.rsp = [0, c.rip, 0x43, c.rflags, c.rsp, 0x3b] := by
    rw [pushedFields, hreg₁]
    rfl
  rw [hfieldsPushed, hmem₁] at hmem₃
  obtain ⟨m, hrun, hregs, hregsIn⟩ := run_saveContext (a := a) (c := c₃)
    (by rw [hrsp₃]; exact hnat (a + 120) (by omega))
  have hfields : c₃.mem.words (a + 120) 6 = [0, c.rip, 0x43, c.rflags, c.rsp, 0x3b] := by
    rw [hmem₃]
    exact (scratchSaved c).words_pushWords (a + 120) [0, c.rip, 0x43, c.rflags, c.rsp, 0x3b].reverse
  have hfieldsIn : Mem.ChangesIn [⟨a + 120, 48⟩] (scratchSaved c) c₃.mem := by
    rw [hmem₃]
    exact (scratchSaved c).changesIn_pushWords (a + 120)
      [0, c.rip, 0x43, c.rflags, c.rsp, 0x3b].reverse
  rw [hrun, run_handlerArgs] at hc₃
  have hmem : (c.syscallEntry lstar).mem = m := by
    rw [hc₃]
  refine ⟨⟨0, ?_⟩, by rw [hc₃], by rw [hc₃]; rfl, by rw [hc₃]; exact hgs₃.trans hkernel₁,
    by rw [hc₃]; exact hkernel₃.trans hgs₁, by rw [hc₃]; exact hcr3.trans hcr₁, ?_⟩
  · change (c.syscallEntry lstar).mem.words a (15 + 6) = _
    rw [hmem, Mem.words_append, hregs, hregsIn.words_eq, hfields, hreg₃, hreg₁]
    · rfl
    · intro s hs
      rw [List.mem_singleton.mp hs]
      simp only [Span.Disjoint]
      omega
  · have hin : ∀ s : Span, s.Inside ⟨a, ctxSize⟩ →
        ∃ t ∈ [⟨c.kernelGsBase.toNat + 16, 8⟩, ⟨a, ctxSize⟩], s.Inside t :=
      fun s hs => ⟨_, List.mem_cons_of_mem _ (List.mem_singleton_self _), hs⟩
    have hscratchIn : Mem.ChangesIn [⟨c.kernelGsBase.toNat + 16, 8⟩, ⟨a, ctxSize⟩] c.mem
        (scratchSaved c) :=
      (c.mem.changesIn_setWord _ c.rsp).weaken fun s hs =>
        (List.mem_singleton.mp hs).symm ▸ List.mem_cons_self
    rw [hmem]
    apply hscratchIn.trans
    apply Mem.ChangesIn.trans
    · apply hfieldsIn.mono
      intro s hs
      rw [List.mem_singleton.mp hs]
      exact hin _ (by simp only [Span.Inside, ctxSize]; omega)
    · apply hregsIn.mono
      intro s hs
      rw [List.mem_singleton.mp hs]
      exact hin _ (by simp only [Span.Inside, ctxSize]; omega)

/-- From the return of `syscall_handler`, with the stack pointer at the context, to the program. -/
theorem run_syscallReturn {x : Context} (hx : x.At c.mem a) (hrsp : c.rsp = UInt64.ofNat a)
    (ha : a + ctxSize < 2 ^ 64) :
    (c.run isrSyscallReturn).sysret = {c with
      reg := Function.update (Function.update x.reg .rcx x.rip) .r11 x.rflags
      rsp := x.rsp
      rip := x.rip
      rflags := (x.rflags &&& 0x3c7fd7) ||| 2
      cs := 0x43
      ss := 0x3b} := by
  rw [ctxSize] at ha
  have hnat : ∀ n, n ≤ a + 168 → (UInt64.ofNat n).toNat = n := by
    intro n hn
    apply UInt64.toNat_ofNat_of_lt'
    exact lt_of_le_of_lt hn ha
  obtain ⟨err, hfields⟩ := hx
  obtain ⟨hregs, -, htail⟩ := (fields_words _ _ _ _).mp hfields
  simp only [Mem.words, List.cons.injEq, and_true] at htail
  obtain ⟨hrip, -, hrflags, htop, -⟩ := htail
  have hpops := run_pop (c := c) ctxRegs (a := a) (by rw [hrsp]; exact hnat a (by omega))
    (by change a + 120 < 2 ^ 64; omega)
  have hlen : ctxRegs.length = 15 := rfl
  rw [hlen, hregs] at hpops
  have hreg : loadRegs c.reg ctxRegs (ctxRegs.map x.reg) = x.reg :=
    funext fun r => loadRegs_map ctxRegs_nodup (mem_ctxRegs r)
  rw [hreg] at hpops
  have hcode : restoreContext = ctxRegs.map Instr.pop := rfl
  rw [isrSyscallReturn, run_append, hcode, hpops]
  have hstep : ∀ n, UInt64.ofNat n + 8 = UInt64.ofNat (n + 8) := fun n => (UInt64.ofNat_add n 8).symm
  simp only [Cpu.run, List.foldl_cons, List.foldl_nil, Cpu.exec, Cpu.setReg, Cpu.top, hstep]
  rw [hnat _ (by omega), hnat _ (by omega), hnat _ (by omega)]
  have hrip' : c.mem.word (a + 8 * 15 + 8) = x.rip := hrip
  have hrflags' : c.mem.word (a + 8 * 15 + 8 + 8 + 8) = x.rflags := hrflags
  have htop' : c.mem.word (a + 8 * 15 + 8 + 8 + 8 + 8) = x.rsp := htop
  rw [hrip', hrflags', htop', Cpu.sysret]
  simp only [Function.update_self, ne_eq, reduceCtorEq, not_false_eq_true, Function.update_of_ne]
  rfl

/-- `syscall_handler` returns with the stack pointer it was called with. The other registers are not
looked at any more. -/
def Cpu.handled (c : Cpu) (k : Kernel) (clobbered : Reg → UInt64) : Cpu :=
  {c with reg := clobbered, mem := syscallHandler k c.mem (c.reg .rdi).toNat}

/-- What the stub returns: some of them are of type `int`. -/
def Call.value (rax : UInt64) : Call → UInt64 ⊕ Int32
  | .getFbContext _ | .mmap _ _ _ _ _ _ | .unknown _ => .inl rax
  | .openPath _ _ | .read _ _ _ | .lseek _ _ _ => .inr (toInt rax)

/-- What the kernel's function returns, in the type of the stub. -/
def Call.answer (k : Kernel) (m : Mem) : Call → UInt64 ⊕ Int32
  | .getFbContext context => .inl (ofInt (k.syscallGetFbContext context m).1)
  | .mmap addr len prot flags fd offset => .inl (k.syscallMmap addr len prot flags fd offset m).1
  | .openPath path flags => .inr (k.syscallOpen path flags m).1
  | .read fd buf count => .inr (toInt (k.syscallRead fd buf count m).1)
  | .lseek fd offset whence => .inr (k.syscallLseek fd offset whence m).1
  | .unknown _ => .inl 0

theorem value_serve (k : Kernel) (m : Mem) (call : Call) :
    call.value (call.serve k m).1 = call.answer k m := by
  cases call with
  | getFbContext context => rfl
  | mmap addr len prot flags fd offset => rfl
  | openPath path flags => exact congrArg Sum.inr (toInt_ofInt _)
  | read fd buf count => rfl
  | lseek fd offset whence => exact congrArg Sum.inr (toInt_ofInt _)
  | unknown syscallId => rfl

end Tellurium.Isr
