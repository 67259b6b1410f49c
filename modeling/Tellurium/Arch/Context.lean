import Tellurium.Lib.WordStack

/-!
The register contexts of threads: `kernel/arch/isr.asm`, the assembly of `thread_switch` in
`kernel/arch/scheduler.c` and `save_context` in `kernel/arch/cpu.c`. A sequence of instructions is
a list, run on the registers and the memory of one core. The arithmetic flags are left out: wherever
an instruction of these sequences changes them, `rflags` is loaded again before anything reads it.
-/

namespace Tellurium.Isr

open Tellurium.Lib

/-- The general registers but `rsp`. -/
inductive Reg where
  | rax | rbx | rcx | rdx | rsi | rdi | rbp
  | r8 | r9 | r10 | r11 | r12 | r13 | r14 | r15
  deriving DecidableEq, Repr

structure Cpu where
  reg : Reg → UInt64
  rsp : UInt64
  rip : UInt64
  rflags : UInt64
  cs : UInt64
  ss : UInt64
  cr3 : UInt64
  gsBase : UInt64
  kernelGsBase : UInt64
  mem : Mem

inductive Instr where
  | push (r : Reg)
  | pop (r : Reg)
  | pushImm (value : UInt64)
  /-- `push qword [gs:offset]` -/
  | pushGs (offset : UInt64)
  | popRsp
  | mov (r : Reg) (value : UInt64)
  | movFromRsp (r : Reg)
  | movRsp (value : UInt64)
  /-- `mov qword [gs:offset], rsp` -/
  | rspToGs (offset : UInt64)
  /-- `mov qword rsp, [gs:offset]` -/
  | rspFromGs (offset : UInt64)
  | movCr3 (r : Reg)
  /-- `xor r, r` -/
  | clear (r : Reg)
  | subRsp (n : UInt64)
  | addRsp (n : UInt64)
  | swapgs

namespace Cpu

def pushed (c : Cpu) (value : UInt64) : Cpu :=
  {c with rsp := c.rsp - 8, mem := c.mem.setWord (c.rsp - 8).toNat value}

def top (c : Cpu) : UInt64 := c.mem.word c.rsp.toNat

def setReg (c : Cpu) (r : Reg) (value : UInt64) : Cpu :=
  {c with reg := Function.update c.reg r value}

def exec (c : Cpu) : Instr → Cpu
  | .push r => c.pushed (c.reg r)
  | .pop r => {c.setReg r c.top with rsp := c.rsp + 8}
  | .pushImm value => c.pushed value
  | .pushGs offset => c.pushed (c.mem.word (c.gsBase + offset).toNat)
  | .popRsp => {c with rsp := c.top}
  | .mov r value => c.setReg r value
  | .movFromRsp r => c.setReg r c.rsp
  | .movRsp value => {c with rsp := value}
  | .rspToGs offset => {c with mem := c.mem.setWord (c.gsBase + offset).toNat c.rsp}
  | .rspFromGs offset => {c with rsp := c.mem.word (c.gsBase + offset).toNat}
  | .movCr3 r => {c with cr3 := c.reg r}
  | .clear r => c.setReg r 0
  | .subRsp n => {c with rsp := c.rsp - n}
  | .addRsp n => {c with rsp := c.rsp + n}
  | .swapgs => {c with gsBase := c.kernelGsBase, kernelGsBase := c.gsBase}

def run (c : Cpu) (code : List Instr) : Cpu := code.foldl exec c

end Cpu

def gdtKernelCode : UInt64 := 0x28
def gdtUserData : UInt64 := 0x38

/-- The flags that an interrupt gate clears: `TF`, `IF`, `NT`, `RF` and `VM`. -/
def gateFlags : UInt64 := 0x34300

/-- An interrupt through a gate with an entry of the interrupt stack table: the stack pointer is
aligned to 16 bytes, and the context of the interrupted code is pushed. -/
def Cpu.interrupt (c : Cpu) (ist entry : UInt64) : Cpu :=
  {c with
    mem := c.mem.pushWords (ist &&& ~~~ 0xf).toNat [c.ss, c.rsp, c.rflags, c.cs, c.rip]
    rsp := (ist &&& ~~~ 0xf) - 40
    rflags := c.rflags &&& ~~~ gateFlags
    cs := gdtKernelCode
    ss := if c.cs &&& 3 = 0 then c.ss else 0
    rip := entry}

def Cpu.iretq (c : Cpu) : Cpu :=
  {c with
    rip := c.mem.word c.rsp.toNat
    cs := c.mem.word (c.rsp.toNat + 8)
    rflags := c.mem.word (c.rsp.toNat + 16)
    rsp := c.mem.word (c.rsp.toNat + 24)
    ss := c.mem.word (c.rsp.toNat + 32)}

/-- The macro `save_context`. -/
def saveContext : List Instr :=
  [.push .r15, .push .r14, .push .r13, .push .r12, .push .r11, .push .r10, .push .r9, .push .r8,
    .push .rbp, .push .rdi, .push .rsi, .push .rdx, .push .rcx, .push .rbx, .push .rax]

/-- The macro `restore_context`. -/
def restoreContext : List Instr :=
  [.pop .rax, .pop .rbx, .pop .rcx, .pop .rdx, .pop .rsi, .pop .rdi, .pop .rbp, .pop .r8, .pop .r9,
    .pop .r10, .pop .r11, .pop .r12, .pop .r13, .pop .r14, .pop .r15]

/-- `ISR_Timer`, `ISR_IPI`, `ISR_keyboard` and `ISR_mouse` up to the call of the handler, which gets
the address of the frame in `rdi` and does not return. -/
def isrInterrupt : List Instr := .subRsp 8 :: saveContext ++ [.movFromRsp .rdi, .clear .rbp]

/-- The assembly of `thread_switch` up to `iretq`. -/
def threadSwitch (context cr3 : UInt64) : List Instr :=
  [.movRsp context, .mov .r15 cr3, .pop .rax, .pop .rbx, .pop .rcx, .pop .rdx, .pop .rsi, .pop .rdi,
    .pop .rbp, .pop .r8, .pop .r9, .pop .r10, .pop .r11, .pop .r12, .pop .r13, .pop .r14,
    .movCr3 .r15, .pop .r15, .addRsp 8]

/-- The registers in the order of `ctx_t`. -/
def ctxRegs : List Reg :=
  [.rax, .rbx, .rcx, .rdx, .rsi, .rdi, .rbp, .r8, .r9, .r10, .r11, .r12, .r13, .r14, .r15]

/-- What a `ctx_t` is about. -/
@[ext] structure Context where
  reg : Reg → UInt64
  rip : UInt64
  cs : UInt64
  rflags : UInt64
  rsp : UInt64
  ss : UInt64

def Cpu.context (c : Cpu) : Context := ⟨c.reg, c.rip, c.cs, c.rflags, c.rsp, c.ss⟩

/-- The fields of the `ctx_t`. -/
def Context.fields (x : Context) (err : UInt64) : List UInt64 :=
  ctxRegs.map x.reg ++ [err, x.rip, x.cs, x.rflags, x.rsp, x.ss]

/-- The `ctx_t` at the address has this contents; its field `err` is not looked at. -/
def Context.At (x : Context) (m : Mem) (a : Nat) : Prop := ∃ err, m.words a 21 = x.fields err

def ctxSize : Nat := 168

/-- The C function `save_context`: the frame goes to `thread->context`, and then `kernel_scratch`
of the core to `thread_scratch`, the field behind the context. -/
def saveThreadContext (m : Mem) (core context ctx : Nat) : Mem :=
  let m := m.memcpy context ctx ctxSize
  m.setWord (context + ctxSize) (m.word (core + 0x10))

section Sequences

variable {c : Cpu} {rs : List Reg} {a : UInt64} {n : ℕ}

theorem toNat_sub_ofNat (h : n ≤ a.toNat) : (a - UInt64.ofNat n).toNat = a.toNat - n := by
  have hsize : n < UInt64.size := lt_of_le_of_lt h a.toNat_lt
  have hn : (UInt64.ofNat n).toNat = n := UInt64.toNat_ofNat_of_lt' hsize
  rw [UInt64.toNat_sub_of_le _ _ (UInt64.le_iff_toNat_le.mpr (by omega)), hn]

theorem toNat_add_ofNat (h : a.toNat + n < 2 ^ 64) : (a + UInt64.ofNat n).toNat = a.toNat + n := by
  have hsize : n < UInt64.size := lt_of_le_of_lt (Nat.le_add_left n a.toNat) h
  have hn : (UInt64.ofNat n).toNat = n := UInt64.toNat_ofNat_of_lt' hsize
  rw [UInt64.toNat_add, hn, Nat.mod_eq_of_lt h]

theorem run_append (c : Cpu) (code code' : List Instr) :
    c.run (code ++ code') = (c.run code).run code' :=
  List.foldl_append

theorem run_cons (c : Cpu) (i : Instr) (code : List Instr) :
    c.run (i :: code) = (c.exec i).run code := rfl

/-- Words pushed one after the other. -/
theorem foldl_pushed (vs : List UInt64) {a : Nat} (h : c.rsp.toNat = a + 8 * vs.length) :
    vs.foldl Cpu.pushed c =
      {c with mem := c.mem.pushWords (a + 8 * vs.length) vs, rsp := UInt64.ofNat a} := by
  induction vs generalizing c with
  | nil =>
      change c = {c with mem := c.mem, rsp := UInt64.ofNat a}
      rw [← show c.rsp.toNat = a from h, UInt64.ofNat_toNat]
  | cons v rest ih =>
      have hsub : (c.rsp - 8).toNat = a + 8 * rest.length := by
        have h8 : (c.rsp - 8).toNat = c.rsp.toNat - 8 :=
          toNat_sub_ofNat (n := 8) (by rw [h, List.length_cons]; omega)
        rw [h8, h, List.length_cons]
        omega
      rw [List.foldl_cons, ih (c := c.pushed v) hsub, Mem.pushWords_cons]
      simp only [Cpu.pushed, hsub]

theorem run_map_push (c : Cpu) (rs : List Reg) :
    c.run (rs.map Instr.push) = (rs.map c.reg).foldl Cpu.pushed c := by
  induction rs generalizing c with
  | nil => rfl
  | cons r rest ih =>
      rw [List.map_cons, run_cons, ih]
      rfl

/-- Registers popped one after the other. -/
theorem run_pop (rs : List Reg) {a : Nat} (h : c.rsp.toNat = a) (hn : a + 8 * rs.length < 2 ^ 64) :
    c.run (rs.map Instr.pop) = {c with
      reg := loadRegs c.reg rs (c.mem.words a rs.length)
      rsp := UInt64.ofNat (a + 8 * rs.length)} := by
  induction rs generalizing c a with
  | nil =>
      change c = {c with reg := c.reg, rsp := UInt64.ofNat a}
      rw [← h, UInt64.ofNat_toNat]
  | cons r rest ih =>
      rw [List.length_cons] at hn ⊢
      have hadd : (c.rsp + 8).toNat = a + 8 := by
        have h8 : (c.rsp + 8).toNat = c.rsp.toNat + 8 := toNat_add_ofNat (n := 8) (by omega)
        rw [h8, h]
      have hrest := ih (c := c.exec (.pop r)) hadd (by omega)
      have hsum : a + 8 + 8 * rest.length = a + 8 * (rest.length + 1) := by omega
      rw [List.map_cons, run_cons, hrest, hsum]
      simp only [Cpu.exec, Cpu.setReg, Cpu.top, h, Mem.words, loadRegs]

end Sequences

theorem ctxRegs_nodup : ctxRegs.Nodup := by decide

theorem mem_ctxRegs (r : Reg) : r ∈ ctxRegs := by
  cases r <;> decide

theorem fields_words (x : Context) (err : UInt64) (m : Mem) (a : Nat) :
    m.words a 21 = x.fields err ↔ m.words a 15 = ctxRegs.map x.reg ∧ m.word (a + 120) = err ∧
      m.words (a + 128) 5 = [x.rip, x.cs, x.rflags, x.rsp, x.ss] := by
  have hsplit : m.words a 21 = m.words a 15 ++ m.word (a + 120) :: m.words (a + 128) 5 := by
    rw [show 21 = 15 + 6 from rfl, Mem.words_append]
    rfl
  rw [hsplit, Context.fields]
  constructor
  · intro h
    obtain ⟨hregs, hrest⟩ := List.append_inj h (by rw [Mem.length_words]; rfl)
    obtain ⟨herr, htail⟩ := List.cons.inj hrest
    exact ⟨hregs, herr, htail⟩
  · rintro ⟨hregs, rfl, htail⟩
    rw [hregs, htail]

/-- `save_context` stores the registers below the stack pointer, in the order of `ctx_t`. -/
theorem run_saveContext {c : Cpu} {a : Nat} (h : c.rsp.toNat = a + 120) :
    ∃ m, c.run saveContext = {c with mem := m, rsp := UInt64.ofNat a} ∧
      m.words a 15 = ctxRegs.map c.reg ∧ Mem.ChangesIn [⟨a, 120⟩] c.mem m := by
  have hcode : saveContext = ctxRegs.reverse.map Instr.push := rfl
  refine ⟨_, ?_, ?_, c.mem.changesIn_pushWords a (ctxRegs.reverse.map c.reg)⟩
  · rw [hcode, run_map_push]
    exact foldl_pushed (ctxRegs.reverse.map c.reg) h
  · have hwords := c.mem.words_pushWords a (ctxRegs.reverse.map c.reg)
    rw [← List.map_reverse, List.reverse_reverse] at hwords
    exact hwords

/-- The handler gets the stack pointer as its argument. -/
theorem run_handlerArgs (c : Cpu) :
    c.run [.movFromRsp .rdi, .clear .rbp] =
      {c with reg := Function.update (Function.update c.reg .rdi c.rsp) .rbp 0} := rfl

/-- The stack pointer that an interrupt starts from. -/
def istTop (ist : UInt64) : Nat := (ist &&& ~~~ 0xf).toNat

/-- An interrupt leaves a `ctx_t` of the interrupted code right below the stack it starts from, with
its address in `rdi`, and changes no other memory. -/
theorem interrupt_frame (c : Cpu) {ist : UInt64} (entry : UInt64) {a : Nat}
    (h : istTop ist = a + ctxSize) :
    c.context.At ((c.interrupt ist entry).run isrInterrupt).mem a ∧
      (((c.interrupt ist entry).run isrInterrupt).reg .rdi).toNat = a ∧
      Mem.ChangesIn [⟨a, ctxSize⟩] c.mem ((c.interrupt ist entry).run isrInterrupt).mem := by
  have htop : istTop ist = a + 128 + 8 * 5 := h
  -- The five words of the hardware, a gap for the error code, and the registers.
  have hhard : (c.interrupt ist entry).mem.words (a + 128) 5 =
      [c.rip, c.cs, c.rflags, c.rsp, c.ss] := by
    change (c.mem.pushWords (istTop ist) _).words (a + 128) 5 = _
    rw [htop]
    exact c.mem.words_pushWords (a + 128) [c.ss, c.rsp, c.rflags, c.cs, c.rip]
  have hhardIn : Mem.ChangesIn [⟨a + 128, 40⟩] c.mem (c.interrupt ist entry).mem := by
    change Mem.ChangesIn _ c.mem (c.mem.pushWords (istTop ist) _)
    rw [htop]
    exact c.mem.changesIn_pushWords (a + 128) [c.ss, c.rsp, c.rflags, c.cs, c.rip]
  have hsp : ((c.interrupt ist entry).exec (.subRsp 8)).rsp.toNat = a + 120 := by
    have h40 : ((ist &&& ~~~ 0xf) - 40).toNat = istTop ist - 40 :=
      toNat_sub_ofNat (n := 40) (by change 40 ≤ istTop ist; omega)
    have h8 : ((ist &&& ~~~ 0xf) - 40 - 8).toNat = ((ist &&& ~~~ 0xf) - 40).toNat - 8 :=
      toNat_sub_ofNat (n := 8) (by omega)
    change ((ist &&& ~~~ 0xf) - 40 - 8).toNat = _
    omega
  obtain ⟨m, hrun, hregs, hregsIn⟩ := run_saveContext hsp
  have hcode : (c.interrupt ist entry).run isrInterrupt =
      (((c.interrupt ist entry).exec (.subRsp 8)).run saveContext).run
        [.movFromRsp .rdi, .clear .rbp] := by
    rw [isrInterrupt, List.cons_append, run_cons, run_append]
  rw [hrun, run_handlerArgs] at hcode
  have hmem : ((c.interrupt ist entry).run isrInterrupt).mem = m := by
    rw [hcode]
  have hrdi : ((c.interrupt ist entry).run isrInterrupt).reg .rdi = UInt64.ofNat a := by
    rw [hcode]
    rfl
  rw [hmem, hrdi]
  refine ⟨?_, ?_, ?_⟩
  · refine ⟨_, (fields_words _ _ _ _).mpr ⟨hregs, rfl, ?_⟩⟩
    rw [hregsIn.words_eq]
    · exact hhard
    · intro s hs
      rw [List.mem_singleton.mp hs]
      simp only [Span.Disjoint]
      omega
  · have hlt := (ist &&& ~~~ 0xf).toNat_lt
    apply UInt64.toNat_ofNat_of_lt'
    change a < 2 ^ 64
    change istTop ist < 2 ^ 64 at hlt
    omega
  · apply Mem.ChangesIn.trans
    · apply hhardIn.mono
      intro s hs
      rw [List.mem_singleton.mp hs]
      refine ⟨_, List.mem_singleton_self _, ?_⟩
      simp only [Span.Inside, ctxSize]
      omega
    · apply hregsIn.mono
      intro s hs
      rw [List.mem_singleton.mp hs]
      refine ⟨_, List.mem_singleton_self _, ?_⟩
      simp only [Span.Inside, ctxSize]
      omega

/-- The registers that `thread_switch` loads before the page map. -/
def switchRegs : List Reg :=
  [.rax, .rbx, .rcx, .rdx, .rsi, .rdi, .rbp, .r8, .r9, .r10, .r11, .r12, .r13, .r14]

theorem iretq_eq (c : Cpu) {a : Nat} {x : Context} (ha : c.rsp.toNat = a)
    (hwords : c.mem.words a 5 = [x.rip, x.cs, x.rflags, x.rsp, x.ss]) :
    c.iretq = {c with rip := x.rip, cs := x.cs, rflags := x.rflags, rsp := x.rsp, ss := x.ss} := by
  simp only [Mem.words, List.cons.injEq, and_true] at hwords
  obtain ⟨hrip, hcs, hrflags, hrsp, hss⟩ := hwords
  simp only [Cpu.iretq, ha, hrip, hcs, hrflags, hrsp, hss]

/-- The end of `thread_switch`, with the last register and the error code on the stack. -/
theorem run_switchEnd (c : Cpu) {b : Nat} (h : c.rsp.toNat = b) (hb : b + 16 < 2 ^ 64) :
    c.run [.movCr3 .r15, .pop .r15, .addRsp 8] = {c with
        cr3 := c.reg .r15
        reg := Function.update c.reg .r15 (c.mem.word b)
        rsp := c.rsp + 8 + 8} ∧ (c.rsp + 8 + 8).toNat = b + 16 := by
  constructor
  · rw [← h]
    rfl
  · have h8 : (c.rsp + 8).toNat = c.rsp.toNat + 8 := toNat_add_ofNat (n := 8) (by omega)
    have h16 : (c.rsp + 8 + 8).toNat = (c.rsp + 8).toNat + 8 := toNat_add_ofNat (n := 8) (by omega)
    omega

/-- `thread_switch` goes on with the code whose context it is given, in the given page map. -/
theorem run_threadSwitch (c : Cpu) {x : Context} {a : Nat} (cr3 : UInt64) (hx : x.At c.mem a)
    (ha : a + ctxSize < 2 ^ 64) :
    ((c.run (threadSwitch (UInt64.ofNat a) cr3)).iretq).context = x ∧
      (c.run (threadSwitch (UInt64.ofNat a) cr3)).iretq.cr3 = cr3 ∧
      (c.run (threadSwitch (UInt64.ofNat a) cr3)).iretq.mem = c.mem := by
  rw [ctxSize] at ha
  obtain ⟨err, hfields⟩ := hx
  obtain ⟨hregs, -, htail⟩ := (fields_words _ _ _ _).mp hfields
  have hsplit : c.mem.words a 14 ++ [c.mem.word (a + 112)] =
      switchRegs.map x.reg ++ [x.reg .r15] := by
    have happend := c.mem.words_append a 14 1
    exact happend.symm.trans hregs
  obtain ⟨hfirst, hlast⟩ := List.append_inj hsplit (by rw [Mem.length_words]; rfl)
  have hr15 := (List.cons.inj hlast).1
  have hnat : (UInt64.ofNat a).toNat = a := UInt64.toNat_ofNat_of_lt' (by change a < 2 ^ 64; omega)
  have hpops := run_pop (c := c.run [.movRsp (UInt64.ofNat a), .mov .r15 cr3]) switchRegs hnat
    (by change a + 112 < 2 ^ 64; omega)
  have hwords : (c.run [.movRsp (UInt64.ofNat a), .mov .r15 cr3]).mem.words a 14 =
      switchRegs.map x.reg := hfirst
  have hcode : c.run (threadSwitch (UInt64.ofNat a) cr3) =
      ((c.run [.movRsp (UInt64.ofNat a), .mov .r15 cr3]).run (switchRegs.map Instr.pop)).run
        [.movCr3 .r15, .pop .r15, .addRsp 8] := by
    rw [← run_append, ← run_append]
    rfl
  have hlen : switchRegs.length = 14 := rfl
  rw [hlen, hwords] at hpops
  have hsp : (UInt64.ofNat (a + 8 * 14)).toNat = a + 112 :=
    UInt64.toNat_ofNat_of_lt' (by change a + 112 < 2 ^ 64; omega)
  obtain ⟨hend, htop⟩ := run_switchEnd
    ((c.run [.movRsp (UInt64.ofNat a), .mov .r15 cr3]).run (switchRegs.map Instr.pop))
    (b := a + 112) (by rw [hpops]; exact hsp) (by omega)
  rw [← hcode] at hend
  rw [hpops] at hend htop
  have hmem : (c.run (threadSwitch (UInt64.ofNat a) cr3)).mem = c.mem := by
    rw [hend]
    rfl
  have hcr3 : (c.run (threadSwitch (UInt64.ofNat a) cr3)).cr3 = cr3 := by
    rw [hend]
    change loadRegs (Function.update c.reg .r15 cr3) switchRegs _ .r15 = cr3
    rw [loadRegs_of_not_mem _ (by decide), Function.update_self]
  have hregs : (c.run (threadSwitch (UInt64.ofNat a) cr3)).reg = x.reg := by
    rw [hend]
    change Function.update (loadRegs _ switchRegs _) .r15 (c.mem.word (a + 112)) = x.reg
    funext r
    by_cases hr : r = .r15
    · rw [hr, Function.update_self, hr15]
    · rw [Function.update_of_ne hr]
      exact loadRegs_map (by decide) (by revert hr; cases r <;> decide)
  have hret := iretq_eq (c.run (threadSwitch (UInt64.ofNat a) cr3)) (a := a + 128) (x := x)
    (by rw [hend]; exact htop) (by rw [hmem]; exact htail)
  rw [hret]
  exact ⟨by rw [Cpu.context]; simp only [hregs], hcr3, hmem⟩

/-- The block that `core_init` allocates as the stack for interrupts. -/
def irqStackSize : Nat := 4 * 4096

/-- The block starts where `thread_entry` lets the stack start, and the stack grows away from it. -/
theorem frame_beside_block {ist : UInt64} {a : Nat} (h : istTop ist = a + ctxSize) :
    Span.Disjoint ⟨a, ctxSize⟩ ⟨ist.toNat, irqStackSize⟩ := by
  left
  change a + ctxSize ≤ ist.toNat
  rw [← h, istTop, UInt64.toNat_and]
  exact Nat.and_le_left

/-- What `save_context` leaves in the thread, and where it stores. -/
theorem saveThreadContext_spec (m : Mem) {core context ctx : Nat}
    (hapart : Span.Disjoint ⟨ctx, ctxSize⟩ ⟨context, ctxSize⟩)
    (hcore : Span.Disjoint ⟨core + 0x10, 8⟩ ⟨context, ctxSize⟩) :
    (saveThreadContext m core context ctx).words context 21 = m.words ctx 21 ∧
      (saveThreadContext m core context ctx).word (context + ctxSize) = m.word (core + 0x10) ∧
      Mem.ChangesIn [⟨context, ctxSize + 8⟩] m (saveThreadContext m core context ctx) := by
  have hbehind : context + 8 * 21 ≤ context + ctxSize := le_rfl
  refine ⟨?_, ?_, fun x hx => ?_⟩
  · rw [saveThreadContext, Mem.words_setWord_of_disjoint _ _ (Or.inl hbehind)]
    exact Mem.words_memcpy (n := 21) m hapart.symm
  · rw [saveThreadContext, Mem.word_setWord_same]
    apply Mem.word_congr
    intro x hlo hhi
    apply Mem.memcpy_out
    simp only [Span.Disjoint] at hcore
    omega
  · have hout := hx _ (List.mem_singleton_self _)
    simp only [Span.Has] at hout
    rw [saveThreadContext, (Mem.changesIn_setWord _ _ _) x fun s hs => by
        rw [List.mem_singleton.mp hs]
        simp only [Span.Has]
        omega,
      Mem.memcpy_out _ (by omega)]

end Tellurium.Isr
