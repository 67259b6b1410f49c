import Tellurium.Apps.Elf

/-!
Processes and their page maps: `create_user_process` (`kernel/arch/process.c`), the stack that
`create_user_thread` maps (`kernel/arch/thread.c`) and the system calls that map memory
(`kernel/syscalls/mmap.c`, `kernel/syscalls/fb_context.c`). What `kmalloc` answers is an argument,
with 0 for a null pointer; the records of processes and threads are left out. The kernel writes to
user memory through the page map of the process, and a page fault has no result.
-/

namespace Tellurium.Process

open Tellurium.Lib Tellurium.Vmm Tellurium.Elf

def sysError : Nat := 0
def sysSuccess : Nat := 1

def userFlags : Nat := pmlPresent ||| pmlNotExecutable ||| pmlUser ||| pmlWrite

theorem userFlags_ok : userFlags < 2 ^ 64 ∧ userFlags &&& pmlPresent ≠ 0 ∧
    userFlags &&& pmlPhysicalAddress = 0 := by
  decide

def stackSize : Nat := 4 * pageSize

/-- `create_user_thread`, which maps the stack at its physical address. Also the thread, if the
kernel stack was found too. -/
def createUserThread (hhdm pml4Base entry thread stack kernelStack : Nat) (s : Mem × List Nat) :
    Option (Nat × Mem × List Nat) :=
  if entry = 0 ∨ thread = 0 ∨ stack = 0 then some (0, s)
  else
    let vaddr := sub64 stack hhdm
    (mapSection hhdm s pml4Base vaddr vaddr stackSize userFlags).map fun s =>
      (if kernelStack = 0 then 0 else thread, s)

def mmapBytes (len : Nat) : Nat :=
  (if len % pageSize ≠ 0 then len / pageSize + 1 else len / pageSize) * pageSize % 2 ^ 64

def syscallMmap (hhdm pml4Base len section_ : Nat) (s : Mem × List Nat) :
    Option (Nat × Mem × List Nat) :=
  if section_ = 0 then some (2 ^ 64 - 1, s)
  else
    let vaddr := sub64 section_ hhdm
    (mapSection hhdm s pml4Base vaddr vaddr (mmapBytes len) userFlags).map fun s => (vaddr, s)

/-- Where the kernel finds the byte at `v` of a process's memory, if `v` is canonical. -/
def location (hhdm : Nat) (m : Mem) (pml4Base v : Nat) : Option Nat :=
  if v % 2 ^ 64 < 2 ^ 47 ∨ 2 ^ 64 - 2 ^ 47 ≤ v % 2 ^ 64 then
    (translate hhdm m pml4Base v).map fun entry =>
      add64 (entry &&& pmlPhysicalAddress) hhdm + v % 4096
  else none

/-- Store the low `n` bytes of a value at the address `v` of the process. -/
def storeN (hhdm pml4Base : Nat) (m : Mem) (v : Nat) : Nat → Nat → Option Mem
  | 0, _ => some m
  | n + 1, value =>
      (location hhdm m pml4Base v).bind fun x =>
        storeN hhdm pml4Base (m.set x (UInt8.ofNat value)) (v + 1) n (value / 256)

structure Framebuffer where
  address : Nat
  width : Nat
  height : Nat
  pitch : Nat
  bpp : Nat

namespace Framebuffer

def paddr (fb : Framebuffer) (hhdm : Nat) : Nat := sub64 fb.address hhdm

/-- Where processes see the framebuffer. -/
def vaddr (fb : Framebuffer) (hhdm : Nat) : Nat := add64 (fb.paddr hhdm) 0x900000000

def sizeBytes (fb : Framebuffer) : Nat := fb.pitch * fb.height % 2 ^ 64

end Framebuffer

/-- The first four fields of the user's structure; `fb_buff` is stored last. -/
def storeContext (hhdm pml4Base : Nat) (fb : Framebuffer) (context : Nat) (m : Mem) : Option Mem :=
  (storeN hhdm pml4Base m (context + 8) 4 fb.width).bind fun m =>
    (storeN hhdm pml4Base m (context + 12) 4 fb.height).bind fun m =>
      (storeN hhdm pml4Base m (context + 16) 4 fb.pitch).bind fun m =>
        storeN hhdm pml4Base m (context + 20) 4 fb.bpp

def syscallGetFbContext (hhdm pml4Base : Nat) (fb : Framebuffer) (context : Nat)
    (s : Mem × List Nat) : Option (Nat × Mem × List Nat) :=
  if context = 0 then some (sysError, s)
  else
    (storeContext hhdm pml4Base fb context s.1).bind fun m =>
      (mapSection hhdm (m, s.2) pml4Base (fb.vaddr hhdm) (fb.paddr hhdm) fb.sizeBytes
        userFlags).bind fun s =>
          (storeN hhdm pml4Base s.1 context 8 (fb.vaddr hhdm)).map fun m => (sysSuccess, m, s.2)

/-- What `kmalloc` answers a new process: its record, its page map, its PML4, the buffers of
`elf_load` and those of its first thread. -/
structure Answers where
  proc : Nat
  pmap : Nat
  pml4 : Nat
  buffers : List Nat
  thread : Nat
  stack : Nat
  kernelStack : Nat

/-- `create_user_process`, with the value its local `entry` has if `elf_load` does not store one.
The PML4 of the new process, if there is one. -/
def createUserProcess (hhdm kernelPml4 : Nat) (file : Option ElfFile) (readFails : Bool)
    (uninit : Nat) (a : Answers) (s : Mem × List Nat) : Option (Option Nat × Mem × List Nat) :=
  if a.proc = 0 ∨ a.pmap = 0 ∨ a.pml4 = 0 then some (none, s)
  else
    (elfLoad hhdm a.pml4 file readFails true
      ⟨s.1.memcpy a.pml4 kernelPml4 pageSize, s.2, a.buffers⟩).bind fun r =>
        (createUserThread hhdm a.pml4 (r.2.1.getD uninit) a.thread a.stack a.kernelStack
          (r.2.2.mem, r.2.2.supply)).map fun t => (some a.pml4, t.2)

/-- What is done for a process after its creation. -/
inductive Call where
  | elfLoad (file : Option ElfFile) (readFails wantsEntry : Bool) (buffers : List Nat)
  | createUserThread (entry thread stack kernelStack : Nat)
  | mmap (len section_ : Nat)
  | getFbContext (context : Nat)

/-- The memory and the supply of frames after a call. -/
def Call.run (hhdm pml4Base : Nat) (fb : Framebuffer) (s : Mem × List Nat) :
    Call → Option (Mem × List Nat)
  | .elfLoad file readFails wantsEntry buffers =>
      (Elf.elfLoad hhdm pml4Base file readFails wantsEntry ⟨s.1, s.2, buffers⟩).map fun r =>
        (r.2.2.mem, r.2.2.supply)
  | .createUserThread entry thread stack kernelStack =>
      (Process.createUserThread hhdm pml4Base entry thread stack kernelStack s).map Prod.snd
  | .mmap len section_ => (syscallMmap hhdm pml4Base len section_ s).map Prod.snd
  | .getFbContext context => (syscallGetFbContext hhdm pml4Base fb context s).map Prod.snd

/-- The memory, the answers of `palloc` to come, and the PML4s of the processes. -/
structure State where
  mem : Mem
  supply : List Nat
  procs : List Nat

inductive Action where
  | create (file : Option ElfFile) (readFails : Bool) (uninit : Nat) (answers : Answers)
  | call (proc : Nat) (c : Call)

def step (hhdm kernelPml4 : Nat) (fb : Framebuffer) (s : State) : Action → Option State
  | .create file readFails uninit answers =>
      (createUserProcess hhdm kernelPml4 file readFails uninit answers (s.mem, s.supply)).map fun r =>
        ⟨r.2.1, r.2.2, s.procs ++ r.1.toList⟩
  | .call proc c =>
      s.procs[proc]?.bind fun pml4Base =>
        (c.run hhdm pml4Base fb (s.mem, s.supply)).map fun r => ⟨r.1, r.2, s.procs⟩

end Tellurium.Process
