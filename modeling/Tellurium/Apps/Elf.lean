import Tellurium.Memory.Sections

/-!
The ELF loader (`kernel/apps/elf.c`). The file is read into one kernel buffer, and every
`PT_LOAD` segment is copied into pages of its own that are then mapped into the process. The
answers of `kmalloc` and `palloc` come as lists of pointers; the words that `kmalloc` keeps
beside its buffers are left out. Byte counts that the source computes as `int` wrap at 32 bits.
-/

namespace Tellurium.Elf

open Tellurium.Lib Tellurium.Vmm

def elfErr : Nat := 0
def elfSuccess : Nat := 1
def ptLoad : Nat := 1
def pfX : Nat := 0x1
def pfW : Nat := 0x2

def eType (m : Mem) (header : Nat) : Nat := m.read16 (header + 16)
def eMachine (m : Mem) (header : Nat) : Nat := m.read16 (header + 18)
def eVersion (m : Mem) (header : Nat) : Nat := m.readN (header + 20) 4
def eEntry (m : Mem) (header : Nat) : Nat := m.read64 (header + 24)
def ePhoff (m : Mem) (header : Nat) : Nat := m.read64 (header + 32)
def ePhentsize (m : Mem) (header : Nat) : Nat := m.read16 (header + 54)
def ePhnum (m : Mem) (header : Nat) : Nat := m.read16 (header + 56)

/-- What the loader reads of an `Elf64_Phdr`. -/
structure Phdr where
  pType : Nat
  pFlags : Nat
  pOffset : Nat
  pVaddr : Nat
  pFilesz : Nat
  pMemsz : Nat
deriving DecidableEq

def readPhdr (m : Mem) (addr : Nat) : Phdr where
  pType := m.readN addr 4
  pFlags := m.readN (addr + 4) 4
  pOffset := m.read64 (addr + 8)
  pVaddr := m.read64 (addr + 16)
  pFilesz := m.read64 (addr + 32)
  pMemsz := m.read64 (addr + 40)

def elfVerifyHeader (m : Mem) (header : Nat) : Bool :=
  m header == 0x7f && m (header + 1) == 0x45 && m (header + 2) == 0x4c && m (header + 3) == 0x46 &&
  m (header + 4) == 2 && m (header + 5) == 1 && m (header + 7) == 0 && m (header + 8) == 0 &&
  eType m header == 2 && eMachine m header == 62 && eVersion m header == 1

/-- A count that the source computes as an `int` and then converts to 64 bits. -/
def intTo64 (n : Nat) : Nat :=
  if n % 2 ^ 32 < 2 ^ 31 then n % 2 ^ 32 else n % 2 ^ 32 + (2 ^ 64 - 2 ^ 32)

theorem intTo64_eq {n : Nat} (hn : n < 2 ^ 31) : intTo64 n = n := by
  rw [intTo64, Nat.mod_eq_of_lt (by omega), if_pos hn]

def elfGetPhdr (m : Mem) (elfRaw n : Nat) : Nat :=
  add64 (add64 elfRaw (ePhoff m elfRaw)) (intTo64 (n * ePhentsize m elfRaw))

namespace Phdr

def vmmFlags (ph : Phdr) : Nat :=
  let flags := pmlNotExecutable ||| pmlUser ||| pmlPresent
  let flags := if ph.pFlags &&& pfX ≠ 0 then flags &&& (2 ^ 64 - 1 - pmlNotExecutable) else flags
  if ph.pFlags &&& pfW ≠ 0 then flags ||| pmlWrite else flags

/-- Where the segment starts in its first page. -/
def offset (ph : Phdr) : Nat := ph.pVaddr &&& 0xfff

def sizeBytes (ph : Phdr) : Nat := add64 ph.offset ph.pMemsz

def numPages (ph : Phdr) : Nat :=
  (if ph.sizeBytes % pageSize ≠ 0 then ph.sizeBytes / pageSize + 1 else ph.sizeBytes / pageSize) % 2 ^ 32

def sectionBytes (ph : Phdr) : Nat := intTo64 (ph.numPages * pageSize)

end Phdr

/-- The memory, and what `palloc` and `kmalloc` will answer. -/
structure LoadState where
  mem : Mem
  supply : List Nat
  buffers : List Nat

/-- The body of the loop for a `PT_LOAD` header. -/
def loadSegment (hhdm pml4Base data : Nat) (ph : Phdr) (s : LoadState) : Option (Nat × LoadState) :=
  match s.buffers with
  | [] => none
  | pSection :: buffers =>
      if pSection = 0 then some (elfErr, ⟨s.mem, s.supply, buffers⟩)
      else
        let m := s.mem.memset pSection 0 ph.sectionBytes
        let m := m.memcpy (pSection + ph.offset) (add64 data ph.pOffset) ph.pMemsz
        let paddr := sub64 (pSection + ph.offset) hhdm
        (mapSection hhdm (m, s.supply) pml4Base (ph.pVaddr - ph.offset) paddr ph.sectionBytes
          ph.vmmFlags).map fun r => (elfSuccess, ⟨r.1, r.2, buffers⟩)

/-- The loop over the program headers from header `i` on. -/
def loadSegments (hhdm pml4Base data : Nat) : Nat → Nat → LoadState → Option (Nat × LoadState)
  | 0, _, _ => none
  | fuel + 1, i, s =>
      if i < ePhnum s.mem data then
        let ph := readPhdr s.mem (elfGetPhdr s.mem data i)
        if ph.pType ≠ ptLoad then loadSegments hhdm pml4Base data fuel (i + 1) s
        else
          match loadSegment hhdm pml4Base data ph s with
          | none => none
          | some (ret, s) =>
              if ret = elfErr then some (elfErr, s)
              else loadSegments hhdm pml4Base data fuel (i + 1) s
      else some (elfSuccess, s)

/-- A file as `vfs_read` delivers it. -/
structure ElfFile where
  bytes : Mem
  size : Nat

/-- The memory after the file was read to `data`. -/
def ElfFile.readTo (f : ElfFile) (data : Nat) (m : Mem) : Mem := fun x =>
  if data ≤ x ∧ x < data + f.size then f.bytes (x - data) else m x

/-- `elf_load` with the file it finds (`none` if there is none, where the assertion halts the core),
whether `vfs_read` fails, and whether the caller wants the entry point. Also what is stored in
`*entry`. -/
def elfLoad (hhdm pml4Base : Nat) (file : Option ElfFile) (readFails wantsEntry : Bool)
    (s : LoadState) : Option (Nat × Option Nat × LoadState) :=
  match file, s.buffers with
  | none, _ => none
  | some _, [] => none
  | some f, data :: buffers =>
      let s : LoadState := ⟨s.mem, s.supply, buffers⟩
      if data = 0 ∨ readFails then some (elfErr, none, s)
      else
        let m := f.readTo data s.mem
        let s : LoadState := ⟨m, s.supply, buffers⟩
        if !elfVerifyHeader m data || !wantsEntry then some (elfErr, none, s)
        else
          (loadSegments hhdm pml4Base data (2 ^ 16 + 1) 0 s).map fun r =>
            (r.1, some (eEntry m data), r.2)

/-- A byte of process memory, through the process's page map. -/
def readProc (hhdm : Nat) (m : Mem) (pml4Base v : Nat) : Option UInt8 :=
  (translate hhdm m pml4Base v).map fun entry =>
    m (add64 (entry &&& pmlPhysicalAddress) hhdm + v % 4096)

end Tellurium.Elf
