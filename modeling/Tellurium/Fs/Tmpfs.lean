import Tellurium.Fs.CreateOpen
import Tellurium.Lib.Memory

/-!
Loading the boot archives into the memory file system (`kernel/fs/tmpfs.c`). A module is a
ustar archive in memory; each member becomes a file under `/tmp`. The tree is that of the
virtual file system, and the data of a file is kept beside it; a block that no file has yet
holds anything. Requests for half the address space or more find no memory, the others
succeed. Where the source asserts, divides by zero, leaves a buffer or a block, pushes onto a
vector that is not there or never leaves its loop, there is no result.
-/

namespace Tellurium.Tmpfs

open Tellurium.Lib Tellurium.Vfs

/-- The tree and, for each node and offset, the byte at `fs_data + offset`. -/
structure TmpState where
  vfs : Vfs.State
  data : Nat → Nat → UInt8

inductive Halt where
  | assertion
  | fault
  | loop
  deriving Repr, DecidableEq

/-- The value of a signed `char`. -/
def charValue (b : UInt8) : Int := if b.toNat < 128 then b.toNat else b.toNat - 256

def ofByte (b : UInt8) : Char := Char.ofNat b.toNat

/-- An `int` computed from any integer, and one stored into a `size_t`. -/
def wrapInt (n : Int) : Int := (n + 2 ^ 31) % 2 ^ 32 - 2 ^ 31
def sizeOfInt (n : Int) : Nat := (n % 2 ^ 64).toNat

def octalToInt (m : Mem) (src : Nat) : Nat → Nat → Nat
  | 0, ret => ret
  | n + 1, ret =>
      if m src = 0 then ret
      else octalToInt m (src + 1) n (sizeOfInt (ret * 8 + (charValue (m src) - 48)))

/-- The blocks that a file needs to reach up to `offset + size`. -/
def newBlockSize (stat : Stat) (size offset : Nat) : Nat :=
  add64 size offset / stat.stBlksize + if add64 size offset % stat.stBlksize ≠ 0 then 1 else 0

/-- The attributes of a file after a write that ends at `offset + size`. -/
def statAfterWrite (stat : Stat) (size offset : Nat) : Stat :=
  let newBlockSize := newBlockSize stat size offset
  let stat := if newBlockSize > stat.stBlocks then
      {stat with stBlocks := newBlockSize, stSize := add64 offset size} else stat
  if add64 offset size > stat.stSize then {stat with stSize := add64 offset size} else stat

/-- The write asks `krealloc` for more than there is. -/
def NoMemory (stat : Stat) (size offset : Nat) : Prop :=
  newBlockSize stat size offset > stat.stBlocks ∧
    2 ^ 63 ≤ newBlockSize stat size offset * 4096 % 2 ^ 64

instance (stat : Stat) (size offset : Nat) : Decidable (NoMemory stat size offset) :=
  inferInstanceAs (Decidable (_ ∧ _))

def TmpState.setStat (s : TmpState) (node : Nat) (stat : Stat) : TmpState :=
  {s with vfs.nodes := Function.update s.vfs.nodes node {s.vfs.nodes node with stat}}

/-- The data that was there stays in front of what a larger allocation adds. A size of -1 asks
for no blocks at all and keeps the one it has, but is copied whole. -/
def tmpfsWrite (s : TmpState) (buff : Nat → UInt8) (node size offset : Nat) :
    Except Halt TmpState :=
  let stat := (s.vfs.nodes node).stat
  if stat.stBlksize = 0 then .error .fault
  else if NoMemory stat size offset then .ok s
  else if 2 ^ 63 ≤ size then .error .fault
  else
    let data := fun k => if offset ≤ k ∧ k < offset + size then buff (k - offset) else s.data node k
    .ok {s.setStat node (statAfterWrite stat size offset) with
      data := Function.update s.data node data}

/-- The loader's files are on the memory file system, so its write is the only one here. The
status it returns ends up in the number of bytes written, which nobody looks at. -/
def vfsWrite (s : TmpState) (buff : Nat → UInt8) (node size offset : Nat) : Except Halt TmpState :=
  if (s.vfs.nodes node).vfsops = some .tmpfs then tmpfsWrite s buff node size offset
  else .error .fault

/-- Offsets in a `tar_header_t`. -/
def sizeField : Nat := 124
def typeflagField : Nat := 156
def magicField : Nat := 257

/-- "ustar". -/
def tmagic : List UInt8 := [0x75, 0x73, 0x74, 0x61, 0x72]

def tarRegtype : UInt8 := 0x30

def hasMagic (m : Mem) (tarFile : Nat) : Bool :=
  (List.range 5).all fun i => m (tarFile + magicField + i) = tmagic.getD i 0

/-- The string at `a` if it ends within `n` bytes. -/
def cstring (m : Mem) (a : Nat) : Nat → Option (List UInt8)
  | 0 => none
  | n + 1 => if m a = 0 then some [] else (cstring m (a + 1) n).map (m a :: ·)

/-- What is left of the path buffer behind "/tmp/". -/
def pathRoom : Nat := vnodeNameMax - 5

def tmpPath (name : List UInt8) : List Char := ['/', 't', 'm', 'p', '/'] ++ name.map ofByte

/-- The number of blocks of a member by the rule of the source. -/
def numBlocks (size : Int) : Int :=
  let blocks := size.tdiv 512
  if blocks.tmod 512 ≠ 0 then blocks + 1 else blocks

/-- Where the source looks for the next header. -/
def nextHeader (tarFile : Nat) (size : Int) : Nat :=
  sizeOfInt (tarFile + wrapInt (512 * (1 + numBlocks size)))

/-- `ASSERT(!err, ...)` after a call. -/
def assertOk {α : Type} : Outcome α → Except Halt α
  | .done a => .ok a
  | .err _ => .error .assertion
  | .fault => .error .fault

/-- `vfs_create` of a regular file. Only a directory has a vector of children to push onto. -/
def createFile (s : Vfs.State) (path : List Char) : Except Halt Vfs.State := do
  let target ← assertOk (createTarget s vRoot path)
  if (s.nodes target.1).vType = .vdir then .ok (linkNode s target.1 target.2 .vreg)
  else .error .fault

/-- Create, open and write one file. -/
def loadFile (s : TmpState) (name : List UInt8) (buff : Nat → UInt8) (size : Int) :
    Except Halt TmpState := do
  let vfs ← createFile s.vfs (tmpPath name)
  let node ← assertOk (vfsPathToNode vfs vRoot (tmpPath name))
  vfsWrite {s with vfs} buff node (sizeOfInt size) 0

/-- The loop over the members. A member it does not like is looked at again and again. -/
def loadMembers (m : Mem) : Nat → Nat → TmpState → Except Halt TmpState
  | 0, _, _ => .error .loop
  | fuel + 1, tarFile, s =>
      if !hasMagic m tarFile then .ok s
      else if (m tarFile = 0x2e ∧ m (tarFile + 1) = 0x2f) ∨ m (tarFile + typeflagField) ≠ tarRegtype
      then .error .loop
      else
        match cstring m tarFile pathRoom with
        | none => .error .fault
        | some name => do
            let size := toInt32 (octalToInt m (tarFile + sizeField) 12 0)
            let s ← loadFile s name (fun k => m (tarFile + 512 + k)) size
            loadMembers m fuel (nextHeader tarFile size) s

/-- The modules by address. -/
def tmpfsLoadUserapps (m : Mem) (fuel : Nat) (modules : List Nat) (s : TmpState) :
    Except Halt TmpState :=
  modules.foldlM (fun s tarFile => loadMembers m fuel tarFile s) s

/-- The node that a path leads to once its last name is an entry of the directory. -/
def openedNode (s : Vfs.State) (vParent : Nat) (leaf : List Char) : Nat :=
  if leaf = [] then vParent else (vfsGetChild s vParent leaf).getD s.nodeCount

/-- A tree in which the block size is that of the two file systems or was never set. -/
structure TreeReady (s : Vfs.State) : Prop where
  children : ChildrenOk s
  blocks : ∀ i, i < s.nodeCount →
    (s.nodes i).stat.stBlksize = 0 ∨ (s.nodes i).stat.stBlksize = 4096

section Trees

variable {s s' : Vfs.State} {vParent node : Nat} {leaf : List Char} {type : VType}

theorem linkNode_vfsops {i : Nat} (hi : i < s.nodeCount) :
    ((linkNode s vParent leaf type).nodes i).vfsops = (s.nodes i).vfsops := by
  have hne : i ≠ s.nodeCount := Nat.ne_of_lt hi
  by_cases hparent : i = vParent
  · subst hparent
    simp [linkNode, hne]
  · simp [linkNode, hne, hparent]

theorem linkNode_nodeCount :
    (linkNode s vParent leaf type).nodeCount = s.nodeCount + 1 := rfl

/-- A new node of a mounted directory is set up by its file system. -/
theorem linkNode_new_mounted {fs : Fs} (hops : (s.nodes vParent).vfsops = some fs) :
    (linkNode s vParent leaf type).nodes s.nodeCount =
      {vType := type, vMp := (s.nodes vParent).vMp, vParent := some vParent, vChildren := [],
       vName := leaf, vfsops := some fs, stat := ⟨vfsVtypeToStMode type, 4096, 1, 4096⟩} := by
  simp [linkNode, hops, fsCreate, vfsAllocNode]

theorem linkNode_new_unmounted (hops : (s.nodes vParent).vfsops = none) :
    (linkNode s vParent leaf type).nodes s.nodeCount =
      vfsAllocNode (some vParent) leaf type := by
  simp [linkNode, hops]

theorem treeReady_linkNode (hs : TreeReady s) : TreeReady (linkNode s vParent leaf type) := by
  refine ⟨childrenOk_linkNode hs.children, fun i hi => ?_⟩
  rw [linkNode_nodeCount] at hi
  rcases Nat.lt_or_eq_of_le (Nat.le_of_lt_succ hi) with hold | rfl
  · rw [linkNode_stat hold]
    exact hs.blocks i hold
  · cases hops : (s.nodes vParent).vfsops with
    | none =>
        left
        rw [linkNode_new_unmounted hops]
        rfl
    | some fs =>
        right
        rw [linkNode_new_mounted hops]

/-- Mounting keeps the attributes of every node. -/
theorem stat_vfsMount {base : Nat} {path : List Char} {fs : Option Fs}
    (h : vfsMount s base path fs = .done s') (i : Nat) :
    (s'.nodes i).stat = (s.nodes i).stat := by
  unfold vfsMount at h
  generalize vfsPathToNode s base path = target at h
  cases target with
  | fault => cases h
  | err code => cases h
  | done mountpoint =>
      simp only at h
      split at h
      · cases h
      · cases fs with
        | none => cases h
        | some fs =>
            simp only [vfsAddFsNode] at h
            split_ifs at h with hroom
            · simp only [Function.update_self, Outcome.done.injEq] at h
              subst h
              by_cases hi : i = mountpoint
              · subst hi
                simp [fsMount]
              · simp [hi]

/-- The calls of the file system keep its trees ready. -/
theorem treeReady_step {op : Op} (hs : TreeReady s) (h : step s op = some s') : TreeReady s' := by
  have hchildren := childrenOk_step hs.children h
  unfold step at h
  split_ifs at h with hbase
  rcases next_eq_some h with hcall | rfl
  · cases op with
    | create vBase path type =>
        rw [Op.call, vfsCreate, Outcome.map_eq_done] at hcall
        obtain ⟨target, -, rfl⟩ := hcall
        exact treeReady_linkNode hs
    | mount base path fs =>
        refine ⟨hchildren, fun i hi => ?_⟩
        rw [stat_vfsMount hcall]
        exact hs.blocks i ((sameTree_vfsMount hcall).count ▸ hi)
  · exact hs

theorem treeReady_vfsInit : TreeReady vfsInit :=
  ⟨childrenOk_vfsInit, fun _ _ => .inl rfl⟩

theorem treeReady_run {s₀ : Vfs.State} (h₀ : TreeReady s₀) {ops : List Op}
    (h : run s₀ ops = some s) : TreeReady s := by
  induction ops generalizing s₀ with
  | nil => exact Option.some.inj h ▸ h₀
  | cons op ops ih =>
      obtain ⟨t, ht, hrest⟩ := Option.bind_eq_some_iff.mp h
      exact ih (treeReady_step h₀ ht) hrest

theorem openedNode_lt (hs : ChildrenOk s) (hparent : vParent < s.nodeCount) :
    openedNode s vParent leaf < (linkNode s vParent leaf type).nodeCount := by
  rw [openedNode, linkNode_nodeCount]
  split_ifs
  · exact Nat.lt_succ_of_lt hparent
  · cases hchild : vfsGetChild s vParent leaf with
    | none => exact Nat.lt_succ_self _
    | some child =>
        exact Nat.lt_succ_of_lt (hs.children vParent hparent child (mem_of_vfsGetChild hchild).1)

/-- The child that a name selects once it was linked: the one before, or the new one. -/
theorem childNamed_opened (hs : ChildrenOk s) (hparent : vParent < s.nodeCount) (hne : leaf ≠ []) :
    ChildNamed (linkNode s vParent leaf type) vParent leaf (openedNode s vParent leaf) := by
  rw [openedNode, if_neg hne]
  cases hchild : vfsGetChild s vParent leaf with
  | none => exact childNamed_new hs hparent (vfsGetChild_eq_none_iff.mp hchild)
  | some child => exact (vfsGetChild_eq_some_iff.mp hchild).link hs hparent

/-- After the creation of `leaf`, its path leads to the node it selects. -/
theorem vfsPathToNode_linkNode {front : List Char} (hs : ChildrenOk s) (hne : front ≠ [])
    (hparent : vfsPathToNode s vRoot front = .done vParent) (hslash : '/' ∉ leaf)
    (hlen : (front ++ '/' :: leaf).length < vnodePathMax) :
    vfsPathToNode (linkNode s vParent leaf type) vRoot (front ++ '/' :: leaf) = .done node ↔
      (leaf = [] ∨ IsDir s vParent) ∧ node = openedNode s vParent leaf := by
  have hroot : vRoot < s.nodeCount := hs.root
  have hlt := vfsPathToNode_mem hs hroot hparent
  have hres := (vfsPathToNode_done_iff (length_of_vfsPathToNode hparent)).mp hparent
  rw [vfsPathToNode_done_iff hlen, resolves_append_of_ne (hres.link hs hroot) hne]
  by_cases hleaf : leaf = []
  · subst hleaf
    simp [components_nil, Reaches, openedNode]
  · have hchild := @childNamed_opened s vParent leaf type hs hlt hleaf
    rw [components_name hleaf hslash, or_iff_right hleaf]
    simp only [Reaches, IsDir, linkNode_stat hlt]
    constructor
    · rintro ⟨hdir, child, hnamed, rfl⟩
      exact ⟨hdir, hchild.unique hnamed⟩
    · rintro ⟨hdir, rfl⟩
      exact ⟨hdir, _, hchild, rfl⟩

end Trees

section Paths

variable {s : Vfs.State} {vParent : Nat} {leaf dirName : List Char}

/-- The path of a member, cut at its last slash. -/
theorem tmpPath_split (name : List UInt8) : ∃ front leaf,
    '/' :: name.map ofByte = front ++ '/' :: leaf ∧ '/' ∉ leaf ∧
      tmpPath name = (['/', 't', 'm', 'p'] ++ front) ++ '/' :: leaf := by
  obtain ⟨leaf, front, hsplit, hslash⟩ := List.eq_append_cons_of_mem
    (List.mem_reverse.mpr (List.mem_cons_self (a := '/') (l := name.map ofByte)))
  have hpath : '/' :: name.map ofByte = front.reverse ++ '/' :: leaf.reverse := by
    simpa using congrArg List.reverse hsplit
  refine ⟨front.reverse, leaf.reverse, hpath, by simpa using hslash, ?_⟩
  rw [List.append_assoc, ← hpath]
  rfl

/-- The last name of a path is linked in the directory that stands before it. -/
theorem createTarget_append {front : List Char} (hslash : '/' ∉ leaf)
    (hlen : (front ++ '/' :: leaf).length < vnodeNameMax) :
    createTarget s vRoot (front ++ '/' :: leaf) = .done (vParent, dirName) ↔
      dirName = leaf ∧ vfsPathToNode s vRoot front = .done vParent := by
  have hsize : (front ++ '/' :: leaf).length = front.length + 1 + leaf.length := by
    rw [List.length_append, List.length_cons]
    omega
  have hname : vnodeNameMax = 64 := rfl
  have hpath : vnodePathMax = 512 := rfl
  rw [createTarget, vGetLeafName_append hslash (by omega), if_pos (by omega), createParent,
    vParentPath_append, if_neg (by omega)]
  cases vfsPathToNode s vRoot front with
  | done node => simp [and_comm, eq_comm]
  | err code => simp
  | fault => simp

end Paths

/-- A node that can be written to. -/
structure Writable (node : Vnode) : Prop where
  ops : node.vfsops = some .tmpfs
  block : node.stat.stBlksize ≠ 0

/-- The name leads to a directory, and through it to the entry that is opened. -/
structure Creates (s : Vfs.State) (name : List UInt8) (vParent : Nat) (leaf : List Char) :
    Prop where
  target : createTarget s vRoot (tmpPath name) = .done (vParent, leaf)
  directory : (s.nodes vParent).vType = .vdir
  opens : leaf = [] ∨ IsDir s vParent

section Loading

variable {s s' : TmpState} {vParent node size offset : Nat} {leaf : List Char}
  {name : List UInt8} {buff : Nat → UInt8}

theorem createFile_ok_iff {vfs vfs' : Vfs.State} {path : List Char} :
    createFile vfs path = .ok vfs' ↔
      ∃ vParent leaf, createTarget vfs vRoot path = .done (vParent, leaf) ∧
        (vfs.nodes vParent).vType = .vdir ∧ linkNode vfs vParent leaf .vreg = vfs' := by
  rw [createFile]
  cases createTarget vfs vRoot path with
  | done target =>
      obtain ⟨parent, last⟩ := target
      by_cases hdir : (vfs.nodes parent).vType = .vdir
      · simp [assertOk, bind, Except.bind, hdir]
      · simp [assertOk, bind, Except.bind, hdir]
  | err code => simp [assertOk, bind, Except.bind]
  | fault => simp [assertOk, bind, Except.bind]

theorem target_lt {s : Vfs.State} (hs : ChildrenOk s)
    (htarget : createTarget s vRoot (tmpPath name) = .done (vParent, leaf)) :
    vParent < s.nodeCount :=
  (createTarget_spec hs hs.root htarget).1

/-- Where a path of the loader leads once its file is linked. -/
theorem vfsPathToNode_linked {s : Vfs.State} (hs : ChildrenOk s) (hlen : name.length ≤ 58)
    (htarget : createTarget s vRoot (tmpPath name) = .done (vParent, leaf)) :
    vfsPathToNode (linkNode s vParent leaf .vreg) vRoot (tmpPath name) = .done node ↔
      (leaf = [] ∨ IsDir s vParent) ∧ node = openedNode s vParent leaf := by
  obtain ⟨front, last, -, hslash, hpath⟩ := tmpPath_split name
  have hsize : (tmpPath name).length < vnodeNameMax := by
    simp only [tmpPath, List.length_append, List.length_map, List.length_cons, List.length_nil,
      vnodeNameMax]
    omega
  have hshort : (tmpPath name).length < vnodePathMax := Nat.lt_of_lt_of_le hsize (by decide)
  rw [hpath] at htarget hsize hshort ⊢
  obtain ⟨rfl, hparent⟩ := (createTarget_append hslash hsize).mp htarget
  exact vfsPathToNode_linkNode hs (by simp) hparent hslash hshort

theorem loadFile_eq (hs : ChildrenOk s.vfs) (hlen : name.length ≤ 58)
    (h : Creates s.vfs name vParent leaf) (buff : Nat → UInt8) (size : Int) :
    loadFile s name buff size =
      vfsWrite {s with vfs := linkNode s.vfs vParent leaf .vreg} buff
        (openedNode s.vfs vParent leaf) (sizeOfInt size) 0 := by
  have hcreate := createFile_ok_iff.mpr ⟨vParent, leaf, h.target, h.directory, rfl⟩
  have hopen := (vfsPathToNode_linked hs hlen h.target).mpr ⟨h.opens, rfl⟩
  rw [loadFile, hcreate]
  simp only [bind, Except.bind, hopen, assertOk]

theorem creates_of_loadFile (hs : ChildrenOk s.vfs) (hlen : name.length ≤ 58) {size : Int}
    (h : loadFile s name buff size = .ok s') :
    ∃ vParent leaf, Creates s.vfs name vParent leaf := by
  cases hcreate : createFile s.vfs (tmpPath name) with
  | error e =>
      rw [loadFile, hcreate] at h
      cases h
  | ok vfs =>
      obtain ⟨vParent, leaf, htarget, hdir, rfl⟩ := createFile_ok_iff.mp hcreate
      refine ⟨vParent, leaf, htarget, hdir, ?_⟩
      cases hopen : vfsPathToNode (linkNode s.vfs vParent leaf .vreg) vRoot (tmpPath name) with
      | done node => exact ((vfsPathToNode_linked hs hlen htarget).mp hopen).1
      | err code =>
          rw [loadFile, hcreate] at h
          simp only [bind, Except.bind, hopen] at h
          cases h
      | fault =>
          rw [loadFile, hcreate] at h
          simp only [bind, Except.bind, hopen] at h
          cases h

/-- The state after a write that found room. -/
def TmpState.written (s : TmpState) (buff : Nat → UInt8) (node size offset : Nat) : TmpState :=
  {s.setStat node (statAfterWrite (s.vfs.nodes node).stat size offset) with
    data := Function.update s.data node fun k =>
      if offset ≤ k ∧ k < offset + size then buff (k - offset) else s.data node k}

/-- A write that returns either changed nothing or wrote all of its bytes. -/
theorem vfsWrite_ok_iff :
    vfsWrite s buff node size offset = .ok s' ↔ Writable (s.vfs.nodes node) ∧
      (NoMemory (s.vfs.nodes node).stat size offset ∧ s' = s ∨
        ¬ NoMemory (s.vfs.nodes node).stat size offset ∧ size < 2 ^ 63 ∧
          s' = s.written buff node size offset) := by
  rw [vfsWrite, tmpfsWrite]
  constructor
  · intro h
    split_ifs at h with hops hblock hmemory hlarge
    · exact ⟨⟨hops, hblock⟩, .inl ⟨hmemory, (Except.ok.inj h).symm⟩⟩
    · exact ⟨⟨hops, hblock⟩, .inr ⟨hmemory, by omega, (Except.ok.inj h).symm⟩⟩
  · rintro ⟨hw, ⟨hmemory, rfl⟩ | ⟨hmemory, hsmall, rfl⟩⟩
    · rw [if_pos hw.ops, if_neg hw.block, if_pos hmemory]
    · rw [if_pos hw.ops, if_neg hw.block, if_neg hmemory, if_neg (by omega)]
      rfl

/-- There is memory for the size of a file. -/
theorem vfsWrite_file (hw : Writable (s.vfs.nodes node)) (hsize : size < 2 ^ 31)
    (buff : Nat → UInt8) :
    vfsWrite s buff node size 0 = .ok (s.written buff node size 0) := by
  have hmemory : ¬ NoMemory (s.vfs.nodes node).stat size 0 := by
    have hquotient := Nat.div_le_self size (s.vfs.nodes node).stat.stBlksize
    have hadd : add64 size 0 = size := Nat.mod_eq_of_lt (by omega)
    rintro ⟨-, hlarge⟩
    rw [newBlockSize, hadd] at hlarge
    split_ifs at hlarge
    · omega
    · omega
  exact vfsWrite_ok_iff.mpr ⟨hw, .inr ⟨hmemory, by omega, rfl⟩⟩

theorem statAfterWrite_same (stat : Stat) (size offset : Nat) :
    (statAfterWrite stat size offset).stMode = stat.stMode ∧
      (statAfterWrite stat size offset).stBlksize = stat.stBlksize := by
  rw [statAfterWrite]
  split_ifs <;> exact ⟨rfl, rfl⟩

theorem written_other {i : Nat} (hi : i ≠ node) :
    (s.written buff node size offset).vfs.nodes i = s.vfs.nodes i :=
  Function.update_of_ne hi _ _

/-- A write changes a size of its node only. -/
theorem written_nodes (s : TmpState) (buff : Nat → UInt8) (node size offset i : Nat) :
    ∃ stat, stat.stMode = (s.vfs.nodes i).stat.stMode ∧
    stat.stBlksize = (s.vfs.nodes i).stat.stBlksize ∧
    (s.written buff node size offset).vfs.nodes i = {s.vfs.nodes i with stat} := by
  by_cases hi : i = node
  · subst hi
    obtain ⟨hmode, hblock⟩ := statAfterWrite_same (s.vfs.nodes i).stat size offset
    exact ⟨_, hmode, hblock, Function.update_self ..⟩
  · exact ⟨_, rfl, rfl, written_other hi⟩

theorem treeReady_written (hs : TreeReady s.vfs) :
    TreeReady (s.written buff node size offset).vfs := by
  refine ⟨⟨hs.children.root, fun p hp c hc => ?_⟩, fun i hi => ?_⟩
  · obtain ⟨stat, -, -, hnode⟩ := written_nodes s buff node size offset p
    rw [hnode] at hc
    exact hs.children.children p hp c hc
  · obtain ⟨stat, -, hblock, hnode⟩ := written_nodes s buff node size offset i
    rw [hnode, hblock]
    exact hs.blocks i hi

theorem treeReady_loadFile (hs : TreeReady s.vfs) (hlen : name.length ≤ 58) {size : Int}
    (h : loadFile s name buff size = .ok s') : TreeReady s'.vfs := by
  obtain ⟨vParent, leaf, hcreates⟩ := creates_of_loadFile hs.children hlen h
  rw [loadFile_eq hs.children hlen hcreates] at h
  have hlinked : TreeReady (linkNode s.vfs vParent leaf .vreg) := treeReady_linkNode hs
  obtain ⟨-, ⟨-, rfl⟩ | ⟨-, -, rfl⟩⟩ := vfsWrite_ok_iff.mp h
  · exact hlinked
  · exact treeReady_written hlinked

theorem length_cstring {m : Mem} {a n : Nat} (h : cstring m a n = some name) :
    name.length < n := by
  induction n generalizing a name with
  | zero => cases h
  | succ n ih =>
      rw [cstring] at h
      split_ifs at h
      · rw [← Option.some.inj h]
        exact Nat.succ_pos _
      · obtain ⟨rest, hrest, rfl⟩ := Option.map_eq_some_iff.mp h
        exact Nat.succ_lt_succ (ih hrest)

end Loading

section Boot

theorem bootTree_ready : TreeReady bootTree := by
  have hcases : ∀ i, i < bootTree.nodeCount → i = 0 ∨ i = 1 := by
    intro i hi
    have hlt : i < 2 := hi
    omega
  refine ⟨⟨by decide, fun p hp c hc => ?_⟩, fun i hi => ?_⟩
  · obtain rfl | rfl := hcases p hp
    · obtain rfl : c = 1 := by simpa [bootTree] using hc
      decide
    · simp [bootTree, fsMount, vfsAllocNode] at hc
  · obtain rfl | rfl := hcases i hi
    · exact .inl rfl
    · exact .inl rfl

def bootState : TmpState := ⟨bootTree, fun _ _ => 0⟩

end Boot

end Tellurium.Tmpfs
