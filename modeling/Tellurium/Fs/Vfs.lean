import Tellurium.Flibc.String
import Mathlib.Data.List.Induction
import Mathlib.Data.List.Nodup
import Mathlib.Logic.Function.Basic
import Mathlib.Tactic.Ring

/-!
The virtual file system (`kernel/fs/vfs.c`): a tree of vnodes that `vfs_create` and
`vfs_mount` change. Vnodes are named by numbers, the root by 0, and `v_children` is a
list. Allocations succeed, and a new vnode has no operations until it gets some. A
fault is what the source leaves undefined: a store past a stack buffer or a call through
a null `vfsops`.
-/

namespace Tellurium.Vfs

open Tellurium.Flibc

def vnodeNameMax : Nat := 64
def vnodePathMax : Nat := 512
def vfsMaxMounts : Nat := 100

inductive VfsCode where
  | openFail
  | invalidType
  | invalidParameters
  | invalidPath
  | nodeMissing
  | fsErr
  deriving Repr, DecidableEq

inductive VType where
  | vnon
  | vreg
  | vdir
  | vblk
  | vskt
  | other (n : Int)
  deriving Repr, DecidableEq

def sIfmt : Nat := 0o170000
def sIfsock : Nat := 0o140000
def sIfreg : Nat := 0o100000
def sIfblk : Nat := 0o060000
def sIfdir : Nat := 0o040000

def sIsDir (mode : Nat) : Bool := mode &&& sIfmt == sIfdir

def vfsVtypeToStMode : VType → Nat
  | .vreg => sIfreg
  | .vdir => sIfdir
  | .vskt => sIfsock
  | .vblk => sIfblk
  | _ => 0

/-- The registered file systems, which share one shape of `vfsops`. -/
inductive Fs where
  | tmpfs
  | devfs
  deriving Repr, DecidableEq

structure Stat where
  stMode : Nat
  stBlksize : Nat
  stBlocks : Nat
  stSize : Nat
  deriving Repr, DecidableEq

structure Vnode where
  vType : VType
  vMp : Option Nat
  vParent : Option Nat
  vChildren : List Nat
  vName : List Char
  vfsops : Option Fs
  stat : Stat
  deriving Repr, DecidableEq

structure State where
  nodes : Nat → Vnode
  nodeCount : Nat
  fsNodeCount : Nat

def vRoot : Nat := 0

/-- Success with a value, an error code, or undefined behaviour. -/
inductive Outcome (α : Type) where
  | done (a : α)
  | err (code : VfsCode)
  | fault
  deriving Repr, DecidableEq

def Outcome.map {α β : Type} (f : α → β) : Outcome α → Outcome β
  | .done a => .done (f a)
  | .err code => .err code
  | .fault => .fault

theorem Outcome.map_eq_done {α β : Type} {f : α → β} {o : Outcome α} {b : β} :
    o.map f = .done b ↔ ∃ a, o = .done a ∧ f a = b := by
  cases o <;> simp [Outcome.map]

/-- `__strlen` stored in an `int`. -/
def toInt32 (n : Nat) : Int := ((n : Int) + 2 ^ 31) % 2 ^ 32 - 2 ^ 31

/-- The index of the last slash among the first `n` characters, or -1. -/
def lastSlash (path : List Char) (n : Nat) : Int :=
  (List.range n).foldl (fun index (i : Nat) => if path[i]? = some '/' then (i : Int) else index) (-1)

def vGetLeafName (path : List Char) : Option (List Char) :=
  let pathLen := toInt32 path.length
  if pathLen > vnodePathMax ∨ pathLen ≤ 0 then none
  else
    let index := lastSlash path pathLen.toNat
    let leafNameLen := pathLen - (index + 1)
    if leafNameLen > vnodeNameMax - 1 then none
    else some (strncpy (path.drop (index + 1).toNat) leafNameLen.toNat)

/-- The first child of that name: equal lengths and equal characters. -/
def vfsGetChild (s : State) (parent : Nat) (name : List Char) : Option Nat :=
  (s.nodes parent).vChildren.find? fun node => (s.nodes node).vName = name

/-- Neither file system looks nodes up on demand. -/
def fsOpen : Fs → Option VfsCode
  | .tmpfs => some .openFail
  | .devfs => some .openFail

/-- The token loop of `vfs_path_to_node`; `fuel` bounds the number of tokens. -/
def walk (s : State) : Nat → Nat → List Char → Outcome Nat
  | 0, _, _ => .fault
  | fuel + 1, curVnode, path =>
      match strtokR path ['/'] with
      | (none, _) => .done curVnode
      | (some tok, path) =>
          if !sIsDir (s.nodes curVnode).stat.stMode then .err .invalidPath
          else
            match vfsGetChild s curVnode tok with
            | some child => walk s fuel child path
            | none =>
                match (s.nodes curVnode).vfsops with
                | none => .fault
                | some fs =>
                    match fsOpen fs with
                    | some _ => .err .nodeMissing
                    | none =>
                        match vfsGetChild s curVnode tok with
                        | some child => walk s fuel child path
                        | none => .fault

/-- A path of exactly `VNODE_PATH_MAX` characters passes the length check, but its
terminator does not fit into the copy. -/
def vfsPathToNode (s : State) (vBase : Nat) (path : List Char) : Outcome Nat :=
  if path.length > vnodePathMax then .err .invalidParameters
  else if path.length = vnodePathMax then .fault
  else if path = [] then (if vBase = vRoot then .done vRoot else .err .invalidPath)
  else if path.head? = some '/' then
    if vBase ≠ vRoot then .err .invalidPath
    else if !sIsDir (s.nodes vBase).stat.stMode then .err .invalidPath
    else walk s (path.length + 1) vBase path
  else
    match strtokR path ['/'] with
    | (none, _) => .fault
    | (some tok, path) =>
        if tok ≠ (s.nodes vBase).vName then .err .invalidPath
        else if !sIsDir (s.nodes vBase).stat.stMode then .err .invalidPath
        else walk s (path.length + 1) vBase path

def vfsAllocNode (parent : Option Nat) (vName : List Char) (vType : VType) : Vnode :=
  {vType := vType, vMp := none, vParent := parent, vChildren := [], vName := vName,
   vfsops := none, stat := ⟨vfsVtypeToStMode vType, 0, 0, 0⟩}

/-- `tmpfs_create` and `devfs_create` set up the same fields. -/
def fsCreate (_fs : Fs) (node : Vnode) : Vnode :=
  {node with stat := ⟨vfsVtypeToStMode node.vType, 4096, 1, 4096⟩}

/-- `tmpfs_mount` and `devfs_mount` differ in the operations only. -/
def fsMount (fs : Fs) (mp : Nat) (node : Vnode) : Vnode :=
  {node with vMp := some mp, vfsops := some fs}

/-- What stands before the last slash. Without a slash the count
`strlen(vfs_path) - strlen(dir_name) - 1` wraps to the largest `size_t` and the whole path
is copied. -/
def vParentPath (vfsPath dirName : List Char) : List Char :=
  if dirName.length < vfsPath.length then
    strncpy vfsPath (vfsPath.length - dirName.length - 1)
  else vfsPath

/-- The parent node of a path with leaf name `dirName`, whose path must fit a name buffer. -/
def createParent (s : State) (vBase : Nat) (vfsPath : List Char) :
    Option (List Char) → Outcome (Nat × List Char)
  | none => .err .invalidPath
  | some dirName =>
      if (vParentPath vfsPath dirName).length ≥ vnodeNameMax then .fault
      else
        match vfsPathToNode s vBase (vParentPath vfsPath dirName) with
        | .done vParent => .done (vParent, dirName)
        | .err code => .err code
        | .fault => .fault

/-- Where `vfs_create` puts the new node, and under which name. -/
def createTarget (s : State) (vBase : Nat) (vfsPath : List Char) : Outcome (Nat × List Char) :=
  createParent s vBase vfsPath (vGetLeafName vfsPath)

/-- Allocate the node, push it onto the parent's children and let the file system set it up. -/
def linkNode (s : State) (vParent : Nat) (dirName : List Char) (type : VType) : State :=
  let parent := s.nodes vParent
  let node := vfsAllocNode (some vParent) dirName type
  let node :=
    match parent.vfsops with
    | none => node
    | some fs => fsCreate fs {node with vMp := parent.vMp, vfsops := some fs}
  {s with
    nodes := Function.update
      (Function.update s.nodes vParent {parent with vChildren := parent.vChildren ++ [s.nodeCount]})
      s.nodeCount node
    nodeCount := s.nodeCount + 1}

def vfsCreate (s : State) (vBase : Nat) (vfsPath : List Char) (type : VType) : Outcome State :=
  (createTarget s vBase vfsPath).map fun target => linkNode s target.1 target.2 type

/-- `vfs_add_fs_node` with the registered file system `fs`, if the name is one. -/
def vfsAddFsNode (s : State) (root : Nat) (fs : Option Fs) : Outcome State :=
  match fs with
  | none => .err .nodeMissing
  | some fs =>
      if s.fsNodeCount < vfsMaxMounts then
        .done {s with
          nodes := Function.update s.nodes root {s.nodes root with vfsops := some fs}
          fsNodeCount := s.fsNodeCount + 1}
      else .err .fsErr

def vfsMount (s : State) (base : Nat) (path : List Char) (fs : Option Fs) : Outcome State :=
  match vfsPathToNode s base path with
  | .fault => .fault
  | .err _ => .err .invalidPath
  | .done mountpoint =>
      if !sIsDir (s.nodes mountpoint).stat.stMode then .err .invalidType
      else
        match vfsAddFsNode s mountpoint fs with
        | .done s =>
            match (s.nodes mountpoint).vfsops with
            | none => .fault
            | some ops =>
                .done {s with
                  nodes := Function.update s.nodes mountpoint
                    (fsMount ops mountpoint (s.nodes mountpoint))}
        | .err code => .err code
        | .fault => .fault

/-- The root directory alone. -/
def vfsInit : State :=
  {nodes := fun _ => vfsAllocNode none [] .vdir, nodeCount := 1, fsNodeCount := 0}

/-- A call with a base node of the tree. -/
inductive Op where
  | create (vBase : Nat) (path : List Char) (type : VType)
  | mount (base : Nat) (path : List Char) (fs : Option Fs)
  deriving Repr, DecidableEq

def Op.base : Op → Nat
  | .create vBase _ _ => vBase
  | .mount base _ _ => base

def Op.call (s : State) : Op → Outcome State
  | .create vBase path type => vfsCreate s vBase path type
  | .mount base path fs => vfsMount s base path fs

/-- An error leaves the state as it is, a fault has no next state. -/
def Outcome.next (s : State) : Outcome State → Option State
  | .done s' => some s'
  | .err _ => some s
  | .fault => none

/-- The state after a call with a base inside the tree. -/
def step (s : State) (op : Op) : Option State :=
  if op.base < s.nodeCount then (op.call s).next s else none

def run (s : State) : List Op → Option State
  | [] => some s
  | op :: ops => (step s op).bind fun s => run s ops

/-- The shape of the tree and its names. -/
structure TreeOk (s : State) : Prop where
  linked : ∀ i, i < s.nodeCount → i ≠ vRoot → ∃ p, (s.nodes i).vParent = some p ∧
    p < s.nodeCount ∧ (s.nodes p).vChildren.count i = 1
  only_directories : ∀ i, i < s.nodeCount → (s.nodes i).vChildren ≠ [] → (s.nodes i).vType = .vdir
  names : ∀ i, i < s.nodeCount → i ≠ vRoot → (s.nodes i).vName ≠ [] ∧
    (s.nodes i).vName.length < vnodeNameMax ∧ '/' ∉ (s.nodes i).vName
  distinct : ∀ i, i < s.nodeCount →
    ((s.nodes i).vChildren.map fun c => (s.nodes c).vName).Nodup

/-- The call names a new entry of a directory, or does not get as far as creating it. -/
def CreatesFreshEntry (s : State) (op : Op) : Prop :=
  match op with
  | .create vBase path _ =>
      ∀ vParent dirName, createTarget s vBase path = .done (vParent, dirName) →
        dirName ≠ [] ∧ (s.nodes vParent).vType = .vdir ∧ vfsGetChild s vParent dirName = none
  | .mount _ _ _ => True

section LeafName

variable {parent leaf : List Char}

theorem lastSlash_succ (path : List Char) (n : Nat) :
    lastSlash path (n + 1) = if path[n]? = some '/' then (n : Int) else lastSlash path n := by
  rw [lastSlash, List.range_succ, List.foldl_append]
  rfl

theorem lastSlash_le (path : List Char) (n : Nat) : -1 ≤ lastSlash path n ∧ lastSlash path n < n := by
  induction n with
  | zero => simp [lastSlash]
  | succ n ih =>
      rw [lastSlash_succ]
      split <;> omega

/-- No slash stands behind the last one. -/
theorem not_slash_of_lastSlash_lt {path : List Char} {n i : Nat} (hi : i < n)
    (hlast : lastSlash path n < i) : path[i]? ≠ some '/' := by
  induction n with
  | zero => omega
  | succ n ih =>
      rw [lastSlash_succ] at hlast
      by_cases hn : path[n]? = some '/'
      · rw [if_pos hn] at hlast
        omega
      · rw [if_neg hn] at hlast
        by_cases hin : i = n
        · exact hin ▸ hn
        · exact ih (by omega) hlast

/-- A leaf name is short and has no slash. -/
theorem vGetLeafName_spec {path : List Char} (h : vGetLeafName path = some leaf) :
    leaf.length < vnodeNameMax ∧ '/' ∉ leaf := by
  unfold vGetLeafName at h
  obtain ⟨pathLen, hlen⟩ : ∃ pathLen, toInt32 path.length = pathLen := ⟨_, rfl⟩
  simp only [hlen, vnodeNameMax, vnodePathMax] at h ⊢
  split at h
  · simp at h
  · rename_i hrange
    obtain ⟨hlo, hhi⟩ := lastSlash_le path pathLen.toNat
    split at h
    · simp at h
    · rename_i hname
      obtain rfl := Option.some.inj h
      refine ⟨?_, ?_⟩
      · simp only [strncpy, List.length_take]
        omega
      · intro hmem
        obtain ⟨k, hk⟩ := List.mem_iff_getElem?.mp hmem
        have hkbound : k < (pathLen - (lastSlash path pathLen.toNat + 1)).toNat := by
          by_contra hge
          rw [strncpy, List.getElem?_take, if_neg (by omega)] at hk
          exact absurd hk (by simp)
        rw [strncpy, List.getElem?_take, if_pos hkbound, List.getElem?_drop] at hk
        exact not_slash_of_lastSlash_lt (n := pathLen.toNat)
          (i := (lastSlash path pathLen.toNat + 1).toNat + k) (by omega) (by omega) hk

theorem lastSlash_append (hslash : '/' ∉ leaf) {k : Nat} (hk : k ≤ leaf.length) :
    lastSlash (parent ++ '/' :: leaf) (parent.length + 1 + k) = parent.length := by
  induction k with
  | zero =>
      rw [Nat.add_zero, lastSlash_succ, if_pos]
      simp
  | succ k ih =>
      have hget : (parent ++ '/' :: leaf)[parent.length + 1 + k]? = leaf[k]? := by
        rw [List.getElem?_append_right (by omega),
          show parent.length + 1 + k - parent.length = k + 1 by omega, List.getElem?_cons_succ]
      rw [← Nat.add_assoc, lastSlash_succ, hget, if_neg, ih (by omega)]
      exact fun hsome => hslash (List.mem_of_getElem? hsome)

/-- The leaf name is what stands behind the last slash, unless it is too long. -/
theorem vGetLeafName_append (hslash : '/' ∉ leaf)
    (hlen : (parent ++ '/' :: leaf).length ≤ vnodePathMax) :
    vGetLeafName (parent ++ '/' :: leaf) =
      if leaf.length < vnodeNameMax then some leaf else none := by
  have hsize : (parent ++ '/' :: leaf).length = parent.length + 1 + leaf.length := by
    rw [List.length_append, List.length_cons]
    omega
  simp only [vnodePathMax] at hlen
  have hint : toInt32 (parent ++ '/' :: leaf).length =
      ((parent.length + 1 + leaf.length : Nat) : Int) := by
    rw [hsize, toInt32]
    omega
  have hlast : lastSlash (parent ++ '/' :: leaf) (parent.length + 1 + leaf.length) =
      parent.length := lastSlash_append hslash (Nat.le_refl _)
  have hpath : (vnodePathMax : Int) = 512 := rfl
  have hname : (vnodeNameMax : Int) = 64 := rfl
  simp only [vGetLeafName, hint, Int.toNat_natCast, hlast]
  rw [if_neg (by omega)]
  by_cases hshort : leaf.length < vnodeNameMax
  · have hdrop : (parent ++ '/' :: leaf).drop ((parent.length : Int) + 1).toNat = leaf := by
      rw [show ((parent.length : Int) + 1).toNat = parent.length + 1 by omega, ← List.drop_drop,
        List.drop_left]
      rfl
    rw [if_pos hshort, if_neg (by omega), hdrop, show (((parent.length + 1 + leaf.length : Nat) :
      Int) - ((parent.length : Int) + 1)).toNat = leaf.length by omega, strncpy, List.take_length]
  · rw [if_neg hshort, if_pos (by omega)]

theorem vParentPath_append (parent leaf : List Char) :
    vParentPath (parent ++ '/' :: leaf) leaf = parent := by
  have hsize : (parent ++ '/' :: leaf).length = parent.length + 1 + leaf.length := by
    rw [List.length_append, List.length_cons]
    omega
  rw [vParentPath, if_pos (by omega), strncpy, hsize,
    show parent.length + 1 + leaf.length - leaf.length - 1 = parent.length by omega,
    List.take_left]

end LeafName

section Tree

variable {s s' : State} {op : Op} {vBase vParent : Nat} {path dirName : List Char} {type : VType}

/-- Children are nodes of the tree. -/
structure ChildrenOk (s : State) : Prop where
  root : 0 < s.nodeCount
  children : ∀ p, p < s.nodeCount → ∀ c ∈ (s.nodes p).vChildren, c < s.nodeCount

theorem mem_of_vfsGetChild {name : List Char} {c : Nat} (h : vfsGetChild s vParent name = some c) :
    c ∈ (s.nodes vParent).vChildren ∧ (s.nodes c).vName = name :=
  ⟨List.mem_of_find?_eq_some h, by simpa using List.find?_some h⟩

theorem walk_mem (hs : ChildrenOk s) {fuel cur node : Nat} (hcur : cur < s.nodeCount)
    (h : walk s fuel cur path = .done node) : node < s.nodeCount := by
  induction fuel generalizing cur path with
  | zero => simp [walk] at h
  | succ fuel ih =>
      rw [walk] at h
      split at h
      · rw [Outcome.done.injEq] at h
        exact h ▸ hcur
      · split at h
        · simp at h
        · split at h
          · rename_i hchild
            exact ih (hs.children cur hcur _ (mem_of_vfsGetChild hchild).1) h
          · split at h
            · simp at h
            · split at h <;> simp at h

theorem vfsPathToNode_mem (hs : ChildrenOk s) {node : Nat} (hbase : vBase < s.nodeCount)
    (h : vfsPathToNode s vBase path = .done node) : node < s.nodeCount := by
  unfold vfsPathToNode at h
  split at h
  · simp at h
  split at h
  · simp at h
  split at h
  · split at h
    · rw [Outcome.done.injEq] at h
      exact h ▸ hs.root
    · simp at h
  split at h
  · split at h
    · simp at h
    split at h
    · simp at h
    · exact walk_mem hs hbase h
  split at h
  · simp at h
  split at h
  · simp at h
  split at h
  · simp at h
  · exact walk_mem hs hbase h

theorem createParent_spec (hs : ChildrenOk s) (hbase : vBase < s.nodeCount) {leaf : Option (List Char)}
    (h : createParent s vBase path leaf = .done (vParent, dirName)) :
    vParent < s.nodeCount ∧ leaf = some dirName := by
  cases leaf with
  | none => simp [createParent] at h
  | some leaf =>
      rw [createParent] at h
      split at h
      · simp at h
      · split at h
        · rename_i hnode
          simp only [Outcome.done.injEq, Prod.mk.injEq] at h
          obtain ⟨rfl, rfl⟩ := h
          exact ⟨vfsPathToNode_mem hs hbase hnode, rfl⟩
        · simp at h
        · simp at h

theorem createTarget_spec (hs : ChildrenOk s) (hbase : vBase < s.nodeCount)
    (h : createTarget s vBase path = .done (vParent, dirName)) :
    vParent < s.nodeCount ∧ dirName.length < vnodeNameMax ∧ '/' ∉ dirName := by
  obtain ⟨hparent, hleaf⟩ := createParent_spec hs hbase h
  exact ⟨hparent, vGetLeafName_spec hleaf⟩

/-- The new node. -/
theorem linkNode_new (s : State) (vParent : Nat) (dirName : List Char) (type : VType) :
    ((linkNode s vParent dirName type).nodes s.nodeCount).vName = dirName ∧
      ((linkNode s vParent dirName type).nodes s.nodeCount).vParent = some vParent ∧
      ((linkNode s vParent dirName type).nodes s.nodeCount).vChildren = [] := by
  unfold linkNode
  simp only [Function.update_self]
  split <;> exact ⟨rfl, rfl, rfl⟩

/-- The nodes that were there keep everything but the parent's children. -/
theorem linkNode_old {i : Nat} (hi : i < s.nodeCount) :
    ((linkNode s vParent dirName type).nodes i).vName = (s.nodes i).vName ∧
      ((linkNode s vParent dirName type).nodes i).vParent = (s.nodes i).vParent ∧
      ((linkNode s vParent dirName type).nodes i).vType = (s.nodes i).vType ∧
      ((linkNode s vParent dirName type).nodes i).vChildren =
        if i = vParent then (s.nodes i).vChildren ++ [s.nodeCount] else (s.nodes i).vChildren := by
  have hne : i ≠ s.nodeCount := Nat.ne_of_lt hi
  by_cases hip : i = vParent
  · subst hip
    simp [linkNode, hne]
  · simp [linkNode, hne, hip]

theorem childrenOk_linkNode (hs : ChildrenOk s) :
    ChildrenOk (linkNode s vParent dirName type) := by
  refine ⟨Nat.succ_pos _, fun p hp c hc => ?_⟩
  have hcount : (linkNode s vParent dirName type).nodeCount = s.nodeCount + 1 := rfl
  rw [hcount] at hp ⊢
  by_cases hnew : p = s.nodeCount
  · subst hnew
    rw [(linkNode_new s vParent dirName type).2.2] at hc
    exact absurd hc (by simp)
  · have hlt : p < s.nodeCount := by omega
    rw [(linkNode_old hlt).2.2.2] at hc
    split at hc
    · rcases List.mem_append.mp hc with hc | hc
      · exact Nat.lt_succ_of_lt (hs.children p hlt c hc)
      · rw [List.mem_singleton.mp hc]
        exact Nat.lt_succ_self _
    · exact Nat.lt_succ_of_lt (hs.children p hlt c hc)

/-- Linking a new entry keeps the tree exactly if it is a fresh name in a directory. -/
theorem treeOk_linkNode_iff (type : VType) (hs : ChildrenOk s) (htree : TreeOk s)
    (hparent : vParent < s.nodeCount) (hname : dirName.length < vnodeNameMax ∧ '/' ∉ dirName) :
    TreeOk (linkNode s vParent dirName type) ↔
      dirName ≠ [] ∧ (s.nodes vParent).vType = .vdir ∧ vfsGetChild s vParent dirName = none := by
  have hnew := linkNode_new s vParent dirName type
  have hchildren : ((linkNode s vParent dirName type).nodes vParent).vChildren =
      (s.nodes vParent).vChildren ++ [s.nodeCount] := by
    rw [(linkNode_old hparent).2.2.2, if_pos rfl]
  have hnames : ∀ p, p < s.nodeCount →
      ((s.nodes p).vChildren.map fun c => ((linkNode s vParent dirName type).nodes c).vName) =
        (s.nodes p).vChildren.map fun c => (s.nodes c).vName := fun p hp =>
    List.map_congr_left fun c hc => (linkNode_old (hs.children p hp c hc)).1
  have hfresh : ∀ p, p < s.nodeCount → s.nodeCount ∉ (s.nodes p).vChildren := fun p hp hmem =>
    absurd (hs.children p hp _ hmem) (Nat.lt_irrefl _)
  constructor
  · intro htree'
    refine ⟨?_, ?_, ?_⟩
    · have hname' := (htree'.names s.nodeCount (Nat.lt_succ_self _) (Nat.ne_of_gt hs.root)).1
      rwa [hnew.1] at hname'
    · have hdir := htree'.only_directories vParent (Nat.lt_succ_of_lt hparent)
        (by rw [hchildren]; simp)
      rwa [(linkNode_old hparent).2.2.1] at hdir
    · by_contra hsome
      obtain ⟨c, hc⟩ := Option.ne_none_iff_exists'.mp hsome
      obtain ⟨hmem, heq⟩ := mem_of_vfsGetChild hc
      have hnodup := htree'.distinct vParent (Nat.lt_succ_of_lt hparent)
      rw [hchildren, List.map_append, hnames vParent hparent, List.map_singleton, hnew.1] at hnodup
      have hdisj := (List.nodup_append.mp hnodup).2.2 _ (List.mem_map_of_mem hmem) dirName (by simp)
      exact hdisj heq
  · rintro ⟨hne, hdir, hnone⟩
    refine ⟨fun i hi hroot => ?_, fun i hi hkids => ?_, fun i hi hroot => ?_, fun i hi => ?_⟩
    all_goals
      have hcase : i = s.nodeCount ∨ i < s.nodeCount := by
        have hcount : (linkNode s vParent dirName type).nodeCount = s.nodeCount + 1 := rfl
        omega
    · rcases hcase with rfl | hlt
      · refine ⟨vParent, hnew.2.1, Nat.lt_succ_of_lt hparent, ?_⟩
        rw [hchildren, List.count_append, List.count_eq_zero_of_not_mem (hfresh vParent hparent),
          List.count_singleton_self]
      · obtain ⟨p, hp, hplt, hcount⟩ := htree.linked i hlt hroot
        refine ⟨p, by rw [(linkNode_old hlt).2.1, hp], Nat.lt_succ_of_lt hplt, ?_⟩
        have hine : i ≠ s.nodeCount := Nat.ne_of_lt hlt
        rw [(linkNode_old hplt).2.2.2]
        split
        · rw [List.count_append, hcount, List.count_eq_zero_of_not_mem (by simp [hine])]
        · exact hcount
    · rcases hcase with rfl | hlt
      · exact absurd hnew.2.2 hkids
      · rw [(linkNode_old hlt).2.2.1]
        by_cases hip : i = vParent
        · exact hip ▸ hdir
        · rw [(linkNode_old hlt).2.2.2, if_neg hip] at hkids
          exact htree.only_directories i hlt hkids
    · rcases hcase with rfl | hlt
      · rw [hnew.1]
        exact ⟨hne, hname⟩
      · rw [(linkNode_old hlt).1]
        exact htree.names i hlt hroot
    · rcases hcase with rfl | hlt
      · rw [hnew.2.2]
        exact List.nodup_nil
      · rw [(linkNode_old hlt).2.2.2]
        split
        · rename_i hip
          subst hip
          rw [List.map_append, hnames i hlt, List.map_singleton, hnew.1]
          refine List.nodup_append.mpr ⟨htree.distinct i hlt, List.nodup_singleton _, ?_⟩
          intro name hmem name' hmem' heq
          obtain ⟨c, hc, rfl⟩ := List.mem_map.mp hmem
          rw [List.mem_singleton] at hmem'
          have hall := List.find?_eq_none.mp hnone c hc
          exact hall (by simp [heq, hmem'])
        · rw [hnames i hlt]
          exact htree.distinct i hlt

/-- Two states that agree on the parts of the tree. -/
structure SameTree (s s' : State) : Prop where
  count : s'.nodeCount = s.nodeCount
  vType : ∀ i, (s'.nodes i).vType = (s.nodes i).vType
  vParent : ∀ i, (s'.nodes i).vParent = (s.nodes i).vParent
  vChildren : ∀ i, (s'.nodes i).vChildren = (s.nodes i).vChildren
  vName : ∀ i, (s'.nodes i).vName = (s.nodes i).vName

theorem SameTree.childrenOk (h : SameTree s s') (hs : ChildrenOk s) : ChildrenOk s' := by
  refine ⟨by rw [h.count]; exact hs.root, fun p hp c hc => ?_⟩
  rw [h.count] at hp ⊢
  rw [h.vChildren] at hc
  exact hs.children p hp c hc

theorem SameTree.treeOk (h : SameTree s s') (htree : TreeOk s) : TreeOk s' where
  linked i hi hroot := by
    obtain ⟨p, hp, hlt, hcount⟩ := htree.linked i (h.count ▸ hi) hroot
    exact ⟨p, by rw [h.vParent, hp], by rw [h.count]; exact hlt, by rw [h.vChildren, hcount]⟩
  only_directories i hi hkids := by
    rw [h.vChildren] at hkids
    rw [h.vType]
    exact htree.only_directories i (h.count ▸ hi) hkids
  names i hi hroot := by
    rw [h.vName]
    exact htree.names i (h.count ▸ hi) hroot
  distinct i hi := by
    rw [h.vChildren, List.map_congr_left fun c _ => h.vName c]
    exact htree.distinct i (h.count ▸ hi)

/-- Mounting touches the operations of one node only. -/
theorem sameTree_vfsMount {base : Nat} {fs : Option Fs} (h : vfsMount s base path fs = .done s') :
    SameTree s s' := by
  unfold vfsMount at h
  generalize vfsPathToNode s base path = target at h
  cases target with
  | fault => simp at h
  | err code => simp at h
  | done mountpoint =>
      simp only at h
      split at h
      · simp at h
      · cases fs with
        | none => simp [vfsAddFsNode] at h
        | some fs =>
            simp only [vfsAddFsNode] at h
            by_cases hroom : s.fsNodeCount < vfsMaxMounts
            · simp only [hroom, if_true, Function.update_self, Outcome.done.injEq] at h
              subst h
              refine ⟨rfl, ?_, ?_, ?_, ?_⟩ <;>
              · intro i
                by_cases hi : i = mountpoint
                · subst hi
                  simp [fsMount]
                · simp [hi]
            · simp [hroom] at h

theorem next_eq_some {o : Outcome State} (h : o.next s = some s') : o = .done s' ∨ s' = s := by
  cases o with
  | done t => exact Or.inl (congrArg Outcome.done (Option.some.inj h))
  | err code => exact Or.inr (Option.some.inj h).symm
  | fault => simp [Outcome.next] at h

/-- Every call that returns keeps the children inside the tree. -/
theorem childrenOk_step (hs : ChildrenOk s) (h : step s op = some s') : ChildrenOk s' := by
  unfold step at h
  split at h
  · rcases next_eq_some h with hcall | rfl
    · cases op with
      | create vBase path type =>
          rw [Op.call, vfsCreate, Outcome.map_eq_done] at hcall
          obtain ⟨target, -, rfl⟩ := hcall
          exact childrenOk_linkNode hs
      | mount base path fs => exact (sameTree_vfsMount hcall).childrenOk hs
    · exact hs
  · simp at h

/-- A call that returns keeps the tree exactly if it creates a fresh entry of a directory. -/
theorem treeOk_step_iff (hs : ChildrenOk s) (htree : TreeOk s) (hbase : op.base < s.nodeCount) :
    (∀ s', step s op = some s' → TreeOk s') ↔ CreatesFreshEntry s op := by
  rw [step, if_pos hbase]
  cases op with
  | mount base path fs =>
      refine ⟨fun _ => trivial, fun _ s' h => ?_⟩
      rcases next_eq_some h with hcall | rfl
      · exact (sameTree_vfsMount hcall).treeOk htree
      · exact htree
  | create vBase path type =>
      constructor
      · intro hkeep vParent dirName htarget
        have hcall : (Op.create vBase path type).call s =
            .done (linkNode s vParent dirName type) := by
          rw [Op.call, vfsCreate, Outcome.map_eq_done]
          exact ⟨(vParent, dirName), htarget, rfl⟩
        obtain ⟨hparent, hname⟩ := createTarget_spec hs hbase htarget
        refine (treeOk_linkNode_iff type hs htree hparent hname).mp (hkeep _ ?_)
        rw [hcall]
        rfl
      · intro hfresh s' h
        rcases next_eq_some h with hcall | rfl
        · rw [Op.call, vfsCreate, Outcome.map_eq_done] at hcall
          obtain ⟨⟨vParent, dirName⟩, htarget, rfl⟩ := hcall
          obtain ⟨hparent, hname⟩ := createTarget_spec hs hbase htarget
          exact (treeOk_linkNode_iff type hs htree hparent hname).mpr (hfresh vParent dirName htarget)
        · exact htree

theorem childrenOk_vfsInit : ChildrenOk vfsInit :=
  ⟨Nat.one_pos, fun p _ c hc => absurd hc (by simp [vfsInit, vfsAllocNode])⟩

theorem treeOk_vfsInit : TreeOk vfsInit where
  linked _ hi hroot := absurd (Nat.lt_one_iff.mp hi) hroot
  only_directories _ _ _ := rfl
  names _ hi hroot := absurd (Nat.lt_one_iff.mp hi) hroot
  distinct _ _ := List.nodup_nil

theorem run_append (s : State) (ops ops' : List Op) :
    run s (ops ++ ops') = (run s ops).bind fun s => run s ops' := by
  induction ops generalizing s with
  | nil => rfl
  | cons op ops ih =>
      simp only [List.cons_append, run]
      cases step s op with
      | none => rfl
      | some t => exact ih t

theorem childrenOk_run {s₀ : State} (h₀ : ChildrenOk s₀) {ops : List Op} (h : run s₀ ops = some s) :
    ChildrenOk s := by
  induction ops generalizing s₀ with
  | nil => exact Option.some.inj h ▸ h₀
  | cons op ops ih =>
      obtain ⟨t, ht, hrest⟩ := Option.bind_eq_some_iff.mp h
      exact ih (childrenOk_step h₀ ht) hrest

/-- Along every run from the bare root, the tree keeps its shape and names in every state
exactly if each `vfs_create` that gets as far as linking a node has a leaf name that is not
empty, a parent that is a directory, and no child of that name there. -/
theorem vfs_tree_iff (ops : List Op) :
    (∀ pre s, pre <+: ops → run vfsInit pre = some s → TreeOk s) ↔
    ∀ pre op s, pre ++ [op] <+: ops → run vfsInit pre = some s → op.base < s.nodeCount →
      CreatesFreshEntry s op := by
  constructor
  · intro htree pre op s hpre hrun hbase
    have hs := childrenOk_run childrenOk_vfsInit hrun
    have hbefore := htree pre s ((List.prefix_append pre [op]).trans hpre) hrun
    refine (treeOk_step_iff hs hbefore hbase).mp fun s' hstep => ?_
    refine htree (pre ++ [op]) s' hpre ?_
    rw [run_append, hrun]
    simp [run, hstep]
  · intro hfresh pre
    -- The last call of the prefix is the step to check.
    induction pre using List.reverseRecOn with
    | nil =>
        intro s _ hrun
        exact Option.some.inj hrun ▸ treeOk_vfsInit
    | append_singleton pre op ih =>
        intro s' hpre hrun
        rw [run_append] at hrun
        obtain ⟨s, hs, hlast⟩ := Option.bind_eq_some_iff.mp hrun
        have hstep : step s op = some s' := by simpa [run] using hlast
        have hbase : op.base < s.nodeCount := by
          by_contra hout
          simp [step, hout] at hstep
        have hbefore := ih s ((List.prefix_append pre [op]).trans hpre) hs
        exact (treeOk_step_iff (childrenOk_run childrenOk_vfsInit hs) hbefore hbase).mpr
          (hfresh pre op s hpre hs hbase) s' hstep

/-- Creating `/a` twice leaves the root with two children of one name. -/
theorem vfs_create_twice :
    ¬ ∀ pre s, pre <+: [Op.create 0 ['/', 'a'] .vreg, Op.create 0 ['/', 'a'] .vreg] →
      run vfsInit pre = some s → TreeOk s := by
  intro htree
  have hrun : run vfsInit [Op.create 0 ['/', 'a'] .vreg, Op.create 0 ['/', 'a'] .vreg] =
      some (linkNode (linkNode vfsInit 0 ['a'] .vreg) 0 ['a'] .vreg) := rfl
  have hnodup := (htree _ _ (List.prefix_refl _) hrun).distinct 0 (by decide)
  exact absurd hnodup (by decide)

end Tree

section References

/-- `v_ref_count` of every vnode after `vfs_open` found `vnode`. -/
def vfsOpenRef (vRefCount : Nat → UInt64) (vnode : Nat) : Nat → UInt64 :=
  Function.update vRefCount vnode (vRefCount vnode + 1)

/-- The counts after `vfs_close`. With the last reference gone the file system is told, through
the operations of the vnode if it has any. -/
def vfsCloseRef (mounted : Nat → Bool) (vRefCount : Nat → UInt64) (vnode : Nat) :
    Option (Nat → UInt64) :=
  let vRefCount := Function.update vRefCount vnode (vRefCount vnode - 1)
  if vRefCount vnode = 0 ∧ mounted vnode = false then none else some vRefCount

variable {mounted : Nat → Bool} {vRefCount : Nat → UInt64} {vnode : Nat}

theorem vfsOpenRef_ne : vfsOpenRef vRefCount vnode ≠ vRefCount := by
  intro heq
  have hcount := congrFun heq vnode
  rw [vfsOpenRef, Function.update_self] at hcount
  simp at hcount

/-- Closing what was just opened. -/
theorem vfsCloseRef_vfsOpenRef :
    vfsCloseRef mounted (vfsOpenRef vRefCount vnode) vnode =
      if vRefCount vnode = 0 ∧ mounted vnode = false then none else some vRefCount := by
  simp [vfsCloseRef, vfsOpenRef]

end References

end Tellurium.Vfs
