import Tellurium.Fs.Vfs

/-!
Node creation when memory runs out (`kernel/fs/vfs.c`, `klib/vector.c`, `fs/tmpfs.c`). Here
every allocation of `vfs_create` may fail. A node keeps what the failures leave behind: a name
pointer, a children vector with its capacity and its array, and the block of its file system,
each of which may be null. Memory from `kmalloc` is zeroed, so the vector of a node that is no
directory is empty and has no array.
-/

namespace Tellurium.VfsAlloc

open Tellurium.Flibc
open Tellurium.Vfs (VType VfsCode Fs Stat Vnode State Outcome vRoot vnodeNameMax vnodePathMax sIsDir
  vfsVtypeToStMode vGetLeafName vParentPath)

def vectorInitSize : Nat := 8

/-- A vector of vnodes: its capacity and the slots in use, without an array if its allocation
failed or was never made. -/
structure Vec where
  maxElements : Nat
  elements : Option (List Nat)
  deriving Repr, DecidableEq

def Vec.curElements (v : Vec) : Nat := (v.elements.getD []).length

structure Node where
  vType : VType
  vMp : Option Nat
  vParent : Option Nat
  vChildren : Vec
  vName : Option (List Char)
  vfsops : Option Fs
  stat : Stat
  fsData : Bool
  deriving Repr, DecidableEq

structure Tree where
  nodes : Nat → Node
  nodeCount : Nat
  fsNodeCount : Nat

/-- Which of the allocations of a call succeed: the node, the array of its children, its name,
the larger array of the parent's children, and the block of the file system. -/
structure Allocs where
  node : Bool
  elements : Bool
  name : Bool
  grow : Bool
  data : Bool
  deriving Repr, DecidableEq

def everyAlloc : Allocs := ⟨true, true, true, true, true⟩

inductive CreateCode where
  | success
  | noMem
  | failed (code : VfsCode)
  deriving Repr, DecidableEq

/-- A node as the model without failures has it, an empty name in place of a null one. -/
def Node.view (n : Node) : Vnode :=
  {vType := n.vType, vMp := n.vMp, vParent := n.vParent,
   vChildren := n.vChildren.elements.getD [], vName := n.vName.getD [], vfsops := n.vfsops,
   stat := n.stat}

def Tree.view (t : Tree) : State :=
  {nodes := fun i => (t.nodes i).view, nodeCount := t.nodeCount, fsNodeCount := t.fsNodeCount}

def vectorAlloc (ok : Bool) : Vec := ⟨vectorInitSize, if ok then some [] else none⟩

/-- `krealloc` returns null for a null pointer, and the vector then stays as it is. -/
def vectorResize (ok : Bool) (v : Vec) (size : Nat) : Vec :=
  match v.elements with
  | none => v
  | some _ => if ok then {v with maxElements := size} else v

/-- The store behind the last element. There is no result if it goes through a null pointer
or past the array. -/
def vectorPushBack (ok : Bool) (v : Vec) (val : Nat) : Option Vec :=
  let v := if v.curElements = v.maxElements then vectorResize ok v (v.maxElements * 2) else v
  match v.elements with
  | none => none
  | some l => if l.length < v.maxElements then some {v with elements := some (l ++ [val])} else none

/-- The children are compared in order, and `__strlen` of a null name is a fault. -/
def vfsGetChild (t : Tree) (name : List Char) : List Nat → Outcome (Option Nat)
  | [] => .done none
  | node :: rest =>
      match (t.nodes node).vName with
      | none => .fault
      | some vName => if vName = name then .done (some node) else vfsGetChild t name rest

/-- The token loop of `vfs_path_to_node`. The operation `open` of both file systems fails, and
without operations the call goes through a null pointer. -/
def walk (t : Tree) : Nat → Nat → List Char → Outcome Nat
  | 0, _, _ => .fault
  | fuel + 1, curVnode, path =>
      match strtokR path ['/'] with
      | (none, _) => .done curVnode
      | (some tok, path) =>
          if !sIsDir (t.nodes curVnode).stat.stMode then .err .invalidPath
          else
            match vfsGetChild t tok ((t.nodes curVnode).vChildren.elements.getD []) with
            | .fault => .fault
            | .err code => .err code
            | .done (some child) => walk t fuel child path
            | .done none =>
                match (t.nodes curVnode).vfsops with
                | none => .fault
                | some _ => .err .nodeMissing

def vfsPathToNode (t : Tree) (vBase : Nat) (path : List Char) : Outcome Nat :=
  if path.length > vnodePathMax then .err .invalidParameters
  else if path.length = vnodePathMax then .fault
  else if path = [] then (if vBase = vRoot then .done vRoot else .err .invalidPath)
  else if path.head? = some '/' then
    if vBase ≠ vRoot then .err .invalidPath
    else if !sIsDir (t.nodes vBase).stat.stMode then .err .invalidPath
    else walk t (path.length + 1) vBase path
  else
    match strtokR path ['/'], (t.nodes vBase).vName with
    | (some tok, path), some vName =>
        if tok ≠ vName then .err .invalidPath
        else if !sIsDir (t.nodes vBase).stat.stMode then .err .invalidPath
        else walk t (path.length + 1) vBase path
    | _, _ => .fault

def createParent (t : Tree) (vBase : Nat) (vfsPath : List Char) :
    Option (List Char) → Outcome (Nat × List Char)
  | none => .err .invalidPath
  | some dirName =>
      if (vParentPath vfsPath dirName).length ≥ vnodeNameMax then .fault
      else
        (vfsPathToNode t vBase (vParentPath vfsPath dirName)).map fun vParent => (vParent, dirName)

/-- The directory `vfs_create` looks up, and the name of the new node. -/
def createTarget (t : Tree) (vBase : Nat) (vfsPath : List Char) : Outcome (Nat × List Char) :=
  createParent t vBase vfsPath (vGetLeafName vfsPath)

/-- `__strncpy` to a null pointer stores nothing, so a name that could not be allocated stays
null. -/
def vfsAllocNode (a : Allocs) (parent : Option Nat) (vName : List Char) (vType : VType) :
    Option Node :=
  if a.node then
    some
      {vType := vType, vMp := none, vParent := parent,
       vChildren := if vType = .vdir then vectorAlloc a.elements else ⟨0, none⟩,
       vName := if a.name then some vName else none, vfsops := none,
       stat := ⟨vfsVtypeToStMode vType, 0, 0, 0⟩, fsData := false}
  else none

/-- The root directory alone, whose node must be there. -/
def vfsInit (a : Allocs) : Option Tree :=
  (vfsAllocNode a none [] .vdir).map fun root =>
    {nodes := fun _ => root, nodeCount := 1, fsNodeCount := 0}

/-- `tmpfs_create` and `devfs_create`: nothing is set up without a block. The result of the
call is not looked at. -/
def fsCreate (ok : Bool) (node : Node) : Node :=
  if ok then {node with fsData := true, stat := ⟨vfsVtypeToStMode node.vType, 4096, 1, 4096⟩}
  else node

/-- The part of `vfs_create` behind the lookup of the parent. -/
def linkNew (a : Allocs) (t : Tree) (vParent : Nat) (dirName : List Char) (type : VType) :
    Option (CreateCode × Tree) :=
  match vfsAllocNode a (some vParent) dirName type with
  | none => some (.noMem, t)
  | some node =>
      let parent := t.nodes vParent
      match vectorPushBack a.grow parent.vChildren t.nodeCount with
      | none => none
      | some vChildren =>
          let node :=
            match parent.vfsops with
            | none => node
            | some fs => fsCreate a.data {node with vMp := parent.vMp, vfsops := some fs}
          some (.success,
            {t with
              nodes := Function.update
                (Function.update t.nodes vParent {parent with vChildren := vChildren})
                t.nodeCount node
              nodeCount := t.nodeCount + 1})

/-- What `vfs_create` makes of the result of the lookup. -/
def createAt (a : Allocs) (t : Tree) (type : VType) :
    Outcome (Nat × List Char) → Option (CreateCode × Tree)
  | .fault => none
  | .err code => some (.failed code, t)
  | .done (vParent, dirName) => linkNew a t vParent dirName type

/-- The code `vfs_create` returns and the tree it leaves. A null base or path makes
`ASSERT_RET` return 0, which is `VFS_SUCCESS`. -/
def vfsCreate (a : Allocs) (t : Tree) (vBase : Option Nat) (vfsPath : Option (List Char))
    (type : VType) : Option (CreateCode × Tree) :=
  match vBase, vfsPath with
  | some vBase, some vfsPath => createAt a t type (createTarget t vBase vfsPath)
  | _, _ => some (.success, t)

/-- The shape of a tree, which creation keeps whatever fails: names may be null and
directories may be without an array. -/
structure Formed (t : Tree) : Prop where
  root : 0 < t.nodeCount
  directories : ∀ i < t.nodeCount, (t.nodes i).vType = .vdir →
    ∀ l, (t.nodes i).vChildren.elements = some l →
      l.length ≤ (t.nodes i).vChildren.maxElements ∧ 0 < (t.nodes i).vChildren.maxElements
  others : ∀ i < t.nodeCount, (t.nodes i).vType ≠ .vdir → (t.nodes i).vChildren = ⟨0, none⟩
  children : ∀ i < t.nodeCount, ∀ c ∈ (t.nodes i).vChildren.elements.getD [], c < t.nodeCount

/-- The new node `i` is complete and linked into a directory of the tree before. -/
structure Complete (t t' : Tree) (i : Nat) : Prop where
  counted : i < t'.nodeCount
  fresh : t.nodeCount ≤ i
  name : (t'.nodes i).vName ≠ none
  children : (t'.nodes i).vType = .vdir → (t'.nodes i).vChildren.elements ≠ none
  driver : (t'.nodes i).vfsops ≠ none → (t'.nodes i).fsData = true
  linked : ∃ p < t.nodeCount, (t.nodes p).vType = .vdir ∧ (t'.nodes i).vParent = some p ∧
    i ∈ (t'.nodes p).vChildren.elements.getD []

/-- What a call owes its caller: success with a complete node, or an error and the tree as it
was. -/
def Reported (t : Tree) : Option (CreateCode × Tree) → Prop
  | some (.success, t') => ∃ i, Complete t t' i
  | some (_, t') => t' = t
  | none => False

/-- The parent is a directory with an array, and the allocations that a node of this type
needs there beside its own succeed. -/
def RestSucceeds (a : Allocs) (t : Tree) (vParent : Nat) (type : VType) : Prop :=
  (t.nodes vParent).vType = .vdir ∧ (t.nodes vParent).vChildren.elements ≠ none ∧
    a.name = true ∧ (type = .vdir → a.elements = true) ∧
    ((t.nodes vParent).vChildren.curElements = (t.nodes vParent).vChildren.maxElements →
      a.grow = true) ∧
    ((t.nodes vParent).vfsops ≠ none → a.data = true)

section Push

variable {ok : Bool} {v : Vec} {l : List Nat} {val : Nat}

/-- Pushing onto a vector with an array works exactly if there is room or it can grow. -/
theorem vectorPushBack_iff (hl : v.elements = some l) (hle : l.length ≤ v.maxElements)
    (hpos : 0 < v.maxElements) :
    (∃ v', vectorPushBack ok v val = some v') ↔ (v.curElements = v.maxElements → ok = true) := by
  have hcur : v.curElements = l.length := by rw [Vec.curElements, hl]; rfl
  rw [vectorPushBack]
  by_cases hfull : v.curElements = v.maxElements
  · rw [if_pos hfull, vectorResize, hl]
    cases ok with
    | true =>
        have hlt : l.length < v.maxElements * 2 := by omega
        simp [hlt]
    | false =>
        have hge : ¬ l.length < v.maxElements := by omega
        simp [hl, hge, hfull]
  · rw [if_neg hfull, hl]
    have hlt : l.length < v.maxElements := by omega
    simp [hlt, hfull]

theorem vectorResize_elements (size : Nat) : (vectorResize ok v size).elements = v.elements := by
  rw [vectorResize]
  cases hnull : v.elements with
  | none => exact hnull
  | some l =>
      cases ok with
      | true => rfl
      | false => exact hnull

theorem elements_of_push {v' : Vec} (hl : v.elements = some l)
    (h : vectorPushBack ok v val = some v') :
    v'.elements = some (l ++ [val]) ∧ l.length < v'.maxElements := by
  rw [vectorPushBack] at h
  obtain ⟨w, hw⟩ : ∃ w, (if v.curElements = v.maxElements then
      vectorResize ok v (v.maxElements * 2) else v) = w := ⟨_, rfl⟩
  have hkeep : w.elements = some l := by
    rw [← hw]
    split_ifs
    · rw [vectorResize_elements, hl]
    · exact hl
  simp only [hw, hkeep] at h
  by_cases hroom : l.length < w.maxElements
  · rw [if_pos hroom] at h
    rw [← Option.some.inj h]
    exact ⟨rfl, hroom⟩
  · rw [if_neg hroom] at h
    cases h

/-- A vector without an array cannot be grown, since `krealloc` gets a null pointer, and the
store goes through it. -/
theorem vectorPushBack_null (hnull : v.elements = none) : vectorPushBack ok v val = none := by
  have hkeep : vectorResize ok v (v.maxElements * 2) = v := by rw [vectorResize, hnull]
  rw [vectorPushBack, hkeep, ite_self, hnull]

end Push

section Link

variable {a : Allocs} {t : Tree} {vParent : Nat} {dirName : List Char} {type : VType}

/-- The new node once it is linked. -/
def newNode (a : Allocs) (t : Tree) (vParent : Nat) (dirName : List Char) (type : VType) : Node :=
  let node : Node :=
    {vType := type, vMp := none, vParent := some vParent,
     vChildren := if type = .vdir then vectorAlloc a.elements else ⟨0, none⟩,
     vName := if a.name then some dirName else none, vfsops := none,
     stat := ⟨vfsVtypeToStMode type, 0, 0, 0⟩, fsData := false}
  match (t.nodes vParent).vfsops with
  | none => node
  | some fs => fsCreate a.data {node with vMp := (t.nodes vParent).vMp, vfsops := some fs}

def linkedTree (a : Allocs) (t : Tree) (vParent : Nat) (dirName : List Char) (type : VType)
    (vChildren : Vec) : Tree :=
  {t with
    nodes := Function.update
      (Function.update t.nodes vParent {t.nodes vParent with vChildren := vChildren})
      t.nodeCount (newNode a t vParent dirName type)
    nodeCount := t.nodeCount + 1}

theorem linkNew_eq (hnode : a.node = true) :
    linkNew a t vParent dirName type =
      (vectorPushBack a.grow (t.nodes vParent).vChildren t.nodeCount).map fun vChildren =>
        (.success, linkedTree a t vParent dirName type vChildren) := by
  rw [linkNew, vfsAllocNode, if_pos hnode]
  dsimp only
  cases vectorPushBack a.grow (t.nodes vParent).vChildren t.nodeCount with
  | none => rfl
  | some vChildren => rfl

theorem newNode_spec (a : Allocs) (t : Tree) (vParent : Nat) (dirName : List Char) (type : VType) :
    ((newNode a t vParent dirName type).vName ≠ none ↔ a.name = true) ∧
      (newNode a t vParent dirName type).vType = type ∧
      (newNode a t vParent dirName type).vParent = some vParent ∧
      (newNode a t vParent dirName type).vChildren =
        (if type = .vdir then vectorAlloc a.elements else ⟨0, none⟩) ∧
      (newNode a t vParent dirName type).vfsops = (t.nodes vParent).vfsops ∧
      ((newNode a t vParent dirName type).vfsops ≠ none →
        ((newNode a t vParent dirName type).fsData = true ↔ a.data = true)) := by
  unfold newNode
  cases hops : (t.nodes vParent).vfsops with
  | none => exact ⟨by simp, rfl, rfl, rfl, rfl, by simp⟩
  | some fs =>
      unfold fsCreate
      cases hdata : a.data with
      | true => exact ⟨by simp, rfl, rfl, rfl, rfl, by simp⟩
      | false => exact ⟨by simp, rfl, rfl, rfl, rfl, by simp⟩

theorem getD_vectorAlloc (ok : Bool) : (vectorAlloc ok).elements.getD [] = [] := by
  cases ok <;> rfl

theorem elements_of_alloc {ok : Bool} {l : List Nat} (h : (vectorAlloc ok).elements = some l) :
    l = [] := by
  rw [← getD_vectorAlloc ok, h]
  rfl

theorem vectorAlloc_ne_none {ok : Bool} : (vectorAlloc ok).elements ≠ none ↔ ok = true := by
  simp [vectorAlloc]

section Nodes

variable {vChildren : Vec}

theorem linkedTree_new : (linkedTree a t vParent dirName type vChildren).nodes t.nodeCount =
    newNode a t vParent dirName type :=
  Function.update_self ..

theorem linkedTree_parent (hparent : vParent < t.nodeCount) :
    (linkedTree a t vParent dirName type vChildren).nodes vParent =
      {t.nodes vParent with vChildren := vChildren} := by
  unfold linkedTree
  dsimp only
  rw [Function.update_of_ne (Nat.ne_of_lt hparent), Function.update_self]

theorem linkedTree_old {i : Nat} (hlast : i ≠ t.nodeCount) (hne : i ≠ vParent) :
    (linkedTree a t vParent dirName type vChildren).nodes i = t.nodes i := by
  unfold linkedTree
  dsimp only
  rw [Function.update_of_ne hlast, Function.update_of_ne hne]

end Nodes

/-- The linked node is complete exactly if its own allocations succeeded. -/
theorem complete_linkedTree_iff {vChildren : Vec} {l : List Nat} (hparent : vParent < t.nodeCount)
    (hdir : (t.nodes vParent).vType = .vdir) (hl : vChildren.elements = some (l ++ [t.nodeCount])) :
    (∃ i, Complete t (linkedTree a t vParent dirName type vChildren) i) ↔
      a.name = true ∧ (type = .vdir → a.elements = true) ∧
        ((t.nodes vParent).vfsops ≠ none → a.data = true) := by
  obtain ⟨hname, htype, hback, hchildren, hops, hdata⟩ := newNode_spec a t vParent dirName type
  have helements : type = .vdir →
      ((newNode a t vParent dirName type).vChildren.elements ≠ none ↔ a.elements = true) := by
    intro hkind
    rw [hchildren, if_pos hkind]
    exact vectorAlloc_ne_none
  constructor
  · rintro ⟨i, hi⟩
    have hlast : i = t.nodeCount := Nat.le_antisymm (Nat.le_of_lt_succ hi.counted) hi.fresh
    subst hlast
    have hn := hi.name
    have hc := hi.children
    have hd := hi.driver
    rw [linkedTree_new] at hn hc hd
    rw [htype] at hc
    refine ⟨hname.mp hn, fun htype' => (helements htype').mp (hc htype'), fun hmounted => ?_⟩
    rw [← hops] at hmounted
    exact (hdata hmounted).mp (hd hmounted)
  · rintro ⟨hn, hc, hd⟩
    refine ⟨t.nodeCount, Nat.lt_succ_self _, Nat.le_refl _, ?_, ?_, ?_, vParent, hparent, hdir,
      ?_, ?_⟩
    · rw [linkedTree_new]
      exact hname.mpr hn
    · rw [linkedTree_new, htype]
      exact fun htype' => (helements htype').mpr (hc htype')
    · rw [linkedTree_new]
      intro hmounted
      exact (hdata hmounted).mpr (hd (hops ▸ hmounted))
    · rw [linkedTree_new, hback]
    · rw [linkedTree_parent hparent, hl]
      simp

/-- Only directories have an array. -/
theorem Formed.isDirectory {l : List Nat} (h : Formed t) (hparent : vParent < t.nodeCount)
    (hl : (t.nodes vParent).vChildren.elements = some l) : (t.nodes vParent).vType = .vdir := by
  by_contra hother
  rw [h.others vParent hparent hother] at hl
  cases hl

/-- Behind the lookup, a call is reported correctly exactly if the node cannot be allocated
or everything else can. -/
theorem linkNew_reported_iff (h : Formed t) (hparent : vParent < t.nodeCount) :
    Reported t (linkNew a t vParent dirName type) ↔
      a.node = false ∨ RestSucceeds a t vParent type := by
  cases hnode : a.node with
  | false =>
      rw [linkNew, vfsAllocNode, hnode]
      exact iff_of_true rfl (.inl rfl)
  | true =>
      rw [linkNew_eq hnode]
      have hleft : ∀ P : Prop, (true = false ∨ P) ↔ P := fun P => or_iff_right (by decide)
      rw [hleft]
      cases hl : (t.nodes vParent).vChildren.elements with
      | none =>
          rw [vectorPushBack_null hl]
          exact iff_of_false id fun hrest => hrest.2.1 hl
      | some l =>
          have hdir := h.isDirectory hparent hl
          obtain ⟨hle, hpos⟩ := h.directories vParent hparent hdir l hl
          have hpush := @vectorPushBack_iff a.grow _ l t.nodeCount hl hle hpos
          cases hcase : vectorPushBack a.grow (t.nodes vParent).vChildren t.nodeCount with
          | none =>
              rw [hcase] at hpush
              refine iff_of_false id fun hrest => ?_
              obtain ⟨v', hv'⟩ := hpush.mpr hrest.2.2.2.2.1
              cases hv'
          | some vChildren =>
              rw [hcase] at hpush
              have hgrow := hpush.mp ⟨vChildren, rfl⟩
              have harray : (t.nodes vParent).vChildren.elements ≠ none := by simp [hl]
              refine (complete_linkedTree_iff hparent hdir (elements_of_push hl hcase).1).trans ?_
              exact ⟨fun ⟨hn, hc, hd⟩ => ⟨hdir, harray, hn, hc, hgrow, hd⟩,
                fun ⟨_, _, hn, hc, _, hd⟩ => ⟨hn, hc, hd⟩⟩

/-- Linking keeps the shape of the tree, whatever the new node lacks. -/
theorem Formed.linkedTree {vChildren : Vec} {l : List Nat} (h : Formed t)
    (hparent : vParent < t.nodeCount) (hdir : (t.nodes vParent).vType = .vdir)
    (hl : (t.nodes vParent).vChildren.elements = some l)
    (hnew : vChildren.elements = some (l ++ [t.nodeCount]))
    (hroom : l.length < vChildren.maxElements) :
    Formed (linkedTree a t vParent dirName type vChildren) := by
  obtain ⟨-, htype, -, hchildren, -⟩ := newNode_spec a t vParent dirName type
  have hcases : ∀ i < t.nodeCount + 1,
      i = t.nodeCount ∨ i = vParent ∨ (i < t.nodeCount ∧ i ≠ vParent) := by omega
  refine ⟨Nat.succ_pos _, fun i hi hkind l' hl' => ?_, fun i hi hkind => ?_, fun i hi c hc => ?_⟩
  · obtain rfl | rfl | ⟨hi, hne⟩ := hcases i hi
    · rw [linkedTree_new] at hkind hl' ⊢
      rw [hchildren, if_pos (htype ▸ hkind)] at hl' ⊢
      rw [elements_of_alloc hl']
      exact ⟨Nat.zero_le _, Nat.succ_pos 7⟩
    · rw [linkedTree_parent hparent] at hl' ⊢
      rw [hnew] at hl'
      rw [← Option.some.inj hl', List.length_append]
      exact ⟨hroom, Nat.zero_lt_of_lt hroom⟩
    · rw [linkedTree_old (Nat.ne_of_lt hi) hne] at hkind hl' ⊢
      exact h.directories i hi hkind l' hl'
  · obtain rfl | rfl | ⟨hi, hne⟩ := hcases i hi
    · rw [linkedTree_new] at hkind ⊢
      rw [hchildren, if_neg (htype ▸ hkind)]
    · rw [linkedTree_parent hparent] at hkind
      exact absurd hdir hkind
    · rw [linkedTree_old (Nat.ne_of_lt hi) hne] at hkind ⊢
      exact h.others i hi hkind
  · have hgrown : (VfsAlloc.linkedTree a t vParent dirName type vChildren).nodeCount =
        t.nodeCount + 1 := rfl
    rw [hgrown]
    obtain rfl | rfl | ⟨hi, hne⟩ := hcases i hi
    · rw [linkedTree_new, hchildren] at hc
      split_ifs at hc with hkind
      · rw [getD_vectorAlloc] at hc
        cases hc
      · cases hc
    · rw [linkedTree_parent hparent, hnew] at hc
      rcases List.mem_append.mp hc with hold | hlast
      · apply Nat.lt_succ_of_lt
        apply h.children i hparent c
        rw [hl]
        exact hold
      · rw [List.mem_singleton.mp hlast]
        exact Nat.lt_succ_self _
    · rw [linkedTree_old (Nat.ne_of_lt hi) hne] at hc
      exact Nat.lt_succ_of_lt (h.children i hi c hc)

theorem Formed.linkNew {code : CreateCode} {t' : Tree} (h : Formed t)
    (hparent : vParent < t.nodeCount)
    (hcall : linkNew a t vParent dirName type = some (code, t')) : Formed t' := by
  cases hnode : a.node with
  | false =>
      rw [VfsAlloc.linkNew, vfsAllocNode, hnode] at hcall
      cases hcall
      exact h
  | true =>
      rw [linkNew_eq hnode] at hcall
      obtain ⟨vChildren, hpush, heq⟩ := Option.map_eq_some_iff.mp hcall
      cases heq
      cases hl : (t.nodes vParent).vChildren.elements with
      | none =>
          rw [vectorPushBack_null hl] at hpush
          cases hpush
      | some l =>
          obtain ⟨hnew, hroom⟩ := elements_of_push hl hpush
          exact h.linkedTree hparent (h.isDirectory hparent hl) hl hnew hroom

end Link

section Lookup

variable {t : Tree}

theorem mem_of_vfsGetChild {name : List Char} {l : List Nat} {c : Nat}
    (h : vfsGetChild t name l = .done (some c)) : c ∈ l := by
  induction l with
  | nil => simp [vfsGetChild] at h
  | cons node rest ih =>
      rw [vfsGetChild] at h
      cases hname : (t.nodes node).vName with
      | none => simp [hname] at h
      | some vName =>
          simp only [hname] at h
          by_cases hsame : vName = name
          · rw [if_pos hsame] at h
            simp only [Outcome.done.injEq, Option.some.injEq] at h
            simp [h]
          · rw [if_neg hsame] at h
            exact List.mem_cons_of_mem _ (ih h)

theorem walk_mem (ht : Formed t) {fuel cur node : Nat} {path : List Char}
    (hcur : cur < t.nodeCount) (h : walk t fuel cur path = .done node) : node < t.nodeCount := by
  induction fuel generalizing cur path with
  | zero => simp [walk] at h
  | succ fuel ih =>
      rw [walk] at h
      split at h
      · rw [Outcome.done.injEq] at h
        exact h ▸ hcur
      · split at h
        · simp at h
        · split at h
          · simp at h
          · simp at h
          · rename_i hchild
            exact ih (ht.children cur hcur _ (mem_of_vfsGetChild hchild)) h
          · split at h
            · simp at h
            · simp at h

theorem vfsPathToNode_mem (ht : Formed t) {vBase node : Nat} {path : List Char}
    (hbase : vBase < t.nodeCount) (h : vfsPathToNode t vBase path = .done node) :
    node < t.nodeCount := by
  unfold vfsPathToNode at h
  split at h
  · simp at h
  split at h
  · simp at h
  split at h
  · split at h
    · rw [Outcome.done.injEq] at h
      exact h ▸ ht.root
    · simp at h
  split at h
  · split at h
    · simp at h
    split at h
    · simp at h
    exact walk_mem ht hbase h
  split at h
  · split at h
    · simp at h
    split at h
    · simp at h
    exact walk_mem ht hbase h
  · simp at h

theorem createTarget_mem (ht : Formed t) {vBase vParent : Nat} {vfsPath dirName : List Char}
    (hbase : vBase < t.nodeCount) (h : createTarget t vBase vfsPath = .done (vParent, dirName)) :
    vParent < t.nodeCount := by
  rw [createTarget] at h
  obtain ⟨leaf, hleaf⟩ : ∃ leaf, vGetLeafName vfsPath = leaf := ⟨_, rfl⟩
  rw [hleaf] at h
  cases leaf with
  | none => simp [createParent] at h
  | some leaf =>
      rw [createParent] at h
      split at h
      · simp at h
      · obtain ⟨node, hnode, heq⟩ := Outcome.map_eq_done.mp h
        rw [← (Prod.mk.inj heq).1]
        exact vfsPathToNode_mem ht hbase hnode

end Lookup

theorem formed_vfsInit {a : Allocs} {t : Tree} (h : vfsInit a = some t) : Formed t := by
  obtain ⟨root, hroot, rfl⟩ := Option.map_eq_some_iff.mp h
  have hshape : root.vType = .vdir ∧ root.vChildren = vectorAlloc a.elements := by
    cases hnode : a.node with
    | false => simp [vfsAllocNode, hnode] at hroot
    | true =>
        rw [vfsAllocNode, if_pos hnode] at hroot
        cases hroot
        exact ⟨rfl, rfl⟩
  obtain ⟨hkind, hchildren⟩ := hshape
  refine ⟨Nat.one_pos, fun i _ _ l hl => ?_, fun i _ hother => absurd hkind hother,
    fun i _ c hc => ?_⟩
  · dsimp only at hl ⊢
    rw [hchildren] at hl ⊢
    rw [elements_of_alloc hl]
    exact ⟨Nat.zero_le _, Nat.succ_pos 7⟩
  · dsimp only at hc
    rw [hchildren, getD_vectorAlloc] at hc
    cases hc

theorem Formed.createAt {a : Allocs} {t t' : Tree} {type : VType} {code : CreateCode}
    {target : Outcome (Nat × List Char)} (h : Formed t)
    (hmem : ∀ vParent dirName, target = .done (vParent, dirName) → vParent < t.nodeCount)
    (hcall : createAt a t type target = some (code, t')) : Formed t' := by
  cases target with
  | fault => cases hcall
  | err code =>
      cases hcall
      exact h
  | done target => exact h.linkNew (hmem target.1 target.2 rfl) hcall

/-- The shape of the tree holds after every call that returns, so also after calls that left
something out. -/
theorem Formed.vfsCreate {a : Allocs} {t t' : Tree} {vBase : Option Nat}
    {vfsPath : Option (List Char)} {type : VType} {code : CreateCode} (h : Formed t)
    (hbase : ∀ b, vBase = some b → b < t.nodeCount)
    (hcall : vfsCreate a t vBase vfsPath type = some (code, t')) : Formed t' := by
  cases vBase with
  | none =>
      cases hcall
      exact h
  | some vBase =>
      cases vfsPath with
      | none =>
          cases hcall
          exact h
      | some vfsPath =>
          rw [VfsAlloc.vfsCreate] at hcall
          exact h.createAt (fun vParent dirName => createTarget_mem h (hbase vBase rfl)) hcall

section View

variable {t : Tree}

/-- Nothing was left out at the creation of any node. -/
structure SetUp (t : Tree) : Prop extends Formed t where
  names : ∀ i < t.nodeCount, (t.nodes i).vName ≠ none
  arrays : ∀ i < t.nodeCount, (t.nodes i).vType = .vdir → (t.nodes i).vChildren.elements ≠ none

theorem SetUp.name_eq {i : Nat} (h : SetUp t) (hi : i < t.nodeCount) :
    (t.nodes i).vName = some (t.view.nodes i).vName := by
  obtain ⟨vName, hname⟩ := Option.ne_none_iff_exists'.mp (h.names i hi)
  simp [Tree.view, Node.view, hname]

theorem SetUp.vfsGetChild_eq (h : SetUp t) (name : List Char) (l : List Nat)
    (hl : ∀ c ∈ l, c < t.nodeCount) :
    vfsGetChild t name l = .done (l.find? fun node => (t.view.nodes node).vName = name) := by
  induction l with
  | nil => rfl
  | cons node rest ih =>
      have hnode := h.name_eq (hl node List.mem_cons_self)
      have hrest := ih fun c hc => hl c (List.mem_cons_of_mem _ hc)
      rw [vfsGetChild, hnode, List.find?_cons]
      by_cases hsame : (t.view.nodes node).vName = name
      · simp [hsame]
      · simp [hsame, hrest]

theorem SetUp.walk_eq (h : SetUp t) {fuel cur : Nat} {path : List Char}
    (hcur : cur < t.nodeCount) : walk t fuel cur path = Vfs.walk t.view fuel cur path := by
  induction fuel generalizing cur path with
  | zero => rfl
  | succ fuel ih =>
      have hchildren := h.children cur hcur
      rw [walk, Vfs.walk]
      cases htok : strtokR path ['/'] with
      | mk tok rest =>
          cases tok with
          | none => rfl
          | some tok =>
              dsimp only
              rw [h.vfsGetChild_eq tok _ hchildren]
              have hsame : Vfs.vfsGetChild t.view cur tok =
                  ((t.nodes cur).vChildren.elements.getD []).find?
                    fun node => (t.view.nodes node).vName = tok := rfl
              rw [← hsame]
              cases hchild : Vfs.vfsGetChild t.view cur tok with
              | some child =>
                  have hmem := (Vfs.mem_of_vfsGetChild hchild).1
                  dsimp only
                  rw [ih (hchildren child hmem)]
                  rfl
              | none =>
                  have hops : (t.view.nodes cur).vfsops = (t.nodes cur).vfsops := rfl
                  rw [hops]
                  cases (t.nodes cur).vfsops with
                  | none => rfl
                  | some fs => cases fs <;> rfl

theorem SetUp.vfsPathToNode_eq (h : SetUp t) {vBase : Nat} {path : List Char}
    (hbase : vBase < t.nodeCount) :
    vfsPathToNode t vBase path = Vfs.vfsPathToNode t.view vBase path := by
  have hwalk : ∀ fuel path, walk t fuel vBase path = Vfs.walk t.view fuel vBase path :=
    fun _ _ => h.walk_eq hbase
  have hmode : (t.view.nodes vBase).stat = (t.nodes vBase).stat := rfl
  simp only [vfsPathToNode, Vfs.vfsPathToNode, hwalk, hmode, h.name_eq hbase]
  cases strtokR path ['/'] with
  | mk tok rest => cases tok <;> rfl

theorem SetUp.createTarget_eq (h : SetUp t) {vBase : Nat} {vfsPath : List Char}
    (hbase : vBase < t.nodeCount) :
    createTarget t vBase vfsPath = Vfs.createTarget t.view vBase vfsPath := by
  rw [createTarget, Vfs.createTarget]
  obtain ⟨leaf, hleaf⟩ : ∃ leaf, vGetLeafName vfsPath = leaf := ⟨_, rfl⟩
  rw [hleaf]
  cases leaf with
  | none => rfl
  | some dirName =>
      rw [createParent, Vfs.createParent, h.vfsPathToNode_eq hbase]
      obtain ⟨o, ho⟩ : ∃ o,
          Vfs.vfsPathToNode t.view vBase (vParentPath vfsPath dirName) = o := ⟨_, rfl⟩
      rw [ho]
      cases o <;> rfl

theorem newNode_view (t : Tree) (vParent : Nat) (dirName : List Char) (type : VType) :
    (newNode everyAlloc t vParent dirName type).view =
      ((Vfs.linkNode t.view vParent dirName type).nodes t.nodeCount) := by
  have hempty : (if type = .vdir then vectorAlloc true else ⟨0, none⟩).elements.getD [] = [] := by
    split_ifs <;> rfl
  have hview : (t.view.nodes vParent).vfsops = (t.nodes vParent).vfsops := rfl
  have hcount : t.view.nodeCount = t.nodeCount := rfl
  unfold newNode Vfs.linkNode
  dsimp only
  rw [hview, hcount, Function.update_self]
  cases (t.nodes vParent).vfsops with
  | none => simp [Node.view, Vfs.vfsAllocNode, hempty, everyAlloc]
  | some fs =>
      have hmp : (t.view.nodes vParent).vMp = (t.nodes vParent).vMp := rfl
      simp [Node.view, Vfs.vfsAllocNode, Vfs.fsCreate, fsCreate, hempty, hmp, everyAlloc]

theorem SetUp.linkNew_eq {vParent : Nat} {dirName : List Char} (h : SetUp t) (type : VType)
    (hparent : vParent < t.nodeCount) (hdir : (t.nodes vParent).vType = .vdir) :
    (linkNew everyAlloc t vParent dirName type).map (fun result => result.2.view) =
      some (Vfs.linkNode t.view vParent dirName type) := by
  obtain ⟨l, hl⟩ := Option.ne_none_iff_exists'.mp (h.arrays vParent hparent hdir)
  obtain ⟨hle, hpos⟩ := h.directories vParent hparent hdir l hl
  obtain ⟨vChildren, hpush⟩ :=
    (@vectorPushBack_iff true _ l t.nodeCount hl hle hpos).mpr fun _ => rfl
  have hnew := (elements_of_push hl hpush).1
  have hgrow : everyAlloc.grow = true := rfl
  rw [VfsAlloc.linkNew_eq rfl, hgrow, hpush, Option.map_some, Option.map_some]
  have hnodes : (fun i => ((linkedTree everyAlloc t vParent dirName type vChildren).nodes i).view) =
      (Vfs.linkNode t.view vParent dirName type).nodes := by
    funext i
    by_cases hlast : i = t.nodeCount
    · rw [hlast, linkedTree_new]
      exact newNode_view t vParent dirName type
    · have hold : (Vfs.linkNode t.view vParent dirName type).nodes i =
          Function.update t.view.nodes vParent
            {t.view.nodes vParent with
              vChildren := (t.view.nodes vParent).vChildren ++ [t.nodeCount]} i :=
        Function.update_of_ne hlast ..
      rw [hold]
      by_cases hpar : i = vParent
      · rw [hpar, linkedTree_parent hparent, Function.update_self]
        simp [Tree.view, Node.view, hnew, hl]
      · rw [linkedTree_old hlast hpar, Function.update_of_ne hpar]
        rfl
  rw [Tree.view, hnodes]
  rfl

/-- Without failures and in a directory, `vfs_create` is the operation of the model with
lists. -/
theorem SetUp.vfsCreate_eq {vBase : Nat} {vfsPath : List Char} (h : SetUp t) (type : VType)
    (hbase : vBase < t.nodeCount)
    (hdir : ∀ vParent dirName, createTarget t vBase vfsPath = .done (vParent, dirName) →
      (t.nodes vParent).vType = .vdir) :
    (vfsCreate everyAlloc t (some vBase) (some vfsPath) type).map (fun result => result.2.view) =
      (Vfs.vfsCreate t.view vBase vfsPath type).next t.view := by
  have hmem : ∀ vParent dirName, createTarget t vBase vfsPath = .done (vParent, dirName) →
      vParent < t.nodeCount := fun _ _ => createTarget_mem h.toFormed hbase
  rw [vfsCreate, Vfs.vfsCreate, ← h.createTarget_eq hbase]
  obtain ⟨target, htarget⟩ : ∃ target, createTarget t vBase vfsPath = target := ⟨_, rfl⟩
  rw [htarget] at hdir hmem ⊢
  cases target with
  | fault => rfl
  | err code => rfl
  | done target =>
      exact h.linkNew_eq type (hmem target.1 target.2 rfl) (hdir target.1 target.2 rfl)

end View

/-- The lookup of the parent ends in an error, or the node cannot be allocated, or the parent
is a directory with an array and every other allocation the node needs succeeds. -/
def TargetServed (a : Allocs) (t : Tree) (type : VType) : Outcome (Nat × List Char) → Prop
  | .fault => False
  | .err _ => True
  | .done (vParent, _) => a.node = false ∨ RestSucceeds a t vParent type

/-- When `vfs_create` does what it owes, which takes a base and a path. -/
def GoesThrough (a : Allocs) (t : Tree) (type : VType) : Option Nat → Option (List Char) → Prop
  | some vBase, some vfsPath => TargetServed a t type (createTarget t vBase vfsPath)
  | _, _ => False

/-- For every tree, every base in it, path, type and pattern of failures. -/
theorem create_reported_iff (a : Allocs) (t : Tree) (vBase : Option Nat)
    (vfsPath : Option (List Char)) (type : VType) (h : Formed t)
    (hbase : ∀ b, vBase = some b → b < t.nodeCount) :
    Reported t (vfsCreate a t vBase vfsPath type) ↔ GoesThrough a t type vBase vfsPath := by
  have hnull : ¬ ∃ i, Complete t t i := by
    rintro ⟨i, hi⟩
    exact absurd hi.counted (Nat.not_lt.mpr hi.fresh)
  cases vBase with
  | none => exact iff_of_false hnull id
  | some vBase =>
      cases vfsPath with
      | none => exact iff_of_false hnull id
      | some vfsPath =>
          rw [vfsCreate, GoesThrough]
          cases htarget : createTarget t vBase vfsPath with
          | fault => exact iff_of_false id id
          | err code => exact iff_of_true rfl trivial
          | done target =>
              obtain ⟨vParent, dirName⟩ := target
              exact linkNew_reported_iff h (createTarget_mem h (hbase vBase rfl) htarget)

def everyAllocButName : Allocs := ⟨true, true, false, true, true⟩

/-- The root directory after an initialization without failures. -/
def bareRoot : Tree :=
  {nodes := fun _ =>
     {vType := .vdir, vMp := none, vParent := none, vChildren := ⟨8, some []⟩, vName := some [],
      vfsops := none, stat := ⟨vfsVtypeToStMode .vdir, 0, 0, 0⟩, fsData := false}
   nodeCount := 1
   fsNodeCount := 0}

theorem create_reported_iff_file :
    vfsInit everyAlloc = some bareRoot ∧
      Reported bareRoot (vfsCreate everyAlloc bareRoot (some vRoot) (some ['/', 'a']) .vreg) := by
  have hinit : vfsInit everyAlloc = some bareRoot := rfl
  refine ⟨hinit, ?_⟩
  have hbase : ∀ b, some vRoot = some b → b < bareRoot.nodeCount := by
    intro b hb
    cases hb
    exact Nat.one_pos
  rw [create_reported_iff everyAlloc bareRoot (some vRoot) (some ['/', 'a']) .vreg
    (formed_vfsInit hinit) hbase]
  have htarget : createTarget bareRoot vRoot ['/', 'a'] = .done (vRoot, ['a']) := by decide
  rw [GoesThrough, htarget]
  exact .inr ⟨rfl, by simp [bareRoot], rfl, fun _ => rfl, fun _ => rfl, fun _ => rfl⟩

/-- The name of `/a` cannot be allocated: `vfs_create` reports success, and the node is linked
without a name. -/
theorem nameless_node_reported :
    vfsInit everyAlloc = some bareRoot ∧
      (∃ t', vfsCreate everyAllocButName bareRoot (some vRoot) (some ['/', 'a']) .vreg =
          some (.success, t') ∧ (t'.nodes 1).vName = none ∧
            (t'.nodes vRoot).vChildren.elements = some [1]) ∧
      ¬ Reported bareRoot
        (vfsCreate everyAllocButName bareRoot (some vRoot) (some ['/', 'a']) .vreg) := by
  have htarget : createTarget bareRoot vRoot ['/', 'a'] = .done (vRoot, ['a']) := by decide
  have hcall : ∀ a : Allocs, vfsCreate a bareRoot (some vRoot) (some ['/', 'a']) .vreg =
      linkNew a bareRoot vRoot ['a'] .vreg := by
    intro a
    rw [vfsCreate, htarget]
    rfl
  have hinit : vfsInit everyAlloc = some bareRoot := rfl
  refine ⟨hinit, ?_, ?_⟩
  · rw [hcall]
    exact ⟨_, rfl, rfl, rfl⟩
  · have hroot : vRoot < bareRoot.nodeCount := Nat.one_pos
    rw [hcall, linkNew_reported_iff (formed_vfsInit hinit) hroot]
    rintro (hnode | hrest)
    · cases hnode
    · cases hrest.2.2.1

end Tellurium.VfsAlloc
