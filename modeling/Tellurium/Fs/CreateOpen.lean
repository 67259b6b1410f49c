import Tellurium.Fs.Lookup

/-!
Creating a node and opening it by the same path (`kernel/fs/vfs.c`). `vfs_create` cuts the path
at its last slash, `vfs_open` walks its components from the front. The components of the whole
path are those of the part before the slash and the leaf name, so the two agree; and a new
child stands behind the others, so no lookup that succeeded before is disturbed.
-/

namespace Tellurium.Vfs

open Tellurium.Flibc

/-- `vfs_open` returns the node of the path; the reference count it raises is left out. -/
def vfsOpen (s : State) (base : Nat) (path : List Char) : Outcome Nat :=
  vfsPathToNode s base path

section Append

variable {s : State} {cur node vBase dir : Nat} {parent leaf : List Char}

theorem reaches_append {front back : List (List Char)} :
    Reaches s cur (front ++ back) node ↔
      ∃ mid, Reaches s cur front mid ∧ Reaches s mid back node := by
  induction front generalizing cur with
  | nil => simp [Reaches]
  | cons name front ih =>
      simp only [List.cons_append, Reaches, ih]
      constructor
      · rintro ⟨hdir, child, hchild, mid, hfront, hback⟩
        exact ⟨mid, ⟨hdir, child, hchild, hfront⟩, hback⟩
      · rintro ⟨mid, ⟨hdir, child, hchild, hfront⟩, hback⟩
        exact ⟨hdir, child, hchild, mid, hfront, hback⟩

theorem Reaches.unique {names : List (List Char)} {other : Nat} (h : Reaches s cur names node)
    (hother : Reaches s cur names other) : other = node := by
  rw [← walkNames_done_iff] at h hother
  rw [h] at hother
  exact (Outcome.done.inj hother).symm

theorem lookupNames_append (hne : parent ≠ []) :
    lookupNames s vBase (parent ++ '/' :: leaf) =
      (lookupNames s vBase parent).map (· ++ components leaf) := by
  have hhead : (parent ++ '/' :: leaf).head? = parent.head? := by
    rw [List.head?_append_of_ne_nil _ hne]
  rw [lookupNames, lookupNames, hhead, components_append]
  by_cases hslash : parent.head? = some '/'
  · rw [if_pos hslash, if_pos hslash]
    split_ifs <;> rfl
  · rw [if_neg hslash, if_neg hslash]
    have htok := strtokR_of_head hne hslash
    rw [components_strtokR parent]
    cases hcases : strtokR parent ['/'] with
    | mk tok rest =>
        cases tok with
        | none => exact absurd (by rw [hcases]) htok
        | some tok =>
            dsimp only [List.cons_append]
            split_ifs <;> rfl

/-- Behind a path that is not empty the rest is looked up from the node it means. -/
theorem resolves_append_of_ne (hparent : Resolves s vBase parent dir) (hne : parent ≠ []) :
    Resolves s vBase (parent ++ '/' :: leaf) node ↔ Reaches s dir (components leaf) node := by
  rw [Resolves, if_neg hne] at hparent
  obtain ⟨hbase, names, hnames, hreach⟩ := hparent
  rw [Resolves, if_neg (by simp), lookupNames_append hne, hnames]
  simp only [Option.map_some, Option.some.injEq, exists_eq_left', reaches_append, hbase,
    true_and]
  constructor
  · rintro ⟨mid, hmid, hback⟩
    exact hreach.unique hmid ▸ hback
  · intro hback
    exact ⟨dir, hreach, hback⟩

/-- Behind a directory the rest of a path is looked up in it. -/
theorem resolves_append (hparent : Resolves s vBase parent dir) (hdir : IsDir s dir) :
    Resolves s vBase (parent ++ '/' :: leaf) node ↔ Reaches s dir (components leaf) node := by
  by_cases hne : parent = []
  · subst hne
    rw [Resolves, if_pos rfl] at hparent
    obtain ⟨rfl, rfl⟩ := hparent
    rw [Resolves, if_neg (by simp), List.nil_append, lookupNames, if_pos rfl, components_slash]
    simp [hdir]
  · exact resolves_append_of_ne hparent hne

end Append

section Link

variable {s : State} {vParent cur node vBase : Nat} {dirName name path : List Char} {type : VType}

theorem linkNode_stat {i : Nat} (hi : i < s.nodeCount) :
    ((linkNode s vParent dirName type).nodes i).stat = (s.nodes i).stat := by
  have hne : i ≠ s.nodeCount := Nat.ne_of_lt hi
  by_cases hip : i = vParent
  · subst hip
    simp [linkNode, hne]
  · simp [linkNode, hne, hip]

theorem linkNode_vType : ((linkNode s vParent dirName type).nodes s.nodeCount).vType = type := by
  unfold linkNode
  simp only [Function.update_self]
  split <;> rfl

/-- A child that was found is still found: the new one stands behind it. -/
theorem ChildNamed.link {child : Nat} (hs : ChildrenOk s) (hcur : cur < s.nodeCount)
    (h : ChildNamed s cur name child) :
    ChildNamed (linkNode s vParent dirName type) cur name child := by
  obtain ⟨before, after, heq, hname, hbefore⟩ := h
  have hmem : ∀ c ∈ before ++ child :: after, c < s.nodeCount := by
    rw [← heq]
    exact hs.children cur hcur
  have hold : ∀ c ∈ before ++ child :: after,
      ((linkNode s vParent dirName type).nodes c).vName = (s.nodes c).vName :=
    fun c hc => (linkNode_old (hmem c hc)).1
  have hchild : child ∈ before ++ child :: after := List.mem_append_right _ List.mem_cons_self
  refine ⟨before, if cur = vParent then after ++ [s.nodeCount] else after, ?_, ?_, ?_⟩
  · rw [(linkNode_old hcur).2.2.2, heq]
    split_ifs
    · rw [List.append_assoc, List.cons_append]
    · rfl
  · rw [hold child hchild, hname]
  · intro c hc
    rw [hold c (List.mem_append_left _ hc)]
    exact hbefore c hc

theorem Reaches.link {names : List (List Char)} (hs : ChildrenOk s) (hcur : cur < s.nodeCount)
    (h : Reaches s cur names node) : Reaches (linkNode s vParent dirName type) cur names node := by
  induction names generalizing cur with
  | nil => exact h
  | cons name names ih =>
      obtain ⟨hdir, child, hchild, hrest⟩ := h
      have hlt : child < s.nodeCount := by
        rw [← vfsGetChild_eq_some_iff] at hchild
        exact hs.children cur hcur child (mem_of_vfsGetChild hchild).1
      refine ⟨?_, child, hchild.link hs hcur, ih hlt hrest⟩
      rw [IsDir, linkNode_stat hcur]
      exact hdir

theorem Resolves.link (hs : ChildrenOk s) (hbase : vBase < s.nodeCount)
    (h : Resolves s vBase path node) :
    Resolves (linkNode s vParent dirName type) vBase path node := by
  rw [Resolves] at h ⊢
  split_ifs at h ⊢ with hempty
  · exact h
  · obtain ⟨hdir, names, hnames, hreach⟩ := h
    refine ⟨?_, names, ?_, hreach.link hs hbase⟩
    · rw [IsDir, linkNode_stat hbase]
      exact hdir
    · rw [lookupNames, (linkNode_old hbase).1]
      exact hnames

/-- Only short paths are looked up at all. -/
theorem length_of_vfsPathToNode (h : vfsPathToNode s vBase path = .done node) :
    path.length < vnodePathMax := by
  rw [vfsPathToNode] at h
  split_ifs at h with hlong hfull
  all_goals omega

/-- The new node is the child its name selects, if the name was free. -/
theorem childNamed_new (hs : ChildrenOk s) (hparent : vParent < s.nodeCount)
    (hfree : ∀ child, ¬ ChildNamed s vParent dirName child) :
    ChildNamed (linkNode s vParent dirName type) vParent dirName s.nodeCount := by
  refine ⟨(s.nodes vParent).vChildren, [], ?_, (linkNode_new s vParent dirName type).1, ?_⟩
  · rw [(linkNode_old hparent).2.2.2, if_pos rfl]
  · intro c hc
    rw [(linkNode_old (hs.children vParent hparent c hc)).1]
    have hnone := vfsGetChild_eq_none_iff.mpr hfree
    have hall := List.find?_eq_none.mp hnone c hc
    simpa using hall

end Link

/-- A successful `vfs_create` of a path that meant nothing before makes `vfs_open` return the
new node, and keeps what every other path meant. -/
theorem create_then_open (s s' : State) (vBase vParent : Nat) (parent leaf : List Char)
    (type : VType) (hs : ChildrenOk s) (hbase : vBase < s.nodeCount) (hslash : '/' ∉ leaf)
    (hlen : (parent ++ '/' :: leaf).length ≤ 511) (hroom : parent.length < vnodeNameMax)
    (hfree : ∀ node, vfsPathToNode s vBase (parent ++ '/' :: leaf) ≠ .done node)
    (hparent : vfsPathToNode s vBase parent = .done vParent) (hdir : IsDir s vParent)
    (hcreate : vfsCreate s vBase (parent ++ '/' :: leaf) type = .done s') :
    (∃ node, vfsOpen s' vBase (parent ++ '/' :: leaf) = .done node ∧ s.nodeCount ≤ node ∧
      (s'.nodes node).vName = leaf ∧ (s'.nodes node).vType = type ∧
      (s'.nodes node).vParent = some vParent) ∧
    ∀ base path node, base < s.nodeCount → vfsPathToNode s base path = .done node →
      vfsPathToNode s' base path = .done node := by
  have hpath : (parent ++ '/' :: leaf).length < vnodePathMax := Nat.lt_succ_of_le hlen
  have hlt := vfsPathToNode_mem hs hbase hparent
  have hres := (vfsPathToNode_done_iff (length_of_vfsPathToNode hparent)).mp hparent
  -- the leaf name is not empty and not taken, or the path would have meant something
  have hunused : ∀ node, ¬ Reaches s vParent (components leaf) node := by
    intro node hreach
    rw [← resolves_append hres hdir, ← vfsPathToNode_done_iff hpath] at hreach
    exact hfree node hreach
  have hne : leaf ≠ [] := by
    rintro rfl
    exact hunused vParent rfl
  have hnone : ∀ child, ¬ ChildNamed s vParent leaf child := by
    intro child hchild
    apply hunused child
    rw [components_name hne hslash]
    exact ⟨hdir, child, hchild, rfl⟩
  have hlink : s' = linkNode s vParent leaf type := by
    rw [vfsCreate, createTarget, vGetLeafName_append hslash (Nat.le_of_lt hpath)] at hcreate
    split_ifs at hcreate with hshort
    · rw [createParent, vParentPath_append, if_neg (by omega), hparent] at hcreate
      exact (Outcome.done.inj hcreate).symm
    · cases hcreate
  subst hlink
  have hopen : Resolves (linkNode s vParent leaf type) vBase (parent ++ '/' :: leaf)
      s.nodeCount := by
    have hdir' : IsDir (linkNode s vParent leaf type) vParent := by
      rw [IsDir, linkNode_stat hlt]
      exact hdir
    rw [resolves_append (hres.link hs hbase) hdir', components_name hne hslash]
    exact ⟨hdir', s.nodeCount, childNamed_new hs hlt hnone, rfl⟩
  have hnew := linkNode_new s vParent leaf type
  refine ⟨⟨s.nodeCount, ?_, Nat.le_refl _, hnew.1, linkNode_vType, hnew.2.1⟩, ?_⟩
  · exact (vfsPathToNode_done_iff hpath).mpr hopen
  · intro base path node hlow hfound
    have hshort := length_of_vfsPathToNode hfound
    rw [vfsPathToNode_done_iff hshort] at hfound ⊢
    exact hfound.link hs hlow

/-- A file in the bare root. -/
theorem create_then_open_file :
    ∃ s', vfsCreate vfsInit vRoot ['/', 'a'] .vreg = .done s' ∧
      ∃ node, vfsOpen s' vRoot ['/', 'a'] = .done node ∧ 1 ≤ node ∧
        (s'.nodes node).vName = ['a'] := by
  have hcreate : vfsCreate vfsInit vRoot ['/', 'a'] .vreg =
      .done (linkNode vfsInit vRoot ['a'] .vreg) := rfl
  have hfree : ∀ node, vfsPathToNode vfsInit vRoot ([] ++ '/' :: ['a']) ≠ .done node := by
    intro node
    rw [show vfsPathToNode vfsInit vRoot ([] ++ '/' :: ['a']) = .fault from rfl]
    exact nofun
  obtain ⟨⟨node, hopen, hnew, hname, -⟩, -⟩ := create_then_open vfsInit _ vRoot vRoot [] ['a'] .vreg
    childrenOk_vfsInit Nat.one_pos (by decide) (by decide) (by decide) hfree rfl rfl hcreate
  exact ⟨_, hcreate, node, hopen, hnew, hname⟩

end Tellurium.Vfs
