import Tellurium.Fs.Ustar

/-!
What `tmpfs_load_userapps` (`kernel/fs/tmpfs.c`) makes of well-formed archives. Where the steps
from header to header are right, the loader does what loading the members one after the other
does; where one is wrong, the walk over the module stops early, unless the place it comes to
looks like a header. Loading a member adds a node to `/tmp`, but writes to the first one that
has its name.
-/

namespace Tellurium.Tmpfs

open Tellurium.Lib Tellurium.Vfs

/-- Every step but the last is right, and the last one leads to something else than a header. -/
def StepsRight (m : Mem) : Nat → List Member → Prop
  | _, [] => True
  | a, [f] => hasMagic m (nextHeader a f.data.length) = false
  | a, f :: rest =>
      StepRight f.data.length ∧ StepsRight m (a + 512 * (1 + blocksOf f.data.length)) rest

/-- Some wrong step leads to what looks like a header. -/
def Imitated (m : Mem) : Nat → List Member → Prop
  | _, [] => False
  | a, f :: rest =>
      (¬ StepRight f.data.length ∧ hasMagic m (nextHeader a f.data.length) = true) ∨
        Imitated m (a + 512 * (1 + blocksOf f.data.length)) rest

/-- A module is an archive of the members, or no archive at all. -/
def ModuleAt (m : Mem) (a : Nat) (members : List Member) : Prop :=
  ArchiveAt m a members ∨ members = [] ∧ hasMagic m a = false

/-- The name of a member without the slashes it starts with. -/
def Member.entry (f : Member) : List Char := (f.name.map ofByte).dropWhile (· = '/')

def Member.byte (f : Member) (k : Nat) : UInt8 := f.data.getD k 0

/-- A regular file of the memory file system. -/
structure IsFile (node : Vnode) : Prop where
  type : node.vType = .vreg
  no_dir : sIsDir node.stat.stMode = false
  writable : Writable node

/-- The tree with `/tmp`, the node `tmp`, on the memory file system. There may be files in it. -/
structure TmpMounted (s : Vfs.State) (tmp : Nat) : Prop where
  children : ChildrenOk s
  root_dir : IsDir s vRoot
  found : vfsGetChild s vRoot ['t', 'm', 'p'] = some tmp
  tmp_dir : IsDir s tmp
  tmp_type : (s.nodes tmp).vType = .vdir
  tmp_ops : (s.nodes tmp).vfsops = some .tmpfs
  files : ∀ c ∈ (s.nodes tmp).vChildren, IsFile (s.nodes c)

/-- The file `/tmp/<name>` of a member. -/
structure FileOf (s : TmpState) (tmp node : Nat) (f : Member) : Prop where
  path : components (tmpPath f.name) = [['t', 'm', 'p'], (s.vfs.nodes node).vName]
  type : (s.vfs.nodes node).vType = .vreg
  parent : (s.vfs.nodes node).vParent = some tmp
  data : ∀ k (hk : k < f.data.length), s.data node k = f.data[k]

/-- One new file for each member, in order and nothing else, with the member's data. -/
structure Extracted (s s' : TmpState) (tmp : Nat) (members : List Member) : Prop where
  count : s'.vfs.nodeCount = s.vfs.nodeCount + members.length
  children : (s'.vfs.nodes tmp).vChildren =
    (s.vfs.nodes tmp).vChildren ++ List.range' s.vfs.nodeCount members.length
  file : ∀ i (hi : i < members.length), FileOf s' tmp (s.vfs.nodeCount + i) members[i]
  others : ∀ j, j < s.vfs.nodeCount → j ≠ tmp → s'.vfs.nodes j = s.vfs.nodes j
  others_data : ∀ j, j < s.vfs.nodeCount → s'.data j = s.data j

/-- The loader extracts the modules, whatever the blocks of the new files hold before. -/
def Extracts (m : Mem) (archives : List (Nat × List Member)) (vfs : Vfs.State) (tmp : Nat) :
    Prop :=
  ∀ data, ∃ fuel s', tmpfsLoadUserapps m fuel (archives.map Prod.fst) ⟨vfs, data⟩ = .ok s' ∧
    Extracted ⟨vfs, data⟩ s' tmp (archives.flatMap Prod.snd)

/-- The names are single path components, and no member with data has one that is taken by a
file in `/tmp` or by a member before it. -/
structure NamesFit (vfs : Vfs.State) (tmp : Nat) (members : List Member) : Prop where
  nonempty : ∀ f ∈ members, f.entry ≠ []
  no_slash : ∀ f ∈ members, '/' ∉ f.entry
  free : ∀ before f after, members = before ++ f :: after → f.data ≠ [] →
    vfsGetChild vfs tmp f.entry = none ∧ f.entry ∉ before.map Member.entry

/-- Loading the members one after the other. -/
def extract (s : TmpState) (members : List Member) : Except Halt TmpState :=
  members.foldlM (fun s f => loadFile s f.name f.byte f.data.length) s

section Walk

variable {m : Mem} {a fuel : Nat} {s s' : TmpState} {f : Member} {rest : List Member}

/-- A write depends on the bytes that it copies. -/
theorem loadFile_congr {name : List UInt8} {buff buff' : Nat → UInt8} {size : Nat}
    (hsize : size < 2 ^ 31) (h : ∀ k, k < size → buff k = buff' k) :
    loadFile s name buff size = loadFile s name buff' size := by
  have hword : sizeOfInt size = size := by
    unfold sizeOfInt
    omega
  have hwrite : ∀ (t : TmpState) (node : Nat),
      vfsWrite t buff node size 0 = vfsWrite t buff' node size 0 := by
    intro t node
    have hdata : (fun k => if 0 ≤ k ∧ k < 0 + size then buff (k - 0) else t.data node k) =
        fun k => if 0 ≤ k ∧ k < 0 + size then buff' (k - 0) else t.data node k := by
      funext k
      split_ifs with hk
      · exact h k (by omega)
      · rfl
    simp only [vfsWrite, tmpfsWrite, hdata]
  simp only [loadFile, hword, hwrite]

/-- The loop at a member's header. -/
theorem loadMembers_extract (hf : f.Ok) (hat : MemberAt m a f) :
    loadMembers m (fuel + 1) a s = loadFile s f.name f.byte f.data.length >>=
      loadMembers m fuel (nextHeader a f.data.length) := by
  rw [loadMembers_member hf hat, loadFile_congr hf.size]
  intro k hk
  rw [hat.data k hk, Member.byte, List.getD_eq_getElem?_getD, List.getElem?_eq_getElem hk,
    Option.getD_some]

theorem loadMembers_end (hstop : hasMagic m a = false) :
    loadMembers m (fuel + 1) a s = .ok s := by
  rw [loadMembers, if_pos (by simp [hstop])]

theorem extract_cons (s : TmpState) (f : Member) (rest : List Member) :
    extract s (f :: rest) = loadFile s f.name f.byte f.data.length >>= fun s => extract s rest :=
  List.foldlM_cons

theorem extract_append (s : TmpState) (front back : List Member) :
    extract s (front ++ back) = extract s front >>= fun s => extract s back :=
  List.foldlM_append

theorem ArchiveAt.head_magic (h : ArchiveAt m a []) : hasMagic m a = false :=
  hasMagic_zero h.2

/-- With right steps the walk over an archive loads its members. -/
theorem loadMembers_eq_extract (harchive : ArchiveAt m a rest) (hsteps : StepsRight m a rest)
    (hfuel : rest.length < fuel) : loadMembers m fuel a s = extract s rest := by
  obtain ⟨n, rfl⟩ : ∃ n, fuel = n + 1 := ⟨fuel - 1, by omega⟩
  induction rest generalizing a s n with
  | nil => exact loadMembers_end harchive.head_magic
  | cons f rest ih =>
      obtain ⟨hf, hat, hnext⟩ := harchive
      rw [loadMembers_extract hf hat, extract_cons]
      rw [List.length_cons] at hfuel
      obtain ⟨k, rfl⟩ : ∃ k, n = k + 1 := ⟨n - 1, by omega⟩
      congr 1
      funext t
      cases rest with
      | nil => exact loadMembers_end hsteps
      | cons g rest =>
          obtain ⟨hright, hsteps'⟩ := hsteps
          have hfit := hnext.lt
          rw [nextHeader_right hright (by omega)]
          exact ih hnext hsteps' k (by omega)

theorem bind_eq_ok {ε α β : Type} {x : Except ε α} {g : α → Except ε β} {b : β} :
    x >>= g = .ok b ↔ ∃ a, x = .ok a ∧ g a = .ok b := by
  cases x with
  | error e => exact iff_of_false nofun nofun
  | ok a => simp [bind, Except.bind]

/-- If the rule of the source is right for every size, the walk visits every member. -/
theorem stepsRight_of_stepRight (harchive : ArchiveAt m a rest)
    (hright : ∀ f ∈ rest, StepRight f.data.length) : StepsRight m a rest := by
  induction rest generalizing a with
  | nil => trivial
  | cons f rest ih =>
      rw [List.forall_mem_cons] at hright
      obtain ⟨-, -, hnext⟩ := harchive
      have hfit := hnext.lt
      cases rest with
      | nil =>
          rw [StepsRight, nextHeader_right hright.1 (by omega)]
          exact hnext.head_magic
      | cons g rest => exact ⟨hright.1, ih hnext hright.2⟩

/-- Where nothing imitates a header, the walk loads the members up to the first wrong step. -/
theorem loadMembers_loads_front (harchive : ArchiveAt m a rest) (hclear : ¬ Imitated m a rest)
    (h : loadMembers m fuel a s = .ok s') :
    ∃ front, front <+: rest ∧ extract s front = .ok s' ∧ (front = rest → StepsRight m a rest) := by
  induction rest generalizing a s fuel with
  | nil =>
      cases fuel with
      | zero => cases h
      | succ fuel =>
          rw [loadMembers_end harchive.head_magic] at h
          exact ⟨[], List.nil_prefix, h, fun _ => trivial⟩
  | cons f rest ih =>
      obtain ⟨hf, hat, hnext⟩ := harchive
      rw [Imitated, not_or, not_and] at hclear
      cases fuel with
      | zero => cases h
      | succ fuel =>
          rw [loadMembers_extract hf hat, bind_eq_ok] at h
          obtain ⟨t, hload, hwalk⟩ := h
          by_cases hright : StepRight f.data.length
          · have hfit := hnext.lt
            rw [nextHeader_right hright (by omega)] at hwalk
            obtain ⟨front, hprefix, hextract, hsteps⟩ := ih hnext hclear.2 hwalk
            refine ⟨f :: front, List.cons_prefix_cons.mpr ⟨rfl, hprefix⟩, ?_, fun heq => ?_⟩
            · rw [extract_cons, hload]
              exact hextract
            · have hrest := hsteps (List.cons.inj heq).2
              cases rest with
              | nil =>
                  rw [StepsRight, nextHeader_right hright (by omega)]
                  exact hnext.head_magic
              | cons g rest => exact ⟨hright, hrest⟩
          · have hstop : hasMagic m (nextHeader a f.data.length) = false :=
              Bool.eq_false_of_not_eq_true (hclear.1 hright)
            cases fuel with
            | zero => cases hwalk
            | succ fuel =>
                rw [loadMembers_end hstop] at hwalk
                refine ⟨[f], List.cons_prefix_cons.mpr ⟨rfl, List.nil_prefix⟩, ?_, fun heq => ?_⟩
                · rw [extract_cons, hload]
                  exact hwalk
                · rw [← (List.cons.inj heq).2]
                  exact hstop

end Walk

section Modules

variable {m : Mem} {fuel : Nat} {s s' : TmpState} {archives : List (Nat × List Member)}

theorem tmpfsLoadUserapps_cons (a : Nat) (modules : List Nat) :
    tmpfsLoadUserapps m fuel (a :: modules) s =
      loadMembers m fuel a s >>= tmpfsLoadUserapps m fuel modules :=
  List.foldlM_cons

theorem loadUserapps_eq_extract (hmodules : ∀ p ∈ archives, ModuleAt m p.1 p.2)
    (hsteps : ∀ p ∈ archives, StepsRight m p.1 p.2)
    (hfuel : (archives.flatMap Prod.snd).length < fuel) :
    tmpfsLoadUserapps m fuel (archives.map Prod.fst) s =
      extract s (archives.flatMap Prod.snd) := by
  induction archives generalizing s with
  | nil => rfl
  | cons p archives ih =>
      rw [List.forall_mem_cons] at hmodules hsteps
      rw [List.flatMap_cons, List.length_append] at hfuel
      have hfirst : ∀ t, loadMembers m fuel p.1 t = extract t p.2 := by
        intro t
        obtain harchive | ⟨hnone, hstop⟩ := hmodules.1
        · exact loadMembers_eq_extract harchive hsteps.1 (by omega)
        · obtain ⟨n, rfl⟩ : ∃ n, fuel = n + 1 := ⟨fuel - 1, by omega⟩
          rw [hnone]
          exact loadMembers_end hstop
      rw [List.map_cons, tmpfsLoadUserapps_cons, hfirst, List.flatMap_cons, extract_append]
      congr 1
      funext t
      exact ih hmodules.2 hsteps.2 (by omega)

/-- All members were loaded only if all steps were right. -/
theorem loadUserapps_loads_front (hmodules : ∀ p ∈ archives, ModuleAt m p.1 p.2)
    (hclear : ∀ p ∈ archives, ¬ Imitated m p.1 p.2)
    (h : tmpfsLoadUserapps m fuel (archives.map Prod.fst) s = .ok s') :
    ∃ loaded, loaded.Sublist (archives.flatMap Prod.snd) ∧ extract s loaded = .ok s' ∧
      (loaded = archives.flatMap Prod.snd → ∀ p ∈ archives, StepsRight m p.1 p.2) := by
  induction archives generalizing s with
  | nil => exact ⟨[], List.Sublist.refl _, h, fun _ => nofun⟩
  | cons p archives ih =>
      rw [List.forall_mem_cons] at hmodules hclear
      rw [List.map_cons, tmpfsLoadUserapps_cons, bind_eq_ok] at h
      obtain ⟨t, hwalk, hrest⟩ := h
      obtain ⟨front, hprefix, hfront, hright⟩ : ∃ front, front <+: p.2 ∧
          extract s front = .ok t ∧ (front = p.2 → StepsRight m p.1 p.2) := by
        obtain harchive | ⟨hnone, hstop⟩ := hmodules.1
        · exact loadMembers_loads_front harchive hclear.1 hwalk
        · cases fuel with
          | zero => cases hwalk
          | succ fuel =>
              rw [loadMembers_end hstop] at hwalk
              rw [hnone]
              exact ⟨[], List.nil_prefix, hwalk, fun _ => trivial⟩
      obtain ⟨back, hsub, hback, hsteps⟩ := ih hmodules.2 hclear.2 hrest
      rw [List.flatMap_cons]
      refine ⟨front ++ back, hprefix.sublist.append hsub, ?_, fun heq => ?_⟩
      · rw [extract_append, hfront]
        exact hback
      · have hfull : front = p.2 := by
          have hlen := congrArg List.length heq
          rw [List.length_append, List.length_append] at hlen
          have hfrontlen := hprefix.length_le
          have hbacklen := hsub.length_le
          exact hprefix.eq_of_length (by omega)
        rw [hfull] at heq
        rw [List.forall_mem_cons]
        exact ⟨hright hfull, hsteps (List.append_cancel_left heq)⟩

end Modules

section Names

variable {s : Vfs.State} {tmp node vParent : Nat} {front leaf path : List Char} {f : Member}

theorem components_eq_nil_iff : components path = [] ↔ ∀ c ∈ path, c = '/' := by
  induction path with
  | nil => simp [components_nil]
  | cons c path ih =>
      by_cases hc : c = '/'
      · rw [hc, components_slash, ih, List.forall_mem_cons, and_iff_right rfl]
      · refine iff_of_false (fun hnil => ?_) fun hall => hc (hall c (by simp))
        have htok : (Flibc.strtokR (c :: path) ['/']).1 ≠ none :=
          strtokR_of_head (by simp) (by simpa using hc)
        rw [components_strtokR] at hnil
        cases hcases : Flibc.strtokR (c :: path) ['/'] with
        | mk tok rest =>
            rw [hcases] at htok hnil
            cases tok with
            | none => exact htok rfl
            | some tok => cases hnil

/-- What stands before the last slash of a member's path. -/
theorem components_tmp {chars : List Char} (hsplit : '/' :: chars = front ++ '/' :: leaf) :
    components (['/', 't', 'm', 'p'] ++ front) = ['t', 'm', 'p'] :: components front := by
  have htmp : components ['/', 't', 'm', 'p'] = [['t', 'm', 'p']] := by
    rw [components_slash, components_name (by simp) (by simp)]
  cases front with
  | nil => exact htmp
  | cons c front =>
      obtain rfl : '/' = c := (List.cons.inj hsplit).1
      rw [components_append, htmp, components_slash]
      rfl

/-- The entry of a member is what stands behind the last slash of its path exactly if nothing
but slashes stand before. -/
theorem entry_of_split (hsplit : '/' :: f.name.map ofByte = front ++ '/' :: leaf)
    (hslash : '/' ∉ leaf) :
    ('/' ∉ f.entry ↔ components front = []) ∧ (components front = [] → f.entry = leaf) := by
  have hentry : f.entry = (front ++ '/' :: leaf).dropWhile (· = '/') := by
    rw [← hsplit]
    rfl
  have hleaf : components front = [] → f.entry = leaf := by
    intro hnil
    have hall : ∀ c ∈ front, decide (c = '/') = true :=
      fun c hc => decide_eq_true (components_eq_nil_iff.mp hnil c hc)
    rw [hentry, List.dropWhile_append_of_pos hall]
    cases leaf with
    | nil => rfl
    | cons c leaf =>
        have hc : c ≠ '/' := fun heq => hslash (heq ▸ List.mem_cons_self)
        simp [hc]
  refine ⟨⟨fun hno => ?_, fun hnil => hleaf hnil ▸ hslash⟩, hleaf⟩
  rw [components_eq_nil_iff]
  by_contra hother
  have hkept : (front.dropWhile (· = '/')).isEmpty = false := by
    rw [List.isEmpty_eq_false_iff, ne_eq, List.dropWhile_eq_nil_iff]
    simpa using hother
  rw [hentry, List.dropWhile_append, if_neg (by simp [hkept])] at hno
  exact hno (by simp)

theorem tmpPath_entry (hno : '/' ∉ f.entry) (hne : f.entry ≠ []) :
    components (tmpPath f.name) = [['t', 'm', 'p'], f.entry] := by
  obtain ⟨front, leaf, hsplit, hslash, hpath⟩ := tmpPath_split f.name
  obtain ⟨hnil, hleaf⟩ := entry_of_split hsplit hslash
  have hfront := hnil.mp hno
  rw [hpath, components_append, components_tmp hsplit, hfront, ← hleaf hfront,
    components_name hne hno]
  rfl

theorem entry_ne_nil {name : List Char}
    (h : components (tmpPath f.name) = [['t', 'm', 'p'], name]) : f.entry ≠ [] := by
  intro hempty
  have hall : ∀ c ∈ '/' :: f.name.map ofByte, c = '/' := by
    have hdrop := List.dropWhile_eq_nil_iff.mp hempty
    rw [List.forall_mem_cons]
    exact ⟨rfl, fun c hc => of_decide_eq_true (hdrop c hc)⟩
  have hpath : components (tmpPath f.name) = components ['/', 't', 'm', 'p'] ++
      components (f.name.map ofByte) := components_append ['/', 't', 'm', 'p'] _
  rw [List.forall_mem_cons] at hall
  rw [hpath, components_eq_nil_iff.mpr hall.2, components_slash,
    components_name (by simp) (by simp)] at h
  cases h

theorem resolves_tmp {chars : List Char} (h : TmpMounted s tmp)
    (hsplit : '/' :: chars = front ++ '/' :: leaf) :
    Resolves s vRoot (['/', 't', 'm', 'p'] ++ front) node ↔
      Reaches s tmp (components front) node := by
  have hnames : lookupNames s vRoot (['/', 't', 'm', 'p'] ++ front) =
      some (['t', 'm', 'p'] :: components front) := by
    rw [← components_tmp hsplit]
    rfl
  have htmp : ChildNamed s vRoot ['t', 'm', 'p'] tmp := vfsGetChild_eq_some_iff.mp h.found
  rw [Resolves, if_neg (by simp), hnames]
  simp only [Option.some.injEq, exists_eq_left', Reaches]
  constructor
  · rintro ⟨-, -, child, hchild, hreach⟩
    exact htmp.unique hchild ▸ hreach
  · intro hreach
    exact ⟨h.root_dir, h.root_dir, tmp, htmp, hreach⟩

/-- There are no directories below `/tmp`. -/
theorem directory_below {names : List (List Char)} (h : TmpMounted s tmp)
    (hreach : Reaches s tmp names node) (hdir : (s.nodes node).vType = .vdir) : names = [] := by
  cases names with
  | nil => rfl
  | cons name names =>
      obtain ⟨-, child, hchild, hrest⟩ := hreach
      have hfile := h.files child
        (mem_of_vfsGetChild (vfsGetChild_eq_some_iff.mpr hchild)).1
      cases names with
      | nil =>
          rw [hrest, hfile.type] at hdir
          cases hdir
      | cons name' names =>
          have hchild_dir : sIsDir (s.nodes child).stat.stMode = true := hrest.1
          rw [hfile.no_dir] at hchild_dir
          cases hchild_dir

/-- A member becomes an entry of `/tmp`, and nothing else is a directory for it. -/
theorem creates_iff (h : TmpMounted s tmp) (hlen : f.name.length ≤ 58) :
    Creates s f.name vParent leaf ↔ '/' ∉ f.entry ∧ vParent = tmp ∧ leaf = f.entry := by
  obtain ⟨front, last, hsplit, hslash, hpath⟩ := tmpPath_split f.name
  obtain ⟨hnil, hleaf⟩ := entry_of_split hsplit hslash
  have hsize : (tmpPath f.name).length < vnodeNameMax := by
    simp only [tmpPath, List.length_append, List.length_map, List.length_cons, List.length_nil,
      vnodeNameMax]
    omega
  have hshort : (['/', 't', 'm', 'p'] ++ front).length < vnodePathMax := by
    rw [hpath, List.length_append, List.length_cons] at hsize
    exact Nat.lt_trans (by omega) (Nat.lt_of_lt_of_le hsize (by decide))
  have htarget : createTarget s vRoot (tmpPath f.name) = .done (vParent, leaf) ↔
      leaf = last ∧ Reaches s tmp (components front) vParent := by
    rw [hpath] at hsize ⊢
    rw [createTarget_append hslash hsize, vfsPathToNode_done_iff hshort, resolves_tmp h hsplit]
  rw [hnil]
  constructor
  · intro hcreates
    obtain ⟨rfl, hreach⟩ := htarget.mp hcreates.target
    have hempty := directory_below h hreach hcreates.directory
    rw [hempty] at hreach
    exact ⟨hempty, hreach, (hleaf hempty).symm⟩
  · rintro ⟨hempty, rfl, rfl⟩
    refine ⟨htarget.mpr ⟨hleaf hempty, ?_⟩, h.tmp_type, .inr h.tmp_dir⟩
    rw [hempty]
    rfl

end Names

/-- The state after a member was loaded into `/tmp`. -/
def TmpState.added (s : TmpState) (tmp : Nat) (f : Member) : TmpState :=
  TmpState.written {s with vfs := linkNode s.vfs tmp f.entry .vreg} f.byte
    (openedNode s.vfs tmp f.entry) f.data.length 0

section Loading

variable {s s' : TmpState} {tmp node : Nat} {f : Member}

theorem TmpMounted.tmp_lt {s : Vfs.State} (h : TmpMounted s tmp) : tmp < s.nodeCount :=
  h.children.children vRoot h.children.root tmp (mem_of_vfsGetChild h.found).1

theorem TmpMounted.child_lt {s : Vfs.State} (h : TmpMounted s tmp) {c : Nat}
    (hc : c ∈ (s.nodes tmp).vChildren) : c < s.nodeCount :=
  h.children.children tmp h.tmp_lt c hc

theorem TmpMounted.child_ne {s : Vfs.State} (h : TmpMounted s tmp) {c : Nat}
    (hc : c ∈ (s.nodes tmp).vChildren) : c ≠ tmp := by
  rintro rfl
  have htype := h.tmp_type
  rw [(h.files c hc).type] at htype
  cases htype

theorem TmpMounted.root_ne {s : Vfs.State} (h : TmpMounted s tmp) : vRoot ≠ tmp := by
  intro heq
  have hchild := (mem_of_vfsGetChild h.found).1
  rw [heq] at hchild
  exact h.child_ne hchild rfl

theorem linkNode_other {s : Vfs.State} {name : List Char} {i : Nat} (hi : i < s.nodeCount)
    (hne : i ≠ tmp) : (linkNode s tmp name .vreg).nodes i = s.nodes i := by
  have hcount : i ≠ s.nodeCount := Nat.ne_of_lt hi
  simp [linkNode, hcount, hne]

theorem linkNode_tmp {s : Vfs.State} (h : TmpMounted s tmp) (name : List Char) :
    (linkNode s tmp name .vreg).nodes tmp =
      {s.nodes tmp with vChildren := (s.nodes tmp).vChildren ++ [s.nodeCount]} := by
  have hne : tmp ≠ s.nodeCount := Nat.ne_of_lt h.tmp_lt
  simp [linkNode, hne]

/-- Another file in `/tmp`. -/
theorem TmpMounted.link {s : Vfs.State} (h : TmpMounted s tmp) (name : List Char) :
    TmpMounted (linkNode s tmp name .vreg) tmp := by
  have hroot : (linkNode s tmp name .vreg).nodes vRoot = s.nodes vRoot :=
    linkNode_other h.children.root h.root_ne
  have htmp := linkNode_tmp h name
  refine ⟨childrenOk_linkNode h.children, ?_, ?_, ?_, ?_, ?_, fun c hc => ?_⟩
  · rw [IsDir, hroot]
    exact h.root_dir
  · exact vfsGetChild_eq_some_iff.mpr
      ((vfsGetChild_eq_some_iff.mp h.found).link h.children h.children.root)
  · rw [IsDir, htmp]
    exact h.tmp_dir
  · rw [htmp]
    exact h.tmp_type
  · rw [htmp]
    exact h.tmp_ops
  · rw [htmp, List.mem_append, List.mem_singleton] at hc
    rcases hc with hc | rfl
    · rw [linkNode_other (h.child_lt hc) (h.child_ne hc)]
      exact h.files c hc
    · have hreg : sIsDir sIfreg = false := by decide
      rw [linkNode_new_mounted h.tmp_ops]
      exact ⟨rfl, hreg, rfl, Nat.succ_ne_zero 4095⟩

/-- A write to a node changes its size only. -/
theorem vfsGetChild_written {buff : Nat → UInt8} {size offset : Nat} (parent : Nat)
    (name : List Char) : vfsGetChild (s.written buff node size offset).vfs parent name =
      vfsGetChild s.vfs parent name := by
  have hsame : ∀ i, ((s.written buff node size offset).vfs.nodes i).vName =
        (s.vfs.nodes i).vName ∧
      ((s.written buff node size offset).vfs.nodes i).vChildren = (s.vfs.nodes i).vChildren := by
    intro i
    obtain ⟨stat, -, -, hnode⟩ := written_nodes s buff node size offset i
    rw [hnode]
    exact ⟨rfl, rfl⟩
  rw [vfsGetChild, vfsGetChild, (hsame parent).2]
  congr 1
  funext c
  rw [(hsame c).1]

theorem TmpMounted.written {buff : Nat → UInt8} {size offset : Nat} (h : TmpMounted s.vfs tmp) :
    TmpMounted (s.written buff node size offset).vfs tmp := by
  have hnodes := written_nodes s buff node size offset
  have hdirs : ∀ i, IsDir s.vfs i → IsDir (s.written buff node size offset).vfs i := by
    intro i hdir
    obtain ⟨stat, hmode, -, hnode⟩ := hnodes i
    rw [IsDir, hnode, hmode]
    exact hdir
  obtain ⟨stat, -, -, htmp⟩ := hnodes tmp
  refine ⟨⟨h.children.root, fun p hp c hc => ?_⟩, hdirs _ h.root_dir, ?_, hdirs _ h.tmp_dir, ?_,
    ?_, fun c hc => ?_⟩
  · obtain ⟨stat, -, -, hnode⟩ := hnodes p
    rw [hnode] at hc
    exact h.children.children p hp c hc
  · rw [vfsGetChild_written]
    exact h.found
  · rw [htmp]
    exact h.tmp_type
  · rw [htmp]
    exact h.tmp_ops
  · rw [htmp] at hc
    obtain ⟨stat, hmode, hblock, hnode⟩ := hnodes c
    obtain ⟨htype, hdir, hops, hsize⟩ := h.files c hc
    rw [hnode]
    exact ⟨htype, hmode ▸ hdir, hops, hblock ▸ hsize⟩

theorem TmpMounted.added (h : TmpMounted s.vfs tmp) (f : Member) :
    TmpMounted (s.added tmp f).vfs tmp :=
  (h.link f.entry).written

/-- Loading a member succeeds exactly if its entry is a name. -/
theorem loadFile_added (h : TmpMounted s.vfs tmp) (hf : f.Ok) (hne : f.entry ≠ []) :
    loadFile s f.name f.byte f.data.length = .ok s' ↔ '/' ∉ f.entry ∧ s' = s.added tmp f := by
  have hload : '/' ∉ f.entry →
      loadFile s f.name f.byte f.data.length = .ok (s.added tmp f) := by
    intro hno
    have hlinked := h.link f.entry
    have hchild : ChildNamed (linkNode s.vfs tmp f.entry .vreg) tmp f.entry
        (openedNode s.vfs tmp f.entry) := childNamed_opened h.children h.tmp_lt hne
    have hfile := hlinked.files _ (mem_of_vfsGetChild (vfsGetChild_eq_some_iff.mpr hchild)).1
    have hword : sizeOfInt f.data.length = f.data.length := by
      have hsize := hf.size
      unfold sizeOfInt
      omega
    rw [loadFile_eq h.children hf.name_length ((creates_iff h hf.name_length).mpr ⟨hno, rfl, rfl⟩),
      hword]
    exact vfsWrite_file hfile.writable hf.size _
  constructor
  · intro hok
    obtain ⟨vParent, leaf, hcreates⟩ := creates_of_loadFile h.children hf.name_length hok
    have hno := ((creates_iff h hf.name_length).mp hcreates).1
    exact ⟨hno, Except.ok.inj (hok.symm.trans (hload hno))⟩
  · rintro ⟨hno, rfl⟩
    exact hload hno

/-- The new node, and what loading a member leaves as it was. -/
structure Adds (s s' : TmpState) (tmp : Nat) (f : Member) : Prop where
  count : s'.vfs.nodeCount = s.vfs.nodeCount + 1
  children : (s'.vfs.nodes tmp).vChildren = (s.vfs.nodes tmp).vChildren ++ [s.vfs.nodeCount]
  name : (s'.vfs.nodes s.vfs.nodeCount).vName = f.entry
  type : (s'.vfs.nodes s.vfs.nodeCount).vType = .vreg
  parent : (s'.vfs.nodes s.vfs.nodeCount).vParent = some tmp
  kept : ∀ j, j < s.vfs.nodeCount → (s'.vfs.nodes j).vName = (s.vfs.nodes j).vName ∧
    (s'.vfs.nodes j).vType = (s.vfs.nodes j).vType ∧
    (s'.vfs.nodes j).vParent = (s.vfs.nodes j).vParent
  found : ∀ name c, vfsGetChild s.vfs tmp name = some c → vfsGetChild s'.vfs tmp name = some c
  free : ∀ name, vfsGetChild s'.vfs tmp name = none ↔
    vfsGetChild s.vfs tmp name = none ∧ name ≠ f.entry
  data : ∀ j, j ≠ openedNode s.vfs tmp f.entry → s'.data j = s.data j

theorem adds_added (h : TmpMounted s.vfs tmp) (f : Member) : Adds s (s.added tmp f) tmp f := by
  obtain ⟨linked, hlinked⟩ : ∃ linked, linkNode s.vfs tmp f.entry .vreg = linked := ⟨_, rfl⟩
  have hadded : s.added tmp f = TmpState.written {s with vfs := linked} f.byte
      (openedNode s.vfs tmp f.entry) f.data.length 0 := by
    rw [← hlinked]
    rfl
  have hnodes := written_nodes {s with vfs := linked} f.byte (openedNode s.vfs tmp f.entry)
    f.data.length 0
  have hchild : ∀ name, vfsGetChild (s.added tmp f).vfs tmp name = vfsGetChild linked tmp name :=
    fun name => hadded ▸ vfsGetChild_written tmp name
  have hnew := @linkNode_new_mounted s.vfs tmp f.entry .vreg _ h.tmp_ops
  have htmp := linkNode_tmp h f.entry
  rw [hlinked] at hnew htmp
  rw [← hadded] at hnodes
  obtain ⟨stat, -, -, hnewnode⟩ := hnodes s.vfs.nodeCount
  obtain ⟨stat', -, -, htmpnode⟩ := hnodes tmp
  dsimp only at hnewnode htmpnode
  rw [hnew] at hnewnode
  rw [htmp] at htmpnode
  refine ⟨?_, ?_, ?_, ?_, ?_, fun j hj => ?_, fun name c hc => ?_, fun name => ?_, fun j hj => ?_⟩
  · rw [hadded, ← hlinked]
    rfl
  · rw [htmpnode]
  · rw [hnewnode]
  · rw [hnewnode]
  · rw [hnewnode]
  · obtain ⟨stat'', -, -, hnode⟩ := hnodes j
    obtain ⟨hname, hparent, htype, -⟩ := @linkNode_old s.vfs tmp f.entry .vreg j hj
    rw [hlinked] at hname hparent htype
    rw [hnode]
    exact ⟨hname, htype, hparent⟩
  · rw [hchild, ← hlinked]
    exact vfsGetChild_eq_some_iff.mpr
      ((vfsGetChild_eq_some_iff.mp hc).link h.children h.tmp_lt)
  · have hold : ∀ c ∈ (s.vfs.nodes tmp).vChildren,
        (linked.nodes c).vName = (s.vfs.nodes c).vName := by
      intro c hc
      rw [← hlinked, linkNode_other (h.child_lt hc) (h.child_ne hc)]
    rw [hchild, vfsGetChild, vfsGetChild, htmp, List.find?_eq_none, List.find?_eq_none,
      List.forall_mem_append]
    refine and_congr (forall₂_congr fun c hc => ?_) ?_
    · rw [hold c hc]
    · simp [hnew, eq_comm]
  · rw [hadded]
    exact Function.update_of_ne hj _ _

end Loading

def TmpState.addAll (s : TmpState) (tmp : Nat) (members : List Member) : TmpState :=
  members.foldl (fun s f => s.added tmp f) s

/-- The new nodes, and what loading members leaves as it was. -/
structure AddsAll (s s' : TmpState) (tmp : Nat) (members : List Member) : Prop where
  mounted : TmpMounted s'.vfs tmp
  count : s'.vfs.nodeCount = s.vfs.nodeCount + members.length
  children : (s'.vfs.nodes tmp).vChildren =
    (s.vfs.nodes tmp).vChildren ++ List.range' s.vfs.nodeCount members.length
  free : ∀ name, vfsGetChild s'.vfs tmp name = none ↔
    vfsGetChild s.vfs tmp name = none ∧ name ∉ members.map Member.entry
  above : ∀ j, s'.vfs.nodeCount ≤ j → s'.data j = s.data j

/-- A file in `/tmp` that another one hides: a lookup of its name finds the other one. -/
def Hidden (s : Vfs.State) (tmp node : Nat) : Prop :=
  node ∈ (s.nodes tmp).vChildren ∧
    ∃ c, c ≠ node ∧ vfsGetChild s tmp (s.nodes node).vName = some c

section Members

variable {s s' : TmpState} {tmp node : Nat} {f : Member} {members front : List Member}

theorem addAll_append (s : TmpState) (tmp : Nat) (front back : List Member) :
    s.addAll tmp (front ++ back) = (s.addAll tmp front).addAll tmp back :=
  List.foldl_append

theorem addAll_snoc (s : TmpState) (tmp : Nat) (front : List Member) (f : Member) :
    s.addAll tmp (front ++ [f]) = (s.addAll tmp front).added tmp f :=
  addAll_append s tmp front [f]

theorem extract_ok_iff (h : TmpMounted s.vfs tmp) (hok : ∀ f ∈ members, f.Ok)
    (hne : ∀ f ∈ members, f.entry ≠ []) :
    extract s members = .ok s' ↔ (∀ f ∈ members, '/' ∉ f.entry) ∧ s' = s.addAll tmp members := by
  induction members generalizing s with
  | nil =>
      constructor
      · intro hload
        exact ⟨nofun, (Except.ok.inj hload).symm⟩
      · rintro ⟨-, rfl⟩
        rfl
  | cons f members ih =>
      rw [List.forall_mem_cons] at hok hne ⊢
      rw [extract_cons, bind_eq_ok]
      simp only [loadFile_added h hok.1 hne.1]
      constructor
      · rintro ⟨t, ⟨hno, rfl⟩, hrest⟩
        obtain ⟨hall, heq⟩ := (ih (h.added f) hok.2 hne.2).mp hrest
        exact ⟨⟨hno, hall⟩, heq⟩
      · rintro ⟨⟨hno, hall⟩, heq⟩
        exact ⟨_, ⟨hno, rfl⟩, (ih (h.added f) hok.2 hne.2).mpr ⟨hall, heq⟩⟩

theorem openedNode_le {s : Vfs.State} (h : TmpMounted s tmp) {name : List Char} (hne : name ≠ []) :
    openedNode s tmp name ≤ s.nodeCount := by
  rw [openedNode, if_neg hne]
  cases hchild : vfsGetChild s tmp name with
  | none => exact Nat.le_refl _
  | some c => exact Nat.le_of_lt (h.child_lt (mem_of_vfsGetChild hchild).1)

theorem addsAll_addAll (h : TmpMounted s.vfs tmp) (hne : ∀ f ∈ members, f.entry ≠ []) :
    AddsAll s (s.addAll tmp members) tmp members := by
  induction members using List.reverseRecOn with
  | nil =>
      refine ⟨h, rfl, (List.append_nil _).symm, fun name => ?_, fun j _ => rfl⟩
      simp [TmpState.addAll]
  | append_singleton front f ih =>
      rw [List.forall_mem_append] at hne
      obtain ⟨hmounted, hcount, hchildren, hfree, habove⟩ := ih hne.1
      have hadds := adds_added hmounted f
      have hle := openedNode_le hmounted (hne.2 f (by simp))
      rw [addAll_snoc]
      refine ⟨hmounted.added f, ?_, ?_, fun name => ?_, fun j hj => ?_⟩
      · rw [hadds.count, hcount, List.length_append, List.length_singleton, Nat.add_assoc]
      · rw [hadds.children, hchildren, hcount, List.length_append, List.length_singleton,
          List.range'_concat, Nat.one_mul, List.append_assoc]
      · rw [hadds.free, hfree, List.map_append, List.mem_append, not_or, and_assoc]
        simp
      · rw [hadds.count] at hj
        rw [hadds.data j (by omega), habove j (by omega)]

theorem written_nothing (s : TmpState) (buff : Nat → UInt8) (node : Nat) :
    s.written buff node 0 0 = s := by
  have hstat : statAfterWrite (s.vfs.nodes node).stat 0 0 = (s.vfs.nodes node).stat := by
    simp [statAfterWrite, newBlockSize, add64]
  have hdata : (fun k => if 0 ≤ k ∧ k < 0 + 0 then buff (k - 0) else s.data node k) =
      s.data node := by
    funext k
    rw [if_neg (by omega)]
  have hnodes : Function.update s.vfs.nodes node (s.vfs.nodes node) = s.vfs.nodes :=
    Function.update_eq_self node _
  rw [TmpState.written, hstat, hdata, Function.update_eq_self, TmpState.setStat]
  dsimp only
  rw [hnodes]

/-- A member without data, or with a free name, leaves the files as they are and gets its data. -/
theorem added_fits (hne : f.entry ≠ [])
    (hfits : f.data ≠ [] → vfsGetChild s.vfs tmp f.entry = none) :
    (∀ j, j < s.vfs.nodeCount → j ≠ tmp → (s.added tmp f).vfs.nodes j = s.vfs.nodes j) ∧
      (∀ j, j < s.vfs.nodeCount → (s.added tmp f).data j = s.data j) ∧
      ∀ k (hk : k < f.data.length), (s.added tmp f).data s.vfs.nodeCount k = f.data[k] := by
  by_cases hempty : f.data = []
  · have hadded : s.added tmp f = {s with vfs := linkNode s.vfs tmp f.entry .vreg} := by
      rw [TmpState.added, hempty]
      exact written_nothing _ _ _
    rw [hadded, hempty]
    exact ⟨fun j hj hjtmp => linkNode_other hj hjtmp, fun _ _ => rfl, nofun⟩
  · have hopened : openedNode s.vfs tmp f.entry = s.vfs.nodeCount := by
      rw [openedNode, if_neg hne, hfits hempty]
      rfl
    rw [TmpState.added, hopened]
    refine ⟨fun j hj hjtmp => ?_, fun j hj => Function.update_of_ne (Nat.ne_of_lt hj) _ _,
      fun k hk => ?_⟩
    · rw [written_other (Nat.ne_of_lt hj)]
      exact linkNode_other hj hjtmp
    · simp [TmpState.written, hk, Member.byte]

theorem NamesFit.initial {vfs : Vfs.State} (h : NamesFit vfs tmp (front ++ [f])) :
    NamesFit vfs tmp front where
  nonempty g hg := h.nonempty g (List.mem_append_left _ hg)
  no_slash g hg := h.no_slash g (List.mem_append_left _ hg)
  free before g after heq := h.free before g (after ++ [f]) (by rw [heq]; simp)

/-- Members with fitting names become files. -/
theorem extracted_addAll (h : TmpMounted s.vfs tmp) (hfit : NamesFit s.vfs tmp members) :
    Extracted s (s.addAll tmp members) tmp members := by
  induction members using List.reverseRecOn with
  | nil =>
      exact ⟨rfl, (List.append_nil _).symm, fun _ hi => absurd hi (Nat.not_lt_zero _),
        fun _ _ _ => rfl, fun _ _ => rfl⟩
  | append_singleton front f ih =>
      have hold := ih hfit.initial
      have hne : ∀ g ∈ front ++ [f], g.entry ≠ [] := hfit.nonempty
      have hall := addsAll_addAll h hne
      obtain ⟨hmounted, hcount, -, hfree, -⟩ := addsAll_addAll h hfit.initial.nonempty
      have hlast : f ∈ front ++ [f] := by simp
      have hadds := adds_added hmounted f
      obtain ⟨hothers, hdata, hnew⟩ := added_fits (hne f hlast) fun hf =>
        (hfree f.entry).mpr (hfit.free front f [] rfl hf)
      rw [addAll_snoc] at hall ⊢
      refine ⟨hall.count, hall.children, fun i hi => ?_, fun j hj hjtmp => ?_, fun j hj => ?_⟩
      · rw [List.length_append, List.length_singleton] at hi
        rcases Nat.lt_or_ge i front.length with hlt | hge
        · obtain ⟨hpath, htype, hparent, hbytes⟩ := hold.file i hlt
          have hbelow : s.vfs.nodeCount + i < (s.addAll tmp front).vfs.nodeCount := by omega
          have hother : s.vfs.nodeCount + i ≠ tmp := by
            have htmp := h.tmp_lt
            omega
          rw [List.getElem_append_left hlt]
          refine ⟨?_, ?_, ?_, fun k hk => ?_⟩
          · rw [hothers _ hbelow hother, hpath]
          · rw [hothers _ hbelow hother, htype]
          · rw [hothers _ hbelow hother, hparent]
          · rw [hdata _ hbelow, hbytes k hk]
        · obtain rfl : i = front.length := by omega
          simp only [List.getElem_concat_length]
          rw [← hcount]
          refine ⟨?_, hadds.type, hadds.parent, hnew⟩
          rw [hadds.name]
          exact tmpPath_entry (hfit.no_slash f hlast) (hne f hlast)
      · rw [hothers j (by omega) hjtmp, hold.others j hj hjtmp]
      · rw [hdata j (by omega), hold.others_data j hj]

/-- What is hidden is never written and stays hidden. -/
theorem Hidden.added (h : TmpMounted s.vfs tmp) (hne : f.entry ≠ []) (hj : Hidden s.vfs tmp node) :
    Hidden (s.added tmp f).vfs tmp node ∧ (s.added tmp f).data node = s.data node := by
  obtain ⟨hmem, c, hc, hfound⟩ := hj
  have hadds := adds_added h f
  have hlt := h.child_lt hmem
  refine ⟨⟨?_, c, hc, ?_⟩, hadds.data node ?_⟩
  · rw [hadds.children]
    exact List.mem_append_left _ hmem
  · rw [(hadds.kept node hlt).1]
    exact hadds.found _ c hfound
  · intro heq
    rw [openedNode, if_neg hne] at heq
    cases hchild : vfsGetChild s.vfs tmp f.entry with
    | none =>
        rw [hchild] at heq
        exact Nat.ne_of_lt hlt heq
    | some c' =>
        -- the node that is written is the first one of its name
        obtain rfl : node = c' := by
          rw [hchild] at heq
          exact heq
        rw [(mem_of_vfsGetChild hchild).2, hchild] at hfound
        exact hc (Option.some.inj hfound).symm

theorem Hidden.addAll (h : TmpMounted s.vfs tmp) (hne : ∀ f ∈ members, f.entry ≠ [])
    (hj : Hidden s.vfs tmp node) : (s.addAll tmp members).data node = s.data node := by
  induction members generalizing s with
  | nil => rfl
  | cons f members ih =>
      rw [List.forall_mem_cons] at hne
      obtain ⟨hhidden, hdata⟩ := hj.added h hne.1
      exact (ih (h.added f) hne.2 hhidden).trans hdata

/-- A member with a name that is taken leaves its own node as it was. -/
theorem added_taken (h : TmpMounted s.vfs tmp) (hne : f.entry ≠ [])
    (htaken : vfsGetChild s.vfs tmp f.entry ≠ none) :
    Hidden (s.added tmp f).vfs tmp s.vfs.nodeCount ∧
      (s.added tmp f).data s.vfs.nodeCount = s.data s.vfs.nodeCount := by
  obtain ⟨c, hc⟩ := Option.ne_none_iff_exists'.mp htaken
  have hlt := h.child_lt (mem_of_vfsGetChild hc).1
  have hadds := adds_added h f
  refine ⟨⟨?_, c, Nat.ne_of_lt hlt, ?_⟩, hadds.data _ ?_⟩
  · rw [hadds.children]
    simp
  · rw [hadds.name]
    exact hadds.found _ c hc
  · rw [openedNode, if_neg hne, hc]
    exact Nat.ne_of_gt hlt

/-- If the members become files whatever the new blocks hold, their names fit. -/
theorem namesFit_of_extracted {vfs : Vfs.State} (h : TmpMounted vfs tmp)
    (hok : ∀ f ∈ members, f.Ok)
    (hall : ∀ data, ∃ s', extract ⟨vfs, data⟩ members = .ok s' ∧
      Extracted ⟨vfs, data⟩ s' tmp members) : NamesFit vfs tmp members := by
  have hne : ∀ f ∈ members, f.entry ≠ [] := by
    obtain ⟨s', -, hextracted⟩ := hall fun _ _ => 0
    intro f hf
    obtain ⟨i, hi, rfl⟩ := List.getElem_of_mem hf
    exact entry_ne_nil (hextracted.file i hi).path
  refine ⟨hne, ?_, ?_⟩
  · obtain ⟨s', hload, -⟩ := hall fun _ _ => 0
    exact ((extract_ok_iff h hok hne).mp hload).1
  · rintro before f after rfl hdata
    rw [List.forall_mem_append, List.forall_mem_cons] at hne
    have hpos : 0 < f.data.length := List.length_pos_iff.mpr hdata
    obtain ⟨s', hload, hextracted⟩ := hall fun _ _ => f.data[0] + 1
    have hs' := ((extract_ok_iff h hok (by
      rw [List.forall_mem_append, List.forall_mem_cons]
      exact hne)).mp hload).2
    obtain ⟨hmounted, hcount, -, hfree, habove⟩ :=
      addsAll_addAll (s := ⟨vfs, fun _ _ => f.data[0] + 1⟩) h hne.1
    by_contra htaken
    rw [← hfree] at htaken
    obtain ⟨hhidden, hnode⟩ := added_taken hmounted hne.2.1 htaken
    have hkept := hhidden.addAll (hmounted.added f) hne.2.2
    rw [hnode, habove _ (Nat.le_refl _)] at hkept
    -- the node still holds what it held before
    have hfile := (hextracted.file before.length (by simp)).data 0 (by simpa using hpos)
    rw [hs', addAll_append] at hfile
    simp only [List.getElem_append_right (Nat.le_refl _), Nat.sub_self,
      List.getElem_cons_zero] at hfile
    rw [← hcount] at hfile
    have hbyte := (congrFun hkept 0).symm.trans hfile
    exact absurd hbyte (by simp)

end Members

section Main

variable {m : Mem} {a tmp : Nat} {members : List Member}

theorem ArchiveAt.ok (h : ArchiveAt m a members) : ∀ f ∈ members, f.Ok := by
  induction members generalizing a with
  | nil => nofun
  | cons f members ih => exact List.forall_mem_cons.mpr ⟨h.1, ih h.2.2⟩

theorem ModuleAt.ok (h : ModuleAt m a members) : ∀ f ∈ members, f.Ok := by
  obtain harchive | ⟨rfl, -⟩ := h
  · exact harchive.ok
  · exact nofun

theorem modules_ok {archives : List (Nat × List Member)}
    (hmodules : ∀ p ∈ archives, ModuleAt m p.1 p.2) : ∀ f ∈ archives.flatMap Prod.snd, f.Ok := by
  intro f hf
  obtain ⟨p, hp, hfp⟩ := List.mem_flatMap.mp hf
  exact (hmodules p hp).ok f hfp

/-- Where nothing imitates a header, a run that extracts the modules loads every member, and all
of its steps are right. -/
theorem loads_all {fuel : Nat} {s s' : TmpState} {archives : List (Nat × List Member)}
    (hmodules : ∀ p ∈ archives, ModuleAt m p.1 p.2) (htmp : TmpMounted s.vfs tmp)
    (hclear : ∀ p ∈ archives, ¬ Imitated m p.1 p.2)
    (hload : tmpfsLoadUserapps m fuel (archives.map Prod.fst) s = .ok s')
    (hextracted : Extracted s s' tmp (archives.flatMap Prod.snd)) :
    extract s (archives.flatMap Prod.snd) = .ok s' ∧ ∀ p ∈ archives, StepsRight m p.1 p.2 := by
  obtain ⟨loaded, hsub, hloaded, hsteps⟩ := loadUserapps_loads_front hmodules hclear hload
  have hne : ∀ f ∈ loaded, f.entry ≠ [] := by
    intro f hf
    obtain ⟨i, hi, rfl⟩ := List.getElem_of_mem (hsub.subset hf)
    exact entry_ne_nil (hextracted.file i hi).path
  have hok : ∀ f ∈ loaded, f.Ok := fun f hf => modules_ok hmodules f (hsub.subset hf)
  have hstate := ((extract_ok_iff htmp hok hne).mp hloaded).2
  have hcount := (addsAll_addAll htmp hne).count
  rw [← hstate, hextracted.count] at hcount
  have hfull : loaded = archives.flatMap Prod.snd := hsub.eq_of_length (by omega)
  exact ⟨hfull ▸ hloaded, hsteps hfull⟩

/-- The modules are extracted if all steps of the loader are right and the names fit; and unless
a wrong step leads to what looks like a header, only then. -/
theorem tmpfs_extracts_archives (m : Mem) (archives : List (Nat × List Member)) (vfs : Vfs.State)
    (tmp : Nat) (hmodules : ∀ p ∈ archives, ModuleAt m p.1 p.2) (htmp : TmpMounted vfs tmp) :
    ((∀ p ∈ archives, StepsRight m p.1 p.2) ∧ NamesFit vfs tmp (archives.flatMap Prod.snd) →
      Extracts m archives vfs tmp) ∧
    (Extracts m archives vfs tmp → (∃ p ∈ archives, Imitated m p.1 p.2) ∨
      (∀ p ∈ archives, StepsRight m p.1 p.2) ∧
        NamesFit vfs tmp (archives.flatMap Prod.snd)) := by
  have hok := modules_ok hmodules
  constructor
  · rintro ⟨hsteps, hfit⟩ data
    refine ⟨(archives.flatMap Prod.snd).length + 1,
      TmpState.addAll ⟨vfs, data⟩ tmp (archives.flatMap Prod.snd), ?_, extracted_addAll htmp hfit⟩
    rw [loadUserapps_eq_extract hmodules hsteps (Nat.lt_succ_self _)]
    exact (extract_ok_iff htmp hok hfit.nonempty).mpr ⟨hfit.no_slash, rfl⟩
  · intro hextracts
    by_cases himitated : ∃ p ∈ archives, Imitated m p.1 p.2
    · exact .inl himitated
    · have hclear : ∀ p ∈ archives, ¬ Imitated m p.1 p.2 :=
        fun p hp hi => himitated ⟨p, hp, hi⟩
      refine .inr ⟨?_, namesFit_of_extracted htmp hok fun data => ?_⟩
      · obtain ⟨fuel, s', hload, hextracted⟩ := hextracts fun _ _ => 0
        exact (loads_all hmodules htmp hclear hload hextracted).2
      · obtain ⟨fuel, s', hload, hextracted⟩ := hextracts data
        exact ⟨s', (loads_all hmodules htmp hclear hload hextracted).1, hextracted⟩

end Main

section Example

theorem bootTree_mounted : TmpMounted bootTree 1 where
  children := bootTree_ready.children
  root_dir := rfl
  found := by decide
  tmp_dir := rfl
  tmp_type := rfl
  tmp_ops := rfl
  files c hc := by simp [bootTree, fsMount, vfsAllocNode] at hc

/-- An empty file and one with 600 bytes, and a second archive with the empty file again. -/
def firstMembers : List Member := [⟨[0x61], []⟩, ⟨[0x2f, 0x62], List.replicate 600 7⟩]
def secondMembers : List Member := [⟨[0x61], []⟩, ⟨[0x63], List.replicate 600 9⟩]

/-- The second archive stands at 4096. -/
def twoModules : Mem := fun i =>
  if i < 4096 then tarArchive firstMembers i else tarArchive secondMembers (i - 4096)

/-- There is a file `x` in `/tmp` already. -/
def busyTree : Vfs.State := linkNode bootTree 1 ['x'] .vreg

theorem firstMembers_ok : ∀ f ∈ firstMembers, f.Ok ∧ StepRight f.data.length := by
  simp only [firstMembers, List.forall_mem_cons, List.length_nil, List.length_replicate]
  refine ⟨⟨⟨by decide, by decide, by decide, by decide⟩, by decide, by decide⟩,
    ⟨⟨by decide, by decide, by decide, ?_⟩, by decide, by decide⟩, nofun⟩
  rw [List.length_replicate]
  decide

theorem secondMembers_ok : ∀ f ∈ secondMembers, f.Ok ∧ StepRight f.data.length := by
  simp only [secondMembers, List.forall_mem_cons, List.length_nil, List.length_replicate]
  refine ⟨⟨⟨by decide, by decide, by decide, by decide⟩, by decide, by decide⟩,
    ⟨⟨by decide, by decide, by decide, ?_⟩, by decide, by decide⟩, nofun⟩
  rw [List.length_replicate]
  decide

theorem twoModules_archives : ArchiveAt twoModules 0 firstMembers ∧
    ArchiveAt twoModules 4096 secondMembers := by
  have hfirst : tarLength firstMembers = 3072 := by
    simp only [firstMembers, tarLength, blocksOf, List.length_nil, List.length_replicate]
  have hsecond : tarLength secondMembers = 3072 := by
    simp only [secondMembers, tarLength, blocksOf, List.length_nil, List.length_replicate]
  constructor
  · apply archiveAt_tarArchive fun f hf => (firstMembers_ok f hf).1
    · intro i hi
      rw [Nat.zero_add, twoModules, if_pos (by omega)]
    · omega
  · apply archiveAt_tarArchive fun f hf => (secondMembers_ok f hf).1
    · intro i hi
      rw [twoModules, if_neg (by omega), Nat.add_sub_cancel_left]
    · omega

theorem twoModules_fit : NamesFit busyTree 1 (firstMembers ++ secondMembers) := by
  refine ⟨by decide, by decide, fun before f after hsplit hdata => ?_⟩
  simp only [firstMembers, secondMembers, List.cons_append, List.nil_append] at hsplit
  rcases before with _ | ⟨g₁, _ | ⟨g₂, _ | ⟨g₃, _ | ⟨g₄, before⟩⟩⟩⟩
  · obtain ⟨rfl, -⟩ := List.cons.inj hsplit
    exact absurd rfl hdata
  · simp only [List.cons_append, List.nil_append, List.cons.injEq] at hsplit
    obtain ⟨rfl, rfl, -⟩ := hsplit
    decide
  · simp only [List.cons_append, List.nil_append, List.cons.injEq] at hsplit
    obtain ⟨rfl, rfl, rfl, -⟩ := hsplit
    exact absurd rfl hdata
  · simp only [List.cons_append, List.nil_append, List.cons.injEq] at hsplit
    obtain ⟨rfl, rfl, rfl, rfl, -⟩ := hsplit
    decide
  · have hlen := congrArg List.length hsplit
    simp only [List.length_cons, List.length_append, List.length_nil] at hlen
    omega

/-- Both archives are extracted beside the file that is there. -/
theorem tmpfs_extracts_archives_two : TmpMounted busyTree 1 ∧
    Extracts twoModules [(0, firstMembers), (4096, secondMembers)] busyTree 1 := by
  have htmp : TmpMounted busyTree 1 := bootTree_mounted.link ['x']
  obtain ⟨hfirst, hsecond⟩ := twoModules_archives
  have hmodules : ∀ p ∈ [(0, firstMembers), (4096, secondMembers)],
      ModuleAt twoModules p.1 p.2 := by
    simp only [List.forall_mem_cons]
    exact ⟨.inl hfirst, .inl hsecond, nofun⟩
  have hsteps : ∀ p ∈ [(0, firstMembers), (4096, secondMembers)],
      StepsRight twoModules p.1 p.2 := by
    simp only [List.forall_mem_cons]
    exact ⟨stepsRight_of_stepRight hfirst fun f hf => (firstMembers_ok f hf).2,
      stepsRight_of_stepRight hsecond fun f hf => (secondMembers_ok f hf).2, nofun⟩
  exact ⟨htmp, (tmpfs_extracts_archives twoModules _ busyTree 1 hmodules htmp).1
    ⟨hsteps, twoModules_fit⟩⟩

/-- A member `a` of one byte and a member `b` of five. -/
def twoMembers : List Member := [⟨[0x61], [1]⟩, ⟨[0x62], [0x68, 0x65, 0x6c, 0x6c, 0x6f]⟩]

/-- Of an archive whose first file has one byte, only that file is extracted. -/
theorem tmpfs_loses_second_member :
    ArchiveAt (tarArchive twoMembers) 0 twoMembers ∧ TmpMounted bootTree 1 ∧
      ¬ ∃ fuel s', tmpfsLoadUserapps (tarArchive twoMembers) fuel [0] bootState = .ok s' ∧
        Extracted bootState s' 1 twoMembers := by
  have harchive : ArchiveAt (tarArchive twoMembers) 0 twoMembers := by
    apply archiveAt_tarArchive
    · intro f hf
      simp only [twoMembers, List.mem_cons, List.not_mem_nil, or_false] at hf
      obtain rfl | rfl := hf
      · exact ⟨by decide, by decide, by decide, by decide⟩
      · exact ⟨by decide, by decide, by decide, by decide⟩
    · intro i _
      rw [Nat.zero_add]
    · decide
  refine ⟨harchive, bootTree_mounted, ?_⟩
  rintro ⟨fuel, s', hload, hextracted⟩
  have hmodules : ∀ p ∈ [(0, twoMembers)], ModuleAt (tarArchive twoMembers) p.1 p.2 :=
    List.forall_mem_singleton.mpr (.inl harchive)
  have hclear : ∀ p ∈ [(0, twoMembers)], ¬ Imitated (tarArchive twoMembers) p.1 p.2 := by
    rw [List.forall_mem_singleton]
    rintro (⟨-, hmagic⟩ | ⟨-, hmagic⟩ | hnone)
    · exact absurd hmagic (by decide)
    · exact absurd hmagic (by decide)
    · exact hnone
  have hall : [(0, twoMembers)].flatMap Prod.snd = twoMembers := rfl
  have hsteps := (loads_all hmodules bootTree_mounted hclear hload (hall ▸ hextracted)).2
  have hright : StepRight 1 := (hsteps (0, twoMembers) (by simp)).1
  exact absurd (hright.1.mpr rfl) (by decide)

end Example

end Tellurium.Tmpfs
