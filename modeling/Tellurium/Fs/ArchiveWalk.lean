import Tellurium.Fs.Ustar
import Tellurium.Lib.While

/-!
The walk of `tmpfs_load_userapps` (`kernel/fs/tmpfs.c`) over the headers of one module. An
iteration that skips a member goes on with the same header, and otherwise the next header is
looked for at a distance that is computed as an `int` from the size in the header. The walk is
left at the first place without the magic; until then it only climbs if every member is one
that the loader takes, its size leads forward, and its file can be created, opened and written.
-/

namespace Tellurium.Tmpfs

open Tellurium.Lib Tellurium.Vfs Relation

/-- The `int` that the source reads from the size field. -/
def memberSize (m : Mem) (tarFile : Nat) : Int := toInt32 (octalToInt m (tarFile + sizeField) 12 0)

/-- The header that is looked at, and the files. -/
structure Cursor where
  tarFile : Nat
  state : TmpState

/-- The files after the member at the header was loaded. -/
def loadMember (m : Mem) (c : Cursor) : Except Halt TmpState :=
  match cstring m c.tarFile pathRoom with
  | none => .error .fault
  | some name => loadFile c.state name (fun k => m (c.tarFile + 512 + k)) (memberSize m c.tarFile)

/-- The members that the loader does not take. -/
def Skipped (m : Mem) (tarFile : Nat) : Prop :=
  (m tarFile = 0x2e ∧ m (tarFile + 1) = 0x2f) ∨ m (tarFile + typeflagField) ≠ tarRegtype

instance (m : Mem) (tarFile : Nat) : Decidable (Skipped m tarFile) :=
  inferInstanceAs (Decidable (_ ∨ _))

/-- The body of the loop. The `continue` for a skipped member comes before the header is moved. -/
def memberStep (m : Mem) (c : Cursor) : Except Halt Cursor :=
  if Skipped m c.tarFile then .ok c
  else (loadMember m c).map (Cursor.mk (nextHeader c.tarFile (memberSize m c.tarFile)))

/-- One iteration of the loop. -/
def Iterates (m : Mem) (c c' : Cursor) : Prop :=
  hasMagic m c.tarFile = true ∧ memberStep m c = .ok c'

/-- The loop over the module is left. -/
def Left (m : Mem) (c : Cursor) : Prop := hasMagic m c.tarFile = false

/-- The loop ends, and each iteration moves forward. -/
structure Terminates (m : Mem) (c : Cursor) : Prop where
  ends : Ends (Iterates m) (Left m) c
  forward : ∀ c₁, ReflTransGen (Iterates m) c c₁ → ∀ c₂, Iterates m c₁ c₂ → c₁.tarFile < c₂.tarFile

/-- The header is that of a regular file whose name does not start with "./", its size is not
negative, and the distance to the next header is not too large for an `int` or for the address
space. -/
structure Advances (m : Mem) (tarFile : Nat) : Prop where
  taken : ¬ Skipped m tarFile
  lower : 0 ≤ memberSize m tarFile
  upper : memberSize m tarFile < 2 ^ 31 - 1024
  below : tarFile + 512 * (1 + numBlocks (memberSize m tarFile)) < 2 ^ 64

/-- The node that a path leads to once `leaf` is an entry of the directory can be written: the
directory itself if the name is empty, the child that has the name, or a new file. -/
def OpensWritable (s : Vfs.State) (vParent : Nat) (leaf : List Char) : Prop :=
  if leaf = [] then Writable (s.nodes vParent)
  else match vfsGetChild s vParent leaf with
    | some child => Writable (s.nodes child)
    | none => (s.nodes vParent).vfsops = some .tmpfs

/-- The name in the header fits the path buffer, and a file can be created under it and written. -/
def Storable (m : Mem) (c : Cursor) : Prop :=
  ∃ name vParent leaf, cstring m c.tarFile pathRoom = some name ∧
    Creates c.state.vfs name vParent leaf ∧ OpensWritable c.state.vfs vParent leaf

section Distance

/-- The quotient is rounded towards zero. -/
theorem tdiv_bounds (size : Int) :
    (0 ≤ size → 512 * size.tdiv 512 ≤ size ∧ size < 512 * size.tdiv 512 + 512) ∧
      (size ≤ 0 → 512 * size.tdiv 512 - 512 < size ∧ size ≤ 512 * size.tdiv 512) := by
  have heq : size.tdiv 512 = size / 512 + if 0 ≤ size ∨ 512 ∣ size then 0 else 1 :=
    Int.tdiv_eq_ediv
  split_ifs at heq
  · omega
  · omega

theorem numBlocks_cases (size : Int) :
    (512 ∣ size.tdiv 512 ∧ numBlocks size = size.tdiv 512) ∨
      (¬ 512 ∣ size.tdiv 512 ∧ numBlocks size = size.tdiv 512 + 1) := by
  simp only [numBlocks, ne_eq, ← Int.dvd_iff_tmod_eq_zero, ite_not]
  split_ifs with hdvd
  · exact .inl ⟨hdvd, rfl⟩
  · exact .inr ⟨hdvd, rfl⟩

theorem memberSize_bounds (m : Mem) (tarFile : Nat) :
    -2 ^ 31 ≤ memberSize m tarFile ∧ memberSize m tarFile < 2 ^ 31 := by
  unfold memberSize toInt32
  omega

/-- The distance is computed rightly and positive for sizes in this range, and as an `int` it is
not positive for the others. -/
theorem distance_cases {size : Int} (hlower : -2 ^ 31 ≤ size) (hupper : size < 2 ^ 31) :
    ((-1024 < size ∧ size < 2 ^ 31 - 1024) ∧ 0 ≤ numBlocks size ∧ numBlocks size < 2 ^ 22 ∧
        wrapInt (512 * (1 + numBlocks size)) = 512 * (1 + numBlocks size)) ∨
      ¬ (-1024 < size ∧ size < 2 ^ 31 - 1024) ∧ -2 ^ 31 ≤ wrapInt (512 * (1 + numBlocks size)) ∧
        wrapInt (512 * (1 + numBlocks size)) ≤ 0 := by
  obtain ⟨hpos, hneg⟩ := tdiv_bounds size
  rw [wrapInt]
  rcases numBlocks_cases size with ⟨hdvd, hblocks⟩ | ⟨hdvd, hblocks⟩
  · rw [hblocks]
    omega
  · rw [hblocks]
    omega

theorem nextHeader_forward_iff {tarFile : Nat} {size : Int} (hlower : -2 ^ 31 ≤ size)
    (hupper : size < 2 ^ 31) (hbase : 2 ^ 31 ≤ tarFile) :
    tarFile < nextHeader tarFile size ↔ (-1024 < size ∧ size < 2 ^ 31 - 1024) ∧
      tarFile + 512 * (1 + numBlocks size) < 2 ^ 64 := by
  rw [nextHeader, sizeOfInt]
  rcases distance_cases hlower hupper with ⟨hrange, hblocks, hmax, heq⟩ | ⟨hrange, hlow, hback⟩
  · rw [and_iff_right hrange, heq]
    omega
  · refine iff_of_false ?_ fun hright => hrange hright.1
    omega

end Distance

section Store

variable {m : Mem} {c : Cursor} {s : TmpState} {vParent : Nat} {leaf : List Char}
  {name : List UInt8}

theorem writable_opened_iff {s : Vfs.State} (hs : ChildrenOk s) (hparent : vParent < s.nodeCount) :
    Writable ((linkNode s vParent leaf .vreg).nodes (openedNode s vParent leaf)) ↔
      OpensWritable s vParent leaf := by
  have hold : ∀ i, i < s.nodeCount →
      (Writable ((linkNode s vParent leaf .vreg).nodes i) ↔ Writable (s.nodes i)) := by
    intro i hi
    have hops : ((linkNode s vParent leaf .vreg).nodes i).vfsops = (s.nodes i).vfsops :=
      linkNode_vfsops hi
    have hstat : ((linkNode s vParent leaf .vreg).nodes i).stat = (s.nodes i).stat :=
      linkNode_stat hi
    constructor
    · rintro ⟨htmpfs, hblock⟩
      exact ⟨hops ▸ htmpfs, hstat ▸ hblock⟩
    · rintro ⟨htmpfs, hblock⟩
      exact ⟨hops ▸ htmpfs, hstat ▸ hblock⟩
  rw [OpensWritable, openedNode]
  split_ifs
  · exact hold vParent hparent
  · cases hchild : vfsGetChild s vParent leaf with
    | some child =>
        exact hold child (hs.children vParent hparent child (mem_of_vfsGetChild hchild).1)
    | none =>
        -- the new node belongs to the file system of its directory
        cases hops : (s.nodes vParent).vfsops with
        | none =>
            rw [Option.getD_none, linkNode_new_unmounted hops]
            exact iff_of_false (fun hw => Option.some_ne_none _ hw.ops.symm) (by simp)
        | some fs =>
            rw [Option.getD_none, linkNode_new_mounted hops]
            exact ⟨fun hw => hw.ops, fun hfs => ⟨hfs, Nat.succ_ne_zero 4095⟩⟩

theorem loadMember_eq (hname : cstring m c.tarFile pathRoom = some name)
    (hs : ChildrenOk c.state.vfs) (hcreates : Creates c.state.vfs name vParent leaf) :
    loadMember m c = vfsWrite {c.state with vfs := linkNode c.state.vfs vParent leaf .vreg}
      (fun k => m (c.tarFile + 512 + k)) (openedNode c.state.vfs vParent leaf)
      (sizeOfInt (memberSize m c.tarFile)) 0 := by
  have hlen : name.length ≤ 58 := Nat.le_of_lt_succ (length_cstring hname)
  rw [loadMember, hname]
  exact loadFile_eq hs hlen hcreates _ _

theorem loadMember_of_storable (hs : ChildrenOk c.state.vfs) (hstorable : Storable m c)
    (hsize : 0 ≤ memberSize m c.tarFile) : ∃ s, loadMember m c = .ok s := by
  obtain ⟨name, vParent, leaf, hname, hcreates, hwritable⟩ := hstorable
  have hparent := target_lt hs hcreates.target
  have hword : sizeOfInt (memberSize m c.tarFile) < 2 ^ 31 := by
    obtain ⟨-, hupper⟩ := memberSize_bounds m c.tarFile
    unfold sizeOfInt
    omega
  have hopened := (writable_opened_iff hs hparent).mpr hwritable
  rw [loadMember_eq hname hs hcreates]
  exact ⟨_, vfsWrite_file hopened hword _⟩

/-- What is known of a member whose file was stored: a size just below zero would have been
copied to where nothing is mapped. -/
theorem storable_of_loadMember (hs : TreeReady c.state.vfs) (h : loadMember m c = .ok s) :
    Storable m c ∧ (-4096 < memberSize m c.tarFile → 0 ≤ memberSize m c.tarFile) := by
  cases hname : cstring m c.tarFile pathRoom with
  | none =>
      rw [loadMember, hname] at h
      cases h
  | some name =>
      have hlen : name.length ≤ 58 := Nat.le_of_lt_succ (length_cstring hname)
      obtain ⟨vParent, leaf, hcreates⟩ : ∃ vParent leaf, Creates c.state.vfs name vParent leaf := by
        rw [loadMember, hname] at h
        exact creates_of_loadFile hs.children hlen h
      have hparent := target_lt hs.children hcreates.target
      rw [loadMember_eq hname hs.children hcreates] at h
      obtain ⟨hwritable, hwrite⟩ := vfsWrite_ok_iff.mp h
      refine ⟨⟨name, vParent, leaf, hname, hcreates,
        (writable_opened_iff hs.children hparent).mp hwritable⟩, fun hlow => ?_⟩
      have hblock := ((treeReady_linkNode hs).blocks _
        (openedNode_lt hs.children hparent)).resolve_left hwritable.block
      by_contra hneg
      have hlarge : 2 ^ 64 - 4096 < sizeOfInt (memberSize m c.tarFile) ∧
          sizeOfInt (memberSize m c.tarFile) < 2 ^ 64 := by
        unfold sizeOfInt
        omega
      rcases hwrite with ⟨⟨-, hrequest⟩, -⟩ | ⟨-, hsmall, -⟩
      · simp only [newBlockSize, add64, hblock] at hrequest
        split_ifs at hrequest
        · omega
        · omega
      · omega

theorem treeReady_loadMember (hs : TreeReady c.state.vfs) (h : loadMember m c = .ok s) :
    TreeReady s.vfs := by
  cases hname : cstring m c.tarFile pathRoom with
  | none =>
      rw [loadMember, hname] at h
      cases h
  | some name =>
      rw [loadMember, hname] at h
      exact treeReady_loadFile hs (Nat.le_of_lt_succ (length_cstring hname)) h

end Store

section Walk

variable {m : Mem} {c c' : Cursor} {s s' : TmpState}

theorem iterates_unique (m : Mem) : Relator.RightUnique (Iterates m) := by
  rintro c c₁ c₂ ⟨-, h₁⟩ ⟨-, h₂⟩
  exact Except.ok.inj (h₁.symm.trans h₂)

theorem Iterates.not_left (h : Iterates m c c') : ¬ Left m c :=
  fun hleft => Bool.false_ne_true (hleft.symm.trans h.1)

/-- An iteration either comes back to the same header or loads a member. -/
theorem memberStep_cases (h : memberStep m c = .ok c') :
    (Skipped m c.tarFile ∧ c' = c) ∨
      (¬ Skipped m c.tarFile ∧ loadMember m c = .ok c'.state ∧
        c'.tarFile = nextHeader c.tarFile (memberSize m c.tarFile)) := by
  rw [memberStep] at h
  generalize nextHeader c.tarFile (memberSize m c.tarFile) = next at h ⊢
  split_ifs at h with hskip
  · exact .inl ⟨hskip, (Except.ok.inj h).symm⟩
  · cases hload : loadMember m c with
    | error e =>
        rw [hload] at h
        cases h
    | ok s =>
        rw [hload, Except.map, Except.ok.injEq] at h
        subst h
        exact .inr ⟨hskip, rfl, rfl⟩

theorem memberStep_taken (htaken : ¬ Skipped m c.tarFile) (hload : loadMember m c = .ok s) :
    memberStep m c = .ok ⟨nextHeader c.tarFile (memberSize m c.tarFile), s⟩ := by
  rw [memberStep, if_neg htaken, hload]
  rfl

theorem treeReady_iterates (hs : TreeReady c.state.vfs) (h : Iterates m c c') :
    TreeReady c'.state.vfs := by
  rcases memberStep_cases h.2 with ⟨-, rfl⟩ | ⟨-, hload, -⟩
  · exact hs
  · exact treeReady_loadMember hs hload

/-- An iteration can be made and moves forward. -/
theorem forward_iff (hs : TreeReady c.state.vfs) (hmagic : hasMagic m c.tarFile = true)
    (hbase : 2 ^ 31 ≤ c.tarFile) :
    (∃ c', Iterates m c c' ∧ c.tarFile < c'.tarFile) ↔
      Advances m c.tarFile ∧ Storable m c := by
  obtain ⟨hlower, hupper⟩ := memberSize_bounds m c.tarFile
  have hnext := nextHeader_forward_iff hlower hupper hbase
  constructor
  · rintro ⟨c', ⟨-, hstep⟩, hforward⟩
    rcases memberStep_cases hstep with ⟨-, rfl⟩ | ⟨htaken, hload, hheader⟩
    · exact absurd hforward (Nat.lt_irrefl _)
    · rw [hheader, hnext] at hforward
      obtain ⟨hstorable, hsize⟩ := storable_of_loadMember hs hload
      exact ⟨⟨htaken, hsize (by omega), hforward.1.2, hforward.2⟩, hstorable⟩
  · rintro ⟨hadvances, hstorable⟩
    have hlow := hadvances.lower
    obtain ⟨s, hload⟩ := loadMember_of_storable hs.children hstorable hlow
    have hforward := hnext.mpr ⟨⟨by omega, hadvances.upper⟩, hadvances.below⟩
    have hstep := memberStep_taken hadvances.taken hload
    generalize nextHeader c.tarFile (memberSize m c.tarFile) = next at hforward hstep
    exact ⟨⟨next, s⟩, ⟨hmagic, hstep⟩, hforward⟩

theorem nextHeader_lt (tarFile : Nat) (size : Int) : nextHeader tarFile size < 2 ^ 64 := by
  unfold nextHeader sizeOfInt
  omega

theorem forward_lt (h : Iterates m c c') (hforward : c.tarFile < c'.tarFile) :
    c'.tarFile < 2 ^ 64 := by
  rcases memberStep_cases h.2 with ⟨-, rfl⟩ | ⟨-, -, hheader⟩
  · exact absurd hforward (Nat.lt_irrefl _)
  · rw [hheader]
    exact nextHeader_lt ..

theorem forward_of_advances (hs : TreeReady c.state.vfs) (hmagic : hasMagic m c.tarFile = true)
    (hbase : 2 ^ 31 ≤ c.tarFile) (hadvances : Advances m c.tarFile ∧ Storable m c)
    (h : Iterates m c c') : c.tarFile < c'.tarFile := by
  obtain ⟨next, hstep, hforward⟩ := (forward_iff hs hmagic hbase).mpr hadvances
  rwa [iterates_unique m h hstep]

theorem treeReady_reached (hs : TreeReady c.state.vfs) (h : ReflTransGen (Iterates m) c c') :
    TreeReady c'.state.vfs := by
  induction h with
  | refl => exact hs
  | tail _ hstep ih => exact treeReady_iterates ih hstep

/-- The walk over a module in the upper half ends, always moving forward, exactly if each header
it comes to leads on and its file can be stored. -/
theorem archive_walk_iff (m : Mem) (c : Cursor) (hs : TreeReady c.state.vfs)
    (hbase : 2 ^ 31 ≤ c.tarFile) :
    Terminates m c ↔ ∀ c', ReflTransGen (Iterates m) c c' → hasMagic m c'.tarFile = true →
      Advances m c'.tarFile ∧ Storable m c' := by
  constructor
  · intro h c' hreached hmagic
    have hbase' : 2 ^ 31 ≤ c'.tarFile := Nat.le_trans hbase (le_of_climbing h.forward hreached)
    have hrunning : ¬ Left m c' := fun hleft => Bool.false_ne_true (hleft.symm.trans hmagic)
    obtain ⟨next, hstep⟩ := h.ends.continues (iterates_unique m) Iterates.not_left hreached hrunning
    exact (forward_iff (treeReady_reached hs hreached) hmagic hbase').mp
      ⟨next, hstep, h.forward c' hreached next hstep⟩
  · intro h
    have hstays : ∀ c', ReflTransGen (Iterates m) c c' → 2 ^ 31 ≤ c'.tarFile := by
      intro c' hreached
      induction hreached with
      | refl => exact hbase
      | tail hprevious hstep ih =>
          exact Nat.le_trans ih (Nat.le_of_lt (forward_of_advances
            (treeReady_reached hs hprevious) hstep.1 ih (h _ hprevious hstep.1) hstep))
    constructor
    · apply ends_of_climbing Cursor.tarFile (2 ^ 64)
      intro c' hreached hrunning
      have hmagic : hasMagic m c'.tarFile = true := Bool.of_not_eq_false hrunning
      obtain ⟨next, hstep, hforward⟩ :=
        (forward_iff (treeReady_reached hs hreached) hmagic (hstays c' hreached)).mpr
          (h c' hreached hmagic)
      exact ⟨next, hstep, hforward, forward_lt hstep hforward⟩
    · intro c₁ hreached c₂ hstep
      exact forward_of_advances (treeReady_reached hs hreached) hstep.1 (hstays c₁ hreached)
        (h c₁ hreached hstep.1) hstep

theorem loadMembers_taken {fuel : Nat} (hmagic : hasMagic m c.tarFile = true)
    (htaken : ¬ Skipped m c.tarFile) :
    loadMembers m (fuel + 1) c.tarFile c.state =
      loadMember m c >>= loadMembers m fuel (nextHeader c.tarFile (memberSize m c.tarFile)) := by
  rw [Skipped] at htaken
  rw [loadMembers, if_neg (by simp [hmagic]), if_neg htaken, loadMember]
  cases cstring m c.tarFile pathRoom with
  | none => rfl
  | some name => rfl

theorem ends_of_loadMembers {fuel : Nat} (h : loadMembers m fuel c.tarFile c.state = .ok s) :
    Ends (Iterates m) (Left m) c := by
  induction fuel generalizing c with
  | zero => cases h
  | succ fuel ih =>
      cases hmagic : hasMagic m c.tarFile with
      | false => exact ⟨c, .refl, hmagic⟩
      | true =>
          by_cases hskip : Skipped m c.tarFile
          · rw [Skipped] at hskip
            rw [loadMembers, if_neg (by simp [hmagic]), if_pos hskip] at h
            cases h
          · rw [loadMembers_taken hmagic hskip] at h
            cases hload : loadMember m c with
            | error e =>
                rw [hload] at h
                cases h
            | ok s₁ =>
                have hstep := memberStep_taken hskip hload
                rw [hload] at h
                generalize nextHeader c.tarFile (memberSize m c.tarFile) = next at h hstep
                obtain ⟨last, hreached, hlast⟩ := ih (c := ⟨next, s₁⟩) h
                exact ⟨last, .head ⟨hmagic, hstep⟩ hreached, hlast⟩

/-- The loader returns exactly if its walk ends. -/
theorem loadMembers_returns_iff (m : Mem) (c : Cursor) :
    (∃ fuel s, loadMembers m fuel c.tarFile c.state = .ok s) ↔ Ends (Iterates m) (Left m) c := by
  constructor
  · rintro ⟨fuel, s, h⟩
    exact ends_of_loadMembers h
  · rintro ⟨last, hreached, hlast⟩
    induction hreached using ReflTransGen.head_induction_on with
    | refl =>
        rw [Left] at hlast
        exact ⟨1, last.state, by rw [loadMembers, if_pos (by simp [hlast])]⟩
    | head hstep _ ih =>
        obtain ⟨fuel, s, hrest⟩ := ih
        rcases memberStep_cases hstep.2 with ⟨-, rfl⟩ | ⟨htaken, hload, hheader⟩
        · exact ⟨fuel, s, hrest⟩
        · refine ⟨fuel + 1, s, ?_⟩
          rw [loadMembers_taken hstep.1 htaken, hload, ← hheader]
          exact hrest

end Walk

section Example

def moduleBase : Nat := 0xffff800000100000

/-- One empty file. -/
def fileModule : Mem := fun i => tarArchive [⟨[0x61], []⟩] (i - moduleBase)

/-- The same header, but with the type of a directory. -/
def directoryModule : Mem := fun i =>
  if i = moduleBase + typeflagField then 0x35 else fileModule i

/-- The walk stays at a directory for ever. -/
theorem directory_hangs : ∃ m c, TreeReady c.state.vfs ∧ 2 ^ 31 ≤ c.tarFile ∧
    hasMagic m c.tarFile = true ∧ ¬ Ends (Iterates m) (Left m) c ∧ ¬ Terminates m c := by
  have hstep : Iterates directoryModule ⟨moduleBase, bootState⟩ ⟨moduleBase, bootState⟩ :=
    ⟨by decide, if_pos (.inr (by decide))⟩
  have hends := not_ends_of_loop (iterates_unique directoryModule) Iterates.not_left hstep
  exact ⟨directoryModule, ⟨moduleBase, bootState⟩, bootTree_ready, by decide, by decide, hends,
    fun h => hends h.ends⟩

theorem fileModule_advances : Advances fileModule moduleBase :=
  ⟨by decide, by decide, by decide, by decide⟩

theorem fileModule_storable : Storable fileModule ⟨moduleBase, bootState⟩ :=
  ⟨[0x61], 1, ['a'], by decide, ⟨by decide, by decide, .inr rfl⟩, rfl⟩

/-- A file of no bytes is left at once. -/
theorem archive_walk_file : TreeReady bootState.vfs ∧ 2 ^ 31 ≤ moduleBase ∧
    Terminates fileModule ⟨moduleBase, bootState⟩ := by
  refine ⟨bootTree_ready, by decide,
    (archive_walk_iff fileModule ⟨moduleBase, bootState⟩ bootTree_ready (by decide)).mpr ?_⟩
  intro c' hreached hmagic
  rcases ReflTransGen.cases_head hreached with rfl | ⟨next, hstep, hrest⟩
  · exact ⟨fileModule_advances, fileModule_storable⟩
  · -- behind the file there is no header
    rcases memberStep_cases hstep.2 with ⟨hskip, -⟩ | ⟨-, -, hheader⟩
    · exact absurd hskip fileModule_advances.taken
    · have hleft : hasMagic fileModule next.tarFile = false := by
        rw [hheader]
        decide
      rcases ReflTransGen.cases_head hrest with rfl | ⟨_, hagain, -⟩
      · exact absurd (hleft.symm.trans hmagic) Bool.false_ne_true
      · exact absurd (hleft.symm.trans hagain.1) Bool.false_ne_true

end Example

end Tellurium.Tmpfs
