import Tellurium.Fs.CreateOpen

/-!
The fixed buffers that paths are copied into (`kernel/fs/vfs.c`). `__strncpy` stores the
characters it copies and one terminator behind them, so a buffer of `n` bytes holds at most
`n - 1` characters. Every store of a call is listed here with the buffer it goes to: the
copies, and the terminators that `__strtok_r` puts over the slashes of the lookup copy.
-/

namespace Tellurium.Vfs

open Tellurium.Flibc

/-- The local arrays `dir_name` and `v_parent_path` of `vfs_create` and `buff` of
`vfs_path_to_node`. -/
inductive PathBuffer where
  | dirName
  | vParentPath
  | buff
  deriving Repr, DecidableEq

def PathBuffer.size : PathBuffer → Nat
  | .dirName => vnodeNameMax
  | .vParentPath => vnodeNameMax
  | .buff => vnodePathMax

structure Store where
  buffer : PathBuffer
  index : Nat
  deriving Repr, DecidableEq

def Store.InBounds (st : Store) : Prop := st.index < st.buffer.size

/-- The bytes `__strncpy` stores: the characters it copies and the terminator. -/
def strncpyStores (buffer : PathBuffer) (src : List Char) (n : Nat) : List Store :=
  (List.range (min src.length n + 1)).map fun i => ⟨buffer, i⟩

/-- `char name[N] = {0}`. -/
def zeroStores (buffer : PathBuffer) : List Store :=
  (List.range buffer.size).map fun i => ⟨buffer, i⟩

/-- The terminators the first calls of `__strtok_r` store; the string left to split starts at
`offset` of the buffer. -/
def strtokStores : Nat → Nat → List Char → List Store
  | 0, _, _ => []
  | calls + 1, offset, str =>
      let start := strspn str ['/']
      let stop := start + strcspn (str.drop start) ['/']
      if stop < str.length then
        ⟨.buff, offset + stop⟩ :: strtokStores calls (offset + stop + 1) (str.drop (stop + 1))
      else []

def leafNameStores (path : List Char) : List Store :=
  let pathLen := toInt32 path.length
  if pathLen > vnodePathMax ∨ pathLen ≤ 0 then []
  else
    let index := lastSlash path pathLen.toNat
    let leafNameLen := pathLen - (index + 1)
    if leafNameLen > vnodeNameMax - 1 then []
    else strncpyStores .dirName (path.drop (index + 1).toNat) leafNameLen.toNat

/-- The stores of `vfs_path_to_node` with the given number of calls of `__strtok_r`; how many
there are depends on the tree. -/
def lookupStores (calls : Nat) (path : List Char) : List Store :=
  if path.length > vnodePathMax then []
  else strncpyStores .buff path path.length ++ strtokStores calls 0 path

/-- The count `strlen(vfs_path) - strlen(dir_name) - 1`, a `size_t`. -/
def parentCount (vfsPath dirName : List Char) : Nat :=
  (((vfsPath.length : Int) - dirName.length - 1) % 2 ^ 64).toNat

def createStores (calls : Nat) (vfsPath : List Char) : List Store :=
  zeroStores .dirName ++ leafNameStores vfsPath ++
    match vGetLeafName vfsPath with
    | none => []
    | some dirName =>
        zeroStores .vParentPath ++
          strncpyStores .vParentPath vfsPath (parentCount vfsPath dirName) ++
          lookupStores calls (strncpy vfsPath (parentCount vfsPath dirName))

def openStores (calls : Nat) (path : List Char) : List Store := lookupStores calls path

def mountStores (calls : Nat) (path : List Char) : List Store := lookupStores calls path

section Stores

variable {path leaf : List Char} {st : Store} {buffer : PathBuffer} {n : Nat}

theorem zeroStores_inBounds (h : st ∈ zeroStores buffer) : st.InBounds := by
  obtain ⟨i, hi, rfl⟩ := List.mem_map.mp h
  exact List.mem_range.mp hi

/-- A copy fits exactly if there is a byte left for the terminator. -/
theorem strncpyStores_inBounds_iff :
    (∀ st ∈ strncpyStores buffer path n, st.InBounds) ↔ min path.length n < buffer.size := by
  constructor
  · intro hall
    exact hall ⟨buffer, min path.length n⟩
      (List.mem_map.mpr ⟨_, List.mem_range.mpr (Nat.lt_succ_self _), rfl⟩)
  · intro hlt st hst
    obtain ⟨i, hi, rfl⟩ := List.mem_map.mp hst
    exact Nat.lt_of_le_of_lt (Nat.le_of_lt_succ (List.mem_range.mp hi)) hlt

/-- The tokeniser only stores over characters of the string. -/
theorem strtokStores_lt {calls offset : Nat} (h : st ∈ strtokStores calls offset path) :
    st.buffer = .buff ∧ st.index < offset + path.length := by
  induction calls generalizing offset path with
  | zero => cases h
  | succ calls ih =>
      rw [strtokStores] at h
      split_ifs at h with hstop
      · rcases List.mem_cons.mp h with rfl | h
        · exact ⟨rfl, Nat.add_lt_add_left hstop offset⟩
        · obtain ⟨hbuffer, hlt⟩ := ih h
          rw [List.length_drop] at hlt
          exact ⟨hbuffer, by omega⟩
      · cases h

theorem lookupStores_inBounds_iff (calls : Nat) (hlen : path.length ≤ vnodePathMax) :
    (∀ st ∈ lookupStores calls path, st.InBounds) ↔ path.length < vnodePathMax := by
  rw [lookupStores, if_neg (by omega)]
  constructor
  · intro hall
    have hcopy := strncpyStores_inBounds_iff.mp fun st hst => hall st (List.mem_append_left _ hst)
    rwa [Nat.min_self] at hcopy
  · intro hlt st hst
    rcases List.mem_append.mp hst with hst | hst
    · exact strncpyStores_inBounds_iff.mpr (by rw [Nat.min_self]; exact hlt) st hst
    · obtain ⟨hbuffer, hindex⟩ := strtokStores_lt hst
      rw [Store.InBounds, hbuffer]
      change st.index < vnodePathMax
      omega

/-- The leaf name always fits: its length was checked. -/
theorem leafNameStores_inBounds (h : st ∈ leafNameStores path) : st.InBounds := by
  unfold leafNameStores at h
  dsimp only at h
  split_ifs at h with hpath hname
  · cases h
  · cases h
  · refine strncpyStores_inBounds_iff.mpr ?_ st h
    have hmax : (vnodeNameMax : Int) = 64 := rfl
    change min _ _ < vnodeNameMax
    omega

end Stores

section LeafName

variable {path parent leaf dirName : List Char}

theorem lastSlash_of_not_mem (h : '/' ∉ path) (n : Nat) : lastSlash path n = -1 := by
  induction n with
  | zero => rfl
  | succ n ih =>
      rw [lastSlash_succ, if_neg, ih]
      exact fun hsome => h (List.mem_of_getElem? hsome)

/-- Without a slash the whole path is the leaf name. -/
theorem vGetLeafName_of_not_mem (h : '/' ∉ path) (hleaf : vGetLeafName path = some dirName)
    (hlen : path.length ≤ vnodePathMax) : dirName = path ∧ path.length < vnodeNameMax := by
  have hpath : vnodePathMax = 512 := rfl
  have hname : vnodeNameMax = 64 := rfl
  have hint : toInt32 path.length = path.length := by
    rw [toInt32]
    omega
  simp only [vGetLeafName, hint, lastSlash_of_not_mem h] at hleaf
  split_ifs at hleaf with hcheck hlong
  obtain rfl := Option.some.inj hleaf
  refine ⟨?_, by omega⟩
  rw [show ((-1 : Int) + 1).toNat = 0 from rfl, List.drop_zero, strncpy,
    show ((path.length : Int) - (-1 + 1)).toNat = path.length by omega, List.take_length]

theorem exists_last_slash (h : '/' ∈ path) :
    ∃ parent leaf, path = parent ++ '/' :: leaf ∧ '/' ∉ leaf := by
  obtain ⟨front, back, heq, hfront⟩ := List.eq_append_cons_of_mem (List.mem_reverse.mpr h)
  refine ⟨back.reverse, front.reverse, ?_, by simpa using hfront⟩
  rw [← List.reverse_reverse path, heq]
  simp

theorem parentCount_append : parentCount (parent ++ '/' :: leaf) leaf = parent.length % 2 ^ 64 := by
  rw [parentCount, List.length_append, List.length_cons]
  omega

end LeafName

/-- Every store of the three calls into the path buffers stays inside them. -/
def BuffersSafe (path : List Char) : Prop :=
  ∀ calls, ∀ st ∈ createStores calls path ++ openStores calls path ++ mountStores calls path,
    st.InBounds

/-- A path that passes the length checks overflows no buffer exactly if it is shorter than the
lookup copy and the part before its last slash is shorter than a name. -/
theorem path_buffers_iff (path dirName : List Char) (hleaf : vGetLeafName path = some dirName)
    (hlen : path.length ≤ vnodePathMax) :
    BuffersSafe path ↔ path.length < vnodePathMax ∧
      ∀ parent leaf, path = parent ++ '/' :: leaf → '/' ∉ leaf → parent.length < vnodeNameMax := by
  have hmax : vnodePathMax = 512 := rfl
  constructor
  · intro hsafe
    constructor
    · apply (lookupStores_inBounds_iff 0 hlen).mp
      exact fun st hst => hsafe 0 st (List.mem_append_right _ hst)
    · rintro parent leaf rfl hslash
      rw [vGetLeafName_append hslash hlen] at hleaf
      split_ifs at hleaf with hshort
      have hcopy : ∀ st ∈ strncpyStores .vParentPath (parent ++ '/' :: leaf)
          (parentCount (parent ++ '/' :: leaf) leaf), st.InBounds := by
        intro st hst
        refine hsafe 0 st (List.mem_append_left _ (List.mem_append_left _ ?_))
        rw [createStores, vGetLeafName_append hslash hlen, if_pos hshort]
        exact List.mem_append_right _ (List.mem_append_left _ (List.mem_append_right _ hst))
      rw [strncpyStores_inBounds_iff, parentCount_append] at hcopy
      rw [List.length_append, List.length_cons] at hcopy hlen
      change _ < vnodeNameMax at hcopy
      omega
  · rintro ⟨hshort, hparent⟩ calls st hst
    have hlookup := (lookupStores_inBounds_iff calls hlen).mpr hshort
    -- the copy of the parent part: without a slash it is the whole path, which is a leaf name
    have hcopy : (strncpy path (parentCount path dirName)).length < vnodeNameMax := by
      by_cases hmem : '/' ∈ path
      · obtain ⟨parent, leaf, rfl, hslash⟩ := exists_last_slash hmem
        have hlt := hparent parent leaf rfl hslash
        rw [vGetLeafName_append hslash hlen] at hleaf
        split_ifs at hleaf
        obtain rfl := Option.some.inj hleaf
        rw [strncpy, parentCount_append, List.length_take]
        omega
      · obtain ⟨rfl, hlt⟩ := vGetLeafName_of_not_mem hmem hleaf hlen
        rw [strncpy, List.length_take]
        omega
    rcases List.mem_append.mp hst with hst | hst
    · rcases List.mem_append.mp hst with hst | hst
      · rw [createStores, hleaf] at hst
        simp only [List.mem_append] at hst
        rcases hst with (hst | hst) | (hst | hst) | hst
        · exact zeroStores_inBounds hst
        · exact leafNameStores_inBounds hst
        · exact zeroStores_inBounds hst
        · refine strncpyStores_inBounds_iff.mpr ?_ st hst
          rw [strncpy, List.length_take, Nat.min_comm] at hcopy
          exact hcopy
        · have hname : vnodeNameMax = 64 := rfl
          exact (lookupStores_inBounds_iff calls (by omega)).mpr (by omega) st hst
      · exact hlookup st hst
    · exact hlookup st hst

theorem path_buffers_iff_file : BuffersSafe ['/', 'a'] := by
  rw [path_buffers_iff ['/', 'a'] ['a'] rfl (by decide)]
  refine ⟨by decide, fun parent leaf heq _ => ?_⟩
  have hlength := congrArg List.length heq
  rw [List.length_append, List.length_cons] at hlength
  have hname : vnodeNameMax = 64 := rfl
  simp only [List.length_cons, List.length_nil] at hlength
  omega

/-- A directory name of sixty-four characters, which fits the lookup copy but not
`v_parent_path`. -/
def deepPath : List Char := List.replicate 64 'd' ++ ['/', 'f']

theorem deep_path_overflows :
    vGetLeafName deepPath = some ['f'] ∧ deepPath.length < vnodePathMax ∧ ¬ BuffersSafe deepPath := by
  have hleaf : vGetLeafName deepPath = some ['f'] := by decide
  refine ⟨hleaf, by decide, fun hsafe => ?_⟩
  have hmem : (⟨.vParentPath, 64⟩ : Store) ∈ createStores 0 deepPath := by
    rw [createStores, hleaf]
    refine List.mem_append_right _ (List.mem_append_left _ (List.mem_append_right _ ?_))
    exact List.mem_map.mpr ⟨64, by decide, rfl⟩
  have hin := hsafe 0 _ (List.mem_append_left _ (List.mem_append_left _ hmem))
  exact Nat.lt_irrefl 64 hin

end Tellurium.Vfs
