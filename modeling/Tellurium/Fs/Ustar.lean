import Tellurium.Fs.Tmpfs

/-!
The ustar format as far as the loader of `kernel/fs/tmpfs.c` reads it: regular files one behind
the other, each a header of 512 bytes and its data, padded to whole blocks. What the loader
reads from such a header is the name and the size of the member, and a writer shows that every
list of members has an archive.
-/

namespace Tellurium.Tmpfs

open Tellurium.Lib Tellurium.Vfs

/-- A regular file of an archive. -/
structure Member where
  name : List UInt8
  data : List UInt8
  deriving Repr, DecidableEq

structure Member.Ok (f : Member) : Prop where
  name_length : f.name.length ≤ 58
  name_bytes : 0 ∉ f.name
  not_dot : ¬ (f.name[0]? = some 0x2e ∧ f.name[1]? = some 0x2f)
  size : f.data.length < 2 ^ 31

/-- The number of blocks that hold `size` bytes. -/
def blocksOf (size : Nat) : Nat := (size + 511) / 512

/-- A header at `a` and the data behind it. -/
structure MemberAt (m : Mem) (a : Nat) (f : Member) : Prop where
  name : ∀ i (hi : i < f.name.length), m (a + i) = f.name[i]
  name_end : m (a + f.name.length) = 0
  size : ∀ i, i < 11 → m (a + sizeField + i) =
    UInt8.ofNat (48 + f.data.length / 8 ^ (10 - i) % 8)
  size_end : m (a + sizeField + 11) = 0
  typeflag : m (a + typeflagField) = tarRegtype
  magic : hasMagic m a = true
  data : ∀ i (hi : i < f.data.length), m (a + 512 + i) = f.data[i]

/-- A well-formed archive at `a`: the members one behind the other, then two zero blocks. -/
def ArchiveAt (m : Mem) : Nat → List Member → Prop
  | a, [] => a + 1024 < 2 ^ 64 ∧ ∀ i, i < 1024 → m (a + i) = 0
  | a, f :: rest =>
      f.Ok ∧ MemberAt m a f ∧ ArchiveAt m (a + 512 * (1 + blocksOf f.data.length)) rest

/-- The rounding of the source gives the number of blocks, and the distance to the next header
fits an `int`. -/
def StepRight (size : Nat) : Prop :=
  (size % 512 = 0 ↔ size / 512 % 512 = 0) ∧ 512 * (1 + blocksOf size) < 2 ^ 31

section Fields

theorem cstring_eq {m : Mem} {a : Nat} {name : List UInt8} {n : Nat} (hlen : name.length < n)
    (hnul : 0 ∉ name) (hname : ∀ i (hi : i < name.length), m (a + i) = name[i])
    (hend : m (a + name.length) = 0) : cstring m a n = some name := by
  induction name generalizing a n with
  | nil =>
      obtain ⟨k, rfl⟩ : ∃ k, n = k + 1 := ⟨n - 1, by simp at hlen; omega⟩
      rw [cstring, if_pos (by simpa using hend)]
  | cons b name ih =>
      obtain ⟨k, rfl⟩ : ∃ k, n = k + 1 := ⟨n - 1, by simp at hlen; omega⟩
      have hfirst : m a = b := hname 0 (by simp)
      have hb : b ≠ 0 := fun heq => hnul (by simp [heq])
      have hrest : cstring m (a + 1) k = some name := by
        refine ih (by simpa using hlen) (fun hmem => hnul (List.mem_cons_of_mem _ hmem)) ?_ ?_
        · intro i hi
          have hnext := hname (i + 1) (by simpa using hi)
          rw [show a + 1 + i = a + (i + 1) by omega, hnext, List.getElem_cons_succ]
        · rw [show a + 1 + name.length = a + (b :: name).length by simp; omega, hend]
      rw [cstring, if_neg (by rw [hfirst]; exact hb), hrest, hfirst]
      rfl

/-- The octal digits of `size` behind the first `i` of eleven. -/
theorem octalToInt_digits {m : Mem} {src size : Nat} (hsize : size < 2 ^ 31)
    (hdigits : ∀ i, i < 11 → m (src + i) = UInt8.ofNat (48 + size / 8 ^ (10 - i) % 8))
    (hend : m (src + 11) = 0) {k : Nat} (hk : k ≤ 11) :
    octalToInt m (src + (11 - k)) (k + 1) (size / 8 ^ k) = size := by
  induction k with
  | zero => rw [octalToInt, if_pos (by simpa using hend), pow_zero, Nat.div_one]
  | succ k ih =>
      have hdigit := hdigits (11 - (k + 1)) (by omega)
      rw [show 10 - (11 - (k + 1)) = k by omega] at hdigit
      have hlt := Nat.mod_lt (size / 8 ^ k) (show 0 < 8 by decide)
      have hbyte : (m (src + (11 - (k + 1)))).toNat = 48 + size / 8 ^ k % 8 := by
        rw [hdigit, UInt8.toNat_ofNat']
        omega
      have hne : m (src + (11 - (k + 1))) ≠ 0 := by
        intro hzero
        rw [hzero] at hbyte
        simp at hbyte
        omega
      have hpow : size / 8 ^ (k + 1) = size / 8 ^ k / 8 := by rw [pow_succ, Nat.div_div_eq_div_mul]
      have hle : size / 8 ^ k ≤ size := Nat.div_le_self _ _
      have hnext : sizeOfInt ((size / 8 ^ (k + 1) : Nat) * 8 +
          (charValue (m (src + (11 - (k + 1)))) - 48)) = size / 8 ^ k := by
        rw [charValue, hbyte, if_pos (by omega), hpow, sizeOfInt]
        clear hdigit hbyte hne hpow ih
        generalize size / 8 ^ k = x at *
        omega
      rw [octalToInt, if_neg hne, hnext, show src + (11 - (k + 1)) + 1 = src + (11 - k) by omega]
      exact ih (by omega)

theorem octalToInt_size {m : Mem} {src size : Nat} (hsize : size < 2 ^ 31)
    (hdigits : ∀ i, i < 11 → m (src + i) = UInt8.ofNat (48 + size / 8 ^ (10 - i) % 8))
    (hend : m (src + 11) = 0) : octalToInt m src 12 0 = size := by
  have hall := octalToInt_digits hsize hdigits hend (k := 11) (Nat.le_refl _)
  have hzero : size / 8 ^ 11 = 0 := Nat.div_eq_of_lt (by omega)
  rwa [hzero, Nat.sub_self, Nat.add_zero] at hall

end Fields

section Archive

variable {m : Mem} {a : Nat} {s : TmpState} {f : Member} {rest : List Member}

theorem ArchiveAt.lt (h : ArchiveAt m a rest) : a + 1024 < 2 ^ 64 := by
  induction rest generalizing a with
  | nil => exact h.1
  | cons f rest ih =>
      have hnext := ih h.2.2
      omega

theorem hasMagic_zero (hzero : ∀ i, i < 1024 → m (a + i) = 0) : hasMagic m a = false := by
  have hfirst : m (a + magicField) = 0 := hzero 257 (by decide)
  rw [hasMagic, List.all_eq_false]
  exact ⟨0, by simp, by simp [hfirst, tmagic]⟩

theorem nextHeader_right {size : Nat} (hright : StepRight size)
    (hfit : a + 512 * (1 + blocksOf size) < 2 ^ 64) :
    nextHeader a size = a + 512 * (1 + blocksOf size) := by
  obtain ⟨hround, hint⟩ := hright
  have hblocks : numBlocks size = blocksOf size := by
    have hdiv : (size : Int).tdiv 512 = (size / 512 : Nat) := by
      rw [Int.tdiv_eq_ediv_of_nonneg (by omega)]
      omega
    have hmod : ((size / 512 : Nat) : Int).tmod 512 = (size / 512 % 512 : Nat) := by
      rw [Int.tmod_eq_emod_of_nonneg (by omega)]
      omega
    simp only [numBlocks, hdiv, hmod]
    unfold blocksOf
    split <;> omega
  rw [nextHeader, hblocks, wrapInt, sizeOfInt]
  omega

/-- A byte other than the terminator is part of the name. -/
theorem MemberAt.name_byte (hat : MemberAt m a f) {i : Nat} (hi : i ≤ f.name.length)
    (hne : m (a + i) ≠ 0) : f.name[i]? = some (m (a + i)) := by
  rcases Nat.lt_or_eq_of_le hi with hlt | rfl
  · rw [List.getElem?_eq_getElem hlt, hat.name i hlt]
  · exact absurd hat.name_end hne

/-- The loop at a member's header. -/
theorem loadMembers_member (hf : f.Ok) (hat : MemberAt m a f) (fuel : Nat) :
    loadMembers m (fuel + 1) a s =
      loadFile s f.name (fun k => m (a + 512 + k)) f.data.length >>=
        loadMembers m fuel (nextHeader a f.data.length) := by
  have hname : cstring m a pathRoom = some f.name :=
    cstring_eq (by have := hf.name_length; simp only [pathRoom, vnodeNameMax]; omega) hf.name_bytes
      hat.name hat.name_end
  have hsize : octalToInt m (a + sizeField) 12 0 = f.data.length :=
    octalToInt_size hf.size hat.size hat.size_end
  have hint : toInt32 f.data.length = f.data.length := by
    have hlt := hf.size
    unfold toInt32
    omega
  have hregular : ¬ ((m a = 0x2e ∧ m (a + 1) = 0x2f) ∨ m (a + typeflagField) ≠ tarRegtype) := by
    rintro (⟨hdot, hslash⟩ | htype)
    · have hfirst := hat.name_byte (Nat.zero_le _) (by rw [Nat.add_zero, hdot]; decide)
      have hpos := (List.getElem?_eq_some_iff.mp hfirst).1
      have hsecond := hat.name_byte (i := 1) hpos (by rw [hslash]; decide)
      exact hf.not_dot ⟨by rw [hfirst, Nat.add_zero, hdot], by rw [hsecond, hslash]⟩
    · exact htype hat.typeflag
  rw [loadMembers, if_neg (by simp [hat.magic]), if_neg hregular, hname]
  simp only [hsize, hint]

end Archive

/-- The header that describes a member, and an archive written member by member. -/
def tarHeader (f : Member) (i : Nat) : UInt8 :=
  if i < f.name.length then f.name.getD i 0
  else if sizeField ≤ i ∧ i < sizeField + 11 then
    UInt8.ofNat (48 + f.data.length / 8 ^ (10 - (i - sizeField)) % 8)
  else if i = typeflagField then tarRegtype
  else if magicField ≤ i ∧ i < magicField + 5 then tmagic.getD (i - magicField) 0
  else 0

def tarArchive : List Member → Nat → UInt8
  | [], _ => 0
  | f :: rest, i =>
      if i < 512 then tarHeader f i
      else if i < 512 * (1 + blocksOf f.data.length) then f.data.getD (i - 512) 0
      else tarArchive rest (i - 512 * (1 + blocksOf f.data.length))

def tarLength : List Member → Nat
  | [] => 1024
  | f :: rest => 512 * (1 + blocksOf f.data.length) + tarLength rest

section Writer

variable {m : Mem} {a : Nat} {f : Member} {members : List Member}

theorem memberAt_of_tarHeader (hf : f.Ok) (hheader : ∀ i, i < 512 → m (a + i) = tarHeader f i)
    (hdata : ∀ i (hi : i < f.data.length), m (a + 512 + i) = f.data[i]) : MemberAt m a f := by
  have hname := hf.name_length
  have hsize : sizeField = 124 := rfl
  have htype : typeflagField = 156 := rfl
  have hmagic : magicField = 257 := rfl
  constructor
  · intro i hi
    rw [hheader i (by omega), tarHeader, if_pos hi, List.getD_eq_getElem?_getD,
      List.getElem?_eq_getElem hi, Option.getD_some]
  · rw [hheader _ (by omega), tarHeader, if_neg (by omega), if_neg (by omega), if_neg (by omega),
      if_neg (by omega)]
  · intro i hi
    rw [Nat.add_assoc, hheader _ (by omega), tarHeader, if_neg (by omega), if_pos (by omega),
      Nat.add_sub_cancel_left]
  · rw [Nat.add_assoc, hheader _ (by omega), tarHeader, if_neg (by omega), if_neg (by omega),
      if_neg (by omega), if_neg (by omega)]
  · rw [hheader _ (by omega), tarHeader, if_neg (by omega), if_neg (by omega), if_pos rfl]
  · rw [hasMagic, List.all_eq_true]
    intro i hi
    rw [List.mem_range] at hi
    rw [Nat.add_assoc, hheader _ (by omega), tarHeader, if_neg (by omega), if_neg (by omega),
      if_neg (by omega), if_pos (by omega), Nat.add_sub_cancel_left]
    simp
  · exact hdata

theorem archiveAt_tarArchive (hok : ∀ f ∈ members, f.Ok)
    (hbytes : ∀ i, i < tarLength members → m (a + i) = tarArchive members i)
    (hfit : a + tarLength members < 2 ^ 64) : ArchiveAt m a members := by
  induction members generalizing a with
  | nil => exact ⟨hfit, hbytes⟩
  | cons f rest ih =>
      have hblocks : f.data.length ≤ 512 * blocksOf f.data.length := by unfold blocksOf; omega
      rw [tarLength] at hbytes hfit
      refine ⟨hok f (by simp), memberAt_of_tarHeader (hok f (by simp)) ?_ ?_, ?_⟩
      · intro i hi
        rw [hbytes i (by omega), tarArchive, if_pos hi]
      · intro i hi
        rw [Nat.add_assoc, hbytes _ (by omega), tarArchive, if_neg (by omega), if_pos (by omega),
          Nat.add_sub_cancel_left, List.getD_eq_getElem?_getD, List.getElem?_eq_getElem hi,
          Option.getD_some]
      · apply ih (fun g hg => hok g (List.mem_cons_of_mem _ hg))
        · intro i hi
          rw [Nat.add_assoc, hbytes _ (by omega), tarArchive, if_neg (by omega), if_neg (by omega),
            Nat.add_sub_cancel_left]
        · omega

end Writer

end Tellurium.Tmpfs
