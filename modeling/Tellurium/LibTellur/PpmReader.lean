import Tellurium.LibTellur.ImageReader
import Tellurium.Flibc.Stdlib

/-!
Loading PPM images (`PpmReader` of `libTellur/ImageReader.cpp`, with `libTellur/Utility.cpp`).
The header is parsed in the first hundred bytes: a number's digits are collected and converted,
and the pointer moves on by the number of digits that the converted value has. The bytes of a
block are a function, of which only the part that was read from the file is known.
-/

namespace Tellurium.LibTellur

open Tellurium.Lib Tellurium.Flibc

/-- Everything but a digit. A byte above 127 is a negative `char`. -/
def isWhitespace (b : UInt8) : Bool := b < 0x30 || b > 0x39

def getNumDigits (num : Int) : Nat :=
  if _more : num.tdiv 10 ≠ 0 then getNumDigits (num.tdiv 10) + 1 else 1
termination_by num.natAbs
decreasing_by
  have hnum : num ≠ 0 := fun hzero => _more (by rw [hzero, Int.zero_tdiv])
  rw [Int.natAbs_tdiv]
  exact Nat.div_lt_self (by omega) (by decide)

def byteChar (b : UInt8) : Char := Char.ofNat b.toNat

/-- The characters that `getPpmNumber` collects into its array, at most `count` of them. -/
def ppmDigits (ppm : Nat → UInt8) (ppmMeta : Nat) : Nat → List Char
  | 0 => []
  | count + 1 =>
      if isWhitespace (ppm ppmMeta) then []
      else byteChar (ppm ppmMeta) :: ppmDigits ppm (ppmMeta + 1) count

def getPpmNumber (ppm : Nat → UInt8) (ppmMeta : Nat) : Int := atoi (ppmDigits ppm ppmMeta 10)

/-- The loop behind the magic number. It has no other end than a digit. -/
def skipWhitespace (ppm : Nat → UInt8) : Nat → Nat → Option Nat
  | 0, _ => none
  | fuel + 1, ppmMeta =>
      if isWhitespace (ppm ppmMeta) then skipWhitespace ppm fuel (ppmMeta + 1) else some ppmMeta

def ppmPixel (ppm : Nat → UInt8) (start : Nat) : Nat :=
  0xff000000 ||| (ppm start).toNat <<< 16 ||| (ppm (start + 1)).toNat <<< 8 |||
    (ppm (start + 2)).toNat

/-- The copying loop, after its first `n` rounds. -/
def copyPixels (ppm : Nat → UInt8) (headerLen : Nat) (buff : Nat → Nat) : Nat → Nat → Nat
  | 0 => buff
  | i + 1 => Function.update (copyPixels ppm headerLen buff i) i (ppmPixel ppm (headerLen + 3 * i))

/-- What `open` finds at the path, and what `new` answers for the blocks. The first answer is
not checked. -/
structure PpmWorld where
  file : Option (List UInt8)
  header : Nat → UInt8
  ppm : Option (Nat → UInt8)
  buff : Option (Nat → Nat)

/-- `fuel` bounds the search for the first digit. -/
def PpmReader.loadImage (fuel : Nat) (world : PpmWorld) (reader : ImageReader) :
    Option (ImageReaderErrors × ImageReader) :=
  match world.file with
  | none => some (.default, reader)
  | some file =>
  let ppm := syscallRead file 0 100 world.header
  if ppm 0 ≠ 0x50 ∨ ppm 1 ≠ 0x36 then some (.default, reader)
  else do
  let ppmMeta ← skipWhitespace ppm fuel 2
  let width := getPpmNumber ppm ppmMeta
  let reader := {reader with width}
  let ppmMeta := ppmMeta + getNumDigits width
  if ¬ isWhitespace (ppm ppmMeta) then return (.default, reader)
  let ppmMeta := ppmMeta + 1
  let height := getPpmNumber ppm ppmMeta
  let reader := {reader with height}
  let ppmMeta := ppmMeta + getNumDigits height
  if ¬ isWhitespace (ppm ppmMeta) then return (.default, reader)
  let ppmMeta := ppmMeta + 1
  let maxValue := getPpmNumber ppm ppmMeta
  let ppmMeta := ppmMeta + getNumDigits maxValue
  if ¬ isWhitespace (ppm ppmMeta) then return (.default, reader)
  let headerLen := ppmMeta + 1
  let fileSize := int32 (headerLen + 3 * width * height)
  match world.ppm with
  | none => return (.default, reader)
  | some mem =>
  let ppm := syscallRead file 0 (fileSize % 2 ^ 64).toNat mem
  match world.buff with
  | none => return (.default, {reader with buff := none})
  | some buff =>
  let pixels := copyPixels ppm headerLen buff (int32 (width * height)).toNat
  return (.noErr, {reader with buff := some pixels})

/-- A character of the header as a byte. -/
def digitByte (c : Char) : UInt8 := UInt8.ofNat c.toNat

def numberBytes (n : Nat) : List UInt8 := (Nat.toDigits 10 n).map digitByte

/-- The header of an image: the separators behind the magic number and behind each number. -/
structure PpmHeader where
  separators : List UInt8
  width : Nat
  afterWidth : UInt8
  height : Nat
  afterHeight : UInt8
  maxValue : Nat
  afterMax : UInt8
  separators_ne : separators ≠ []
  separators_ok : ∀ b ∈ separators, isWhitespace b
  after_ok : isWhitespace afterWidth ∧ isWhitespace afterHeight ∧ isWhitespace afterMax

def PpmHeader.bytes (h : PpmHeader) : List UInt8 :=
  [0x50, 0x36] ++ (h.separators ++ (numberBytes h.width ++ h.afterWidth ::
    (numberBytes h.height ++ h.afterHeight :: (numberBytes h.maxValue ++ [h.afterMax]))))

structure Rgb where
  red : UInt8
  green : UInt8
  blue : UInt8

def Rgb.bytes (p : Rgb) : List UInt8 := [p.red, p.green, p.blue]

def Rgb.word (p : Rgb) : Nat :=
  0xff000000 ||| p.red.toNat <<< 16 ||| p.green.toNat <<< 8 ||| p.blue.toNat

section Reads

variable {ppm : Nat → UInt8} {pos : Nat} {bytes more : List UInt8}

theorem Reads.append (h : Reads ⟨ppm, pos⟩ (bytes ++ more)) :
    Reads ⟨ppm, pos⟩ bytes ∧ Reads ⟨ppm, pos + bytes.length⟩ more := by
  constructor
  · intro i hi
    have hbyte := h i (by rw [List.length_append]; omega)
    rwa [List.getElem_append_left hi] at hbyte
  · intro i hi
    have hbyte := h (bytes.length + i) (by rw [List.length_append]; omega)
    rw [List.getElem_append_right (Nat.le_add_right _ _)] at hbyte
    simp only [Nat.add_sub_cancel_left] at hbyte
    rw [← hbyte]
    exact congrArg ppm (Nat.add_assoc _ _ _)

/-- A block that was read from a file holds the file's bytes. -/
theorem syscallRead_reads {file : List UInt8} {len : Nat} (mem : Nat → UInt8) (hfile : bytes <+: file)
    (hlen : bytes.length ≤ len) : Reads ⟨syscallRead file 0 len mem, 0⟩ bytes := by
  intro i hi
  obtain ⟨rest, rfl⟩ := hfile
  change syscallRead (bytes ++ rest) 0 len mem (0 + i) = bytes[i]
  rw [Nat.zero_add, syscallRead, if_pos (by omega), Nat.zero_add, List.getD_append _ _ _ _ hi,
    List.getD_eq_getElem _ _ hi]

end Reads

section Numbers

variable {ppm : Nat → UInt8} {pos : Nat} {more : List UInt8} {sep : UInt8}

theorem getNumDigits_eq (n : Nat) : getNumDigits n = (Nat.toDigits 10 n).length := by
  induction n using Nat.strong_induction_on with
  | _ n ih =>
      have hdiv : (n : Int).tdiv 10 = ((n / 10 : Nat) : Int) := rfl
      rw [getNumDigits, hdiv]
      by_cases hlt : n < 10
      · rw [dif_neg (by omega), Nat.toDigits_of_lt_base hlt]
        rfl
      · rw [dif_pos (by omega), ih (n / 10) (by omega),
          Nat.toDigits_of_base_le (n := n) (by decide) (by omega), List.length_append]
        rfl

/-- A digit survives the way through a byte, and is no separator. -/
theorem byteChar_digitByte {c : Char} (hc : c.isDigit) :
    byteChar (digitByte c) = c ∧ isWhitespace (digitByte c) = false := by
  have hdigit := Char.isDigit_iff_toNat.mp hc
  have hzero : '0'.toNat = 48 := rfl
  have hnine : '9'.toNat = 57 := rfl
  have hbyte : (digitByte c).toNat = c.toNat := UInt8.toNat_ofNat_of_lt' (show c.toNat < 256 by omega)
  constructor
  · rw [byteChar, hbyte, Char.ofNat_toNat]
  · simp only [isWhitespace, Bool.or_eq_false_iff, decide_eq_false_iff_not, UInt8.lt_iff_toNat_lt,
      hbyte, gt_iff_lt]
    exact ⟨by simp; omega, by simp; omega⟩

/-- The digits in front of a separator are collected. -/
theorem ppmDigits_eq {ds : List Char} (hds : ∀ c ∈ ds, c.isDigit) (hsep : isWhitespace sep)
    (h : Reads ⟨ppm, pos⟩ (ds.map digitByte ++ sep :: more)) {count : Nat} (hcount : ds.length < count) :
    ppmDigits ppm pos count = ds := by
  induction ds generalizing pos count with
  | nil =>
      cases count with
      | zero => rfl
      | succ count => exact if_pos (by rw [show ppm pos = sep from h.head]; exact hsep)
  | cons c ds ih =>
      obtain ⟨hc, hds⟩ := List.forall_mem_cons.mp hds
      obtain ⟨hchar, hplain⟩ := byteChar_digitByte hc
      cases count with
      | zero => exact absurd hcount (Nat.not_lt_zero _)
      | succ count =>
          have hbyte : ppm pos = digitByte c := h.head
          rw [ppmDigits, hbyte, hplain, if_neg Bool.false_ne_true, hchar,
            ih hds h.tail (Nat.lt_of_succ_lt_succ hcount)]

/-- A number is converted, and the pointer moves behind its separator. -/
theorem getPpmNumber_eq {n : Nat} (hn : n < 10 ^ 9) (hsep : isWhitespace sep)
    (h : Reads ⟨ppm, pos⟩ (numberBytes n ++ sep :: more)) :
    getPpmNumber ppm pos = n ∧ isWhitespace (ppm (pos + getNumDigits n)) ∧
      pos + getNumDigits n + 1 = pos + (numberBytes n).length + 1 ∧
      Reads ⟨ppm, pos + getNumDigits n + 1⟩ more := by
  have hlen : getNumDigits n = (numberBytes n).length := by
    rw [getNumDigits_eq, numberBytes, List.length_map]
  have hshort : (Nat.toDigits 10 n).length < 10 :=
    Nat.lt_succ_of_le ((Nat.length_toDigits_le_iff (by decide) (by decide)).mpr hn)
  have hdigits : ∀ c ∈ Nat.toDigits 10 n, c.isDigit := fun c hc =>
    Nat.isDigit_of_mem_toDigits (by decide) (by decide) hc
  have hvalue : atoi (Nat.toDigits 10 n ++ []) = n := atoi_toDigits (by omega) (by simp)
  obtain ⟨-, hafter⟩ := h.append
  rw [hlen]
  refine ⟨?_, ?_, rfl, hafter.tail⟩
  · rw [getPpmNumber, ppmDigits_eq hdigits hsep h hshort]
    rwa [List.append_nil] at hvalue
  · rw [show ppm (pos + (numberBytes n).length) = sep from hafter.head]
    exact hsep

theorem skipWhitespace_eq {separators : List UInt8} {b : UInt8}
    (hseparators : ∀ b ∈ separators, isWhitespace b) (hb : isWhitespace b = false)
    (h : Reads ⟨ppm, pos⟩ (separators ++ b :: more)) {fuel : Nat} (hfuel : separators.length < fuel) :
    skipWhitespace ppm fuel pos = some (pos + separators.length) := by
  induction separators generalizing pos fuel with
  | nil =>
      cases fuel with
      | zero => exact absurd hfuel (Nat.not_lt_zero _)
      | succ fuel =>
          rw [skipWhitespace, show ppm pos = b from h.head, hb, if_neg Bool.false_ne_true]
          rfl
  | cons a separators ih =>
      obtain ⟨ha, hseparators⟩ := List.forall_mem_cons.mp hseparators
      cases fuel with
      | zero => exact absurd hfuel (Nat.not_lt_zero _)
      | succ fuel =>
          rw [skipWhitespace, show ppm pos = a from h.head, if_pos ha]
          refine (ih hseparators h.tail (Nat.lt_of_succ_lt_succ hfuel)).trans ?_
          exact congrArg some (show pos + 1 + separators.length = pos + (separators.length + 1) by omega)

end Numbers

section Pixels

variable {ppm : Nat → UInt8} {headerLen : Nat}

theorem copyPixels_eq (buff : Nat → Nat) {n i : Nat} (hi : i < n) :
    copyPixels ppm headerLen buff n i = ppmPixel ppm (headerLen + 3 * i) := by
  induction n with
  | zero => exact absurd hi (Nat.not_lt_zero i)
  | succ n ih =>
      rw [copyPixels]
      by_cases hlast : i = n
      · rw [hlast, Function.update_self]
      · rw [Function.update_of_ne hlast]
        exact ih (by omega)

/-- The triples lie one behind the other. -/
theorem ppmPixel_eq {pixels : List Rgb} (h : Reads ⟨ppm, headerLen⟩ (pixels.flatMap Rgb.bytes))
    {i : Nat} (hi : i < pixels.length) :
    ppmPixel ppm (headerLen + 3 * i) = pixels[i].word := by
  induction pixels generalizing headerLen i with
  | nil => exact absurd hi (Nat.not_lt_zero i)
  | cons p pixels ih =>
      rw [List.flatMap_cons] at h
      obtain ⟨hfirst, hrest⟩ := h.append
      cases i with
      | zero =>
          have hred : ppm headerLen = p.red := hfirst.head
          have hgreen : ppm (headerLen + 1) = p.green := hfirst.tail.head
          have hblue : ppm (headerLen + 2) = p.blue := hfirst.tail.tail.head
          rw [Nat.mul_zero, Nat.add_zero, ppmPixel, hred, hgreen, hblue]
          rfl
      | succ i =>
          have hplace : headerLen + 3 * (i + 1) = headerLen + 3 + 3 * i := by omega
          rw [hplace, List.getElem_cons_succ]
          exact ih hrest (Nat.lt_of_succ_lt_succ hi)

theorem length_flatMap_bytes (pixels : List Rgb) :
    (pixels.flatMap Rgb.bytes).length = 3 * pixels.length := by
  induction pixels with
  | nil => rfl
  | cons p pixels ih =>
      rw [List.flatMap_cons, List.length_append, ih, List.length_cons]
      change 3 + _ = _
      omega

end Pixels

/-- The pointers of the parser in a well-formed header, and what it finds there. -/
theorem PpmHeader.parsed (header : PpmHeader) (hwidth : header.width < 10 ^ 9)
    (hheight : header.height < 10 ^ 9) (hmax : header.maxValue < 10 ^ 9) {ppm : Nat → UInt8}
    (h : Reads ⟨ppm, 0⟩ header.bytes) {fuel : Nat} (hfuel : header.separators.length < fuel) :
    (ppm 0 = 0x50 ∧ ppm 1 = 0x36) ∧ ∃ start, skipWhitespace ppm fuel 2 = some start ∧
      getPpmNumber ppm start = header.width ∧
      isWhitespace (ppm (start + getNumDigits header.width)) ∧
      getPpmNumber ppm (start + getNumDigits header.width + 1) = header.height ∧
      isWhitespace (ppm (start + getNumDigits header.width + 1 + getNumDigits header.height)) ∧
      getPpmNumber ppm (start + getNumDigits header.width + 1 + getNumDigits header.height + 1) =
        header.maxValue ∧
      isWhitespace (ppm (start + getNumDigits header.width + 1 + getNumDigits header.height + 1 +
        getNumDigits header.maxValue)) ∧
      start + getNumDigits header.width + 1 + getNumDigits header.height + 1 +
        getNumDigits header.maxValue + 1 = header.bytes.length := by
  obtain ⟨hafterWidth, hafterHeight, hafterMax⟩ := header.after_ok
  obtain ⟨hmagic, h⟩ := h.append
  obtain ⟨first, digits, hdigits⟩ := List.exists_cons_of_ne_nil (Nat.toDigits_ne_nil (b := 10)
    (n := header.width))
  have hfirst : isWhitespace (digitByte first) = false :=
    (byteChar_digitByte (Nat.isDigit_of_mem_toDigits (by decide) (by decide)
      (hdigits ▸ List.mem_cons_self))).2
  have hskip : skipWhitespace ppm fuel 2 = some (2 + header.separators.length) := by
    have hbytes := h
    rw [numberBytes, hdigits, List.map_cons, List.cons_append] at hbytes
    exact skipWhitespace_eq header.separators_ok hfirst hbytes hfuel
  obtain ⟨-, h⟩ := h.append
  obtain ⟨hw, hwsep, hwpos, h⟩ := getPpmNumber_eq hwidth hafterWidth h
  obtain ⟨hh, hhsep, hhpos, h⟩ := getPpmNumber_eq hheight hafterHeight h
  obtain ⟨hm, hmsep, hmpos, -⟩ := getPpmNumber_eq hmax hafterMax h
  refine ⟨⟨hmagic.head, hmagic.tail.head⟩, _, hskip, hw, hwsep, hh, hhsep, hm, hmsep, ?_⟩
  simp only [PpmHeader.bytes, List.length_append, List.length_cons, List.length_nil]
  omega

/-- An image behind a well-formed header is loaded with its dimensions and pixels. -/
theorem ppm_loads_image (header : PpmHeader) (hwidth : 1 ≤ header.width) (hheight : 1 ≤ header.height)
    (hsize : 3 * header.width * header.height + 100 < 2 ^ 31)
    (hmax : 1 ≤ header.maxValue ∧ header.maxValue ≤ 255) (hlen : header.bytes.length ≤ 100)
    (pixels : List Rgb) (hpixels : pixels.length = header.width * header.height)
    (rest : List UInt8) (reader : ImageReader) (headerMem ppmMem : Nat → UInt8) (buff : Nat → Nat)
    {fuel : Nat} (hfuel : 100 ≤ fuel) :
    ∃ loaded filled, PpmReader.loadImage fuel
        ⟨some (header.bytes ++ pixels.flatMap Rgb.bytes ++ rest), headerMem, some ppmMem, some buff⟩
        reader = some (.noErr, loaded) ∧
      loaded.width = header.width ∧ loaded.height = header.height ∧ loaded.buff = some filled ∧
      ∀ (i : Nat) (hi : i < pixels.length), filled i = pixels[i].word := by
  obtain ⟨file, hfile⟩ : ∃ file, file = header.bytes ++ pixels.flatMap Rgb.bytes ++ rest := ⟨_, rfl⟩
  rw [← hfile]
  rw [Nat.mul_assoc] at hsize
  have hsmallWidth : header.width ≤ header.width * header.height := Nat.le_mul_of_pos_right _ hheight
  have hsmallHeight : header.height ≤ header.width * header.height := Nat.le_mul_of_pos_left _ hwidth
  have hreads : Reads ⟨syscallRead file 0 100 headerMem, 0⟩ header.bytes := by
    apply syscallRead_reads _ _ hlen
    rw [hfile, List.append_assoc]
    exact List.prefix_append _ _
  have hseparators : header.separators.length < fuel := by
    have hshort := hlen
    simp only [PpmHeader.bytes, List.length_append, List.length_cons, List.length_nil] at hshort
    omega
  obtain ⟨⟨hp, h6⟩, start, hskip, hw, hwsep, hh, hhsep, hm, hmsep, hend⟩ :=
    header.parsed (by omega) (by omega) (by omega) hreads hseparators
  have hfileSize : (int32 (header.bytes.length + 3 * header.width * header.height) % 2 ^ 64).toNat =
      header.bytes.length + 3 * (header.width * header.height) := by
    rw [Int.mul_assoc, ← Nat.cast_mul, int32_of_lt (by omega) (by omega)]
    omega
  have hcount : (int32 (header.width * header.height)).toNat = pixels.length := by
    rw [← Nat.cast_mul, int32_of_lt (by omega) (by omega), hpixels, Int.toNat_natCast]
  have hpixelReads : Reads ⟨syscallRead file 0
      (header.bytes.length + 3 * (header.width * header.height)) ppmMem, header.bytes.length⟩
      (pixels.flatMap Rgb.bytes) := by
    have hlen : (header.bytes ++ pixels.flatMap Rgb.bytes).length ≤
        header.bytes.length + 3 * (header.width * header.height) := by
      rw [List.length_append, length_flatMap_bytes, hpixels]
    have hall := syscallRead_reads ppmMem (hfile ▸ List.prefix_append _ _) hlen
    have hpixels := hall.append.2
    rwa [Nat.zero_add] at hpixels
  refine ⟨{reader with
    width := header.width
    height := header.height
    buff := some (copyPixels (syscallRead file 0
      (header.bytes.length + 3 * (header.width * header.height)) ppmMem) header.bytes.length buff
      pixels.length)}, _, ?_, rfl, rfl, rfl, fun i hi => ?_⟩
  · rw [PpmReader.loadImage]
    simp only [hp, h6, ne_eq, not_true, or_self, if_false, hskip, Option.bind_eq_bind,
      Option.bind_some, hw, hwsep, hh, hhsep, hm, hmsep, hend, hcount]
    rw [hfileSize]
    rfl
  · rw [copyPixels_eq buff hi, ppmPixel_eq hpixelReads hi]

/-- Twelve by one pixels, with a line feed behind each number. -/
def twelveByOne : PpmHeader :=
  {separators := [0x0a]
   width := 12
   afterWidth := 0x20
   height := 1
   afterHeight := 0x0a
   maxValue := 255
   afterMax := 0x0a
   separators_ne := by decide
   separators_ok := List.forall_mem_singleton.mpr rfl
   after_ok := ⟨rfl, rfl, rfl⟩}

theorem ppm_loads_twelve :
    ∃ loaded filled, PpmReader.loadImage 100
        ⟨some (twelveByOne.bytes ++ (List.replicate 12 (⟨1, 2, 3⟩ : Rgb)).flatMap Rgb.bytes ++ []),
          fun _ => 0, some fun _ => 0, some fun _ => 0⟩ ⟨0, 0, 32, none⟩ = some (.noErr, loaded) ∧
      loaded.width = twelveByOne.width ∧ loaded.height = twelveByOne.height ∧
      loaded.buff = some filled ∧
      ∀ (i : Nat) (hi : i < (List.replicate 12 (⟨1, 2, 3⟩ : Rgb)).length),
        filled i = (List.replicate 12 (⟨1, 2, 3⟩ : Rgb))[i].word :=
  ppm_loads_image twelveByOne (by decide) (by decide) (by decide) (by decide) (by decide) _ (by decide)
    [] _ _ _ _ (Nat.le_refl 100)

end Tellurium.LibTellur
