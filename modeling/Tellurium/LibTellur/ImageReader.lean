import Tellurium.LibTellur.DataStream
import Tellurium.Lib.Int32
import Tellurium.Lib.Pixel
import Mathlib.Logic.Function.Basic
import Mathlib.Tactic.IntervalCases

/-!
Loading BMP images (`libTellur/ImageReader.cpp`). The headers are checked with 32-bit products,
the image data is then read bit by bit at 64-bit offsets, and the loops count in `int`. The
decoding loop keeps a record of the bits it reads and of the places of `buff` it writes.
-/

namespace Tellurium.LibTellur

open Tellurium.Lib

inductive ImageReaderErrors where
  | noErr
  | default
  | invalidFileFormat
  | invalidArgs
  | invalidBpp
  | invalidDimensions
  | unsupportedCompress
  | invalidId
  | invalidDibHeader
  | invalidColorPlanes
  | invalidColorPalette
  | invalidImportantColors
  | noMem
  deriving DecidableEq

/-- What a reader shows of its image. -/
structure ImageReader where
  width : Int
  height : Int
  bpp : Int
  buff : Option (Nat → Nat)

/-- `syscall_read` of `len` bytes at `pos`; behind the end of the file the memory stays. -/
def syscallRead (file : List UInt8) (pos len : Nat) (mem : Nat → UInt8) : Nat → UInt8 :=
  fun i => if i < len then file.getD (pos + i) (mem i) else mem i

structure BmpFileHeader where
  headerID : Nat
  fileSize : Nat
  reserved0 : Nat
  resorved1 : Nat
  bmpOffset : Nat
  deriving Inhabited

structure DibHeader where
  dibHeaderLen : Nat
  bmpWidth : Nat
  bmpHeight : Nat
  nColorPlanes : Nat
  bpp : Nat
  compressionMethod : Nat
  imageSize : Nat
  hResolution : Nat
  vResolution : Nat
  nColorPalette : Nat
  nImportantColors : Nat
  deriving Inhabited

def biRgb : Nat := 0
def biBitfields : Nat := 3

/-- The two sizes are those of the structures with their padding. -/
def headerInfoLen : Nat := 16 + 40

/-- The headers are filled in as far as the checks let them. -/
def loadBmpHeaders (bmp : BmpFileHeader) (dib : DibHeader) (s : DataStream) :
    ImageReaderErrors × BmpFileHeader × DibHeader :=
  let (headerID, s) := decodeUInt16 s
  let bmp := {bmp with headerID}
  if headerID ≠ 0x4d42 then (.invalidId, bmp, dib)
  else
  let (fileSize, s) := decodeUInt32 s
  let (reserved0, s) := decodeUInt16 s
  let (resorved1, s) := decodeUInt16 s
  let (bmpOffset, s) := decodeUInt32 s
  let bmp := {bmp with fileSize, reserved0, resorved1, bmpOffset}
  let (dibHeaderLen, s) := decodeUInt32 s
  let dib := {dib with dibHeaderLen}
  if dibHeaderLen ≠ 124 then (.invalidDibHeader, bmp, dib)
  else
  let (bmpWidth, s) := decodeUInt32 s
  let (bmpHeight, s) := decodeUInt32 s
  let (nColorPlanes, s) := decodeUInt16 s
  let dib := {dib with bmpWidth, bmpHeight, nColorPlanes}
  if nColorPlanes ≠ 1 then (.invalidColorPlanes, bmp, dib)
  else
  let (bpp, s) := decodeUInt16 s
  let dib := {dib with bpp}
  if bpp ≠ 32 ∧ bpp ≠ 24 then (.invalidBpp, bmp, dib)
  else
  let (compressionMethod, s) := decodeUInt32 s
  let dib := {dib with compressionMethod}
  if compressionMethod ≠ biRgb ∧ compressionMethod ≠ biBitfields then
    (.unsupportedCompress, bmp, dib)
  else
  let (imageSize, s) := decodeUInt32 s
  let dib := {dib with imageSize}
  if 8 * imageSize % 2 ^ 32 ≠ bpp * bmpHeight * bmpWidth % 2 ^ 32 then
    (.invalidDimensions, bmp, dib)
  else
  let (hResolution, s) := decodeUInt32 s
  let (vResolution, s) := decodeUInt32 s
  let (nColorPalette, s) := decodeUInt32 s
  let dib := {dib with hResolution, vResolution, nColorPalette}
  if nColorPalette ≠ 0 then (.invalidColorPalette, bmp, dib)
  else
  let (nImportantColors, _) := decodeUInt32 s
  let dib := {dib with nImportantColors}
  if nImportantColors ≠ 0 then (.invalidImportantColors, bmp, dib)
  else (.noErr, bmp, dib)

/-- The channels of a pixel as far as they are collected, and the bits read for them. -/
structure Channels where
  alpha : Nat := 0
  red : Nat := 0
  green : Nat := 0
  blue : Nat := 0
  reads : List Nat := []

def bit (data : Nat → UInt8) (n : Nat) : Nat := ((data (n / 8)).toNat >>> (n % 8)) &&& 1

/-- `n + k` for a `size_t`. -/
def addSize (n k : Nat) : Nat := (n + k) % 2 ^ 64

/-- The loop of the case `32`, after its first `n` rounds. -/
def channels32 (data : Nat → UInt8) (bitStart : Nat) : Nat → Channels
  | 0 => {}
  | i + 1 =>
      let c := channels32 data bitStart i
      {alpha := c.alpha ||| bit data (addSize bitStart (24 + i)) <<< i
       red := c.red ||| bit data (addSize bitStart (16 + i)) <<< i
       green := c.green ||| bit data (addSize bitStart (8 + i)) <<< i
       blue := c.blue ||| bit data (addSize bitStart i) <<< i
       reads := c.reads ++ [addSize bitStart (24 + i), addSize bitStart (16 + i),
        addSize bitStart (8 + i), addSize bitStart i]}

/-- The loop of the case `24`, after its first `n` rounds. -/
def channels24 (data : Nat → UInt8) (bitStart : Nat) : Nat → Channels
  | 0 => {}
  | i + 1 =>
      let c := channels24 data bitStart i
      {c with
        red := c.red ||| bit data (addSize bitStart (16 + i)) <<< i
        green := c.green ||| bit data (addSize bitStart (8 + i)) <<< i
        blue := c.blue ||| bit data (addSize bitStart i) <<< i
        reads := c.reads ++ [addSize bitStart (16 + i), addSize bitStart (8 + i),
          addSize bitStart i]}

/-- The pixel at `(row, column)` and the bits read for it. -/
def bmpGetPixel (dib : DibHeader) (data : Nat → UInt8) (row column : Nat) : Nat × List Nat :=
  let bitStart := dib.bpp * (dib.bmpWidth * row + column) % 2 ^ 64
  let c := if dib.bpp = 32 then channels32 data bitStart 8
    else if dib.bpp = 24 then channels24 data bitStart 8
    else {}
  (c.alpha <<< 24 ||| c.red <<< 16 ||| c.green <<< 8 ||| c.blue, c.reads)

/-- The buffer while it is filled, with the bits read and the places written so far. -/
structure Decoding where
  buff : Nat → Nat
  pixelCounter : Nat := 0
  reads : List Nat := []
  writes : List Nat := []

/-- `buff[pixelCounter++] = pixel`. -/
def Decoding.put (d : Decoding) (pixel : Nat × List Nat) : Decoding :=
  {buff := Function.update d.buff d.pixelCounter pixel.1
   pixelCounter := d.pixelCounter + 1
   reads := d.reads ++ pixel.2
   writes := d.writes ++ [d.pixelCounter]}

/-- The inner loop, after the first `n` columns. -/
def decodeRow (dib : DibHeader) (data : Nat → UInt8) (row : Nat) (d : Decoding) : Nat → Decoding
  | 0 => d
  | j + 1 => (decodeRow dib data row d j).put (bmpGetPixel dib data row j)

/-- The outer loop, for the rows from `n - 1` down to 0. -/
def decodeRows (dib : DibHeader) (data : Nat → UInt8) (width : Nat) : Nat → Decoding → Decoding
  | 0, d => d
  | i + 1, d => decodeRows dib data width i (decodeRow dib data i d width)

/-- The rows that the loop over `int i = bmpHeight - 1` passes; the difference wraps. -/
def rowCount (dib : DibHeader) : Nat := (int32 (int32 dib.bmpHeight - 1) + 1).toNat

/-- The decoding loops of `loadImage`, on an allocated `buff`. -/
def decode (dib : DibHeader) (data : Nat → UInt8) (buff : Nat → Nat) : Decoding :=
  decodeRows dib data (int32 dib.bmpWidth).toNat (rowCount dib) {buff}

/-- The number of elements that are asked for `buff`: an `int` product, taken as a `size_t`. -/
def buffLen (dib : DibHeader) : Nat :=
  (int32 (int32 dib.bmpWidth * int32 dib.bmpHeight) % 2 ^ 64).toNat

/-- `new T[n]`; no elements are no block for `user_malloc`. -/
def newArray {T : Type} (n : Nat) (answer : Option (Nat → T)) : Option (Nat → T) :=
  if n = 0 then none else answer

structure BmpReader extends ImageReader where
  bmpHeader : BmpFileHeader
  dibHeader : DibHeader

/-- What `open` finds at the path, and what `new` answers for the three blocks. -/
structure BmpWorld where
  file : Option (List UInt8)
  headerData : Option (Nat → UInt8)
  bmpData : Option (Nat → UInt8)
  buff : Option (Nat → Nat)

/-- `loadImage` behind the headers. -/
def BmpReader.loadImageData (world : BmpWorld) (file : List UInt8) (reader : BmpReader) :
    ImageReaderErrors × BmpReader :=
  let dibHeader := reader.dibHeader
  match newArray dibHeader.imageSize world.bmpData with
  | none => (.noMem, reader)
  | some bmpData =>
  let bmpData := syscallRead file reader.bmpHeader.bmpOffset dibHeader.imageSize bmpData
  match newArray (buffLen dibHeader) world.buff with
  | none => (.noMem, {reader with buff := none})
  | some buff =>
  let decoding := decode dibHeader bmpData buff
  (.noErr, {reader with
    buff := some decoding.buff
    width := int32 dibHeader.bmpWidth
    height := int32 dibHeader.bmpHeight
    bpp := dibHeader.bpp})

def BmpReader.loadImage (world : BmpWorld) (reader : BmpReader) : ImageReaderErrors × BmpReader :=
  match world.file with
  | none => (.default, reader)
  | some file =>
  match world.headerData with
  | none => (.noMem, reader)
  | some headerData =>
  let headerData := syscallRead file 0 headerInfoLen headerData
  let (err, bmpHeader, dibHeader) :=
    loadBmpHeaders reader.bmpHeader reader.dibHeader {data := headerData, index := 0}
  let reader := {reader with bmpHeader, dibHeader}
  if err ≠ .noErr then (err, reader) else reader.loadImageData world file

/-- The little-endian numbers of the header bytes. -/
def le16 (data : Nat → UInt8) (start : Nat) : Nat := (decodeUInt16 {data, index := start}).1

def le32 (data : Nat → UInt8) (start : Nat) : Nat := (decodeUInt32 {data, index := start}).1

/-- The headers that 54 bytes spell. -/
def bmpFields (data : Nat → UInt8) : BmpFileHeader :=
  {headerID := le16 data 0
   fileSize := le32 data 2
   reserved0 := le16 data 6
   resorved1 := le16 data 8
   bmpOffset := le32 data 10}

def dibFields (data : Nat → UInt8) : DibHeader :=
  {dibHeaderLen := le32 data 14
   bmpWidth := le32 data 18
   bmpHeight := le32 data 22
   nColorPlanes := le16 data 26
   bpp := le16 data 28
   compressionMethod := le32 data 30
   imageSize := le32 data 34
   hResolution := le32 data 38
   vResolution := le32 data 42
   nColorPalette := le32 data 46
   nImportantColors := le32 data 50}

/-- What the checks of `loadBmpHeaders` let through. -/
structure Accepted (bmp : BmpFileHeader) (dib : DibHeader) : Prop where
  headerID : bmp.headerID = 0x4d42
  dibHeaderLen : dib.dibHeaderLen = 124
  nColorPlanes : dib.nColorPlanes = 1
  bpp : dib.bpp = 32 ∨ dib.bpp = 24
  compression : dib.compressionMethod = biRgb ∨ dib.compressionMethod = biBitfields
  dimensions : 8 * dib.imageSize % 2 ^ 32 = dib.bpp * dib.bmpHeight * dib.bmpWidth % 2 ^ 32
  nColorPalette : dib.nColorPalette = 0
  nImportantColors : dib.nImportantColors = 0

section Headers

variable {bmp : BmpFileHeader} {dib : DibHeader} {data : Nat → UInt8}

/-- Bytes that pass the checks leave the headers they spell. -/
theorem loadBmpHeaders_of_accepted (h : Accepted (bmpFields data) (dibFields data)) :
    loadBmpHeaders bmp dib {data, index := 0} = (.noErr, bmpFields data, dibFields data) := by
  obtain ⟨hid, hlen, hplanes, hbpp, hcompression, hdimensions, hpalette, himportant⟩ := h
  refine (if_neg (not_not.mpr hid)).trans ?_
  refine (if_neg (not_not.mpr hlen)).trans ?_
  refine (if_neg (not_not.mpr hplanes)).trans ?_
  refine (if_neg (or_iff_not_and_not.mp hbpp)).trans ?_
  refine (if_neg (or_iff_not_and_not.mp hcompression)).trans ?_
  refine (if_neg (not_not.mpr hdimensions)).trans ?_
  refine (if_neg (not_not.mpr hpalette)).trans ?_
  exact if_neg (not_not.mpr himportant)

/-- A check that did not return its error. -/
theorem passed {c : Prop} [Decidable c] {err : ImageReaderErrors} {headers : BmpFileHeader × DibHeader}
    {rest : ImageReaderErrors × BmpFileHeader × DibHeader} (herr : err ≠ .noErr)
    (h : (if c then (err, headers) else rest).1 = .noErr) : ¬ c ∧ rest.1 = .noErr := by
  by_cases hc : c
  · rw [if_pos hc] at h
    exact absurd h herr
  · rw [if_neg hc] at h
    exact ⟨hc, h⟩

theorem accepted_of_noErr (h : (loadBmpHeaders bmp dib {data, index := 0}).1 = .noErr) :
    Accepted (bmpFields data) (dibFields data) := by
  obtain ⟨hid, h⟩ := passed (by decide) h
  obtain ⟨hlen, h⟩ := passed (by decide) h
  obtain ⟨hplanes, h⟩ := passed (by decide) h
  obtain ⟨hbpp, h⟩ := passed (by decide) h
  obtain ⟨hcompression, h⟩ := passed (by decide) h
  obtain ⟨hdimensions, h⟩ := passed (by decide) h
  obtain ⟨hpalette, h⟩ := passed (by decide) h
  obtain ⟨himportant, -⟩ := passed (by decide) h
  exact ⟨not_not.mp hid, not_not.mp hlen, not_not.mp hplanes,
    or_iff_not_and_not.mpr hbpp, or_iff_not_and_not.mpr hcompression, not_not.mp hdimensions,
    not_not.mp hpalette, not_not.mp himportant⟩

theorem le32_lt (data : Nat → UInt8) (start : Nat) : le32 data start < 2 ^ 32 := by
  have hbyte : ∀ i, (data i).toNat < 2 ^ 8 := fun i => (data i).toNat_lt
  have hshift : ∀ i k, k ≤ 24 → (data i).toNat <<< k < 2 ^ 32 := by
    intro i k hk
    apply Nat.lt_of_lt_of_le (Nat.shiftLeft_lt (hbyte i))
    exact Nat.pow_le_pow_right (by decide) (by omega)
  have hfirst : (data start).toNat < 2 ^ 32 := Nat.lt_trans (hbyte start) (by decide)
  apply Nat.or_lt_two_pow
  · apply Nat.or_lt_two_pow
    · exact Nat.or_lt_two_pow hfirst (hshift _ 8 (by decide))
    · exact hshift _ 16 (by decide)
  · exact hshift _ 24 (by decide)

end Headers

section Bits

variable {data : Nat → UInt8} {bitStart n : Nat}

theorem bit_eq (data : Nat → UInt8) (m : Nat) {i : Nat} (hi : i < 8) :
    bit data (8 * m + i) = (data m).toNat / 2 ^ i % 2 := by
  have hbyte : (8 * m + i) / 8 = m := by omega
  have hbit : (8 * m + i) % 8 = i := by omega
  rw [bit, hbyte, hbit, Nat.and_one_is_mod, Nat.shiftRight_eq_div_pow]

/-- One more bit of the byte `m` joins the low bits that a channel already has. -/
theorem or_bit {channel m i start : Nat} (hchannel : channel = (data m).toNat % 2 ^ i) (hi : i < 8)
    (hat : start = 8 * m + i) :
    channel ||| bit data start <<< i = (data m).toNat % 2 ^ (i + 1) := by
  have hlow : channel < 2 ^ i := by
    rw [hchannel]
    exact Nat.mod_lt _ (Nat.two_pow_pos i)
  rw [hat, bit_eq data m hi, Nat.shiftLeft_eq, Nat.mul_comm, Nat.or_comm,
    ← Nat.two_pow_add_eq_or_of_lt hlow, Nat.mod_pow_succ, hchannel, Nat.add_comm]

/-- Four bytes, the lowest first. -/
theorem channels32_eq {m : Nat} (hm : 8 * m + 32 ≤ 2 ^ 64) (hn : n ≤ 8) :
    (channels32 data (8 * m) n).blue = (data m).toNat % 2 ^ n ∧
      (channels32 data (8 * m) n).green = (data (m + 1)).toNat % 2 ^ n ∧
      (channels32 data (8 * m) n).red = (data (m + 2)).toNat % 2 ^ n ∧
      (channels32 data (8 * m) n).alpha = (data (m + 3)).toNat % 2 ^ n := by
  induction n with
  | zero => simp [channels32, Nat.mod_one]
  | succ i ih =>
      obtain ⟨hblue, hgreen, hred, halpha⟩ := ih (by omega)
      exact ⟨or_bit hblue (by omega) (by rw [addSize]; omega),
        or_bit hgreen (by omega) (by rw [addSize]; omega),
        or_bit hred (by omega) (by rw [addSize]; omega),
        or_bit halpha (by omega) (by rw [addSize]; omega)⟩

/-- Three bytes, the lowest first. -/
theorem channels24_eq {m : Nat} (hm : 8 * m + 24 ≤ 2 ^ 64) (hn : n ≤ 8) :
    (channels24 data (8 * m) n).blue = (data m).toNat % 2 ^ n ∧
      (channels24 data (8 * m) n).green = (data (m + 1)).toNat % 2 ^ n ∧
      (channels24 data (8 * m) n).red = (data (m + 2)).toNat % 2 ^ n ∧
      (channels24 data (8 * m) n).alpha = 0 := by
  induction n with
  | zero => simp [channels24, Nat.mod_one]
  | succ i ih =>
      obtain ⟨hblue, hgreen, hred, halpha⟩ := ih (by omega)
      exact ⟨or_bit hblue (by omega) (by rw [addSize]; omega),
        or_bit hgreen (by omega) (by rw [addSize]; omega),
        or_bit hred (by omega) (by rw [addSize]; omega), halpha⟩

/-- The bits read by a loop whose round `i` reads bit `i` of each of `count` bytes, the highest
byte first. -/
theorem mem_reads_rounds {reads : Nat → List Nat} {count k : Nat} (h₀ : reads 0 = [])
    (hround : ∀ i, reads (i + 1) =
      reads i ++ (List.range count).reverse.map fun c => addSize bitStart (8 * c + i)) :
    k ∈ reads n ↔ ∃ i < n, ∃ c < count, k = addSize bitStart (8 * c + i) := by
  induction n with
  | zero => simp [h₀]
  | succ n ih =>
      rw [hround, List.mem_append, ih]
      simp only [List.mem_map, List.mem_reverse, List.mem_range]
      constructor
      · rintro (⟨i, hi, hread⟩ | ⟨c, hc, rfl⟩)
        · exact ⟨i, by omega, hread⟩
        · exact ⟨n, by omega, c, hc, rfl⟩
      · rintro ⟨i, hi, c, hc, rfl⟩
        by_cases hlast : i = n
        · exact Or.inr ⟨c, hc, by rw [hlast]⟩
        · exact Or.inl ⟨i, by omega, c, hc, rfl⟩

theorem mem_reads_channels32 {k : Nat} : k ∈ (channels32 data bitStart n).reads ↔
    ∃ i < n, ∃ c < 4, k = addSize bitStart (8 * c + i) := by
  apply @mem_reads_rounds _ _ fun n => (channels32 data bitStart n).reads
  · rfl
  · intro i
    simp [channels32, List.range_succ]

theorem mem_reads_channels24 {k : Nat} : k ∈ (channels24 data bitStart n).reads ↔
    ∃ i < n, ∃ c < 3, k = addSize bitStart (8 * c + i) := by
  apply @mem_reads_rounds _ _ fun n => (channels24 data bitStart n).reads
  · rfl
  · intro i
    simp [channels24, List.range_succ]

end Bits

section Loops

variable {dib : DibHeader} {data : Nat → UInt8} {d : Decoding} {row width n : Nat}

/-- A pixel is read from the `bpp` bits behind its offset. -/
theorem mem_reads_bmpGetPixel (hbpp : dib.bpp = 32 ∨ dib.bpp = 24) (row column k : Nat) :
    k ∈ (bmpGetPixel dib data row column).2 ↔
      ∃ r < dib.bpp, k = addSize (dib.bpp * (dib.bmpWidth * row + column) % 2 ^ 64) r := by
  rcases hbpp with hbpp | hbpp
  · rw [bmpGetPixel, hbpp, if_pos rfl, mem_reads_channels32]
    constructor
    · rintro ⟨i, hi, c, hc, rfl⟩
      exact ⟨8 * c + i, by omega, rfl⟩
    · rintro ⟨r, hr, rfl⟩
      exact ⟨r % 8, by omega, r / 8, by omega, by rw [Nat.div_add_mod]⟩
  · rw [bmpGetPixel, hbpp, if_neg (by decide), if_pos rfl, mem_reads_channels24]
    constructor
    · rintro ⟨i, hi, c, hc, rfl⟩
      exact ⟨8 * c + i, by omega, rfl⟩
    · rintro ⟨r, hr, rfl⟩
      exact ⟨r % 8, by omega, r / 8, by omega, by rw [Nat.div_add_mod]⟩

theorem decodeRow_spec (dib : DibHeader) (data : Nat → UInt8) (row : Nat) (d : Decoding) (n : Nat) :
    (decodeRow dib data row d n).pixelCounter = d.pixelCounter + n ∧
      (∀ k, k ∈ (decodeRow dib data row d n).reads ↔
        k ∈ d.reads ∨ ∃ j < n, k ∈ (bmpGetPixel dib data row j).2) ∧
      (∀ k, k ∈ (decodeRow dib data row d n).writes ↔
        k ∈ d.writes ∨ d.pixelCounter ≤ k ∧ k < d.pixelCounter + n) ∧
      (∀ j < n, (decodeRow dib data row d n).buff (d.pixelCounter + j) =
        (bmpGetPixel dib data row j).1) ∧
      ∀ k < d.pixelCounter, (decodeRow dib data row d n).buff k = d.buff k := by
  induction n with
  | zero => simp [decodeRow]
  | succ n ih =>
      obtain ⟨hcounter, hreads, hwrites, hnew, hold⟩ := ih
      refine ⟨?_, fun k => ?_, fun k => ?_, fun j hj => ?_, fun k hk => ?_⟩
      · rw [decodeRow, Decoding.put, hcounter, Nat.add_assoc]
      · rw [decodeRow, Decoding.put, List.mem_append, hreads]
        constructor
        · rintro ((hk | ⟨j, hj, hk⟩) | hk)
          · exact Or.inl hk
          · exact Or.inr ⟨j, by omega, hk⟩
          · exact Or.inr ⟨n, by omega, hk⟩
        · rintro (hk | ⟨j, hj, hk⟩)
          · exact Or.inl (Or.inl hk)
          · rcases Nat.lt_succ_iff_lt_or_eq.mp hj with hlt | rfl
            · exact Or.inl (Or.inr ⟨j, hlt, hk⟩)
            · exact Or.inr hk
      · rw [decodeRow, Decoding.put, List.mem_append, hwrites, List.mem_singleton, hcounter, or_assoc]
        exact or_congr_right (by omega)
      · simp only [decodeRow, Decoding.put, hcounter]
        rcases Nat.lt_succ_iff_lt_or_eq.mp hj with hlt | rfl
        · rw [Function.update_of_ne (by omega)]
          exact hnew j hlt
        · exact Function.update_self _ _ _
      · simp only [decodeRow, Decoding.put, hcounter]
        rw [Function.update_of_ne (by omega)]
        exact hold k hk

/-- The rows are taken from the last to the first, so row `i` of the file is row `n - 1 - i` of
what the loop adds to the buffer. -/
theorem decodeRows_spec (dib : DibHeader) (data : Nat → UInt8) (width n : Nat) (d : Decoding) :
    (∀ k, k ∈ (decodeRows dib data width n d).reads ↔
        k ∈ d.reads ∨ ∃ i < n, ∃ j < width, k ∈ (bmpGetPixel dib data i j).2) ∧
      (∀ k, k ∈ (decodeRows dib data width n d).writes ↔
        k ∈ d.writes ∨ d.pixelCounter ≤ k ∧ k < d.pixelCounter + n * width) ∧
      (∀ r < n, ∀ j < width, (decodeRows dib data width n d).buff (d.pixelCounter + r * width + j) =
        (bmpGetPixel dib data (n - 1 - r) j).1) ∧
      ∀ k < d.pixelCounter, (decodeRows dib data width n d).buff k = d.buff k := by
  induction n generalizing d with
  | zero => simp [decodeRows]
  | succ n ih =>
      obtain ⟨hcounter, hreads₁, hwrites₁, hnew₁, hold₁⟩ := decodeRow_spec dib data n d width
      obtain ⟨hreads, hwrites, hnew, hold⟩ := ih (decodeRow dib data n d width)
      rw [hcounter] at hwrites hnew hold
      refine ⟨fun k => ?_, fun k => ?_, fun r hr j hj => ?_, fun k hk => ?_⟩
      · rw [decodeRows, hreads, hreads₁]
        constructor
        · rintro ((hk | hk) | ⟨i, hi, hk⟩)
          · exact Or.inl hk
          · exact Or.inr ⟨n, by omega, hk⟩
          · exact Or.inr ⟨i, by omega, hk⟩
        · rintro (hk | ⟨i, hi, hk⟩)
          · exact Or.inl (Or.inl hk)
          · rcases Nat.lt_succ_iff_lt_or_eq.mp hi with hlt | rfl
            · exact Or.inr ⟨i, hlt, hk⟩
            · exact Or.inl (Or.inr hk)
      · rw [decodeRows, hwrites, hwrites₁, Nat.succ_mul, or_assoc]
        exact or_congr_right (by omega)
      · rw [decodeRows]
        cases r with
        | zero =>
            rw [Nat.zero_mul, Nat.add_zero, hold _ (by omega), hnew₁ j hj]
            simp
        | succ r =>
            have hplace : d.pixelCounter + (r + 1) * width + j =
                d.pixelCounter + width + r * width + j := by
              rw [Nat.succ_mul]
              omega
            have hrow : n + 1 - 1 - (r + 1) = n - 1 - r := by omega
            rw [hplace, hnew r (by omega) j hj, hrow]
      · rw [decodeRows, hold k (by omega), hold₁ k hk]

end Loops

/-- If there are blocks for both, the decoding loops read only bits of the image data and write
only elements of `buff`. -/
def DecodesInRange (dib : DibHeader) (image : Option (Nat → UInt8)) (buff : Option (Nat → Nat)) :
    Prop :=
  ∀ data pixels, newArray dib.imageSize image = some data →
    newArray (buffLen dib) buff = some pixels →
      (∀ k ∈ (decode dib data pixels).reads, k < 8 * dib.imageSize) ∧
        ∀ k ∈ (decode dib data pixels).writes, k < buffLen dib

section Range

variable {dib : DibHeader} {data : Nat → UInt8} {pixels : Nat → Nat} {image : Option (Nat → UInt8)}
  {buff : Option (Nat → Nat)}

theorem newArray_eq_some {T : Type} {n : Nat} {answer : Option (Nat → T)} {block : Nat → T} :
    newArray n answer = some block ↔ n ≠ 0 ∧ answer = some block := by
  rw [newArray]
  split
  next h => exact iff_of_false nofun fun hblock => hblock.1 h
  next h => exact (and_iff_right h).symm

theorem int32_word {n : Nat} (hn : n < 2 ^ 31) : int32 n = n := int32_of_lt (by omega) (by omega)

/-- A large width is a negative `int`. -/
theorem int32_large {n : Nat} (hlow : 2 ^ 31 ≤ n) (hhigh : n < 2 ^ 32) : (int32 n).toNat = 0 := by
  rw [int32_of_ge (by omega) (by omega)]
  omega

/-- The least `int` minus 1 is the largest one. -/
theorem rowCount_of_le (h : dib.bmpHeight ≤ 2 ^ 31) : rowCount dib = dib.bmpHeight := by
  rcases Nat.lt_or_eq_of_le h with hlt | heq
  · rw [rowCount, int32_word hlt, int32_of_lt (by omega) (by omega)]
    omega
  · rw [rowCount, heq]
    rfl

theorem rowCount_large (hlow : 2 ^ 31 < dib.bmpHeight) (hhigh : dib.bmpHeight < 2 ^ 32) :
    rowCount dib = 0 := by
  have hnegative : int32 dib.bmpHeight = dib.bmpHeight - 2 ^ 32 := int32_of_ge (by omega) (by omega)
  rw [rowCount, hnegative, int32_of_lt (by omega) (by omega)]
  omega

theorem buffLen_eq_zero : buffLen dib = 0 ↔ 2 ^ 32 ∣ dib.bmpWidth * dib.bmpHeight := by
  have hproduct : int32 (int32 dib.bmpWidth * int32 dib.bmpHeight) =
      int32 (dib.bmpWidth * dib.bmpHeight : Nat) := by
    rw [int32, int32, int32, Int.bmod_mul_bmod, Int.mul_bmod_bmod, Nat.cast_mul]
    rfl
  have hbounds := int32_bounds (dib.bmpWidth * dib.bmpHeight : Nat)
  rw [buffLen, hproduct]
  constructor
  · intro hzero
    have hint : int32 (dib.bmpWidth * dib.bmpHeight : Nat) = 0 := by omega
    have hdvd := Int.dvd_of_bmod_eq_zero hint
    exact Int.natCast_dvd_natCast.mp hdvd
  · rintro ⟨c, hc⟩
    have hint : int32 (2 ^ 32 * c : Nat) = 0 :=
      Int.bmod_eq_zero_of_dvd (Int.natCast_dvd_natCast.mpr (Nat.dvd_mul_right _ c))
    rw [hc, hint]
    rfl

theorem mem_reads_decode (hbpp : dib.bpp = 32 ∨ dib.bpp = 24) (k : Nat) :
    k ∈ (decode dib data pixels).reads ↔
      ∃ i < rowCount dib, ∃ j < (int32 dib.bmpWidth).toNat, ∃ r < dib.bpp,
        k = addSize (dib.bpp * (dib.bmpWidth * i + j) % 2 ^ 64) r := by
  obtain ⟨hreads, -⟩ := decodeRows_spec dib data (int32 dib.bmpWidth).toNat (rowCount dib)
    {buff := pixels}
  rw [decode, hreads]
  simp [mem_reads_bmpGetPixel hbpp]

theorem mem_writes_decode (k : Nat) : k ∈ (decode dib data pixels).writes ↔
    k < rowCount dib * (int32 dib.bmpWidth).toNat := by
  obtain ⟨-, hwrites, -⟩ := decodeRows_spec dib data (int32 dib.bmpWidth).toNat (rowCount dib)
    {buff := pixels}
  rw [decode, hwrites]
  simp

theorem decodesInRange_of_empty (hbpp : dib.bpp = 32 ∨ dib.bpp = 24)
    (hempty : rowCount dib = 0 ∨ (int32 dib.bmpWidth).toNat = 0) :
    DecodesInRange dib image buff := by
  intro data pixels hdata hpixels
  constructor
  · intro k hk
    obtain ⟨i, hi, j, hj, -⟩ := (mem_reads_decode hbpp k).mp hk
    omega
  · intro k hk
    rw [mem_writes_decode, Nat.mul_eq_zero.mpr hempty] at hk
    exact absurd hk (Nat.not_lt_zero k)

/-- A pixel ends before the dimensions do. -/
theorem pixel_bits_le {i j : Nat} (hi : i < dib.bmpHeight) (hj : j < dib.bmpWidth) :
    dib.bpp * (dib.bmpWidth * i + j) + dib.bpp ≤ dib.bpp * (dib.bmpWidth * dib.bmpHeight) := by
  have hrows : dib.bmpWidth * (i + 1) ≤ dib.bmpWidth * dib.bmpHeight := Nat.mul_le_mul_left _ hi
  rw [Nat.mul_succ] at hrows
  rw [← Nat.mul_succ]
  exact Nat.mul_le_mul_left _ (by omega)

/-- Image data that is as large as the dimensions say holds every bit that is read, and the
number of pixels is an `int`. -/
theorem decodesInRange_of_le (hbpp : dib.bpp = 32 ∨ dib.bpp = 24) (hwidth : dib.bmpWidth < 2 ^ 31)
    (hheight : dib.bmpHeight ≤ 2 ^ 31) (hsize : dib.imageSize < 2 ^ 32)
    (hfits : dib.bpp * (dib.bmpWidth * dib.bmpHeight) ≤ 8 * dib.imageSize) :
    DecodesInRange dib image buff := by
  have hpixels : dib.bmpWidth * dib.bmpHeight < 2 ^ 31 := by
    have hleast : 24 * (dib.bmpWidth * dib.bmpHeight) ≤ dib.bpp * (dib.bmpWidth * dib.bmpHeight) :=
      Nat.mul_le_mul_right _ (by omega)
    omega
  intro data pixels hdata hpixels
  constructor
  · intro k hk
    obtain ⟨i, hi, j, hj, r, hr, rfl⟩ := (mem_reads_decode hbpp k).mp hk
    rw [rowCount_of_le hheight] at hi
    rw [int32_word hwidth, Int.toNat_natCast] at hj
    have hbits := Nat.le_trans (pixel_bits_le hi hj) hfits
    rw [addSize]
    omega
  · intro k hk
    rw [mem_writes_decode, rowCount_of_le hheight, int32_word hwidth, Int.toNat_natCast,
      Nat.mul_comm] at hk
    -- There is a pixel, so there are no more rows than pixels.
    have hpos : 0 < dib.bmpWidth := Nat.pos_of_mul_pos_right (Nat.zero_lt_of_lt hk)
    have hrows := Nat.le_mul_of_pos_left dib.bmpHeight hpos
    rw [buffLen, int32_word hwidth, int32_word (by omega), ← Nat.cast_mul, int32_word (by omega)]
    omega

/-- Otherwise the first bit behind the image data is read. -/
theorem not_decodesInRange (hbpp : dib.bpp = 32 ∨ dib.bpp = 24) (hwidth : dib.bmpWidth < 2 ^ 31)
    (hheight : dib.bmpHeight ≤ 2 ^ 31) (hsize : dib.imageSize < 2 ^ 32)
    (hshort : 8 * dib.imageSize < dib.bpp * (dib.bmpWidth * dib.bmpHeight))
    (hsome : dib.imageSize ≠ 0) (hproduct : ¬ 2 ^ 32 ∣ dib.bmpWidth * dib.bmpHeight) :
    ¬ DecodesInRange dib (some data) (some pixels) := by
  intro hrange
  obtain ⟨hreads, -⟩ := hrange data pixels (newArray_eq_some.mpr ⟨hsome, rfl⟩)
    (newArray_eq_some.mpr ⟨fun hzero => hproduct (buffLen_eq_zero.mp hzero), rfl⟩)
  have hpixel : 8 * dib.imageSize / dib.bpp < dib.bmpWidth * dib.bmpHeight :=
    Nat.div_lt_of_lt_mul hshort
  have hpos : 0 < dib.bmpWidth := by
    by_contra hzero
    rw [Nat.eq_zero_of_not_pos hzero, Nat.zero_mul] at hpixel
    exact Nat.not_lt_zero _ hpixel
  have hread : 8 * dib.imageSize ∈ (decode dib data pixels).reads := by
    apply (mem_reads_decode hbpp _).mpr
    refine ⟨8 * dib.imageSize / dib.bpp / dib.bmpWidth, ?_,
      8 * dib.imageSize / dib.bpp % dib.bmpWidth, ?_, 8 * dib.imageSize % dib.bpp,
      Nat.mod_lt _ (by omega), ?_⟩
    · rw [rowCount_of_le hheight]
      exact Nat.div_lt_of_lt_mul hpixel
    · rw [int32_word hwidth, Int.toNat_natCast]
      exact Nat.mod_lt _ hpos
    · have hwhole := Nat.div_add_mod (8 * dib.imageSize) dib.bpp
      rw [Nat.div_add_mod, addSize]
      omega
  exact Nat.lt_irrefl _ (hreads _ hread)

/-- Header bytes whose images are decoded in range. -/
def DecodableHeader (data : Nat → UInt8) : Prop :=
  le32 data 34 = 0 ∨ 2 ^ 32 ∣ le32 data 18 * le32 data 22 ∨
    2 ^ 31 ≤ le32 data 18 ∨ 2 ^ 31 < le32 data 22 ∨
    le16 data 28 * (le32 data 18 * le32 data 22) ≤ 8 * le32 data 34

/-- Accepted headers decode in range exactly if there is nothing to decode, because a block is
missing or an `int` takes a dimension for negative, or the image data is as large as the
dimensions say. -/
theorem decodes_in_range_iff (bmp : BmpFileHeader) (dib : DibHeader) (data : Nat → UInt8)
    (h : (loadBmpHeaders bmp dib {data, index := 0}).1 = .noErr) (image : Option (Nat → UInt8))
    (buff : Option (Nat → Nat)) :
    DecodesInRange (loadBmpHeaders bmp dib {data, index := 0}).2.2 image buff ↔
      image = none ∨ buff = none ∨ DecodableHeader data := by
  have haccepted := accepted_of_noErr h
  rw [loadBmpHeaders_of_accepted haccepted]
  constructor
  · intro hrange
    by_contra hnot
    obtain ⟨himage, hbuff, hheader⟩ := not_or.mp hnot |>.imp_right not_or.mp
    obtain ⟨image, rfl⟩ := Option.ne_none_iff_exists'.mp himage
    obtain ⟨buff, rfl⟩ := Option.ne_none_iff_exists'.mp hbuff
    simp only [DecodableHeader, not_or, Nat.not_le, Nat.not_lt] at hheader
    obtain ⟨hsome, hproduct, hwidth, hheight, hshort⟩ := hheader
    exact not_decodesInRange haccepted.bpp hwidth hheight (le32_lt data 34) hshort hsome hproduct
      hrange
  · rintro (rfl | rfl | hsize | hproduct | hwidth | hheight | hfits)
    · intro image buff hnone
      cases (newArray_eq_some.mp hnone).2
    · intro image buff _ hnone
      cases (newArray_eq_some.mp hnone).2
    · intro image buff hnone
      exact absurd hsize (newArray_eq_some.mp hnone).1
    · intro image buff _ hnone
      exact absurd (buffLen_eq_zero.mpr hproduct) (newArray_eq_some.mp hnone).1
    · exact decodesInRange_of_empty haccepted.bpp (Or.inr (int32_large hwidth (le32_lt data 18)))
    · exact decodesInRange_of_empty haccepted.bpp (Or.inl (rowCount_large hheight (le32_lt data 22)))
    · by_cases hwidth : le32 data 18 < 2 ^ 31
      · by_cases hheight : le32 data 22 ≤ 2 ^ 31
        · exact decodesInRange_of_le haccepted.bpp hwidth hheight (le32_lt data 34) hfits
        · exact decodesInRange_of_empty haccepted.bpp
            (Or.inl (rowCount_large (Nat.not_le.mp hheight) (le32_lt data 22)))
      · exact decodesInRange_of_empty haccepted.bpp
          (Or.inr (int32_large (Nat.not_lt.mp hwidth) (le32_lt data 18)))

end Range

/-- A header for the dimensions and the image size given by their bytes, with 32 bits a pixel. -/
def header32 (width height imageSize : List UInt8) : List UInt8 :=
  [0x42, 0x4d, 0, 0, 0, 0, 0, 0, 0, 0, 54, 0, 0, 0, 124, 0, 0, 0] ++ width ++ height ++
    [1, 0, 32, 0, 0, 0, 0, 0] ++ imageSize ++ List.replicate 16 0

/-- Two rows of two pixels in 16 bytes. -/
theorem decodes_in_range_two_rows : DecodesInRange (loadBmpHeaders default default
      (streamOf (header32 [2, 0, 0, 0] [2, 0, 0, 0] [16, 0, 0, 0]))).2.2
    (some fun _ => 0) (some fun _ => 0) :=
  (decodes_in_range_iff default default _ (by decide) _ _).mpr (Or.inr (Or.inr
    (Or.inr (Or.inr (Or.inr (Or.inr (by decide)))))))

/-- The number of 641 by 6700417 pixels is `2 ^ 32 + 1`, so the four bytes of one pixel pass for
enough, and one is what `buff` has room for. -/
theorem decodes_behind_image :
    let headers := loadBmpHeaders default default
      (streamOf (header32 [0x81, 2, 0, 0] [0x81, 0x3d, 0x66, 0] [4, 0, 0, 0]))
    headers.1 = .noErr ∧ buffLen headers.2.2 = 1 ∧
      ¬ DecodesInRange headers.2.2 (some fun _ => 0) (some fun _ => 0) := by
  refine ⟨by decide, by decide, not_decodesInRange (Or.inl ?_) ?_ ?_ ?_ ?_ ?_ ?_⟩
  · decide
  · decide
  · decide
  · decide
  · decide
  · decide
  · decide

structure Argb where
  alpha : UInt8
  red : UInt8
  green : UInt8
  blue : UInt8

/-- A pixel as the file stores it. -/
def Argb.bytes (bpp : Nat) (p : Argb) : List UInt8 :=
  if bpp = 32 then [p.blue, p.green, p.red, p.alpha] else [p.blue, p.green, p.red]

/-- A pixel as a word of the buffer; without an alpha channel that byte is 0. -/
def Argb.word (bpp : Nat) (p : Argb) : Nat :=
  (if bpp = 32 then p.alpha.toNat else 0) * 2 ^ 24 + p.red.toNat * 2 ^ 16 + p.green.toNat * 2 ^ 8 +
    p.blue.toNat

/-- The file stores the rows of the image from the last to the first, without padding. -/
def StoresImage (file : List UInt8) (start width height bpp : Nat) (image : Nat → Nat → Argb) :
    Prop :=
  ∀ r < height, ∀ c < width, ∀ k < bpp / 8,
    file[start + bpp / 8 * ((height - 1 - r) * width + c) + k]? = ((image r c).bytes bpp)[k]?

section Decode

variable {dib : DibHeader} {data : Nat → UInt8}

/-- A pixel whose bytes lie at its place is read as its word. -/
theorem bmpGetPixel_eq (hbpp : dib.bpp = 32 ∨ dib.bpp = 24) {row column : Nat} {p : Argb}
    (hfits : dib.bpp * (dib.bmpWidth * row + column) + dib.bpp ≤ 2 ^ 64)
    (hbytes : ∀ k < dib.bpp / 8, some (data (dib.bpp / 8 * (dib.bmpWidth * row + column) + k)) =
      (p.bytes dib.bpp)[k]?) :
    (bmpGetPixel dib data row column).1 = p.word dib.bpp := by
  have hchannel : ∀ b : UInt8, b.toNat < 2 ^ 8 := UInt8.toNat_lt
  have hlow : ∀ b : UInt8, b.toNat % 2 ^ 8 = b.toNat := fun b => Nat.mod_eq_of_lt (hchannel b)
  rcases hbpp with hbpp | hbpp
  · rw [hbpp] at hfits hbytes
    obtain ⟨m, hm⟩ : ∃ m, m = 32 / 8 * (dib.bmpWidth * row + column) := ⟨_, rfl⟩
    rw [← hm] at hbytes
    have hstart : 32 * (dib.bmpWidth * row + column) % 2 ^ 64 = 8 * m := by omega
    obtain ⟨hblue, hgreen, hred, halpha⟩ :=
      @channels32_eq data 8 m (by omega) (Nat.le_refl 8)
    have h0 : data m = p.blue := Option.some.inj (hbytes 0 (by decide))
    have h1 : data (m + 1) = p.green := Option.some.inj (hbytes 1 (by decide))
    have h2 : data (m + 2) = p.red := Option.some.inj (hbytes 2 (by decide))
    have h3 : data (m + 3) = p.alpha := Option.some.inj (hbytes 3 (by decide))
    rw [bmpGetPixel, hbpp, hstart, if_pos rfl, hblue, hgreen, hred, halpha, h0, h1, h2, h3, hlow,
      hlow, hlow, hlow, pack_channels (hchannel _) (hchannel _) (hchannel _), Argb.word, if_pos rfl]
  · rw [hbpp] at hfits hbytes
    obtain ⟨m, hm⟩ : ∃ m, m = 24 / 8 * (dib.bmpWidth * row + column) := ⟨_, rfl⟩
    rw [← hm] at hbytes
    have hstart : 24 * (dib.bmpWidth * row + column) % 2 ^ 64 = 8 * m := by omega
    obtain ⟨hblue, hgreen, hred, halpha⟩ :=
      @channels24_eq data 8 m (by omega) (Nat.le_refl 8)
    have h0 : data m = p.blue := Option.some.inj (hbytes 0 (by decide))
    have h1 : data (m + 1) = p.green := Option.some.inj (hbytes 1 (by decide))
    have h2 : data (m + 2) = p.red := Option.some.inj (hbytes 2 (by decide))
    rw [bmpGetPixel, hbpp, hstart, if_neg (by decide), if_pos rfl, hblue, hgreen, hred, halpha, h0,
      h1, h2, hlow, hlow, hlow, pack_channels (hchannel _) (hchannel _) (hchannel _), Argb.word,
      if_neg (by decide)]

/-- The fields of the header depend on its bytes only. -/
theorem fields_congr {other : Nat → UInt8} (h : ∀ i < 54, other i = data i) :
    bmpFields other = bmpFields data ∧ dibFields other = dibFields data := by
  have h16 : ∀ i, i + 2 ≤ 54 → le16 other i = le16 data i := by
    intro i hi
    simp only [le16, decodeUInt16, h i (by omega), h (i + 1) (by omega)]
  have h32 : ∀ i, i + 4 ≤ 54 → le32 other i = le32 data i := by
    intro i hi
    simp only [le32, decodeUInt32, h i (by omega), h (i + 1) (by omega), h (i + 2) (by omega),
      h (i + 3) (by omega)]
  constructor
  · simp only [bmpFields, h16 0 (by decide), h32 2 (by decide), h16 6 (by decide),
      h16 8 (by decide), h32 10 (by decide)]
  · simp only [dibFields, h32 14 (by decide), h32 18 (by decide), h32 22 (by decide),
      h16 26 (by decide), h16 28 (by decide), h32 30 (by decide), h32 34 (by decide),
      h32 38 (by decide), h32 42 (by decide), h32 46 (by decide), h32 50 (by decide)]

/-- The headers that are read from the file are those at its beginning. -/
theorem loadBmpHeaders_read {file : List UInt8} (hlen : 54 ≤ file.length) {bmp bmp' : BmpFileHeader}
    {dib' : DibHeader} (mem : Nat → UInt8)
    (h : loadBmpHeaders bmp dib (streamOf file) = (.noErr, bmp', dib')) :
    loadBmpHeaders bmp dib {data := syscallRead file 0 headerInfoLen mem, index := 0} =
        (.noErr, bmp', dib') ∧ Accepted bmp' dib' := by
  have haccepted : Accepted (bmpFields (streamOf file).data) (dibFields (streamOf file).data) :=
    accepted_of_noErr (congrArg Prod.fst h)
  have hfields := (loadBmpHeaders_of_accepted haccepted).symm.trans h
  have hread : ∀ i < 54, syscallRead file 0 headerInfoLen mem i = (streamOf file).data i := by
    intro i hi
    have hsame : file.getD i (mem i) = file.getD i 0 := by
      rw [List.getD_eq_getElem _ _ (by omega), List.getD_eq_getElem _ _ (by omega)]
    rw [syscallRead, if_pos (Nat.lt_trans hi (by decide)), Nat.zero_add]
    exact hsame
  obtain ⟨hbmp, hdib⟩ := fields_congr hread
  obtain ⟨-, hfields'⟩ := Prod.mk.inj hfields
  obtain ⟨rfl, rfl⟩ := Prod.mk.inj hfields'
  rw [← hbmp, ← hdib] at haccepted ⊢
  exact ⟨loadBmpHeaders_of_accepted haccepted, haccepted⟩

/-- With both blocks the decoded image is what the reader holds. -/
theorem loadImageData_of_blocks {world : BmpWorld} {file : List UInt8} {reader : BmpReader}
    {bmpData : Nat → UInt8} {buff : Nat → Nat}
    (hdata : newArray reader.dibHeader.imageSize world.bmpData = some bmpData)
    (hbuff : newArray (buffLen reader.dibHeader) world.buff = some buff) :
    reader.loadImageData world file = (.noErr, {reader with
      buff := some (decode reader.dibHeader
        (syscallRead file reader.bmpHeader.bmpOffset reader.dibHeader.imageSize bmpData) buff).buff
      width := int32 reader.dibHeader.bmpWidth
      height := int32 reader.dibHeader.bmpHeight
      bpp := reader.dibHeader.bpp}) := by
  rw [BmpReader.loadImageData]
  revert hdata hbuff
  -- The answers are named, so that nothing has to compute the number of elements.
  generalize newArray reader.dibHeader.imageSize world.bmpData = data
  generalize newArray (buffLen reader.dibHeader) world.buff = pixels
  rintro rfl rfl
  rfl

/-- Image data that holds the rows of an image bottom-up is decoded top-down. -/
theorem decode_image (hbpp : dib.bpp = 32 ∨ dib.bpp = 24) (hwidth : dib.bmpWidth < 2 ^ 31)
    (hheight : dib.bmpHeight < 2 ^ 31)
    (hsize : dib.bpp * (dib.bmpWidth * dib.bmpHeight) ≤ 2 ^ 64) {image : Nat → Nat → Argb}
    (hbytes : ∀ r < dib.bmpHeight, ∀ c < dib.bmpWidth, ∀ k < dib.bpp / 8,
      some (data (dib.bpp / 8 * (dib.bmpWidth * (dib.bmpHeight - 1 - r) + c) + k)) =
        ((image r c).bytes dib.bpp)[k]?) (buff : Nat → Nat) {r c : Nat} (hr : r < dib.bmpHeight)
    (hc : c < dib.bmpWidth) :
    (decode dib data buff).buff (r * dib.bmpWidth + c) = (image r c).word dib.bpp := by
  obtain ⟨-, -, hbuff, -⟩ := decodeRows_spec dib data dib.bmpWidth dib.bmpHeight {buff}
  have hplace := hbuff r hr c hc
  rw [Nat.zero_add] at hplace
  rw [decode, int32_word hwidth, rowCount_of_le (Nat.le_of_lt hheight), Int.toNat_natCast, hplace]
  apply bmpGetPixel_eq hbpp _ (hbytes r hr c hc)
  exact Nat.le_trans (pixel_bits_le (by omega) hc) hsize

end Decode

/-- An image that a file stores behind accepted headers is loaded, its rows turned upside
down. -/
theorem bmp_loads_image {width height bpp : Nat} (hwidth : 1 ≤ width) (hheight : 1 ≤ height)
    (hsize : bpp * width * height < 2 ^ 32) (image : Nat → Nat → Argb) (file : List UInt8)
    (hlen : 54 ≤ file.length) {bmp : BmpFileHeader} {dib : DibHeader} (reader : BmpReader)
    (hheaders : loadBmpHeaders reader.bmpHeader reader.dibHeader (streamOf file) = (.noErr, bmp, dib))
    (hdib : dib.bmpWidth = width ∧ dib.bmpHeight = height ∧ dib.bpp = bpp)
    (hstores : StoresImage file bmp.bmpOffset width height bpp image)
    (headerData bmpData : Nat → UInt8) (buff : Nat → Nat) :
    ∃ loaded filled, reader.loadImage ⟨some file, some headerData, some bmpData, some buff⟩ =
        (.noErr, loaded) ∧
      loaded.width = width ∧ loaded.height = height ∧ loaded.buff = some filled ∧
      ∀ r < height, ∀ c < width, filled (r * width + c) = (image r c).word bpp := by
  obtain ⟨rfl, rfl, rfl⟩ := hdib
  obtain ⟨hread, haccepted⟩ := loadBmpHeaders_read hlen headerData hheaders
  have hbpp := haccepted.bpp
  rw [Nat.mul_assoc] at hsize
  -- The product did not wrap, so the image data is at least as large and is read whole.
  have hbits : dib.bpp * (dib.bmpWidth * dib.bmpHeight) ≤ 8 * dib.imageSize := by
    have hdimensions := haccepted.dimensions
    rw [Nat.mul_assoc, Nat.mul_comm dib.bmpHeight, Nat.mod_eq_of_lt hsize] at hdimensions
    rw [← hdimensions]
    exact Nat.mod_le _ _
  have hleast : 24 * (dib.bmpWidth * dib.bmpHeight) ≤ dib.bpp * (dib.bmpWidth * dib.bmpHeight) :=
    Nat.mul_le_mul_right _ (by omega)
  have hsmallWidth : dib.bmpWidth ≤ dib.bmpWidth * dib.bmpHeight := Nat.le_mul_of_pos_right _ hheight
  have hsmallHeight : dib.bmpHeight ≤ dib.bmpWidth * dib.bmpHeight := Nat.le_mul_of_pos_left _ hwidth
  have hbytes : ∀ r < dib.bmpHeight, ∀ c < dib.bmpWidth, ∀ k < dib.bpp / 8,
      some (syscallRead file bmp.bmpOffset dib.imageSize bmpData
        (dib.bpp / 8 * (dib.bmpWidth * (dib.bmpHeight - 1 - r) + c) + k)) =
        ((image r c).bytes dib.bpp)[k]? := by
    intro r hr c hc k hk
    have hlast := @pixel_bits_le dib _ _ (show dib.bmpHeight - 1 - r < dib.bmpHeight by omega) hc
    have hplaces : dib.bpp / 8 * (dib.bmpWidth * (dib.bmpHeight - 1 - r) + c) + k < dib.imageSize ∧
        k < ((image r c).bytes dib.bpp).length := by
      rcases hbpp with hbpp | hbpp
      · rw [hbpp] at hlast hbits hk ⊢
        exact ⟨by omega, hk⟩
      · rw [hbpp] at hlast hbits hk ⊢
        exact ⟨by omega, hk⟩
    have hbyte := hstores r hr c hc k hk
    rw [Nat.mul_comm (dib.bmpHeight - 1 - r), Nat.add_assoc] at hbyte
    rw [syscallRead, if_pos hplaces.1, List.getD_eq_getElem?_getD, hbyte,
      List.getElem?_eq_getElem hplaces.2]
    rfl
  have hload : reader.loadImage ⟨some file, some headerData, some bmpData, some buff⟩ =
      (.noErr, {reader with
        bmpHeader := bmp
        dibHeader := dib
        buff := some (decode dib (syscallRead file bmp.bmpOffset dib.imageSize bmpData) buff).buff
        width := int32 dib.bmpWidth
        height := int32 dib.bmpHeight
        bpp := dib.bpp}) := by
    have hpixels : 1 ≤ dib.bmpWidth * dib.bmpHeight := Nat.mul_pos hwidth hheight
    have hdata : newArray dib.imageSize (some bmpData) = some bmpData :=
      newArray_eq_some.mpr ⟨by omega, rfl⟩
    have hbuff : newArray (buffLen dib) (some buff) = some buff := by
      refine newArray_eq_some.mpr ⟨fun hzero => ?_, rfl⟩
      have hdvd := buffLen_eq_zero.mp hzero
      have hwraps : 2 ^ 32 ≤ dib.bmpWidth * dib.bmpHeight := Nat.le_of_dvd hpixels hdvd
      omega
    simp only [BmpReader.loadImage, hread, ne_eq, not_true, if_false]
    exact loadImageData_of_blocks hdata hbuff
  have hloadedWidth : int32 dib.bmpWidth = dib.bmpWidth := int32_word (by omega)
  have hloadedHeight : int32 dib.bmpHeight = dib.bmpHeight := int32_word (by omega)
  rw [hloadedWidth, hloadedHeight] at hload
  refine ⟨_, _, hload, rfl, rfl, rfl, fun r hr c hc => ?_⟩
  exact decode_image hbpp (by omega) (by omega) (by omega) hbytes buff hr hc

/-- A file of two rows of two pixels. -/
theorem bmp_loads_two_rows : ∃ loaded filled,
    (⟨⟨0, 0, 32, none⟩, default, default⟩ : BmpReader).loadImage
        ⟨some (header32 [2, 0, 0, 0] [2, 0, 0, 0] [16, 0, 0, 0] ++
            [3, 0, 1, 255, 3, 1, 1, 255, 3, 0, 0, 255, 3, 1, 0, 255]),
          some fun _ => 0, some fun _ => 0, some fun _ => 0⟩ = (.noErr, loaded) ∧
      loaded.width = (2 : Nat) ∧ loaded.height = (2 : Nat) ∧ loaded.buff = some filled ∧
      ∀ r < 2, ∀ c < 2, filled (r * 2 + c) =
        (⟨255, UInt8.ofNat r, UInt8.ofNat c, 3⟩ : Argb).word 32 :=
  bmp_loads_image (by decide) (by decide) (by decide)
    (fun r c => ⟨255, UInt8.ofNat r, UInt8.ofNat c, 3⟩) _ (by decide) _ rfl
    ⟨by decide, by decide, by decide⟩ (by unfold StoresImage; decide) _ _ _

end Tellurium.LibTellur
