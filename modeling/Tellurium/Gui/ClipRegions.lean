import Tellurium.Gui.Rect
import Mathlib.Data.List.Pairwise
import Mathlib.Data.List.Perm.Basic

/-!
Clip lists of the compositor (`libGUI/Compositor.hpp`, `Compositor.cpp`). A clip list
holds at most `maxClipped` rectangles, each tagged with a window. `pushRect` drops a
rectangle when the list is full; the ghost flag `lost` records that this happened, and the
ghost list `dropped` what it happened to.

`removeClippedRegion` and `divideClippedRegion` scan the list for a rectangle that
overlaps the given one, replace it by its split pieces at the end of the list, and
start over. Both are instances of one scan, `splitOverlapping`.
-/

namespace Tellurium.Gui

variable {ω β : Type*}

structure ClipRect (ω : Type*) where
  rect : Rect
  win : ω

structure ClipRegions (ω : Type*) where
  clippedRects : List (ClipRect ω)
  maxClipped : Nat := 200
  lost : Bool := false
  dropped : List Rect := []

namespace ClipRegions

def numClipped (c : ClipRegions ω) : Nat := c.clippedRects.length

def pushRect (c : ClipRegions ω) (rect : ClipRect ω) : ClipRegions ω :=
  if c.numClipped < c.maxClipped then {c with clippedRects := c.clippedRects ++ [rect]}
  else {c with lost := true, dropped := c.dropped ++ [rect.rect]}

def deleteRect (c : ClipRegions ω) (index : Nat) : ClipRegions ω :=
  {c with clippedRects := c.clippedRects.eraseIdx index}

def resetClippedList (c : ClipRegions ω) : ClipRegions ω :=
  {c with clippedRects := [], lost := false, dropped := []}

def pushAll (c : ClipRegions ω) (rects : List (ClipRect ω)) : ClipRegions ω :=
  rects.foldl pushRect c

/-- The split pieces of `clip`, carrying its tag. -/
def splitPieces (rect : Rect) (clip : ClipRect ω) : List (ClipRect ω) :=
  (clip.rect.getSplitRects rect).map fun r => ⟨r, clip.win⟩

theorem pushRect_cases (c : ClipRegions ω) (r : ClipRect ω) :
    (c.pushRect r).clippedRects = c.clippedRects ++ [r] ∧ (c.pushRect r).lost = c.lost ∨
      (c.pushRect r).clippedRects = c.clippedRects ∧ (c.pushRect r).lost = true := by
  unfold pushRect
  split_ifs
  · exact Or.inl ⟨rfl, rfl⟩
  · exact Or.inr ⟨rfl, rfl⟩

/-- A push sequence that loses nothing appends. -/
theorem pushAll_of_not_lost (c : ClipRegions ω) (rs : List (ClipRect ω))
    (h : (c.pushAll rs).lost = false) :
    (c.pushAll rs).clippedRects = c.clippedRects ++ rs ∧ c.lost = false := by
  induction rs generalizing c with
  | nil => exact ⟨by simp [pushAll], h⟩
  | cons r rest ih =>
      obtain ⟨happ, hlost⟩ := ih (c.pushRect r) h
      rcases c.pushRect_cases r with hcase | hcase
      · refine ⟨?_, hcase.2 ▸ hlost⟩
        change ((c.pushRect r).pushAll rest).clippedRects = _
        rw [happ, hcase.1, List.append_assoc, List.singleton_append]
      · rw [hcase.2] at hlost
        cases hlost

/-- The rectangles of the list that overlap `rect`. The scan ends because splitting
one of them adds no new one, even when pieces are dropped. -/
def overlapCount (rect : Rect) (c : ClipRegions ω) : Nat :=
  c.clippedRects.countP fun clip => clip.rect.overlaps rect

theorem overlapCount_pushAll_le (rect : Rect) (c : ClipRegions ω)
    (rs : List (ClipRect ω)) (h : ∀ r ∈ rs, r.rect.overlaps rect = false) :
    (c.pushAll rs).overlapCount rect ≤ c.overlapCount rect := by
  induction rs generalizing c with
  | nil => exact Nat.le_refl _
  | cons r rest ih =>
      have hrest := ih (c.pushRect r) fun q hq => h q (List.mem_cons_of_mem r hq)
      have hr := h r List.mem_cons_self
      refine Nat.le_trans hrest ?_
      rcases c.pushRect_cases r with hcase | hcase
      · simp [overlapCount, hcase.1, hr]
      · simp [overlapCount, hcase.1]

theorem prefix_pushAll (c : ClipRegions ω) (rs : List (ClipRect ω)) :
    c.clippedRects <+: (c.pushAll rs).clippedRects := by
  induction rs generalizing c with
  | nil => exact List.prefix_refl _
  | cons r rest ih =>
      have hrest := ih (c.pushRect r)
      rcases c.pushRect_cases r with hcase | hcase
      · exact List.IsPrefix.trans ⟨[r], hcase.1.symm⟩ hrest
      · rw [hcase.1] at hrest
        exact hrest

/-- One hit of the scan at index `i`: push the pieces, delete the split rectangle. -/
def splitAt (rect : Rect) (c : ClipRegions ω) (i : Nat) (clip : ClipRect ω) :
    ClipRegions ω :=
  (c.pushAll (splitPieces rect clip)).deleteRect i

theorem splitPieces_not_overlaps (rect : Rect) (clip : ClipRect ω) :
    ∀ r ∈ splitPieces rect clip, r.rect.overlaps rect = false := by
  intro r hr
  obtain ⟨q, hq, rfl⟩ := List.mem_map.mp hr
  exact Rect.getSplitRects_not_overlaps clip.rect rect q hq

theorem overlapCount_splitAt_lt (rect : Rect) (c : ClipRegions ω) (i : Nat)
    (clip : ClipRect ω) (hi : c.clippedRects[i]? = some clip)
    (hover : clip.rect.overlaps rect = true) :
    (c.splitAt rect i clip).overlapCount rect < c.overlapCount rect := by
  have hle := c.overlapCount_pushAll_le rect _ (splitPieces_not_overlaps rect clip)
  have hget : (c.pushAll (splitPieces rect clip)).clippedRects[i]? = some clip := by
    obtain ⟨tail, htail⟩ := c.prefix_pushAll (splitPieces rect clip)
    rw [← htail, List.getElem?_append_left (List.getElem?_eq_some_iff.mp hi).1, hi]
  obtain ⟨hlt, hclip⟩ := List.getElem?_eq_some_iff.mp hget
  have hperm := (List.getElem_cons_eraseIdx_perm hlt).countP_eq
    fun clip : ClipRect ω => clip.rect.overlaps rect
  simp only [hclip, List.countP_cons, hover, if_true] at hperm
  simp only [overlapCount, splitAt, deleteRect] at hle ⊢
  omega

/-- The scan of `removeClippedRegion` and `divideClippedRegion` from index `i`.
`note` is what the caller records about each split rectangle. -/
def splitOverlapping (rect : Rect) (note : ClipRect ω → β → β) (c : ClipRegions ω) (b : β)
    (i : Nat) : ClipRegions ω × β :=
  match hi : c.clippedRects[i]? with
  | none => (c, b)
  | some clip =>
      if hover : clip.rect.overlaps rect = true then
        splitOverlapping rect note (c.splitAt rect i clip) (note clip b) 0
      else splitOverlapping rect note c b (i + 1)
termination_by (c.overlapCount rect, c.numClipped - i)
decreasing_by
  · exact Prod.Lex.left _ _ (c.overlapCount_splitAt_lt rect i clip hi hover)
  · have hlt : i < c.numClipped := (List.getElem?_eq_some_iff.mp hi).1
    exact Prod.Lex.right _ (by omega)

def removeClippedRegion (c : ClipRegions ω) (rect : Rect) : ClipRegions ω :=
  (splitOverlapping rect (fun _ u => u) c () 0).1

def addClippedRegion (c : ClipRegions ω) (rect : Rect) (win : ω) : ClipRegions ω :=
  (c.removeClippedRegion rect).pushRect ⟨rect, win⟩

/-- The second list of `divideClippedRegion`: overlaps retagged with the dividing window. -/
def noteOverlap (rect : Rect) (win : ω) (clip : ClipRect ω) (overlapping : ClipRegions ω) :
    ClipRegions ω :=
  overlapping.pushRect ⟨rect.getOverlapRect clip.rect, win⟩

/-- The scratch list `overlapping` is a global of the source, emptied on entry; a
rectangle it drops is lost for the result as well. -/
def divideClippedRegion (c : ClipRegions ω) (rect : Rect) (win : ω) : ClipRegions ω :=
  let overlapping : ClipRegions ω := {clippedRects := []}
  let scanned := splitOverlapping rect (noteOverlap rect win) c overlapping 0
  let pushed := scanned.1.pushAll scanned.2.clippedRects
  {pushed with
    lost := pushed.lost || scanned.2.lost
    dropped := pushed.dropped ++ scanned.2.dropped}

/-- A pixel carries tag `w` if some rectangle of the list covers it with that tag. -/
def Tagged (l : List (ClipRect ω)) (px py : Int) (w : ω) : Prop :=
  ∃ clip ∈ l, clip.rect.HasPixel px py ∧ clip.win = w

def Covered (l : List (ClipRect ω)) (px py : Int) : Prop :=
  ∃ clip ∈ l, clip.rect.HasPixel px py

/-- Non-empty rectangles, no two of which share a pixel. -/
structure Tiled (l : List (ClipRect ω)) : Prop where
  positive : ∀ clip ∈ l, clip.rect.Positive
  apart : l.Pairwise fun a b => a.rect.Apart b.rect

theorem covered_iff_tagged {l : List (ClipRect ω)} {px py : Int} :
    Covered l px py ↔ ∃ w, Tagged l px py w := by
  constructor
  · rintro ⟨clip, hmem, hin⟩
    exact ⟨clip.win, clip, hmem, hin, rfl⟩
  · rintro ⟨w, clip, hmem, hin, _⟩
    exact ⟨clip, hmem, hin⟩

theorem tagged_append {l m : List (ClipRect ω)} {px py : Int} {w : ω} :
    Tagged (l ++ m) px py w ↔ Tagged l px py w ∨ Tagged m px py w := by
  simp only [Tagged, List.mem_append, or_and_right, exists_or]

theorem tagged_perm {l m : List (ClipRect ω)} (h : l.Perm m) {px py : Int} {w : ω} :
    Tagged l px py w ↔ Tagged m px py w := by
  simp only [Tagged, h.mem_iff]

theorem Tiled.perm {l m : List (ClipRect ω)} (h : Tiled l) (hp : l.Perm m) : Tiled m :=
  ⟨fun clip hmem => h.positive clip (hp.mem_iff.mpr hmem),
    (hp.pairwise_iff fun hab => Rect.Apart.symm hab).mp h.apart⟩

theorem Tiled.append_iff {l m : List (ClipRect ω)} :
    Tiled (l ++ m) ↔ Tiled l ∧ Tiled m ∧ ∀ a ∈ l, ∀ b ∈ m, a.rect.Apart b.rect := by
  constructor
  · intro h
    have hpair := List.pairwise_append.mp h.apart
    exact ⟨⟨fun c hc => h.positive c (List.mem_append_left m hc), hpair.1⟩,
      ⟨fun c hc => h.positive c (List.mem_append_right l hc), hpair.2.1⟩, hpair.2.2⟩
  · rintro ⟨hl, hm, hlm⟩
    refine ⟨fun c hc => ?_, List.pairwise_append.mpr ⟨hl.apart, hm.apart, hlm⟩⟩
    rcases List.mem_append.mp hc with hc | hc
    · exact hl.positive c hc
    · exact hm.positive c hc

theorem Tiled.cons_iff {a : ClipRect ω} {l : List (ClipRect ω)} :
    Tiled (a :: l) ↔ a.rect.Positive ∧ (∀ b ∈ l, a.rect.Apart b.rect) ∧ Tiled l := by
  constructor
  · intro h
    have hpair := List.pairwise_cons.mp h.apart
    exact ⟨h.positive a List.mem_cons_self, hpair.1,
      fun c hc => h.positive c (List.mem_cons_of_mem a hc), hpair.2⟩
  · rintro ⟨ha, hal, hl⟩
    refine ⟨fun c hc => ?_, List.pairwise_cons.mpr ⟨hal, hl.apart⟩⟩
    rcases List.mem_cons.mp hc with rfl | hc
    · exact ha
    · exact hl.positive c hc

/-- Two tags of one pixel in a tiled list are one tag. -/
theorem Tiled.tag_unique {l : List (ClipRect ω)} (h : Tiled l) {px py : Int} {v w : ω}
    (hv : Tagged l px py v) (hw : Tagged l px py w) : v = w := by
  obtain ⟨a, ha, hain, rfl⟩ := hv
  obtain ⟨b, hb, hbin, rfl⟩ := hw
  by_cases hab : a = b
  · rw [hab]
  · have hsymm : Std.Symm fun a b : ClipRect ω => a.rect.Apart b.rect :=
      ⟨fun _ _ hcd => Rect.Apart.symm hcd⟩
    exact absurd hbin (h.apart.forall ha hb hab px py hain)

section Split

variable {rect : Rect} {c : ClipRegions ω} {i : Nat} {clip : ClipRect ω}

theorem splitAt_of_not_lost (hi : c.clippedRects[i]? = some clip)
    (hlost : (c.splitAt rect i clip).lost = false) :
    (c.splitAt rect i clip).clippedRects =
      c.clippedRects.eraseIdx i ++ splitPieces rect clip ∧ c.lost = false := by
  obtain ⟨happ, hc⟩ := c.pushAll_of_not_lost (splitPieces rect clip) hlost
  refine ⟨?_, hc⟩
  change ((c.pushAll (splitPieces rect clip)).clippedRects).eraseIdx i = _
  rw [happ, List.eraseIdx_append_of_lt_length (List.getElem?_eq_some_iff.mp hi).1]

theorem perm_cons_eraseIdx (hi : c.clippedRects[i]? = some clip) :
    c.clippedRects.Perm (clip :: c.clippedRects.eraseIdx i) := by
  obtain ⟨hlt, rfl⟩ := List.getElem?_eq_some_iff.mp hi
  exact (List.getElem_cons_eraseIdx_perm hlt).symm

theorem tagged_splitPieces (hpos : clip.rect.Positive) (hrect : rect.Positive)
    (hover : clip.rect.overlaps rect = true) {px py : Int} {w : ω} :
    Tagged (splitPieces rect clip) px py w ↔
      clip.rect.HasPixel px py ∧ clip.win = w ∧ ¬ rect.HasPixel px py := by
  have hpix := Rect.getSplitRects_hasPixel hpos hrect hover px py
  constructor
  · rintro ⟨q, hq, hin, rfl⟩
    obtain ⟨r, hr, rfl⟩ := List.mem_map.mp hq
    obtain ⟨h1, h2⟩ := hpix.mp ⟨r, hr, hin⟩
    exact ⟨h1, rfl, h2⟩
  · rintro ⟨hin, hw, hout⟩
    obtain ⟨r, hr, hrin⟩ := hpix.mpr ⟨hin, hout⟩
    exact ⟨⟨r, clip.win⟩, List.mem_map.mpr ⟨r, hr, rfl⟩, hrin, hw⟩

theorem tiled_splitPieces (hpos : clip.rect.Positive) (hrect : rect.Positive)
    (hover : clip.rect.overlaps rect = true) : Tiled (splitPieces rect clip) := by
  refine ⟨?_, ?_⟩
  · intro q hq
    obtain ⟨r, hr, rfl⟩ := List.mem_map.mp hq
    exact Rect.getSplitRects_positive hpos hrect hover r hr
  · exact List.Pairwise.map _ (fun _ _ hab => hab)
      (Rect.getSplitRects_pairwise_apart hpos hrect hover)

/-- One hit of the scan: the split rectangle loses the pixels of `rect`, nothing else
changes, and the overlap is free to be kept in a list beside this one. -/
theorem splitAt_tiled {rest : List (ClipRect ω)} (tag : ω)
    (htiled : Tiled (c.clippedRects ++ rest)) (hrect : rect.Positive)
    (hi : c.clippedRects[i]? = some clip) (hover : clip.rect.overlaps rect = true)
    (hlost : (c.splitAt rect i clip).lost = false) :
    Tiled ((c.splitAt rect i clip).clippedRects ++
      ⟨rect.getOverlapRect clip.rect, tag⟩ :: rest) := by
  obtain ⟨heq, _⟩ := splitAt_of_not_lost hi hlost
  have hperm := (perm_cons_eraseIdx hi).append_right rest
  obtain ⟨hpos, hapart, hothers⟩ := Tiled.cons_iff.mp (htiled.perm hperm)
  have hpiece : ∀ q ∈ splitPieces rect clip, ∀ px py, q.rect.HasPixel px py →
      clip.rect.HasPixel px py ∧ ¬ rect.HasPixel px py := by
    intro q hq px py hin
    obtain ⟨h1, _, h2⟩ :=
      (tagged_splitPieces hpos hrect hover).mp ⟨q, hq, hin, rfl⟩
    exact ⟨h1, h2⟩
  have hover_in : ∀ px py, (rect.getOverlapRect clip.rect).HasPixel px py →
      rect.HasPixel px py ∧ clip.rect.HasPixel px py :=
    fun px py h => (Rect.getOverlapRect_hasPixel rect clip.rect px py).mp h
  rw [heq]
  -- reorder: pieces, overlap, then the rectangles that were not split
  have hreorder : (splitPieces rect clip ++ (⟨rect.getOverlapRect clip.rect, tag⟩ ::
      (c.clippedRects.eraseIdx i ++ rest))).Perm (c.clippedRects.eraseIdx i ++
      splitPieces rect clip ++ ⟨rect.getOverlapRect clip.rect, tag⟩ :: rest) := by
    rw [List.append_assoc]
    refine List.Perm.trans ?_ (List.perm_append_comm_assoc _ _ _)
    exact List.Perm.append_left _ List.perm_middle.symm
  refine Tiled.perm ?_ hreorder
  rw [Tiled.append_iff, Tiled.cons_iff]
  refine ⟨tiled_splitPieces hpos hrect hover,
    ⟨Rect.getOverlapRect_positive hrect hpos hover, ?_, hothers⟩, ?_⟩
  · intro b hb px py hin hbin
    exact hapart b hb px py (hover_in px py hin).2 hbin
  · intro q hq b hb px py hin hbin
    obtain ⟨hclip, hout⟩ := hpiece q hq px py hin
    rcases List.mem_cons.mp hb with rfl | hb
    · exact hout (hover_in px py hbin).1
    · exact hapart b hb px py hclip hbin

theorem splitAt_tagged (htiled : Tiled c.clippedRects) (hrect : rect.Positive)
    (hi : c.clippedRects[i]? = some clip) (hover : clip.rect.overlaps rect = true)
    (hlost : (c.splitAt rect i clip).lost = false) (px py : Int) (w : ω) :
    Tagged (c.splitAt rect i clip).clippedRects px py w ↔
      Tagged c.clippedRects px py w ∧ ¬ (clip.rect.HasPixel px py ∧ rect.HasPixel px py) := by
  obtain ⟨heq, _⟩ := splitAt_of_not_lost hi hlost
  have hperm := perm_cons_eraseIdx hi
  obtain ⟨hpos, hapart, _⟩ := Tiled.cons_iff.mp (htiled.perm hperm)
  rw [heq, tagged_append, tagged_splitPieces hpos hrect hover, tagged_perm hperm]
  simp only [Tagged, List.mem_cons]
  constructor
  · rintro (⟨q, hq, hin, hw⟩ | ⟨hin, hw, hout⟩)
    · exact ⟨⟨q, Or.inr hq, hin, hw⟩, fun hboth => hapart q hq px py hboth.1 hin⟩
    · exact ⟨⟨clip, Or.inl rfl, hin, hw⟩, fun hboth => hout hboth.2⟩
  · rintro ⟨⟨q, rfl | hq, hin, hw⟩, hnot⟩
    · exact Or.inr ⟨hin, hw, fun hr => hnot ⟨hin, hr⟩⟩
    · exact Or.inl ⟨q, hq, hin, hw⟩

end Split

section Scan

variable {rect : Rect} {note : ClipRect ω → β → β} {c : ClipRegions ω} {b : β} {i : Nat}
  {clip : ClipRect ω}

theorem splitOverlapping_end (hi : c.clippedRects[i]? = none) :
    splitOverlapping rect note c b i = (c, b) := by
  rw [splitOverlapping]
  split
  · rfl
  · simp_all

theorem splitOverlapping_hit (hi : c.clippedRects[i]? = some clip)
    (hover : clip.rect.overlaps rect = true) :
    splitOverlapping rect note c b i =
      splitOverlapping rect note (c.splitAt rect i clip) (note clip b) 0 := by
  rw [splitOverlapping]
  split
  · simp_all
  · rename_i other hother
    cases hi.symm.trans hother
    rw [dif_pos hover]

theorem splitOverlapping_miss (hi : c.clippedRects[i]? = some clip)
    (hover : ¬ clip.rect.overlaps rect = true) :
    splitOverlapping rect note c b i = splitOverlapping rect note c b (i + 1) := by
  rw [splitOverlapping]
  split
  · simp_all
  · rename_i other hother
    cases hi.symm.trans hother
    rw [dif_neg hover]

/-- Once a rectangle was lost the flag stays up through the scan. -/
theorem splitOverlapping_lost (h : (splitOverlapping rect note c b i).1.lost = false) :
    c.lost = false := by
  induction c, b, i using splitOverlapping.induct rect note with
  | case1 c b i hi => rwa [splitOverlapping_end hi] at h
  | case2 c b i clip hi hover ih =>
      rw [splitOverlapping_hit hi hover] at h
      exact (splitAt_of_not_lost hi (ih h)).2
  | case3 c b i clip hi hover ih =>
      rw [splitOverlapping_miss hi hover] at h
      exact ih h

/-- The rectangles before the scan index do not overlap `rect`. -/
def ScannedTo (rect : Rect) (c : ClipRegions ω) (i : Nat) : Prop :=
  ∀ k < i, ∀ clip, c.clippedRects[k]? = some clip → clip.rect.overlaps rect = false

theorem scannedTo_succ (hscan : ScannedTo rect c i) (hi : c.clippedRects[i]? = some clip)
    (hover : ¬ clip.rect.overlaps rect = true) : ScannedTo rect c (i + 1) := by
  intro k hk q hq
  rcases Nat.lt_succ_iff_lt_or_eq.mp hk with hlt | rfl
  · exact hscan k hlt q hq
  · cases hi.symm.trans hq
    simpa using hover

/-- A finished scan leaves no rectangle that meets `rect`. -/
theorem not_tagged_of_scanned (hscan : ScannedTo rect c i) (hi : c.clippedRects[i]? = none)
    {px py : Int} {w : ω} (h : Tagged c.clippedRects px py w) : ¬ rect.HasPixel px py := by
  obtain ⟨clip, hmem, hin, _⟩ := h
  obtain ⟨k, hk, hget⟩ := List.getElem_of_mem hmem
  have hlen : c.clippedRects.length ≤ i := List.getElem?_eq_none_iff.mp hi
  have hclear := hscan k (by omega) clip (List.getElem?_eq_some_iff.mpr ⟨hk, hget⟩)
  exact Rect.apart_of_not_overlaps hclear px py hin

/-- The scan removes exactly the pixels of `rect` and keeps every other tag. -/
theorem splitOverlapping_tagged (hrect : rect.Positive) (htiled : Tiled c.clippedRects)
    (hscan : ScannedTo rect c i)
    (hlost : (splitOverlapping rect note c b i).1.lost = false) :
    Tiled (splitOverlapping rect note c b i).1.clippedRects ∧
      ∀ px py w, Tagged (splitOverlapping rect note c b i).1.clippedRects px py w ↔
        Tagged c.clippedRects px py w ∧ ¬ rect.HasPixel px py := by
  induction c, b, i using splitOverlapping.induct rect note with
  | case1 c b i hi =>
      rw [splitOverlapping_end hi]
      refine ⟨htiled, fun px py w => ⟨fun h => ⟨h, ?_⟩, fun h => h.1⟩⟩
      exact not_tagged_of_scanned hscan hi h
  | case2 c b i clip hi hover ih =>
      rw [splitOverlapping_hit hi hover] at hlost ⊢
      have hstep := splitOverlapping_lost hlost
      have htiled' : Tiled (c.splitAt rect i clip).clippedRects := by
        have hrest : Tiled (c.clippedRects ++ []) := by rwa [List.append_nil]
        exact (Tiled.append_iff.mp (splitAt_tiled clip.win hrest hrect hi hover hstep)).1
      obtain ⟨hfin, htag⟩ := ih htiled' (fun k hk => absurd hk (Nat.not_lt_zero k)) hlost
      refine ⟨hfin, fun px py w => ?_⟩
      rw [htag px py w, splitAt_tagged htiled hrect hi hover hstep]
      constructor
      · rintro ⟨⟨h, _⟩, hout⟩
        exact ⟨h, hout⟩
      · rintro ⟨h, hout⟩
        exact ⟨⟨h, fun hboth => hout hboth.2⟩, hout⟩
  | case3 c b i clip hi hover ih =>
      rw [splitOverlapping_miss hi hover] at hlost ⊢
      exact ih htiled (scannedTo_succ hscan hi hover) hlost

theorem splitOverlapping_note_lost {win : ω} {overlapping : ClipRegions ω}
    (h : (splitOverlapping rect (noteOverlap rect win) c overlapping i).2.lost = false) :
    overlapping.lost = false := by
  induction c, overlapping, i using splitOverlapping.induct rect
    (noteOverlap rect win) with
  | case1 c overlapping i hi => rwa [splitOverlapping_end hi] at h
  | case2 c overlapping i clip hi hover ih =>
      rw [splitOverlapping_hit hi hover] at h
      have hpushed := ih h
      rcases overlapping.pushRect_cases ⟨rect.getOverlapRect clip.rect, win⟩ with hcase | hcase
      · rwa [noteOverlap, hcase.2] at hpushed
      · rw [noteOverlap, hcase.2] at hpushed
        cases hpushed
  | case3 c overlapping i clip hi hover ih =>
      rw [splitOverlapping_miss hi hover] at h
      exact ih h

/-- What the dividing scan collects: every covered pixel of `rect`, tagged `win`. -/
theorem splitOverlapping_collects {win : ω} {overlapping : ClipRegions ω}
    (hrect : rect.Positive) (htiled : Tiled (c.clippedRects ++ overlapping.clippedRects))
    (hscan : ScannedTo rect c i)
    (hlost : (splitOverlapping rect (noteOverlap rect win) c overlapping i).1.lost = false)
    (hnote : (splitOverlapping rect (noteOverlap rect win) c overlapping i).2.lost = false) :
    Tiled (splitOverlapping rect (noteOverlap rect win) c overlapping i).2.clippedRects ∧
      ∀ px py w,
        Tagged (splitOverlapping rect (noteOverlap rect win) c overlapping i).2.clippedRects
          px py w ↔
        Tagged overlapping.clippedRects px py w ∨
          (w = win ∧ rect.HasPixel px py ∧ Covered c.clippedRects px py) := by
  induction c, overlapping, i using splitOverlapping.induct rect
    (noteOverlap rect win) with
  | case1 c overlapping i hi =>
      rw [splitOverlapping_end hi]
      refine ⟨(Tiled.append_iff.mp htiled).2.1, fun px py w => ⟨Or.inl, ?_⟩⟩
      rintro (h | ⟨_, hin, hcov⟩)
      · exact h
      · obtain ⟨v, hv⟩ := covered_iff_tagged.mp hcov
        exact absurd hin (not_tagged_of_scanned hscan hi hv)
  | case2 c overlapping i clip hi hover ih =>
      rw [splitOverlapping_hit hi hover] at hlost hnote ⊢
      have hstep := splitOverlapping_lost hlost
      have htiled_c := (Tiled.append_iff.mp htiled).1
      -- the overlap was pushed: a dropped one would keep the flag up to the end
      have hpushed : (noteOverlap rect win clip overlapping).clippedRects =
          overlapping.clippedRects ++ [⟨rect.getOverlapRect clip.rect, win⟩] := by
        have hkept := splitOverlapping_note_lost hnote
        rcases overlapping.pushRect_cases ⟨rect.getOverlapRect clip.rect, win⟩
          with hcase | hcase
        · exact hcase.1
        · rw [noteOverlap, hcase.2] at hkept
          cases hkept
      have htiled' : Tiled ((c.splitAt rect i clip).clippedRects ++
          (noteOverlap rect win clip overlapping).clippedRects) := by
        rw [hpushed]
        refine (splitAt_tiled win htiled hrect hi hover hstep).perm ?_
        exact List.Perm.append_left _ (List.perm_append_singleton _ _).symm
      obtain ⟨hfin, htag⟩ := ih htiled' (fun k hk => absurd hk (Nat.not_lt_zero k)) hlost hnote
      refine ⟨hfin, fun px py w => ?_⟩
      have hclip : clip ∈ c.clippedRects := List.mem_of_getElem? hi
      have hsplit := fun v => splitAt_tagged htiled_c hrect hi hover hstep px py v
      rw [htag px py w, hpushed, tagged_append, covered_iff_tagged, covered_iff_tagged]
      simp only [Tagged, List.mem_singleton, exists_eq_left,
        Rect.getOverlapRect_hasPixel] at hsplit ⊢
      constructor
      · rintro ((h | ⟨⟨hr, hin⟩, rfl⟩) | ⟨rfl, hr, v, hv⟩)
        · exact Or.inl h
        · exact Or.inr ⟨rfl, hr, clip.win, clip, hclip, hin, rfl⟩
        · exact Or.inr ⟨rfl, hr, v, ((hsplit v).mp hv).1⟩
      · rintro (h | ⟨rfl, hr, v, hv⟩)
        · exact Or.inl (Or.inl h)
        · by_cases hin : clip.rect.HasPixel px py
          · exact Or.inl (Or.inr ⟨⟨hr, hin⟩, rfl⟩)
          · exact Or.inr ⟨rfl, hr, v, (hsplit v).mpr ⟨hv, fun hboth => hin hboth.1⟩⟩
  | case3 c overlapping i clip hi hover ih =>
      rw [splitOverlapping_miss hi hover] at hlost hnote ⊢
      exact ih htiled (scannedTo_succ hscan hi hover) hlost hnote

end Scan

/-- Removing a region deletes its pixels and keeps the tags of all others. -/
theorem removeClippedRegion_tagged {c : ClipRegions ω} {rect : Rect} (hrect : rect.Positive)
    (htiled : Tiled c.clippedRects) (hlost : (c.removeClippedRegion rect).lost = false) :
    Tiled (c.removeClippedRegion rect).clippedRects ∧
      ∀ px py w, Tagged (c.removeClippedRegion rect).clippedRects px py w ↔
        Tagged c.clippedRects px py w ∧ ¬ rect.HasPixel px py :=
  splitOverlapping_tagged hrect htiled (fun k hk => absurd hk (Nat.not_lt_zero k)) hlost

/-- Dividing keeps the covered pixels and retags those inside `rect` with `win`. -/
theorem divideClippedRegion_tagged {c : ClipRegions ω} {rect : Rect} {win : ω}
    (hrect : rect.Positive) (htiled : Tiled c.clippedRects)
    (hlost : (c.divideClippedRegion rect win).lost = false) :
    Tiled (c.divideClippedRegion rect win).clippedRects ∧
      ∀ px py w, Tagged (c.divideClippedRegion rect win).clippedRects px py w ↔
        (Tagged c.clippedRects px py w ∧ ¬ rect.HasPixel px py) ∨
          (w = win ∧ rect.HasPixel px py ∧ Covered c.clippedRects px py) := by
  simp only [divideClippedRegion, Bool.or_eq_false_iff] at hlost ⊢
  obtain ⟨hpush, hnote⟩ := hlost
  obtain ⟨happ, hscanlost⟩ := pushAll_of_not_lost _ _ hpush
  have hstart : ScannedTo rect c 0 := fun k hk => absurd hk (Nat.not_lt_zero k)
  have hrest : Tiled (c.clippedRects ++ ({clippedRects := []} : ClipRegions ω).clippedRects) := by
    rwa [List.append_nil]
  obtain ⟨hkeep, hkept⟩ := splitOverlapping_tagged hrect htiled hstart hscanlost
  obtain ⟨hcoll, hcollected⟩ := splitOverlapping_collects hrect hrest hstart hscanlost hnote
  have htag : ∀ px py w, Tagged ((splitOverlapping rect (noteOverlap rect win) c
      {clippedRects := []} 0).2.clippedRects) px py w ↔
        w = win ∧ rect.HasPixel px py ∧ Covered c.clippedRects px py := by
    intro px py w
    rw [hcollected px py w]
    simp [Tagged]
  rw [happ]
  constructor
  · refine Tiled.append_iff.mpr ⟨hkeep, hcoll, fun a ha b hb px py hain hbin => ?_⟩
    have hout := ((hkept px py a.win).mp ⟨a, ha, hain, rfl⟩).2
    exact hout ((htag px py b.win).mp ⟨b, hb, hbin, rfl⟩).2.1
  · intro px py w
    rw [tagged_append, hkept px py w, htag px py w]

/-- A lost rectangle stays recorded through both region operations. -/
theorem removeClippedRegion_lost {c : ClipRegions ω} {rect : Rect}
    (h : (c.removeClippedRegion rect).lost = false) : c.lost = false :=
  splitOverlapping_lost h

theorem divideClippedRegion_lost {c : ClipRegions ω} {rect : Rect} {win : ω}
    (h : (c.divideClippedRegion rect win).lost = false) : c.lost = false := by
  simp only [divideClippedRegion, Bool.or_eq_false_iff] at h
  exact splitOverlapping_lost (pushAll_of_not_lost _ _ h.1).2

theorem addClippedRegion_lost {c : ClipRegions ω} {rect : Rect} {win : ω}
    (h : (c.addClippedRegion rect win).lost = false) :
    (c.addClippedRegion rect win).clippedRects =
      (c.removeClippedRegion rect).clippedRects ++ [⟨rect, win⟩] ∧
    (c.removeClippedRegion rect).lost = false := by
  unfold addClippedRegion at h ⊢
  rcases (c.removeClippedRegion rect).pushRect_cases ⟨rect, win⟩ with ⟨happ, hkept⟩ | ⟨_, hkept⟩
  · exact ⟨happ, hkept ▸ h⟩
  · rw [hkept] at h
    cases h

/-- Adding a region gives its pixels the new tag and keeps all others. -/
theorem addClippedRegion_tagged {c : ClipRegions ω} {rect : Rect} {win : ω}
    (hrect : rect.Positive) (htiled : Tiled c.clippedRects)
    (hlost : (c.addClippedRegion rect win).lost = false) :
    Tiled (c.addClippedRegion rect win).clippedRects ∧
      ∀ px py w, Tagged (c.addClippedRegion rect win).clippedRects px py w ↔
        if rect.HasPixel px py then w = win else Tagged c.clippedRects px py w := by
  obtain ⟨happ, hkept⟩ := addClippedRegion_lost hlost
  obtain ⟨hholed, htag⟩ := removeClippedRegion_tagged hrect htiled hkept
  rw [happ]
  constructor
  · apply Tiled.append_iff.mpr
    refine ⟨hholed, ⟨by simpa using hrect, List.pairwise_singleton _ _⟩, ?_⟩
    intro a ha b hb px py hain hbin
    rw [List.mem_singleton.mp hb] at hbin
    exact ((htag px py a.win).mp ⟨a, ha, hain, rfl⟩).2 hbin
  · intro px py w
    rw [tagged_append, htag px py w]
    split_ifs with hin
    · simp [Tagged, hin, eq_comm]
    · simp [Tagged, hin]

end ClipRegions

end Tellurium.Gui
