import Tellurium.Gui.ClipRegions

/-!
What a clip list stands for: a set of pixels, each with a window as its tag. The three
operations on clip lists (`libGUI/Compositor.cpp`) are one operation each on such pictures,
as long as no rectangle is pushed onto a full list. What a full list drops is all that can be
missing from the picture.
-/

namespace Tellurium.Gui

variable {ω β : Type*}

/-- The tag of each covered pixel. -/
abbrev Picture (ω : Type*) := Int → Int → Option ω

/-- The calls of the compositor on a clip list. -/
inductive ClipOp (ω : Type*) where
  | add (rect : Rect) (win : ω)
  | divide (rect : Rect) (win : ω)
  | remove (rect : Rect)

namespace ClipOp

def rect : ClipOp ω → Rect
  | .add rect _ => rect
  | .divide rect _ => rect
  | .remove rect => rect

def apply (c : ClipRegions ω) : ClipOp ω → ClipRegions ω
  | .add rect win => c.addClippedRegion rect win
  | .divide rect win => c.divideClippedRegion rect win
  | .remove rect => c.removeClippedRegion rect

/-- The operations on pictures. -/
def paint (p : Picture ω) : ClipOp ω → Picture ω
  | .add rect win => fun px py => if rect.HasPixel px py then some win else p px py
  | .divide rect win => fun px py =>
      if rect.HasPixel px py then (p px py).map fun _ => win else p px py
  | .remove rect => fun px py => if rect.HasPixel px py then none else p px py

end ClipOp

namespace ClipRegions

/-- The scan of `splitOverlapping` cut off after `fuel` iterations. -/
def scanFor (rect : Rect) (note : ClipRect ω → β → β) :
    Nat → ClipRegions ω → β → Nat → Option (ClipRegions ω × β)
  | 0, _, _, _ => none
  | fuel + 1, c, b, i =>
      match c.clippedRects[i]? with
      | none => some (c, b)
      | some clip =>
          if clip.rect.overlaps rect then
            scanFor rect note fuel (c.splitAt rect i clip) (note clip b) 0
          else scanFor rect note fuel c b (i + 1)

/-- The scan ends although it starts over after every hit. -/
theorem scanFor_returns (rect : Rect) (note : ClipRect ω → β → β) (c : ClipRegions ω) (b : β)
    (i : Nat) :
    ∃ fuel, scanFor rect note fuel c b i = some (splitOverlapping rect note c b i) := by
  induction c, b, i using splitOverlapping.induct rect note with
  | case1 c b i hi =>
      refine ⟨1, ?_⟩
      rw [splitOverlapping_end hi, scanFor]
      simp only [hi]
  | case2 c b i clip hi hover ih =>
      obtain ⟨fuel, hfuel⟩ := ih
      refine ⟨fuel + 1, ?_⟩
      rw [splitOverlapping_hit hi hover, scanFor]
      simp only [hi, hover, if_true]
      exact hfuel
  | case3 c b i clip hi hover ih =>
      obtain ⟨fuel, hfuel⟩ := ih
      refine ⟨fuel + 1, ?_⟩
      rw [splitOverlapping_miss hi hover, scanFor]
      simp only [hi, if_neg hover]
      exact hfuel

/-- What a scan that was not cut off returns. -/
theorem scanFor_eq {rect : Rect} {note : ClipRect ω → β → β} {fuel : Nat} {c : ClipRegions ω}
    {b : β} {i : Nat} {r : ClipRegions ω × β} (h : scanFor rect note fuel c b i = some r) :
    splitOverlapping rect note c b i = r := by
  induction fuel generalizing c b i with
  | zero => cases h
  | succ fuel ih =>
      rw [scanFor] at h
      cases hi : c.clippedRects[i]? with
      | none =>
          simp only [hi] at h
          rw [splitOverlapping_end hi]
          exact Option.some.inj h
      | some clip =>
          simp only [hi] at h
          split_ifs at h with hover
          · rw [splitOverlapping_hit hi hover]
            exact ih h
          · rw [splitOverlapping_miss hi hover]
            exact ih h

/-- A list with no rectangle in the way is left alone. -/
theorem splitOverlapping_of_clear {rect : Rect} {note : ClipRect ω → β → β} {c : ClipRegions ω}
    (hclear : ∀ clip ∈ c.clippedRects, clip.rect.overlaps rect = false) (b : β) (i : Nat) :
    splitOverlapping rect note c b i = (c, b) := by
  induction c, b, i using splitOverlapping.induct rect note with
  | case1 c b i hi => exact splitOverlapping_end hi
  | case2 c b i clip hi hover ih =>
      rw [hclear clip (List.mem_of_getElem? hi)] at hover
      cases hover
  | case3 c b i clip hi hover ih =>
      rw [splitOverlapping_miss hi hover]
      exact ih hclear

/-- A list of rectangles shows a picture. -/
def Shows (l : List (ClipRect ω)) (p : Picture ω) : Prop :=
  ∀ px py w, Tagged l px py w ↔ p px py = some w

theorem Shows.covered {l : List (ClipRect ω)} {p : Picture ω} (h : Shows l p) {px py : Int} :
    Covered l px py ↔ (p px py).isSome := by
  rw [covered_iff_tagged, Option.isSome_iff_exists]
  exact exists_congr fun w => h px py w

/-- The picture that the first rectangle at each pixel makes. -/
def pictureOf (l : List (ClipRect ω)) : Picture ω := fun px py =>
  (l.find? fun clip => clip.rect.HasPixel px py).map ClipRect.win

/-- In a tiled list the first rectangle at a pixel is the only one. -/
theorem Tiled.shows {l : List (ClipRect ω)} (h : Tiled l) : Shows l (pictureOf l) := by
  intro px py w
  rw [pictureOf, Option.map_eq_some_iff]
  constructor
  · rintro ⟨clip, hmem, hin, rfl⟩
    have hfound : (l.find? fun clip => clip.rect.HasPixel px py).isSome := by
      rw [List.find?_isSome]
      exact ⟨clip, hmem, decide_eq_true hin⟩
    obtain ⟨first, hfirst⟩ := Option.isSome_iff_exists.mp hfound
    have hfin : first.rect.HasPixel px py := by simpa using List.find?_some hfirst
    have hmem' := List.mem_of_find?_eq_some hfirst
    exact ⟨first, hfirst, h.tag_unique ⟨first, hmem', hfin, rfl⟩ ⟨clip, hmem, hin, rfl⟩⟩
  · rintro ⟨clip, hclip, rfl⟩
    have hin : clip.rect.HasPixel px py := by simpa using List.find?_some hclip
    exact ⟨clip, List.mem_of_find?_eq_some hclip, hin, rfl⟩

end ClipRegions

namespace ClipOp

open ClipRegions

variable {c : ClipRegions ω} {op : ClipOp ω} {p : Picture ω}

/-- An operation whose scan is cut off after `fuel` iterations. -/
def applyFor (fuel : Nat) (c : ClipRegions ω) : ClipOp ω → Option (ClipRegions ω)
  | .add rect win =>
      (scanFor rect (fun _ u => u) fuel c () 0).map fun s => s.1.pushRect ⟨rect, win⟩
  | .divide rect win =>
      (scanFor rect (noteOverlap rect win) fuel c {clippedRects := []} 0).map fun s =>
        let pushed := s.1.pushAll s.2.clippedRects
        {pushed with
          lost := pushed.lost || s.2.lost
          dropped := pushed.dropped ++ s.2.dropped}
  | .remove rect => (scanFor rect (fun _ u => u) fuel c () 0).map Prod.fst

theorem applyFor_returns (c : ClipRegions ω) (op : ClipOp ω) :
    ∃ fuel, op.applyFor fuel c = some (op.apply c) := by
  cases op with
  | add rect win =>
      obtain ⟨fuel, hfuel⟩ := scanFor_returns rect (fun _ u => u) c () 0
      exact ⟨fuel, by rw [applyFor, hfuel]; rfl⟩
  | divide rect win =>
      obtain ⟨fuel, hfuel⟩ := scanFor_returns rect (noteOverlap rect win) c {clippedRects := []} 0
      exact ⟨fuel, by rw [applyFor, hfuel]; rfl⟩
  | remove rect =>
      obtain ⟨fuel, hfuel⟩ := scanFor_returns rect (fun _ u => u) c () 0
      exact ⟨fuel, by rw [applyFor, hfuel]; rfl⟩

theorem apply_eq (fuel : Nat) {r : ClipRegions ω} (h : op.applyFor fuel c = some r) :
    op.apply c = r := by
  cases op with
  | add rect win =>
      obtain ⟨s, hs, rfl⟩ := Option.map_eq_some_iff.mp h
      rw [apply, addClippedRegion, removeClippedRegion, scanFor_eq hs]
  | divide rect win =>
      obtain ⟨s, hs, rfl⟩ := Option.map_eq_some_iff.mp h
      rw [apply, divideClippedRegion, scanFor_eq hs]
  | remove rect =>
      obtain ⟨s, hs, rfl⟩ := Option.map_eq_some_iff.mp h
      rw [apply, removeClippedRegion, scanFor_eq hs]

/-- One operation on a tiled list that loses nothing. -/
theorem apply_shows (hpos : op.rect.Positive) (htiled : Tiled c.clippedRects)
    (hshows : Shows c.clippedRects p) (hlost : (op.apply c).lost = false) :
    Tiled (op.apply c).clippedRects ∧ Shows (op.apply c).clippedRects (op.paint p) := by
  cases op with
  | add rect win =>
      change rect.Positive at hpos
      obtain ⟨hnext, htag⟩ := addClippedRegion_tagged hpos htiled hlost
      refine ⟨hnext, fun px py w => ?_⟩
      rw [apply, htag, paint]
      dsimp only
      split_ifs with hin
      · rw [Option.some_inj, eq_comm]
      · exact hshows px py w
  | divide rect win =>
      change rect.Positive at hpos
      obtain ⟨hnext, htag⟩ := divideClippedRegion_tagged hpos htiled hlost
      refine ⟨hnext, fun px py w => ?_⟩
      rw [apply, htag, hshows, hshows.covered, paint]
      dsimp only
      split_ifs with hin
      · cases p px py with
        | none => simp
        | some v => simp [hin, eq_comm]
      · simp [hin]
  | remove rect =>
      change rect.Positive at hpos
      obtain ⟨hnext, htag⟩ := removeClippedRegion_tagged hpos htiled hlost
      refine ⟨hnext, fun px py w => ?_⟩
      rw [apply, htag, hshows, paint]
      dsimp only
      split_ifs with hin
      · simp [hin]
      · simp [hin]

end ClipOp

open ClipRegions

/-- The clip operations on a tiled list of positive rectangles end, and as long as no push
met a full list they leave a tiled list that shows the old picture with `rect` cut out,
painted in `win`, or retagged `win` where it was covered. -/
theorem clip_region_algebra {c : ClipRegions ω} {op : ClipOp ω} (hpos : op.rect.Positive)
    (htiled : Tiled c.clippedRects) (hlost : (op.apply c).lost = false) :
    (∃ fuel, op.applyFor fuel c = some (op.apply c)) ∧ Tiled (op.apply c).clippedRects ∧
      Shows (op.apply c).clippedRects (op.paint (pictureOf c.clippedRects)) :=
  ⟨op.applyFor_returns c, op.apply_shows hpos htiled htiled.shows hlost⟩

/-- A square with a hole in the middle. -/
theorem clip_region_algebra_hole :
    ∃ c : ClipRegions Nat, c.clippedRects = [⟨⟨0, 0, 9, 9⟩, 1⟩] ∧
      Tiled ((ClipOp.remove ⟨3, 3, 3, 3⟩).apply c).clippedRects ∧
      Tagged ((ClipOp.remove ⟨3, 3, 3, 3⟩).apply c).clippedRects 2 4 1 ∧
      ¬ Covered ((ClipOp.remove ⟨3, 3, 3, 3⟩).apply c).clippedRects 4 4 := by
  refine ⟨{clippedRects := [⟨⟨0, 0, 9, 9⟩, 1⟩]}, rfl, ?_⟩
  have hkept : ((ClipOp.remove ⟨3, 3, 3, 3⟩).apply
      ({clippedRects := [⟨⟨0, 0, 9, 9⟩, 1⟩]} : ClipRegions Nat)).lost = false := by
    rw [ClipOp.apply_eq 6 rfl]
    rfl
  have htiled : Tiled [(⟨⟨0, 0, 9, 9⟩, 1⟩ : ClipRect Nat)] :=
    ⟨by simp [Rect.Positive], List.pairwise_singleton _ _⟩
  obtain ⟨-, hnext, hshows⟩ := clip_region_algebra (by decide) htiled hkept
  refine ⟨hnext, (hshows 2 4 1).mpr rfl, ?_⟩
  rw [hshows.covered]
  decide

/-! ### Lists that fill up -/

namespace ClipRegions

/-- The pixel is covered, or a piece that has it was dropped. -/
def Kept (c : ClipRegions ω) (px py : Int) : Prop :=
  Covered c.clippedRects px py ∨ ∃ r ∈ c.dropped, r.HasPixel px py

section Pushes

variable {c : ClipRegions ω} {rect : Rect} {px py : Int}

/-- What is pushed is appended or dropped, and nothing else changes. -/
theorem pushAll_kept (c : ClipRegions ω) (rs : List (ClipRect ω)) :
    (∃ tail, (c.pushAll rs).clippedRects = c.clippedRects ++ tail ∧
        ∀ r ∈ rs, r ∈ tail ∨ r.rect ∈ (c.pushAll rs).dropped) ∧
      ∀ r ∈ c.dropped, r ∈ (c.pushAll rs).dropped := by
  induction rs generalizing c with
  | nil => exact ⟨⟨[], (List.append_nil _).symm, by simp⟩, fun _ hr => hr⟩
  | cons r rest ih =>
      obtain ⟨⟨tail, happ, hrest⟩, hdropped⟩ := ih (c.pushRect r)
      change (c.pushAll (r :: rest)).clippedRects = _ at happ
      change ∀ q ∈ rest, q ∈ tail ∨ q.rect ∈ (c.pushAll (r :: rest)).dropped at hrest
      change ∀ q ∈ (c.pushRect r).dropped, q ∈ (c.pushAll (r :: rest)).dropped at hdropped
      by_cases hroom : c.numClipped < c.maxClipped
      · rw [pushRect, if_pos hroom] at happ hdropped
        refine ⟨⟨r :: tail, by rw [happ]; simp, ?_⟩, hdropped⟩
        refine List.forall_mem_cons.mpr ⟨Or.inl List.mem_cons_self, fun q hq => ?_⟩
        exact (hrest q hq).imp_left (List.mem_cons_of_mem r)
      · rw [pushRect, if_neg hroom] at happ hdropped
        refine ⟨⟨tail, happ, List.forall_mem_cons.mpr ⟨Or.inr ?_, hrest⟩⟩, fun q hq => ?_⟩
        · exact hdropped _ (List.mem_append_right _ List.mem_cons_self)
        · exact hdropped q (List.mem_append_left _ hq)

theorem Kept.pushAll (h : c.Kept px py) (rs : List (ClipRect ω)) : (c.pushAll rs).Kept px py := by
  obtain ⟨⟨tail, happ, -⟩, hdropped⟩ := pushAll_kept c rs
  rcases h with ⟨clip, hclip, hin⟩ | ⟨r, hr, hin⟩
  · exact Or.inl ⟨clip, happ ▸ List.mem_append_left _ hclip, hin⟩
  · exact Or.inr ⟨r, hdropped r hr, hin⟩

theorem kept_of_pushed {rs : List (ClipRect ω)} (h : Covered rs px py) :
    (c.pushAll rs).Kept px py := by
  obtain ⟨⟨tail, happ, hrs⟩, -⟩ := pushAll_kept c rs
  obtain ⟨clip, hclip, hin⟩ := h
  rcases hrs clip hclip with hmem | hmem
  · exact Or.inl ⟨clip, happ ▸ List.mem_append_right _ hmem, hin⟩
  · exact Or.inr ⟨clip.rect, hmem, hin⟩

/-- A hit of the scan keeps the pixels outside its region. -/
theorem Kept.splitAt {i : Nat} {clip : ClipRect ω} (hrect : rect.Positive)
    (hi : c.clippedRects[i]? = some clip) (hover : clip.rect.overlaps rect = true)
    (h : c.Kept px py) (hout : ¬ rect.HasPixel px py) : (c.splitAt rect i clip).Kept px py := by
  obtain ⟨⟨tail, happ, hpieces⟩, hdropped⟩ := pushAll_kept c (splitPieces rect clip)
  have hlist : (c.splitAt rect i clip).clippedRects = c.clippedRects.eraseIdx i ++ tail := by
    change ((c.pushAll (splitPieces rect clip)).clippedRects).eraseIdx i = _
    rw [happ, List.eraseIdx_append_of_lt_length (List.getElem?_eq_some_iff.mp hi).1]
  rcases h with ⟨old, hold, hin⟩ | ⟨r, hr, hin⟩
  · rcases List.mem_cons.mp ((perm_cons_eraseIdx hi).mem_iff.mp hold) with rfl | hrest
    · obtain ⟨piece, hpiece, hpixel⟩ := (Rect.getSplitRects_hasPixel
        (Rect.positive_of_hasPixel hin) hrect hover px py).mpr ⟨hin, hout⟩
      have hsplit : ⟨piece, old.win⟩ ∈ splitPieces rect old := List.mem_map.mpr ⟨piece, hpiece, rfl⟩
      rcases hpieces _ hsplit with hmem | hmem
      · exact Or.inl ⟨_, hlist ▸ List.mem_append_right _ hmem, hpixel⟩
      · exact Or.inr ⟨piece, hmem, hpixel⟩
    · exact Or.inl ⟨old, hlist ▸ List.mem_append_left _ hrest, hin⟩
  · exact Or.inr ⟨r, hdropped r hr, hin⟩

end Pushes

section Scan

variable {rect : Rect} {note : ClipRect ω → β → β} {c : ClipRegions ω} {b : β} {i : Nat}
  {px py : Int}

theorem Kept.splitOverlapping (hrect : rect.Positive) (h : c.Kept px py)
    (hout : ¬ rect.HasPixel px py) :
    (ClipRegions.splitOverlapping rect note c b i).1.Kept px py := by
  induction c, b, i using splitOverlapping.induct rect note with
  | case1 c b i hi => rwa [splitOverlapping_end hi]
  | case2 c b i clip hi hover ih =>
      rw [splitOverlapping_hit hi hover]
      exact ih (h.splitAt hrect hi hover hout)
  | case3 c b i clip hi hover ih =>
      rw [splitOverlapping_miss hi hover]
      exact ih h

/-- The dividing scan notes the covered pixels of its region in the second list. -/
theorem kept_noted {win : ω} {overlapping : ClipRegions ω} (hscan : ScannedTo rect c i)
    (h : Covered c.clippedRects px py ∨ overlapping.Kept px py) (hin : rect.HasPixel px py) :
    (ClipRegions.splitOverlapping rect (noteOverlap rect win) c overlapping i).2.Kept px py := by
  induction c, overlapping, i using splitOverlapping.induct rect (noteOverlap rect win) with
  | case1 c overlapping i hi =>
      rw [splitOverlapping_end hi]
      refine h.resolve_left fun hcov => ?_
      obtain ⟨v, hv⟩ := covered_iff_tagged.mp hcov
      exact not_tagged_of_scanned hscan hi hv hin
  | case2 c overlapping i clip hi hover ih =>
      rw [splitOverlapping_hit hi hover]
      apply ih fun k hk => absurd hk (Nat.not_lt_zero k)
      obtain ⟨tail, happ⟩ := c.prefix_pushAll (splitPieces rect clip)
      have hlist : (c.splitAt rect i clip).clippedRects = c.clippedRects.eraseIdx i ++ tail := by
        change ((c.pushAll (splitPieces rect clip)).clippedRects).eraseIdx i = _
        rw [← happ, List.eraseIdx_append_of_lt_length (List.getElem?_eq_some_iff.mp hi).1]
      have hpush : ∀ r, overlapping.pushRect r = overlapping.pushAll [r] := fun _ => rfl
      rcases h with ⟨old, hold, hpixel⟩ | hkept
      · rcases List.mem_cons.mp ((perm_cons_eraseIdx hi).mem_iff.mp hold) with rfl | hrest
        · right
          rw [noteOverlap, hpush]
          apply kept_of_pushed
          exact ⟨_, List.mem_singleton_self _,
            (Rect.getOverlapRect_hasPixel rect old.rect px py).mpr ⟨hin, hpixel⟩⟩
        · exact Or.inl ⟨old, hlist ▸ List.mem_append_left _ hrest, hpixel⟩
      · right
        rw [noteOverlap, hpush]
        exact hkept.pushAll _
  | case3 c overlapping i clip hi hover ih =>
      rw [splitOverlapping_miss hi hover]
      exact ih (scannedTo_succ hscan hi hover) h

end Scan

end ClipRegions

namespace ClipOp

/-- The pixels that an operation can only take from, and those that it adds. -/
def removes : ClipOp ω → Int → Int → Prop
  | .add _ _, _, _ => False
  | .divide _ _, _, _ => False
  | .remove rect, px, py => rect.HasPixel px py

def adds : ClipOp ω → Int → Int → Prop
  | .add rect _, px, py => rect.HasPixel px py
  | .divide _ _, _, _ => False
  | .remove _, _, _ => False

variable {c : ClipRegions ω} {op : ClipOp ω} {px py : Int}

theorem isSome_paint (p : Picture ω) (op : ClipOp ω) (px py : Int) :
    (op.paint p px py).isSome ↔ (p px py).isSome ∧ ¬ op.removes px py ∨ op.adds px py := by
  cases op with
  | add rect win =>
      simp only [paint, removes, adds, not_false_iff, and_true]
      split_ifs with hin
      · simp [hin]
      · simp [hin]
  | divide rect win =>
      simp only [paint, removes, adds, not_false_iff, and_true, or_false]
      split_ifs with hin
      · simp
      · rfl
  | remove rect =>
      simp only [paint, removes, adds, or_false]
      split_ifs with hin
      · simp [hin]
      · simp [hin]

/-- An operation on its own: the ghost list names what this operation drops. -/
def step (c : ClipRegions ω) (op : ClipOp ω) : ClipRegions ω := op.apply {c with dropped := []}

/-- One operation keeps what it does not remove, whatever the list has room for. -/
theorem step_kept (hpos : op.rect.Positive)
    (h : Covered c.clippedRects px py ∧ ¬ op.removes px py ∨ op.adds px py) :
    (op.step c).Kept px py := by
  obtain ⟨start, hstart⟩ : ∃ start, start = ({c with dropped := []} : ClipRegions ω) := ⟨_, rfl⟩
  have hold : ∀ {px py}, Covered c.clippedRects px py → start.Kept px py := by
    rw [hstart]
    exact fun hcov => Or.inl hcov
  rw [step, ← hstart]
  cases op with
  | add rect win =>
      change ((start.removeClippedRegion rect).pushAll [⟨rect, win⟩]).Kept px py
      by_cases hin : rect.HasPixel px py
      · exact kept_of_pushed ⟨_, List.mem_singleton_self _, hin⟩
      · have hcov := (h.resolve_right hin).1
        exact ((hold hcov).splitOverlapping hpos hin).pushAll _
  | divide rect win =>
      have hcov := (h.resolve_right id).1
      rw [apply, divideClippedRegion]
      by_cases hin : rect.HasPixel px py
      · have hnoted := @kept_noted _ rect start 0 px py win {clippedRects := []}
          (fun k hk => absurd hk (Nat.not_lt_zero k)) (Or.inl (by rw [hstart]; exact hcov)) hin
        rcases hnoted with hpushed | ⟨r, hr, hpixel⟩
        · rcases kept_of_pushed (c := (splitOverlapping rect (noteOverlap rect win) start
            {clippedRects := []} 0).1) hpushed with hlist | ⟨r, hr, hpixel⟩
          · exact Or.inl hlist
          · exact Or.inr ⟨r, List.mem_append_left _ hr, hpixel⟩
        · exact Or.inr ⟨r, List.mem_append_right _ hr, hpixel⟩
      · rcases ((hold hcov).splitOverlapping hpos hin).pushAll _ with hlist | ⟨r, hr, hpixel⟩
        · exact Or.inl hlist
        · exact Or.inr ⟨r, List.mem_append_left _ hr, hpixel⟩
  | remove rect =>
      obtain ⟨hcov, hin⟩ := h.resolve_right id
      exact (hold hcov).splitOverlapping hpos hin

end ClipOp

/-- Some operation found the list full, dropped a piece with the pixel, and no later one adds the
pixel again. -/
def Dropped (c : ClipRegions ω) : List (ClipOp ω) → Int → Int → Prop
  | [], _, _ => False
  | op :: ops, px, py =>
      (∃ r ∈ (op.step c).dropped, r.HasPixel px py) ∧ (∀ next ∈ ops, ¬ next.adds px py) ∨
        Dropped (op.step c) ops px py

/-- A pixel that is in the picture is covered, unless it was dropped before or is dropped now. -/
theorem covered_or_dropped {ops : List (ClipOp ω)} {c : ClipRegions ω} {p : Picture ω}
    {px py : Int} {before : Prop} (hpos : ∀ op ∈ ops, op.rect.Positive)
    (hstart : (p px py).isSome → Covered c.clippedRects px py ∨ before)
    (hpainted : (ops.foldl ClipOp.paint p px py).isSome) :
    Covered (ops.foldl ClipOp.step c).clippedRects px py ∨
      before ∧ (∀ op ∈ ops, ¬ op.adds px py) ∨ Dropped c ops px py := by
  induction ops generalizing c p before with
  | nil =>
      rcases hstart hpainted with hcov | hbefore
      · exact Or.inl hcov
      · exact Or.inr (Or.inl ⟨hbefore, by simp⟩)
  | cons op ops ih =>
      obtain ⟨hop, hops⟩ := List.forall_mem_cons.mp hpos
      -- What is missing after this operation was missing already, or is dropped by it.
      have hnext : (op.paint p px py).isSome → Covered (op.step c).clippedRects px py ∨
          (before ∧ ¬ op.adds px py ∨ ∃ r ∈ (op.step c).dropped, r.HasPixel px py) := by
        intro hsome
        by_cases hadds : op.adds px py
        · exact (ClipOp.step_kept hop (Or.inr hadds)).imp_right Or.inr
        · obtain ⟨hold, hstays⟩ := ((op.isSome_paint p px py).mp hsome).resolve_right hadds
          rcases hstart hold with hcov | hbefore
          · exact (ClipOp.step_kept hop (Or.inl ⟨hcov, hstays⟩)).imp_right Or.inr
          · exact Or.inr (Or.inl ⟨hbefore, hadds⟩)
      rcases ih hops hnext hpainted with hcov | ⟨hmissing, hlater⟩ | hdropped
      · exact Or.inl hcov
      · rcases hmissing with ⟨hbefore, hadds⟩ | hnow
        · exact Or.inr (Or.inl ⟨hbefore, List.forall_mem_cons.mpr ⟨hadds, hlater⟩⟩)
        · exact Or.inr (Or.inr (Or.inl ⟨hnow, hlater⟩))
      · exact Or.inr (Or.inr (Or.inr hdropped))

/-- After any sequence of operations, also on lists that are full, every pixel of the picture
that the same operations paint is covered or lies in a piece that a full list has dropped. -/
theorem clip_list_covers {ops : List (ClipOp ω)} {c : ClipRegions ω}
    (hpos : ∀ op ∈ ops, op.rect.Positive) (htiled : Tiled c.clippedRects) {px py : Int}
    (hpainted : (ops.foldl ClipOp.paint (pictureOf c.clippedRects) px py).isSome) :
    Covered (ops.foldl ClipOp.step c).clippedRects px py ∨ Dropped c ops px py := by
  have hstart : (pictureOf c.clippedRects px py).isSome →
      Covered c.clippedRects px py ∨ False := fun hsome => Or.inl (htiled.shows.covered.mpr hsome)
  exact (covered_or_dropped hpos hstart hpainted).imp_right fun h => h.resolve_left fun hno => hno.1

/-- A full list: two hundred pixels of one row, with gaps between them. -/
def fullRow : ClipRegions Nat where
  clippedRects := (List.range 200).map fun i : Nat => ⟨⟨2 * i, 0, 1, 1⟩, i⟩

theorem fullRow_tiled : Tiled fullRow.clippedRects := by
  constructor
  · intro clip hclip
    obtain ⟨i, -, rfl⟩ := List.mem_map.mp hclip
    exact ⟨Int.one_pos, Int.one_pos⟩
  · refine List.pairwise_map.mpr (List.pairwise_lt_range.imp ?_)
    intro i j hlt px py hi hj
    simp only [Rect.HasPixel, Rect.getLeft, Rect.getRight] at hi hj
    omega

theorem fullRow_full : fullRow.numClipped = fullRow.maxClipped := by simp [fullRow, numClipped]

/-- A rectangle beside the row is dropped. -/
theorem fullRow_add : (ClipOp.add ⟨0, 5, 1, 1⟩ 7).apply fullRow =
    {fullRow with lost := true, dropped := [⟨0, 5, 1, 1⟩]} := by
  have hclear : ∀ clip ∈ fullRow.clippedRects, clip.rect.overlaps ⟨0, 5, 1, 1⟩ = false := by
    intro clip hclip
    obtain ⟨i, -, rfl⟩ := List.mem_map.mp hclip
    simp [Rect.overlaps, Rect.getTop, Rect.getBottom]
  rw [ClipOp.apply, addClippedRegion, removeClippedRegion, splitOverlapping_of_clear hclear,
    pushRect, if_neg (Nat.not_lt.mpr (Nat.le_of_eq fullRow_full.symm))]
  rfl

/-- The rest of the row stays. -/
theorem clip_list_covers_full_row :
    Covered ([ClipOp.add ⟨0, 5, 1, 1⟩ 7].foldl ClipOp.step fullRow).clippedRects 4 0 := by
  have hpos : ∀ op ∈ [(ClipOp.add ⟨0, 5, 1, 1⟩ 7 : ClipOp Nat)], op.rect.Positive := by
    simp [ClipOp.rect, Rect.Positive]
  have hpainted : ([ClipOp.add ⟨0, 5, 1, 1⟩ 7].foldl ClipOp.paint
      (pictureOf fullRow.clippedRects) 4 0).isSome := by
    have hshown : (pictureOf fullRow.clippedRects 4 0).isSome := fullRow_tiled.shows.covered.mp
      ⟨⟨⟨4, 0, 1, 1⟩, 2⟩, List.mem_map.mpr ⟨2, by simp, rfl⟩, by decide⟩
    exact (ClipOp.isSome_paint _ (.add ⟨0, 5, 1, 1⟩ 7) 4 0).mpr (Or.inl ⟨hshown, id⟩)
  refine (clip_list_covers hpos fullRow_tiled hpainted).resolve_right ?_
  rintro (⟨⟨r, hr, hin⟩, -⟩ | hnever)
  · change r ∈ ((ClipOp.add ⟨0, 5, 1, 1⟩ 7).apply fullRow).dropped at hr
    rw [fullRow_add] at hr
    rw [List.mem_singleton.mp hr] at hin
    exact absurd hin (by decide)
  · exact hnever

/-- A rectangle added to a full list is dropped. -/
theorem full_list_drops_region :
    fullRow.numClipped ≤ fullRow.maxClipped ∧ Tiled fullRow.clippedRects ∧
      (ClipOp.add ⟨0, 5, 1, 1⟩ 7 : ClipOp Nat).rect.Positive ∧
      ((ClipOp.add ⟨0, 5, 1, 1⟩ 7).paint (pictureOf fullRow.clippedRects) 0 5).isSome ∧
      ¬ Covered ((ClipOp.add ⟨0, 5, 1, 1⟩ 7).apply fullRow).clippedRects 0 5 := by
  refine ⟨Nat.le_of_eq fullRow_full, fullRow_tiled, ⟨Int.one_pos, Int.one_pos⟩, rfl, ?_⟩
  rw [fullRow_add]
  rintro ⟨clip, hclip, hin⟩
  obtain ⟨i, -, rfl⟩ := List.mem_map.mp hclip
  simp only [Rect.HasPixel, Rect.getTop, Rect.getBottom] at hin
  omega

end Tellurium.Gui
