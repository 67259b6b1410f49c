import Tellurium.Lib.SpinLock
import Tellurium.Modules.Printout

/-!
`kprintf` (`kernel/arch/kterminal.c`): any core prints on the one terminal of the kernel, behind
`kprint_lock` and with its interrupts off. The string is formatted on the caller's own stack before
the lock is taken, so a call starts with its text. A step is one round of the loop that prints, or
one of the statements around it.
-/

namespace Tellurium.Arch

open Tellurium.Lib Tellurium.Modules

/-- The terminal of the kernel and the framebuffer it is refreshed to. -/
structure KernelScreen where
  kterminal : Terminal
  framebuffer : Nat → Nat

/-- `apply_set_attribute[0]`, the rest of `terminal_print` and `refresh` follow each other. -/
inductive KprintPlace where
  | attributes (text : List Char)
  | hide (text : List Char)
  | loop (call : Call)
  | refresh

/-- A pointer that has left its string stays where it is. -/
def kprintStep (attrs : Attributes) (fbWPx : Nat) (s : KernelScreen) :
    KprintPlace → KernelScreen × (KprintPlace ⊕ Unit)
  | .attributes text =>
      let colors := attrs.set 0 s.kterminal.colors
      ({s with kterminal := {s.kterminal with colors}}, .inl (.hide text))
  | .hide text => ({s with kterminal := hideCursor s.kterminal}, .inl (.loop {text}))
  | .loop call =>
      if call.pos = call.text.length then
        ({s with kterminal := showCursor s.kterminal}, .inl .refresh)
      else
        match call.text[call.pos]? with
        | none => (s, .inl (.loop call))
        | some c =>
            ({s with kterminal := s.kterminal.printChar attrs c},
              .inl (.loop (call.advance s.kterminal c)))
  | .refresh =>
      ({s with framebuffer := fbLoadBuffer s.kterminal fbWPx s.framebuffer}, .inr ())

def kprintRegion (attrs : Attributes) (fbWPx : Nat) :
    Region KernelScreen (List Char) KprintPlace Unit :=
  ⟨KprintPlace.attributes, kprintStep attrs fbWPx⟩

/-- A call that is alone on the screen. -/
def kprintf (attrs : Attributes) (fbWPx : Nat) (s : KernelScreen) (text : List Char) :
    Option KernelScreen :=
  let t := {s.kterminal with colors := attrs.set 0 s.kterminal.colors}
  (terminalPrint attrs (text.length + 1) t text).map fun t =>
    ⟨t, fbLoadBuffer t fbWPx s.framebuffer⟩

/-- The screen with the text typed and the framebuffer refreshed. -/
def KernelScreen.typed (attrs : Attributes) (fbWPx : Nat) (s : KernelScreen) (text : List Char) :
    KernelScreen :=
  let t := showCursor (text.foldl (Terminal.printChar attrs) s.kterminal)
  ⟨t, fbLoadBuffer t fbWPx s.framebuffer⟩

section Call

variable {attrs : Attributes} {fbWPx : Nat} {s s' : KernelScreen} {r : Unit} {text : List Char}

/-- The loop and what follows it. -/
theorem runs_loop {call : Call} {rest : List Char} {state : Option Nat}
    (hpos : call.pos ≤ call.text.length) (hrest : call.text.drop call.pos = rest)
    (h : Collects s.kterminal state) (hshort : Short state rest)
    (hruns : (kprintRegion attrs fbWPx).Runs s (.loop call) s' r) :
    s' = s.typed attrs fbWPx rest := by
  induction rest generalizing s call state with
  | nil =>
      have hend : call.pos = call.text.length := by
        have hlength := congrArg List.length hrest
        simp only [List.length_drop, List.length_nil] at hlength
        omega
      have hshow : kprintStep attrs fbWPx s (.loop call) =
          ({s with kterminal := showCursor s.kterminal}, .inl .refresh) := if_pos hend
      exact ((hruns.of_go hshow).of_leave rfl).1
  | cons c rest ih =>
      obtain ⟨hroom, hmore⟩ := hshort
      obtain ⟨hnext, -, hadvance⟩ := h.printChar attrs hroom c
      have hlength := congrArg List.length hrest
      have hchar := congrArg (fun l => l[0]?) hrest
      simp only [List.length_drop, List.length_cons] at hlength
      simp only [List.getElem?_drop, Nat.add_zero, List.getElem?_cons_zero] at hchar
      have hround : (kprintRegion attrs fbWPx).step s (.loop call) =
          ({s with kterminal := s.kterminal.printChar attrs c},
            .inl (.loop {call with pos := call.pos + 1})) := by
        change kprintStep attrs fbWPx s (.loop call) = _
        rw [kprintStep, if_neg (by omega), hchar]
        simp only [hadvance]
      have hlater := hruns.of_go hround
      have hpos' : ({call with pos := call.pos + 1} : Call).pos ≤ call.text.length := by
        change call.pos + 1 ≤ _
        omega
      exact ih hpos' (drop_advance hrest) hnext hmore hlater

theorem kprintf_eq (h : Collects s.kterminal none) (hshort : Short none text) :
    kprintf attrs fbWPx s text = some (KernelScreen.typed attrs fbWPx
      ⟨hideCursor {s.kterminal with colors := attrs.set 0 s.kterminal.colors}, s.framebuffer⟩
      text) := by
  have hset : Collects {s.kterminal with colors := attrs.set 0 s.kterminal.colors} none :=
    ⟨h.isAnsiState, h.length⟩
  rw [kprintf]
  dsimp only
  rw [(terminalPrint_short attrs hset hshort (Nat.lt_succ_self _)).1]
  rfl

/-- Behind the lock a call does what it does alone. -/
theorem runs_kprintf (h : Collects s.kterminal none) (hshort : Short none text)
    (hruns : (kprintRegion attrs fbWPx).Runs s (.attributes text) s' r) :
    kprintf attrs fbWPx s text = some s' := by
  have hset : Collects {s.kterminal with colors := attrs.set 0 s.kterminal.colors} none :=
    ⟨h.isAnsiState, h.length⟩
  have hloop := (hruns.of_go rfl).of_go rfl
  have hrest : ({text} : Call).text.drop ({text} : Call).pos = text := rfl
  have hprinted := runs_loop (Nat.zero_le _) hrest (hset.draws (hideCursor_draws _)) hshort hloop
  rw [kprintf_eq h hshort, hprinted]

/-- A call with a short text leaves the array of the sequences empty and intact. -/
theorem kprintf_collects (h : Collects s.kterminal none)
    (htext : Short none text ∧ text.foldl scan none = none)
    (hcall : kprintf attrs fbWPx s text = some s') :
    Collects s'.kterminal none ∧ (Clean s.kterminal → Clean s'.kterminal) := by
  obtain ⟨t, hrun, rfl⟩ := Option.map_eq_some_iff.mp hcall
  have hset : Collects {s.kterminal with colors := attrs.set 0 s.kterminal.colors} none :=
    ⟨h.isAnsiState, h.length⟩
  obtain ⟨hprint, hcollects, hclean⟩ :=
    terminalPrint_short attrs hset htext.1 (Nat.lt_succ_self _)
  cases hprint.symm.trans hrun
  rw [htext.2] at hcollects
  exact ⟨hcollects, fun hs => hclean ⟨hs.writes, hs.starts⟩⟩

end Call

/-- The screen after the texts: they were typed one behind the other, and the framebuffer is up to
date if there was a call at all. -/
def KernelScreen.Is (t₀ : Terminal) (fbWPx : Nat) (s : KernelScreen) (texts : List (List Char)) :
    Prop :=
  (∃ p, t₀.Printed s.kterminal p (layout t₀.cursorHMax (0, 0) texts.flatten) ∧
    (p.line, p.column) = texts.flatten.foldl (nextPlace t₀.cursorHMax) (0, 0)) ∧
  (texts ≠ [] → ∀ y < t₀.termHPx, ∀ x < t₀.termWPx,
    s.framebuffer (fbWPx * y + x) = s.kterminal.pixel y x)

section Screen

variable {attrs : Attributes} {fbWPx : Nat} {s s' : KernelScreen} {r : Unit} {args : AllocArgs}
  {texts : List (List Char)} {text : List Char}

theorem KernelScreen.is_start (h : args.Usable) (fbWPx : Nat) (framebuffer : Nat → Nat) :
    (⟨terminalAlloc args, framebuffer⟩ : KernelScreen).Is (terminalAlloc args) fbWPx [] :=
  ⟨⟨args.paper, ⟨h.shows, h.reads, Terminal.Draws.refl _⟩, rfl⟩, fun hne => absurd rfl hne⟩

/-- A whole call types its text behind the others and refreshes the framebuffer. -/
theorem KernelScreen.Is.kprintf (hattrs : attrs.KeepBlank) (hset : attrs.set 0 = resetTextAttribute)
    (hscroll : args.scrollEnabled = true) (hfb : (terminalAlloc args).termWPx ≤ fbWPx)
    (h : s.Is (terminalAlloc args) fbWPx texts) (htext : PlainText text)
    (hcall : Tellurium.Arch.kprintf attrs fbWPx s text = some s') :
    s'.Is (terminalAlloc args) fbWPx (texts ++ [text]) := by
  obtain ⟨⟨p, hprinted, hplace⟩, -⟩ := h
  have hcollects : Collects s.kterminal none := (collects_alloc args).draws hprinted.draws
  have hcolors : attrs.set 0 s.kterminal.colors = s.kterminal.colors := by
    obtain ⟨_, _, _, _, heq⟩ := hprinted.draws
    rw [hset, heq]
    rfl
  rw [kprintf_eq hcollects htext.short.1, hcolors] at hcall
  cases hcall
  rw [KernelScreen.typed]
  obtain ⟨p₁, hhidden, hline, hcolumn⟩ := hprinted.hideCursor
  obtain ⟨p₂, htyped, hplace'⟩ := hhidden.chars hattrs rfl hscroll htext
  obtain ⟨p₃, hshown, hline', hcolumn'⟩ := htyped.showCursor
  rw [hline, hcolumn, hplace] at hshown hplace'
  generalize showCursor (text.foldl (Terminal.printChar attrs) (hideCursor s.kterminal)) = t at *
  have hwide : t.termWPx = (terminalAlloc args).termWPx := congrArg Format.termWPx hshown.shows.format
  have hhigh : t.termHPx = (terminalAlloc args).termHPx := congrArg Format.termHPx hshown.shows.format
  refine ⟨⟨p₃, ?_, ?_⟩, fun _ y hy x hx => ?_⟩
  · rw [List.flatten_append, layout_append, List.flatten_singleton]
    exact hshown
  · rw [List.flatten_append, List.foldl_append, List.flatten_singleton, hline', hcolumn']
    exact hplace'
  · exact (fbLoadBuffer_pixel _ (hwide.symm ▸ hfb) _ y x (Nat.lt_of_lt_of_le hx hfb)).trans
      (if_pos ⟨hhigh.symm ▸ hy, hwide.symm ▸ hx⟩)

end Screen

theorem foldl_snoc {α : Type*} (texts later : List α) :
    later.foldl (fun texts text => texts ++ [text]) texts = texts ++ later := by
  induction later generalizing texts with
  | nil => exact (List.append_nil texts).symm
  | cons text rest ih => rw [List.foldl_cons, ih, List.append_assoc, List.singleton_append]

section Messages

variable {ι : Type*} {attrs : Attributes} {args : AllocArgs} {fbWPx : Nat} {framebuffer : Nat → Nat}
  {s : KernelScreen} {calls : List (ι × List Char × Unit)}

/-- The screen is what calls with these texts make of it one after the other. -/
structure KernelScreen.After (attrs : Attributes) (args : AllocArgs) (fbWPx : Nat)
    (framebuffer : Nat → Nat) (s : KernelScreen) (texts : List (List Char)) : Prop where
  run : texts.foldlM (Tellurium.Arch.kprintf attrs fbWPx) ⟨terminalAlloc args, framebuffer⟩ = some s
  collects : Collects s.kterminal none
  clean : Clean s.kterminal

theorem KernelScreen.After.kprintf {s' : KernelScreen} {texts : List (List Char)} {text : List Char}
    {r : Unit} (h : s.After attrs args fbWPx framebuffer texts)
    (htext : Short none text ∧ text.foldl scan none = none)
    (hruns : (kprintRegion attrs fbWPx).Runs s (.attributes text) s' r) :
    s'.After attrs args fbWPx framebuffer (texts ++ [text]) := by
  have hone := runs_kprintf h.collects htext.1 hruns
  obtain ⟨hcollects, hclean⟩ := kprintf_collects h.collects htext hone
  refine ⟨?_, hcollects, hclean h.clean⟩
  simp only [List.foldlM_append, h.run, List.foldlM_cons, List.foldlM_nil, hone, Option.bind_eq_bind,
    Option.bind_some, Option.pure_def]

/-- Calls behind the lock are the same calls made alone, one after the other. -/
theorem KernelScreen.after_serial
    (hserial : (kprintRegion attrs fbWPx).Serial ⟨terminalAlloc args, framebuffer⟩ calls s)
    (hshort : ∀ call ∈ calls, Short none call.2.1 ∧ call.2.1.foldl scan none = none) :
    s.After attrs args fbWPx framebuffer (calls.map fun call => call.2.1) := by
  have hcall : ∀ {s texts text s' r}, KernelScreen.After attrs args fbWPx framebuffer s texts →
      (Short none text ∧ text.foldl scan none = none) →
      (kprintRegion attrs fbWPx).Runs s (.attributes text) s' r →
      r = () ∧ s'.After attrs args fbWPx framebuffer (texts ++ [text]) :=
    fun hs htext hruns => ⟨rfl, hs.kprintf htext hruns⟩
  have hstart : KernelScreen.After attrs args fbWPx framebuffer
      ⟨terminalAlloc args, framebuffer⟩ [] := ⟨rfl, collects_alloc args, clean_alloc args⟩
  have hall := hserial.refines hcall hstart (EveryStep.of_forall (List.forall_mem_map.mpr hshort))
  rw [foldl_snoc, List.nil_append] at hall
  exact hall

/-- What calls that print plain texts leave on the screen. -/
theorem KernelScreen.is_run (h : args.Usable) (hattrs : attrs.KeepBlank)
    (hset : attrs.set 0 = resetTextAttribute) (hscroll : args.scrollEnabled = true)
    (hfb : (terminalAlloc args).termWPx ≤ fbWPx) {texts : List (List Char)}
    (hplain : ∀ text ∈ texts, PlainText text)
    (hrun : texts.foldlM (Tellurium.Arch.kprintf attrs fbWPx)
      ⟨terminalAlloc args, framebuffer⟩ = some s) :
    s.Is (terminalAlloc args) fbWPx texts := by
  induction texts using List.reverseRecOn generalizing s with
  | nil =>
      cases hrun
      exact KernelScreen.is_start h fbWPx framebuffer
  | append_singleton texts text ih =>
      rw [List.foldlM_append] at hrun
      obtain ⟨s₁, hfirst, hlast⟩ := Option.bind_eq_some_iff.mp hrun
      rw [List.foldlM_cons] at hlast
      obtain ⟨s₂, hcall, hdone⟩ := Option.bind_eq_some_iff.mp hlast
      cases hdone
      rw [List.forall_mem_append, List.forall_mem_singleton] at hplain
      exact (ih hplain.1 hfirst).kprintf hattrs hset hscroll hfb hplain.2 hcall

end Messages

/-- Two cores print at the same time. The second one comes first. -/
def twoPrints : List (CoreStep (Fin 2) (List Char)) :=
  [.call 0 ['a'], .call 1 ['b'], .tick 1, .tick 0] ++ List.replicate 6 (.tick 1) ++
    List.replicate 7 (.tick 0)

end Tellurium.Arch
