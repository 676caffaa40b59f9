/-
Coloured text on a terminal.

A terminal reads one character after the other. What follows an escape character
up to the letter `m` changes its colour; everything else is shown in the colour
set at that moment. Read in this way, the coloured text of a document shows its
plain text, each character in the colour of the innermost mark around it
(`coloured_displays`). The colour is the terminal's own and outlives the part it
was set for, so the proof goes along the document with what comes after it as a
parameter: whenever a part begins or ends, the terminal has the colour of the
innermost of the marks that are open there (`feed_pieces`).
-/
import Penumbra.Proofs.Doc.WrittenText

namespace Penumbra

namespace Terminal

/-- The colours of a terminal, in the order of their codes. -/
inductive Colour where
  | black
  | red
  | green
  | yellow
  | blue
  | magenta
  | cyan
  | white
deriving DecidableEq, Repr

/-- The colour that a code sets. -/
def Colour.ofCode? : Nat → Option Colour
  | 30 => .some .black
  | 31 => .some .red
  | 32 => .some .green
  | 33 => .some .yellow
  | 34 => .some .blue
  | 35 => .some .magenta
  | 36 => .some .cyan
  | 37 => .some .white
  | _ => .none

/-- What a terminal takes the next character for. -/
inductive Mode where
  | text
  /-- The character after an escape. -/
  | escape
  /-- The rest of a sequence, of which the digits so far give this code. -/
  | code (n : Nat)
deriving DecidableEq, Repr

end Terminal

open Terminal in
/-- A terminal: what it shows, and how it takes what comes next. -/
structure Terminal where
  shown : List (Char × Option Colour) := []
  colour : Option Colour := .none
  mode : Mode := .text
deriving DecidableEq, Repr

namespace Terminal

def esc : Char := '\x1b'

/-- The colour after a sequence: zero clears it, and codes that are no colours
leave it alone. -/
def paint (colour : Option Colour) (code : Nat) : Option Colour :=
  if code = 0 then .none else (Colour.ofCode? code).or colour

/-- Reads one character. -/
def read (t : Terminal) (c : Char) : Terminal :=
  match t.mode with
  | .text => if c = esc then { t with mode := .escape } else { t with shown := t.shown ++ [(c, t.colour)] }
  | .escape => { t with mode := if c = '[' then .code 0 else .text }
  | .code n =>
    if c.isDigit then { t with mode := .code (10 * n + (c.toNat - '0'.toNat)) }
    else if c = 'm' then { t with colour := paint t.colour n, mode := .text }
    else { t with mode := .text }

def feed (t : Terminal) (s : String) : Terminal :=
  s.toList.foldl read t

/-- A terminal that has read a text. -/
def display (s : String) : Terminal :=
  feed {} s

/-! ## What a terminal reads -/

variable (t : Terminal) (a b s : String) (shown : List (Char × Option Colour)) (colour : Option Colour)

@[simp] theorem feed_empty : t.feed "" = t := rfl

@[simp] theorem feed_append : t.feed (a ++ b) = (t.feed a).feed b := by
  simp [feed]

/-- Characters other than escapes are shown. -/
theorem foldl_read {l : List Char} (h : esc ∉ l) :
    l.foldl read ⟨shown, colour, .text⟩ = ⟨shown ++ l.map (·, colour), colour, .text⟩ := by
  induction l generalizing shown with
  | nil => simp
  | cons c l ih =>
    simp only [List.mem_cons, not_or] at h
    have hc : read ⟨shown, colour, .text⟩ c = ⟨shown ++ [(c, colour)], colour, .text⟩ := by
      simp [read, Ne.symm h.1]
    rw [List.foldl_cons, hc, ih _ h.2]
    simp

theorem feed_text {s : String} (h : esc ∉ s.toList) :
    feed ⟨shown, colour, .text⟩ s = ⟨shown ++ s.toList.map (·, colour), colour, .text⟩ :=
  foldl_read shown colour h

theorem feed_reset : feed ⟨shown, colour, .text⟩ Ansi.reset = ⟨shown, .none, .text⟩ := rfl

end Terminal

/-- The colour of a mark. -/
def Mark.shade : Mark → Terminal.Colour
  | .keyword => .magenta
  | .typeName => .red
  | .identifier => .blue
  | .literal => .green

namespace Terminal

theorem feed_colour (shown : List (Char × Option Colour)) (colour : Option Colour) (m : Mark) :
    feed ⟨shown, colour, .text⟩ (Ansi.colour m) = ⟨shown, .some m.shade, .text⟩ := by
  cases m <;> rfl

/-- The terminal inside the marks `around`, innermost first. -/
def inside (around : List Mark) (shown : List (Char × Option Colour)) : Terminal where
  shown := shown
  colour := around.head?.map Mark.shade

/-- After every change of marks the colour is that of the innermost one, whatever
it was before. -/
theorem feed_restore (shown : List (Char × Option Colour)) (colour : Option Colour) (around : List Mark) :
    feed ⟨shown, colour, .text⟩ (Ansi.restore around) = inside around shown := by
  cases around with
  | nil => rfl
  | cons m around => rw [Ansi.restore, feed_append, feed_reset, feed_colour]; rfl

end Terminal

/-! ## Documents on a terminal -/

namespace Doc

open Terminal

/-- The characters of a document, each with the innermost mark around it; `around`
is the one around the document. -/
def marked (indent : Nat) (around : Option Mark) : Doc → List (Char × Option Mark)
  | .nil | .fail => []
  | .text s => s.toList.map (·, around)
  | .hardline => ('\n' :: List.replicate indent ' ').map (·, around)
  | .cat a b => a.marked indent around ++ b.marked indent around
  | .nest amount d => d.marked (nested indent amount) around
  | .mark m d => d.marked indent (.some m)

/-- The characters as a terminal should show them. -/
def shades (l : List (Char × Option Mark)) : List (Char × Option Colour) :=
  l.map fun p => (p.1, p.2.map Mark.shade)

theorem map_fst_marked (d : Doc) (indent : Nat) (around : Option Mark) :
    (d.marked indent around).map (·.1) = d.chars indent := by
  induction d generalizing indent around with
  | nil | fail => rfl
  | text s => simp [marked, Function.comp_def]
  | hardline => simp [marked]
  | cat a b iha ihb => simp [marked, iha, ihb]
  | nest amount d ih => exact ih ..
  | mark m d ih => simp [marked, ih]

/-- A document inside of marks, with more to follow. What is read of it is shown as
it should be, and after it the terminal is inside the same marks as before. -/
theorem feed_pieces (d : Doc) (hesc : ∀ s ∈ d.texts, esc ∉ s.toList) (indent : Nat) (around : List Mark)
    (rest : List Piece) (shown : List (Char × Option Colour)) :
    (inside around shown).feed (Ansi.write around (d.pieces indent ++ rest)) =
      (inside around (shown ++ shades (d.marked indent around.head?))).feed (Ansi.write around rest) := by
  induction d generalizing indent around rest shown with
  | nil | fail => simp [pieces, marked, shades]
  | text s =>
    have hs := hesc s (by simp [texts])
    have hfeed := feed_text shown (around.head?.map Mark.shade) hs
    simp only [pieces, List.cons_append, List.nil_append, Ansi.write, feed_append, inside, Piece.plain, hfeed]
    simp [marked, shades, Function.comp_def]
  | hardline =>
    have hline : esc ∉ (Piece.newline indent).plain.toList := by
      simp [Piece.plain, Text.filler, esc]
    have hfeed := feed_text shown (around.head?.map Mark.shade) hline
    simp only [pieces, List.cons_append, List.nil_append, Ansi.write, feed_append, inside, hfeed]
    simp [marked, shades, Piece.plain, Text.filler]
  | cat a b iha ihb =>
    simp only [texts, List.forall_mem_append] at hesc
    rw [pieces, List.append_assoc, iha hesc.1, ihb hesc.2]
    simp [marked, shades]
  | nest amount d ih => exact ih hesc ..
  | mark m d ih =>
    -- the end of the mark is part of what follows its inner document
    have hopen : (inside around shown).feed (Ansi.restore (m :: around)) = inside (m :: around) shown := feed_restore ..
    have hclose : ∀ shown', (inside (m :: around) shown').feed (Ansi.restore around) = inside around shown' :=
      fun _ => feed_restore ..
    rw [pieces, List.cons_append, Ansi.write, feed_append, hopen, List.append_assoc, ih hesc]
    simp only [List.cons_append, List.nil_append, Ansi.write, List.tail_cons, feed_append, hclose]
    rfl

/-- Coloured text is there exactly where plain text is. A terminal shows it as the
plain text, each character in the colour of the innermost mark around it or in
none, and is left as it was before. -/
theorem coloured_displays (d : Doc) (hesc : ∀ s ∈ d.texts, esc ∉ s.toList) :
    ((∃ e, d.coloured = .error e) ↔ ∃ e, d.plain = .error e) ∧
    ∀ out, d.coloured = .ok out → ∃ text, d.plain = .ok text ∧
      (display out).shown.map (·.1) = text.toList ∧
      (display out).shown = shades (d.marked 0 .none) ∧
      (display out).colour = .none ∧ (display out).mode = .text := by
  rw [coloured_eq, plain_eq]
  cases d.writable with
  | false => exact ⟨Iff.rfl, fun out h => by cases h⟩
  | true =>
    refine ⟨by simp, fun out h => ⟨_, rfl, ?_⟩⟩
    obtain rfl : Ansi.write [] (d.pieces 0) = out := by simpa using h
    have hfeed := feed_pieces d hesc 0 [] [] []
    simp only [List.append_nil, List.nil_append, List.head?_nil, Ansi.write, feed_empty] at hfeed
    have hdisplay : display (Ansi.write [] (d.pieces 0)) = inside [] (shades (d.marked 0 .none)) := hfeed
    rw [hdisplay]
    refine ⟨?_, rfl, rfl, rfl⟩
    rw [toList_written, ← map_fst_marked d 0 .none]
    simp [inside, shades]

end Doc

namespace Sample

/-- A literal on a line of its own within a type. -/
def badge : Doc :=
  .mark .typeName (.text "A" ++ .nest 1 (.hardline ++ .literal "1") ++ .text "B") ++ .text ";"

open Terminal in
/-- The type is red on both sides of the green literal, also where the line breaks. -/
theorem coloured_displays_badge :
    (∀ s ∈ badge.texts, esc ∉ s.toList) ∧ badge.plain = .ok "A\n 1B;" ∧
    ∃ out, badge.coloured = .ok out ∧
      (display out).shown = [('A', .some .red), ('\n', .some .red), (' ', .some .red), ('1', .some .green),
        ('B', .some .red), (';', .none)] ∧
      (display out).colour = .none ∧ (display out).mode = .text := by
  have hesc : ∀ s ∈ badge.texts, esc ∉ s.toList := by decide
  have hplain : badge.plain = .ok "A\n 1B;" := rfl
  obtain ⟨hfails, hshown⟩ := Doc.coloured_displays badge hesc
  refine ⟨hesc, hplain, ?_⟩
  cases hout : badge.coloured with
  | error e =>
    obtain ⟨e', he'⟩ := hfails.mp ⟨e, hout⟩
    cases he'.symm.trans hplain
  | ok out =>
    obtain ⟨text, _, _, hshades, hcolour, hmode⟩ := hshown out hout
    exact ⟨out, rfl, hshades, hcolour, hmode⟩

end Sample

end Penumbra
