/-
Byte positions and spans of a source text.

A span is half open and carries the proof that it does not end before it
starts, so its length never falls below zero. Positions are 32 bits wide;
reports speak of ranges, an offset and a length of any size, and
`Span.ofRange?` keeps the low 32 bits of both ends.
-/
namespace Penumbra

/-- A byte offset into a source text. -/
structure Position where
  offset : UInt32
deriving DecidableEq, Inhabited, Repr

namespace Position

/-- The decimal digits of the offset. -/
def text (p : Position) : String :=
  toString p.offset.toNat

/-- The position as diagnostics for developers show it. -/
def debug (p : Position) : String :=
  "ByteIndex(" ++ p.text ++ ")"

end Position

/-- An offset and a length, as reports state a place. -/
structure Range where
  offset : Nat
  length : Nat
deriving DecidableEq, Inhabited, Repr

/-- The bytes from `start` up to, but not including, `stop`. -/
structure Span where
  start : Position
  stop : Position
  start_le_stop : start.offset ≤ stop.offset
deriving DecidableEq, Repr

namespace Span

/-- The span from `start` to `stop`, unless it would end before it starts. -/
def of? (start stop : UInt32) : Option Span :=
  if h : start ≤ stop then .some ⟨⟨start⟩, ⟨stop⟩, h⟩ else .none

/-- The empty span at the start of a text. -/
def initial : Span :=
  ⟨⟨0⟩, ⟨0⟩, UInt32.le_refl 0⟩

instance : Inhabited Span := ⟨initial⟩

/-- From the earlier start to the later stop. -/
def merge (a b : Span) : Span where
  start := if a.start.offset ≤ b.start.offset then a.start else b.start
  stop := if a.stop.offset ≤ b.stop.offset then b.stop else a.stop
  start_le_stop := by
    have ha := a.start_le_stop
    have hb := b.start_le_stop
    simp only [UInt32.le_iff_toNat_le] at *
    split <;> split <;> omega

def length (s : Span) : Nat :=
  s.stop.offset.toNat - s.start.offset.toNat

def isEmpty (s : Span) : Bool :=
  s.start == s.stop

/-- Spans are ordered by start, then by stop. -/
def order (a b : Span) : Ordering :=
  (compare a.start.offset b.start.offset).then (compare a.stop.offset b.stop.offset)

instance : Ord Span := ⟨order⟩

/-- The span in interval notation. -/
def text (s : Span) : String :=
  "[" ++ s.start.text ++ ", " ++ s.stop.text ++ ")"

/-- The span as diagnostics for developers show it. -/
def debug (s : Span) : String :=
  "Span \x7b start: " ++ s.start.debug ++ ", end: " ++ s.stop.debug ++ " \x7d"

def toRange (s : Span) : Range :=
  ⟨s.start.offset.toNat, s.length⟩

/-- The span whose ends are the low 32 bits of the range's ends, unless they
come out in the wrong order. -/
def ofRange? (r : Range) : Option Span :=
  of? r.offset.toUInt32 (r.offset + r.length).toUInt32

end Span

end Penumbra
