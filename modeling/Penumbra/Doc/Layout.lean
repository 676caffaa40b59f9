/-
Documents laid out as pieces.

Laying out settles how far each line is indented. The pieces keep the marks,
as brackets around what they cover, so that plain and coloured texts are two
ways of writing the same pieces.
-/
import Penumbra.Text.Column
import Penumbra.Doc.Basic

namespace Penumbra

inductive Piece where
  | text (s : String)
  /-- A line break and the spaces that follow it. -/
  | newline (indent : Nat)
  | enter (m : Mark)
  | leave
deriving DecidableEq, Inhabited, Repr

/-- The text a piece shows, marks aside. -/
def Piece.plain : Piece → String
  | .text s => s
  | .newline indent => "\n" ++ Text.filler ' ' indent
  | .enter _ => ""
  | .leave => ""

namespace Doc

/-- Why a document has no text. -/
inductive Failure where
  | unwritable
deriving DecidableEq, Inhabited, Repr

def Failure.message : Failure → String
  | .unwritable => "Document failed to render"

/-- The deepest nesting, the largest word of 64 bits. -/
def maxIndent : Nat := 18446744073709551615

/-- The nesting changed by `amount`. It never falls below zero and stops at
`maxIndent`. -/
def nested (indent : Nat) (amount : Int) : Nat :=
  Nat.min (indent + amount).toNat maxIndent

/-- The pieces of a document at the given nesting. -/
def layout (indent : Nat) : Doc → Except Failure (List Piece)
  | .nil => .ok []
  | .text s => .ok [.text s]
  | .hardline => .ok [.newline indent]
  | .fail => .error .unwritable
  | .cat a b => do
    let left ← a.layout indent
    let right ← b.layout indent
    return left ++ right
  | .nest amount d => d.layout (nested indent amount)
  | .mark m d => do
    let inner ← d.layout indent
    return .enter m :: (inner ++ [.leave])

/-- The document as plain text. -/
def plain (d : Doc) : Except Failure String := do
  return String.join ((← d.layout 0).map Piece.plain)

end Doc

end Penumbra
