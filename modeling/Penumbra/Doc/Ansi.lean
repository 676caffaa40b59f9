/-
Documents as coloured terminal text.

Every change of colour starts with a reset, so the colour shown is always the
one of the innermost mark, whatever was set before.
-/
import Penumbra.Doc.Layout

namespace Penumbra

namespace Ansi

/-- Clears all attributes. -/
def reset : String := "\x1b[0m"

/-- Sets the foreground colour of a mark: magenta, red, blue, green. -/
def colour : Mark → String
  | .keyword => "\x1b[35m"
  | .typeName => "\x1b[31m"
  | .identifier => "\x1b[34m"
  | .literal => "\x1b[32m"

/-- Switches to the colour of the innermost of the open marks. -/
def restore : List Mark → String
  | [] => reset
  | m :: _ => reset ++ colour m

/-- The pieces as coloured text, `around` being the marks around them,
innermost first. -/
def write (around : List Mark) : List Piece → String
  | [] => ""
  | .enter m :: ps => restore (m :: around) ++ write (m :: around) ps
  | .leave :: ps => restore around.tail ++ write around.tail ps
  | p :: ps => p.plain ++ write around ps

end Ansi

/-- The document as coloured terminal text. -/
def Doc.coloured (d : Doc) : Except Doc.Failure String := do
  return Ansi.write [] (← d.layout 0)

end Penumbra
