/-
Texts brought to a column width. A text that is already as wide is left
alone.
-/
namespace Penumbra.Text

/-- The character `c`, `n` times. -/
def filler (c : Char) (n : Nat) : String :=
  String.ofList (List.replicate n c)

/-- The text at the right end of a column of the given width, `c` before
it. -/
def alignRight (c : Char) (width : Nat) (s : String) : String :=
  filler c (width - s.length) ++ s

/-- The text at the left end of a column of the given width, `c` after
it. -/
def alignLeft (c : Char) (width : Nat) (s : String) : String :=
  s ++ filler c (width - s.length)

end Penumbra.Text
