/-
Documents: text with hard line breaks, nesting and marks.

A mark says what a stretch of text is (a keyword, a type, …); how it looks
is decided where the document is written out. Lines break only where the
document says so.
-/
namespace Penumbra

/-- What a stretch of text is. -/
inductive Mark where
  | keyword
  | typeName
  | identifier
  | literal
deriving DecidableEq, Inhabited, Repr

inductive Doc where
  | nil
  | text (s : String)
  /-- A line break that always breaks. -/
  | hardline
  /-- A part that cannot be written out. -/
  | fail
  | cat (a b : Doc)
  /-- Changes the nesting of the line breaks inside. -/
  | nest (amount : Int) (d : Doc)
  | mark (m : Mark) (d : Doc)
deriving DecidableEq, Inhabited, Repr

namespace Doc

instance : Append Doc := ⟨.cat⟩

def space : Doc := .text " "

def keyword (s : String) : Doc := .mark .keyword (.text s)

def typeName (s : String) : Doc := .mark .typeName (.text s)

def identifier (s : String) : Doc := .mark .identifier (.text s)

def literal (s : String) : Doc := .mark .literal (.text s)

def parens (d : Doc) : Doc := .text "(" ++ d ++ .text ")"

def brackets (d : Doc) : Doc := .text "[" ++ d ++ .text "]"

def braces (d : Doc) : Doc := .text "\x7b" ++ d ++ .text "\x7d"

def concat : List Doc → Doc
  | [] => .nil
  | d :: ds => d ++ concat ds

/-- The documents with `sep` between each two of them. -/
def separate (sep : Doc) : List Doc → Doc
  | [] => .nil
  | [d] => d
  | d :: ds => d ++ sep ++ separate sep ds

/-- Call arguments and parameters: `a, b, c`. -/
def commaSeparated (ds : List Doc) : Doc :=
  separate (.text ", ") ds

/-- One item per line between braces, nested by `indent`; without items the
braces stand together. -/
def block (indent : Int) : List Doc → Doc
  | [] => .text "\x7b\x7d"
  | ds => braces (.nest indent (.hardline ++ separate .hardline ds) ++ .hardline)

end Doc

end Penumbra
