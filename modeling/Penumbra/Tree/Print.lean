/-
Programs as documents.

The document of a node is put together from those of its children, one layer
at a time. Blocks always break lines, so the width of the page plays no
part.
-/
import Penumbra.Doc.Basic
import Penumbra.Tree.Order

namespace Penumbra

/-- A node's document, and the one that stands for it where a type is
expected. -/
structure Printed where
  doc : Doc
  asType : Doc
deriving Inhabited

def Doc.defaultCase (body : Doc) : Doc := .keyword "default" ++ .text ": " ++ body

namespace Kind

/-- The declaration without its semicolon. -/
def declarationDoc (name : Printed) : Option Printed → Option Printed → Doc
  | .some ascription, .some init =>
    name.doc ++ .text ": " ++ ascription.asType ++ .text " = " ++ init.doc
  | .some ascription, .none => name.doc ++ .text ": " ++ ascription.asType
  | .none, .some init => name.doc ++ .text " := " ++ init.doc
  | .none, .none => name.doc

def literalDoc : Literal → Doc
  | .int i => .literal (toString i)
  | .str s => .literal ("\"" ++ s ++ "\"")
  | .bool true => .keyword "true"
  | .bool false => .keyword "false"

/-- One layer of a program, nested by `indent` per block. -/
def doc (indent : Int) : Kind Printed → Doc
  | .program stmts => .block indent (stmts.map (·.doc))
  | .block stmts => .block indent (stmts.map (·.doc))
  | .varDecl name ascription init => declarationDoc name ascription init ++ .text ";"
  | .assign lhs rhs => lhs.doc ++ .text " = " ++ rhs.doc ++ .text ";"
  | .exprStmt expr => expr.doc ++ .text ";"
  | .ifStmt test yes no =>
    .keyword "if" ++ .space ++ test.doc.parens ++ .space ++ yes.doc ++
      match no with
      | .some no => .space ++ .keyword "else" ++ .space ++ no.doc
      | .none => .nil
  | .returnStmt (.some value) => .keyword "return" ++ .space ++ value.doc ++ .text ";"
  | .returnStmt .none => .keyword "return" ++ .text ";"
  | .switch scrutinee cases default =>
    .keyword "switch" ++ .space ++ scrutinee.doc.parens ++ .space ++
      .block indent (cases.map (·.doc) ++ default.toList.map (·.doc.defaultCase))
  | .case label body => .keyword "case" ++ .space ++ label.doc ++ .text ": " ++ body.doc
  | .visitor arms wildcard =>
    .keyword "visitor" ++ .space ++ .block indent ((arms ++ wildcard.toList).map (·.doc))
  | .arm phase binder body =>
    .keyword phase.text ++ .space ++ (binder.map (·.doc)).getD (.text "_") ++ .text " -> " ++ body.doc
  | .component name ascription => name.doc ++ .text ": " ++ ascription.asType
  | .function params body =>
    .keyword "function" ++ (Doc.commaSeparated (params.map (·.doc))).parens ++ .space ++ body.doc
  | .ident token => .identifier token
  | .literal l => literalDoc l
  | .factor operand steps => operand.doc ++ .concat (steps.map (·.doc))
  | .selector field => .text "." ++ field.doc
  | .index position => position.doc.brackets
  | .call callee args => callee.doc ++ (Doc.commaSeparated (args.map (·.doc))).parens
  | .paren inner => inner.doc.parens
  | .binary op lhs rhs => lhs.doc ++ .text (" " ++ op.symbol ++ " ") ++ rhs.doc

/-- An identifier is written as the name of a type; anything else that
stands in place of one is only mentioned. -/
def typeDoc {α : Type} : Kind α → Doc
  | .ident token => .typeName token
  | k => .text k.name

end Kind

namespace Tree

/-- The spaces per block where nothing else is asked for. -/
def defaultIndent : Int := 4

/-- The document of one node. -/
def doc (t : Tree) (indent : Int) (id : NodeId) : Doc :=
  (t.fold (fun _ k => Printed.mk (k.doc indent) k.typeDoc) default t.size id).doc

/-- The document of the whole program, its statements on lines of their
own. -/
def programDoc? (t : Tree) (indent : Int) : Option Doc :=
  t.program?.map fun stmts => Doc.separate .hardline (stmts.map (t.doc indent))

end Tree

end Penumbra
