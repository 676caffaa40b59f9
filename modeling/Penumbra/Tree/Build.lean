/-
Building nodes.

Each builder adds nodes to the tree and answers with the index of the last,
which is the parent of the children it was given. Names are given as texts;
the builder adds the identifiers for them itself, after the children and
before the node.
-/
import Penumbra.Tree.Basic

namespace Penumbra

/-- A computation that adds to a tree. -/
abbrev Build := StateM Tree

namespace Build

def alloc (kind : Kind NodeId) (scope : ScopeId) : Build NodeId :=
  modifyGet fun t => (t.size, t.push kind scope)

/-- Gives the built node a type. -/
def typed (ty : Ty) (build : Build NodeId) : Build NodeId := do
  let id ← build
  modify (·.setTy id ty)
  return id

/-- A new scope inside `s`. -/
def childScope (s : ScopeId) : Build ScopeId :=
  modifyGet fun t =>
    let (child, env) := t.env.child s
    (child, { t with env })

/-! ## Expressions -/

def ident (token : String) (scope : ScopeId) : Build NodeId :=
  alloc (.ident token) scope

def literalTy : Literal → Ty
  | .int _ => .int
  | .str _ => .string
  | .bool _ => .bool

def literal (l : Literal) (scope : ScopeId) : Build NodeId :=
  typed (literalTy l) (alloc (.literal l) scope)

def selector (field : String) (scope : ScopeId) : Build NodeId := do
  let field ← ident field scope
  alloc (.selector field) scope

def index (position : NodeId) (scope : ScopeId) : Build NodeId :=
  alloc (.index position) scope

def factor (operand : NodeId) (steps : List NodeId) (scope : ScopeId) : Build NodeId :=
  alloc (.factor operand steps) scope

def paren (inner : NodeId) (scope : ScopeId) : Build NodeId :=
  alloc (.paren inner) scope

def call (callee : String) (args : List NodeId) (scope : ScopeId) : Build NodeId := do
  let callee ← ident callee scope
  alloc (.call callee args) scope

def binary (op : BinOp) (lhs rhs : NodeId) (scope : ScopeId) : Build NodeId :=
  alloc (.binary op lhs rhs) scope

/-! ## Statements -/

def block (stmts : List NodeId) (scope : ScopeId) : Build NodeId :=
  alloc (.block stmts) scope

def varDecl (name : String) (ascription : Option String) (init : Option NodeId)
    (scope : ScopeId) : Build NodeId := do
  let name ← ident name scope
  let ascription ← ascription.mapM (ident · scope)
  alloc (.varDecl name ascription init) scope

def assign (lhs rhs : NodeId) (scope : ScopeId) : Build NodeId :=
  alloc (.assign lhs rhs) scope

def exprStmt (expr : NodeId) (scope : ScopeId) : Build NodeId :=
  alloc (.exprStmt expr) scope

def ifStmt (test yes : NodeId) (no : Option NodeId) (scope : ScopeId) : Build NodeId :=
  alloc (.ifStmt test yes no) scope

def returnStmt (value : Option NodeId) (scope : ScopeId) : Build NodeId :=
  alloc (.returnStmt value) scope

def switch (scrutinee : NodeId) (cases : List NodeId) (default : Option NodeId)
    (scope : ScopeId) : Build NodeId :=
  alloc (.switch scrutinee cases default) scope

def case (label body : NodeId) (scope : ScopeId) : Build NodeId :=
  alloc (.case label body) scope

/-! ## Visitors and functions -/

def component (name ascription : String) (scope : ScopeId) : Build NodeId := do
  let name ← ident name scope
  let ascription ← ident ascription scope
  alloc (.component name ascription) scope

def arm (phase : Phase) (binder : Option NodeId) (body : NodeId) (scope : ScopeId) : Build NodeId :=
  alloc (.arm phase binder body) scope

def visitor (arms : List NodeId) (wildcard : Option NodeId) (scope : ScopeId) : Build NodeId :=
  typed .visitor (alloc (.visitor arms wildcard) scope)

def function (params : List NodeId) (body : NodeId) (scope : ScopeId) : Build NodeId :=
  typed .function (alloc (.function params body) scope)

end Build

end Penumbra
