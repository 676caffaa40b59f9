/-
Program trees.

The nodes of a tree are kept in one array and refer to each other by index.
A node's kind lists its children; its parent link points back up. Nodes are
never removed: one that no child list names any more stays in the array, out
of reach from the root. Nothing forbids that two child lists name the same
node; its parent link then points to whichever was linked last.
-/
import Penumbra.Env
import Penumbra.Program.Kind
import Penumbra.Source.Span

namespace Penumbra

abbrev NodeId := Nat

/-- How reports refer to a node. -/
def NodeId.text (id : NodeId) : String :=
  "#" ++ toString id

structure Node where
  kind : Kind NodeId
  parent : Option NodeId := .none
  scope : ScopeId
  /-- The type found for the node, if any. -/
  ty : Option Ty := .none
  span : Option Span := .none

/-- Nodes are compared by kind, scope and type; where a node stands does not
matter. -/
def Node.same (a b : Node) : Bool :=
  a.kind == b.kind && a.scope == b.scope &&
    match a.ty, b.ty with
    | .none, .none => true
    | .some s, .some t => s.same t
    | _, _ => false

/-- A node without parts, the value of every index that was never handed
out. -/
def Node.blank : Node where
  kind := .literal (.bool false)
  scope := Env.global

instance : Inhabited Node := ⟨.blank⟩

structure Tree where
  /-- The compilation unit the program comes from. -/
  uri : String
  env : Env := {}
  nodes : Array Node := #[{ kind := .program [], scope := Env.global }]
deriving Inhabited

namespace Tree

/-- The node of the program itself, present from the start. -/
def root : NodeId := 0

/-- The number of nodes, out of reach or not. -/
def size (t : Tree) : Nat := t.nodes.size

/-! ## Reading -/

def node (t : Tree) (id : NodeId) : Node :=
  t.nodes.getD id .blank

def kind (t : Tree) (id : NodeId) : Kind NodeId := (t.node id).kind

def parent (t : Tree) (id : NodeId) : Option NodeId := (t.node id).parent

def scope (t : Tree) (id : NodeId) : ScopeId := (t.node id).scope

def ty (t : Tree) (id : NodeId) : Option Ty := (t.node id).ty

def span (t : Tree) (id : NodeId) : Option Span := (t.node id).span

def children (t : Tree) (id : NodeId) : List NodeId := (t.kind id).children

/-- The shadow type found for the node, if that is what was found. -/
def shadow? (t : Tree) (id : NodeId) : Option (Shadow Ty) :=
  (t.ty id).bind Ty.shadow?

/-- The token of an identifier. -/
def token? (t : Tree) (id : NodeId) : Option String := (t.kind id).token?

/-- The statements of a program or block. -/
def stmts? (t : Tree) (id : NodeId) : Option (List NodeId) := (t.kind id).stmts?

def isVisitor (t : Tree) (id : NodeId) : Bool :=
  match t.kind id with
  | .visitor .. => true
  | _ => false

/-- The statements of the program, as long as the root is one. -/
def program? (t : Tree) : Option (List NodeId) :=
  match t.kind root with
  | .program stmts => .some stmts
  | _ => .none

/-! ## Writing -/

def update (t : Tree) (id : NodeId) (f : Node → Node) : Tree :=
  { t with nodes := t.nodes.modify id f }

def setKind (t : Tree) (id : NodeId) (kind : Kind NodeId) : Tree :=
  t.update id fun n => { n with kind }

def setParent (t : Tree) (child parent : NodeId) : Tree :=
  t.update child fun n => { n with parent := .some parent }

def setTy? (t : Tree) (id : NodeId) (ty : Option Ty) : Tree :=
  t.update id fun n => { n with ty }

def setTy (t : Tree) (id : NodeId) (ty : Ty) : Tree :=
  t.setTy? id (.some ty)

def setSpan? (t : Tree) (id : NodeId) (span : Option Span) : Tree :=
  t.update id fun n => { n with span }

def setSpan (t : Tree) (id : NodeId) (span : Span) : Tree :=
  t.setSpan? id (.some span)

/-- Makes `parent` the parent of each of the nodes. -/
def adopt (t : Tree) (parent : NodeId) (nodes : List NodeId) : Tree :=
  nodes.foldl (fun t child => t.setParent child parent) t

/-- Adds a node and makes it the parent of its children. -/
def push (t : Tree) (kind : Kind NodeId) (scope : ScopeId) : Tree :=
  adopt { t with nodes := t.nodes.push { kind, scope } } t.size kind.children

/-- Changes the kind of a node if `f` has an answer for it. -/
def edit? (t : Tree) (id : NodeId) (f : Kind NodeId → Option (Kind NodeId)) : Option Tree :=
  (f (t.kind id)).map (t.setKind id)

def setToken? (t : Tree) (id : NodeId) (token : String) : Option Tree :=
  t.edit? id (Kind.withToken token)

/-- Appends a statement to a program or block and becomes its parent. -/
def pushStmt? (t : Tree) (block stmt : NodeId) : Option Tree :=
  (t.edit? block (Kind.addStmt stmt)).map (·.setParent stmt block)

def modifyEnv (t : Tree) (f : Env → Env) : Tree :=
  { t with env := f t.env }

end Tree

end Penumbra
