/-
Virtual fields as expressions.

`x.f`, for a virtual field `f`, becomes the path of `f` followed from `x`. An
empty path leads to `x` itself, which keeps the concrete tuple type.
-/
import Penumbra.Tree.Build

namespace Penumbra

/-- Why a virtual field has no expression. -/
inductive LookupError where
  | unknownField (field shadow : String)
deriving DecidableEq, Repr

namespace LookupError

def message : LookupError → String
  | .unknownField field shadow => "Shadow type " ++ shadow ++ " has no field named " ++ field

def code : LookupError → String
  | .unknownField .. => "S-001"

end LookupError

namespace Build

/-- The step of a chain for a step of a path. -/
def pathStep (scope : ScopeId) : PathStep → Build NodeId
  | .field name => selector name scope
  | .index i => do
    let position ← literal (.int i) scope
    index position scope

/-- The chain of a path from the variable `var`. -/
def path (var : NodeId) (ty : Ty) (scope : ScopeId) : List PathStep → Build NodeId
  | [] => return var
  | steps => do
    let steps ← steps.mapM (pathStep scope)
    typed ty (factor var steps scope)

end Build

namespace Shadow

/-- The expression for a field of the table, on the variable `var`. -/
def expandField (s : Shadow Ty) (field : VirtualField Ty) (var : String) (scope : ScopeId) :
    Build NodeId := do
  let var ← Build.typed (.named s.shadowedName) (Build.ident var scope)
  let id ← Build.path var field.ty scope field.path
  unless s.typesFields do modify (·.setTy? id .none)
  return id

/-- The expression for `var.field`, added to the tree. -/
def expand (s : Shadow Ty) (field var : String) (scope : ScopeId) (t : Tree) :
    Except LookupError (NodeId × Tree) :=
  match s.field? field with
  | .none => .error (.unknownField field s.name)
  | .some f => .ok ((s.expandField f var scope).run t)

end Shadow

end Penumbra
