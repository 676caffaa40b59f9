/-
What can go wrong while shadow types are erased.

An unknown virtual field is a mistake in the program. Every other fault
means that the tree is not one a type checker would hand over, and is
reported as an internal error.
-/
import Penumbra.Tree.Expand

namespace Penumbra

/-- What should stand at a place of the tree. -/
inductive Expected where
  | visitorArm
  | component
  | wildcardArm
  | armBody
  | typeName
deriving DecidableEq, Repr

def Expected.text : Expected → String
  | .visitorArm => "visitor arm"
  | .component => "component"
  | .wildcardArm => "wildcard arm"
  | .armBody => "block as arm body"
  | .typeName => "type name"

/-- What an identifier is there for. -/
inductive IdentRole where
  | binder
  | selectedField
  | declaredVariable
deriving DecidableEq, Repr

def IdentRole.text : IdentRole → String
  | .binder => "binder"
  | .selectedField => "selected field"
  | .declaredVariable => "declared variable"

/-- Why erasure stops. `found` is the name of the kind that stands in place
of what was expected. -/
inductive Cause where
  | lookup (e : LookupError)
  | expected (what : Expected) (found : String)
  | expectedIdent (role : IdentRole) (found : String)
  | armWithoutBinder
  | emptyChain (shadow : String)
  | chainRoot (shadow found : String)
  /-- Shadow types are left at the end. -/
  | survivors (count : Nat) (first : NodeId) (found : String)
  /-- The child lists lead in a circle. -/
  | circle
deriving DecidableEq, Repr

/-- A cause and the place in the source it is blamed on. -/
structure Fault where
  cause : Cause
  span : Option Span
deriving DecidableEq, Repr

namespace Cause

def detail : Cause → String
  | .lookup e => e.message
  | .expected what found => "Expected a " ++ what.text ++ ", found a " ++ found
  | .expectedIdent role found => "Expected an identifier as " ++ role.text ++ ", found a " ++ found
  | .armWithoutBinder => "Found a visitor arm without a binder outside of the wildcard position"
  | .emptyChain shadow =>
    "Found an empty field access chain on a value of shadow type " ++ shadow
  | .chainRoot shadow found =>
    "Expected a variable of shadow type " ++ shadow ++
      " at the root of a field access, found a " ++ found
  | .survivors count first found =>
    toString count ++ " shadow type occurrence(s) survived erasure, the first one is a " ++
      found ++ " (" ++ NodeId.text first ++ ")"
  | .circle => "Found a node below itself"

/-- The program is at fault, not the tree. -/
def isUserError : Cause → Bool
  | .lookup _ => true
  | _ => false

def message (c : Cause) : String :=
  if c.isUserError then c.detail else "An unexpected internal error occurred: " ++ c.detail

def code (c : Cause) : String :=
  if c.isUserError then "E-001" else "E-XXX"

end Cause

namespace Tree

/-- The fault that `id` is not what it should be. -/
def unexpected (t : Tree) (id : NodeId) (what : Expected) : Fault :=
  ⟨.expected what (t.kind id).name, t.span id⟩

/-- The token of `id`, which has to be an identifier. -/
def tokenAs (t : Tree) (role : IdentRole) (id : NodeId) : Except Fault String :=
  match t.token? id with
  | .some token => .ok token
  | .none => .error ⟨.expectedIdent role (t.kind id).name, t.span id⟩

end Tree

end Penumbra
