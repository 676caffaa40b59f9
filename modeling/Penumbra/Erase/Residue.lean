/-
Where shadow types are left.
-/
import Penumbra.Tree.Order

namespace Penumbra.Tree

/-- An identifier that is the name of a shadow type. -/
def namesShadow (t : Tree) (id : NodeId) : Bool :=
  match t.token? id with
  | .some token => (t.env.getType? (t.scope id) token).any Ty.isShadow
  | .none => false

/-- Fields and case labels are identifiers that refer to no variable. -/
def isReference (t : Tree) (id : NodeId) : Bool :=
  match (t.parent id).map t.kind with
  | .some (.selector _) => false
  | .some (.case label _) => label != id
  | _ => true

/-- An identifier that refers to a variable of a shadow type. -/
def refersToShadow (t : Tree) (id : NodeId) : Bool :=
  match t.token? id with
  | .some token => t.isReference id && (t.env.get? (t.scope id) token).any Ty.isShadow
  | .none => false

/-- Whether a node still has to do with a shadow type. -/
def mentionsShadow (t : Tree) (id : NodeId) : Bool :=
  (t.ty id).any Ty.isShadow || t.namesShadow id || t.refersToShadow id

/-- The nodes of the program that still have to do with a shadow type, in
the order of `preOrder`. -/
def residue (t : Tree) : List NodeId :=
  (t.preOrder root).filter t.mentionsShadow

end Penumbra.Tree
