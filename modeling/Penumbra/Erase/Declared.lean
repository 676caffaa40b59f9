/-
The type a binder or declaration was given.
-/
import Penumbra.Tree.Basic

namespace Penumbra.Tree

/-- The type found for the owner, else the one found for its ascription,
else what the ascription's name stands for in its scope. -/
def declaredTy? (t : Tree) (owner ascription : NodeId) : Option Ty :=
  (t.ty owner).or <| (t.ty ascription).or <|
    (t.token? ascription).bind (t.env.getType? (t.scope ascription))

def declaredShadow? (t : Tree) (owner ascription : NodeId) : Option (Shadow Ty) :=
  (t.declaredTy? owner ascription).bind Ty.shadow?

end Penumbra.Tree
