/-
Deep copies.

A copy consists of new nodes only and refers to the scopes of what it was
copied from. Where a node was named by several child lists, the copy has a
node for each.
-/
import Penumbra.Tree.Build

namespace Penumbra.Build

/-- Copies a node and all below it, down to the given depth. -/
def copyDown : Nat → NodeId → Build NodeId
  | 0, id => return id
  | depth + 1, id => do
    let node := (← get).node id
    let kind ← node.kind.mapM (copyDown depth)
    let copy ← alloc kind node.scope
    modify fun t => (t.setTy? copy node.ty).setSpan? copy node.span
    return copy

/-- Copies a node and all below it. The copy has no parent. -/
def copy (id : NodeId) : Build NodeId := do
  copyDown (← get).size id

end Penumbra.Build
