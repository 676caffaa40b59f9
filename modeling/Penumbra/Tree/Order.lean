/-
Walking a tree.

Child lists may lead in circles, so every walk has a bound on its depth. The
number of nodes is bound enough for a tree without circles: no path down
visits a node twice. A node that several child lists name is visited once
for each of them.
-/
import Penumbra.Tree.Basic

namespace Penumbra.Tree

/-- Computes a value for a node from the values of its children, down to
the given depth; `cut` is the value of everything deeper. -/
def fold {β : Type} (t : Tree) (layer : NodeId → Kind β → β) (cut : β) : Nat → NodeId → β
  | 0, _ => cut
  | depth + 1, id => layer id ((t.kind id).map (t.fold layer cut depth))

/-! ## Downward -/

/-- A node and all below it, children before parents. -/
def postOrder (t : Tree) (id : NodeId) : List NodeId :=
  t.fold (fun id k => k.children.flatten ++ [id]) [] t.size id

/-- How many nodes a walk from `id` visits. -/
def extent (t : Tree) (id : NodeId) : Nat :=
  t.fold (fun _ k => k.children.foldr (· + ·) 1) 0 t.size id

/-- Visits the pending nodes, first one first; the children of a node come
before what was pending after it. -/
def walk (t : Tree) : Nat → List NodeId → List NodeId
  | 0, _ => []
  | _ + 1, [] => []
  | steps + 1, id :: pending => id :: t.walk steps (t.children id ++ pending)

/-- A node and all below it, parents before children. -/
def preOrder (t : Tree) (id : NodeId) : List NodeId :=
  t.walk (t.extent id) [id]

/-! ## Upward -/

/-- At most `n` parent links up from a node, nearest first. -/
def ancestorsUpTo (t : Tree) : Nat → NodeId → List NodeId
  | 0, _ => []
  | n + 1, id =>
    match t.parent id with
    | .none => []
    | .some p => p :: t.ancestorsUpTo n p

/-- The nodes that the parent links lead through, nearest first. -/
def ancestors (t : Tree) (id : NodeId) : List NodeId :=
  t.ancestorsUpTo t.size id

/-- Whether the parent links lead to the root, each link answered by the
parent's child list. -/
def attachedWithin (t : Tree) : Nat → NodeId → Bool
  | 0, _ => false
  | n + 1, id =>
    match t.parent id with
    | .none => id == root
    | .some p => (t.children p).contains id && t.attachedWithin n p

def isAttached (t : Tree) (id : NodeId) : Bool :=
  t.attachedWithin (t.size + 1) id

end Penumbra.Tree
