/-
Owned trees.

In an owned tree every node of the program but the root is named once, and its
parent link names the node that does. The root is named by none; its own parent
link, which no pass looks at, may lead anywhere. So child lists lead in no circle
(`Owned.acyclic`), the subtrees of two children have no node in common, and the
orders visit each node once (`Owned.nodup_postOrder`). A rooted tree is an owned one
whose program is all there. Nothing is asked of indices and scopes outside of the
program, so what is shown of rooted trees holds of trees that are not formed.
-/
import Penumbra.Proofs.Env.Lookup
import Penumbra.Proofs.Tree.NamedOnce

namespace Penumbra.Tree

variable {t : Tree} {x x' y c a b V W : Nat} {n : Nat}

/-- Indices lead to nodes and scopes that are there, and every scope comes
after the one around it. Builders make no other trees. -/
structure Formed (t : Tree) : Prop where
  root_lt : 0 < t.size
  child : ∀ x : Nat, x < t.size → ∀ c : Nat, c ∈ t.children x → c < t.size
  scope : ∀ x : Nat, x < t.size → t.scope x < t.env.size
  nested : t.env.Nested

theorem Formed.bounded (h : t.Formed) (hx : t.Reachable x) : x < t.size := by
  induction hx with
  | refl => exact h.root_lt
  | tail _ hc ih => exact h.child _ ih _ hc

/-- Every node of the program but the root is named once, by the node that
its parent link names. The root is named by none. -/
structure Owned (t : Tree) : Prop where
  root_free : ∀ x, t.Reachable x → root ∉ t.children x
  nodup : ∀ x, t.Reachable x → (t.children x).Nodup
  parent : ∀ x, t.Reachable x → ∀ c ∈ t.children x, t.parent c = .some x

namespace Owned

variable (h : t.Owned)
include h

theorem eq_of_mem (hx : t.Reachable x) (hx' : t.Reachable x') (hc : c ∈ t.children x) (hc' : c ∈ t.children x') :
    x = x' :=
  Option.some.inj ((h.parent x hx c hc).symm.trans (h.parent x' hx' c hc'))

theorem namedOnce : t.NamedOnce root :=
  ⟨h.nodup, fun _ _ _ hx hx' => h.eq_of_mem hx hx'⟩

theorem noCircle (hx : t.Reachable x) : ¬ Relation.TransGen t.Child x x :=
  h.namedOnce.noCircle h.root_free hx

theorem acyclic (hf : t.Formed) : t.Acyclic :=
  ⟨fun _ hx => hf.bounded hx, fun _ hx => h.noCircle hx⟩

/-- What lies above a node lies above its parent, or is the node. -/
theorem reaches_parent (hx : t.Reachable x) (hc : c ∈ t.children x) (ha : t.Reachable a) (hac : t.Reaches a c) :
    a = c ∨ t.Reaches a x :=
  h.namedOnce.reaches_parent hx hc ha hac

/-- The subtrees of two children have no node in common. -/
theorem disjoint (hx : t.Reachable x) (ha : a ∈ t.children x) (hb : b ∈ t.children x) (hay : t.Reaches a y)
    (hby : t.Reaches b y) : a = b :=
  h.namedOnce.disjoint (fun _ => h.noCircle) hx ha hb hay hby

theorem nodup_postOrder : (t.postOrder root).Nodup :=
  h.namedOnce.nodup_postOrder fun _ => h.noCircle

/-- What comes after a node in the post-order does not lie below it. -/
theorem not_reaches_of_after (hends : t.EndsWithin t.size root) {l₁ l₂ : List NodeId}
    (hl : t.postOrder root = l₁ ++ V :: l₂) (hW : W ∈ l₂) : ¬ t.Reaches V W :=
  h.namedOnce.not_reaches_of_after (fun _ => h.noCircle) hends hl hW

end Owned

/-! ## Rooted trees -/

/-- Every node of the program is there, and every one but the root is named once,
by the node that its parent link names. The root is named by none. -/
structure Rooted (t : Tree) : Prop extends t.Owned where
  bounded : ∀ x : Nat, t.Reachable x → x < t.size

theorem Owned.rooted (h : t.Owned) (hf : t.Formed) : t.Rooted := ⟨h, fun _ => hf.bounded⟩

namespace Rooted

variable (h : t.Rooted)
include h

theorem closed : t.Closed { x | t.Reachable x } := .below h.bounded

theorem acyclic : t.Acyclic :=
  ⟨h.bounded, fun _ hx => h.noCircle hx⟩

theorem endsWithin (hx : t.Reachable x) : t.EndsWithin t.size x :=
  h.acyclic.endsWithin hx

/-- No node lies below its children. -/
theorem not_reaches_self (hx : t.Reachable x) (hc : c ∈ t.children x) : ¬ t.Reaches c x := fun hcx =>
  h.noCircle hx (.head' hc hcx)

/-- No node lies below two children. -/
theorem pairwise_children (hx : t.Reachable x) :
    (t.children x).Pairwise fun a b => ∀ y, t.Reaches a y → ¬ t.Reaches b y := by
  refine List.Pairwise.imp_of_mem (fun {a b} ha hb hne y hay hby => hne ?_) (h.nodup x hx)
  exact h.disjoint hx ha hb hay hby

end Rooted

end Penumbra.Tree
