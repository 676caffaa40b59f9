/-
The two orders compared.

The pre-order is made by a walk with a stack, which has no bound on its length
(`StackWalk`). What it has visited and what lies below the stack always make up the
recursive order, so it ends there (`StackWalk.Heads`). The post-order has the same
nodes, each as often. Of two nodes that lie below different children of a node, the
same one comes first in both orders (`pair_of_fork`). So where no node is shared, two
nodes that come in different orders are one above the other (`pair_iff_above`), and
the two orders together tell what lies below what (`orders_agree`).
-/
import Penumbra.Proofs.Tree.CheckedTrees
import Penumbra.Proofs.Tree.ExactCopy
import Mathlib.Data.List.Flatten
import Mathlib.Data.List.Perm.Basic

namespace List

variable {α : Type} {a b : α} {l : List α}

/-- Two entries of a list stand in one order or the other. -/
theorem pair_sublist (ha : a ∈ l) (hb : b ∈ l) (hab : a ≠ b) : [a, b] <+ l ∨ [b, a] <+ l := by
  induction l with
  | nil => simp at ha
  | cons c l ih =>
    rcases List.mem_cons.mp ha with rfl | hal
    · have hbl := (List.mem_cons.mp hb).resolve_left hab.symm
      exact .inl ((List.singleton_sublist.mpr hbl).cons_cons a)
    · rcases List.mem_cons.mp hb with rfl | hbl
      · exact .inr ((List.singleton_sublist.mpr hal).cons_cons b)
      · exact (ih hal hbl).imp (.cons c) (.cons c)

/-- Without repetitions only one of the two orders is possible. -/
theorem not_pair_sublist (hl : l.Nodup) (hab : [a, b] <+ l) : ¬ [b, a] <+ l := by
  induction l with
  | nil => simp
  | cons c l ih =>
    obtain ⟨hc, hl⟩ := List.nodup_cons.mp hl
    intro hba
    rcases List.cons_sublist_cons'.mp hab with habl | ⟨rfl, hbl⟩
    · rcases List.cons_sublist_cons'.mp hba with hbal | ⟨rfl, -⟩
      · exact ih hl habl hbal
      · exact hc (habl.subset (by simp))
    · rcases List.cons_sublist_cons'.mp hba with hbal | ⟨rfl, -⟩
      · exact hc (hbal.subset (by simp))
      · exact hc (List.singleton_sublist.mp hbl)

end List

namespace Penumbra

namespace Tree

open scoped List

variable {t : Tree} {x y u v a b c : Nat}

theorem postOrder_perm (h : t.EndsWithin t.size x) : (t.postOrder x).Perm (t.preOrder x) := by
  refine h.upward (P := fun y => (t.postOrder y).Perm (t.preOrder y)) fun y hy ih => ?_
  have hends := h.of_reaches hy
  rw [postOrder_eq hends, preOrder_step hends]
  exact (List.perm_append_singleton y _).trans ((List.Perm.flatMap_left _ ih).cons y)

/-! ## Pairs of nodes -/

/-- Of two nodes below `x` one lies below the other, or they lie below different
entries of one child list. -/
theorem Reaches.fork (hu : t.Reaches x u) (hv : t.Reaches x v) :
    t.Reaches u v ∨ t.Reaches v u ∨
      ∃ y a b, t.Reaches x y ∧ t.Reaches a u ∧ t.Reaches b v ∧ ([a, b] <+ t.children y ∨ [b, a] <+ t.children y) := by
  induction hu using Relation.ReflTransGen.head_induction_on with
  | refl => exact .inl hv
  | @head x a ha hau ih =>
    rcases hv.cases with rfl | ⟨b, hb, hbv⟩
    · exact .inr (.inl (.head ha hau))
    · by_cases hab : a = b
      · subst hab
        refine (ih hbv).imp_right (Or.imp_right ?_)
        rintro ⟨y, c, d, hy, hcd⟩
        exact ⟨y, c, d, .head ha hy, hcd⟩
      · exact .inr (.inr ⟨x, a, b, .refl t x, hau, hbv, List.pair_sublist ha hb hab⟩)

/-- The orders that `order` gives the children of a node below `x` stand one behind the
other in the order it gives the node. -/
def Nests (t : Tree) (order : NodeId → List NodeId) (x : NodeId) : Prop :=
  ∀ y, t.Reaches x y → (t.children y).flatMap order <+ order y

section Nests

variable {order : NodeId → List NodeId} (h : t.Nests order x)
include h

theorem Nests.sublist (hy : t.Reaches x y) : order y <+ order x := by
  induction hy using Relation.ReflTransGen.head_induction_on with
  | refl => exact .refl _
  | @head x c hc _ ih =>
    have hchild : order c <+ (t.children x).flatMap order := List.sublist_flatten_of_mem (List.mem_map_of_mem hc)
    exact ((ih fun y hy => h y (.head hc hy)).trans hchild).trans (h x (.refl t x))

/-- What lies below an earlier child comes before what lies below a later one. -/
theorem Nests.pair (hy : t.Reaches x y) (hab : [a, b] <+ t.children y) (hu : u ∈ order a) (hv : v ∈ order b) :
    [u, v] <+ order x := by
  have hsplit : [u, v] <+ [a, b].flatMap order := by
    rw [List.flatMap_cons, List.flatMap_singleton]
    exact (List.singleton_sublist.mpr hu).append (List.singleton_sublist.mpr hv)
  exact ((hsplit.trans (hab.flatMap order)).trans (h y hy)).trans (h.sublist hy)

end Nests

section Orders

variable (h : t.EndsWithin t.size x)
include h

theorem nests_preOrder : t.Nests t.preOrder x := by
  intro y hy
  rw [preOrder_step (h.of_reaches hy)]
  exact List.sublist_cons_self ..

theorem nests_postOrder : t.Nests t.postOrder x := by
  intro y hy
  rw [postOrder_eq (h.of_reaches hy)]
  exact List.sublist_append_left ..

/-- A node comes before all below it in one order and after all below it in the other. -/
theorem pair_of_above (hu : t.Reaches x u) (huv : Relation.TransGen t.Child u v) :
    [u, v] <+ t.preOrder x ∧ [v, u] <+ t.postOrder x := by
  obtain ⟨c, hc, hcv⟩ := Relation.TransGen.head'_iff.mp huv
  have hends := h.of_reaches hu
  constructor
  · have hmem : v ∈ (t.children u).flatMap t.preOrder :=
      List.mem_flatMap.mpr ⟨c, hc, (mem_preOrder (hends.child hc)).mpr hcv⟩
    refine List.Sublist.trans ?_ ((nests_preOrder h).sublist hu)
    rw [preOrder_step hends]
    exact (List.singleton_sublist.mpr hmem).cons_cons u
  · have hmem : v ∈ (t.children u).flatMap t.postOrder :=
      List.mem_flatMap.mpr ⟨c, hc, (mem_postOrder (hends.child hc)).mpr hcv⟩
    refine List.Sublist.trans ?_ ((nests_postOrder h).sublist hu)
    rw [postOrder_eq hends]
    exact (List.singleton_sublist.mpr hmem).append (.refl [u])

/-- Nodes of which neither lies below the other come in the same order in both. -/
theorem pair_of_fork (hy : t.Reaches x y) (hab : [a, b] <+ t.children y) (hu : t.Reaches a u) (hv : t.Reaches b v) :
    [u, v] <+ t.preOrder x ∧ [u, v] <+ t.postOrder x := by
  have hends := h.of_reaches hy
  have ha := hends.child (hab.subset List.mem_cons_self)
  have hb := hends.child (hab.subset (List.mem_cons_of_mem a List.mem_cons_self))
  exact ⟨(nests_preOrder h).pair hy hab ((mem_preOrder ha).mpr hu) ((mem_preOrder hb).mpr hv),
    (nests_postOrder h).pair hy hab ((mem_postOrder ha).mpr hu) ((mem_postOrder hb).mpr hv)⟩

theorem pair_iff_above (hnodup : (t.preOrder x).Nodup) :
    [u, v] <+ t.preOrder x ∧ [v, u] <+ t.postOrder x ↔ t.Reaches x u ∧ Relation.TransGen t.Child u v := by
  constructor
  · intro hboth
    obtain ⟨hpre, hpost⟩ := hboth
    have hu : t.Reaches x u := (mem_preOrder h).mp (hpre.subset (by simp))
    have hv : t.Reaches x v := (mem_preOrder h).mp (hpre.subset (by simp))
    have hne : u ≠ v := by simpa using hnodup.sublist hpre
    have hnodup' : (t.postOrder x).Nodup := (postOrder_perm h).nodup_iff.mpr hnodup
    refine ⟨hu, ?_⟩
    -- in all cases but the first, one of the orders would have the two nodes the other way round
    rcases hu.fork hv with huv | hvu | ⟨y, a, b, hy, hau, hbv, hab | hba⟩
    · exact (Relation.reflTransGen_iff_eq_or_transGen.mp huv).resolve_left hne.symm
    · have habove := (Relation.reflTransGen_iff_eq_or_transGen.mp hvu).resolve_left hne
      exact absurd (pair_of_above h hv habove).1 (List.not_pair_sublist hnodup hpre)
    · exact absurd (pair_of_fork h hy hab hau hbv).2 (List.not_pair_sublist hnodup' hpost)
    · exact absurd (pair_of_fork h hy hba hbv hau).1 (List.not_pair_sublist hnodup hpre)
  · intro habove
    exact pair_of_above h habove.1 habove.2

end Orders

/-! ## The walk with a stack -/

/-- Where a walk with a stack is: the nodes to come, the next one on top, which is the
end, and the nodes visited. -/
structure StackWalk where
  stack : List NodeId
  visited : List NodeId

namespace StackWalk

/-- The top of the stack is visited and its children take its place, the first one on
top. -/
inductive Turn (t : Tree) : StackWalk → StackWalk → Prop where
  | visit {stack x visited} : Turn t ⟨stack ++ [x], visited⟩ ⟨stack ++ (t.children x).reverse, visited ++ [x]⟩

abbrev Turns (t : Tree) : StackWalk → StackWalk → Prop := Relation.ReflTransGen (Turn t)

/-- The nodes visited and what lies below the stack make up the order. -/
structure Heads (t : Tree) (order : List NodeId) (w : StackWalk) : Prop where
  ends : ∀ x ∈ w.stack, t.EndsWithin t.size x
  order : w.visited ++ w.stack.reverse.flatMap t.preOrder = order

variable {w w' : StackWalk} {l : List NodeId}

theorem Heads.turn (h : w.Heads t l) (hturn : Turn t w w') :
    w'.Heads t l ∧ w'.visited.length = w.visited.length + 1 := by
  obtain ⟨hends, horder⟩ := h
  cases hturn with
  | @visit stack x visited =>
    have hx := hends x (by simp)
    refine ⟨⟨fun y hy => ?_, ?_⟩, by simp⟩
    · rcases List.mem_append.mp hy with hy | hy
      · exact hends y (List.mem_append_left _ hy)
      · exact hx.child (List.mem_reverse.mp hy)
    · rw [← horder]
      simp [preOrder_step hx]

theorem Heads.turns (h : w.Heads t l) (hturns : Turns t w w') : w'.Heads t l := by
  induction hturns with
  | refl => exact h
  | tail _ hturn ih => exact (ih.turn hturn).1

/-- Each turn is a visit, and the order has room for so many visits only. -/
theorem Heads.acc (h : w.Heads t l) : Acc (fun after before => Turn t before after) w := by
  have hacc : ∀ n, ∀ w : StackWalk, w.Heads t l → l.length < w.visited.length + n →
      Acc (fun after before => Turn t before after) w := by
    intro n
    induction n with
    | zero =>
      intro w h hn
      have hle : w.visited.length ≤ l.length := by simp [← h.order]
      omega
    | succ n ih =>
      intro w h hn
      refine .intro w fun w' hturn => ?_
      obtain ⟨h', hlen⟩ := h.turn hturn
      exact ih w' h' (by omega)
  exact hacc (l.length + 1) w h (by omega)

theorem Heads.turn_or_done (h : w.Heads t l) : (∃ w', Turn t w w') ∨ w = ⟨[], l⟩ := by
  obtain ⟨stack, visited⟩ := w
  rcases List.eq_nil_or_concat stack with rfl | ⟨stack, x, rfl⟩
  · exact .inr (by simp [← h.order])
  · rw [List.concat_eq_append]
    exact .inl ⟨_, .visit⟩

end StackWalk

/-! ## Both orders -/

/-- The walk with a stack from `x` comes to its end with the pre-order, the orders are
the recursive ones, and they fit together. -/
structure OrdersAgree (t : Tree) (x : NodeId) : Prop where
  ends : Acc (fun after before => StackWalk.Turn t before after) ⟨[x], []⟩
  last : ∀ w, StackWalk.Turns t ⟨[x], []⟩ w → (∃ w', StackWalk.Turn t w w') ∨ w = ⟨[], t.preOrder x⟩
  pre : t.preOrder x = x :: (t.children x).flatMap t.preOrder
  post : t.postOrder x = (t.children x).flatMap t.postOrder ++ [x]
  perm : (t.postOrder x).Perm (t.preOrder x)
  /-- Right before a node there stand the post-orders of its children. -/
  completed : ∀ l₁ y l₂, t.postOrder x = l₁ ++ y :: l₂ → (t.children y).flatMap t.postOrder <:+ l₁
  /-- Without sharing, the nodes that change places are a node and what lies below it. -/
  above : t.NamedOnce x → ∀ u v, [u, v] <+ t.preOrder x ∧ [v, u] <+ t.postOrder x ↔
    t.Reaches x u ∧ Relation.TransGen t.Child u v

/-- Below a node of which all descendants are there and lead in no circle, the orders
agree, whether or not nodes are shared. -/
theorem orders_agree (hb : ∀ y : Nat, t.Reaches x y → y < t.size)
    (hc : ∀ y, t.Reaches x y → ¬ Relation.TransGen t.Child y y) : t.OrdersAgree x := by
  have hends := endsWithin_size hb hc
  have hheads : StackWalk.Heads t (t.preOrder x) ⟨[x], []⟩ := ⟨by simpa using hends, by simp⟩
  refine ⟨hheads.acc, fun w hturns => (hheads.turns hturns).turn_or_done, preOrder_step hends, postOrder_eq hends,
    postOrder_perm hends, completed_postOrder hends, fun hnamed u v => ?_⟩
  have hnodup := hnamed.nodup_postOrder hc
  exact pair_iff_above hends ((postOrder_perm hends).nodup_iff.mp hnodup)

end Tree

namespace Sample

/-- In the first program a node is shared, and visited twice. In the second none is,
so that the orders tell what lies below what. -/
theorem doubled_orders_agree :
    doubled.Acyclic ∧ ¬ doubled.NamedOnce Tree.root ∧
    doubled.preOrder Tree.root = [0, 7, 6, 5, 4, 1, 3, 2, 4, 1, 3, 2] ∧
    doubled.postOrder Tree.root = [6, 1, 2, 3, 4, 1, 2, 3, 4, 5, 7, 0] ∧ doubled.OrdersAgree Tree.root ∧
    tree.Acyclic ∧ tree.NamedOnce Tree.root ∧ tree.OrdersAgree Tree.root := by
  have hbuilt : doubled.BuiltUp := by decide +kernel
  have hfirst := hbuilt.acyclic
  have hsecond := builtUp_tree.acyclic
  refine ⟨hfirst, fun hnamed => ?_, by decide +kernel, by decide +kernel,
    Tree.orders_agree hfirst.bounded hfirst.noCircle, hsecond, linked_tree.owned.namedOnce,
    Tree.orders_agree hsecond.bounded hsecond.noCircle⟩
  exact absurd (hnamed.nodup_postOrder hfirst.noCircle) (by decide +kernel)

end Sample

end Penumbra
