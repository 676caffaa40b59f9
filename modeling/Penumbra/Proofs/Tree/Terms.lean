/-
Nodes as terms.

A node stands for a term: its own layer with the terms of its children in
their place. A copy has other indices than its original and stands for the
same term (`Copied.unfold_eq`), as long as neither is changed afterwards. All
else that is read off a copy and what is below it is then the same, too.
-/
import Penumbra.Proofs.Lower.TreeGrowth

namespace Penumbra

/-- What is below a node, without the indices. -/
inductive Term where
  | mk (kind : Kind Term) (scope : ScopeId) (ty : Option Ty) (span : Option Span)

namespace Tree

variable {t u u' t' : Tree} {φ : Nat → Nat} {D R : Set Nat} {y : Nat}

/-- The term that a node stands for, down to the given depth; deeper nodes
are taken for blank ones. -/
def unfold (t : Tree) (depth : Nat) (x : NodeId) : Term :=
  t.fold (fun id k => .mk k (t.scope id) (t.ty id) (t.span id)) (.mk (.literal (.bool false)) Env.global .none .none)
    depth x

/-- The map goes along with all that the nodes in `D` say. -/
structure Folds (t : Tree) (φ : Nat → Nat) (D : Set Nat) : Prop where
  child : ∀ y ∈ D, ∀ c ∈ t.children y, c ∈ D
  kind : ∀ y ∈ D, (t.kind y).map φ = t.kind (φ y)
  scope : ∀ y ∈ D, t.scope y = t.scope (φ y)
  ty : ∀ y ∈ D, t.ty y = t.ty (φ y)
  span : ∀ y ∈ D, t.span y = t.span (φ y)

namespace Folds

variable {z : Nat} (h : t.Folds φ D)
include h

theorem unfold_eq (hy : y ∈ D) (n : Nat) : t.unfold n y = t.unfold n (φ y) := by
  unfold Tree.unfold
  induction n generalizing y with
  | zero => rfl
  | succ n ih =>
    rw [fold, fold, ← h.kind y hy, Kind.map_map, h.scope y hy, h.ty y hy, h.span y hy]
    congr 1
    exact Kind.map_congr fun c hc => ih (h.child y hy c hc)

/-- Everything below the image of a node is the image of something below the
node. -/
theorem lift (hy : y ∈ D) (hz : t.Reaches (φ y) z) : ∃ z' ∈ D, t.Reaches y z' ∧ φ z' = z := by
  induction hz with
  | refl => exact ⟨y, hy, .refl t y, rfl⟩
  | @tail a b _ hb ih =>
    obtain ⟨a', ha', hya', rfl⟩ := ih
    have hmem : b ∈ (t.children a').map φ := by
      rw [Tree.children, ← Kind.children_map, h.kind a' ha']
      exact hb
    obtain ⟨b', hb', rfl⟩ := List.mem_map.mp hmem
    exact ⟨b', h.child a' ha' b' hb', hya'.tail hb', rfl⟩

end Folds

/-- Copies lead to their originals, in every later tree that has left both as
they were. -/
theorem Mirrored.folds (h : Mirrored u R u u' φ) (hR : u.Closed R) (hg : u'.Grows t')
    (hold : ∀ y ∈ R, t'.kind y = u.kind y) (hnew : ∀ y ∈ fresh u u', t'.kind y = u'.kind y) :
    t'.Folds φ (R ∪ fresh u u') := by
  have hclosed := (Step.mirrored hR h).closed hR
  have hself : ∀ y ∈ R, φ y = y := fun y hy => h.old y (hR.bounded y hy)
  have hkeeps := h.grows.toKeeps.trans hg.toKeeps
  refine ⟨fun y hy c hc => ?_, fun y hy => ?_, fun y hy => ?_, fun y hy => ?_, fun y hy => ?_⟩
  · refine hclosed.child y hy c ?_
    rcases hy with hy | hy
    · rwa [Tree.children, hold y hy, ← h.grows.kind y (hR.bounded y hy)] at hc
    · rwa [Tree.children, hnew y hy] at hc
  · rcases hy with hy | hy
    · have hchild : ∀ c ∈ (u.kind y).children, φ c = c := fun c hc => hself c (hR.child y hy c hc)
      rw [hself y hy, hold y hy, Kind.map_congr hchild, Kind.map_id]
    · rw [hnew y hy, h.kind y hy.1 hy.2, hold _ (h.origin y hy.1 hy.2)]
  · rcases hy with hy | hy
    · rw [hself y hy]
    · rw [hg.scope y hy.2, h.scope y hy.1 hy.2, hkeeps.scope _ (hR.bounded _ (h.origin y hy.1 hy.2))]
  · rcases hy with hy | hy
    · rw [hself y hy]
    · rw [hg.ty y hy.2, h.ty y hy.1 hy.2, hkeeps.ty _ (hR.bounded _ (h.origin y hy.1 hy.2))]
  · rcases hy with hy | hy
    · rw [hself y hy]
    · rw [hg.span y hy.2, h.span y hy.1 hy.2, hkeeps.span _ (hR.bounded _ (h.origin y hy.1 hy.2))]

/-- In `u`, `copy` is a copy of `source`, made of nodes from index `n` on. All
below the source lies in `R`, and neither it nor the copy has been changed
since. -/
def Copied (R : Set Nat) (source copy : Option Nat) (n : Nat) (u : Tree) : Prop :=
  ∃ φ v v', v.Closed R ∧ Mirrored v R v v' φ ∧ copy.map φ = source ∧ (∀ c ∈ copy, c ∈ R ∪ fresh v v') ∧ n ≤ v.size ∧
    v'.Grows u ∧ (∀ y ∈ R, u.kind y = v.kind y) ∧ ∀ y ∈ fresh v v', u.kind y = v'.kind y

theorem Copied.mono {source copy : Option Nat} {n : Nat} (h : Copied R source copy n u) (hg : u.Grows u')
    (hold : ∀ y ∈ R, u'.kind y = u.kind y) (hnew : ∀ y : Nat, n ≤ y → y < u.size → u'.kind y = u.kind y) :
    Copied R source copy n u' := by
  obtain ⟨φ, v, v', hR, hφ, hsource, hcopy, hn, hv, ho, hf⟩ := h
  refine ⟨φ, v, v', hR, hφ, hsource, hcopy, hn, hv.trans hg, fun y hy => (hold y hy).trans (ho y hy), fun y hy => ?_⟩
  rw [hnew y (hn.trans hy.1) (hy.2.trans_le hv.size_le), hf y hy]

theorem Copied.folds {source copy : Option Nat} {n : Nat} (h : Copied R source copy n u) :
    ∃ φ D, u.Folds φ D ∧ copy.map φ = source ∧ ∀ c ∈ copy, c ∈ D := by
  obtain ⟨φ, v, v', hR, hφ, hsource, hcopy, -, hv, ho, hf⟩ := h
  exact ⟨φ, _, hφ.folds hR hv ho hf, hsource, hcopy⟩

theorem Copied.unfold_eq {source copy : Option Nat} {n : Nat} (h : Copied R source copy n u) (depth : Nat) :
    copy.map (u.unfold depth) = source.map (u.unfold depth) := by
  obtain ⟨φ, D, hD, rfl, hcopy⟩ := h.folds
  rw [Option.map_map]
  exact Option.map_congr fun c hc => hD.unfold_eq (hcopy c hc) depth

end Tree

end Penumbra
