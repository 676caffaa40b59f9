/-
Nodes that no two places name.

Where the child lists from a node on name no node twice, the nodes above a node form
one line (`NamedOnce.comparable`). If in addition they lead in no circle, the subtrees
of two children have no node in common (`NamedOnce.disjoint`), and the orders visit
each node once (`NamedOnce.nodup_postOrder`). Parent links do not matter for this.
-/
import Penumbra.Proofs.Tree.OrderEquations
import Mathlib.Data.List.Nodup

namespace Penumbra.Tree

variable {t : Tree} {x y z a b c : Nat}

/-- The child lists of `x` and of all below it name no node twice. -/
structure NamedOnce (t : Tree) (x : NodeId) : Prop where
  nodup : ∀ y, t.Reaches x y → (t.children y).Nodup
  owner : ∀ y z c, t.Reaches x y → t.Reaches x z → c ∈ t.children y → c ∈ t.children z → y = z

namespace NamedOnce

variable (h : t.NamedOnce x)
include h

/-- Of two nodes above a third, one is above the other. -/
theorem comparable (ha : t.Reaches x a) (hb : t.Reaches x b) (haz : t.Reaches a z) (hbz : t.Reaches b z) :
    t.Reaches a b ∨ t.Reaches b a := by
  induction haz with
  | refl => exact .inr hbz
  | @tail y z hay hz ih =>
    rcases hbz.casesTail with rfl | ⟨y', hby, hz'⟩
    · exact .inl (Reaches.tail hay hz)
    · obtain rfl := h.owner y y' z (ha.trans hay) (hb.trans hby) hz hz'
      exact ih hby

/-- If none of them names `x`, they lead in no circle. -/
theorem noCircle (hx : ∀ y, t.Reaches x y → x ∉ t.children y) (hy : t.Reaches x y) :
    ¬ Relation.TransGen t.Child y y := by
  induction hy with
  | refl =>
    intro hcircle
    obtain ⟨z, hz, hback⟩ := Relation.TransGen.tail'_iff.mp hcircle
    exact hx z hz hback
  | @tail y c hy hc ih =>
    intro hcircle
    -- the node before `c` on the circle is its parent, so the circle passes through that as well
    obtain ⟨z, hcz, hz⟩ := Relation.TransGen.tail'_iff.mp hcircle
    have hcr : t.Reaches x c := Reaches.tail hy hc
    obtain rfl := h.owner z y c (hcr.trans hcz) hy hz hc
    exact ih (.head' hc hcz)

theorem reaches_parent (hy : t.Reaches x y) (hc : c ∈ t.children y) (ha : t.Reaches x a) (hac : t.Reaches a c) :
    a = c ∨ t.Reaches a y := by
  rcases hac.casesTail with hac | ⟨z, haz, hz⟩
  · exact .inl hac.symm
  · obtain rfl := h.owner z y c (ha.trans haz) hy hz hc
    exact .inr haz

variable (hcircle : ∀ y, t.Reaches x y → ¬ Relation.TransGen t.Child y y)
include hcircle

theorem disjoint (hy : t.Reaches x y) (ha : a ∈ t.children y) (hb : b ∈ t.children y) (haz : t.Reaches a z)
    (hbz : t.Reaches b z) : a = b := by
  have har : t.Reaches x a := hy.tail ha
  have hbr : t.Reaches x b := hy.tail hb
  have hup : ∀ c ∈ t.children y, ¬ t.Reaches c y := fun c hc hcy => hcircle y hy (.head' hc hcy)
  rcases h.comparable har hbr haz hbz with hab | hba
  · exact (h.reaches_parent hy hb har hab).resolve_right (hup a ha)
  · exact ((h.reaches_parent hy ha hbr hba).resolve_right (hup b hb)).symm

theorem nodup_postOrder : (t.postOrder x).Nodup := by
  have hfold : ∀ n y, t.Reaches x y →
      (t.fold (fun id k => k.children.flatten ++ [id]) [] n y).Nodup := by
    intro n
    induction n with
    | zero => exact fun _ _ => .nil
    | succ n ih =>
      intro y hy
      rw [fold, Kind.children_map, ← List.flatMap_def]
      have hbelow : ((t.children y).flatMap (t.fold (fun id k => k.children.flatten ++ [id]) [] n)).Nodup := by
        refine List.nodup_flatMap.mpr ⟨fun c hc => ih c (hy.tail hc), ?_⟩
        refine (h.nodup y hy).imp_of_mem fun ha hb hab z hza hzb => hab ?_
        exact h.disjoint hcircle hy ha hb (lists_post.reaches hza) (lists_post.reaches hzb)
      have hself : ∀ z ∈ (t.children y).flatMap (t.fold (fun id k => k.children.flatten ++ [id]) [] n), z ≠ y := by
        intro z hz hzy
        obtain ⟨c, hc, hz⟩ := List.mem_flatMap.mp hz
        exact hcircle y hy (.head' hc (hzy ▸ lists_post.reaches hz))
      refine List.nodup_append.mpr ⟨hbelow, List.nodup_singleton y, fun z hz y' hy' => ?_⟩
      rw [List.mem_singleton.mp hy']
      exact hself z hz
  exact hfold _ _ (.refl t x)

/-- What comes after a node in the post-order does not lie below it. -/
theorem not_reaches_of_after (hends : t.EndsWithin t.size x) {l₁ l₂ : List NodeId}
    (hl : t.postOrder x = l₁ ++ y :: l₂) (hz : z ∈ l₂) : ¬ t.Reaches y z := by
  intro hyz
  have hnodup := h.nodup_postOrder hcircle
  have hy := hends.of_reaches (reaches_of_mem_postOrder (y := y) (by simp [hl]))
  have hmem : z ∈ (t.children y).flatMap t.postOrder ++ [y] := postOrder_eq hy ▸ (mem_postOrder hy).mpr hyz
  have hbefore : z ∈ l₁ ++ [y] := by
    rcases List.mem_append.mp hmem with hz | hz
    · exact List.mem_append_left _ ((completed_postOrder hends l₁ y l₂ hl).subset hz)
    · exact List.mem_append_right _ hz
  rw [hl, List.append_cons, List.nodup_append] at hnodup
  exact hnodup.2.2 z hbefore z hz rfl

end NamedOnce

end Penumbra.Tree
