/-
Passes that go through a list of nodes.

Both passes over a program work on one node after the other, and the work on a
node is done below that node only (`Confined`). Where no node of the list lies
below one that comes before it, all that are still to come stay in the program
(`Queued`), so what the work on any node of an owned program keeps is kept by
the whole pass (`Queued.run`). The visitors in post-order are such a list.
-/
import Penumbra.Proofs.Lower.KeepsOwned
import Penumbra.Proofs.Lower.PendingVisitors

namespace Penumbra

open Tree

variable {u u' t t' : Tree} {V W x y c d : Nat} {l : List Nat} {I : Tree → Prop}

namespace Tree

/-- What lies below `V` is all that the change from `u` to `u'` cuts off from the
program or leads to. -/
structure Confined (V : NodeId) (u u' : Tree) : Prop where
  size_le : u.size ≤ u'.size
  stays : ∀ W, u.Reachable W → ¬ u.Reaches V W → u'.Reachable W
  back : ∀ x y : Nat, x < u.size → y < u.size → u'.Reaches x y → u.Reaches x y ∨ u.Reaches V y

/-- Nothing below `c` differs, not even in its parent links. -/
def SameBelow (c : NodeId) (u u' : Tree) : Prop := ∀ y, u.Reaches c y → u'.node y = u.node y

namespace SameBelow

theorem refl (c : NodeId) (u : Tree) : SameBelow c u u := fun _ _ => rfl

theorem children_eq (h : SameBelow c u u') (hy : u.Reaches c y) : u'.children y = u.children y :=
  congrArg (fun m : Node => m.kind.children) (h y hy)

theorem reaches (h : SameBelow c u u') (hy : u.Reaches c y) : u'.Reaches c y :=
  hy.congr fun _ => h.children_eq

theorem reaches_iff (h : SameBelow c u u') : u'.Reaches c y ↔ u.Reaches c y := by
  refine ⟨fun hy => ?_, h.reaches⟩
  induction hy with
  | refl => exact .refl u c
  | tail _ hd ih => exact ih.tail (h.children_eq ih ▸ hd)

theorem trans {u'' : Tree} (h : SameBelow c u u') (h' : SameBelow c u' u'') : SameBelow c u u'' := fun y hy =>
  (h' y (h.reaches hy)).trans (h y hy)

end SameBelow

/-- The nodes belong to the program, and none lies below one before it. -/
structure Queued (u : Tree) (l : List Nat) : Prop where
  reachable : ∀ W ∈ l, u.Reachable W
  after : l.Pairwise fun V W => ¬ u.Reaches V W

theorem Queued.next (h : Queued u (V :: l)) (hf : u.Formed) (hc : Confined V u u') : Queued u' l := by
  obtain ⟨hV, hl⟩ := List.pairwise_cons.mp h.after
  have hreach : ∀ W ∈ l, u.Reachable W := fun W hW => h.reachable W (List.mem_cons_of_mem _ hW)
  refine ⟨fun W hW => hc.stays W (hreach W hW) (hV W hW), ?_⟩
  refine List.Pairwise.imp_of_mem (fun {A B} hA hB hnot hAB => ?_) hl
  rcases hc.back A B (hf.bounded (hreach A hA)) (hf.bounded (hreach B hB)) hAB with hAB | hVB
  · exact hnot hAB
  · exact hV B hB hVB

/-- A property of trees that is kept wherever the pass may be is kept by the
pass. -/
theorem Queued.run {R : Nat → Tree → Tree → Prop} (hI : ∀ u, I u → u.Formed)
    (hR : ∀ V u u', I u → u.Reachable V → R V u u' → I u' ∧ Confined V u u')
    (h : Queued u l) (hc : Chain R l u u') (hu : I u) : I u' := by
  induction hc with
  | nil => exact hu
  | @cons V l u u₁ u' first _ ih =>
    obtain ⟨hu₁, hV⟩ := hR V u u₁ hu (h.reachable V List.mem_cons_self) first
    exact ih (h.next (hI u hu) hV) hu₁

/-- Where the work on a node can be done wherever the pass may be, the pass comes
to an end. -/
theorem Queued.exists_run {R : Nat → Tree → Tree → Prop} (hI : ∀ u, I u → u.Formed)
    (hR : ∀ V u, I u → u.Reachable V → ∃ u', R V u u' ∧ I u' ∧ Confined V u u') (h : Queued u l) (hu : I u) :
    ∃ u', Chain R l u u' ∧ I u' := by
  induction l generalizing u with
  | nil => exact ⟨u, .nil, hu⟩
  | cons V l ih =>
    obtain ⟨u₁, first, hu₁, hV⟩ := hR V u hu (h.reachable V List.mem_cons_self)
    obtain ⟨u', rest, hu'⟩ := ih (h.next (hI u hu) hV) hu₁
    exact ⟨u', .cons first rest, hu'⟩

/-- The visitors of a program, in the order in which they are lowered. -/
theorem Rooted.queued (h : t.Rooted) : Queued t ((t.postOrder root).filter t.isVisitor) := by
  refine ⟨fun W hW => reaches_of_mem_postOrder (List.mem_filter.mp hW).1, .filter _ ?_⟩
  have hsplit : ∀ l₁ l₂, t.postOrder root = l₁ ++ l₂ → l₂.Pairwise fun V W => ¬ t.Reaches V W := by
    intro l₁ l₂ hl
    induction l₂ generalizing l₁ with
    | nil => exact .nil
    | cons V l₂ ih =>
      refine .cons (fun W hW => h.not_reaches_of_after (h.endsWithin (.refl t root)) hl hW) (ih (l₁ ++ [V]) ?_)
      rw [hl, List.append_assoc]
      rfl
  exact hsplit [] _ rfl

theorem Owned.queued (h : t.Owned) (hf : t.Formed) : Queued t ((t.postOrder root).filter t.isVisitor) :=
  (h.rooted hf).queued

end Tree

/-- Of growing nodes only visitors lose children. -/
theorem Tree.Grows.child_mono (h : u.Grows u') (hv : u.isVisitor x = false) (hc : c ∈ u.children x) :
    c ∈ u'.children x := by
  have hk := h.kind x (lt_size_of_mem_children hc)
  rw [Tree.children] at hc ⊢
  generalize hkx : u.kind x = k at hk hc
  generalize u'.kind x = k' at hk ⊢
  cases hk with
  | same => exact hc
  | block => exact List.mem_append_left _ hc
  | program => exact List.mem_append_left _ hc
  | visitor arms arms' w w' =>
    rw [isVisitor_iff.mpr ⟨arms, w, hkx⟩] at hv
    cases hv

namespace VisitorLowered

/-- Only the visitor loses children. -/
theorem child_mono (h : VisitorLowered V u u') (hxV : x ≠ V) (hc : c ∈ u.children x) : c ∈ u'.children x := by
  have hx := lt_size_of_mem_children hc
  cases hv : u.isVisitor x with
  | true =>
    rw [Tree.children, h.kind_eq hx hxV (Pending.not_bodyOf hv)]
    exact hc
  | false => exact h.grows.child_mono hv hc

/-- Every way that does not lead on from the visitor is still there. -/
theorem reaches_mono (h : VisitorLowered V u u') (hxd : u.Reaches x d)
    (hpath : ∀ y, u.Reaches x y → Relation.TransGen u.Child y d → y ≠ V) : u'.Reaches x d := by
  induction hxd with
  | refl => exact .refl u' x
  | @tail z d hz hd ih =>
    have hzV := hpath z hz (.single hd)
    exact (ih fun y hy hyz => hpath y hy (.tail hyz hd)).tail (h.child_mono hzV hd)

theorem reachable_of_not_below (h : VisitorLowered V u u') (hd : u.Reachable d) (hnot : ¬ u.Reaches V d) :
    u'.Reachable d :=
  h.reaches_mono hd fun _ _ hyd he => hnot (he ▸ hyd.to_reflTransGen)

/-- New nodes lead to what is below the visitor and to no other old nodes. -/
theorem confined (h : VisitorLowered V u u') (hf : u.Formed) (hV : u.Reachable V) : Confined V u u' := by
  refine ⟨h.grows.size_le, fun W => h.reachable_of_not_below, fun x y hx hy hxy => ?_⟩
  have hlt : ∀ {a b : Nat}, a < u.size → u.Reaches a b → b < u.size := fun ha hab => hf.closed.reaches ha hab
  have hclosed : u.Closed ({ z | u.Reaches x z } ∪ { z | u.Reaches V z }) := by
    refine ⟨?_, ?_⟩
    · rintro z (hz | hz)
      · exact hlt hx hz
      · exact hlt (hf.bounded hV) hz
    · rintro z (hz | hz) c hc
      · exact .inl (Reaches.tail hz hc)
      · exact .inr (Reaches.tail hz hc)
  have hmem := ((h.step hclosed (.inr (.refl u V))).closed hclosed).reaches (.inl (.inl (.refl u x))) hxy
  exact hmem.resolve_right fun hnew => absurd hnew.1 (by omega)

end VisitorLowered

/-- What lowering any visitor of an owned program keeps is kept by lowering all
of them. -/
theorem Tree.Owned.lowered (h : t.Owned) (hf : t.Formed)
    (hI : ∀ V u u', u.Formed → u.Owned → u.Reachable V → VisitorLowered V u u' → I u → I u') (ht : I t)
    (hc : Chain VisitorLowered ((t.postOrder root).filter t.isVisitor) t t') : t'.Formed ∧ t'.Owned ∧ I t' := by
  refine (h.queued hf).run (I := fun u => u.Formed ∧ u.Owned ∧ I u) (fun u hu => hu.1) ?_ hc ⟨hf, h, ht⟩
  rintro V u u' ⟨hfu, hou, hIu⟩ hV hVu
  obtain ⟨G, hG⟩ := hVu.reworks hfu hou hV
  exact ⟨⟨hG.formed, hG.isOwned, hI V u u' hfu hou hV hVu hIu⟩, hVu.confined hfu hV⟩

end Penumbra
