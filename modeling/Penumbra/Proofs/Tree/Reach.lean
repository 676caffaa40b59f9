/-
What is reachable in a tree, and how deep it lies.

The orders of a tree are walks with a bound, the number of nodes. Below a
node under which child lists lead in no circle the bound is never met
(`Acyclic.endsWithin`), and the walks visit exactly what is reachable
(`mem_postOrder`, `mem_preOrder`).
-/
import Penumbra.Tree.Order
import Penumbra.Proofs.Kind.Refill
import Mathlib.Data.Finset.Card
import Mathlib.Logic.Relation

namespace Penumbra.Tree

variable {t t' : Tree} {x y z c : Nat} {n m : Nat}

/-- The child list of `x` names `y`. -/
def Child (t : Tree) (x y : NodeId) : Prop := y ∈ t.children x

/-- Child lists lead from `x` to `y`, which may be `x` itself. -/
def Reaches (t : Tree) (x y : NodeId) : Prop := Relation.ReflTransGen t.Child x y

/-- Child lists lead from the root to the node. -/
def Reachable (t : Tree) (x : NodeId) : Prop := t.Reaches root x

/-- What is reachable are nodes of the tree, and no child list leads back to
where it came from. -/
structure Acyclic (t : Tree) : Prop where
  bounded : ∀ x : Nat, t.Reachable x → x < t.size
  noCircle : ∀ x, t.Reachable x → ¬ Relation.TransGen t.Child x x

theorem Reaches.refl (t : Tree) (x : NodeId) : t.Reaches x x := Relation.ReflTransGen.refl

theorem Reaches.trans (h : t.Reaches x y) (h' : t.Reaches y z) : t.Reaches x z :=
  Relation.ReflTransGen.trans h h'

theorem Reaches.tail (h : t.Reaches x y) (hc : c ∈ t.children y) : t.Reaches x c :=
  Relation.ReflTransGen.tail h hc

theorem Reaches.head (hc : c ∈ t.children x) (h : t.Reaches c y) : t.Reaches x y :=
  Relation.ReflTransGen.head hc h

theorem Reaches.cases (h : t.Reaches x y) : y = x ∨ ∃ c ∈ t.children x, t.Reaches c y := by
  rcases Relation.ReflTransGen.cases_head h with h | ⟨c, hc, h⟩
  · exact .inl h.symm
  · exact .inr ⟨c, hc, h⟩

theorem Reaches.casesTail (h : t.Reaches x y) : y = x ∨ ∃ z, t.Reaches x z ∧ y ∈ t.children z := by
  rcases Relation.ReflTransGen.cases_tail h with h | ⟨z, h, hz⟩
  · exact .inl h
  · exact .inr ⟨z, h, hz⟩

/-- A set that holds the children of its nodes holds all they reach. -/
theorem Reaches.mem {S : Set Nat} (hS : ∀ x ∈ S, ∀ c ∈ t.children x, c ∈ S) (hx : x ∈ S)
    (h : t.Reaches x y) : y ∈ S := by
  induction h with
  | refl => exact hx
  | tail _ hc ih => exact hS _ ih _ hc

/-- The set holds all children of its nodes, which are nodes of the tree. -/
structure Closed (t : Tree) (S : Set Nat) : Prop where
  bounded : ∀ x ∈ S, x < t.size
  child : ∀ x ∈ S, ∀ c ∈ t.children x, c ∈ S

theorem Closed.below (h : ∀ y : Nat, t.Reaches x y → y < t.size) : t.Closed { y | t.Reaches x y } :=
  ⟨h, fun _ hy _ hc => Reaches.tail hy hc⟩

theorem Closed.reaches {S : Set Nat} (h : t.Closed S) (hx : x ∈ S) (hxy : t.Reaches x y) : y ∈ S :=
  hxy.mem h.child hx

/-- Trees that agree on what `x` reaches agree on what that is. -/
theorem Reaches.congr (h : ∀ y, t.Reaches x y → t'.children y = t.children y) (hxy : t.Reaches x y) :
    t'.Reaches x y := by
  induction hxy with
  | refl => exact .refl t' x
  | tail hy hc ih => exact ih.tail (h _ hy ▸ hc)

/-! ## Depth -/

/-- Child lists end within `n` nodes, counting `x`. -/
def EndsWithin (t : Tree) : Nat → NodeId → Prop
  | 0, _ => False
  | n + 1, x => ∀ c ∈ t.children x, t.EndsWithin n c

theorem EndsWithin.mono (h : t.EndsWithin n x) (hnm : n ≤ m) : t.EndsWithin m x := by
  induction n generalizing x m with
  | zero => exact h.elim
  | succ n ih =>
    obtain ⟨m, rfl⟩ : ∃ m', m = m' + 1 := ⟨m - 1, by omega⟩
    exact fun c hc => ih (h c hc) (by omega)

theorem EndsWithin.of_reaches (h : t.EndsWithin n x) (hxy : t.Reaches x y) : t.EndsWithin n y := by
  induction hxy with
  | refl => exact h
  | tail _ hc ih =>
    cases n with
    | zero => exact ih.elim
    | succ n => exact (ih _ hc).mono (Nat.le_succ n)

theorem EndsWithin.child (h : t.EndsWithin n x) (hc : c ∈ t.children x) : t.EndsWithin n c :=
  h.of_reaches (Reaches.tail (.refl t x) hc)

/-- What holds of a node if it holds of its children holds of `x`. -/
theorem EndsWithin.upward {P : Nat → Prop} (h : t.EndsWithin n x)
    (step : ∀ y, t.Reaches x y → (∀ c ∈ t.children y, P c) → P y) : P x := by
  induction n generalizing x with
  | zero => exact h.elim
  | succ n ih =>
    refine step x (.refl t x) fun c hc => ?_
    exact ih (h c hc) fun y hy => step y (.head hc hy)

/-- Every step down leaves fewer nodes below, of which there are at first
fewer than the tree has. -/
theorem endsWithin_size (hb : ∀ y : Nat, t.Reaches x y → y < t.size)
    (hc : ∀ y, t.Reaches x y → ¬ Relation.TransGen t.Child y y) : t.EndsWithin t.size x := by
  classical
  let below (y : Nat) := (Finset.range t.size).filter fun z => Relation.TransGen t.Child y z
  have hdepth : ∀ n, ∀ y : Nat, t.Reaches x y → (below y).card ≤ n → t.EndsWithin (n + 1) y := by
    intro n
    induction n with
    | zero =>
      intro y hy hn c hcy
      have hmem : c ∈ below y := by
        simp only [below, Finset.mem_filter, Finset.mem_range]
        exact ⟨hb c (hy.tail hcy), .single hcy⟩
      exact absurd (Finset.card_pos.mpr ⟨c, hmem⟩) (by omega)
    | succ n ih =>
      intro y hy hn c hcy
      have hlt : (below c).card < (below y).card := by
        refine Finset.card_lt_card ⟨fun z hz => ?_, fun hsub => ?_⟩
        · simp only [below, Finset.mem_filter] at hz ⊢
          exact ⟨hz.1, .head hcy hz.2⟩
        · have hmem : c ∈ below y := by
            simp only [below, Finset.mem_filter, Finset.mem_range]
            exact ⟨hb c (hy.tail hcy), .single hcy⟩
          exact hc c (hy.tail hcy) (Finset.mem_filter.mp (hsub hmem)).2
      exact ih c (hy.tail hcy) (by omega)
  have hx : (below x).card < t.size := by
    have hsub : below x ⊆ (Finset.range t.size).erase x := fun z hz => by
      simp only [below, Finset.mem_filter] at hz
      refine Finset.mem_erase.mpr ⟨?_, hz.1⟩
      rintro rfl
      exact hc _ (.refl t _) hz.2
    have hmem : x ∈ Finset.range t.size := Finset.mem_range.mpr (hb x (.refl t x))
    have := Finset.card_le_card hsub
    rw [Finset.card_erase_of_mem hmem, Finset.card_range] at this
    have := hb x (.refl t x)
    omega
  exact (hdepth _ x (.refl t x) le_rfl).mono hx

theorem Acyclic.endsWithin (h : t.Acyclic) (hx : t.Reachable x) : t.EndsWithin t.size x :=
  endsWithin_size (fun _ hy => h.bounded _ (hx.trans hy)) (fun _ hy => h.noCircle _ (hx.trans hy))

end Penumbra.Tree
