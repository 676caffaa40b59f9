/-
The orders of a tree, where child lists end.

`fold` stops at a bound. Below a node where child lists end within the bound
it does not meet it, so its value there does not depend on the bound
(`fold_congr`) and satisfies the equation one expects (`fold_step`). In the
post-order the orders of a node's children stand right before it
(`completed_postOrder`). The pending-list walk of `preOrder` comes to the
recursive order (`walk_eq`).
-/
import Penumbra.Proofs.Tree.Reach

namespace Penumbra.Tree

variable {t t' : Tree} {x y r : Nat} {n m : Nat} {β : Type} {layer layer' : NodeId → Kind β → β} {cut cut' : β}

/-- Folds of trees that agree on what `x` reaches. -/
theorem fold_congr (h : t.EndsWithin n x) (h' : t.EndsWithin m x)
    (hkind : ∀ y, t.Reaches x y → t'.kind y = t.kind y)
    (hlayer : ∀ y, t.Reaches x y → layer' y = layer y) :
    t'.fold layer' cut' m x = t.fold layer cut n x := by
  induction n generalizing x m with
  | zero => exact h.elim
  | succ n ih =>
    obtain ⟨m, rfl⟩ : ∃ m', m = m' + 1 := by
      cases m with
      | zero => exact h'.elim
      | succ m => exact ⟨m, rfl⟩
    rw [fold, fold, hkind x (.refl t x), hlayer x (.refl t x)]
    refine congrArg (layer x) (Kind.map_congr fun c hc => ?_)
    exact ih (h c hc) (h' c hc) (fun y hy => hkind y (.head hc hy)) (fun y hy => hlayer y (.head hc hy))

/-- One layer of a fold whose bound is the number of nodes. -/
theorem fold_step (h : t.EndsWithin t.size x) :
    t.fold layer cut t.size x = layer x ((t.kind x).map (t.fold layer cut t.size)) := by
  obtain ⟨n, hn⟩ : ∃ n, t.size = n + 1 := by
    cases hs : t.size with
    | zero => rw [hs] at h; exact h.elim
    | succ n => exact ⟨n, rfl⟩
  rw [hn] at h ⊢
  rw [fold]
  refine congrArg (layer x) (Kind.map_congr fun c hc => ?_)
  exact fold_congr ((h c hc).mono (Nat.le_succ n)) (h c hc) (fun _ _ => rfl) (fun _ _ => rfl)

/-! ## What an order visits -/

/-- A layer's list of nodes that holds the node and what its children's lists
hold. -/
def Lists (layer : NodeId → Kind (List NodeId) → List NodeId) : Prop :=
  ∀ id k (y : Nat), y ∈ layer id k ↔ y = id ∨ ∃ l ∈ k.children, y ∈ l

section Visits

variable {layer : NodeId → Kind (List NodeId) → List NodeId}

theorem Lists.reaches (hl : Lists layer) (h : y ∈ t.fold layer [] n x) : t.Reaches x y := by
  induction n generalizing x with
  | zero => simp [fold] at h
  | succ n ih =>
    rw [fold, hl, Kind.children_map] at h
    rcases h with rfl | ⟨l, hmem, h⟩
    · exact .refl t _
    · obtain ⟨c, hc, rfl⟩ := List.mem_map.mp hmem
      exact .head hc (ih h)

theorem Lists.mem (hl : Lists layer) (h : t.EndsWithin n x) (hy : t.Reaches x y) :
    y ∈ t.fold layer [] n x := by
  induction n generalizing x with
  | zero => exact h.elim
  | succ n ih =>
    rw [fold, hl, Kind.children_map]
    rcases hy.cases with rfl | ⟨c, hc, hy⟩
    · exact .inl rfl
    · exact .inr ⟨_, List.mem_map_of_mem hc, ih (h c hc) hy⟩

end Visits

/-! ## Children first -/

theorem lists_post : Lists fun id k => k.children.flatten ++ [id] := by
  intro id k y
  simp only [List.mem_append, List.mem_flatten, List.mem_singleton]
  exact or_comm

theorem reaches_of_mem_postOrder (h : y ∈ t.postOrder x) : t.Reaches x y :=
  lists_post.reaches h

theorem mem_postOrder (h : t.EndsWithin t.size x) : y ∈ t.postOrder x ↔ t.Reaches x y :=
  ⟨lists_post.reaches, lists_post.mem h⟩

theorem postOrder_eq (h : t.EndsWithin t.size x) :
    t.postOrder x = (t.children x).flatMap t.postOrder ++ [x] := by
  rw [postOrder, fold_step h, Kind.children_map, List.flatMap_def]
  rfl

/-- Every node of the list comes right after the post-orders of its children. -/
def Completed (t : Tree) (l : List NodeId) : Prop :=
  ∀ l₁ y l₂, l = l₁ ++ y :: l₂ → (t.children y).flatMap t.postOrder <:+ l₁

theorem Completed.append {l l' : List NodeId} (h : t.Completed l) (h' : t.Completed l') : t.Completed (l ++ l') := by
  intro l₁ y l₂ he
  rcases List.append_eq_append_iff.mp he with ⟨d, rfl, hd⟩ | ⟨d, rfl, hd⟩
  · exact (h' d y l₂ hd).trans (List.suffix_append l d)
  · cases d with
    | nil =>
      have hnone := h' [] y l₂ hd.symm
      rw [List.suffix_nil.mp hnone]
      exact List.nil_suffix
    | cons z d =>
      rw [List.cons_append, List.cons.injEq] at hd
      obtain ⟨rfl, -⟩ := hd
      exact h l₁ y d rfl

theorem Completed.flatMap {cs : List NodeId} {f : NodeId → List NodeId} (h : ∀ c ∈ cs, t.Completed (f c)) :
    t.Completed (cs.flatMap f) := by
  induction cs with
  | nil =>
    intro l₁ y l₂ he
    simp at he
  | cons c cs ih =>
    rw [List.flatMap_cons]
    exact (h c List.mem_cons_self).append (ih fun d hd => h d (List.mem_cons_of_mem c hd))

theorem Completed.snoc {l : List NodeId} (h : t.Completed l) (hx : (t.children x).flatMap t.postOrder <:+ l) :
    t.Completed (l ++ [x]) := by
  intro l₁ y l₂ he
  rcases List.eq_nil_or_concat l₂ with rfl | ⟨l₂, z, rfl⟩
  · obtain ⟨rfl, hy⟩ := List.append_inj' he rfl
    obtain rfl := List.singleton_inj.mp hy
    exact hx
  · rw [List.concat_eq_append, ← List.cons_append, ← List.append_assoc] at he
    exact h l₁ y l₂ (List.append_inj' he rfl).1

theorem completed_postOrder (h : t.EndsWithin t.size x) : t.Completed (t.postOrder x) := by
  refine h.upward (P := fun y => t.Completed (t.postOrder y)) fun y hy ih => ?_
  rw [postOrder_eq (h.of_reaches hy)]
  exact (Completed.flatMap ih).snoc List.suffix_rfl

/-- Every node of the list comes after its children. -/
def ChildrenFirst (t : Tree) (l : List Nat) : Prop :=
  ∀ l₁ y l₂, l = l₁ ++ y :: l₂ → ∀ c ∈ t.children y, c ∈ l₁

theorem childrenFirst_postOrder (h : t.EndsWithin t.size x) : t.ChildrenFirst (t.postOrder x) := by
  intro l₁ y l₂ hl c hc
  have hy : t.Reaches x y := reaches_of_mem_postOrder (by simp [hl])
  have hmem : c ∈ (t.children y).flatMap t.postOrder :=
    List.mem_flatMap.mpr ⟨c, hc, (mem_postOrder (h.of_reaches (hy.tail hc))).mpr (.refl t c)⟩
  exact (completed_postOrder h l₁ y l₂ hl).subset hmem

/-! ## Parents first -/

/-- A node and all below it, parents before children. -/
def subtree (t : Tree) (x : NodeId) : List NodeId :=
  t.fold (fun id k => id :: k.children.flatten) [] t.size x

theorem lists_pre : Lists fun id k => id :: k.children.flatten := by
  intro id k y
  simp only [List.mem_cons, List.mem_flatten]

theorem subtree_eq (h : t.EndsWithin t.size x) :
    t.subtree x = x :: (t.children x).flatMap t.subtree := by
  rw [subtree, fold_step h, Kind.children_map, List.flatMap_def]
  rfl

theorem extentUpTo_eq : t.fold (fun _ k => k.children.foldr (· + ·) 1) 0 n x =
    (t.fold (fun id k => id :: k.children.flatten) [] n x).length := by
  induction n generalizing x with
  | zero => rfl
  | succ n ih =>
    have hsum : ∀ l : List NodeId,
        (l.map (t.fold (fun _ k => k.children.foldr (· + ·) 1) 0 n)).foldr (· + ·) 1 =
          ((l.map (t.fold (fun id k => id :: k.children.flatten) [] n)).flatten).length + 1 := by
      intro l
      induction l with
      | nil => rfl
      | cons c l ihl =>
        simp only [List.map_cons, List.foldr_cons, ihl, ih, List.flatten_cons, List.length_append]
        omega
    simp only [fold, Kind.children_map, List.length_cons]
    exact hsum _

/-- The walk with as many steps as there are nodes to visit visits them in
the recursive order. -/
theorem walk_eq {pending : List NodeId} (hp : ∀ p ∈ pending, t.EndsWithin t.size p)
    (hn : n = (pending.flatMap t.subtree).length) : t.walk n pending = pending.flatMap t.subtree := by
  induction n generalizing pending with
  | zero =>
    rw [List.eq_nil_of_length_eq_zero hn.symm]
    rfl
  | succ n ih =>
    cases pending with
    | nil => rfl
    | cons x pending =>
      have hx := hp x (by simp)
      have hrest : t.subtree x ++ pending.flatMap t.subtree =
          x :: (t.children x ++ pending).flatMap t.subtree := by
        rw [subtree_eq hx, List.flatMap_append, List.cons_append]
      rw [List.flatMap_cons, hrest, List.length_cons] at hn
      rw [walk, List.flatMap_cons, hrest]
      refine congrArg (x :: ·) (ih (fun p hmem => ?_) (by omega))
      rcases List.mem_append.mp hmem with hc | hmem
      · exact hx.child hc
      · exact hp p (by simp [hmem])

/-- The pending-list walk is the recursive order. -/
theorem preOrder_eq (h : t.EndsWithin t.size x) : t.preOrder x = t.subtree x := by
  have hlen : t.extent x = ([x].flatMap t.subtree).length := by
    rw [List.flatMap_cons, List.flatMap_nil, List.append_nil]
    exact extentUpTo_eq
  have hw := walk_eq (by simpa using h) hlen
  simpa [preOrder] using hw

theorem preOrder_step (h : t.EndsWithin t.size x) : t.preOrder x = x :: (t.children x).flatMap t.preOrder := by
  have hbelow : (t.children x).flatMap t.preOrder = (t.children x).flatMap t.subtree :=
    List.flatMap_congr fun c hc => preOrder_eq (h.child hc)
  rw [preOrder_eq h, subtree_eq h, hbelow]

theorem mem_preOrder (h : t.EndsWithin t.size x) : y ∈ t.preOrder x ↔ t.Reaches x y := by
  rw [preOrder_eq h]
  exact ⟨lists_pre.reaches, lists_pre.mem h⟩

end Penumbra.Tree
