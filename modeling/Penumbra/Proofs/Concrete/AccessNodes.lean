/-
What stands in the place of an access.

The new nodes lead to nothing that was there before, none of them is changed any
more when its turn comes (`plain_accessed`), and each is come to once
(`AccessAt.ordered`). `Spliced` puts this together. Orders of nodes are given by a
relation to the nodes that are pending (`Ordered`), as a stack of nodes makes
them; on a tree that ends it is the recursive order (`Ordered.eq_subtree`).
-/
import Penumbra.Proofs.Concrete.FitPrograms

namespace Penumbra

open Tree

namespace Tree

variable {t : Tree} {x y c : Nat} {s : Shadow Ty} {field : VirtualField Ty} {var : String} {rest : List NodeId}

/-- No identifier of what replaces an access has a shadow type. -/
theorem shadow?_accessNodes {m : Node} {token : String} (hm : m ∈ t.accessNodes x s field var)
    (hk : m.kind = .ident token) : m.ty.bind Ty.shadow? = .none := by
  unfold accessNodes Shadow.expandNodes at hm
  split at hm
  next hp =>
    simp only [List.cons_append, List.nil_append, List.mem_cons, List.not_mem_nil, or_false] at hm
    rcases hm with rfl | rfl
    · rw [Shadow.expandedTy, if_pos hp]
      split <;> rfl
    · cases hk
  next =>
    simp only [List.cons_append, List.mem_cons, List.mem_append, List.not_mem_nil, or_false, or_assoc] at hm
    rcases hm with rfl | hm | rfl | rfl
    · rfl
    · rcases Shadow.mem_pathNodes hm with ⟨_, -, rfl | ⟨_, rfl⟩⟩ | ⟨_, rfl⟩ | ⟨_, rfl⟩
      · rfl
      all_goals cases hk
    · cases hk
    · cases hk

/-- All of it is left alone when its turn comes. -/
theorem plain_accessed (hx : x < t.size) (hy : y ∈ fresh t (t.accessed x s field var rest)) :
    (t.accessed x s field var rest).Plain y := by
  have hread : ∀ {i m}, (t.accessNodes x s field var)[i]? = .some m →
      (t.accessed x s field var rest).kind (t.size + i) = m.kind ∧
        (t.accessed x s field var rest).shadow? (t.size + i) = m.ty.bind Ty.shadow? := fun {i m} hi => by
    obtain ⟨hk, -, hty, -⟩ := read_accessed rest hx hi
    exact ⟨hk, by rw [shadow?, hty]⟩
  obtain ⟨i, rfl⟩ := Nat.exists_eq_add_of_le hy.1
  have hlt := hy.2
  rw [size_accessed] at hlt
  have hi : (t.accessNodes x s field var)[i]? = .some _ := List.getElem?_eq_getElem (by omega)
  obtain ⟨hk, hs⟩ := hread hi
  have hm := List.mem_of_getElem? hi
  generalize (t.accessNodes x s field var)[i] = m at hk hs hm
  refine ⟨?_, fun token hident => ?_, fun operand steps hfactor => .inl ?_⟩
  · unfold shadowDecl?
    rw [hk]
    obtain ⟨-, ⟨hm, -⟩ | ⟨-, _, -, hm | ⟨_, hm⟩⟩ | ⟨-, _, hm⟩ | ⟨-, _, hm⟩ | ⟨-, ⟨_, hm⟩ | ⟨_, hm⟩⟩⟩ := mem_accessNodes hm <;>
      rw [hm]
  · rw [hs]
    exact shadow?_accessNodes hm (hk.symm.trans hident)
  · -- a chain is built on the variable, which comes first
    have hoperand : operand = t.size := by
      rw [hk] at hfactor
      obtain ⟨-, ⟨hm, -⟩ | ⟨-, _, -, hm | ⟨_, hm⟩⟩ | ⟨-, _, hm⟩ | ⟨-, _, hm⟩ | ⟨-, ⟨_, hm⟩ | ⟨_, hm⟩⟩⟩ := mem_accessNodes hm <;>
        rw [hm] at hfactor <;> cases hfactor
      rfl
    have hfirst : ∃ m, (t.accessNodes x s field var)[0]? = .some m ∧ m.kind = .ident var := by
      unfold accessNodes Shadow.expandNodes
      split <;> exact ⟨_, rfl, rfl⟩
    obtain ⟨m, h0, hvar⟩ := hfirst
    rw [hoperand, ← Nat.add_zero t.size, (hread h0).2]
    exact shadow?_accessNodes (List.mem_of_getElem? h0) hvar

/-- What replaces an access leads to nothing else. -/
theorem reaches_parenId (hk : t.kind x = .factor c (y :: rest)) {z : Nat}
    (hz : (t.accessed x s field var rest).Reaches (t.parenId x s field var) z) :
    z ∈ fresh t (t.accessed x s field var rest) :=
  hz.mem (fun w hw d hd => ((evolves_accessed t x s field var rest hk).new w hw).2 d hd) (parenId_fresh ..)

end Tree

/-! ## The order of nodes -/

/-- Going through the pending nodes, each followed by its children, gives this
order. -/
inductive Tree.Ordered (t : Tree) : List NodeId → List NodeId → Prop where
  | nil : Ordered t [] []
  | cons {x pending below after} (children : Ordered t (t.children x) below) (rest : Ordered t pending after) :
      Ordered t (x :: pending) (x :: below ++ after)

namespace Tree.Ordered

variable {t t' : Tree} {pending pending' order order' : List NodeId} {x y : Nat}

theorem leaf (hx : t.children x = []) (h : t.Ordered pending order) : t.Ordered (x :: pending) (x :: order) := by
  have hnone : t.Ordered (t.children x) [] := by
    rw [hx]
    exact .nil
  exact .cons hnone h

theorem leaves (h : ∀ x ∈ order, t.children x = []) : t.Ordered order order := by
  induction order with
  | nil => exact .nil
  | cons x order ih => exact .leaf (h x List.mem_cons_self) (ih fun y hy => h y (List.mem_cons_of_mem _ hy))

theorem append (h : t.Ordered pending order) (h' : t.Ordered pending' order') :
    t.Ordered (pending ++ pending') (order ++ order') := by
  induction h with
  | nil => exact h'
  | @cons x pending below after children _ _ ih =>
    rw [List.cons_append, List.append_assoc]
    exact .cons children ih

/-- Where child lists agree, so does the order. -/
theorem congr (h : t.Ordered pending order) (hsame : ∀ y ∈ order, t'.children y = t.children y) :
    t'.Ordered pending order := by
  induction h with
  | nil => exact .nil
  | @cons x pending below after _ _ ih ih' =>
    have hx := hsame x (by simp)
    refine .cons ?_ (ih' fun y hy => hsame y (by simp [hy]))
    rw [hx]
    exact ih fun y hy => hsame y (by simp [hy])

theorem grounded (h : t.Ordered pending order) : ∀ x ∈ pending, t.Grounded x := by
  induction h with
  | nil => exact fun _ hx => absurd hx List.not_mem_nil
  | cons _ _ ih ih' =>
    intro y hy
    rcases List.mem_cons.mp hy with rfl | hy
    · exact .intro ih
    · exact ih' y hy

theorem eq_subtree (h : t.Ordered pending order) (hends : ∀ x ∈ pending, t.EndsWithin t.size x) :
    order = pending.flatMap t.subtree := by
  induction h with
  | nil => rfl
  | @cons x pending below after _ _ ih ih' =>
    have hx := hends x List.mem_cons_self
    rw [List.flatMap_cons, subtree_eq hx, ← ih fun c hc => hx.child hc,
      ← ih' fun y hy => hends y (List.mem_cons_of_mem _ hy)]

/-- The recursive order is such an order. -/
theorem subtree (hends : t.EndsWithin t.size x) : t.Ordered [x] (t.subtree x) := by
  have hfold : ∀ n x, t.EndsWithin n x → t.Ordered [x] (t.fold (fun id k => id :: k.children.flatten) [] n x) := by
    intro n
    induction n with
    | zero => exact fun _ h => h.elim
    | succ n ih =>
      intro x hx
      have hlist : ∀ l : List NodeId, (∀ c ∈ l, t.EndsWithin n c) →
          t.Ordered l (l.map (t.fold (fun id k => id :: k.children.flatten) [] n)).flatten := by
        intro l
        induction l with
        | nil => exact fun _ => .nil
        | cons c l ihl => exact fun hl => (ih c (hl c (by simp))).append (ihl fun d hd => hl d (by simp [hd]))
      rw [fold, Kind.children_map]
      have := Ordered.cons (hlist _ hx) (.nil (t := t))
      rwa [List.append_nil] at this
  exact hfold _ _ hends

end Tree.Ordered

namespace AccessAt

variable {path : List PathStep} {var : String} {n : Nat} {v : Tree}

/-- The order of `k` steps, of which the first is built on the node `n`. -/
def stepOrder : Nat → Nat → List Nat
  | _, 0 => []
  | n, k + 1 => (n + 1) :: n :: stepOrder (n + 2) k

theorem mem_stepOrder {k y : Nat} (h : y ∈ stepOrder n k) : n ≤ y ∧ y < n + 2 * k := by
  induction k generalizing n with
  | zero => cases h
  | succ k ih =>
    simp only [stepOrder, List.mem_cons] at h
    rcases h with rfl | rfl | h
    · omega
    · omega
    · have := ih h
      omega

theorem nodup_stepOrder (n k : Nat) : (stepOrder n k).Nodup := by
  induction k generalizing n with
  | zero => exact .nil
  | succ k ih =>
    have hnot : ∀ y ∈ stepOrder (n + 2) k, n + 2 ≤ y := fun y hy => (mem_stepOrder hy).1
    simp only [stepOrder, List.nodup_cons, List.mem_cons, not_or]
    refine ⟨⟨by omega, fun h => ?_⟩, fun h => ?_, ih (n + 2)⟩
    · have := hnot _ h
      omega
    · have := hnot _ h
      omega

theorem ordered_steps
    (h : ∀ j step, path[j]? = .some step → v.kind (n + 2 * j) = step.leaf ∧ v.kind (n + 2 * j + 1) = step.over (n + 2 * j)) :
    v.Ordered (pairIds n path.length) (stepOrder n path.length) := by
  induction path generalizing n with
  | nil => exact .nil
  | cons step path ih =>
    obtain ⟨hleaf, hover⟩ : v.kind n = step.leaf ∧ v.kind (n + 1) = step.over n := h 0 step rfl
    have hnone : v.children n = [] := by
      rw [Tree.children, hleaf]
      cases step <;> rfl
    have hone : v.children (n + 1) = [n] := by
      rw [Tree.children, hover]
      cases step <;> rfl
    have hstep : v.Ordered (v.children (n + 1)) [n] := by
      rw [hone]
      exact .leaf hnone .nil
    rw [List.length_cons, pairIds_succ]
    refine .cons hstep (ih fun j step hj => ?_)
    have hnext := h (j + 1) step (by simpa using hj)
    rwa [show n + 2 * (j + 1) = n + 2 + 2 * j by omega] at hnext

/-- What replaces an access, in order, without repetition. -/
theorem ordered (h : AccessAt path var n v) : ∃ order : List Nat, v.Ordered [last path n] order ∧ order.Nodup := by
  have hvar : v.Ordered [n] [n] := .leaf (by rw [Tree.children, h.var]; rfl) .nil
  by_cases hp : path = []
  · rw [last, if_pos hp]
    refine ⟨(n + 1) :: [n] ++ [], .cons ?_ .nil, by simp⟩
    rw [Tree.children, h.bare hp]
    exact hvar
  · rw [last, if_neg hp]
    obtain ⟨hchain, hparen⟩ := h.chain hp
    have hsteps : v.Ordered (pairIds (n + 1) path.length) (stepOrder (n + 1) path.length) :=
      ordered_steps h.step
    have hfactor : v.Ordered [n + 1 + 2 * path.length]
        ((n + 1 + 2 * path.length) :: ([n] ++ stepOrder (n + 1) path.length) ++ []) := by
      refine .cons ?_ .nil
      rw [Tree.children, hchain]
      exact hvar.append hsteps
    refine ⟨_, .cons (by rw [Tree.children, hparen]; exact hfactor) .nil, ?_⟩
    have hrange : ∀ y ∈ stepOrder (n + 1) path.length, n + 1 ≤ y ∧ y < n + 1 + 2 * path.length := fun y hy =>
      mem_stepOrder hy
    simp only [List.append_nil, List.nil_append, List.cons_append, List.nodup_cons, List.mem_cons, not_or]
    refine ⟨⟨by omega, by omega, fun hy => ?_⟩, ⟨by omega, fun hy => ?_⟩, fun hy => ?_, nodup_stepOrder _ _⟩
    all_goals
      have := hrange _ hy
      omega

end AccessAt

/-- New nodes have taken the place of the operand and the first step of the
access `x`; the last of them is `p`. -/
structure Tree.Spliced (x : NodeId) (rest : List NodeId) (p : NodeId) (u v : Tree) : Prop where
  node : ∀ y < u.size, y ≠ x → v.node y = u.node y
  kind : v.kind x = .factor p rest
  new : ∀ y : Nat, v.Reaches p y → u.size ≤ y ∧ y < v.size
  plain : ∀ y, v.Reaches p y → v.Plain y
  ends : v.EndsWithin 4 p
  size : 4 ≤ v.size
  nodup : (v.subtree p).Nodup

theorem Tree.spliced_accessed {u : Tree} {x operand first fieldId : Nat} {rest : List NodeId} {var : String}
    (s : Shadow Ty) (vf : VirtualField Ty) (kind : u.kind x = .factor operand (first :: rest))
    (selector : u.kind first = .selector fieldId) (root : u.kind operand = .ident var) :
    Spliced x rest (u.parenId x s vf var) u (u.accessed x s vf var rest) := by
  have hx : x < u.size := lt_size_of_kind kind (by simp)
  have hfresh := parenId_fresh u x s vf var rest
  have hnew := fun y (hy : (u.accessed x s vf var rest).Reaches (u.parenId x s vf var) y) => reaches_parenId kind hy
  have hat : AccessAt vf.path var u.size (u.accessed x s vf var rest) := AccessAt.of_accessed rest hx
  have hlast : AccessAt.last vf.path u.size = u.parenId x s vf var := AccessAt.last_eq
  have hfour := hat.endsWithin
  obtain ⟨order, hordered, hnodup⟩ := hat.ordered
  rw [hlast] at hfour hordered
  -- the operand, the first step and the chain are three different nodes
  have hsize : 4 ≤ (u.accessed x s vf var rest).size := by
    have h₁ : operand < u.size := lt_size_of_kind root (by simp)
    have h₂ : first < u.size := lt_size_of_kind selector (by simp)
    have hne₁ : operand ≠ x := fun he => by rw [he, kind] at root; cases root
    have hne₂ : first ≠ x := fun he => by rw [he, kind] at selector; cases selector
    have hne₃ : first ≠ operand := fun he => by rw [he, root] at selector; cases selector
    have := hfresh.1
    have := hfresh.2
    omega
  have hnode : ∀ y < u.size, y ≠ x → (u.accessed x s vf var rest).node y = u.node y := fun y hy hyx =>
    node_accessed hy hyx
  have hkind : (u.accessed x s vf var rest).kind x = .factor (u.parenId x s vf var) rest := by
    rw [kind_accessed u x s vf var rest x hx, if_pos rfl]
  have hplain := fun y hy => plain_accessed hx (hnew y hy)
  -- what the new tree is made of does not matter any more
  generalize u.accessed x s vf var rest = v at *
  refine ⟨hnode, hkind, hnew, hplain, hfour, hsize, ?_⟩
  have heq := hordered.eq_subtree fun y hy => List.mem_singleton.mp hy ▸ hfour.mono hsize
  rw [List.flatMap_cons, List.flatMap_nil, List.append_nil] at heq
  exact heq ▸ hnodup

end Penumbra
