/-
The second pass as a loop.

`concreteDown` goes down from a node to its children. What it does is the work of a
loop that takes one turn after the other: the first of the nodes whose turn is still to
come is made concrete, and the children that it then has take its place (`Turn`). The
loop has no bound. A run of `concreteDown` that does not meet its own is a run of the
loop (`turns_of_yields`, `turns_of_stops`), and since each turn is the only one there
is, a loop that ends in one way ends in no other (`Ends.turn_or_ends`).
-/
import Penumbra.Erase.Concrete
import Penumbra.Proofs.Pass.Stops
import Mathlib.Logic.Relation

namespace Penumbra.Pass

/-- Where the loop is: the nodes whose turn is still to come, what there is to work on,
and the visits made. -/
structure Loop where
  pending : List NodeId
  work : Work
  visits : List Visit

namespace Loop

/-- The first node is made concrete, and the children it then has take its place. -/
inductive Turn : Loop → Loop → Prop where
  | node {x pending w w' change visits} (node : Yields (concreteNode x) w change w') :
      Turn ⟨x :: pending, w, visits⟩ ⟨w'.tree.children x ++ pending, w', visits ++ [⟨x, change⟩]⟩

/-- There is no turn left, or the first node cannot be made concrete. -/
inductive Ends (uri : String) : Loop → Outcome → Prop where
  | done {w visits} : Ends uri ⟨[], w, visits⟩ ⟨.ok (), w.tree, w.log ++ [.concrete (.ofVisits visits) uri]⟩
  | fault {x pending w w' e visits} (node : Stops (concreteNode x) w e w') :
      Ends uri ⟨x :: pending, w, visits⟩ ⟨.error e, w'.tree, w'.log⟩

abbrev Turns : Loop → Loop → Prop := Relation.ReflTransGen Turn

variable {l l₁ l₂ : Loop} {uri : String} {o : Outcome}

theorem Turn.unique (h₁ : Turn l l₁) (h₂ : Turn l l₂) : l₁ = l₂ := by
  cases h₁ with
  | node h₁ =>
    cases h₂ with
    | node h₂ =>
      cases h₁.symm.trans h₂
      rfl

theorem Ends.not_turn (h : l.Ends uri o) : ¬ Turn l l₁ := by
  intro hturn
  cases hturn with
  | node hyields =>
    cases h with
    | fault hstops => cases hyields.symm.trans hstops

/-- A loop that can come to its end cannot go on for ever. -/
theorem Ends.acc (h : l₁.Ends uri o) (hturns : Turns l l₁) : Acc (fun a b => Turn b a) l := by
  induction hturns using Relation.ReflTransGen.head_induction_on with
  | refl => exact .intro _ fun l₂ hturn => (h.not_turn hturn).elim
  | head hturn _ ih => exact .intro _ fun l₂ hturn' => hturn.unique hturn' ▸ ih

/-- As long as the loop has not ended it takes another turn. -/
theorem Ends.turn_or_ends (h : l₁.Ends uri o) (hturns : Turns l l₁) (hturns₂ : Turns l l₂) :
    (∃ l', Turn l₂ l') ∨ l₂.Ends uri o := by
  have hunique : Relator.RightUnique Turn := fun _ _ _ => Turn.unique
  rcases Relation.ReflTransGen.total_of_right_unique hunique hturns₂ hturns with hrest | hpast
  · rcases hrest.cases_head with rfl | ⟨l', hturn, -⟩
    · exact .inr h
    · exact .inl ⟨l', hturn⟩
  · rcases hpast.cases_head with rfl | ⟨l', hturn, -⟩
    · exact .inr h
    · exact (h.not_turn hturn).elim

end Loop

/-! ## Going down -/

open Loop

variable {w w' : Work} {x n : Nat} {e : Fault} {below : List Visit}

section List

variable {g : NodeId → Pass (List Visit)} {l : List NodeId}
  (hy : ∀ x w below w', Yields (g x) w below w' →
    ∀ pending visits, Turns ⟨x :: pending, w, visits⟩ ⟨pending, w', visits ++ below⟩)
include hy

theorem turns_of_yields_mapM {belows : List (List Visit)} (h : Yields (l.mapM g) w belows w') (pending : List NodeId)
    (visits : List Visit) : Turns ⟨l ++ pending, w, visits⟩ ⟨pending, w', visits ++ belows.flatten⟩ := by
  induction l generalizing w belows visits with
  | nil =>
    obtain ⟨rfl, rfl⟩ := yields_mapM_nil.mp h
    rw [List.flatten_nil, List.append_nil]
    exact .refl
  | cons x l ih =>
    obtain ⟨below, belows, w₁, hx, hl, rfl⟩ := yields_mapM_cons.mp h
    rw [List.flatten_cons, ← List.append_assoc]
    exact (hy x w below w₁ hx (l ++ pending) visits).trans (ih hl (visits ++ below))

theorem turns_of_stops_mapM {uri : String}
    (hs : ∀ x w w', Stops (g x) w e w' →
      ∀ pending visits, ∃ l, Turns ⟨x :: pending, w, visits⟩ l ∧ l.Ends uri ⟨.error e, w'.tree, w'.log⟩)
    (h : Stops (l.mapM g) w e w') (pending : List NodeId) (visits : List Visit) :
    ∃ l', Turns ⟨l ++ pending, w, visits⟩ l' ∧ l'.Ends uri ⟨.error e, w'.tree, w'.log⟩ := by
  induction l generalizing w visits with
  | nil => exact (not_stops_mapM_nil h).elim
  | cons x l ih =>
    rcases stops_mapM_cons.mp h with hx | ⟨below, w₁, hx, hl⟩
    · exact hs x w w' hx (l ++ pending) visits
    · obtain ⟨l', hturns, hends⟩ := ih hl (visits ++ below)
      exact ⟨l', (hy x w below w₁ hx (l ++ pending) visits).trans hturns, hends⟩

end List

/-- To go down from a node is to take turns until the nodes behind it come first. -/
theorem turns_of_yields (h : Yields (concreteDown n x) w below w') (pending : List NodeId) (visits : List Visit) :
    Turns ⟨x :: pending, w, visits⟩ ⟨pending, w', visits ++ below⟩ := by
  induction n generalizing x w below w' pending visits with
  | zero => exact (not_yields_throw h).elim
  | succ n ih =>
    simp only [concreteDown, yields_bind, yields_tree, yields_pure] at h
    obtain ⟨change, w₁, hnode, _, _, ⟨rfl, rfl⟩, belows, w₂, hbelow, rfl, rfl⟩ := h
    have hrest := turns_of_yields_mapM (fun _ _ _ _ h => ih h) hbelow pending (visits ++ [⟨x, change⟩])
    rw [List.append_assoc] at hrest
    exact .head (.node hnode) hrest

/-- Where going down stops at a node, the loop stops. -/
theorem turns_of_stops (uri : String) (h : Stops (concreteDown n x) w e w') (he : e.cause ≠ .circle)
    (pending : List NodeId) (visits : List Visit) :
    ∃ l, Turns ⟨x :: pending, w, visits⟩ l ∧ l.Ends uri ⟨.error e, w'.tree, w'.log⟩ := by
  induction n generalizing x w w' pending visits with
  | zero =>
    obtain ⟨rfl, -⟩ := stops_throw.mp h
    exact absurd rfl he
  | succ n ih =>
    simp only [concreteDown, stops_bind, not_stops_tree, not_stops_pure, yields_tree, and_false, exists_false,
      or_false, false_or] at h
    rcases h with h | ⟨change, w₁, hnode, _, _, ⟨rfl, rfl⟩, hbelow⟩
    · exact ⟨_, .refl, .fault h⟩
    · obtain ⟨l, hturns, hends⟩ := turns_of_stops_mapM (fun _ _ _ _ => turns_of_yields) (fun _ _ _ h => ih h) hbelow
        pending (visits ++ [⟨x, change⟩])
      exact ⟨l, .head (.node hnode) hturns, hends⟩

end Penumbra.Pass
