/-
Passes that stop.

`Stops p w e w'` says that the pass `p`, started on `w`, stops at the fault `e`
and leaves `w'`. With `Yields` it says all that a pass can do: a run comes to
its end or stops (`yields_or_stops`). A pass that goes through a list stops at one
of its entries, after it has come to its end at all entries before
(`stops_mapM`).
-/
import Penumbra.Proofs.Pass.Yields

namespace Penumbra.Pass

variable {α β : Type} {p : Pass α} {f : α → Pass β} {w w' : Work} {a : α} {e : Fault}

/-- The pass stops at this fault, with this work left. -/
def Stops (p : Pass α) (w : Work) (e : Fault) (w' : Work) : Prop :=
  p.run.run w = (.error e, w')

theorem yields_or_stops (p : Pass α) (w : Work) : (∃ a w', Yields p w a w') ∨ ∃ e w', Stops p w e w' := by
  unfold Yields Stops
  rcases p.run.run w with ⟨e | a, w'⟩
  · exact .inr ⟨e, w', rfl⟩
  · exact .inl ⟨a, w', rfl⟩

@[simp] theorem not_stops_pure : ¬ Stops (pure a : Pass α) w e w' := by
  intro h
  cases h

@[simp] theorem stops_bind :
    Stops (p >>= f) w e w' ↔ Stops p w e w' ∨ ∃ a w₁, Yields p w a w₁ ∧ Stops (f a) w₁ e w' := by
  simp only [Yields, Stops, ExceptT.run_bind, StateT.run_bind]
  rcases p.run.run w with ⟨e' | a, w₁⟩
  · constructor
    · intro h
      cases h
      exact .inl rfl
    · rintro (h | ⟨a, w₁, h, -⟩) <;> cases h
      rfl
  · constructor
    · intro h
      exact .inr ⟨a, w₁, rfl, h⟩
    · rintro (h | ⟨a', w₁', h, h'⟩) <;> cases h
      exact h'

@[simp] theorem stops_throw {e' : Fault} : Stops (throw e' : Pass α) w e w' ↔ e' = e ∧ w = w' := by
  constructor
  · intro h
    cases h
    exact ⟨rfl, rfl⟩
  · rintro ⟨rfl, rfl⟩
    rfl

@[simp] theorem not_stops_tree : ¬ Stops tree w e w' := by
  intro h
  cases h

@[simp] theorem not_stops_modifyTree {g : Tree → Tree} : ¬ Stops (modifyTree g) w e w' := by
  intro h
  cases h

@[simp] theorem not_stops_build {g : Build α} : ¬ Stops (build g) w e w' := by
  intro h
  cases h

@[simp] theorem not_stops_note {n : Note} : ¬ Stops (note n) w e w' := by
  intro h
  cases h

@[simp] theorem stops_ofExcept {r : Except Fault α} : Stops (ofExcept r) w e w' ↔ r = .error e ∧ w = w' := by
  cases r with
  | ok a => simp [ofExcept]
  | error e' => simp only [ofExcept, stops_throw, Except.error.injEq]

/-- Looking at the tree changes nothing and does not stop. -/
theorem stops_tree_bind {f : Tree → Pass α} : Stops (tree >>= f) w e w' ↔ Stops (f w.tree) w e w' := by
  simp only [stops_bind, not_stops_tree, yields_tree, false_or]
  constructor
  · rintro ⟨_, _, ⟨rfl, rfl⟩, h⟩
    exact h
  · intro h
    exact ⟨_, _, ⟨rfl, rfl⟩, h⟩

/-! ## Over a list -/

section Lists

variable {g : α → Pass β} {x : α} {l : List α}

@[simp] theorem not_stops_mapM_nil : ¬ Stops (([] : List α).mapM g) w e w' := by
  simp

theorem stops_mapM_cons :
    Stops ((x :: l).mapM g) w e w' ↔
      Stops (g x) w e w' ∨ ∃ b w₁, Yields (g x) w b w₁ ∧ Stops (l.mapM g) w₁ e w' := by
  simp only [List.mapM_cons, stops_bind, not_stops_pure, and_false, exists_false, or_false]

/-- The entry at which a pass through a list stops. -/
theorem stops_mapM :
    Stops (l.mapM g) w e w' ↔
      ∃ before x after bs w₁, l = before ++ x :: after ∧ Yields (before.mapM g) w bs w₁ ∧ Stops (g x) w₁ e w' := by
  induction l generalizing w with
  | nil => simp
  | cons x l ih =>
    rw [stops_mapM_cons]
    constructor
    · rintro (h | ⟨b, w₁, hx, hl⟩)
      · exact ⟨[], x, l, [], w, rfl, yields_mapM_nil.mpr ⟨rfl, rfl⟩, h⟩
      · obtain ⟨before, y, after, bs, w₂, rfl, hbefore, hy⟩ := ih.mp hl
        exact ⟨x :: before, y, after, b :: bs, w₂, rfl, yields_mapM_cons.mpr ⟨b, bs, w₁, hx, hbefore, rfl⟩, hy⟩
    · rintro ⟨before, y, after, bs, w₂, hl, hbefore, hy⟩
      cases before with
      | nil =>
        obtain ⟨rfl, rfl⟩ := List.cons.inj hl
        obtain ⟨-, rfl⟩ := yields_mapM_nil.mp hbefore
        exact .inl hy
      | cons z before =>
        obtain ⟨rfl, rfl⟩ := List.cons.inj hl
        obtain ⟨b, bs', w₁, hx, hbefore, -⟩ := yields_mapM_cons.mp hbefore
        exact .inr ⟨b, w₁, hx, ih.mpr ⟨before, y, after, bs', w₂, rfl, hbefore, hy⟩⟩

end Lists

/-! ## Outcomes -/

/-- How a pass ended that stopped. -/
theorem outcome_error {p : Pass Unit} {t : Tree} :
    (p.outcome t).result = .error e ↔ ∃ w', Stops p { tree := t } e w' ∧ w'.tree = (p.outcome t).tree := by
  simp only [outcome, Stops]
  rcases p.run.run { tree := t } with ⟨r, w'⟩
  constructor
  · rintro rfl
    exact ⟨w', rfl, rfl⟩
  · rintro ⟨w'', h, -⟩
    cases h
    rfl

end Penumbra.Pass
