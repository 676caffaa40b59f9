/-
Running passes.

`Yields p w a w'` says that the pass `p`, started on `w`, comes to its end
without a fault, answers `a` and leaves `w'`. A pass is taken apart along its
steps with the equivalences below, which read the same in both directions:
what a run that ended did, and what has to be shown for a run to end.
-/
import Penumbra.Erase.Pass
import Mathlib.Data.List.Basic

namespace Penumbra.Pass

variable {α β : Type} {p : Pass α} {f : α → Pass β} {w w' : Work} {a : α} {b : β}

/-- The pass ends without a fault, with this answer and this work left. -/
def Yields (p : Pass α) (w : Work) (a : α) (w' : Work) : Prop :=
  p.run.run w = (.ok a, w')

@[simp] theorem yields_pure {a' : α} : Yields (pure a) w a' w' ↔ a = a' ∧ w = w' := by
  simp only [Yields, ExceptT.run_pure, StateT.run_pure]
  constructor
  · intro h; cases h; exact ⟨rfl, rfl⟩
  · rintro ⟨rfl, rfl⟩; rfl

@[simp] theorem yields_bind :
    Yields (p >>= f) w b w' ↔ ∃ a w₁, Yields p w a w₁ ∧ Yields (f a) w₁ b w' := by
  simp only [Yields, ExceptT.run_bind, StateT.run_bind]
  rcases h : p.run.run w with ⟨_ | a, w₁⟩
  · constructor
    · intro h'; cases h'
    · rintro ⟨a, w₁, h', -⟩; cases h'
  · constructor
    · exact fun h' => ⟨a, w₁, rfl, h'⟩
    · rintro ⟨a', w₁', h', h''⟩; cases h'; exact h''

@[simp] theorem not_yields_throw {e : Fault} : ¬ Yields (throw e : Pass α) w a w' := by
  intro h; cases h

@[simp] theorem yields_tree {t : Tree} : Yields tree w t w' ↔ w.tree = t ∧ w = w' := by
  constructor
  · intro h; cases h; exact ⟨rfl, rfl⟩
  · rintro ⟨rfl, rfl⟩; rfl

@[simp] theorem yields_modifyTree {g : Tree → Tree} {u : Unit} :
    Yields (modifyTree g) w u w' ↔ w' = { w with tree := g w.tree } := by
  constructor
  · intro h; cases h; rfl
  · rintro rfl; rfl

@[simp] theorem yields_build {g : Build α} :
    Yields (build g) w a w' ↔ a = (g.run w.tree).1 ∧ w' = { w with tree := (g.run w.tree).2 } := by
  constructor
  · intro h; cases h; exact ⟨rfl, rfl⟩
  · rintro ⟨rfl, rfl⟩; rfl

@[simp] theorem yields_note {n : Note} {u : Unit} :
    Yields (note n) w u w' ↔ w' = { w with log := w.log ++ [n] } := by
  constructor
  · intro h; cases h; rfl
  · rintro rfl; rfl

@[simp] theorem yields_ofExcept {e : Except Fault α} :
    Yields (ofExcept e) w a w' ↔ e = .ok a ∧ w = w' := by
  cases e with
  | ok a' => simp only [ofExcept, yields_pure, Except.ok.injEq]
  | error e => simp [ofExcept]

/-! ## Over a list -/

section Lists

variable {g : α → Pass β} {x : α} {l : List α} {bs : List β}

@[simp] theorem yields_mapM_nil : Yields (([] : List α).mapM g) w bs w' ↔ bs = [] ∧ w = w' := by
  simp

theorem yields_mapM_cons :
    Yields ((x :: l).mapM g) w bs w' ↔
      ∃ b bs' w₁, Yields (g x) w b w₁ ∧ Yields (l.mapM g) w₁ bs' w' ∧ bs = b :: bs' := by
  simp only [List.mapM_cons, yields_bind, yields_pure]
  constructor
  · rintro ⟨b, w₁, hb, bs', w₂, hbs, rfl, rfl⟩; exact ⟨b, bs', w₁, hb, hbs, rfl⟩
  · rintro ⟨b, bs', w₁, hb, hbs, rfl⟩; exact ⟨b, w₁, hb, bs', w', hbs, rfl, rfl⟩

end Lists

/-! ## Trees only

No pass reads the notes, so what it does to a tree does not depend on them. -/

/-- The pass ends without a fault, with this answer and this tree left. -/
def Leads (p : Pass α) (w : Work) (a : α) (t' : Tree) : Prop :=
  ∃ w', Yields p w a w' ∧ w'.tree = t'

end Penumbra.Pass

namespace Penumbra

/-- One change of a tree after the other, for each entry of a list. -/
inductive Chain {α : Type} (R : α → Tree → Tree → Prop) : List α → Tree → Tree → Prop where
  | nil {t} : Chain R [] t t
  | cons {x l t t₁ t'} (first : R x t t₁) (rest : Chain R l t₁ t') : Chain R (x :: l) t t'

end Penumbra

namespace Penumbra.Pass

variable {α β : Type} {p : Pass α} {w : Work} {t' : Tree}

theorem leads_tree_bind {f : Tree → Pass α} {a : α} : Leads (tree >>= f) w a t' ↔ Leads (f w.tree) w a t' := by
  simp only [Leads, yields_bind, yields_tree]
  constructor
  · rintro ⟨w', ⟨_, _, ⟨rfl, rfl⟩, h⟩, rfl⟩
    exact ⟨w', h, rfl⟩
  · rintro ⟨w', h, rfl⟩
    exact ⟨w', ⟨_, _, ⟨rfl, rfl⟩, h⟩, rfl⟩

theorem leads_mapM {g : α → Pass β} {R : α → Tree → Tree → Prop} {l : List α}
    (h : ∀ x ∈ l, ∀ w t', (∃ b, Leads (g x) w b t') ↔ R x w.tree t') :
    (∃ bs, Leads (l.mapM g) w bs t') ↔ Chain R l w.tree t' := by
  induction l generalizing w with
  | nil =>
    constructor
    · rintro ⟨_, _, hw, rfl⟩
      obtain ⟨-, rfl⟩ := yields_mapM_nil.mp hw
      exact .nil
    · intro hc
      cases hc
      exact ⟨[], w, yields_mapM_nil.mpr ⟨rfl, rfl⟩, rfl⟩
  | cons x l ih =>
    have ih' := fun w => @ih w fun y hy => h y (by simp [hy])
    constructor
    · rintro ⟨_, w', hw, rfl⟩
      obtain ⟨b, bs, w₁, hx, hl, -⟩ := yields_mapM_cons.mp hw
      exact .cons ((h x (by simp) w w₁.tree).mp ⟨b, w₁, hx, rfl⟩) ((ih' w₁).mp ⟨bs, w', hl, rfl⟩)
    · intro hc
      cases hc with
      | cons first rest =>
        obtain ⟨b, w₁, hx, rfl⟩ := (h x (by simp) w _).mpr first
        obtain ⟨bs, w', hl, rfl⟩ := (ih' w₁).mpr rest
        exact ⟨b :: bs, w', yields_mapM_cons.mpr ⟨b, bs, w₁, hx, hl, rfl⟩, rfl⟩

/-! ## Outcomes -/

/-- How a pass ended that ended without a fault. -/
theorem outcome_ok {p : Pass Unit} {t : Tree} :
    (p.outcome t).result = .ok () ↔ Leads p { tree := t } () (p.outcome t).tree := by
  simp only [outcome, Leads, Yields]
  rcases p.run.run { tree := t } with ⟨r, w'⟩
  constructor
  · rintro rfl; exact ⟨w', rfl, rfl⟩
  · rintro ⟨w'', h, -⟩; cases h; rfl

theorem outcome_of_leads {p : Pass Unit} {t : Tree} (h : Leads p { tree := t } () t') :
    (p.outcome t).result = .ok () ∧ (p.outcome t).tree = t' := by
  obtain ⟨w', h, rfl⟩ := h
  rw [Yields] at h
  simp only [outcome, h, and_self]

end Penumbra.Pass
