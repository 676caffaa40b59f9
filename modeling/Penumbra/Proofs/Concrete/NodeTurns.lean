/-
What the second pass has done when it comes to a node.

A node whose turn has not come is as it was in the input, and so is all below it
(`Intact`), up to the identifiers that a declaration around them has already
taken care of. So what is wrong with a node, and what is changed at it, can be
read off the input. `NodeWalked` says once what the turn of such a node does to its
child list: some children have been dealt with, others have taken their place,
and those kept are intact in turn. `Walked.turn` puts it together with the walk
over the children.
-/
import Penumbra.Proofs.Concrete.WalkOutcomes
import Penumbra.Proofs.Tree.Owned
import Penumbra.Proofs.Concrete.AccessNodes

namespace Penumbra

open Tree

namespace Tree

variable {t u u' : Tree} {x y c : Nat} {e : Fault}

/-! ## Intact nodes -/

section Congruence

variable (h : SameBelow x t u)
include h

theorem SameBelow.symm : SameBelow x u t := fun y hy => (h y (h.reaches_iff.mp hy)).symm

theorem SameBelow.kind (hy : t.Reaches x y) : u.kind y = t.kind y := congrArg Node.kind (h y hy)

theorem SameBelow.span (hy : t.Reaches x y) : u.span y = t.span y := congrArg Node.span (h y hy)

theorem SameBelow.token? (hy : t.Reaches x y) : u.token? y = t.token? y := congrArg Kind.token? (h.kind hy)

theorem SameBelow.shadow? (hy : t.Reaches x y) : u.shadow? y = t.shadow? y :=
  congrArg (fun m : Node => m.ty.bind Ty.shadow?) (h y hy)

theorem SameBelow.selects (hy : t.Reaches x y) : u.selects y = t.selects y := by
  rw [Tree.selects, Tree.selects, h.kind hy]

variable (htypes : u.env.getType? = t.env.getType?)
include htypes

theorem SameBelow.declaredShadow? {owner ascription : Nat} (ho : t.Reaches x owner) (ha : t.Reaches x ascription) :
    u.declaredShadow? owner ascription = t.declaredShadow? owner ascription := by
  simp only [Tree.declaredShadow?, Tree.declaredTy?, Tree.ty, Tree.scope, h owner ho, h ascription ha, h.token? ha, htypes]

theorem SameBelow.shadowDecl? : u.shadowDecl? x = t.shadowDecl? x := by
  have hx := Reaches.refl t x
  have hchild : ∀ a ∈ t.children x, u.declaredShadow? x a = t.declaredShadow? x a := fun a ha =>
    h.declaredShadow? htypes hx (Reaches.tail hx ha)
  unfold Tree.shadowDecl?
  rw [h.kind hx]
  split
  next name a hk => rw [hchild a (by simp [Tree.children, hk, Kind.children])]
  next name a init hk => rw [hchild a (by simp [Tree.children, hk, Kind.children])]
  next => rw [h.shadow? hx]
  next => rfl

theorem SameBelow.change? : u.change? x = t.change? x := by
  have hx := Reaches.refl t x
  unfold Tree.change?
  rw [h.kind hx, h.shadowDecl? htypes, h.shadow? hx]
  split
  next operand first rest hk =>
    have ho : t.Reaches x operand := Reaches.tail hx (by simp [Tree.children, hk, Kind.children])
    have hf : t.Reaches x first := Reaches.tail hx (by simp [Tree.children, hk, Kind.children])
    rw [h.shadow? ho, h.selects hf]
  next => rfl
  next => rfl
  next => rfl
  next => rfl

/-- What is wrong with a node depends on what is below it and on what type names
stand for. -/
theorem Faulty.congr (hfault : t.Faulty x e) : u.Faulty x e := by
  have hx := Reaches.refl t x
  have hchild : ∀ {c}, c ∈ t.children x → t.Reaches x c := fun hc => Reaches.tail hx hc
  -- the operand, the first step and the field of a chain
  have hchain : ∀ {operand first field : Nat} {rest : List NodeId}, t.kind x = .factor operand (first :: rest) →
      t.kind first = .selector field → t.Reaches x operand ∧ t.Reaches x first ∧ t.Reaches x field := by
    intro operand first field rest hk hsel
    have hfirst : t.Reaches x first := hchild (by simp [Tree.children, hk, Kind.children])
    exact ⟨hchild (by simp [Tree.children, hk, Kind.children]), hfirst,
      hfirst.tail (by simp [Tree.children, hsel, Kind.children])⟩
  cases hfault with
  | @emptyChain operand s kind shadow =>
    have ho : t.Reaches x operand := hchild (by simp [Tree.children, kind, Kind.children])
    rw [← h.span hx]
    exact .emptyChain ((h.kind hx).trans kind) ((h.shadow? ho).trans shadow)
  | @field operand first rest s field kind shadow selector unnamed =>
    obtain ⟨ho, hf, hfield⟩ := hchain kind selector
    rw [← h.span hfield, ← h.kind hfield]
    exact .field ((h.kind hx).trans kind) ((h.shadow? ho).trans shadow) ((h.kind hf).trans selector)
      ((h.token? hfield).trans unnamed)
  | @operand operand first rest s field token kind shadow selector named unnamed =>
    obtain ⟨ho, hf, hfield⟩ := hchain kind selector
    rw [← h.span ho, ← h.kind ho]
    exact .operand ((h.kind hx).trans kind) ((h.shadow? ho).trans shadow) ((h.kind hf).trans selector)
      ((h.kind hfield).trans named) ((h.token? ho).trans unnamed)
  | @unknown operand first rest s field token var kind shadow selector named root unknown =>
    obtain ⟨ho, hf, hfield⟩ := hchain kind selector
    rw [← h.span hf, ← h.span hx]
    exact .unknown ((h.kind hx).trans kind) ((h.shadow? ho).trans shadow) ((h.kind hf).trans selector)
      ((h.kind hfield).trans named) ((h.kind ho).trans root) unknown
  | @ascription name a s decl unnamed =>
    have ha := hchild ((children_shadowDecl decl).2 a rfl)
    rw [unexpected, ← h.kind ha, ← h.span ha]
    exact .ascription ((h.shadowDecl? htypes).trans decl) ((h.token? ha).trans unnamed)
  | @name name ascription s decl written unnamed =>
    have hn := hchild (children_shadowDecl decl).1
    have hrole : t.nameRole x = u.nameRole x := by rw [nameRole, nameRole, h.kind hx]
    rw [← h.kind hn, ← h.span hn, hrole]
    refine .name ((h.shadowDecl? htypes).trans decl) (fun a ha => ?_) ((h.token? hn).trans unnamed)
    rw [h.kind (hchild ((children_shadowDecl decl).2 a ha))]
    exact written a ha

end Congruence

/-- The turn of `x` and of all below it is still to come: there `u` is as the input
`t` was. -/
structure Intact (x : NodeId) (t u : Tree) : Prop where
  size_le : t.size ≤ u.size
  below : SameBelow x t u
  types : u.env.getType? = t.env.getType?

namespace Intact

theorem refl (x : NodeId) (t : Tree) : Intact x t t := ⟨le_rfl, .refl x t, rfl⟩

theorem faulty (h : Intact x t u) : u.Faulty x e ↔ t.Faulty x e :=
  ⟨Faulty.congr h.below.symm h.types.symm, Faulty.congr h.below h.types⟩

/-- Work elsewhere leaves a node intact. -/
theorem worked {l : List NodeId} (h : Intact c t u) (hw : Worked l u u') (hlt : ∀ y, t.Reaches c y → y < t.size)
    (hnot : ∀ d ∈ l, ∀ y, t.Reaches c y → ¬ u.Reaches d y) : Intact c t u' := by
  refine ⟨h.size_le.trans hw.evolves.size_le, fun y hy => ?_, hw.types.trans h.types⟩
  rw [hw.apart y ((hlt y hy).trans_le h.size_le) fun d hd => hnot d hd y hy, h.below y hy]

end Intact

end Tree

/-! ## Walks that change nothing or little -/

theorem Tree.Plain.change? {t : Tree} {x : Nat} (h : t.Plain x) : t.change? x = .none := by
  unfold Tree.change?
  split
  next operand first rest hk =>
    refine if_neg fun hboth => ?_
    rw [Bool.and_eq_true] at hboth
    rcases h.chain operand _ hk with hnone | ⟨first', rest', heq, hsel⟩
    · simp [hnone] at hboth
    · obtain ⟨rfl, rfl⟩ := List.cons.inj heq
      unfold selects at hboth
      split at hboth
      next field hk' => exact hsel field hk'
      next => simp at hboth
  next => simp [h.decl]
  next => simp [h.decl]
  next token hk => simp [h.ident token hk]
  next => rfl

theorem Tree.Plain.not_faulty {t : Tree} {x : Nat} {e : Fault} (h : t.Plain x) : ¬ t.Faulty x e := by
  -- a chain on a variable of a shadow type has a first step that selects nothing
  have hchain : ∀ {operand first field : Nat} {rest : List NodeId} {s : Shadow Ty},
      t.kind x = .factor operand (first :: rest) → t.shadow? operand = .some s → t.kind first ≠ .selector field := by
    intro operand first field rest s hk hs hsel
    rcases h.chain operand _ hk with hnone | ⟨first', rest', heq, hno⟩
    · rw [hnone] at hs
      cases hs
    · obtain ⟨rfl, rfl⟩ := List.cons.inj heq
      exact hno field hsel
  intro hfault
  cases hfault with
  | @emptyChain operand s kind shadow =>
    rcases h.chain operand _ kind with hnone | ⟨_, _, heq, -⟩
    · rw [hnone] at shadow
      cases shadow
    · cases heq
  | field kind shadow selector => exact hchain kind shadow selector
  | operand kind shadow selector => exact hchain kind shadow selector
  | unknown kind shadow selector => exact hchain kind shadow selector
  | ascription decl => rw [h.decl] at decl; cases decl
  | name decl => rw [h.decl] at decl; cases decl

theorem NodeConcrete.eq_of_plain {t t' : Tree} {x : Nat} (h : NodeConcrete x t t') (hplain : t.Plain x) : t' = t := by
  cases h with
  | plain => rfl
  | @access operand first rest s field _ _ _ kind shadow selector =>
    rcases hplain.chain operand _ kind with hnone | ⟨first', rest', heq, hno⟩
    · rw [hnone] at shadow
      cases shadow
    · obtain ⟨rfl, rfl⟩ := List.cons.inj heq
      exact absurd selector (hno field)
  | declaration decl => rw [hplain.decl] at decl; cases decl
  | @identifier token s kind shadow =>
    rw [hplain.ident token kind] at shadow
    cases shadow

theorem Tree.not_faulty_of_leaf {t : Tree} {x : Nat} {e : Fault}
    (h : (∃ token, t.kind x = .ident token) ∨ t.selects x = true) : ¬ t.Faulty x e := by
  have hkind : (∀ operand steps, t.kind x ≠ .factor operand steps) ∧ t.shadowDecl? x = .none := by
    unfold shadowDecl?
    rcases h with ⟨token, hk⟩ | hsel
    · simp [hk]
    · unfold selects at hsel
      split at hsel
      next field hk => simp [hk]
      next => cases hsel
  intro hfault
  cases hfault with
  | emptyChain kind => exact hkind.1 _ _ kind
  | field kind => exact hkind.1 _ _ kind
  | operand kind => exact hkind.1 _ _ kind
  | unknown kind => exact hkind.1 _ _ kind
  | ascription decl => rw [hkind.2] at decl; cases decl
  | name decl => rw [hkind.2] at decl; cases decl

section Quiet

variable {t t' : Tree} {n x y : Nat} {l : List NodeId} {r : Except Fault (List Visit)}

/-- A walk through plain nodes comes to its end and changes nothing. -/
theorem Walked.of_plain (h : Walked n x t r t') (hplain : ∀ y, t.Reaches x y → t.Plain y) (hends : t.EndsWithin n x)
    (hsize : t.EndsWithin t.size x) : t' = t ∧ r = .ok ((t.subtree x).map fun y => ⟨y, .none⟩) := by
  induction n generalizing x r t' with
  | zero => exact hends.elim
  | succ n ih =>
    have hx := hplain x (.refl t x)
    rcases h with ⟨e, -, hhalt⟩ | ⟨t₁, r₁, hnode, hbelow, rfl⟩
    · exact absurd hhalt.faulty hx.not_faulty
    · obtain rfl := hnode.eq_of_plain hx
      have hlist : ∀ l t' r, (∀ c ∈ l, c ∈ t₁.children x) → Along (Walked n) l t₁ r t' →
          t' = t₁ ∧ r = .ok ((l.flatMap t₁.subtree).map fun y => ⟨y, .none⟩) := by
        intro l
        induction l with
        | nil =>
          intro t' r _ h
          cases h
          exact ⟨rfl, rfl⟩
        | cons c l ihl =>
          intro t' r hl h
          have hc := hl c List.mem_cons_self
          have hwalk := fun {r v} (hw : Walked n c t₁ r v) => ih hw (fun y hy => hplain y (.head hc hy)) (hends c hc)
            (hsize.child hc)
          cases h with
          | cons first rest =>
            obtain ⟨rfl, hvs⟩ := hwalk first
            obtain ⟨rfl, rfl⟩ := ihl _ _ (fun d hd => hl d (List.mem_cons_of_mem _ hd)) rest
            cases hvs
            simp [Except.map]
          | stop first => exact absurd (hwalk first).2 (by simp)
      obtain ⟨rfl, rfl⟩ := hlist _ _ _ (fun c hc => hc) hbelow
      rw [subtree_eq hsize, hx.change?]
      exact ⟨rfl, rfl⟩

/-- Plain nodes at the start of a list are gone through, and the walk goes on
with the rest of it. -/
theorem Along.of_plain {p : NodeId} {rest : List NodeId} (h : Along (Walked n) (p :: rest) t r t')
    (hplain : ∀ y, t.Reaches p y → t.Plain y) (hends : t.EndsWithin n p) (hsize : t.EndsWithin t.size p) :
    ∃ r₁, Along (Walked n) rest t r₁ t' ∧ r = r₁.map (((t.subtree p).map fun y => ⟨y, .none⟩) ++ ·) := by
  have hwalk := fun {r v} (hw : Walked n p t r v) => hw.of_plain hplain hends hsize
  cases h with
  | cons first rest =>
    obtain ⟨rfl, hvs⟩ := hwalk first
    cases hvs
    exact ⟨_, rest, rfl⟩
  | stop first => exact absurd (hwalk first).2 (by simp)

/-- At an identifier, at most its type changes. -/
theorem Walked.of_ident {token : String} (h : Walked (n + 1) x t r t') (hk : t.kind x = .ident token) :
    r = .ok [⟨x, t.change? x⟩] ∧ (∀ y, t'.kind y = t.kind y) ∧ (t.shadow? x = .none → t' = t) := by
  have hkind : ∀ {t₁}, NodeConcrete x t t₁ → (∀ y, t₁.kind y = t.kind y) ∧ (t.shadow? x = .none → t₁ = t) := by
    intro t₁ hnode
    cases hnode with
    | plain => exact ⟨fun _ => rfl, fun _ => rfl⟩
    | access kind => rw [hk] at kind; cases kind
    | declaration decl => simp [shadowDecl?, hk] at decl
    | identifier _ shadow =>
      refine ⟨fun y => by rw [setTy, kind_setTy?], fun hnone => ?_⟩
      rw [hnone] at shadow
      cases shadow
  rcases h with ⟨e, -, hhalt⟩ | ⟨t₁, r₁, hnode, hbelow, rfl⟩
  · exact absurd hhalt.faulty (not_faulty_of_leaf (.inl ⟨token, hk⟩))
  · rw [Tree.children, (hkind hnode).1 x, hk] at hbelow
    cases hbelow
    exact ⟨rfl, hkind hnode⟩

theorem Along.of_idents {kept : List NodeId} (h : Along (Walked (n + 1)) (l ++ kept) t r t')
    (hident : ∀ c ∈ l, ∃ token, t.kind c = .ident token) :
    ∃ v visits r₁, Worked l t v ∧ (∀ y, v.kind y = t.kind y) ∧ visits.map Visit.node = l ∧
      ((∀ c ∈ l, t.shadow? c = .none) → ∀ w ∈ visits, w.change = .none) ∧
      Along (Walked (n + 1)) kept v r₁ t' ∧ r = r₁.map (visits ++ ·) := by
  induction l generalizing t r with
  | nil =>
    refine ⟨t, [], r, .refl _ t, fun _ => rfl, rfl, fun _ w hw => absurd hw List.not_mem_nil, h, ?_⟩
    cases r <;> rfl
  | cons c l ih =>
    obtain ⟨token, hk⟩ := hident c List.mem_cons_self
    cases h with
    | @cons _ _ _ t₁ _ vs r₁ first rest =>
      obtain ⟨hvs, hkind, hsame⟩ := first.of_ident hk
      cases hvs
      obtain ⟨v, visits, r₂, hw, hkind', hnodes, hcalm, hrest, rfl⟩ := ih rest fun d hd => by
        rw [hkind d]
        exact hident d (List.mem_cons_of_mem _ hd)
      refine ⟨v, ⟨c, t.change? c⟩ :: visits, r₂, first.worked.trans hw, fun y => (hkind' y).trans (hkind y),
        by rw [List.map_cons, hnodes], fun hnone w hmem => ?_, hrest, by cases r₂ <;> rfl⟩
      have hc := hnone c List.mem_cons_self
      rcases List.mem_cons.mp hmem with rfl | hvisits
      · simp [Tree.change?, hk, hc]
      · obtain rfl := hsame hc
        exact hcalm (fun d hd => hnone d (List.mem_cons_of_mem _ hd)) w hvisits
    | stop first => exact absurd (first.of_ident hk).1 (by simp)

end Quiet

/-! ## The turn of a node -/

theorem Tree.eq_of_reaches_ident {t : Tree} {x y : Nat} {token : String} (hk : t.kind x = .ident token)
    (h : t.Reaches x y) : y = x := by
  rcases h.cases with rfl | ⟨c, hc, -⟩
  · rfl
  · rw [Tree.children, hk] at hc
    cases hc

/-- The turn of `x` also deals with `y`: with the operand of an access and all
below its first step, or with the name and the written type of a declaration. -/
def Tree.Handles (t : Tree) (x y : NodeId) : Prop :=
  (∃ operand first rest, t.kind x = .factor operand (first :: rest) ∧ (t.shadow? operand).isSome = true ∧
    t.selects first = true ∧ (y = operand ∨ t.Reaches first y)) ∨
  ∃ name ascription s, t.shadowDecl? x = .some (name, ascription, s) ∧ (y = name ∨ y ∈ ascription)

theorem Tree.Handles.change? {t : Tree} {x y : Nat} (h : t.Handles x y) :
    ∃ c, t.change? x = .some c ∧ c ≠ .identifier := by
  rcases h with ⟨operand, first, rest, hk, hs, hsel, -⟩ | ⟨name, ascription, s, hd, -⟩
  · exact ⟨.access, by simp [Tree.change?, hk, hs, hsel], by decide⟩
  · rcases kind_of_shadowDecl hd with ⟨a, hk⟩ | ⟨a, init, hk⟩
    · exact ⟨.binder, by simp [Tree.change?, hk, hd], by decide⟩
    · exact ⟨.declaration, by simp [Tree.change?, hk, hd], by decide⟩

theorem Tree.handles_access_iff {t : Tree} {x y operand first : Nat} {rest : List NodeId} {s : Shadow Ty} {var : String}
    (kind : t.kind x = .factor operand (first :: rest)) (shadow : t.shadow? operand = .some s)
    (hsel : t.selects first = true) (root : t.kind operand = .ident var) :
    t.Handles x y ↔ ∃ c ∈ [operand, first], t.Reaches c y := by
  refine ⟨fun h => ?_, fun h => ?_⟩
  · rcases h with ⟨o, f, l, hk, -, -, hy⟩ | ⟨name, a, s', hd, -⟩
    · rw [kind] at hk
      cases hk
      rcases hy with rfl | hy
      · exact ⟨y, by simp, .refl t y⟩
      · exact ⟨first, by simp, hy⟩
    · simp [shadowDecl?, kind] at hd
  · obtain ⟨c, hc, hy⟩ := h
    refine .inl ⟨operand, first, rest, kind, by simp [shadow], hsel, ?_⟩
    simp only [List.mem_cons, List.not_mem_nil, or_false] at hc
    rcases hc with rfl | rfl
    · exact .inl (eq_of_reaches_ident root hy)
    · exact .inr hy

theorem Tree.handles_declaration_iff {t : Tree} {x y name : Nat} {ascription : Option NodeId} {s : Shadow Ty}
    (decl : t.shadowDecl? x = .some (name, ascription, s))
    (hidents : ∀ c ∈ name :: ascription.toList, ∃ old, t.kind c = .ident old) :
    t.Handles x y ↔ ∃ c ∈ name :: ascription.toList, t.Reaches c y := by
  refine ⟨fun h => ?_, fun h => ?_⟩
  · rcases h with ⟨o, f, l, hk, -⟩ | ⟨name', a', s', hd, hy⟩
    · simp [shadowDecl?, hk] at decl
    · rw [decl] at hd
      simp only [Option.some.injEq, Prod.mk.injEq] at hd
      obtain ⟨rfl, rfl, rfl⟩ := hd
      exact ⟨y, by simpa using hy, .refl t y⟩
  · obtain ⟨c, hc, hy⟩ := h
    obtain ⟨old, hk⟩ := hidents c hc
    obtain rfl := eq_of_reaches_ident hk hy
    exact .inr ⟨name, ascription, s, decl, by simpa using hc⟩

/-- The turn of `x` is over, and that of its children `kept` begins. The
children `done` have been dealt with; what stands in their place now was gone
through in the visits `quiet`. -/
structure NodeWalked (x : NodeId) (t u v : Tree) (done kept : List NodeId) (quiet : List Visit) : Prop where
  worked : Worked [x] u v
  children : t.children x = done ++ kept
  intact : ∀ c ∈ kept, Intact c t v
  leaf : ∀ c ∈ done, ∀ y, t.Reaches c y → (∃ token, t.kind y = .ident token) ∨ t.selects y = true
  handles : ∀ y, t.Handles x y ↔ ∃ c ∈ done, t.Reaches c y
  others : ∀ y < u.size, y ≠ x → y ∉ done → v.node y = u.node y
  chain : v.kind x = t.kind x ∨ ∃ operand first rest s p, t.kind x = .factor operand (first :: rest) ∧
    t.shadow? operand = .some s ∧ u.size ≤ p ∧ v.kind x = .factor p rest
  written : ∀ c ∈ done, v.kind c = t.kind c ∨ ∃ name s old, t.shadowDecl? x = .some (name, .some c, s) ∧
    t.kind c = .ident old ∧ v.kind c = .ident s.shadowedName
  order : ∃ replaced, v.children x = replaced ++ kept ∧ v.Ordered replaced (quiet.map Visit.node)
  visits : ∀ y ∈ quiet.map Visit.node, y ∈ done ∨ u.size ≤ y ∧ y < v.size
  nodup : (quiet.map Visit.node).Nodup
  calm : (∀ name a s, t.shadowDecl? x = .some (name, a, s) → s.shadowedTy.isShadow = false) →
    ∀ w ∈ quiet, w.change = .none

section Node

variable {t u u₁ u' : Tree} {n x : Nat} {r : Except Fault (List Visit)} (hr : t.Rooted)
  (hx : t.Reachable x) (hu : Intact x t u)
include hr hx hu

/-- A change at `x` and at some of its children leaves the other children intact. -/
theorem Intact.kept {v : Tree} {l done kept : List NodeId} (hw : Worked l u v) (hchildren : t.children x = done ++ kept)
    (hothers : ∀ y < u.size, y ≠ x → y ∉ done → v.node y = u.node y) : ∀ c ∈ kept, Intact c t v := by
  intro c hc
  have hcx : c ∈ t.children x := by
    rw [hchildren]
    exact List.mem_append_right _ hc
  refine ⟨hu.size_le.trans hw.evolves.size_le, fun y hy => ?_, hw.types.trans hu.types⟩
  have hxy : t.Reaches x y := .head hcx hy
  have hyx : y ≠ x := fun he => hr.not_reaches_self hx hcx (he ▸ hy)
  have hdone : y ∉ done := fun hmem => by
    -- the children are apart, so `y` would be `c` itself
    have hyc : y ∈ t.children x := by
      rw [hchildren]
      exact List.mem_append_left _ hmem
    have hnodup := hr.nodup x hx
    rw [hchildren] at hnodup
    exact (List.nodup_append.mp hnodup).2.2 y hmem c hc (hr.disjoint hx hyc hcx (.refl t y) hy)
  rw [hothers y ((hr.bounded y (Reaches.trans hx hxy)).trans_le hu.size_le) hyx hdone, hu.below y hxy]

/-- At a node that is left alone, or at an identifier, no child is dealt with. -/
theorem NodeWalked.of_quiet (hw : Worked [x] u u₁) (hnode : ∀ y, y ≠ x → u₁.node y = u.node y) (hkind : u₁.kind x = u.kind x)
    (hno : ∀ y, ¬ t.Handles x y) : NodeWalked x t u u₁ [] (t.children x) [] where
  worked := hw
  children := rfl
  intact := Intact.kept hr hx hu hw (List.nil_append _).symm fun y _ hyx _ => hnode y hyx
  leaf c hc := absurd hc List.not_mem_nil
  handles y := by simp [hno y]
  others y _ hyx _ := hnode y hyx
  chain := .inl (hkind.trans (hu.below.kind (.refl t x)))
  written c hc := absurd hc List.not_mem_nil
  order := ⟨[], by rw [Tree.children, hkind, hu.below.kind (.refl t x)]; rfl, .nil⟩
  visits y hy := absurd hy List.not_mem_nil
  nodup := .nil
  calm _ w hw := absurd hw List.not_mem_nil

theorem NodeWalked.of_access {v : Tree} {operand first fieldId p : Nat} {rest : List NodeId} {s : Shadow Ty}
    {field var : String} (kind : t.kind x = .factor operand (first :: rest)) (shadow : t.shadow? operand = .some s)
    (selector : t.kind first = .selector fieldId) (token : t.kind fieldId = .ident field)
    (root : t.kind operand = .ident var) (hw : Worked [x] u v) (hv : Spliced x rest p u v) :
    NodeWalked x t u v [operand, first] rest ((v.subtree p).map fun y => ⟨y, .none⟩) := by
  have hchildren : t.children x = operand :: first :: rest := by rw [Tree.children, kind]; rfl
  have hfirst : ∀ y, t.Reaches first y → y = first ∨ y = fieldId := fun y hy => by
    rcases hy.cases with rfl | ⟨c, hc, hcy⟩
    · exact .inl rfl
    · obtain rfl : c = fieldId := by
        rw [Tree.children, selector] at hc
        simpa [Kind.children] using hc
      exact .inr (eq_of_reaches_ident token hcy)
  have hsel : t.selects first = true := by rw [selects, selector]
  have hnodes : (((v.subtree p).map fun y => (⟨y, .none⟩ : Visit)).map Visit.node) = v.subtree p := by
    rw [List.map_map]
    exact List.map_id' _
  have hothers : ∀ y < u.size, y ≠ x → y ∉ [operand, first] → v.node y = u.node y := fun y hy hyx _ => hv.node y hy hyx
  refine ⟨hw, hchildren, Intact.kept hr hx hu hw hchildren hothers, fun c hc y hy => ?_,
    fun y => handles_access_iff kind shadow hsel root, hothers,
    .inr ⟨operand, first, rest, s, p, kind, shadow, (hv.new p (.refl v p)).1, hv.kind⟩, fun c hc => .inl ?_,
    ⟨[p], ?_, ?_⟩, fun y hy => .inr ?_, ?_, fun _ w hw => ?_⟩
  · simp only [List.mem_cons, List.not_mem_nil, or_false] at hc
    rcases hc with rfl | rfl
    · exact .inl ⟨var, eq_of_reaches_ident root hy ▸ root⟩
    · rcases hfirst y hy with rfl | rfl
      · exact .inr hsel
      · exact .inl ⟨field, token⟩
  · have hmem : c ∈ t.children x := by
      rw [hchildren]
      exact List.mem_append_left rest hc
    have hcx : c ≠ x := fun he => hr.not_reaches_self hx hmem (he ▸ .refl t c)
    have hlt := (hr.bounded c (Reaches.tail hx hmem)).trans_le hu.size_le
    exact (congrArg Node.kind (hv.node c hlt hcx)).trans (hu.below.kind (.head hmem (.refl t c)))
  · rw [Tree.children, hv.kind]
    rfl
  · rw [hnodes]
    exact .subtree (hv.ends.mono hv.size)
  · rw [hnodes] at hy
    exact hv.new y (lists_pre.reaches hy)
  · rw [hnodes]
    exact hv.nodup
  · obtain ⟨y, -, rfl⟩ := List.mem_map.mp hw
    rfl

/-- The turn of the declaration `x` up to the children `kept`: it has been given its
concrete type, and its name and its written type have been gone through once more. -/
structure Redeclared (x : NodeId) (t u v : Tree) (name : NodeId) (ascription : Option NodeId) (s : Shadow Ty)
    (token : String) (kept : List NodeId) : Prop where
  decl : t.shadowDecl? x = .some (name, ascription, s)
  children : t.children x = name :: ascription.toList ++ kept
  written : ∀ a ∈ ascription, ∃ old, t.kind a = .ident old
  first : Worked [x] u (u.redeclared x name ascription s token)
  ident : ∀ c ∈ name :: ascription.toList, ∃ old, (u.redeclared x name ascription s token).kind c = .ident old
  rest : Worked (name :: ascription.toList) (u.redeclared x name ascription s token) v
  kind : ∀ y, v.kind y = (u.redeclared x name ascription s token).kind y

namespace Redeclared

variable {v : Tree} {name c y : Nat} {ascription : Option NodeId} {s : Shadow Ty} {token : String} {kept : List NodeId}
  (h : Redeclared x t u v name ascription s token kept)
include h

omit hr hx hu in
theorem mem_children (hc : c ∈ name :: ascription.toList) : c ∈ t.children x := by
  rw [h.children]
  exact List.mem_append_left _ hc

theorem lt_size (hc : c ∈ name :: ascription.toList) : c < u.size :=
  (hr.bounded c (Reaches.tail hx (h.mem_children hc))).trans_le hu.size_le

omit hu in
theorem ne_self (hc : c ∈ name :: ascription.toList) : c ≠ x := fun he =>
  hr.not_reaches_self hx (h.mem_children hc) (he ▸ .refl t c)

omit hu in
theorem nodup : (name :: ascription.toList).Nodup := by
  have hnodup := hr.nodup x hx
  rw [h.children] at hnodup
  exact (List.nodup_append.mp hnodup).1

omit hu in
theorem name_ne : ascription ≠ .some name := fun ha =>
  (List.nodup_cons.mp (h.nodup hr hx)).1 (by simp [ha])

omit hr hx hu in
theorem kind_eq (y : Nat) :
    v.kind y = if ascription = .some y ∧ y < u.size then .ident s.shadowedName else u.kind y := by
  rw [h.kind, kind_redeclared, kind_reascribed]

theorem kind_self : v.kind x = t.kind x := by
  rw [h.kind_eq, if_neg, hu.below.kind (.refl t x)]
  exact fun he => h.ne_self hr hx (List.mem_cons_of_mem _ (by simpa using he.1)) rfl

omit hr hx hu in
theorem node_eq (hy : y < u.size) (hyx : y ≠ x) (hdone : y ∉ name :: ascription.toList) : v.node y = u.node y := by
  have hlt : y < (u.redeclared x name ascription s token).size := by rwa [size_redeclared]
  have hsplit : y ≠ name ∧ y ∉ ascription := by
    simp only [List.mem_cons, Option.mem_toList, not_or] at hdone
    exact hdone
  rw [h.rest.apart y hlt fun c hc hcy => hdone ?_, node_redeclared hyx hsplit.1 hsplit.2]
  obtain ⟨old, hk⟩ := h.ident c hc
  obtain rfl := eq_of_reaches_ident hk hcy
  exact hc

theorem worked : Worked [x] u v := by
  refine h.first.below (h.rest.mono fun c hc => ?_)
  have hsame : (u.redeclared x name ascription s token).children x = t.children x := by
    rw [Tree.children, ← h.kind, h.kind_self hr hx hu]
    rfl
  rw [hsame]
  exact h.mem_children hc

theorem exists_ident (hc : c ∈ name :: ascription.toList) : ∃ old, t.kind c = .ident old := by
  rcases List.mem_cons.mp hc with rfl | ha
  · obtain ⟨old, hk⟩ := h.ident c hc
    rw [← h.kind, h.kind_eq, if_neg fun he => h.name_ne hr hx he.1,
      hu.below.kind (Reaches.tail (.refl t x) (h.mem_children hc))] at hk
    exact ⟨old, hk⟩
  · exact h.written c (by simpa using ha)

theorem written_cases (hc : c ∈ name :: ascription.toList) : v.kind c = t.kind c ∨
    ∃ name s old, t.shadowDecl? x = .some (name, .some c, s) ∧ t.kind c = .ident old ∧
      v.kind c = .ident s.shadowedName := by
  rcases List.mem_cons.mp hc with rfl | ha
  · refine .inl ?_
    rw [h.kind_eq, if_neg fun he => h.name_ne hr hx he.1,
      hu.below.kind (Reaches.tail (.refl t x) (h.mem_children hc))]
  · obtain rfl : ascription = .some c := by simpa using ha
    obtain ⟨old, hk⟩ := h.written c rfl
    exact .inr ⟨name, s, old, h.decl, hk, by rw [h.kind_eq, if_pos ⟨rfl, h.lt_size hr hx hu hc⟩]⟩

end Redeclared

theorem NodeWalked.of_declaration {v : Tree} {name : Nat} {ascription : Option NodeId} {s : Shadow Ty} {token : String}
    {kept : List NodeId} {visits : List Visit} (h : Redeclared x t u v name ascription s token kept)
    (hnodes : visits.map Visit.node = name :: ascription.toList)
    (hcalm : (∀ c ∈ name :: ascription.toList, (u.redeclared x name ascription s token).shadow? c = .none) →
      ∀ w ∈ visits, w.change = .none) :
    NodeWalked x t u v (name :: ascription.toList) kept visits := by
  have hworked := h.worked hr hx hu
  have hothers : ∀ y < u.size, y ≠ x → y ∉ name :: ascription.toList → v.node y = u.node y := fun _ => h.node_eq
  have hidents : ∀ c ∈ name :: ascription.toList, ∃ old, t.kind c = .ident old := fun _ => h.exists_ident hr hx hu
  refine ⟨hworked, h.children, Intact.kept hr hx hu hworked h.children hothers,
    fun c hc y hy => .inl ?_, fun y => handles_declaration_iff h.decl hidents, hothers, .inl (h.kind_self hr hx hu),
    fun c hc => h.written_cases hr hx hu hc, ⟨name :: ascription.toList, ?_, ?_⟩, fun y hy => .inl (hnodes ▸ hy), ?_,
    fun hconcrete => ?_⟩
  · obtain ⟨old, hk⟩ := hidents c hc
    obtain rfl := eq_of_reaches_ident hk hy
    exact ⟨old, hk⟩
  · rw [Tree.children, h.kind_self hr hx hu]
    exact h.children
  · rw [hnodes]
    refine .leaves fun c hc => ?_
    obtain ⟨old, hk⟩ := h.ident c hc
    rw [Tree.children, h.kind, hk]
    rfl
  · rw [hnodes]
    exact h.nodup hr hx
  · refine hcalm fun c hc => ?_
    refine shadow?_of_ty (ty_redeclared_of_mem (h.lt_size hr hx hu hc) (.inr ?_)) (hconcrete name ascription s h.decl)
    simpa using hc

end Node

theorem Tree.children_of_shadowDecl {t : Tree} {x name : NodeId} {ascription : Option NodeId} {s : Shadow Ty}
    (h : t.shadowDecl? x = .some (name, ascription, s)) : ∃ kept, t.children x = name :: ascription.toList ++ kept := by
  rcases shadowDecl?_eq_some.mp h with ⟨a, rfl, hk, -⟩ | ⟨a, init, rfl, hk, -⟩ | ⟨init, rfl, hk, -⟩
  · exact ⟨[], by rw [Tree.children, hk]; rfl⟩
  · exact ⟨init.toList, by rw [Tree.children, hk]; rfl⟩
  · exact ⟨init.toList, by rw [Tree.children, hk]; rfl⟩

theorem NodeConcrete.not_faulty {t t' : Tree} {x : Nat} {e : Fault} (h : NodeConcrete x t t') : ¬ t.Faulty x e := by
  cases h with
  | plain hplain => exact hplain.not_faulty
  | identifier kind => exact not_faulty_of_leaf (.inl ⟨_, kind⟩)
  | access kind shadow selector token root known =>
    intro hfault
    cases hfault with
    | emptyChain kind' => rw [kind] at kind'; cases kind'
    | field kind' _ selector' unnamed =>
      rw [kind] at kind'
      cases kind'
      rw [selector] at selector'
      cases selector'
      rw [token?_eq_some.mpr token] at unnamed
      cases unnamed
    | operand kind' _ _ _ unnamed =>
      rw [kind] at kind'
      cases kind'
      rw [token?_eq_some.mpr root] at unnamed
      cases unnamed
    | unknown kind' shadow' selector' named _ unknown =>
      rw [kind] at kind'
      cases kind'
      rw [selector] at selector'
      cases selector'
      rw [token] at named
      cases named
      rw [shadow] at shadow'
      cases shadow'
      rw [known] at unknown
      cases unknown
    | ascription decl => simp [shadowDecl?, kind] at decl
    | name decl => simp [shadowDecl?, kind] at decl
  | @declaration name ascription s token decl written named =>
    have hfactor : ∀ operand steps, t.kind x ≠ .factor operand steps := fun operand steps hk => by
      simp [shadowDecl?, hk] at decl
    intro hfault
    cases hfault with
    | emptyChain kind => exact hfactor _ _ kind
    | field kind => exact hfactor _ _ kind
    | operand kind => exact hfactor _ _ kind
    | unknown kind => exact hfactor _ _ kind
    | ascription decl' unnamed =>
      rw [decl] at decl'
      cases decl'
      obtain ⟨old, hold⟩ := written _ rfl
      rw [token?_eq_some.mpr hold] at unnamed
      cases unnamed
    | name decl' _ unnamed =>
      rw [decl] at decl'
      cases decl'
      rw [kind_reascribed] at named
      split at named
      next hasc =>
        obtain ⟨old, hold⟩ := written name hasc.1
        rw [token?_eq_some.mpr hold] at unnamed
        cases unnamed
      next =>
        rw [token?_eq_some.mpr named] at unnamed
        cases unnamed

/-! ## The walk from a node -/

section Walk

variable {t u u' v : Tree} {n x : Nat} {l kept : List NodeId} {r : Except Fault (List Visit)} (hr : t.Rooted)
include hr

/-- The walk from a node leaves the nodes beside it intact. -/
theorem Walked.intact {c d : Nat} (h : Walked n c v r u') (hc : Intact c t v) (hd : Intact d t v) (hdr : t.Reachable d)
    (hapart : ∀ y, t.Reaches c y → ¬ t.Reaches d y) : Intact d t u' := by
  refine hd.worked h.worked (fun y hy => hr.bounded y (Reaches.trans hdr hy)) fun z hz y hy hzy => ?_
  obtain rfl := List.mem_singleton.mp hz
  exact hapart y (hc.below.reaches_iff.mp hzy) hy

/-- Nodes that lie side by side stay intact until their turns. -/
theorem Along.intact (h : Along (Walked n) l v r u') (hl : ∀ c ∈ l, t.Reachable c ∧ Intact c t v)
    (hapart : l.Pairwise fun a b => ∀ y, t.Reaches a y → ¬ t.Reaches b y) :
    Along (fun c u r u' => Intact c t u ∧ Walked n c u r u') l v r u' := by
  induction h with
  | nil => exact .nil
  | @cons c l v v₁ u' vs r first _ ih =>
    obtain ⟨hc, hrest⟩ := List.pairwise_cons.mp hapart
    have hci := (hl c List.mem_cons_self).2
    refine .cons ⟨hci, first⟩ (ih (fun d hd => ?_) hrest)
    obtain ⟨hdr, hdi⟩ := hl d (List.mem_cons_of_mem _ hd)
    exact ⟨hdr, first.intact hr hci hdi hdr (hc d hd)⟩
  | stop first => exact .stop ⟨(hl _ List.mem_cons_self).2, first⟩

/-- Once the turn of a node is over, the children kept are intact until theirs. -/
theorem NodeWalked.along {done : List NodeId} {quiet : List Visit} (h : NodeWalked x t u v done kept quiet)
    (hx : t.Reachable x) (hrest : Along (Walked n) kept v r u') :
    Along (fun c u r u' => Intact c t u ∧ Walked n c u r u') kept v r u' := by
  have hpair := hr.pairwise_children hx
  rw [h.children] at hpair
  refine hrest.intact hr (fun c hc => ⟨Reaches.tail hx ?_, h.intact c hc⟩) (List.pairwise_append.mp hpair).2.1
  rw [h.children]
  exact List.mem_append_right _ hc

/-- The turn of `x` is over, and the walk goes on with the children that are kept. -/
def Turned (n : Nat) (x : NodeId) (t u : Tree) (r : Except Fault (List Visit)) (u' : Tree) : Prop :=
  ∃ v done kept quiet r₁, NodeWalked x t u v done kept quiet ∧ Along (Walked n) kept v r₁ u' ∧ r = r₁.map (quiet ++ ·)

section Turned

variable {u₁ : Tree} (hx : t.Reachable x) (hu : Intact x t u)
include hx hu

theorem Turned.of_quiet (hw : Worked [x] u u₁) (hnode : ∀ y, y ≠ x → u₁.node y = u.node y) (hkind : u₁.kind x = u.kind x)
    (hno : ∀ y, ¬ t.Handles x y) (hbelow : Along (Walked n) (u₁.children x) u₁ r u') : Turned n x t u r u' := by
  have hchildren : u₁.children x = t.children x := by
    rw [Tree.children, hkind, hu.below.kind (.refl t x)]
    rfl
  rw [hchildren] at hbelow
  refine ⟨u₁, [], _, [], r, .of_quiet hr hx hu hw hnode hkind hno, hbelow, ?_⟩
  cases r <;> rfl

/-- What stands in the place of an access is gone through before the other steps. -/
theorem Turned.of_access {operand first fieldId : Nat} {rest : List NodeId} {s : Shadow Ty} {field var : String}
    {vf : VirtualField Ty} (hn : 4 ≤ n) (kind : u.kind x = .factor operand (first :: rest))
    (shadow : u.shadow? operand = .some s) (selector : u.kind first = .selector fieldId)
    (token : u.kind fieldId = .ident field) (root : u.kind operand = .ident var)
    (hw : Worked [x] u (u.accessed x s vf var rest))
    (hbelow : Along (Walked n) ((u.accessed x s vf var rest).children x) (u.accessed x s vf var rest) r u') :
    Turned n x t u r u' := by
  have kind' := (hu.below.kind (.refl t x)).symm.trans kind
  have ho : t.Reaches x operand := Reaches.tail (.refl t x) (by simp [Tree.children, kind', Kind.children])
  have hfirst : t.Reaches x first := Reaches.tail (.refl t x) (by simp [Tree.children, kind', Kind.children])
  have selector' := (hu.below.kind hfirst).symm.trans selector
  have hfield : t.Reaches x fieldId := hfirst.tail (by simp [Tree.children, selector', Kind.children])
  have hv := spliced_accessed s vf kind selector root
  generalize u.accessed x s vf var rest = v at hbelow hw hv
  generalize u.parenId x s vf var = p at hv
  have hturn := NodeWalked.of_access hr hx hu kind' ((hu.below.shadow? ho).symm.trans shadow) selector'
    ((hu.below.kind hfield).symm.trans token) ((hu.below.kind ho).symm.trans root) hw hv
  have hchildren : v.children x = p :: rest := by rw [Tree.children, hv.kind]; rfl
  rw [hchildren] at hbelow
  obtain ⟨r₁, hrest, rfl⟩ := hbelow.of_plain hv.plain (hv.ends.mono hn) (hv.ends.mono hv.size)
  exact ⟨v, _, rest, _, r₁, hturn, hrest, rfl⟩

/-- The name and the written type of a declaration are gone through before its value. -/
theorem Turned.of_declaration {name : Nat} {ascription : Option NodeId} {s : Shadow Ty} {token : String} (hn : 4 ≤ n)
    (decl : u.shadowDecl? x = .some (name, ascription, s)) (written : ∀ a ∈ ascription, ∃ old, u.kind a = .ident old)
    (named : (u.reascribed ascription s).kind name = .ident token)
    (hw : Worked [x] u (u.redeclared x name ascription s token))
    (hbelow : Along (Walked n) ((u.redeclared x name ascription s token).children x)
      (u.redeclared x name ascription s token) r u') : Turned n x t u r u' := by
  obtain ⟨m, rfl⟩ : ∃ m, n = m + 1 := ⟨n - 1, by omega⟩
  have decl' := (hu.below.shadowDecl? hu.types).symm.trans decl
  obtain ⟨kept, hchildren⟩ := children_of_shadowDecl decl'
  have hmem : ∀ a ∈ ascription, t.Reaches x a := fun a ha =>
    Reaches.tail (.refl t x) ((children_shadowDecl decl').2 a ha)
  have hident : ∀ c ∈ name :: ascription.toList,
      ∃ old, (u.redeclared x name ascription s token).kind c = .ident old := by
    intro c hc
    rw [kind_redeclared]
    rcases List.mem_cons.mp hc with rfl | ha
    · exact ⟨token, named⟩
    · have ha : c ∈ ascription := by simpa using ha
      have hlt : c < u.size := (hr.bounded c (Reaches.trans hx (hmem c ha))).trans_le hu.size_le
      exact ⟨s.shadowedName, by rw [kind_reascribed, if_pos ⟨ha, hlt⟩]⟩
  rw [children_redeclared written, hu.below.children_eq (.refl t x), hchildren] at hbelow
  obtain ⟨v, visits, r₁, hv, hkind, hnodes, hcalm, hrest, rfl⟩ := hbelow.of_idents hident
  have hdone : Redeclared x t u v name ascription s token kept :=
    ⟨decl', hchildren, fun a ha => hu.below.kind (hmem a ha) ▸ written a ha, hw, hident, hv, hkind⟩
  exact ⟨v, _, kept, visits, r₁, .of_declaration hr hx hu hdone hnodes hcalm, hrest, rfl⟩

theorem NodeConcrete.turned (hn : 4 ≤ n) (h : NodeConcrete x u u₁) (hbelow : Along (Walked n) (u₁.children x) u₁ r u') :
    Turned n x t u r u' := by
  have hchange := hu.below.change? hu.types
  have hw := h.worked
  cases h with
  | plain hplain =>
    refine .of_quiet hr hx hu hw (fun _ _ => rfl) rfl (fun y hy => ?_) hbelow
    obtain ⟨c, hc, -⟩ := hy.change?
    rw [← hchange, hplain.change?] at hc
    cases hc
  | @identifier token s kind shadow =>
    refine .of_quiet hr hx hu hw (fun y hy => ?_) (by rw [setTy, kind_setTy?]) (fun y hy => ?_) hbelow
    · rw [setTy, setTy?, node_update, if_neg fun h => hy h.1]
    · obtain ⟨c, hc, hne⟩ := hy.change?
      rw [← hchange] at hc
      simp only [Tree.change?, kind, shadow, Option.isSome_some, if_true, Option.some.injEq] at hc
      exact hne hc.symm
  | access kind shadow selector token root =>
    exact .of_access hr hx hu hn kind shadow selector token root hw hbelow
  | declaration decl written named => exact .of_declaration hr hx hu hn decl written named hw hbelow

end Turned

/-- What the walk from an intact node does: it stops there, or has its turn and
goes on with the children that are kept, each of them intact when it comes to
it. -/
theorem Walked.turn (hx : t.Reachable x) (hu : Intact x t u) (hn : 4 ≤ n) (h : Walked (n + 1) x u r u') :
    (∃ e, r = .error e ∧ NodeHalted x u e u') ∨
    ∃ v done kept quiet r₁, (∀ e, ¬ t.Faulty x e) ∧ NodeWalked x t u v done kept quiet ∧
      Along (fun c u r u' => Intact c t u ∧ Walked n c u r u') kept v r₁ u' ∧
      r = r₁.map fun visits => ⟨x, t.change? x⟩ :: (quiet ++ visits) := by
  rcases h with h | ⟨u₁, r₁, hnode, hbelow, rfl⟩
  · exact .inl h
  refine .inr ?_
  obtain ⟨v, done, kept, quiet, r₂, hturn, hrest, rfl⟩ := hnode.turned hr hx hu hn hbelow
  refine ⟨v, done, kept, quiet, r₂, fun e he => hnode.not_faulty (hu.faulty.mpr he), hturn, hturn.along hr hx hrest, ?_⟩
  rw [hu.below.change? hu.types]
  cases r₂ <;> rfl

end Walk

end Penumbra
