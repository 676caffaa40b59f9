/-
Runs of the second pass, whether they end or stop.

`Faulty` says what is wrong with a node that cannot be made concrete, and
`NodeHalted` what the pass has done to it when it stops there. A run of
`concreteDown` is `Walked`: it answers the visits made, each with the change
made there (`change?`), or the fault it stopped at. Either way it has worked
below the node it was started at and nowhere else (`Walked.worked`).
-/
import Penumbra.Proofs.Pass.Stops
import Penumbra.Proofs.Erase.OverlookedTypes

namespace Penumbra

open Tree

/-! ## One node -/

namespace Tree

variable (t : Tree) (x : NodeId)

/-- What the name of a binder or declaration is there for. -/
def nameRole : IdentRole :=
  match t.kind x with
  | .component .. => .binder
  | _ => .declaredVariable

/-- The node cannot be made concrete, and why. -/
inductive Faulty (t : Tree) (x : NodeId) : Fault → Prop where
  | emptyChain {operand s} (kind : t.kind x = .factor operand []) (shadow : t.shadow? operand = .some s) :
      Faulty t x ⟨.emptyChain s.name, t.span x⟩
  | field {operand first rest s field} (kind : t.kind x = .factor operand (first :: rest))
      (shadow : t.shadow? operand = .some s) (selector : t.kind first = .selector field)
      (unnamed : t.token? field = .none) :
      Faulty t x ⟨.expectedIdent .selectedField (t.kind field).name, t.span field⟩
  | operand {operand first rest s field token} (kind : t.kind x = .factor operand (first :: rest))
      (shadow : t.shadow? operand = .some s) (selector : t.kind first = .selector field)
      (named : t.kind field = .ident token) (unnamed : t.token? operand = .none) :
      Faulty t x ⟨.chainRoot s.name (t.kind operand).name, t.span operand⟩
  | unknown {operand first rest s field token var} (kind : t.kind x = .factor operand (first :: rest))
      (shadow : t.shadow? operand = .some s) (selector : t.kind first = .selector field)
      (named : t.kind field = .ident token) (root : t.kind operand = .ident var) (unknown : s.field? token = .none) :
      Faulty t x ⟨.lookup (.unknownField token s.name), (t.span first).or (t.span x)⟩
  | ascription {name a s} (decl : t.shadowDecl? x = .some (name, .some a, s)) (unnamed : t.token? a = .none) :
      Faulty t x (t.unexpected a .typeName)
  | name {name ascription s} (decl : t.shadowDecl? x = .some (name, ascription, s))
      (written : ∀ a ∈ ascription, ∃ old, t.kind a = .ident old) (unnamed : t.token? name = .none) :
      Faulty t x ⟨.expectedIdent (t.nameRole x) (t.kind name).name, t.span name⟩

/-- What is changed when the node is made concrete. -/
def change? : Option Change :=
  match t.kind x with
  | .factor operand (first :: _) => if (t.shadow? operand).isSome && t.selects first then .some .access else .none
  | .component _ _ => if (t.shadowDecl? x).isSome then .some .binder else .none
  | .varDecl _ _ _ => if (t.shadowDecl? x).isSome then .some .declaration else .none
  | .ident _ => if (t.shadow? x).isSome then .some .identifier else .none
  | _ => .none

end Tree

/-- Where the pass stops at a node, it leaves the tree as it was, or with the
types of a declaration replaced whose name it could not read. -/
inductive NodeHalted (x : NodeId) (t : Tree) : Fault → Tree → Prop where
  | untouched {e} (fault : t.Faulty x e) : NodeHalted x t e t
  | retyped {name ascription s} (decl : t.shadowDecl? x = .some (name, ascription, s))
      (written : ∀ a ∈ ascription, ∃ old, t.kind a = .ident old) (unnamed : t.token? name = .none) :
      NodeHalted x t ⟨.expectedIdent (t.nameRole x) (t.kind name).name, t.span name⟩
        (((t.reascribed ascription s).setTy x s.shadowedTy).setTy name s.shadowedTy)

theorem NodeHalted.faulty {x : NodeId} {t t' : Tree} {e : Fault} (h : NodeHalted x t e t') : t.Faulty x e := by
  cases h with
  | untouched fault => exact fault
  | retyped decl written unnamed => exact .name decl written unnamed

namespace Pass

variable {w w' : Work} {x : NodeId} {e : Fault}

theorem stops_replaceAccess {first : NodeId} {rest : List NodeId} {s : Shadow Ty} {field var : String}
    (h : Stops (replaceAccess x first rest s field var) w e w') :
    s.field? field = .none ∧
      e = ⟨.lookup (.unknownField field s.name), (w.tree.span first).or (w.tree.span x)⟩ ∧ w' = w := by
  simp only [replaceAccess, stops_tree_bind, Shadow.expand] at h
  cases hf : s.field? field with
  | none =>
    rw [hf] at h
    obtain ⟨rfl, rfl⟩ := stops_throw.mp h
    exact ⟨rfl, rfl, rfl⟩
  | some vf =>
    rw [hf] at h
    simp only [Shadow.run_expandField, Build.paren, Build.run_alloc, stops_bind, not_stops_modifyTree, not_stops_note,
      and_false, exists_false, or_false] at h

theorem stops_concreteChain {operand : NodeId} {steps : List NodeId} (hk : w.tree.kind x = .factor operand steps)
    (h : Stops (concreteChain x operand steps) w e w') : NodeHalted x w.tree e w'.tree := by
  simp only [concreteChain, stops_tree_bind] at h
  split at h
  next => exact (not_stops_pure h).elim
  next s hs =>
    split at h
    next =>
      obtain ⟨rfl, rfl⟩ := stops_throw.mp h
      exact .untouched (.emptyChain hk hs)
    next first rest =>
      split at h
      next field hfirst =>
        rcases stops_bind.mp h with h | ⟨token, _, hfield, h⟩
        · obtain ⟨htok, rfl⟩ := stops_ofExcept.mp h
          obtain ⟨hnone, rfl⟩ := tokenAs_error.mp htok
          exact .untouched (.field hk hs hfirst hnone)
        · obtain ⟨htok, rfl⟩ := yields_ofExcept.mp hfield
          have hnamed := tokenAs_ok.mp htok
          split at h
          next hroot =>
            obtain ⟨rfl, rfl⟩ := stops_throw.mp h
            exact .untouched (.operand hk hs hfirst hnamed hroot)
          next var hroot =>
            simp only [stops_bind, not_stops_pure, and_false, exists_false, or_false] at h
            obtain ⟨hunknown, rfl, rfl⟩ := stops_replaceAccess h
            exact .untouched (.unknown hk hs hfirst hnamed (token?_eq_some.mp hroot) hunknown)
      next => exact (not_stops_pure h).elim

/-- Where the written type could be replaced, the name is an identifier or not as
before. -/
theorem token?_reascribed {t : Tree} {name : NodeId} {ascription : Option NodeId} {s : Shadow Ty}
    (h : (t.reascribed ascription s).token? name = .none) :
    t.token? name = .none ∧ (t.reascribed ascription s).kind name = t.kind name := by
  rw [token?, kind_reascribed] at h
  rw [token?, kind_reascribed]
  split at h
  next => cases h
  next hne => exact ⟨h, if_neg hne⟩

theorem stops_redeclare {name : NodeId} {ascription : Option NodeId} {s : Shadow Ty}
    (decl : w.tree.shadowDecl? x = .some (name, ascription, s))
    (h : Stops (redeclare x name ascription s (w.tree.nameRole x)) w e w') : NodeHalted x w.tree e w'.tree := by
  -- what is left to do once the written type, if there is one, has been replaced
  have hrest : ∀ w₁ : Work, w₁.tree = w.tree.reascribed ascription s →
      (∀ a ∈ ascription, ∃ old, w.tree.kind a = .ident old) →
      Stops (do
        modifyTree fun t => (t.setTy x s.shadowedTy).setTy name s.shadowedTy
        let t ← tree
        let token ← ofExcept (t.tokenAs (w.tree.nameRole x) name)
        modifyTree (·.modifyEnv (·.set (t.scope x) token s.shadowedTy))
        return token) w₁ e w' → NodeHalted x w.tree e w'.tree := by
    intro w₁ hw₁ written h
    simp only [stops_bind, not_stops_pure, not_stops_modifyTree, yields_modifyTree, not_stops_tree, yields_tree,
      stops_ofExcept, false_or, or_false, and_false, exists_false] at h
    obtain ⟨_, _, rfl, _, _, ⟨rfl, rfl⟩, herror, rfl⟩ := h
    obtain ⟨hnone, rfl⟩ := tokenAs_error.mp herror
    have hkind : ((w₁.tree.setTy x s.shadowedTy).setTy name s.shadowedTy).kind name =
        (w.tree.reascribed ascription s).kind name := by simp [hw₁, setTy]
    have hspan : ((w₁.tree.setTy x s.shadowedTy).setTy name s.shadowedTy).span name = w.tree.span name := by
      cases ascription <;> simp [hw₁, setTy, reascribed]
    rw [token?, hkind] at hnone
    obtain ⟨hunnamed, hsame⟩ := token?_reascribed hnone
    rw [hkind, hsame, hspan, hw₁]
    exact .retyped decl written hunnamed
  cases ascription with
  | none => exact hrest w rfl (by simp) h
  | some a =>
    simp only [redeclare, stops_tree_bind, setToken?_eq] at h
    split at h
    next hnone =>
      split at hnone
      next => cases hnone
      next hold =>
        obtain ⟨rfl, rfl⟩ := stops_throw.mp h
        exact .untouched (.ascription decl (by simpa using hold))
    next t ht =>
      split at ht
      next hold =>
        obtain rfl := Option.some.inj ht
        obtain ⟨old, hold⟩ := Option.isSome_iff_exists.mp hold
        rcases stops_bind.mp h with h | ⟨_, w₁, hw₁, h⟩
        · exact (not_stops_modifyTree h).elim
        · obtain rfl := yields_modifyTree.mp hw₁
          refine hrest _ rfl (fun b hb => ?_) h
          obtain rfl : a = b := by simpa using hb
          exact ⟨old, token?_eq_some.mp hold⟩
      next => cases ht

theorem stops_concreteAs (name : NodeId) (ascription : Option NodeId) (role : IdentRole)
    (message : String → Shadow Ty → Note) (change : Change) (declared : Option (Shadow Ty))
    (hrole : role = w.tree.nameRole x) (hdecl : w.tree.shadowDecl? x = declared.map (name, ascription, ·))
    (h : Stops (concreteAs x name ascription role message change declared) w e w') : NodeHalted x w.tree e w'.tree := by
  subst hrole
  cases declared with
  | none => exact (not_stops_pure h).elim
  | some s =>
    simp only [concreteAs, stops_bind, not_stops_note, not_stops_pure, and_false, exists_false, or_false] at h
    exact stops_redeclare hdecl h

/-- Where and how the pass stops at a node. -/
theorem stops_concreteNode (h : Stops (concreteNode x) w e w') : NodeHalted x w.tree e w'.tree := by
  simp only [concreteNode, stops_tree_bind] at h
  split at h
  next operand steps hk => exact stops_concreteChain hk h
  next name ascription hk =>
    simp only [concreteComponent, stops_tree_bind] at h
    exact stops_concreteAs name (.some ascription) .binder (fun token s => .binder token s.name s.shadowedName) .binder
      (w.tree.declaredShadow? x ascription) (by simp [nameRole, hk]) (by simp [shadowDecl?, hk]) h
  next name ascription init hk =>
    simp only [concreteDecl, stops_tree_bind] at h
    cases ascription with
    | none =>
      exact stops_concreteAs name .none .declaredVariable (fun token s => .declaration token s.name s.shadowedName)
        .declaration (w.tree.shadow? x) (by simp [nameRole, hk]) (by simp [shadowDecl?, hk]) h
    | some a =>
      exact stops_concreteAs name (.some a) .declaredVariable
        (fun token s => .declaration token s.name s.shadowedName) .declaration (w.tree.declaredShadow? x a)
        (by simp [nameRole, hk]) (by simp [shadowDecl?, hk]) h
  next token hk =>
    simp only [concreteIdent, stops_tree_bind] at h
    split at h
    next => exact (not_stops_pure h).elim
    next => simp only [stops_bind, not_stops_modifyTree, not_stops_pure, and_false, exists_false, or_false] at h
  next => exact (not_stops_pure h).elim

theorem change_of_concreteChain {operand : NodeId} {steps : List NodeId} {c : Option Change}
    (hk : w.tree.kind x = .factor operand steps) (h : Yields (concreteChain x operand steps) w c w') :
    c = w.tree.change? x := by
  simp only [concreteChain, yields_bind, yields_tree] at h
  obtain ⟨_, _, ⟨rfl, rfl⟩, h⟩ := h
  unfold Tree.change?
  rw [hk]
  split at h
  next hs =>
    obtain ⟨rfl, -⟩ := yields_pure.mp h
    cases steps <;> simp [hs]
  next s hs =>
    split at h
    next => exact (not_yields_throw h).elim
    next first rest =>
      split at h
      next field hfirst =>
        simp only [yields_bind, yields_ofExcept] at h
        obtain ⟨token, _, -, h⟩ := h
        split at h
        next => exact (not_yields_throw h).elim
        next =>
          simp only [yields_bind, yields_pure] at h
          obtain ⟨_, _, -, rfl, -⟩ := h
          simp [hs, selects, hfirst]
      next hfirst =>
        obtain ⟨rfl, -⟩ := yields_pure.mp h
        have hno : w.tree.selects first = false := by
          unfold selects
          split
          next field hk' => exact absurd hk' (hfirst field)
          next => rfl
        simp [hno]

theorem change_of_concreteAs (name : NodeId) (ascription : Option NodeId) (role : IdentRole)
    (message : String → Shadow Ty → Note) (change : Change) (declared : Option (Shadow Ty)) {c : Option Change}
    (hdecl : w.tree.shadowDecl? x = declared.map (name, ascription, ·))
    (h : Yields (concreteAs x name ascription role message change declared) w c w') :
    c = if (w.tree.shadowDecl? x).isSome then .some change else .none := by
  rw [hdecl]
  cases declared with
  | none =>
    obtain ⟨rfl, -⟩ := yields_pure.mp h
    rfl
  | some s =>
    simp only [concreteAs, yields_bind, yields_pure] at h
    obtain ⟨_, _, -, _, _, -, rfl, -⟩ := h
    rfl

/-- What the pass answers for a node it makes concrete. -/
theorem change_of_concreteNode {c : Option Change} (h : Yields (concreteNode x) w c w') : c = w.tree.change? x := by
  simp only [concreteNode, yields_bind, yields_tree] at h
  obtain ⟨_, _, ⟨rfl, rfl⟩, h⟩ := h
  split at h
  next operand steps hk => exact change_of_concreteChain hk h
  next name ascription hk =>
    simp only [concreteComponent, yields_bind, yields_tree] at h
    obtain ⟨_, _, ⟨rfl, rfl⟩, h⟩ := h
    rw [Tree.change?, hk]
    exact change_of_concreteAs name (.some ascription) .binder (fun token s => .binder token s.name s.shadowedName)
      .binder (w.tree.declaredShadow? x ascription) (by simp [shadowDecl?, hk]) h
  next name ascription init hk =>
    simp only [concreteDecl, yields_bind, yields_tree] at h
    obtain ⟨_, _, ⟨rfl, rfl⟩, h⟩ := h
    rw [Tree.change?, hk]
    cases ascription with
    | none =>
      exact change_of_concreteAs name .none .declaredVariable
        (fun token s => .declaration token s.name s.shadowedName) .declaration (w.tree.shadow? x)
        (by simp [shadowDecl?, hk]) h
    | some a =>
      exact change_of_concreteAs name (.some a) .declaredVariable
        (fun token s => .declaration token s.name s.shadowedName) .declaration (w.tree.declaredShadow? x a)
        (by simp [shadowDecl?, hk]) h
  next token hk =>
    simp only [concreteIdent, yields_bind, yields_tree] at h
    obtain ⟨_, _, ⟨rfl, rfl⟩, h⟩ := h
    rw [Tree.change?, hk]
    split at h
    next hs =>
      obtain ⟨rfl, -⟩ := yields_pure.mp h
      simp [hs]
    next s hs =>
      simp only [yields_bind, yields_pure] at h
      obtain ⟨_, _, -, rfl, -⟩ := h
      simp [hs]
  next hfactor hcomponent hdecl hident =>
    obtain ⟨rfl, -⟩ := yields_pure.mp h
    unfold Tree.change?
    split
    next hk => exact absurd hk (hfactor _ _)
    next hk => exact absurd hk (hcomponent _ _)
    next hk => exact absurd hk (hdecl _ _ _)
    next hk => exact absurd hk (hident _)
    next => rfl

end Pass

/-! ## All below a node -/

/-- One walk after the other, for each node of a list, up to the first that
stops. -/
inductive Along (R : NodeId → Tree → Except Fault (List Visit) → Tree → Prop) :
    List NodeId → Tree → Except Fault (List Visit) → Tree → Prop where
  | nil {t} : Along R [] t (.ok []) t
  | cons {x l t t₁ t' vs r} (first : R x t (.ok vs) t₁) (rest : Along R l t₁ r t') :
      Along R (x :: l) t (r.map (vs ++ ·)) t'
  | stop {x l t t' e} (first : R x t (.error e) t') : Along R (x :: l) t (.error e) t'

/-- What making `x` and all below it concrete does to a tree, and what it
answers: the visits, or the fault that it stops at. -/
def Walked : Nat → NodeId → Tree → Except Fault (List Visit) → Tree → Prop
  | 0, _, t, r, t' => r = .error ⟨.circle, .none⟩ ∧ t' = t
  | n + 1, x, t, r, t' => (∃ e, r = .error e ∧ NodeHalted x t e t') ∨
      ∃ t₁ r₁, NodeConcrete x t t₁ ∧ Along (Walked n) (t₁.children x) t₁ r₁ t' ∧
        r = r₁.map (⟨x, t.change? x⟩ :: ·)

namespace Pass

variable {w w' : Work} {x : NodeId} {e : Fault}

section List

variable {g : NodeId → Pass (List Visit)} {R : NodeId → Tree → Except Fault (List Visit) → Tree → Prop} {l : List NodeId}
  (hy : ∀ x w vs w', Yields (g x) w vs w' → R x w.tree (.ok vs) w'.tree)
include hy

theorem along_of_yields {below : List (List Visit)} (h : Yields (l.mapM g) w below w') :
    Along R l w.tree (.ok below.flatten) w'.tree := by
  induction l generalizing w below with
  | nil =>
    obtain ⟨rfl, rfl⟩ := yields_mapM_nil.mp h
    exact .nil
  | cons x l ih =>
    obtain ⟨vs, below, w₁, hx, hl, rfl⟩ := yields_mapM_cons.mp h
    exact .cons (hy x w vs w₁ hx) (ih hl)

theorem along_of_stops (hs : ∀ x w e w', Stops (g x) w e w' → R x w.tree (.error e) w'.tree)
    (h : Stops (l.mapM g) w e w') : Along R l w.tree (.error e) w'.tree := by
  induction l generalizing w with
  | nil => exact (not_stops_mapM_nil h).elim
  | cons x l ih =>
    rcases stops_mapM_cons.mp h with hx | ⟨vs, w₁, hx, hl⟩
    · exact .stop (hs x w e w' hx)
    · exact .cons (hy x w vs w₁ hx) (ih hl)

end List

theorem walked_of_yields {n : Nat} {visits : List Visit} (h : Yields (concreteDown n x) w visits w') :
    Walked n x w.tree (.ok visits) w'.tree := by
  induction n generalizing x w w' visits with
  | zero => exact (not_yields_throw h).elim
  | succ n ih =>
    simp only [concreteDown, yields_bind, yields_tree, yields_pure] at h
    obtain ⟨c, w₁, hnode, _, _, ⟨rfl, rfl⟩, below, w₂, hbelow, rfl, rfl⟩ := h
    obtain rfl := change_of_concreteNode hnode
    exact .inr ⟨w₁.tree, _, leads_concreteNode.mp ⟨_, w₁, hnode, rfl⟩,
      along_of_yields (fun _ _ _ _ h => ih h) hbelow, rfl⟩

theorem walked_of_stops {n : Nat} (h : Stops (concreteDown n x) w e w') : Walked n x w.tree (.error e) w'.tree := by
  induction n generalizing x w w' e with
  | zero =>
    obtain ⟨rfl, rfl⟩ := stops_throw.mp h
    exact ⟨rfl, rfl⟩
  | succ n ih =>
    simp only [concreteDown, stops_bind, not_stops_tree, not_stops_pure, yields_tree, and_false, exists_false,
      or_false, false_or] at h
    rcases h with h | ⟨c, w₁, hnode, _, _, ⟨rfl, rfl⟩, hbelow⟩
    · exact .inl ⟨e, rfl, stops_concreteNode h⟩
    · exact .inr ⟨w₁.tree, _, leads_concreteNode.mp ⟨c, w₁, hnode, rfl⟩,
        along_of_stops (fun _ _ _ _ h => walked_of_yields h) (fun _ _ _ _ h => ih h) hbelow, rfl⟩

end Pass

/-- The pass ends with the visits, of which it leaves a note, or stops with the
fault. -/
theorem Tree.concretize_cases (t : Tree) :
    (∃ visits w, Pass.Yields (Pass.concreteDown (Pass.depthBound t) root) { tree := t } visits w ∧
      t.concretize = ⟨.ok (), w.tree, w.log ++ [.concrete (.ofVisits visits) t.uri]⟩) ∨
    ∃ e w, Pass.Stops (Pass.concreteDown (Pass.depthBound t) root) { tree := t } e w ∧
      t.concretize = ⟨.error e, w.tree, w.log⟩ := by
  have houtcome : ∀ r w', Pass.concretize.run.run { tree := t } = (r, w') → t.concretize = ⟨r, w'.tree, w'.log⟩ := by
    intro r w' h
    rw [Tree.concretize, Pass.outcome, h]
  rcases Pass.yields_or_stops (Pass.concreteDown (Pass.depthBound t) root) { tree := t } with ⟨visits, w, h⟩ | ⟨e, w, h⟩
  · refine .inl ⟨visits, w, h, houtcome _ ⟨w.tree, w.log ++ [.concrete (.ofVisits visits) t.uri]⟩ ?_⟩
    show Pass.Yields Pass.concretize { tree := t } () _
    simp only [Pass.concretize, Pass.yields_bind, Pass.yields_tree, Pass.yields_note]
    exact ⟨_, _, ⟨rfl, rfl⟩, visits, w, h, rfl⟩
  · refine .inr ⟨e, w, h, houtcome _ w ?_⟩
    show Pass.Stops Pass.concretize { tree := t } e w
    rw [Pass.concretize, Pass.stops_tree_bind, Pass.stops_bind]
    exact .inl h

/-! ## What a walk leaves alone -/

namespace Tree

variable {t t₁ t' : Tree} {x y : NodeId} {l l' : List NodeId}

/-- The pass has worked below the nodes of the list and nowhere else. -/
structure Worked (l : List NodeId) (t t' : Tree) : Prop where
  evolves : t.Evolves t'
  types : t'.env.getType? = t.env.getType?
  apart : ∀ y < t.size, (∀ x ∈ l, ¬ t.Reaches x y) → t'.node y = t.node y
  frame : ∀ y < t.size, t'.scope y = t.scope y ∧ t'.span y = t.span y ∧ t'.parent y = t.parent y

namespace Worked

theorem refl (l : List NodeId) (t : Tree) : Worked l t t :=
  ⟨.refl t, rfl, fun _ _ _ => rfl, fun _ _ => ⟨rfl, rfl, rfl⟩⟩

theorem trans (h : Worked l t t₁) (h' : Worked l' t₁ t') : Worked (l ++ l') t t' := by
  refine ⟨h.evolves.trans h'.evolves, h'.types.trans h.types, fun y hy hnot => ?_, fun y hy => ?_⟩
  · have hnot' : ∀ x ∈ l', ¬ t₁.Reaches x y := fun x hx hxy =>
      hnot x (List.mem_append_right _ hx) (h.evolves.reaches hy hxy).2
    rw [h'.apart y (hy.trans_le h.evolves.size_le) hnot', h.apart y hy fun x hx => hnot x (List.mem_append_left _ hx)]
  · obtain ⟨hscope, hspan, hparent⟩ := h.frame y hy
    obtain ⟨hscope', hspan', hparent'⟩ := h'.frame y (hy.trans_le h.evolves.size_le)
    exact ⟨hscope'.trans hscope, hspan'.trans hspan, hparent'.trans hparent⟩

theorem mono (h : Worked l t t') (hsub : ∀ x ∈ l, x ∈ l') : Worked l' t t' :=
  ⟨h.evolves, h.types, fun y hy hnot => h.apart y hy fun x hx => hnot x (hsub x hx), h.frame⟩

/-- Work on the children of a node comes after the work on the node. -/
theorem below (h : Worked [x] t t₁) (h' : Worked (t₁.children x) t₁ t') : Worked [x] t t' := by
  have hboth := h.trans h'
  refine ⟨hboth.evolves, hboth.types, fun y hy hnot => ?_, hboth.frame⟩
  have hxy : ¬ t.Reaches x y := hnot x List.mem_cons_self
  have hnot' : ∀ c ∈ t₁.children x, ¬ t₁.Reaches c y := fun c hc hcy =>
    hxy (h.evolves.reaches hy (.head hc hcy)).2
  rw [h'.apart y (hy.trans_le h.evolves.size_le) hnot', h.apart y hy hnot]

end Worked

end Tree

section Worked

variable {t t' : Tree} {n x : Nat} {l : List NodeId} {e : Fault} {r : Except Fault (List Visit)}

theorem NodeConcrete.worked (h : NodeConcrete x t t') : Worked [x] t t' := by
  refine ⟨h.evolves, h.getType?_eq, fun y hy hnot => ?_, fun y hy => ?_⟩
  · have hxy : ¬ t.Reaches x y := hnot x List.mem_cons_self
    exact h.node_eq hy (fun he => hxy (he ▸ .refl t x)) fun hc => hxy (Reaches.tail (.refl t x) hc)
  · exact ⟨(h.scope_eq.1 y hy).1, (h.scope_eq.1 y hy).2, h.parent_eq hy⟩

theorem NodeHalted.worked (h : NodeHalted x t e t') : Worked [x] t t' := by
  cases h with
  | untouched => exact .refl _ t
  | @retyped name ascription s decl written =>
    -- the tree is that of a declaration made concrete, but for the environment
    have hsame : ((t.reascribed ascription s).setTy x s.shadowedTy).setTy name s.shadowedTy =
        (t.redeclared x name ascription s "").modifyEnv fun _ => t.env := by
      cases ascription <;> rfl
    obtain ⟨hname, hasc⟩ := children_shadowDecl decl
    have hev : t.Evolves (t.redeclared x name ascription s "") := evolves_redeclared s "" written
    rw [hsame]
    refine ⟨⟨hev.size_le, hev.kind, hev.child, hev.grounded, hev.new⟩, rfl, fun y hy hnot => ?_, fun y hy => ?_⟩
    · have hxy : ¬ t.Reaches x y := hnot x List.mem_cons_self
      show (t.redeclared x name ascription s "").node y = t.node y
      refine node_redeclared (fun he => hxy (he ▸ .refl t x)) (fun he => hxy ?_) fun hmem => hxy ?_
      · exact he ▸ Reaches.tail (.refl t x) hname
      · exact Reaches.tail (.refl t x) (hasc y hmem)
    · cases ascription <;> simp [redeclared, reascribed, setTy]

theorem Along.worked {R : NodeId → Tree → Except Fault (List Visit) → Tree → Prop}
    (hR : ∀ x t r t', R x t r t' → Worked [x] t t') (h : Along R l t r t') : Worked l t t' := by
  induction h with
  | nil => exact .refl _ _
  | cons first _ ih => exact (hR _ _ _ _ first).trans ih
  | stop first => exact (hR _ _ _ _ first).mono (by simp)

/-- A walk works below the node where it starts and nowhere else. -/
theorem Walked.worked (h : Walked n x t r t') : Worked [x] t t' := by
  induction n generalizing x t r t' with
  | zero =>
    obtain ⟨-, rfl⟩ := h
    exact .refl _ _
  | succ n ih =>
    rcases h with ⟨e, -, hx⟩ | ⟨t₁, r₁, hx, hbelow, -⟩
    · exact hx.worked
    · exact hx.worked.below (hbelow.worked fun _ _ _ _ => ih)

end Worked

end Penumbra
