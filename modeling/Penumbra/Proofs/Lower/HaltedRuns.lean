/-
Runs of the first pass that stop.

A visitor is lowered in three stages: its arms are sorted, its wildcard is read
and its families are merged. Until the merge nothing is changed, so a fault
in an arm or in the wildcard leaves the tree as it was. A fault in a merge is
one of the arm found for the concrete type; an arm that was made for it always
takes the switch. `VisitorHalted` says how far a visitor was lowered, and
`stops_lower` at which one a run stops.
-/
import Penumbra.Proofs.Pass.Stops
import Penumbra.Proofs.Lower.TreeGrowth

namespace Penumbra

open Tree

namespace Tree

variable {t : Tree} {arm : NodeId} {arms : List NodeId} {s : Sorted} {e : Fault}

/-- The arm cannot be read, and why. -/
inductive ArmFault (t : Tree) (arm : NodeId) : Fault → Prop where
  | notArm (kind : ∀ p c body, t.kind arm ≠ .arm p c body) : ArmFault t arm (t.unexpected arm .visitorArm)
  | unbound {p body} (kind : t.kind arm = .arm p .none body) : ArmFault t arm ⟨.armWithoutBinder, t.span arm⟩
  | notComponent {p c body} (kind : t.kind arm = .arm p (.some c) body)
      (binder : ∀ name ascription, t.kind c ≠ .component name ascription) : ArmFault t arm (t.unexpected c .component)
  | unnamed {p c body name ascription shadow} (kind : t.kind arm = .arm p (.some c) body)
      (binder : t.kind c = .component name ascription) (shadow : t.declaredShadow? c ascription = .some shadow)
      (unnamed : t.token? name = .none) :
      ArmFault t arm ⟨.expectedIdent .binder (t.kind name).name, t.span name⟩

theorem shadowArm?_error : t.shadowArm? arm = .error e ↔ t.ArmFault arm e := by
  unfold shadowArm?
  constructor
  · intro h
    split at h
    next p c body harm =>
      split at h
      next name ascription hc =>
        split at h
        next => cases h
        next shadow hd =>
          cases htok : t.tokenAs .binder name with
          | error e' =>
            simp only [htok, bind, Except.bind, Except.error.injEq] at h
            subst h
            obtain ⟨hnone, rfl⟩ := tokenAs_error.mp htok
            exact .unnamed harm hc hd hnone
          | ok binder => simp [htok, bind, Except.bind, pure, Except.pure] at h
      next hc =>
        cases h
        exact .notComponent harm hc
    next p body harm =>
      cases h
      exact .unbound harm
    next hsome hnone =>
      cases h
      refine .notArm fun p c body hk => ?_
      cases c with
      | none => exact hnone p body hk
      | some c => exact hsome p c body hk
  · intro h
    cases h with
    | notArm kind =>
      split
      next hk => exact absurd hk (kind _ _ _)
      next hk => exact absurd hk (kind _ _ _)
      next => rfl
    | unbound kind => rw [kind]
    | notComponent kind binder => simp only [kind]
    | unnamed kind binder shadow unnamed =>
      simp only [kind, binder, shadow, tokenAs_error.mpr ⟨unnamed, rfl⟩, bind, Except.bind]

/-- Arms are sorted one after the other until one cannot be read. -/
theorem exists_armFault (h : t.sortArms arms = .error e) : ∃ arm ∈ arms, t.ArmFault arm e := by
  have hfold : ∀ s₀ : Sorted, arms.foldlM t.sortArm s₀ = .error e → ∃ arm ∈ arms, t.ArmFault arm e := by
    clear h
    induction arms with
    | nil =>
      intro s₀ h
      cases h
    | cons arm arms ih =>
      intro s₀ h
      rw [List.foldlM_cons] at h
      cases hr : t.shadowArm? arm with
      | error e' =>
        simp only [sortArm, hr, bind, Except.bind, Except.error.injEq] at h
        exact ⟨arm, List.mem_cons_self, shadowArm?_error.mp (h ▸ hr)⟩
      | ok r =>
        have hstep : ∃ s₁, t.sortArm s₀ arm = .ok s₁ := by
          unfold sortArm
          rw [hr]
          rcases r with _ | ⟨p, a⟩ <;> exact ⟨_, rfl⟩
        obtain ⟨s₁, hs₁⟩ := hstep
        obtain ⟨arm', hmem, hfault⟩ := ih s₁ (by simpa [hs₁, bind, Except.bind] using h)
        exact ⟨arm', List.mem_cons_of_mem _ hmem, hfault⟩
  exact hfold {} h

theorem wildcardArm?_error {wildcard : Option NodeId} :
    t.wildcardArm? wildcard = .error e ↔
      ∃ w, wildcard = .some w ∧ (∀ p c b, t.kind w ≠ .arm p c b) ∧ e = t.unexpected w .wildcardArm := by
  cases wildcard with
  | none => simp [wildcardArm?]
  | some w =>
    simp only [wildcardArm?, Option.some.injEq, exists_eq_left']
    split
    next p c b hk => simp [hk]
    next hk =>
      constructor
      · intro h
        cases h
        exact ⟨hk, rfl⟩
      · intro h
        rw [h.2]

theorem concreteArm?_error {f : Family} :
    t.concreteArm? arms f = .error e ↔
      ∃ name body, arms.findSome? (t.bindsConcrete? f.phase f.shadowedName) = .some (name, body) ∧
        t.token? name = .none ∧ e = ⟨.expectedIdent .binder (t.kind name).name, t.span name⟩ := by
  unfold concreteArm?
  cases arms.findSome? (t.bindsConcrete? f.phase f.shadowedName) with
  | none => simp
  | some nb =>
    obtain ⟨name, body⟩ := nb
    cases htok : t.tokenAs .binder name with
    | error e' =>
      have hnone := tokenAs_error.mp htok
      simp [htok, bind, Except.bind, hnone, eq_comm]
    | ok binder =>
      have hsome := token?_eq_some.mpr (tokenAs_ok.mp htok)
      simp [htok, bind, Except.bind, pure, Except.pure, hsome]

end Tree

/-! ## A family -/

/-- Where the merge of a family stops: at the name of the arm found for the
concrete type, or at its body, once the nodes of the switch have been added. -/
inductive FamilyHalted (f : Family) (m : Merged) (v : Tree) : Fault → Tree → Prop where
  | name {name body} (found : m.arms.findSome? (v.bindsConcrete? f.phase f.shadowedName) = .some (name, body))
      (unnamed : v.token? name = .none) :
      FamilyHalted f m v ⟨.expectedIdent .binder (v.kind name).name, v.span name⟩ v
  | body {name body binder} (found : m.arms.findSome? (v.bindsConcrete? f.phase f.shadowedName) = .some (name, body))
      (named : v.kind name = .ident binder) (closed : v.stmts? body = .none) :
      FamilyHalted f m v ((f.switched binder body .none v).unexpected body .armBody) (f.switched binder body .none v)

/-- How far merging one family after the other came when it stopped. -/
inductive FamiliesHalted (vs : ScopeId) (wildcard : Option (Phase × NodeId)) :
    List Family → Merged → Tree → Fault → Tree → Prop where
  | first {f fs m v e v'} (halted : FamilyHalted f m v e v') : FamiliesHalted vs wildcard (f :: fs) m v e v'
  | rest {f fs m m₁ v v₁ e v'} (first : FamilyMerged vs wildcard f m v m₁ v₁)
      (rest : FamiliesHalted vs wildcard fs m₁ v₁ e v') : FamiliesHalted vs wildcard (f :: fs) m v e v'

/-- How far the visitor `V` is lowered when the pass stops there. -/
inductive VisitorHalted (V : NodeId) (u : Tree) : Fault → Tree → Prop where
  | arm {arms wildcard arm e} (kind : u.kind V = .visitor arms wildcard) (mem : arm ∈ arms) (fault : u.ArmFault arm e) :
      VisitorHalted V u e u
  | wildcard {arms w s} (kind : u.kind V = .visitor arms (.some w)) (sorted : u.sortArms arms = .ok s)
      (some : s.families ≠ []) (notArm : ∀ p c b, u.kind w ≠ .arm p c b) :
      VisitorHalted V u (u.unexpected w .wildcardArm) u
  | family {arms wildcard s w e v} (kind : u.kind V = .visitor arms wildcard) (sorted : u.sortArms arms = .ok s)
      (wild : u.wildcardArm? wildcard = .ok w)
      (families : FamiliesHalted (u.scope V) w s.families { arms := s.kept } u e v) : VisitorHalted V u e v

namespace Pass

variable {w w' : Work} {e : Fault} {f : Family} {m : Merged} {vs : ScopeId} {wildcard : Option (Phase × NodeId)}
  {binder : String} {target V : Nat} {default : Option Nat}

theorem not_stops_copyDefault {phase : Phase} : ¬ Stops (copyDefault phase wildcard) w e w' := by
  intro h
  rcases wildcard with _ | ⟨p, body⟩
  · exact not_stops_pure h
  · simp only [copyDefault] at h
    split at h
    · rcases stops_bind.mp h with h | ⟨c, w₁, -, h⟩
      · exact not_stops_build h
      · exact not_stops_pure h
    · exact not_stops_pure h

/-- A switch cannot be put at the end of a node that takes no statements. -/
theorem stops_mergeInto (h : Stops (mergeInto f binder target default) w e w') :
    w.tree.stmts? target = .none ∧ e = (f.switched binder target default w.tree).unexpected target .armBody ∧
      w'.tree = f.switched binder target default w.tree := by
  simp only [mergeInto, stops_tree_bind] at h
  rcases stops_bind.mp h with h | ⟨switch, w₁, hbuild, h⟩
  · exact (not_stops_build h).elim
  have hswitch : switch = f.switchId w.tree ∧ w₁.tree = f.switched binder target default w.tree := by
    simp only [yields_build, Family.run_makeSwitch] at hbuild
    refine ⟨hbuild.1, ?_⟩
    simp only [hbuild.2, Family.switched]
  rw [stops_tree_bind, hswitch.1, hswitch.2, f.pushStmt?_switched] at h
  cases hk : (w.tree.kind target).addStmt (f.switchId w.tree) with
  | none =>
    rw [hk] at h
    obtain ⟨rfl, rfl⟩ := stops_throw.mp h
    refine ⟨?_, rfl, hswitch.2⟩
    rw [Tree.stmts?]
    generalize w.tree.kind target = k at hk
    cases k with
    | block | program => cases hk
    | _ => rfl
  | some k =>
    rw [hk] at h
    exact (not_stops_modifyTree h).elim

/-- An arm that is made takes the switch, so the merge stops at one that was
found. -/
theorem stops_mergeFamily (h : Stops (mergeFamily vs wildcard m f) w e w') : FamilyHalted f m w.tree e w'.tree := by
  rw [mergeFamily, stops_tree_bind] at h
  rcases stops_bind.mp h with h | ⟨r, w₁, hr, h⟩
  · obtain ⟨herror, rfl⟩ := stops_ofExcept.mp h
    obtain ⟨name, body, found, unnamed, rfl⟩ := concreteArm?_error.mp herror
    exact .name found unnamed
  obtain ⟨hfound, rfl⟩ := yields_ofExcept.mp hr
  rcases concreteArm?_ok.mp hfound with ⟨-, rfl⟩ | ⟨name, body, binder, found, named, rfl⟩
  · simp only [stops_bind, not_stops_build, not_stops_copyDefault, not_stops_note, not_stops_pure, and_false,
      exists_false, or_false, false_or, yields_build, Family.run_makeArm, yields_copyDefault] at h
    obtain ⟨_, _, ⟨rfl, rfl⟩, default, _, ⟨v, hcopied, rfl⟩, h⟩ := h
    have hlt : w.tree.size + 3 < (f.armed vs w.tree).size := by
      rw [f.size_armed]
      omega
    have hclosed := (stops_mergeInto h).1
    rw [Tree.stmts?, hcopied.grows.kind _ hlt, f.kind_armed vs (i := 3) rfl] at hclosed
    cases hclosed
  · simp only [stops_bind, not_stops_note, not_stops_pure, and_false, exists_false, or_false] at h
    obtain ⟨closed, rfl, heq⟩ := stops_mergeInto h
    rw [heq]
    exact .body found named closed

theorem stops_mergeFamilies {fs : List Family} (h : Stops (fs.foldlM (mergeFamily vs wildcard) m) w e w') :
    FamiliesHalted vs wildcard fs m w.tree e w'.tree := by
  induction fs generalizing m w with
  | nil => exact (not_stops_pure h).elim
  | cons f fs ih =>
    rw [List.foldlM_cons] at h
    rcases stops_bind.mp h with h | ⟨m₁, w₁, hm, h⟩
    · exact .first (stops_mergeFamily h)
    · exact .rest (leads_mergeFamily.mp ⟨w₁, hm, rfl⟩) (ih h)

theorem stops_lowerVisitor (h : Stops (lowerVisitor V) w e w') : VisitorHalted V w.tree e w'.tree := by
  rw [lowerVisitor, stops_tree_bind] at h
  split at h
  next arms wildcard hk =>
    rcases stops_bind.mp h with h | ⟨s, w₁, hs, h⟩
    · obtain ⟨herror, rfl⟩ := stops_ofExcept.mp h
      obtain ⟨arm, hmem, hfault⟩ := exists_armFault herror
      exact .arm hk hmem hfault
    obtain ⟨hsorted, rfl⟩ := yields_ofExcept.mp hs
    split at h
    next => exact (not_stops_pure h).elim
    next hsome =>
      rcases stops_bind.mp h with h | ⟨wild, w₁, hw, h⟩
      · obtain ⟨herror, rfl⟩ := stops_ofExcept.mp h
        obtain ⟨x, rfl, hx, rfl⟩ := wildcardArm?_error.mp herror
        exact .wildcard hk hsorted (by simpa using hsome) hx
      obtain ⟨hwild, rfl⟩ := yields_ofExcept.mp hw
      simp only [stops_bind, not_stops_modifyTree, not_stops_pure, and_false, exists_false, or_false] at h
      exact .family hk hsorted hwild (stops_mergeFamilies h)
  next => exact (not_stops_pure h).elim

theorem chain_of_yields {l : List NodeId} {bs : List Bool} (h : Yields (l.mapM lowerVisitor) w bs w') :
    Chain VisitorLowered l w.tree w'.tree :=
  (leads_mapM fun _ _ _ _ => leads_lowerVisitor).mp ⟨bs, w', h, rfl⟩

/-- A run stops at a visitor, once those before it have been lowered. -/
theorem stops_lower :
    Stops lower w e w' ↔ ∃ before V after bs w₁, (w.tree.postOrder root).filter w.tree.isVisitor = before ++ V :: after ∧
      Yields (before.mapM lowerVisitor) w bs w₁ ∧ Stops (lowerVisitor V) w₁ e w' := by
  simp only [lower, stops_tree_bind]
  rw [← stops_mapM, stops_bind]
  simp only [not_stops_note, and_false, exists_false, or_false]

end Pass

end Penumbra
