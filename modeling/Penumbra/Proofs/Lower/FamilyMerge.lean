/-
What merging a family does to a tree.

A run of `mergeFamily` either finds an arm for the concrete type, whose body
is then extended by the switch (`MergedInto`), or makes one, with a copy of
the wildcard's body as the default if the phases agree (`CopiedDefault`), and
extends the new body. `leads_mergeFamily` says so once; all that is proved
about merging goes through these three kinds of change. In the same way
`VisitorLowered` says what a visitor is lowered to.
-/
import Penumbra.Proofs.Lower.FamilyNodes
import Penumbra.Proofs.Pass.Yields
import Penumbra.Proofs.Lower.SortedArms

namespace Penumbra

open Tree

variable {f : Family} {binder : String} {target x y : Nat} {default : Option Nat} {v v' : Tree}

namespace Family

/-- The tree with the nodes of the switch, not yet in its place. -/
def switched (f : Family) (binder : String) (target : Nat) (default : Option Nat) (v : Tree) : Tree :=
  v.addAll (f.switchNodes (v.scope target) v.size binder default)

end Family

/-- None of the new nodes takes statements. -/
theorem Family.addStmt_switched (f : Family) (stmt : Nat) :
    ((f.switched binder target default v).kind x).addStmt stmt = (v.kind x).addStmt stmt := by
  rcases Nat.lt_or_ge x v.size with hlt | hge
  · rw [switched, (Extends.addAll ..).kind x hlt]
  · have hold : (v.kind x).addStmt stmt = .none := by rw [Tree.kind, node_of_size_le hge]; rfl
    rw [hold]
    rcases Nat.lt_or_ge x (f.switched binder target default v).size with hlt | hge'
    · obtain ⟨m, hm, hkind, -⟩ := new_addAll hge hlt
      rw [switched, hkind]
      rcases f.mem_switchNodes binder default hm with rfl | rfl | rfl | rfl | ⟨a, -, rfl | ⟨l, rfl⟩⟩ | rfl <;> rfl
    · rw [Tree.kind, node_of_size_le hge']
      rfl

theorem Family.pushStmt?_switched (f : Family) (binder : String) (target : Nat) (default : Option Nat) (v : Tree) :
    (f.switched binder target default v).pushStmt? target (f.switchId v) =
      ((v.kind target).addStmt (f.switchId v)).map fun k =>
        ((f.switched binder target default v).setKind target k).setParent (f.switchId v) target := by
  rw [pushStmt?, edit?, f.addStmt_switched, Option.map_map]
  rfl

/-- `v'` is `v` with the switch of the family at the end of `target`. -/
def MergedInto (f : Family) (binder : String) (target : Nat) (default : Option Nat) (v v' : Tree) : Prop :=
  ∃ k, (v.kind target).addStmt (f.switchId v) = .some k ∧
    v' = (((f.switched binder target default v).setKind target k).setParent (f.switchId v) target).modifyEnv f.rebind

/-- `default` is a copy of the body, if there is one. -/
def CopiedDefault : Option NodeId → Tree → Option NodeId → Tree → Prop
  | .none, v, default, v' => default = .none ∧ v' = v
  | .some body, v, default, v' => ∃ c, (Build.copy body).run v = (c, v') ∧ default = .some c

/-- The wildcard's body, for families of its phase. -/
def wildcardFor (phase : Phase) : Option (Phase × NodeId) → Option NodeId
  | .none => .none
  | .some (p, body) => if p = phase then .some body else .none

/-- What merging the family `f` of a visitor does to the tree and to the list
of arms. -/
inductive FamilyMerged (vs : ScopeId) (wildcard : Option (Phase × NodeId)) (f : Family) (m : Merged) (v : Tree) :
    Merged → Tree → Prop where
  | existing {name body binder v'}
      (found : m.arms.findSome? (v.bindsConcrete? f.phase f.shadowedName) = .some (name, body))
      (named : v.kind name = .ident binder) (merged : MergedInto f binder body .none v v') :
      FamilyMerged vs wildcard f m v m v'
  | made {default v₁ v'}
      (absent : m.arms.findSome? (v.bindsConcrete? f.phase f.shadowedName) = .none)
      (copied : CopiedDefault (wildcardFor f.phase wildcard) (f.armed vs v) default v₁)
      (merged : MergedInto f f.first.binder (v.size + 3) default v₁ v') :
      FamilyMerged vs wildcard f m v ⟨m.arms ++ [v.size + 4], m.usedWildcard || default.isSome⟩ v'

/-- What merging one family after the other does. -/
inductive FamiliesMerged (vs : ScopeId) (wildcard : Option (Phase × NodeId)) :
    List Family → Merged → Tree → Merged → Tree → Prop where
  | nil {m v} : FamiliesMerged vs wildcard [] m v m v
  | cons {f fs m m₁ m' v v₁ v'} (first : FamilyMerged vs wildcard f m v m₁ v₁)
      (rest : FamiliesMerged vs wildcard fs m₁ v₁ m' v') : FamiliesMerged vs wildcard (f :: fs) m v m' v'

/-- The tree with other arms and another wildcard at the visitor `V`. -/
def Tree.withArms (v : Tree) (V : NodeId) (arms : List NodeId) (wildcard : Option NodeId) : Tree :=
  (v.adopt V arms).setKind V (.visitor arms wildcard)

/-- What lowering the node `V` does to a tree. -/
inductive VisitorLowered (V : NodeId) (u : Tree) : Tree → Prop where
  | other (h : u.isVisitor V = false) : VisitorLowered V u u
  | plain {arms wildcard s} (kind : u.kind V = .visitor arms wildcard) (sorted : u.sortArms arms = .ok s)
      (none : s.families = []) : VisitorLowered V u u
  | merged {arms wildcard s w m v} (kind : u.kind V = .visitor arms wildcard) (sorted : u.sortArms arms = .ok s)
      (some : s.families ≠ []) (wild : u.wildcardArm? wildcard = .ok w)
      (families : FamiliesMerged (u.scope V) w s.families { arms := s.kept } u m v) :
      VisitorLowered V u (v.withArms V m.arms (if m.usedWildcard then .none else wildcard))

section WithArms

variable (v : Tree) (V x : Nat) (arms : List NodeId) (wildcard : Option NodeId)

@[simp] theorem Tree.size_withArms : (v.withArms V arms wildcard).size = v.size := by simp [withArms]
@[simp] theorem Tree.env_withArms : (v.withArms V arms wildcard).env = v.env := by simp [withArms]
@[simp] theorem Tree.scope_withArms : (v.withArms V arms wildcard).scope x = v.scope x := by simp [withArms]
@[simp] theorem Tree.ty_withArms : (v.withArms V arms wildcard).ty x = v.ty x := by simp [withArms]
@[simp] theorem Tree.span_withArms : (v.withArms V arms wildcard).span x = v.span x := by simp [withArms]

theorem Tree.kind_withArms :
    (v.withArms V arms wildcard).kind x = if x = V ∧ V < v.size then .visitor arms wildcard else v.kind x := by
  simp [withArms, kind_setKind]

theorem Tree.parent_withArms :
    (v.withArms V arms wildcard).parent x = if x ∈ arms ∧ x < v.size then .some V else v.parent x := by
  simp [withArms, parent_adopt]

end WithArms

theorem Family.size_armed (f : Family) (vs : ScopeId) (v : Tree) : (f.armed vs v).size = v.size + 5 := by
  rw [armed, size_addAll, size_modifyEnv]
  rfl

theorem CopiedDefault.grows {body d : Option NodeId} (h : CopiedDefault body v d v') : v.Extends v' := by
  cases body with
  | none =>
    obtain ⟨-, rfl⟩ := h
    exact .refl v'
  | some b =>
    obtain ⟨c, h, -⟩ := h
    exact (Build.extends_copyDown h).1

theorem CopiedDefault.env {body d : Option NodeId} (h : CopiedDefault body v d v') : v'.env = v.env := by
  cases body with
  | none =>
    obtain ⟨-, rfl⟩ := h
    rfl
  | some b =>
    obtain ⟨c, h, -⟩ := h
    exact (Build.extends_copyDown h).2

namespace Pass

variable {w w' : Work} {m m' : Merged} {vs : ScopeId} {wildcard : Option (Phase × NodeId)}

theorem yields_copyDefault {phase : Phase} {d : Option NodeId} :
    Yields (copyDefault phase wildcard) w d w' ↔
      ∃ v', CopiedDefault (wildcardFor phase wildcard) w.tree d v' ∧ w' = { w with tree := v' } := by
  rcases wildcard with _ | ⟨p, body⟩
  · simp only [copyDefault, wildcardFor, CopiedDefault, yields_pure]
    constructor
    · rintro ⟨rfl, rfl⟩; exact ⟨_, ⟨rfl, rfl⟩, rfl⟩
    · rintro ⟨_, ⟨rfl, rfl⟩, rfl⟩; exact ⟨rfl, rfl⟩
  · simp only [copyDefault, wildcardFor]
    split
    · simp only [CopiedDefault, yields_bind, yields_build, yields_pure]
      constructor
      · rintro ⟨_, _, ⟨rfl, rfl⟩, rfl, rfl⟩; exact ⟨_, ⟨_, rfl, rfl⟩, rfl⟩
      · rintro ⟨v', ⟨c, h, rfl⟩, rfl⟩
        exact ⟨c, _, ⟨(congrArg Prod.fst h).symm, rfl⟩, rfl, by rw [h]⟩
    · simp only [CopiedDefault, yields_pure]
      constructor
      · rintro ⟨rfl, rfl⟩; exact ⟨_, ⟨rfl, rfl⟩, rfl⟩
      · rintro ⟨_, ⟨rfl, rfl⟩, rfl⟩; exact ⟨rfl, rfl⟩

theorem yields_mergeInto :
    Yields (mergeInto f binder target default) w () w' ↔
      ∃ v', MergedInto f binder target default w.tree v' ∧ w' = { w with tree := v' } := by
  have hpush := f.pushStmt?_switched binder target default w.tree
  simp only [mergeInto, yields_bind, yields_tree, yields_build, Family.run_makeSwitch, MergedInto]
  unfold Family.switched at hpush ⊢
  constructor
  · rintro ⟨_, _, ⟨rfl, rfl⟩, _, _, ⟨rfl, rfl⟩, _, _, ⟨rfl, rfl⟩, h⟩
    simp only [hpush] at h
    cases hk : (w.tree.kind target).addStmt (f.switchId w.tree) with
    | none =>
      simp only [hk, Option.map_none] at h
      exact (not_yields_throw h).elim
    | some k =>
      simp only [hk, Option.map_some, yields_modifyTree] at h
      exact ⟨_, ⟨k, rfl, rfl⟩, h⟩
  · rintro ⟨_, ⟨k, hk, rfl⟩, rfl⟩
    refine ⟨_, _, ⟨rfl, rfl⟩, _, _, ⟨rfl, rfl⟩, _, _, ⟨rfl, rfl⟩, ?_⟩
    simp only [hpush, hk, Option.map_some, yields_modifyTree]

theorem concreteArm?_ok {t : Tree} {arms : List NodeId} {r : Option (String × NodeId)} :
    t.concreteArm? arms f = .ok r ↔
      (arms.findSome? (t.bindsConcrete? f.phase f.shadowedName) = .none ∧ r = .none) ∨
      ∃ name body binder, arms.findSome? (t.bindsConcrete? f.phase f.shadowedName) = .some (name, body) ∧
        t.kind name = .ident binder ∧ r = .some (binder, body) := by
  unfold concreteArm?
  cases arms.findSome? (t.bindsConcrete? f.phase f.shadowedName) with
  | none => simp [eq_comm]
  | some nb =>
    obtain ⟨name, body⟩ := nb
    cases htok : t.tokenAs .binder name with
    | error e =>
      have : ∀ b, t.kind name ≠ .ident b := fun b hb => by rw [tokenAs_ok.mpr hb] at htok; cases htok
      simp [htok, bind, Except.bind, this]
    | ok binder =>
      have := tokenAs_ok.mp htok
      simp [htok, bind, Except.bind, pure, Except.pure, this, eq_comm]

theorem leads_mergeFamily :
    Leads (mergeFamily vs wildcard m f) w m' v' ↔ FamilyMerged vs wildcard f m w.tree m' v' := by
  simp only [Leads, mergeFamily, yields_bind, yields_tree, yields_ofExcept, concreteArm?_ok]
  constructor
  · rintro ⟨w', ⟨_, _, ⟨rfl, rfl⟩, r, _, ⟨hr, rfl⟩, h⟩, rfl⟩
    rcases hr with ⟨hnone, rfl⟩ | ⟨name, body, binder, hsome, hname, rfl⟩
    · simp only [yields_bind, yields_build, Family.run_makeArm, yields_copyDefault, yields_note, yields_pure] at h
      obtain ⟨_, _, ⟨rfl, rfl⟩, default, _, ⟨v, hd, rfl⟩, _, w₁, hm, _, w₂, rfl, rfl, rfl⟩ := h
      obtain ⟨v', hv', rfl⟩ := yields_mergeInto.mp hm
      exact .made hnone hd hv'
    · simp only [yields_bind, yields_note, yields_pure] at h
      obtain ⟨_, w₁, hm, _, w₂, rfl, rfl, rfl⟩ := h
      obtain ⟨v', hv', rfl⟩ := yields_mergeInto.mp hm
      exact .existing hsome hname hv'
  · intro h
    cases h with
    | @existing name body binder _ found named merged =>
      have hm := yields_mergeInto.mpr ⟨v', merged, rfl⟩
      refine ⟨⟨v', w.log ++ [.merged f.arms.length f.phase f.shadowedName binder false]⟩,
        ⟨_, _, ⟨rfl, rfl⟩, _, _, ⟨.inr ⟨name, body, binder, found, named, rfl⟩, rfl⟩, ?_⟩, rfl⟩
      simp only [yields_bind, yields_note, yields_pure]
      exact ⟨(), _, hm, (), _, rfl, trivial, rfl⟩
    | @made default v₁ _ absent copied merged =>
      have hm := (yields_mergeInto (w := { w with tree := v₁ })).mpr ⟨v', merged, rfl⟩
      refine ⟨⟨v', w.log ++ [.merged f.arms.length f.phase f.shadowedName f.first.binder true]⟩,
        ⟨_, _, ⟨rfl, rfl⟩, _, _, ⟨.inl ⟨absent, rfl⟩, rfl⟩, ?_⟩, rfl⟩
      simp only [yields_bind, yields_build, Family.run_makeArm, yields_copyDefault, yields_note, yields_pure]
      exact ⟨_, _, ⟨rfl, rfl⟩, default, _, ⟨v₁, copied, rfl⟩, (), _, hm, (), _, rfl, rfl, rfl⟩

theorem leads_mergeFamilies {fs : List Family} :
    Leads (fs.foldlM (mergeFamily vs wildcard) m) w m' v' ↔ FamiliesMerged vs wildcard fs m w.tree m' v' := by
  induction fs generalizing m w with
  | nil =>
    simp only [Leads, List.foldlM_nil, yields_pure]
    constructor
    · rintro ⟨_, ⟨rfl, rfl⟩, rfl⟩
      exact .nil
    · intro h
      cases h
      exact ⟨w, ⟨rfl, rfl⟩, rfl⟩
  | cons f fs ih =>
    simp only [Leads, List.foldlM_cons, yields_bind]
    constructor
    · rintro ⟨w', ⟨m₁, w₁, h, hrest⟩, rfl⟩
      exact .cons (leads_mergeFamily.mp ⟨w₁, h, rfl⟩) (ih.mp ⟨w', hrest, rfl⟩)
    · intro h
      cases h with
      | cons first rest =>
        obtain ⟨w₁, h, rfl⟩ := leads_mergeFamily.mpr first
        obtain ⟨w', hrest, rfl⟩ := ih.mpr rest
        exact ⟨w', ⟨_, w₁, h, hrest⟩, rfl⟩

theorem leads_lowerVisitor {V : NodeId} :
    (∃ b, Leads (lowerVisitor V) w b v') ↔ VisitorLowered V w.tree v' := by
  simp only [Leads, lowerVisitor, yields_bind, yields_tree]
  constructor
  · rintro ⟨b, w', ⟨_, _, ⟨rfl, rfl⟩, h⟩, rfl⟩
    split at h
    next arms wildcard hk =>
      simp only [yields_bind, yields_ofExcept] at h
      obtain ⟨s, _, ⟨hs, rfl⟩, h⟩ := h
      split at h
      next he =>
        obtain ⟨-, rfl⟩ := yields_pure.mp h
        exact .plain hk hs (by simpa using he)
      next he =>
        simp only [yields_bind, yields_ofExcept, yields_modifyTree, yields_pure] at h
        obtain ⟨wc, _, ⟨hwc, rfl⟩, m, w₁, hm, _, w₂, rfl, rfl, rfl⟩ := h
        exact .merged hk hs (by simpa using he) hwc (leads_mergeFamilies.mp ⟨w₁, hm, rfl⟩)
    next hk =>
      obtain ⟨-, rfl⟩ := yields_pure.mp h
      refine .other ?_
      unfold isVisitor
      split
      next arms wildcard hk' => exact absurd hk' (hk arms wildcard)
      next => rfl
  · intro h
    cases h with
    | other hv =>
      refine ⟨false, w, ⟨_, _, ⟨rfl, rfl⟩, ?_⟩, rfl⟩
      split
      next arms wildcard hk => simp [isVisitor, hk] at hv
      next => exact yields_pure.mpr ⟨rfl, rfl⟩
    | @plain arms wildcard s kind sorted none =>
      refine ⟨false, w, ⟨_, _, ⟨rfl, rfl⟩, ?_⟩, rfl⟩
      simp only [kind, yields_bind, yields_ofExcept, sorted]
      refine ⟨s, w, ⟨rfl, rfl⟩, ?_⟩
      rw [none]
      exact yields_pure.mpr ⟨rfl, rfl⟩
    | @merged arms wildcard s wc m v kind sorted some wild families =>
      obtain ⟨w₁, hm, rfl⟩ := leads_mergeFamilies.mpr families
      refine ⟨true, ⟨_, w₁.log⟩, ⟨_, _, ⟨rfl, rfl⟩, ?_⟩, rfl⟩
      simp only [kind, yields_bind, yields_ofExcept, sorted]
      refine ⟨s, w, ⟨rfl, rfl⟩, ?_⟩
      split
      next he => exact absurd (by simpa using he) some
      next =>
        simp only [yields_bind, yields_ofExcept, yields_modifyTree, yields_pure]
        exact ⟨wc, w, ⟨wild, rfl⟩, m, w₁, hm, (), _, rfl, trivial, rfl⟩

/-- The visitors that a run of `lower` goes through are those of the tree it
starts with, children first. -/
theorem leads_lower :
    Leads lower w () v' ↔
      Chain VisitorLowered ((w.tree.postOrder root).filter w.tree.isVisitor) w.tree v' := by
  rw [← leads_mapM fun V _ w t' => leads_lowerVisitor]
  simp only [Leads, lower, yields_bind, yields_tree, yields_note]
  constructor
  · rintro ⟨_, ⟨_, _, ⟨rfl, rfl⟩, bs, w₁, h, rfl⟩, rfl⟩
    exact ⟨bs, w₁, h, rfl⟩
  · rintro ⟨bs, w₁, h, rfl⟩
    exact ⟨_, ⟨_, _, ⟨rfl, rfl⟩, bs, w₁, h, rfl⟩, rfl⟩

end Pass

theorem Tree.lowering_chain (t : Tree) (h : t.lower.result = .ok ()) :
    Chain VisitorLowered ((t.postOrder root).filter t.isVisitor) t t.lower.tree :=
  Pass.leads_lower.mp (Pass.outcome_ok.mp h)

end Penumbra
