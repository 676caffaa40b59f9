/-
The parent links that lowering changes.

New nodes take over the bodies of shadow arms, each of which comes under a new
case, and no other node gets another parent (`Relinked`). This holds as far as a
visitor is lowered, to the end (`VisitorLowered.relinked`) or up to where the pass
stops (`VisitorHalted.relinked`), and a visitor lowered to its end leaves a rooted
tree for the next (`VisitorLowered.rooted`).
-/
import Penumbra.Proofs.Lower.KeepsOwned
import Penumbra.Proofs.Lower.FamilySwitch
import Penumbra.Proofs.Lower.HaltedRuns

namespace Penumbra

open Tree

namespace Tree

variable {v v₁ v' : Tree} {S S' : Set Nat}

theorem body_mem_case {c label b : Nat} (h : v.kind c = .case label b) : b ∈ v.children c := by
  rw [Tree.children, h]
  simp [Kind.children]

/-- No node of `v` has another parent in `v'`, except for nodes of `S` that are
now under a new case. -/
def Relinked (S : Set Nat) (v v' : Tree) : Prop :=
  ∀ x : Nat, x < v.size → v'.parent x = v.parent x ∨
    x ∈ S ∧ ∃ c label : Nat, v.size ≤ c ∧ v'.parent x = .some c ∧ v'.kind c = .case label x

theorem Relinked.refl (S : Set Nat) (v : Tree) : Relinked S v v := fun _ _ => .inl rfl

theorem Relinked.mono (h : Relinked S v v') (hsub : S ⊆ S') : Relinked S' v v' := fun x hx =>
  (h x hx).imp_right fun hmoved => ⟨hsub hmoved.1, hmoved.2⟩

theorem Relinked.trans (h : Relinked S v v₁) (hle : v.size ≤ v₁.size) (h' : Relinked S v₁ v') (hg : v₁.Grows v') :
    Relinked S v v' := by
  intro x hx
  rcases h' x (hx.trans_le hle) with hsame | ⟨hmem, c, label, hc, hmoved⟩
  · rw [hsame]
    refine (h x hx).imp_right fun hmoved => ?_
    obtain ⟨hmem, c, label, hc, hp, hk⟩ := hmoved
    exact ⟨hmem, c, label, hc, hp, (hg.kind_iff (lt_size_of_kind hk (by simp)) rfl (by simp)).mpr hk⟩
  · exact .inr ⟨hmem, c, label, hle.trans hc, hmoved⟩

end Tree

/-! ## Families -/

section Families

variable {f : Family} {binder : String} {target vs b n : Nat} {default : Option Nat} {v v' : Tree} {e : Fault}
  {wildcard : Option (Phase × NodeId)} {m m' : Merged} {fs gs : List Family} {G Z : Set Nat}

/-- Every body of a family has its case. -/
theorem Family.exists_caseNode (f : Family) (binder : String) (default : Option Nat) (s : ScopeId) (n : Nat)
    (hb : b ∈ f.bodies) :
    ∃ i label : Nat, (f.switchNodes s n binder default)[i]? = .some { kind := .case label b, scope := s } := by
  obtain ⟨a, ha, rfl⟩ := List.mem_map.mp hb
  obtain ⟨j, hj⟩ := List.mem_iff_getElem?.mp ha
  exact ⟨_, _, SwitchAt.getElem?_switchNodes (SwitchAt.getElem?_caseNodes (n := n + 4) hj).2⟩

theorem Family.exists_case_switched (f : Family) (binder : String) (target : Nat) (default : Option Nat) (v : Tree)
    (hb : b ∈ f.bodies) :
    ∃ c label : Nat, v.size ≤ c ∧ (f.switched binder target default v).kind c = .case label b := by
  obtain ⟨i, label, hi⟩ := f.exists_caseNode binder default (v.scope target) v.size hb
  exact ⟨v.size + i, label, Nat.le_add_right .., (node_addAll hi).1⟩

theorem MergedInto.exists_case (h : MergedInto f binder target default v v') (hb : b ∈ f.bodies) :
    ∃ c label : Nat, v.size ≤ c ∧ v'.kind c = .case label b := by
  obtain ⟨c, label, hc, hk⟩ := f.exists_case_switched binder target default v hb
  have hne : c ≠ target := Nat.ne_of_gt (h.target_lt.trans_le hc)
  exact ⟨c, label, hc, (h.kind_other hne).trans hk⟩

theorem FamilyMerged.exists_case (h : FamilyMerged vs wildcard f m v m' v') (hb : b ∈ f.bodies) :
    ∃ c label : Nat, v.size ≤ c ∧ v'.kind c = .case label b := by
  cases h with
  | existing _ _ merged => exact merged.exists_case hb
  | made _ copied merged =>
    obtain ⟨c, label, hc, hk⟩ := merged.exists_case hb
    have hle := ((f.extends_armed vs).trans copied.grows).size_le
    exact ⟨c, label, hle.trans hc, hk⟩

namespace Adoptable

/-- The new nodes are the parents of all they name, so the cases of the bodies. -/
theorem relinked (h : Adoptable vs wildcard (f :: fs) m v G Z) (hm : FamilyMerged vs wildcard f m v m' v') :
    Relinked { b | b ∈ f.bodies } v v' := by
  obtain ⟨howned, hparent, -⟩ := h.ownedIn hm
  intro x hx
  by_cases hb : x ∈ f.bodies
  · obtain ⟨c, label, hc, hk⟩ := hm.exists_case hb
    refine .inr ⟨hb, c, label, hc, ?_, hk⟩
    exact howned.parent c (.inr ⟨hc, lt_size_of_kind hk (by simp)⟩) x (body_mem_case hk)
  · exact .inl (hparent x hx hb)

theorem relinked_halted (h : Adoptable vs wildcard (f :: fs) m v G Z) (hm : FamilyHalted f m v e v') :
    Relinked { b | b ∈ f.bodies } v v' := by
  cases hm with
  | name => exact .refl _ v
  | @body name body binder found named closed =>
    have hnodup := h.distinct
    rw [List.flatMap_cons, List.nodup_append] at hnodup
    have hsep := f.separate_switchNodes (s := v.scope body) binder .none (by simpa using hnodup.1)
      (by simpa using h.family_lt)
    intro x hx
    by_cases hb : x ∈ f.bodies
    · obtain ⟨c, label, hc, hk⟩ := f.exists_case_switched binder body .none v hb
      refine .inr ⟨hb, c, label, hc, ?_, hk⟩
      exact (hsep.child c hc (lt_size_of_kind hk (by simp)) x (body_mem_case hk)).2
    · exact .inl (hsep.parent x hx (by simpa using hb))

/-- Families that are merged leave the others to be merged. -/
theorem relinked_run (h : Adoptable vs wildcard (fs ++ gs) m v G Z) (hm : FamiliesMerged vs wildcard fs m v m' v') :
    Relinked { b | b ∈ fs.flatMap Family.bodies } v v' ∧ ∃ G', Adoptable vs wildcard gs m' v' G' Z := by
  induction hm generalizing G with
  | nil => exact ⟨.refl _ _, G, h⟩
  | @cons f fs m m₁ m' v v₁ v' first rest ih =>
    obtain ⟨hrest, hgs⟩ := ih (h.next first)
    refine ⟨?_, hgs⟩
    have hfirst := h.relinked first
    refine (hfirst.mono fun b hb => ?_).trans first.grows.size_le (hrest.mono fun b hb => ?_) rest.grows
    · exact List.mem_flatMap.mpr ⟨f, List.mem_cons_self, hb⟩
    · exact List.mem_append_right f.bodies hb

end Adoptable

/-- A merge that stops has merged the families before. -/
theorem FamiliesHalted.split (h : FamiliesHalted vs wildcard fs m v e v') :
    ∃ before f after m₁ v₁, fs = before ++ f :: after ∧ FamiliesMerged vs wildcard before m v m₁ v₁ ∧
      FamilyHalted f m₁ v₁ e v' := by
  induction h with
  | @first f fs m v e v' halted => exact ⟨[], f, fs, m, v, rfl, .nil, halted⟩
  | @rest g fs m m₁ v v₁ e v' first _ ih =>
    obtain ⟨before, f, after, m₂, v₂, rfl, hmerged, halted⟩ := ih
    exact ⟨g :: before, f, after, m₂, v₂, rfl, .cons first hmerged, halted⟩

theorem FamilyHalted.extends (h : FamilyHalted f m v e v') : v.Extends v' := by
  cases h with
  | name => exact .refl v
  | body => exact .addAll ..

end Families

/-! ## A visitor -/

/-- `b` is the body of a shadow arm of the visitor `V`. -/
def Tree.ShadowBody (t : Tree) (V b : NodeId) : Prop :=
  ∃ arms wildcard arm p a, t.kind V = .visitor arms wildcard ∧ arm ∈ arms ∧ t.shadowArm? arm = .ok (.some (p, a)) ∧ a.body = b

section Visitor

variable {u u' v : Tree} {V x : Nat} {e : Fault} {arms : List NodeId} {wild? : Option NodeId} {s : Sorted}

theorem Tree.Sorts.shadowBody (hs : u.Sorts arms s) (kind : u.kind V = .visitor arms wild?) :
    { b | b ∈ s.families.flatMap Family.bodies } ⊆ { b | u.ShadowBody V b } := by
  intro b hb
  obtain ⟨f, hf, hb⟩ := List.mem_flatMap.mp hb
  obtain ⟨a, ha, rfl⟩ := List.mem_map.mp hb
  obtain ⟨arm, harm, hr, -⟩ := hs.mem_family hf ha
  exact ⟨arms, wild?, arm, f.phase, a, kind, harm, hr, rfl⟩

variable (hf : u.Formed) (hr : u.Rooted) (hV : u.Reachable V)
include hf hr hV

/-- A visitor that is lowered gives the bodies of its shadow arms away, and takes
new arms only. -/
theorem VisitorLowered.relinked (h : VisitorLowered V u u') : Relinked { b | u.ShadowBody V b } u u' := by
  cases h with
  | other | plain => exact .refl _ u
  | @merged arms wild? s w m v kind sorted some wild families =>
    have hs := sorts sorted
    have had := hr.adoptable hf hV kind hs wild
    rw [← List.append_nil s.families] at had
    have hrun := (had.relinked_run families).1.mono (hs.shadowBody kind)
    have hgrows : v.Grows (v.withArms V m.arms (if m.usedWildcard then .none else wild?)) :=
      .withArms v V m.arms _ (families.isVisitor kind)
    intro x hx
    rw [parent_withArms]
    split
    next harm =>
      rcases families.arm_cases kind hs harm.1 with ⟨-, hc⟩ | hnew
      · exact .inl (hr.parent V hV x hc).symm
      · exact absurd hnew.1 (Nat.not_le.mpr hx)
    next =>
      refine (hrun x hx).imp_right fun hmoved => ?_
      obtain ⟨hb, c, label, hc, hp, hk⟩ := hmoved
      exact ⟨hb, c, label, hc, hp, (hgrows.kind_iff (lt_size_of_kind hk (by simp)) rfl (by simp)).mpr hk⟩

theorem VisitorHalted.relinked (h : VisitorHalted V u e u') : Relinked { b | u.ShadowBody V b } u u' := by
  cases h with
  | arm | wildcard => exact .refl _ u
  | @family arms wild? s w e v kind sorted wild families =>
    have hs := sorts sorted
    have had := hr.adoptable hf hV kind hs wild
    have hbodies := hs.shadowBody kind
    obtain ⟨before, f, after, m₁, v₁, hsplit, hmerged, halted⟩ := families.split
    rw [hsplit] at had hbodies
    obtain ⟨hrun, G, hnext⟩ := had.relinked_run hmerged
    refine (hrun.mono fun b hb => ?_).trans hmerged.grows.size_le ((hnext.relinked_halted halted).mono fun b hb => ?_)
      halted.extends.grows
    · obtain ⟨g, hg, hb⟩ := List.mem_flatMap.mp hb
      exact hbodies (List.mem_flatMap.mpr ⟨g, List.mem_append_left _ hg, hb⟩)
    · exact hbodies (List.mem_flatMap.mpr ⟨f, List.mem_append_right _ List.mem_cons_self, hb⟩)

/-- What lowering a visitor leaves is a rooted tree. -/
theorem VisitorLowered.rooted (h : VisitorLowered V u u') : u'.Rooted := by
  obtain ⟨G, hG⟩ := h.reworks hf hr.toOwned hV
  exact hG.isOwned.rooted hG.formed

end Visitor

end Penumbra
