/-
Lowering keeps trees owned.

While the families of a visitor are merged, the bodies of its shadow arms are
named twice, by the arms they come from and by the cases they move to. So what
is followed through the merge is a set of nodes without those arms and without
the visitor itself: the parent links of all their children are right
(`OwnedIn`), and those of the bodies to come still lead out of the set. In the
end the visitor no longer names the shadow arms, and what is reachable lies in
that set, with the visitor and the new nodes (`VisitorLowered.reworks`).
-/
import Penumbra.Proofs.Lower.KeptNodes
import Penumbra.Proofs.Tree.Owned

namespace Penumbra

open Tree

namespace Tree

variable {t t' v v' : Tree} {G Z : Set Nat} {used : List Nat} {x n : Nat}

/-- The nodes in `G` name no child twice and are the parents of all they
name. -/
structure OwnedIn (t : Tree) (G : Set Nat) : Prop where
  nodup : ∀ x ∈ G, (t.children x).Nodup
  parent : ∀ x ∈ G, ∀ c ∈ t.children x, t.parent c = .some x

theorem Rooted.ownedIn (h : t.Rooted) : t.OwnedIn { x | t.Reachable x } := ⟨h.nodup, h.parent⟩

theorem OwnedIn.mono {G' : Set Nat} (h : t.OwnedIn G) (hsub : G' ⊆ G) : t.OwnedIn G' :=
  ⟨fun x hx => h.nodup x (hsub hx), fun x hx => h.parent x (hsub hx)⟩

/-- The program of `t` has been reworked into `t'`: all that is reachable lies in
`G`, where parents are right. What was outside of the program stays as it was,
and what dropped out of `G` is still not without a parent. -/
structure Reworks (t t' : Tree) (G : Set Nat) : Prop where
  formed : t'.Formed
  size_le : t.size ≤ t'.size
  root_mem : root ∈ G
  closed : t'.Closed G
  owned : t'.OwnedIn G
  program : ∀ x ∈ G, t.Reachable x ∨ x ∈ fresh t t'
  new : ∀ x ∈ fresh t t', x ∈ G
  kind : ∀ x : Nat, x < t.size → x ∉ G → t'.kind x = t.kind x
  parent : ∀ x : Nat, x < t.size → ¬ t.Reachable x → t'.parent x = t.parent x
  dropped : ∀ x, t.Reachable x → x ∉ G → t'.parent x ≠ .none
  root_free : ∀ x ∈ G, root ∉ t'.children x
  root_parent : t'.parent root = t.parent root

theorem Reworks.refl (hf : t.Formed) (ho : t.Owned) : Reworks t t { x | t.Reachable x } where
  formed := hf
  size_le := le_rfl
  root_mem := .refl t root
  closed := hf.program_closed
  owned := (ho.rooted hf).ownedIn
  program _ hx := .inl hx
  new x hx := absurd hx (by simp [fresh_self])
  kind _ _ _ := rfl
  parent _ _ _ := rfl
  dropped _ hx hnot := absurd hx hnot
  root_free := ho.root_free
  root_parent := rfl

theorem Reworks.reaches (h : Reworks t t' G) (hx : t'.Reachable x) : x ∈ G :=
  h.closed.reaches h.root_mem hx

theorem Reworks.isOwned (h : Reworks t t' G) : t'.Owned :=
  ⟨fun x hx => h.root_free x (h.reaches hx), fun x hx => h.owned.nodup x (h.reaches hx),
    fun x hx => h.owned.parent x (h.reaches hx)⟩

/-- Nodes that have no parent in `G` can be taken over by new nodes. -/
theorem OwnedIn.separate (h : v.OwnedIn G) (hG : ∀ x ∈ G, x < v.size) (hf : v.Formed) (hext : v.Extends v')
    (hs : Separate used v v') (hused : ∀ b ∈ used, ∀ x ∈ G, v.parent b ≠ .some x) : v'.OwnedIn (G ∪ fresh v v') := by
  refine ⟨fun x hx => ?_, fun x hx c hc => ?_⟩
  · rcases hx with hx | hx
    · rw [hext.children (hG x hx)]
      exact h.nodup x hx
    · exact hs.nodup x hx.1 hx.2
  · rcases hx with hx | hx
    · rw [hext.children (hG x hx)] at hc
      have hp := h.parent x hx c hc
      rw [hs.parent c (hf.child x (hG x hx) c hc) fun hmem => hused c hmem x hx hp]
      exact hp
    · exact (hs.child x hx.1 hx.2 c hc).2

theorem EndsWithin.congr (h : t.EndsWithin n x) (hZ : t.Closed Z) (hkind : ∀ y ∈ Z, t'.kind y = t.kind y) (hx : x ∈ Z) :
    t'.EndsWithin n x := by
  induction n generalizing x with
  | zero => exact h.elim
  | succ n ih =>
    intro c hc
    rw [Tree.children, hkind x hx] at hc
    exact ih (h c hc) (hZ.child x hx c hc)

theorem Closed.congr (hZ : t.Closed Z) (hle : t.size ≤ t'.size) (hkind : ∀ y ∈ Z, t'.kind y = t.kind y) : t'.Closed Z := by
  refine ⟨fun y hy => (hZ.bounded y hy).trans_le hle, fun y hy c hc => ?_⟩
  rw [Tree.children, hkind y hy] at hc
  exact hZ.child y hy c hc

end Tree

section Families

variable {f : Family} {binder : String} {target x y vs : Nat} {default : Option Nat} {v v₁ v' : Tree}
  {wildcard : Option (Phase × NodeId)} {m m' : Merged} {fs : List Family} {G Z : Set Nat}

/-! ## Parent links -/

namespace MergedInto

theorem parent_switch (h : MergedInto f binder target default v v') : v'.parent (f.switchId v) = .some target := by
  obtain ⟨k, -, rfl⟩ := h
  rw [parent_modifyEnv, parent_setParent, if_pos]
  simp [Family.switched, Family.switchNodes, Family.switchId]
  omega

theorem parent_other (h : MergedInto f binder target default v v') (hx : x ≠ f.switchId v) :
    v'.parent x = (f.switched binder target default v).parent x := by
  obtain ⟨k, -, rfl⟩ := h
  rw [parent_modifyEnv, parent_setParent, if_neg fun h => hx h.1, parent_setKind]

variable (hnodup : (f.bodies ++ default.toList).Nodup) (hold : ∀ b : Nat, b ∈ f.bodies ++ default.toList → b < v.size)
include hnodup hold

theorem parent_old (h : MergedInto f binder target default v v') (hx : x < v.size) (hfree : x ∉ f.bodies ++ default.toList) :
    v'.parent x = v.parent x := by
  rw [h.parent_other (by rw [Family.switchId]; omega)]
  exact (f.separate_switchNodes binder default hnodup hold).parent x hx hfree

theorem ownedIn (h : MergedInto f binder target default v v') (ho : v.OwnedIn G) (hG : ∀ x ∈ G, x < v.size) (hf : v.Formed)
    (hfree : ∀ b ∈ f.bodies ++ default.toList, ∀ x ∈ G, v.parent b ≠ .some x) : v'.OwnedIn (G ∪ fresh v v') := by
  have hsep := f.separate_switchNodes (s := v.scope target) binder default hnodup hold
  have hsize : v'.size = (f.switched binder target default v).size := by
    obtain ⟨k, -, rfl⟩ := h
    simp
  have hswitched := ho.separate hG hf (Extends.addAll ..) hsep hfree
  have hfresh : fresh v v' = fresh v (v.addAll (f.switchNodes (v.scope target) v.size binder default)) := by
    rw [fresh, fresh, hsize, Family.switched]
  rw [hfresh]
  -- the switch itself is named by the target only
  have hlast : ∀ x ∈ G ∪ fresh v (v.addAll (f.switchNodes (v.scope target) v.size binder default)),
      f.switchId v ∉ (f.switched binder target default v).children x := by
    intro x hx hmem
    rcases hx with hx | hx
    · rw [Family.switched, (Extends.addAll ..).children (hG x hx)] at hmem
      have := hf.child x (hG x hx) _ hmem
      rw [Family.switchId] at this
      omega
    · have hlt : x < v'.size := by rw [hsize]; exact hx.2
      rw [h.size] at hlt
      have hc := (hsep.child x hx.1 hx.2 _ hmem).1
      rw [Family.switchId] at hc
      rcases hc with hc | hc
      · omega
      · have := hold _ hc
        omega
  refine ⟨fun x hx => ?_, fun x hx c hc => ?_⟩
  · by_cases hxt : x = target
    · subst hxt
      have hchildren : (f.switched binder x default v).children x = v.children x :=
        (Extends.addAll ..).children h.target_lt
      have hnot := hlast x hx
      rw [hchildren] at hnot
      rw [h.children_target, List.nodup_append]
      refine ⟨hchildren ▸ hswitched.nodup x hx, by simp, fun c hc d hd => ?_⟩
      rw [List.mem_singleton.mp hd]
      rintro rfl
      exact hnot hc
    · rw [Tree.children, h.kind_other hxt]
      exact hswitched.nodup x hx
  · by_cases hsw : c = f.switchId v
    · subst hsw
      rw [h.parent_switch]
      by_cases hxt : x = target
      · rw [hxt]
      · rw [Tree.children, h.kind_other hxt] at hc
        exact absurd hc (hlast x hx)
    · rw [h.parent_other hsw]
      refine hswitched.parent x hx c ?_
      by_cases hxt : x = target
      · subst hxt
        rw [h.children_target, List.mem_append, List.mem_singleton] at hc
        have hchildren : (f.switched binder x default v).children x = v.children x :=
          (Extends.addAll ..).children h.target_lt
        exact hchildren ▸ hc.resolve_right hsw
      · rwa [Tree.children, h.kind_other hxt] at hc

end MergedInto

/-- The node can be taken over: its parent, if it has one, is not in `G`. -/
def Tree.Outside (v : Tree) (G : Set Nat) (b : Nat) : Prop :=
  b < v.size ∧ ∀ p : Nat, p ∈ v.parent b → p < v.size ∧ p ∉ G

theorem Tree.Outside.ne {b : Nat} (h : v.Outside G b) : ∀ x ∈ G, v.parent b ≠ .some x :=
  fun x hx hp => (h.2 x hp).2 hx

theorem Tree.Outside.mono {b : Nat} (h : v.Outside G b) (hle : v.size ≤ v'.size) (hp : v'.parent b = v.parent b) :
    v'.Outside (G ∪ fresh v v') b := by
  refine ⟨h.1.trans_le hle, fun p hmem => ?_⟩
  rw [hp] at hmem
  obtain ⟨hlt, hG⟩ := h.2 p hmem
  refine ⟨hlt.trans_le hle, fun hmem => hmem.elim hG fun hnew => ?_⟩
  have := hnew.1
  omega

theorem Family.separate_armed (f : Family) (vs : ScopeId) (v : Tree) : Separate [] v (f.armed vs v) := by
  have h := f.separate_armNodes vs v.env.size (v.modifyEnv (f.bindNew vs))
  exact ⟨h.taken, h.parent, h.nodup, h.child⟩

theorem Family.parent_armed (f : Family) (vs : ScopeId) (v : Tree) : (f.armed vs v).parent (v.size + 4) = .none := by
  have harm : (f.armNodes vs v.env.size v.size)[4]? = .some
      { kind := .arm f.phase (.some (v.size + 2)) (v.size + 3), scope := vs } := rfl
  refine parent_addAll_new (t := v.modifyEnv (f.bindNew vs)) harm rfl fun hmem => ?_
  obtain ⟨m, hm, hc⟩ := List.mem_flatMap.mp hmem
  simp only [armNodes, List.mem_cons, List.not_mem_nil, or_false] at hm
  rcases hm with rfl | rfl | rfl | rfl | rfl <;> simp [Kind.children] at hc

/-- A copied default is a tree of its own. -/
theorem CopiedDefault.separate {body : Option NodeId} (h : CopiedDefault body v default v') (hZ : v.Closed Z)
    (hb : ∀ b ∈ body, b ∈ Z ∧ v.EndsWithin v.size b) :
    Separate [] v v' ∧ ∀ d ∈ default, v.size ≤ d ∧ d < v'.size ∧ v'.parent d = .none := by
  cases body with
  | none =>
    obtain ⟨rfl, rfl⟩ := h
    exact ⟨.refl v', by simp⟩
  | some b =>
    obtain ⟨c, h, rfl⟩ := h
    obtain ⟨hbZ, hends⟩ := hb b rfl
    obtain ⟨-, hsep, hc, hc', hp⟩ :=
      Build.separate (fun y hy => hZ.bounded y (hZ.reaches hbZ hy)) (.refl v) hends h
    refine ⟨hsep, fun d hd => ?_⟩
    obtain rfl : c = d := by simpa using hd
    exact ⟨hc, hc', hp⟩

/-- The families `fs` of a visitor are still to be merged: their bodies can be
taken over, as can the arms gathered so far, and what is below the wildcard's body is
out of reach of the merge. -/
structure Adoptable (vs : Nat) (wildcard : Option (Phase × NodeId)) (fs : List Family) (m : Merged) (v : Tree)
    (G Z : Set Nat) : Prop where
  formed : v.Formed
  scope : vs < v.env.size
  bounded : ∀ x ∈ G, x < v.size
  owned : v.OwnedIn G
  distinct : (fs.flatMap Family.bodies).Nodup
  bodies : ∀ b ∈ fs.flatMap Family.bodies, v.Outside G b
  nodup : m.arms.Nodup
  arms : ∀ a ∈ m.arms, v.Outside G a ∧ a ∉ fs.flatMap Family.bodies
  closed : v.Closed Z
  wildcard : ∀ p b, wildcard = .some (p, b) → b ∈ Z ∧ v.EndsWithin v.size b
  free : ∀ x ∈ Z, ∀ a ∈ m.arms, ∀ p c, v.kind a ≠ .arm p (.some c) x

namespace Adoptable

variable (h : Adoptable vs wildcard (f :: fs) m v G Z)
include h

theorem family_lt : ∀ b ∈ f.bodies, b < v.size := fun b hb =>
  (h.bodies b (by simp only [List.flatMap_cons, List.mem_append]; exact .inl hb)).1

theorem wildcardFor : ∀ b ∈ wildcardFor f.phase wildcard, b ∈ Z ∧ v.EndsWithin v.size b :=
  wildcardFor_mem (S := { b | b ∈ Z ∧ v.EndsWithin v.size b }) h.wildcard

/-- The arm made for a family and the default copied for it stand on their own. -/
theorem separate_made (copied : CopiedDefault (Penumbra.wildcardFor f.phase wildcard) (f.armed vs v) default v₁) :
    v₁.Formed ∧ Separate [] v v₁ ∧ (v.size + 4 < v₁.size ∧ v₁.parent (v.size + 4) = .none) ∧
      ∀ d ∈ default, v.size + 4 < d ∧ d < v₁.size ∧ v₁.parent d = .none := by
  have hext := f.extends_armed (v := v) vs
  have hsize := f.size_armed vs v
  have hle := copied.grows.size_le
  -- the wildcard is as it was when the arm has been made, and can be copied
  have hkind : ∀ y ∈ Z, (f.armed vs v).kind y = v.kind y := fun y hy => hext.kind y (h.closed.bounded y hy)
  have hclosed := h.closed.congr hext.size_le hkind
  have hwild : ∀ b ∈ Penumbra.wildcardFor f.phase wildcard, b ∈ Z ∧ (f.armed vs v).EndsWithin (f.armed vs v).size b :=
    fun b hb => by
      have hw := h.wildcardFor b hb
      have hends := EndsWithin.congr hw.2 h.closed hkind hw.1
      rw [hsize]
      exact ⟨hw.1, hends.mono (by omega)⟩
  obtain ⟨hsep, hdefault⟩ := copied.separate hclosed hwild
  have hformed := (copied.formed (f.formed_armed h.formed h.scope) fun b hb => hclosed.bounded b (hwild b hb).1).1
  have hboth : Separate [] v v₁ := (f.separate_armed vs v).trans hsep hext.size_le copied.grows (by simp)
  have harm : v₁.parent (v.size + 4) = .none := by
    rw [hsep.parent _ (by omega) (by simp), f.parent_armed]
  refine ⟨hformed, hboth, ⟨by omega, harm⟩, fun d hd => ?_⟩
  obtain ⟨hge, hlt, hp⟩ := hdefault d hd
  exact ⟨by omega, hlt, hp⟩

/-- What merging a family does to ownership and to parent links. -/
theorem ownedIn (hm : FamilyMerged vs wildcard f m v m' v') :
    v'.OwnedIn (G ∪ fresh v v') ∧ (∀ x : Nat, x < v.size → x ∉ f.bodies → v'.parent x = v.parent x) ∧
      (m'.arms = m.arms ∨ m'.arms = m.arms ++ [v.size + 4] ∧ v'.parent (v.size + 4) = .none) := by
  have hnodup : f.bodies.Nodup := by
    have := h.distinct
    rw [List.flatMap_cons, List.nodup_append] at this
    exact this.1
  have houtside : ∀ b ∈ f.bodies, v.Outside G b := fun b hb => h.bodies b (by
    simp only [List.flatMap_cons, List.mem_append]; exact .inl hb)
  cases hm with
  | existing found named merged =>
    refine ⟨merged.ownedIn (by simpa using hnodup) (by simpa using h.family_lt) h.owned h.bounded h.formed ?_,
      fun x hx hfree => ?_, .inl rfl⟩
    · simpa using fun b hb => (houtside b hb).ne
    · exact merged.parent_old (by simpa using hnodup) (by simpa using h.family_lt) hx (by simpa using hfree)
  | @made default v₁ _ absent copied merged =>
    obtain ⟨hformed, hsep, ⟨harm, hfree⟩, hdefault⟩ := h.separate_made copied
    have hext := (f.extends_armed (v := v) vs).trans copied.grows
    have hle := hext.size_le
    have hparent : ∀ x : Nat, x < v.size → v₁.parent x = v.parent x := fun x hx => hsep.parent x hx (by simp)
    have hnodup₁ : (f.bodies ++ default.toList).Nodup := by
      refine List.nodup_append.mpr ⟨hnodup, by cases default <;> simp, fun b hb d hd => ?_⟩
      have := h.family_lt b hb
      have := (hdefault d (by simpa using hd)).1
      omega
    have hold : ∀ b : Nat, b ∈ f.bodies ++ default.toList → b < v₁.size := fun b hb => by
      rcases List.mem_append.mp hb with hb | hb
      · exact (h.family_lt b hb).trans_le hle
      · exact (hdefault b (by simpa using hb)).2.1
    -- up to the new arm, what is taken over are bodies of the family
    have hbody : ∀ x : Nat, x ≤ v.size + 4 → x ∉ f.bodies → x ∉ f.bodies ++ default.toList := fun x hx hnot hmem => by
      have := (hdefault x (by simpa using (List.mem_append.mp hmem).resolve_left hnot)).1
      omega
    refine ⟨?_, fun x hx hnot => ?_, .inr ⟨rfl, ?_⟩⟩
    · have howned := h.owned.separate h.bounded h.formed hext hsep (by simp)
      have hbound : ∀ x ∈ G ∪ fresh v v₁, x < v₁.size := fun x hx =>
        hx.elim (fun hx => (h.bounded x hx).trans_le hle) (·.2)
      have hmerged := merged.ownedIn hnodup₁ hold howned hbound hformed fun b hb => ?_
      · rwa [Set.union_assoc, ← fresh_trans hle merged.grows.size_le] at hmerged
      · rcases List.mem_append.mp hb with hb | hb
        · exact ((houtside b hb).mono hle (hparent b (h.family_lt b hb))).ne
        · simp [(hdefault b (by simpa using hb)).2.2]
    · rw [merged.parent_old hnodup₁ hold (hx.trans_le hle) (hbody x (by omega) hnot), hparent x hx]
    · rw [merged.parent_old hnodup₁ hold harm (hbody _ le_rfl fun hb => ?_), hfree]
      exact absurd (h.family_lt _ hb) (by omega)

theorem next (hm : FamilyMerged vs wildcard f m v m' v') :
    Adoptable vs wildcard fs m' v' (G ∪ fresh v v') Z := by
  obtain ⟨howned, hparent, harms⟩ := h.ownedIn hm
  have hl := hm.later h.scope
  have hle := hl.grows.size_le
  have hdistinct := h.distinct
  rw [List.flatMap_cons, List.nodup_append] at hdistinct
  have hrest : ∀ b ∈ fs.flatMap Family.bodies, b ∈ (f :: fs).flatMap Family.bodies := fun b hb => by
    rw [List.flatMap_cons]
    exact List.mem_append_right _ hb
  have hkind : ∀ y ∈ Z, v'.kind y = v.kind y := fun y hy =>
    hm.kind_eq (h.closed.bounded y hy) fun a ha p c hk => absurd hk (h.free y hy a ha p c)
  have harm : ∀ a ∈ m.arms, v'.Outside (G ∪ fresh v v') a ∧ a ∉ fs.flatMap Family.bodies := fun a ha => by
    obtain ⟨hout, hfree⟩ := h.arms a ha
    rw [List.flatMap_cons, List.mem_append, not_or] at hfree
    exact ⟨hout.mono hle (hparent a hout.1 hfree.1), hfree.2⟩
  have hfree : ∀ x ∈ Z, ∀ a ∈ m.arms, ∀ p c, v'.kind a ≠ .arm p (.some c) x := fun x hx a ha p c hk =>
    h.free x hx a ha p c ((hl.grows.kind_iff (h.arms a ha).1.1 rfl (by simp)).mp hk)
  have hlt : v.size + 4 < v'.size ∨ m'.arms = m.arms := by
    rcases hm.madeArm with heq | ⟨-, hmade⟩
    · exact .inr heq
    · exact .inl (lt_size_of_kind hmade.arm (by simp))
  refine ⟨hm.formed h.formed h.scope h.family_lt fun p b hp => h.closed.bounded b (h.wildcard p b hp).1,
    h.scope.trans_le hl.types.size_le,
    fun x hx => hx.elim (fun hx => (h.bounded x hx).trans_le hle) (·.2), howned, hdistinct.2.1,
    fun b hb => ?_, ?_, ?_, h.closed.congr hle hkind, fun p b hp => ⟨(h.wildcard p b hp).1, ?_⟩, ?_⟩
  · have hout := h.bodies b (hrest b hb)
    exact hout.mono hle (hparent b hout.1 fun hmem => hdistinct.2.2 b hmem b hb rfl)
  · rcases harms with heq | ⟨heq, -⟩
    · rw [heq]
      exact h.nodup
    · rw [heq, List.nodup_append]
      refine ⟨h.nodup, by simp, fun a ha a' ha' he => ?_⟩
      have hold := (h.arms a ha).1.1
      rw [he, List.mem_singleton.mp ha'] at hold
      omega
  · rcases harms with heq | ⟨heq, hnone⟩
    · rw [heq]
      exact harm
    · intro a ha
      rw [heq, List.mem_append, List.mem_singleton] at ha
      rcases ha with ha | rfl
      · exact harm a ha
      · refine ⟨⟨hlt.resolve_right fun he => ?_, fun p hp => ?_⟩, fun hmem => ?_⟩
        · rw [he] at heq
          exact absurd (congrArg List.length heq) (by simp)
        · rw [hnone] at hp
          cases hp
        · have := (h.bodies _ (hrest _ hmem)).1
          omega
  · have hends := EndsWithin.congr (h.wildcard p b hp).2 h.closed hkind (h.wildcard p b hp).1
    exact hends.mono hle
  · intro x hx a ha p c hk
    rcases hm.madeArm with heq | ⟨heq, hmade⟩
    · rw [heq] at ha
      exact hfree x hx a ha p c hk
    · rw [heq, List.mem_append, List.mem_singleton] at ha
      rcases ha with ha | rfl
      · exact hfree x hx a ha p c hk
      · rw [hmade.arm] at hk
        cases hk
        have := h.closed.bounded _ hx
        omega

end Adoptable

theorem Adoptable.run (h : Adoptable vs wildcard fs m v G Z) (hm : FamiliesMerged vs wildcard fs m v m' v') :
    Adoptable vs wildcard [] m' v' (G ∪ fresh v v') Z ∧
      ∀ x : Nat, x < v.size → x ∉ fs.flatMap Family.bodies → v'.parent x = v.parent x := by
  induction hm generalizing G with
  | nil =>
    rw [fresh_self, Set.union_empty]
    exact ⟨h, fun _ _ _ => rfl⟩
  | @cons f fs m m₁ m' v v₁ v' first rest ih =>
    obtain ⟨h', hparent⟩ := ih (h.next first)
    have hle := first.grows.size_le
    rw [Set.union_assoc, ← fresh_trans hle rest.grows.size_le] at h'
    refine ⟨h', fun x hx hfree => ?_⟩
    rw [List.flatMap_cons, List.mem_append, not_or] at hfree
    rw [hparent x (hx.trans_le hle) hfree.2, (h.ownedIn first).2.1 x hx hfree.1]

/-! ## A visitor -/

/-- No two shadow arms of an owned visitor have the same body, in one family or
in two. -/
theorem Tree.Sorts.nodup_bodies {u : Tree} {arms : List NodeId} {s : Sorted} (h : u.Sorts arms s) (hnodup : arms.Nodup)
    (hinj : ∀ a ∈ arms, ∀ a' ∈ arms, ∀ b, b ∈ u.children a → b ∈ u.children a' → a = a') :
    (s.families.flatMap Family.bodies).Nodup := by
  have hbody : ∀ k arm a, u.memberOf? k arm = .some a → a.body ∈ u.children arm := by
    intro k arm a hr
    obtain ⟨q, hr, -⟩ := memberOf?_eq_some.mp hr
    obtain ⟨p, c, body, name, ascription, hk, -, hcase⟩ := shadowArm?_ok.mp hr
    obtain ⟨shadow, binder, -, -, hq⟩ := hcase.resolve_left (by simp)
    cases hq
    exact body_mem_children hk
  have hkey : ∀ k k' arm a a', u.memberOf? k arm = .some a → u.memberOf? k' arm = .some a' → k = k' := by
    intro k k' arm a a' hr hr'
    obtain ⟨q, hq, rfl⟩ := memberOf?_eq_some.mp hr
    obtain ⟨q', hq', rfl⟩ := memberOf?_eq_some.mp hr'
    rw [hq] at hq'
    cases hq'
    rfl
  rw [List.nodup_flatMap]
  refine ⟨fun f hf => ?_, ?_⟩
  · rw [Family.bodies, h.arms_eq hf, List.Nodup, List.pairwise_map, List.pairwise_filterMap]
    refine List.Pairwise.imp_of_mem (fun {arm arm'} harm harm' hne a ha a' ha' he => ?_) hnodup
    exact hne (hinj arm harm arm' harm' _ (hbody _ _ _ ha) (he ▸ hbody _ _ _ ha'))
  · refine List.Pairwise.imp_of_mem (fun {f g} hf hg hne b hb hb' => ?_) (List.pairwise_map.mp h.distinct)
    rw [Family.bodies, h.arms_eq hf, List.mem_map] at hb
    rw [Family.bodies, h.arms_eq hg, List.mem_map] at hb'
    obtain ⟨a, ha, rfl⟩ := hb
    obtain ⟨a', ha', hbody'⟩ := hb'
    obtain ⟨arm, harm, ha⟩ := List.mem_filterMap.mp ha
    obtain ⟨arm', harm', ha'⟩ := List.mem_filterMap.mp ha'
    have hmem := hbody _ _ _ ha'
    rw [hbody'] at hmem
    obtain rfl := hinj arm harm arm' harm' _ (hbody _ _ _ ha) hmem
    exact hne (hkey _ _ _ _ _ ha ha')

section Visitor

variable {u u' : Tree} {V : Nat} {arms : List NodeId} {wild? : Option NodeId} {s : Sorted}
  {w : Option (Phase × NodeId)} (hf : u.Formed) (ho : u.Rooted) (hV : u.Reachable V)
  (kind : u.kind V = .visitor arms wild?) (hs : u.Sorts arms s) (wild : u.wildcardArm? wild? = .ok w)
include ho hV kind

theorem Tree.Rooted.nodup_arms : arms.Nodup ∧ ∀ a ∈ wild?, a ∉ arms := by
  have hnodup := ho.nodup V hV
  rw [Tree.children, kind] at hnodup
  simp only [Kind.children, List.nodup_append] at hnodup
  exact ⟨hnodup.1, fun a ha hmem => hnodup.2.2 a hmem a (by simpa using ha) rfl⟩

include hs

/-- The body of a shadow arm belongs to that arm. -/
theorem Tree.Rooted.parent_body {b : Nat} (hb : b ∈ s.families.flatMap Family.bodies) :
    ∃ arm ∈ arms, arm ∉ s.kept ∧ b ∈ u.children arm ∧ u.parent b = .some arm := by
  obtain ⟨f, hfam, hb⟩ := List.mem_flatMap.mp hb
  obtain ⟨a, ha, rfl⟩ := List.mem_map.mp hb
  obtain ⟨arm, harm, hr, -⟩ := hs.mem_family hfam ha
  obtain ⟨p, c, body, name, ascription, hk, -, hcase⟩ := shadowArm?_ok.mp hr
  obtain ⟨shadow, binder, -, -, hq⟩ := hcase.resolve_left (by simp)
  cases hq
  have hmem := body_mem_children hk
  refine ⟨arm, harm, fun hkept => ?_, hmem, ho.parent arm (Reaches.tail hV (arm_mem_children kind harm)) _ hmem⟩
  rw [(hs.mem_kept hkept).2] at hr
  cases hr

/-- The nodes that keep what they name: all but the visitor and its shadow arms. -/
def Tree.besides (u : Tree) (V : Nat) (arms kept : List NodeId) : Set Nat :=
  { x | u.Reachable x ∧ x ≠ V ∧ (x ∈ arms → x ∈ kept) }

include hf wild

theorem Tree.Rooted.adoptable :
    Adoptable (u.scope V) w s.families { arms := s.kept } u (u.besides V arms s.kept)
      { y | ∃ p b, w = .some (p, b) ∧ u.Reaches b y } := by
  have hlt : ∀ x : Nat, u.Reachable x → x < u.size := fun x hx => hf.bounded hx
  obtain ⟨hnodup, hwild⟩ := ho.nodup_arms hV kind
  have harm : ∀ a ∈ arms, a ∈ u.children V := fun a ha => arm_mem_children kind ha
  have hreach : ∀ a ∈ arms, u.Reachable a := fun a ha => Reaches.tail hV (harm a ha)
  have hbody : ∀ p b, w = .some (p, b) → ∃ x, wild? = .some x ∧ x ∈ u.children V ∧ b ∈ u.children x := by
    rintro p b rfl
    obtain ⟨x, binder, rfl, hx⟩ := wildcardArm?_some wild
    exact ⟨x, rfl, wildcard_mem_children kind, body_mem_children hx⟩
  have hbr : ∀ p b, w = .some (p, b) → u.Reachable b := fun p b hp => by
    obtain ⟨x, -, hxV, hbx⟩ := hbody p b hp
    exact (Reaches.tail hV hxV).tail hbx
  refine ⟨hf, hf.scope V (hlt V hV), fun x hx => hlt x hx.1, ho.ownedIn.mono fun x hx => hx.1,
    hs.nodup_bodies hnodup fun a ha a' ha' b hb hb' => ho.eq_of_mem (hreach a ha) (hreach a' ha') hb hb',
    fun b hb => ?_, ?_, fun a ha => ⟨⟨?_, fun p hp => ?_⟩, fun hmem => ?_⟩, ?_, fun p b hp => ⟨⟨p, b, hp, .refl u b⟩, ?_⟩,
    ?_⟩
  · obtain ⟨arm, ha, hkept, hmem, hp⟩ := ho.parent_body hV kind hs hb
    refine ⟨hlt b ((hreach arm ha).tail hmem), fun p hp' => ?_⟩
    obtain rfl := Option.some.inj (hp.symm.trans hp')
    exact ⟨hlt arm (hreach arm ha), fun hG => hkept (hG.2.2 ha)⟩
  · rw [hs.kept]
    exact hnodup.filter _
  · exact hlt a (hreach a (hs.mem_kept ha).1)
  · obtain rfl := Option.some.inj ((ho.parent V hV a (harm a (hs.mem_kept ha).1)).symm.trans hp)
    exact ⟨hlt V hV, fun hG => hG.2.1 rfl⟩
  · obtain ⟨arm, ha', -, hmem, hp⟩ := ho.parent_body hV kind hs hmem
    rw [ho.parent V hV a (harm a (hs.mem_kept ha).1)] at hp
    obtain rfl := Option.some.inj hp
    exact ho.noCircle hV (.single (harm V ha'))
  · refine ⟨fun y ⟨p, b, hp, hy⟩ => hlt y ((hbr p b hp).trans hy), fun y ⟨p, b, hp, hy⟩ c hc => ⟨p, b, hp, hy.tail hc⟩⟩
  · exact ho.acyclic.endsWithin (hbr p b hp)
  · rintro x ⟨p, b, hp, hbx⟩ a ha q c hk
    obtain ⟨y, hy, hyV, hby⟩ := hbody p b hp
    have ha' := (hs.mem_kept ha).1
    have heq := ho.disjoint hV (harm a ha') hyV (.single (body_mem_children hk)) (.head hby hbx)
    exact hwild y hy (heq ▸ ha')

end Visitor

/-- What is reachable after lowering a visitor was so before, or is new. -/
theorem VisitorLowered.reachable {u u' : Tree} {V x : Nat} (h : VisitorLowered V u u') (hf : u.Formed)
    (hV : u.Reachable V) (hx : u'.Reachable x) : u.Reachable x ∨ x ∈ fresh u u' := by
  have hclosed : u.Closed { x | u.Reachable x } := hf.program_closed
  exact ((h.step hclosed hV).closed hclosed).reaches (.inl (.refl u root)) hx

section Merged

variable {u v : Tree} {V : Nat} {arms : List NodeId} {wild? wild' : Option NodeId} {s : Sorted} {m : Merged}
  {w : Option (Phase × NodeId)} (hf : u.Formed) (ho : u.Rooted) (hV : u.Reachable V)
  (kind : u.kind V = .visitor arms wild?) (hs : u.Sorts arms s) (wild : u.wildcardArm? wild? = .ok w)
  (families : FamiliesMerged (u.scope V) w s.families { arms := s.kept } u m v)
include ho hV kind hs

/-- What the visitor lists is no body of its shadow arms. -/
theorem Tree.Rooted.not_body {c : Nat} (hc : c ∈ u.children V) : c ∉ s.families.flatMap Family.bodies := fun hmem => by
  obtain ⟨arm, harm, -, hb, -⟩ := ho.parent_body hV kind hs hmem
  have hmem := arm_mem_children kind harm
  obtain rfl := ho.eq_of_mem (Reaches.tail hV hmem) hV hb hc
  exact ho.noCircle hV (.single hmem)

include hf wild families

theorem FamiliesMerged.parent_child {c : Nat} (hc : c ∈ u.children V) : v.parent c = .some V := by
  rw [((ho.adoptable hf hV kind hs wild).run families).2 c (hf.child V (hf.bounded hV) c hc)
    (ho.not_body hV kind hs hc), ho.parent V hV c hc]

omit ho in
theorem FamiliesMerged.children_old {x c : Nat} (hx : x < u.size) (hc : c ∈ v.children x) :
    c ∈ u.children x ∨ c ∈ fresh u v :=
  have hbelow := hf.child V (hf.bounded hV)
  (families.step hf.closed (VisitorLowered.bodies_mem hf.closed hbelow kind hs)
    (VisitorLowered.wildcard_mem hf.closed hbelow kind wild)).child x hx c hc

omit ho in
theorem FamiliesMerged.reachable_new {x c : Nat} (hx : x ∈ fresh u v) (hc : c ∈ v.children x) :
    u.Reachable c ∨ c ∈ fresh u v := by
  have hclosed : u.Closed { x | u.Reachable x } := hf.program_closed
  have hbelow := hclosed.child V hV
  exact (families.step hclosed (VisitorLowered.bodies_mem hclosed hbelow kind hs)
    (VisitorLowered.wildcard_mem hclosed hbelow kind wild)).new x hx c hc

omit hf ho hV wild in
/-- The arms left over are old ones or new. -/
theorem FamiliesMerged.arm_cases {a : Nat} (ha : a ∈ m.arms) : a ∈ s.kept ∧ a ∈ u.children V ∨ a ∈ fresh u v :=
  (families.arms a ha).imp (fun hk => ⟨hk, arm_mem_children kind (hs.mem_kept hk).1⟩) (·.1)

theorem FamiliesMerged.wildcard_not_mem {a : Nat} (ha : a ∈ wild?) : a ∉ m.arms := fun hmem => by
  obtain rfl : wild? = .some a := ha
  rcases families.arms a hmem with hk | ⟨hnew, -⟩
  · exact (ho.nodup_arms hV kind).2 a rfl (hs.mem_kept hk).1
  · have := hf.child V (hf.bounded hV) a (wildcard_mem_children kind)
    exact absurd hnew.1 (by omega)

/-- The visitor with its new arms, all nodes besides it and its shadow arms,
and those added hold everything that they name. -/
theorem FamiliesMerged.closed (hsub : ∀ a ∈ wild', a ∈ wild?) :
    (v.withArms V m.arms wild').Closed (insert V (u.besides V arms s.kept ∪ fresh u v)) := by
  have hVlt := hf.bounded hV
  have hle := families.grows.size_le
  have hreach : ∀ c ∈ u.children V, u.Reachable c ∧ c ≠ V := fun c hc =>
    ⟨Reaches.tail hV hc, fun he => ho.noCircle hV (.single (he ▸ hc))⟩
  -- an arm of the visitor is named by the visitor only
  have harm : ∀ x c : Nat, x ≠ V → v.parent c = .some x → c ∉ arms := fun x c hne hp hc => by
    rw [families.parent_child hf ho hV kind hs wild (arm_mem_children kind hc)] at hp
    exact hne (Option.some.inj hp).symm
  refine ⟨?_, fun x hx c hc => ?_⟩
  · rintro x (rfl | hx | hx)
    · simpa using hVlt.trans_le hle
    · simpa using (hf.bounded hx.1).trans_le hle
    · simpa using hx.2
  by_cases hxV : x = V
  · subst hxV
    rw [Tree.children, kind_withArms, if_pos ⟨rfl, hVlt.trans_le hle⟩, Kind.children, List.mem_append] at hc
    rcases hc with hc | hc
    · rcases families.arm_cases kind hs hc with ⟨hk, hcx⟩ | hnew
      · exact .inr (.inl ⟨(hreach c hcx).1, (hreach c hcx).2, fun _ => hk⟩)
      · exact .inr (.inr hnew)
    · have hcw := hsub c (by simpa using hc)
      have hcx : c ∈ u.children x := by
        obtain rfl : wild? = .some c := hcw
        exact wildcard_mem_children kind
      exact .inr (.inl ⟨(hreach c hcx).1, (hreach c hcx).2, fun h => absurd h ((ho.nodup_arms hV kind).2 c hcw)⟩)
  · rw [Tree.children, kind_withArms, if_neg fun h => hxV h.1] at hc
    have hxG := hx.resolve_left hxV
    have hp := ((ho.adoptable hf hV kind hs wild).run families).1.owned.parent x hxG c hc
    by_cases hcV : c = V
    · exact .inl hcV
    have hold : u.Reachable c ∨ c ∈ fresh u v := by
      rcases hxG with hxG | hnew
      · exact (families.children_old hf hV kind hs wild (hf.bounded hxG.1) hc).imp_left fun h => Reaches.tail hxG.1 h
      · exact families.reachable_new hf hV kind hs wild hnew hc
    exact .inr (hold.imp_left fun hcu => ⟨hcu, hcV, fun hmem => absurd hmem (harm x c hxV hp)⟩)

theorem FamiliesMerged.ownedIn (hsub : ∀ a ∈ wild', a ∈ wild?) :
    (v.withArms V m.arms wild').OwnedIn (insert V (u.besides V arms s.kept ∪ fresh u v)) := by
  have hVlt := (hf.bounded hV).trans_le families.grows.size_le
  have hrun := ((ho.adoptable hf hV kind hs wild).run families).1
  have hkV : (v.withArms V m.arms wild').children V = m.arms ++ wild'.toList := by
    rw [Tree.children, kind_withArms, if_pos ⟨rfl, hVlt⟩]
    rfl
  have hkx : ∀ x, x ≠ V → (v.withArms V m.arms wild').children x = v.children x := fun x hne => by
    rw [Tree.children, kind_withArms, if_neg fun h => hne h.1]
    rfl
  have hwild : ∀ a ∈ wild'.toList, a ∉ m.arms ∧ a ∈ u.children V := fun a ha => by
    obtain rfl : wild? = .some a := hsub a (by simpa using ha)
    exact ⟨families.wildcard_not_mem hf ho hV kind hs wild rfl, wildcard_mem_children kind⟩
  refine ⟨fun x hx => ?_, fun x hx c hc => ?_⟩ <;> by_cases hxV : x = V
  · subst hxV
    rw [hkV, List.nodup_append]
    exact ⟨hrun.nodup, by cases wild' <;> simp, fun a ha b hb he => (hwild b hb).1 (he ▸ ha)⟩
  · rw [hkx x hxV]
    exact hrun.owned.nodup x (hx.resolve_left hxV)
  · subst hxV
    rw [hkV, List.mem_append] at hc
    rw [parent_withArms]
    rcases hc with hc | hc
    · rw [if_pos ⟨hc, (hrun.arms c hc).1.1⟩]
    · rw [if_neg fun h => (hwild c hc).1 h.1, families.parent_child hf ho hV kind hs wild (hwild c hc).2]
  · rw [hkx x hxV] at hc
    have hp := hrun.owned.parent x (hx.resolve_left hxV) c hc
    rw [parent_withArms, if_neg fun h => (hrun.arms c h.1).1.ne x (hx.resolve_left hxV) hp, hp]

/-- All nodes but the bodies of shadow arms keep their parents. -/
theorem FamiliesMerged.parent_of_not_body {x : Nat} (hx : x < u.size) (hfree : x ∉ s.families.flatMap Family.bodies) :
    (v.withArms V m.arms wild').parent x = u.parent x := by
  rw [parent_withArms]
  split
  next h =>
    rcases families.arm_cases kind hs h.1 with ⟨-, hc⟩ | hnew
    · exact (ho.parent V hV x hc).symm
    · exact absurd hnew.1 (by omega)
  next => exact ((ho.adoptable hf hV kind hs wild).run families).2 x hx hfree

theorem FamiliesMerged.parent_withArms_eq {x : Nat} (hx : x < u.size) (hfree : ∀ y, u.Reachable y → x ∉ u.children y) :
    (v.withArms V m.arms wild').parent x = u.parent x := by
  refine families.parent_of_not_body hf ho hV kind hs wild hx fun hmem => ?_
  obtain ⟨arm, harm, -, hb, -⟩ := ho.parent_body hV kind hs hmem
  exact hfree arm (Reaches.tail hV (arm_mem_children kind harm)) hb

/-- The root is still named by none: new nodes name new ones and nodes below the
visitor. -/
theorem FamiliesMerged.root_free {x : Nat} (hsub : ∀ a ∈ wild', a ∈ wild?)
    (hx : x ∈ insert V (u.besides V arms s.kept ∪ fresh u v)) : root ∉ (v.withArms V m.arms wild').children x := by
  have hVlt := ho.bounded V hV
  have hold : ∀ {y}, u.Reachable y → root ∈ u.children y ∨ root ∈ fresh u v → False := fun hy hroot =>
    hroot.elim (ho.root_free _ hy) fun hnew => absurd hnew.1 (Nat.not_le.mpr hf.root_lt)
  rw [Tree.children, kind_withArms]
  intro hmem
  split at hmem
  next =>
    refine hold hV ?_
    rcases List.mem_append.mp hmem with harm | hwild
    · exact (families.arm_cases kind hs harm).imp_left (·.2)
    · obtain rfl : wild? = .some root := hsub root (by simpa using hwild)
      exact .inl (wildcard_mem_children kind)
  next hne =>
    rcases hx with rfl | hx | hnew
    · exact hne ⟨rfl, hVlt.trans_le families.grows.size_le⟩
    · exact hold hx.1 (families.children_old hf hV kind hs wild (ho.bounded x hx.1) hmem)
    · have hclosed : u.Closed { y | ∃ c ∈ u.children V, u.Reaches c y } := by
        refine ⟨fun y hy => ?_, fun y hy d hd => ?_⟩
        · obtain ⟨c, hc, hcy⟩ := hy
          exact ho.bounded y (Reaches.trans (Reaches.tail hV hc) hcy)
        · obtain ⟨c, hc, hcy⟩ := hy
          exact ⟨c, hc, hcy.tail hd⟩
      have hbelow : ∀ c ∈ u.children V, c ∈ { y | ∃ c ∈ u.children V, u.Reaches c y } := fun c hc => ⟨c, hc, .refl u c⟩
      have hstep := families.step hclosed (VisitorLowered.bodies_mem hclosed hbelow kind hs)
        (VisitorLowered.wildcard_mem hclosed hbelow kind wild)
      rcases hstep.new x hnew root hmem with ⟨c, hc, hroot⟩ | hroot
      · exact ho.not_reaches_self hV hc (hroot.trans hV)
      · exact hold hV (.inr hroot)

/-- A shadow arm still has the visitor for its parent, which names it no more. -/
theorem FamiliesMerged.parent_arm {x : Nat} (hx : x ∈ arms) : (v.withArms V m.arms wild').parent x = .some V := by
  rw [parent_withArms]
  split
  · rfl
  · exact families.parent_child hf ho hV kind hs wild (arm_mem_children kind hx)

end Merged

/-- A visitor has the wildcard that it had, or none. -/
theorem Merged.mem_wildcard (m : Merged) (wild? : Option NodeId) {a : Nat}
    (h : a ∈ (if m.usedWildcard then .none else wild? : Option NodeId)) : a ∈ wild? := by
  split at h
  · cases h
  · exact h

/-- Lowering a visitor leaves the program a tree and what is outside of it as
it was. -/
theorem VisitorLowered.reworks {u u' : Tree} {V : Nat} (h : VisitorLowered V u u') (hf : u.Formed) (ho : u.Owned)
    (hV : u.Reachable V) : ∃ G, Reworks u u' G := by
  have hformed := (h.later_formed hf).2
  have hkind := fun x => h.kind_eq (x := x)
  cases h with
  | other | plain => exact ⟨_, .refl hf ho⟩
  | @merged arms wild? s w m v kind sorted some wild families =>
    have hs := sorts sorted
    have hr := ho.rooted hf
    have hsub := fun a => m.mem_wildcard wild? (a := a)
    have hclosed := families.closed hf hr hV kind hs wild hsub
    have hfree := fun x => families.root_free (x := x) hf hr hV kind hs wild hsub
    generalize (if m.usedWildcard then .none else wild? : Option NodeId) = wild' at *
    have hle := families.grows.size_le
    have hroot : u.Reachable root := .refl u root
    have hbesides : ∀ x, u.Reachable x → x ∉ insert V (u.besides V arms s.kept ∪ fresh u v) → x ∈ arms := by
      intro x hx hnot
      by_contra hne
      exact hnot (.inr (.inl ⟨hx, fun he => hnot (.inl he), fun h => absurd h hne⟩))
    refine ⟨insert V (u.besides V arms s.kept ∪ fresh u v), hformed, by simpa using hle, ?_, hclosed,
      families.ownedIn hf hr hV kind hs wild hsub, ?_, fun x hx => .inr (.inr (by simpa [fresh] using hx)),
      fun x hx hnot => ?_, fun x hx hnot => families.parent_withArms_eq hf hr hV kind hs wild hx fun y hy hxy =>
        hnot (Reaches.tail hy hxy),
      fun x hx hnot => ?_, hfree, families.parent_withArms_eq hf hr hV kind hs wild hf.root_lt ho.root_free⟩
    · by_contra hnot
      exact ho.root_free V hV (arm_mem_children kind (hbesides root hroot hnot))
    · rintro x (rfl | hx | hx)
      · exact .inl hV
      · exact .inl hx.1
      · exact .inr (by simpa [fresh] using hx)
    · refine hkind x hx (fun he => hnot (.inl he)) ?_
      rintro ⟨-, arms', wild₂, arm, p, c, hk, harm, hka⟩
      rw [kind, Kind.visitor.injEq] at hk
      obtain ⟨rfl, rfl⟩ := hk
      have hra := Reaches.tail hV (arm_mem_children kind harm)
      have hxa := body_mem_children hka
      have hxV := arm_mem_children kind (hbesides x (hra.tail hxa) hnot)
      obtain rfl := ho.eq_of_mem hra hV hxa hxV
      exact ho.noCircle hra (.single (arm_mem_children kind harm))
    · rw [families.parent_arm hf hr hV kind hs wild (hbesides x hx hnot)]
      simp

end Families

end Penumbra
