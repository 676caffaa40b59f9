/-
The arms that enclose a node.

Merging a family takes the bodies of its arms out of them and puts them into
the arm that the family is merged into. All other arms around a node stay
around it. So a variable that an arm binds is still bound by an arm of that
name, unless every arm around the node that binds it is a shadow arm and was
merged into one with another name (`lower_keeps_binders`). In the scopes, on
which arms have no bearing, what was bound stays bound.
-/
import Penumbra.Proofs.Tree.CheckedTrees
import Penumbra.Proofs.Pass.NodeQueue
import Penumbra.Proofs.Lower.FamilySwitch

namespace Penumbra

open Tree

namespace Tree

variable {t t' : Tree} {x y a arm : Nat} {token : String}

/-! ## Ancestors -/

/-- A node of the program from which child lists lead to `x`. -/
structure Above (t : Tree) (a x : NodeId) : Prop where
  reachable : t.Reachable a
  leads : Relation.TransGen t.Child a x

theorem Above.tail (h : t.Above a x) (hy : y ∈ t.children x) : t.Above a y := ⟨h.reachable, h.leads.tail hy⟩

theorem Above.single (ha : t.Reachable a) (hx : x ∈ t.children a) : t.Above a x := ⟨ha, .single hx⟩

/-- Whatever lists a node of an owned program is its parent. -/
theorem Owned.exists_parent (ho : t.Owned) (hx : t.Reachable x) :
    x = root ∨ ∃ z, t.Reachable z ∧ x ∈ t.children z ∧ t.parent x = .some z :=
  hx.casesTail.imp_right fun ⟨z, hz, hxz⟩ => ⟨z, hz, hxz, ho.parent z hz x hxz⟩

theorem mem_ancestorsUpTo_succ {n : Nat} (ha : a ∈ t.ancestorsUpTo n x) (hp : t.parent a = .some y) :
    y ∈ t.ancestorsUpTo (n + 1) x := by
  induction n generalizing x with
  | zero => cases ha
  | succ n ih =>
    rw [ancestorsUpTo] at ha ⊢
    cases hx : t.parent x with
    | none =>
      rw [hx] at ha
      cases ha
    | some z =>
      rw [hx] at ha
      simp only
      rcases List.mem_cons.mp ha with rfl | ha
      · rw [ancestorsUpTo, hp]
        exact List.mem_cons_of_mem _ List.mem_cons_self
      · exact List.mem_cons_of_mem _ (ih ha)

/-- In an owned program whose root has no parent link, the links lead through the
nodes above. -/
theorem Owned.mem_ancestors (ho : t.Owned) (hf : t.Formed) (hroot : t.parent root = .none) (hx : t.Reachable x) :
    a ∈ t.ancestors x ↔ t.Above a x := by
  constructor
  · have hup : ∀ n x, t.Reachable x → a ∈ t.ancestorsUpTo n x → t.Above a x := by
      intro n
      induction n with
      | zero => exact fun _ _ ha => absurd ha List.not_mem_nil
      | succ n ih =>
        intro x hx ha
        rw [ancestorsUpTo] at ha
        rcases ho.exists_parent hx with rfl | ⟨z, hz, hxz, hp⟩
        · rw [hroot] at ha
          cases ha
        · rw [hp] at ha
          rcases List.mem_cons.mp ha with rfl | ha
          · exact .single hz hxz
          · exact (ih z hz ha).tail hxz
    exact hup t.size x hx
  · rintro ⟨ha, hax⟩
    have hdown : ∀ n a, t.Reachable a → t.EndsWithin n a → Relation.TransGen t.Child a x → a ∈ t.ancestorsUpTo n x := by
      intro n
      induction n with
      | zero => exact fun _ _ h _ => h.elim
      | succ n ih =>
        intro a ha hn hax
        rcases Relation.TransGen.head'_iff.mp hax with ⟨c, hc, hcx⟩
        rcases Relation.reflTransGen_iff_eq_or_transGen.mp hcx with rfl | hcx
        · rw [ancestorsUpTo, ho.parent a ha _ hc]
          exact List.mem_cons_self
        · exact mem_ancestorsUpTo_succ (ih c (ha.tail hc) (hn c hc) hcx) (ho.parent a ha c hc)
    exact hdown t.size a ha ((ho.acyclic hf).endsWithin ha) hax

/-! ## Binders -/

/-- The variable that an arm binds. -/
def binder? (t : Tree) (arm : NodeId) : Option String :=
  match t.kind arm with
  | .arm _ (.some c) _ =>
    match t.kind c with
    | .component name _ => t.token? name
    | _ => .none
  | _ => .none

theorem binder?_eq_some : t.binder? arm = .some token ↔
    ∃ p c body name ascription, t.kind arm = .arm p (.some c) body ∧ t.kind c = .component name ascription ∧
      t.kind name = .ident token := by
  rw [binder?]
  constructor
  · intro h
    split at h
    next p c body hk =>
      split at h
      next name ascription hc => exact ⟨p, c, body, name, ascription, hk, hc, token?_eq_some.mp h⟩
      next => cases h
    next => cases h
  · rintro ⟨p, c, body, name, ascription, hk, hc, hn⟩
    simp only [hk, hc]
    exact token?_eq_some.mpr hn

/-- Lowering does not touch binders. -/
theorem Grows.binder? (h : t.Grows t') (hf : t.Formed) (harm : arm < t.size) : t'.binder? arm = t.binder? arm := by
  refine Option.ext fun token => ?_
  rw [binder?_eq_some, binder?_eq_some]
  constructor
  · rintro ⟨p, c, body, name, ascription, hk, hc, hn⟩
    have hk := (h.kind_iff harm rfl (by simp)).mp hk
    have hclt := hf.child arm harm c (binder_mem_children hk)
    have hc := (h.kind_iff hclt rfl (by simp)).mp hc
    exact ⟨p, c, body, name, ascription, hk, hc,
      (h.kind_iff (hf.child c hclt name (name_mem_children hc)) rfl (by simp)).mp hn⟩
  · rintro ⟨p, c, body, name, ascription, hk, hc, hn⟩
    have hclt := hf.child arm harm c (binder_mem_children hk)
    exact ⟨p, c, body, name, ascription, (h.kind_iff harm rfl (by simp)).mpr hk, (h.kind_iff hclt rfl (by simp)).mpr hc,
      (h.kind_iff (hf.child c hclt name (name_mem_children hc)) rfl (by simp)).mpr hn⟩

/-- What an arm binds is bound for good. -/
theorem Grows.binder?_mono (h : t.Grows t') (hb : t.binder? arm = .some token) : t'.binder? arm = .some token := by
  rw [binder?_eq_some] at hb ⊢
  obtain ⟨p, c, body, name, ascription, hk, hc, hn⟩ := hb
  exact ⟨p, c, body, name, ascription, (h.kind_iff (lt_size_of_kind hk (by simp)) rfl (by simp)).mpr hk,
    (h.kind_iff (lt_size_of_kind hc (by simp)) rfl (by simp)).mpr hc,
    (h.kind_iff (lt_size_of_kind hn (by simp)) rfl (by simp)).mpr hn⟩

theorem binder?_of_shadowArm? {p : Phase} {s : ShadowArm} (h : t.shadowArm? arm = .ok (.some (p, s))) :
    t.binder? arm = .some s.binder := by
  obtain ⟨q, c, body, name, ascription, hk, hc, hr⟩ := shadowArm?_ok.mp h
  obtain ⟨shadow, binder, -, hn, heq⟩ := hr.resolve_left (by simp)
  cases heq
  exact binder?_eq_some.mpr ⟨_, c, _, name, ascription, hk, hc, hn⟩

/-- Child lists lead from `a` to `b`, through nodes that are no visitors. -/
def Inside (t : Tree) (a b : NodeId) : Prop :=
  Relation.TransGen (fun y c => t.isVisitor y = false ∧ c ∈ t.children y) a b

theorem Inside.mono (h : t.Inside a x) (hg : t.Grows t') : t'.Inside a x :=
  Relation.TransGen.mono (fun _ _ ⟨hv, hc⟩ => ⟨hg.isVisitor (lt_size_of_mem_children hc) ▸ hv, hg.child_mono hv hc⟩) _ _ h

end Tree

/-! ## Where families end up -/

section Families

variable {f : Family} {binder : String} {target b vs : Nat} {default : Option Nat} {v v' : Tree}
  {wildcard : Option (Phase × NodeId)} {m m' : Merged} {fs : List Family}

/-- The bodies of a family come to lie inside the block it is merged into. -/
theorem MergedInto.inside (h : MergedInto f binder target default v v') (hb : b ∈ f.bodies) : v'.Inside target b := by
  have hat := SwitchAt.of_merged h
  obtain ⟨a, ha, rfl⟩ := List.mem_map.mp hb
  obtain ⟨j, hj⟩ := List.getElem?_of_mem ha
  have hjlt : j < f.arms.length := (List.getElem?_eq_some_iff.mp hj).1
  have hnot : ∀ {y k}, v'.kind y = k → (∀ arms w, k ≠ .visitor arms w) → v'.isVisitor y = false := fun hk hv => by
    rw [Bool.eq_false_iff]
    intro hvis
    obtain ⟨arms, w, hk'⟩ := isVisitor_iff.mp hvis
    exact hv arms w (hk.symm.trans hk')
  have htarget : v'.isVisitor target = false := by
    obtain ⟨l, ⟨-, hk⟩ | ⟨-, hk⟩⟩ := h.kind_target <;> exact hnot hk (by simp)
  refine .tail (.tail (.single ⟨htarget, ?_⟩) ⟨hnot hat.switch (by simp), ?_⟩) ⟨hnot (hat.case j a hj) (by simp), ?_⟩
  · rw [h.children_target]
    exact List.mem_append_right _ (List.mem_singleton.mpr rfl)
  · rw [Tree.children, hat.switch]
    simp only [Kind.children, List.mem_cons, List.mem_append]
    exact .inr (.inl (mem_pairIds.mpr ⟨j, hjlt, by omega⟩))
  · rw [Tree.children, hat.case j a hj]
    simp [Kind.children]

/-- An arm whose body a family was merged into has the bodies of the family
inside. -/
theorem MergedInto.heir (h : MergedInto f binder target default v v') {arm name c ascription : Nat} {p : Phase}
    (harm : v.kind arm = .arm p (.some c) target) (hc : v.kind c = .component name ascription)
    (hn : v.kind name = .ident binder) : (∀ b ∈ f.bodies, v'.Inside arm b) ∧ v'.binder? arm = .some binder := by
  have hk := (h.grows.kind_iff (lt_size_of_kind harm (by simp)) rfl (by simp)).mpr harm
  refine ⟨fun b hb => .head ⟨?_, body_mem_children hk⟩ (h.inside hb), h.grows.binder?_mono (binder?_eq_some.mpr
    ⟨p, c, target, name, ascription, harm, hc, hn⟩)⟩
  simp [isVisitor, hk]

theorem FamilyMerged.heir (h : FamilyMerged vs wildcard f m v m' v') :
    ∃ arm ∈ m'.arms, (∀ b ∈ f.bodies, v'.Inside arm b) ∧ ∃ token, v'.binder? arm = .some token := by
  cases h with
  | @existing name body binder _ found named merged =>
    obtain ⟨arm, harm, hbinds⟩ := List.exists_of_findSome?_eq_some found
    obtain ⟨c, ascription, hk, hc, -⟩ := bindsConcrete?_eq_some.mp hbinds
    obtain ⟨hin, htok⟩ := merged.heir hk hc named
    exact ⟨arm, harm, hin, binder, htok⟩
  | @made default v₁ _ absent copied merged =>
    have hmade := (f.madeArm_armed vs v).mono copied.grows.grows
    obtain ⟨hin, htok⟩ := merged.heir hmade.arm hmade.component hmade.name
    exact ⟨v.size + 4, List.mem_append_right _ (List.mem_singleton.mpr rfl), hin, _, htok⟩

/-- Every body of a family comes to lie inside an arm. -/
theorem FamiliesMerged.heir (h : FamiliesMerged vs wildcard fs m v m' v') (hf : f ∈ fs) (hb : b ∈ f.bodies) :
    ∃ arm ∈ m'.arms, v'.Inside arm b ∧ ∃ token, v'.binder? arm = .some token := by
  induction h with
  | nil => cases hf
  | @cons g fs m m₁ m' v v₁ v' first rest ih =>
    rcases List.mem_cons.mp hf with rfl | hf
    · obtain ⟨arm, harm, hin, token, htok⟩ := first.heir
      exact ⟨arm, rest.arms_subset harm, (hin b hb).mono rest.grows, token, rest.grows.binder?_mono htok⟩
    · exact ih hf

/-- An arm that a family was given binds what the first arm of the family
bound. -/
theorem FamiliesMerged.binder_cases (h : FamiliesMerged vs wildcard fs m v m' v') {arm : Nat} (ha : arm ∈ m'.arms) :
    arm ∈ m.arms ∨ ∃ f ∈ fs, v'.binder? arm = .some f.first.binder := by
  refine (h.madeArm_cases ha).imp_right ?_
  rintro ⟨f, hf, n, rfl, hmade⟩
  exact ⟨f, hf, binder?_eq_some.mpr ⟨_, _, _, _, _, hmade.arm, hmade.component, hmade.name⟩⟩

end Families

/-! ## Around a node -/

namespace Tree

/-- The visitor `V` has the arm `a`, which is not its wildcard. -/
def HasArm (t : Tree) (V a : NodeId) : Prop := ∃ arms w, t.kind V = .visitor arms w ∧ a ∈ arms

/-- One that binds a variable of a shadow type. -/
def ShadowArmOf (t : Tree) (V a : NodeId) : Prop :=
  t.HasArm V a ∧ ∃ p s, t.shadowArm? a = .ok (.some (p, s))

/-- In `u` the arm `b` of the visitor `V` is around `x`, and it binds what an arm
of `V` binds in `t`. -/
structure Heir (t u : Tree) (V b x : NodeId) : Prop where
  visitor : u.Above V x
  listed : u.HasArm V b
  above : u.Above b x
  named : ∃ a token, t.HasArm V a ∧ t.binder? a = .some token ∧ u.binder? b = .some token

theorem Heir.tail {t u : Tree} {V b x y : NodeId} (h : Heir t u V b x) (hy : y ∈ u.children x) : Heir t u V b y :=
  ⟨h.visitor.tail hy, h.listed, h.above.tail hy, h.named⟩

end Tree

section Around

variable {t t' u u' : Tree} {V x a : Nat} {l : List Nat}

theorem Tree.hasArm_iff {arms : List NodeId} {w : Option NodeId} (hk : t.kind V = .visitor arms w) :
    t.HasArm V a ↔ a ∈ arms := by
  refine ⟨fun ⟨arms', w', hk', ha⟩ => ?_, fun ha => ⟨arms, w, hk, ha⟩⟩
  rw [hk] at hk'
  cases hk'
  exact ha

/-- What a visitor lists is no arm of another one. -/
theorem Tree.HasArm.mem (h : t.HasArm V a) : a ∈ t.children V := by
  obtain ⟨arms, w, hk, ha⟩ := h
  exact arm_mem_children hk ha

/-- A visitor stays where it is when it is lowered. -/
theorem VisitorLowered.above_visitor (h : VisitorLowered V u u') (ho : u.Owned) (hV : u.Reachable V) (ha : u.Reachable a)
    (haV : u.Reaches a V) : u'.Reachable a ∧ u'.Reaches a V := by
  refine ⟨h.reaches_mono ha fun y _ hya he => ?_, h.reaches_mono haV fun y _ hyV he => ?_⟩
  · subst he
    exact ho.noCircle hV (hya.trans_left haV)
  · subst he
    exact ho.noCircle hV hyV

/-- The body of a shadow arm comes to lie inside another arm of its visitor. -/
theorem VisitorLowered.heir {v : Tree} {arms : List NodeId} {wild? wild' : Option NodeId} {s : Sorted} {m : Merged}
    {w : Option (Phase × NodeId)} (hf : u.Formed) (kind : u.kind V = .visitor arms wild?) (hs : u.Sorts arms s)
    (families : FamiliesMerged (u.scope V) w s.families { arms := s.kept } u m v)
    (hV' : (v.withArms V m.arms wild').Reachable V) (hx : x ∈ s.families.flatMap Family.bodies) :
    ∃ b, Heir u (v.withArms V m.arms wild') V b x := by
  obtain ⟨f, hfs, hx⟩ := List.mem_flatMap.mp hx
  obtain ⟨b, hb, hin, token, htok⟩ := families.heir hfs hx
  have hVlt : V < u.size := lt_size_of_kind kind (by simp)
  have hgrows := Grows.withArms v V m.arms wild' (families.isVisitor kind)
  have hlisted : (v.withArms V m.arms wild').HasArm V b :=
    ⟨m.arms, wild', by rw [kind_withArms, if_pos ⟨rfl, hVlt.trans_le families.grows.size_le⟩], hb⟩
  have hleads : Relation.TransGen (v.withArms V m.arms wild').Child b x :=
    Relation.TransGen.mono (fun _ _ hc => hc.2) _ _ (hin.mono hgrows)
  refine ⟨b, ⟨hV', .head hlisted.mem hleads⟩, hlisted, ⟨hV'.tail hlisted.mem, hleads⟩, ?_⟩
  rcases families.binder_cases hb with hkept | ⟨g, hg, hbinder⟩
  · have harm := (hs.mem_kept hkept).1
    have hblt := hf.child V hVlt b (arm_mem_children kind harm)
    exact ⟨b, token, ⟨arms, wild?, kind, harm⟩, families.grows.binder? hf hblt ▸ htok, hgrows.binder?_mono htok⟩
  · obtain ⟨arm, harm, hr, -⟩ := hs.mem_family hg (a := g.first) List.mem_cons_self
    exact ⟨arm, g.first.binder, ⟨arms, wild?, kind, harm⟩, binder?_of_shadowArm? hr, hgrows.binder?_mono hbinder⟩

/-- All that is above a node stays so when a visitor is lowered, but for a shadow
arm of the visitor, which has an heir. -/
theorem VisitorLowered.above (h : VisitorLowered V u u') (hf : u.Formed) (ho : u.Owned) (hV : u.Reachable V)
    (hx : u'.Reachable x) (hax : u.Above a x) : u'.Above a x ∨ u.ShadowArmOf V a ∧ ∃ b, Heir u u' V b x := by
  have hstays := fun {a : Nat} => h.above_visitor (a := a) ho hV
  obtain ⟨G, hG⟩ := h.reworks hf ho hV
  cases h with
  | other | plain => exact .inl hax
  | @merged arms wild? s w m v kind sorted some wild families =>
    have hs := sorts sorted
    generalize (if m.usedWildcard then .none else wild? : Option NodeId) = wild' at *
    obtain ⟨ha, hax⟩ := hax
    have hVV := hstays hV (.refl u V)
    -- a node that is no body of a shadow arm keeps its parent
    have hlisted : ∀ {x z : Nat}, (v.withArms V m.arms wild').Reachable x → u.Reachable z → x ∈ u.children z →
        x ∉ s.families.flatMap Family.bodies → (v.withArms V m.arms wild').Reachable z ∧
          x ∈ (v.withArms V m.arms wild').children z := fun {x z} hx hz hxz hnot => by
      have hp : (v.withArms V m.arms wild').parent x = u.parent x :=
        families.parent_of_not_body hf (ho.rooted hf) hV kind hs wild (hf.child z (hf.bounded hz) x hxz) hnot
      rw [ho.parent z hz x hxz] at hp
      rcases hG.isOwned.exists_parent hx with rfl | ⟨z', hz', hxz', hp'⟩
      · exact absurd hxz (ho.root_free z hz)
      · obtain rfl := Option.some.inj (hp'.symm.trans hp)
        exact ⟨hz', hxz'⟩
    have hbody : ∀ {x z : Nat}, u.Reachable z → x ∈ u.children z → x ∈ s.families.flatMap Family.bodies →
        u.ShadowArmOf V z := fun {x z} hz hxz hmem => by
      obtain ⟨f, hfs, hmem⟩ := List.mem_flatMap.mp hmem
      obtain ⟨sa, hsa, rfl⟩ := List.mem_map.mp hmem
      obtain ⟨arm, harm, hr, -⟩ := hs.mem_family hfs hsa
      obtain ⟨p, c, body, name, ascription, hk, -, hcase⟩ := shadowArm?_ok.mp hr
      obtain ⟨shadow, binder, -, -, hq⟩ := hcase.resolve_left (by simp)
      cases hq
      obtain rfl := ho.eq_of_mem (Reaches.tail hV (arm_mem_children kind harm)) hz (body_mem_children hk) hxz
      exact ⟨⟨arms, wild?, kind, harm⟩, _, _, hr⟩
    -- from the node upward, a shadow arm being left for the visitor
    induction hax with
    | @single x hxa =>
      by_cases hmem : x ∈ s.families.flatMap Family.bodies
      · exact .inr ⟨hbody ha hxa hmem, VisitorLowered.heir hf kind hs families hVV.1 hmem⟩
      · obtain ⟨ha', hxa'⟩ := hlisted hx ha hxa hmem
        exact .inl (.single ha' hxa')
    | @tail z x haz hxz ih =>
      have hz : u.Reachable z := ha.trans haz.to_reflTransGen
      by_cases hmem : x ∈ s.families.flatMap Family.bodies
      · obtain ⟨y, hay, hzy⟩ := Relation.TransGen.tail'_iff.mp haz
        obtain rfl := ho.eq_of_mem (ha.trans hay) hV hzy (hbody hz hxz hmem).1.mem
        obtain ⟨b, hb⟩ := VisitorLowered.heir hf kind hs families hVV.1 hmem
        obtain ⟨ha', hay'⟩ := hstays ha hay
        exact .inl ⟨ha', .trans_right hay' hb.visitor.leads⟩
      · obtain ⟨hz', hxz'⟩ := hlisted hx hz hxz hmem
        exact (ih hz').imp (fun h => h.tail hxz') fun ⟨hshadow, b, hb⟩ => ⟨hshadow, b, hb.tail hxz'⟩

/-- Merging binds variables and sets free none. -/
theorem kept_vars (e : Env) : Kept (fun v _ => e.size ≤ v.env.size ∧ e.KeepsVars v.env) fun _ => True where
  armed f vs v S _ _ h := by
    rw [f.env_armed, Family.bindNew, Env.size_declare, Env.size_child]
    exact ⟨h.1.trans (Nat.le_succ _), (h.2.child h.1).declare⟩
  mirrored v v' S φ _ hφ h := hφ.env ▸ h
  merged f binder target default v v' S _ _ hm h := by
    rw [hm.env]
    have hfold : ∀ (arms : List ShadowArm) (e' : Env), e.size ≤ e'.size ∧ e.KeepsVars e' →
        e.size ≤ (arms.foldl (fun e a => e.set a.scope a.binder a.shadow.shadowedTy) e').size ∧
          e.KeepsVars (arms.foldl (fun e a => e.set a.scope a.binder a.shadow.shadowedTy) e') := by
      intro arms
      induction arms with
      | nil => exact fun _ h => h
      | cons a arms ih => exact fun e' h => ih _ ⟨h.1.trans (Env.size_declare ..).ge, h.2.declare⟩
    exact hfold f.arms v.env h

/-- How a run of `lower` on `t` that has come to `u` has changed what is above the
nodes of the program. -/
structure Around (t u : Tree) (l : List Nat) : Prop where
  pending : Pending t u l
  owned : u.Owned
  queued : Queued u l
  root_parent : u.parent root = t.parent root
  back : ∀ x < t.size, u.Reachable x → t.Reachable x
  above : ∀ x < t.size, u.Reachable x → ∀ a, t.Above a x →
    u.Above a x ∨ ∃ V b, V ∉ l ∧ t.ShadowArmOf V a ∧ Heir t u V b x
  vars : t.env.size ≤ u.env.size ∧ t.env.KeepsVars u.env

theorem Around.refl (hf : t.Formed) (ho : t.Owned) : Around t t ((t.postOrder root).filter t.isVisitor) := by
  refine ⟨⟨.refl t, hf, ho.nodup_postOrder.filter _, fun W hW => (List.mem_filter.mp hW).2, fun _ _ => rfl⟩, ho,
    ho.queued hf, rfl, fun _ _ hx => hx, fun _ _ _ _ ha => .inl ha, le_rfl, fun _ _ _ hb => hb⟩

theorem Around.next (h : Around t u (V :: l)) (hf : t.Formed) (hl : VisitorLowered V u u') : Around t u' l := by
  have hV := h.queued.reachable V List.mem_cons_self
  have hVl := (List.nodup_cons.mp h.pending.nodup).1
  have hkV := h.pending.kind V List.mem_cons_self
  have hVlt : V < t.size := by
    obtain ⟨arms, w, hk⟩ := isVisitor_iff.mp (h.pending.visitor V List.mem_cons_self)
    exact lt_size_of_kind hk (by simp)
  have hfu := h.pending.formed
  have hle := h.pending.later.grows.size_le
  obtain ⟨G, hG⟩ := hl.reworks hfu h.owned hV
  have hback : ∀ x < t.size, u'.Reachable x → u.Reachable x := fun x hx hx' =>
    (hl.reachable hfu hV hx').resolve_right fun hnew => absurd hnew.1 (by omega)
  -- while `V` is pending, its arms are those it has in `t`
  have harm : ∀ {a : Nat}, u.HasArm V a → t.HasArm V a ∧ a < t.size := fun {a} ⟨arms, w, hk, ha⟩ => by
    rw [hkV] at hk
    exact ⟨⟨arms, w, hk, ha⟩, hf.child V hVlt a (arm_mem_children hk ha)⟩
  refine ⟨h.pending.next hf hl, hG.isOwned, h.queued.next hfu (hl.confined hfu hV), hG.root_parent.trans h.root_parent,
    fun x hx hx' => h.back x hx (hback x hx hx'), fun x hx hx' a ha => ?_,
    hl.kept (kept_vars t.env) (fun v _ arms w _ _ hv => by simpa using hv)
      (fun _ _ _ _ _ _ _ _ => trivial) hfu.closed (hfu.bounded hV) h.vars⟩
  rcases h.above x hx (hback x hx hx') a ha with hau | ⟨W, b, hWl, hshadow, hb⟩
  · refine (hl.above hfu h.owned hV hx' hau).imp_right fun ⟨⟨hlisted, p, sa, hr⟩, b, hb⟩ => ?_
    obtain ⟨hlisted, halt⟩ := harm hlisted
    obtain ⟨a₀, token, ha₀, htok, hbtok⟩ := hb.named
    obtain ⟨ha₀, hlt⟩ := harm ha₀
    exact ⟨V, b, hVl, ⟨hlisted, p, sa, (h.pending.later.shadowArm? hf halt).mp hr⟩, hb.visitor, hb.listed, hb.above,
      a₀, token, ha₀, h.pending.later.grows.binder? hf hlt ▸ htok, hbtok⟩
  · obtain ⟨hWV, hWl⟩ := not_or.mp (fun hmem => hWl (List.mem_cons.mpr hmem))
    obtain ⟨arms, w, hkW, hbarms⟩ := hb.listed
    refine .inr ⟨W, b, hWl, hshadow, ?_, ?_, ?_, ?_⟩
    · refine (hl.above hfu h.owned hV hx' hb.visitor).resolve_right fun ⟨⟨_, p, sa, hr⟩, _⟩ => ?_
      obtain ⟨_, _, _, _, _, hk, -⟩ := shadowArm?_ok.mp hr
      rw [hkW] at hk
      cases hk
    · have hWu : W < u.size := lt_size_of_kind hkW (by simp)
      exact ⟨arms, w, (hl.kind_eq hWu hWV (Pending.not_bodyOf (isVisitor_iff.mpr ⟨arms, w, hkW⟩))).trans hkW, hbarms⟩
    · refine (hl.above hfu h.owned hV hx' hb.above).resolve_right fun ⟨⟨hlisted, _⟩, _⟩ => hWV ?_
      exact h.owned.eq_of_mem hb.visitor.reachable hV (arm_mem_children hkW hbarms) hlisted.mem
    · obtain ⟨a₀, token, ha₀, htok, hbtok⟩ := hb.named
      exact ⟨a₀, token, ha₀, htok, hl.grows.binder?_mono hbtok⟩

theorem Around.run (h : Around t u l) (hf : t.Formed) (hc : Chain VisitorLowered l u u') : Around t u' [] := by
  induction hc with
  | nil => exact h
  | cons first _ ih => exact ih (h.next hf first)

end Around

/-- Lowering leaves the arms around a node where they are, or merges them into
others. So a variable that an arm around the node binds is still bound by one,
unless all that bind it are shadow arms that were merged into arms of other
names. In its scope the node sees every variable that it saw before. What is
around a node are its ancestors, before and after, if the root has none. -/
theorem Tree.lower_keeps_binders {t : Tree} (hf : t.Formed) (ho : t.Owned) (hok : t.lower.result = .ok ()) {x : Nat}
    (hx : t.Reachable x) (hx' : t.lower.tree.Reachable x) (token : String) :
    ((∃ a, t.Above a x ∧ t.binder? a = .some token) →
      (∃ b, t.lower.tree.Above b x ∧ t.lower.tree.binder? b = .some token) ∨
      ∀ a, t.Above a x → t.binder? a = .some token → ∃ V b other, t.ShadowArmOf V a ∧
        t.lower.tree.Above b x ∧ t.lower.tree.HasArm V b ∧ t.lower.tree.binder? b = .some other ∧ other ≠ token ∧
        ∃ a', t.HasArm V a' ∧ t.binder? a' = .some other) ∧
    ((t.env.get? (t.scope x) token).isSome → (t.lower.tree.env.get? (t.lower.tree.scope x) token).isSome) ∧
    (t.parent root = .none → ∀ a, (a ∈ t.ancestors x ↔ t.Above a x) ∧
      (a ∈ t.lower.tree.ancestors x ↔ t.lower.tree.Above a x)) := by
  have hchain := Pass.leads_lower.mp (Pass.outcome_ok.mp hok)
  change Chain VisitorLowered _ t t.lower.tree at hchain
  generalize t.lower.tree = t' at hchain hx' ⊢
  have hrun := (Around.refl hf ho).run hf hchain
  have hxlt := hf.bounded hx
  have hlater := hrun.pending.later
  refine ⟨fun _ => or_iff_not_imp_left.mpr fun hnone a ha htok => ?_, fun hb => ?_, fun hroot a =>
    ⟨ho.mem_ancestors hf hroot hx, hrun.owned.mem_ancestors hrun.pending.formed (hrun.root_parent.trans hroot) hx'⟩⟩
  · rcases hrun.above x hxlt hx' a ha with hax | ⟨V, b, -, hshadow, hb⟩
    · exact absurd ⟨a, hax, hlater.grows.binder?_mono htok⟩ hnone
    · obtain ⟨a', other, ha', htok', hbtok⟩ := hb.named
      exact ⟨V, b, other, hshadow, hb.above, hb.listed, hbtok, fun he => hnone ⟨b, hb.above, he ▸ hbtok⟩, a', ha', htok'⟩
  · rw [hlater.grows.scope x hxlt]
    exact hrun.vars.2.isSome_get? hlater.types hf.nested (hf.scope x hxlt) hb

/-! ## A sample -/

namespace Sample

theorem reachable_access : tree.Reachable 4 ∧ tree.lower.tree.Reachable 4 :=
  ⟨reaches_of_mem_postOrder (by decide +kernel), reaches_of_mem_postOrder (by decide +kernel)⟩

theorem binders_access : (10 ∈ tree.ancestors 4 ∧ tree.binder? 10 = .some "s") ∧
    ∀ b ∈ tree.lower.tree.ancestors 4, tree.lower.tree.binder? b ≠ .some "s" := by
  decide +kernel

/-- In the sample the body of an arm for `s` is merged into an arm for `t`, and no
arm around the access to `s` binds `s` any more. -/
theorem arm_of_other_name :
    (tree.Formed ∧ tree.Owned ∧ tree.lower.result = .ok () ∧ tree.Reachable 4 ∧ tree.lower.tree.Reachable 4 ∧
      tree.kind 4 = .ident "s" ∧ tree.parent 4 = .some 7 ∧ tree.kind 7 = .factor 4 [6]) ∧
    (10 ∈ tree.ancestors 4 ∧ tree.binder? 10 = .some "s") ∧
    ∀ b ∈ tree.lower.tree.ancestors 4, tree.lower.tree.binder? b ≠ .some "s" :=
  ⟨⟨linked_tree.formed, linked_tree.owned, lower_tree, reachable_access.1, reachable_access.2, by decide +kernel,
    by decide +kernel, by decide +kernel⟩, binders_access⟩

/-- The arm for `s` was one for a shadow type. Its scope still binds `s`. -/
theorem heir_of_other_name :
    (tree.Formed ∧ tree.Owned ∧ tree.lower.result = .ok () ∧ tree.Reachable 4 ∧ tree.lower.tree.Reachable 4) ∧
    (∃ V b other, tree.ShadowArmOf V 10 ∧ tree.lower.tree.Above b 4 ∧ tree.lower.tree.HasArm V b ∧
      tree.lower.tree.binder? b = .some other ∧ other ≠ "s" ∧ ∃ a', tree.HasArm V a' ∧ tree.binder? a' = .some other) ∧
    (tree.lower.tree.env.get? (tree.lower.tree.scope 4) "s").isSome := by
  have h := Tree.lower_keeps_binders linked_tree.formed linked_tree.owned lower_tree reachable_access.1 reachable_access.2 "s"
  obtain ⟨hmem, htok⟩ := binders_access.1
  have habove := h.2.2 linked_tree.2.1
  have hmem := (habove 10).1.mp hmem
  refine ⟨⟨linked_tree.formed, linked_tree.owned, lower_tree, reachable_access.1, reachable_access.2⟩, ?_,
    h.2.1 (by decide +kernel)⟩
  exact (h.1 ⟨10, hmem, htok⟩).resolve_left
    (fun ⟨b, hb, hbtok⟩ => binders_access.2 b ((habove b).2.mpr hb) hbtok) 10 hmem htok

end Sample

end Penumbra
