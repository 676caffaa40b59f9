/-
What a lowered visitor looks like.

The families of a visitor come in the order in which their first arms are
listed (`keys_sortArms`). Its arms are, after lowering, those that are no shadow
arms and then one for each family without an arm for its concrete type, in that
order (`Ready.made`). All families end up in a switch of their own, at the end
of a body which is otherwise as it was. `lower_outlines_visitor` says all of
this in terms of the tree as it was at first.
-/
import Penumbra.Proofs.Lower.Dispatch

namespace Penumbra

open Tree

theorem exists_right_of_forall₂ {α β : Type} {R : α → β → Prop} {l : List α} {l' : List β} {a : α}
    (h : List.Forall₂ R l l') (ha : a ∈ l) : ∃ b ∈ l', R a b := by
  induction h with
  | nil => cases ha
  | @cons x y l l' hxy _ ih =>
    rcases List.mem_cons.mp ha with rfl | ha
    · exact ⟨y, List.mem_cons_self, hxy⟩
    · obtain ⟨b, hb, hab⟩ := ih ha
      exact ⟨b, List.mem_cons_of_mem _ hb, hab⟩

theorem exists_left_of_forall₂ {α β : Type} {R : α → β → Prop} {l : List α} {l' : List β} {b : β}
    (h : List.Forall₂ R l l') (hb : b ∈ l') : ∃ a ∈ l, R a b :=
  exists_right_of_forall₂ (R := flip R) h.flip hb

namespace Tree

variable {t : Tree} {arms : List NodeId} {s : Sorted}

/-! ## Families by the order of their first arms -/

/-- The family that an arm belongs to, if it is a shadow arm. -/
def familyKey? (t : Tree) (arm : NodeId) : Option (Phase × String) :=
  (t.readArm? arm).map fun r => (r.1, r.2.shadow.shadowedName)

/-- The families of a visitor, in the order in which they are met. -/
def familyKeys (t : Tree) (arms : List NodeId) : List (Phase × String) :=
  (arms.filterMap t.familyKey?).eraseDups

/-- The shadow arms of a family, in the visitor's order. -/
def familyArms (t : Tree) (arms : List NodeId) (k : Phase × String) : List ShadowArm :=
  arms.filterMap (t.memberOf? k)

theorem keys_sortArm {done : List NodeId} {s s' : Sorted} {arm : NodeId}
    (h : s.families.map Family.key = t.familyKeys done) (hs : t.sortArm s arm = .ok s') :
    s'.families.map Family.key = t.familyKeys (done ++ [arm]) := by
  cases hr : t.shadowArm? arm with
  | error e => simp [sortArm, hr, bind, Except.bind] at hs
  | ok r =>
    have harm : t.readArm? arm = r := by rw [readArm?, hr]; rfl
    simp only [sortArm, hr, bind, Except.bind, pure, Except.pure] at hs
    rw [familyKeys, List.filterMap_append, List.eraseDups_append, ← familyKeys, ← h]
    rcases r with _ | ⟨p, a⟩
    · cases hs
      simp [familyKey?, harm]
    · cases hs
      have hmem : ∀ k, k ∈ s.families.map Family.key ↔ k ∈ done.filterMap t.familyKey? := fun k => by
        rw [h, familyKeys, List.mem_eraseDups]
      rw [Family.keys_insert]
      by_cases hk : (p, a.shadow.shadowedName) ∈ s.families.map Family.key
      · rw [if_pos hk]
        simp [familyKey?, harm, List.removeAll, (hmem _).mp hk]
      · rw [if_neg hk]
        rw [hmem] at hk
        simp [familyKey?, harm, List.removeAll, hk, List.eraseDups_cons]

theorem keys_sortArms (h : t.sortArms arms = .ok s) : s.families.map Family.key = t.familyKeys arms :=
  sortArms_induction (P := fun done s => s.families.map Family.key = t.familyKeys done) rfl
    (fun _ _ _ _ => keys_sortArm) h

end Tree

/-! ## Longer statement lists -/

namespace Tree

/-- Statement lists get longer, by nodes that are new. -/
structure Lengthens (t t' : Tree) : Prop where
  size_le : t.size ≤ t'.size
  stmts : ∀ x l, t.stmts? x = .some l → ∃ new, t'.stmts? x = .some (l ++ new) ∧ ∀ y ∈ (new : List Nat), t.size ≤ y

theorem Lengthens.refl (t : Tree) : t.Lengthens t := ⟨le_rfl, fun _ l h => ⟨[], by simpa using h, by simp⟩⟩

theorem Lengthens.trans {t t' t'' : Tree} (h : t.Lengthens t') (h' : t'.Lengthens t'') : t.Lengthens t'' := by
  refine ⟨h.size_le.trans h'.size_le, fun x l hl => ?_⟩
  obtain ⟨new, hnew, hsize⟩ := h.stmts x l hl
  obtain ⟨new', hnew', hsize'⟩ := h'.stmts x _ hnew
  refine ⟨new ++ new', by rw [hnew', List.append_assoc], fun y hy => ?_⟩
  rcases List.mem_append.mp hy with hy | hy
  · exact hsize y hy
  · exact h.size_le.trans (hsize' y hy)

theorem Extends.lengthens {t t' : Tree} (h : t.Extends t') : t.Lengthens t' :=
  ⟨h.size_le, fun x l hl => ⟨[], by rw [Tree.stmts?, h.kind x (lt_size_of_stmts? hl), List.append_nil]; exact hl, by simp⟩⟩

end Tree

/-! ## The arms that are made -/

section Families

variable {f : Family} {vs : Nat} {wildcard : Option (Phase × NodeId)} {m m' : Merged} {fs : List Family} {v v' : Tree}

theorem CopiedDefault.size_le {body d : Option Nat} (h : CopiedDefault body v d v') (hv : 0 < v.size) :
    ∀ c ∈ d, v.size ≤ c := by
  cases body with
  | none =>
    obtain ⟨rfl, -⟩ := h
    simp
  | some b =>
    obtain ⟨c, hrun, rfl⟩ := h
    have hcopy : (Build.copyDown (v.size - 1 + 1) b).run v = (c, v') := by rwa [Nat.sub_add_cancel hv]
    simpa using Build.size_le_copyDown hcopy

theorem CopiedDefault.isSome {body d : Option Nat} (h : CopiedDefault body v d v') : d.isSome = body.isSome := by
  cases body with
  | none => rw [h.1]
  | some b =>
    obtain ⟨c, -, rfl⟩ := h
    rfl

/-- In `v`, `arm` is the arm that was made for `f`, and the first of `arms` that
binds the concrete type. Its body is the switch of the family, and all nodes of
the two come at `n` and after it. -/
def Added (f : Family) (arms : List NodeId) (n : Nat) (v : Tree) (arm : Nat) : Prop :=
  ∃ j k default, arm = j + 4 ∧ n ≤ j ∧ n ≤ k ∧ (∀ c ∈ (default : Option Nat), n ≤ c) ∧ MadeArm f j v ∧
    arms.findSome? (v.bindsConcrete? f.phase f.shadowedName) = .some (j, j + 3) ∧
    v.stmts? (j + 3) = .some [k + 4 + 2 * f.arms.length] ∧ SwitchAt f f.first.binder default k v

theorem Added.of_le {arms : List NodeId} {n n' arm : Nat} (h : Added f arms n v arm) (hn : n' ≤ n) :
    Added f arms n' v arm := by
  obtain ⟨j, k, default, harm, hj, hk, hd, h⟩ := h
  exact ⟨j, k, default, harm, hn.trans hj, hn.trans hk, fun c hc => hn.trans (hd c hc), h⟩

/-- A family without an arm for its concrete type gets one, which the families
after it leave alone. -/
theorem Ready.added_first {m₁ : Merged} {v₁ : Tree} (h : Ready vs wildcard (f :: fs) m v)
    (first : FamilyMerged vs wildcard f m v m₁ v₁) (rest : FamiliesMerged vs wildcard fs m₁ v₁ m' v')
    (hkeys : ∀ g ∈ fs, g.key ≠ f.key) (hnone : m.arms.findSome? (v.bindsConcrete? f.phase f.shadowedName) = .none) :
    m₁.arms = m.arms ++ [v.size + 4] ∧ Added f m'.arms v.size v' (v.size + 4) := by
  obtain ⟨default, v₂, copied, merged, harms, hres⟩ := h.resolved_made first hnone
  have hready : Ready vs wildcard (fs ++ []) m₁ v₁ := by simpa using h.next first
  obtain ⟨hfound, hkind⟩ := hready.run_found rest hkeys
  have hgrows := (hready.run rest).2.grows
  have hsize := f.size_armed vs v
  have hle := copied.grows.size_le
  have hmade := ((f.madeArm_armed vs v).mono copied.grows.grows).mono merged.grows
  obtain ⟨binder, n, -, hstmts, -⟩ := hres.switch
  obtain ⟨init, -, htarget⟩ := merged.stmts?_target
  obtain rfl : init = [] := by
    have hlen := congrArg List.length (Option.some.inj (htarget.symm.trans hstmts))
    simpa using hlen
  refine ⟨harms, v.size, v₂.size, default, rfl, le_rfl, by omega, fun c hc => ?_, hmade.mono hgrows,
    hfound.trans hres.found, ?_, (SwitchAt.of_merged merged).mono hgrows⟩
  · have := copied.size_le (by omega) c hc
    omega
  · rw [Tree.stmts?, hkind _ _ hres.found]
    exact htarget

/-- The arms of a visitor after merging: the ones there were, and one for each
family whose concrete type had none. -/
theorem Ready.added (h : Ready vs wildcard fs m v) (hm : FamiliesMerged vs wildcard fs m v m' v')
    (hkeys : (fs.map Family.key).Nodup) :
    ∃ made, m'.arms = m.arms ++ made ∧ List.Forall₂ (Added · m'.arms v.size v')
      (fs.filter fun f => (m.arms.findSome? (v.bindsConcrete? f.phase f.shadowedName)).isNone) made := by
  induction hm with
  | nil => exact ⟨[], by simp, .nil⟩
  | @cons f fs m m₁ m' v v₁ v' first rest ih =>
    obtain ⟨hnew, hkeys⟩ := List.nodup_cons.mp hkeys
    have hne : ∀ g ∈ fs, g.key ≠ f.key := fun g hg he => hnew (he ▸ List.mem_map_of_mem (f := Family.key) hg)
    obtain ⟨made, harms, hmade⟩ := ih (h.next first) hkeys
    have hfilter : fs.filter (fun g => (m₁.arms.findSome? (v₁.bindsConcrete? g.phase g.shadowedName)).isNone) =
        fs.filter fun g => (m.arms.findSome? (v.bindsConcrete? g.phase g.shadowedName)).isNone :=
      List.filter_congr fun g hg => by rw [h.found_eq first (hne g hg).symm]
    have hle := first.grows.size_le
    rw [hfilter] at hmade
    replace hmade := hmade.imp fun _ _ hadd => hadd.of_le hle
    cases hfound : m.arms.findSome? (v.bindsConcrete? f.phase f.shadowedName) with
    | some nb =>
      have heq : m₁ = m := by
        cases first with
        | existing => rfl
        | made absent =>
          rw [hfound] at absent
          cases absent
      subst heq
      exact ⟨made, harms, by rwa [List.filter_cons, hfound, if_neg (by simp)]⟩
    | none =>
      obtain ⟨heq, hadd⟩ := h.added_first first rest hne hfound
      refine ⟨(v.size + 4) :: made, by rw [harms, heq, List.append_assoc]; rfl, ?_⟩
      rw [List.filter_cons, hfound, if_pos Option.isNone_none]
      exact .cons hadd hmade

/-- The wildcard is used if and only if there is a family of its phase whose
concrete type has no arm. -/
theorem Ready.usedWildcard_iff (h : Ready vs wildcard fs m v) (hm : FamiliesMerged vs wildcard fs m v m' v')
    (hkeys : (fs.map Family.key).Nodup) :
    m'.usedWildcard = true ↔ m.usedWildcard = true ∨
      ∃ f ∈ fs, m.arms.findSome? (v.bindsConcrete? f.phase f.shadowedName) = .none ∧ wildcardFor f.phase wildcard ≠ .none := by
  refine ⟨h.usedWildcard hm hkeys, ?_⟩
  induction hm with
  | nil => simp
  | @cons f fs m m₁ m' v v₁ v' first rest ih =>
    obtain ⟨hnew, hkeys⟩ := List.nodup_cons.mp hkeys
    refine fun hcase => ih (h.next first) hkeys ?_
    have hkeep : m.usedWildcard = true → m₁.usedWildcard = true := by
      cases first with
      | existing => exact id
      | made => exact fun hused => Bool.or_eq_true_iff.mpr (.inl hused)
    rcases hcase with hused | ⟨g, hg, hnone, hw⟩
    · exact .inl (hkeep hused)
    · rcases List.mem_cons.mp hg with rfl | hg
      · left
        cases first with
        | existing found =>
          rw [hnone] at found
          cases found
        | made absent copied =>
          rw [Bool.or_eq_true_iff, copied.isSome, Option.isSome_iff_ne_none]
          exact .inr hw
      · have hne : f.key ≠ g.key := fun he => hnew (he ▸ List.mem_map_of_mem (f := Family.key) hg)
        exact .inr ⟨g, hg, (h.found_eq first hne).trans hnone, hw⟩

theorem MergedInto.lengthens {binder : String} {target : Nat} {default : Option Nat}
    (h : MergedInto f binder target default v v') : v.Lengthens v' := by
  refine ⟨h.grows.size_le, fun x l hl => ?_⟩
  by_cases hx : x = target
  · subst hx
    obtain ⟨l', hl', hv'⟩ := h.stmts?_target
    obtain rfl := Option.some.inj (hl.symm.trans hl')
    refine ⟨_, hv', fun y hy => ?_⟩
    obtain rfl := List.mem_singleton.mp hy
    exact (Nat.le_add_right ..).trans (Nat.le_add_right ..)
  · rw [Tree.stmts?, h.kind_other hx]
    exact (Extends.addAll ..).lengthens.stmts x l hl

theorem FamilyMerged.lengthens (h : FamilyMerged vs wildcard f m v m' v') : v.Lengthens v' := by
  cases h with
  | existing _ _ merged => exact merged.lengthens
  | made _ copied merged => exact ((f.extends_armed vs).trans copied.grows).lengthens.trans merged.lengthens

theorem FamiliesMerged.lengthens (h : FamiliesMerged vs wildcard fs m v m' v') : v.Lengthens v' := by
  induction h with
  | nil => exact .refl _
  | cons first _ ih => exact first.lengthens.trans ih

end Families

section Lowered

variable {u u' : Tree} {V : Nat} {arms : List NodeId} {wildcard : Option NodeId}

theorem VisitorLowered.lengthens (h : VisitorLowered V u u') : u.Lengthens u' := by
  cases h with
  | other | plain => exact .refl u
  | @merged arms wildcard s w m v kind sorted some wild families =>
    refine families.lengthens.trans ⟨by simp, fun x l hl => ⟨[], ?_, by simp⟩⟩
    have hvisitor : v.isVisitor V = true :=
      (families.grows.isVisitor (lt_size_of_kind kind (by simp))).trans (isVisitor_iff.mpr ⟨_, _, kind⟩)
    rw [Tree.stmts?, kind_withArms, if_neg, List.append_nil]
    · exact hl
    · rintro ⟨rfl, -⟩
      obtain ⟨arms, w, hk⟩ := isVisitor_iff.mp hvisitor
      rw [Tree.stmts?, hk] at hl
      cases hl

theorem lengthens_of_lowered {l : List Nat} (h : Chain VisitorLowered l u u') : u.Lengthens u' := by
  induction h with
  | nil => exact .refl _
  | cons first _ ih => exact first.lengthens.trans ih

/-- What is kept of an arm that was made: a later tree has left its body as it
was. -/
theorem Added.later {f : Family} {n arm : Nat} (h : Added f arms n u arm) (hl : u.Later u') (hf : u.Formed)
    (harms : ∀ a ∈ (arms : List Nat), a < u.size) (hkind : ∀ x : Nat, n ≤ x → x < u.size → u'.kind x = u.kind x) :
    Added f arms n u' arm := by
  obtain ⟨j, k, default, harm, hj, hk, hd, hmade, hfound, hstmts, hswitch⟩ := h
  refine ⟨j, k, default, harm, hj, hk, hd, hmade.mono hl.grows, ?_, ?_, hswitch.mono hl.grows⟩
  · rw [← hfound]
    exact findSome?_congr fun a ha => hl.bindsConcrete? hf (harms a ha) f.phase f.shadowedName
  · rw [Tree.stmts?, hkind _ (by omega) (lt_size_of_stmts? hstmts)]
    exact hstmts

/-- What lowering makes of a visitor whose arms have different bodies. -/
theorem VisitorLowered.added (h : VisitorLowered V u u') (hf : u.Formed) (hV : u.kind V = .visitor arms wildcard)
    (hnamed : ∀ arm ∈ arms, ∀ q a, u.shadowArm? arm = .ok (.some (q, a)) →
      a.shadow.shadowedTy = .named a.shadow.shadowedName)
    (hdistinct : ∀ a ∈ arms, ∀ a' ∈ arms, ∀ p c q c' b, u.kind a = .arm p (.some c) b →
      u.kind a' = .arm q (.some c') b → a = a') :
    ∃ (fs : List Family) (arms' made : List NodeId) (used : Bool), fs.map Family.key = u.familyKeys arms ∧
      (∀ f ∈ fs, f.arms = u.familyArms arms f.key) ∧
      u'.kind V = .visitor arms' (if used then .none else wildcard) ∧
      arms' = arms.filter (fun a => (u.readArm? a).isNone) ++ made ∧
      List.Forall₂ (Added · arms' u.size u')
        (fs.filter fun f => (arms.findSome? (u.bindsConcrete? f.phase f.shadowedName)).isNone) made ∧
      (used = true ↔ ∃ f ∈ fs, arms.findSome? (u.bindsConcrete? f.phase f.shadowedName) = .none ∧
        u.wildcardFor? f.phase wildcard ≠ .none) := by
  have hlt := lt_size_of_kind hV (by simp)
  have hvisitor : u.isVisitor V = true := isVisitor_iff.mpr ⟨arms, wildcard, hV⟩
  cases h with
  | other hnot =>
    rw [hvisitor] at hnot
    cases hnot
  | @plain arms₀ wildcard₀ s kind sorted none =>
    obtain ⟨rfl, rfl⟩ : arms = arms₀ ∧ wildcard = wildcard₀ := by simpa using hV.symm.trans kind
    have hs := sorts sorted
    have hkept : arms.filter (fun a => (u.readArm? a).isNone) = arms := by
      refine List.filter_eq_self.mpr fun a ha => ?_
      rw [readArm?, hs.families_eq_nil.mp none a ha]
      rfl
    refine ⟨[], arms, [], false, ?_, by simp, hV, by simp [hkept], .nil, by simp⟩
    rw [← keys_sortArms sorted, none]
  | @merged arms₀ wildcard₀ s w m v kind sorted some wild families =>
    obtain ⟨rfl, rfl⟩ : arms = arms₀ ∧ wildcard = wildcard₀ := by simpa using hV.symm.trans kind
    have hs := sorts sorted
    have hready := hs.ready hf hV wild hnamed hdistinct
    have hrun : Ready (u.scope V) w [] m v ∧ u.Later v := Ready.run (by simpa using hready) families
    obtain ⟨hready', hl⟩ := hrun
    have hvisitor' : v.isVisitor V = true := (hl.grows.isVisitor hlt).trans hvisitor
    obtain ⟨made, harms, hmade⟩ := hready.added families hs.distinct
    have hused := hready.usedWildcard_iff families hs.distinct
    simp only [hs.findSome?_kept, wildcardFor_eq wild, Bool.false_eq_true, false_or] at hmade hused
    refine ⟨s.families, m.arms, made, m.usedWildcard, keys_sortArms sorted, fun f hf => hs.arms_eq hf, ?_,
      by rw [harms, hs.kept], hmade.imp fun f a hadd => ?_, hused⟩
    · rw [kind_withArms, if_pos ⟨rfl, hlt.trans_le hl.grows.size_le⟩]
    · refine hadd.later (.of_env (.withArms v V m.arms _ hvisitor') (by simp)) hready'.formed hready'.arm fun x hx _ => ?_
      rw [kind_withArms, if_neg]
      rintro ⟨rfl, -⟩
      omega

end Lowered

/-! ## Through a run -/

namespace Tree

variable {t u : Tree} {arm : Nat}

theorem Later.readArm? (h : t.Later u) (hf : t.Formed) (harm : arm < t.size) : u.readArm? arm = t.readArm? arm := by
  refine Option.ext fun r => ?_
  rw [readArm?_eq_some, readArm?_eq_some]
  exact h.shadowArm? hf harm

end Tree

namespace Turn

variable {t u u' t' : Tree} {pre post arms : List Nat} {V : Nat} {wildcard : Option Nat}
  (h : Turn t pre V post) (hk : t.kind V = .visitor arms wildcard) (hpre : Chain VisitorLowered pre t u)
  (hV : VisitorLowered V u u') (hpost : Chain VisitorLowered post u' t')
  (hnamed : ∀ q s, t.HasShadowArm V q s → s.shadowedTy = .named s.shadowedName)
include h hk hpre hV hpost hnamed

/-- The arms that the run leaves the visitor `V` with. -/
theorem added :
    ∃ (fs : List Family) (arms' made : List NodeId) (used : Bool), fs.map Family.key = t.familyKeys arms ∧
      (∀ f ∈ fs, f.arms = t.familyArms arms f.key) ∧
      t'.kind V = .visitor arms' (if used then .none else wildcard) ∧
      arms' = arms.filter (fun a => (t.readArm? a).isNone) ++ made ∧
      List.Forall₂ (Added · arms' t.size t')
        (fs.filter fun f => (arms.findSome? (t.bindsConcrete? f.phase f.shadowedName)).isNone) made ∧
      (used = true ↔ ∃ f ∈ fs, arms.findSome? (t.bindsConcrete? f.phase f.shadowedName) = .none ∧
        t.wildcardFor? f.phase wildcard ≠ .none) := by
  have hpend := h.pending.run h.formed hpre
  have hl := hpend.later
  have hpend' := hpend.next h.formed hV
  have hl' := hpend'.later_run h.formed hpost
  obtain ⟨fs, arms', made, used, hkeys, hmembers, hkind, harms, hmade, hused⟩ := hV.added hpend.formed
    ((hpend.kind V (by simp)).trans hk) (h.named hk hpre hnamed) (h.distinct hk hpre)
  have hVlt : V < u'.size := lt_size_of_kind hkind (by simp)
  have hread : ∀ a ∈ arms, u.readArm? a = t.readArm? a := fun a ha => hl.readArm? h.formed (h.arm_lt hk ha)
  have hfound : ∀ p T, arms.findSome? (u.bindsConcrete? p T) = arms.findSome? (t.bindsConcrete? p T) := fun p T =>
    findSome?_congr fun a ha => hl.bindsConcrete? h.formed (h.arm_lt hk ha) p T
  have hwild : ∀ p, u.wildcardFor? p wildcard = t.wildcardFor? p wildcard := fun p =>
    hl.wildcardFor? fun w => h.wildcard_lt hk
  simp only [hfound, hwild] at hmade hused
  refine ⟨fs, arms', made, used, ?_, fun f hf => ?_, (h.kind_after hpend' hpost hVlt).trans hkind, ?_,
    hmade.imp fun f a hadd => ?_, hused⟩
  · rw [hkeys, familyKeys, familyKeys, List.filterMap_congr fun a ha => ?_]
    rw [familyKey?, familyKey?, hread a ha]
  · rw [hmembers f hf]
    exact List.filterMap_congr fun a ha => hl.memberOf? h.formed (h.arm_lt hk ha) f.key
  · rw [harms, List.filter_congr fun a ha => ?_]
    rw [hread a ha]
  · refine (hadd.of_le hl.grows.size_le).later hl' hpend'.formed (fun b hb => ?_) fun x hx hxlt =>
      hpend'.kind_new h.formed hpost hxlt hx
    exact hpend'.formed.child V hVlt b (arm_mem_children hkind hb)

end Turn

/-! ## The outline -/

theorem Family.eq_of_key {f g : Family} (hkey : f.key = g.key) (harms : f.arms = g.arms) : f = g := by
  obtain ⟨p, T, first, rest⟩ := f
  obtain ⟨p', T', first', rest'⟩ := g
  simp only [Family.key, Family.arms, Prod.mk.injEq, List.cons.injEq] at hkey harms
  obtain ⟨rfl, rfl⟩ := hkey
  obtain ⟨rfl, rfl⟩ := harms
  rfl

namespace Tree

/-- The families that a visitor has no arm for the concrete type of. -/
def newKeys (t : Tree) (arms : List NodeId) : List (Phase × String) :=
  (t.familyKeys arms).filter fun k => (arms.findSome? (t.bindsConcrete? k.1 k.2)).isNone

/-- A case with the discriminant and the body of the shadow arm. -/
def IsCaseOf (t : Tree) (a : ShadowArm) (case : NodeId) : Prop :=
  ∃ label, t.kind case = .case label a.body ∧ t.kind label = .ident a.shadow.discriminant

/-- In `t'` the statements of `body` are `init` and then a switch which `t` does
not have. It reads the discriminant of the variable `name` and has a case for
each of the shadow arms. -/
def EndsInSwitch (t t' : Tree) (family : List ShadowArm) (name body : NodeId) (init : List NodeId)
    (default : Option NodeId) : Prop :=
  ∃ (switch : Nat) (scrutinee : NodeId) (cases : List NodeId) (binder field : String),
    t'.stmts? body = .some (init ++ [switch]) ∧ t.size ≤ switch ∧ t'.kind switch = .switch scrutinee cases default ∧
      List.Forall₂ t'.IsCaseOf family cases ∧ t'.fieldRead? scrutinee = .some (binder, field) ∧
      t'.kind name = .ident binder ∧ family.head?.map (·.shadow.discriminantField) = .some field

/-- In `t'`, `arm` is an arm for the concrete type of the family `k` which `t`
does not have. It binds what the first arm of the family binds, and its body is
the switch of the family. The default of the switch is a copy of the wildcard's
body, if there is a wildcard for the phase. -/
def IsMadeFor (t t' : Tree) (arms : List NodeId) (wildcard : Option NodeId) (k : Phase × String) (arm : Nat) : Prop :=
  t.size ≤ arm ∧ ∃ name body default, t'.bindsConcrete? k.1 k.2 arm = .some (name, body) ∧
    t'.token? name = (t.familyArms arms k).head?.map (·.binder) ∧
    t.EndsInSwitch t' (t.familyArms arms k) name body [] default ∧
    (∀ x ∈ (default : Option Nat), t.size ≤ x) ∧
    ∀ depth, default.map (t'.unfold depth) = (t.wildcardFor? k.1 wildcard).map (t'.unfold depth)

/-- What becomes of a visitor of `t` in `t'`. The arms that stay are followed by
an arm for each family without one, and the wildcard goes if it was copied for any
of these. A family that has an arm for its concrete type is merged into the first
one. -/
structure Outlined (t t' : Tree) (V : NodeId) (arms : List NodeId) (wildcard : Option NodeId) : Prop where
  listed : ∃ made, t'.kind V = .visitor (arms.filter (fun a => (t.readArm? a).isNone) ++ made)
      (if (t.newKeys arms).any fun k => (t.wildcardFor? k.1 wildcard).isSome then .none else wildcard) ∧
    List.Forall₂ (t.IsMadeFor t' arms wildcard) (t.newKeys arms) made
  bodies : ∀ k ∈ t.familyKeys arms, ∀ name body, arms.findSome? (t.bindsConcrete? k.1 k.2) = .some (name, body) →
    ∃ init, t.stmts? body = .some init ∧ t.EndsInSwitch t' (t.familyArms arms k) name body init .none

variable {t t' : Tree} {f : Family} {binder : String} {default : Option Nat} {n : Nat}

/-- A family is for the concrete type that its first arm's shadow type stands
for. -/
theorem shadowedTy_first {V : NodeId} {arms : List NodeId} {wildcard : Option NodeId} (hk : t.kind V = .visitor arms wildcard)
    (hnamed : ∀ q s, t.HasShadowArm V q s → s.shadowedTy = .named s.shadowedName)
    (harms : f.arms = t.familyArms arms f.key) : f.first.shadow.shadowedTy = .named f.shadowedName := by
  have hfirst : f.first ∈ t.familyArms arms f.key := harms ▸ List.mem_cons_self
  obtain ⟨a, ha, hmember⟩ := List.mem_filterMap.mp hfirst
  obtain ⟨q, hr, hq⟩ := memberOf?_eq_some.mp hmember
  rw [hnamed q _ (.of_read hk ha hr), (Prod.mk.inj hq).2]

theorem isCaseOf_switch (h : SwitchAt f binder default n t) :
    List.Forall₂ t.IsCaseOf f.arms (pairIds (n + 4) f.arms.length) := by
  have hcases : ∀ (as : List ShadowArm) (i : Nat),
      (∀ j a, as[j]? = .some a → t.kind (i + 2 * j) = .ident a.shadow.discriminant ∧
        t.kind (i + 2 * j + 1) = .case (i + 2 * j) a.body) →
      List.Forall₂ t.IsCaseOf as (pairIds i as.length) := by
    intro as
    induction as with
    | nil => exact fun _ _ => .nil
    | cons a as ih =>
      intro i hi
      obtain ⟨hlabel, hcase⟩ := hi 0 a rfl
      rw [List.length_cons, pairIds_succ]
      refine .cons ⟨i, hcase, hlabel⟩ (ih (i + 2) fun j b hb => ?_)
      have hb' := hi (j + 1) b (by simpa using hb)
      rwa [show i + 2 * (j + 1) = i + 2 + 2 * j by omega] at hb'
  exact hcases f.arms (n + 4) fun j a ha => ⟨h.label j a ha, h.case j a ha⟩

theorem EndsInSwitch.of_switchAt {name body : NodeId} {init : List NodeId} (h : SwitchAt f binder default n t')
    (hstmts : t'.stmts? body = .some (init ++ [n + 4 + 2 * f.arms.length])) (hnew : t.size ≤ n + 4 + 2 * f.arms.length)
    (hname : t'.kind name = .ident binder) : t.EndsInSwitch t' f.arms name body init default :=
  ⟨_, n + 3, _, binder, f.first.shadow.discriminantField, hstmts, hnew, h.switch, isCaseOf_switch h, fieldRead?_switch h,
    hname, rfl⟩

end Tree

namespace Turn

variable {t u u' t' : Tree} {pre post arms : List Nat} {V : Nat} {wildcard : Option Nat}
  (h : Turn t pre V post) (hk : t.kind V = .visitor arms wildcard) (hpre : Chain VisitorLowered pre t u)
  (hV : VisitorLowered V u u') (hpost : Chain VisitorLowered post u' t')
  (hnamed : ∀ q s, t.HasShadowArm V q s → s.shadowedTy = .named s.shadowedName)
include h hk hpre hV hpost hnamed

/-- A family with an arm for its concrete type. -/
theorem endsInSwitch {k : Phase × String} {name body : NodeId} (hmem : t.familyArms arms k ≠ [])
    (hfound : arms.findSome? (t.bindsConcrete? k.1 k.2) = .some (name, body)) :
    ∃ init, t.stmts? body = .some init ∧ t.EndsInSwitch t' (t.familyArms arms k) name body init .none := by
  obtain ⟨f, arms', wildcard', name', body', init, default, -, hkey, hfarms, hres, hcase⟩ :=
    h.resolved hk hpre hV hpost hnamed (p := k.1) (T := k.2) hmem
  rcases hcase with ⟨hfound', hinit, rfl⟩ | ⟨hnone, -⟩
  · rw [hfound] at hfound'
    cases hfound'
    obtain ⟨binder, n, hname, hstmts, hswitch⟩ := hres.switch
    have hlen := (lengthens_of_lowered hpre).trans (hV.lengthens.trans (lengthens_of_lowered hpost))
    obtain ⟨new, hnew, hsize⟩ := hlen.stmts body init hinit
    obtain rfl := List.append_cancel_left (Option.some.inj (hnew.symm.trans hstmts))
    refine ⟨init, hinit, ?_⟩
    rw [familyArms, ← hfarms]
    exact .of_switchAt hswitch hstmts (hsize _ (by simp)) hname
  · rw [hfound] at hnone
    cases hnone

/-- A family without one. -/
theorem isMadeFor {f : Family} {arms' : List NodeId} {wildcard' : Option NodeId} {arm : Nat}
    (hk' : t'.kind V = .visitor arms' wildcard') (hfarms : f.arms = t.familyArms arms f.key)
    (hnone : arms.findSome? (t.bindsConcrete? f.phase f.shadowedName) = .none) (hadd : Added f arms' t.size t' arm) :
    t.IsMadeFor t' arms wildcard f.key arm := by
  have hmem : arms.filterMap (t.memberOf? (f.phase, f.shadowedName)) ≠ [] := by
    rw [show (f.phase, f.shadowedName) = f.key from rfl, ← familyArms, ← hfarms]
    exact List.cons_ne_nil _ _
  obtain ⟨g, arms'', wildcard'', name, body, init, default, hk'', hkey, hgarms, hres, hcase⟩ :=
    h.resolved hk hpre hV hpost hnamed hmem
  obtain rfl : g = f := Family.eq_of_key hkey (hgarms.trans hfarms.symm)
  obtain rfl : arms' = arms'' := (Kind.visitor.inj (hk'.symm.trans hk'')).1
  obtain ⟨-, rfl, hcopy⟩ := hcase.resolve_left fun hc => by rw [hnone] at hc; cases hc.1
  obtain ⟨j, n, default', rfl, hj, hn, hd, hmade, hfound, hstmts, hswitch⟩ := hadd
  -- the arm made is the one found, so the two switches are the same
  obtain ⟨rfl, rfl⟩ : j = name ∧ j + 3 = body := by simpa using hfound.symm.trans hres.found
  obtain ⟨binder, n', -, hstmts', hswitch'⟩ := hres.switch
  obtain rfl : n = n' := by
    have heq := hstmts.symm.trans hstmts'
    simp only [List.nil_append, Option.some.injEq, List.cons.injEq, and_true] at heq
    exact Nat.add_right_cancel (Nat.add_right_cancel heq)
  obtain rfl : default' = default := (Kind.switch.inj (hswitch.switch.symm.trans hswitch'.switch)).2.2
  refine ⟨by omega, j, j + 3, default', ?_, ?_, ?_, hd, hcopy⟩
  · exact (hmade.bindsConcrete? (shadowedTy_first hk hnamed hfarms) _ _).trans (if_pos rfl)
  · rw [← hfarms]
    exact token?_eq_some.mpr hmade.name
  · rw [← hfarms]
    exact .of_switchAt hswitch hstmts (by omega) hmade.name

/-- What the run makes of the visitor `V`. -/
theorem outlined : t.Outlined t' V arms wildcard := by
  obtain ⟨fs, arms', made, used, hkeys, hmembers, hkind, rfl, hmade, hused⟩ := h.added hk hpre hV hpost hnamed
  have hnew : t.newKeys arms =
      (fs.filter fun f => (arms.findSome? (t.bindsConcrete? f.phase f.shadowedName)).isNone).map Family.key := by
    rw [newKeys, ← hkeys, List.filter_map]
    rfl
  have hany : used = (t.newKeys arms).any fun k => (t.wildcardFor? k.1 wildcard).isSome := by
    rw [Bool.eq_iff_iff, hused, hnew, List.any_map, List.any_eq_true]
    simp only [List.mem_filter, Option.isNone_iff_eq_none, Function.comp_apply, Option.isSome_iff_ne_none, and_assoc]
    rfl
  refine ⟨⟨made, hany ▸ hkind, ?_⟩, fun k hmem name body hfound => ?_⟩
  · rw [hnew, List.forall₂_map_left_iff]
    refine ((List.forall₂_and_left _ _).mpr ⟨fun f hmem => List.mem_filter.mp hmem, hmade⟩).imp fun f arm => ?_
    rintro ⟨⟨hmem, hnone⟩, hadd⟩
    exact h.isMadeFor hk hpre hV hpost hnamed hkind (hmembers f hmem) (Option.isNone_iff_eq_none.mp hnone) hadd
  · rw [← hkeys] at hmem
    obtain ⟨f, hfs, rfl⟩ := List.mem_map.mp hmem
    refine h.endsInSwitch hk hpre hV hpost hnamed ?_ hfound
    rw [← hmembers f hfs]
    exact List.cons_ne_nil _ _

end Turn

/-- What a visitor of an owned tree looks like after lowering, if its shadow
types stand for tuple types. -/
theorem Tree.lower_outlines_visitor {t : Tree} (hf : t.Formed) (ho : t.Owned) (hok : t.lower.result = .ok ())
    {V : NodeId} (hV : t.Reachable V) {arms : List NodeId} {wildcard : Option NodeId} (hk : t.kind V = .visitor arms wildcard)
    (hnamed : ∀ p s, t.HasShadowArm V p s → s.shadowedTy = .named s.shadowedName) :
    t.Outlined t.lower.tree V arms wildcard := by
  obtain ⟨pre, post, u, u', hturn, hpre, hlowered, hpost⟩ :=
    ho.lowering hf hok hV (isVisitor_iff.mpr ⟨arms, wildcard, hk⟩)
  exact hturn.outlined hk hpre hlowered hpost hnamed

namespace Sample

/-- The sample has a family for each phase. There is an arm that the first one is
merged into; for the second one an arm is made, and the wildcard goes. -/
theorem outlined_visitor :
    tree.Formed ∧ tree.Owned ∧ tree.lower.result = .ok () ∧ tree.Reachable 31 ∧
      tree.kind 31 = .visitor [10, 15, 25] (.some 30) ∧
      (∀ p s, tree.HasShadowArm 31 p s → s.shadowedTy = .named s.shadowedName) ∧
      tree.familyKeys [10, 15, 25] = [(.before, "Statement"), (.after, "Statement")] ∧
      tree.newKeys [10, 15, 25] = [(.after, "Statement")] ∧ tree.Outlined tree.lower.tree 31 [10, 15, 25] (.some 30) := by
  have hreach : tree.Reachable 31 := Tree.reaches_of_mem_postOrder (by decide +kernel)
  have hkind : tree.kind 31 = .visitor [10, 15, 25] (.some 30) := by decide +kernel
  have hnamed := fun p s => tableDriven_tree.named 31 p s hreach
  exact ⟨linked_tree.formed, linked_tree.owned, lower_tree, hreach, hkind, hnamed, by decide +kernel, by decide +kernel,
    Tree.lower_outlines_visitor linked_tree.formed linked_tree.owned lower_tree hreach hkind hnamed⟩

end Sample

end Penumbra
