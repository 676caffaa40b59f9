/-
The visitors that lowering refuses.

A visitor is malformed if one of its arms cannot be read, if its wildcard
cannot and it has a shadow arm, or if the arm that a family would be merged into
takes no switch. All of this can be told from the input: what has been done
to other visitors, and to this one for the families before, changes none of it
(`Later.malformed`, `Underway`). So a run stops exactly at the first malformed
visitor.
-/
import Penumbra.Proofs.Lower.HaltedRuns
import Penumbra.Proofs.Tree.Owned
import Penumbra.Proofs.Lower.FitVisitors
import Penumbra.Proofs.Lower.NoShadowArms

namespace Penumbra

open Tree

namespace Tree

/-- The arm binds values of the concrete type `T` in that phase. -/
def BindsNamed (t : Tree) (p : Phase) (T : String) (arm name body : NodeId) : Prop :=
  ∃ c ascription, t.kind arm = .arm p (.some c) body ∧ t.kind c = .component name ascription ∧
    t.declaredTy? c ascription = .some (.named T)

/-- An arm of the visitor cannot be read, or it has a shadow arm and its wildcard
is not an arm. -/
inductive Unreadable (t : Tree) (V : NodeId) : Prop where
  | arm {arms wildcard arm e} (kind : t.kind V = .visitor arms wildcard) (mem : arm ∈ arms) (fault : t.ArmFault arm e)
  | wildcard {arms w p s} (kind : t.kind V = .visitor arms (.some w)) (shadow : t.HasShadowArm V p s)
      (notArm : ∀ q c b, t.kind w ≠ .arm q c b)

/-- The visitor has a shadow arm, and the first arm that binds the concrete type
in that phase has no name, or its body is neither a block nor a program. -/
inductive Mistargeted (t : Tree) (V : NodeId) : Prop where
  | mk {before after wildcard arm name body p s} (kind : t.kind V = .visitor (before ++ arm :: after) wildcard)
      (shadow : t.HasShadowArm V p s) (earlier : ∀ a ∈ before, ∀ n b, ¬ t.BindsNamed p s.shadowedName a n b)
      (binds : t.BindsNamed p s.shadowedName arm name body)
      (bad : (∀ token, t.kind name ≠ .ident token) ∨ ∀ l, t.kind body ≠ .block l ∧ t.kind body ≠ .program l)

/-- The visitor cannot be lowered. -/
def Malformed (t : Tree) (V : NodeId) : Prop := t.Unreadable V ∨ t.Mistargeted V

/-! ## As the pass reads it -/

/-- The arm found for the concrete type does not take a switch. -/
def BadTarget (t : Tree) (arms : List NodeId) (p : Phase) (T : String) : Prop :=
  ∃ name body, arms.findSome? (t.bindsConcrete? p T) = .some (name, body) ∧ (t.token? name = .none ∨ t.stmts? body = .none)

variable {t u : Tree} {V arm name body : Nat} {p : Phase} {s : Shadow Ty} {T : String} {arms : List NodeId}
  {wildcard : Option NodeId}

theorem token?_eq_none : t.token? name = .none ↔ ∀ token, t.kind name ≠ .ident token := by
  rw [Option.eq_none_iff_forall_ne_some]
  exact forall_congr' fun token => not_congr token?_eq_some

theorem stmts?_eq_none : t.stmts? body = .none ↔ ∀ l, t.kind body ≠ .block l ∧ t.kind body ≠ .program l := by
  rw [Tree.stmts?]
  cases t.kind body <;> simp [Kind.stmts?]

theorem armFault_iff : (∃ e, t.ArmFault arm e) ↔ ∀ r, t.shadowArm? arm ≠ .ok r := by
  simp only [← shadowArm?_error]
  cases t.shadowArm? arm <;> simp

theorem unreadable_iff (hk : t.kind V = .visitor arms wildcard) :
    t.Unreadable V ↔ (∃ a ∈ arms, ∀ r, t.shadowArm? a ≠ .ok r) ∨
      (∃ p s, t.HasShadowArm V p s) ∧ ∃ w ∈ wildcard, ∀ q c b, t.kind w ≠ .arm q c b := by
  constructor
  · intro h
    cases h with
    | arm kind mem fault =>
      rw [hk] at kind
      cases kind
      exact .inl ⟨_, mem, armFault_iff.mp ⟨_, fault⟩⟩
    | wildcard kind shadow notArm =>
      rw [hk] at kind
      cases kind
      exact .inr ⟨⟨_, _, shadow⟩, _, rfl, notArm⟩
  · rintro (⟨a, ha, hr⟩ | ⟨⟨p, s, hs⟩, w, rfl, hw⟩)
    · obtain ⟨e, he⟩ := armFault_iff.mpr hr
      exact .arm hk ha he
    · exact .wildcard hk hs hw

theorem mistargeted_iff (hk : t.kind V = .visitor arms wildcard) :
    t.Mistargeted V ↔ ∃ p s, t.HasShadowArm V p s ∧ t.BadTarget arms p s.shadowedName := by
  constructor
  · rintro ⟨kind, shadow, earlier, binds, bad⟩
    rw [hk] at kind
    cases kind
    refine ⟨_, _, shadow, _, _, List.findSome?_eq_some_iff.mpr ⟨_, _, _, rfl, bindsConcrete?_eq_some.mpr binds, ?_⟩, ?_⟩
    · intro a ha
      refine Option.eq_none_iff_forall_ne_some.mpr fun nb hb => ?_
      exact earlier a ha nb.1 nb.2 (bindsConcrete?_eq_some.mp hb)
    · rwa [token?_eq_none, stmts?_eq_none]
  · rintro ⟨p, s, hs, name, body, found, bad⟩
    obtain ⟨before, arm, after, rfl, hb, earlier⟩ := List.findSome?_eq_some_iff.mp found
    refine .mk hk hs (fun a ha n b hab => ?_) (bindsConcrete?_eq_some.mp hb) ?_
    · have hnone := earlier a ha
      rw [bindsConcrete?_eq_some.mpr hab] at hnone
      cases hnone
    · rwa [token?_eq_none, stmts?_eq_none] at bad

/-! ## What lowering leaves as it was -/

section Later

variable (h : t.Later u) (hf : t.Formed)
include h

theorem Later.token?_eq_none (hn : name < t.size) : u.token? name = .none ↔ t.token? name = .none := by
  rw [Tree.token?_eq_none, Tree.token?_eq_none]
  exact forall_congr' fun token => not_congr (h.grows.kind_iff hn rfl (by simp))

theorem Later.stmts?_eq_none (hb : body < t.size) : u.stmts? body = .none ↔ t.stmts? body = .none :=
  (h.grows.kind body hb).stmts?_eq_none

include hf

theorem Later.badTarget (harms : ∀ a ∈ arms, a < t.size) : u.BadTarget arms p T ↔ t.BadTarget arms p T := by
  unfold BadTarget
  rw [findSome?_congr fun a ha => h.bindsConcrete? hf (harms a ha) p T]
  refine exists_congr fun name => exists_congr fun body => and_congr_right fun hfound => ?_
  obtain ⟨arm, harm, hb⟩ := List.exists_of_findSome?_eq_some hfound
  obtain ⟨c, ascription, hk, hkc, -⟩ := bindsConcrete?_eq_some.mp hb
  have hc := hf.child arm (harms arm harm) c (binder_mem_children hk)
  rw [h.token?_eq_none (hf.child c hc name (name_mem_children hkc)),
    h.stmts?_eq_none (hf.child arm (harms arm harm) body (body_mem_children hk))]

variable (hkV : u.kind V = t.kind V)
include hkV

theorem Later.hasShadowArm : u.HasShadowArm V p s ↔ t.HasShadowArm V p s := by
  unfold HasShadowArm
  rw [hkV]
  refine exists_congr fun arms => exists_congr fun wildcard => and_congr_right fun hk => exists_congr fun arm =>
    and_congr_right fun harm => exists_congr fun c => exists_congr fun body => exists_congr fun name =>
    exists_congr fun ascription => ?_
  have hlt := hf.child V (lt_size_of_kind hk (by simp)) arm (arm_mem_children hk harm)
  rw [h.grows.kind_iff hlt rfl (by simp)]
  refine and_congr_right fun hka => ?_
  have hc := hf.child arm hlt c (binder_mem_children hka)
  rw [h.grows.kind_iff hc rfl (by simp)]
  refine and_congr_right fun hkc => ?_
  rw [declaredShadow?, declaredShadow?, h.declaredTy? hf hc (hf.child c hc ascription (ascription_mem_children hkc))]

/-- A visitor that has not been touched yet is malformed if it was so at first. -/
theorem Later.malformed (hk : t.kind V = .visitor arms wildcard) :
    (u.Unreadable V ↔ t.Unreadable V) ∧ (u.Malformed V ↔ t.Malformed V) := by
  have hV := lt_size_of_kind hk (by simp)
  have harms : ∀ a ∈ arms, a < t.size := fun a ha => hf.child V hV a (arm_mem_children hk ha)
  have hunreadable : u.Unreadable V ↔ t.Unreadable V := by
    rw [unreadable_iff (hkV.trans hk), unreadable_iff hk]
    refine or_congr ?_ (and_congr ?_ ?_)
    · exact exists_congr fun a => and_congr_right fun ha => forall_congr' fun r =>
        not_congr (h.shadowArm? hf (harms a ha))
    · exact exists_congr fun p => exists_congr fun s => h.hasShadowArm hf hkV
    · refine exists_congr fun w => and_congr_right fun hw => ?_
      obtain rfl : wildcard = .some w := hw
      have hlt := hf.child V hV w (wildcard_mem_children hk)
      exact forall_congr' fun q => forall_congr' fun c => forall_congr' fun b =>
        not_congr (h.grows.kind_iff hlt rfl (by simp))
  refine ⟨hunreadable, or_congr hunreadable ?_⟩
  rw [mistargeted_iff (hkV.trans hk), mistargeted_iff hk]
  exact exists_congr fun p => exists_congr fun s => and_congr (h.hasShadowArm hf hkV) (h.badTarget hf harms)

end Later

end Tree

/-! ## One visitor -/

section Visitor

variable {f : Family} {fs : List Family} {m m' : Merged} {u u' v v' : Tree} {vs V : Nat} {p : Phase} {T : String}
  {arms kept : List NodeId} {wildcard : Option (Phase × NodeId)} {wild? : Option NodeId} {s : Sorted} {e : Fault}

theorem Gathered.grows {N R : Set String} {arm : Nat} (h : Gathered N R v arm) (hg : v.Grows v') : Gathered N R v' arm := by
  obtain ⟨p, c, b, name, ascription, token, hk, hkc, hname, hN, hR, hb⟩ := h
  have hblt : b < v.size := by
    by_contra hge
    rw [Tree.stmts?, Tree.kind, node_of_size_le (Nat.not_lt.mp hge)] at hb
    exact hb rfl
  refine ⟨p, c, b, name, ascription, token, (hg.kind_iff (lt_size_of_kind hk (by simp)) rfl (by simp)).mpr hk,
    (hg.kind_iff (lt_size_of_kind hkc (by simp)) rfl (by simp)).mpr hkc,
    (hg.kind_iff (lt_size_of_kind hname (by simp)) rfl (by simp)).mpr hname, hN, hR, fun hnone => hb ?_⟩
  exact (hg.kind b hblt).stmts?_eq_none.mp hnone

/-- Some families of a visitor have been merged. Its arms are those that were kept
and then those made, into each of which another family can be merged. -/
structure Underway (u : Tree) (kept : List NodeId) (m : Merged) (v : Tree) : Prop where
  later : u.Later v
  arms : ∃ made, m.arms = kept ++ made ∧ ∀ a ∈ made, Gathered Set.univ ∅ v a

namespace Underway

theorem refl (u : Tree) (kept : List NodeId) : Underway u kept { arms := kept } u :=
  ⟨.refl u, [], (List.append_nil kept).symm, fun _ ha => absurd ha List.not_mem_nil⟩

theorem next (h : Underway u kept m v) (hvs : vs < u.env.size) (hm : FamilyMerged vs wildcard f m v m' v') :
    Underway u kept m' v' := by
  have hl := hm.later (hvs.trans_le h.later.types.size_le)
  have hmade := hm.madeArm
  obtain ⟨made, harms, hgathered⟩ := h.arms
  have hold : ∀ a ∈ made, Gathered Set.univ ∅ v' a := fun a ha => (hgathered a ha).grows hl.grows
  refine ⟨h.later.trans hl, ?_⟩
  cases hm with
  | existing => exact ⟨made, harms, hold⟩
  | made absent copied merged =>
    obtain ⟨-, hmade⟩ := hmade.resolve_left (by simp)
    refine ⟨made ++ [v.size + 4], by rw [harms, List.append_assoc], fun a ha => ?_⟩
    rcases List.mem_append.mp ha with ha | ha
    · exact hold a ha
    · obtain rfl := List.mem_singleton.mp ha
      obtain ⟨l, -, hl⟩ := merged.stmts?_target
      exact ⟨_, _, _, _, _, _, hmade.arm, hmade.component, hmade.name, trivial, id, by simp [hl]⟩

variable (h : Underway u kept m v)
include h

/-- The search for the concrete type finds what it would have found at first, or
an arm that takes a switch. -/
theorem findSome?_eq {name body : NodeId} (hfound : m.arms.findSome? (v.bindsConcrete? p T) = .some (name, body)) :
    kept.findSome? (v.bindsConcrete? p T) = .some (name, body) ∨ v.token? name ≠ .none ∧ v.stmts? body ≠ .none := by
  obtain ⟨made, harms, hgathered⟩ := h.arms
  rw [harms, List.findSome?_append, Option.or_eq_some_iff] at hfound
  refine hfound.imp_right fun hmade => ?_
  obtain ⟨arm, harm, hb⟩ := List.exists_of_findSome?_eq_some hmade.2
  obtain ⟨c, ascription, hk, hkc, -⟩ := bindsConcrete?_eq_some.mp hb
  obtain ⟨q, c', b, name', ascription', token, hk', hkc', hname, -, -, hstmts⟩ := hgathered arm harm
  rw [hk] at hk'
  cases hk'
  rw [hkc] at hkc'
  cases hkc'
  exact ⟨by simp [token?_eq_some.mpr hname], hstmts⟩

variable (hf : u.Formed) (hkept : ∀ a ∈ kept, a < u.size)
include hf hkept

theorem badTarget_of_halted (hm : FamilyHalted f m v e v') : u.BadTarget kept f.phase f.shadowedName := by
  rw [← h.later.badTarget hf hkept]
  cases hm with
  | name found unnamed =>
    exact ⟨_, _, (h.findSome?_eq found).resolve_right fun hgood => hgood.1 unnamed, .inl unnamed⟩
  | body found named closed =>
    exact ⟨_, _, (h.findSome?_eq found).resolve_right fun hgood => hgood.2 closed, .inr closed⟩

theorem not_badTarget_of_merged (hm : FamilyMerged vs wildcard f m v m' v') :
    ¬ u.BadTarget kept f.phase f.shadowedName := by
  rw [← h.later.badTarget hf hkept]
  rintro ⟨name, body, hfound, hbad⟩
  obtain ⟨made, harms, -⟩ := h.arms
  have hfirst : m.arms.findSome? (v.bindsConcrete? f.phase f.shadowedName) = .some (name, body) := by
    rw [harms, List.findSome?_append, hfound, Option.some_or]
  cases hm with
  | existing found named merged =>
    rw [hfirst] at found
    cases found
    obtain ⟨l, hl⟩ := merged.stmts?
    rw [token?_eq_some.mpr named, hl] at hbad
    simp at hbad
  | made absent =>
    rw [hfirst] at absent
    cases absent

end Underway

section Families

variable (hf : u.Formed) (hkept : ∀ a ∈ kept, a < u.size) (hvs : vs < u.env.size) (h : Underway u kept m v)
include hf hkept hvs h

theorem FamiliesHalted.badTarget (hm : FamiliesHalted vs wildcard fs m v e v') :
    ∃ f ∈ fs, u.BadTarget kept f.phase f.shadowedName := by
  induction hm with
  | @first f fs m v e v' halted => exact ⟨f, List.mem_cons_self, h.badTarget_of_halted hf hkept halted⟩
  | rest first _ ih =>
    obtain ⟨g, hg, hbad⟩ := ih (h.next hvs first)
    exact ⟨g, List.mem_cons_of_mem _ hg, hbad⟩

theorem FamiliesMerged.not_badTarget (hm : FamiliesMerged vs wildcard fs m v m' v') :
    ∀ f ∈ fs, ¬ u.BadTarget kept f.phase f.shadowedName := by
  induction hm with
  | nil => exact fun _ hg => absurd hg List.not_mem_nil
  | cons first _ ih =>
    intro g hg
    rcases List.mem_cons.mp hg with rfl | hg
    · exact h.not_badTarget_of_merged hf hkept first
    · exact ih (h.next hvs first) g hg

end Families

section Sorted

variable (hs : u.Sorts arms s) (kind : u.kind V = .visitor arms wild?)
include hs kind

theorem Tree.Sorts.exists_key {shadow : Shadow Ty} (h : u.HasShadowArm V p shadow) :
    ∃ f ∈ s.families, f.phase = p ∧ f.shadowedName = shadow.shadowedName := by
  obtain ⟨arm, harm, a, hr, rfl⟩ := h.mem kind hs.read
  have hmem : a ∈ Family.armsFor s.families (p, a.shadow.shadowedName) := by
    rw [hs.members]
    exact List.mem_filterMap.mpr ⟨arm, harm, memberOf?_eq_some.mpr ⟨p, hr, rfl⟩⟩
  obtain ⟨f, hf, hkey⟩ := Family.exists_of_armsFor (List.ne_nil_of_mem hmem)
  exact ⟨f, hf, Prod.mk.inj hkey⟩

theorem Tree.Sorts.exists_hasShadowArm (hf : f ∈ s.families) :
    ∃ shadow, u.HasShadowArm V f.phase shadow ∧ shadow.shadowedName = f.shadowedName := by
  obtain ⟨arm, harm, hr, hname⟩ := hs.mem_family hf (List.mem_cons_self : f.first ∈ f.arms)
  exact ⟨f.first.shadow, .of_read kind harm hr, hname⟩

/-- Once the arms have been sorted, only the wildcard can be unreadable. -/
theorem Tree.Sorts.unreadable_iff : u.Unreadable V ↔ s.families ≠ [] ∧ ∃ e, u.wildcardArm? wild? = .error e := by
  rw [Tree.unreadable_iff kind]
  constructor
  · rintro (⟨a, ha, hr⟩ | ⟨⟨p, shadow, hshadow⟩, w, hw, hnot⟩)
    · obtain ⟨r, hok⟩ := hs.read a ha
      exact absurd hok (hr r)
    · obtain ⟨f, hf, -⟩ := hs.exists_key kind hshadow
      exact ⟨List.ne_nil_of_mem hf, _, wildcardArm?_error.mpr ⟨w, hw, hnot, rfl⟩⟩
  · rintro ⟨hsome, e, he⟩
    obtain ⟨w, hw, hnot, -⟩ := wildcardArm?_error.mp he
    obtain ⟨f, hf⟩ := List.exists_mem_of_ne_nil _ hsome
    obtain ⟨shadow, hshadow, -⟩ := hs.exists_hasShadowArm kind hf
    exact .inr ⟨⟨f.phase, shadow, hshadow⟩, w, hw, hnot⟩

/-- The arms that are kept are those to be searched. -/
theorem Tree.Sorts.mistargeted_iff :
    u.Mistargeted V ↔ ∃ f ∈ s.families, u.BadTarget s.kept f.phase f.shadowedName := by
  rw [Tree.mistargeted_iff kind]
  unfold BadTarget
  constructor
  · rintro ⟨p, shadow, hshadow, hbad⟩
    obtain ⟨f, hf, rfl, hname⟩ := hs.exists_key kind hshadow
    refine ⟨f, hf, ?_⟩
    rwa [hs.findSome?_kept, hname]
  · rintro ⟨f, hf, hbad⟩
    obtain ⟨shadow, hshadow, hname⟩ := hs.exists_hasShadowArm kind hf
    rw [hs.findSome?_kept, ← hname] at hbad
    exact ⟨f.phase, shadow, hshadow, hbad⟩

end Sorted

theorem Tree.Malformed.isVisitor (h : u.Malformed V) : u.isVisitor V = true := by
  rw [isVisitor_iff]
  rcases h with (⟨kind, -, -⟩ | ⟨kind, -, -⟩) | ⟨kind, -, -, -, -⟩
  all_goals exact ⟨_, _, kind⟩

theorem Tree.Sorts.kept_lt (hs : u.Sorts arms s) : ∀ a ∈ s.kept, a < u.size := fun _ ha =>
  shadowArm?_lt (hs.mem_kept ha).2

/-- The pass stops at malformed visitors only, and at those that are not readable
it does so before it changes anything. -/
theorem VisitorHalted.malformed (h : VisitorHalted V u e u') (hf : u.Formed) :
    u.Malformed V ∧ (u.Unreadable V → u' = u) := by
  cases h with
  | arm kind mem fault => exact ⟨.inl (.arm kind mem fault), fun _ => rfl⟩
  | wildcard kind sorted some notArm =>
    obtain ⟨f, hf⟩ := List.exists_mem_of_ne_nil _ some
    obtain ⟨shadow, hshadow, -⟩ := (sorts sorted).exists_hasShadowArm kind hf
    exact ⟨.inl (.wildcard kind hshadow notArm), fun _ => rfl⟩
  | family kind sorted wild families =>
    have hs := sorts sorted
    have hbad := families.badTarget hf hs.kept_lt (hf.scope V (lt_size_of_kind kind (by simp))) (.refl u _)
    refine ⟨.inr ((hs.mistargeted_iff kind).mpr hbad), fun hunreadable => ?_⟩
    obtain ⟨-, e, he⟩ := (hs.unreadable_iff kind).mp hunreadable
    rw [wild] at he
    cases he

theorem VisitorLowered.not_malformed (h : VisitorLowered V u u') (hf : u.Formed) : ¬ u.Malformed V := by
  intro hbad
  cases h with
  | other h =>
    rw [hbad.isVisitor] at h
    cases h
  | plain kind sorted none =>
    have hs := sorts sorted
    rcases hbad with hbad | hbad
    · exact ((hs.unreadable_iff kind).mp hbad).1 none
    · obtain ⟨f, hmem, -⟩ := (hs.mistargeted_iff kind).mp hbad
      rw [none] at hmem
      cases hmem
  | merged kind sorted some wild families =>
    have hs := sorts sorted
    rcases hbad with hbad | hbad
    · obtain ⟨-, e, he⟩ := (hs.unreadable_iff kind).mp hbad
      rw [wild] at he
      cases he
    · obtain ⟨f, hmem, hbad⟩ := (hs.mistargeted_iff kind).mp hbad
      exact families.not_badTarget hf hs.kept_lt (hf.scope V (lt_size_of_kind kind (by simp))) (.refl u _) f hmem hbad

theorem FamiliesHalted.isUserError (h : FamiliesHalted vs wildcard fs m v e v') : e.cause.isUserError = false := by
  induction h with
  | first halted => cases halted <;> rfl
  | rest _ _ ih => exact ih

/-- Whatever lowering stops at, it blames the tree and not the program. -/
theorem VisitorHalted.isUserError (h : VisitorHalted V u e u') : e.cause.isUserError = false := by
  cases h with
  | arm _ _ fault => cases fault <;> rfl
  | wildcard => rfl
  | family _ _ _ families => exact families.isUserError

end Visitor

/-! ## All visitors -/

section Run

variable {t : Tree} (hf : t.Formed) (hr : t.Rooted)
include hf hr

theorem Tree.Rooted.pending : Pending t t ((t.postOrder root).filter t.isVisitor) :=
  ⟨.refl t, hf, hr.nodup_postOrder.filter _, fun _ hW => (List.mem_filter.mp hW).2, fun _ _ => rfl⟩

/-- At its turn a visitor is still one, and as malformed as it was. -/
theorem Tree.Rooted.pending_at {before after : List Nat} {V : Nat} {bs : List Bool} {w : Work}
    (hsplit : (t.postOrder root).filter t.isVisitor = before ++ V :: after)
    (hbefore : Pass.Yields (before.mapM Pass.lowerVisitor) { tree := t } bs w) :
    w.tree.Formed ∧ w.tree.isVisitor V = true ∧ (w.tree.Unreadable V ↔ t.Unreadable V) ∧
      (w.tree.Malformed V ↔ t.Malformed V) := by
  have hpend := hr.pending hf
  rw [hsplit] at hpend
  have hpend := hpend.run hf (Pass.chain_of_yields hbefore)
  obtain ⟨arms, wildcard, hk⟩ := isVisitor_iff.mp (hpend.visitor V List.mem_cons_self)
  have hkV := hpend.kind V List.mem_cons_self
  exact ⟨hpend.formed, isVisitor_iff.mpr ⟨arms, wildcard, hkV.trans hk⟩, hpend.later.malformed hf hkV hk⟩

/-- A visitor that has been lowered is not malformed. -/
theorem Tree.Rooted.not_malformed {before after : List Nat} {V : Nat} {t' : Tree}
    (hsplit : (t.postOrder root).filter t.isVisitor = before ++ after) (hc : Chain VisitorLowered before t t')
    (hV : V ∈ before) : ¬ t.Malformed V := by
  obtain ⟨l₁, l₂, rfl⟩ := List.append_of_mem hV
  obtain ⟨u, u', hl₁, hVu, -⟩ := hc.split
  have hpend := hr.pending hf
  rw [hsplit, List.append_assoc, List.cons_append] at hpend
  have hpend := hpend.run hf hl₁
  obtain ⟨arms, wildcard, hk⟩ := isVisitor_iff.mp (hpend.visitor V List.mem_cons_self)
  rw [← (hpend.later.malformed hf (hpend.kind V List.mem_cons_self) hk).2]
  exact hVu.not_malformed hpend.formed

/-- A run that stops does so at the first malformed visitor, and if that is not
readable, with the tree that the visitors before it have been lowered to. -/
theorem Tree.Rooted.lower_stops {e : Fault} (he : t.lower.result = .error e) :
    e.cause.isUserError = false ∧
      ∃ before V after bs w w', (t.postOrder root).filter t.isVisitor = before ++ V :: after ∧
        (∀ W ∈ before, ¬ t.Malformed W) ∧ t.Malformed V ∧
        Pass.Yields (before.mapM Pass.lowerVisitor) { tree := t } bs w ∧ Pass.Stops (Pass.lowerVisitor V) w e w' ∧
        t.lower.tree = w'.tree ∧ (t.Unreadable V → t.lower.tree = w.tree) := by
  obtain ⟨w', hstops, htree⟩ := Pass.outcome_error.mp he
  obtain ⟨before, V, after, bs, w, hsplit, hbefore, hV⟩ := Pass.stops_lower.mp hstops
  have hhalt := Pass.stops_lowerVisitor hV
  obtain ⟨hformed, -, hunreadable, hmalformed⟩ := hr.pending_at hf hsplit hbefore
  obtain ⟨hbad, hsame⟩ := hhalt.malformed hformed
  have hchain := Pass.chain_of_yields hbefore
  refine ⟨hhalt.isUserError, before, V, after, bs, w, w', hsplit, fun W hW => hr.not_malformed hf hsplit hchain hW,
    hmalformed.mp hbad, hbefore, hV, htree.symm, fun hun => ?_⟩
  exact htree.symm.trans (hsame (hunreadable.mpr hun))

/-- Lowering stops if and only if some visitor of the program is malformed. It
stops at the first of them and blames the tree. If that visitor is not readable,
nothing has been done to it. Every visitor is still one when its turn comes. -/
theorem Tree.lower_error_iff_malformed :
    ((∃ e, t.lower.result = .error e) ↔ ∃ V, t.Reachable V ∧ t.Malformed V) ∧
    (∀ e, t.lower.result = .error e → e.cause.isUserError = false ∧
      ∃ before V after bs w w', (t.postOrder root).filter t.isVisitor = before ++ V :: after ∧
        (∀ W ∈ before, ¬ t.Malformed W) ∧ t.Malformed V ∧
        Pass.Yields (before.mapM Pass.lowerVisitor) { tree := t } bs w ∧ Pass.Stops (Pass.lowerVisitor V) w e w' ∧
        t.lower.tree = w'.tree ∧ (t.Unreadable V → t.lower.tree = w.tree)) ∧
    ∀ before V after bs w, (t.postOrder root).filter t.isVisitor = before ++ V :: after →
      Pass.Yields (before.mapM Pass.lowerVisitor) { tree := t } bs w → w.tree.isVisitor V = true := by
  refine ⟨⟨fun h => ?_, fun h => ?_⟩, fun e => hr.lower_stops hf, fun before V after bs w hsplit hbefore =>
    (hr.pending_at hf hsplit hbefore).2.1⟩
  · obtain ⟨e, he⟩ := h
    obtain ⟨-, before, V, after, bs, w, w', hsplit, -, hV, -⟩ := hr.lower_stops hf he
    have hmem : V ∈ (t.postOrder root).filter t.isVisitor := by
      rw [hsplit]
      exact List.mem_append_right _ List.mem_cons_self
    exact ⟨V, reaches_of_mem_postOrder (List.mem_of_mem_filter hmem), hV⟩
  · obtain ⟨V, hV, hbad⟩ := h
    cases hresult : t.lower.result with
    | error e => exact ⟨e, rfl⟩
    | ok _ =>
      have hmem : V ∈ (t.postOrder root).filter t.isVisitor :=
        List.mem_filter.mpr ⟨(mem_postOrder (hr.endsWithin (.refl t root))).mpr hV, hbad.isVisitor⟩
      exact absurd hbad (hr.not_malformed hf (List.append_nil _).symm (t.lowering_chain hresult) hmem)

end Run

namespace Sample

/-- A visitor in an arm of a visitor whose wildcard is not an arm. -/
def refused : Tree := built do
  modify (·.modifyEnv (Statement.declare · Env.global))
  let call ← Build.call "done" [] Env.global
  let inner ← around (← Build.exprStmt call Env.global)
  let shadow ← arm .before "s" "ExprStmt" (.shadow Statement.exprStmt) fun _ => return [inner]
  let visitor ← Build.visitor [shadow] (.some (← Build.block [] Env.global)) Env.global
  attach (← Build.exprStmt visitor Env.global)

/-- The inner visitor is lowered, and lowering stops at the outer one. -/
theorem refused_stops :
    refused.Formed ∧ refused.Rooted ∧ refused.lower.result = .error ⟨.expected .wildcardArm "block", .none⟩ ∧
    (∃ V, refused.Reachable V ∧ refused.Malformed V) ∧
    ∃ before V after bs w w', (refused.postOrder Tree.root).filter refused.isVisitor = before ++ V :: after ∧
      (∀ W ∈ before, ¬ refused.Malformed W) ∧ refused.Malformed V ∧
      Pass.Yields (before.mapM Pass.lowerVisitor) { tree := refused } bs w ∧
      Pass.Stops (Pass.lowerVisitor V) w ⟨.expected .wildcardArm "block", .none⟩ w' ∧
      refused.lower.tree = w'.tree ∧ (refused.Unreadable V → refused.lower.tree = w.tree) := by
  have hlinked : refused.Linked := by decide +kernel
  have hr := hlinked.owned.rooted hlinked.formed
  have herror : refused.lower.result = .error ⟨.expected .wildcardArm "block", .none⟩ := by decide +kernel
  obtain ⟨hiff, hstop, -⟩ := Tree.lower_error_iff_malformed hlinked.formed hr
  exact ⟨hlinked.formed, hr, herror, hiff.mp ⟨_, herror⟩, (hstop _ herror).2⟩

end Sample

end Penumbra
