/-
What is left of a program when a visitor has been lowered.

All ways through the program are still there, except those from the visitor to
its shadow arms and to a wildcard that is used up. The bodies of the shadow
arms are reached through the switches instead. What was below the wildcard is
reached no more, but a copy of it is (`VisitorLowered.survives`).
-/
import Penumbra.Proofs.Lower.Dispatch
import Penumbra.Proofs.Pass.NodeQueue

namespace Penumbra

open Tree

namespace VisitorLowered

variable {u u' : Tree} {V x c d b : Nat} {arms : List NodeId} {wildcard : Option NodeId} {p : Phase} {T : String}

section Owned

variable (h : VisitorLowered V u u') (ho : u.Owned) (hVr : u.Reachable V)
include h ho hVr

theorem reachable_self : u'.Reachable V :=
  h.reaches_mono hVr fun _ hy hyV he => ho.noCircle hy (he ▸ hyV)

/-- What lies below a node below the visitor is still below that. -/
theorem reaches_below (hc : Relation.TransGen u.Child V c) (hcd : u.Reaches c d) : u'.Reaches c d :=
  h.reaches_mono hcd fun _ hcy _ he => ho.noCircle hVr (hc.trans_left (he ▸ hcy))

end Owned

/-- The visitor keeps its other arms, and it keeps its wildcard unless that is
copied. -/
theorem visitor_after (h : VisitorLowered V u u') (hf : u.Formed) (hV : u.kind V = .visitor arms wildcard)
    (hnamed : ∀ arm ∈ arms, ∀ q a, u.shadowArm? arm = .ok (.some (q, a)) →
      a.shadow.shadowedTy = .named a.shadow.shadowedName)
    (hdistinct : ∀ a ∈ arms, ∀ a' ∈ arms, ∀ p c q c' b, u.kind a = .arm p (.some c) b →
      u.kind a' = .arm q (.some c') b → a = a') :
    ∃ arms' wildcard', u'.kind V = .visitor arms' wildcard' ∧
      (∀ a ∈ arms, u.shadowArm? a = .ok .none → a ∈ arms') ∧
      (wildcard' = wildcard ∨ ∃ p T, arms.filterMap (u.memberOf? (p, T)) ≠ [] ∧
        arms.findSome? (u.bindsConcrete? p T) = .none ∧ u.wildcardFor? p wildcard ≠ .none) := by
  cases h with
  | other | plain => exact ⟨arms, wildcard, hV, fun a ha _ => ha, .inl rfl⟩
  | @merged arms₀ wildcard₀ s w m v kind sorted some wild families =>
    obtain ⟨rfl, rfl⟩ : arms = arms₀ ∧ wildcard = wildcard₀ := by simpa using hV.symm.trans kind
    have hs := sorts sorted
    have hready := hs.ready hf hV wild hnamed hdistinct
    have hlt := (lt_size_of_kind hV (by simp)).trans_le families.grows.size_le
    refine ⟨m.arms, _, by rw [kind_withArms, if_pos ⟨rfl, hlt⟩],
      fun a ha hr => families.arms_subset (hs.kept_of_read ha hr), ?_⟩
    · cases hused : m.usedWildcard with
      | false => exact .inl rfl
      | true =>
        obtain ⟨f, hmem, hnone, hw⟩ := (hready.usedWildcard families hs.distinct hused).resolve_left (by simp)
        refine .inr ⟨f.phase, f.shadowedName, fun hnil => ?_, hs.findSome?_kept.symm.trans hnone, wildcardFor_eq wild ▸ hw⟩
        have harms := hs.arms_eq hmem
        rw [Family.key, hnil] at harms
        cases harms

end VisitorLowered

/-! ## Through a switch -/

namespace Resolved

variable {u' : Tree} {V name body : Nat} {f : Family} {arms' init : List NodeId} {wildcard' default : Option Nat}
  (h : Resolved f arms' name body init default u') (hV : u'.kind V = .visitor arms' wildcard')
include h hV

/-- The switch of a family is reached through the arm found for it. -/
theorem reaches_switch : ∃ n binder, u'.Reaches V (n + 4 + 2 * f.arms.length) ∧ SwitchAt f binder default n u' := by
  obtain ⟨arm, harm, hb⟩ := List.exists_of_findSome?_eq_some h.found
  obtain ⟨c, ascription, hk, -, -⟩ := bindsConcrete?_eq_some.mp hb
  obtain ⟨binder, n, -, hstmts, hswitch⟩ := h.switch
  have hbody : u'.Reaches V body := .tail (.single (arm_mem_children hV harm)) (body_mem_children hk)
  refine ⟨n, binder, hbody.tail ?_, hswitch⟩
  rw [Tree.stmts?] at hstmts
  rw [Tree.children]
  generalize u'.kind body = k at hstmts
  cases k with
  | block | program => simp [Kind.children, Option.some.inj hstmts]
  | _ => cases hstmts

theorem reaches_body {a : ShadowArm} (ha : a ∈ f.arms) : u'.Reaches V a.body := by
  obtain ⟨n, binder, hn, hswitch⟩ := h.reaches_switch hV
  obtain ⟨j, hj⟩ := List.mem_iff_getElem?.mp ha
  have hlt := (List.getElem?_eq_some_iff.mp hj).1
  refine (hn.tail (c := n + 4 + 2 * j + 1) ?_).tail ?_
  · rw [Tree.children, hswitch.switch]
    have : n + 4 + 2 * j + 1 ∈ pairIds (n + 4) f.arms.length := mem_pairIds.mpr ⟨j, hlt, by omega⟩
    simp [Kind.children, this]
  · rw [Tree.children, hswitch.case j a hj]
    simp [Kind.children]

theorem reaches_default {d : Nat} (hd : d ∈ default) : u'.Reaches V d := by
  obtain ⟨n, binder, hn, hswitch⟩ := h.reaches_switch hV
  refine hn.tail ?_
  rw [Tree.children, hswitch.switch]
  simp [Kind.children, Option.mem_def.mp hd]

end Resolved

/-! ## The whole program -/

namespace VisitorLowered

variable {u u' : Tree} {V x c d b : Nat} {arms : List NodeId} {wildcard : Option NodeId} {p : Phase} {T : String}
  (h : VisitorLowered V u u') (hf : u.Formed) (ho : u.Owned) (hVr : u.Reachable V)
  (hV : u.kind V = .visitor arms wildcard)
  (hnamed : ∀ arm ∈ arms, ∀ q a, u.shadowArm? arm = .ok (.some (q, a)) →
    a.shadow.shadowedTy = .named a.shadow.shadowedName)
  (hwild : ∀ w ∈ wildcard, ∃ p b, u.kind w = .arm p .none b)
include h hf ho hVr hV hnamed

theorem resolved_owned (hshadow : arms.filterMap (u.memberOf? (p, T)) ≠ []) :
    ∃ f arms' wildcard' name body init default, u'.kind V = .visitor arms' wildcard' ∧
      f.arms = arms.filterMap (u.memberOf? (p, T)) ∧ Resolved f arms' name body init default u' ∧
      (arms.findSome? (u.bindsConcrete? p T) = .none → ∃ Z n, Copied Z (u.wildcardFor? p wildcard) default n u') := by
  have harm : ∀ a ∈ arms, u.Reachable a := fun a ha => Reaches.tail hVr (arm_mem_children hV ha)
  have hclosed : u.Closed { y | ∃ b ∈ u.wildcardFor? p wildcard, u.Reaches b y } := by
    constructor
    · rintro y ⟨b, hb, hy⟩
      obtain ⟨w, hw, c, hk⟩ := wildcardFor?_eq_some.mp hb
      obtain rfl := Option.mem_def.mp hw
      exact hf.bounded (((hVr.tail (wildcard_mem_children hV)).tail (body_mem_children hk)).trans hy)
    · rintro y ⟨b, hb, hy⟩ c hc
      exact ⟨b, hb, hy.tail hc⟩
  -- ways from the wildcard lead neither to the visitor nor to its other arms
  have hsep : ∀ b ∈ u.wildcardFor? p wildcard, ∃ w ∈ wildcard, w ∈ u.children V ∧ w ∉ arms ∧ b ∈ u.children w := by
    intro b hb
    obtain ⟨w, hw, c, hk⟩ := wildcardFor?_eq_some.mp hb
    obtain rfl := Option.mem_def.mp hw
    have hnodup := ho.nodup V hVr
    rw [Tree.children, hV] at hnodup
    exact ⟨w, rfl, wildcard_mem_children hV,
      fun hmem => (List.nodup_append.mp hnodup).2.2 w hmem w (by simp) rfl, body_mem_children hk⟩
  have hnotV : V ∉ { y | ∃ b ∈ u.wildcardFor? p wildcard, u.Reaches b y } := by
    rintro ⟨b, hb, hbV⟩
    obtain ⟨w, -, hwV, -, hbw⟩ := hsep b hb
    exact ho.noCircle hVr (.head' hwV (.head hbw hbV))
  obtain ⟨f, arms', wildcard', hV', -, harms, hcase⟩ := h.resolved hf hV hshadow hnamed
    (fun a ha a' ha' p c q c' b hk hk' =>
      ho.eq_of_mem (harm a ha) (harm a' ha') (body_mem_children hk) (body_mem_children hk'))
    hclosed hnotV
    (by
      rintro y ⟨-, as, wc, arm, q, c, hk, hmem, hkarm⟩ ⟨b, hb, hby⟩
      rw [hV] at hk
      cases hk
      obtain ⟨w, -, hwV, hnot, hbw⟩ := hsep b hb
      have heq := ho.disjoint hVr (arm_mem_children hV hmem) hwV (.single (body_mem_children hkarm)) (.head hbw hby)
      exact hnot (heq ▸ hmem))
    (fun b hb => ⟨b, hb, .refl u b⟩)
  rcases hcase with ⟨name, body, init, hfound, -, hres⟩ | ⟨-, name, body, default, hres, -, hcopied⟩
  · exact ⟨f, arms', wildcard', name, body, init, _, hV', harms, hres, fun hnone => by rw [hnone] at hfound; cases hfound⟩
  · exact ⟨f, arms', wildcard', name, body, [], default, hV', harms, hres, fun _ => ⟨_, _, hcopied⟩⟩

theorem survives_shadow {arm : Nat} {a : ShadowArm} (harm : arm ∈ arms) (hr : u.shadowArm? arm = .ok (.some (p, a)))
    (hd : u.Reaches arm d) :
    u'.Reachable d ∨ d = arm ∨ ∃ p c b, u.kind arm = .arm p (.some c) b ∧ u.Reaches c d := by
  obtain ⟨q, c, body, name, ascription, hk, -, hcase⟩ := shadowArm?_ok.mp hr
  obtain ⟨shadow, binder, -, -, heq⟩ := hcase.resolve_left (by simp)
  cases heq
  rcases hd.cases with rfl | ⟨e, he, hed⟩
  · exact .inr (.inl rfl)
  · have hchildren := he
    rw [Tree.children, hk] at hchildren
    simp only [Kind.children, Option.toList, List.cons_append, List.nil_append, List.mem_cons, List.not_mem_nil,
      or_false] at hchildren
    rcases hchildren with rfl | rfl
    · exact .inr (.inr ⟨p, e, body, hk, hed⟩)
    · -- the body is a case of the switch now
      obtain ⟨f, arms', wildcard', name', body', init, default, hkV', harms, hres, -⟩ :=
        h.resolved_owned hf ho hVr hV hnamed (p := p) (T := shadow.shadowedName) fun hnil => by
          have hmem : _ ∈ arms.filterMap (u.memberOf? (p, shadow.shadowedName)) :=
            List.mem_filterMap.mpr ⟨arm, harm, memberOf?_eq_some.mpr ⟨p, hr, rfl⟩⟩
          rw [hnil] at hmem
          cases hmem
      have hbody := hres.reaches_body hkV' (a := ⟨binder, u.scope c, e, shadow⟩) (by
        rw [harms]
        exact List.mem_filterMap.mpr ⟨arm, harm, memberOf?_eq_some.mpr ⟨p, hr, rfl⟩⟩)
      have hed' := h.reaches_below ho hVr (.tail (.single (arm_mem_children hV harm)) he) hed
      exact .inl (((h.reachable_self ho hVr).trans hbody).trans hed')

include hwild

theorem survives_wildcard {w : Nat} (hw : wildcard = .some w) (hshadow : arms.filterMap (u.memberOf? (p, T)) ≠ [])
    (hnone : arms.findSome? (u.bindsConcrete? p T) = .none) (hfor : u.wildcardFor? p wildcard ≠ .none)
    (hd : u.Reaches w d) : d ∈ wildcard ∨ ∃ φ D d', u'.Folds φ D ∧ d' ∈ D ∧ φ d' = d ∧ u'.Reachable d' := by
  subst hw
  obtain ⟨b, hb⟩ := Option.ne_none_iff_exists'.mp hfor
  obtain ⟨w', hw', c, hk⟩ := wildcardFor?_eq_some.mp hb
  obtain rfl : w = w' := Option.some.inj hw'
  obtain ⟨q, b', hk'⟩ := hwild w rfl
  rw [hk] at hk'
  cases hk'
  rcases hd.cases with rfl | ⟨e, he, hed⟩
  · exact .inl rfl
  · have hchildren := he
    rw [Tree.children, hk] at hchildren
    simp only [Kind.children, Option.toList, List.nil_append, List.mem_singleton] at hchildren
    subst hchildren
    obtain ⟨f, arms', wildcard', name, body, init, default, hkV', -, hres, hcopied⟩ :=
      h.resolved_owned hf ho hVr hV hnamed hshadow
    obtain ⟨Z, n, hcopied⟩ := hcopied hnone
    obtain ⟨φ, D, hfolds, hdefault, hD⟩ := hcopied.folds
    rw [hb, Option.map_eq_some_iff] at hdefault
    obtain ⟨e', rfl, rfl⟩ := hdefault
    have hed' := h.reaches_below ho hVr (.tail (.single (wildcard_mem_children hV)) he) hed
    obtain ⟨d', hd', hreach, rfl⟩ := hfolds.lift (hD e' rfl) hed'
    exact .inr ⟨φ, D, d', hfolds, hd', rfl, ((h.reachable_self ho hVr).trans (hres.reaches_default hkV' rfl)).trans hreach⟩

/-- A node of the program is still reached, or it is a shadow arm or belongs
to the binder of one, or it is the wildcard, or it is below that and a copy of it
is reached. -/
theorem survives (hd : u.Reachable d) :
    u'.Reachable d ∨
    (∃ arm ∈ arms, ∃ p a, u.shadowArm? arm = .ok (.some (p, a)) ∧
      (d = arm ∨ ∃ p c b, u.kind arm = .arm p (.some c) b ∧ u.Reaches c d)) ∨
    d ∈ wildcard ∨
    ∃ φ D d', u'.Folds φ D ∧ d' ∈ D ∧ φ d' = d ∧ u'.Reachable d' := by
  have hV' := h.reachable_self ho hVr
  by_cases hbelow : u.Reaches V d
  · rcases hbelow.cases with rfl | ⟨c, hc, hcd⟩
    · exact .inl hV'
    · have hcd' := h.reaches_below ho hVr (.single hc) hcd
      obtain ⟨arms', wildcard', hkV', hkept, hused⟩ := h.visitor_after hf hV hnamed
        fun a ha a' ha' p c q c' b hk hk' => ho.eq_of_mem (hVr.tail (arm_mem_children hV ha))
          (hVr.tail (arm_mem_children hV ha')) (body_mem_children hk) (body_mem_children hk')
      have hmem := hc
      rw [Tree.children, hV] at hmem
      rcases List.mem_append.mp hmem with harm | hw
      · obtain ⟨r, hr⟩ := h.reads hV c harm
        cases r with
        | none => exact .inl ((hV'.tail (arm_mem_children hkV' (hkept c harm hr))).trans hcd')
        | some r =>
          obtain ⟨p, a⟩ := r
          refine (h.survives_shadow hf ho hVr hV hnamed harm hr hcd).imp_right fun hcase => ?_
          exact .inl ⟨c, harm, p, a, hr, hcase⟩
      · obtain rfl : wildcard = .some c := by simpa using hw
        rcases hused with rfl | ⟨p, T, hshadow, hnone, hfor⟩
        · exact .inl ((hV'.tail (wildcard_mem_children hkV')).trans hcd')
        · exact .inr (.inr (h.survives_wildcard hf ho hVr hV hnamed hwild rfl hshadow hnone hfor hcd))
  · exact .inl (h.reachable_of_not_below hd hbelow)

end VisitorLowered

end Penumbra
