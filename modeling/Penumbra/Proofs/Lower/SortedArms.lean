/-
How the arms of a visitor are sorted.

`shadowArm?` reads one arm; `sortArms` is a fold over it. If the fold ends
without a fault, every arm could be read, the arms kept are those without a
shadow type, and for every phase and concrete type there is one family, if
any, which has the shadow arms for them in the visitor's order (`Sorts`).
-/
import Penumbra.Erase.Family
import Mathlib.Data.List.Basic

namespace Penumbra

namespace Family

variable {p q : Phase} {T : String} {a : ShadowArm} {f : Family} {fs : List Family}

def key (f : Family) : Phase × String := (f.phase, f.shadowedName)

/-- The arms of the family for a phase and a concrete type. -/
def armsFor (fs : List Family) (key : Phase × String) : List ShadowArm :=
  ((fs.find? (·.key = key)).map arms).getD []

theorem admits_iff : f.admits p a = true ↔ f.key = (p, a.shadow.shadowedName) := by
  simp [admits, key]

theorem keys_insert :
    (insert p a fs).map key =
      if (p, a.shadow.shadowedName) ∈ fs.map key then fs.map key
      else fs.map key ++ [(p, a.shadow.shadowedName)] := by
  induction fs with
  | nil => rfl
  | cons f fs ih =>
    rw [insert]
    by_cases h : f.admits p a = true
    · rw [if_pos h, List.map_cons, List.map_cons, if_pos]
      · rfl
      · rw [List.mem_cons]
        exact .inl (admits_iff.mp h).symm
    · have hne : (p, a.shadow.shadowedName) ≠ f.key := fun he => h (admits_iff.mpr he.symm)
      rw [if_neg h, List.map_cons, ih, List.map_cons]
      by_cases hmem : (p, a.shadow.shadowedName) ∈ fs.map key
      · rw [if_pos hmem, if_pos (List.mem_cons_of_mem _ hmem)]
      · rw [if_neg hmem, if_neg, List.cons_append]
        simpa [hne] using hmem

theorem armsFor_insert (k : Phase × String) :
    armsFor (insert p a fs) k =
      armsFor fs k ++ if (p, a.shadow.shadowedName) = k then [a] else [] := by
  induction fs with
  | nil =>
    simp only [insert, armsFor, List.find?_cons, List.find?_nil, key, Option.map_none, Option.getD_none]
    by_cases hk : (p, a.shadow.shadowedName) = k
    · simp [hk, arms]
    · simp [hk]
  | cons f fs ih =>
    rw [insert]
    by_cases h : f.admits p a = true
    · rw [if_pos h, ← admits_iff.mp h]
      by_cases hk : f.key = k
      · have hk' : key { f with rest := f.rest ++ [a] } = k := hk
        simp [armsFor, hk, hk', arms]
      · have hk' : key { f with rest := f.rest ++ [a] } ≠ k := hk
        simp [armsFor, hk, hk']
    · rw [if_neg h]
      by_cases hk : f.key = k
      · have hne : (p, a.shadow.shadowedName) ≠ k := fun he => h (admits_iff.mpr (hk.trans he.symm))
        simp [armsFor, hk, hne]
      · simpa [armsFor, hk] using ih

theorem armsFor_key (hn : (fs.map key).Nodup) (hf : f ∈ fs) : armsFor fs f.key = f.arms := by
  induction fs with
  | nil => simp at hf
  | cons g fs ih =>
    rw [List.map_cons, List.nodup_cons] at hn
    rcases List.mem_cons.mp hf with rfl | hf
    · simp [armsFor]
    · have hne : g.key ≠ f.key := fun he => hn.1 (he ▸ List.mem_map_of_mem hf)
      have hrec := ih hn.2 hf
      simpa [armsFor, hne] using hrec

theorem exists_of_armsFor {k : Phase × String} (h : armsFor fs k ≠ []) : ∃ f ∈ fs, f.key = k := by
  unfold armsFor at h
  cases hfind : fs.find? (·.key = k) with
  | none => simp [hfind] at h
  | some f => exact ⟨f, List.mem_of_find?_eq_some hfind, by simpa using List.find?_some hfind⟩

end Family

namespace Tree

variable {t : Tree} {arm x : NodeId} {arms done : List NodeId} {s s' : Sorted} {a : ShadowArm}

theorem token?_eq_some {token : String} : t.token? x = .some token ↔ t.kind x = .ident token := by
  unfold token?
  cases t.kind x <;> simp [Kind.token?]

theorem tokenAs_ok {role : IdentRole} {token : String} :
    t.tokenAs role x = .ok token ↔ t.kind x = .ident token := by
  simp only [tokenAs, token?]
  cases t.kind x <;> simp [Kind.token?]

theorem tokenAs_error {role : IdentRole} {e : Fault} :
    t.tokenAs role x = .error e ↔ t.token? x = .none ∧ e = ⟨.expectedIdent role (t.kind x).name, t.span x⟩ := by
  unfold tokenAs
  cases t.token? x with
  | none => simp [eq_comm]
  | some token => simp

/-- An arm that can be read has a component as its binder, and if that has a
shadow type, an identifier as the component's name. -/
theorem shadowArm?_ok {r : Option (Phase × ShadowArm)} :
    t.shadowArm? arm = .ok r ↔ ∃ p c body name ascription, t.kind arm = .arm p (.some c) body ∧
      t.kind c = .component name ascription ∧
      (t.declaredShadow? c ascription = .none ∧ r = .none ∨
        ∃ shadow binder, t.declaredShadow? c ascription = .some shadow ∧ t.kind name = .ident binder ∧
          r = .some (p, { binder, scope := t.scope c, body, shadow })) := by
  unfold shadowArm?
  constructor
  · intro h
    split at h
    next p c body harm =>
      split at h
      next name ascription hc =>
        refine ⟨p, c, body, name, ascription, harm, hc, ?_⟩
        split at h
        next hd =>
          cases h
          exact .inl ⟨hd, rfl⟩
        next shadow hd =>
          cases htok : t.tokenAs .binder name with
          | error e => simp [htok, bind, Except.bind] at h
          | ok binder =>
            simp only [htok, bind, Except.bind, pure, Except.pure, Except.ok.injEq] at h
            exact .inr ⟨shadow, binder, hd, tokenAs_ok.mp htok, h.symm⟩
      next => cases h
    next => cases h
    next => cases h
  · rintro ⟨p, c, body, name, ascription, harm, hc, ⟨hd, rfl⟩ | ⟨shadow, binder, hd, htok, rfl⟩⟩
    · simp only [harm, hc, hd]
    · simp only [harm, hc, hd, tokenAs_ok.mpr htok]
      rfl

/-- The shadow arm that an arm is, if it can be read as one. -/
def readArm? (t : Tree) (arm : NodeId) : Option (Phase × ShadowArm) :=
  (t.shadowArm? arm).toOption.join

/-- An arm's contribution to the family with that key. -/
def memberOf? (t : Tree) (k : Phase × String) (arm : NodeId) : Option ShadowArm :=
  match t.readArm? arm with
  | .some (p, a) => if (p, a.shadow.shadowedName) = k then .some a else .none
  | .none => .none

theorem readArm?_eq_some {r : Phase × ShadowArm} : t.readArm? arm = .some r ↔ t.shadowArm? arm = .ok (.some r) := by
  unfold readArm?
  cases t.shadowArm? arm <;> simp [Except.toOption]

theorem memberOf?_eq_some {k : Phase × String} :
    t.memberOf? k arm = .some a ↔ ∃ q, t.shadowArm? arm = .ok (.some (q, a)) ∧ (q, a.shadow.shadowedName) = k := by
  unfold memberOf?
  split
  next q b hr =>
    rw [readArm?_eq_some] at hr
    rw [hr]
    constructor
    · intro h
      split at h
      · next hk =>
        cases h
        exact ⟨q, rfl, hk⟩
      · cases h
    · rintro ⟨q', heq, hk⟩
      cases heq
      rw [if_pos hk]
  next hr =>
    constructor
    · exact fun h => absurd h (by simp)
    · rintro ⟨q, heq, -⟩
      rw [readArm?_eq_some.mpr heq] at hr
      cases hr

/-- `s` is how the arms are sorted. -/
structure Sorts (t : Tree) (arms : List NodeId) (s : Sorted) : Prop where
  read : ∀ a ∈ arms, ∃ r, t.shadowArm? a = .ok r
  kept : s.kept = arms.filter fun a => (t.readArm? a).isNone
  distinct : (s.families.map Family.key).Nodup
  members : ∀ k, Family.armsFor s.families k = arms.filterMap (t.memberOf? k)

theorem Sorts.snoc (h : t.Sorts done s) (hs : t.sortArm s arm = .ok s') : t.Sorts (done ++ [arm]) s' := by
  cases hr : t.shadowArm? arm with
  | error e => simp [sortArm, hr, bind, Except.bind] at hs
  | ok r =>
    have hread : ∀ a ∈ done ++ [arm], ∃ r, t.shadowArm? a = .ok r := by
      intro a ha
      rcases List.mem_append.mp ha with ha | ha
      · exact h.read a ha
      · exact ⟨r, List.mem_singleton.mp ha ▸ hr⟩
    have harm : t.readArm? arm = r := by rw [readArm?, hr]; rfl
    cases r with
    | none =>
      simp only [sortArm, hr, bind, Except.bind, pure, Except.pure, Except.ok.injEq] at hs
      subst hs
      refine ⟨hread, ?_, h.distinct, fun k => ?_⟩
      · simp [List.filter_append, h.kept, harm]
      · simp [List.filterMap_append, h.members, memberOf?, harm]
    | some r =>
      obtain ⟨p, a⟩ := r
      simp only [sortArm, hr, bind, Except.bind, pure, Except.pure, Except.ok.injEq] at hs
      subst hs
      refine ⟨hread, ?_, ?_, fun k => ?_⟩
      · simp [List.filter_append, h.kept, harm]
      · simp only [Family.keys_insert]
        split
        · exact h.distinct
        · rename_i hnew
          exact List.nodup_append.mpr ⟨h.distinct, by simp, fun k hk k' hk' he => by
            rw [List.mem_singleton.mp hk'] at he
            exact hnew (he ▸ hk)⟩
      · rw [Family.armsFor_insert, h.members, List.filterMap_append]
        congr 1
        simp only [List.filterMap_cons, List.filterMap_nil, memberOf?, harm]
        split <;> simp_all

/-- What sorting one more arm keeps holds once all arms are sorted. -/
theorem sortArms_induction {P : List NodeId → Sorted → Prop} (hnil : P [] {})
    (hsnoc : ∀ done s arm s', P done s → t.sortArm s arm = .ok s' → P (done ++ [arm]) s')
    (h : t.sortArms arms = .ok s) : P arms s := by
  have hfold : ∀ (rest done : List NodeId) (s₀ : Sorted), P done s₀ →
      rest.foldlM t.sortArm s₀ = .ok s → P (done ++ rest) s := by
    intro rest
    induction rest with
    | nil =>
      intro done s₀ hd hrest
      cases hrest
      simpa using hd
    | cons a rest ih =>
      intro done s₀ hd hrest
      rw [List.foldlM_cons] at hrest
      cases hs : t.sortArm s₀ a with
      | error e => simp [hs, bind, Except.bind] at hrest
      | ok s₁ =>
        have := ih (done ++ [a]) s₁ (hsnoc done s₀ a s₁ hd hs) (by simpa [hs, bind, Except.bind] using hrest)
        simpa using this
  simpa using hfold arms [] {} hnil h

theorem sorts (h : t.sortArms arms = .ok s) : t.Sorts arms s :=
  sortArms_induction (P := t.Sorts) ⟨by simp, rfl, by simp, fun _ => rfl⟩ (fun _ _ _ _ => Sorts.snoc) h

/-- Arms that can all be read can be sorted. -/
theorem exists_sortArms (h : ∀ a ∈ arms, ∃ r, t.shadowArm? a = .ok r) : ∃ s, t.sortArms arms = .ok s := by
  have hfold : ∀ s₀ : Sorted, ∃ s, arms.foldlM t.sortArm s₀ = .ok s := by
    induction arms with
    | nil => exact fun s₀ => ⟨s₀, rfl⟩
    | cons a arms ih =>
      intro s₀
      obtain ⟨r, hr⟩ := h a (by simp)
      have hstep : ∃ s₁, t.sortArm s₀ a = .ok s₁ := by
        unfold sortArm
        rw [hr]
        rcases r with _ | ⟨p, b⟩ <;> exact ⟨_, rfl⟩
      obtain ⟨s₁, hs₁⟩ := hstep
      obtain ⟨s, hs⟩ := ih (fun b hb => h b (by simp [hb])) s₁
      exact ⟨s, by rw [List.foldlM_cons, hs₁]; exact hs⟩
  exact hfold {}

section Members

variable (h : t.Sorts arms s)
include h

theorem Sorts.mem_kept {a : NodeId} (ha : a ∈ s.kept) : a ∈ arms ∧ t.shadowArm? a = .ok .none := by
  rw [h.kept, List.mem_filter] at ha
  obtain ⟨r, hr⟩ := h.read a ha.1
  refine ⟨ha.1, ?_⟩
  rw [hr, Except.ok.injEq]
  simpa [readArm?, hr, Except.toOption] using ha.2

theorem Sorts.kept_of_read {a : NodeId} (ha : a ∈ arms) (hr : t.shadowArm? a = .ok .none) : a ∈ s.kept := by
  rw [h.kept, List.mem_filter]
  exact ⟨ha, by rw [readArm?, hr]; rfl⟩

theorem Sorts.arms_eq {f : Family} (hf : f ∈ s.families) : f.arms = arms.filterMap (t.memberOf? f.key) := by
  rw [← h.members, Family.armsFor_key h.distinct hf]

theorem Sorts.mem_family {f : Family} (hf : f ∈ s.families) {a : ShadowArm} (ha : a ∈ f.arms) :
    ∃ arm ∈ arms, t.shadowArm? arm = .ok (.some (f.phase, a)) ∧ a.shadow.shadowedName = f.shadowedName := by
  rw [h.arms_eq hf, List.mem_filterMap] at ha
  obtain ⟨arm, harm, ha⟩ := ha
  obtain ⟨q, hr, hk⟩ := memberOf?_eq_some.mp ha
  obtain ⟨rfl, hname⟩ := Prod.mk.inj hk
  exact ⟨arm, harm, hr, hname⟩

/-- Every shadow arm is in a family. -/
theorem Sorts.exists_family {arm : NodeId} (harm : arm ∈ arms) {p : Phase} {a : ShadowArm}
    (hr : t.shadowArm? arm = .ok (.some (p, a))) : ∃ f ∈ s.families, a ∈ f.arms := by
  have hmem : a ∈ arms.filterMap (t.memberOf? (p, a.shadow.shadowedName)) :=
    List.mem_filterMap.mpr ⟨arm, harm, memberOf?_eq_some.mpr ⟨p, hr, rfl⟩⟩
  rw [← h.members] at hmem
  obtain ⟨f, hf, hkey⟩ := Family.exists_of_armsFor (List.ne_nil_of_mem hmem)
  rw [← hkey, Family.armsFor_key h.distinct hf] at hmem
  exact ⟨f, hf, hmem⟩

/-- Without shadow arms there are no families. -/
theorem Sorts.families_eq_nil : s.families = [] ↔ ∀ a ∈ arms, t.shadowArm? a = .ok .none := by
  constructor
  · intro hnil a ha
    obtain ⟨r, hr⟩ := h.read a ha
    cases r with
    | none => exact hr
    | some r =>
      obtain ⟨f, hf, -⟩ := h.exists_family ha hr
      rw [hnil] at hf
      cases hf
  · refine fun hnone => List.eq_nil_iff_forall_not_mem.mpr fun f hf => ?_
    obtain ⟨arm, harm, hr, -⟩ := h.mem_family hf (List.mem_cons_self : f.first ∈ f.arms)
    rw [hnone arm harm] at hr
    cases hr

end Members

theorem wildcardArm?_some {wildcard : Option NodeId} {p : Phase} {body : NodeId}
    (h : t.wildcardArm? wildcard = .ok (.some (p, body))) :
    ∃ w binder, wildcard = .some w ∧ t.kind w = .arm p binder body := by
  cases wildcard with
  | none => cases h
  | some w =>
    unfold wildcardArm? at h
    simp only at h
    split at h
    next q binder b hk =>
      simp only [Except.ok.injEq, Option.some.injEq, Prod.mk.injEq] at h
      obtain ⟨rfl, rfl⟩ := h
      exact ⟨w, binder, rfl, hk⟩
    next => cases h

end Tree

end Penumbra
