/-
Variables of shadow types while a visitor is lowered.

A family's arms are rebound to the concrete type, so their binders have no
shadow type afterwards, whatever is bound before and after (`FamiliesMerged.clears`).
The nodes added are in scopes that nodes of the program are in, or in new ones
right inside the visitor's scope (`Tracked`). Nothing that could not be seen
before is seen from there (`Env.Tamed.of_seen`).
-/
import Penumbra.Proofs.Lower.FitVisitors
import Penumbra.Proofs.Env.ConcreteBindings

namespace Penumbra

open Tree

namespace Env

variable {e e' : Env} {s b vs : Nat} {n : String} {Γ : Set Nat}

/-- A scope that is not there binds nothing. -/
theorem lt_size_of_shadowVar (h : e.ShadowVar b n) : b < e.size := by
  by_contra hge
  obtain ⟨ty, hty, -⟩ := h
  have hempty : e.scope b = {} := by
    have : ¬ b < e.scopes.size := hge
    simp [scope, Array.getD, this]
  rw [hempty] at hty
  cases hty

/-- The scope is one of `Γ`, or a new one right inside `vs`. -/
def Seen (e e' : Env) (Γ : Set Nat) (vs s : Nat) : Prop :=
  s ∈ Γ ∨ e.size ≤ s ∧ s < e'.size ∧ e'.parent s = .some vs

theorem Seen.mono {e'' : Env} (h : Seen e e' Γ vs s) (hs : e'.SameTypes e'') : Seen e e'' Γ vs s :=
  h.imp_right fun ⟨hge, hlt, hp⟩ => ⟨hge, hlt.trans_le hs.size_le, (hs.parent s hlt).trans hp⟩

/-- A shadow type seen from such a scope is seen from one of `Γ` before. -/
theorem Tamed.of_seen (h : e.Tamed e') (hn : e.Nested) (hΓ : ∀ s : Nat, s ∈ Γ → s < e.size) (hvs : vs ∈ Γ)
    (hs : Seen e e' Γ vs s) (hb : e'.binder? s n = .some b) (hv : e'.ShadowVar b n) :
    ∃ s₀ ∈ Γ, e.binder? s₀ n = .some b ∧ e.ShadowVar b n := by
  have hv' := h.shadowVar b n hv
  rcases hs with hs | ⟨hge, hlt, hp⟩
  · exact ⟨s, hs, h.binder?_of_shadowVar hn (hΓ s hs) hb hv, hv'⟩
  · refine ⟨vs, hvs, h.binder?_of_shadowVar hn (hΓ vs hvs) ?_ hv, hv'⟩
    rw [(h.nested hn).binder?_step hlt] at hb
    split at hb
    · obtain rfl := Option.some.inj hb
      have := lt_size_of_shadowVar hv'
      omega
    · rwa [hp, Option.bind_some] at hb

end Env

variable {N R : Set String} {f : Family} {vs : Nat} {v v' : Tree} {wildcard : Option (Phase × NodeId)} {m m' : Merged}
  {fs : List Family} {S G Z Γ : Set Nat} {e e₀ : Env}

/-! ## The binders of shadow arms -/

/-- Binding variables to concrete types one after the other. -/
theorem Family.tamed_foldl {arms : List ShadowArm} (hn : e.Nested)
    (hty : ∀ a ∈ arms, a.shadow.shadowedTy.isShadow = false) :
    e.Tamed (arms.foldl (fun e a => e.set a.scope a.binder a.shadow.shadowedTy) e) ∧
      ∀ a ∈ arms, a.scope < e.size → ∀ b, e.binder? a.scope a.binder = .some b →
        ¬ (arms.foldl (fun e a => e.set a.scope a.binder a.shadow.shadowedTy) e).ShadowVar b a.binder := by
  induction arms generalizing e with
  | nil => exact ⟨.refl e, by simp⟩
  | cons a arms ih =>
    have hset : e.Tamed (e.set a.scope a.binder a.shadow.shadowedTy) := .set hn (hty a (by simp))
    obtain ⟨hrest, hclear⟩ := ih (hset.nested hn) fun a' ha' => hty a' (by simp [ha'])
    refine ⟨hset.trans hrest, fun a' ha' hs b hb => ?_⟩
    rcases List.mem_cons.mp ha' with rfl | ha'
    · exact fun hv => Env.not_shadowVar_set hn hs (hty a' (by simp)) hb (hrest.shadowVar b _ hv)
    · exact hclear a' ha' (hs.trans_le hset.size_le) b (hset.bound _ _ b hs hb)

theorem Family.Sound.isShadow (hs : f.Sound N R) : ∀ a ∈ f.arms, a.shadow.shadowedTy.isShadow = false := fun a ha =>
  (hs.shadow a ha).isShadow

/-- Merging a family gives its binders concrete types, and no variable a shadow
type. -/
theorem FamilyMerged.clears (h : FamilyMerged vs wildcard f m v m' v') (hs : f.Sound N R) (hn : v.env.Nested)
    (hvs : vs < v.env.size) :
    v.env.Tamed v'.env ∧ ∀ a ∈ f.arms, a.scope < v.env.size → ∀ b, v.env.binder? a.scope a.binder = .some b →
      ¬ v'.env.ShadowVar b a.binder := by
  cases h with
  | existing _ _ merged =>
    rw [merged.env]
    exact Family.tamed_foldl hn hs.isShadow
  | made _ copied merged =>
    have hnew : v.env.Tamed (f.bindNew vs v.env) := .child hn hvs (hs.isShadow _ List.mem_cons_self)
    obtain ⟨hrebind, hclear⟩ := Family.tamed_foldl (hnew.nested hn) hs.isShadow
    rw [merged.env, copied.env, f.env_armed]
    exact ⟨hnew.trans hrebind, fun a ha hlt b hb =>
      hclear a ha (hlt.trans_le hnew.size_le) b (hnew.bound _ _ b hlt hb)⟩

theorem FamiliesMerged.clears (h : FamiliesMerged vs wildcard fs m v m' v') (hs : ∀ f ∈ fs, f.Sound N R) (hn : v.env.Nested)
    (hvs : vs < v.env.size) :
    v.env.Tamed v'.env ∧ ∀ f ∈ fs, ∀ a ∈ f.arms, a.scope < v.env.size → ∀ b, v.env.binder? a.scope a.binder = .some b →
      ¬ v'.env.ShadowVar b a.binder := by
  induction h with
  | nil => exact ⟨.refl _, by simp⟩
  | @cons f fs m m₁ m' v v₁ v' first rest ih =>
    obtain ⟨htamed, hclear⟩ := first.clears (hs f (by simp)) hn hvs
    obtain ⟨htamed', hclear'⟩ := ih (fun g hg => hs g (by simp [hg])) (htamed.nested hn) (hvs.trans_le htamed.size_le)
    refine ⟨htamed.trans htamed', fun g hg a ha hlt b hb => ?_⟩
    rcases List.mem_cons.mp hg with rfl | hg
    · exact fun hv => hclear a ha hlt b hb (htamed'.shadowVar b _ hv)
    · exact hclear' g hg a ha (hlt.trans_le htamed.size_le) b (htamed.bound _ _ b hlt hb)

/-! ## The scopes of new nodes -/

/-- All nodes in `S` are in scopes from which only what could be seen from `Γ` is
seen. -/
def SeenIn (e : Env) (Γ : Set Nat) (vs : Nat) (v : Tree) (S : Set Nat) : Prop :=
  ∀ x ∈ S, Env.Seen e v.env Γ vs (v.scope x)

namespace SeenIn

theorem keeps (h : SeenIn e Γ vs v S) (hl : v.Later v') (hS : ∀ x ∈ S, x < v.size) : SeenIn e Γ vs v' S := fun x hx => by
  rw [hl.grows.scope x (hS x hx)]
  exact (h x hx).mono hl.types

theorem armed (h : SeenIn e Γ vs v S) (f : Family) (hS : ∀ x ∈ S, x < v.size) (hle : e.size ≤ v.env.size)
    (hvs : vs ∈ Γ) (hlt : vs < v.env.size) : SeenIn e Γ vs (f.armed vs v) (S ∪ fresh v (f.armed vs v)) := by
  rintro x (hx | hx)
  · exact h.keeps (f.later_armed hlt) hS x hx
  · rcases f.scope_armed hx with hscope | hscope <;> rw [hscope]
    · have hparent : (f.bindNew vs v.env).parent v.env.size = .some vs := by
        rw [Family.bindNew, Env.parent_declare, Env.parent, Env.scope_child, if_pos rfl]
      refine .inr ⟨hle, ?_, ?_⟩
      · rw [f.env_armed, Family.bindNew, Env.size_declare, Env.size_child]
        omega
      · rw [f.env_armed]
        exact hparent
    · exact .inl hvs

theorem copied {body default : Option Nat} (h : SeenIn e Γ vs v S) (hc : CopiedDefault body v default v') (hS : v.Closed S)
    (hb : ∀ b ∈ body, b ∈ S) : SeenIn e Γ vs v' (S ∪ fresh v v') := by
  obtain ⟨φ, hφ, -, -⟩ := hc.mirrored hS hb
  rintro x (hx | hx)
  · exact h.keeps hc.later hS.bounded x hx
  · rw [hφ.scope x hx.1 hx.2]
    exact (h _ (hφ.origin x hx.1 hx.2)).mono hc.later.types

theorem merged {binder : String} {target : Nat} {default : Option Nat} (h : SeenIn e Γ vs v S)
    (hm : MergedInto f binder target default v v') (hS : ∀ x ∈ S, x < v.size) (htarget : target ∈ S) :
    SeenIn e Γ vs v' (S ∪ fresh v v') := by
  rintro x (hx | hx)
  · exact h.keeps hm.later hS x hx
  · rw [hm.scope_new hx]
    exact (h target htarget).mono hm.later.types

end SeenIn

/-- The families `fs` of a visitor in scope `vs` are still to be merged. -/
structure Tracked (e : Env) (Γ : Set Nat) (vs : Nat) (wildcard : Option (Phase × NodeId)) (fs : List Family) (m : Merged)
    (v : Tree) (S : Set Nat) : Prop where
  closed : v.Closed S
  bodies : ∀ f ∈ fs, ∀ b ∈ f.bodies, b ∈ S
  default : ∀ p b, wildcard = .some (p, b) → b ∈ S
  arms : ∀ a ∈ m.arms, a ∈ S
  types : e.SameTypes v.env
  seen : SeenIn e Γ vs v S

namespace Tracked

variable (hvs : vs < e.size) (hΓ : vs ∈ Γ)
include hvs hΓ

theorem seen_next (h : Tracked e Γ vs wildcard (f :: fs) m v S) (hm : FamilyMerged vs wildcard f m v m' v') :
    SeenIn e Γ vs v' (S ∪ fresh v v') := by
  cases hm with
  | existing found named merged =>
    obtain ⟨arm, harm, hb⟩ := List.exists_of_findSome?_eq_some found
    obtain ⟨c, ascription, hk, -⟩ := bindsConcrete?_eq_some.mp hb
    exact h.seen.merged merged h.closed.bounded (h.closed.child arm (h.arms arm harm) _ (body_mem_children hk))
  | @made default v₁ _ absent copied merged =>
    have hstep := Family.step_armed (S := S) (v := v) f vs
    have hS := hstep.closed h.closed
    have hseen := h.seen.armed f h.closed.bounded h.types.size_le hΓ (hvs.trans_le h.types.size_le)
    have hwild : ∀ b ∈ wildcardFor f.phase wildcard, b ∈ S ∪ fresh v (f.armed vs v) := fun b hb =>
      .inl (wildcardFor_mem h.default b hb)
    obtain ⟨φ, hφ, -, -⟩ := copied.mirrored hS hwild
    have hS₁ := (Step.mirrored hS hφ).closed hS
    have hle := copied.grows.size_le
    have hle' := merged.grows.size_le
    have hseen' := (hseen.copied copied hS hwild).merged merged hS₁.bounded
      (.inl (.inr ⟨by omega, by rw [f.size_armed]; omega⟩))
    rwa [Set.union_assoc, Set.union_assoc, ← fresh_trans hle hle', ← fresh_trans hstep.grows.size_le (hle.trans hle')]
      at hseen'

theorem next (h : Tracked e Γ vs wildcard (f :: fs) m v S) (hm : FamilyMerged vs wildcard f m v m' v') :
    Tracked e Γ vs wildcard fs m' v' (S ∪ fresh v v') := by
  have hstep := hm.step h.closed (h.bodies f (by simp)) h.default
  refine ⟨hstep.closed h.closed, fun g hg b hb => .inl (h.bodies g (by simp [hg]) b hb), fun p b hp => .inl (h.default p b hp),
    fun a ha => (hm.arms a ha).imp (h.arms a) (·.1), ?_, h.seen_next hvs hΓ hm⟩
  exact h.types.trans (hm.later (hvs.trans_le h.types.size_le)).types

theorem run (h : Tracked e Γ vs wildcard fs m v S) (hm : FamiliesMerged vs wildcard fs m v m' v') :
    SeenIn e Γ vs v' (S ∪ fresh v v') := by
  induction hm generalizing S with
  | nil => simpa [fresh_self] using h.seen
  | cons first rest ih =>
    have h' := ih (h.next hvs hΓ first)
    rwa [Set.union_assoc, ← fresh_trans first.grows.size_le rest.grows.size_le] at h'

end Tracked

end Penumbra
