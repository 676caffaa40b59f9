/-
Variables whose shadow types go away.

Erasing binds variables to concrete types only, each in the scope in which it
is bound already, if there is one. So the scope that a look-up ends in does
not change, and a variable that has been given a concrete type keeps one
(`Tamed`). Names of shadow types are registered by no pass.
-/
import Penumbra.Proofs.Env.Lookup

namespace Penumbra.Env

variable {e e' e'' : Env} {s b : Nat} {n name : String} {ty : Ty}

/-- Some scope has the name for a shadow type. -/
def Registered (e : Env) (n : String) : Prop :=
  ∃ s ty, (e.scope s).types.get? n = .some ty ∧ ty.isShadow = true

/-- The scope binds the variable to a shadow type. -/
def ShadowVar (e : Env) (b : ScopeId) (n : String) : Prop :=
  ∃ ty, (e.scope b).vars.get? n = .some ty ∧ ty.isShadow = true

theorem registered_of_getType? (h : (e.getType? s n).any Ty.isShadow = true) : e.Registered n := by
  obtain ⟨ty, hty, hs⟩ := (Option.any_eq_true _ _).mp h
  obtain ⟨u, -, hu⟩ := List.exists_of_findSome?_eq_some hty
  exact ⟨u, ty, hu, hs⟩

/-- A look-up reads the scope that binds the variable. -/
theorem get?_eq : e.get? s n = (e.binder? s n).bind fun b => (e.scope b).vars.get? n := by
  have hlist : ∀ l : List ScopeId, l.findSome? (fun u => (e.scope u).vars.get? n) =
      (l.find? fun u => ((e.scope u).vars.get? n).isSome).bind fun b => (e.scope b).vars.get? n := by
    intro l
    induction l with
    | nil => rfl
    | cons u l ih =>
      cases hu : (e.scope u).vars.get? n with
      | none => rw [List.findSome?_cons, hu, List.find?_cons_of_neg (by simp [hu])]; exact ih
      | some ty => rw [List.findSome?_cons, hu, List.find?_cons_of_pos (by simp [hu]), Option.bind_some, hu]
  exact hlist _

theorem shadowVar_of_get? (h : (e.get? s n).any Ty.isShadow = true) : ∃ b, e.binder? s n = .some b ∧ e.ShadowVar b n := by
  obtain ⟨ty, hty, hs⟩ := (Option.any_eq_true _ _).mp h
  rw [get?_eq, Option.bind_eq_some_iff] at hty
  obtain ⟨b, hb, hty⟩ := hty
  exact ⟨b, hb, ty, hty, hs⟩

/-! ## The way outward -/

theorem Nested.outward_step (h : e.Nested) (hs : s < e.size) :
    e.outward s = s :: match e.parent s with
      | .none => []
      | .some p => e.outward p := by
  rw [h.outward_eq hs, outwardUpTo]
  cases hp : e.parent s with
  | none => rfl
  | some p =>
    have hlt := h s p hp
    simp only
    rw [h.outward_eq (hlt.trans hs), h.outwardUpTo_eq hlt]

theorem Nested.binder?_step (h : e.Nested) (hs : s < e.size) :
    e.binder? s n = if ((e.scope s).vars.get? n).isSome then .some s else (e.parent s).bind (e.binder? · n) := by
  rw [binder?, h.outward_step hs, List.find?_cons]
  cases ((e.scope s).vars.get? n).isSome with
  | true => rfl
  | false =>
    cases e.parent s with
    | none => rfl
    | some p => rfl

theorem Nested.le_of_binder? (h : e.Nested) (hb : e.binder? s n = .some b) : b ≤ s :=
  h.mem_outwardUpTo (List.mem_of_find?_eq_some hb)

theorem isSome_of_binder? (hb : e.binder? s n = .some b) : ((e.scope b).vars.get? n).isSome = true := by
  exact List.find?_some (p := fun u => ((e.scope u).vars.get? n).isSome) hb

/-- A look-up ends in the same scope after variables were bound that were not
bound outward from there. -/
theorem SameTypes.binder? (h : e.SameTypes e') (hn : e.Nested)
    (hkeep : ∀ u : Nat, u < e.size → ((e.scope u).vars.get? n).isSome → ((e'.scope u).vars.get? n).isSome)
    (hnew : ∀ u : Nat, u < e.size → ((e'.scope u).vars.get? n).isSome →
      ((e.scope u).vars.get? n).isSome ∨ e.binder? u n = .none)
    (hs : s < e.size) (hb : e.binder? s n = .some b) : e'.binder? s n = .some b := by
  induction s using Nat.strongRecOn with
  | _ s ih =>
    rw [(h.nested hn).binder?_step (hs.trans_le h.size_le), h.parent s hs]
    by_cases hbound : ((e.scope s).vars.get? n).isSome = true
    · rw [hn.binder?_step hs, if_pos hbound] at hb
      rw [if_pos (hkeep s hs hbound), hb]
    · have hfree : ¬ ((e'.scope s).vars.get? n).isSome = true := fun hbound' => by
        rcases hnew s hs hbound' with h | h
        · exact hbound h
        · rw [h] at hb
          cases hb
      rw [hn.binder?_step hs, if_neg hbound] at hb
      obtain ⟨p, hp, hb⟩ := Option.bind_eq_some_iff.mp hb
      rw [if_neg hfree, hp, Option.bind_some]
      exact ih p (hn s p hp) ((hn s p hp).trans hs) hb

/-! ## Binding concrete types -/

/-- Scopes may be added and variables given concrete types. -/
structure Tamed (e e' : Env) : Prop extends SameTypes e e' where
  registered : ∀ n, e'.Registered n → e.Registered n
  bound : ∀ (s : Nat) n b, s < e.size → e.binder? s n = .some b → e'.binder? s n = .some b
  shadowVar : ∀ b n, e'.ShadowVar b n → e.ShadowVar b n

theorem Tamed.refl (e : Env) : e.Tamed e :=
  ⟨.refl e, fun _ h => h, fun _ _ _ _ h => h, fun _ _ h => h⟩

theorem Tamed.trans (h : e.Tamed e') (h' : e'.Tamed e'') : e.Tamed e'' where
  toSameTypes := h.toSameTypes.trans h'.toSameTypes
  registered n hn := h.registered n (h'.registered n hn)
  bound s n b hs hb := h'.bound s n b (hs.trans_le h.size_le) (h.bound s n b hs hb)
  shadowVar b n hb := h.shadowVar b n (h'.shadowVar b n hb)

theorem Tamed.set (hn : e.Nested) (hty : ty.isShadow = false) : e.Tamed (e.set s name ty) := by
  refine ⟨.set .., fun n h => ?_, fun u n b hu hb => ?_, fun b n h => ?_⟩
  · obtain ⟨v, τ, hτ, hs⟩ := h
    rw [Env.set, types_declare] at hτ
    exact ⟨v, τ, hτ, hs⟩
  · refine (SameTypes.set e s name ty).binder? hn (fun v _ hv => ?_) (fun v _ hv => ?_) hu hb
    · rw [Env.set, vars_declare]
      split
      · rfl
      · exact hv
    · rw [Env.set, vars_declare] at hv
      split at hv
      next hcase =>
        obtain ⟨rfl, -, rfl⟩ := hcase
        cases htarget : e.binder? s n with
        | some t => exact .inl (by rw [Option.getD_some]; exact isSome_of_binder? htarget)
        | none => exact .inr (by rw [Option.getD_none]; exact htarget)
      next => exact .inl hv
  · obtain ⟨τ, hτ, hs⟩ := h
    rw [Env.set, vars_declare] at hτ
    split at hτ
    · obtain rfl := Option.some.inj hτ
      rw [hty] at hs
      cases hs
    · exact ⟨τ, hτ, hs⟩

/-- The binding that a look-up ends in is what is changed. -/
theorem not_shadowVar_set (hn : e.Nested) (hs : s < e.size) (hty : ty.isShadow = false) (hb : e.binder? s n = .some b) :
    ¬ (e.set s n ty).ShadowVar b n := by
  rintro ⟨τ, hτ, hshadow⟩
  have hlt : b < e.size := (hn.le_of_binder? hb).trans_lt hs
  rw [Env.set, hb, Option.getD_some, vars_declare, if_pos ⟨rfl, hlt, rfl⟩] at hτ
  obtain rfl := Option.some.inj hτ
  rw [hty] at hshadow
  cases hshadow

/-- A variable declared in a new scope. -/
theorem Tamed.child (hn : e.Nested) (hs : s < e.size) (hty : ty.isShadow = false) :
    e.Tamed ((e.child s).2.declare e.size name ty) := by
  have hsame : e.SameTypes ((e.child s).2.declare e.size name ty) := (SameTypes.child hs).trans (.declare ..)
  have hvars : ∀ u n, u ≠ e.size → (((e.child s).2.declare e.size name ty).scope u).vars.get? n =
      (e.scope u).vars.get? n := by
    intro u n hu
    rw [vars_declare, if_neg (fun h => hu h.1), scope_child, if_neg hu]
  refine ⟨hsame, fun n h => ?_, fun u n b hu hb => ?_, fun b n h => ?_⟩
  · obtain ⟨u, τ, hτ, hs⟩ := h
    rw [types_declare, scope_child] at hτ
    split at hτ
    · simp [Bindings.get?, Bindings.lookup] at hτ
    · exact ⟨u, τ, hτ, hs⟩
  · refine hsame.binder? hn (fun v hv hbound => ?_) (fun v hv hbound => .inl ?_) hu hb
    · rw [hvars v n (by omega)]
      exact hbound
    · rwa [hvars v n (by omega)] at hbound
  · obtain ⟨τ, hτ, hshadow⟩ := h
    by_cases hb : b = e.size
    · subst hb
      rw [vars_declare] at hτ
      split at hτ
      · obtain rfl := Option.some.inj hτ
        rw [hty] at hshadow
        cases hshadow
      · rw [scope_child, if_pos rfl] at hτ
        simp [Bindings.get?, Bindings.lookup] at hτ
    · rw [hvars b n hb] at hτ
      exact ⟨τ, hτ, hshadow⟩

/-- What is bound to a shadow type as seen from a scope was so before. -/
theorem Tamed.binder?_of_shadowVar (h : e.Tamed e') (hn : e.Nested) (hs : s < e.size) (hb : e'.binder? s n = .some b)
    (hv : e'.ShadowVar b n) : e.binder? s n = .some b := by
  cases hold : e.binder? s n with
  | some b' =>
    rw [h.bound s n b' hs hold] at hb
    exact hb
  | none =>
    obtain ⟨ty, hty, -⟩ := h.shadowVar b n hv
    have hmem : b ∈ e.outward s := by
      rw [← h.outward hn hs]
      exact List.mem_of_find?_eq_some hb
    have hnone := List.find?_eq_none.mp hold b hmem
    rw [hty] at hnone
    exact absurd rfl hnone

end Penumbra.Env
