/-
What a look-up answers after a scope was changed.

Declaring a variable changes one entry of one scope and neither how many
scopes there are nor how they nest (`outward_declare`), so every other look-up
answers as before. Where scopes come after the ones around them, the way
outward does not depend on scopes made later (`outward_eq`), so type names mean
the same after new scopes were made and variables were bound (`SameTypes`), and
variables seen before are seen still (`KeepsVars.isSome_get?`).
What a look-up finds is bound in some scope, so a property of all bound types
holds of what is found (`All.get?`).
-/
import Penumbra.Env
import Mathlib.Data.Nat.Basic
import Mathlib.Order.Basic

namespace Penumbra

theorem findSome?_congr {α β : Type} {f g : α → Option β} {l : List α} (h : ∀ a ∈ l, f a = g a) :
    l.findSome? f = l.findSome? g := by
  induction l with
  | nil => rfl
  | cons a l ih => rw [List.findSome?_cons, List.findSome?_cons, h a (by simp), ih fun b hb => h b (by simp [hb])]

namespace Env

variable {e : Env} {s u : Nat} {name other : String} {ty : Ty} {P : Ty → Prop}

/-! ## Scopes -/

section Modify

variable (f : Scope → Scope)

theorem scope_modify :
    (({ e with scopes := e.scopes.modify s f } : Env).scope u) =
      if u = s ∧ s < e.size then f (e.scope u) else e.scope u := by
  by_cases hus : s = u
  · subst hus
    by_cases h : s < e.scopes.size <;> simp [scope, size, Array.getD, h, Array.getElem_modify]
  · have hne : u ≠ s := fun h => hus h.symm
    simp [scope, size, Array.getD, Array.getElem_modify, hus, hne]

end Modify

@[simp] theorem size_declare (e : Env) (s : ScopeId) (name : String) (ty : Ty) : (e.declare s name ty).size = e.size := by
  simp [declare, size]

theorem scope_declare :
    (e.declare s name ty).scope u =
      if u = s ∧ s < e.size then { e.scope u with vars := (e.scope u).vars.insert name ty } else e.scope u :=
  scope_modify _

theorem parent_declare : (e.declare s name ty).parent u = e.parent u := by
  rw [parent, scope_declare]
  split <;> rfl

theorem types_declare : ((e.declare s name ty).scope u).types = (e.scope u).types := by
  rw [scope_declare]
  split <;> rfl

theorem vars_declare :
    ((e.declare s name ty).scope u).vars.get? other =
      if u = s ∧ s < e.size ∧ other = name then .some ty else (e.scope u).vars.get? other := by
  rw [scope_declare]
  by_cases h : u = s ∧ s < e.size
  · rw [if_pos h]
    by_cases hn : other = name
    · simp [hn, h.1, h.2]
    · simp [hn, Bindings.get?_insert_other _ _ hn]
  · rw [if_neg h, if_neg fun h' => h ⟨h'.1, h'.2.1⟩]

theorem size_child (e : Env) (s : ScopeId) : (e.child s).2.size = e.size + 1 := by
  simp [child, size]

theorem scope_child : (e.child s).2.scope u = if u = e.size then { parent := .some s } else e.scope u := by
  simp only [child, scope, size, Array.getD, Array.size_push]
  by_cases h : u = e.scopes.size
  · simp [h]
  · by_cases hu : u < e.scopes.size
    · have : u < e.scopes.size + 1 := by omega
      simp [h, hu, this, Array.getElem_push]
    · have : ¬ u < e.scopes.size + 1 := by omega
      simp [h, hu, this]

/-! ## Nesting -/

theorem outwardUpTo_congr {e' : Env} (h : ∀ u, e'.parent u = e.parent u) (n : Nat) :
    e'.outwardUpTo n s = e.outwardUpTo n s := by
  induction n generalizing s with
  | zero => rfl
  | succ n ih =>
    rw [outwardUpTo, outwardUpTo, h]
    cases e.parent s with
    | none => rfl
    | some p => simp only [ih]

theorem outward_declare : (e.declare s name ty).outward u = e.outward u := by
  rw [outward, outward, size_declare, outwardUpTo_congr fun _ => parent_declare]

theorem getType?_declare (s : ScopeId) (name : String) (ty : Ty) : (e.declare s name ty).getType? = e.getType? := by
  funext u other
  rw [getType?, getType?, outward_declare]
  exact findSome?_congr fun v _ => by rw [types_declare]

/-- Every scope comes after the one around it. -/
def Nested (e : Env) : Prop := ∀ u p : Nat, e.parent u = .some p → p < u

theorem Nested.outwardUpTo_eq (h : e.Nested) {n : Nat} (hn : u < n) : e.outwardUpTo n u = e.outwardUpTo (u + 1) u := by
  induction u using Nat.strongRecOn generalizing n with
  | _ u ih =>
    obtain ⟨n, rfl⟩ : ∃ m, n = m + 1 := ⟨n - 1, by omega⟩
    rw [outwardUpTo, outwardUpTo]
    cases hp : e.parent u with
    | none => rfl
    | some p =>
      have hlt := h u p hp
      simp only
      rw [ih p hlt (n := n) (by omega), ih p hlt (n := u) hlt]

/-- The way outward from a scope does not depend on how many scopes there are. -/
theorem Nested.outward_eq (h : e.Nested) (hu : u < e.size) : e.outward u = e.outwardUpTo (u + 1) u :=
  h.outwardUpTo_eq hu

theorem Nested.mem_outwardUpTo (h : e.Nested) {n : Nat} (hs : s ∈ e.outwardUpTo n u) : s ≤ u := by
  induction n generalizing u with
  | zero => simp [outwardUpTo] at hs
  | succ n ih =>
    rw [outwardUpTo, List.mem_cons] at hs
    rcases hs with rfl | hs
    · exact le_rfl
    · cases hp : e.parent u with
      | none => simp [hp] at hs
      | some p =>
        rw [hp] at hs
        exact (ih hs).trans (h u p hp).le

theorem parent_of_size_le (h : e.size ≤ u) : e.parent u = .none := by
  have : ¬ u < e.scopes.size := by rw [size] at h; omega
  simp [parent, scope, Array.getD, this]

theorem nested_empty : ({} : Env).Nested := by
  intro u p hp
  cases u with
  | zero => cases hp
  | succ u =>
    rw [parent_of_size_le (Nat.succ_le_succ (Nat.zero_le u))] at hp
    cases hp

/-- Scopes may be added and variables bound. -/
structure SameTypes (e e' : Env) : Prop where
  size_le : e.size ≤ e'.size
  nested : e.Nested → e'.Nested
  parent : ∀ u : Nat, u < e.size → e'.parent u = e.parent u
  types : ∀ u : Nat, u < e.size → (e'.scope u).types = (e.scope u).types

theorem SameTypes.refl (e : Env) : e.SameTypes e :=
  ⟨le_rfl, fun h => h, fun _ _ => rfl, fun _ _ => rfl⟩

theorem SameTypes.trans {e' e'' : Env} (h : e.SameTypes e') (h' : e'.SameTypes e'') : e.SameTypes e'' where
  size_le := h.size_le.trans h'.size_le
  nested hn := h'.nested (h.nested hn)
  parent u hu := (h'.parent u (hu.trans_le h.size_le)).trans (h.parent u hu)
  types u hu := (h'.types u (hu.trans_le h.size_le)).trans (h.types u hu)

theorem SameTypes.declare (e : Env) (s : ScopeId) (name : String) (ty : Ty) : e.SameTypes (e.declare s name ty) where
  size_le := by simp
  nested h u p hp := h u p (by rwa [parent_declare] at hp)
  parent _ _ := parent_declare
  types _ _ := types_declare

theorem SameTypes.set (e : Env) (s : ScopeId) (name : String) (ty : Ty) : e.SameTypes (e.set s name ty) :=
  .declare ..

theorem SameTypes.child (hs : s < e.size) : e.SameTypes (e.child s).2 where
  size_le := by rw [size_child]; omega
  nested h u p hp := by
    rw [Env.parent, scope_child] at hp
    split at hp
    next hu =>
      obtain rfl := Option.some.inj hp
      omega
    next => exact h u p hp
  parent u hu := by rw [Env.parent, scope_child, if_neg (by omega)]; rfl
  types u hu := by rw [scope_child, if_neg (by omega)]

theorem SameTypes.outward {e' : Env} (h : e.SameTypes e') (hn : e.Nested) (hu : u < e.size) :
    e'.outward u = e.outward u := by
  rw [hn.outward_eq hu, (h.nested hn).outward_eq (hu.trans_le h.size_le)]
  have hpath : ∀ n, ∀ v : Nat, v < e.size → e'.outwardUpTo n v = e.outwardUpTo n v := by
    intro n
    induction n with
    | zero => exact fun _ _ => rfl
    | succ n ih =>
      intro v hv
      rw [outwardUpTo, outwardUpTo, h.parent v hv]
      cases hp : e.parent v with
      | none => rfl
      | some p =>
        have hlt := hn v p hp
        simp only
        rw [ih p (by omega)]
  exact hpath _ u hu

/-- A type name means what it meant before. -/
theorem SameTypes.getType? {e' : Env} (h : e.SameTypes e') (hn : e.Nested) (hu : u < e.size) (name : String) :
    e'.getType? u name = e.getType? u name := by
  rw [Env.getType?, Env.getType?, h.outward hn hu]
  refine findSome?_congr fun v hv => ?_
  have hv' := hn.mem_outwardUpTo hv
  rw [h.types v (by omega)]

/-! ## What stays bound -/

/-- Every scope binds what it bound before, whatever to. -/
def KeepsVars (e e' : Env) : Prop :=
  ∀ (u : Nat) name, u < e.size → ((e.scope u).vars.get? name).isSome → ((e'.scope u).vars.get? name).isSome

theorem KeepsVars.declare {e' : Env} (h : e.KeepsVars e') : e.KeepsVars (e'.declare s name ty) := fun u other hu hb => by
  rw [vars_declare]
  split
  · rfl
  · exact h u other hu hb

theorem KeepsVars.child {e' : Env} (h : e.KeepsVars e') (hle : e.size ≤ e'.size) : e.KeepsVars (e'.child s).2 :=
  fun u other hu hb => by
    rw [scope_child, if_neg (by omega)]
    exact h u other hu hb

/-- A variable that is seen from a scope is still seen from there. -/
theorem KeepsVars.isSome_get? {e' : Env} (h : e.KeepsVars e') (ht : e.SameTypes e') (hn : e.Nested) (hu : u < e.size)
    (hb : (e.get? u name).isSome) : (e'.get? u name).isSome := by
  rw [Env.get?, List.findSome?_isSome_iff] at hb ⊢
  obtain ⟨v, hv, hb⟩ := hb
  refine ⟨v, by rwa [ht.outward hn hu], h v name ?_ hb⟩
  have := hn.mem_outwardUpTo hv
  omega

/-! ## Everything bound -/

/-- `P` holds of every type that is bound to a variable or a type name. -/
structure All (P : Ty → Prop) (e : Env) : Prop where
  vars : ∀ u name ty, (e.scope u).vars.get? name = .some ty → P ty
  types : ∀ u name ty, (e.scope u).types.get? name = .some ty → P ty

theorem All.get? (h : e.All P) (hget : e.get? s name = .some ty) : P ty := by
  obtain ⟨u, -, hu⟩ := List.exists_of_findSome?_eq_some hget
  exact h.vars u name ty hu

theorem All.getType? (h : e.All P) (hget : e.getType? s name = .some ty) : P ty := by
  obtain ⟨u, -, hu⟩ := List.exists_of_findSome?_eq_some hget
  exact h.types u name ty hu

theorem All.declare (h : e.All P) (hty : P ty) : (e.declare s name ty).All P := by
  refine ⟨fun u other τ hτ => ?_, fun u other τ hτ => ?_⟩
  · rw [vars_declare] at hτ
    split at hτ
    · exact Option.some.inj hτ ▸ hty
    · exact h.vars u other τ hτ
  · rw [types_declare] at hτ
    exact h.types u other τ hτ

theorem All.set (h : e.All P) (hty : P ty) : (e.set s name ty).All P := h.declare hty

theorem All.child (h : e.All P) : (e.child s).2.All P := by
  refine ⟨fun u other τ hτ => ?_, fun u other τ hτ => ?_⟩
  all_goals
    rw [scope_child] at hτ
    split at hτ
  · simp [Bindings.get?, Bindings.lookup] at hτ
  · exact h.vars u other τ hτ
  · simp [Bindings.get?, Bindings.lookup] at hτ
  · exact h.types u other τ hτ

end Env

end Penumbra
