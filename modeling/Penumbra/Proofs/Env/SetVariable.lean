/-
Setting a variable, as it is seen from every scope.

Setting a variable changes one entry of one scope, its target: the nearest scope
outward that binds the variable, or the scope where it is set if there is none. A
look-up of the variable from anywhere else finds the new type if its own way outward
comes to the target before it comes to another scope that binds the variable, and
finds what it found before if it does not. The two ways may meet anywhere
(`set_described`).
-/
import Penumbra.Proofs.Program.Edits
import Penumbra.Proofs.Env.ConcreteBindings

namespace Penumbra.Env

/-! ## Ways outward -/

/-- The scopes outward from a scope, up to one that has none around it. -/
inductive Walk (e : Env) : ScopeId → List ScopeId → Prop where
  | top {u} (outermost : e.parent u = .none) : Walk e u [u]
  | next {u p l} (around : e.parent u = .some p) (rest : Walk e p l) : Walk e u (u :: l)

/-- The way outward from a scope comes to `b` and passes no scope before it that binds the
variable. -/
inductive Meets (e : Env) (name : String) (b : ScopeId) : ScopeId → Prop where
  | here : Meets e name b b
  | next {u p} (unbound : (e.scope u).vars.get? name = .none) (around : e.parent u = .some p)
      (rest : Meets e name b p) : Meets e name b u

/-- The nearest scope outward from `s` that binds the variable, or `s` if there is none. -/
inductive Target (e : Env) (s : ScopeId) (name : String) : ScopeId → Prop where
  | bound {b ty} (meets : e.Meets name b s) (binds : (e.scope b).vars.get? name = .some ty) : Target e s name b
  | unbound {l} (walk : e.Walk s l) (free : ∀ u ∈ l, (e.scope u).vars.get? name = .none) : Target e s name s

section Ways

variable {e : Env} {s u b : Nat} {name other : String} {ty : Ty} {l l' : List ScopeId}

theorem Walk.unique (h : e.Walk u l) (h' : e.Walk u l') : l = l' := by
  induction h generalizing l' with
  | top outermost =>
    cases h' with
    | top => rfl
    | next around => cases outermost.symm.trans around
  | next around _ ih =>
    cases h' with
    | top outermost => cases outermost.symm.trans around
    | next around' rest =>
      cases around.symm.trans around'
      rw [ih rest]

theorem Meets.eq_of_bound (h : e.Meets name b u) (hu : ((e.scope u).vars.get? name).isSome = true) : b = u := by
  cases h with
  | here => rfl
  | next unbound =>
    rw [unbound] at hu
    cases hu

namespace Nested

variable (hn : e.Nested)
include hn

/-- What is listed outward from a scope is the whole way. -/
theorem walk_outward (hu : u < e.size) : e.Walk u (e.outward u) := by
  induction u using Nat.strongRecOn with
  | _ u ih =>
    rw [hn.outward_step hu]
    cases hp : e.parent u with
    | none => exact .top hp
    | some p =>
      have hlt := hn u p hp
      exact .next hp (ih p hlt (hlt.trans hu))

theorem binder?_eq_some_iff (hs : s < e.size) :
    e.binder? s name = .some b ↔ e.Meets name b s ∧ ((e.scope b).vars.get? name).isSome = true := by
  induction s using Nat.strongRecOn with
  | _ s ih =>
    rw [hn.binder?_step hs]
    by_cases hbound : ((e.scope s).vars.get? name).isSome = true
    · rw [if_pos hbound, Option.some.injEq]
      constructor
      · intro hsb
        subst hsb
        exact ⟨.here, hbound⟩
      · exact fun h => (h.1.eq_of_bound hbound).symm
    · rw [if_neg hbound, Option.bind_eq_some_iff]
      constructor
      · rintro ⟨p, hp, hb⟩
        have hlt := hn s p hp
        have hmeets := (ih p hlt (hlt.trans hs)).mp hb
        exact ⟨.next (by simpa using hbound) hp hmeets.1, hmeets.2⟩
      · rintro ⟨hmeets, hb⟩
        cases hmeets with
        | here => exact absurd hb hbound
        | @next _ p _ hp rest =>
          have hlt := hn s p hp
          exact ⟨p, hp, (ih p hlt (hlt.trans hs)).mpr ⟨rest, hb⟩⟩

/-- There is one target, the scope in which the variable is set. -/
theorem target_iff (hs : s < e.size) : e.Target s name b ↔ b = (e.binder? s name).getD s := by
  have hwalk := hn.walk_outward hs
  cases hc : e.binder? s name with
  | some c =>
    obtain ⟨hmeets, hbinds⟩ := (hn.binder?_eq_some_iff hs).mp hc
    obtain ⟨ty, hty⟩ := Option.isSome_iff_exists.mp hbinds
    constructor
    · intro htarget
      cases htarget with
      | bound meets binds =>
        have hb := (hn.binder?_eq_some_iff hs).mpr ⟨meets, by rw [binds]; rfl⟩
        exact Option.some.inj (hb.symm.trans hc)
      | unbound walk free =>
        cases walk.unique hwalk
        rw [free c (List.mem_of_find?_eq_some hc)] at hty
        cases hty
    · intro hb
      rw [hb]
      exact .bound hmeets hty
  | none =>
    constructor
    · intro htarget
      cases htarget with
      | bound meets binds =>
        have hb := (hn.binder?_eq_some_iff hs).mpr ⟨meets, by rw [binds]; rfl⟩
        cases hb.symm.trans hc
      | unbound => rfl
    · intro hb
      rw [hb]
      exact .unbound hwalk fun u hu => by simpa using List.find?_eq_none.mp hc u hu

/-! ## Look-ups -/

theorem get?_step (hs : s < e.size) :
    e.get? s name = ((e.scope s).vars.get? name).or ((e.parent s).bind (e.get? · name)) := by
  rw [get?, hn.outward_step hs, List.findSome?_cons]
  cases (e.scope s).vars.get? name with
  | some ty => rfl
  | none =>
    cases e.parent s with
    | none => rfl
    | some p => rfl

theorem get?_declare_of_meets (hb : b < e.size) (hu : u < e.size) (h : e.Meets name b u) :
    (e.declare b name ty).get? u name = .some ty := by
  have hn' : (e.declare b name ty).Nested := (SameTypes.declare e b name ty).nested hn
  induction h with
  | here =>
    rw [hn'.get?_step (by simpa using hu), vars_declare, if_pos ⟨rfl, hb, rfl⟩]
    rfl
  | @next u p unbound around _ ih =>
    rw [hn'.get?_step (by simpa using hu), vars_declare, unbound, parent_declare, around, Option.bind_some,
      ih ((hn u p around).trans hu)]
    split <;> rfl

theorem get?_declare_of_not_meets (hu : u < e.size) (h : ¬ e.Meets name b u) :
    (e.declare b name ty).get? u name = e.get? u name := by
  have hn' : (e.declare b name ty).Nested := (SameTypes.declare e b name ty).nested hn
  induction u using Nat.strongRecOn with
  | _ u ih =>
    have hne : u ≠ b := fun he => h (he ▸ .here)
    rw [hn'.get?_step (by simpa using hu), hn.get?_step hu, vars_declare, if_neg fun he => hne he.1, parent_declare]
    cases hvar : (e.scope u).vars.get? name with
    | some ty => rfl
    | none =>
      cases hp : e.parent u with
      | none => rfl
      | some p =>
        have hlt := hn u p hp
        exact ih p hlt (hlt.trans hu) fun hmeets => h (.next hvar hp hmeets)

end Nested

theorem get?_declare_other (hne : other ≠ name) : (e.declare b name ty).get? u other = e.get? u other := by
  rw [get?, get?, outward_declare]
  exact findSome?_congr fun v _ => by rw [vars_declare, if_neg fun h => hne h.2.2]

/-- A variable that is set has its new type where the way outward meets the target, and
nothing else changes. Every scope comes after the one around it, so ways outward end. -/
theorem set_described (h : Relation.ReflTransGen Env.Edit {} e) (hs : s < e.size) (name : String) (ty : Ty) :
    (∀ u p, e.parent u = .some p → p < u) ∧ (∀ u, u < e.size → e.Walk u (e.outward u)) ∧
    ∃ b, (∀ c, e.Target s name c ↔ c = b) ∧
      (∀ u other, u < e.size →
        (other = name ∧ e.Meets name b u → (e.set s name ty).get? u other = .some ty) ∧
        (¬ (other = name ∧ e.Meets name b u) → (e.set s name ty).get? u other = e.get? u other)) ∧
      (∀ u other, (e.set s name ty).getType? u other = e.getType? u other) ∧
      ∀ u, (e.set s name ty).parent u = e.parent u := by
  have hn : e.Nested := by
    clear hs
    induction h with
    | refl => exact nested_empty
    | tail _ hedit ih => exact (hedit.nested ih).2
  have hb : (e.binder? s name).getD s < e.size := by
    cases hc : e.binder? s name with
    | none => exact hs
    | some c => exact (hn.le_of_binder? hc).trans_lt hs
  refine ⟨hn, fun u => hn.walk_outward, _, fun c => hn.target_iff hs, fun u other hu => ⟨?_, fun hnot => ?_⟩,
    fun u other => congrFun (congrFun (getType?_declare ..) u) other, fun u => parent_declare⟩
  · intro hmeets
    rw [hmeets.1]
    exact hn.get?_declare_of_meets hb hu hmeets.2
  · by_cases hname : other = name
    · rw [hname]
      exact hn.get?_declare_of_not_meets hu fun hmeets => hnot ⟨hname, hmeets⟩
    · exact get?_declare_other hname

end Ways

end Penumbra.Env

namespace Penumbra.Sample

open Env

/-- Four scopes: the outermost, two inside it, and one inside the first of these that
binds the variable anew. -/
def sheltered : Env :=
  ((((({} : Env).declare global "x" .int).child global).2.child 1).2.declare 2 "x" .string).child global |>.2

theorem edits_sheltered : Relation.ReflTransGen Env.Edit {} sheltered :=
  .tail (.tail (.tail (.tail (.single (.declare global "x" .int)) (.child (by decide))) (.child (by decide)))
    (.declare 2 "x" .string)) (.child (by decide))

/-- The variable is set from the first of the inner scopes. The change is seen from the
other one and not from behind the second binding. -/
theorem sheltered_described :
    Relation.ReflTransGen Env.Edit {} sheltered ∧ 1 < sheltered.size ∧ (∀ c, sheltered.Target 1 "x" c ↔ c = global) ∧
    sheltered.Meets "x" global 3 ∧ ¬ sheltered.Meets "x" global 2 ∧
    (sheltered.set 1 "x" .bool).get? 3 "x" = .some .bool ∧
    (sheltered.set 1 "x" .bool).get? 2 "x" = sheltered.get? 2 "x" ∧
    (∀ u other, (sheltered.set 1 "x" .bool).getType? u other = sheltered.getType? u other) ∧
    ∀ u, (sheltered.set 1 "x" .bool).parent u = sheltered.parent u := by
  have hsize : 1 < sheltered.size := by decide
  obtain ⟨-, -, b, htarget, hget, htypes, hparent⟩ := set_described edits_sheltered hsize "x" .bool
  have hmeets : ∀ u, (sheltered.scope u).vars.get? "x" = .none → sheltered.parent u = .some global →
      sheltered.Meets "x" global u := fun u hu hp => .next hu hp .here
  have hbinds : (sheltered.scope global).vars.get? "x" = .some .int := rfl
  obtain rfl := (htarget global).mp (.bound (hmeets 1 rfl rfl) hbinds)
  have hsecond : ¬ sheltered.Meets "x" global 2 := fun h => absurd (h.eq_of_bound rfl) (by decide)
  exact ⟨edits_sheltered, hsize, htarget, hmeets 3 rfl rfl, hsecond,
    (hget 3 "x" (by decide)).1 ⟨rfl, hmeets 3 rfl rfl⟩, (hget 2 "x" (by decide)).2 fun h => hsecond h.2, htypes, hparent⟩

end Penumbra.Sample
