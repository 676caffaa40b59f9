/-
Scopes and what they bind.

Scopes are kept in one array and refer to the scope around them by index.
Each has two tables, one of variables and one of type names. A look-up
starts in a scope and goes outward.
-/
import Penumbra.Ty.Basic

namespace Penumbra

abbrev ScopeId := Nat

namespace Bindings

variable {name other : String} {ty : Ty} {es : List (String × Ty)}

def lookup (name : String) : List (String × Ty) → Option Ty
  | [] => .none
  | (n, t) :: rest => if n = name then .some t else lookup name rest

def replace (name : String) (ty : Ty) : List (String × Ty) → List (String × Ty)
  | [] => [(name, ty)]
  | (n, t) :: rest => if n = name then (n, ty) :: rest else (n, t) :: replace name ty rest

theorem lookup_replace_self (name : String) (ty : Ty) (es : List (String × Ty)) :
    lookup name (replace name ty es) = .some ty := by
  induction es with
  | nil => simp [replace, lookup]
  | cons e es ih =>
    obtain ⟨n, t⟩ := e
    by_cases h : n = name <;> simp [replace, lookup, h, ih]

theorem lookup_replace_other (ty : Ty) (es : List (String × Ty)) (h : other ≠ name) :
    lookup other (replace name ty es) = lookup other es := by
  induction es with
  | nil => simp [replace, lookup, h.symm]
  | cons e es ih =>
    obtain ⟨n, t⟩ := e
    by_cases hn : n = name
    · subst hn; simp [replace, lookup, h.symm]
    · simp only [replace, hn, if_false, lookup, ih]

theorem lookup_eq_some_iff (h : (es.map Prod.fst).Nodup) : lookup name es = .some ty ↔ (name, ty) ∈ es := by
  induction es with
  | nil => simp [lookup]
  | cons e es ih =>
    obtain ⟨n, t⟩ := e
    obtain ⟨hnew, hrest⟩ := List.nodup_cons.mp h
    by_cases hn : n = name
    · subst hn
      have hnot : (n, ty) ∉ es := fun hmem => hnew (List.mem_map.mpr ⟨_, hmem, rfl⟩)
      simp [lookup, hnot, eq_comm]
    · simp [lookup, hn, ih hrest, Ne.symm hn]

theorem names_replace (name : String) (ty : Ty) (es : List (String × Ty)) :
    (replace name ty es).map Prod.fst =
      if name ∈ es.map Prod.fst then es.map Prod.fst else es.map Prod.fst ++ [name] := by
  induction es with
  | nil => rfl
  | cons e es ih =>
    obtain ⟨n, t⟩ := e
    by_cases hn : n = name
    · simp [replace, hn]
    · simp only [replace, hn, if_false, List.map_cons, ih, List.mem_cons, Ne.symm hn, false_or]
      split <;> rfl

theorem nodup_names_replace (ty : Ty) (h : (es.map Prod.fst).Nodup) : ((replace name ty es).map Prod.fst).Nodup := by
  rw [names_replace]
  split
  next => exact h
  next hnew =>
    refine List.nodup_append.mpr ⟨h, by simp, fun n hn m hm he => hnew ?_⟩
    rw [← List.mem_singleton.mp hm, ← he]
    exact hn

end Bindings

/-- Names with their types; each name occurs once. -/
structure Bindings where
  entries : List (String × Ty) := []
  distinct : (entries.map Prod.fst).Nodup := by exact List.nodup_nil

namespace Bindings

instance : Inhabited Bindings := ⟨{}⟩

def get? (b : Bindings) (name : String) : Option Ty :=
  lookup name b.entries

/-- Binds `name`, in place of what it was bound to. -/
def insert (b : Bindings) (name : String) (ty : Ty) : Bindings :=
  ⟨replace name ty b.entries, nodup_names_replace ty b.distinct⟩

@[simp] theorem get?_insert_self (b : Bindings) (name : String) (ty : Ty) :
    (b.insert name ty).get? name = .some ty :=
  lookup_replace_self name ty b.entries

theorem get?_insert_other (b : Bindings) {name other : String} (ty : Ty) (h : other ≠ name) :
    (b.insert name ty).get? other = b.get? other :=
  lookup_replace_other ty b.entries h

theorem get?_eq_some_iff {b : Bindings} {name : String} {ty : Ty} : b.get? name = .some ty ↔ (name, ty) ∈ b.entries :=
  lookup_eq_some_iff b.distinct

end Bindings

structure Scope where
  /-- The scope around this one. -/
  parent : Option ScopeId := .none
  vars : Bindings := {}
  types : Bindings := {}
deriving Inhabited

structure Env where
  scopes : Array Scope := #[{}]
deriving Inhabited

namespace Env

/-- The outermost scope, present from the start. -/
def global : ScopeId := 0

def size (e : Env) : Nat := e.scopes.size

/-- The scope at `s`. An index that was never handed out reads as an empty
scope. -/
def scope (e : Env) (s : ScopeId) : Scope :=
  e.scopes.getD s {}

def parent (e : Env) (s : ScopeId) : Option ScopeId :=
  (e.scope s).parent

/-- The scope `s` and at most `n - 1` of those around it, from the inside
out. -/
def outwardUpTo (e : Env) : Nat → ScopeId → List ScopeId
  | 0, _ => []
  | n + 1, s =>
    s :: match e.parent s with
      | .none => []
      | .some p => e.outwardUpTo n p

/-- The scope `s` and those around it, from the inside out. -/
def outward (e : Env) (s : ScopeId) : List ScopeId :=
  e.outwardUpTo e.size s

/-- The type of the variable `name` as seen from `s`. -/
def get? (e : Env) (s : ScopeId) (name : String) : Option Ty :=
  (e.outward s).findSome? fun u => (e.scope u).vars.get? name

/-- The type called `name` as seen from `s`. -/
def getType? (e : Env) (s : ScopeId) (name : String) : Option Ty :=
  (e.outward s).findSome? fun u => (e.scope u).types.get? name

/-- The nearest scope around `s`, or `s` itself, that binds the variable. -/
def binder? (e : Env) (s : ScopeId) (name : String) : Option ScopeId :=
  (e.outward s).find? fun u => ((e.scope u).vars.get? name).isSome

/-- A new scope inside `s`. -/
def child (e : Env) (s : ScopeId) : ScopeId × Env :=
  (e.size, { e with scopes := e.scopes.push { parent := .some s } })

/-- Binds the variable in exactly `s`. -/
def declare (e : Env) (s : ScopeId) (name : String) (ty : Ty) : Env :=
  { e with scopes := e.scopes.modify s fun c => { c with vars := c.vars.insert name ty } }

/-- Changes the nearest binding of the variable; one without a binding is
bound in `s`. -/
def set (e : Env) (s : ScopeId) (name : String) (ty : Ty) : Env :=
  e.declare ((e.binder? s name).getD s) name ty

/-- Gives a type a name in exactly `s`. -/
def setType (e : Env) (s : ScopeId) (name : String) (ty : Ty) : Env :=
  { e with scopes := e.scopes.modify s fun c => { c with types := c.types.insert name ty } }

end Env

end Penumbra
