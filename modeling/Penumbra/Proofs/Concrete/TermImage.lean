/-
The concrete image of a term.

`Term.concrete` says what making a program concrete comes to, as a recursion on
terms: the image of a layer is put together from the images of its children
(`concrete_mk`). It knows nothing of nodes and of the order in which they are
changed. The types that names stand for are a parameter. The expression of a
virtual field is its own image (`concrete_fieldTerm`), so going through it once
more changes nothing.
-/
import Penumbra.Proofs.Concrete.KeepsOwned
import Penumbra.Proofs.Tree.Terms

namespace Penumbra

namespace Kind

variable {α β : Type}

/-- The same layer with every child replaced by what is made of it, and of its
being a child. -/
def mapMem (k : Kind α) (f : (c : α) → c ∈ k.children → β) : Kind β :=
  k.refill (k.children.attach.map fun c => f c.1 c.2)

theorem mapMem_eq_map (k : Kind α) (f : α → β) : k.mapMem (fun c _ => f c) = k.map f := by
  have hmap : (k.children.attach.map fun c => f c.1) = k.children.map f := by simp
  rw [mapMem, hmap, refill_map_children]

theorem sizeOf_lt_of_mem_children [SizeOf α] {k : Kind α} {c : α} (h : c ∈ k.children) : sizeOf c < sizeOf k := by
  have hlist : ∀ l : List α, c ∈ l → sizeOf c < sizeOf l := fun _ => List.sizeOf_lt_of_mem
  have hoption : ∀ o : Option α, c ∈ o → sizeOf c < sizeOf o := fun _ ho => by
    cases ho
    simp
  cases k <;> simp only [children, List.mem_cons, List.mem_append, Option.mem_toList, List.not_mem_nil, or_false] at h <;>
    simp
  all_goals grind

end Kind

namespace Term

def kind : Term → Kind Term
  | .mk k _ _ _ => k

def scope : Term → ScopeId
  | .mk _ s _ _ => s

def ty : Term → Option Ty
  | .mk _ _ ty _ => ty

def token? (x : Term) : Option String := x.kind.token?

def shadow? (x : Term) : Option (Shadow Ty) := x.ty.bind Ty.shadow?

/-- The term at another type. -/
def retyped (ty : Ty) : Term → Term
  | .mk k s _ span => .mk k s (.some ty) span

/-- The name of the concrete type of `s` in the place of a written type. -/
def ascribed (s : Shadow Ty) : Term → Term
  | .mk _ scope _ span => .mk (.ident s.shadowedName) scope (.some s.shadowedTy) span

end Term

/-! ## The expression of a virtual field -/

namespace Shadow

def stepTerm (scope : ScopeId) : PathStep → Term
  | .field name => .mk (.selector (.mk (.ident name) scope .none .none)) scope .none .none
  | .index i => .mk (.index (.mk (.literal (.int i)) scope (.some .int) .none)) scope .none .none

/-- The path of a virtual field, followed from the variable `var`. -/
def fieldTerm (s : Shadow Ty) (field : VirtualField Ty) (var : String) (scope : ScopeId) : Term :=
  if field.path = [] then .mk (.ident var) scope (s.expandedTy field) .none
  else
    .mk (.factor (.mk (.ident var) scope (.some (.named s.shadowedName)) .none) (field.path.map (stepTerm scope))) scope
      (s.expandedTy field) .none

theorem ty_fieldTerm (s : Shadow Ty) (field : VirtualField Ty) (var : String) (scope : ScopeId) :
    (s.fieldTerm field var scope).ty = s.expandedTy field := by
  rw [fieldTerm]
  split <;> rfl

end Shadow

/-! ## The image of a term -/

namespace Term

variable (types : ScopeId → String → Option Ty)

/-- The shadow type that a written type gives to its owner, whose own type comes
first. -/
def declaredShadow? (owner : Option Ty) (ascription : Term) : Option (Shadow Ty) :=
  (owner.or (ascription.ty.or (ascription.token?.bind (types ascription.scope)))).bind Ty.shadow?

/-- The shadow type, the virtual field and the variable of `operand` followed by
`first`, where that is an access. -/
def access? (operand first : Term) : Option (Shadow Ty × VirtualField Ty × String) :=
  match operand.kind, first.kind with
  | .ident var, .selector field => do
    let s ← operand.shadow?
    let vf ← s.field? (← field.token?)
    return (s, vf, var)
  | _, _ => .none

/-- The image of a layer, given its children and their images: an access becomes
the field's expression in parentheses, declarations and identifiers get their
concrete types, and all else is kept. -/
def layer (k : Kind (Term × Term)) (scope : ScopeId) (ty : Option Ty) (span : Option Span) : Term :=
  let same : Term := .mk (k.map (·.2)) scope ty span
  match k with
  | .factor (operand, _) ((first, _) :: rest) =>
    match access? operand first with
    | .some (s, vf, var) =>
      let e := s.fieldTerm vf var scope
      .mk (.factor (.mk (.paren e) scope e.ty .none) (rest.map (·.2))) scope
        (if rest.isEmpty then e.ty else ty.map Ty.erased) span
    | .none => same
  | .component (_, name) (written, ascription) =>
    match declaredShadow? types ty written with
    | .some s =>
      .mk (.component (name.retyped s.shadowedTy) (ascription.ascribed s)) scope (.some s.shadowedTy) span
    | .none => same
  | .varDecl (_, name) (.some (written, ascription)) init =>
    match declaredShadow? types ty written with
    | .some s =>
      .mk (.varDecl (name.retyped s.shadowedTy) (.some (ascription.ascribed s)) (init.map (·.2))) scope
        (.some s.shadowedTy) span
    | .none => same
  | .varDecl (_, name) .none init =>
    match ty.bind Ty.shadow? with
    | .some s => .mk (.varDecl (name.retyped s.shadowedTy) .none (init.map (·.2))) scope (.some s.shadowedTy) span
    | .none => same
  | .ident token => .mk (.ident token) scope (ty.map Ty.erased) span
  | _ => same

/-- The term on concrete types. -/
def concrete : Term → Term
  | .mk k scope ty span => layer types (k.mapMem fun c _ => (c, concrete c)) scope ty span
termination_by x => sizeOf x
decreasing_by
  have := Kind.sizeOf_lt_of_mem_children ‹_›
  rw [Term.mk.sizeOf_spec]
  omega

theorem concrete_mk (k : Kind Term) (scope : ScopeId) (ty : Option Ty) (span : Option Span) :
    (Term.mk k scope ty span).concrete types = layer types (k.map fun c => (c, c.concrete types)) scope ty span := by
  rw [concrete, Kind.mapMem_eq_map k fun c => (c, c.concrete types)]

theorem concrete_ident (token : String) (scope : ScopeId) (ty : Option Ty) (span : Option Span) :
    (Term.mk (.ident token) scope ty span).concrete types = .mk (.ident token) scope (ty.map Ty.erased) span :=
  concrete_mk types ..

theorem concrete_stepTerm (scope : ScopeId) (step : PathStep) :
    (Shadow.stepTerm scope step).concrete types = Shadow.stepTerm scope step := by
  cases step with
  | field name => rw [Shadow.stepTerm, concrete_mk, Kind.map, concrete_ident]; rfl
  | index i => rw [Shadow.stepTerm, concrete_mk, Kind.map, concrete_mk]; rfl

/-- There is nothing to be done about the expression of a virtual field. -/
theorem concrete_fieldTerm (s : Shadow Ty) (field : VirtualField Ty) (var : String) (scope : ScopeId) :
    (s.fieldTerm field var scope).concrete types = s.fieldTerm field var scope := by
  rw [Shadow.fieldTerm]
  split
  next hp =>
    rw [concrete_ident, Shadow.expandedTy, if_pos hp]
    cases s.typesFields <;> rfl
  next =>
    have hsteps : ((field.path.map (Shadow.stepTerm scope)).map fun c => (c, c.concrete types)).map (·.2) =
        field.path.map (Shadow.stepTerm scope) := by
      simp [concrete_stepTerm]
    rw [concrete_mk, Kind.map]
    generalize ((field.path.map (Shadow.stepTerm scope)).map fun c => (c, c.concrete types)) = steps at *
    rw [← hsteps, concrete_ident]
    cases steps with
    | nil => rfl
    | cons first rest =>
      have hnone : access? (.mk (.ident var) scope (.some (.named s.shadowedName)) .none) first.1 = .none := by
        rw [access?]
        split <;> rfl
      simp only [layer, hnone]
      rfl

end Term

end Penumbra
