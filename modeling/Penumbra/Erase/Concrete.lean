/-
Programs on concrete types.

Going down from the root, every use of a shadow type is replaced: the access
to a virtual field by the field's expression in parentheses, the type of a
binder or declaration, and that of a bare identifier, by the concrete type.
The children of a node are read after the node was changed, so what takes
the place of an access is gone through as well.
-/
import Penumbra.Erase.Declared
import Penumbra.Erase.Pass

namespace Penumbra

/-- What was made concrete at a node. -/
inductive Change where
  | access
  | binder
  | declaration
  | identifier
deriving DecidableEq, Repr

structure Visit where
  node : NodeId
  change : Option Change
deriving DecidableEq, Repr

def Tally.ofVisits (visits : List Visit) : Tally :=
  let changes := visits.filterMap (·.change)
  { accesses := changes.count .access
    binders := changes.count .binder
    declarations := changes.count .declaration
    identifiers := changes.count .identifier }

namespace Pass

/-- The chain `x.f …` becomes `(e) …`, where `e` is the expression of the
virtual field `f`. The steps after the first apply to the concrete value and stay. -/
def replaceAccess (id first : NodeId) (rest : List NodeId) (shadow : Shadow Ty)
    (field var : String) : Pass Unit := do
  let t ← tree
  let scope := t.scope id
  match shadow.expand field var scope t with
  | .error e => throw ⟨.lookup e, (t.span first).or (t.span id)⟩
  | .ok (inner, t) =>
    let ty := t.ty inner
    let (paren, t) := (Build.paren inner scope).run t
    let t := t.setTy? paren ty
    let t := (t.setKind id (.factor paren rest)).setParent paren id
    let chainTy := if rest.isEmpty then ty else (t.ty id).map Ty.erased
    modifyTree fun _ => t.setTy? id chainTy
    note (.access var field shadow.name id)

/-- A chain on a variable of a shadow type whose first step selects a
field. -/
def concreteChain (id operand : NodeId) (steps : List NodeId) : Pass (Option Change) := do
  let t ← tree
  match t.shadow? operand with
  | .none => return .none
  | .some shadow =>
    match steps with
    | [] => throw ⟨.emptyChain shadow.name, t.span id⟩
    | first :: rest =>
      match t.kind first with
      | .selector field =>
        let field ← ofExcept (t.tokenAs .selectedField field)
        match t.token? operand with
        | .none => throw ⟨.chainRoot shadow.name (t.kind operand).name, t.span operand⟩
        | .some var =>
          replaceAccess id first rest shadow field var
          return .some .access
      | _ => return .none

/-- Gives a binder or declaration the concrete type of `shadow`: its written
type, its own type and its name's, and the binding of the name. Answers with
the name. -/
def redeclare (id name : NodeId) (ascription : Option NodeId) (shadow : Shadow Ty)
    (role : IdentRole) : Pass String := do
  let ty := shadow.shadowedTy
  match ascription with
  | .none => pure ()
  | .some a =>
    let t ← tree
    match t.setToken? a shadow.shadowedName with
    | .none => throw (t.unexpected a .typeName)
    | .some t => modifyTree fun _ => t.setTy a ty
  modifyTree fun t => (t.setTy id ty).setTy name ty
  let t ← tree
  let token ← ofExcept (t.tokenAs role name)
  modifyTree (·.modifyEnv (·.set (t.scope id) token ty))
  return token

def concreteComponent (id name ascription : NodeId) : Pass (Option Change) := do
  match (← tree).declaredShadow? id ascription with
  | .none => return .none
  | .some shadow =>
    let token ← redeclare id name (.some ascription) shadow .binder
    note (.binder token shadow.name shadow.shadowedName)
    return .some .binder

def concreteDecl (id name : NodeId) (ascription : Option NodeId) : Pass (Option Change) := do
  let t ← tree
  let declared := match ascription with
    | .some a => t.declaredShadow? id a
    | .none => t.shadow? id
  match declared with
  | .none => return .none
  | .some shadow =>
    let token ← redeclare id name ascription shadow .declaredVariable
    note (.declaration token shadow.name shadow.shadowedName)
    return .some .declaration

def concreteIdent (id : NodeId) : Pass (Option Change) := do
  match (← tree).shadow? id with
  | .none => return .none
  | .some shadow =>
    modifyTree (·.setTy id shadow.shadowedTy)
    return .some .identifier

/-- Makes one node concrete and tells what was changed. -/
def concreteNode (id : NodeId) : Pass (Option Change) := do
  match (← tree).kind id with
  | .factor operand steps => concreteChain id operand steps
  | .component name ascription => concreteComponent id name ascription
  | .varDecl name ascription _ => concreteDecl id name ascription
  | .ident _ => concreteIdent id
  | _ => return .none

/-- Makes a node and all below it concrete, down to the given depth. Answers
with the nodes in the order of the visits. -/
def concreteDown : Nat → NodeId → Pass (List Visit)
  | 0, _ => throw ⟨.circle, .none⟩
  | depth + 1, id => do
    let change ← concreteNode id
    let below ← ((← tree).children id).mapM (concreteDown depth)
    return ⟨id, change⟩ :: below.flatten

/-- How deep a tree can become: what replaces an access reaches at most four
levels below the chain. -/
def depthBound (t : Tree) : Nat :=
  t.size + 4

/-- Makes the whole program concrete. -/
def concretize : Pass Unit := do
  let t ← tree
  let visits ← concreteDown (depthBound t) Tree.root
  note (.concrete (.ofVisits visits) t.uri)

end Pass

/-- Replaces all uses of shadow types outside of visitor arms, which have to
be merged first. -/
def Tree.concretize (t : Tree) : Outcome :=
  Pass.concretize.outcome t

end Penumbra
