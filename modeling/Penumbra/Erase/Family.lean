/-
The shadow arms of a visitor, sorted into families.

A shadow arm is an arm whose binder has a shadow type. Arms of the same
phase whose shadow types share the name of their concrete type form a
family. Families, and the arms in each, come in the order in which the
visitor lists them.
-/
import Penumbra.Erase.Fault
import Penumbra.Erase.Declared

namespace Penumbra

structure ShadowArm where
  binder : String
  /-- The scope of the binder; the body stays inside it. -/
  scope : ScopeId
  body : NodeId
  shadow : Shadow Ty

/-- A family has at least one arm. -/
structure Family where
  phase : Phase
  shadowedName : String
  first : ShadowArm
  rest : List ShadowArm := []

namespace Family

def arms (f : Family) : List ShadowArm :=
  f.first :: f.rest

/-- Whether an arm of that phase belongs to the family. -/
def admits (f : Family) (phase : Phase) (arm : ShadowArm) : Bool :=
  f.phase == phase && f.shadowedName == arm.shadow.shadowedName

/-- Puts an arm at the end of its family, which is new if there is none. -/
def insert (phase : Phase) (arm : ShadowArm) : List Family → List Family
  | [] => [{ phase, shadowedName := arm.shadow.shadowedName, first := arm }]
  | f :: fs =>
    if f.admits phase arm then { f with rest := f.rest ++ [arm] } :: fs
    else f :: insert phase arm fs

end Family

/-- The arms of a visitor: families of shadow arms, and the others. -/
structure Sorted where
  families : List Family := []
  kept : List NodeId := []

namespace Tree

/-- The phase and shadow arm that `arm` is, if its binder has a shadow
type. -/
def shadowArm? (t : Tree) (arm : NodeId) : Except Fault (Option (Phase × ShadowArm)) :=
  match t.kind arm with
  | .arm phase (.some c) body =>
    match t.kind c with
    | .component name ascription =>
      match t.declaredShadow? c ascription with
      | .none => .ok .none
      | .some shadow => do
        let binder ← t.tokenAs .binder name
        return .some (phase, { binder, scope := t.scope c, body, shadow })
    | _ => .error (t.unexpected c .component)
  | .arm _ .none _ => .error ⟨.armWithoutBinder, t.span arm⟩
  | _ => .error (t.unexpected arm .visitorArm)

/-- Sorts one more arm. -/
def sortArm (t : Tree) (s : Sorted) (arm : NodeId) : Except Fault Sorted := do
  match ← t.shadowArm? arm with
  | .none => return { s with kept := s.kept ++ [arm] }
  | .some (phase, a) => return { s with families := Family.insert phase a s.families }

def sortArms (t : Tree) (arms : List NodeId) : Except Fault Sorted :=
  arms.foldlM t.sortArm {}

/-- The phase and body of a visitor's wildcard. -/
def wildcardArm? (t : Tree) : Option NodeId → Except Fault (Option (Phase × NodeId))
  | .none => .ok .none
  | .some w =>
    match t.kind w with
    | .arm phase _ body => .ok (.some (phase, body))
    | _ => .error (t.unexpected w .wildcardArm)

/-- The name node and the body of an arm that binds the concrete type of that
name in that phase. -/
def bindsConcrete? (t : Tree) (phase : Phase) (shadowedName : String) (arm : NodeId) :
    Option (NodeId × NodeId) :=
  match t.kind arm with
  | .arm p (.some c) body =>
    match t.kind c with
    | .component name ascription =>
      if p == phase && (t.declaredTy? c ascription).any (Ty.isNamed shadowedName) then
        .some (name, body)
      else .none
    | _ => .none
  | _ => .none

/-- The binder and body of the first arm that binds the concrete type of a
family. -/
def concreteArm? (t : Tree) (arms : List NodeId) (f : Family) :
    Except Fault (Option (String × NodeId)) :=
  match arms.findSome? (t.bindsConcrete? f.phase f.shadowedName) with
  | .none => .ok .none
  | .some (name, body) => do
    let binder ← t.tokenAs .binder name
    return .some (binder, body)

end Tree

end Penumbra
