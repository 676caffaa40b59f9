/-
Visitors without shadow arms.

Every family of shadow arms becomes one switch on the discriminant, at the
end of the arm for the concrete type. Where the visitor has no such arm, one
is made; it also covers the values that no shadow arm names, so the
visitor's wildcard of the same phase, if there is one, is copied as the
switch's default and then dropped. Visitors inside visitors come first.
-/
import Penumbra.Erase.Family
import Penumbra.Erase.Pass
import Penumbra.Tree.Copy
import Penumbra.Tree.Order

namespace Penumbra

namespace Family

/-- A new arm with an empty body for the concrete type, which binds the name
that the first arm binds. -/
def makeArm (f : Family) (visitorScope : ScopeId) : Build (NodeId × NodeId) := do
  let ty := f.first.shadow.shadowedTy
  let scope ← Build.childScope visitorScope
  modify (·.modifyEnv (·.declare scope f.first.binder ty))
  let name ← Build.typed ty (Build.ident f.first.binder scope)
  let ascription ← Build.typed ty (Build.ident f.shadowedName scope)
  let component ← Build.typed ty (Build.alloc (.component name ascription) scope)
  let body ← Build.block [] scope
  let arm ← Build.arm f.phase (.some component) body visitorScope
  return (arm, body)

/-- The case of one arm; the arm's body moves into it. -/
def makeCase (scope : ScopeId) (arm : ShadowArm) : Build NodeId := do
  let label ← Build.typed arm.shadow.discriminantTy (Build.ident arm.shadow.discriminant scope)
  Build.case label arm.body scope

/-- The switch on the discriminant of `binder`, with one case per arm. -/
def makeSwitch (f : Family) (binder : String) (default : Option NodeId) (scope : ScopeId) :
    Build NodeId := do
  let shadow := f.first.shadow
  let var ← Build.typed shadow.shadowedTy (Build.ident binder scope)
  let field ← Build.selector shadow.discriminantField scope
  let scrutinee ← Build.typed shadow.discriminantTy (Build.factor var [field] scope)
  let cases ← f.arms.mapM (makeCase scope)
  Build.switch scrutinee cases default scope

/-- The binders of the arms are out of reach once the bodies have moved; the
bodies still refer to them, now at the concrete type. -/
def rebind (f : Family) (e : Env) : Env :=
  f.arms.foldl (fun e a => e.set a.scope a.binder a.shadow.shadowedTy) e

end Family

/-- The arms of a visitor while its families are merged. -/
structure Merged where
  arms : List NodeId
  /-- The wildcard has become the default of a switch. -/
  usedWildcard : Bool := false

namespace Pass

/-- The default of a switch: a copy of the wildcard's body if the phases
agree. -/
def copyDefault (phase : Phase) : Option (Phase × NodeId) → Pass (Option NodeId)
  | .none => return .none
  | .some (p, body) => do
    if p = phase then return .some (← build (Build.copy body)) else return .none

/-- Moves the arms of a family into a switch at the end of `target`. -/
def mergeInto (f : Family) (binder : String) (target : NodeId) (default : Option NodeId) :
    Pass Unit := do
  let switch ← build (f.makeSwitch binder default ((← tree).scope target))
  let t ← tree
  match t.pushStmt? target switch with
  | .none => throw (t.unexpected target .armBody)
  | .some t => modifyTree fun _ => t.modifyEnv f.rebind

/-- Merges one family of a visitor. -/
def mergeFamily (visitorScope : ScopeId) (wildcard : Option (Phase × NodeId)) (m : Merged)
    (f : Family) : Pass Merged := do
  match ← ofExcept ((← tree).concreteArm? m.arms f) with
  | .some (binder, body) =>
    mergeInto f binder body .none
    note (.merged f.arms.length f.phase f.shadowedName binder false)
    return m
  | .none =>
    let (arm, body) ← build (f.makeArm visitorScope)
    let default ← copyDefault f.phase wildcard
    mergeInto f f.first.binder body default
    note (.merged f.arms.length f.phase f.shadowedName f.first.binder true)
    return ⟨m.arms ++ [arm], m.usedWildcard || default.isSome⟩

/-- Merges the families of a visitor and tells whether there are any. -/
def lowerVisitor (id : NodeId) : Pass Bool := do
  let t ← tree
  match t.kind id with
  | .visitor arms wildcard =>
    let sorted ← ofExcept (t.sortArms arms)
    if sorted.families.isEmpty then
      return false
    let w ← ofExcept (t.wildcardArm? wildcard)
    let m ← sorted.families.foldlM (mergeFamily (t.scope id) w) { arms := sorted.kept }
    let wildcard := if m.usedWildcard then .none else wildcard
    modifyTree fun t => (t.adopt id m.arms).setKind id (.visitor m.arms wildcard)
    return true
  | _ => return false

/-- Merges the shadow arms of all visitors. -/
def lower : Pass Unit := do
  let t ← tree
  let visitors := (t.postOrder Tree.root).filter t.isVisitor
  let lowered ← visitors.mapM lowerVisitor
  note (.lowered (lowered.count true) visitors.length t.uri)

end Pass

/-- Merges the shadow arms of all visitors of a tree. -/
def Tree.lower (t : Tree) : Outcome :=
  Pass.lower.outcome t

end Penumbra
