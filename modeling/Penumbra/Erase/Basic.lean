/-
Erasing shadow types from a program.

First the shadow arms of visitors are merged into switches, then all other
uses of shadow types are made concrete. A shadow type that is left after
that is a fault.
-/
import Penumbra.Erase.Concrete
import Penumbra.Erase.Dispatch
import Penumbra.Erase.Residue

namespace Penumbra

namespace Pass

/-- Stops if a shadow type is left. -/
def checkResidue : Pass Unit := do
  let t ← tree
  let residue := t.residue
  match residue with
  | [] => return ()
  | first :: _ => throw ⟨.survivors residue.length first (t.kind first).name, t.span first⟩

def erase : Pass Unit := do
  note (.erasing (← tree).uri)
  lower
  concretize
  checkResidue

end Pass

/-- Erases all shadow types of a tree. -/
def Tree.erase (t : Tree) : Outcome :=
  Pass.erase.outcome t

end Penumbra
