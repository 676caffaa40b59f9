/-
Passes over a tree.

A pass changes the tree, leaves notes, and may stop at a fault. What it did
before the fault stays done.
-/
import Penumbra.Erase.Fault
import Penumbra.Erase.Note

namespace Penumbra

/-- A tree being worked on, and the notes so far. -/
structure Work where
  tree : Tree
  log : List Note := []

abbrev Pass := ExceptT Fault (StateM Work)

/-- How a pass ended, and what it left. -/
structure Outcome where
  result : Except Fault Unit
  tree : Tree
  log : List Note

namespace Pass

def tree : Pass Tree := do
  return (← get).tree

def modifyTree (f : Tree → Tree) : Pass Unit :=
  modify fun w => { w with tree := f w.tree }

def build {α : Type} (b : Build α) : Pass α := do
  let w ← get
  let (a, t) := b.run w.tree
  set { w with tree := t }
  return a

def note (n : Note) : Pass Unit :=
  modify fun w => { w with log := w.log ++ [n] }

def ofExcept {α : Type} : Except Fault α → Pass α
  | .ok a => return a
  | .error e => throw e

/-- Runs a pass on a tree. -/
def outcome (p : Pass Unit) (t : Tree) : Outcome :=
  let (result, w) := p.run.run { tree := t }
  ⟨result, w.tree, w.log⟩

end Pass

end Penumbra
