/-
What erasure reports while it works.
-/
import Penumbra.Program.Kind
import Penumbra.Tree.Basic

namespace Penumbra

inductive Level where
  | debug
  | trace
deriving DecidableEq, Repr

def Level.text : Level → String
  | .debug => "DEBUG"
  | .trace => "TRACE"

/-- How many nodes were made concrete, by what was changed. -/
structure Tally where
  accesses : Nat := 0
  binders : Nat := 0
  declarations : Nat := 0
  identifiers : Nat := 0
deriving DecidableEq, Inhabited, Repr

inductive Note where
  | erasing (uri : String)
  | lowered (count total : Nat) (uri : String)
  /-- The arms of one family became a switch on `var`, in an arm made for it
  or in one that was there. -/
  | merged (arms : Nat) (phase : Phase) (shadowed var : String) (madeArm : Bool)
  | access (var field shadow : String) (chain : NodeId)
  | binder (name shadow shadowed : String)
  | declaration (name shadow shadowed : String)
  | concrete (tally : Tally) (uri : String)
deriving DecidableEq, Repr

namespace Note

def level : Note → Level
  | .erasing _ => .debug
  | .lowered .. => .debug
  | .concrete .. => .debug
  | _ => .trace

def text : Note → String
  | .erasing uri => "Erasing shadow types in " ++ uri
  | .lowered count total uri =>
    "Lowered " ++ toString count ++ " of " ++ toString total ++ " visitor construct(s) in " ++ uri
  | .merged arms phase shadowed var madeArm =>
    "Merged " ++ toString arms ++ " " ++ phase.text ++ " arm(s) of " ++ shadowed ++
      " into a switch on " ++ var ++
      (if madeArm then " (synthesized arm)" else " (existing arm)")
  | .access var field shadow chain =>
    "Rewrote access " ++ var ++ "." ++ field ++ " of shadow type " ++ shadow ++
      " at " ++ NodeId.text chain
  | .binder name shadow shadowed => "Erased binder " ++ name ++ ": " ++ shadow ++ " to " ++ shadowed
  | .declaration name shadow shadowed =>
    "Erased declaration of " ++ name ++ ": " ++ shadow ++ " to " ++ shadowed
  | .concrete tally uri =>
    "Rewrote " ++ toString tally.accesses ++ " field access(es), " ++
      toString tally.binders ++ " binder(s), " ++
      toString tally.declarations ++ " declaration(s) and " ++
      toString tally.identifiers ++ " identifier(s) in " ++ uri

/-- The note with its level in front. -/
def line (n : Note) : String :=
  n.level.text ++ " " ++ n.text

end Note

end Penumbra
