/-
Types and shadow types.

A shadow type refines a concrete tuple type at compile time only. All values
of the shadow types of one concrete type look alike at run time and are told
apart by a discriminant field. A shadow type offers virtual fields; each
has a path that leads from a value to the place where the concrete type
keeps it.
-/
import Penumbra.Text.Quoted

namespace Penumbra

/-- One step of a path: a field, or a position in an array. -/
inductive PathStep where
  | field (name : String)
  | index (i : Int)
deriving DecidableEq, Inhabited, Repr

structure VirtualField (τ : Type) where
  name : String
  path : List PathStep
  ty : τ

/-- A shadow type over the types `τ`. -/
structure Shadow (τ : Type) where
  name : String
  /-- The name of the concrete type. -/
  shadowedName : String
  /-- The discriminant's value for this shadow type. -/
  discriminant : String
  discriminantTy : τ
  fields : List (VirtualField τ) := []
  /-- The field of the concrete type that holds the discriminant. -/
  discriminantField : String := "kind"
  /-- The concrete type, where it is not the tuple type `shadowedName`. -/
  shadowedTy? : Option τ := .none
  /-- Whether an expression for a virtual field carries its type. -/
  typesFields : Bool := true

inductive Ty where
  | int
  | float
  | bool
  | string
  /-- A concrete tuple type. -/
  | named (name : String)
  | enum (name : String)
  | array (elem : Ty)
  | function
  | visitor
  | shadow (s : Shadow Ty)

instance : Inhabited Ty := ⟨.int⟩

namespace Shadow

/-- The concrete type behind a shadow type. -/
def shadowedTy (s : Shadow Ty) : Ty :=
  s.shadowedTy?.getD (.named s.shadowedName)

/-- The first virtual field of that name. -/
def field? {τ : Type} (s : Shadow τ) (name : String) : Option (VirtualField τ) :=
  s.fields.find? (·.name == name)

/-- The shadow type with one more virtual field, after those it has. -/
def addField {τ : Type} (s : Shadow τ) (name : String) (path : List PathStep) (ty : τ) : Shadow τ :=
  { s with fields := s.fields ++ [⟨name, path, ty⟩] }

def fieldNames {τ : Type} (s : Shadow τ) : List String :=
  s.fields.map (·.name)

end Shadow

namespace Ty

def shadow? : Ty → Option (Shadow Ty)
  | .shadow s => .some s
  | _ => .none

def isShadow (t : Ty) : Bool :=
  t.shadow?.isSome

/-- The type with a shadow type replaced by the concrete type behind it.
Shadow types inside an array stay. -/
def erased : Ty → Ty
  | .shadow s => s.shadowedTy
  | t => t

/-- Whether this is the concrete tuple type of that name. -/
def isNamed (name : String) : Ty → Bool
  | .named n => n == name
  | _ => false

/-- Equality of types. Shadow types are the same if their names are. -/
def same : Ty → Ty → Bool
  | .int, .int => true
  | .float, .float => true
  | .bool, .bool => true
  | .string, .string => true
  | .named a, .named b => a == b
  | .enum a, .enum b => a == b
  | .array a, .array b => same a b
  | .function, .function => true
  | .visitor, .visitor => true
  | .shadow s, .shadow t => s.name == t.name
  | _, _ => false

/-- The type as programs write it. -/
def text : Ty → String
  | .int => "int"
  | .float => "float"
  | .bool => "bool"
  | .string => "string"
  | .named name => name
  | .enum name => name
  | .array elem => "array of " ++ elem.text
  | .function => "function"
  | .visitor => "visitor"
  | .shadow s => s.name

/-- The type as diagnostics for developers show it. -/
def debug : Ty → String
  | .int => "Int"
  | .float => "Float"
  | .bool => "Bool"
  | .string => "String"
  | .named name => "Named(" ++ Text.quoted name ++ ")"
  | .enum name => "Enum(" ++ Text.quoted name ++ ")"
  | .array elem => "Array(" ++ elem.debug ++ ")"
  | .function => "Function"
  | .visitor => "Visitor"
  | .shadow s => "Shadow(ShadowRef(" ++ Text.quoted s.name ++ "))"

/-- For each type in turn, whether none before it was the same. -/
def fresh (ts : List Ty) : List Bool :=
  go [] ts
where
  go (seen : List Ty) : List Ty → List Bool
    | [] => []
    | t :: ts =>
      if seen.any t.same then false :: go seen ts else true :: go (t :: seen) ts

end Ty

end Penumbra
