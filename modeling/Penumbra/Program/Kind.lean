/-
What a program is made of.

`Kind α` is one layer of a program, with children of type `α`. Everything
that walks programs goes through `children`, `map` and `mapM`, which agree
on which the children are and in which order they come.
-/
namespace Penumbra

/-- When a visitor runs an arm: before or after a value's parts. -/
inductive Phase where
  | before
  | after
deriving DecidableEq, Inhabited, Repr

def Phase.text : Phase → String
  | .before => "before"
  | .after => "after"

inductive BinOp where
  | add
  | sub
  | mul
  | eq
  | ne
  | lt
  | and
  | or
deriving DecidableEq, Inhabited, Repr

def BinOp.symbol : BinOp → String
  | .add => "+"
  | .sub => "-"
  | .mul => "*"
  | .eq => "=="
  | .ne => "!="
  | .lt => "<"
  | .and => "&&"
  | .or => "||"

inductive Literal where
  | int (i : Int)
  | str (s : String)
  | bool (b : Bool)
deriving DecidableEq, Inhabited, Repr

inductive Kind (α : Type) where
  | program (stmts : List α)
  | block (stmts : List α)
  /-- Written `name: ascription = init;` or `name := init;`. -/
  | varDecl (name : α) (ascription : Option α) (init : Option α)
  | assign (lhs rhs : α)
  | exprStmt (expr : α)
  | ifStmt (test yes : α) (no : Option α)
  | returnStmt (value : Option α)
  | switch (scrutinee : α) (cases : List α) (default : Option α)
  | case (label body : α)
  /-- Dispatch on the type of a value; the wildcard is the arm without a
  binder. -/
  | visitor (arms : List α) (wildcard : Option α)
  | arm (phase : Phase) (binder : Option α) (body : α)
  /-- The binder `name: ascription` of an arm or a function. -/
  | component (name ascription : α)
  | function (params : List α) (body : α)
  | ident (token : String)
  | literal (l : Literal)
  /-- An operand followed by selector and index steps. -/
  | factor (operand : α) (steps : List α)
  | selector (field : α)
  | index (position : α)
  | call (callee : α) (args : List α)
  | paren (inner : α)
  | binary (op : BinOp) (lhs rhs : α)
deriving DecidableEq, Repr

instance {α : Type} : Inhabited (Kind α) := ⟨.block []⟩

namespace Kind

variable {α β : Type}

/-- What reports call a node of this kind. -/
def name : Kind α → String
  | .program _ => "program"
  | .block _ => "block"
  | .varDecl .. => "variable declaration"
  | .assign .. => "assignment"
  | .exprStmt _ => "expression statement"
  | .ifStmt .. => "if statement"
  | .returnStmt _ => "return statement"
  | .switch .. => "switch statement"
  | .case .. => "switch case"
  | .visitor .. => "visitor"
  | .arm .. => "visitor arm"
  | .component .. => "component"
  | .function .. => "function"
  | .ident _ => "identifier"
  | .literal _ => "literal"
  | .factor .. => "factor"
  | .selector _ => "selector"
  | .index _ => "index"
  | .call .. => "call"
  | .paren _ => "parenthesized expression"
  | .binary .. => "binary expression"

/-- The children in source order. -/
def children : Kind α → List α
  | .program stmts => stmts
  | .block stmts => stmts
  | .varDecl name ascription init => name :: (ascription.toList ++ init.toList)
  | .assign lhs rhs => [lhs, rhs]
  | .exprStmt expr => [expr]
  | .ifStmt test yes no => test :: yes :: no.toList
  | .returnStmt value => value.toList
  | .switch scrutinee cases default => scrutinee :: (cases ++ default.toList)
  | .case label body => [label, body]
  | .visitor arms wildcard => arms ++ wildcard.toList
  | .arm _ binder body => binder.toList ++ [body]
  | .component name ascription => [name, ascription]
  | .function params body => params ++ [body]
  | .ident _ => []
  | .literal _ => []
  | .factor operand steps => operand :: steps
  | .selector field => [field]
  | .index position => [position]
  | .call callee args => callee :: args
  | .paren inner => [inner]
  | .binary _ lhs rhs => [lhs, rhs]

/-- The same layer with every child replaced. -/
def map (f : α → β) : Kind α → Kind β
  | .program stmts => .program (stmts.map f)
  | .block stmts => .block (stmts.map f)
  | .varDecl name ascription init => .varDecl (f name) (ascription.map f) (init.map f)
  | .assign lhs rhs => .assign (f lhs) (f rhs)
  | .exprStmt expr => .exprStmt (f expr)
  | .ifStmt test yes no => .ifStmt (f test) (f yes) (no.map f)
  | .returnStmt value => .returnStmt (value.map f)
  | .switch scrutinee cases default => .switch (f scrutinee) (cases.map f) (default.map f)
  | .case label body => .case (f label) (f body)
  | .visitor arms wildcard => .visitor (arms.map f) (wildcard.map f)
  | .arm phase binder body => .arm phase (binder.map f) (f body)
  | .component name ascription => .component (f name) (f ascription)
  | .function params body => .function (params.map f) (f body)
  | .ident token => .ident token
  | .literal l => .literal l
  | .factor operand steps => .factor (f operand) (steps.map f)
  | .selector field => .selector (f field)
  | .index position => .index (f position)
  | .call callee args => .call (f callee) (args.map f)
  | .paren inner => .paren (f inner)
  | .binary op lhs rhs => .binary op (f lhs) (f rhs)

/-- The same layer with every child replaced by an action's result; the
actions run in the order of `children`. -/
def mapM {m : Type → Type} [Monad m] (f : α → m β) : Kind α → m (Kind β)
  | .program stmts => return .program (← stmts.mapM f)
  | .block stmts => return .block (← stmts.mapM f)
  | .varDecl name ascription init => return .varDecl (← f name) (← ascription.mapM f) (← init.mapM f)
  | .assign lhs rhs => return .assign (← f lhs) (← f rhs)
  | .exprStmt expr => return .exprStmt (← f expr)
  | .ifStmt test yes no => return .ifStmt (← f test) (← f yes) (← no.mapM f)
  | .returnStmt value => return .returnStmt (← value.mapM f)
  | .switch scrutinee cases default =>
    return .switch (← f scrutinee) (← cases.mapM f) (← default.mapM f)
  | .case label body => return .case (← f label) (← f body)
  | .visitor arms wildcard => return .visitor (← arms.mapM f) (← wildcard.mapM f)
  | .arm phase binder body => return .arm phase (← binder.mapM f) (← f body)
  | .component name ascription => return .component (← f name) (← f ascription)
  | .function params body => return .function (← params.mapM f) (← f body)
  | .ident token => return .ident token
  | .literal l => return .literal l
  | .factor operand steps => return .factor (← f operand) (← steps.mapM f)
  | .selector field => return .selector (← f field)
  | .index position => return .index (← f position)
  | .call callee args => return .call (← f callee) (← args.mapM f)
  | .paren inner => return .paren (← f inner)
  | .binary op lhs rhs => return .binary op (← f lhs) (← f rhs)

/-! ## Reading and changing one part

The functions that change a part answer `.none` for a layer that has no
such part. -/

def token? : Kind α → Option String
  | .ident token => .some token
  | _ => .none

def stmts? : Kind α → Option (List α)
  | .program stmts => .some stmts
  | .block stmts => .some stmts
  | _ => .none

def withToken (token : String) : Kind α → Option (Kind α)
  | .ident _ => .some (.ident token)
  | _ => .none

def withStmts (stmts : List α) : Kind α → Option (Kind α)
  | .program _ => .some (.program stmts)
  | .block _ => .some (.block stmts)
  | _ => .none

/-- Adds a statement at the end of a program or block. -/
def addStmt (stmt : α) : Kind α → Option (Kind α)
  | .program stmts => .some (.program (stmts ++ [stmt]))
  | .block stmts => .some (.block (stmts ++ [stmt]))
  | _ => .none

def withInit (init : Option α) : Kind α → Option (Kind α)
  | .varDecl name ascription _ => .some (.varDecl name ascription init)
  | _ => .none

def withDefault (default : Option α) : Kind α → Option (Kind α)
  | .switch scrutinee cases _ => .some (.switch scrutinee cases default)
  | _ => .none

def withCaseBody (body : α) : Kind α → Option (Kind α)
  | .case label _ => .some (.case label body)
  | _ => .none

def withWildcard (wildcard : Option α) : Kind α → Option (Kind α)
  | .visitor arms _ => .some (.visitor arms wildcard)
  | _ => .none

def withBinder (binder : Option α) : Kind α → Option (Kind α)
  | .arm phase _ body => .some (.arm phase binder body)
  | _ => .none

def withAscription (ascription : α) : Kind α → Option (Kind α)
  | .component name _ => .some (.component name ascription)
  | _ => .none

def withOperand (operand : α) : Kind α → Option (Kind α)
  | .factor _ steps => .some (.factor operand steps)
  | _ => .none

def withField (field : α) : Kind α → Option (Kind α)
  | .selector _ => .some (.selector field)
  | _ => .none

def withInner (inner : α) : Kind α → Option (Kind α)
  | .paren _ => .some (.paren inner)
  | _ => .none

end Kind

end Penumbra
