/-
The shadow types of `Statement`, one for each kind of statement.

A statement keeps its expressions, conditions and inner statements in three
arrays. Each virtual field is one entry of one of them.
-/
import Penumbra.Env

namespace Penumbra.Statement

def ty : Ty := .named "Statement"

def kindTy : Ty := .enum "StatementKind"

def expressionTy : Ty := .named "Expression"

/-- The entry `array[i]`. -/
def entry (array : String) (i : Int) : List PathStep :=
  [.field array, .index i]

/-- A shadow type of `Statement` without fields. -/
def shadow (name discriminant : String) : Shadow Ty where
  name := name
  shadowedName := "Statement"
  discriminant := discriminant
  discriminantTy := kindTy

def assignment : Shadow Ty :=
  (shadow "Assignment" "ASSIGN")
    |>.addField "lhs" (entry "expressions" 0) expressionTy
    |>.addField "rhs" (entry "expressions" 1) expressionTy

def exprStmt : Shadow Ty :=
  (shadow "ExprStmt" "EXPR")
    |>.addField "expression" (entry "expressions" 0) expressionTy

def ifStatement : Shadow Ty :=
  (shadow "IfStatement" "IF")
    |>.addField "condition" (entry "conditions" 0) expressionTy
    |>.addField "true_branch" (entry "statements" 0) ty
    |>.addField "false_branch" (entry "statements" 1) ty

def whileStatement : Shadow Ty :=
  (shadow "WhileStatement" "WHILE")
    |>.addField "condition" (entry "conditions" 0) expressionTy
    |>.addField "body" (entry "statements" 0) ty

def returnStatement : Shadow Ty :=
  (shadow "ReturnStatement" "RETURN")
    |>.addField "value" (entry "expressions" 0) expressionTy

def all : List (Shadow Ty) :=
  [assignment, exprStmt, ifStatement, whileStatement, returnStatement]

/-- Names the statement types, concrete and shadow, in `s`. -/
def declare (e : Env) (s : ScopeId) : Env :=
  let e := e.setType s "Statement" ty
  let e := e.setType s "StatementKind" kindTy
  let e := e.setType s "Expression" expressionTy
  all.foldl (fun e t => e.setType s t.name (.shadow t)) e

end Penumbra.Statement
