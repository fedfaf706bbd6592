import LoxWalk.Token

/-!
# Syntax trees

Expressions, statements and function declarations.  Every node that refers to a binding (a variable
that is read or assigned, `this`, and `super`) has an identity of its own, so that two references
with the same spelling can be bound in different scopes.

There is no node for `for`: such a loop is a `while` loop inside a block, see
`Stmt.ofForClauses`.
-/

namespace LoxWalk

/-- The identity of a node that refers to a binding. -/
structure NodeId where
  index : Nat
deriving DecidableEq

/-- A constant written in the program. -/
inductive Literal where
  | nil
  | bool (b : Bool)
  | number (x : Double)
  | string (s : String)
deriving DecidableEq

/-- An expression. -/
inductive Expr where
  | literal (value : Literal)
  | group (inner : Expr)
  | unary (operator : Token) (operand : Expr)
  | binary (left : Expr) (operator : Token) (right : Expr)
  | logical (left : Expr) (operator : Token) (right : Expr)
  | var (id : NodeId) (name : Token)
  | assign (id : NodeId) (name : Token) (value : Expr)
  | call (callee : Expr) (paren : Token) (arguments : List Expr)
  | get (object : Expr) (name : Token)
  | set (object : Expr) (name : Token) (value : Expr)
  | this (id : NodeId) (keyword : Token)
  | super (id : NodeId) (keyword : Token) (method : Token)

/-- A declared function or method whose body consists of statements of type `σ`. -/
structure FunDeclOf (σ : Type) where
  name : Token
  params : List Token
  body : List σ

/-- A statement. -/
inductive Stmt where
  | expression (e : Expr)
  | print (e : Expr)
  | var (name : Token) (initializer : Option Expr)
  | block (body : List Stmt)
  | if_ (condition : Expr) (thenBranch : Stmt) (elseBranch : Option Stmt)
  | while_ (condition : Expr) (body : Stmt)
  | fun_ (decl : FunDeclOf Stmt)
  | return_ (keyword : Token) (value : Option Expr)
  | class_ (name : Token) (superclass : Option Expr) (methods : List (FunDeclOf Stmt))

/-- A declared function or method. -/
abbrev FunDecl := FunDeclOf Stmt

/-- The method that makes a new instance ready. -/
def initializerName : String :=
  "init"

/-- Whether a method makes new instances ready. -/
def FunDeclOf.isInitializer {σ : Type} (f : FunDeclOf σ) : Bool :=
  f.name.lexeme == initializerName

namespace Stmt

/-- The loop `for (initializer; condition; increment) body`: the initializer has a scope of its own
around the loop, and the increment runs after the body, in a scope that holds nothing else. -/
def ofForClauses (initializer : Option Stmt) (condition increment : Option Expr) (body : Stmt) :
    Stmt :=
  let step := match increment with
    | some e => block [body, expression e]
    | none => body
  let loop := while_ (condition.getD (.literal (.bool true))) step
  match initializer with
  | some s => block [s, loop]
  | none => loop

end Stmt

end LoxWalk
