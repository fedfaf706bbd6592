import LoxWalk.Diagnostic
import LoxWalk.NameMap
import LoxWalk.Tree

/-!
# Static binding

Before a unit runs, every reference in it is bound: its name is looked up in the scopes that enclose
it in the text, and the number of scopes between the reference and the one that declares its name is
its distance.  A name that no scope declares belongs to the top level and has no distance.  The same
walk finds the places that break a static rule.

`Static` is what is known at a place of the text; `Static.expr` and `Static.stmt` give the findings
of a tree at such a place.  The scopes here are those that exist while the program runs: one for
each block, one for each function with its parameters, and around the methods of a class one for
`this` and outside it, if there is a superclass, one for `super`.
-/

namespace LoxWalk

/-- What kind of function encloses a place most closely. -/
inductive FunctionContext where
  | topLevel
  | function
  | method
  | initializer
deriving DecidableEq

/-- What kind of class encloses a place most closely. -/
inductive ClassContext where
  | outside
  | base
  | derived
deriving DecidableEq

/-- What is known at a place of the text: the declared names of the enclosing scopes, innermost
first, each with whether its initializer is over, and the enclosing function and class. -/
structure Static where
  scopes : List (NameMap Bool)
  function : FunctionContext
  inClass : ClassContext

/-- How long a distance can be needed: code outside every function can not run again once its unit
is over. -/
inductive Extent where
  | unit
  | lasting
deriving DecidableEq

/-- The distance between a reference and the scope that declares its name. -/
structure BoundReference where
  id : NodeId
  distance : Nat
  extent : Extent
deriving DecidableEq

/-- What the walk over a tree finds, in the order of the walk. -/
structure Findings where
  bound : List BoundReference
  errors : List ResolveError
deriving DecidableEq

namespace Findings

/-- Nothing was found. -/
def none : Findings :=
  ⟨[], []⟩

/-- Findings of two trees, one after the other. -/
def append (f g : Findings) : Findings :=
  ⟨f.bound ++ g.bound, f.errors ++ g.errors⟩

instance : Append Findings := ⟨append⟩

/-- A broken rule. -/
def broken (t : Token) (fault : ResolveFault) : Findings :=
  ⟨[], [.atToken t fault]⟩

/-- A broken rule, if the condition holds. -/
def brokenIf (condition : Bool) (t : Token) (fault : ResolveFault) : Findings :=
  if condition then broken t fault else none

end Findings

/-- The name under which a method finds its instance. -/
def thisName : String :=
  "this"

/-- The name under which a method finds the superclass of its class. -/
def superName : String :=
  "super"

namespace Static

/-- The top level of a unit. -/
def top : Static :=
  ⟨[], .topLevel, .outside⟩

/-- A place inside one more scope, which declares the given names. -/
def enter (st : Static) (names : List String) : Static :=
  { st with scopes := NameMap.empty.insertAll (names.map (·, true)) :: st.scopes }

/-- How far away the innermost scope is that declares a name. -/
def distance? (st : Static) (name : String) : Option Nat :=
  st.scopes.findIdx? (·.contains name)

/-- Whether a name is declared in the innermost scope and its initializer is not over. -/
def isPending (st : Static) (name : String) : Bool :=
  st.scopes.head?.bind (·.get? name) == some false

/-- How long a distance found at this place is needed. -/
def extent (st : Static) : Extent :=
  if st.function = .topLevel then .unit else .lasting

/-- Whether the innermost scope declares a name; the top level is no scope. -/
def declaresHere (st : Static) (name : String) : Bool :=
  st.scopes.head?.any (·.contains name)

/-- Declares a name in the innermost scope unless it is declared there already. -/
def declare (st : Static) (name : Token) : Static :=
  match st.scopes with
  | [] => st
  | scope :: outer =>
    if scope.contains name.lexeme then st
    else { st with scopes := scope.insert name.lexeme false :: outer }

/-- Ends the initializer of a name in the innermost scope. -/
def define (st : Static) (name : Token) : Static :=
  match st.scopes with
  | [] => st
  | scope :: outer => { st with scopes := scope.insert name.lexeme true :: outer }

/-- The complaint about a second declaration in one scope. -/
def redeclaration (st : Static) (name : Token) : Findings :=
  .brokenIf (st.declaresHere name.lexeme) name .declaredTwice

/-- Binds a reference by the name in the token `name`. -/
def bind (st : Static) (id : NodeId) (name : Token) : Findings :=
  match st.distance? name.lexeme with
  | some d => ⟨[⟨id, d, st.extent⟩], []⟩
  | none => .none

/-- The place behind the parameters of a function, and what is wrong with them. -/
def params (st : Static) : List Token → Static × Findings
  | [] => (st, .none)
  | p :: ps =>
    match ((st.declare p).define p).params ps with
    | (st₁, found) => (st₁, st.redeclaration p ++ found)

/-! ## Expressions -/

mutual

/-- The findings of an expression; what is assigned comes before the place it is assigned to. -/
def expr (st : Static) : Expr → Findings
  | .literal _ => .none
  | .group inner => st.expr inner
  | .unary _ operand => st.expr operand
  | .binary left _ right => st.expr left ++ st.expr right
  | .logical left _ right => st.expr left ++ st.expr right
  | .var id name =>
    .brokenIf (st.isPending name.lexeme) name .readInOwnInitializer ++ st.bind id name
  | .assign id name value => st.expr value ++ st.bind id name
  | .call callee _ arguments => st.expr callee ++ st.exprs arguments
  | .get object _ => st.expr object
  | .set object _ value => st.expr value ++ st.expr object
  | .this id keyword =>
    match st.inClass with
    | .outside => .broken keyword .thisOutsideClass
    | _ => st.bind id keyword
  | .super id keyword _ =>
    match st.inClass with
    | .outside => .broken keyword .superOutsideClass
    | .base => .broken keyword .superWithoutSuperclass
    | .derived => st.bind id keyword

/-- The findings of expressions, one after the other. -/
def exprs (st : Static) : List Expr → Findings
  | [] => .none
  | e :: es => st.expr e ++ st.exprs es

end

/-- The findings of an expression that may be left out. -/
def expr? (st : Static) : Option Expr → Findings
  | some e => st.expr e
  | none => .none

/-! ## Statements -/

/-- The kind of function that a method is. -/
def methodContext (f : FunDecl) : FunctionContext :=
  if f.isInitializer then .initializer else .method

/-- The findings of a `return` apart from those of its value. -/
def returned (st : Static) (keyword : Token) (hasValue : Bool) : Findings :=
  .brokenIf (st.function = .topLevel) keyword .returnAtTopLevel
    ++ .brokenIf (hasValue && st.function = .initializer) keyword .valueFromInitializer

/-- The findings of a superclass; a class has to name another class. -/
def superclass (st : Static) (name : Token) : Option Expr → Findings
  | none => .none
  | some e =>
    let self := match e with
      | .var _ superclass =>
        .brokenIf (superclass.lexeme = name.lexeme) superclass .inheritsFromItself
      | _ => .none
    self ++ { st with inClass := .derived }.expr e

/-- The place of the methods of a class. -/
def methodsPlace (st : Static) (hasSuperclass : Bool) : Static :=
  if hasSuperclass then
    ({ st with inClass := .derived }.enter [superName]).enter [thisName]
  else
    { st with inClass := .base }.enter [thisName]

mutual

/-- The place behind a statement, and the findings of the statement. -/
def stmt (st : Static) : Stmt → Static × Findings
  | .expression e => (st, st.expr e)
  | .print e => (st, st.expr e)
  | .var name initializer =>
    ((st.declare name).define name, st.redeclaration name ++ (st.declare name).expr? initializer)
  | .block body => (st, ((st.enter []).stmts body).2)
  | .if_ condition thenBranch none =>
    match st.stmt thenBranch with
    | (st₁, found) => (st₁, st.expr condition ++ found)
  | .if_ condition thenBranch (some elseBranch) =>
    match st.stmt thenBranch with
    | (st₁, found) =>
      match st₁.stmt elseBranch with
      | (st₂, found₂) => (st₂, st.expr condition ++ found ++ found₂)
  | .while_ condition body =>
    match st.stmt body with
    | (st₁, found) => (st₁, st.expr condition ++ found)
  | .fun_ f =>
    let inside := (st.declare f.name).define f.name
    (inside, st.redeclaration f.name ++ inside.funDecl .function f)
  | .return_ keyword value => (st, st.returned keyword value.isSome ++ st.expr? value)
  | .class_ name superclass methods =>
    let inside := (st.declare name).define name
    (inside, st.redeclaration name ++ inside.superclass name superclass
      ++ (inside.methodsPlace superclass.isSome).methods methods)

/-- The place behind statements that follow each other, and their findings. -/
def stmts (st : Static) : List Stmt → Static × Findings
  | [] => (st, .none)
  | s :: ss =>
    match st.stmt s with
    | (st₁, found) =>
      match st₁.stmts ss with
      | (st₂, found₂) => (st₂, found ++ found₂)

/-- The findings of a function: its parameters and its body share one scope. -/
def funDecl (st : Static) (context : FunctionContext) : FunDeclOf Stmt → Findings
  | ⟨_, params, body⟩ =>
    match ({ st with function := context }.enter []).params params with
    | (st₁, found) => found ++ (st₁.stmts body).2

/-- The findings of the methods of a class. -/
def methods (st : Static) : List (FunDeclOf Stmt) → Findings
  | [] => .none
  | f :: fs => st.funDecl (methodContext f) f ++ st.methods fs

end

end Static

/-- The findings of a unit. -/
def findings (unit : List Stmt) : Findings :=
  (Static.top.stmts unit).2

end LoxWalk
