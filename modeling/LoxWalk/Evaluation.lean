import LoxWalk.Primitive

/-!
# Evaluation

Expressions evaluate to values, statements are executed.  Both walk the tree; operands go from left
to right, and an interruption ends everything around it up to the call whose body it leaves, if it
is a `return`, and up to the unit otherwise.

A program can run forever, so evaluation gets `fuel`: every nested evaluation and every round of a
loop takes one unit of it, and `Interrupt.outOfFuel` says that it was not enough.  That outcome is
no outcome of the program; with more fuel it goes away or comes later, and all others stay.
-/

namespace LoxWalk

open Exec

mutual

/-- Evaluates an expression. -/
def evaluate (s : Setting) : Nat → Expr → Exec Value
  | 0, _ => throw .outOfFuel
  | _ + 1, .literal value => pure value.value
  | fuel + 1, .group inner => evaluate s fuel inner
  | fuel + 1, .unary operator operand => do
    let v ← evaluate s fuel operand
    operate operator (applyUnary operator v)
  | fuel + 1, .binary left operator right => do
    let a ← evaluate s fuel left
    let b ← evaluate s fuel right
    operate operator (applyBinary operator a b)
  | fuel + 1, .logical left operator right => do
    let a ← evaluate s fuel left
    if decidesAlone operator a then pure a else evaluate s fuel right
  | _ + 1, .var id name => readVariable s id name
  | fuel + 1, .assign id name value => do
    let v ← evaluate s fuel value
    assignVariable s id name v
    pure v
  | fuel + 1, .call callee paren arguments => do
    let f ← evaluate s fuel callee
    let vs ← evaluateAll s fuel arguments
    call s fuel f paren vs
  | fuel + 1, .get object name => do
    let v ← evaluate s fuel object
    getProperty v name
  | fuel + 1, .set object name value => do
    let owner ← fieldOwner (← evaluate s fuel object) name
    let v ← evaluate s fuel value
    modifyStore (·.setField owner.record name.lexeme v)
    pure v
  | _ + 1, .this id keyword => readVariable s id keyword
  | _ + 1, .super id keyword method => superMethod s id keyword method

/-- Evaluates expressions from left to right. -/
def evaluateAll (s : Setting) : Nat → List Expr → Exec (List Value)
  | 0, _ => throw .outOfFuel
  | _ + 1, [] => pure []
  | fuel + 1, e :: es => do
    let v ← evaluate s fuel e
    let vs ← evaluateAll s fuel es
    pure (v :: vs)

/-- Calls a value: it has to be callable, to get as many arguments as it takes, and not to go
deeper than calls may. -/
def call (s : Setting) : Nat → Value → Token → List Value → Exec Value
  | 0, _, _, _ => throw .outOfFuel
  | fuel + 1, callee, paren, arguments =>
    match callee.arity? with
    | none => fault paren .notCallable
    | some arity =>
      if arguments.length ≠ arity then
        fault paren (.wrongArity arity arguments.length)
      else do
        let depth := (← get).callDepth
        if s.maxCallDepth ≤ depth then
          fault paren .stackOverflow
        else
          asCall (withStackFor depth (enter s fuel callee paren arguments))

/-- Does what a callable value does when it is called; a class makes an instance and has its
initializer make it ready. -/
def enter (s : Setting) : Nat → Value → Token → List Value → Exec Value
  | 0, _, _, _ => throw .outOfFuel
  | fuel + 1, callee, paren, arguments =>
    match callee with
    | .native f =>
      match s.host f.name arguments with
      | .ok v => pure v
      | .error message => fault paren (.native message)
    | .function f => run s fuel f arguments
    | .class_ c => do
      let i ← newInstance c
      match c.method? initializerName with
      | some init => do
        let _ ← run s fuel (← bindMethod init i) arguments
        pure (.instance_ i)
      | none => pure (.instance_ i)
    | _ => fault paren .notCallable

/-- Runs the body of a function with its parameters bound; an initializer yields its instance
however its body ends. -/
def run (s : Setting) : Nat → Closure → List Value → Exec Value
  | 0, _, _ => throw .outOfFuel
  | fuel + 1, f, arguments => do
    let scope ← newScope f.scope
      (NameMap.empty.insertAll ((f.decl.params.map Token.lexeme).zip arguments))
    let v ← catchReturn (inScope scope (executeAll s fuel f.decl.body))
    if f.isInitializer then boundInstance f else pure v

/-- Executes a statement. -/
def execute (s : Setting) : Nat → Stmt → Exec Unit
  | 0, _ => throw .outOfFuel
  | fuel + 1, .expression e => do
    let _ ← evaluate s fuel e
    pure ()
  | fuel + 1, .print e => do
    let v ← evaluate s fuel e
    print v
  | _ + 1, .var name none => define name .nil
  | fuel + 1, .var name (some e) => do
    let v ← evaluate s fuel e
    define name v
  | fuel + 1, .block body => do
    let scope ← newScope (← get).scope .empty
    inScope scope (executeAll s fuel body)
  | fuel + 1, .if_ condition thenBranch elseBranch => do
    let v ← evaluate s fuel condition
    if v.isTruthy then
      execute s fuel thenBranch
    else
      match elseBranch with
      | some branch => execute s fuel branch
      | none => pure ()
  | fuel + 1, .while_ condition body => repeatWhile s fuel condition body
  | _ + 1, .fun_ decl => do
    let f ← newClosure decl (← get).scope false
    define decl.name (.function f)
  | _ + 1, .return_ _ none => throw (.returning .nil)
  | fuel + 1, .return_ _ (some e) => do
    let v ← evaluate s fuel e
    throw (.returning v)
  | _ + 1, .class_ name none methods => declareClass name none methods
  | fuel + 1, .class_ name (some e) methods => do
    let v ← evaluate s fuel e
    let superclass ← superclassOf name e v
    declareClass name (some superclass) methods

/-- Executes statements one after the other. -/
def executeAll (s : Setting) : Nat → List Stmt → Exec Unit
  | 0, _ => throw .outOfFuel
  | _ + 1, [] => pure ()
  | fuel + 1, t :: ts => do
    execute s fuel t
    executeAll s fuel ts

/-- Executes `body` as long as `condition` holds. -/
def repeatWhile (s : Setting) : Nat → Expr → Stmt → Exec Unit
  | 0, _, _ => throw .outOfFuel
  | fuel + 1, condition, body => do
    let v ← evaluate s fuel condition
    if v.isTruthy then
      execute s fuel body
      repeatWhile s fuel condition body
    else
      pure ()

end

end LoxWalk
