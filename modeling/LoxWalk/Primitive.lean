import LoxWalk.Machine

/-!
# Single steps

What a node does once its operands are values: operators, variables, properties, methods, and the
declarations of functions and classes.  Nothing here runs a part of the program.
-/

namespace LoxWalk

/-! ## Operators -/

/-- The result of a unary operator. -/
def applyUnary (operator : Token) (v : Value) : Except RuntimeFault Value :=
  if operator.isSymbol .minus then
    match v with
    | .number x => .ok (.number (-x))
    | _ => .error .operandNotNumber
  else if operator.isSymbol .bang then
    .ok (.bool !v.isTruthy)
  else
    .error .notUnaryOperator

/-- The sum of two numbers, or two strings put together. -/
def add : Value → Value → Except RuntimeFault Value
  | .number x, .number y => .ok (.number (x + y))
  | .string s, .string t => .ok (.string (s ++ t))
  | _, _ => .error .operandsNotAddable

/-- The result of an operator that takes two numbers. -/
def arithmetic (operator : Token) (x y : Float) : Except RuntimeFault Value :=
  match operator.kind with
  | .symbol .minus => .ok (.number (x - y))
  | .symbol .star => .ok (.number (x * y))
  | .symbol .slash => .ok (.number (x / y))
  | .symbol .greater => .ok (.bool (y < x))
  | .symbol .greaterEqual => .ok (.bool (y ≤ x))
  | .symbol .less => .ok (.bool (x < y))
  | .symbol .lessEqual => .ok (.bool (x ≤ y))
  | _ => .error .notBinaryOperator

/-- The result of a binary operator: any two values can be compared for equality, numbers and
strings can be added, and all else is for numbers. -/
def applyBinary (operator : Token) (a b : Value) : Except RuntimeFault Value :=
  match operator.kind with
  | .symbol .plus => add a b
  | .symbol .equalEqual => .ok (.bool (a.equals b))
  | .symbol .bangEqual => .ok (.bool !a.equals b)
  | _ =>
    match a, b with
    | .number x, .number y => arithmetic operator x y
    | _, _ => .error .operandsNotNumbers

/-- Whether the left operand of `or` or `and` decides the result already. -/
def decidesAlone (operator : Token) (left : Value) : Bool :=
  if operator.isKeyword .or_ then left.isTruthy else !left.isTruthy

namespace Exec

/-- The outcome of an operator; a fault is reported at the operator. -/
def operate (operator : Token) (outcome : Except RuntimeFault Value) : Exec Value :=
  match outcome with
  | .ok v => pure v
  | .error e => fault operator e

/-! ## Variables -/

/-- The value of a variable: at its distance if it has one, or else at the top level. -/
def readVariable (s : Setting) (id : NodeId) (name : Token) : Exec Value := do
  let m ← get
  let found := match s.distances.distance? id with
    | some d => m.store.getAt? m.scope d name.lexeme
    | none => m.store.get? s.globals name.lexeme
  match found with
  | some v => pure v
  | none => fault name (.undefinedVariable name.lexeme)

/-- Gives a variable a new value; the variable has to exist. -/
def assignVariable (s : Setting) (id : NodeId) (name : Token) (v : Value) : Exec Unit := do
  let m ← get
  let owner := match s.distances.distance? id with
    | some d => m.store.ownerAt? m.scope d name.lexeme
    | none => m.store.owner? s.globals name.lexeme
  match owner with
  | some scope => modifyStore (·.define scope name.lexeme v)
  | none => fault name (.undefinedVariable name.lexeme)

/-- Declares a name in the current scope. -/
def define (name : Token) (v : Value) : Exec Unit :=
  modify fun m => { m with store := m.store.define m.scope name.lexeme v }

/-- A new scope inside `outer` with a frame that holds the given bindings. -/
def newScope (outer : Scope) (bindings : Bindings) : Exec Scope := do
  let frame := (← get).store.freshFrame
  modifyStore (·.addFrame bindings)
  return .inside frame outer

/-- The identity of a new object. -/
def newObject : Exec ObjectId := do
  let id := (← get).store.freshObject
  modifyStore (·.useObject)
  return id

/-! ## Functions, classes and instances -/

/-- A function that is declared in `scope`. -/
def newClosure (decl : FunDecl) (scope : Scope) (isInitializer : Bool) : Exec Closure := do
  return ⟨← newObject, decl, scope, isInitializer⟩

/-- A method of an instance: a function of its own, around which one more scope holds the
instance. -/
def bindMethod (f : Closure) (i : Instance) : Exec Closure := do
  let scope ← newScope f.scope (NameMap.empty.insert thisName (.instance_ i))
  newClosure f.decl scope f.isInitializer

/-- The instance that an initializer makes ready. -/
def boundInstance (f : Closure) : Exec Value := do
  return ((← get).store.getLocal? f.scope thisName).getD .nil

/-- A new instance without fields. -/
def newInstance (c : Class) : Exec Instance := do
  let record := (← get).store.freshRecord
  modifyStore (·.addRecord)
  return ⟨record, c⟩

/-- The methods of a class that is declared in `scope`; the last of several with one name counts. -/
def newMethods (scope : Scope) : List FunDecl → NameMap Closure → Exec (NameMap Closure)
  | [], table => pure table
  | decl :: decls, table => do
    let f ← newClosure decl scope decl.isInitializer
    newMethods scope decls (table.insert decl.name.lexeme f)

/-- The class that a superclass evaluates to; a fault is reported at the superclass if it is a
name, and else at the name of the class that inherits from it. -/
def superclassOf (name : Token) (e : Expr) (v : Value) : Exec Class :=
  match v with
  | .class_ c => pure c
  | _ =>
    match e with
    | .var _ superclass => fault superclass .superclassNotClass
    | _ => fault name .superclassNotClass

/-- Declares a class whose superclass is known.  Its name is bound first, so that the methods see
it. -/
def declareClass (name : Token) (superclass : Option Class) (methods : List FunDecl) :
    Exec Unit := do
  define name .nil
  let here := (← get).scope
  let scope ← match superclass with
    | some c => newScope here (NameMap.empty.insert superName (.class_ c))
    | none => pure here
  let table ← newMethods scope methods .empty
  let own : ClassBody := ⟨← newObject, name.lexeme, table⟩
  define name (.class_ (match superclass with
    | some c => .derived own c
    | none => .base own))

/-! ## Properties -/

/-- A property of an instance: its field of that name, or else the method of its class. -/
def getProperty (v : Value) (name : Token) : Exec Value := do
  match v with
  | .instance_ i =>
    match (← get).store.field? i.record name.lexeme with
    | some v => pure v
    | none =>
      match i.ofClass.method? name.lexeme with
      | some f => return .function (← bindMethod f i)
      | none => fault name (.undefinedProperty name.lexeme)
  | _ => fault name .propertyOfNonInstance

/-- The instance whose field is to be set. -/
def fieldOwner (v : Value) (name : Token) : Exec Instance :=
  match v with
  | .instance_ i => pure i
  | _ => fault name .fieldOfNonInstance

/-- The method that `super` means: that of the superclass of the class around it, for the instance
at hand. -/
def superMethod (s : Setting) (id : NodeId) (keyword method : Token) : Exec Value := do
  let m ← get
  match s.distances.distance? id with
  | none => fault keyword (.undefinedVariable superName)
  | some d =>
    match m.store.getAt? m.scope d superName, m.store.getAt? m.scope (d - 1) thisName with
    | some (.class_ c), some (.instance_ i) =>
      match c.method? method.lexeme with
      | some f => return .function (← bindMethod f i)
      | none => fault method (.undefinedProperty method.lexeme)
    | _, _ => fault keyword (.undefinedVariable superName)

/-! ## Output -/

/-- Prints a value on a line of its own. -/
def print (v : Value) : Exec Unit := fun m =>
  match m.output.writeLine v.text with
  | (true, output) => .ok () { m with output := output }
  | (false, output) => .error .channelFull { m with output := output }

end Exec

end LoxWalk
