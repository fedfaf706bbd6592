import LoxWalk.NameMap
import LoxWalk.Number
import LoxWalk.Scope
import LoxWalk.Tree

/-!
# Values

What an expression can evaluate to.  Functions, classes and native functions never change once they
exist; they are equal only to themselves, and carry an identity for that purpose.  An instance is a
handle: its class is part of the handle, its fields are a record in the store.
-/

namespace LoxWalk

/-- The identity of a function, a class or a native function. -/
structure ObjectId where
  index : Nat
deriving DecidableEq

/-- The place of an instance's fields in the store. -/
structure RecordId where
  index : Nat
deriving DecidableEq

/-- A function that the host provides under a name. -/
structure Native where
  id : ObjectId
  name : String
  arity : Nat
deriving DecidableEq

/-- A function of the program with the scope in which it was declared. -/
structure Closure where
  id : ObjectId
  decl : FunDecl
  scope : Scope
  isInitializer : Bool

/-- What a class consists of apart from its superclass. -/
structure ClassBody where
  id : ObjectId
  name : String
  methods : NameMap Closure

/-- A class with the classes that it inherits from. -/
inductive Class where
  | base (own : ClassBody)
  | derived (own : ClassBody) (superclass : Class)

namespace Class

/-- What the class itself declares. -/
def own : Class → ClassBody
  | base c => c
  | derived c _ => c

/-- The class it inherits from. -/
def superclass? : Class → Option Class
  | base _ => none
  | derived _ s => some s

/-- The class and all classes that it inherits from, nearest first. -/
def lineage : Class → List ClassBody
  | base c => [c]
  | derived c s => c :: s.lineage

/-- The method with a given name: the class's own, or else that of the nearest class above it. -/
def method? : Class → String → Option Closure
  | base c, name => c.methods.get? name
  | derived c s, name =>
    match c.methods.get? name with
    | some f => some f
    | none => s.method? name

/-- A method comes from the nearest class that has one of that name. -/
theorem method?_eq_findSome? (c : Class) (name : String) :
    c.method? name = c.lineage.findSome? (·.methods.get? name) := by
  induction c with
  | base c => simp [method?, lineage]
  | derived c s ih =>
    rw [method?, lineage, List.findSome?_cons, ih]
    split <;> simp_all

end Class

/-- An instance of a class. -/
structure Instance where
  record : RecordId
  ofClass : Class

/-- A value. -/
inductive Value where
  | nil
  | bool (b : Bool)
  | number (x : Float)
  | string (s : String)
  | native (f : Native)
  | function (f : Closure)
  | class_ (c : Class)
  | instance_ (i : Instance)

/-- What is bound in one place. -/
abbrev Bindings := NameMap Value

/-- The constant that a literal stands for. -/
def Literal.value : Literal → Value
  | nil => .nil
  | bool b => .bool b
  | number x => .number x.toFloat
  | string s => .string s

namespace Closure

/-- How many arguments a function takes. -/
def arity (f : Closure) : Nat :=
  f.decl.params.length

/-- The name under which a function was declared. -/
def name (f : Closure) : String :=
  f.decl.name.lexeme

end Closure

namespace Value

/-- Only `nil` and `false` count as false. -/
def isTruthy : Value → Bool
  | nil => false
  | bool b => b
  | _ => true

/-- Equality as a program sees it: numbers as IEEE 754 compares them, strings by content, and
everything that has an identity by that. -/
def equals : Value → Value → Bool
  | nil, nil => true
  | bool a, bool b => a == b
  | number x, number y => x == y
  | string s, string t => s == t
  | native f, native g => f.id == g.id
  | function f, function g => f.id == g.id
  | class_ c, class_ d => c.own.id == d.own.id
  | instance_ i, instance_ j => i.record == j.record
  | _, _ => false

/-- How many arguments a value takes when it is called, if it can be called at all; a class takes
those of its initializer. -/
def arity? : Value → Option Nat
  | native f => some f.arity
  | function f => some f.arity
  | class_ c => some (((c.method? initializerName).map Closure.arity).getD 0)
  | _ => none

/-- A value as a program prints it. -/
def text : Value → String
  | nil => "nil"
  | bool true => "true"
  | bool false => "false"
  | number x => Number.display (.ofFloat x)
  | string s => s
  | native _ => "<native fn>"
  | function f => "<fn " ++ f.name ++ ">"
  | class_ c => c.own.name
  | instance_ i => i.ofClass.own.name ++ " instance"

end Value

end LoxWalk
