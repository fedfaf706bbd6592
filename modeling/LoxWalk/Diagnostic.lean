import LoxWalk.Token

/-!
# Diagnostics

What can be wrong with a program, by cause: a text that is no token, tokens that are no program, a
program that breaks a static rule, and a check that fails while it runs.  The wording of every
message is in this module, one function for each kind of cause.

The first three kinds are static: a unit with one of them is refused before anything runs.
-/

namespace LoxWalk

/-! ## Texts that are no token -/

/-- What keeps a text from being a sequence of tokens. -/
inductive ScanFault where
  | unexpectedCharacter (c : Char)
  | unterminatedString
deriving DecidableEq

/-- A fault of the text and the line on which it ends. -/
structure ScanError where
  line : Nat
  fault : ScanFault
deriving DecidableEq

namespace ScanFault

/-- The wording of a fault. -/
def message : ScanFault → String
  | unexpectedCharacter c => "Unexpected character: " ++ c.toString
  | unterminatedString => "Unterminated string."

end ScanFault

/-! ## Tokens that are no program -/

/-- A function has a different name in messages when it is declared inside a class. -/
inductive FunctionForm where
  | function
  | method
deriving DecidableEq

/-- The wording of a form. -/
def FunctionForm.noun : FunctionForm → String
  | function => "function"
  | method => "method"

/-- What the grammar demands at a place where something else stands. -/
inductive Expected where
  | className
  | superclassName
  | classBodyOpen
  | classBodyClose
  | functionName (form : FunctionForm)
  | parametersOpen (form : FunctionForm)
  | parameterName
  | parametersClose
  | functionBodyOpen (form : FunctionForm)
  | variableName
  | variableEnd
  | forOpen
  | loopConditionEnd
  | forClose
  | printEnd
  | expressionEnd
  | ifOpen
  | ifClose
  | whileOpen
  | whileClose
  | returnEnd
  | blockClose
  | argumentsClose
  | propertyName
  | superDot
  | superMethod
  | groupClose
  | expression
deriving DecidableEq

/-- What keeps a sequence of tokens from being a program. -/
inductive ParseFault where
  | expected (what : Expected)
  | tooManyParameters
  | tooManyArguments
  | invalidTarget
deriving DecidableEq

namespace Expected

/-- The wording of a demand. -/
def message : Expected → String
  | className => "Expect class name."
  | superclassName => "Expect superclass name."
  | classBodyOpen => "Expect '\x7b' before class body."
  | classBodyClose => "Expect '\x7d' after class body."
  | functionName form => "Expect " ++ form.noun ++ " name."
  | parametersOpen form => "Expect '(' after " ++ form.noun ++ " name."
  | parameterName => "Expect parameter name."
  | parametersClose => "Expect ')' after parameters."
  | functionBodyOpen form => "Expect '\x7b' before " ++ form.noun ++ " body."
  | variableName => "Expect variable name."
  | variableEnd => "Expect ';' after variable declaration."
  | forOpen => "Expect '(' after 'for'."
  | loopConditionEnd => "Expect ';' after loop condition."
  | forClose => "Expect ')' after for clauses."
  | printEnd => "Expect ';' after value."
  | expressionEnd => "Expect ';' after expression."
  | ifOpen => "Expect '(' after 'if'."
  | ifClose => "Expect ')' after if condition."
  | whileOpen => "Expect '(' after 'while'."
  | whileClose => "Expect ')' after condition."
  | returnEnd => "Expect ';' after return value."
  | blockClose => "Expect '\x7d' after block."
  | argumentsClose => "Expect ')' after arguments."
  | propertyName => "Expect property name after '.'."
  | superDot => "Expect '.' after 'super'."
  | superMethod => "Expect superclass method name."
  | groupClose => "Expect ')' after expression."
  | expression => "Expect expression."

end Expected

namespace ParseFault

/-- The wording of a fault. -/
def message : ParseFault → String
  | expected what => what.message
  | tooManyParameters => "Can't have more than 255 parameters."
  | tooManyArguments => "Can't have more than 255 arguments."
  | invalidTarget => "Invalid assignment target."

end ParseFault

/-- Where a static error stands: at a lexeme, or at the end of the input. -/
inductive Place where
  | lexeme (text : String)
  | end_
deriving DecidableEq

namespace Place

/-- The place of a token. -/
def ofToken (t : Token) : Place :=
  if t.isEof then end_ else lexeme t.lexeme

/-- The wording of a place. -/
def text : Place → String
  | lexeme s => " at '" ++ s ++ "'"
  | end_ => " at end"

end Place

/-- A fault of the grammar with its line and place. -/
structure ParseError where
  line : Nat
  place : Place
  fault : ParseFault
deriving DecidableEq

/-- A fault of the grammar at a token. -/
def ParseError.atToken (t : Token) (fault : ParseFault) : ParseError :=
  ⟨t.line, .ofToken t, fault⟩

/-! ## Programs that break a static rule -/

/-- The static rules of a program, by how they are broken. -/
inductive ResolveFault where
  | readInOwnInitializer
  | declaredTwice
  | returnAtTopLevel
  | valueFromInitializer
  | thisOutsideClass
  | superOutsideClass
  | superWithoutSuperclass
  | inheritsFromItself
deriving DecidableEq

namespace ResolveFault

/-- The wording of a fault. -/
def message : ResolveFault → String
  | readInOwnInitializer => "Can't read local variable in its own initializer."
  | declaredTwice => "Already a variable with this name in this scope."
  | returnAtTopLevel => "Can't return from top-level code."
  | valueFromInitializer => "Can't return a value from an initializer."
  | thisOutsideClass => "Can't use 'this' outside of a class."
  | superOutsideClass => "Can't use 'super' outside of a class."
  | superWithoutSuperclass => "Can't use 'super' in a class with no superclass."
  | inheritsFromItself => "A class can't inherit from itself."

end ResolveFault

/-- A broken rule with its line and place. -/
structure ResolveError where
  line : Nat
  place : Place
  fault : ResolveFault
deriving DecidableEq

/-- A rule broken at a token. -/
def ResolveError.atToken (t : Token) (fault : ResolveFault) : ResolveError :=
  ⟨t.line, .ofToken t, fault⟩

/-! ## Checks that fail while a program runs -/

/-- What a running program can do wrong. -/
inductive RuntimeFault where
  | undefinedVariable (name : String)
  | undefinedProperty (name : String)
  | operandNotNumber
  | operandsNotNumbers
  | operandsNotAddable
  | notUnaryOperator
  | notBinaryOperator
  | notCallable
  | wrongArity (expected given : Nat)
  | stackOverflow
  | propertyOfNonInstance
  | fieldOfNonInstance
  | superclassNotClass
  | native (message : String)
deriving DecidableEq

namespace RuntimeFault

/-- The wording of a fault. -/
def message : RuntimeFault → String
  | undefinedVariable name => "Undefined variable '" ++ name ++ "'."
  | undefinedProperty name => "Undefined property '" ++ name ++ "'."
  | operandNotNumber => "Operand must be a number."
  | operandsNotNumbers => "Operands must be numbers."
  | operandsNotAddable => "Operands must be two numbers or two strings."
  | notUnaryOperator => "Invalid unary operator."
  | notBinaryOperator => "Invalid binary operator."
  | notCallable => "Can only call functions and classes."
  | wrongArity expected given =>
    "Expected " ++ Nat.repr expected ++ " arguments but got " ++ Nat.repr given ++ "."
  | stackOverflow => "Stack overflow."
  | propertyOfNonInstance => "Only instances have properties."
  | fieldOfNonInstance => "Only instances have fields."
  | superclassNotClass => "Superclass must be a class."
  | native message => message

end RuntimeFault

/-- A failed check with the lexeme and the line at which it failed. -/
structure RuntimeError where
  line : Nat
  lexeme : String
  fault : RuntimeFault
deriving DecidableEq

/-- A check that fails at a token. -/
def RuntimeError.atToken (t : Token) (fault : RuntimeFault) : RuntimeError :=
  ⟨t.line, t.lexeme, fault⟩

/-! ## All of them together -/

/-- Anything that a session reports. -/
inductive Diagnostic where
  | scan (e : ScanError)
  | parse (e : ParseError)
  | resolve (e : ResolveError)
  | runtime (e : RuntimeError)
  | channelFull
deriving DecidableEq

namespace Diagnostic

/-- The wording without line and place. -/
def message : Diagnostic → String
  | scan e => e.fault.message
  | parse e => e.fault.message
  | resolve e => e.fault.message
  | runtime e => e.fault.message
  | channelFull => "channel full"

/-- The line that is meant, if one is. -/
def line? : Diagnostic → Option Nat
  | scan e => some e.line
  | parse e => some e.line
  | resolve e => some e.line
  | runtime e => some e.line
  | channelFull => none

/-- Whether a unit with this diagnostic is refused before it runs. -/
def isStatic : Diagnostic → Bool
  | scan _ => true
  | parse _ => true
  | resolve _ => true
  | runtime _ => false
  | channelFull => false

/-- The diagnostic as it is reported, without a newline. -/
def text (d : Diagnostic) : String :=
  match d with
  | scan e => located e.line "Error"
  | parse e => located e.line ("Error" ++ e.place.text)
  | resolve e => located e.line ("Error" ++ e.place.text)
  | runtime e => located e.line ("Runtime error at '" ++ e.lexeme ++ "'")
  | channelFull => d.message
where
  /-- The line in brackets, what happened there, and the message. -/
  located (line : Nat) (what : String) : String :=
    "[line " ++ Nat.repr line ++ "] " ++ what ++ ": " ++ d.message

end Diagnostic

end LoxWalk
