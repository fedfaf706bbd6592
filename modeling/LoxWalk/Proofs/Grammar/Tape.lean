import LoxWalk.Grammar

/-!
# Reading from a buffer with a position

The rules of `Cursor` hand on the tokens that are still to be read.  Here the same rules are written
for a buffer of all tokens and a position in it, which is what a reader in an imperative language
works with.  A token is looked up by its index (`Tape.peek`, `Tape.previous`), and there is no result
at all when the index is outside the buffer.  The rules call each other without regard to what is
left in the buffer; that they may be called `fuel` levels deep only keeps the recursion going, and
there is no result either when this is not enough.

`Tape.advance` is the only function that changes the position.  It notes the position that it leaves,
so that it can be seen afterwards which way the reader has taken.

That this reader always has a result with enough levels, and that it is the one of `Cursor`, is the
subject of `Positions`.
-/

namespace LoxWalk

/-- A buffer of tokens and the position of the reader, with the positions that it has left, the
latest first, the errors so far and the next free identity. -/
structure Tape where
  tokens : List Token
  current : Nat
  trail : List Nat
  errors : List ParseError
  nextId : Nat

namespace Tape

/-- Reading that moves along the tape. -/
abbrev Run := StateT Tape Option

/-- Reading that may break off with an error. -/
abbrev Attempt := ExceptT ParseError Run

/-- A tape with all tokens; an end mark is supplied if the last token is none. -/
def load (nextId : Nat) (ts : List Token) : Tape :=
  let tokens := match ts.getLast? with
    | some t => if t.isEof then ts else ts ++ [⟨.eof, "", t.line⟩]
    | none => [⟨.eof, "", 1⟩]
  ⟨tokens, 0, [], [], nextId⟩

/-! ## Single tokens -/

/-- Rules that are called too deep have no result. -/
def tooDeep {α : Type} : Run α :=
  fun _ => none

/-- The token at the position. -/
def peek : Run Token := do
  let s ← get
  s.tokens[s.current]?

/-- The token in front of the position. -/
def previous : Run Token := do
  let s ← get
  s.tokens[s.current - 1]?

/-- Whether the position is at an end mark. -/
def isAtEnd : Run Bool := do
  return (← peek).isEof

/-- Goes to the next token, unless the position is at an end mark. -/
def advance : Run Token := do
  if !(← isAtEnd) then
    modify fun s => { s with current := s.current + 1, trail := s.current :: s.trail }
  previous

/-- Whether the next token is of the kind `k`. -/
def check (k : TokenKind) : Run Bool := do
  if ← isAtEnd then
    return false
  return (← peek).kind == k

/-- Whether the next token is of one of the kinds `ks`. -/
def checkAny (ks : List TokenKind) : Run Bool :=
  ks.anyM check

/-- Reads a token of the kind `k` if it is next. -/
def takes (k : TokenKind) : Run Bool := do
  if ← check k then
    let _ ← advance
    return true
  return false

/-- Reads a token of the kind `k`, which has to be next. -/
def consume (k : TokenKind) (what : Expected) : Attempt Token := do
  if ← check k then
    advance
  else
    throw (.atToken (← peek) (.expected what))

/-- Records an error. -/
def report (e : ParseError) : Run Unit :=
  modify fun s => { s with errors := s.errors ++ [e] }

/-- A new identity. -/
def fresh : Run NodeId :=
  modifyGet fun s => (⟨s.nextId⟩, { s with nextId := s.nextId + 1 })

/-- Skips tokens up to the next statement. -/
def skip : Nat → Run Unit
  | 0 => tooDeep
  | fuel + 1 => do
    if ← isAtEnd then
      return
    if (← previous).isSymbol .semicolon then
      return
    if (← peek).startsStatement then
      return
    let _ ← advance
    skip fuel

/-- Skips the token at the position, which is in the way, and whatever follows it up to the next
statement. -/
def synchronize (fuel : Nat) : Run Unit := do
  let _ ← advance
  skip fuel

/-- Records an error about the next token if a list that holds `count` entries gets one more than it
may. -/
def checkArity (count : Nat) (fault : ParseFault) : Run Unit := do
  if maxArity ≤ count then
    report (.atToken (← peek) fault)

/-! ## Expressions -/

/-- The tree of `left = value`. -/
def assign (left : Expr) (equals : Token) (value : Expr) : Run Expr :=
  match left with
  | .var _ name => do
    return .assign (← fresh) name value
  | .get object name => return .set object name value
  | other => do
    report (.atToken equals .invalidTarget)
    return other

mutual

/-- An assignment, or anything that binds tighter. -/
def expression : Nat → Attempt Expr
  | 0 => ExceptT.mk tooDeep
  | fuel + 1 => do
    let left ← binary fuel .or
    if ← takes (.symbol .equal) then
      let equals ← previous
      let value ← expression fuel
      assign left equals value
    else
      return left

/-- Operators of the level `p` and their operands, grouped from the left. -/
def binary : Nat → Precedence → Attempt Expr
  | 0, _ => ExceptT.mk tooDeep
  | fuel + 1, p => do
    let left ← operand fuel p
    binaryRest fuel p left

/-- What the operators of the level `p` stand between. -/
def operand : Nat → Precedence → Attempt Expr
  | 0, _ => ExceptT.mk tooDeep
  | fuel + 1, p =>
    match p.tighter? with
    | some q => binary fuel q
    | none => unary fuel

/-- Further operators of the level `p` behind the operand `left`. -/
def binaryRest : Nat → Precedence → Expr → Attempt Expr
  | 0, _, _ => ExceptT.mk tooDeep
  | fuel + 1, p, left => do
    if ← checkAny p.operators then
      let operator ← advance
      let right ← operand fuel p
      binaryRest fuel p (p.node left operator right)
    else
      return left

/-- Prefixed operators and their operand. -/
def unary : Nat → Attempt Expr
  | 0 => ExceptT.mk tooDeep
  | fuel + 1 => do
    if ← takes (.symbol .bang) <||> takes (.symbol .minus) then
      let operator ← previous
      return .unary operator (← unary fuel)
    else
      callRest fuel (← primary fuel)

/-- Calls and property accesses behind the expression `e`. -/
def callRest : Nat → Expr → Attempt Expr
  | 0, _ => ExceptT.mk tooDeep
  | fuel + 1, e => do
    if ← takes (.symbol .leftParen) then
      callRest fuel (← finishCall fuel e)
    else if ← takes (.symbol .dot) then
      let name ← consume .identifier .propertyName
      callRest fuel (.get e name)
    else
      return e

/-- The arguments of a call and the closing parenthesis. -/
def finishCall : Nat → Expr → Attempt Expr
  | 0, _ => ExceptT.mk tooDeep
  | fuel + 1, callee => do
    let es ← if ← check (.symbol .rightParen) then pure [] else arguments fuel 0
    let paren ← consume (.symbol .rightParen) .argumentsClose
    return .call callee paren es

/-- At least one argument, behind `count` others. -/
def arguments : Nat → Nat → Attempt (List Expr)
  | 0, _ => ExceptT.mk tooDeep
  | fuel + 1, count => do
    checkArity count .tooManyArguments
    let e ← expression fuel
    if ← takes (.symbol .comma) then
      return e :: (← arguments fuel (count + 1))
    else
      return [e]

/-- A constant, a name, `this`, a superclass method or an expression in parentheses. -/
def primary : Nat → Attempt Expr
  | 0 => ExceptT.mk tooDeep
  | fuel + 1 => do
    if let some value := Cursor.literal? (← peek).kind then
      let _ ← advance
      return .literal value
    else if ← takes (.keyword .this_) then
      return .this (← fresh) (← previous)
    else if ← takes (.keyword .super_) then
      let keyword ← previous
      let _ ← consume (.symbol .dot) .superDot
      let method ← consume .identifier .superMethod
      return .super (← fresh) keyword method
    else if ← takes .identifier then
      return .var (← fresh) (← previous)
    else if ← takes (.symbol .leftParen) then
      let inner ← expression fuel
      let _ ← consume (.symbol .rightParen) .groupClose
      return .group inner
    else
      throw (.atToken (← peek) (.expected .expression))

end

/-! ## Statements -/

/-- An expression and the symbol behind it. -/
def terminated (fuel : Nat) (s : Symbol) (what : Expected) : Attempt Expr := do
  let e ← expression fuel
  let _ ← consume (.symbol s) what
  return e

/-- An expression, which may be left out, and the symbol behind it. -/
def optional (fuel : Nat) (s : Symbol) (what : Expected) : Attempt (Option Expr) := do
  let e ← if ← check (.symbol s) then pure none else some <$> expression fuel
  let _ ← consume (.symbol s) what
  return e

/-- An expression in parentheses. -/
def parenthesized (fuel : Nat) (opening closing : Expected) : Attempt Expr := do
  let _ ← consume (.symbol .leftParen) opening
  terminated fuel .rightParen closing

/-- A variable with its initializer, if it has one. -/
def variableDeclaration (fuel : Nat) : Attempt Stmt := do
  let name ← consume .identifier .variableName
  let initializer ← if ← takes (.symbol .equal) then some <$> expression fuel else pure none
  let _ ← consume (.symbol .semicolon) .variableEnd
  return .var name initializer

/-- An expression as a statement. -/
def expressionStatement (fuel : Nat) : Attempt Stmt := do
  return .expression (← terminated fuel .semicolon .expressionEnd)

/-- The first clause of a `for` loop with its semicolon. -/
def forInitializer (fuel : Nat) : Attempt (Option Stmt) := do
  if ← takes (.symbol .semicolon) then
    return none
  else if ← takes (.keyword .var_) then
    return some (← variableDeclaration fuel)
  else
    return some (← expressionStatement fuel)

/-- At least one parameter, behind `count` others. -/
def parameters : Nat → Nat → Attempt (List Token)
  | 0, _ => ExceptT.mk tooDeep
  | fuel + 1, count => do
    checkArity count .tooManyParameters
    let name ← consume .identifier .parameterName
    if ← takes (.symbol .comma) then
      return name :: (← parameters fuel (count + 1))
    else
      return [name]

/-- The parameters of a function up to the closing parenthesis. -/
def parameterList (fuel : Nat) : Attempt (List Token) := do
  let names ← if ← check (.symbol .rightParen) then pure [] else parameters fuel 0
  let _ ← consume (.symbol .rightParen) .parametersClose
  return names

/-- The superclass of a class, if one is named, and the brace behind it. -/
def classHeader : Attempt (Option Expr) := do
  if ← takes (.symbol .less) then
    let name ← consume .identifier .superclassName
    let _ ← consume (.symbol .leftBrace) .classBodyOpen
    return some (.var (← fresh) name)
  else
    let _ ← consume (.symbol .leftBrace) .classBodyOpen
    return none

mutual

/-- A declaration or statement; after an error, which is recorded, whatever is in the way is
skipped. -/
def declared : Nat → Run (Option Stmt)
  | 0 => tooDeep
  | fuel + 1 => do
    match ← ExceptT.run (declaration fuel) with
    | .ok s => return some s
    | .error e => do
      report e
      synchronize fuel
      return none

/-- A class, a function, a variable or a statement. -/
def declaration : Nat → Attempt Stmt
  | 0 => ExceptT.mk tooDeep
  | fuel + 1 => do
    if ← takes (.keyword .class_) then
      classDeclaration fuel
    else if ← takes (.keyword .fun_) then
      return .fun_ (← function fuel .function)
    else if ← takes (.keyword .var_) then
      variableDeclaration fuel
    else
      statement fuel

/-- The name, the superclass and the methods of a class. -/
def classDeclaration : Nat → Attempt Stmt
  | 0 => ExceptT.mk tooDeep
  | fuel + 1 => do
    let name ← consume .identifier .className
    let superclass ← classHeader
    return .class_ name superclass (← methods fuel)

/-- The methods of a class up to the closing brace. -/
def methods : Nat → Attempt (List FunDecl)
  | 0 => ExceptT.mk tooDeep
  | fuel + 1 => do
    if (← check (.symbol .rightBrace)) || (← isAtEnd) then
      let _ ← consume (.symbol .rightBrace) .classBodyClose
      return []
    else
      let f ← function fuel .method
      return f :: (← methods fuel)

/-- The name, the parameters and the body of a function. -/
def function : Nat → FunctionForm → Attempt FunDecl
  | 0, _ => ExceptT.mk tooDeep
  | fuel + 1, form => do
    let name ← consume .identifier (.functionName form)
    let _ ← consume (.symbol .leftParen) (.parametersOpen form)
    let params ← parameterList fuel
    let _ ← consume (.symbol .leftBrace) (.functionBodyOpen form)
    return ⟨name, params, ← block fuel⟩

/-- Declarations and statements up to a closing brace or an end mark. -/
def items : Nat → Run (List Stmt)
  | 0 => tooDeep
  | fuel + 1 => do
    if (← check (.symbol .rightBrace)) || (← isAtEnd) then
      return []
    else
      let s ← declared fuel
      return s.toList ++ (← items fuel)

/-- Declarations and statements up to the closing brace. -/
def block : Nat → Attempt (List Stmt)
  | 0 => ExceptT.mk tooDeep
  | fuel + 1 => do
    let ss ← items fuel
    let _ ← consume (.symbol .rightBrace) .blockClose
    return ss

/-- A statement that declares nothing itself. -/
def statement : Nat → Attempt Stmt
  | 0 => ExceptT.mk tooDeep
  | fuel + 1 => do
    if ← takes (.keyword .for_) then
      let _ ← consume (.symbol .leftParen) .forOpen
      let initializer ← forInitializer fuel
      let condition ← optional fuel .semicolon .loopConditionEnd
      let increment ← optional fuel .rightParen .forClose
      return .ofForClauses initializer condition increment (← statement fuel)
    else if ← takes (.keyword .if_) then
      let condition ← parenthesized fuel .ifOpen .ifClose
      let thenBranch ← statement fuel
      if ← takes (.keyword .else_) then
        return .if_ condition thenBranch (some (← statement fuel))
      else
        return .if_ condition thenBranch none
    else if ← takes (.keyword .while_) then
      let condition ← parenthesized fuel .whileOpen .whileClose
      return .while_ condition (← statement fuel)
    else if ← takes (.keyword .return_) then
      let keyword ← previous
      return .return_ keyword (← optional fuel .semicolon .returnEnd)
    else if ← takes (.symbol .leftBrace) then
      return .block (← block fuel)
    else if ← takes (.keyword .print_) then
      return .print (← terminated fuel .semicolon .printEnd)
    else
      expressionStatement fuel

end

/-- The declarations up to an end mark. -/
def declarations : Nat → Run (List Stmt)
  | 0 => tooDeep
  | fuel + 1 => do
    if ← isAtEnd then
      return []
    else
      let s ← declared fuel
      return s.toList ++ (← declarations fuel)

/-- Reads a whole program. -/
def program (fuel : Nat) : Run (Except (List ParseError) (List Stmt)) := do
  let statements ← declarations fuel
  let errors := (← get).errors
  return if errors.isEmpty then .ok statements else .error errors

/-- Reads an expression from the first tokens. -/
def wholeExpression (fuel : Nat) : Run (Except (List ParseError) Expr) := do
  match ← ExceptT.run (expression fuel) with
  | .ok e => do
    let errors := (← get).errors
    return if errors.isEmpty then .ok e else .error errors
  | .error e => do
    report e
    return .error (← get).errors

end Tape

end LoxWalk
