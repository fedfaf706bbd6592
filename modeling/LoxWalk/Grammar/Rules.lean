import LoxWalk.Diagnostic
import LoxWalk.Tree

/-!
# Reading tokens from left to right

A `Cursor` is a place between two tokens: the tokens that are still to be read, the complaints made
so far, and the identity of the next node.  A rule of the grammar is a function from a cursor to a
`Step`: either a tree and a later cursor, or a complaint and the cursor at which reading broke off.

A step carries the proof that its cursor has moved on, so the rules may call each other freely: the
number of tokens that are left bounds the recursion.  `Step.andThen` puts two steps one after the
other.
-/

namespace LoxWalk

/-- A fault of the grammar at the token where it was noticed; no token means the end of the
input. -/
structure Complaint where
  token? : Option Token
  fault : ParseFault
deriving DecidableEq

namespace Complaint

/-- The error that a complaint amounts to when the input ends on line `endLine`. -/
def toError (endLine : Nat) (c : Complaint) : ParseError :=
  match c.token? with
  | some t => .atToken t c.fault
  | none => ⟨endLine, .end_, c.fault⟩

end Complaint

/-- The tokens that are still to be read, the complaints so far, the latest first, and the next free
identity. -/
structure Cursor where
  rest : List Token
  complaints : List Complaint
  nextId : Nat

/-- What a rule makes of `n` tokens or fewer: a result and a later cursor, or a complaint and the
cursor at which reading broke off. -/
inductive Step (α : Type) (n : Nat) where
  | ok (result : α) (next : Cursor) (shorter : next.rest.length < n)
  | failed (complaint : Complaint) (stuck : Cursor) (notLonger : stuck.rest.length ≤ n)

namespace Step

/-- Goes on with the result of a step; a complaint ends both. -/
@[inline]
def andThen {α β : Type} {m n : Nat} (x : Step α m)
    (f : (a : α) → (c : Cursor) → c.rest.length < m → Step β n) (h : m ≤ n := by omega) :
    Step β n :=
  match x with
  | ok a c hc => f a c hc
  | failed e c hc => failed e c (Nat.le_trans hc h)

/-- A step from fewer tokens is a step from more. -/
@[inline]
def widen {α : Type} {m n : Nat} (x : Step α m) (h : m ≤ n := by omega) : Step α n :=
  match x with
  | ok a c hc => ok a c (Nat.lt_of_lt_of_le hc h)
  | failed e c hc => failed e c (Nat.le_trans hc h)

end Step

/-- A token that was read, and the cursor behind it. -/
structure Taken (c : Cursor) where
  token : Token
  next : Cursor
  shorter : next.rest.length < c.rest.length

namespace Cursor

/-- Makes a complaint and goes on. -/
def report (c : Cursor) (e : Complaint) : Cursor :=
  { c with complaints := e :: c.complaints }

@[simp]
theorem rest_report (c : Cursor) (e : Complaint) : (c.report e).rest = c.rest := rfl

/-- The next free identity. -/
def freshId (c : Cursor) : NodeId :=
  ⟨c.nextId⟩

/-- Marks the next free identity as used. -/
def useId (c : Cursor) : Cursor :=
  { c with nextId := c.nextId + 1 }

@[simp]
theorem rest_useId (c : Cursor) : c.useId.rest = c.rest := rfl

/-- A complaint about the next token. -/
def complaint (c : Cursor) (fault : ParseFault) : Complaint :=
  ⟨c.rest.head?, fault⟩

/-- Whether the next token is of the kind `k`. -/
def sees (c : Cursor) (k : TokenKind) : Bool :=
  c.rest.head?.any (·.kind == k)

/-- Reads the next token if it passes the test `p`. -/
def takeIf? (c : Cursor) (p : Token → Bool) : Option (Taken c) :=
  match h : c.rest with
  | [] => none
  | t :: ts => if p t then some ⟨t, { c with rest := ts }, by simp [h]⟩ else none

/-- Reads the next token if it is of the kind `k`. -/
def take? (c : Cursor) (k : TokenKind) : Option (Taken c) :=
  c.takeIf? (·.kind == k)

/-- Reads the symbol `s` if it is next. -/
def symbol? (c : Cursor) (s : Symbol) : Option (Taken c) :=
  c.take? (.symbol s)

/-- Reads the reserved word `k` if it is next. -/
def keyword? (c : Cursor) (k : Keyword) : Option (Taken c) :=
  c.take? (.keyword k)

/-- Breaks off with a complaint about the next token. -/
def fail {α : Type} {n : Nat} (c : Cursor) (fault : ParseFault)
    (h : c.rest.length ≤ n := by omega) : Step α n :=
  .failed (c.complaint fault) c h

/-- Reads a token of the kind `k`, which has to be next. -/
def expect (c : Cursor) (k : TokenKind) (what : Expected) : Step Token c.rest.length :=
  match c.take? k with
  | some ⟨t, c₁, h⟩ => .ok t c₁ h
  | none => c.fail (.expected what)

end Cursor

/-!
## The grammar of expressions

    expression → assignment
    assignment → ( call "." )? IDENTIFIER "=" assignment | or
    or         → and        ( "or" and )*
    and        → equality   ( "and" equality )*
    equality   → comparison ( ( "!=" | "==" ) comparison )*
    comparison → term       ( ( ">" | ">=" | "<" | "<=" ) term )*
    term       → factor     ( ( "-" | "+" ) factor )*
    factor     → unary      ( ( "/" | "*" ) unary )*
    unary      → ( "!" | "-" ) unary | call
    call       → primary ( "(" arguments? ")" | "." IDENTIFIER )*
    arguments  → expression ( "," expression )*
    primary    → NUMBER | STRING | "true" | "false" | "nil" | "this" | IDENTIFIER
               | "(" expression ")" | "super" "." IDENTIFIER

The six rules of binary operators are one rule with a `Precedence`.  What stands in front of `=` is
read as an `or` first and looked at afterwards; when it can not be assigned to, there is a complaint
about the `=` and the assigned value is dropped.
-/

/-- Lists of parameters and of arguments have at most this many entries. -/
def maxArity : Nat :=
  255

/-- The levels of binary operators, from the loosest to the tightest. -/
inductive Precedence where
  | or
  | and
  | equality
  | comparison
  | term
  | factor
deriving DecidableEq

namespace Precedence

/-- The operators of a level. -/
def operators : Precedence → List TokenKind
  | or => [.keyword .or_]
  | and => [.keyword .and_]
  | equality => [.symbol .bangEqual, .symbol .equalEqual]
  | comparison => [.symbol .greater, .symbol .greaterEqual, .symbol .less, .symbol .lessEqual]
  | term => [.symbol .minus, .symbol .plus]
  | factor => [.symbol .slash, .symbol .star]

/-- The level whose expressions are the operands of this level; the operands of the tightest level
are unary. -/
def tighter? : Precedence → Option Precedence
  | or => some and
  | and => some equality
  | equality => some comparison
  | comparison => some term
  | term => some factor
  | factor => none

/-- The levels that are tighter, by their number. -/
def height : Precedence → Nat
  | or => 5
  | and => 4
  | equality => 3
  | comparison => 2
  | term => 1
  | factor => 0

theorem height_le (p : Precedence) : p.height ≤ 5 := by
  cases p <;> decide

theorem height_lt_of_tighter? {p q : Precedence} (h : p.tighter? = some q) :
    q.height < p.height := by
  cases p <;> simp [tighter?] at h <;> subst h <;> decide

/-- The tree of an operator of this level with its operands; only `or` and `and` may leave their
right operand alone. -/
def node (p : Precedence) (left : Expr) (operator : Token) (right : Expr) : Expr :=
  match p with
  | or => .logical left operator right
  | and => .logical left operator right
  | _ => .binary left operator right

end Precedence

namespace Cursor

/-- The tree of `left = value`, read up to the cursor `c`; a left side that can not be assigned to
stands for the whole, with a complaint about the equals sign. -/
def assign (c : Cursor) (left : Expr) (equals : Token) (value : Expr) : Expr × Cursor :=
  match left with
  | .var _ name => (.assign c.freshId name value, c.useId)
  | .get object name => (.set object name value, c)
  | other => (other, c.report ⟨some equals, .invalidTarget⟩)

@[simp]
theorem rest_assign (c : Cursor) (left : Expr) (equals : Token) (value : Expr) :
    (c.assign left equals value).2.rest = c.rest := by
  unfold assign
  split <;> rfl

/-- Complains about the next token when a list that holds `count` entries already gets one more
than it may. -/
def checkArity (c : Cursor) (count : Nat) (fault : ParseFault) : Cursor :=
  if maxArity ≤ count then c.report (c.complaint fault) else c

@[simp]
theorem rest_checkArity (c : Cursor) (count : Nat) (fault : ParseFault) :
    (c.checkArity count fault).rest = c.rest := by
  unfold checkArity
  split <;> rfl

/-- The constant that a token stands for, if it is one. -/
def literal? (k : TokenKind) : Option Literal :=
  match k with
  | .keyword .false_ => some (.bool false)
  | .keyword .true_ => some (.bool true)
  | .keyword .nil_ => some .nil
  | .number x => some (.number x)
  | .string s => some (.string s)
  | _ => none

mutual

/-- An assignment, or anything that binds tighter. -/
def expression (c : Cursor) : Step Expr c.rest.length :=
  (binary .or c).andThen fun left c₁ _ =>
    match c₁.symbol? .equal with
    | none => .ok left c₁ (by omega)
    | some ⟨equals, c₂, _⟩ =>
      (expression c₂).andThen fun value c₃ _ =>
        .ok (c₃.assign left equals value).1 (c₃.assign left equals value).2
          (by rw [rest_assign]; omega)
termination_by c.rest.length * 16 + 15
decreasing_by
  · simp only [Precedence.height]
    omega
  · omega

/-- Operators of the level `p` and their operands, grouped from the left. -/
def binary (p : Precedence) (c : Cursor) : Step Expr c.rest.length :=
  match _h : p.tighter? with
  | some q => (binary q c).andThen fun left c₁ _ => (binaryRest p left c₁).widen
  | none => (unary c).andThen fun left c₁ _ => (binaryRest p left c₁).widen
termination_by c.rest.length * 16 + 7 + p.height
decreasing_by
  all_goals have := p.height_le
  · have := Precedence.height_lt_of_tighter? _h
    omega
  all_goals omega

/-- Further operators of the level `p` behind the operand `left`. -/
def binaryRest (p : Precedence) (left : Expr) (c : Cursor) : Step Expr (c.rest.length + 1) :=
  match c.takeIf? (p.operators.contains ·.kind) with
  | none => .ok left c (by omega)
  | some ⟨operator, c₁, _⟩ =>
    match _h : p.tighter? with
    | some q =>
      (binary q c₁).andThen fun right c₂ _ =>
        (binaryRest p (p.node left operator right) c₂).widen
    | none =>
      (unary c₁).andThen fun right c₂ _ =>
        (binaryRest p (p.node left operator right) c₂).widen
termination_by c.rest.length * 16 + 14
decreasing_by
  all_goals have := p.height_le
  · have := Precedence.height_lt_of_tighter? _h
    omega
  all_goals omega

/-- Prefixed operators and their operand. -/
def unary (c : Cursor) : Step Expr c.rest.length :=
  match c.takeIf? (fun t => t.isSymbol .bang || t.isSymbol .minus) with
  | some ⟨operator, c₁, _⟩ =>
    (unary c₁).andThen fun operand c₂ _ => .ok (.unary operator operand) c₂ (by omega)
  | none => (primary c).andThen fun e c₁ _ => (callRest e c₁).widen
termination_by c.rest.length * 16 + 2
decreasing_by all_goals omega

/-- Calls and property accesses behind the expression `e`. -/
def callRest (e : Expr) (c : Cursor) : Step Expr (c.rest.length + 1) :=
  match c.symbol? .leftParen with
  | some ⟨_, c₁, _⟩ =>
    match c₁.symbol? .rightParen with
    | some ⟨paren, c₂, _⟩ => (callRest (.call e paren []) c₂).widen
    | none =>
      (arguments 0 c₁).andThen fun es c₂ _ =>
        (c₂.expect (.symbol .rightParen) .argumentsClose).andThen fun paren c₃ _ =>
          (callRest (.call e paren es) c₃).widen
  | none =>
    match c.symbol? .dot with
    | some ⟨_, c₁, _⟩ =>
      (c₁.expect .identifier .propertyName).andThen fun name c₂ _ =>
        (callRest (.get e name) c₂).widen
    | none => .ok e c (by omega)
termination_by c.rest.length * 16 + 1
decreasing_by all_goals omega

/-- At least one argument, behind `count` others. -/
def arguments (count : Nat) (c : Cursor) : Step (List Expr) c.rest.length :=
  have same : (c.checkArity count .tooManyArguments).rest.length = c.rest.length := by simp
  (expression (c.checkArity count .tooManyArguments)).andThen fun e c₁ _ =>
    match c₁.symbol? .comma with
    | some ⟨_, c₂, _⟩ =>
      (arguments (count + 1) c₂).andThen fun es c₃ _ => .ok (e :: es) c₃ (by omega)
    | none => .ok [e] c₁ (by omega)
termination_by c.rest.length * 16 + 16
decreasing_by all_goals omega

/-- A constant, a name, `this`, a superclass method or an expression in parentheses. -/
def primary (c : Cursor) : Step Expr c.rest.length :=
  match c.takeIf? (fun _ => true) with
  | none => c.fail (.expected .expression)
  | some ⟨t, c₁, _⟩ =>
    match literal? t.kind, t.kind with
    | some value, _ => .ok (.literal value) c₁ (by omega)
    | none, .keyword .this_ => .ok (.this c₁.freshId t) c₁.useId (by rw [rest_useId]; omega)
    | none, .keyword .super_ =>
      (c₁.expect (.symbol .dot) .superDot).andThen fun _ c₂ _ =>
        (c₂.expect .identifier .superMethod).andThen fun method c₃ _ =>
          .ok (.super c₃.freshId t method) c₃.useId (by rw [rest_useId]; omega)
    | none, .identifier => .ok (.var c₁.freshId t) c₁.useId (by rw [rest_useId]; omega)
    | none, .symbol .leftParen =>
      (expression c₁).andThen fun inner c₂ _ =>
        (c₂.expect (.symbol .rightParen) .groupClose).andThen fun _ c₃ _ =>
          .ok (.group inner) c₃ (by omega)
    | none, _ => c.fail (.expected .expression)
termination_by c.rest.length * 16
decreasing_by all_goals omega

end

end Cursor

/-!
## The grammar of statements

    declaration → "class" IDENTIFIER ( "<" IDENTIFIER )? "{" function* "}"
                | "fun" function | "var" variable | statement
    function    → IDENTIFIER "(" parameters? ")" "{" block
    parameters  → IDENTIFIER ( "," IDENTIFIER )*
    variable    → IDENTIFIER ( "=" expression )? ";"
    statement   → "for" "(" ( "var" variable | expression ";" | ";" )
                    expression? ";" expression? ")" statement
                | "if" "(" expression ")" statement ( "else" statement )?
                | "while" "(" expression ")" statement
                | "return" expression? ";" | "print" expression ";" | expression ";" | "{" block
    block       → declaration* "}"

A declaration that can not be read is dropped with a complaint, and reading goes on at the next
token that looks like the start of a statement (`Cursor.resume`), so one pass finds the faults of
all declarations.
-/

/-- Whether reading goes on in front of this token after a complaint. -/
def Token.startsStatement (t : Token) : Bool :=
  match t.kind with
  | .keyword .class_ => true
  | .keyword .fun_ => true
  | .keyword .var_ => true
  | .keyword .for_ => true
  | .keyword .if_ => true
  | .keyword .while_ => true
  | .keyword .print_ => true
  | .keyword .return_ => true
  | _ => false

/-- The tokens from the first one that starts a statement or stands behind a semicolon; `last` is
the token in front of all of them. -/
def resumeAfter (last : Token) : List Token → List Token
  | [] => []
  | t :: ts =>
    if last.isSymbol .semicolon || t.startsStatement then t :: ts else resumeAfter t ts

theorem length_resumeAfter_le (last : Token) (ts : List Token) :
    (resumeAfter last ts).length ≤ ts.length := by
  induction ts generalizing last with
  | nil => simp [resumeAfter]
  | cons t ts ih =>
    unfold resumeAfter
    split
    · simp
    · have := ih t
      simp only [List.length_cons]
      omega

/-- A declaration, or its absence after a complaint, and a later cursor. -/
structure Declared (c : Cursor) where
  result : Option Stmt
  next : Cursor
  shorter : next.rest.length < c.rest.length

namespace Cursor

/-- Skips the next token, which is in the way, and whatever follows it up to the next statement. -/
def resume (c : Cursor) : Cursor :=
  match c.rest with
  | [] => c
  | t :: ts => { c with rest := resumeAfter t ts }

theorem length_rest_resume_le (c : Cursor) : c.resume.rest.length ≤ c.rest.length - 1 := by
  unfold resume
  split
  · simp_all
  · rename_i t ts h
    have := length_resumeAfter_le t ts
    simp only [h, List.length_cons]
    omega

/-! ### Parts without statements inside -/

/-- An expression and the symbol behind it. -/
def terminated (s : Symbol) (what : Expected) (c : Cursor) : Step Expr c.rest.length :=
  (expression c).andThen fun e c₁ _ =>
    (c₁.expect (.symbol s) what).andThen fun _ c₂ _ => .ok e c₂ (by omega)

/-- An expression, which may be left out, and the symbol behind it. -/
def optional (s : Symbol) (what : Expected) (c : Cursor) : Step (Option Expr) c.rest.length :=
  match c.symbol? s with
  | some ⟨_, c₁, _⟩ => .ok none c₁ (by omega)
  | none => (terminated s what c).andThen fun e c₁ _ => .ok (some e) c₁ (by omega)

/-- An expression in parentheses. -/
def parenthesized (opening closing : Expected) (c : Cursor) : Step Expr c.rest.length :=
  (c.expect (.symbol .leftParen) opening).andThen fun _ c₁ _ =>
    (terminated .rightParen closing c₁).andThen fun e c₂ _ => .ok e c₂ (by omega)

/-- A variable with its initializer, if it has one. -/
def variableDeclaration (c : Cursor) : Step Stmt c.rest.length :=
  (c.expect .identifier .variableName).andThen fun name c₁ _ =>
    match c₁.symbol? .equal with
    | some ⟨_, c₂, _⟩ =>
      (terminated .semicolon .variableEnd c₂).andThen fun e c₃ _ =>
        .ok (.var name (some e)) c₃ (by omega)
    | none =>
      (c₁.expect (.symbol .semicolon) .variableEnd).andThen fun _ c₂ _ =>
        .ok (.var name none) c₂ (by omega)

/-- An expression as a statement. -/
def expressionStatement (c : Cursor) : Step Stmt c.rest.length :=
  (terminated .semicolon .expressionEnd c).andThen fun e c₁ _ => .ok (.expression e) c₁ (by omega)

/-- The first clause of a `for` loop with its semicolon. -/
def forInitializer (c : Cursor) : Step (Option Stmt) c.rest.length :=
  match c.symbol? .semicolon with
  | some ⟨_, c₁, _⟩ => .ok none c₁ (by omega)
  | none =>
    match c.keyword? .var_ with
    | some ⟨_, c₁, _⟩ =>
      (variableDeclaration c₁).andThen fun s c₂ _ => .ok (some s) c₂ (by omega)
    | none => (expressionStatement c).andThen fun s c₁ _ => .ok (some s) c₁ (by omega)

/-- At least one parameter, behind `count` others. -/
def parameters (count : Nat) (c : Cursor) : Step (List Token) c.rest.length :=
  have same : (c.checkArity count .tooManyParameters).rest.length = c.rest.length := by simp
  ((c.checkArity count .tooManyParameters).expect .identifier .parameterName).andThen
    fun name c₁ _ =>
      match c₁.symbol? .comma with
      | some ⟨_, c₂, _⟩ =>
        (parameters (count + 1) c₂).andThen fun names c₃ _ => .ok (name :: names) c₃ (by omega)
      | none => .ok [name] c₁ (by omega)
termination_by c.rest.length
decreasing_by omega

/-- The parameters of a function up to the closing parenthesis. -/
def parameterList (c : Cursor) : Step (List Token) c.rest.length :=
  match c.symbol? .rightParen with
  | some ⟨_, c₁, _⟩ => .ok [] c₁ (by omega)
  | none =>
    (parameters 0 c).andThen fun names c₁ _ =>
      (c₁.expect (.symbol .rightParen) .parametersClose).andThen fun _ c₂ _ =>
        .ok names c₂ (by omega)

/-- The superclass of a class, if one is named, and the brace behind it. -/
def classHeader (c : Cursor) : Step (Option Expr) c.rest.length :=
  match c.symbol? .less with
  | some ⟨_, c₁, _⟩ =>
    (c₁.expect .identifier .superclassName).andThen fun name c₂ _ =>
      (c₂.expect (.symbol .leftBrace) .classBodyOpen).andThen fun _ c₃ _ =>
        .ok (some (.var c₃.freshId name)) c₃.useId (by rw [rest_useId]; omega)
  | none =>
    (c.expect (.symbol .leftBrace) .classBodyOpen).andThen fun _ c₁ _ => .ok none c₁ (by omega)

/-! ### Declarations and statements -/

mutual

/-- A declaration or statement; after a complaint whatever is in the way is skipped. -/
def declared (c : Cursor) (nonempty : c.rest ≠ []) : Declared c :=
  match declaration c with
  | .ok s c₁ h => ⟨some s, c₁, h⟩
  | .failed e c₁ h =>
    ⟨none, (c₁.report e).resume, by
      have := length_rest_resume_le (c₁.report e)
      have := List.length_pos_iff.mpr nonempty
      simp only [rest_report] at *
      omega⟩
termination_by c.rest.length * 8 + 3
decreasing_by omega

/-- A class, a function, a variable or a statement. -/
def declaration (c : Cursor) : Step Stmt c.rest.length :=
  match c.keyword? .class_ with
  | some ⟨_, c₁, _⟩ => (classDeclaration c₁).widen
  | none =>
    match c.keyword? .fun_ with
    | some ⟨_, c₁, _⟩ =>
      (function .function c₁).andThen fun f c₂ _ => .ok (.fun_ f) c₂ (by omega)
    | none =>
      match c.keyword? .var_ with
      | some ⟨_, c₁, _⟩ => (variableDeclaration c₁).widen
      | none => statement c
termination_by c.rest.length * 8 + 2
decreasing_by all_goals omega

/-- The name, the superclass and the methods of a class. -/
def classDeclaration (c : Cursor) : Step Stmt c.rest.length :=
  (c.expect .identifier .className).andThen fun name c₁ _ =>
    (classHeader c₁).andThen fun superclass c₂ _ =>
      (methods c₂).andThen fun ms c₃ _ => .ok (.class_ name superclass ms) c₃ (by omega)
termination_by c.rest.length * 8
decreasing_by omega

/-- The methods of a class up to the closing brace. -/
def methods (c : Cursor) : Step (List FunDecl) c.rest.length :=
  match c.symbol? .rightBrace with
  | some ⟨_, c₁, _⟩ => .ok [] c₁ (by omega)
  | none =>
    if c.rest = [] then
      c.fail (.expected .classBodyClose)
    else
      (function .method c).andThen fun f c₁ _ =>
        (methods c₁).andThen fun fs c₂ _ => .ok (f :: fs) c₂ (by omega)
termination_by c.rest.length * 8 + 1
decreasing_by all_goals omega

/-- The name, the parameters and the body of a function. -/
def function (form : FunctionForm) (c : Cursor) : Step FunDecl c.rest.length :=
  (c.expect .identifier (.functionName form)).andThen fun name c₁ _ =>
    (c₁.expect (.symbol .leftParen) (.parametersOpen form)).andThen fun _ c₂ _ =>
      (parameterList c₂).andThen fun params c₃ _ =>
        (c₃.expect (.symbol .leftBrace) (.functionBodyOpen form)).andThen fun _ c₄ _ =>
          (block c₄).andThen fun body c₅ _ => .ok ⟨name, params, body⟩ c₅ (by omega)
termination_by c.rest.length * 8
decreasing_by omega

/-- Declarations and statements up to the closing brace; those that could not be read are left
out. -/
def block (c : Cursor) : Step (List Stmt) c.rest.length :=
  match c.symbol? .rightBrace with
  | some ⟨_, c₁, _⟩ => .ok [] c₁ (by omega)
  | none =>
    if h : c.rest = [] then
      c.fail (.expected .blockClose)
    else
      match declared c h with
      | ⟨s, c₁, _⟩ => (block c₁).andThen fun ss c₂ _ => .ok (s.toList ++ ss) c₂ (by omega)
termination_by c.rest.length * 8 + 4
decreasing_by all_goals omega

/-- A statement that declares nothing itself. -/
def statement (c : Cursor) : Step Stmt c.rest.length :=
  match c.takeIf? (fun _ => true) with
  | none => expressionStatement c
  | some ⟨t, c₁, _⟩ =>
    match t.kind with
    | .keyword .for_ =>
      (c₁.expect (.symbol .leftParen) .forOpen).andThen fun _ c₂ _ =>
        (forInitializer c₂).andThen fun initializer c₃ _ =>
          (optional .semicolon .loopConditionEnd c₃).andThen fun condition c₄ _ =>
            (optional .rightParen .forClose c₄).andThen fun increment c₅ _ =>
              (statement c₅).andThen fun body c₆ _ =>
                .ok (.ofForClauses initializer condition increment body) c₆ (by omega)
    | .keyword .if_ =>
      (parenthesized .ifOpen .ifClose c₁).andThen fun condition c₂ _ =>
        (statement c₂).andThen fun thenBranch c₃ _ =>
          match c₃.keyword? .else_ with
          | some ⟨_, c₄, _⟩ =>
            (statement c₄).andThen fun elseBranch c₅ _ =>
              .ok (.if_ condition thenBranch (some elseBranch)) c₅ (by omega)
          | none => .ok (.if_ condition thenBranch none) c₃ (by omega)
    | .keyword .while_ =>
      (parenthesized .whileOpen .whileClose c₁).andThen fun condition c₂ _ =>
        (statement c₂).andThen fun body c₃ _ => .ok (.while_ condition body) c₃ (by omega)
    | .keyword .return_ =>
      (optional .semicolon .returnEnd c₁).andThen fun value c₂ _ =>
        .ok (.return_ t value) c₂ (by omega)
    | .keyword .print_ =>
      (terminated .semicolon .printEnd c₁).andThen fun e c₂ _ => .ok (.print e) c₂ (by omega)
    | .symbol .leftBrace => (block c₁).andThen fun body c₂ _ => .ok (.block body) c₂ (by omega)
    | _ => expressionStatement c
termination_by c.rest.length * 8 + 1
decreasing_by all_goals omega

end

/-- The declarations of a whole program; those that could not be read are left out. -/
def program (c : Cursor) : List Stmt × Cursor :=
  if h : c.rest = [] then
    ([], c)
  else
    match declared c h with
    | ⟨s, c₁, _⟩ =>
      match program c₁ with
      | (ss, c₂) => (s.toList ++ ss, c₂)
termination_by c.rest.length
decreasing_by assumption

end Cursor

end LoxWalk
