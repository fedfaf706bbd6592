import LoxWalk.Number
import LoxWalk.Proofs.Grammar.Reading

/-!
# A tree as tokens

`Expr.tokens` and `Stmt.tokens` write a tree down from left to right.  The names, operators and
keywords that a tree keeps are written as they are, a constant as a token of its value, and the
punctuation in between with its spelling; only a group is written in parentheses, and a loop is
written as `while`.

`Expr.erase` and `Stmt.erase` give all references of a tree the same identity, so that two trees
have the same image when they differ in nothing else.
-/

namespace LoxWalk

/-! ## Single tokens -/

/-- A symbol that stands nowhere in particular. -/
def Symbol.token (s : Symbol) : Token :=
  ⟨.symbol s, s.spelling, 0⟩

/-- A reserved word that stands nowhere in particular. -/
def Keyword.token (k : Keyword) : Token :=
  ⟨.keyword k, k.spelling, 0⟩

/-- A constant; a string in quotes, and a number as it is printed. -/
def Literal.token : Literal → Token
  | nil => Keyword.nil_.token
  | bool true => Keyword.true_.token
  | bool false => Keyword.false_.token
  | number x => ⟨.number x, Number.display x, 0⟩
  | string s => ⟨.string s, "\"" ++ s ++ "\"", 0⟩

/-- A token stands for the constant that it was made from. -/
theorem Literal.literal?_token (l : Literal) : Cursor.literal? l.token.kind = some l := by
  cases l with
  | bool b => cases b <;> rfl
  | _ => rfl

/-! ## Expressions -/

mutual

/-- The tokens of an expression. -/
def Expr.tokens : Expr → List Token
  | .literal value => [value.token]
  | .group inner => Symbol.leftParen.token :: (inner.tokens ++ [Symbol.rightParen.token])
  | .unary operator operand => operator :: operand.tokens
  | .binary left operator right => left.tokens ++ operator :: right.tokens
  | .logical left operator right => left.tokens ++ operator :: right.tokens
  | .var _ name => [name]
  | .assign _ name value => name :: Symbol.equal.token :: value.tokens
  | .call callee paren arguments =>
    callee.tokens ++ Symbol.leftParen.token :: (Expr.listTokens arguments ++ [paren])
  | .get object name => object.tokens ++ [Symbol.dot.token, name]
  | .set object name value =>
    object.tokens ++ Symbol.dot.token :: name :: Symbol.equal.token :: value.tokens
  | .this _ keyword => [keyword]
  | .super _ keyword method => [keyword, Symbol.dot.token, method]

/-- The tokens of several expressions with commas between them. -/
def Expr.listTokens : List Expr → List Token
  | [] => []
  | e :: es => e.tokens ++ Expr.moreTokens es

/-- The tokens of several expressions with a comma in front of each. -/
def Expr.moreTokens : List Expr → List Token
  | [] => []
  | e :: es => Symbol.comma.token :: (e.tokens ++ Expr.moreTokens es)

end

/-- The tokens of an expression that may be left out. -/
def Expr.tokens? : Option Expr → List Token
  | some e => e.tokens
  | none => []

theorem Precedence.tokens_node (p : Precedence) (left right : Expr) (t : Token) :
    (p.node left t right).tokens = left.tokens ++ t :: right.tokens := by
  cases p <;> rfl

/-- Behind the first of several arguments comes a comma. -/
theorem Expr.listTokens_cons {e : Expr} {es : List Expr} (h : es ≠ []) :
    Expr.listTokens (e :: es) = e.tokens ++ Symbol.comma.token :: Expr.listTokens es := by
  cases es with
  | nil => exact absurd rfl h
  | cons e' es => rw [Expr.listTokens, Expr.moreTokens, Expr.listTokens]

/-! ## Statements -/

/-- The parameters of a function with commas between them. -/
def Token.listed : List Token → List Token
  | [] => []
  | [t] => [t]
  | t :: ts => t :: Symbol.comma.token :: Token.listed ts

theorem Token.listed_cons {t : Token} {ts : List Token} (h : ts ≠ []) :
    Token.listed (t :: ts) = t :: Symbol.comma.token :: Token.listed ts := by
  cases ts with
  | nil => exact absurd rfl h
  | cons t' ts => rfl

/-- What stands between the name of a class and its methods. -/
def Expr.headerTokens : Option Expr → List Token
  | some e => Symbol.less.token :: (e.tokens ++ [Symbol.leftBrace.token])
  | none => [Symbol.leftBrace.token]

mutual

/-- The tokens of a statement. -/
def Stmt.tokens : Stmt → List Token
  | .expression e => e.tokens ++ [Symbol.semicolon.token]
  | .print e => Keyword.print_.token :: (e.tokens ++ [Symbol.semicolon.token])
  | .var name none => [Keyword.var_.token, name, Symbol.semicolon.token]
  | .var name (some e) =>
    Keyword.var_.token :: name :: Symbol.equal.token :: (e.tokens ++ [Symbol.semicolon.token])
  | .block body => Symbol.leftBrace.token :: (Stmt.listTokens body ++ [Symbol.rightBrace.token])
  | .if_ condition thenBranch none =>
    Keyword.if_.token :: Symbol.leftParen.token ::
      (condition.tokens ++ Symbol.rightParen.token :: thenBranch.tokens)
  | .if_ condition thenBranch (some elseBranch) =>
    Keyword.if_.token :: Symbol.leftParen.token ::
      (condition.tokens ++ Symbol.rightParen.token ::
        (thenBranch.tokens ++ Keyword.else_.token :: elseBranch.tokens))
  | .while_ condition body =>
    Keyword.while_.token :: Symbol.leftParen.token ::
      (condition.tokens ++ Symbol.rightParen.token :: body.tokens)
  | .fun_ decl => Keyword.fun_.token :: Stmt.functionTokens decl
  | .return_ keyword value => keyword :: (Expr.tokens? value ++ [Symbol.semicolon.token])
  | .class_ name superclass methods =>
    Keyword.class_.token :: name ::
      (Expr.headerTokens superclass ++ (Stmt.methodTokens methods ++ [Symbol.rightBrace.token]))

/-- The tokens of several statements. -/
def Stmt.listTokens : List Stmt → List Token
  | [] => []
  | s :: ss => s.tokens ++ Stmt.listTokens ss

/-- The tokens of a function behind the word `fun`. -/
def Stmt.functionTokens : FunDeclOf Stmt → List Token
  | ⟨name, params, body⟩ =>
    name :: Symbol.leftParen.token :: (Token.listed params ++ Symbol.rightParen.token ::
      Symbol.leftBrace.token :: (Stmt.listTokens body ++ [Symbol.rightBrace.token]))

/-- The tokens of the methods of a class. -/
def Stmt.methodTokens : List (FunDeclOf Stmt) → List Token
  | [] => []
  | f :: fs => Stmt.functionTokens f ++ Stmt.methodTokens fs

end

/-! ## Trees without identities -/

mutual

/-- The expression with one identity for all references. -/
def Expr.erase : Expr → Expr
  | .literal value => .literal value
  | .group inner => .group inner.erase
  | .unary operator operand => .unary operator operand.erase
  | .binary left operator right => .binary left.erase operator right.erase
  | .logical left operator right => .logical left.erase operator right.erase
  | .var _ name => .var ⟨0⟩ name
  | .assign _ name value => .assign ⟨0⟩ name value.erase
  | .call callee paren arguments => .call callee.erase paren (Expr.eraseAll arguments)
  | .get object name => .get object.erase name
  | .set object name value => .set object.erase name value.erase
  | .this _ keyword => .this ⟨0⟩ keyword
  | .super _ keyword method => .super ⟨0⟩ keyword method

def Expr.eraseAll : List Expr → List Expr
  | [] => []
  | e :: es => e.erase :: Expr.eraseAll es

end

mutual

/-- The statement with one identity for all references. -/
def Stmt.erase : Stmt → Stmt
  | .expression e => .expression e.erase
  | .print e => .print e.erase
  | .var name initializer => .var name (initializer.map Expr.erase)
  | .block body => .block (Stmt.eraseAll body)
  | .if_ condition thenBranch none => .if_ condition.erase thenBranch.erase none
  | .if_ condition thenBranch (some elseBranch) =>
    .if_ condition.erase thenBranch.erase (some elseBranch.erase)
  | .while_ condition body => .while_ condition.erase body.erase
  | .fun_ decl => .fun_ (Stmt.eraseFunction decl)
  | .return_ keyword value => .return_ keyword (value.map Expr.erase)
  | .class_ name superclass methods =>
    .class_ name (superclass.map Expr.erase) (Stmt.eraseMethods methods)

def Stmt.eraseAll : List Stmt → List Stmt
  | [] => []
  | s :: ss => s.erase :: Stmt.eraseAll ss

def Stmt.eraseFunction : FunDeclOf Stmt → FunDeclOf Stmt
  | ⟨name, params, body⟩ => ⟨name, params, Stmt.eraseAll body⟩

def Stmt.eraseMethods : List (FunDeclOf Stmt) → List (FunDeclOf Stmt)
  | [] => []
  | f :: fs => Stmt.eraseFunction f :: Stmt.eraseMethods fs

end

theorem Precedence.erase_node (p : Precedence) (left right : Expr) (t : Token) :
    (p.node left t right).erase = p.node left.erase t right.erase := by
  cases p <;> rfl

end LoxWalk
