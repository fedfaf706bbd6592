import LoxWalk.Double

/-!
# Tokens

A token is one lexeme of a program with its kind and the line on which it ends.  Punctuation and
reserved words have one spelling each; strings and numbers carry the value that their lexeme stands
for.

Two relations compare tokens.  `TokenKind.agrees` looks at the kind alone and not at a value that
it carries, which is what a grammar asks; equality of Lean compares the values as well.
-/

namespace LoxWalk

/-- Punctuation and operators. -/
inductive Symbol where
  | leftParen
  | rightParen
  | leftBrace
  | rightBrace
  | comma
  | dot
  | minus
  | plus
  | semicolon
  | slash
  | star
  | bang
  | bangEqual
  | equal
  | equalEqual
  | greater
  | greaterEqual
  | less
  | lessEqual
deriving DecidableEq

/-- Reserved words. -/
inductive Keyword where
  | and_
  | class_
  | else_
  | false_
  | for_
  | fun_
  | if_
  | nil_
  | or_
  | print_
  | return_
  | super_
  | this_
  | true_
  | var_
  | while_
deriving DecidableEq

namespace Symbol

/-- How a symbol is written. -/
def spelling : Symbol → String
  | leftParen => "("
  | rightParen => ")"
  | leftBrace => "\x7b"
  | rightBrace => "\x7d"
  | comma => ","
  | dot => "."
  | minus => "-"
  | plus => "+"
  | semicolon => ";"
  | slash => "/"
  | star => "*"
  | bang => "!"
  | bangEqual => "!="
  | equal => "="
  | equalEqual => "=="
  | greater => ">"
  | greaterEqual => ">="
  | less => "<"
  | lessEqual => "<="

/-- The name of a symbol in listings. -/
def label : Symbol → String
  | leftParen => "LEFT_PAREN"
  | rightParen => "RIGHT_PAREN"
  | leftBrace => "LEFT_BRACE"
  | rightBrace => "RIGHT_BRACE"
  | comma => "COMMA"
  | dot => "DOT"
  | minus => "MINUS"
  | plus => "PLUS"
  | semicolon => "SEMICOLON"
  | slash => "SLASH"
  | star => "STAR"
  | bang => "BANG"
  | bangEqual => "BANG_EQUAL"
  | equal => "EQUAL"
  | equalEqual => "EQUAL_EQUAL"
  | greater => "GREATER"
  | greaterEqual => "GREATER_EQUAL"
  | less => "LESS"
  | lessEqual => "LESS_EQUAL"

/-- Every symbol, in the order of the declaration. -/
def all : List Symbol :=
  [leftParen, rightParen, leftBrace, rightBrace, comma, dot, minus, plus, semicolon, slash, star,
    bang, bangEqual, equal, equalEqual, greater, greaterEqual, less, lessEqual]

end Symbol

namespace Keyword

/-- How a reserved word is written. -/
def spelling : Keyword → String
  | and_ => "and"
  | class_ => "class"
  | else_ => "else"
  | false_ => "false"
  | for_ => "for"
  | fun_ => "fun"
  | if_ => "if"
  | nil_ => "nil"
  | or_ => "or"
  | print_ => "print"
  | return_ => "return"
  | super_ => "super"
  | this_ => "this"
  | true_ => "true"
  | var_ => "var"
  | while_ => "while"

/-- The name of a reserved word in listings. -/
def label : Keyword → String
  | and_ => "AND"
  | class_ => "CLASS"
  | else_ => "ELSE"
  | false_ => "FALSE"
  | for_ => "FOR"
  | fun_ => "FUN"
  | if_ => "IF"
  | nil_ => "NIL"
  | or_ => "OR"
  | print_ => "PRINT"
  | return_ => "RETURN"
  | super_ => "SUPER"
  | this_ => "THIS"
  | true_ => "TRUE"
  | var_ => "VAR"
  | while_ => "WHILE"

/-- Every reserved word, in the order of the declaration. -/
def all : List Keyword :=
  [and_, class_, else_, false_, for_, fun_, if_, nil_, or_, print_, return_, super_, this_, true_,
    var_, while_]

/-- The reserved word with the given spelling. -/
def ofSpelling? (word : String) : Option Keyword :=
  all.find? (·.spelling = word)

end Keyword

/-- What a token is; a string carries its contents without the quotes, a number its value. -/
inductive TokenKind where
  | symbol (s : Symbol)
  | keyword (k : Keyword)
  | identifier
  | string (contents : String)
  | number (value : Double)
  | eof
deriving DecidableEq

/-- One lexeme with its kind and its line, counted from one. -/
structure Token where
  kind : TokenKind
  lexeme : String
  line : Nat
deriving DecidableEq

namespace TokenKind

/-- The name of a kind in listings. -/
def label : TokenKind → String
  | symbol s => s.label
  | keyword k => k.label
  | identifier => "IDENTIFIER"
  | string _ => "STRING"
  | number _ => "NUMBER"
  | eof => "EOF"

/-- Whether two kinds are the same, whatever values they carry. -/
def agrees : TokenKind → TokenKind → Bool
  | string _, string _ => true
  | number _, number _ => true
  | a, b => a = b

/-- Every kind; a string is empty and a number zero. -/
def all : List TokenKind :=
  Symbol.all.map symbol ++ Keyword.all.map keyword ++ [identifier, string "", number ⟨0⟩, eof]

end TokenKind

namespace Token

/-- Whether two tokens have the same kind, the same lexeme and the same line. -/
def agrees (a b : Token) : Bool :=
  a.kind.agrees b.kind && a.lexeme == b.lexeme && a.line == b.line

/-- Whether `t` is the symbol `s`. -/
def isSymbol (t : Token) (s : Symbol) : Bool :=
  t.kind == .symbol s

/-- Whether `t` is the reserved word `k`. -/
def isKeyword (t : Token) (k : Keyword) : Bool :=
  t.kind == .keyword k

/-- Whether `t` marks the end of the input. -/
def isEof (t : Token) : Bool :=
  t.kind == .eof

end Token

end LoxWalk
