import LoxWalk.Number
import LoxWalk.Tree

/-!
# Expressions in prefix form

An expression written with every operator in front of its operands and a pair of parentheses around
both: `1 + 2 * 3` becomes `(+ 1 (* 2 3))`.
-/

namespace LoxWalk

/-- A constant in prefix form; a string has no quotes. -/
def Literal.prefixForm : Literal → String
  | nil => "nil"
  | bool true => "true"
  | bool false => "false"
  | number x => Number.display x
  | string s => s

namespace Expr

mutual

/-- An expression in prefix form. -/
def prefixForm : Expr → String
  | literal value => value.prefixForm
  | group inner => "(group " ++ inner.prefixForm ++ ")"
  | unary operator operand => "(" ++ operator.lexeme ++ " " ++ operand.prefixForm ++ ")"
  | binary left operator right =>
    "(" ++ operator.lexeme ++ " " ++ left.prefixForm ++ " " ++ right.prefixForm ++ ")"
  | logical left operator right =>
    "(" ++ operator.lexeme ++ " " ++ left.prefixForm ++ " " ++ right.prefixForm ++ ")"
  | var _ name => name.lexeme
  | assign _ name value => "(= " ++ name.lexeme ++ " " ++ value.prefixForm ++ ")"
  | call callee _ arguments => "(call " ++ callee.prefixForm ++ prefixForms arguments ++ ")"
  | get object name => "(. " ++ object.prefixForm ++ " " ++ name.lexeme ++ ")"
  | set object name value =>
    "(= (. " ++ object.prefixForm ++ " " ++ name.lexeme ++ ") " ++ value.prefixForm ++ ")"
  | this _ _ => "this"
  | super _ _ method => "(super " ++ method.lexeme ++ ")"

/-- Expressions in prefix form, each with a blank in front of it. -/
def prefixForms : List Expr → String
  | [] => ""
  | e :: es => " " ++ e.prefixForm ++ prefixForms es

end

end Expr

end LoxWalk
