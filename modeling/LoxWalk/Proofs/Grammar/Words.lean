import LoxWalk.Proofs.Grammar.Reading

/-!
# The words of a tree

The tokens that a tree keeps are tokens of the text from which it was read (`Reads.words_subset`).
-/

namespace LoxWalk

mutual

/-- The tokens in an expression. -/
def Expr.words : Expr → List Token
  | .literal _ => []
  | .group inner => inner.words
  | .unary operator operand => operator :: operand.words
  | .binary left operator right => left.words ++ operator :: right.words
  | .logical left operator right => left.words ++ operator :: right.words
  | .var _ name => [name]
  | .assign _ name value => name :: value.words
  | .call callee paren arguments => callee.words ++ paren :: Expr.allWords arguments
  | .get object name => object.words ++ [name]
  | .set object name value => object.words ++ name :: value.words
  | .this _ keyword => [keyword]
  | .super _ keyword method => [keyword, method]

/-- The tokens in several expressions. -/
def Expr.allWords : List Expr → List Token
  | [] => []
  | e :: es => e.words ++ Expr.allWords es

end

/-- The tokens in an expression that may be left out. -/
def Expr.words? : Option Expr → List Token
  | some e => e.words
  | none => []

mutual

/-- The tokens in a statement. -/
def Stmt.words : Stmt → List Token
  | .expression e => e.words
  | .print e => e.words
  | .var name initializer => name :: Expr.words? initializer
  | .block body => Stmt.allWords body
  | .if_ condition thenBranch none => condition.words ++ thenBranch.words
  | .if_ condition thenBranch (some elseBranch) =>
    condition.words ++ (thenBranch.words ++ elseBranch.words)
  | .while_ condition body => condition.words ++ body.words
  | .fun_ f => Stmt.funWords f
  | .return_ keyword value => keyword :: Expr.words? value
  | .class_ name superclass methods =>
    name :: (Expr.words? superclass ++ Stmt.methodWords methods)

/-- The tokens in several statements. -/
def Stmt.allWords : List Stmt → List Token
  | [] => []
  | s :: ss => s.words ++ Stmt.allWords ss

/-- The tokens in a function. -/
def Stmt.funWords : FunDeclOf Stmt → List Token
  | ⟨name, params, body⟩ => name :: (params ++ Stmt.allWords body)

/-- The tokens in the methods of a class. -/
def Stmt.methodWords : List (FunDeclOf Stmt) → List Token
  | [] => []
  | f :: fs => Stmt.funWords f ++ Stmt.methodWords fs

end

/-- The tokens in a statement that may be left out. -/
def Stmt.words? : Option Stmt → List Token
  | some s => s.words
  | none => []

/-- The tokens in a fragment. -/
def Fragment.words : Fragment → List Token
  | .expr e => e.words
  | .expr? e => Expr.words? e
  | .exprs es => Expr.allWords es
  | .names ts => ts
  | .stmt s => s.words
  | .stmt? s => Stmt.words? s
  | .stmts ss => Stmt.allWords ss
  | .decl f => Stmt.funWords f
  | .decls fs => Stmt.methodWords fs

/-- The tokens of the expression behind which a rule goes on. -/
def Rule.words : Rule → List Token
  | .binaryRest _ left => left.words
  | .callRest callee => callee.words
  | _ => []

@[simp]
theorem Precedence.words_operand (p : Precedence) : p.operand.words = [] := by
  cases p <;> rfl

@[simp]
theorem Precedence.words_node (p : Precedence) (left right : Expr) (t : Token) :
    (p.node left t right).words = left.words ++ t :: right.words := by
  cases p <;> rfl

/-- The tokens of a desugared loop are those of its parts. -/
theorem Stmt.words_ofForClauses (initializer : Option Stmt) (condition increment : Option Expr)
    (body : Stmt) : (Stmt.ofForClauses initializer condition increment body).words =
      words? initializer ++ (Expr.words? condition ++ (body.words ++ Expr.words? increment)) := by
  cases initializer <;> cases condition <;> cases increment <;>
    simp [ofForClauses, words, words?, allWords, Expr.words?, Expr.words]

attribute [grind =] Precedence.words_operand Precedence.words_node Stmt.words_ofForClauses

/-- A tree has no other tokens than those it is read from. -/
theorem Reads.words_subset {r : Rule} {n n' : Nat} {w : List Token} {f : Fragment}
    (h : Reads r n w f n') : ∀ t ∈ f.words, t ∈ r.words ∨ t ∈ w := by
  induction h <;> grind [Fragment.words, Rule.words, Expr.words, Expr.words?, Expr.allWords, Stmt.words,
    Stmt.words?, Stmt.allWords, Stmt.funWords, Stmt.methodWords]

end LoxWalk
