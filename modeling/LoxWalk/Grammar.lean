import LoxWalk.Grammar.Rules

/-!
# Programs and expressions from tokens

Only the tokens in front of the first end mark count; a list without one ends on the line of its
last token.  A tree is handed out only when there is no complaint at all.

The nodes of a tree get the identities from `nextId` upwards, and the first identity that is still
free is returned with the tree, so trees that are read one after the other share no identity.
-/

namespace LoxWalk

/-- What came of reading tokens: a tree or the errors, and the next free identity. -/
structure Parsed (α : Type) where
  result : Except (List ParseError) α
  nextId : Nat

namespace Grammar

/-- The tokens in front of the end of the input. -/
def body (ts : List Token) : List Token :=
  ts.takeWhile (!·.isEof)

/-- The line on which the input ends. -/
def endLine (ts : List Token) : Nat :=
  match ts.dropWhile (!·.isEof) with
  | t :: _ => t.line
  | [] => (ts.getLast?.map Token.line).getD 1

/-- The cursor in front of all tokens. -/
def start (nextId : Nat) (ts : List Token) : Cursor :=
  ⟨body ts, [], nextId⟩

/-- The complaints of a cursor as errors, in the order in which they were made. -/
def errors (ts : List Token) (c : Cursor) : List ParseError :=
  let line := endLine ts
  c.complaints.reverse.map (·.toError line)

/-- Hands out a tree if there are no complaints. -/
def conclude {α : Type} (ts : List Token) (tree : α) (c : Cursor) : Parsed α :=
  match errors ts c with
  | [] => ⟨.ok tree, c.nextId⟩
  | es => ⟨.error es, c.nextId⟩

/-- Reads all tokens as a program. -/
def program (nextId : Nat) (ts : List Token) : Parsed (List Stmt) :=
  match (start nextId ts).program with
  | (statements, c) => conclude ts statements c

/-- Reads an expression from the first tokens; those behind it do not matter. -/
def expression (nextId : Nat) (ts : List Token) : Parsed Expr :=
  match (start nextId ts).expression with
  | .ok e c _ => conclude ts e c
  | .failed complaint c _ =>
    ⟨.error (errors ts (c.report complaint)), c.nextId⟩

end Grammar

end LoxWalk
