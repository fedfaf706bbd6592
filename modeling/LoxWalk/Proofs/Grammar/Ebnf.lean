import LoxWalk.Grammar.Rules

/-!
# The grammar in extended Backus–Naur form

`Ebnf` is the notation in which grammars are written down, `Derives` says which sequences of tokens
an expression of the notation stands for, and `Nonterminal.body` is the grammar of the language.
Nothing here knows how a program is read: the rules are ambiguous where an `else` can belong to two
statements, and what stands to the left of `=` is restricted by the rule itself.

Lists of parameters and of arguments are bounded, so a derivation with a longer list does not exist.

`Ebnf.Denotes` reads the notation with any languages in the place of the nonterminals.  The
derivable sequences are the least languages that the rules are closed under
(`Derives.denotes`).
-/

namespace LoxWalk

/-- The names of the rules. -/
inductive Nonterminal where
  | program
  | declaration
  | classDecl
  | funDecl
  | function
  | varDecl
  | statement
  | exprStmt
  | forStmt
  | ifStmt
  | printStmt
  | returnStmt
  | whileStmt
  | block
  | parameters
  | expression
  | assignment
  | level (p : Precedence)
  | unary
  | call
  | arguments
  | primary
deriving DecidableEq

/-- What the right side of a rule is written in; `upTo n a` is `a` repeated at most `n` times. -/
inductive Ebnf where
  | token (k : TokenKind)
  | rule (r : Nonterminal)
  | seq (a b : Ebnf)
  | alt (a b : Ebnf)
  | opt (a : Ebnf)
  | many (a : Ebnf)
  | upTo (n : Nat) (a : Ebnf)

namespace Ebnf

instance : Append Ebnf := ⟨seq⟩

instance : OrOp Ebnf := ⟨alt⟩

/-- A symbol. -/
def sym (s : Symbol) : Ebnf :=
  token (.symbol s)

/-- A reserved word. -/
def word (k : Keyword) : Ebnf :=
  token (.keyword k)

/-- A name. -/
def ident : Ebnf :=
  token .identifier

/-- The binary operators of a level. -/
def operator : Precedence → Ebnf
  | .or => word .or_
  | .and => word .and_
  | .equality => sym .bangEqual ||| sym .equalEqual
  | .comparison => sym .greater ||| sym .greaterEqual ||| sym .less ||| sym .lessEqual
  | .term => sym .minus ||| sym .plus
  | .factor => sym .slash ||| sym .star

/-- Entries of a bounded list with commas between them. -/
def commaList (a : Ebnf) : Ebnf :=
  a ++ (sym .comma ++ a).upTo (maxArity - 1)

end Ebnf

namespace Nonterminal

open Ebnf

/-- What the operators of a level stand between. -/
def operand : Precedence → Nonterminal
  | .or => level .and
  | .and => level .equality
  | .equality => level .comparison
  | .comparison => level .term
  | .term => level .factor
  | .factor => unary

/-- The right sides of the rules. -/
def body : Nonterminal → Ebnf
  | program => (rule declaration).many ++ token .eof
  | declaration => rule classDecl ||| rule funDecl ||| rule varDecl ||| rule statement
  | classDecl =>
    word .class_ ++ ident ++ (sym .less ++ ident).opt
      ++ sym .leftBrace ++ (rule function).many ++ sym .rightBrace
  | funDecl => word .fun_ ++ rule function
  | function =>
    ident ++ sym .leftParen ++ (rule parameters).opt ++ sym .rightParen ++ rule block
  | varDecl => word .var_ ++ ident ++ (sym .equal ++ rule expression).opt ++ sym .semicolon
  | statement =>
    rule exprStmt ||| rule forStmt ||| rule ifStmt ||| rule printStmt ||| rule returnStmt
      ||| rule whileStmt ||| rule block
  | exprStmt => rule expression ++ sym .semicolon
  | forStmt =>
    word .for_ ++ sym .leftParen ++ (rule varDecl ||| rule exprStmt ||| sym .semicolon)
      ++ (rule expression).opt ++ sym .semicolon ++ (rule expression).opt ++ sym .rightParen
      ++ rule statement
  | ifStmt =>
    word .if_ ++ sym .leftParen ++ rule expression ++ sym .rightParen ++ rule statement
      ++ (word .else_ ++ rule statement).opt
  | printStmt => word .print_ ++ rule expression ++ sym .semicolon
  | returnStmt => word .return_ ++ (rule expression).opt ++ sym .semicolon
  | whileStmt =>
    word .while_ ++ sym .leftParen ++ rule expression ++ sym .rightParen ++ rule statement
  | block => sym .leftBrace ++ (rule declaration).many ++ sym .rightBrace
  | parameters => commaList ident
  | expression => rule assignment
  | assignment =>
    (rule call ++ sym .dot).opt ++ ident ++ sym .equal ++ rule assignment ||| rule (level .or)
  | level p => rule (operand p) ++ (operator p ++ rule (operand p)).many
  | unary => (sym .bang ||| sym .minus) ++ rule unary ||| rule call
  | call =>
    rule primary ++ (sym .leftParen ++ (rule arguments).opt ++ sym .rightParen
      ||| sym .dot ++ ident).many
  | arguments => commaList (rule expression)
  | primary =>
    token (.number ⟨0⟩) ||| token (.string "") ||| word .true_ ||| word .false_ ||| word .nil_
      ||| word .this_ ||| ident ||| sym .leftParen ++ rule expression ++ sym .rightParen
      ||| word .super_ ++ sym .dot ++ ident

end Nonterminal

/-- The sequences of tokens that an expression of the notation stands for. -/
inductive Derives : Ebnf → List Token → Prop where
  | token {k : TokenKind} {t : Token} (h : t.kind.agrees k = true) : Derives (.token k) [t]
  | rule {r : Nonterminal} {w : List Token} (h : Derives r.body w) : Derives (.rule r) w
  | seq {a b : Ebnf} {u v : List Token} (ha : Derives a u) (hb : Derives b v) :
      Derives (.seq a b) (u ++ v)
  | altLeft {a b : Ebnf} {w : List Token} (h : Derives a w) : Derives (.alt a b) w
  | altRight {a b : Ebnf} {w : List Token} (h : Derives b w) : Derives (.alt a b) w
  | optNone {a : Ebnf} : Derives (.opt a) []
  | optSome {a : Ebnf} {w : List Token} (h : Derives a w) : Derives (.opt a) w
  | manyNil {a : Ebnf} : Derives (.many a) []
  | manyCons {a : Ebnf} {u v : List Token} (h : Derives a u) (more : Derives (.many a) v) :
      Derives (.many a) (u ++ v)
  | upToNil {a : Ebnf} {n : Nat} : Derives (.upTo n a) []
  | upToCons {a : Ebnf} {n : Nat} {u v : List Token} (h : Derives a u)
      (more : Derives (.upTo n a) v) : Derives (.upTo (n + 1) a) (u ++ v)

/-! ## Languages in the place of nonterminals -/

/-- The sequences that an expression stands for when the nonterminals stand for those of `L`. -/
def Ebnf.Denotes (L : Nonterminal → List Token → Prop) : Ebnf → List Token → Prop
  | .token k, w => ∃ t, w = [t] ∧ t.kind.agrees k = true
  | .rule r, w => L r w
  | .seq a b, w => ∃ u v, w = u ++ v ∧ a.Denotes L u ∧ b.Denotes L v
  | .alt a b, w => a.Denotes L w ∨ b.Denotes L w
  | .opt a, w => w = [] ∨ a.Denotes L w
  | .many a, w => ∃ us : List (List Token), w = us.flatten ∧ ∀ u ∈ us, a.Denotes L u
  | .upTo n a, w =>
    ∃ us : List (List Token), us.length ≤ n ∧ w = us.flatten ∧ ∀ u ∈ us, a.Denotes L u

/-- The derivable sequences belong to all languages that the rules are closed under. -/
theorem Derives.denotes {L : Nonterminal → List Token → Prop}
    (closed : ∀ r w, r.body.Denotes L w → L r w) {a : Ebnf} {w : List Token}
    (h : Derives a w) : a.Denotes L w := by
  induction h with
  | token h => exact ⟨_, rfl, h⟩
  | rule _ ih => exact closed _ _ ih
  | seq _ _ iha ihb => exact ⟨_, _, rfl, iha, ihb⟩
  | altLeft _ ih => exact .inl ih
  | altRight _ ih => exact .inr ih
  | optNone => exact .inl rfl
  | optSome _ ih => exact .inr ih
  | manyNil => exact ⟨[], rfl, by simp⟩
  | manyCons _ _ ihu ihv =>
    obtain ⟨us, rfl, hus⟩ := ihv
    exact ⟨_ :: us, rfl, List.forall_mem_cons.mpr ⟨ihu, hus⟩⟩
  | upToNil => exact ⟨[], Nat.zero_le _, rfl, by simp⟩
  | upToCons _ _ ihu ihv =>
    obtain ⟨us, hlen, rfl, hus⟩ := ihv
    exact ⟨_ :: us, Nat.succ_le_succ hlen, rfl, List.forall_mem_cons.mpr ⟨ihu, hus⟩⟩

end LoxWalk
