import Mathlib
import LoxWalk.Proofs.Unparsing.Originals
import LoxWalk.Proofs.Unparsing.Rereading

/-!
# How a tree is grouped

An expression that is read is grouped as the levels of the grammar ask for: an operator has operands
of its own level only on the left, an operand of a looser level only in parentheses, and an
assignment is grouped from the right.  An `else` belongs to the nearest `if` that can have it, so a
statement in front of an `else` does not end in an `if` without one.

Together with `Reads.faithful` and `Reads.renders` this is the main statement: reading the tokens of
a source text neither loses nor invents anything.
-/

namespace LoxWalk

/-! ## Levels -/

namespace Precedence

/-- All levels. -/
def all : List Precedence :=
  [or, and, equality, comparison, term, factor]

/-- The level of an operator. -/
def ofOperator? (k : TokenKind) : Option Precedence :=
  all.find? (·.operators.contains k)

/-- How loosely a level binds; `Expr.rank` continues this to tighter and to looser expressions. -/
def rank (p : Precedence) : Nat :=
  p.height + 2

theorem ofOperator?_of_mem {p : Precedence} {k : TokenKind} (h : k ∈ p.operators) :
    ofOperator? k = some p := by
  have hall : ∀ k ∈ p.operators, ofOperator? k = some p := by
    cases p <;> decide
  exact hall k h

end Precedence

/-- How loosely an expression binds: calls and everything without an operator in front come first,
then prefixed operators, the levels of binary operators, and assignments. -/
def Expr.rank : Expr → Nat
  | .unary _ _ => 1
  | .binary _ operator _ => ((Precedence.ofOperator? operator.kind).map Precedence.rank).getD 8
  | .logical _ operator _ => ((Precedence.ofOperator? operator.kind).map Precedence.rank).getD 8
  | .assign _ _ _ => 8
  | .set _ _ _ => 8
  | _ => 0

theorem Precedence.rank_node {p : Precedence} {t : Token} (ht : t.kind ∈ p.operators)
    (left right : Expr) : (p.node left t right).rank = p.rank := by
  have hof := ofOperator?_of_mem ht
  cases p <;> simp only [node, Expr.rank, hof, Option.map_some, Option.getD_some]

/-- Whether a statement ends in an `if` without `else`. -/
def Stmt.isOpen : Stmt → Bool
  | .if_ _ _ none => true
  | .if_ _ _ (some elseBranch) => elseBranch.isOpen
  | .while_ _ body => body.isOpen
  | _ => false

/-! ## Grouped trees -/

mutual

/-- Operands are grouped by their levels. -/
def Expr.Grouped : Expr → Prop
  | .group inner => inner.Grouped
  | .unary _ operand => operand.Grouped ∧ operand.rank ≤ 1
  | .binary left operator right =>
    left.Grouped ∧ right.Grouped ∧ ∃ p : Precedence, operator.kind ∈ p.operators ∧
      (p ≠ .or ∧ p ≠ .and) ∧ left.rank ≤ p.rank ∧ right.rank < p.rank
  | .logical left operator right =>
    left.Grouped ∧ right.Grouped ∧ ∃ p : Precedence, operator.kind ∈ p.operators ∧
      (p = .or ∨ p = .and) ∧ left.rank ≤ p.rank ∧ right.rank < p.rank
  | .assign _ _ value => value.Grouped
  | .call callee _ arguments => callee.Grouped ∧ callee.rank = 0 ∧ Expr.AllGrouped arguments
  | .get object _ => object.Grouped ∧ object.rank = 0
  | .set object _ value => object.Grouped ∧ object.rank = 0 ∧ value.Grouped
  | _ => True

def Expr.AllGrouped : List Expr → Prop
  | [] => True
  | e :: es => e.Grouped ∧ Expr.AllGrouped es

end

mutual

/-- All expressions are grouped, and every `else` belongs to the nearest `if`. -/
def Stmt.Grouped : Stmt → Prop
  | .expression e => e.Grouped
  | .print e => e.Grouped
  | .var _ initializer => ∀ e ∈ initializer, e.Grouped
  | .block body => Stmt.AllGrouped body
  | .if_ condition thenBranch none => condition.Grouped ∧ thenBranch.Grouped
  | .if_ condition thenBranch (some elseBranch) =>
    condition.Grouped ∧ thenBranch.Grouped ∧ thenBranch.isOpen = false ∧ elseBranch.Grouped
  | .while_ condition body => condition.Grouped ∧ body.Grouped
  | .fun_ decl => Stmt.FunctionGrouped decl
  | .return_ _ value => ∀ e ∈ value, e.Grouped
  | .class_ _ superclass methods =>
    (∀ e ∈ superclass, e.Grouped ∧ e.rank = 0) ∧ Stmt.MethodsGrouped methods

def Stmt.AllGrouped : List Stmt → Prop
  | [] => True
  | s :: ss => s.Grouped ∧ Stmt.AllGrouped ss

def Stmt.FunctionGrouped : FunDeclOf Stmt → Prop
  | ⟨_, _, body⟩ => Stmt.AllGrouped body

def Stmt.MethodsGrouped : List (FunDeclOf Stmt) → Prop
  | [] => True
  | f :: fs => Stmt.FunctionGrouped f ∧ Stmt.MethodsGrouped fs

end

theorem Precedence.grouped_node {p : Precedence} {t : Token} (ht : t.kind ∈ p.operators)
    {left right : Expr} (hl : left.Grouped) (hr : right.Grouped) (hle : left.rank ≤ p.rank)
    (hlt : right.rank < p.rank) : (p.node left t right).Grouped := by
  cases p <;> refine ⟨hl, hr, _, ht, ?_⟩ <;> simp [hle, hlt]

/-- What a rule makes of tokens is grouped, if what stands in front is. -/
def Rule.Groups : Rule → Fragment → Prop
  | binary p, .expr e => e.Grouped ∧ e.rank ≤ p.rank
  | binaryRest p left, .expr e =>
    left.Grouped → left.rank ≤ p.rank → e.Grouped ∧ e.rank ≤ p.rank
  | unary, .expr e => e.Grouped ∧ e.rank ≤ 1
  | callRest callee, .expr e => callee.Grouped → callee.rank = 0 → e.Grouped ∧ e.rank = 0
  | primary, .expr e => e.Grouped ∧ e.rank = 0
  | _, .expr e => e.Grouped
  | classHeader, .expr? e => ∀ e' ∈ e, e'.Grouped ∧ e'.rank = 0
  | _, .expr? e => ∀ e' ∈ e, e'.Grouped
  | _, .exprs es => Expr.AllGrouped es
  | _, .names _ => True
  | declaration o, .stmt s => s.Grouped ∧ (s.isOpen = true → o = true)
  | statement o, .stmt s => s.Grouped ∧ (s.isOpen = true → o = true)
  | _, .stmt s => s.Grouped ∧ s.isOpen = false
  | _, .stmt? s => ∀ s' ∈ s, s'.Grouped
  | _, .stmts ss => Stmt.AllGrouped ss
  | _, .decl f => Stmt.FunctionGrouped f
  | _, .decls fs => Stmt.MethodsGrouped fs

/-- The operands of a level are tighter than its operators. -/
theorem Precedence.groups_operand {p : Precedence} {e : Expr} (h : p.operand.Groups (.expr e)) :
    e.Grouped ∧ e.rank < p.rank := by
  cases p <;> exact ⟨h.1, Nat.lt_succ_of_le h.2⟩

theorem Stmt.grouped_ofForClauses {initializer : Option Stmt} {condition increment : Option Expr}
    {body : Stmt} {isOpen : Bool} (h₁ : ∀ s ∈ initializer, s.Grouped)
    (h₂ : ∀ e ∈ condition, e.Grouped) (h₃ : ∀ e ∈ increment, e.Grouped) (h₄ : body.Grouped)
    (ho : body.isOpen = true → isOpen = true) :
    (Stmt.ofForClauses initializer condition increment body).Grouped ∧
      ((Stmt.ofForClauses initializer condition increment body).isOpen = true →
        isOpen = true) := by
  have hcondition : (condition.getD (.literal (.bool true))).Grouped := by
    cases condition with
    | none => trivial
    | some e => exact h₂ e rfl
  cases initializer with
  | none =>
    cases increment with
    | none => exact ⟨⟨hcondition, h₄⟩, ho⟩
    | some e => exact ⟨⟨hcondition, h₄, h₃ e rfl, trivial⟩, fun h => nomatch h⟩
  | some s =>
    have hs := h₁ s rfl
    cases increment with
    | none => exact ⟨⟨hs, ⟨hcondition, h₄⟩, trivial⟩, fun h => nomatch h⟩
    | some e => exact ⟨⟨hs, ⟨hcondition, h₄, h₃ e rfl, trivial⟩, trivial⟩, fun h => nomatch h⟩

/-- What is read is grouped. -/
theorem Reads.groups {r : Rule} {n n' : Nat} {w : List Token} {f : Fragment}
    (h : Reads r n w f n') : r.Groups f := by
  induction h with
  | plain _ ih => exact ih.1
  | assign _ _ _ _ ihv => exact ihv
  | set _ _ _ ihl ihv => exact ⟨ihl.1.1, ihl.1.2, ihv⟩
  | binary _ _ ihl ihm =>
    obtain ⟨hgrouped, hlt⟩ := Precedence.groups_operand ihl
    exact ihm hgrouped (Nat.le_of_lt hlt)
  | binaryStop => exact fun hgrouped hle => ⟨hgrouped, hle⟩
  | binaryMore ht _ _ ihr ihm =>
    intro hgrouped hle
    obtain ⟨hright, hlt⟩ := Precedence.groups_operand ihr
    refine ihm (Precedence.grouped_node ht hgrouped hright hle hlt) ?_
    exact Nat.le_of_eq (Precedence.rank_node ht _ _)
  | prefixed _ _ ih => exact ⟨ih, Nat.le_refl 1⟩
  | call _ _ ihp ihm =>
    obtain ⟨hgrouped, hrank⟩ := ihm ihp.1 ihp.2
    exact ⟨hgrouped, by omega⟩
  | callStop => exact fun hgrouped hrank => ⟨hgrouped, hrank⟩
  | callEmpty _ _ _ ih => exact fun hgrouped hrank => ih ⟨hgrouped, hrank, trivial⟩ rfl
  | callWith _ _ _ _ iha ihm => exact fun hgrouped hrank => ihm ⟨hgrouped, hrank, iha⟩ rfl
  | property _ _ _ ih => exact fun hgrouped hrank => ih ⟨hgrouped, hrank⟩ rfl
  | lastArgument _ _ ih => exact ⟨ih, trivial⟩
  | nextArgument _ _ _ _ ihe ihm => exact ⟨ihe, ihm⟩
  | literal => exact ⟨trivial, rfl⟩
  | this => exact ⟨trivial, rfl⟩
  | super => exact ⟨trivial, rfl⟩
  | name => exact ⟨trivial, rfl⟩
  | group _ _ _ ih => exact ⟨ih, rfl⟩
  | terminated _ _ _ ih => exact ih
  | omitted => exact fun e he => nomatch he
  | given _ ih =>
    rintro e ⟨⟩
    exact ih
  | parenthesized _ _ ih => exact ih
  | initialized _ _ _ ih =>
    refine ⟨?_, rfl⟩
    rintro e ⟨⟩
    exact ih
  | uninitialized => exact ⟨fun e he => (nomatch he), rfl⟩
  | forNothing => exact fun s hs => nomatch hs
  | forVariable _ _ ih =>
    rintro s ⟨⟩
    exact ih.1
  | forExpression _ ih =>
    rintro s ⟨⟩
    exact ih
  | lastParameter => trivial
  | nextParameter => trivial
  | noParameters => trivial
  | someParameters => trivial
  | base => exact fun e he => nomatch he
  | derived =>
    rintro e ⟨⟩
    exact ⟨trivial, rfl⟩
  | declaredClass _ _ ih => exact ⟨ih.1, fun h => nomatch ih.2.symm.trans h⟩
  | declaredFunction _ _ ih => exact ⟨ih, fun h => nomatch h⟩
  | declaredVariable _ _ ih => exact ⟨ih.1, fun h => nomatch ih.2.symm.trans h⟩
  | statement _ ih => exact ih
  | classDeclaration _ _ _ ihh ihm => exact ⟨⟨ihh, ihm⟩, rfl⟩
  | noMethods => trivial
  | nextMethod _ _ ihf ihm => exact ⟨ihf, ihm⟩
  | function _ _ _ _ _ _ ihb => exact ihb
  | blockEnd => trivial
  | blockNext _ _ ihs ihm => exact ⟨ihs.1, ihm⟩
  | for_ _ _ _ _ _ _ ih₁ ih₂ ih₃ ih₄ => exact Stmt.grouped_ofForClauses ih₁ ih₂ ih₃ ih₄.1 ih₄.2
  | ifThen _ _ _ ihc iht => exact ⟨⟨ihc, iht.1⟩, fun _ => rfl⟩
  | ifElse _ _ _ _ _ ihc iht ihe =>
    have hclosed := Bool.eq_false_iff.mpr fun h => nomatch iht.2 h
    exact ⟨⟨ihc, iht.1, hclosed, ihe.1⟩, ihe.2⟩
  | while_ _ _ _ ihc ihb => exact ⟨⟨ihc, ihb.1⟩, ihb.2⟩
  | return_ _ _ ih => exact ⟨ih, fun h => nomatch h⟩
  | print _ _ ih => exact ⟨ih, fun h => nomatch h⟩
  | block _ _ ih => exact ⟨ih, fun h => nomatch h⟩
  | expressionStatement _ ih => exact ⟨ih, fun h => nomatch h⟩
  | programEnd => trivial
  | programNext _ _ ihs ihm => exact ⟨ihs.1, ihm⟩

/-! ## Reading and writing -/

theorem Precedence.eof_not_mem_operators (p : Precedence) : TokenKind.eof ∉ p.operators := by
  cases p <;> decide

theorem Cursor.literal?_eof : literal? .eof = none := rfl

/-- No rule reads the end of the input. -/
theorem Reads.ne_eof {r : Rule} {n n' : Nat} {w : List Token} {f : Fragment}
    (h : Reads r n w f n') : ∀ t ∈ w, t.kind ≠ .eof := by
  induction h <;> grind [Precedence.eof_not_mem_operators, Cursor.literal?_eof]

namespace Grammar

/-- The tokens that a program is read from can be any of those in front of the end. -/
theorem program_of_reads {n n' : Nat} {w : List Token} {ss : List Stmt}
    (h : Reads .program n w (.stmts ss) n') : (program n w).result = .ok ss := by
  have hbody : body w = w := by
    rw [body, List.takeWhile_eq_self_iff]
    intro t ht
    simpa [Token.isEof] using h.ne_eof t ht
  rw [program_eq_ok_iff, start, hbody]
  have hread := h.readBy [] [] (by rintro _ ⟨⟩) rfl
  rw [List.append_nil] at hread
  rw [hread]
  exact ⟨rfl, rfl⟩

/-- The tree of an accepted source text can be written down and read again, it has the tokens of the
text unless there is a `for` among them, and it is grouped as the grammar asks for. -/
theorem unparse_program {n : Nat} {source : String} {ss : List Stmt}
    (h : (program n (Source.tokens source)).result = .ok ss) :
    (∀ m, ∃ ss', (program m (Stmt.listTokens ss)).result = .ok ss' ∧
        Stmt.eraseAll ss' = Stmt.eraseAll ss) ∧
      ((∀ t ∈ Source.tokens source, t.kind ≠ .keyword .for_) →
        List.Forall₂ Token.SameText (Stmt.listTokens ss) (body (Source.tokens source))) ∧
      Stmt.AllGrouped ss := by
  have hreads := reads_of_program_eq_ok h
  refine ⟨fun m => ?_, fun hfor => ?_, hreads.groups⟩
  · obtain ⟨ss', m', herase, hreads'⟩ := hreads.faithful m
    exact ⟨ss', program_of_reads hreads', herase⟩
  · refine hreads.renders fun t ht => ?_
    have hmem : t ∈ Source.tokens source := (List.takeWhile_prefix _).subset ht
    exact ⟨Source.spelled_of_mem_tokens hmem, hfor t hmem⟩

/-- The tree of `if(a)if(b)c=d-e-f;else g;`. -/
def nested : List Stmt :=
  let name (x : String) : Token := ⟨.identifier, x, 1⟩
  let minus : Token := ⟨.symbol .minus, "-", 1⟩
  let difference : Expr :=
    .binary (.binary (.var ⟨3⟩ (name "d")) minus (.var ⟨4⟩ (name "e"))) minus (.var ⟨5⟩ (name "f"))
  [.if_ (.var ⟨0⟩ (name "a"))
    (.if_ (.var ⟨1⟩ (name "b")) (.expression (.assign ⟨6⟩ (name "c") difference))
      (some (.expression (.var ⟨7⟩ (name "g")))))
    none]

/-- An assignment of a difference in front of an `else`. -/
theorem unparse_program_nested :
    (program 0 (Source.tokens "if(a)if(b)c=d-e-f;else g;")).result = .ok nested ∧
      (∃ ss, (program 9 (Stmt.listTokens nested)).result = .ok ss ∧
        Stmt.eraseAll ss = Stmt.eraseAll nested) ∧
      List.Forall₂ Token.SameText (Stmt.listTokens nested)
        (body (Source.tokens "if(a)if(b)c=d-e-f;else g;")) ∧
      Stmt.AllGrouped nested := by
  have hparsed : (program 0 (Source.tokens "if(a)if(b)c=d-e-f;else g;")).result = .ok nested := by
    cbv
  obtain ⟨hreread, hsame, hgrouped⟩ := unparse_program hparsed
  exact ⟨hparsed, hreread 9, hsame (by decide +kernel), hgrouped⟩

end Grammar

end LoxWalk
