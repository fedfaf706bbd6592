import LoxWalk.Proofs.Grammar.Completeness
import LoxWalk.Proofs.Grammar.Derivation
import LoxWalk.Proofs.Grammar.Soundness
import LoxWalk.Proofs.Scanning

/-!
# A program is accepted exactly when the grammar derives it

`Nonterminal.Readable` says that the tokens of a nonterminal make up a fragment of its rule.  These
languages are closed under the rules of the grammar (`Nonterminal.readable_of_denotes`), so they
contain the derivable sequences.

The grammar leaves open to which `if` an `else` belongs, and the reader does not: an open statement
in front of an `else` is read as another statement, which has taken the `else` into its innermost
open `if` (`Reads.exists_of_else`).  The main statement is `Grammar.accepts_iff_derives`.
-/

namespace LoxWalk

/-! ## Tokens of a given kind -/

namespace TokenKind

theorem eq_of_agrees_symbol {k : TokenKind} {s : Symbol} (h : k.agrees (.symbol s) = true) :
    k = .symbol s := by
  cases k <;> simp_all [agrees]

theorem eq_of_agrees_keyword {k : TokenKind} {s : Keyword} (h : k.agrees (.keyword s) = true) :
    k = .keyword s := by
  cases k <;> simp_all [agrees]

theorem eq_of_agrees_identifier {k : TokenKind} (h : k.agrees .identifier = true) :
    k = .identifier := by
  cases k <;> simp_all [agrees]

theorem eq_of_agrees_eof {k : TokenKind} (h : k.agrees .eof = true) : k = .eof := by
  cases k <;> simp_all [agrees]

end TokenKind

open TokenKind

/-! ## Fragments put together -/

namespace Reads

variable {n n₁ n₂ : Nat} {u w : List Token} {e e' : Expr}

/-- A unary expression is an expression of each level. -/
theorem binary_of_unary (p : Precedence) (h : Reads .unary n w (.expr e) n₁) :
    Reads (.binary p) n w (.expr e) n₁ := by
  have step : ∀ q : Precedence, Reads q.operand n w (.expr e) n₁ →
      Reads (.binary q) n w (.expr e) n₁ := by
    intro q hq
    simpa using Reads.binary hq .binaryStop
  cases p with
  | factor => exact step _ h
  | term => exact step _ (step .factor h)
  | comparison => exact step _ (step .term (step .factor h))
  | equality => exact step _ (step .comparison (step .term (step .factor h)))
  | and => exact step _ (step .equality (step .comparison (step .term (step .factor h))))
  | or => exact step _ (step .and (step .equality (step .comparison (step .term (step .factor h)))))

/-- A property access behind calls and property accesses. -/
theorem callRest_property {d name : Token} (h : Reads (.callRest e) n w (.expr e') n₁)
    (hd : d.kind = .symbol .dot) (hname : name.kind = .identifier) :
    Reads (.callRest e) n (w ++ [d, name]) (.expr (.get e' name)) n₁ := by
  generalize hr : Rule.callRest e = r at h
  generalize hf : Fragment.expr e' = f at h
  induction h generalizing e with
  | callStop =>
    cases hr
    cases hf
    exact .property hd hname .callStop
  | callEmpty ht ht' _ ih =>
    cases hr
    exact .callEmpty ht ht' (ih rfl hf)
  | callWith ht args ht' _ _ ih =>
    cases hr
    have := Reads.callWith ht args ht' (ih rfl hf)
    simpa using this
  | property ht hname' _ ih =>
    cases hr
    exact .property ht hname' (ih rfl hf)
  | _ => cases hr

/-- An open statement takes an `else` with its branch into the innermost open `if`. -/
theorem exists_of_else {o : Bool} {s s' : Stmt} {t : Token}
    (h : Reads (.statement true) n w (.stmt s) n₁) (ht : t.kind = .keyword .else_)
    (h' : Reads (.statement o) n₁ u (.stmt s') n₂) :
    ∃ o' s'', Reads (.statement o') n (w ++ t :: u) (.stmt s'') n₂ := by
  generalize hr : Rule.statement true = r at h
  generalize hf : Fragment.stmt s = f at h
  induction h generalizing s with
  | for_ hfor hopen h₁ h₂ h₃ _ _ _ _ ih =>
    cases hr
    obtain ⟨o', s'', hs⟩ := ih h' rfl rfl
    have := Reads.for_ hfor hopen h₁ h₂ h₃ hs
    exact ⟨o', _, by simpa using this⟩
  | @ifThen o₁ _ _ _ _ _ _ _ _ hif hcondition h₁ _ ih₁ =>
    cases o₁ with
    | false =>
      have := Reads.ifElse hif hcondition h₁ ht h'
      exact ⟨o, _, by simpa using this⟩
    | true =>
      obtain ⟨o', s'', hs⟩ := ih₁ h' rfl rfl
      have := Reads.ifThen hif hcondition hs
      exact ⟨true, _, by simpa using this⟩
  | ifElse hif hcondition h₁ helse _ _ _ ih₂ =>
    cases hr
    obtain ⟨o', s'', hs⟩ := ih₂ h' rfl rfl
    have := Reads.ifElse hif hcondition h₁ helse hs
    exact ⟨o', _, by simpa using this⟩
  | while_ hwhile hcondition _ _ ih =>
    cases hr
    obtain ⟨o', s'', hs⟩ := ih h' rfl rfl
    have := Reads.while_ hwhile hcondition hs
    exact ⟨o', _, by simpa using this⟩
  | _ => cases hr

end Reads

/-! ## The languages of the reader -/

/-- Whatever the next free identity is, the tokens are a fragment of the form `form`. -/
def Rule.Readable {α : Type} (r : Rule) (form : α → Fragment) (w : List Token) : Prop :=
  ∀ n, ∃ a n', Reads r n w (form a) n'

/-- Whatever the next free identity is, the tokens are a statement, open or not. -/
def Statement.Readable (w : List Token) : Prop :=
  ∀ n, ∃ o s n', Reads (.statement o) n w (.stmt s) n'

/-- What the reader takes for a nonterminal. -/
def Nonterminal.Readable : Nonterminal → List Token → Prop
  | program, w => ∃ v t, w = v ++ [t] ∧ t.kind = .eof ∧ Rule.program.Readable .stmts v
  | declaration, w => ∀ n, ∃ o s n', Reads (.declaration o) n w (.stmt s) n'
  | classDecl, w | funDecl, w => (Rule.declaration false).Readable .stmt w
  | function, w => Rule.function.Readable .decl w
  | varDecl, w =>
    ∃ t v, w = t :: v ∧ t.kind = .keyword .var_ ∧ Rule.variableDeclaration.Readable .stmt v
  | statement, w | forStmt, w | ifStmt, w | printStmt, w | returnStmt, w | whileStmt, w =>
    Statement.Readable w
  | exprStmt, w => (Rule.terminated .semicolon).Readable .expr w
  | block, w => ∃ t v, w = t :: v ∧ t.kind = .symbol .leftBrace ∧ Rule.block.Readable .stmts v
  | parameters, w => (Rule.parameters 0).Readable .names w
  | expression, w | assignment, w => Rule.expression.Readable .expr w
  | level p, w => (Rule.binary p).Readable .expr w
  | unary, w => Rule.unary.Readable .expr w
  | call, w =>
    ∀ n, ∃ u v e e' n₁ n', w = u ++ v ∧ Reads .primary n u (.expr e) n₁ ∧
      Reads (.callRest e) n₁ v (.expr e') n'
  | arguments, w => (Rule.arguments 0).Readable .exprs w
  | primary, w => Rule.primary.Readable .expr w

/-! ## Repetitions -/

/-- Operators and operands behind the first operand. -/
theorem Rule.readable_binaryRest {p : Precedence} {us : List (List Token)}
    (h : ∀ u ∈ us, ∃ t v, u = t :: v ∧ t.kind ∈ p.operators ∧ p.operand.Readable .expr v)
    (left : Expr) : (Rule.binaryRest p left).Readable .expr us.flatten := by
  intro n
  induction us generalizing left n with
  | nil => exact ⟨left, n, .binaryStop⟩
  | cons u us ih =>
    obtain ⟨⟨t, v, rfl, ht, hv⟩, hus⟩ := List.forall_mem_cons.mp h
    obtain ⟨right, n₁, hright⟩ := hv n
    obtain ⟨e, n₂, he⟩ := ih hus (p.node left t right) n₁
    exact ⟨e, n₂, .binaryMore ht hright he⟩

/-- What may follow a callee, once. -/
inductive CallTail : List Token → Prop where
  | empty {t t' : Token} (ht : t.kind = .symbol .leftParen) (ht' : t'.kind = .symbol .rightParen) :
      CallTail [t, t']
  | call {t t' : Token} {w : List Token} (ht : t.kind = .symbol .leftParen)
      (hw : (Rule.arguments 0).Readable .exprs w) (ht' : t'.kind = .symbol .rightParen) :
      CallTail (t :: (w ++ [t']))
  | property {t name : Token} (ht : t.kind = .symbol .dot) (hname : name.kind = .identifier) :
      CallTail [t, name]

/-- Calls and property accesses behind the callee. -/
theorem Rule.readable_callRest {us : List (List Token)} (h : ∀ u ∈ us, CallTail u) (e : Expr) :
    (Rule.callRest e).Readable .expr us.flatten := by
  intro n
  induction us generalizing e n with
  | nil => exact ⟨e, n, .callStop⟩
  | cons u us ih =>
    obtain ⟨hu, hus⟩ := List.forall_mem_cons.mp h
    cases hu with
    | @empty t t' ht ht' =>
      obtain ⟨e', n', he'⟩ := ih hus (.call e t' []) n
      exact ⟨e', n', .callEmpty ht ht' he'⟩
    | @call t t' w ht hw ht' =>
      obtain ⟨es, n₁, hes⟩ := hw n
      obtain ⟨e', n', he'⟩ := ih hus (.call e t' es) n₁
      have := Reads.callWith ht hes ht' he'
      exact ⟨e', n', by simpa using this⟩
    | @property t name ht hname =>
      obtain ⟨e', n', he'⟩ := ih hus (.get e name) n
      exact ⟨e', n', .property ht hname he'⟩

/-- Arguments behind `count` others. -/
theorem Rule.readable_arguments {us : List (List Token)}
    (h : ∀ u ∈ us, ∃ t v, u = t :: v ∧ t.kind = .symbol .comma ∧ Rule.expression.Readable .expr v)
    {w : List Token} (hw : Rule.expression.Readable .expr w) {count : Nat}
    (hc : count + us.length < maxArity) :
    (Rule.arguments count).Readable .exprs (w ++ us.flatten) := by
  intro n
  induction us generalizing w count n with
  | nil =>
    obtain ⟨e, n', he⟩ := hw n
    exact ⟨[e], n', by simpa using Reads.lastArgument hc he⟩
  | cons u us ih =>
    obtain ⟨⟨t, v, rfl, ht, hv⟩, hus⟩ := List.forall_mem_cons.mp h
    rw [List.length_cons] at hc
    obtain ⟨e, n₁, he⟩ := hw n
    have hcount : count + 1 + us.length < maxArity := by omega
    obtain ⟨es, n₂, hes⟩ := ih hus hv hcount n₁
    exact ⟨e :: es, n₂, .nextArgument (by omega) he ht hes⟩

/-- Parameters behind `count` others. -/
theorem Rule.readable_parameters {us : List (List Token)}
    (h : ∀ u ∈ us, ∃ t name, u = [t, name] ∧ t.kind = .symbol .comma ∧ name.kind = .identifier)
    {name : Token} (hname : name.kind = .identifier) {count : Nat}
    (hc : count + us.length < maxArity) :
    (Rule.parameters count).Readable .names (name :: us.flatten) := by
  intro n
  induction us generalizing name count with
  | nil => exact ⟨[name], n, .lastParameter hc hname⟩
  | cons u us ih =>
    obtain ⟨⟨t, name', rfl, ht, hname'⟩, hus⟩ := List.forall_mem_cons.mp h
    rw [List.length_cons] at hc
    have hcount : count + 1 + us.length < maxArity := by omega
    obtain ⟨names, n', hnames⟩ := ih hus hname' hcount
    exact ⟨name :: names, n', .nextParameter (by omega) hname ht hnames⟩

/-- Methods and the brace behind them. -/
theorem Rule.readable_methods {us : List (List Token)}
    (h : ∀ u ∈ us, Rule.function.Readable .decl u) {t : Token}
    (ht : t.kind = .symbol .rightBrace) : Rule.methods.Readable .decls (us.flatten ++ [t]) := by
  intro n
  induction us generalizing n with
  | nil => exact ⟨[], n, .noMethods ht⟩
  | cons u us ih =>
    obtain ⟨hu, hus⟩ := List.forall_mem_cons.mp h
    obtain ⟨f, n₁, hf⟩ := hu n
    obtain ⟨fs, n₂, hfs⟩ := ih hus n₁
    exact ⟨f :: fs, n₂, by simpa using Reads.nextMethod hf hfs⟩

/-- Declarations and the brace behind them. -/
theorem Rule.readable_block {us : List (List Token)}
    (h : ∀ u ∈ us, Nonterminal.declaration.Readable u) {t : Token}
    (ht : t.kind = .symbol .rightBrace) : Rule.block.Readable .stmts (us.flatten ++ [t]) := by
  intro n
  induction us generalizing n with
  | nil => exact ⟨[], n, .blockEnd ht⟩
  | cons u us ih =>
    obtain ⟨hu, hus⟩ := List.forall_mem_cons.mp h
    obtain ⟨o, s, n₁, hs⟩ := hu n
    obtain ⟨ss, n₂, hss⟩ := ih hus n₁
    exact ⟨s :: ss, n₂, by simpa using Reads.blockNext hs hss⟩

/-- The declarations of a program. -/
theorem Rule.readable_program {us : List (List Token)}
    (h : ∀ u ∈ us, Nonterminal.declaration.Readable u) :
    Rule.program.Readable .stmts us.flatten := by
  intro n
  induction us generalizing n with
  | nil => exact ⟨[], n, .programEnd⟩
  | cons u us ih =>
    obtain ⟨hu, hus⟩ := List.forall_mem_cons.mp h
    obtain ⟨o, s, n₁, hs⟩ := hu n
    obtain ⟨ss, n₂, hss⟩ := ih hus n₁
    exact ⟨s :: ss, n₂, .programNext hs hss⟩

/-! ## Closure under the rules -/

namespace Nonterminal

variable {w : List Token}

theorem readable_operator {p : Precedence} (h : (Ebnf.operator p).Denotes Readable w) :
    ∃ t, w = [t] ∧ t.kind ∈ p.operators := by
  cases p with
  | or | and =>
    obtain ⟨t, rfl, ht⟩ := h
    exact ⟨t, rfl, by simp [Precedence.operators, eq_of_agrees_keyword ht]⟩
  | equality | term | factor =>
    rcases h with ⟨t, rfl, ht⟩ | ⟨t, rfl, ht⟩ <;>
      exact ⟨t, rfl, by simp [Precedence.operators, eq_of_agrees_symbol ht]⟩
  | comparison =>
    rcases h with ((⟨t, rfl, ht⟩ | ⟨t, rfl, ht⟩) | ⟨t, rfl, ht⟩) | ⟨t, rfl, ht⟩ <;>
      exact ⟨t, rfl, by simp [Precedence.operators, eq_of_agrees_symbol ht]⟩

theorem readable_classDecl (h : classDecl.body.Denotes Readable w) : classDecl.Readable w := by
  obtain ⟨_, _, rfl, ⟨_, _, rfl, ⟨_, _, rfl, ⟨_, _, rfl, ⟨_, _, rfl, ⟨t, rfl, ht⟩, ⟨name, rfl,
    hname⟩⟩, hsuper⟩, ⟨t', rfl, ht'⟩⟩, ⟨us, rfl, hus⟩⟩, ⟨t'', rfl, ht''⟩⟩ := h
  intro n
  have hmethods := Rule.readable_methods hus (eq_of_agrees_symbol ht'')
  rcases hsuper with rfl | ⟨_, _, rfl, ⟨less, rfl, hless⟩, ⟨superclass, rfl, hs⟩⟩
  · obtain ⟨fs, n', hfs⟩ := hmethods n
    have := Reads.declaredClass (eq_of_agrees_keyword ht) (.classDeclaration
      (eq_of_agrees_identifier hname) (.base (eq_of_agrees_symbol ht')) hfs)
    exact ⟨_, n', by simpa using this⟩
  · obtain ⟨fs, n', hfs⟩ := hmethods (n + 1)
    have := Reads.declaredClass (eq_of_agrees_keyword ht) (.classDeclaration
      (eq_of_agrees_identifier hname) (.derived (eq_of_agrees_symbol hless)
        (eq_of_agrees_identifier hs) (eq_of_agrees_symbol ht')) hfs)
    exact ⟨_, n', by simpa using this⟩

theorem readable_function (h : function.body.Denotes Readable w) : function.Readable w := by
  obtain ⟨_, _, rfl, ⟨_, _, rfl, ⟨_, u, rfl, ⟨_, _, rfl, ⟨name, rfl, hname⟩, ⟨t, rfl, ht⟩⟩, hparams⟩,
    ⟨t', rfl, ht'⟩⟩, ⟨t'', v, rfl, ht'', hv⟩⟩ := h
  intro n
  obtain ⟨params, n₁, hp⟩ : ∃ params n₁, Reads .parameterList n (u ++ [t']) (.names params) n₁ := by
    rcases hparams with rfl | hparams
    · exact ⟨[], n, .noParameters (eq_of_agrees_symbol ht')⟩
    · obtain ⟨names, n₁, hnames⟩ := hparams n
      exact ⟨names, n₁, .someParameters hnames (eq_of_agrees_symbol ht')⟩
  obtain ⟨body, n₂, hbody⟩ := hv n₁
  have := Reads.function (eq_of_agrees_identifier hname) (eq_of_agrees_symbol ht) hp ht'' hbody
  exact ⟨_, n₂, by simpa using this⟩

theorem readable_varDecl (h : varDecl.body.Denotes Readable w) : varDecl.Readable w := by
  obtain ⟨_, _, rfl, ⟨_, u, rfl, ⟨_, _, rfl, ⟨t, rfl, ht⟩, ⟨name, rfl, hname⟩⟩, hvalue⟩,
    ⟨t', rfl, ht'⟩⟩ := h
  refine ⟨t, name :: (u ++ [t']), by simp, eq_of_agrees_keyword ht, fun n => ?_⟩
  rcases hvalue with rfl | ⟨_, v, rfl, ⟨equal, rfl, hequal⟩, hv⟩
  · exact ⟨_, n, .uninitialized (eq_of_agrees_identifier hname) (eq_of_agrees_symbol ht')⟩
  · obtain ⟨e, n', he⟩ := hv n
    exact ⟨_, n', .initialized (eq_of_agrees_identifier hname) (eq_of_agrees_symbol hequal)
      (.terminated rfl he (eq_of_agrees_symbol ht'))⟩

/-- An expression that may be left out, and the symbol behind it. -/
theorem readable_optional {s : Symbol} {t : Token} (hs : s.endsExpression = true)
    (h : (Ebnf.rule expression).opt.Denotes Readable w) (ht : t.kind = .symbol s) :
    (Rule.optional s).Readable .expr? (w ++ [t]) := by
  intro n
  rcases h with rfl | h
  · exact ⟨none, n, .omitted ht⟩
  · obtain ⟨e, n', he⟩ := h n
    exact ⟨some e, n', .given (.terminated hs he ht)⟩

/-- A condition. -/
theorem readable_parenthesized {t t' : Token} (h : expression.Readable w)
    (ht : t.kind = .symbol .leftParen) (ht' : t'.kind = .symbol .rightParen) :
    Rule.parenthesized.Readable .expr (t :: (w ++ [t'])) := by
  intro n
  obtain ⟨e, n', he⟩ := h n
  exact ⟨e, n', .parenthesized ht (.terminated rfl he ht')⟩

theorem readable_forStmt (h : forStmt.body.Denotes Readable w) : forStmt.Readable w := by
  obtain ⟨_, w₄, rfl, ⟨_, _, rfl, ⟨_, w₃, rfl, ⟨_, _, rfl, ⟨_, w₂, rfl, ⟨_, w₁, rfl, ⟨_, _, rfl,
    ⟨t, rfl, ht⟩, ⟨t', rfl, ht'⟩⟩, hinitializer⟩, hcondition⟩, ⟨s, rfl, hs⟩⟩, hincrement⟩,
    ⟨s', rfl, hs'⟩⟩, hbody⟩ := h
  intro n
  obtain ⟨initializer, n₁, h₁⟩ : ∃ i n₁, Reads .forInitializer n w₁ (.stmt? i) n₁ := by
    rcases hinitializer with (⟨t, v, rfl, ht, hv⟩ | he) | ⟨t, rfl, ht⟩
    · obtain ⟨s, n₁, hs⟩ := hv n
      exact ⟨some s, n₁, .forVariable ht hs⟩
    · obtain ⟨e, n₁, he⟩ := he n
      exact ⟨some (.expression e), n₁, .forExpression he⟩
    · exact ⟨none, n, .forNothing (eq_of_agrees_symbol ht)⟩
  obtain ⟨condition, n₂, h₂⟩ := readable_optional rfl hcondition (eq_of_agrees_symbol hs) n₁
  obtain ⟨increment, n₃, h₃⟩ := readable_optional rfl hincrement (eq_of_agrees_symbol hs') n₂
  obtain ⟨o, body, n₄, h₄⟩ := hbody n₃
  have := Reads.for_ (eq_of_agrees_keyword ht) (eq_of_agrees_symbol ht') h₁ h₂ h₃ h₄
  exact ⟨o, _, n₄, by simpa using this⟩

theorem readable_ifStmt (h : ifStmt.body.Denotes Readable w) : ifStmt.Readable w := by
  obtain ⟨_, w₂, rfl, ⟨_, w₁, rfl, ⟨_, _, rfl, ⟨_, _, rfl, ⟨_, _, rfl, ⟨t, rfl, ht⟩, ⟨t', rfl, ht'⟩⟩,
    hcondition⟩, ⟨t'', rfl, ht''⟩⟩, hthen⟩, helse⟩ := h
  intro n
  obtain ⟨condition, n₁, hc⟩ := readable_parenthesized hcondition (eq_of_agrees_symbol ht')
    (eq_of_agrees_symbol ht'') n
  obtain ⟨o, thenBranch, n₂, h₁⟩ := hthen n₁
  rcases helse with rfl | ⟨_, v, rfl, ⟨e, rfl, he⟩, hv⟩
  · have := Reads.ifThen (eq_of_agrees_keyword ht) hc h₁
    exact ⟨true, _, n₂, by simpa using this⟩
  · obtain ⟨o', elseBranch, n₃, h₂⟩ := hv n₂
    cases o with
    | false =>
      have := Reads.ifElse (eq_of_agrees_keyword ht) hc h₁ (eq_of_agrees_keyword he) h₂
      exact ⟨o', _, n₃, by simpa using this⟩
    | true =>
      obtain ⟨o'', s, hs⟩ := h₁.exists_of_else (eq_of_agrees_keyword he) h₂
      have := Reads.ifThen (eq_of_agrees_keyword ht) hc hs
      exact ⟨true, _, n₃, by simpa using this⟩

theorem readable_whileStmt (h : whileStmt.body.Denotes Readable w) : whileStmt.Readable w := by
  obtain ⟨_, w₁, rfl, ⟨_, _, rfl, ⟨_, _, rfl, ⟨_, _, rfl, ⟨t, rfl, ht⟩, ⟨t', rfl, ht'⟩⟩,
    hcondition⟩, ⟨t'', rfl, ht''⟩⟩, hbody⟩ := h
  intro n
  obtain ⟨condition, n₁, hc⟩ := readable_parenthesized hcondition (eq_of_agrees_symbol ht')
    (eq_of_agrees_symbol ht'') n
  obtain ⟨o, body, n₂, hb⟩ := hbody n₁
  have := Reads.while_ (eq_of_agrees_keyword ht) hc hb
  exact ⟨o, _, n₂, by simpa using this⟩

theorem readable_assignment (h : assignment.body.Denotes Readable w) : assignment.Readable w := by
  intro n
  rcases h with ⟨_, v, rfl, ⟨_, _, rfl, ⟨u, _, rfl, hcall, ⟨name, rfl, hname⟩⟩, ⟨t, rfl, ht⟩⟩, hv⟩ | h
  · have ht := eq_of_agrees_symbol ht
    have hname := eq_of_agrees_identifier hname
    rcases hcall with rfl | ⟨_, _, rfl, hcall, ⟨d, rfl, hd⟩⟩
    · have hleft := (Reads.call (n := n) (.name hname) .callStop).binary_of_unary .or
      obtain ⟨value, n', hvalue⟩ := hv (n + 1)
      exact ⟨_, _, by simpa using Reads.assign hleft ht hvalue⟩
    · obtain ⟨u, v', e, e', n₁, n₂, rfl, hfirst, hmore⟩ := hcall n
      have hmore := hmore.callRest_property (eq_of_agrees_symbol hd) hname
      have hleft := (Reads.call hfirst hmore).binary_of_unary .or
      obtain ⟨value, n', hvalue⟩ := hv n₂
      exact ⟨_, _, by simpa using Reads.set hleft ht hvalue⟩
  · obtain ⟨e, n', he⟩ := h n
    exact ⟨e, n', .plain he⟩

theorem readable_level {p : Precedence} (h : (level p).body.Denotes Readable w) :
    (level p).Readable w := by
  obtain ⟨u, _, rfl, hfirst, ⟨us, rfl, hus⟩⟩ := h
  have hoperand : ∀ {v}, (operand p).Readable v → p.operand.Readable .expr v := by
    cases p <;> exact fun h => h
  intro n
  obtain ⟨left, n₁, hleft⟩ := hoperand hfirst n
  have hmore : ∀ u ∈ us, ∃ t v, u = t :: v ∧ t.kind ∈ p.operators ∧ p.operand.Readable .expr v := by
    intro u hu
    obtain ⟨_, v, rfl, hop, hv⟩ := hus u hu
    obtain ⟨t, rfl, ht⟩ := readable_operator hop
    exact ⟨t, v, rfl, ht, hoperand hv⟩
  obtain ⟨e, n₂, he⟩ := Rule.readable_binaryRest hmore left n₁
  exact ⟨e, n₂, .binary hleft he⟩

theorem readable_unary (h : unary.body.Denotes Readable w) : unary.Readable w := by
  intro n
  rcases h with ⟨_, v, rfl, hop, hv⟩ | hcall
  · obtain ⟨e, n', he⟩ := hv n
    rcases hop with ⟨t, rfl, ht⟩ | ⟨t, rfl, ht⟩
    · exact ⟨_, n', .prefixed (.inl (eq_of_agrees_symbol ht)) he⟩
    · exact ⟨_, n', .prefixed (.inr (eq_of_agrees_symbol ht)) he⟩
  · obtain ⟨u, v, e, e', n₁, n', rfl, hfirst, hmore⟩ := hcall n
    exact ⟨e', n', .call hfirst hmore⟩

theorem readable_call (h : call.body.Denotes Readable w) : call.Readable w := by
  obtain ⟨u, _, rfl, hfirst, ⟨us, rfl, hus⟩⟩ := h
  have htails : ∀ v ∈ us, CallTail v := by
    intro v hv
    rcases hus v hv with ⟨_, _, rfl, ⟨_, _, rfl, ⟨t, rfl, ht⟩, hargs⟩, ⟨t', rfl, ht'⟩⟩ |
      ⟨_, _, rfl, ⟨d, rfl, hd⟩, ⟨name, rfl, hname⟩⟩
    · rcases hargs with rfl | hargs
      · exact .empty (eq_of_agrees_symbol ht) (eq_of_agrees_symbol ht')
      · exact .call (eq_of_agrees_symbol ht) hargs (eq_of_agrees_symbol ht')
    · exact .property (eq_of_agrees_symbol hd) (eq_of_agrees_identifier hname)
  intro n
  obtain ⟨e, n₁, he⟩ := hfirst n
  obtain ⟨e', n₂, he'⟩ := Rule.readable_callRest htails e n₁
  exact ⟨u, us.flatten, e, e', n₁, n₂, rfl, he, he'⟩

theorem readable_arguments (h : arguments.body.Denotes Readable w) : arguments.Readable w := by
  obtain ⟨u, _, rfl, hfirst, ⟨us, hlen, rfl, hus⟩⟩ := h
  refine Rule.readable_arguments (fun v hv => ?_) hfirst (by unfold maxArity at *; omega)
  obtain ⟨_, v', rfl, ⟨t, rfl, ht⟩, hentry⟩ := hus v hv
  exact ⟨t, v', rfl, eq_of_agrees_symbol ht, hentry⟩

theorem readable_parameters (h : parameters.body.Denotes Readable w) : parameters.Readable w := by
  obtain ⟨_, _, rfl, ⟨name, rfl, hname⟩, ⟨us, hlen, rfl, hus⟩⟩ := h
  refine Rule.readable_parameters (fun v hv => ?_) (eq_of_agrees_identifier hname)
    (by unfold maxArity at *; omega)
  obtain ⟨_, _, rfl, ⟨t, rfl, ht⟩, ⟨name', rfl, hname'⟩⟩ := hus v hv
  exact ⟨t, name', rfl, eq_of_agrees_symbol ht, eq_of_agrees_identifier hname'⟩

/-- A token that stands for a constant. -/
theorem readable_literal {t : Token} {value : Literal} (h : Cursor.literal? t.kind = some value) :
    primary.Readable [t] :=
  fun n => ⟨_, n, .literal h⟩

theorem readable_primary (h : primary.body.Denotes Readable w) : primary.Readable w := by
  rcases h with (((((((((⟨t, rfl, ht⟩ | ⟨t, rfl, ht⟩) | ⟨t, rfl, ht⟩) | ⟨t, rfl, ht⟩) | ⟨t, rfl, ht⟩) |
    ⟨t, rfl, ht⟩) | ⟨t, rfl, ht⟩)) | ⟨_, _, rfl, ⟨_, v, rfl, ⟨t, rfl, ht⟩, hv⟩, ⟨t', rfl, ht'⟩⟩)) |
    ⟨_, _, rfl, ⟨_, _, rfl, ⟨t, rfl, ht⟩, ⟨d, rfl, hd⟩⟩, ⟨m, rfl, hm⟩⟩
  · obtain ⟨x, hx⟩ : ∃ x, t.kind = .number x := by
      generalize t.kind = k at ht
      cases k <;> simp_all [agrees]
    exact readable_literal (by rw [hx]; rfl)
  · obtain ⟨x, hx⟩ : ∃ x, t.kind = .string x := by
      generalize t.kind = k at ht
      cases k <;> simp_all [agrees]
    exact readable_literal (by rw [hx]; rfl)
  · exact readable_literal (by rw [eq_of_agrees_keyword ht]; rfl)
  · exact readable_literal (by rw [eq_of_agrees_keyword ht]; rfl)
  · exact readable_literal (by rw [eq_of_agrees_keyword ht]; rfl)
  · exact fun n => ⟨_, _, .this (eq_of_agrees_keyword ht)⟩
  · exact fun n => ⟨_, _, .name (eq_of_agrees_identifier ht)⟩
  · intro n
    obtain ⟨e, n', he⟩ := hv n
    exact ⟨_, n', by simpa using Reads.group (eq_of_agrees_symbol ht) he (eq_of_agrees_symbol ht')⟩
  · exact fun n => ⟨_, _, .super (eq_of_agrees_keyword ht) (eq_of_agrees_symbol hd)
      (eq_of_agrees_identifier hm)⟩

/-- The languages of the reader are closed under the rules of the grammar. -/
theorem readable_of_denotes (r : Nonterminal) (w : List Token) (h : r.body.Denotes Readable w) :
    r.Readable w := by
  cases r with
  | program =>
    obtain ⟨_, _, rfl, ⟨us, rfl, hus⟩, ⟨t, rfl, ht⟩⟩ := h
    exact ⟨us.flatten, t, rfl, eq_of_agrees_eof ht, Rule.readable_program hus⟩
  | declaration =>
    intro n
    rcases h with ((h | h) | ⟨t, v, rfl, ht, hv⟩) | h
    · obtain ⟨s, n', hs⟩ := h n
      exact ⟨false, s, n', hs⟩
    · obtain ⟨s, n', hs⟩ := h n
      exact ⟨false, s, n', hs⟩
    · obtain ⟨s, n', hs⟩ := hv n
      exact ⟨false, s, n', .declaredVariable ht hs⟩
    · obtain ⟨o, s, n', hs⟩ := h n
      exact ⟨o, s, n', .statement hs⟩
  | classDecl => exact readable_classDecl h
  | funDecl =>
    obtain ⟨_, v, rfl, ⟨t, rfl, ht⟩, hv⟩ := h
    intro n
    obtain ⟨f, n', hf⟩ := hv n
    exact ⟨_, n', .declaredFunction (eq_of_agrees_keyword ht) hf⟩
  | function => exact readable_function h
  | varDecl => exact readable_varDecl h
  | statement =>
    intro n
    rcases h with (((((h | h) | h) | h) | h) | h) | ⟨t, v, rfl, ht, hv⟩
    · obtain ⟨e, n', he⟩ := h n
      exact ⟨false, _, n', .expressionStatement he⟩
    · exact h n
    · exact h n
    · exact h n
    · exact h n
    · exact h n
    · obtain ⟨ss, n', hss⟩ := hv n
      exact ⟨false, _, n', .block ht hss⟩
  | exprStmt =>
    obtain ⟨v, _, rfl, hv, ⟨t, rfl, ht⟩⟩ := h
    intro n
    obtain ⟨e, n', he⟩ := hv n
    exact ⟨e, n', .terminated rfl he (eq_of_agrees_symbol ht)⟩
  | forStmt => exact readable_forStmt h
  | ifStmt => exact readable_ifStmt h
  | printStmt =>
    obtain ⟨_, _, rfl, ⟨_, v, rfl, ⟨t, rfl, ht⟩, hv⟩, ⟨t', rfl, ht'⟩⟩ := h
    intro n
    obtain ⟨e, n', he⟩ := hv n
    have := Reads.print (eq_of_agrees_keyword ht) (.terminated rfl he (eq_of_agrees_symbol ht'))
    exact ⟨false, _, n', by simpa using this⟩
  | returnStmt =>
    obtain ⟨_, _, rfl, ⟨_, v, rfl, ⟨t, rfl, ht⟩, hv⟩, ⟨t', rfl, ht'⟩⟩ := h
    intro n
    obtain ⟨value, n', hvalue⟩ := readable_optional rfl hv (eq_of_agrees_symbol ht') n
    have := Reads.return_ (eq_of_agrees_keyword ht) hvalue
    exact ⟨false, _, n', by simpa using this⟩
  | whileStmt => exact readable_whileStmt h
  | block =>
    obtain ⟨_, _, rfl, ⟨_, _, rfl, ⟨t, rfl, ht⟩, ⟨us, rfl, hus⟩⟩, ⟨t', rfl, ht'⟩⟩ := h
    exact ⟨t, us.flatten ++ [t'], by simp, eq_of_agrees_symbol ht,
      Rule.readable_block hus (eq_of_agrees_symbol ht')⟩
  | parameters => exact readable_parameters h
  | expression => exact h
  | assignment => exact readable_assignment h
  | level p => exact readable_level h
  | unary => exact readable_unary h
  | call => exact readable_call h
  | arguments => exact readable_arguments h
  | primary => exact readable_primary h

end Nonterminal

/-! ## Acceptance -/

namespace Grammar

theorem body_concat {w : List Token} {t : Token} (ht : t.kind = .eof)
    (hw : ∀ u ∈ w, u.isEof = false) : body (w ++ [t]) = w := by
  unfold body
  rw [List.takeWhile_append_of_pos (by simpa using hw),
    List.takeWhile_cons_of_neg (by simp [ht, Token.isEof]), List.append_nil]

/-- A program is accepted when there is no complaint about it. -/
theorem program_eq_ok_iff {n : Nat} {ts : List Token} {ss : List Stmt} :
    (program n ts).result = .ok ss ↔
      (start n ts).program.1 = ss ∧ (start n ts).program.2.complaints = [] := by
  unfold program conclude errors
  generalize (start n ts).program = r
  obtain ⟨tree, c⟩ := r
  cases h : c.complaints <;> simp [h]

/-- A program is refused for the complaints about it. -/
theorem program_eq_error_iff {n : Nat} {ts : List Token} {es : List ParseError} :
    (program n ts).result = .error es ↔ errors ts (start n ts).program.2 = es ∧ es ≠ [] := by
  unfold program conclude
  generalize (start n ts).program = r
  obtain ⟨tree, c⟩ := r
  cases h : errors ts c with
  | nil => simp [h, eq_comm]
  | cons e es' =>
    simp only [h, Except.error.injEq, iff_self_and]
    rintro rfl
    exact List.cons_ne_nil _ _

theorem nextId_program (n : Nat) (ts : List Token) :
    (program n ts).nextId = (start n ts).program.2.nextId := by
  unfold program conclude
  generalize (start n ts).program = r
  obtain ⟨tree, c⟩ := r
  dsimp only
  split <;> rfl

/-- No identity is given out again, whether the program is accepted or not. -/
theorem nextId_le (n : Nat) (ts : List Token) : n ≤ (program n ts).nextId := by
  rw [nextId_program]
  exact (Cursor.program_explains (start n ts)).1.nextId

/-- The tokens in front of the end are read as the program that is accepted. -/
theorem reads_of_program_eq_ok {n : Nat} {ts : List Token} {ss : List Stmt}
    (h : (program n ts).result = .ok ss) :
    Reads .program n (body ts) (.stmts ss) (program n ts).nextId := by
  obtain ⟨rfl, hc⟩ := program_eq_ok_iff.mp h
  rw [nextId_program]
  exact (Cursor.program_explains (start n ts)).2 hc

/-- What the reader accepts is what the relation of reading describes. -/
theorem program_eq_ok_iff_reads {n : Nat} {w : List Token} {t : Token} {ss : List Stmt}
    (ht : t.kind = .eof) (hw : ∀ u ∈ w, u.isEof = false) :
    (program n (w ++ [t])).result = .ok ss ↔ ∃ n', Reads .program n w (.stmts ss) n' := by
  rw [program_eq_ok_iff]
  have hstart : start n (w ++ [t]) = ⟨w, [], n⟩ := by rw [start, body_concat ht hw]
  rw [hstart]
  constructor
  · rintro ⟨rfl, hc⟩
    exact ⟨_, (Cursor.program_explains ⟨w, [], n⟩).2 hc⟩
  · rintro ⟨n', h⟩
    have := h.readBy [] [] (fun _ ht => nomatch ht) rfl
    rw [List.append_nil] at this
    rw [this]
    exact ⟨rfl, rfl⟩

/-- The tokens of a source text are accepted as a program exactly when the grammar derives them. -/
theorem accepts_iff_derives (source : String) (n : Nat) :
    (∃ ss, (program n (Source.tokens source)).result = .ok ss) ↔
      Derives (.rule .program) (Source.tokens source) := by
  obtain ⟨w, t, hw, ht, heof⟩ := Source.tokens_eq_concat source
  rw [hw]
  constructor
  · rintro ⟨ss, h⟩
    obtain ⟨n', h⟩ := (program_eq_ok_iff_reads ht heof).mp h
    exact .rule (.seq h.derives (.of_kind ht))
  · intro h
    obtain ⟨v, t', hv, -, hread⟩ := h.denotes Nonterminal.readable_of_denotes
    obtain ⟨rfl, -⟩ := List.append_inj' hv rfl
    obtain ⟨ss, n', h⟩ := hread n
    exact ⟨ss, (program_eq_ok_iff_reads ht heof).mpr ⟨n', h⟩⟩

end Grammar

end LoxWalk
