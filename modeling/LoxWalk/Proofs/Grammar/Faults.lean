import LoxWalk.Proofs.Grammar.Chunks
import LoxWalk.Proofs.Grammar.Tolerance

/-!
# A violated restriction is one error and no more

`Nonterminal.Tolerated` says what the reader makes of the tokens of a nonterminal and which complaints
it has about them.  The rules of the relaxed grammar preserve this, so it is true of all sequences
that are derivable in it, with the complaints about the places where they violate the restrictions of
the grammar (`Blames.accounts`).

So the errors of a program that is derivable in the relaxed grammar are exactly those: one for each
parameter and each argument too much and one for each assignment to what can not be assigned to
(`Grammar.errors_of_relaxed`).
-/

namespace LoxWalk

open TokenKind Ebnf

/-! ## Languages with complaints -/

/-- The sequences that an expression stands for, and the complaints about them, when the nonterminals
stand for those of `L`; there are no bounded repetitions in the relaxed grammar. -/
def Ebnf.Accounts (L : Nonterminal → List Token → List Complaint → Prop) :
    Ebnf → List Token → List Complaint → Prop
  | .token k, w, es => es = [] ∧ ∃ t, w = [t] ∧ t.kind.agrees k = true
  | .rule r, w, es => L r w es
  | .seq a b, w, es =>
    ∃ u v es₁ es₂, w = u ++ v ∧ es = es₁ ++ es₂ ∧ a.Accounts L u es₁ ∧ b.Accounts L v es₂
  | .alt a b, w, es => a.Accounts L w es ∨ b.Accounts L w es
  | .opt a, w, es => (w = [] ∧ es = []) ∨ a.Accounts L w es
  | .many a, w, es =>
    ∃ us : List (List Token × List Complaint), w = us.flatMap Prod.fst ∧ es = us.flatMap Prod.snd ∧
      ∀ u ∈ us, a.Accounts L u.1 u.2
  | .upTo _ _, _, _ => False

/-- The same for the entries of a list. -/
def Part.Accounts (L : Nonterminal → List Token → List Complaint → Prop) :
    Part → List Token → List Complaint → Prop
  | .plain a, w, es => a.Accounts L w es
  | .entries a fault count, w, es => Entries (a.Accounts L) fault count w es

/-- What the reader takes for a nonterminal, and with which complaints. -/
def Nonterminal.Tolerated : Nonterminal → List Token → List Complaint → Prop
  | program, w, es =>
    ∃ v t, w = v ++ [t] ∧ t.kind = .eof ∧
      ∀ n cs, ∃ ss n', Cursor.program ⟨v, cs, n⟩ = (ss, ⟨[], es.reverse ++ cs, n'⟩)
  | declaration, w, es | classDecl, w, es | funDecl, w, es => DeclarationTakes w es
  | function, w, es => Starts (· == .identifier) w ∧ Rule.function.Takes .decl Anything w es
  | varDecl, w, es =>
    ∃ t v, w = t :: v ∧ t.kind = .keyword .var_ ∧ Rule.variableDeclaration.Takes .stmt Anything v es
  | statement, w, es | forStmt, w, es | ifStmt, w, es | printStmt, w, es | returnStmt, w, es
  | whileStmt, w, es => ∃ o, StatementTakes o w es
  | exprStmt, w, es =>
    Starts startsExpression w ∧ (Rule.terminated .semicolon).Takes .expr Anything w es
  | block, w, es =>
    ∃ t v, w = t :: v ∧ t.kind = .symbol .leftBrace ∧ Rule.block.Takes .stmts Anything v es
  | parameters, w, es =>
    Starts (· == .identifier) w ∧ (Rule.parameters 0).Takes .names Anything w es
  | expression, w, es | assignment, w, es =>
    Starts startsExpression w ∧ Rule.expression.Takes .expr Anything w es
  | level p, w, es =>
    Starts startsExpression w ∧ (Rule.binary p).Takes .expr (Expr.AssignableIn w) w es
  | unary, w, es => Starts startsExpression w ∧ Rule.unary.Takes .expr (Expr.AssignableIn w) w es
  | call, w, es => Starts startsPrimary w ∧ CalleeTakes (Expr.AssignableIn w) w es
  | arguments, w, es =>
    Starts startsExpression w ∧ (Rule.arguments 0).Takes .exprs Anything w es
  | primary, w, es => Starts startsPrimary w ∧ Rule.primary.Takes .expr (Expr.AssignableIn w) w es

/-- What is known of the tokens of a nonterminal. -/
def Nonterminal.Known (r : Nonterminal) (w : List Token) (es : List Complaint) : Prop :=
  r.Tolerated w es ∧ Allows (.rule r) w

/-! ## The rules preserve it -/

namespace Nonterminal

variable {w : List Token} {es : List Complaint}

theorem accounts_operator {p : Precedence} (h : (Ebnf.operator p).Accounts Known w es) :
    ∃ t, w = [t] ∧ es = [] ∧ t.kind ∈ p.operators := by
  cases p with
  | or | and =>
    obtain ⟨rfl, t, rfl, ht⟩ := h
    exact ⟨t, rfl, rfl, by simp [Precedence.operators, eq_of_agrees_keyword ht]⟩
  | equality | term | factor =>
    rcases h with ⟨rfl, t, rfl, ht⟩ | ⟨rfl, t, rfl, ht⟩ <;>
      exact ⟨t, rfl, rfl, by simp [Precedence.operators, eq_of_agrees_symbol ht]⟩
  | comparison =>
    rcases h with ((⟨rfl, t, rfl, ht⟩ | ⟨rfl, t, rfl, ht⟩) | ⟨rfl, t, rfl, ht⟩) | ⟨rfl, t, rfl, ht⟩ <;>
      exact ⟨t, rfl, rfl, by simp [Precedence.operators, eq_of_agrees_symbol ht]⟩

theorem tolerated_classDecl (h : classDecl.body.Accounts Known w es) : classDecl.Tolerated w es := by
  obtain ⟨_, _, _, _, rfl, rfl, ⟨_, _, _, _, rfl, rfl, ⟨_, _, _, _, rfl, rfl, ⟨_, _, _, _, rfl, rfl,
    ⟨_, _, _, _, rfl, rfl, ⟨rfl, t, rfl, ht⟩, ⟨rfl, name, rfl, hname⟩⟩, hsuper⟩, ⟨rfl, t', rfl, ht'⟩⟩,
    ⟨us, rfl, rfl, hus⟩⟩, ⟨rfl, t'', rfl, ht''⟩⟩ := h
  have hclass := eq_of_agrees_keyword ht
  have hmethods := Rule.Takes.methods (fun x hx => (hus x hx).1) (eq_of_agrees_symbol ht'')
  rcases hsuper with ⟨rfl, rfl⟩ | ⟨_, _, _, _, rfl, rfl, ⟨rfl, less, rfl, hless⟩,
    ⟨rfl, superclass, rfl, hs⟩⟩
  · have hread := Rule.Takes.declaredClass hclass (eq_of_agrees_identifier hname)
      (.base (eq_of_agrees_symbol ht')) hmethods
    exact ⟨.cons_of_eq hclass rfl, false, by simpa using hread⟩
  · have hread := Rule.Takes.declaredClass hclass (eq_of_agrees_identifier hname)
      (.derived (eq_of_agrees_symbol hless) (eq_of_agrees_identifier hs) (eq_of_agrees_symbol ht'))
      hmethods
    exact ⟨.cons_of_eq hclass rfl, false, by simpa using hread⟩

theorem tolerated_funDecl (h : funDecl.body.Accounts Known w es) : funDecl.Tolerated w es := by
  obtain ⟨_, v, _, _, rfl, rfl, ⟨rfl, t, rfl, ht⟩, hv⟩ := h
  have hfun := eq_of_agrees_keyword ht
  exact ⟨.cons_of_eq hfun rfl, false, Rule.Takes.declaredFunction hfun hv.1.2⟩

theorem tolerated_function (h : function.body.Accounts Known w es) : function.Tolerated w es := by
  obtain ⟨_, _, _, _, rfl, rfl, ⟨_, _, _, _, rfl, rfl, ⟨_, u, _, es', rfl, rfl, ⟨_, _, _, _, rfl, rfl,
    ⟨rfl, name, rfl, hname⟩, ⟨rfl, t, rfl, ht⟩⟩, hparams⟩, ⟨rfl, t', rfl, ht'⟩⟩,
    ⟨⟨t'', v, rfl, ht'', hv⟩, -⟩⟩ := h
  have hname := eq_of_agrees_identifier hname
  have hlist : Rule.parameterList.Takes .names Anything (u ++ [t']) es' := by
    rcases hparams with ⟨rfl, rfl⟩ | ⟨hparams, -⟩
    · exact .noParameters (eq_of_agrees_symbol ht')
    · exact .someParameters hparams.1 hparams.2 (eq_of_agrees_symbol ht')
  have hread := Rule.Takes.function hname (eq_of_agrees_symbol ht) hlist ht'' hv
  exact ⟨.cons_of_eq hname rfl, by simpa using hread⟩

theorem tolerated_varDecl (h : varDecl.body.Accounts Known w es) : varDecl.Tolerated w es := by
  obtain ⟨_, _, _, _, rfl, rfl, ⟨_, u, _, _, rfl, rfl, ⟨_, _, _, _, rfl, rfl, ⟨rfl, t, rfl, ht⟩,
    ⟨rfl, name, rfl, hname⟩⟩, hvalue⟩, ⟨rfl, t', rfl, ht'⟩⟩ := h
  have hname := eq_of_agrees_identifier hname
  refine ⟨t, name :: (u ++ [t']), by simp, eq_of_agrees_keyword ht, ?_⟩
  rcases hvalue with ⟨rfl, rfl⟩ | ⟨_, v, _, _, rfl, rfl, ⟨rfl, equal, rfl, hequal⟩, ⟨hv, -⟩⟩
  · exact .uninitialized hname (eq_of_agrees_symbol ht')
  · simpa using Rule.Takes.initialized hname (eq_of_agrees_symbol hequal) hv.2 (eq_of_agrees_symbol ht')

/-- An expression that may be left out, and the symbol behind it. -/
theorem tolerated_optional {s : Symbol} {t : Token} (hs : s.endsExpression = true)
    (h : (Ebnf.rule expression).opt.Accounts Known w es) (ht : t.kind = .symbol s) :
    (Rule.optional s).Takes .expr? Anything (w ++ [t]) es := by
  rcases h with ⟨rfl, rfl⟩ | ⟨⟨hstarts, he⟩, -⟩
  · exact .omitted ht
  · exact .given hs hstarts he ht

theorem tolerated_exprStmt (h : exprStmt.body.Accounts Known w es) : exprStmt.Tolerated w es := by
  obtain ⟨v, _, _, _, rfl, rfl, ⟨⟨hs, hv⟩, -⟩, ⟨rfl, t, rfl, ht⟩⟩ := h
  exact ⟨hs.append _, by simpa using Rule.Takes.terminated rfl hv (eq_of_agrees_symbol ht)⟩

theorem tolerated_forStmt (h : forStmt.body.Accounts Known w es) : forStmt.Tolerated w es := by
  obtain ⟨_, w₄, _, es₄, rfl, rfl, ⟨_, _, _, _, rfl, rfl, ⟨_, w₃, _, es₃, rfl, rfl, ⟨_, _, _, _, rfl,
    rfl, ⟨_, w₂, _, es₂, rfl, rfl, ⟨_, w₁, _, es₁, rfl, rfl, ⟨_, _, _, _, rfl, rfl, ⟨rfl, t, rfl, ht⟩,
    ⟨rfl, t', rfl, ht'⟩⟩, hinitializer⟩, hcondition⟩, ⟨rfl, s, rfl, hs⟩⟩, hincrement⟩,
    ⟨rfl, s', rfl, hs'⟩⟩, ⟨⟨o, hbody⟩, -⟩⟩ := h
  have hinitializer : Rule.forInitializer.Takes .stmt? Anything w₁ es₁ := by
    rcases hinitializer with (⟨⟨t, v, rfl, ht, hv⟩, -⟩ | ⟨⟨hstarts, he⟩, -⟩) | ⟨rfl, t, rfl, ht⟩
    · exact .forVariable ht hv
    · exact .forExpression hstarts he
    · exact .forNothing (eq_of_agrees_symbol ht)
  have hhead := LoopHead.for_ (eq_of_agrees_keyword ht) (eq_of_agrees_symbol ht') hinitializer
    (tolerated_optional rfl hcondition (eq_of_agrees_symbol hs))
    (tolerated_optional rfl hincrement (eq_of_agrees_symbol hs'))
  exact ⟨o, (StatementTakes.loop hhead hbody).regroup (by simp) (by simp)⟩

theorem tolerated_ifStmt (h : ifStmt.body.Accounts Known w es) : ifStmt.Tolerated w es := by
  obtain ⟨_, w₂, _, es₂, rfl, rfl, ⟨_, w₁, _, es₁, rfl, rfl, ⟨_, _, _, _, rfl, rfl, ⟨_, u, _, es₀, rfl,
    rfl, ⟨_, _, _, _, rfl, rfl, ⟨rfl, t, rfl, ht⟩, ⟨rfl, t', rfl, ht'⟩⟩, ⟨⟨-, hcondition⟩, -⟩⟩,
    ⟨rfl, t'', rfl, ht''⟩⟩, ⟨⟨o, hthen⟩, -⟩⟩, helse⟩ := h
  have hhead : IfHead (t :: t' :: (u ++ [t''])) es₀ :=
    ⟨t, _, rfl, eq_of_agrees_keyword ht,
      .parenthesized (eq_of_agrees_symbol ht') hcondition (eq_of_agrees_symbol ht'')⟩
  rcases helse with ⟨rfl, rfl⟩ | ⟨_, v, _, _, rfl, rfl, ⟨rfl, e, rfl, he⟩, ⟨⟨o', hv⟩, -⟩⟩
  · exact ⟨true, (StatementTakes.ifThen hhead hthen).regroup (by simp) (by simp)⟩
  · have he := eq_of_agrees_keyword he
    cases o with
    | false => exact ⟨o', (StatementTakes.ifElse hhead hthen he hv).regroup (by simp) (by simp)⟩
    | true =>
      obtain ⟨o'', hmore⟩ := hthen.exists_of_else he hv
      exact ⟨true, (StatementTakes.ifThen hhead hmore).regroup (by simp) (by simp)⟩

theorem tolerated_whileStmt (h : whileStmt.body.Accounts Known w es) : whileStmt.Tolerated w es := by
  obtain ⟨_, w₁, _, es₁, rfl, rfl, ⟨_, _, _, _, rfl, rfl, ⟨_, u, _, es₀, rfl, rfl, ⟨_, _, _, _, rfl,
    rfl, ⟨rfl, t, rfl, ht⟩, ⟨rfl, t', rfl, ht'⟩⟩, ⟨⟨-, hcondition⟩, -⟩⟩, ⟨rfl, t'', rfl, ht''⟩⟩,
    ⟨⟨o, hbody⟩, -⟩⟩ := h
  have hhead := LoopHead.while_ (eq_of_agrees_keyword ht)
    (.parenthesized (eq_of_agrees_symbol ht') hcondition (eq_of_agrees_symbol ht''))
  exact ⟨o, (StatementTakes.loop hhead hbody).regroup (by simp) (by simp)⟩

theorem tolerated_printStmt (h : printStmt.body.Accounts Known w es) : printStmt.Tolerated w es := by
  obtain ⟨_, _, _, _, rfl, rfl, ⟨_, v, _, _, rfl, rfl, ⟨rfl, t, rfl, ht⟩, ⟨⟨-, hv⟩, -⟩⟩,
    ⟨rfl, t', rfl, ht'⟩⟩ := h
  have hvalue := Rule.Takes.terminated rfl hv (eq_of_agrees_symbol ht')
  exact ⟨false, (StatementTakes.print (eq_of_agrees_keyword ht) hvalue).regroup (by simp) (by simp)⟩

theorem tolerated_returnStmt (h : returnStmt.body.Accounts Known w es) :
    returnStmt.Tolerated w es := by
  obtain ⟨_, _, _, _, rfl, rfl, ⟨_, v, _, _, rfl, rfl, ⟨rfl, t, rfl, ht⟩, hv⟩,
    ⟨rfl, t', rfl, ht'⟩⟩ := h
  have hvalue := tolerated_optional rfl hv (eq_of_agrees_symbol ht')
  exact ⟨false, (StatementTakes.return_ (eq_of_agrees_keyword ht) hvalue).regroup (by simp) (by simp)⟩

theorem tolerated_block (h : block.body.Accounts Known w es) : block.Tolerated w es := by
  obtain ⟨_, _, _, _, rfl, rfl, ⟨_, _, _, _, rfl, rfl, ⟨rfl, t, rfl, ht⟩, ⟨us, rfl, rfl, hus⟩⟩,
    ⟨rfl, t', rfl, ht'⟩⟩ := h
  have hread := Rule.Takes.block (fun x hx => (hus x hx).1) (eq_of_agrees_symbol ht')
  exact ⟨t, us.flatMap Prod.fst ++ [t'], by simp, eq_of_agrees_symbol ht, by simpa using hread⟩

theorem tolerated_level {p : Precedence} (h : (level p).body.Accounts Known w es) :
    (level p).Tolerated w es := by
  obtain ⟨u, _, es₀, _, rfl, rfl, ⟨hfirst, hallows⟩, ⟨us, rfl, rfl, hus⟩⟩ := h
  have hoperand : ∀ {v es}, (operand p).Tolerated v es →
      Starts startsExpression v ∧ p.operand.Takes .expr (Expr.AssignableIn v) v es := by
    cases p <;> exact fun h => h
  obtain ⟨hs, hu⟩ := hoperand hfirst
  have hmore : ∀ x ∈ us, ∃ t v, x.1 = t :: v ∧ t.kind ∈ p.operators ∧
      p.operand.Takes .expr Anything v x.2 := by
    rintro ⟨x, es₁⟩ hx
    obtain ⟨_, v, _, _, rfl, rfl, hop, ⟨hv, -⟩⟩ := hus _ hx
    obtain ⟨t, rfl, rfl, ht⟩ := accounts_operator hop
    exact ⟨t, v, rfl, ht, (hoperand hv).2.mono fun _ _ => trivial⟩
  refine ⟨hs.append _, (Rule.Takes.binary hu hmore).mono fun e he htarget => ?_⟩
  -- something can be assigned to the whole only if there is no operator
  obtain ⟨rfl, hassignable⟩ := he htarget
  exact (hassignable htarget).of_eq (List.append_nil u).symm

theorem tolerated_unary (h : unary.body.Accounts Known w es) : unary.Tolerated w es := by
  rcases h with ⟨u, v, es₁, _, rfl, rfl, hop, ⟨⟨-, hv⟩, -⟩⟩ | ⟨⟨hs, hcall⟩, -⟩
  · obtain ⟨t, rfl, rfl, ht⟩ : ∃ t : Token, u = [t] ∧ es₁ = [] ∧
        (t.kind = .symbol .bang ∨ t.kind = .symbol .minus) := by
      rcases hop with ⟨rfl, t, rfl, ht⟩ | ⟨rfl, t, rfl, ht⟩
      · exact ⟨t, rfl, rfl, .inl (eq_of_agrees_symbol ht)⟩
      · exact ⟨t, rfl, rfl, .inr (eq_of_agrees_symbol ht)⟩
    refine ⟨.cons ?_, Rule.Takes.prefixed ht hv⟩
    rcases ht with ht | ht <;> rw [ht] <;> rfl
  · exact ⟨hs.mono fun _ => startsExpression_of_startsPrimary, hcall.unary⟩

theorem tolerated_call (h : call.body.Accounts Known w es) : call.Tolerated w es := by
  obtain ⟨u, _, es₀, _, rfl, rfl, ⟨⟨hs, hprimary⟩, hallows⟩, ⟨us, rfl, rfl, hus⟩⟩ := h
  have hcall : Allows (.rule .call) u :=
    .rule (.of_eq (.seq hallows .manyNil) (List.append_nil u))
  have htails : ∀ x ∈ us, Allows callTail x.1 ∧ TailTakes x.1 x.2 := by
    rintro ⟨x, es₁⟩ hx
    rcases hus _ hx with ⟨_, _, _, _, rfl, rfl, ⟨_, _, _, _, rfl, rfl, ⟨rfl, t, rfl, ht⟩, hargs⟩,
      ⟨rfl, t', rfl, ht'⟩⟩ | ⟨_, _, _, _, rfl, rfl, ⟨rfl, d, rfl, hd⟩, ⟨rfl, name, rfl, hname⟩⟩
    · have ho := eq_of_agrees_symbol ht
      have hc := eq_of_agrees_symbol ht'
      rcases hargs with ⟨rfl, rfl⟩ | ⟨⟨hstarts, hargs⟩, hallowed⟩
      · exact ⟨.altLeft (.seq (.seq (.of_kind ho) .optNone) (.of_kind hc)), .empty ho hc⟩
      · refine ⟨.altLeft (.seq (.seq (.of_kind ho) (.optSome hallowed)) (.of_kind hc)), ?_⟩
        simpa using TailTakes.call ho hstarts hargs hc
    · have hd := eq_of_agrees_symbol hd
      have hname := eq_of_agrees_identifier hname
      exact ⟨.altRight (.seq (.of_kind hd) (.of_kind hname)), .property hd hname⟩
  exact ⟨hs.append _, (CalleeTakes.of_primary hs hprimary).append hcall (.flatMap htails)⟩

/-- Nothing can be assigned to most primary expressions. -/
theorem tolerated_of_not_isTarget (hs : Starts startsPrimary w)
    (h : Rule.primary.Takes .expr (·.isTarget = false) w es) : primary.Tolerated w es := by
  refine ⟨hs, h.mono fun e he htarget => ?_⟩
  rw [he] at htarget
  cases htarget

/-- A token that stands for a constant. -/
theorem tolerated_literal {t : Token} {value : Literal} (h : Cursor.literal? t.kind = some value) :
    primary.Tolerated [t] [] :=
  tolerated_of_not_isTarget (.cons (startsPrimary_of_literal? h)) (.literal h)

theorem tolerated_primary (h : primary.body.Accounts Known w es) : primary.Tolerated w es := by
  rcases h with (((((((((⟨rfl, t, rfl, ht⟩ | ⟨rfl, t, rfl, ht⟩) | ⟨rfl, t, rfl, ht⟩) |
    ⟨rfl, t, rfl, ht⟩) | ⟨rfl, t, rfl, ht⟩) | ⟨rfl, t, rfl, ht⟩) | ⟨rfl, t, rfl, ht⟩)) |
    ⟨_, _, _, _, rfl, rfl, ⟨_, v, _, _, rfl, rfl, ⟨rfl, t, rfl, ht⟩, ⟨⟨-, hv⟩, -⟩⟩,
      ⟨rfl, t', rfl, ht'⟩⟩)) |
    ⟨_, _, _, _, rfl, rfl, ⟨_, _, _, _, rfl, rfl, ⟨rfl, t, rfl, ht⟩, ⟨rfl, d, rfl, hd⟩⟩,
      ⟨rfl, m, rfl, hm⟩⟩
  · obtain ⟨x, hx⟩ : ∃ x, t.kind = .number x := by
      generalize t.kind = k at ht
      cases k <;> simp_all [agrees]
    exact tolerated_literal (by rw [hx]; rfl)
  · obtain ⟨x, hx⟩ : ∃ x, t.kind = .string x := by
      generalize t.kind = k at ht
      cases k <;> simp_all [agrees]
    exact tolerated_literal (by rw [hx]; rfl)
  · exact tolerated_literal (by rw [eq_of_agrees_keyword ht]; rfl)
  · exact tolerated_literal (by rw [eq_of_agrees_keyword ht]; rfl)
  · exact tolerated_literal (by rw [eq_of_agrees_keyword ht]; rfl)
  · have ht := eq_of_agrees_keyword ht
    exact tolerated_of_not_isTarget (.cons_of_eq ht rfl) (.this ht)
  · have ht := eq_of_agrees_identifier ht
    refine ⟨.cons_of_eq ht rfl, (Rule.Takes.name ht).mono fun e _ _ => ?_⟩
    exact .of_eq (.seq .optNone (.of_kind ht)) rfl
  · have ho := eq_of_agrees_symbol ht
    refine tolerated_of_not_isTarget (.cons_of_eq ho rfl) ?_
    simpa using Rule.Takes.group ho hv (eq_of_agrees_symbol ht')
  · have ht := eq_of_agrees_keyword ht
    refine tolerated_of_not_isTarget (.cons_of_eq ht rfl) ?_
    simpa using Rule.Takes.super ht (eq_of_agrees_symbol hd) (eq_of_agrees_identifier hm)

/-- The languages of the reader are closed under the rules that both grammars share. -/
theorem tolerated_of_accounts {r : Nonterminal} (hr : r.isRestricted = false)
    (h : r.body.Accounts Known w es) : r.Tolerated w es := by
  cases r with
  | parameters | arguments | assignment => cases hr
  | program =>
    obtain ⟨_, _, _, _, rfl, rfl, ⟨us, rfl, rfl, hus⟩, ⟨rfl, t, rfl, ht⟩⟩ := h
    refine ⟨us.flatMap Prod.fst, t, rfl, eq_of_agrees_eof ht, ?_⟩
    simpa using program_takes fun x hx => (hus x hx).1
  | declaration =>
    rcases h with ((⟨h, -⟩ | ⟨h, -⟩) | ⟨⟨t, v, rfl, ht, hv⟩, -⟩) | ⟨⟨o, h⟩, -⟩
    · exact h
    · exact h
    · exact ⟨.cons_of_eq ht rfl, false, .declaredVariable ht hv⟩
    · exact h.declaration
  | statement =>
    rcases h with (((((⟨⟨hs, h⟩, -⟩ | ⟨h, -⟩) | ⟨h, -⟩) | ⟨h, -⟩) | ⟨h, -⟩) | ⟨h, -⟩) |
      ⟨⟨t, v, rfl, ht, hv⟩, -⟩
    · exact ⟨false, .expression hs h⟩
    · exact h
    · exact h
    · exact h
    · exact h
    · exact h
    · exact ⟨false, .block ht hv⟩
  | classDecl => exact tolerated_classDecl h
  | funDecl => exact tolerated_funDecl h
  | function => exact tolerated_function h
  | varDecl => exact tolerated_varDecl h
  | exprStmt => exact tolerated_exprStmt h
  | forStmt => exact tolerated_forStmt h
  | ifStmt => exact tolerated_ifStmt h
  | printStmt => exact tolerated_printStmt h
  | returnStmt => exact tolerated_returnStmt h
  | whileStmt => exact tolerated_whileStmt h
  | block => exact tolerated_block h
  | expression => exact h.1
  | level p => exact tolerated_level h
  | unary => exact tolerated_unary h
  | call => exact tolerated_call h
  | primary => exact tolerated_primary h

theorem known_of_target {u : List Token} {es' : List Complaint}
    (h : target.Accounts Known u es') :
    Starts startsExpression u ∧ (Rule.binary .or).Takes .expr (·.isTarget = true) u es' := by
  obtain ⟨_, _, _, _, rfl, rfl, hobject, ⟨rfl, name, rfl, hname⟩⟩ := h
  have hname := eq_of_agrees_identifier hname
  rcases hobject with ⟨rfl, rfl⟩ | ⟨_, _, _, _, rfl, rfl, ⟨⟨hs, hcall⟩, -⟩, ⟨rfl, d, rfl, hd⟩⟩
  · have hvariable := CalleeTakes.of_primary (.cons_of_eq hname rfl) (Rule.Takes.name hname)
    exact ⟨.cons_of_eq hname rfl, hvariable.unary.or_of_unary⟩
  · have hproperty := (hcall.property (eq_of_agrees_symbol hd) hname).unary.or_of_unary
    refine ⟨((hs.mono fun _ => startsExpression_of_startsPrimary).append _).append _, ?_⟩
    simpa using hproperty

end Nonterminal

/-- The reader takes what is derivable in the relaxed grammar, and complains about the places where
the restrictions of the grammar are violated. -/
theorem Blames.accounts {p : Part} {w : List Token} {es : List Complaint} (h : Blames p w es) :
    p.Accounts Nonterminal.Known w es := by
  induction h with
  | token h => exact ⟨rfl, _, rfl, h⟩
  | rule hr h ih => exact ⟨Nonterminal.tolerated_of_accounts hr ih, (Blames.rule hr h).allowed⟩
  | seq _ _ iha ihb => exact ⟨_, _, _, _, rfl, rfl, iha, ihb⟩
  | altLeft _ ih => exact .inl ih
  | altRight _ ih => exact .inr ih
  | optNone => exact .inl ⟨rfl, rfl⟩
  | optSome _ ih => exact .inr ih
  | manyNil => exact ⟨[], rfl, rfl, fun _ h => nomatch h⟩
  | @manyCons _ u v es es' _ _ iha ihb =>
    obtain ⟨us, rfl, rfl, hus⟩ := ihb
    exact ⟨(u, es) :: us, rfl, rfl, List.forall_mem_cons.mpr ⟨iha, hus⟩⟩
  | @parameters w es h ih =>
    have hname : ∀ w es, ident.Accounts Nonterminal.Known w es →
        ∃ name, w = [name] ∧ name.kind = .identifier ∧ es = [] := by
      rintro w es ⟨rfl, name, rfl, hname⟩
      exact ⟨name, rfl, eq_of_agrees_identifier hname, rfl⟩
    have hstarts : Starts (· == .identifier) w := ih.starts fun w es h => by
      obtain ⟨name, rfl, hname, -⟩ := hname w es h
      exact .cons_of_eq hname rfl
    exact ⟨⟨hstarts, ih.parameters hname⟩, (Blames.parameters h).allowed⟩
  | arguments h ih =>
    exact ⟨⟨ih.starts fun _ _ h => h.1.1, ih.arguments fun _ _ h => h.1⟩,
      (Blames.arguments h).allowed⟩
  | lastEntry _ ih => exact .last ih
  | nextEntry _ ht _ ih ihm => exact .next ih ht ihm
  | unassigned h ih =>
    exact ⟨⟨ih.1.1, ih.1.2.unassigned⟩, (Blames.unassigned h).allowed⟩
  | assigned hu ht hv ihu ihv =>
    obtain ⟨hs, htarget⟩ := Nonterminal.known_of_target ihu
    exact ⟨⟨hs.append _, htarget.assigned ht ihv.1.2⟩, (Blames.assigned hu ht hv).allowed⟩
  | misassigned hu hnot ht hv ihu ihv =>
    refine ⟨⟨ihu.1.1.append _, ?_⟩, (Blames.misassigned hu hnot ht hv).allowed⟩
    refine Rule.Takes.misassigned (ihu.1.2.mono fun e he => ?_) ht ihv.1.2
    cases htarget : e.isTarget with
    | false => rfl
    | true => exact absurd (he htarget) hnot

namespace Grammar

/-- The complaints about the tokens of a source text are the ones about the violated restrictions. -/
theorem complaints_of_blames {source : String} {es : List Complaint}
    (h : Blames (.plain (.rule .program)) (Source.tokens source) es) (n : Nat) :
    (start n (Source.tokens source)).program.2.complaints = es.reverse := by
  obtain ⟨⟨v, t, hv, ht, hread⟩, -⟩ := h.accounts
  obtain ⟨w, t', hw, -, heof⟩ := Source.tokens_eq_concat source
  obtain ⟨rfl, -⟩ := List.append_inj' (hv.symm.trans hw) rfl
  obtain ⟨ss, n', hprogram⟩ := hread n []
  rw [hv, start, body_concat ht heof, hprogram, List.append_nil]

/-- The errors of a program that is derivable in the relaxed grammar are the ones about the violated
restrictions, and without any of those it is accepted. -/
theorem errors_of_relaxed (source : String) (n : Nat)
    (h : Allows (.rule .program) (Source.tokens source)) :
    ∃ es, (∀ es', Blames (.plain (.rule .program)) (Source.tokens source) es' ↔ es' = es) ∧
      (program n (Source.tokens source)).errors =
        es.map (·.toError (endLine (Source.tokens source))) ∧
      ((∃ ss, (program n (Source.tokens source)).result = .ok ss) ↔ es = []) := by
  obtain ⟨es, hes⟩ := h.exists_blames
  have hcomplaints := complaints_of_blames hes n
  refine ⟨es, fun es' => ⟨fun hes' => ?_, fun heq => heq ▸ hes⟩, ?_, ?_⟩
  · rw [← List.reverse_inj, ← complaints_of_blames hes' n, hcomplaints]
  · rw [errors_program, errors, hcomplaints, List.reverse_reverse]
  · constructor
    · rintro ⟨ss, hss⟩
      rw [(program_eq_ok_iff.mp hss).2] at hcomplaints
      exact List.reverse_eq_nil_iff.mp hcomplaints.symm
    · rintro rfl
      exact ⟨_, program_eq_ok_iff.mpr ⟨rfl, hcomplaints⟩⟩

/-- The token `nil` is an operand of each level. -/
theorem allows_nil {t : Token} (ht : t.kind = .keyword .nil_) :
    Allows (.rule (.level .or)) [t] := by
  have hprimary : Allows (.rule .primary) [t] :=
    .rule (.altLeft (.altLeft (.altLeft (.altLeft (.altRight (.of_kind ht))))))
  have hcall : Allows (.rule .call) [t] := .rule (.of_eq (.seq hprimary .manyNil) rfl)
  exact .level_of_unary .or (.rule (.altRight hcall))

/-- There is one error in an assignment to a constant, at the equals sign. -/
theorem errors_of_relaxed_nil :
    ∃ es, Blames (.plain (.rule .program)) (Source.tokens "nil=nil;") es ∧
      es.map (·.toError 1) = [⟨1, .lexeme "=", .invalidTarget⟩] := by
  have htokens : Source.tokens "nil=nil;" =
      [⟨.keyword .nil_, "nil", 1⟩, ⟨.symbol .equal, "=", 1⟩, ⟨.keyword .nil_, "nil", 1⟩,
        ⟨.symbol .semicolon, ";", 1⟩, ⟨.eof, "", 1⟩] := by
    decide +kernel
  have hassignment : Allows (.rule .assignment) [⟨.keyword .nil_, "nil", 1⟩,
      ⟨.symbol .equal, "=", 1⟩, ⟨.keyword .nil_, "nil", 1⟩] := by
    have hvalue : Allows (.rule .assignment) [⟨.keyword .nil_, "nil", 1⟩] :=
      .rule (.altRight (allows_nil rfl))
    exact .rule (.altLeft (.of_eq (.seq (.seq (allows_nil rfl) (.of_kind rfl)) hvalue) rfl))
  have hstatement : Allows (.rule .statement) [⟨.keyword .nil_, "nil", 1⟩,
      ⟨.symbol .equal, "=", 1⟩, ⟨.keyword .nil_, "nil", 1⟩, ⟨.symbol .semicolon, ";", 1⟩] := by
    have hexpression : Allows (.rule .expression) _ := .rule hassignment
    exact .rule (.altLeft (.altLeft (.altLeft (.altLeft (.altLeft (.altLeft
      (.rule (.of_eq (.seq hexpression (.of_kind rfl)) rfl))))))))
  have hprogram : Allows (.rule .program) (Source.tokens "nil=nil;") := by
    rw [htokens]
    exact .rule (.of_eq (.seq (.manyCons (.rule (.altRight hstatement)) .manyNil) (.of_kind rfl)) rfl)
  obtain ⟨es, hes, herrors, -⟩ := errors_of_relaxed "nil=nil;" 0 hprogram
  refine ⟨es, (hes es).mpr rfl, ?_⟩
  have hread : (program 0 (Source.tokens "nil=nil;")).errors =
      [⟨1, .lexeme "=", .invalidTarget⟩] := by
    cbv
  rw [← hread, herrors, htokens]
  rfl

end Grammar

end LoxWalk
