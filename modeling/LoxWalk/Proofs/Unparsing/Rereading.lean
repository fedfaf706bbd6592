import LoxWalk.Proofs.Grammar.Acceptance
import LoxWalk.Proofs.Unparsing.Rendering

/-!
# A tree that is written down is read again

Every tree that is read from some tokens is also read from its own tokens, up to the identities of
its references (`Reads.faithful`).  The proof is an induction on how the tree was read.  A rule that
goes on behind an expression leaves the tokens of that expression in front (`Rule.Faithful` for
`binaryRest` and `callRest`), and a loop with clauses comes back as the block that it stands for, in
which the order of the clauses is another one.
-/

namespace LoxWalk

/-- The tokens `u` are read as something that differs from `a` in identities only. -/
def Rule.Rereads {α : Type} (r : Rule) (u : List Token) (mk : α → Fragment) (erase : α → α)
    (a : α) : Prop :=
  ∀ n, ∃ a' n', erase a' = erase a ∧ Reads r n u (mk a') n'

/-- The tokens of an expression are read as that expression. -/
def Expr.Rereads (e : Expr) (r : Rule) : Prop :=
  r.Rereads e.tokens .expr Expr.erase e

/-- The tokens of a statement are read as that statement, which is open only if `isOpen` says so. -/
def Stmt.Rereads (s : Stmt) (rule : Bool → Rule) (isOpen : Bool) : Prop :=
  ∃ o, (o = true → isOpen = true) ∧ (rule o).Rereads s.tokens .stmt Stmt.erase s

/-- What comes of a rule can be written down and read again. -/
def Rule.Faithful : Rule → Fragment → Prop
  | binaryRest p left, .expr e =>
    ∃ u, e.tokens = left.tokens ++ u ∧
      ∀ left', left'.erase = left.erase → (binaryRest p left').Rereads u .expr Expr.erase e
  | callRest callee, .expr e =>
    ∃ u, e.tokens = callee.tokens ++ u ∧
      ∀ callee', callee'.erase = callee.erase → (callRest callee').Rereads u .expr Expr.erase e
  | terminated _, .expr e => e.Rereads expression
  | parenthesized, .expr e => e.Rereads expression
  | r, .expr e => e.Rereads r
  | classHeader, .expr? e =>
    classHeader.Rereads (Expr.headerTokens e) .expr? (Option.map Expr.erase) e
  | _, .expr? e => ∀ e' ∈ e, e'.Rereads expression
  | arguments count, .exprs es =>
    es ≠ [] ∧ (arguments count).Rereads (Expr.listTokens es) .exprs Expr.eraseAll es
  | parameters count, .names ts =>
    ts ≠ [] ∧ ∀ n, Reads (parameters count) n (Token.listed ts) (.names ts) n
  | parameterList, .names ts =>
    ∀ n, Reads parameterList n (Token.listed ts ++ [Symbol.rightParen.token]) (.names ts) n
  | variableDeclaration, .stmt s =>
    ∃ u, s.tokens = Keyword.var_.token :: u ∧ variableDeclaration.Rereads u .stmt Stmt.erase s
  | classDeclaration, .stmt s =>
    ∃ u, s.tokens = Keyword.class_.token :: u ∧ classDeclaration.Rereads u .stmt Stmt.erase s
  | declaration o, .stmt s => s.Rereads declaration o
  | statement o, .stmt s => s.Rereads statement o
  | forInitializer, .stmt? s => ∀ s' ∈ s, s'.Rereads declaration false
  | methods, .decls fs =>
    methods.Rereads (Stmt.methodTokens fs ++ [Symbol.rightBrace.token]) .decls Stmt.eraseMethods fs
  | function, .decl f => function.Rereads (Stmt.functionTokens f) .decl Stmt.eraseFunction f
  | block, .stmts ss =>
    block.Rereads (Stmt.listTokens ss ++ [Symbol.rightBrace.token]) .stmts Stmt.eraseAll ss
  | program, .stmts ss => program.Rereads (Stmt.listTokens ss) .stmts Stmt.eraseAll ss
  | _, _ => True

theorem Precedence.faithful_operand (p : Precedence) (e : Expr) :
    p.operand.Faithful (.expr e) ↔ e.Rereads p.operand := by
  cases p <;> exact Iff.rfl

/-! ## Expressions -/

namespace Expr

/-- A constant is read from its token. -/
theorem rereads_literal (l : Literal) : (Expr.literal l).Rereads .expression := by
  intro n
  have hprimary : Reads .primary n [l.token] (.expr (.literal l)) n := .literal l.literal?_token
  have hunary : Reads .unary n ([l.token] ++ []) (.expr (.literal l)) n := .call hprimary .callStop
  exact ⟨.literal l, n, rfl, .plain (.binary_of_unary .or hunary)⟩

theorem eq_var_of_erase {e : Expr} {name : Token} (h : e.erase = .var ⟨0⟩ name) :
    ∃ id, e = .var id name := by
  cases e <;> cases h
  exact ⟨_, rfl⟩

theorem eq_get_of_erase {e object : Expr} {name : Token} (h : e.erase = .get object name) :
    ∃ object', e = .get object' name ∧ object'.erase = object := by
  cases e <;> cases h
  exact ⟨_, rfl, rfl⟩

/-- An expression with a token behind it that ends it. -/
theorem Rereads.terminated {e : Expr} (h : e.Rereads .expression) {s : Symbol}
    (hs : s.endsExpression = true) :
    (Rule.terminated s).Rereads (e.tokens ++ [s.token]) .expr Expr.erase e := by
  intro n
  obtain ⟨e', n', he', hr⟩ := h n
  exact ⟨e', n', he', .terminated hs hr rfl⟩

/-- An expression in parentheses, as the condition of a statement. -/
theorem Rereads.parenthesized {e : Expr} (h : e.Rereads .expression) :
    Rule.parenthesized.Rereads
      (Symbol.leftParen.token :: (e.tokens ++ [Symbol.rightParen.token])) .expr Expr.erase e := by
  intro n
  obtain ⟨e', n', he', hr⟩ := h.terminated (s := .rightParen) rfl n
  exact ⟨e', n', he', .parenthesized rfl hr⟩

end Expr

/-! ## Statements -/

namespace Stmt

/-- A loop. -/
theorem rereads_while {condition : Expr} {body : Stmt} {isOpen : Bool}
    (hcondition : condition.Rereads .expression) (hbody : body.Rereads .statement isOpen) :
    (Stmt.while_ condition body).Rereads .statement isOpen := by
  obtain ⟨o, ho, hbody⟩ := hbody
  refine ⟨o, ho, fun n => ?_⟩
  obtain ⟨condition', n₁, hc, hr⟩ := hcondition.parenthesized n
  obtain ⟨body', n₂, hb, hr'⟩ := hbody n₁
  refine ⟨.while_ condition' body', n₂, ?_, ?_⟩
  · rw [erase, erase, hc, hb]
  · have hwhile := Reads.while_ (t := Keyword.while_.token) rfl hr hr'
    simpa [tokens] using hwhile

/-- A block of two statements. -/
theorem rereads_pair {s t : Stmt} {isOpen isOpen' : Bool} (hs : s.Rereads .declaration isOpen)
    (ht : t.Rereads .declaration isOpen') : (Stmt.block [s, t]).Rereads .statement false := by
  obtain ⟨o, -, hs⟩ := hs
  obtain ⟨o', -, ht⟩ := ht
  refine ⟨false, id, fun n => ?_⟩
  obtain ⟨s', n₁, hs', hr⟩ := hs n
  obtain ⟨t', n₂, ht', hr'⟩ := ht n₁
  refine ⟨.block [s', t'], n₂, ?_, ?_⟩
  · simp only [erase, eraseAll, hs', ht']
  · have hend : Reads .block n₂ [Symbol.rightBrace.token] (.stmts []) n₂ := .blockEnd rfl
    have hblock := Reads.block (t := Symbol.leftBrace.token) rfl (.blockNext hr (.blockNext hr' hend))
    simpa [tokens, listTokens] using hblock

theorem Rereads.declaration {s : Stmt} {isOpen : Bool} (h : s.Rereads .statement isOpen) :
    s.Rereads .declaration isOpen := by
  obtain ⟨o, ho, h⟩ := h
  refine ⟨o, ho, fun n => ?_⟩
  obtain ⟨s', n', hs', hr⟩ := h n
  exact ⟨s', n', hs', .statement hr⟩

theorem rereads_expression {e : Expr} (h : e.Rereads .expression) :
    (Stmt.expression e).Rereads .statement false := by
  refine ⟨false, id, fun n => ?_⟩
  obtain ⟨e', n', he', hr⟩ := h.terminated (s := .semicolon) rfl n
  refine ⟨.expression e', n', ?_, .expressionStatement hr⟩
  rw [erase, erase, he']

theorem Rereads.mono {s : Stmt} {rule : Bool → Rule} {isOpen : Bool} (h : s.Rereads rule false) :
    s.Rereads rule isOpen := by
  obtain ⟨o, ho, h⟩ := h
  exact ⟨o, fun hopen => absurd (ho hopen) Bool.false_ne_true, h⟩

/-- A declaration that is read behind the keyword with which it begins. -/
theorem rereads_behind {s : Stmt} {k : Keyword} {rule : Rule}
    (h : ∃ u, s.tokens = k.token :: u ∧ rule.Rereads u .stmt Stmt.erase s)
    (hrule : ∀ {n n' : Nat} {u : List Token} {s' : Stmt}, Reads rule n u (.stmt s') n' →
      Reads (.declaration false) n (k.token :: u) (.stmt s') n') :
    s.Rereads .declaration false := by
  obtain ⟨u, hu, hread⟩ := h
  refine ⟨false, id, fun n => ?_⟩
  obtain ⟨s', n', hs', hr⟩ := hread n
  refine ⟨s', n', hs', ?_⟩
  rw [hu]
  exact hrule hr

/-- A loop with clauses is read again as what it stands for. -/
theorem rereads_ofForClauses {initializer : Option Stmt} {condition increment : Option Expr}
    {body : Stmt} {isOpen : Bool} (h₁ : ∀ s ∈ initializer, s.Rereads .declaration false)
    (h₂ : ∀ e ∈ condition, e.Rereads .expression) (h₃ : ∀ e ∈ increment, e.Rereads .expression)
    (h₄ : body.Rereads .statement isOpen) :
    (Stmt.ofForClauses initializer condition increment body).Rereads .statement isOpen := by
  have hcondition : (condition.getD (.literal (.bool true))).Rereads .expression := by
    cases condition with
    | none => exact Expr.rereads_literal _
    | some e => exact h₂ e rfl
  have hloop : (Stmt.ofForClauses none condition increment body).Rereads .statement isOpen := by
    cases increment with
    | none => exact rereads_while hcondition h₄
    | some e =>
      have hstep := rereads_pair h₄.declaration (rereads_expression (h₃ e rfl)).declaration
      exact rereads_while hcondition hstep.mono
  cases initializer with
  | none => exact hloop
  | some s => exact (rereads_pair (h₁ s rfl) hloop.declaration).mono

end Stmt

/-! ## All rules -/

/-- What is read can be written down and read again. -/
theorem Reads.faithful {r : Rule} {n n' : Nat} {w : List Token} {f : Fragment}
    (h : Reads r n w f n') : r.Faithful f := by
  induction h with
  | plain _ ih =>
    intro n
    obtain ⟨e', n', he', hr⟩ := ih n
    exact ⟨e', n', he', .plain hr⟩
  | @assign _ _ _ _ _ _ name _ v _ _ _ ihl ihv =>
    intro n
    obtain ⟨target, n₁, htarget, hr⟩ := ihl n
    obtain ⟨id, rfl⟩ := Expr.eq_var_of_erase htarget
    obtain ⟨v', n₂, hv, hr'⟩ := ihv n₁
    refine ⟨.assign ⟨n₂⟩ name v', n₂ + 1, ?_, ?_⟩
    · rw [Expr.erase, Expr.erase, hv]
    · exact .assign (t := Symbol.equal.token) hr rfl hr'
  | @set _ _ _ _ _ object name _ v _ _ _ ihl ihv =>
    intro n
    obtain ⟨target, n₁, htarget, hr⟩ := ihl n
    obtain ⟨object', rfl, hobject⟩ := Expr.eq_get_of_erase htarget
    obtain ⟨v', n₂, hv, hr'⟩ := ihv n₁
    refine ⟨.set object' name v', n₂, ?_, ?_⟩
    · rw [Expr.erase, Expr.erase, hobject, hv]
    · have hset := Reads.set (t := Symbol.equal.token) hr rfl hr'
      simpa [Expr.tokens] using hset
  | @binary p _ _ _ _ _ left e _ _ ihl ihm =>
    intro n
    obtain ⟨left', n₁, hleft, hr⟩ := (p.faithful_operand left).mp ihl n
    obtain ⟨u, hu, hmore⟩ := ihm
    obtain ⟨e', n₂, he', hr'⟩ := hmore left' hleft n₁
    refine ⟨e', n₂, he', ?_⟩
    rw [hu]
    exact .binary hr hr'
  | binaryStop =>
    refine ⟨[], (List.append_nil _).symm, fun left' hleft n => ?_⟩
    exact ⟨left', n, hleft, .binaryStop⟩
  | @binaryMore p _ _ _ t _ _ left right e ht _ _ ihr ihm =>
    obtain ⟨u, hu, hmore⟩ := ihm
    refine ⟨t :: (right.tokens ++ u), ?_, fun left' hleft n => ?_⟩
    · rw [hu, p.tokens_node, List.append_assoc, List.cons_append]
    · obtain ⟨right', n₁, hright, hr⟩ := (p.faithful_operand right).mp ihr n
      have hnode : (p.node left' t right').erase = (p.node left t right).erase := by
        rw [p.erase_node, p.erase_node, hleft, hright]
      obtain ⟨e', n₂, he', hr'⟩ := hmore _ hnode n₁
      exact ⟨e', n₂, he', .binaryMore ht hr hr'⟩
  | @prefixed _ _ t _ e ht _ ih =>
    intro n
    obtain ⟨e', n', he', hr⟩ := ih n
    refine ⟨.unary t e', n', ?_, .prefixed ht hr⟩
    rw [Expr.erase, Expr.erase, he']
  | call _ _ ihp ihm =>
    intro n
    obtain ⟨e₁, n₁, he₁, hr⟩ := ihp n
    obtain ⟨u, hu, hmore⟩ := ihm
    obtain ⟨e', n₂, he', hr'⟩ := hmore e₁ he₁ n₁
    refine ⟨e', n₂, he', ?_⟩
    rw [hu]
    exact .call hr hr'
  | callStop =>
    refine ⟨[], (List.append_nil _).symm, fun callee' hcallee n => ?_⟩
    exact ⟨callee', n, hcallee, .callStop⟩
  | @callEmpty _ _ _ t' _ e _ _ ht' _ ih =>
    obtain ⟨u, hu, hmore⟩ := ih
    refine ⟨Symbol.leftParen.token :: t' :: u, ?_, fun callee' hcallee n => ?_⟩
    · rw [hu]
      simp [Expr.tokens, Expr.listTokens]
    · have hcall : (Expr.call callee' t' []).erase = (Expr.call e t' []).erase := by
        rw [Expr.erase, Expr.erase, hcallee]
      obtain ⟨e', n', he', hr⟩ := hmore _ hcall n
      exact ⟨e', n', he', .callEmpty rfl ht' hr⟩
  | @callWith _ _ _ _ t' _ _ e es _ _ _ ht' _ iha ihm =>
    obtain ⟨u, hu, hmore⟩ := ihm
    refine ⟨Symbol.leftParen.token :: (Expr.listTokens es ++ t' :: u), ?_,
      fun callee' hcallee n => ?_⟩
    · rw [hu]
      simp [Expr.tokens]
    · obtain ⟨es', n₁, hes, hr⟩ := iha.2 n
      have hcall : (Expr.call callee' t' es').erase = (Expr.call e t' es).erase := by
        rw [Expr.erase, Expr.erase, hcallee, hes]
      obtain ⟨e', n₂, he', hr'⟩ := hmore _ hcall n₁
      exact ⟨e', n₂, he', .callWith rfl hr ht' hr'⟩
  | @property _ _ _ name _ e _ _ hname _ ih =>
    obtain ⟨u, hu, hmore⟩ := ih
    refine ⟨Symbol.dot.token :: name :: u, ?_, fun callee' hcallee n => ?_⟩
    · rw [hu]
      simp [Expr.tokens]
    · have hget : (Expr.get callee' name).erase = (Expr.get e name).erase := by
        rw [Expr.erase, Expr.erase, hcallee]
      obtain ⟨e', n', he', hr⟩ := hmore _ hget n
      exact ⟨e', n', he', .property rfl hname hr⟩
  | @lastArgument _ _ _ _ e hc _ ih =>
    refine ⟨by simp, fun n => ?_⟩
    obtain ⟨e', n', he', hr⟩ := ih n
    refine ⟨[e'], n', ?_, ?_⟩
    · simp only [Expr.eraseAll, he']
    · simpa [Expr.listTokens, Expr.moreTokens] using Reads.lastArgument hc hr
  | @nextArgument _ _ _ _ _ _ _ e es hc _ _ _ ihe ihm =>
    obtain ⟨hes, hmore⟩ := ihm
    refine ⟨by simp, fun n => ?_⟩
    obtain ⟨e', n₁, he', hr⟩ := ihe n
    obtain ⟨es', n₂, hes', hr'⟩ := hmore n₁
    refine ⟨e' :: es', n₂, ?_, ?_⟩
    · rw [Expr.eraseAll, Expr.eraseAll, he', hes']
    · rw [Expr.listTokens_cons hes]
      exact .nextArgument hc hr rfl hr'
  | @literal _ _ value h =>
    exact fun n => ⟨.literal value, n, rfl, .literal value.literal?_token⟩
  | this ht => exact fun n => ⟨.this ⟨n⟩ _, n + 1, rfl, .this ht⟩
  | super ht hd hm => exact fun n => ⟨.super ⟨n⟩ _ _, n + 1, rfl, .super ht rfl hm⟩
  | name ht => exact fun n => ⟨.var ⟨n⟩ _, n + 1, rfl, .name ht⟩
  | @group _ _ _ _ _ e _ _ _ ih =>
    intro n
    obtain ⟨e', n', he', hr⟩ := ih n
    refine ⟨.group e', n', ?_, .group rfl hr rfl⟩
    rw [Expr.erase, Expr.erase, he']
  | terminated _ _ _ ih => exact ih
  | omitted => rintro e' ⟨⟩
  | given _ ih =>
    rintro e' ⟨⟩
    exact ih
  | parenthesized _ _ ih => exact ih
  | @initialized _ _ name _ _ e hname _ _ ih =>
    refine ⟨_, rfl, fun n => ?_⟩
    obtain ⟨e', n', he', hr⟩ := ih.terminated (s := .semicolon) rfl n
    refine ⟨.var name (some e'), n', ?_, .initialized hname rfl hr⟩
    rw [Stmt.erase, Stmt.erase, Option.map_some, Option.map_some, he']
  | @uninitialized _ name _ hname _ =>
    exact ⟨_, rfl, fun n => ⟨.var name none, n, rfl, .uninitialized hname rfl⟩⟩
  | forNothing => rintro s ⟨⟩
  | forVariable _ _ ih =>
    rintro s ⟨⟩
    exact Stmt.rereads_behind ih (.declaredVariable rfl)
  | forExpression _ ih =>
    rintro s ⟨⟩
    exact (Stmt.rereads_expression ih).declaration
  | lastParameter hc hname => exact ⟨by simp, fun n => .lastParameter hc hname⟩
  | @nextParameter _ _ _ name _ _ names hc hname _ _ ih =>
    refine ⟨by simp, fun n => ?_⟩
    obtain ⟨hnames, hmore⟩ := ih
    rw [Token.listed_cons hnames]
    exact .nextParameter hc hname rfl (hmore n)
  | noParameters => exact fun n => .noParameters rfl
  | someParameters _ _ ih => exact fun n => .someParameters (ih.2 n) rfl
  | base => exact fun n => ⟨none, n, rfl, .base rfl⟩
  | derived _ hname _ => exact fun n => ⟨some (.var ⟨n⟩ _), n + 1, rfl, .derived rfl hname rfl⟩
  | declaredClass _ _ ih => exact Stmt.rereads_behind ih (.declaredClass rfl)
  | @declaredFunction _ _ _ _ f _ _ ih =>
    refine ⟨false, id, fun n => ?_⟩
    obtain ⟨f', n', hf', hr⟩ := ih n
    refine ⟨.fun_ f', n', ?_, .declaredFunction rfl hr⟩
    rw [Stmt.erase, Stmt.erase, hf']
  | declaredVariable _ _ ih => exact Stmt.rereads_behind ih (.declaredVariable rfl)
  | statement _ ih => exact Stmt.Rereads.declaration ih
  | @classDeclaration _ _ _ name _ _ superclass fs hname _ _ ihh ihm =>
    refine ⟨_, rfl, fun n => ?_⟩
    obtain ⟨superclass', n₁, hs, hr⟩ := ihh n
    obtain ⟨fs', n₂, hfs, hr'⟩ := ihm n₁
    refine ⟨.class_ name superclass' fs', n₂, ?_, .classDeclaration hname hr hr'⟩
    rw [Stmt.erase, Stmt.erase, hs, hfs]
  | noMethods => exact fun n => ⟨[], n, rfl, .noMethods rfl⟩
  | nextMethod _ _ ihf ihm =>
    intro n
    obtain ⟨f', n₁, hf', hr⟩ := ihf n
    obtain ⟨fs', n₂, hfs', hr'⟩ := ihm n₁
    refine ⟨f' :: fs', n₂, ?_, ?_⟩
    · rw [Stmt.eraseMethods, Stmt.eraseMethods, hf', hfs']
    · simpa [Stmt.methodTokens] using Reads.nextMethod hr hr'
  | @function _ _ _ name _ _ _ _ params body hname _ _ _ _ ihp ihb =>
    intro n
    obtain ⟨body', n₂, hbody, hr⟩ := ihb n
    refine ⟨⟨name, params, body'⟩, n₂, ?_, ?_⟩
    · rw [Stmt.eraseFunction, Stmt.eraseFunction, hbody]
    · have hfunction := Reads.function (t := Symbol.leftParen.token) hname rfl (ihp n)
        (rfl : Symbol.leftBrace.token.kind = .symbol .leftBrace) hr
      simpa [Stmt.functionTokens] using hfunction
  | blockEnd => exact fun n => ⟨[], n, rfl, .blockEnd rfl⟩
  | blockNext _ _ ihs ihm =>
    obtain ⟨o, -, hs⟩ := ihs
    intro n
    obtain ⟨s', n₁, hs', hr⟩ := hs n
    obtain ⟨ss', n₂, hss', hr'⟩ := ihm n₁
    refine ⟨s' :: ss', n₂, ?_, ?_⟩
    · rw [Stmt.eraseAll, Stmt.eraseAll, hs', hss']
    · simpa [Stmt.listTokens] using Reads.blockNext hr hr'
  | for_ _ _ _ _ _ _ ih₁ ih₂ ih₃ ih₄ => exact Stmt.rereads_ofForClauses ih₁ ih₂ ih₃ ih₄
  | @ifThen _ _ _ _ _ _ _ condition thenBranch _ _ _ ihc iht =>
    obtain ⟨o, -, ht⟩ := iht
    refine ⟨true, id, fun n => ?_⟩
    obtain ⟨condition', n₁, hc, hr⟩ := ihc.parenthesized n
    obtain ⟨thenBranch', n₂, ht', hr'⟩ := ht n₁
    refine ⟨.if_ condition' thenBranch' none, n₂, ?_, ?_⟩
    · rw [Stmt.erase, Stmt.erase, hc, ht']
    · simpa [Stmt.tokens] using Reads.ifThen (t := Keyword.if_.token) rfl hr hr'
  | @ifElse _ _ _ _ _ _ _ _ _ _ condition thenBranch elseBranch _ _ _ _ _ ihc iht ihe =>
    -- a branch that was not open is not open when it is read again
    obtain ⟨o, ho, ht⟩ := iht
    obtain rfl : o = false := Bool.eq_false_iff.mpr fun h => Bool.false_ne_true (ho h)
    obtain ⟨o', ho', he⟩ := ihe
    refine ⟨o', ho', fun n => ?_⟩
    obtain ⟨condition', n₁, hc, hr⟩ := ihc.parenthesized n
    obtain ⟨thenBranch', n₂, ht', hr'⟩ := ht n₁
    obtain ⟨elseBranch', n₃, he', hr''⟩ := he n₂
    refine ⟨.if_ condition' thenBranch' (some elseBranch'), n₃, ?_, ?_⟩
    · rw [Stmt.erase, Stmt.erase, hc, ht', he']
    · have hif := Reads.ifElse (t := Keyword.if_.token) rfl hr hr'
        (rfl : Keyword.else_.token.kind = .keyword .else_) hr''
      simpa [Stmt.tokens] using hif
  | while_ _ _ _ ihc ihb => exact Stmt.rereads_while ihc ihb
  | @return_ _ _ t _ value ht _ ih =>
    refine ⟨false, id, fun n => ?_⟩
    cases value with
    | none => exact ⟨.return_ t none, n, rfl, .return_ ht (.omitted rfl)⟩
    | some e =>
      obtain ⟨e', n', he', hr⟩ := (ih e rfl).terminated (s := .semicolon) rfl n
      refine ⟨.return_ t (some e'), n', ?_, .return_ ht (.given hr)⟩
      rw [Stmt.erase, Stmt.erase, Option.map_some, Option.map_some, he']
  | @print _ _ _ _ e _ _ ih =>
    refine ⟨false, id, fun n => ?_⟩
    obtain ⟨e', n', he', hr⟩ := ih.terminated (s := .semicolon) rfl n
    refine ⟨.print e', n', ?_, .print rfl hr⟩
    rw [Stmt.erase, Stmt.erase, he']
  | @block _ _ _ _ body _ _ ih =>
    refine ⟨false, id, fun n => ?_⟩
    obtain ⟨body', n', hbody, hr⟩ := ih n
    refine ⟨.block body', n', ?_, .block rfl hr⟩
    rw [Stmt.erase, Stmt.erase, hbody]
  | expressionStatement _ ih => exact Stmt.rereads_expression ih
  | programEnd => exact fun n => ⟨[], n, rfl, .programEnd⟩
  | programNext _ _ ihs ihm =>
    obtain ⟨o, -, hs⟩ := ihs
    intro n
    obtain ⟨s', n₁, hs', hr⟩ := hs n
    obtain ⟨ss', n₂, hss', hr'⟩ := ihm n₁
    refine ⟨s' :: ss', n₂, ?_, ?_⟩
    · rw [Stmt.eraseAll, Stmt.eraseAll, hs', hss']
    · exact .programNext hr hr'

end LoxWalk
