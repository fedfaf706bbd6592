import LoxWalk.Proofs.Grammar.Reading

/-!
# Every fragment is read without a complaint

The reader decides by the next token where a fragment ends.  `Rule.extenders` lists the tokens that
would make it go on behind a fragment; when the next token is none of them, the reader stops exactly
at the end of the fragment (`Reads.readBy`).  Where it decides what comes next, the tokens that an
expression or a declaration can start with keep the choices apart (`Reads.starts`).
-/

namespace LoxWalk

/-! ## What a fragment starts with -/

/-- The kinds of tokens that primary expressions start with. -/
def TokenKind.startsPrimary : TokenKind → Bool
  | symbol .leftParen => true
  | keyword .this_ => true
  | keyword .super_ => true
  | identifier => true
  | k => (Cursor.literal? k).isSome

/-- The kinds of tokens that expressions start with. -/
def TokenKind.startsExpression : TokenKind → Bool
  | symbol .bang => true
  | symbol .minus => true
  | k => k.startsPrimary

/-- The kinds of tokens that statements start with. -/
def TokenKind.startsStatement : TokenKind → Bool
  | keyword .for_ => true
  | keyword .if_ => true
  | keyword .while_ => true
  | keyword .return_ => true
  | keyword .print_ => true
  | symbol .leftBrace => true
  | k => k.startsExpression

/-- The kinds of tokens that declarations start with. -/
def TokenKind.startsDeclaration : TokenKind → Bool
  | keyword .class_ => true
  | keyword .fun_ => true
  | keyword .var_ => true
  | k => k.startsStatement

/-- The kinds of tokens that the fragments of a rule start with, for rules whose fragments are never
empty. -/
def Rule.starters? : Rule → Option (TokenKind → Bool)
  | .primary => some TokenKind.startsPrimary
  | .expression | .binary _ | .unary | .arguments _ | .terminated _ =>
    some TokenKind.startsExpression
  | .statement _ => some TokenKind.startsStatement
  | .declaration _ => some TokenKind.startsDeclaration
  | .function | .parameters _ => some (· == .identifier)
  | _ => none

theorem TokenKind.startsPrimary_of_literal? {k : TokenKind} {value : Literal}
    (h : Cursor.literal? k = some value) : k.startsPrimary = true := by
  unfold startsPrimary
  split <;> simp_all

theorem TokenKind.startsExpression_of_startsPrimary {k : TokenKind}
    (h : k.startsPrimary = true) : k.startsExpression = true := by
  unfold startsExpression
  split <;> simp_all

theorem TokenKind.startsStatement_of_startsExpression {k : TokenKind}
    (h : k.startsExpression = true) : k.startsStatement = true := by
  unfold startsStatement
  split <;> simp_all

theorem TokenKind.startsDeclaration_of_startsStatement {k : TokenKind}
    (h : k.startsStatement = true) : k.startsDeclaration = true := by
  unfold startsDeclaration
  split <;> simp_all

theorem Precedence.starters?_operand (p : Precedence) :
    p.operand.starters? = some TokenKind.startsExpression := by
  cases p <;> rfl

/-- A fragment starts with a token of the right kind. -/
theorem Reads.starts {r : Rule} {n n' : Nat} {w : List Token} {f : Fragment}
    {s : TokenKind → Bool} (h : Reads r n w f n') (hs : r.starters? = some s) :
    ∃ t w', w = t :: w' ∧ s t.kind = true := by
  induction h generalizing s with
  | plain _ ih => exact ih hs
  | assign _ _ _ ih | set _ _ _ ih | nextArgument _ _ _ _ ih | terminated _ _ _ ih =>
    obtain ⟨t, w', rfl, ht⟩ := ih hs
    exact ⟨t, _, rfl, ht⟩
  | call _ _ ih =>
    cases hs
    obtain ⟨t, w', rfl, ht⟩ := ih rfl
    exact ⟨t, _, rfl, TokenKind.startsExpression_of_startsPrimary ht⟩
  | @binary p _ _ _ _ _ _ _ _ _ ih =>
    obtain ⟨t, w', rfl, ht⟩ := ih (p.starters?_operand.trans hs)
    exact ⟨t, _, rfl, ht⟩
  | lastArgument _ _ ih => exact ih hs
  | prefixed ht =>
    cases hs
    exact ⟨_, _, rfl, by rcases ht with ht | ht <;> rw [ht] <;> rfl⟩
  | literal h =>
    cases hs
    exact ⟨_, _, rfl, TokenKind.startsPrimary_of_literal? h⟩
  | this ht | super ht | name ht | group ht | declaredClass ht | declaredFunction ht
  | declaredVariable ht | for_ ht | ifThen ht | ifElse ht | while_ ht | return_ ht | print ht
  | block ht | lastParameter _ ht | nextParameter _ ht | function ht =>
    cases hs
    exact ⟨_, _, rfl, by rw [ht]; rfl⟩
  | statement _ ih =>
    cases hs
    obtain ⟨t, w', rfl, ht⟩ := ih rfl
    exact ⟨t, _, rfl, TokenKind.startsDeclaration_of_startsStatement ht⟩
  | expressionStatement _ ih =>
    cases hs
    obtain ⟨t, w', rfl, ht⟩ := ih rfl
    exact ⟨t, _, rfl, TokenKind.startsStatement_of_startsExpression ht⟩
  | _ => cases hs

/-! ## What would make a reader go on -/

/-- The operators of a level and of all tighter levels. -/
def Precedence.reach (p : Precedence) : List TokenKind :=
  ([.or, .and, .equality, .comparison, .term, .factor].filter
    (fun q : Precedence => q.height ≤ p.height)).flatMap operators

/-- The kinds of tokens that would make the reader go on behind a fragment. -/
def Rule.extenders : Rule → List TokenKind
  | .expression => .symbol .equal :: Precedence.reach .or ++ [.symbol .leftParen, .symbol .dot]
  | .binary p | .binaryRest p _ => p.reach ++ [.symbol .leftParen, .symbol .dot]
  | .unary | .callRest _ => [.symbol .leftParen, .symbol .dot]
  | .arguments _ =>
    .symbol .comma :: .symbol .equal :: Precedence.reach .or ++ [.symbol .leftParen, .symbol .dot]
  | .parameters _ => [.symbol .comma]
  | .statement true | .declaration true => [.keyword .else_]
  | _ => []

/-- The next token is of none of the given kinds. -/
def Apart (ks : List TokenKind) (rest : List Token) : Prop :=
  ∀ t ∈ rest.head?, t.kind ∉ ks

namespace Apart

theorem cons {ks : List TokenKind} {t : Token} {ts : List Token} (h : t.kind ∉ ks) :
    Apart ks (t :: ts) := by
  rintro u ⟨⟩
  exact h

theorem cons_of_eq {ks : List TokenKind} {k : TokenKind} {t : Token} {ts : List Token}
    (ht : t.kind = k) (h : k ∉ ks) : Apart ks (t :: ts) :=
  cons (ht ▸ h)

theorem subset {ks ls : List TokenKind} {rest : List Token} (h : Apart ks rest) (hs : ls ⊆ ks) :
    Apart ls rest :=
  fun t ht hl => h t ht (hs hl)

end Apart

theorem Precedence.extenders_operand_subset (p : Precedence) :
    p.operand.extenders ⊆ (Rule.binary p).extenders := by
  cases p <;> decide

theorem Precedence.operators_subset_extenders (p : Precedence) :
    p.operators ⊆ (Rule.binary p).extenders := by
  cases p <;> decide

theorem Precedence.not_mem_extenders_operand (p : Precedence) {k : TokenKind}
    (h : k ∈ p.operators) : k ∉ p.operand.extenders := by
  revert k
  cases p <;> decide

/-! ## Steps that succeed -/

namespace Step

variable {α β : Type} {m n : Nat}

/-- A step makes the tree `a` and ends at `c`. -/
def Yields (x : Step α n) (a : α) (c : Cursor) : Prop :=
  ∃ h, x = .ok a c h

namespace Yields

theorem ok {a : α} {c : Cursor} (h : c.rest.length < n) : (Step.ok a c h).Yields a c :=
  ⟨h, rfl⟩

theorem andThen {x : Step α m} {f : (a : α) → (c : Cursor) → c.rest.length < m → Step β n}
    {hle : m ≤ n} {a : α} {b : β} {c₁ c₂ : Cursor} (hx : x.Yields a c₁)
    (hf : ∀ h, (f a c₁ h).Yields b c₂) : (x.andThen f hle).Yields b c₂ := by
  obtain ⟨h, rfl⟩ := hx
  exact hf h

theorem widen {x : Step α m} {hle : m ≤ n} {a : α} {c : Cursor} (hx : x.Yields a c) :
    (x.widen hle).Yields a c := by
  obtain ⟨h, rfl⟩ := hx
  exact ⟨Nat.lt_of_lt_of_le h hle, rfl⟩

end Yields

end Step

namespace Cursor

variable {rest : List Token} {cs : List Complaint} {n : Nat} {t : Token} {k : TokenKind}

theorem takeIf?_cons {p : Token → Bool} (h : p t = true) :
    (⟨t :: rest, cs, n⟩ : Cursor).takeIf? p = some ⟨t, ⟨rest, cs, n⟩, Nat.lt_succ_self _⟩ := by
  unfold takeIf?
  simp [h]

theorem takeIf?_of_apart {p : Token → Bool} (h : ∀ t ∈ rest.head?, p t = false) :
    (⟨rest, cs, n⟩ : Cursor).takeIf? p = none := by
  unfold takeIf?
  cases rest with
  | nil => rfl
  | cons t ts => simp [h t rfl]

theorem take?_cons (h : t.kind = k) :
    (⟨t :: rest, cs, n⟩ : Cursor).take? k = some ⟨t, ⟨rest, cs, n⟩, Nat.lt_succ_self _⟩ :=
  takeIf?_cons (by simp [h])

theorem take?_of_apart (h : Apart [k] rest) : (⟨rest, cs, n⟩ : Cursor).take? k = none :=
  takeIf?_of_apart fun t ht => by simpa using h t ht

theorem take?_of_ne (h : t.kind ≠ k) : (⟨t :: rest, cs, n⟩ : Cursor).take? k = none :=
  take?_of_apart (.cons (by simpa using h))

theorem expect_yields {what : Expected} (h : t.kind = k) :
    ((⟨t :: rest, cs, n⟩ : Cursor).expect k what).Yields t ⟨rest, cs, n⟩ := by
  unfold expect
  rw [take?_cons h]
  exact .ok _

theorem checkArity_of_lt {c : Cursor} {count : Nat} {fault : ParseFault}
    (h : count < maxArity) : c.checkArity count fault = c :=
  if_neg (Nat.not_le.mpr h)

end Cursor

namespace Cursor

/-! ## Single rules

One lemma for each way in which a rule goes on, from what the parts of the fragment yield. -/

variable {c c₁ : Cursor} {r r' : List Token} {cs cs' : List Complaint} {i j : Nat}
  {t t' name : Token} {e e' left right value : Expr} {p : Precedence}

theorem expression_of_or (h : (binary .or c).Yields e ⟨r, cs, i⟩) (hr : Apart [.symbol .equal] r) :
    (expression c).Yields e ⟨r, cs, i⟩ := by
  rw [expression]
  refine h.andThen fun _ => ?_
  rw [symbol?, take?_of_apart hr]
  exact .ok _

theorem expression_of_equal (h : (binary .or c).Yields left ⟨t :: r, cs, i⟩)
    (ht : t.kind = .symbol .equal) (hv : (expression ⟨r, cs, i⟩).Yields value c₁) :
    (expression c).Yields (c₁.assign left t value).1 (c₁.assign left t value).2 := by
  rw [expression]
  refine h.andThen fun _ => ?_
  rw [symbol?, take?_cons ht]
  exact hv.andThen fun _ => .ok _

/-- What the operands of a level are read by. -/
def OperandYields (p : Precedence) (c : Cursor) (e : Expr) (c' : Cursor) : Prop :=
  match p.tighter? with
  | some q => (binary q c).Yields e c'
  | none => (unary c).Yields e c'

theorem binary_of_operand (h : OperandYields p c left c₁)
    (hr : (binaryRest p left c₁).Yields e ⟨r, cs, i⟩) : (binary p c).Yields e ⟨r, cs, i⟩ := by
  rw [binary]
  unfold OperandYields at h
  split <;> simp_all only <;> exact h.andThen fun _ => hr.widen

theorem binaryRest_of_apart (hr : Apart p.operators r) :
    (binaryRest p left ⟨r, cs, i⟩).Yields left ⟨r, cs, i⟩ := by
  rw [binaryRest, takeIf?_of_apart (by simpa [Apart] using hr)]
  exact .ok _

theorem binaryRest_of_operator (ht : t.kind ∈ p.operators)
    (h : OperandYields p ⟨r, cs, i⟩ right c₁)
    (hr : (binaryRest p (p.node left t right) c₁).Yields e ⟨r', cs', j⟩) :
    (binaryRest p left ⟨t :: r, cs, i⟩).Yields e ⟨r', cs', j⟩ := by
  rw [binaryRest, takeIf?_cons (by simpa using ht)]
  unfold OperandYields at h
  dsimp only
  split <;> simp_all only <;> exact h.andThen fun _ => hr.widen

theorem unary_of_operator (ht : t.kind = .symbol .bang ∨ t.kind = .symbol .minus)
    (h : (unary ⟨r, cs, i⟩).Yields e c₁) : (unary ⟨t :: r, cs, i⟩).Yields (.unary t e) c₁ := by
  rw [unary, takeIf?_cons (by simpa [Token.isSymbol] using ht)]
  exact h.andThen fun _ => .ok _

theorem unary_of_primary (hc : ∀ t ∈ c.rest.head?, t.kind ≠ .symbol .bang ∧ t.kind ≠ .symbol .minus)
    (h : (primary c).Yields e c₁) (hr : (callRest e c₁).Yields e' ⟨r, cs, i⟩) :
    (unary c).Yields e' ⟨r, cs, i⟩ := by
  obtain ⟨ts, cs', j⟩ := c
  rw [unary, takeIf?_of_apart (by simpa [Token.isSymbol] using hc)]
  exact h.andThen fun _ => hr.widen

theorem callRest_of_apart (hr : Apart [.symbol .leftParen, .symbol .dot] r) :
    (callRest e ⟨r, cs, i⟩).Yields e ⟨r, cs, i⟩ := by
  rw [callRest, symbol?, take?_of_apart (hr.subset (by simp)), symbol?,
    take?_of_apart (hr.subset (by simp))]
  exact .ok _

theorem callRest_of_empty (ht : t.kind = .symbol .leftParen) (ht' : t'.kind = .symbol .rightParen)
    (h : (callRest (.call e t' []) ⟨r, cs, i⟩).Yields e' c₁) :
    (callRest e ⟨t :: t' :: r, cs, i⟩).Yields e' c₁ := by
  rw [callRest, symbol?, take?_cons ht]
  dsimp only
  rw [symbol?, take?_cons ht']
  exact h.widen

theorem callRest_of_arguments {es : List Expr} (ht : t.kind = .symbol .leftParen)
    (hr : Apart [.symbol .rightParen] r) (h : (arguments 0 ⟨r, cs, i⟩).Yields es ⟨t' :: r', cs', j⟩)
    (ht' : t'.kind = .symbol .rightParen)
    (hc : (callRest (.call e t' es) ⟨r', cs', j⟩).Yields e' c₁) :
    (callRest e ⟨t :: r, cs, i⟩).Yields e' c₁ := by
  rw [callRest, symbol?, take?_cons ht]
  dsimp only
  rw [symbol?, take?_of_apart hr]
  exact h.andThen fun _ => (expect_yields ht').andThen fun _ => hc.widen

theorem callRest_of_property (ht : t.kind = .symbol .dot) (hname : name.kind = .identifier)
    (h : (callRest (.get e name) ⟨r, cs, i⟩).Yields e' c₁) :
    (callRest e ⟨t :: name :: r, cs, i⟩).Yields e' c₁ := by
  rw [callRest, symbol?, take?_of_ne (by simp [ht])]
  dsimp only
  rw [symbol?, take?_cons ht]
  exact (expect_yields hname).andThen fun _ => h.widen

theorem arguments_of_last {count : Nat} {c' : Cursor}
    (hcheck : c.checkArity count .tooManyArguments = c')
    (h : (expression c').Yields e ⟨r, cs, i⟩) (hr : Apart [.symbol .comma] r) :
    (arguments count c).Yields [e] ⟨r, cs, i⟩ := by
  subst hcheck
  rw [arguments]
  refine h.andThen fun _ => ?_
  rw [symbol?, take?_of_apart hr]
  exact .ok _

theorem arguments_of_comma {count : Nat} {es : List Expr} {c' : Cursor}
    (hcheck : c.checkArity count .tooManyArguments = c')
    (h : (expression c').Yields e ⟨t :: r, cs, i⟩) (ht : t.kind = .symbol .comma)
    (hes : (arguments (count + 1) ⟨r, cs, i⟩).Yields es c₁) :
    (arguments count c).Yields (e :: es) c₁ := by
  subst hcheck
  rw [arguments]
  refine h.andThen fun _ => ?_
  rw [symbol?, take?_cons ht]
  exact hes.andThen fun _ => .ok _

theorem primary_of_literal {v : Literal} (h : literal? t.kind = some v) :
    (primary ⟨t :: r, cs, i⟩).Yields (.literal v) ⟨r, cs, i⟩ := by
  rw [primary, takeIf?_cons rfl]
  dsimp only
  rw [h]
  exact .ok _

theorem primary_of_this (ht : t.kind = .keyword .this_) :
    (primary ⟨t :: r, cs, i⟩).Yields (.this ⟨i⟩ t) ⟨r, cs, i + 1⟩ := by
  rw [primary, takeIf?_cons rfl]
  dsimp only
  rw [ht]
  exact .ok _

theorem primary_of_name (ht : t.kind = .identifier) :
    (primary ⟨t :: r, cs, i⟩).Yields (.var ⟨i⟩ t) ⟨r, cs, i + 1⟩ := by
  rw [primary, takeIf?_cons rfl]
  dsimp only
  rw [ht]
  exact .ok _

theorem primary_of_super (ht : t.kind = .keyword .super_) (ht' : t'.kind = .symbol .dot)
    (hname : name.kind = .identifier) :
    (primary ⟨t :: t' :: name :: r, cs, i⟩).Yields (.super ⟨i⟩ t name) ⟨r, cs, i + 1⟩ := by
  rw [primary, takeIf?_cons rfl]
  dsimp only
  rw [ht]
  exact (expect_yields ht').andThen fun _ => (expect_yields hname).andThen fun _ => .ok _

theorem primary_of_group (ht : t.kind = .symbol .leftParen)
    (h : (expression ⟨r, cs, i⟩).Yields e ⟨t' :: r', cs', j⟩)
    (ht' : t'.kind = .symbol .rightParen) :
    (primary ⟨t :: r, cs, i⟩).Yields (.group e) ⟨r', cs', j⟩ := by
  rw [primary, takeIf?_cons rfl]
  dsimp only
  rw [ht]
  exact h.andThen fun _ => (expect_yields ht').andThen fun _ => .ok _

/-! ### Parts of statements -/

theorem terminated_of_expression {s : Symbol} {what : Expected}
    (h : (expression c).Yields e ⟨t :: r, cs, i⟩) (ht : t.kind = .symbol s) :
    (terminated s what c).Yields e ⟨r, cs, i⟩ :=
  h.andThen fun _ => (expect_yields ht).andThen fun _ => .ok _

theorem optional_of_symbol {s : Symbol} {what : Expected} (ht : t.kind = .symbol s) :
    (optional s what ⟨t :: r, cs, i⟩).Yields none ⟨r, cs, i⟩ := by
  rw [optional, symbol?, take?_cons ht]
  exact .ok _

theorem optional_of_terminated {s : Symbol} {what : Expected}
    (hr : Apart [.symbol s] r) (h : (terminated s what ⟨r, cs, i⟩).Yields e c₁) :
    (optional s what ⟨r, cs, i⟩).Yields (some e) c₁ := by
  rw [optional, symbol?, take?_of_apart hr]
  exact h.andThen fun _ => .ok _

theorem parenthesized_of_terminated {opening closing : Expected}
    (ht : t.kind = .symbol .leftParen) (h : (terminated .rightParen closing ⟨r, cs, i⟩).Yields e c₁) :
    (parenthesized opening closing ⟨t :: r, cs, i⟩).Yields e c₁ :=
  (expect_yields ht).andThen fun _ => h.andThen fun _ => .ok _

theorem variableDeclaration_of_equal (hname : name.kind = .identifier)
    (ht : t.kind = .symbol .equal)
    (h : (terminated .semicolon .variableEnd ⟨r, cs, i⟩).Yields e c₁) :
    (variableDeclaration ⟨name :: t :: r, cs, i⟩).Yields (.var name (some e)) c₁ := by
  refine (expect_yields hname).andThen fun _ => ?_
  rw [symbol?, take?_cons ht]
  exact h.andThen fun _ => .ok _

theorem variableDeclaration_of_semicolon (hname : name.kind = .identifier)
    (ht : t.kind = .symbol .semicolon) :
    (variableDeclaration ⟨name :: t :: r, cs, i⟩).Yields (.var name none) ⟨r, cs, i⟩ := by
  refine (expect_yields hname).andThen fun _ => ?_
  rw [symbol?, take?_of_ne (by simp [ht])]
  exact (expect_yields ht).andThen fun _ => .ok _

theorem forInitializer_of_semicolon (ht : t.kind = .symbol .semicolon) :
    (forInitializer ⟨t :: r, cs, i⟩).Yields none ⟨r, cs, i⟩ := by
  rw [forInitializer, symbol?, take?_cons ht]
  exact .ok _

theorem forInitializer_of_variable {s : Stmt} (ht : t.kind = .keyword .var_)
    (h : (variableDeclaration ⟨r, cs, i⟩).Yields s c₁) :
    (forInitializer ⟨t :: r, cs, i⟩).Yields (some s) c₁ := by
  rw [forInitializer, symbol?, take?_of_ne (by simp [ht])]
  dsimp only
  rw [keyword?, take?_cons ht]
  exact h.andThen fun _ => .ok _

theorem forInitializer_of_expression (hr : Apart [.symbol .semicolon, .keyword .var_] r)
    (h : (terminated .semicolon .expressionEnd ⟨r, cs, i⟩).Yields e c₁) :
    (forInitializer ⟨r, cs, i⟩).Yields (some (.expression e)) c₁ := by
  rw [forInitializer, symbol?, take?_of_apart (hr.subset (by simp))]
  dsimp only
  rw [keyword?, take?_of_apart (hr.subset (by simp))]
  exact Step.Yields.andThen (h.andThen fun _ => .ok _) fun _ => .ok _

theorem parameters_of_last {count : Nat}
    (hcheck : (⟨name :: r, cs, i⟩ : Cursor).checkArity count .tooManyParameters = ⟨name :: r, cs', i⟩)
    (hname : name.kind = .identifier) (hr : Apart [.symbol .comma] r) :
    (parameters count ⟨name :: r, cs, i⟩).Yields [name] ⟨r, cs', i⟩ := by
  rw [parameters]
  refine Step.Yields.andThen (by rw [hcheck]; exact expect_yields hname) fun _ => ?_
  rw [symbol?, take?_of_apart hr]
  exact .ok _

theorem parameters_of_comma {count : Nat} {names : List Token}
    (hcheck : (⟨name :: t :: r, cs, i⟩ : Cursor).checkArity count .tooManyParameters =
      ⟨name :: t :: r, cs', i⟩)
    (hname : name.kind = .identifier) (ht : t.kind = .symbol .comma)
    (h : (parameters (count + 1) ⟨r, cs', i⟩).Yields names c₁) :
    (parameters count ⟨name :: t :: r, cs, i⟩).Yields (name :: names) c₁ := by
  rw [parameters]
  refine Step.Yields.andThen (by rw [hcheck]; exact expect_yields hname) fun _ => ?_
  rw [symbol?, take?_cons ht]
  exact h.andThen fun _ => .ok _

theorem parameterList_of_empty (ht : t.kind = .symbol .rightParen) :
    (parameterList ⟨t :: r, cs, i⟩).Yields [] ⟨r, cs, i⟩ := by
  rw [parameterList, symbol?, take?_cons ht]
  exact .ok _

theorem parameterList_of_parameters {names : List Token} (hr : Apart [.symbol .rightParen] r)
    (h : (parameters 0 ⟨r, cs, i⟩).Yields names ⟨t :: r', cs', j⟩)
    (ht : t.kind = .symbol .rightParen) :
    (parameterList ⟨r, cs, i⟩).Yields names ⟨r', cs', j⟩ := by
  rw [parameterList, symbol?, take?_of_apart hr]
  exact h.andThen fun _ => (expect_yields ht).andThen fun _ => .ok _

theorem classHeader_of_brace (ht : t.kind = .symbol .leftBrace) :
    (classHeader ⟨t :: r, cs, i⟩).Yields none ⟨r, cs, i⟩ := by
  rw [classHeader, symbol?, take?_of_ne (by simp [ht])]
  exact (expect_yields ht).andThen fun _ => .ok _

theorem classHeader_of_superclass (ht : t.kind = .symbol .less) (hname : name.kind = .identifier)
    (ht' : t'.kind = .symbol .leftBrace) :
    (classHeader ⟨t :: name :: t' :: r, cs, i⟩).Yields (some (.var ⟨i⟩ name)) ⟨r, cs, i + 1⟩ := by
  rw [classHeader, symbol?, take?_cons ht]
  exact (expect_yields hname).andThen fun _ => (expect_yields ht').andThen fun _ => .ok _

/-! ### Declarations and statements -/

theorem declaration_of_class {s : Stmt} (ht : t.kind = .keyword .class_)
    (h : (classDeclaration ⟨r, cs, i⟩).Yields s c₁) :
    (declaration ⟨t :: r, cs, i⟩).Yields s c₁ := by
  rw [declaration, keyword?, take?_cons ht]
  exact h.widen

theorem declaration_of_fun {f : FunDecl} (ht : t.kind = .keyword .fun_)
    (h : (function .function ⟨r, cs, i⟩).Yields f c₁) :
    (declaration ⟨t :: r, cs, i⟩).Yields (.fun_ f) c₁ := by
  rw [declaration, keyword?, take?_of_ne (by simp [ht])]
  dsimp only
  rw [keyword?, take?_cons ht]
  exact h.andThen fun _ => .ok _

theorem declaration_of_var {s : Stmt} (ht : t.kind = .keyword .var_)
    (h : (variableDeclaration ⟨r, cs, i⟩).Yields s c₁) :
    (declaration ⟨t :: r, cs, i⟩).Yields s c₁ := by
  rw [declaration, keyword?, take?_of_ne (by simp [ht])]
  dsimp only
  rw [keyword?, take?_of_ne (by simp [ht])]
  dsimp only
  rw [keyword?, take?_cons ht]
  exact h.widen

theorem declaration_of_statement {s : Stmt}
    (hr : Apart [.keyword .class_, .keyword .fun_, .keyword .var_] r)
    (h : (statement ⟨r, cs, i⟩).Yields s c₁) : (declaration ⟨r, cs, i⟩).Yields s c₁ := by
  rw [declaration, keyword?, take?_of_apart (hr.subset (by simp))]
  dsimp only
  rw [keyword?, take?_of_apart (hr.subset (by simp))]
  dsimp only
  rw [keyword?, take?_of_apart (hr.subset (by simp))]
  exact h

theorem declared_of_declaration {s : Stmt} (hne : c.rest ≠ []) (h : (declaration c).Yields s c₁) :
    ∃ hlt, declared c hne = ⟨some s, c₁, hlt⟩ := by
  obtain ⟨hlt, heq⟩ := h
  refine ⟨hlt, ?_⟩
  rw [declared]
  split
  · simp_all
  · simp_all

theorem classDeclaration_of_parts {superclass : Option Expr} {fs : List FunDecl} {c₂ : Cursor}
    (hname : name.kind = .identifier) (hh : (classHeader ⟨r, cs, i⟩).Yields superclass c₁)
    (hm : (methods c₁).Yields fs c₂) :
    (classDeclaration ⟨name :: r, cs, i⟩).Yields (.class_ name superclass fs) c₂ := by
  rw [classDeclaration]
  exact (expect_yields hname).andThen fun _ => hh.andThen fun _ => hm.andThen fun _ => .ok _

theorem methods_of_brace (ht : t.kind = .symbol .rightBrace) :
    (methods ⟨t :: r, cs, i⟩).Yields [] ⟨r, cs, i⟩ := by
  rw [methods, symbol?, take?_cons ht]
  exact .ok _

theorem methods_of_function {f : FunDecl} {fs : List FunDecl} {c₂ : Cursor} (hne : r ≠ [])
    (hr : Apart [.symbol .rightBrace] r) (hf : (function .method ⟨r, cs, i⟩).Yields f c₁)
    (hfs : (methods c₁).Yields fs c₂) : (methods ⟨r, cs, i⟩).Yields (f :: fs) c₂ := by
  rw [methods, symbol?, take?_of_apart hr]
  dsimp only
  rw [if_neg hne]
  exact hf.andThen fun _ => hfs.andThen fun _ => .ok _

theorem function_of_parts {form : FunctionForm} {params : List Token} {body : List Stmt}
    (hname : name.kind = .identifier) (ht : t.kind = .symbol .leftParen)
    (hp : (parameterList ⟨r, cs, i⟩).Yields params ⟨t' :: r', cs', j⟩)
    (ht' : t'.kind = .symbol .leftBrace) (hb : (block ⟨r', cs', j⟩).Yields body c₁) :
    (function form ⟨name :: t :: r, cs, i⟩).Yields ⟨name, params, body⟩ c₁ := by
  rw [function]
  exact (expect_yields hname).andThen fun _ => (expect_yields ht).andThen fun _ =>
    hp.andThen fun _ => (expect_yields ht').andThen fun _ => hb.andThen fun _ => .ok _

theorem block_of_brace (ht : t.kind = .symbol .rightBrace) :
    (block ⟨t :: r, cs, i⟩).Yields [] ⟨r, cs, i⟩ := by
  rw [block, symbol?, take?_cons ht]
  exact .ok _

theorem block_of_declaration {s : Stmt} {ss : List Stmt} {c₂ : Cursor} (hne : r ≠ [])
    (hr : Apart [.symbol .rightBrace] r) (hs : (declaration ⟨r, cs, i⟩).Yields s c₁)
    (hss : (block c₁).Yields ss c₂) : (block ⟨r, cs, i⟩).Yields (s :: ss) c₂ := by
  obtain ⟨hlt, heq⟩ := declared_of_declaration (c := ⟨r, cs, i⟩) hne hs
  rw [block, symbol?, take?_of_apart hr]
  dsimp only
  rw [dif_neg hne, heq]
  exact hss.andThen fun _ => .ok _

theorem statement_of_for {initializer : Option Stmt} {condition increment : Option Expr}
    {body : Stmt} {c₂ c₃ c₄ : Cursor} (ht : t.kind = .keyword .for_)
    (ht' : t'.kind = .symbol .leftParen) (h₁ : (forInitializer ⟨r, cs, i⟩).Yields initializer c₁)
    (h₂ : ∀ what, (optional .semicolon what c₁).Yields condition c₂)
    (h₃ : ∀ what, (optional .rightParen what c₂).Yields increment c₃)
    (h₄ : (statement c₃).Yields body c₄) :
    (statement ⟨t :: t' :: r, cs, i⟩).Yields
      (.ofForClauses initializer condition increment body) c₄ := by
  rw [statement, takeIf?_cons rfl]
  dsimp only
  rw [ht]
  exact (expect_yields ht').andThen fun _ => h₁.andThen fun _ => (h₂ _).andThen fun _ =>
    (h₃ _).andThen fun _ => h₄.andThen fun _ => .ok _

theorem statement_of_if {condition : Expr} {thenBranch : Stmt} (ht : t.kind = .keyword .if_)
    (h : ∀ opening closing, (parenthesized opening closing ⟨r, cs, i⟩).Yields condition c₁)
    (h₁ : (statement c₁).Yields thenBranch ⟨r', cs', j⟩) (hr : Apart [.keyword .else_] r') :
    (statement ⟨t :: r, cs, i⟩).Yields (.if_ condition thenBranch none) ⟨r', cs', j⟩ := by
  rw [statement, takeIf?_cons rfl]
  dsimp only
  rw [ht]
  refine (h _ _).andThen fun _ => h₁.andThen fun _ => ?_
  rw [keyword?, take?_of_apart hr]
  exact .ok _

theorem statement_of_else {condition : Expr} {thenBranch elseBranch : Stmt} {c₂ : Cursor}
    (ht : t.kind = .keyword .if_)
    (h : ∀ opening closing, (parenthesized opening closing ⟨r, cs, i⟩).Yields condition c₁)
    (h₁ : (statement c₁).Yields thenBranch ⟨t' :: r', cs', j⟩) (ht' : t'.kind = .keyword .else_)
    (h₂ : (statement ⟨r', cs', j⟩).Yields elseBranch c₂) :
    (statement ⟨t :: r, cs, i⟩).Yields (.if_ condition thenBranch (some elseBranch)) c₂ := by
  rw [statement, takeIf?_cons rfl]
  dsimp only
  rw [ht]
  refine (h _ _).andThen fun _ => h₁.andThen fun _ => ?_
  rw [keyword?, take?_cons ht']
  exact h₂.andThen fun _ => .ok _

theorem statement_of_while {condition : Expr} {body : Stmt} {c₂ : Cursor}
    (ht : t.kind = .keyword .while_)
    (h : ∀ opening closing, (parenthesized opening closing ⟨r, cs, i⟩).Yields condition c₁)
    (h₁ : (statement c₁).Yields body c₂) :
    (statement ⟨t :: r, cs, i⟩).Yields (.while_ condition body) c₂ := by
  rw [statement, takeIf?_cons rfl]
  dsimp only
  rw [ht]
  exact (h _ _).andThen fun _ => h₁.andThen fun _ => .ok _

theorem statement_of_return {value : Option Expr} (ht : t.kind = .keyword .return_)
    (h : ∀ what, (optional .semicolon what ⟨r, cs, i⟩).Yields value c₁) :
    (statement ⟨t :: r, cs, i⟩).Yields (.return_ t value) c₁ := by
  rw [statement, takeIf?_cons rfl]
  dsimp only
  rw [ht]
  exact (h _).andThen fun _ => .ok _

theorem statement_of_print (ht : t.kind = .keyword .print_)
    (h : ∀ what, (terminated .semicolon what ⟨r, cs, i⟩).Yields e c₁) :
    (statement ⟨t :: r, cs, i⟩).Yields (.print e) c₁ := by
  rw [statement, takeIf?_cons rfl]
  dsimp only
  rw [ht]
  exact (h _).andThen fun _ => .ok _

theorem statement_of_brace {body : List Stmt} (ht : t.kind = .symbol .leftBrace)
    (h : (block ⟨r, cs, i⟩).Yields body c₁) :
    (statement ⟨t :: r, cs, i⟩).Yields (.block body) c₁ := by
  rw [statement, takeIf?_cons rfl]
  dsimp only
  rw [ht]
  exact h.andThen fun _ => .ok _

theorem statement_of_expression (ht : t.kind.startsExpression = true)
    (h : ∀ what, (terminated .semicolon what ⟨t :: r, cs, i⟩).Yields e c₁) :
    (statement ⟨t :: r, cs, i⟩).Yields (.expression e) c₁ := by
  have hs : (expressionStatement ⟨t :: r, cs, i⟩).Yields (.expression e) c₁ :=
    (h _).andThen fun _ => .ok _
  rw [statement, takeIf?_cons rfl]
  dsimp only
  split <;> simp_all [TokenKind.startsExpression, TokenKind.startsPrimary, literal?]

theorem program_of_declaration {s : Stmt} {ss : List Stmt} {c₂ : Cursor} (hne : c.rest ≠ [])
    (hs : (declaration c).Yields s c₁) (hss : program c₁ = (ss, c₂)) :
    program c = (s :: ss, c₂) := by
  obtain ⟨hlt, heq⟩ := declared_of_declaration hne hs
  rw [program, dif_neg hne, heq]
  dsimp only
  rw [hss]
  rfl

end Cursor

/-! ## The reader of a rule -/

/-- The reader of a rule makes the fragment `f` when it starts at `c`, and ends at `c'`. -/
def Rule.ReadBy : Rule → Fragment → Cursor → Cursor → Prop
  | expression, .expr e, c, c' => (Cursor.expression c).Yields e c'
  | binary p, .expr e, c, c' => (Cursor.binary p c).Yields e c'
  | binaryRest p left, .expr e, c, c' => (Cursor.binaryRest p left c).Yields e c'
  | unary, .expr e, c, c' => (Cursor.unary c).Yields e c'
  | callRest callee, .expr e, c, c' => (Cursor.callRest callee c).Yields e c'
  | arguments count, .exprs es, c, c' => (Cursor.arguments count c).Yields es c'
  | primary, .expr e, c, c' => (Cursor.primary c).Yields e c'
  | terminated s, .expr e, c, c' => ∀ what, (Cursor.terminated s what c).Yields e c'
  | optional s, .expr? e, c, c' => ∀ what, (Cursor.optional s what c).Yields e c'
  | parenthesized, .expr e, c, c' =>
    ∀ opening closing, (Cursor.parenthesized opening closing c).Yields e c'
  | variableDeclaration, .stmt s, c, c' => (Cursor.variableDeclaration c).Yields s c'
  | forInitializer, .stmt? s, c, c' => (Cursor.forInitializer c).Yields s c'
  | parameters count, .names ns, c, c' => (Cursor.parameters count c).Yields ns c'
  | parameterList, .names ns, c, c' => (Cursor.parameterList c).Yields ns c'
  | classHeader, .expr? e, c, c' => (Cursor.classHeader c).Yields e c'
  | declaration _, .stmt s, c, c' => (Cursor.declaration c).Yields s c'
  | classDeclaration, .stmt s, c, c' => (Cursor.classDeclaration c).Yields s c'
  | methods, .decls fs, c, c' => (Cursor.methods c).Yields fs c'
  | function, .decl f, c, c' => ∀ form, (Cursor.function form c).Yields f c'
  | block, .stmts ss, c, c' => (Cursor.block c).Yields ss c'
  | statement _, .stmt s, c, c' => (Cursor.statement c).Yields s c'
  | program, .stmts ss, c, c' => c'.rest = [] → Cursor.program c = (ss, c')
  | _, _, _, _ => False

namespace Rule

open Cursor

theorem ReadBy.operandYields {p : Precedence} {e : Expr} {c c' : Cursor}
    (h : p.operand.ReadBy (.expr e) c c') : OperandYields p c e c' := by
  cases p <;> exact h

end Rule

/-- What starts an expression is no token of the given kinds. -/
theorem Apart.of_starter {ks : List TokenKind} {s : TokenKind → Bool} {t : Token} {ts : List Token}
    (ht : s t.kind = true) (h : ks.all (!s ·) = true) : Apart ks (t :: ts) := by
  refine .cons fun hk => ?_
  have := List.all_eq_true.mp h t.kind hk
  simp [ht] at this

theorem apart_nil (rest : List Token) : Apart [] rest :=
  fun _ _ h => nomatch h

/-- Behind an operand there is an operator of its level or what is behind the whole. -/
theorem Reads.apart_operand {p : Precedence} {left : Expr} {n n' : Nat} {w rest : List Token}
    {f : Fragment} (h : Reads (.binaryRest p left) n w f n')
    (hr : Apart (Rule.binary p).extenders rest) : Apart p.operand.extenders (w ++ rest) := by
  cases h with
  | binaryStop => exact hr.subset p.extenders_operand_subset
  | binaryMore ht => exact .cons (p.not_mem_extenders_operand ht)

theorem Symbol.not_mem_extenders {s : Symbol} (hs : s.endsExpression = true) :
    .symbol s ∉ Rule.expression.extenders := by
  revert hs
  cases s <;> decide

/-- An expression does not start with the symbol behind it. -/
theorem Reads.apart_terminated {s : Symbol} {n n' : Nat} {w rest : List Token} {f : Fragment}
    (h : Reads (.terminated s) n w f n') : Apart [.symbol s] (w ++ rest) := by
  obtain ⟨t, v, hw, ht⟩ := h.starts rfl
  have hs : s.endsExpression = true := by
    cases h with
    | terminated hs => exact hs
  rw [hw]
  refine .of_starter ht ?_
  revert hs
  cases s <;> decide

theorem Rule.extenders_declaration_subset (o : Bool) :
    (declaration o).extenders ⊆ [.keyword .else_] := by
  cases o <;> decide

theorem Reads.apart_declaration {o : Bool} {n n' : Nat} {w rest : List Token} {f : Fragment}
    (h : Reads (.declaration o) n w f n') : Apart [.keyword .else_] (w ++ rest) := by
  obtain ⟨t, w, rfl, ht⟩ := h.starts rfl
  exact .of_starter ht rfl

/-- No declaration of a block is followed by an `else`. -/
theorem Reads.apart_block {n n' : Nat} {w rest : List Token} {f : Fragment}
    (h : Reads .block n w f n') : Apart [.keyword .else_] (w ++ rest) := by
  cases h with
  | blockEnd ht => exact .cons_of_eq ht (by decide)
  | blockNext h => rw [List.append_assoc]; exact h.apart_declaration

/-- No declaration of a program is followed by an `else`. -/
theorem Reads.apart_program {n n' : Nat} {w : List Token} {f : Fragment}
    (h : Reads .program n w f n') : Apart [.keyword .else_] (w ++ []) := by
  cases h with
  | programEnd => exact fun _ ht => nomatch ht
  | programNext h => rw [List.append_assoc]; exact h.apart_declaration

/-- The tokens of a fragment are read as that fragment, with no new complaint, if the token behind
them would not make the reader go on. -/
theorem Reads.readBy {r : Rule} {n n' : Nat} {w : List Token} {f : Fragment}
    (h : Reads r n w f n') (rest : List Token) (cs : List Complaint)
    (hr : Apart r.extenders rest) : r.ReadBy f ⟨w ++ rest, cs, n⟩ ⟨rest, cs, n'⟩ := by
  induction h generalizing rest cs with
  | plain _ ih =>
    exact Cursor.expression_of_or (ih rest cs (hr.subset (by decide))) (hr.subset (by decide))
  | assign _ ht _ ihl ihv | set _ ht _ ihl ihv =>
    rw [List.append_assoc]
    exact Cursor.expression_of_equal (ihl _ cs (.cons_of_eq ht (by decide))) ht (ihv rest cs hr)
  | binary _ more ihf ihm =>
    rw [List.append_assoc]
    exact Cursor.binary_of_operand (ihf _ cs (more.apart_operand hr)).operandYields
      (ihm rest cs hr)
  | @binaryStop p =>
    exact Cursor.binaryRest_of_apart (hr.subset p.operators_subset_extenders)
  | binaryMore ht _ more ihf ihm =>
    rw [List.cons_append, List.append_assoc]
    exact Cursor.binaryRest_of_operator ht (ihf _ cs (more.apart_operand hr)).operandYields
      (ihm rest cs hr)
  | prefixed ht _ ih => exact Cursor.unary_of_operator ht (ih rest cs hr)
  | call first _ ihf ihm =>
    rw [List.append_assoc]
    obtain ⟨t, w, rfl, ht⟩ := first.starts rfl
    refine Cursor.unary_of_primary ?_ (ihf _ cs (apart_nil _)) (ihm rest cs hr)
    rintro u ⟨⟩
    exact ⟨fun hu => by simp [hu, TokenKind.startsPrimary, Cursor.literal?] at ht,
      fun hu => by simp [hu, TokenKind.startsPrimary, Cursor.literal?] at ht⟩
  | callStop => exact Cursor.callRest_of_apart hr
  | callEmpty ht ht' _ ih => exact Cursor.callRest_of_empty ht ht' (ih rest cs hr)
  | callWith ht args ht' _ iha ihm =>
    obtain ⟨t, w, rfl, hs⟩ := args.starts rfl
    rw [List.cons_append, List.append_assoc]
    exact Cursor.callRest_of_arguments ht (.of_starter hs rfl)
      (iha _ cs (.cons_of_eq ht' (by decide))) ht' (ihm rest cs hr)
  | property ht hname _ ih => exact Cursor.callRest_of_property ht hname (ih rest cs hr)
  | lastArgument hc _ ih =>
    exact Cursor.arguments_of_last (Cursor.checkArity_of_lt hc)
      (ih rest cs (hr.subset (List.subset_cons_self _ _)))
      (hr.subset (by simp [Rule.extenders]))
  | nextArgument hc _ ht _ ih ihm =>
    rw [List.append_assoc]
    exact Cursor.arguments_of_comma (Cursor.checkArity_of_lt hc)
      (ih _ cs (.cons_of_eq ht (by decide))) ht (ihm rest cs hr)
  | literal h => exact Cursor.primary_of_literal h
  | this ht => exact Cursor.primary_of_this ht
  | super ht hd hm => exact Cursor.primary_of_super ht hd hm
  | name ht => exact Cursor.primary_of_name ht
  | group ht _ ht' ih =>
    rw [List.cons_append, List.append_assoc]
    exact Cursor.primary_of_group ht (ih _ cs (.cons_of_eq ht' (by decide))) ht'
  | terminated hs _ ht ih =>
    rw [List.append_assoc]
    exact fun _ => Cursor.terminated_of_expression
      (ih _ cs (.cons_of_eq ht (Symbol.not_mem_extenders hs))) ht
  | omitted ht => exact fun _ => Cursor.optional_of_symbol ht
  | given h ih =>
    exact fun what => Cursor.optional_of_terminated h.apart_terminated (ih rest cs hr what)
  | parenthesized ht _ ih =>
    exact fun _ closing => Cursor.parenthesized_of_terminated ht (ih rest cs hr closing)
  | initialized hname ht _ ih => exact Cursor.variableDeclaration_of_equal hname ht (ih rest cs hr _)
  | uninitialized hname ht => exact Cursor.variableDeclaration_of_semicolon hname ht
  | forNothing ht => exact Cursor.forInitializer_of_semicolon ht
  | forVariable ht _ ih => exact Cursor.forInitializer_of_variable ht (ih rest cs hr)
  | forExpression h ih =>
    obtain ⟨t, w, rfl, hs⟩ := h.starts rfl
    exact Cursor.forInitializer_of_expression (.of_starter hs rfl) (ih rest cs hr _)
  | lastParameter hc hname =>
    exact Cursor.parameters_of_last (Cursor.checkArity_of_lt hc) hname hr
  | nextParameter hc hname ht _ ih =>
    exact Cursor.parameters_of_comma (Cursor.checkArity_of_lt hc) hname ht (ih rest cs hr)
  | noParameters ht => exact Cursor.parameterList_of_empty ht
  | someParameters h ht ih =>
    obtain ⟨t, w, rfl, hs⟩ := h.starts (s := (· == .identifier)) rfl
    rw [List.append_assoc]
    exact Cursor.parameterList_of_parameters (.of_starter (s := (· == .identifier)) hs rfl)
      (ih _ cs (.cons_of_eq ht (by decide))) ht
  | base ht => exact Cursor.classHeader_of_brace ht
  | derived ht hname ht' => exact Cursor.classHeader_of_superclass ht hname ht'
  | declaredClass ht _ ih => exact Cursor.declaration_of_class ht (ih rest cs hr)
  | declaredFunction ht _ ih => exact Cursor.declaration_of_fun ht (ih rest cs hr _)
  | declaredVariable ht _ ih => exact Cursor.declaration_of_var ht (ih rest cs hr)
  | @statement o _ _ _ _ h ih =>
    obtain ⟨t, w, rfl, hs⟩ := h.starts rfl
    exact Cursor.declaration_of_statement (.of_starter hs rfl) (ih rest cs (by cases o <;> exact hr))
  | classDeclaration hname _ _ ihh ihm =>
    rw [List.cons_append, List.append_assoc]
    exact Cursor.classDeclaration_of_parts hname (ihh _ cs (apart_nil _)) (ihm rest cs hr)
  | noMethods ht => exact Cursor.methods_of_brace ht
  | nextMethod h _ ihf ihm =>
    obtain ⟨t, w, rfl, hs⟩ := h.starts (s := (· == .identifier)) rfl
    rw [List.append_assoc]
    exact Cursor.methods_of_function (List.cons_ne_nil _ _)
      (.of_starter (s := (· == .identifier)) hs rfl)
      (ihf _ cs (apart_nil _) _) (ihm rest cs hr)
  | function hname ht _ ht' _ ihp ihb =>
    rw [List.cons_append, List.cons_append, List.append_assoc]
    exact fun _ => Cursor.function_of_parts hname ht (ihp _ cs (apart_nil _)) ht' (ihb rest cs hr)
  | blockEnd ht => exact Cursor.block_of_brace ht
  | @blockNext o _ _ _ _ _ _ _ h more ihs ihm =>
    obtain ⟨t, w, rfl, hs⟩ := h.starts rfl
    rw [List.append_assoc]
    exact Cursor.block_of_declaration (List.cons_ne_nil _ _) (.of_starter hs rfl)
      (ihs _ cs (more.apart_block.subset (Rule.extenders_declaration_subset o))) (ihm rest cs hr)
  | for_ ht ht' _ _ _ _ ih₁ ih₂ ih₃ ih₄ =>
    simp only [List.cons_append, List.append_assoc]
    exact Cursor.statement_of_for ht ht' (ih₁ _ cs (apart_nil _)) (ih₂ _ cs (apart_nil _))
      (ih₃ _ cs (apart_nil _)) (ih₄ rest cs hr)
  | @ifThen o _ _ _ _ _ _ _ _ ht _ _ ih ih₁ =>
    rw [List.cons_append, List.append_assoc]
    exact Cursor.statement_of_if ht (ih _ cs (apart_nil _))
      (ih₁ rest cs (hr.subset (by cases o <;> decide))) hr
  | ifElse ht _ _ ht' _ ih ih₁ ih₂ =>
    simp only [List.cons_append, List.append_assoc]
    exact Cursor.statement_of_else ht (ih _ cs (apart_nil _)) (ih₁ _ cs (apart_nil _)) ht'
      (ih₂ rest cs hr)
  | while_ ht _ _ ih ih₁ =>
    rw [List.cons_append, List.append_assoc]
    exact Cursor.statement_of_while ht (ih _ cs (apart_nil _)) (ih₁ rest cs hr)
  | return_ ht _ ih => exact Cursor.statement_of_return ht (ih rest cs hr)
  | print ht _ ih => exact Cursor.statement_of_print ht (ih rest cs hr)
  | block ht _ ih => exact Cursor.statement_of_brace ht (ih rest cs hr)
  | expressionStatement h ih =>
    obtain ⟨t, w, rfl, hs⟩ := h.starts rfl
    exact Cursor.statement_of_expression hs (ih rest cs hr)
  | programEnd =>
    rintro rfl
    rw [Cursor.program]
    exact dif_pos rfl
  | @programNext o _ _ _ _ _ _ _ h more ihs ihm =>
    rintro rfl
    obtain ⟨t, w, rfl, -⟩ := h.starts rfl
    rw [List.append_assoc]
    exact Cursor.program_of_declaration (List.cons_ne_nil _ _)
      (ihs _ cs (more.apart_program.subset (Rule.extenders_declaration_subset o))) (ihm [] cs hr rfl)

end LoxWalk
