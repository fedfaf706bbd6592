import Mathlib.Data.List.Forall2
import LoxWalk.Proofs.Scanning
import LoxWalk.Proofs.Unparsing.Rendering

/-!
# A tree has the tokens it was read from

Scanned tokens are spelled as their kinds say (`Source.spelled_of_mem_tokens`).  When such tokens
are read as a tree and there is no `for` among them, the tokens of the tree are those tokens again,
one by one (`Reads.renders`): no token is lost, and none is added.
-/

namespace LoxWalk

/-- The same kind with the same value, and the same lexeme unless it is a numeral. -/
def Token.SameText (t u : Token) : Prop :=
  t.kind = u.kind ∧ (t.lexeme = u.lexeme ∨ ∃ x, t.kind = .number x)

/-- The same texts one by one. -/
abbrev Token.SameTexts : List Token → List Token → Prop :=
  List.Forall₂ Token.SameText

/-- The lexeme of a symbol, a reserved word or a string is what its kind says. -/
def Token.Spelled (t : Token) : Prop :=
  match t.kind with
  | .symbol s => t.lexeme = s.spelling
  | .keyword k => t.lexeme = k.spelling
  | .string s => t.lexeme = "\"" ++ s ++ "\""
  | _ => True

/-! ## Scanned tokens -/

namespace Piece

open Source

/-- What a piece is and how it is spelled fit together. -/
def Spelled (p : Piece) : Prop :=
  ∀ kind line, p.form = .token kind → Token.Spelled ⟨kind, String.ofList p.text, line⟩

theorem spelled_symbol {s : Symbol} {text : List Char} (h : String.ofList text = s.spelling) :
    (symbol s text).Spelled := by
  rintro kind line ⟨⟩
  exact h

theorem spelled_of_no_token {p : Piece} (h : ∀ kind, p.form ≠ .token kind) : p.Spelled :=
  fun kind _ hkind => absurd hkind (h kind)

theorem spelled_string (cs : List Char) : (string cs).1.Spelled := by
  unfold string
  dsimp only
  split
  · exact spelled_of_no_token (by simp)
  · rename_i quote rest hrest
    have hquote : quote = '"' := by
      have hhead := List.head?_dropWhile_not (· != '"') cs
      rw [hrest] at hhead
      simpa using hhead
    rintro kind line ⟨⟩
    show String.ofList ('"' :: cs.takeWhile (· != '"') ++ [quote]) = _
    rw [hquote, List.cons_append, String.ofList_cons, String.ofList_append]
    rfl

theorem spelled_word {c : Char} (hc : isWordStart c = true) (cs : List Char) :
    (word (c :: cs)).1.Spelled := by
  intro kind line hkind
  have hgenuine := word_genuine hc cs kind line hkind
  cases kind with
  | keyword k => exact hgenuine
  | symbol s =>
    exfalso
    have hword : TokenKind.symbol s = wordKind _ := (PieceForm.token.inj hkind).symm
    unfold wordKind at hword
    split at hword <;> cases hword
  | string s =>
    exfalso
    have hword : TokenKind.string s = wordKind _ := (PieceForm.token.inj hkind).symm
    unfold wordKind at hword
    split at hword <;> cases hword
  | _ => trivial

/-- The first piece of a text is spelled as its kind says. -/
theorem spelled_next (c : Char) (cs : List Char) : (next c cs).1.Spelled := by
  unfold next
  split
  · rename_i s _ hs
    exact spelled_symbol (Symbol.spelling_of_lone? hs)
  · rename_i plain extended _ hs
    obtain ⟨hplain, hextended⟩ := Symbol.spelling_of_extensible? hs
    split
    · exact spelled_symbol hextended
    · exact spelled_symbol hplain
  · split
    · rename_i hslash
      split
      · exact spelled_of_no_token (by simp [comment])
      · rw [hslash]
        exact spelled_symbol rfl
    · split
      · exact spelled_of_no_token (by simp)
      · split
        · exact spelled_string cs
        · split
          · unfold number
            split
            · split <;> (rintro kind line ⟨⟩; trivial)
            · rintro kind line ⟨⟩
              trivial
          · split
            · rename_i hc
              exact spelled_word hc cs
            · exact spelled_of_no_token (by simp)

end Piece

/-- All tokens of a source text are spelled as their kinds say. -/
theorem Source.spelled_of_mem_tokens {source : String} {t : Token} (ht : t ∈ tokens source) :
    t.Spelled := by
  rcases mem_tokens_locate ht with hk | ⟨p, hp, hform, hlexeme⟩
  · rw [Token.Spelled, hk]
    trivial
  · have hspelled := forall_mem_pieces Piece.spelled_next _ p hp t.kind t.line hform
    rwa [← hlexeme] at hspelled

/-! ## Tokens of the same text -/

/-- A token that can be written down again: spelled as its kind says, and not `for`. -/
def Token.Plain (t : Token) : Prop :=
  t.Spelled ∧ t.kind ≠ .keyword .for_

namespace Token.SameText

theorem refl (t : Token) : t.SameText t :=
  ⟨rfl, .inl rfl⟩

theorem symbol {t : Token} {s : Symbol} (ht : t.kind = .symbol s) (h : t.Plain) :
    s.token.SameText t := by
  refine ⟨ht.symm, .inl ?_⟩
  have hspelled := h.1
  rw [Spelled, ht] at hspelled
  exact hspelled.symm

theorem keyword {t : Token} {k : Keyword} (ht : t.kind = .keyword k) (h : t.Plain) :
    k.token.SameText t := by
  refine ⟨ht.symm, .inl ?_⟩
  have hspelled := h.1
  rw [Spelled, ht] at hspelled
  exact hspelled.symm

/-- A constant is written down as the token that it was read from. -/
theorem literal {t : Token} {l : Literal} (ht : Cursor.literal? t.kind = some l) (h : t.Plain) :
    l.token.SameText t := by
  unfold Cursor.literal? at ht
  split at ht <;> cases ht
  · exact keyword ‹_› h
  · exact keyword ‹_› h
  · exact keyword ‹_› h
  · exact ⟨(‹t.kind = _›).symm, .inr ⟨_, rfl⟩⟩
  · rename_i s hs
    refine ⟨hs.symm, .inl ?_⟩
    have hspelled := h.1
    rw [Spelled, hs] at hspelled
    exact hspelled.symm

end Token.SameText

/-! ## All rules -/

/-- The tokens `w`, read by the rule, are those of what comes of it. -/
def Rule.Renders (w : List Token) : Rule → Fragment → Prop
  | binaryRest _ left, .expr e => ∃ u, e.tokens = left.tokens ++ u ∧ Token.SameTexts u w
  | callRest callee, .expr e =>
    ∃ u, e.tokens = callee.tokens ++ u ∧ Token.SameTexts u w
  | terminated s, .expr e => Token.SameTexts (e.tokens ++ [s.token]) w
  | parenthesized, .expr e =>
    Token.SameTexts
      (Symbol.leftParen.token :: (e.tokens ++ [Symbol.rightParen.token])) w
  | _, .expr e => Token.SameTexts e.tokens w
  | classHeader, .expr? e => Token.SameTexts (Expr.headerTokens e) w
  | optional s, .expr? e => Token.SameTexts (Expr.tokens? e ++ [s.token]) w
  | _, .exprs es => es ≠ [] ∧ Token.SameTexts (Expr.listTokens es) w
  | parameters _, .names ts => ts ≠ [] ∧ Token.SameTexts (Token.listed ts) w
  | _, .names ts =>
    Token.SameTexts (Token.listed ts ++ [Symbol.rightParen.token]) w
  | variableDeclaration, .stmt s =>
    ∃ u, s.tokens = Keyword.var_.token :: u ∧ Token.SameTexts u w
  | classDeclaration, .stmt s =>
    ∃ u, s.tokens = Keyword.class_.token :: u ∧ Token.SameTexts u w
  | _, .stmt s => Token.SameTexts s.tokens w
  | _, .decls fs =>
    Token.SameTexts (Stmt.methodTokens fs ++ [Symbol.rightBrace.token]) w
  | _, .decl f => Token.SameTexts (Stmt.functionTokens f) w
  | block, .stmts ss =>
    Token.SameTexts (Stmt.listTokens ss ++ [Symbol.rightBrace.token]) w
  | _, .stmts ss => Token.SameTexts (Stmt.listTokens ss) w
  | _, _ => True

theorem Precedence.renders_operand (p : Precedence) (w : List Token) (e : Expr) :
    p.operand.Renders w (.expr e) ↔ Token.SameTexts e.tokens w := by
  cases p <;> exact Iff.rfl

theorem forall_mem_append_cons {α : Type} {P : α → Prop} {l l' : List α} {a : α} :
    (∀ b ∈ l ++ a :: l', P b) ↔ (∀ b ∈ l, P b) ∧ P a ∧ ∀ b ∈ l', P b := by
  rw [List.forall_mem_append, List.forall_mem_cons]

/-- Nothing is lost and nothing is added when tokens without `for` are read. -/
theorem Reads.renders {r : Rule} {n n' : Nat} {w : List Token} {f : Fragment}
    (h : Reads r n w f n') (hw : ∀ t ∈ w, t.Plain) : r.Renders w f := by
  induction h with
  | plain _ ih => exact ih hw
  | assign _ ht _ ihl ihv =>
    obtain ⟨hl, ht', hv⟩ := forall_mem_append_cons.mp hw
    exact List.rel_append (ihl hl) (.cons (.symbol ht ht') (ihv hv))
  | set _ ht _ ihl ihv =>
    obtain ⟨hl, ht', hv⟩ := forall_mem_append_cons.mp hw
    have hset := List.rel_append (ihl hl) (.cons (.symbol ht ht') (ihv hv))
    simpa [Rule.Renders, Expr.tokens] using hset
  | @binary p _ _ _ _ _ left e _ _ ihl ihm =>
    obtain ⟨hl, hm⟩ := List.forall_mem_append.mp hw
    obtain ⟨u, hu, hmore⟩ := ihm hm
    have hleft := (p.renders_operand _ left).mp (ihl hl)
    show Token.SameTexts e.tokens _
    rw [hu]
    exact List.rel_append hleft hmore
  | binaryStop => exact ⟨[], (List.append_nil _).symm, .nil⟩
  | @binaryMore p _ _ _ t _ _ left right e _ _ _ ihr ihm =>
    obtain ⟨-, hrest⟩ := List.forall_mem_cons.mp hw
    obtain ⟨hr, hm⟩ := List.forall_mem_append.mp hrest
    obtain ⟨u, hu, hmore⟩ := ihm hm
    refine ⟨t :: (right.tokens ++ u), ?_, ?_⟩
    · rw [hu, p.tokens_node, List.append_assoc, List.cons_append]
    · exact .cons (.refl t) (List.rel_append ((p.renders_operand _ right).mp (ihr hr)) hmore)
  | prefixed _ _ ih => exact .cons (.refl _) (ih (List.forall_mem_cons.mp hw).2)
  | @call _ _ _ _ _ _ e' _ _ ihp ihm =>
    obtain ⟨hp, hm⟩ := List.forall_mem_append.mp hw
    obtain ⟨u, hu, hmore⟩ := ihm hm
    show Token.SameTexts e'.tokens _
    rw [hu]
    exact List.rel_append (ihp hp) hmore
  | callStop => exact ⟨[], (List.append_nil _).symm, .nil⟩
  | @callEmpty _ _ _ t' _ e _ ht _ _ ih =>
    obtain ⟨hopen, hrest⟩ := List.forall_mem_cons.mp hw
    obtain ⟨u, hu, hmore⟩ := ih (List.forall_mem_cons.mp hrest).2
    refine ⟨Symbol.leftParen.token :: t' :: u, ?_, .cons (.symbol ht hopen) (.cons (.refl t') hmore)⟩
    rw [hu]
    simp [Expr.tokens, Expr.listTokens]
  | @callWith _ _ _ _ t' _ _ e es _ ht _ _ _ iha ihm =>
    obtain ⟨hopen, hrest⟩ := List.forall_mem_cons.mp hw
    obtain ⟨ha, -, hm⟩ := forall_mem_append_cons.mp hrest
    obtain ⟨u, hu, hmore⟩ := ihm hm
    refine ⟨Symbol.leftParen.token :: (Expr.listTokens es ++ t' :: u), ?_, ?_⟩
    · rw [hu]
      simp [Expr.tokens]
    · exact .cons (.symbol ht hopen) (List.rel_append (iha ha).2 (.cons (.refl t') hmore))
  | @property _ _ _ name _ e _ ht _ _ ih =>
    obtain ⟨hdot, hrest⟩ := List.forall_mem_cons.mp hw
    obtain ⟨u, hu, hmore⟩ := ih (List.forall_mem_cons.mp hrest).2
    refine ⟨Symbol.dot.token :: name :: u, ?_, .cons (.symbol ht hdot) (.cons (.refl name) hmore)⟩
    rw [hu]
    simp [Expr.tokens]
  | lastArgument _ _ ih =>
    have he : Token.SameTexts _ _ := ih hw
    refine ⟨by simp, ?_⟩
    simpa [Expr.listTokens, Expr.moreTokens] using he
  | nextArgument _ _ ht _ ihe ihm =>
    obtain ⟨he, hcomma, hm⟩ := forall_mem_append_cons.mp hw
    obtain ⟨hes, hmore⟩ := ihm hm
    refine ⟨by simp, ?_⟩
    rw [Expr.listTokens_cons hes]
    exact List.rel_append (ihe he) (.cons (.symbol ht hcomma) hmore)
  | literal h => exact .cons (.literal h (List.forall_mem_cons.mp hw).1) .nil
  | this => exact .cons (.refl _) .nil
  | super _ hd _ =>
    have hdot := (List.forall_mem_cons.mp (List.forall_mem_cons.mp hw).2).1
    exact .cons (.refl _) (.cons (.symbol hd hdot) (.cons (.refl _) .nil))
  | name => exact .cons (.refl _) .nil
  | group ht _ ht' ih =>
    obtain ⟨hopen, hrest⟩ := List.forall_mem_cons.mp hw
    obtain ⟨hinner, hclose, -⟩ := forall_mem_append_cons.mp hrest
    exact .cons (.symbol ht hopen) (List.rel_append (ih hinner) (.cons (.symbol ht' hclose) .nil))
  | terminated _ _ ht ih =>
    obtain ⟨he, hend, -⟩ := forall_mem_append_cons.mp hw
    exact List.rel_append (ih he) (.cons (.symbol ht hend) .nil)
  | omitted ht => exact .cons (.symbol ht (List.forall_mem_cons.mp hw).1) .nil
  | given _ ih => exact ih hw
  | parenthesized ht _ ih =>
    obtain ⟨hopen, hrest⟩ := List.forall_mem_cons.mp hw
    exact .cons (.symbol ht hopen) (ih hrest)
  | initialized _ ht _ ih =>
    obtain ⟨-, hrest⟩ := List.forall_mem_cons.mp hw
    obtain ⟨hequal, he⟩ := List.forall_mem_cons.mp hrest
    exact ⟨_, rfl, .cons (.refl _) (.cons (.symbol ht hequal) (ih he))⟩
  | uninitialized _ ht =>
    have hend := (List.forall_mem_cons.mp (List.forall_mem_cons.mp hw).2).1
    exact ⟨_, rfl, .cons (.refl _) (.cons (.symbol ht hend) .nil)⟩
  | forNothing => trivial
  | forVariable => trivial
  | forExpression => trivial
  | lastParameter => exact ⟨by simp, .cons (.refl _) .nil⟩
  | nextParameter _ _ ht _ ih =>
    obtain ⟨-, hrest⟩ := List.forall_mem_cons.mp hw
    obtain ⟨hcomma, hm⟩ := List.forall_mem_cons.mp hrest
    obtain ⟨hnames, hmore⟩ := ih hm
    refine ⟨by simp, ?_⟩
    rw [Token.listed_cons hnames]
    exact .cons (.refl _) (.cons (.symbol ht hcomma) hmore)
  | noParameters ht => exact .cons (.symbol ht (List.forall_mem_cons.mp hw).1) .nil
  | someParameters _ ht ih =>
    obtain ⟨hp, hclose, -⟩ := forall_mem_append_cons.mp hw
    exact List.rel_append (ih hp).2 (.cons (.symbol ht hclose) .nil)
  | base ht => exact .cons (.symbol ht (List.forall_mem_cons.mp hw).1) .nil
  | derived ht _ ht' =>
    obtain ⟨hless, hrest⟩ := List.forall_mem_cons.mp hw
    have hopen := (List.forall_mem_cons.mp (List.forall_mem_cons.mp hrest).2).1
    exact .cons (.symbol ht hless) (.cons (.refl _) (.cons (.symbol ht' hopen) .nil))
  | @declaredClass _ _ _ _ s ht _ ih =>
    obtain ⟨hword, hrest⟩ := List.forall_mem_cons.mp hw
    obtain ⟨u, hu, hs⟩ := ih hrest
    show Token.SameTexts s.tokens _
    rw [hu]
    exact .cons (.keyword ht hword) hs
  | declaredFunction ht _ ih =>
    obtain ⟨hword, hrest⟩ := List.forall_mem_cons.mp hw
    exact .cons (.keyword ht hword) (ih hrest)
  | @declaredVariable _ _ _ _ s ht _ ih =>
    obtain ⟨hword, hrest⟩ := List.forall_mem_cons.mp hw
    obtain ⟨u, hu, hs⟩ := ih hrest
    show Token.SameTexts s.tokens _
    rw [hu]
    exact .cons (.keyword ht hword) hs
  | statement _ ih => exact ih hw
  | classDeclaration _ _ _ ihh ihm =>
    obtain ⟨-, hrest⟩ := List.forall_mem_cons.mp hw
    obtain ⟨hh, hm⟩ := List.forall_mem_append.mp hrest
    exact ⟨_, rfl, .cons (.refl _) (List.rel_append (ihh hh) (ihm hm))⟩
  | noMethods ht => exact .cons (.symbol ht (List.forall_mem_cons.mp hw).1) .nil
  | nextMethod _ _ ihf ihm =>
    obtain ⟨hf, hm⟩ := List.forall_mem_append.mp hw
    simpa [Rule.Renders, Stmt.methodTokens] using List.rel_append (ihf hf) (ihm hm)
  | function _ ht _ ht' _ ihp ihb =>
    obtain ⟨-, hrest⟩ := List.forall_mem_cons.mp hw
    obtain ⟨hopen, hrest⟩ := List.forall_mem_cons.mp hrest
    obtain ⟨hp, hbrace, hb⟩ := forall_mem_append_cons.mp hrest
    have hbody := List.rel_append (ihp hp) (.cons (.symbol ht' hbrace) (ihb hb))
    have hfunction := List.Forall₂.cons (Token.SameText.symbol ht hopen) hbody
    refine .cons (.refl _) ?_
    simpa using hfunction
  | blockEnd ht => exact .cons (.symbol ht (List.forall_mem_cons.mp hw).1) .nil
  | blockNext _ _ ihs ihm =>
    obtain ⟨hs, hm⟩ := List.forall_mem_append.mp hw
    simpa [Rule.Renders, Stmt.listTokens] using List.rel_append (ihs hs) (ihm hm)
  | for_ ht => exact absurd ht (List.forall_mem_cons.mp hw).1.2
  | ifThen ht _ _ ihc iht =>
    obtain ⟨hword, hrest⟩ := List.forall_mem_cons.mp hw
    obtain ⟨hc, hs⟩ := List.forall_mem_append.mp hrest
    have hif := List.Forall₂.cons (Token.SameText.keyword ht hword)
      (List.rel_append (ihc hc) (iht hs))
    simpa [Rule.Renders, Stmt.tokens] using hif
  | ifElse ht _ _ ht' _ ihc iht ihe =>
    obtain ⟨hword, hrest⟩ := List.forall_mem_cons.mp hw
    obtain ⟨hc, hrest⟩ := List.forall_mem_append.mp hrest
    obtain ⟨hs, helse, he⟩ := forall_mem_append_cons.mp hrest
    have hif := List.Forall₂.cons (Token.SameText.keyword ht hword)
      (List.rel_append (ihc hc) (List.rel_append (iht hs) (.cons (.keyword ht' helse) (ihe he))))
    simpa [Rule.Renders, Stmt.tokens] using hif
  | while_ ht _ _ ihc ihb =>
    obtain ⟨hword, hrest⟩ := List.forall_mem_cons.mp hw
    obtain ⟨hc, hb⟩ := List.forall_mem_append.mp hrest
    have hwhile := List.Forall₂.cons (Token.SameText.keyword ht hword)
      (List.rel_append (ihc hc) (ihb hb))
    simpa [Rule.Renders, Stmt.tokens] using hwhile
  | return_ _ _ ih => exact .cons (.refl _) (ih (List.forall_mem_cons.mp hw).2)
  | print ht _ ih =>
    obtain ⟨hword, hrest⟩ := List.forall_mem_cons.mp hw
    exact .cons (.keyword ht hword) (ih hrest)
  | block ht _ ih =>
    obtain ⟨hopen, hrest⟩ := List.forall_mem_cons.mp hw
    exact .cons (.symbol ht hopen) (ih hrest)
  | expressionStatement _ ih => exact ih hw
  | programEnd => exact .nil
  | programNext _ _ ihs ihm =>
    obtain ⟨hs, hm⟩ := List.forall_mem_append.mp hw
    exact List.rel_append (ihs hs) (ihm hm)

end LoxWalk
