import LoxWalk.Proofs.Numbers.Listing
import LoxWalk.Proofs.Printing.Forms
import LoxWalk.Proofs.Printing.Scanned
import LoxWalk.Proofs.Simulation.Shifts
import LoxWalk.Proofs.Unparsing.Originals

/-!
# Printed expressions are read back

Two expressions are the same tree if they differ in nothing but the identities of their references
and the lines of their tokens (`Expr.shape`).

A form tells of which expression it is (`Form.expr?`).  A word is a constant, a name or `this`,
which the scanner tells apart.  Parts in parentheses are read first, names as the variables that
they would be, and then put together as the head says: one part is an operand, what is in a group,
or the method behind `super`; two are operands, the target and the value of an assignment, or an
object and the name of its property; and a call has any number of them.  No name can be taken for a
head, because a head stands right behind a parenthesis and a name never does.

So an expression that is read from a source text, has no strings and no infinite numbers, is printed
like another one only if both are the same tree (`Grammar.prefixForm_inj_of_produces`).
-/

namespace LoxWalk

/-! ## Trees up to identities and lines -/

/-- The tree without identities and lines. -/
def Expr.shape (e : Expr) : Expr :=
  (e.shift 0 fun _ => 0).erase

/-- The token without its line. -/
def Token.shape (t : Token) : Token :=
  t.relined fun _ => 0

/-! ## Reading forms -/

/-- The constant, the name or the `this` that a token is. -/
def Token.primary? (t : Token) : Option Expr :=
  match Cursor.literal? t.kind, t.kind with
  | some value, _ => some (.literal value)
  | none, .identifier => some (.var ⟨0⟩ t)
  | none, .keyword .this_ => some (.this ⟨0⟩ t)
  | none, _ => none

namespace Form

/-- What a word stands for. -/
def primary? (text : String) : Option Expr :=
  match text.toList with
  | [] => none
  | c :: cs =>
    match (Piece.next c cs).1.form with
    | .token kind => Token.primary? ⟨kind, text, 0⟩
    | _ => none

/-- What a head makes of one part. -/
def single? (head : String) (e : Expr) : Option Expr :=
  if head = "group" then some (.group e)
  else if head = "super" then
    match e with
    | .var _ method => some (.super ⟨0⟩ Keyword.super_.token method)
    | _ => none
  else if head = "!" then some (.unary Symbol.bang.token e)
  else if head = "-" then some (.unary Symbol.minus.token e)
  else none

/-- What a head makes of two parts. -/
def pair? (head : String) (left right : Expr) : Option Expr :=
  if head = "=" then
    match left with
    | .var _ name => some (.assign ⟨0⟩ name right)
    | .get object name => some (.set object name right)
    | _ => none
  else if head = "." then
    match right with
    | .var _ name => some (.get left name)
    | _ => none
  else if head = "or" then some (.logical left Keyword.or_.token right)
  else if head = "and" then some (.logical left Keyword.and_.token right)
  else (Symbol.all.find? (·.spelling = head)).map (.binary left ·.token right)

/-- What a head makes of its parts. -/
def node? (head : String) (parts : List Expr) : Option Expr :=
  if head = "call" then
    match parts with
    | callee :: arguments => some (.call callee Symbol.rightParen.token arguments)
    | [] => none
  else
    match parts with
    | [e] => single? head e
    | [left, right] => pair? head left right
    | _ => none

mutual

/-- The expression of which this is the form, without identities and lines. -/
def expr? : Form → Option Expr
  | .word text => primary? text
  | .list head parts => (exprs? parts).bind (node? head)

def exprs? : List Form → Option (List Expr)
  | [] => some []
  | f :: fs => f.expr?.bind fun e => (exprs? fs).map (e :: ·)

end

end Form

/-! ## Tokens -/

namespace Token

theorem shape_eq {t : Token} {kind : TokenKind} {lexeme : String} (hk : t.kind = kind)
    (hl : t.lexeme = lexeme) : t.shape = ⟨kind, lexeme, 0⟩ := by
  rw [← hk, ← hl]
  rfl

namespace Scanned

variable {t : Token}

theorem lexeme_symbol {s : Symbol} (h : t.Scanned) (ht : t.kind = .symbol s) :
    t.lexeme = s.spelling := by
  obtain ⟨source, hmem⟩ := h
  have hspelled := Source.spelled_of_mem_tokens hmem
  rwa [Spelled, ht] at hspelled

theorem lexeme_keyword {k : Keyword} (h : t.Scanned) (ht : t.kind = .keyword k) :
    t.lexeme = k.spelling := by
  obtain ⟨source, hmem⟩ := h
  exact (Source.genuine_of_mem_tokens hmem).lexeme_eq ht

theorem kind_of_literal? {x : Double} (h : Cursor.literal? t.kind = some (.number x)) :
    t.kind = .number x := by
  unfold Cursor.literal? at h
  split at h <;> cases h
  assumption

theorem isIdentifier (h : t.Scanned) (ht : t.kind = .identifier) :
    Source.IsIdentifier t.lexeme := by
  obtain ⟨source, hmem⟩ := h
  exact (Source.genuine_of_mem_tokens hmem).isIdentifier ht

theorem not_negative {x : Double} (h : t.Scanned) (ht : t.kind = .number x) :
    x.isNegative = false := by
  obtain ⟨source, hmem⟩ := h
  obtain ⟨q, hrounds⟩ := Source.rounds_of_mem_tokens hmem ht
  exact hrounds.not_negative

theorem shape_symbol {s : Symbol} (h : t.Scanned) (ht : t.kind = .symbol s) :
    t.shape = s.token :=
  shape_eq ht (h.lexeme_symbol ht)

theorem shape_keyword {k : Keyword} (h : t.Scanned) (ht : t.kind = .keyword k) :
    t.shape = k.token :=
  shape_eq ht (h.lexeme_keyword ht)

end Scanned

end Token

/-! ## Words -/

namespace Form

theorem isWord_of_all {x : String} (hne : x.toList ≠ [])
    (h : x.toList.all (fun c => !isDelimiter c) = true) : IsWord x :=
  ⟨hne, fun c hc => by simpa using List.all_eq_true.mp h c hc⟩

theorem isWord_symbol (s : Symbol) (hs : s ≠ .leftParen) (hs' : s ≠ .rightParen) :
    IsWord s.spelling := by
  apply isWord_of_all
  · cases s <;> decide
  · cases s <;> first | contradiction | decide

theorem isWord_keyword (k : Keyword) : IsWord k.spelling := by
  apply isWord_of_all
  · cases k <;> decide
  · cases k <;> decide

theorem isWord_group : IsWord "group" :=
  isWord_of_all (by decide) (by decide)

theorem isWord_call : IsWord "call" :=
  isWord_of_all (by decide) (by decide)

theorem isDelimiter_of_isWordPart {c : Char} (h : Source.isWordPart c = true) :
    isDelimiter c = false := by
  refine Bool.eq_false_iff.mpr fun hc => ?_
  simp only [isDelimiter, Bool.or_eq_true, beq_iff_eq] at hc
  rcases hc with (rfl | rfl) | rfl <;> exact absurd h (by decide)

theorem isDelimiter_of_isDigit {c : Char} (h : c.isDigit = true) : isDelimiter c = false :=
  isDelimiter_of_isWordPart (by simp [Source.isWordPart, Char.isAlphanum, h])

theorem isWord_identifier {x : String} (h : Source.IsIdentifier x) : IsWord x := by
  obtain ⟨c, cs, hx, hstart, hpart⟩ := h.word
  refine ⟨hx ▸ List.cons_ne_nil _ _, ?_⟩
  rw [hx]
  refine List.forall_mem_cons.mpr ⟨?_, fun d hd => isDelimiter_of_isWordPart (hpart d hd)⟩
  exact isDelimiter_of_isWordPart (Piece.isWordPart_of_isWordStart hstart)

theorem isWord_numeral {x : String} {y : Numeral} (h : x.toList = y.text) : IsWord x := by
  have hwhole : ∀ c ∈ y.whole, isDelimiter c = false :=
    fun c hc => isDelimiter_of_isDigit (y.isDigit_whole c hc)
  have hfraction : ∀ c ∈ y.fraction, isDelimiter c = false :=
    fun c hc => isDelimiter_of_isDigit (y.isDigit_fraction c hc)
  rw [Numeral.text] at h
  constructor
  · rw [h]
    split
    · exact y.whole_ne_nil
    · exact List.append_ne_nil_of_left_ne_nil y.whole_ne_nil _
  · rw [h]
    split
    · exact hwhole
    · exact List.forall_mem_append.mpr ⟨hwhole, List.forall_mem_cons.mpr ⟨by decide, hfraction⟩⟩

theorem primary?_identifier {x : String} (h : Source.IsIdentifier x) :
    primary? x = some (.var ⟨0⟩ ⟨.identifier, x, 0⟩) := by
  obtain ⟨c, cs, hx, -⟩ := h.word
  have hnext : Piece.next c (cs ++ []) = _ := Piece.next_of_isIdentifier h hx nofun
  rw [List.append_nil] at hnext
  rw [primary?, hx]
  dsimp only
  rw [hnext]
  rfl

theorem primary?_numeral {x : String} {y : Numeral} (h : x.toList = y.text) :
    primary? x = some (.literal (.number y.double)) := by
  obtain ⟨c, cs, htext⟩ := List.exists_cons_of_ne_nil (isWord_numeral h).ne_nil
  have hpieces := y.pieces_text
  rw [← h, htext, Source.pieces_cons] at hpieces
  rw [primary?, htext]
  dsimp only
  rw [(List.cons.inj hpieces).1]
  rfl

end Form

/-! ## Forms of expressions -/

/-- No string, and no number that is infinite or none at all. -/
def Literal.Legible : Literal → Prop
  | string _ => False
  | number x => x.isFinite = true
  | _ => True

/-- All constants in an expression are legible. -/
def Expr.Legible (e : Expr) : Prop :=
  ∀ value, .expr (.literal value) ∈ e.nodes → value.Legible

/-- Nodes of which the form can be read back. -/
def Node.Readable (node : Node) : Prop :=
  node.Written ∧ ∀ value, node = .expr (.literal value) → value.Legible

namespace Form

/-- The form is clean, and it is read back as the expression. -/
structure IsOf (f : Form) (e : Expr) : Prop where
  clean : f.Clean
  expr? : f.expr? = some e

/-- The forms are clean, and they are read back as the expressions. -/
structure AllOf (fs : List Form) (es : List Expr) : Prop where
  clean : AllClean fs
  exprs? : exprs? fs = some es

variable {head : String} {f : Form} {fs : List Form} {e : Expr} {es : List Expr}

theorem AllOf.nil : AllOf [] [] :=
  ⟨trivial, rfl⟩

theorem AllOf.cons (h : f.IsOf e) (hs : AllOf fs es) : AllOf (f :: fs) (e :: es) := by
  refine ⟨⟨h.clean, hs.clean⟩, ?_⟩
  rw [Form.exprs?, h.expr?, hs.exprs?]
  rfl

theorem AllOf.list (h : AllOf fs es) (hhead : IsWord head) (he : node? head es = some e) :
    (Form.list head fs).IsOf e := by
  refine ⟨⟨hhead, h.clean⟩, ?_⟩
  rw [Form.expr?, h.exprs?]
  exact he

theorem isOf_identifier {t : Token} (h : t.Scanned) (ht : t.kind = .identifier) :
    (Form.word t.lexeme).IsOf (.var ⟨0⟩ t.shape) := by
  have hname := h.isIdentifier ht
  refine ⟨isWord_identifier hname, ?_⟩
  rw [Token.shape_eq ht rfl]
  exact primary?_identifier hname

theorem isOf_literal {value : Literal} (h : Node.Readable (.expr (.literal value))) :
    (Form.word value.prefixForm).IsOf (.literal value) := by
  obtain ⟨hwritten, hlegible⟩ := h
  have hlegible := hlegible value rfl
  cases value with
  | nil => exact ⟨isWord_keyword .nil_, rfl⟩
  | bool b =>
    cases b with
    | true => exact ⟨isWord_keyword .true_, rfl⟩
    | false => exact ⟨isWord_keyword .false_, rfl⟩
  | number x =>
    obtain ⟨y, htext, hdouble⟩ := Number.exists_numeral_display hlegible
    -- a sign would not be part of the numeral, but source texts have none
    have hsign : x.isNegative = false := by
      obtain heq | ⟨t, ht, hliteral⟩ := hwritten
      · cases heq
      · exact ht.not_negative (Token.Scanned.kind_of_literal? hliteral)
    rw [hsign] at htext
    rw [Double.abs_of_not_negative hsign] at hdouble
    refine ⟨isWord_numeral htext, ?_⟩
    rw [← hdouble]
    exact primary?_numeral (hdouble ▸ htext)
  | string s => exact hlegible.elim

theorem pair?_symbol {s : Symbol} (hs : s ≠ .equal) (hs' : s ≠ .dot) (left right : Expr) :
    pair? s.spelling left right = some (.binary left s.token right) := by
  cases s <;> first | contradiction | rfl

theorem node?_pair {x : String} (hx : x ≠ "call") (left right : Expr) :
    node? x [left, right] = pair? x left right :=
  if_neg hx

theorem isOf_get {object : Expr} {name : Token} (ho : f.IsOf object) (h : name.Scanned)
    (hk : name.kind = .identifier) :
    (Form.list "." [f, .word name.lexeme]).IsOf (.get object name.shape) :=
  (AllOf.cons ho (.cons (isOf_identifier h hk) .nil)).list
    (isWord_symbol .dot (by decide) (by decide)) rfl

end Form

open Form

theorem Precedence.symbol_of_mem_operators {p : Precedence} {k : TokenKind} (hor : p ≠ .or)
    (hand : p ≠ .and) (h : k ∈ p.operators) :
    ∃ s : Symbol, k = .symbol s ∧ s ≠ .equal ∧ s ≠ .dot ∧ s ≠ .leftParen ∧ s ≠ .rightParen := by
  cases p <;> simp_all [operators] <;> grind

mutual

/-- The form of an expression is read back as the expression without identities and lines. -/
theorem Expr.form_isOf : (e : Expr) → (∀ node ∈ e.nodes, node.Readable) → e.form.IsOf e.shape
  | .literal value, h => isOf_literal (h _ List.mem_cons_self)
  | .group inner, h => by
    have hinner := inner.form_isOf (List.forall_mem_cons.mp h).2
    exact (AllOf.cons hinner .nil).list isWord_group rfl
  | .unary t operand, h => by
    obtain ⟨⟨⟨ht, hkind⟩, -⟩, h⟩ := List.forall_mem_cons.mp h
    have hparts := AllOf.cons (operand.form_isOf h) .nil
    show (Form.list t.lexeme [operand.form]).IsOf (.unary t.shape operand.shape)
    rcases hkind with hk | hk
    · rw [ht.shape_symbol hk, ht.lexeme_symbol hk]
      exact hparts.list (isWord_symbol _ (by decide) (by decide)) rfl
    · rw [ht.shape_symbol hk, ht.lexeme_symbol hk]
      exact hparts.list (isWord_symbol _ (by decide) (by decide)) rfl
  | .binary left t right, h => by
    obtain ⟨⟨⟨ht, p, hor, hand, hp⟩, -⟩, h⟩ := List.forall_mem_cons.mp h
    obtain ⟨hl, hr⟩ := List.forall_mem_append.mp h
    obtain ⟨s, hk, hs, hs', hopen, hclose⟩ := Precedence.symbol_of_mem_operators hor hand hp
    have hparts := AllOf.cons (left.form_isOf hl) (.cons (right.form_isOf hr) .nil)
    show (Form.list t.lexeme [left.form, right.form]).IsOf (.binary left.shape t.shape right.shape)
    rw [ht.shape_symbol hk, ht.lexeme_symbol hk]
    refine hparts.list (isWord_symbol s hopen hclose) ?_
    rw [node?_pair (by cases s <;> decide)]
    exact pair?_symbol hs hs' _ _
  | .logical left t right, h => by
    obtain ⟨⟨⟨ht, hkind⟩, -⟩, h⟩ := List.forall_mem_cons.mp h
    obtain ⟨hl, hr⟩ := List.forall_mem_append.mp h
    have hparts := AllOf.cons (left.form_isOf hl) (.cons (right.form_isOf hr) .nil)
    show (Form.list t.lexeme [left.form, right.form]).IsOf (.logical left.shape t.shape right.shape)
    rcases hkind with hk | hk
    · rw [ht.shape_keyword hk, ht.lexeme_keyword hk]
      exact hparts.list (isWord_keyword .or_) rfl
    · rw [ht.shape_keyword hk, ht.lexeme_keyword hk]
      exact hparts.list (isWord_keyword .and_) rfl
  | .var _ name, h => by
    obtain ⟨⟨⟨hname, hk⟩, -⟩, -⟩ := List.forall_mem_cons.mp h
    exact isOf_identifier hname hk
  | .assign _ name value, h => by
    obtain ⟨⟨⟨hname, hk⟩, -⟩, h⟩ := List.forall_mem_cons.mp h
    have hparts := AllOf.cons (isOf_identifier hname hk) (.cons (value.form_isOf h) .nil)
    exact hparts.list (isWord_symbol .equal (by decide) (by decide)) rfl
  | .call callee paren arguments, h => by
    obtain ⟨⟨⟨hparen, hk⟩, -⟩, h⟩ := List.forall_mem_cons.mp h
    obtain ⟨hc, ha⟩ := List.forall_mem_append.mp h
    have hparts := AllOf.cons (callee.form_isOf hc) (Expr.forms_allOf arguments ha)
    -- the parenthesis is not printed, but it always looks the same
    refine hparts.list isWord_call ?_
    show some (Expr.call _ Symbol.rightParen.token _) = some (.call _ paren.shape _)
    rw [hparen.shape_symbol hk]
    rfl
  | .get object name, h => by
    obtain ⟨⟨⟨hname, hk⟩, -⟩, h⟩ := List.forall_mem_cons.mp h
    exact isOf_get (object.form_isOf h) hname hk
  | .set object name value, h => by
    obtain ⟨⟨⟨hname, hk⟩, -⟩, h⟩ := List.forall_mem_cons.mp h
    obtain ⟨ho, hv⟩ := List.forall_mem_append.mp h
    have hparts := AllOf.cons (isOf_get (object.form_isOf ho) hname hk)
      (.cons (value.form_isOf hv) .nil)
    exact hparts.list (isWord_symbol .equal (by decide) (by decide)) rfl
  | .this _ keyword, h => by
    obtain ⟨⟨⟨hkeyword, hk⟩, -⟩, -⟩ := List.forall_mem_cons.mp h
    refine ⟨isWord_keyword .this_, ?_⟩
    show some (Expr.this ⟨0⟩ Keyword.this_.token) = some (.this ⟨0⟩ keyword.shape)
    rw [hkeyword.shape_keyword hk]
  | .super _ keyword method, h => by
    obtain ⟨⟨⟨⟨hkeyword, hk⟩, hmethod, hm⟩, -⟩, -⟩ := List.forall_mem_cons.mp h
    refine (AllOf.cons (isOf_identifier hmethod hm) .nil).list (isWord_keyword .super_) ?_
    show some (Expr.super ⟨0⟩ Keyword.super_.token _) = some (.super ⟨0⟩ keyword.shape _)
    rw [hkeyword.shape_keyword hk]
    rfl

theorem Expr.forms_allOf : (es : List Expr) → (∀ node ∈ Expr.allNodes es, node.Readable) →
    AllOf (Expr.forms es) (Expr.eraseAll (Expr.shiftAll 0 (fun _ => 0) es))
  | [], _ => .nil
  | e :: es, h => by
    obtain ⟨he, hes⟩ := List.forall_mem_append.mp h
    exact .cons (e.form_isOf he) (Expr.forms_allOf es hes)

end

namespace Grammar

theorem Produces.form_isOf {e : Expr} (h : Produces e) (hlegible : e.Legible) :
    e.form.IsOf e.shape := by
  refine e.form_isOf fun node hnode => ⟨h.allWritten node hnode, ?_⟩
  rintro value rfl
  exact hlegible value hnode

/-- Printing is unambiguous.  Two expressions from source texts, without strings and without numbers
that are infinite, are printed alike only if they differ in nothing but identities and lines. -/
theorem prefixForm_inj_of_produces {e e' : Expr} (h : Produces e) (h' : Produces e')
    (hlegible : e.Legible) (hlegible' : e'.Legible) (heq : e.prefixForm = e'.prefixForm) :
    e.shape = e'.shape := by
  have hform := h.form_isOf hlegible
  have hform' := h'.form_isOf hlegible'
  have htext : e.form.text = e'.form.text := by
    rw [← e.toList_prefixForm, ← e'.toList_prefixForm, heq]
  have hread := hform.expr?
  rw [Form.text_inj hform.clean hform'.clean htext, hform'.expr?] at hread
  exact (Option.some.inj hread).symm

/-- The tree of `a.b=-c`, of which all but the first name stands on the given line. -/
def propertyOfNegation (n line : Nat) : Expr :=
  .set (.var ⟨n⟩ ⟨.identifier, "a", 1⟩) ⟨.identifier, "b", line⟩
    (.unary ⟨.symbol .minus, "-", line⟩ (.var ⟨n + 1⟩ ⟨.identifier, "c", line⟩))

theorem legible_propertyOfNegation (n line : Nat) : (propertyOfNegation n line).Legible := by
  intro value h
  simp [propertyOfNegation, Expr.nodes] at h

/-- The same text on one line and on two. -/
theorem prefixForm_inj_of_produces_negation :
    Produces (propertyOfNegation 0 1) ∧ Produces (propertyOfNegation 5 2) ∧
      (propertyOfNegation 0 1).prefixForm = "(= (. a b) (- c))" ∧
      (propertyOfNegation 5 2).prefixForm = "(= (. a b) (- c))" ∧
      (propertyOfNegation 0 1).shape = (propertyOfNegation 5 2).shape := by
  have hone : (expression 0 (Source.tokens "a.b=-c")).result = .ok (propertyOfNegation 0 1) := by
    cbv
  have htwo : (expression 5 (Source.tokens "a.\nb=-c")).result = .ok (propertyOfNegation 5 2) := by
    cbv
  have h : Produces (propertyOfNegation 0 1) := .expression hone List.mem_cons_self
  have h' : Produces (propertyOfNegation 5 2) := .expression htwo List.mem_cons_self
  have hprint (n line : Nat) : (propertyOfNegation n line).prefixForm = "(= (. a b) (- c))" := by
    simp [propertyOfNegation, Expr.prefixForm]
  refine ⟨h, h', hprint 0 1, hprint 5 2, ?_⟩
  exact prefixForm_inj_of_produces h h' (legible_propertyOfNegation 0 1)
    (legible_propertyOfNegation 5 2) ((hprint 0 1).trans (hprint 5 2).symm)

end Grammar

end LoxWalk
