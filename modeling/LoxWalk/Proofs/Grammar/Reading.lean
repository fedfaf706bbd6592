import LoxWalk.Grammar

/-!
# What it means to read a fragment of a program

`Reads r n w f n'` says that the tokens `w`, read by the rule `r` when `n` is the next free
identity, make up the fragment `f` and leave `n'` as the next free identity.  The relation says
nothing about how a reader finds out where a fragment ends; that the reader of this library and the
relation agree is the subject of `Soundness` and `Completeness`.

Every sequence of tokens is read in at most one way.  For that the rules of statements carry a flag:
a statement is *open* when it ends in an `if` without `else`, and an open statement never stands in
front of an `else`.
-/

namespace LoxWalk

/-- The rules by which fragments are read.  `binaryRest` and `callRest` go on behind an expression
that is read already, `arguments` and `parameters` behind a number of entries. -/
inductive Rule where
  | expression
  | binary (p : Precedence)
  | binaryRest (p : Precedence) (left : Expr)
  | unary
  | callRest (callee : Expr)
  | arguments (count : Nat)
  | primary
  | terminated (s : Symbol)
  | optional (s : Symbol)
  | parenthesized
  | variableDeclaration
  | forInitializer
  | parameters (count : Nat)
  | parameterList
  | classHeader
  | declaration (isOpen : Bool)
  | classDeclaration
  | methods
  | function
  | block
  | statement (isOpen : Bool)
  | program

/-- What a rule can make of tokens. -/
inductive Fragment where
  | expr (e : Expr)
  | expr? (e : Option Expr)
  | exprs (es : List Expr)
  | names (ts : List Token)
  | stmt (s : Stmt)
  | stmt? (s : Option Stmt)
  | stmts (ss : List Stmt)
  | decl (f : FunDecl)
  | decls (fs : List FunDecl)

/-- The rule for the operands of a level. -/
def Precedence.operand (p : Precedence) : Rule :=
  match p.tighter? with
  | some q => .binary q
  | none => .unary

theorem Precedence.operand_of_tighter? (p : Precedence) {q : Precedence}
    (h : p.tighter? = some q) : p.operand = .binary q := by
  rw [operand, h]

theorem Precedence.operand_of_tightest (p : Precedence) (h : p.tighter? = none) :
    p.operand = .unary := by
  rw [operand, h]

/-- The symbols that stand behind a whole expression in a statement. -/
def Symbol.endsExpression : Symbol → Bool
  | semicolon => true
  | rightParen => true
  | _ => false

/-- The tokens `w` are the fragment `f`; its nodes have identities from `n` up to `n'`. -/
inductive Reads : Rule → Nat → List Token → Fragment → Nat → Prop where
  -- expressions
  | plain {n n' w e} (h : Reads (.binary .or) n w (.expr e) n') :
      Reads .expression n w (.expr e) n'
  | assign {n n₁ n₂ w w' id name t v} (left : Reads (.binary .or) n w (.expr (.var id name)) n₁)
      (ht : t.kind = .symbol .equal) (right : Reads .expression n₁ w' (.expr v) n₂) :
      Reads .expression n (w ++ t :: w') (.expr (.assign ⟨n₂⟩ name v)) (n₂ + 1)
  | set {n n₁ n₂ w w' object name t v}
      (left : Reads (.binary .or) n w (.expr (.get object name)) n₁)
      (ht : t.kind = .symbol .equal) (right : Reads .expression n₁ w' (.expr v) n₂) :
      Reads .expression n (w ++ t :: w') (.expr (.set object name v)) n₂
  | binary {p n n₁ n₂ w w' left e} (first : Reads p.operand n w (.expr left) n₁)
      (more : Reads (.binaryRest p left) n₁ w' (.expr e) n₂) :
      Reads (.binary p) n (w ++ w') (.expr e) n₂
  | binaryStop {p n left} : Reads (.binaryRest p left) n [] (.expr left) n
  | binaryMore {p n n₁ n₂ t w w' left right e} (ht : t.kind ∈ p.operators)
      (operand : Reads p.operand n w (.expr right) n₁)
      (more : Reads (.binaryRest p (p.node left t right)) n₁ w' (.expr e) n₂) :
      Reads (.binaryRest p left) n (t :: (w ++ w')) (.expr e) n₂
  | prefixed {n n' t w e} (ht : t.kind = .symbol .bang ∨ t.kind = .symbol .minus)
      (operand : Reads .unary n w (.expr e) n') :
      Reads .unary n (t :: w) (.expr (.unary t e)) n'
  | call {n n₁ n₂ w w' e e'} (first : Reads .primary n w (.expr e) n₁)
      (more : Reads (.callRest e) n₁ w' (.expr e') n₂) :
      Reads .unary n (w ++ w') (.expr e') n₂
  | callStop {n e} : Reads (.callRest e) n [] (.expr e) n
  | callEmpty {n n' t t' w e e'} (ht : t.kind = .symbol .leftParen)
      (ht' : t'.kind = .symbol .rightParen)
      (more : Reads (.callRest (.call e t' [])) n w (.expr e') n') :
      Reads (.callRest e) n (t :: t' :: w) (.expr e') n'
  | callWith {n n₁ n₂ t t' w w' e es e'} (ht : t.kind = .symbol .leftParen)
      (args : Reads (.arguments 0) n w (.exprs es) n₁) (ht' : t'.kind = .symbol .rightParen)
      (more : Reads (.callRest (.call e t' es)) n₁ w' (.expr e') n₂) :
      Reads (.callRest e) n (t :: (w ++ t' :: w')) (.expr e') n₂
  | property {n n' t name w e e'} (ht : t.kind = .symbol .dot) (hname : name.kind = .identifier)
      (more : Reads (.callRest (.get e name)) n w (.expr e') n') :
      Reads (.callRest e) n (t :: name :: w) (.expr e') n'
  | lastArgument {count n n' w e} (hc : count < maxArity)
      (h : Reads .expression n w (.expr e) n') :
      Reads (.arguments count) n w (.exprs [e]) n'
  | nextArgument {count n n₁ n₂ w t w' e es} (hc : count < maxArity)
      (h : Reads .expression n w (.expr e) n₁) (ht : t.kind = .symbol .comma)
      (more : Reads (.arguments (count + 1)) n₁ w' (.exprs es) n₂) :
      Reads (.arguments count) n (w ++ t :: w') (.exprs (e :: es)) n₂
  | literal {n t value} (h : Cursor.literal? t.kind = some value) :
      Reads .primary n [t] (.expr (.literal value)) n
  | this {n t} (ht : t.kind = .keyword .this_) :
      Reads .primary n [t] (.expr (.this ⟨n⟩ t)) (n + 1)
  | super {n t d method} (ht : t.kind = .keyword .super_) (hd : d.kind = .symbol .dot)
      (hm : method.kind = .identifier) :
      Reads .primary n [t, d, method] (.expr (.super ⟨n⟩ t method)) (n + 1)
  | name {n t} (ht : t.kind = .identifier) :
      Reads .primary n [t] (.expr (.var ⟨n⟩ t)) (n + 1)
  | group {n n' t w t' e} (ht : t.kind = .symbol .leftParen)
      (inner : Reads .expression n w (.expr e) n') (ht' : t'.kind = .symbol .rightParen) :
      Reads .primary n (t :: (w ++ [t'])) (.expr (.group e)) n'
  -- parts of statements
  | terminated {s n n' w t e} (hs : s.endsExpression = true)
      (h : Reads .expression n w (.expr e) n') (ht : t.kind = .symbol s) :
      Reads (.terminated s) n (w ++ [t]) (.expr e) n'
  | omitted {s n t} (ht : t.kind = .symbol s) : Reads (.optional s) n [t] (.expr? none) n
  | given {s n n' w e} (h : Reads (.terminated s) n w (.expr e) n') :
      Reads (.optional s) n w (.expr? (some e)) n'
  | parenthesized {n n' t w e} (ht : t.kind = .symbol .leftParen)
      (h : Reads (.terminated .rightParen) n w (.expr e) n') :
      Reads .parenthesized n (t :: w) (.expr e) n'
  | initialized {n n' name t w e} (hname : name.kind = .identifier)
      (ht : t.kind = .symbol .equal) (h : Reads (.terminated .semicolon) n w (.expr e) n') :
      Reads .variableDeclaration n (name :: t :: w) (.stmt (.var name (some e))) n'
  | uninitialized {n name t} (hname : name.kind = .identifier)
      (ht : t.kind = .symbol .semicolon) :
      Reads .variableDeclaration n [name, t] (.stmt (.var name none)) n
  | forNothing {n t} (ht : t.kind = .symbol .semicolon) :
      Reads .forInitializer n [t] (.stmt? none) n
  | forVariable {n n' t w s} (ht : t.kind = .keyword .var_)
      (h : Reads .variableDeclaration n w (.stmt s) n') :
      Reads .forInitializer n (t :: w) (.stmt? (some s)) n'
  | forExpression {n n' w e} (h : Reads (.terminated .semicolon) n w (.expr e) n') :
      Reads .forInitializer n w (.stmt? (some (.expression e))) n'
  | lastParameter {count n name} (hc : count < maxArity) (hname : name.kind = .identifier) :
      Reads (.parameters count) n [name] (.names [name]) n
  | nextParameter {count n n' name t w names} (hc : count < maxArity)
      (hname : name.kind = .identifier) (ht : t.kind = .symbol .comma)
      (more : Reads (.parameters (count + 1)) n w (.names names) n') :
      Reads (.parameters count) n (name :: t :: w) (.names (name :: names)) n'
  | noParameters {n t} (ht : t.kind = .symbol .rightParen) :
      Reads .parameterList n [t] (.names []) n
  | someParameters {n n' w t names} (h : Reads (.parameters 0) n w (.names names) n')
      (ht : t.kind = .symbol .rightParen) :
      Reads .parameterList n (w ++ [t]) (.names names) n'
  | base {n t} (ht : t.kind = .symbol .leftBrace) :
      Reads .classHeader n [t] (.expr? none) n
  | derived {n t name t'} (ht : t.kind = .symbol .less) (hname : name.kind = .identifier)
      (ht' : t'.kind = .symbol .leftBrace) :
      Reads .classHeader n [t, name, t'] (.expr? (some (.var ⟨n⟩ name))) (n + 1)
  -- declarations
  | declaredClass {n n' t w s} (ht : t.kind = .keyword .class_)
      (h : Reads .classDeclaration n w (.stmt s) n') :
      Reads (.declaration false) n (t :: w) (.stmt s) n'
  | declaredFunction {n n' t w f} (ht : t.kind = .keyword .fun_)
      (h : Reads .function n w (.decl f) n') :
      Reads (.declaration false) n (t :: w) (.stmt (.fun_ f)) n'
  | declaredVariable {n n' t w s} (ht : t.kind = .keyword .var_)
      (h : Reads .variableDeclaration n w (.stmt s) n') :
      Reads (.declaration false) n (t :: w) (.stmt s) n'
  | statement {o n n' w s} (h : Reads (.statement o) n w (.stmt s) n') :
      Reads (.declaration o) n w (.stmt s) n'
  | classDeclaration {n n₁ n₂ name w w' superclass fs} (hname : name.kind = .identifier)
      (header : Reads .classHeader n w (.expr? superclass) n₁)
      (body : Reads .methods n₁ w' (.decls fs) n₂) :
      Reads .classDeclaration n (name :: (w ++ w')) (.stmt (.class_ name superclass fs)) n₂
  | noMethods {n t} (ht : t.kind = .symbol .rightBrace) : Reads .methods n [t] (.decls []) n
  | nextMethod {n n₁ n₂ w w' f fs} (h : Reads .function n w (.decl f) n₁)
      (more : Reads .methods n₁ w' (.decls fs) n₂) :
      Reads .methods n (w ++ w') (.decls (f :: fs)) n₂
  | function {n n₁ n₂ name t w t' w' params body} (hname : name.kind = .identifier)
      (ht : t.kind = .symbol .leftParen) (hp : Reads .parameterList n w (.names params) n₁)
      (ht' : t'.kind = .symbol .leftBrace) (hb : Reads .block n₁ w' (.stmts body) n₂) :
      Reads .function n (name :: t :: (w ++ t' :: w')) (.decl ⟨name, params, body⟩) n₂
  | blockEnd {n t} (ht : t.kind = .symbol .rightBrace) : Reads .block n [t] (.stmts []) n
  | blockNext {o n n₁ n₂ w w' s ss} (h : Reads (.declaration o) n w (.stmt s) n₁)
      (more : Reads .block n₁ w' (.stmts ss) n₂) :
      Reads .block n (w ++ w') (.stmts (s :: ss)) n₂
  -- statements
  | for_ {o n n₁ n₂ n₃ n₄ t t' w₁ w₂ w₃ w₄ initializer condition increment body}
      (ht : t.kind = .keyword .for_) (ht' : t'.kind = .symbol .leftParen)
      (h₁ : Reads .forInitializer n w₁ (.stmt? initializer) n₁)
      (h₂ : Reads (.optional .semicolon) n₁ w₂ (.expr? condition) n₂)
      (h₃ : Reads (.optional .rightParen) n₂ w₃ (.expr? increment) n₃)
      (h₄ : Reads (.statement o) n₃ w₄ (.stmt body) n₄) :
      Reads (.statement o) n (t :: t' :: (w₁ ++ (w₂ ++ (w₃ ++ w₄))))
        (.stmt (.ofForClauses initializer condition increment body)) n₄
  | ifThen {o n n₁ n₂ t w w₁ condition thenBranch} (ht : t.kind = .keyword .if_)
      (h : Reads .parenthesized n w (.expr condition) n₁)
      (h₁ : Reads (.statement o) n₁ w₁ (.stmt thenBranch) n₂) :
      Reads (.statement true) n (t :: (w ++ w₁)) (.stmt (.if_ condition thenBranch none)) n₂
  | ifElse {o n n₁ n₂ n₃ t w w₁ t' w₂ condition thenBranch elseBranch}
      (ht : t.kind = .keyword .if_) (h : Reads .parenthesized n w (.expr condition) n₁)
      (h₁ : Reads (.statement false) n₁ w₁ (.stmt thenBranch) n₂)
      (ht' : t'.kind = .keyword .else_)
      (h₂ : Reads (.statement o) n₂ w₂ (.stmt elseBranch) n₃) :
      Reads (.statement o) n (t :: (w ++ (w₁ ++ t' :: w₂)))
        (.stmt (.if_ condition thenBranch (some elseBranch))) n₃
  | while_ {o n n₁ n₂ t w w₁ condition body} (ht : t.kind = .keyword .while_)
      (h : Reads .parenthesized n w (.expr condition) n₁)
      (h₁ : Reads (.statement o) n₁ w₁ (.stmt body) n₂) :
      Reads (.statement o) n (t :: (w ++ w₁)) (.stmt (.while_ condition body)) n₂
  | return_ {n n' t w value} (ht : t.kind = .keyword .return_)
      (h : Reads (.optional .semicolon) n w (.expr? value) n') :
      Reads (.statement false) n (t :: w) (.stmt (.return_ t value)) n'
  | print {n n' t w e} (ht : t.kind = .keyword .print_)
      (h : Reads (.terminated .semicolon) n w (.expr e) n') :
      Reads (.statement false) n (t :: w) (.stmt (.print e)) n'
  | block {n n' t w body} (ht : t.kind = .symbol .leftBrace)
      (h : Reads .block n w (.stmts body) n') :
      Reads (.statement false) n (t :: w) (.stmt (.block body)) n'
  | expressionStatement {n n' w e} (h : Reads (.terminated .semicolon) n w (.expr e) n') :
      Reads (.statement false) n w (.stmt (.expression e)) n'
  -- programs
  | programEnd {n} : Reads .program n [] (.stmts []) n
  | programNext {o n n₁ n₂ w w' s ss} (h : Reads (.declaration o) n w (.stmt s) n₁)
      (more : Reads .program n₁ w' (.stmts ss) n₂) :
      Reads .program n (w ++ w') (.stmts (s :: ss)) n₂

namespace Reads

variable {n n' : Nat} {w : List Token} {e : Expr}

theorem of_primary (h : Reads .primary n w (.expr e) n') : Reads .unary n w (.expr e) n' := by
  have hcall := h.call .callStop
  rwa [List.append_nil] at hcall

/-- What has no binary operator is read on all levels of them. -/
theorem of_unary (h : Reads .unary n w (.expr e) n') : Reads (.binary .or) n w (.expr e) n' := by
  have hlevel : ∀ p : Precedence, Reads p.operand n w (.expr e) n' →
      Reads (.binary p) n w (.expr e) n' := by
    intro p hp
    have hbinary := Reads.binary hp .binaryStop
    rwa [List.append_nil] at hbinary
  exact hlevel .or (hlevel .and (hlevel .equality (hlevel .comparison (hlevel .term
    (hlevel .factor h)))))

end Reads

end LoxWalk
