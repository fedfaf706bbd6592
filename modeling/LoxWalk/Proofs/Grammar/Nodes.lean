import Mathlib
import LoxWalk.Proofs.Grammar.Bounds
import LoxWalk.Proofs.Grammar.Trees

/-!
# The nodes of accepted trees

What binding and execution rely on is true of each node of a tree by itself (`Node.Sound`): lists of
parameters and of arguments are bounded, a superclass is a name, no declaration is a branch of an
`if` or the body of a loop, and whatever a program names is spelled like a name, so that it is none
of the names that the language binds itself.  The nodes of a tree that is read from genuine tokens
are sound (`Reads.sound`).

The identities of references are distinct even across trees.  `Attempt` is one use of the reader, on
any tokens and with any outcome; in a row of such attempts no identity is handed out twice
(`Attempt.freshIds_all`).
-/

namespace LoxWalk

/-! ## The nodes of a tree -/

/-- An expression, a statement, or a function with its parameters and its body. -/
inductive Node where
  | expr (e : Expr)
  | stmt (s : Stmt)
  | function (f : FunDecl)

mutual

/-- An expression and all that it contains. -/
def Expr.nodes : Expr → List Node
  | .literal value => [.expr (.literal value)]
  | .group inner => .expr (.group inner) :: inner.nodes
  | .unary operator operand => .expr (.unary operator operand) :: operand.nodes
  | .binary left operator right =>
    .expr (.binary left operator right) :: (left.nodes ++ right.nodes)
  | .logical left operator right =>
    .expr (.logical left operator right) :: (left.nodes ++ right.nodes)
  | .var id name => [.expr (.var id name)]
  | .assign id name value => .expr (.assign id name value) :: value.nodes
  | .call callee paren arguments =>
    .expr (.call callee paren arguments) :: (callee.nodes ++ Expr.allNodes arguments)
  | .get object name => .expr (.get object name) :: object.nodes
  | .set object name value => .expr (.set object name value) :: (object.nodes ++ value.nodes)
  | .this id keyword => [.expr (.this id keyword)]
  | .super id keyword method => [.expr (.super id keyword method)]

def Expr.allNodes : List Expr → List Node
  | [] => []
  | e :: es => e.nodes ++ Expr.allNodes es

end

def Expr.nodes? : Option Expr → List Node
  | some e => e.nodes
  | none => []

mutual

/-- A statement and all that it contains. -/
def Stmt.nodes : Stmt → List Node
  | .expression e => .stmt (.expression e) :: e.nodes
  | .print e => .stmt (.print e) :: e.nodes
  | .var name initializer => .stmt (.var name initializer) :: Expr.nodes? initializer
  | .block body => .stmt (.block body) :: Stmt.allNodes body
  | .if_ condition thenBranch none =>
    .stmt (.if_ condition thenBranch none) :: (condition.nodes ++ thenBranch.nodes)
  | .if_ condition thenBranch (some elseBranch) =>
    .stmt (.if_ condition thenBranch (some elseBranch)) ::
      (condition.nodes ++ (thenBranch.nodes ++ elseBranch.nodes))
  | .while_ condition body => .stmt (.while_ condition body) :: (condition.nodes ++ body.nodes)
  | .fun_ f => .stmt (.fun_ f) :: Stmt.funNodes f
  | .return_ keyword value => .stmt (.return_ keyword value) :: Expr.nodes? value
  | .class_ name superclass methods =>
    .stmt (.class_ name superclass methods) ::
      (Expr.nodes? superclass ++ Stmt.methodNodes methods)

def Stmt.allNodes : List Stmt → List Node
  | [] => []
  | s :: ss => s.nodes ++ Stmt.allNodes ss

/-- A function and all that it contains. -/
def Stmt.funNodes : FunDeclOf Stmt → List Node
  | ⟨name, params, body⟩ => .function ⟨name, params, body⟩ :: Stmt.allNodes body

def Stmt.methodNodes : List (FunDeclOf Stmt) → List Node
  | [] => []
  | f :: fs => Stmt.funNodes f ++ Stmt.methodNodes fs

end

/-! ## Sound nodes -/

/-- A token with which a program names something of its own. -/
structure Token.Names (t : Token) : Prop where
  kind : t.kind = .identifier
  isName : t.IsName

/-- What is true of each node of an accepted tree. -/
def Node.Sound : Node → Prop
  | .expr (.var _ name) => name.Names
  | .expr (.assign _ name _) => name.Names
  | .expr (.get _ name) => name.Names
  | .expr (.set _ name _) => name.Names
  | .expr (.super _ _ method) => method.Names
  | .expr (.call _ _ arguments) => arguments.length ≤ maxArity
  | .stmt (.var name _) => name.Names
  | .stmt (.class_ name superclass _) => name.Names ∧ ∀ e ∈ superclass, ∃ id t, e = .var id t
  | .stmt (.if_ _ thenBranch elseBranch) =>
    thenBranch.declares = false ∧ ∀ s ∈ elseBranch, s.declares = false
  | .stmt (.while_ _ body) => body.declares = false
  | .function f => f.name.Names ∧ (∀ p ∈ f.params, p.Names) ∧ f.params.length ≤ maxArity
  | _ => True

namespace Node

def AllSound (l : List Node) : Prop :=
  ∀ node ∈ l, node.Sound

theorem AllSound.cons {node : Node} {l : List Node} (h : node.Sound) (hs : AllSound l) :
    AllSound (node :: l) :=
  List.forall_mem_cons.mpr ⟨h, hs⟩

theorem AllSound.append {l l' : List Node} (h : AllSound l) (h' : AllSound l') :
    AllSound (l ++ l') :=
  List.forall_mem_append.mpr ⟨h, h'⟩

theorem AllSound.nil : AllSound [] :=
  fun _ h => absurd h List.not_mem_nil

theorem AllSound.single {node : Node} (h : node.Sound) : AllSound [node] :=
  .cons h .nil

end Node

open Node

/-- The nodes of a fragment are sound, and its names are names. -/
def Fragment.Sound : Fragment → Prop
  | .expr e => AllSound e.nodes
  | .expr? e => AllSound (Expr.nodes? e)
  | .exprs es => AllSound (Expr.allNodes es)
  | .names ts => ∀ t ∈ ts, t.Names
  | .stmt s => AllSound s.nodes
  | .stmt? s => ∀ t ∈ s, AllSound t.nodes
  | .stmts ss => AllSound (Stmt.allNodes ss)
  | .decl f => AllSound (Stmt.funNodes f)
  | .decls fs => AllSound (Stmt.methodNodes fs)

/-- The expression that a rule goes on behind is sound. -/
def Rule.SoundBefore : Rule → Prop
  | binaryRest _ left => AllSound left.nodes
  | callRest callee => AllSound callee.nodes
  | _ => True

theorem Precedence.soundBefore_operand (p : Precedence) : p.operand.SoundBefore := by
  cases p <;> trivial

theorem Precedence.sound_node (p : Precedence) {left right : Expr} (t : Token)
    (hl : AllSound left.nodes) (hr : AllSound right.nodes) :
    AllSound (p.node left t right).nodes := by
  cases p <;> exact .cons trivial (.append hl hr)

theorem Stmt.sound_ofForClauses {initializer : Option Stmt} {condition increment : Option Expr}
    {body : Stmt} (hi : ∀ s ∈ initializer, AllSound s.nodes)
    (hc : AllSound (Expr.nodes? condition)) (hs : AllSound (Expr.nodes? increment))
    (hb : AllSound body.nodes) (hd : body.declares = false) :
    AllSound (Stmt.ofForClauses initializer condition increment body).nodes := by
  have hcondition : AllSound (condition.getD (.literal (.bool true))).nodes := by
    cases condition with
    | none => exact .single trivial
    | some e => exact hc
  have hloop : ∀ step : Stmt, AllSound step.nodes → step.declares = false →
      AllSound (Stmt.while_ (condition.getD (.literal (.bool true))) step).nodes :=
    fun step h h' => .cons h' (.append hcondition h)
  cases increment with
  | none =>
    cases initializer with
    | none => exact hloop _ hb hd
    | some s => exact .cons trivial (.append (hi s rfl) (.append (hloop _ hb hd) .nil))
  | some e =>
    have hstep : AllSound (Stmt.block [body, .expression e]).nodes :=
      .cons trivial (.append hb (.append (.cons trivial hs) .nil))
    cases initializer with
    | none => exact hloop _ hstep rfl
    | some s => exact .cons trivial (.append (hi s rfl) (.append (hloop _ hstep rfl) .nil))

/-- Lists are not longer than they may be, also those that a rule adds to. -/
def Rule.Bounds : Rule → Fragment → Prop
  | arguments count, .exprs es => count + es.length ≤ maxArity
  | parameters count, .names ts => count + ts.length ≤ maxArity
  | parameterList, .names ts => ts.length ≤ maxArity
  | _, _ => True

theorem Reads.bounds {r : Rule} {n n' : Nat} {w : List Token} {f : Fragment}
    (h : Reads r n w f n') : r.Bounds f := by
  induction h with
  | lastArgument hc => exact hc
  | nextArgument _ _ _ _ _ ih =>
    simp only [Rule.Bounds, List.length_cons] at ih ⊢
    omega
  | lastParameter hc => exact hc
  | nextParameter _ _ _ _ ih =>
    simp only [Rule.Bounds, List.length_cons] at ih ⊢
    omega
  | noParameters => exact Nat.zero_le _
  | someParameters _ _ ih =>
    simp only [Rule.Bounds] at ih ⊢
    omega
  | _ => trivial

theorem Token.Genuine.names {t : Token} (h : t.Genuine) (ht : t.kind = .identifier) : t.Names :=
  ⟨ht, h.isName ht⟩

/-- The nodes that are read from genuine tokens are sound. -/
theorem Reads.sound {r : Rule} {n n' : Nat} {w : List Token} {f : Fragment}
    (h : Reads r n w f n') (hw : ∀ t ∈ w, t.Genuine) (hr : r.SoundBefore) : f.Sound := by
  induction h with
  | plain _ ih => exact ih hw trivial
  | assign _ _ _ ihl ihv =>
    simp only [List.forall_mem_append, List.forall_mem_cons] at hw
    obtain ⟨hname, -⟩ := List.forall_mem_cons.mp (ihl hw.1 trivial)
    exact .cons hname (ihv hw.2.2 trivial)
  | set _ _ _ ihl ihv =>
    simp only [List.forall_mem_append, List.forall_mem_cons] at hw
    obtain ⟨hname, hobject⟩ := List.forall_mem_cons.mp (ihl hw.1 trivial)
    exact .cons hname (.append hobject (ihv hw.2.2 trivial))
  | @binary p _ _ _ _ _ _ _ _ _ ihf ihm =>
    rw [List.forall_mem_append] at hw
    exact ihm hw.2 (ihf hw.1 p.soundBefore_operand)
  | binaryStop => exact hr
  | @binaryMore p _ _ _ t _ _ left right _ _ _ _ iho ihm =>
    simp only [List.forall_mem_append, List.forall_mem_cons] at hw
    exact ihm hw.2.2 (p.sound_node t hr (iho hw.2.1 p.soundBefore_operand))
  | prefixed _ _ ih => exact .cons trivial (ih (List.forall_mem_cons.mp hw).2 trivial)
  | call _ _ ihf ihm =>
    rw [List.forall_mem_append] at hw
    exact ihm hw.2 (ihf hw.1 trivial)
  | callStop => exact hr
  | callEmpty _ _ _ ih =>
    simp only [List.forall_mem_cons] at hw
    exact ih hw.2.2 (.cons (Nat.zero_le _) (.append hr .nil))
  | callWith _ hargs _ _ iha ihm =>
    simp only [List.forall_mem_append, List.forall_mem_cons] at hw
    have hbound := hargs.bounds
    rw [Rule.Bounds, Nat.zero_add] at hbound
    exact ihm hw.2.2.2 (.cons hbound (.append hr (iha hw.2.1 trivial)))
  | property _ hname _ ih =>
    simp only [List.forall_mem_cons] at hw
    exact ih hw.2.2 (.cons (hw.2.1.names hname) hr)
  | lastArgument _ _ ih => exact .append (ih hw trivial) .nil
  | nextArgument _ _ _ _ ih ihm =>
    simp only [List.forall_mem_append, List.forall_mem_cons] at hw
    exact .append (ih hw.1 trivial) (ihm hw.2.2 trivial)
  | literal _ => exact .single trivial
  | this _ => exact .single trivial
  | super _ _ hm =>
    simp only [List.forall_mem_cons] at hw
    exact .single (hw.2.2.1.names hm)
  | name ht => exact .single ((hw _ List.mem_cons_self).names ht)
  | group _ _ _ ih =>
    simp only [List.forall_mem_append, List.forall_mem_cons] at hw
    exact .cons trivial (ih hw.2.1 trivial)
  | terminated _ _ _ ih => exact ih (List.forall_mem_append.mp hw).1 trivial
  | omitted _ => exact .nil
  | given _ ih => exact ih hw trivial
  | parenthesized _ _ ih => exact ih (List.forall_mem_cons.mp hw).2 trivial
  | initialized hname _ _ ih =>
    simp only [List.forall_mem_cons] at hw
    exact .cons (hw.1.names hname) (ih hw.2.2 trivial)
  | uninitialized hname _ => exact .single ((hw _ List.mem_cons_self).names hname)
  | forNothing _ => rintro _ ⟨⟩
  | forVariable _ _ ih =>
    rintro _ ⟨⟩
    exact ih (List.forall_mem_cons.mp hw).2 trivial
  | forExpression _ ih =>
    rintro _ ⟨⟩
    exact .cons trivial (ih hw trivial)
  | lastParameter _ hname =>
    simp only [List.forall_mem_cons] at hw
    exact List.forall_mem_singleton.mpr (hw.1.names hname)
  | nextParameter _ hname _ _ ih =>
    simp only [List.forall_mem_cons] at hw
    exact List.forall_mem_cons.mpr ⟨hw.1.names hname, ih hw.2.2 trivial⟩
  | noParameters _ => exact fun _ ht => absurd ht List.not_mem_nil
  | someParameters _ _ ih => exact ih (List.forall_mem_append.mp hw).1 trivial
  | base _ => exact .nil
  | derived _ hname _ =>
    simp only [List.forall_mem_cons] at hw
    exact .single (hw.2.1.names hname)
  | declaredClass _ _ ih => exact ih (List.forall_mem_cons.mp hw).2 trivial
  | declaredFunction _ _ ih => exact .cons trivial (ih (List.forall_mem_cons.mp hw).2 trivial)
  | declaredVariable _ _ ih => exact ih (List.forall_mem_cons.mp hw).2 trivial
  | statement _ ih => exact ih hw trivial
  | classDeclaration hname header _ ihh ihm =>
    simp only [List.forall_mem_append, List.forall_mem_cons] at hw
    refine .cons ⟨hw.1.names hname, ?_⟩ (.append (ihh hw.2.1 trivial) (ihm hw.2.2 trivial))
    cases header with
    | base => rintro _ ⟨⟩
    | derived =>
      rintro _ ⟨⟩
      exact ⟨_, _, rfl⟩
  | noMethods _ => exact .nil
  | nextMethod _ _ ih ihm =>
    rw [List.forall_mem_append] at hw
    exact .append (ih hw.1 trivial) (ihm hw.2 trivial)
  | function hname _ hparams _ _ ihp ihb =>
    simp only [List.forall_mem_append, List.forall_mem_cons] at hw
    exact .cons ⟨hw.1.names hname, ihp hw.2.2.1 trivial, hparams.bounds⟩ (ihb hw.2.2.2.2 trivial)
  | blockEnd _ => exact .nil
  | blockNext _ _ ih ihm =>
    rw [List.forall_mem_append] at hw
    exact .append (ih hw.1 trivial) (ihm hw.2 trivial)
  | for_ _ _ _ _ _ h₄ ih₁ ih₂ ih₃ ih₄ =>
    simp only [List.forall_mem_append, List.forall_mem_cons] at hw
    obtain ⟨-, -, hw₁, hw₂, hw₃, hw₄⟩ := hw
    exact Stmt.sound_ofForClauses (ih₁ hw₁ trivial) (ih₂ hw₂ trivial) (ih₃ hw₃ trivial)
      (ih₄ hw₄ trivial) h₄.declares_eq_false
  | ifThen _ _ h₁ ih ih₁ =>
    simp only [List.forall_mem_append, List.forall_mem_cons] at hw
    refine .cons ⟨h₁.declares_eq_false, ?_⟩ (.append (ih hw.2.1 trivial) (ih₁ hw.2.2 trivial))
    rintro _ ⟨⟩
  | ifElse _ _ h₁ _ h₂ ih ih₁ ih₂ =>
    simp only [List.forall_mem_append, List.forall_mem_cons] at hw
    refine .cons ⟨h₁.declares_eq_false, ?_⟩ (.append (ih hw.2.1 trivial)
      (.append (ih₁ hw.2.2.1 trivial) (ih₂ hw.2.2.2.2 trivial)))
    rintro _ ⟨⟩
    exact h₂.declares_eq_false
  | while_ _ _ h₁ ih ih₁ =>
    simp only [List.forall_mem_append, List.forall_mem_cons] at hw
    exact .cons h₁.declares_eq_false (.append (ih hw.2.1 trivial) (ih₁ hw.2.2 trivial))
  | return_ _ _ ih => exact .cons trivial (ih (List.forall_mem_cons.mp hw).2 trivial)
  | print _ _ ih => exact .cons trivial (ih (List.forall_mem_cons.mp hw).2 trivial)
  | block _ _ ih => exact .cons trivial (ih (List.forall_mem_cons.mp hw).2 trivial)
  | expressionStatement _ ih => exact .cons trivial (ih hw trivial)
  | programEnd => exact .nil
  | programNext _ _ ih ihm =>
    rw [List.forall_mem_append] at hw
    exact .append (ih hw.1 trivial) (ihm hw.2 trivial)

/-! ## Reading again and again -/

/-- Tokens that are read as a program or as a single expression. -/
inductive Attempt where
  | program (ts : List Token)
  | expression (ts : List Token)

/-- The identities of what was read, which are none if nothing was. -/
def Parsed.ids {α : Type} (idsOf : α → List NodeId) (p : Parsed α) : List NodeId :=
  match p.result with
  | .ok tree => idsOf tree
  | .error _ => []

namespace Attempt

/-- The references of the tree that comes of an attempt when `n` is the next free identity. -/
def ids (n : Nat) : Attempt → List NodeId
  | program ts => (Grammar.program n ts).ids Stmt.allIds
  | expression ts => (Grammar.expression n ts).ids Expr.ids

/-- The next free identity after an attempt. -/
def nextId (n : Nat) : Attempt → Nat
  | program ts => (Grammar.program n ts).nextId
  | expression ts => (Grammar.expression n ts).nextId

/-- The references of all trees that come of attempts in a row. -/
def idsOfAll : Nat → List Attempt → List NodeId
  | _, [] => []
  | n, a :: as => a.ids n ++ idsOfAll (a.nextId n) as

def nextIdAfter : Nat → List Attempt → Nat :=
  List.foldl nextId

end Attempt

namespace Grammar

variable {n : Nat} {ts : List Token}

/-- An expression that is accepted is read from the first tokens. -/
theorem reads_of_expression_eq_ok {e : Expr} (h : (expression n ts).result = .ok e) :
    ∃ w, w <+: body ts ∧ Reads .expression n w (.expr e) (expression n ts).nextId := by
  have hexplains := Cursor.expression_explains (start n ts)
  rw [expression_of_start rfl] at h ⊢
  cases hstep : (start n ts).expression with
  | failed complaint c _ =>
    rw [hstep] at h
    cases h
  | ok e' c _ =>
    rw [hstep] at h hexplains
    dsimp only at h ⊢
    rw [result_conclude] at h
    have hnone : c.complaints = [] := by
      cases hc : c.complaints with
      | nil => rfl
      | cons complaint complaints => simp [errors, hc] at h
    obtain rfl : e' = e := by simpa [errors, hnone] using h
    obtain ⟨w, hw, hreads⟩ := hexplains.2 hnone
    rw [nextId_conclude]
    exact ⟨w, ⟨c.rest, hw.symm⟩, hreads⟩

theorem nextId_expression_le (n : Nat) (ts : List Token) : n ≤ (expression n ts).nextId := by
  have hexplains := Cursor.expression_explains (start n ts)
  rw [expression_of_start rfl]
  cases hstep : (start n ts).expression with
  | failed complaint c _ =>
    rw [hstep] at hexplains
    exact hexplains.nextId
  | ok e c _ =>
    rw [hstep] at hexplains
    dsimp only
    rw [nextId_conclude]
    exact hexplains.1.nextId

end Grammar

theorem FreshIds.nil {n n' : Nat} (h : n ≤ n') : FreshIds [] n n' [] :=
  ⟨h, [], .nil, List.nodup_nil, fun _ h => absurd h List.not_mem_nil⟩

namespace Attempt

/-- An attempt hands out identities that were free. -/
theorem freshIds (n : Nat) (a : Attempt) : FreshIds [] n (a.nextId n) (a.ids n) := by
  cases a with
  | program ts =>
    rw [ids, nextId, Parsed.ids]
    cases h : (Grammar.program n ts).result with
    | ok ss => exact (Grammar.reads_of_program_eq_ok h).freshIds
    | error es => exact .nil (Grammar.nextId_le n ts)
  | expression ts =>
    rw [ids, nextId, Parsed.ids]
    cases h : (Grammar.expression n ts).result with
    | ok e =>
      obtain ⟨w, -, hreads⟩ := Grammar.reads_of_expression_eq_ok h
      exact hreads.freshIds
    | error es => exact .nil (Grammar.nextId_expression_le n ts)

theorem freshIds_all (n : Nat) (as : List Attempt) :
    FreshIds [] n (nextIdAfter n as) (idsOfAll n as) := by
  induction as generalizing n with
  | nil => exact .refl [] n
  | cons a as ih => exact (a.freshIds n).append (ih (a.nextId n))

end Attempt

namespace Grammar

/-- Accepted trees are well formed.  Each node of a program that is read from a source text is sound,
and what the program names itself is neither `this` nor `super`.  Whatever was read before, as programs
or as expressions and with any outcome, all references in all trees have distinct identities. -/
theorem accepted_nodes_sound (first : Nat) (earlier : List Attempt) {source : String}
    {ss : List Stmt}
    (h : (program (Attempt.nextIdAfter first earlier) (Source.tokens source)).result = .ok ss) :
    (∀ node ∈ Stmt.allNodes ss, node.Sound) ∧
      (∀ t : Token, t.Names → t.lexeme ≠ thisName ∧ t.lexeme ≠ superName) ∧
      (Attempt.idsOfAll first earlier ++ Stmt.allIds ss).Nodup := by
  have hreads := reads_of_program_eq_ok h
  refine ⟨hreads.sound (fun t ht => ?_) trivial, fun t ht => ht.isName.ne, ?_⟩
  · exact Source.genuine_of_mem_tokens ((List.takeWhile_prefix _).subset ht)
  · obtain ⟨-, new, hperm, hnodup, -⟩ :=
      (Attempt.freshIds_all first earlier).append hreads.freshIds
    exact hperm.nodup_iff.mpr hnodup

/-- The name `x` on the first line. -/
def nameToken (x : String) : Token :=
  ⟨.identifier, x, 1⟩

/-- The tree of `class A<B{m(x){super.m().y=x;}}`, of which the first free identity is 1. -/
def derivedClass : List Stmt :=
  [.class_ (nameToken "A") (some (.var ⟨1⟩ (nameToken "B")))
    [⟨nameToken "m", [nameToken "x"],
      [.expression (.set (.call (.super ⟨2⟩ ⟨.keyword .super_, "super", 1⟩ (nameToken "m"))
        ⟨.symbol .rightParen, ")", 1⟩ []) (nameToken "y") (.var ⟨3⟩ (nameToken "x")))]⟩]]

/-- A derived class, behind an expression and a text that is no program. -/
theorem accepted_nodes_sound_derived :
    (program (Attempt.nextIdAfter 0
        [.expression (Source.tokens "-a"), .program (Source.tokens ")")])
        (Source.tokens "class A<B{m(x){super.m().y=x;}}")).result = .ok derivedClass ∧
      (∀ node ∈ Stmt.allNodes derivedClass, node.Sound) ∧
      (Attempt.idsOfAll 0 [.expression (Source.tokens "-a"), .program (Source.tokens ")")] ++
        Stmt.allIds derivedClass).Nodup := by
  have h : (program (Attempt.nextIdAfter 0
      [.expression (Source.tokens "-a"), .program (Source.tokens ")")])
      (Source.tokens "class A<B{m(x){super.m().y=x;}}")).result = .ok derivedClass := by
    cbv
  obtain ⟨hsound, -, hids⟩ := accepted_nodes_sound 0 _ h
  exact ⟨h, hsound, hids⟩

end Grammar

end LoxWalk
