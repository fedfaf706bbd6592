import LoxWalk.Proofs.Grammar.Nodes

/-!
# Trees of scanned tokens

Each node of an accepted tree keeps tokens of the text that it was read from, of the kinds that the
grammar asks for there, and each constant is the value of such a token (`Node.Written`).  Only the
condition that a `for` loop lacks is no token of the text.
-/

namespace LoxWalk

/-- A token of some source text. -/
def Token.Scanned (t : Token) : Prop :=
  ∃ source, t ∈ Source.tokens source

/-- The tokens that a node keeps are scanned, and are of the kinds that its place asks for. -/
def Node.Written : Node → Prop
  | .expr (.literal value) =>
    value = .bool true ∨ ∃ t : Token, t.Scanned ∧ Cursor.literal? t.kind = some value
  | .expr (.unary t _) => t.Scanned ∧ (t.kind = .symbol .bang ∨ t.kind = .symbol .minus)
  | .expr (.binary _ t _) =>
    t.Scanned ∧ ∃ p : Precedence, p ≠ .or ∧ p ≠ .and ∧ t.kind ∈ p.operators
  | .expr (.logical _ t _) => t.Scanned ∧ (t.kind = .keyword .or_ ∨ t.kind = .keyword .and_)
  | .expr (.var _ name) => name.Scanned ∧ name.kind = .identifier
  | .expr (.assign _ name _) => name.Scanned ∧ name.kind = .identifier
  | .expr (.call _ paren _) => paren.Scanned ∧ paren.kind = .symbol .rightParen
  | .expr (.get _ name) => name.Scanned ∧ name.kind = .identifier
  | .expr (.set _ name _) => name.Scanned ∧ name.kind = .identifier
  | .expr (.this _ keyword) => keyword.Scanned ∧ keyword.kind = .keyword .this_
  | .expr (.super _ keyword method) =>
    (keyword.Scanned ∧ keyword.kind = .keyword .super_) ∧
      method.Scanned ∧ method.kind = .identifier
  | _ => True

/-- The nodes of a fragment. -/
def Fragment.nodes : Fragment → List Node
  | .expr e => e.nodes
  | .expr? e => Expr.nodes? e
  | .exprs es => Expr.allNodes es
  | .names _ => []
  | .stmt s => s.nodes
  | .stmt? (some s) => s.nodes
  | .stmt? none => []
  | .stmts ss => Stmt.allNodes ss
  | .decl f => Stmt.funNodes f
  | .decls fs => Stmt.methodNodes fs

/-- The nodes of the expression behind which a rule goes on. -/
def Rule.nodes : Rule → List Node
  | .binaryRest _ left => left.nodes
  | .callRest callee => callee.nodes
  | _ => []

theorem Precedence.nodes_operand (p : Precedence) : p.operand.nodes = [] := by
  cases p <;> rfl

/-- All of them are written. -/
def Node.AllWritten (l : List Node) : Prop :=
  ∀ node ∈ l, node.Written

namespace Node

@[simp]
theorem allWritten_nil : AllWritten [] :=
  fun _ h => absurd h List.not_mem_nil

@[simp]
theorem allWritten_cons {node : Node} {l : List Node} :
    AllWritten (node :: l) ↔ node.Written ∧ AllWritten l :=
  List.forall_mem_cons

@[simp]
theorem allWritten_append {l l' : List Node} :
    AllWritten (l ++ l') ↔ AllWritten l ∧ AllWritten l' :=
  List.forall_mem_append

end Node

open Node

theorem Precedence.allWritten_node {p : Precedence} {left right : Expr} {t : Token}
    (ht : t.Scanned) (hp : t.kind ∈ p.operators) (hl : AllWritten left.nodes)
    (hr : AllWritten right.nodes) : AllWritten (p.node left t right).nodes := by
  have hoperator : p ≠ .or → p ≠ .and → Node.Written (.expr (.binary left t right)) :=
    fun hor hand => ⟨ht, p, hor, hand, hp⟩
  cases p <;> simp_all [Precedence.node, Precedence.operators, Expr.nodes, Node.Written]

/-- A desugared loop adds nothing that would have to be in the text. -/
theorem Stmt.allWritten_ofForClauses {initializer : Option Stmt}
    {condition increment : Option Expr} {body : Stmt}
    (hi : AllWritten (Fragment.stmt? initializer).nodes)
    (hc : AllWritten (Expr.nodes? condition)) (hs : AllWritten (Expr.nodes? increment))
    (hb : AllWritten body.nodes) :
    AllWritten (ofForClauses initializer condition increment body).nodes := by
  cases initializer <;> cases condition <;> cases increment <;>
    simp_all [ofForClauses, nodes, allNodes, Expr.nodes, Fragment.nodes, Expr.nodes?, Node.Written]

/-- The nodes that are read from scanned tokens are written with them. -/
theorem Reads.allWritten {r : Rule} {n n' : Nat} {w : List Token} {f : Fragment}
    (h : Reads r n w f n') (hw : ∀ t ∈ w, t.Scanned) (hr : AllWritten r.nodes) :
    AllWritten f.nodes := by
  induction h with
  | @binaryMore p _ _ _ t _ _ left right _ ht _ _ iho ihm =>
    simp only [List.forall_mem_append, List.forall_mem_cons] at hw
    refine ihm hw.2.2 (Precedence.allWritten_node hw.1 ht hr (iho hw.2.1 ?_))
    rw [p.nodes_operand]
    exact allWritten_nil
  | for_ _ _ _ _ _ _ ih₁ ih₂ ih₃ ih₄ =>
    simp only [List.forall_mem_append, List.forall_mem_cons] at hw
    exact Stmt.allWritten_ofForClauses (ih₁ hw.2.2.1 allWritten_nil) (ih₂ hw.2.2.2.1 allWritten_nil)
      (ih₃ hw.2.2.2.2.1 allWritten_nil) (ih₄ hw.2.2.2.2.2 allWritten_nil)
  | @binary p _ _ _ _ _ _ _ _ _ ihf ihm =>
    rw [List.forall_mem_append] at hw
    refine ihm hw.2 (ihf hw.1 ?_)
    rw [p.nodes_operand]
    exact allWritten_nil
  | literal ht => exact allWritten_cons.mpr ⟨.inr ⟨_, hw _ List.mem_cons_self, ht⟩, allWritten_nil⟩
  | _ =>
    -- the nodes of the parts, and at most one that keeps a token of its own
    simp_all [Fragment.nodes, Rule.nodes, Expr.nodes, Expr.nodes?, Expr.allNodes, Stmt.nodes,
      Stmt.allNodes, Stmt.funNodes, Stmt.methodNodes, Node.Written, or_imp, forall_and]

/-! ## Trees inside of trees -/

/-- A node and all that it contains. -/
def Node.nodes : Node → List Node
  | .expr e => e.nodes
  | .stmt s => s.nodes
  | .function f => Stmt.funNodes f

/-- With each node a list has all that the node contains. -/
def Node.Closed (l : List Node) : Prop :=
  ∀ node ∈ l, ∀ other ∈ node.nodes, other ∈ l

namespace Node.Closed

variable {l l' : List Node}

theorem nil : Closed [] :=
  fun _ h => absurd h List.not_mem_nil

theorem append (h : Closed l) (h' : Closed l') : Closed (l ++ l') := by
  intro node hnode other hother
  rw [List.mem_append] at hnode ⊢
  exact hnode.imp (h node · other hother) (h' node · other hother)

/-- A node in front of what else it contains. -/
theorem cons {node : Node} (h : Closed l) (hnode : node.nodes = node :: l) :
    Closed (node :: l) := by
  intro other hother inner hinner
  rcases List.mem_cons.mp hother with rfl | hother
  · rwa [hnode] at hinner
  · exact List.mem_cons_of_mem _ (h other hother inner hinner)

end Node.Closed

mutual

theorem Expr.closed_nodes : (e : Expr) → Closed e.nodes
  | .literal _ => .cons .nil rfl
  | .group inner => .cons inner.closed_nodes rfl
  | .unary _ operand => .cons operand.closed_nodes rfl
  | .binary left _ right => .cons (left.closed_nodes.append right.closed_nodes) rfl
  | .logical left _ right => .cons (left.closed_nodes.append right.closed_nodes) rfl
  | .var _ _ => .cons .nil rfl
  | .assign _ _ value => .cons value.closed_nodes rfl
  | .call callee _ arguments =>
    .cons (callee.closed_nodes.append (Expr.closed_allNodes arguments)) rfl
  | .get object _ => .cons object.closed_nodes rfl
  | .set object _ value => .cons (object.closed_nodes.append value.closed_nodes) rfl
  | .this _ _ => .cons .nil rfl
  | .super _ _ _ => .cons .nil rfl

theorem Expr.closed_allNodes : (es : List Expr) → Closed (Expr.allNodes es)
  | [] => .nil
  | e :: es => e.closed_nodes.append (Expr.closed_allNodes es)

end

theorem Expr.closed_nodes? : (e : Option Expr) → Closed (Expr.nodes? e)
  | none => .nil
  | some e => e.closed_nodes

mutual

theorem Stmt.closed_nodes : (s : Stmt) → Closed s.nodes
  | .expression e => .cons e.closed_nodes rfl
  | .print e => .cons e.closed_nodes rfl
  | .var _ initializer => .cons (Expr.closed_nodes? initializer) rfl
  | .block body => .cons (Stmt.closed_allNodes body) rfl
  | .if_ condition thenBranch none =>
    .cons (condition.closed_nodes.append thenBranch.closed_nodes) rfl
  | .if_ condition thenBranch (some elseBranch) =>
    .cons (condition.closed_nodes.append
      (thenBranch.closed_nodes.append elseBranch.closed_nodes)) rfl
  | .while_ condition body => .cons (condition.closed_nodes.append body.closed_nodes) rfl
  | .fun_ f => .cons (Stmt.closed_funNodes f) rfl
  | .return_ _ value => .cons (Expr.closed_nodes? value) rfl
  | .class_ _ superclass methods =>
    .cons ((Expr.closed_nodes? superclass).append (Stmt.closed_methodNodes methods)) rfl

theorem Stmt.closed_allNodes : (ss : List Stmt) → Closed (Stmt.allNodes ss)
  | [] => .nil
  | s :: ss => s.closed_nodes.append (Stmt.closed_allNodes ss)

theorem Stmt.closed_funNodes : (f : FunDeclOf Stmt) → Closed (Stmt.funNodes f)
  | ⟨_, _, body⟩ => .cons (Stmt.closed_allNodes body) rfl

theorem Stmt.closed_methodNodes : (fs : List (FunDeclOf Stmt)) → Closed (Stmt.methodNodes fs)
  | [] => .nil
  | f :: fs => (Stmt.closed_funNodes f).append (Stmt.closed_methodNodes fs)

end

/-! ## What is handed out -/

namespace Grammar

/-- An expression that comes from a source text, by itself or as a part of an expression or of a
program that is accepted. -/
inductive Produces (e : Expr) : Prop where
  | expression {n : Nat} {source : String} {whole : Expr}
      (h : (expression n (Source.tokens source)).result = .ok whole) (he : .expr e ∈ whole.nodes)
  | program {n : Nat} {source : String} {ss : List Stmt}
      (h : (program n (Source.tokens source)).result = .ok ss) (he : .expr e ∈ Stmt.allNodes ss)

theorem Produces.allWritten {e : Expr} (h : Produces e) : AllWritten e.nodes := by
  have hscanned {source : String} {w : List Token} (hw : w <+: body (Source.tokens source)) :
      ∀ t ∈ w, t.Scanned :=
    fun t ht => ⟨source, (List.takeWhile_prefix _).subset (hw.subset ht)⟩
  cases h with
  | @expression n source whole h he =>
    obtain ⟨w, hw, hreads⟩ := reads_of_expression_eq_ok h
    intro node hnode
    exact hreads.allWritten (hscanned hw) allWritten_nil node (whole.closed_nodes _ he node hnode)
  | @program n source ss h he =>
    intro node hnode
    exact (reads_of_program_eq_ok h).allWritten (hscanned (List.prefix_refl _)) allWritten_nil node
      (Stmt.closed_allNodes ss _ he node hnode)

end Grammar

end LoxWalk
