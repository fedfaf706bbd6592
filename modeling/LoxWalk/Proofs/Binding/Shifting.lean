import LoxWalk.Proofs.Simulation.Shifts

/-!
# Binding looks neither at identities nor at lines

A tree whose identities are all larger by `k` and whose tokens stand on other lines breaks the same
static rules at the same tokens, and its references are bound at the same distances
(`findings_shiftAll`).  This holds of every tree, also of one that breaks rules.
-/

namespace LoxWalk

/-- The same reference with an identity that is larger by `k`. -/
def BoundReference.renumber (k : Nat) (r : BoundReference) : BoundReference :=
  { r with id := r.id.shift k }

theorem BoundReference.map_renumber_zero (rs : List BoundReference) :
    rs.map (BoundReference.renumber 0) = rs :=
  List.map_id rs

/-- The same broken rule on another line. -/
def ResolveError.relined (move : Nat → Nat) (e : ResolveError) : ResolveError :=
  { e with line := move e.line }

namespace Findings

/-- The same findings about references whose identities are larger by `k` and about tokens that stand
on other lines. -/
def shift (k : Nat) (move : Nat → Nat) (f : Findings) : Findings :=
  ⟨f.bound.map (BoundReference.renumber k), f.errors.map (ResolveError.relined move)⟩

variable (k : Nat) (move : Nat → Nat)

@[simp]
theorem shift_none : Findings.none.shift k move = .none := rfl

@[simp]
theorem shift_append (f g : Findings) :
    (f ++ g).shift k move = f.shift k move ++ g.shift k move := by
  change Findings.mk ((f.bound ++ g.bound).map _) ((f.errors ++ g.errors).map _) =
    Findings.mk (f.bound.map _ ++ g.bound.map _) (f.errors.map _ ++ g.errors.map _)
  rw [List.map_append, List.map_append]

@[simp]
theorem shift_broken (t : Token) (fault : ResolveFault) :
    (Findings.broken t fault).shift k move = .broken (t.relined move) fault := rfl

@[simp]
theorem shift_brokenIf (condition : Bool) (t : Token) (fault : ResolveFault) :
    (Findings.brokenIf condition t fault).shift k move =
      .brokenIf condition (t.relined move) fault := by
  cases condition <;> rfl

end Findings

namespace Static

variable (k : Nat) (move : Nat → Nat) (st : Static)

@[simp]
theorem shift_bind (id : NodeId) (name : Token) :
    (st.bind id name).shift k move = st.bind (id.shift k) (name.relined move) := by
  unfold bind
  rw [Token.lexeme_relined]
  cases st.distance? name.lexeme <;> rfl

theorem shift_redeclaration (name : Token) :
    (st.redeclaration name).shift k move = st.redeclaration (name.relined move) :=
  Findings.shift_brokenIf k move _ _ _

/-- Names are declared by their lexeme. -/
theorem declared_relined (name : Token) :
    (st.declare (name.relined move)).define (name.relined move) =
      (st.declare name).define name := rfl

theorem params_relined (ps : List Token) : st.params (ps.map (Token.relined move)) =
    ((st.params ps).1, (st.params ps).2.shift k move) := by
  induction ps generalizing st with
  | nil => rfl
  | cons p ps ih =>
    rw [List.map_cons, params, params, declared_relined, ih, Findings.shift_append,
      shift_redeclaration]

mutual

theorem expr_shift : (e : Expr) → st.expr (e.shift k move) = (st.expr e).shift k move
  | .literal _ => rfl
  | .group inner => expr_shift inner
  | .unary _ operand => expr_shift operand
  | .binary left _ right => by
    rw [Expr.shift, expr, expr, expr_shift left, expr_shift right, Findings.shift_append]
  | .logical left _ right => by
    rw [Expr.shift, expr, expr, expr_shift left, expr_shift right, Findings.shift_append]
  | .var id name => by simp [Expr.shift, expr]
  | .assign id name value => by simp [Expr.shift, expr, expr_shift value]
  | .call callee _ arguments => by
    rw [Expr.shift, expr, expr, expr_shift callee, exprs_shift arguments, Findings.shift_append]
  | .get object _ => expr_shift object
  | .set object _ value => by
    rw [Expr.shift, expr, expr, expr_shift object, expr_shift value, Findings.shift_append]
  | .this id keyword => by
    rw [Expr.shift, expr, expr]
    cases st.inClass <;> simp
  | .super id keyword _ => by
    rw [Expr.shift, expr, expr]
    cases st.inClass <;> simp

theorem exprs_shift : (es : List Expr) →
    st.exprs (Expr.shiftAll k move es) = (st.exprs es).shift k move
  | [] => rfl
  | e :: es => by
    rw [Expr.shiftAll, exprs, exprs, expr_shift e, exprs_shift es, Findings.shift_append]

end

theorem expr?_shift (e : Option Expr) :
    st.expr? (e.map (Expr.shift k move)) = (st.expr? e).shift k move := by
  cases e with
  | none => rfl
  | some e => exact st.expr_shift k move e

theorem methodContext_shiftFun (f : FunDecl) :
    methodContext (Stmt.shiftFun k move f) = methodContext f := by
  cases f
  rfl

theorem superclass_shift (name : Token) (e : Option Expr) :
    st.superclass (name.relined move) (e.map (Expr.shift k move)) =
      (st.superclass name e).shift k move := by
  cases e with
  | none => rfl
  | some e =>
    have he := expr_shift k move { st with inClass := .derived } e
    cases e <;>
      simp only [Option.map_some, superclass, Expr.shift, Findings.shift_append,
        Findings.shift_brokenIf, Findings.shift_none, ← he, Token.lexeme_relined]
    -- only a name may be that of the class itself
    rfl

mutual

theorem stmt_shift (st : Static) : (s : Stmt) →
    st.stmt (s.shift k move) = ((st.stmt s).1, (st.stmt s).2.shift k move)
  | .expression e => by rw [Stmt.shift, stmt, stmt, expr_shift]
  | .print e => by rw [Stmt.shift, stmt, stmt, expr_shift]
  | .var name initializer => by
    rw [Stmt.shift, stmt, stmt, declared_relined, expr?_shift, Findings.shift_append,
      shift_redeclaration]
    rfl
  | .block body => by rw [Stmt.shift, stmt, stmt, stmts_shift _ body]
  | .if_ condition thenBranch none => by
    rw [Stmt.shift, stmt, stmt, stmt_shift st thenBranch, expr_shift, Findings.shift_append]
  | .if_ condition thenBranch (some elseBranch) => by
    rw [Stmt.shift, stmt, stmt, stmt_shift st thenBranch]
    dsimp only
    rw [stmt_shift _ elseBranch, expr_shift, Findings.shift_append, Findings.shift_append]
  | .while_ condition body => by
    rw [Stmt.shift, stmt, stmt, stmt_shift st body, expr_shift, Findings.shift_append]
  | .fun_ ⟨name, params, body⟩ => by
    rw [Stmt.shift, stmt, stmt, funDecl_shift _ _ ⟨name, params, body⟩, Findings.shift_append,
      shift_redeclaration]
    rfl
  | .return_ keyword value => by
    rw [Stmt.shift, stmt, stmt, expr?_shift, Findings.shift_append, Option.isSome_map]
    unfold returned
    rw [Findings.shift_append, Findings.shift_brokenIf, Findings.shift_brokenIf]
  | .class_ name superclass methods => by
    rw [Stmt.shift, stmt, stmt]
    dsimp only
    rw [declared_relined, superclass_shift, Option.isSome_map, methods_shift _ methods,
      Findings.shift_append, Findings.shift_append, shift_redeclaration]
termination_by structural s => s

theorem stmts_shift (st : Static) : (ss : List Stmt) →
    st.stmts (Stmt.shiftAll k move ss) = ((st.stmts ss).1, (st.stmts ss).2.shift k move)
  | [] => rfl
  | s :: ss => by
    rw [Stmt.shiftAll, stmts, stmts, stmt_shift st s]
    dsimp only
    rw [stmts_shift _ ss, Findings.shift_append]
termination_by structural ss => ss

theorem funDecl_shift (st : Static) (context : FunctionContext) : (f : FunDeclOf Stmt) →
    st.funDecl context (Stmt.shiftFun k move f) = (st.funDecl context f).shift k move
  | ⟨name, params, body⟩ => by
    rw [Stmt.shiftFun, funDecl, funDecl, params_relined k]
    dsimp only
    rw [stmts_shift _ body, Findings.shift_append]
termination_by structural f => f

theorem methods_shift (st : Static) : (fs : List (FunDeclOf Stmt)) →
    st.methods (Stmt.shiftMethods k move fs) = (st.methods fs).shift k move
  | [] => rfl
  | f :: fs => by
    rw [Stmt.shiftMethods, methods, methods, funDecl_shift _ _ f, methods_shift st fs,
      Findings.shift_append, methodContext_shiftFun]
termination_by structural fs => fs

end

end Static

/-- The findings of a unit whose identities are larger by `k` and whose tokens stand on other
lines. -/
theorem findings_shiftAll (k : Nat) (move : Nat → Nat) (unit : List Stmt) :
    findings (Stmt.shiftAll k move unit) = (findings unit).shift k move := by
  unfold findings
  rw [Static.stmts_shift]

/-- The findings of a unit whose identities are larger by `k`. -/
theorem findings_shiftAll_id (k : Nat) (unit : List Stmt) :
    findings (Stmt.shiftAll k id unit) =
      ⟨(findings unit).bound.map (BoundReference.renumber k), (findings unit).errors⟩ := by
  have herrors (es : List ResolveError) : es.map (ResolveError.relined id) = es := List.map_id es
  rw [findings_shiftAll, Findings.shift, herrors]

end LoxWalk
