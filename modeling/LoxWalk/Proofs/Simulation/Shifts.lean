import LoxWalk.Proofs.Binding.Fitting
import LoxWalk.Proofs.Rescanning
import LoxWalk.Proofs.Simulation.Code

/-!
# Code that stands elsewhere

`Stmt.shift c move` is what is read when the same text stands `k` lines further down and the first free
identity is larger by `c`.  Code that fits the place where it runs differs from its shifted copy only
as any `Twin` says that knows its references and allows for the lines (`Stmt.Fits.twins_shift`).
-/

namespace LoxWalk

/-- The identity so many places further on. -/
def NodeId.shift (c : Nat) (id : NodeId) : NodeId :=
  ⟨id.index + c⟩

section

variable (c : Nat) (move : Nat → Nat)

mutual

/-- An expression that stands elsewhere. -/
def Expr.shift : Expr → Expr
  | .literal v => .literal v
  | .group inner => .group inner.shift
  | .unary operator operand => .unary (operator.relined move) operand.shift
  | .binary left operator right => .binary left.shift (operator.relined move) right.shift
  | .logical left operator right => .logical left.shift (operator.relined move) right.shift
  | .var id name => .var (id.shift c) (name.relined move)
  | .assign id name value => .assign (id.shift c) (name.relined move) value.shift
  | .call callee paren arguments => .call callee.shift (paren.relined move) (Expr.shiftAll arguments)
  | .get object name => .get object.shift (name.relined move)
  | .set object name value => .set object.shift (name.relined move) value.shift
  | .this id keyword => .this (id.shift c) (keyword.relined move)
  | .super id keyword method => .super (id.shift c) (keyword.relined move) (method.relined move)

/-- Expressions that stand elsewhere. -/
def Expr.shiftAll : List Expr → List Expr
  | [] => []
  | e :: es => e.shift :: Expr.shiftAll es

end

mutual

/-- A statement that stands elsewhere. -/
def Stmt.shift : Stmt → Stmt
  | .expression e => .expression (e.shift c move)
  | .print e => .print (e.shift c move)
  | .var name initializer => .var (name.relined move) (initializer.map (Expr.shift c move))
  | .block body => .block (Stmt.shiftAll body)
  | .if_ condition thenBranch none => .if_ (condition.shift c move) thenBranch.shift none
  | .if_ condition thenBranch (some elseBranch) =>
    .if_ (condition.shift c move) thenBranch.shift (some elseBranch.shift)
  | .while_ condition body => .while_ (condition.shift c move) body.shift
  | .fun_ f => .fun_ (Stmt.shiftFun f)
  | .return_ keyword value => .return_ (keyword.relined move) (value.map (Expr.shift c move))
  | .class_ name superclass methods =>
    .class_ (name.relined move) (superclass.map (Expr.shift c move)) (Stmt.shiftMethods methods)

/-- Statements that stand elsewhere. -/
def Stmt.shiftAll : List Stmt → List Stmt
  | [] => []
  | s :: ss => s.shift :: Stmt.shiftAll ss

/-- A function that stands elsewhere. -/
def Stmt.shiftFun : FunDeclOf Stmt → FunDeclOf Stmt
  | ⟨name, params, body⟩ => ⟨name.relined move, params.map (Token.relined move), Stmt.shiftAll body⟩

/-- Methods that stand elsewhere. -/
def Stmt.shiftMethods : List (FunDeclOf Stmt) → List (FunDeclOf Stmt)
  | [] => []
  | f :: fs => Stmt.shiftFun f :: Stmt.shiftMethods fs

end

end

/-! ## Code that stays where it is -/

@[simp]
theorem NodeId.shift_zero (id : NodeId) : id.shift 0 = id := rfl

@[simp]
theorem Token.relined_id (t : Token) : t.relined id = t := rfl

mutual

theorem Expr.shift_zero : (e : Expr) → e.shift 0 id = e
  | .literal _ => rfl
  | .group inner => by rw [shift, inner.shift_zero]
  | .unary _ operand => by rw [shift, operand.shift_zero, Token.relined_id]
  | .binary left _ right => by rw [shift, left.shift_zero, right.shift_zero, Token.relined_id]
  | .logical left _ right => by rw [shift, left.shift_zero, right.shift_zero, Token.relined_id]
  | .var _ _ => rfl
  | .assign _ _ value => by rw [shift, value.shift_zero, Token.relined_id, NodeId.shift_zero]
  | .call callee _ arguments => by
    rw [shift, callee.shift_zero, Expr.shiftAll_zero arguments, Token.relined_id]
  | .get object _ => by rw [shift, object.shift_zero, Token.relined_id]
  | .set object _ value => by
    rw [shift, object.shift_zero, value.shift_zero, Token.relined_id]
  | .this _ _ => rfl
  | .super _ _ _ => rfl

theorem Expr.shiftAll_zero : (es : List Expr) → Expr.shiftAll 0 id es = es
  | [] => rfl
  | e :: es => by rw [shiftAll, e.shift_zero, shiftAll_zero es]

end

theorem Expr.map_shift_zero (e : Option Expr) : e.map (Expr.shift 0 id) = e := by
  cases e with
  | none => rfl
  | some e => exact congrArg some e.shift_zero

mutual

theorem Stmt.shift_zero : (s : Stmt) → s.shift 0 id = s
  | .expression e => by rw [shift, e.shift_zero]
  | .print e => by rw [shift, e.shift_zero]
  | .var _ initializer => by rw [shift, Expr.map_shift_zero, Token.relined_id]
  | .block body => by rw [shift, Stmt.shiftAll_zero body]
  | .if_ condition thenBranch none => by
    rw [shift, condition.shift_zero, thenBranch.shift_zero]
  | .if_ condition thenBranch (some elseBranch) => by
    rw [shift, condition.shift_zero, thenBranch.shift_zero, elseBranch.shift_zero]
  | .while_ condition body => by rw [shift, condition.shift_zero, body.shift_zero]
  | .fun_ f => by rw [shift, Stmt.shiftFun_zero f]
  | .return_ _ value => by rw [shift, Expr.map_shift_zero, Token.relined_id]
  | .class_ _ superclass methods => by
    rw [shift, Expr.map_shift_zero, Stmt.shiftMethods_zero methods, Token.relined_id]

theorem Stmt.shiftAll_zero : (ss : List Stmt) → Stmt.shiftAll 0 id ss = ss
  | [] => rfl
  | s :: ss => by rw [shiftAll, s.shift_zero, shiftAll_zero ss]

theorem Stmt.shiftFun_zero : (f : FunDeclOf Stmt) → Stmt.shiftFun 0 id f = f
  | ⟨name, params, body⟩ => by
    have hparams : params.map (Token.relined id) = params := List.map_id params
    rw [shiftFun, Stmt.shiftAll_zero body, Token.relined_id, hparams]

theorem Stmt.shiftMethods_zero : (fs : List (FunDeclOf Stmt)) → Stmt.shiftMethods 0 id fs = fs
  | [] => rfl
  | f :: fs => by rw [shiftMethods, Stmt.shiftFun_zero f, shiftMethods_zero fs]

end

/-! ## Shifted code is a twin -/

namespace Twin

/-- No scope is flagged. -/
def Unflagged (flags : List Bool) : Prop :=
  ∀ flag ∈ flags, flag = false

theorem Unflagged.cons {flags : List Bool} (h : Unflagged flags) : Unflagged (false :: flags) :=
  List.forall_mem_cons.mpr ⟨rfl, h⟩

theorem Unflagged.flagAt {flags : List Bool} (h : Unflagged flags) (d : Option Nat) :
    flagAt flags d = false := by
  unfold Twin.flagAt
  cases hd : d.bind (flags[·]?) with
  | none => rfl
  | some flag =>
    obtain ⟨i, -, hi⟩ := Option.bind_eq_some_iff.mp hd
    exact h flag (List.mem_of_getElem? hi)

theorem Unflagged.flagHere {flags : List Bool} (h : Unflagged flags) : flagHere flags = false := by
  cases flags with
  | nil => rfl
  | cons flag flags => exact h flag List.mem_cons_self

/-- References that are known in one way are known to `T` after a shift, and so are their lines. -/
structure Allows (T : Twin) (known : Site → Prop) (c : Nat) (move : Nat → Nat) : Prop where
  known : ∀ s, known s → T.known s.extent s.id (s.id.shift c) s.distance?
  line : ∀ l, T.line l (move l)

namespace Allows

variable {T : Twin} {c : Nat} {move : Nat → Nat} {known : Site → Prop} {pending : String → NodeId → Prop}

theorem token (h : T.Allows known c move) (t : Token) : T.Tokens false t (t.relined move) :=
  ⟨rfl, rfl, fun h => (nomatch h), h.line t.line⟩

/-- The name of a reference. -/
theorem name (h : T.Allows known c move) {flags : List Bool} (hflags : Unflagged flags)
    (d : Option Nat) (t : Token) : T.Tokens (Twin.flagAt flags d) t (t.relined move) :=
  hflags.flagAt d ▸ h.token t

section

variable {st : Static} {os : List Origin} {flags : List Bool}

mutual

theorem expr (h : T.Allows known c move) (hflags : Unflagged flags) :
    (e : Expr) → e.Fits known pending st os → e.Twins T st.extent flags (e.shift c move)
  | .literal _, _ => rfl
  | .group inner, hf => ⟨_, rfl, h.expr hflags inner hf⟩
  | .unary operator operand, hf => ⟨_, _, rfl, h.token operator, h.expr hflags operand hf⟩
  | .binary left operator right, hf =>
    ⟨_, _, _, rfl, h.expr hflags left hf.1, h.token operator, h.expr hflags right hf.2⟩
  | .logical left operator right, hf =>
    ⟨_, _, _, rfl, h.expr hflags left hf.1, h.token operator, h.expr hflags right hf.2⟩
  | .var _ name, hf => ⟨_, _, _, rfl, h.known _ hf, h.name hflags _ name⟩
  | .assign _ name value, hf => by
    have hv := h.expr hflags value hf.2.1
    rcases hf.2.2 with hk | ⟨-, hk, -⟩
    · exact ⟨_, _, _, _, rfl, hv, h.known _ hk, h.name hflags _ name⟩
    · exact ⟨_, _, _, _, rfl, hv, h.known _ hk, h.name hflags _ name⟩
  | .call callee paren arguments, hf =>
    ⟨_, _, _, rfl, h.expr hflags callee hf.1, h.token paren, h.exprs hflags arguments hf.2⟩
  | .get object name, hf => ⟨_, _, rfl, h.expr hflags object hf, h.token name⟩
  | .set object name value, hf =>
    ⟨_, _, _, rfl, h.expr hflags object hf.1, h.token name, h.expr hflags value hf.2⟩
  | .this _ keyword, hf => ⟨_, _, _, rfl, h.known _ hf.2.1, h.name hflags _ keyword⟩
  | .super _ keyword method, hf =>
    ⟨_, _, _, _, rfl, h.known _ hf.1, h.name hflags _ keyword, h.token method⟩

theorem exprs (h : T.Allows known c move) (hflags : Unflagged flags) :
    (es : List Expr) → Expr.AllFit known pending st os es →
      Expr.AllTwins T st.extent flags es (Expr.shiftAll c move es)
  | [], _ => rfl
  | e :: es, hf => ⟨_, _, rfl, h.expr hflags e hf.1, h.exprs hflags es hf.2⟩

end

theorem expr? (h : T.Allows known c move) (hflags : Unflagged flags) {e : Option Expr}
    (hf : Expr.Fits? known pending st os e) :
    Expr.Twins? T st.extent flags e (e.map (Expr.shift c move)) := by
  cases e with
  | none => rfl
  | some e => exact ⟨_, rfl, h.expr hflags e hf⟩

end

mutual

theorem stmt (h : T.Allows known c move) {st : Static} {os : List Origin} {flags : List Bool}
    (hflags : Unflagged flags) :
    (s : Stmt) → s.Fits known pending st os → s.Twins T st.extent flags (s.shift c move)
  | .expression e, hf => ⟨_, rfl, h.expr hflags e hf⟩
  | .print e, hf => ⟨_, rfl, h.expr hflags e hf⟩
  | .var name _, hf => ⟨_, _, rfl, hflags.flagHere ▸ h.token name, h.expr? hflags hf.2⟩
  | .block body, hf =>
    have hbody := h.stmts hflags.cons body hf
    ⟨false, _, rfl, hbody⟩
  | .if_ condition thenBranch none, hf =>
    ⟨_, _, rfl, h.expr hflags condition hf.1, h.stmt hflags thenBranch hf.2.1⟩
  | .if_ condition thenBranch (some elseBranch), hf =>
    ⟨_, _, _, rfl, h.expr hflags condition hf.1, h.stmt hflags thenBranch hf.2.1.1,
      h.stmt hflags elseBranch hf.2.2.1⟩
  | .while_ condition body, hf =>
    ⟨_, _, rfl, h.expr hflags condition hf.1, h.stmt hflags body hf.2.1⟩
  | .fun_ ⟨name, params, body⟩, hf =>
    ⟨_, rfl, hflags.flagHere ▸ h.token name,
      h.function hflags (by simp) ⟨name, params, body⟩ hf.2⟩
  | .return_ keyword _, hf => ⟨if_neg hf.1, _, _, rfl, h.token keyword, h.expr? hflags hf.2⟩
  | .class_ name superclass methods, hf => by
    refine ⟨_, _, _, rfl, ⟨hflags.flagHere ▸ h.token name, rfl⟩, h.expr? hflags hf.2.1, ?_⟩
    refine h.methods ?_ methods hf.2.2
    split
    · exact hflags.cons
    · exact hflags

theorem stmts (h : T.Allows known c move) {st : Static} {os : List Origin} {flags : List Bool}
    (hflags : Unflagged flags) :
    (ss : List Stmt) → Stmt.AllFit known pending st os ss →
      Stmt.AllTwins T st.extent flags ss (Stmt.shiftAll c move ss)
  | [], _ => rfl
  | s :: ss, hf => by
    have hextent : (st.stmt s).1.extent = st.extent := by
      rw [Static.extent, Static.function_stmt, Static.extent]
    exact ⟨_, _, rfl, h.stmt hflags s hf.1, hextent ▸ h.stmts hflags ss hf.2⟩

theorem function (h : T.Allows known c move) {st : Static} {os : List Origin} {flags : List Bool}
    (hflags : Unflagged flags) {context : FunctionContext} (hcontext : context ≠ .topLevel) :
    (f : FunDeclOf Stmt) → Stmt.FunFits known pending st context os f →
      Stmt.FunTwins T flags f (Stmt.shiftFun c move f)
  | ⟨name, params, body⟩, hf => by
    have hextent : (st.body context ⟨name, params, body⟩).extent = .lasting := by
      rw [Static.extent, Static.function_body, if_neg hcontext]
    refine ⟨false, _, _, _, rfl, h.token name, ?_, hextent ▸ h.stmts hflags.cons body hf.2⟩
    exact List.forall₂_map_right_iff.mpr (List.forall₂_same.mpr fun p _ => h.token p)

theorem methods (h : T.Allows known c move) {st : Static} {os : List Origin} {flags : List Bool}
    (hflags : Unflagged flags) :
    (fs : List (FunDeclOf Stmt)) → Stmt.MethodsFit known pending st os fs →
      Stmt.MethodsTwins T flags fs (Stmt.shiftMethods c move fs)
  | [], _ => rfl
  | f :: fs, hf =>
    ⟨_, _, rfl, h.function hflags.cons (Static.methodContext_ne f) f hf.1,
      h.methods hflags fs hf.2⟩

end

end Allows

end Twin

end LoxWalk
