import LoxWalk.Proofs.Simulation.Knowledge
import LoxWalk.Proofs.Simulation.Shifts

/-!
# Code on other lines

`Twin.lines` relates two programs that differ in the lines of their tokens and in nothing else; the
distances of their references are those in one table.  A unit that breaks no static rule is related
to its copy on any other lines (`Twin.lines_stmts`).  Nothing else is asked of the unit: its tokens
need not come from a source text.  Machines that are related in this way are so for every table
(`Twin.lines_machines`).
-/

namespace LoxWalk

namespace Twin

/-- Two programs that differ only in lines, with the distances of the table `t`. -/
def lines (t : DistanceTable) : Twin where
  line _ _ := True
  rename := id
  renames _ := True
  rename_rename := id_eq
  rename_this := id_eq thisName
  rename_super := id_eq superName
  known _ i i' d := i' = i ∧ t.distance? i = d
  globals := .root ⟨0⟩

variable {t : DistanceTable} (move : Nat → Nat)

theorem lines_token (flag : Bool) (u : Token) : (lines t).Tokens flag u (u.relined move) :=
  ⟨rfl, by cases flag <;> rfl, fun _ => trivial, trivial⟩

section

variable (x : Extent) (flags : List Bool)

mutual

theorem lines_expr : (e : Expr) → e.Twins (lines t) x flags (e.shift 0 move)
  | .literal _ => rfl
  | .group inner => ⟨_, rfl, lines_expr inner⟩
  | .unary operator operand => ⟨_, _, rfl, lines_token move _ operator, lines_expr operand⟩
  | .binary left operator right =>
    ⟨_, _, _, rfl, lines_expr left, lines_token move _ operator, lines_expr right⟩
  | .logical left operator right =>
    ⟨_, _, _, rfl, lines_expr left, lines_token move _ operator, lines_expr right⟩
  | .var _ name => ⟨_, _, _, rfl, ⟨rfl, rfl⟩, lines_token move _ name⟩
  | .assign _ name value =>
    ⟨_, _, _, _, rfl, lines_expr value, ⟨rfl, rfl⟩, lines_token move _ name⟩
  | .call callee paren arguments =>
    ⟨_, _, _, rfl, lines_expr callee, lines_token move _ paren, lines_exprs arguments⟩
  | .get object name => ⟨_, _, rfl, lines_expr object, lines_token move _ name⟩
  | .set object name value =>
    ⟨_, _, _, rfl, lines_expr object, lines_token move _ name, lines_expr value⟩
  | .this _ keyword => ⟨_, _, _, rfl, ⟨rfl, rfl⟩, lines_token move _ keyword⟩
  | .super _ keyword method =>
    ⟨_, _, _, _, rfl, ⟨rfl, rfl⟩, lines_token move _ keyword, lines_token move _ method⟩

theorem lines_exprs : (es : List Expr) →
    Expr.AllTwins (lines t) x flags es (Expr.shiftAll 0 move es)
  | [] => rfl
  | e :: es => ⟨_, _, rfl, lines_expr e, lines_exprs es⟩

end

theorem lines_expr? (e : Option Expr) :
    Expr.Twins? (lines t) x flags e (e.map (Expr.shift 0 move)) := by
  cases e with
  | none => rfl
  | some e => exact ⟨_, rfl, lines_expr move x flags e⟩

end

/-- A `return` that breaks no rule stands inside a function. -/
theorem extent_of_returned {st : Static} {keyword : Token} {hasValue : Bool}
    (h : (st.returned keyword hasValue).errors = []) : st.extent = .lasting := by
  rw [Static.returned, Findings.errors_append, List.append_eq_nil_iff, Findings.errors_brokenIf] at h
  rw [Static.extent, if_neg (of_decide_eq_false h.1)]

mutual

theorem lines_stmt (st : Static) (flags : List Bool) : (s : Stmt) →
    (st.stmt s).2.errors = [] → s.Twins (lines t) st.extent flags (s.shift 0 move)
  | .expression e, _ => ⟨_, rfl, lines_expr move _ _ e⟩
  | .print e, _ => ⟨_, rfl, lines_expr move _ _ e⟩
  | .var name initializer, _ =>
    ⟨_, _, rfl, lines_token move _ name, lines_expr? move _ _ initializer⟩
  | .block body, h => ⟨false, _, rfl, lines_stmts (st.enter []) _ body h⟩
  | .if_ condition thenBranch none, h =>
    ⟨_, _, rfl, lines_expr move _ _ condition,
      lines_stmt st flags thenBranch (List.append_eq_nil_iff.mp h).2⟩
  | .if_ condition thenBranch (some elseBranch), h => by
    -- the second branch is bound in what the first one leaves behind
    have hextent : (st.stmt thenBranch).1.extent = st.extent := by
      rw [Static.extent, Static.function_stmt, Static.extent]
    obtain ⟨hthen, helse⟩ := List.append_eq_nil_iff.mp h
    exact ⟨_, _, _, rfl, lines_expr move _ _ condition,
      lines_stmt st flags thenBranch (List.append_eq_nil_iff.mp hthen).2,
      hextent ▸ lines_stmt _ flags elseBranch helse⟩
  | .while_ condition body, h =>
    ⟨_, _, rfl, lines_expr move _ _ condition,
      lines_stmt st flags body (List.append_eq_nil_iff.mp h).2⟩
  | .fun_ ⟨name, params, body⟩, h =>
    ⟨_, rfl, lines_token move _ name, lines_function _ .function nofun flags ⟨name, params, body⟩
      (List.append_eq_nil_iff.mp h).2⟩
  | .return_ keyword value, h =>
    ⟨extent_of_returned (List.append_eq_nil_iff.mp h).1, _, _, rfl, lines_token move _ keyword,
      lines_expr? move _ _ value⟩
  | .class_ name superclass methods, h =>
    ⟨_, _, _, rfl, ⟨lines_token move _ name, rfl⟩, lines_expr? move _ _ superclass,
      lines_methods _ _ methods (List.append_eq_nil_iff.mp h).2⟩
termination_by structural s => s

theorem lines_stmts (st : Static) (flags : List Bool) : (ss : List Stmt) →
    (st.stmts ss).2.errors = [] →
      Stmt.AllTwins (lines t) st.extent flags ss (Stmt.shiftAll 0 move ss)
  | [], _ => rfl
  | s :: ss, h => by
    have hextent : (st.stmt s).1.extent = st.extent := by
      rw [Static.extent, Static.function_stmt, Static.extent]
    obtain ⟨hs, hss⟩ := List.append_eq_nil_iff.mp h
    exact ⟨_, _, rfl, lines_stmt st flags s hs, hextent ▸ lines_stmts _ flags ss hss⟩
termination_by structural ss => ss

theorem lines_function (st : Static) (context : FunctionContext) (hcontext : context ≠ .topLevel)
    (flags : List Bool) : (f : FunDeclOf Stmt) → (st.funDecl context f).errors = [] →
      Stmt.FunTwins (lines t) flags f (Stmt.shiftFun 0 move f)
  | ⟨name, params, body⟩, h => by
    have hextent : (st.body context ⟨name, params, body⟩).extent = .lasting := by
      rw [Static.extent, Static.function_body, if_neg hcontext]
    refine ⟨false, _, _, _, rfl, lines_token move _ name, ?_,
      hextent ▸ lines_stmts _ _ body (List.append_eq_nil_iff.mp h).2⟩
    exact List.forall₂_map_right_iff.mpr
      (List.forall₂_same.mpr fun p _ => lines_token move _ p)
termination_by structural f => f

theorem lines_methods (st : Static) (flags : List Bool) : (fs : List (FunDeclOf Stmt)) →
    (st.methods fs).errors = [] →
      Stmt.MethodsTwins (lines t) flags fs (Stmt.shiftMethods 0 move fs)
  | [], _ => rfl
  | f :: fs, h =>
    ⟨_, _, rfl, lines_function st _ (Static.methodContext_ne f) _ f (List.append_eq_nil_iff.mp h).1,
      lines_methods st flags fs (List.append_eq_nil_iff.mp h).2⟩
termination_by structural fs => fs

end

/-- Names are the same in both programs, so it makes no difference which table is in use. -/
theorem lines_weaker (t' : DistanceTable) (x : Extent) :
    (lines t).Weaker (lines t').known x := by
  rintro id id' d ⟨rfl, -⟩
  have hname (flag : Bool) : (lines t).name flag = fun x => x := by cases flag <;> rfl
  refine ⟨t'.distance? id', ⟨rfl, rfl⟩, fun flags u u' hu => ⟨hu.kind, ?_, fun _ => trivial, trivial⟩⟩
  rw [hu.lexeme, hname, hname]

theorem lines_machines (t' : DistanceTable) {W : List Bool} {m m' : Machine}
    (h : (lines t).Machines W m m') : (lines t').Machines W m m' :=
  h.weaken (lines_weaker t' .lasting)

end Twin

end LoxWalk
