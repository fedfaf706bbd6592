import LoxWalk.Proofs.Binding.Depths

/-!
# Scopes in which nothing is declared

A scope in which nothing is declared changes little for the code inside it: a statement that
declares nothing breaks the same rules in a scope of its own
(`Static.AtStatement.errors_stmt_block`).  For that it has to stand where statements begin, where no
name awaits its initializer (`Static.AtStatement`).
-/

namespace LoxWalk

/-! ## Places of statements -/

/-- What holds of every place where a statement begins: no name awaits its initializer there, and
the innermost scope is not that of a superclass. -/
structure Static.AtStatement (st : Static) : Prop where
  isPending : ∀ x, st.isPending x = false
  super : st.declaresHere superName = false

/-- The names that a statement declares are not those that the language binds itself. -/
theorem Stmt.superName_not_mem_names (t : Stmt) (hw : t.WellFormed) : superName ∉ t.names := by
  cases t with
  | var name _ => exact fun h => hw.1.ne.2 (List.mem_singleton.mp h).symm
  | fun_ f => exact fun h => hw.1.ne.2 (List.mem_singleton.mp h).symm
  | class_ name _ _ => exact fun h => hw.1.ne.2 (List.mem_singleton.mp h).symm
  | if_ _ thenBranch elseBranch =>
    cases elseBranch with
    | none => exact thenBranch.superName_not_mem_names hw.2.1
    | some elseBranch =>
      exact fun h => (List.mem_append.mp h).elim (thenBranch.superName_not_mem_names hw.2.1.1)
        (elseBranch.superName_not_mem_names hw.2.2.1)
  | while_ _ body => exact body.superName_not_mem_names hw.2.1
  | _ => exact List.not_mem_nil

/-- What declares nothing has no names. -/
theorem Stmt.names_eq_nil (t : Stmt) (hw : t.WellFormed) (hd : t.declares = false) :
    t.names = [] := by
  cases t with
  | var _ _ => cases hd
  | fun_ _ => cases hd
  | class_ _ _ _ => cases hd
  | if_ _ thenBranch elseBranch =>
    cases elseBranch with
    | none => exact thenBranch.names_eq_nil hw.2.1 hw.2.2
    | some elseBranch =>
      rw [names, thenBranch.names_eq_nil hw.2.1.1 hw.2.1.2,
        elseBranch.names_eq_nil hw.2.2.1 hw.2.2.2]
      rfl
  | while_ _ body => exact body.names_eq_nil hw.2.1 hw.2.2
  | _ => rfl

namespace Static

variable {st st' : Static}

namespace AtStatement

theorem top : top.AtStatement :=
  ⟨fun _ => rfl, rfl⟩

/-- The beginning of a block. -/
theorem block (st : Static) : (st.enter []).AtStatement :=
  ⟨fun _ => rfl, rfl⟩

theorem declared (h : st.AtStatement) {name : Token} (hname : name.IsName) :
    (st.declared name).AtStatement := by
  cases hs : st.scopes with
  | nil =>
    have heq : st.declared name = st := by
      rw [Static.declared, declare, hs, define, hs]
    rwa [heq]
  | cons scope outer =>
    obtain ⟨scope', hs', hget⟩ := get?_declared hs name
    obtain ⟨hpending, hsuper⟩ := h
    unfold Static.isPending at hpending
    unfold declaresHere NameMap.contains at hsuper
    rw [hs] at hpending hsuper
    refine ⟨fun x => ?_, ?_⟩
    · unfold Static.isPending
      rw [hs', List.head?_cons, Option.bind_some, hget]
      split
      · rfl
      · exact hpending x
    · unfold declaresHere NameMap.contains
      rw [hs', List.head?_cons, Option.any_some, hget, if_neg hname.ne.2]
      exact hsuper

/-- The place behind a statement. -/
theorem stmt (h : st.AtStatement) {t : Stmt} (ht : t.WellFormed) : (st.stmt t).1.AtStatement := by
  cases hd : t.declares with
  | false => rwa [st.stmt_of_declares_eq_false t ht hd]
  | true =>
    cases t with
    | var => exact h.declared ht.1
    | fun_ => exact h.declared ht.1
    | class_ => exact h.declared ht.1
    | _ => cases hd

end AtStatement

/-! ## Rules -/

/-- Two places where the same expressions break the same rules: in the same kind of class, and with
the same names awaiting their initializer. -/
structure ReadsAlike (st st' : Static) : Prop where
  inClass : st'.inClass = st.inClass
  isPending : ∀ x, st'.isPending x = st.isPending x

mutual

theorem ReadsAlike.errors_expr (h : st.ReadsAlike st') :
    (e : Expr) → (st'.expr e).errors = (st.expr e).errors
  | .literal _ => rfl
  | .group inner => h.errors_expr inner
  | .unary _ operand => h.errors_expr operand
  | .binary left _ right => by
    rw [expr, expr, Findings.errors_append, Findings.errors_append, h.errors_expr left,
      h.errors_expr right]
  | .logical left _ right => by
    rw [expr, expr, Findings.errors_append, Findings.errors_append, h.errors_expr left,
      h.errors_expr right]
  | .var _ name => by
    rw [expr, expr, Findings.errors_append, Findings.errors_append, errors_bind, errors_bind,
      h.isPending]
  | .assign _ _ value => by
    rw [expr, expr, Findings.errors_append, Findings.errors_append, errors_bind, errors_bind,
      h.errors_expr value]
  | .call callee _ arguments => by
    rw [expr, expr, Findings.errors_append, Findings.errors_append, h.errors_expr callee,
      h.errors_exprs arguments]
  | .get object _ => h.errors_expr object
  | .set object _ value => by
    rw [expr, expr, Findings.errors_append, Findings.errors_append, h.errors_expr value,
      h.errors_expr object]
  | .this _ _ => by
    rw [expr, expr, h.inClass]
    cases st.inClass
    · rfl
    · rw [errors_bind, errors_bind]
    · rw [errors_bind, errors_bind]
  | .super _ _ _ => by
    rw [expr, expr, h.inClass]
    cases st.inClass
    · rfl
    · rfl
    · rw [errors_bind, errors_bind]

theorem ReadsAlike.errors_exprs (h : st.ReadsAlike st') :
    (es : List Expr) → (st'.exprs es).errors = (st.exprs es).errors
  | [] => rfl
  | e :: es => by
    rw [exprs, exprs, Findings.errors_append, Findings.errors_append, h.errors_expr e,
      h.errors_exprs es]

end

theorem ReadsAlike.errors_expr? (h : st.ReadsAlike st') (e : Option Expr) :
    (st'.expr? e).errors = (st.expr? e).errors := by
  cases e with
  | none => rfl
  | some e => exact h.errors_expr e

/-- Two places with the same rules: in the same kind of function and of class, and with the same
names in their innermost scope. -/
structure SameRules (st st' : Static) : Prop where
  function : st'.function = st.function
  inClass : st'.inClass = st.inClass
  scope : st'.scopes.head? = st.scopes.head?

namespace SameRules

theorem enter (h : st.SameRules st') (names : List String) :
    (st.enter names).SameRules (st'.enter names) :=
  ⟨h.function, h.inClass, rfl⟩

theorem readsAlike (h : st.SameRules st') : st.ReadsAlike st' :=
  ⟨h.inClass, fun x => by rw [Static.isPending, Static.isPending, h.scope]⟩

theorem redeclaration (h : st.SameRules st') (name : Token) :
    st'.redeclaration name = st.redeclaration name := by
  rw [Static.redeclaration, Static.redeclaration, declaresHere, declaresHere, h.scope]

theorem declare (h : st.SameRules st') (name : Token) :
    (st.declare name).SameRules (st'.declare name) := by
  refine ⟨by rw [function_declare, function_declare, h.function],
    by rw [inClass_declare, inClass_declare, h.inClass], ?_⟩
  have hscope := h.scope
  unfold Static.declare
  cases hs : st.scopes <;> cases hs' : st'.scopes <;> rw [hs, hs'] at hscope
  · rw [hs, hs']
  · cases hscope
  · cases hscope
  · obtain rfl := Option.some.inj hscope
    dsimp only
    split
    · rw [hs, hs', List.head?_cons, List.head?_cons]
    · rfl

theorem declared (h : st.SameRules st') (name : Token) :
    (st.declared name).SameRules (st'.declared name) := by
  have hdeclare := h.declare name
  refine ⟨by rw [function_declared, function_declared, h.function],
    by rw [inClass_declared, inClass_declared, h.inClass], ?_⟩
  have hscope := hdeclare.scope
  unfold Static.declared Static.define
  cases hs : (st.declare name).scopes <;> cases hs' : (st'.declare name).scopes <;>
    rw [hs, hs'] at hscope
  · rw [hs, hs']
  · cases hscope
  · cases hscope
  · obtain rfl := Option.some.inj hscope
    rfl

theorem params (h : st.SameRules st') (ps : List Token) :
    (st.params ps).1.SameRules (st'.params ps).1 ∧
      (st'.params ps).2.errors = (st.params ps).2.errors := by
  induction ps generalizing st st' with
  | nil => exact ⟨h, rfl⟩
  | cons p ps ih =>
    obtain ⟨hrules, herrors⟩ := ih (h.declared p)
    refine ⟨hrules, ?_⟩
    rw [Static.params, Static.params, Findings.errors_append, Findings.errors_append,
      h.redeclaration]
    exact congrArg _ herrors

theorem superclass (h : st.SameRules st') (name : Token) (e : Option Expr) :
    (st'.superclass name e).errors = (st.superclass name e).errors := by
  cases e with
  | none => rfl
  | some e =>
    have hreads : ReadsAlike { st with inClass := .derived } { st' with inClass := .derived } :=
      ⟨rfl, h.readsAlike.isPending⟩
    unfold Static.superclass
    dsimp only
    rw [Findings.errors_append, Findings.errors_append, hreads.errors_expr]

theorem methodsPlace (h : st.SameRules st') (hasSuperclass : Bool) :
    (st.methodsPlace hasSuperclass).SameRules (st'.methodsPlace hasSuperclass) := by
  cases hasSuperclass <;> exact ⟨h.function, rfl, rfl⟩

end SameRules

mutual

/-- A statement breaks the same rules in two places that have the same rules, and so do the
statements behind it. -/
theorem errors_stmt_congr : (t : Stmt) → {st st' : Static} → st.SameRules st' →
    (st.stmt t).1.SameRules (st'.stmt t).1 ∧ (st'.stmt t).2.errors = (st.stmt t).2.errors
  | .expression e, st, st', h => ⟨h, h.readsAlike.errors_expr e⟩
  | .print e, st, st', h => ⟨h, h.readsAlike.errors_expr e⟩
  | .var name initializer, st, st', h => by
    refine ⟨h.declared name, ?_⟩
    rw [stmt, stmt, Findings.errors_append, Findings.errors_append, h.redeclaration,
      (h.declare name).readsAlike.errors_expr?]
  | .block body, st, st', h => ⟨h, errors_stmts_congr body (h.enter [])⟩
  | .if_ condition thenBranch none, st, st', h => by
    obtain ⟨hrules, herrors⟩ := errors_stmt_congr thenBranch h
    refine ⟨hrules, ?_⟩
    rw [stmt, stmt, Findings.errors_append, Findings.errors_append, herrors,
      h.readsAlike.errors_expr]
  | .if_ condition thenBranch (some elseBranch), st, st', h => by
    obtain ⟨hrules, herrors⟩ := errors_stmt_congr thenBranch h
    obtain ⟨hrules', herrors'⟩ := errors_stmt_congr elseBranch hrules
    refine ⟨hrules', ?_⟩
    rw [stmt, stmt]
    dsimp only
    rw [Findings.errors_append, Findings.errors_append, Findings.errors_append,
      Findings.errors_append, herrors, herrors', h.readsAlike.errors_expr]
  | .while_ condition body, st, st', h => by
    obtain ⟨hrules, herrors⟩ := errors_stmt_congr body h
    refine ⟨hrules, ?_⟩
    rw [stmt, stmt, Findings.errors_append, Findings.errors_append, herrors,
      h.readsAlike.errors_expr]
  | .fun_ f, st, st', h => by
    refine ⟨h.declared f.name, ?_⟩
    rw [stmt, stmt, Findings.errors_append, Findings.errors_append, h.redeclaration]
    exact congrArg _ (errors_funDecl_congr f .function (h.declared f.name).inClass)
  | .return_ keyword value, st, st', h => by
    refine ⟨h, ?_⟩
    rw [stmt, stmt, Findings.errors_append, Findings.errors_append, returned, returned, h.function,
      h.readsAlike.errors_expr?]
  | .class_ name superclass methods, st, st', h => by
    have hdeclared := h.declared name
    refine ⟨hdeclared, ?_⟩
    rw [stmt, stmt]
    dsimp only
    rw [Findings.errors_append, Findings.errors_append, Findings.errors_append,
      Findings.errors_append, h.redeclaration]
    exact congrArg₂ _ (congrArg _ (hdeclared.superclass name superclass))
      (errors_methods_congr methods (hdeclared.methodsPlace superclass.isSome).inClass)

theorem errors_stmts_congr : (ts : List Stmt) → {st st' : Static} → st.SameRules st' →
    (st'.stmts ts).2.errors = (st.stmts ts).2.errors
  | [], _, _, _ => rfl
  | t :: ts, st, st', h => by
    obtain ⟨hrules, herrors⟩ := errors_stmt_congr t h
    rw [stmts, stmts]
    dsimp only
    rw [Findings.errors_append, Findings.errors_append, herrors, errors_stmts_congr ts hrules]

theorem errors_funDecl_congr : (f : FunDeclOf Stmt) → {st st' : Static} →
    (context : FunctionContext) → st'.inClass = st.inClass →
      (st'.funDecl context f).errors = (st.funDecl context f).errors
  | ⟨_, params, body⟩, st, st', context, hclass => by
    have hinside : ({ st with function := context }.enter []).SameRules
        ({ st' with function := context }.enter []) := ⟨rfl, hclass, rfl⟩
    obtain ⟨hrules, herrors⟩ := hinside.params params
    rw [funDecl, funDecl]
    dsimp only
    rw [Findings.errors_append, Findings.errors_append, herrors, errors_stmts_congr body hrules]

theorem errors_methods_congr : (fs : List (FunDeclOf Stmt)) → {st st' : Static} →
    st'.inClass = st.inClass → (st'.methods fs).errors = (st.methods fs).errors
  | [], _, _, _ => rfl
  | f :: fs, st, st', hclass => by
    rw [methods, methods, Findings.errors_append, Findings.errors_append,
      errors_funDecl_congr f (methodContext f) hclass, errors_methods_congr fs hclass]

end

/-- A statement that declares nothing breaks the same rules in a scope of its own. -/
theorem AtStatement.errors_stmt_block (h : st.AtStatement) (t : Stmt) (hw : t.WellFormed)
    (hd : t.declares = false) : ((st.enter []).stmt t).2.errors = (st.stmt t).2.errors := by
  have hreads : st.ReadsAlike (st.enter []) := ⟨rfl, fun x => (h.isPending x).symm⟩
  cases t with
  | var _ _ => cases hd
  | fun_ _ => cases hd
  | class_ _ _ _ => cases hd
  | expression e => exact hreads.errors_expr e
  | print e => exact hreads.errors_expr e
  | block body => exact errors_stmts_congr body ⟨rfl, rfl, rfl⟩
  | return_ keyword value =>
    rw [Static.stmt, Static.stmt, Findings.errors_append, Findings.errors_append,
      hreads.errors_expr?]
    rfl
  | while_ condition body =>
    rw [Static.stmt, Static.stmt, Findings.errors_append, Findings.errors_append,
      hreads.errors_expr, h.errors_stmt_block body hw.2.1 hw.2.2]
  | if_ condition thenBranch elseBranch =>
    cases elseBranch with
    | none =>
      rw [Static.stmt, Static.stmt, Findings.errors_append, Findings.errors_append,
        hreads.errors_expr, h.errors_stmt_block thenBranch hw.2.1 hw.2.2]
    | some elseBranch =>
      obtain ⟨-, ⟨hthen, hthen'⟩, helse, helse'⟩ := hw
      have hst := st.stmt_of_declares_eq_false thenBranch hthen hthen'
      have hst' := (st.enter []).stmt_of_declares_eq_false thenBranch hthen hthen'
      rw [Static.stmt, Static.stmt]
      dsimp only
      rw [hst, hst', Findings.errors_append, Findings.errors_append, Findings.errors_append,
        Findings.errors_append, hreads.errors_expr, h.errors_stmt_block thenBranch hthen hthen',
        h.errors_stmt_block elseBranch helse helse']

end Static

end LoxWalk
