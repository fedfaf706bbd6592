import Mathlib.Data.List.Pairwise
import LoxWalk.Proofs.Binding.Fitting
import LoxWalk.Proofs.Renaming.Trees

/-!
# Names are declared once

In an accepted program no local scope declares a name twice (`LocalScope.Separate`).  So a scope that
declares a variable `x` has no function and no class with this name.
-/

namespace LoxWalk

/-- Two statements do not declare the same name. -/
def Stmt.Apart (s s' : Stmt) : Prop :=
  ∀ t t', s.declaredName? = some t → s'.declaredName? = some t' → t.lexeme ≠ t'.lexeme

instance : Std.Symm Stmt.Apart where
  symm _ _ h t t' ht ht' := (h t' t ht' ht).symm

/-- The names that the statements of a scope declare differ, from each other and from those of the
parameters, and are names of variables. -/
structure LocalScope.Separate (scope : LocalScope) : Prop where
  names : ∀ p ∈ scope.params, p.IsName
  wellFormed : Stmt.AllWellFormed scope.body
  params : ∀ p ∈ scope.params, ∀ s ∈ scope.body, ∀ t, s.declaredName? = some t →
    t.lexeme ≠ p.lexeme
  body : scope.body.Pairwise Stmt.Apart

theorem Stmt.declaredName?_of_keptName? {s : Stmt} {t : Token} (h : s.keptName? = some t) :
    s.declaredName? = some t := by
  cases s <;> first | exact h | cases h

/-- A name that belongs to a variable is not that of a function or a class. -/
theorem LocalScope.Separate.spare {scope : LocalScope} (h : scope.Separate) {x : String}
    (hx : scope.DeclaresVariable x) : Stmt.Spare x scope.body := by
  intro s hs t ht
  have hdeclared := Stmt.declaredName?_of_keptName? ht
  rcases hx with ⟨p, hp, rfl⟩ | ⟨name, initializer, hvar, rfl⟩
  · exact h.params p hp s hs t hdeclared
  · have hne : s ≠ .var name initializer := by
      rintro rfl
      cases ht
    exact h.body.forall hs hvar hne t name hdeclared rfl

theorem Stmt.AllWellFormed.of_mem {s : Stmt} {ss : List Stmt} (h : Stmt.AllWellFormed ss)
    (hs : s ∈ ss) : s.WellFormed := by
  induction ss with
  | nil => cases hs
  | cons u ss ih =>
    rcases List.mem_cons.mp hs with rfl | hs
    · exact h.1
    · exact ih h.2 hs

theorem LocalScope.Separate.isIdentifier {scope : LocalScope} (h : scope.Separate) {x : String}
    (hx : scope.DeclaresVariable x) : Source.IsIdentifier x := by
  rcases hx with ⟨p, hp, rfl⟩ | ⟨name, initializer, hvar, rfl⟩
  · exact h.names p hp
  · exact (h.wellFormed.of_mem hvar).1

namespace Static

variable {st : Static} {z : String}

/-- There is a scope in which names can be declared. -/
def IsInside (st : Static) : Prop :=
  ∃ names outer, st.scopes = names :: outer

theorem IsInside.declared (h : st.IsInside) (name : Token) : (st.declared name).IsInside := by
  obtain ⟨names, outer, hs⟩ := h
  obtain ⟨names', hs', -⟩ := scopes_declared_cons hs name
  exact ⟨names', outer, hs'⟩

theorem declaresHere_declared (h : st.IsInside) (name : Token) :
    (st.declared name).declaresHere z = (decide (name.lexeme = z) || st.declaresHere z) := by
  obtain ⟨names, outer, hs⟩ := h
  obtain ⟨names', hs', hnames'⟩ := scopes_declared_cons hs name
  rw [declaresHere, hs', declaresHere, hs]
  exact hnames' z

/-- What a statement declares. -/
theorem stmt_eq_declared {s : Stmt} (hf : s.WellFormed) :
    (st.stmt s).1 = (s.declaredName?.map st.declared).getD st := by
  cases s with
  | var name initializer => rfl
  | fun_ f => rfl
  | class_ name superclass methods => rfl
  | _ => exact st.stmt_of_declares_eq_false _ hf rfl

/-- What is declared is not declared already. -/
theorem declaresHere_eq_false {s : Stmt} {t : Token} (ht : s.declaredName? = some t)
    (he : (st.stmt s).2.errors = []) : st.declaresHere t.lexeme = false := by
  have hredeclared : (st.redeclaration t).errors = [] := by
    cases s <;> cases ht <;>
      simp only [stmt, Findings.errors_append, List.append_eq_nil_iff] at he
    · exact he.1
    · exact he.1
    · exact he.1.1
  exact (Findings.errors_brokenIf _ _ _).mp hredeclared

/-- Statements declare no name that is declared already, and none twice. -/
theorem apart_stmts (ss : List Stmt) : ∀ {st : Static}, st.IsInside → Stmt.AllWellFormed ss →
    (st.stmts ss).2.errors = [] →
      (∀ s ∈ ss, ∀ t, s.declaredName? = some t → st.declaresHere t.lexeme = false) ∧
        ss.Pairwise Stmt.Apart := by
  induction ss with
  | nil => exact fun _ _ _ => ⟨List.forall_mem_nil _, .nil⟩
  | cons s ss ih =>
    intro st hst hf he
    simp only [stmts, Findings.errors_append, List.append_eq_nil_iff] at he
    have hplace : (st.stmt s).1 = _ := stmt_eq_declared hf.1
    have hinside : (st.stmt s).1.IsInside := by
      rw [hplace]
      cases s.declaredName? with
      | none => exact hst
      | some t => exact hst.declared t
    obtain ⟨hnew, hpairwise⟩ := ih hinside hf.2 he.2
    -- whatever is declared in front of `s` or by `s` is declared behind it
    have hbehind : ∀ u ∈ ss, ∀ t, u.declaredName? = some t → st.declaresHere t.lexeme = false ∧
        ∀ t', s.declaredName? = some t' → t'.lexeme ≠ t.lexeme := by
      intro u hu t ht
      have hfree := hnew u hu t ht
      rw [hplace] at hfree
      cases hs : s.declaredName? with
      | none =>
        rw [hs] at hfree
        exact ⟨hfree, by rintro _ ⟨⟩⟩
      | some t' =>
        rw [hs, Option.map_some, Option.getD_some, declaresHere_declared hst,
          Bool.or_eq_false_iff, decide_eq_false_iff_not] at hfree
        refine ⟨hfree.2, fun t'' h => ?_⟩
        obtain rfl := Option.some.inj h
        exact hfree.1
    refine ⟨List.forall_mem_cons.mpr ⟨fun t ht => declaresHere_eq_false ht he.1,
      fun u hu t ht => (hbehind u hu t ht).1⟩, List.pairwise_cons.mpr ⟨fun u hu t t' ht ht' => ?_,
      hpairwise⟩⟩
    exact (hbehind u hu t' ht').2 t ht

theorem declaresHere_params {ps : List Token} : ∀ {st : Static}, st.IsInside →
    (st.params ps).1.IsInside ∧ (st.declaresHere z = true ∨ (∃ p ∈ ps, p.lexeme = z) →
      (st.params ps).1.declaresHere z = true) := by
  induction ps with
  | nil => exact fun h => ⟨h, fun hz => hz.resolve_right fun ⟨_, hp, _⟩ => nomatch hp⟩
  | cons p ps ih =>
    intro st h
    obtain ⟨hinside, hdeclares⟩ := ih (h.declared p)
    refine ⟨hinside, fun hz => hdeclares ?_⟩
    rw [declaresHere_declared h, Bool.or_eq_true, decide_eq_true_eq]
    rcases hz with hz | ⟨q, hq, hz⟩
    · exact .inl (.inr hz)
    · rcases List.mem_cons.mp hq with rfl | hq
      · exact .inl (.inl hz)
      · exact .inr ⟨q, hq, hz⟩

/-! ## The scopes of a tree -/

mutual

theorem separate_stmt (st : Static) : (s : Stmt) → s.WellFormed → (st.stmt s).2.errors = [] →
    ∀ scope ∈ s.localScopes, scope.Separate
  | .expression _, _, _ => fun _ h => nomatch h
  | .print _, _, _ => fun _ h => nomatch h
  | .var _ _, _, _ => fun _ h => nomatch h
  | .block body, hf, he => by
    have hinside : (st.enter []).IsInside := ⟨_, _, rfl⟩
    refine List.forall_mem_cons.mpr ⟨⟨fun _ hp => (nomatch hp), hf,
      fun _ hp => (nomatch hp), ?_⟩, separate_stmts _ body hf he⟩
    exact (apart_stmts body hinside hf he).2
  | .if_ _ thenBranch none, hf, he => by
    simp only [stmt, Findings.errors_append, List.append_eq_nil_iff] at he
    exact separate_stmt st thenBranch hf.2.1 he.2
  | .if_ _ thenBranch (some elseBranch), hf, he => by
    simp only [stmt, Findings.errors_append, List.append_eq_nil_iff] at he
    exact List.forall_mem_append.mpr ⟨separate_stmt st thenBranch hf.2.1.1 he.1.2,
      separate_stmt _ elseBranch hf.2.2.1 he.2⟩
  | .while_ _ body, hf, he => by
    simp only [stmt, Findings.errors_append, List.append_eq_nil_iff] at he
    exact separate_stmt st body hf.2.1 he.2
  | .fun_ f, hf, he => by
    simp only [stmt, Findings.errors_append, List.append_eq_nil_iff] at he
    exact separate_fun _ .function f hf.2 he.2
  | .return_ _ _, _, _ => fun _ h => nomatch h
  | .class_ _ _ methods, hf, he => by
    simp only [stmt, Findings.errors_append, List.append_eq_nil_iff] at he
    exact separate_methods _ methods hf.2.2 he.2

theorem separate_stmts (st : Static) : (ss : List Stmt) → Stmt.AllWellFormed ss →
    (st.stmts ss).2.errors = [] → ∀ scope ∈ Stmt.allLocalScopes ss, scope.Separate
  | [], _, _ => fun _ h => nomatch h
  | s :: ss, hf, he => by
    simp only [stmts, Findings.errors_append, List.append_eq_nil_iff] at he
    exact List.forall_mem_append.mpr ⟨separate_stmt st s hf.1 he.1, separate_stmts _ ss hf.2 he.2⟩

theorem separate_fun (st : Static) (context : FunctionContext) : (f : FunDeclOf Stmt) →
    Stmt.FunWellFormed f → (st.funDecl context f).errors = [] →
      ∀ scope ∈ Stmt.funLocalScopes f, scope.Separate
  | ⟨_, params, body⟩, hf, he => by
    simp only [funDecl, Findings.errors_append, List.append_eq_nil_iff] at he
    have hinside : ({ st with function := context }.enter []).IsInside := ⟨_, _, rfl⟩
    have hbody := apart_stmts body (declaresHere_params (z := "") hinside).1 hf.2 he.2
    refine List.forall_mem_cons.mpr ⟨⟨hf.1, hf.2, fun p hp s hs t ht heq => ?_, hbody.2⟩,
      separate_stmts _ body hf.2 he.2⟩
    have hfree := hbody.1 s hs t ht
    rw [(declaresHere_params hinside).2 (.inr ⟨p, hp, heq.symm⟩)] at hfree
    cases hfree

theorem separate_methods (st : Static) : (fs : List (FunDeclOf Stmt)) →
    Stmt.MethodsWellFormed fs → (st.methods fs).errors = [] →
      ∀ scope ∈ Stmt.methodLocalScopes fs, scope.Separate
  | [], _, _ => fun _ h => nomatch h
  | f :: fs, hf, he => by
    simp only [methods, Findings.errors_append, List.append_eq_nil_iff] at he
    exact List.forall_mem_append.mpr ⟨separate_fun st _ f hf.1 he.1,
      separate_methods st fs hf.2 he.2⟩

end

end Static

end LoxWalk
