import LoxWalk.Proofs.Binding.Rules
import LoxWalk.Proofs.Session.Distances

/-!
# The lexical depth of a reference

Where a name is declared can be read off the text.  `Surroundings` are the names that are declared
at a place in the scopes around it: those of each block, of each function with its parameters, and
of the layers for `this` and `super` around the methods of a class.  `references` lists the
references of a unit, each with its surroundings; it says nothing of how names are looked up, and
nothing of errors.

The distances that are noted for a unit are the numbers of scopes between the references and the
innermost scopes that declare their names, whether or not the unit breaks a rule.
-/

namespace LoxWalk

/-! ## References in their places -/

/-- The names that are declared at a place of the text, for each scope around it and innermost
first, and whether the nearest class around it has a superclass. -/
structure Surroundings where
  scopes : List (List String)
  inClass : Option Bool

namespace Surroundings

/-- Nothing is around the statements of a unit. -/
def top : Surroundings :=
  ⟨[], none⟩

/-- A place in one more scope, where the given names are declared. -/
def enter (p : Surroundings) (names : List String) : Surroundings :=
  { p with scopes := names :: p.scopes }

/-- The place behind declarations in the innermost scope; the top level is no scope. -/
def behind (p : Surroundings) (names : List String) : Surroundings :=
  match p.scopes with
  | [] => p
  | scope :: outer => { p with scopes := (scope ++ names) :: outer }

/-- The place of a superclass. -/
def superclass (p : Surroundings) : Surroundings :=
  { p with inClass := some true }

/-- The place of the methods of a class: inside a layer for `this`, and outside it one for `super`
if there is a superclass. -/
def methods (p : Surroundings) : Bool → Surroundings
  | true => (p.superclass.enter [superName]).enter [thisName]
  | false => { p with inClass := some false }.enter [thisName]

end Surroundings

/-- What a reference refers to. -/
inductive Referent where
  | variable
  | this
  | super

/-- A reference in its place; its token is its name. -/
structure Reference where
  id : NodeId
  referent : Referent
  token : Token
  place : Surroundings

namespace Reference

/-- The rule that a reference breaks. -/
def fault? (r : Reference) : Option ResolveFault :=
  match r.referent, r.place.inClass with
  | .this, none => some .thisOutsideClass
  | .super, none => some .superOutsideClass
  | .super, some false => some .superWithoutSuperclass
  | _, _ => none

/-- The report of the rule that a reference breaks. -/
def error? (r : Reference) : Option ResolveError :=
  r.fault?.map (.atToken r.token)

/-- So many scopes lie between a reference and the innermost scope that declares its name. -/
def Depth (r : Reference) (d : Nat) : Prop :=
  ∃ inner names outer, r.place.scopes = inner ++ names :: outer ∧ inner.length = d ∧
    r.token.lexeme ∈ names ∧ ∀ between ∈ inner, r.token.lexeme ∉ between

/-- No scope around a reference declares its name. -/
def IsGlobal (r : Reference) : Prop :=
  ∀ names ∈ r.place.scopes, r.token.lexeme ∉ names

end Reference

/-- Whether a rule is about `this` or `super` alone. -/
def ResolveFault.isMisplaced : ResolveFault → Bool
  | .thisOutsideClass => true
  | .superOutsideClass => true
  | .superWithoutSuperclass => true
  | _ => false

mutual

/-- The references in an expression; what is assigned comes before the place it is assigned to. -/
def Expr.references (p : Surroundings) : Expr → List Reference
  | .literal _ => []
  | .group inner => inner.references p
  | .unary _ operand => operand.references p
  | .binary left _ right => left.references p ++ right.references p
  | .logical left _ right => left.references p ++ right.references p
  | .var id name => [⟨id, .variable, name, p⟩]
  | .assign id name value => value.references p ++ [⟨id, .variable, name, p⟩]
  | .call callee _ arguments => callee.references p ++ Expr.allReferences p arguments
  | .get object _ => object.references p
  | .set object _ value => value.references p ++ object.references p
  | .this id keyword => [⟨id, .this, keyword, p⟩]
  | .super id keyword _ => [⟨id, .super, keyword, p⟩]

/-- The references in several expressions. -/
def Expr.allReferences (p : Surroundings) : List Expr → List Reference
  | [] => []
  | e :: es => e.references p ++ Expr.allReferences p es

end

/-- The references in an expression that may be left out. -/
def Expr.references? (p : Surroundings) : Option Expr → List Reference
  | some e => e.references p
  | none => []

mutual

/-- The references in a statement.  A variable, a function and a class are declared before their
initializer, their body and their methods. -/
def Stmt.references (p : Surroundings) : Stmt → List Reference
  | .expression e => e.references p
  | .print e => e.references p
  | .var name initializer => Expr.references? (p.behind [name.lexeme]) initializer
  | .block body => Stmt.allReferences (p.enter []) body
  | .if_ condition thenBranch none => condition.references p ++ thenBranch.references p
  | .if_ condition thenBranch (some elseBranch) =>
    condition.references p ++ thenBranch.references p
      ++ elseBranch.references (p.behind thenBranch.names)
  | .while_ condition body => condition.references p ++ body.references p
  | .fun_ f => Stmt.funReferences (p.behind [f.name.lexeme]) f
  | .return_ _ value => Expr.references? p value
  | .class_ name superclass methods =>
    Expr.references? (p.behind [name.lexeme]).superclass superclass
      ++ Stmt.methodReferences ((p.behind [name.lexeme]).methods superclass.isSome) methods

/-- The references in statements that follow each other. -/
def Stmt.allReferences (p : Surroundings) : List Stmt → List Reference
  | [] => []
  | t :: ts => t.references p ++ Stmt.allReferences (p.behind t.names) ts

/-- The references in a function: its parameters and its body share one scope. -/
def Stmt.funReferences (p : Surroundings) : FunDeclOf Stmt → List Reference
  | ⟨_, params, body⟩ => Stmt.allReferences (p.enter (params.map Token.lexeme)) body

/-- The references in the methods of a class. -/
def Stmt.methodReferences (p : Surroundings) : List (FunDeclOf Stmt) → List Reference
  | [] => []
  | f :: fs => Stmt.funReferences p f ++ Stmt.methodReferences p fs

end

/-- The references in a unit. -/
def references (unit : List Stmt) : List Reference :=
  Stmt.allReferences .top unit

/-! ## Depths -/

namespace Reference

/-- The identity and the depth of a reference, if it is to have one. -/
def recorded? (r : Reference) : Option (NodeId × Nat) :=
  if r.fault? = none then (r.place.scopes.findIdx? (r.token.lexeme ∈ ·)).map (r.id, ·) else none

theorem depth_iff (r : Reference) (d : Nat) :
    r.Depth d ↔ r.place.scopes.findIdx? (r.token.lexeme ∈ ·) = some d := by
  unfold Depth
  generalize r.place.scopes = scopes
  constructor
  · rintro ⟨inner, names, outer, rfl, rfl, hnames, hinner⟩
    have hnone : inner.findIdx? (r.token.lexeme ∈ ·) = none := by simpa using hinner
    simp [List.findIdx?_append, List.findIdx?_cons, hnone, hnames]
  · intro h
    obtain ⟨hlt, hnames, hinner⟩ := List.findIdx?_eq_some_iff_getElem.mp h
    refine ⟨scopes.take d, scopes[d], scopes.drop (d + 1), ?_, by simp; omega,
      by simpa using hnames, fun between hbetween => ?_⟩
    · rw [← List.drop_eq_getElem_cons, List.take_append_drop]
    · obtain ⟨k, hk, rfl⟩ := List.mem_take_iff_getElem.mp hbetween
      simpa using hinner k (by omega)

theorem isGlobal_iff (r : Reference) :
    r.IsGlobal ↔ r.place.scopes.findIdx? (r.token.lexeme ∈ ·) = none := by
  simp [IsGlobal, List.findIdx?_eq_none_iff]

end Reference

/-! ## What the walk knows of a place -/

namespace Static

/-- The walk knows of the scopes and the class around a place. -/
structure Knows (st : Static) (p : Surroundings) : Prop where
  scopes : List.Forall₂ (fun scope names => ∀ x, scope.contains x = decide (x ∈ names))
    st.scopes p.scopes
  inClass : st.inClass = classContextOf p.inClass

namespace Knows

variable {st : Static} {p : Surroundings}

theorem distance?_eq (h : st.Knows p) (x : String) :
    st.distance? x = p.scopes.findIdx? (x ∈ ·) := by
  have hscopes := h.scopes
  unfold Static.distance?
  generalize st.scopes = scopes at hscopes
  generalize p.scopes = names at hscopes
  induction hscopes with
  | nil => rfl
  | cons hnames _ ih => rw [List.findIdx?_cons, List.findIdx?_cons, hnames, ih]

/-- A name is known behind its declaration, be its initializer over or not. -/
theorem of_declares {st' : Static} {x : String} (h : st.Knows p) (hclass : st'.inClass = st.inClass)
    (hnil : st.scopes = [] → st' = st)
    (hcons : ∀ scope outer, st.scopes = scope :: outer → ∃ scope', st'.scopes = scope' :: outer ∧
      ∀ y, scope'.contains y = (decide (x = y) || scope.contains y)) :
    st'.Knows (p.behind [x]) := by
  obtain ⟨scopes, inClass⟩ := p
  have hscopes := h.scopes
  generalize hs : st.scopes = known at hscopes
  cases hscopes with
  | nil => exact hnil hs ▸ h
  | @cons scope names outer outer' hnames houter =>
    obtain ⟨scope', hs', hnames'⟩ := hcons scope outer hs
    refine ⟨?_, hclass.trans h.inClass⟩
    rw [hs']
    refine .cons (fun y => ?_) houter
    rw [hnames', hnames]
    simp [eq_comm, Bool.or_comm, Bool.decide_or]

theorem declare (h : st.Knows p) (name : Token) :
    (st.declare name).Knows (p.behind [name.lexeme]) :=
  h.of_declares (st.inClass_declare name) (fun hs => scopes_declare_nil hs name)
    fun _ _ hs => scopes_declare_cons hs name

theorem declared (h : st.Knows p) (name : Token) :
    (st.declared name).Knows (p.behind [name.lexeme]) :=
  h.of_declares (st.inClass_declared name) (fun hs => scopes_declared_nil hs name)
    fun _ _ hs => scopes_declared_cons hs name

theorem block (h : st.Knows p) : (st.enter []).Knows (p.enter []) :=
  ⟨.cons (fun _ => rfl) h.scopes, h.inClass⟩

/-- A layer declares one name. -/
theorem layer (h : st.Knows p) (x : String) : (st.enter [x]).Knows (p.enter [x]) := by
  refine ⟨.cons (fun y => ?_) h.scopes, h.inClass⟩
  show (NameMap.empty.insert x true).contains y = _
  rw [NameMap.contains_insert]
  simp [eq_comm]

theorem superclass (h : st.Knows p) : Knows { st with inClass := .derived } p.superclass :=
  ⟨h.scopes, rfl⟩

theorem methodsPlace (h : st.Knows p) (hasSuperclass : Bool) :
    (st.methodsPlace hasSuperclass).Knows (p.methods hasSuperclass) := by
  cases hasSuperclass with
  | true => exact (h.superclass.layer superName).layer thisName
  | false =>
    have hbase : Knows { st with inClass := .base } { p with inClass := some false } :=
      ⟨h.scopes, rfl⟩
    exact hbase.layer thisName

end Knows

end Static

namespace Surroundings

theorem behind_behind (p : Surroundings) (names more : List String) :
    (p.behind names).behind more = p.behind (names ++ more) := by
  obtain ⟨scopes, inClass⟩ := p
  cases scopes with
  | nil => rfl
  | cons scope outer => simp [behind]

theorem behind_nil (p : Surroundings) : p.behind [] = p := by
  obtain ⟨scopes, inClass⟩ := p
  cases scopes with
  | nil => rfl
  | cons scope outer => simp [behind]

end Surroundings

/-! ## The walk -/

/-- The findings are what is to be recorded of the references, and the errors that are about `this`
and `super` are theirs. -/
structure Findings.Resolve (found : Findings) (rs : List Reference) : Prop where
  bound : found.bound.map (fun b => (b.id, b.distance)) = rs.filterMap Reference.recorded?
  errors : found.errors.filter (·.fault.isMisplaced) = rs.filterMap Reference.error?

namespace Findings.Resolve

variable {f g : Findings} {a b : List Reference}

theorem none : Resolve .none [] :=
  ⟨rfl, rfl⟩

theorem append (hf : Resolve f a) (hg : Resolve g b) : Resolve (f ++ g) (a ++ b) := by
  refine ⟨?_, ?_⟩
  · rw [Findings.bound_append, List.map_append, hf.bound, hg.bound, List.filterMap_append]
  · rw [Findings.errors_append, List.filter_append, hf.errors, hg.errors, List.filterMap_append]

/-- A broken rule about something else. -/
theorem brokenIf (condition : Bool) (t : Token) {fault : ResolveFault}
    (hfault : fault.isMisplaced = false) : Resolve (.brokenIf condition t fault) [] := by
  refine ⟨congrArg (List.map _) (bound_brokenIf condition t fault), ?_⟩
  cases condition with
  | false => rfl
  | true => simp [Findings.brokenIf, Findings.broken, ResolveError.atToken, hfault]

theorem behind {condition : Bool} {t : Token} {fault : ResolveFault} (hf : Resolve f a)
    (hfault : fault.isMisplaced = false) : Resolve (.brokenIf condition t fault ++ f) a :=
  (brokenIf condition t hfault).append hf

/-- A reference that breaks no rule is bound at its depth. -/
theorem bind {st : Static} {r : Reference} (h : st.Knows r.place)
    (hfault : r.fault? = Option.none) :
    Resolve (st.bind r.id r.token) [r] := by
  refine ⟨?_, ?_⟩
  · simp only [Static.bind, h.distance?_eq, List.filterMap_cons, Reference.recorded?, hfault,
      if_true]
    cases r.place.scopes.findIdx? (r.token.lexeme ∈ ·) <;> rfl
  · rw [Static.errors_bind, List.filterMap_cons, Reference.error?, hfault]
    rfl

/-- A reference that breaks a rule is reported. -/
theorem broken {r : Reference} {fault : ResolveFault} (hfault : r.fault? = some fault)
    (hmisplaced : fault.isMisplaced = true) : Resolve (.broken r.token fault) [r] := by
  refine ⟨?_, ?_⟩
  · rw [List.filterMap_cons, Reference.recorded?, hfault]
    rfl
  · rw [List.filterMap_cons, Reference.error?, hfault]
    simp [Findings.broken, ResolveError.atToken, hmisplaced]

end Findings.Resolve

namespace Static

variable {st : Static} {p : Surroundings}

mutual

theorem resolve_expr (h : st.Knows p) : (e : Expr) → (st.expr e).Resolve (e.references p)
  | .literal _ => .none
  | .group inner => resolve_expr h inner
  | .unary _ operand => resolve_expr h operand
  | .binary left _ right => (resolve_expr h left).append (resolve_expr h right)
  | .logical left _ right => (resolve_expr h left).append (resolve_expr h right)
  | .var id name => .behind (.bind (r := ⟨id, .variable, name, p⟩) h rfl) rfl
  | .assign id name value =>
    (resolve_expr h value).append (.bind (r := ⟨id, .variable, name, p⟩) h rfl)
  | .call callee _ arguments => (resolve_expr h callee).append (resolve_exprs h arguments)
  | .get object _ => resolve_expr h object
  | .set object _ value => (resolve_expr h value).append (resolve_expr h object)
  | .this id keyword => by
    have hclass := h.inClass
    rw [expr, hclass]
    cases hp : p.inClass with
    | none =>
      exact .broken (r := ⟨id, .this, keyword, p⟩) (by rw [Reference.fault?, hp]) rfl
    | some hasSuperclass =>
      have hfault : Reference.fault? ⟨id, .this, keyword, p⟩ = none := by
        rw [Reference.fault?, hp]
      cases hasSuperclass <;> exact .bind (r := ⟨id, .this, keyword, p⟩) h hfault
  | .super id keyword _ => by
    have hclass := h.inClass
    rw [expr, hclass]
    cases hp : p.inClass with
    | none =>
      exact .broken (r := ⟨id, .super, keyword, p⟩) (by rw [Reference.fault?, hp]) rfl
    | some hasSuperclass =>
      cases hasSuperclass with
      | false =>
        exact .broken (r := ⟨id, .super, keyword, p⟩) (by rw [Reference.fault?, hp]) rfl
      | true =>
        exact .bind (r := ⟨id, .super, keyword, p⟩) h (by rw [Reference.fault?, hp])

theorem resolve_exprs (h : st.Knows p) :
    (es : List Expr) → (st.exprs es).Resolve (Expr.allReferences p es)
  | [] => .none
  | e :: es => (resolve_expr h e).append (resolve_exprs h es)

end

theorem resolve_expr? (h : st.Knows p) (e : Option Expr) :
    (st.expr? e).Resolve (Expr.references? p e) := by
  cases e with
  | none => exact .none
  | some e => exact resolve_expr h e

theorem resolve_superclass (h : st.Knows p) (name : Token) (e : Option Expr) :
    (st.superclass name e).Resolve (Expr.references? p.superclass e) := by
  cases e with
  | none => exact .none
  | some e =>
    have he := resolve_expr h.superclass e
    cases e with
    | var id superclass => exact he.behind rfl
    | _ => exact he

/-- Parameters are declared one after the other, and refer to nothing. -/
theorem resolve_params (h : st.Knows p) (ps : List Token) :
    (st.params ps).1.Knows (p.behind (ps.map Token.lexeme)) ∧ (st.params ps).2.Resolve [] := by
  induction ps generalizing st p with
  | nil =>
    rw [List.map_nil, Surroundings.behind_nil]
    exact ⟨h, .none⟩
  | cons t ps ih =>
    obtain ⟨hknows, hfound⟩ := ih (h.declared t)
    rw [Surroundings.behind_behind] at hknows
    exact ⟨hknows, hfound.behind rfl⟩

mutual

/-- What is found in a statement is what is to be recorded of its references, and behind it the
walk knows of the place again. -/
theorem resolve_stmt : (t : Stmt) → {st : Static} → {p : Surroundings} → st.Knows p →
    (st.stmt t).1.Knows (p.behind t.names) ∧ (st.stmt t).2.Resolve (t.references p)
  | .expression e, st, p, h => ⟨p.behind_nil.symm ▸ h, resolve_expr h e⟩
  | .print e, st, p, h => ⟨p.behind_nil.symm ▸ h, resolve_expr h e⟩
  | .var name initializer, st, p, h =>
    ⟨h.declared name, (resolve_expr? (h.declare name) initializer).behind rfl⟩
  | .block body, st, p, h => ⟨p.behind_nil.symm ▸ h, resolve_stmts body h.block⟩
  | .if_ condition thenBranch none, st, p, h => by
    obtain ⟨hknows, hthen⟩ := resolve_stmt thenBranch h
    exact ⟨hknows, (resolve_expr h condition).append hthen⟩
  | .if_ condition thenBranch (some elseBranch), st, p, h => by
    obtain ⟨hknows, hthen⟩ := resolve_stmt thenBranch h
    obtain ⟨hknows', helse⟩ := resolve_stmt elseBranch hknows
    rw [Surroundings.behind_behind] at hknows'
    exact ⟨hknows', ((resolve_expr h condition).append hthen).append helse⟩
  | .while_ condition body, st, p, h => by
    obtain ⟨hknows, hbody⟩ := resolve_stmt body h
    exact ⟨hknows, (resolve_expr h condition).append hbody⟩
  | .fun_ f, st, p, h =>
    have hinside := h.declared f.name
    ⟨hinside, (resolve_funDecl f hinside .function).behind rfl⟩
  | .return_ keyword value, st, p, h => by
    refine ⟨p.behind_nil.symm ▸ h, ?_⟩
    have hreturned : (st.returned keyword value.isSome).Resolve [] :=
      .behind (.brokenIf _ _ rfl) rfl
    exact hreturned.append (resolve_expr? h value)
  | .class_ name superclass methods, st, p, h => by
    have hinside := h.declared name
    refine ⟨hinside, ?_⟩
    have hsuperclass := resolve_superclass hinside name superclass
    have hmethods := resolve_methods methods (hinside.methodsPlace superclass.isSome)
    exact (hsuperclass.behind rfl).append hmethods

theorem resolve_stmts : (ts : List Stmt) → {st : Static} → {p : Surroundings} → st.Knows p →
    (st.stmts ts).2.Resolve (Stmt.allReferences p ts)
  | [], _, _, _ => .none
  | t :: ts, st, p, h => by
    obtain ⟨hknows, ht⟩ := resolve_stmt t h
    exact ht.append (resolve_stmts ts hknows)

theorem resolve_funDecl : (f : FunDeclOf Stmt) → {st : Static} → {p : Surroundings} → st.Knows p →
    (context : FunctionContext) → (st.funDecl context f).Resolve (Stmt.funReferences p f)
  | ⟨_, params, body⟩, st, p, h, context => by
    have hinside : ({ st with function := context }.enter []).Knows (p.enter []) :=
      ⟨.cons (fun _ => rfl) h.scopes, h.inClass⟩
    obtain ⟨hparams, hfound⟩ := resolve_params hinside params
    exact hfound.append (resolve_stmts body hparams)

theorem resolve_methods : (fs : List (FunDeclOf Stmt)) → {st : Static} → {p : Surroundings} →
    st.Knows p → (st.methods fs).Resolve (Stmt.methodReferences p fs)
  | [], _, _, _ => .none
  | f :: fs, _, _, h =>
    (resolve_funDecl f h (methodContext f)).append (resolve_methods fs h)

end

end Static

theorem resolve_findings (unit : List Stmt) : (findings unit).Resolve (references unit) :=
  Static.resolve_stmts unit ⟨.nil, rfl⟩

/-! ## References and identities -/

mutual

theorem Expr.map_id_references (p : Surroundings) :
    (e : Expr) → ((e.references p).map Reference.id).Perm e.ids
  | .literal _ => .refl _
  | .group inner => inner.map_id_references p
  | .unary _ operand => operand.map_id_references p
  | .binary left _ right => by
    rw [references, List.map_append]
    exact (left.map_id_references p).append (right.map_id_references p)
  | .logical left _ right => by
    rw [references, List.map_append]
    exact (left.map_id_references p).append (right.map_id_references p)
  | .var _ _ => .refl _
  | .assign _ _ value => by
    rw [references, List.map_append]
    exact (value.map_id_references p).append (.refl _)
  | .call callee _ arguments => by
    rw [references, List.map_append]
    exact (callee.map_id_references p).append (Expr.map_id_allReferences p arguments)
  | .get object _ => object.map_id_references p
  | .set object _ value => by
    rw [references, List.map_append]
    exact ((value.map_id_references p).append (object.map_id_references p)).trans
      List.perm_append_comm
  | .this _ _ => .refl _
  | .super _ _ _ => .refl _

theorem Expr.map_id_allReferences (p : Surroundings) :
    (es : List Expr) → ((Expr.allReferences p es).map Reference.id).Perm (Expr.allIds es)
  | [] => .refl _
  | e :: es => by
    rw [allReferences, List.map_append]
    exact (e.map_id_references p).append (Expr.map_id_allReferences p es)

end

theorem Expr.map_id_references? (p : Surroundings) (e : Option Expr) :
    ((Expr.references? p e).map Reference.id).Perm (Expr.ids? e) := by
  cases e with
  | none => exact .refl _
  | some e => exact e.map_id_references p

mutual

theorem Stmt.map_id_references :
    (t : Stmt) → (p : Surroundings) → ((t.references p).map Reference.id).Perm t.ids
  | .expression e, p => e.map_id_references p
  | .print e, p => e.map_id_references p
  | .var _ initializer, _ => Expr.map_id_references? _ initializer
  | .block body, _ => Stmt.map_id_allReferences body _
  | .if_ condition thenBranch none, p => by
    rw [references, List.map_append]
    exact (condition.map_id_references p).append (thenBranch.map_id_references p)
  | .if_ condition thenBranch (some elseBranch), p => by
    rw [references, List.map_append, List.map_append, List.append_assoc]
    exact (condition.map_id_references p).append
      ((thenBranch.map_id_references p).append (elseBranch.map_id_references _))
  | .while_ condition body, p => by
    rw [references, List.map_append]
    exact (condition.map_id_references p).append (body.map_id_references p)
  | .fun_ f, _ => Stmt.map_id_funReferences f _
  | .return_ _ value, p => Expr.map_id_references? p value
  | .class_ _ superclass methods, _ => by
    rw [references, List.map_append]
    exact (Expr.map_id_references? _ superclass).append (Stmt.map_id_methodReferences methods _)

theorem Stmt.map_id_allReferences : (ts : List Stmt) → (p : Surroundings) →
    ((Stmt.allReferences p ts).map Reference.id).Perm (Stmt.allIds ts)
  | [], _ => .refl _
  | t :: ts, p => by
    rw [allReferences, List.map_append]
    exact (t.map_id_references p).append (Stmt.map_id_allReferences ts _)

theorem Stmt.map_id_funReferences : (f : FunDeclOf Stmt) → (p : Surroundings) →
    ((Stmt.funReferences p f).map Reference.id).Perm (Stmt.funIds f)
  | ⟨_, _, body⟩, _ => Stmt.map_id_allReferences body _

theorem Stmt.map_id_methodReferences : (fs : List (FunDeclOf Stmt)) → (p : Surroundings) →
    ((Stmt.methodReferences p fs).map Reference.id).Perm (Stmt.methodIds fs)
  | [], _ => .refl _
  | f :: fs, p => by
    rw [methodReferences, List.map_append]
    exact (Stmt.map_id_funReferences f p).append (Stmt.map_id_methodReferences fs p)

end

/-! ## Tables -/

/-- What is recorded of a reference has its identity. -/
theorem Reference.id_of_recorded? {r : Reference} {id : NodeId} {d : Nat}
    (h : r.recorded? = some (id, d)) : id = r.id := by
  unfold recorded? at h
  split at h
  · obtain ⟨k, -, hk⟩ := Option.map_eq_some_iff.mp h
    exact (Prod.mk.inj hk).1.symm
  · cases h

/-- A table tells of some references what was found: the distances of those that were bound, and
that the others have none. -/
structure Findings.Tabulated (found : Findings) (ids : List NodeId)
    (distance? : NodeId → Option Nat) : Prop where
  bound : ∀ b ∈ found.bound, distance? b.id = some b.distance
  unbound : ∀ id ∈ ids, (∀ b ∈ found.bound, b.id ≠ id) → distance? id = Option.none

/-- No reference is found with two distances. -/
def Findings.Consistent (found : Findings) : Prop :=
  ∀ b ∈ found.bound, ∀ b' ∈ found.bound, b'.id = b.id → b'.distance = b.distance

namespace Findings.Resolve

variable {found : Findings} {rs : List Reference}

/-- What is found is what is to be recorded of a reference. -/
theorem exists_reference (h : found.Resolve rs) {b : BoundReference} (hb : b ∈ found.bound) :
    ∃ r ∈ rs, r.recorded? = some (b.id, b.distance) := by
  have hmem : (b.id, b.distance) ∈ rs.filterMap Reference.recorded? :=
    h.bound ▸ List.mem_map_of_mem hb
  exact List.mem_filterMap.mp hmem

/-- What is found for the identity of a reference is what is to be recorded of it. -/
theorem recorded?_eq (h : found.Resolve rs) (hn : (rs.map Reference.id).Nodup) {r : Reference}
    (hr : r ∈ rs) {b : BoundReference} (hb : b ∈ found.bound) (hid : b.id = r.id) :
    r.recorded? = some (b.id, b.distance) := by
  obtain ⟨r', hr', hrecorded⟩ := h.exists_reference hb
  have hid' : r'.id = r.id := (Reference.id_of_recorded? hrecorded).symm.trans hid
  rwa [List.inj_on_of_nodup_map hn hr' hr hid'] at hrecorded

/-- A table with the findings has of each reference what is to be recorded of it. -/
theorem distance?_eq (h : found.Resolve rs) (hn : (rs.map Reference.id).Nodup) {ids : List NodeId}
    {distance? : NodeId → Option Nat} (ht : found.Tabulated ids distance?) {r : Reference}
    (hr : r ∈ rs) (hid : r.id ∈ ids) : distance? r.id = r.recorded?.map Prod.snd := by
  cases hrecorded : r.recorded? with
  | none =>
    refine ht.unbound r.id hid fun b hb hid => ?_
    rw [h.recorded?_eq hn hr hb hid] at hrecorded
    cases hrecorded
  | some pair =>
    obtain ⟨id, d⟩ := pair
    obtain rfl := Reference.id_of_recorded? hrecorded
    have hmem : (r.id, d) ∈ found.bound.map fun b => (b.id, b.distance) :=
      h.bound ▸ List.mem_filterMap.mpr ⟨r, hr, hrecorded⟩
    obtain ⟨b, hb, hpair⟩ := List.mem_map.mp hmem
    obtain ⟨hb', rfl⟩ := Prod.mk.inj hpair
    exact hb' ▸ ht.bound b hb

/-- What is read has every identity once, so no reference is found with two distances. -/
theorem consistent (h : found.Resolve rs) (hn : (rs.map Reference.id).Nodup) :
    found.Consistent := by
  intro b hb b' hb' hid
  obtain ⟨r, hr, hrecorded⟩ := h.exists_reference hb
  have hsame := h.recorded?_eq hn hr hb' (hid.trans (Reference.id_of_recorded? hrecorded))
  rw [hrecorded, Option.some.injEq, Prod.mk.injEq] at hsame
  exact hsame.2.symm

end Findings.Resolve

/-- Noting what is found tabulates it. -/
theorem Findings.Consistent.tabulated_noteAll {found : Findings} (h : found.Consistent) {e : Engine}
    {ids : List NodeId} (hfresh : ∀ id ∈ ids, e.distances.distance? id = Option.none) :
    found.Tabulated ids (e.noteAll found.bound).distances.distance? := by
  refine ⟨fun b hb => ?_, fun id hid hne => ?_⟩
  · exact Engine.distance?_noteAll_of_exists ⟨b, hb, rfl⟩ fun b' hb' hid => h b hb b' hb' hid
  · rw [Engine.distance?_noteAll_of_forall_ne hne, hfresh id hid]

/-! ## Main statement -/

section

variable {n : Nat} {ts : List Token} {unit : List Stmt} {e : Engine}

/-- A unit that is read has every identity once, so a reference has one place. -/
theorem nodup_references (hn : (Stmt.allIds unit).Nodup) :
    ((references unit).map Reference.id).Nodup :=
  (Stmt.map_id_allReferences unit .top).nodup_iff.mpr hn

/-- Noting what is found in a unit gives each of its references what is to be recorded of it. -/
theorem distance?_noteAll_reference (hn : (Stmt.allIds unit).Nodup) {r : Reference}
    (hr : r ∈ references unit) (hfresh : e.distances.distance? r.id = none) :
    (e.noteAll (findings unit).bound).distances.distance? r.id = r.recorded?.map Prod.snd := by
  have hresolve := resolve_findings unit
  have htable : (findings unit).Tabulated [r.id]
      (e.noteAll (findings unit).bound).distances.distance? :=
    (hresolve.consistent (nodup_references hn)).tabulated_noteAll
      (List.forall_mem_singleton.mpr hfresh)
  exact hresolve.distance?_eq (nodup_references hn) htable hr (List.mem_singleton_self _)

/-- No reference is found twice. -/
theorem nodup_bound (hn : (Stmt.allIds unit).Nodup) :
    ((findings unit).bound.map BoundReference.id).Nodup := by
  have hids : (findings unit).bound.map BoundReference.id =
      ((references unit).filterMap Reference.recorded?).map Prod.fst := by
    rw [← (resolve_findings unit).bound, List.map_map]
    rfl
  have hsub : ((references unit).filterMap Reference.recorded?).map Prod.fst =
      ((references unit).filter (·.recorded?.isSome)).map Reference.id := by
    induction references unit with
    | nil => rfl
    | cons r rs ih =>
      cases hrecorded : r.recorded? with
      | none => simpa [hrecorded] using ih
      | some pair =>
        obtain ⟨id, d⟩ := pair
        obtain rfl := Reference.id_of_recorded? hrecorded
        simpa [hrecorded] using ih
  rw [hids, hsub]
  exact (nodup_references hn).sublist (List.filter_sublist.map _)

theorem Reference.map_snd_recorded?_eq_some_iff (r : Reference) (d : Nat) :
    r.recorded?.map Prod.snd = some d ↔ r.fault? = none ∧ r.Depth d := by
  rw [depth_iff, recorded?]
  split <;> simp_all

theorem Reference.map_snd_recorded?_eq_none_iff (r : Reference) :
    r.recorded?.map Prod.snd = none ↔ r.fault? ≠ none ∨ r.IsGlobal := by
  rw [isGlobal_iff, recorded?]
  split <;> simp_all

/-- The depths that are recorded for a unit are those of the text.  The references of a unit that is
read are listed with their places, each once, and none of them is found twice.  The depth noted for
a reference is the number of scopes between it and the innermost scope around it that declares its
name at this point of the text.  It has none exactly if no scope around it declares its name, or if
it is a `this` or `super` that breaks a rule; exactly those are reported.  The unit may break any
rule. -/
theorem depth_noted_iff_lexical (hp : (Grammar.program n ts).result = .ok unit)
    (he : ∀ id : NodeId, n ≤ id.index → e.distances.distance? id = none) :
    ((references unit).map Reference.id).Perm (Stmt.allIds unit) ∧
      ((references unit).map Reference.id).Nodup ∧
      ((findings unit).bound.map BoundReference.id).Nodup ∧
      (findings unit).errors.filter (·.fault.isMisplaced) =
        (references unit).filterMap Reference.error? ∧
      ∀ r ∈ references unit,
        (∀ d, (e.noteAll (findings unit).bound).distances.distance? r.id = some d ↔
          r.fault? = none ∧ r.Depth d) ∧
        ((e.noteAll (findings unit).bound).distances.distance? r.id = none ↔
          r.fault? ≠ none ∨ r.IsGlobal) := by
  have hn := Grammar.nodup_of_program_eq_ok hp
  have hperm := Stmt.map_id_allReferences unit .top
  refine ⟨hperm, nodup_references hn, nodup_bound hn, (resolve_findings unit).errors,
    fun r hr => ?_⟩
  have hid : r.id ∈ Stmt.allIds unit := hperm.mem_iff.mp (List.mem_map_of_mem hr)
  have hfresh := he r.id (Grammar.index_of_program_eq_ok hp hid).1
  rw [distance?_noteAll_reference hn hr hfresh]
  exact ⟨r.map_snd_recorded?_eq_some_iff, r.map_snd_recorded?_eq_none_iff⟩

/-- In `class B < A {m() {super.m; this; A;}}` the method has a scope, in the layer of `this`, in
that of `super`. -/
example :
    let word (s : String) : Token := ⟨.identifier, s, 1⟩
    (references [.class_ (word "B") (some (.var ⟨0⟩ (word "A"))) [⟨word "m", [],
        [.expression (.super ⟨1⟩ (word "super") (word "m")), .expression (.this ⟨2⟩ (word "this")),
          .expression (.var ⟨3⟩ (word "A"))]⟩]]).map Reference.recorded? =
      [none, some (⟨1⟩, 2), some (⟨2⟩, 1), none] := by
  decide

end

/-- In `{var a;a;}` no scope lies between the variable and the block that declares it. -/
theorem depth_noted_iff_lexical_block :
    (Grammar.program 0 (Source.tokens "{var a;a;}")).result = .ok Execution.sampleUnit ∧
      ((Engine.new (.clockAt 0) 8 none).noteAll
        (findings Execution.sampleUnit).bound).distances.distance? ⟨0⟩ = some 0 := by
  have hp := Execution.readsAs_sample.parsed
  have hnone : ∀ id : NodeId, 0 ≤ id.index →
      (Engine.new (.clockAt 0) 8 none).distances.distance? id = none := fun _ _ => rfl
  have hr : ⟨⟨0⟩, .variable, ⟨.identifier, "a", 1⟩, ⟨[["a"]], none⟩⟩ ∈
      references Execution.sampleUnit := List.mem_singleton_self _
  have hdepth := ((depth_noted_iff_lexical hp hnone).2.2.2.2 _ hr).1 0
  exact ⟨hp, hdepth.mpr ⟨rfl, [], ["a"], [], rfl, rfl, List.mem_singleton_self _, nofun⟩⟩

end LoxWalk
