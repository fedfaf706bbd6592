import LoxWalk.Proofs.Binding.Fitting

/-!
# The static rules

Which rules hold at a place of the text depends on what is around it: the functions and classes that
enclose it, and what is declared before it in the innermost scope.  An `Occurrence` is a token that
one of the rules is about, together with the constructs around it, and `Occurrence.fault?` says which
rule it breaks.  Nothing is said there of how the rules are checked.

The walk over a unit reports exactly the occurrences that break a rule, each of them once and in the
order of the text, except that in `object.name = value` the value comes first.  It is shown for one
construct after the other that what the walk knows of a place agrees with what is around it
(`Static.Matches`).
-/

namespace LoxWalk

/-! ## Places and rules -/

/-- Something around a place of the text.  The names are those that are declared before the place in
the scope of the block or function. -/
inductive Construct where
  | block (names : List String)
  | function (isMethod : Bool) (name : String) (names : List String)
  | class_ (hasSuperclass : Bool)
  | initializer (name : String)

namespace Construct

/-- The names of the scope that belongs to the construct; classes and initializers have none. -/
def names? : Construct → Option (List String)
  | block names => some names
  | function _ _ names => some names
  | class_ _ => none
  | initializer _ => none

/-- Whether a function is a method, and its name. -/
def function? : Construct → Option (Bool × String)
  | function isMethod name _ => some (isMethod, name)
  | _ => none

/-- Whether a class has a superclass. -/
def class? : Construct → Option Bool
  | class_ hasSuperclass => some hasSuperclass
  | _ => none

/-- The construct behind some more declarations. -/
def declare (names : List String) : Construct → Construct
  | block before => block (before ++ names)
  | function isMethod name before => function isMethod name (before ++ names)
  | c => c

end Construct

/-- What a token is there for, as far as a rule is about it. -/
inductive Role where
  | declaration
  | read
  | return_ (hasValue : Bool)
  | this
  | super
  | superclassOf (name : String)

/-- A token in its place; the constructs around it are given from the inside out. -/
structure Occurrence where
  role : Role
  token : Token
  around : List Construct

namespace Occurrence

/-- The names that are declared before a place in its innermost scope; at the top level there is no
scope. -/
def scope? (around : List Construct) : Option (List String) :=
  around.findSome? Construct.names?

/-- The nearest function around a place. -/
def function? (around : List Construct) : Option (Bool × String) :=
  around.findSome? Construct.function?

/-- The nearest class around a place. -/
def class? (around : List Construct) : Option Bool :=
  around.findSome? Construct.class?

/-- The rule that an occurrence breaks. -/
def fault? (o : Occurrence) : Option ResolveFault :=
  match o.role with
  | .declaration =>
    if (scope? o.around).any (o.token.lexeme ∈ ·) then some .declaredTwice else none
  | .read =>
    match o.around with
    | .initializer x :: outer =>
      -- a second declaration does not make the name unreadable
      if x = o.token.lexeme ∧ (scope? outer).any (x ∉ ·) then some .readInOwnInitializer else none
    | _ => none
  | .return_ hasValue =>
    match function? o.around with
    | none => some .returnAtTopLevel
    | some (isMethod, name) =>
      if isMethod ∧ name = initializerName ∧ hasValue then some .valueFromInitializer else none
  | .this => if (class? o.around).isNone then some .thisOutsideClass else none
  | .super =>
    match class? o.around with
    | none => some .superOutsideClass
    | some false => some .superWithoutSuperclass
    | some true => none
  | .superclassOf name => if o.token.lexeme = name then some .inheritsFromItself else none

/-- The report of the rule that an occurrence breaks. -/
def error? (o : Occurrence) : Option ResolveError :=
  o.fault?.map (.atToken o.token)

end Occurrence

/-- What has to be reported of some occurrences: each that breaks a rule, once and in order. -/
def reports (os : List Occurrence) : List ResolveError :=
  os.filterMap Occurrence.error?

/-! ## Occurrences -/

/-- The constructs around the place behind some declarations. -/
def behind (names : List String) : List Construct → List Construct
  | c :: around => c.declare names :: around
  | [] => []

mutual

/-- The occurrences in an expression. -/
def Expr.occurrences (around : List Construct) : Expr → List Occurrence
  | .literal _ => []
  | .group inner => inner.occurrences around
  | .unary _ operand => operand.occurrences around
  | .binary left _ right => left.occurrences around ++ right.occurrences around
  | .logical left _ right => left.occurrences around ++ right.occurrences around
  | .var _ name => [⟨.read, name, around⟩]
  | .assign _ _ value => value.occurrences around
  | .call callee _ arguments => callee.occurrences around ++ Expr.allOccurrences around arguments
  | .get object _ => object.occurrences around
  | .set object _ value => value.occurrences around ++ object.occurrences around
  | .this _ keyword => [⟨.this, keyword, around⟩]
  | .super _ keyword _ => [⟨.super, keyword, around⟩]

def Expr.allOccurrences (around : List Construct) : List Expr → List Occurrence
  | [] => []
  | e :: es => e.occurrences around ++ Expr.allOccurrences around es

end

def Expr.occurrences? (around : List Construct) : Option Expr → List Occurrence
  | some e => e.occurrences around
  | none => []

/-- The occurrences in the superclass of a class. -/
def Expr.superclassOccurrences (around : List Construct) (name : Token) :
    Option Expr → List Occurrence
  | some (.var id superclass) =>
    ⟨.superclassOf name.lexeme, superclass, around⟩ ::
      Expr.occurrences (.class_ true :: around) (.var id superclass)
  | some e => e.occurrences (.class_ true :: around)
  | none => []

/-- The names that a statement declares in the scope around it. -/
def Stmt.names : Stmt → List String
  | .var name _ => [name.lexeme]
  | .fun_ decl => [decl.name.lexeme]
  | .class_ name _ _ => [name.lexeme]
  | .if_ _ thenBranch none => thenBranch.names
  | .if_ _ thenBranch (some elseBranch) => thenBranch.names ++ elseBranch.names
  | .while_ _ body => body.names
  | _ => []

/-- The parameters of a function. -/
def paramOccurrences (around : List Construct) : List Token → List Occurrence
  | [] => []
  | p :: ps => ⟨.declaration, p, around⟩ :: paramOccurrences (behind [p.lexeme] around) ps

mutual

/-- The occurrences in a statement. -/
def Stmt.occurrences (around : List Construct) : Stmt → List Occurrence
  | .expression e => e.occurrences around
  | .print e => e.occurrences around
  | .var name initializer =>
    ⟨.declaration, name, around⟩ :: Expr.occurrences? (.initializer name.lexeme :: around) initializer
  | .block body => Stmt.allOccurrences (.block [] :: around) body
  | .if_ condition thenBranch none =>
    condition.occurrences around ++ Stmt.occurrences around thenBranch
  | .if_ condition thenBranch (some elseBranch) =>
    condition.occurrences around ++ Stmt.occurrences around thenBranch
      ++ Stmt.occurrences (behind thenBranch.names around) elseBranch
  | .while_ condition body => condition.occurrences around ++ Stmt.occurrences around body
  | .fun_ decl =>
    ⟨.declaration, decl.name, around⟩ ::
      Stmt.funOccurrences (behind [decl.name.lexeme] around) false decl
  | .return_ keyword value =>
    ⟨.return_ value.isSome, keyword, around⟩ :: Expr.occurrences? around value
  | .class_ name superclass methods =>
    let inside := behind [name.lexeme] around
    ⟨.declaration, name, around⟩ :: (Expr.superclassOccurrences inside name superclass
      ++ Stmt.methodOccurrences (.class_ superclass.isSome :: inside) methods)

/-- The occurrences in statements that follow each other. -/
def Stmt.allOccurrences (around : List Construct) : List Stmt → List Occurrence
  | [] => []
  | t :: ts => Stmt.occurrences around t ++ Stmt.allOccurrences (behind t.names around) ts

/-- The occurrences in a function: its parameters and its body share one scope. -/
def Stmt.funOccurrences (around : List Construct) (isMethod : Bool) :
    FunDeclOf Stmt → List Occurrence
  | ⟨name, params, body⟩ =>
    let inside := .function isMethod name.lexeme [] :: around
    paramOccurrences inside params
      ++ Stmt.allOccurrences (behind (params.map Token.lexeme) inside) body

/-- The occurrences in the methods of a class. -/
def Stmt.methodOccurrences (around : List Construct) : List (FunDeclOf Stmt) → List Occurrence
  | [] => []
  | f :: fs => Stmt.funOccurrences around true f ++ Stmt.methodOccurrences around fs

end

/-- The occurrences in a unit. -/
def occurrences (unit : List Stmt) : List Occurrence :=
  Stmt.allOccurrences [] unit

/-! ## What the walk knows of a place -/

namespace Static

/-- The kind of the nearest function. -/
def contextOf : Option (Bool × String) → FunctionContext
  | none => .topLevel
  | some (false, _) => .function
  | some (true, name) => if name == initializerName then .initializer else .method

/-- The kind of the nearest class. -/
def classContextOf : Option Bool → ClassContext
  | none => .outside
  | some false => .base
  | some true => .derived

/-- The innermost scope holds exactly the names that are declared before the place, and none of them
awaits its initializer. -/
inductive Scoped : List (NameMap Bool) → List Construct → Prop where
  | top : Scoped [] []
  | inside {scope : NameMap Bool} {outer : List (NameMap Bool)} {c : Construct}
      {around : List Construct} {names : List String} (hc : c.names? = some names)
      (hnames : ∀ x, scope.get? x = if x ∈ names then some true else none) :
      Scoped (scope :: outer) (c :: around)

/-- What is known at the place of a statement agrees with the constructs around it. -/
structure Matches (st : Static) (around : List Construct) : Prop where
  function : st.function = contextOf (Occurrence.function? around)
  inClass : st.inClass = classContextOf (Occurrence.class? around)
  scopes : Scoped st.scopes around

/-- What is known at the place of an expression agrees with the constructs around it. -/
structure Sees (st : Static) (around : List Construct) : Prop where
  inClass : st.inClass = classContextOf (Occurrence.class? around)
  isPending : ∀ t : Token, (⟨.read, t, around⟩ : Occurrence).fault? =
    if st.isPending t.lexeme then some .readInOwnInitializer else none

end Static

theorem reports_append (os os' : List Occurrence) :
    reports (os ++ os') = reports os ++ reports os' :=
  List.filterMap_append

theorem reports_cons (o : Occurrence) (os : List Occurrence) :
    reports (o :: os) = reports [o] ++ reports os :=
  reports_append [o] os

theorem reports_of_fault? {o : Occurrence} {b : Bool} {f : ResolveFault}
    (h : o.fault? = if b then some f else none) :
    (Findings.brokenIf b o.token f).errors = reports [o] := by
  simp only [reports, List.filterMap_cons, List.filterMap_nil, Occurrence.error?, h]
  cases b <;> rfl

namespace Static

variable {st : Static} {around : List Construct}

/-! ### Declarations -/

/-- A name that is declared for the first time awaits its initializer. -/
theorem get?_declare {scope : NameMap Bool} {outer : List (NameMap Bool)}
    (h : st.scopes = scope :: outer) (name : Token) :
    ∃ scope', (st.declare name).scopes = scope' :: outer ∧
      ∀ x, scope'.get? x = if name.lexeme = x ∧ scope.get? x = none then some false
        else scope.get? x := by
  unfold declare
  rw [h]
  dsimp only
  split
  · rename_i hcontains
    refine ⟨scope, h, fun x => ?_⟩
    rw [if_neg]
    rintro ⟨rfl, hnone⟩
    rw [NameMap.contains, hnone] at hcontains
    cases hcontains
  · rename_i hcontains
    have hnone : scope.get? name.lexeme = none := by
      rwa [NameMap.contains, Bool.not_eq_true, Option.isSome_eq_false_iff, Option.isNone_iff_eq_none]
        at hcontains
    refine ⟨_, rfl, fun x => ?_⟩
    rw [NameMap.get?_insert]
    by_cases hx : name.lexeme = x
    · rw [if_pos hx, if_pos ⟨hx, hx ▸ hnone⟩]
    · rw [if_neg hx, if_neg fun hand => hx hand.1]

theorem get?_declared {scope : NameMap Bool} {outer : List (NameMap Bool)}
    (h : st.scopes = scope :: outer) (name : Token) :
    ∃ scope', (st.declared name).scopes = scope' :: outer ∧
      ∀ x, scope'.get? x = if name.lexeme = x then some true else scope.get? x := by
  obtain ⟨scope', h', hget⟩ := get?_declare h name
  refine ⟨_, scopes_define_cons h' name, fun x => ?_⟩
  rw [NameMap.get?_insert, hget]
  by_cases hx : name.lexeme = x
  · rw [if_pos hx, if_pos hx]
  · rw [if_neg hx, if_neg hx, if_neg fun hand => hx hand.1]

theorem names?_declare {c : Construct} {names more : List String} (h : c.names? = some names) :
    (c.declare more).names? = some (names ++ more) := by
  cases c <;> cases h <;> rfl

theorem function?_declare (c : Construct) (names : List String) :
    (c.declare names).function? = c.function? := by
  cases c <;> rfl

theorem class?_declare (c : Construct) (names : List String) :
    (c.declare names).class? = c.class? := by
  cases c <;> rfl

theorem function?_behind (names : List String) (around : List Construct) :
    Occurrence.function? (behind names around) = Occurrence.function? around := by
  cases around with
  | nil => rfl
  | cons c around =>
    simp only [behind, Occurrence.function?, List.findSome?_cons, function?_declare]

theorem class?_behind (names : List String) (around : List Construct) :
    Occurrence.class? (behind names around) = Occurrence.class? around := by
  cases around with
  | nil => rfl
  | cons c around => simp only [behind, Occurrence.class?, List.findSome?_cons, class?_declare]

theorem behind_behind (names more : List String) (around : List Construct) :
    behind more (behind names around) = behind (names ++ more) around := by
  cases around with
  | nil => rfl
  | cons c around => cases c <;> simp [behind, Construct.declare]

theorem behind_nil (around : List Construct) : behind [] around = around := by
  cases around with
  | nil => rfl
  | cons c around => cases c <;> simp [behind, Construct.declare]

namespace Matches

/-- What is known behind a declaration agrees with what is around the place behind it. -/
theorem declared (h : st.Matches around) (name : Token) :
    (st.declared name).Matches (behind [name.lexeme] around) := by
  refine ⟨?_, ?_, ?_⟩
  · rw [function_declared, function?_behind, h.function]
  · rw [inClass_declared, class?_behind, h.inClass]
  · have hscopes := h.scopes
    generalize hs : st.scopes = scopes at hscopes
    cases hscopes with
    | top =>
      rw [scopes_declared_nil hs, hs]
      exact .top
    | @inside scope outer c around names hc hnames =>
      obtain ⟨scope', hs', hget⟩ := get?_declared hs name
      rw [hs']
      refine .inside (names?_declare hc) fun x => ?_
      rw [hget, hnames]
      by_cases hx : name.lexeme = x
      · simp [hx]
      · simp [hx, Ne.symm hx]

theorem block (h : st.Matches around) : (st.enter []).Matches (.block [] :: around) :=
  ⟨h.function, h.inClass, .inside rfl fun _ => rfl⟩

theorem declaresHere (h : st.Matches around) (x : String) :
    st.declaresHere x = (Occurrence.scope? around).any (x ∈ ·) := by
  have hscopes := h.scopes
  unfold Static.declaresHere
  generalize st.scopes = scopes at hscopes
  cases hscopes with
  | top => rfl
  | inside hc hnames =>
    rw [Occurrence.scope?, List.findSome?_cons, hc]
    simp only [List.head?_cons, Option.any_some, NameMap.contains, hnames]
    split <;> simp_all

/-- A declaration is reported if its name is declared before the place. -/
theorem redeclaration (h : st.Matches around) (name : Token) :
    (st.redeclaration name).errors = reports [⟨.declaration, name, around⟩] :=
  reports_of_fault? (o := ⟨.declaration, name, around⟩) (by rw [h.declaresHere]; rfl)

/-- No name awaits its initializer where a statement begins. -/
theorem isPending (h : st.Matches around) (x : String) : st.isPending x = false := by
  have hscopes := h.scopes
  unfold Static.isPending
  generalize st.scopes = scopes at hscopes
  cases hscopes with
  | top => rfl
  | inside hc hnames =>
    rw [List.head?_cons, Option.bind_some, hnames]
    split <;> rfl

/-- Outside initializers all names may be read. -/
theorem sees (h : st.Matches around) : st.Sees around := by
  refine ⟨h.inClass, fun t => ?_⟩
  rw [h.isPending]
  have hscopes := h.scopes
  generalize st.scopes = scopes at hscopes
  cases hscopes with
  | top => rfl
  | @inside scope outer c around names hc hnames =>
    cases c with
    | block names => rfl
    | function isMethod name names => rfl
    | class_ hasSuperclass => cases hc
    | initializer name => cases hc

/-- In the initializer of a name the name may not be read, if this is its first declaration in a
scope. -/
theorem initializer (h : st.Matches around) (name : Token) :
    (st.declare name).Sees (.initializer name.lexeme :: around) := by
  refine ⟨(st.inClass_declare name).trans h.inClass, fun t => ?_⟩
  have hscopes := h.scopes
  unfold Static.isPending
  generalize hs : st.scopes = scopes at hscopes
  cases hscopes with
  | top =>
    rw [scopes_declare_nil hs, hs]
    simp [Occurrence.fault?, Occurrence.scope?]
  | @inside scope outer c around names hc hnames =>
    obtain ⟨scope', hs', hget⟩ := get?_declare hs name
    rw [hs']
    simp only [List.head?_cons, Option.bind_some, hget, hnames, Occurrence.fault?,
      Occurrence.scope?, List.findSome?_cons, hc, Option.any_some]
    by_cases hx : name.lexeme = t.lexeme
    · by_cases hmem : t.lexeme ∈ names <;> simp [hx, hmem]
    · by_cases hmem : t.lexeme ∈ names <;> simp [hx, hmem]

end Matches

/-! ## The walk -/

mutual

/-- An expression is reported for its occurrences that break a rule. -/
theorem errors_expr (h : st.Sees around) : (e : Expr) →
    (st.expr e).errors = reports (e.occurrences around)
  | .literal _ => rfl
  | .group inner => errors_expr h inner
  | .unary _ operand => errors_expr h operand
  | .binary left _ right => by
    rw [expr, Findings.errors_append, Expr.occurrences, reports_append, errors_expr h left,
      errors_expr h right]
  | .logical left _ right => by
    rw [expr, Findings.errors_append, Expr.occurrences, reports_append, errors_expr h left,
      errors_expr h right]
  | .var id name => by
    rw [expr, Findings.errors_append, errors_bind, List.append_nil]
    exact reports_of_fault? (h.isPending name)
  | .assign id name value => by
    rw [expr, Findings.errors_append, errors_bind, List.append_nil]
    exact errors_expr h value
  | .call callee _ arguments => by
    rw [expr, Findings.errors_append, Expr.occurrences, reports_append, errors_expr h callee,
      errors_exprs h arguments]
  | .get object _ => errors_expr h object
  | .set object _ value => by
    rw [expr, Findings.errors_append, Expr.occurrences, reports_append, errors_expr h value,
      errors_expr h object]
  | .this id keyword => by
    have hclass := h.inClass
    rw [expr, Expr.occurrences, reports, List.filterMap_cons, Occurrence.error?, Occurrence.fault?]
    dsimp only
    rw [hclass]
    cases Occurrence.class? around with
    | none => rfl
    | some hasSuperclass => cases hasSuperclass <;> exact st.errors_bind id keyword
  | .super id keyword _ => by
    have hclass := h.inClass
    rw [expr, Expr.occurrences, reports, List.filterMap_cons, Occurrence.error?, Occurrence.fault?]
    dsimp only
    rw [hclass]
    cases Occurrence.class? around with
    | none => rfl
    | some hasSuperclass =>
      cases hasSuperclass with
      | false => rfl
      | true => exact st.errors_bind id keyword

theorem errors_exprs (h : st.Sees around) : (es : List Expr) →
    (st.exprs es).errors = reports (Expr.allOccurrences around es)
  | [] => rfl
  | e :: es => by
    rw [exprs, Findings.errors_append, Expr.allOccurrences, reports_append, errors_expr h e,
      errors_exprs h es]

end

theorem errors_expr? (h : st.Sees around) (e : Option Expr) :
    (st.expr? e).errors = reports (Expr.occurrences? around e) := by
  cases e with
  | none => rfl
  | some e => exact errors_expr h e

/-- A superclass is evaluated where its class is already known to have one. -/
theorem Matches.superclass (h : st.Matches around) :
    Sees { st with inClass := .derived } (.class_ true :: around) := by
  refine ⟨rfl, fun t => ?_⟩
  have hpending : Static.isPending { st with inClass := .derived } t.lexeme = false :=
    h.isPending t.lexeme
  rw [hpending]
  rfl

theorem errors_superclass (h : st.Matches around) (name : Token) (e : Option Expr) :
    (st.superclass name e).errors = reports (Expr.superclassOccurrences around name e) := by
  have hsees := h.superclass
  cases e with
  | none => rfl
  | some e =>
    cases e with
    | var id superclass =>
      rw [Expr.superclassOccurrences, reports_cons, ← errors_expr hsees, ← reports_of_fault?
        (o := ⟨.superclassOf name.lexeme, superclass, around⟩)
        (b := decide (superclass.lexeme = name.lexeme)) (f := .inheritsFromItself)]
      · rfl
      · simp [Occurrence.fault?]
    | _ => exact errors_expr hsees _

theorem errors_returned (h : st.Matches around) (keyword : Token) (hasValue : Bool) :
    (st.returned keyword hasValue).errors = reports [⟨.return_ hasValue, keyword, around⟩] := by
  rw [returned, h.function]
  simp only [reports, List.filterMap_cons, List.filterMap_nil, Occurrence.error?, Occurrence.fault?]
  cases Occurrence.function? around with
  | none => cases hasValue <;> rfl
  | some f =>
    obtain ⟨isMethod, name⟩ := f
    cases isMethod with
    | false => cases hasValue <;> rfl
    | true =>
      by_cases hname : name = initializerName
      · subst hname
        cases hasValue <;> rfl
      · cases hasValue <;> simp [contextOf, hname]

/-- Parameters are declared one after the other. -/
theorem params_spec (h : st.Matches around) (ps : List Token) :
    (st.params ps).1.Matches (behind (ps.map Token.lexeme) around) ∧
      (st.params ps).2.errors = reports (paramOccurrences around ps) := by
  induction ps generalizing st around with
  | nil =>
    rw [List.map_nil, behind_nil]
    exact ⟨h, rfl⟩
  | cons p ps ih =>
    obtain ⟨hst, herrors⟩ := ih (h.declared p)
    rw [behind_behind] at hst
    refine ⟨hst, ?_⟩
    rw [paramOccurrences, reports_cons, ← h.redeclaration p, ← herrors]
    rfl

theorem inClass_methodsPlace (st : Static) (hasSuperclass : Bool) (around : List Construct) :
    (st.methodsPlace hasSuperclass).inClass =
      classContextOf (Occurrence.class? (.class_ hasSuperclass :: around)) := by
  cases hasSuperclass <;> rfl

mutual

/-- A statement is reported for its occurrences that break a rule, and behind it what is known
agrees with what is around the place again. -/
theorem stmt_spec : (t : Stmt) → {st : Static} → {around : List Construct} → st.Matches around →
    (st.stmt t).1.Matches (behind t.names around) ∧
      (st.stmt t).2.errors = reports (t.occurrences around)
  | .expression e, st, around, h => ⟨(behind_nil around).symm ▸ h, errors_expr h.sees e⟩
  | .print e, st, around, h => ⟨(behind_nil around).symm ▸ h, errors_expr h.sees e⟩
  | .var name initializer, st, around, h => by
    refine ⟨h.declared name, ?_⟩
    rw [Stmt.occurrences, reports_cons, ← h.redeclaration name,
      ← errors_expr? (h.initializer name) initializer]
    rfl
  | .block body, st, around, h => ⟨(behind_nil around).symm ▸ h, stmts_spec body h.block⟩
  | .if_ condition thenBranch none, st, around, h => by
    obtain ⟨hst, herrors⟩ := stmt_spec thenBranch h
    refine ⟨hst, ?_⟩
    rw [Stmt.occurrences, reports_append, ← errors_expr h.sees condition, ← herrors]
    rfl
  | .if_ condition thenBranch (some elseBranch), st, around, h => by
    obtain ⟨hst, herrors⟩ := stmt_spec thenBranch h
    obtain ⟨hst', herrors'⟩ := stmt_spec elseBranch hst
    rw [behind_behind] at hst'
    refine ⟨hst', ?_⟩
    rw [Stmt.occurrences, reports_append, reports_append, ← errors_expr h.sees condition, ← herrors,
      ← herrors']
    rfl
  | .while_ condition body, st, around, h => by
    obtain ⟨hst, herrors⟩ := stmt_spec body h
    refine ⟨hst, ?_⟩
    rw [Stmt.occurrences, reports_append, ← errors_expr h.sees condition, ← herrors]
    rfl
  | .fun_ decl, st, around, h => by
    have hst := h.declared decl.name
    have hdecl := funDecl_spec decl false hst.inClass rfl
    refine ⟨hst, ?_⟩
    rw [Stmt.occurrences, reports_cons, ← h.redeclaration decl.name, ← hdecl]
    rfl
  | .return_ keyword value, st, around, h => by
    refine ⟨(behind_nil around).symm ▸ h, ?_⟩
    rw [Stmt.occurrences, reports_cons, ← errors_returned h, ← errors_expr? h.sees value]
    rfl
  | .class_ name superclass methods, st, around, h => by
    have hst := h.declared name
    have hclass := (st.declared name).inClass_methodsPlace superclass.isSome
      (behind [name.lexeme] around)
    refine ⟨hst, ?_⟩
    rw [Stmt.occurrences, reports_cons, reports_append, ← h.redeclaration name,
      ← errors_superclass hst, ← methods_spec methods hclass, ← List.append_assoc]
    rfl

/-- Statements that follow each other are reported for their occurrences that break a rule. -/
theorem stmts_spec : (ts : List Stmt) → {st : Static} → {around : List Construct} →
    st.Matches around → (st.stmts ts).2.errors = reports (Stmt.allOccurrences around ts)
  | [], _, _, _ => rfl
  | t :: ts, st, around, h => by
    obtain ⟨hst, herrors⟩ := stmt_spec t h
    rw [Stmt.allOccurrences, reports_append, ← herrors, ← stmts_spec ts hst]
    rfl

/-- So is a function; what it needs to know of the place is the nearest class. -/
theorem funDecl_spec : (f : FunDeclOf Stmt) → (isMethod : Bool) → {st : Static} →
    {around : List Construct} → {context : FunctionContext} →
    st.inClass = classContextOf (Occurrence.class? around) →
      context = contextOf (some (isMethod, f.name.lexeme)) →
        (st.funDecl context f).errors = reports (Stmt.funOccurrences around isMethod f)
  | ⟨name, params, body⟩, isMethod, st, around, context, hclass, hcontext => by
    have hinside : ({ st with function := context }.enter []).Matches
        (.function isMethod name.lexeme [] :: around) :=
      ⟨hcontext, hclass, .inside rfl fun _ => rfl⟩
    obtain ⟨hparams, herrors⟩ := params_spec hinside params
    rw [Stmt.funOccurrences, reports_append, ← herrors, ← stmts_spec body hparams]
    rfl

theorem methods_spec : (fs : List (FunDeclOf Stmt)) → {st : Static} → {around : List Construct} →
    st.inClass = classContextOf (Occurrence.class? around) →
      (st.methods fs).errors = reports (Stmt.methodOccurrences around fs)
  | [], _, _, _ => rfl
  | f :: fs, st, around, hclass => by
    have hf : (st.funDecl (methodContext f) f).errors = _ := funDecl_spec f true hclass rfl
    rw [methods, Findings.errors_append, Stmt.methodOccurrences, reports_append, hf,
      methods_spec fs hclass]

end

theorem matches_top : top.Matches [] :=
  ⟨rfl, rfl, .top⟩

end Static

/-! ## Main statement -/

/-- The errors that are found in a unit are those of its occurrences that break a rule, one for each
and in their order; and a unit is found to be in order exactly if it has no such occurrence. -/
theorem errors_eq_broken_rules (unit : List Stmt) :
    (findings unit).errors = reports (occurrences unit) ∧
      ((findings unit).errors = [] ↔ ∀ o ∈ occurrences unit, o.fault? = none) := by
  have herrors : (findings unit).errors = reports (occurrences unit) :=
    Static.stmts_spec unit Static.matches_top
  refine ⟨herrors, ?_⟩
  rw [herrors, reports, List.filterMap_eq_nil_iff]
  exact forall₂_congr fun o _ => Option.map_eq_none_iff

/-- An initializer returns no value, but a function inside it does. -/
example :
    let word (s : String) : Token := ⟨.identifier, s, 1⟩
    let give (line : Nat) : Stmt :=
      .return_ ⟨.keyword .return_, "return", line⟩ (some (.literal .nil))
    reports (occurrences [.class_ (word "A") none
        [⟨word "init", [], [.fun_ ⟨word "f", [], [give 1]⟩, give 2]⟩]]) =
      [.atToken ⟨.keyword .return_, "return", 2⟩ .valueFromInitializer] := by
  decide

end LoxWalk
