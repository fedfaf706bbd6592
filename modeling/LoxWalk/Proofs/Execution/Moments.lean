import Mathlib.Logic.Relation
import LoxWalk.Evaluation
import LoxWalk.Proofs.Binding.Sites

/-!
# The moments of an execution

Evaluation is a function from a tree and a machine to an outcome, so what happens on the way there
has to be made visible.  A `Moment` is a task that is about to be carried out, with the machine at
that time and the fuel that is left; `Next s μ μ'` says that carrying out the task of `μ` comes to
the task of `μ'` next, with nothing else in between but what is finished before.  The moments
`During` an execution are those that it comes to in any number of steps.

`Moment.opens` tells what a scope is opened for at a moment; its frame is the next free one, and
`Moment.gives` tells the instance or the superclass that is put into it.
-/

namespace LoxWalk

/-- Something to be carried out.  `assign`, `bind` and `declareClass` are what remains of an
assignment, of an access to a method and of the declaration of a class when their operands are
values. -/
inductive Task where
  | evaluate (e : Expr)
  | evaluateAll (es : List Expr)
  | assign (id : NodeId) (name : Token) (v : Value)
  | bind (f : Closure) (i : Instance)
  | call (callee : Value) (paren : Token) (arguments : List Value)
  | enter (callee : Value) (paren : Token) (arguments : List Value)
  | run (f : Closure) (arguments : List Value)
  | execute (s : Stmt)
  | executeAll (ss : List Stmt)
  | repeatWhile (condition : Expr) (body : Stmt)
  | declareClass (name : Token) (superclass : Option Class) (methods : List FunDecl)

/-- A task that is about to be carried out. -/
structure Moment where
  fuel : Nat
  task : Task
  machine : Machine

/-- The machine inside a new scope. -/
def Machine.opened (m : Machine) (outer : Scope) (bindings : Bindings) : Machine :=
  { m with
    store := m.store.addFrame bindings
    scope := .inside m.store.freshFrame outer }

/-- The machine with a new instance. -/
def Machine.withRecord (m : Machine) : Machine :=
  { m with store := m.store.addRecord }

/-- The machine during one more call. -/
def Machine.called (m : Machine) : Machine :=
  { m with callDepth := m.callDepth + 1 }

/-- The machine that is left behind, however `x` ends. -/
def Exec.after {α : Type} (x : Exec α) (m : Machine) : Machine :=
  match x m with
  | .ok _ m' => m'
  | .error _ m' => m'

section

variable {α β : Type} {x : Exec α} {f : α → Exec β} {m m₁ : Machine} {a : α} {i : Interrupt}

theorem Exec.bind_of_ok (h : x m = .ok a m₁) : (x >>= f) m = f a m₁ := by
  show EStateM.bind x f m = _
  rw [EStateM.bind, h]

theorem Exec.bind_of_error (h : x m = .error i m₁) : (x >>= f) m = .error i m₁ := by
  show EStateM.bind x f m = _
  rw [EStateM.bind, h]

theorem Exec.get_bind (f : Machine → Exec β) (m : Machine) : (get >>= f) m = f m m :=
  bind_of_ok rfl

/-- Two steps succeed if both do. -/
theorem Exec.bind_eq_ok_iff {b : β} {m' : Machine} :
    (x >>= f) m = .ok b m' ↔ ∃ a m₁, x m = .ok a m₁ ∧ f a m₁ = .ok b m' := by
  cases hx : x m with
  | ok a m₁ =>
    rw [bind_of_ok hx]
    exact ⟨fun h => ⟨a, m₁, rfl, h⟩, by rintro ⟨_, _, ⟨⟩, h⟩; exact h⟩
  | error i m₁ =>
    rw [bind_of_error hx]
    exact ⟨nofun, by rintro ⟨_, _, ⟨⟩, _⟩⟩

/-- Two steps are interrupted in the first or in the second of them. -/
theorem Exec.bind_eq_error_iff {m' : Machine} :
    (x >>= f) m = .error i m' ↔
      x m = .error i m' ∨ ∃ a m₁, x m = .ok a m₁ ∧ f a m₁ = .error i m' := by
  cases hx : x m with
  | ok a m₁ =>
    rw [bind_of_ok hx]
    refine ⟨fun h => .inr ⟨a, m₁, rfl, h⟩, ?_⟩
    rintro (h | ⟨_, _, ⟨⟩, h⟩)
    · cases h
    · exact h
  | error j m₁ =>
    rw [bind_of_error hx]
    refine ⟨fun h => .inl ?_, ?_⟩
    · cases h
      rfl
    · rintro (h | ⟨_, _, ⟨⟩, _⟩)
      cases h
      rfl

end

/-- The parameters of a function with their values. -/
def Closure.bindings (f : Closure) (arguments : List Value) : Bindings :=
  NameMap.empty.insertAll ((f.decl.params.map Token.lexeme).zip arguments)

/-- All parameters have a property that all arguments have. -/
theorem Closure.forall_bindings {P : Value → Prop} {f : Closure} {arguments : List Value}
    (h : ∀ v ∈ arguments, P v) : ∀ x v, (f.bindings arguments).get? x = some v → P v :=
  NameMap.forall_insertAll (fun _ _ h => nomatch h) fun _ hb => h _ (List.of_mem_zip hb).2

namespace Moment

/-- What a scope is opened for, if the task opens one. -/
def opens (μ : Moment) : Option Origin :=
  match μ.fuel, μ.task with
  | _ + 1, .execute (.block body) => some (.block body)
  | _ + 1, .run f _ => some (.call f.decl)
  | _, .bind f _ => some (.this f.decl)
  | _, .declareClass _ (some _) methods => some (.super methods)
  | _, _ => none

/-- What a scope is opened for, and what it is given, if that is an instance or a superclass. -/
def gives (μ : Moment) : Option (Origin × Value) :=
  match μ.task with
  | .bind f i => some (.this f.decl, .instance_ i)
  | .declareClass _ (some c) methods => some (.super methods, .class_ c)
  | _ => none

end Moment

/-- The next task of a task. -/
inductive Next (s : Setting) : Moment → Moment → Prop where
  -- expressions
  | group {n inner m} :
      Next s ⟨n + 1, .evaluate (.group inner), m⟩ ⟨n, .evaluate inner, m⟩
  | operand {n operator operand m} :
      Next s ⟨n + 1, .evaluate (.unary operator operand), m⟩ ⟨n, .evaluate operand, m⟩
  | left {n left operator right m} :
      Next s ⟨n + 1, .evaluate (.binary left operator right), m⟩ ⟨n, .evaluate left, m⟩
  | right {n left operator right m a m₁} (ha : evaluate s n left m = .ok a m₁) :
      Next s ⟨n + 1, .evaluate (.binary left operator right), m⟩ ⟨n, .evaluate right, m₁⟩
  | logicalLeft {n left operator right m} :
      Next s ⟨n + 1, .evaluate (.logical left operator right), m⟩ ⟨n, .evaluate left, m⟩
  | logicalRight {n left operator right m a m₁} (ha : evaluate s n left m = .ok a m₁)
      (hop : decidesAlone operator a = false) :
      Next s ⟨n + 1, .evaluate (.logical left operator right), m⟩ ⟨n, .evaluate right, m₁⟩
  | assigned {n id name value m} :
      Next s ⟨n + 1, .evaluate (.assign id name value), m⟩ ⟨n, .evaluate value, m⟩
  | assign {n id name value m v m₁} (hv : evaluate s n value m = .ok v m₁) :
      Next s ⟨n + 1, .evaluate (.assign id name value), m⟩ ⟨n, .assign id name v, m₁⟩
  | callee {n callee paren arguments m} :
      Next s ⟨n + 1, .evaluate (.call callee paren arguments), m⟩ ⟨n, .evaluate callee, m⟩
  | arguments {n callee paren arguments m f m₁} (hf : evaluate s n callee m = .ok f m₁) :
      Next s ⟨n + 1, .evaluate (.call callee paren arguments), m⟩ ⟨n, .evaluateAll arguments, m₁⟩
  | call {n callee paren arguments m f m₁ vs m₂} (hf : evaluate s n callee m = .ok f m₁)
      (hvs : evaluateAll s n arguments m₁ = .ok vs m₂) :
      Next s ⟨n + 1, .evaluate (.call callee paren arguments), m⟩ ⟨n, .call f paren vs, m₂⟩
  | object {n object name m} :
      Next s ⟨n + 1, .evaluate (.get object name), m⟩ ⟨n, .evaluate object, m⟩
  | method {n object name m i m₁ f} (hi : evaluate s n object m = .ok (.instance_ i) m₁)
      (hfield : m₁.store.field? i.record name.lexeme = none)
      (hf : i.ofClass.method? name.lexeme = some f) :
      Next s ⟨n + 1, .evaluate (.get object name), m⟩ ⟨n, .bind f i, m₁⟩
  | setObject {n object name value m} :
      Next s ⟨n + 1, .evaluate (.set object name value), m⟩ ⟨n, .evaluate object, m⟩
  | setValue {n object name value m i m₁} (hi : evaluate s n object m = .ok (.instance_ i) m₁) :
      Next s ⟨n + 1, .evaluate (.set object name value), m⟩ ⟨n, .evaluate value, m₁⟩
  | superMethod {n id keyword name m d c i f} (hd : s.distances.distance? id = some d)
      (hc : m.store.getAt? m.scope d superName = some (.class_ c))
      (hi : m.store.getAt? m.scope (d - 1) thisName = some (.instance_ i))
      (hf : c.method? name.lexeme = some f) :
      Next s ⟨n + 1, .evaluate (.super id keyword name), m⟩ ⟨n, .bind f i, m⟩
  | head {n e es m} : Next s ⟨n + 1, .evaluateAll (e :: es), m⟩ ⟨n, .evaluate e, m⟩
  | tail {n e es m v m₁} (hv : evaluate s n e m = .ok v m₁) :
      Next s ⟨n + 1, .evaluateAll (e :: es), m⟩ ⟨n, .evaluateAll es, m₁⟩
  -- calls
  | enter {n callee paren arguments m} (harity : callee.arity? = some arguments.length)
      (hdepth : m.callDepth < s.maxCallDepth) :
      Next s ⟨n + 1, .call callee paren arguments, m⟩ ⟨n, .enter callee paren arguments, m.called⟩
  | run {n f paren arguments m} :
      Next s ⟨n + 1, .enter (.function f) paren arguments, m⟩ ⟨n, .run f arguments, m⟩
  | bindInitializer {n c paren arguments m f} (hf : c.method? initializerName = some f) :
      Next s ⟨n + 1, .enter (.class_ c) paren arguments, m⟩
        ⟨n, .bind f ⟨m.store.freshRecord, c⟩, m.withRecord⟩
  | runInitializer {n c paren arguments m f g m₁} (hf : c.method? initializerName = some f)
      (hg : Exec.bindMethod f ⟨m.store.freshRecord, c⟩ m.withRecord = .ok g m₁) :
      Next s ⟨n + 1, .enter (.class_ c) paren arguments, m⟩ ⟨n, .run g arguments, m₁⟩
  | body {n f arguments m} :
      Next s ⟨n + 1, .run f arguments, m⟩
        ⟨n, .executeAll f.decl.body, m.opened f.scope (f.bindings arguments)⟩
  -- statements
  | expression {n e m} : Next s ⟨n + 1, .execute (.expression e), m⟩ ⟨n, .evaluate e, m⟩
  | print {n e m} : Next s ⟨n + 1, .execute (.print e), m⟩ ⟨n, .evaluate e, m⟩
  | initializer {n name e m} :
      Next s ⟨n + 1, .execute (.var name (some e)), m⟩ ⟨n, .evaluate e, m⟩
  | block {n body m} :
      Next s ⟨n + 1, .execute (.block body), m⟩ ⟨n, .executeAll body, m.opened m.scope .empty⟩
  | condition {n condition thenBranch elseBranch m} :
      Next s ⟨n + 1, .execute (.if_ condition thenBranch elseBranch), m⟩ ⟨n, .evaluate condition, m⟩
  | thenBranch {n condition thenBranch elseBranch m v m₁}
      (hv : evaluate s n condition m = .ok v m₁) (ht : v.isTruthy = true) :
      Next s ⟨n + 1, .execute (.if_ condition thenBranch elseBranch), m⟩
        ⟨n, .execute thenBranch, m₁⟩
  | elseBranch {n condition thenBranch elseBranch m v m₁}
      (hv : evaluate s n condition m = .ok v m₁) (ht : v.isTruthy = false) :
      Next s ⟨n + 1, .execute (.if_ condition thenBranch (some elseBranch)), m⟩
        ⟨n, .execute elseBranch, m₁⟩
  | loop {n condition body m} :
      Next s ⟨n + 1, .execute (.while_ condition body), m⟩ ⟨n, .repeatWhile condition body, m⟩
  | returned {n keyword e m} :
      Next s ⟨n + 1, .execute (.return_ keyword (some e)), m⟩ ⟨n, .evaluate e, m⟩
  | superclass {n name e methods m} :
      Next s ⟨n + 1, .execute (.class_ name (some e) methods), m⟩ ⟨n, .evaluate e, m⟩
  | declareBase {n name methods m} :
      Next s ⟨n + 1, .execute (.class_ name none methods), m⟩
        ⟨n, .declareClass name none methods, m⟩
  | declareDerived {n name e methods m c m₁} (hc : evaluate s n e m = .ok (.class_ c) m₁) :
      Next s ⟨n + 1, .execute (.class_ name (some e) methods), m⟩
        ⟨n, .declareClass name (some c) methods, m₁⟩
  | first {n t ts m} : Next s ⟨n + 1, .executeAll (t :: ts), m⟩ ⟨n, .execute t, m⟩
  | rest {n t ts m m₁} (ht : execute s n t m = .ok () m₁) :
      Next s ⟨n + 1, .executeAll (t :: ts), m⟩ ⟨n, .executeAll ts, m₁⟩
  | loopCondition {n condition body m} :
      Next s ⟨n + 1, .repeatWhile condition body, m⟩ ⟨n, .evaluate condition, m⟩
  | loopBody {n condition body m v m₁} (hv : evaluate s n condition m = .ok v m₁)
      (ht : v.isTruthy = true) :
      Next s ⟨n + 1, .repeatWhile condition body, m⟩ ⟨n, .execute body, m₁⟩
  | loopAgain {n condition body m v m₁ m₂} (hv : evaluate s n condition m = .ok v m₁)
      (ht : v.isTruthy = true) (hb : execute s n body m₁ = .ok () m₂) :
      Next s ⟨n + 1, .repeatWhile condition body, m⟩ ⟨n, .repeatWhile condition body, m₂⟩

/-- The moments that carrying out a task comes to. -/
def During (s : Setting) : Moment → Moment → Prop :=
  Relation.ReflTransGen (Next s)

end LoxWalk
