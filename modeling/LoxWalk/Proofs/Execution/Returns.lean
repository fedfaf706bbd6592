import LoxWalk.Proofs.Binding.Fitting
import LoxWalk.Proofs.Execution.Balance
import LoxWalk.Proofs.Output.Limits
import LoxWalk.Proofs.Session.Units

/-!
# Where a `return` leads

A `return` interrupts the statements around it, one after the other and each in its own scope
(`Inside.interrupted`), until it comes to the body of a function.  There it is caught: the call is
over, its value is that of the `return`, and the caller goes on (`InCall.yields`).  So no expression
and no call is ever interrupted by a `return` (`Exec.Quiet`), and neither are the statements outside
functions, since binding refuses a `return` there.
-/

namespace LoxWalk

open Exec

/-! ## Parts that are not interrupted by a `return` -/

/-- `x` never ends with a `return`. -/
def Exec.Quiet {α : Type} (x : Exec α) : Prop :=
  ∀ m v m', x m ≠ .error (.returning v) m'

namespace Exec.Quiet

variable {α β : Type}

theorem pure (a : α) : Quiet (Pure.pure a : Exec α) :=
  fun _ _ _ h => by cases h

theorem outOfFuel : Quiet (throw .outOfFuel : Exec α) :=
  fun _ _ _ h => by cases h

theorem fault (t : Token) (e : RuntimeFault) : Quiet (Exec.fault t e : Exec α) :=
  fun _ _ _ h => by cases h

theorem modifyStore (f : Store → Store) : Quiet (Exec.modifyStore f) :=
  fun _ _ _ h => by cases h

theorem bind {x : Exec α} {f : α → Exec β} (hx : Quiet x) (hf : ∀ a, Quiet (f a)) :
    Quiet (x >>= f) := by
  intro m v m' h
  cases hr : x m with
  | error i m₁ =>
    rw [bind_of_error hr] at h
    obtain ⟨rfl, rfl⟩ : i = .returning v ∧ m₁ = m' := by simpa using h
    exact hx m v m₁ hr
  | ok a m₁ =>
    rw [bind_of_ok hr] at h
    exact hf a m₁ v m' h

theorem get {f : Machine → Exec α} (hf : ∀ m, Quiet (f m)) : Quiet (MonadState.get >>= f) :=
  fun m => hf m m

theorem inScope {x : Exec α} (hx : Quiet x) (scope : Scope) : Quiet (Exec.inScope scope x) := by
  intro m v m' h
  unfold Exec.inScope at h
  cases hr : x { m with scope := scope } with
  | ok a m₁ =>
    rw [hr] at h
    cases h
  | error i m₁ =>
    rw [hr] at h
    cases h
    exact hx _ _ _ hr

theorem asCall {x : Exec α} (hx : Quiet x) : Quiet (Exec.asCall x) := by
  intro m v m' h
  unfold Exec.asCall at h
  cases hr : x { m with callDepth := m.callDepth + 1 } with
  | ok a m₁ =>
    rw [hr] at h
    cases h
  | error i m₁ =>
    rw [hr] at h
    cases h
    exact hx _ _ _ hr

/-- Here a `return` is caught, whatever `x` is. -/
theorem catchReturn (x : Exec Unit) : Quiet (Exec.catchReturn x) := by
  intro m v m' h
  unfold Exec.catchReturn at h
  cases hr : x m with
  | ok a m₁ =>
    rw [hr] at h
    cases h
  | error i m₁ =>
    rw [hr] at h
    cases i <;> cases h

/-! ### The single steps -/

theorem operate (operator : Token) (outcome : Except RuntimeFault Value) :
    Quiet (Exec.operate operator outcome) := by
  cases outcome with
  | ok v => exact .pure v
  | error e => exact .fault operator e

theorem readVariable (s : Setting) (id : NodeId) (name : Token) :
    Quiet (Exec.readVariable s id name) := by
  refine .get fun m => ?_
  dsimp only
  split
  · exact .pure _
  · exact .fault _ _

theorem assignVariable (s : Setting) (id : NodeId) (name : Token) (v : Value) :
    Quiet (Exec.assignVariable s id name v) := by
  refine .get fun m => ?_
  dsimp only
  split
  · exact .modifyStore _
  · exact .fault _ _

theorem define (name : Token) (v : Value) : Quiet (Exec.define name v) :=
  fun _ _ _ h => by cases h

theorem newScope (outer : Scope) (bindings : Bindings) : Quiet (Exec.newScope outer bindings) :=
  .get fun _ => .bind (.modifyStore _) fun _ => .pure _

theorem newObject : Quiet Exec.newObject :=
  .get fun _ => .bind (.modifyStore _) fun _ => .pure _

theorem newClosure (decl : FunDecl) (scope : Scope) (isInitializer : Bool) :
    Quiet (Exec.newClosure decl scope isInitializer) :=
  .bind newObject fun _ => .pure _

theorem bindMethod (f : Closure) (i : Instance) : Quiet (Exec.bindMethod f i) :=
  .bind (.newScope _ _) fun _ => .newClosure _ _ _

theorem boundInstance (f : Closure) : Quiet (Exec.boundInstance f) :=
  .get fun _ => .pure _

theorem newInstance (c : Class) : Quiet (Exec.newInstance c) :=
  .get fun _ => .bind (.modifyStore _) fun _ => .pure _

theorem newMethods (scope : Scope) (decls : List FunDecl) (table : NameMap Closure) :
    Quiet (Exec.newMethods scope decls table) := by
  induction decls generalizing table with
  | nil => exact .pure table
  | cons decl decls ih => exact .bind (.newClosure _ _ _) fun _ => ih _

theorem superclassOf (name : Token) (e : Expr) (v : Value) :
    Quiet (Exec.superclassOf name e v) := by
  unfold Exec.superclassOf
  split
  · exact .pure _
  · split <;> exact .fault _ _

theorem declareClass (name : Token) (superclass : Option Class) (methods : List FunDecl) :
    Quiet (Exec.declareClass name superclass methods) := by
  refine .bind (.define _ _) fun _ => .get fun m => ?_
  cases superclass with
  | some c =>
    refine .bind (.newScope _ _) fun _ => .bind (.newMethods _ _ _) fun _ => ?_
    exact .bind newObject fun _ => .define _ _
  | none =>
    refine .bind (.pure m.scope) fun _ => .bind (.newMethods _ _ _) fun _ => ?_
    exact .bind newObject fun _ => .define _ _

theorem getProperty (v : Value) (name : Token) : Quiet (Exec.getProperty v name) := by
  unfold Exec.getProperty
  split
  · refine .get fun m => ?_
    split
    · exact .pure _
    · split
      · exact .bind (.bindMethod _ _) fun _ => .pure _
      · exact .fault _ _
  · exact .fault _ _

theorem fieldOwner (v : Value) (name : Token) : Quiet (Exec.fieldOwner v name) := by
  unfold Exec.fieldOwner
  split
  · exact .pure _
  · exact .fault _ _

theorem superMethod (s : Setting) (id : NodeId) (keyword method : Token) :
    Quiet (Exec.superMethod s id keyword method) := by
  refine .get fun m => ?_
  split
  · exact .fault _ _
  · split
    · split
      · exact .bind (.bindMethod _ _) fun _ => .pure _
      · exact .fault _ _
    · exact .fault _ _

theorem print (v : Value) : Quiet (Exec.print v) := by
  intro m w m' h
  unfold Exec.print at h
  split at h <;> cases h

end Exec.Quiet

/-! ## Code without a `return` -/

namespace Stmt

mutual

/-- Whether a statement has a `return` outside the functions that it declares. -/
def canReturn : Stmt → Bool
  | .block body => anyCanReturn body
  | .if_ _ thenBranch none => thenBranch.canReturn
  | .if_ _ thenBranch (some elseBranch) => thenBranch.canReturn || elseBranch.canReturn
  | .while_ _ body => body.canReturn
  | .return_ _ _ => true
  | _ => false

/-- Whether one of several statements has such a `return`. -/
def anyCanReturn : List Stmt → Bool
  | [] => false
  | s :: ss => s.canReturn || anyCanReturn ss

end

end Stmt

/-- With this fuel, only statements that have a `return` are interrupted by one. -/
structure Setting.Quiet (s : Setting) (n : Nat) : Prop where
  evaluate : ∀ e, Exec.Quiet (evaluate s n e)
  evaluateAll : ∀ es, Exec.Quiet (evaluateAll s n es)
  call : ∀ callee paren arguments, Exec.Quiet (call s n callee paren arguments)
  enter : ∀ callee paren arguments, Exec.Quiet (enter s n callee paren arguments)
  run : ∀ f arguments, Exec.Quiet (run s n f arguments)
  execute : ∀ t, t.canReturn = false → Exec.Quiet (execute s n t)
  executeAll : ∀ ts, Stmt.anyCanReturn ts = false → Exec.Quiet (executeAll s n ts)
  repeatWhile : ∀ condition body, body.canReturn = false →
    Exec.Quiet (repeatWhile s n condition body)

namespace Setting.Quiet

variable {s : Setting} {n : Nat}

theorem evaluate_succ (h : s.Quiet n) (e : Expr) : Exec.Quiet (LoxWalk.evaluate s (n + 1) e) := by
  cases e with
  | literal v =>
    rw [LoxWalk.evaluate]
    exact .pure _
  | group inner =>
    rw [LoxWalk.evaluate]
    exact h.evaluate inner
  | unary operator operand =>
    rw [LoxWalk.evaluate]
    exact .bind (h.evaluate operand) fun v => .operate _ _
  | binary left operator right =>
    rw [LoxWalk.evaluate]
    exact .bind (h.evaluate left) fun a => .bind (h.evaluate right) fun b => .operate _ _
  | logical left operator right =>
    rw [LoxWalk.evaluate]
    refine .bind (h.evaluate left) fun a => ?_
    split
    · exact .pure a
    · exact h.evaluate right
  | var id name =>
    rw [LoxWalk.evaluate]
    exact .readVariable s id name
  | assign id name value =>
    rw [LoxWalk.evaluate]
    refine .bind (h.evaluate value) fun v => ?_
    exact .bind (.assignVariable s id name v) fun _ => .pure v
  | call callee paren arguments =>
    rw [LoxWalk.evaluate]
    refine .bind (h.evaluate callee) fun f => .bind (h.evaluateAll arguments) fun vs => ?_
    exact h.call f paren vs
  | get object name =>
    rw [LoxWalk.evaluate]
    exact .bind (h.evaluate object) fun v => .getProperty v name
  | set object name value =>
    rw [LoxWalk.evaluate]
    refine .bind (h.evaluate object) fun v => .bind (.fieldOwner v name) fun owner => ?_
    exact .bind (h.evaluate value) fun w => .bind (.modifyStore _) fun _ => .pure w
  | this id keyword =>
    rw [LoxWalk.evaluate]
    exact .readVariable s id keyword
  | super id keyword method =>
    rw [LoxWalk.evaluate]
    exact .superMethod s id keyword method

theorem evaluateAll_succ (h : s.Quiet n) (es : List Expr) :
    Exec.Quiet (LoxWalk.evaluateAll s (n + 1) es) := by
  cases es with
  | nil =>
    rw [LoxWalk.evaluateAll]
    exact .pure []
  | cons e es =>
    rw [LoxWalk.evaluateAll]
    exact .bind (h.evaluate e) fun v => .bind (h.evaluateAll es) fun vs => .pure _

theorem call_succ (h : s.Quiet n) (callee : Value) (paren : Token) (arguments : List Value) :
    Exec.Quiet (LoxWalk.call s (n + 1) callee paren arguments) := by
  rw [LoxWalk.call]
  split
  · exact .fault _ _
  · split
    · exact .fault _ _
    · refine .get fun m => ?_
      dsimp only
      split
      · exact .fault _ _
      · rw [withStackFor_eq]
        exact (h.enter callee paren arguments).asCall

theorem enter_succ (h : s.Quiet n) (callee : Value) (paren : Token) (arguments : List Value) :
    Exec.Quiet (LoxWalk.enter s (n + 1) callee paren arguments) := by
  cases callee with
  | native f =>
    rw [LoxWalk.enter]
    split
    · exact .pure _
    · exact .fault _ _
  | function f =>
    rw [LoxWalk.enter]
    exact h.run f arguments
  | class_ c =>
    rw [LoxWalk.enter]
    refine .bind (.newInstance c) fun i => ?_
    split
    · refine .bind (.bindMethod _ i) fun g => ?_
      exact .bind (h.run g arguments) fun _ => .pure _
    · exact .pure _
  | _ => exact .fault _ _

theorem run_succ (s : Setting) (n : Nat) (f : Closure) (arguments : List Value) :
    Exec.Quiet (LoxWalk.run s (n + 1) f arguments) := by
  rw [LoxWalk.run]
  refine .bind (.newScope _ _) fun scope => .bind (.catchReturn _) fun v => ?_
  split
  · exact .boundInstance f
  · exact .pure v

theorem execute_succ (h : s.Quiet n) (t : Stmt) (ht : t.canReturn = false) :
    Exec.Quiet (LoxWalk.execute s (n + 1) t) := by
  cases t with
  | expression e =>
    rw [LoxWalk.execute]
    exact .bind (h.evaluate e) fun v => .pure ()
  | print e =>
    rw [LoxWalk.execute]
    exact .bind (h.evaluate e) fun v => .print v
  | var name initializer =>
    cases initializer with
    | none =>
      rw [LoxWalk.execute]
      exact .define name .nil
    | some e =>
      rw [LoxWalk.execute]
      exact .bind (h.evaluate e) fun v => .define name v
  | block body =>
    rw [LoxWalk.execute]
    refine .get fun m => .bind (.newScope _ _) fun scope => ?_
    exact (h.executeAll body ht).inScope scope
  | if_ condition thenBranch elseBranch =>
    cases elseBranch with
    | none =>
      rw [LoxWalk.execute]
      refine .bind (h.evaluate condition) fun v => ?_
      split
      · exact h.execute thenBranch ht
      · exact .pure ()
    | some branch =>
      obtain ⟨hthen, helse⟩ := Bool.or_eq_false_iff.mp ht
      rw [LoxWalk.execute]
      refine .bind (h.evaluate condition) fun v => ?_
      split
      · exact h.execute thenBranch hthen
      · exact h.execute branch helse
  | while_ condition body =>
    rw [LoxWalk.execute]
    exact h.repeatWhile condition body ht
  | fun_ decl =>
    rw [LoxWalk.execute]
    exact .get fun m => .bind (.newClosure _ _ _) fun f => .define _ _
  | return_ keyword value => cases ht
  | class_ name superclass methods =>
    cases superclass with
    | none =>
      rw [LoxWalk.execute]
      exact .declareClass name none methods
    | some e =>
      rw [LoxWalk.execute]
      refine .bind (h.evaluate e) fun v => .bind (.superclassOf name e v) fun c => ?_
      exact .declareClass name (some c) methods

theorem executeAll_succ (h : s.Quiet n) (ts : List Stmt) (hts : Stmt.anyCanReturn ts = false) :
    Exec.Quiet (LoxWalk.executeAll s (n + 1) ts) := by
  cases ts with
  | nil =>
    rw [LoxWalk.executeAll]
    exact .pure ()
  | cons t ts =>
    obtain ⟨ht, hts⟩ := Bool.or_eq_false_iff.mp hts
    rw [LoxWalk.executeAll]
    exact .bind (h.execute t ht) fun _ => h.executeAll ts hts

theorem repeatWhile_succ (h : s.Quiet n) (condition : Expr) (body : Stmt)
    (hbody : body.canReturn = false) :
    Exec.Quiet (LoxWalk.repeatWhile s (n + 1) condition body) := by
  rw [LoxWalk.repeatWhile]
  refine .bind (h.evaluate condition) fun v => ?_
  split
  · exact .bind (h.execute body hbody) fun _ => h.repeatWhile condition body hbody
  · exact .pure ()

end Setting.Quiet

/-- With any fuel, only statements that have a `return` are interrupted by one. -/
theorem Setting.quiet (s : Setting) (n : Nat) : s.Quiet n := by
  induction n with
  | zero =>
    constructor
    all_goals intros; exact .outOfFuel
  | succ n ih =>
    exact
      { evaluate := ih.evaluate_succ
        evaluateAll := ih.evaluateAll_succ
        call := ih.call_succ
        enter := ih.enter_succ
        run := Quiet.run_succ s n
        execute := ih.execute_succ
        executeAll := ih.executeAll_succ
        repeatWhile := ih.repeatWhile_succ }

/-! ### Units that break no static rule -/

namespace Static

mutual

/-- Outside functions a statement that breaks no rule has no `return`. -/
theorem canReturn_eq_false (st : Static) (htop : st.function = .topLevel) :
    (t : Stmt) → (st.stmt t).2.errors = [] → t.canReturn = false
  | .expression _, _ => rfl
  | .print _, _ => rfl
  | .var _ _, _ => rfl
  | .block body, he => anyCanReturn_eq_false (st.enter []) htop body he
  | .if_ _ thenBranch none, he => by
    simp only [stmt, Findings.errors_append, List.append_eq_nil_iff] at he
    exact canReturn_eq_false st htop thenBranch he.2
  | .if_ _ thenBranch (some elseBranch), he => by
    simp only [stmt, Findings.errors_append, List.append_eq_nil_iff] at he
    have hthen := canReturn_eq_false st htop thenBranch he.1.2
    have helse := canReturn_eq_false (st.stmt thenBranch).1 ((st.function_stmt _).trans htop)
      elseBranch he.2
    simp only [Stmt.canReturn, hthen, helse, Bool.or_false]
  | .while_ _ body, he => by
    simp only [stmt, Findings.errors_append, List.append_eq_nil_iff] at he
    exact canReturn_eq_false st htop body he.2
  | .fun_ _, _ => rfl
  | .return_ _ _, he => by
    simp only [stmt, returned, Findings.errors_append, List.append_eq_nil_iff,
      Findings.errors_brokenIf, decide_eq_false_iff_not] at he
    exact absurd htop he.1.1
  | .class_ _ _ _, _ => rfl

theorem anyCanReturn_eq_false (st : Static) (htop : st.function = .topLevel) :
    (ts : List Stmt) → (st.stmts ts).2.errors = [] → Stmt.anyCanReturn ts = false
  | [], _ => rfl
  | t :: ts, he => by
    simp only [stmts, Findings.errors_append, List.append_eq_nil_iff] at he
    have hfirst := canReturn_eq_false st htop t he.1
    have hrest := anyCanReturn_eq_false (st.stmt t).1 ((st.function_stmt t).trans htop) ts he.2
    simp only [Stmt.anyCanReturn, hfirst, hrest, Bool.or_false]

end

end Static

/-- A unit that breaks no static rule is not interrupted by a `return`. -/
theorem quiet_of_accepted {unit : List Stmt} (h : (findings unit).errors = []) (s : Setting)
    (n : Nat) : Exec.Quiet (executeAll s n unit) :=
  (s.quiet n).executeAll unit (Static.top.anyCanReturn_eq_false rfl unit h)

/-! ## From a `return` to the body around it -/

/-- Whether a task is to execute statements. -/
def Task.isStatement : Task → Bool
  | .execute _ => true
  | .executeAll _ => true
  | .repeatWhile _ _ => true
  | _ => false

/-- Statements come to a statement that is part of them. -/
structure NextInside (s : Setting) (μ ν : Moment) : Prop where
  next : Next s μ ν
  outer : μ.task.isStatement = true
  inner : ν.task.isStatement = true

/-- Statements come to a statement inside them, with no call in between. -/
def Inside (s : Setting) : Moment → Moment → Prop :=
  Relation.ReflTransGen (NextInside s)

/-- Statements are interrupted by `i`, with the machine `m` left behind. -/
def Moment.Interrupted (s : Setting) (μ : Moment) (i : Interrupt) (m : Machine) : Prop :=
  match μ.task with
  | .execute t => execute s μ.fuel t μ.machine = .error i m
  | .executeAll ts => executeAll s μ.fuel ts μ.machine = .error i m
  | .repeatWhile condition body => repeatWhile s μ.fuel condition body μ.machine = .error i m
  | _ => False

/-- A `return` is executed whose operand has the value `v`, with the machine `m` left behind. -/
def Moment.Returns (s : Setting) (ν : Moment) (v : Value) (m : Machine) : Prop :=
  match ν.fuel, ν.task with
  | _ + 1, .execute (.return_ _ none) => v = .nil ∧ m = ν.machine
  | n + 1, .execute (.return_ _ (some e)) => evaluate s n e ν.machine = .ok v m
  | _, _ => False

section

variable {s : Setting} {μ ν : Moment} {i : Interrupt} {m : Machine}

/-- Statements that are interrupted go back to the scope and the calls from which they started. -/
theorem Moment.Interrupted.restored (h : μ.Interrupted s i m) : μ.machine.Restored m := by
  obtain ⟨n, task, m₀⟩ := μ
  have hrestores := Restores.carried s ⟨n, task, m₀⟩
  cases task with
  | execute t => exact after_of_error h ▸ hrestores
  | executeAll ts => exact after_of_error h ▸ hrestores
  | repeatWhile condition body => exact after_of_error h ▸ hrestores
  | _ => exact h.elim

/-- A block runs its statements in a new scope. -/
theorem execute_block (s : Setting) (n : Nat) (body : List Stmt) (m : Machine) :
    execute s (n + 1) (.block body) m =
      onMachine ({ · with scope := m.scope }) (executeAll s n body (m.opened m.scope .empty)) := by
  rw [execute]
  exact inScope_eq (.inside m.store.freshFrame m.scope) (executeAll s n body)
    { m with store := m.store.addFrame .empty }

/-- An interruption passes from a part to the statements that it is part of, and nothing but the
scope is changed on the way. -/
theorem NextInside.exists_interrupted (h : NextInside s μ ν) (hν : ν.Interrupted s i m) :
    ∃ scope, μ.Interrupted s i { m with scope := scope } := by
  obtain ⟨hnext, houter, hinner⟩ := h
  cases hnext with
  | @block n body m₀ =>
    have hν : executeAll s n body (m₀.opened m₀.scope .empty) = .error i m := hν
    refine ⟨m₀.scope, ?_⟩
    show execute s (n + 1) (.block body) m₀ = _
    rw [execute_block, hν]
    rfl
  | @thenBranch n condition thenBranch elseBranch m₀ v m₁ hv ht =>
    refine ⟨m.scope, ?_⟩
    show execute s (n + 1) (.if_ condition thenBranch elseBranch) m₀ = _
    cases elseBranch <;> rw [execute, bind_of_ok hv, if_pos ht] <;> exact hν
  | @elseBranch n condition thenBranch elseBranch m₀ v m₁ hv ht =>
    refine ⟨m.scope, ?_⟩
    show execute s (n + 1) (.if_ condition thenBranch (some elseBranch)) m₀ = _
    rw [execute, bind_of_ok hv, if_neg (Bool.eq_false_iff.mp ht)]
    exact hν
  | @loop n condition body m₀ =>
    refine ⟨m.scope, ?_⟩
    show execute s (n + 1) (.while_ condition body) m₀ = _
    rw [execute]
    exact hν
  | @first n t ts m₀ =>
    refine ⟨m.scope, ?_⟩
    show executeAll s (n + 1) (t :: ts) m₀ = _
    rw [executeAll]
    exact bind_of_error hν
  | @rest n t ts m₀ m₁ ht =>
    refine ⟨m.scope, ?_⟩
    show executeAll s (n + 1) (t :: ts) m₀ = _
    rw [executeAll, bind_of_ok ht]
    exact hν
  | @loopBody n condition body m₀ v m₁ hv ht =>
    refine ⟨m.scope, ?_⟩
    show repeatWhile s (n + 1) condition body m₀ = _
    rw [repeatWhile, bind_of_ok hv, if_pos ht]
    exact bind_of_error hν
  | @loopAgain n condition body m₀ v m₁ m₂ hv ht hb =>
    refine ⟨m.scope, ?_⟩
    show repeatWhile s (n + 1) condition body m₀ = _
    rw [repeatWhile, bind_of_ok hv, if_pos ht, bind_of_ok hb]
    exact hν
  | body => cases houter
  | _ => cases hinner

/-- An interruption passes to all statements around it, whatever blocks, branches and loops they
are. -/
theorem Inside.interrupted (h : Inside s μ ν) (hν : ν.Interrupted s i m) :
    μ.Interrupted s i { m with scope := μ.machine.scope } := by
  induction h using Relation.ReflTransGen.head_induction_on with
  | refl => exact hν.restored.scope ▸ hν
  | head hnext _ ih =>
    obtain ⟨scope, hμ⟩ := hnext.exists_interrupted ih
    exact hμ.restored.scope ▸ hμ

/-! ## From the body of a function to the caller -/

/-- What the body of a function yields that returns `v`: an initializer yields its instance
whatever it returns. -/
def Closure.result (f : Closure) (v : Value) (store : Store) : Value :=
  if f.isInitializer then (store.getLocal? f.scope thisName).getD .nil else v

/-- What a call yields whose function yields `w`: a class yields the instance that it makes. -/
def Value.result (callee w : Value) (store : Store) : Value :=
  match callee with
  | .class_ c => .instance_ ⟨store.freshRecord, c⟩
  | _ => w

/-- At the moment `χ` a call is evaluated.  At `κ` callee and arguments are values, at `ρ` the
function `f` is run for the call, and `ν` lies in the body of `f` with no other call in between. -/
structure InCall (s : Setting) (χ κ ρ ν : Moment) (callee : Value) (f : Closure) : Prop where
  call : Next s χ κ
  calls : ∃ paren arguments, κ.task = .call callee paren arguments
  enters : ∃ ε, Next s κ ε ∧ Next s ε ρ
  runs : ∃ arguments, ρ.task = .run f arguments
  body : ∃ β, Next s ρ β ∧ Inside s β ν

/-- A task ends with the value `w`, and leaves the machine `m` behind. -/
def Moment.Yields (s : Setting) (μ : Moment) (w : Value) (m : Machine) : Prop :=
  match μ.task with
  | .evaluate e => evaluate s μ.fuel e μ.machine = .ok w m
  | .call callee paren arguments => call s μ.fuel callee paren arguments μ.machine = .ok w m
  | .enter callee paren arguments => enter s μ.fuel callee paren arguments μ.machine = .ok w m
  | .run f arguments => run s μ.fuel f arguments μ.machine = .ok w m
  | _ => False

variable {χ κ ε ρ β : Moment} {v w : Value}

theorem Moment.Yields.restored (h : μ.Yields s w m) : μ.machine.Restored m := by
  obtain ⟨n, task, m₀⟩ := μ
  have hrestores := Restores.carried s ⟨n, task, m₀⟩
  cases task with
  | evaluate e => exact after_of_ok h ▸ hrestores
  | call callee paren arguments => exact after_of_ok h ▸ hrestores
  | enter callee paren arguments => exact after_of_ok h ▸ hrestores
  | run f arguments => exact after_of_ok h ▸ hrestores
  | _ => exact h.elim

/-- A function whose body returns has ended. -/
theorem Next.run_yields {f : Closure} {arguments : List Value} (hbody : Next s ρ β)
    (hρ : ρ.task = .run f arguments) (hβ : β.Interrupted s (.returning v) m) :
    ρ.Yields s (f.result v m.store) { m with scope := ρ.machine.scope } := by
  cases hbody with
  | @body n g arguments' m₀ =>
    obtain ⟨rfl, rfl⟩ : g = f ∧ arguments' = arguments := by simpa using hρ
    have hβ : executeAll s n g.decl.body (m₀.opened g.scope (g.bindings arguments')) =
        .error (.returning v) m := hβ
    have hscope : newScope g.scope (g.bindings arguments') m₀ =
        .ok (.inside m₀.store.freshFrame g.scope)
          { m₀ with store := m₀.store.addFrame (g.bindings arguments') } := rfl
    have hcaught : catchReturn (inScope (.inside m₀.store.freshFrame g.scope)
        (executeAll s n g.decl.body)) { m₀ with store := m₀.store.addFrame (g.bindings arguments') } =
          .ok v { m with scope := m₀.scope } := by
      unfold catchReturn
      rw [inScope_eq]
      unfold Machine.opened at hβ
      simp only [hβ]
      rfl
    show LoxWalk.run s (n + 1) g arguments' m₀ = _
    rw [LoxWalk.run]
    refine (bind_of_ok hscope).trans ((bind_of_ok hcaught).trans ?_)
    unfold Closure.result
    split <;> rfl
  | _ => cases hρ

/-- What a function yields is what its call makes of it. -/
theorem Next.enter_yields {f : Closure} {arguments arguments' : List Value} {callee : Value}
    {paren : Token} (hrun : Next s ε ρ) (hε : ε.task = .enter callee paren arguments')
    (hρ : ρ.task = .run f arguments) (hw : ρ.Yields s w m) :
    ε.Yields s (callee.result w ε.machine.store) m := by
  cases hrun with
  | @run n g paren' arguments₀ m₀ =>
    obtain ⟨rfl, rfl, rfl⟩ : .function g = callee ∧ paren' = paren ∧ arguments₀ = arguments' := by
      simpa using hε
    show LoxWalk.enter s (n + 1) (.function g) paren' arguments₀ m₀ = _
    rw [LoxWalk.enter]
    exact hw
  | @runInitializer n c paren' arguments₀ m₀ init g m₁ hinit hg =>
    obtain ⟨rfl, rfl, rfl⟩ : .class_ c = callee ∧ paren' = paren ∧ arguments₀ = arguments' := by
      simpa using hε
    show LoxWalk.enter s (n + 1) (.class_ c) paren' arguments₀ m₀ = _
    rw [LoxWalk.enter]
    have hnew : newInstance c m₀ = .ok ⟨m₀.store.freshRecord, c⟩ m₀.withRecord := rfl
    refine (bind_of_ok hnew).trans ?_
    simp only [hinit]
    exact (bind_of_ok hg).trans (bind_of_ok hw)
  | _ => cases hρ

/-- A call that is entered is over when its callee has ended. -/
theorem Next.call_yields {callee : Value} {paren : Token} {arguments : List Value}
    (henter : Next s κ ε) (hκ : κ.task = .call callee paren arguments) (hw : ε.Yields s w m) :
    ∃ depth, κ.Yields s w { m with callDepth := depth } := by
  cases henter with
  | @enter n callee' paren' arguments' m₀ harity hdepth =>
    have hw : LoxWalk.enter s n callee' paren' arguments' m₀.called = .ok w m := hw
    refine ⟨m.callDepth - 1, ?_⟩
    show LoxWalk.call s (n + 1) callee' paren' arguments' m₀ = _
    rw [LoxWalk.call, harity]
    simp only [ne_eq, not_true, if_false]
    refine (get_bind _ m₀).trans ?_
    rw [if_neg (Nat.not_le.mpr hdepth), withStackFor_eq, asCall_eq, hw]
    rfl
  | _ => cases hκ

/-- The expression of a call has the value of the call. -/
theorem Next.evaluate_yields {callee : Value} {paren : Token} {arguments : List Value}
    (hcall : Next s χ κ) (hκ : κ.task = .call callee paren arguments) (hw : κ.Yields s w m) :
    χ.Yields s w m := by
  cases hcall with
  | @call n callee' paren' arguments' m₀ f m₁ vs m₂ hf hvs =>
    show evaluate s (n + 1) (.call callee' paren' arguments') m₀ = _
    rw [evaluate, bind_of_ok hf, bind_of_ok hvs]
    exact hw
  | _ => cases hκ

/-- A callee is entered from its call. -/
theorem Next.call_of_enter {callee : Value} {paren : Token} {arguments : List Value}
    (h : Next s κ ε) (hε : ε.task = .enter callee paren arguments) :
    κ.task = .call callee paren arguments ∧ κ.machine.store = ε.machine.store := by
  cases h with
  | @enter n callee' paren' arguments' m₀ _ _ =>
    obtain ⟨rfl, rfl, rfl⟩ : callee' = callee ∧ paren' = paren ∧ arguments' = arguments := by
      simpa using hε
    exact ⟨rfl, rfl⟩
  | _ => cases hε

/-- A function is run for a callee that is entered. -/
theorem Next.enter_of_run {f : Closure} {arguments : List Value} (h : Next s ε ρ)
    (hρ : ρ.task = .run f arguments) :
    ∃ callee paren arguments', ε.task = .enter callee paren arguments' := by
  cases h with
  | run => exact ⟨_, _, _, rfl⟩
  | runInitializer => exact ⟨_, _, _, rfl⟩
  | _ => cases hρ

/-- Statements come next for statements that they are part of, or for a function that is run. -/
theorem Next.statement_or_run (h : Next s μ ν) (hν : ν.task.isStatement = true) :
    μ.task.isStatement = true ∨ ∃ f arguments, μ.task = .run f arguments := by
  cases h with
  | body => exact .inr ⟨_, _, rfl⟩
  | _ => first | exact .inl rfl | cases hν

/-- A `return` in the body of a function ends the call of that function, and the caller goes on with
what the call yields, in its own scope and with its own calls. -/
theorem InCall.yields {callee : Value} {f : Closure} (h : InCall s χ κ ρ ν callee f)
    (hν : ν.Interrupted s (.returning v) m) :
    ρ.Yields s (f.result v m.store) { m with scope := ρ.machine.scope } ∧
      χ.Yields s (callee.result (f.result v m.store) κ.machine.store)
        { m with scope := χ.machine.scope, callDepth := χ.machine.callDepth } := by
  obtain ⟨paren, arguments, hκ⟩ := h.calls
  obtain ⟨ε, henter, hrun⟩ := h.enters
  obtain ⟨arguments', hρ⟩ := h.runs
  obtain ⟨β, hbody, hinside⟩ := h.body
  obtain ⟨callee', paren', arguments'', hε⟩ := hrun.enter_of_run hρ
  obtain ⟨hκ', hstore⟩ := henter.call_of_enter hε
  obtain ⟨rfl, rfl, rfl⟩ : callee = callee' ∧ paren = paren' ∧ arguments = arguments'' := by
    simpa using hκ.symm.trans hκ'
  have hran := hbody.run_yields hρ (hinside.interrupted hν)
  obtain ⟨depth, hcalled⟩ := henter.call_yields hκ (hrun.enter_yields hε hρ hran)
  have hχ := h.call.evaluate_yields hκ hcalled
  have hscope : ρ.machine.scope = χ.machine.scope := hχ.restored.scope
  have hdepth : depth = χ.machine.callDepth := hχ.restored.callDepth
  rw [← hstore, hscope, hdepth] at hχ
  exact ⟨hran, hχ⟩

/-! ## The innermost call around a `return` -/

theorem Moment.Returns.isStatement (h : ν.Returns s v m) : ν.task.isStatement = true := by
  unfold Returns at h
  split at h
  · rename_i hν
    rw [hν]
    rfl
  · rename_i hν
    rw [hν]
    rfl
  · exact h.elim

theorem Moment.Returns.interrupted (h : ν.Returns s v m) : ν.Interrupted s (.returning v) m := by
  obtain ⟨n, task, m₀⟩ := ν
  unfold Returns at h
  split at h
  · rename_i hn ht
    obtain ⟨rfl, rfl⟩ := h
    cases hn
    cases ht
    rfl
  · rename_i k keyword e hn ht
    cases hn
    cases ht
    show execute s (k + 1) (.return_ keyword (some e)) m₀ = _
    rw [execute]
    exact bind_of_ok h
  · exact h.elim

/-- Whether a task is a part of a call. -/
def Task.isCalling : Task → Bool
  | .call _ _ _ => true
  | .enter _ _ _ => true
  | .run _ _ => true
  | _ => false

/-- A function is run for a call that is evaluated before. -/
theorem During.exists_caller {f : Closure} {arguments : List Value} (h : During s μ ρ)
    (hμ : μ.task.isCalling = false) (hρ : ρ.task = .run f arguments) :
    ∃ χ κ ε callee paren arguments', During s μ χ ∧ Next s χ κ ∧
      κ.task = .call callee paren arguments' ∧ Next s κ ε ∧ Next s ε ρ := by
  obtain rfl | ⟨ε, hε, hrun⟩ := Relation.ReflTransGen.cases_tail h
  · rw [hρ] at hμ
    cases hμ
  obtain ⟨callee, paren, arguments', hentered⟩ := hrun.enter_of_run hρ
  obtain rfl | ⟨κ, hκ, henter⟩ := Relation.ReflTransGen.cases_tail hε
  · rw [hentered] at hμ
    cases hμ
  obtain ⟨hcall, -⟩ := henter.call_of_enter hentered
  obtain rfl | ⟨χ, hχ, hnext⟩ := Relation.ReflTransGen.cases_tail hκ
  · rw [hcall] at hμ
    cases hμ
  exact ⟨χ, κ, ε, callee, paren, arguments', hχ, hnext, hcall, henter, hrun⟩

/-- A statement that an execution comes to is part of the statements with which it starts, or of the
body of a function that it calls; the innermost such call is meant. -/
theorem During.inside_or_inCall (h : During s μ ν) (hμ : μ.task.isCalling = false)
    (hν : ν.task.isStatement = true) :
    Inside s μ ν ∨ ∃ χ κ ρ callee f, During s μ χ ∧ InCall s χ κ ρ ν callee f := by
  induction h with
  | refl => exact .inl .refl
  | @tail ξ ν hξ hnext ih =>
    cases hstatement : ξ.task.isStatement with
    | true =>
      have hstep : NextInside s ξ ν := ⟨hnext, hstatement, hν⟩
      rcases ih hstatement with hinside | ⟨χ, κ, ρ, callee, f, hχ, hcall⟩
      · exact .inl (hinside.tail hstep)
      · obtain ⟨β, hβ, hinside⟩ := hcall.body
        exact .inr ⟨χ, κ, ρ, callee, f, hχ, { hcall with body := ⟨β, hβ, hinside.tail hstep⟩ }⟩
    | false =>
      obtain hξ' | ⟨f, arguments, hrun⟩ := hnext.statement_or_run hν
      · rw [hstatement] at hξ'
        cases hξ'
      obtain ⟨χ, κ, ε, callee, paren, arguments', hχ, hκ, hcallee, hε, hrho⟩ :=
        During.exists_caller hξ hμ hrun
      exact .inr ⟨χ, κ, ξ, callee, f, hχ, hκ, ⟨paren, arguments', hcallee⟩, ⟨ε, hε, hrho⟩,
        ⟨arguments, hrun⟩, ⟨ν, hnext, .refl⟩⟩

end

/-- What is not interrupted by a `return` on its machine, is not on an engine. -/
theorem Engine.exec_ne_returning {α : Type} {x : Setting → Exec α} (e : Engine)
    (hx : Exec.Quiet (x e.setting)) (v : Value) : (e.exec x).1 ≠ .error (.returning v) := by
  unfold Engine.exec
  split
  · exact nofun
  · rename_i i m hr
    rintro ⟨⟩
    exact hx _ v m hr

/-! ## Main statement -/

/-- A `return` never leaves a call.  No expression and no call is interrupted by one, whatever the
setting, the machine and the tree.  A `return` that is executed interrupts all statements around it,
up to the first call on the way out: that call is over and has a value, and its caller goes on in
its own scope and with its own calls, and with all that was done.  The statements of a unit that
breaks no static rule are not interrupted by a `return`, so a session never finds that a unit ended
with one. -/
theorem return_never_escapes (s : Setting) :
    (∀ n e m v m', evaluate s n e m ≠ .error (.returning v) m') ∧
      (∀ n callee paren arguments m v m',
        call s n callee paren arguments m ≠ .error (.returning v) m') ∧
      (∀ μ ν v m, μ.task.isCalling = false → During s μ ν → ν.Returns s v m →
        (Inside s μ ν ∧ μ.Interrupted s (.returning v) { m with scope := μ.machine.scope }) ∨
          ∃ χ κ ρ callee f, During s μ χ ∧ InCall s χ κ ρ ν callee f ∧
            ρ.Yields s (f.result v m.store) { m with scope := ρ.machine.scope } ∧
            χ.Yields s (callee.result (f.result v m.store) κ.machine.store)
              { m with scope := χ.machine.scope, callDepth := χ.machine.callDepth }) ∧
      (∀ unit, (findings unit).errors = [] →
        ∀ n m v m', executeAll s n unit m ≠ .error (.returning v) m') ∧
      (∀ (session : Session) source unit, Source.ReadsAs session.nextId source unit → ∀ fuel v,
        ((session.engine.noteAll (findings unit).bound).exec (executeAll · fuel unit)).1 ≠
          .error (.returning v)) := by
  refine ⟨fun n e => (s.quiet n).evaluate e,
    fun n callee paren arguments => (s.quiet n).call callee paren arguments,
    fun μ ν v m hμ hν hreturns => ?_, fun unit h n => quiet_of_accepted h s n,
    fun session source unit h fuel v => ?_⟩
  · rcases hν.inside_or_inCall hμ hreturns.isStatement with
      hinside | ⟨χ, κ, ρ, callee, f, hχ, hcall⟩
    · exact .inl ⟨hinside, hinside.interrupted hreturns.interrupted⟩
    · obtain ⟨hran, hyields⟩ := hcall.yields hreturns.interrupted
      exact .inr ⟨χ, κ, ρ, callee, f, hχ, hcall, hran, hyields⟩
  · exact Engine.exec_ne_returning _ (quiet_of_accepted h.resolved _ fuel) v

/-! ### A `return` in a loop -/

namespace Recursion

/-- The function `fun f() {while (true) {return true;}}`. -/
def returning : Closure :=
  ⟨⟨1⟩, ⟨⟨.identifier, "f", 1⟩, [], [.while_ (.literal (.bool true))
    (.block [.return_ ⟨.keyword .return_, "return", 1⟩ (some (.literal (.bool true)))])]⟩,
      .root ⟨0⟩, false⟩

/-- The top level knows the function, and `f()` is evaluated. -/
def calling : Moment :=
  ⟨12, .evaluate (.call (.var ⟨0⟩ ⟨.identifier, "f", 1⟩) paren []),
    ⟨⟨#[⟨[("f", .function returning)]⟩], #[], 2⟩, .root ⟨0⟩, 0, .new none⟩⟩

/-- The evaluation of `f()` comes to the `return` in the loop. -/
theorem exists_returns : ∃ ν m, During setting calling ν ∧ ν.Returns setting (.bool true) m := by
  have hpath : During setting calling ⟨3, .execute (.return_ ⟨.keyword .return_, "return", 1⟩
      (some (.literal (.bool true)))), _⟩ :=
    .head (.call (f := .function returning) rfl rfl) <| .head (.enter rfl (by decide)) <|
      .head .run <| .head .body <| .head .first <| .head .loop <|
        .head (.loopBody (v := .bool true) rfl rfl) <| .head .block <| .head .first .refl
  exact ⟨_, _, hpath, rfl⟩

end Recursion

/-- The `return` in the loop ends the call `f()`. -/
theorem return_never_escapes_loop : ∃ ν m χ κ ρ callee f,
    During Recursion.setting Recursion.calling ν ∧
      ν.Returns Recursion.setting (.bool true) m ∧
      InCall Recursion.setting χ κ ρ ν callee f ∧
      χ.Yields Recursion.setting (callee.result (f.result (.bool true) m.store) κ.machine.store)
        { m with scope := χ.machine.scope, callDepth := χ.machine.callDepth } := by
  obtain ⟨ν, m, hν, hreturns⟩ := Recursion.exists_returns
  rcases (return_never_escapes Recursion.setting).2.2.1 _ ν _ m rfl hν hreturns with
    ⟨-, hno⟩ | ⟨χ, κ, ρ, callee, f, -, hcall, -, hyields⟩
  · exact hno.elim
  · exact ⟨ν, m, χ, κ, ρ, callee, f, hν, hreturns, hcall, hyields⟩

end LoxWalk
