import Mathlib.Tactic.Choose
import LoxWalk.Proofs.Execution.Moments

/-!
# What an execution inherits from its parts

Some properties of executions depend neither on the code nor on what is in the store: they hold of
every single step, and nothing gets lost where parts are put together.  `Exec.Inherits` says what has
to be shown of such a property, and `Exec.Inherits.carried` that it then holds of every execution.

Nearly all single steps work on the store.  What they do depends on the store and the current scope,
and they change the store and nothing else (`Exec.OnStore`).  The only other step is to print.
-/

namespace LoxWalk

open Exec

namespace Exec

/-! ## Steps that work on the store -/

/-- Does to the store of a machine what `f` says for the store and the current scope. -/
def onStore {α : Type} (f : Store → Scope → EStateM.Result Interrupt Store α) : Exec α := fun m =>
  match f m.store m.scope with
  | .ok a σ => .ok a { m with store := σ }
  | .error i σ => .error i { m with store := σ }

/-- `x` works on the store alone. -/
def OnStore {α : Type} (x : Exec α) : Prop :=
  ∃ f, x = onStore f

namespace OnStore

variable {α β : Type}

theorem pure (a : α) : OnStore (Pure.pure a : Exec α) :=
  ⟨fun σ _ => .ok a σ, rfl⟩

theorem throw (i : Interrupt) : OnStore (MonadExcept.throw i : Exec α) :=
  ⟨fun σ _ => .error i σ, rfl⟩

theorem fault (t : Token) (e : RuntimeFault) : OnStore (Exec.fault t e : Exec α) :=
  .throw _

theorem modifyStore (f : Store → Store) : OnStore (Exec.modifyStore f) :=
  ⟨fun σ _ => .ok () (f σ), rfl⟩

theorem bind {x : Exec α} {f : α → Exec β} (hx : x.OnStore) (hf : ∀ a, (f a).OnStore) :
    (x >>= f).OnStore := by
  obtain ⟨g, rfl⟩ := hx
  choose h hh using hf
  refine ⟨fun σ scope => match g σ scope with
    | .ok a σ' => h a σ' scope
    | .error i σ' => .error i σ', funext fun m => ?_⟩
  show EStateM.bind _ _ _ = _
  cases hr : g m.store m.scope with
  | ok a σ =>
    simp only [EStateM.bind, onStore, hr, hh]
  | error i σ => simp only [EStateM.bind, onStore, hr]

/-- A step that looks at the store and the current scope first. -/
theorem get {f : Machine → Exec α} (hf : ∀ m, (f m).OnStore)
    (hrest : ∀ m d o, f { m with callDepth := d, output := o } = f m) :
    OnStore (MonadState.get >>= f) := by
  choose g hg using hf
  let machine (σ : Store) (scope : Scope) : Machine := ⟨σ, scope, 0, .new none⟩
  refine ⟨fun σ scope => g (machine σ scope) σ scope, funext fun m => ?_⟩
  show f m m = _
  have hm : f m = f (machine m.store m.scope) := (hrest m 0 (.new none)).symm
  rw [hm, hg]
  rfl

/-! ### The single steps -/

theorem operate (operator : Token) (outcome : Except RuntimeFault Value) :
    OnStore (Exec.operate operator outcome) := by
  cases outcome with
  | ok v => exact .pure v
  | error e => exact .fault operator e

theorem readVariable (s : Setting) (id : NodeId) (name : Token) :
    OnStore (Exec.readVariable s id name) := by
  refine .get (fun m => ?_) fun _ _ _ => rfl
  dsimp only
  split
  · exact .pure _
  · exact .fault _ _

theorem assignVariable (s : Setting) (id : NodeId) (name : Token) (v : Value) :
    OnStore (Exec.assignVariable s id name v) := by
  refine .get (fun m => ?_) fun _ _ _ => rfl
  dsimp only
  split
  · exact .modifyStore _
  · exact .fault _ _

theorem define (name : Token) (v : Value) : OnStore (Exec.define name v) :=
  ⟨fun σ scope => .ok () (σ.define scope name.lexeme v), rfl⟩

theorem newScope (outer : Scope) (bindings : Bindings) : OnStore (Exec.newScope outer bindings) :=
  .get (fun _ => .bind (.modifyStore _) fun _ => .pure _) fun _ _ _ => rfl

theorem newObject : OnStore Exec.newObject :=
  .get (fun _ => .bind (.modifyStore _) fun _ => .pure _) fun _ _ _ => rfl

theorem newClosure (decl : FunDecl) (scope : Scope) (isInitializer : Bool) :
    OnStore (Exec.newClosure decl scope isInitializer) :=
  .bind newObject fun _ => .pure _

theorem bindMethod (f : Closure) (i : Instance) : OnStore (Exec.bindMethod f i) :=
  .bind (.newScope _ _) fun _ => .newClosure _ _ _

theorem boundInstance (f : Closure) : OnStore (Exec.boundInstance f) :=
  .get (fun _ => .pure _) fun _ _ _ => rfl

theorem newInstance (c : Class) : OnStore (Exec.newInstance c) :=
  .get (fun _ => .bind (.modifyStore _) fun _ => .pure _) fun _ _ _ => rfl

theorem newMethods (scope : Scope) (decls : List FunDecl) (table : NameMap Closure) :
    OnStore (Exec.newMethods scope decls table) := by
  induction decls generalizing table with
  | nil => exact .pure table
  | cons decl decls ih => exact .bind (.newClosure _ _ _) fun _ => ih _

theorem superclassOf (name : Token) (e : Expr) (v : Value) :
    OnStore (Exec.superclassOf name e v) := by
  unfold Exec.superclassOf
  split
  · exact .pure _
  · split <;> exact .fault _ _

theorem declareClass (name : Token) (superclass : Option Class) (methods : List FunDecl) :
    OnStore (Exec.declareClass name superclass methods) := by
  refine .bind (.define _ _) fun _ => .get (fun m => ?_) fun _ _ _ => rfl
  -- the scope of the methods is that of the class, or one more that knows the superclass
  cases superclass with
  | some c =>
    refine .bind (.newScope _ _) fun _ => .bind (.newMethods _ _ _) fun _ => ?_
    exact .bind newObject fun _ => .define _ _
  | none =>
    refine .bind (.pure m.scope) fun _ => .bind (.newMethods _ _ _) fun _ => ?_
    exact .bind newObject fun _ => .define _ _

theorem getProperty (v : Value) (name : Token) : OnStore (Exec.getProperty v name) := by
  unfold Exec.getProperty
  split
  · rename_i i
    refine .get (fun m => ?_) fun _ _ _ => rfl
    split
    · exact .pure _
    · split
      · exact .bind (.bindMethod _ _) fun _ => .pure _
      · exact .fault _ _
  · exact .fault _ _

theorem fieldOwner (v : Value) (name : Token) : OnStore (Exec.fieldOwner v name) := by
  unfold Exec.fieldOwner
  split
  · exact .pure _
  · exact .fault _ _

theorem superMethod (s : Setting) (id : NodeId) (keyword method : Token) :
    OnStore (Exec.superMethod s id keyword method) := by
  refine .get (fun m => ?_) fun _ _ _ => rfl
  split
  · exact .fault _ _
  · split
    · split
      · exact .bind (.bindMethod _ _) fun _ => .pure _
      · exact .fault _ _
    · exact .fault _ _

end OnStore

/-! ## Where an execution ends -/

/-- An outcome with another machine. -/
def onMachine {α : Type} (f : Machine → Machine) :
    EStateM.Result Interrupt Machine α → EStateM.Result Interrupt Machine α
  | .ok a m => .ok a (f m)
  | .error i m => .error i (f m)

theorem inScope_eq {α : Type} (scope : Scope) (x : Exec α) (m : Machine) :
    inScope scope x m = onMachine ({ · with scope := m.scope }) (x { m with scope := scope }) := by
  unfold inScope
  cases x { m with scope := scope } <;> rfl

theorem asCall_eq {α : Type} (x : Exec α) (m : Machine) :
    asCall x m = onMachine (fun n => { n with callDepth := n.callDepth - 1 }) (x m.called) := by
  unfold asCall Machine.called
  cases x { m with callDepth := m.callDepth + 1 } <;> rfl

section

variable {α : Type} {r : EStateM.Result Interrupt Machine α} {f : Machine → Machine} {m : Machine}

theorem eq_ok_of_onMachine {a : α} (h : onMachine f r = .ok a m) :
    ∃ m₁, r = .ok a m₁ ∧ m = f m₁ := by
  cases r with
  | ok b m₁ =>
    cases h
    exact ⟨m₁, rfl, rfl⟩
  | error i m₁ => cases h

theorem eq_error_of_onMachine {i : Interrupt} (h : onMachine f r = .error i m) :
    ∃ m₁, r = .error i m₁ ∧ m = f m₁ := by
  cases r with
  | ok a m₁ => cases h
  | error j m₁ =>
    cases h
    exact ⟨m₁, rfl, rfl⟩

end

section

variable {α β : Type} {x : Exec α} {f : α → Exec β} {m m₁ : Machine} {a : α} {i : Interrupt}

theorem after_of_ok (h : x m = .ok a m₁) : x.after m = m₁ := by
  rw [after, h]

theorem after_of_error (h : x m = .error i m₁) : x.after m = m₁ := by
  rw [after, h]

theorem after_bind_of_ok (h : x m = .ok a m₁) : (x >>= f).after m = (f a).after m₁ := by
  rw [after, bind_of_ok h, after]

theorem after_bind_of_error (h : x m = .error i m₁) : (x >>= f).after m = x.after m := by
  rw [after_of_error (bind_of_error h), after_of_error h]

theorem after_inScope (x : Exec α) (scope : Scope) (m : Machine) :
    (inScope scope x).after m = { x.after { m with scope := scope } with scope := m.scope } := by
  unfold after inScope
  cases x { m with scope := scope } <;> rfl

theorem after_asCall (x : Exec α) (m : Machine) :
    (asCall x).after m =
      { x.after m.called with callDepth := (x.after m.called).callDepth - 1 } := by
  unfold after asCall Machine.called
  cases x { m with callDepth := m.callDepth + 1 } <;> rfl

theorem after_catchReturn (x : Exec Unit) (m : Machine) :
    (catchReturn x).after m = x.after m := by
  unfold after catchReturn
  cases x m with
  | ok a m' => rfl
  | error i m' => cases i <;> rfl

end

/-- The instance whose field is to be set is the operand itself. -/
theorem eq_instance_of_fieldOwner {v : Value} {name : Token} {m m' : Machine} {i : Instance}
    (h : fieldOwner v name m = .ok i m') : v = .instance_ i ∧ m' = m := by
  unfold fieldOwner at h
  split at h
  · cases h
    exact ⟨rfl, rfl⟩
  · cases h

/-- The class that is inherited from is the operand itself. -/
theorem eq_class_of_superclassOf {name : Token} {e : Expr} {v : Value} {m m' : Machine} {c : Class}
    (h : superclassOf name e v m = .ok c m') : v = .class_ c ∧ m' = m := by
  unfold superclassOf at h
  split at h
  · cases h
    exact ⟨rfl, rfl⟩
  · split at h <;> cases h

end Exec

/-! ## Properties of executions -/

/-- The property `P` holds of carrying out the task of a moment. -/
def Moment.Carried (s : Setting) (P : {α : Type} → Exec α → Machine → Prop) (μ : Moment) : Prop :=
  match μ.task with
  | .evaluate e => P (evaluate s μ.fuel e) μ.machine
  | .evaluateAll es => P (evaluateAll s μ.fuel es) μ.machine
  | .assign id name v => P (assignVariable s id name v) μ.machine
  | .bind f i => P (bindMethod f i) μ.machine
  | .call callee paren arguments => P (call s μ.fuel callee paren arguments) μ.machine
  | .enter callee paren arguments => P (enter s μ.fuel callee paren arguments) μ.machine
  | .run f arguments => P (run s μ.fuel f arguments) μ.machine
  | .execute t => P (execute s μ.fuel t) μ.machine
  | .executeAll ts => P (executeAll s μ.fuel ts) μ.machine
  | .repeatWhile condition body => P (repeatWhile s μ.fuel condition body) μ.machine
  | .declareClass name superclass methods => P (declareClass name superclass methods) μ.machine

/-- The property `P` passes from parts to wholes; what is printed is printed at a moment that is
`reached`. -/
structure Exec.Inherits (s : Setting) (reached : Moment → Prop)
    (P : {α : Type} → Exec α → Machine → Prop) : Prop where
  step {α : Type} {x : Exec α} (hx : x.OnStore) (m : Machine) : P x m
  print {n : Nat} {e : Expr} {m : Machine} {v : Value} {m₁ : Machine}
    (hμ : reached ⟨n + 1, .execute (.print e), m⟩) (hv : evaluate s n e m = .ok v m₁) :
    P (Exec.print v) m₁
  bind {α β : Type} {x : Exec α} {f : α → Exec β} {m : Machine} (hx : P x m)
    (hf : ∀ a m₁, x m = .ok a m₁ → P (f a) m₁) : P (x >>= f) m
  depth {α : Type} (f : Nat → Exec α) {m : Machine} (hf : P (f m.callDepth) m) :
    P (do let m ← get; f m.callDepth) m
  inScope {α : Type} {x : Exec α} {scope : Scope} {m : Machine}
    (hx : P x { m with scope := scope }) : P (Exec.inScope scope x) m
  asCall {α : Type} {x : Exec α} {m : Machine} (hx : P x m.called) : P (Exec.asCall x) m
  catchReturn {x : Exec Unit} {m : Machine} (hx : P x m) : P (Exec.catchReturn x) m

namespace Exec.Inherits

variable {s : Setting} {reached : Moment → Prop} {P : {α : Type} → Exec α → Machine → Prop}
  {n : Nat} {m : Machine}

/-- `P` holds of the tasks that a moment comes to next. -/
def NextCarried (s : Setting) (P : {α : Type} → Exec α → Machine → Prop) (μ : Moment) : Prop :=
  ∀ ν, Next s μ ν → ν.Carried s P

/-! ### One case for each kind of task -/

theorem carried_evaluate (h : Inherits s reached P) {e : Expr}
    (hnext : NextCarried s P ⟨n + 1, .evaluate e, m⟩) : P (evaluate s (n + 1) e) m := by
  cases e with
  | literal value => exact h.step (.pure value.value) m
  | group inner => exact hnext _ .group
  | unary operator operand =>
    rw [evaluate]
    exact h.bind (hnext _ .operand) fun v m₁ _ => h.step (.operate _ _) m₁
  | binary left operator right =>
    rw [evaluate]
    refine h.bind (hnext _ .left) fun a m₁ ha => ?_
    exact h.bind (hnext _ (.right ha)) fun b m₂ _ => h.step (.operate _ _) m₂
  | logical left operator right =>
    rw [evaluate]
    refine h.bind (hnext _ .logicalLeft) fun a m₁ ha => ?_
    split
    · exact h.step (.pure a) m₁
    · rename_i hop
      exact hnext _ (.logicalRight ha (Bool.eq_false_iff.mpr hop))
  | var id name => exact h.step (.readVariable s id name) m
  | assign id name value =>
    rw [evaluate]
    refine h.bind (hnext _ .assigned) fun v m₁ hv => ?_
    exact h.bind (hnext _ (.assign hv)) fun _ m₂ _ => h.step (.pure v) m₂
  | call callee paren arguments =>
    rw [evaluate]
    refine h.bind (hnext _ .callee) fun f m₁ hf => ?_
    refine h.bind (hnext _ (.arguments hf)) fun vs m₂ hvs => ?_
    exact hnext _ (.call hf hvs)
  | get object name =>
    rw [evaluate]
    exact h.bind (hnext _ .object) fun v m₁ _ => h.step (.getProperty v name) m₁
  | set object name value =>
    rw [evaluate]
    refine h.bind (hnext _ .setObject) fun v m₁ hv => ?_
    refine h.bind (h.step (.fieldOwner v name) m₁) fun i m₂ hi => ?_
    obtain ⟨rfl, rfl⟩ := eq_instance_of_fieldOwner hi
    refine h.bind (hnext _ (.setValue hv)) fun w m₃ _ => ?_
    exact h.step (.bind (.modifyStore _) fun _ => .pure w) m₃
  | this id keyword => exact h.step (.readVariable s id keyword) m
  | super id keyword method => exact h.step (.superMethod s id keyword method) m

theorem carried_evaluateAll (h : Inherits s reached P) {es : List Expr}
    (hnext : NextCarried s P ⟨n + 1, .evaluateAll es, m⟩) : P (evaluateAll s (n + 1) es) m := by
  cases es with
  | nil => exact h.step (.pure []) m
  | cons e es =>
    rw [evaluateAll]
    refine h.bind (hnext _ .head) fun v m₁ hv => ?_
    exact h.bind (hnext _ (.tail hv)) fun vs m₂ _ => h.step (.pure _) m₂

theorem carried_call (h : Inherits s reached P) {callee : Value} {paren : Token}
    {arguments : List Value} (hnext : NextCarried s P ⟨n + 1, .call callee paren arguments, m⟩) :
    P (call s (n + 1) callee paren arguments) m := by
  rw [call]
  split
  · exact h.step (.fault _ _) m
  · rename_i arity harity
    split
    · exact h.step (.fault _ _) m
    · rename_i hlength
      refine h.depth (fun depth => if s.maxCallDepth ≤ depth then fault paren .stackOverflow
        else Exec.asCall (withStackFor depth (enter s n callee paren arguments))) ?_
      split
      · exact h.step (.fault _ _) m
      · rename_i hdepth
        rw [withStackFor_eq]
        have hlength : arguments.length = arity := Decidable.not_not.mp hlength
        exact h.asCall (hnext _ (.enter (hlength ▸ harity) (Nat.lt_of_not_le hdepth)))

theorem carried_enter (h : Inherits s reached P) {callee : Value} {paren : Token}
    {arguments : List Value} (hnext : NextCarried s P ⟨n + 1, .enter callee paren arguments, m⟩) :
    P (enter s (n + 1) callee paren arguments) m := by
  cases callee with
  | native f =>
    rw [enter]
    split
    · exact h.step (.pure _) m
    · exact h.step (.fault _ _) m
  | function f =>
    rw [enter]
    exact hnext _ .run
  | class_ c =>
    rw [enter]
    refine h.bind (h.step (.newInstance c) m) fun i m₁ hi => ?_
    -- the instance is the next record
    cases hi
    split
    · rename_i init hinit
      refine h.bind (hnext _ (.bindInitializer hinit)) fun g m₂ hg => ?_
      exact h.bind (hnext _ (.runInitializer hinit hg)) fun _ m₃ _ => h.step (.pure _) m₃
    · exact h.step (.pure _) _
  | _ => exact h.step (.fault _ _) m

theorem carried_run (h : Inherits s reached P) {f : Closure} {arguments : List Value}
    (hnext : NextCarried s P ⟨n + 1, .run f arguments, m⟩) : P (run s (n + 1) f arguments) m := by
  rw [run]
  refine h.bind (h.step (.newScope _ _) m) fun scope m₁ hscope => ?_
  cases hscope
  refine h.bind (h.catchReturn (h.inScope (hnext _ .body))) fun v m₂ _ => ?_
  split
  · exact h.step (.boundInstance f) m₂
  · exact h.step (.pure v) m₂

theorem carried_execute (h : Inherits s reached P) {t : Stmt}
    (hμ : reached ⟨n + 1, .execute t, m⟩) (hnext : NextCarried s P ⟨n + 1, .execute t, m⟩) :
    P (execute s (n + 1) t) m := by
  cases t with
  | expression e =>
    rw [execute]
    exact h.bind (hnext _ .expression) fun v m₁ _ => h.step (.pure ()) m₁
  | print e =>
    rw [execute]
    exact h.bind (hnext _ .print) fun v m₁ hv => h.print hμ hv
  | var name initializer =>
    cases initializer with
    | none => exact h.step (.define name .nil) m
    | some e =>
      rw [execute]
      exact h.bind (hnext _ .initializer) fun v m₁ _ => h.step (.define name v) m₁
  | block body =>
    have hopen : OnStore (do newScope (← get).scope .empty) :=
      .get (fun m => .newScope m.scope .empty) fun _ _ _ => rfl
    show P ((do newScope (← get).scope .empty) >>= fun scope =>
      Exec.inScope scope (executeAll s n body)) m
    refine h.bind (h.step hopen m) fun scope m₁ hscope => ?_
    cases hscope
    exact h.inScope (hnext _ .block)
  | if_ condition thenBranch elseBranch =>
    cases elseBranch with
    | none =>
      rw [execute]
      refine h.bind (hnext _ .condition) fun v m₁ hv => ?_
      split
      · rename_i ht
        exact hnext _ (.thenBranch hv ht)
      · exact h.step (.pure ()) m₁
    | some branch =>
      rw [execute]
      refine h.bind (hnext _ .condition) fun v m₁ hv => ?_
      split
      · rename_i ht
        exact hnext _ (.thenBranch hv ht)
      · rename_i ht
        exact hnext _ (.elseBranch hv (Bool.eq_false_iff.mpr ht))
  | while_ condition body => exact hnext _ .loop
  | fun_ decl =>
    have hdeclare : OnStore (do
        let f ← newClosure decl (← get).scope false
        define decl.name (.function f)) :=
      .get (fun m => .bind (.newClosure _ _ _) fun _ => .define _ _) fun _ _ _ => rfl
    exact h.step hdeclare m
  | return_ keyword value =>
    cases value with
    | none => exact h.step (.throw _) m
    | some e =>
      rw [execute]
      exact h.bind (hnext _ .returned) fun v m₁ _ => h.step (.throw _) m₁
  | class_ name superclass methods =>
    cases superclass with
    | none => exact hnext _ .declareBase
    | some e =>
      rw [execute]
      refine h.bind (hnext _ .superclass) fun v m₁ hv => ?_
      refine h.bind (h.step (.superclassOf name e v) m₁) fun c m₂ hc => ?_
      obtain ⟨rfl, rfl⟩ := eq_class_of_superclassOf hc
      exact hnext _ (.declareDerived hv)

theorem carried_executeAll (h : Inherits s reached P) {ts : List Stmt}
    (hnext : NextCarried s P ⟨n + 1, .executeAll ts, m⟩) : P (executeAll s (n + 1) ts) m := by
  cases ts with
  | nil => exact h.step (.pure ()) m
  | cons t ts =>
    rw [executeAll]
    exact h.bind (hnext _ .first) fun _ m₁ ht => hnext _ (.rest ht)

theorem carried_repeatWhile (h : Inherits s reached P) {condition : Expr} {body : Stmt}
    (hnext : NextCarried s P ⟨n + 1, .repeatWhile condition body, m⟩) :
    P (repeatWhile s (n + 1) condition body) m := by
  rw [repeatWhile]
  refine h.bind (hnext _ .loopCondition) fun v m₁ hv => ?_
  split
  · rename_i ht
    exact h.bind (hnext _ (.loopBody hv ht)) fun _ m₂ hb => hnext _ (.loopAgain hv ht hb)
  · exact h.step (.pure ()) m₁

/-! ### All of an execution -/

/-- A property that passes from parts to wholes holds of carrying out any task. -/
theorem carried (h : Inherits s reached P)
    (hreached : ∀ μ ν, reached μ → Next s μ ν → reached ν) {μ : Moment} (hμ : reached μ) :
    μ.Carried s P := by
  obtain ⟨fuel, task, m⟩ := μ
  induction fuel generalizing task m with
  | zero =>
    cases task with
    | assign id name v => exact h.step (.assignVariable s id name v) m
    | bind f i => exact h.step (.bindMethod f i) m
    | declareClass name superclass methods => exact h.step (.declareClass _ _ _) m
    | _ => exact h.step (.throw .outOfFuel) m
  | succ n ih =>
    have hnext : NextCarried s P ⟨n + 1, task, m⟩ := by
      rintro ⟨k, task', m'⟩ hν
      obtain rfl : k = n := by cases hν <;> rfl
      exact ih task' m' (hreached _ _ hμ hν)
    cases task with
    | evaluate e => exact h.carried_evaluate hnext
    | evaluateAll es => exact h.carried_evaluateAll hnext
    | assign id name v => exact h.step (.assignVariable s id name v) m
    | bind f i => exact h.step (.bindMethod f i) m
    | call callee paren arguments => exact h.carried_call hnext
    | enter callee paren arguments => exact h.carried_enter hnext
    | run f arguments => exact h.carried_run hnext
    | execute t => exact h.carried_execute hμ hnext
    | executeAll ts => exact h.carried_executeAll hnext
    | repeatWhile condition body => exact h.carried_repeatWhile hnext
    | declareClass name superclass methods => exact h.step (.declareClass _ _ _) m

end Exec.Inherits

end LoxWalk
