import LoxWalk.Proofs.Confinement.Steps
import LoxWalk.Proofs.Execution.Moments

/-!
# Execution stays inside what it can reach

Code runs inside a territory when all variables of its scope and of the top level may be written
there, and so may those of every function that it comes to run (`Territory.Covers`).  One step of a
moment inside leads to a moment inside, and from this it follows by induction on the fuel that all of
the execution stays inside (`Inside.leaves`).

Taking what can be reached from the current scope and from the top level as the territory yields the
main statement: a frame or record that cannot be reached has the same contents afterwards, however
the execution ends, and so has a frame that encloses none of the code that runs.
-/

namespace LoxWalk

open Exec

namespace Territory

variable {σ₀ : Store} (T : Territory σ₀)

/-! ## Moments inside a territory -/

/-- Every function that is run from this moment on may write its variables, if it is inside. -/
def Covers (s : Setting) (μ : Moment) : Prop :=
  ∀ ν f arguments, During s μ ν → ν.task = .run f arguments → T.Holds (.function f) →
    T.Writes f.scope

/-- What a task works on is inside. -/
def HoldsTask (m : Machine) : Task → Prop
  | .assign _ _ v => T.Writes m.scope ∧ T.Holds v
  | .bind f i => T.Holds (.function f) ∧ T.Holds (.instance_ i)
  | .call callee _ arguments => T.Holds callee ∧ ∀ v ∈ arguments, T.Holds v
  | .enter callee _ arguments => T.Holds callee ∧ ∀ v ∈ arguments, T.Holds v
  | .run f arguments => T.Holds (.function f) ∧ ∀ v ∈ arguments, T.Holds v
  | .declareClass _ superclass _ => T.Writes m.scope ∧ ∀ c ∈ superclass, T.Holds (.class_ c)
  | _ => T.Writes m.scope

/-- A moment inside a territory. -/
structure Inside (s : Setting) (μ : Moment) : Prop where
  good : T.Good μ.machine.store
  task : T.HoldsTask μ.machine μ.task
  covers : T.Covers s μ

/-- Carrying out the task of a moment stays inside. -/
def Leaves (s : Setting) (μ : Moment) : Prop :=
  match μ.task with
  | .evaluate e => T.Confines (evaluate s μ.fuel e) μ.machine T.Holds
  | .evaluateAll es => T.Confines (evaluateAll s μ.fuel es) μ.machine fun vs => ∀ v ∈ vs, T.Holds v
  | .assign id name v => T.Confines (assignVariable s id name v) μ.machine fun _ => True
  | .bind f i => T.Confines (bindMethod f i) μ.machine fun g => T.Holds (.function g)
  | .call callee paren arguments =>
    T.Confines (call s μ.fuel callee paren arguments) μ.machine T.Holds
  | .enter callee paren arguments =>
    T.Confines (enter s μ.fuel callee paren arguments) μ.machine T.Holds
  | .run f arguments => T.Confines (run s μ.fuel f arguments) μ.machine T.Holds
  | .execute t => T.Confines (execute s μ.fuel t) μ.machine fun _ => True
  | .executeAll ts => T.Confines (executeAll s μ.fuel ts) μ.machine fun _ => True
  | .repeatWhile condition body =>
    T.Confines (repeatWhile s μ.fuel condition body) μ.machine fun _ => True
  | .declareClass name superclass methods =>
    T.Confines (declareClass name superclass methods) μ.machine fun _ => True

variable {T} {s : Setting} {n : Nat} {m : Machine}

theorem Covers.next {μ ν : Moment} (h : T.Covers s μ) (hν : Next s μ ν) : T.Covers s ν :=
  fun ρ f arguments hρ => h ρ f arguments (.head hν hρ)

/-- The next tasks stay inside, if they are inside at first. -/
def NextLeave (T : Territory σ₀) (s : Setting) (μ : Moment) : Prop :=
  ∀ ν, Next s μ ν → T.Good ν.machine.store → T.HoldsTask ν.machine ν.task → T.Leaves s ν

/-! ## One case for each kind of task -/

theorem leaves_evaluate {e : Expr} (hglobals : T.Writes s.globals)
    (h : T.Inside s ⟨n + 1, .evaluate e, m⟩) (hnext : T.NextLeave s ⟨n + 1, .evaluate e, m⟩) :
    T.Leaves s ⟨n + 1, .evaluate e, m⟩ := by
  obtain ⟨hgood, hscope, -⟩ := h
  have hscope : T.Writes m.scope := hscope
  show T.Confines (evaluate s (n + 1) e) m T.Holds
  cases e with
  | literal value =>
    rw [evaluate]
    exact .pure hgood (holds_of_isPlain (isPlain_literal value))
  | group inner =>
    rw [evaluate]
    exact hnext _ .group hgood hscope
  | unary operator operand =>
    rw [evaluate]
    refine .bind (hnext _ .operand hgood hscope) fun v m₁ _ hk _ => ?_
    exact confines_operate hk.good fun w hw => holds_of_isPlain (isPlain_of_applyUnary hw)
  | binary left operator right =>
    rw [evaluate]
    refine .bind (hnext _ .left hgood hscope) fun a m₁ ha hk _ => ?_
    refine .bind (hnext _ (.right ha) hk.good (hk.writes hscope)) fun b m₂ _ hk₂ _ => ?_
    exact confines_operate hk₂.good fun w hw => holds_of_isPlain (isPlain_of_applyBinary hw)
  | logical left operator right =>
    rw [evaluate]
    refine .bind (hnext _ .logicalLeft hgood hscope) fun a m₁ ha hk hheld => ?_
    split
    · exact .pure hk.good hheld
    · rename_i hop
      exact hnext _ (.logicalRight ha (Bool.eq_false_iff.mpr hop)) hk.good (hk.writes hscope)
  | var id name =>
    rw [evaluate]
    exact confines_readVariable hgood hscope hglobals
  | assign id name value =>
    rw [evaluate]
    refine .bind (hnext _ .assigned hgood hscope) fun v m₁ hv hk hheld => ?_
    refine .bind (hnext _ (.assign hv) hk.good ⟨hk.writes hscope, hheld⟩) fun _ m₂ _ hk₂ _ => ?_
    exact .pure hk₂.good hheld
  | call callee paren arguments =>
    rw [evaluate]
    refine .bind (hnext _ .callee hgood hscope) fun f m₁ hf hk hheld => ?_
    refine .bind (hnext _ (.arguments hf) hk.good (hk.writes hscope)) fun vs m₂ hvs hk₂ hvals => ?_
    exact hnext _ (.call hf hvs) hk₂.good ⟨hheld, hvals⟩
  | get object name =>
    rw [evaluate]
    refine .bind (hnext _ .object hgood hscope) fun v m₁ hv hk hheld => ?_
    cases v with
    | instance_ i =>
      cases hfield : m₁.store.field? i.record name.lexeme with
      | some w =>
        refine .of_eq (getProperty_of_field hfield) (.pure hk.good ?_)
        exact hk.good.field? (hheld _ (.inl rfl)) hfield
      | none =>
        refine .of_eq (getProperty_of_no_field hfield) (confines_methodFor hk.good fun f hf => ?_)
        have hmethod : T.Holds (.function f) := .of_method (fun p hp => hheld p (.inr hp)) hf
        exact hnext _ (.method hv hfield hf) hk.good ⟨hmethod, hheld⟩
    | _ => exact .fault hk.good
  | set object name value =>
    rw [evaluate]
    refine .bind (hnext _ .setObject hgood hscope) fun v m₁ hv hk hheld => ?_
    cases v with
    | instance_ i =>
      refine .bind_ok (a := i) (n := m₁) rfl rfl ?_
      refine .bind (hnext _ (.setValue hv) hk.good (hk.writes hscope)) fun w m₂ _ hk₂ hw => ?_
      refine .bind_ok (a := ()) rfl rfl (.pure ?_ hw)
      exact hk₂.good.setField (hheld _ (.inl rfl)) _ hw
    | _ => exact .bind (Q := fun _ => True) (.fault hk.good) fun i m₂ hi => nomatch hi
  | this id keyword =>
    rw [evaluate]
    exact confines_readVariable hgood hscope hglobals
  | super id keyword method =>
    rw [evaluate]
    obtain ⟨d, c, i, hd, hc, hi, heq⟩ | ⟨-, heq⟩ := superMethod_cases s id keyword method m
    · -- both come out of the current scope
      have hfound : ∀ (d : Nat) (x : String) (v : Value), m.store.getAt? m.scope d x = some v →
          T.Holds v := by
        intro d x v hv
        obtain ⟨outer, houter, hv⟩ := Option.bind_eq_some_iff.mp hv
        refine hgood.getLocal? (T.reach_of_write _ (hscope _ ?_)) hv
        exact Scope.refers_of_ancestor? houter outer.refers_frame
      refine .of_eq heq (confines_methodFor hgood fun f hf => ?_)
      have hmethod : T.Holds (.function f) := .of_method (hfound _ _ _ hc) hf
      exact hnext _ (.superMethod hd hc hi hf) hgood ⟨hmethod, hfound _ _ _ hi⟩
    · exact .of_eq heq (.fault hgood)

theorem leaves_evaluateAll {es : List Expr} (h : T.Inside s ⟨n + 1, .evaluateAll es, m⟩)
    (hnext : T.NextLeave s ⟨n + 1, .evaluateAll es, m⟩) :
    T.Leaves s ⟨n + 1, .evaluateAll es, m⟩ := by
  obtain ⟨hgood, hscope, -⟩ := h
  have hscope : T.Writes m.scope := hscope
  show T.Confines (evaluateAll s (n + 1) es) m fun vs => ∀ v ∈ vs, T.Holds v
  cases es with
  | nil =>
    rw [evaluateAll]
    exact .pure hgood (by simp)
  | cons e es =>
    rw [evaluateAll]
    refine .bind (hnext _ .head hgood hscope) fun v m₁ hv hk hheld => ?_
    refine .bind (hnext _ (.tail hv) hk.good (hk.writes hscope)) fun vs m₂ _ hk₂ hvals => ?_
    exact .pure hk₂.good (List.forall_mem_cons.mpr ⟨hheld, hvals⟩)

theorem leaves_call {callee : Value} {paren : Token} {arguments : List Value}
    (h : T.Inside s ⟨n + 1, .call callee paren arguments, m⟩)
    (hnext : T.NextLeave s ⟨n + 1, .call callee paren arguments, m⟩) :
    T.Leaves s ⟨n + 1, .call callee paren arguments, m⟩ := by
  obtain ⟨hgood, hheld, -⟩ := h
  show T.Confines (call s (n + 1) callee paren arguments) m T.Holds
  rw [call]
  split
  · exact .fault hgood
  · rename_i arity harity
    split
    · exact .fault hgood
    · rename_i hlength
      refine .bind_ok (a := m) (n := m) rfl rfl ?_
      dsimp only
      split
      · exact .fault hgood
      · rename_i hdepth
        rw [withStackFor_eq]
        have hlength : arguments.length = arity := Decidable.not_not.mp hlength
        exact .asCall (hnext _ (.enter (hlength ▸ harity) (Nat.lt_of_not_le hdepth)) hgood hheld)

theorem leaves_enter (hhost : s.host.Confined) {callee : Value} {paren : Token}
    {arguments : List Value} (h : T.Inside s ⟨n + 1, .enter callee paren arguments, m⟩)
    (hnext : T.NextLeave s ⟨n + 1, .enter callee paren arguments, m⟩) :
    T.Leaves s ⟨n + 1, .enter callee paren arguments, m⟩ := by
  obtain ⟨hgood, ⟨hcallee, harguments⟩, -⟩ := h
  have hgood : T.Good m.store := hgood
  show T.Confines (enter s (n + 1) callee paren arguments) m T.Holds
  cases callee with
  | native f =>
    rw [enter]
    split
    · rename_i v hv
      refine .pure hgood fun p hp => ?_
      obtain ⟨a, ha, hp⟩ := hhost f.name arguments v hv p hp
      exact harguments a ha p hp
    · exact .fault hgood
  | function f =>
    rw [enter]
    exact hnext _ .run hgood ⟨hcallee, harguments⟩
  | class_ c =>
    rw [enter]
    refine .bind_ok (a := ⟨m.store.freshRecord, c⟩) (n := m.withRecord) rfl rfl ?_
    have hinstance : T.Holds (.instance_ ⟨m.store.freshRecord, c⟩) := by
      rintro p (rfl | hp)
      · exact T.reach_of_write _ hgood.write_freshRecord
      · exact hcallee p hp
    split
    · rename_i init hinit
      have hmethod : T.Holds (.function init) := .of_method hcallee hinit
      refine .bind (hnext _ (.bindInitializer hinit) hgood.addRecord ⟨hmethod, hinstance⟩) ?_
      intro g m₁ hg hk hheld
      refine .bind (hnext _ (.runInitializer hinit hg) hk.good ⟨hheld, harguments⟩) ?_
      exact fun _ m₂ _ hk₂ _ => .pure hk₂.good hinstance
    · exact .pure hgood.addRecord hinstance
  | _ => exact .fault hgood

theorem leaves_run {f : Closure} {arguments : List Value}
    (h : T.Inside s ⟨n + 1, .run f arguments, m⟩)
    (hnext : T.NextLeave s ⟨n + 1, .run f arguments, m⟩) :
    T.Leaves s ⟨n + 1, .run f arguments, m⟩ := by
  obtain ⟨hgood, ⟨hf, harguments⟩, hcovers⟩ := h
  have hgood : T.Good m.store := hgood
  have hscope : T.Writes f.scope := hcovers _ f arguments .refl rfl hf
  have hopened := hgood.addFrame (Closure.forall_bindings (f := f) harguments)
  show T.Confines (run s (n + 1) f arguments) m T.Holds
  rw [run]
  refine .bind_ok (a := .inside m.store.freshFrame f.scope) rfl rfl ?_
  have hbody := hnext _ .body hopened (.inside hgood.write_freshFrame hscope)
  refine .bind (.catchReturn (.inScope hbody)) fun v m₁ _ hk hv => ?_
  split
  · -- an initializer yields its instance
    refine .bind_ok (a := m₁) (n := m₁) rfl rfl (.pure hk.good ?_)
    cases hi : m₁.store.getLocal? f.scope thisName with
    | none => exact holds_nil
    | some w =>
      exact hk.good.getLocal? (T.reach_of_write _ (hscope _ f.scope.refers_frame)) hi
  · exact .pure hk.good hv

theorem leaves_execute {t : Stmt} (h : T.Inside s ⟨n + 1, .execute t, m⟩)
    (hnext : T.NextLeave s ⟨n + 1, .execute t, m⟩) : T.Leaves s ⟨n + 1, .execute t, m⟩ := by
  obtain ⟨hgood, hscope, -⟩ := h
  have hscope : T.Writes m.scope := hscope
  have hgood : T.Good m.store := hgood
  show T.Confines (execute s (n + 1) t) m fun _ => True
  cases t with
  | expression e =>
    rw [execute]
    exact .bind (hnext _ .expression hgood hscope) fun v m₁ _ hk _ => .pure hk.good trivial
  | print e =>
    rw [execute]
    exact .bind (hnext _ .print hgood hscope) fun v m₁ _ hk _ => confines_print hk.good
  | var name initializer =>
    cases initializer with
    | none =>
      rw [execute]
      exact confines_define hgood hscope holds_nil
    | some e =>
      rw [execute]
      refine .bind (hnext _ .initializer hgood hscope) fun v m₁ _ hk hv => ?_
      exact confines_define hk.good (hk.writes hscope) hv
  | block body =>
    rw [execute]
    refine .bind_ok (a := m) (n := m) rfl rfl ?_
    refine .bind_ok (a := .inside m.store.freshFrame m.scope) rfl rfl (.inScope ?_)
    have hopened : T.Good (m.store.addFrame .empty) :=
      hgood.addFrame fun x v hv => by cases hv
    exact hnext _ .block hopened (.inside hgood.write_freshFrame hscope)
  | if_ condition thenBranch elseBranch =>
    cases elseBranch with
    | none =>
      rw [execute]
      refine .bind (hnext _ .condition hgood hscope) fun v m₁ hv hk _ => ?_
      split
      · rename_i ht
        exact hnext _ (.thenBranch hv ht) hk.good (hk.writes hscope)
      · exact .pure hk.good trivial
    | some branch =>
      rw [execute]
      refine .bind (hnext _ .condition hgood hscope) fun v m₁ hv hk _ => ?_
      split
      · rename_i ht
        exact hnext _ (.thenBranch hv ht) hk.good (hk.writes hscope)
      · rename_i ht
        exact hnext _ (.elseBranch hv (Bool.eq_false_iff.mpr ht)) hk.good (hk.writes hscope)
  | while_ condition body =>
    rw [execute]
    exact hnext _ .loop hgood hscope
  | fun_ decl =>
    rw [execute]
    refine .bind_ok (a := m) (n := m) rfl rfl ?_
    refine .bind_ok (a := ⟨m.store.freshObject, decl, m.scope, false⟩)
      (n := { m with store := m.store.useObject }) rfl rfl ?_
    exact confines_define (hgood.withObjects _) hscope fun p hp => T.reach_of_write p (hscope p hp)
  | return_ keyword value =>
    cases value with
    | none =>
      rw [execute]
      exact .of_error rfl (.refl hgood) holds_nil
    | some e =>
      rw [execute]
      refine .bind (hnext _ .returned hgood hscope) fun v m₁ _ hk hv => ?_
      exact .of_error rfl (.refl hk.good) hv
  | class_ name superclass methods =>
    cases superclass with
    | none =>
      rw [execute]
      exact hnext _ .declareBase hgood ⟨hscope, by simp⟩
    | some e =>
      rw [execute]
      refine .bind (hnext _ .superclass hgood hscope) fun v m₁ hv hk hheld => ?_
      cases v with
      | class_ c =>
        refine .bind_ok (a := c) (n := m₁) rfl rfl ?_
        refine hnext _ (.declareDerived hv) hk.good ⟨hk.writes hscope, ?_⟩
        rintro _ ⟨⟩
        exact hheld
      | _ =>
        refine .bind (Q := fun _ => False) ?_ fun c m₂ _ _ hfalse => hfalse.elim
        unfold superclassOf
        cases e <;> exact .fault hk.good

theorem leaves_executeAll {ts : List Stmt} (h : T.Inside s ⟨n + 1, .executeAll ts, m⟩)
    (hnext : T.NextLeave s ⟨n + 1, .executeAll ts, m⟩) :
    T.Leaves s ⟨n + 1, .executeAll ts, m⟩ := by
  obtain ⟨hgood, hscope, -⟩ := h
  have hscope : T.Writes m.scope := hscope
  show T.Confines (executeAll s (n + 1) ts) m fun _ => True
  cases ts with
  | nil =>
    rw [executeAll]
    exact .pure hgood trivial
  | cons t ts =>
    rw [executeAll]
    refine .bind (hnext _ .first hgood hscope) fun _ m₁ ht hk _ => ?_
    exact hnext _ (.rest ht) hk.good (hk.writes hscope)

theorem leaves_repeatWhile {condition : Expr} {body : Stmt}
    (h : T.Inside s ⟨n + 1, .repeatWhile condition body, m⟩)
    (hnext : T.NextLeave s ⟨n + 1, .repeatWhile condition body, m⟩) :
    T.Leaves s ⟨n + 1, .repeatWhile condition body, m⟩ := by
  obtain ⟨hgood, hscope, -⟩ := h
  have hscope : T.Writes m.scope := hscope
  show T.Confines (repeatWhile s (n + 1) condition body) m fun _ => True
  rw [repeatWhile]
  refine .bind (hnext _ .loopCondition hgood hscope) fun v m₁ hv hk _ => ?_
  split
  · rename_i ht
    refine .bind (hnext _ (.loopBody hv ht) hk.good (hk.writes hscope)) fun _ m₂ hb hk₂ _ => ?_
    exact hnext _ (.loopAgain hv ht hb) hk₂.good (hk₂.writes (hk.writes hscope))
  · exact .pure hk.good trivial

/-! ## All of an execution -/

/-- Carrying out a task inside a territory stays inside, whatever it comes to. -/
theorem Inside.leaves (hhost : s.host.Confined) (hglobals : T.Writes s.globals) {μ : Moment}
    (h : T.Inside s μ) : T.Leaves s μ := by
  obtain ⟨fuel, task, m⟩ := μ
  induction fuel generalizing task m with
  | zero =>
    obtain ⟨hgood, htask, -⟩ := h
    cases task with
    | evaluate e => exact .outOfFuel hgood
    | evaluateAll es => exact .outOfFuel hgood
    | assign id name v => exact confines_assignVariable hgood htask.1 hglobals htask.2
    | bind f i => exact confines_bindMethod hgood htask.1 htask.2
    | call callee paren arguments => exact .outOfFuel hgood
    | enter callee paren arguments => exact .outOfFuel hgood
    | run f arguments => exact .outOfFuel hgood
    | execute t => exact .outOfFuel hgood
    | executeAll ts => exact .outOfFuel hgood
    | repeatWhile condition body => exact .outOfFuel hgood
    | declareClass name superclass methods => exact confines_declareClass hgood htask.1 htask.2
  | succ n ih =>
    have hnext : T.NextLeave s ⟨n + 1, task, m⟩ := by
      rintro ⟨k, task', m'⟩ hν hgood htask
      obtain rfl : k = n := by cases hν <;> rfl
      exact ih task' m' ⟨hgood, htask, h.covers.next hν⟩
    cases task with
    | evaluate e => exact leaves_evaluate hglobals h hnext
    | evaluateAll es => exact leaves_evaluateAll h hnext
    | assign id name v => exact confines_assignVariable h.good h.task.1 hglobals h.task.2
    | bind f i => exact confines_bindMethod h.good h.task.1 h.task.2
    | call callee paren arguments => exact leaves_call h hnext
    | enter callee paren arguments => exact leaves_enter hhost h hnext
    | run f arguments => exact leaves_run h hnext
    | execute t => exact leaves_execute h hnext
    | executeAll ts => exact leaves_executeAll h hnext
    | repeatWhile condition body => exact leaves_repeatWhile h hnext
    | declareClass name superclass methods =>
      exact confines_declareClass h.good h.task.1 h.task.2

end Territory

end LoxWalk
