import LoxWalk.Proofs.Output.Limits

/-!
# The limit on calls

The limit is read in one place: before a call is made.  So the same execution under a larger limit
differs first where the smaller one refuses a call, and there the smaller one has a stack overflow.
Nothing catches an error, so that overflow is how the whole execution ends.

`Exec.Follows x y` says that `y` does what `x` does unless `x` overflows; by induction on the fuel
every task under a larger limit follows the same task under a smaller one (`Setting.follows`).
-/

namespace LoxWalk

open Exec

variable {α β : Type}

/-- The setting with another limit on nested calls. -/
def Setting.withCallLimit (limit : Nat) (s : Setting) : Setting :=
  { s with maxCallDepth := limit }

/-- `x` ends because too many calls are active. -/
def Exec.Overflows (x : Exec α) (m : Machine) : Prop :=
  ∃ t m', x m = .error (.fault (.atToken t .stackOverflow)) m'

/-- `y` does what `x` does, unless `x` overflows. -/
def Exec.Follows (x y : Exec α) : Prop :=
  ∀ m, x.Overflows m ∨ y m = x m

namespace Exec.Follows

theorem refl (x : Exec α) : Follows x x :=
  fun _ => .inr rfl

/-- Two parts; an overflow of the first one is not followed by anything. -/
theorem bind {x y : Exec α} {f g : α → Exec β} (hx : Follows x y) (hf : ∀ a, Follows (f a) (g a)) :
    Follows (x >>= f) (y >>= g) := by
  intro m
  rcases hx m with ⟨t, m', h⟩ | h
  · exact .inl ⟨t, m', bind_of_error h⟩
  · cases hr : x m with
    | error i m₁ => exact .inr ((bind_of_error (h.trans hr)).trans (bind_of_error hr).symm)
    | ok a m₁ =>
      rcases hf a m₁ with ⟨t, m', hfa⟩ | hfa
      · exact .inl ⟨t, m', (bind_of_ok hr).trans hfa⟩
      · exact .inr ((bind_of_ok (h.trans hr)).trans (hfa.trans (bind_of_ok hr).symm))

theorem inScope {x y : Exec α} (h : Follows x y) (scope : Scope) :
    Follows (Exec.inScope scope x) (Exec.inScope scope y) := by
  intro m
  rw [inScope_eq, inScope_eq]
  rcases h { m with scope := scope } with ⟨t, m', hx⟩ | hx
  · refine .inl ⟨t, { m' with scope := m.scope }, ?_⟩
    rw [inScope_eq, hx]
    rfl
  · exact .inr (congrArg _ hx)

theorem asCall {x y : Exec α} (h : Follows x y) : Follows (Exec.asCall x) (Exec.asCall y) := by
  intro m
  rw [asCall_eq, asCall_eq]
  rcases h m.called with ⟨t, m', hx⟩ | hx
  · refine .inl ⟨t, { m' with callDepth := m'.callDepth - 1 }, ?_⟩
    rw [asCall_eq, hx]
    rfl
  · exact .inr (congrArg _ hx)

/-- An overflow is no `return`, and passes. -/
theorem catchReturn {x y : Exec Unit} (h : Follows x y) :
    Follows (Exec.catchReturn x) (Exec.catchReturn y) := by
  intro m
  rcases h m with ⟨t, m', hx⟩ | hx
  · refine .inl ⟨t, m', ?_⟩
    rw [Exec.catchReturn, hx]
  · refine .inr ?_
    rw [Exec.catchReturn, Exec.catchReturn, hx]

end Exec.Follows

/-! ## Tasks -/

namespace Setting

/-- With this fuel, all tasks in the setting `t` follow those in the setting `s`. -/
structure Follows (s t : Setting) (n : Nat) : Prop where
  evaluate : ∀ e, Exec.Follows (evaluate s n e) (evaluate t n e)
  evaluateAll : ∀ es, Exec.Follows (evaluateAll s n es) (evaluateAll t n es)
  call : ∀ callee paren arguments,
    Exec.Follows (call s n callee paren arguments) (call t n callee paren arguments)
  enter : ∀ callee paren arguments,
    Exec.Follows (enter s n callee paren arguments) (enter t n callee paren arguments)
  run : ∀ f arguments, Exec.Follows (run s n f arguments) (run t n f arguments)
  execute : ∀ st, Exec.Follows (execute s n st) (execute t n st)
  executeAll : ∀ sts, Exec.Follows (executeAll s n sts) (executeAll t n sts)
  repeatWhile : ∀ condition body,
    Exec.Follows (repeatWhile s n condition body) (repeatWhile t n condition body)

variable {s : Setting} {n limit : Nat}

namespace Follows

theorem evaluate_succ (h : s.Follows (s.withCallLimit limit) n) (e : Expr) :
    Exec.Follows (LoxWalk.evaluate s (n + 1) e)
      (LoxWalk.evaluate (s.withCallLimit limit) (n + 1) e) := by
  cases e with
  | literal v =>
    rw [LoxWalk.evaluate, LoxWalk.evaluate]
    exact .refl _
  | group inner =>
    rw [LoxWalk.evaluate, LoxWalk.evaluate]
    exact h.evaluate inner
  | unary operator operand =>
    rw [LoxWalk.evaluate, LoxWalk.evaluate]
    exact .bind (h.evaluate operand) fun v => .refl _
  | binary left operator right =>
    rw [LoxWalk.evaluate, LoxWalk.evaluate]
    exact .bind (h.evaluate left) fun a => .bind (h.evaluate right) fun b => .refl _
  | logical left operator right =>
    rw [LoxWalk.evaluate, LoxWalk.evaluate]
    refine .bind (h.evaluate left) fun a => ?_
    split
    · exact .refl _
    · exact h.evaluate right
  | var id name =>
    rw [LoxWalk.evaluate, LoxWalk.evaluate]
    exact .refl _
  | assign id name value =>
    rw [LoxWalk.evaluate, LoxWalk.evaluate]
    exact .bind (h.evaluate value) fun v => .refl _
  | call callee paren arguments =>
    rw [LoxWalk.evaluate, LoxWalk.evaluate]
    refine .bind (h.evaluate callee) fun f => .bind (h.evaluateAll arguments) fun vs => ?_
    exact h.call f paren vs
  | get object name =>
    rw [LoxWalk.evaluate, LoxWalk.evaluate]
    exact .bind (h.evaluate object) fun v => .refl _
  | set object name value =>
    rw [LoxWalk.evaluate, LoxWalk.evaluate]
    refine .bind (h.evaluate object) fun v => .bind (.refl _) fun owner => ?_
    exact .bind (h.evaluate value) fun w => .refl _
  | this id keyword =>
    rw [LoxWalk.evaluate, LoxWalk.evaluate]
    exact .refl _
  | super id keyword method =>
    rw [LoxWalk.evaluate, LoxWalk.evaluate]
    exact .refl _

theorem evaluateAll_succ (h : s.Follows (s.withCallLimit limit) n) (es : List Expr) :
    Exec.Follows (LoxWalk.evaluateAll s (n + 1) es)
      (LoxWalk.evaluateAll (s.withCallLimit limit) (n + 1) es) := by
  cases es with
  | nil =>
    rw [LoxWalk.evaluateAll, LoxWalk.evaluateAll]
    exact .refl _
  | cons e es =>
    rw [LoxWalk.evaluateAll, LoxWalk.evaluateAll]
    exact .bind (h.evaluate e) fun v => .bind (h.evaluateAll es) fun vs => .refl _

/-- A call that is made under the smaller limit is made under the larger one; a call that is not
made is an overflow, whatever the larger limit makes of it. -/
theorem call_succ (h : s.Follows (s.withCallLimit limit) n) (hle : s.maxCallDepth ≤ limit)
    (callee : Value) (paren : Token) (arguments : List Value) :
    Exec.Follows (LoxWalk.call s (n + 1) callee paren arguments)
      (LoxWalk.call (s.withCallLimit limit) (n + 1) callee paren arguments) := by
  rw [LoxWalk.call, LoxWalk.call]
  cases callee.arity? with
  | none => exact .refl _
  | some arity =>
    dsimp only
    split
    · exact .refl _
    · intro m
      unfold Exec.Overflows
      rw [get_bind, get_bind]
      by_cases hdepth : s.maxCallDepth ≤ m.callDepth
      · rw [if_pos hdepth]
        exact .inl ⟨paren, m, rfl⟩
      · have hroom : ¬ (s.withCallLimit limit).maxCallDepth ≤ m.callDepth :=
          fun hfull => hdepth (Nat.le_trans hle hfull)
        rw [if_neg hdepth, if_neg hroom, withStackFor_eq, withStackFor_eq]
        exact (h.enter callee paren arguments).asCall m

theorem enter_succ (h : s.Follows (s.withCallLimit limit) n) (callee : Value) (paren : Token)
    (arguments : List Value) :
    Exec.Follows (LoxWalk.enter s (n + 1) callee paren arguments)
      (LoxWalk.enter (s.withCallLimit limit) (n + 1) callee paren arguments) := by
  cases callee with
  | function f =>
    rw [LoxWalk.enter, LoxWalk.enter]
    exact h.run f arguments
  | class_ c =>
    rw [LoxWalk.enter, LoxWalk.enter]
    refine .bind (.refl _) fun i => ?_
    cases c.method? initializerName with
    | none => exact .refl _
    | some f =>
      refine .bind (.refl _) fun g => ?_
      exact .bind (h.run g arguments) fun v => .refl _
  | _ => exact .refl _

theorem run_succ (h : s.Follows (s.withCallLimit limit) n) (f : Closure) (arguments : List Value) :
    Exec.Follows (LoxWalk.run s (n + 1) f arguments)
      (LoxWalk.run (s.withCallLimit limit) (n + 1) f arguments) := by
  rw [LoxWalk.run, LoxWalk.run]
  refine .bind (.refl _) fun scope => ?_
  exact .bind ((h.executeAll f.decl.body).inScope scope).catchReturn fun v => .refl _

theorem execute_succ (h : s.Follows (s.withCallLimit limit) n) (st : Stmt) :
    Exec.Follows (LoxWalk.execute s (n + 1) st)
      (LoxWalk.execute (s.withCallLimit limit) (n + 1) st) := by
  cases st with
  | expression e =>
    rw [LoxWalk.execute, LoxWalk.execute]
    exact .bind (h.evaluate e) fun v => .refl _
  | print e =>
    rw [LoxWalk.execute, LoxWalk.execute]
    exact .bind (h.evaluate e) fun v => .refl _
  | var name initializer =>
    cases initializer with
    | none =>
      rw [LoxWalk.execute, LoxWalk.execute]
      exact .refl _
    | some e =>
      rw [LoxWalk.execute, LoxWalk.execute]
      exact .bind (h.evaluate e) fun v => .refl _
  | block body =>
    rw [LoxWalk.execute, LoxWalk.execute]
    refine .bind (.refl _) fun m => .bind (.refl _) fun scope => ?_
    exact (h.executeAll body).inScope scope
  | if_ condition thenBranch elseBranch =>
    cases elseBranch with
    | none =>
      rw [LoxWalk.execute, LoxWalk.execute]
      refine .bind (h.evaluate condition) fun v => ?_
      split
      · exact h.execute thenBranch
      · exact .refl _
    | some branch =>
      rw [LoxWalk.execute, LoxWalk.execute]
      refine .bind (h.evaluate condition) fun v => ?_
      split
      · exact h.execute thenBranch
      · exact h.execute branch
  | while_ condition body =>
    rw [LoxWalk.execute, LoxWalk.execute]
    exact h.repeatWhile condition body
  | fun_ decl =>
    rw [LoxWalk.execute, LoxWalk.execute]
    exact .refl _
  | return_ keyword value =>
    cases value with
    | none =>
      rw [LoxWalk.execute, LoxWalk.execute]
      exact .refl _
    | some e =>
      rw [LoxWalk.execute, LoxWalk.execute]
      exact .bind (h.evaluate e) fun v => .refl _
  | class_ name superclass methods =>
    cases superclass with
    | none =>
      rw [LoxWalk.execute, LoxWalk.execute]
      exact .refl _
    | some e =>
      rw [LoxWalk.execute, LoxWalk.execute]
      exact .bind (h.evaluate e) fun v => .refl _

theorem executeAll_succ (h : s.Follows (s.withCallLimit limit) n) (sts : List Stmt) :
    Exec.Follows (LoxWalk.executeAll s (n + 1) sts)
      (LoxWalk.executeAll (s.withCallLimit limit) (n + 1) sts) := by
  cases sts with
  | nil =>
    rw [LoxWalk.executeAll, LoxWalk.executeAll]
    exact .refl _
  | cons st sts =>
    rw [LoxWalk.executeAll, LoxWalk.executeAll]
    exact .bind (h.execute st) fun _ => h.executeAll sts

theorem repeatWhile_succ (h : s.Follows (s.withCallLimit limit) n) (condition : Expr)
    (body : Stmt) :
    Exec.Follows (LoxWalk.repeatWhile s (n + 1) condition body)
      (LoxWalk.repeatWhile (s.withCallLimit limit) (n + 1) condition body) := by
  rw [LoxWalk.repeatWhile, LoxWalk.repeatWhile]
  refine .bind (h.evaluate condition) fun v => ?_
  split
  · exact .bind (h.execute body) fun _ => h.repeatWhile condition body
  · exact .refl _

end Follows

/-- Under a larger limit on calls every task does what it does under the smaller one, unless it
overflows there. -/
theorem follows (hle : s.maxCallDepth ≤ limit) (n : Nat) :
    s.Follows (s.withCallLimit limit) n := by
  induction n with
  | zero =>
    -- without fuel all tasks end at once, and the limit is not read
    constructor
    all_goals intros; exact .refl _
  | succ n ih =>
    exact
      { evaluate := ih.evaluate_succ
        evaluateAll := ih.evaluateAll_succ
        call := ih.call_succ hle
        enter := ih.enter_succ
        run := ih.run_succ
        execute := ih.execute_succ
        executeAll := ih.executeAll_succ
        repeatWhile := ih.repeatWhile_succ }

end Setting

end LoxWalk
