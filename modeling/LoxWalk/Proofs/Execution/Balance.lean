import LoxWalk.Proofs.Execution.Parts

/-!
# Scopes and calls are balanced

However an execution ends, with a result, with a `return`, with a fault or because the output is
full, it goes back to the scope from which it started, and all calls that it began are over
(`Machine.Restored`).  So at every moment in between exactly those calls are active on top of the
former ones that lie on the way from the start to this moment (`CallsWithin`), and there are never
more of them than the limit allows.

A call is counted when its callee is entered.  An initializer that is run by a class belongs to the
call of the class.
-/

namespace LoxWalk

open Exec

/-- On `m'` the same scope is current as on `m`, and as many calls are active. -/
structure Machine.Restored (m m' : Machine) : Prop where
  scope : m'.scope = m.scope
  callDepth : m'.callDepth = m.callDepth

theorem Machine.Restored.trans {m m' m'' : Machine} (h : m.Restored m') (h' : m'.Restored m'') :
    m.Restored m'' :=
  ⟨h'.scope.trans h.scope, h'.callDepth.trans h.callDepth⟩

/-- However `x` ends on the machine `m`, scope and calls are as they were. -/
def Exec.Restores {α : Type} (x : Exec α) (m : Machine) : Prop :=
  m.Restored (x.after m)

namespace Exec.Restores

variable {α β : Type} {s : Setting}

theorem of_onStore {x : Exec α} (hx : x.OnStore) (m : Machine) : x.Restores m := by
  obtain ⟨f, rfl⟩ := hx
  unfold Restores after onStore
  cases f m.store m.scope <;> exact ⟨rfl, rfl⟩

theorem print (v : Value) (m : Machine) : (Exec.print v).Restores m := by
  unfold Restores after Exec.print
  cases m.output.writeLine v.text with
  | mk accepted output => cases accepted <;> exact ⟨rfl, rfl⟩

theorem bind {x : Exec α} {f : α → Exec β} {m : Machine} (hx : x.Restores m)
    (hf : ∀ a m₁, x m = .ok a m₁ → (f a).Restores m₁) : (x >>= f).Restores m := by
  unfold Restores at hx ⊢
  cases hr : x m with
  | ok a m₁ =>
    rw [after_of_ok hr] at hx
    rw [after_bind_of_ok hr]
    exact hx.trans (hf a m₁ hr)
  | error i m₁ => rwa [after_bind_of_error hr]

theorem inScope {x : Exec α} {scope : Scope} {m : Machine}
    (hx : x.Restores { m with scope := scope }) : (Exec.inScope scope x).Restores m := by
  unfold Restores at hx ⊢
  rw [after_inScope]
  exact ⟨rfl, hx.callDepth⟩

theorem asCall {x : Exec α} {m : Machine} (hx : x.Restores m.called) :
    (Exec.asCall x).Restores m := by
  unfold Restores at hx ⊢
  have hdepth : (x.after m.called).callDepth = m.callDepth + 1 := hx.callDepth
  rw [after_asCall]
  refine ⟨hx.scope, ?_⟩
  show (x.after m.called).callDepth - 1 = m.callDepth
  rw [hdepth, Nat.add_sub_cancel]

/-- Scope and calls are restored by single steps and wherever parts are put together. -/
theorem inherits (s : Setting) : Inherits s (fun _ => True) Restores where
  step := of_onStore
  print := fun _ _ => print _ _
  bind := bind
  depth _ _ hf := hf
  inScope := inScope
  asCall := asCall
  catchReturn hx := by
    unfold Restores at hx ⊢
    rwa [after_catchReturn]

/-- Every task leaves scope and calls as they were. -/
theorem carried (s : Setting) (μ : Moment) : μ.Carried s Restores :=
  (inherits s).carried (fun _ _ _ _ => trivial) trivial

end Exec.Restores

/-! ## The calls that are active -/

/-- How many calls begin with a task. -/
def Task.entries : Task → Nat
  | .enter _ _ _ => 1
  | _ => 0

/-- Carrying out the task of `μ` comes to the moment `ν` inside `k` calls that it began. -/
inductive CallsWithin (s : Setting) (μ : Moment) : Nat → Moment → Prop where
  | start : CallsWithin s μ 0 μ
  | next {k : Nat} {ν ν' : Moment} (h : CallsWithin s μ k ν) (hν : Next s ν ν') :
      CallsWithin s μ (k + ν'.task.entries) ν'

section

variable {s : Setting} {μ ν : Moment} {n k : Nat} {m m₁ : Machine}

/-- Every moment lies inside some number of calls. -/
theorem During.exists_callsWithin (h : During s μ ν) : ∃ k, CallsWithin s μ k ν := by
  induction h with
  | refl => exact ⟨0, .start⟩
  | tail _ hν ih =>
    obtain ⟨k, hk⟩ := ih
    exact ⟨_, hk.next hν⟩

theorem Exec.Restores.callDepth_of_ok {α : Type} {x : Exec α} {a : α} (h : x.Restores m)
    (hx : x m = .ok a m₁) : m₁.callDepth = m.callDepth := by
  rw [← after_of_ok hx]
  exact h.callDepth

theorem callDepth_evaluate {e : Expr} {v : Value} (h : evaluate s n e m = .ok v m₁) :
    m₁.callDepth = m.callDepth :=
  Restores.callDepth_of_ok (Restores.carried s ⟨n, .evaluate e, m⟩) h

theorem callDepth_evaluateAll {es : List Expr} {vs : List Value}
    (h : evaluateAll s n es m = .ok vs m₁) : m₁.callDepth = m.callDepth :=
  Restores.callDepth_of_ok (Restores.carried s ⟨n, .evaluateAll es, m⟩) h

theorem callDepth_execute {t : Stmt} (h : execute s n t m = .ok () m₁) :
    m₁.callDepth = m.callDepth :=
  Restores.callDepth_of_ok (Restores.carried s ⟨n, .execute t, m⟩) h

/-- One step of a moment: a call that is entered is one more, and everything that was carried out
before the next task has left the number as it was. -/
theorem Next.callDepth_eq (h : Next s μ ν) :
    ν.machine.callDepth = μ.machine.callDepth + ν.task.entries := by
  cases h with
  | right ha => exact callDepth_evaluate ha
  | logicalRight ha _ => exact callDepth_evaluate ha
  | assign hv => exact callDepth_evaluate hv
  | arguments hf => exact callDepth_evaluate hf
  | call hf hvs => exact (callDepth_evaluateAll hvs).trans (callDepth_evaluate hf)
  | method hi _ _ => exact callDepth_evaluate hi
  | setValue hi => exact callDepth_evaluate hi
  | tail hv => exact callDepth_evaluate hv
  | runInitializer _ hg =>
    have hdepth := (Restores.of_onStore (.bindMethod _ _) _).callDepth_of_ok hg
    exact hdepth
  | thenBranch hv _ => exact callDepth_evaluate hv
  | elseBranch hv _ => exact callDepth_evaluate hv
  | declareDerived hc => exact callDepth_evaluate hc
  | rest ht => exact callDepth_execute ht
  | loopBody hv _ => exact callDepth_evaluate hv
  | loopAgain hv _ hb => exact (callDepth_execute hb).trans (callDepth_evaluate hv)
  | _ => rfl

/-- A call is entered only below the limit. -/
theorem Next.callDepth_le (h : Next s μ ν) (hμ : μ.machine.callDepth ≤ s.maxCallDepth) :
    ν.machine.callDepth ≤ s.maxCallDepth := by
  have hdepth := h.callDepth_eq
  cases h with
  | enter _ hlt => exact hlt
  | _ => exact hdepth ▸ hμ

namespace CallsWithin

theorem callDepth_eq (h : CallsWithin s μ k ν) :
    ν.machine.callDepth = μ.machine.callDepth + k := by
  induction h with
  | start => rfl
  | next _ hν ih => rw [hν.callDepth_eq, ih, Nat.add_assoc]

theorem callDepth_le (h : CallsWithin s μ k ν) (hμ : μ.machine.callDepth ≤ s.maxCallDepth) :
    ν.machine.callDepth ≤ s.maxCallDepth := by
  induction h with
  | start => exact hμ
  | next _ hν ih => exact hν.callDepth_le ih

end CallsWithin

/-! ## Calls that are refused -/

/-- A call is refused with a fault: the callee is not entered, and nothing has changed. -/
structure Refuses (s : Setting) (n : Nat) (callee : Value) (paren : Token) (arguments : List Value)
    (m : Machine) (e : RuntimeFault) : Prop where
  not_entered : ∀ ν, ¬ Next s ⟨n, .call callee paren arguments, m⟩ ν
  fault : call s n callee paren arguments m = .error (.fault (.atToken paren e)) m

/-- Too many active calls are the reason exactly if nothing else is wrong with a call. -/
theorem refuses_stackOverflow_iff {callee : Value} {paren : Token} {arguments : List Value} :
    Refuses s (n + 1) callee paren arguments m .stackOverflow ↔
      callee.arity? = some arguments.length ∧ s.maxCallDepth ≤ m.callDepth := by
  constructor
  · rintro ⟨hnot, hfault⟩
    rw [call] at hfault
    cases harity : callee.arity? with
    | none =>
      rw [harity] at hfault
      cases hfault
    | some arity =>
      rw [harity] at hfault
      by_cases hlength : arguments.length = arity
      · subst hlength
        refine ⟨rfl, Nat.le_of_not_lt fun hlt => ?_⟩
        exact hnot _ (.enter harity hlt)
      · simp only [hlength, ne_eq, not_false_eq_true, if_true] at hfault
        cases hfault
  · rintro ⟨harity, hdepth⟩
    refine ⟨fun ν hν => ?_, ?_⟩
    · cases hν with
      | enter _ hlt => exact Nat.not_lt.mpr hdepth hlt
    · rw [call, harity]
      simp only [ne_eq, not_true, if_false]
      show (if s.maxCallDepth ≤ m.callDepth then _ else _ : Exec Value) m = _
      rw [if_pos hdepth]
      rfl

end

/-! ## Main statement -/

namespace Recursion

/-- The parenthesis at which a call ends. -/
def paren : Token :=
  ⟨.symbol .rightParen, ")", 1⟩

/-- The function `fun f() {f();}`. -/
def closure : Closure :=
  ⟨⟨1⟩, ⟨⟨.identifier, "f", 1⟩, [],
    [.expression (.call (.var ⟨0⟩ ⟨.identifier, "f", 1⟩) paren [])]⟩, .root ⟨0⟩, false⟩

/-- Two calls may be active. -/
def setting : Setting :=
  ⟨.empty, .root ⟨0⟩, 2, .clockAt 0⟩

/-- The top level knows the function. -/
def machine : Machine :=
  ⟨⟨#[⟨[("f", .function closure)]⟩], #[], 2⟩, .root ⟨0⟩, 0, .new none⟩

end Recursion

end LoxWalk
