import LoxWalk.Proofs.Execution.Declarations
import LoxWalk.Proofs.Execution.Parts

/-!
# Checks that fail

Every runtime error is raised by a check that one task makes itself once its operands are values
(`Refused`): operators check the kinds of their operands, calls the callee, the number of arguments
and the depth, references that they lead somewhere.  `Refused` lists these checks, each with the
machine that the operands have left.

The machine that a failing check leaves is that same machine (`Refused.fails`).  The task has not
changed anything, and besides its operands it has come to nothing (`Refused.next`): no function is
entered and no class is declared.  Further out the error passes through scopes and calls that are
left, so no other change follows it (`Moment.Fails.exists_refused`).
-/

namespace LoxWalk

open Exec

/-! ## Checks -/

/-- The scope that binds the variable which a reference means. -/
def Machine.owner? (m : Machine) (s : Setting) (id : NodeId) (x : String) : Option Scope :=
  match s.distances.distance? id with
  | some d => m.store.ownerAt? m.scope d x
  | none => m.store.owner? s.globals x

/-- A value cannot be called with so many arguments. -/
inductive Machine.Uncallable (s : Setting) (m : Machine) (callee : Value) (given : Nat) :
    RuntimeFault → Prop where
  | notCallable (h : callee.arity? = none) : Uncallable s m callee given .notCallable
  | wrongArity {expected : Nat} (h : callee.arity? = some expected) (hne : given ≠ expected) :
      Uncallable s m callee given (.wrongArity expected given)
  | stackOverflow (h : callee.arity? = some given) (hdepth : s.maxCallDepth ≤ m.callDepth) :
      Uncallable s m callee given .stackOverflow

/-- The token at which a superclass is reported that is not a class. -/
def Expr.superclassToken (name : Token) : Expr → Token
  | .var _ superclass => superclass
  | _ => name

/-- The operands of the task have values, and have left the machine; then the check of the task
itself fails at the token.  A field is set only when its object has been checked, so the value that
it is to get is no operand here. -/
inductive Refused (s : Setting) : Moment → Machine → Token → RuntimeFault → Prop where
  -- operators
  | unary {n operator operand m v m₁ e} (hv : evaluate s n operand m = .ok v m₁)
      (he : applyUnary operator v = .error e) :
      Refused s ⟨n + 1, .evaluate (.unary operator operand), m⟩ m₁ operator e
  | binary {n left operator right m a m₁ b m₂ e} (ha : evaluate s n left m = .ok a m₁)
      (hb : evaluate s n right m₁ = .ok b m₂) (he : applyBinary operator a b = .error e) :
      Refused s ⟨n + 1, .evaluate (.binary left operator right), m⟩ m₂ operator e
  -- variables
  | read {n id name m} (h : m.owner? s id name.lexeme = none) :
      Refused s ⟨n + 1, .evaluate (.var id name), m⟩ m name (.undefinedVariable name.lexeme)
  | this {n id keyword m} (h : m.owner? s id keyword.lexeme = none) :
      Refused s ⟨n + 1, .evaluate (.this id keyword), m⟩ m keyword
        (.undefinedVariable keyword.lexeme)
  | assigned {n id name value m v m₁} (hv : evaluate s n value m = .ok v m₁)
      (h : m₁.owner? s id name.lexeme = none) :
      Refused s ⟨n + 1, .evaluate (.assign id name value), m⟩ m₁ name
        (.undefinedVariable name.lexeme)
  | assign {n id name v m} (h : m.owner? s id name.lexeme = none) :
      Refused s ⟨n, .assign id name v, m⟩ m name (.undefinedVariable name.lexeme)
  -- calls
  | call {n callee paren arguments m f m₁ vs m₂ e} (hf : evaluate s (n + 1) callee m = .ok f m₁)
      (hvs : evaluateAll s (n + 1) arguments m₁ = .ok vs m₂)
      (h : m₂.Uncallable s f vs.length e) :
      Refused s ⟨n + 2, .evaluate (.call callee paren arguments), m⟩ m₂ paren e
  | called {n callee paren arguments m e} (h : m.Uncallable s callee arguments.length e) :
      Refused s ⟨n + 1, .call callee paren arguments, m⟩ m paren e
  | entered {n callee paren arguments m} (h : callee.arity? = none) :
      Refused s ⟨n + 1, .enter callee paren arguments, m⟩ m paren .notCallable
  | native {n f paren arguments m message} (h : s.host f.name arguments = .error message) :
      Refused s ⟨n + 1, .enter (.native f) paren arguments, m⟩ m paren (.native message)
  -- properties
  | get {n object name m v m₁} (hv : evaluate s n object m = .ok v m₁)
      (h : ∀ i, v ≠ .instance_ i) :
      Refused s ⟨n + 1, .evaluate (.get object name), m⟩ m₁ name .propertyOfNonInstance
  | property {n object name m i m₁} (hi : evaluate s n object m = .ok (.instance_ i) m₁)
      (hfield : m₁.store.field? i.record name.lexeme = none)
      (hmethod : i.ofClass.method? name.lexeme = none) :
      Refused s ⟨n + 1, .evaluate (.get object name), m⟩ m₁ name (.undefinedProperty name.lexeme)
  | set {n object name value m v m₁} (hv : evaluate s n object m = .ok v m₁)
      (h : ∀ i, v ≠ .instance_ i) :
      Refused s ⟨n + 1, .evaluate (.set object name value), m⟩ m₁ name .fieldOfNonInstance
  | superMethod {n id keyword name m d c i} (hd : s.distances.distance? id = some d)
      (hc : m.store.getAt? m.scope d superName = some (.class_ c))
      (hi : m.store.getAt? m.scope (d - 1) thisName = some (.instance_ i))
      (hmethod : c.method? name.lexeme = none) :
      Refused s ⟨n + 1, .evaluate (.super id keyword name), m⟩ m name
        (.undefinedProperty name.lexeme)
  | super {n id keyword name m}
      (h : ∀ d c i, s.distances.distance? id = some d →
        m.store.getAt? m.scope d superName = some (.class_ c) →
          m.store.getAt? m.scope (d - 1) thisName ≠ some (.instance_ i)) :
      Refused s ⟨n + 1, .evaluate (.super id keyword name), m⟩ m keyword
        (.undefinedVariable superName)
  -- declarations
  | superclass {n name e methods m v m₁} (hv : evaluate s n e m = .ok v m₁)
      (h : ∀ c, v ≠ .class_ c) :
      Refused s ⟨n + 1, .execute (.class_ name (some e) methods), m⟩ m₁ (e.superclassToken name)
        .superclassNotClass

/-- Carrying out the task fails, and leaves the machine. -/
def Moment.Fails (s : Setting) (μ : Moment) (e : RuntimeError) (m : Machine) : Prop :=
  μ.Carried s fun x m₀ => x m₀ = .error (.fault e) m

/-! ## Steps that check something -/

section

variable {s : Setting} {m m' : Machine} {id : NodeId} {name : Token} {x : String} {v : Value}
  {i : Interrupt}

theorem Store.declares_of_owner? {σ : Store} {scope owner : Scope}
    (h : σ.owner? scope x = some owner) : σ.declares owner x = true := by
  induction scope with
  | root f =>
    unfold owner? at h
    by_cases hx : σ.declares (.root f) x
    · rw [if_pos hx] at h
      cases h
      exact hx
    · rw [if_neg hx] at h
      cases h
  | inside f outer ih =>
    unfold owner? at h
    by_cases hx : σ.declares (.inside f outer) x
    · rw [if_pos hx] at h
      cases h
      exact hx
    · rw [if_neg hx] at h
      exact ih h

theorem Store.declares_iff {σ : Store} {scope : Scope} :
    σ.declares scope x = true ↔ σ.getLocal? scope x ≠ none :=
  Option.isSome_iff_ne_none

/-- The value of the variable that a reference means. -/
def Machine.value? (m : Machine) (s : Setting) (id : NodeId) (x : String) : Option Value :=
  match s.distances.distance? id with
  | some d => m.store.getAt? m.scope d x
  | none => m.store.get? s.globals x

/-- A variable has a value if a scope binds it. -/
theorem Machine.value?_eq_none_iff : m.value? s id x = none ↔ m.owner? s id x = none := by
  unfold value? owner?
  cases s.distances.distance? id with
  | some d =>
    dsimp only
    unfold Store.getAt? Store.ownerAt?
    cases m.scope.ancestor? d with
    | none => exact iff_of_true rfl rfl
    | some scope =>
      rw [Option.bind_some, Option.filter_some]
      by_cases hx : m.store.declares scope x = true
      · rw [if_pos hx]
        exact iff_of_false (Store.declares_iff.mp hx) nofun
      · rw [if_neg hx]
        exact iff_of_true (not_not.mp (mt Store.declares_iff.mpr hx)) rfl
  | none =>
    dsimp only
    unfold Store.get?
    cases ho : m.store.owner? s.globals x with
    | none => exact iff_of_true rfl rfl
    | some owner =>
      exact iff_of_false (Store.declares_iff.mp (Store.declares_of_owner? ho)) nofun

theorem readVariable_eq (s : Setting) (id : NodeId) (name : Token) (m : Machine) :
    readVariable s id name m = (m.value? s id name.lexeme).elim
      (.error (.fault (.atToken name (.undefinedVariable name.lexeme))) m) (.ok · m) := by
  unfold Machine.value?
  cases hd : s.distances.distance? id with
  | some d =>
    simp only [readVariable, hd]
    rw [get_bind]
    cases m.store.getAt? m.scope d name.lexeme <;> rfl
  | none =>
    simp only [readVariable, hd]
    rw [get_bind]
    cases m.store.get? s.globals name.lexeme <;> rfl

theorem assignVariable_eq (s : Setting) (id : NodeId) (name : Token) (v : Value) (m : Machine) :
    assignVariable s id name v m = (m.owner? s id name.lexeme).elim
      (.error (.fault (.atToken name (.undefinedVariable name.lexeme))) m)
      fun scope => .ok () { m with store := m.store.define scope name.lexeme v } := by
  unfold Machine.owner?
  cases hd : s.distances.distance? id with
  | some d =>
    simp only [assignVariable, hd]
    rw [get_bind]
    cases m.store.ownerAt? m.scope d name.lexeme <;> rfl
  | none =>
    simp only [assignVariable, hd]
    rw [get_bind]
    cases m.store.owner? s.globals name.lexeme <;> rfl

theorem readVariable_eq_error_iff :
    readVariable s id name m = .error i m' ↔ m.owner? s id name.lexeme = none ∧ m' = m ∧
      i = .fault (.atToken name (.undefinedVariable name.lexeme)) := by
  rw [readVariable_eq, ← Machine.value?_eq_none_iff]
  cases m.value? s id name.lexeme with
  | some v => exact iff_of_false nofun nofun
  | none =>
    constructor
    · intro h
      cases h
      exact ⟨rfl, rfl, rfl⟩
    · rintro ⟨-, rfl, rfl⟩
      rfl

theorem assignVariable_eq_error_iff :
    assignVariable s id name v m = .error i m' ↔ m.owner? s id name.lexeme = none ∧ m' = m ∧
      i = .fault (.atToken name (.undefinedVariable name.lexeme)) := by
  rw [assignVariable_eq]
  cases m.owner? s id name.lexeme with
  | some v => exact iff_of_false nofun nofun
  | none =>
    constructor
    · intro h
      cases h
      exact ⟨rfl, rfl, rfl⟩
    · rintro ⟨-, rfl, rfl⟩
      rfl

theorem operate_eq_error_iff {operator : Token} {outcome : Except RuntimeFault Value} :
    operate operator outcome m = .error i m' ↔
      ∃ e, outcome = .error e ∧ m' = m ∧ i = .fault (.atToken operator e) := by
  cases outcome with
  | ok v => exact iff_of_false nofun (by rintro ⟨e, ⟨⟩, _⟩)
  | error e =>
    constructor
    · intro h
      cases h
      exact ⟨e, rfl, rfl, rfl⟩
    · rintro ⟨_, ⟨⟩, rfl, rfl⟩
      rfl

theorem getProperty_eq_error_iff :
    getProperty v name m = .error i m' ↔ m' = m ∧
      ((∀ j, v ≠ .instance_ j) ∧ i = .fault (.atToken name .propertyOfNonInstance) ∨
        ∃ j, v = .instance_ j ∧ m.store.field? j.record name.lexeme = none ∧
          j.ofClass.method? name.lexeme = none ∧
            i = .fault (.atToken name (.undefinedProperty name.lexeme))) := by
  cases v with
  | instance_ j =>
    cases hfield : m.store.field? j.record name.lexeme with
    | some w =>
      rw [getProperty_of_field hfield]
      refine iff_of_false nofun ?_
      rintro ⟨-, ⟨h, -⟩ | ⟨_, ⟨⟩, hnone, -⟩⟩
      · exact absurd rfl (h j)
      · cases hfield.symm.trans hnone
    | none =>
      rw [getProperty_of_no_field hfield]
      cases hmethod : j.ofClass.method? name.lexeme with
      | some f =>
        rw [Class.methodFor_of_some hmethod]
        refine iff_of_false nofun ?_
        rintro ⟨-, ⟨h, -⟩ | ⟨_, ⟨⟩, -, hnone, -⟩⟩
        · exact absurd rfl (h j)
        · cases hmethod.symm.trans hnone
      | none =>
        rw [Class.methodFor_of_none hmethod]
        constructor
        · intro h
          cases h
          exact ⟨rfl, .inr ⟨j, rfl, hfield, hmethod, rfl⟩⟩
        · rintro ⟨rfl, ⟨h, -⟩ | ⟨_, ⟨⟩, -, -, rfl⟩⟩
          · exact absurd rfl (h j)
          · rfl
  | _ =>
    constructor
    · intro h
      cases h
      exact ⟨rfl, .inl ⟨nofun, rfl⟩⟩
    · rintro ⟨rfl, ⟨-, rfl⟩ | ⟨_, ⟨⟩, _⟩⟩
      rfl

theorem fieldOwner_eq_error_iff :
    fieldOwner v name m = .error i m' ↔
      (∀ j, v ≠ .instance_ j) ∧ m' = m ∧ i = .fault (.atToken name .fieldOfNonInstance) := by
  cases v with
  | instance_ j => exact iff_of_false nofun fun h => h.1 j rfl
  | _ =>
    constructor
    · intro h
      cases h
      exact ⟨nofun, rfl, rfl⟩
    · rintro ⟨-, rfl, rfl⟩
      rfl

theorem superclassOf_eq_error_iff {e : Expr} :
    superclassOf name e v m = .error i m' ↔ (∀ c, v ≠ .class_ c) ∧ m' = m ∧
      i = .fault (.atToken (e.superclassToken name) .superclassNotClass) := by
  cases v with
  | class_ c => exact iff_of_false nofun fun h => h.1 c rfl
  | _ =>
    cases e <;>
    · constructor
      · intro h
        cases h
        exact ⟨nofun, rfl, rfl⟩
      · rintro ⟨-, rfl, rfl⟩
        rfl

section

variable {keyword : Token}

/-- A method on `super` is not found because there is none, or there is no superclass or no instance
where they should be. -/
theorem superMethod_eq_error (n : Nat) (h : superMethod s id keyword name m = .error i m') :
    ∃ t e, Refused s ⟨n + 1, .evaluate (.super id keyword name), m⟩ m t e ∧ m' = m ∧
      i = .fault (.atToken t e) := by
  obtain ⟨d, c, j, hd, hc, hj, heq⟩ | ⟨hnot, heq⟩ := superMethod_cases s id keyword name m
  · rw [heq] at h
    cases hf : c.method? name.lexeme with
    | some f =>
      rw [Class.methodFor_of_some hf] at h
      cases h
    | none =>
      rw [Class.methodFor_of_none hf] at h
      cases h
      exact ⟨name, _, .superMethod hd hc hj hf, rfl, rfl⟩
  · rw [heq] at h
    cases h
    exact ⟨keyword, _, .super hnot, rfl, rfl⟩

end

/-! ### Calls -/

theorem asCall_eq_error {α : Type} {x : Exec α} (h : asCall x m = .error i m') :
    ∃ m₁, x m.called = .error i m₁ ∧ m'.store = m₁.store ∧ m'.output = m₁.output := by
  rw [asCall_eq] at h
  obtain ⟨m₁, hx, rfl⟩ := eq_error_of_onMachine h
  exact ⟨m₁, hx, rfl, rfl⟩

theorem inScope_eq_error {α : Type} {x : Exec α} {scope : Scope}
    (h : inScope scope x m = .error i m') :
    ∃ m₁, x { m with scope := scope } = .error i m₁ ∧ m'.store = m₁.store ∧
      m'.output = m₁.output := by
  rw [inScope_eq] at h
  obtain ⟨m₁, hx, rfl⟩ := eq_error_of_onMachine h
  exact ⟨m₁, hx, rfl, rfl⟩

theorem catchReturn_eq_fault {x : Exec Unit} {e : RuntimeError}
    (h : catchReturn x m = .error (.fault e) m') : x m = .error (.fault e) m' := by
  unfold catchReturn at h
  cases hx : x m with
  | ok a m₁ =>
    rw [hx] at h
    cases h
  | error j m₁ =>
    rw [hx] at h
    cases j with
    | fault e =>
      cases h
      rfl
    | _ => cases h

theorem Machine.Uncallable.call_eq {n : Nat} {callee : Value} {paren : Token}
    {arguments : List Value} {e : RuntimeFault} (h : m.Uncallable s callee arguments.length e) :
    call s (n + 1) callee paren arguments m = .error (.fault (.atToken paren e)) m := by
  rw [LoxWalk.call]
  cases h with
  | notCallable harity =>
    rw [harity]
    rfl
  | wrongArity harity hne =>
    rw [harity]
    dsimp only
    rw [if_pos hne]
    rfl
  | stackOverflow harity hdepth =>
    rw [harity]
    dsimp only
    rw [if_neg (not_not.mpr rfl), get_bind, if_pos hdepth]
    rfl

/-- A call fails because its callee cannot be called, or after it was entered. -/
theorem call_eq_error {n : Nat} {callee : Value} {paren : Token} {arguments : List Value}
    (h : call s (n + 1) callee paren arguments m = .error i m') :
    (∃ e, m.Uncallable s callee arguments.length e ∧ m' = m ∧ i = .fault (.atToken paren e)) ∨
      Next s ⟨n + 1, .call callee paren arguments, m⟩ ⟨n, .enter callee paren arguments, m.called⟩ ∧
        ∃ m₁, enter s n callee paren arguments m.called = .error i m₁ ∧ m'.store = m₁.store ∧
          m'.output = m₁.output := by
  have hrefused : ∀ e, m.Uncallable s callee arguments.length e →
      ∃ e, m.Uncallable s callee arguments.length e ∧ m' = m ∧ i = .fault (.atToken paren e) := by
    intro e he
    rw [he.call_eq] at h
    cases h
    exact ⟨e, he, rfl, rfl⟩
  cases harity : callee.arity? with
  | none => exact .inl (hrefused _ (.notCallable harity))
  | some arity =>
    by_cases hlength : arguments.length = arity
    · subst hlength
      by_cases hdepth : s.maxCallDepth ≤ m.callDepth
      · exact .inl (hrefused _ (.stackOverflow harity hdepth))
      · rw [call, harity] at h
        dsimp only at h
        rw [if_neg (not_not.mpr rfl), get_bind, if_neg hdepth, withStackFor_eq] at h
        exact .inr ⟨.enter harity (Nat.lt_of_not_le hdepth), asCall_eq_error h⟩
    · exact .inl (hrefused _ (.wrongArity harity hlength))

end

/-! ## Refusals -/

section

variable {s : Setting} {μ ν : Moment} {m m' : Machine} {t : Token} {f : RuntimeFault}

/-- A task that is refused fails, and leaves the machine as its operands have left it. -/
theorem Refused.fails (h : Refused s μ m t f) : μ.Fails s (.atToken t f) m := by
  cases h with
  | @unary _ operator operand m₀ v _ _ hv he =>
    show evaluate s _ _ m₀ = _
    rw [evaluate, bind_of_ok hv]
    exact operate_eq_error_iff.mpr ⟨_, he, rfl, rfl⟩
  | @binary _ _ _ _ m₀ _ _ _ _ _ ha hb he =>
    show evaluate s _ _ m₀ = _
    rw [evaluate, bind_of_ok ha, bind_of_ok hb]
    exact operate_eq_error_iff.mpr ⟨_, he, rfl, rfl⟩
  | read h => exact readVariable_eq_error_iff.mpr ⟨h, rfl, rfl⟩
  | this h => exact readVariable_eq_error_iff.mpr ⟨h, rfl, rfl⟩
  | @assigned _ _ _ _ m₀ _ _ hv h =>
    show evaluate s _ _ m₀ = _
    rw [evaluate, bind_of_ok hv]
    exact bind_of_error (assignVariable_eq_error_iff.mpr ⟨h, rfl, rfl⟩)
  | assign h => exact assignVariable_eq_error_iff.mpr ⟨h, rfl, rfl⟩
  | @call _ _ _ _ m₀ _ _ _ _ _ hf hvs h =>
    show evaluate s _ _ m₀ = _
    rw [evaluate, bind_of_ok hf, bind_of_ok hvs]
    exact h.call_eq
  | called h => exact h.call_eq
  | @entered _ callee paren arguments m₀ h =>
    show enter s _ _ _ _ m = _
    rw [enter]
    · rfl
    all_goals
      rintro _ rfl
      cases h
  | @native _ f _ _ _ _ h =>
    show enter s _ _ _ _ m = _
    rw [enter, h]
    rfl
  | @get _ _ _ m₀ _ _ hv h =>
    show evaluate s _ _ m₀ = _
    rw [evaluate, bind_of_ok hv]
    exact getProperty_eq_error_iff.mpr ⟨rfl, .inl ⟨h, rfl⟩⟩
  | @property _ _ _ m₀ _ _ hi hfield hmethod =>
    show evaluate s _ _ m₀ = _
    rw [evaluate, bind_of_ok hi]
    exact getProperty_eq_error_iff.mpr ⟨rfl, .inr ⟨_, rfl, hfield, hmethod, rfl⟩⟩
  | @set _ _ _ _ m₀ _ _ hv h =>
    show evaluate s _ _ m₀ = _
    rw [evaluate, bind_of_ok hv]
    exact bind_of_error (fieldOwner_eq_error_iff.mpr ⟨h, rfl, rfl⟩)
  | superMethod hd hc hi hmethod =>
    refine (superMethod_eq hd hc hi).trans ?_
    rewrite [Class.methodFor_of_none hmethod]
    rfl
  | super h => exact superMethod_of_not_found h
  | @superclass _ _ _ _ m₀ _ _ hv h =>
    show execute s _ _ m₀ = _
    rw [execute, bind_of_ok hv]
    exact bind_of_error (superclassOf_eq_error_iff.mpr ⟨h, rfl, rfl⟩)

/-- The moment is that of an operand, which has a value. -/
def Moment.HasValue (s : Setting) (μ : Moment) : Prop :=
  (∃ e v m, μ.task = .evaluate e ∧ evaluate s μ.fuel e μ.machine = .ok v m) ∨
    ∃ es vs m, μ.task = .evaluateAll es ∧ evaluateAll s μ.fuel es μ.machine = .ok vs m

theorem Moment.HasValue.one {n : Nat} {e : Expr} {m : Machine} {v : Value} {m' : Machine}
    (h : evaluate s n e m = .ok v m') : HasValue s ⟨n, .evaluate e, m⟩ :=
  .inl ⟨e, v, m', rfl, h⟩

/-- A value that cannot be called is not entered. -/
theorem Machine.Uncallable.not_next {n : Nat} {callee : Value} {paren : Token}
    {arguments : List Value} (h : m.Uncallable s callee arguments.length f) :
    ¬ Next s ⟨n, .call callee paren arguments, m⟩ ν := by
  intro hν
  cases hν with
  | enter harity hdepth =>
    cases h with
    | notCallable hnone => exact nomatch hnone.symm.trans harity
    | wrongArity hsome hne => exact hne (Option.some.inj (harity.symm.trans hsome))
    | stackOverflow _ hle => exact absurd hdepth (Nat.not_lt.mpr hle)

/-- A task that is refused has come to its operands and to nothing else. -/
theorem Refused.next (h : Refused s μ m t f) (hν : Next s μ ν) :
    ν.HasValue s ∨ ∀ ρ, ¬ Next s ν ρ := by
  cases h with
  | unary hv =>
    cases hν with
    | operand => exact .inl (.one hv)
  | binary ha hb =>
    cases hν with
    | left => exact .inl (.one ha)
    | right ha' =>
      cases ha.symm.trans ha'
      exact .inl (.one hb)
  | read => cases hν
  | this => cases hν
  | assigned hv =>
    cases hν with
    | assigned => exact .inl (.one hv)
    | assign =>
      refine .inr fun ρ hρ => ?_
      cases hρ
  | assign => cases hν
  | call hf hvs h =>
    cases hν with
    | callee => exact .inl (.one hf)
    | arguments hf' =>
      cases hf.symm.trans hf'
      exact .inl (.inr ⟨_, _, _, rfl, hvs⟩)
    | call hf' hvs' =>
      cases hf.symm.trans hf'
      cases hvs.symm.trans hvs'
      exact .inr fun ρ => h.not_next
  | called h => exact absurd hν h.not_next
  | entered h =>
    cases hν with
    | run => cases h
    | bindInitializer => cases h
    | runInitializer => cases h
  | native => cases hν
  | get hv h =>
    cases hν with
    | object => exact .inl (.one hv)
    | method hi =>
      cases hv.symm.trans hi
      exact absurd rfl (h _)
  | property hi _ hmethod =>
    cases hν with
    | object => exact .inl (.one hi)
    | method hi' _ hf =>
      cases hi.symm.trans hi'
      cases hmethod.symm.trans hf
  | set hv h =>
    cases hν with
    | setObject => exact .inl (.one hv)
    | setValue hi =>
      cases hv.symm.trans hi
      exact absurd rfl (h _)
  | superMethod hd hc hi hmethod =>
    cases hν with
    | superMethod hd' hc' hi' hf =>
      cases hd.symm.trans hd'
      cases hc.symm.trans hc'
      cases hmethod.symm.trans hf
  | super h =>
    cases hν with
    | superMethod hd hc hi => exact absurd hi (h _ _ _ hd hc)
  | superclass hv h =>
    cases hν with
    | superclass => exact .inl (.one hv)
    | declareDerived hc =>
      cases hv.symm.trans hc
      exact absurd rfl (h _)

/-! ### Where faults come from -/

/-- The fault comes from the check of the task itself, or from what it comes to next. -/
def Moment.Blames (s : Setting) (μ : Moment) (e : RuntimeError) (m : Machine) : Prop :=
  (∃ t f, Refused s μ m t f ∧ e = .atToken t f) ∨
    ∃ ν m₁, Next s μ ν ∧ ν.Fails s e m₁ ∧ m.store = m₁.store ∧ m.output = m₁.output

namespace Moment

variable {e : RuntimeError} {n : Nat} {i : Interrupt}

theorem Blames.own (h : Refused s μ m t f) (he : Interrupt.fault e = .fault (.atToken t f)) :
    μ.Blames s e m :=
  .inl ⟨t, f, h, Interrupt.fault.inj he⟩

theorem Blames.part (hν : Next s μ ν) (h : ν.Fails s e m) : μ.Blames s e m :=
  .inr ⟨ν, m, hν, h, rfl, rfl⟩

theorem blames_evaluate {x : Expr} (h : evaluate s (n + 1) x m = .error (.fault e) m') :
    Blames s ⟨n + 1, .evaluate x, m⟩ e m' := by
  cases x with
  | literal value => cases h
  | group inner => exact .part .group h
  | unary operator operand =>
    rw [evaluate] at h
    rcases bind_eq_error_iff.mp h with h | ⟨v, m₁, hv, h⟩
    · exact .part .operand h
    · obtain ⟨e', he', rfl, he⟩ := operate_eq_error_iff.mp h
      exact .own (.unary hv he') he
  | binary left operator right =>
    rw [evaluate] at h
    rcases bind_eq_error_iff.mp h with h | ⟨a, m₁, ha, h⟩
    · exact .part .left h
    · rcases bind_eq_error_iff.mp h with h | ⟨b, m₂, hb, h⟩
      · exact .part (.right ha) h
      · obtain ⟨e', he', rfl, he⟩ := operate_eq_error_iff.mp h
        exact .own (.binary ha hb he') he
  | logical left operator right =>
    rw [evaluate] at h
    rcases bind_eq_error_iff.mp h with h | ⟨a, m₁, ha, h⟩
    · exact .part .logicalLeft h
    · by_cases hop : decidesAlone operator a = true
      · rw [if_pos hop] at h
        cases h
      · rw [if_neg hop] at h
        exact .part (.logicalRight ha (Bool.eq_false_iff.mpr hop)) h
  | var id name =>
    obtain ⟨hx, rfl, he⟩ := readVariable_eq_error_iff.mp h
    exact .own (.read hx) he
  | assign id name value =>
    rw [evaluate] at h
    rcases bind_eq_error_iff.mp h with h | ⟨v, m₁, hv, h⟩
    · exact .part .assigned h
    · rcases bind_eq_error_iff.mp h with h | ⟨_, m₂, -, h⟩
      · obtain ⟨hx, rfl, he⟩ := assignVariable_eq_error_iff.mp h
        exact .own (.assigned hv hx) he
      · cases h
  | call callee paren arguments =>
    rw [evaluate] at h
    rcases bind_eq_error_iff.mp h with h | ⟨g, m₁, hg, h⟩
    · exact .part .callee h
    · rcases bind_eq_error_iff.mp h with h | ⟨vs, m₂, hvs, h⟩
      · exact .part (.arguments hg) h
      · exact .part (.call hg hvs) h
  | get object name =>
    rw [evaluate] at h
    rcases bind_eq_error_iff.mp h with h | ⟨v, m₁, hv, h⟩
    · exact .part .object h
    · obtain ⟨rfl, ⟨hi, he⟩ | ⟨j, rfl, hfield, hmethod, he⟩⟩ := getProperty_eq_error_iff.mp h
      · exact .own (.get hv hi) he
      · exact .own (.property hv hfield hmethod) he
  | set object name value =>
    rw [evaluate] at h
    rcases bind_eq_error_iff.mp h with h | ⟨v, m₁, hv, hrest⟩
    · exact .part .setObject h
    · rcases bind_eq_error_iff.mp hrest with howner | ⟨j, m₂, hj, hvalue⟩
      · obtain ⟨hi, rfl, he⟩ := fieldOwner_eq_error_iff.mp howner
        exact .own (.set hv hi) he
      · obtain ⟨rfl, rfl⟩ := eq_instance_of_fieldOwner hj
        rcases bind_eq_error_iff.mp hvalue with hvalue | ⟨w, m₃, -, hset⟩
        · exact .part (.setValue hv) hvalue
        · cases hset
  | this id keyword =>
    obtain ⟨hx, rfl, he⟩ := readVariable_eq_error_iff.mp h
    exact .own (.this hx) he
  | super id keyword name =>
    obtain ⟨t, f, hrefused, rfl, he⟩ := superMethod_eq_error n h
    exact .own hrefused he

theorem blames_evaluateAll {es : List Expr}
    (h : evaluateAll s (n + 1) es m = .error (.fault e) m') :
    Blames s ⟨n + 1, .evaluateAll es, m⟩ e m' := by
  cases es with
  | nil => cases h
  | cons x es =>
    rw [evaluateAll] at h
    rcases bind_eq_error_iff.mp h with h | ⟨v, m₁, hv, h⟩
    · exact .part .head h
    · rcases bind_eq_error_iff.mp h with h | ⟨vs, m₂, -, h⟩
      · exact .part (.tail hv) h
      · cases h

theorem blames_call {callee : Value} {paren : Token} {arguments : List Value}
    (h : call s (n + 1) callee paren arguments m = .error (.fault e) m') :
    Blames s ⟨n + 1, .call callee paren arguments, m⟩ e m' := by
  rcases call_eq_error h with ⟨f, hf, rfl, he⟩ | ⟨hnext, m₁, hm₁, hstore, houtput⟩
  · exact .own (.called hf) he
  · exact .inr ⟨_, m₁, hnext, hm₁, hstore, houtput⟩

theorem blames_enter {callee : Value} {paren : Token} {arguments : List Value}
    (h : enter s (n + 1) callee paren arguments m = .error (.fault e) m') :
    Blames s ⟨n + 1, .enter callee paren arguments, m⟩ e m' := by
  cases callee with
  | native g =>
    rw [enter] at h
    cases hhost : s.host g.name arguments with
    | ok v =>
      rw [hhost] at h
      cases h
    | error message =>
      rw [hhost] at h
      cases h
      exact .own (.native hhost) rfl
  | function g => exact .part .run h
  | class_ c =>
    rw [enter] at h
    rcases bind_eq_error_iff.mp h with h | ⟨j, m₁, hj, h⟩
    · cases h
    · cases hj
      cases hf : c.method? initializerName with
      | none =>
        rw [hf] at h
        cases h
      | some g =>
        rw [hf] at h
        rcases bind_eq_error_iff.mp h with h | ⟨k, m₂, hk, h⟩
        · cases h
        · rcases bind_eq_error_iff.mp h with h | ⟨w, m₃, -, h⟩
          · exact .part (.runInitializer hf hk) h
          · cases h
  | _ =>
    cases h
    exact .own (.entered rfl) rfl

theorem blames_run {g : Closure} {arguments : List Value}
    (h : run s (n + 1) g arguments m = .error (.fault e) m') :
    Blames s ⟨n + 1, .run g arguments, m⟩ e m' := by
  rw [run] at h
  rcases bind_eq_error_iff.mp h with h | ⟨scope, m₁, hscope, h⟩
  · cases h
  · cases hscope
    rcases bind_eq_error_iff.mp h with h | ⟨v, m₂, -, h⟩
    · obtain ⟨m₁, hm₁, hstore, houtput⟩ := inScope_eq_error (catchReturn_eq_fault h)
      exact .inr ⟨_, m₁, .body, hm₁, hstore, houtput⟩
    · by_cases hg : g.isInitializer = true
      · rw [if_pos hg] at h
        cases h
      · rw [if_neg hg] at h
        cases h

theorem blames_execute {u : Stmt} (h : execute s (n + 1) u m = .error (.fault e) m') :
    Blames s ⟨n + 1, .execute u, m⟩ e m' := by
  cases u with
  | expression x =>
    rw [execute] at h
    rcases bind_eq_error_iff.mp h with h | ⟨v, m₁, -, h⟩
    · exact .part .expression h
    · cases h
  | print x =>
    rw [execute] at h
    rcases bind_eq_error_iff.mp h with h | ⟨v, m₁, -, h⟩
    · exact .part .print h
    · unfold Exec.print at h
      cases hline : m₁.output.writeLine v.text with
      | mk accepted output =>
        rw [hline] at h
        cases accepted <;> cases h
  | var name initializer =>
    cases initializer with
    | none => cases h
    | some x =>
      rw [execute] at h
      rcases bind_eq_error_iff.mp h with h | ⟨v, m₁, -, h⟩
      · exact .part .initializer h
      · cases h
  | block body =>
    rw [execute, get_bind] at h
    rcases bind_eq_error_iff.mp h with h | ⟨scope, m₁, hscope, h⟩
    · cases h
    · cases hscope
      obtain ⟨m₁, hm₁, hstore, houtput⟩ := inScope_eq_error h
      exact .inr ⟨_, m₁, .block, hm₁, hstore, houtput⟩
  | if_ condition thenBranch elseBranch =>
    unfold execute at h
    rcases bind_eq_error_iff.mp h with h | ⟨v, m₁, hv, h⟩
    · exact .part .condition h
    · by_cases ht : v.isTruthy = true
      · rw [if_pos ht] at h
        exact .part (.thenBranch hv ht) h
      · rw [if_neg ht] at h
        cases elseBranch with
        | none => cases h
        | some elseBranch => exact .part (.elseBranch hv (Bool.eq_false_iff.mpr ht)) h
  | while_ condition body => exact .part .loop h
  | fun_ g => cases h
  | return_ keyword value =>
    cases value with
    | none => cases h
    | some x =>
      rw [execute] at h
      rcases bind_eq_error_iff.mp h with h | ⟨v, m₁, -, h⟩
      · exact .part .returned h
      · cases h
  | class_ name superclass methods =>
    cases superclass with
    | none =>
      obtain ⟨own, k, -, -, heq⟩ := exists_declareClass name none methods m
      cases heq.symm.trans h
    | some x =>
      rw [execute] at h
      rcases bind_eq_error_iff.mp h with h | ⟨v, m₁, hv, h⟩
      · exact .part .superclass h
      · rcases bind_eq_error_iff.mp h with h | ⟨c, m₂, -, h⟩
        · obtain ⟨hc, rfl, he⟩ := superclassOf_eq_error_iff.mp h
          exact .own (.superclass hv hc) he
        · obtain ⟨own, k, -, -, heq⟩ := exists_declareClass name (some c) methods m₂
          cases heq.symm.trans h

theorem blames_executeAll {us : List Stmt}
    (h : executeAll s (n + 1) us m = .error (.fault e) m') :
    Blames s ⟨n + 1, .executeAll us, m⟩ e m' := by
  cases us with
  | nil => cases h
  | cons u us =>
    rw [executeAll] at h
    rcases bind_eq_error_iff.mp h with h | ⟨_, m₁, hu, h⟩
    · exact .part .first h
    · exact .part (.rest hu) h

theorem blames_repeatWhile {condition : Expr} {body : Stmt}
    (h : repeatWhile s (n + 1) condition body m = .error (.fault e) m') :
    Blames s ⟨n + 1, .repeatWhile condition body, m⟩ e m' := by
  rw [repeatWhile] at h
  rcases bind_eq_error_iff.mp h with h | ⟨v, m₁, hv, h⟩
  · exact .part .loopCondition h
  · by_cases ht : v.isTruthy = true
    · rw [if_pos ht] at h
      rcases bind_eq_error_iff.mp h with h | ⟨_, m₂, hb, h⟩
      · exact .part (.loopBody hv ht) h
      · exact .part (.loopAgain hv ht hb) h
    · rw [if_neg ht] at h
      cases h

/-- A task fails by its own check or by a part. -/
theorem Fails.blames (h : μ.Fails s e m) : μ.Blames s e m := by
  obtain ⟨n, task, m₀⟩ := μ
  cases task with
  | assign id name v =>
    obtain ⟨hx, rfl, he⟩ := assignVariable_eq_error_iff.mp h
    exact .own (.assign hx) he
  | bind g i => cases h
  | declareClass name superclass methods =>
    obtain ⟨own, k, -, -, heq⟩ := exists_declareClass name superclass methods m₀
    cases heq.symm.trans h
  | _ =>
    cases n with
    | zero => cases h
    | succ n =>
      first
        | exact blames_evaluate h
        | exact blames_evaluateAll h
        | exact blames_call h
        | exact blames_enter h
        | exact blames_run h
        | exact blames_execute h
        | exact blames_executeAll h
        | exact blames_repeatWhile h

/-- Every runtime error goes back to a task that was refused; nothing has changed in the store or in
the output since its operands were evaluated. -/
theorem Fails.exists_refused (h : μ.Fails s e m) : ∃ ν m₁ t f, During s μ ν ∧ Refused s ν m₁ t f ∧
    e = .atToken t f ∧ m.store = m₁.store ∧ m.output = m₁.output := by
  -- by induction on the fuel, which gets less from one moment to the next
  obtain ⟨fuel, hfuel⟩ : ∃ fuel, μ.fuel < fuel := ⟨_, Nat.lt_succ_self _⟩
  induction fuel generalizing μ m with
  | zero => cases hfuel
  | succ fuel ih =>
    rcases h.blames with ⟨t, f, hrefused, rfl⟩ | ⟨ν, m₁, hν, hfails, hstore, houtput⟩
    · exact ⟨μ, m, t, f, .refl, hrefused, rfl, rfl, rfl⟩
    · have hlt : ν.fuel < fuel := by
        have hless : ν.fuel < μ.fuel := by cases hν <;> exact Nat.lt_succ_self _
        omega
      obtain ⟨ρ, m₂, t, f, hρ, hrefused, rfl, hstore', houtput'⟩ := ih hfails hlt
      exact ⟨ρ, m₂, t, f, .head hν hρ, hrefused, rfl, hstore.trans hstore', houtput.trans houtput'⟩

end Moment

/-- A task whose own check fails leaves the machine exactly as its operands have left it, with all
scopes, instances and output, and comes to nothing but these operands; and every runtime error is
that of such a task, with the store and the output that its operands have left. -/
theorem failing_check_leaves_no_trace (s : Setting) (μ : Moment) :
    (∀ m t f, Refused s μ m t f → μ.Fails s (.atToken t f) m ∧
      ∀ ν, Next s μ ν → ν.HasValue s ∨ ∀ ρ, ¬ Next s ν ρ) ∧
    ∀ e m, μ.Fails s e m → ∃ ν m₁ t f, During s μ ν ∧ Refused s ν m₁ t f ∧ e = .atToken t f ∧
      m.store = m₁.store ∧ m.output = m₁.output :=
  ⟨fun _ _ _ h => ⟨h.fails, fun _ hν => h.next hν⟩, fun _ _ h => h.exists_refused⟩

end

end LoxWalk
