import Mathlib
import LoxWalk.Proofs.Execution.Parts
import LoxWalk.Proofs.Session.Dispatch

/-!
# Initializers yield their instance

What the body of an initializer returns does not count.  A call of a class yields the instance that it
made for this call (`enter_class_eq_ok`), and a call of an initializer yields what its scope holds for
`this` when the body is over (`run_initializer_eq_ok`).  That scope was made for one instance, and
nothing that runs ever changes what it holds: neither names of variables nor those of parameters can
be `this`, so no definition and no assignment reaches it (`Store.Evolves.own`).

A new instance gets the next record.  Every other instance that can be come by has a record already
(`World.GoodInstance.record`), so the new one is equal to none of them.
-/

namespace LoxWalk

open Exec

/-! ## What calls yield -/

section

variable {s : Setting} {n : Nat} {paren : Token} {arguments : List Value} {v : Value}
  {m m' : Machine}

theorem Exec.asCall_eq_ok {α : Type} {x : Exec α} {a : α} (h : asCall x m = .ok a m') :
    ∃ m₁, x m.called = .ok a m₁ ∧ m'.store = m₁.store := by
  rw [asCall_eq] at h
  obtain ⟨m₁, hx, rfl⟩ := eq_ok_of_onMachine h
  exact ⟨m₁, hx, rfl⟩

/-- A call that returns has entered what is called. -/
theorem call_eq_ok {callee : Value} (h : call s n callee paren arguments m = .ok v m') :
    ∃ k m₁, enter s k callee paren arguments m.called = .ok v m₁ ∧ m'.store = m₁.store := by
  cases n with
  | zero => cases h
  | succ n =>
    rw [call] at h
    cases harity : callee.arity? with
    | none =>
      rw [harity] at h
      cases h
    | some arity =>
      rw [harity] at h
      dsimp only at h
      by_cases hlength : arguments.length ≠ arity
      · rw [if_pos hlength] at h
        cases h
      · rw [if_neg hlength, get_bind] at h
        by_cases hdepth : s.maxCallDepth ≤ m.callDepth
        · rw [if_pos hdepth] at h
          cases h
        · rw [if_neg hdepth, withStackFor_eq] at h
          obtain ⟨m₁, hm₁, hstore⟩ := asCall_eq_ok h
          exact ⟨n, m₁, hm₁, hstore⟩

/-- A class yields the instance with the record that was the next one, with or without an
initializer. -/
theorem enter_class_eq_ok {c : Class} (h : enter s n (.class_ c) paren arguments m = .ok v m') :
    v = .instance_ ⟨m.store.freshRecord, c⟩ := by
  cases n with
  | zero => cases h
  | succ n =>
    rw [enter] at h
    obtain ⟨i, m₁, hi, h⟩ := bind_eq_ok_iff.mp h
    obtain ⟨rfl, rfl⟩ : ⟨m.store.freshRecord, c⟩ = i ∧ m.withRecord = m₁ := by
      cases hi
      exact ⟨rfl, rfl⟩
    cases hf : c.method? initializerName with
    | none =>
      rw [hf] at h
      cases h
      rfl
    | some f =>
      rw [hf] at h
      obtain ⟨g, m₂, -, h⟩ := bind_eq_ok_iff.mp h
      obtain ⟨w, m₃, -, h⟩ := bind_eq_ok_iff.mp h
      cases h
      rfl

/-- An initializer yields what its scope holds for `this` in the end. -/
theorem run_initializer_eq_ok {f : Closure} (hf : f.isInitializer = true)
    (h : run s n f arguments m = .ok v m') :
    v = (m'.store.getLocal? f.scope thisName).getD .nil := by
  cases n with
  | zero => cases h
  | succ n =>
    rw [run] at h
    obtain ⟨scope, m₁, -, h⟩ := bind_eq_ok_iff.mp h
    obtain ⟨w, m₂, -, h⟩ := bind_eq_ok_iff.mp h
    rw [if_pos hf] at h
    cases h
    rfl

theorem enter_initializer_eq_ok {f : Closure} (hf : f.isInitializer = true)
    (h : enter s n (.function f) paren arguments m = .ok v m') :
    v = (m'.store.getLocal? f.scope thisName).getD .nil := by
  cases n with
  | zero => cases h
  | succ n =>
    rw [enter] at h
    exact run_initializer_eq_ok hf h

end

/-! ## Values that exist -/

/-- The value existed on the machine: it was in a scope or in a field, or an expression had evaluated
to it when there were no more instances than on the machine. -/
def Value.Existed (xs : List Execution) (m : Machine) (v : Value) : Prop :=
  (∃ f x, (m.store.frame f).get? x = some v) ∨ (∃ r x, m.store.field? r x = some v) ∨
    ∃ y ∈ xs, ∃ k e m₀ m₁, During y.setting y.start ⟨k, .evaluate e, m₀⟩ ∧
      evaluate y.setting k e m₀ = .ok v m₁ ∧ m₁.store.records.size ≤ m.store.records.size

/-- A new instance is equal to no good value. -/
theorem World.GoodValue.equals_new {W : World} {σ : Store} {v : Value} (h : W.GoodValue σ v)
    {σ' : Store} (hσ : σ.records.size ≤ σ'.records.size) (c : Class) :
    v.equals (.instance_ ⟨σ'.freshRecord, c⟩) = false ∧
      Value.equals (.instance_ ⟨σ'.freshRecord, c⟩) v = false := by
  cases v with
  | instance_ i =>
    have hlt : i.record.index < σ.records.size := GoodInstance.record h
    have hne : i.record ≠ σ'.freshRecord := by
      intro heq
      have hsize : i.record.index = σ'.records.size := by rw [heq, Store.freshRecord]
      omega
    exact ⟨beq_false_of_ne hne, beq_false_of_ne hne.symm⟩
  | _ => exact ⟨rfl, rfl⟩

namespace Lives

variable {s : Session} {xs : List Execution} {x : Execution} {n : Nat} {m m' : Machine}
  {paren : Token} {arguments : List Value} {v : Value}

/-- A call of a class yields a new instance of this class. -/
theorem call_class (h : Lives s xs) (hx : x ∈ xs) {c : Class}
    (hμ : During x.setting x.start ⟨n, .call (.class_ c) paren arguments, m⟩)
    (hv : call x.setting n (.class_ c) paren arguments m = .ok v m') :
    v = .instance_ ⟨m.store.freshRecord, c⟩ ∧
      ∀ w : Value, w.Existed xs m → w.equals v = false ∧ v.equals w = false := by
  obtain ⟨k, m₁, henter, -⟩ := call_eq_ok hv
  obtain rfl : v = .instance_ ⟨m.called.store.freshRecord, c⟩ := enter_class_eq_ok henter
  refine ⟨rfl, fun w hw => ?_⟩
  obtain ⟨xs', -, -, -, hσ, -⟩ := h.goodMoment hx hμ
  rcases hw with ⟨f, y, hw⟩ | ⟨r, y, hw⟩ | ⟨y, hy, k, e, m₀, m₁, hν, hw, hle⟩
  · exact (hσ.frames f y w hw).equals_new (Nat.le_refl _) c
  · exact (hσ.fields r y w hw).equals_new (Nat.le_refl _) c
  · obtain ⟨xs'', -, hgood⟩ := h.goodValue_of_evaluate hy hν hw
    exact hgood.equals_new hle c

/-- A call of an initializer yields the instance to which it is bound. -/
theorem call_initializer (h : Lives s xs) (hx : x ∈ xs) {f : Closure}
    (hμ : During x.setting x.start ⟨n, .call (.function f) paren arguments, m⟩)
    (hf : f.isInitializer = true)
    (hv : call x.setting n (.function f) paren arguments m = .ok v m') :
    ∃ i, m.store.getLocal? f.scope thisName = some (.instance_ i) ∧
      Given xs f.scope.frame (.this f.decl) (.instance_ i) ∧ v = .instance_ i := by
  obtain ⟨xs', hxs, hhost, hcovers, hgood⟩ := h.goodMoment hx hμ
  obtain ⟨i, hi, y, hy, hgiven⟩ := hgood.2.1.bound hf
  refine ⟨i, hi, ⟨y, hxs y hy, hgiven⟩, ?_⟩
  -- what the scope of the initializer holds for `this` is still there when the call is over
  have hleaves := hgood.leaves hhost hcovers
  have hkept := (World.Yields.of_ok hleaves hv).1
  have hthis : m'.store.getLocal? f.scope thisName = some (.instance_ i) :=
    hkept.store.own _ _ _ (.inl rfl) hi
  obtain ⟨k, m₁, henter, hstore⟩ := call_eq_ok hv
  rw [enter_initializer_eq_ok hf henter, ← hstore, hthis]
  rfl

/-- A method that is bound is an initializer if it has that name. -/
theorem bind_initializer (h : Lives s xs) (hx : x ∈ xs) {f : Closure} {i : Instance}
    (hμ : During x.setting x.start ⟨n, .bind f i, m⟩) :
    ∃ g m', bindMethod f i m = .ok g m' ∧ g.BoundTo f i m m' ∧
      (g.isInitializer = true ↔ f.decl.name.lexeme = initializerName) := by
  obtain ⟨xs', -, -, -, -, hgood, -⟩ := h.goodMoment hx hμ
  obtain ⟨g, m', hbind, hg⟩ := exists_bindMethod f i m
  refine ⟨g, m', hbind, hg, ?_⟩
  rw [hg.isInitializer, hgood.initializer, FunDeclOf.isInitializer, beq_iff_eq]

/-- A call of a class that returns yields a new instance of this class, which is equal to no value
that existed before.  A call of an initializer that returns yields the instance for which its scope
was made, and a function is an initializer if it was made by binding the method of that name. -/
theorem initializers_yield_instance (h : Lives s xs) (hx : x ∈ xs) {n : Nat} {m : Machine} :
    (∀ c paren arguments v m',
      During x.setting x.start ⟨n, .call (.class_ c) paren arguments, m⟩ →
        call x.setting n (.class_ c) paren arguments m = .ok v m' →
          v = .instance_ ⟨m.store.freshRecord, c⟩ ∧
            ∀ w : Value, w.Existed xs m → w.equals v = false ∧ v.equals w = false) ∧
    (∀ f paren arguments v m',
      During x.setting x.start ⟨n, .call (.function f) paren arguments, m⟩ →
        f.isInitializer = true → call x.setting n (.function f) paren arguments m = .ok v m' →
          ∃ i, m.store.getLocal? f.scope thisName = some (.instance_ i) ∧
            Given xs f.scope.frame (.this f.decl) (.instance_ i) ∧ v = .instance_ i) ∧
    ∀ f i, During x.setting x.start ⟨n, .bind f i, m⟩ →
      ∃ g m', bindMethod f i m = .ok g m' ∧ g.BoundTo f i m m' ∧
        (g.isInitializer = true ↔ f.decl.name.lexeme = initializerName) :=
  ⟨fun _ _ _ _ _ hμ hv => h.call_class hx hμ hv,
    fun _ _ _ _ _ hμ hf hv => h.call_initializer hx hμ hf hv,
    fun _ _ hμ => h.bind_initializer hx hμ⟩

end Lives

/-- The unit `class A{init(){return;}}A().init();`. -/
def Execution.initializingUnit : List Stmt :=
  [.class_ ⟨.identifier, "A", 1⟩ none
      [⟨⟨.identifier, "init", 1⟩, [], [.return_ ⟨.keyword .return_, "return", 1⟩ none]⟩],
    .expression (.call (.get (.call (.var ⟨0⟩ ⟨.identifier, "A", 1⟩) ⟨.symbol .rightParen, ")", 1⟩ [])
      ⟨.identifier, "init", 1⟩) ⟨.symbol .rightParen, ")", 1⟩ [])]

/-- The execution of this unit in a new session. -/
def Execution.initializing : Execution :=
  Session.execution 20 initializingUnit (.new (.new (.clockAt 0) 8 none) none)

theorem Execution.readsAs_initializing :
    Source.ReadsAs 0 "class A\x7binit()\x7breturn;\x7d\x7dA().init();" initializingUnit :=
  ⟨by decide +kernel, by cbv, by decide⟩

/-- Whether `x` succeeds on the machine. -/
def Exec.succeeds {α : Type} (x : Exec α) (m : Machine) : Bool :=
  match x m with
  | .ok _ _ => true
  | .error _ _ => false

theorem Exec.exists_of_succeeds {α : Type} {x : Exec α} {m : Machine} (h : x.succeeds m = true) :
    ∃ a m', x m = .ok a m' := by
  unfold succeeds at h
  cases hx : x m with
  | ok a m' => exact ⟨a, m', rfl⟩
  | error i m' =>
    rw [hx] at h
    cases h

/-- A call of the class `A` yields a new instance, and a call of its initializer the instance to
which it is bound. -/
theorem Lives.initializers_yield_instance_twice : ∃ s, Lives s [.initializing] ∧
    (∃ c m v m', During Execution.initializing.setting Execution.initializing.start
        ⟨14, .call (.class_ c) ⟨.symbol .rightParen, ")", 1⟩ [], m⟩ ∧
      call Execution.initializing.setting 14 (.class_ c) ⟨.symbol .rightParen, ")", 1⟩ [] m =
        .ok v m' ∧ v = .instance_ ⟨m.store.freshRecord, c⟩) ∧
    ∃ f m v m' i, During Execution.initializing.setting Execution.initializing.start
        ⟨16, .call (.function f) ⟨.symbol .rightParen, ")", 1⟩ [], m⟩ ∧ f.isInitializer = true ∧
      call Execution.initializing.setting 16 (.function f) ⟨.symbol .rightParen, ")", 1⟩ [] m =
        .ok v m' ∧ m.store.getLocal? f.scope thisName = some (.instance_ i) ∧ v = .instance_ i := by
  have hlives : Lives _ [Execution.initializing] :=
    (Lives.new 0 8 none none).executed 20 Execution.readsAs_initializing
  have hcall : During Execution.initializing.setting Execution.initializing.start
      ⟨17, .evaluate (.call _ ⟨.symbol .rightParen, ")", 1⟩ []), _⟩ :=
    .head (.rest rfl) (.head .first (.single .expression))
  obtain ⟨c, m, hclass, hok⟩ : ∃ c m, During Execution.initializing.setting
      Execution.initializing.start ⟨14, .call (.class_ c) ⟨.symbol .rightParen, ")", 1⟩ [], m⟩ ∧
        (call Execution.initializing.setting 14 (.class_ c) ⟨.symbol .rightParen, ")", 1⟩ []).succeeds
          m = true :=
    ⟨_, _, hcall.trans (.head .callee (.head .object (.single (.call rfl rfl)))), by decide +kernel⟩
  obtain ⟨f, m₁, hinit, hf, hok₁⟩ : ∃ f m, During Execution.initializing.setting
      Execution.initializing.start ⟨16, .call (.function f) ⟨.symbol .rightParen, ")", 1⟩ [], m⟩ ∧
        f.isInitializer = true ∧
          (call Execution.initializing.setting 16 (.function f) ⟨.symbol .rightParen, ")", 1⟩
            []).succeeds m = true :=
    ⟨_, _, hcall.tail (.call rfl rfl), rfl, by decide +kernel⟩
  obtain ⟨v, m', hv⟩ := exists_of_succeeds hok
  obtain ⟨w, m₁', hw⟩ := exists_of_succeeds hok₁
  obtain ⟨hnew, -, -⟩ := hlives.initializers_yield_instance List.mem_cons_self
  obtain ⟨-, hbound, -⟩ := hlives.initializers_yield_instance List.mem_cons_self
  obtain ⟨i, hi, -, hwi⟩ := hbound _ _ _ _ _ hinit hf hw
  exact ⟨_, hlives, ⟨c, m, v, m', hclass, hv, (hnew _ _ _ _ _ hclass hv).1⟩,
    f, m₁, w, m₁', i, hinit, hf, hw, hi, hwi⟩

end LoxWalk
