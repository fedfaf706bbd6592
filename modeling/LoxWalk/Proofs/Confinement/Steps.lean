import LoxWalk.Proofs.Confinement.Cells
import LoxWalk.Proofs.Execution.Outcomes

/-!
# Steps that stay inside a territory

`Territory.Confines` says of a part of an execution that it leaves a good store behind and the
current scope as it was, however it ends, and that what it yields leads only to the inside of the
territory.  Parts are put together with `Confines.bind`; the steps that run no part of the program
are confined because a good store holds nothing that leads outside.
-/

namespace LoxWalk

open Exec

namespace Territory

variable {σ₀ : Store} (T : Territory σ₀)

/-- The current scope is that of the machine `m`, and the store is good. -/
structure Kept (m m' : Machine) : Prop where
  scope : m'.scope = m.scope
  good : T.Good m'.store

/-- A value that is returned leads to the inside. -/
def HoldsInterrupt : Interrupt → Prop
  | .returning v => T.Holds v
  | _ => True

/-- However `x` ends on the machine `m`, it stays inside; what it yields has the property `Q`. -/
def Confines {α : Type} (x : Exec α) (m : Machine) (Q : α → Prop) : Prop :=
  x.Ends m (fun a m' => T.Kept m m' ∧ Q a) fun i m' => T.Kept m m' ∧ T.HoldsInterrupt i

variable {T} {α β : Type} {m m' m₁ : Machine}

theorem Kept.refl (h : T.Good m.store) : T.Kept m m :=
  ⟨rfl, h⟩

theorem Kept.writes (h : T.Kept m m') (hscope : T.Writes m.scope) : T.Writes m'.scope := by
  rw [h.scope]
  exact hscope

namespace Confines

variable {x : Exec α} {f : α → Exec β} {Q : α → Prop} {R : β → Prop}

theorem of_ok {a : α} {n : Machine} (hx : x m = .ok a n) (hk : T.Kept m n) (ha : Q a) :
    T.Confines x m Q := by
  unfold Confines Ends
  rw [hx]
  exact ⟨hk, ha⟩

theorem of_error {i : Interrupt} {n : Machine} (hx : x m = .error i n) (hk : T.Kept m n)
    (hi : T.HoldsInterrupt i) : T.Confines x m Q := by
  unfold Confines Ends
  rw [hx]
  exact ⟨hk, hi⟩

theorem pure {a : α} (h : T.Good m.store) (ha : Q a) : T.Confines (Pure.pure a : Exec α) m Q :=
  of_ok rfl (.refl h) ha

theorem fault {t : Token} {e : RuntimeFault} (h : T.Good m.store) :
    T.Confines (Exec.fault t e : Exec α) m Q :=
  of_error rfl (.refl h) trivial

theorem outOfFuel (h : T.Good m.store) : T.Confines (throw .outOfFuel : Exec α) m Q :=
  of_error rfl (.refl h) trivial

/-- Two steps; the second starts where the first ends. -/
theorem bind (hx : T.Confines x m Q)
    (hf : ∀ a m', x m = .ok a m' → T.Kept m m' → Q a → T.Confines (f a) m' R) :
    T.Confines (x >>= f) m R := by
  unfold Confines Ends at hx
  cases hr : x m with
  | error i m' =>
    rw [hr] at hx
    exact of_error (bind_of_error hr) hx.1 hx.2
  | ok a m' =>
    rw [hr] at hx
    obtain ⟨hk, ha⟩ := hx
    have hfa := hf a m' hr hk ha
    have hscope : ∀ m'', T.Kept m' m'' → T.Kept m m'' := fun m'' hk' =>
      ⟨hk'.scope.trans hk.scope, hk'.good⟩
    unfold Confines Ends at hfa ⊢
    rw [bind_of_ok hr]
    cases hr' : f a m' with
    | ok b m'' =>
      rw [hr'] at hfa
      exact ⟨hscope m'' hfa.1, hfa.2⟩
    | error i m'' =>
      rw [hr'] at hfa
      exact ⟨hscope m'' hfa.1, hfa.2⟩

/-- What does the same on this machine stays inside as well. -/
theorem of_eq {y : Exec α} (h : x m = y m) (hy : T.Confines y m Q) : T.Confines x m Q := by
  unfold Confines Ends at hy ⊢
  rwa [h]

theorem bind_ok {a : α} {n : Machine} (hx : x m = .ok a n) (hn : n.scope = m.scope)
    (hf : T.Confines (f a) n R) : T.Confines (x >>= f) m R := by
  unfold Confines Ends at hf ⊢
  rw [bind_of_ok hx]
  cases hr : f a n with
  | ok b n' =>
    rw [hr] at hf
    exact ⟨⟨hf.1.scope.trans hn, hf.1.good⟩, hf.2⟩
  | error i n' =>
    rw [hr] at hf
    exact ⟨⟨hf.1.scope.trans hn, hf.1.good⟩, hf.2⟩

/-! ### Parts of the program that run inside -/

theorem asCall (hx : T.Confines x m.called Q) : T.Confines (Exec.asCall x) m Q := by
  unfold Confines Ends at hx
  cases hr : x m.called with
  | ok a m' =>
    rw [hr] at hx
    refine of_ok (a := a) (n := { m' with callDepth := m'.callDepth - 1 }) ?_
      ⟨hx.1.scope, hx.1.good⟩ hx.2
    rw [Machine.called] at hr
    simp only [Exec.asCall, hr]
  | error i m' =>
    rw [hr] at hx
    refine of_error (i := i) (n := { m' with callDepth := m'.callDepth - 1 }) ?_
      ⟨hx.1.scope, hx.1.good⟩ hx.2
    rw [Machine.called] at hr
    simp only [Exec.asCall, hr]

theorem inScope {scope : Scope} (hx : T.Confines x { m with scope := scope } Q) :
    T.Confines (Exec.inScope scope x) m Q := by
  unfold Confines Ends at hx
  cases hr : x { m with scope := scope } with
  | ok a m' =>
    rw [hr] at hx
    refine of_ok (a := a) (n := { m' with scope := m.scope }) ?_ ⟨rfl, hx.1.good⟩ hx.2
    simp only [Exec.inScope, hr]
  | error i m' =>
    rw [hr] at hx
    refine of_error (i := i) (n := { m' with scope := m.scope }) ?_ ⟨rfl, hx.1.good⟩ hx.2
    simp only [Exec.inScope, hr]

theorem catchReturn {x : Exec Unit} (hx : T.Confines x m fun _ => True) :
    T.Confines (Exec.catchReturn x) m T.Holds := by
  unfold Confines Ends at hx ⊢
  unfold Exec.catchReturn
  cases hr : x m with
  | ok a m' =>
    rw [hr] at hx
    exact ⟨hx.1, holds_nil⟩
  | error i m' =>
    rw [hr] at hx
    cases i <;> exact hx

end Confines

/-! ## Operators -/

theorem holds_of_isPlain {v : Value} (h : v.IsPlain) : T.Holds v := by
  intro p hp
  cases v with
  | function f => exact h.elim
  | class_ c => exact h.elim
  | instance_ i => exact h.elim
  | _ => exact hp.elim

theorem confines_operate {operator : Token} {outcome : Except RuntimeFault Value}
    (h : T.Good m.store) (hv : ∀ v, outcome = .ok v → T.Holds v) :
    T.Confines (operate operator outcome) m T.Holds := by
  cases outcome with
  | ok v => exact .pure h (hv v rfl)
  | error e => exact .fault h

/-! ## Variables -/

theorem confines_readVariable {s : Setting} {id : NodeId} {name : Token} (h : T.Good m.store)
    (hscope : T.Writes m.scope) (hglobals : T.Writes s.globals) :
    T.Confines (readVariable s id name) m T.Holds := by
  have hholds : ∀ (scope? : Option Scope) (v : Value), (∀ scope ∈ scope?, T.Writes scope) →
      scope?.bind (m.store.getLocal? · name.lexeme) = some v → T.Holds v := by
    intro scope? v hwrites hv
    obtain ⟨scope, hs, hv⟩ := Option.bind_eq_some_iff.mp hv
    exact h.getLocal? (T.reach_of_write _ (hwrites scope hs _ scope.refers_frame)) hv
  refine .bind_ok (a := m) (n := m) rfl rfl ?_
  dsimp only
  split
  · rename_i v hv
    refine .pure h ?_
    split at hv
    · exact hholds _ v (fun scope hs p hp => hscope p (Scope.refers_of_ancestor? hs hp)) hv
    · exact hholds _ v (fun scope hs p hp => hglobals p (Store.refers_of_owner? hs hp)) hv
  · exact .fault h

theorem confines_define {name : Token} {v : Value} (h : T.Good m.store) (hscope : T.Writes m.scope)
    (hv : T.Holds v) : T.Confines (define name v) m fun _ => True :=
  .of_ok rfl ⟨rfl, h.define hscope _ hv⟩ trivial

theorem confines_assignVariable {s : Setting} {id : NodeId} {name : Token} {v : Value}
    (h : T.Good m.store) (hscope : T.Writes m.scope) (hglobals : T.Writes s.globals)
    (hv : T.Holds v) : T.Confines (assignVariable s id name v) m fun _ => True := by
  refine .bind_ok (a := m) (n := m) rfl rfl ?_
  dsimp only
  split
  · rename_i scope hs
    have hwrites : T.Writes scope := by
      intro p hp
      split at hs
      · exact hscope p (Scope.refers_of_ancestor? (Option.filter_eq_some_iff.mp hs).1 hp)
      · exact hglobals p (Store.refers_of_owner? hs hp)
    exact .of_ok rfl ⟨rfl, h.define hwrites _ hv⟩ trivial
  · exact .fault h

/-! ## New objects -/

/-- A method together with its instance; the scope around it is new. -/
theorem confines_bindMethod {f : Closure} {i : Instance} (h : T.Good m.store)
    (hf : T.Holds (.function f)) (hi : T.Holds (.instance_ i)) :
    T.Confines (bindMethod f i) m fun g => T.Holds (.function g) := by
  refine .of_ok rfl ⟨rfl, (h.addFrame (NameMap.forall_single (x := thisName) hi)).withObjects _⟩ ?_
  rintro p ⟨g, hg, rfl⟩
  rcases List.mem_cons.mp hg with rfl | hg
  · exact T.reach_of_write _ h.write_freshFrame
  · exact hf _ ⟨g, hg, rfl⟩

/-- A method that a class has is bound to the instance. -/
theorem confines_methodFor {c : Class} {i : Instance} {name : Token} (h : T.Good m.store)
    (hbind : ∀ f, c.method? name.lexeme = some f →
      T.Confines (bindMethod f i) m fun g => T.Holds (.function g)) :
    T.Confines (c.methodFor i name) m T.Holds := by
  cases hf : c.method? name.lexeme with
  | some f =>
    rw [Class.methodFor_of_some hf]
    exact .bind (hbind f hf) fun g m' _ hk hg => .pure hk.good hg
  | none =>
    rw [Class.methodFor_of_none hf]
    exact .fault h

theorem confines_newScope {outer : Scope} {b : Bindings} (h : T.Good m.store)
    (hb : ∀ x v, b.get? x = some v → T.Holds v) (houter : T.Writes outer) :
    T.Confines (newScope outer b) m T.Writes :=
  .of_ok rfl ⟨rfl, h.addFrame hb⟩ (.inside h.write_freshFrame houter)

theorem holds_of_methods {own : ClassBody} {scope : Scope} (hscope : T.Writes scope)
    (hown : ∀ x f, own.methods.get? x = some f → f.scope = scope) {p : Cell} {x : String}
    {f : Closure} (hf : own.methods.get? x = some f) (hp : f.scope.Refers p) : T.reach p := by
  rw [hown x f hf] at hp
  exact T.reach_of_write p (hscope p hp)

theorem confines_declareClass {name : Token} {superclass : Option Class} {methods : List FunDecl}
    (h : T.Good m.store) (hscope : T.Writes m.scope)
    (hsuper : ∀ c ∈ superclass, T.Holds (.class_ c)) :
    T.Confines (declareClass name superclass methods) m fun _ => True := by
  -- the methods are declared in one scope, which may be written
  have hdeclare : ∀ (m : Machine) (scope : Scope) (make : ClassBody → Class), T.Good m.store →
      T.Writes m.scope → T.Writes scope →
      (∀ own p, (make own).Refers p → (∃ x f, own.methods.get? x = some f ∧ f.scope.Refers p) ∨
        T.reach p) →
      T.Confines (do
        let table ← newMethods scope methods .empty
        let own : ClassBody := ⟨← newObject, name.lexeme, table⟩
        define name (.class_ (make own))) m fun _ => True := by
    intro m scope make h hm hscope hmake
    obtain ⟨table, k, heq, htable⟩ := World.newMethods_eq scope methods .empty m
    refine .bind_ok heq rfl (.bind_ok rfl rfl ?_)
    refine confines_define ((h.withObjects k).withObjects _) hm fun p hp => ?_
    rcases hmake _ p hp with ⟨x, f, hf, hp⟩ | hp
    · have hown : ∀ x f, table.get? x = some f → f.scope = scope := by
        intro x f hf
        rcases htable x f hf with hf | ⟨-, hf⟩
        · cases hf
        · exact hf
      exact holds_of_methods hscope hown hf hp
    · exact hp
  unfold declareClass
  refine .bind (confines_define h hscope holds_nil) fun _ m₁ _ hk _ => ?_
  refine .bind_ok (a := m₁) (n := m₁) rfl rfl ?_
  have hscope₁ : T.Writes m₁.scope := hk.scope ▸ hscope
  cases superclass with
  | none =>
    refine .bind_ok (a := m₁.scope) (n := m₁) rfl rfl ?_
    refine hdeclare m₁ m₁.scope .base hk.good hscope₁ hscope₁ ?_
    rintro own p ⟨own', hown, hp⟩
    obtain rfl := List.mem_singleton.mp hown
    exact .inl hp
  | some c =>
    have hc := hsuper c rfl
    refine .bind (confines_newScope hk.good (NameMap.forall_single hc) hscope₁) ?_
    intro scope m₂ _ hk₂ hscope₂
    refine hdeclare m₂ scope (.derived · c) hk₂.good (hk₂.scope ▸ hscope₁) hscope₂ ?_
    rintro own p ⟨own', hown, hp⟩
    rcases List.mem_cons.mp hown with rfl | hown
    · exact .inl hp
    · exact .inr (hc p ⟨own', hown, hp⟩)

theorem confines_print {v : Value} (h : T.Good m.store) :
    T.Confines (print v) m fun _ => True := by
  unfold Confines Ends print
  cases m.output.writeLine v.text with
  | mk accepted output => cases accepted <;> exact ⟨⟨rfl, h⟩, trivial⟩

end Territory

end LoxWalk
