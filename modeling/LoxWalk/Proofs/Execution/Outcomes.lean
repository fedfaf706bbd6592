import LoxWalk.Proofs.Execution.World

/-!
# What single steps leave behind

`World.Yields` says of a part of an execution that it keeps the current scope, the number of active
calls and a good store, however it ends, and says something about its result.  It is shown here for
the steps that run no part of the program.
-/

namespace LoxWalk

open Exec

/-! ## Plain values -/

/-- A value that stands for itself: nothing belongs to it that is run or that changes. -/
def Value.IsPlain : Value → Prop
  | .nil | .bool _ | .number _ | .string _ => True
  | _ => False

theorem isPlain_literal (l : Literal) : l.value.IsPlain := by
  cases l <;> trivial

theorem isPlain_of_applyUnary {operator : Token} {v w : Value}
    (h : applyUnary operator v = .ok w) : w.IsPlain := by
  unfold applyUnary at h
  split at h
  · split at h <;> cases h
    trivial
  · split at h <;> cases h
    trivial

theorem isPlain_of_applyBinary {operator : Token} {a b w : Value}
    (h : applyBinary operator a b = .ok w) : w.IsPlain := by
  unfold applyBinary at h
  split at h
  · unfold add at h
    split at h <;> cases h <;> trivial
  · cases h
    trivial
  · cases h
    trivial
  · split at h
    · unfold arithmetic at h
      split at h <;> cases h <;> trivial
    · cases h

/-! ## Outcomes -/

/-- Both outcomes of `x` on the machine `m`. -/
def Exec.Ends {α : Type} (x : Exec α) (m : Machine) (Q : α → Machine → Prop)
    (E : Interrupt → Machine → Prop) : Prop :=
  match x m with
  | .ok a m' => Q a m'
  | .error e m' => E e m'

namespace World

variable (W : World)

/-- From the machine `m` to `m'` the scope and the active calls are the same, and the store is still
good. -/
structure Kept (m m' : Machine) : Prop where
  store : m.store.Evolves m'.store
  scope : m'.scope = m.scope
  callDepth : m'.callDepth = m.callDepth
  good : W.GoodStore m'.store

/-- A value that is returned is good. -/
def GoodInterrupt (σ : Store) : Interrupt → Prop
  | .returning v => W.GoodValue σ v
  | _ => True

/-- Carrying out `x` on the machine `m` keeps what was so on the machine `m₀`, and its result has the
property `Q`. -/
def Yields {α : Type} (m₀ : Machine) (x : Exec α) (m : Machine) (Q : α → Machine → Prop) : Prop :=
  x.Ends m (fun a m' => W.Kept m₀ m' ∧ Q a m')
    fun e m' => W.Kept m₀ m' ∧ W.GoodInterrupt m'.store e

variable {W} {α β : Type} {m₀ m m' : Machine}

theorem Kept.trans (h : W.Kept m₀ m) (h' : W.Kept m m') : W.Kept m₀ m' :=
  ⟨h.store.trans h'.store, h'.scope.trans h.scope, h'.callDepth.trans h.callDepth, h'.good⟩

theorem Kept.refl (h : W.GoodStore m.store) : W.Kept m m :=
  ⟨.refl _, rfl, rfl, h⟩

/-- Changes of the store alone. -/
theorem Kept.of_store {σ : Store} (hσ : m.store.Evolves σ) (h : W.GoodStore σ) :
    W.Kept m { m with store := σ } :=
  ⟨hσ, rfl, rfl, h⟩

namespace Yields

variable {x : Exec α} {f : α → Exec β} {Q : α → Machine → Prop} {R : β → Machine → Prop}

theorem pure {a : α} (hk : W.Kept m₀ m) (h : Q a m) :
    W.Yields m₀ (Pure.pure a : Exec α) m Q :=
  ⟨hk, h⟩

theorem fault {t : Token} {e : RuntimeFault} (hk : W.Kept m₀ m) :
    W.Yields m₀ (Exec.fault t e : Exec α) m Q :=
  ⟨hk, trivial⟩

theorem outOfFuel (hk : W.Kept m₀ m) : W.Yields m₀ (throw .outOfFuel : Exec α) m Q :=
  ⟨hk, trivial⟩

theorem ok {a : α} (hx : x m = .ok a m') (hk : W.Kept m₀ m') (h : Q a m') :
    W.Yields m₀ x m Q := by
  unfold Yields Ends
  rw [hx]
  exact ⟨hk, h⟩

/-- Two steps, of which the first starts at a machine on which all is kept. -/
theorem bind (hk : W.Kept m₀ m) (hx : W.Yields m x m Q)
    (hf : ∀ a m', x m = .ok a m' → W.Kept m₀ m' → Q a m' → W.Yields m₀ (f a) m' R) :
    W.Yields m₀ (x >>= f) m R := by
  unfold Yields Ends at hx ⊢
  cases hr : x m with
  | ok a m' =>
    rw [hr] at hx
    rw [bind_of_ok hr]
    exact hf a m' hr (hk.trans hx.1) hx.2
  | error e m' =>
    rw [hr] at hx
    rw [bind_of_error hr]
    exact ⟨hk.trans hx.1, hx.2⟩

/-- The last of several steps. -/
theorem last (hk : W.Kept m₀ m) (hx : W.Yields m x m Q) : W.Yields m₀ x m Q := by
  unfold Yields Ends at hx ⊢
  cases hr : x m with
  | ok a m' =>
    rw [hr] at hx
    exact ⟨hk.trans hx.1, hx.2⟩
  | error e m' =>
    rw [hr] at hx
    exact ⟨hk.trans hx.1, hx.2⟩

theorem mono {Q' : α → Machine → Prop} (hx : W.Yields m₀ x m Q)
    (h : ∀ a m', W.Kept m₀ m' → Q a m' → Q' a m') : W.Yields m₀ x m Q' := by
  unfold Yields Ends at hx ⊢
  cases hr : x m with
  | ok a m' =>
    rw [hr] at hx
    exact ⟨hx.1, h a m' hx.1 hx.2⟩
  | error e m' =>
    rw [hr] at hx
    exact hx

/-- What does the same on this machine leaves the same behind. -/
theorem of_eq {y : Exec α} (h : x m = y m) (hy : W.Yields m₀ y m Q) : W.Yields m₀ x m Q := by
  unfold Yields Ends at hy ⊢
  rwa [h]

/-- A step that is known to succeed. -/
theorem bind_ok {a : α} {n : Machine} (hx : x m = .ok a n) (hf : W.Yields m₀ (f a) n R) :
    W.Yields m₀ (x >>= f) m R := by
  unfold Yields Ends at hf ⊢
  rwa [bind_of_ok hx]

/-! ### Parts of the program that run inside -/

/-- A call is over when its body is. -/
theorem asCall {P : α → Store → Prop}
    (hx : W.Yields m.called x m.called fun a m' => P a m'.store) :
    W.Yields m x.asCall m fun a m' => P a m'.store := by
  have hdepth : ∀ m', W.Kept m.called m' → W.Kept m { m' with callDepth := m'.callDepth - 1 } := by
    intro m' hk
    refine ⟨hk.store, hk.scope, ?_, hk.good⟩
    have hcalled : m'.callDepth = m.callDepth + 1 := hk.callDepth
    change m'.callDepth - 1 = m.callDepth
    rw [hcalled, Nat.add_sub_cancel]
  unfold Yields Ends at hx ⊢
  unfold Exec.asCall
  change match (match x m.called with
    | .ok a m' => EStateM.Result.ok a { m' with callDepth := m'.callDepth - 1 }
    | .error e m' => .error e { m' with callDepth := m'.callDepth - 1 }) with
    | .ok a m' => W.Kept m m' ∧ P a m'.store
    | .error e m' => W.Kept m m' ∧ W.GoodInterrupt m'.store e
  cases hr : x m.called with
  | ok a m' =>
    rw [hr] at hx
    exact ⟨hdepth m' hx.1, hx.2⟩
  | error e m' =>
    rw [hr] at hx
    exact ⟨hdepth m' hx.1, hx.2⟩

/-- The former scope is current again. -/
theorem inScope {scope : Scope} {P : α → Store → Prop} {m₁ : Machine} (hk : W.Kept m₀ m₁)
    (hx : W.Yields { m₁ with scope := scope } x { m₁ with scope := scope }
      fun a m' => P a m'.store) :
    W.Yields m₀ (Exec.inScope scope x) m₁ fun a m' => P a m'.store := by
  have hscope : ∀ m', W.Kept { m₁ with scope := scope } m' →
      W.Kept m₀ { m' with scope := m₁.scope } :=
    fun m' hk' => hk.trans ⟨hk'.store, rfl, hk'.callDepth, hk'.good⟩
  unfold Yields Ends at hx ⊢
  unfold Exec.inScope
  cases hr : x { m₁ with scope := scope } with
  | ok a m' =>
    rw [hr] at hx
    exact ⟨hscope m' hx.1, hx.2⟩
  | error e m' =>
    rw [hr] at hx
    exact ⟨hscope m' hx.1, hx.2⟩

/-- A body yields what it returns. -/
theorem catchReturn {x : Exec Unit} {Q : Unit → Machine → Prop} (hx : W.Yields m₀ x m Q) :
    W.Yields m₀ (Exec.catchReturn x) m fun v m' => W.GoodValue m'.store v := by
  unfold Yields Ends at hx ⊢
  unfold Exec.catchReturn
  cases hr : x m with
  | ok a m' =>
    rw [hr] at hx
    exact ⟨hx.1, trivial⟩
  | error e m' =>
    rw [hr] at hx
    cases e <;> exact hx

end Yields

/-! ### Steps that make values -/

theorem goodValue_of_isPlain {σ : Store} {v : Value} (h : v.IsPlain) : W.GoodValue σ v := by
  cases v with
  | function f => exact h.elim
  | class_ c => exact h.elim
  | instance_ i => exact h.elim
  | _ => trivial

theorem yields_operate {operator : Token} {outcome : Except RuntimeFault Value}
    (hk : W.Kept m₀ m) (h : ∀ v, outcome = .ok v → W.GoodValue m.store v) :
    W.Yields m₀ (operate operator outcome) m fun v m' => W.GoodValue m'.store v := by
  cases outcome with
  | ok v => exact .pure hk (h v rfl)
  | error e => exact .fault hk

theorem yields_readVariable {s : Setting} {id : NodeId} {name : Token} (hk : W.Kept m₀ m) :
    W.Yields m₀ (readVariable s id name) m fun v m' => W.GoodValue m'.store v := by
  -- a value that is found is one of the store
  have hgood : ∀ (scope? : Option Scope) (v : Value),
      scope?.bind (m.store.getLocal? · name.lexeme) = some v → W.GoodValue m.store v := by
    intro scope? v h
    obtain ⟨scope, -, hv⟩ := Option.bind_eq_some_iff.mp h
    exact hk.good.frames _ _ _ hv
  refine .bind_ok (a := m) (n := m) rfl ?_
  dsimp only
  split
  · rename_i v hv
    refine .pure hk ?_
    split at hv <;> exact hgood _ v hv
  · exact .fault hk

/-- A name that is declared in the current scope is bound there. -/
theorem declares_define {σ : Store} {scope : Scope} (h : scope.frame.index < σ.frames.size)
    (name : String) (v : Value) : (σ.define scope name v).declares scope name = true := by
  change ((σ.define scope name v).getLocal? scope name).isSome = true
  rw [Store.getLocal?_define _ _ _ _ _ _ h, if_pos ⟨rfl, rfl⟩]
  rfl

/-- A definition changes the store and nothing else. -/
theorem Kept.define (hk : W.Kept m₀ m) (scope : Scope) {name : Token} (hname : name.IsName)
    {v : Value} (hv : W.GoodValue (m.store.define scope name.lexeme v) v) :
    W.Kept m₀ { m with store := m.store.define scope name.lexeme v } :=
  hk.trans (.of_store (.define _ _ _ hname.ne) (hk.good.define _ hname.ne hv))

theorem yields_assignVariable {s : Setting} {id : NodeId} {name : Token} {v : Value}
    (hk : W.Kept m₀ m) (hname : name.IsName) (hv : W.GoodValue m.store v) :
    W.Yields m₀ (assignVariable s id name v) m fun _ m' => m.store.Evolves m'.store := by
  refine .bind_ok (a := m) (n := m) rfl ?_
  dsimp only
  split
  · rename_i scope _
    have hσ := Store.Evolves.define m.store scope v hname.ne
    exact .ok rfl (hk.define scope hname (hv.mono hσ)) hσ
  · exact .fault hk

theorem yields_define {name : Token} {v : Value} (hk : W.Kept m₀ m) (hname : name.IsName)
    (hv : W.GoodValue (m.store.define m.scope name.lexeme v) v)
    (hlt : m.scope.frame.index < m.store.frames.size) :
    W.Yields m₀ (define name v) m fun _ m' => m'.store.declares m'.scope name.lexeme = true :=
  .ok rfl (hk.define m.scope hname hv) (declares_define hlt _ _)

theorem yields_superclassOf {name : Token} {e : Expr} {v : Value} (hk : W.Kept m₀ m) :
    W.Yields m₀ (superclassOf name e v) m fun c m' => v = .class_ c ∧ m' = m := by
  unfold superclassOf
  split
  · exact .pure hk ⟨rfl, rfl⟩
  · split <;> exact .fault hk

theorem yields_print {v : Value} (hk : W.Kept m₀ m) :
    W.Yields m₀ (print v) m fun _ _ => True := by
  unfold Yields Ends print
  cases m.output.writeLine v.text with
  | mk accepted output =>
    cases accepted <;> exact ⟨⟨hk.store, hk.scope, hk.callDepth, hk.good⟩, trivial⟩

/-! ### New objects -/

theorem Kept.useObject (hk : W.Kept m₀ m) : W.Kept m₀ { m with store := m.store.useObject } :=
  hk.trans (.of_store (.withObjects _ _) hk.good.useObject)

theorem Kept.addFrame (hk : W.Kept m₀ m) {b : Bindings}
    (hb : ∀ x v, b.get? x = some v → W.GoodValue m.store v) :
    W.Kept m₀ { m with store := m.store.addFrame b } :=
  hk.trans (.of_store (.addFrame _ _) (hk.good.addFrame hb))

theorem Kept.withRecord (hk : W.Kept m₀ m) : W.Kept m₀ m.withRecord :=
  hk.trans (.of_store (.addRecord _) hk.good.addRecord)

/-- A method together with its instance is a good function, if the frame for the instance was opened
for the method and given the instance. -/
theorem yields_bindMethod {f : Closure} {i : Instance} (hk : W.Kept m₀ m)
    (hf : W.GoodMethod m.store f) (hi : W.GoodInstance m.store i)
    (hmade : W.made m.store.freshFrame (.this f.decl))
    (hgiven : W.given m.store.freshFrame (.this f.decl) (.instance_ i)) :
    W.Yields m₀ (bindMethod f i) m fun g m' => W.GoodFunction m'.store g := by
  have hi : W.GoodValue m.store (.instance_ i) := hi
  have hk' := (hk.addFrame (NameMap.forall_single (x := thisName) hi)).useObject
  refine .ok rfl hk' ?_
  obtain ⟨⟨st, context, names, scopes, os, hchain, hst, hnames, hcontext, hfits⟩, -⟩ := hf
  have hholds : W.Holds (m.store.addFrame (NameMap.empty.insert thisName (.instance_ i)))
      m.store.freshFrame (.this f.decl) := by
    refine ⟨i, ?_, hgiven⟩
    rw [Store.frame_addFrame_self, NameMap.get?_insert_self]
  have hσ := Store.Evolves.withObjects
    (m.store.addFrame (NameMap.empty.insert thisName (.instance_ i))) (m.store.nextObject + 1)
  refine ⟨⟨st, context, .this f.decl :: os, ?_, hcontext, hfits⟩, fun _ => hholds.mono hσ⟩
  rw [Runs, hst]
  refine (hchain.addFrame hmade hholds fun x hx => ?_).mono hσ
  rw [hnames x hx, NameMap.contains, NameMap.get?_insert_self]
  rfl

/-- A method that a class has is bound to the instance. -/
theorem yields_methodFor {c : Class} {i : Instance} {name : Token} (hk : W.Kept m₀ m)
    (hbind : ∀ f, c.method? name.lexeme = some f →
      W.Yields m (bindMethod f i) m fun g m' => W.GoodFunction m'.store g) :
    W.Yields m₀ (c.methodFor i name) m fun v m' => W.GoodValue m'.store v := by
  cases hf : c.method? name.lexeme with
  | some f =>
    rw [Class.methodFor_of_some hf]
    exact .bind hk (hbind f hf) fun g m' _ hk' hg => .pure hk' hg
  | none =>
    rw [Class.methodFor_of_none hf]
    exact .fault hk

/-- Making the methods of a class changes no frame and no record. -/
theorem newMethods_eq (scope : Scope) (decls : List FunDecl) (table : NameMap Closure)
    (m : Machine) :
    ∃ table' k, newMethods scope decls table m =
        .ok table' { m with store := { m.store with nextObject := k } } ∧
      ∀ x f, table'.get? x = some f → table.get? x = some f ∨ f.decl ∈ decls ∧ f.scope = scope := by
  obtain ⟨table', k, heq, hentered⟩ := exists_newMethods scope decls table m
  refine ⟨table', k, heq, fun x f hf => ?_⟩
  rcases (hentered x).of_get? hf with hf | ⟨hdecl, hscope, -⟩
  · exact .inl hf
  · exact .inr ⟨hdecl, hscope⟩

end World

end LoxWalk
