import LoxWalk.Proofs.Execution.Outcomes
import LoxWalk.Proofs.Execution.Parts

/-!
# Notes about a store that only grow

A `Tracker` keeps a note about the store of a machine, and with every step that changes the store
the note grows.  Its fields are what has to be shown of single changes: a frame, a record, a
function or a class that is added, a variable that is declared or assigned, and a field that is set.

`Tracker.Tracks` says of a part of an execution that it leaves a store behind about which there is a
later note, whatever its outcome, and that all notes about the moments on the way lie in between.
Parts are put together with `Tracks.bind`.
-/

namespace LoxWalk

open Exec

/-- Notes about stores, with what they say about values and scopes.  A scope that is noted may be
enclosed by others, and names are declared in one that may be current. -/
structure Tracker where
  Note : Type
  le : Note → Note → Prop
  store : Note → Store → Prop
  value : Note → Value → Prop
  scope : Note → Scope → Prop
  current : Note → Scope → Prop
  -- notes grow
  refl (g : Note) : le g g
  trans {g g₁ g₂ : Note} (h : le g g₁) (h' : le g₁ g₂) : le g g₂
  value_mono {g g₁ : Note} {v : Value} (h : le g g₁) (hv : value g v) : value g₁ v
  scope_mono {g g₁ : Note} {c : Scope} (h : le g g₁) (hc : scope g c) : scope g₁ c
  current_mono {g g₁ : Note} {c : Scope} (h : le g g₁) (hc : current g c) : current g₁ c
  -- what is at hand
  scope_of_current {g : Note} {c : Scope} (h : current g c) : scope g c
  plain (g : Note) {v : Value} (h : v.IsPlain) : value g v
  ofFrame {g : Note} {σ : Store} {c : Scope} {x : String} {v : Value} (h : store g σ)
    (hv : σ.getLocal? c x = some v) : value g v
  ofRecord {g : Note} {σ : Store} {r : RecordId} {x : String} {v : Value} (h : store g σ)
    (hv : σ.field? r x = some v) : value g v
  closure {g : Note} {f : Closure} (h : value g (.function f)) : scope g f.scope
  method {g : Note} {c : Class} {x : String} {f : Closure} (h : value g (.class_ c))
    (hf : c.method? x = some f) : value g (.function f)
  ofClass {g : Note} {i : Instance} (h : value g (.instance_ i)) : value g (.class_ i.ofClass)
  -- what is changed
  define {g : Note} {σ : Store} {c : Scope} {v : Value} (x : String) (h : store g σ)
    (hc : current g c) (hv : value g v) : ∃ g₁, le g g₁ ∧ store g₁ (σ.define c x v)
  assign {g : Note} {σ : Store} {c : Scope} {x : String} {v : Value} (h : store g σ)
    (hx : σ.declares c x = true) (hv : value g v) : ∃ g₁, le g g₁ ∧ store g₁ (σ.define c x v)
  addFrame {g : Note} {σ : Store} {outer : Scope} {b : Bindings} (h : store g σ)
    (houter : scope g outer) (hb : ∀ x v, b.get? x = some v → value g v) :
    ∃ g₁, le g g₁ ∧ store g₁ (σ.addFrame b) ∧ current g₁ (.inside σ.freshFrame outer)
  newFunction {g : Note} {σ : Store} {c : Scope} (decl : FunDecl) (isInitializer : Bool)
    (h : store g σ) (hc : scope g c) :
    ∃ g₁, le g g₁ ∧ store g₁ σ.useObject ∧
      value g₁ (.function ⟨σ.freshObject, decl, c, isInitializer⟩)
  newBase {g : Note} {σ : Store} (own : ClassBody) (h : store g σ) (hid : own.id = σ.freshObject)
    (hown : ∀ x f, own.methods.get? x = some f → value g (.function f)) :
    ∃ g₁, le g g₁ ∧ store g₁ σ.useObject ∧ value g₁ (.class_ (.base own))
  newDerived {g : Note} {σ : Store} {c : Class} (own : ClassBody) (h : store g σ)
    (hid : own.id = σ.freshObject)
    (hown : ∀ x f, own.methods.get? x = some f → value g (.function f))
    (hc : value g (.class_ c)) :
    ∃ g₁, le g g₁ ∧ store g₁ σ.useObject ∧ value g₁ (.class_ (.derived own c))
  addRecord {g : Note} {σ : Store} {c : Class} (h : store g σ) (hc : value g (.class_ c)) :
    ∃ g₁, le g g₁ ∧ store g₁ σ.addRecord ∧ value g₁ (.instance_ ⟨σ.freshRecord, c⟩)
  setField {g : Note} {σ : Store} {v : Value} (r : RecordId) (x : String) (h : store g σ)
    (hv : value g v) : ∃ g₁, le g g₁ ∧ store g₁ (σ.setField r x v)

namespace Tracker

variable (T : Tracker)

theorem nil (g : T.Note) : T.value g .nil :=
  T.plain g (show Value.IsPlain .nil from trivial)

/-- Native functions yield only what their arguments and the notes about them allow. -/
def Trusts (host : Host) : Prop :=
  ∀ g name arguments v, host name arguments = .ok v → (∀ a ∈ arguments, T.value g a) → T.value g v

/-- What a task works on is noted. -/
def Handles (g : T.Note) (m : Machine) : Task → Prop
  | .evaluate _ => True
  | .evaluateAll _ => True
  | .assign _ _ v => T.value g v
  | .bind f i => T.value g (.function f) ∧ T.value g (.instance_ i)
  | .call callee _ arguments => T.value g callee ∧ ∀ v ∈ arguments, T.value g v
  | .enter callee _ arguments => T.value g callee ∧ ∀ v ∈ arguments, T.value g v
  | .run f arguments => T.value g (.function f) ∧ ∀ v ∈ arguments, T.value g v
  | .declareClass _ superclass _ => T.current g m.scope ∧ ∀ c ∈ superclass, T.value g (.class_ c)
  | _ => T.current g m.scope

/-- A note about a moment. -/
structure Fits (g : T.Note) (μ : Moment) : Prop where
  store : T.store g μ.machine.store
  scope : T.scope g μ.machine.scope
  task : T.Handles g μ.machine μ.task

/-- A note about what `x` comes to on the machine `m`: about the store that it leaves behind, about
its result, and about what it returns. -/
structure Outcome {α : Type} (x : Exec α) (m : Machine) (g : T.Note) (Q : T.Note → α → Prop) :
    Prop where
  store : T.store g (x.after m).store
  result : ∀ a m', x m = .ok a m' → Q g a
  returned : ∀ v m', x m = .error (.returning v) m' → T.value g v

/-- `P` is true of carrying out the task of a moment, with what is to be noted of its result. -/
def OfTask (s : Setting) (μ : Moment)
    (P : {α : Type} → Exec α → Machine → (T.Note → α → Prop) → Prop) : Prop :=
  match μ.task with
  | .evaluate e => P (evaluate s μ.fuel e) μ.machine T.value
  | .evaluateAll es => P (evaluateAll s μ.fuel es) μ.machine fun h vs => ∀ v ∈ vs, T.value h v
  | .assign id name v => P (assignVariable s id name v) μ.machine fun _ _ => True
  | .bind f i => P (bindMethod f i) μ.machine fun h f => T.value h (.function f)
  | .call callee paren arguments => P (call s μ.fuel callee paren arguments) μ.machine T.value
  | .enter callee paren arguments => P (enter s μ.fuel callee paren arguments) μ.machine T.value
  | .run f arguments => P (run s μ.fuel f arguments) μ.machine T.value
  | .execute t => P (execute s μ.fuel t) μ.machine fun _ _ => True
  | .executeAll ts => P (executeAll s μ.fuel ts) μ.machine fun _ _ => True
  | .repeatWhile condition body =>
    P (repeatWhile s μ.fuel condition body) μ.machine fun _ _ => True
  | .declareClass name superclass methods =>
    P (declareClass name superclass methods) μ.machine fun _ _ => True

/-- Notes about a moment before and after its task is carried out. -/
structure Noted (s : Setting) (μ : Moment) (g g' : T.Note) : Prop where
  fits : T.Fits g μ
  le : T.le g g'
  outcome : T.OfTask s μ fun x m Q => T.Outcome x m g' Q

/-- The note `g'` is about what `x` comes to on the machine `m`, about which there is the note `g`,
and all notes about the moments `N` on the way lie between these two. -/
structure Reaches {α : Type} (s : Setting) (x : Exec α) (m : Machine) (g : T.Note)
    (Q : T.Note → α → Prop) (N : Moment → Prop) (g' : T.Note) : Prop extends
    T.Outcome x m g' Q where
  le : T.le g g'
  scope : (x.after m).scope = m.scope
  moments : ∀ ν, N ν → ∃ h h', T.le g h ∧ T.le h' g' ∧ T.Noted s ν h h'

/-- However `x` ends on the machine `m`, there is a note about what it comes to. -/
def Tracks {α : Type} (s : Setting) (x : Exec α) (m : Machine) (g : T.Note)
    (Q : T.Note → α → Prop) (N : Moment → Prop) : Prop :=
  ∃ g', T.Reaches s x m g Q N g'

variable {T} {α β : Type} {s : Setting} {m n : Machine} {g g₁ : T.Note}

/-! ## Parts and wholes -/

namespace Tracks

variable {x : Exec α} {f : α → Exec β} {Q : T.Note → α → Prop} {R : T.Note → β → Prop}
  {N N' : Moment → Prop} {a : α} {i : Interrupt}

theorem of_ok (hx : x m = .ok a n) (hscope : n.scope = m.scope) (hle : T.le g g₁)
    (hσ : T.store g₁ n.store) (ha : Q g₁ a) : T.Tracks s x m g Q fun _ => False := by
  have hafter := after_of_ok hx
  refine ⟨g₁, ⟨by rwa [hafter], fun b m' h => ?_, fun v m' h => ?_⟩, hle, by rwa [hafter],
    fun _ hν => hν.elim⟩
  · rw [hx] at h
    cases h
    exact ha
  · rw [hx] at h
    cases h

theorem of_error (hx : x m = .error i n) (hscope : n.scope = m.scope)
    (hσ : T.store g n.store) (hi : ∀ v, i = .returning v → T.value g v) :
    T.Tracks s x m g Q fun _ => False := by
  have hafter := after_of_error hx
  refine ⟨g, ⟨by rwa [hafter], fun b m' h => ?_, fun v m' h => ?_⟩, T.refl g, by rwa [hafter],
    fun _ hν => hν.elim⟩
  · rw [hx] at h
    cases h
  · rw [hx] at h
    cases h
    exact hi v rfl

theorem pure (hσ : T.store g m.store) (ha : Q g a) :
    T.Tracks s (Pure.pure a : Exec α) m g Q fun _ => False :=
  of_ok rfl rfl (T.refl g) hσ ha

theorem fault {t : Token} {e : RuntimeFault} (hσ : T.store g m.store) :
    T.Tracks s (Exec.fault t e : Exec α) m g Q fun _ => False :=
  of_error rfl rfl hσ nofun

theorem outOfFuel (hσ : T.store g m.store) :
    T.Tracks s (throw .outOfFuel : Exec α) m g Q fun _ => False :=
  of_error rfl rfl hσ nofun

/-- Fewer moments on the way. -/
theorem fewer (hx : T.Tracks s x m g Q N) (hN : ∀ ν, N' ν → N ν) : T.Tracks s x m g Q N' := by
  obtain ⟨g', hx⟩ := hx
  exact ⟨g', { hx with moments := fun ν hν => hx.moments ν (hN ν hν) }⟩

/-- A later note about what an earlier one is about already. -/
theorem of_le (hle : T.le g g₁) (hx : T.Tracks s x m g₁ Q N) : T.Tracks s x m g Q N := by
  obtain ⟨g', hx⟩ := hx
  refine ⟨g', hx.toOutcome, T.trans hle hx.le, hx.scope, fun ν hν => ?_⟩
  obtain ⟨h, h', hgh, hhg', hnoted⟩ := hx.moments ν hν
  exact ⟨h, h', T.trans hle hgh, hhg', hnoted⟩

/-- Two steps; the moments of the second are those of what comes after the first. -/
theorem bind (M : α → Machine → Moment → Prop) (hx : T.Tracks s x m g Q N')
    (hf : ∀ a m₁ g₁, x m = .ok a m₁ → T.le g g₁ → T.store g₁ m₁.store → m₁.scope = m.scope →
      Q g₁ a → T.Tracks s (f a) m₁ g₁ R (M a m₁))
    (hN : ∀ ν, N ν → N' ν ∨ ∃ a m₁, x m = .ok a m₁ ∧ M a m₁ ν) : T.Tracks s (x >>= f) m g R N := by
  obtain ⟨g₁, hx⟩ := hx
  cases hr : x m with
  | error i m₁ =>
    have hafter := after_bind_of_error (f := f) hr
    refine ⟨g₁, ⟨hafter ▸ hx.store, fun b m' h => ?_, fun v m' h => ?_⟩, hx.le, hafter ▸ hx.scope,
      fun ν hν => ?_⟩
    · rw [bind_of_error hr] at h
      cases h
    · rw [bind_of_error hr] at h
      cases h
      exact hx.returned v _ hr
    · obtain hν | ⟨a, m₁, ha, -⟩ := hN ν hν
      · exact hx.moments ν hν
      · rw [hr] at ha
        cases ha
  | ok a m₁ =>
    have hσ := hx.store
    have hscope := hx.scope
    rw [after_of_ok hr] at hσ hscope
    obtain ⟨g₂, hfa⟩ := hf a m₁ g₁ hr hx.le hσ hscope (hx.result a m₁ hr)
    have hafter := after_bind_of_ok (f := f) hr
    refine ⟨g₂, ⟨hafter ▸ hfa.store, fun b m' h => ?_, fun v m' h => ?_⟩, T.trans hx.le hfa.le,
      hafter ▸ hfa.scope.trans hscope, fun ν hν => ?_⟩
    · rw [bind_of_ok hr] at h
      exact hfa.result b m' h
    · rw [bind_of_ok hr] at h
      exact hfa.returned v m' h
    · obtain hν | ⟨a', m', ha, hν⟩ := hN ν hν
      · obtain ⟨h, h', hgh, hhg, hnoted⟩ := hx.moments ν hν
        exact ⟨h, h', hgh, T.trans hhg hfa.le, hnoted⟩
      · rw [hr] at ha
        cases ha
        obtain ⟨h, h', hgh, hhg, hnoted⟩ := hfa.moments ν hν
        exact ⟨h, h', T.trans hx.le hgh, hhg, hnoted⟩

/-- Two steps of which the second comes to no moments. -/
theorem andThen (hx : T.Tracks s x m g Q N)
    (hf : ∀ a m₁ g₁, x m = .ok a m₁ → T.le g g₁ → T.store g₁ m₁.store → m₁.scope = m.scope →
      Q g₁ a → T.Tracks s (f a) m₁ g₁ R fun _ => False) : T.Tracks s (x >>= f) m g R N :=
  bind (fun _ _ _ => False) hx hf fun _ hν => .inl hν

/-- What does the same on this machine is tracked alike. -/
theorem of_eq {y : Exec α} (h : x m = y m) (hy : T.Tracks s y m g Q N) :
    T.Tracks s x m g Q N := by
  have hafter : x.after m = y.after m := by rw [Exec.after, Exec.after, h]
  obtain ⟨g', hy⟩ := hy
  refine ⟨g', ⟨hafter ▸ hy.store, fun a m' ha => ?_, fun v m' hv => ?_⟩, hy.le, hafter ▸ hy.scope,
    hy.moments⟩
  · rw [h] at ha
    exact hy.result a m' ha
  · rw [h] at hv
    exact hy.returned v m' hv

/-- A first step of which the outcome is known. -/
theorem bind_ok (hx : x m = .ok a n) (hscope : n.scope = m.scope)
    (hf : T.Tracks s (f a) n g R N) : T.Tracks s (x >>= f) m g R N := by
  obtain ⟨g', hf⟩ := hf
  have hafter := after_bind_of_ok (f := f) hx
  refine ⟨g', ⟨hafter ▸ hf.store, fun b m' h => ?_, fun v m' h => ?_⟩, hf.le,
    hafter ▸ hf.scope.trans hscope, hf.moments⟩
  · rw [bind_of_ok hx] at h
    exact hf.result b m' h
  · rw [bind_of_ok hx] at h
    exact hf.returned v m' h

theorem inScope {scope : Scope} (hx : T.Tracks s x { m with scope := scope } g Q N) :
    T.Tracks s (Exec.inScope scope x) m g Q N := by
  obtain ⟨g', hx⟩ := hx
  refine ⟨g', ⟨?_, fun a m' h => ?_, fun v m' h => ?_⟩, hx.le, by rw [after_inScope], hx.moments⟩
  · rw [after_inScope]
    exact hx.store
  · unfold Exec.inScope at h
    cases hr : x { m with scope := scope } with
    | ok b m₁ =>
      simp only [hr] at h
      cases h
      exact hx.result _ _ hr
    | error i m₁ =>
      simp only [hr] at h
      cases h
  · unfold Exec.inScope at h
    cases hr : x { m with scope := scope } with
    | ok b m₁ =>
      simp only [hr] at h
      cases h
    | error i m₁ =>
      simp only [hr] at h
      cases h
      exact hx.returned _ _ hr

theorem asCall (hx : T.Tracks s x m.called g Q N) : T.Tracks s (Exec.asCall x) m g Q N := by
  obtain ⟨g', hx⟩ := hx
  have hscope : ((Exec.asCall x).after m).scope = m.scope := by
    rw [after_asCall]
    exact hx.scope
  refine ⟨g', ⟨?_, fun a m' h => ?_, fun v m' h => ?_⟩, hx.le, hscope, hx.moments⟩
  · rw [after_asCall]
    exact hx.store
  · unfold Exec.asCall at h
    cases hr : x m.called with
    | ok b m₁ =>
      rw [Machine.called] at hr
      simp only [hr] at h
      cases h
      exact hx.result _ _ hr
    | error i m₁ =>
      rw [Machine.called] at hr
      simp only [hr] at h
      cases h
  · unfold Exec.asCall at h
    cases hr : x m.called with
    | ok b m₁ =>
      rw [Machine.called] at hr
      simp only [hr] at h
      cases h
    | error i m₁ =>
      rw [Machine.called] at hr
      simp only [hr] at h
      cases h
      exact hx.returned _ _ hr

theorem catchReturn {x : Exec Unit} (hx : T.Tracks s x m g (fun _ _ => True) N) :
    T.Tracks s (Exec.catchReturn x) m g T.value N := by
  obtain ⟨g', hx⟩ := hx
  have hafter := after_catchReturn x m
  refine ⟨g', ⟨hafter ▸ hx.store, fun a m' h => ?_, fun v m' h => ?_⟩, hx.le, hafter ▸ hx.scope,
    hx.moments⟩
  · unfold Exec.catchReturn at h
    cases hr : x m with
    | ok b m₁ =>
      rw [hr] at h
      cases h
      exact T.nil g'
    | error i m₁ =>
      rw [hr] at h
      cases i with
      | returning v =>
        cases h
        exact hx.returned _ _ hr
      | _ => cases h
  · unfold Exec.catchReturn at h
    cases hr : x m with
    | ok b m₁ =>
      rw [hr] at h
      cases h
    | error i m₁ =>
      rw [hr] at h
      cases i <;> cases h

end Tracks

/-! ## Single steps -/

theorem tracks_operate {operator : Token} {outcome : Except RuntimeFault Value}
    (hσ : T.store g m.store) (hv : ∀ v, outcome = .ok v → v.IsPlain) :
    T.Tracks s (operate operator outcome) m g T.value fun _ => False := by
  cases outcome with
  | ok v => exact .pure hσ (T.plain g (hv v rfl))
  | error e => exact .fault hσ

theorem tracks_readVariable {s' : Setting} {id : NodeId} {name : Token} (hσ : T.store g m.store) :
    T.Tracks s (readVariable s' id name) m g T.value fun _ => False := by
  have hfound : ∀ (scope? : Option Scope) (v : Value),
      scope?.bind (m.store.getLocal? · name.lexeme) = some v → T.value g v := by
    intro scope? v hv
    obtain ⟨scope, -, hv⟩ := Option.bind_eq_some_iff.mp hv
    exact T.ofFrame hσ hv
  refine .bind_ok (a := m) (n := m) rfl rfl ?_
  dsimp only
  split
  · rename_i v hv
    refine .pure hσ ?_
    split at hv <;> exact hfound _ v hv
  · exact .fault hσ

theorem declares_of_owner? {σ : Store} {c owner : Scope} {x : String}
    (h : σ.owner? c x = some owner) : σ.declares owner x = true := by
  induction c with
  | root f =>
    rw [Store.owner?] at h
    split at h
    · cases h
      assumption
    · cases h
  | inside f outer ih =>
    rw [Store.owner?] at h
    split at h
    · cases h
      assumption
    · exact ih h

theorem tracks_assignVariable {s' : Setting} {id : NodeId} {name : Token} {v : Value}
    (hσ : T.store g m.store) (hv : T.value g v) :
    T.Tracks s (assignVariable s' id name v) m g (fun _ _ => True) fun _ => False := by
  refine .bind_ok (a := m) (n := m) rfl rfl ?_
  dsimp only
  split
  · rename_i scope hs
    have hdeclares : m.store.declares scope name.lexeme = true := by
      split at hs
      · exact (Option.filter_eq_some_iff.mp hs).2
      · exact declares_of_owner? hs
    obtain ⟨g₁, hle, hσ₁⟩ := T.assign hσ hdeclares hv
    exact .of_ok rfl rfl hle hσ₁ trivial
  · exact .fault hσ

theorem tracks_define {name : Token} {v : Value} (hσ : T.store g m.store)
    (hscope : T.current g m.scope) (hv : T.value g v) :
    T.Tracks s (Exec.define name v) m g (fun _ _ => True) fun _ => False := by
  obtain ⟨g₁, hle, hσ₁⟩ := T.define name.lexeme hσ hscope hv
  exact .of_ok rfl rfl hle hσ₁ trivial

theorem tracks_newScope {outer : Scope} {b : Bindings} (hσ : T.store g m.store)
    (houter : T.scope g outer) (hb : ∀ x v, b.get? x = some v → T.value g v) :
    T.Tracks s (newScope outer b) m g T.current fun _ => False := by
  obtain ⟨g₁, hle, hσ₁, hcurrent⟩ := T.addFrame hσ houter hb
  exact .of_ok rfl rfl hle hσ₁ hcurrent

theorem tracks_newClosure {decl : FunDecl} {scope : Scope} {isInitializer : Bool}
    (hσ : T.store g m.store) (hscope : T.scope g scope) :
    T.Tracks s (newClosure decl scope isInitializer) m g (fun h f => T.value h (.function f))
      fun _ => False := by
  obtain ⟨g₁, hle, hσ₁, hf⟩ := T.newFunction decl isInitializer hσ hscope
  exact .of_ok rfl rfl hle hσ₁ hf

/-- A method together with its instance; the scope around it is new. -/
theorem tracks_bindMethod {f : Closure} {i : Instance} (hσ : T.store g m.store)
    (hf : T.value g (.function f)) (hi : T.value g (.instance_ i)) :
    T.Tracks s (bindMethod f i) m g (fun h f => T.value h (.function f)) fun _ => False := by
  refine .andThen (tracks_newScope hσ (T.closure hf) (NameMap.forall_single hi)) ?_
  intro scope m₁ g₁ _ _ hσ₁ _ hscope
  exact tracks_newClosure hσ₁ (T.scope_of_current hscope)

/-- A method that a class has is bound to the instance, with the moments of this on the way. -/
theorem tracks_methodFor {c : Class} {i : Instance} {name : Token} {M : Closure → Moment → Prop}
    (hσ : T.store g m.store) (hbind : ∀ f, c.method? name.lexeme = some f →
      T.Tracks s (bindMethod f i) m g (fun h f => T.value h (.function f)) (M f)) :
    T.Tracks s (c.methodFor i name) m g T.value
      fun ρ => ∃ f, c.method? name.lexeme = some f ∧ M f ρ := by
  cases hf : c.method? name.lexeme with
  | some f =>
    rw [Class.methodFor_of_some hf]
    refine .fewer (.andThen (hbind f hf) fun _ _ _ _ _ hσ₁ _ hbound => .pure hσ₁ hbound) ?_
    rintro ρ ⟨_, ⟨⟩, hρ⟩
    exact hρ
  | none =>
    rw [Class.methodFor_of_none hf]
    refine (Tracks.fault hσ).fewer ?_
    rintro ρ ⟨_, ⟨⟩, -⟩

theorem tracks_newMethods {scope : Scope} {decls : List FunDecl} {table : NameMap Closure}
    (hσ : T.store g m.store) (hscope : T.scope g scope)
    (htable : ∀ x f, table.get? x = some f → T.value g (.function f)) :
    T.Tracks s (newMethods scope decls table) m g
      (fun h table' => ∀ x f, table'.get? x = some f → T.value h (.function f)) fun _ => False := by
  induction decls generalizing m g table with
  | nil => exact .pure hσ htable
  | cons decl decls ih =>
    refine .andThen (tracks_newClosure hσ hscope) fun f m₁ g₁ _ hle hσ₁ _ hf => ?_
    refine ih hσ₁ (T.scope_mono hle hscope) (NameMap.forall_insert ?_ hf)
    exact fun x f hf => T.value_mono hle (htable x f hf)

theorem tracks_declareClass {name : Token} {superclass : Option Class} {methods : List FunDecl}
    (hσ : T.store g m.store) (hscope : T.current g m.scope)
    (hsuper : ∀ c ∈ superclass, T.value g (.class_ c)) :
    T.Tracks s (declareClass name superclass methods) m g (fun _ _ => True) fun _ => False := by
  refine .andThen (tracks_define hσ hscope (T.nil g)) fun _ m₁ g₁ _ hle hσ₁ hs _ => ?_
  refine .bind_ok (a := m₁) (n := m₁) rfl rfl ?_
  have hscope₁ : T.current g₁ m₁.scope := hs ▸ T.current_mono hle hscope
  cases superclass with
  | none =>
    refine .bind_ok (a := m₁.scope) (n := m₁) rfl rfl ?_
    refine .andThen (tracks_newMethods hσ₁ (T.scope_of_current hscope₁) nofun) ?_
    intro table m₂ g₂ _ hle₂ hσ₂ hs₂ htable
    obtain ⟨g₃, hle₃, hσ₃, hclass⟩ := T.newBase ⟨m₂.store.freshObject, name.lexeme, table⟩
      hσ₂ rfl htable
    refine .of_le hle₃ (.bind_ok rfl rfl (tracks_define hσ₃ ?_ hclass))
    exact hs₂ ▸ T.current_mono hle₃ (T.current_mono hle₂ hscope₁)
  | some c =>
    have hc := T.value_mono hle (hsuper c rfl)
    refine .andThen (tracks_newScope hσ₁ (T.scope_of_current hscope₁) (NameMap.forall_single hc)) ?_
    intro scope m₂ g₂ _ hle₂ hσ₂ hs₂ hscope₂
    refine .andThen (tracks_newMethods hσ₂ (T.scope_of_current hscope₂) nofun) ?_
    intro table m₃ g₃ _ hle₃ hσ₃ hs₃ htable
    obtain ⟨g₄, hle₄, hσ₄, hclass⟩ := T.newDerived
      ⟨m₃.store.freshObject, name.lexeme, table⟩ hσ₃ rfl htable
      (T.value_mono hle₃ (T.value_mono hle₂ hc))
    refine .of_le hle₄ (.bind_ok rfl rfl (tracks_define hσ₄ ?_ hclass))
    show T.current g₄ m₃.scope
    rw [hs₃, hs₂]
    exact T.current_mono hle₄ (T.current_mono hle₃ (T.current_mono hle₂ hscope₁))

theorem tracks_print {v : Value} (hσ : T.store g m.store) :
    T.Tracks s (print v) m g (fun _ _ => True) fun _ => False := by
  cases h : m.output.writeLine v.text with
  | mk accepted output =>
    cases accepted with
    | true =>
      refine .of_ok (a := ()) (n := { m with output := output }) ?_ rfl (T.refl g) hσ trivial
      simp only [Exec.print, h]
    | false =>
      refine .of_error (i := .channelFull) (n := { m with output := output }) ?_ rfl hσ nofun
      simp only [Exec.print, h]

end Tracker

end LoxWalk
