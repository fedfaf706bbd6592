import LoxWalk.Proofs.Session.Dispatch
import LoxWalk.Proofs.Tracking.Links

/-!
# Links during a session

For a session there are links that stay the same for ever: every scope and every class that there
is at any moment of any unit, or between units, goes along them (`Lives.links_wellFounded`).  Scopes
are held by the machine, by the calls around the current one, and by functions and methods.  Values
are looked for in the store, in what a task works on, and in what it results in, since the evaluator
may hold on to them before it puts them anywhere.
-/

namespace LoxWalk

open Exec

/-! ## What is held at a moment -/

/-- The values that a task works on. -/
def Task.values : Task → List Value
  | .assign _ _ v => [v]
  | .bind f i => [.function f, .instance_ i]
  | .call callee _ arguments => callee :: arguments
  | .enter callee _ arguments => callee :: arguments
  | .run f arguments => .function f :: arguments
  | .declareClass _ superclass _ => superclass.toList.map .class_
  | _ => []

/-- Carrying out the task of the moment results in the value. -/
def Moment.ResultsIn (s : Setting) (μ : Moment) (v : Value) : Prop :=
  match μ.task with
  | .evaluate e => ∃ m, evaluate s μ.fuel e μ.machine = .ok v m
  | .evaluateAll es => ∃ vs m, evaluateAll s μ.fuel es μ.machine = .ok vs m ∧ v ∈ vs
  | .bind f i => ∃ g m, bindMethod f i μ.machine = .ok g m ∧ v = .function g
  | .call callee paren arguments => ∃ m, call s μ.fuel callee paren arguments μ.machine = .ok v m
  | .enter callee paren arguments => ∃ m, enter s μ.fuel callee paren arguments μ.machine = .ok v m
  | .run f arguments => ∃ m, run s μ.fuel f arguments μ.machine = .ok v m
  | _ => False

/-- Carrying out the task of the moment is interrupted by a `return` of the value. -/
def Moment.Unwinds (s : Setting) (μ : Moment) (v : Value) : Prop :=
  μ.Carried s fun x m => ∃ m', x m = .error (.returning v) m'

/-- At the moment and when its task is carried out, all scopes and classes go along the links. -/
structure Links.Sees (L : Links) (s : Setting) (μ : Moment) : Prop where
  store : L.Describes μ.machine.store
  scope : L.Follows μ.machine.scope
  values : ∀ v ∈ μ.task.values, L.Knows v
  after : μ.Carried s fun x m => L.Describes (x.after m).store
  results : ∀ v, μ.ResultsIn s v → L.Knows v
  returned : ∀ v, μ.Unwinds s v → L.Knows v

section

variable {s : Setting} {μ : Moment} {L L₁ L₂ : Links}

theorem Links.knows_values {m : Machine} {task : Task} (h : Tracker.links.Handles L m task) :
    ∀ v ∈ task.values, L.Knows v := by
  cases task with
  | assign id name v => exact List.forall_mem_singleton.mpr h
  | bind f i => exact List.forall_mem_cons.mpr ⟨h.1, List.forall_mem_singleton.mpr h.2⟩
  | call callee paren arguments => exact List.forall_mem_cons.mpr h
  | enter callee paren arguments => exact List.forall_mem_cons.mpr h
  | run f arguments => exact List.forall_mem_cons.mpr h
  | declareClass name superclass methods =>
    cases superclass with
    | none => exact nofun
    | some c => exact List.forall_mem_singleton.mpr (h.2 c rfl)
  | _ => exact nofun

/-- What is noted of a moment stays true when links are added. -/
theorem Links.Sees.of_noted (h : Tracker.links.Noted s μ L₁ L₂) (hL : L₂.Grows L) :
    L.Sees s μ := by
  obtain ⟨⟨hstore, hscope, htask⟩, hle, houtcome⟩ := h
  have hgrows : L₁.Grows L := Links.Grows.trans hle hL
  obtain ⟨fuel, task, m⟩ := μ
  refine ⟨hgrows.describes hstore.toDescribes, hgrows.follows hscope,
    fun v hv => hgrows.knows (knows_values htask v hv), ?_, fun v hv => hL.knows ?_,
    fun v hv => hL.knows ?_⟩
  · cases task <;> exact hL.describes houtcome.store.toDescribes
  · cases task with
    | evaluateAll es =>
      obtain ⟨vs, m', hvs, hmem⟩ := hv
      exact houtcome.result vs m' hvs v hmem
    | bind f i =>
      obtain ⟨g, m', hg, rfl⟩ := hv
      exact houtcome.result g m' hg
    | evaluate | call | enter | run =>
      obtain ⟨m', hv⟩ := hv
      exact houtcome.result v m' hv
    | _ => exact hv.elim
  · cases task <;>
    · obtain ⟨m', hv⟩ := hv
      exact houtcome.returned v m' hv

end

/-! ## Sessions -/

namespace Lives

variable {s : Session} {xs : List Execution}

theorem exists_host (h : Lives s xs) : ∃ now, s.engine.host = .clockAt now := by
  induction h with
  | new now => exact ⟨now, rfl⟩
  | clock _ now => exact ⟨now, rfl⟩
  | reset _ ih => exact ih
  | refused _ fuel hsource ih =>
    obtain he | ⟨unit, -, he⟩ := Session.engine_run_of_refused fuel hsource
    · rwa [he]
    · rwa [he, Engine.host_noteAll]
  | executed _ fuel hsource ih =>
    obtain ⟨now, hnow⟩ := ih
    rw [Session.engine_run_of_readsAs hsource]
    exact ⟨now, (Engine.host_noteAll _ _).trans hnow⟩

/-- All units were executed with the first frame as the top level. -/
theorem globals_of_mem (h : Lives s xs) : ∀ x ∈ xs, x.setting.globals = .root ⟨0⟩ := by
  induction h with
  | new => exact nofun
  | clock _ _ ih => exact ih
  | reset _ ih => exact ih
  | refused _ _ _ ih => exact ih
  | executed h _ _ ih =>
    exact List.forall_mem_cons.mpr ⟨(Engine.globals_noteAll _ _).trans h.globals_eq, ih⟩

/-- In a new session there is one frame and one object, the clock. -/
def firstLinks : Links where
  frames := 1
  objects := 1
  outer? _ := none
  superclass? _ := none
  methods _ := .empty
  frames_pos := Nat.one_pos
  outer_lt h := by cases h
  superclass_lt h := by cases h
  isSome_outer? h hlt := absurd h (Nat.not_lt.mpr (Nat.lt_succ_iff.mp hlt))

theorem matches_new (host : Host) (maxCallDepth : Nat) (outputLimit : Option Nat) :
    firstLinks.Matches (Engine.new host maxCallDepth outputLimit).machine.store := by
  refine ⟨⟨Nat.le_refl 1, Nat.le_refl 1, fun f x v hv => ?_, fun r x v hv => ?_⟩, rfl, rfl⟩
  · -- the only frame holds the clock
    obtain rfl : f = Store.empty.useObject.freshFrame := by
      have hlt : f.index < 1 := Store.lt_size_of_get? hv
      cases f
      exact congrArg FrameId.mk (Nat.lt_one_iff.mp hlt)
    rw [Engine.new, Store.frame_addFrame_self, NameMap.get?_insert] at hv
    split at hv <;> cases hv
    trivial
  · have hnone : (#[] : Array Bindings)[r.index]? = none := Array.getElem?_eq_none (Nat.zero_le _)
    rw [Store.field?, Engine.new, Store.addFrame, Store.useObject, Store.empty, hnone] at hv
    cases hv

/-- The links of a session are those of its store, and all moments of its units went along them. -/
theorem exists_links (h : Lives s xs) : ∃ L : Links,
    L.Matches s.engine.machine.store ∧ L.Follows s.engine.machine.scope ∧
      ∀ x ∈ xs, ∀ μ, During x.setting x.start μ →
        ∃ L₁ L₂ : Links, L₂.Grows L ∧ Tracker.links.Noted x.setting μ L₁ L₂ := by
  induction h with
  | new now maxCallDepth outputLimit diagnosticsLimit =>
    exact ⟨firstLinks, matches_new _ _ _, rfl, nofun⟩
  | clock _ _ ih => exact ih
  | reset _ ih => exact ih
  | refused _ fuel hsource ih =>
    obtain he | ⟨unit, -, he⟩ := Session.engine_run_of_refused fuel hsource
    · rwa [he]
    · rwa [he, Engine.machine_noteAll]
  | @executed s xs hlives fuel source unit hsource ih =>
    obtain ⟨L, hσ, hscope, hxs⟩ := ih
    obtain ⟨now, hnow⟩ := hlives.exists_host
    have hhost : Tracker.links.Trusts (s.execution fuel unit).setting.host := by
      have hsame : (s.execution fuel unit).setting.host = .clockAt now :=
        (Engine.host_noteAll _ _).trans hnow
      rw [hsame]
      exact Tracker.links_trusts now
    have hfits : Tracker.links.Fits L (s.execution fuel unit).start := ⟨hσ, hscope, hscope⟩
    obtain ⟨L', hreaches⟩ := hfits.tracked hhost
    have hglobals : L'.Follows (s.engine.noteAll (findings unit).bound).globals := by
      rw [Engine.globals_noteAll, hlives.globals_eq]
      rfl
    refine ⟨L', ?_, ?_, List.forall_mem_cons.mpr ⟨fun μ hμ => ?_, fun x hx μ hμ => ?_⟩⟩
    · rw [Session.engine_run_of_readsAs hsource]
      exact hreaches.store
    · rw [Session.engine_run_of_readsAs hsource]
      exact hglobals
    · obtain ⟨L₁, L₂, -, hle, hnoted⟩ := hreaches.moments μ hμ
      exact ⟨L₁, L₂, hle, hnoted⟩
    · obtain ⟨L₁, L₂, hle, hnoted⟩ := hxs x hx μ hμ
      exact ⟨L₁, L₂, hle.trans hreaches.le, hnoted⟩

/-- In every session there are links that never change: all scopes and classes that there are
between units, and at every moment of every unit, go along them.  So every scope ends at the top
level, which is the first frame, no scope encloses itself and no class inherits from itself, and all
searches that follow enclosing scopes or superclasses end. -/
theorem links_wellFounded (h : Lives s xs) : ∃ L : Links,
    s.engine.globals = .root ⟨0⟩ ∧
      L.Describes s.engine.machine.store ∧ L.Follows s.engine.machine.scope ∧
      (∀ x ∈ xs, x.setting.globals = .root ⟨0⟩ ∧
        ∀ μ, During x.setting x.start μ → L.Sees x.setting μ) ∧
      (∀ σ c, L.Follows c → L.ScopeEnds σ c) ∧ ∀ C, L.Descends C → L.ClassEnds C := by
  obtain ⟨L, hσ, hscope, hxs⟩ := h.exists_links
  refine ⟨L, h.globals_eq, hσ.toDescribes, hscope, fun x hx => ⟨h.globals_of_mem x hx, ?_⟩,
    fun σ c hc => hc.ends σ, fun C hC => hC.ends⟩
  intro μ hμ
  obtain ⟨L₁, L₂, hle, hnoted⟩ := hxs x hx μ hμ
  exact .of_noted hnoted hle

/-- So it is with a class that inherits from another and whose method calls the one it overrides. -/
theorem links_wellFounded_overriding : ∃ s : Session, Lives s [.overriding] ∧ ∃ L : Links,
    L.Describes s.engine.machine.store ∧
      (∀ μ, During Execution.overriding.setting Execution.overriding.start μ →
        L.Sees Execution.overriding.setting μ) ∧
      ∀ C, L.Descends C → L.ClassEnds C := by
  have hlives : Lives _ [Execution.overriding] :=
    (Lives.new 0 8 none none).executed 20 Execution.readsAs_overriding
  obtain ⟨L, -, hσ, -, hxs, -, hclasses⟩ := hlives.links_wellFounded
  exact ⟨_, hlives, L, hσ, (hxs _ List.mem_cons_self).2, hclasses⟩

end Lives

end LoxWalk
