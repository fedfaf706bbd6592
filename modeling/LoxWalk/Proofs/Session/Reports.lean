import LoxWalk.Proofs.Session.Units

/-!
# What a unit reports

`Session.account` says how a unit ends, which engine it leaves behind, and which diagnostics it
reports.  Nothing else happens when the unit is run (`Session.run_eq`): what is in the channel for
diagnostics and in the flags for errors afterwards depends on the reports alone.
-/

namespace LoxWalk

/-- What becomes of a unit whose execution ends in this way. -/
def Outcome.status : Outcome → RunStatus
  | finished => .ok
  | failed _ => .runtimeError
  | channelFull => .runtimeError
  | outOfFuel => .outOfFuel

/-- The diagnostics of a unit whose execution ends in this way. -/
def Outcome.reports : Outcome → List Diagnostic
  | finished => []
  | failed e => [.runtime e]
  | channelFull => [.channelFull]
  | outOfFuel => []

/-- A unit that ends without an error has nothing to report. -/
theorem Outcome.reports_of_ok {o : Outcome} (h : o.status = .ok) : o.reports = [] := by
  cases o with
  | finished => rfl
  | _ => cases h

/-- How a unit ends, the engine that it leaves behind, and the diagnostics that it reports. -/
structure Account where
  status : RunStatus
  engine : Engine
  reports : List Diagnostic

namespace Engine

/-- The account of a unit whose references are bound. -/
def executed (fuel : Nat) (unit : List Stmt) (e : Engine) : Account :=
  ⟨(e.interpret fuel unit).1.status, (e.interpret fuel unit).2,
    (e.interpret fuel unit).1.reports⟩

/-- The account of a unit that could be read. -/
def bound (fuel : Nat) (unit : List Stmt) (e : Engine) : Account :=
  match (findings unit).errors with
  | [] => (e.noteAll (findings unit).bound).executed fuel unit
  | errors => ⟨.staticError, e.noteAll (findings unit).bound, errors.map .resolve⟩

/-- An engine on which a unit has ended on the machine `m`. -/
def ended (e : Engine) (m : Machine) : Engine :=
  { e with machine := m }.toTopLevel.endUnit

theorem executed_of_ok {e : Engine} {fuel : Nat} {unit : List Stmt} {m : Machine}
    (h : executeAll e.setting fuel unit e.machine = .ok () m) :
    e.executed fuel unit = ⟨.ok, e.ended m, []⟩ := by
  simp only [executed, interpret, exec, h]
  rfl

theorem executed_of_error {e : Engine} {fuel : Nat} {unit : List Stmt} {i : Interrupt} {m : Machine}
    (h : executeAll e.setting fuel unit e.machine = .error i m) :
    e.executed fuel unit =
      ⟨(outcome (.error i)).status, e.ended m, (outcome (.error i)).reports⟩ := by
  simp only [executed, interpret, exec, h]
  rfl

end Engine

namespace Session

/-- The account of a unit of source text. -/
def account (fuel : Nat) (source : String) (s : Session) : Account :=
  match (Grammar.program s.nextId (Source.tokens source)).result, Source.errors source with
  | .error errors, faults =>
    ⟨.staticError, s.engine, faults.map .scan ++ errors.map .parse⟩
  | .ok _, fault :: faults => ⟨.staticError, s.engine, (fault :: faults).map .scan⟩
  | .ok unit, [] => s.engine.bound fuel unit

/-- The diagnostics that a unit of source text reports. -/
def reports (fuel : Nat) (source : String) (s : Session) : List Diagnostic :=
  (s.account fuel source).reports

/-- A session with another engine and another next free identity. -/
def moved (s : Session) (engine : Engine) (nextId : Nat) : Session :=
  { s with engine := engine, nextId := nextId }

variable {s : Session} {fuel : Nat} {source : String} {unit : List Stmt}

theorem moved_reportAll (s : Session) (ds : List Diagnostic) (engine : Engine) (nextId : Nat) :
    (s.reportAll ds).moved engine nextId = (s.moved engine nextId).reportAll ds :=
  (List.foldl_hom (moved · engine nextId) fun _ _ => rfl).symm

theorem reportAll_append (s : Session) (ds ds' : List Diagnostic) :
    s.reportAll (ds ++ ds') = (s.reportAll ds).reportAll ds' :=
  List.foldl_append

theorem hadError_reportAll (s : Session) (ds : List Diagnostic) :
    (s.reportAll ds).hadError = (s.hadError || ds.any Diagnostic.isStatic) := by
  induction ds generalizing s with
  | nil => exact (Bool.or_false _).symm
  | cons d ds ih => exact (ih (s.report d)).trans (Bool.or_assoc _ _ _)

theorem hadRuntimeError_reportAll (s : Session) (ds : List Diagnostic) :
    (s.reportAll ds).hadRuntimeError = (s.hadRuntimeError || ds.any fun d => !d.isStatic) := by
  induction ds generalizing s with
  | nil => exact (Bool.or_false _).symm
  | cons d ds ih => exact (ih (s.report d)).trans (Bool.or_assoc _ _ _)

theorem execute_eq (s : Session) (fuel : Nat) (unit : List Stmt) :
    s.execute fuel unit = ((s.engine.executed fuel unit).status,
      (s.moved (s.engine.executed fuel unit).engine s.nextId).reportAll
        (s.engine.executed fuel unit).reports) := by
  unfold execute Engine.executed
  split <;> rename_i h <;> rw [h] <;> rfl

theorem bindAndExecute_eq (s : Session) (fuel : Nat) (unit : List Stmt) :
    s.bindAndExecute fuel unit = ((s.engine.bound fuel unit).status,
      (s.moved (s.engine.bound fuel unit).engine s.nextId).reportAll
        (s.engine.bound fuel unit).reports) := by
  unfold bindAndExecute Engine.bound
  dsimp only
  cases (findings unit).errors with
  | nil => exact execute_eq _ fuel unit
  | cons e es => rfl

/-- Running a unit moves the session on and reports the diagnostics of the unit. -/
theorem run_eq (s : Session) (fuel : Nat) (source : String) :
    s.run fuel source = ((s.account fuel source).status,
      (s.moved (s.account fuel source).engine
        (Grammar.program s.nextId (Source.tokens source)).nextId).reportAll
          (s.reports fuel source)) := by
  unfold run reports account
  dsimp only
  cases (Grammar.program s.nextId (Source.tokens source)).result with
  | error errors =>
    dsimp only
    rw [reportAll_append, ← moved_reportAll]
    simp only [moved, engine_reportAll]
  | ok unit =>
    cases Source.errors source with
    | nil => exact bindAndExecute_eq _ fuel unit
    | cons fault faults =>
      dsimp only
      rw [← moved_reportAll]
      simp only [moved, engine_reportAll]

theorem status_run (s : Session) (fuel : Nat) (source : String) :
    (s.run fuel source).1 = (s.account fuel source).status := by
  rw [run_eq]

theorem engine_run (s : Session) (fuel : Nat) (source : String) :
    (s.run fuel source).2.engine = (s.account fuel source).engine := by
  rw [run_eq, engine_reportAll]
  rfl

theorem hadError_run (s : Session) (fuel : Nat) (source : String) :
    (s.run fuel source).2.hadError =
      (s.hadError || (s.reports fuel source).any Diagnostic.isStatic) := by
  rw [run_eq]
  exact hadError_reportAll _ _

theorem hadRuntimeError_run (s : Session) (fuel : Nat) (source : String) :
    (s.run fuel source).2.hadRuntimeError =
      (s.hadRuntimeError || (s.reports fuel source).any fun d => !d.isStatic) := by
  rw [run_eq]
  exact hadRuntimeError_reportAll _ _

/-- The account of a source text with nothing wrong in it. -/
theorem account_of_readsAs (h : Source.ReadsAs s.nextId source unit) :
    s.account fuel source = (s.engine.noteAll (findings unit).bound).executed fuel unit := by
  unfold account Engine.bound
  simp only [h.parsed, h.scanned, h.resolved]

end Session

end LoxWalk
