import LoxWalk.Engine
import LoxWalk.Grammar
import LoxWalk.Source

/-!
# Sessions

A session runs one unit of source text after the other on one engine and reports what is wrong with
them on a channel of its own.  A unit goes through four phases: its text is cut into tokens, the
tokens are read as a program, its references are bound, and it is executed.  A unit with a static
error is refused before the last phase.

A diagnostic that the channel refuses is lost; nothing else depends on it.
-/

namespace LoxWalk

/-- What became of a unit. -/
inductive RunStatus where
  | ok
  | staticError
  | runtimeError
  | outOfFuel
deriving DecidableEq

/-- The exit code of a program that ends with this status. -/
def RunStatus.exitCode : RunStatus → Nat
  | ok => 0
  | staticError => 65
  | runtimeError => 70
  | outOfFuel => 75

/-- An engine, the next free identity of a node, the channel for diagnostics, and whether static
errors and runtime errors were reported since the last reset. -/
structure Session where
  engine : Engine
  nextId : Nat
  diagnostics : Channel
  hadError : Bool
  hadRuntimeError : Bool

namespace Session

/-- A session in which nothing has run yet. -/
def new (engine : Engine) (diagnosticsLimit : Option Nat) : Session :=
  ⟨engine, 0, .new diagnosticsLimit, false, false⟩

/-- Forgets that there were errors. -/
def resetErrors (s : Session) : Session :=
  { s with hadError := false, hadRuntimeError := false }

/-- Reports a diagnostic. -/
def report (s : Session) (d : Diagnostic) : Session :=
  { s with
    hadError := s.hadError || d.isStatic
    hadRuntimeError := s.hadRuntimeError || !d.isStatic
    diagnostics := (s.diagnostics.writeLine d.text).2 }

/-- Reports several diagnostics. -/
def reportAll (s : Session) (ds : List Diagnostic) : Session :=
  ds.foldl report s

/-- Executes a unit whose references are bound. -/
def execute (fuel : Nat) (unit : List Stmt) (s : Session) : RunStatus × Session :=
  match s.engine.interpret fuel unit with
  | (.finished, engine) => (.ok, { s with engine := engine })
  | (.failed e, engine) => (.runtimeError, { s with engine := engine }.report (.runtime e))
  | (.channelFull, engine) => (.runtimeError, { s with engine := engine }.report .channelFull)
  | (.outOfFuel, engine) => (.outOfFuel, { s with engine := engine })

/-- Binds the references of a unit, and executes it if it breaks no static rule.  The distances are
noted in either case. -/
def bindAndExecute (fuel : Nat) (unit : List Stmt) (s : Session) : RunStatus × Session :=
  let found := findings unit
  let s₁ := { s with engine := s.engine.noteAll found.bound }
  match found.errors with
  | [] => s₁.execute fuel unit
  | errors => (.staticError, s₁.reportAll (errors.map .resolve))

/-- Runs one unit of source text.  Tokens are read as a program even if the text has faults, so
that those of the grammar are reported too. -/
def run (fuel : Nat) (source : String) (s : Session) : RunStatus × Session :=
  let faults := Source.errors source
  let s₁ := s.reportAll (faults.map .scan)
  let parsed := Grammar.program s.nextId (Source.tokens source)
  let s₂ := { s₁ with nextId := parsed.nextId }
  match parsed.result, faults with
  | .error errors, _ => (.staticError, s₂.reportAll (errors.map .parse))
  | .ok _, _ :: _ => (.staticError, s₂)
  | .ok unit, [] => s₂.bindAndExecute fuel unit

end Session

end LoxWalk
