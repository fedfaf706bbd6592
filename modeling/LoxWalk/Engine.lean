import LoxWalk.Evaluation

/-!
# The engine

What lasts from one unit of a program to the next: the machine with everything that earlier units
left behind, and the distances of the references that can still be executed.  The distances of the
code outside functions are forgotten when the unit is over, since nothing can execute it again.
-/

namespace LoxWalk

/-- How many calls may be active at the same time unless something else is asked for. -/
def defaultMaxCallDepth : Nat :=
  4096

/-- The machine, and what is known about the references of its code. -/
structure Engine where
  distances : DistanceTable
  unitReferences : List NodeId
  globals : Scope
  maxCallDepth : Nat
  host : Host
  machine : Machine

/-- How the execution of a unit ends. -/
inductive Outcome where
  | finished
  | failed (e : RuntimeError)
  | channelFull
  | outOfFuel

namespace Engine

/-- An engine on which nothing has run yet.  Its top level holds the clock. -/
def new (host : Host) (maxCallDepth : Nat) (outputLimit : Option Nat) : Engine :=
  let store := Store.empty
  let clock : Native := ⟨store.freshObject, clockName, 0⟩
  let globals := Scope.root store.freshFrame
  { distances := .empty
    unitReferences := []
    globals := globals
    maxCallDepth := maxCallDepth
    host := host
    machine :=
      { store := store.useObject.addFrame (NameMap.empty.insert clockName (.native clock))
        scope := globals
        callDepth := 0
        output := .new outputLimit } }

/-- What stays the same while code runs on this engine. -/
def setting (e : Engine) : Setting :=
  ⟨e.distances, e.globals, e.maxCallDepth, e.host⟩

/-- Runs something on the machine of the engine. -/
def exec {α : Type} (e : Engine) (x : Setting → Exec α) : Except Interrupt α × Engine :=
  match x e.setting e.machine with
  | .ok a m => (.ok a, { e with machine := m })
  | .error i m => (.error i, { e with machine := m })

/-! ## Distances -/

/-- Notes the distance of a reference that may be executed at any later time. -/
def note (e : Engine) (id : NodeId) (distance : Nat) : Engine :=
  { e with distances := e.distances.note id distance }

/-- Notes the distance of a reference that only the current unit can execute. -/
def noteForUnit (e : Engine) (id : NodeId) (distance : Nat) : Engine :=
  { e.note id distance with unitReferences := id :: e.unitReferences }

/-- Notes the distance of a bound reference for as long as it is needed. -/
def noteBound (e : Engine) (r : BoundReference) : Engine :=
  match r.extent with
  | .unit => e.noteForUnit r.id r.distance
  | .lasting => e.note r.id r.distance

/-- Notes all distances in a unit. -/
def noteAll (e : Engine) (bound : List BoundReference) : Engine :=
  bound.foldl noteBound e

/-- Forgets the distances that only the unit needed. -/
def endUnit (e : Engine) : Engine :=
  { e with
    distances := e.unitReferences.foldl DistanceTable.forget e.distances
    unitReferences := [] }

/-! ## Units -/

/-- How a unit ends whose statements end in this way; a `return` ends it like its last statement. -/
def outcome : Except Interrupt Unit → Outcome
  | .ok _ => .finished
  | .error (.returning _) => .finished
  | .error (.fault e) => .failed e
  | .error .channelFull => .channelFull
  | .error .outOfFuel => .outOfFuel

/-- Goes back to the top level, with no call active. -/
def toTopLevel (e : Engine) : Engine :=
  { e with machine := { e.machine with scope := e.globals, callDepth := 0 } }

/-- Executes a unit; an error ends the unit and leaves the engine ready for the next. -/
def interpret (fuel : Nat) (unit : List Stmt) (e : Engine) : Outcome × Engine :=
  match e.exec (executeAll · fuel unit) with
  | (result, e₁) => (outcome result, e₁.toTopLevel.endUnit)

end Engine

end LoxWalk
