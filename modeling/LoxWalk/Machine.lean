import Std.Data.TreeMap
import LoxWalk.Binding
import LoxWalk.Channel
import LoxWalk.Store

/-!
# The machine

What a running program works on.  A `Setting` does not change while a unit runs: the distances of
its references, the top-level scope, the limit on nested calls, and the host that gives native
functions their meaning.  A `Machine` is what does change: the store, the current scope, the number
of calls that are active, and the output.

Everything that runs is an `Exec`: it ends with a result or with an `Interrupt`, and with a machine
in either case, so whatever was done before an interruption stays done.
-/

namespace LoxWalk

/-- The distances of the references that have one. -/
structure DistanceTable where
  entries : Std.TreeMap Nat Nat

namespace DistanceTable

/-- A table without references. -/
def empty : DistanceTable :=
  ⟨∅⟩

/-- The distance of a reference. -/
def distance? (t : DistanceTable) (id : NodeId) : Option Nat :=
  t.entries[id.index]?

/-- Notes the distance of a reference. -/
def note (t : DistanceTable) (id : NodeId) (distance : Nat) : DistanceTable :=
  ⟨t.entries.insert id.index distance⟩

/-- Forgets the distance of a reference. -/
def forget (t : DistanceTable) (id : NodeId) : DistanceTable :=
  ⟨t.entries.erase id.index⟩

/-- How many references have a distance. -/
def count (t : DistanceTable) : Nat :=
  t.entries.size

theorem distance?_note (t : DistanceTable) (id other : NodeId) (distance : Nat) :
    (t.note id distance).distance? other =
      if id = other then some distance else t.distance? other := by
  simp only [distance?, note, Std.TreeMap.getElem?_insert, Nat.compare_eq_eq]
  cases id; cases other; simp

theorem distance?_forget (t : DistanceTable) (id other : NodeId) :
    (t.forget id).distance? other = if id = other then none else t.distance? other := by
  simp only [distance?, forget, Std.TreeMap.getElem?_erase, Nat.compare_eq_eq]
  cases id; cases other; simp

end DistanceTable

/-- The meaning of native functions: what a name makes of its arguments, or the message of the
error it raises. -/
abbrev Host := String → List Value → Except String Value

/-- The native function that tells the time in seconds. -/
def clockName : String :=
  "clock"

/-- A host whose clock stands at `now`; there are no other native functions. -/
def Host.clockAt (now : Float) : Host := fun name _ =>
  if name = clockName then .ok (.number now) else .error ("no native function " ++ name)

/-- What stays the same while a unit runs. -/
structure Setting where
  distances : DistanceTable
  globals : Scope
  maxCallDepth : Nat
  host : Host

/-- What changes while a unit runs. -/
structure Machine where
  store : Store
  scope : Scope
  callDepth : Nat
  output : Channel

/-- What can end the execution of a tree before its end. -/
inductive Interrupt where
  | returning (v : Value)
  | fault (e : RuntimeError)
  | channelFull
  | outOfFuel

/-- Something that runs on a machine. -/
abbrev Exec := EStateM Interrupt Machine

namespace Exec

/-- A check that fails at a token. -/
def fault {α : Type} (t : Token) (e : RuntimeFault) : Exec α :=
  throw (.fault (.atToken t e))

/-- Changes the store. -/
@[inline]
def modifyStore (f : Store → Store) : Exec Unit :=
  modify fun m => { m with store := f m.store }

/-- Runs `x` with `scope` as the current scope; the former scope is current again afterwards,
however `x` ended. -/
@[inline]
def inScope {α : Type} (scope : Scope) (x : Exec α) : Exec α := fun m =>
  let former := m.scope
  match x { m with scope := scope } with
  | .ok a m' => .ok a { m' with scope := former }
  | .error e m' => .error e { m' with scope := former }

/-- Runs `x` as one more active call, however it ends. -/
@[inline]
def asCall {α : Type} (x : Exec α) : Exec α := fun m =>
  match x { m with callDepth := m.callDepth + 1 } with
  | .ok a m' => .ok a { m' with callDepth := m'.callDepth - 1 }
  | .error e m' => .error e { m' with callDepth := m'.callDepth - 1 }

/-- The value that the body of a function yields: that of a `return`, or `nil` at its end. -/
@[inline]
def catchReturn (x : Exec Unit) : Exec Value := fun m =>
  match x m with
  | .ok _ m' => .ok .nil m'
  | .error (.returning v) m' => .ok v m'
  | .error e m' => .error e m'

/-- Runs `x` on a stack of its own; the outcome is that of `x`. -/
def onOwnStack {α : Type} (x : Exec α) : Exec α := fun m =>
  (Task.spawn (fun _ => x m) .dedicated).get

@[simp]
theorem onOwnStack_eq {α : Type} (x : Exec α) : onOwnStack x = x := rfl

/-- So many nested calls share one stack. -/
def callsPerStack : Nat :=
  2048

/-- Runs `x`; the first of every `callsPerStack` nested calls gets a stack of its own, so that the
limit on calls is reached before any stack is full. -/
@[inline]
def withStackFor {α : Type} (callDepth : Nat) (x : Exec α) : Exec α :=
  if callDepth % callsPerStack = callsPerStack - 1 then onOwnStack x else x

@[simp]
theorem withStackFor_eq {α : Type} (callDepth : Nat) (x : Exec α) :
    withStackFor callDepth x = x := by
  simp [withStackFor]

end Exec

end LoxWalk
