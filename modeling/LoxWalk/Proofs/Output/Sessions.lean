import LoxWalk.Proofs.Output.Limits
import LoxWalk.Proofs.Splitting.Units

/-!
# A session with a limit on its output

A unit runs in a session, once with an output channel that takes everything and once with one that
takes `room` more bytes and nothing beyond (`Session.withRoom`).  If all that the unit writes fits,
both sessions are the same afterwards but for the room that is left.  If not, the second session has
written as much of it as fits, has reported that its channel is full, and otherwise is where the
first one was when it printed the line that did not fit.
-/

namespace LoxWalk

open Exec

/-! ## Engines -/

namespace Engine

/-- The engine with so much room in its output channel, or with no limit. -/
def withRoom (room : Option Nat) (e : Engine) : Engine :=
  { e with machine.output.room := room }

/-- The engine with another store, and a channel that is full. -/
def stopped (store : Store) (written : ByteArray) (e : Engine) : Engine :=
  { e with
    machine.store := store
    machine.output := ⟨written, some 0⟩ }

theorem noteAll_withRoom (e : Engine) (room : Option Nat) (bound : List BoundReference) :
    (e.withRoom room).noteAll bound = (e.noteAll bound).withRoom room := by
  have hroom (e : Engine) :
      e.withRoom room = e.withMachine { e.machine with output.room := room } := rfl
  rw [hroom, hroom, noteAll_withMachine, machine_noteAll]

/-- A limit on the room is a limit on all that the channel takes. -/
theorem withRoom_some (e : Engine) (room : Nat) :
    e.withRoom (some room) =
      { e with machine := e.machine.limited (e.machine.output.written.size + room) } := by
  rw [withRoom, Machine.limited, Nat.add_sub_cancel_left]

variable {e : Engine} {fuel : Nat} {unit : List Stmt}

/-- Where only the machines in the end are different, so are the accounts. -/
theorem executed_of_onMachine {m : Machine} {f : Machine → Machine}
    (h : executeAll e.setting fuel unit m =
      onMachine f (executeAll e.setting fuel unit e.machine)) :
    ({ e with machine := m } : Engine).executed fuel unit =
      { e.executed fuel unit with
        engine := e.ended (f ((executeAll e.setting fuel unit).after e.machine)) } := by
  cases hr : executeAll e.setting fuel unit e.machine with
  | ok _ m' =>
    rw [hr] at h
    rw [executed_of_ok hr, executed_of_ok (e := { e with machine := m }) h, after_of_ok hr]
    rfl
  | error i m' =>
    rw [hr] at h
    rw [executed_of_error hr, executed_of_error (e := { e with machine := m }) h,
      after_of_error hr]
    rfl

/-- What a limit makes of the execution of a unit. -/
theorem executed_withRoom (he : e.machine.output.room = none) (fuel : Nat) (unit : List Stmt)
    (room : Nat) :
    let written := e.machine.output.written
    let free := e.executed fuel unit
    ∃ w, free.engine.machine.output = ⟨written ++ w, none⟩ ∧
      (w.size ≤ room → (e.withRoom (some room)).executed fuel unit =
        { free with engine := free.engine.withRoom (some (room - w.size)) }) ∧
      (room < w.size → ∃ v m,
        Moment.Overflows e.setting ⟨fuel, .executeAll unit, e.machine⟩ (written.size + room)
          (written ++ w) v m ∧
        (e.withRoom (some room)).executed fuel unit =
          ⟨.runtimeError, free.engine.stopped m.store (written ++ w.extract 0 room),
            [.channelFull]⟩) := by
  intro written free
  have hlimited : Limited e.setting ⟨fuel, .executeAll unit, e.machine⟩ (written.size + room)
      (executeAll e.setting fuel unit) e.machine :=
    Limited.carried e.setting ⟨fuel, .executeAll unit, e.machine⟩ _ he
  have hfree : free.engine = e.ended ((executeAll e.setting fuel unit).after e.machine) :=
    e.engine_executed fuel unit
  obtain ⟨w, hw⟩ := hlimited.writes
  have hsize : ((executeAll e.setting fuel unit).after e.machine).output.written.size =
      written.size + w.size := by rw [hw, ByteArray.size_append]
  refine ⟨w, ?_, fun hle => ?_, fun hlt => ?_⟩
  · rw [hfree]
    exact hw
  · have hleft : written.size + room -
        ((executeAll e.setting fuel unit).after e.machine).output.written.size =
          room - w.size := by omega
    rw [withRoom_some, executed_of_onMachine (hlimited.same (by omega)), hfree, Machine.limited,
      hleft]
    rfl
  · obtain ⟨m', hm', houtput, v, m, hoverflows, hstore⟩ :=
      hlimited.stops (Nat.le_add_right _ _) (by omega)
    have hcut := extract_append_of_size_le (b := w) (Nat.le_add_right written.size room)
    rw [Nat.add_sub_cancel_left] at hcut
    rw [hw] at hoverflows houtput
    refine ⟨v, m, hoverflows, ?_⟩
    rw [withRoom_some, executed_of_error (e := { e with machine := _ }) hm', hfree, ← hstore, ← hcut,
      stopped, ← houtput]
    rfl

end Engine

/-! ## Sessions -/

namespace Session

/-- The session with so much room in its output channel, or with no limit. -/
def withRoom (room : Option Nat) (s : Session) : Session :=
  { s with engine := s.engine.withRoom room }

theorem withRoom_reportAll (s : Session) (ds : List Diagnostic) (room : Option Nat) :
    (s.reportAll ds).withRoom room = (s.withRoom room).reportAll ds :=
  (List.foldl_hom (withRoom room) fun _ _ => rfl).symm

/-- The unit `print nil;`. -/
def printNil : List Stmt :=
  [.print (.literal .nil)]

theorem readsAs_printNil : Source.ReadsAs 0 "print nil;" printNil :=
  ⟨by decide +kernel, by cbv, by decide⟩

end Session

end LoxWalk
