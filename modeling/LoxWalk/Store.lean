import LoxWalk.Value

/-!
# The store

All that can change while a program runs: the frames in which variables live, and the records in
which the fields of instances live.  Frames and records are only ever added, and a place in the
store, once given out, stays what it was.

Variables are reached in two ways.  By name, a look-up goes outwards from a scope to the nearest
frame that has the name; by distance, it goes to one frame and no further.
-/

namespace LoxWalk

/-- The frames, the records, and the next identity for a function or a class. -/
structure Store where
  frames : Array Bindings
  records : Array Bindings
  nextObject : Nat

namespace Store

/-- A store with nothing in it. -/
def empty : Store :=
  ⟨#[], #[], 0⟩

/-! ## Adding -/

/-- An identity that no other object has. -/
def freshObject (s : Store) : ObjectId :=
  ⟨s.nextObject⟩

/-- Marks the identity `freshObject` as used. -/
def useObject (s : Store) : Store :=
  { s with nextObject := s.nextObject + 1 }

/-- The place of the next frame. -/
def freshFrame (s : Store) : FrameId :=
  ⟨s.frames.size⟩

/-- Adds a frame. -/
def addFrame (s : Store) (bindings : Bindings) : Store :=
  { s with frames := s.frames.push bindings }

/-- The place of the next record. -/
def freshRecord (s : Store) : RecordId :=
  ⟨s.records.size⟩

/-- Adds a record without fields. -/
def addRecord (s : Store) : Store :=
  { s with records := s.records.push .empty }

/-! ## One frame and one record -/

/-- What is bound in a frame. -/
def frame (s : Store) (f : FrameId) : Bindings :=
  s.frames[f.index]?.getD .empty

/-- Binds a name in the innermost frame of a scope. -/
def define (s : Store) (scope : Scope) (name : String) (v : Value) : Store :=
  { s with frames := s.frames.modify scope.frame.index (·.insert name v) }

/-- What the innermost frame of a scope binds to a name. -/
def getLocal? (s : Store) (scope : Scope) (name : String) : Option Value :=
  (s.frame scope.frame).get? name

/-- Whether the innermost frame of a scope binds a name. -/
def declares (s : Store) (scope : Scope) (name : String) : Bool :=
  (s.frame scope.frame).contains name

/-- A field of an instance. -/
def field? (s : Store) (r : RecordId) (name : String) : Option Value :=
  (s.records[r.index]?.getD .empty).get? name

/-- Gives a field of an instance a value. -/
def setField (s : Store) (r : RecordId) (name : String) (v : Value) : Store :=
  { s with records := s.records.modify r.index (·.insert name v) }

/-! ## Variables by name -/

/-- The nearest scope, from `scope` outwards, that binds a name. -/
def owner? (s : Store) (scope : Scope) (name : String) : Option Scope :=
  if s.declares scope name then
    some scope
  else
    match scope with
    | .root _ => none
    | .inside _ outer => s.owner? outer name
termination_by structural scope

/-- What a name means in a scope. -/
def get? (s : Store) (scope : Scope) (name : String) : Option Value :=
  (s.owner? scope name).bind (s.getLocal? · name)

/-- Gives the variable that a name means in a scope a new value, if there is one. -/
def assign? (s : Store) (scope : Scope) (name : String) (v : Value) : Option Store :=
  (s.owner? scope name).map (s.define · name v)

/-! ## Variables by distance -/

/-- What the scope exactly `distance` steps out binds to a name. -/
def getAt? (s : Store) (scope : Scope) (distance : Nat) (name : String) : Option Value :=
  (scope.ancestor? distance).bind (s.getLocal? · name)

/-- The scope exactly `distance` steps out, if it binds a name. -/
def ownerAt? (s : Store) (scope : Scope) (distance : Nat) (name : String) : Option Scope :=
  (scope.ancestor? distance).filter (s.declares · name)

/-- Gives a variable exactly `distance` steps out a new value, if it is there. -/
def assignAt? (s : Store) (scope : Scope) (distance : Nat) (name : String) (v : Value) :
    Option Store :=
  (s.ownerAt? scope distance name).map (s.define · name v)

/-! ## What a definition changes -/

theorem getElem?_frames_define (s : Store) (scope : Scope) (name : String) (v : Value) (i : Nat) :
    (s.define scope name v).frames[i]? =
      if scope.frame.index = i then s.frames[i]?.map (·.insert name v) else s.frames[i]? := by
  simp only [define, Array.getElem?_modify]

/-- A definition changes one name in one frame. -/
theorem getLocal?_define (s : Store) (scope other : Scope) (name x : String) (v : Value)
    (h : scope.frame.index < s.frames.size) :
    (s.define scope name v).getLocal? other x =
      if scope.frame = other.frame ∧ name = x then some v else s.getLocal? other x := by
  unfold getLocal? frame
  rw [getElem?_frames_define]
  by_cases hf : scope.frame = other.frame
  · rw [← hf]
    simp only [Array.getElem?_eq_getElem h, if_true, Option.map_some, Option.getD_some, true_and,
      NameMap.get?_insert]
  · have : scope.frame.index ≠ other.frame.index := fun he =>
      hf (by cases hs : scope.frame; cases ho : other.frame; simp_all)
    simp [hf, this]

end Store

end LoxWalk
