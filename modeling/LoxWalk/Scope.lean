/-!
# Scopes

The variables of a running program live in frames.  A scope is a frame together with the scope that
encloses it, down to a root scope: which frame encloses which never changes, so a scope is a value,
and only the contents of its frames change (see `Store`).  Two scopes that end in the same frames
share whatever is bound there.
-/

namespace LoxWalk

/-- The place of a frame in the store. -/
structure FrameId where
  index : Nat
deriving DecidableEq

/-- A frame and everything that encloses it. -/
inductive Scope where
  | root (frame : FrameId)
  | inside (frame : FrameId) (outer : Scope)
deriving DecidableEq

namespace Scope

/-- The innermost frame. -/
def frame : Scope → FrameId
  | root f => f
  | inside f _ => f

/-- The scope around this one. -/
def outer? : Scope → Option Scope
  | root _ => none
  | inside _ outer => some outer

/-- The scope exactly `distance` steps out. -/
def ancestor? : Scope → Nat → Option Scope
  | scope, 0 => some scope
  | root _, _ + 1 => none
  | inside _ outer, distance + 1 => outer.ancestor? distance

/-- The frames from the innermost to the root. -/
def frames : Scope → List FrameId
  | root f => [f]
  | inside f outer => f :: outer.frames

/-- Going out step by step meets the frames in order. -/
theorem map_frame_ancestor? (scope : Scope) (distance : Nat) :
    (scope.ancestor? distance).map frame = scope.frames[distance]? := by
  induction scope generalizing distance with
  | root f => cases distance <;> simp [ancestor?, frames, frame]
  | inside f outer ih => cases distance <;> simp [ancestor?, frames, frame, ih]

end Scope

end LoxWalk
