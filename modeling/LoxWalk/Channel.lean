/-!
# Channels

A channel takes text and keeps its bytes.  A channel may have room for a limited number of bytes
only: a text that does not fit is taken as far as it does, and refused; an empty text always fits.
-/

namespace LoxWalk

/-- The bytes that a channel has taken, and how many more it can take if there is a limit. -/
structure Channel where
  written : ByteArray
  room : Option Nat

namespace Channel

/-- A channel that has taken nothing yet. -/
def new (limit : Option Nat) : Channel :=
  ⟨.empty, limit⟩

/-- Writes a text, and tells whether all of it was taken. -/
def write (c : Channel) (text : String) : Bool × Channel :=
  let bytes := text.toUTF8
  match c.room with
  | none => (true, { c with written := c.written ++ bytes })
  | some room =>
    if bytes.size ≤ room then
      (true, ⟨c.written ++ bytes, some (room - bytes.size)⟩)
    else
      (false, ⟨c.written ++ bytes.extract 0 room, some 0⟩)

/-- Writes a text and a newline. -/
def writeLine (c : Channel) (text : String) : Bool × Channel :=
  c.write (text ++ "\n")

end Channel

/-! ## Text that was cut -/

/-- The longest text at the front of some bytes, tried with up to `cut` bytes less; a replacement
character stands for the bytes that are left. -/
def Text.ofBytes (bytes : ByteArray) (cut : Nat) : String :=
  go cut bytes.size ""
where
  /-- Tries the first `size` bytes, with `tail` behind them. -/
  go : Nat → Nat → String → String
    | 0, size, tail => (String.fromUTF8? (bytes.extract 0 size)).getD "" ++ tail
    | cut + 1, size, tail =>
      match String.fromUTF8? (bytes.extract 0 size) with
      | some text => text ++ tail
      | none => go cut (size - 1) "\uFFFD"

/-- What a channel has taken since it had taken `start` bytes; a character that was cut is replaced
as a whole. -/
def Channel.textSince (c : Channel) (start : Nat) : String :=
  Text.ofBytes (c.written.extract start c.written.size) 3

end LoxWalk
