import Std.Time.DateTime.Timestamp
import LoxWalk.CommandLine

/-!
# The program

The outermost layer: it reads files and the standard input, tells the time, and writes what the
library reports.  A sitting with `repl` runs line by line as the lines come in.
-/

namespace LoxWalk.Program

/-- More nested evaluations and rounds of a loop than a program gets to. -/
def fuel : Nat :=
  Nat.pow 2 62

/-- The time in seconds. -/
def now : IO Float := do
  let t ← Std.Time.Timestamp.now
  return Float.ofInt t.toMillisecondsSinceUnixEpoch.val / 1000

/-- What a file name leads to. -/
def readFile (name : String) : IO FileState := do
  try
    return .content (← IO.FS.readBinFile name)
  catch
    | .noFileOrDirectory .. => return .unopenable "No such file or directory (os error 2)"
    | .permissionDenied .. => return .unopenable "Permission denied (os error 13)"
    | .inappropriateType _ 21 _ => return .unreadable "Is a directory (os error 21)"
    | .inappropriateType .. => return .unopenable "Not a directory (os error 20)"
    | .invalidArgument _ _ "name too long" => return .unopenable "File name too long (os error 36)"
    | e => return .unreadable (toString e)

/-- Writes what a channel has taken since it had taken `start` bytes. -/
def emit (target : IO.FS.Stream) (c : Channel) (start : Nat) : IO Unit := do
  target.write (c.written.extract start c.written.size)
  target.flush

/-- The next line of the standard input with its end, behind the bytes `start`. -/
partial def readLine (input : IO.FS.Stream) (start : ByteArray) : IO ByteArray := do
  let next ← input.read 1
  let line := start ++ next
  if next.isEmpty || next.toList = [10] then return line else readLine input line

/-- Reports that a line is no text. -/
def unreadable : IO UInt32 := do
  (← IO.getStderr).putStr (CommandLine.failure "Failed to read from stdin" CommandLine.invalidText)
  return 1

/-- Runs lines as they come in. -/
partial def sitting (s : Session) : IO UInt32 := do
  let out ← IO.getStdout
  let err ← IO.getStderr
  out.putStr CommandLine.prompt
  out.flush
  let line ← readLine (← IO.getStdin) .empty
  match CommandLine.splitLines line.toList with
  | [] => return 0
  | bytes :: _ =>
    let s := { s with engine.host := Host.clockAt (← now) }
    match CommandLine.reply fuel s ⟨bytes.toArray⟩ with
    | .stop _ => return 0
    | .unreadable _ => unreadable
    | .next s₁ =>
      emit out s₁.engine.machine.output s.engine.machine.output.written.size
      emit err s₁.diagnostics s.diagnostics.written.size
      sitting s₁

/-- Writes a report. -/
def finish (r : Report) : IO UInt32 := do
  (← IO.getStdout).putStr r.out
  (← IO.getStderr).putStr r.err
  return UInt32.ofNat r.exitCode

/-- Does what an invocation asks for. -/
def perform (i : Invocation) : IO UInt32 := do
  let host := Host.clockAt (← now)
  match i.command.file? with
  | none =>
    if i.command = .repl then
      sitting (Session.new (Engine.new host i.maxCallDepth none) none)
    else
      finish (CommandLine.perform fuel host (fun _ => .unopenable "") .empty i)
  | some name =>
    let state ← readFile name
    finish (CommandLine.perform fuel host (fun _ => state) .empty i)

end LoxWalk.Program

/-- Runs the program on its arguments. -/
def main (args : List String) : IO UInt32 :=
  match LoxWalk.CommandLine.invocation? args with
  | some i => LoxWalk.Program.perform i
  | none => LoxWalk.Program.finish LoxWalk.CommandLine.usage
