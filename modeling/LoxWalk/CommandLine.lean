import LoxWalk.Session
import LoxWalk.Text.Visible
import LoxWalk.Token.Listing
import LoxWalk.Tree.Prefix

/-!
# The command line

Five commands.  `tokenize`, `parse`, `evaluate` and `run` work on a file: they list its tokens,
print the expression in it in prefix form, evaluate that expression, and run the file as a program.
`repl` runs the standard input line by line in one session.

`CommandLine.respond` is the whole program as a function from the arguments, the files and the
standard input to what is written and the exit code.
-/

namespace LoxWalk

/-- What is written to the two outputs, and the exit code. -/
structure Report where
  out : String
  err : String
  exitCode : Nat
deriving DecidableEq

/-- What a file name leads to. -/
inductive FileState where
  | unopenable (reason : String)
  | unreadable (reason : String)
  | content (bytes : ByteArray)

/-- What is to be done. -/
inductive Command where
  | tokenize (file : Option String) (json : Bool)
  | parse (file : Option String)
  | evaluate (file : Option String)
  | run (file : Option String)
  | repl
deriving DecidableEq

/-- The file that a command works on, if it names one. -/
def Command.file? : Command → Option String
  | tokenize file _ => file
  | parse file => file
  | evaluate file => file
  | run file => file
  | repl => none

/-- A command with the limit on nested calls. -/
structure Invocation where
  command : Command
  maxCallDepth : Nat
deriving DecidableEq

namespace CommandLine

/-! ## Arguments -/

/-- An argument by its kind; a name is that of a command or of a file. -/
inductive Argument where
  | log
  | json
  | maxCallDepth (n : Nat)
  | name (s : String)
deriving DecidableEq

/-- The limit on nested calls, if that is what an argument gives. -/
def Argument.maxCallDepth? : Argument → Option Nat
  | maxCallDepth n => some n
  | _ => none

/-- The name, if an argument is one. -/
def Argument.name? : Argument → Option String
  | name s => some s
  | _ => none

/-- What stands in front of the value of the option for the limit on nested calls. -/
def depthOption : String :=
  "--max-call-depth"

/-- A limit on nested calls: decimal digits, perhaps behind a plus sign, that fit into sixty-four
bits. -/
def depth? (value : String) : Option Nat :=
  let digits := match value.toList with
    | '+' :: rest => rest
    | all => all
  let n := Number.digitsValue digits
  if !digits.isEmpty && digits.all Char.isDigit && n < Nat.pow 2 64 then some n else none

/-- Whether an argument that is no known option looks like one. -/
def looksLikeOption (arg : String) : Bool :=
  arg.startsWith "-" && arg != "-"

/-- The kinds of the arguments, if all of them have one.  Behind `--` there are names only, and
there is no such mark in front of the command. -/
def classify? (behindCommand : Bool) : List String → Option (List Argument)
  | [] => some []
  | "--log" :: rest => (classify? behindCommand rest).map (.log :: ·)
  | "--json" :: rest => (classify? behindCommand rest).map (.json :: ·)
  | "--" :: rest => if behindCommand then some (rest.map .name) else none
  | arg :: rest =>
    if arg = depthOption then
      match rest with
      | [] => none
      | value :: rest => do
        return .maxCallDepth (← depth? value) :: (← classify? behindCommand rest)
    else
      match arg.dropPrefix? (depthOption ++ "=") with
      | some value => do
        return .maxCallDepth (← depth? value.toString) :: (← classify? behindCommand rest)
      | none =>
        if looksLikeOption arg then none else (classify? true rest).map (.name arg :: ·)

/-- The options that are given in one place, in front of the command or behind it. -/
structure Options where
  json : Bool
  maxCallDepth : Option Nat

/-- The options among some arguments, if none of them is given twice. -/
def options? (args : List Argument) : Option Options :=
  let depths := args.filterMap Argument.maxCallDepth?
  if args.count .log ≤ 1 ∧ args.count .json ≤ 1 ∧ depths.length ≤ 1 then
    some ⟨args.contains .json, depths.head?⟩
  else
    none

/-- The file among some names: there is at most one, and it is not empty. -/
def file? : List String → Option (Option String)
  | [] => some none
  | [""] => none
  | [file] => some (some file)
  | _ => none

/-- The command with a name, with the names behind it. -/
def command? (name : String) (json : Bool) (names : List String) : Option Command :=
  match name, json, names with
  | "tokenize", json, names => (file? names).map (.tokenize · json)
  | "parse", false, names => (file? names).map .parse
  | "evaluate", false, names => (file? names).map .evaluate
  | "run", false, names => (file? names).map .run
  | "repl", false, [] => some .repl
  | _, _, _ => none

/-- What the arguments ask for, if they ask for anything.  The limit on nested calls may be given
in front of the command and behind it; then the one behind it counts. -/
def invocation? (args : List String) : Option Invocation := do
  let all ← classify? false args
  let front ← options? (all.takeWhile (·.name?.isNone))
  match all.dropWhile (·.name?.isNone) with
  | .name command :: rest =>
    let back ← options? rest
    guard (!front.json)
    let command ← command? command back.json (rest.filterMap Argument.name?)
    return ⟨command, (back.maxCallDepth <|> front.maxCallDepth).getD defaultMaxCallDepth⟩
  | _ => none

/-! ## Reports -/

/-- Lines, each with a newline behind it. -/
def lines (ls : List String) : String :=
  String.join (ls.map (· ++ "\n"))

/-- A character inside a quoted file name; one that is not visible is written by its number. -/
def quotedChar (c : Char) : String :=
  if c = '"' then "\\\""
  else if c = '\\' then "\\\\"
  else if c = '\n' then "\\n"
  else if c = '\t' then "\\t"
  else if c = '\r' then "\\r"
  else if c.toNat = 0 then "\\0"
  else if Text.isVisible c then c.toString
  else "\\u\x7b" ++ String.ofList (Nat.toDigits 16 c.toNat) ++ "\x7d"

/-- A file name in quotes. -/
def quoted (file : String) : String :=
  "\"" ++ String.join (file.toList.map quotedChar) ++ "\""

/-- The report of a failure outside the program that is run. -/
def failure (what reason : String) : String :=
  "Error: " ++ what ++ "\n\nCaused by:\n    " ++ reason ++ "\n"

/-- The reason why bytes are no text. -/
def invalidText : String :=
  "stream did not contain valid UTF-8"

/-- The report when no file is named. -/
def noInput : Report :=
  ⟨"No input filepath was provided. Exiting...\n", "", 0⟩

/-- The report when the arguments ask for nothing that can be done. -/
def usage : Report :=
  ⟨"", "usage: (tokenize [--json] | parse | evaluate | run) [FILE] | repl\n", 2⟩

/-- Reports on the text of a file, if it can be read. -/
def withFile (files : String → FileState) (file : Option String) (report : String → Report) :
    Report :=
  match file with
  | none => noInput
  | some name =>
    match files name with
    | .unopenable reason => ⟨"", failure ("Failed to open file " ++ quoted name) reason, 1⟩
    | .unreadable reason => ⟨"", failure ("Failed to read file " ++ quoted name) reason, 1⟩
    | .content bytes =>
      match String.fromUTF8? bytes with
      | some text => report text
      | none => ⟨"", failure ("Failed to read file " ++ quoted name) invalidText, 1⟩

/-! ## Commands on a file -/

/-- The tokens of a text, one on each line, and its faults. -/
def tokenize (json : Bool) (source : String) : Report :=
  let listing (t : Token) : String := if json then t.jsonListing else t.listing
  let faults := Source.errors source
  { out := lines ((Source.tokens source).map listing)
    err := lines (faults.map fun e => (Diagnostic.scan e).text)
    exitCode := if faults.isEmpty then 0 else RunStatus.staticError.exitCode }

/-- Reports on the expression at the start of a text, if the text is free of faults. -/
def withExpression (source : String) (report : Expr → Report) : Report :=
  let faults := (Source.errors source).map .scan
  match (Grammar.expression 0 (Source.tokens source)).result, faults with
  | .ok e, [] => report e
  | .ok _, _ => refused faults
  | .error errors, _ => refused (faults ++ errors.map .parse)
where
  /-- The report on static errors. -/
  refused (ds : List Diagnostic) : Report :=
    ⟨"", lines (ds.map Diagnostic.text), RunStatus.staticError.exitCode⟩

/-- An expression in prefix form. -/
def parse (source : String) : Report :=
  withExpression source fun e => ⟨lines [e.prefixForm], "", 0⟩

/-- What ends an evaluation early, as it is reported. -/
def interruption : Interrupt → String
  | .returning v => "Return signal with value: " ++ v.text
  | .fault e => (Diagnostic.runtime e).text
  | .channelFull => Diagnostic.channelFull.text
  | .outOfFuel => "out of fuel"

/-- The value of an expression. -/
def evaluate (fuel : Nat) (engine : Engine) (source : String) : Report :=
  withExpression source fun e =>
    match engine.exec (LoxWalk.evaluate · fuel e) with
    | (.ok v, engine) => ⟨engine.machine.output.textSince 0 ++ lines [v.text], "", 0⟩
    | (.error i, engine) =>
      ⟨engine.machine.output.textSince 0, lines [interruption i],
        RunStatus.runtimeError.exitCode⟩

/-- What a session has written, with an exit code. -/
def sessionReport (s : Session) (exitCode : Nat) : Report :=
  ⟨s.engine.machine.output.textSince 0, s.diagnostics.textSince 0, exitCode⟩

/-- A text as a program. -/
def run (fuel : Nat) (engine : Engine) (source : String) : Report :=
  match (Session.new engine none).run fuel source with
  | (status, s) => sessionReport s status.exitCode

/-! ## Line by line -/

/-- The characters that may stand around the word that ends a sitting: those that Unicode calls
white space. -/
def isWhiteSpace (c : Char) : Bool :=
  let n := c.toNat
  (0x09 ≤ n && n ≤ 0x0D) || n == 0x20 || n == 0x85 || n == 0xA0 || n == 0x1680
    || (0x2000 ≤ n && n ≤ 0x200A) || n == 0x2028 || n == 0x2029 || n == 0x202F || n == 0x205F
    || n == 0x3000

/-- A text without the white space at both ends. -/
def trim (s : String) : List Char :=
  ((s.toList.dropWhile isWhiteSpace).reverse.dropWhile isWhiteSpace).reverse

/-- What is shown before each line. -/
def prompt : String :=
  "> "

/-- The line that ends a sitting. -/
def exitLine : String :=
  "exit"

/-- What comes of one line. -/
inductive Reply where
  | next (s : Session)
  | stop (s : Session)
  | unreadable (s : Session)

/-- Runs one line, given without its end. -/
def reply (fuel : Nat) (s : Session) (line : ByteArray) : Reply :=
  match String.fromUTF8? line with
  | none => .unreadable s
  | some text =>
    if trim text = exitLine.toList then .stop s else .next (s.run fuel text).2.resetErrors

/-- Shows the prompt on the output of the program. -/
def showPrompt (s : Session) : Session :=
  { s with
    engine.machine.output := (s.engine.machine.output.write prompt).2 }

/-- Cuts bytes into lines.  A line ends with a newline or a carriage return and a newline, which do
not belong to it; the last line may have no end. -/
def splitLines (bytes : List UInt8) : List (List UInt8) :=
  match _h : bytes.dropWhile (· != 10) with
  | [] => if bytes.isEmpty then [] else [bytes]
  | _ :: rest => chomp (bytes.takeWhile (· != 10)) :: splitLines rest
termination_by bytes.length
decreasing_by
  have := (List.dropWhile_suffix (l := bytes) (· != 10)).length_le
  rw [_h] at this
  simp only [List.length_cons] at this
  omega
where
  /-- A line without a carriage return at its end. -/
  chomp (line : List UInt8) : List UInt8 :=
    if line.getLast? = some 13 then line.dropLast else line

/-- Runs lines until they end or one of them ends the sitting. -/
def replLines (fuel : Nat) (s : Session) : List ByteArray → Report
  | [] => sessionReport (showPrompt s) 0
  | line :: rest =>
    match reply fuel (showPrompt s) line with
    | .next s => replLines fuel s rest
    | .stop s => sessionReport s 0
    | .unreadable s =>
      let r := sessionReport s 1
      { r with err := r.err ++ failure "Failed to read from stdin" invalidText }

/-- Runs the standard input line by line. -/
def repl (fuel : Nat) (engine : Engine) (input : ByteArray) : Report :=
  replLines fuel (Session.new engine none)
    ((splitLines input.toList).map fun line => ⟨line.toArray⟩)

/-! ## The program -/

/-- Does what an invocation asks for. -/
def perform (fuel : Nat) (host : Host) (files : String → FileState) (input : ByteArray)
    (i : Invocation) : Report :=
  let engine := Engine.new host i.maxCallDepth none
  match i.command with
  | .tokenize file json => withFile files file (tokenize json)
  | .parse file => withFile files file parse
  | .evaluate file => withFile files file (evaluate fuel engine)
  | .run file => withFile files file (run fuel engine)
  | .repl => repl fuel engine input

/-- The whole program. -/
def respond (fuel : Nat) (host : Host) (files : String → FileState) (input : ByteArray)
    (args : List String) : Report :=
  match invocation? args with
  | some i => perform fuel host files input i
  | none => usage

end CommandLine

end LoxWalk
