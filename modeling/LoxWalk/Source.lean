import LoxWalk.Diagnostic
import LoxWalk.Number

/-!
# From source text to tokens

A source text is cut into pieces: tokens, blanks and comments, characters that fit nowhere, and a
string that is never closed.  `Piece.next` cuts off the first piece of a text, always the longest
that a class of lexemes allows, and `Source.pieces` cuts up a whole text; nothing is lost
(`Source.flatten_pieces`).

`Source.scan` then drops what is skipped, gives every other piece the line on which it ends, and
puts the token that marks the end of the input after the last piece.
-/

namespace LoxWalk

/-- What a piece of a text is. -/
inductive PieceForm where
  | token (kind : TokenKind)
  | skipped
  | fault (fault : ScanFault)
deriving DecidableEq

/-- A piece of a text, never empty when it comes from `Piece.next`. -/
structure Piece where
  form : PieceForm
  text : List Char
deriving DecidableEq

/-! ## Classes of characters -/

/-- The symbols of one character that no other symbol begins with. -/
def Symbol.lone? : Char → Option Symbol
  | '(' => some .leftParen
  | ')' => some .rightParen
  | '\x7b' => some .leftBrace
  | '\x7d' => some .rightBrace
  | ',' => some .comma
  | '.' => some .dot
  | '-' => some .minus
  | '+' => some .plus
  | ';' => some .semicolon
  | '*' => some .star
  | _ => none

/-- The symbols of one character that an equals sign extends, with the symbol they become. -/
def Symbol.extensible? : Char → Option (Symbol × Symbol)
  | '!' => some (.bang, .bangEqual)
  | '=' => some (.equal, .equalEqual)
  | '<' => some (.less, .lessEqual)
  | '>' => some (.greater, .greaterEqual)
  | _ => none

namespace Source

/-- Characters that only separate tokens. -/
def isBlank (c : Char) : Bool :=
  c == ' ' || c == '\t' || c == '\r' || c == '\n'

/-- Names and reserved words begin with an ASCII letter or an underscore. -/
def isWordStart (c : Char) : Bool :=
  c.isAlpha || c == '_'

/-- The other characters of a word may be ASCII digits too. -/
def isWordPart (c : Char) : Bool :=
  c.isAlphanum || c == '_'

end Source

namespace Piece

open Source

/-! ## One piece -/

/-- A piece that is a symbol. -/
def symbol (s : Symbol) (text : List Char) : Piece :=
  ⟨.token (.symbol s), text⟩

/-- A comment, whose two slashes are gone already, lasts to the end of the line. -/
def comment (cs : List Char) : Piece × List Char :=
  (⟨.skipped, '/' :: '/' :: cs.takeWhile (· != '\n')⟩, cs.dropWhile (· != '\n'))

/-- A string, whose opening quote is gone already, lasts to the next quote. -/
def string (cs : List Char) : Piece × List Char :=
  let contents := cs.takeWhile (· != '"')
  match cs.dropWhile (· != '"') with
  | [] => (⟨.fault .unterminatedString, '"' :: contents⟩, [])
  | quote :: rest =>
    (⟨.token (.string (String.ofList contents)), '"' :: contents ++ [quote]⟩, rest)

/-- A number is a run of digits, and if a point and a digit follow, these and all further digits. -/
def number (cs : List Char) : Piece × List Char :=
  let whole := cs.takeWhile Char.isDigit
  match cs.dropWhile Char.isDigit with
  | '.' :: d :: rest =>
    if d.isDigit then
      let fraction := (d :: rest).takeWhile Char.isDigit
      (⟨.token (.number (Number.ofNumeral whole fraction)), whole ++ '.' :: fraction⟩,
        (d :: rest).dropWhile Char.isDigit)
    else
      (⟨.token (.number (Number.ofNumeral whole [])), whole⟩, '.' :: d :: rest)
  | rest => (⟨.token (.number (Number.ofNumeral whole [])), whole⟩, rest)

/-- The kind of a word: a reserved word or a name. -/
def wordKind (word : List Char) : TokenKind :=
  match Keyword.ofSpelling? (String.ofList word) with
  | some k => .keyword k
  | none => .identifier

/-- A word is a run of letters, digits and underscores. -/
def word (cs : List Char) : Piece × List Char :=
  let text := cs.takeWhile isWordPart
  (⟨.token (wordKind text), text⟩, cs.dropWhile isWordPart)

/-- Cuts off the first piece of the text that begins with `c`. -/
def next (c : Char) (cs : List Char) : Piece × List Char :=
  match Symbol.lone? c, Symbol.extensible? c with
  | some s, _ => (symbol s [c], cs)
  | none, some (plain, extended) =>
    match cs with
    | '=' :: rest => (symbol extended [c, '='], rest)
    | _ => (symbol plain [c], cs)
  | none, none =>
    if c = '/' then
      match cs with
      | '/' :: rest => comment rest
      | _ => (symbol .slash [c], cs)
    else if isBlank c then
      (⟨.skipped, [c]⟩, cs)
    else if c = '"' then
      string cs
    else if c.isDigit then
      number (c :: cs)
    else if isWordStart c then
      word (c :: cs)
    else
      (⟨.fault (.unexpectedCharacter c), [c]⟩, cs)

/-! ## No character is lost -/

theorem string_text (cs : List Char) : (string cs).1.text ++ (string cs).2 = '"' :: cs := by
  unfold string
  have h : cs.takeWhile (· != '"') ++ cs.dropWhile (· != '"') = cs :=
    List.takeWhile_append_dropWhile
  split <;> simp_all

theorem number_text (cs : List Char) : (number cs).1.text ++ (number cs).2 = cs := by
  have h := List.takeWhile_append_dropWhile (p := Char.isDigit) (l := cs)
  unfold number
  split
  · rename_i d rest heq
    rw [heq] at h
    split
    · have h' := List.takeWhile_append_dropWhile (p := Char.isDigit) (l := d :: rest)
      simp only [List.append_assoc, List.cons_append]
      rw [h', h]
    · exact h
  · exact h

theorem word_text (cs : List Char) : (word cs).1.text ++ (word cs).2 = cs :=
  List.takeWhile_append_dropWhile

/-- A piece and what follows it are the text they were cut from. -/
theorem next_text (c : Char) (cs : List Char) : (next c cs).1.text ++ (next c cs).2 = c :: cs := by
  unfold next
  split
  · rfl
  · split <;> rfl
  · split
    · split
      · simp_all [comment, List.takeWhile_append_dropWhile]
      · simp_all [symbol]
    · split
      · rfl
      · split
        · simp_all [string_text]
        · split
          · exact number_text _
          · split
            · exact word_text _
            · rfl

/-- What follows a piece is shorter than the text it was cut from. -/
theorem length_next_lt (c : Char) (cs : List Char) :
    (next c cs).2.length < (c :: cs).length := by
  suffices h : 0 < (next c cs).1.text.length by
    have := congrArg List.length (next_text c cs)
    simp only [List.length_append] at this
    omega
  unfold next
  split
  · simp [symbol]
  · split <;> simp [symbol]
  · split
    · split <;> simp [comment, symbol]
    · split
      · simp
      · split
        · unfold string; split <;> simp
        · split
          · rename_i hd
            unfold number; split
            · split <;> simp [List.takeWhile_cons, hd]
            · simp [hd]
          · split
            · rename_i hw
              have : isWordPart c = true := by
                simp only [isWordStart, Bool.or_eq_true] at hw
                simp only [isWordPart, Char.isAlphanum, Bool.or_eq_true]
                rcases hw with h | h <;> simp [h]
              simp [word, this]
            · simp

end Piece

/-! ## The whole text -/

/-- One result of scanning: a token, or a fault that stands in the place of one. -/
inductive ScanItem where
  | token (t : Token)
  | error (e : ScanError)
deriving DecidableEq

namespace Source

/-- All pieces of a text, in order. -/
def pieces : List Char → List Piece
  | [] => []
  | c :: cs => (Piece.next c cs).1 :: pieces (Piece.next c cs).2
termination_by cs => cs.length
decreasing_by exact Piece.length_next_lt c cs

/-- The pieces of a text put together are the text. -/
theorem flatten_pieces (cs : List Char) : ((pieces cs).map Piece.text).flatten = cs := by
  fun_induction pieces cs with
  | case1 => rfl
  | case2 c cs ih =>
    simp only [List.map_cons, List.flatten_cons, ih]
    exact Piece.next_text c cs

/-- Drops what is skipped, and gives the rest the lines on which it ends; `line` is the line on
which the first piece starts. -/
def locate (line : Nat) : List Piece → List ScanItem
  | [] => [.token ⟨.eof, "", line⟩]
  | p :: ps =>
    let ends := line + p.text.count '\n'
    match p.form with
    | .token kind => .token ⟨kind, String.ofList p.text, ends⟩ :: locate ends ps
    | .skipped => locate ends ps
    | .fault fault => .error ⟨ends, fault⟩ :: locate ends ps

/-- The tokens and the faults of a source text in order; the last of them is the token that marks
the end. -/
def scan (source : String) : List ScanItem :=
  locate 1 (pieces source.toList)

/-- The token of an item, if it is one. -/
def token? : ScanItem → Option Token
  | .token t => some t
  | .error _ => none

/-- The fault of an item, if it is one. -/
def error? : ScanItem → Option ScanError
  | .token _ => none
  | .error e => some e

/-- The tokens of a source text without its faults. -/
def tokens (source : String) : List Token :=
  (scan source).filterMap token?

/-- The faults of a source text. -/
def errors (source : String) : List ScanError :=
  (scan source).filterMap error?

end Source

end LoxWalk
