import LoxWalk.Number
import LoxWalk.Token

/-!
# Listings of tokens

A token is listed on one line, either as its kind, its lexeme and the value of its literal, or as a
JSON object.
-/

namespace LoxWalk

namespace Text

/-- The digits of a byte in base sixteen, lower case, two of them. -/
def hexByte (n : Nat) : String :=
  String.ofList [Nat.digitChar (n / 16), Nat.digitChar (n % 16)]

/-- A character inside a JSON string: only the quote, the backslash and the control characters
below the blank are escaped. -/
def jsonChar (c : Char) : String :=
  if c = '"' then "\\\""
  else if c = '\\' then "\\\\"
  else if c = '\n' then "\\n"
  else if c = '\t' then "\\t"
  else if c = '\r' then "\\r"
  else if c = '\x08' then "\\b"
  else if c = '\x0c' then "\\f"
  else if c.toNat < 32 then "\\u00" ++ hexByte c.toNat
  else c.toString

/-- A JSON string. -/
def json (s : String) : String :=
  "\"" ++ String.join (s.toList.map jsonChar) ++ "\""

/-- A JSON object with one member, whose value is already JSON. -/
def jsonMember (name value : String) : String :=
  "\x7b" ++ json name ++ ":" ++ value ++ "\x7d"

end Text

namespace TokenKind

/-- The literal column of a listing. -/
def literal : TokenKind → String
  | string contents => contents
  | number value => Number.literal value
  | _ => "null"

/-- A kind as JSON: its name, or an object from its name to the value it carries. -/
def json (k : TokenKind) : String :=
  match k with
  | string contents => Text.jsonMember k.label (Text.json contents)
  | number value => Text.jsonMember k.label (Number.json value)
  | _ => Text.json k.label

end TokenKind

namespace Token

/-- The plain listing of a token. -/
def listing (t : Token) : String :=
  t.kind.label ++ " " ++ t.lexeme ++ " " ++ t.kind.literal

/-- The listing of a token as a JSON object. -/
def jsonListing (t : Token) : String :=
  "\x7b\"token_type\":" ++ t.kind.json ++ ",\"lexeme\":" ++ Text.json t.lexeme
    ++ ",\"line\":" ++ Nat.repr t.line ++ "\x7d"

end Token

end LoxWalk
