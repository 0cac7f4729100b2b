import Pagewright.Settings

/-!
# Settings as JSON

A page carries its settings as compact JSON. Quotes, backslashes and control characters are
escaped, everything else stands as it is.
-/

namespace Pagewright

namespace Json

/-- A control character by its code, as four hexadecimal digits. -/
def codeEscape (c : Char) : Text :=
  let n := c.toNat
  "\\u00" ++ [Nat.digitChar (n / 16), Nat.digitChar (n % 16)]

/-- How a character stands inside a string. -/
def escaped (c : Char) : Text :=
  if c = '"' then "\\\""
  else if c = '\\' then "\\\\"
  else if c = '\n' then "\\n"
  else if c = '\r' then "\\r"
  else if c = '\t' then "\\t"
  else if c = '\x08' then "\\b"
  else if c = '\x0c' then "\\f"
  else if c.toNat < 0x20 then codeEscape c
  else [c]

/-- A string between its quotes. -/
def quoted (s : Text) : Text :=
  '"' :: s.flatMap escaped ++ "\""

/-- A whole number in decimal. -/
def ofInt (i : Int) : Text :=
  (if i < 0 then '-' :: Nat.toDigits 10 i.natAbs else Nat.toDigits 10 i.natAbs)

end Json

mutual

/-- The JSON text of a value. -/
def Value.json : Value → Text
  | .null => "null"
  | .bool true => "true"
  | .bool false => "false"
  | .int i => Json.ofInt i
  | .float x => x.text
  | .text s => Json.quoted s
  | .list items => "[" ++ jsonItems items ++ "]"
  | .record fields => "\x7b" ++ jsonFields fields ++ "\x7d"

/-- The items of a list, divided by commas. -/
def jsonItems : List Value → Text
  | [] => []
  | [value] => value.json
  | value :: next :: rest => value.json ++ "," ++ jsonItems (next :: rest)

/-- The fields of a record, divided by commas. -/
def jsonFields : List (Text × Value) → Text
  | [] => []
  | [(name, value)] => Json.quoted name ++ ":" ++ value.json
  | (name, value) :: next :: rest =>
    Json.quoted name ++ ":" ++ value.json ++ "," ++ jsonFields (next :: rest)

end

/-- The JSON text of the settings. -/
def Settings.json (settings : Settings) : Text :=
  Value.json (.record settings)

end Pagewright
