import Pagewright.Json.Reader
import Pagewright.Toml.Error

/-!
# Numbers

No setting is a number, but a list may hold some that nobody reads, so a number must be well formed
and within its range: a whole number fits in 64 bits with a sign, and a decimal is not rounded up to
infinity. `Toml.readNumber` gives the text behind a number.
-/

namespace Pagewright

namespace Toml

/-- Digits, where single underscores may stand between them, and the text behind them. -/
def readDigits? (isDigit : Char → Bool) : Text → Option (Text × Text)
  | c :: '_' :: rest =>
    if isDigit c then (readDigits? isDigit rest).map fun (digits, rest) => (c :: digits, rest)
    else none
  | c :: d :: rest =>
    if !isDigit c then none
    else if isDigit d then
      (readDigits? isDigit (d :: rest)).map fun (digits, rest) => (c :: digits, rest)
    else some ([c], d :: rest)
  | [c] => if isDigit c then some ([c], []) else none
  | [] => none

/-- The digits of a whole number without needless zeros. -/
def readWhole? (text : Text) : Option (Text × Text) :=
  match text with
  | '0' :: rest => some (['0'], rest)
  | _ => readDigits? Char.isDigit text

/-- The text behind a whole number in a base that two characters have chosen. -/
def readBase? (base : Nat) (text : Text) : Option Text := do
  let isDigit (c : Char) : Bool := (Json.hexDigit? c).any (· < base)
  let (digits, rest) ← readDigits? isDigit text
  let n := digits.foldl (fun n c => n * base + (Json.hexDigit? c).getD 0) 0
  if n < Nat.pow 2 63 then some rest else none

/-- The value of an exponent behind its mark. -/
def readPower? (text : Text) : Option (Int × Text) :=
  let value (sign : Int) (text : Text) : Option (Int × Text) :=
    (readDigits? Char.isDigit text).map fun (digits, rest) => (sign * Json.ofDigits digits, rest)
  match text with
  | '+' :: rest => value 1 rest
  | '-' :: rest => value (-1) rest
  | _ => value 1 text

/-- The text behind an exponent, where a number of these digits ends. Only above zero is what is too
large refused. -/
def readScale? (negative : Bool) (whole fraction text : Text) : Option Text := do
  let (exponent, rest) ←
    match text with
    | 'e' :: rest => readPower? rest
    | 'E' :: rest => readPower? rest
    | _ => some (0, text)
  let n := Json.ofDigits (whole ++ fraction)
  if negative || (Binary64.nearest? false n (exponent - fraction.length)).isSome then some rest
  else none

/-- Whether 64 bits with a sign hold a whole number. -/
def fits (negative : Bool) (digits : Text) : Bool :=
  let n := Json.ofDigits digits
  n < Nat.pow 2 63 || (negative && n = Nat.pow 2 63)

/-- The text behind a decimal number without its sign. -/
def readDecimal? (negative : Bool) (text : Text) : Option Text := do
  let (whole, rest) ← readWhole? text
  match rest with
  | '.' :: rest =>
    let (fraction, rest) ← readDigits? Char.isDigit rest
    readScale? negative whole fraction rest
  | c :: _ =>
    if c = 'e' || c = 'E' then readScale? negative whole [] rest
    else if fits negative whole then some rest
    else none
  | [] => if fits negative whole then some rest else none

/-- The text behind a number without its sign. -/
def readUnsigned? (negative : Bool) (text : Text) : Option Text :=
  (text.after? "inf") <|> (text.after? "nan") <|> readDecimal? negative text

/-- The text behind a number. -/
def readNumber (text : Text) : Except Error Text :=
  let rest :=
    match text with
    | '+' :: rest => readUnsigned? false rest
    | '-' :: rest => readUnsigned? true rest
    | '0' :: 'x' :: rest => readBase? 16 rest
    | '0' :: 'o' :: rest => readBase? 8 rest
    | '0' :: 'b' :: rest => readBase? 2 rest
    | _ => readUnsigned? false text
  rest.elim (.error .badNumber) .ok

end Toml

end Pagewright
