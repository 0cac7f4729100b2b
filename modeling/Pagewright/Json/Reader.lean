import Pagewright.Settings

/-!
# Reading JSON

The reader takes every JSON text. A whole number that 64 bits can hold, signed or not, is kept
exactly, and every other number is a double, computed from the digits that 64 bits can hold
(`Json.number?`); one beyond the largest double is refused, and so are a half of a surrogate pair
and values nested deeper than `Json.maxDepth`. A field that is given twice keeps its last value.
-/

namespace Pagewright

namespace Json

/-- How deep lists and records may be nested. -/
def maxDepth : Nat := 127

/-- Blanks between the parts of a value. -/
def isSpace (c : Char) : Bool :=
  c = ' ' || c = '\t' || c = '\n' || c = '\r'

/-- The text behind its leading blanks. -/
def skip (text : Text) : Text :=
  text.dropWhile isSpace

/-! ## Strings -/

/-- The number that a hexadecimal digit stands for. -/
def hexDigit? (c : Char) : Option Nat :=
  if '0' ≤ c ∧ c ≤ '9' then some (c.toNat - '0'.toNat)
  else if 'a' ≤ c ∧ c ≤ 'f' then some (c.toNat - 'a'.toNat + 10)
  else if 'A' ≤ c ∧ c ≤ 'F' then some (c.toNat - 'A'.toNat + 10)
  else none

/-- The code unit that four hexadecimal digits stand for. -/
def unit? (a b c d : Char) : Option Nat := do
  let a ← hexDigit? a
  let b ← hexDigit? b
  let c ← hexDigit? c
  let d ← hexDigit? d
  return ((a * 16 + b) * 16 + c) * 16 + d

/-- Whether a code unit is the first half of a pair. -/
def isHigh (n : Nat) : Bool :=
  0xD800 ≤ n && n ≤ 0xDBFF

/-- Whether a code unit is the second half of a pair. -/
def isLow (n : Nat) : Bool :=
  0xDC00 ≤ n && n ≤ 0xDFFF

/-- The character behind a backslash, for the escapes of one letter. -/
def escape? (c : Char) : Option Char :=
  match c with
  | '"' => some '"'
  | '\\' => some '\\'
  | '/' => some '/'
  | 'b' => some '\x08'
  | 'f' => some '\x0c'
  | 'n' => some '\n'
  | 'r' => some '\r'
  | 't' => some '\t'
  | _ => none

/-- A string behind its opening quote, and the text behind its closing one. -/
def readString : Text → Option (Text × Text)
  | [] => none
  | '"' :: rest => some ([], rest)
  | '\\' :: 'u' :: a :: b :: c :: d :: '\\' :: 'u' :: e :: f :: g :: h :: rest =>
    match unit? a b c d with
    | none => none
    | some n =>
      if isHigh n then
        match unit? e f g h with
        | some m =>
          if isLow m then
            (readString rest).map fun (s, rest) =>
              (Char.ofNat (0x10000 + (n - 0xD800) * 0x400 + (m - 0xDC00)) :: s, rest)
          else none
        | none => none
      else if isLow n then none
      else
        (readString ('\\' :: 'u' :: e :: f :: g :: h :: rest)).map fun (s, rest) =>
          (Char.ofNat n :: s, rest)
  | '\\' :: 'u' :: a :: b :: c :: d :: rest =>
    match unit? a b c d with
    | none => none
    | some n =>
      if isHigh n || isLow n then none
      else (readString rest).map fun (s, rest) => (Char.ofNat n :: s, rest)
  | '\\' :: c :: rest =>
    match escape? c with
    | none => none
    | some e => (readString rest).map fun (s, rest) => (e :: s, rest)
  | c :: rest =>
    if c.toNat < 0x20 || c = '\\' then none
    else (readString rest).map fun (s, rest) => (c :: s, rest)

/-! ## Numbers -/

/-- The number that decimal digits stand for. -/
def ofDigits (digits : Text) : Nat :=
  digits.foldl (fun n c => n * 10 + (c.toNat - '0'.toNat)) 0

/-- Digits at the head of a text, and the rest. -/
def digits (text : Text) : Text × Text :=
  text.span Char.isDigit

/-- The digits of a fraction, at least one behind the point. -/
def readFraction (text : Text) : Option (Text × Text) :=
  match text with
  | '.' :: rest =>
    let (ds, rest) := digits rest
    if ds = [] then none else some (ds, rest)
  | _ => some ([], text)

/-- The value of an exponent; zero where there is none. -/
def readExponent (text : Text) : Option (Option Int × Text) :=
  let value (sign : Int) (rest : Text) : Option (Option Int × Text) :=
    let (ds, rest) := digits rest
    if ds = [] then none else some (some (sign * ofDigits ds), rest)
  let behindMark (rest : Text) : Option (Option Int × Text) :=
    match rest with
    | '+' :: rest => value 1 rest
    | '-' :: rest => value (-1) rest
    | _ => value 1 rest
  match text with
  | 'e' :: rest => behindMark rest
  | 'E' :: rest => behindMark rest
  | _ => some (none, text)

/-- Digits behind a number as long as 64 bits hold it: the number with these digits, and how many
they are. -/
def held : (n : Nat) → Text → Nat × Nat
  | n, [] => (n, 0)
  | n, c :: rest =>
    let next := n * 10 + (c.toNat - '0'.toNat)
    if next < Nat.pow 2 64 then
      let (m, count) := held next rest
      (m, count + 1)
    else (n, 0)

/-- The number written with these digits. Whole numbers of 64 bits are exact; of any other number
the digits count that are held, and the rest only for its size. -/
def number? (negative : Bool) (whole fraction : Text) (exponent : Option Int) : Option Value :=
  let (n, count) := held 0 whole
  let dropped := whole.length - count
  let (m, places) := held n fraction
  let double :=
    (Binary64.computed? negative m (exponent.getD 0 + dropped - places)).map Value.float
  if fraction = [] ∧ exponent = none ∧ dropped = 0 then
    if negative then
      if n ≠ 0 ∧ n ≤ Nat.pow 2 63 then some (.int (-n)) else double
    else some (.int n)
  else double

/-- A number and the text behind it. A number does not start with a zero that means nothing. -/
def readNumber (text : Text) : Option (Value × Text) := do
  let (negative, text) :=
    match text with
    | '-' :: rest => (true, rest)
    | _ => (false, text)
  let (whole, rest) := digits text
  if whole = [] || (whole.length ≠ 1 && whole.head? = some '0') then none
  else
    let (fraction, rest) ← readFraction rest
    let (exponent, rest) ← readExponent rest
    let value ← number? negative whole fraction exponent
    return (value, rest)

/-! ## Values -/

/-- What is being read: a value, or the rest of a list or a record. -/
inductive Goal where
  | value
  | items (read : List Value)
  | fields (read : Settings)

/-- Reads a value, or goes on with a list or record of which a part has been read. The text stands
at the start of a value, item or field. -/
def readGoal : (fuel depth : Nat) → Goal → Text → Option (Value × Text)
  | 0, _, _, _ => none
  | fuel + 1, depth, .value, text =>
    match skip text with
    | '"' :: rest => (readString rest).map fun (s, rest) => (.text s, rest)
    | 'n' :: 'u' :: 'l' :: 'l' :: rest => some (.null, rest)
    | 't' :: 'r' :: 'u' :: 'e' :: rest => some (.bool true, rest)
    | 'f' :: 'a' :: 'l' :: 's' :: 'e' :: rest => some (.bool false, rest)
    | '[' :: rest =>
      match depth, skip rest with
      | 0, _ => none
      | _, ']' :: rest => some (.list [], rest)
      | depth + 1, rest => readGoal fuel depth (.items []) rest
    | '\x7b' :: rest =>
      match depth, skip rest with
      | 0, _ => none
      | _, '\x7d' :: rest => some (.record [], rest)
      | depth + 1, rest => readGoal fuel depth (.fields []) rest
    | text => readNumber text
  | fuel + 1, depth, .items read, text => do
    let (value, rest) ← readGoal fuel depth .value text
    let read := read ++ [value]
    match skip rest with
    | ',' :: rest => readGoal fuel depth (.items read) rest
    | ']' :: rest => some (.list read, rest)
    | _ => none
  | fuel + 1, depth, .fields read, text => do
    match skip text with
    | '"' :: rest =>
      let (name, rest) ← readString rest
      match skip rest with
      | ':' :: rest =>
        let (value, rest) ← readGoal fuel depth .value rest
        let read := read.set name value
        match skip rest with
        | ',' :: rest => readGoal fuel depth (.fields read) rest
        | '\x7d' :: rest => some (.record read, rest)
        | _ => none
      | _ => none
    | _ => none

/-- The value that a whole text spells. -/
def read? (text : Text) : Option Value := do
  let (value, rest) ← readGoal (2 * text.length + 2) maxDepth .value text
  if skip rest = [] then some value else none

end Json

end Pagewright
