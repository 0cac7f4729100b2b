import Pagewright.Toml.Number
import Pagewright.Toml.Table

/-!
# Reading a configuration file

A file is a list of lines (`Toml.Line`): headers that open a table and fields that go into the table
opened last. `Toml.read` reads the lines and builds the tables from them. How many parts a key has
and how deep values are nested is bounded (`Toml.maxParts`, `Toml.maxDepth`).
-/

namespace Pagewright

namespace Toml

/-! ## Blanks and comments -/

/-- Blanks within a line. -/
def isGap (c : Char) : Bool :=
  c = ' ' || c = '\t'

/-- Characters that stand for themselves in comments and texts: no control characters. -/
def isPrintable (c : Char) : Bool :=
  c = '\t' || (' ' ≤ c && c ≠ '\x7f')

/-- The text behind its leading blanks. -/
def skip (text : Text) : Text :=
  text.dropWhile isGap

/-- What follows a line break. -/
def afterBreak? : Text → Option Text
  | '\n' :: rest => some rest
  | '\r' :: '\n' :: rest => some rest
  | _ => none

/-- The text behind a comment, if it starts with one. -/
def skipComment (text : Text) : Text :=
  match text with
  | '#' :: rest => rest.dropWhile isPrintable
  | _ => text

/-- What follows the end of a line. -/
def afterLine (text : Text) : Except Error Text :=
  match skipComment (skip text) with
  | [] => .ok []
  | rest =>
    match afterBreak? rest with
    | some rest => .ok rest
    | none => .error .unexpectedText

/-- The text behind blanks, comments and line breaks. -/
def skipLines : (fuel : Nat) → Text → Text
  | 0, text => text
  | fuel + 1, text =>
    match afterBreak? (skipComment (skip text)) with
    | some rest => skipLines fuel rest
    | none => skip text

/-! ## Texts -/

/-- The character behind a backslash, for the escapes of one letter. -/
def escape? (c : Char) : Option Char :=
  if c = '/' then none else Json.escape? c

/-- The character with the number that hexadecimal digits stand for. -/
def coded? (digits : Text) : Option Char := do
  let n ← digits.foldlM (fun n c => (Json.hexDigit? c).map fun d => n * 16 + d) 0
  if n.isValidChar then some (Char.ofNat n) else none

/-- A text behind its opening quotes. With `lines` it may hold line breaks and ends with three
quotes, up to two more belonging to it. A backslash escapes in double quotes; at the end of a line
it joins the line with the next one that is not blank (`joining`). -/
def readText (quote : Char) (lines joining : Bool) : Text → Except Error (Text × Text)
  | [] => .error .unclosedText
  | '\r' :: '\n' :: rest =>
    if joining then readText quote lines true rest
    else if lines then (readText quote lines false rest).map fun (s, rest) => ('\n' :: s, rest)
    else .error .unclosedText
  | '\n' :: rest =>
    if joining then readText quote lines true rest
    else if lines then (readText quote lines false rest).map fun (s, rest) => ('\n' :: s, rest)
    else .error .unclosedText
  | '\\' :: 'u' :: a :: b :: c :: d :: rest =>
    if quote = '"' then
      match coded? [a, b, c, d] with
      | some e => (readText quote lines false rest).map fun (s, rest) => (e :: s, rest)
      | none => .error .badEscape
    else
      (readText quote lines false ('u' :: a :: b :: c :: d :: rest)).map fun (s, rest) =>
        ('\\' :: s, rest)
  | '\\' :: 'U' :: a :: b :: c :: d :: e :: f :: g :: h :: rest =>
    if quote = '"' then
      match coded? [a, b, c, d, e, f, g, h] with
      | some e => (readText quote lines false rest).map fun (s, rest) => (e :: s, rest)
      | none => .error .badEscape
    else
      (readText quote lines false ('U' :: a :: b :: c :: d :: e :: f :: g :: h :: rest)).map
        fun (s, rest) => ('\\' :: s, rest)
  | '\\' :: c :: rest =>
    if quote = '"' then
      if lines && (afterBreak? (skip (c :: rest))).isSome then
        readText quote lines true (c :: rest)
      else
        match escape? c with
        | some e => (readText quote lines false rest).map fun (s, rest) => (e :: s, rest)
        | none => .error .badEscape
    else (readText quote lines false (c :: rest)).map fun (s, rest) => ('\\' :: s, rest)
  | c :: rest =>
    if joining && isGap c then readText quote lines true rest
    else if c = quote then
      if lines then
        let quotes := (rest.takeWhile (· = quote)).length
        if quotes < 2 then
          (readText quote lines false rest).map fun (s, rest) => (c :: s, rest)
        else
          let kept := min (quotes - 2) 2
          .ok (List.replicate kept quote, rest.drop (kept + 2))
      else .ok ([], rest)
    else if isPrintable c then
      (readText quote lines false rest).map fun (s, rest) => (c :: s, rest)
    else .error .controlCharacter

/-- A text with its opening quotes. A line break right behind three quotes does not count. -/
def readQuoted? (text : Text) : Option (Except Error (Text × Text)) :=
  match text with
  | '"' :: '"' :: '"' :: rest => some (readText '"' true false ((afterBreak? rest).getD rest))
  | '\'' :: '\'' :: '\'' :: rest => some (readText '\'' true false ((afterBreak? rest).getD rest))
  | '"' :: rest => some (readText '"' false false rest)
  | '\'' :: rest => some (readText '\'' false false rest)
  | _ => none

/-! ## Keys -/

/-- The characters of a key without quotes. -/
def isKeyChar (c : Char) : Bool :=
  c.isAlphanum || c = '_' || c = '-'

/-- One part of a key, blanks around it passed over. -/
def readKeyPart (text : Text) : Except Error (Text × Text) := do
  let text := skip text
  let (name, rest) ←
    match text with
    | '"' :: rest => readText '"' false false rest
    | '\'' :: rest => readText '\'' false false rest
    | _ =>
      let name := text.takeWhile isKeyChar
      if name = [] then throw .unexpectedText else pure (name, text.drop name.length)
  return (name, skip rest)

/-- How many parts a key may have. -/
def maxParts : Nat := 79

/-- Parts with dots between them, the last of them apart. -/
def readKeyParts : (fuel : Nat) → Text → Except Error (List Text × Text × Text)
  | 0, _ => .error .unexpectedText
  | fuel + 1, text => do
    let (name, rest) ← readKeyPart text
    match rest with
    | '.' :: rest =>
      let (path, last, rest) ← readKeyParts fuel rest
      return (name :: path, last, rest)
    | _ => return ([], name, rest)

/-- A key: the path to a table, and the name of a field in it. -/
def readKey (text : Text) : Except Error (List Text × Text × Text) := do
  let (path, name, rest) ← readKeyParts text.length text
  if maxParts < path.length + 1 then throw .tooDeep
  return (path, name, rest)

/-! ## Values -/

/-- How deep lists and tables in braces may be nested. -/
def maxDepth : Nat := 79

/-- A value that holds no others, and is not in quotes. -/
def readPlain (text : Text) : Except Error (Item × Text) :=
  match text.after? "true", text.after? "false" with
  | some rest, _ => .ok (.bool true, rest)
  | _, some rest => .ok (.bool false, rest)
  | none, none =>
    match readMoment? text with
    | some read => read.map fun (moment, rest) => (.moment moment, rest)
    | none => (readNumber text).map (.number, ·)

mutual

/-- A value. It may hold others up to a depth. -/
def readItem : (fuel depth : Nat) → Text → Except Error (Item × Text)
  | 0, _, _ => .error .unexpectedText
  | fuel + 1, depth, text =>
    match readQuoted? text with
    | some read => read.map fun (s, rest) => (.text s, rest)
    | none =>
      match depth, text with
      | 0, '[' :: _ => .error .tooDeep
      | 0, '\x7b' :: _ => .error .tooDeep
      | depth + 1, '[' :: rest =>
        (readItems fuel depth rest).map fun (items, rest) => (.list items, rest)
      | depth + 1, '\x7b' :: rest => do
        match skip rest with
        | '\x7d' :: rest => return (.table .inline [], rest)
        | _ =>
          let (fields, rest) ← readFields fuel depth [] rest
          return (.table .inline fields, rest)
      | _, _ => readPlain text

/-- The items of a list behind its opening bracket or a comma. -/
def readItems : (fuel depth : Nat) → Text → Except Error (List Item × Text)
  | 0, _, _ => .error .unexpectedText
  | fuel + 1, depth, text =>
    match skipLines text.length text with
    | ']' :: rest => .ok ([], rest)
    | text => do
      let (item, rest) ← readItem fuel depth text
      match skipLines rest.length rest with
      | ',' :: rest =>
        let (items, rest) ← readItems fuel depth rest
        return (item :: items, rest)
      | ']' :: rest => return ([item], rest)
      | _ => throw .unexpectedText

/-- The fields of a table in braces, at least one, added to those before them. -/
def readFields : (fuel depth : Nat) → Fields → Text → Except Error (Fields × Text)
  | 0, _, _, _ => .error .unexpectedText
  | fuel + 1, depth, fields, text => do
    let (path, name, item, rest) ← readPair fuel depth text
    let fields ← fields.addDotted path name item
    match skip rest with
    | ',' :: rest => readFields fuel depth fields rest
    | '\x7d' :: rest => return (fields, rest)
    | _ => throw .unexpectedText

/-- A key and its value. -/
def readPair : (fuel depth : Nat) → Text → Except Error (List Text × Text × Item × Text)
  | 0, _, _ => .error .unexpectedText
  | fuel + 1, depth, text => do
    let (path, name, rest) ← readKey text
    match rest with
    | '=' :: rest =>
      let (item, rest) ← readItem fuel depth (skip rest)
      return (path, name, item, rest)
    | _ => throw .unexpectedText

end

/-! ## Lines -/

/-- A line that defines something. -/
inductive Line where
  | field (path : List Text) (name : Text) (item : Item)
  | table (path : List Text) (name : Text)
  | nextTable (path : List Text) (name : Text)

/-- The key in a header, and the text behind its closing brackets. -/
def readHeader (close text : Text) : Except Error (List Text × Text × Text) := do
  let (path, name, rest) ← readKey text
  match rest.after? close with
  | some rest => return (path, name, rest)
  | none => throw .unexpectedText

/-- The lines of a file. -/
def readLines : (fuel : Nat) → Text → Except Error (List Line)
  | 0, _ => .ok []
  | fuel + 1, text => do
    let text := skip text
    match text with
    | [] => return []
    | '[' :: '[' :: rest =>
      let (path, name, rest) ← readHeader "]]" rest
      return .nextTable path name :: (← readLines fuel (← afterLine rest))
    | '[' :: rest =>
      let (path, name, rest) ← readHeader "]" rest
      return .table path name :: (← readLines fuel (← afterLine rest))
    | c :: _ =>
      if c = '#' || c = '\n' || c = '\r' then readLines fuel (← afterLine text)
      else
        let (path, name, item, rest) ← readPair (2 * text.length + 2) maxDepth text
        return .field path name item :: (← readLines fuel (← afterLine rest))

/-- The tables so far, and the path of the table opened last. -/
abbrev State := Fields × List Text

/-- The tables after one more line. -/
def step : State → Line → Except Error State
  | (fields, opened), .field path name item =>
    (fields.below opened (Fields.addDotted path name item)).map (·, opened)
  | (fields, _), .table path name =>
    (fields.below path (Fields.openTable name)).map (·, path ++ [name])
  | (fields, _), .nextTable path name =>
    (fields.below path (Fields.openNext name)).map (·, path ++ [name])

/-- The fields of a configuration file. -/
def read (text : Text) : Except Error Fields := do
  let text := (text.after? ['\ufeff']).getD text
  let lines ← readLines (text.length + 1) text
  let (fields, _) ← lines.foldlM step ([], [])
  return fields

end Toml

end Pagewright
