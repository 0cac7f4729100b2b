import Pagewright.Json.Reader
import Pagewright.Yaml.Cursor

/-!
# Scalars as they are written

A scalar is written plainly, in quotes, or as a block of lines. Over several lines a plain or quoted
scalar is folded: one line break reads as a space, more of them as themselves less one
(`Yaml.Fold`).
-/

namespace Pagewright

namespace Yaml

/-! ## Folding -/

/-- The blanks and breaks between two runs of characters. -/
structure Fold where
  /-- The blanks of the first line. -/
  gap : Text := []
  /-- Whether a line has ended. -/
  broken : Bool := false
  /-- The first break, unless it was escaped. -/
  first : Text := []
  /-- The breaks behind it. -/
  more : Text := []

/-- What the blanks and breaks read as. -/
def Fold.joined (fold : Fold) : Text :=
  if fold.broken then
    if fold.first = ['\n'] then if fold.more = [] then [' '] else fold.more
    else fold.first ++ fold.more
  else fold.gap

/-- Collect blanks and breaks. A tab left of column `indent` on a later line is refused. -/
def readFold (indent : Int) : (fuel : Nat) → Cursor → Fold → Except Error (Fold × Cursor)
  | 0, cursor, fold => .ok (fold, cursor)
  | fuel + 1, cursor, fold =>
    match cursor.next? with
    | none => .ok (fold, cursor)
    | some c =>
      if isGap c then
        if fold.broken then
          if c = '\t' && cursor.column < indent then .error .unexpectedTab
          else readFold indent fuel (cursor.advance 1) fold
        else readFold indent fuel (cursor.advance 1) { fold with gap := fold.gap ++ [c] }
      else if isBreak c then
        let (read, cursor) := cursor.readBreak
        if fold.broken then readFold indent fuel cursor { fold with more := fold.more ++ read }
        else readFold indent fuel cursor { fold with gap := [], broken := true, first := read }
      else .ok (fold, cursor)

/-! ## Plain scalars -/

/-- The characters of a plain scalar up to the next blank or mark that ends it. -/
def plainRun (flow : Bool) : Text → Except Error Text
  | [] => .ok []
  | c :: rest =>
    if endsWord (some c) then .ok []
    else if flow && c = ':' && rest.head?.any (fun d => isFlowMark d || d = '?') then
      .error .unexpectedColon
    else if (c = ':' && endsWord rest.head?) || (flow && isFlowMark c) then .ok []
    else (plainRun flow rest).map (c :: ·)

/-- The rest of a plain scalar behind the blanks and breaks `fold`. The answer also tells whether a
line ended behind it. -/
def readPlainFrom (flow : Bool) (indent : Int) :
    (fuel : Nat) → Cursor → Fold → Except Error (Text × Cursor × Bool)
  | 0, cursor, fold => .ok ([], cursor, fold.broken)
  | fuel + 1, cursor, fold => do
    if cursor.atAnyMarker || cursor.next? = some '#' then return ([], cursor, fold.broken)
    let run ← plainRun flow cursor.rest
    let (text, fold) := if run = [] then ([], fold) else (fold.joined ++ run, {})
    let cursor := cursor.advance run.length
    if cursor.next?.all fun c => !(isGap c || isBreak c) then
      return (text, cursor, fold.broken)
    let (fold, cursor) ← readFold indent (fuel + 1) cursor fold
    if !flow && cursor.column < indent then return (text, cursor, fold.broken)
    let (rest, cursor, broken) ← readPlainFrom flow indent fuel cursor fold
    return (text ++ rest, cursor, broken)

/-- A plain scalar inside a block that starts at column `indent`. -/
def readPlain (flow : Bool) (indent : Int) (cursor : Cursor) :
    Except Error (Text × Cursor × Bool) :=
  readPlainFrom flow (indent + 1) (cursor.rest.length + 1) cursor {}

/-! ## Quoted scalars -/

/-- The number that hexadecimal digits stand for. -/
def hexNumber? (digits : Text) : Option Nat :=
  digits.foldlM (fun n c => (Json.hexDigit? c).map fun d => n * 16 + d) 0

/-- An escape behind its backslash: the character, and how many characters spell it. -/
def escape? (text : Text) : Option (Char × Nat) :=
  let coded (length : Nat) (rest : Text) : Option (Char × Nat) :=
    let digits := rest.take length
    if digits.length < length then none
    else
      match hexNumber? digits with
      | none => none
      | some n =>
        if (0xD800 ≤ n && n ≤ 0xDFFF) || 0x10FFFF < n then none
        else some (Char.ofNat n, length + 1)
  match text with
  | '0' :: _ => some ('\x00', 1)
  | 'a' :: _ => some ('\x07', 1)
  | 'b' :: _ => some ('\x08', 1)
  | 't' :: _ => some ('\t', 1)
  | '\t' :: _ => some ('\t', 1)
  | 'n' :: _ => some ('\n', 1)
  | 'v' :: _ => some ('\x0b', 1)
  | 'f' :: _ => some ('\x0c', 1)
  | 'r' :: _ => some ('\r', 1)
  | 'e' :: _ => some ('\x1b', 1)
  | ' ' :: _ => some (' ', 1)
  | '"' :: _ => some ('"', 1)
  | '/' :: _ => some ('/', 1)
  | '\\' :: _ => some ('\\', 1)
  | 'N' :: _ => some ('\u0085', 1)
  | '_' :: _ => some ('\u00a0', 1)
  | 'L' :: _ => some ('\u2028', 1)
  | 'P' :: _ => some ('\u2029', 1)
  | 'x' :: rest => coded 2 rest
  | 'u' :: rest => coded 4 rest
  | 'U' :: rest => coded 8 rest
  | _ => none

/-- The characters of a quoted scalar up to the next blank, the closing quote or an escaped line
break; the answer tells whether it stopped at the last, whose backslash is passed over. -/
def quotedRun (single : Bool) : (fuel : Nat) → Cursor → Except Error (Text × Cursor × Bool)
  | 0, cursor => .ok ([], cursor, false)
  | fuel + 1, cursor =>
    let continued (c : Char) (length : Nat) : Except Error (Text × Cursor × Bool) :=
      (quotedRun single fuel (cursor.advance length)).map fun (text, cursor, escaped) =>
        (c :: text, cursor, escaped)
    match cursor.next? with
    | none => .ok ([], cursor, false)
    | some c =>
      if endsWord (some c) then .ok ([], cursor, false)
      else if single && c = '\'' && cursor.at? 1 = some '\'' then continued '\'' 2
      else if c = (if single then '\'' else '"') then .ok ([], cursor, false)
      else if !single && c = '\\' then
        if (cursor.at? 1).any isBreak then .ok ([], cursor.advance 1, true)
        else
          match escape? (cursor.rest.drop 1) with
          | none => .error .badEscape
          | some (d, length) => continued d (length + 1)
      else continued c 1

/-- The rest of a quoted scalar. -/
def readQuotedFrom (single : Bool) : (fuel : Nat) → Cursor → Except Error (Text × Cursor)
  | 0, _ => .error .unclosedQuote
  | fuel + 1, cursor => do
    if cursor.atAnyMarker then throw .markerInQuote
    if cursor.next? = none then throw .unclosedQuote
    let (text, cursor, escaped) ← quotedRun single (fuel + 1) cursor
    let (cursor, fold) :=
      if escaped then (cursor.readBreak.2, { broken := true : Fold }) else (cursor, {})
    if cursor.next? = some (if single then '\'' else '"') then
      return (text, cursor.advance 1)
    let (fold, cursor) ← readFold 0 (fuel + 1) cursor fold
    let (rest, cursor) ← readQuotedFrom single fuel cursor
    return (text ++ fold.joined ++ rest, cursor)

/-- A quoted scalar, the cursor standing at its opening quote. -/
def readQuoted (single : Bool) (cursor : Cursor) : Except Error (Text × Cursor) :=
  readQuotedFrom single (cursor.rest.length + 1) (cursor.advance 1)

/-! ## Blocks of lines -/

/-- What happens to the breaks at the end of a block. -/
inductive Chomping where
  | strip
  | clip
  | keep
  deriving Repr, DecidableEq

/-- The chomping that a mark asks for. -/
def chomping? : Option Char → Option Chomping
  | some '+' => some .keep
  | some '-' => some .strip
  | _ => none

/-- The indentation that a digit asks for; zero is refused. -/
def increment? (c : Option Char) : Except Error (Option Nat) :=
  match c with
  | some d =>
    if d = '0' then .error .badBlockHeader
    else if d.isDigit then .ok (some (d.toNat - '0'.toNat))
    else .ok none
  | none => .ok none

/-- The marks behind the one that starts a block, in either order. -/
def readHeader (cursor : Cursor) : Except Error (Chomping × Option Nat × Cursor) := do
  match chomping? cursor.next? with
  | some chomping =>
    let cursor := cursor.advance 1
    match ← increment? cursor.next? with
    | some n => return (chomping, some n, cursor.advance 1)
    | none => return (chomping, none, cursor)
  | none =>
    match ← increment? cursor.next? with
    | some n =>
      let cursor := cursor.advance 1
      match chomping? cursor.next? with
      | some chomping => return (chomping, some n, cursor.advance 1)
      | none => return (.clip, some n, cursor)
    | none => return (.clip, none, cursor)

/-- The empty lines before a line of the block, and the widest indentation seen. While the
indentation of the block is not known, every space counts as indentation. -/
def readEmptyLines (indent : Option Int) :
    (fuel : Nat) → Cursor → (breaks : Text) → (widest : Nat) → Except Error (Text × Nat × Cursor)
  | 0, cursor, breaks, widest => .ok (breaks, widest, cursor)
  | fuel + 1, cursor, breaks, widest =>
    let spaces := (cursor.rest.takeWhile (· = ' ')).length
    let wanted :=
      match indent with
      | some n => min spaces (n - cursor.column).toNat
      | none => spaces
    let cursor := cursor.advance wanted
    let widest := max widest cursor.column
    let inIndent := indent.all fun n => (cursor.column : Int) < n
    if inIndent && cursor.next? = some '\t' then .error .unexpectedTab
    else if cursor.next?.any isBreak then
      let (read, cursor) := cursor.readBreak
      readEmptyLines indent fuel cursor (breaks ++ read) widest
    else .ok (breaks, widest, cursor)

/-- The lines of a block behind a line that ended with the break `last` and the empty lines
`breaks`; `blankBefore` tells whether that line began with a blank. The answer has the text, and the
break and the empty lines behind it. -/
def readLines (literal : Bool) (indent : Int) :
    (fuel : Nat) → Cursor → (last : Text) → (blankBefore : Bool) → (breaks : Text) →
      Except Error (Text × Text × Text × Cursor)
  | 0, cursor, last, _, breaks => .ok ([], last, breaks, cursor)
  | fuel + 1, cursor, last, blankBefore, breaks => do
    if (cursor.column : Int) ≠ indent || cursor.next? = none then
      return ([], last, breaks, cursor)
    let blank := cursor.next?.any isGap
    let folded := !literal && last = ['\n'] && !blankBefore && !blank
    let joint := if folded then if breaks = [] then [' '] else [] else last
    let line := cursor.rest.takeWhile fun c => !isBreak c
    let (next, cursor) := (cursor.advance line.length).readBreak
    let (empty, _, cursor) ← readEmptyLines (some indent) (fuel + 1) cursor [] 0
    let (rest, last, after, cursor) ← readLines literal indent fuel cursor next blank empty
    return (joint ++ breaks ++ line ++ rest, last, after, cursor)

/-- A block of lines, the cursor standing at the mark that starts it. -/
def readBlock (literal : Bool) (outer : Int) (cursor : Cursor) : Except Error (Text × Cursor) := do
  let (chomping, increment, cursor) ← readHeader (cursor.advance 1)
  let cursor := cursor.advanceWhile isGap
  let cursor := if cursor.next? = some '#' then cursor.advanceWhile fun c => !isBreak c else cursor
  if cursor.next?.any fun c => !isBreak c then throw .badBlockHeader
  let cursor := cursor.readBreak.2
  let given : Option Int := increment.map fun n => if 0 ≤ outer then outer + n else n
  let (breaks, widest, cursor) ← readEmptyLines given (cursor.rest.length + 1) cursor [] 0
  let indent := given.getD (max (max (widest : Int) (outer + 1)) 1)
  let (text, last, breaks, cursor) ←
    readLines literal indent (cursor.rest.length + 1) cursor [] false breaks
  let ending :=
    match chomping with
    | .strip => []
    | .clip => last
    | .keep => last ++ breaks
  return (text ++ ending, cursor)

end Yaml

end Pagewright
