import Pagewright.Yaml.Scalar

/-!
# Tokens

A document is a list of tokens. Where blocks start and end is not written but shows in the
columns, so the reader keeps the columns of the open blocks and adds the tokens for it
(`Reader.openBlock`, `Reader.closeBlocks`). Nor is it written that a key begins: every place where
one may begin is remembered as a candidate (`Candidate`), and when a colon follows on the same line
the token for the key is put in there.
-/

namespace Pagewright

namespace Yaml

/-- The parts of a document. -/
inductive Token where
  | blockListStart
  | blockRecordStart
  | blockEnd
  | blockEntry
  | flowListStart
  | flowListEnd
  | flowRecordStart
  | flowRecordEnd
  | flowEntry
  | key
  | value
  | alias (name : Text)
  | anchor (name : Text)
  | tag (handle suffix : Text)
  | scalar (text : Text) (plain : Bool)
  | documentStart
  | documentEnd
  deriving Repr, DecidableEq

/-- A place where a key may have begun. -/
structure Candidate where
  /-- Whether nothing but a key can stand there. -/
  required : Bool
  /-- How many tokens stand before it. -/
  position : Nat
  index : Nat
  line : Nat
  column : Nat

/-- How far a document has been read. -/
structure Reader where
  cursor : Cursor
  tokens : Array Token := #[]
  /-- Column of the innermost block, `-1` outside all blocks. -/
  indent : Int := -1
  /-- Columns of the blocks around it. -/
  outer : List Int := []
  /-- The candidate outside the open flow collections. -/
  candidate : Option Candidate := none
  /-- For every open flow collection, the candidate of what is around it, the innermost first. -/
  flows : List (Option Candidate) := []
  /-- Whether a key may begin at the next token. -/
  keyAllowed : Bool := true

namespace Reader

/-- Whether the reader is inside a flow collection. -/
def inFlow (r : Reader) : Bool :=
  !r.flows.isEmpty

/-- Add a token. -/
def push (r : Reader) (token : Token) : Reader :=
  { r with tokens := r.tokens.push token }

/-! ## Blocks and candidates -/

/-- Close the blocks to the right of a column. -/
def closeFrom (column : Int) : (outer : List Int) → Reader → Reader
  | [], r => if r.indent > column then { r.push .blockEnd with indent := -1 } else r
  | o :: outer, r =>
    if r.indent > column then closeFrom column outer { r.push .blockEnd with indent := o, outer }
    else r

/-- Close the blocks to the right of a column, unless inside a flow collection. -/
def closeBlocks (r : Reader) (column : Int) : Reader :=
  if r.inFlow then r else closeFrom column r.outer r

/-- Open a block at a column to the right of the innermost one, its token standing at the given
position. -/
def openBlock (r : Reader) (column position : Nat) (token : Token) : Reader :=
  if r.inFlow || (column : Int) ≤ r.indent then r
  else
    { r with
      outer := r.indent :: r.outer
      indent := column
      tokens := r.tokens.insertIdxIfInBounds position token }

/-- Give up the candidate; where a key was required, that is an error. -/
def dropCandidate (r : Reader) : Except Error Reader :=
  if r.candidate.any (·.required) then .error .missingColon else .ok { r with candidate := none }

/-- Remember the next token as a candidate. -/
def saveCandidate (r : Reader) : Except Error Reader :=
  if r.keyAllowed then do
    let candidate : Candidate :=
      { required := !r.inFlow && r.indent = r.cursor.column
        position := r.tokens.size
        index := r.cursor.index
        line := r.cursor.line
        column := r.cursor.column }
    let r ← r.dropCandidate
    return { r with candidate := some candidate }
  else .ok r

/-- The candidate, when it is on this line and at most 1024 bytes away. -/
def validCandidate (r : Reader) : Except Error (Option Candidate) :=
  match r.candidate with
  | none => .ok none
  | some c =>
    if c.line < r.cursor.line || c.index + 1024 < r.cursor.index then
      if c.required then .error .missingColon else .ok none
    else .ok (some c)

/-! ## Blanks and comments -/

/-- Pass over blanks, comments and line breaks, and over one byte order mark at the start of each
line. In blocks a tab is no blank where a key may begin, and a key may begin behind a line break. -/
def skipBlanks : (fuel : Nat) → Reader → Reader
  | 0, r => r
  | fuel + 1, r =>
    let start :=
      if r.cursor.column = 0 && r.cursor.next? = some '\ufeff' then r.cursor.advance 1
      else r.cursor
    let tabs := r.inFlow || !r.keyAllowed
    let cursor := start.advanceWhile fun c => c = ' ' || (tabs && c = '\t')
    let cursor :=
      if cursor.next? = some '#' then cursor.advanceWhile fun c => !isBreak c else cursor
    if cursor.next?.any isBreak then
      skipBlanks fuel
        { r with cursor := cursor.readBreak.2, keyAllowed := r.keyAllowed || !r.inFlow }
    else { r with cursor }

/-! ## Indicators -/

/-- A token of one character. -/
def mark (r : Reader) (token : Token) : Reader :=
  { r.push token with cursor := r.cursor.advance 1 }

/-- A flow collection opens. -/
def openFlow (r : Reader) (token : Token) : Except Error Reader := do
  let r ← r.saveCandidate
  return { r.mark token with
    flows := r.candidate :: r.flows, candidate := none, keyAllowed := true }

/-- A flow collection closes. -/
def closeFlow (r : Reader) (token : Token) : Except Error Reader := do
  let r ← r.dropCandidate
  let r := { r.mark token with keyAllowed := false }
  match r.flows with
  | [] => return r
  | candidate :: flows => return { r with candidate, flows }

/-- The comma between the entries of a flow collection. -/
def flowEntry (r : Reader) : Except Error Reader := do
  let r ← r.dropCandidate
  return { r.mark .flowEntry with keyAllowed := true }

/-- The dash before an entry of a block list. -/
def blockEntry (r : Reader) : Except Error Reader := do
  if !r.inFlow && !r.keyAllowed then throw .entryNotAllowed
  let r := r.openBlock r.cursor.column r.tokens.size .blockListStart
  let r ← r.dropCandidate
  return { r.mark .blockEntry with keyAllowed := true }

/-- The question mark before a key. -/
def explicitKey (r : Reader) : Except Error Reader := do
  if !r.inFlow && !r.keyAllowed then throw .keyNotAllowed
  let r := r.openBlock r.cursor.column r.tokens.size .blockRecordStart
  let r ← r.dropCandidate
  return { r.mark .key with keyAllowed := !r.inFlow }

/-- The colon before a value. It makes a key of the candidate. -/
def value (r : Reader) : Except Error Reader := do
  match ← r.validCandidate with
  | some c =>
    let r := { r with tokens := r.tokens.insertIdxIfInBounds c.position .key }
    let r := r.openBlock c.column c.position .blockRecordStart
    return { r.mark .value with candidate := none, keyAllowed := false }
  | none =>
    if !r.inFlow && !r.keyAllowed then throw .valueNotAllowed
    let r := r.openBlock r.cursor.column r.tokens.size .blockRecordStart
    return { r.mark .value with candidate := none, keyAllowed := !r.inFlow }

/-- A document marker ends all blocks. -/
def documentMarker (r : Reader) (token : Token) (length : Nat) : Except Error Reader := do
  let r ← (r.closeBlocks (-1)).dropCandidate
  return { r.push token with cursor := r.cursor.advance length, keyAllowed := false }

/-! ## Anchors and tags -/

/-- An anchor or an alias: a word behind its mark. -/
def anchor (r : Reader) (token : Text → Token) : Except Error Reader := do
  let r ← r.saveCandidate
  let cursor := r.cursor.advance 1
  let name := cursor.rest.takeWhile isWordLetter
  let cursor := cursor.advance name.length
  let ends := endsWord cursor.next? || cursor.next?.any fun c =>
    c = '?' || c = ':' || c = ',' || c = ']' || c = '\x7d' || c = '%' || c = '@' || c = '\x60'
  if name = [] || !ends then throw .badAnchor
  return { r.push (token name) with cursor, keyAllowed := false }

/-- Characters of a tag; commas and brackets only between angle brackets. -/
def isTagChar (verbatim : Bool) (c : Char) : Bool :=
  isWordLetter c || c = ';' || c = '/' || c = '?' || c = ':' || c = '@' || c = '&' || c = '='
    || c = '+' || c = '$' || c = '.' || c = '%' || c = '!' || c = '~' || c = '*' || c = '\''
    || c = '(' || c = ')' || (verbatim && (c = ',' || c = '[' || c = ']'))

/-- The bytes that `%xx` escapes stand for, followed by those of a character. -/
def tagBytes : Text → Option (List UInt8)
  | [] => some []
  | '%' :: a :: b :: rest => do
    let a ← Json.hexDigit? a
    let b ← Json.hexDigit? b
    let bytes ← tagBytes rest
    return UInt8.ofNat (a * 16 + b) :: bytes
  | '%' :: _ => none
  | c :: rest => (tagBytes rest).map ((String.singleton c).toUTF8.toList ++ ·)

/-- A tag with its escapes read. -/
def tagText? (text : Text) : Option Text := do
  let bytes ← tagBytes text
  let s ← String.fromUTF8? ⟨bytes.toArray⟩
  return s.toList

/-- The handle and the suffix of a tag, the cursor standing at its exclamation mark. -/
def readTag (cursor : Cursor) : Except Error (Text × Text × Cursor) := do
  let uri (verbatim : Bool) (cursor : Cursor) : Except Error (Text × Text × Cursor) :=
    let source := cursor.rest.takeWhile (isTagChar verbatim)
    match tagText? source with
    | some text => .ok (source, text, cursor.advance source.length)
    | none => .error .badTag
  if cursor.at? 1 = some '<' then
    let (source, suffix, cursor) ← uri true (cursor.advance 2)
    if source = [] || cursor.next? ≠ some '>' then throw .badTag
    return ([], suffix, cursor.advance 1)
  else
    let word := (cursor.rest.drop 1).takeWhile isWordLetter
    if cursor.at? (word.length + 1) = some '!' then
      let (source, suffix, cursor) ← uri false (cursor.advance (word.length + 2))
      if source = [] then throw .badTag
      return ('!' :: word ++ ['!'], suffix, cursor)
    else
      let (_, suffix, cursor) ← uri false (cursor.advance 1)
      if suffix = [] then return ([], ['!'], cursor)
      return (['!'], suffix, cursor)

/-- A tag. -/
def tag (r : Reader) : Except Error Reader := do
  let r ← r.saveCandidate
  let (handle, suffix, cursor) ← readTag r.cursor
  if !(endsWord cursor.next? || (r.inFlow && cursor.next? = some ',')) then throw .badTag
  return { r.push (.tag handle suffix) with cursor, keyAllowed := false }

/-! ## Scalars -/

/-- A block of lines. -/
def block (r : Reader) (literal : Bool) : Except Error Reader := do
  let r ← r.dropCandidate
  let (text, cursor) ← readBlock literal r.indent r.cursor
  return { r.push (.scalar text false) with cursor, keyAllowed := true }

/-- A quoted scalar. -/
def quoted (r : Reader) (single : Bool) : Except Error Reader := do
  let r ← r.saveCandidate
  let (text, cursor) ← readQuoted single r.cursor
  return { r.push (.scalar text false) with cursor, keyAllowed := false }

/-- A plain scalar. -/
def plain (r : Reader) : Except Error Reader := do
  let r ← r.saveCandidate
  let (text, cursor, broken) ← readPlain r.inFlow r.indent r.cursor
  return { r.push (.scalar text true) with cursor, keyAllowed := broken }

/-- Characters that do not start a plain scalar. -/
def isIndicator (c : Char) : Bool :=
  c = '-' || c = '?' || c = ':' || isFlowMark c || c = '#' || c = '&' || c = '*' || c = '!'
    || c = '|' || c = '>' || c = '\'' || c = '"' || c = '%' || c = '@' || c = '\x60'

/-- Whether a plain scalar starts with `c`, the character `next` following: a dash, and outside flow
collections a question mark or a colon, may start one when no blank follows. -/
def startsPlain (r : Reader) (c : Char) (next : Option Char) : Bool :=
  !(endsWord (some c) || isIndicator c)
    || (c = '-' && !next.any isGap)
    || (!r.inFlow && (c = '?' || c = ':') && !endsWord next)

/-! ## Reading a document -/

/-- The next token or tokens; `none` at the end of the document. -/
def step (fuel : Nat) (r : Reader) : Except Error (Option Reader) := do
  let r := skipBlanks fuel r
  let r := r.closeBlocks r.cursor.column
  match r.cursor.next? with
  | none => return none
  | some c =>
    let next := r.cursor.at? 1
    if r.cursor.column = 0 && c = '%' then throw .directive
    else if r.cursor.atMarker '-' then r.documentMarker .documentStart 3
    else if r.cursor.atMarker '.' then r.documentMarker .documentEnd 3
    else if c = '[' then r.openFlow .flowListStart
    else if c = '\x7b' then r.openFlow .flowRecordStart
    else if c = ']' then r.closeFlow .flowListEnd
    else if c = '\x7d' then r.closeFlow .flowRecordEnd
    else if c = ',' then r.flowEntry
    else if c = '-' && endsWord next then r.blockEntry
    else if c = '?' && (r.inFlow || endsWord next) then r.explicitKey
    else if c = ':' && (r.inFlow || endsWord next) then r.value
    else if c = '*' then r.anchor .alias
    else if c = '&' then r.anchor .anchor
    else if c = '!' then r.tag
    else if c = '|' && !r.inFlow then r.block true
    else if c = '>' && !r.inFlow then r.block false
    else if c = '\'' then r.quoted true
    else if c = '"' then r.quoted false
    else if r.startsPlain c next then r.plain
    else throw .unexpectedCharacter

/-- One token after another. -/
def run : (fuel : Nat) → Reader → Except Error Reader
  | 0, r => .ok r
  | fuel + 1, r => do
    match ← r.step (fuel + 1) with
    | some next => run fuel next
    | none => (r.closeBlocks (-1)).dropCandidate

end Reader

/-- The tokens of a document. -/
def tokens (text : Text) : Except Error (List Token) :=
  if text.all isAllowed then
    (Reader.run (text.length + 1) { cursor := { rest := text } }).map fun r => r.tokens.toList
  else .error .controlCharacter

end Yaml

end Pagewright
