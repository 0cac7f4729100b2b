import Pagewright.Text.Basic

/-!
# Reading a settings document

The settings of a page are written in YAML. This file has the characters that may stand in such a
document, the place of a reader in it (`Yaml.Cursor`), and everything that can be wrong with it
(`Yaml.Error`).
-/

namespace Pagewright

namespace Yaml

/-- What can be wrong with a document. -/
inductive Error where
  | controlCharacter
  | unexpectedCharacter
  | unexpectedTab
  | unexpectedColon
  | missingColon
  | valueNotAllowed
  | keyNotAllowed
  | entryNotAllowed
  | badAnchor
  | badTag
  | undefinedTag
  | badBlockHeader
  | badEscape
  | unclosedQuote
  | markerInQuote
  | directive
  | expectedKey
  | expectedEntry
  | expectedFlowEnd
  | expectedNode
  | severalDocuments
  | unknownAnchor
  | tooManyAliases
  | tooDeep
  | unexpectedTag
  | badTaggedScalar
  | numberRange
  | compositeKey
  deriving Repr, DecidableEq

/-- The wording of an error. -/
def Error.message : Error → Text
  | .controlCharacter => "control characters are not allowed"
  | .unexpectedCharacter => "found character that cannot start any token"
  | .unexpectedTab => "found a tab character where an indentation space is expected"
  | .unexpectedColon => "found unexpected ':'"
  | .missingColon => "could not find expected ':'"
  | .valueNotAllowed => "mapping values are not allowed in this context"
  | .keyNotAllowed => "mapping keys are not allowed in this context"
  | .entryNotAllowed => "block sequence entries are not allowed in this context"
  | .badAnchor => "did not find expected alphabetic or numeric character"
  | .badTag => "did not find expected tag URI"
  | .undefinedTag => "found undefined tag handle"
  | .badBlockHeader => "did not find expected comment or line break"
  | .badEscape => "found unknown escape character"
  | .unclosedQuote => "found unexpected end of stream"
  | .markerInQuote => "found unexpected document indicator"
  | .directive => "did not find expected <document start>"
  | .expectedKey => "did not find expected key"
  | .expectedEntry => "did not find expected '-' indicator"
  | .expectedFlowEnd => "did not find expected ',' or the end of the collection"
  | .expectedNode => "did not find expected node content"
  | .severalDocuments =>
    "deserializing from YAML containing more than one document is not supported"
  | .unknownAnchor => "unknown anchor"
  | .tooManyAliases => "repetition limit exceeded"
  | .tooDeep => "recursion limit exceeded"
  | .unexpectedTag => "invalid type: enum"
  | .badTaggedScalar => "invalid value for its tag"
  | .numberRange => "number out of range"
  | .compositeKey => "invalid type for a key, expected a string"

/-! ## Characters -/

/-- The characters that a document may hold. -/
def isAllowed (c : Char) : Bool :=
  let n := c.toNat
  n == 0x09 || n == 0x0A || n == 0x0D || (0x20 ≤ n && n ≤ 0x7E) || n == 0x85
    || (0xA0 ≤ n && n ≤ 0xD7FF) || (0xE000 ≤ n && n ≤ 0xFFFD) || 0x10000 ≤ n

/-- Line breaks. -/
def isBreak (c : Char) : Bool :=
  c = '\n' || c = '\r' || c = '\u0085' || c = '\u2028' || c = '\u2029'

/-- Blanks within a line. -/
def isGap (c : Char) : Bool :=
  c = ' ' || c = '\t'

/-- Whether a word ends before the given character, or at the end of the document. -/
def endsWord : Option Char → Bool
  | none => true
  | some c => isGap c || isBreak c

/-- The letters of anchors and tag handles. -/
def isWordLetter (c : Char) : Bool :=
  c.isAlphanum || c = '_' || c = '-'

/-- The marks around lists and records on one line, and the comma between their entries. -/
def isFlowMark (c : Char) : Bool :=
  c = ',' || c = '[' || c = ']' || c = '\x7b' || c = '\x7d'

/-! ## Places -/

/-- A place in a document: what is left of it, and how far it is from the start. -/
structure Cursor where
  rest : Text
  /-- How many bytes stand before it. -/
  index : Nat := 0
  line : Nat := 0
  /-- How many characters of its line stand before it. -/
  column : Nat := 0
  deriving Repr

namespace Cursor

/-- The next character. -/
def next? (cursor : Cursor) : Option Char :=
  cursor.rest.head?

/-- The character `n` places on. -/
def at? (cursor : Cursor) (n : Nat) : Option Char :=
  cursor.rest[n]?

/-- Pass over `n` characters of the line. -/
def advance (cursor : Cursor) (n : Nat) : Cursor :=
  let passed : Text := cursor.rest.take n
  { cursor with
    rest := cursor.rest.drop n
    index := cursor.index + passed.byteSize
    column := cursor.column + passed.length }

/-- Pass over the characters of the line for which `p` holds. -/
def advanceWhile (cursor : Cursor) (p : Char → Bool) : Cursor :=
  cursor.advance (cursor.rest.takeWhile p).length

/-- Pass over a line break, and what it reads as: the breaks of ASCII and the next-line character
are a line feed, the other two stay as they are. -/
def readBreak (cursor : Cursor) : Text × Cursor :=
  let newLine (n : Nat) : Cursor :=
    { rest := cursor.rest.drop n
      index := cursor.index + Text.byteSize (cursor.rest.take n)
      line := cursor.line + 1
      column := 0 }
  match cursor.rest with
  | '\r' :: '\n' :: _ => (['\n'], newLine 2)
  | c :: _ =>
    if c = '\n' || c = '\r' || c = '\u0085' then (['\n'], newLine 1)
    else if isBreak c then ([c], newLine 1)
    else ([], cursor)
  | [] => ([], cursor)

/-- Whether three marks stand alone at the start of a line. -/
def atMarker (cursor : Cursor) (mark : Char) : Bool :=
  cursor.column = 0 && cursor.at? 0 = some mark && cursor.at? 1 = some mark
    && cursor.at? 2 = some mark && endsWord (cursor.at? 3)

/-- Whether a document marker stands here. -/
def atAnyMarker (cursor : Cursor) : Bool :=
  cursor.atMarker '-' || cursor.atMarker '.'

end Cursor

end Yaml

end Pagewright
