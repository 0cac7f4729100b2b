import Pagewright.Yaml.Node

/-!
# Values of a document

`Yaml.read` reads a document into a value. A scalar that is written plainly is a null, a truth value
or a number where it looks like one (`Yaml.plainValue`), and a text otherwise; a tag can force one
of these readings. Keys are texts, whatever they look like. How deep values are nested and how often
aliases are followed is bounded (`Yaml.maxDepth`, `Yaml.Links.limit`).
-/

namespace Pagewright

namespace Yaml

/-! ## Scalars -/

/-- The spellings of the null value. -/
def isNull (text : Text) : Bool :=
  text = "null" || text = "Null" || text = "NULL" || text = "~"

/-- A truth value. -/
def bool? (text : Text) : Option Bool :=
  if text = "true" || text = "True" || text = "TRUE" then some true
  else if text = "false" || text = "False" || text = "FALSE" then some false
  else none

/-- The number that digits of a base stand for. -/
def ofBase? (base : Nat) (digits : Text) : Option Nat :=
  if digits = [] then none
  else
    digits.foldlM
      (fun n c => do
        let d ← Json.hexDigit? c
        if d < base then some (n * base + d) else none)
      0

/-- Zeros before other digits: such a word is not a number. -/
def isPadded (digits : Text) : Bool :=
  match digits with
  | '0' :: c :: rest => (c :: rest).all Char.isDigit
  | _ => false

/-- The size of a whole number, in a base that its first two characters may choose. -/
def magnitude? (text : Text) : Option Nat :=
  match text with
  | '0' :: 'x' :: digits => ofBase? 16 digits
  | '0' :: 'o' :: digits => ofBase? 8 digits
  | '0' :: 'b' :: digits => ofBase? 2 digits
  | _ => if isPadded text then none else ofBase? 10 text

/-- A whole number of any size. -/
def int? (text : Text) : Option Int :=
  match text with
  | '-' :: rest => (magnitude? rest).map fun n => -(n : Int)
  | '+' :: rest => (magnitude? rest).map fun n => (n : Int)
  | _ => (magnitude? text).map fun n => (n : Int)

/-- The value of a whole number. Sixty-four bits hold it, or it is refused; one that not even 128
bits hold is not read as a whole number. -/
def intValue? (text : Text) : Option (Except Error Value) :=
  match int? text with
  | none => none
  | some i =>
    if -Int.pow 2 63 ≤ i ∧ i < Int.pow 2 64 then some (.ok (.int i))
    else if -Int.pow 2 127 ≤ i ∧ i < Int.pow 2 128 then some (.error .numberRange)
    else none

/-- A decimal number without its sign: digits on one side of the point at least. -/
def decimal? (negative : Bool) (text : Text) : Option Binary64 := do
  let (whole, rest) := Json.digits text
  let (fraction, rest) :=
    match rest with
    | '.' :: rest => Json.digits rest
    | _ => ([], rest)
  if whole = [] && fraction = [] then none
  else
    match ← Json.readExponent rest with
    | (exponent, []) =>
      Binary64.nearest? negative (Json.ofDigits (whole ++ fraction))
        (exponent.getD 0 - fraction.length)
    | _ => none

/-- The value of a number with a point or an exponent. What is not finite reads as null. -/
def floatValue? (text : Text) : Option Value :=
  let special (word : Text) : Bool := word = ".inf" || word = ".Inf" || word = ".INF"
  if text = ".nan" || text = ".NaN" || text = ".NAN" then some .null
  else
    match text with
    | '-' :: rest => if special rest then some .null else (decimal? true rest).map .float
    | '+' :: rest => if special rest then some .null else (decimal? false rest).map .float
    | _ => if special text then some .null else (decimal? false text).map .float

/-- The digits of a number behind its sign. -/
def unsigned (text : Text) : Text :=
  match text with
  | '-' :: rest => rest
  | '+' :: rest => rest
  | _ => text

/-- The value of a scalar that is written plainly. -/
def plainValue (text : Text) : Except Error Value :=
  if text = [] || isNull text then .ok .null
  else
    match bool? text with
    | some b => .ok (.bool b)
    | none =>
      match intValue? text with
      | some value => value
      | none =>
        if isPadded (unsigned text) then .ok (.text text)
        else .ok ((floatValue? text).getD (.text text))

/-- The value of a scalar. -/
def scalarValue (tag : Option Text) (text : Text) (plain : Bool) : Except Error Value :=
  let forced (value : Option Value) : Except Error Value :=
    match value with
    | some value => .ok value
    | none => .error .badTaggedScalar
  match tag with
  | none => if plain then plainValue text else .ok (.text text)
  | some tag =>
    if tag.head? = some '!' then .error .unexpectedTag
    else if tag = "tag:yaml.org,2002:bool" then forced ((bool? text).map .bool)
    else if tag = "tag:yaml.org,2002:int" then
      match intValue? text with
      | some value => value
      | none => .error .badTaggedScalar
    else if tag = "tag:yaml.org,2002:float" then forced (floatValue? text)
    else if tag = "tag:yaml.org,2002:null" then forced (if isNull text then some .null else none)
    else .ok (.text text)

/-! ## Nodes -/

/-- How deep lists and records may be nested. -/
def maxDepth : Nat := 128

/-- What aliases of a document stand for. -/
structure Links where
  /-- The nodes with an anchor. Of two with one number the later counts. -/
  targets : List (Nat × Node Nat)
  /-- How many aliases may be followed. -/
  limit : Nat

/-- Reading values, counting the aliases followed. -/
abbrev Following := StateT Nat (Except Error)

/-- The node that an alias stands for; any other node stands for itself. -/
def Links.follow (links : Links) (node : Node Nat) : Following (Node Nat) :=
  match node with
  | .alias number => do
    let followed ← get
    set (followed + 1)
    if links.limit < followed + 1 then throw .tooManyAliases
    match links.targets.reverse.lookup number with
    | some target => return target
    | none => throw .unknownAnchor
  | _ => return node

/-- The text of a key. -/
def Links.key (links : Links) (node : Node Nat) : Following Text := do
  match ← links.follow node with
  | .scalar _ _ text _ => return text
  | _ => throw .compositeKey

/-- Whether a tag can stand at a list or record. -/
def checkTag (tag : Option Text) : Except Error Unit :=
  if tag.any fun tag => tag.head? = some '!' then .error .unexpectedTag else .ok ()

/-- The value of a node. -/
def Links.value (links : Links) : (depth : Nat) → Node Nat → Following Value
  | depth, node => do
    match ← links.follow node with
    | .scalar _ tag text plain => scalarValue tag text plain
    | .alias _ => throw .unknownAnchor
    | .list _ tag items =>
      checkTag tag
      match depth with
      | 0 => throw .tooDeep
      | depth + 1 => return .list (← items.mapM (links.value depth))
    | .record _ tag fields =>
      checkTag tag
      match depth with
      | 0 => throw .tooDeep
      | depth + 1 =>
        let fields ← fields.mapM fun (key, value) => do
          return (← links.key key, ← links.value depth value)
        return .record (Settings.ofFields fields)

/-- The value of a document. -/
def read (text : Text) : Except Error Value := do
  let node ← Node.ofTokens (← tokens text)
  let node ← node.numbered
  let links : Links := { targets := node.anchored, limit := 100 * node.size }
  return (← (links.value maxDepth node).run 0).1

end Yaml

end Pagewright
