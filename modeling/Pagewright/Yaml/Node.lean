import Pagewright.Yaml.Token

/-!
# Nodes

The tokens of a document form a tree of nodes (`Yaml.Node`). A node may be given a name, its anchor,
and an alias stands for the node of that name. `Node.ofTokens` reads the tree, and `Node.numbered`
settles which anchor each alias means: anchors are numbered in the order in which they are written,
each with the count of the names before it.
-/

namespace Pagewright

namespace Yaml

/-- A document as a tree; `α` is what names its anchors. -/
inductive Node (α : Type) where
  | alias (name : α)
  | scalar (anchor : Option α) (tag : Option Text) (text : Text) (plain : Bool)
  | list (anchor : Option α) (tag : Option Text) (items : List (Node α))
  | record (anchor : Option α) (tag : Option Text) (fields : List (Node α × Node α))
  deriving Repr

namespace Node

variable {α : Type}

/-- The node where nothing is written. -/
def empty : Node α :=
  .scalar none none [] true

/-! ## Reading tokens -/

/-- What stands before the content of a node. -/
structure Properties where
  anchor : Option Text := none
  tag : Option Text := none

/-- The whole name of a tag. -/
def tagName (handle suffix : Text) : Except Error Text :=
  if handle = [] then .ok suffix
  else if handle = ['!'] then .ok ('!' :: suffix)
  else if handle = ['!', '!'] then .ok ("tag:yaml.org,2002:" ++ suffix)
  else .error .undefinedTag

/-- The anchor and the tag before a node, in either order. -/
def properties : List Token → Except Error (Properties × List Token)
  | .anchor name :: .tag handle suffix :: rest
  | .tag handle suffix :: .anchor name :: rest =>
    (tagName handle suffix).map fun tag => ({ anchor := some name, tag := some tag }, rest)
  | .anchor name :: rest => .ok ({ anchor := some name }, rest)
  | .tag handle suffix :: rest => (tagName handle suffix).map fun tag => ({ tag := some tag }, rest)
  | rest => .ok ({}, rest)

/-- The node of properties without content. -/
def bare (p : Properties) (rest : List Token) : Except Error (Node Text × List Token) :=
  if p.anchor.isSome || p.tag.isSome then .ok (.scalar p.anchor p.tag [] true, rest)
  else .error .expectedNode

/-- Whether nothing is written between a mark of a block and its next token. -/
def isBlockGap (next : Option Token) : Bool :=
  next = some .key || next = some .value || next = some .blockEnd

/-- Whether nothing is written between a mark of a flow collection and its next token. -/
def isFlowGap (close : Token) (next : Option Token) : Bool :=
  next = some .flowEntry || next = some close

mutual

/-- A node. Only a block may hold a block (`block`), and the value of a key may be a list that is
not indented (`indentless`). -/
def read : (fuel : Nat) → (block indentless : Bool) → List Token →
    Except Error (Node Text × List Token)
  | 0, _, _, _ => .error .expectedNode
  | _, _, _, .alias name :: rest => .ok (.alias name, rest)
  | fuel + 1, block, indentless, tokens => do
    let (p, rest) ← properties tokens
    match rest with
    | .scalar text plain :: rest =>
      return (.scalar p.anchor p.tag text plain, rest)
    | .flowListStart :: rest =>
      let (items, rest) ← readFlowItems fuel true rest
      return (.list p.anchor p.tag items, rest)
    | .flowRecordStart :: rest =>
      let (fields, rest) ← readFlowFields fuel true rest
      return (.record p.anchor p.tag fields, rest)
    | .blockEntry :: _ =>
      if indentless then
        let (items, rest) ← readOpenItems fuel rest
        return (.list p.anchor p.tag items, rest)
      else bare p rest
    | .blockListStart :: rest' =>
      if block then
        let (items, rest) ← readItems fuel rest'
        return (.list p.anchor p.tag items, rest)
      else bare p rest
    | .blockRecordStart :: rest' =>
      if block then
        let (fields, rest) ← readFields fuel rest'
        return (.record p.anchor p.tag fields, rest)
      else bare p rest
    | _ => bare p rest

/-- The items of an indented list. -/
def readItems : (fuel : Nat) → List Token → Except Error (List (Node Text) × List Token)
  | 0, _ => .error .expectedNode
  | _, .blockEnd :: rest => .ok ([], rest)
  | fuel + 1, .blockEntry :: rest => do
    let (item, rest) ←
      if rest.head? = some .blockEntry || rest.head? = some .blockEnd then pure (empty, rest)
      else read fuel true false rest
    let (items, rest) ← readItems fuel rest
    return (item :: items, rest)
  | _, _ => .error .expectedEntry

/-- The items of a list that is not indented. -/
def readOpenItems : (fuel : Nat) → List Token → Except Error (List (Node Text) × List Token)
  | 0, _ => .error .expectedNode
  | fuel + 1, .blockEntry :: rest => do
    let (item, rest) ←
      if rest.head? = some .blockEntry || isBlockGap rest.head? then pure (empty, rest)
      else read fuel true false rest
    let (items, rest) ← readOpenItems fuel rest
    return (item :: items, rest)
  | _, rest => .ok ([], rest)

/-- The fields of a block. -/
def readFields : (fuel : Nat) → List Token →
    Except Error (List (Node Text × Node Text) × List Token)
  | 0, _ => .error .expectedNode
  | _, .blockEnd :: rest => .ok ([], rest)
  | fuel + 1, .key :: rest => do
    let (key, rest) ←
      if isBlockGap rest.head? then pure (empty, rest) else read fuel true true rest
    let (value, rest) ← readValue fuel rest
    let (fields, rest) ← readFields fuel rest
    return ((key, value) :: fields, rest)
  | _, _ => .error .expectedKey

/-- The value of a field of a block. -/
def readValue : (fuel : Nat) → List Token → Except Error (Node Text × List Token)
  | 0, _ => .error .expectedNode
  | fuel + 1, .value :: rest =>
    if isBlockGap rest.head? then .ok (empty, rest) else read fuel true true rest
  | _, rest => .ok (empty, rest)

/-- The items of a flow list. An item may be a single field; where its key is not written, the token
in the place of the key is passed over. -/
def readFlowItems : (fuel : Nat) → (first : Bool) → List Token →
    Except Error (List (Node Text) × List Token)
  | 0, _, _ => .error .expectedNode
  | _, _, .flowListEnd :: rest => .ok ([], rest)
  | fuel + 1, first, tokens => do
    let tokens ← readSeparator first tokens
    match tokens with
    | .flowListEnd :: rest => return ([], rest)
    | .key :: rest =>
      let (key, rest) ←
        if rest.head? = some .value || isFlowGap .flowListEnd rest.head? then
          pure (empty, rest.drop 1)
        else read fuel false false rest
      let (value, rest) ← readFlowValue fuel .flowListEnd rest
      let (items, rest) ← readFlowItems fuel false rest
      return (.record none none [(key, value)] :: items, rest)
    | _ =>
      let (item, rest) ← read fuel false false tokens
      let (items, rest) ← readFlowItems fuel false rest
      return (item :: items, rest)

/-- The fields of a flow record. A field without a colon has no value. -/
def readFlowFields : (fuel : Nat) → (first : Bool) → List Token →
    Except Error (List (Node Text × Node Text) × List Token)
  | 0, _, _ => .error .expectedNode
  | _, _, .flowRecordEnd :: rest => .ok ([], rest)
  | fuel + 1, first, tokens => do
    let tokens ← readSeparator first tokens
    match tokens with
    | .flowRecordEnd :: rest => return ([], rest)
    | .key :: rest =>
      let (key, rest) ←
        if rest.head? = some .value || isFlowGap .flowRecordEnd rest.head? then pure (empty, rest)
        else read fuel false false rest
      let (value, rest) ← readFlowValue fuel .flowRecordEnd rest
      let (fields, rest) ← readFlowFields fuel false rest
      return ((key, value) :: fields, rest)
    | _ =>
      let (key, rest) ← read fuel false false tokens
      let (fields, rest) ← readFlowFields fuel false rest
      return ((key, empty) :: fields, rest)

/-- The value of a field of a flow collection. -/
def readFlowValue : (fuel : Nat) → (close : Token) → List Token →
    Except Error (Node Text × List Token)
  | 0, _, _ => .error .expectedNode
  | fuel + 1, close, .value :: rest =>
    if isFlowGap close rest.head? then .ok (empty, rest) else read fuel false false rest
  | _, _, rest => .ok (empty, rest)

/-- Pass over the comma before an entry, which the first one does not have. -/
def readSeparator (first : Bool) (tokens : List Token) : Except Error (List Token) :=
  if first then .ok tokens
  else
    match tokens with
    | .flowEntry :: rest => .ok rest
    | _ => .error .expectedFlowEnd

end

/-- The tree of a document. -/
def ofTokens (tokens : List Token) : Except Error (Node Text) :=
  if tokens = [] then .ok empty
  else do
    let (node, rest) ← read (3 * tokens.length + 3) true false tokens
    match rest.dropWhile (· = .documentEnd) with
    | [] => return node
    | .documentStart :: _ => throw .severalDocuments
    | _ => throw .directive

/-! ## Anchors -/

/-- The anchors so far: each name with the number of the anchor that it means now. -/
abbrev Anchors := List (Text × Nat)

/-- The anchors once `name` is written again, and its number. -/
def addAnchor (anchors : Anchors) : Option Text → Option Nat × Anchors
  | none => (none, anchors)
  | some name =>
    let number := anchors.length
    (some number, (name, number) :: anchors.filter fun (other, _) => other ≠ name)

mutual

/-- The tree with its anchors numbered, each alias standing for the last anchor of its name. -/
def number (anchors : Anchors) : Node Text → Except Error (Node Nat × Anchors)
  | .alias name =>
    match anchors.lookup name with
    | some number => .ok (.alias number, anchors)
    | none => .error .unknownAnchor
  | .scalar anchor tag text plain =>
    let (anchor, anchors) := addAnchor anchors anchor
    .ok (.scalar anchor tag text plain, anchors)
  | .list anchor tag items => do
    let (anchor, anchors) := addAnchor anchors anchor
    let (items, anchors) ← numberItems anchors items
    return (.list anchor tag items, anchors)
  | .record anchor tag fields => do
    let (anchor, anchors) := addAnchor anchors anchor
    let (fields, anchors) ← numberFields anchors fields
    return (.record anchor tag fields, anchors)

/-- Items with their anchors numbered. -/
def numberItems (anchors : Anchors) : List (Node Text) → Except Error (List (Node Nat) × Anchors)
  | [] => .ok ([], anchors)
  | item :: rest => do
    let (item, anchors) ← number anchors item
    let (rest, anchors) ← numberItems anchors rest
    return (item :: rest, anchors)

/-- Fields with their anchors numbered. -/
def numberFields (anchors : Anchors) :
    List (Node Text × Node Text) → Except Error (List (Node Nat × Node Nat) × Anchors)
  | [] => .ok ([], anchors)
  | (key, value) :: rest => do
    let (key, anchors) ← number anchors key
    let (value, anchors) ← number anchors value
    let (rest, anchors) ← numberFields anchors rest
    return ((key, value) :: rest, anchors)

end

/-- The tree with its anchors numbered. -/
def numbered (node : Node Text) : Except Error (Node Nat) :=
  (number [] node).map Prod.fst

mutual

/-- The nodes that have an anchor, an outer one before those in it. -/
def anchored : Node α → List (α × Node α)
  | .alias _ => []
  | .scalar anchor tag text plain => (anchor.map (·, .scalar anchor tag text plain)).toList
  | .list anchor tag items =>
    (anchor.map (·, .list anchor tag items)).toList ++ anchoredItems items
  | .record anchor tag fields =>
    (anchor.map (·, .record anchor tag fields)).toList ++ anchoredFields fields

/-- The items and what is in them that have an anchor. -/
def anchoredItems : List (Node α) → List (α × Node α)
  | [] => []
  | item :: rest => anchored item ++ anchoredItems rest

/-- The keys and values and what is in them that have an anchor. -/
def anchoredFields : List (Node α × Node α) → List (α × Node α)
  | [] => []
  | (key, value) :: rest => anchored key ++ anchored value ++ anchoredFields rest

end

mutual

/-- How many marks a tree is made of: two for a list or record and one for any other node. -/
def size : Node α → Nat
  | .alias _ => 1
  | .scalar .. => 1
  | .list _ _ items => 2 + sizeItems items
  | .record _ _ fields => 2 + sizeFields fields

/-- The size of items together. -/
def sizeItems : List (Node α) → Nat
  | [] => 0
  | item :: rest => size item + sizeItems rest

/-- The size of fields together. -/
def sizeFields : List (Node α × Node α) → Nat
  | [] => 0
  | (key, value) :: rest => size key + size value + sizeFields rest

end

end Node

end Yaml

end Pagewright
