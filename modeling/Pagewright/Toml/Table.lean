import Pagewright.Toml.Moment

/-!
# Tables of a configuration file

A configuration file defines a tree of tables. `Toml.Fields` holds the fields of a table, and every
table remembers how it came to be (`Toml.Origin`), because that decides whether a later line may add
to it: a table is opened by one header at most, one made by dotted keys is never opened by a header,
and one written in line is closed for good.
-/

namespace Pagewright

namespace Toml

/-- How a table came to be. -/
inductive Origin where
  /-- By a header of its own. -/
  | header
  /-- By the header of a table inside it. -/
  | implied
  /-- By a dotted key. -/
  | dotted
  /-- By a value in braces. -/
  | inline
  deriving Repr, DecidableEq

/-- What a name can stand for. No setting is a number, so which number it is does not count. -/
inductive Item where
  | text (s : Text)
  | bool (b : Bool)
  | number
  | moment (moment : Moment)
  | list (items : List Item)
  | table (origin : Origin) (fields : List (Text × Item))
  /-- Tables of one name, each opened by a header in double brackets. -/
  | tables (earlier : List (List (Text × Item))) (last : List (Text × Item))
  deriving Repr

/-- The named items of a table. -/
abbrev Fields := List (Text × Item)

namespace Fields

/-- The fields with the item of a name changed; `f` gets `none` where there is no such item. -/
def alter (name : Text) (f : Option Item → Except Error Item) : Fields → Except Error Fields
  | [] => (f none).map fun item => [(name, item)]
  | (key, item) :: rest =>
    if key = name then (f (some item)).map fun item => (key, item) :: rest
    else (alter name f rest).map ((key, item) :: ·)

/-- Change the table at a path. Tables that are missing on the way are implied; of tables with one
name the last is meant. -/
def below : (path : List Text) → (Fields → Except Error Fields) → Fields → Except Error Fields
  | [], f, fields => f fields
  | name :: path, f, fields =>
    fields.alter name fun item =>
      match item with
      | none => (below path f []).map (.table .implied)
      | some (.table origin fields) =>
        if origin = .inline then .error (.notATable name)
        else (below path f fields).map (.table origin)
      | some (.tables earlier last) => (below path f last).map (.tables earlier)
      | some _ => .error (.notATable name)

/-- A new item. -/
def add (name : Text) (item : Item) (fields : Fields) : Except Error Fields :=
  fields.alter name fun old =>
    match old with
    | none => .ok item
    | some _ => .error (.duplicateKey name)

/-- Open a table by its header. -/
def openTable (name : Text) (fields : Fields) : Except Error Fields :=
  fields.alter name fun item =>
    match item with
    | none => .ok (.table .header [])
    | some (.table .implied fields) => .ok (.table .header fields)
    | some _ => .error (.duplicateKey name)

/-- Open one more table of a name. -/
def openNext (name : Text) (fields : Fields) : Except Error Fields :=
  fields.alter name fun item =>
    match item with
    | none => .ok (.tables [] [])
    | some (.tables earlier last) => .ok (.tables (earlier ++ [last]) [])
    | some _ => .error (.duplicateKey name)

/-- A new item behind a dotted key. The table that it goes into is made of dotted keys; on the way
to it there may also be tables implied by a header. -/
def addDotted : (path : List Text) → (name : Text) → Item → Fields → Except Error Fields
  | [], name, item, fields => fields.add name item
  | table :: path, name, item, fields =>
    fields.alter table fun old =>
      match old with
      | none => (addDotted path name item []).map (.table .dotted)
      | some (.table .dotted fields) => (addDotted path name item fields).map (.table .dotted)
      | some (.table .implied fields) =>
        if path = [] then .error (.duplicateKey name)
        else (addDotted path name item fields).map (.table .implied)
      | some (.tables earlier last) =>
        if path = [] then .error (.duplicateKey name)
        else (addDotted path name item last).map (.tables earlier)
      | some (.table _ _) => .error (.duplicateKey table)
      | some _ => .error (.notATable table)

/-- The item of a name. -/
def get? (fields : Fields) (name : Text) : Option Item :=
  fields.lookup name

end Fields

/-- The only field of a date or time that stands where a table is expected. -/
def momentField : Text := "$__toml_private_datetime"

/-- The fields of an item that can stand for a table. -/
def Item.fields? : Item → Option Fields
  | .table _ fields => some fields
  | .moment m => some [(momentField, .text m.text)]
  | _ => none

end Toml

end Pagewright
