import Pagewright.Text.Blank
import Pagewright.Yaml.Value

/-!
# Front matter

A page may open with its settings, in YAML between two rows of three dashes. `FrontMatter.split?`
finds the block, and `FrontMatter.read` gives the settings and the rest of the text.
-/

namespace Pagewright

/-- What a settings block can be instead of a record. -/
inductive Shape where
  | list
  | text
  | number
  | bool
  deriving Repr, DecidableEq

/-- What can be wrong with the text of a page. -/
inductive PageError where
  | frontMatter (cause : Yaml.Error)
  | shape (found : Shape)
  | outputPath (permalink : Text)
  deriving Repr, DecidableEq

/-- A shape in words. -/
def Shape.words : Shape → Text
  | .list => "a list"
  | .text => "a string"
  | .number => "a number"
  | .bool => "a boolean"

/-- The wording of an error. -/
def PageError.message : PageError → Text
  | .frontMatter _ => "Invalid front matter"
  | .shape found => "Front matter must be a mapping, found " ++ found.words
  | .outputPath permalink => "Invalid output path \x60" ++ permalink ++ "\x60"

namespace FrontMatter

/-- Pass over at most one carriage return and one line feed. -/
def dropBreak (text : Text) : Text :=
  let rest := (text.after? ['\r']).getD text
  (rest.after? ['\n']).getD rest

/-- What follows three dashes. -/
def afterDashes? (text : Text) : Option Text :=
  text.after? "---"

/-- The text before the next three dashes, less the line break before them, and the text behind
them. -/
def closing? : Text → Option (Text × Text)
  | [] => none
  | c :: rest =>
    match afterDashes? (dropBreak (c :: rest)) with
    | some body => some ([], dropBreak body)
    | none => (closing? rest).map fun (block, body) => (c :: block, body)

/-- The settings block at the head of a text, and the body behind it. -/
def split? (text : Text) : Option (Text × Text) :=
  (afterDashes? text).bind fun rest => closing? (dropBreak rest)

/-- The settings in a block. -/
def settings (block : Text) : Except PageError Settings :=
  if block.trim = [] then .ok []
  else
    match Yaml.read block with
    | .error cause => .error (.frontMatter cause)
    | .ok (.record fields) => .ok fields
    | .ok .null => .ok []
    | .ok (.list _) => .error (.shape .list)
    | .ok (.text _) => .error (.shape .text)
    | .ok (.int _) => .error (.shape .number)
    | .ok (.float _) => .error (.shape .number)
    | .ok (.bool _) => .error (.shape .bool)

/-- The settings of a page and its body. A text without a block has no settings. -/
def read (text : Text) : Except PageError (Settings × Text) :=
  match split? text with
  | none => .ok ([], text)
  | some (block, body) => (settings block).map (·, body)

end FrontMatter

end Pagewright
