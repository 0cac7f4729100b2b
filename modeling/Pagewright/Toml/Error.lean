import Pagewright.Text.Basic

/-!
# Errors of a configuration file

Everything that can be wrong with a configuration file (`Toml.Error`), from single characters up to
fields that nobody asked for.
-/

namespace Pagewright

namespace Toml

/-- What can be wrong with a configuration file. -/
inductive Error where
  | unexpectedText
  | controlCharacter
  | badEscape
  | unclosedText
  | badNumber
  | badMoment
  | tooDeep
  | unsupportedValue
  | unknownField (name : Text)
  | duplicateKey (name : Text)
  | notATable (name : Text)
  deriving Repr, DecidableEq

/-- The wording of an error. -/
def Error.message : Error → Text
  | .unexpectedText => "unexpected text"
  | .controlCharacter => "control characters are not allowed"
  | .badEscape => "invalid escape sequence"
  | .unclosedText => "unclosed string"
  | .badNumber => "invalid number"
  | .badMoment => "invalid date or time"
  | .tooDeep => "recursion limit exceeded"
  | .unsupportedValue => "invalid type: expected a string, a boolean, an array or a table"
  | .unknownField name => "unknown field \x60" ++ name ++ "\x60"
  | .duplicateKey name => "duplicate key \x60" ++ name ++ "\x60"
  | .notATable name => "dotted key \x60" ++ name ++ "\x60 attempted to extend a value"

end Toml

end Pagewright
