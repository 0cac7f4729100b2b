import Pagewright.Template.Argument
import Pagewright.Text.Piece

/-!
# Directive calls

A call of a directive is `@`, its name, at most one space, and an argument list in parentheses. A
text is searched for the calls of one name from left to right; calls do not overlap, so a call
among the arguments of another is not found, and an opening whose parenthesis is never closed is
passed over (`Call.read`).
-/

namespace Pagewright

/-- A directive with its arguments. -/
structure Call where
  name : Text
  /-- Whether a space stands before the parenthesis. -/
  spaced : Bool
  args : Text
  deriving Repr, DecidableEq

namespace Call

/-- The start of a call, up to its parenthesis. -/
def opening (name : Text) (spaced : Bool) : Text :=
  '@' :: name ++ (if spaced then [' ', '('] else ['('])

/-- The call as it is written. -/
def source (call : Call) : Text :=
  opening call.name call.spaced ++ call.args ++ ")"

/-- Behind a name: whether a space stands before the parenthesis, and what follows it. -/
def parenthesis? : Text → Option (Bool × Text)
  | '(' :: rest => some (false, rest)
  | ' ' :: '(' :: rest => some (true, rest)
  | _ => none

/-- The call of `name` that a text starts with, or its opening alone when that is never closed. -/
def read (name text : Text) : Option (Piece Call) :=
  match (text.after? ('@' :: name)).bind parenthesis? with
  | none => none
  | some (spaced, rest) =>
    match rest.closing? with
    | some (args, _) => some ⟨source ⟨name, spaced, args⟩, some ⟨name, spaced, args⟩⟩
    | none => some ⟨opening name spaced, none⟩

theorem eq_append_of_parenthesis? {text rest : Text} {spaced : Bool}
    (h : parenthesis? text = some (spaced, rest)) :
    text = (if spaced then [' ', '('] else ['(']) ++ rest := by
  unfold parenthesis? at h
  split at h <;> simp_all

/-- What is read as a call is a start of the text. -/
theorem faithful_read (name : Text) : Text.Faithful (read name) := by
  intro text piece h
  unfold read at h
  split at h
  · simp at h
  case h_2 spaced rest hp =>
    obtain ⟨tail, ht, hp⟩ := Option.bind_eq_some_iff.1 hp
    have ht := Text.after?_eq_some_iff.1 ht
    have hr := eq_append_of_parenthesis? hp
    split at h
    case h_1 args rest' hc =>
      have hc := Text.eq_append_of_closing? hc
      obtain rfl := Option.some.inj h
      refine ⟨by simp [source, opening], rest', ?_⟩
      simp [source, opening, ht, hr, hc]
    case h_2 =>
      obtain rfl := Option.some.inj h
      refine ⟨by simp [opening], rest, ?_⟩
      simp [opening, ht, hr]

/-- The pieces of a text, its calls of `name` recognised. -/
def pieces (name text : Text) : List (Piece Call) :=
  text.pieces (read name)

end Call

namespace Text

/-- The calls of `name` in a text, with their byte offsets. -/
def calls (text name : Text) : List (Nat × Nat × Call) :=
  Piece.located 0 (Call.pieces name text)

/-- The first call of `name` at or after byte `start`, with its byte offsets. -/
def nextCall? (text name : Text) (start : Nat) : Option (Nat × Nat × Call) :=
  let rest := text.dropBytes start
  (Piece.located (text.byteSize - rest.byteSize) (Call.pieces name rest)).head?

end Text

end Pagewright
