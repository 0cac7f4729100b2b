import Pagewright.Template.Quoting

/-!
# Argument lists

The argument list of a directive ends at the parenthesis that closes the one before it
(`Text.closing?`), and its first argument ends at the first comma outside literals and brackets
(`Text.splitFirst?`). Parentheses, brackets and commas inside quoted literals do not count.
-/

namespace Pagewright

namespace Text

/-- Number of open parentheses behind the character `c`. -/
def parenDepth (state : Quoting) (depth : Nat) (c : Char) : Nat :=
  if state = .code then
    if c = '(' then depth + 1 else if c = ')' then depth - 1 else depth
  else depth

/-- What stands before and behind the parenthesis that closes an open one, when `depth` more are
open inside it. -/
def closingFrom? : Quoting → (depth : Nat) → Text → Option (Text × Text)
  | _, _, [] => none
  | state, depth, c :: rest =>
    if state = .code ∧ c = ')' ∧ depth = 0 then some ([], rest)
    else
      (closingFrom? (state.next c) (parenDepth state depth c) rest).map
        fun (args, rest) => (c :: args, rest)

/-- The text between an open parenthesis and the one that closes it, and the text behind. The
given text starts behind the open one. -/
def closing? (text : Text) : Option (Text × Text) :=
  closingFrom? .code 0 text

theorem eq_append_of_closingFrom? {state : Quoting} {depth : Nat} {text args rest : Text}
    (h : closingFrom? state depth text = some (args, rest)) : text = args ++ ')' :: rest := by
  induction text generalizing state depth args with
  | nil => simp [closingFrom?] at h
  | cons c text ih =>
    unfold closingFrom? at h
    split at h
    case isTrue hc =>
      simp only [Option.some.injEq, Prod.mk.injEq] at h
      rw [← h.1, ← h.2, hc.2.1, List.nil_append]
    case isFalse =>
      obtain ⟨⟨a, r⟩, ha, hr⟩ := Option.map_eq_some_iff.1 h
      simp only [Prod.mk.injEq] at hr
      rw [← hr.1, ih (hr.2 ▸ ha), List.cons_append]

/-- The arguments, the parenthesis and the rest make up the text. -/
theorem eq_append_of_closing? {text args rest : Text} (h : closing? text = some (args, rest)) :
    text = args ++ ')' :: rest :=
  eq_append_of_closingFrom? h

/-- The byte offset of the parenthesis that closes the one at byte `opening`. -/
def matchingParen (text : Text) (opening : Nat) : Option Nat :=
  match text.atByte? opening with
  | some ('(' :: rest) => (closing? rest).map fun (args, _) => opening + 1 + args.byteSize
  | _ => none

/-- Number of open brackets behind the character `c`, of whatever kind. A closing bracket with
none open changes nothing. -/
def bracketDepth (state : Quoting) (depth : Nat) (c : Char) : Nat :=
  if state = .code then
    if c = '(' ∨ c = '[' ∨ c = '\x7b' then depth + 1
    else if c = ')' ∨ c = ']' ∨ c = '\x7d' then depth - 1
    else depth
  else depth

/-- What stands before and behind the first comma outside literals and brackets. -/
def commaFrom? : Quoting → (depth : Nat) → Text → Option (Text × Text)
  | _, _, [] => none
  | state, depth, c :: rest =>
    if state = .code ∧ c = ',' ∧ depth = 0 then some ([], rest)
    else
      (commaFrom? (state.next c) (bracketDepth state depth c) rest).map
        fun (first, rest) => (c :: first, rest)

/-- The first of several arguments and the text of the others, both trimmed; `none` for a single
argument. -/
def splitFirst? (args : Text) : Option (Text × Text) :=
  (commaFrom? .code 0 args).map fun (first, rest) => (first.trim, rest.trim)

end Text

end Pagewright
