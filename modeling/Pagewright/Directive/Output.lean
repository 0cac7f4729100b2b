import Pagewright.Directive.Builtin

/-!
# Comments, output tags and leftover calls

These passes run outside the order of the directives. Comments go first. Behind the directives
come the output tags `{!! e !!}` and `{{ e }}`, and a pass for whatever call is left: a call of a
word that no directive claims is a condition computed by a function of the site, closed by
`@end` and a word.
-/

namespace Pagewright

namespace Output

/-! ## Comments -/

/-- The comment that a text starts with. -/
def readComment (text : Text) : Option (Piece Unit) := do
  let rest ← text.after? "\x7b\x7b--"
  let (body, _) ← rest.cut? "--\x7d\x7d"
  return ⟨"\x7b\x7b--" ++ body ++ "--\x7d\x7d", some ()⟩

/-- Removes the comments between `{{--` and `--}}`. -/
def comments : Rewrite := fun text =>
  Piece.rewrite? (fun _ => some []) (text.pieces readComment)

/-! ## Output tags -/

/-- The shortest rest of an expression before blanks and the closing mark `close`, with those
blanks. The expression itself stays on one line. -/
def expressionEnd? (close : Text) : Text → Option (Text × Text)
  | [] => none
  | c :: rest =>
    match Text.after? (Text.trimStart (c :: rest)) close with
    | some _ => some ([], List.takeWhile isBlank (c :: rest))
    | none =>
      if c = '\n' then none
      else (expressionEnd? close rest).map fun (e, blanks) => (c :: e, blanks)

/-- The output tag that a text starts with, and its expression. Blanks around the expression are
not part of it. -/
def readTag (opening close text : Text) : Option (Piece Text) := do
  let rest ← text.after? opening
  let blanks := rest.takeWhile isBlank
  match rest.dropWhile isBlank with
  | [] => none
  | c :: tail =>
    let (e, after) ← expressionEnd? close tail
    return ⟨opening ++ blanks ++ c :: e ++ after ++ close, some (c :: e)⟩

/-- `a or b` is short for `a`, or `b` where that is not set. -/
def coalesce (e : Text) : Text :=
  e.replace " or " " ?? "

/-- `{!! e !!}` shows an expression as it is. -/
def raw : Rewrite := fun text =>
  Piece.rewrite? (fun e => some (Php.tag ("echo " ++ coalesce e ++ ";")))
    (text.pieces (readTag "\x7b!!" "!!\x7d"))

/-- `{{ e }}` shows an expression, or nothing where it is not set; `safe` escapes it for HTML. -/
def echo (safe : Bool) : Rewrite := fun text =>
  Piece.rewrite? (fun e =>
      let value := coalesce (e ++ " or \"\"")
      some (Php.tag
        (if safe then "echo htmlspecialchars(" ++ value ++ ", ENT_QUOTES, 'UTF-8', false);"
          else "echo " ++ value ++ ";")))
    (text.pieces (readTag "\x7b\x7b" "\x7d\x7d"))

/-! ## Leftover calls -/

/-- Letters of a word that may be a function. -/
def isNameChar (c : Char) : Bool :=
  c.isAlpha || c = '_'

/-- Words that belong to the built-in directives: one that is left in a text was not well formed
and stays as it is. -/
def isClaimed (word : Text) : Bool :=
  builtinNames.contains word || word = "slot".toList

/-- The leftover call that a text starts with. It is passed over when a directive claims its word,
when it is never closed, and when a brace follows on the same line, since that is most likely
script or style. -/
def readLeftover (text : Text) : Option (Piece Call) :=
  match text with
  | '@' :: rest =>
    let word := rest.takeWhile isNameChar
    if word = [] then none
    else
      match Call.parenthesis? (rest.dropWhile isNameChar) with
      | none => none
      | some (spaced, tail) =>
        let skipped := some ⟨Call.opening word spaced, none⟩
        if isClaimed word then skipped
        else
          match Text.closing? tail with
          | none => skipped
          | some (args, after) =>
            if (Text.firstLine after).contains '\x7b' then skipped
            else
              let call : Call := ⟨word, spaced, args⟩
              some ⟨call.source, some call⟩
  | _ => none

/-- Leftover calls become conditions. -/
def leftoverCalls : Rewrite := fun text =>
  Piece.rewrite?
    (fun call => some (Php.tag ("if (" ++ call.name ++ "(" ++ call.args ++ ")) :")))
    (text.pieces readLeftover)

/-- The closing word that a text starts with: `@end` and a word that no directive claims. -/
def readLeftoverEnd (text : Text) : Option (Piece Unit) := do
  let rest ← text.after? "@end"
  let word := rest.takeWhile isNameChar
  if word = [] then none
  else return ⟨"@end" ++ word, if isClaimed word then none else some ()⟩

/-- Leftover closing words close conditions. -/
def leftoverEnds : Rewrite := fun text =>
  Piece.rewrite? (fun _ => some (Php.tag "endif;")) (text.pieces readLeftoverEnd)

/-! ## The rules -/

/-- Removes comments. -/
def commentRule : Rule :=
  .ofRewrite "comments" comments

/-- `{!! e !!}`. -/
def rawRule : Rule :=
  .ofRewrite "escaped-output" raw

/-- Leftover calls and their closing words. -/
def leftoverRule : Rule :=
  .ofRewrite "generic-call" (Rewrite.andThen leftoverCalls leftoverEnds)

/-- `{{ e }}`. -/
def echoRule (safe : Bool) : Rule :=
  .ofRewrite "interpolation" (echo safe)

/-- Closes the last tag. -/
def closeTagRule : Rule :=
  .ofRewrite "close-tag" Php.closeTag

end Output

end Pagewright
