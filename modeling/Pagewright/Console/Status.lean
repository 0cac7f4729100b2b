import Pagewright.Console.Printed

/-!
# The status block

In watch mode the program keeps one status block on the screen. Each new block takes the place of
the one before it, unless that has been detached because something else was shown below it.
-/

namespace Pagewright

/-- The block on the screen: how many lines it has, zero when there is none to draw over. -/
structure Status where
  lines : Nat := 0
  deriving Repr, DecidableEq

namespace Status

/-- How many lines a message takes. -/
def lineCount (message : Text) : Nat :=
  message.count '\n' + 1

/-- Show a message in the place of the last block. -/
def display (status : Status) (success : Bool) (message : Text) : Printed × Status :=
  (.status status.lines success message, ⟨lineCount message⟩)

/-- Show that something went well. -/
def success (status : Status) (message : Text) : Printed × Status :=
  status.display true message

/-- Show that something failed, and the details of it below. -/
def failure (status : Status) (summary detail : Text) : Printed × Status :=
  status.display false (if detail = [] then summary else summary ++ "\n" ++ detail)

/-- Leave the block where it is; the next one goes below. -/
def detach (_ : Status) : Status :=
  ⟨0⟩

end Status

end Pagewright
