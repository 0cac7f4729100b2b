import Pagewright.Text.Replace

/-!
# What the program shows

The program shows log lines, each under a topic, and in watch mode a status block that is drawn over
the one before it. `Printed` keeps what is shown as data, and `Printed.text` gives the characters
for the terminal.
-/

namespace Pagewright

/-- One thing that the program shows. -/
inductive Printed where
  /-- A log line. -/
  | log (topic message : Text)
  /-- A status block, drawn over the last `erased` lines. -/
  | status (erased : Nat) (success : Bool) (message : Text)
  /-- A text as it is. -/
  | plain (text : Text)
  deriving Repr, DecidableEq

namespace Console

/-- Characters in a line of a terminal that does not tell how many it has. -/
def usualWidth : Nat := 120

/-- A control sequence of the terminal. -/
def control (code : Text) : Text :=
  '\x1b' :: '[' :: code

/-- The control sequence that ends a style. -/
def plainStyle : Text := control "0m"

/-- A text in a style, which is left out where there are no colors. Where the text itself ends the
style, it begins anew. -/
def styled (color : Bool) (style text : Text) : Text :=
  if color then
    let begin := control (style ++ "m")
    begin ++ text.replace plainStyle (plainStyle ++ begin) ++ plainStyle
  else text

/-- Go up some lines and erase everything from there on. The terminal counts lines in sixteen
bits. -/
def eraseLines (lines : Nat) : Text :=
  if lines = 0 then [] else control (Text.ofNat (lines % 65536) ++ "A") ++ control "J"

/-- The style of a topic: bold, in a color of its own. -/
def topicStyle (topic : Text) : Text :=
  let name := topic.map Char.toLower
  if name = "watch" then "1;92"
  else if name = "compile" then "1;96"
  else if name = "copy" then "1;94"
  else if name = "warn" then "1;95"
  else if name = "error" then "1;91"
  else "1;93"

/-- A message of one line is cut to what fits behind its topic in a line of the terminal; a longer
one is shown whole. -/
def fitted (width : Nat) (topic message : Text) : Text :=
  if '\n' ∈ message then message
  else message.takeBytes (width - (topic.byteSize + 3))

/-- The time of day, from seconds since 1970. -/
def clock (seconds : Nat) : Text :=
  let twoDigits (n : Nat) : Text := if n < 10 then '0' :: Text.ofNat n else Text.ofNat n
  twoDigits (seconds / 3600 % 24) ++ ":" ++ twoDigits (seconds / 60 % 60) ++ ":"
    ++ twoDigits (seconds % 60)

end Console

open Console

/-- The characters that show something in a terminal of some width; `time` is the time of day for
status blocks. -/
def Printed.text (color : Bool) (time : Text) (width : Nat := usualWidth) : Printed → Text
  | .log topic message =>
    control "K" ++ styled color (topicStyle topic) ("[" ++ topic ++ "]") ++ " "
      ++ fitted width topic message ++ "\n"
  | .status erased success message =>
    let symbol := if success then styled color "32" "✓" else styled color "31" "✗"
    eraseLines erased ++ styled color "2" ("[" ++ time ++ "]") ++ " " ++ symbol ++ " " ++ message
      ++ "\n"
  | .plain text => text

end Pagewright
