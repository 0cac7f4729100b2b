import Pagewright.Proofs.Template.ByteSearches
import Pagewright.Proofs.Template.Leftovers

/-!
# Scans that cut between characters

The scans of a template can be run on its bytes: for the calls of a word (`Bytes.calls`), for
regions (`Bytes.regions`) and for leftover calls (`Bytes.leftovers`). They look for openings and
closing words byte by byte, for closing parentheses by a walk that may stand inside of a character,
and cut names, arguments, bodies and what lies between the findings out of the text by the numbers
of bytes. A cut fails when one of its two bytes is not between characters.

None of them does. Each scan comes to an end without an error and with the findings that are read
off the characters (`Bytes.scans_between_characters`), and so do the rewrites that are made of
them, the splitting of arguments and the reading of literals. The findings are cut at places
between characters (`Bytes.CutOut`).
-/

namespace Pagewright

open Text

/-! ## The words of leftover calls -/

namespace Output

theorem lt_of_isNameChar {c : Char} (h : isNameChar c = true) : c.toNat < 128 := by
  have hle : c.val ≤ 'z'.val := by
    rcases Bool.or_eq_true_iff.1 h with halpha | hline
    · rcases Bool.or_eq_true_iff.1 halpha with hupper | hlower
      · exact UInt32.le_trans (of_decide_eq_true hupper).2 (by decide)
      · exact of_decide_eq_true (Bool.and_eq_true_iff.1 hlower).2
    · rw [of_decide_eq_true hline]
      decide
  exact Nat.lt_of_le_of_lt hle (by decide)

/-- The bytes of a word are its letters. -/
theorem octets_of_isNameChar {word : Text} (h : ∀ c ∈ word, isNameChar c) : word.octets = word := by
  induction word with
  | nil => rfl
  | cons c word ih =>
    obtain ⟨hc, hword⟩ := List.forall_mem_cons.1 h
    rw [octets_cons, octets_of_lt (lt_of_isNameChar hc), ih hword, List.singleton_append]

/-- Where a word ends among the characters it ends among the bytes. -/
theorem isNameChar_head?_octets {back : Text} (h : ∀ c ∈ back.head?, isNameChar c = false) :
    ∀ byte ∈ back.octets.head?, isNameChar byte = false := by
  intro byte hbyte
  cases back with
  | nil => cases hbyte
  | cons c back =>
    obtain ⟨first, hfirst, rfl | ⟨hle, -⟩⟩ := Bytes.exists_head?_octets c back
    · obtain rfl := Option.some.inj (hfirst.symm.trans hbyte)
      exact h first rfl
    · obtain rfl := Option.some.inj (hfirst.symm.trans hbyte)
      exact Bool.eq_false_iff.2 fun hname => absurd (lt_of_isNameChar hname) (Nat.not_lt.2 hle)

/-- Behind a word come other bytes where other characters come. -/
theorem takeWhile_octets (text : Text) :
    text.octets.takeWhile isNameChar = text.takeWhile isNameChar := by
  have hname : ∀ c ∈ text.takeWhile isNameChar, isNameChar c :=
    fun c hc => List.mem_takeWhile_imp hc
  have hback : ∀ c ∈ (text.dropWhile isNameChar).head?, isNameChar c = false := by
    intro c hc
    have hnot := List.head?_dropWhile_not isNameChar text
    rw [hc] at hnot
    exact hnot
  have hoctets : text.octets =
      text.takeWhile isNameChar ++ octets (text.dropWhile isNameChar) := by
    conv_lhs => rw [← @List.takeWhile_append_dropWhile _ isNameChar text]
    rw [octets_append, octets_of_isNameChar hname]
  rw [hoctets]
  exact takeWhile_name hname (isNameChar_head?_octets hback)

theorem isNameChar_paren (spaced : Bool) (tail : Text) :
    ∀ c ∈ (Call.paren spaced ++ tail).head?, isNameChar c = false := by
  cases spaced <;> rintro c ⟨⟩ <;> rfl

/-- The call that the opening of a word is the start of, with what follows it. -/
def leftoverAt (name : Text) (spaced : Bool) (tail : Text) : Option Call :=
  if isClaimed name then none
  else (closing? tail).bind fun found =>
    if (firstLine found.2).contains '\x7b' then none else some ⟨name, spaced, found.1⟩

/-- At an opening the reader finds the call that starts there, or passes over the opening. -/
theorem readLeftover_opening {name : Text} (hne : name ≠ []) (hname : ∀ c ∈ name, isNameChar c)
    (spaced : Bool) (tail : Text) :
    readLeftover (Call.opening name spaced ++ tail) =
      some ((leftoverAt name spaced tail).elim ⟨Call.opening name spaced, none⟩ fun call =>
        ⟨call.source, some call⟩) := by
  have hback := isNameChar_paren spaced tail
  have hword := takeWhile_name hname hback
  have hbehind := dropWhile_name hname hback
  have hparen := Call.parenthesis?_paren spaced tail
  rw [Call.opening_append, readLeftover, leftoverAt]
  simp only [hword, hbehind, hparen, if_neg hne]
  by_cases hclaimed : isClaimed name
  · simp only [if_pos hclaimed, Option.elim]
  cases hclosing : closing? tail with
  | none => simp only [if_neg hclaimed, Option.bind_none, Option.elim]
  | some found =>
    by_cases hbrace : (firstLine found.2).contains '\x7b'
    · simp only [if_neg hclaimed, if_pos hbrace, Option.bind_some, Option.elim]
    · simp only [if_neg hclaimed, if_neg hbrace, Option.bind_some, Option.elim]

/-- A word has one byte for each character. -/
theorem byteSize_of_isNameChar {word : Text} (h : ∀ c ∈ word, isNameChar c) :
    word.byteSize = word.length := by
  rw [← length_octets, octets_of_isNameChar h]

/-- What is found is spelled as the call. -/
theorem source_of_readLeftover {text source : Text} {call : Call}
    (h : readLeftover text = some ⟨source, some call⟩) : source = call.source := by
  obtain ⟨rest, spaced, tail, -, -, hpiece | ⟨args, behind, -, -, hpiece⟩⟩ :=
    cases_of_readLeftover h
  · cases hpiece
  · cases hpiece
    rfl

end Output

namespace Bytes

/-! ## Calls -/

/-- The size of `name`, when bytes start with it. -/
def fixedName (name bytes : Text) : Option Nat :=
  (startsWith name bytes).map fun _ => name.byteSize

/-- The call that an opening is the start of, when its parenthesis is closed. -/
def takeCall (text : Text) (opening : Opening) : Except BadSlice (Option (Nat × Nat × Call)) :=
  match matchingParen text.octets (opening.stop - 1) with
  | none => return none
  | some close => do
    let name ← text.checkedSlice (opening.start + 1) opening.nameStop
    let args ← text.checkedSlice opening.stop close
    return some (opening.start, close + 1, ⟨name, opening.spaced, args⟩)

/-- The first call of `name` at or behind byte `pos`. -/
def nextCall (name text : Text) (pos : Nat) : Except BadSlice (Option (Nat × Nat × Call)) :=
  nextWhere (fixedName name) takeCall text pos

/-- The name of an opening is cut out between characters. -/
theorem checkedSlice_name (front name : Text) (spaced : Bool) (tail : Text) :
    checkedSlice (front ++ (Call.opening name spaced ++ tail)) (front.byteSize + 1)
      (Opening.nameStop ⟨front.byteSize, name.byteSize, spaced⟩) = .ok name := by
  refine checkedSlice_eq_ok_iff.2 ⟨front ++ ['@'], Call.paren spaced ++ tail, ?_, ?_, rfl⟩
  · simp [Call.opening_append]
  · exact byteSize_append front ['@']

/-- From an opening on the bytes give the call that the characters give. -/
theorem takeCall_append (front name : Text) (spaced : Bool) (tail : Text) :
    takeCall (front ++ (Call.opening name spaced ++ tail)) ⟨front.byteSize, name.byteSize, spaced⟩ =
      .ok ((closing? tail).map fun found =>
        (front.byteSize, front.byteSize + (Call.source ⟨name, spaced, found.1⟩).byteSize,
          ⟨name, spaced, found.1⟩)) := by
  have hparen := matchingParen_opening_eq front name tail spaced
  rw [List.append_assoc, ← byteSize_append] at hparen
  rw [takeCall, stop_eq, matchingParen_octets, hparen]
  cases hclosing : closing? tail with
  | none => rfl
  | some found =>
    obtain ⟨args, rest⟩ := found
    have htail := eq_append_of_closing? hclosing
    have hargs : checkedSlice (front ++ (Call.opening name spaced ++ tail))
        (front ++ Call.opening name spaced).byteSize
        (front.byteSize + ((Call.opening name spaced).byteSize + args.byteSize)) = .ok args := by
      refine checkedSlice_eq_ok_iff.2 ⟨front ++ Call.opening name spaced, ')' :: rest, ?_, rfl, ?_⟩
      · rw [htail]
        simp
      · rw [byteSize_append, Nat.add_assoc]
    dsimp only [Option.map_some]
    rw [checkedSlice_name, hargs, Call.byteSize_source]
    simp only [Nat.add_assoc]
    rfl

/-- Searching for openings of a name finds the calls of that name. -/
theorem recognises_call (name : Text) :
    Recognises (fixedName name) takeCall (· = name) (Call.read name) where
  faithful := Call.faithful_read name
  here := by
    refine openingHere_octets_iff ?_ ?_
    · intro text size h
      obtain ⟨_, hstarts, rfl⟩ := Option.map_eq_some_iff.1 h
      rw [startsWith_octets] at hstarts
      obtain ⟨back, hback, -⟩ := Option.map_eq_some_iff.1 hstarts
      exact ⟨name, back, rfl, after?_eq_some_iff.1 hback, rfl⟩
    · rintro _ spaced tail rfl
      rw [fixedName, startsWith_octets, after?_append]
      rfl
  opens := by
    intro text piece h
    obtain ⟨spaced, back, rfl, -⟩ := Call.exists_of_read h
    exact ⟨name, spaced, back, rfl, rfl⟩
  takes := by
    rintro front _ spaced tail rfl
    rw [takeCall_append]
    cases hclosing : closing? tail with
    | none => exact .inr ⟨rfl, Call.read_opening_of_not_closing hclosing⟩
    | some found =>
      exact .inl ⟨_, rfl, Call.read_opening_of_closing hclosing⟩

/-- The next call is the one that the scan of characters finds, from any offset inside of the text.
-/
theorem nextCall_eq (name text : Text) (pos : Nat) : nextCall name text pos =
    if pos ≤ text.byteSize then .ok (text.nextCall? name pos) else .error ⟨pos, text.byteSize⟩ :=
  (recognises_call name).finds text pos

/-- Every call that is found lies further on. -/
theorem advances_nextCall (name text : Text) : Advances (nextCall name text) text.byteSize :=
  ((recognises_call name).finds text).advances (Call.faithful_read name)

/-- All calls of `name`. -/
def calls (name text : Text) : Except BadSlice (List (Nat × Nat × Call)) :=
  collect (nextCall name text) (advances_nextCall name text) 0

/-- The text with those calls of `name` replaced for which `f` has an answer. -/
def rewriteCalls (name : Text) (f : Call → Option Text) (text : Text) :
    Except BadSlice (Option Text) := do
  rewriteFound f text (← calls name text)

/-- The calls found among the bytes are those of the text. -/
theorem calls_eq (name text : Text) : calls name text = .ok (text.calls name) :=
  Finds.collect_eq ((recognises_call name).finds text) (Call.faithful_read name)
    (advances_nextCall name text) (List.nil_append text).symm

/-- Replacing calls by their bytes replaces them in the text. -/
theorem rewriteCalls_eq (name : Text) (f : Call → Option Text) (text : Text) :
    rewriteCalls name f text = .ok (Rewrite.calls name f text) := by
  rw [rewriteCalls, calls_eq]
  exact rewriteFound_eq (Call.faithful_read name) f text

/-! ## Regions -/

/-- The region that a call which ends at byte `behind` is the start of: its body ends where the
closing word comes first. -/
def takeRegion (close text : Text) (start behind : Nat) (call : Call) :
    Except BadSlice (Option (Nat × Nat × Region)) := do
  let rest ← text.checkedSlice behind text.byteSize
  match search (startsWith close) 0 rest.octets with
  | none => return none
  | some (size, _) =>
    let body ← text.checkedSlice behind (behind + size)
    return some (start, behind + size + close.byteSize, ⟨call, body, close⟩)

/-- The first region at or behind byte `pos`, which starts with the first call from there on. -/
def nextRegion (name close text : Text) (pos : Nat) :
    Except BadSlice (Option (Nat × Nat × Region)) := do
  match ← nextCall name text pos with
  | none => return none
  | some (start, behind, call) => takeRegion close text start behind call

/-- The closing word that ends a region is found among the bytes where the characters have it. -/
theorem takeRegion_append (close front back : Text) (start : Nat) (call : Call) :
    takeRegion close (front ++ back) start front.byteSize call =
      .ok ((back.cut? close).map fun found =>
        (start, front.byteSize + found.1.byteSize + close.byteSize, ⟨call, found.1, close⟩)) := by
  rw [takeRegion, checkedSlice_rest]
  simp only [bind, Except.bind, search_startsWith]
  cases hcut : back.cut? close with
  | none => rfl
  | some found =>
    have hbody : (front ++ back).checkedSlice front.byteSize (front.byteSize + found.1.byteSize) =
        .ok found.1 := by
      refine checkedSlice_eq_ok_iff.2 ⟨front, close ++ found.2, ?_, rfl, rfl⟩
      rw [eq_append_of_cut? hcut, List.append_assoc found.1]
    simp only [Option.map_some, Nat.zero_add, hbody]
    rfl

/-- The next region is the one that the scan of characters finds, from any offset inside of the
text. -/
theorem nextRegion_eq (name close text : Text) (pos : Nat) : nextRegion name close text pos =
    if pos ≤ text.byteSize then .ok (text.nextRegion? name close pos)
    else .error ⟨pos, text.byteSize⟩ := by
  have hnext := nextCall_eq name text pos
  rw [nextRegion]
  split at hnext
  case isFalse hpos =>
    rw [hnext, if_neg hpos]
    rfl
  case isTrue hpos =>
    rw [if_pos hpos]
    cases hcall : text.nextCall? name pos with
    | none =>
      rw [hnext, hcall, nextRegion?_of_not_call hcall]
      rfl
    | some found =>
      obtain ⟨start, behind, call⟩ := found
      rw [hcall] at hnext
      obtain ⟨front, source, back, htext, -, -, rfl, -⟩ :=
        ((recognises_call name).finds text).exists_of_eq (Call.faithful_read name) hnext
      rw [hnext, nextRegion?_of_call hcall, htext, ← List.append_assoc, ← byteSize_append,
        dropBytes_append]
      exact takeRegion_append close (front ++ source) back start call

/-- Where a search for calls starts anywhere, so does one for regions. -/
theorem nextRegion?_eq (name close : Text) {text : Text} {pos : Nat} (h : pos ≤ text.byteSize) :
    text.nextRegion? name close pos = firstFrom (Region.read name close) text pos := by
  obtain ⟨front, -, htext, -⟩ := exists_drop_octets h
  have hcall : text.nextCall? name pos = text.nextCall? name front.byteSize := by
    have hfirst := @nextCall?_append name front (text.dropBytes pos)
    rw [← htext] at hfirst
    exact (firstFrom_of_eq (Call.read name) htext).trans hfirst.symm
  have hregion := @nextRegion?_append name close front (text.dropBytes pos)
  rw [← htext] at hregion
  rw [firstFrom_of_eq _ htext]
  refine Eq.trans ?_ hregion
  rw [nextRegion?, nextRegion?, hcall]

/-- Searching for regions finds what the reader of regions finds. -/
theorem finds_nextRegion (name close text : Text) :
    Finds (nextRegion name close text) (Region.read name close) text := by
  intro pos
  rw [nextRegion_eq]
  split
  case isTrue hpos => rw [nextRegion?_eq name close hpos]
  case isFalse => rfl

theorem advances_nextRegion (name close text : Text) :
    Advances (nextRegion name close text) text.byteSize :=
  (finds_nextRegion name close text).advances (Region.faithful_read name close)

/-- The regions between calls of `name` and `close`, or the first of them alone. -/
def regions (name close : Text) (onlyFirst : Bool) (text : Text) :
    Except BadSlice (List (Nat × Nat × Region)) :=
  if onlyFirst then do return (← nextRegion name close text 0).toList
  else collect (nextRegion name close text) (advances_nextRegion name close text) 0

/-- The regions found among the bytes are those of the text. -/
theorem regions_eq (name close : Text) (onlyFirst : Bool) (text : Text) :
    regions name close onlyFirst text =
      .ok (if onlyFirst then (text.regions name close).take 1 else text.regions name close) := by
  have hfinds := finds_nextRegion name close text
  have hread := Region.faithful_read name close
  rw [regions]
  cases onlyFirst with
  | true =>
    have hfirst : nextRegion name close text 0 = .ok (text.regions name close).head? :=
      hfinds.next_append (List.nil_append text).symm
    rw [if_pos rfl, if_pos rfl, hfirst, List.take_one]
    rfl
  | false =>
    exact hfinds.collect_eq hread (advances_nextRegion name close text) (List.nil_append text).symm

/-! ## Leftover calls -/

/-- The size of the word that bytes start with. -/
def leadingWord (bytes : Text) : Option Nat :=
  let word := bytes.takeWhile Output.isNameChar
  if word = [] then none else some word.length

/-- The leftover call that an opening is the start of. -/
def takeLeftover (text : Text) (opening : Opening) :
    Except BadSlice (Option (Nat × Nat × Call)) := do
  let name ← text.checkedSlice (opening.start + 1) opening.nameStop
  if Output.isClaimed name then return none
  match ← takeCall text opening with
  | none => return none
  | some (start, stop, call) =>
    let behind ← text.checkedSlice stop text.byteSize
    return if (firstLine behind).contains '\x7b' then none else some (start, stop, call)

/-- From an opening on the bytes give the leftover call that the characters give. -/
theorem takeLeftover_append (front name : Text) (spaced : Bool) (tail : Text) :
    takeLeftover (front ++ (Call.opening name spaced ++ tail))
        ⟨front.byteSize, name.byteSize, spaced⟩ =
      .ok ((Output.leftoverAt name spaced tail).map fun call =>
        (front.byteSize, front.byteSize + call.source.byteSize, call)) := by
  rw [takeLeftover, checkedSlice_name, takeCall_append, Output.leftoverAt]
  simp only [bind, Except.bind, pure, Except.pure]
  by_cases hclaimed : Output.isClaimed name
  · rw [if_pos hclaimed, if_pos hclaimed]
    rfl
  rw [if_neg hclaimed, if_neg hclaimed]
  cases hclosing : closing? tail with
  | none => rfl
  | some found =>
    have hbehind : checkedSlice (front ++ (Call.opening name spaced ++ tail))
        (front.byteSize + (Call.source ⟨name, spaced, found.1⟩).byteSize)
        (front ++ (Call.opening name spaced ++ tail)).byteSize = .ok found.2 := by
      rw [Call.opening_append_of_closing hclosing, ← List.append_assoc, ← byteSize_append]
      exact checkedSlice_rest _ _
    dsimp only [Option.map_some, Option.bind_some]
    rw [hbehind]
    dsimp only
    by_cases hbrace : (firstLine found.2).contains '\x7b'
    · rw [if_pos hbrace, if_pos hbrace]
      rfl
    · rw [if_neg hbrace, if_neg hbrace]
      rfl

/-- Searching for openings of any word finds the leftover calls. -/
theorem recognises_leftover : Recognises leadingWord takeLeftover
    (fun name => name ≠ [] ∧ ∀ c ∈ name, Output.isNameChar c) Output.readLeftover where
  faithful := Output.faithful_readLeftover
  here := by
    refine openingHere_octets_iff ?_ ?_
    · intro text size h
      have hname : ∀ c ∈ text.takeWhile Output.isNameChar, Output.isNameChar c :=
        fun c hc => List.mem_takeWhile_imp hc
      rw [leadingWord, Output.takeWhile_octets] at h
      split at h
      case isTrue => cases h
      case isFalse hne =>
        obtain rfl := Option.some.inj h
        exact ⟨_, text.dropWhile Output.isNameChar, ⟨hne, hname⟩,
          List.takeWhile_append_dropWhile.symm, (Output.byteSize_of_isNameChar hname).symm⟩
    · rintro name spaced tail ⟨hne, hname⟩
      rw [leadingWord, Output.takeWhile_octets,
        Output.takeWhile_name hname (Output.isNameChar_paren spaced tail),
        Output.byteSize_of_isNameChar hname]
      exact if_neg hne
  opens := by
    intro text piece h
    obtain ⟨rest, spaced, tail, rfl, hparen, -⟩ := Output.cases_of_readLeftover h
    refine ⟨rest.takeWhile Output.isNameChar, spaced, tail, ⟨fun hnil => ?_, ?_⟩, ?_⟩
    · rw [Output.readLeftover] at h
      simp only [hnil, if_true] at h
      cases h
    · exact fun c hc => List.mem_takeWhile_imp hc
    · have hbehind : rest.dropWhile Output.isNameChar = Call.paren spaced ++ tail :=
        Call.eq_append_of_parenthesis? hparen
      rw [Call.opening_append, ← hbehind, List.takeWhile_append_dropWhile]
  takes := by
    rintro front name spaced tail ⟨hne, hname⟩
    rw [takeLeftover_append, Output.readLeftover_opening hne hname]
    cases Output.leftoverAt name spaced tail with
    | none => exact .inr ⟨rfl, rfl⟩
    | some call => exact .inl ⟨call, rfl, rfl⟩

theorem advances_leftover (text : Text) :
    Advances (nextWhere leadingWord takeLeftover text) text.byteSize :=
  (recognises_leftover.finds text).advances Output.faithful_readLeftover

/-- All leftover calls. -/
def leftovers (text : Text) : Except BadSlice (List (Nat × Nat × Call)) :=
  collect (nextWhere leadingWord takeLeftover text) (advances_leftover text) 0

/-- The text with its leftover calls turned into conditions. -/
def leftoverCalls (text : Text) : Except BadSlice (Option Text) := do
  rewriteFound (fun call => some (Php.tag ("if (" ++ call.name ++ "(" ++ call.args ++ ")) :")))
    text (← leftovers text)

/-- The leftover calls found among the bytes are those of the text. -/
theorem leftovers_eq (text : Text) :
    leftovers text = .ok (Piece.located 0 (text.pieces Output.readLeftover)) :=
  (recognises_leftover.finds text).collect_eq Output.faithful_readLeftover (advances_leftover text)
    (List.nil_append text).symm

/-- Replacing leftover calls by their bytes replaces them in the text. -/
theorem leftoverCalls_eq (text : Text) : leftoverCalls text = .ok (Output.leftoverCalls text) := by
  rw [leftoverCalls, leftovers_eq]
  exact rewriteFound_eq Output.faithful_readLeftover _ text

/-! ## The places of the cuts -/

/-- The starts of a call behind which it is cut: behind nothing, its mark, its name, its
parenthesis, its arguments and itself. -/
def callCuts (call : Call) : List Text :=
  let opening := Call.opening call.name call.spaced
  [[], ['@'], '@' :: call.name, opening, opening ++ call.args, call.source]

/-- The starts of a region behind which it is cut: those of its call, its body and itself. -/
def regionCuts (region : Region) : List Text :=
  callCuts region.call ++ [region.call.source ++ region.body, region.source]

/-- The word stands between two bytes of the text, which can be cut behind each of some starts of
the word. -/
structure CutOut (text : Text) (start stop : Nat) (word : Text) (cuts : List Text) : Prop where
  stands : text.StandsAt start word
  stop_eq : stop = start + word.byteSize
  boundary : ∀ part ∈ cuts, text.isBoundary (start + part.byteSize) = true

/-- A word that stands in a text can be cut anywhere. -/
theorem cutOut_append (front back : Text) {word : Text} {cuts : List Text}
    (h : ∀ part ∈ cuts, part <+: word) :
    CutOut (front ++ (word ++ back)) front.byteSize (front.byteSize + word.byteSize) word cuts := by
  refine ⟨⟨front, back, (List.append_assoc _ _ _).symm, rfl⟩, rfl, fun part hpart => ?_⟩
  obtain ⟨more, rfl⟩ := h part hpart
  refine isBoundary_iff.2 ⟨front ++ part, more ++ back, ?_, byteSize_append front part⟩
  simp only [List.append_assoc]

/-- A call is cut at ends of its own starts. -/
theorem isPrefix_of_mem_callCuts {call : Call} : ∀ part ∈ callCuts call, part <+: call.source := by
  have hname : '@' :: call.name <+: Call.opening call.name call.spaced := List.prefix_append _ _
  have hargs : Call.opening call.name call.spaced ++ call.args <+: call.source :=
    List.prefix_append _ _
  have hopening := (List.prefix_append _ _).trans hargs
  simp only [callCuts, List.forall_mem_cons, List.not_mem_nil, false_imp_iff, implies_true,
    and_true]
  exact ⟨List.nil_prefix, ⟨_, rfl⟩, hname.trans hopening, hopening, hargs, List.prefix_refl _⟩

theorem isPrefix_of_mem_regionCuts {region : Region} :
    ∀ part ∈ regionCuts region, part <+: region.source := by
  have hbody : region.call.source ++ region.body <+: region.source := List.prefix_append _ _
  intro part hpart
  rcases List.mem_append.1 hpart with hcall | hlast
  · exact ((isPrefix_of_mem_callCuts part hcall).trans (List.prefix_append _ _)).trans hbody
  · rcases List.mem_pair.1 hlast with rfl | rfl
    · exact hbody
    · exact List.prefix_refl _

/-- A reader reads what is spelled by the words that `spelled` gives, and `cuts` are starts of
them. -/
structure Spells {α : Type} (read : Text → Option (Piece α)) (spelled : α → Text)
    (cuts : α → List Text) : Prop where
  faithful : Faithful read
  source : ∀ text source a, read text = some ⟨source, some a⟩ → source = spelled a
  starts : ∀ a, ∀ part ∈ cuts a, part <+: spelled a

section

variable {α : Type} {read : Text → Option (Piece α)} {spelled : α → Text} {cuts : α → List Text}
  (hspells : Spells read spelled cuts) {text : Text} {start stop : Nat} {a : α}

include hspells

/-- What is listed is cut between characters. -/
theorem Spells.cutOut_of_mem (h : (start, stop, a) ∈ Piece.located 0 (text.pieces read)) :
    CutOut text start stop (spelled a) (cuts a) := by
  obtain ⟨front, source, back, rfl, rfl, rfl, hfound⟩ :=
    @Piece.exists_of_mem_located_pieces α read hspells.faithful [] text start stop a h
  obtain rfl := hspells.source _ _ _ hfound
  exact cutOut_append front back (hspells.starts a)

/-- What is found is cut between characters. -/
theorem Spells.cutOut_of_finds {next : Nat → Except BadSlice (Option (Nat × Nat × α))}
    (hfinds : Finds next read text) {pos : Nat} (h : next pos = .ok (some (start, stop, a))) :
    CutOut text start stop (spelled a) (cuts a) := by
  obtain ⟨front, source, back, rfl, -, rfl, rfl, hfound⟩ := hfinds.exists_of_eq hspells.faithful h
  obtain rfl := hspells.source _ _ _ hfound
  exact cutOut_append front back (hspells.starts a)

end

/-- The reader of calls spells out what it finds. -/
theorem spells_call (name : Text) : Spells (Call.read name) Call.source callCuts where
  faithful := Call.faithful_read name
  source _ _ _ := Call.source_of_read
  starts _ := isPrefix_of_mem_callCuts

/-- The reader of regions spells out what it finds. -/
theorem spells_region (name close : Text) :
    Spells (Region.read name close) Region.source regionCuts where
  faithful := Region.faithful_read name close
  source _ _ _ h := (Region.source_of_read h).1
  starts _ := isPrefix_of_mem_regionCuts

theorem spells_leftover : Spells Output.readLeftover Call.source callCuts where
  faithful := Output.faithful_readLeftover
  source _ _ _ := Output.source_of_readLeftover
  starts _ := isPrefix_of_mem_callCuts

/-- The two parentheses stand between characters. -/
theorem isBoundary_of_matchingParen {text : Text} {opening close : Nat}
    (h : text.matchingParen opening = some close) :
    text.isBoundary opening = true ∧ text.isBoundary (opening + 1) = true ∧
      text.isBoundary close = true ∧ text.isBoundary (close + 1) = true := by
  obtain ⟨front, args, back, rfl, -, rfl, rfl⟩ := matchingParen_eq_some_iff.1 h
  have hopen : (front ++ ['(']).byteSize = front.byteSize + 1 := byteSize_append front ['(']
  have hargs : (front ++ '(' :: args).byteSize = front.byteSize + 1 + args.byteSize := by
    rw [← hopen, ← byteSize_append, List.append_assoc, List.singleton_append]
  have hclose : (front ++ '(' :: args ++ [')']).byteSize =
      front.byteSize + 1 + args.byteSize + 1 := by
    rw [← hargs]
    exact byteSize_append _ [')']
  refine ⟨isBoundary_append _ _, isBoundary_iff.2 ⟨_, args ++ ')' :: back, ?_, hopen⟩,
    isBoundary_iff.2 ⟨_, ')' :: back, ?_, hargs⟩, isBoundary_iff.2 ⟨_, back, ?_, hclose⟩⟩ <;> simp

/-- Whatever the scans look for in the bytes of a text, they find what is read off its characters,
and cut it out of the text between characters. So no cut fails: not where a walk goes on inside of
a character behind a backslash, nor where a search starts there. A search that would start behind
the end of the text is refused, and no scan makes one. -/
theorem scans_between_characters (text name close : Text) :
    (∀ opening, matchingParen text.octets opening = text.matchingParen opening) ∧
    (∀ opening stop, text.matchingParen opening = some stop →
      text.isBoundary opening ∧ text.isBoundary (opening + 1) ∧ text.isBoundary stop ∧
        text.isBoundary (stop + 1)) ∧
    splitFirst text = .ok text.splitFirst? ∧
    unquote text = .ok text.unquote? ∧
    (∀ pos, nextCall name text pos =
      if pos ≤ text.byteSize then .ok (text.nextCall? name pos) else .error ⟨pos, text.byteSize⟩) ∧
    (∀ pos start stop call, nextCall name text pos = .ok (some (start, stop, call)) →
      CutOut text start stop call.source (callCuts call)) ∧
    calls name text = .ok (text.calls name) ∧
    (∀ start stop call, (start, stop, call) ∈ text.calls name →
      CutOut text start stop call.source (callCuts call)) ∧
    (∀ f, rewriteCalls name f text = .ok (Rewrite.calls name f text)) ∧
    (∀ pos, nextRegion name close text pos =
      if pos ≤ text.byteSize then .ok (text.nextRegion? name close pos)
      else .error ⟨pos, text.byteSize⟩) ∧
    (∀ pos start stop region, nextRegion name close text pos = .ok (some (start, stop, region)) →
      CutOut text start stop region.source (regionCuts region)) ∧
    (∀ onlyFirst, regions name close onlyFirst text =
      .ok (if onlyFirst then (text.regions name close).take 1 else text.regions name close)) ∧
    (∀ start stop region, (start, stop, region) ∈ text.regions name close →
      CutOut text start stop region.source (regionCuts region)) ∧
    leftovers text = .ok (Piece.located 0 (text.pieces Output.readLeftover)) ∧
    (∀ start stop call, (start, stop, call) ∈ Piece.located 0 (text.pieces Output.readLeftover) →
      CutOut text start stop call.source (callCuts call)) ∧
    leftoverCalls text = .ok (Output.leftoverCalls text) := by
  have hcalls := (recognises_call name).finds text
  have hregions := finds_nextRegion name close text
  refine ⟨matchingParen_octets text, fun _ _ => isBoundary_of_matchingParen, splitFirst_eq text,
    unquote_eq text, nextCall_eq name text, ?_, calls_eq name text, ?_,
    fun f => rewriteCalls_eq name f text, nextRegion_eq name close text, ?_,
    fun onlyFirst => regions_eq name close onlyFirst text, ?_, leftovers_eq text, ?_,
    leftoverCalls_eq text⟩
  · intro pos start stop call h
    exact (spells_call name).cutOut_of_finds hcalls h
  · intro start stop call h
    exact (spells_call name).cutOut_of_mem h
  · intro pos start stop region h
    exact (spells_region name close).cutOut_of_finds hregions h
  · intro start stop region h
    exact (spells_region name close).cutOut_of_mem h
  · intro start stop call h
    exact spells_leftover.cutOut_of_mem h

/-- A character of two bytes stands behind a backslash, and a parenthesis behind it. -/
def accentedCall : Text :=
  "ü@if ('\\é)')ß@endif"

/-- A region with letters of two bytes in its argument and its body. -/
theorem scans_between_characters_accented :
    accentedCall.isBoundary 10 = false ∧
      matchingParen accentedCall.octets 6 = some 13 ∧
      calls "if" accentedCall = .ok [(2, 14, ⟨"if", true, "'\\é)'"⟩)] ∧
      accentedCall.isBoundary 13 ∧
      regions "if" "@endif" false accentedCall =
        .ok [(2, 22, ⟨⟨"if", true, "'\\é)'"⟩, "ß", "@endif"⟩)] ∧
      CutOut accentedCall 2 22 "@if ('\\é)')ß@endif"
        (regionCuts ⟨⟨"if", true, "'\\é)'"⟩, "ß", "@endif"⟩) := by
  have htext : accentedCall = "ü" ++ Call.opening "if" true ++ "'\\é)')ß@endif" := by decide
  have hparen : accentedCall.matchingParen 6 = some 13 := by
    rw [htext]
    exact (matchingParen_opening_eq "ü" "if" "'\\é)')ß@endif" true).trans (by decide)
  have hcalls : accentedCall.calls "if" = [(2, 14, ⟨"if", true, "'\\é)'"⟩)] := by decide
  have hregions : accentedCall.regions "if" "@endif" =
      [(2, 22, ⟨⟨"if", true, "'\\é)'"⟩, "ß", "@endif"⟩)] := by decide
  obtain ⟨hmatching, hlimits, -, -, -, -, hfound, -, -, -, -, hall, hcuts, -⟩ :=
    scans_between_characters accentedCall "if" "@endif"
  refine ⟨by decide, (hmatching 6).trans hparen, hfound.trans (congrArg _ hcalls),
    (hlimits 6 13 hparen).2.2.1, (hall false).trans (congrArg _ hregions), ?_⟩
  exact hcuts 2 22 _ (hregions ▸ List.mem_cons_self)

end Bytes

end Pagewright
