import Pagewright.Proofs.Template.ByteWalks
import Pagewright.Proofs.Template.Regions

/-!
# Searches among the bytes of a text

A word can be searched for byte by byte (`Bytes.search`). No word starts in the middle of a
character, so it is found where it stands among the characters (`Bytes.search_startsWith`).

Openings of calls are found in the same way, and a loop goes from one to the next until one of them
is the start of something (`Bytes.nextWhere`). What it takes an opening for, and which names it
looks for, is left open here. `Bytes.Recognises` says when both are told from the bytes as they are
told from the characters, and then the loop finds from every byte of a text on what a scan of the
characters finds first (`Bytes.Recognises.finds`), also from bytes inside of a character.

Such a search can be made again behind each finding, which gives all that the scan lists
(`Bytes.Finds.collect_eq`), and what was found can be replaced by checked cuts that do not fail
(`Bytes.rewriteFound_eq`).
-/

namespace Pagewright

open Text

namespace Call

/-- What stands between the name of a call and its arguments. -/
def paren (spaced : Bool) : Text :=
  if spaced then [' ', '('] else ['(']

theorem opening_append (name : Text) (spaced : Bool) (tail : Text) :
    opening name spaced ++ tail = '@' :: (name ++ (paren spaced ++ tail)) := by
  rw [opening, List.cons_append, List.cons_append, List.append_assoc, paren]

theorem parenthesis?_paren (spaced : Bool) (tail : Text) :
    parenthesis? (paren spaced ++ tail) = some (spaced, tail) := by
  cases spaced <;> rfl

theorem octets_paren (spaced : Bool) : (paren spaced).octets = paren spaced := by
  cases spaced <;> rfl

end Call

namespace Bytes

/-! ## Searching byte by byte -/

/-- The first place from byte `i` on at which `here` finds something, in the bytes from there on. -/
def search {α : Type} (here : Text → Option α) : (i : Nat) → Text → Option (Nat × α)
  | i, [] => (here []).map fun a => (i, a)
  | i, byte :: rest =>
    match here (byte :: rest) with
    | some a => some (i, a)
    | none => search here (i + 1) rest

section

variable {α : Type} {here : Text → Option α}

/-- A search ends at once where there is something. -/
theorem search_of_here {bytes : Text} {a : α} (h : here bytes = some a) (i : Nat) :
    search here i bytes = some (i, a) := by
  cases bytes with
  | nil => rw [search, h, Option.map_some]
  | cons byte rest => rw [search, h]

/-- What is found stands behind bytes that were passed over. -/
theorem exists_of_search {i j : Nat} {bytes : Text} {a : α}
    (h : search here i bytes = some (j, a)) :
    ∃ skipped rest, bytes = skipped ++ rest ∧ j = i + skipped.length ∧ here rest = some a := by
  fun_induction search here i bytes with
  | case1 i =>
    obtain ⟨b, hb, heq⟩ := Option.map_eq_some_iff.1 h
    cases heq
    exact ⟨[], [], rfl, rfl, hb⟩
  | case2 i byte rest b hb =>
    cases h
    exact ⟨[], byte :: rest, rfl, rfl, hb⟩
  | case3 i byte rest hnone ih =>
    obtain ⟨skipped, tail, rfl, rfl, ha⟩ := ih h
    exact ⟨byte :: skipped, tail, rfl, by simp [Nat.add_assoc, Nat.add_comm 1], ha⟩

/-- A search passes over a block in which nothing is found. -/
theorem search_append {block rest : Text} (h : Along (here · = none) block rest) (i : Nat) :
    search here i (block ++ rest) = search here (i + block.length) rest := by
  induction block generalizing i with
  | nil => rfl
  | cons byte block ih =>
    rw [List.cons_append, search, h.1, ih h.2, List.length_cons, Nat.add_assoc,
      Nat.add_comm 1]

/-- Where nothing is found at a byte that goes on with a character, a search passes over characters
as a whole. -/
theorem search_octets_cons (hinner : ∀ byte rest, isInner byte = true → here (byte :: rest) = none)
    {c : Char} {rest : Text} (h : here (octets (c :: rest)) = none) (i : Nat) :
    search here i (octets (c :: rest)) = search here (i + c.utf8Size) rest.octets := by
  obtain ⟨first, inner, hc, -, hbytes⟩ := exists_octets_singleton c
  have hsize : (octets [c]).length = c.utf8Size := length_octets [c]
  rw [octets_cons] at h ⊢
  rw [← hsize]
  refine search_append ?_ i
  rw [hc] at h ⊢
  exact ⟨h, along_of_forall fun byte hbyte t => hinner byte t (hbytes byte hbyte)⟩

end

/-- Whether the bytes of a word come first. -/
def startsWith (word : Text) (bytes : Text) : Option Unit :=
  if word.octets.isPrefixOf bytes then some () else none

/-- Bytes start with a word when the characters do. -/
theorem startsWith_octets (word text : Text) :
    startsWith word text.octets = (text.after? word).map fun _ => () := by
  rw [startsWith]
  split
  case isTrue h =>
    obtain ⟨back, rfl⟩ := octets_isPrefix_iff.1 (List.isPrefixOf_iff_prefix.1 h)
    rw [after?_append]
    rfl
  case isFalse h =>
    cases hafter : text.after? word with
    | none => rfl
    | some back =>
      refine absurd (List.isPrefixOf_iff_prefix.2 (octets_isPrefix_iff.2 ⟨back, ?_⟩)) h
      exact (after?_eq_some_iff.1 hafter).symm

/-- No word starts inside of a character. -/
theorem startsWith_of_isInner {word : Text} (hword : word ≠ []) {byte : Char}
    (h : isInner byte = true) (rest : Text) : startsWith word (byte :: rest) = none := by
  obtain ⟨c, word, rfl⟩ := List.exists_cons_of_ne_nil hword
  obtain ⟨first, inner, hc, hfirst, -⟩ := exists_octets_singleton c
  refine if_neg fun hstarts => ?_
  rw [octets_cons, hc, List.isPrefixOf_iff_prefix, List.cons_append,
    List.cons_prefix_cons] at hstarts
  rw [hstarts.1, h] at hfirst
  cases hfirst

/-- A word is found among the bytes where it is found among the characters. -/
theorem search_startsWith (word text : Text) (i : Nat) :
    search (startsWith word) i text.octets =
      (text.cut? word).map fun found => (i + found.1.byteSize, ()) := by
  induction text generalizing i with
  | nil => cases word <;> exact congrArg (Option.map _) (startsWith_octets _ [])
  | cons c rest ih =>
    have hhere := startsWith_octets word (c :: rest)
    rw [cut?]
    cases hafter : after? (c :: rest) word with
    | some back =>
      rw [hafter] at hhere
      rw [search_of_here hhere]
      rfl
    | none =>
      have hword : word ≠ [] := by
        rintro rfl
        cases hafter
      rw [hafter] at hhere
      rw [search_octets_cons (fun _ rest h => startsWith_of_isInner hword h rest) hhere, ih,
        Option.map_map]
      refine congrArg (Option.map · _) (funext fun found => ?_)
      simp [Nat.add_assoc]

/-! ## Openings -/

/-- An opening among bytes: where it starts, how many bytes its name has, and whether a space stands
before its parenthesis. -/
structure Opening where
  start : Nat
  size : Nat
  spaced : Bool

namespace Opening

/-- Where the name ends. -/
def nameStop (opening : Opening) : Nat :=
  opening.start + 1 + opening.size

/-- The byte behind the parenthesis. -/
def stop (opening : Opening) : Nat :=
  opening.nameStop + if opening.spaced then 2 else 1

end Opening

/-- The opening that bytes start with, as the size of its name and whether a space follows. How many
bytes of a name come first, `word` says. -/
def openingHere (word : Text → Option Nat) : Text → Option (Nat × Bool)
  | '@' :: rest => do
    let size ← word rest
    let (spaced, _) ← Call.parenthesis? (rest.drop size)
    return (size, spaced)
  | _ => none

/-- The first opening at or behind byte `pos`. A search cannot start behind the end of a text. -/
def nextOpening (word : Text → Option Nat) (text : Text) (pos : Nat) :
    Except BadSlice (Option Opening) :=
  if pos ≤ text.octets.length then
    .ok ((search (openingHere word) pos (text.octets.drop pos)).map
      fun (start, size, spaced) => ⟨start, size, spaced⟩)
  else .error ⟨pos, text.octets.length⟩

/-- There is an opening where an `@`, a word and a parenthesis stand. -/
theorem openingHere_eq_some_iff {word : Text → Option Nat} {bytes : Text} {size : Nat}
    {spaced : Bool} :
    openingHere word bytes = some (size, spaced) ↔
      ∃ rest tail, bytes = '@' :: rest ∧ word rest = some size ∧
        Call.parenthesis? (rest.drop size) = some (spaced, tail) := by
  constructor
  · intro h
    unfold openingHere at h
    split at h
    case h_1 rest =>
      obtain ⟨n, hword, h⟩ := Option.bind_eq_some_iff.1 h
      obtain ⟨⟨b, tail⟩, hparen, h⟩ := Option.bind_eq_some_iff.1 h
      cases h
      exact ⟨rest, tail, rfl, hword, hparen⟩
    case h_2 => cases h
  · rintro ⟨rest, tail, rfl, hword, hparen⟩
    exact Option.bind_eq_some_iff.2 ⟨_, hword, Option.bind_eq_some_iff.2 ⟨_, hparen, rfl⟩⟩

/-- An opening ends within the bytes that it was found in. -/
theorem le_of_openingHere {word : Text → Option Nat} {bytes : Text} {size : Nat} {spaced : Bool}
    (h : openingHere word bytes = some (size, spaced)) :
    1 + size + (if spaced then 2 else 1) ≤ bytes.length := by
  obtain ⟨rest, tail, rfl, -, hparen⟩ := openingHere_eq_some_iff.1 h
  have hlength := congrArg List.length (Call.eq_append_of_parenthesis? hparen)
  rw [List.length_drop, List.length_append] at hlength
  rw [List.length_cons]
  cases spaced <;> simp at hlength ⊢ <;> omega

/-- No opening starts inside of a character. -/
theorem openingHere_of_isInner (word : Text → Option Nat) {byte : Char} (h : isInner byte = true)
    (rest : Text) : openingHere word (byte :: rest) = none := by
  have hat : byte ≠ '@' := by
    rintro rfl
    cases h
  rw [openingHere]
  exact fun rest h => hat (List.cons.inj h).1

/-- The next opening lies between where the search starts and the end of the bytes. -/
theorem bounds_of_nextOpening {word : Text → Option Nat} {text : Text} {pos : Nat}
    {opening : Opening} (h : nextOpening word text pos = .ok (some opening)) :
    pos ≤ opening.start ∧ opening.start + 1 < opening.stop ∧ opening.stop ≤ text.octets.length := by
  rw [nextOpening] at h
  split at h
  case isTrue hpos =>
    obtain ⟨⟨start, size, spaced⟩, hfound, rfl⟩ := Option.map_eq_some_iff.1 (Except.ok.inj h)
    obtain ⟨skipped, rest, hbytes, rfl, hhere⟩ := exists_of_search hfound
    have hle := le_of_openingHere hhere
    have hlength := congrArg List.length hbytes
    rw [List.length_drop, List.length_append] at hlength
    have hlast : 0 < if spaced then 2 else 1 := by cases spaced <;> decide
    dsimp only [Opening.stop, Opening.nameStop]
    generalize (if spaced then 2 else 1) = last at hle hlast ⊢
    omega
  case isFalse => cases h

/-! ## The loop over openings -/

/-- The first finding at or behind byte `pos`: `take` says what an opening is the start of. When it
is none, the search goes on behind the opening. -/
def nextWhere (word : Text → Option Nat)
    (take : Text → Opening → Except BadSlice (Option (Nat × Nat × Call))) (text : Text)
    (pos : Nat) : Except BadSlice (Option (Nat × Nat × Call)) :=
  match _h : nextOpening word text pos with
  | .error bad => .error bad
  | .ok none => .ok none
  | .ok (some opening) =>
    match take text opening with
    | .ok none => nextWhere word take text opening.stop
    | found => found
termination_by text.octets.length - pos
decreasing_by
  have := bounds_of_nextOpening _h
  omega

section

variable {word : Text → Option Nat}
  {take : Text → Opening → Except BadSlice (Option (Nat × Nat × Call))} {text : Text} {pos : Nat}

theorem nextWhere_of_error {bad : BadSlice} (h : nextOpening word text pos = .error bad) :
    nextWhere word take text pos = .error bad := by
  rw [nextWhere]
  split
  case h_1 _ hopening => exact congrArg Except.error (Except.error.inj (hopening.symm.trans h))
  case h_2 hopening => cases hopening.symm.trans h
  case h_3 _ hopening => cases hopening.symm.trans h

theorem nextWhere_of_none (h : nextOpening word text pos = .ok none) :
    nextWhere word take text pos = .ok none := by
  rw [nextWhere]
  split
  case h_1 _ hopening => cases hopening.symm.trans h
  case h_2 => rfl
  case h_3 _ hopening => cases hopening.symm.trans h

/-- The loop takes what starts at an opening, or goes on behind its parenthesis. -/
theorem nextWhere_of_some {opening : Opening} (h : nextOpening word text pos = .ok (some opening)) :
    nextWhere word take text pos =
      match take text opening with
      | .ok none => nextWhere word take text opening.stop
      | found => found := by
  rw [nextWhere]
  split
  case h_1 _ hopening => cases hopening.symm.trans h
  case h_2 hopening => cases hopening.symm.trans h
  case h_3 _ hopening =>
    cases hopening.symm.trans h
    rfl

/-- Nothing but the first opening decides what is found. -/
theorem nextWhere_congr {pos' : Nat}
    (h : nextOpening word text pos = nextOpening word text pos') :
    nextWhere word take text pos = nextWhere word take text pos' := by
  cases hopening : nextOpening word text pos' with
  | error bad => rw [nextWhere_of_error (h.trans hopening), nextWhere_of_error hopening]
  | ok found =>
    cases found with
    | none => rw [nextWhere_of_none (h.trans hopening), nextWhere_of_none hopening]
    | some opening => rw [nextWhere_of_some (h.trans hopening), nextWhere_of_some hopening]

end

/-! ## Bytes and characters side by side -/

theorem drop_octets (front rest : Text) :
    (front ++ rest).octets.drop front.byteSize = rest.octets := by
  rw [octets_append, ← length_octets, List.drop_left]

/-- Where `word` tells names apart from what stands behind them, an opening is recognised from its
bytes. -/
theorem openingHere_octets_iff {word : Text → Option Nat} {isName : Text → Prop}
    (hsound : ∀ text size, word text.octets = some size →
      ∃ name rest, isName name ∧ text = name ++ rest ∧ size = name.byteSize)
    (hcomplete : ∀ name spaced tail, isName name →
      word (octets (name ++ (Call.paren spaced ++ tail))) = some name.byteSize)
    (text : Text) (size : Nat) (spaced : Bool) :
    openingHere word text.octets = some (size, spaced) ↔
      ∃ name tail, isName name ∧ text = Call.opening name spaced ++ tail ∧
        size = name.byteSize := by
  rw [openingHere_eq_some_iff]
  constructor
  · rintro ⟨bytes, tail, htext, hword, hbehind⟩
    obtain ⟨rest, rfl⟩ : ['@'] <+: text := octets_isPrefix_iff.1 ⟨bytes, htext.symm⟩
    obtain rfl : octets rest = bytes := (List.cons.inj htext).2
    obtain ⟨name, back, hname, rfl, rfl⟩ := hsound rest size hword
    rw [drop_octets] at hbehind
    have hback : back.octets = Call.paren spaced ++ tail := Call.eq_append_of_parenthesis? hbehind
    rw [← Call.octets_paren] at hback
    obtain ⟨behind, rfl⟩ := octets_isPrefix_iff.1 ⟨tail, hback.symm⟩
    exact ⟨name, behind, hname, (Call.opening_append name spaced behind).symm, rfl⟩
  · rintro ⟨name, tail, hname, rfl, rfl⟩
    refine ⟨octets (name ++ (Call.paren spaced ++ tail)), tail.octets, ?_, ?_, ?_⟩
    · rw [Call.opening_append]
      rfl
    · exact hcomplete name spaced tail hname
    · rw [drop_octets, octets_append, Call.octets_paren, Call.parenthesis?_paren]

/-- The bytes of an opening are found where the characters of it are, for the names that are looked
for, and what it is the start of is told alike from both. -/
structure Recognises (word : Text → Option Nat)
    (take : Text → Opening → Except BadSlice (Option (Nat × Nat × Call))) (isName : Text → Prop)
    (read : Text → Option (Piece Call)) : Prop where
  faithful : Faithful read
  here : ∀ text size spaced, openingHere word text.octets = some (size, spaced) ↔
    ∃ name tail, isName name ∧ text = Call.opening name spaced ++ tail ∧ size = name.byteSize
  opens : ∀ text piece, read text = some piece →
    ∃ name spaced tail, isName name ∧ text = Call.opening name spaced ++ tail
  takes : ∀ front name spaced tail, isName name →
    (∃ call, take (front ++ (Call.opening name spaced ++ tail))
          ⟨front.byteSize, name.byteSize, spaced⟩ =
        .ok (some (front.byteSize, front.byteSize + call.source.byteSize, call)) ∧
      read (Call.opening name spaced ++ tail) = some ⟨call.source, some call⟩) ∨
    take (front ++ (Call.opening name spaced ++ tail)) ⟨front.byteSize, name.byteSize, spaced⟩ =
        .ok none ∧
      read (Call.opening name spaced ++ tail) = some ⟨Call.opening name spaced, none⟩

/-- From between two texts the next opening is searched for in the second. -/
theorem nextOpening_append (word : Text → Option Nat) (front rest : Text) :
    nextOpening word (front ++ rest) front.byteSize =
      .ok ((search (openingHere word) front.byteSize rest.octets).map
        fun (start, size, spaced) => ⟨start, size, spaced⟩) := by
  rw [nextOpening, drop_octets, if_pos (by simp [length_octets])]

/-- The byte behind an opening that stands behind `front`. -/
theorem stop_eq (front name : Text) (spaced : Bool) :
    Opening.stop ⟨front.byteSize, name.byteSize, spaced⟩ =
      (front ++ Call.opening name spaced).byteSize := by
  have hopening : (Call.opening name spaced).byteSize =
      1 + name.byteSize + if spaced then 2 else 1 := by
    rw [Call.opening, byteSize_append]
    cases spaced <;> rfl
  rw [byteSize_append, hopening, Opening.stop, Opening.nameStop, ← Nat.add_assoc, ← Nat.add_assoc]

section

variable {word : Text → Option Nat}
  {take : Text → Opening → Except BadSlice (Option (Nat × Nat × Call))} {isName : Text → Prop}
  {read : Text → Option (Piece Call)}

/-- Where the reader finds nothing there is no opening. -/
theorem Recognises.openingHere_eq_none (h : Recognises word take isName read) {text : Text}
    (hread : read text = none) : openingHere word text.octets = none := by
  cases hhere : openingHere word text.octets with
  | none => rfl
  | some found =>
    obtain ⟨size, spaced⟩ := found
    obtain ⟨name, tail, hname, rfl, -⟩ := (h.here text size spaced).1 hhere
    rcases h.takes [] name spaced tail hname with ⟨call, -, hcall⟩ | ⟨-, hcall⟩ <;>
      cases hread.symm.trans hcall

/-- From the end of a character on, the loop over the bytes finds first what is listed first. -/
theorem Recognises.nextWhere_append (h : Recognises word take isName read) (front rest : Text) :
    nextWhere word take (front ++ rest) front.byteSize =
      .ok (Piece.located front.byteSize (rest.pieces read)).head? := by
  induction rest using pieces_induction h.faithful generalizing front with
  | nil => exact nextWhere_of_none (nextOpening_append word front [])
  | letter c rest hread ih =>
    have hnone := h.openingHere_eq_none hread
    have htext : front ++ c :: rest = front ++ [c] ++ rest := by simp
    have hnext : nextOpening word (front ++ c :: rest) front.byteSize =
        nextOpening word (front ++ c :: rest) (front ++ [c]).byteSize := by
      rw [nextOpening_append,
        search_octets_cons (fun _ rest h => openingHere_of_isInner word h rest) hnone, htext,
        nextOpening_append, byteSize_append]
      rfl
    rw [nextWhere_congr hnext, htext, ih, pieces_of_read_none hread, byteSize_append]
    rfl
  | found piece rest hread ih =>
    obtain ⟨name, spaced, tail, hname, htext⟩ := h.opens _ _ hread
    have hhere := (h.here _ _ _).2 ⟨name, tail, hname, htext, rfl⟩
    have hopening : nextOpening word (front ++ (piece.source ++ rest)) front.byteSize =
        .ok (some ⟨front.byteSize, name.byteSize, spaced⟩) := by
      rw [nextOpening_append, search_of_here hhere]
      rfl
    rw [nextWhere_of_some hopening]
    have hne := (h.faithful _ _ hread).1
    rw [htext] at hread
    rcases h.takes front name spaced tail hname with ⟨call, htake, hcall⟩ | ⟨htake, hcall⟩
    · obtain rfl := Option.some.inj (hread.symm.trans hcall)
      rw [htext, htake, pieces_of_read hcall (by simp [Call.opening]) hne]
      rfl
    · -- An opening that nothing comes of is passed over whole.
      obtain rfl := Option.some.inj (hread.symm.trans hcall)
      obtain rfl : rest = tail := List.append_cancel_left htext
      have hrest := ih (front ++ Call.opening name spaced)
      rw [List.append_assoc] at hrest
      rw [htake, stop_eq, pieces_append_of_read hcall hne]
      dsimp only
      rw [hrest, byteSize_append]
      rfl

end

/-! ## Starting anywhere -/

/-- Behind any byte there are bytes that go on with a character, and then characters. -/
theorem exists_drop_octets {text : Text} {pos : Nat} (h : pos ≤ text.byteSize) :
    ∃ front inner, text = front ++ text.dropBytes pos ∧
      text.octets.drop pos = inner ++ (text.dropBytes pos).octets ∧
      (∀ byte ∈ inner, isInner byte = true) ∧ front.byteSize = pos + inner.length := by
  fun_induction dropBytes pos text with
  | case1 pos =>
    obtain rfl := Nat.le_zero.1 h
    exact ⟨[], [], rfl, rfl, by simp, rfl⟩
  | case2 c text => exact ⟨[], [], rfl, rfl, by simp, rfl⟩
  | case3 pos c text ih =>
    have hsize : (octets [c]).length = c.utf8Size := length_octets [c]
    rw [octets_cons, List.drop_append, hsize]
    rcases Nat.lt_or_ge (pos + 1) c.utf8Size with hlt | hle
    · -- The byte is inside of the first character.
      obtain ⟨first, inner, hc, -, hinner⟩ := exists_octets_singleton c
      rw [hc, List.length_cons] at hsize
      rw [Nat.sub_eq_zero_of_le hlt.le, dropBytes_zero, List.drop_zero, hc, List.drop_succ_cons]
      refine ⟨[c], inner.drop pos, rfl, rfl, fun byte hbyte => ?_, ?_⟩
      · exact hinner byte (List.mem_of_mem_drop hbyte)
      · rw [List.length_drop, byteSize_cons, byteSize_nil]
        omega
    · rw [byteSize_cons] at h
      obtain ⟨front, inner, htext, hdrop, hinner, hfront⟩ := ih (by omega)
      rw [List.drop_of_length_le (by omega), List.nil_append]
      refine ⟨c :: front, inner, congrArg (c :: ·) htext, hdrop, hinner, ?_⟩
      rw [byteSize_cons, hfront]
      omega

/-- A search that starts inside of a character finds what a search behind that character finds. -/
theorem nextOpening_of_le (word : Text → Option Nat) {text : Text} {pos : Nat}
    (h : pos ≤ text.byteSize) :
    ∃ front, text = front ++ text.dropBytes pos ∧
      nextOpening word text pos = nextOpening word text front.byteSize := by
  obtain ⟨front, inner, htext, hdrop, hinner, hfront⟩ := exists_drop_octets h
  refine ⟨front, htext, ?_⟩
  have hskip : search (openingHere word) pos (text.octets.drop pos) =
      search (openingHere word) front.byteSize (text.dropBytes pos).octets := by
    rw [hdrop, hfront]
    exact search_append
      (along_of_forall fun byte hbyte t => openingHere_of_isInner word (hinner byte hbyte) t) pos
  rw [nextOpening, if_pos (h.trans_eq (length_octets text).symm), hskip, ← nextOpening_append,
    ← htext]

/-- What `read` finds first at or behind byte `pos`. -/
def firstFrom {α : Type} (read : Text → Option (Piece α)) (text : Text) (pos : Nat) :
    Option (Nat × Nat × α) :=
  let rest := text.dropBytes pos
  (Piece.located (text.byteSize - rest.byteSize) (rest.pieces read)).head?

/-- A search finds from each byte on what `read` finds first from there on. It cannot start behind
the end of the text. -/
def Finds {α : Type} (next : Nat → Except BadSlice (Option (Nat × Nat × α)))
    (read : Text → Option (Piece α)) (text : Text) : Prop :=
  ∀ pos, next pos =
    if pos ≤ text.byteSize then .ok (firstFrom read text pos) else .error ⟨pos, text.byteSize⟩

/-- From an offset on the first finding is that in the rest of the text. -/
theorem firstFrom_of_eq {α : Type} (read : Text → Option (Piece α)) {text front : Text} {pos : Nat}
    (h : text = front ++ text.dropBytes pos) :
    firstFrom read text pos =
      (Piece.located front.byteSize ((text.dropBytes pos).pieces read)).head? := by
  have hsize := congrArg byteSize h
  rw [byteSize_append] at hsize
  rw [firstFrom, hsize, Nat.add_sub_cancel_right]

/-- The loop over openings may start anywhere. -/
theorem Recognises.finds {word : Text → Option Nat}
    {take : Text → Opening → Except BadSlice (Option (Nat × Nat × Call))} {isName : Text → Prop}
    {read : Text → Option (Piece Call)} (h : Recognises word take isName read) (text : Text) :
    Finds (nextWhere word take text) read text := by
  intro pos
  split
  case isTrue hpos =>
    obtain ⟨front, htext, hopening⟩ := nextOpening_of_le word hpos
    have hnext := h.nextWhere_append front (text.dropBytes pos)
    rw [← htext] at hnext
    rw [nextWhere_congr hopening, hnext, firstFrom_of_eq read htext]
  case isFalse hpos =>
    refine nextWhere_of_error ?_
    rw [nextOpening, length_octets, if_neg hpos]

/-- What is found was read at its place, which is at or behind the byte where the search started. -/
theorem Finds.exists_of_eq {α : Type} {next : Nat → Except BadSlice (Option (Nat × Nat × α))}
    {read : Text → Option (Piece α)} {text : Text} (h : Finds next read text)
    (hread : Faithful read) {pos start stop : Nat} {a : α}
    (hnext : next pos = .ok (some (start, stop, a))) :
    ∃ front source back, text = front ++ (source ++ back) ∧ pos ≤ start ∧ start = front.byteSize ∧
      stop = front.byteSize + source.byteSize ∧ read (source ++ back) = some ⟨source, some a⟩ := by
  rw [h pos] at hnext
  split at hnext
  case isFalse => cases hnext
  case isTrue hpos =>
    obtain ⟨front, inner, htext, -, -, hfront⟩ := exists_drop_octets hpos
    have hfirst := Except.ok.inj hnext
    rw [firstFrom_of_eq read htext] at hfirst
    obtain ⟨gap, source, back, hgap, rfl, rfl, hfound⟩ :=
      Piece.exists_of_mem_located_pieces hread (List.mem_of_mem_head? hfirst)
    refine ⟨front ++ gap, source, back, ?_, ?_, rfl, rfl, hfound⟩
    · rw [List.append_assoc, ← hgap, ← htext]
    · rw [byteSize_append]
      omega

/-! ## All findings -/

/-- What is found from a byte on ends behind that byte and within the first `size` bytes. -/
def Advances {α : Type} (next : Nat → Except BadSlice (Option (Nat × Nat × α))) (size : Nat) :
    Prop :=
  ∀ pos found, next pos = .ok (some found) → pos < found.2.1 ∧ found.2.1 ≤ size

/-- All findings from byte `pos` on, each looked for behind the one before. -/
def collect {α : Type} {size : Nat} (next : Nat → Except BadSlice (Option (Nat × Nat × α)))
    (h : Advances next size) (pos : Nat) : Except BadSlice (List (Nat × Nat × α)) :=
  match _h : next pos with
  | .error bad => .error bad
  | .ok none => .ok []
  | .ok (some found) => do
    let others ← collect next h found.2.1
    return found :: others
termination_by size - pos
decreasing_by
  have := h pos found _h
  omega

section

variable {α : Type} {size : Nat} {next : Nat → Except BadSlice (Option (Nat × Nat × α))}
  (h : Advances next size)

/-- Nothing is collected where nothing is found. -/
theorem collect_of_none {pos : Nat} (hnext : next pos = .ok none) :
    collect next h pos = .ok [] := by
  rw [collect]
  split
  case h_1 _ hfound => cases hfound.symm.trans hnext
  case h_2 => rfl
  case h_3 _ hfound => cases hfound.symm.trans hnext

/-- What is found is collected, and then what is found behind it. -/
theorem collect_of_some {pos : Nat} {found : Nat × Nat × α} (hnext : next pos = .ok (some found)) :
    collect next h pos = (collect next h found.2.1).map (found :: ·) := by
  rw [collect]
  split
  case h_1 _ hfound => cases hfound.symm.trans hnext
  case h_2 hfound => cases hfound.symm.trans hnext
  case h_3 _ hfound =>
    cases hfound.symm.trans hnext
    cases collect next h found.2.1 <;> rfl

/-- What is found ends behind the byte where the search started. -/
theorem Finds.advances {read : Text → Option (Piece α)} {text : Text} (h : Finds next read text)
    (hread : Faithful read) : Advances next text.byteSize := by
  rintro pos ⟨start, stop, a⟩ hnext
  obtain ⟨front, source, back, rfl, hpos, rfl, rfl, hfound⟩ := h.exists_of_eq hread hnext
  have hsize : 0 < source.byteSize := byteSize_pos (hread _ _ hfound).1
  simp only [byteSize_append]
  omega

/-- Between two characters the search finds what is listed first. -/
theorem Finds.next_append {read : Text → Option (Piece α)} {text front rest : Text}
    (h : Finds next read text) (htext : text = front ++ rest) :
    next front.byteSize = .ok (Piece.located front.byteSize (rest.pieces read)).head? := by
  subst htext
  rw [h, if_pos (by simp), firstFrom_of_eq read (by rw [dropBytes_append]), dropBytes_append]

/-- Searches that start where the one before has ended find all that is listed. -/
theorem Finds.collect_eq {read : Text → Option (Piece α)} {text front rest : Text}
    (h : Finds next read text) (hread : Faithful read) (hnext : Advances next size)
    (htext : text = front ++ rest) :
    collect next hnext front.byteSize = .ok (Piece.located front.byteSize (rest.pieces read)) := by
  -- By induction on what is listed: behind its first finding the list is that of the rest of the
  -- text.
  generalize hfound : Piece.located front.byteSize (rest.pieces read) = found
  induction found generalizing front rest with
  | nil =>
    refine collect_of_none hnext ?_
    rw [h.next_append htext, hfound]
    rfl
  | cons x found ih =>
    obtain ⟨start, stop, a⟩ := x
    obtain ⟨gap, source, behind, rfl, -, rfl, rfl⟩ :=
      Piece.exists_of_located_pieces_cons hread hfound
    have hfirst := h.next_append htext
    have hothers := ih (htext.trans (by simp only [List.append_assoc])) rfl
    rw [hfound] at hfirst
    rw [collect_of_some hnext hfirst, hothers]
    rfl

end

/-! ## Replacing what was found -/

/-- As `Text.splice`, with every slice checked. -/
def checkedSplice (text : Text) : (passed : Nat) → (edits : List (Nat × Nat × Text)) →
    Except BadSlice Text
  | passed, [] => text.checkedSlice passed text.byteSize
  | passed, (start, stop, new) :: edits => do
    let gap ← text.checkedSlice passed start
    let others ← checkedSplice text stop edits
    return gap ++ new ++ others

/-- The text in which the findings that `f` has an answer for are replaced by that answer; `none`
when it has none. -/
def rewriteFound {α : Type} (f : α → Option Text) (text : Text) (found : List (Nat × Nat × α)) :
    Except BadSlice (Option Text) :=
  match Piece.edits f found with
  | [] => return none
  | edits => return some (← checkedSplice text 0 edits)

/-- A slice between two boundaries succeeds. -/
theorem checkedSlice_of_isBoundary {text : Text} {start stop : Nat} (hle : start ≤ stop)
    (hstart : text.isBoundary start = true) (hstop : text.isBoundary stop = true) :
    text.checkedSlice start stop = .ok (text.slice start stop) :=
  if_pos ⟨hle, hstart, hstop⟩

/-- The rest of a text can be cut off. -/
theorem checkedSlice_rest (front back : Text) :
    (front ++ back).checkedSlice front.byteSize (front ++ back).byteSize = .ok back :=
  checkedSlice_eq_ok_iff.2 ⟨front, [], by rw [List.append_nil], rfl, byteSize_append front back⟩

/-- Spans that lie between characters, one behind the other, can be replaced. -/
theorem checkedSplice_eq {text : Text} {passed : Nat} {edits : List (Nat × Nat × Text)}
    (hpassed : text.isBoundary passed = true) (hle : ∀ edit ∈ edits, passed ≤ edit.1)
    (hspans : ∀ edit ∈ edits, edit.1 ≤ edit.2.1 ∧ text.isBoundary edit.1 = true ∧
      text.isBoundary edit.2.1 = true)
    (hordered : edits.Pairwise fun a b => a.2.1 ≤ b.1) :
    checkedSplice text passed edits = .ok (text.splice passed edits) := by
  induction edits generalizing passed with
  | nil =>
    obtain ⟨front, back, rfl, rfl⟩ := isBoundary_iff.1 hpassed
    rw [checkedSplice, checkedSlice_rest, splice, dropBytes_append]
  | cons edit edits ih =>
    obtain ⟨hfirst, hothers⟩ := List.pairwise_cons.1 hordered
    obtain ⟨hspan, hspans⟩ := List.forall_mem_cons.1 hspans
    rw [checkedSplice, checkedSlice_of_isBoundary (hle _ List.mem_cons_self) hpassed hspan.2.1,
      ih hspan.2.2 hfirst hspans hothers]
    rfl

/-- The spans of a report lie between characters. -/
theorem isBoundary_of_mem_edits {α : Type} {read : Text → Option (Piece α)} (hread : Faithful read)
    {f : α → Option Text} {text : Text} {edit : Nat × Nat × Text}
    (h : edit ∈ Piece.edits f (Piece.located 0 (text.pieces read))) :
    edit.1 ≤ edit.2.1 ∧ text.isBoundary edit.1 = true ∧ text.isBoundary edit.2.1 = true := by
  obtain ⟨⟨start, stop, a⟩, hmem, hnew⟩ := List.mem_filterMap.1 h
  obtain ⟨new, -, rfl⟩ := Option.map_eq_some_iff.1 hnew
  obtain ⟨front, source, back, rfl, rfl, rfl, -⟩ :=
    @Piece.exists_of_mem_located_pieces α read hread [] _ _ _ _ hmem
  refine ⟨Nat.le_add_right _ _, isBoundary_append _ _, ?_⟩
  rw [List.nil_append, ← byteSize_append, ← List.append_assoc]
  exact isBoundary_append _ _

/-- The edits of a text do not overlap and stand in order. -/
theorem pairwise_edits {α : Type} (f : α → Option Text) (pieces : List (Piece α)) :
    (Piece.edits f (Piece.located 0 pieces)).Pairwise fun a b => a.2.1 ≤ b.1 := by
  refine (Piece.pairwise_located 0 pieces).filterMap _ fun a b hle x hx y hy => ?_
  obtain ⟨new, -, rfl⟩ := Option.map_eq_some_iff.1 hx
  obtain ⟨new', -, rfl⟩ := Option.map_eq_some_iff.1 hy
  exact hle

/-- What a scan reports can be replaced. -/
theorem rewriteFound_eq {α : Type} {read : Text → Option (Piece α)} (hread : Faithful read)
    (f : α → Option Text) (text : Text) :
    rewriteFound f text (Piece.located 0 (text.pieces read)) =
      .ok (Piece.rewrite? f (text.pieces read)) := by
  have hstart : text.isBoundary 0 = true := isBoundary_append [] text
  have hsplice := checkedSplice_eq hstart (fun _ _ => Nat.zero_le _)
    (fun _ => isBoundary_of_mem_edits hread) (pairwise_edits f (text.pieces read))
  rw [rewriteFound]
  cases hrewrite : Piece.rewrite? f (text.pieces read) with
  | none =>
    rw [Piece.rewrite?_eq_none_iff.1 hrewrite]
    rfl
  | some new =>
    have hnew := Piece.eq_splice_of_rewrite? hrewrite
    rw [sources_pieces hread] at hnew
    split
    case h_1 hnone => cases hrewrite.symm.trans (Piece.rewrite?_eq_none_iff.2 hnone)
    case h_2 =>
      rw [hsplice, hnew]
      rfl

end Bytes

end Pagewright
