import Pagewright.Proofs.Template.Boundaries
import Pagewright.Proofs.Template.FirstArgument

/-!
# Walks over the bytes of an expression

Closing parentheses, commas and the ends of literals can be looked for among the bytes of a text
instead of its characters (`Bytes.walk`). Such a walk knows nothing of characters: inside of a
literal it skips one byte behind a backslash, and when a longer character stands there it goes on
in the middle of it.

That does no harm. The bytes of a longer character are none that a walk looks for, so it comes to
the end of the character in the state in which it would have passed it as a whole
(`Bytes.resume_block`). Hence a walk stops where the scan of the characters stops
(`Bytes.resume_octets`, for all scans that do at each character what the walk does at a byte,
`Bytes.Follows`), which is in front of a character of ASCII.
-/

namespace Pagewright

open Text

namespace Bytes

/-! ## Walks -/

/-- A walk from byte `i` on, in a literal that ends at `quote` or outside of literals. Outside of
literals and at the end of one, `step` says with what count it goes on, or that it stops there. -/
def walk (step : Nat → Char → Option Nat) (bytes : Text) (quote : Option Char) (count i : Nat) :
    Option Nat :=
  if h : i < bytes.length then
    match quote with
    | some mark =>
      if bytes[i] = '\\' then walk step bytes quote count (i + 2)
      else if bytes[i] = mark then
        match step count bytes[i] with
        | some count => walk step bytes none count (i + 1)
        | none => some i
      else walk step bytes quote count (i + 1)
    | none =>
      match step count bytes[i] with
      | some count =>
        walk step bytes (if isQuote bytes[i] then some bytes[i] else none) count (i + 1)
      | none => some i
  else none
termination_by bytes.length - i

/-- Parentheses are counted, and the walk stops at the one that closes the first. -/
def parenStep (count : Nat) (byte : Char) : Option Nat :=
  if byte = '(' then some (count + 1)
  else if byte = ')' then if count - 1 = 0 then none else some (count - 1)
  else some count

/-- Brackets of all kinds are counted, and the walk stops at a comma when none is open. -/
def commaStep (count : Nat) (byte : Char) : Option Nat :=
  if byte = '(' ∨ byte = '[' ∨ byte = '\x7b' then some (count + 1)
  else if byte = ')' ∨ byte = ']' ∨ byte = '\x7d' then some (count - 1)
  else if byte = ',' ∧ count = 0 then none
  else some count

/-- The byte at which the parenthesis at byte `opening` is closed. -/
def matchingParen (bytes : Text) (opening : Nat) : Option Nat :=
  if bytes[opening]? = some '(' then walk parenStep bytes none 0 opening else none

/-- The first argument and the others, cut apart at a comma. -/
def splitFirst (args : Text) : Except BadSlice (Option (Text × Text)) :=
  match walk commaStep args.octets none 0 0 with
  | some i => do
    let first ← args.checkedSlice 0 i
    let others ← args.checkedSlice (i + 1) args.octets.length
    return some (first.trim, others.trim)
  | none => return none

/-- The inside of an argument that is a literal as a whole. -/
def unquote (argument : Text) : Except BadSlice (Option Text) :=
  let literal := argument.trim
  match literal.octets.head? with
  | some mark =>
    if isQuote mark then
      match walk (fun _ _ => none) literal.octets (some mark) 0 1 with
      | some i =>
        if i = literal.octets.length - 1 then return some (← literal.checkedSlice 1 i)
        else return none
      | none => return none
    else return none
  | none => return none

theorem walk_of_le {step : Nat → Char → Option Nat} {bytes : Text} {i : Nat}
    (h : bytes.length ≤ i) (quote : Option Char) (count : Nat) :
    walk step bytes quote count i = none := by
  rw [walk, dif_neg (Nat.not_lt.2 h)]

/-! ## One byte of a walk -/

/-- Where a walk goes on in a given state. Behind a backslash it skips the next byte. -/
def resume (step : Nat → Char → Option Nat) (bytes : Text) : Quoting → (count i : Nat) → Option Nat
  | .code, count, i => walk step bytes none count i
  | .literal mark, count, i => walk step bytes (some mark) count i
  | .escape mark, count, i => walk step bytes (some mark) count (i + 1)

/-- What becomes of the count at one byte: `step` is asked outside of literals and at their end. -/
def ask (step : Nat → Char → Option Nat) (state : Quoting) (count : Nat) (byte : Char) :
    Option Nat :=
  if state = .code ∨ state.next byte = .code then step count byte else some count

/-- Outside of literals every byte is asked about. -/
theorem ask_code (step : Nat → Char → Option Nat) (count : Nat) (byte : Char) :
    ask step .code count byte = step count byte :=
  if_pos (.inl rfl)

/-- A walk finds nothing behind the end. -/
theorem resume_of_le {step : Nat → Char → Option Nat} {bytes : Text} {i : Nat}
    (h : bytes.length ≤ i) (state : Quoting) (count : Nat) :
    resume step bytes state count i = none := by
  cases state with
  | code => exact walk_of_le h _ _
  | literal mark => exact walk_of_le h _ _
  | escape mark => exact walk_of_le (h.trans (Nat.le_succ i)) _ _

/-- A walk stops at a byte or goes on behind it, in the state in which a scan would. -/
theorem resume_eq {step : Nat → Char → Option Nat} {bytes : Text} {i : Nat} {byte : Char}
    (h : bytes[i]? = some byte) (state : Quoting) (count : Nat) :
    resume step bytes state count i =
      match ask step state count byte with
      | some next => resume step bytes (state.next byte) next (i + 1)
      | none => some i := by
  obtain ⟨hi, rfl⟩ := List.getElem?_eq_some_iff.1 h
  cases state with
  | code =>
    rw [resume, walk, dif_pos hi, ask_code, Quoting.next]
    dsimp only
    cases step count bytes[i] with
    | none => rfl
    | some next => cases isQuote bytes[i] <;> rfl
  | literal mark =>
    rw [resume, walk, dif_pos hi]
    dsimp only
    by_cases hslash : bytes[i] = '\\'
    · rw [if_pos hslash, ask, hslash, next_literal_backslash, if_neg (by simp)]
      rfl
    · rw [if_neg hslash, ask, Quoting.next, if_neg hslash]
      by_cases hmark : bytes[i] = mark
      · rw [if_pos hmark, if_pos hmark, if_pos (.inr rfl)]
        rfl
      · rw [if_neg hmark, if_neg hmark, if_neg (by simp)]
        rfl
  | escape mark => rfl

/-! ## A walk and a scan -/

/-- At each character of ASCII, a scan of characters does what a walk does at a byte, as long as
its state is one of `within`. Its count is `extra` below that of the walk. All other characters and
bytes are passed over. -/
structure Follows (find : Quoting → Nat → Text → Option (Text × Text))
    (step : Nat → Char → Option Nat) (extra : Nat) (within : Quoting → Prop) : Prop where
  marked : ∀ state, within state → IsMarked state
  keep : ∀ state count c next, within state → ask step state count c = some next →
    within (state.next c)
  wide : ∀ state count c, within state → 128 ≤ c.toNat → ask step state count c = some count
  nil : ∀ state depth, find state depth [] = none
  stop : ∀ state depth c rest, within state → ask step state (depth + extra) c = none →
    find state depth (c :: rest) = some ([], rest)
  next : ∀ state depth c count, within state → ask step state (depth + extra) c = some count →
    ∃ left, count = left + extra ∧ ∀ rest, find state depth (c :: rest) =
      (find (state.next c) left rest).map fun (front, rest) => (c :: front, rest)

section

variable {find : Quoting → Nat → Text → Option (Text × Text)} {step : Nat → Char → Option Nat}
  {extra : Nat} {within : Quoting → Prop}

theorem Follows.settled (h : Follows find step extra within) {state : Quoting}
    (hstate : within state) {c : Char} (hc : 128 ≤ c.toNat) : within (settled state) := by
  rw [← next_of_le (h.marked state hstate) hc]
  exact h.keep state 0 c 0 hstate (h.wide state 0 c hstate hc)

/-- A walk stops at bytes that are characters of their own. -/
theorem Follows.lt_of_ask (h : Follows find step extra within) {state : Quoting}
    (hstate : within state) {count : Nat} {c : Char} (hask : ask step state count c = none) :
    c.toNat < 128 := by
  by_contra hc
  cases (h.wide state count c hstate (Nat.not_lt.1 hc)).symm.trans hask

/-- A scan that follows a walk finds a character of ASCII. -/
theorem Follows.exists_of_find (h : Follows find step extra within) {state : Quoting}
    (hstate : within state) {depth : Nat} {text front rest : Text}
    (hfind : find state depth text = some (front, rest)) :
    ∃ c, text = front ++ c :: rest ∧ c.toNat < 128 := by
  induction text generalizing state depth front with
  | nil => cases (h.nil state depth).symm.trans hfind
  | cons c text ih =>
    cases hask : ask step state (depth + extra) c with
    | none =>
      rw [h.stop state depth c text hstate hask] at hfind
      cases hfind
      exact ⟨c, rfl, h.lt_of_ask hstate hask⟩
    | some count =>
      obtain ⟨left, -, hnext⟩ := h.next state depth c count hstate hask
      rw [hnext] at hfind
      obtain ⟨⟨front', rest'⟩, hrest, heq⟩ := Option.map_eq_some_iff.1 hfind
      cases heq
      obtain ⟨d, rfl, hd⟩ := ih (h.keep state _ c _ hstate hask) hrest
      exact ⟨d, rfl, hd⟩

/-- A walk gets over bytes that are not of ASCII, also when it starts behind the first of them. -/
theorem resume_block (h : Follows find step extra within) (before block after : Text)
    (hblock : ∀ byte ∈ block, 128 ≤ byte.toNat) (hne : block ≠ []) {state : Quoting}
    (hstate : within state) (count : Nat) :
    resume step (before ++ (block ++ after)) state count before.length =
      resume step (before ++ (block ++ after)) (settled state) count
        (before.length + block.length) := by
  induction block generalizing before state with
  | nil => exact absurd rfl hne
  | cons byte block ih =>
    obtain ⟨hbyte, hblock⟩ := List.forall_mem_cons.1 hblock
    have hget : (before ++ (byte :: block ++ after))[before.length]? = some byte := by simp
    rw [resume_eq hget, h.wide state count byte hstate hbyte,
      next_of_le (h.marked state hstate) hbyte]
    by_cases hnil : block = []
    · rw [hnil]
      rfl
    · have hrest := ih (before ++ [byte]) hblock hnil (h.settled hstate hbyte)
      rw [settled_settled, List.append_assoc, List.length_append] at hrest
      rw [List.length_cons, Nat.add_comm block.length, ← Nat.add_assoc]
      exact hrest

/-- A walk that does not stop at a character goes on behind it, in the state and with the count of
the scan, whatever it did in between. -/
theorem resume_character (h : Follows find step extra within) {state : Quoting}
    (hstate : within state) {c : Char} {count next : Nat}
    (hask : ask step state count c = some next) (front rest : Text) :
    resume step (front ++ c :: rest).octets state count front.byteSize =
      resume step (front ++ c :: rest).octets (state.next c) next
        (front.byteSize + c.utf8Size) := by
  have hsize : (octets [c]).length = c.utf8Size := length_octets [c]
  by_cases hc : c.toNat < 128
  · have hget : (front ++ c :: rest).octets[front.byteSize]? = some c :=
      (getElem?_octets_iff hc).2 ⟨front, rest, rfl, rfl⟩
    rw [resume_eq hget, hask, ← hsize, octets_of_lt hc]
    rfl
  · have hle := Nat.not_lt.1 hc
    have hne : octets [c] ≠ [] := by simp [octets_singleton]
    obtain rfl : count = next := Option.some.inj ((h.wide state count c hstate hle).symm.trans hask)
    rw [next_of_le (h.marked state hstate) hle, octets_append, octets_cons, ← length_octets front,
      ← hsize]
    exact resume_block h _ _ _ (le_of_mem_octets hle) hne hstate count

/-- A walk over the bytes of a text stops where a scan of its characters stops. -/
theorem resume_octets (h : Follows find step extra within) {state : Quoting}
    (hstate : within state) (depth : Nat) (front rest : Text) :
    resume step (front ++ rest).octets state (depth + extra) front.byteSize =
      (find state depth rest).map fun found => front.byteSize + found.1.byteSize := by
  induction rest generalizing state depth front with
  | nil =>
    rw [h.nil, resume_of_le (by simp [length_octets])]
    rfl
  | cons c rest ih =>
    cases hask : ask step state (depth + extra) c with
    | none =>
      have hc := h.lt_of_ask hstate hask
      have hget : (front ++ c :: rest).octets[front.byteSize]? = some c :=
        (getElem?_octets_iff hc).2 ⟨front, rest, rfl, rfl⟩
      rw [resume_eq hget, hask, h.stop state depth c rest hstate hask]
      rfl
    | some count =>
      obtain ⟨left, rfl, hfind⟩ := h.next state depth c count hstate hask
      have hrest := ih (h.keep state _ c _ hstate hask) left (front ++ [c])
      rw [List.append_assoc, List.singleton_append, byteSize_append, byteSize_cons, byteSize_nil,
        Nat.add_zero] at hrest
      rw [resume_character h hstate hask, hrest, hfind, Option.map_map]
      refine congrArg (Option.map · _) (funext fun found => ?_)
      simp [Nat.add_assoc]

end

/-! ## Parentheses and commas -/

/-- Where quotes count for nothing, only bytes outside of literals are asked about. -/
theorem ask_eq_of_quotes {step : Nat → Char → Option Nat}
    (hquote : ∀ count c, isQuote c = true → step count c = some count) {state : Quoting}
    (hstate : IsMarked state) (count : Nat) (c : Char) :
    ask step state count c = if state = .code then step count c else some count := by
  by_cases hcode : state = .code
  · rw [ask, if_pos (.inl hcode), if_pos hcode]
  · rw [if_neg hcode, ask]
    split
    case isTrue hnext =>
      exact hquote count c (isQuote_of_next_code hstate hcode (hnext.resolve_left hcode))
    case isFalse => rfl

/-- A scan for a mark outside of literals, at depth zero, that counts as a walk does. -/
theorem follows_of_mark {find : Quoting → Nat → Text → Option (Text × Text)}
    {step : Nat → Char → Option Nat} {extra : Nat} (mark : Char)
    (deepen : Quoting → Nat → Char → Nat)
    (hquote : ∀ count c, isQuote c = true → step count c = some count)
    (hwide : ∀ count c, 128 ≤ c.toNat → step count c = some count)
    (hstep : ∀ depth c, step (depth + extra) c =
      if c = mark ∧ depth = 0 then none else some (deepen .code depth c + extra))
    (hinside : ∀ state depth c, state ≠ .code → deepen state depth c = depth)
    (hnil : ∀ state depth, find state depth [] = none)
    (hcons : ∀ state depth c rest, find state depth (c :: rest) =
      if state = .code ∧ c = mark ∧ depth = 0 then some ([], rest)
      else (find (state.next c) (deepen state depth c) rest).map
        fun (front, rest) => (c :: front, rest)) :
    Follows find step extra IsMarked where
  marked := fun _ h => h
  keep := fun _ _ c _ h _ => h.next c
  wide := fun state count c h hc => by
    rw [ask_eq_of_quotes hquote h, hwide count c hc, ite_self]
  nil := hnil
  stop := fun state depth c rest h hask => by
    rw [ask_eq_of_quotes hquote h] at hask
    split at hask
    case isTrue hcode =>
      rw [hstep] at hask
      split at hask
      case isTrue hmark => rw [hcons, if_pos ⟨hcode, hmark⟩]
      case isFalse => cases hask
    case isFalse => cases hask
  next := fun state depth c count h hask => by
    rw [ask_eq_of_quotes hquote h] at hask
    split at hask
    case isTrue hcode =>
      rw [hstep] at hask
      split at hask
      case isTrue => cases hask
      case isFalse hmark =>
        subst hcode
        refine ⟨_, (Option.some.inj hask).symm, fun rest => ?_⟩
        rw [hcons, if_neg fun hstop => hmark hstop.2]
    case isFalse hcode =>
      refine ⟨depth, (Option.some.inj hask).symm, fun rest => ?_⟩
      rw [hcons, if_neg fun hstop => hcode hstop.1, hinside state depth c hcode]

/-- A character that a walk looks for is one of ASCII. -/
theorem ne_of_le {c mark : Char} (hc : 128 ≤ c.toNat) (hmark : mark.toNat < 128) : c ≠ mark := by
  rintro rfl
  omega

/-- The walk for parentheses follows the search for the closing one. -/
theorem follows_closingFrom? : Follows closingFrom? parenStep 1 IsMarked := by
  refine follows_of_mark ')' parenDepth ?_ ?_ ?_ (fun _ _ _ h => if_neg h) (fun _ _ => rfl)
    fun _ _ _ _ => rfl
  · intro count c hquote
    obtain ⟨hopen, hclose⟩ := not_paren_of_isQuote hquote
    rw [parenStep, if_neg hopen, if_neg hclose]
  · intro count c hc
    rw [parenStep, if_neg (ne_of_le hc (by decide)), if_neg (ne_of_le hc (by decide))]
  · intro depth c
    rw [parenStep, parenDepth, if_pos rfl]
    by_cases hclose : c = ')'
    · subst hclose
      cases depth <;> rfl
    · simp only [hclose, false_and, if_false]
      split <;> rfl

/-- The walk for commas follows the search for the first one. -/
theorem follows_commaFrom? : Follows commaFrom? commaStep 0 IsMarked := by
  refine follows_of_mark ',' bracketDepth ?_ ?_ ?_ (fun _ _ _ h => if_neg h) (fun _ _ => rfl)
    fun _ _ _ _ => rfl
  · intro count c hquote
    rcases isQuote_iff.1 hquote with rfl | rfl <;> rfl
  · intro count c hc
    rw [commaStep, if_neg, if_neg, if_neg]
    · exact fun h => ne_of_le hc (by decide) h.1
    · rintro (h | h | h) <;> exact ne_of_le hc (by decide) h
    · rintro (h | h | h) <;> exact ne_of_le hc (by decide) h
  · intro depth c
    rw [commaStep, bracketDepth, if_pos rfl]
    split_ifs <;> simp_all

/-- The parenthesis that closes another one is found among the bytes as among the characters. -/
theorem matchingParen_octets (text : Text) (opening : Nat) :
    matchingParen text.octets opening = text.matchingParen opening := by
  rw [matchingParen]
  split
  case isTrue hopen =>
    have hfirst := @resume_eq parenStep _ _ _ hopen .code 0
    obtain ⟨front, back, rfl, rfl⟩ := (getElem?_octets_iff (by decide)).1 hopen
    have hscan := resume_octets follows_closingFrom? isMarked_code 0 (front ++ ['(']) back
    rw [byteSize_concat_paren, List.append_assoc, List.singleton_append] at hscan
    rw [Text.matchingParen, atByte?_byteSize]
    exact hfirst.trans hscan
  case isFalse hopen =>
    cases hclose : text.matchingParen opening with
    | none => rfl
    | some close => exact absurd (matchingParen_iff_octets.1 hclose).1 hopen

/-- Arguments are cut apart between characters, and at the same comma. -/
theorem splitFirst_eq (args : Text) : splitFirst args = .ok args.splitFirst? := by
  have hwalk : walk commaStep args.octets none 0 0 = _ :=
    resume_octets follows_commaFrom? isMarked_code 0 [] args
  rw [splitFirst, hwalk, splitFirst?]
  cases hcomma : commaFrom? .code 0 args with
  | none => rfl
  | some found =>
    obtain ⟨first, others⟩ := found
    obtain ⟨c, rfl, hc⟩ := follows_commaFrom?.exists_of_find isMarked_code hcomma
    have hsize := byteSize_concat first hc
    have hfirst : checkedSlice (first ++ c :: others) 0 first.byteSize = .ok first :=
      checkedSlice_eq_ok_iff.2 ⟨[], c :: others, rfl, rfl, (Nat.zero_add _).symm⟩
    have hothers : checkedSlice (first ++ c :: others) (first.byteSize + 1)
        (first ++ c :: others).octets.length = .ok others := by
      refine checkedSlice_eq_ok_iff.2 ⟨first ++ [c], [], by simp, hsize, ?_⟩
      rw [length_octets, ← hsize, ← byteSize_append, List.append_assoc, List.singleton_append]
    simp only [Option.map_some, byteSize_nil, Nat.zero_add, hfirst, hothers]
    rfl

/-! ## Literals -/

/-- What stands before and behind the quote that ends a literal. -/
def literalEnd? : Quoting → Text → Option (Text × Text)
  | _, [] => none
  | state, c :: rest =>
    if state.next c = .code then some ([], rest)
    else (literalEnd? (state.next c) rest).map fun (inner, rest) => (c :: inner, rest)

/-- A character that does not end the literal belongs to it. -/
theorem literalFrom?_cons {state : Quoting} {c : Char} (h : state.next c ≠ .code) (rest : Text) :
    literalFrom? state (c :: rest) = (literalFrom? (state.next c) rest).map (c :: ·) := by
  rw [literalFrom?]
  cases hnext : state.next c with
  | code => exact absurd hnext h
  | literal mark => rfl
  | escape mark => rfl

/-- An argument is a literal when its last character is the quote that ends it. -/
theorem literalFrom?_eq (state : Quoting) (text : Text) :
    literalFrom? state text =
      (literalEnd? state text).bind fun found => if found.2 = [] then some found.1 else none := by
  induction text generalizing state with
  | nil => rfl
  | cons c rest ih =>
    by_cases hnext : state.next c = .code
    · rw [literalFrom?, hnext, literalEnd?, if_pos hnext]
      rfl
    · rw [literalFrom?_cons hnext, ih, literalEnd?, if_neg hnext]
      cases literalEnd? (state.next c) rest with
      | none => rfl
      | some found => by_cases hrest : found.2 = [] <;> simp [hrest]

/-- The walk for a quote follows the search for the end of a literal. -/
theorem follows_literalEnd? :
    Follows (fun state _ text => literalEnd? state text) (fun _ _ => none) 0
      fun state => IsMarked state ∧ state ≠ .code where
  marked := fun _ h => h.1
  keep := fun state count c next h hask => by
    refine ⟨h.1.next c, fun hnext => ?_⟩
    rw [ask, if_pos (.inr hnext)] at hask
    cases hask
  wide := fun state count c h hc => by
    rw [ask, next_of_le h.1 hc, if_neg]
    rintro (hcode | hcode)
    · exact h.2 hcode
    · cases state <;> simp_all [settled]
  nil := fun _ _ => rfl
  stop := fun state depth c rest h hask => by
    rw [ask] at hask
    split at hask
    case isTrue hcode => exact if_pos (hcode.resolve_left h.2)
    case isFalse => cases hask
  next := fun state depth c count h hask => by
    rw [ask] at hask
    split at hask
    case isTrue => cases hask
    case isFalse hcode =>
      exact ⟨depth, (Option.some.inj hask).symm, fun rest => if_neg fun hnext => hcode (.inr hnext)⟩

theorem lt_of_isQuote {c : Char} (h : isQuote c = true) : c.toNat < 128 := by
  rcases isQuote_iff.1 h with rfl | rfl <;> decide

/-- The first byte of a text is its first character, or neither of the two is of ASCII. -/
theorem exists_head?_octets (c : Char) (rest : Text) :
    ∃ first, (octets (c :: rest)).head? = some first ∧
      (first = c ∨ 128 ≤ first.toNat ∧ 128 ≤ c.toNat) := by
  by_cases hc : c.toNat < 128
  · refine ⟨c, ?_, .inl rfl⟩
    rw [octets_cons, octets_of_lt hc]
    rfl
  · have hle := Nat.not_lt.1 hc
    obtain ⟨first, inner, hoctets, -⟩ := exists_octets_singleton c
    have hfirst := le_of_mem_octets hle first (by rw [hoctets]; exact List.mem_cons_self)
    refine ⟨first, ?_, .inr ⟨hfirst, hle⟩⟩
    rw [octets_cons, hoctets]
    rfl

theorem isMarked_literal {mark : Char} (h : isQuote mark = true) :
    IsMarked (.literal mark) ∧ Quoting.literal mark ≠ .code :=
  ⟨h, by simp⟩

/-- A walk from behind a quote ends where the literal does. -/
theorem walk_literal {mark : Char} (h : isQuote mark = true) (rest : Text) :
    walk (fun _ _ => none) (octets (mark :: rest)) (some mark) 0 1 =
      (literalEnd? (.literal mark) rest).map fun found => 1 + found.1.byteSize := by
  have hone : byteSize [mark] = 1 := byteSize_concat [] (lt_of_isQuote h)
  have hwalk := resume_octets follows_literalEnd? (isMarked_literal h) 0 [mark] rest
  rwa [hone] at hwalk

/-- The quote that ends a literal is the last byte just when nothing stands behind it. -/
theorem eq_last_iff {mark c : Char} (hmark : mark.toNat < 128) (hc : c.toNat < 128)
    (inner behind : Text) :
    1 + inner.byteSize = (octets (mark :: (inner ++ c :: behind))).length - 1 ↔ behind = [] := by
  rw [length_octets, byteSize_cons, byteSize_append, byteSize_cons, utf8Size_of_lt hmark,
    utf8Size_of_lt hc]
  constructor
  · intro h
    by_contra hne
    have := byteSize_pos hne
    omega
  · rintro rfl
    rw [byteSize_nil]
    omega

/-- A literal is taken out of its quotes between characters. -/
theorem unquote_eq (argument : Text) : unquote argument = .ok argument.unquote? := by
  rw [unquote, unquote?]
  cases hliteral : argument.trim with
  | nil => rfl
  | cons mark rest =>
    obtain ⟨first, hfirst, rfl | ⟨hbyte, hmark⟩⟩ := exists_head?_octets mark rest
    · cases hquote : isQuote first with
      | false =>
        simp only [hfirst, hquote, Bool.false_eq_true, if_false]
        rfl
      | true =>
        simp only [hfirst, hquote, if_true, walk_literal hquote, literalFrom?_eq]
        cases hend : literalEnd? (.literal first) rest with
        | none => rfl
        | some found =>
          obtain ⟨inner, behind⟩ := found
          obtain ⟨c, rfl, hc⟩ :=
            @Follows.exists_of_find _ _ _ _ follows_literalEnd? _ (isMarked_literal hquote) 0 _ _ _
              hend
          simp only [Option.map_some, Option.bind_some, eq_last_iff (lt_of_isQuote hquote) hc]
          by_cases hbehind : behind = []
          · have hslice : checkedSlice (first :: (inner ++ c :: behind)) 1 (1 + inner.byteSize)
                = .ok inner := by
              refine checkedSlice_eq_ok_iff.2 ⟨[first], c :: behind, rfl, ?_, rfl⟩
              exact byteSize_concat [] (lt_of_isQuote hquote)
            rw [if_pos hbehind, if_pos hbehind, hslice]
            rfl
          · rw [if_neg hbehind, if_neg hbehind]
            rfl
    · simp only [hfirst, isQuote_of_le hbyte, isQuote_of_le hmark, Bool.false_eq_true, if_false]
      rfl

end Bytes

end Pagewright
