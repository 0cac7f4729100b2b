import Pagewright.Proofs.Template.Literals
import Pagewright.Proofs.Template.Spans
import Pagewright.Text.Utf8

/-!
# The grammar of argument lists

The scan for a closing parenthesis goes over a text once, with a count of open parentheses and the
state of its quotes. `Text.Grouped` is the grammar behind it: an argument list is made of plain
characters, literals, and argument lists between parentheses. The scan stops where an argument list
of the grammar ends and nowhere else (`Text.closing?_eq_some_iff`). A scan with open parentheses
around it still has to meet as many argument lists, each closed by a parenthesis (`Text.Closes`),
which is what the induction over the scan carries.

The count is never taken below zero: `Text.openCount` counts with sign, and as long as the scan goes
on it agrees with the count of the scan (`Text.closingFrom?_append_of_none`).

Offsets are counted in bytes, so the grammar is also held against the bytes of a text, each taken
for a character (`Text.octets`). To the scan, the bytes of a character outside ASCII are like that
character: nothing that it looks for (`Text.closingFrom?_octets`).
-/

namespace Pagewright

namespace Text

/-! ## The grammar -/

/-- Argument lists: plain characters, literals, and argument lists between parentheses. -/
inductive Grouped : Text → Prop
  | nil : Grouped []
  | plain {c : Char} {rest : Text} (hquote : isQuote c = false) (hopen : c ≠ '(') (hclose : c ≠ ')')
      (h : Grouped rest) : Grouped (c :: rest)
  | literal {mark : Char} {inner rest : Text} (hmark : isQuote mark = true)
      (hinner : Paired (· ≠ mark) inner) (h : Grouped rest) :
      Grouped (mark :: (inner ++ mark :: rest))
  | group {inner rest : Text} (hinner : Grouped inner) (h : Grouped rest) :
      Grouped ('(' :: (inner ++ ')' :: rest))

/-- What a scan reads up to the closing parenthesis when `depth` more are open: an argument list for
each of them, closed by a parenthesis, and one more. -/
def Closes : (depth : Nat) → Text → Prop
  | 0, text => Grouped text
  | depth + 1, text => ∃ inner rest, Grouped inner ∧ Closes depth rest ∧ text = inner ++ ')' :: rest

/-- A text that closes some parentheses still does with balanced text in front. -/
theorem Closes.append {depth : Nat} {text : Text} (h : Closes depth text) (front : Text)
    (hfront : ∀ text, Grouped text → Grouped (front ++ text)) : Closes depth (front ++ text) := by
  cases depth with
  | zero => exact hfront _ h
  | succ depth =>
    obtain ⟨inner, rest, hinner, hrest, rfl⟩ := h
    exact ⟨front ++ inner, rest, hfront _ hinner, hrest, by rw [List.append_assoc]⟩

/-! ## One character of the scan -/

/-- Inside of literals no parenthesis counts. -/
theorem parenDepth_of_ne_code {state : Quoting} (h : state ≠ .code) (depth : Nat) (c : Char) :
    parenDepth state depth c = depth :=
  if_neg h

theorem parenDepth_code_plain {c : Char} (hopen : c ≠ '(') (hclose : c ≠ ')') (depth : Nat) :
    parenDepth .code depth c = depth := by
  rw [parenDepth, if_pos rfl, if_neg hopen, if_neg hclose]

/-- A character that is not the closing parenthesis is passed over. -/
theorem closingFrom?_cons {state : Quoting} {depth : Nat} {c : Char}
    (h : ¬(state = .code ∧ c = ')' ∧ depth = 0)) (rest : Text) :
    closingFrom? state depth (c :: rest) =
      (closingFrom? (state.next c) (parenDepth state depth c) rest).map
        fun (args, rest) => (c :: args, rest) :=
  if_neg h

theorem not_paren_of_isQuote {c : Char} (h : isQuote c = true) : c ≠ '(' ∧ c ≠ ')' := by
  rcases isQuote_iff.1 h with rfl | rfl <;> decide

/-! ## The scan passes what the grammar allows -/

/-- The scan gets over a block from one state to another and has as many parentheses open behind it
as before it. -/
def Passes (state : Quoting) (block : Text) (last : Quoting) : Prop :=
  ∀ depth rest, closingFrom? state depth (block ++ rest) =
    (closingFrom? last depth rest).map fun (args, rest) => (block ++ args, rest)

theorem Passes.nil (state : Quoting) : Passes state [] state := fun _ _ => Option.map_id'.symm

/-- Two blocks that the scan passes are passed one after the other. -/
theorem Passes.append {state between last : Quoting} {a b : Text} (ha : Passes state a between)
    (hb : Passes between b last) : Passes state (a ++ b) last := by
  intro depth rest
  rw [List.append_assoc, ha, hb, Option.map_map]
  simp [Function.comp_def]

/-- A character that opens and closes nothing is passed. -/
theorem Passes.single {state : Quoting} {c : Char}
    (hdepth : ∀ depth, parenDepth state depth c = depth) (hclose : state = .code → c ≠ ')') :
    Passes state [c] (state.next c) := by
  intro depth rest
  rw [List.singleton_append, closingFrom?_cons (fun h => hclose h.1 h.2.1), hdepth]
  rfl

theorem Passes.cons {state last : Quoting} {c : Char} {block : Text}
    (hdepth : ∀ depth, parenDepth state depth c = depth) (hclose : state = .code → c ≠ ')')
    (h : Passes (state.next c) block last) : Passes state (c :: block) last :=
  (Passes.single hdepth hclose).append h

/-- Inside of a literal every character is passed. -/
theorem Passes.cons_inside {state last : Quoting} (hstate : state ≠ .code) (c : Char) {block : Text}
    (h : Passes (state.next c) block last) : Passes state (c :: block) last :=
  .cons (parenDepth_of_ne_code hstate · c) (fun hcode => absurd hcode hstate) h

/-- The scan passes the inside of a literal. -/
theorem passes_of_paired {mark : Char} {inner : Text} (h : Paired (· ≠ mark) inner) :
    Passes (.literal mark) inner (.literal mark) := by
  induction h with
  | nil => exact .nil _
  | bare hc hslash _ ih =>
    refine .cons_inside (by simp) _ ?_
    rwa [next_literal_of_bare hslash hc]
  | pair _ ih =>
    refine .cons_inside (by simp) _ ?_
    rw [next_literal_backslash]
    exact .cons_inside (by simp) _ ih

/-- The scan passes a literal. -/
theorem passes_literal {mark : Char} (hmark : isQuote mark = true) {inner : Text}
    (h : Paired (· ≠ mark) inner) : Passes .code (mark :: (inner ++ [mark])) .code := by
  obtain ⟨hopen, hclose⟩ := not_paren_of_isQuote hmark
  refine .cons (parenDepth_code_plain hopen hclose) (fun _ => hclose) ?_
  rw [next_code_of_isQuote hmark]
  refine (passes_of_paired h).append (.cons_inside (by simp) _ ?_)
  rw [next_literal_mark (ne_backslash_of_isQuote hmark)]
  exact .nil _

/-- An argument list between parentheses is passed as a whole: the scan counts one more inside. -/
theorem passes_group {inner : Text} (h : Passes .code inner .code) :
    Passes .code ('(' :: (inner ++ [')'])) .code := by
  intro depth rest
  have hopen : parenDepth .code depth '(' = depth + 1 := rfl
  have hclose : parenDepth .code (depth + 1) ')' = depth := rfl
  have hcode : ∀ c, isQuote c = false → Quoting.next .code c = .code :=
    fun c => next_code_of_not_isQuote
  rw [List.cons_append, List.append_assoc, closingFrom?_cons (by simp), hopen, hcode '(' rfl, h,
    List.singleton_append, closingFrom?_cons (by simp), hclose, hcode ')' rfl]
  simp only [Option.map_map]
  simp [Function.comp_def]

/-- The scan passes what the grammar groups. -/
theorem passes_of_grouped {args : Text} (h : Grouped args) : Passes .code args .code := by
  induction h with
  | nil => exact .nil _
  | plain hquote hopen hclose _ ih =>
    refine .cons (parenDepth_code_plain hopen hclose) (fun _ => hclose) ?_
    rwa [next_code_of_not_isQuote hquote]
  | literal hmark hinner _ ih => simpa using (passes_literal hmark hinner).append ih
  | group _ _ ihinner ih => simpa using (passes_group ihinner).append ih

/-! ## The grammar behind the scan -/

/-- The grammar takes one more character outside of literals. -/
theorem closes_cons_code {depth : Nat} {c : Char} {text : Text} (hstop : ¬(c = ')' ∧ depth = 0))
    (h : Reads (Closes (parenDepth .code depth c)) (Quoting.next .code c) text) :
    Closes depth (c :: text) := by
  by_cases hquote : isQuote c = true
  · obtain ⟨hopen, hclose⟩ := not_paren_of_isQuote hquote
    rw [next_code_of_isQuote hquote, parenDepth_code_plain hopen hclose] at h
    obtain ⟨inner, rest, hinner, hrest, rfl⟩ := h
    have hfront := hrest.append (c :: (inner ++ [c])) fun text htext => by
      simpa using Grouped.literal hquote hinner htext
    simpa using hfront
  · rw [Bool.not_eq_true] at hquote
    rw [next_code_of_not_isQuote hquote] at h
    by_cases hopen : c = '('
    · subst hopen
      obtain ⟨inner, rest, hinner, hrest, rfl⟩ := h
      have hfront := hrest.append ('(' :: (inner ++ [')'])) fun text htext => by
        simpa using Grouped.group hinner htext
      simpa using hfront
    · by_cases hclose : c = ')'
      · subst hclose
        obtain ⟨depth, rfl⟩ := Nat.exists_eq_succ_of_ne_zero fun hzero => hstop ⟨rfl, hzero⟩
        exact ⟨[], text, .nil, h, rfl⟩
      · rw [parenDepth_code_plain hopen hclose] at h
        exact Closes.append h [c] fun text => .plain hquote hopen hclose

/-- What a scan reads from a character on, from what it reads behind it. -/
theorem reads_closes_cons {state : Quoting} {depth : Nat} {c : Char} {text : Text}
    (hstop : ¬(state = .code ∧ c = ')' ∧ depth = 0))
    (h : Reads (Closes (parenDepth state depth c)) (state.next c) text) :
    Reads (Closes depth) state (c :: text) := by
  by_cases hcode : state = .code
  · subst hcode
    exact closes_cons_code (fun hc => hstop ⟨rfl, hc⟩) h
  · rw [parenDepth_of_ne_code hcode] at h
    exact h.cons hcode

/-- What the scan passes up to the closing parenthesis follows the grammar. -/
theorem reads_of_closingFrom? {state : Quoting} {depth : Nat} {args rest text : Text}
    (h : closingFrom? state depth text = some (args, rest)) :
    Reads (Closes depth) state args := by
  induction text generalizing state depth args with
  | nil => cases h
  | cons c text ih =>
    by_cases hstop : state = .code ∧ c = ')' ∧ depth = 0
    · rw [closingFrom?, if_pos hstop] at h
      obtain ⟨rfl, -, rfl⟩ := hstop
      cases h
      exact Grouped.nil
    · rw [closingFrom?_cons hstop] at h
      obtain ⟨⟨tail, behind⟩, htail, heq⟩ := Option.map_eq_some_iff.1 h
      cases heq
      exact reads_closes_cons hstop (ih htail)

/-- The scan stops where an argument list ends. -/
theorem closing?_eq_some_iff {text args rest : Text} :
    closing? text = some (args, rest) ↔ Grouped args ∧ text = args ++ ')' :: rest := by
  constructor
  · intro h
    exact ⟨reads_of_closingFrom? h, eq_append_of_closing? h⟩
  · rintro ⟨hargs, rfl⟩
    rw [closing?, passes_of_grouped hargs]
    simp [closingFrom?]

/-! ## The count of open parentheses -/

/-- What a character adds to the count of open parentheses. -/
def parenSign (state : Quoting) (c : Char) : Int :=
  if state = .code then if c = '(' then 1 else if c = ')' then -1 else 0 else 0

/-- The parentheses that a text opens outside of literals, less those that it closes. -/
def openCount : Quoting → Text → Int
  | _, [] => 0
  | state, c :: rest => parenSign state c + openCount (state.next c) rest

/-- A parenthesis that the scan does not stop at closes one that it has counted. -/
theorem parenDepth_eq_add {state : Quoting} {depth : Nat} {c : Char}
    (h : ¬(state = .code ∧ c = ')' ∧ depth = 0)) :
    (parenDepth state depth c : Int) = depth + parenSign state c := by
  unfold parenDepth parenSign
  split_ifs with hcode hopen hclose
  · rfl
  · have hdepth : depth ≠ 0 := fun hzero => h ⟨hcode, hclose, hzero⟩
    omega
  · simp
  · simp

/-- As long as a scan goes on, its count is the signed one. -/
theorem closingFrom?_append_of_none {state : Quoting} {depth : Nat} {before : Text}
    (h : closingFrom? state depth before = none) (after : Text) :
    ∃ left : Nat, (left : Int) = depth + openCount state before ∧
      closingFrom? state depth (before ++ after) =
        (closingFrom? (before.foldl Quoting.next state) left after).map
          fun (args, rest) => (before ++ args, rest) := by
  induction before generalizing state depth with
  | nil => exact ⟨depth, by simp [openCount], Option.map_id'.symm⟩
  | cons c before ih =>
    have hstop : ¬(state = .code ∧ c = ')' ∧ depth = 0) := by
      intro hstop
      rw [closingFrom?, if_pos hstop] at h
      cases h
    rw [closingFrom?_cons hstop, Option.map_eq_none_iff] at h
    obtain ⟨left, hleft, hscan⟩ := ih h
    refine ⟨left, ?_, ?_⟩
    · rw [hleft, parenDepth_eq_add hstop, openCount, Int.add_assoc]
    · rw [List.cons_append, closingFrom?_cons hstop, hscan, Option.map_map]
      rfl

/-- Where a scan stops, its last parenthesis is one more than it had open. -/
theorem openCount_of_closingFrom? {state : Quoting} {depth : Nat} {text args rest : Text}
    (h : closingFrom? state depth text = some (args, rest)) :
    depth + openCount state (args ++ [')']) = -1 := by
  induction text generalizing state depth args with
  | nil => cases h
  | cons c text ih =>
    by_cases hstop : state = .code ∧ c = ')' ∧ depth = 0
    · rw [closingFrom?, if_pos hstop] at h
      obtain ⟨rfl, -, rfl⟩ := hstop
      cases h
      rfl
    · rw [closingFrom?_cons hstop] at h
      obtain ⟨⟨tail, behind⟩, htail, heq⟩ := Option.map_eq_some_iff.1 h
      cases heq
      have hcount := ih htail
      rw [parenDepth_eq_add hstop] at hcount
      rw [List.cons_append, openCount]
      omega

/-! ## Bytes -/

/-- The bytes of a text, each of them taken for the character with its number. -/
def octets (text : Text) : Text :=
  text.utf8.map fun byte => Char.ofNat byte.toNat

theorem octets_append (a b : Text) : (a ++ b).octets = a.octets ++ b.octets := by
  simp [octets, utf8]

theorem octets_cons (c : Char) (text : Text) : octets (c :: text) = octets [c] ++ octets text :=
  octets_append [c] text

/-- A text has as many bytes as its size says. -/
theorem length_octets (text : Text) : text.octets.length = text.byteSize := by
  induction text with
  | nil => rfl
  | cons c text ih =>
    rw [octets_cons, List.length_append, ih, byteSize_cons]
    simp [octets, utf8]

theorem octets_singleton (c : Char) :
    octets [c] = (String.utf8EncodeChar c).map fun byte => Char.ofNat byte.toNat := by
  simp [octets, utf8]

theorem toNat_ofNat_byte (byte : UInt8) : (Char.ofNat byte.toNat).toNat = byte.toNat := by
  have hbyte := byte.toNat_lt
  have hvalid : byte.toNat.isValidChar := .inl (by omega)
  rw [Char.ofNat.eq_1, dif_pos hvalid]
  rfl

/-- A character of ASCII is its own byte. -/
theorem octets_of_lt {c : Char} (h : c.toNat < 128) : octets [c] = [c] := by
  have hval : c.val.toNat = c.toNat := rfl
  have hsize : c.utf8Size = 1 := by
    rw [Char.utf8Size_eq_one_iff, UInt32.le_iff_toNat_le, hval]
    exact Nat.le_of_lt_succ h
  have hbyte : c.val.toUInt8.toNat = c.toNat := by
    rw [UInt32.toNat_toUInt8, hval]
    exact Nat.mod_eq_of_lt (by omega)
  rw [octets_singleton, String.utf8EncodeChar_eq_singleton hsize, List.map_singleton, hbyte,
    Char.ofNat_toNat]

theorem le_toNat_ofNat {n : Nat} (h : 128 ≤ n) (hlt : n < 256) : 128 ≤ (UInt8.ofNat n).toNat := by
  rwa [UInt8.toNat_ofNat_of_lt' hlt]

/-- A character outside ASCII has no byte in ASCII. -/
theorem le_of_mem_octets {c : Char} (h : 128 ≤ c.toNat) : ∀ d ∈ octets [c], 128 ≤ d.toNat := by
  have hval : ¬c.val.toNat ≤ 127 := Nat.not_le.2 h
  intro d hd
  rw [octets_singleton, String.utf8EncodeChar.eq_def] at hd
  obtain ⟨byte, hbyte, rfl⟩ := List.mem_map.1 hd
  rw [toNat_ofNat_byte]
  dsimp only at hbyte
  rw [if_neg hval] at hbyte
  split_ifs at hbyte <;> simp only [List.mem_cons, List.not_mem_nil, or_false] at hbyte
  · rcases hbyte with rfl | rfl <;> exact le_toNat_ofNat (by omega) (by omega)
  · rcases hbyte with rfl | rfl | rfl <;> exact le_toNat_ofNat (by omega) (by omega)
  · rcases hbyte with rfl | rfl | rfl | rfl <;> exact le_toNat_ofNat (by omega) (by omega)

/-- The character of ASCII at a byte of a text is a character of the text. -/
theorem getElem?_octets_iff {c : Char} (hc : c.toNat < 128) {text : Text} {n : Nat} :
    text.octets[n]? = some c ↔ ∃ front back, text = front ++ c :: back ∧ front.byteSize = n := by
  constructor
  · intro h
    induction text generalizing n with
    | nil => simp [octets, utf8] at h
    | cons d text ih =>
      rw [octets_cons, List.getElem?_append] at h
      split at h
      case isTrue hlt =>
        have hmem := List.mem_of_getElem? h
        by_cases hd : d.toNat < 128
        · rw [octets_of_lt hd] at hlt hmem
          obtain rfl := List.mem_singleton.1 hmem
          exact ⟨[], text, rfl, (Nat.lt_one_iff.1 hlt).symm⟩
        · have := le_of_mem_octets (Nat.not_lt.1 hd) c hmem
          omega
      case isFalse hle =>
        obtain ⟨front, back, rfl, hsize⟩ := ih h
        refine ⟨d :: front, back, rfl, ?_⟩
        rw [length_octets, byteSize_cons, byteSize_nil] at hsize hle
        rw [byteSize_cons]
        omega
  · rintro ⟨front, back, rfl, rfl⟩
    rw [octets_append, octets_cons, octets_of_lt hc, ← length_octets,
      List.getElem?_append_right (Nat.le_refl _)]
    simp

/-! ## The scan of the bytes -/

theorem isQuote_of_le {c : Char} (h : 128 ≤ c.toNat) : isQuote c = false := by
  rw [← Bool.not_eq_true, isQuote_iff]
  rintro (rfl | rfl) <;> exact absurd h (by decide)

/-- A byte beyond ASCII opens and closes nothing. -/
theorem next_of_le {state : Quoting} (hstate : IsMarked state) {c : Char} (h : 128 ≤ c.toNat) :
    state.next c = settled state :=
  next_of_plain hstate (isQuote_of_le h) (by rintro rfl; exact absurd h (by decide))

theorem passes_of_le {state : Quoting} (hstate : IsMarked state) {c : Char} (h : 128 ≤ c.toNat) :
    Passes state [c] (settled state) := by
  have hopen : c ≠ '(' := by
    rintro rfl
    exact absurd h (by decide)
  have hclose : c ≠ ')' := by
    rintro rfl
    exact absurd h (by decide)
  rw [← next_of_le hstate h]
  refine .single (fun depth => ?_) fun _ => hclose
  rw [parenDepth, if_neg hopen, if_neg hclose, ite_self]

/-- The scan passes bytes beyond ASCII. -/
theorem passes_block_of_le {block : Text} (h : ∀ c ∈ block, 128 ≤ c.toNat) (hne : block ≠ [])
    {state : Quoting} (hstate : IsMarked state) : Passes state block (settled state) := by
  induction block generalizing state with
  | nil => exact absurd rfl hne
  | cons c block ih =>
    obtain ⟨hc, hblock⟩ := List.forall_mem_cons.1 h
    have hfirst := passes_of_le hstate hc
    by_cases hnil : block = []
    · rwa [hnil]
    · exact settled_settled state ▸ hfirst.append (ih hblock hnil hstate.settled)

/-- A scan of the bytes finds what a scan of the characters finds. -/
theorem closingFrom?_octets {state : Quoting} (hstate : IsMarked state) (depth : Nat)
    (text : Text) : closingFrom? state depth text.octets =
      (closingFrom? state depth text).map fun found => (found.1.octets, found.2.octets) := by
  induction text generalizing state depth with
  | nil => rfl
  | cons c text ih =>
    by_cases hc : c.toNat < 128
    · rw [octets_cons, octets_of_lt hc, List.singleton_append]
      by_cases hstop : state = .code ∧ c = ')' ∧ depth = 0
      · rw [closingFrom?, if_pos hstop, closingFrom?, if_pos hstop]
        rfl
      · rw [closingFrom?_cons hstop, closingFrom?_cons hstop, ih (hstate.next c), Option.map_map,
          Option.map_map]
        refine congrArg (Option.map · _) (funext fun found => ?_)
        have hfront : octets (c :: found.1) = c :: octets found.1 := by
          rw [octets_cons, octets_of_lt hc, List.singleton_append]
        exact congrArg (·, found.2.octets) hfront.symm
    · have hle := Nat.not_lt.1 hc
      have hne : octets [c] ≠ [] := by simp [octets_singleton]
      have hbytes := passes_block_of_le (le_of_mem_octets hle) hne hstate depth (octets text)
      have hcharacter := passes_of_le hstate hle depth text
      rw [List.singleton_append] at hcharacter
      rw [octets_cons, hbytes, hcharacter, ih hstate.settled, Option.map_map, Option.map_map]
      refine congrArg (Option.map · _) (funext fun found => ?_)
      exact congrArg (·, found.2.octets) (octets_append [c] found.1).symm

/-- The grammar groups just the balanced lists of arguments. -/
theorem grouped_iff_balanced {args : Text} : Grouped args ↔ Balanced args := by
  rw [Balanced, closing?_eq_some_iff]
  simp

/-- The bytes of a text are an argument list when the text is one. -/
theorem grouped_octets_iff {args : Text} : Grouped args.octets ↔ Grouped args := by
  have hparen : octets [')'] = [')'] := octets_of_lt (by decide)
  have hscan := closingFrom?_octets isMarked_code 0 (args ++ [')'])
  rw [octets_append, hparen] at hscan
  rw [grouped_iff_balanced, grouped_iff_balanced, Balanced, Balanced, closing?, closing?, hscan]
  constructor
  · intro h
    obtain ⟨⟨found, rest⟩, hfound, heq⟩ := Option.map_eq_some_iff.1 h
    obtain ⟨-, hrest⟩ := Prod.mk.inj heq
    obtain rfl : rest = [] := by
      by_contra hne
      have := byteSize_pos hne
      rw [← length_octets, hrest] at this
      exact absurd this (by simp)
    have htext := eq_append_of_closingFrom? hfound
    rw [hfound, (List.append_inj' htext rfl).1]
  · intro h
    rw [h]
    rfl

/-! ## The matching parenthesis -/

/-- An offset between two characters cuts the text in two. -/
theorem exists_of_atByte? {offset : Nat} {text rest : Text} (h : atByte? offset text = some rest) :
    ∃ front, text = front ++ rest ∧ front.byteSize = offset := by
  fun_induction atByte? offset text with
  | case1 text => exact ⟨[], (Option.some.inj h), rfl⟩
  | case2 => cases h
  | case3 offset c text hle ih =>
    obtain ⟨front, rfl, hsize⟩ := ih h
    exact ⟨c :: front, rfl, by rw [byteSize_cons]; omega⟩
  | case4 => cases h

/-- The parenthesis that closes another one has an argument list before it. -/
theorem matchingParen_eq_some_iff {text : Text} {opening close : Nat} :
    matchingParen text opening = some close ↔
      ∃ front args back : Text, text = front ++ '(' :: (args ++ ')' :: back) ∧ Grouped args ∧
        opening = front.byteSize ∧ close = opening + 1 + args.byteSize := by
  constructor
  · intro h
    rw [matchingParen] at h
    split at h
    case h_1 rest hrest =>
      obtain ⟨⟨args, back⟩, hclosing, rfl⟩ := Option.map_eq_some_iff.1 h
      obtain ⟨hargs, rfl⟩ := closing?_eq_some_iff.1 hclosing
      obtain ⟨front, rfl, rfl⟩ := exists_of_atByte? hrest
      exact ⟨front, args, back, rfl, hargs, rfl, rfl⟩
    case h_2 => cases h
  · rintro ⟨front, args, back, rfl, hargs, rfl, rfl⟩
    have hclosing : closing? (args ++ ')' :: back) = some (args, back) :=
      closing?_eq_some_iff.2 ⟨hargs, rfl⟩
    rw [matchingParen, atByte?_byteSize]
    exact congrArg (Option.map fun found => front.byteSize + 1 + found.1.byteSize) hclosing

/-- The bytes between two offsets are those of the text between them. -/
theorem drop_take_octets (front args back : Text) :
    ((front ++ args ++ back).octets.take (front.byteSize + args.byteSize)).drop front.byteSize =
      args.octets := by
  rw [← length_octets front, ← length_octets args, ← List.length_append, octets_append,
    octets_append, List.take_left, List.drop_left]

theorem byteSize_concat_paren (front : Text) : (front ++ ['(']).byteSize = front.byteSize + 1 := by
  rw [byteSize_append]
  rfl

/-- The matching parenthesis can be described by bytes alone. -/
theorem matchingParen_iff_octets {text : Text} {opening close : Nat} :
    matchingParen text opening = some close ↔
      text.octets[opening]? = some '(' ∧ opening < close ∧ text.octets[close]? = some ')' ∧
        Grouped ((text.octets.take close).drop (opening + 1)) := by
  rw [matchingParen_eq_some_iff, getElem?_octets_iff (by decide), getElem?_octets_iff (by decide)]
  constructor
  · rintro ⟨front, args, back, rfl, hargs, rfl, rfl⟩
    have hslice := drop_take_octets (front ++ ['(']) args (')' :: back)
    have htext : front ++ ['('] ++ args ++ ')' :: back = front ++ '(' :: (args ++ ')' :: back) := by
      simp
    rw [htext, byteSize_concat_paren] at hslice
    refine ⟨⟨front, _, rfl, rfl⟩, by omega, ⟨front ++ ['('] ++ args, back, htext.symm, ?_⟩, ?_⟩
    · rw [byteSize_append, byteSize_concat_paren]
    · rw [hslice]
      exact grouped_octets_iff.2 hargs
  · rintro ⟨⟨front, tail, rfl, rfl⟩, hlt, ⟨front', back, htext, rfl⟩, hgrouped⟩
    have htext' : (front ++ ['(']) ++ tail = front' ++ ')' :: back := by
      rw [← htext, List.append_assoc, List.singleton_append]
    obtain ⟨args, rfl, rfl⟩ := exists_append_of_byteSize_le htext'
      (by rw [byteSize_concat_paren]; exact hlt)
    have hslice := drop_take_octets (front ++ ['(']) args (')' :: back)
    rw [List.append_assoc _ args, ← byteSize_append, htext', ← htext, byteSize_concat_paren]
      at hslice
    rw [hslice] at hgrouped
    refine ⟨front, args, back, rfl, grouped_octets_iff.1 hgrouped, rfl, ?_⟩
    rw [byteSize_append, byteSize_concat_paren]

theorem openCount_cons_paren (before : Text) :
    openCount .code ('(' :: before) = 1 + openCount .code before :=
  rfl

/-- The parenthesis that closes the one at byte `opening` is found just when an argument list of the
grammar stands between the two. The count of open parentheses, from the first one on, is not below
one while the scan goes on, and the scan goes on with that count. Where the scan stops it is
zero. -/
theorem matchingParen_grammar :
    (∀ (text : Text) (opening close : Nat), matchingParen text opening = some close ↔
      text.octets[opening]? = some '(' ∧ opening < close ∧ text.octets[close]? = some ')' ∧
        Grouped ((text.octets.take close).drop (opening + 1))) ∧
      ∀ before after : Text,
        (closing? before = none → ∃ left : Nat, openCount .code ('(' :: before) = left + 1 ∧
          closing? (before ++ after) =
            (closingFrom? (before.foldl Quoting.next .code) left after).map
              fun (args, rest) => (before ++ args, rest)) ∧
        ∀ args, closing? before = some (args, []) → openCount .code ('(' :: before) = 0 := by
  refine ⟨fun _ _ _ => matchingParen_iff_octets,
    fun before after => ⟨fun h => ?_, fun args h => ?_⟩⟩
  · obtain ⟨left, hleft, hscan⟩ := closingFrom?_append_of_none h after
    refine ⟨left, ?_, hscan⟩
    rw [openCount_cons_paren]
    omega
  · have hcount := openCount_of_closingFrom? h
    rw [← eq_append_of_closing? h] at hcount
    rw [openCount_cons_paren]
    omega

end Text

end Pagewright
