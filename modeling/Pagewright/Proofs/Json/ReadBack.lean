import Pagewright.Proofs.Json.Numeral

/-!
# Reading JSON that was written

A string can be spelled in more than one way, and the reader takes a spelling back if it ends where
the string ends (`Json.Spelling`); the escapes of the writer are one (`Json.spelling_inside`).
`Value.jsonWith` writes values with their strings in a given spelling, and the reader makes the same
of all spellings (`Json.readWithin_jsonWith`): what comes back is `Value.reread`, the value with its
numbers as they are read, as long as it is not nested too deep.
-/

namespace Pagewright

namespace Json

/-! ## Strings -/

/-- A character that needs no escape stands for itself in a string. -/
theorem readString_plain {c : Char} (hquote : c ≠ '"') (hslash : c ≠ '\\') (hcode : 0x20 ≤ c.toNat)
    (rest : Text) : readString (c :: rest) = (readString rest).map fun p => (c :: p.1, p.2) := by
  rw [readString.eq_def]
  split
  case h_1 heq => cases heq
  case h_2 heq => exact absurd (List.cons.inj heq).1 hquote
  case h_3 heq => exact absurd (List.cons.inj heq).1 hslash
  case h_4 heq => exact absurd (List.cons.inj heq).1 hslash
  case h_5 heq => exact absurd (List.cons.inj heq).1 hslash
  case h_6 heq =>
    obtain ⟨rfl, rfl⟩ := List.cons.inj heq
    simp [hslash, Nat.not_lt.2 hcode]

/-- A backslash and a letter stand for one character. -/
theorem readString_escape {c e : Char} (h : escape? c = some e) (rest : Text) :
    readString ('\\' :: c :: rest) = (readString rest).map fun p => (e :: p.1, p.2) := by
  have hu : c ≠ 'u' := by
    rintro rfl
    cases h
  rw [readString.eq_def]
  split
  case h_1 heq => cases heq
  case h_2 heq => cases heq
  case h_3 heq => exact absurd (List.cons.inj (List.cons.inj heq).2).1 hu
  case h_4 heq => exact absurd (List.cons.inj (List.cons.inj heq).2).1 hu
  case h_5 heq =>
    obtain ⟨rfl, rfl⟩ := List.cons.inj (List.cons.inj heq).2
    simp [h]
  case h_6 hnot heq =>
    obtain ⟨rfl, rfl⟩ := List.cons.inj heq
    exact absurd rfl (hnot _ _ rfl)

/-- Four digits stand for a character beyond the pairs of halves. -/
theorem readString_unit {a b c d : Char} {n : Nat} (h : unit? a b c d = some n)
    (hhigh : isHigh n = false) (hlow : isLow n = false) (rest : Text) :
    readString ('\\' :: 'u' :: a :: b :: c :: d :: rest)
      = (readString rest).map fun p => (Char.ofNat n :: p.1, p.2) := by
  rw [readString.eq_def]
  split
  case h_1 heq => cases heq
  case h_2 heq => cases heq
  case h_3 heq =>
    cases heq
    simp [h, hhigh, hlow]
  case h_4 heq =>
    cases heq
    simp [h, hhigh, hlow]
  case h_5 hnot heq =>
    cases heq
    exact absurd rfl (hnot _ _ _ _ _ rfl)
  case h_6 hnot heq =>
    cases heq
    exact absurd rfl (hnot _ _ rfl)

theorem hexDigit?_digitChar {n : Nat} (h : n < 16) : hexDigit? (Nat.digitChar n) = some n := by
  revert n
  decide

/-- The escape for a control character has its code in four digits. -/
theorem unit?_codeEscape {n : Nat} (h : n < 0x20) :
    unit? '0' '0' (Nat.digitChar (n / 16)) (Nat.digitChar (n % 16)) = some n := by
  have hzero : hexDigit? '0' = some 0 := rfl
  have hvalue : ((0 * 16 + 0) * 16 + n / 16) * 16 + n % 16 = n := by omega
  simp only [unit?, hzero, hexDigit?_digitChar (show n / 16 < 16 by omega),
    hexDigit?_digitChar (show n % 16 < 16 by omega), Option.bind_eq_bind, Option.bind_some, hvalue]
  rfl

/-- What stands for a character inside a string is read as that character. -/
theorem readString_escaped (c : Char) (rest : Text) :
    readString (escaped c ++ rest) = (readString rest).map fun p => (c :: p.1, p.2) := by
  unfold escaped
  split_ifs with hquote hslash hnewline hreturn htab hback hfeed hcode
  · exact hquote ▸ readString_escape rfl rest
  · exact hslash ▸ readString_escape rfl rest
  · exact hnewline ▸ readString_escape rfl rest
  · exact hreturn ▸ readString_escape rfl rest
  · exact htab ▸ readString_escape rfl rest
  · exact hback ▸ readString_escape rfl rest
  · exact hfeed ▸ readString_escape rfl rest
  · have hhigh : isHigh c.toNat = false := by simp [isHigh]; omega
    have hlow : isLow c.toNat = false := by simp [isLow]; omega
    have hread := readString_unit (unit?_codeEscape hcode) hhigh hlow rest
    rw [Char.ofNat_toNat] at hread
    exact hread
  · exact readString_plain hquote hslash (Nat.le_of_not_lt hcode) rest

/-- A way to write strings between quotes, which the reader takes back. -/
def Spelling (spell : Text → Text) : Prop :=
  ∀ s rest, readString (spell s ++ '"' :: rest) = some (s, rest)

/-- A string between its quotes, spelled in a given way. -/
def quotedWith (spell : Text → Text) (s : Text) : Text :=
  '"' :: spell s ++ "\""

/-- The spelling of the writer. -/
def inside (s : Text) : Text :=
  s.flatMap escaped

theorem inside_cons (c : Char) (s : Text) : inside (c :: s) = escaped c ++ inside s :=
  List.flatMap_cons

/-- The spelling of the writer is read back. -/
theorem spelling_inside : Spelling inside := by
  intro s rest
  induction s with
  | nil => rfl
  | cons c s ih =>
    rw [inside_cons, List.append_assoc, readString_escaped, ih]
    rfl

end Json

/-- The settings with fields set one after the other. -/
def Settings.setAll (settings : Settings) (fields : List (Text × Value)) : Settings :=
  fields.foldl (fun settings field => Settings.set field.1 field.2 settings) settings

/-! ## Values -/

mutual

/-- The JSON text of a value, its strings spelled in a given way. -/
def Value.jsonWith (spell : Text → Text) : Value → Text
  | .null => "null"
  | .bool true => "true"
  | .bool false => "false"
  | .int i => Json.ofInt i
  | .float x => x.text
  | .text s => Json.quotedWith spell s
  | .list items => "[" ++ jsonItemsWith spell items ++ "]"
  | .record fields => "\x7b" ++ jsonFieldsWith spell fields ++ "\x7d"

/-- The items of a list, divided by commas. -/
def jsonItemsWith (spell : Text → Text) : List Value → Text
  | [] => []
  | [value] => value.jsonWith spell
  | value :: next :: rest => value.jsonWith spell ++ "," ++ jsonItemsWith spell (next :: rest)

/-- The fields of a record, divided by commas. -/
def jsonFieldsWith (spell : Text → Text) : List (Text × Value) → Text
  | [] => []
  | [(name, value)] => Json.quotedWith spell name ++ ":" ++ value.jsonWith spell
  | (name, value) :: next :: rest =>
    Json.quotedWith spell name ++ ":" ++ value.jsonWith spell ++ ","
      ++ jsonFieldsWith spell (next :: rest)

end

mutual

/-- What a value is once it was written and read, where lists and records may be nested to a given
depth. -/
def Value.reread : (depth : Nat) → Value → Option Value
  | _, .null => some .null
  | _, .bool b => some (.bool b)
  | _, .int i => (Json.Numeral.ofInt i).value?
  | _, .float x => (Json.readNumber x.text).map Prod.fst
  | _, .text s => some (.text s)
  | 0, .list _ => none
  | depth + 1, .list items => (rereadItems depth items).map Value.list
  | 0, .record _ => none
  | depth + 1, .record fields =>
    (rereadFields depth fields).map fun fields => Value.record (Settings.ofFields fields)

/-- The items of a list once they were written and read. -/
def rereadItems (depth : Nat) : List Value → Option (List Value)
  | [] => some []
  | value :: rest =>
    (value.reread depth).bind fun value => (rereadItems depth rest).map (value :: ·)

/-- The fields of a record once they were written and read. -/
def rereadFields (depth : Nat) : List (Text × Value) → Option (List (Text × Value))
  | [] => some []
  | (name, value) :: rest =>
    (value.reread depth).bind fun value => (rereadFields depth rest).map ((name, value) :: ·)

end

mutual

/-- With the spelling of the writer a value is written as the writer has it. -/
theorem Value.jsonWith_inside (value : Value) :
    value.jsonWith Json.inside = value.json := by
  cases value with
  | null => rfl
  | bool b => cases b <;> rfl
  | int i => rfl
  | float x => rfl
  | text s => rfl
  | list items => rw [Value.jsonWith, Value.json, jsonItemsWith_inside items]
  | record fields => rw [Value.jsonWith, Value.json, jsonFieldsWith_inside fields]

theorem jsonItemsWith_inside (items : List Value) :
    jsonItemsWith Json.inside items = jsonItems items := by
  cases items with
  | nil => rfl
  | cons value rest =>
    cases rest with
    | nil => exact value.jsonWith_inside
    | cons next rest =>
      rw [jsonItemsWith, jsonItems, value.jsonWith_inside, jsonItemsWith_inside (next :: rest)]

theorem jsonFieldsWith_inside (fields : List (Text × Value)) :
    jsonFieldsWith Json.inside fields = jsonFields fields := by
  cases fields with
  | nil => rfl
  | cons field rest =>
    obtain ⟨name, value⟩ := field
    cases rest with
    | nil => rw [jsonFieldsWith, jsonFields, value.jsonWith_inside]; rfl
    | cons next rest =>
      rw [jsonFieldsWith, jsonFields, value.jsonWith_inside, jsonFieldsWith_inside (next :: rest)]
      rfl

end

namespace Json

/-! ## The reader on written values -/

theorem skip_cons {c : Char} (h : isSpace c = false) (rest : Text) :
    skip (c :: rest) = c :: rest := by
  simp [skip, h]

theorem quotedWith_append (spell : Text → Text) (s rest : Text) :
    quotedWith spell s ++ rest = '"' :: (spell s ++ '"' :: rest) := by
  rw [quotedWith, List.cons_append, List.cons_append, List.append_assoc]
  rfl

/-- A quoted text reads as that text. -/
theorem readGoal_quotedWith {spell : Text → Text} (hspell : Spelling spell) (fuel depth : Nat)
    (s rest : Text) :
    readGoal (fuel + 1) depth .value (quotedWith spell s ++ rest) = some (.text s, rest) := by
  rw [quotedWith_append, readGoal, skip_cons (by rfl)]
  simp only [hspell s rest, Option.map_some]

/-- A number starts with its sign or a digit. -/
theorem Numeral.exists_source_eq_cons (n : Numeral) :
    ∃ c tail, n.source = c :: tail ∧ ∀ d, d ≠ '-' ∧ d.isDigit = false → c ≠ d := by
  obtain ⟨c, tail, hc⟩ := List.exists_cons_of_ne_nil n.whole.ne_nil
  cases hsign : n.negative with
  | true => exact ⟨'-', n.unsigned, by simp [source, hsign], fun d hd heq => hd.1 heq.symm⟩
  | false =>
    refine ⟨c, tail ++ (n.fractionText ++ n.exponentText), ?_, ?_⟩
    · simp [source, unsigned, hsign, hc]
    · rintro d ⟨-, hd⟩ rfl
      exact absurd (n.whole.isDigit c (by simp [hc])) (by simp [hd])

/-- A numeral reads as its value. -/
theorem readGoal_source (n : Numeral) {rest : Text} (h : Stops rest) (fuel depth : Nat) :
    readGoal (fuel + 1) depth .value (n.source ++ rest)
      = n.value?.map fun value => (value, rest) := by
  obtain ⟨c, tail, hsource, hc⟩ := n.exists_source_eq_cons
  have hspace : isSpace c = false := by
    simp [isSpace, hc]
  rw [← readNumber_source n h, hsource, List.cons_append, readGoal, skip_cons hspace]
  split
  case h_7 => rfl
  all_goals
    rename_i heq
    exact absurd (List.cons.inj heq).1 (hc _ (by decide))

/-- A bracket that is not closed at once starts a list. -/
theorem readGoal_list {c : Char} (hspace : isSpace c = false) (hclose : c ≠ ']') (tail : Text)
    (fuel depth : Nat) : readGoal (fuel + 1) (depth + 1) .value ('[' :: c :: tail)
      = readGoal fuel depth (.items []) (c :: tail) := by
  rw [readGoal, skip_cons (by rfl)]
  simp only [skip_cons hspace]
  split
  case h_1 hdepth => cases hdepth
  case h_2 heq _ => exact absurd (List.cons.inj heq).1 hclose
  case h_3 hdepth _ =>
    cases hdepth
    rfl

/-- A brace with a quote behind it starts a record. -/
theorem readGoal_record (tail : Text) (fuel depth : Nat) :
    readGoal (fuel + 1) (depth + 1) .value ('\x7b' :: '"' :: tail)
      = readGoal fuel depth (.fields []) ('"' :: tail) := by
  rw [readGoal, skip_cons (by rfl)]
  rfl

section Members

variable {fuel depth : Nat} {text rest : Text} {value? : Option Value}

/-- Behind an item and a comma the list goes on. -/
theorem readGoal_items_comma
    (h : readGoal fuel depth .value text = value?.map fun value => (value, ',' :: rest))
    (read : List Value) : readGoal (fuel + 1) depth (.items read) text
      = value?.bind fun value => readGoal fuel depth (.items (read ++ [value])) rest := by
  rw [readGoal, h]
  cases value? <;> rfl

/-- Behind an item and a bracket the list is complete. -/
theorem readGoal_items_close
    (h : readGoal fuel depth .value text = value?.map fun value => (value, ']' :: rest))
    (read : List Value) : readGoal (fuel + 1) depth (.items read) text
      = value?.map fun value => (.list (read ++ [value]), rest) := by
  rw [readGoal, h]
  cases value? <;> rfl

variable {spell : Text → Text} {name : Text}

/-- Behind a field and a comma the record goes on. -/
theorem readGoal_fields_comma (hspell : Spelling spell)
    (h : readGoal fuel depth .value text = value?.map fun value => (value, ',' :: rest))
    (read : Settings) :
    readGoal (fuel + 1) depth (.fields read) (quotedWith spell name ++ ':' :: text)
      = value?.bind fun value => readGoal fuel depth (.fields (read.set name value)) rest := by
  rw [quotedWith_append, readGoal, skip_cons (by rfl)]
  simp only [hspell name, skip_cons (c := ':') (by rfl), h, Option.bind_eq_bind, Option.bind_some]
  cases value? <;> rfl

/-- Behind a field and a brace the record is complete. -/
theorem readGoal_fields_close (hspell : Spelling spell)
    (h : readGoal fuel depth .value text = value?.map fun value => (value, '\x7d' :: rest))
    (read : Settings) :
    readGoal (fuel + 1) depth (.fields read) (quotedWith spell name ++ ':' :: text)
      = value?.map fun value => (.record (read.set name value), rest) := by
  rw [quotedWith_append, readGoal, skip_cons (by rfl)]
  simp only [hspell name, skip_cons (c := ':') (by rfl), h, Option.bind_eq_bind, Option.bind_some]
  cases value? <;> rfl

end Members

theorem stops_nil : Stops [] := by
  simp [Stops]

theorem stops_cons {c : Char} (h : isNumberChar c = false) (rest : Text) : Stops (c :: rest) := by
  rintro d ⟨⟩
  exact h

/-- A double is written as a numeral, and reads as what the numeral is worth. -/
theorem exists_numeral_of_float (x : Binary64) : ∃ n : Numeral, n.source = x.text
    ∧ ∀ depth, (Value.float x).reread depth = n.value? := by
  obtain ⟨n, -, hsource⟩ := x.exists_numeral
  refine ⟨n, hsource, fun depth => ?_⟩
  have hread := readNumber_source n stops_nil
  rw [List.append_nil, hsource] at hread
  rw [Value.reread, hread, Option.map_map]
  exact Option.map_id'

/-- A written value starts with a character that is neither a blank nor a closing bracket. -/
theorem exists_jsonWith_eq_cons (spell : Text → Text) (value : Value) :
    ∃ c tail, value.jsonWith spell = c :: tail ∧ isSpace c = false ∧ c ≠ ']' := by
  cases value with
  | null => exact ⟨_, _, rfl, rfl, by decide⟩
  | bool b => cases b <;> exact ⟨_, _, rfl, rfl, by decide⟩
  | int i =>
    obtain ⟨c, tail, hsource, hc⟩ := (Numeral.ofInt i).exists_source_eq_cons
    rw [Value.jsonWith, ← source_ofInt]
    exact ⟨c, tail, hsource, by simp [isSpace, hc], hc _ (by decide)⟩
  | float x =>
    obtain ⟨n, hn, -⟩ := exists_numeral_of_float x
    obtain ⟨c, tail, hsource, hc⟩ := n.exists_source_eq_cons
    rw [Value.jsonWith, ← hn]
    exact ⟨c, tail, hsource, by simp [isSpace, hc], hc _ (by decide)⟩
  | text s => exact ⟨_, _, rfl, rfl, by decide⟩
  | list items => exact ⟨_, _, rfl, rfl, by decide⟩
  | record fields => exact ⟨_, _, rfl, rfl, by decide⟩

theorem exists_jsonItemsWith_eq_cons (spell : Text → Text) (value : Value) (items : List Value) :
    ∃ c tail, jsonItemsWith spell (value :: items) = c :: tail ∧ isSpace c = false ∧ c ≠ ']' := by
  obtain ⟨c, tail, hcons, hc⟩ := exists_jsonWith_eq_cons spell value
  cases items with
  | nil => exact ⟨c, tail, hcons, hc⟩
  | cons next items =>
    refine ⟨c, tail ++ ',' :: jsonItemsWith spell (next :: items), ?_, hc⟩
    rw [jsonItemsWith, hcons, List.append_assoc]
    rfl

theorem exists_jsonFieldsWith_eq_cons (spell : Text → Text) (field : Text × Value)
    (fields : Settings) : ∃ tail, jsonFieldsWith spell (field :: fields) = '"' :: tail := by
  obtain ⟨name, value⟩ := field
  cases fields <;> exact ⟨_, rfl⟩

section Text

variable (spell : Text → Text) (name : Text) (value : Value) (rest : Text)

theorem list_append (items : List Value) : (Value.list items).jsonWith spell ++ rest
    = '[' :: (jsonItemsWith spell items ++ ']' :: rest) := by
  rw [Value.jsonWith, List.append_assoc, List.append_assoc]
  rfl

theorem record_append (fields : Settings) : (Value.record fields).jsonWith spell ++ rest
    = '\x7b' :: (jsonFieldsWith spell fields ++ '\x7d' :: rest) := by
  rw [Value.jsonWith, List.append_assoc, List.append_assoc]
  rfl

theorem items_cons_append (next : Value) (items : List Value) :
    jsonItemsWith spell (value :: next :: items) ++ rest
      = value.jsonWith spell ++ ',' :: (jsonItemsWith spell (next :: items) ++ rest) := by
  rw [jsonItemsWith, List.append_assoc, List.append_assoc]
  rfl

theorem field_append : jsonFieldsWith spell [(name, value)] ++ rest
    = quotedWith spell name ++ ':' :: (value.jsonWith spell ++ rest) := by
  rw [jsonFieldsWith, List.append_assoc, List.append_assoc]
  rfl

theorem fields_cons_append (next : Text × Value) (fields : Settings) :
    jsonFieldsWith spell ((name, value) :: next :: fields) ++ rest
      = quotedWith spell name ++ ':' :: (value.jsonWith spell
        ++ ',' :: (jsonFieldsWith spell (next :: fields) ++ rest)) := by
  rw [jsonFieldsWith]
  simp only [List.append_assoc]
  rfl

end Text

mutual

/-- Reading a written value gives the value again, its numbers as they are read. -/
theorem readGoal_jsonWith {spell : Text → Text} (hspell : Spelling spell) (value : Value)
    (fuel depth : Nat) {rest : Text} (hrest : Stops rest)
    (hfuel : 2 * (value.jsonWith spell ++ rest).length ≤ fuel + 2 * rest.length) :
    readGoal fuel depth .value (value.jsonWith spell ++ rest)
      = (value.reread depth).map fun value => (value, rest) := by
  obtain ⟨c, tail, hcons, -⟩ := exists_jsonWith_eq_cons spell value
  obtain ⟨fuel, rfl⟩ : ∃ n, fuel = n + 1 := by
    rw [hcons, List.length_append, List.length_cons] at hfuel
    exact Nat.exists_eq_add_one.2 (by omega)
  cases value with
  | null => rfl
  | bool b => cases b <;> rfl
  | int i =>
    rw [Value.jsonWith, Value.reread, ← source_ofInt]
    exact readGoal_source _ hrest fuel depth
  | float x =>
    obtain ⟨n, hsource, hreread⟩ := exists_numeral_of_float x
    rw [Value.jsonWith, hreread, ← hsource]
    exact readGoal_source n hrest fuel depth
  | text s => exact readGoal_quotedWith hspell fuel depth s rest
  | list items =>
    rw [list_append] at hfuel ⊢
    cases depth with
    | zero => rfl
    | succ depth =>
      cases items with
      | nil => rfl
      | cons value items =>
        have hitems := readGoal_jsonItemsWith hspell (value :: items) (by simp) fuel depth
          [] rest (by simp only [List.length_cons, List.length_append] at hfuel ⊢; omega)
        obtain ⟨c, tail, hcons, hspace, hclose⟩ := exists_jsonItemsWith_eq_cons spell value items
        rw [hcons, List.cons_append] at hitems ⊢
        rw [readGoal_list hspace hclose, hitems, Value.reread, Option.map_map]
        rfl
  | record fields =>
    rw [record_append] at hfuel ⊢
    cases depth with
    | zero => rfl
    | succ depth =>
      cases fields with
      | nil => rfl
      | cons field fields =>
        have hfields := readGoal_jsonFieldsWith hspell (field :: fields) (by simp) fuel depth
          [] rest (by simp only [List.length_cons, List.length_append] at hfuel ⊢; omega)
        obtain ⟨tail, hcons⟩ := exists_jsonFieldsWith_eq_cons spell field fields
        rw [hcons, List.cons_append] at hfields ⊢
        rw [readGoal_record, hfields, Value.reread, Option.map_map]
        rfl

/-- The items of a list read as what each of them reads as. -/
theorem readGoal_jsonItemsWith {spell : Text → Text} (hspell : Spelling spell) (items : List Value)
    (hne : items ≠ []) (fuel depth : Nat) (read : List Value) (rest : Text)
    (hfuel : 2 * (jsonItemsWith spell items ++ ']' :: rest).length ≤ fuel + 2 * rest.length + 1) :
    readGoal fuel depth (.items read) (jsonItemsWith spell items ++ ']' :: rest)
      = (rereadItems depth items).map fun items => (.list (read ++ items), rest) := by
  cases items with
  | nil => exact absurd rfl hne
  | cons value items =>
    obtain ⟨fuel, rfl⟩ : ∃ n, fuel = n + 1 := by
      simp only [List.length_append, List.length_cons] at hfuel
      exact Nat.exists_eq_add_one.2 (by omega)
    cases items with
    | nil =>
      rw [jsonItemsWith] at hfuel ⊢
      have hvalue := readGoal_jsonWith hspell value fuel depth
        (stops_cons (c := ']') rfl rest) (by rw [List.length_cons]; omega)
      rw [readGoal_items_close hvalue, rereadItems, rereadItems]
      cases value.reread depth <;> rfl
    | cons next items =>
      rw [items_cons_append] at hfuel ⊢
      have hvalue := readGoal_jsonWith hspell value fuel depth
        (stops_cons (c := ',') rfl (jsonItemsWith spell (next :: items) ++ ']' :: rest))
        (by simp only [List.length_append, List.length_cons] at hfuel ⊢; omega)
      have htail read := readGoal_jsonItemsWith hspell (next :: items) (by simp) fuel
        depth read rest (by simp only [List.length_append, List.length_cons] at hfuel ⊢; omega)
      rw [readGoal_items_comma hvalue, rereadItems]
      cases value.reread depth with
      | none => rfl
      | some value => simp [htail, Function.comp_def]

/-- The fields of a record read as what each of them reads as, under their names. -/
theorem readGoal_jsonFieldsWith {spell : Text → Text} (hspell : Spelling spell)
    (fields : List (Text × Value)) (hne : fields ≠ []) (fuel depth : Nat) (read : Settings)
    (rest : Text)
    (hfuel : 2 * (jsonFieldsWith spell fields ++ '\x7d' :: rest).length
      ≤ fuel + 2 * rest.length + 1) :
    readGoal fuel depth (.fields read) (jsonFieldsWith spell fields ++ '\x7d' :: rest)
      = (rereadFields depth fields).map fun fields =>
        (.record (read.setAll fields), rest) := by
  cases fields with
  | nil => exact absurd rfl hne
  | cons field fields =>
    obtain ⟨name, value⟩ := field
    obtain ⟨fuel, rfl⟩ : ∃ n, fuel = n + 1 := by
      simp only [List.length_append, List.length_cons] at hfuel
      exact Nat.exists_eq_add_one.2 (by omega)
    cases fields with
    | nil =>
      rw [field_append] at hfuel ⊢
      have hvalue := readGoal_jsonWith hspell value fuel depth
        (stops_cons (c := '\x7d') rfl rest)
        (by simp only [List.length_append, List.length_cons] at hfuel ⊢; omega)
      rw [readGoal_fields_close hspell hvalue, rereadFields, rereadFields]
      cases value.reread depth <;> rfl
    | cons next fields =>
      rw [fields_cons_append] at hfuel ⊢
      have hvalue := readGoal_jsonWith hspell value fuel depth
        (stops_cons (c := ',') rfl (jsonFieldsWith spell (next :: fields) ++ '\x7d' :: rest))
        (by simp only [List.length_append, List.length_cons] at hfuel ⊢; omega)
      have htail read := readGoal_jsonFieldsWith hspell (next :: fields) (by simp) fuel
        depth read rest (by simp only [List.length_append, List.length_cons] at hfuel ⊢; omega)
      rw [readGoal_fields_comma hspell hvalue, rereadFields]
      cases value.reread depth with
      | none => rfl
      | some value => simp [htail, Settings.setAll, Function.comp_def]

end

/-- The value that a whole text spells, where lists and records may be nested to a given depth. -/
def readWithin (limit : Nat) (text : Text) : Option Value :=
  (readGoal (2 * text.length + 2) limit .value text).bind fun p =>
    if skip p.2 = [] then some p.1 else none

/-- The reader goes down to its own depth. -/
theorem read?_eq_readWithin (text : Text) : read? text = readWithin maxDepth text := rfl

/-- However its strings are spelled, a written value is read as the same value. -/
theorem readWithin_jsonWith {spell : Text → Text} (hspell : Spelling spell) (limit : Nat)
    (value : Value) : readWithin limit (value.jsonWith spell) = value.reread limit := by
  have hread := readGoal_jsonWith hspell value (2 * (value.jsonWith spell).length + 2) limit
    stops_nil (by rw [List.append_nil]; omega)
  rw [List.append_nil] at hread
  rw [readWithin, hread]
  cases value.reread limit <;> rfl

end Json

end Pagewright
