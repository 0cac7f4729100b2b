import Mathlib.Data.List.Lex
import Mathlib.Data.List.Nodup
import Mathlib.Tactic.SplitIfs
import Pagewright.Proofs.Path.Components
import Pagewright.Site.Config
import Pagewright.Text.Utf8

/-!
# The directives of a configuration

A configuration lists the directives of its site by their names: in the order of the bytes of the
names, and no name twice (`Config.pairwise_directives`).

The order is that of characters where the names are sorted. UTF-8 keeps it, since the first byte by
which two characters differ tells which one comes first (`Text.lex_utf8EncodeChar`). That no name
stands twice is due to the reading of the file. Whatever a line does to the tables read so far, it
alters one field of one table, which stays where it is or is new (`Toml.Fields.alter_cases`). So the
names in every table are distinct after each line (`Toml.distinct_of_step`) and hence at the end
(`Toml.distinct_read`).
-/

namespace Pagewright

namespace Text

/-! ## The order of bytes -/

/-- One text is before another in the order of their bytes. -/
def BytesBelow (a b : Text) : Prop :=
  List.Lex (fun x y : UInt8 => x.toNat < y.toNat) a.utf8 b.utf8

theorem BytesBelow.ne {a b : Text} (h : a.BytesBelow b) : a ≠ b := by
  rintro rfl
  exact List.lex_irrefl (fun x => Nat.lt_irrefl x.toNat) _ h

/-- A character has one to four bytes, by its number. -/
theorem utf8EncodeChar_eq (c : Char) :
    String.utf8EncodeChar c =
      if c.toNat ≤ 127 then [.ofNat c.toNat]
      else if c.toNat ≤ 2047 then [.ofNat (c.toNat / 64 % 32 + 192), .ofNat (c.toNat % 64 + 128)]
      else if c.toNat ≤ 65535 then
        [.ofNat (c.toNat / 4096 % 16 + 224), .ofNat (c.toNat / 64 % 64 + 128),
          .ofNat (c.toNat % 64 + 128)]
      else
        [.ofNat (c.toNat / 262144 % 8 + 240), .ofNat (c.toNat / 4096 % 64 + 128),
          .ofNat (c.toNat / 64 % 64 + 128), .ofNat (c.toNat % 64 + 128)] :=
  rfl

/-- The bytes of a character decide its place before another one, whatever follows. -/
theorem lex_utf8EncodeChar {c d : Char} (h : c.toNat < d.toNat) (s t : List UInt8) :
    List.Lex (fun x y : UInt8 => x.toNat < y.toNat) (String.utf8EncodeChar c ++ s)
      (String.utf8EncodeChar d ++ t) := by
  have hd : d.toNat < 1114112 := by
    rcases d.valid with hd | hd
    · exact Nat.lt_trans hd (by decide)
    · exact hd.2
  have h4096 (n : Nat) : n / 4096 = n / 64 / 64 := (Nat.div_div_eq_div_mul n 64 64).symm
  have h262144 (n : Nat) : n / 262144 = n / 64 / 64 / 64 := by
    rw [Nat.div_div_eq_div_mul, Nat.div_div_eq_div_mul]
  rw [utf8EncodeChar_eq, utf8EncodeChar_eq]
  -- The number of bytes shows in the first one, and the others are digits to the base 64.
  split_ifs <;>
    simp (disch := omega) only [List.cons_append, List.cons_lex_cons_iff, UInt8.toNat_ofNat',
      ← UInt8.toNat_inj, h4096, h262144, Nat.mod_eq_of_lt] <;>
    omega

/-- The order of texts by their characters is the order of their bytes. -/
theorem bytesBelow_of_precedes {a b : Text} (h : a.precedes b = true) : a.BytesBelow b := by
  have hlt := @of_decide_eq_true _ _ h
  have hlex : List.Lex (fun c d : Char => c.toNat < d.toNat) a b := hlt
  clear h hlt
  induction hlex with
  | @nil c b =>
    have hne : String.utf8EncodeChar c ≠ [] := by
      rw [utf8EncodeChar_eq]
      split_ifs <;> exact List.cons_ne_nil _ _
    obtain ⟨byte, bytes, hbytes⟩ := List.exists_cons_of_ne_nil hne
    rw [BytesBelow, utf8, utf8, List.flatMap_cons, hbytes]
    exact .nil
  | rel hc => exact lex_utf8EncodeChar hc _ _
  | cons _ ih => exact List.Lex.append_left _ ih _

theorem precedes_eq_false_trans {a b c : Text} (hab : b.precedes a = false)
    (hbc : c.precedes b = false) : c.precedes a = false :=
  decide_eq_false (List.le_trans (of_decide_eq_false hab) (of_decide_eq_false hbc))

theorem precedes_eq_false_total (a b : Text) : b.precedes a = false ∨ a.precedes b = false :=
  (List.le_total a b).imp decide_eq_false decide_eq_false

/-- Of two texts that differ, the one that does not come later comes first. -/
theorem precedes_of_ne {a b : Text} (h : b.precedes a = false) (hne : a ≠ b) :
    a.precedes b = true := by
  by_contra hab
  have hba : a.precedes b = false := Bool.eq_false_iff.2 hab
  exact hne (List.le_antisymm (of_decide_eq_false h) (of_decide_eq_false hba))

/-- Sorting by names puts the fields of a table in the order of the bytes of their names. -/
theorem pairwise_bytesBelow_mergeSort {α : Type} {fields : List (Text × α)}
    (h : (fields.map Prod.fst).Nodup) :
    (fields.mergeSort fun a b => !b.1.precedes a.1).Pairwise fun a b => a.1.BytesBelow b.1 := by
  have hsorted : (fields.mergeSort fun a b => !b.1.precedes a.1).Pairwise fun a b =>
      (!b.1.precedes a.1) = true := by
    refine List.pairwise_mergeSort (fun a b c hab hbc => ?_) (fun a b => ?_) fields
    · rw [Bool.not_eq_true'] at *
      exact precedes_eq_false_trans hab hbc
    · rw [Bool.or_eq_true, Bool.not_eq_true', Bool.not_eq_true']
      exact precedes_eq_false_total a.1 b.1
  have hdistinct : (fields.mergeSort fun a b => !b.1.precedes a.1).Pairwise fun a b =>
      a.1 ≠ b.1 :=
    (List.mergeSort_perm fields _).symm.pairwise (List.pairwise_map.1 h) Ne.symm
  refine (hsorted.and hdistinct).imp fun {a b} hab => ?_
  exact bytesBelow_of_precedes (precedes_of_ne (by simpa using hab.1) hab.2)

end Text

namespace Toml

/-! ## Tables -/

theorem map_eq_ok_iff {ε α β : Type} {x : Except ε α} {f : α → β} {b : β} :
    x.map f = .ok b ↔ ∃ a, x = .ok a ∧ f a = b := by
  cases x <;> simp [Except.map]

/-- No name stands twice in the table that an item is, nor in a table below it. Lists are not looked
into. -/
inductive Item.Distinct : Item → Prop
  | text (s : Text) : Distinct (.text s)
  | bool (b : Bool) : Distinct (.bool b)
  | number : Distinct .number
  | moment (moment : Moment) : Distinct (.moment moment)
  | list (items : List Item) : Distinct (.list items)
  | table {fields : Fields} (origin : Origin) (names : (fields.map Prod.fst).Nodup)
      (items : ∀ field ∈ fields, Distinct field.2) : Distinct (.table origin fields)
  | tables {last : Fields} (earlier : List Fields) (names : (last.map Prod.fst).Nodup)
      (items : ∀ field ∈ last, Distinct field.2) : Distinct (.tables earlier last)

/-- The fields of an item have different names. -/
theorem Item.Distinct.nodup_of_fields? {item : Item} {fields : Fields} (h : item.Distinct)
    (hfields : item.fields? = some fields) : (fields.map Prod.fst).Nodup := by
  cases h with
  | table _ names _ =>
    cases hfields
    exact names
  | moment moment =>
    cases hfields
    exact List.nodup_singleton _
  | _ => cases hfields

namespace Fields

/-- No name stands twice among the fields, nor in a table below them. -/
structure Distinct (fields : Fields) : Prop where
  names : (fields.map Prod.fst).Nodup
  items : ∀ field ∈ fields, field.2.Distinct

theorem distinct_nil : Distinct [] :=
  ⟨List.nodup_nil, List.forall_mem_nil _⟩

theorem Distinct.of_table {origin : Origin} {fields : Fields}
    (h : (Item.table origin fields).Distinct) : Distinct fields := by
  cases h with
  | table _ names items => exact ⟨names, items⟩

theorem Distinct.of_tables {earlier : List Fields} {last : Fields}
    (h : (Item.tables earlier last).Distinct) : Distinct last := by
  cases h with
  | tables _ names items => exact ⟨names, items⟩

theorem Distinct.table {fields : Fields} (h : Distinct fields) (origin : Origin) :
    (Item.table origin fields).Distinct :=
  .table origin h.names h.items

theorem Distinct.tables {last : Fields} (h : Distinct last) (earlier : List Fields) :
    (Item.tables earlier last).Distinct :=
  .tables earlier h.names h.items

/-- What stands in such fields is of the same kind. -/
theorem Distinct.get? {fields : Fields} {name : Text} {item : Item} (h : Distinct fields)
    (hitem : fields.get? name = some item) : item.Distinct := by
  obtain ⟨before, after, rfl, -⟩ := List.lookup_eq_some_iff.1 hitem
  exact h.items (name, item) (by simp)

/-- A field that is altered is added at the end or stays where it is. -/
theorem alter_cases {name : Text} {f : Option Item → Except Error Item} {fields next : Fields}
    (h : fields.alter name f = .ok next) :
    (∃ item, f none = .ok item ∧ name ∉ fields.map Prod.fst ∧ next = fields ++ [(name, item)]) ∨
      ∃ before old item after, f (some old) = .ok item ∧ fields = before ++ (name, old) :: after ∧
        next = before ++ (name, item) :: after := by
  induction fields generalizing next with
  | nil =>
    obtain ⟨item, hitem, rfl⟩ := map_eq_ok_iff.1 h
    exact .inl ⟨item, hitem, List.not_mem_nil, rfl⟩
  | cons field fields ih =>
    obtain ⟨key, old⟩ := field
    rw [alter] at h
    split_ifs at h with hkey
    · subst hkey
      obtain ⟨item, hitem, rfl⟩ := map_eq_ok_iff.1 h
      exact .inr ⟨[], old, item, fields, hitem, rfl, rfl⟩
    · obtain ⟨rest, hrest, rfl⟩ := map_eq_ok_iff.1 h
      rcases ih hrest with ⟨item, hitem, hnew, rfl⟩ | ⟨before, prior, item, after, hitem, rfl, rfl⟩
      · exact .inl ⟨item, hitem, by simpa [Ne.symm hkey] using hnew, rfl⟩
      · exact .inr ⟨(key, old) :: before, prior, item, after, hitem, rfl, rfl⟩

/-- Altering a field keeps the names apart, if what takes its place does so. -/
theorem Distinct.alter {name : Text} {f : Option Item → Except Error Item} {fields next : Fields}
    (h : Distinct fields) (hnext : fields.alter name f = .ok next)
    (hf : ∀ old item, (∀ prior ∈ old, prior.Distinct) → f old = .ok item → item.Distinct) :
    Distinct next := by
  rcases alter_cases hnext with
    ⟨item, hitem, hnew, rfl⟩ | ⟨before, old, item, after, hitem, rfl, rfl⟩
  · have hitem := hf none item (by simp) hitem
    refine ⟨?_, List.forall_mem_append.2 ⟨h.items, List.forall_mem_singleton.2 hitem⟩⟩
    rw [List.map_append, List.map_singleton, ← List.concat_eq_append]
    exact List.Nodup.concat hnew h.names
  · obtain ⟨hbefore, hafter⟩ := List.forall_mem_append.1 h.items
    obtain ⟨hold, hafter⟩ := List.forall_mem_cons.1 hafter
    have hitem := hf (some old) item (by simpa using hold) hitem
    refine ⟨?_, List.forall_mem_append.2 ⟨hbefore, List.forall_mem_cons.2 ⟨hitem, hafter⟩⟩⟩
    simpa using h.names

/-- A change below a path keeps the names different if it does so where it happens. -/
theorem Distinct.below {path : List Text} {f : Fields → Except Error Fields} {fields next : Fields}
    (h : Distinct fields) (hnext : fields.below path f = .ok next)
    (hf : ∀ fields next, Distinct fields → f fields = .ok next → Distinct next) :
    Distinct next := by
  induction path generalizing fields next with
  | nil => exact hf fields next h hnext
  | cons name path ih =>
    refine h.alter hnext fun old item hold hitem => ?_
    cases old with
    | none =>
      obtain ⟨fields, hfields, rfl⟩ := map_eq_ok_iff.1 hitem
      exact (ih distinct_nil hfields).table .implied
    | some old =>
      have hold := hold old rfl
      cases old with
      | table origin fields =>
        dsimp only at hitem
        split_ifs at hitem
        obtain ⟨fields, hfields, rfl⟩ := map_eq_ok_iff.1 hitem
        exact (ih (.of_table hold) hfields).table origin
      | tables earlier last =>
        obtain ⟨fields, hfields, rfl⟩ := map_eq_ok_iff.1 hitem
        exact (ih (.of_tables hold) hfields).tables earlier
      | _ => cases hitem

/-- Adding a field keeps the names different. -/
theorem Distinct.add {name : Text} {item : Item} {fields next : Fields} (h : Distinct fields)
    (hitem : item.Distinct) (hnext : fields.add name item = .ok next) : Distinct next := by
  refine h.alter hnext fun old item hold hitem => ?_
  cases old with
  | none =>
    cases hitem
    assumption
  | some old => cases hitem

/-- Opening a table keeps the names different. -/
theorem Distinct.openTable {name : Text} {fields next : Fields} (h : Distinct fields)
    (hnext : fields.openTable name = .ok next) : Distinct next := by
  refine h.alter hnext fun old item hold hitem => ?_
  split at hitem
  · cases hitem
    exact distinct_nil.table .header
  · cases hitem
    exact (Distinct.of_table (hold _ rfl)).table .header
  · cases hitem

/-- Opening the next table of a list keeps the names different. -/
theorem Distinct.openNext {name : Text} {fields next : Fields} (h : Distinct fields)
    (hnext : fields.openNext name = .ok next) : Distinct next := by
  refine h.alter hnext fun old item hold hitem => ?_
  split at hitem
  · cases hitem
    exact distinct_nil.tables []
  · cases hitem
    exact distinct_nil.tables _
  · cases hitem

/-- Adding a field under a dotted key keeps the names different. -/
theorem Distinct.addDotted {path : List Text} {name : Text} {item : Item} {fields next : Fields}
    (h : Distinct fields) (hitem : item.Distinct)
    (hnext : fields.addDotted path name item = .ok next) : Distinct next := by
  induction path generalizing fields next with
  | nil => exact h.add hitem hnext
  | cons table path ih =>
    refine h.alter hnext fun old item hold hitem => ?_
    split at hitem
    · obtain ⟨fields, hfields, rfl⟩ := map_eq_ok_iff.1 hitem
      exact (ih distinct_nil hfields).table .dotted
    · obtain ⟨fields, hfields, rfl⟩ := map_eq_ok_iff.1 hitem
      exact (ih (.of_table (hold _ rfl)) hfields).table .dotted
    · split_ifs at hitem
      obtain ⟨fields, hfields, rfl⟩ := map_eq_ok_iff.1 hitem
      exact (ih (.of_table (hold _ rfl)) hfields).table .implied
    · split_ifs at hitem
      obtain ⟨fields, hfields, rfl⟩ := map_eq_ok_iff.1 hitem
      exact (ih (.of_tables (hold _ rfl)) hfields).tables _
    · cases hitem
    · cases hitem

end Fields

/-! ## Reading -/

/-- What is read without nesting has no fields. -/
theorem distinct_of_readPlain {text rest : Text} {item : Item}
    (h : readPlain text = .ok (item, rest)) : item.Distinct := by
  unfold readPlain at h
  split at h
  · cases h
    exact .bool true
  · cases h
    exact .bool false
  · split at h
    · obtain ⟨⟨moment, rest⟩, -, heq⟩ := map_eq_ok_iff.1 h
      cases heq
      exact .moment moment
    · obtain ⟨rest, -, heq⟩ := map_eq_ok_iff.1 h
      cases heq
      exact .number

/-- What is read has no name twice in a table, and neither has a table that fields are added to. -/
theorem distinct_of_read (fuel : Nat) :
    (∀ depth text item rest, readItem fuel depth text = .ok (item, rest) → item.Distinct) ∧
      (∀ depth fields text next rest, fields.Distinct →
        readFields fuel depth fields text = .ok (next, rest) → next.Distinct) ∧
      ∀ depth text path name item rest,
        readPair fuel depth text = .ok (path, name, item, rest) → item.Distinct := by
  induction fuel with
  | zero =>
    unfold readItem readFields readPair
    exact ⟨nofun, nofun, nofun⟩
  | succ fuel ih =>
    obtain ⟨hitem, hfields, hpair⟩ := ih
    refine ⟨fun depth text item rest h => ?_, fun depth fields text next rest hdistinct h => ?_,
      fun depth text path name item rest h => ?_⟩
    · unfold readItem at h
      split at h
      · obtain ⟨⟨s, rest⟩, -, heq⟩ := map_eq_ok_iff.1 h
        cases heq
        exact .text s
      · split at h
        · cases h
        · cases h
        · obtain ⟨⟨items, rest⟩, -, heq⟩ := map_eq_ok_iff.1 h
          cases heq
          exact .list items
        · split at h
          · cases h
            exact Fields.distinct_nil.table .inline
          · obtain ⟨⟨fields, rest⟩, hread, heq⟩ := bind_eq_ok_iff.1 h
            cases heq
            exact (hfields _ _ _ _ _ Fields.distinct_nil hread).table .inline
        · exact distinct_of_readPlain h
    · unfold readFields at h
      obtain ⟨⟨path, name, item, rest⟩, hread, h⟩ := bind_eq_ok_iff.1 h
      obtain ⟨added, hadded, h⟩ := bind_eq_ok_iff.1 h
      have hadded := hdistinct.addDotted (hpair _ _ _ _ _ _ hread) hadded
      split at h
      · exact hfields _ _ _ _ _ hadded h
      · cases h
        exact hadded
      · cases h
    · unfold readPair at h
      obtain ⟨⟨path, name, rest⟩, -, h⟩ := bind_eq_ok_iff.1 h
      dsimp only at h
      split at h
      · obtain ⟨⟨item, rest⟩, hread, heq⟩ := bind_eq_ok_iff.1 h
        cases heq
        exact hitem _ _ _ _ hread
      · cases h

/-- No name stands twice in a table that a line holds. -/
def Line.Distinct : Line → Prop
  | .field _ _ item => item.Distinct
  | _ => True

/-- Every line that is read holds an item with different names. -/
theorem distinct_of_readLines {fuel : Nat} {text : Text} {lines : List Line}
    (h : readLines fuel text = .ok lines) : ∀ line ∈ lines, line.Distinct := by
  induction fuel generalizing text lines with
  | zero =>
    cases h
    exact List.forall_mem_nil _
  | succ fuel ih =>
    unfold readLines at h
    dsimp only at h
    split at h
    · cases h
      exact List.forall_mem_nil _
    · obtain ⟨⟨path, name, rest⟩, -, h⟩ := bind_eq_ok_iff.1 h
      obtain ⟨behind, -, h⟩ := bind_eq_ok_iff.1 h
      obtain ⟨later, hlater, heq⟩ := bind_eq_ok_iff.1 h
      cases heq
      exact List.forall_mem_cons.2 ⟨trivial, ih hlater⟩
    · obtain ⟨⟨path, name, rest⟩, -, h⟩ := bind_eq_ok_iff.1 h
      obtain ⟨behind, -, h⟩ := bind_eq_ok_iff.1 h
      obtain ⟨later, hlater, heq⟩ := bind_eq_ok_iff.1 h
      cases heq
      exact List.forall_mem_cons.2 ⟨trivial, ih hlater⟩
    · split_ifs at h
      · obtain ⟨behind, -, h⟩ := bind_eq_ok_iff.1 h
        exact ih h
      · obtain ⟨⟨path, name, item, rest⟩, hread, h⟩ := bind_eq_ok_iff.1 h
        obtain ⟨behind, -, h⟩ := bind_eq_ok_iff.1 h
        obtain ⟨later, hlater, heq⟩ := bind_eq_ok_iff.1 h
        cases heq
        exact List.forall_mem_cons.2 ⟨(distinct_of_read _).2.2 _ _ _ _ _ _ hread, ih hlater⟩

/-- One more line keeps the names different. -/
theorem distinct_of_step {state next : State} {line : Line} (h : state.1.Distinct)
    (hline : line.Distinct) (hnext : step state line = .ok next) : next.1.Distinct := by
  obtain ⟨fields, opened⟩ := state
  cases line with
  | field path name item =>
    obtain ⟨fields, hfields, rfl⟩ := map_eq_ok_iff.1 hnext
    exact Fields.Distinct.below h hfields fun _ _ h hnext => h.addDotted hline hnext
  | table path name =>
    obtain ⟨fields, hfields, rfl⟩ := map_eq_ok_iff.1 hnext
    exact Fields.Distinct.below h hfields fun _ _ h hnext => h.openTable hnext
  | nextTable path name =>
    obtain ⟨fields, hfields, rfl⟩ := map_eq_ok_iff.1 hnext
    exact Fields.Distinct.below h hfields fun _ _ h hnext => h.openNext hnext

/-- All lines together keep the names different. -/
theorem distinct_of_foldlM {lines : List Line} {state next : State} (h : state.1.Distinct)
    (hlines : ∀ line ∈ lines, line.Distinct) (hnext : lines.foldlM step state = .ok next) :
    next.1.Distinct := by
  induction lines generalizing state with
  | nil =>
    cases hnext
    exact h
  | cons line lines ih =>
    obtain ⟨hline, hlines⟩ := List.forall_mem_cons.1 hlines
    rw [List.foldlM_cons] at hnext
    obtain ⟨after, hafter, hnext⟩ := bind_eq_ok_iff.1 hnext
    exact ih (distinct_of_step h hline hafter) hlines hnext

/-- In the tables of a file no name stands twice. -/
theorem distinct_read {text : Text} {fields : Fields} (h : read text = .ok fields) :
    fields.Distinct := by
  obtain ⟨lines, hlines, h⟩ := bind_eq_ok_iff.1 h
  obtain ⟨⟨fields, opened⟩, hfields, heq⟩ := bind_eq_ok_iff.1 h
  cases heq
  exact distinct_of_foldlM Fields.distinct_nil (distinct_of_readLines hlines) hfields

end Toml

namespace Config

/-! ## Directives -/

/-- The directives have the names of the fields they are read from. -/
theorem names_of_mapM {f : Text × Toml.Item → Except Toml.Error (Text × Text)}
    (hf : ∀ field directive, f field = .ok directive → directive.1 = field.1)
    {fields : Toml.Fields} {directives : List (Text × Text)} (h : fields.mapM f = .ok directives) :
    directives.map Prod.fst = fields.map Prod.fst := by
  induction fields generalizing directives with
  | nil =>
    cases h
    rfl
  | cons field fields ih =>
    rw [List.mapM_cons] at h
    obtain ⟨directive, hdirective, h⟩ := bind_eq_ok_iff.1 h
    obtain ⟨rest, hrest, heq⟩ := bind_eq_ok_iff.1 h
    cases heq
    rw [List.map_cons, List.map_cons, hf field directive hdirective, ih hrest]

/-- Directives are in the order of the bytes of their names, each name once. -/
theorem pairwise_of_readDirectives {item : Toml.Item} {directives : List (Text × Text)}
    (h : readDirectives item = .ok directives) (hitem : item.Distinct) :
    directives.Pairwise fun a b => a.1.BytesBelow b.1 := by
  unfold readDirectives at h
  split at h
  case h_1 fields hfields =>
    obtain ⟨unsorted, hunsorted, heq⟩ := bind_eq_ok_iff.1 h
    cases heq
    refine Text.pairwise_bytesBelow_mergeSort ?_
    rw [names_of_mapM ?_ hunsorted]
    · exact hitem.nodup_of_fields? hfields
    · rintro ⟨name, item⟩ directive hdirective
      cases item with
      | text s =>
        cases hdirective
        rfl
      | _ => cases hdirective
  case h_2 => cases h

/-- The section for builds sets no directive. -/
theorem directives_of_readBuild {config next : Config} {item : Toml.Item}
    (h : readBuild config item = .ok next) : next.directives = config.directives := by
  unfold readBuild at h
  obtain ⟨fields, -, h⟩ := bind_eq_ok_iff.1 h
  obtain ⟨root, -, h⟩ := bind_eq_ok_iff.1 h
  obtain ⟨source, -, h⟩ := bind_eq_ok_iff.1 h
  obtain ⟨output, -, h⟩ := bind_eq_ok_iff.1 h
  obtain ⟨clean, -, h⟩ := bind_eq_ok_iff.1 h
  obtain ⟨safeOutput, -, h⟩ := bind_eq_ok_iff.1 h
  obtain ⟨buffer, -, h⟩ := bind_eq_ok_iff.1 h
  obtain ⟨dirs, -, h⟩ := bind_eq_ok_iff.1 h
  cases h
  rfl

theorem sectionFields_table {names : List Text} {origin : Toml.Origin} {fields next : Toml.Fields}
    (h : sectionFields names (.table origin fields) = .ok next) : next = fields := by
  unfold sectionFields at h
  dsimp only [Toml.Item.fields?] at h
  split at h
  · cases h
  · cases h
    rfl

/-- The directives of a configuration are in the order of the bytes of their names, and no name
stands twice. -/
theorem pairwise_directives {text : Text} {config : Config} (h : ofText text = .ok config) :
    config.directives.Pairwise fun a b => a.1.BytesBelow b.1 := by
  have hread : (Toml.read text >>= ofFields) = .ok config := by
    unfold ofText at h
    split at h
    case h_1 hread => exact Except.ok.inj h ▸ hread
    case h_2 => cases h
  obtain ⟨fields, hfields, hconfig⟩ := bind_eq_ok_iff.1 hread
  have hdistinct := Toml.distinct_read hfields
  obtain ⟨sections, hsections, hrest⟩ := bind_eq_ok_iff.1 hconfig
  rw [sectionFields_table hsections] at hrest
  cases hget : fields.get? "directives" with
  | none =>
    simp only [hget] at hrest
    have hnone : config.directives = [] := by
      split at hrest
      · obtain ⟨base, hbase, heq⟩ := bind_eq_ok_iff.1 hrest
        cases heq
        exact directives_of_readBuild hbase
      · cases hrest
        rfl
    rw [hnone]
    exact .nil
  | some item =>
    simp only [hget] at hrest
    -- With or without a section for the build, its directives are the ones read here.
    have hdirectives : readDirectives item = .ok config.directives := by
      split at hrest <;>
      · obtain ⟨base, -, hrest⟩ := bind_eq_ok_iff.1 hrest
        obtain ⟨directives, hdirectives, heq⟩ := bind_eq_ok_iff.1 hrest
        cases heq
        exact hdirectives
    exact pairwise_of_readDirectives hdirectives (hdistinct.get? hget)

end Config

end Pagewright
