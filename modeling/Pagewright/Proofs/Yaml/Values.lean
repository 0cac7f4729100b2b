import Pagewright.Page.FrontMatter
import Pagewright.Proofs.Json.Faithful
import Pagewright.Proofs.Path.Components

/-!
# The values of a settings block

Whatever a settings block holds is read into a sound value, nested no deeper than the reader allows
(`Yaml.within_read`, `FrontMatter.within_read`): each scalar is checked where it is read, and
records are made by setting one name after another, which keeps the names in order.
-/

namespace Pagewright

/-! ## Records -/

namespace Settings

variable {settings fields : Settings} {name : Text} {value : Value} {field : Text × Value}

theorem mem_set (h : field ∈ settings.set name value) :
    field = (name, value) ∨ field ∈ settings := by
  induction settings with
  | nil => exact .inl (List.mem_singleton.1 h)
  | cons first rest ih =>
    rw [set] at h
    split_ifs at h with hsame hbefore
    · rcases List.mem_cons.1 h with rfl | hrest
      · exact .inl (by rw [hsame])
      · exact .inr (List.mem_cons_of_mem _ hrest)
    · exact List.mem_cons.1 h
    · rcases List.mem_cons.1 h with rfl | hrest
      · exact .inr List.mem_cons_self
      · exact (ih hrest).imp_right (List.mem_cons_of_mem _)

/-- Setting a name keeps the names in order. -/
theorem Ordered.set (h : settings.Ordered) (name : Text) (value : Value) :
    (settings.set name value).Ordered := by
  induction settings with
  | nil => exact List.pairwise_singleton _ _
  | cons first rest ih =>
    obtain ⟨hfirst, hrest⟩ := List.pairwise_cons.1 h
    rw [Settings.set]
    split_ifs with hsame hbefore
    · exact List.pairwise_cons.2 ⟨hfirst, hrest⟩
    · refine List.pairwise_cons.2 ⟨fun other hother => ?_, h⟩
      rcases List.mem_cons.1 hother with rfl | hother
      · exact hbefore
      · exact decide_eq_true ((of_decide_eq_true hbefore).trans
          (of_decide_eq_true (hfirst other hother)))
    · refine List.pairwise_cons.2 ⟨fun other hother => ?_, ih hrest⟩
      rcases mem_set hother with rfl | hother
      · have hle : first.1 ≤ name := not_lt.1 fun hlt => hbefore (decide_eq_true hlt)
        exact decide_eq_true (lt_of_le_of_ne hle (Ne.symm hsame))
      · exact hfirst other hother

theorem mem_setAll (h : field ∈ settings.setAll fields) : field ∈ settings ∨ field ∈ fields := by
  induction fields generalizing settings with
  | nil => exact .inl h
  | cons first fields ih =>
    rcases ih h with hset | hfields
    · rcases mem_set hset with rfl | hsettings
      · exact .inr List.mem_cons_self
      · exact .inl hsettings
    · exact .inr (List.mem_cons_of_mem _ hfields)

/-- Settings stay in order whatever is set. -/
theorem Ordered.setAll (h : settings.Ordered) (fields : List (Text × Value)) :
    (settings.setAll fields).Ordered := by
  induction fields generalizing settings with
  | nil => exact h
  | cons first fields ih => exact ih (h.set first.1 first.2)

end Settings

namespace Value

variable {depth : Nat}

/-- A list is one level deeper than its items. -/
theorem within_list {items : List Value} (h : ∀ value ∈ items, value.Within depth) :
    (Value.list items).Within (depth + 1) := by
  suffices hitems : itemsSound items = true ∧ itemsNesting items ≤ depth from
    ⟨hitems.1, Nat.succ_le_succ hitems.2⟩
  induction items with
  | nil => exact ⟨rfl, Nat.zero_le _⟩
  | cons value items ih =>
    obtain ⟨hvalue, hitems⟩ := List.forall_mem_cons.1 h
    exact ⟨Bool.and_eq_true_iff.2 ⟨hvalue.1, (ih hitems).1⟩, max_le hvalue.2 (ih hitems).2⟩

/-- A record is one level deeper than its values. -/
theorem within_record {fields : Settings} (hordered : fields.Ordered)
    (h : ∀ field ∈ fields, field.2.Within depth) : (Value.record fields).Within (depth + 1) := by
  suffices hfields : fieldsSound fields = true ∧ fieldsNesting fields ≤ depth from
    ⟨Bool.and_eq_true_iff.2 ⟨decide_eq_true hordered, hfields.1⟩, Nat.succ_le_succ hfields.2⟩
  clear hordered
  induction fields with
  | nil => exact ⟨rfl, Nat.zero_le _⟩
  | cons field fields ih =>
    obtain ⟨hvalue, hfields⟩ := List.forall_mem_cons.1 h
    exact ⟨Bool.and_eq_true_iff.2 ⟨hvalue.1, (ih hfields).1⟩, max_le hvalue.2 (ih hfields).2⟩

end Value

namespace Yaml

/-! ## Scalars -/

section Scalars

variable {text : Text} {value : Value} (depth : Nat)

theorem within_intValue? (h : intValue? text = some (.ok value)) : value.Within depth := by
  unfold intValue? at h
  split at h
  · cases h
  · split_ifs at h with hrange hlarge
    · cases h
      exact ⟨decide_eq_true hrange, Nat.zero_le _⟩
    · cases h

/-- A decimal is read as a double in range. -/
theorem inRange_of_decimal? {negative : Bool} {x : Binary64} (h : decimal? negative text = some x) :
    x.InRange := by
  unfold decimal? at h
  simp only at h
  split_ifs at h
  obtain ⟨exponent, -, hexponent⟩ := Option.bind_eq_some_iff.1 h
  split at hexponent
  · exact Binary64.inRange_of_nearest? hexponent
  · cases hexponent

theorem within_decimal? {negative : Bool}
    (h : (decimal? negative text).map Value.float = some value) : value.Within depth := by
  obtain ⟨x, hx, rfl⟩ := Option.map_eq_some_iff.1 h
  exact ⟨decide_eq_true (inRange_of_decimal? hx), Nat.zero_le _⟩

theorem within_floatValue? (h : floatValue? text = some value) : value.Within depth := by
  have hnull : some Value.null = some value → value.Within depth := by
    rintro ⟨⟩
    exact ⟨rfl, Nat.zero_le _⟩
  unfold floatValue? at h
  simp only at h
  split at h
  · exact hnull h
  · split at h
    all_goals
      split at h
      · exact hnull h
      · exact within_decimal? depth h

/-- A plain scalar has no depth. -/
theorem within_plainValue (h : plainValue text = .ok value) : value.Within depth := by
  unfold plainValue at h
  split at h
  · cases h
    exact ⟨rfl, Nat.zero_le _⟩
  · split at h
    · cases h
      exact ⟨rfl, Nat.zero_le _⟩
    · split at h
      next hint =>
        subst h
        exact within_intValue? depth hint
      next =>
        split at h
        · cases h
          exact ⟨rfl, Nat.zero_le _⟩
        · cases h
          cases hfloat : floatValue? text with
          | none => exact ⟨rfl, Nat.zero_le _⟩
          | some value => exact within_floatValue? depth hfloat

/-- No scalar has any. -/
theorem within_scalarValue {tag : Option Text} {plain : Bool}
    (h : scalarValue tag text plain = .ok value) : value.Within depth := by
  unfold scalarValue at h
  simp only at h
  split at h
  · split at h
    · exact within_plainValue depth h
    · cases h
      exact ⟨rfl, Nat.zero_le _⟩
  · split_ifs at h
    · split at h
      next hbool =>
        cases h
        obtain ⟨b, -, rfl⟩ := Option.map_eq_some_iff.1 hbool
        exact ⟨rfl, Nat.zero_le _⟩
      next => cases h
    · split at h
      next hint =>
        subst h
        exact within_intValue? depth hint
      next => cases h
    · split at h
      next hfloat =>
        cases h
        exact within_floatValue? depth hfloat
      next => cases h
    · cases h
      exact ⟨rfl, Nat.zero_le _⟩
    · cases h
      exact ⟨rfl, Nat.zero_le _⟩

end Scalars

/-! ## Nodes -/

section Following

variable {α β : Type} {P : α → Prop} {Q : β → Prop}

/-- Whatever is read has a property. -/
def Gives (P : α → Prop) (reading : Following α) : Prop :=
  ∀ followed a after, reading.run followed = .ok (a, after) → P a

theorem gives_pure {a : α} (h : P a) : Gives P (pure a : Following α) := by
  rintro followed b after ⟨⟩
  exact h

theorem gives_throw (e : Error) : Gives P (throw e : Following α) := by
  rintro followed a after ⟨⟩

theorem gives_lift {result : Except Error α} (h : ∀ a, result = .ok a → P a) :
    Gives P (liftM result : Following α) := by
  intro followed a after hrun
  cases result with
  | error e => cases hrun
  | ok b =>
    cases hrun
    exact h a rfl

/-- What holds of a first reading carries over to the next one. -/
theorem gives_bind {reading : Following α} {next : α → Following β} (hreading : Gives P reading)
    (hnext : ∀ a, P a → Gives Q (next a)) : Gives Q (reading >>= next) := by
  intro followed b after hrun
  rw [StateT.run_bind] at hrun
  cases hfirst : reading.run followed with
  | error e =>
    rw [hfirst] at hrun
    cases hrun
  | ok found =>
    rw [hfirst] at hrun
    exact hnext found.1 (hreading followed found.1 found.2 hfirst) found.2 b after hrun

theorem gives_any (reading : Following α) : Gives (fun _ => True) reading :=
  fun _ _ _ _ => trivial

/-- Reading a list reads its items one by one. -/
theorem gives_mapM {f : β → Following α} (h : ∀ b, Gives P (f b)) (items : List β) :
    Gives (fun found => ∀ a ∈ found, P a) (items.mapM f) := by
  induction items with
  | nil => exact gives_pure nofun
  | cons item items ih =>
    rw [List.mapM_cons]
    refine gives_bind (h item) fun a ha => gives_bind ih fun found hfound => gives_pure ?_
    exact List.forall_mem_cons.2 ⟨ha, hfound⟩

end Following

/-- What a node stands for is sound, and nested no deeper than is allowed. -/
theorem gives_value (links : Links) (depth : Nat) (node : Node Nat) :
    Gives (Value.Within depth) (links.value depth node) := by
  rw [Links.value]
  refine gives_bind (gives_any _) fun target _ => ?_
  cases target with
  | scalar anchor tag text plain => exact gives_lift fun value => within_scalarValue depth
  | «alias» number => exact gives_throw _
  | list anchor tag items =>
    refine gives_bind (gives_any _) fun _ _ => ?_
    cases depth with
    | zero => exact gives_throw _
    | succ depth =>
      refine gives_bind (gives_mapM (gives_value links depth) items) fun found hfound => ?_
      exact gives_pure (Value.within_list hfound)
  | record anchor tag fields =>
    refine gives_bind (gives_any _) fun _ _ => ?_
    cases depth with
    | zero => exact gives_throw _
    | succ depth =>
      refine gives_bind (P := fun found : Settings => ∀ field ∈ found, field.2.Within depth) ?_
        fun found hfound => ?_
      · refine gives_mapM (fun field => ?_) fields
        refine gives_bind (gives_any _) fun key _ => ?_
        exact gives_bind (gives_value links depth field.2) fun value hvalue => gives_pure hvalue
      · refine gives_pure (Value.within_record (Settings.Ordered.setAll List.Pairwise.nil found) ?_)
        intro field hfield
        exact hfound field ((Settings.mem_setAll hfield).resolve_left List.not_mem_nil)

/-- What a document holds is sound, and nested as deep as the reader allows. -/
theorem within_read {text : Text} {value : Value} (h : read text = .ok value) :
    value.Within maxDepth := by
  unfold read at h
  obtain ⟨tokens, -, h⟩ := bind_eq_ok_iff.1 h
  obtain ⟨parsed, -, h⟩ := bind_eq_ok_iff.1 h
  obtain ⟨node, -, h⟩ := bind_eq_ok_iff.1 h
  obtain ⟨found, hfound, hvalue⟩ := bind_eq_ok_iff.1 h
  cases hvalue
  exact gives_value _ maxDepth node 0 found.1 found.2 hfound

end Yaml

/-- The settings of a text are sound. -/
theorem FrontMatter.within_settings {block : Text} {settings : Settings}
    (h : FrontMatter.settings block = .ok settings) :
    (Value.record settings).Within Yaml.maxDepth := by
  unfold FrontMatter.settings at h
  split at h
  · cases h
    decide
  · split at h
    next => cases h
    next hread =>
      cases h
      exact Yaml.within_read hread
    next =>
      cases h
      decide
    all_goals cases h

/-- The settings of a page are no deeper than the reader goes. -/
theorem FrontMatter.within_read {text body : Text} {settings : Settings}
    (h : FrontMatter.read text = .ok (settings, body)) :
    (Value.record settings).Within Yaml.maxDepth := by
  unfold FrontMatter.read at h
  split at h
  · cases h
    decide
  · next block rest _ =>
    cases hblock : FrontMatter.settings block with
    | error e =>
      rw [hblock] at h
      cases h
    | ok found =>
      rw [hblock] at h
      cases h
      exact within_settings hblock

end Pagewright
