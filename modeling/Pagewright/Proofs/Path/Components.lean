import Mathlib.Data.List.Basic
import Mathlib.Data.List.Induction
import Mathlib.Tactic.Common
import Pagewright.Path.Basic

/-!
# What paths mean

The operations on paths work on the text of a path, segment by segment. What a path means is how it
starts and the steps that it takes from there (`Path.lead`, `Path.steps`, `Path.components_eq`), and
this file says what the operations do to these: joining puts steps together (`Path.steps_join`), the
parent drops the last one (`Path.exists_parent?`), a file name can be replaced
(`Path.steps_withFileName`), and what lies below a base is what is left of the steps
(`Path.relativeTo?_eq_some`).

A list of segments spells the path that it was meant to spell as long as no segment holds a slash
and the first one means something when nothing leads the path (`Segments.Proper`,
`Segments.steps_text`).
-/

namespace Pagewright

/-- A result of two steps comes from a result of the first. -/
theorem bind_eq_ok_iff {ε α β : Type} {x : Except ε α} {f : α → Except ε β} {b : β} :
    x >>= f = .ok b ↔ ∃ a, x = .ok a ∧ f a = .ok b := by
  cases x with
  | error e => simp [bind, Except.bind]
  | ok a => simp [bind, Except.bind]

namespace Text

variable {mark : Char}

/-- A text has at least one part. -/
theorem parts_ne_nil (mark : Char) (text : Text) : parts mark text ≠ [] := by
  cases text with
  | nil => simp [parts]
  | cons c text =>
    unfold parts
    split
    · simp
    · split <;> simp

theorem parts_cons_mark (text : Text) : parts mark (mark :: text) = [] :: parts mark text :=
  if_pos rfl

/-- Any other character goes to the first part. -/
theorem parts_cons {c : Char} (h : c ≠ mark) {text first : Text} {rest : List Text}
    (hparts : parts mark text = first :: rest) :
    parts mark (c :: text) = (c :: first) :: rest := by
  rw [parts, if_neg h, hparts]

/-- A text without the mark is one part. -/
theorem parts_of_not_mem {text : Text} (h : mark ∉ text) : parts mark text = [text] := by
  induction text with
  | nil => rfl
  | cons c text ih =>
    rw [List.mem_cons, not_or] at h
    exact parts_cons (Ne.symm h.1) (ih h.2)

/-- A mark between two texts separates their parts. -/
theorem parts_append (a b : Text) :
    parts mark (a ++ mark :: b) = parts mark a ++ parts mark b := by
  induction a with
  | nil => exact parts_cons_mark b
  | cons c a ih =>
    by_cases hc : c = mark
    · subst hc
      rw [List.cons_append, parts_cons_mark, ih, parts_cons_mark, List.cons_append]
    · obtain ⟨first, rest, hparts⟩ := List.exists_cons_of_ne_nil (parts_ne_nil mark a)
      rw [hparts] at ih
      rw [List.cons_append, parts_cons hc ih, parts_cons hc hparts]
      rfl

theorem not_mem_of_mem_parts {text part : Text} (h : part ∈ parts mark text) : mark ∉ part := by
  induction text generalizing part with
  | nil => simp_all [parts]
  | cons c text ih =>
    obtain ⟨first, rest, hparts⟩ := List.exists_cons_of_ne_nil (parts_ne_nil mark text)
    by_cases hc : c = mark
    · subst hc
      rw [parts_cons_mark] at h
      rcases List.mem_cons.1 h with rfl | h
      · simp
      · exact ih h
    · rw [parts_cons hc hparts] at h
      rcases List.mem_cons.1 h with rfl | h
      · have hfirst : mark ∉ first := ih (by simp [hparts])
        simp [hfirst, Ne.symm hc]
      · exact ih (by simp [hparts, h])

/-- Texts without the mark are the parts of what they make when joined with it. -/
theorem parts_intercalate {segments : List Text} (hne : segments ≠ [])
    (h : ∀ segment ∈ segments, mark ∉ segment) :
    parts mark (List.intercalate [mark] segments) = segments := by
  induction segments with
  | nil => exact absurd rfl hne
  | cons segment rest ih =>
    cases rest with
    | nil => simpa using parts_of_not_mem (h segment (by simp))
    | cons next rest =>
      rw [List.intercalate_cons_cons, List.append_assoc, List.singleton_append, parts_append,
        parts_of_not_mem (h segment (by simp)), ih (by simp) fun s hs => h s (by simp [hs])]
      rfl

/-- The parts of a text, joined with the mark, make up the text. -/
theorem intercalate_parts (mark : Char) (text : Text) :
    List.intercalate [mark] (parts mark text) = text := by
  induction text with
  | nil => rfl
  | cons c text ih =>
    obtain ⟨first, rest, hparts⟩ := List.exists_cons_of_ne_nil (parts_ne_nil mark text)
    by_cases hc : c = mark
    · subst hc
      rw [parts_cons_mark, hparts, List.intercalate_cons_cons, ← hparts, ih]
      rfl
    · rw [parts_cons hc hparts]
      rw [hparts] at ih
      cases rest with
      | nil => simpa using ih
      | cons next rest =>
        rw [List.intercalate_cons_cons] at ih ⊢
        rw [← ih]
        rfl

end Text

namespace Segments

/-! ## Segments -/

/-- The steps that segments stand for. -/
def names (body : List Text) : List Component :=
  body.filterMap Component.ofSegment?

@[simp]
theorem names_nil : names [] = [] := rfl

@[simp]
theorem names_append (a b : List Text) : names (a ++ b) = names a ++ names b :=
  List.filterMap_append

theorem names_singleton (segment : Text) :
    names [segment] = (Component.ofSegment? segment).toList := by
  cases h : Component.ofSegment? segment <;> simp [names, h]

/-- A segment that means nothing can be left out. -/
theorem names_cons_of_not_isMeant {segment : Text} (h : isMeant segment = false)
    (body : List Text) : names (segment :: body) = names body :=
  List.filterMap_cons_none (by simpa [isMeant] using h)

/-- The empty segment and the dot mean nothing. -/
theorem isMeant_iff {segment : Text} :
    isMeant segment = true ↔ segment ≠ [] ∧ segment ≠ ['.'] := by
  unfold isMeant Component.ofSegment?
  split
  case isTrue h => simpa using fun hne => h.resolve_left hne
  case isFalse h =>
    have : segment ≠ [] ∧ segment ≠ ['.'] := not_or.1 h
    split <;> simp [this]

/-- A segment that means something is a name, two dots apart. -/
theorem ofSegment?_normal {segment : Text} (h : isMeant segment = true)
    (hparent : segment ≠ ['.', '.']) : Component.ofSegment? segment = some (.normal segment) := by
  rw [isMeant_iff] at h
  rw [Component.ofSegment?, if_neg (not_or.2 h), if_neg hparent]

theorem isMeant_of_ofSegment? {segment : Text} {c : Component}
    (h : Component.ofSegment? segment = some c) : isMeant segment = true := by
  simp [isMeant, h]

/-- A name is spelled by itself. -/
theorem eq_of_ofSegment?_normal {segment name : Text}
    (h : Component.ofSegment? segment = some (.normal name)) :
    segment = name ∧ segment ≠ ['.', '.'] := by
  unfold Component.ofSegment? at h
  split at h
  · cases h
  · split at h
    · cases h
    case isFalse hp =>
      cases h
      exact ⟨rfl, hp⟩

/-- Every step is `..` or a name. -/
theorem eq_parent_or_normal_of_mem_names {body : List Text} {c : Component}
    (h : c ∈ names body) : c = .parent ∨ ∃ name ∈ body, c = .normal name := by
  obtain ⟨segment, hmem, hsegment⟩ := List.mem_filterMap.1 h
  unfold Component.ofSegment? at hsegment
  split at hsegment
  · cases hsegment
  · split at hsegment
    · exact .inl (Option.some.inj hsegment).symm
    · exact .inr ⟨segment, hmem, (Option.some.inj hsegment).symm⟩

/-! ### Segments that mean nothing at the end -/

/-- The last segment stays if it means something. -/
theorem trimRight_concat (body : List Text) (segment : Text) :
    trimRight (body ++ [segment]) =
      if isMeant segment then body ++ [segment] else trimRight body := by
  unfold trimRight
  rw [List.reverse_append, List.reverse_singleton, List.singleton_append, List.dropWhile_cons]
  cases isMeant segment <;> simp

/-- Segments that mean nothing can be dropped at the end. -/
theorem names_trimRight (body : List Text) : names (trimRight body) = names body := by
  induction body using List.reverseRecOn with
  | nil => rfl
  | append_singleton body segment ih =>
    rw [trimRight_concat]
    split
    · rfl
    case isFalse h =>
      rw [ih, names_append, names_cons_of_not_isMeant (by simpa using h)]
      simp

theorem trimRight_isPrefix (body : List Text) : List.IsPrefix (trimRight body) body := by
  induction body using List.reverseRecOn with
  | nil => exact List.prefix_rfl
  | append_singleton body segment ih =>
    rw [trimRight_concat]
    split
    · exact List.prefix_rfl
    · exact ih.trans (List.prefix_append _ _)

/-- What stays is empty or ends with a segment that means something. -/
theorem trimRight_eq_nil_or (body : List Text) :
    trimRight body = [] ∨
      ∃ before name, trimRight body = before ++ [name] ∧ isMeant name = true := by
  induction body using List.reverseRecOn with
  | nil => exact .inl rfl
  | append_singleton body segment ih =>
    rw [trimRight_concat]
    split
    case isTrue h => exact .inr ⟨body, segment, rfl, h⟩
    · exact ih

/-! ### Segments behind others -/

theorem dropMeant_isSuffix (n : Nat) (body : List Text) : dropMeant n body <:+ body := by
  induction n, body using dropMeant.induct with
  | case1 body => simp only [dropMeant, List.suffix_refl]
  | case2 n => exact List.suffix_rfl
  | case3 n segment body h ih =>
    rw [dropMeant, if_pos h]
    exact ih.trans (List.suffix_cons _ _)
  | case4 n segment body h ih =>
    rw [dropMeant, if_neg h]
    exact ih.trans (List.suffix_cons _ _)

/-- As many segments are passed as there are steps. -/
theorem dropMeant_left {front rest : List Text} (h : ∀ segment ∈ front, isMeant segment = true) :
    dropMeant front.length (front ++ rest) = rest := by
  induction front with
  | nil => rw [List.nil_append, List.length_nil, dropMeant]
  | cons segment front ih =>
    rw [List.cons_append, List.length_cons, dropMeant, if_pos (h segment List.mem_cons_self)]
    exact ih fun other hother => h other (List.mem_cons_of_mem _ hother)

theorem dropWhile_not_isMeant {body : List Text} (h : ∀ segment ∈ body, isMeant segment = true) :
    body.dropWhile (fun segment => !isMeant segment) = body := by
  cases body with
  | nil => rfl
  | cons segment body => exact List.dropWhile_cons_of_neg (by simp [h segment List.mem_cons_self])

theorem trimRight_of_isMeant {body : List Text} (h : ∀ segment ∈ body, isMeant segment = true) :
    trimRight body = body := by
  rw [trimRight, dropWhile_not_isMeant fun segment hmem => h segment (List.mem_reverse.1 hmem),
    List.reverse_reverse]

/-- Behind some segments stand the steps that follow. -/
theorem names_dropMeant (n : Nat) (body : List Text) :
    names (dropMeant n body) = (names body).drop n := by
  induction n, body using dropMeant.induct with
  | case1 body => rw [dropMeant, List.drop_zero]
  | case2 n => rfl
  | case3 n segment body h ih =>
    obtain ⟨c, hc⟩ := Option.isSome_iff_exists.1 h
    have hnames : names (segment :: body) = c :: names body := List.filterMap_cons_some hc
    rw [dropMeant, if_pos h, ih, hnames, List.drop_succ_cons]
  | case4 n segment body h ih =>
    rw [dropMeant, if_neg h, ih, names_cons_of_not_isMeant (by simpa using h)]

theorem names_dropWhile (body : List Text) :
    names (body.dropWhile fun segment => !isMeant segment) = names body := by
  induction body with
  | nil => rfl
  | cons segment body ih =>
    cases h : isMeant segment with
    | false => rw [List.dropWhile_cons_of_pos (by simp [h]), ih, names_cons_of_not_isMeant h]
    | true => rw [List.dropWhile_cons_of_neg (by simp [h])]

/-! ### Segments spell a path -/

/-- No segment holds a slash, and the first one means something when nothing leads the path. -/
structure Proper (s : Segments) : Prop where
  no_slash : ∀ segment ∈ s.body, '/' ∉ segment
  first : s.lead = .none → ∀ segment ∈ s.body.head?, isMeant segment = true

/-- A path whose first part means something has nothing that leads it. -/
theorem ofText_of_isMeant {text first : Text} {rest : List Text}
    (hparts : Text.parts '/' text = first :: rest) (hfirst : isMeant first = true) :
    ofText text = ⟨.none, first :: rest⟩ := by
  rw [isMeant_iff] at hfirst
  unfold ofText
  split
  · exact absurd (List.cons.inj hparts).1.symm hfirst.1
  · rw [Text.parts_cons_mark] at hparts
    exact absurd (List.cons.inj hparts).1.symm hfirst.1
  · exact absurd (List.cons.inj hparts).1.symm hfirst.2
  · rw [Text.parts_cons (by decide) (Text.parts_cons_mark _)] at hparts
    exact absurd (List.cons.inj hparts).1.symm hfirst.2
  · rw [hparts]

/-- The segments of a text are proper. -/
theorem proper_ofText (text : Text) : (ofText text).Proper := by
  refine ⟨fun segment h => ?_, fun hlead segment h => ?_⟩
  · unfold ofText at h
    split at h
    · cases h
    · exact Text.not_mem_of_mem_parts h
    · cases h
    · exact Text.not_mem_of_mem_parts h
    · exact Text.not_mem_of_mem_parts h
  · unfold ofText at hlead h
    split at h
    · cases h
    · cases hlead
    · cases h
    · cases hlead
    case h_5 hnil hslash hdot hdotSlash =>
      obtain ⟨first, rest, hparts⟩ :=
        List.exists_cons_of_ne_nil (Text.parts_ne_nil '/' text)
      obtain rfl : first = segment := by simpa [hparts] using h
      -- A first part that means nothing spells one of the four starts that are excluded here.
      have htext : List.intercalate ['/'] (first :: rest) = text :=
        hparts ▸ Text.intercalate_parts '/' text
      rw [isMeant_iff]
      refine ⟨?_, ?_⟩
      · rintro rfl
        cases rest with
        | nil => exact hnil htext.symm
        | cons next rest => exact hslash _ (htext.symm.trans (List.intercalate_cons_cons ..))
      · rintro rfl
        cases rest with
        | nil => exact hdot htext.symm
        | cons next rest => exact hdotSlash _ (htext.symm.trans (List.intercalate_cons_cons ..))

/-- The first of some proper segments are proper. -/
theorem Proper.of_isPrefix {s : Segments} (h : s.Proper) {body : List Text}
    (hbody : List.IsPrefix body s.body) : Proper ⟨s.lead, body⟩ := by
  refine ⟨fun segment hmem => h.no_slash segment (hbody.subset hmem), fun hlead segment hmem => ?_⟩
  obtain ⟨rest, hrest⟩ := hbody
  cases body with
  | nil => cases hmem
  | cons first body =>
    rw [List.cons_append] at hrest
    exact h.first hlead segment (by simpa [← hrest] using hmem)

/-- A slash in front of every segment is a slash in front and one between any two. -/
theorem flatMap_slash (segment : Text) (body : List Text) :
    ((segment :: body).flatMap fun segment => '/' :: segment) =
      '/' :: List.intercalate ['/'] (segment :: body) := by
  induction body generalizing segment with
  | nil => simp
  | cons next body ih =>
    rw [List.flatMap_cons, ih, List.intercalate_cons_cons]
    simp

/-- Proper segments spell a path that starts as they do. -/
theorem lead_ofText_text {s : Segments} (h : s.Proper) : (ofText s.text).lead = s.lead := by
  obtain ⟨lead, body⟩ := s
  cases lead with
  | root => rfl
  | current =>
    cases body with
    | nil => rfl
    | cons segment body =>
      rw [text, flatMap_slash]
      rfl
  | none =>
    cases body with
    | nil => rfl
    | cons segment body =>
      have hparts : Text.parts '/' (text ⟨.none, segment :: body⟩) = segment :: body :=
        Text.parts_intercalate (by simp) h.no_slash
      rw [ofText_of_isMeant hparts (h.first rfl segment rfl)]

/-- Proper segments spell a path that takes their steps. -/
theorem names_ofText_text {s : Segments} (h : s.Proper) :
    names (ofText s.text).body = names s.body := by
  obtain ⟨lead, body⟩ := s
  cases body with
  | nil => cases lead <;> rfl
  | cons segment body =>
    have hparts : Text.parts '/' (List.intercalate ['/'] (segment :: body)) = segment :: body :=
      Text.parts_intercalate (by simp) h.no_slash
    cases lead with
    | root => exact congrArg names hparts
    | current =>
      rw [text, flatMap_slash]
      exact congrArg names hparts
    | none => exact congrArg (names ·.body) (ofText_of_isMeant hparts (h.first rfl segment rfl))

end Segments

namespace Path

open Segments

/-! ## Paths -/

/-- How the path starts. -/
def lead (path : Path) : Lead :=
  path.segments.lead

/-- The steps that the path takes from its start. -/
def steps (path : Path) : List Component :=
  names (Text.parts '/' path.text)

/-- The segments of a path are parts of its text, the first one apart if it is the lead. -/
theorem body_isSuffix (path : Path) : path.segments.body <:+ Text.parts '/' path.text := by
  unfold segments ofText
  split
  · exact List.nil_suffix
  case h_2 rest htext =>
    rw [htext, Text.parts_cons_mark]
    exact List.suffix_cons _ _
  · exact List.nil_suffix
  case h_4 rest htext =>
    rw [htext, Text.parts_cons (by decide) (Text.parts_cons_mark _)]
    exact List.suffix_cons _ _
  · exact List.suffix_rfl

/-- The steps of a path are what its segments mean. -/
theorem steps_eq_names_body (path : Path) : path.steps = names path.segments.body := by
  unfold steps segments ofText
  split
  case h_1 htext => rw [htext]; rfl
  case h_2 rest htext =>
    rw [htext, Text.parts_cons_mark, names_cons_of_not_isMeant rfl]
  case h_3 htext => rw [htext]; rfl
  case h_4 rest htext =>
    rw [htext, Text.parts_cons (by decide) (Text.parts_cons_mark _), names_cons_of_not_isMeant rfl]
  · rfl

/-- No step of a path leads to the root. -/
theorem root_notMem_steps (path : Path) : .root ∉ path.steps := by
  intro h
  rcases eq_parent_or_normal_of_mem_names h with h | ⟨name, -, h⟩ <;> cases h

theorem text_ne_nil_of_steps {path : Path} (h : path.steps ≠ []) : path.text ≠ [] := by
  intro htext
  rw [steps, htext] at h
  exact h rfl

/-- What a path means is how it starts and the steps that it takes. -/
theorem components_eq (path : Path) :
    path.components =
      (match path.lead with
        | .root => [Component.root]
        | .current => [Component.current]
        | .none => []) ++ path.steps := by
  rw [steps_eq_names_body]
  rfl

/-- A path of names only has no lead. -/
theorem lead_steps_of_components {path : Path} {names : List Text}
    (h : path.components = names.map .normal) :
    path.lead = .none ∧ path.steps = names.map .normal := by
  rw [components_eq] at h
  cases hlead : path.lead with
  | none =>
    rw [hlead] at h
    exact ⟨rfl, h⟩
  | _ => cases names <;> simp [hlead] at h

/-- A path that is written has a component. -/
theorem components_ne_nil {path : Path} (h : path.text ≠ []) : path.components ≠ [] := by
  intro hnil
  rw [components_eq, List.append_eq_nil_iff, steps_eq_names_body] at hnil
  have hlead : path.segments.lead = .none := by
    cases hlead : path.lead <;> simp_all [lead]
  have hbody : path.segments.body ≠ [] := by
    unfold segments ofText at hlead ⊢
    split at hlead
    · exact absurd ‹_› h
    · cases hlead
    · cases hlead
    · cases hlead
    · exact Text.parts_ne_nil '/' path.text
  obtain ⟨first, rest, hfirst⟩ := List.exists_cons_of_ne_nil hbody
  have hmeant := (proper_ofText path.text).first hlead first (by rw [← segments, hfirst]; rfl)
  obtain ⟨c, hc⟩ := Option.isSome_iff_exists.1 hmeant
  simp [names, hfirst, hc] at hnil

/-- The paths that start at the root are the absolute ones. -/
theorem lead_eq_root_iff {path : Path} : path.lead = .root ↔ path.isAbsolute = true := by
  obtain ⟨text⟩ := path
  cases text with
  | nil => simp [lead, segments, ofText, isAbsolute]
  | cons c rest =>
    by_cases hc : c = '/'
    · subst hc
      simp [lead, segments, ofText, isAbsolute]
    · simp only [isAbsolute, List.head?_cons, Option.some.injEq, hc, decide_false]
      unfold lead segments ofText
      split <;> simp_all

/-- Proper segments are spelled with their lead. -/
theorem lead_text {s : Segments} (h : s.Proper) : (⟨s.text⟩ : Path).lead = s.lead :=
  lead_ofText_text h

/-- Proper segments are spelled with what they mean. -/
theorem steps_text {s : Segments} (h : s.Proper) : (⟨s.text⟩ : Path).steps = names s.body := by
  rw [steps_eq_names_body]
  exact names_ofText_text h

/-! ### Joining -/

/-- The lead of a path does not depend on what follows behind a slash. -/
theorem lead_append_slash {text : Text} (h : text ≠ []) (child : Text) :
    (⟨text ++ '/' :: child⟩ : Path).lead = (⟨text⟩ : Path).lead := by
  have hproper := proper_ofText text
  unfold lead segments
  generalize hs : ofText text = s at hproper ⊢
  unfold ofText at hs
  split at hs
  · exact absurd rfl h
  · subst hs; rfl
  · subst hs; rfl
  · subst hs; rfl
  · subst hs
    obtain ⟨first, rest, hparts⟩ := List.exists_cons_of_ne_nil (Text.parts_ne_nil '/' text)
    have hfirst : isMeant first = true := hproper.first rfl first (by simp [hparts])
    have happend : Text.parts '/' (text ++ '/' :: child) =
        first :: (rest ++ Text.parts '/' child) := by
      rw [Text.parts_append, hparts, List.cons_append]
    rw [ofText_of_isMeant happend hfirst]

/-- A relative path joined to the empty one stays what it is. -/
theorem join_of_text_eq_nil {path : Path} (hpath : path.text = []) {child : Path}
    (hchild : child.isAbsolute = false) : path.join child = child := by
  rw [join, if_neg (by simp [hchild]), hpath]
  rfl

/-- Joining puts a slash between the two, unless there is one already. -/
theorem exists_text_join {path : Path} (hpath : path.text ≠ []) {child : Path}
    (hchild : child.isAbsolute = false) :
    ∃ front, (path.join child).text = front ++ '/' :: child.text ∧
      (path.text = front ∨ path.text = front ++ '/' :: []) := by
  obtain ⟨text⟩ := path
  rcases List.eq_nil_or_concat' text with rfl | ⟨front, c, rfl⟩
  · exact absurd rfl hpath
  · rw [join, if_neg (by simp [hchild]), List.getLast?_concat]
    by_cases hc : c = '/'
    · subst hc
      exact ⟨front, by simp, .inr rfl⟩
    · refine ⟨front ++ [c], ?_, .inl rfl⟩
      simp [hc]

theorem text_join_ne_nil {path : Path} (h : path.text ≠ []) (child : Path) :
    (path.join child).text ≠ [] := by
  cases hchild : child.isAbsolute with
  | true =>
    rw [join, if_pos hchild]
    intro htext
    simp [isAbsolute, htext] at hchild
  | false =>
    obtain ⟨front, htext, -⟩ := exists_text_join h hchild
    simp [htext]

/-- Joining puts the steps together. -/
theorem steps_join (path : Path) {child : Path} (hchild : child.isAbsolute = false) :
    (path.join child).steps = path.steps ++ child.steps := by
  by_cases hpath : path.text = []
  · rw [join_of_text_eq_nil hpath hchild, steps.eq_def path, hpath]
    rfl
  · obtain ⟨front, htext, hfront⟩ := exists_text_join hpath hchild
    have hsteps : path.steps = names (Text.parts '/' front) := by
      rcases hfront with hfront | hfront
      · rw [steps, hfront]
      · rw [steps, hfront, Text.parts_append, names_append]
        exact List.append_nil _
    rw [hsteps, steps, htext, Text.parts_append, names_append]
    rfl

/-- Joining keeps the lead. -/
theorem lead_join {path : Path} (hpath : path.text ≠ []) {child : Path}
    (hchild : child.isAbsolute = false) : (path.join child).lead = path.lead := by
  obtain ⟨front, htext, hfront⟩ := exists_text_join hpath hchild
  rw [lead, segments, htext, lead, segments]
  cases front with
  | nil => rw [hfront.resolve_left hpath]; rfl
  | cons c front =>
    rcases hfront with hfront | hfront
    · rw [hfront]
      exact lead_append_slash (List.cons_ne_nil c front) child.text
    · rw [hfront]
      exact (lead_append_slash (List.cons_ne_nil c front) child.text).trans
        (lead_append_slash (List.cons_ne_nil c front) []).symm

theorem text_ne_nil_of_isAbsolute {path : Path} (h : path.isAbsolute = true) : path.text ≠ [] := by
  intro htext
  simp [isAbsolute, htext] at h

/-- A path joined to an absolute one is absolute. -/
theorem isAbsolute_join {path : Path} (h : path.isAbsolute = true) (child : Path) :
    (path.join child).isAbsolute = true := by
  cases hchild : child.isAbsolute with
  | true =>
    rw [join, if_pos hchild]
    exact hchild
  | false =>
    rw [← lead_eq_root_iff, lead_join (text_ne_nil_of_isAbsolute h) hchild, lead_eq_root_iff]
    exact h

theorem steps_name {name : Text} (h : '/' ∉ name) :
    (⟨name⟩ : Path).steps = (Component.ofSegment? name).toList := by
  rw [steps, Text.parts_of_not_mem h, names_singleton]

theorem lead_name {name : Text} (h : '/' ∉ name) (hname : isMeant name = true) :
    (⟨name⟩ : Path).lead = .none :=
  congrArg Segments.lead (ofText_of_isMeant (Text.parts_of_not_mem h) hname)

/-! ### The directory and the name -/

/-- A path with steps has a last segment that means something. -/
theorem exists_trimRight_concat {path : Path} (h : path.steps ≠ []) :
    ∃ before name, trimRight path.segments.body = before ++ [name] ∧ isMeant name = true := by
  rcases trimRight_eq_nil_or path.segments.body with hnil | hconcat
  · refine absurd ?_ h
    rw [steps_eq_names_body, ← names_trimRight, hnil, names_nil]
  · exact hconcat

/-- The last segment that means something is the last step. -/
theorem steps_eq_of_trimRight {path : Path} {before : List Text} {name : Text}
    (h : trimRight path.segments.body = before ++ [name]) :
    path.steps = names before ++ (Component.ofSegment? name).toList := by
  rw [steps_eq_names_body, ← names_trimRight, h, names_append, names_singleton]

theorem trimRight_body_eq_nil {path : Path} (h : path.steps = []) :
    trimRight path.segments.body = [] := by
  rcases trimRight_eq_nil_or path.segments.body with hnil | ⟨before, name, hbody, hname⟩
  · exact hnil
  · rw [steps_eq_of_trimRight hbody] at h
    simp_all [isMeant]

/-- The directory of a path, spelled by segments at the start of those of the path. -/
theorem exists_parent?_body {path : Path} (h : path.steps ≠ []) :
    ∃ body, path.parent? = some ⟨Segments.text ⟨path.lead, trimRight body⟩⟩ ∧
      List.IsPrefix (trimRight body) path.segments.body ∧ names body = path.steps.dropLast := by
  obtain ⟨before, name, hbody, hname⟩ := exists_trimRight_concat h
  obtain ⟨c, hc⟩ := Option.isSome_iff_exists.1 hname
  have hprefix : List.IsPrefix (before ++ [name]) path.segments.body :=
    hbody ▸ trimRight_isPrefix _
  refine ⟨before, ?_, ?_, ?_⟩
  · rw [parent?, hbody, List.reverse_append]
    simp [lead]
  · exact ((trimRight_isPrefix before).trans (List.prefix_append _ _)).trans hprefix
  · rw [steps_eq_of_trimRight hbody, hc]
    simp

/-- The directory of a path takes all its steps but the last. -/
theorem exists_parent? {path : Path} (h : path.steps ≠ []) :
    ∃ dir, path.parent? = some dir ∧ dir.lead = path.lead ∧ dir.steps = path.steps.dropLast := by
  obtain ⟨body, hparent, hprefix, hnames⟩ := exists_parent?_body h
  have hproper : Proper ⟨path.lead, trimRight body⟩ :=
    (proper_ofText path.text).of_isPrefix hprefix
  refine ⟨_, hparent, lead_text hproper, ?_⟩
  rw [steps_text hproper, names_trimRight, hnames]

/-- The directory of a path starts where the path does and takes the first of its steps. -/
theorem isPrefix_of_parent? {path dir : Path} (h : path.parent? = some dir) :
    dir.isAbsolute = path.isAbsolute ∧ List.IsPrefix dir.steps path.steps := by
  by_cases hsteps : path.steps = []
  · unfold parent? at h
    simp only [trimRight_body_eq_nil hsteps, List.reverse_nil] at h
    split at h
    case isTrue hlead =>
      cases h
      have hrelative : path.isAbsolute = false := by
        rw [← Bool.not_eq_true, ← lead_eq_root_iff, lead, hlead]
        simp
      exact ⟨hrelative.symm, List.nil_prefix⟩
    · cases h
  · obtain ⟨dir', hdir, hlead, hdropLast⟩ := exists_parent? hsteps
    obtain rfl := Option.some.inj (hdir.symm.trans h)
    refine ⟨?_, hdropLast ▸ List.dropLast_prefix _⟩
    rw [Bool.eq_iff_iff, ← lead_eq_root_iff, ← lead_eq_root_iff, hlead]

/-- The name of a path is its last step, unless that is `..`. -/
theorem fileName?_eq_some_iff {path : Path} {name : Text} :
    path.fileName? = some name ↔ path.steps.getLast? = some (.normal name) := by
  by_cases h : path.steps = []
  · simp [fileName?, trimRight_body_eq_nil h, h]
  · obtain ⟨before, last, hbody, hlast⟩ := exists_trimRight_concat h
    rw [steps_eq_of_trimRight hbody, fileName?, hbody, List.reverse_append]
    by_cases hparent : last = ['.', '.']
    · subst hparent
      simp [Component.ofSegment?]
    · simp [ofSegment?_normal hlast hparent, hparent]

/-- The name of a file is the last step. -/
theorem steps_of_fileName? {path : Path} {name : Text} (h : path.fileName? = some name) :
    path.steps = path.steps.dropLast ++ [.normal name] := by
  obtain ⟨before, hbefore⟩ := List.getLast?_eq_some_iff.1 (fileName?_eq_some_iff.1 h)
  rw [hbefore, List.dropLast_concat]

theorem isAbsolute_name {name : Text} (h : '/' ∉ name) : (⟨name⟩ : Path).isAbsolute = false := by
  cases name with
  | nil => rfl
  | cons c name =>
    have hc : c ≠ '/' := fun hc => h (by simp [hc])
    simp [isAbsolute, hc]

/-- Replacing the name replaces the last step. -/
theorem steps_withFileName {path : Path} {old new : Text} (hold : path.fileName? = some old)
    (hnew : '/' ∉ new) :
    (path.withFileName new).steps = path.steps.dropLast ++ (Component.ofSegment? new).toList := by
  have hne : path.steps ≠ [] := by
    rw [steps_of_fileName? hold]
    simp
  obtain ⟨dir, hdir, -, hsteps⟩ := exists_parent? hne
  rw [withFileName, hold, hdir]
  rw [Option.getD_some, steps_join dir (isAbsolute_name hnew), hsteps, steps_name hnew]

/-- Another name keeps the lead. -/
theorem lead_withFileName {path : Path} {old new : Text} (hold : path.fileName? = some old)
    (hnew : '/' ∉ new) (hmeant : isMeant new = true) :
    (path.withFileName new).lead = path.lead := by
  have hne : path.steps ≠ [] := by
    rw [steps_of_fileName? hold]
    simp
  obtain ⟨dir, hdir, hlead, -⟩ := exists_parent? hne
  rw [withFileName, hold, hdir]
  rw [Option.getD_some, ← hlead]
  by_cases htext : dir.text = []
  · rw [join_of_text_eq_nil htext (isAbsolute_name hnew), lead_name hnew hmeant, lead, segments,
      htext]
    rfl
  · exact lead_join htext (isAbsolute_name hnew)

/-- The text of the path ends with a segment that means something. -/
def Tight (path : Path) : Prop :=
  ∃ before name, Text.parts '/' path.text = before ++ [name] ∧ isMeant name = true

theorem tight_name {name : Text} (h : '/' ∉ name) (hname : isMeant name = true) :
    (⟨name⟩ : Path).Tight :=
  ⟨[], name, Text.parts_of_not_mem h, hname⟩

/-- A path that is joined ends as the relative one does. -/
theorem tight_join (path : Path) {child : Path} (hchild : child.isAbsolute = false)
    (h : child.Tight) : (path.join child).Tight := by
  by_cases hpath : path.text = []
  · rwa [join_of_text_eq_nil hpath hchild]
  · obtain ⟨before, name, hparts, hname⟩ := h
    obtain ⟨front, htext, -⟩ := exists_text_join hpath hchild
    refine ⟨Text.parts '/' front ++ before, name, ?_, hname⟩
    rw [htext, Text.parts_append, hparts, List.append_assoc]

/-- Another name leaves no slash at the end. -/
theorem tight_withFileName (path : Path) {name : Text} (h : '/' ∉ name)
    (hname : isMeant name = true) : (path.withFileName name).Tight := by
  unfold withFileName
  split
  · exact tight_join _ (isAbsolute_name h) (tight_name h hname)
  · exact tight_join _ (isAbsolute_name h) (tight_name h hname)

/-- A path that ends in a name has nothing to drop. -/
theorem Tight.trimRight_body {path : Path} (h : path.Tight) :
    trimRight path.segments.body = path.segments.body := by
  obtain ⟨before, name, hparts, hname⟩ := h
  obtain ⟨front, hfront⟩ := body_isSuffix path
  rcases List.eq_nil_or_concat' path.segments.body with hbody | ⟨body, last, hbody⟩
  · rw [hbody]; rfl
  · rw [hparts, hbody, ← List.append_assoc] at hfront
    obtain rfl : last = name := List.singleton_inj.1 (List.append_inj' hfront rfl).2
    rw [hbody, trimRight_concat, if_pos hname]

theorem exists_last_of_tight {path : Path} (h : path.Tight) :
    ∃ front c, path.text = front ++ [c] ∧ c ≠ '/' := by
  obtain ⟨before, name, hparts, hname⟩ := h
  have hne := (isMeant_iff.1 hname).1
  rcases List.eq_nil_or_concat' path.text with htext | ⟨front, c, htext⟩
  · rw [htext] at hparts
    have hnil : [[]] = before ++ [name] := hparts
    cases before <;> simp_all
  · refine ⟨front, c, htext, ?_⟩
    rintro rfl
    rw [htext, Text.parts_append] at hparts
    exact hne (List.singleton_inj.1 (List.append_inj' hparts rfl).2).symm

/-- Slashes at the end of a path mean nothing. -/
theorem steps_append_slashes (text : Text) {slashes : Text} (h : ∀ c ∈ slashes, c = '/') :
    (⟨text ++ slashes⟩ : Path).steps = (⟨text⟩ : Path).steps := by
  induction slashes using List.reverseRecOn with
  | nil => rw [List.append_nil]
  | append_singleton slashes c ih =>
    obtain rfl : c = '/' := h c (by simp)
    rw [← ih fun d hd => h d (by simp [hd]), steps, ← List.append_assoc, Text.parts_append,
      names_append]
    exact List.append_nil _

/-- The stem of a name that is nothing but a dot before the last one keeps both dots. -/
def doubled (stem : Text) : Text :=
  if stem = ['.'] then ['.', '.'] else stem

/-- Without its extension a path ends in its stem. -/
theorem withoutExtension_eq {path : Path} (htight : path.Tight) {name stem extension : Text}
    (hname : path.fileName? = some name)
    (hsplit : splitExtension? name = some (stem, extension)) :
    path.withoutExtension =
      ⟨Segments.text ⟨path.lead, path.segments.body.dropLast ++ [doubled stem]⟩⟩ := by
  unfold withoutExtension
  simp only [hname, hsplit, htight.trimRight_body, and_true]
  rfl

theorem isMeant_doubled {stem : Text} (h : stem ≠ []) : isMeant (doubled stem) = true := by
  rw [isMeant_iff]
  unfold doubled
  split
  · decide
  case isFalse hdot => exact ⟨h, hdot⟩

/-- The name of a file is its last segment if nothing stands behind it. -/
theorem exists_body_of_tight {path : Path} (htight : path.Tight) {name : Text}
    (hname : path.fileName? = some name) :
    ∃ before, path.segments.body = before ++ [name] ∧ path.steps.dropLast = names before := by
  have hne : path.steps ≠ [] := by
    rw [steps_of_fileName? hname]
    simp
  obtain ⟨before, last, hbody, hlast⟩ := exists_trimRight_concat hne
  have hsteps := steps_eq_of_trimRight hbody
  rw [htight.trimRight_body] at hbody
  obtain ⟨c, hc⟩ := Option.isSome_iff_exists.1 hlast
  rw [hc, Option.toList_some] at hsteps
  rw [fileName?_eq_some_iff, hsteps, List.getLast?_concat, Option.some.injEq] at hname
  obtain rfl : last = name := (eq_of_ofSegment?_normal (hname ▸ hc)).1
  exact ⟨before, hbody, by rw [hsteps, List.dropLast_concat]⟩

/-- Proper segments stay so with another name at the end. -/
theorem proper_replace_last {s : Segments} (h : s.Proper) {before : List Text} {old new : Text}
    (hbody : s.body = before ++ [old]) (hslash : '/' ∉ new) (hnew : isMeant new = true) :
    Proper ⟨s.lead, before ++ [new]⟩ := by
  refine ⟨fun segment hmem => ?_, fun hlead segment hmem => ?_⟩
  · rcases List.mem_append.1 hmem with hmem | hmem
    · exact h.no_slash segment (by simp [hbody, hmem])
    · rwa [List.mem_singleton.1 hmem]
  · cases before with
    | nil =>
      obtain rfl : new = segment := by simpa using hmem
      exact hnew
    | cons first before => exact h.first hlead segment (by simpa [hbody] using hmem)

/-- Without its extension a path starts as before, and its name is its stem, except that a dot
alone becomes `..`. -/
theorem lead_steps_withoutExtension {path : Path} (htight : path.Tight)
    {name stem extension : Text} (hname : path.fileName? = some name)
    (hsplit : splitExtension? name = some (stem, extension)) (hslash : '/' ∉ doubled stem)
    (hstem : stem ≠ []) :
    path.withoutExtension.lead = path.lead ∧ path.withoutExtension.steps =
      path.steps.dropLast ++ (Component.ofSegment? (doubled stem)).toList := by
  obtain ⟨before, hbody, hsteps⟩ := exists_body_of_tight htight hname
  have hproper : Proper ⟨path.lead, before ++ [doubled stem]⟩ :=
    proper_replace_last (proper_ofText path.text) hbody hslash (isMeant_doubled hstem)
  rw [withoutExtension_eq htight hname hsplit, hbody, List.dropLast_concat]
  refine ⟨lead_text hproper, ?_⟩
  rw [steps_text hproper, hsteps, names_append, names_singleton]

/-! ### What lies below a base -/

/-- The segments behind some others are proper. -/
theorem proper_behind (path : Path) (n : Nat) :
    Proper ⟨.none, trimRight
      ((dropMeant n path.segments.body).dropWhile fun segment => !isMeant segment)⟩ := by
  set body := (dropMeant n path.segments.body).dropWhile fun segment => !isMeant segment with hbody
  have hwhole : Proper ⟨.none, body⟩ := by
    refine ⟨fun segment hmem => ?_, fun _ segment hmem => ?_⟩
    · refine (proper_ofText path.text).no_slash segment ?_
      exact ((List.dropWhile_suffix _).trans (dropMeant_isSuffix n _)).subset hmem
    · have := List.head?_dropWhile_not (fun segment => !isMeant segment)
        (dropMeant n path.segments.body)
      simp_all
  exact hwhole.of_isPrefix (trimRight_isPrefix body)

/-- Behind the first components stand the steps that follow. -/
theorem components_drop {path : Path} {n : Nat} (hn : n ≠ 0) :
    path.components.drop n =
      path.steps.drop (if path.segments.lead = .none then n else n - 1) := by
  obtain ⟨n, rfl⟩ := Nat.exists_eq_succ_of_ne_zero hn
  rw [components_eq, lead]
  cases path.segments.lead <;> simp

/-- What is left behind a base is empty or ends in a name. -/
theorem text_eq_nil_or_tight {body : List Text} (hproper : Proper ⟨.none, trimRight body⟩) :
    Segments.text ⟨.none, trimRight body⟩ = [] ∨
      (⟨Segments.text ⟨.none, trimRight body⟩⟩ : Path).Tight := by
  rcases trimRight_eq_nil_or body with hnil | ⟨before, name, hbody, hname⟩
  · rw [hnil]
    exact .inl rfl
  · refine .inr ⟨before, name, ?_, hname⟩
    rw [← hbody]
    exact Text.parts_intercalate (by simp [hbody]) hproper.no_slash

/-- What is left of a path below a base is the rest of its steps. -/
theorem relativeTo?_eq_some {path base rest : Path} (hbase : base.components ≠ [])
    (h : path.relativeTo? base = some rest) :
    rest.lead = .none ∧ path.components = base.components ++ rest.steps ∧
      (rest.text = [] ∨ rest.Tight) := by
  have hn : base.components.length ≠ 0 := by simpa using hbase
  unfold relativeTo? at h
  simp only [hn, if_false] at h
  split at h
  · cases h
  case isFalse htake =>
    rw [not_not] at htake
    obtain rfl := Option.some.inj h
    have hproper := proper_behind path
      (if path.segments.lead = .none then base.components.length else base.components.length - 1)
    refine ⟨lead_text hproper, ?_, text_eq_nil_or_tight hproper⟩
    have hsteps := steps_text hproper
    have hsplit := (List.take_append_drop base.components.length path.components).symm
    rw [htake] at hsplit
    refine hsplit.trans (congrArg _ ?_)
    rw [components_drop hn, steps_eq_names_body, ← names_dropMeant, ← names_dropWhile,
      ← names_trimRight]
    exact hsteps.symm

/-- A path whose components go on from those of a base lies below it. -/
theorem relativeTo?_eq_some_of_components {path base : Path} {rest : List Component}
    (h : path.components = base.components ++ rest) :
    ∃ child, path.relativeTo? base = some child := by
  unfold relativeTo?
  have htake : path.components.take base.components.length = base.components := by
    rw [h, List.take_left]
  rw [if_neg (by simp [htake])]
  split
  · exact ⟨_, rfl⟩
  · exact ⟨_, rfl⟩

theorem Tight.steps_ne_nil {path : Path} (h : path.Tight) : path.steps ≠ [] := by
  obtain ⟨before, name, hparts, hname⟩ := h
  obtain ⟨c, hc⟩ := Option.isSome_iff_exists.1 hname
  rw [steps, hparts, names_append, names_singleton, hc]
  simp

/-- The name of a file is its last component. -/
theorem fileName?_eq_some_iff_components {path : Path} {name : Text} :
    path.fileName? = some name ↔ path.components.getLast? = some (.normal name) := by
  rw [fileName?_eq_some_iff, components_eq]
  cases hsteps : path.steps with
  | nil => cases path.lead <;> simp
  | cons c steps => cases path.lead <;> simp [List.getLast?_cons]

/-- Below a base a file has the same name. -/
theorem fileName?_relativeTo? {path base rest : Path} (hbase : base.components ≠ [])
    (h : path.relativeTo? base = some rest) (htight : rest.Tight) :
    rest.fileName? = path.fileName? := by
  obtain ⟨-, hcomponents, -⟩ := relativeTo?_eq_some hbase h
  refine Option.ext fun name => ?_
  rw [fileName?_eq_some_iff, fileName?_eq_some_iff_components, hcomponents,
    List.getLast?_append_of_ne_nil _ htight.steps_ne_nil]

end Path

end Pagewright
