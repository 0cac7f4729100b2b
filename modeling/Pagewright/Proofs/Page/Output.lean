import Pagewright.Page.Basic
import Pagewright.Proofs.Path.Components

/-!
# Outputs stay below their root

A build joins the output path of every template to the root of the outputs. This file says when the
result lies below that root (`Page.output_under_iff`): always, except for a page whose template is
named by dots alone. The stem of such a template is `.` or `..`, the page has no permalink, and its
directory of its own is then the directory above.

An output path comes to be in one of three ways. A partial keeps its directory and gets another name
(`Location.steps_compiledPath`), a page gets a directory that is named by its stem
(`Location.steps_output_none`), and a permalink is checked by itself (`Location.ofPermalink_below`).
-/

namespace Pagewright

namespace Path

open Segments

/-- Whether a path leads to something below `base`. -/
def Under (base path : Path) : Prop :=
  ∃ rest, path.components = base.components ++ rest ∧ .root ∉ rest ∧ .parent ∉ rest

/-- The name of a step has no slash. -/
theorem slash_notMem_of_mem_steps {path : Path} {name : Text} (h : .normal name ∈ path.steps) :
    '/' ∉ name := by
  rcases eq_parent_or_normal_of_mem_names h with h | ⟨name', hmem, h⟩
  · cases h
  · cases h
    exact Text.not_mem_of_mem_parts hmem

/-- Joining a relative path adds its steps to the components. -/
theorem components_join {path : Path} (hpath : path.text ≠ []) {child : Path}
    (hchild : child.isAbsolute = false) :
    (path.join child).components = path.components ++ child.steps := by
  rw [components_eq, components_eq, lead_join hpath hchild, steps_join path hchild,
    List.append_assoc]

/-- The root is a component of the absolute paths. -/
theorem root_mem_components_iff {path : Path} :
    .root ∈ path.components ↔ path.isAbsolute = true := by
  rw [← lead_eq_root_iff, components_eq]
  cases path.lead <;> simp [root_notMem_steps]

/-- A step up is never the lead of a path. -/
theorem parent_mem_components_iff {path : Path} :
    .parent ∈ path.components ↔ .parent ∈ path.steps := by
  rw [components_eq]
  cases path.lead <;> simp

/-- A relative path leads below every base that it is joined to, as long as it has no `..`. -/
theorem under_join_iff (base : Path) {child : Path} (hchild : child.isAbsolute = false) :
    base.Under (base.join child) ↔ .parent ∉ child.steps := by
  by_cases hbase : base.text = []
  · have hnil : base.components = [] := by
      rw [components, segments, hbase]
      rfl
    rw [join_of_text_eq_nil hbase hchild, Under, hnil, ← parent_mem_components_iff]
    constructor
    · rintro ⟨rest, rfl, -, h⟩
      exact h
    · exact fun h => ⟨child.components, rfl, by simp [root_mem_components_iff, hchild], h⟩
  · rw [Under, components_join hbase hchild]
    constructor
    · rintro ⟨rest, h, -, hrest⟩
      rwa [List.append_cancel_left h]
    · exact fun h => ⟨child.steps, rfl, root_notMem_steps child, h⟩

end Path

namespace Location

open Pagewright.Path Segments

/-- A path stays below when it is relative and has no step up. -/
theorem staysBelow_iff {path : Path} :
    staysBelow path = true ↔ path.isAbsolute = false ∧ .parent ∉ path.steps := by
  rw [← Bool.not_eq_true, ← root_mem_components_iff, ← parent_mem_components_iff, staysBelow,
    List.all_eq_true]
  constructor
  · intro h
    exact ⟨fun hroot => by simpa using h _ hroot, fun hparent => by simpa using h _ hparent⟩
  · rintro ⟨hroot, hparent⟩ c hc
    cases c <;> simp_all

/-! ## Permalinks -/

theorem isAbsolute_indexName : (⟨indexName⟩ : Path).isAbsolute = false := by
  decide

theorem steps_indexName : (⟨indexName⟩ : Path).steps = [.normal indexName] := by
  decide

theorem isAbsolute_join_indexName {path : Path} (h : path.isAbsolute = false) :
    (path.join ⟨indexName⟩).isAbsolute = false := by
  by_cases htext : path.text = []
  · rw [join_of_text_eq_nil htext isAbsolute_indexName]
    exact isAbsolute_indexName
  · rw [← Bool.not_eq_true, ← lead_eq_root_iff] at h ⊢
    rwa [lead_join htext isAbsolute_indexName]

/-- A directory becomes a page by adding the name of its index. -/
theorem steps_join_indexName (path : Path) :
    (path.join ⟨indexName⟩).steps = path.steps ++ [.normal indexName] := by
  rw [steps_join path isAbsolute_indexName, steps_indexName]

/-- A permalink that is accepted stays below the root. -/
theorem ofPermalink_eq_ok {permalink : Text} {output : Path}
    (h : ofPermalink permalink = .ok output) :
    staysBelow ⟨trimmed permalink⟩ = true ∧
      (trimmed permalink = [] ∧ output = ⟨indexName⟩ ∨
        trimmed permalink ≠ [] ∧ hasExtension (trimmed permalink) = true ∧
          output = ⟨trimmed permalink⟩ ∨
        trimmed permalink ≠ [] ∧ output = (⟨trimmed permalink⟩ : Path).join ⟨indexName⟩) := by
  unfold ofPermalink at h
  simp only at h
  split at h
  · cases h
  case isFalse hbelow =>
    refine ⟨by simpa using hbelow, ?_⟩
    split at h
    case isTrue htext => exact .inl ⟨htext, (Except.ok.inj h).symm⟩
    case isFalse htext =>
      split at h
      case isTrue hextension =>
        exact .inr (.inl ⟨htext, hextension, (Except.ok.inj h).symm⟩)
      · exact .inr (.inr ⟨htext, (Except.ok.inj h).symm⟩)

/-- A permalink that is taken stays below the output directory. -/
theorem ofPermalink_below {permalink : Text} {output : Path}
    (h : ofPermalink permalink = .ok output) :
    output.isAbsolute = false ∧ .parent ∉ output.steps := by
  obtain ⟨hbelow, hcases⟩ := ofPermalink_eq_ok h
  obtain ⟨habsolute, hparent⟩ := staysBelow_iff.1 hbelow
  obtain ⟨-, rfl⟩ | ⟨-, -, rfl⟩ | ⟨-, rfl⟩ := hcases
  · decide
  · exact ⟨habsolute, hparent⟩
  · refine ⟨isAbsolute_join_indexName habsolute, ?_⟩
    rw [steps_join_indexName]
    simpa using hparent

theorem tight_indexName : (⟨indexName⟩ : Path).Tight :=
  tight_name (by decide) (by decide)

/-- A path with an extension does not end in a slash. -/
theorem tight_of_hasExtension {path : Path} (h : hasExtension path.text = true) : path.Tight := by
  obtain ⟨before, name, hparts⟩ :=
    (List.eq_nil_or_concat' _).resolve_left (Text.parts_ne_nil '/' path.text)
  refine ⟨before, name, hparts, isMeant_iff.2 ?_⟩
  rw [hasExtension, hparts, List.getLastD_concat] at h
  constructor
  · rintro rfl
    exact absurd h (by decide)
  · rintro rfl
    exact absurd h (by decide)

/-- The output of a permalink does not end in a slash. -/
theorem tight_ofPermalink {permalink : Text} {output : Path}
    (h : ofPermalink permalink = .ok output) : output.Tight := by
  obtain ⟨-, ⟨-, rfl⟩ | ⟨-, hextension, rfl⟩ | ⟨-, rfl⟩⟩ := ofPermalink_eq_ok h
  · exact tight_indexName
  · exact tight_of_hasExtension hextension
  · exact tight_join _ isAbsolute_indexName tight_indexName

/-! ## Names of templates -/

theorem eq_append_of_before? {text word front : Text} (h : text.before? word = some front) :
    text = front ++ word := by
  obtain ⟨rest, hrest, rfl⟩ := Option.map_eq_some_iff.1 h
  have := congrArg List.reverse (Text.after?_eq_some_iff.1 hrest)
  simpa using this

/-- The stem of a template is the start of its name, and not empty. -/
theorem stem?_eq_some {name stem : Text} (h : stem? name = some stem) :
    stem ≠ [] ∧ List.IsPrefix stem name := by
  unfold stem? at h
  rw [Option.filter_eq_some_iff] at h
  refine ⟨by simpa using h.2, ?_⟩
  cases hlong : name.before? ".blade.php".toList with
  | some front =>
    rw [hlong] at h
    obtain rfl : front = stem := Option.some.inj h.1
    exact ⟨_, (eq_append_of_before? hlong).symm⟩
  | none =>
    rw [hlong] at h
    exact ⟨_, (eq_append_of_before? h.1).symm⟩

/-- A name that ends in `.php` has that extension. -/
theorem splitExtension?_php {stem : Text} (h : stem ≠ []) :
    splitExtension? (stem ++ ".php".toList) = some (stem, "php".toList) := by
  have hlast : splitLast? '.' (stem ++ ".php".toList) = some (stem, "php".toList) := by
    rw [splitLast?, List.reverse_append]
    simp [Text.cut?, Text.after?]
  rw [splitExtension?, hlast]
  simp [h]

theorem isMeant_append_php {stem : Text} (h : stem ≠ []) :
    isMeant (stem ++ ".php".toList) = true := by
  have hlength : 4 < (stem ++ ".php".toList).length := by
    simpa using List.length_pos_iff.2 h
  rw [isMeant_iff]
  refine ⟨fun h => ?_, fun h => ?_⟩ <;> simp only [h] at hlength <;> contradiction

theorem append_php_ne_dots (stem : Text) : stem ++ ".php".toList ≠ ['.', '.'] := by
  intro h
  simpa using congrArg List.length h

/-- A template has a name with a stem. -/
theorem exists_stem_of_isTemplate {path : Path} (h : isTemplate path = true) :
    ∃ name stem, path.fileName? = some name ∧ stem? name = some stem := by
  unfold isTemplate at h
  cases hname : path.fileName? with
  | none => simp [hname] at h
  | some name =>
    rw [hname] at h
    obtain ⟨stem, hstem⟩ := Option.isSome_iff_exists.1 h
    exact ⟨name, stem, rfl, hstem⟩

section Template

variable {source : Path} {name stem : Text} (hname : source.fileName? = some name)
  (hstem : stem? name = some stem)

include hname hstem

/-- A template is compiled beside itself, under its stem. -/
theorem compiledPath_eq : compiledPath source = source.withFileName (stem ++ ".php".toList) := by
  unfold compiledPath
  rw [hname, Option.getD_some, hstem]

/-- A stem has no slash. -/
theorem slash_notMem_stem : '/' ∉ stem := by
  have hslash : '/' ∉ name := by
    have hmem : .normal name ∈ source.steps := by
      rw [steps_of_fileName? hname]
      simp
    exact slash_notMem_of_mem_steps hmem
  exact fun h => hslash ((stem?_eq_some hstem).2.subset h)

theorem slash_notMem_compiledName : '/' ∉ stem ++ ".php".toList := by
  simpa using slash_notMem_stem hname hstem

/-- A compiled template keeps its directory. -/
theorem steps_compiledPath : (compiledPath source).steps =
    source.steps.dropLast ++ [.normal (stem ++ ".php".toList)] := by
  have hmeant := isMeant_append_php (stem?_eq_some hstem).1
  rw [compiledPath_eq hname hstem,
    steps_withFileName hname (slash_notMem_compiledName hname hstem),
    ofSegment?_normal hmeant (append_php_ne_dots stem), Option.toList_some]

/-- A template is compiled under the same lead. -/
theorem lead_compiledPath : (compiledPath source).lead = source.lead := by
  rw [compiledPath_eq hname hstem]
  exact lead_withFileName hname (slash_notMem_compiledName hname hstem)
    (isMeant_append_php (stem?_eq_some hstem).1)

/-- The path of a compiled template does not end in a slash. -/
theorem tight_compiledPath : (compiledPath source).Tight := by
  rw [compiledPath_eq hname hstem]
  exact tight_withFileName source (slash_notMem_compiledName hname hstem)
    (isMeant_append_php (stem?_eq_some hstem).1)

/-- A compiled template has its stem for a name. -/
theorem fileName?_compiledPath :
    (compiledPath source).fileName? = some (stem ++ ".php".toList) := by
  rw [fileName?_eq_some_iff, steps_compiledPath hname hstem, List.getLast?_concat]

theorem slash_notMem_doubled : '/' ∉ doubled stem := by
  unfold doubled
  split
  · decide
  · exact slash_notMem_stem hname hstem

/-- A page without a permalink goes into a directory that is named by its stem, except for an
index. -/
theorem output_none : ∃ output, Location.output source none = .ok output ∧
    output.lead = source.lead ∧
    output.steps = source.steps.dropLast ++
      if stem ++ ".php".toList = indexName then [.normal indexName]
      else (Component.ofSegment? (doubled stem)).toList ++ [.normal indexName] := by
  unfold Location.output
  simp only [fileName?_compiledPath hname hstem, Option.some.injEq]
  by_cases hindex : stem ++ ".php".toList = indexName
  · rw [if_pos hindex, if_pos hindex]
    refine ⟨_, rfl, lead_compiledPath hname hstem, ?_⟩
    rw [steps_compiledPath hname hstem, hindex]
  · rw [if_neg hindex, if_neg hindex]
    have hne := (stem?_eq_some hstem).1
    obtain ⟨hlead, hsteps⟩ := lead_steps_withoutExtension (tight_compiledPath hname hstem)
      (fileName?_compiledPath hname hstem) (splitExtension?_php hne)
      (slash_notMem_doubled hname hstem) hne
    have htext : (compiledPath source).withoutExtension.text ≠ [] := by
      obtain ⟨c, hc⟩ := Option.isSome_iff_exists.1 (isMeant_doubled hne)
      refine text_ne_nil_of_steps ?_
      simp [hsteps, hc]
    refine ⟨_, rfl, ?_, ?_⟩
    · rw [lead_join htext isAbsolute_indexName, hlead, lead_compiledPath hname hstem]
    · rw [steps_join_indexName, hsteps, steps_compiledPath hname hstem, List.dropLast_concat,
        List.append_assoc]

end Template

end Location

namespace Page

open Pagewright.Path Location

/-- Whether a page gets its directory from a template that is named by one or two dots. -/
def DotStem (page : Page) : Prop :=
  page.kind = .page ∧ page.settings.text? "permalink".toList = none ∧
    ∃ stem, page.source.fileName?.bind stem? = some stem ∧ (stem = ['.'] ∨ stem = ['.', '.'])

/-- A partial is compiled beside itself, and the output of a page depends on its permalink. -/
theorem parse_eq_ok {source : Path} {text : Text} {dirs : Conventions} {page : Page}
    (h : parse source text dirs = .ok page) :
    page.source = source ∧
      (page.kind = .part ∧ page.output = compiledPath source ∨
        page.kind = .page ∧
          Location.output source (page.settings.text? "permalink".toList) = .ok page.output) := by
  unfold parse at h
  split at h
  · cases h
    exact ⟨rfl, .inl ⟨rfl, rfl⟩⟩
  · obtain ⟨⟨settings, body⟩, -, h⟩ := bind_eq_ok_iff.1 h
    obtain ⟨output, hout, h⟩ := bind_eq_ok_iff.1 h
    cases h
    exact ⟨rfl, .inr ⟨rfl, hout⟩⟩

/-- The stems `.` and `..` become a step up, and every other one a name. -/
theorem ofSegment?_doubled {stem : Text} (h : stem ≠ []) :
    Component.ofSegment? (doubled stem) =
      if stem = ['.'] ∨ stem = ['.', '.'] then some .parent else some (.normal stem) := by
  by_cases hdot : stem = ['.']
  · subst hdot
    decide
  · by_cases hdots : stem = ['.', '.']
    · subst hdots
      decide
    · simp [doubled, Component.ofSegment?, h, hdot, hdots]

/-- The output of a template ends with a name. -/
theorem tight_output {source : Path} {text : Text} {dirs : Conventions} {page : Page}
    (htemplate : isTemplate source = true) (h : parse source text dirs = .ok page) :
    page.output.Tight := by
  obtain ⟨name, stem, hname, hstem⟩ := exists_stem_of_isTemplate htemplate
  obtain ⟨-, ⟨-, houtput⟩ | ⟨-, houtput⟩⟩ := parse_eq_ok h
  · rw [houtput]
    exact tight_compiledPath hname hstem
  · cases hpermalink : page.settings.text? "permalink".toList with
    | some permalink =>
      rw [hpermalink] at houtput
      exact tight_ofPermalink houtput
    | none =>
      rw [hpermalink] at houtput
      unfold Location.output at houtput
      simp only at houtput
      split at houtput
      · rw [← Except.ok.inj houtput]
        exact tight_compiledPath hname hstem
      · rw [← Except.ok.inj houtput]
        exact tight_join _ isAbsolute_indexName tight_indexName

/-- The output of a template of names alone is relative, and it has a `..` in it when a page is
named by dots. -/
theorem output_steps {source : Path} {names : List Text} {text : Text} {dirs : Conventions}
    {page : Page} (hsource : source.components = names.map .normal)
    (htemplate : isTemplate source = true) (h : parse source text dirs = .ok page) :
    page.output.isAbsolute = false ∧ (.parent ∈ page.output.steps ↔ page.DotStem) := by
  obtain ⟨name, stem, hname, hstem⟩ := exists_stem_of_isTemplate htemplate
  have habsolute : source.lead ≠ .root := by
    rw [ne_eq, lead_eq_root_iff, ← root_mem_components_iff]
    simp [hsource]
  have hparent : .parent ∉ source.steps.dropLast := by
    intro hmem
    have hparent := parent_mem_components_iff.2 (List.dropLast_subset _ hmem)
    simp [hsource] at hparent
  rw [← Bool.not_eq_true, ← lead_eq_root_iff]
  obtain ⟨hpage, ⟨hkind, houtput⟩ | ⟨hkind, houtput⟩⟩ := parse_eq_ok h
  · rw [houtput, lead_compiledPath hname hstem, steps_compiledPath hname hstem]
    exact ⟨habsolute, by simp [hparent, DotStem, hkind]⟩
  · cases hpermalink : page.settings.text? "permalink".toList with
    | some permalink =>
      rw [hpermalink] at houtput
      obtain ⟨hrelative, hbelow⟩ := ofPermalink_below houtput
      rw [lead_eq_root_iff, Bool.not_eq_true]
      refine ⟨hrelative, iff_of_false hbelow ?_⟩
      rintro ⟨-, hnone, -⟩
      rw [hpermalink] at hnone
      cases hnone
    | none =>
      rw [hpermalink] at houtput
      obtain ⟨output, hout, hlead, hsteps⟩ := output_none hname hstem
      obtain rfl : output = page.output := Except.ok.inj (hout.symm.trans houtput)
      refine ⟨hlead ▸ habsolute, ?_⟩
      have hdot : page.DotStem ↔ stem = ['.'] ∨ stem = ['.', '.'] := by
        have hbind : page.source.fileName?.bind stem? = some stem := by
          rw [hpage, hname]
          exact hstem
        rw [DotStem, hbind]
        constructor
        · rintro ⟨-, -, stem', hstem', hdots⟩
          rwa [Option.some.inj hstem']
        · exact fun hdots => ⟨hkind, hpermalink, stem, rfl, hdots⟩
      rw [hdot, hsteps, ofSegment?_doubled (stem?_eq_some hstem).1]
      by_cases hdots : stem = ['.'] ∨ stem = ['.', '.']
      · have hindex : stem ++ ".php".toList ≠ indexName := by
          rcases hdots with rfl | rfl <;> decide
        rw [if_neg hindex, if_pos hdots]
        simp [hdots]
      · split <;> simp [hparent, hdots]

/-- A page that is named by dots goes into the directory above its own. -/
theorem steps_of_dotStem {source : Path} {text : Text} {dirs : Conventions} {page : Page}
    (htemplate : isTemplate source = true) (h : parse source text dirs = .ok page)
    (hdot : page.DotStem) :
    page.output.steps = source.steps.dropLast ++ [.parent, .normal indexName] := by
  obtain ⟨name, stem, hname, hstem⟩ := exists_stem_of_isTemplate htemplate
  obtain ⟨hkind, hpermalink, stem', hstem', hdots⟩ := hdot
  obtain ⟨hpage, ⟨hpart, -⟩ | ⟨-, houtput⟩⟩ := parse_eq_ok h
  · cases hkind.symm.trans hpart
  · have hbind : page.source.fileName?.bind stem? = some stem := by
      rw [hpage, hname]
      exact hstem
    obtain rfl := Option.some.inj (hstem'.symm.trans hbind)
    rw [hpermalink] at houtput
    obtain ⟨output, hout, -, hsteps⟩ := output_none hname hstem
    obtain rfl : output = page.output := Except.ok.inj (hout.symm.trans houtput)
    have hindex : stem' ++ ".php".toList ≠ indexName := by
      rcases hdots with rfl | rfl <;> decide
    rw [hsteps, if_neg hindex, ofSegment?_doubled (stem?_eq_some hstem).1, if_pos hdots]
    rfl

/-- The output of a template is relative and stays below every root that it is joined to, unless
the template is a page that is named by one or two dots. -/
theorem output_under_iff {source : Path} {names : List Text} {text : Text} {dirs : Conventions}
    {page : Page} (hsource : source.components = names.map .normal)
    (htemplate : isTemplate source = true) (h : parse source text dirs = .ok page) :
    page.output.isAbsolute = false ∧
      (staysBelow page.output = true ↔ ¬page.DotStem) ∧
      ∀ root : Path, root.Under (root.join page.output) ↔ ¬page.DotStem := by
  obtain ⟨hrelative, hparent⟩ := output_steps hsource htemplate h
  refine ⟨hrelative, ?_, fun root => ?_⟩
  · rw [staysBelow_iff, ← hparent]
    exact and_iff_right hrelative
  · rw [under_join_iff root hrelative, hparent]

/-- A template named by a dot, which goes to the directory above. -/
def dotSample : Page :=
  { kind := .page
    source := ⟨"..blade".toList⟩
    output := ⟨"../index.php".toList⟩
    settings := []
    body := "hi".toList }

/-- A page that is called `..blade` leaves the output directory. -/
theorem output_under_iff_sample :
    parse dotSample.source "hi".toList {} = .ok dotSample ∧ dotSample.DotStem ∧
      staysBelow dotSample.output = false ∧
      ¬(⟨"public".toList⟩ : Path).Under (.join ⟨"public".toList⟩ dotSample.output) := by
  have hparse : parse dotSample.source "hi".toList {} = .ok dotSample := rfl
  have hdots : dotSample.DotStem := ⟨rfl, rfl, ['.'], by decide, .inl rfl⟩
  have hsource : dotSample.source.components = ["..blade".toList].map .normal := by decide
  obtain ⟨-, hbelow, hunder⟩ := output_under_iff hsource (by decide) hparse
  refine ⟨hparse, hdots, ?_, ?_⟩
  · rw [← Bool.not_eq_true, hbelow, not_not]
    exact hdots
  · rw [hunder, not_not]
    exact hdots

end Page

end Pagewright
