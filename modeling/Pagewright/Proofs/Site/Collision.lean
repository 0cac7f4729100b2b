import Mathlib.Data.List.Pairwise
import Pagewright.Proofs.Page.Output
import Pagewright.Site.Build

/-!
# Which collisions are found

Before a build writes anything, it looks for two files of the site with the same output
(`collision?`). Outputs are compared by components, and there a `.` at the start of a path counts,
although it does not change which file the path names (`Path.SameFile`).

`Config.collision?_complete_iff` says what that means for the outputs of a site. When no collision
is found, they name different files, unless one of them is another one with a `.` in front of it.
Such an output can only come from a permalink.
-/

namespace Pagewright

namespace Path

open Segments

/-- Whether two paths name the same file: they mean the same when every `.` is dropped. -/
def SameFile (a b : Path) : Prop :=
  a.components.filter (· ≠ .current) = b.components.filter (· ≠ .current)

/-- A dot is no step. -/
theorem current_notMem_steps (path : Path) : .current ∉ path.steps := by
  intro h
  rcases eq_parent_or_normal_of_mem_names h with h | ⟨name, -, h⟩ <;> cases h

/-- Without the dots a path is the root, if it starts there, and its steps. -/
theorem filter_components (path : Path) :
    path.components.filter (· ≠ .current) =
      (if path.lead = .root then [.root] else []) ++ path.steps := by
  have hsteps : path.steps.filter (· ≠ .current) = path.steps := by
    refine List.filter_eq_self.2 fun c hc => ?_
    have : c ≠ .current := fun h => current_notMem_steps path (h ▸ hc)
    simpa using this
  rw [components_eq, List.filter_append, hsteps]
  cases path.lead <;> simp

theorem lead_eq_current_of_components {path : Path} {rest : List Component}
    (h : path.components = .current :: rest) : path.lead = .current := by
  rw [components_eq] at h
  have hsteps := current_notMem_steps path
  cases hlead : path.lead <;> simp_all

theorem SameFile.symm {a b : Path} (h : a.SameFile b) : b.SameFile a :=
  Eq.symm h

/-- Two paths that name the same file mean the same, or one has a `.` in front of the other. -/
theorem sameFile_iff {a b : Path} :
    a.SameFile b ↔ a.components = b.components ∨
      a.components = .current :: b.components ∨ b.components = .current :: a.components := by
  rw [SameFile, filter_components, filter_components, components_eq, components_eq]
  have ha := root_notMem_steps a
  have hb := root_notMem_steps b
  have ha' := current_notMem_steps a
  have hb' := current_notMem_steps b
  cases a.lead <;> cases b.lead <;> simp <;> grind

end Path

/-! ## What the check compares -/

/-- The check passes when no two entries have the same components, and none has those of one seen
before. -/
theorem collision?_eq_none_iff {seen entries : List (Path × Path)} :
    collision? seen entries = none ↔
      (∀ entry ∈ entries, ∀ other ∈ seen, entry.2.components ≠ other.2.components) ∧
        entries.Pairwise fun a b => a.2.components ≠ b.2.components := by
  induction entries generalizing seen with
  | nil => simp [collision?]
  | cons entry rest ih =>
    obtain ⟨source, output⟩ := entry
    unfold collision?
    split
    case h_1 first other hfind =>
      have hmem := List.mem_of_find?_eq_some hfind
      have hsame : output.components = other.components := by
        simpa [Path.same] using List.find?_some hfind
      simp only [reduceCtorEq, false_iff, not_and]
      exact fun h => absurd hsame (h _ List.mem_cons_self _ hmem)
    case h_2 hfind =>
      have hfree : ∀ other ∈ seen, output.components ≠ other.2.components := by
        simpa [Path.same, List.find?_eq_none] using hfind
      rw [ih, List.pairwise_cons]
      constructor
      · rintro ⟨hseen, hpairs⟩
        refine ⟨fun entry hentry other hother => ?_, fun entry hentry => ?_, hpairs⟩
        · rcases List.mem_cons.1 hentry with rfl | hentry
          · exact hfree other hother
          · exact hseen entry hentry other (List.mem_cons_of_mem _ hother)
        · exact (hseen entry hentry _ List.mem_cons_self).symm
      · rintro ⟨hseen, hhead, hpairs⟩
        refine ⟨fun entry hentry other hother => ?_, hpairs⟩
        rcases List.mem_cons.1 hother with rfl | hother
        · exact (hhead entry hentry).symm
        · exact hseen entry (List.mem_cons_of_mem _ hentry) other hother

/-- Outputs without a collision name different files as long as none of them is another one with a
`.` in front of it. -/
theorem pairwise_not_sameFile_iff {entries : List (Path × Path)}
    (h : collision? [] entries = none) :
    (entries.Pairwise fun a b => ¬a.2.SameFile b.2) ↔
      ∀ a ∈ entries, ∀ b ∈ entries, a.2.components ≠ .current :: b.2.components := by
  obtain ⟨-, hpairs⟩ := collision?_eq_none_iff.1 h
  constructor
  · intro hfiles a ha b hb hcurrent
    have hne : a ≠ b := by
      rintro rfl
      simpa using congrArg List.length hcurrent
    have hsymm : Std.Symm fun a b : Path × Path => ¬a.2.SameFile b.2 :=
      ⟨fun a b h hba => h hba.symm⟩
    exact hfiles.forall ha hb hne (Path.sameFile_iff.2 (.inr (.inl hcurrent)))
  · intro hdots
    refine hpairs.imp_of_mem fun ha hb hne hsame => ?_
    rcases Path.sameFile_iff.1 hsame with h | h | h
    · exact hne h
    · exact hdots _ ha _ hb h
    · exact hdots _ hb _ ha h

/-! ## Where outputs start -/

namespace Page

open Pagewright.Path Location

/-- An output starts with a dot only if the permalink does. -/
theorem lead_ofPermalink {permalink : Text} {output : Path}
    (h : ofPermalink permalink = .ok output) (hlead : output.lead = .current) :
    (⟨trimmed permalink⟩ : Path).lead = .current := by
  obtain ⟨-, ⟨-, rfl⟩ | ⟨-, -, rfl⟩ | ⟨htext, rfl⟩⟩ := ofPermalink_eq_ok h
  · exact absurd hlead (by decide)
  · exact hlead
  · exact (lead_join htext isAbsolute_indexName).symm.trans hlead

/-- The page has a permalink that starts with a `.`. -/
def DotLink (page : Page) : Prop :=
  ∃ permalink, page.settings.text? "permalink".toList = some permalink ∧
    (⟨trimmed permalink⟩ : Path).lead = .current

section Source

variable {source : Path} (hlead : source.lead = .none)
  (hsource : source.text = [] ∨ isTemplate source = true)

include hlead hsource

/-- What is compiled beside a template starts where the template does. -/
theorem lead_compiledPath_eq_none : (compiledPath source).lead = .none := by
  rcases hsource with htext | htemplate
  · obtain rfl : source = ⟨[]⟩ := congrArg Path.mk htext
    rfl
  · obtain ⟨name, stem, hname, hstem⟩ := exists_stem_of_isTemplate htemplate
    rw [lead_compiledPath hname hstem, hlead]

/-- Without a permalink no output starts with a dot. -/
theorem lead_output_none {output : Path} (h : Location.output source none = .ok output) :
    output.lead = .none := by
  rcases hsource with htext | htemplate
  · obtain rfl : source = ⟨[]⟩ := congrArg Path.mk htext
    obtain rfl : ⟨indexName⟩ = output := Except.ok.inj h
    decide
  · obtain ⟨name, stem, hname, hstem⟩ := exists_stem_of_isTemplate htemplate
    obtain ⟨output', hout, hlead', -⟩ := output_none hname hstem
    obtain rfl : output' = output := Except.ok.inj (hout.symm.trans h)
    rw [hlead', hlead]

/-- Only a permalink can make an output start with a `.`. -/
theorem dotLink_of_lead {text : Text} {dirs : Conventions} {page : Page}
    (h : parse source text dirs = .ok page) (hcurrent : page.output.lead = .current) :
    page.DotLink := by
  obtain ⟨-, ⟨-, houtput⟩ | ⟨-, houtput⟩⟩ := parse_eq_ok h
  · rw [houtput, lead_compiledPath_eq_none hlead hsource] at hcurrent
    cases hcurrent
  · cases hpermalink : page.settings.text? "permalink".toList with
    | some permalink =>
      rw [hpermalink] at houtput
      exact ⟨permalink, hpermalink, lead_ofPermalink houtput hcurrent⟩
    | none =>
      rw [hpermalink] at houtput
      rw [lead_output_none hlead hsource houtput] at hcurrent
      cases hcurrent

end Source

end Page

/-! ## The files of a site -/

namespace Disk

open Pagewright.Path

/-- Joining names to a path leads below it, unless one of them starts at the root. -/
theorem foldl_join_components (names : Place) {path : Path} (h : path.text ≠ []) :
    let full := names.foldl (fun path name => path.join ⟨name⟩) path
    full.lead = .root ∨ ∃ rest, full.components = path.components ++ rest := by
  induction names generalizing path with
  | nil => exact .inr ⟨[], (List.append_nil _).symm⟩
  | cons name names ih =>
    rcases ih (text_join_ne_nil h ⟨name⟩) with hroot | ⟨rest, hrest⟩
    · exact .inl hroot
    · cases hname : (⟨name⟩ : Path).isAbsolute with
      | true =>
        left
        have hjoin : path.join ⟨name⟩ = ⟨name⟩ := if_pos hname
        rw [lead_eq_root_iff, ← root_mem_components_iff, List.foldl_cons, hrest, hjoin]
        exact List.mem_append_left _ (root_mem_components_iff.2 hname)
      | false =>
        right
        rw [components_join h hname, List.append_assoc] at hrest
        exact ⟨_, hrest⟩

/-- A walk finds paths that go on from where it has started, or that start at the root. -/
theorem mem_files {disk : Disk} {base path : Path} (h : path ∈ disk.files base) :
    base.text ≠ [] ∧ (path.lead = .root ∨ ∃ rest, path.components = base.components ++ rest) := by
  obtain ⟨hmem, -⟩ := List.mem_filter.1 h
  obtain ⟨⟨_, file⟩, hwalk, rfl⟩ := List.mem_map.1 hmem
  have hbase : base.text ≠ [] := by
    intro htext
    simp [walk, find, resolve, htext, bind, Except.bind] at hwalk
  refine ⟨hbase, ?_⟩
  unfold walk at hwalk
  split at hwalk
  · cases hwalk
  · cases List.mem_singleton.1 hwalk
    exact .inr ⟨[], (List.append_nil _).symm⟩
  · obtain ⟨⟨names, file'⟩, -, hpath⟩ := List.mem_map.1 hwalk
    cases hpath
    exact foldl_join_components names hbase

end Disk

namespace Config

open Pagewright.Path Location

/-- The pages and the other files that a build finds below the source directory. -/
structure Finds (disk : Disk) (config : Config) (pages : List (Path × Page))
    (statics : List Path) : Prop where
  templates : pages.map Prod.fst = (config.siteFiles disk).filter isTemplate
  loads : ∀ found ∈ pages, config.loadPage disk found.1 = .ok found.2
  statics : statics = (config.siteFiles disk).filter (!isTemplate ·)

/-- A page that has been loaded was read as text and then taken apart. -/
theorem loadPage_eq_ok {disk : Disk} {config : Config} {path : Path} {page : Page}
    (h : config.loadPage disk path = .ok page) :
    ∃ source text, path.relativeTo? config.source = some source ∧
      disk.readText (config.source.join source) = .ok text ∧
      Page.parse source text config.dirs = .ok page := by
  obtain ⟨source, hsource, h⟩ := bind_eq_ok_iff.1 h
  have hrelative : path.relativeTo? config.source = some source := by
    unfold sourcePath at hsource
    split at hsource
    · cases hsource
      assumption
    · cases hsource
  simp only at h
  split at h
  · cases h
  case h_2 text htext =>
    split at h
    case h_1 page' hpage =>
      cases h
      exact ⟨source, text, hrelative, htext, hpage⟩
    · cases h

section Finds

variable {disk : Disk} {config : Config} {pages : List (Path × Page)} {statics : List Path}

/-- Every page that has been found is a template of the site and has been loaded. -/
theorem Finds.page (h : config.Finds disk pages statics) {found : Path × Page}
    (hmem : found ∈ pages) :
    found.1 ∈ config.siteFiles disk ∧ isTemplate found.1 = true ∧
      config.loadPage disk found.1 = .ok found.2 := by
  have hpath := List.mem_map_of_mem (f := Prod.fst) hmem
  rw [h.templates, List.mem_filter] at hpath
  exact ⟨hpath.1, hpath.2, h.loads found hmem⟩

/-- The files of a site have paths below that of the source directory. -/
theorem mem_siteFiles {path : Path} (h : path ∈ config.siteFiles disk) :
    config.source.components ≠ [] ∧
      (path.lead = .root ∨ ∃ rest, path.components = config.source.components ++ rest) := by
  obtain ⟨htext, hpath⟩ := Disk.mem_files (List.mem_filter.1 h).1
  exact ⟨components_ne_nil htext, hpath⟩

/-- Only a permalink can make the output of a page of the site start with a `.`. -/
theorem Finds.dotLink (h : config.Finds disk pages statics) {found : Path × Page}
    (hmem : found ∈ pages) (hlead : found.2.output.lead = .current) : found.2.DotLink := by
  obtain ⟨hfile, htemplate, hload⟩ := h.page hmem
  obtain ⟨hbase, -⟩ := mem_siteFiles hfile
  obtain ⟨source, text, hsource, -, hparse⟩ := loadPage_eq_ok hload
  obtain ⟨hnone, -, htext | htight⟩ := relativeTo?_eq_some hbase hsource
  · exact Page.dotLink_of_lead hnone (.inl htext) hparse hlead
  · have htemplate' : isTemplate source = true := by
      rwa [isTemplate, fileName?_relativeTo? hbase hsource htight]
    exact Page.dotLink_of_lead hnone (.inr htemplate') hparse hlead

/-- A file that is copied has no `.` in front of its output. -/
theorem lead_static {path : Path} (h : path ∈ config.siteFiles disk) :
    ((path.relativeTo? config.source).getD path).lead ≠ .current := by
  obtain ⟨hbase, hpath⟩ := mem_siteFiles h
  cases hrelative : path.relativeTo? config.source with
  | some relative =>
    rw [Option.getD_some, (relativeTo?_eq_some hbase hrelative).1]
    simp
  | none =>
    rcases hpath with hroot | ⟨rest, hrest⟩
    · rw [Option.getD_none, hroot]
      simp
    · obtain ⟨child, hchild⟩ := relativeTo?_eq_some_of_components hrest
      rw [hrelative] at hchild
      cases hchild

/-- When no collision is found, the outputs of a site name different files, unless the output of a
page with a `.` in front of its permalink is another output behind that `.`. -/
theorem collision?_complete_iff (hfinds : config.Finds disk pages statics)
    (h : collision? [] (config.entries pages statics) = none) :
    ((config.entries pages statics).Pairwise fun a b => ¬a.2.SameFile b.2) ↔
      ∀ found ∈ pages, found.2.DotLink → ∀ entry ∈ config.entries pages statics,
        found.2.output.components ≠ .current :: entry.2.components := by
  rw [pairwise_not_sameFile_iff h]
  constructor
  · intro hdots found hfound _ entry hentry
    refine hdots (found.2.source, found.2.output) ?_ entry hentry
    exact List.mem_append_left _ (List.mem_map_of_mem hfound)
  · intro hdots a ha b hb hcurrent
    have hlead := lead_eq_current_of_components hcurrent
    rcases List.mem_append.1 ha with ha | ha
    · obtain ⟨found, hfound, rfl⟩ := List.mem_map.1 ha
      exact hdots found hfound (hfinds.dotLink hfound hlead) b hb hcurrent
    · obtain ⟨path, hpath, rfl⟩ := List.mem_map.1 ha
      rw [hfinds.statics] at hpath
      exact lead_static (List.mem_filter.1 hpath).1 hlead

end Finds

/-- A site with a page that asks for `./feed.xml`, and a file of that name beside it. -/
def dotDisk : Disk :=
  { entries := [
      (["source".toList], .directory 0),
      (["source".toList, "a.blade".toList],
        .file ⟨Text.utf8 "---\npermalink: ./feed.xml\n---\nx".toList, 0⟩),
      (["source".toList, "feed.xml".toList], .file ⟨[], 0⟩)] }

def dotConfig : Config :=
  { source := ⟨"/source".toList⟩, output := ⟨"/public".toList⟩ }

theorem siteFiles_dot : dotConfig.siteFiles dotDisk =
    [⟨"/source/a.blade".toList⟩, ⟨"/source/feed.xml".toList⟩] := by
  have hfind : dotDisk.find dotConfig.source = .ok (["source".toList], .directory 0) := rfl
  -- The files stand in order already, so sorting them changes nothing.
  have hbelow : dotDisk.filesBelow ["source".toList] =
      [(["a.blade".toList], ⟨Text.utf8 "---\npermalink: ./feed.xml\n---\nx".toList, 0⟩),
        (["feed.xml".toList], ⟨[], 0⟩)] :=
    List.mergeSort_of_pairwise (by decide)
  rw [siteFiles, Disk.files, Disk.walk, hfind]
  simp only [hbelow]
  decide

/-- The page with the dot in its permalink is loaded, and keeps the dot. -/
theorem exists_dotPage : ∃ page,
    dotConfig.loadPage dotDisk ⟨"/source/a.blade".toList⟩ = .ok page ∧
      page.output = ⟨"./feed.xml".toList⟩ ∧
      page.settings.text? "permalink".toList = some "./feed.xml".toList := by
  have hload : (dotConfig.loadPage dotDisk ⟨"/source/a.blade".toList⟩).toOption.any (fun page =>
      page.output = ⟨"./feed.xml".toList⟩ ∧
        page.settings.text? "permalink".toList = some "./feed.xml".toList) = true := by
    decide +kernel
  cases h : dotConfig.loadPage dotDisk ⟨"/source/a.blade".toList⟩ with
  | error e =>
    rw [h] at hload
    cases hload
  | ok page =>
    rw [h] at hload
    exact ⟨page, rfl, of_decide_eq_true hload⟩

/-- A page and a file are both accepted, and both are meant for the same place. -/
theorem collision?_complete_iff_sample : ∃ pages statics, dotConfig.Finds dotDisk pages statics ∧
    collision? [] (dotConfig.entries pages statics) = none ∧
    ¬(dotConfig.entries pages statics).Pairwise fun a b => ¬a.2.SameFile b.2 := by
  obtain ⟨page, hload, houtput, hpermalink⟩ := exists_dotPage
  have hfinds : dotConfig.Finds dotDisk [(⟨"/source/a.blade".toList⟩, page)]
      [⟨"/source/feed.xml".toList⟩] := by
    refine ⟨?_, fun found hfound => ?_, ?_⟩
    · rw [siteFiles_dot]
      rfl
    · obtain rfl := List.mem_singleton.1 hfound
      exact hload
    · rw [siteFiles_dot]
      decide
  have hstatic : (⟨"/source/feed.xml".toList⟩ : Path).relativeTo? dotConfig.source =
      some ⟨"feed.xml".toList⟩ := by decide
  have hentries : dotConfig.entries [(⟨"/source/a.blade".toList⟩, page)]
      [⟨"/source/feed.xml".toList⟩] =
        [(page.source, ⟨"./feed.xml".toList⟩), (⟨"feed.xml".toList⟩, ⟨"feed.xml".toList⟩)] := by
    simp only [entries, hstatic, houtput, List.map_cons, List.map_nil, Option.getD_some,
      List.singleton_append]
  have hnone : collision? [] (dotConfig.entries [(⟨"/source/a.blade".toList⟩, page)]
      [⟨"/source/feed.xml".toList⟩]) = none := by
    rw [hentries, collision?_eq_none_iff]
    have hne : (⟨"./feed.xml".toList⟩ : Path).components ≠
        (⟨"feed.xml".toList⟩ : Path).components := by decide
    simpa using hne
  refine ⟨_, _, hfinds, hnone, ?_⟩
  rw [collision?_complete_iff hfinds hnone, hentries]
  intro hdots
  refine hdots _ List.mem_cons_self ⟨_, hpermalink, by decide⟩ _
    (List.mem_cons_of_mem _ List.mem_cons_self) ?_
  rw [houtput]
  decide

end Config

end Pagewright
