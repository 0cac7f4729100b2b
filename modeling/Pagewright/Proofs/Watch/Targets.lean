import Pagewright.Proofs.Disk.Reading
import Pagewright.Proofs.Path.Order
import Pagewright.Proofs.Site.Stages
import Pagewright.Watch.Session

/-!
# Changed files and built files

A file of the site that changes is compiled or copied on its own (`Session.targetsOf`), and a build
compiles or copies all of them (`Config.taken`). The two find the file by different ways: a change
names it by some path that leads there, a build by the path of the source directory and the names
below it. But both go by its name in the end, and all paths to a file have the same one
(`Disk.fileName?_of_find`). So they agree on what is to be done with the file
(`Session.mem_targetsOf_iff`), except that a change of a temporary file asks for nothing.
-/

namespace Pagewright

open Disk

/-! ## What depends on the name alone -/

namespace Path

variable {a b : Path}

/-- Paths that mean the same have the same name. -/
theorem fileName?_of_same (h : a.same b = true) : a.fileName? = b.fileName? := by
  ext name
  rw [fileName?_eq_some_iff_components, fileName?_eq_some_iff_components, same_iff.1 h]

theorem startsWith_of_same (h : a.same b = true) (base : Path) :
    a.startsWith base = b.startsWith base := by
  rw [startsWith, startsWith, same_iff.1 h]

/-- Whether a file is ignored depends on its name. -/
theorem isIgnored_congr (h : a.fileName? = b.fileName?) : isIgnored a = isIgnored b := by
  rw [isIgnored, isIgnored, h]

/-- Builds ignore two names, and one of them is the name of a temporary file. -/
theorem isIgnored_of_not_isTemporary (h : a.isTemporary = false)
    (hname : a.fileName? ≠ some "Thumbs.db") : isIgnored a = false := by
  rw [isIgnored]
  cases hfile : a.fileName? with
  | none => rfl
  | some name =>
    have hdot : name.head? ≠ some '.' := by
      intro hdot
      simp [isTemporary, hfile, hdot] at h
    have hfirst : name ≠ ".DS_Store" := by
      rintro rfl
      exact hdot rfl
    have hsecond : name ≠ "Thumbs.db" := by
      rintro rfl
      exact hname hfile
    simpa [ignoredNames] using ⟨hfirst, hsecond⟩

end Path

/-- What a file of the site is, by its name. -/
def Category.ofFile (path : Path) : Category :=
  if Location.isTemplate path then .template else .static

/-- The category of a file depends on its name. -/
theorem Category.ofFile_congr {a b : Path} (h : a.fileName? = b.fileName?) :
    ofFile a = ofFile b := by
  rw [ofFile, ofFile, Location.isTemplate, Location.isTemplate, h]

theorem Category.ofFile_eq (path : Path) : ofFile path = .template ∨ ofFile path = .static := by
  unfold ofFile
  split
  · exact .inl rfl
  · exact .inr rfl

/-! ## Paths to a file -/

namespace Disk

open Pagewright.Path Segments

variable {disk disk' : Disk}

theorem fileName?_pathOf {front : Place} {name : Text} (h : ∀ n ∈ front ++ [name], IsName n) :
    (pathOf (front ++ [name])).fileName? = some name := by
  rw [fileName?_eq_some_iff, steps_pathOf h]
  simp

/-- Every path that leads to a file ends with the name of the file. -/
theorem fileName?_of_find (hsound : disk.Sound) {path : Path} {place : Place} {file : File}
    (h : disk.find path = .ok (place, .file file)) :
    path.fileName? = (pathOf place).fileName? := by
  obtain ⟨hresolve, hget⟩ := find_eq_ok_iff.1 h
  have hnot : ¬disk.IsDir place := by
    rintro ⟨modified, hget'⟩
    cases hget.symm.trans hget'
  obtain ⟨-, hfold⟩ := foldlM_step_of_resolve hresolve
  -- Only the last segment matters: it leads from a directory to the file.
  rcases List.eq_nil_or_concat' (Text.parts '/' path.text) with hnil | ⟨before, last, hparts⟩
  · exact absurd hnil (Text.parts_ne_nil _ _)
  rw [hparts, List.foldlM_append, bind_eq_ok_iff] at hfold
  obtain ⟨middle, -, hlast⟩ := hfold
  obtain ⟨next, hstep, hnext⟩ := bind_eq_ok_iff.1 hlast
  obtain rfl := Except.ok.inj hnext
  obtain ⟨hdir, rfl⟩ := isDir_of_step hstep
  cases hsegment : Component.ofSegment? last with
  | none => exact absurd (by simpa [hsegment] using hdir) hnot
  | some c =>
    simp only [hsegment, Option.elim_some] at hnot hget ⊢
    cases c with
    | root => exact absurd hdir hnot
    | current => exact absurd hdir hnot
    | parent => exact absurd (hsound.isDir_dropLast hdir) hnot
    | normal name =>
      rw [nextPlace, fileName?_pathOf (hsound.isName hget), fileName?_eq_some_iff, steps, hparts,
        names_append, names_singleton, hsegment]
      simp

/-- A path down from the root leads to the same directory when the directories on the way are still
there. -/
theorem foldlM_step_down {segments : List Text} {place names : Place}
    (hnames : Segments.names segments = names.map .normal)
    (hdir : ∀ front, List.IsPrefix front (place ++ names) → disk.IsDir front → disk'.IsDir front)
    {target : Place} (h : segments.foldlM disk.step place = .ok target) :
    segments.foldlM disk'.step place = .ok target := by
  induction segments generalizing place names with
  | nil => exact h
  | cons segment segments ih =>
    rw [List.foldlM_cons, bind_eq_ok_iff] at h ⊢
    obtain ⟨middle, hstep, hrest⟩ := h
    refine ⟨middle, step_mono (hdir place (List.prefix_append _ _)) hstep, ?_⟩
    obtain ⟨-, rfl⟩ := isDir_of_step hstep
    cases hsegment : Component.ofSegment? segment with
    | none =>
      rw [Segments.names, List.filterMap_cons_none hsegment] at hnames
      rw [hsegment] at hrest
      exact ih hnames hdir hrest
    | some c =>
      rw [Segments.names, List.filterMap_cons_some hsegment] at hnames
      cases names with
      | nil => cases hnames
      | cons name names =>
        obtain ⟨rfl, htail⟩ := List.cons.inj hnames
        rw [hsegment] at hrest
        refine ih htail (fun front hfront => hdir front ?_) hrest
        simpa [nextPlace] using hfront

end Disk

/-! ## The files that a build takes up -/

namespace Config

open Pagewright.Path Location

variable {config : Config} {disk start : Disk}

/-- The files that a build compiles and those that it copies, as it divides them once the output
directory is there. -/
def taken (disk : Disk) (config : Config) : Category → List Path
  | .template => ((config.siteFiles disk).partition isTemplate).1
  | .static => ((config.siteFiles disk).partition isTemplate).2
  | _ => []

/-- A build takes up the files of the site, each by its category. -/
theorem mem_taken_iff {category : Category} {path : Path} :
    path ∈ config.taken disk category ↔
      path ∈ config.siteFiles disk ∧ category = Category.ofFile path := by
  unfold taken Category.ofFile
  cases category <;> cases htemplate : isTemplate path <;>
    simp [List.partition_eq_filter_filter, htemplate]

/-- The source directory, of which a file below it has the path at the start of its own. -/
theorem exists_base {place : Place} (hplace : ∀ name ∈ place, IsName name)
    (hsource : disk.isDirectory config.source = true)
    (hbelow : (pathOf place).startsWith config.source = true) :
    ∃ base, List.IsPrefix base place ∧ config.source.components = .root :: base.map .normal := by
  obtain ⟨target, hresolve, -⟩ := isDirectory_eq_true_iff.1 hsource
  have hne := components_ne_nil (foldlM_step_of_resolve hresolve).1
  obtain ⟨c, rest, hcomponents⟩ := List.exists_cons_of_ne_nil hne
  rw [startsWith_pathOf_iff hplace, hcomponents, List.cons_prefix_cons, List.prefix_iff_eq_take,
    ← List.map_take] at hbelow
  obtain ⟨rfl, hrest⟩ := hbelow
  exact ⟨place.take rest.length, List.take_prefix _ _, by rw [hcomponents, ← hrest]⟩

/-- Preparing the output directory leaves the source directory where it was. -/
theorem find_source (hprepares : config.Prepares disk start)
    (hsource : disk.isDirectory config.source = true) {base : Place}
    (hcomponents : config.source.components = .root :: base.map .normal)
    (houtside : ¬List.IsPrefix config.output.place base) :
    ∃ modified, start.find config.source = .ok (base, .directory modified) := by
  obtain ⟨hlead, hsteps⟩ := lead_steps_of_root hcomponents
  have habsolute := lead_eq_root_iff.1 hlead
  have hkept : ∀ front, List.IsPrefix front base → disk.IsDir front → start.IsDir front :=
    fun front hfront => hprepares.isDir front fun hout => houtside (hout.trans hfront)
  obtain ⟨target, hresolve, hdir⟩ := isDirectory_eq_true_iff.1 hsource
  obtain rfl : target = base := by
    rw [eq_place_of_resolve habsolute hresolve, place_of_steps hsteps]
  obtain ⟨modified, hget⟩ := hkept target List.prefix_rfl hdir
  have hfits := fits_of_resolve hresolve
  rw [resolve_of_fits habsolute hfits] at hresolve
  refine ⟨modified, find_eq_ok_iff.2 ⟨?_, hget⟩⟩
  rw [resolve_of_fits habsolute hfits]
  exact foldlM_step_down hsteps (by simpa using hkept) hresolve

section Walk

variable {base : Place} (hsound : start.Sound)
  (hcomponents : config.source.components = .root :: base.map .normal)

include hsound hcomponents

/-- The path under which a build finds a file below the source directory. -/
theorem same_foldl_join {names : Place} {file : File}
    (hfile : start.file? (base ++ names) = some file) :
    (names.foldl (fun path name => path.join ⟨name⟩) config.source).same
      (pathOf (base ++ names)) = true := by
  have hnames := hsound.isName (file?_eq_some_iff.1 hfile)
  have htext := text_ne_nil_of_isAbsolute
    (lead_eq_root_iff.1 (lead_steps_of_root hcomponents).1)
  have hjoin := foldl_join_of_isName
    (fun name hname => hnames name (List.mem_append_right _ hname)) htext
  rw [same_iff, components_pathOf hnames, hjoin, hcomponents, List.map_append]
  rfl

variable {modified : Int} (hfind : start.find config.source = .ok (base, .directory modified))

include hfind

/-- A file below the source directory is one of the site when it is not ignored. -/
theorem exists_mem_siteFiles_iff {place : Place} {file : File}
    (hfile : start.file? place = some file) (hbelow : List.IsPrefix base place)
    (houtside : (pathOf place).startsWith config.output = false) :
    (∃ found ∈ config.siteFiles start, found.same (pathOf place) = true) ↔
      isIgnored (pathOf place) = false := by
  constructor
  · rintro ⟨found, hmem, hsame⟩
    have hfiles := (List.mem_filter.1 (List.mem_filter.1 hmem).1).2
    rw [← isIgnored_congr (fileName?_of_same hsame)]
    simpa using hfiles
  · intro hignored
    obtain ⟨names, rfl⟩ := hbelow
    have hsame := same_foldl_join hsound hcomponents hfile
    refine ⟨_, List.mem_filter.2 ⟨List.mem_filter.2 ⟨?_, ?_⟩, ?_⟩, hsame⟩
    · rw [walk, hfind, List.map_map]
      exact List.mem_map.2 ⟨(names, file), (mem_filesBelow hsound.distinct).2 hfile, rfl⟩
    · rw [isIgnored_congr (fileName?_of_same hsame), hignored]
      rfl
    · rw [startsWith_of_same hsame, houtside]
      rfl

/-- A build takes up a file below the source directory as what its name says, unless it ignores
it. -/
theorem exists_mem_taken_iff {place : Place} {file : File}
    (hfile : start.file? place = some file) (hbelow : List.IsPrefix base place)
    (houtside : (pathOf place).startsWith config.output = false) {category : Category} :
    (∃ found ∈ config.taken start category, found.same (pathOf place) = true) ↔
      isIgnored (pathOf place) = false ∧ category = Category.ofFile (pathOf place) := by
  rw [← exists_mem_siteFiles_iff hsound hcomponents hfind hfile hbelow houtside]
  constructor
  · rintro ⟨found, hmem, hsame⟩
    obtain ⟨hfound, rfl⟩ := mem_taken_iff.1 hmem
    exact ⟨⟨found, hfound, hsame⟩, Category.ofFile_congr (fileName?_of_same hsame)⟩
  · rintro ⟨⟨found, hfound, hsame⟩, rfl⟩
    exact ⟨found, mem_taken_iff.2 ⟨hfound, (Category.ofFile_congr (fileName?_of_same hsame)).symm⟩,
      hsame⟩

end Walk

end Config

/-! ## The files that a change asks for -/

namespace Session

open Pagewright.Path

/-- What a change of one path asks for, when nothing else is pending. -/
def targetsOf (disk : Disk) (config : Config) (kind : ChangeKind) (path : Path) :
    List (Path × Category) :=
  if kind.isRelevant then targets disk config (({} : Debouncer).add [path]).take.1 else []

/-- A single path is handed over, unless it belongs to a temporary file. -/
theorem mem_take_add {path other : Path} :
    other ∈ (({} : Debouncer).add [path]).take.1 ↔ path.isTemporary = false ∧ other = path := by
  rw [(Debouncer.perm_take _).mem_iff]
  cases htemporary : path.isTemporary <;> simp [Debouncer.add, Debouncer.insert, htemporary]

/-- A changed file of the source directory has the category that its name gives it. -/
theorem ofPath_of_find {disk : Disk} {config : Config} {path : Path} {place : Place} {entry : Entry}
    (hfind : disk.find path = .ok (place, entry))
    (hconfig : (pathOf place).same config.path = false)
    (houtside : (pathOf place).startsWith config.output = false)
    (hbelow : (pathOf place).startsWith config.source = true) :
    Category.ofPath disk config path = Category.ofFile (pathOf place) := by
  have habsolute : Category.absolute disk path = pathOf place := by
    simp [Category.absolute, canonical?, hfind, Except.toOption]
  rw [Category.ofPath, habsolute]
  simp [hconfig, houtside, hbelow, Category.ofFile]

/-- A file below the source directory and outside of the output directory, which is not the
configuration file, is created or changed. Then it is compiled or copied on its own just as a build
would do it, unless its name is one of a temporary file. -/
theorem mem_targetsOf_iff {config : Config} {world world' : World} {kind : ChangeKind} {path : Path}
    {place : Place} {file : File} {category : Category} (hsound : world.disk.Sound)
    (hsource : world.disk.isDirectory config.source = true)
    (houtput : config.output.isAbsolute = true)
    (hprepare : config.prepareOutput.exec world = (.ok (), world'))
    (hkind : kind = .create ∨ kind = .modify)
    (hfind : world.disk.find path = .ok (place, .file file))
    (hbelow : (pathOf place).startsWith config.source = true)
    (houtside : ¬List.IsPrefix config.output.place place)
    (hconfig : (pathOf place).same config.path = false)
    (hname : path.fileName? ≠ some "Thumbs.db") :
    (path, category) ∈ targetsOf world.disk config kind path ↔
      path.isTemporary = false ∧
        ∃ found ∈ config.taken world'.disk category, found.same (pathOf place) = true := by
  have hget := (find_eq_ok_iff.1 hfind).2
  have hplace := hsound.isName hget
  have hprepares := Config.prepares_of_exec houtput hprepare
  have houtside' : (pathOf place).startsWith config.output = false := by
    rw [← Bool.not_eq_true]
    exact fun hstarts => houtside (isPrefix_of_startsWith hplace houtput hstarts)
  -- The build finds the file, since nothing outside of the output directory has changed.
  obtain ⟨base, hbase, hcomponents⟩ := Config.exists_base hplace hsource hbelow
  obtain ⟨modified, hstart⟩ := Config.find_source hprepares hsource hcomponents fun hout =>
    houtside (hout.trans hbase)
  have hfile : world'.disk.file? place = some file :=
    (hprepares.file? place houtside).trans (file?_eq_some_iff.2 hget)
  rw [Config.exists_mem_taken_iff (hprepares.sound hsound) hcomponents hstart hfile hbase houtside']
  -- The change leads to the same file, and both go by its name.
  have hrelevant : kind.isRelevant = true := by rcases hkind with rfl | rfl <;> rfl
  have hofPath := ofPath_of_find hfind hconfig houtside' hbelow
  have hignored : path.isTemporary = false → isIgnored (pathOf place) = false := by
    intro htemporary
    rw [← isIgnored_congr (fileName?_of_find hsound hfind)]
    exact isIgnored_of_not_isTemporary htemporary hname
  rw [targetsOf, if_pos hrelevant, targets, List.mem_filter, List.mem_map]
  constructor
  · rintro ⟨⟨other, hother, heq⟩, -⟩
    obtain ⟨htemporary, rfl⟩ := mem_take_add.1 hother
    obtain ⟨-, rfl⟩ := Prod.mk.inj heq
    exact ⟨htemporary, hignored htemporary, hofPath⟩
  · rintro ⟨htemporary, -, rfl⟩
    refine ⟨⟨path, mem_take_add.2 ⟨htemporary, rfl⟩, by rw [hofPath]⟩, ?_⟩
    rcases Category.ofFile_eq (pathOf place) with hcategory | hcategory <;> simp [hcategory]

/-- A site with a style sheet and a file whose name starts with a dot. -/
def dottedWorld : World where
  disk :=
    { entries := [
        (["source".toList], .directory 0),
        (["source".toList, "a.css".toList], .file ⟨[], 1⟩),
        (["source".toList, ".htaccess".toList], .file ⟨[], 1⟩)] }

def dottedConfig : Config :=
  { source := ⟨"/source"⟩, output := ⟨"/public"⟩, path := ⟨"/bladerunner.toml"⟩ }

/-- The world once the output directory has been made. -/
def dottedStart : World :=
  (dottedConfig.prepareOutput.exec dottedWorld).2

theorem exec_prepareOutput_dotted :
    dottedConfig.prepareOutput.exec dottedWorld = (.ok (), dottedStart) :=
  Prod.ext (Work.eq_ok_of_toOption (by decide +kernel)) rfl

theorem exists_mem_taken_dotted {name : Text} (h : name = "a.css" ∨ name = ".htaccess") :
    ∃ found ∈ dottedConfig.taken dottedStart.disk .static,
      found.same (pathOf ["source".toList, name]) = true := by
  have hfind : dottedStart.disk.find dottedConfig.source =
      .ok (["source".toList], .directory 0) := Work.eq_ok_of_toOption (by decide +kernel)
  have hfile : dottedStart.disk.file? ["source".toList, name] = some ⟨[], 1⟩ := by
    rcases h with rfl | rfl <;> decide +kernel
  refine (Config.exists_mem_taken_iff (by decide +kernel) (by decide +kernel) hfind hfile
    ⟨[name], rfl⟩ ?_).2 ?_
  · rcases h with rfl | rfl <;> decide +kernel
  · rcases h with rfl | rfl <;> decide +kernel

theorem mem_targetsOf_iff_stylesheet :
    (⟨"./source//a.css"⟩, .static) ∈
      targetsOf dottedWorld.disk dottedConfig .modify ⟨"./source//a.css"⟩ := by
  have hfind : dottedWorld.disk.find ⟨"./source//a.css"⟩ =
      .ok (["source".toList, "a.css".toList], .file ⟨[], 1⟩) :=
    Work.eq_ok_of_toOption (by decide +kernel)
  exact (mem_targetsOf_iff (by decide +kernel) (by decide +kernel) (by decide +kernel)
    exec_prepareOutput_dotted (.inr rfl) hfind (by decide +kernel) (by decide +kernel)
    (by decide +kernel) (by decide +kernel)).2
      ⟨by decide +kernel, exists_mem_taken_dotted (.inl rfl)⟩

/-- A build copies a file whose name starts with a dot, and a change of it asks for nothing. -/
theorem targetsOf_dotted_ne :
    dottedWorld.disk.find ⟨"/source/.htaccess"⟩ =
        .ok (["source".toList, ".htaccess".toList], .file ⟨[], 1⟩) ∧
      (⟨"/source/.htaccess"⟩ : Path).startsWith dottedConfig.source = true ∧
      (⟨"/source/.htaccess"⟩ : Path).startsWith dottedConfig.output = false ∧
      (⟨"/source/.htaccess"⟩ : Path).same dottedConfig.path = false ∧
      ¬((⟨"/source/.htaccess"⟩, .static) ∈
          targetsOf dottedWorld.disk dottedConfig .create ⟨"/source/.htaccess"⟩ ↔
        ∃ found ∈ dottedConfig.taken dottedStart.disk .static,
          found.same ⟨"/source/.htaccess"⟩ = true) := by
  have hfind : dottedWorld.disk.find ⟨"/source/.htaccess"⟩ =
      .ok (["source".toList, ".htaccess".toList], .file ⟨[], 1⟩) :=
    Work.eq_ok_of_toOption (by decide +kernel)
  refine ⟨hfind, by decide +kernel, by decide +kernel, by decide +kernel, fun hiff => ?_⟩
  have hnone : (⟨"/source/.htaccess"⟩, .static) ∉
      targetsOf dottedWorld.disk dottedConfig .create ⟨"/source/.htaccess"⟩ := by decide +kernel
  have hpath : pathOf ["source".toList, ".htaccess".toList] = ⟨"/source/.htaccess"⟩ := by decide
  exact hnone (hiff.2 (hpath ▸ exists_mem_taken_dotted (.inr rfl)))

end Session

end Pagewright
