import Pagewright.Proofs.Site.Stages

/-!
# The files of a site

Which files a site has (`Config.IsSource`), and what each of them becomes in the output directory
(`Config.Makes`). Both go by the disk alone. Once the output directory has been made, the walk
through the source directory finds just these files (`Config.Laid.mem_siteFiles_iff`), and every
task of the build serves one of them (`Config.Serves`).

The outputs of pages are made of names alone here (`Config.Plain`). When no collision is found, no
two files then become the same one (`Config.eq_of_makes`). So after a build every file of the site
has been served (`Config.exists_done_of_buildIn`), and nothing outside of the output directory has
changed (`Config.file?_buildIn_outside`).
-/

namespace Pagewright

open Disk

namespace Config

open Pagewright.Path Work Location

variable {disk disk' start : Disk} {config : Config}

/-! ## The files of a site and what becomes of them -/

/-- There is a file of the site at a place: it lies below the source directory and not below the
output directory, and no desktop has left it behind. -/
structure IsSource (disk : Disk) (config : Config) (place : Place) : Prop where
  below : List.IsPrefix config.source.place place
  proper : place ≠ config.source.place
  isFile : (disk.file? place).isSome = true
  outside : ¬List.IsPrefix config.output.place place
  notIgnored : isIgnored (pathOf place) = false

/-- The file at a place becomes a file of the output directory, of which the names that lead there
and the bytes are given. A template is compiled, and any other file is copied to the same names. -/
inductive Makes (disk : Disk) (config : Config) (place : Place) : Place → List UInt8 → Prop
  | page {page : Page} {names : Place} {text : Text} (template : isTemplate (pathOf place) = true)
      (loads : config.loadPage disk (pathOf place) = .ok page)
      (output : page.output.components = names.map .normal)
      (compiles : config.compileFile disk (pathOf place) none = .ok text) :
      Makes disk config place names text.utf8
  | copy {names : Place} {file : File} (template : isTemplate (pathOf place) = false)
      (source : place = config.source.place ++ names) (found : disk.file? place = some file) :
      Makes disk config place names file.bytes

/-- What a file of the site becomes is determined. -/
theorem Makes.unique {place names names' : Place} {bytes bytes' : List UInt8}
    (h : config.Makes disk place names bytes) (h' : config.Makes disk place names' bytes') :
    names = names' ∧ bytes = bytes' := by
  cases h with
  | page template loads output compiles =>
    cases h' with
    | page _ loads' output' compiles' =>
      cases loads.symm.trans loads'
      cases compiles.symm.trans compiles'
      refine ⟨?_, rfl⟩
      rw [← place_of_steps (lead_steps_of_components output).2,
        place_of_steps (lead_steps_of_components output').2]
    | copy template' => cases template.symm.trans template'
  | copy template source found =>
    cases h' with
    | page template' => cases template.symm.trans template'
    | copy _ source' found' =>
      cases found.symm.trans found'
      exact ⟨List.append_cancel_left (source.symm.trans source'), rfl⟩

/-- A file that has not changed is still one of the site. -/
theorem IsSource.of_file? {place : Place} (h : config.IsSource disk place)
    (hfile : disk'.file? place = disk.file? place) : config.IsSource disk' place :=
  ⟨h.below, h.proper, hfile ▸ h.isFile, h.outside, h.notIgnored⟩

/-- The path of the source directory is the path of a place. -/
structure Rooted (config : Config) (src : Place) : Prop where
  source : config.source = pathOf src
  isName : ∀ name ∈ src, IsName name

theorem Rooted.place_source {src : Place} (h : config.Rooted src) : config.source.place = src := by
  rw [h.source, place_pathOf h.isName]

/-- A file of the site has names that lead to it from the source directory. -/
theorem IsSource.exists_names {src place : Place} (hrooted : config.Rooted src)
    (hsound : disk.Sound) (h : config.IsSource disk place) :
    ∃ names file, place = src ++ names ∧ names ≠ [] ∧ (∀ name ∈ names, IsName name) ∧
      disk.Reaches place file := by
  obtain ⟨names, rfl⟩ := h.below
  obtain ⟨file, hfile⟩ := Option.isSome_iff_exists.1 h.isFile
  have hisName := hsound.isName (file?_eq_some_iff.1 hfile)
  have hne : names ≠ [] := by
    rintro rfl
    exact h.proper (List.append_nil _)
  rw [hrooted.place_source] at hfile hisName ⊢
  exact ⟨names, file, rfl, hne, fun name hname => hisName name (List.mem_append_right _ hname),
    hsound.reaches hfile⟩

section Loading

variable {src names : Place} (hrooted : config.Rooted src)
  (hnames : ∀ name ∈ names, IsName name) (hne : names ≠ []) {file : File}
  (hreaches : disk.Reaches (src ++ names) file) {page : Page}

/-- A file that can be reached reads as text if its bytes are one, and its path is not too long. -/
theorem readText_eq_ok_iff {place : Place} (hreaches : disk.Reaches place file)
    (hplace : ∀ name ∈ place, IsName name) {text : Text} :
    disk.readText (pathOf place) = .ok text ↔
      Askable place ∧ Text.ofUtf8? file.bytes = some text := by
  constructor
  · intro h
    obtain ⟨bytes, hread, htext⟩ := bind_eq_ok_iff.1 h
    obtain ⟨found, hfind, hbytes⟩ := bind_eq_ok_iff.1 hread
    obtain ⟨haskable, rfl⟩ := (hreaches.find_iff hplace).1 hfind
    cases hbytes
    cases hutf8 : Text.ofUtf8? file.bytes with
    | none => simp [hutf8, throw, throwThe, MonadExceptOf.throw] at htext
    | some text' =>
      simp only [hutf8] at htext
      exact ⟨haskable, congrArg some (Except.ok.inj htext)⟩
  · rintro ⟨haskable, hutf8⟩
    rw [readText, read_of_find ((hreaches.find_iff hplace).2 ⟨haskable, rfl⟩)]
    simp only [bind, Except.bind, hutf8]
    rfl

include hrooted hnames hne hreaches

/-- Loading a page depends on nothing but its bytes, as long as no path is too long. -/
theorem loadPage_eq_ok_iff : config.loadPage disk (pathOf (src ++ names)) = .ok page ↔
    Askable (src ++ names) ∧ ∃ text, Text.ofUtf8? file.bytes = some text ∧
      Page.parse ⟨List.intercalate ['/'] names⟩ text config.dirs = .ok page := by
  have hboth : ∀ name ∈ src ++ names, IsName name := fun name hname =>
    (List.mem_append.1 hname).elim (hrooted.isName name) (hnames name)
  have hrelative := relativeTo?_pathOf hrooted.isName hnames hne
  have hjoin := join_pathOf hrooted.isName hnames hne
  rw [← hrooted.source] at hrelative hjoin
  constructor
  · intro h
    obtain ⟨source, text, hsource', htext, hparse⟩ := loadPage_eq_ok h
    obtain rfl := Option.some.inj (hrelative.symm.trans hsource')
    rw [hjoin, readText_eq_ok_iff hreaches hboth] at htext
    exact ⟨htext.1, text, htext.2, hparse⟩
  · rintro ⟨haskable, text, hutf8, hparse⟩
    have htext := (readText_eq_ok_iff hreaches hboth).2 ⟨haskable, hutf8⟩
    rw [← hjoin] at htext
    unfold loadPage sourcePath
    rw [hrelative]
    simp only [bind, Except.bind, htext, hparse]
    rfl

/-- Compiling a file loads the page and renders it. -/
theorem compileFile_of_loadPage (h : config.loadPage disk (pathOf (src ++ names)) = .ok page) :
    config.compileFile disk (pathOf (src ++ names)) none =
      .ok (page.render config.compiler (disk.seconds (pathOf (src ++ names)))).text := by
  have hboth : ∀ name ∈ src ++ names, IsName name := fun name hname =>
    (List.mem_append.1 hname).elim (hrooted.isName name) (hnames name)
  obtain ⟨haskable, text, hutf8, hparse⟩ :=
    (loadPage_eq_ok_iff hrooted hnames hne hreaches).1 h
  have htext := (readText_eq_ok_iff hreaches hboth).2 ⟨haskable, hutf8⟩
  have hlogical : config.logicalPath disk (pathOf (src ++ names)) =
      .ok ⟨List.intercalate ['/'] names⟩ := by
    have hcanonical : disk.canonical? (pathOf (src ++ names)) = some (pathOf (src ++ names)) := by
      rw [canonical?, (hreaches.find_iff hboth).2 ⟨haskable, rfl⟩]
      rfl
    rw [logicalPath, hcanonical, hrooted.source, Option.bind_some,
      relativeTo?_pathOf hrooted.isName hnames hne]
  unfold compileFile
  simp only [htext, Option.elim_none, hlogical, bind, Except.bind, hparse]
  rfl

/-- What a file becomes depends on nothing but the file. -/
theorem Makes.of_reaches (hreaches' : disk'.Reaches (src ++ names) file) {target : Place}
    {bytes : List UInt8} (h : config.Makes disk (src ++ names) target bytes) :
    config.Makes disk' (src ++ names) target bytes := by
  cases h with
  | page template loads output compiles =>
    have hname : ∀ name ∈ src ++ names, IsName name := fun name hname =>
      (List.mem_append.1 hname).elim (hrooted.isName name) (hnames name)
    have loads' := (loadPage_eq_ok_iff hrooted hnames hne hreaches').2
      ((loadPage_eq_ok_iff hrooted hnames hne hreaches).1 loads)
    have compiles' := compileFile_of_loadPage hrooted hnames hne hreaches' loads'
    rw [seconds, hreaches.modified?_eq hreaches' hname, ← seconds,
      ← compileFile_of_loadPage hrooted hnames hne hreaches loads, compiles] at compiles'
    exact .page template loads' output compiles'
  | copy template source found =>
    exact .copy template source (hreaches'.file?.trans (hreaches.file?.symm.trans found))

end Loading

/-! ## From files to tasks -/

/-- What is left of the path of a file when its start is taken away. -/
theorem relative_below {path base relative : Path} {names : Place} (hbase : base.components ≠ [])
    (hne : names ≠ []) (hcomponents : path.components = base.components ++ names.map .normal)
    (h : path.relativeTo? base = some relative) :
    relative.components = names.map .normal ∧ relative.Tight ∧
      isTemplate relative = isTemplate path := by
  obtain ⟨hlead, hcomponents', htext⟩ := relativeTo?_eq_some hbase h
  have hsteps : relative.steps = names.map .normal :=
    List.append_cancel_left (hcomponents'.symm.trans hcomponents)
  have htight := htext.resolve_left (text_ne_nil_of_steps (by simpa [hsteps] using hne))
  refine ⟨?_, htight, ?_⟩
  · rw [components_eq, hlead, hsteps]
    rfl
  · rw [isTemplate, fileName?_relativeTo? hbase h htight, isTemplate]

/-- The disk on which the tasks of a build are done. Its files can be found below the source
directory, and the ones below the output directory are told by their paths. -/
structure Laid (config : Config) (src : Place) (start : Disk) : Prop where
  sound : start.Sound
  rooted : config.Rooted src
  found : ∃ modified, start.find (pathOf src) = .ok (src, .directory modified)
  within : ∀ place, (start.file? place).isSome = true →
    ((pathOf place).startsWith config.output = true ↔ List.IsPrefix config.output.place place)

/-- When the output directory has been prepared, the site lies outside of it as before. -/
theorem laid_of_prepares {src : Place} (hrooted : config.Rooted src) (hsound : disk.Sound)
    (hdirectory : disk.isDirectory config.source = true)
    (houtside : ¬List.IsPrefix config.output.place src) (hprepares : config.Prepares disk start)
    (hwithin : ∀ place, (∀ name ∈ place, IsName name) → (start.file? place).isSome = true →
      ((pathOf place).startsWith config.output = true ↔
        List.IsPrefix config.output.place place)) : config.Laid src start := by
  rw [hrooted.source] at hdirectory
  have hsound' := hprepares.sound hsound
  refine ⟨hsound', hrooted, exists_find_of_isDirectory hsound hrooted.isName hdirectory
    fun front hfront => hprepares.isDir front fun hout => houtside (hout.trans hfront), ?_⟩
  intro place hfile
  obtain ⟨file, hfile'⟩ := Option.isSome_iff_exists.1 hfile
  exact hwithin place (hsound'.isName (file?_eq_some_iff.1 hfile')) hfile

/-- Below an output directory without files there is nothing to be told by its path. -/
theorem laid_of_empty {src : Place} (hrooted : config.Rooted src)
    (habsolute : config.output.isAbsolute = true) (hsound : disk.Sound)
    (hdirectory : disk.isDirectory config.source = true)
    (houtside : ¬List.IsPrefix config.output.place src) (hprepares : config.Prepares disk start)
    (hempty : ∀ place, List.IsPrefix config.output.place place → start.file? place = none) :
    config.Laid src start :=
  laid_of_prepares hrooted hsound hdirectory houtside hprepares fun place hname hfile =>
    iff_of_false
      (fun hstarts => by simp [hempty _ (isPrefix_of_startsWith hname habsolute hstarts)] at hfile)
      (fun hbelow => by simp [hempty _ hbelow] at hfile)

/-- When the output directory has been prepared, it is ready for the tasks. -/
theorem ready_of_prepares {src : Place} (habsolute : config.output.isAbsolute = true)
    (houtside : ¬List.IsPrefix config.output.place src) (hprepares : config.Prepares disk start) :
    config.Ready start := by
  refine ⟨habsolute, fun hnil => houtside ?_, hprepares.opens⟩
  rw [Path.place, hnil]
  exact List.nil_prefix

section Laid

variable {src : Place} (hlaid : config.Laid src start)

include hlaid

/-- A walk through the source directory finds just the files of the site. -/
theorem Laid.mem_siteFiles_iff {path : Path} : path ∈ config.siteFiles start ↔
    ∃ place, config.IsSource start place ∧ path = pathOf place := by
  obtain ⟨modified, hfind⟩ := hlaid.found
  rw [siteFiles, hlaid.rooted.source, List.mem_filter, mem_files_pathOf hlaid.sound hfind]
  constructor
  · rintro ⟨⟨names, file, hfile, rfl, hignored⟩, hstarts⟩
    have hsome : (start.file? (src ++ names)).isSome = true := by simp [hfile]
    refine ⟨src ++ names, ⟨?_, ?_, hsome, ?_, hignored⟩, rfl⟩
    · rw [hlaid.rooted.place_source]
      exact List.prefix_append _ _
    · rintro heq
      rw [hlaid.rooted.place_source] at heq
      rw [heq, file?_eq_none_of_isDir ⟨modified, (find_eq_ok_iff.1 hfind).2⟩] at hfile
      cases hfile
    · rw [← hlaid.within _ hsome]
      simpa using hstarts
  · rintro ⟨place, hplace, rfl⟩
    obtain ⟨names, file, rfl, -, -, hreaches⟩ := hplace.exists_names hlaid.rooted hlaid.sound
    refine ⟨⟨names, file, hreaches.file?, rfl, hplace.notIgnored⟩, ?_⟩
    have hstarts := mt (hlaid.within _ hplace.isFile).1 hplace.outside
    simpa using hstarts

/-- It finds none of them twice. -/
theorem Laid.nodup_siteFiles : (config.siteFiles start).Nodup := by
  obtain ⟨modified, hfind⟩ := hlaid.found
  rw [siteFiles, hlaid.rooted.source]
  exact (nodup_files_pathOf hlaid.sound hfind).filter _

/-- The path of a file of the site leads to it. -/
theorem Laid.place_pathOf {place : Place} (h : config.IsSource start place) :
    (pathOf place).place = place := by
  obtain ⟨file, hfile⟩ := Option.isSome_iff_exists.1 h.isFile
  exact Disk.place_pathOf (hlaid.sound.isName (file?_eq_some_iff.1 hfile))

/-- The places of the files of the site that have a property. -/
theorem Laid.mem_places_iff (p : Path → Bool) {place : Place} :
    place ∈ ((config.siteFiles start).filter p).map Path.place ↔
      config.IsSource start place ∧ p (pathOf place) = true := by
  constructor
  · intro h
    obtain ⟨path, hpath, rfl⟩ := List.mem_map.1 h
    obtain ⟨hmem, hp⟩ := List.mem_filter.1 hpath
    obtain ⟨place, hplace, rfl⟩ := hlaid.mem_siteFiles_iff.1 hmem
    rw [hlaid.place_pathOf hplace]
    exact ⟨hplace, hp⟩
  · rintro ⟨hplace, hp⟩
    exact List.mem_map.2 ⟨pathOf place,
      List.mem_filter.2 ⟨hlaid.mem_siteFiles_iff.2 ⟨place, hplace, rfl⟩, hp⟩,
      hlaid.place_pathOf hplace⟩

theorem Laid.nodup_places (p : Path → Bool) :
    (((config.siteFiles start).filter p).map Path.place).Nodup := by
  refine (hlaid.nodup_siteFiles.filter p).map_on fun path hpath path' hpath' heq => ?_
  obtain ⟨place, hplace, rfl⟩ := hlaid.mem_siteFiles_iff.1 (List.mem_filter.1 hpath).1
  obtain ⟨place', hplace', rfl⟩ := hlaid.mem_siteFiles_iff.1 (List.mem_filter.1 hpath').1
  rw [hlaid.place_pathOf hplace, hlaid.place_pathOf hplace'] at heq
  rw [heq]

/-- The path of a file of the site, counted from the source directory. -/
theorem Laid.relativeTo? {names : Place} (hne : names ≠ []) (hnames : ∀ name ∈ names, IsName name) :
    let relative : Path := ⟨List.intercalate ['/'] names⟩
    (pathOf (src ++ names)).relativeTo? config.source = some relative ∧
      relative.components = names.map .normal ∧ relative.Tight ∧
      isTemplate relative = isTemplate (pathOf (src ++ names)) := by
  have hrelative := relativeTo?_pathOf hlaid.rooted.isName hnames hne
  have hboth : ∀ name ∈ src ++ names, IsName name := fun name hname =>
    (List.mem_append.1 hname).elim (hlaid.rooted.isName name) (hnames name)
  have hcomponents : (pathOf (src ++ names)).components =
      (pathOf src).components ++ names.map .normal := by
    rw [components_pathOf hboth, components_pathOf hlaid.rooted.isName, List.map_append,
      List.cons_append]
  have hbase : (pathOf src).components ≠ [] := by simp [components_pathOf hlaid.rooted.isName]
  exact ⟨hlaid.rooted.source ▸ hrelative, relative_below hbase hne hcomponents hrelative⟩

end Laid

/-- Every page of the site has an output of names alone. -/
def Plain (disk : Disk) (config : Config) : Prop :=
  ∀ place page, config.IsSource disk place → isTemplate (pathOf place) = true →
    config.loadPage disk (pathOf place) = .ok page →
    ∀ c ∈ page.output.components, ∃ name, c = .normal name

/-- That all outputs have normal components can be checked entry by entry. -/
theorem plain_of_entries (hdistinct : disk.Distinct)
    (h : ∀ found ∈ disk.entries, ∀ page ∈ (config.loadPage disk (pathOf found.1)).toOption,
      page.output.components.all (· matches .normal _) = true) : config.Plain disk := by
  intro place page hplace _ hload c hc
  obtain ⟨file, hfile⟩ := Option.isSome_iff_exists.1 hplace.isFile
  have hall := h _ ((file?_eq_some_iff_mem hdistinct).1 hfile) page
    (by simp [hload, Except.toOption])
  have hc' := List.all_eq_true.1 hall c hc
  cases c with
  | normal name => exact ⟨name, rfl⟩
  | _ => cases hc'

/-! ## Files that have not changed -/

section Unchanged

variable {src place : Place} (hrooted : config.Rooted src) (hsound : disk.Sound)
  (hsound' : disk'.Sound)

include hrooted hsound hsound'

/-- A file that has not changed becomes what it did. -/
theorem Makes.of_file? (hplace : config.IsSource disk place)
    (hfile : disk'.file? place = disk.file? place) {names : Place} {bytes : List UInt8}
    (h : config.Makes disk place names bytes) : config.Makes disk' place names bytes := by
  obtain ⟨rest, file, rfl, hne, hrest, hreaches⟩ := hplace.exists_names hrooted hsound
  exact h.of_reaches hrooted hrest hne hreaches (hsound'.reaches (hfile.trans hreaches.file?))

/-- What becomes of a file depends on that file alone. -/
theorem makes_iff (hplace : config.IsSource disk place)
    (hfile : disk'.file? place = disk.file? place) {names : Place} {bytes : List UInt8} :
    config.Makes disk place names bytes ↔ config.Makes disk' place names bytes :=
  ⟨Makes.of_file? hrooted hsound hsound' hplace hfile,
    Makes.of_file? hrooted hsound' hsound (hplace.of_file? hfile) hfile.symm⟩

/-- Outputs still have normal components when the site has not changed. -/
theorem Plain.of_files (hfiles : ∀ place, ¬List.IsPrefix config.output.place place →
      disk'.file? place = disk.file? place) (hplain : config.Plain disk) : config.Plain disk' := by
  intro place page hplace htemplate hload
  have hfile := hfiles place hplace.outside
  obtain ⟨names, file, rfl, hne, hnames, hreaches⟩ := hplace.exists_names hrooted hsound'
  refine hplain _ page (hplace.of_file? hfile.symm) htemplate ?_
  exact (loadPage_eq_ok_iff hrooted hnames hne (hsound.reaches (hfile.symm.trans hreaches.file?))).2
    ((loadPage_eq_ok_iff hrooted hnames hne hreaches).1 hload)

end Unchanged

/-- The tasks of a build find a site that they can work on, when the path of its output directory is
made of names alone. -/
theorem laid_of_exec {src out : Place} (hrooted : config.Rooted src)
    (houtput : config.output.components = .root :: out.map .normal)
    (houtside : ¬List.IsPrefix config.output.place src) {world world' : World}
    (hsound : world.disk.Sound) (hdirectory : world.disk.isDirectory config.source = true)
    (hprepare : config.prepareOutput.exec world = (.ok (), world')) :
    config.Laid src world'.disk ∧ config.Ready world'.disk ∧
      (config.Plain world.disk → config.Plain world'.disk) := by
  have habsolute := lead_eq_root_iff.1 (lead_steps_of_root houtput).1
  have hprepares := prepares_of_exec habsolute hprepare
  refine ⟨laid_of_prepares hrooted hsound hdirectory houtside hprepares fun place hname _ =>
    startsWith_pathOf_iff_isPrefix hname houtput, ready_of_prepares habsolute houtside hprepares,
    Plain.of_files hrooted hsound (hprepares.sound hsound) hprepares.file?⟩

/-- A site with files has an output directory that does not lie around its source directory. -/
theorem IsSource.not_around {src place : Place} (h : config.IsSource disk place)
    (hrooted : config.Rooted src) : ¬List.IsPrefix config.output.place src := fun hout =>
  h.outside (hout.trans (hrooted.place_source ▸ h.below))

/-! ## What the tasks are for -/

/-- A task makes a file of the site into what it is to become. -/
structure Serves (config : Config) (start : Disk) (place : Place) (file : File) (task : Task) :
    Prop where
  isSource : config.IsSource start place
  sited : task.Sited config start place file
  makes : config.Makes start place (task.names config) (task.bytes start config)
  copies : ∀ path, task = .copy path → isTemplate (pathOf place) = false

section Tasks

variable {src : Place} {pages : List (Path × Page)} {statics : List Path}
  (hlaid : config.Laid src start) (hfinds : config.Finds start pages statics)

include hlaid

/-- The task for a page serves its template. -/
theorem serves_compile (hplain : config.Plain start) {place : Place} {page : Page}
    (hplace : config.IsSource start place) (htemplate : isTemplate (pathOf place) = true)
    (hload : config.loadPage start (pathOf place) = .ok page) :
    ∃ file, config.Serves start place file (.compile (pathOf place) page) := by
  obtain ⟨outputs, hcomponents⟩ :=
    exists_names_of_normal (hplain place page hplace htemplate hload)
  obtain ⟨names, file, rfl, hne, hnames, hreaches⟩ := hplace.exists_names hlaid.rooted hlaid.sound
  obtain ⟨-, text, -, hparse⟩ :=
    (loadPage_eq_ok_iff hlaid.rooted hnames hne hreaches).1 hload
  have houtputs : Task.names config (.compile (pathOf (src ++ names)) page) = outputs :=
    place_of_steps (lead_steps_of_components hcomponents).2
  refine ⟨file, hplace,
    ⟨rfl, hreaches, hlaid.sound.isName hreaches.get, hplace.outside, ?_, ?_⟩, ?_, nofun⟩
  · exact Page.tight_output ((hlaid.relativeTo? hne hnames).2.2.2.trans htemplate) hparse
  · rw [houtputs]
    exact hcomponents
  · rw [houtputs]
    exact .page htemplate hload hcomponents
      (compileFile_of_loadPage hlaid.rooted hnames hne hreaches hload)

/-- The task for any other file serves that file. -/
theorem serves_copy {place : Place} (hplace : config.IsSource start place)
    (htemplate : isTemplate (pathOf place) = false) :
    ∃ file, config.Serves start place file (.copy (pathOf place)) := by
  obtain ⟨names, file, rfl, hne, hnames, hreaches⟩ := hplace.exists_names hlaid.rooted hlaid.sound
  obtain ⟨hrelative, hcomponents, htight, -⟩ := hlaid.relativeTo? hne hnames
  have houtput : Task.output config (.copy (pathOf (src ++ names))) =
      ⟨List.intercalate ['/'] names⟩ := by
    rw [Task.output, hrelative, Option.getD_some]
  have hisName := hlaid.sound.isName hreaches.get
  have hnames' : Task.names config (.copy (pathOf (src ++ names))) = names := by
    rw [Task.names, houtput]
    exact place_of_steps (lead_steps_of_components hcomponents).2
  refine ⟨file, hplace, ⟨rfl, hreaches, hisName, hplace.outside, houtput ▸ htight, ?_⟩, ?_,
    fun _ _ => htemplate⟩
  · rw [hnames', houtput]
    exact hcomponents
  · rw [hnames', Task.bytes, place_pathOf hisName, hreaches.file?, Option.elim_some]
    exact .copy htemplate (by rw [hlaid.rooted.place_source]) hreaches.file?

include hfinds

/-- Every task of a build serves a file of the site. -/
theorem exists_serves (hplain : config.Plain start) {task : Task}
    (htask : task ∈ tasks pages statics) :
    ∃ place file, config.Serves start place file task := by
  rcases List.mem_append.1 htask with hmem | hmem
  · obtain ⟨⟨path, page⟩, hpage, rfl⟩ := List.mem_map.1 hmem
    obtain ⟨hpath, htemplate, hload⟩ := hfinds.page hpage
    obtain ⟨place, hplace, rfl⟩ := hlaid.mem_siteFiles_iff.1 hpath
    exact ⟨place, serves_compile hlaid hplain hplace htemplate hload⟩
  · obtain ⟨path, hpath, rfl⟩ := List.mem_map.1 hmem
    rw [hfinds.statics, List.mem_filter] at hpath
    obtain ⟨place, hplace, rfl⟩ := hlaid.mem_siteFiles_iff.1 hpath.1
    exact ⟨place, serves_copy hlaid hplace (by simpa using hpath.2)⟩

/-- Every task of a build works outside of the output directory and writes below it. -/
theorem sited_tasks (hplain : config.Plain start) : ∀ task ∈ tasks pages statics,
    ∃ place file, task.Sited config start place file := fun _ htask =>
  (exists_serves hlaid hfinds hplain htask).imp fun _ => .imp fun _ h => h.sited

/-- Every file of the site is served by a task of a build. -/
theorem exists_task (hplain : config.Plain start) {place : Place}
    (hplace : config.IsSource start place) :
    ∃ task ∈ tasks pages statics, ∃ file, config.Serves start place file task := by
  have hpath := hlaid.mem_siteFiles_iff.2 ⟨place, hplace, rfl⟩
  cases htemplate : isTemplate (pathOf place) with
  | true =>
    have hmem := List.mem_filter.2 ⟨hpath, htemplate⟩
    rw [← hfinds.templates] at hmem
    obtain ⟨⟨path, page⟩, hpage, rfl⟩ := List.mem_map.1 hmem
    exact ⟨.compile (pathOf place) page, List.mem_append_left _ (List.mem_map.2 ⟨_, hpage, rfl⟩),
      serves_compile hlaid hplain hplace htemplate (hfinds.loads _ hpage)⟩
  | false =>
    have hmem : pathOf place ∈ statics := by
      rw [hfinds.statics]
      exact List.mem_filter.2 ⟨hpath, by simp [htemplate]⟩
    exact ⟨.copy (pathOf place), List.mem_append_right _ (List.mem_map_of_mem hmem),
      serves_copy hlaid hplace htemplate⟩

/-- When no collision is found, the tasks of a build write to different places. -/
theorem pairwise_names (hplain : config.Plain start)
    (hnone : collision? [] (config.entries pages statics) = none) :
    (tasks pages statics).Pairwise fun a b => a.names config ≠ b.names config := by
  have houtputs : (config.entries pages statics).map Prod.snd =
      (tasks pages statics).map (Task.output config) := by
    simp only [entries, tasks, List.map_append, List.map_map]
    rfl
  have hpairs : ((config.entries pages statics).map Prod.snd).Pairwise
      fun a b => a.components ≠ b.components :=
    List.pairwise_map.2 (collision?_eq_none_iff.1 hnone).2
  rw [houtputs, List.pairwise_map] at hpairs
  refine hpairs.imp_of_mem fun ha hb hne heq => hne ?_
  obtain ⟨_, _, hserves⟩ := exists_serves hlaid hfinds hplain ha
  obtain ⟨_, _, hserves'⟩ := exists_serves hlaid hfinds hplain hb
  rw [hserves.sited.components, hserves'.sited.components, heq]

/-- When no collision is found, no two files of the site become the same file. -/
theorem eq_of_makes (hplain : config.Plain start)
    (hnone : collision? [] (config.entries pages statics) = none) {place place' names : Place}
    {bytes bytes' : List UInt8} (hplace : config.IsSource start place)
    (hplace' : config.IsSource start place') (hmakes : config.Makes start place names bytes)
    (hmakes' : config.Makes start place' names bytes') : place = place' := by
  obtain ⟨task, htask, file, hserves⟩ := exists_task hlaid hfinds hplain hplace
  obtain ⟨task', htask', file', hserves'⟩ := exists_task hlaid hfinds hplain hplace'
  have hnames : task.names config = task'.names config :=
    (hserves.makes.unique hmakes).1.trans (hserves'.makes.unique hmakes').1.symm
  have hsymm : Std.Symm fun a b : Task => a.names config ≠ b.names config := ⟨fun _ _ => Ne.symm⟩
  by_cases heq : task = task'
  · subst heq
    exact pathOf_injective hserves.sited.isName hserves'.sited.isName
      (hserves.sited.path_eq.symm.trans hserves'.sited.path_eq)
  · exact absurd hnames
      ((pairwise_names hlaid hfinds hplain hnone).forall htask htask' heq)

/-- In any order, every task of a build works outside of the output directory and writes below
it. -/
theorem sited_order (hplain : config.Plain start) (schedule : Schedule) :
    ∀ task ∈ schedule.order (tasks pages statics),
      ∃ place file, task.Sited config start place file := fun task htask =>
  sited_tasks hlaid hfinds hplain task (schedule.mem_order_iff.1 htask)

/-- When no collision is found, the tasks of a build write to different places in any order. -/
theorem pairwise_targetPlace (hplain : config.Plain start) {schedule : Schedule}
    (hnone : collision? [] (config.entries pages statics) = none) :
    (schedule.order (tasks pages statics)).Pairwise
      fun a b => a.targetPlace config ≠ b.targetPlace config := by
  refine ((schedule.perm _).pairwise_iff fun hne => Ne.symm hne).2 ?_
  exact (pairwise_names hlaid hfinds hplain hnone).imp
    fun hne heq => hne (List.append_cancel_left heq)

end Tasks

section Run

variable {schedule : Schedule} {src : Place} {world : World} {pages : List (Path × Page)}
  {statics : List Path} (hlaid : config.Laid src world.disk)
  (hfinds : config.Finds world.disk pages statics)
  (hplain : config.Plain world.disk) (hready : config.Ready world.disk)
  {dependencies : Option Int} {summary summary' : Summary}

include hlaid hfinds hplain hready

/-- The tasks of a build leave alone what lies outside of the output directory. -/
theorem file?_runAll_outside {place : Place} (hplace : ¬List.IsPrefix config.output.place place) :
    ((Task.runAll schedule config config.compiler dependencies
      (schedule.order (tasks pages statics)) summary).exec world).2.disk.file? place =
        world.disk.file? place :=
  Task.file?_runAll hready (sited_order hlaid hfinds hplain _) (Kept.refl _ _)
    fun _ _ heq => hplace (heq ▸ List.prefix_append _ _)

omit hfinds hplain in
/-- The tasks of a build keep a disk sound. -/
theorem sound_runAll : ((Task.runAll schedule config config.compiler dependencies
    (schedule.order (tasks pages statics)) summary).exec world).2.disk.Sound :=
  Task.runAll_induction (fun _ _ _ _ _ hdisk htries =>
    htries.sound (isAbsolute_join hready.isAbsolute _) hdisk) hlaid.sound

/-- After the tasks of a build, every file of the site has been served. -/
theorem exists_done (hnone : collision? [] (config.entries pages statics) = none)
    (h : (Task.runAll schedule config config.compiler dependencies
      (schedule.order (tasks pages statics)) summary).Ends world summary' disk')
    {place : Place} (hplace : config.IsSource world.disk place) :
    ∃ task file, config.Serves world.disk place file task ∧
      task.Done config dependencies world.disk file disk' := by
  obtain ⟨task, htask, file, hserves⟩ := exists_task hlaid hfinds hplain hplace
  exact ⟨task, file, hserves, Task.done_of_runAll hready (sited_order hlaid hfinds hplain _)
    (Kept.refl _ _) (pairwise_targetPlace hlaid hfinds hplain hnone) (fun _ _ => rfl) h
    (schedule.mem_order_iff.2 htask) hserves.sited⟩

end Run

section Build

variable {src out : Place} (hrooted : config.Rooted src)
  (houtput : config.output.components = .root :: out.map .normal)
  (houtside : ¬List.IsPrefix config.output.place src) {world : World} {summary : Summary}
  (hsound : world.disk.Sound) (hplain : config.Plain world.disk) {schedule : Schedule}
  (h : (config.buildIn schedule).Ends world summary disk')

include hrooted houtput houtside hsound hplain h

/-- A build changes no file outside of the output directory. -/
theorem file?_buildIn_outside :
    disk'.Sound ∧ ∀ place, ¬List.IsPrefix config.output.place place →
      disk'.file? place = world.disk.file? place := by
  have habsolute := lead_eq_root_iff.1 (lead_steps_of_root houtput).1
  rw [ends_buildIn_iff] at h
  obtain ⟨hdirectory, world', pages, statics, hprepare, hfinds, -, hrun⟩ := h
  obtain ⟨hlaid, hready, hplain'⟩ :=
    laid_of_exec hrooted houtput houtside hsound hdirectory hprepare
  rw [← hrun.disk_eq]
  refine ⟨sound_runAll hlaid hready, fun place hplace => ?_⟩
  exact (file?_runAll_outside hlaid hfinds (hplain' hplain) hready hplace).trans
    ((prepares_of_exec habsolute hprepare).file? place hplace)

/-- After a build, every file of the site has been served. -/
theorem exists_done_of_buildIn {place : Place} (hplace : config.IsSource world.disk place) :
    ∃ world' task file, config.prepareOutput.exec world = (.ok (), world') ∧
      config.Serves world'.disk place file task ∧
      task.Done config (config.modified? world'.disk) world'.disk file disk' := by
  have habsolute := lead_eq_root_iff.1 (lead_steps_of_root houtput).1
  rw [ends_buildIn_iff] at h
  obtain ⟨hdirectory, world', pages, statics, hprepare, hfinds, hnone, hrun⟩ := h
  obtain ⟨hlaid, hready, hplain'⟩ :=
    laid_of_exec hrooted houtput houtside hsound hdirectory hprepare
  obtain ⟨task, file, hserves, hdone⟩ := exists_done hlaid hfinds (hplain' hplain) hready hnone hrun
    (hplace.of_file? ((prepares_of_exec habsolute hprepare).file? place hplace.outside))
  exact ⟨world', task, file, hprepare, hserves, hdone⟩

end Build

end Config

end Pagewright
