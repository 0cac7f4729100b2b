import Pagewright.Proofs.Site.Loading
import Pagewright.Proofs.Site.Sources

/-!
# One build after another

The options of a command line leave no trace on the disk, and a build that does not empty its output
directory goes by the times of files alone. So a page that was compiled with other options stays as
it is (`Config.unsafeOutput_not_followed`). `Config.rebuilt_page` says what becomes of a page in two
builds: each of them compiles it, with its own options, or leaves its output alone because that is
newer than the template and the configuration file. `Config.rebuilt_page_of_ofInvocation` says so of
the configurations that command lines give.
-/

namespace Pagewright

open Disk

namespace Config

open Pagewright.Path Work Location

variable {config : Config} {world : World} {disk disk' : Disk}

/-- When the configuration file was last changed, as a build finds it. -/
def dependencies (config : Config) (world : World) : Option Int :=
  config.modified? (config.prepareOutput.exec world).2.disk

/-- What a build can make of the output of a page: it compiles the page, or it leaves the output
alone, unless it is to empty the output directory. -/
inductive Rebuilds (config : Config) (world : World) (template : File) (target : Place)
    (bytes : List UInt8) (disk' : Disk) : Prop
  | compiled (made : (disk'.file? target).map File.bytes = some bytes)
  | kept {old : File} (clean : config.clean = false) (newer : template.modified ≤ old.modified)
      (unchanged : ∀ time ∈ config.dependencies world, time ≤ old.modified)
      (before : world.disk.file? target = some old) (after : disk'.file? target = some old)
  | blocked (clean : config.clean = false) (isDir : disk'.IsDir target)

section Build

variable {src : Place} {place : Place} {template : File} (hrooted : config.Rooted src)
  (hsound : world.disk.Sound) (hplace : config.IsSource world.disk place)
  (htemplate : isTemplate (pathOf place) = true) (hfile : world.disk.file? place = some template)

include hrooted hsound hplace htemplate hfile

/-- A page whose task has been done has been compiled, or its output has been left alone. -/
theorem rebuilds_of_done (habsolute : config.output.isAbsolute = true) {world' : World}
    {task : Task} {file : File} (hprepare : config.prepareOutput.exec world = (.ok (), world'))
    (hserves : config.Serves world'.disk place file task)
    (hdone : task.Done config (config.modified? world'.disk) world'.disk file disk') :
    ∃ names bytes, config.Makes world.disk place names bytes ∧
      config.Rebuilds world template (config.output.place ++ names) bytes disk' := by
  have hprepares := prepares_of_exec habsolute hprepare
  have hsame := hprepares.file? place hplace.outside
  obtain rfl : template = file :=
    Option.some.inj (hfile.symm.trans (hsame.symm.trans hserves.sited.reaches.file?))
  refine ⟨_, _, (makes_iff hrooted (hprepares.sound hsound) hsound hserves.isSource hsame.symm).1
    hserves.makes, ?_⟩
  cases hdone with
  | written made => exact .compiled (congrArg (Option.map File.bytes) made)
  | blocked clean isDir => exact .blocked clean isDir
  | kept clean before after newer needs =>
    have hneeds : task.needs (config.modified? world'.disk) = config.dependencies world := by
      rw [dependencies, hprepare]
      cases task with
      | compile => rfl
      | copy path => cases htemplate.symm.trans (hserves.copies path rfl)
    have hbefore := ((hprepares.adds clean).file? _).symm.trans before
    rw [hneeds] at needs
    refine .kept clean newer (fun time htime => ?_) hbefore after
    rw [Option.mem_def.1 htime] at needs
    exact of_decide_eq_true needs

variable {schedule : Schedule} {summary : Summary} (hplain : config.Plain world.disk)
  (h : (config.buildIn schedule).Ends world summary disk')

include hplain h

/-- A build has compiled a page, or it has left its output alone. -/
theorem rebuilds_of_buildIn {out : Place}
    (houtput : config.output.components = .root :: out.map .normal) :
    ∃ names bytes, config.Makes world.disk place names bytes ∧
      config.Rebuilds world template (config.output.place ++ names) bytes disk' := by
  have hout := hplace.not_around hrooted
  obtain ⟨world', task, file, hprepare, hserves, hdone⟩ :=
    exists_done_of_buildIn hrooted houtput hout hsound hplain h hplace
  have habsolute := lead_eq_root_iff.1 (lead_steps_of_root houtput).1
  exact rebuilds_of_done hrooted hsound hplace htemplate hfile habsolute hprepare hserves hdone

/-- The path of an output directory without files may be any that can be made. -/
theorem rebuilds_of_empty (habsolute : config.output.isAbsolute = true)
    (hempty : ∀ place, List.IsPrefix config.output.place place → world.disk.file? place = none) :
    ∃ names bytes, config.Makes world.disk place names bytes ∧
      config.Rebuilds world template (config.output.place ++ names) bytes disk' := by
  have hout := hplace.not_around hrooted
  rw [ends_buildIn_iff] at h
  obtain ⟨hdirectory, world', pages, statics, hprepare, hfinds, hnone, hrun⟩ := h
  have hprepares := prepares_of_exec habsolute hprepare
  have hlaid := laid_of_empty hrooted habsolute hsound hdirectory hout hprepares fun _ =>
    file?_of_clear habsolute (.inr hempty) hprepare
  have hplain' := hplain.of_files hrooted hsound hlaid.sound hprepares.file?
  obtain ⟨task, file, hserves, hdone⟩ := exists_done hlaid hfinds hplain'
    (ready_of_prepares habsolute hout hprepares) hnone hrun
    (hplace.of_file? (hprepares.file? place hplace.outside))
  exact rebuilds_of_done hrooted hsound hplace htemplate hfile habsolute hprepare hserves hdone

end Build

/-- Two configurations of one site, which differ in their options alone. -/
structure SameSite (config config' : Config) : Prop where
  source : config.source = config'.source
  output : config.output = config'.output
  dirs : config.dirs = config'.dirs

/-- Two configurations for the same site load the same pages. -/
theorem SameSite.loadPage {config' : Config} (h : config.SameSite config') (disk : Disk)
    (path : Path) : config.loadPage disk path = config'.loadPage disk path := by
  unfold Config.loadPage sourcePath
  rw [h.source, h.dirs]

/-- The options do not decide where a page goes. -/
theorem SameSite.names_eq {config' : Config} (h : config.SameSite config')
    {place names names' : Place} {bytes bytes' : List UInt8}
    (hmakes : config.Makes disk place names bytes)
    (hmakes' : config'.Makes disk place names' bytes') : names = names' := by
  cases hmakes with
  | page template loads output compiles =>
    cases hmakes' with
    | page _ loads' output' _ =>
      rw [h.loadPage] at loads
      cases loads.symm.trans loads'
      rw [← place_of_steps (lead_steps_of_components output).2,
        place_of_steps (lead_steps_of_components output').2]
    | copy template' => cases template.symm.trans template'
  | copy template source found =>
    cases hmakes' with
    | page template' => cases template.symm.trans template'
    | copy _ source' _ =>
      rw [h.source] at source
      exact List.append_cancel_left (source.symm.trans source')

/-- Two configurations for the same site have the same files. -/
theorem SameSite.isSource {config' : Config} (h : config.SameSite config') {place : Place}
    (hplace : config'.IsSource disk place) : config.IsSource disk place := by
  obtain ⟨below, proper, isFile, outside, notIgnored⟩ := hplace
  rw [← h.source] at below proper
  rw [← h.output] at outside
  exact ⟨below, proper, isFile, outside, notIgnored⟩

/-- A site is built twice, and no file is touched in between. The second build compiles a page with
its own options, or it leaves the output of the page as it was after the first build. If both build
the same site, then the first build had compiled the page with its options, or it too had left the
output alone. -/
theorem rebuilt_page {config config' : Config} {world world' : World} {disk'' : Disk}
    {schedule schedule' : Schedule} {summary summary' : Summary} {src out : Place}
    (habsolute : config.output.isAbsolute = true) (hrooted : config'.Rooted src)
    (houtput : config'.output.components = .root :: out.map .normal) (hsound : world.disk.Sound)
    (hplain : config'.Plain world'.disk)
    (h : (config.buildIn schedule).Ends world summary world'.disk)
    (h' : (config'.buildIn schedule').Ends world' summary' disk'') {place : Place} {template : File}
    (hplace : config'.IsSource world'.disk place) (htemplate : isTemplate (pathOf place) = true)
    (hfile : world'.disk.file? place = some template) :
    ∃ names bytes', config'.Makes world'.disk place names bytes' ∧
      config'.Rebuilds world' template (config'.output.place ++ names) bytes' disk'' ∧
      (config.SameSite config' → config.Plain world.disk →
        ∃ bytes, config.Makes world'.disk place names bytes ∧
          config.Rebuilds world template (config'.output.place ++ names) bytes world'.disk) := by
  have hsound' : world'.disk.Sound :=
    h.disk_eq ▸ (leaves_buildIn schedule config world).sound habsolute hsound
  obtain ⟨names, bytes', hmakes', hrebuilds'⟩ :=
    rebuilds_of_buildIn hrooted hsound' hplace htemplate hfile hplain h' houtput
  refine ⟨names, bytes', hmakes', hrebuilds', fun hsame hplain => ?_⟩
  have hplace' := hsame.isSource hplace
  have hrooted' : config.Rooted src := ⟨hsame.source.trans hrooted.source, hrooted.isName⟩
  have houtput' : config.output.components = .root :: out.map .normal := hsame.output ▸ houtput
  have hout := hplace'.not_around hrooted'
  have hunchanged :=
    (file?_buildIn_outside hrooted' houtput' hout hsound hplain h).2 place hplace'.outside
  have hbefore := hplace'.of_file? hunchanged.symm
  obtain ⟨names', bytes, hmakes, hrebuilds⟩ := rebuilds_of_buildIn hrooted' hsound hbefore
    htemplate (hunchanged.symm.trans hfile) hplain h houtput'
  have hmakes := (makes_iff hrooted' hsound hsound' hbefore hunchanged).1 hmakes
  obtain rfl := hsame.names_eq hmakes hmakes'
  exact ⟨bytes, hmakes, hsame.output ▸ hrebuilds⟩

/-- A site is built twice, each time with the configuration that a command line gives just then, and
with the tasks shared out in any way. The output directory of the second build is found when it
starts, or nothing lies below it. Then that build compiles a page with its own options, or it leaves
the output of the page alone; and if it finds the directory that the first build has made for the
same site, the first build had done one of the two as well. -/
theorem rebuilt_page_of_ofInvocation {config config' : Config} {world world' : World}
    {disk'' : Disk} {invocation invocation' : Invocation} {schedule schedule' : Schedule}
    {summary summary' : Summary}
    (hconfig : ofInvocation world.disk invocation = .ok config)
    (hconfig' : ofInvocation world'.disk invocation' = .ok config') (hsound : world.disk.Sound)
    (hclear : world'.disk.holds config'.output = true ∨
      ∀ place, List.IsPrefix config'.output.place place → world'.disk.file? place = none)
    (hplain : config'.Plain world'.disk)
    (h : (config.buildIn schedule).Ends world summary world'.disk)
    (h' : (config'.buildIn schedule').Ends world' summary' disk'') {place : Place} {template : File}
    (hplace : config'.IsSource world'.disk place) (htemplate : isTemplate (pathOf place) = true)
    (hfile : world'.disk.file? place = some template) :
    ∃ names bytes', config'.Makes world'.disk place names bytes' ∧
      config'.Rebuilds world' template (config'.output.place ++ names) bytes' disk'' ∧
      (config.SameSite config' → world'.disk.holds config'.output = true →
        config.Plain world.disk →
          ∃ bytes, config.Makes world'.disk place names bytes ∧
            config.Rebuilds world template (config'.output.place ++ names) bytes world'.disk) := by
  have habsolute := isAbsolute_output_of_ofInvocation hconfig
  have habsolute' := isAbsolute_output_of_ofInvocation hconfig'
  have hdirectory := (ends_buildIn_iff.1 h').1
  obtain ⟨hsource, houtput⟩ := exists_pathOf_of_ofInvocation hconfig'
  obtain ⟨src, hsrc, hsrc'⟩ := hsource (holds_of_isDirectory hdirectory)
  have hrooted : config'.Rooted src := ⟨hsrc, hsrc'⟩
  by_cases hholds : world'.disk.holds config'.output = true
  · obtain ⟨out, hout, hout'⟩ := houtput hholds
    obtain ⟨names, bytes', hmakes, hrebuilds, hsame⟩ := rebuilt_page habsolute hrooted
      (hout ▸ components_pathOf hout') hsound hplain h h' hplace htemplate hfile
    exact ⟨names, bytes', hmakes, hrebuilds, fun hsite _ => hsame hsite⟩
  · have hsound' : world'.disk.Sound :=
      h.disk_eq ▸ (leaves_buildIn schedule config world).sound habsolute hsound
    obtain ⟨names, bytes', hmakes, hrebuilds⟩ := rebuilds_of_empty hrooted hsound' hplace htemplate
      hfile hplain h' habsolute' (hclear.resolve_left hholds)
    exact ⟨names, bytes', hmakes, hrebuilds, fun _ hfound => absurd hfound hholds⟩

def valuePlace : Place :=
  ["source".toList, "_includes".toList, "value.blade".toList]

def valueFile : File :=
  ⟨Text.utf8 "\x7b\x7b $x \x7d\x7d".toList, 3⟩

/-- A template with a value to show, which is escaped or not as the options say. -/
def valueDisk : Disk :=
  { entries := [
      (["source".toList], .directory 0),
      (["source".toList, "_includes".toList], .directory 0),
      (valuePlace, .file valueFile)]
    now := 5 }

/-- The disk after a build. -/
def shownDisk : Disk :=
  { entries := [
      (["public".toList, "_includes".toList, "value.php".toList], .file
        ⟨Text.utf8 "<?php echo htmlspecialchars($x ?? \"\", ENT_QUOTES, 'UTF-8', false); ?>".toList,
          5⟩),
      (["public".toList, "_includes".toList], .directory 5),
      (["public".toList], .directory 5),
      (["source".toList], .directory 0),
      (["source".toList, "_includes".toList], .directory 0),
      (valuePlace, .file valueFile)]
    now := 5 }

def escapedConfig : Config :=
  { path := ⟨"/bladerunner.toml".toList⟩
    root := some (pathOf [])
    source := pathOf ["source".toList]
    output := pathOf ["public".toList] }

def bareConfig : Config :=
  { escapedConfig with safeOutput := false }

theorem ofInvocation_value :
    ofInvocation valueDisk { command := .build {} } = .ok escapedConfig :=
  eq_ok_of_toOption (by decide +kernel)

theorem ofInvocation_shown :
    ofInvocation shownDisk { command := .build { unsafeOutput := true } } = .ok bareConfig :=
  eq_ok_of_toOption (by decide +kernel)

/-- The first build compiles the page with its value escaped. -/
theorem ends_build_value :
    escapedConfig.build.Ends { disk := valueDisk } ⟨1, 0, 0⟩ shownDisk :=
  ends_of_toOption (by decide +kernel) (by decide +kernel)

/-- The second build leaves the page alone. -/
theorem ends_build_shown :
    bareConfig.build.Ends { disk := shownDisk } ⟨0, 0, 1⟩ shownDisk :=
  ends_of_toOption (by decide +kernel) (by decide +kernel)

/-- The page is as the first build has left it, with the options of the first. -/
theorem rebuilt_page_shown :
    ∃ names bytes', bareConfig.Makes shownDisk valuePlace names bytes' ∧
      bareConfig.Rebuilds { disk := shownDisk } valueFile (bareConfig.output.place ++ names) bytes'
        shownDisk ∧
      ∃ bytes, escapedConfig.Makes shownDisk valuePlace names bytes ∧
        escapedConfig.Rebuilds { disk := valueDisk } valueFile (bareConfig.output.place ++ names)
          bytes shownDisk := by
  have hplain : bareConfig.Plain shownDisk :=
    plain_of_entries (by decide +kernel) (by decide +kernel)
  have hplace : bareConfig.IsSource shownDisk valuePlace := by constructor <;> decide +kernel
  obtain ⟨names, bytes', hmakes', hrebuilds', hsame⟩ :=
    @rebuilt_page_of_ofInvocation escapedConfig bareConfig { disk := valueDisk }
      { disk := shownDisk } shownDisk _ _ .serial .serial _ _ ofInvocation_value
      ofInvocation_shown (by decide +kernel)
      (.inl (by decide +kernel)) hplain ends_build_value ends_build_shown _ valueFile hplace
      (by decide +kernel) (by decide +kernel)
  refine ⟨names, bytes', hmakes', hrebuilds', hsame ⟨rfl, rfl, rfl⟩ (by decide +kernel) ?_⟩
  exact plain_of_entries (by decide +kernel) (by decide +kernel)

/-- The second build succeeds and leaves the value escaped, against its options. -/
theorem unsafeOutput_not_followed :
    ofInvocation valueDisk { command := .build {} } = .ok escapedConfig ∧
    ofInvocation shownDisk { command := .build { unsafeOutput := true } } = .ok bareConfig ∧
    escapedConfig.build.Ends { disk := valueDisk } ⟨1, 0, 0⟩ shownDisk ∧
    bareConfig.build.Ends { disk := shownDisk } ⟨0, 0, 1⟩ shownDisk ∧
    ∃ names bytes', bareConfig.Makes shownDisk valuePlace names bytes' ∧
      (shownDisk.file? (bareConfig.output.place ++ names)).map File.bytes ≠ some bytes' := by
  have hload : ((bareConfig.loadPage shownDisk (pathOf valuePlace)).toOption.map
      fun page => page.output.components) =
        some (["_includes".toList, "value.php".toList].map .normal) := by decide +kernel
  obtain ⟨page, hpage, houtput⟩ := Option.map_eq_some_iff.1 hload
  refine ⟨ofInvocation_value, ofInvocation_shown, ends_build_value, ends_build_shown, _, _,
    .page (by decide +kernel) (eq_ok_of_toOption hpage) houtput
      (eq_ok_of_toOption (Option.some_get (by decide +kernel)).symm), ?_⟩
  decide +kernel

end Config

end Pagewright
