import Pagewright.Proofs.Site.Sources

/-!
# What a build leaves alone

A build does not change the files below its source directory, whether it succeeds or not
(`Config.source_files_untouched`). The exception is an output directory that lies around the source
directory, since that one is removed as a whole when it is to be emptied.

If neither directory lies inside the other, then it matters where tasks write. They stay below the
output directory, but for a page called by dots, which may land right beside it
(`Config.place_target_of_finds`), where it could only take the place of the source directory itself.
-/

namespace Pagewright

open Disk

namespace Page

open Pagewright.Path Location

/-- A page is written below the directory that its output is joined to, or else right beside it. -/
theorem place_join_output {source : Path} {names : List Text} {text : Text} {dirs : Conventions}
    {page : Page} (hsource : source.components = names.map .normal)
    (htemplate : isTemplate source = true) (h : parse source text dirs = .ok page) (base : Path) :
    List.IsPrefix base.place (base.join page.output).place ∨
      (base.join page.output).place = base.place.dropLast ++ [indexName] := by
  obtain ⟨hrelative, hparent⟩ := output_steps hsource htemplate h
  rw [place_join base hrelative]
  by_cases hdot : page.DotStem
  · rw [steps_of_dotStem htemplate h hdot, (lead_steps_of_components hsource).2,
      ← List.map_dropLast, List.foldl_append, foldl_nextPlace_normal]
    rcases List.eq_nil_or_concat' names.dropLast with hnil | ⟨dirs, last, hdirs⟩
    · right
      rw [hnil, List.append_nil]
      rfl
    · left
      rw [hdirs, ← List.append_assoc]
      simp [nextPlace]
  · have hnormal : ∀ c ∈ page.output.steps, ∃ name, c = .normal name := by
      intro c hc
      rcases Segments.eq_parent_or_normal_of_mem_names hc with rfl | ⟨name, -, heq⟩
      · exact absurd (hparent.1 hc) hdot
      · exact ⟨name, heq⟩
    obtain ⟨outputs, houtputs⟩ := exists_names_of_normal hnormal
    rw [houtputs, foldl_nextPlace_normal]
    exact .inl (List.prefix_append _ _)

end Page

namespace Config

open Pagewright.Path Work Location

variable {config : Config} {start : Disk} {pages : List (Path × Page)} {statics : List Path}
  {world : World} {task : Task} {schedule : Schedule}

/-! ## Where tasks write -/

section Targets

variable (hsound : start.Sound) (habsolute : config.source.isAbsolute = true)
  (hdir : start.IsDir config.source.place)

include hsound habsolute hdir

/-- The path of a file of the site, counted from the source directory. -/
theorem relative_of_mem_siteFiles {path : Path} (h : path ∈ config.siteFiles start) :
    ∃ relative, ∃ names : Place, path.relativeTo? config.source = some relative ∧
      relative.components = names.map .normal ∧ isTemplate relative = isTemplate path := by
  obtain ⟨names, hne, hcomponents⟩ :=
    exists_names_of_mem_files hsound habsolute hdir (List.mem_filter.1 h).1
  obtain ⟨relative, hrelative⟩ := relativeTo?_eq_some_of_components hcomponents
  obtain ⟨hrest, -, hsame⟩ := relative_below
    (components_ne_nil (text_ne_nil_of_isAbsolute habsolute)) hne hcomponents hrelative
  exact ⟨relative, names, hrelative, hrest, hsame⟩

/-- A task writes below the output directory, or else right beside it. -/
theorem place_target_of_finds (hfinds : config.Finds start pages statics)
    (htask : task ∈ tasks pages statics) :
    List.IsPrefix config.output.place (task.target config).place ∨
      (task.target config).place = config.output.place.dropLast ++ [indexName] := by
  rcases List.mem_append.1 htask with hmem | hmem
  · obtain ⟨⟨path, page⟩, hpage, rfl⟩ := List.mem_map.1 hmem
    obtain ⟨hpath, htemplate, hload⟩ := hfinds.page hpage
    obtain ⟨relative, names, hrelative, hcomponents, hsame⟩ :=
      relative_of_mem_siteFiles hsound habsolute hdir hpath
    obtain ⟨source, text, hsource, -, hparse⟩ := loadPage_eq_ok hload
    obtain rfl := Option.some.inj (hrelative.symm.trans hsource)
    exact Page.place_join_output hcomponents (hsame.trans htemplate) hparse config.output
  · obtain ⟨path, hpath, rfl⟩ := List.mem_map.1 hmem
    rw [hfinds.statics, List.mem_filter] at hpath
    obtain ⟨relative, names, hrelative, hcomponents, -⟩ :=
      relative_of_mem_siteFiles hsound habsolute hdir hpath.1
    obtain ⟨hlead, hsteps⟩ := lead_steps_of_components hcomponents
    have hchild : relative.isAbsolute = false := by
      rw [← Bool.not_eq_true, ← lead_eq_root_iff, hlead]
      simp
    left
    rw [Task.target, Task.output, hrelative, Option.getD_some, place_join _ hchild, hsteps,
      foldl_nextPlace_normal]
    exact List.prefix_append _ _

end Targets

/-! ## The source directory -/

/-- The source directory is still there, with all the files below it. -/
structure Spares (config : Config) (start disk : Disk) : Prop where
  isDir : disk.IsDir config.source.place
  file? : ∀ place, List.IsPrefix config.source.place place → disk.file? place = start.file? place

section Apart

variable (hin : ¬List.IsPrefix config.source.place config.output.place)
  (hout : ¬List.IsPrefix config.output.place config.source.place)
  {place : Place} (hplace : List.IsPrefix config.source.place place)

include hin hout hplace

/-- A file of the source directory is not below an output directory that lies apart. -/
theorem not_below_output : ¬List.IsPrefix config.output.place place := fun h =>
  (List.prefix_or_prefix_of_prefix hplace h).elim hin hout

/-- What a task writes does not lie below the source directory. It may be meant to take the place of
that directory, which it cannot. -/
theorem ne_target {target : Place}
    (htarget : List.IsPrefix config.output.place target ∨
      target = config.output.place.dropLast ++ [indexName]) :
    place ≠ target ∨ place = config.source.place := by
  rcases htarget with hbelow | rfl
  · left
    rintro rfl
    exact not_below_output hin hout hplace hbelow
  · by_cases heq : place = config.source.place
    · exact .inr heq
    · left
      rintro rfl
      have hdirs := isPrefix_of_ne_concat hplace (Ne.symm heq)
      exact hin (hdirs.trans (List.dropLast_prefix _))

end Apart

/-- A path starts with another one by components. -/
theorem startsWith_eq_true_iff {path base : Path} :
    path.startsWith base = true ↔ List.IsPrefix base.components path.components := by
  rw [startsWith, decide_eq_true_iff, List.prefix_iff_eq_take, eq_comm]

/-- A source directory whose path starts with the output directory has no files for the site. -/
theorem siteFiles_eq_nil (hsound : start.Sound) (habsolute : config.source.isAbsolute = true)
    (hdir : start.IsDir config.source.place)
    (hstarts : config.source.startsWith config.output = true) : config.siteFiles start = [] := by
  refine List.filter_eq_nil_iff.2 fun path hpath => ?_
  obtain ⟨names, -, hcomponents⟩ := exists_names_of_mem_files hsound habsolute hdir hpath
  have hpath : path.startsWith config.output = true := by
    rw [startsWith_eq_true_iff] at hstarts ⊢
    exact hstarts.trans (hcomponents ▸ List.prefix_append _ _)
  simp [hpath]

/-- The source directory is a directory where its path leads. -/
theorem isDir_source (habsolute : config.source.isAbsolute = true)
    (h : world.disk.isDirectory config.source = true) : world.disk.IsDir config.source.place :=
  (opens_of_isDirectory habsolute h).isDir

/-- Beside the output directory, nothing that a build does reaches the source directory. -/
theorem file?_of_leaves_apart {disk' : Disk} (hsource : config.source.isAbsolute = true)
    (houtput : config.output.isAbsolute = true) (hsound : world.disk.Sound)
    (hin : ¬List.IsPrefix config.source.place config.output.place)
    (hout : ¬List.IsPrefix config.output.place config.source.place)
    (h : config.Leaves schedule world disk') {place : Place}
    (hplace : List.IsPrefix config.source.place place) :
    disk'.file? place = world.disk.file? place := by
  cases h with
  | unstarted => rfl
  | cleared clears =>
    exact file?_of_cleared houtput clears (not_below_output hin hout hplace)
  | prepared prepares =>
    exact (prepares_of_exec houtput prepares).file? place (not_below_output hin hout hplace)
  | ran source prepares finds accepted =>
    have hprepares := prepares_of_exec houtput prepares
    have hspares : config.Spares world.disk _ :=
      ⟨hprepares.isDir _ hout (isDir_source hsource source),
        fun place hplace => hprepares.file? place (not_below_output hin hout hplace)⟩
    have hsound' := hprepares.sound hsound
    refine (Task.runAll_induction (P := config.Spares world.disk) ?_ hspares).file? place hplace
    intro task htask disk result disk' hdisk htries
    have habsolute := isAbsolute_join houtput (task.output config)
    have htarget := place_target_of_finds hsound' hsource hspares.isDir finds
      (schedule.mem_order_iff.1 htask)
    refine ⟨htries.isDir habsolute hdisk.isDir, fun place hplace => ?_⟩
    have hkeep := (ne_target hin hout hplace htarget).imp_right fun heq => heq ▸ hdisk.isDir
    exact (htries.file? habsolute hkeep).trans (hdisk.file? place hplace)

/-- Below an output directory that is not emptied, a build finds nothing to do. -/
theorem file?_of_leaves_below {disk' : Disk} (hsource : config.source.isAbsolute = true)
    (houtput : config.output.isAbsolute = true) (hsound : world.disk.Sound)
    (hclean : config.clean = false) (hstarts : config.source.startsWith config.output = true)
    (h : config.Leaves schedule world disk') (place : Place) :
    disk'.file? place = world.disk.file? place := by
  cases h with
  | unstarted => rfl
  | cleared clears => rw [eq_of_cleared hclean clears]
  | prepared prepares => exact ((prepares_of_exec houtput prepares).adds hclean).file? place
  | ran source prepares finds accepted =>
    have hadds := (prepares_of_exec houtput prepares).adds hclean
    have hnil := siteFiles_eq_nil (hadds.sound hsound) hsource
      (hadds.isDir (isDir_source hsource source)) hstarts
    have hpages := List.map_eq_nil_iff.1 (finds.templates.trans (by rw [hnil, List.filter_nil]))
    have hstatics := finds.statics.trans (by rw [hnil, List.filter_nil])
    subst hpages hstatics
    rw [List.perm_nil.1 (schedule.perm (tasks [] []))]
    exact hadds.file? place

/-- A build leaves every file below the source directory as it is, whether it succeeds or not and
however its tasks are shared out, unless the output directory lies around the source directory.
There, too, it does so unless the output directory is to be emptied, as long as the paths of both
show which lies in which. -/
theorem source_files_untouched (schedule : Schedule) (hsource : config.source.isAbsolute = true)
    (houtput : config.output.isAbsolute = true) (hsound : world.disk.Sound)
    (hin : ¬List.IsPrefix config.source.place config.output.place)
    (hout : ¬List.IsPrefix config.output.place config.source.place ∨
      config.clean = false ∧ config.source.startsWith config.output = true)
    {place : Place} (hplace : List.IsPrefix config.source.place place) :
    ((config.buildIn schedule).exec world).2.disk.file? place = world.disk.file? place := by
  have hleaves := leaves_buildIn schedule config world
  rcases hout with hout | ⟨hclean, hstarts⟩
  · exact file?_of_leaves_apart hsource houtput hsound hin hout hleaves hplace
  · exact file?_of_leaves_below hsource houtput hsound hclean hstarts hleaves place

/-- A source directory with the name that a page called by a dot is written to. -/
def asideDisk : Disk :=
  { entries := [
      ([indexName], .directory 0),
      ([indexName, "..blade".toList], .file ⟨Text.utf8 "x".toList, 0⟩),
      (["public".toList], .directory 0)] }

def asideConfig : Config :=
  { source := pathOf [indexName], output := pathOf ["public".toList], clean := true }

/-- A clean build with its output directory beside the source directory. -/
theorem source_files_untouched_aside :
    (asideConfig.build.exec { disk := asideDisk }).2.disk.file? [indexName, "..blade".toList] =
      some ⟨Text.utf8 "x".toList, 0⟩ :=
  @source_files_untouched asideConfig { disk := asideDisk } .serial rfl rfl (by decide +kernel)
    (by decide +kernel) (.inl (by decide +kernel)) [indexName, "..blade".toList] (by decide +kernel)

end Config

end Pagewright
