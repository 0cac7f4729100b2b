import Pagewright.Proofs.Site.Loading
import Pagewright.Proofs.Site.Sources

/-!
# What a clean build makes

A build that empties its output directory leaves exactly the site there: one file for each file of
the site and no others (`Config.Exact`), all of which it has counted (`Config.CountsAll`).
`Config.clean_build_exact` says so for every way of sharing out its tasks. No two of them write the
same file, and none reads what another has written, even if the output directory lies below the
source directory.
-/

namespace Pagewright

open Disk

namespace Config

open Pagewright.Path Work Location

variable {disk start : Disk} {config : Config}

/-! ## Exact builds -/

/-- The files below the output directory are what the files of the site become: each becomes one
file, no two become the same one, and there are no others. -/
structure Exact (config : Config) (disk disk' : Disk) : Prop where
  made : ∀ place, config.IsSource disk place → ∃ names bytes, config.Makes disk place names bytes
  apart : ∀ {place place' names bytes bytes'}, config.IsSource disk place →
    config.IsSource disk place' → config.Makes disk place names bytes →
    config.Makes disk place' names bytes' → place = place'
  file? : ∀ names bytes,
    (disk'.file? (config.output.place ++ names)).map File.bytes = some bytes ↔
      ∃ place, config.IsSource disk place ∧ config.Makes disk place names bytes

/-- A summary counts all templates and all other files of the site, and nothing was skipped. -/
def CountsAll (config : Config) (disk : Disk) (summary : Summary) : Prop :=
  ∃ templates statics : List Place, templates.Nodup ∧ statics.Nodup ∧
    (∀ place, place ∈ templates ↔
      config.IsSource disk place ∧ isTemplate (pathOf place) = true) ∧
    (∀ place, place ∈ statics ↔
      config.IsSource disk place ∧ isTemplate (pathOf place) = false) ∧
    summary = { compiled := templates.length, copied := statics.length, skipped := 0 }

section Exact

variable {src : Place} {pages : List (Path × Page)} {statics : List Path} {world : World}
  {summary summary' : Summary} {disk' : Disk} {dependencies : Option Int} {schedule : Schedule}
  (hlaid : config.Laid src world.disk) (hfinds : config.Finds world.disk pages statics)
  (hplain : config.Plain world.disk) (hready : config.Ready world.disk)
  (hnone : collision? [] (config.entries pages statics) = none) (hclean : config.clean = true)

include hlaid hfinds hplain hready hnone hclean

/-- When the tasks of a build that skips nothing have all been done below an output directory
without files, exactly the site is there. -/
theorem exact_of_runAll
    (hempty : ∀ place, List.IsPrefix config.output.place place → world.disk.file? place = none)
    (h : (Task.runAll schedule config config.compiler dependencies
      (schedule.order (tasks pages statics)) summary).Ends world summary' disk') :
    config.Exact world.disk disk' := by
  have hsited := sited_order hlaid hfinds hplain schedule
  have hwritten : ∀ task ∈ tasks pages statics, ∀ place file,
      task.Sited config world.disk place file →
        disk'.file? (task.targetPlace config) = some ⟨task.bytes world.disk config, disk'.now⟩ := by
    intro task htask place file hsource
    cases Task.done_of_runAll hready hsited (Kept.refl _ _)
      (pairwise_targetPlace hlaid hfinds hplain hnone) (fun _ _ => rfl) h
      (schedule.mem_order_iff.2 htask) hsource with
    | written made => exact made
    | kept clean => simp [hclean] at clean
    | blocked clean => simp [hclean] at clean
  refine ⟨fun place hplace => ?_, eq_of_makes hlaid hfinds hplain hnone, fun names bytes => ?_⟩
  · obtain ⟨task, -, file, hserves⟩ := exists_task hlaid hfinds hplain hplace
    exact ⟨_, _, hserves.makes⟩
  constructor
  · intro hmap
    obtain ⟨file, hfile, rfl⟩ := Option.map_eq_some_iff.1 hmap
    by_cases hmade : ∃ task ∈ tasks pages statics,
        config.output.place ++ names = task.targetPlace config
    · obtain ⟨task, htask, hplace⟩ := hmade
      obtain ⟨place, source, hserves'⟩ := exists_serves hlaid hfinds hplain htask
      rw [hplace, hwritten task htask place source hserves'.sited] at hfile
      cases hfile
      rw [List.append_cancel_left hplace]
      exact ⟨place, hserves'.isSource, hserves'.makes⟩
    · have hother : ∀ task ∈ schedule.order (tasks pages statics),
          config.output.place ++ names ≠ task.targetPlace config :=
        fun task htask heq => hmade ⟨task, schedule.mem_order_iff.1 htask, heq⟩
      rw [← h.disk_eq, Task.file?_runAll hready hsited (Kept.refl _ _) hother,
        hempty _ (List.prefix_append _ _)] at hfile
      cases hfile
  · rintro ⟨place, hplace, hmakes⟩
    obtain ⟨task, htask, file, hserves'⟩ := exists_task hlaid hfinds hplain hplace
    obtain ⟨rfl, rfl⟩ := hserves'.makes.unique hmakes
    have hfile := hwritten task htask place file hserves'.sited
    rw [Task.targetPlace] at hfile
    rw [hfile]
    rfl

end Exact

/-- All tasks together count every page and every other file. -/
theorem total_tasks (pages : List (Path × Page)) (statics : List Path) (summary : Summary) :
    Task.total (tasks pages statics) summary = { summary with
      compiled := summary.compiled + pages.length, copied := summary.copied + statics.length } := by
  have hpages : ∀ summary : Summary,
      Task.total (pages.map fun found => Task.compile found.1 found.2) summary =
        { summary with compiled := summary.compiled + pages.length } := by
    induction pages with
    | nil => exact fun _ => rfl
    | cons found pages ih => exact fun summary => (ih _).trans (by simp [Task.tally]; omega)
  have hstatics : ∀ summary : Summary, Task.total (statics.map Task.copy) summary =
      { summary with copied := summary.copied + statics.length } := by
    induction statics with
    | nil => exact fun _ => rfl
    | cons path statics ih => exact fun summary => (ih _).trans (by simp [Task.tally]; omega)
  unfold Task.total tasks at *
  rw [List.foldl_append, hpages, hstatics]

/-- The summary of tasks that have all been done counts the files of the site. -/
theorem countsAll_total {src : Place} {pages : List (Path × Page)} {statics : List Path}
    (hlaid : config.Laid src start) (hfinds : config.Finds start pages statics) :
    config.CountsAll start (Task.total (tasks pages statics) {}) := by
  refine ⟨_, _, hlaid.nodup_places isTemplate, hlaid.nodup_places (!isTemplate ·),
    fun _ => hlaid.mem_places_iff _, fun place => ?_, ?_⟩
  · rw [hlaid.mem_places_iff, Bool.not_eq_true']
  · rw [total_tasks, List.length_map, List.length_map, ← hfinds.templates, ← hfinds.statics,
      List.length_map]
    simp

/-! ## Clean builds -/

/-- The site is the same on a disk that differs below the output directory only. -/
theorem isSource_iff (hfiles : ∀ place, ¬List.IsPrefix config.output.place place →
    start.file? place = disk.file? place) {place : Place} :
    config.IsSource start place ↔ config.IsSource disk place :=
  ⟨fun h => h.of_file? (hfiles place h.outside).symm, fun h => h.of_file? (hfiles place h.outside)⟩

/-- What is exactly the site of one of two such disks is exactly that of the other. -/
theorem Exact.of_files {src : Place} (hlaid : config.Laid src start) (hsound : disk.Sound)
    (hfiles : ∀ place, ¬List.IsPrefix config.output.place place →
      start.file? place = disk.file? place) {disk' : Disk} (h : config.Exact start disk') :
    config.Exact disk disk' := by
  have hsource : ∀ {place}, config.IsSource disk place → config.IsSource start place :=
    (isSource_iff hfiles).2
  have hmakes : ∀ {place names bytes}, config.IsSource disk place →
      (config.Makes start place names bytes ↔ config.Makes disk place names bytes) :=
    fun hplace => (makes_iff hlaid.rooted hsound hlaid.sound hplace (hfiles _ hplace.outside)).symm
  refine ⟨fun place hplace => ?_, fun hplace hplace' hmake hmake' => ?_, fun names bytes => ?_⟩
  · obtain ⟨names, bytes, hmake⟩ := h.made place (hsource hplace)
    exact ⟨names, bytes, (hmakes hplace).1 hmake⟩
  · exact h.apart (hsource hplace) (hsource hplace') ((hmakes hplace).2 hmake)
      ((hmakes hplace').2 hmake')
  · rw [h.file?]
    refine exists_congr fun place => ?_
    rw [isSource_iff hfiles]
    exact and_congr_right hmakes

/-- A summary that counts one site counts the other. -/
theorem CountsAll.of_files (hfiles : ∀ place, ¬List.IsPrefix config.output.place place →
      start.file? place = disk.file? place) {summary : Summary}
    (h : config.CountsAll start summary) : config.CountsAll disk summary := by
  obtain ⟨templates, statics, hnodup, hnodup', htemplates, hstatics, hsummary⟩ := h
  refine ⟨templates, statics, hnodup, hnodup', fun place => ?_, fun place => ?_, hsummary⟩
  · rw [htemplates, isSource_iff hfiles]
  · rw [hstatics, isSource_iff hfiles]

/-- A clean build makes exactly the site, and it does so however its tasks are shared out, as long
as its output directory is found or nothing lies below it: the output directory is looked for before
the directories are made through which its path may lead. -/
theorem clean_build_exact {world : World} {invocation : Invocation} {summary : Summary}
    {disk' : Disk} {schedule : Schedule}
    (hconfig : ofInvocation world.disk invocation = .ok config)
    (hclean : config.clean = true) (hsound : world.disk.Sound)
    (houtside : ¬List.IsPrefix config.output.place config.source.place)
    (hplain : config.Plain world.disk)
    (hclear : world.disk.holds config.output = true ∨
      ∀ place, List.IsPrefix config.output.place place → world.disk.file? place = none)
    (h : (config.buildIn schedule).Ends world summary disk') :
    config.CountsAll world.disk summary ∧
      ∀ schedule' : Schedule, ∃ disk'', (config.buildIn schedule').Ends world summary disk'' ∧
        config.Exact world.disk disk'' := by
  have houtput := isAbsolute_output_of_ofInvocation hconfig
  rw [ends_buildIn_iff] at h
  obtain ⟨hdirectory, world', pages, statics, hprepare, hfinds, hnone, hrun⟩ := h
  obtain ⟨src, hsource, hisName⟩ :=
    (exists_pathOf_of_ofInvocation hconfig).1 (holds_of_isDirectory hdirectory)
  have hrooted : config.Rooted src := ⟨hsource, hisName⟩
  rw [hrooted.place_source] at houtside
  have hprepares := prepares_of_exec houtput hprepare
  have hempty : ∀ place, List.IsPrefix config.output.place place →
      world'.disk.file? place = none := fun _ =>
    file?_of_clear houtput (hclear.imp_left fun hfound => ⟨hclean, hfound⟩) hprepare
  have hlaid := laid_of_empty hrooted houtput hsound hdirectory houtside hprepares hempty
  have hready := ready_of_prepares houtput houtside hprepares
  have hplain' := hplain.of_files hrooted hsound hlaid.sound hprepares.file?
  have hsited := sited_order hlaid hfinds hplain' schedule
  have hpairs : (schedule.order (tasks pages statics)).Pairwise
      fun a b => a.names config ≠ b.names config :=
    (pairwise_targetPlace hlaid hfinds hplain' hnone).imp fun hne heq =>
      hne (congrArg (config.output.place ++ ·) heq)
  have hsummary := (Task.possible_of_runAll hclean hready hsited hpairs (Kept.refl _ _) hrun).1
  rw [Task.total_perm (schedule.perm _)] at hsummary
  refine ⟨(hsummary ▸ countsAll_total hlaid hfinds).of_files hprepares.file?,
    fun schedule' => ?_⟩
  obtain ⟨disk'', hrun'⟩ := Task.exists_runAll_of_perm hclean hready hsited hpairs (Kept.refl _ _)
    ((schedule.perm _).trans (schedule'.perm _).symm) hrun schedule'
  refine ⟨disk'', ends_buildIn_iff.2 ⟨hdirectory, world', pages, statics, hprepare, hfinds, hnone,
    hrun'⟩, Exact.of_files hlaid hsound hprepares.file? ?_⟩
  exact exact_of_runAll hlaid hfinds hplain' hready hnone hclean hempty hrun'

/-- A site whose output directory lies below its source directory and has an old file in it. -/
def nestedDisk : Disk :=
  { entries := [
      (["source".toList], .directory 0),
      (["source".toList, "index.blade".toList], .file ⟨Text.utf8 "\x7b\x7b $x \x7d\x7d".toList, 3⟩),
      (["source".toList, "public".toList], .directory 0),
      (["source".toList, "public".toList, "old.css".toList], .file ⟨[], 9⟩)]
    now := 5 }

def nestedInvocation : Invocation :=
  { output := some ⟨"source/public".toList⟩, command := .build { clean := true } }

def nestedConfig : Config :=
  (ofInvocation nestedDisk nestedInvocation).toOption.get (by decide +kernel)

theorem ofInvocation_nested : ofInvocation nestedDisk nestedInvocation = .ok nestedConfig :=
  eq_ok_of_toOption (Option.some_get (by decide +kernel)).symm

/-- The last task first, all having been begun. -/
def backwards : Schedule where
  order := List.reverse
  begun tasks := tasks
  perm := List.reverse_perm
  sublist := List.Sublist.refl

/-- A site with its output directory inside of its source directory, built from the last task to the
first. -/
theorem clean_build_exact_nested :
    nestedConfig.CountsAll nestedDisk ⟨1, 0, 0⟩ ∧
      ∃ disk', (nestedConfig.buildIn backwards).Ends { disk := nestedDisk } ⟨1, 0, 0⟩ disk' ∧
        nestedConfig.Exact nestedDisk disk' := by
  have hsound : nestedDisk.Sound := by decide +kernel
  have hbuild : (nestedConfig.build.exec { disk := nestedDisk }).1.toOption = some ⟨1, 0, 0⟩ := by
    decide +kernel
  obtain ⟨hcounts, hexact⟩ := @clean_build_exact nestedConfig { disk := nestedDisk }
    nestedInvocation _ _ .serial ofInvocation_nested (by decide +kernel) hsound (by decide +kernel)
    (plain_of_entries hsound.distinct (by decide +kernel)) (.inl (by decide +kernel))
    (ends_of_toOption hbuild rfl)
  exact ⟨hcounts, hexact backwards⟩

end Config

end Pagewright
