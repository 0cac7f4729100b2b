import Mathlib.Logic.Relation
import Pagewright.Proofs.Site.Sources

/-!
# Builds that skip what is up to date

A build without emptying its output directory skips what is not older than the file that it comes
from. This is sound as long as files are changed later than everything in the output directory, and
the reason is an invariant of all outputs, those of pages that are gone or have moved included: an
output is older than whatever file would become it now, or it has the right bytes (`Config.Fresh`).

Every step in the life of a site keeps the invariant (`Config.fresh_of_step`), and so does every run
of edits, removals and builds, some of which may have failed (`Config.fresh_of_run`).
`Config.incremental_build_sound` reads off what a build has in place after such a run.
-/

namespace Pagewright

open Disk

namespace Config

open Pagewright.Path Work Location

variable {config : Config} {disk disk' : Disk}

/-- An output is older than the file that it comes from, or it has the right bytes, going by the
files of the site on the disk `start`. -/
def Fresh (config : Config) (start disk : Disk) : Prop :=
  ∀ place names bytes source old, config.IsSource start place → start.file? place = some source →
    config.Makes start place names bytes → disk.file? (config.output.place ++ names) = some old →
    old.modified < source.modified ∨ old.bytes = bytes

/-- One step in the life of a site. A file outside of the output directory is written, and it is
newer than everything in that directory; or such a file is removed; or the site is built, however
its tasks are shared out, which may fail. Directories can come and go. -/
inductive Step (config : Config) : Disk → Disk → Prop
  | edit {disk disk' : Disk} {place : Place} {file : File} (sound : disk'.Sound)
      (outside : ¬List.IsPrefix config.output.place place)
      (written : disk'.file? place = some file)
      (others : ∀ other, other ≠ place → disk'.file? other = disk.file? other)
      (later : ∀ other old, List.IsPrefix config.output.place other →
        disk.file? other = some old → old.modified < file.modified) : Step config disk disk'
  | remove {disk disk' : Disk} {place : Place} (sound : disk'.Sound)
      (outside : ¬List.IsPrefix config.output.place place) (removed : disk'.file? place = none)
      (others : ∀ other, other ≠ place → disk'.file? other = disk.file? other) :
      Step config disk disk'
  | build (schedule : Schedule) (world : World) (plain : config.Plain world.disk) :
      Step config world.disk ((config.buildIn schedule).exec world).2.disk

/-! ## Changes of files -/

/-- Fewer outputs are no less fresh. -/
theorem Fresh.of_outputs {start : Disk} (h : config.Fresh start disk)
    (hfiles : ∀ names file, disk'.file? (config.output.place ++ names) = some file →
      disk.file? (config.output.place ++ names) = some file) : config.Fresh start disk' :=
  fun place names bytes source old hplace hsource hmakes hold =>
    h place names bytes source old hplace hsource hmakes (hfiles names old hold)

/-- Outputs stay fresh when files of the site are removed, or replaced by newer ones. -/
theorem Fresh.of_sources {src : Place} (hrooted : config.Rooted src) (hsound : disk.Sound)
    (hsound' : disk'.Sound) {outputs : Disk} (h : config.Fresh disk outputs)
    (hfiles : ∀ place source, config.IsSource disk' place → disk'.file? place = some source →
      disk'.file? place = disk.file? place ∨
        ∀ names old, outputs.file? (config.output.place ++ names) = some old →
          old.modified < source.modified) : config.Fresh disk' outputs := by
  intro place names bytes source old hplace hsource hmakes hold
  rcases hfiles place source hplace hsource with hfile | hlater
  · have hplace' := hplace.of_file? hfile.symm
    exact h place names bytes source old hplace' (hfile.symm.trans hsource)
      ((makes_iff hrooted hsound hsound' hplace' hfile).2 hmakes) hold
  · exact .inl (hlater names old hold)

/-! ## What a build keeps -/

section Build

variable {src : Place} {world : World} {pages : List (Path × Page)} {statics : List Path}
  (hlaid : config.Laid src world.disk) (hfinds : config.Finds world.disk pages statics)
  (hplain : config.Plain world.disk) (hready : config.Ready world.disk)
  (hnone : collision? [] (config.entries pages statics) = none)
  {dependencies : Option Int} {summary summary' : Summary} {schedule : Schedule}

include hlaid hfinds hplain hready hnone

omit hready in
/-- Whatever a task writes is right, and no two files of the site become the same one. -/
theorem Fresh.of_effect {task : Task} (htask : task ∈ tasks pages statics) {result : Option Bool}
    (heffect : task.Effect config dependencies world.disk disk result disk')
    (hfresh : config.Fresh world.disk disk) : config.Fresh world.disk disk' := by
  intro place names bytes source old hplace hsource hmakes hold
  by_cases htarget : config.output.place ++ names = task.targetPlace config
  · obtain ⟨place', file, hserves⟩ := exists_serves hlaid hfinds hplain htask
    obtain rfl := List.append_cancel_left htarget
    obtain rfl := eq_of_makes hlaid hfinds hplain hnone hserves.isSource hplace hserves.makes hmakes
    obtain ⟨-, rfl⟩ := hserves.makes.unique hmakes
    cases heffect with
    | skips => exact hfresh _ _ _ _ _ hplace hsource hmakes hold
    | fails adds => exact hfresh _ _ _ _ _ hplace hsource hmakes ((adds.file? _).symm.trans hold)
    | writes _ _ puts =>
      cases (file?_eq_some_iff.2 puts.self).symm.trans hold
      exact .inr rfl
  · rw [heffect.file?_of_ne htarget] at hold
    exact hfresh _ _ _ _ _ hplace hsource hmakes hold

/-- The tasks of a build keep outputs fresh, whether they are all done or one fails. -/
theorem Fresh.of_runAll (hfresh : config.Fresh world.disk world.disk) :
    config.Fresh
      ((Task.runAll schedule config config.compiler dependencies
        (schedule.order (tasks pages statics)) summary).exec world).2.disk
      ((Task.runAll schedule config config.compiler dependencies
        (schedule.order (tasks pages statics)) summary).exec world).2.disk := by
  have hrun : config.Fresh world.disk ((Task.runAll schedule config config.compiler dependencies
      (schedule.order (tasks pages statics)) summary).exec world).2.disk :=
    Task.effect_induction hready (sited_order hlaid hfinds hplain schedule) (Kept.refl _ _)
      (fun _ htask _ _ _ _ hdisk heffect =>
        Fresh.of_effect hlaid hfinds hplain hnone (schedule.mem_order_iff.1 htask) heffect hdisk)
      hfresh
  exact hrun.of_sources hlaid.rooted hlaid.sound (sound_runAll hlaid hready)
    fun place _ hplace _ =>
      .inl (file?_runAll_outside hlaid hfinds hplain hready hplace.outside)

end Build

/-! ## Runs -/

section Run

variable {src out : Place} (hclean : config.clean = false) (hrooted : config.Rooted src)
  (houtput : config.output.components = .root :: out.map .normal)

include hclean hrooted houtput

/-- Making the output directory keeps outputs fresh. -/
theorem Fresh.of_prepareOutput {world world' : World} (hsound : world.disk.Sound)
    (hprepare : config.prepareOutput.exec world = (.ok (), world'))
    (hfresh : config.Fresh world.disk world.disk) : config.Fresh world'.disk world'.disk := by
  have habsolute := lead_eq_root_iff.1 (lead_steps_of_root houtput).1
  have hadds := (prepares_of_exec habsolute hprepare).adds hclean
  exact (hfresh.of_sources hrooted hsound (hadds.sound hsound) fun place _ _ _ =>
    .inl (hadds.file? place)).of_outputs fun names file hfile => (hadds.file? _).symm.trans hfile

/-- A build keeps outputs fresh, whether it succeeds or not. -/
theorem Fresh.of_buildIn {schedule : Schedule} {world : World} (hsound : world.disk.Sound)
    (hplain : config.Plain world.disk) (hfresh : config.Fresh world.disk world.disk) :
    config.Fresh ((config.buildIn schedule).exec world).2.disk
      ((config.buildIn schedule).exec world).2.disk := by
  by_cases hout : List.IsPrefix config.output.place src
  · exact fun place _ _ _ _ hplace => absurd hout (hplace.not_around hrooted)
  have hprepared : ∀ {world'}, config.prepareOutput.exec world = (.ok (), world') →
      config.Fresh world'.disk world'.disk := fun hprepare =>
    Fresh.of_prepareOutput hclean hrooted houtput hsound hprepare hfresh
  have hleaves := leaves_buildIn schedule config world
  generalize ((config.buildIn schedule).exec world).2.disk = disk' at hleaves
  cases hleaves with
  | unstarted => exact hfresh
  | cleared clears => exact eq_of_cleared hclean clears ▸ hfresh
  | prepared prepares => exact hprepared prepares
  | ran source prepares finds accepted =>
    obtain ⟨hlaid, hready, hplain'⟩ :=
      laid_of_exec hrooted houtput hout hsound source prepares
    exact Fresh.of_runAll hlaid finds (hplain' hplain) hready accepted (hprepared prepares)

/-- Every step keeps a disk sound and its outputs fresh. -/
theorem fresh_of_step (h : config.Step disk disk') (hsound : disk.Sound)
    (hfresh : config.Fresh disk disk) : disk'.Sound ∧ config.Fresh disk' disk' := by
  cases h with
  | @edit _ _ place file sound outside written others later =>
    have houtputs : ∀ names, disk'.file? (config.output.place ++ names) =
        disk.file? (config.output.place ++ names) := fun names =>
      others _ fun heq => outside (heq ▸ List.prefix_append _ _)
    refine ⟨sound, Fresh.of_outputs
      (hfresh.of_sources hrooted hsound sound fun other source _ hsource => ?_)
      fun names file hfile => (houtputs names).symm.trans hfile⟩
    by_cases heq : other = place
    · subst heq
      cases written.symm.trans hsource
      exact .inr fun names old hold => later _ old (List.prefix_append _ _) hold
    · exact .inl (others other heq)
  | remove sound outside removed others =>
    have hothers : ∀ other file, disk'.file? other = some file →
        disk'.file? other = disk.file? other := fun other file hfile =>
      others other fun heq => by simp [heq, removed] at hfile
    exact ⟨sound, (hfresh.of_sources hrooted hsound sound fun other source _ hsource =>
      .inl (hothers other source hsource)).of_outputs
        fun names file hfile => (hothers _ file hfile).symm.trans hfile⟩
  | build schedule world plain =>
    have habsolute := lead_eq_root_iff.1 (lead_steps_of_root houtput).1
    exact ⟨(leaves_buildIn schedule config world).sound habsolute hsound,
      Fresh.of_buildIn hclean hrooted houtput hsound plain hfresh⟩

/-- Every run of steps keeps a disk sound and its outputs fresh. -/
theorem fresh_of_run (h : Relation.ReflTransGen config.Step disk disk') (hsound : disk.Sound)
    (hfresh : config.Fresh disk disk) : disk'.Sound ∧ config.Fresh disk' disk' := by
  induction h with
  | refl => exact ⟨hsound, hfresh⟩
  | tail _ hstep ih => exact fresh_of_step hclean hrooted houtput hstep ih.1 ih.2

/-- After any run of edits, removals and builds, a build that succeeds has what every file of the
site becomes in place, however the tasks of all these builds are shared out, unless there is a
directory in its place: a directory that is newer than the file counts as up to date. -/
theorem incremental_build_sound {start disk' : Disk} {world : World} {summary : Summary}
    {schedule : Schedule} (hsound : start.Sound)
    (hempty : ∀ place, List.IsPrefix config.output.place place → start.file? place = none)
    (hrun : Relation.ReflTransGen config.Step start world.disk) (hplain : config.Plain world.disk)
    (h : (config.buildIn schedule).Ends world summary disk') {place : Place}
    (hplace : config.IsSource disk' place) :
    ∃ names bytes, config.Makes disk' place names bytes ∧
      ((disk'.file? (config.output.place ++ names)).map File.bytes = some bytes ∨
        disk'.IsDir (config.output.place ++ names)) := by
  have hstart : config.Fresh start start := fun _ names _ _ old _ _ _ hold => by
    simp [hempty _ (List.prefix_append config.output.place names)] at hold
  obtain ⟨hsound', hfresh⟩ := fresh_of_run hclean hrooted houtput hrun hsound hstart
  have hout := hplace.not_around hrooted
  obtain ⟨hsound'', hfiles⟩ := file?_buildIn_outside hrooted houtput hout hsound' hplain h
  have hfile := hfiles place hplace.outside
  obtain ⟨world', task, file, hprepare, hserves, hdone⟩ := exists_done_of_buildIn hrooted houtput
    hout hsound' hplain h (hplace.of_file? hfile.symm)
  have habsolute := lead_eq_root_iff.1 (lead_steps_of_root houtput).1
  have hprepares := prepares_of_exec habsolute hprepare
  have hfresh' := Fresh.of_prepareOutput hclean hrooted houtput hsound' hprepare hfresh
  refine ⟨_, _, (makes_iff hrooted (hprepares.sound hsound') hsound'' hserves.isSource
    (hfile.trans (hprepares.file? place hplace.outside).symm)).1 hserves.makes, ?_⟩
  cases hdone with
  | written made => exact .inl (congrArg (Option.map File.bytes) made)
  | blocked _ isDir => exact .inr isDir
  | kept _ before after newer _ =>
    left
    rcases hfresh' _ _ _ _ _ hserves.isSource hserves.sited.reaches.file? hserves.makes before with
      holder | hbytes
    · exact absurd newer (not_le.2 holder)
    · exact (congrArg (Option.map File.bytes) after).trans (congrArg some hbytes)

end Run

/-- A site with one page. -/
def pageDisk : Disk :=
  { entries := [
      (["source".toList], .directory 0),
      (["source".toList, "a.blade".toList], .file ⟨Text.utf8 "\x7b\x7b $x \x7d\x7d".toList, 3⟩)]
    now := 5 }

def pageConfig : Config :=
  { source := pathOf ["source".toList], output := pathOf ["public".toList] }

def builtDisk : Disk :=
  (pageConfig.build.exec { disk := pageDisk }).2.disk

/-- The page has been changed after a build, and goes somewhere else now. -/
def editedDisk : Disk :=
  builtDisk.set ["source".toList, "a.blade".toList]
    (.file ⟨Text.utf8 "---\npermalink: b.php\n---\n\x7b\x7b $y \x7d\x7d".toList, 8⟩)

/-- A page that is edited is newer than what is built. -/
theorem step_edited : pageConfig.Step builtDisk editedDisk := by
  have hlater : ∀ found ∈ builtDisk.entries, ∀ old ∈ builtDisk.file? found.1,
      old.modified < 8 := by decide +kernel
  have hsound : builtDisk.Sound := by decide +kernel
  refine @Step.edit _ _ _ ["source".toList, "a.blade".toList] _ (by decide +kernel)
    (by decide +kernel) (file?_eq_some_iff.2 (get?_set_self (by decide) _ _)) ?_ ?_
  · intro other hother
    rw [editedDisk, file?, get?_set_of_ne hother, file?]
  · intro other old _ hold
    exact hlater _ ((file?_eq_some_iff_mem hsound.distinct).1 hold) old hold

/-- The page that has been edited is built again. -/
theorem incremental_build_sound_edited :
    ∃ disk', pageConfig.build.Ends { disk := editedDisk } ⟨1, 0, 0⟩ disk' ∧
      ∃ names bytes, pageConfig.Makes disk' ["source".toList, "a.blade".toList] names bytes ∧
        ((disk'.file? (pageConfig.output.place ++ names)).map File.bytes = some bytes ∨
          disk'.IsDir (pageConfig.output.place ++ names)) := by
  have hbuild : (pageConfig.build.exec { disk := editedDisk }).1.toOption = some ⟨1, 0, 0⟩ := by
    decide +kernel
  have hstart : pageConfig.Plain pageDisk :=
    plain_of_entries (by decide +kernel) (by decide +kernel)
  have hrun : Relation.ReflTransGen pageConfig.Step pageDisk editedDisk :=
    .tail (.single (.build .serial { disk := pageDisk } hstart)) step_edited
  have hempty : ∀ place, List.IsPrefix pageConfig.output.place place →
      pageDisk.file? place = none := by
    have hentries : ∀ found ∈ pageDisk.entries,
        ¬List.IsPrefix pageConfig.output.place found.1 := by decide +kernel
    intro place hplace
    refine Option.eq_none_iff_forall_ne_some.2 fun file hfile => ?_
    exact hentries _ ((file?_eq_some_iff_mem (by decide +kernel)).1 hfile) hplace
  refine ⟨_, ends_of_toOption hbuild rfl, ?_⟩
  refine @incremental_build_sound pageConfig ["source".toList] ["public".toList] rfl
    ⟨rfl, by decide +kernel⟩ (by decide +kernel) pageDisk _ { disk := editedDisk } _ .serial
    (by decide +kernel) hempty hrun (plain_of_entries (by decide +kernel) (by decide +kernel))
    (ends_of_toOption hbuild rfl) _ ⟨?_, ?_, ?_, ?_, ?_⟩
  all_goals decide +kernel

end Config

end Pagewright
