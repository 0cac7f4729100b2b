import Pagewright.Proofs.Disk.Writing
import Pagewright.Proofs.Site.Work
import Pagewright.Site.Loading

/-!
# The paths of a configuration

The paths of a loaded configuration are absolute (`Config.isAbsolute_absolute`). This changes their
texts and not where they lead: `Disk.placeOf` is the only place that a path can lead to, counted
from the current directory, and the absolute form of a path leads there as well
(`Config.place_absolute`).

A configuration also keeps the path of its own file, under the root that is in force once the file
has been read. It is the file that was read unless the file itself sets a root
(`Config.path_leads_iff`).
-/

namespace Pagewright

open Disk

namespace Disk

open Pagewright.Path

variable {disk : Disk}

/-- The place that a path can lead to, counted from the current directory. -/
def placeOf (disk : Disk) (path : Path) : Place :=
  path.steps.foldl nextPlace (disk.start path)

/-- An absolute path leads to the same place wherever one is. -/
theorem placeOf_of_isAbsolute {path : Path} (h : path.isAbsolute = true) :
    disk.placeOf path = path.place := by
  rw [placeOf, start, if_pos h, place]

/-- Where a path leads on a disk is its place. -/
theorem eq_placeOf_of_resolve {path : Path} {target : Place}
    (h : disk.resolve path = .ok target) : target = disk.placeOf path :=
  eq_of_foldlM_follow (foldlM_follow_start h)

/-- A relative path goes on from the place of its base. -/
theorem placeOf_join (base : Path) {child : Path} (hchild : child.isAbsolute = false) :
    disk.placeOf (base.join child) = child.steps.foldl nextPlace (disk.placeOf base) := by
  have habsolute : (base.join child).isAbsolute = base.isAbsolute := by
    by_cases hbase : base.text = []
    · rw [join_of_text_eq_nil hbase hchild, hchild]
      simp [isAbsolute, hbase]
    · rw [Bool.eq_iff_iff, ← lead_eq_root_iff, ← lead_eq_root_iff, lead_join hbase hchild]
  rw [placeOf, start, habsolute, steps_join base hchild, List.foldl_append]
  rfl

theorem isName_of_mem_placeOf (hdir : ∀ name ∈ disk.workDir, IsName name) {path : Path}
    {name : Text} (h : name ∈ disk.placeOf path) : IsName name := by
  rcases mem_foldl_nextPlace h with hstart | hsteps
  · unfold start at hstart
    split at hstart
    · cases hstart
    · exact hdir name hstart
  · exact isName_of_mem_steps hsteps

end Disk

namespace Config

open Pagewright.Path Work

variable {disk : Disk} {config : Config}

/-! ## Absolute paths -/

/-- The canonical path of something is the path of its place. -/
theorem canonical?_eq_some {path found : Path} (h : disk.canonical? path = some found) :
    ∃ place entry, disk.find path = .ok (place, entry) ∧ found = pathOf place := by
  unfold canonical? at h
  cases hfind : disk.find path with
  | error e =>
    rw [hfind] at h
    cases h
  | ok result =>
    rw [hfind] at h
    exact ⟨result.1, result.2, rfl, (Option.some.inj h).symm⟩

/-- What has been made absolute is so. -/
theorem isAbsolute_absolute (disk : Disk) (path : Path) :
    (absolute disk path).isAbsolute = true := by
  unfold absolute
  split
  case h_1 found hfound =>
    obtain ⟨place, -, -, rfl⟩ := canonical?_eq_some hfound
    rfl
  · split
    · assumption
    · exact isAbsolute_join rfl _

theorem holds_of_isDirectory {path : Path} (h : disk.isDirectory path = true) :
    disk.holds path = true := by
  unfold isDirectory at h
  unfold holds
  split at h
  case h_1 hfind => rw [hfind]; rfl
  · cases h

/-- The absolute form of an absolute path that leads somewhere is the path of a place. -/
theorem exists_pathOf_of_holds {path : Path} (habsolute : path.isAbsolute = true)
    (h : disk.holds (absolute disk path) = true) :
    ∃ place, absolute disk path = pathOf place ∧ ∀ name ∈ place, IsName name := by
  unfold absolute at h ⊢
  cases hcanonical : disk.canonical? path with
  | some found =>
    obtain ⟨place, entry, hfind, rfl⟩ := canonical?_eq_some hcanonical
    refine ⟨place, rfl, ?_⟩
    rw [eq_place_of_resolve habsolute (find_eq_ok_iff.1 hfind).1]
    exact fun name => isName_of_mem_place
  | none =>
    simp only [hcanonical, habsolute, if_true] at h
    rw [holds, Option.isSome_iff_exists] at h
    obtain ⟨found, hfound⟩ := h
    rw [canonical?, hfound] at hcanonical
    cases hcanonical

/-- Source and output are those of the command line, else those of the file, joined to the root. -/
theorem withInvocation_paths (disk : Disk) (config : Config) (invocation : Invocation) :
    let root := absolute disk (invocation.root.getD config.rootPath)
    (config.withInvocation disk invocation).source =
        absolute disk (root.join (invocation.source.getD config.source)) ∧
      (config.withInvocation disk invocation).output =
        absolute disk (root.join (invocation.output.getD config.output)) := by
  unfold withInvocation
  cases invocation.command <;> exact ⟨rfl, rfl⟩

/-- A configuration that is loaded has absolute directories. -/
theorem exists_paths_of_ofInvocation {invocation : Invocation}
    (h : ofInvocation disk invocation = .ok config) :
    ∃ source output : Path, source.isAbsolute = true ∧ output.isAbsolute = true ∧
      config.source = absolute disk source ∧ config.output = absolute disk output := by
  obtain ⟨read, -, h⟩ := bind_eq_ok_iff.1 h
  obtain ⟨-, -, h⟩ := bind_eq_ok_iff.1 h
  cases h
  have hroot := isAbsolute_absolute disk (invocation.root.getD read.rootPath)
  obtain ⟨hsource, houtput⟩ := withInvocation_paths disk read invocation
  exact ⟨_, _, isAbsolute_join hroot _, isAbsolute_join hroot _, hsource, houtput⟩

/-- Of a loaded configuration, the directories that are there have the paths of their places. -/
theorem exists_pathOf_of_ofInvocation {invocation : Invocation}
    (h : ofInvocation disk invocation = .ok config) :
    (disk.holds config.source = true →
        ∃ src, config.source = pathOf src ∧ ∀ name ∈ src, IsName name) ∧
      (disk.holds config.output = true →
        ∃ out, config.output = pathOf out ∧ ∀ name ∈ out, IsName name) := by
  obtain ⟨source, output, habsolute, habsolute', hsource, houtput⟩ := exists_paths_of_ofInvocation h
  rw [hsource, houtput]
  exact ⟨exists_pathOf_of_holds habsolute, exists_pathOf_of_holds habsolute'⟩

/-- The output directory of a configuration that is loaded is absolute. -/
theorem isAbsolute_output_of_ofInvocation {invocation : Invocation}
    (h : ofInvocation disk invocation = .ok config) : config.output.isAbsolute = true := by
  obtain ⟨source, output, -, -, -, houtput⟩ := exists_paths_of_ofInvocation h
  rw [houtput]
  exact isAbsolute_absolute disk output

section Places

variable (hdir : ∀ name ∈ disk.workDir, IsName name)

include hdir

/-- The absolute form of a path leads where the path leads. -/
theorem place_absolute (path : Path) : (absolute disk path).place = disk.placeOf path := by
  unfold absolute
  split
  case h_1 found hfound =>
    obtain ⟨place, entry, hfind, rfl⟩ := canonical?_eq_some hfound
    obtain rfl := eq_placeOf_of_resolve (find_eq_ok_iff.1 hfind).1
    exact place_pathOf fun name => isName_of_mem_placeOf hdir
  · split
    case isTrue habsolute => exact (placeOf_of_isAbsolute habsolute).symm
    case isFalse hrelative =>
      rw [place_join _ (by simpa using hrelative), place_pathOf hdir, placeOf, start,
        if_neg hrelative]

/-- A path that has been made absolute leads where it did, joined to another one as well. -/
theorem place_absolute_join (base child : Path) :
    (absolute disk ((absolute disk base).join child)).place = disk.placeOf (base.join child) := by
  rw [place_absolute hdir]
  cases hchild : child.isAbsolute with
  | true => rw [join, join, if_pos hchild, if_pos hchild]
  | false =>
    rw [placeOf_join _ hchild, placeOf_join _ hchild,
      placeOf_of_isAbsolute (isAbsolute_absolute disk base), place_absolute hdir]

end Places

/-! ## The path of the file -/

/-- The path of the file is taken from the root that the configuration ends up with. -/
theorem path_withInvocation (disk : Disk) (config : Config) (invocation : Invocation) :
    (config.withInvocation disk invocation).path =
      absolute disk ((absolute disk (invocation.root.getD config.rootPath)).join
        invocation.config) := by
  unfold withInvocation
  cases invocation.command <;> rfl

/-- A loaded configuration keeps an absolute path, the shortest one if something is there. It leads
to the name that the command line gives under the root that the command line or else the file sets.
So it leads to the file that was read, or looked for, unless the command line sets no root and the
file sets one that leads elsewhere. -/
theorem path_leads_iff {invocation : Invocation} (hdir : ∀ name ∈ disk.workDir, IsName name)
    (h : ofInvocation disk invocation = .ok config) :
    ∃ read, ofFile disk ((invocation.root.getD "./").join invocation.config) = .ok read ∧
      config.path.isAbsolute = true ∧
      (disk.holds config.path = true → config.path = pathOf config.path.place) ∧
      config.path.place =
        disk.placeOf ((invocation.root.getD (read.root.getD "./")).join invocation.config) ∧
      (config.path.place = disk.placeOf ((invocation.root.getD "./").join invocation.config) ↔
        (invocation.root = none → ∀ root, read.root = some root →
          disk.placeOf (root.join invocation.config) =
            disk.placeOf (("./" : Path).join invocation.config))) := by
  obtain ⟨read, hread, h⟩ := bind_eq_ok_iff.1 h
  obtain ⟨-, -, h⟩ := bind_eq_ok_iff.1 h
  cases h
  have hpath := path_withInvocation disk read invocation
  have hplace : (read.withInvocation disk invocation).path.place =
      disk.placeOf ((invocation.root.getD (read.root.getD "./")).join invocation.config) := by
    rw [hpath, place_absolute_join hdir]
    rfl
  have hroot := isAbsolute_absolute disk (invocation.root.getD read.rootPath)
  refine ⟨read, hread, ?_, fun hholds => ?_, hplace, ?_⟩
  · rw [hpath]
    exact isAbsolute_absolute disk _
  · rw [hpath] at hholds ⊢
    obtain ⟨place, heq, hnames⟩ := exists_pathOf_of_holds (isAbsolute_join hroot _) hholds
    rw [heq, place_pathOf hnames]
  · rw [hplace]
    cases invocation.root with
    | some root => simp
    | none => cases read.root <;> simp

/-- A site whose configuration file moves the root. -/
def rootedDisk : Disk :=
  { entries := [
      (["w".toList], .directory 0),
      (["w".toList, "bladerunner.toml".toList],
        .file ⟨Text.utf8 "[build]\nroot = \"sub\"\n".toList, 3⟩)]
    workDir := ["w".toList] }

def rootedConfig : Config :=
  (ofInvocation rootedDisk { command := .build {} }).toOption.get (by decide +kernel)

/-- The file that was read lies beside the directory that the configuration says it is in. -/
theorem path_leads_iff_rooted :
    ofInvocation rootedDisk { command := .build {} } = .ok rootedConfig ∧
      rootedConfig.path.place = ["w".toList, "sub".toList, "bladerunner.toml".toList] ∧
      rootedDisk.placeOf (("./" : Path).join "bladerunner.toml") =
        ["w".toList, "bladerunner.toml".toList] := by
  have hload : ofInvocation rootedDisk { command := .build {} } = .ok rootedConfig :=
    eq_ok_of_toOption (Option.some_get (by decide +kernel)).symm
  obtain ⟨read, hread, -, -, hplace, -⟩ := path_leads_iff (by decide +kernel) hload
  have hroot : read.root = some ⟨"sub"⟩ := by
    have hfile : (ofFile rootedDisk (("./" : Path).join "bladerunner.toml")).toOption.map root =
        some (some ⟨"sub"⟩) := by decide +kernel
    rw [show ofFile rootedDisk (("./" : Path).join "bladerunner.toml") = .ok read from hread]
      at hfile
    exact Option.some.inj hfile
  rw [hroot] at hplace
  exact ⟨hload, hplace.trans (by decide +kernel), by decide +kernel⟩

end Config

end Pagewright
