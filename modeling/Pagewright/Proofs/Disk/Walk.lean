import Mathlib.Data.List.Nodup
import Mathlib.Data.List.Sort
import Pagewright.Disk.Times
import Pagewright.Proofs.Disk.Writing

/-!
# Walking the disk

Walking a directory of a sound disk finds every file below it once, under the path of its place
(`Disk.mem_files_pathOf`, `Disk.nodup_files_pathOf`).
-/

namespace Pagewright

namespace Disk

open Pagewright.Path Segments

variable {disk disk' : Disk}

/-- On a sound disk every file can be reached. -/
theorem Sound.reaches (h : disk.Sound) {place : Place} {file : File}
    (hfile : disk.file? place = some file) : disk.Reaches place file := by
  have hget := file?_eq_some_iff.1 hfile
  refine ⟨hget, fun front hfront hne => ?_⟩
  obtain ⟨rest, rfl⟩ := hfront
  exact h.isDir_of_append (by simpa using hne) hget

/-! ## Paths below a place -/

/-- The path of a place is cut into the names of the place. -/
theorem parts_pathOf {place : Place} (hne : place ≠ []) (h : ∀ name ∈ place, IsName name) :
    Text.parts '/' (pathOf place).text = [] :: place :=
  (Text.parts_cons_mark _).trans
    (congrArg _ (Text.parts_intercalate hne fun name hname => (h name hname).no_slash))

/-- A path is determined by its segments. -/
theorem eq_of_parts {a b : Path} (h : Text.parts '/' a.text = Text.parts '/' b.text) : a = b := by
  have htext := congrArg (List.intercalate ['/']) h
  rw [Text.intercalate_parts, Text.intercalate_parts] at htext
  exact congrArg Path.mk htext

/-- Different places have different paths. -/
theorem pathOf_injective {place other : Place} (hplace : ∀ name ∈ place, IsName name)
    (hother : ∀ name ∈ other, IsName name) (h : pathOf place = pathOf other) : place = other := by
  rw [← place_pathOf hplace, h, place_pathOf hother]

theorem IsName.ne_nil {name : Text} (h : IsName name) : name ≠ [] :=
  (isMeant_iff.1 (isMeant_of_ofSegment? h.step)).1

section Below

variable {base names : Place} (hbase : ∀ name ∈ base, IsName name)
  (hnames : ∀ name ∈ names, IsName name) (hne : names ≠ [])

include hnames hne

theorem parts_intercalate_isName :
    Text.parts '/' (List.intercalate ['/'] names) = names :=
  Text.parts_intercalate hne fun name hname => (hnames name hname).no_slash

theorem isAbsolute_intercalate : (⟨List.intercalate ['/'] names⟩ : Path).isAbsolute = false := by
  have hparts := parts_intercalate_isName hnames hne
  cases htext : List.intercalate ['/'] names with
  | nil => rfl
  | cons c rest =>
    rw [htext] at hparts
    by_cases hc : c = '/'
    · subst hc
      rw [Text.parts_cons_mark] at hparts
      exact absurd rfl (hnames [] (hparts ▸ List.mem_cons_self)).ne_nil
    · simp [isAbsolute, hc]

include hbase

/-- A relative path of names, joined to the path of a place, is the path of a place below. -/
theorem join_pathOf :
    (pathOf base).join ⟨List.intercalate ['/'] names⟩ = pathOf (base ++ names) := by
  have hrelative := isAbsolute_intercalate hnames hne
  by_cases hroot : base = []
  · subst hroot
    rw [join, if_neg (by simp [hrelative])]
    rfl
  have hboth : ∀ name ∈ base ++ names, IsName name := fun name hname =>
    (List.mem_append.1 hname).elim (hbase name) (hnames name)
  have htext : (pathOf base).text ≠ [] := List.cons_ne_nil _ _
  obtain ⟨front, hjoin, hfront⟩ := exists_text_join htext hrelative
  have hparts : Text.parts '/' front = [] :: base := by
    rcases hfront with hfront | hfront
    · rw [← hfront, parts_pathOf hroot hbase]
    · -- The last name of `base` is not empty, so there is no slash behind it.
      have hlast := parts_pathOf hroot hbase
      rw [hfront, Text.parts_append] at hlast
      have hempty : base.getLast hroot = [] := by
        have h := congrArg List.getLast? hlast
        rw [show Text.parts '/' [] = [[]] from rfl, List.getLast?_concat, List.getLast?_cons,
          List.getLast?_eq_some_getLast hroot] at h
        exact (Option.some.inj h).symm
      exact absurd hempty (hbase _ (List.getLast_mem hroot)).ne_nil
  refine eq_of_parts ?_
  rw [hjoin, Text.parts_append, hparts, parts_intercalate_isName hnames hne,
    parts_pathOf (by simp [hne]) hboth, List.cons_append]

/-- Relative to a place, the path of one below has the names in between. -/
theorem relativeTo?_pathOf :
    (pathOf (base ++ names)).relativeTo? (pathOf base) = some ⟨List.intercalate ['/'] names⟩ := by
  have hboth : ∀ name ∈ base ++ names, IsName name := fun name hname =>
    (List.mem_append.1 hname).elim (hbase name) (hnames name)
  have hmeant : ∀ names : Place, (∀ name ∈ names, IsName name) →
      ∀ name ∈ names, isMeant name = true :=
    fun names hnames name hname => isMeant_of_ofSegment? (hnames name hname).step
  have htake : (pathOf (base ++ names)).components.take (pathOf base).components.length =
      (pathOf base).components := by
    rw [components_pathOf hboth, components_pathOf hbase, List.map_append, ← List.cons_append,
      List.take_left]
  have hsegments : (pathOf (base ++ names)).segments = ⟨.root, base ++ names⟩ :=
    congrArg (Segments.mk .root) (parts_intercalate_isName hboth (by simp [hne]))
  have hlength : (pathOf base).components.length = base.length + 1 := by
    rw [components_pathOf hbase, List.length_cons, List.length_map]
  unfold relativeTo?
  rw [if_neg (by simp [htake]), if_neg (by simp [hlength])]
  simp only [hsegments, hlength, reduceCtorEq, if_false, Nat.add_sub_cancel]
  rw [dropMeant_left (hmeant base hbase), dropWhile_not_isMeant (hmeant names hnames),
    trimRight_of_isMeant (hmeant names hnames)]
  rfl

end Below

/-! ## Files below a directory -/

/-- One place is below another when it goes on from there. -/
theorem below?_eq_some_iff {base place names : Place} :
    below? base place = some names ↔ place = base ++ names := by
  unfold below?
  constructor
  · intro h
    split at h
    case isTrue htake =>
      cases h
      exact (List.take_append_drop base.length place).symm.trans (congrArg (· ++ _) htake)
    · cases h
  · rintro rfl
    simp

/-- The files below a place are listed by the names that lead to them. -/
theorem mem_filesBelow (h : disk.Distinct) {base names : Place} {file : File} :
    (names, file) ∈ disk.filesBelow base ↔ disk.file? (base ++ names) = some file := by
  rw [file?_eq_some_iff_mem h, filesBelow, List.mem_mergeSort, List.mem_filterMap]
  constructor
  · rintro ⟨⟨place, entry⟩, hmem, hfound⟩
    simp only at hfound
    split at hfound
    case h_1 file' names' hbelow =>
      cases hfound
      rw [← below?_eq_some_iff.1 hbelow]
      exact hmem
    · cases hfound
  · intro hmem
    exact ⟨_, hmem, by simp [below?_eq_some_iff.2 rfl]⟩

/-- No file below a place is listed twice. -/
theorem nodup_filesBelow (h : disk.Distinct) (base : Place) :
    ((disk.filesBelow base).map Prod.fst).Nodup := by
  refine List.Nodup.map_on ?_ ?_
  · rintro ⟨names, file⟩ hmem ⟨names', file'⟩ hmem' hnames
    cases hnames
    rw [mem_filesBelow h] at hmem hmem'
    rw [Option.some.inj (hmem.symm.trans hmem')]
  · refine (List.mergeSort_perm _ _).nodup_iff.2 (List.Nodup.filterMap ?_ ?_)
    · rintro ⟨place, entry⟩ ⟨place', entry'⟩ ⟨names, file⟩ hfound hfound'
      simp only [Option.mem_def] at hfound hfound'
      split at hfound
      case h_1 file₁ names₁ hbelow =>
        split at hfound'
        case h_1 file₂ names₂ hbelow' =>
          cases hfound
          cases hfound'
          rw [below?_eq_some_iff.1 hbelow, below?_eq_some_iff.1 hbelow']
        · cases hfound'
      · cases hfound
    · exact ((List.nodup_cons.1 h).2).of_map

/-- A walk joins the names on its way one by one. -/
theorem foldl_join_pathOf {base names : Place} (hbase : ∀ name ∈ base, IsName name)
    (hnames : ∀ name ∈ names, IsName name) :
    names.foldl (fun path name => path.join ⟨name⟩) (pathOf base) = pathOf (base ++ names) := by
  induction names generalizing base with
  | nil => rw [List.foldl_nil, List.append_nil]
  | cons name names ih =>
    have hname : ∀ next ∈ [name], IsName next := fun next hnext =>
      hnames next (List.mem_singleton.1 hnext ▸ List.mem_cons_self)
    have hjoin : (pathOf base).join ⟨name⟩ = pathOf (base ++ [name]) := by
      simpa using join_pathOf hbase hname (List.cons_ne_nil _ _)
    rw [List.foldl_cons, hjoin, ih _ fun next hnext => hnames next (List.mem_cons_of_mem _ hnext),
      List.append_assoc, List.singleton_append]
    exact fun next hnext => (List.mem_append.1 hnext).elim (hbase next) (hname next)

/-! ## Which paths start with which -/

/-- A path that starts at the root is a lead and steps. -/
theorem lead_steps_of_root {path : Path} {base : Place}
    (h : path.components = .root :: base.map .normal) :
    path.lead = .root ∧ path.steps = base.map .normal := by
  rw [components_eq] at h
  cases hlead : path.lead with
  | root => exact ⟨rfl, by simpa [hlead] using h⟩
  | current => simp [hlead] at h
  | none =>
    have hsteps : path.steps = .root :: base.map .normal := by simpa [hlead] using h
    exact absurd (by simp [hsteps]) (root_notMem_steps path)

section StartsWith

variable {place : Place} (hplace : ∀ name ∈ place, IsName name) {path : Path}

include hplace

/-- The path of a place starts with another one by components. -/
theorem startsWith_pathOf_iff : (pathOf place).startsWith path = true ↔
    List.IsPrefix path.components (.root :: place.map .normal) := by
  rw [startsWith, decide_eq_true_iff, components_pathOf hplace, List.prefix_iff_eq_take, eq_comm]

/-- Where the path of a place starts with an absolute path, the place is at or below that of the
path. -/
theorem isPrefix_of_startsWith (habsolute : path.isAbsolute = true)
    (h : (pathOf place).startsWith path = true) : List.IsPrefix path.place place := by
  rw [startsWith_pathOf_iff hplace, components_eq, lead_eq_root_iff.2 habsolute,
    List.singleton_append, List.cons_prefix_cons, List.prefix_iff_eq_take, ← List.map_take] at h
  rw [place_of_steps h.2]
  exact List.take_prefix _ _

/-- A path of names alone starts the paths of the places below it. -/
theorem startsWith_pathOf_iff_isPrefix {base : Place}
    (hpath : path.components = .root :: base.map .normal) :
    (pathOf place).startsWith path = true ↔ List.IsPrefix path.place place := by
  obtain ⟨hlead, hsteps⟩ := lead_steps_of_root hpath
  refine ⟨isPrefix_of_startsWith hplace (lead_eq_root_iff.1 hlead), fun h => ?_⟩
  rw [startsWith_pathOf_iff hplace, hpath, List.cons_prefix_cons]
  rw [place_of_steps hsteps] at h
  exact ⟨rfl, h.map _⟩

end StartsWith

/-! ## Walks -/

/-- A directory is still found when the ones on the way to it are still there. -/
theorem exists_find_of_isDirectory (hsound : disk.Sound) {base : Place}
    (hbase : ∀ name ∈ base, IsName name) (h : disk.isDirectory (pathOf base) = true)
    (hdir : ∀ front, List.IsPrefix front base → disk.IsDir front → disk'.IsDir front) :
    ∃ modified, disk'.find (pathOf base) = .ok (base, .directory modified) := by
  obtain ⟨place, hresolve, hisDir⟩ := isDirectory_eq_true_iff.1 h
  obtain ⟨hfits, hdescends, rfl⟩ := (resolve_pathOf_eq_ok_iff hbase).1 hresolve
  obtain ⟨modified, hget⟩ := hdir place List.prefix_rfl hisDir
  have hdescends' : disk'.Descends [] place := by
    refine descends_of_isDir (fun front name hfront => ?_) hdescends.size_le
    obtain ⟨rest, rfl⟩ := hfront
    obtain ⟨_, hget'⟩ := hisDir
    rw [List.append_assoc] at hget' hdir
    exact hdir front (List.prefix_append _ _) (hsound.isDir_of_append (by simp) hget')
  exact ⟨modified, find_eq_ok_iff.2
    ⟨(resolve_pathOf_eq_ok_iff hbase).2 ⟨hfits, hdescends', rfl⟩, hget⟩⟩

section Files

variable {base : Place} {modified : Int} (hsound : disk.Sound)
  (hfind : disk.find (pathOf base) = .ok (base, .directory modified))

include hsound hfind

/-- A walk through a directory of a sound disk finds the files below it that are not to be ignored.
-/
theorem files_pathOf : disk.files (pathOf base) =
    (((disk.filesBelow base).map Prod.fst).map fun names => pathOf (base ++ names)).filter
      fun path => !isIgnored path := by
  unfold files walk
  rw [hfind]
  simp only [List.map_map]
  refine congrArg _ (List.map_congr_left fun found hfound => ?_)
  have hbase := hsound.isName (find_eq_ok_iff.1 hfind).2
  have hnames := hsound.isName (file?_eq_some_iff.1 ((mem_filesBelow hsound.distinct).1 hfound))
  exact foldl_join_pathOf hbase fun name hname => hnames name (List.mem_append_right _ hname)

/-- Walking a directory finds the files below it. -/
theorem mem_files_pathOf {path : Path} : path ∈ disk.files (pathOf base) ↔
    ∃ names file, disk.file? (base ++ names) = some file ∧ path = pathOf (base ++ names) ∧
      isIgnored path = false := by
  rw [files_pathOf hsound hfind, List.map_map, List.mem_filter, List.mem_map]
  constructor
  · rintro ⟨⟨⟨names, file⟩, hfound, rfl⟩, hignored⟩
    exact ⟨names, file, (mem_filesBelow hsound.distinct).1 hfound, rfl, by simpa using hignored⟩
  · rintro ⟨names, file, hfile, rfl, hignored⟩
    exact ⟨⟨(names, file), (mem_filesBelow hsound.distinct).2 hfile, rfl⟩, by simp [hignored]⟩

/-- Walking a directory finds nothing twice. -/
theorem nodup_files_pathOf : (disk.files (pathOf base)).Nodup := by
  rw [files_pathOf hsound hfind]
  refine ((nodup_filesBelow hsound.distinct base).map_on ?_).filter _
  have hisName' : ∀ names ∈ (disk.filesBelow base).map Prod.fst,
      ∀ name ∈ base ++ names, IsName name := by
    intro names hnames
    obtain ⟨⟨_, file⟩, hfound, rfl⟩ := List.mem_map.1 hnames
    exact hsound.isName (file?_eq_some_iff.1 ((mem_filesBelow hsound.distinct).1 hfound))
  intro names hnames names' hnames' hpath
  exact List.append_cancel_left
    (pathOf_injective (hisName' names hnames) (hisName' names' hnames') hpath)

end Files

/-- Joining names one by one adds them to the components. -/
theorem foldl_join_of_isName {names : Place} (hnames : ∀ name ∈ names, IsName name) {path : Path}
    (hpath : path.text ≠ []) :
    (names.foldl (fun path name => path.join ⟨name⟩) path).components =
      path.components ++ names.map .normal := by
  induction names generalizing path with
  | nil => exact (List.append_nil _).symm
  | cons name names ih =>
    obtain ⟨hname, hrest⟩ := List.forall_mem_cons.1 hnames
    have hrelative := isAbsolute_name hname.no_slash
    have hsteps : (⟨name⟩ : Path).steps = [.normal name] := by
      rw [steps_name hname.no_slash, hname.step]
      rfl
    rw [List.foldl_cons, ih hrest (text_join_ne_nil hpath _), components_eq (path.join _),
      lead_join hpath hrelative, steps_join path hrelative, hsteps, ← List.append_assoc,
      ← components_eq, List.append_assoc]
    rfl

/-- The files below a directory have paths that start with the path of the directory. -/
theorem exists_names_of_mem_files (hsound : disk.Sound) {base path : Path}
    (habsolute : base.isAbsolute = true) (hdir : disk.IsDir base.place)
    (h : path ∈ disk.files base) :
    ∃ names : Place, names ≠ [] ∧ path.components = base.components ++ names.map .normal := by
  obtain ⟨hmem, -⟩ := List.mem_filter.1 h
  obtain ⟨⟨_, file⟩, hwalk, rfl⟩ := List.mem_map.1 hmem
  unfold walk at hwalk
  split at hwalk
  · cases hwalk
  case h_2 place file' hfind =>
    obtain ⟨hresolve, hget⟩ := find_eq_ok_iff.1 hfind
    obtain rfl := eq_place_of_resolve habsolute hresolve
    obtain ⟨modified, hget'⟩ := hdir
    cases hget.symm.trans hget'
  case h_3 place modified hfind =>
    obtain ⟨hresolve, hget⟩ := find_eq_ok_iff.1 hfind
    obtain ⟨⟨names, file'⟩, hfound, hpath⟩ := List.mem_map.1 hwalk
    cases hpath
    have hfile := (mem_filesBelow hsound.distinct).1 hfound
    have hnames := hsound.isName (file?_eq_some_iff.1 hfile)
    refine ⟨names, ?_, foldl_join_of_isName
      (fun name hname => hnames name (List.mem_append_right _ hname))
      (text_ne_nil_of_isAbsolute habsolute)⟩
    rintro rfl
    rw [List.append_nil, file?_eq_none_of_isDir ⟨modified, hget⟩] at hfile
    cases hfile

end Disk

end Pagewright
