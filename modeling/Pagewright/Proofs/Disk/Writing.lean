import Pagewright.Proofs.Disk.Creation

/-!
# Writing files below a directory

Writing a file after making the directory around it has the same effect for every file below an open
directory `base` (`Disk.Puts`): the file is there with its new bytes, the directories on the way are
there, and nothing else changes. It succeeds exactly when no file is in the way and no directory is
in the file's place (`Disk.Free`), provided that names and path are not too long
(`Disk.puts_of_write`, `Disk.exists_write`). Copying a file that lies somewhere else comes to the
same (`Disk.puts_of_copy`, `Disk.exists_copy`).
-/

namespace Pagewright

namespace Disk

open Pagewright.Path Segments

/-- Nothing is in the way of a file that is to be written at `base ++ names`. -/
structure Free (disk : Disk) (base names : Place) : Prop where
  clear : ∀ front, List.IsPrefix front names → front ≠ names → disk.file? (base ++ front) = none
  not_isDir : ¬disk.IsDir (base ++ names)

/-- The effect of writing a file at `base ++ names`. -/
structure Puts (base names : Place) (bytes : List UInt8) (disk disk' : Disk) : Prop where
  self : disk'.get? (base ++ names) = some (.file ⟨bytes, disk.now⟩)
  keeps : ∀ place entry, place ≠ base ++ names → disk.get? place = some entry →
    disk'.get? place = some entry
  adds : ∀ place entry, place ≠ base ++ names → disk'.get? place = some entry →
    disk.get? place = some entry ∨
      (∃ front, List.IsPrefix front names ∧ place = base ++ front) ∧
        ∃ modified, entry = .directory modified
  dirs : ∀ front, List.IsPrefix front names → front ≠ names → disk'.IsDir (base ++ front)
  now_eq : disk'.now = disk.now

variable {disk disk' : Disk}

theorem file?_eq_none_of_isDir {place : Place} (h : disk.IsDir place) :
    disk.file? place = none := by
  obtain ⟨modified, hget⟩ := h
  rw [file?, hget]

theorem isPrefix_of_ne_concat {front dirs : Place} {name : Text}
    (h : List.IsPrefix front (dirs ++ [name])) (hne : front ≠ dirs ++ [name]) :
    List.IsPrefix front dirs :=
  (List.prefix_concat_iff.1 h).resolve_left hne

theorem ne_concat_of_isPrefix {front dirs : Place} {name : Text} (h : List.IsPrefix front dirs) :
    front ≠ dirs ++ [name] := by
  rintro rfl
  exact absurd h.length_le (by simp)

/-- When directories on the way have been added and then the file is set, the file has been put. -/
theorem puts_of_set {base names : Place} {new : Place → Prop} (hadds : Adds new disk disk')
    (hnew : ∀ place, new place → ∃ front, List.IsPrefix front names ∧ place = base ++ front)
    (hdirs : ∀ front, List.IsPrefix front names → front ≠ names → disk'.IsDir (base ++ front))
    (hne : base ++ names ≠ []) (bytes : List UInt8) :
    Puts base names bytes disk
      (disk'.set (base ++ names) (.file { bytes, modified := disk'.now })) := by
  have hget : ∀ place, place ≠ base ++ names →
      (disk'.set (base ++ names) (.file { bytes, modified := disk'.now })).get? place =
        disk'.get? place := fun place h => get?_set_of_ne h _ _
  refine ⟨?_, fun place entry h hentry => ?_, fun place entry h hentry => ?_,
    fun front hfront h => ?_,
    hadds.now_eq⟩
  · rw [get?_set_self hne, hadds.now_eq]
  · rw [hget place h]
    exact hadds.keeps place entry hentry
  · rw [hget place h] at hentry
    exact (hadds.adds place entry hentry).imp_right fun h => ⟨hnew place h.1, h.2⟩
  · obtain ⟨modified, hdir⟩ := hdirs front hfront h
    exact ⟨modified, (hget _ (by simpa using h)).trans hdir⟩

/-- Writing succeeds where the path leads to a place that is no directory, and sets that place
alone. -/
theorem write_eq_ok_iff {target : Path} {bytes : List UInt8} :
    disk.write target bytes = .ok disk' ↔ ∃ place, disk.resolve target = .ok place ∧
      ¬disk.IsDir place ∧ disk' = disk.set place (.file { bytes, modified := disk.now }) := by
  unfold write IsDir
  rw [bind_eq_ok_iff]
  refine exists_congr fun place => and_congr_right fun _ => ?_
  cases hget : disk.get? place with
  | none => simp [pure, Except.pure, eq_comm]
  | some entry =>
    cases entry with
    | file file => simp [pure, Except.pure, eq_comm]
    | directory modified => simp [throw, throwThe, MonadExceptOf.throw]

/-- Writing keeps a disk sound. -/
theorem Sound.write (h : disk.Sound) {target : Path} (habsolute : target.isAbsolute = true)
    {bytes : List UInt8} (hwrite : disk.write target bytes = .ok disk') : disk'.Sound := by
  obtain ⟨place, hresolve, hnot, rfl⟩ := write_eq_ok_iff.1 hwrite
  obtain rfl := eq_place_of_resolve habsolute hresolve
  rcases h.isDir_or_exists isDir_root (foldlM_follow_of_resolve habsolute hresolve) with
    hdir | ⟨dir, name, hplace, hname, hdir⟩
  · exact absurd hdir hnot
  · rw [hplace] at hnot ⊢
    exact h.set hname hdir (.inr hnot)

/-- Writing a file changes no other file, and no directory. -/
theorem file?_write {target : Path} (habsolute : target.isAbsolute = true) {bytes : List UInt8}
    (hwrite : disk.write target bytes = .ok disk') {place : Place}
    (hplace : place ≠ target.place ∨ disk.IsDir place) : disk'.file? place = disk.file? place := by
  obtain ⟨written, hresolve, hnot, rfl⟩ := write_eq_ok_iff.1 hwrite
  obtain rfl := eq_place_of_resolve habsolute hresolve
  have hne : place ≠ target.place := hplace.elim id fun hdir heq => hnot (heq ▸ hdir)
  rw [file?, get?_set_of_ne hne, file?]

/-- No directory goes when a file is written. -/
theorem isDir_write {target : Path} {bytes : List UInt8}
    (hwrite : disk.write target bytes = .ok disk') {place : Place} (hdir : disk.IsDir place) :
    disk'.IsDir place := by
  obtain ⟨written, -, hnot, rfl⟩ := write_eq_ok_iff.1 hwrite
  obtain ⟨modified, hget⟩ := hdir
  have hne : place ≠ written := by
    rintro rfl
    exact hnot ⟨modified, hget⟩
  exact ⟨modified, (get?_set_of_ne hne _ _).trans hget⟩

/-- Make the directory of a path. -/
def parented (disk : Disk) (target : Path) : Except Error Disk :=
  match target.parent? with
  | some parent => disk.createAll parent
  | none => .ok disk

/-- Making the parents of a file adds directories. -/
theorem adds_of_parented {target : Path} (habsolute : target.isAbsolute = true)
    (h : disk.parented target = .ok disk') : Adds (fun _ => True) disk disk' := by
  unfold parented at h
  split at h
  case h_1 parent hparent =>
    exact (adds_of_createAll (isAbsolute_of_parent? habsolute hparent) h).1
  · cases h
    exact Adds.refl _ _

section Below

variable {base : Path} (hbase : base.steps ≠ []) (hopens : disk.Opens base) {target : Path}
  (habsolute : target.isAbsolute = true) (htight : target.Tight) {dirs : Place} {name : Text}
  (hsteps : target.steps = base.steps ++ (dirs ++ [name]).map .normal)

include hbase habsolute hsteps

/-- The parents of a file are made by making the directory that it is in. -/
theorem exists_parented (hfits : target.Fits) : ∃ dir, ∃ fuel, dir.isAbsolute = true ∧ dir.Tight ∧
    dir.Fits ∧ dir.steps = base.steps ++ dirs.map .normal ∧ dirs.length < fuel ∧
    ∀ disk : Disk, disk.parented target = createFrom fuel disk dir := by
  have hdropLast : target.steps.dropLast = base.steps ++ dirs.map .normal := by
    rw [hsteps, List.map_append, ← List.append_assoc]
    exact List.dropLast_concat
  obtain ⟨dir, hparent, habsolute', htight', hfits', hsteps'⟩ :=
    exists_parent?_of_isAbsolute habsolute hfits (by simp [hdropLast, hbase])
  rw [hdropLast] at hsteps'
  refine ⟨dir, dir.components.length + 1, habsolute', htight', hfits', hsteps', ?_, ?_⟩
  · rw [components_eq, List.length_append, hsteps', List.length_append, List.length_map]
    omega
  · intro disk
    have htext : dir.text ≠ [] := text_ne_nil_of_steps htight'.steps_ne_nil
    rw [parented, hparent]
    exact if_neg htext

include hopens

/-- When the directory is made and the file is written, nothing was in the way. -/
theorem puts_of_write {between : Disk} (hbetween : disk.parented target = .ok between)
    {bytes : List UInt8} (hwrite : between.write target bytes = .ok disk') :
    target.Fits ∧ (∀ next ∈ dirs ++ [name], next.byteSize ≤ maxName) ∧
      disk.Free base.place (dirs ++ [name]) ∧
      Puts base.place (dirs ++ [name]) bytes disk disk' := by
  obtain ⟨place, hresolve, hdir, rfl⟩ := write_eq_ok_iff.1 hwrite
  have hfits := fits_of_resolve hresolve
  obtain ⟨dir, fuel, habsolute', htight', hfits', hsteps', hfuel, hparented⟩ :=
    exists_parented hbase habsolute hsteps hfits
  rw [hparented] at hbetween
  have hgrows := (makes_of_createFrom hbetween).adds
  have hleads := foldlM_follow_of_resolve habsolute hresolve
  rw [foldlM_follow_below (hopens.mono fun _ => hgrows.isDir) hsteps, foldlM_follow_normal]
    at hleads
  obtain ⟨hdescends, rfl⟩ := hleads
  have hsize := hdescends.size_le
  have hclear : ∀ front, List.IsPrefix front dirs → disk.file? (base.place ++ front) = none := by
    intro front hfront
    rw [← hgrows.file?]
    exact file?_eq_none_of_isDir (hdescends.isDir hfront)
  -- The directories that were made are the ones on the way: making them is a function.
  obtain ⟨made, hmade, hadds, hdirs⟩ := createFrom_of_clear hbase hopens
    (fun next hnext => hsize next (List.mem_append_left _ hnext)) hclear habsolute' htight' hfits'
    hsteps' hfuel
  obtain rfl : between = made := Except.ok.inj (hbetween.symm.trans hmade)
  refine ⟨hfits, hsize, ⟨fun front hfront hne => ?_, fun h => hdir (hgrows.isDir h)⟩,
    puts_of_set hadds (fun place hplace => ?_) (fun front hfront hne => ?_) (by simp) bytes⟩
  · exact hclear front (isPrefix_of_ne_concat hfront hne)
  · obtain ⟨front, hfront, hplace⟩ := hplace
    exact ⟨front, hfront.trans (List.prefix_append _ _), hplace⟩
  · exact hdirs front (isPrefix_of_ne_concat hfront hne)

include htight

/-- When nothing is in the way, the directory can be made, and the path leads to a place for the
file. -/
theorem exists_resolve_of_free (hfits : target.Fits)
    (hsize : ∀ next ∈ dirs ++ [name], next.byteSize ≤ maxName)
    (hfree : disk.Free base.place (dirs ++ [name])) :
    ∃ between, disk.parented target = .ok between ∧
      between.resolve target = .ok (base.place ++ (dirs ++ [name])) ∧
      ¬between.IsDir (base.place ++ (dirs ++ [name])) := by
  obtain ⟨dir, fuel, habsolute', htight', hfits', hsteps', hfuel, hparented⟩ :=
    exists_parented hbase habsolute hsteps hfits
  obtain ⟨between, hbetween, hadds, hdirs⟩ := createFrom_of_clear hbase hopens
    (fun next hnext => hsize next (List.mem_append_left _ hnext))
    (fun front hfront => hfree.clear front (hfront.trans (List.prefix_append _ _))
      (ne_concat_of_isPrefix hfront)) habsolute' htight' hfits' hsteps' hfuel
  refine ⟨between, (hparented disk).trans hbetween, ?_, ?_⟩
  · rw [resolve_of_tight habsolute htight hfits,
      foldlM_follow_below (hopens.mono fun _ => hadds.isDir) hsteps, foldlM_follow_normal]
    exact ⟨descends_of_isDir (fun front next h => hdirs front (isPrefix_of_concat h)) hsize, rfl⟩
  · rintro ⟨modified, hget⟩
    rcases hadds.adds _ _ hget with hget | ⟨⟨front, hfront, hplace⟩, -⟩
    · exact hfree.not_isDir ⟨modified, hget⟩
    · exact ne_concat_of_isPrefix hfront (List.append_cancel_left hplace).symm

/-- When nothing is in the way, the directory can be made and the file can be written. -/
theorem exists_write (hfits : target.Fits)
    (hsize : ∀ next ∈ dirs ++ [name], next.byteSize ≤ maxName)
    (hfree : disk.Free base.place (dirs ++ [name])) (bytes : List UInt8) :
    ∃ between disk', disk.parented target = .ok between ∧
      between.write target bytes = .ok disk' := by
  obtain ⟨between, hbetween, hresolve, hdir⟩ := exists_resolve_of_free hbase hopens habsolute htight
    hsteps hfits hsize hfree
  exact ⟨between, _, hbetween, write_eq_ok_iff.2 ⟨_, hresolve, hdir, rfl⟩⟩

end Below

/-! ## Copying -/

/-- There is a file at a place, and directories lead to it. -/
structure Reaches (disk : Disk) (place : Place) (file : File) : Prop where
  get : disk.get? place = some (.file file)
  dirs : ∀ front, List.IsPrefix front place → front ≠ place → disk.IsDir front

/-- A place that the disk can be asked for. -/
structure Askable (place : Place) : Prop where
  fits : (pathOf place).Fits
  size_le : ∀ name ∈ place, name.byteSize ≤ maxName

/-- What is found is what stands where the path leads. -/
theorem find_eq_ok_iff {path : Path} {place : Place} {entry : Entry} :
    disk.find path = .ok (place, entry) ↔
      disk.resolve path = .ok place ∧ disk.get? place = some entry := by
  unfold find
  rw [bind_eq_ok_iff]
  constructor
  · rintro ⟨found, hfound, h⟩
    cases hget : disk.get? found with
    | none => simp [hget, throw, throwThe, MonadExceptOf.throw] at h
    | some other =>
      simp only [hget, pure, Except.pure, Except.ok.injEq, Prod.mk.injEq] at h
      obtain ⟨rfl, rfl⟩ := h
      exact ⟨hfound, hget⟩
  · rintro ⟨hresolve, hget⟩
    refine ⟨place, hresolve, ?_⟩
    rw [hget]
    rfl

/-- The path of a file that can be reached leads to it, unless it is too long to be asked for. -/
theorem Reaches.resolve_iff {place : Place} {file : File} (h : disk.Reaches place file)
    (hnames : ∀ name ∈ place, IsName name) :
    disk.resolve (pathOf place) = .ok place ↔ Askable place := by
  rw [resolve_pathOf_eq_ok_iff hnames]
  constructor
  · rintro ⟨hfits, hdescends, -⟩
    exact ⟨hfits, hdescends.size_le⟩
  · rintro ⟨hfits, hsize⟩
    refine ⟨hfits, descends_of_isDir (fun front name hfront => ?_) hsize, rfl⟩
    refine h.dirs front ((List.prefix_append _ _).trans hfront) ?_
    rintro rfl
    exact ne_concat_of_isPrefix hfront rfl

/-- The file that a path leads to can be found when the path is not too long. -/
theorem Reaches.find_iff {place : Place} {file : File} (h : disk.Reaches place file)
    (hnames : ∀ name ∈ place, IsName name) {found : Place × Entry} :
    disk.find (pathOf place) = .ok found ↔ Askable place ∧ found = (place, .file file) := by
  obtain ⟨target, entry⟩ := found
  rw [find_eq_ok_iff, ← h.resolve_iff hnames]
  constructor
  · rintro ⟨hresolve, hget⟩
    obtain rfl : target = place := (eq_place_of_resolve rfl hresolve).trans (place_pathOf hnames)
    rw [h.get] at hget
    cases hget
    exact ⟨hresolve, rfl⟩
  · rintro ⟨hresolve, hfound⟩
    cases hfound
    exact ⟨hresolve, h.get⟩

theorem Reaches.file? {place : Place} {file : File} (h : disk.Reaches place file) :
    disk.file? place = some file :=
  file?_eq_some_iff.2 h.get

/-- A file can still be reached when it and the directories are still there. -/
theorem Reaches.mono {place : Place} {file : File} (h : disk.Reaches place file)
    (hdir : ∀ other, disk.IsDir other → disk'.IsDir other)
    (hfile : disk'.file? place = disk.file? place) : disk'.Reaches place file :=
  ⟨file?_eq_some_iff.1 (hfile.trans h.file?),
    fun front hfront hne => hdir front (h.dirs front hfront hne)⟩

/-- A file that is set where no directory stands leaves all directories there. -/
theorem isDir_set_file {place other : Place} {file : File} (hplace : ¬disk.IsDir place)
    (h : disk.IsDir other) : (disk.set place (.file file)).IsDir other := by
  obtain ⟨modified, hget⟩ := h
  have hne : other ≠ place := by
    rintro rfl
    exact hplace ⟨modified, hget⟩
  exact ⟨modified, (get?_set_of_ne hne _ _).trans hget⟩

/-- A file that is found reads as its bytes. -/
theorem read_of_find {path : Path} {place : Place} {file : File}
    (h : disk.find path = .ok (place, .file file)) : disk.read path = .ok file.bytes := by
  rw [read, h]
  rfl

/-- A copy empties the target, reads the source, and then writes the target. -/
theorem copy_eq_ok_iff {source target : Path} {place : Place} {file : File}
    (h : disk.find source = .ok (place, .file file)) :
    disk.copy source target = .ok disk' ↔ ∃ emptied bytes, disk.write target [] = .ok emptied ∧
      emptied.read source = .ok bytes ∧ emptied.write target bytes = .ok disk' := by
  have hcopy : disk.copy source target = disk.write target [] >>= fun emptied =>
      emptied.read source >>= fun bytes => emptied.write target bytes := by
    rw [copy, h]
    rfl
  simp [hcopy, bind_eq_ok_iff]

/-- Copying a file is writing its target, twice. -/
theorem exists_write_of_copy {source target : Path} (h : disk.copy source target = .ok disk') :
    ∃ emptied bytes, disk.write target [] = .ok emptied ∧
      emptied.write target bytes = .ok disk' := by
  obtain ⟨⟨place, entry⟩, hfind, hrest⟩ := bind_eq_ok_iff.1 h
  cases entry with
  | directory modified => cases hrest
  | file file =>
    obtain ⟨emptied, bytes, hempty, -, hwrite⟩ := (copy_eq_ok_iff hfind).1 h
    exact ⟨emptied, bytes, hempty, hwrite⟩

/-- A file that has been put can be written again. -/
theorem Puts.overwrite {base names : Place} {bytes : List UInt8}
    (h : Puts base names bytes disk disk')
    (hne : base ++ names ≠ []) (other : List UInt8) :
    Puts base names other disk
      (disk'.set (base ++ names) (.file { bytes := other, modified := disk'.now })) := by
  refine ⟨?_, fun place entry hplace hget => ?_, fun place entry hplace hget => ?_,
    fun front hfront hfront' => ?_, h.now_eq⟩
  · rw [get?_set_self hne, h.now_eq]
  · exact (get?_set_of_ne hplace _ _).trans (h.keeps place entry hplace hget)
  · exact h.adds place entry hplace ((get?_set_of_ne hplace _ _).symm.trans hget)
  · obtain ⟨modified, hdir⟩ := h.dirs front hfront hfront'
    exact ⟨modified, (get?_set_of_ne (by simpa using hfront') _ _).trans hdir⟩

/-- A file can still be reached when another one has been written. -/
theorem Reaches.write {place : Place} {file : File} (h : disk.Reaches place file) {target : Path}
    (hother : place ≠ target.place) (habsolute : target.isAbsolute = true) {bytes : List UInt8}
    (hwrite : disk.write target bytes = .ok disk') : disk'.Reaches place file := by
  obtain ⟨written, hresolve, hdir, rfl⟩ := write_eq_ok_iff.1 hwrite
  obtain rfl : written = target.place := eq_place_of_resolve habsolute hresolve
  refine h.mono (fun _ => isDir_set_file hdir) ?_
  rw [Disk.file?, get?_set_of_ne hother, Disk.file?]

/-- What has been written can be written again. -/
theorem exists_write_again {target : Path} (habsolute : target.isAbsolute = true)
    (htight : target.Tight) {bytes : List UInt8} (h : disk.write target bytes = .ok disk')
    (other : List UInt8) : ∃ disk'', disk'.write target other = .ok disk'' := by
  obtain ⟨place, hresolve, hdir, hset⟩ := write_eq_ok_iff.1 h
  obtain ⟨hfits, hleads⟩ := (resolve_eq_ok_iff habsolute htight).1 hresolve
  have hdirs : ∀ other, disk.IsDir other → disk'.IsDir other := by
    intro other hother
    rw [hset]
    exact isDir_set_file hdir hother
  have hresolve' : disk'.resolve target = .ok place :=
    (resolve_eq_ok_iff habsolute htight).2 ⟨hfits, foldlM_follow_mono hdirs hleads⟩
  refine ⟨_, write_eq_ok_iff.2 ⟨place, hresolve', ?_, rfl⟩⟩
  rintro ⟨modified, hget⟩
  have hne : place ≠ [] := by
    rintro rfl
    exact hdir isDir_root
  rw [hset, get?_set_self hne] at hget
  cases hget

section Copying

variable {base : Path} (hbase : base.steps ≠ []) (hopens : disk.Opens base) {target : Path}
  (habsolute : target.isAbsolute = true) (htight : target.Tight) {dirs : Place} {name : Text}
  (hsteps : target.steps = base.steps ++ (dirs ++ [name]).map .normal)
  {source : Place} {file : File} (hsource : disk.Reaches source file)
  (hnames : ∀ next ∈ source, IsName next) (hother : source ≠ base.place ++ (dirs ++ [name]))

include hbase hopens habsolute hsteps hsource hnames hother

/-- A copy that succeeds puts the bytes of the source, and it could be made. -/
theorem puts_of_copy {between : Disk} (hbetween : disk.parented target = .ok between)
    (hcopy : between.copy (pathOf source) target = .ok disk') :
    Askable source ∧ target.Fits ∧ (∀ next ∈ dirs ++ [name], next.byteSize ≤ maxName) ∧
      disk.Free base.place (dirs ++ [name]) ∧
      Puts base.place (dirs ++ [name]) file.bytes disk disk' := by
  have hadds := adds_of_parented habsolute hbetween
  have hreaches : between.Reaches source file :=
    hsource.mono (fun _ => hadds.isDir) (hadds.file? _)
  obtain ⟨found, hfound, -⟩ := bind_eq_ok_iff.1 hcopy
  obtain ⟨haskable, rfl⟩ := (hreaches.find_iff hnames).1 hfound
  obtain ⟨emptied, bytes, hwrite, hread, hcopied⟩ := (copy_eq_ok_iff hfound).1 hcopy
  obtain ⟨hfits, hsize, hfree, hputs⟩ :=
    puts_of_write hbase hopens habsolute hsteps hbetween hwrite
  -- The target is not the source, so that the source still has its bytes.
  have hemptied := hreaches.write (place_below hsteps ▸ hother) habsolute hwrite
  rw [read_of_find ((hemptied.find_iff hnames).2 ⟨haskable, rfl⟩)] at hread
  cases hread
  obtain ⟨place, hresolve, -, rfl⟩ := write_eq_ok_iff.1 hcopied
  obtain rfl : place = base.place ++ (dirs ++ [name]) :=
    (eq_place_of_resolve habsolute hresolve).trans (place_below hsteps)
  exact ⟨haskable, hfits, hsize, hfree, hputs.overwrite (by simp) file.bytes⟩

include htight

/-- A copy succeeds when nothing is in its way and no path is too long. -/
theorem exists_copy (haskable : Askable source) (hfits : target.Fits)
    (hsize : ∀ next ∈ dirs ++ [name], next.byteSize ≤ maxName)
    (hfree : disk.Free base.place (dirs ++ [name])) :
    ∃ between disk', disk.parented target = .ok between ∧
      between.copy (pathOf source) target = .ok disk' := by
  obtain ⟨between, emptied, hbetween, hwrite⟩ :=
    exists_write hbase hopens habsolute htight hsteps hfits hsize hfree []
  have hadds := adds_of_parented habsolute hbetween
  have hreaches : between.Reaches source file :=
    hsource.mono (fun _ => hadds.isDir) (hadds.file? _)
  have hemptied := hreaches.write (place_below hsteps ▸ hother) habsolute hwrite
  have hread := read_of_find ((hemptied.find_iff hnames).2 ⟨haskable, rfl⟩)
  obtain ⟨disk', hcopied⟩ := exists_write_again habsolute htight hwrite file.bytes
  exact ⟨between, disk', hbetween,
    (copy_eq_ok_iff ((hreaches.find_iff hnames).2 ⟨haskable, rfl⟩)).2
      ⟨emptied, file.bytes, hwrite, hread, hcopied⟩⟩

end Copying

/-! ## One file after another -/

section After

variable {base names other place : Place} {bytes : List UInt8} {start : Disk}

/-- Other files are what they were when one is put. -/
theorem Puts.file?_of_ne (h : Puts base names bytes disk disk') (hne : place ≠ base ++ names) :
    disk'.file? place = disk.file? place := by
  refine Option.ext fun file => ?_
  rw [file?_eq_some_iff, file?_eq_some_iff]
  refine ⟨fun hget => ?_, h.keeps place _ hne⟩
  rcases h.adds place _ hne hget with hget | ⟨-, modified, hentry⟩
  · exact hget
  · cases hentry

/-- Directories are there when a file has been put. -/
theorem Puts.isDir (h : Puts base names bytes disk disk') (hnot : ¬disk.IsDir (base ++ names))
    (hdir : disk.IsDir place) : disk'.IsDir place := by
  obtain ⟨modified, hget⟩ := hdir
  refine ⟨modified, h.keeps place _ ?_ hget⟩
  rintro rfl
  exact hnot ⟨modified, hget⟩

/-- Neither of two files lies where the other one needs a directory, nor in its place. -/
def Apart (a b : Place) : Prop :=
  ¬List.IsPrefix a b ∧ ¬List.IsPrefix b a

theorem Apart.symm {a b : Place} (h : Apart a b) : Apart b a :=
  And.symm h

/-- Writing a file is in the way of another one exactly when the two are not apart. -/
theorem Puts.free_iff (h : Puts base names bytes disk disk') (hne : other ≠ names) :
    disk'.Free base other ↔ disk.Free base other ∧ Apart names other := by
  have hplace : ∀ {front : Place}, front ≠ names → base ++ front ≠ base ++ names :=
    fun hfront heq => hfront (List.append_cancel_left heq)
  constructor
  · intro hfree
    have hnames : ¬List.IsPrefix names other := fun hnames => by
      have hfile := hfree.clear names hnames hne.symm
      rw [file?_eq_some_iff.2 h.self] at hfile
      cases hfile
    refine ⟨⟨fun front hfront hother => ?_, fun hdir => ?_⟩, hnames, fun hother => ?_⟩
    · have hfront' : front ≠ names := fun heq => hnames (heq ▸ hfront)
      rw [← h.file?_of_ne (hplace hfront')]
      exact hfree.clear front hfront hother
    · obtain ⟨modified, hget⟩ := hdir
      exact hfree.not_isDir ⟨modified, h.keeps _ _ (hplace hne) hget⟩
    · exact hfree.not_isDir (h.dirs other hother hne)
  · rintro ⟨hfree, hnames, hother⟩
    refine ⟨fun front hfront hne' => ?_, fun hdir => ?_⟩
    · have hfront' : front ≠ names := fun heq => hnames (heq ▸ hfront)
      rw [h.file?_of_ne (hplace hfront')]
      exact hfree.clear front hfront hne'
    · obtain ⟨modified, hget⟩ := hdir
      rcases h.adds _ _ (hplace hne) hget with hget | ⟨⟨front, hfront, heq⟩, -⟩
      · exact hfree.not_isDir ⟨modified, hget⟩
      · exact hother (List.append_cancel_left heq ▸ hfront)

/-- The files outside of `base` are as they were at the start, and no directory is gone. -/
structure Kept (base : Place) (start disk : Disk) : Prop where
  outside : ∀ place, ¬List.IsPrefix base place → disk.file? place = start.file? place
  isDir : ∀ place, start.IsDir place → disk.IsDir place

theorem Kept.refl (base : Place) (disk : Disk) : Kept base disk disk :=
  ⟨fun _ _ => rfl, fun _ h => h⟩

/-- What is kept is kept when directories are added. -/
theorem Kept.adds (h : Kept base start disk) {new : Place → Prop} (hadds : Adds new disk disk') :
    Kept base start disk' :=
  ⟨fun place hplace => (hadds.file? place).trans (h.outside place hplace),
    fun place hdir => hadds.isDir (h.isDir place hdir)⟩

/-- What is kept is kept when a file is put below. -/
theorem Kept.puts (h : Kept base start disk) (hfree : disk.Free base names)
    (hputs : Puts base names bytes disk disk') : Kept base start disk' := by
  refine ⟨fun place hplace => ?_, fun place hdir => hputs.isDir hfree.not_isDir (h.isDir _ hdir)⟩
  have hbelow : place ≠ base ++ names := fun heq => hplace (heq ▸ List.prefix_append base names)
  rw [hputs.file?_of_ne hbelow, h.outside place hplace]

/-- Files outside can be reached as they could before. -/
theorem Kept.reaches (h : Kept base start disk) {file : File} (hreaches : start.Reaches place file)
    (hplace : ¬List.IsPrefix base place) : disk.Reaches place file :=
  hreaches.mono h.isDir (h.outside place hplace)

end After

end Disk

end Pagewright
