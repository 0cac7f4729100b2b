import Pagewright.Proofs.Disk.Writing

/-!
# Reading back

Making directories and writing files never takes anything away: what is a directory stays one, and
what is a file stays one and keeps its bytes unless it is written itself (`Disk.Grows`). So a path
that leads to a file goes on doing so, wherever it starts from. What has been written can be read
again (`Disk.read_of_write`), and a copy has what its source has (`Disk.read_of_copy`).
-/

namespace Pagewright

namespace Disk

/-- Nothing goes away between two disks, and no file changes but those that are `written`. -/
structure Grows (written : Place → Prop) (disk disk' : Disk) : Prop where
  workDir_eq : disk'.workDir = disk.workDir
  isDir : ∀ place, disk.IsDir place → disk'.IsDir place
  file : ∀ place file, disk.get? place = some (.file file) →
    ∃ file', disk'.get? place = some (.file file') ∧ (written place ∨ file' = file)

variable {written : Place → Prop} {disk disk' disk'' : Disk} {path target : Path}

theorem Grows.refl (written : Place → Prop) (disk : Disk) : Grows written disk disk :=
  ⟨rfl, fun _ h => h, fun _ file h => ⟨file, h, .inr rfl⟩⟩

/-- A disk that has grown twice has grown. -/
theorem Grows.trans (h : Grows written disk disk') (h' : Grows written disk' disk'') :
    Grows written disk disk'' := by
  refine ⟨h'.workDir_eq.trans h.workDir_eq, fun place hdir => h'.isDir place (h.isDir place hdir),
    fun place file hfile => ?_⟩
  obtain ⟨file', hfile', hsame⟩ := h.file place file hfile
  obtain ⟨file'', hfile'', hsame'⟩ := h'.file place file' hfile'
  refine ⟨file'', hfile'', ?_⟩
  rcases hsame with hwritten | rfl
  · exact .inl hwritten
  · exact hsame'

/-- It may be said of more places that they have been written. -/
theorem Grows.mono {written' : Place → Prop} (h : Grows written disk disk')
    (hwritten : ∀ place, written place → written' place) : Grows written' disk disk' := by
  refine ⟨h.workDir_eq, h.isDir, fun place file hfile => ?_⟩
  obtain ⟨file', hfile', hsame⟩ := h.file place file hfile
  exact ⟨file', hfile', hsame.imp_left (hwritten place)⟩

/-! ## Paths on a disk that grows -/

/-- A step into a directory can still be taken when the directory is still there. -/
theorem step_mono {place next : Place} {segment : Text}
    (hdir : disk.IsDir place → disk'.IsDir place) (h : disk.step place segment = .ok next) :
    disk'.step place segment = .ok next := by
  unfold step at h ⊢
  cases hget : disk.get? place with
  | none =>
    rw [hget] at h
    cases h
  | some entry =>
    rw [hget] at h
    cases entry with
    | file file => cases h
    | directory modified =>
      obtain ⟨modified', hget'⟩ := hdir ⟨modified, hget⟩
      rw [hget']
      exact h

/-- A path leads where it did as long as no directory has gone. -/
theorem foldlM_step_mono (hdir : ∀ place, disk.IsDir place → disk'.IsDir place)
    {segments : List Text} {place next : Place}
    (h : segments.foldlM disk.step place = .ok next) :
    segments.foldlM disk'.step place = .ok next := by
  induction segments generalizing place with
  | nil => exact h
  | cons segment rest ih =>
    rw [List.foldlM_cons, bind_eq_ok_iff] at h ⊢
    obtain ⟨middle, hstep, hrest⟩ := h
    exact ⟨middle, step_mono (hdir place) hstep, ih hrest⟩

/-- On a disk that has grown every path leads where it did. -/
theorem Grows.resolve (h : Grows written disk disk') {place : Place}
    (hresolve : disk.resolve path = .ok place) : disk'.resolve path = .ok place := by
  have hstart : disk'.start path = disk.start path := by rw [start, start, h.workDir_eq]
  unfold Disk.resolve at hresolve ⊢
  split at hresolve
  · cases hresolve
  split at hresolve
  · cases hresolve
  split at hresolve
  · cases hresolve
  rw [if_neg ‹_›, if_neg ‹_›, if_neg ‹_›, hstart]
  exact foldlM_step_mono h.isDir hresolve

/-- A file is still found, with its old content unless it has been written. -/
theorem Grows.find (h : Grows written disk disk') {place : Place} {file : File}
    (hfind : disk.find path = .ok (place, .file file)) :
    ∃ file', disk'.find path = .ok (place, .file file') ∧ (written place ∨ file' = file) := by
  obtain ⟨hresolve, hget⟩ := find_eq_ok_iff.1 hfind
  obtain ⟨file', hget', hsame⟩ := h.file place file hget
  exact ⟨file', find_eq_ok_iff.2 ⟨h.resolve hresolve, hget'⟩, hsame⟩

/-- A path names a file when one is found there. -/
theorem isFile_eq_true_iff :
    disk.isFile path = true ↔ ∃ place file, disk.find path = .ok (place, .file file) := by
  unfold isFile
  split
  case h_1 place file hfind => exact ⟨fun _ => ⟨place, file, hfind⟩, fun _ => rfl⟩
  case h_2 hnone =>
    refine ⟨nofun, fun hfound => ?_⟩
    obtain ⟨place, file, hfind⟩ := hfound
    exact absurd hfind (hnone place file)

/-- A path that named a file still does. -/
theorem Grows.isFile (h : Grows written disk disk') (hfile : disk.isFile path = true) :
    disk'.isFile path = true := by
  obtain ⟨place, file, hfind⟩ := isFile_eq_true_iff.1 hfile
  obtain ⟨file', hfind', -⟩ := h.find hfind
  exact isFile_eq_true_iff.2 ⟨place, file', hfind'⟩

/-- Where no file has been written, every file reads as it did. -/
theorem Grows.read (h : Grows (fun _ => False) disk disk') (hfile : disk.isFile path = true) :
    disk'.read path = disk.read path := by
  obtain ⟨place, file, hfind⟩ := isFile_eq_true_iff.1 hfile
  obtain ⟨file', hfind', hsame⟩ := h.find hfind
  rw [read_of_find hfind, read_of_find hfind', hsame.resolve_left id]

/-! ## Changes that only add -/

/-- Making a directory only adds to the disk. -/
theorem grows_of_createDirectory (h : disk.createDirectory path = .ok disk') :
    Grows written disk disk' := by
  rw [createDirectory_eq, bind_eq_ok_iff] at h
  obtain ⟨place, -, hcreate⟩ := h
  cases hget : disk.get? place with
  | some entry =>
    rw [hget] at hcreate
    cases hcreate
  | none =>
    rw [hget] at hcreate
    cases hcreate
    have hkeeps : ∀ other entry, disk.get? other = some entry →
        (disk.set place (.directory disk.now)).get? other = some entry := by
      intro other entry hother
      rw [get?_set_of_ne (by rintro rfl; simp [hget] at hother), hother]
    refine ⟨rfl, fun other hdir => ?_, fun other file hfile => ⟨file, hkeeps _ _ hfile, .inr rfl⟩⟩
    obtain ⟨modified, hdir⟩ := hdir
    exact ⟨modified, hkeeps _ _ hdir⟩

theorem grows_of_createHere (h : disk.createHere path = .ok disk') : Grows written disk disk' := by
  unfold createHere at h
  split at h
  case h_1 created hcreate =>
    cases h
    exact grows_of_createDirectory hcreate
  case h_2 =>
    split at h
    · cases h
      exact .refl _ _
    · cases h

/-- Making a directory with its parents only adds to the disk. -/
theorem grows_of_createFrom {fuel : Nat} (h : createFrom fuel disk path = .ok disk') :
    Grows written disk disk' := by
  induction fuel generalizing path disk' with
  | zero => cases h
  | succ fuel ih =>
    rw [createFrom_succ] at h
    split at h
    · split at h
      case h_1 parent _ =>
        obtain ⟨between, hparent, hhere⟩ := bind_eq_ok_iff.1 h
        exact (ih hparent).trans (grows_of_createHere hhere)
      case h_2 => cases h
    · exact grows_of_createHere h

/-- Making the parents of a file only adds to the disk. -/
theorem grows_of_parented (h : disk.parented target = .ok disk') : Grows written disk disk' := by
  unfold parented createAll at h
  split at h
  · split at h
    · cases h
      exact .refl _ _
    · exact grows_of_createFrom h
  · cases h
    exact .refl _ _

theorem ne_nil_of_not_isDir {place : Place} (h : ¬disk.IsDir place) : place ≠ [] := by
  rintro rfl
  exact h isDir_root

/-- Writing a file changes no other one. -/
theorem grows_of_write {bytes : List UInt8} {place : Place}
    (hresolve : disk.resolve target = .ok place) (h : disk.write target bytes = .ok disk') :
    Grows (· = place) disk disk' := by
  obtain ⟨place', hresolve', hnot, rfl⟩ := write_eq_ok_iff.1 h
  cases hresolve.symm.trans hresolve'
  refine ⟨rfl, fun other hdir => isDir_set_file hnot hdir, fun other file hfile => ?_⟩
  by_cases hother : other = place
  · subst hother
    exact ⟨_, get?_set_self (ne_nil_of_not_isDir hnot) _ _, .inl rfl⟩
  · exact ⟨file, by rw [get?_set_of_ne hother, hfile], .inr rfl⟩

/-! ## What has been written -/

/-- What has been written is found where its path leads. -/
theorem find_of_write {bytes : List UInt8} (h : disk.write target bytes = .ok disk') :
    ∃ place, disk.resolve target = .ok place ∧
      disk'.find target = .ok (place, .file { bytes, modified := disk.now }) := by
  obtain ⟨place, hresolve, hnot, hset⟩ := write_eq_ok_iff.1 h
  have hget : disk'.get? place = some (.file { bytes, modified := disk.now }) := by
    rw [hset, get?_set_self (ne_nil_of_not_isDir hnot)]
  exact ⟨place, hresolve, find_eq_ok_iff.2 ⟨(grows_of_write hresolve h).resolve hresolve, hget⟩⟩

/-- A file reads as it was written. -/
theorem read_of_write {bytes : List UInt8} (h : disk.write target bytes = .ok disk') :
    disk'.read target = .ok bytes := by
  obtain ⟨place, -, hfind⟩ := find_of_write h
  exact read_of_find hfind

/-- What has been copied was a file. -/
theorem exists_find_of_copy (h : disk.copy path target = .ok disk') :
    ∃ place file, disk.find path = .ok (place, .file file) := by
  obtain ⟨⟨place, entry⟩, hfind, hrest⟩ := bind_eq_ok_iff.1 h
  cases entry with
  | file file => exact ⟨place, file, hfind⟩
  | directory modified => cases hrest

/-- A copy has what its source has, and the source has what it had, unless it was copied onto
itself. -/
theorem read_of_copy (h : disk.copy path target = .ok disk') :
    disk'.read target = disk'.read path ∧
      (disk'.resolve path = disk'.resolve target ∨ disk'.read path = disk.read path) := by
  obtain ⟨place, file, hfind⟩ := exists_find_of_copy h
  obtain ⟨emptied, bytes, hempty, hread, hwrite⟩ := (copy_eq_ok_iff hfind).1 h
  obtain ⟨goal, hgoal, -⟩ := write_eq_ok_iff.1 hempty
  have hgrows := grows_of_write hgoal hempty
  have hgrows' := grows_of_write (hgrows.resolve hgoal) hwrite
  obtain ⟨goal', hgoal', htarget⟩ := find_of_write hwrite
  cases (hgrows.resolve hgoal).symm.trans hgoal'
  obtain ⟨between, hbetween, hsame⟩ := hgrows.find hfind
  obtain ⟨after, hafter, hsame'⟩ := hgrows'.find hbetween
  by_cases hplace : place = goal
  · have hresolve : disk'.resolve path = disk'.resolve target := by
      rw [(find_eq_ok_iff.1 hafter).1, (find_eq_ok_iff.1 htarget).1, hplace]
    refine ⟨?_, .inl hresolve⟩
    rw [Disk.read, Disk.read, Disk.find, Disk.find, hresolve]
  · cases hsame.resolve_left hplace
    cases hsame'.resolve_left hplace
    -- Emptying the target has left the source alone, so its bytes are what was copied.
    cases (read_of_find hbetween).symm.trans hread
    exact ⟨(read_of_find htarget).trans (read_of_find hafter).symm,
      .inr ((read_of_find hafter).trans (read_of_find hfind).symm)⟩

end Disk

end Pagewright
