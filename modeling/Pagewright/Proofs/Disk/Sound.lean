import Pagewright.Proofs.Disk.Resolve

/-!
# Sound disks

A disk is a list of entries, and not every list makes sense: a file needs a name, and a directory
that it lies in. On a sound disk (`Disk.Sound`) it has both, so that directories lead to everything
there is. Putting an entry where a path leads to and removing a directory keep a disk sound
(`Disk.Sound.set`, `Disk.Sound.erase`).
-/

namespace Pagewright

namespace Disk

open Pagewright.Path

variable {disk : Disk}

/-- No place has two entries, and the root, which is always there, has none. -/
def Distinct (disk : Disk) : Prop :=
  ([] :: disk.entries.map Prod.fst).Nodup

/-- No place has two entries, and everything but the root has a name and lies in a directory. -/
structure Sound (disk : Disk) : Prop where
  distinct : disk.Distinct
  lies : ∀ found ∈ disk.entries, ∃ dir name, found.1 = dir ++ [name] ∧ IsName name ∧ disk.IsDir dir

instance (disk : Disk) (place : Place) : Decidable (disk.IsDir place) :=
  match h : disk.get? place with
  | some (.directory modified) => isTrue ⟨modified, h⟩
  | some (.file _) => isFalse fun ⟨_, hdir⟩ => nomatch h.symm.trans hdir
  | none => isFalse fun ⟨_, hdir⟩ => nomatch h.symm.trans hdir

instance (name : Text) : Decidable (IsName name) :=
  decidable_of_iff (Component.ofSegment? name = some (.normal name) ∧ '/' ∉ name)
    ⟨fun h => ⟨h.1, h.2⟩, fun h => ⟨h.step, h.no_slash⟩⟩

instance (disk : Disk) : Decidable disk.Distinct :=
  inferInstanceAs (Decidable (([] :: disk.entries.map Prod.fst).Nodup))

/-- That something may lie at a place can be read off its last name and what is in front of it. -/
theorem exists_lies_iff (disk : Disk) (place : Place) :
    (∃ dir name, place = dir ++ [name] ∧ IsName name ∧ disk.IsDir dir) ↔
      ∃ name ∈ place.getLast?, IsName name ∧ disk.IsDir place.dropLast := by
  constructor
  · rintro ⟨dir, name, rfl, hname, hdir⟩
    exact ⟨name, by simp, hname, by simpa using hdir⟩
  · rintro ⟨name, hlast, hname, hdir⟩
    exact ⟨place.dropLast, name, (List.dropLast_append_getLast? name hlast).symm, hname, hdir⟩

instance (disk : Disk) : Decidable disk.Sound :=
  decidable_of_iff (disk.Distinct ∧ ∀ found ∈ disk.entries,
      ∃ name ∈ found.1.getLast?, IsName name ∧ disk.IsDir found.1.dropLast)
    ⟨fun h => ⟨h.1, fun found hfound => (exists_lies_iff disk found.1).2 (h.2 found hfound)⟩,
      fun h => ⟨h.distinct, fun found hfound =>
      (exists_lies_iff disk found.1).1 (h.lies found hfound)⟩⟩

/-! ## Entries -/

/-- There is a file at a place when its entry is one. -/
theorem file?_eq_some_iff {place : Place} {file : File} :
    disk.file? place = some file ↔ disk.get? place = some (.file file) := by
  unfold file?
  split <;> simp_all

/-- Setting an entry changes what stands at its place, and nothing else. -/
theorem get?_set (place other : Place) (entry : Entry) (hplace : place ≠ []) :
    (disk.set place entry).get? other = if other = place then some entry else disk.get? other := by
  split
  case isTrue h => rw [h, get?_set_self hplace]
  case isFalse h => exact get?_set_of_ne h disk entry

theorem ne_nil_of_get?_eq_none {place : Place} (h : disk.get? place = none) : place ≠ [] := by
  rintro rfl
  cases h

theorem lookup_eq_some_iff {entries : List (Place × Entry)} (h : (entries.map Prod.fst).Nodup)
    {place : Place} {entry : Entry} :
    entries.lookup place = some entry ↔ (place, entry) ∈ entries := by
  induction entries with
  | nil => simp
  | cons found entries ih =>
    obtain ⟨key, old⟩ := found
    obtain ⟨hkey, hrest⟩ := List.nodup_cons.1 h
    rw [List.lookup_cons]
    cases hplace : place == key with
    | false =>
      have hne : place ≠ key := by simpa using hplace
      simp [ih hrest, hne]
    | true =>
      obtain rfl : place = key := by simpa using hplace
      have hnot : (place, entry) ∉ entries := fun hmem =>
        hkey (List.mem_map.2 ⟨_, hmem, rfl⟩)
      simp [hnot, eq_comm]

/-- On a disk with one entry for each place, what stands somewhere is what is listed for it. -/
theorem get?_eq_some_iff (h : disk.Distinct) {place : Place} (hne : place ≠ []) {entry : Entry} :
    disk.get? place = some entry ↔ (place, entry) ∈ disk.entries := by
  rw [get?, if_neg hne, lookup_eq_some_iff (List.nodup_cons.1 h).2]

/-- The files of such a disk are those listed. -/
theorem file?_eq_some_iff_mem (h : disk.Distinct) {place : Place} {file : File} :
    disk.file? place = some file ↔ (place, .file file) ∈ disk.entries := by
  rw [file?_eq_some_iff]
  by_cases hne : place = []
  · subst hne
    have hroot : ([], .file file) ∉ disk.entries := fun hmem =>
      (List.nodup_cons.1 h).1 (List.mem_map_of_mem hmem)
    simp [get?, hroot]
  · exact get?_eq_some_iff h hne

/-- On a sound disk everything lies in directories, all the way up. -/
theorem Sound.isDir_of_append (h : disk.Sound) {front rest : Place} (hrest : rest ≠ [])
    {entry : Entry} (hget : disk.get? (front ++ rest) = some entry) : disk.IsDir front := by
  induction rest using List.reverseRecOn generalizing entry with
  | nil => exact absurd rfl hrest
  | append_singleton rest name ih =>
    rw [← List.append_assoc] at hget
    have hmem := (get?_eq_some_iff h.distinct (by simp)).1 hget
    obtain ⟨dir, name', hplace, -, hdir⟩ := h.lies _ hmem
    obtain ⟨rfl, -⟩ := List.append_inj' hplace rfl
    by_cases hne : rest = []
    · subst hne
      simpa using hdir
    · obtain ⟨modified, hget⟩ := hdir
      exact ih hne hget

/-- On a sound disk every place with something in it has proper names. -/
theorem Sound.isName (h : disk.Sound) {place : Place} {entry : Entry}
    (hget : disk.get? place = some entry) : ∀ name ∈ place, IsName name := by
  induction place using List.reverseRecOn generalizing entry with
  | nil => simp
  | append_singleton place name ih =>
    have hmem := (get?_eq_some_iff h.distinct (by simp)).1 hget
    obtain ⟨dir, name', hplace, hname, modified, hdir⟩ := h.lies _ hmem
    obtain ⟨rfl, hlast⟩ := List.append_inj' hplace rfl
    obtain rfl : name = name' := by simpa using hlast
    intro other hother
    rcases List.mem_append.1 hother with hother | hother
    · exact ih hdir other hother
    · exact List.mem_singleton.1 hother ▸ hname

theorem lookup_filter (p : Place → Bool) (place : Place) (entries : List (Place × Entry)) :
    (entries.filter fun (other, _) => p other).lookup place =
      if p place then entries.lookup place else none := by
  induction entries with
  | nil => simp
  | cons found entries ih =>
    obtain ⟨key, entry⟩ := found
    cases hplace : place == key with
    | false => cases hkey : p key <;> simp [hkey, hplace, List.lookup_cons, ih]
    | true =>
      obtain rfl : place = key := by simpa using hplace
      cases hkey : p place <;> simp [hkey, ih]

/-- Erasing takes away what is at or below a place. -/
theorem get?_erase {base place : Place} (hne : place ≠ []) :
    (disk.erase base).get? place = if List.IsPrefix base place then none else disk.get? place := by
  unfold get? erase
  rw [if_neg hne, if_neg hne, lookup_filter (fun other => other.take base.length ≠ base)]
  by_cases h : List.IsPrefix base place
  · simp [h, (List.prefix_iff_eq_take.1 h).symm]
  · have htake : place.take base.length ≠ base := fun heq => h (List.prefix_iff_eq_take.2 heq.symm)
    simp [h, htake]

/-- Erasing takes away the files at or below a place. -/
theorem file?_erase {base place : Place} :
    (disk.erase base).file? place =
      if List.IsPrefix base place then none else disk.file? place := by
  by_cases hne : place = []
  · subst hne
    split_ifs <;> rfl
  · unfold file?
    rw [get?_erase hne]
    split_ifs <;> rfl

/-- Directories elsewhere stay. -/
theorem isDir_erase {base place : Place} (hbase : ¬List.IsPrefix base place)
    (h : disk.IsDir place) : (disk.erase base).IsDir place := by
  by_cases hne : place = []
  · subst hne
    exact isDir_root
  · obtain ⟨modified, hget⟩ := h
    exact ⟨modified, by rw [get?_erase hne, if_neg hbase, hget]⟩

/-! ## Changing a sound disk -/

/-- Setting an entry keeps one entry for each place. -/
theorem Distinct.set (h : disk.Distinct) {place : Place} (hne : place ≠ []) (entry : Entry) :
    (disk.set place entry).Distinct := by
  obtain ⟨hroot, hnodup⟩ := List.nodup_cons.1 h
  have hsublist := (List.filter_sublist (l := disk.entries)
    (p := fun (other, _) => other ≠ place)).map Prod.fst
  refine List.nodup_cons.2 ⟨?_, List.nodup_cons.2 ⟨?_, hnodup.sublist hsublist⟩⟩
  · intro hmem
    rcases List.mem_cons.1 hmem with hplace | hmem
    · exact hne hplace.symm
    · exact hroot (hsublist.subset hmem)
  · intro hmem
    obtain ⟨found, hfound, hplace⟩ := List.mem_map.1 hmem
    simp [hplace] at hfound

theorem Distinct.erase (h : disk.Distinct) (base : Place) : (disk.erase base).Distinct :=
  h.sublist ((List.filter_sublist.map _).cons_cons _)

/-- Putting an entry into a directory keeps a disk sound, unless a file takes the place of a
directory. -/
theorem Sound.set (h : disk.Sound) {dir : Place} {name : Text} (hname : IsName name)
    (hdir : disk.IsDir dir) {entry : Entry}
    (hentry : (∃ modified, entry = .directory modified) ∨ ¬disk.IsDir (dir ++ [name])) :
    (disk.set (dir ++ [name]) entry).Sound := by
  have hkeeps : ∀ place, disk.IsDir place → (disk.set (dir ++ [name]) entry).IsDir place := by
    rintro place ⟨modified, hget⟩
    unfold IsDir
    rw [get?_set _ _ _ (by simp)]
    split_ifs with hplace
    · subst hplace
      obtain ⟨modified', rfl⟩ := hentry.resolve_right fun hnot => hnot ⟨modified, hget⟩
      exact ⟨modified', rfl⟩
    · exact ⟨modified, hget⟩
  refine ⟨h.distinct.set (by simp) entry, fun found hfound => ?_⟩
  rcases List.mem_cons.1 hfound with rfl | hfound
  · exact ⟨dir, name, rfl, hname, hkeeps dir hdir⟩
  · obtain ⟨dir', name', hplace, hname', hdir'⟩ := h.lies found (List.mem_filter.1 hfound).1
    exact ⟨dir', name', hplace, hname', hkeeps dir' hdir'⟩

/-- A disk stays sound when all is erased from a place on. -/
theorem Sound.erase (h : disk.Sound) (base : Place) : (disk.erase base).Sound := by
  refine ⟨h.distinct.erase base, fun found hfound => ?_⟩
  obtain ⟨hmem, hbase⟩ := List.mem_filter.1 hfound
  obtain ⟨dir, name, hplace, hname, hdir⟩ := h.lies found hmem
  refine ⟨dir, name, hplace, hname, isDir_erase (fun hfront => ?_) hdir⟩
  have hbelow : List.IsPrefix base found.1 := hplace ▸ hfront.trans (List.prefix_append _ _)
  simp [(List.prefix_iff_eq_take.1 hbelow).symm] at hbase

/-- The parent of a directory is one. -/
theorem Sound.isDir_dropLast (h : disk.Sound) {place : Place} (hdir : disk.IsDir place) :
    disk.IsDir place.dropLast := by
  rcases List.eq_nil_or_concat' place with rfl | ⟨dir, name, rfl⟩
  · exact isDir_root
  · obtain ⟨modified, hget⟩ := hdir
    rw [List.dropLast_concat]
    exact h.isDir_of_append (by simp) hget

/-- A path that leads somewhere leads to a directory, or to a name in one. -/
theorem Sound.isDir_or_exists (h : disk.Sound) {path : Path} {base place : Place}
    (hbase : disk.IsDir base) (hleads : path.steps.foldlM disk.follow base = .ok place) :
    disk.IsDir place ∨ ∃ dir name, place = dir ++ [name] ∧ IsName name ∧ disk.IsDir dir := by
  rcases List.eq_nil_or_concat' path.steps with hnil | ⟨before, last, hsteps⟩
  · rw [hnil] at hleads
    exact .inl (Except.ok.inj hleads ▸ hbase)
  · rw [hsteps, List.foldlM_append, bind_eq_ok_iff] at hleads
    obtain ⟨dir, -, hlast⟩ := hleads
    obtain ⟨target, htarget, hpure⟩ := bind_eq_ok_iff.1 hlast
    obtain ⟨hdir, -, rfl⟩ := follow_eq_ok_iff.1 htarget
    rw [← Except.ok.inj hpure]
    cases last with
    | normal name =>
      have hname : Component.normal name ∈ path.steps := by simp [hsteps]
      exact .inr ⟨dir, name, rfl, isName_of_mem_steps hname, hdir⟩
    | parent => exact .inl (h.isDir_dropLast hdir)
    | root => exact .inl hdir
    | current => exact .inl hdir

end Disk

end Pagewright
