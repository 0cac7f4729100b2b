import Mathlib.Data.Set.List
import Pagewright.Disk.Basic
import Pagewright.Proofs.Path.Components

/-!
# Where paths lead

A path is followed segment by segment, and a segment that means nothing only asks for a directory
where the path is just then. The next step asks for the same, so that an absolute path leads to
where its steps lead (`Disk.resolve_of_tight`), and there is only one place that it can lead to,
whatever is on the disk (`Path.place`, `Disk.eq_of_foldlM_follow`).
-/

namespace Pagewright

namespace Path

open Segments

/-- The place that one more step leads to. -/
def nextPlace (place : Place) : Component → Place
  | .parent => place.dropLast
  | .normal name => place ++ [name]
  | _ => place

/-- The place that an absolute path can lead to. -/
def place (path : Path) : Place :=
  path.steps.foldl nextPlace []

/-- Names lead further down. -/
theorem foldl_nextPlace_normal (place names : Place) :
    (names.map .normal).foldl nextPlace place = place ++ names := by
  induction names generalizing place with
  | nil => simp
  | cons name names ih =>
    rw [List.map_cons, List.foldl_cons, ih]
    simp [nextPlace]

theorem exists_names_of_normal {steps : List Component}
    (h : ∀ c ∈ steps, ∃ name, c = .normal name) : ∃ names : Place, steps = names.map .normal := by
  have hrange : steps ∈ Set.range (List.map Component.normal) := by
    rw [Set.range_list_map]
    exact fun c hc => (h c hc).imp fun name hname => hname.symm
  exact hrange.imp fun names hnames => hnames.symm

/-- A relative path goes on from the place of its base. -/
theorem place_join (base : Path) {child : Path} (hchild : child.isAbsolute = false) :
    (base.join child).place = child.steps.foldl nextPlace base.place := by
  rw [place, steps_join base hchild, List.foldl_append]
  rfl

/-- A path of names leads to the place that they spell. -/
theorem place_of_steps {path : Path} {names : Place} (h : path.steps = names.map .normal) :
    path.place = names := by
  rw [place, h, foldl_nextPlace_normal, List.nil_append]

/-- The paths that a disk can be asked for: they are not too long. -/
structure Fits (path : Path) : Prop where
  no_nul : '\x00' ∉ path.text
  size_le : path.text.byteSize ≤ Disk.maxPath

/-- The start of a path that is short enough is short enough. -/
theorem Fits.of_isPrefix {path other : Path} (h : path.Fits)
    (hfront : List.IsPrefix other.text path.text) : other.Fits := by
  obtain ⟨rest, hrest⟩ := hfront
  have hsize := h.size_le
  rw [← hrest, Text.byteSize_append] at hsize
  exact ⟨fun hmem => h.no_nul (by simp [← hrest, hmem]), by omega⟩

end Path

namespace Disk

open Pagewright.Path Segments

/-- There is a directory at a place. -/
def IsDir (disk : Disk) (place : Place) : Prop :=
  ∃ modified, disk.get? place = some (.directory modified)

/-- Whether a step has a name that is too long. -/
def tooLong : Component → Bool
  | .normal name => maxName < name.byteSize
  | _ => false

/-- From a directory one step on. -/
def follow (disk : Disk) (place : Place) (c : Component) : Except Error Place :=
  match disk.get? place with
  | none => .error .notFound
  | some (.file _) => .error .notADirectory
  | some (.directory _) => if tooLong c then .error .nameTooLong else .ok (nextPlace place c)

variable {disk : Disk}

theorem isDir_root : disk.IsDir [] :=
  ⟨disk.now, rfl⟩

/-- A step succeeds out of a directory, for a name that is short enough. -/
theorem follow_eq_ok_iff {place next : Place} {c : Component} :
    disk.follow place c = .ok next ↔
      disk.IsDir place ∧ tooLong c = false ∧ nextPlace place c = next := by
  unfold follow IsDir
  split
  case h_1 h => simp [h]
  case h_2 file h => simp [h]
  case h_3 modified h =>
    cases hc : tooLong c <;> simp [h]

/-- A way that is open leads through directories. -/
theorem isDir_of_foldlM_follow {steps front : List Component} {base place : Place}
    (h : steps.foldlM disk.follow base = .ok place) (hdir : disk.IsDir place)
    (hfront : List.IsPrefix front steps) : disk.IsDir (front.foldl nextPlace base) := by
  induction steps generalizing front base with
  | nil =>
    obtain rfl := List.prefix_nil.1 hfront
    cases h
    exact hdir
  | cons c steps ih =>
    rw [List.foldlM_cons, bind_eq_ok_iff] at h
    obtain ⟨next, hnext, h⟩ := h
    obtain ⟨hbase, -, rfl⟩ := follow_eq_ok_iff.1 hnext
    cases front with
    | nil => exact hbase
    | cons first front =>
      obtain ⟨rfl, hrest⟩ := List.cons_prefix_cons.1 hfront
      rw [List.foldl_cons]
      exact ih h hrest

/-- Out of a place that is no directory every step fails, and in the same way. -/
theorem exists_error_of_not_isDir {place : Place} (h : ¬disk.IsDir place) :
    ∃ e, (∀ segment, disk.step place segment = .error e) ∧
      ∀ c, disk.follow place c = .error e := by
  unfold step follow
  cases hget : disk.get? place with
  | none => exact ⟨_, fun _ => rfl, fun _ => rfl⟩
  | some entry =>
    cases entry with
    | file file => exact ⟨_, fun _ => rfl, fun _ => rfl⟩
    | directory modified => exact absurd ⟨modified, hget⟩ h

/-- A segment that means a step is that step. -/
theorem step_of_ofSegment? {place : Place} {segment : Text} {c : Component}
    (h : Component.ofSegment? segment = some c) :
    disk.step place segment = disk.follow place c := by
  by_cases hdir : disk.IsDir place
  · obtain ⟨modified, hget⟩ := hdir
    have hmeant := isMeant_of_ofSegment? h
    unfold step follow
    simp only [hget]
    rw [if_neg (by simp [isMeant_iff.1 hmeant])]
    by_cases hparent : segment = ['.', '.']
    · subst hparent
      cases h
      rfl
    · rw [ofSegment?_normal hmeant hparent] at h
      cases h
      rw [if_neg hparent]
      simp [tooLong, nextPlace]
  · obtain ⟨e, hstep, hfollow⟩ := exists_error_of_not_isDir hdir
    rw [hstep, hfollow]

/-- A segment that means nothing leads out of a directory to the same one. -/
theorem step_of_not_isMeant {place : Place} {segment : Text} (h : isMeant segment = false)
    (hdir : disk.IsDir place) : disk.step place segment = .ok place := by
  obtain ⟨modified, hget⟩ := hdir
  have hsegment : segment = [] ∨ segment = ['.'] := by
    by_contra hne
    rw [isMeant_iff.2 (not_or.1 hne)] at h
    cases h
  unfold step
  rw [hget]
  exact if_pos (by simpa using hsegment)

/-- One segment leads on from a directory, to where the step leads that it stands for. -/
theorem isDir_of_step {place next : Place} {segment : Text}
    (h : disk.step place segment = .ok next) :
    disk.IsDir place ∧ next = (Component.ofSegment? segment).elim place (nextPlace place) := by
  have hdir : disk.IsDir place := by
    by_contra hnot
    obtain ⟨e, hstep, -⟩ := exists_error_of_not_isDir hnot
    cases h.symm.trans (hstep segment)
  refine ⟨hdir, ?_⟩
  cases hsegment : Component.ofSegment? segment with
  | none =>
    have hmeant : isMeant segment = false := by simp [isMeant, hsegment]
    exact Except.ok.inj (h.symm.trans (step_of_not_isMeant hmeant hdir))
  | some c =>
    rw [step_of_ofSegment? hsegment] at h
    exact (follow_eq_ok_iff.1 h).2.2.symm

/-- Following segments comes to following the steps that they stand for, when the last one means
something. -/
theorem foldlM_step_eq {last : Text} (hlast : isMeant last = true) (before : List Text)
    (place : Place) :
    (before ++ [last]).foldlM disk.step place =
      (names (before ++ [last])).foldlM disk.follow place := by
  obtain ⟨lastStep, hlastStep⟩ := Option.isSome_iff_exists.1 hlast
  induction before generalizing place with
  | nil =>
    rw [List.nil_append, names_singleton, hlastStep]
    simp [step_of_ofSegment? hlastStep]
  | cons segment before ih =>
    cases hsegment : Component.ofSegment? segment with
    | some c =>
      have hnames : names (segment :: before ++ [last]) = c :: names (before ++ [last]) :=
        List.filterMap_cons_some hsegment
      rw [hnames, List.cons_append, List.foldlM_cons, List.foldlM_cons,
        step_of_ofSegment? hsegment]
      exact congrArg _ (funext ih)
    | none =>
      have hmeant : isMeant segment = false := by simp [isMeant, hsegment]
      rw [List.cons_append, names_cons_of_not_isMeant hmeant, List.foldlM_cons]
      by_cases hdir : disk.IsDir place
      · rw [step_of_not_isMeant hmeant hdir]
        exact ih place
      · -- The first step that means something fails at the same place.
        obtain ⟨e, hstep, hfollow⟩ := exists_error_of_not_isDir hdir
        obtain ⟨c, rest, hrest⟩ : ∃ c rest, names (before ++ [last]) = c :: rest := by
          refine List.exists_cons_of_ne_nil ?_
          simp [names_singleton, hlastStep]
        rw [hstep, hrest, List.foldlM_cons, hfollow]
        rfl

/-- Where segments lead, the steps they mean lead as well. -/
theorem foldlM_follow_of_step {body : List Text} {place target : Place}
    (h : body.foldlM disk.step place = .ok target) :
    (names body).foldlM disk.follow place = .ok target := by
  induction body generalizing place with
  | nil => exact h
  | cons segment body ih =>
    rw [List.foldlM_cons, bind_eq_ok_iff] at h
    obtain ⟨next, hnext, h⟩ := h
    cases hsegment : Component.ofSegment? segment with
    | some c =>
      have hnames : names (segment :: body) = c :: names body := List.filterMap_cons_some hsegment
      rw [hnames, List.foldlM_cons, ← step_of_ofSegment? hsegment, hnext]
      exact ih h
    | none =>
      have hmeant : isMeant segment = false := by simp [isMeant, hsegment]
      rw [names_cons_of_not_isMeant hmeant]
      by_cases hdir : disk.IsDir place
      · rw [step_of_not_isMeant hmeant hdir] at hnext
        cases hnext
        exact ih h
      · obtain ⟨e, hstep, -⟩ := exists_error_of_not_isDir hdir
        rw [hstep] at hnext
        cases hnext

/-! ## Absolute paths -/

/-- An absolute path that is short enough leads where its segments do, from the root on. -/
theorem resolve_of_fits {path : Path} (habsolute : path.isAbsolute = true) (hfits : path.Fits) :
    disk.resolve path = (Text.parts '/' path.text).foldlM disk.step [] := by
  have htext : path.text ≠ [] := by
    intro htext
    simp [isAbsolute, htext] at habsolute
  rw [resolve, if_neg hfits.no_nul, if_neg htext, if_neg (Nat.not_lt.2 hfits.size_le), start,
    if_pos habsolute]

theorem fits_of_resolve {path : Path} {target : Place} (h : disk.resolve path = .ok target) :
    path.Fits := by
  unfold resolve at h
  split at h
  · cases h
  case isFalse hnul =>
    split at h
    · cases h
    · split at h
      · cases h
      case isFalse hsize => exact ⟨hnul, Nat.not_lt.1 hsize⟩

/-- A path that leads somewhere does so by its segments. -/
theorem foldlM_step_of_resolve {path : Path} {target : Place}
    (h : disk.resolve path = .ok target) :
    path.text ≠ [] ∧
      (Text.parts '/' path.text).foldlM disk.step (disk.start path) = .ok target := by
  have hfits := fits_of_resolve h
  unfold resolve at h
  rw [if_neg hfits.no_nul] at h
  split at h
  · cases h
  case isFalse htext =>
    rw [if_neg (Nat.not_lt.2 hfits.size_le)] at h
    exact ⟨htext, h⟩

/-- A path that leads somewhere starts at a directory. -/
theorem isDir_start_of_resolve {path : Path} {target : Place}
    (h : disk.resolve path = .ok target) : disk.IsDir (disk.start path) := by
  obtain ⟨-, hfold⟩ := foldlM_step_of_resolve h
  obtain ⟨segment, rest, hparts⟩ := List.exists_cons_of_ne_nil (Text.parts_ne_nil '/' path.text)
  rw [hparts, List.foldlM_cons, bind_eq_ok_iff] at hfold
  obtain ⟨next, hnext, -⟩ := hfold
  exact (isDir_of_step hnext).1

/-- A path that leads somewhere does so by its steps. -/
theorem foldlM_follow_start {path : Path} {target : Place} (h : disk.resolve path = .ok target) :
    path.steps.foldlM disk.follow (disk.start path) = .ok target :=
  foldlM_follow_of_step (foldlM_step_of_resolve h).2

/-- A path that ends with its last step leads to where its steps lead, unless it is too long. -/
theorem resolve_of_tight {path : Path} (habsolute : path.isAbsolute = true) (htight : path.Tight)
    (hfits : path.Fits) : disk.resolve path = path.steps.foldlM disk.follow [] := by
  obtain ⟨before, last, hparts, hlast⟩ := htight
  rw [resolve_of_fits habsolute hfits, steps, hparts, foldlM_step_eq hlast]

/-- An absolute path without slashes at its end leads where its steps do, if it is short enough. -/
theorem resolve_eq_ok_iff {path : Path} (habsolute : path.isAbsolute = true) (htight : path.Tight)
    {target : Place} :
    disk.resolve path = .ok target ↔
      path.Fits ∧ path.steps.foldlM disk.follow [] = .ok target := by
  constructor
  · intro h
    have hfits := fits_of_resolve h
    exact ⟨hfits, resolve_of_tight habsolute htight hfits ▸ h⟩
  · rintro ⟨hfits, h⟩
    rwa [resolve_of_tight habsolute htight hfits]

/-- An absolute path that leads somewhere does so by its steps, from the root on. -/
theorem foldlM_follow_of_resolve {path : Path} (habsolute : path.isAbsolute = true)
    {target : Place} (h : disk.resolve path = .ok target) :
    path.steps.foldlM disk.follow [] = .ok target :=
  foldlM_follow_of_step (resolve_of_fits habsolute (fits_of_resolve h) ▸ h)

/-- Whatever is on the disk, there is only one place that steps can lead to. -/
theorem eq_of_foldlM_follow {steps : List Component} {place target : Place}
    (h : steps.foldlM disk.follow place = .ok target) : target = steps.foldl nextPlace place := by
  induction steps generalizing place with
  | nil => exact (Except.ok.inj h).symm
  | cons c steps ih =>
    rw [List.foldlM_cons, bind_eq_ok_iff] at h
    obtain ⟨next, hnext, h⟩ := h
    obtain ⟨-, -, rfl⟩ := follow_eq_ok_iff.1 hnext
    exact ih h

/-- Where an absolute path leads on some disk does not depend on the disk. -/
theorem eq_place_of_resolve {path : Path} (habsolute : path.isAbsolute = true) {target : Place}
    (h : disk.resolve path = .ok target) : target = path.place :=
  eq_of_foldlM_follow (foldlM_follow_of_resolve habsolute h)

/-- A way down through directories, along names that are not too long. -/
def Descends (disk : Disk) : Place → Place → Prop
  | _, [] => True
  | place, name :: names =>
    disk.IsDir place ∧ name.byteSize ≤ maxName ∧ disk.Descends (place ++ [name]) names

/-- Names can be followed when each is short enough and stands in a directory. -/
theorem foldlM_follow_normal {place names target : Place} :
    (names.map .normal).foldlM disk.follow place = .ok target ↔
      disk.Descends place names ∧ target = place ++ names := by
  induction names generalizing place with
  | nil => simp [Descends, pure, Except.pure, eq_comm]
  | cons name names ih =>
    rw [List.map_cons, List.foldlM_cons, bind_eq_ok_iff, Descends]
    simp only [follow_eq_ok_iff, tooLong, nextPlace, ih]
    constructor
    · rintro ⟨_, ⟨hdir, hsize, rfl⟩, hrest, rfl⟩
      exact ⟨⟨hdir, by simpa using hsize, hrest⟩, by simp⟩
    · rintro ⟨⟨hdir, hsize, hrest⟩, rfl⟩
      exact ⟨_, ⟨hdir, by simpa using hsize, rfl⟩, hrest, by simp⟩

/-- Another name can be followed when there is a directory at the end. -/
theorem descends_concat {place names : Place} {name : Text} :
    disk.Descends place (names ++ [name]) ↔
      disk.Descends place names ∧ disk.IsDir (place ++ names) ∧ name.byteSize ≤ maxName := by
  induction names generalizing place with
  | nil => simp [Descends]
  | cons first names ih =>
    rw [List.cons_append, Descends, ih, Descends]
    simp [and_assoc]

/-- All places on the way down, the last one apart, are directories. -/
theorem Descends.isDir {place names front : Place} {name : Text}
    (h : disk.Descends place (names ++ [name])) (hfront : List.IsPrefix front names) :
    disk.IsDir (place ++ front) := by
  obtain ⟨rest, rfl⟩ := hfront
  induction rest using List.reverseRecOn generalizing name with
  | nil =>
    rw [List.append_nil, descends_concat] at h
    exact h.2.1
  | append_singleton rest last ih =>
    rw [← List.append_assoc, descends_concat] at h
    exact ih h.1

theorem Descends.size_le {place names : Place} (h : disk.Descends place names) :
    ∀ name ∈ names, name.byteSize ≤ maxName := by
  induction names generalizing place with
  | nil => simp
  | cons name names ih =>
    obtain ⟨-, hsize, hrest⟩ := h
    exact List.forall_mem_cons.2 ⟨hsize, ih hrest⟩

/-- Where all places on the way are directories, names that are short enough lead down. -/
theorem descends_of_isDir {place names : Place}
    (hdir : ∀ front name, List.IsPrefix (front ++ [name]) names → disk.IsDir (place ++ front))
    (hsize : ∀ name ∈ names, name.byteSize ≤ maxName) : disk.Descends place names := by
  induction names using List.reverseRecOn with
  | nil => trivial
  | append_singleton names name ih =>
    rw [descends_concat]
    refine ⟨ih (fun front next hfront => hdir front next (hfront.trans (List.prefix_append _ _)))
      fun next hnext => hsize next (by simp [hnext]), hdir names name List.prefix_rfl, ?_⟩
    exact hsize name (by simp)

/-! ## Paths of places -/

/-- A text that can be the name of a file. -/
structure IsName (name : Text) : Prop where
  step : Component.ofSegment? name = some (.normal name)
  no_slash : '/' ∉ name

/-- Segments that are names mean themselves. -/
theorem names_of_isName {names : Place} (h : ∀ name ∈ names, IsName name) :
    Segments.names names = names.map .normal := by
  induction names with
  | nil => rfl
  | cons name rest ih =>
    have hname := (h name List.mem_cons_self).step
    rw [Segments.names, List.filterMap_cons_some hname, List.map_cons]
    exact congrArg _ (ih fun other hother => h other (List.mem_cons_of_mem _ hother))

section PathOf

variable {place : Place} (h : ∀ name ∈ place, IsName name)

include h

/-- The path of a place has the names of the place for its steps. -/
theorem steps_pathOf : (pathOf place).steps = place.map .normal := by
  have hproper : Proper ⟨.root, place⟩ := ⟨fun name hname => (h name hname).no_slash, nofun⟩
  rw [← names_of_isName h]
  exact steps_text hproper

/-- The path of a place leads to it. -/
theorem place_pathOf : (pathOf place).place = place :=
  place_of_steps (steps_pathOf h)

theorem components_pathOf : (pathOf place).components = .root :: place.map .normal := by
  rw [components_eq, steps_pathOf h]
  rfl

theorem tight_pathOf (hne : place ≠ []) : (pathOf place).Tight := by
  refine ⟨[] :: place.dropLast, place.getLast hne, ?_, ?_⟩
  · have hparts : Text.parts '/' (List.intercalate ['/'] place) = place :=
      Text.parts_intercalate hne fun name hname => (h name hname).no_slash
    rw [List.cons_append, List.dropLast_append_getLast hne]
    exact (Text.parts_cons_mark _).trans (congrArg _ hparts)
  · exact isMeant_of_ofSegment? (h _ (List.getLast_mem hne)).step

/-- The path of a place leads there through directories, if it is not too long. -/
theorem resolve_pathOf_eq_ok_iff {target : Place} :
    disk.resolve (pathOf place) = .ok target ↔
      (pathOf place).Fits ∧ disk.Descends [] place ∧ target = place := by
  by_cases hne : place = []
  · subst hne
    have hstep : disk.step [] [] = .ok [] := step_of_not_isMeant rfl isDir_root
    have hroot : (Text.parts '/' (pathOf []).text).foldlM disk.step [] = .ok [] :=
      bind_eq_ok_iff.2 ⟨[], hstep, bind_eq_ok_iff.2 ⟨[], hstep, rfl⟩⟩
    constructor
    · intro hresolve
      have hfits := fits_of_resolve hresolve
      rw [resolve_of_fits rfl hfits, hroot] at hresolve
      exact ⟨hfits, trivial, (Except.ok.inj hresolve).symm⟩
    · rintro ⟨hfits, -, rfl⟩
      rw [resolve_of_fits rfl hfits, hroot]
  · rw [resolve_eq_ok_iff rfl (tight_pathOf h hne), steps_pathOf h, foldlM_follow_normal,
      List.nil_append]

end PathOf

/-- A step down is a proper name. -/
theorem isName_of_mem_steps {path : Path} {name : Text} (h : .normal name ∈ path.steps) :
    IsName name := by
  obtain ⟨segment, hmem, hsegment⟩ := List.mem_filterMap.1 h
  obtain ⟨rfl, -⟩ := eq_of_ofSegment?_normal hsegment
  exact ⟨hsegment, Text.not_mem_of_mem_parts hmem⟩

/-- Every name of the place where steps lead is one of theirs, or was there at the start. -/
theorem mem_foldl_nextPlace {steps : List Component} {place : Place} {name : Text}
    (h : name ∈ steps.foldl nextPlace place) : name ∈ place ∨ .normal name ∈ steps := by
  induction steps generalizing place with
  | nil => exact .inl h
  | cons c steps ih =>
    rcases ih h with h | h
    · cases c with
      | parent => exact .inl (List.dropLast_subset _ h)
      | normal other =>
        rcases List.mem_append.1 h with h | h
        · exact .inl h
        · exact .inr (by simp [List.mem_singleton.1 h])
      | _ => exact .inl h
    · exact .inr (List.mem_cons_of_mem _ h)

/-- The place of a path has proper names. -/
theorem isName_of_mem_place {path : Path} {name : Text} (h : name ∈ path.place) : IsName name :=
  isName_of_mem_steps ((mem_foldl_nextPlace h).resolve_left (List.not_mem_nil))

end Disk

end Pagewright
