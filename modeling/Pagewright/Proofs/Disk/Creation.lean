import Mathlib.Data.List.TakeWhile
import Pagewright.Disk.Change
import Pagewright.Proofs.Disk.Sound

/-!
# Making directories

Making a directory and those around it keeps everything that is on the disk and adds directories
only (`Disk.Adds`), all of them on the way (`Disk.makes_of_createFrom`). Below a directory that a
path already leads to (`Disk.Opens`) it succeeds as long as no file is in the way
(`Disk.createFrom_of_clear`).
-/

namespace Pagewright

namespace Disk

open Pagewright.Path Segments

/-- One disk has everything that another one has, and `new` says where it may have directories
beside that. -/
structure Adds (new : Place → Prop) (disk disk' : Disk) : Prop where
  keeps : ∀ place entry, disk.get? place = some entry → disk'.get? place = some entry
  adds : ∀ place entry, disk'.get? place = some entry →
    disk.get? place = some entry ∨ new place ∧ ∃ modified, entry = .directory modified
  sound : disk.Sound → disk'.Sound
  now_eq : disk'.now = disk.now

variable {disk disk' : Disk} {new : Place → Prop}

theorem Adds.refl (new : Place → Prop) (disk : Disk) : Adds new disk disk :=
  ⟨fun _ _ h => h, fun _ _ h => .inl h, fun h => h, rfl⟩

/-- Adding directories twice adds what either time has added. -/
theorem Adds.trans {disk'' : Disk} (h : Adds new disk disk') (h' : Adds new disk' disk'') :
    Adds new disk disk'' := by
  refine ⟨fun place entry hget => h'.keeps _ _ (h.keeps _ _ hget), fun place entry hget => ?_,
    fun hsound => h'.sound (h.sound hsound), h'.now_eq.trans h.now_eq⟩
  rcases h'.adds place entry hget with hget | hnew
  · exact h.adds place entry hget
  · exact .inr hnew

theorem Adds.mono {new' : Place → Prop} (h : Adds new disk disk')
    (hnew : ∀ place, new place → new' place) : Adds new' disk disk' :=
  ⟨h.keeps, fun place entry hget => (h.adds place entry hget).imp_right fun h => ⟨hnew _ h.1, h.2⟩,
    h.sound, h.now_eq⟩

/-- A directory stays one when others are added. -/
theorem Adds.isDir (h : Adds new disk disk') {place : Place} (hdir : disk.IsDir place) :
    disk'.IsDir place := by
  obtain ⟨modified, hget⟩ := hdir
  exact ⟨modified, h.keeps _ _ hget⟩

/-- No file comes, goes or changes when directories are added. -/
theorem Adds.file? (h : Adds new disk disk') (place : Place) :
    disk'.file? place = disk.file? place := by
  refine Option.ext fun file => ?_
  rw [file?_eq_some_iff, file?_eq_some_iff]
  refine ⟨fun hget => ?_, h.keeps _ _⟩
  rcases h.adds _ _ hget with hget | ⟨-, modified, hentry⟩
  · exact hget
  · cases hentry

/-- A directory that is put where nothing stood, and where a path leads, is an addition. -/
theorem adds_set_directory {path : Path} {base place : Place} (hbase : disk.IsDir base)
    (hleads : path.steps.foldlM disk.follow base = .ok place) (h : disk.get? place = none)
    (hnew : new place) (modified : Int) :
    Adds new disk (disk.set place (.directory modified)) := by
  have hne := ne_nil_of_get?_eq_none h
  refine ⟨fun other entry hget => ?_, fun other entry hget => ?_, fun hsound => ?_, rfl⟩
  · rw [get?_set _ _ _ hne, if_neg (by rintro rfl; simp [h] at hget), hget]
  · rw [get?_set _ _ _ hne] at hget
    split at hget
    case isTrue hother =>
      cases hget
      exact .inr ⟨hother ▸ hnew, modified, rfl⟩
    · exact .inl hget
  · rcases hsound.isDir_or_exists hbase hleads with ⟨_, hdir⟩ | ⟨dir, name, hplace, hname, hdir⟩
    · cases h.symm.trans hdir
    · rw [hplace]
      exact hsound.set hname hdir (.inl ⟨modified, rfl⟩)

/-- A way that is open stays open when there are more directories. -/
theorem foldlM_follow_mono (hdir : ∀ place, disk.IsDir place → disk'.IsDir place)
    {steps : List Component} {place target : Place}
    (h : steps.foldlM disk.follow place = .ok target) :
    steps.foldlM disk'.follow place = .ok target := by
  induction steps generalizing place with
  | nil => exact h
  | cons c steps ih =>
    rw [List.foldlM_cons, bind_eq_ok_iff] at h ⊢
    obtain ⟨next, hnext, h⟩ := h
    rw [follow_eq_ok_iff] at hnext
    exact ⟨next, follow_eq_ok_iff.2 ⟨hdir _ hnext.1, hnext.2⟩, ih h⟩

/-! ## Directories that are open -/

/-- The path leads to a directory. -/
structure Opens (disk : Disk) (path : Path) : Prop where
  leads : path.steps.foldlM disk.follow [] = .ok path.place
  isDir : disk.IsDir path.place

/-- A path that leads into a directory still does where no directory has gone. -/
theorem Opens.mono {path : Path} (h : disk.Opens path)
    (hdir : ∀ place, disk.IsDir place → disk'.IsDir place) : disk'.Opens path :=
  ⟨foldlM_follow_mono hdir h.leads, hdir _ h.isDir⟩

/-- A path is open when its steps lead to a directory. -/
theorem opens_of_foldlM {path : Path} {place : Place}
    (h : path.steps.foldlM disk.follow [] = .ok place) (hdir : disk.IsDir place) :
    disk.Opens path := by
  obtain rfl : place = path.place := eq_of_foldlM_follow h
  exact ⟨h, hdir⟩

/-- A path names a directory when it leads to one. -/
theorem isDirectory_eq_true_iff {path : Path} :
    disk.isDirectory path = true ↔ ∃ place, disk.resolve path = .ok place ∧ disk.IsDir place := by
  unfold isDirectory find IsDir
  cases hresolve : disk.resolve path with
  | error e => simp [bind, Except.bind]
  | ok place =>
    cases hget : disk.get? place with
    | none => simp [bind, Except.bind, hget, throw, throwThe, MonadExceptOf.throw]
    | some entry => cases entry <;> simp [bind, Except.bind, hget, pure, Except.pure]

/-- An absolute path that names a directory is open. -/
theorem opens_of_isDirectory {path : Path} (habsolute : path.isAbsolute = true)
    (h : disk.isDirectory path = true) : disk.Opens path := by
  obtain ⟨place, hresolve, hdir⟩ := isDirectory_eq_true_iff.1 h
  exact opens_of_foldlM (foldlM_follow_of_resolve habsolute hresolve) hdir

/-- An open path names a directory if it is short enough and ends in no slash. -/
theorem isDirectory_of_opens {path : Path} (habsolute : path.isAbsolute = true)
    (htight : path.Tight) (hfits : path.Fits) (h : disk.Opens path) :
    disk.isDirectory path = true :=
  isDirectory_eq_true_iff.2
    ⟨_, (resolve_eq_ok_iff habsolute htight).2 ⟨hfits, h.leads⟩, h.isDir⟩

/-! ## Making one directory -/

/-- A path less the slashes at its end. -/
def unslashed (text : Text) : Text :=
  (text.reverse.dropWhile fun c => c = '/').reverse

/-- All that a text loses are the slashes at its end. -/
theorem exists_slashes (text : Text) :
    ∃ slashes, text = unslashed text ++ slashes ∧ ∀ c ∈ slashes, c = '/' := by
  refine ⟨(text.reverse.takeWhile fun c => c = '/').reverse, ?_, fun c hc => ?_⟩
  · rw [unslashed, ← List.reverse_append, List.takeWhile_append_dropWhile, List.reverse_reverse]
  · simpa using List.mem_takeWhile_imp (List.mem_reverse.1 hc)

theorem unslashed_of_tight {path : Path} (h : path.Tight) : unslashed path.text = path.text := by
  obtain ⟨front, c, htext, hc⟩ := exists_last_of_tight h
  rw [htext, unslashed, List.reverse_append]
  simp [hc]

/-- The path that is asked for when a directory is made. -/
def unslashedPath (path : Path) : Path :=
  if unslashed path.text = [] then path else ⟨unslashed path.text⟩

/-- Without the slashes at its end a path starts where it did. -/
theorem start_unslashedPath (path : Path) : disk.start (unslashedPath path) = disk.start path := by
  unfold unslashedPath
  split
  · rfl
  case isFalse hne =>
    obtain ⟨slashes, htext, -⟩ := exists_slashes path.text
    obtain ⟨c, rest, hrest⟩ := List.exists_cons_of_ne_nil hne
    have hhead : (unslashed path.text).head? = path.text.head? := by
      conv_rhs => rw [htext, hrest]
      rw [hrest]
      rfl
    rw [start, start, isAbsolute, isAbsolute, hhead]

/-- Slashes at the end of a path are no steps. -/
theorem steps_unslashedPath (path : Path) : (unslashedPath path).steps = path.steps := by
  unfold unslashedPath
  split
  · rfl
  · obtain ⟨slashes, htext, hslashes⟩ := exists_slashes path.text
    conv_rhs => rw [steps, htext]
    exact (steps_append_slashes _ hslashes).symm

theorem unslashedPath_of_tight {path : Path} (h : path.Tight) : unslashedPath path = path := by
  rw [unslashedPath, unslashed_of_tight h]
  split <;> rfl

/-- Making a directory leads to its place without regard to slashes at the end, and puts it there
unless something is. -/
theorem createDirectory_eq (path : Path) :
    disk.createDirectory path =
      (disk.resolve (unslashedPath path) >>= fun place =>
        match disk.get? place with
        | some _ => .error .alreadyExists
        | none => .ok (disk.set place (.directory disk.now))) :=
  rfl

/-- When a directory has been made, its path leads to a place where nothing was, and that is all
that has changed. -/
theorem createDirectory_eq_ok {path : Path} (h : disk.createDirectory path = .ok disk') :
    disk.IsDir (disk.start path) ∧ ∃ place,
      path.steps.foldlM disk.follow (disk.start path) = .ok place ∧ disk.get? place = none ∧
        disk' = disk.set place (.directory disk.now) := by
  rw [createDirectory_eq, bind_eq_ok_iff] at h
  obtain ⟨place, hresolve, h⟩ := h
  have hstart := isDir_start_of_resolve hresolve
  have hsteps := foldlM_follow_start hresolve
  rw [start_unslashedPath] at hstart hsteps
  rw [steps_unslashedPath] at hsteps
  split at h
  · cases h
  case h_2 hget =>
    cases h
    exact ⟨hstart, place, hsteps, hget, rfl⟩

/-- Make a directory where the one around it is there; one that is there already will do. -/
def createHere (disk : Disk) (path : Path) : Except Error Disk :=
  match disk.createDirectory path with
  | .ok disk => .ok disk
  | .error e => if disk.isDirectory path then .ok disk else .error e

/-- Making a directory with its parents tries the directory first, and its parent if that is
missing. -/
theorem createFrom_succ (fuel : Nat) (disk : Disk) (path : Path) :
    createFrom (fuel + 1) disk path =
      match disk.createDirectory path with
      | .error .notFound =>
        match path.parent? with
        | some parent => (createFrom fuel disk parent).bind (createHere · path)
        | none => .error .notFound
      | _ => disk.createHere path :=
  rfl

/-- The places that a path leads through from `base` on. -/
def OnWay (base : Place) (path : Path) (place : Place) : Prop :=
  ∃ front, List.IsPrefix front path.steps ∧ place = front.foldl nextPlace base

/-- What a path passes through lies on the way of every longer one. -/
theorem OnWay.of_isPrefix {base place : Place} {path other : Path} (h : OnWay base other place)
    (hsteps : List.IsPrefix other.steps path.steps) : OnWay base path place := by
  obtain ⟨front, hfront, hplace⟩ := h
  exact ⟨front, hfront.trans hsteps, hplace⟩

/-- There are more directories on the way of a path, and it leads to the last of them. -/
structure Makes (path : Path) (disk disk' : Disk) : Prop where
  workDir_eq : disk'.workDir = disk.workDir
  adds : Adds (OnWay (disk.start path) path) disk disk'
  leads : ∃ place, path.steps.foldlM disk'.follow (disk.start path) = .ok place ∧ disk'.IsDir place

theorem start_of_workDir_eq (h : disk'.workDir = disk.workDir) (path : Path) :
    disk'.start path = disk.start path := by
  rw [start, start, h]

/-- Making one directory, or finding it made, leaves a directory where its path leads. -/
theorem makes_of_createHere {path : Path} (h : disk.createHere path = .ok disk') :
    Makes path disk disk' := by
  unfold createHere at h
  split at h
  case h_1 made hmade =>
    cases h
    obtain ⟨hstart, place, hsteps, hget, rfl⟩ := createDirectory_eq_ok hmade
    have hway : OnWay (disk.start path) path place :=
      ⟨path.steps, List.prefix_rfl, eq_of_foldlM_follow hsteps⟩
    have hadds := adds_set_directory hstart hsteps hget hway disk.now
    have hself := get?_set_self (ne_nil_of_get?_eq_none hget) disk (.directory disk.now)
    exact ⟨rfl, hadds, place, foldlM_follow_mono (fun _ => hadds.isDir) hsteps, _, hself⟩
  · split at h
    case isTrue hdir =>
      cases h
      obtain ⟨place, hresolve, hdir⟩ := isDirectory_eq_true_iff.1 hdir
      exact ⟨rfl, Adds.refl _ _, place, foldlM_follow_start hresolve, hdir⟩
    · cases h

/-- Making directories adds directories only. They lie on the way of the path, and it leads to the
last of them. -/
theorem makes_of_createFrom {fuel : Nat} {path : Path} (h : createFrom fuel disk path = .ok disk') :
    Makes path disk disk' := by
  induction fuel generalizing path disk' with
  | zero => cases h
  | succ fuel ih =>
    rw [createFrom_succ] at h
    split at h
    · split at h
      case h_1 parent hparent =>
        obtain ⟨between, hbetween, h⟩ := bind_eq_ok_iff.1 h
        obtain ⟨habsolute, hsteps⟩ := isPrefix_of_parent? hparent
        have hbefore := ih hbetween
        have hhere := makes_of_createHere h
        have hparentStart : disk.start parent = disk.start path := by rw [start, start, habsolute]
        have hstart := start_of_workDir_eq hbefore.workDir_eq path
        have hadds : Adds (OnWay (disk.start path) path) disk between :=
          hbefore.adds.mono fun place hplace => (hparentStart ▸ hplace).of_isPrefix hsteps
        exact ⟨hhere.workDir_eq.trans hbefore.workDir_eq, hadds.trans (hstart ▸ hhere.adds),
          hstart ▸ hhere.leads⟩
      · cases h
    · exact makes_of_createHere h

/-- Everything on the way to a directory that has been made is a directory. -/
theorem isDir_onWay_of_createAll {path : Path} (hne : path.text ≠ [])
    (h : disk.createAll path = .ok disk') {place : Place}
    (hway : OnWay (disk.start path) path place) : disk'.IsDir place := by
  rw [createAll, if_neg hne] at h
  obtain ⟨last, hleads, hdir⟩ := (makes_of_createFrom h).leads
  obtain ⟨front, hfront, rfl⟩ := hway
  exact isDir_of_foldlM_follow hleads hdir hfront

/-- Making a directory with its parents adds directories on the way to it, and nothing else. -/
theorem adds_onWay_of_createAll {path : Path} (h : disk.createAll path = .ok disk') :
    Adds (OnWay (disk.start path) path) disk disk' := by
  unfold createAll at h
  split at h
  · cases h
    exact Adds.refl _ _
  · exact (makes_of_createFrom h).adds

/-- The parent of an absolute path is absolute. -/
theorem isAbsolute_of_parent? {path parent : Path} (habsolute : path.isAbsolute = true)
    (h : path.parent? = some parent) : parent.isAbsolute = true :=
  (isPrefix_of_parent? h).1.trans habsolute

/-! ## Making directories below one that is open -/

/-- After a directory has been made with its parents, its path is open and nothing has gone. -/
theorem adds_of_createAll {path : Path} (habsolute : path.isAbsolute = true)
    (h : disk.createAll path = .ok disk') :
    Adds (fun _ => True) disk disk' ∧ disk'.Opens path := by
  rw [createAll, if_neg (text_ne_nil_of_isAbsolute habsolute)] at h
  have hmakes := makes_of_createFrom h
  obtain ⟨place, hleads, hdir⟩ := hmakes.leads
  rw [start, if_pos habsolute] at hleads
  exact ⟨hmakes.adds.mono fun _ _ => trivial, opens_of_foldlM hleads hdir⟩

/-- A directory that is there is found made, and nothing changes. -/
theorem createHere_of_opens {path : Path} (habsolute : path.isAbsolute = true)
    (htight : path.Tight) (hfits : path.Fits) (h : disk.Opens path) :
    disk.createDirectory path = .error .alreadyExists ∧ disk.createHere path = .ok disk := by
  have hresolve : disk.resolve path = .ok path.place :=
    (resolve_eq_ok_iff habsolute htight).2 ⟨hfits, h.leads⟩
  have hcreate : disk.createDirectory path = .error .alreadyExists := by
    obtain ⟨modified, hget⟩ := h.isDir
    rw [createDirectory_eq, unslashedPath_of_tight htight, hresolve]
    simp [bind, Except.bind, hget]
  refine ⟨hcreate, ?_⟩
  rw [createHere, hcreate]
  exact if_pos (isDirectory_of_opens habsolute htight hfits h)

/-- Where the parent is there and nothing stands, the directory is made. -/
theorem createDirectory_of_free {path : Path} (habsolute : path.isAbsolute = true)
    (htight : path.Tight) (hfits : path.Fits)
    (hleads : path.steps.foldlM disk.follow [] = .ok path.place)
    (hget : disk.get? path.place = none) :
    disk.createDirectory path = .ok (disk.set path.place (.directory disk.now)) := by
  have hresolve : disk.resolve path = .ok path.place :=
    (resolve_eq_ok_iff habsolute htight).2 ⟨hfits, hleads⟩
  rw [createDirectory_eq, unslashedPath_of_tight htight, hresolve]
  simp [bind, Except.bind, hget]

theorem intercalate_isPrefix {a b : List Text} (h : List.IsPrefix a b) (mark : Text) :
    List.IsPrefix (List.intercalate mark a) (List.intercalate mark b) := by
  obtain ⟨rest, rfl⟩ := h
  induction a with
  | nil => exact List.nil_prefix
  | cons segment a ih =>
    cases a with
    | nil =>
      cases rest with
      | nil => exact List.prefix_rfl
      | cons next rest =>
        rw [List.intercalate_singleton, List.singleton_append, List.intercalate_cons_cons,
          List.append_assoc]
        exact List.prefix_append _ _
    | cons next a =>
      rw [List.intercalate_cons_cons, List.cons_append, List.cons_append,
        List.intercalate_cons_cons]
      exact List.prefix_append_right_inj _ |>.2 ih

/-- The directory of an absolute path that is not too long. -/
theorem exists_parent?_of_isAbsolute {path : Path} (habsolute : path.isAbsolute = true)
    (hfits : path.Fits) (hne : path.steps.dropLast ≠ []) :
    ∃ dir, path.parent? = some dir ∧ dir.isAbsolute = true ∧ dir.Tight ∧ dir.Fits ∧
      dir.steps = path.steps.dropLast := by
  have hsteps : path.steps ≠ [] := by
    rintro hnil
    simp [hnil] at hne
  obtain ⟨body, hparent, hprefix, hnames⟩ := exists_parent?_body hsteps
  have hproper : Proper ⟨path.lead, trimRight body⟩ :=
    (proper_ofText path.text).of_isPrefix hprefix
  rw [lead_eq_root_iff.2 habsolute] at hparent hproper
  obtain ⟨rest, htext⟩ : ∃ rest, path.text = '/' :: rest := by
    obtain ⟨text⟩ := path
    cases text with
    | nil => cases habsolute
    | cons c rest => exact ⟨rest, by simpa [isAbsolute] using habsolute⟩
  refine ⟨_, hparent, rfl, ?_, hfits.of_isPrefix ?_, ?_⟩
  · rcases trimRight_eq_nil_or body with hnil | ⟨before, name, hbody, hname⟩
    · rw [← hnames, ← names_trimRight, hnil] at hne
      exact absurd rfl hne
    · refine ⟨[] :: before, name, ?_, hname⟩
      have hparts : Text.parts '/' (List.intercalate ['/'] (trimRight body)) = trimRight body :=
        Text.parts_intercalate (by simp [hbody]) hproper.no_slash
      rw [List.cons_append, ← hbody]
      exact (Text.parts_cons_mark _).trans (congrArg _ hparts)
  · have hbody : path.segments.body = Text.parts '/' rest := by
      rw [segments, htext]
      rfl
    rw [hbody] at hprefix
    rw [htext, ← Text.intercalate_parts '/' rest]
    exact List.cons_prefix_cons.2 ⟨rfl, intercalate_isPrefix hprefix _⟩
  · rw [steps_text hproper, names_trimRight, hnames]

/-- On a way without files and long names the only thing that can go wrong is that something is
missing. -/
theorem foldlM_follow_of_clear {place names : Place}
    (hsize : ∀ name ∈ names, name.byteSize ≤ maxName)
    (hclear : ∀ front, List.IsPrefix front names → disk.file? (place ++ front) = none) :
    (names.map .normal).foldlM disk.follow place = .ok (place ++ names) ∨
      (names.map .normal).foldlM disk.follow place = .error .notFound := by
  induction names generalizing place with
  | nil => exact .inl (by simp [pure, Except.pure])
  | cons name names ih =>
    rw [List.map_cons, List.foldlM_cons]
    cases hget : disk.get? place with
    | none =>
      right
      simp [follow, hget, bind, Except.bind]
    | some entry =>
      cases entry with
      | file file =>
        have hfile := hclear [] List.nil_prefix
        rw [List.append_nil] at hfile
        simp [file?, hget] at hfile
      | directory modified =>
        have hfollow : disk.follow place (.normal name) = .ok (place ++ [name]) :=
          follow_eq_ok_iff.2 ⟨⟨modified, hget⟩, by simpa [tooLong] using hsize name (by simp), rfl⟩
        have hclear' : ∀ front, List.IsPrefix front names →
            disk.file? (place ++ [name] ++ front) = none := by
          intro front hfront
          simpa using hclear (name :: front) (List.cons_prefix_cons.2 ⟨rfl, hfront⟩)
        have hrest := ih (fun other hother => hsize other (by simp [hother])) hclear'
        rw [List.append_assoc] at hrest
        rw [hfollow]
        exact hrest

section Below

variable {base : Path} (hopens : disk.Opens base) {path : Path}
  (habsolute : path.isAbsolute = true) (htight : path.Tight) (hfits : path.Fits) {names : Place}
  (hsteps : path.steps = base.steps ++ names.map .normal)

include hsteps in
/-- A path that goes on from an open one leads below its place. -/
theorem place_below : path.place = base.place ++ names := by
  rw [place, hsteps, List.foldl_append, foldl_nextPlace_normal]
  rfl

include hopens hsteps in
/-- The steps of such a path are taken from the place of the open one. -/
theorem foldlM_follow_below :
    path.steps.foldlM disk.follow [] = (names.map .normal).foldlM disk.follow base.place := by
  rw [hsteps, List.foldlM_append, hopens.leads]
  rfl

include hopens habsolute htight hfits hsteps

/-- The last directory of a path can be made when the others are there. -/
theorem createHere_of_descends (hdescends : disk.Descends base.place names)
    (hfile : disk.file? (base.place ++ names) = none) :
    disk.createDirectory path ≠ .error .notFound ∧
      ∃ disk', disk.createHere path = .ok disk' ∧
        Adds (· = base.place ++ names) disk disk' ∧ disk'.IsDir (base.place ++ names) := by
  have hplace : path.place = base.place ++ names := place_below hsteps
  have hleads : path.steps.foldlM disk.follow [] = .ok path.place := by
    rw [foldlM_follow_below hopens hsteps, hplace]
    exact foldlM_follow_normal.2 ⟨hdescends, rfl⟩
  rw [← hplace] at hfile ⊢
  cases hget : disk.get? path.place with
  | none =>
    have hcreate := createDirectory_of_free habsolute htight hfits hleads hget
    have hself := get?_set_self (ne_nil_of_get?_eq_none hget) disk (.directory disk.now)
    have hadds : Adds (· = path.place) disk (disk.set path.place (.directory disk.now)) :=
      adds_set_directory isDir_root hleads hget (by rfl) disk.now
    refine ⟨by simp [hcreate], _, ?_, hadds, _, hself⟩
    rw [createHere, hcreate]
  | some entry =>
    cases entry with
    | file file => simp [file?, hget] at hfile
    | directory modified =>
      have hdir : disk.IsDir path.place := ⟨modified, hget⟩
      obtain ⟨hcreate, hhere⟩ := createHere_of_opens habsolute htight hfits ⟨hleads, hdir⟩
      exact ⟨by simp [hcreate], disk, hhere, Adds.refl _ _, hdir⟩

end Below

/-- Where no parent is missing, making a directory with its parents is making it alone. -/
theorem createFrom_of_createHere {fuel : Nat} {path : Path}
    (h : disk.createDirectory path ≠ .error .notFound) :
    createFrom (fuel + 1) disk path = disk.createHere path := by
  rw [createFrom_succ]
  split
  · exact absurd ‹_› h
  · rfl

theorem isPrefix_of_concat {front names : Place} {next name : Text}
    (h : List.IsPrefix (front ++ [next]) (names ++ [name])) : List.IsPrefix front names := by
  rcases List.prefix_concat_iff.1 h with h | h
  · exact (List.append_inj' h rfl).1 ▸ List.prefix_rfl
  · exact (List.prefix_append _ _).trans h

/-- Directories can be made below one that is open as long as no file is in the way. All that is
added lies on the way. -/
theorem createFrom_of_clear {base : Path} (hbase : base.steps ≠ []) (hopens : disk.Opens base)
    {names : Place} (hsize : ∀ name ∈ names, name.byteSize ≤ maxName)
    (hclear : ∀ front, List.IsPrefix front names → disk.file? (base.place ++ front) = none)
    {path : Path} (habsolute : path.isAbsolute = true) (htight : path.Tight) (hfits : path.Fits)
    (hsteps : path.steps = base.steps ++ names.map .normal) {fuel : Nat}
    (hfuel : names.length < fuel) :
    ∃ disk', createFrom fuel disk path = .ok disk' ∧
      Adds (fun place => ∃ front, List.IsPrefix front names ∧ place = base.place ++ front)
        disk disk' ∧
      ∀ front, List.IsPrefix front names → disk'.IsDir (base.place ++ front) := by
  obtain ⟨fuel, rfl⟩ : ∃ n, fuel = n + 1 := ⟨fuel - 1, by omega⟩
  induction names using List.reverseRecOn generalizing path fuel with
  | nil =>
    obtain ⟨hcreate, disk', hhere, hadds, hdir⟩ := createHere_of_descends hopens habsolute htight
      hfits hsteps trivial (hclear [] List.prefix_rfl)
    refine ⟨disk', ?_, hadds.mono fun place hplace => ⟨[], List.prefix_rfl, hplace⟩, ?_⟩
    · rw [createFrom_of_createHere hcreate, hhere]
    · intro front hfront
      rwa [List.prefix_nil.1 hfront]
  | append_singleton names name ih =>
    have hlast := hclear _ List.prefix_rfl
    rcases foldlM_follow_of_clear hsize hclear with hopen | hmissing
    · obtain ⟨hdescends, -⟩ := foldlM_follow_normal.1 hopen
      obtain ⟨hcreate, disk', hhere, hadds, hdir⟩ := createHere_of_descends hopens habsolute htight
        hfits hsteps hdescends hlast
      refine ⟨disk', ?_, hadds.mono fun place hplace => ⟨_, List.prefix_rfl, hplace⟩, ?_⟩
      · rw [createFrom_of_createHere hcreate, hhere]
      · intro front hfront
        rcases List.prefix_concat_iff.1 hfront with rfl | hfront
        · exact hdir
        · exact hadds.isDir (hdescends.isDir hfront)
    · have hcreate : disk.createDirectory path = .error .notFound := by
        rw [createDirectory_eq, unslashedPath_of_tight htight,
          resolve_of_tight habsolute htight hfits, foldlM_follow_below hopens hsteps, hmissing]
        rfl
      have hdropLast : path.steps.dropLast = base.steps ++ names.map .normal := by
        rw [hsteps, List.map_append, ← List.append_assoc]
        exact List.dropLast_concat
      obtain ⟨dir, hparent, habsolute', htight', hfits', hsteps'⟩ :=
        exists_parent?_of_isAbsolute habsolute hfits (by simp [hdropLast, hbase])
      obtain ⟨n, rfl⟩ : ∃ n, fuel = n + 1 := ⟨fuel - 1, by simp at hfuel; omega⟩
      obtain ⟨between, hbetween, hadds, hdirs⟩ := ih
        (fun other hother => hsize other (by simp [hother]))
        (fun front hfront => hclear front (hfront.trans (List.prefix_append _ _)))
        habsolute' htight' hfits' (hsteps'.trans hdropLast) n (by simpa using hfuel)
      have hdescends : between.Descends base.place (names ++ [name]) :=
        descends_of_isDir (fun front next h => hdirs front (isPrefix_of_concat h)) hsize
      obtain ⟨-, disk', hhere, hadds', hdir⟩ := createHere_of_descends
        (hopens.mono fun _ => hadds.isDir) habsolute htight hfits hsteps hdescends
        (by rwa [hadds.file?])
      refine ⟨disk', ?_, ?_, ?_⟩
      · rw [createFrom_succ, hcreate, hparent]
        exact bind_eq_ok_iff.2 ⟨between, hbetween, hhere⟩
      · refine (hadds.mono fun place hplace => ?_).trans
          (hadds'.mono fun place hplace => ⟨_, List.prefix_rfl, hplace⟩)
        obtain ⟨front, hfront, hplace⟩ := hplace
        exact ⟨front, hfront.trans (List.prefix_append _ _), hplace⟩
      · intro front hfront
        rcases List.prefix_concat_iff.1 hfront with rfl | hfront
        · exact hdir
        · exact hadds'.isDir (hdirs front hfront)

end Disk

end Pagewright
