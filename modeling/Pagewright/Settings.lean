import Pagewright.Number.Binary64

/-!
# Page settings

The settings of a page are a record of named values. Names are unique and in the order of their
characters; a name that is set twice keeps the value set last (`Settings.set`).
-/

namespace Pagewright

/-- A value that a page can be given in its settings. -/
inductive Value where
  | null
  | bool (b : Bool)
  | int (i : Int)
  | float (x : Binary64)
  | text (s : Text)
  | list (items : List Value)
  | record (fields : List (Text × Value))
  deriving Repr

/-- Named values, in order of their names. -/
abbrev Settings := List (Text × Value)

namespace Settings

/-- The settings with `name` set to `value`. -/
def set (name : Text) (value : Value) : Settings → Settings
  | [] => [(name, value)]
  | (key, old) :: rest =>
    if name = key then (key, value) :: rest
    else if name.precedes key then (name, value) :: (key, old) :: rest
    else (key, old) :: set name value rest

/-- The settings made of fields in the order in which they were written. -/
def ofFields (fields : List (Text × Value)) : Settings :=
  fields.foldl (fun settings (name, value) => settings.set name value) []

/-- The value of a name. -/
def get? (settings : Settings) (name : Text) : Option Value :=
  (settings.find? fun (key, _) => key = name).map Prod.snd

theorem get?_set_self (settings : Settings) (name : Text) (value : Value) :
    (settings.set name value).get? name = some value := by
  induction settings with
  | nil => simp [set, get?]
  | cons field rest ih =>
    obtain ⟨key, old⟩ := field
    unfold set
    split
    next h => simp [get?, h]
    next h =>
      split
      · simp [get?]
      · have hne : key ≠ name := fun e => h e.symm
        simpa [get?, hne] using ih

theorem get?_set_of_ne {name other : Text} (h : other ≠ name) (settings : Settings)
    (value : Value) : (settings.set name value).get? other = settings.get? other := by
  have hne : name ≠ other := fun e => h e.symm
  induction settings with
  | nil => simp [set, get?, hne]
  | cons field rest ih =>
    obtain ⟨key, old⟩ := field
    unfold set
    split
    next hk => simp [get?, ← hk, hne]
    next hk =>
      split
      · simp [get?, hne]
      · by_cases ho : key = other
        · simp [get?, ho]
        · simpa [get?, ho] using ih

/-- The value of a name when it is a text. -/
def text? (settings : Settings) (name : Text) : Option Text :=
  match settings.get? name with
  | some (.text s) => some s
  | _ => none

end Settings

end Pagewright
