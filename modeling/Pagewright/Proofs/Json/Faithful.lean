import Mathlib.Data.Char
import Mathlib.Data.List.Lex
import Pagewright.Proofs.Json.Doubles
import Pagewright.Proofs.Json.ReadBack

/-!
# Values that come back

A value is sound if its whole numbers have 64 bits, its doubles are finite and the names of its
records are in order (`Value.isSound`). A sound value comes back from its JSON text as it was,
except that a double is what its text is read as (`Binary64.reread`, `Value.Within.reread`).
-/

namespace Pagewright

/-! ## Names in order -/

namespace Settings

/-- The names are in order, each of them once. -/
def Ordered (settings : Settings) : Prop :=
  settings.Pairwise fun a b => a.1.precedes b.1 = true

instance (settings : Settings) : Decidable settings.Ordered :=
  inferInstanceAs (Decidable (List.Pairwise _ _))

/-- A name behind all others is set at the end. -/
theorem set_eq_append {settings : Settings} {name : Text}
    (h : ∀ field ∈ settings, field.1.precedes name = true) (value : Value) :
    settings.set name value = settings ++ [(name, value)] := by
  induction settings with
  | nil => rfl
  | cons field rest ih =>
    obtain ⟨hfield, hrest⟩ := List.forall_mem_cons.1 h
    have hlt : field.1 < name := of_decide_eq_true hfield
    have hnot : name.precedes field.1 = false := decide_eq_false (lt_asymm hlt)
    rw [set, if_neg hlt.ne', hnot, if_neg Bool.false_ne_true, ih hrest]
    rfl

/-- Fields that go on in order are added at the end. -/
theorem setAll_eq_append {settings fields : Settings} (h : Ordered (settings ++ fields)) :
    settings.setAll fields = settings ++ fields := by
  induction fields generalizing settings with
  | nil => exact (List.append_nil settings).symm
  | cons field fields ih =>
    have hbefore : ∀ other ∈ settings, other.1.precedes field.1 = true := by
      intro other hother
      exact (List.pairwise_append.1 h).2.2 other hother field List.mem_cons_self
    rw [List.append_cons] at h ⊢
    rw [← ih h, setAll, List.foldl_cons, set_eq_append hbefore]
    rfl

/-- Fields in order are settings as they are. -/
theorem ofFields_of_ordered {fields : Settings} (h : fields.Ordered) : ofFields fields = fields :=
  setAll_eq_append h

end Settings

namespace Json

/-! ## Numbers -/

/-- A whole number of 64 bits is read back. -/
theorem value?_ofInt {i : Int} (hlow : -(Nat.pow 2 63 : Int) ≤ i)
    (hhigh : i < (Nat.pow 2 64 : Int)) : (Numeral.ofInt i).value? = some (.int i) := by
  have hlt : i.natAbs < Nat.pow 2 64 := by
    have hpow : Nat.pow 2 63 < Nat.pow 2 64 := by decide
    omega
  have hdigits : ofDigits (Nat.toDigits 10 i.natAbs) = i.natAbs := ofDigits_toDigits _
  have hheld := held_zero (hdigits.trans_lt hlt)
  rw [hdigits] at hheld
  have hhead : ((Nat.toDigits 10 i.natAbs).length ≠ 1
      && (Nat.toDigits 10 i.natAbs).head? = some '0') = false := by
    by_cases hzero : i.natAbs = 0
    · rw [hzero]
      rfl
    · simp [head?_toDigits hzero]
  rw [Numeral.value?, Numeral.ofInt, Digits.text_ofNat, hhead, if_neg Bool.false_ne_true]
  show number? _ _ [] none = _
  rw [number?]
  simp only [hheld, Nat.sub_self, and_self, if_true]
  by_cases hneg : i < 0
  · have hbound : i.natAbs ≠ 0 ∧ i.natAbs ≤ Nat.pow 2 63 := by omega
    have hvalue : -(i.natAbs : Int) = i := by omega
    rw [decide_eq_true hneg, if_pos rfl, if_pos hbound, hvalue]
  · have hvalue : (i.natAbs : Int) = i := by omega
    rw [decide_eq_false hneg, if_neg Bool.false_ne_true, hvalue]

end Json

/-- The double that a value is. -/
def Value.double? : Value → Option Binary64
  | .float x => some x
  | _ => none

namespace Binary64

/-- The double that a double is read back as. -/
def reread (x : Binary64) : Binary64 :=
  ((Json.readNumber x.text).bind fun p => p.1.double?).getD x

/-- The text of a double reads as the double it stands for. -/
theorem readNumber_text {x : Binary64} (h : x.InRange) :
    Json.readNumber x.text = some (.float x.reread, []) := by
  obtain ⟨y, hy⟩ := exists_readNumber_text h
  rw [reread, hy]
  rfl

end Binary64

/-! ## Values -/

mutual

/-- Whether a value is one that a page can have: whole numbers of 64 bits, doubles that are finite,
and records with their names in order. -/
def Value.isSound : Value → Bool
  | .int i => decide (-(Nat.pow 2 63 : Int) ≤ i ∧ i < (Nat.pow 2 64 : Int))
  | .float x => decide x.InRange
  | .list items => itemsSound items
  | .record fields => decide (Settings.Ordered fields) && fieldsSound fields
  | _ => true

def itemsSound : List Value → Bool
  | [] => true
  | value :: rest => value.isSound && itemsSound rest

def fieldsSound : List (Text × Value) → Bool
  | [] => true
  | (_, value) :: rest => value.isSound && fieldsSound rest

end

mutual

/-- How deep lists and records are nested in a value. -/
def Value.nesting : Value → Nat
  | .list items => itemsNesting items + 1
  | .record fields => fieldsNesting fields + 1
  | _ => 0

def itemsNesting : List Value → Nat
  | [] => 0
  | value :: rest => max value.nesting (itemsNesting rest)

def fieldsNesting : List (Text × Value) → Nat
  | [] => 0
  | (_, value) :: rest => max value.nesting (fieldsNesting rest)

end

mutual

/-- A value with every double in it replaced. -/
def Value.mapDoubles (f : Binary64 → Binary64) : Value → Value
  | .null => .null
  | .bool b => .bool b
  | .int i => .int i
  | .float x => .float (f x)
  | .text s => .text s
  | .list items => .list (mapItems f items)
  | .record fields => .record (mapFields f fields)

def mapItems (f : Binary64 → Binary64) : List Value → List Value
  | [] => []
  | value :: rest => value.mapDoubles f :: mapItems f rest

def mapFields (f : Binary64 → Binary64) : List (Text × Value) → List (Text × Value)
  | [] => []
  | (name, value) :: rest => (name, value.mapDoubles f) :: mapFields f rest

end

/-- Mapping the doubles of fields keeps their names. -/
theorem mapFields_eq_map (f : Binary64 → Binary64) (fields : Settings) :
    mapFields f fields = fields.map fun field => (field.1, field.2.mapDoubles f) := by
  induction fields with
  | nil => rfl
  | cons field fields ih => rw [mapFields, ih, List.map_cons]

/-- Replacing doubles leaves the names in order. -/
theorem Settings.Ordered.mapFields {fields : Settings} (h : fields.Ordered)
    (f : Binary64 → Binary64) : Settings.Ordered (mapFields f fields) := by
  rw [mapFields_eq_map]
  exact List.pairwise_map.2 h

mutual

/-- A sound value is read back as it is, its doubles as they are read. -/
theorem Value.reread_of_isSound (value : Value) (hsound : value.isSound = true) {depth : Nat}
    (hdepth : value.nesting ≤ depth) :
    value.reread depth = some (value.mapDoubles Binary64.reread) := by
  cases value with
  | null => rfl
  | bool b => rfl
  | int i =>
    obtain ⟨hlow, hhigh⟩ := of_decide_eq_true hsound
    exact Json.value?_ofInt hlow hhigh
  | float x =>
    rw [Value.reread, Binary64.readNumber_text (of_decide_eq_true hsound)]
    rfl
  | text s => rfl
  | list items =>
    rw [Value.nesting] at hdepth
    obtain ⟨depth, rfl⟩ := Nat.exists_eq_add_one.2 (Nat.zero_lt_of_lt hdepth)
    rw [Value.reread, rereadItems_of_itemsSound items hsound (Nat.le_of_lt_succ hdepth)]
    rfl
  | record fields =>
    rw [Value.nesting] at hdepth
    obtain ⟨depth, rfl⟩ := Nat.exists_eq_add_one.2 (Nat.zero_lt_of_lt hdepth)
    obtain ⟨hordered, hfields⟩ := Bool.and_eq_true_iff.1 hsound
    have hnames := (of_decide_eq_true hordered).mapFields Binary64.reread
    rw [Value.reread, rereadFields_of_fieldsSound fields hfields (Nat.le_of_lt_succ hdepth),
      Option.map_some, Settings.ofFields_of_ordered hnames]
    rfl

theorem rereadItems_of_itemsSound (items : List Value) (hsound : itemsSound items = true)
    {depth : Nat} (hdepth : itemsNesting items ≤ depth) :
    rereadItems depth items = some (mapItems Binary64.reread items) := by
  cases items with
  | nil => rfl
  | cons value items =>
    obtain ⟨hvalue, hitems⟩ := Bool.and_eq_true_iff.1 hsound
    obtain ⟨hvalueDepth, hitemsDepth⟩ := max_le_iff.1 hdepth
    rw [rereadItems, value.reread_of_isSound hvalue hvalueDepth,
      rereadItems_of_itemsSound items hitems hitemsDepth]
    rfl

theorem rereadFields_of_fieldsSound (fields : List (Text × Value))
    (hsound : fieldsSound fields = true) {depth : Nat} (hdepth : fieldsNesting fields ≤ depth) :
    rereadFields depth fields = some (mapFields Binary64.reread fields) := by
  cases fields with
  | nil => rfl
  | cons field fields =>
    obtain ⟨name, value⟩ := field
    obtain ⟨hvalue, hfields⟩ := Bool.and_eq_true_iff.1 hsound
    obtain ⟨hvalueDepth, hfieldsDepth⟩ := max_le_iff.1 hdepth
    rw [rereadFields, value.reread_of_isSound hvalue hvalueDepth,
      rereadFields_of_fieldsSound fields hfields hfieldsDepth]
    rfl

end

/-- A sound value in which lists and records are nested to a given depth at most. -/
def Value.Within (depth : Nat) (value : Value) : Prop :=
  value.isSound = true ∧ value.nesting ≤ depth

instance (depth : Nat) (value : Value) : Decidable (value.Within depth) :=
  inferInstanceAs (Decidable (_ ∧ _))

/-- A value within the depth of the reader is taken back, each double as it is read. -/
theorem Value.Within.reread {value : Value} {depth : Nat} (h : value.Within depth) :
    value.reread depth = some (value.mapDoubles Binary64.reread) :=
  value.reread_of_isSound h.1 h.2

end Pagewright
