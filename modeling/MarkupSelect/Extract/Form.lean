import MarkupSelect.Selection

/-!
# Forms

The fields of a form as values and entries by their names, and what a button submits. Specified in
`SPEC_FULL.md` §13.4.
-/

namespace MarkupSelect

/-!
### Values of form fields

A form field has a value or entries of its own, keyed by name or by number. Fields of one name are
merged: the entries of both are brought together, a plain value counting as an entry with a number,
and entries with numbers are numbered on.
-/

/-- The value of a form field, absent if the control has none, or its entries by their keys, in
order. -/
inductive FormValue where
  | value (text : Option Bytes)
  | map (entries : List (Bytes × FormValue))

namespace FormValue

/-- Entries by their keys. -/
abbrev Entries := List (Bytes × FormValue)

mutual

/-- Whether two values are the same. -/
def same : FormValue → FormValue → Bool
  | .value s, .value t => s == t
  | .map es, .map fs => sameEntries es fs
  | _, _ => false

/-- Whether two lists of entries are the same. -/
def sameEntries : Entries → Entries → Bool
  | [], [] => true
  | (k, v) :: es, (l, w) :: fs => k == l && same v w && sameEntries es fs
  | _, _ => false

end

mutual

/-- Values that are the same are equal. -/
theorem eq_of_same : ∀ {v w : FormValue}, same v w = true → v = w
  | .value s, .value t, h => by simpa [same] using h
  | .map es, .map fs, h => by
    rw [same] at h
    rw [eq_of_sameEntries h]
  | .value _, .map _, h => by simp [same] at h
  | .map _, .value _, h => by simp [same] at h

/-- Entries that are the same are equal. -/
theorem eq_of_sameEntries : ∀ {es fs : Entries}, sameEntries es fs = true → es = fs
  | [], [], _ => rfl
  | (k, v) :: es, (l, w) :: fs, h => by
    simp only [sameEntries, Bool.and_eq_true, beq_iff_eq] at h
    rw [h.1.1, eq_of_same h.1.2, eq_of_sameEntries h.2]
  | [], _ :: _, h => by simp [sameEntries] at h
  | _ :: _, [], h => by simp [sameEntries] at h

end

mutual

/-- A value is the same as itself. -/
theorem same_self : ∀ v : FormValue, same v v = true
  | .value s => by simp [same]
  | .map es => by rw [same, sameEntries_self es]

/-- Entries are the same as themselves. -/
theorem sameEntries_self : ∀ es : Entries, sameEntries es es = true
  | [] => by simp [sameEntries]
  | (k, v) :: es => by simp [sameEntries, same_self v, sameEntries_self es]

end

/-- Values are compared entry by entry, with the entries inside them. -/
instance : DecidableEq FormValue := fun v w ↦
  decidable_of_iff (same v w = true) ⟨eq_of_same, fun h ↦ h ▸ same_self v⟩

/-- The entry of a key; a plain value has none. -/
def get? (v : FormValue) (key : Bytes) : Option FormValue :=
  match v with
  | .map entries => (entries.find? (·.1 == key)).map (·.2)
  | .value _ => none

/-- The text of a plain value. -/
def text? : FormValue → Option Bytes
  | .value text => text
  | .map _ => none

/-- The entries that a value stands for when another is merged into it. -/
def toEntries : FormValue → Entries
  | .map entries => entries
  | .value none => []
  | .value (some text) => [([Ascii.zero], .value (some text))]

/-- Whether a key is a number: `0`, or digits that do not begin with `0`. -/
def isIndex (key : Bytes) : Bool :=
  key == [Ascii.zero] ||
    (!key.isEmpty && key.head? != some Ascii.zero && key.all Ascii.isDigit)

/-- The number that digits stand for. -/
def decimal (digits : Bytes) :
    Nat := digits.foldl (fun n b ↦ n * 10 + (b.toNat - Ascii.zero.toNat)) 0

/-- The number of indexes that a word of 64 bits can tell apart, the 64th power of two. -/
def indexCount : Nat := 18446744073709551616

/-- The number of a key that is an index of 64 bits. -/
def index? (key : Bytes) : Option Nat :=
  if isIndex key && decimal key < indexCount then some (decimal key) else none

/-- The key of an index. -/
def indexKey (index : Nat) : Bytes := Bytes.ofChars (Nat.toDigits 10 index)

/-- The index behind the greatest one in use, counted in words of 64 bits. -/
def nextIndex (entries : Entries) : Nat :=
  match (entries.filterMap fun e ↦ index? e.1).max? with
  | none => 0
  | some index => (index + 1) % indexCount

/-- The entries with one more under the next number. -/
def append (entries : Entries) (v : FormValue) :
    Entries := entries ++ [(indexKey (nextIndex entries), v)]

/-- The entries with the value of the first entry of a key replaced. -/
def replace (key : Bytes) (v : FormValue) : Entries → Entries
  | [] => []
  | e :: entries => if e.1 == key then (e.1, v) :: entries else e :: replace key v entries

mutual

/-- The entries with others merged into them. -/
def mergeEntries (target : Entries) : Entries → Entries
  | [] => target
  | (key, v) :: others =>
    if isIndex key then mergeEntries (append target v) others
    else
      match get? (.map target) key with
      | some present =>
        mergeEntries (replace key (.map (mergeValue present.toEntries v)) target) others
      | none => mergeEntries (target ++ [(key, v)]) others

/-- The entries with those of a value merged into them. -/
def mergeValue (target : Entries) : FormValue → Entries
  | .map entries => mergeEntries target entries
  | .value none => target
  | .value (some text) => append target (.value (some text))

end

/-- The keys that a field name written as `a[b][]` leads through. -/
def path (name : Bytes) : List Bytes :=
  let trimmed := (name.reverse.dropWhile (· == Ascii.closeBracket)).reverse
  (trimmed.splitOn Ascii.openBracket).map fun segment ↦
    if segment.getLast? = some Ascii.closeBracket then segment.dropLast else segment

/-- The value under a path of keys; an empty key is the number `0`. -/
def nested (v : FormValue) : List Bytes → FormValue
  | [] => v
  | key :: keys => .map [(if key.isEmpty then [Ascii.zero] else key, nested v keys)]

/-- The entries of a single field of a name and a value. -/
def field (name : Bytes) (v : FormValue) : Entries := (nested v (path name)).toEntries

end FormValue

/-!
### Fields of forms

The fields of a form are the controls with a name, in the order of the document, and those of one
name are merged. What a button submits are the fields without those of the other submit buttons.
-/

namespace Form

/-- The controls of a form. -/
def controls : String := "input, textarea, select, button"

/-- The buttons that submit a form. -/
def submitButtons : String := "[type=submit]"

/-- The value of an option that is written with one. -/
def optionValue? (option : Bytes) : Option Bytes :=
  ((AttributeMap.ofMarkup option).get? (Bytes.ofString "value")).map (·.getD [])

/-- The values of the options of a `select`, numbered; without any it has no value. -/
def selectValue (select : Bytes) : FormValue :=
  let options := ((Selection.ofDocument select).find "option").elements
  match options.entries.filterMap fun e ↦ optionValue? e.2 with
  | [] => .value none
  | values => .map (values.mapIdx fun i value ↦ (FormValue.indexKey i, .value (some value)))

/-- The value of a control: of a `select` that of its options, of a `textarea` its content, and of
any other the attribute `value`. -/
def controlValue (control : Bytes) : FormValue :=
  let name := StartTag.nameOf? control
  if name = some (Bytes.ofString "select") then selectValue control
  else if name = some (Bytes.ofString "textarea") then
    .value ((Parts.ofMarkup? control).map (·.content))
  else .value ((AttributeMap.ofMarkup control).value? (Bytes.ofString "value"))

/-- The fields with the one of a control merged into them; a control without a name has none. -/
def addControl (fields : FormValue.Entries) (control : Bytes) : FormValue.Entries :=
  match (AttributeMap.ofMarkup control).value? (Bytes.ofString "name") with
  | none => fields
  | some name => FormValue.mergeEntries fields (FormValue.field name (controlValue control))

/-- The fields of the controls in a selection; a selector given takes the place of the usual
controls; §13.4, `extract_form`. -/
def fields (s : Selection) (selector : Option String) : FormValue.Entries :=
  ((s.find (selector.getD controls)).elements.entries.map (·.2)).foldl addControl []

/-- The fields that are submitted with the button of a name; §13.4, `prepare_post_form`. -/
def submitted (s : Selection) (trigger : Bytes) : FormValue.Entries :=
  let others := (fields s (some submitButtons)).filter (·.1 != trigger)
  (fields s none).filter fun field ↦ !others.contains field

end Form

end MarkupSelect
