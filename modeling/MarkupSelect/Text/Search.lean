import MarkupSelect.Text.Bytes

/-!
# Searching for a literal

Searches for a literal text in which ASCII letter case does not matter. `search?` gives the least
position at or after a start, `searchLast?` the greatest position of all. These are the searches of
the component `scanner` in `SPEC_FULL.md` §10.
-/

namespace MarkupSelect.Bytes

/-- Whether a text begins with a literal, but for letter case. -/
def beginsWith : (literal text : Bytes) → Bool
  | [], _ => true
  | _ :: _, [] => false
  | n :: literal, b :: text => Ascii.toLower n == Ascii.toLower b && beginsWith literal text

/-- The first position at which the literal stands and which is not beyond `last`, where `text` lies
at `position`. Only a byte that is the first one of the literal in either case is a candidate; where
the literal does not stand at a candidate, the search goes on behind it. -/
def searchFrom? (literal : Bytes) (first : UInt8) (last position : Nat) (text : Bytes) :
    Option Nat :=
  match _h : text.findIdx? (Ascii.isEitherCase first) with
  | none => none
  | some i =>
    if last < position + i then none
    else if agree ((text.drop i).take literal.length) literal then some (position + i)
    else searchFrom? literal first last (position + i + 1) (text.drop (i + 1))
termination_by text.length
decreasing_by
  have := (List.findIdx?_eq_some_iff_getElem.mp _h).1
  rw [List.length_drop]
  omega

/-- The first position at or after `start` at which the literal stands; the empty literal stands
everywhere up to the end of the text. -/
def search? (text literal : Bytes) (start : Nat) : Option Nat :=
  if text.length < start then none
  else
    match literal with
    | [] => some start
    | first :: _ =>
      if text.length - start < literal.length then none
      else searchFrom? literal first (text.length - literal.length) start (text.drop start)

/-- The last position at which the literal stands, where `text` lies at `position`. -/
def lastHit? (literal : Bytes) (position : Nat) : Bytes → Option Nat
  | [] => none
  | b :: text =>
    (lastHit? literal (position + 1) text).or
      (if beginsWith literal (b :: text) then some position else none)

/-- The last position at which a literal that is not empty stands. -/
def searchLast? (text literal : Bytes) : Option Nat :=
  if literal.isEmpty then none else lastHit? literal 0 text

/-- Beginning with a literal is agreement with as many bytes of the text as the literal has. -/
theorem beginsWith_iff {literal text : Bytes} :
    beginsWith literal text = true ↔ literal.lower <+: text.lower := by
  induction literal generalizing text with
  | nil => simp [beginsWith, lower]
  | cons n literal ih =>
    cases text with
    | nil => simp [beginsWith, lower]
    | cons b text =>
      have step := @ih text
      simp only [lower] at step
      simp [beginsWith, lower, List.cons_prefix_cons, step]

/-- A text that begins with a literal is no shorter than it. -/
theorem length_le_of_beginsWith {literal text : Bytes} (h : beginsWith literal text = true) :
    literal.length ≤ text.length := by
  simpa using (beginsWith_iff.mp h).length_le

/-- The empty text begins with the empty literal alone. -/
theorem eq_nil_of_beginsWith_nil {literal : Bytes} (h : beginsWith literal [] = true) :
    literal = [] := by
  cases literal with
  | nil => rfl
  | cons n literal => contradiction

@[simp] theorem beginsWith_nil (text : Bytes) : beginsWith [] text = true := by
  simp [beginsWith]

/-- A search between two positions finds nothing outside them. -/
theorem searchFrom?_bounds {literal text : Bytes} {first : UInt8} {last position i : Nat}
    (h : searchFrom? literal first last position text = some i) : position ≤ i ∧ i ≤ last := by
  fun_induction searchFrom? literal first last position text with
  | case1 | case2 => contradiction
  | case3 position text j _ hlast _ =>
    obtain rfl := Option.some.inj h
    omega
  | case4 position text j _ hlast _ ih =>
    have := ih h
    omega

/-- A literal found lies at or after the start and ends inside the text. -/
theorem search?_bounds {text literal : Bytes} {start i : Nat}
    (h : search? text literal start = some i) :
    start ≤ i ∧ i + literal.length ≤ text.length := by
  cases literal with
  | nil =>
    rw [search?, Option.ite_none_left_eq_some, Option.some.injEq, Nat.not_lt] at h
    obtain ⟨hstart, rfl⟩ := h
    exact ⟨Nat.le_refl _, hstart⟩
  | cons first literal =>
    rw [search?, Option.ite_none_left_eq_some, Option.ite_none_left_eq_some] at h
    obtain ⟨hstart, hlength, h⟩ := h
    have := searchFrom?_bounds h
    omega

/-- Whether a text holds a literal anywhere, but for letter case. -/
def holds (text literal : Bytes) : Bool := (search? text literal 0).isSome

/-- Whether a text ends with a literal, but for letter case. -/
def endsWith (literal text : Bytes) : Bool := beginsWith literal.reverse text.reverse

end MarkupSelect.Bytes
