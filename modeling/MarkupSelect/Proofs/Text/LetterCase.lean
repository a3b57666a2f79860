import MarkupSelect.Proofs.Text.Boundary
import MarkupSelect.Proofs.Text.Search
import MarkupSelect.Text.Blank
import MarkupSelect.Text.Cursor

/-!
# Letter case and searches

Putting a text in lower case changes no byte but letters. So what a search finds in the text in
lower case, at which places, and how the text is cut at bytes that are no letters, is the same as
before, in lower case.
-/

namespace MarkupSelect

/-! ### Bytes -/

namespace Ascii

/-- Comparing with a byte that is no letter does not depend on letter case. -/
theorem toLower_beq {c : UInt8} (hc : isLetter c = false) (b : UInt8) :
    (toLower b == c) = (b == c) := by
  rw [Bool.eq_iff_iff, beq_iff_eq, beq_iff_eq, toLower_eq_iff hc]

/-- Telling a byte from one that is no letter does not depend on letter case. -/
theorem toLower_bne {c : UInt8} (hc : isLetter c = false) (b : UInt8) :
    (toLower b != c) = (b != c) := congrArg (! ·) (toLower_beq hc b)

/-- A letter is a letter in lower case. -/
@[simp] theorem isLetter_toLower (b : UInt8) : isLetter (toLower b) = isLetter b :=
  forall_byte (p := fun b ↦ isLetter (toLower b) = isLetter b) (by decide +kernel) b

/-- Quotes have no letter case. -/
@[simp] theorem isQuote_toLower (b : UInt8) : isQuote (toLower b) = isQuote b := by
  rw [isQuote, toLower_beq rfl, toLower_beq rfl, isQuote]

end Ascii

/-! ### Texts -/

namespace Bytes

@[simp] theorem lower_nil : lower [] = [] := rfl

@[simp] theorem lower_cons (b : UInt8) (text : Bytes) :
    lower (b :: text) = Ascii.toLower b :: lower text := rfl

@[simp] theorem lower_take (n : Nat) (text : Bytes) :
    lower (text.take n) = (lower text).take n := List.map_take

@[simp] theorem lower_drop (n : Nat) (text : Bytes) :
    lower (text.drop n) = (lower text).drop n := List.map_drop

@[simp] theorem lower_reverse (text : Bytes) : lower text.reverse = (lower text).reverse :=
  List.map_reverse

@[simp] theorem isEmpty_lower (text : Bytes) : (lower text).isEmpty = text.isEmpty :=
  List.isEmpty_map

section Class

variable {p : UInt8 → Bool} (hp : ∀ b, p (Ascii.toLower b) = p b)

include hp

/-- What begins a text in a class that ignores letter case. -/
theorem takeWhile_lower (text : Bytes) :
    (lower text).takeWhile p = lower (text.takeWhile p) := by
  rw [lower, List.takeWhile_map, show p ∘ Ascii.toLower = p from funext hp]
  rfl

/-- What follows the beginning of a text in a class that ignores letter case. -/
theorem dropWhile_lower (text : Bytes) :
    (lower text).dropWhile p = lower (text.dropWhile p) := by
  rw [lower, List.dropWhile_map, show p ∘ Ascii.toLower = p from funext hp]
  rfl

/-- Whether a text lies in a class that ignores letter case. -/
theorem all_lower (text : Bytes) : (lower text).all p = text.all p := by
  rw [lower, List.all_map, show p ∘ Ascii.toLower = p from funext hp]

/-- Whether a text begins with a byte of a class that ignores letter case. -/
theorem head?_any_lower (text : Bytes) : (lower text).head?.any p = text.head?.any p := by
  cases text with
  | nil => rfl
  | cons b text => exact hp b

end Class

/-- Whether a text holds a byte that is no letter. -/
theorem contains_lower {c : UInt8} (hc : Ascii.isLetter c = false) (text : Bytes) :
    (lower text).contains c = text.contains c := by
  induction text with
  | nil => rfl
  | cons b text ih =>
    rw [lower_cons, List.contains_cons, List.contains_cons, ih, Bool.beq_comm,
      Ascii.toLower_beq hc, Bool.beq_comm]

/-! ### Searches -/

/-- A literal in lower case is found where the literal is. -/
@[simp] theorem beginsWith_lower_left (literal text : Bytes) :
    beginsWith (lower literal) text = beginsWith literal text := by
  rw [Bool.eq_iff_iff, beginsWith_iff, beginsWith_iff, lower_lower]

/-- A literal is found in a text in lower case where it is found in the text. -/
@[simp] theorem beginsWith_lower_right (literal text : Bytes) :
    beginsWith literal (lower text) = beginsWith literal text := by
  rw [Bool.eq_iff_iff, beginsWith_iff, beginsWith_iff, lower_lower]

/-- Where a literal occurs does not depend on letter case. -/
theorem occursAt_lower_iff {literal text : Bytes} {offset : Nat} :
    (lower literal).OccursAt offset (lower text) ↔ literal.OccursAt offset text := by
  rw [occursAt_iff, occursAt_iff, length_lower, ← lower_drop, beginsWith_lower_left,
    beginsWith_lower_right]

/-- The first search does not depend on letter case. -/
@[simp] theorem search?_lower (text literal : Bytes) (start : Nat) :
    search? (lower text) (lower literal) start = search? text literal start :=
  search?_congr (fun _ ↦ occursAt_lower_iff) start

/-- The last search does not depend on letter case. -/
@[simp] theorem searchLast?_lower (text literal : Bytes) :
    searchLast? (lower text) (lower literal) = searchLast? text literal := by
  cases literal with
  | nil => rfl
  | cons b literal =>
    exact searchLast?_congr (List.cons_ne_nil _ _) (List.cons_ne_nil _ _) fun _ ↦ occursAt_lower_iff

/-- Whether a text holds a literal does not depend on letter case. -/
@[simp] theorem holds_lower (text literal : Bytes) :
    holds (lower text) (lower literal) = holds text literal := by
  rw [holds, holds, search?_lower]

/-- Whether a text ends with a literal does not depend on letter case. -/
@[simp] theorem endsWith_lower (literal text : Bytes) :
    endsWith (lower literal) (lower text) = endsWith literal text := by
  rw [endsWith, endsWith, ← lower_reverse, ← lower_reverse, beginsWith_lower_left,
    beginsWith_lower_right]

end Bytes

/-! ### Characters -/

namespace Text

/-- The upper case letters by their numbers. -/
theorem isUpper_iff {c : Char} : c.isUpper = true ↔ 65 ≤ c.toNat ∧ c.toNat ≤ 90 := by
  show decide (c.val ≥ 'A'.val ∧ c.val ≤ 'Z'.val) = true ↔ _
  rw [decide_eq_true_eq, ge_iff_le, UInt32.le_iff_toNat_le, UInt32.le_iff_toNat_le, Char.toNat_val]
  rfl

/-- A character that is no upper case letter is its own lower case. -/
theorem toLower_of_not_isUpper {c : Char} (h : c.isUpper = false) : c.toLower = c := by
  unfold Char.toLower
  split
  · next hupper =>
    have hletter : c.isUpper = true := decide_eq_true hupper
    rw [h] at hletter
    contradiction
  · rfl

/-- The characters of a string in lower case. -/
theorem toList_toLower (s : String) : s.toLower.toList = s.toList.map Char.toLower :=
  String.toList_map

/-- A property of all upper case letters is settled by the 26 cases. -/
theorem forall_isUpper {p : Char → Prop} (h : ∀ n : Fin 26, p (Char.ofNat (65 + n))) {c : Char}
    (hc : c.isUpper = true) : p c := by
  obtain ⟨hle, hge⟩ := isUpper_iff.mp hc
  have hchar : c = Char.ofNat (65 + (c.toNat - 65)) := by
    rw [Nat.add_sub_cancel' hle, Char.ofNat_toNat]
  rw [hchar]
  exact h ⟨c.toNat - 65, by omega⟩

/-- Lowering twice is lowering once. -/
theorem toLower_toLower (c : Char) : c.toLower.toLower = c.toLower := by
  cases hc : c.isUpper with
  | false => rw [toLower_of_not_isUpper hc, toLower_of_not_isUpper hc]
  | true =>
    exact forall_isUpper (p := fun c ↦ c.toLower.toLower = c.toLower) (by decide) hc

/-- A character in lower case is no upper case letter. -/
theorem isUpper_toLower (c : Char) : c.toLower.isUpper = false := by
  cases hc : c.isUpper with
  | false => rw [toLower_of_not_isUpper hc, hc]
  | true => exact forall_isUpper (p := fun c ↦ c.toLower.isUpper = false) (by decide) hc

/-- Among characters that are no letters a character stands exactly if it does in lower case. -/
theorem contains_toLower {cs : List Char} (h : cs.any Char.isAlpha = false) (c : Char) :
    cs.contains c.toLower = cs.contains c := by
  cases hc : c.isUpper with
  | false => rw [toLower_of_not_isUpper hc]
  | true =>
    -- Neither the letter nor its lower case is among them.
    have hnot : ∀ d : Char, d.isAlpha = true → cs.contains d = false := by
      intro d hd
      rw [← Bool.not_eq_true, List.contains_iff_mem]
      intro hmem
      exact List.any_eq_false.mp h d hmem hd
    have hletter : c.isAlpha = true ∧ c.toLower.isAlpha = true :=
      forall_isUpper (p := fun c ↦ c.isAlpha = true ∧ c.toLower.isAlpha = true)
        (by decide) hc
    rw [hnot c hletter.1, hnot c.toLower hletter.2]

/-- Blanks are no letters. -/
theorem isBlank_toLower (c : Char) : isBlank c.toLower = isBlank c :=
  contains_toLower (by decide) c

/-- Comparing with a character that is no letter does not depend on letter case. -/
theorem toLower_beq {d : Char} (hd : d.isAlpha = false) (c : Char) :
    (c.toLower == d) = (c == d) := by
  have hany : [d].any Char.isAlpha = false := by rw [List.any_cons, hd, List.any_nil, Bool.or_false]
  rw [Bool.eq_iff_iff, beq_iff_eq, beq_iff_eq, ← List.mem_singleton, ← List.mem_singleton,
    ← List.contains_iff_mem, ← List.contains_iff_mem, contains_toLower hany]

end Text

namespace Bytes

private theorem lower_encode {c : Char} (h : c.isUpper = false) :
    lower (String.utf8EncodeChar c) = String.utf8EncodeChar c := by
  have hbyte : ∀ b ∈ String.utf8EncodeChar c, Ascii.toLower b = b := by
    intro b hb
    apply Ascii.toLower_of_not_isUpper
    rw [Bool.eq_false_iff]
    intro hupper
    simp only [Ascii.isUpper, Bool.and_eq_true, decide_eq_true_eq, UInt8.le_iff_toNat_le] at hupper
    have hrange : 65 ≤ b.toNat ∧ b.toNat ≤ 90 := hupper
    have hlt : b < 0x80 := UInt8.lt_iff_toNat_lt.mpr (Nat.lt_of_le_of_lt hrange.2 (by decide))
    -- An upper case letter would be the whole character.
    have hletter : c.isUpper = true := by
      rw [Text.isUpper_iff, toNat_eq_of_mem_encode hlt hb]
      exact hrange
    rw [h] at hletter
    contradiction
  exact (List.map_congr_left hbyte).trans (List.map_id _)

/-- The encoding of a character in lower case is that of the character, in lower case. -/
theorem encode_toLower (c : Char) :
    String.utf8EncodeChar c.toLower = lower (String.utf8EncodeChar c) := by
  cases hc : c.isUpper with
  | false => rw [Text.toLower_of_not_isUpper hc, lower_encode hc]
  | true =>
    exact Text.forall_isUpper (p := fun c ↦ String.utf8EncodeChar c.toLower =
      lower (String.utf8EncodeChar c)) (by decide) hc

/-- The encoding of characters in lower case is that of the characters, in lower case. -/
theorem ofChars_toLower (cs : List Char) : ofChars (cs.map Char.toLower) = (ofChars cs).lower := by
  induction cs with
  | nil => rfl
  | cons c cs ih => rw [List.map_cons, ofChars_cons, ofChars_cons, lower_append, encode_toLower, ih]

/-- The encoding of a string in lower case is that of the string, in lower case. -/
theorem ofString_toLower (s : String) : ofString s.toLower = (ofString s).lower := by
  rw [ofString, ofString, Text.toList_toLower, ofChars_toLower]

end Bytes

/-! ### Places -/

namespace Place

/-- A place in the text in lower case. -/
def lower (p : Place) : Place := ⟨p.before.lower, p.after.lower⟩

@[simp] theorem offset_lower (p : Place) : p.lower.offset = p.offset := p.before.length_lower

/-- The next place in lower case. -/
theorem next_lower (p : Place) : p.lower.next = p.next.lower := by
  obtain ⟨before, after⟩ := p
  cases after with
  | nil => rfl
  | cons b after => rfl

private theorem hits_lower (literal : Bytes) (skip : Nat) (before after : Bytes) :
    hits literal skip before.lower after.lower = (hits literal skip before after).map lower := by
  induction after generalizing skip before with
  | nil => rfl
  | cons b after ih =>
    have hb := Bytes.beginsWith_lower_right literal (b :: after)
    have hnext := fun skip ↦ ih skip (b :: before)
    rw [Bytes.lower_cons] at hb hnext ⊢
    rw [hits, hits, hb, hnext, hnext]
    split
    · rfl
    · rfl

/-- A literal stands at the same places in the text in lower case. -/
theorem all_lower (literal text : Bytes) : all literal text.lower = (all literal text).map lower :=
  hits_lower literal 0 [] text

end Place

end MarkupSelect
