import MarkupSelect.Proofs.Text.Piece
import MarkupSelect.Tag

/-!
# Tags and their names

Which names are found wherever they stand, which texts begin with a start tag, and which piece of a
text the tag around a place is.
-/

namespace MarkupSelect

/-!
### Plain names

A plain name is written in lower case and begins with a letter, so that its start tag is found
wherever it stands. The names in the table of known elements are plain.
-/

namespace Tag

/-- A plain name: name bytes in lower case, the first of them a letter. -/
structure IsPlain (name : Bytes) : Prop where
  letter : name.head?.any Ascii.isLetter = true
  bytes : name.all isNameByte = true
  lower_eq : name.lower = name

/-- A plain name is a letter and what follows it. -/
theorem IsPlain.exists_cons {name : Bytes} (h : IsPlain name) :
    ∃ b rest, name = b :: rest ∧ Ascii.isLetter b = true := by
  have hletter := h.letter
  cases name with
  | nil => exact absurd hletter Bool.false_ne_true
  | cons b rest => exact ⟨b, rest, rfl, hletter⟩

/-- A plain name is not empty. -/
theorem IsPlain.ne_nil {name : Bytes} (h : IsPlain name) : name ≠ [] := by
  obtain ⟨b, rest, rfl, -⟩ := h.exists_cons
  exact List.cons_ne_nil b rest

/-- The names of known elements are plain. -/
theorem isPlain_of_mem {name : Bytes} (h : name ∈ knownNames) : IsPlain name := by
  have hall : ∀ name ∈ knownNames, name.head?.any Ascii.isLetter = true ∧
      name.all isNameByte = true ∧ name.lower = name := by decide +kernel
  obtain ⟨hletter, hbytes, hlower⟩ := hall name h
  exact ⟨hletter, hbytes, hlower⟩

/-- A known name is known to the attribute search. -/
theorem isKnown_of_mem {name : Bytes} (h : name ∈ knownNames) : isKnown name = true := by
  rw [isKnown, List.any_eq_true]
  exact ⟨name, h, Bytes.agree_refl name⟩

end Tag

/-!
### Which texts begin with a start tag

The start tag of a markup is determined by its beginning: it is the one proper tag whose text the
markup begins with, so that whatever follows the `>` may be changed or cut off.
-/

/-- White space ends a tag name. -/
theorem Tag.isNameByte_of_isSpace {b : UInt8} (h : Ascii.isSpace b = true) : isNameByte b = false :=
  Ascii.forall_byte (p := fun b ↦ Ascii.isSpace b = true → isNameByte b = false)
    (by decide +kernel) b h

namespace StartTag

/-- A tag as it can be found: the name is as long as it can be, and the attribute list ends at the
first `>`. -/
structure IsProper (tag : StartTag) : Prop where
  name_ne_nil : tag.name ≠ []
  name_bytes : tag.name.all Tag.isNameByte = true
  name_ends : ∀ b ∈ tag.attributes.head?, Tag.isNameByte b = false
  greater_not_mem : Ascii.greater ∉ tag.attributes

/-- A name byte is neither an angle bracket nor a `/`. -/
theorem IsProper.not_mem_name {tag : StartTag} (h : tag.IsProper) {b : UInt8}
    (hb : Tag.isNameByte b = false) : b ∉ tag.name := fun hmem ↦ by
  have := List.all_eq_true.mp h.name_bytes b hmem
  rw [hb] at this
  contradiction

private theorem ofRest?_of_isProper {tag : StartTag} (h : tag.IsProper) (rest : Bytes) :
    ofRest? (tag.name ++ (tag.attributes ++ Ascii.greater :: rest)) = some tag := by
  have hend : ∀ b ∈ (tag.attributes ++ Ascii.greater :: rest).head?, Tag.isNameByte b = false := by
    intro b hb
    cases hattr : tag.attributes with
    | nil =>
      rw [hattr] at hb
      obtain rfl : Ascii.greater = b := by simpa using hb
      decide
    | cons c attributes =>
      rw [hattr] at hb
      exact h.name_ends b (by simpa [hattr] using hb)
  obtain ⟨htake, hdrop⟩ := Bytes.takeWhile_append_of_head h.name_bytes hend
  have hlist := (Bytes.takeWhile_ne h.greater_not_mem rest).1
  simp [ofRest?, htake, hdrop, hlist, h.name_ne_nil]

/-- A markup begins with a start tag exactly if it begins with the text of a proper one. -/
theorem ofMarkup?_eq_some_iff {markup : Bytes} {tag : StartTag} :
    ofMarkup? markup = some tag ↔ tag.IsProper ∧ tag.text <+: markup := by
  constructor
  · intro h
    refine ⟨?_, text_prefix_of_ofMarkup? h⟩
    cases markup with
    | nil => simp [ofMarkup?] at h
    | cons b rest =>
      simp only [ofMarkup?, Option.ite_none_right_eq_some] at h
      obtain ⟨hne, hbytes, hgreater, -⟩ := ofRest?_eq_some h.2
      refine ⟨hne, hbytes, ?_, hgreater⟩
      intro c hc
      simp only [ofRest?, Option.ite_none_right_eq_some, Option.some.injEq] at h
      obtain ⟨-, -, rfl⟩ := h
      have hhead := List.head?_dropWhile_not Tag.isNameByte rest
      cases hd : rest.dropWhile Tag.isNameByte with
      | nil => simp [hd] at hc
      | cons d behind =>
        rw [hd] at hhead
        simp only [hd, List.takeWhile_cons] at hc
        split at hc
        · obtain rfl : d = c := by simpa using hc
          simpa using hhead
        · simp at hc
  · rintro ⟨h, rest, rfl⟩
    rw [text, List.cons_append, ofMarkup?, if_pos rfl, List.append_assoc, List.append_assoc]
    exact ofRest?_of_isProper h rest

/-- A tag found is proper. -/
theorem isProper_of_ofMarkup? {markup : Bytes} {tag : StartTag} (h : ofMarkup? markup = some tag) :
    tag.IsProper := (ofMarkup?_eq_some_iff.mp h).1

/-- The name of a start tag is as long as it can be. -/
theorem name_of_ofMarkup? {rest : Bytes} {tag : StartTag}
    (h : ofMarkup? (Ascii.less :: rest) = some tag) : tag.name = rest.takeWhile Tag.isNameByte := by
  rw [ofMarkup?, if_pos rfl, ofRest?, Option.ite_none_right_eq_some] at h
  rw [← Option.some.inj h.2]

/-- Where a start tag seems to begin but none does, no `>` follows. -/
theorem greater_not_mem_of_ofMarkup? {rest : Bytes}
    (hletter : rest.head?.any Ascii.isLetter = true)
    (h : ofMarkup? (Ascii.less :: rest) = none) : Ascii.greater ∉ Ascii.less :: rest := by
  cases rest with
  | nil => contradiction
  | cons b rest =>
    have hb : Tag.isNameByte b = true := by
      rw [Tag.isNameByte, show Ascii.isLetter b = true from hletter, Bool.true_or, Bool.true_or]
    have hname : (b :: rest).takeWhile Tag.isNameByte ≠ [] := by simp [hb]
    have hbehind : Ascii.greater ∉ (b :: rest).dropWhile Tag.isNameByte := by
      simpa [ofMarkup?, ofRest?, hname] using h
    intro hmem
    rw [List.mem_cons, ← List.takeWhile_append_dropWhile (p := Tag.isNameByte) (l := b :: rest),
      List.mem_append] at hmem
    rcases hmem with hless | hmem | hmem
    · contradiction
    · have := List.all_eq_true.mp List.all_takeWhile _ hmem
      contradiction
    · exact hbehind hmem

/-- What follows a start tag does not matter to it. -/
theorem ofMarkup?_of_prefix {markup other : Bytes} {tag : StartTag}
    (h : ofMarkup? markup = some tag) (hother : tag.text <+: other) : ofMarkup? other = some tag :=
  ofMarkup?_eq_some_iff.mpr ⟨isProper_of_ofMarkup? h, hother⟩

/-- The text of a start tag is that start tag. -/
theorem ofMarkup?_text {markup : Bytes} {tag : StartTag} (h : ofMarkup? markup = some tag) :
    ofMarkup? tag.text = some tag := ofMarkup?_of_prefix h (List.prefix_refl _)

/-- White space in a proper tag stands in its attribute list. -/
theorem IsProper.exists_lead {tag : StartTag} (h : tag.IsProper) {before behind : Bytes}
    {s : UInt8} (hs : Ascii.isSpace s = true)
    (hsplit : tag.name ++ tag.attributes = before ++ s :: behind) :
    ∃ lead, tag.attributes = lead ++ s :: behind ∧ before = tag.name ++ lead := by
  rcases Bytes.append_eq_append_cons hsplit with ⟨rest, hname, -⟩ | hlead
  · have hmem : s ∈ tag.name := by
      rw [hname]
      exact List.mem_append_right _ List.mem_cons_self
    exact absurd hmem (h.not_mem_name (Tag.isNameByte_of_isSpace hs))
  · exact hlead

/-- The text of a proper tag is that of a known element if the name is known. -/
theorem IsProper.isKnownTag_text {tag : StartTag} (h : tag.IsProper) :
    isKnownTag tag.text = Tag.isKnown tag.name := by
  have hself : ofMarkup? tag.text = some tag := ofMarkup?_eq_some_iff.mpr ⟨h, List.prefix_refl _⟩
  rw [isKnownTag, hself]
  dsimp only
  rw [length, beq_self_eq_true, Bool.true_and]

/-- No proper tag begins with a `/` behind its `<`. -/
theorem IsProper.head?_ne_slash {tag : StartTag} (h : tag.IsProper) :
    (tag.name ++ tag.attributes).head? ≠ some Ascii.slash := by
  obtain ⟨b, name, hname⟩ := List.exists_cons_of_ne_nil h.name_ne_nil
  rw [hname, List.cons_append, List.head?_cons]
  intro hslash
  apply h.not_mem_name (b := Ascii.slash) (by decide)
  rw [hname, Option.some.inj hslash]
  exact List.mem_cons_self

end StartTag

/-!
### The tag around a place

The nearest `<` backward and the nearest `>` forward cut a piece out of the text. Between two
brackets that belong together a place is told to be inside a start tag by the byte behind the `<`
alone.
-/

namespace Place

/-- Around a place between a `<` and a `>` these two cut the piece out. -/
theorem enclosing?_append {lead rest : Bytes} (hlead : Ascii.less ∉ lead)
    (hrest : Ascii.greater ∉ rest) (before after : Bytes) :
    enclosing? ⟨lead ++ Ascii.less :: before, rest ++ Ascii.greater :: after⟩ =
      some (before.length, Ascii.less :: (lead.reverse ++ rest ++ [Ascii.greater])) := by
  have hless : (lead ++ Ascii.less :: before).contains Ascii.less = true := by simp
  have hgreater : (rest ++ Ascii.greater :: after).contains Ascii.greater = true := by simp
  have hoffset : (lead ++ Ascii.less :: before).length - lead.length - 1 = before.length := by
    rw [List.length_append, List.length_cons]
    omega
  simp only [enclosing?, hless, hgreater, Bool.and_self, if_true, offset,
    (Bytes.takeWhile_ne hlead before).1, (Bytes.takeWhile_ne hrest after).1, hoffset]

/-- The piece around a place reaches from the nearest `<` to the nearest `>`. -/
theorem enclosing?_eq_some_iff {p : Place} {e : Nat × Bytes} :
    p.enclosing? = some e ↔
      ∃ lead before rest after, p.before = lead ++ Ascii.less :: before ∧ Ascii.less ∉ lead ∧
        p.after = rest ++ Ascii.greater :: after ∧ Ascii.greater ∉ rest ∧
        e = (before.length, Ascii.less :: (lead.reverse ++ rest ++ [Ascii.greater])) := by
  obtain ⟨front, behind⟩ := p
  constructor
  · intro h
    obtain ⟨hless, hgreater⟩ : Ascii.less ∈ front ∧ Ascii.greater ∈ behind := by
      rw [enclosing?, Option.ite_none_right_eq_some, Bool.and_eq_true, List.contains_iff_mem,
        List.contains_iff_mem] at h
      exact h.1
    obtain ⟨lead, before, rfl, hlead⟩ := List.eq_append_cons_of_mem hless
    obtain ⟨rest, after, rfl, hrest⟩ := List.eq_append_cons_of_mem hgreater
    rw [enclosing?_append hlead hrest] at h
    exact ⟨lead, before, rest, after, rfl, hlead, rfl, hrest, (Option.some.inj h).symm⟩
  · rintro ⟨lead, before, rest, after, rfl, hlead, rfl, hrest, rfl⟩
    exact enclosing?_append hlead hrest before after

/-- Behind a `<` without brackets in between, only a `/` at once behind it makes an end tag of the
tag. -/
theorem opened_append {lead : Bytes} (h : ∀ b ∈ lead, isBracket b = false) (next : UInt8)
    (before : Bytes) :
    opened next (lead ++ Ascii.less :: before) = (lead.getLast?.getD next != Ascii.slash) := by
  induction lead generalizing next with
  | nil => simp [opened]
  | cons b lead ih =>
    have hb : isBracket b = false := h b List.mem_cons_self
    simp only [isBracket, Bool.or_eq_false_iff, beq_eq_false_iff_ne] at hb
    rw [List.cons_append, opened, if_neg hb.1, if_neg hb.2,
      ih fun c hc ↦ h c (List.mem_cons_of_mem _ hc), List.getLast?_cons, Option.getD_some]

/-- In front of the first `>` no `<` stands in between if the nearest bracket is that `>`. -/
theorem closed_append_iff {rest : Bytes} (h : Ascii.greater ∉ rest) (after : Bytes) :
    closed (rest ++ Ascii.greater :: after) = true ↔ Ascii.less ∉ rest := by
  induction rest with
  | nil => simp [closed]
  | cons b rest ih =>
    rw [List.mem_cons, not_or] at h
    rw [List.cons_append, closed, if_neg (Ne.symm h.1), List.mem_cons, not_or]
    by_cases hless : b = Ascii.less
    · simp [hless]
    · rw [if_neg hless, ih h.2]
      simp [Ne.symm hless]

/-- Between the brackets of a tag a place is inside a start tag exactly if no `<` stands between the
byte at the place and the `>`. -/
theorem insideStartTag_iff {lead rest : Bytes} (hlead : ∀ b ∈ lead, isBracket b = false)
    (hgreater : Ascii.greater ∉ rest) (hne : rest ≠ [])
    (hslash : (lead ++ rest).head? ≠ some Ascii.slash) (before after : Bytes) :
    insideStartTag ⟨lead.reverse ++ Ascii.less :: before, rest ++ Ascii.greater :: after⟩ = true ↔
      Ascii.less ∉ rest.drop 1 := by
  obtain ⟨b, rest, rfl⟩ := List.exists_cons_of_ne_nil hne
  rw [List.mem_cons, not_or] at hgreater
  have hopened : opened b (lead.reverse ++ Ascii.less :: before) = true := by
    rw [opened_append (fun c hc ↦ hlead c (List.mem_reverse.mp hc)), List.getLast?_reverse,
      bne_iff_ne]
    intro heq
    apply hslash
    rw [← heq]
    cases lead <;> rfl
  rw [List.cons_append, insideStartTag]
  dsimp only
  rw [hopened, Bool.true_and, closed_append_iff hgreater.2]
  rfl

end Place

end MarkupSelect
