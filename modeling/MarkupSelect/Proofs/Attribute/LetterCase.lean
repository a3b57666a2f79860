import MarkupSelect.Proofs.Attribute.Layout
import MarkupSelect.Proofs.Element.LetterCase

/-!
# Letter case and attributes

The attributes of a start tag in lower case are those of the start tag, with names and values in
lower case: the ends of names, of values and of the whole list are found at bytes that have no
letter case.
-/

namespace MarkupSelect

/-! ### Blanks at the end -/

namespace Bytes

private theorem isPrefixOf_lower {lead : Bytes} (h : ∀ b ∈ lead, Ascii.isLetter b = false)
    (text : Bytes) : lead.isPrefixOf text.lower = lead.isPrefixOf text := by
  induction lead generalizing text with
  | nil => rfl
  | cons c lead ih =>
    rw [List.forall_mem_cons] at h
    cases text with
    | nil => rfl
    | cons b text =>
      rw [lower_cons, List.isPrefixOf, List.isPrefixOf, ih h.2, Bool.beq_comm,
        Ascii.toLower_beq h.1, Bool.beq_comm]

private theorem strip?_lower {lead : Bytes} (h : ∀ b ∈ lead, Ascii.isLetter b = false)
    (text : Bytes) : strip? lead text.lower = (strip? lead text).map lower := by
  rw [strip?, strip?, isPrefixOf_lower h, ← lower_drop]
  split
  · rfl
  · rfl

private theorem not_isLetter_of_blank {c : Char} (hc : c ∈ Text.blanks) :
    ∀ b ∈ (String.utf8EncodeChar c).reverse, Ascii.isLetter b = false := by
  have hall : ∀ c ∈ Text.blanks, (String.utf8EncodeChar c).all (!Ascii.isLetter ·) = true :=
    List.all_eq_true.mp (by decide)
  intro b hb
  simpa using List.all_eq_true.mp (hall c hc) b (List.mem_reverse.mp hb)

private theorem dropBlank?_lower (reversed : Bytes) :
    dropBlank? reversed.lower = (dropBlank? reversed).map lower := by
  have hblanks : ∀ cs : List Char, (∀ c ∈ cs, c ∈ Text.blanks) →
      (cs.findSome? fun c ↦ strip? (String.utf8EncodeChar c).reverse reversed.lower) =
        (cs.findSome? fun c ↦ strip? (String.utf8EncodeChar c).reverse reversed).map lower := by
    intro cs hcs
    induction cs with
    | nil => rfl
    | cons c cs ih =>
      rw [List.forall_mem_cons] at hcs
      rw [List.findSome?_cons, List.findSome?_cons, strip?_lower (not_isLetter_of_blank hcs.1),
        ih hcs.2]
      cases strip? (String.utf8EncodeChar c).reverse reversed with
      | none => rfl
      | some rest => rfl
  exact hblanks Text.blanks fun _ hc ↦ hc

private theorem dropBlanks_lower (reversed : Bytes) :
    dropBlanks reversed.lower = (dropBlanks reversed).lower := by
  fun_induction dropBlanks reversed with
  | case1 reversed h =>
    have hnone := dropBlank?_lower reversed
    rw [h] at hnone
    rw [dropBlanks]
    split
    · rfl
    · next rest hsome =>
      rw [hnone] at hsome
      contradiction
  | case2 reversed rest h ih =>
    have hsome := dropBlank?_lower reversed
    rw [h] at hsome
    rw [dropBlanks]
    split
    · next hnone =>
      rw [hsome] at hnone
      contradiction
    · next rest' hsome' =>
      obtain rfl : rest.lower = rest' := Option.some.inj (hsome.symm.trans hsome')
      exact ih

/-- The blanks at the end of a text in lower case are those of the text. -/
theorem trimEnd_lower (text : Bytes) : trimEnd text.lower = (trimEnd text).lower := by
  rw [trimEnd, trimEnd, ← lower_reverse, dropBlanks_lower, lower_reverse]

end Bytes

/-! ### Reading -/

namespace Attribute

/-- An attribute in lower case, name and value. -/
def lower (a : Bytes × Option Bytes) : Bytes × Option Bytes := (a.1.lower, a.2.map Bytes.lower)

@[simp] private theorem continuesName_toLower (b : UInt8) :
    continuesName (Ascii.toLower b) = continuesName b := by
  rw [continuesName, continuesName, Ascii.toLower_beq rfl, Ascii.isSpace_toLower]

private theorem toLower_of_isQuote {b : UInt8} (h : Ascii.isQuote b = true) :
    Ascii.isLetter b = false ∧ Ascii.toLower b = b := by
  rcases Bool.or_eq_true_iff.mp h with hb | hb
  · obtain rfl := beq_iff_eq.mp hb
    exact ⟨rfl, rfl⟩
  · obtain rfl := beq_iff_eq.mp hb
    exact ⟨rfl, rfl⟩

private theorem takeValue_lower (text : Bytes) :
    takeValue text.lower = ((takeValue text).1.lower, (takeValue text).2.lower) := by
  cases text with
  | nil => rfl
  | cons b text =>
    have hspace : ∀ b, (!Ascii.isSpace (Ascii.toLower b)) = !Ascii.isSpace b := fun b ↦ by
      rw [Ascii.isSpace_toLower]
    rw [Bytes.lower_cons, takeValue, takeValue, Ascii.isQuote_toLower]
    split
    · next hquote =>
      obtain ⟨hletter, hlower⟩ := toLower_of_isQuote hquote
      have hends := Ascii.toLower_bne hletter
      rw [hlower, Bytes.takeWhile_lower hends, Bytes.dropWhile_lower hends, ← Bytes.lower_drop]
    · rw [← Bytes.lower_cons, Bytes.takeWhile_lower hspace, Bytes.dropWhile_lower hspace]

private theorem afterName_lower (text : Bytes) : afterName text.lower = (afterName text).lower :=
  Bytes.dropWhile_lower continuesName_toLower text

private theorem written_lower (text : Bytes) : written text.lower = (written text).map lower := by
  have hspace := Bytes.dropWhile_lower Ascii.isSpace_toLower
  have hname := Bytes.takeWhile_lower continuesName_toLower
  fun_induction written text with
  | case1 text h =>
    rw [written_eq, hspace, h]
    rfl
  | case2 text b rest h name hafter =>
    rw [written_eq, hspace, h]
    dsimp only [Bytes.lower_cons]
    rw [← Bytes.lower_cons, afterName_lower, hafter, hname]
    rfl
  | case3 text b rest h name behind read hafter ih =>
    rw [written_eq, hspace, h]
    dsimp only [Bytes.lower_cons]
    rw [← Bytes.lower_cons, afterName_lower, hafter, hname]
    dsimp only [Bytes.lower_cons]
    rw [if_pos (by decide), hspace, takeValue_lower]
    exact congrArg (_ :: ·) ih
  | case4 text b rest h name c behind hafter hc ih =>
    rw [written_eq, hspace, h]
    dsimp only [Bytes.lower_cons]
    rw [← Bytes.lower_cons, afterName_lower, hafter, hname]
    dsimp only [Bytes.lower_cons]
    rw [if_neg (fun heq ↦ hc ((Ascii.toLower_eq_iff rfl).mp heq))]
    exact congrArg (_ :: ·) ih

private theorem withoutSlash_lower (text : Bytes) :
    withoutSlash text.lower = (withoutSlash text).lower := by
  have hlast : text.lower.getLast? = some Ascii.slash ↔ text.getLast? = some Ascii.slash := by
    rw [Bytes.lower, List.getLast?_map, Option.map_eq_some_iff]
    constructor
    · rintro ⟨b, hb, hlower⟩
      rw [hb, (Ascii.toLower_eq_iff rfl).mp hlower]
    · intro h
      exact ⟨Ascii.slash, h, rfl⟩
  rw [withoutSlash, withoutSlash]
  simp only [hlast]
  split
  · exact List.map_dropLast.symm
  · rfl

/-- The named attributes of an attribute list in lower case are those of the list in lower case. -/
theorem named_lower (text : Bytes) : named text.lower = (named text).map lower := by
  have htrimmed : trimmed text.lower = (trimmed text).lower := by
    rw [trimmed, trimmed, Bytes.trimEnd_lower, withoutSlash_lower, Bytes.trimEnd_lower]
  rw [named, named, htrimmed, written_lower, List.filter_map, List.map_map, List.map_map]
  congr 1
  apply List.filter_congr
  intro a _
  rw [Function.comp_apply, lower, Bytes.isEmpty_lower]

/-- Whether a byte can stand in an attribute name does not depend on its letter case. -/
@[simp] theorem isNameByte_toLower (b : UInt8) : isNameByte (Ascii.toLower b) = isNameByte b :=
  Ascii.forall_byte (p := fun b ↦ isNameByte (Ascii.toLower b) = isNameByte b) (by decide +kernel) b

/-- Whether a name is valid does not depend on letter case. -/
theorem isName_lower (name : Bytes) : isName name.lower = isName name := by
  rw [isName, isName, Bytes.isEmpty_lower, Bytes.all_lower isNameByte_toLower]

end Attribute

/-! ### Maps -/

namespace AttributeMap

/-- A map with names and values in lower case. -/
def lower (m : AttributeMap) : AttributeMap :=
  ⟨m.entries.map Attribute.lower, by
    rw [List.pairwise_map]
    apply m.distinct.imp
    intro a b h
    rw [Attribute.lower, Attribute.lower, Bytes.agree, Bytes.lower_lower, Bytes.lower_lower]
    exact h⟩

private theorem agree_lower (s t : Bytes) : Bytes.agree s.lower t = Bytes.agree s t := by
  rw [Bytes.agree, Bytes.agree, Bytes.lower_lower]

/-- An attribute of a map in lower case has its value in lower case. -/
theorem get?_lower (m : AttributeMap) (name : Bytes) :
    m.lower.get? name = (m.get? name).map (Option.map Bytes.lower) := by
  have hagree : (fun a : Bytes × Option Bytes ↦ Bytes.agree a.1 name) ∘ Attribute.lower =
      fun a ↦ Bytes.agree a.1 name := funext fun a ↦ agree_lower a.1 name
  rw [get?, get?, lower, List.find?_map, hagree, Option.map_map, Option.map_map]
  rfl

private theorem insert_lower (m : AttributeMap) (a : Bytes × Option Bytes) :
    m.lower.insert (Attribute.lower a).1 (Attribute.lower a).2 = (m.insert a.1 a.2).lower := by
  have hcontains : m.lower.contains (Attribute.lower a).1 = m.contains a.1 := by
    rw [contains, contains, lower, List.any_map]
    congr 1
    funext b
    rw [Function.comp_apply, Attribute.lower, Attribute.lower, agree_lower, Bytes.agree_comm,
      agree_lower, Bytes.agree_comm]
  apply AttributeMap.ext
  rw [entries_insert, hcontains]
  dsimp only [lower]
  rw [entries_insert]
  split
  · rfl
  · rw [List.map_append]
    rfl

/-- The map of attributes in lower case is their map in lower case. -/
theorem ofList_lower (attributes : List (Bytes × Option Bytes)) :
    ofList (attributes.map Attribute.lower) = (ofList attributes).lower := by
  have hfold : ∀ m : AttributeMap,
      (attributes.map Attribute.lower).foldl (fun m a ↦ m.insert a.1 a.2) m.lower =
        (attributes.foldl (fun m a ↦ m.insert a.1 a.2) m).lower := by
    induction attributes with
    | nil => intro m; rfl
    | cons a attributes ih =>
      intro m
      rw [List.map_cons, List.foldl_cons, List.foldl_cons, insert_lower, ih]
  exact hfold empty

/-- The valid attributes of a markup in lower case are those of the markup in lower case. -/
theorem ofMarkupValid_lower (markup : Bytes) :
    ofMarkupValid markup.lower = (ofMarkupValid markup).lower := by
  have hread : ofMarkup markup.lower = (ofMarkup markup).lower := by
    rw [ofMarkup, ofMarkup, StartTag.ofMarkup?_lower]
    cases StartTag.ofMarkup? markup with
    | none => rfl
    | some tag =>
      rw [Option.map_some]
      dsimp only [ofStartTag, StartTag.lower]
      rw [Attribute.named_lower, ofList_lower]
  apply AttributeMap.ext
  rw [ofMarkupValid, ofMarkupValid, hread, entries_retain]
  dsimp only [lower]
  rw [entries_retain, List.filter_map]
  congr 1
  apply List.filter_congr
  intro a _
  exact Attribute.isName_lower a.1

end AttributeMap

end MarkupSelect
