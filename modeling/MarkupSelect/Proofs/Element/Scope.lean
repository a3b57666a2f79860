import MarkupSelect.Proofs.Element.Placed

/-!
# Elements inside a piece of a document

An element can be resolved in the whole document or inside a piece of it that holds its start tag.
The end of the piece cuts tokens off, but none that the search for the end tag has come to before it
succeeds: what is found inside the piece is the element that the document has, or the start tag
alone.
-/

namespace MarkupSelect

/-- A literal that is no longer than a text begins it whatever follows. -/
theorem Bytes.beginsWith_append {literal text : Bytes} (h : literal.length ≤ text.length)
    (rest : Bytes) : beginsWith literal (text ++ rest) = beginsWith literal text := by
  rw [Bool.eq_iff_iff, beginsWith_iff, beginsWith_iff, lower_append]
  constructor
  · intro hlong
    refine List.prefix_of_prefix_length_le hlong (List.prefix_append _ _) ?_
    rw [length_lower, length_lower]
    exact h
  · exact fun hshort ↦ hshort.trans (List.prefix_append _ _)

namespace Element

/-! ### Tokens at the end of a piece -/

private theorem startsTag_append {name text : Bytes} (h : (endTag name).length ≤ text.length)
    (rest : Bytes) : startsTag name (text ++ rest) = startsTag name text := by
  have hlt : (openLiteral name).length < text.length := by
    simp only [endTag, openLiteral, List.length_cons, List.length_append] at h ⊢
    omega
  obtain ⟨b, behind, hbehind⟩ : ∃ b behind, text.drop (openLiteral name).length = b :: behind :=
    ⟨_, _, List.drop_eq_getElem_cons hlt⟩
  rw [startsTag, startsTag, Bytes.beginsWith_append (Nat.le_of_lt hlt),
    List.drop_append_of_le_length (Nat.le_of_lt hlt), hbehind]
  rfl

private theorem length_le_of_depthEnd? {name text : Bytes} {depth position i : Nat}
    (h : depthEnd? name depth position text = some i) : (endTag name).length ≤ text.length := by
  obtain ⟨lead, last, rest, rfl, hlast, -⟩ := depthEnd?_eq_some h
  have hlen := congrArg List.length (Bytes.agree_iff.mp hlast)
  rw [Bytes.length_lower, Bytes.length_lower] at hlen
  rw [List.length_append, List.length_append, hlen]
  omega

/-- The end tag at which the depth becomes 0 is the same whatever follows the text. -/
theorem depthEnd?_append {name text : Bytes} {depth position i : Nat}
    (h : depthEnd? name depth position text = some i) (rest : Bytes) :
    depthEnd? name depth position (text ++ rest) = some i := by
  induction text generalizing depth position with
  | nil => contradiction
  | cons b text ih =>
    -- Up to the end tag found there is room for every token that could begin.
    have hroom := length_le_of_depthEnd? h
    rw [depthEnd?] at h
    rw [List.cons_append, depthEnd?, ← List.cons_append, startsTag_append hroom,
      Bytes.beginsWith_append hroom]
    split at h
    · next hopen =>
      rw [if_pos hopen]
      exact ih h
    · next hopen =>
      rw [if_neg hopen]
      split at h
      · next hclose =>
        rw [if_pos hclose]
        split at h
        · next hdepth =>
          rw [if_pos hdepth]
          exact h
        · next hdepth =>
          rw [if_neg hdepth]
          exact ih h
      · next hclose =>
        rw [if_neg hclose]
        exact ih h

/-! ### Elements of a piece -/

/-- In a beginning of a text an element reaches as far as in all of the text, or over its start tag
alone. -/
theorem extent_append {piece : Bytes} {tag : StartTag} (h : StartTag.ofMarkup? piece = some tag)
    (rest : Bytes) :
    extent piece tag.text = extent (piece ++ rest) tag.text ∨
      extent piece tag.text = tag.length := by
  have hinside := StartTag.text_prefix_of_ofMarkup? h
  have hall : StartTag.ofMarkup? (piece ++ rest) = some tag :=
    StartTag.ofMarkup?_of_prefix h (hinside.trans (List.prefix_append _ _))
  cases hv : Tag.isVoid tag.name with
  | true => exact .inr (extent_of_isVoid h hv)
  | false =>
    have hname : 1 + tag.name.length ≤ piece.length := by
      have := hinside.length_le
      have := tag.length_eq
      rw [StartTag.length] at this
      omega
    rw [extent_eq_depthEnd? h hv, extent_eq_depthEnd? hall hv,
      List.drop_append_of_le_length hname]
    cases hd : depthEnd? tag.name 1 (1 + tag.name.length) (piece.drop (1 + tag.name.length)) with
    | none => exact .inr rfl
    | some i => exact .inl (by rw [depthEnd?_append hd])

private theorem take_extent_append {piece : Bytes} {tag : StartTag}
    (h : StartTag.ofMarkup? piece = some tag) (rest : Bytes) :
    piece.take (extent piece tag.text) = (piece ++ rest).take (extent (piece ++ rest) tag.text) ∨
      piece.take (extent piece tag.text) = tag.text := by
  rcases extent_append h rest with hsame | halone
  · refine .inl ?_
    rw [← hsame, List.take_append_of_le_length (extent_bounds h).2]
  · obtain ⟨behind, hbehind⟩ := StartTag.text_prefix_of_ofMarkup? h
    refine .inr ?_
    rw [halone, ← hbehind, StartTag.length, List.take_left]

/-- A markup is one start tag and nothing else. -/
def IsAlone (markup : Bytes) : Prop :=
  ∃ tag, StartTag.ofMarkup? markup = some tag ∧ markup = tag.text

/-- An entry agrees with the element that a document has at its offset: there is one, the entry is a
beginning of it, and it is all of it unless it is a start tag alone. -/
def AgreesWith (document : Bytes) (e : Nat × Bytes) : Prop :=
  ∃ element, at? document e.1 = some element ∧ e.2 <+: element ∧ (e.2 = element ∨ IsAlone e.2)

/-- An element of a piece of a document agrees with the element of the document. -/
theorem IsResolvedIn.agreesWith {document : Bytes} {r : Region}
    (hr : (Region.whole document).Holds (r.base, r.text)) {e : Nat × Bytes}
    (h : IsResolvedIn r e) : AgreesWith document e := by
  obtain ⟨i, tag, htag, rfl⟩ := h
  obtain ⟨before, after, rfl, hbefore⟩ := Region.holds_whole.mp hr
  dsimp only at hbefore ⊢
  have hi := offset_le_of_ofMarkup? htag
  have hdrop : (before ++ r.text ++ after).drop (r.absolute i) = r.text.drop i ++ after := by
    rw [Region.absolute, ← hbefore, ← List.drop_drop, List.append_assoc, List.drop_left,
      List.drop_append_of_le_length hi]
  have hall : StartTag.ofMarkup? ((before ++ r.text ++ after).drop (r.absolute i)) = some tag := by
    rw [hdrop]
    exact StartTag.ofMarkup?_of_prefix htag
      ((StartTag.text_prefix_of_ofMarkup? htag).trans (List.prefix_append _ _))
  refine ⟨expand (before ++ r.text ++ after) (r.absolute i) tag.text, by rw [at?, hall]; rfl, ?_⟩
  have hbegins := StartTag.text_prefix_of_ofMarkup? (ofMarkup?_expand hall)
  unfold expand at hbegins ⊢
  dsimp only
  rw [hdrop] at hbegins ⊢
  rcases take_extent_append htag after with hsame | halone
  · exact ⟨hsame ▸ List.prefix_refl _, .inl hsame⟩
  · rw [halone]
    exact ⟨hbegins, .inr ⟨tag, StartTag.ofMarkup?_text htag, rfl⟩⟩

/-- Between two offsets of a document that a start tag lies between, the element resolved from the
start tag is that of the document, or the start tag alone. -/
theorem expand_slice {document : Bytes} {first last offset : Nat} {tag : StartTag}
    (h : StartTag.ofMarkup? (document.drop offset) = some tag) (hfirst : first ≤ offset)
    (hlast : offset + tag.length ≤ last) :
    StartTag.ofMarkup? (((document.take last).drop first).drop (offset - first)) = some tag ∧
      (at? document offset =
          some (expand ((document.take last).drop first) (offset - first) tag.text) ∨
        expand ((document.take last).drop first) (offset - first) tag.text = tag.text) := by
  have hslice : ((document.take last).drop first).drop (offset - first) =
      (document.drop offset).take (last - offset) := by
    rw [List.drop_drop, Nat.add_sub_cancel' hfirst, List.drop_take]
  have hpiece : StartTag.ofMarkup? ((document.drop offset).take (last - offset)) = some tag := by
    refine StartTag.ofMarkup?_of_prefix h ?_
    rw [List.prefix_take_iff]
    refine ⟨StartTag.text_prefix_of_ofMarkup? h, ?_⟩
    rw [StartTag.length] at hlast
    omega
  have hcases := take_extent_append hpiece ((document.drop offset).drop (last - offset))
  rw [List.take_append_drop] at hcases
  rw [at?, h, expand, hslice]
  exact ⟨hpiece, hcases.imp_left fun hsame ↦ by rw [hsame]; rfl⟩

end Element

end MarkupSelect
