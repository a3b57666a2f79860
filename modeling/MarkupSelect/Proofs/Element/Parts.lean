import MarkupSelect.Proofs.Element.Placed

/-!
# Splitting what has been resolved

The end of an element is found forward, by the depth of its nesting, and it is split backward, at
the last end tag of its name. The two agree on every text: what they see is a start tag alone, or a
start tag, a content and one end tag.
-/

namespace MarkupSelect

namespace Element

/-- An element expanded from its start tag is that tag alone, or it goes on with a content and ends
with an end tag of its name. -/
theorem expand_cases {text : Bytes} {offset : Nat} {tag : StartTag}
    (h : StartTag.ofMarkup? (text.drop offset) = some tag) :
    expand text offset tag.text = tag.text ∨
      ∃ content last, expand text offset tag.text = tag.text ++ content ++ last ∧
        Bytes.agree last (endTag tag.name) = true := by
  rcases extent_cases h with he | ⟨content, last, rest, hsplit, hlast, he⟩
  · obtain ⟨behind, hbehind⟩ := StartTag.text_prefix_of_ofMarkup? h
    refine .inl ?_
    rw [expand, he, ← hbehind, StartTag.length, List.take_left]
  · refine .inr ⟨content, last, ?_, hlast⟩
    rw [expand, he, hsplit, List.take_left]

end Element

namespace Parts

/-- A start tag alone has no parts, even if it ends like an end tag. -/
theorem ofMarkup?_startTag {tag : StartTag} (h : tag.IsProper) : ofMarkup? tag.text = none := by
  have hself : StartTag.ofMarkup? tag.text = some tag :=
    StartTag.ofMarkup?_eq_some_iff.mpr ⟨h, List.prefix_refl _⟩
  rw [ofMarkup?, hself]
  dsimp only
  split
  · rfl
  · next position hlast =>
    have hfits := ((Bytes.searchLast?_eq_some_iff (Element.endTag_ne_nil tag.name)).mp hlast).1.1
    rw [Element.endTag, List.length_cons] at hfits
    rw [if_pos (by rw [StartTag.length]; omega)]

/-- A start tag, a content and an end tag of the same name are told apart again, whatever the
content holds. -/
theorem ofMarkup?_append {tag : StartTag} (h : tag.IsProper) {last : Bytes}
    (hlast : Bytes.agree last (Element.endTag tag.name) = true) (content : Bytes) :
    ofMarkup? (tag.text ++ content ++ last) = some ⟨tag.text, content, last⟩ := by
  have hself : StartTag.ofMarkup? (tag.text ++ content ++ last) = some tag :=
    StartTag.ofMarkup?_eq_some_iff.mpr ⟨h, content ++ last, by rw [List.append_assoc]⟩
  have hsearch : Bytes.searchLast? (tag.text ++ content ++ last) (Element.endTag tag.name) =
      some (tag.length + content.length) := by
    rw [Bytes.searchLast?_append (Element.endTag_ne_nil tag.name) hlast, List.length_append,
      StartTag.length]
  have hcontent : (tag.text ++ content ++ last).drop tag.length = content ++ last := by
    rw [List.append_assoc]
    exact List.drop_left
  rw [ofMarkup?, hself]
  dsimp only
  rw [hsearch]
  dsimp only
  rw [if_neg (by omega), ← List.drop_drop, hcontent, Nat.add_sub_cancel_left, List.take_left,
    List.drop_left]

/-- On every text, whatever stands in its tags and however they are nested, the element resolved
from a start tag has no parts exactly if it is that start tag alone; otherwise its parts make it up,
the first of them is that start tag, and the last is one end tag of its name and nothing more. -/
theorem ofMarkup?_resolved {text : Bytes} {offset : Nat} {tag : StartTag}
    (h : StartTag.ofMarkup? (text.drop offset) = some tag) :
    (ofMarkup? (Element.expand text offset tag.text) = none ↔
        Element.expand text offset tag.text = tag.text) ∧
      ∀ parts, ofMarkup? (Element.expand text offset tag.text) = some parts →
        parts.startTag ++ parts.content ++ parts.endTag = Element.expand text offset tag.text ∧
          parts.startTag = tag.text ∧
            Bytes.agree parts.endTag (Element.endTag tag.name) = true := by
  have hproper := StartTag.isProper_of_ofMarkup? h
  rcases Element.expand_cases h with halone | ⟨content, last, hexpand, hlast⟩
  · have hnone := ofMarkup?_startTag hproper
    rw [halone, hnone]
    exact ⟨iff_of_true rfl rfl, fun parts hparts ↦ by contradiction⟩
  · have hsplit := ofMarkup?_append hproper hlast content
    rw [hexpand, hsplit]
    constructor
    · refine iff_of_false (by simp) fun hshort ↦ ?_
      -- An end tag is not empty.
      rw [hshort, ofMarkup?_startTag hproper] at hsplit
      contradiction
    · intro parts hparts
      obtain rfl := Option.some.inj hparts
      exact ⟨rfl, rfl, hlast⟩

/-- A start tag that ends like an end tag, a start tag of the same name inside the attribute list
of another, and an end tag that closes nothing behind it. -/
theorem ofMarkup?_resolved_unbalanced :
    let text := Bytes.ofString "<p x</p><P t=<p ><p y></p>z</P></p>"
    let alone : StartTag := ⟨Bytes.ofString "p", Bytes.ofString " x</p"⟩
    let nested : StartTag := ⟨Bytes.ofString "P", Bytes.ofString " t=<p "⟩
    let parts : Parts := ⟨nested.text, Bytes.ofString "<p y></p>z</P>", Bytes.ofString "</p>"⟩
    (StartTag.ofMarkup? (text.drop 0) = some alone ∧
        (ofMarkup? (Element.expand text 0 alone.text) = none ↔
          Element.expand text 0 alone.text = alone.text)) ∧
      (StartTag.ofMarkup? (text.drop 8) = some nested ∧
        ofMarkup? (Element.expand text 8 nested.text) = some parts ∧
          parts.startTag ++ parts.content ++ parts.endTag = Element.expand text 8 nested.text ∧
            parts.startTag = nested.text ∧
              Bytes.agree parts.endTag (Element.endTag nested.name) = true) := by
  intro text alone nested parts
  have halone : StartTag.ofMarkup? (text.drop 0) = some alone := by decide
  have hnested : StartTag.ofMarkup? (text.drop 8) = some nested := by decide
  have hparts : ofMarkup? (Element.expand text 8 nested.text) = some parts := by decide +kernel
  exact ⟨⟨halone, (ofMarkup?_resolved halone).1⟩,
    hnested, hparts, (ofMarkup?_resolved hnested).2 parts hparts⟩

end Parts

end MarkupSelect
